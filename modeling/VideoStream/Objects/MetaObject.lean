import Mathlib.Data.List.Basic
import VideoStream.Objects.Meta

/-!
# The objects behind the pointers

Metas are made by the constructors of `vp_frame_meta` and `vp_control_meta` and by `clone`, and
changed in place through the attributes that the Python module exposes. `Image` stands for `cv::Mat`.
A heap is the list of the objects made so far, an address is a position in it; an object stays as
long as somebody points to it, so that an address is never used again.

`meta_type` is one of the attributes that may be written (`def_readwrite`), and a `vp_meta_type` can
be made from any integer. So the tag of an object is what its constructor gave it only as long as no
write changes it: `KeepsTag` says that an operation on the heap does not, and
`MetaHeap.step_typed` that then all tags agree with the classes.
-/

namespace VideoStream

/-- `vp_control_type` -/
inductive ControlType where
  | speak
  | videoRecord
  | imageRecord
  deriving DecidableEq

structure VpFrameMeta (Image : Type) where
  metaType : MetaType
  channelIndex : Int
  frameIndex : Int
  originalWidth : Int
  originalHeight : Int
  fps : Int
  frame : Image
  deriving DecidableEq

structure VpControlMeta where
  metaType : MetaType
  channelIndex : Int
  controlType : ControlType
  deriving DecidableEq

/-- The constructor of `vp_frame_meta` with arguments. -/
def vpFrameMeta {Image : Type} (frame : Image)
    (frameIndex channelIndex originalWidth originalHeight fps : Int) : VpFrameMeta Image where
  metaType := .frame
  channelIndex := channelIndex
  frameIndex := frameIndex
  originalWidth := originalWidth
  originalHeight := originalHeight
  fps := fps
  frame := frame

def vpControlMeta (controlType : ControlType) (channelIndex : Int) : VpControlMeta where
  metaType := .control
  channelIndex := channelIndex
  controlType := controlType

/-- An object, of one of the two concrete classes. -/
inductive MetaObject (Image : Type) where
  | frameMeta (m : VpFrameMeta Image)
  | controlMeta (m : VpControlMeta)
  deriving DecidableEq

/-- A write to an attribute of the Python module. -/
inductive MetaWrite (Image : Type) where
  | metaType (t : MetaType)
  | channelIndex (value : Int)
  | frameIndex (value : Int)
  | fps (value : Int)
  | originalWidth (value : Int)
  | originalHeight (value : Int)
  | frame (value : Image)
  deriving DecidableEq

namespace MetaObject

variable {Image : Type}

def metaType : MetaObject Image → MetaType
  | frameMeta m => m.metaType
  | controlMeta m => m.metaType

def isFrame : MetaObject Image → Bool
  | frameMeta _ => true
  | controlMeta _ => false

/-- The tag that belongs to the class of the object. -/
def classTag : MetaObject Image → MetaType
  | frameMeta _ => .frame
  | controlMeta _ => .control

/-- `clone`, by the copy constructor. -/
def clone : MetaObject Image → MetaObject Image
  | frameMeta m => frameMeta m
  | controlMeta m => controlMeta m

/-- The attributes of `vp_meta` are there on both classes; writing one of the others on a control
meta is an error, and changes nothing. A Python script cannot write `frame`: the assignment hands
over one value, the setter `set_frame_numpy(arr, copy)` takes two, and the `TypeError` changes
nothing. Here the write is one of C++ code, which has the field itself. -/
def write : MetaWrite Image → MetaObject Image → MetaObject Image
  | .metaType t, frameMeta m => frameMeta { m with metaType := t }
  | .metaType t, controlMeta m => controlMeta { m with metaType := t }
  | .channelIndex c, frameMeta m => frameMeta { m with channelIndex := c }
  | .channelIndex c, controlMeta m => controlMeta { m with channelIndex := c }
  | .frameIndex i, frameMeta m => frameMeta { m with frameIndex := i }
  | .fps i, frameMeta m => frameMeta { m with fps := i }
  | .originalWidth i, frameMeta m => frameMeta { m with originalWidth := i }
  | .originalHeight i, frameMeta m => frameMeta { m with originalHeight := i }
  | .frame i, frameMeta m => frameMeta { m with frame := i }
  | _, controlMeta m => controlMeta m

/-- The tag agrees with the class. -/
def WellTyped (o : MetaObject Image) : Prop :=
  (o.metaType = .frame ↔ o.isFrame = true) ∧ (o.metaType = .control ↔ o.isFrame = false)

theorem wellTyped_iff {o : MetaObject Image} : o.WellTyped ↔ o.metaType = o.classTag := by
  cases o with
  | frameMeta m => cases h : m.metaType <;> simp [WellTyped, metaType, isFrame, classTag, h]
  | controlMeta m => cases h : m.metaType <;> simp [WellTyped, metaType, isFrame, classTag, h]

@[simp] theorem clone_eq (o : MetaObject Image) : o.clone = o := by
  cases o <;> rfl

/-- Only a write to `meta_type` touches the tag. -/
theorem write_metaType (w : MetaWrite Image) (o : MetaObject Image) :
    (o.write w).classTag = o.classTag ∧
      (o.write w).metaType = match w with
        | .metaType t => t
        | _ => o.metaType := by
  cases w <;> cases o <;> exact ⟨rfl, rfl⟩

end MetaObject

/-! ## The heap -/

abbrev MetaHeap (Image : Type) := List (MetaObject Image)

/-- The operations on the heap. The default constructor of `vp_frame_meta` gives none of its fields a
value: `m` is what it leaves, from Python all zero. -/
inductive MetaAct (Image : Type) where
  | vpFrameMeta (frame : Image) (frameIndex channelIndex originalWidth originalHeight fps : Int)
  | vpFrameMetaDefault (m : VpFrameMeta Image)
  | vpControlMeta (controlType : ControlType) (channelIndex : Int)
  | clone (a : Nat)
  | write (a : Nat) (w : MetaWrite Image)
  deriving DecidableEq

namespace MetaHeap

variable {Image : Type}

def step (heap : MetaHeap Image) : MetaAct Image → Option (MetaHeap Image)
  | .vpFrameMeta frame frameIndex channelIndex originalWidth originalHeight fps =>
      some (heap ++ [.frameMeta
        (vpFrameMeta frame frameIndex channelIndex originalWidth originalHeight fps)])
  | .vpFrameMetaDefault m => some (heap ++ [.frameMeta m])
  | .vpControlMeta controlType channelIndex =>
      some (heap ++ [.controlMeta (vpControlMeta controlType channelIndex)])
  | .clone a => heap[a]?.map fun o => heap ++ [o.clone]
  | .write a w => heap[a]?.map fun o => heap.set a (o.write w)

/-- The operation gives no object a tag that is not the one of its class. -/
def KeepsTag (heap : MetaHeap Image) : MetaAct Image → Prop
  | .vpFrameMetaDefault m => m.metaType = .frame
  | .write a (.metaType t) => heap[a]?.map MetaObject.classTag = some t
  | _ => True

/-- All tags agree with the classes. -/
def Typed (heap : MetaHeap Image) : Prop := ∀ o ∈ heap, o.WellTyped

/-- What a node reads of the objects on the heap. -/
@[reducible] def asMeta (heap : MetaHeap Image) : Meta Nat where
  metaType a := (heap[a]?.map MetaObject.metaType).getD (.other 0)
  isFrame a := (heap[a]?.map MetaObject.isFrame).getD false

variable {heap heap' : MetaHeap Image}

instance decidableKeepsTag (heap : MetaHeap Image) : ∀ a, Decidable (heap.KeepsTag a)
  | .vpFrameMetaDefault _ => inferInstanceAs (Decidable (_ = _))
  | .write _ (.metaType _) => inferInstanceAs (Decidable (_ = _))
  | .vpFrameMeta .. | .vpControlMeta .. | .clone _ | .write _ (.channelIndex _)
  | .write _ (.frameIndex _) | .write _ (.fps _) | .write _ (.originalWidth _)
  | .write _ (.originalHeight _) | .write _ (.frame _) => isTrue trivial

theorem Typed.append (h : heap.Typed) {o : MetaObject Image} (ho : o.WellTyped) :
    Typed (heap ++ [o]) := by
  intro x hx
  rcases List.mem_append.mp hx with hx | hx
  · exact h x hx
  · rwa [List.mem_singleton.mp hx]

theorem step_typed {a : MetaAct Image} (h : heap.step a = some heap') (hkeeps : heap.KeepsTag a)
    (htyped : heap.Typed) : heap'.Typed := by
  cases a with
  | vpFrameMeta frame frameIndex channelIndex originalWidth originalHeight fps =>
      cases h
      exact htyped.append (MetaObject.wellTyped_iff.mpr rfl)
  | vpFrameMetaDefault m =>
      cases h
      exact htyped.append (MetaObject.wellTyped_iff.mpr hkeeps)
  | vpControlMeta controlType channelIndex =>
      cases h
      exact htyped.append (MetaObject.wellTyped_iff.mpr rfl)
  | clone a =>
      obtain ⟨o, ho, rfl⟩ := Option.map_eq_some_iff.mp h
      rw [o.clone_eq]
      exact htyped.append (htyped o (List.mem_of_getElem? ho))
  | write a w =>
      obtain ⟨o, ho, rfl⟩ := Option.map_eq_some_iff.mp h
      intro x hx
      rcases List.mem_or_eq_of_mem_set hx with hx | rfl
      · exact htyped x hx
      · have hold := MetaObject.wellTyped_iff.mp (htyped o (List.mem_of_getElem? ho))
        obtain ⟨hclass, htag⟩ := o.write_metaType w
        rw [MetaObject.wellTyped_iff, hclass, htag]
        cases w with
        | metaType t =>
            have hkeeps : heap[a]?.map MetaObject.classTag = some t := hkeeps
            rw [ho] at hkeeps
            exact (Option.some.inj hkeeps).symm
        | _ => exact hold

/-- An operation against `KeepsTag` leaves an object whose tag is not the one of its class. -/
theorem not_typed_of_not_keepsTag {a : MetaAct Image} (h : heap.step a = some heap')
    (hkeeps : ¬ heap.KeepsTag a) : ¬ heap'.Typed := by
  intro htyped
  cases a with
  | vpFrameMetaDefault m =>
      cases h
      exact hkeeps (MetaObject.wellTyped_iff.mp (htyped _ List.mem_concat_self))
  | write a w =>
      obtain ⟨o, ho, rfl⟩ := Option.map_eq_some_iff.mp h
      cases w with
      | metaType t =>
          have hlt := (List.getElem?_eq_some_iff.mp ho).1
          have hmem : o.write (.metaType t) ∈ heap.set a (o.write (.metaType t)) :=
            List.mem_set hlt _
          have heq : t = o.classTag := by
            have htag := MetaObject.wellTyped_iff.mp (htyped _ hmem)
            rwa [(o.write_metaType _).1, (o.write_metaType _).2] at htag
          refine hkeeps ?_
          show heap[a]?.map MetaObject.classTag = some t
          rw [ho, heq]
          rfl
      | _ => exact hkeeps trivial
  | _ => exact hkeeps trivial

theorem step_length {a : MetaAct Image} (h : heap.step a = some heap') :
    heap.length ≤ heap'.length := by
  cases a with
  | clone a =>
      obtain ⟨o, -, rfl⟩ := Option.map_eq_some_iff.mp h
      simp
  | write a w =>
      obtain ⟨o, -, rfl⟩ := Option.map_eq_some_iff.mp h
      simp
  | _ => cases h; simp

/-- On a heap with the right tags a node reads the right tags. -/
theorem Typed.wellTyped (h : heap.Typed) {a : Nat} (ha : a < heap.length) :
    @Meta.WellTyped Nat heap.asMeta a := by
  obtain ⟨o, ho⟩ : ∃ o, heap[a]? = some o := ⟨_, List.getElem?_eq_getElem ha⟩
  have htag := MetaObject.wellTyped_iff.mp (h o (List.mem_of_getElem? ho))
  have hread : heap.asMeta.metaType a = o.classTag ∧ heap.asMeta.isFrame a = o.isFrame := by
    show (heap[a]?.map _).getD _ = _ ∧ (heap[a]?.map _).getD _ = _
    rw [ho]
    exact ⟨htag, rfl⟩
  cases o with
  | frameMeta m => exact .inl hread
  | controlMeta m => exact .inr hread

end MetaHeap

end VideoStream
