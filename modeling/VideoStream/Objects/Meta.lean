/-!
# Metas, as the nodes see them

Metas travel through the pipeline as `shared_ptr<vp_meta>`. A node reads two things of the object
behind such a pointer: its `meta_type_` field, to pick a branch, and its dynamic type, through
`dynamic_pointer_cast`. The two are independent fields of the object — `meta_type_` is a plain
public member — so nothing here makes them agree; `WellTyped` says that they do.

A type `M` of pointer values is a parameter: the rest of a meta (frame data, indices, …) may be
changed in place by handlers and scripts while the pointer stays the same. A pointer that may be
null is an `Option M`.
-/

namespace VideoStream

/-- `vp_meta_type`. The default constructor of `vp_meta` leaves the field uninitialised: `other` is
any value that is neither of the two enumerators. -/
inductive MetaType where
  | frame
  | control
  | other (raw : Nat)
  deriving DecidableEq, Repr

/-- What a node reads of the object behind a non-null `shared_ptr<vp_meta>`: the field
`meta_type_`, and whether the dynamic type is `vp_frame_meta` (the only other concrete class is
`vp_control_meta`). -/
class Meta (M : Type) where
  metaType : M → MetaType
  isFrame : M → Bool

namespace Meta

variable {M : Type} [Meta M]

/-- `dynamic_pointer_cast<vp_frame_meta>(m)`. -/
def castFrame (m : M) : Option M := if isFrame m then some m else none

/-- `dynamic_pointer_cast<vp_control_meta>(m)`. -/
def castControl (m : M) : Option M := if isFrame m then none else some m

/-- `m` is a frame meta and says so. -/
def FrameMeta (m : M) : Prop := metaType m = .frame ∧ isFrame m = true

/-- `m` is a control meta and says so. -/
def ControlMeta (m : M) : Prop := metaType m = .control ∧ isFrame m = false

/-- The tag agrees with the dynamic type. -/
def WellTyped (m : M) : Prop := FrameMeta m ∨ ControlMeta m

/-- `meta_type_` is one of the two enumerators. -/
def Tagged (m : M) : Prop := metaType m = .frame ∨ metaType m = .control

instance (m : M) : Decidable (Tagged m) := inferInstanceAs (Decidable (_ ∨ _))

instance (m : M) : Decidable (FrameMeta m) := inferInstanceAs (Decidable (_ ∧ _))

instance (m : M) : Decidable (ControlMeta m) := inferInstanceAs (Decidable (_ ∧ _))

instance (m : M) : Decidable (WellTyped m) := inferInstanceAs (Decidable (_ ∨ _))

@[simp] theorem castFrame_of_frameMeta {m : M} (h : FrameMeta m) : castFrame m = some m := by
  simp [castFrame, h.2]

@[simp] theorem castControl_of_controlMeta {m : M} (h : ControlMeta m) :
    castControl m = some m := by
  simp [castControl, h.2]

theorem FrameMeta.not_controlMeta {m : M} (h : FrameMeta m) : ¬ ControlMeta m := by
  intro hc
  rw [ControlMeta, h.2] at hc
  exact Bool.noConfusion hc.2

theorem WellTyped.tagged {m : M} (h : WellTyped m) : Tagged m := h.imp (·.1) (·.1)

end Meta

/-- A concrete pointer: the address of the object and what a node reads of it. -/
structure MetaPtr where
  addr : Nat
  metaType : MetaType
  isFrame : Bool
  deriving DecidableEq, Repr

instance : Meta MetaPtr where
  metaType := MetaPtr.metaType
  isFrame := MetaPtr.isFrame

/-- A pointer to a well-typed frame meta. -/
def MetaPtr.frame (addr : Nat) : MetaPtr := ⟨addr, .frame, true⟩

/-- A pointer to a well-typed control meta. -/
def MetaPtr.control (addr : Nat) : MetaPtr := ⟨addr, .control, false⟩

end VideoStream
