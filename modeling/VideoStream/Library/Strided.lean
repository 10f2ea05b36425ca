import Mathlib.Algebra.BigOperators.Group.List.Basic
import Mathlib.Data.List.Forall2

/-!
# Strided arrays

An array of `n` axes is a block of memory that is addressed by a stride for each axis. A shape and an
index are lists of numbers, one for each axis, outermost first.

* `offset strides idx` — where the element `idx` lies.
* `packed shape` — the strides without gaps, the last axis running fastest.
* `forall_offset_eq_iff` — two stride vectors address the same elements of a shape exactly when they
  agree on the axes that are longer than one, or there are no elements.
* `forall_memory_iff` — two addresses hold the same in every memory exactly when they are equal.
-/

namespace VideoStream.Library.Strided

def offset : List Int → List Nat → Int
  | s :: strides, i :: idx => i * s + offset strides idx
  | _, _ => 0

/-- The strides of the array without gaps. -/
def packed : List Nat → List Int
  | [] => []
  | _ :: shape => (shape.prod : Nat) :: packed shape

/-- Every index is below the length of its axis. -/
def InBounds (shape idx : List Nat) : Prop := List.Forall₂ (fun n i => i < n) shape idx

/-- The strides agree on the axes that are longer than one. -/
def AgreeOnLong : List Nat → List Int → List Int → Prop
  | n :: shape, s :: strides, s' :: strides' => (1 < n → s = s') ∧ AgreeOnLong shape strides strides'
  | _, _, _ => True

instance decidableAgreeOnLong : ∀ shape strides strides', Decidable (AgreeOnLong shape strides strides')
  | _ :: shape, _ :: strides, _ :: strides' =>
      have := decidableAgreeOnLong shape strides strides'
      inferInstanceAs (Decidable ((_ → _) ∧ _))
  | [], _, _ | _ :: _, [], _ | _ :: _, _ :: _, [] => isTrue trivial

variable {shape : List Nat} {strides strides' : List Int}

theorem length_packed (shape : List Nat) : (packed shape).length = shape.length := by
  induction shape with
  | nil => rfl
  | cons n shape ih => rw [packed, List.length_cons, ih, List.length_cons]

theorem offset_replicate_zero (strides : List Int) (n : Nat) :
    offset strides (List.replicate n 0) = 0 := by
  induction strides generalizing n with
  | nil => cases n <;> rfl
  | cons s strides ih =>
      cases n with
      | zero => rfl
      | succ n => simp [List.replicate_succ, offset, ih]

/-- The first element, of an array that has one. -/
theorem inBounds_replicate_zero (h : 0 ∉ shape) :
    InBounds shape (List.replicate shape.length 0) := by
  induction shape with
  | nil => exact .nil
  | cons n shape ih =>
      have hn : n ≠ 0 := fun hn => h (hn ▸ List.mem_cons_self)
      exact .cons (Nat.pos_of_ne_zero hn) (ih fun hmem => h (List.mem_cons_of_mem n hmem))

theorem not_inBounds_of_zero (h : 0 ∈ shape) (idx : List Nat) : ¬ InBounds shape idx := by
  intro hidx
  induction hidx with
  | nil => cases h
  | cons hi _ ih =>
      rcases List.mem_cons.mp h with rfl | hmem
      · exact Nat.not_lt_zero _ hi
      · exact ih hmem

theorem AgreeOnLong.offset_eq (h : AgreeOnLong shape strides strides') {idx : List Nat}
    (hidx : InBounds shape idx) (hs : strides.length = shape.length)
    (hs' : strides'.length = shape.length) : offset strides idx = offset strides' idx := by
  induction hidx generalizing strides strides' with
  | nil =>
      obtain rfl := List.eq_nil_of_length_eq_zero hs
      obtain rfl := List.eq_nil_of_length_eq_zero hs'
      rfl
  | @cons n i shape idx hi _ ih =>
      obtain ⟨s, strides, rfl⟩ := List.exists_cons_of_length_eq_add_one hs
      obtain ⟨s', strides', rfl⟩ := List.exists_cons_of_length_eq_add_one hs'
      obtain ⟨hhead, htail⟩ := h
      rw [offset, offset, ih htail (Nat.succ.inj hs) (Nat.succ.inj hs')]
      congr 1
      -- on an axis that is not longer than one the only index is zero
      by_cases hn : 1 < n
      · rw [hhead hn]
      · have hi0 : i = 0 := by omega
        simp [hi0]

theorem agreeOnLong_of_forall (hne : 0 ∉ shape) (hs : strides.length = shape.length)
    (hs' : strides'.length = shape.length)
    (h : ∀ idx, InBounds shape idx → offset strides idx = offset strides' idx) :
    AgreeOnLong shape strides strides' := by
  induction shape generalizing strides strides' with
  | nil => trivial
  | cons n shape ih =>
      obtain ⟨s, strides, rfl⟩ := List.exists_cons_of_length_eq_add_one hs
      obtain ⟨s', strides', rfl⟩ := List.exists_cons_of_length_eq_add_one hs'
      have hn : n ≠ 0 := fun hn => hne (hn ▸ List.mem_cons_self)
      have hshape : 0 ∉ shape := fun hmem => hne (List.mem_cons_of_mem n hmem)
      refine ⟨fun hlong => ?_, ?_⟩
      · -- one step along this axis
        have hone := h (1 :: List.replicate shape.length 0)
          (.cons hlong (inBounds_replicate_zero hshape))
        simpa [offset, offset_replicate_zero] using hone
      · refine ih hshape (Nat.succ.inj hs) (Nat.succ.inj hs') fun idx hidx => ?_
        have hzero := h (0 :: idx) (.cons (Nat.pos_of_ne_zero hn) hidx)
        simpa [offset] using hzero

theorem forall_offset_eq_iff (hs : strides.length = shape.length)
    (hs' : strides'.length = shape.length) :
    (∀ idx, InBounds shape idx → offset strides idx = offset strides' idx) ↔
      0 ∈ shape ∨ AgreeOnLong shape strides strides' := by
  constructor
  · intro h
    by_cases hzero : 0 ∈ shape
    · exact .inl hzero
    · exact .inr (agreeOnLong_of_forall hzero hs hs' h)
  · intro h idx hidx
    rcases h with hzero | hagree
    · exact absurd hidx (not_inBounds_of_zero hzero idx)
    · exact hagree.offset_eq hidx hs hs'

theorem forall_memory_iff {α β : Type*} [DecidableEq α] [Nontrivial β] {x y : α} :
    (∀ mem : α → β, mem x = mem y) ↔ x = y := by
  constructor
  · intro h
    obtain ⟨b, b', hb⟩ := exists_pair_ne β
    by_contra hxy
    have hmem := h fun z => if z = x then b else b'
    rw [if_pos rfl, if_neg (Ne.symm hxy)] at hmem
    exact hb hmem
  · intro h mem
    rw [h]

end VideoStream.Library.Strided
