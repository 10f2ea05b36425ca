import Mathlib.Data.List.Basic

/-!
# The history of a FIFO queue

The events of a history each add some entries at the end of a queue, or remove some at its front.

* `Balanced t queue` — what was removed, followed by what is in the queue, is what was added: nothing
  is lost, nothing is there twice, and the order is kept.
* `contents t` — the queue, read off its history.
* `of_concat_prefix_append` — where an event of a history that has grown stands.
-/

namespace VideoStream.Library.Fifo

variable {ε α : Type*} (added removed : ε → List α)

def Balanced (t : List ε) (queue : List α) : Prop :=
  t.flatMap removed ++ queue = t.flatMap added

/-- The queue after the history `t`. -/
def contents (t : List ε) : List α := (t.flatMap added).drop (t.flatMap removed).length

variable {added removed} {t es : List ε} {queue queue' : List α}

theorem Balanced.nil : Balanced added removed [] [] := rfl

/-- The history goes on by `es`, which turns `queue` into `queue'`. -/
theorem Balanced.append (h : Balanced added removed t queue)
    (hes : es.flatMap removed ++ queue' = queue ++ es.flatMap added) :
    Balanced added removed (t ++ es) queue' :=
  calc (t ++ es).flatMap removed ++ queue'
      = t.flatMap removed ++ (es.flatMap removed ++ queue') := by
        rw [List.flatMap_append, List.append_assoc]
    _ = t.flatMap removed ++ queue ++ es.flatMap added := by rw [hes, List.append_assoc]
    _ = (t ++ es).flatMap added := by rw [h, List.flatMap_append]

theorem Balanced.contents_eq (h : Balanced added removed t queue) :
    contents added removed t = queue := by
  rw [contents, ← h, List.drop_left]

/-- An event of the longer history is one of the shorter, or new. -/
theorem of_concat_prefix_append {a : List ε} {e : ε} (h : a ++ [e] <+: t ++ es) :
    a ++ [e] <+: t ∨ ∃ b, a = t ++ b ∧ b ++ [e] <+: es := by
  rcases List.prefix_or_prefix_of_prefix h (List.prefix_append t es) with hold | hnew
  · exact .inl hold
  · rcases List.prefix_concat_iff.mp hnew with rfl | ⟨b, rfl⟩
    · exact .inl (List.prefix_refl _)
    · rw [List.append_assoc] at h
      exact .inr ⟨b, rfl, (List.prefix_append_right_inj t).mp h⟩

theorem of_concat_prefix_singleton {a : List ε} {e x : ε} (h : a ++ [e] <+: [x]) :
    a = [] ∧ e = x := by
  cases a with
  | nil => exact ⟨rfl, (List.cons_prefix_cons.mp h).1⟩
  | cons y a =>
      have hnil := List.prefix_nil.mp (List.cons_prefix_cons.mp h).2
      exact absurd hnil (by simp)

end VideoStream.Library.Fifo
