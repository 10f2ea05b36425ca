import Mathlib.Data.Finset.Card
import Mathlib.Logic.Function.Basic

/-!
# Wake-ups

Threads stand at program counters. Some of those rest (`R`), others are on the way to wake somebody
(`W`). `Attended` says that where a thread rests, another one is on the way. The rules say when it
survives the step of one thread.

* `Attended.mono` — fewer threads rest, and those on the way stay there.
* `Attended.update` — the thread that moves does not come to rest, and does not leave the way.
* `Attended.leave` — it may leave the way if another thread is there, and only then
  (`Attended.not_leave`).

`AtLeast` counts the threads that are on the way.
-/

namespace VideoStream.Library

variable {T α : Type*} {R R' W W' : α → Prop} {pcs pcs' : T → α} {t : T} {pc : α}

def Attended (R W : α → Prop) (pcs : T → α) : Prop := (∃ t, R (pcs t)) → ∃ v, W (pcs v)

namespace Attended

theorem of_waker (h : W (pcs t)) : Attended R W pcs := fun _ => ⟨t, h⟩

theorem of_none (h : ∀ u, ¬ R (pcs u)) : Attended R W pcs := fun ⟨u, hu⟩ => absurd hu (h u)

theorem mono (h : Attended R W pcs) (hR : ∀ u, R' (pcs' u) → R (pcs u))
    (hW : ∀ v, W (pcs v) → W' (pcs' v)) : Attended R' W' pcs' := by
  intro hrest
  obtain ⟨u, hu⟩ := hrest
  obtain ⟨v, hv⟩ := h ⟨u, hR u hu⟩
  exact ⟨v, hW v hv⟩

variable [DecidableEq T]

theorem update (h : Attended R W pcs) (hR : R' pc → R (pcs t)) (hR' : ∀ pc, R' pc → R pc)
    (hW : W (pcs t) → W pc) : Attended R' W (Function.update pcs t pc) := by
  apply h.mono
  · rw [Function.forall_update_iff pcs fun u pc => R' pc → R (pcs u)]
    exact ⟨hR, fun u _ => hR' (pcs u)⟩
  · rw [Function.forall_update_iff pcs fun v pc => W (pcs v) → W pc]
    exact ⟨hW, fun v _ => id⟩

theorem update_waker (h : W pc) : Attended R W (Function.update pcs t pc) :=
  of_waker (t := t) (by rwa [Function.update_self])

/-- The thread `t` leaves the way; nobody else is lost. -/
theorem leave (hpc : ¬ R pc) (h : ∀ u, u ≠ t → R (pcs u) → ∃ v, v ≠ t ∧ W (pcs v)) :
    Attended R W (Function.update pcs t pc) := by
  intro hrest
  rw [Function.exists_update_iff pcs fun _ pc => R pc] at hrest
  rw [Function.exists_update_iff pcs fun _ pc => W pc]
  rcases hrest with hnew | ⟨u, hut, hu⟩
  · exact absurd hnew hpc
  · exact .inr (h u hut hu)

/-- It may not leave the way otherwise. -/
theorem not_leave {u : T} (hut : u ≠ t) (hu : R (pcs u)) (hpc : ¬ W pc)
    (hnone : ∀ v, v ≠ t → ¬ W (pcs v)) : ¬ Attended R W (Function.update pcs t pc) := by
  intro h
  have hwaker := h ⟨u, by rwa [Function.update_of_ne hut]⟩
  rw [Function.exists_update_iff pcs fun _ pc => W pc] at hwaker
  rcases hwaker with hnew | ⟨v, hvt, hv⟩
  · exact hpc hnew
  · exact hnone v hvt hv

end Attended

/-- At least `n` of the threads are on the way. -/
def AtLeast (W : α → Prop) (pcs : T → α) (n : Int) : Prop :=
  ∃ F : Finset T, (∀ v ∈ F, W (pcs v)) ∧ n ≤ F.card

namespace AtLeast

variable {n : Int}

theorem of_nonpos (h : n ≤ 0) : AtLeast W pcs n := by
  refine ⟨∅, fun v hv => absurd hv (Finset.notMem_empty v), ?_⟩
  rwa [Finset.card_empty]

theorem of_le {m : Int} (h : AtLeast W pcs n) (hm : m ≤ n) : AtLeast W pcs m := by
  obtain ⟨F, hF, hcard⟩ := h
  exact ⟨F, hF, le_trans hm hcard⟩

theorem exists_of_pos (h : AtLeast W pcs n) (hn : 0 < n) : ∃ v, W (pcs v) := by
  obtain ⟨F, hF, hcard⟩ := h
  obtain ⟨v, hv⟩ := Finset.card_pos.mp (show 0 < F.card by omega)
  exact ⟨v, hF v hv⟩

variable [DecidableEq T]

theorem update (h : AtLeast W pcs n) (hW : W (pcs t) → W pc) :
    AtLeast W (Function.update pcs t pc) n := by
  obtain ⟨F, hF, hcard⟩ := h
  refine ⟨F, ?_, hcard⟩
  rw [Function.forall_update_iff pcs fun v pc => v ∈ F → W pc]
  exact ⟨fun ht => hW (hF t ht), fun v _ => hF v⟩

/-- One more thread is on the way. -/
theorem join (h : AtLeast W pcs n) (ht : ¬ W (pcs t)) (hpc : W pc) :
    AtLeast W (Function.update pcs t pc) (n + 1) := by
  obtain ⟨F, hF, hcard⟩ := h
  have htF : t ∉ F := fun hmem => ht (hF t hmem)
  refine ⟨insert t F, fun v hv => ?_, ?_⟩
  · rcases Finset.mem_insert.mp hv with rfl | hv
    · rwa [Function.update_self]
    · have hvt : v ≠ t := fun heq => htF (heq ▸ hv)
      rw [Function.update_of_ne hvt]
      exact hF v hv
  · rw [Finset.card_insert_of_notMem htF]
    omega

/-- One thread may have left the way. -/
theorem leave (h : AtLeast W pcs n) : AtLeast W (Function.update pcs t pc) (n - 1) := by
  obtain ⟨F, hF, hcard⟩ := h
  refine ⟨F.erase t, fun v hv => ?_, ?_⟩
  · rw [Function.update_of_ne (Finset.ne_of_mem_erase hv)]
    exact hF v (Finset.mem_of_mem_erase hv)
  · have herase := Finset.pred_card_le_card_erase (s := F) (a := t)
    omega

end AtLeast

end VideoStream.Library
