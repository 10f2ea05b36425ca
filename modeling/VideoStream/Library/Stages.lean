import Mathlib.Data.List.Chain
import Mathlib.Data.List.Nodup

/-!
# Stages

Items go through a fixed list of stages, and a history records each stage of each item as it is
reached. `Staged` says of the history of one item that at no time a stage has been reached more
often than the one before it. For an item that goes through each stage once this fixes the history:
it is the list of stages (`Staged.eq_stages`).
-/

namespace VideoStream.Library

variable {κ : Type*} [DecidableEq κ] {stages l : List κ}

/-- At any time of `l` each stage has occurred at most as often as the stage before it. -/
def Staged (stages l : List κ) : Prop :=
  ∀ t, t <+: l → stages.IsChain fun p q => t.count q ≤ t.count p

/-- The first entry of a history is the first stage. -/
theorem Staged.head {p x : κ} (h : Staged (p :: stages) (x :: l)) (hx : x ∈ p :: stages) :
    x = p := by
  by_contra hne
  have hchain := h [x] (by simp)
  have htrans : (p :: stages).Pairwise fun p q => [x].count q ≤ [x].count p := by
    have : Trans (fun p q : κ => [x].count q ≤ [x].count p)
        (fun p q : κ => [x].count q ≤ [x].count p)
        (fun p q : κ => [x].count q ≤ [x].count p) := ⟨fun hpq hqr => le_trans hqr hpq⟩
    exact hchain.pairwise
  have hmem : x ∈ stages := (List.mem_cons.mp hx).resolve_left hne
  have hle := List.rel_of_pairwise_cons htrans hmem
  rw [List.count_singleton_self, List.count_eq_zero_of_not_mem (by simpa using Ne.symm hne)] at hle
  omega

/-- The history behind the first stage, for the other stages. -/
theorem Staged.tail {p : κ} (h : Staged (p :: stages) (p :: l)) (hp : p ∉ stages) :
    Staged stages l := by
  intro t ht
  have hchain := (h (p :: t) (List.cons_prefix_cons.mpr ⟨rfl, ht⟩)).tail
  refine hchain.imp_of_mem_imp ?_
  intro q r hq hr hle
  have hqp : p ≠ q := fun he => hp (he ▸ hq)
  have hrp : p ≠ r := fun he => hp (he ▸ hr)
  simpa [List.count_cons, hqp, hrp] using hle

/-- An item that goes through each stage once goes through them in order. -/
theorem Staged.eq_stages (h : Staged stages l) (hnodup : stages.Nodup)
    (hone : ∀ p ∈ stages, l.count p = 1) (hsub : ∀ x ∈ l, x ∈ stages) : l = stages := by
  induction stages generalizing l with
  | nil => exact List.eq_nil_iff_forall_not_mem.mpr fun x hx => by simpa using hsub x hx
  | cons p stages ih =>
      obtain ⟨hp, hrest⟩ := List.nodup_cons.mp hnodup
      cases l with
      | nil => simpa using hone p List.mem_cons_self
      | cons x l =>
          obtain rfl := h.head (hsub x List.mem_cons_self)
          have hcount : l.count x = 0 := by simpa using hone x List.mem_cons_self
          have hnot : x ∉ l := List.count_eq_zero.mp hcount
          have htail : l = stages := by
            apply ih (h.tail hp) hrest
            · intro q hq
              have hqx : x ≠ q := fun he => hp (he ▸ hq)
              simpa [List.count_cons, hqx] using hone q (List.mem_cons_of_mem _ hq)
            · intro y hy
              have hyx : y ≠ x := fun he => hnot (he ▸ hy)
              exact (List.mem_cons.mp (hsub y (List.mem_cons_of_mem _ hy))).resolve_left hyx
          rw [htail]

/-- The stages of a filtered history: the entries that are stages. -/
theorem Staged.filter (h : Staged stages l) : Staged stages (l.filter (· ∈ stages)) := by
  intro t ht
  obtain ⟨l', hl', rfl⟩ := List.prefix_filter_iff.mp ht
  refine (h l' hl').imp_of_mem_imp ?_
  intro p q hp hq hle
  rwa [List.count_filter (by simpa using hq), List.count_filter (by simpa using hp)]

end VideoStream.Library
