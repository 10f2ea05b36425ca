import Mathlib.Data.List.Nodup
import Mathlib.Logic.Function.Basic
import VideoStream.Library.System

/-!
# Linearization

A history of operations that overlap in time: an operation is called, takes effect at one point,
and returns. `ι` is the type of the operations, so that two calls of one function are two elements
of it.

* `Sequenced` — every operation goes through its events in order, none twice.
* `IsLinearization t order` — `order` has every operation that returned, none twice, and respects
  real time: an operation that returned before another was called comes first.
* `Sequenced.isLinearization_points` — the order of the points is a linearization.
* `Tracks` — every operation stands at a program counter that fits its events; the rules say which
  steps keep this.
* `ReachableBy.replay` — a state that changes at the points only, and there as one operation of the
  specification changes it, is the replay of the points in their order.
-/

namespace VideoStream.Library

variable {ι : Type*}

inductive HistoryEvent (ι : Type*) where
  | call (c : ι)
  | point (c : ι)
  | ret (c : ι)

deriving instance DecidableEq for HistoryEvent

namespace HistoryEvent

def op : HistoryEvent ι → ι
  | call c | point c | ret c => c

/-- How many events of its operation come before an event. -/
def rank : HistoryEvent ι → Nat
  | call _ => 0
  | point _ => 1
  | ret _ => 2

/-- The operation that takes effect. -/
def pointOf : HistoryEvent ι → Option ι
  | point c => some c
  | _ => none

theorem eq_of_rank {e f : HistoryEvent ι} (hop : e.op = f.op) (hrank : e.rank = f.rank) : e = f := by
  cases e <;> cases f <;> simp_all [op, rank]

end HistoryEvent

open HistoryEvent

/-- The operations in the order of their points. -/
def points (t : List (HistoryEvent ι)) : List ι := t.filterMap pointOf

@[simp] theorem points_concat (t : List (HistoryEvent ι)) (e : HistoryEvent ι) :
    points (t ++ [e]) = points t ++ e.pointOf.toList := by
  rw [points, List.filterMap_append]
  cases e <;> rfl

theorem mem_points {t : List (HistoryEvent ι)} {c : ι} : c ∈ points t ↔ point c ∈ t := by
  rw [points, List.mem_filterMap]
  constructor
  · rintro ⟨e, he, hc⟩
    cases e with
    | point d =>
        obtain rfl : d = c := Option.some.inj hc
        exact he
    | _ => cases hc
  · intro h
    exact ⟨point c, h, rfl⟩

/-- `c` returned before `d` was called. -/
def Precedes (t : List (HistoryEvent ι)) (c d : ι) : Prop :=
  ∃ a b, t = a ++ b ∧ ret c ∈ a ∧ call d ∈ b

theorem Precedes.of_concat {t : List (HistoryEvent ι)} {e : HistoryEvent ι} {c d : ι}
    (h : Precedes (t ++ [e]) c d) : Precedes t c d ∨ e = call d ∧ ret c ∈ t := by
  obtain ⟨a, b, hab, hc, hd⟩ := h
  rcases List.eq_nil_or_concat b with rfl | ⟨b, x, rfl⟩
  · simp at hd
  · rw [List.concat_eq_append, ← List.append_assoc] at hab
    obtain ⟨rfl, hx⟩ := List.append_inj' hab rfl
    obtain rfl : e = x := by simpa using hx
    rw [List.concat_eq_append, List.mem_append] at hd
    rcases hd with hd | hd
    · exact .inl ⟨a, b, rfl, hc, hd⟩
    · exact .inr ⟨(List.mem_singleton.mp hd).symm, List.mem_append_left b hc⟩

/-- `order` is an order in which the operations of the history `t` could have run one by one. -/
structure IsLinearization (t : List (HistoryEvent ι)) (order : List ι) : Prop where
  nodup : order.Nodup
  called : ∀ c ∈ order, call c ∈ t
  returned : ∀ c, ret c ∈ t → c ∈ order
  realTime : ∀ c d, Precedes t c d → d ∈ order → [c, d].Sublist order

/-- In an order without repetitions, what comes before an element stands in the part before it. -/
theorem mem_of_pair_sublist {a b : List ι} {c d : ι} (hnodup : (a ++ d :: b).Nodup)
    (h : [c, d].Sublist (a ++ d :: b)) : c ∈ a := by
  have hd : d ∉ a ∧ d ∉ b := by
    have hperm := List.nodup_middle.mp hnodup
    simpa using (List.nodup_cons.mp hperm).1
  obtain ⟨u, v, huv, hu, hv⟩ := List.sublist_append_iff.mp h
  rcases u with _ | ⟨x, u⟩
  · obtain rfl : _ = v := huv
    -- `d` would come after itself
    have hdb : [d].Sublist b := hv.tail
    exact absurd (List.singleton_sublist.mp hdb) hd.2
  · obtain ⟨rfl, -⟩ := List.cons.inj huv
    exact hu.subset (List.mem_cons_self ..)

/-- What stands between `c` and `d` neither comes before `c` nor behind `d`. -/
theorem not_pair_sublist_between {a b e : List ι} {c d x : ι}
    (hnodup : (a ++ c :: (b ++ d :: e)).Nodup) (hx : x ∈ b) :
    x ≠ d ∧ ¬ [x, c].Sublist (a ++ c :: (b ++ d :: e)) ∧
      ¬ [d, x].Sublist (a ++ c :: (b ++ d :: e)) := by
  obtain ⟨b₁, b₂, rfl⟩ := List.append_of_mem hx
  have hall : a ++ c :: (b₁ ++ x :: b₂ ++ d :: e) = (a ++ c :: b₁) ++ x :: (b₂ ++ d :: e) := by simp
  have hcopy : ((a ++ c :: b₁) ++ x :: (b₂ ++ d :: e)).Nodup := hall ▸ hnodup
  have hxd : x ∉ b₂ ++ d :: e := (List.nodup_middle.mp hcopy |> List.nodup_cons.mp).1 ∘
    fun h => List.mem_append_right _ h
  have hxa : x ∉ a ++ c :: b₁ := (List.nodup_middle.mp hcopy |> List.nodup_cons.mp).1 ∘
    fun h => List.mem_append_left _ h
  refine ⟨?_, fun h => ?_, fun h => ?_⟩
  · rintro rfl
    exact hxd (by simp)
  · exact hxa (List.mem_append_left _ (mem_of_pair_sublist hnodup h))
  · rw [hall] at h
    have hd : d ∈ a ++ c :: b₁ := mem_of_pair_sublist hcopy h
    have hdisjoint := (List.nodup_append.mp hcopy).2.2 d hd d (by simp)
    exact hdisjoint rfl

/-! ## Histories that take every operation through its events -/

section

variable [DecidableEq ι]

/-- How many events of `c` there are in the history `t`. -/
def progress (t : List (HistoryEvent ι)) (c : ι) : Nat := t.countP fun e => e.op = c

theorem progress_concat (t : List (HistoryEvent ι)) (e : HistoryEvent ι) (c : ι) :
    progress (t ++ [e]) c = progress t c + if e.op = c then 1 else 0 := by
  rw [progress, List.countP_append, List.countP_singleton]
  simp [progress]

inductive Sequenced : List (HistoryEvent ι) → Prop
  | nil : Sequenced []
  | concat {t : List (HistoryEvent ι)} {e : HistoryEvent ι} :
      Sequenced t → progress t e.op = e.rank → Sequenced (t ++ [e])

namespace Sequenced

variable {t : List (HistoryEvent ι)} {c d : ι}

/-- The events of an operation so far are the first ones of the three. -/
theorem mem_iff (h : Sequenced t) (e : HistoryEvent ι) : e ∈ t ↔ e.rank < progress t e.op := by
  induction h with
  | nil => simp [progress]
  | @concat t f _ hf ih =>
      rw [List.mem_append, List.mem_singleton, ih, progress_concat]
      by_cases hop : f.op = e.op
      · rw [if_pos hop, ← hop, hf, Nat.lt_succ_iff_lt_or_eq]
        refine or_congr Iff.rfl ⟨?_, ?_⟩
        · rintro rfl
          rfl
        · intro hrank
          exact eq_of_rank hop.symm hrank
      · rw [if_neg hop, Nat.add_zero]
        refine or_iff_left ?_
        rintro rfl
        exact hop rfl

theorem point_of_ret (h : Sequenced t) (hr : ret c ∈ t) : point c ∈ t := by
  have hlt : 2 < progress t c := (h.mem_iff (ret c)).mp hr
  exact (h.mem_iff (point c)).mpr (Nat.lt_of_succ_lt hlt)

theorem call_of_point (h : Sequenced t) (hp : point c ∈ t) : call c ∈ t := by
  have hlt : 1 < progress t c := (h.mem_iff (point c)).mp hp
  exact (h.mem_iff (call c)).mpr (Nat.lt_of_succ_lt hlt)

theorem nodup_points (h : Sequenced t) : (points t).Nodup := by
  induction h with
  | nil => exact List.nodup_nil
  | @concat t e h he ih =>
      cases e with
      | call c | ret c => simpa [pointOf] using ih
      | point c =>
          have hnew : c ∉ points t := by
            rw [mem_points, h.mem_iff]
            exact Nat.not_lt_of_le (Nat.le_of_eq he)
          have hconcat := ih.concat hnew
          rw [List.concat_eq_append] at hconcat
          rwa [points_concat]

theorem realTime_points (h : Sequenced t) (hp : Precedes t c d) (hd : d ∈ points t) :
    [c, d].Sublist (points t) := by
  induction h with
  | nil => cases hd
  | @concat t e h he ih =>
      rw [points_concat] at hd ⊢
      rcases hp.of_concat with hp | ⟨rfl, -⟩
      · rcases List.mem_append.mp hd with hd | hd
        · exact (ih hp hd).trans (List.sublist_append_left _ _)
        · -- `d` takes effect now, and `c` has returned
          have hc : c ∈ points t := by
            obtain ⟨a, b, rfl, hc, -⟩ := hp
            exact mem_points.mpr (h.point_of_ret (List.mem_append_left b hc))
          exact (List.singleton_sublist.mpr hc).append (List.singleton_sublist.mpr hd)
      · -- `d` is called now, so it has not taken effect
        have hpoint : point d ∈ t := by simpa [pointOf, mem_points] using hd
        have hcall := (h.mem_iff (call d)).mp (h.call_of_point hpoint)
        exact absurd he (Nat.ne_of_gt hcall)

theorem isLinearization_points (h : Sequenced t) : IsLinearization t (points t) where
  nodup := h.nodup_points
  called _ hc := h.call_of_point (mem_points.mp hc)
  returned _ hc := mem_points.mpr (h.point_of_ret hc)
  realTime _ _ hp hd := h.realTime_points hp hd

end Sequenced

/-! ## Program counters -/

variable {P : Type*} {rank : P → Nat} {pcs pcs' : ι → P} {t : List (HistoryEvent ι)}

/-- Every operation stands where the history has taken it. -/
structure Tracks (rank : P → Nat) (t : List (HistoryEvent ι)) (pcs : ι → P) : Prop where
  sequenced : Sequenced t
  progress : ∀ c, progress t c = rank (pcs c)

namespace Tracks

theorem start {pc : P} (h : rank pc = 0) : Tracks rank ([] : List (HistoryEvent ι)) fun _ => pc :=
  ⟨.nil, fun _ => h.symm⟩

/-- An operation goes on, and that is an event. -/
theorem event (h : Tracks rank t pcs) (e : HistoryEvent ι) {pc : P}
    (hbefore : rank (pcs e.op) = e.rank) (hafter : rank pc = e.rank + 1) :
    Tracks rank (t ++ [e]) (Function.update pcs e.op pc) := by
  refine ⟨h.sequenced.concat ((h.progress _).trans hbefore), fun c => ?_⟩
  rw [progress_concat, h.progress, Function.update_apply]
  by_cases hc : c = e.op
  · rw [hc, if_pos rfl, if_pos rfl, hafter, hbefore]
  · rw [if_neg hc, if_neg (Ne.symm hc), Nat.add_zero]

/-- An operation goes on between two events. -/
theorem silent (h : Tracks rank t pcs) {c : ι} {pc : P} (hrank : rank pc = rank (pcs c)) :
    Tracks rank t (Function.update pcs c pc) := by
  refine ⟨h.sequenced, fun d => ?_⟩
  rw [h.progress, Function.update_apply]
  split
  · next hd => rw [hd, hrank]
  · rfl

end Tracks

end

/-! ## Replay -/

namespace System

variable {σ α : Type*} {M : System σ α} {C : σ → α → Prop} {A : Type*}

/-- A step adds a point, and changes the abstract state as that operation does, or it leaves both
alone; so the abstract state is the replay of the points. -/
theorem ReachableBy.replay (trace : σ → List (HistoryEvent ι)) (abs : σ → A) (apply : A → ι → A)
    {a₀ : A} (hinit : ∀ s, M.init s → points (trace s) = [] ∧ abs s = a₀)
    (hstep : ∀ s s' a, M.ReachableBy C s → M.step s a = some s' →
      (points (trace s') = points (trace s) ∧ abs s' = abs s) ∨
        ∃ c, points (trace s') = points (trace s) ++ [c] ∧ abs s' = apply (abs s) c)
    {s : σ} (h : M.ReachableBy C s) : abs s = (points (trace s)).foldl apply a₀ := by
  apply h.invariant (I := fun s => abs s = (points (trace s)).foldl apply a₀)
  · intro s hs
    obtain ⟨hpoints, habs⟩ := hinit s hs
    rw [hpoints, habs]
    rfl
  · intro s s' a hr hs _ hs'
    rcases hstep s s' a hr hs' with ⟨hpoints, habs⟩ | ⟨c, hpoints, habs⟩
    · rw [hpoints, habs, hs]
    · rw [hpoints, habs, hs, List.foldl_append]
      rfl

end System

end VideoStream.Library
