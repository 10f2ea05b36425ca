import Mathlib.Data.Nat.Notation
import Mathlib.Logic.Basic

/-!
# Transition systems

A `System` is a set of initial states and a partial step function on states and actions; whatever
a step leaves open is part of its action. Threads are not built in: a system with several threads
has one action for each of them, and an interleaving is a list of actions.

* `ReachableBy C` — the states that a run reaches whose steps all meet the condition `C`. A run
  without a condition is `Reachable`.
* `ReachableBy.invariant` — the invariant rule. The step case may use that the state before the
  step is reachable, so that one invariant can lean on another.
* `ReachableBy.history` — a property of a history in every reachable state, at any earlier time.
* `ReachableBy.project` — a part of the state runs as a system of its own.
* `run` — the executable side: a list of actions, run from a state. `ReachableBy.of_run` takes a
  concrete run back to reachability.
* `run_invariant` — the invariant rule for one run.
* `Stuck` — no action of a given kind is enabled.
* `countP_le_of_run` — the rule for termination: a rank that the steps of a kind lower and no step
  raises bounds the number of those steps.
-/

namespace VideoStream.Library

structure System (σ α : Type*) where
  init : σ → Prop
  step : σ → α → Option σ

namespace System

variable {σ α : Type*} (M : System σ α)

/-- `s` is reached by a run from an initial state, every step of which meets `C`. -/
inductive ReachableBy (C : σ → α → Prop) : σ → Prop
  | init {s : σ} : M.init s → ReachableBy C s
  | step {s s' : σ} {a : α} : ReachableBy C s → C s a → M.step s a = some s' → ReachableBy C s'

/-- `s` is reached by some run. -/
def Reachable : σ → Prop := M.ReachableBy fun _ _ => True

/-- None of the actions in `P` is enabled. -/
def Stuck (P : α → Prop) (s : σ) : Prop := ∀ a, P a → M.step s a = none

/-- Run a list of actions; `none` as soon as one of them is not enabled. -/
def run : σ → List α → Option σ
  | s, [] => some s
  | s, a :: as => (M.step s a).bind fun s' => run s' as

/-- Every step of the run of `as` from `s` meets `C`. -/
def Along (C : σ → α → Prop) : σ → List α → Prop
  | _, [] => True
  | s, a :: as => C s a ∧ match M.step s a with
    | none => True
    | some s' => Along C s' as

instance decidableAlong {C : σ → α → Prop} [∀ s a, Decidable (C s a)] :
    ∀ (s : σ) (as : List α), Decidable (M.Along C s as)
  | _, [] => isTrue trivial
  | s, a :: as =>
      match h : M.step s a with
      | none => decidable_of_iff (C s a) (by simp [Along, h])
      | some s' =>
          have := decidableAlong (C := C) s' as
          decidable_of_iff (C s a ∧ M.Along C s' as) (by simp [Along, h])

variable {M} {C D : σ → α → Prop} {s s' : σ}

/-! ## The invariant rule -/

/-- An invariant holds in every reachable state: it holds initially and every step that meets the
condition preserves it. -/
theorem ReachableBy.invariant {I : σ → Prop} (h : M.ReachableBy C s)
    (hinit : ∀ s, M.init s → I s)
    (hstep : ∀ s s' a, M.ReachableBy C s → I s → C s a → M.step s a = some s' → I s') : I s := by
  induction h with
  | init h => exact hinit _ h
  | step hr hc hs ih => exact hstep _ _ _ hr ih hc hs

/-- A history grows by at most one event in a step; so what holds of it in every reachable state
holds of it at any earlier time. -/
theorem ReachableBy.history {ε : Type*} (trace : σ → List ε) {P : List ε → Prop}
    (hinit : ∀ s, M.init s → trace s = [])
    (hgrow : ∀ s s' a, M.step s a = some s' → trace s' = trace s ∨ ∃ e, trace s' = trace s ++ [e])
    (hP : ∀ s, M.ReachableBy C s → P (trace s)) (h : M.ReachableBy C s) :
    ∀ t, t <+: trace s → P t := by
  apply h.invariant (I := fun s => ∀ t, t <+: trace s → P t)
  · intro s hs t ht
    rw [hinit s hs] at ht
    rw [List.prefix_nil.mp ht, ← hinit s hs]
    exact hP s (.init hs)
  · intro s s' a hr hs hc hstep t ht
    rcases hgrow s s' a hstep with hsame | ⟨e, hone⟩
    · exact hs t (hsame ▸ ht)
    · rw [hone] at ht
      rcases List.prefix_concat_iff.mp ht with rfl | ht
      · rw [← hone]
        exact hP s' (.step hr hc hstep)
      · exact hs t ht

theorem ReachableBy.mono (h : M.ReachableBy C s) (hCD : ∀ s a, C s a → D s a) :
    M.ReachableBy D s := by
  induction h with
  | init h => exact .init h
  | step _ hc hs ih => exact .step ih (hCD _ _ hc) hs

/-- A condition that holds in every reachable state is met by every step. -/
theorem ReachableBy.strengthen (h : M.ReachableBy C s)
    (hD : ∀ s, M.ReachableBy C s → ∀ a, D s a) : M.ReachableBy D s := by
  induction h with
  | init h => exact .init h
  | step hr _ hs ih => exact .step ih (hD _ hr _) hs

/-- A part of the state that moves as another system does, or not at all. -/
theorem ReachableBy.project {τ β : Type*} {N : System τ β} {D : τ → β → Prop} (proj : σ → τ)
    (hinit : ∀ s, M.init s → N.init (proj s))
    (hstep : ∀ s s' a, C s a → M.step s a = some s' →
      proj s' = proj s ∨ ∃ b, D (proj s) b ∧ N.step (proj s) b = some (proj s'))
    (h : M.ReachableBy C s) : N.ReachableBy D (proj s) := by
  apply h.invariant (I := fun s => N.ReachableBy D (proj s))
  · intro s hs
    exact .init (hinit s hs)
  · intro s s' a _ hs hc hs'
    rcases hstep s s' a hc hs' with hsame | ⟨b, hd, hb⟩
    · rwa [hsame]
    · exact .step hs hd hb

theorem ReachableBy.reachable (h : M.ReachableBy C s) : M.Reachable s :=
  h.mono fun _ _ _ => trivial

/-! ## Runs -/

/-- A run that meets the condition ends in a reachable state. -/
theorem ReachableBy.of_run {as : List α} (h : M.ReachableBy C s) (hC : M.Along C s as)
    (hr : M.run s as = some s') : M.ReachableBy C s' := by
  induction as generalizing s with
  | nil =>
      cases hr
      exact h
  | cons a as ih =>
      obtain ⟨t, hst, hr⟩ := Option.bind_eq_some_iff.mp hr
      obtain ⟨hc, hC⟩ := hC
      rw [hst] at hC
      exact ih (.step h hc hst) hC hr

/-- A concrete run, evaluated: its last state has `p`. -/
theorem ReachableBy.exists_of_run {p : σ → Prop} [DecidablePred p]
    (h : M.ReachableBy C s) (as : List α) (hC : M.Along C s as)
    (hr : (M.run s as).any (fun s => p s) = true) : ∃ s', M.ReachableBy C s' ∧ p s' := by
  obtain ⟨s', hs', hp⟩ := (Option.any_eq_true _ _).mp hr
  exact ⟨s', h.of_run hC hs', of_decide_eq_true hp⟩

theorem along_true (as : List α) : M.Along (fun _ _ => True) s as := by
  induction as generalizing s with
  | nil => trivial
  | cons a as ih =>
      refine ⟨trivial, ?_⟩
      cases M.step s a with
      | none => trivial
      | some t => exact ih

theorem Reachable.of_run {as : List α} (h : M.Reachable s) (hr : M.run s as = some s') :
    M.Reachable s' :=
  ReachableBy.of_run h (along_true as) hr

theorem Reachable.exists_of_run {p : σ → Prop} [DecidablePred p] (h : M.Reachable s)
    (as : List α) (hr : (M.run s as).any (fun s => p s) = true) : ∃ s', M.Reachable s' ∧ p s' :=
  ReachableBy.exists_of_run h as (along_true as) hr

/-- What the steps in `P` preserve, a run of them preserves. -/
theorem run_invariant {I : σ → Prop} {P : α → Prop}
    (hstep : ∀ s s' a, I s → P a → M.step s a = some s' → I s') {as : List α} (hs : I s)
    (hP : ∀ a ∈ as, P a) (hr : M.run s as = some s') : I s' := by
  induction as generalizing s with
  | nil =>
      cases hr
      exact hs
  | cons a as ih =>
      obtain ⟨t, hst, hr⟩ := Option.bind_eq_some_iff.mp hr
      obtain ⟨ha, hP⟩ := List.forall_mem_cons.mp hP
      exact ih (hstep s t a hs ha hst) hP hr

/-- Along a run of actions in `P`, the steps that `p` counts and what the rank is in the end make up
the rank at the beginning at most. -/
theorem countP_le_of_run {I : σ → Prop} {P : α → Prop} {p : α → Bool} {rank : σ → ℕ}
    (hstep : ∀ s s' a, I s → P a → M.step s a = some s' →
      I s' ∧ rank s' + (p a).toNat ≤ rank s)
    {as : List α} (hs : I s) (hP : ∀ a ∈ as, P a) (hr : M.run s as = some s') :
    as.countP p + rank s' ≤ rank s := by
  induction as generalizing s with
  | nil =>
      cases hr
      exact Nat.le_of_eq (Nat.zero_add _)
  | cons a as ih =>
      obtain ⟨t, hst, hr⟩ := Option.bind_eq_some_iff.mp hr
      obtain ⟨ha, hP⟩ := List.forall_mem_cons.mp hP
      obtain ⟨ht, hle⟩ := hstep s t a hs ha hst
      have hrest := ih ht hP hr
      rw [List.countP_cons]
      cases hp : p a <;> simp [hp] at hle ⊢ <;> omega

end System

end VideoStream.Library
