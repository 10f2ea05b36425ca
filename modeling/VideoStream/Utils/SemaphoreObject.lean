import VideoStream.Library.SharedObject
import VideoStream.Utils.VpSemaphore

/-!
# `vp_semaphore` as its callers see it

The calls of `signal`, `wait` and `reset`, with their returns, and with spurious wake-ups. They take
effect one by one in an order that agrees with real time, and a call of `wait` takes effect only
where a permit is left over from the calls before it (`semaphore_linearizable`).
-/

namespace VideoStream

open Library

/-- The permits that are left after these calls, one by one. -/
def permits (l : List SemaphoreOp) : Int :=
  l.foldl (fun n o => match o with
    | .signal => n + 1
    | .wait => n - 1
    | .reset => 0) 0

@[simp] theorem permits_concat (l : List SemaphoreOp) (o : SemaphoreOp) :
    permits (l ++ [o]) = match o with
      | .signal => permits l + 1
      | .wait => permits l - 1
      | .reset => 0 := by
  rw [permits, List.foldl_append]
  rfl

namespace SemaphoreState

variable {l : List (SemaphoreOp × Unit)} {m : VpSemaphore}

/-- The sequential semaphore counts the permits that are left, and there are never too few. -/
theorem legal_permits (h : vpSemaphore.object.Legal l m) :
    m.count = permits (l.map Prod.fst) ∧ 0 ≤ m.count := by
  induction l using List.reverseRecOn generalizing m with
  | nil =>
      cases h
      exact ⟨rfl, le_rfl⟩
  | append_singleton l x ih =>
      obtain ⟨o, r⟩ := x
      obtain ⟨m₁, m₂, hl, hact, hnil⟩ := h.split
      cases hnil
      obtain ⟨hpermits, hnonneg⟩ := ih hl
      have hbody : vpSemaphore.body o m₁ = some m := Monitor.acts_object.mp hact
      rw [List.map_append, List.map_singleton, permits_concat, ← hpermits]
      cases o with
      | signal =>
          cases hbody
          refine ⟨rfl, ?_⟩
          show 0 ≤ m₁.count + 1
          omega
      | wait =>
          obtain ⟨hpos, hm⟩ := Option.ite_none_right_eq_some.mp hbody
          cases hm
          refine ⟨rfl, ?_⟩
          show 0 ≤ m₁.count - 1
          omega
      | reset =>
          cases hbody
          exact ⟨rfl, le_rfl⟩

/-- A `wait` takes a permit, a `signal` brings one, and a `reset` brings none. -/
theorem counts_permits : vpSemaphore.object.Counts fun m => m.count.toNat where
  waits {o m} h := by
    have hnone : vpSemaphore.body o m = none := Option.map_eq_none_iff.mp h
    exact Int.toNat_eq_zero.mpr (body_eq_none hnone).2
  takes {o m₀ m m' r} hnone hbody := by
    have hwait : o = .wait := (body_eq_none (Option.map_eq_none_iff.mp hnone)).1
    subst hwait
    have hbody : m.wait = some m' := Monitor.acts_object.mp (.inl hbody)
    obtain ⟨hpos, hm⟩ := Option.ite_none_right_eq_some.mp hbody
    cases hm
    show (m.count - 1).toNat < m.count.toNat
    omega
  notifies {o m m' r} hbody _ := by
    have hbody : vpSemaphore.body o m = some m' := Monitor.acts_object.mp (.inl hbody)
    cases o with
    | signal =>
        cases hbody
        show (m.count + 1).toNat ≤ m.count.toNat + 1
        omega
    | wait =>
        obtain ⟨hpos, hm⟩ := Option.ite_none_right_eq_some.mp hbody
        cases hm
        show (m.count - 1).toNat ≤ m.count.toNat + 1
        omega
    | reset =>
        cases hbody
        exact Nat.zero_le _
  quiet {o m m' r} hbody hn := by
    have hbody : vpSemaphore.body o m = some m' := Monitor.acts_object.mp (.inl hbody)
    cases o with
    | wait =>
        obtain ⟨hpos, hm⟩ := Option.ite_none_right_eq_some.mp hbody
        cases hm
        show (m.count - 1).toNat ≤ m.count.toNat
        omega
    | signal | reset => cases hn

end SemaphoreState

variable {I : Type} [DecidableEq I] {op : I → SemaphoreOp} {s : SharedState I VpSemaphore Unit}

omit [DecidableEq I] in
theorem effects_ops (l : List (I × Unit)) :
    (l.map fun p => (op p.1, p.2)).map Prod.fst = (l.map Prod.fst).map op := by
  simp

theorem reachable_permits (h : (vpSemaphore.object.system op).Reachable s) :
    s.data.count = permits ((s.done.map Prod.fst).map op) ∧ 0 ≤ s.data.count := by
  rw [← effects_ops]
  exact SemaphoreState.legal_permits (SharedObject.linearizable h).2.1

/-- The calls of a semaphore take effect one by one, in an order that agrees with real time. In this
order no `wait` comes before there is a permit for it; the count is the permits that are left, and
nobody sleeps for good above it. -/
theorem semaphore_linearizable (h : (vpSemaphore.object.system op).Reachable s) :
    ∃ order, IsLinearization s.trace order ∧ s.data.count = permits (order.map op) ∧
      (∀ before, before <+: order → 0 ≤ permits (before.map op)) ∧
      ¬ SharedObject.Stranded (fun m : VpSemaphore => m.count.toNat) s := by
  obtain ⟨horder, hlegal, -⟩ := SharedObject.linearizable h
  refine ⟨s.done.map Prod.fst, horder, (reachable_permits h).1, ?_, ?_⟩
  · intro before hbefore
    obtain ⟨l, hl, rfl⟩ := List.prefix_map_iff.mp hbefore
    obtain ⟨l', hl'⟩ := hl
    have heffects := hlegal
    rw [SharedState.effects, ← hl', List.map_append] at heffects
    obtain ⟨m, hm, -⟩ := SharedObject.runs_append.mp heffects
    obtain ⟨hpermits, hnonneg⟩ := SemaphoreState.legal_permits hm
    rwa [hpermits, effects_ops] at hnonneg
  · exact SharedObject.not_stranded SemaphoreState.counts_permits h

/-- Two waiters and two signals. The first waiter wakes up spuriously and sleeps again; its permit is
taken by the other one, which comes later. -/
theorem semaphore_linearizable_spurious :
    ∃ s : SharedState (Fin 4) VpSemaphore Unit, s.data.count = 0 ∧ s.calls 0 = .wait ∧
      ¬ SharedObject.Stranded (fun m : VpSemaphore => m.count.toNat) s := by
  obtain ⟨s, hr, hp⟩ := System.Reachable.exists_of_run
    (M := vpSemaphore.object.system fun i : Fin 4 => if i.val < 2 then .wait else .signal)
    (p := fun s => s.data.count = 0 ∧ s.calls 0 = .wait)
    (.init rfl)
    [.call 0, .enter 0, .spurious 0, .enter 0, .call 2, .enter 2, .call 1, .enter 1,
      .notify 2 (some 0), .ret 2, .enter 0]
    (by decide)
  obtain ⟨order, -, -, -, hnot⟩ := semaphore_linearizable hr
  exact ⟨s, hp.1, hp.2, hnot⟩

end VideoStream
