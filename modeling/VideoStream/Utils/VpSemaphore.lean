import Mathlib.Data.List.DropRight
import VideoStream.Library.Monitor

/-!
# `vp_semaphore`

The semaphore is a monitor: `wait` waits until the count is positive and takes one, `signal` adds
one and `reset` removes all, and both notify one of the sleepers. The count is an integer.

The count is what was signalled and not taken since the last `reset`, and nobody sleeps for good
while it is positive (`semaphore_loses_no_permit`).
-/

namespace VideoStream

open Library

inductive SemaphoreOp where
  | signal
  | wait
  | reset
  deriving DecidableEq

structure VpSemaphore where
  count : Int
  deriving DecidableEq

namespace VpSemaphore

def signal (m : VpSemaphore) : VpSemaphore := { m with count := m.count + 1 }

def wait (m : VpSemaphore) : Option VpSemaphore :=
  if 0 < m.count then some { m with count := m.count - 1 } else none

def reset (m : VpSemaphore) : VpSemaphore := { m with count := 0 }

end VpSemaphore

def vpSemaphore : Monitor SemaphoreOp VpSemaphore where
  data := { count := 0 }
  body
    | .signal, m => some m.signal
    | .wait, m => m.wait
    | .reset, m => some m.reset
  notifies op := op ≠ .wait

abbrev SemaphoreState (T : Type) := MonitorState T SemaphoreOp VpSemaphore

namespace SemaphoreState

variable {T : Type}

/-- What was done since the last `reset`. -/
def sinceReset (s : SemaphoreState T) : List SemaphoreOp := s.trace.rtakeWhile (· ≠ .reset)

/-- The count is positive, nobody has a notify or a test before it, and a thread sleeps. -/
def Stranded (s : SemaphoreState T) : Prop :=
  0 < s.data.count ∧ (∀ t op, s.threads t ≠ .notify op) ∧ (∀ t op, s.threads t ≠ .woken op) ∧
    ∃ t, s.threads t = .wait .wait

/-- The count is the number of signals since the last `reset`, minus the number of waits. -/
def Counts (s : SemaphoreState T) : Prop :=
  s.data.count = (s.sinceReset.count .signal : Int) - s.sinceReset.count .wait

/-- The count is not negative, and while somebody sleeps, as many threads as it counts are on the
way. -/
def SleepersCounted (s : SemaphoreState T) : Prop :=
  0 ≤ s.data.count ∧
    ((∃ t, (s.threads t).Sleeps) → AtLeast MonitorPc.Wakes s.threads s.data.count)

variable [DecidableEq T] {s s' : SemaphoreState T} {a : MonitorAct T SemaphoreOp}

/-! ## The count -/

omit [DecidableEq T] in
theorem sinceReset_did (s : SemaphoreState T) (op : SemaphoreOp) (m : VpSemaphore) :
    sinceReset (s.did op m) = if op = .reset then [] else s.sinceReset ++ [op] := by
  show (s.trace ++ [op]).rtakeWhile (· ≠ .reset) = _
  rw [List.rtakeWhile_concat]
  by_cases hop : op = .reset
  · simp [hop]
  · simp [hop, sinceReset]

omit [DecidableEq T] in
/-- A body of the semaphore, and the count behind it. -/
theorem counts_did (hs : s.Counts) {op : SemaphoreOp} {m : VpSemaphore}
    (hbody : vpSemaphore.body op s.data = some m) : Counts (s.did op m) := by
  unfold Counts at hs ⊢
  rw [sinceReset_did]
  cases op with
  | signal =>
      cases hbody
      show s.data.count + 1 = _
      rw [hs]
      simp
      omega
  | wait =>
      obtain ⟨-, hm⟩ := Option.ite_none_right_eq_some.mp hbody
      cases hm
      show s.data.count - 1 = _
      rw [hs]
      simp
      omega
  | reset =>
      cases hbody
      rfl

theorem reachable_counts (h : vpSemaphore.system.Reachable s) : s.Counts := by
  apply h.invariant
  · intro s hs
    cases hs
    rfl
  · intro s s' a _ hs _ hstep
    apply Monitor.step_elim (P := Counts) _ _ _ _ _ hstep
    · exact fun _ _ _ _ => hs
    · exact fun _ _ _ _ _ hbody => counts_did hs hbody
    · exact fun _ _ _ _ _ => hs
    · exact fun _ _ _ _ _ _ => hs
    · exact fun _ _ _ _ _ => hs

/-! ## The sleepers -/

theorem body_eq_none {op : SemaphoreOp} {m : VpSemaphore} (h : vpSemaphore.body op m = none) :
    op = .wait ∧ m.count ≤ 0 := by
  cases op with
  | wait =>
      have hcount : ¬ 0 < m.count := fun hpos => by
        change m.wait = none at h
        rw [VpSemaphore.wait, if_pos hpos] at h
        cases h
      exact ⟨rfl, by omega⟩
  | signal | reset => cases h

/-- Nobody is woken in `signal`. -/
theorem lock_of_enters_signal (h : vpSemaphore.system.Reachable s) {t : T}
    (henters : (s.threads t).enters = some .signal) : s.threads t = .lock .signal := by
  rcases MonitorPc.enters_eq_some.mp henters with hlock | hwoken
  · exact hlock
  · have hallows := Monitor.allows h t
    rw [hwoken] at hallows
    obtain ⟨m, hnone⟩ := hallows
    cases hnone

/-- A body of the semaphore: `signal` brings one thread more on the way, and `wait` takes one
away. -/
theorem sleepersCounted_did (h : vpSemaphore.system.Reachable s) (hs : s.SleepersCounted) {t : T}
    {op : SemaphoreOp} {m : VpSemaphore} (henters : (s.threads t).enters = some op)
    (hbody : vpSemaphore.body op s.data = some m) :
    SleepersCounted ((s.did op m).goto t (vpSemaphore.leave op)) := by
  obtain ⟨hnonneg, hcounted⟩ := hs
  have hbefore (hsleeps : ∃ u, (((s.did op m).goto t (vpSemaphore.leave op)).threads u).Sleeps) :
      AtLeast MonitorPc.Wakes s.threads s.data.count :=
    hcounted (Monitor.exists_sleeps_of_goto (s := s.did op m) (Monitor.not_sleeps_leave op) hsleeps)
  cases op with
  | signal =>
      cases hbody
      refine ⟨?_, fun hsleeps => (hbefore hsleeps).join ?_ trivial⟩
      · show 0 ≤ s.data.count + 1
        omega
      · rw [lock_of_enters_signal h henters]
        exact not_false
  | wait =>
      obtain ⟨hpos, hm⟩ := Option.ite_none_right_eq_some.mp hbody
      cases hm
      refine ⟨?_, fun hsleeps => (hbefore hsleeps).leave⟩
      show 0 ≤ s.data.count - 1
      omega
  | reset =>
      cases hbody
      exact ⟨Int.le_refl 0, fun _ => AtLeast.of_nonpos (Int.le_refl 0)⟩

theorem reachable_sleepersCounted (h : vpSemaphore.system.Reachable s) : s.SleepersCounted := by
  apply h.invariant
  · intro s hs
    cases hs
    exact ⟨Int.le_refl 0, fun _ => AtLeast.of_nonpos (Int.le_refl 0)⟩
  · intro s s' a h hs _ hstep
    have hconsistent := Monitor.mem_sleepers h
    apply Monitor.step_elim (P := SleepersCounted) _ _ _ _ _ hstep
    · intro t op _ hidle
      refine ⟨hs.1, fun hsleeps => ?_⟩
      apply (hs.2 (Monitor.exists_sleeps_of_goto MonitorPc.not_sleeps_lock hsleeps)).update
      intro hwakes
      rw [hidle] at hwakes
      exact hwakes
    · intro t op m _ henters hbody
      exact sleepersCounted_did h hs henters hbody
    · intro t op _ _ hbody
      -- the count is 0
      exact ⟨hs.1, fun _ => AtLeast.of_nonpos (body_eq_none hbody).2⟩
    · intro t u op _ hnotify hu
      refine ⟨hs.1, fun _ => ?_⟩
      -- `t` leaves the way, and `u` is on it now
      have hsleeps := Monitor.sleeps_of_mem hconsistent hnotify hu
      have hleft : AtLeast MonitorPc.Wakes (s.goto t .idle).threads (s.data.count - 1) :=
        (hs.2 ⟨u, (hconsistent u).mp hu⟩).leave
      have hjoined := hleft.join (MonitorPc.not_wakes_of_sleeps hsleeps)
        (MonitorPc.wakes_wake hsleeps)
      rwa [Int.sub_add_cancel] at hjoined
    · intro t op _ _ hnone
      refine ⟨hs.1, fun hsleeps => ?_⟩
      obtain ⟨u, hu⟩ := Monitor.exists_sleeps_of_goto MonitorPc.not_sleeps_idle hsleeps
      exact absurd hu (Monitor.not_sleeps_of_empty hconsistent hnone u)

theorem not_stranded (h : vpSemaphore.system.Reachable s) : ¬ s.Stranded := by
  intro hstranded
  obtain ⟨hpos, hnotify, hwoken, t, ht⟩ := hstranded
  have hsleeps : (s.threads t).Sleeps := by
    rw [ht]
    trivial
  obtain ⟨v, hv⟩ := ((reachable_sleepersCounted h).2 ⟨t, hsleeps⟩).exists_of_pos hpos
  generalize hpc : s.threads v = pc at hv
  cases pc with
  | notify op => exact hnotify v op hpc
  | woken op => exact hwoken v op hpc
  | _ => exact hv

end SemaphoreState

/-- The count is not negative, is what was signalled and not taken since the last `reset`, and does
not stay positive above a sleeper. -/
theorem semaphore_loses_no_permit {T : Type} [DecidableEq T] {s : SemaphoreState T}
    (h : vpSemaphore.system.Reachable s) :
    0 ≤ s.data.count ∧
      s.data.count = (s.sinceReset.count .signal : Int) - s.sinceReset.count .wait ∧
      ¬ s.Stranded :=
  ⟨(SemaphoreState.reachable_sleepersCounted h).1, SemaphoreState.reachable_counts h,
    SemaphoreState.not_stranded h⟩

/-- A waiter sleeps; its permit is taken by a thread that comes later, and it sleeps again. -/
theorem semaphore_loses_no_permit_stolen : ∃ s : SemaphoreState (Fin 3),
    s.trace = [.signal, .reset, .signal, .wait] ∧ s.threads 0 = .wait .wait ∧
      0 ≤ s.data.count ∧ ¬ s.Stranded := by
  obtain ⟨s, hs, htrace, hwait⟩ := System.Reachable.exists_of_run
    (M := vpSemaphore.system) (p := fun s : SemaphoreState (Fin 3) =>
      s.trace = [.signal, .reset, .signal, .wait] ∧ s.threads 0 = .wait .wait)
    (.init rfl)
    [.call 1 .signal, .enter 1, .notify 1 none, .call 1 .reset, .enter 1, .notify 1 none,
      .call 0 .wait, .enter 0, .call 1 .signal, .enter 1, .notify 1 (some 0), .call 2 .wait,
      .enter 2, .enter 0]
    (by decide)
  obtain ⟨hnonneg, -, hnot⟩ := semaphore_loses_no_permit hs
  exact ⟨s, htrace, hwait, hnonneg, hnot⟩

end VideoStream
