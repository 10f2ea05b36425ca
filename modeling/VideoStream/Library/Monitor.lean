import Mathlib.Data.Finset.Erase
import Mathlib.Data.Finset.Insert
import VideoStream.Library.CondVar
import VideoStream.Library.System

/-!
# Monitors

Data with a mutex and one condition variable. An operation takes the mutex for its `body`, which
changes the data or, where its predicate is false, goes to sleep. Some operations end with a
`notify_one` behind the mutex. Each thread runs one operation after the other.

* `Monitor.system` — a step begins an operation, or runs a body, or is a `notify_one`, which wakes
  one of the sleepers if there is any. A thread that was woken takes the mutex again and tests its
  predicate. There are no spurious wake-ups.
* `Monitor.step_elim` — what a step can do.
* `Monitor.mem_sleepers` — the sleepers are the threads that stand in a `wait`.
* `Monitor.allows` — only operations that can find their predicate false stand there, and only those
  that notify have a notification to do.
* `Monitor.op?_invariant` — what holds of every operation that is called holds of every operation in
  progress.
-/

namespace VideoStream.Library

open Function (update)

/-- The data at the beginning, and the operations; a `body` is `none` where its predicate is false. -/
structure Monitor (Op D : Type*) where
  data : D
  body : Op → D → Option D
  notifies : Op → Bool

/-- Where a thread stands. `lock` and `woken` are before the mutex, `notify` is behind it. -/
inductive MonitorPc (Op : Type*) where
  | idle
  | lock (op : Op)
  | wait (op : Op)
  | woken (op : Op)
  | notify (op : Op)
  deriving DecidableEq

/-- `trace` has the operations whose bodies were run, oldest first. -/
structure MonitorState (T Op D : Type*) where
  data : D
  sleepers : Finset T
  threads : T → MonitorPc Op
  trace : List Op

/-- The steps; `woken` is whom `notify_one` wakes. -/
inductive MonitorAct (T Op : Type*) where
  | call (t : T) (op : Op)
  | enter (t : T)
  | notify (t : T) (woken : Option T)
  deriving DecidableEq

variable {T Op D : Type*}

namespace MonitorPc

def Sleeps : MonitorPc Op → Prop
  | .wait _ => True
  | _ => False

/-- The thread has a `notify_one` to do, or was woken and has not tested its predicate yet. -/
def Wakes : MonitorPc Op → Prop
  | .woken _ | .notify _ => True
  | _ => False

instance : DecidablePred (Sleeps : MonitorPc Op → Prop)
  | .wait _ => isTrue trivial
  | .idle | .lock _ | .woken _ | .notify _ => isFalse not_false

instance : DecidablePred (Wakes : MonitorPc Op → Prop)
  | .woken _ | .notify _ => isTrue trivial
  | .idle | .lock _ | .wait _ => isFalse not_false

def wake : MonitorPc Op → MonitorPc Op
  | .wait op => .woken op
  | pc => pc

/-- The operation whose body comes next. -/
def enters : MonitorPc Op → Option Op
  | .lock op | .woken op => some op
  | _ => none

/-- The operation in progress. -/
def op? : MonitorPc Op → Option Op
  | .idle => none
  | .lock op | .wait op | .woken op | .notify op => some op

variable {pc : MonitorPc Op} {op : Op}

theorem not_sleeps_idle : ¬ (idle : MonitorPc Op).Sleeps := not_false

theorem not_sleeps_lock : ¬ (lock op : MonitorPc Op).Sleeps := not_false

theorem not_wakes_idle : ¬ (idle : MonitorPc Op).Wakes := not_false

theorem enters_eq_some : pc.enters = some op ↔ pc = .lock op ∨ pc = .woken op := by
  cases pc <;> simp [enters]

theorem op?_of_enters (h : pc.enters = some op) : pc.op? = some op := by
  rcases enters_eq_some.mp h with rfl | rfl <;> rfl

theorem op?_wake (pc : MonitorPc Op) : pc.wake.op? = pc.op? := by
  cases pc <;> rfl

theorem not_sleeps_of_enters (h : pc.enters = some op) : ¬ pc.Sleeps := by
  cases pc with
  | wait _ => cases h
  | _ => exact not_false

theorem not_wakes_of_sleeps (h : pc.Sleeps) : ¬ pc.Wakes := by
  cases pc with
  | wait _ => exact not_false
  | _ => exact False.elim h

theorem not_sleeps_wake : ¬ pc.wake.Sleeps := by
  cases pc <;> exact not_false

theorem wakes_wake (h : pc.Sleeps) : pc.wake.Wakes := by
  cases pc with
  | wait _ => trivial
  | _ => exact False.elim h

end MonitorPc

namespace MonitorState

variable [DecidableEq T]

def goto (s : MonitorState T Op D) (t : T) (pc : MonitorPc Op) : MonitorState T Op D :=
  { s with threads := update s.threads t pc }

/-- A body was run, and left this data. -/
def did (s : MonitorState T Op D) (op : Op) (data : D) : MonitorState T Op D :=
  { s with data := data, trace := s.trace ++ [op] }

/-- The thread goes to sleep. -/
def sleep (s : MonitorState T Op D) (t : T) (op : Op) : MonitorState T Op D :=
  { s with sleepers := insert t s.sleepers }.goto t (.wait op)

/-- The thread is woken. -/
def wakeUp (s : MonitorState T Op D) (u : T) : MonitorState T Op D :=
  { s with sleepers := s.sleepers.erase u }.goto u (s.threads u).wake

/-- The sleepers are the threads that stand in a `wait`. -/
def Consistent (s : MonitorState T Op D) : Prop := ∀ t, t ∈ s.sleepers ↔ (s.threads t).Sleeps

end MonitorState

namespace Monitor

variable [DecidableEq T] (M : Monitor Op D)

/-- Where a thread goes on behind a body. -/
def leave (op : Op) : MonitorPc Op := if M.notifies op then .notify op else .idle

def enter (s : MonitorState T Op D) (t : T) (op : Op) : MonitorState T Op D :=
  match M.body op s.data with
  | some data => (s.did op data).goto t (M.leave op)
  | none => s.sleep t op

def notifyOne (s : MonitorState T Op D) (t : T) : Option T → Option (MonitorState T Op D)
  | some u => if u ∈ s.sleepers then some ((s.goto t .idle).wakeUp u) else none
  | none => if s.sleepers = ∅ then some (s.goto t .idle) else none

def step (s : MonitorState T Op D) : MonitorAct T Op → Option (MonitorState T Op D)
  | .call t op =>
      match s.threads t with
      | .idle => some (s.goto t (.lock op))
      | _ => none
  | .enter t => (s.threads t).enters.map (M.enter s t)
  | .notify t woken =>
      match s.threads t with
      | .notify _ => notifyOne s t woken
      | _ => none

/-- Nobody has called an operation yet. -/
def start : MonitorState T Op D where
  data := M.data
  sleepers := ∅
  threads := fun _ => .idle
  trace := []

def system : System (MonitorState T Op D) (MonitorAct T Op) where
  init s := s = M.start
  step := M.step

variable {M} {s s' : MonitorState T Op D} {a : MonitorAct T Op}

/-- What a step can do. -/
theorem step_elim {P : MonitorState T Op D → Prop}
    (call : ∀ t op, a = .call t op → s.threads t = .idle → P (s.goto t (.lock op)))
    (pass : ∀ t op data, a = .enter t → (s.threads t).enters = some op →
      M.body op s.data = some data → P ((s.did op data).goto t (M.leave op)))
    (sleep : ∀ t op, a = .enter t → (s.threads t).enters = some op → M.body op s.data = none →
      P (s.sleep t op))
    (wake : ∀ t u op, a = .notify t (some u) → s.threads t = .notify op → u ∈ s.sleepers →
      P ((s.goto t .idle).wakeUp u))
    (nobody : ∀ t op, a = .notify t none → s.threads t = .notify op → s.sleepers = ∅ →
      P (s.goto t .idle))
    (h : M.step s a = some s') : P s' := by
  cases a with
  | call t op =>
      unfold step at h
      dsimp only at h
      split at h
      · next hidle =>
          cases h
          exact call t op rfl hidle
      · cases h
  | enter t =>
      obtain ⟨op, hop, rfl⟩ := Option.map_eq_some_iff.mp h
      unfold enter
      split
      · next data hbody => exact pass t op data rfl hop hbody
      · next hbody => exact sleep t op rfl hop hbody
  | notify t woken =>
      unfold step at h
      dsimp only at h
      split at h
      · next op hop =>
          unfold notifyOne at h
          split at h
          · next u =>
              obtain ⟨hu, hs⟩ := Option.ite_none_right_eq_some.mp h
              cases hs
              exact wake t u op rfl hop hu
          · obtain ⟨hnone, hs⟩ := Option.ite_none_right_eq_some.mp h
            cases hs
            exact nobody t op rfl hop hnone
      · cases h

/-! ## Where the threads stand -/

/-- The operation may stand there. -/
def Allows (M : Monitor Op D) : MonitorPc Op → Prop
  | .wait op | .woken op => ∃ data, M.body op data = none
  | .notify op => M.notifies op = true
  | .idle | .lock _ => True

theorem allows_wake {pc : MonitorPc Op} (h : M.Allows pc) : M.Allows pc.wake := by
  cases pc <;> exact h

theorem allows (h : M.system.Reachable s) (t : T) : M.Allows (s.threads t) := by
  have hgoto {s : MonitorState T Op D} (hs : ∀ v, M.Allows (s.threads v)) (t : T)
      {pc : MonitorPc Op} (hpc : M.Allows pc) : ∀ v, M.Allows ((s.goto t pc).threads v) :=
    (Function.forall_update_iff s.threads fun _ pc => M.Allows pc).mpr ⟨hpc, fun v _ => hs v⟩
  revert t
  apply h.invariant (I := fun s => ∀ t, M.Allows (s.threads t))
  · intro s hs t
    cases hs
    trivial
  · intro s s' a _ hs _ hstep
    apply step_elim (P := fun s' => ∀ t, M.Allows (s'.threads t)) _ _ _ _ _ hstep
    · intro t op _ _
      exact hgoto hs t trivial
    · intro t op data _ _ _
      apply hgoto (s := s.did op data) hs t
      unfold leave
      split
      · next hnotifies => exact hnotifies
      · trivial
    · intro t op _ _ hbody
      exact hgoto (s := { s with sleepers := insert t s.sleepers }) hs t ⟨s.data, hbody⟩
    · intro t u op _ _ _
      have hidle : ∀ v, M.Allows ((s.goto t .idle).threads v) := hgoto hs t trivial
      exact hgoto (s := { s.goto t .idle with sleepers := s.sleepers.erase u }) hidle u
        (allows_wake (hidle u))
    · intro t op _ _ _
      exact hgoto hs t trivial

/-! ## The sleepers -/

theorem not_sleeps_leave (op : Op) : ¬ (M.leave op).Sleeps := by
  unfold leave
  split <;> exact not_false

theorem consistent_goto (h : s.Consistent) {t : T} {pc : MonitorPc Op}
    (hpc : pc.Sleeps ↔ (s.threads t).Sleeps) : (s.goto t pc).Consistent :=
  (Function.forall_update_iff s.threads fun v pc => v ∈ s.sleepers ↔ pc.Sleeps).mpr
    ⟨(h t).trans hpc.symm, fun v _ => h v⟩

/-- The sleepers are the threads that stand in a `wait`. -/
theorem mem_sleepers (h : M.system.Reachable s) : s.Consistent := by
  apply h.invariant
  · intro s hs t
    cases hs
    exact ⟨fun hmem => absurd hmem (Finset.notMem_empty t), False.elim⟩
  · intro s s' a _ hs _ hstep
    apply step_elim (P := MonitorState.Consistent) _ _ _ _ _ hstep
    · intro t op _ hidle
      apply consistent_goto hs
      rw [hidle]
      exact Iff.rfl
    · intro t op data _ henters _
      apply consistent_goto (s := s.did op data) hs
      exact iff_of_false (not_sleeps_leave op) (MonitorPc.not_sleeps_of_enters henters)
    · intro t op _ _ _
      apply (Function.forall_update_iff s.threads fun v pc =>
        v ∈ insert t s.sleepers ↔ pc.Sleeps).mpr
      refine ⟨iff_of_true (Finset.mem_insert_self t _) trivial, fun v hv => ?_⟩
      rw [Finset.mem_insert, or_iff_right hv]
      exact hs v
    · intro t u op _ hnotify hu
      have hidle : (s.goto t .idle).Consistent := consistent_goto hs (by rw [hnotify]; exact Iff.rfl)
      apply (Function.forall_update_iff (s.goto t .idle).threads fun v pc =>
        v ∈ s.sleepers.erase u ↔ pc.Sleeps).mpr
      refine ⟨iff_of_false (Finset.notMem_erase u _) MonitorPc.not_sleeps_wake, fun v hv => ?_⟩
      rw [Finset.mem_erase, and_iff_right hv]
      exact hidle v
    · intro t op _ hnotify _
      apply consistent_goto hs
      rw [hnotify]
      exact Iff.rfl

omit [DecidableEq T] in
theorem not_sleeps_of_empty (hs : s.Consistent) (hnone : s.sleepers = ∅) (u : T) :
    ¬ (s.threads u).Sleeps := by
  intro hsleeps
  have hmem := (hs u).mpr hsleeps
  rw [hnone] at hmem
  exact absurd hmem (Finset.notMem_empty u)

/-- The thread that is woken sleeps until then. -/
theorem sleeps_of_mem (hs : s.Consistent) {t u : T} {op : Op} (hnotify : s.threads t = .notify op)
    (hu : u ∈ s.sleepers) : ((s.goto t .idle).threads u).Sleeps := by
  have hsleeps := (hs u).mp hu
  have hut : u ≠ t := by
    intro hut
    rw [hut, hnotify] at hsleeps
    exact hsleeps
  show (update s.threads t .idle u).Sleeps
  rwa [Function.update_of_ne hut]

/-- A thread that does not come to rest leaves no new sleeper. -/
theorem exists_sleeps_of_goto {t : T} {pc : MonitorPc Op} (hpc : ¬ pc.Sleeps)
    (h : ∃ u, ((s.goto t pc).threads u).Sleeps) : ∃ u, (s.threads u).Sleeps := by
  have hsleeps := (Function.exists_update_iff s.threads fun _ pc => pc.Sleeps).mp h
  rcases hsleeps with hnew | ⟨u, -, hu⟩
  · exact absurd hnew hpc
  · exact ⟨u, hu⟩

/-! ## The operations in progress -/

/-- What holds of every operation that is called holds of every operation in progress. -/
theorem op?_invariant {C : MonitorState T Op D → MonitorAct T Op → Prop} {P : T → Op → Prop}
    (hC : ∀ s t op, C s (.call t op) → P t op) (h : M.system.ReachableBy C s) :
    ∀ t, ∀ op ∈ (s.threads t).op?, P t op := by
  have hgoto {s : MonitorState T Op D} (hs : ∀ t, ∀ op ∈ (s.threads t).op?, P t op) (t : T)
      {pc : MonitorPc Op} (hpc : ∀ op ∈ pc.op?, P t op) :
      ∀ v, ∀ op ∈ ((s.goto t pc).threads v).op?, P v op :=
    (Function.forall_update_iff s.threads fun v pc => ∀ op ∈ pc.op?, P v op).mpr
      ⟨hpc, fun v _ => hs v⟩
  apply h.invariant (I := fun s => ∀ t, ∀ op ∈ (s.threads t).op?, P t op)
  · rintro s rfl t op hop
    cases hop
  · intro s s' a _ hs hc hstep
    apply step_elim (P := fun s' => ∀ t, ∀ op ∈ (s'.threads t).op?, P t op) _ _ _ _ _ hstep
    · intro t op ha _
      subst ha
      refine hgoto hs t fun op' hop => ?_
      cases hop
      exact hC s t op hc
    · intro t op data _ henters _
      refine hgoto (s := s.did op data) hs t fun op' hop => ?_
      unfold leave at hop
      split at hop
      · cases hop
        exact hs t op (MonitorPc.op?_of_enters henters)
      · cases hop
    · intro t op _ henters _
      refine hgoto (s := { s with sleepers := insert t s.sleepers }) hs t fun op' hop => ?_
      cases hop
      exact hs t op (MonitorPc.op?_of_enters henters)
    · intro t u op _ _ _
      have hidle : ∀ v, ∀ op ∈ ((s.goto t .idle).threads v).op?, P v op :=
        hgoto hs t (by rintro op ⟨⟩)
      refine hgoto (s := { s.goto t .idle with sleepers := s.sleepers.erase u }) hidle u
        fun op hop => ?_
      rw [MonitorPc.op?_wake] at hop
      exact hidle u op hop
    · intro t op _ _ _
      exact hgoto hs t (by rintro op ⟨⟩)

end Monitor

end VideoStream.Library
