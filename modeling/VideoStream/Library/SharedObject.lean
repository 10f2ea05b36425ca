import VideoStream.Library.CondVar
import VideoStream.Library.Linearization
import VideoStream.Library.Monitor

/-!
# Objects behind a mutex

An object behind a mutex with one condition variable, as its callers see it: an operation is called,
runs its body once behind the mutex, and returns a result. Where the predicate of a `wait` is false,
the body is not run and the caller sleeps; an operation with a deadline may stop sleeping by itself,
tests the predicate a last time, and otherwise returns empty-handed. `notify_one` comes behind the
mutex and wakes one of the sleepers if there is any. Sleepers may also wake up spuriously.

`I` is the type of the calls, of all threads: the call `i` is a call of `op i`.

* `SharedObject.Legal` — what the operations do one by one: the sequential object.
* `SharedObject.linearizable` — in every run the calls take effect one by one, in an order that
  agrees with real time, as they do on the sequential object, and with the same results.
* `SharedObject.not_stranded` — where the data has an `amount` that an operation waits for, that a
  notification stands for and that waiting operations take, nobody sleeps in front of it for good.
-/

namespace VideoStream.Library

open Function (update)

/-- The data at the beginning, and the operations. A `body` is `none` where its predicate is false;
`expires` is the result of an operation that gives up. -/
structure SharedObject (Op D R : Type*) where
  data : D
  body : Op → D → Option (D × R)
  expires : Op → Option R
  notifies : Op → Bool

/-- Where a call stands. `lock`, `woken` and `expired` are before the mutex, `notify` and `leaving`
are behind it. -/
inductive SharedPc (R : Type*) where
  | absent
  | lock
  | wait
  | woken
  | expired
  | notify (r : R)
  | leaving (r : R)
  | returned (r : R)
  deriving DecidableEq

/-- `done` has the calls that took effect, with their results, oldest first. -/
structure SharedState (I D R : Type*) where
  data : D
  sleepers : Finset I
  calls : I → SharedPc R
  trace : List (HistoryEvent I)
  done : List (I × R)

/-- The steps; `woken` is whom `notify_one` wakes. -/
inductive SharedAct (I : Type*) where
  | call (i : I)
  | enter (i : I)
  | notify (i : I) (woken : Option I)
  | ret (i : I)
  | spurious (i : I)
  | expire (i : I)
  deriving DecidableEq

variable {Op D R I : Type*}

namespace SharedPc

def Sleeps : SharedPc R → Prop
  | .wait => True
  | _ => False

/-- The call has a `notify_one` to do, or was woken and has not tested its predicate yet. -/
def Wakes : SharedPc R → Prop
  | .woken | .notify _ => True
  | _ => False

/-- The call stands in a `wait`, or comes out of one. -/
def Waited : SharedPc R → Prop
  | .wait | .woken | .expired => True
  | _ => False

/-- How many events of the history a call has behind it. -/
def rank : SharedPc R → Nat
  | .absent => 0
  | .lock | .wait | .woken | .expired => 1
  | .notify _ | .leaving _ => 2
  | .returned _ => 3

/-- The result of a call that took effect. -/
def result : SharedPc R → Option R
  | .notify r | .leaving r | .returned r => some r
  | _ => none

def hasReturned : SharedPc R → Bool
  | .returned _ => true
  | _ => false

end SharedPc

namespace SharedState

variable [DecidableEq I]

def goto (s : SharedState I D R) (i : I) (pc : SharedPc R) : SharedState I D R :=
  { s with calls := update s.calls i pc }

def log (s : SharedState I D R) (e : HistoryEvent I) : SharedState I D R :=
  { s with trace := s.trace ++ [e] }

/-- The call takes effect. -/
def did (s : SharedState I D R) (i : I) (data : D) (r : R) : SharedState I D R :=
  { s with data := data, done := s.done ++ [(i, r)] }.log (.point i)

def sleep (s : SharedState I D R) (i : I) : SharedState I D R :=
  { s with sleepers := insert i s.sleepers }.goto i .wait

/-- The call no longer sleeps, and goes on at `pc`. -/
def wakeUp (s : SharedState I D R) (i : I) (pc : SharedPc R) : SharedState I D R :=
  { s with sleepers := s.sleepers.erase i }.goto i pc

/-- What the calls did that took effect. -/
def effects (op : I → Op) (s : SharedState I D R) : List (Op × R) :=
  s.done.map fun p => (op p.1, p.2)

/-- The sleepers are the calls that stand in a `wait`. -/
def Consistent (s : SharedState I D R) : Prop := ∀ i, i ∈ s.sleepers ↔ (s.calls i).Sleeps

end SharedState

namespace SharedObject

variable [DecidableEq I] (O : SharedObject Op D R) (op : I → Op)

/-- Where a call goes on behind its body. -/
def leave (o : Op) (r : R) : SharedPc R := if O.notifies o then .notify r else .leaving r

/-- A call has the mutex. -/
def enter (s : SharedState I D R) (i : I) : Option (SharedState I D R) :=
  match s.calls i with
  | .lock | .woken =>
      match O.body (op i) s.data with
      | some (data, r) => some ((s.did i data r).goto i (O.leave (op i) r))
      | none => some (s.sleep i)
  | .expired =>
      match O.body (op i) s.data with
      | some (data, r) => some ((s.did i data r).goto i (O.leave (op i) r))
      | none => (O.expires (op i)).map fun r => (s.did i s.data r).goto i (.leaving r)
  | _ => none

def notifyOne (s : SharedState I D R) (i : I) (r : R) : Option I → Option (SharedState I D R)
  | some u => if u ∈ s.sleepers then some ((s.goto i (.leaving r)).wakeUp u .woken) else none
  | none => if s.sleepers = ∅ then some (s.goto i (.leaving r)) else none

def step (s : SharedState I D R) : SharedAct I → Option (SharedState I D R)
  | .call i =>
      match s.calls i with
      | .absent => some ((s.log (.call i)).goto i .lock)
      | _ => none
  | .enter i => O.enter op s i
  | .notify i woken =>
      match s.calls i with
      | .notify r => notifyOne s i r woken
      | _ => none
  | .ret i =>
      match s.calls i with
      | .leaving r => some ((s.log (.ret i)).goto i (.returned r))
      | _ => none
  | .spurious i =>
      match s.calls i with
      | .wait => some (s.wakeUp i .woken)
      | _ => none
  | .expire i =>
      match s.calls i with
      | .wait => if (O.expires (op i)).isSome then some (s.wakeUp i .expired) else none
      | _ => none

/-- Nobody has called an operation yet. -/
def start : SharedState I D R where
  data := O.data
  sleepers := ∅
  calls _ := .absent
  trace := []
  done := []

def system : System (SharedState I D R) (SharedAct I) where
  init s := s = O.start
  step := O.step op

/-! ## The transitions -/

/-- The transitions of an object. -/
inductive Step (s : SharedState I D R) : SharedAct I → SharedState I D R → Prop
  | call (i : I) : s.calls i = .absent → Step s (.call i) ((s.log (.call i)).goto i .lock)
  | pass (i : I) (data : D) (r : R) :
      s.calls i = .lock ∨ s.calls i = .woken ∨ s.calls i = .expired →
      O.body (op i) s.data = some (data, r) →
      Step s (.enter i) ((s.did i data r).goto i (O.leave (op i) r))
  | sleep (i : I) : s.calls i = .lock ∨ s.calls i = .woken → O.body (op i) s.data = none →
      Step s (.enter i) (s.sleep i)
  | giveUp (i : I) (r : R) : s.calls i = .expired → O.body (op i) s.data = none →
      O.expires (op i) = some r → Step s (.enter i) ((s.did i s.data r).goto i (.leaving r))
  | wake (i u : I) (r : R) : s.calls i = .notify r → u ∈ s.sleepers →
      Step s (.notify i (some u)) ((s.goto i (.leaving r)).wakeUp u .woken)
  | nobody (i : I) (r : R) : s.calls i = .notify r → s.sleepers = ∅ →
      Step s (.notify i none) (s.goto i (.leaving r))
  | ret (i : I) (r : R) : s.calls i = .leaving r →
      Step s (.ret i) ((s.log (.ret i)).goto i (.returned r))
  | spurious (i : I) : s.calls i = .wait → Step s (.spurious i) (s.wakeUp i .woken)
  | expire (i : I) : s.calls i = .wait → (O.expires (op i)).isSome →
      Step s (.expire i) (s.wakeUp i .expired)

variable {O op} {s s' : SharedState I D R} {a : SharedAct I}

theorem enter_cases {i : I} (h : O.enter op s i = some s') :
    O.Step op s (.enter i) s' := by
  unfold enter at h
  cases hp : s.calls i with
  | lock | woken =>
      simp only [hp] at h
      split at h
      · next data r hbody => cases h; exact .pass i data r (by simp [hp]) hbody
      · next hbody => cases h; exact .sleep i (by simp [hp]) hbody
  | expired =>
      simp only [hp] at h
      split at h
      · next data r hbody => cases h; exact .pass i data r (by simp [hp]) hbody
      · next hbody =>
          obtain ⟨r, hr, rfl⟩ := Option.map_eq_some_iff.mp h
          exact .giveUp i r hp hbody hr
  | _ => simp [hp] at h

theorem step_cases (h : O.step op s a = some s') : O.Step op s a s' := by
  cases a with
  | call i =>
      cases hp : s.calls i with
      | absent => simp only [step, hp] at h; cases h; exact .call i hp
      | _ => simp [step, hp] at h
  | enter i => exact enter_cases h
  | notify i woken =>
      cases hp : s.calls i with
      | notify r =>
          simp only [step, hp] at h
          unfold notifyOne at h
          split at h
          · next u =>
              obtain ⟨hu, hs⟩ := Option.ite_none_right_eq_some.mp h
              cases hs
              exact .wake i u r hp hu
          · obtain ⟨hnone, hs⟩ := Option.ite_none_right_eq_some.mp h
            cases hs
            exact .nobody i r hp hnone
      | _ => simp [step, hp] at h
  | ret i =>
      cases hp : s.calls i with
      | leaving r => simp only [step, hp] at h; cases h; exact .ret i r hp
      | _ => simp [step, hp] at h
  | spurious i =>
      cases hp : s.calls i with
      | wait => simp only [step, hp] at h; cases h; exact .spurious i hp
      | _ => simp [step, hp] at h
  | expire i =>
      cases hp : s.calls i with
      | wait =>
          simp only [step, hp] at h
          obtain ⟨hexpires, hs⟩ := Option.ite_none_right_eq_some.mp h
          cases hs
          exact .expire i hp hexpires
      | _ => simp [step, hp] at h

/-! ## The sleepers -/

end SharedObject

namespace SharedPc

variable {pc : SharedPc R}

theorem sleeps_iff : pc.Sleeps ↔ pc = .wait := by
  cases pc <;> simp [Sleeps]

theorem not_sleeps_of_enters (h : pc = .lock ∨ pc = .woken ∨ pc = .expired) : ¬ pc.Sleeps := by
  rw [sleeps_iff]
  rcases h with rfl | rfl | rfl <;> simp

/-- A step of one call that leaves no call with a result that it did not have. -/
theorem result_update [DecidableEq I] {f : I → SharedPc R} {i : I}
    (hpc : ∀ r ∈ pc.result, (f i).result = some r) :
    ∀ j, ∀ r ∈ (update f i pc j).result, (f j).result = some r :=
  (Function.forall_update_iff f fun j pc => ∀ r ∈ pc.result, (f j).result = some r).mpr
    ⟨hpc, fun _ _ _ hr => hr⟩

theorem exists_result (h : 2 ≤ pc.rank) : ∃ r, pc.result = some r := by
  cases pc with
  | notify r | leaving r | returned r => exact ⟨r, rfl⟩
  | _ => simp [rank] at h

theorem ne_absent (h : pc.hasReturned) : pc ≠ .absent := by
  rintro rfl
  cases h

theorem rank_of_result {r : R} (h : pc.result = some r) : 2 ≤ pc.rank := by
  cases pc with
  | notify r | leaving r => exact le_rfl
  | returned r => exact Nat.le_succ 2
  | _ => cases h

theorem rank_of_hasReturned (h : pc.hasReturned) : 2 ≤ pc.rank := by
  cases pc with
  | returned r => exact Nat.le_succ 2
  | _ => cases h

theorem ne_absent_of_rank (h : 1 ≤ pc.rank) : pc ≠ .absent := by
  rintro rfl
  exact absurd h (Nat.not_succ_le_zero 0)

theorem not_wakes_of_sleeps (h : pc.Sleeps) : ¬ pc.Wakes := by
  rw [sleeps_iff.mp h]
  exact not_false

end SharedPc

namespace SharedState

variable [DecidableEq I] {s s' : SharedState I D R} {i u : I} {pc : SharedPc R}

/-- A call that was awake goes on, and is awake. -/
theorem Consistent.awake (h : s.Consistent) (hsleepers : s'.sleepers = s.sleepers)
    (hcalls : s'.calls = update s.calls i pc) (hold : ¬ (s.calls i).Sleeps) (hpc : ¬ pc.Sleeps) :
    s'.Consistent := by
  unfold Consistent
  rw [hsleepers, hcalls]
  apply (Function.forall_update_iff s.calls fun v pc => v ∈ s.sleepers ↔ pc.Sleeps).mpr
  refine ⟨?_, fun v _ => h v⟩
  rw [h i]
  exact iff_of_false hold hpc

theorem Consistent.sleep (h : s.Consistent) : (s.sleep i).Consistent := by
  apply (Function.forall_update_iff s.calls fun v pc => v ∈ insert i s.sleepers ↔ pc.Sleeps).mpr
  refine ⟨iff_of_true (Finset.mem_insert_self i _) trivial, fun v hv => ?_⟩
  rw [Finset.mem_insert, or_iff_right hv]
  exact h v

theorem Consistent.wakeUp (h : s.Consistent) (hpc : ¬ pc.Sleeps) : (s.wakeUp i pc).Consistent := by
  apply (Function.forall_update_iff s.calls fun v pc => v ∈ s.sleepers.erase i ↔ pc.Sleeps).mpr
  refine ⟨iff_of_false (Finset.notMem_erase i _) hpc, fun v hv => ?_⟩
  rw [Finset.mem_erase, and_iff_right hv]
  exact h v

omit [DecidableEq I] in
theorem Consistent.wait_of_mem (h : s.Consistent) (hu : u ∈ s.sleepers) : s.calls u = .wait :=
  SharedPc.sleeps_iff.mp ((h u).mp hu)

/-- The call that is woken is another one, and sleeps until then. -/
theorem Consistent.wait_of_goto (h : s.Consistent) {r : R} (hi : s.calls i = .notify r)
    (hu : u ∈ s.sleepers) : (s.goto i pc).calls u = .wait := by
  have hwait := h.wait_of_mem hu
  have hui : u ≠ i := by
    intro hui
    rw [hui, hi] at hwait
    cases hwait
  show update s.calls i pc u = .wait
  rwa [Function.update_of_ne hui]

end SharedState

namespace SharedObject

variable [DecidableEq I] {O : SharedObject Op D R} {op : I → Op} {s s' : SharedState I D R}
  {a : SharedAct I}

theorem not_sleeps_leave (o : Op) (r : R) : ¬ (O.leave o r).Sleeps := by
  unfold leave
  split <;> exact not_false

theorem step_consistent (h : O.Step op s a s') (hs : s.Consistent) : s'.Consistent := by
  cases h with
  | call i hp => exact hs.awake rfl rfl (by rw [hp]; exact not_false) not_false
  | pass i data r hp _ =>
      exact hs.awake rfl rfl (SharedPc.not_sleeps_of_enters hp) (not_sleeps_leave _ r)
  | sleep i _ _ => exact hs.sleep
  | giveUp i r hp _ _ => exact hs.awake rfl rfl (by rw [hp]; exact not_false) not_false
  | wake i u r hp _ =>
      have hleft : (s.goto i (.leaving r)).Consistent :=
        hs.awake rfl rfl (by rw [hp]; exact not_false) not_false
      exact hleft.wakeUp not_false
  | nobody i r hp _ => exact hs.awake rfl rfl (by rw [hp]; exact not_false) not_false
  | ret i r hp => exact hs.awake rfl rfl (by rw [hp]; exact not_false) not_false
  | spurious i _ | expire i _ _ => exact hs.wakeUp not_false

/-- The sleepers are the calls that stand in a `wait`. -/
theorem mem_sleepers (h : (O.system op).Reachable s) : s.Consistent := by
  apply h.invariant
  · intro s hs i
    cases hs
    exact ⟨fun hmem => absurd hmem (Finset.notMem_empty i), False.elim⟩
  · intro s s' a _ hs _ hstep
    exact step_consistent (step_cases hstep) hs

/-! ## Histories -/

/-- A call goes on between two events of its history, or by the event that is due. -/
theorem step_tracks (h : O.Step op s a s') (hcons : s.Consistent)
    (hs : Tracks SharedPc.rank s.trace s.calls) : Tracks SharedPc.rank s'.trace s'.calls := by
  cases h with
  | call i hp => exact hs.event (.call i) (by rw [HistoryEvent.op, hp]; rfl) rfl
  | pass i data r hp _ =>
      refine hs.event (.point i) ?_ ?_
      · rcases hp with hp | hp | hp <;> (rw [HistoryEvent.op, hp]; rfl)
      · unfold leave
        split <;> rfl
  | sleep i hp _ =>
      apply hs.silent
      rcases hp with hp | hp <;> (rw [hp]; rfl)
  | giveUp i r hp _ _ => exact hs.event (.point i) (by rw [HistoryEvent.op, hp]; rfl) rfl
  | wake i u r hp hu =>
      have hleft : Tracks SharedPc.rank s.trace (s.goto i (.leaving r)).calls :=
        hs.silent (by rw [hp]; rfl)
      apply hleft.silent
      rw [hcons.wait_of_goto hp hu]
      rfl
  | nobody i r hp _ => exact hs.silent (by rw [hp]; rfl)
  | ret i r hp => exact hs.event (.ret i) (by rw [HistoryEvent.op, hp]; rfl) rfl
  | spurious i hp | expire i hp _ => exact hs.silent (by rw [hp]; rfl)

theorem reachable_tracks (h : (O.system op).Reachable s) :
    Tracks SharedPc.rank s.trace s.calls := by
  apply h.invariant (I := fun s => Tracks SharedPc.rank s.trace s.calls)
  · intro s hs
    cases hs
    exact .start rfl
  · intro s s' a hr hs _ hstep
    exact step_tracks (step_cases hstep) (mem_sleepers hr) hs

end SharedObject

/-! ## The sequential object -/

namespace SharedObject

variable (O : SharedObject Op D R) {d d' : D} {o : Op} {r : R} {l l' : List (Op × R)}

/-- An operation by itself turns `d` into `d'` and returns `r`. -/
def Acts (d : D) (o : Op) (r : R) (d' : D) : Prop :=
  O.body o d = some (d', r) ∨ O.body o d = none ∧ O.expires o = some r ∧ d' = d

/-- The operations one by one, each with its result, turn `d` into `d'`. -/
inductive Runs : D → List (Op × R) → D → Prop
  | nil {d : D} : Runs d [] d
  | cons {d d₁ d' : D} {o : Op} {r : R} {l : List (Op × R)} :
      O.Acts d o r d₁ → Runs d₁ l d' → Runs d ((o, r) :: l) d'

/-- From the beginning to the data `d`. -/
def Legal (l : List (Op × R)) (d : D) : Prop := O.Runs O.data l d

variable {O}

theorem runs_append : O.Runs d (l ++ l') d' ↔ ∃ d₁, O.Runs d l d₁ ∧ O.Runs d₁ l' d' := by
  induction l generalizing d with
  | nil =>
      constructor
      · intro h
        exact ⟨d, .nil, h⟩
      · rintro ⟨d₁, hnil, h⟩
        cases hnil
        exact h
  | cons x l ih =>
      constructor
      · intro h
        cases h with
        | cons hact h =>
            obtain ⟨d₁, hl, hl'⟩ := ih.mp h
            exact ⟨d₁, .cons hact hl, hl'⟩
      · rintro ⟨d₁, hl, hl'⟩
        cases hl with
        | cons hact hl => exact .cons hact (ih.mpr ⟨d₁, hl, hl'⟩)

theorem Legal.concat (h : O.Legal l d) (hact : O.Acts d o r d') : O.Legal (l ++ [(o, r)]) d' :=
  runs_append.mpr ⟨d, h, .cons hact .nil⟩

theorem Legal.acts_of_mem (h : O.Legal l d) (hmem : (o, r) ∈ l) : ∃ d₁ d₂, O.Acts d₁ o r d₂ := by
  obtain ⟨a, b, rfl⟩ := List.append_of_mem hmem
  obtain ⟨d₁, -, hrest⟩ := runs_append.mp h
  cases hrest with
  | cons hact _ => exact ⟨d₁, _, hact⟩

/-- What stood before an operation, what it did, and what comes behind it. -/
theorem Legal.split (h : O.Legal (l ++ (o, r) :: l') d) :
    ∃ d₁ d₂, O.Legal l d₁ ∧ O.Acts d₁ o r d₂ ∧ O.Runs d₂ l' d := by
  obtain ⟨d₁, hl, hl'⟩ := runs_append.mp h
  cases hl' with
  | cons hact hl' => exact ⟨d₁, _, hl, hact, hl'⟩

end SharedObject

namespace SharedObject

variable [DecidableEq I] {O : SharedObject Op D R} {op : I → Op} {s s' : SharedState I D R}
  {a : SharedAct I}

/-! ## Linearizability -/

variable (O op) in
/-- The points of the history are the calls that took effect; the sequential object does what they
did; and a call leaves with the result that it had there. -/
structure Explains (s : SharedState I D R) : Prop where
  points : points s.trace = s.done.map Prod.fst
  legal : O.Legal (s.effects op) s.data
  result : ∀ i, ∀ r ∈ (s.calls i).result, (i, r) ∈ s.done

omit [DecidableEq I] in
/-- A step between two points. -/
theorem Explains.silent (hs : O.Explains op s)
    (hpoints : Library.points s'.trace = Library.points s.trace)
    (hdone : s'.done = s.done) (hdata : s'.data = s.data)
    (hresult : ∀ i, ∀ r ∈ (s'.calls i).result, (s.calls i).result = some r) :
    O.Explains op s' := by
  refine ⟨?_, ?_, fun i r hr => ?_⟩
  · rw [hpoints, hdone, hs.points]
  · rw [SharedState.effects, hdone, hdata]
    exact hs.legal
  · rw [hdone]
    exact hs.result i r (hresult i r hr)

/-- A point. -/
theorem Explains.did (hs : O.Explains op s) {i : I} {data : D} {r : R} {pc : SharedPc R}
    (hact : O.Acts s.data (op i) r data) (hpc : pc.result = some r) :
    O.Explains op ((s.did i data r).goto i pc) := by
  refine ⟨?_, ?_, ?_⟩
  · show Library.points (s.trace ++ [.point i]) = (s.done ++ [(i, r)]).map Prod.fst
    rw [points_concat, hs.points, List.map_append]
    rfl
  · show O.Legal ((s.done ++ [(i, r)]).map fun p => (op p.1, p.2)) data
    rw [List.map_append]
    exact hs.legal.concat hact
  · apply (Function.forall_update_iff s.calls fun v pc =>
      ∀ r' ∈ pc.result, (v, r') ∈ s.done ++ [(i, r)]).mpr
    refine ⟨fun r' hr' => ?_, fun v _ r' hr' => List.mem_append_left _ (hs.result v r' hr')⟩
    rw [hpc] at hr'
    cases hr'
    exact List.mem_append_right _ (List.mem_singleton_self _)

theorem step_explains (h : O.Step op s a s') (hs : O.Explains op s) :
    O.Explains op s' := by
  cases h with
  | call i _ =>
      have hpoints : Library.points (s.trace ++ [.call i]) = Library.points s.trace :=
        (points_concat _ _).trans (List.append_nil _)
      exact hs.silent hpoints rfl rfl (SharedPc.result_update (by simp [SharedPc.result]))
  | pass i data r _ hbody =>
      apply hs.did (.inl hbody)
      unfold leave
      split <;> rfl
  | sleep i _ _ => exact hs.silent rfl rfl rfl (SharedPc.result_update (by simp [SharedPc.result]))
  | giveUp i r _ hbody hr => exact hs.did (.inr ⟨hbody, hr, rfl⟩) rfl
  | wake i u r hp _ =>
      refine hs.silent rfl rfl rfl fun j r' hr' => ?_
      have hleft : ((s.goto i (.leaving r)).calls j).result = some r' :=
        SharedPc.result_update (by simp [SharedPc.result]) j r' hr'
      exact SharedPc.result_update (by simp [SharedPc.result, hp]) j r' hleft
  | nobody i r hp _ =>
      exact hs.silent rfl rfl rfl (SharedPc.result_update (by simp [SharedPc.result, hp]))
  | ret i r hp =>
      have hpoints : Library.points (s.trace ++ [.ret i]) = Library.points s.trace :=
        (points_concat _ _).trans (List.append_nil _)
      exact hs.silent hpoints rfl rfl
        (SharedPc.result_update (f := s.calls) (by simp [SharedPc.result, hp]))
  | spurious i _ | expire i _ _ =>
      exact hs.silent rfl rfl rfl (SharedPc.result_update (by simp [SharedPc.result]))

theorem reachable_explains (h : (O.system op).Reachable s) : O.Explains op s := by
  apply h.invariant (I := fun s => O.Explains op s)
  · intro s hs
    cases hs
    exact ⟨rfl, .nil, fun i r hr => nomatch hr⟩
  · intro s s' a hr hs _ hstep
    exact step_explains (step_cases hstep) hs

/-- The calls take effect one by one, in an order that agrees with real time, and do and return what
the sequential object does and returns. -/
theorem linearizable (h : (O.system op).Reachable s) :
    IsLinearization s.trace (s.done.map Prod.fst) ∧
      O.Legal (s.effects op) s.data ∧
      ∀ i r, s.calls i = .returned r → (i, r) ∈ s.done := by
  have hexplains := reachable_explains h
  refine ⟨?_, hexplains.legal, fun i r hi => hexplains.result i r ?_⟩
  · rw [← hexplains.points]
    exact (reachable_tracks h).sequenced.isLinearization_points
  · rw [hi]
    rfl

/-- A call took effect if and only if it has a result. -/
theorem mem_done (h : (O.system op).Reachable s) {i : I} {r : R} :
    (i, r) ∈ s.done ↔ (s.calls i).result = some r := by
  have hexplains := reachable_explains h
  constructor
  · intro hmem
    have htracks := reachable_tracks h
    have hpoint : HistoryEvent.point i ∈ s.trace := by
      rw [← mem_points, hexplains.points]
      exact List.mem_map_of_mem (f := Prod.fst) hmem
    have hrank : 1 < progress s.trace i := (htracks.sequenced.mem_iff _).mp hpoint
    rw [htracks.progress] at hrank
    obtain ⟨r', hr'⟩ := SharedPc.exists_result hrank
    have hnodup := (linearizable h).1.nodup
    have heq := List.inj_on_of_nodup_map hnodup hmem (hexplains.result i r' hr') rfl
    rw [hr', (Prod.mk.inj heq).2]
  · intro hr
    exact hexplains.result i r hr

theorem mem_order (h : (O.system op).Reachable s) {i : I} :
    i ∈ s.done.map Prod.fst ↔ 2 ≤ (s.calls i).rank := by
  constructor
  · intro hmem
    obtain ⟨p, hp, rfl⟩ := List.mem_map.mp hmem
    exact SharedPc.rank_of_result ((mem_done h).mp (show (p.1, p.2) ∈ s.done from hp))
  · intro hrank
    obtain ⟨r, hr⟩ := SharedPc.exists_result hrank
    exact List.mem_map_of_mem (f := Prod.fst) ((mem_done h).mpr hr)

/-! ## One call -/

/-- A call that moves has not returned; and it was there before, or begins. -/
theorem step_moves (h : O.Step op s a s') (hcons : s.Consistent) (j : I) :
    s'.calls j = s.calls j ∨
      (s.calls j).hasReturned = false ∧ (s.calls j ≠ .absent ∨ a = .call j) := by
  have hone {i : I} {pc : SharedPc R} (hcalls : s'.calls = update s.calls i pc)
      (hi : (s.calls i).hasReturned = false ∧ (s.calls i ≠ .absent ∨ a = .call i)) :
      s'.calls j = s.calls j ∨
        (s.calls j).hasReturned = false ∧ (s.calls j ≠ .absent ∨ a = .call j) := by
    by_cases hji : j = i
    · rw [hji]
      exact .inr hi
    · left
      rw [hcalls, Function.update_of_ne hji]
  cases h with
  | call i hp => exact hone rfl ⟨by rw [hp]; rfl, .inr rfl⟩
  | pass i data r hp _ =>
      apply hone rfl
      rcases hp with hp | hp | hp <;> simp [hp, SharedPc.hasReturned]
  | sleep i hp _ =>
      apply hone rfl
      rcases hp with hp | hp <;> simp [hp, SharedPc.hasReturned]
  | giveUp i r hp _ _ => exact hone rfl (by simp [hp, SharedPc.hasReturned])
  | wake i u r hp hu =>
      by_cases hju : j = u
      · right
        rw [hju, hcons.wait_of_mem hu]
        exact ⟨rfl, .inl (by simp)⟩
      · by_cases hji : j = i
        · right
          rw [hji, hp]
          exact ⟨rfl, .inl (by simp)⟩
        · left
          show update (update s.calls i (.leaving r)) u .woken j = s.calls j
          rw [Function.update_of_ne hju, Function.update_of_ne hji]
  | nobody i r hp _ | ret i r hp => exact hone rfl (by simp [hp, SharedPc.hasReturned])
  | spurious i hp | expire i hp _ => exact hone rfl (by simp [hp, SharedPc.hasReturned])

/-- A call that sleeps was asleep before, or has just found its predicate false. -/
theorem step_wait (h : O.Step op s a s') {j : I} (hj : s'.calls j = .wait) :
    s.calls j = .wait ∨ (s.calls j).rank = 1 ∧ O.body (op j) s.data = none := by
  have hawake {f : I → SharedPc R} {i : I} {pc : SharedPc R} (hf : update f i pc j = .wait)
      (hpc : ¬ pc.Sleeps) : f j = .wait := by
    by_cases hji : j = i
    · rw [hji, Function.update_self] at hf
      exact absurd (SharedPc.sleeps_iff.mpr hf) hpc
    · rwa [Function.update_of_ne hji] at hf
  cases h with
  | call i _ | giveUp i r _ _ _ | nobody i r _ _ | ret i r _ | spurious i _ | expire i _ _ =>
      exact .inl (hawake hj not_false)
  | pass i data r _ _ => exact .inl (hawake hj (not_sleeps_leave _ r))
  | sleep i hp hbody =>
      by_cases hji : j = i
      · right
        rw [hji]
        refine ⟨?_, hbody⟩
        rcases hp with hp | hp <;> (rw [hp]; rfl)
      · left
        change update s.calls i .wait j = .wait at hj
        rwa [Function.update_of_ne hji] at hj
  | wake i u r _ _ => exact .inl (hawake (hawake hj not_false) not_false)

/-- A step in which a call takes effect, or none. -/
theorem step_acts (h : O.Step op s a s') : s'.data = s.data ∧ s'.done = s.done ∨
    ∃ i r, a = .enter i ∧ O.Acts s.data (op i) r s'.data ∧ s'.done = s.done ++ [(i, r)] ∧
      (s.calls i).rank = 1 := by
  cases h with
  | pass i data r hp hbody =>
      right
      refine ⟨i, r, rfl, .inl hbody, rfl, ?_⟩
      rcases hp with hp | hp | hp <;> (rw [hp]; rfl)
  | giveUp i r hp hbody hr => exact .inr ⟨i, r, rfl, .inr ⟨hbody, hr, rfl⟩, rfl, by rw [hp]; rfl⟩
  | _ => exact .inl ⟨rfl, rfl⟩

/-- A call that returned stays there. -/
theorem step_returned (h : O.Step op s a s') (hcons : s.Consistent) {j : I}
    (hj : (s.calls j).hasReturned) : (s'.calls j).hasReturned := by
  rcases step_moves h hcons j with hsame | ⟨hnot, -⟩
  · rwa [hsame]
  · rw [hj] at hnot
    cases hnot

/-- A call that is there was there before, or begins. -/
theorem step_began (h : O.Step op s a s') (hcons : s.Consistent) {j : I}
    (hj : s'.calls j ≠ .absent) : s.calls j ≠ .absent ∨ a = .call j := by
  rcases step_moves h hcons j with hsame | ⟨-, hbegan⟩
  · rw [hsame] at hj
    exact .inl hj
  · exact hbegan

/-! ## Nobody sleeps for good -/

/-- `amount` counts what an operation waits for: one that waits finds nothing, and takes at least
one; a notification stands for at most one more; and nothing else brings more. -/
structure Counts (O : SharedObject Op D R) (amount : D → Nat) : Prop where
  waits : ∀ {o d}, O.body o d = none → amount d = 0
  takes : ∀ {o d₀ d d' r}, O.body o d₀ = none → O.body o d = some (d', r) → amount d' < amount d
  notifies : ∀ {o d d' r}, O.body o d = some (d', r) → O.notifies o = true →
    amount d' ≤ amount d + 1
  quiet : ∀ {o d d' r}, O.body o d = some (d', r) → O.notifies o = false → amount d' ≤ amount d

/-- There is something to take, nobody has a notification or a test before it, and a call sleeps. -/
def Stranded (amount : D → Nat) (s : SharedState I D R) : Prop :=
  0 < amount s.data ∧ (∀ i r, s.calls i ≠ .notify r) ∧ (∀ i, s.calls i ≠ .woken) ∧
    ∃ i, s.calls i = .wait

/-- While somebody sleeps, as many calls as there is to take are on the way. -/
def Attends (amount : D → Nat) (s : SharedState I D R) : Prop :=
  (∃ i, (s.calls i).Sleeps) → AtLeast SharedPc.Wakes s.calls (amount s.data)

variable (O op) in
/-- Only a call that can find its predicate false stands in a `wait` or comes out of one. -/
def Allows (s : SharedState I D R) : Prop :=
  ∀ i, (s.calls i).Waited → ∃ d, O.body (op i) d = none

/-- A call goes on where it is allowed to. -/
theorem Allows.update (hs : O.Allows op s) {i : I} {pc : SharedPc R}
    (hcalls : s'.calls = update s.calls i pc) (hpc : pc.Waited → ∃ d, O.body (op i) d = none) :
    O.Allows op s' := by
  unfold Allows
  rw [hcalls]
  exact (Function.forall_update_iff s.calls fun i pc =>
    pc.Waited → ∃ d, O.body (op i) d = none).mpr ⟨hpc, fun v _ => hs v⟩

theorem step_allows (h : O.Step op s a s') (hcons : s.Consistent) (hs : O.Allows op s) :
    O.Allows op s' := by
  cases h with
  | call i _ => exact hs.update rfl False.elim
  | pass i data r _ _ =>
      apply hs.update rfl
      unfold leave
      split <;> exact False.elim
  | sleep i _ hbody => exact hs.update rfl fun _ => ⟨s.data, hbody⟩
  | giveUp i r _ _ _ => exact hs.update rfl False.elim
  | wake i u r hp hu =>
      have hleft : O.Allows op (s.goto i (.leaving r)) := hs.update rfl False.elim
      have hu : (s.calls u).Waited := by
        rw [hcons.wait_of_mem hu]
        trivial
      exact hleft.update rfl fun _ => hs u hu
  | nobody i r _ _ => exact hs.update rfl False.elim
  | ret i r _ => exact hs.update rfl False.elim
  | spurious i hp | expire i hp _ =>
      have hi : (s.calls i).Waited := by
        rw [hp]
        trivial
      exact hs.update rfl fun _ => hs i hi

theorem reachable_allows (h : (O.system op).Reachable s) : O.Allows op s := by
  apply h.invariant (I := fun s => O.Allows op s)
  · intro s hs i hi
    cases hs
    exact hi.elim
  · intro s s' a hr hs _ hstep
    exact step_allows (step_cases hstep) (mem_sleepers hr) hs

/-- A step that brings no sleeper leaves the callers on the way that it finds. -/
theorem exists_sleeps_of_update {i : I} {pc : SharedPc R} (hcalls : s'.calls = update s.calls i pc)
    (hpc : ¬ pc.Sleeps) (h : ∃ u, (s'.calls u).Sleeps) : ∃ u, (s.calls u).Sleeps := by
  rw [hcalls] at h
  rcases (Function.exists_update_iff s.calls fun _ pc => pc.Sleeps).mp h with hnew | ⟨u, -, hu⟩
  · exact absurd hnew hpc
  · exact ⟨u, hu⟩

/-- A call goes on; it does not leave the way, and brings nothing. -/
theorem Attends.update {amount : D → Nat} (hs : Attends amount s) {i : I} {pc : SharedPc R}
    (hcalls : s'.calls = update s.calls i pc) (hdata : amount s'.data ≤ amount s.data)
    (hpc : ¬ pc.Sleeps) (hwakes : (s.calls i).Wakes → pc.Wakes) : Attends amount s' := by
  intro hsleeps
  have hon := (hs (exists_sleeps_of_update hcalls hpc hsleeps)).update hwakes
  rw [← hcalls] at hon
  exact hon.of_le (by omega)

/-- A body: a call that was woken takes something, and one that brings something is on the way. -/
theorem pass_attends {amount : D → Nat} (hcounts : O.Counts amount) (hallows : O.Allows op s)
    (hs : Attends amount s) {i : I} {data : D} {r : R}
    (hp : s.calls i = .lock ∨ s.calls i = .woken ∨ s.calls i = .expired)
    (hbody : O.body (op i) s.data = some (data, r)) :
    Attends amount ((s.did i data r).goto i (O.leave (op i) r)) := by
  intro hsleeps
  have hon := hs (exists_sleeps_of_update (s := s) rfl (not_sleeps_leave _ r) hsleeps)
  by_cases hwoken : s.calls i = .woken
  · have hwaited : (s.calls i).Waited := by
      rw [hwoken]
      trivial
    obtain ⟨d₀, hnone⟩ := hallows i hwaited
    have htakes : amount data < amount s.data := hcounts.takes hnone hbody
    have hleft : AtLeast SharedPc.Wakes (update s.calls i (O.leave (op i) r))
        (amount s.data - 1) := hon.leave
    exact hleft.of_le (show (amount data : Int) ≤ amount s.data - 1 by omega)
  · have hbeside : ¬ (s.calls i).Wakes := by
      rcases hp with hp | hp | hp
      · rw [hp]
        exact not_false
      · exact absurd hp hwoken
      · rw [hp]
        exact not_false
    cases hn : O.notifies (op i) with
    | true =>
        have hle : amount data ≤ amount s.data + 1 := hcounts.notifies hbody hn
        have hwakes : (O.leave (op i) r).Wakes := by
          rw [leave, if_pos hn]
          trivial
        have hjoined := hon.join hbeside hwakes
        exact hjoined.of_le (show (amount data : Int) ≤ amount s.data + 1 by omega)
    | false =>
        have hle : amount data ≤ amount s.data := hcounts.quiet hbody hn
        have hsame : AtLeast SharedPc.Wakes (update s.calls i (O.leave (op i) r))
            (amount s.data) := hon.update fun hwakes => absurd hwakes hbeside
        exact hsame.of_le (show (amount data : Int) ≤ amount s.data by omega)

theorem step_attends {amount : D → Nat} (hcounts : O.Counts amount) (h : O.Step op s a s')
    (hcons : s.Consistent) (hallows : O.Allows op s) (hs : Attends amount s) :
    Attends amount s' := by
  cases h with
  | call i hp => exact hs.update rfl le_rfl not_false (by rw [hp]; exact id)
  | pass i data r hp hbody => exact pass_attends hcounts hallows hs hp hbody
  | sleep i hp hbody =>
      intro _
      apply AtLeast.of_nonpos
      show (amount s.data : Int) ≤ 0
      rw [hcounts.waits hbody]
      exact Int.le_refl 0
  | giveUp i r hp _ _ => exact hs.update rfl le_rfl not_false (by rw [hp]; exact id)
  | wake i u r hp hu =>
      intro _
      -- `i` leaves the way, and `u` is on it now
      have hleft : AtLeast SharedPc.Wakes (s.goto i (.leaving r)).calls (amount s.data - 1) :=
        (hs ⟨u, (hcons u).mp hu⟩).leave
      have hsleeps : ((s.goto i (.leaving r)).calls u).Sleeps :=
        SharedPc.sleeps_iff.mpr (hcons.wait_of_goto hp hu)
      have hjoined := hleft.join (SharedPc.not_wakes_of_sleeps hsleeps)
        (show (SharedPc.woken : SharedPc R).Wakes from trivial)
      rwa [Int.sub_add_cancel] at hjoined
  | nobody i r hp hnone =>
      intro hsleeps
      have hawake : ¬ (SharedPc.leaving r).Sleeps := not_false
      obtain ⟨u, hu⟩ := exists_sleeps_of_update (s := s) rfl hawake hsleeps
      have hmem := (hcons u).mpr hu
      rw [hnone] at hmem
      exact absurd hmem (Finset.notMem_empty u)
  | ret i r hp => exact hs.update rfl le_rfl not_false (by rw [hp]; exact id)
  | spurious i hp => exact hs.update rfl le_rfl not_false fun _ => trivial
  | expire i hp _ => exact hs.update rfl le_rfl not_false (by rw [hp]; exact id)

theorem reachable_attends {amount : D → Nat} (hcounts : O.Counts amount)
    (h : (O.system op).Reachable s) : Attends amount s := by
  apply h.invariant (I := Attends amount)
  · intro s hs hsleeps
    cases hs
    obtain ⟨u, hu⟩ := hsleeps
    exact hu.elim
  · intro s s' a hr hs _ hstep
    exact step_attends hcounts (step_cases hstep) (mem_sleepers hr) (reachable_allows hr) hs

/-- Nobody sleeps for good where there is something to take. -/
theorem not_stranded {amount : D → Nat} (hcounts : O.Counts amount)
    (h : (O.system op).Reachable s) : ¬ Stranded amount s := by
  intro hstranded
  obtain ⟨hpos, hnotify, hwoken, i, hi⟩ := hstranded
  have hon := reachable_attends hcounts h ⟨i, SharedPc.sleeps_iff.mpr hi⟩
  obtain ⟨v, hv⟩ := hon.exists_of_pos (by omega)
  generalize hpc : s.calls v = pc at hv
  cases pc with
  | notify r => exact hnotify v r hpc
  | woken => exact hwoken v hpc
  | _ => exact hv

end SharedObject

/-! ## Monitors -/

/-- The operations of a monitor, as its callers see them. -/
def Monitor.object (M : Monitor Op D) : SharedObject Op D Unit where
  data := M.data
  body o d := (M.body o d).map fun d' => (d', ())
  expires _ := none
  notifies := M.notifies

theorem Monitor.acts_object {M : Monitor Op D} {d d' : D} {o : Op} {r : Unit} :
    M.object.Acts d o r d' ↔ M.body o d = some d' := by
  constructor
  · intro h
    rcases h with hbody | ⟨-, hr, -⟩
    · obtain ⟨d₁, hd₁, heq⟩ := Option.map_eq_some_iff.mp hbody
      rw [hd₁, (Prod.mk.inj heq).1]
    · cases hr
  · intro h
    left
    show (M.body o d).map _ = _
    rw [h]
    rfl

end VideoStream.Library
