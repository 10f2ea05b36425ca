import VideoStream.Library.CondVar
import VideoStream.Queue.JobHistory

/-!
# Who sleeps, and who will wake whom

The lists of the two condition variables hold the threads that stand in a `wait`, each of them once
(`reachable_sleepers`). A thread that is about to notify, and one that was woken and has not tested
its predicate yet, are on the way (`JobPc.wakes`): of such a thread the sleepers of that condition
variable may still expect something. The steps outside of the critical sections leave nobody
unattended (`quiet_attended`).
-/

namespace VideoStream

open Library

/-- The condition variables. -/
inductive JobCond where
  | cond
  | condSpace
  deriving DecidableEq

section Pc

variable {J : Type}

/-- The condition variable that the call waits on. -/
def JobCall.waitsOn : JobCall J → Option JobCond
  | .getJobsAndWait _ _ => some .cond
  | .emplace _ | .batchEmplace _ => some .condSpace
  | .clear | .stop => none

theorem JobCall.waitsOn_of_produces {c : JobCall J} (hc : c.produces = true) :
    c.waitsOn = some .condSpace := by
  cases c with
  | emplace _ | batchEmplace _ => rfl
  | _ => cases hc

/-- The condition variable that the thread sleeps on. -/
def JobPc.sleepsOn : JobPc J → Option JobCond
  | .wait c => c.waitsOn
  | _ => none

/-- The call that the thread is in. -/
def JobPc.call? : JobPc J → Option (JobCall J)
  | .lock c | .wait c | .woken c | .notify c => some c
  | _ => none

/-- The notification that comes next, and where the thread goes on. -/
def JobPc.notifies : JobPc J → Option (JobCond × JobPc J)
  | .notify (.getJobsAndWait _ _) | .notify .clear => some (.condSpace, .idle)
  | .notify (.emplace _) | .notify (.batchEmplace _) => some (.cond, .idle)
  | .notify .stop => some (.condSpace, .stopRun)
  | .stopCond => some (.cond, .stopCondSpace)
  | .stopCondSpace => some (.condSpace, .idle)
  | _ => none

/-- The thread is on the way: it will notify the condition variable before it does anything else, or
it was woken from it and has to test its predicate. -/
def JobPc.wakes : JobCond → JobPc J → Prop
  | k, .woken c => c.waitsOn = some k
  | k, .notify c => (JobPc.notify c).notifies.map Prod.fst = some k
  | _, .stopCond => True
  | k, .stopCondSpace => k = .condSpace
  | _, _ => False

instance (k : JobCond) : ∀ pc : JobPc J, Decidable (pc.wakes k)
  | .woken c => inferInstanceAs (Decidable (c.waitsOn = some k))
  | .notify c => inferInstanceAs (Decidable ((JobPc.notify c).notifies.map Prod.fst = some k))
  | .stopCondSpace => inferInstanceAs (Decidable (k = .condSpace))
  | .stopCond => isTrue trivial
  | .idle | .lock _ | .wait _ | .stopRun => isFalse not_false

theorem JobPc.not_wakes_of_sleepsOn {pc : JobPc J} {k k' : JobCond} (h : pc.sleepsOn = some k) :
    ¬ pc.wakes k' := by
  cases pc with
  | wait c => exact not_false
  | _ => cases h

theorem JobPc.eq_wait_of_sleepsOn {pc : JobPc J} {k : JobCond} (h : pc.sleepsOn = some k) :
    ∃ d, pc = .wait d ∧ d.waitsOn = some k := by
  cases pc with
  | wait d => exact ⟨d, rfl, h⟩
  | _ => cases h

theorem JobPc.sleepsOn_eq_none {pc : JobPc J} (h : ∀ c, pc ≠ .wait c) : pc.sleepsOn = none := by
  cases pc with
  | wait c => exact absurd rfl (h c)
  | _ => rfl

theorem JobPc.wakes_wake {pc : JobPc J} {k : JobCond} (h : pc.sleepsOn = some k) :
    pc.wake.wakes k := by
  cases pc with
  | wait c => exact h
  | _ => cases h

@[simp] theorem JobPc.sleepsOn_wake (pc : JobPc J) : pc.wake.sleepsOn = none := by
  cases pc <;> rfl

@[simp] theorem JobPc.call?_wake (pc : JobPc J) : pc.wake.call? = pc.call? := by
  cases pc <;> rfl

theorem JobPc.call?_of_notifies {pc pc' : JobPc J} {k : JobCond}
    (h : pc.notifies = some (k, pc')) : pc'.call? = none := by
  cases pc with
  | notify c => cases c <;> cases h <;> rfl
  | stopCond => cases h; rfl
  | stopCondSpace => cases h; rfl
  | _ => cases h

@[simp] theorem JobPc.wake_wake (pc : JobPc J) : pc.wake.wake = pc.wake := by
  cases pc <;> rfl

/-- A thread that notifies one condition variable stays on the way to the other, if it was. -/
theorem JobPc.wakes_of_notifies {pc pc' : JobPc J} {k k' : JobCond}
    (h : pc.notifies = some (k, pc')) (hk : k' ≠ k) (hwakes : pc.wakes k') : pc'.wakes k' := by
  cases pc with
  | notify c =>
      change (JobPc.notify c).notifies.map Prod.fst = some k' at hwakes
      rw [h] at hwakes
      cases hwakes
      exact absurd rfl hk
  | stopCond => cases h; cases k' <;> first | exact absurd rfl hk | rfl
  | stopCondSpace => cases h; exact absurd hwakes hk
  | _ => cases h

theorem JobPc.sleepsOn_of_notifies {pc pc' : JobPc J} {k : JobCond}
    (h : pc.notifies = some (k, pc')) : pc.sleepsOn = none ∧ ∀ c, pc' ≠ .wait c := by
  cases pc with
  | notify c => cases c <;> cases h <;> exact ⟨rfl, by simp⟩
  | stopCond => cases h; exact ⟨rfl, by simp⟩
  | stopCondSpace => cases h; exact ⟨rfl, by simp⟩
  | _ => cases h

end Pc

namespace JobQueue

variable {T J : Type}

/-- The threads that sleep on a condition variable. -/
def sleepers (s : JobQueue T J) : JobCond → List T
  | .cond => s.cond
  | .condSpace => s.condSpace

theorem sleepers_log (s : JobQueue T J) (e : JobEvent T J) (k : JobCond) :
    (s.log e).sleepers k = s.sleepers k := by
  cases k <;> rfl

theorem sleepers_goto [DecidableEq T] (s : JobQueue T J) (t : T) (pc : JobPc J) (k : JobCond) :
    (s.goto t pc).sleepers k = s.sleepers k := by
  cases k <;> rfl

variable [DecidableEq T] {s s' : JobQueue T J}

/-! ## The steps of one thread -/

theorem call_cases {t : T} {c : JobCall J} (h : s.call t c = some s') :
    s.threads t = .idle ∧ (c = .batchEmplace [] ∧ s' = s.log (.called t c) ∨
      c ≠ .batchEmplace [] ∧ s' = (s.log (.called t c)).goto t (.lock c)) := by
  unfold call at h
  split at h
  · next hp => cases h; exact ⟨hp, .inl ⟨rfl, rfl⟩⟩
  · next hp hne =>
      cases h
      exact ⟨hp, .inr ⟨hne, rfl⟩⟩
  · cases h

theorem enter_cases {t : T} {throws : Bool} (h : s.enter t throws = some s') :
    (∃ c, s.Entering t c ∧ (¬ s.Ready c ∧ s' = s.sleep t c ∨
      s.Ready c ∧ s' = s.critical t throws c)) ∨
    s.threads t = .stopRun ∧ s' = { s with run := false }.goto t .stopCond := by
  have htest {c : JobCall J} (hc : s.Entering t c)
      (h : (if s.Ready c then some (s.critical t throws c) else some (s.sleep t c)) = some s') :
      ∃ c, s.Entering t c ∧ (¬ s.Ready c ∧ s' = s.sleep t c ∨
        s.Ready c ∧ s' = s.critical t throws c) := by
    split at h
    · next hready => cases h; exact ⟨c, hc, .inr ⟨hready, rfl⟩⟩
    · next hready => cases h; exact ⟨c, hc, .inl ⟨hready, rfl⟩⟩
  unfold enter at h
  split at h
  · next c hp => exact .inl (htest (.inl hp) h)
  · next c hp => exact .inl (htest (.inr hp) h)
  · next hp => cases h; exact .inr ⟨hp, rfl⟩
  · cases h

theorem push_sleepers (s : JobQueue T J) (t : T) (c : JobCall J) (throws : Bool) (k : JobCond) :
    (s.push t c throws).sleepers k = s.sleepers k := by
  have hcheck (s : JobQueue T J) : s.checkQueueLength.sleepers k = s.sleepers k := by
    unfold checkQueueLength
    split
    · cases k <;> rfl
    · split <;> cases k <;> rfl
  have haccept := hcheck (s.accept t c)
  unfold push
  split
  · cases k <;> exact haccept
  · cases k <;> exact haccept

theorem enter_entering {t : T} {c : JobCall J} {throws : Bool} (hc : s.Entering t c)
    (h : s.step (.enter t throws) = some s') :
    s' = if s.Ready c then s.critical t throws c else s.sleep t c := by
  change s.enter t throws = some s' at h
  have hif : (if s.Ready c then some (s.critical t throws c) else some (s.sleep t c)) = some s' := by
    unfold enter at h
    rcases hc with hp | hp <;> rw [hp] at h <;> exact h
  split at hif
  · next hready => cases hif; rw [if_pos hready]
  · next hready => cases hif; rw [if_neg hready]

theorem enter_of_ready {t : T} {c : JobCall J} (hc : s.Entering t c) (hready : s.Ready c)
    (throws : Bool) : s.step (.enter t throws) = some (s.critical t throws c) := by
  show s.enter t throws = _
  unfold enter
  rcases hc with hp | hp <;> rw [hp] <;> exact if_pos hready

/-! ## The critical sections -/

theorem critical_producer {c : JobCall J} (hc : c.waitsOn = some .condSpace) (t : T)
    (throws : Bool) : s.critical t throws c = s.produce t c throws := by
  cases c with
  | emplace _ | batchEmplace _ => rfl
  | _ => cases hc

theorem critical_eq_push {c : JobCall J} (hopen : 0 < s.maxSize → s.run = true)
    (hc : c.waitsOn = some .condSpace) (t : T) (throws : Bool) :
    s.critical t throws c = s.push t c throws := by
  rw [critical_producer hc]
  unfold produce
  rw [if_neg fun hclosed => by simp [hopen hclosed.1] at hclosed]

/-- The step of a producer that finds its predicate true, and the queue open. -/
theorem enter_push {t : T} {c : JobCall J} {throws : Bool}
    (h : s.step (.enter t throws) = some s') (hc : s.Entering t c) (hready : s.Ready c)
    (hopen : 0 < s.maxSize → s.run = true) (hck : c.waitsOn = some .condSpace) :
    s' = s.push t c throws := by
  rw [enter_entering hc h, if_pos hready, critical_eq_push hopen hck]

theorem critical_eq_refused {c : JobCall J} (hmax : 0 < s.maxSize) (hrun : s.run = false)
    (hc : c.waitsOn = some .condSpace) (t : T) (throws : Bool) :
    s.critical t throws c = (s.log (.refused t c)).goto t .idle := by
  rw [critical_producer hc]
  unfold produce
  rw [if_pos ⟨hmax, hrun⟩]

/-- `get_jobs_and_wait` takes the front of an open queue. -/
theorem getJobs_eq (hrun : s.run = true) (t : T) (fetchJobs : List J) (n : Nat) :
    s.getJobsAndWait t fetchJobs n =
      ({ s with queue := s.queue.drop n }.log (.delivered t n (s.queue.take n))).goto t
        (if 0 < s.maxSize then .notify (.getJobsAndWait fetchJobs n) else .idle) := by
  unfold getJobsAndWait
  rw [if_pos hrun, fetchLoop_eq]
  rfl

theorem getJobs_eq_closed (hrun : s.run = false) (t : T) (fetchJobs : List J) (n : Nat) :
    s.getJobsAndWait t fetchJobs n = (s.log (.closed t fetchJobs)).goto t .idle := by
  unfold getJobsAndWait
  rw [hrun]
  rfl

/-- What a critical section does: the jobs are taken, or pushed, or removed, or the queue is closed
and the call returns. -/
theorem critical_elim {P : JobCall J → JobQueue T J → Prop} {t : T} {throws : Bool}
    (closed : ∀ fetchJobs n, s.run = false →
      P (.getJobsAndWait fetchJobs n) ((s.log (.closed t fetchJobs)).goto t .idle))
    (delivered : ∀ fetchJobs n, s.run = true → P (.getJobsAndWait fetchJobs n)
      (({ s with queue := s.queue.drop n }.log (.delivered t n (s.queue.take n))).goto t
        (if 0 < s.maxSize then .notify (.getJobsAndWait fetchJobs n) else .idle)))
    (refused : ∀ c, c.waitsOn = some .condSpace → 0 < s.maxSize → s.run = false →
      P c ((s.log (.refused t c)).goto t .idle))
    (accepted : ∀ c, c.waitsOn = some .condSpace → (0 < s.maxSize → s.run = true) →
      P c (s.push t c throws))
    (clear : P .clear (s.clear t)) (stop : P .stop (s.stop t)) (c : JobCall J) :
    P c (s.critical t throws c) := by
  have hproduce (hc : c.waitsOn = some .condSpace) : P c (s.critical t throws c) := by
    by_cases hclosed : 0 < s.maxSize ∧ s.run = false
    · rw [critical_eq_refused hclosed.1 hclosed.2 hc]
      exact refused c hc hclosed.1 hclosed.2
    · have hopen : 0 < s.maxSize → s.run = true := fun hmax => by
        simpa using fun hrun => hclosed ⟨hmax, hrun⟩
      rw [critical_eq_push hopen hc]
      exact accepted c hc hopen
  cases c with
  | getJobsAndWait fetchJobs n =>
      show P _ (s.getJobsAndWait t fetchJobs n)
      cases hrun : s.run with
      | false =>
          rw [getJobs_eq_closed hrun]
          exact closed fetchJobs n hrun
      | true =>
          rw [getJobs_eq hrun]
          exact delivered fetchJobs n hrun
  | emplace _ => exact hproduce rfl
  | batchEmplace _ => exact hproduce rfl
  | clear => exact clear
  | stop => exact stop

/-- A critical section moves its thread, to no `wait`, and leaves the sleepers alone. -/
theorem critical_threads (s : JobQueue T J) (t : T) (throws : Bool) (c : JobCall J) :
    (∃ pc, (s.critical t throws c).threads = Function.update s.threads t pc ∧
      (pc = .idle ∨ pc = .notify c ∨ pc = .stopRun)) ∧
    (s.critical t throws c).maxSize = s.maxSize ∧
    ∀ k, (s.critical t throws c).sleepers k = s.sleepers k := by
  refine critical_elim (P := fun c s' => (∃ pc, s'.threads = Function.update s.threads t pc ∧
    (pc = .idle ∨ pc = .notify c ∨ pc = .stopRun)) ∧ s'.maxSize = s.maxSize ∧
    ∀ k, s'.sleepers k = s.sleepers k) ?_ ?_ ?_ ?_ ?_ ?_ c
  · intro fetchJobs n _
    exact ⟨⟨.idle, rfl, .inl rfl⟩, rfl, fun k => by cases k <;> rfl⟩
  · intro fetchJobs n _
    refine ⟨⟨_, rfl, ?_⟩, rfl, fun k => by cases k <;> rfl⟩
    split
    · exact .inr (.inl rfl)
    · exact .inl rfl
  · intro c _ _ _
    exact ⟨⟨.idle, rfl, .inl rfl⟩, rfl, fun k => by cases k <;> rfl⟩
  · intro c _ _
    refine ⟨?_, (push_queue s t c throws).2, push_sleepers s t c throws⟩
    rcases push_threads s t c throws with hthreads | hthreads
    · exact ⟨.idle, hthreads, .inl rfl⟩
    · exact ⟨.notify c, hthreads, .inr (.inl rfl)⟩
  · refine ⟨⟨_, rfl, ?_⟩, rfl, fun k => by cases k <;> rfl⟩
    split
    · exact .inr (.inl rfl)
    · exact .inl rfl
  · refine ⟨⟨_, rfl, ?_⟩, rfl, fun k => by cases k <;> rfl⟩
    split
    · exact .inr (.inl rfl)
    · exact .inr (.inr rfl)

/-! ## The notifications -/

theorem notifyAll_threads (s : JobQueue T J) (l : List T) (u : T) :
    (s.notifyAll l).threads u = if u ∈ l then (s.threads u).wake else s.threads u := by
  induction l generalizing s with
  | nil => rw [if_neg List.not_mem_nil]; rfl
  | cons t l ih =>
      show ((s.wake t).notifyAll l).threads u = _
      rw [ih]
      show (if u ∈ l then (Function.update s.threads t (s.threads t).wake u).wake
        else Function.update s.threads t (s.threads t).wake u) = _
      by_cases hut : u = t
      · subst hut
        simp
      · simp [hut]

/-- A notification: the thread goes on, and of the sleepers of one condition variable those in `l`
are woken; nobody only if nobody sleeps there. -/
theorem notify_cases {t : T} {woken : Option T} (h : s.notify t woken = some s') :
    ∃ k pc l s₀, (s.threads t).notifies = some (k, pc) ∧ (∀ u ∈ l, u ∈ s.sleepers k) ∧
      (l = [] → s.sleepers k = []) ∧
      (s₀ = s ∨ s.threads t = .stopCondSpace ∧ s₀ = s.log (.stopped t)) ∧
      s' = (s₀.goto t pc).notifyAll l := by
  have hone {k : JobCond} {pc : JobPc J} (hpc : (s.threads t).notifies = some (k, pc))
      (h : (s.goto t pc).notifyOne (s.sleepers k) woken = some s') :
      ∃ k pc l s₀, (s.threads t).notifies = some (k, pc) ∧ (∀ u ∈ l, u ∈ s.sleepers k) ∧
        (l = [] → s.sleepers k = []) ∧
        (s₀ = s ∨ s.threads t = .stopCondSpace ∧ s₀ = s.log (.stopped t)) ∧
        s' = (s₀.goto t pc).notifyAll l := by
    rcases notifyOne_cases h with ⟨-, hnone, rfl⟩ | ⟨u, hu, -, rfl⟩
    · exact ⟨k, pc, [], s, hpc, by simp, fun _ => hnone, .inl rfl, rfl⟩
    · exact ⟨k, pc, [u], s, hpc, by simpa using hu, by simp, .inl rfl, rfl⟩
  unfold notify at h
  split at h
  · next hp => exact hone (k := .condSpace) (by rw [hp]; rfl) h
  · next hp => exact hone (k := .cond) (by rw [hp]; rfl) h
  · next hp => exact hone (k := .cond) (by rw [hp]; rfl) h
  · next hp =>
      cases h
      exact ⟨.condSpace, _, s.condSpace, s, by rw [hp]; rfl, fun _ hu => hu, id, .inl rfl, rfl⟩
  · next hp =>
      cases h
      exact ⟨.condSpace, _, s.condSpace, s, by rw [hp]; rfl, fun _ hu => hu, id, .inl rfl, rfl⟩
  · next hp =>
      cases h
      exact ⟨.cond, _, s.cond, s, by rw [hp]; rfl, fun _ hu => hu, id, .inl rfl, rfl⟩
  · next hp =>
      cases h
      exact ⟨.condSpace, _, s.condSpace, _, by rw [hp]; rfl, fun _ hu => hu, id, .inr ⟨hp, rfl⟩, rfl⟩
  · cases h

/-! ## The lists of the sleepers -/

/-- The lists hold the threads that stand in a `wait`. In an unlimited queue no producer waits. -/
structure Sleepers (s : JobQueue T J) : Prop where
  mem : ∀ k t, t ∈ s.sleepers k ↔ (s.threads t).sleepsOn = some k
  nodup : ∀ k, (s.sleepers k).Nodup
  waits : ∀ t c, s.threads t = .wait c → c.waitsOn ≠ none
  bounded : s.condSpace ≠ [] → 0 < s.maxSize

/-- A thread moves that is in no `wait`, neither before nor after. -/
theorem Sleepers.moved (hs : s.Sleepers) {t : T} {pc : JobPc J}
    (hthreads : s'.threads = Function.update s.threads t pc)
    (hsleepers : ∀ k, s'.sleepers k = s.sleepers k) (hmax : s'.maxSize = s.maxSize)
    (ht : (s.threads t).sleepsOn = none) (hpc : ∀ c, pc ≠ .wait c) : s'.Sleepers := by
  have hnone := JobPc.sleepsOn_eq_none hpc
  refine ⟨fun k u => ?_, fun k => ?_, fun u c hu => ?_, ?_⟩
  · rw [hsleepers, hs.mem, hthreads, Function.update_apply]
    split
    · next hut => rw [hut, ht, hnone]
    · rfl
  · rw [hsleepers]
    exact hs.nodup k
  · rw [hthreads, Function.update_apply] at hu
    split at hu
    · exact absurd hu (hpc c)
    · exact hs.waits u c hu
  · have hspace : s'.condSpace = s.condSpace := hsleepers .condSpace
    rw [hspace, hmax]
    exact hs.bounded

theorem Sleepers.wake (hs : s.Sleepers) (t : T) : (s.wake t).Sleepers := by
  have herase (k : JobCond) : (s.wake t).sleepers k = (s.sleepers k).erase t := by
    cases k <;> rfl
  refine ⟨fun k u => ?_, fun k => ?_, fun u c hu => ?_, fun hne => ?_⟩
  · rw [herase, (hs.nodup k).mem_erase_iff, hs.mem]
    show _ ↔ (Function.update s.threads t (s.threads t).wake u).sleepsOn = some k
    rw [Function.update_apply]
    split
    · next hut => simp [hut]
    · next hut => simp [hut]
  · rw [herase]
    exact (hs.nodup k).erase t
  · have hu : Function.update s.threads t (s.threads t).wake u = .wait c := hu
    rw [Function.update_apply] at hu
    split at hu
    · cases hpc : s.threads t <;> rw [hpc] at hu <;> cases hu
    · exact hs.waits u c hu
  · apply hs.bounded
    intro hnil
    apply hne
    show s.condSpace.erase t = []
    rw [hnil, List.erase_nil]

theorem Sleepers.notifyAll (hs : s.Sleepers) (l : List T) : (s.notifyAll l).Sleepers := by
  induction l generalizing s with
  | nil => exact hs
  | cons t l ih => exact ih (hs.wake t)

omit [DecidableEq T] in
theorem Entering.sleepsOn {t : T} {c : JobCall J} (hc : s.Entering t c) :
    (s.threads t).sleepsOn = none := by
  rcases hc with hp | hp <;> rw [hp] <;> rfl

theorem Sleepers.sleep (hs : s.Sleepers) {t : T} {c : JobCall J} (hc : s.Entering t c)
    (hready : ¬ s.Ready c) : (s.sleep t c).Sleepers := by
  -- only calls with a `wait` can find their predicate false
  obtain ⟨k, hk⟩ : ∃ k, c.waitsOn = some k := by
    cases c with
    | getJobsAndWait _ _ => exact ⟨.cond, rfl⟩
    | emplace _ => exact ⟨.condSpace, rfl⟩
    | batchEmplace _ => exact ⟨.condSpace, rfl⟩
    | clear => exact absurd trivial hready
    | stop => exact absurd trivial hready
  have hcons (k' : JobCond) :
      (s.sleep t c).sleepers k' = if k' = k then t :: s.sleepers k' else s.sleepers k' := by
    cases c <;> cases hk <;> cases k' <;> rfl
  have ht (k' : JobCond) : t ∉ s.sleepers k' := by
    rw [hs.mem, hc.sleepsOn]
    simp
  refine ⟨fun k' u => ?_, fun k' => ?_, fun u c' hu => ?_, fun hne => ?_⟩
  · rw [sleep_threads, Function.update_apply, hcons]
    by_cases hut : u = t
    · subst hut
      rw [if_pos rfl]
      show _ ↔ c.waitsOn = some k'
      rw [hk]
      split
      · next hk' => simp [hk']
      · next hk' => simp [ht, Ne.symm hk']
    · rw [if_neg hut, ← hs.mem]
      split
      · simp [hut]
      · rfl
  · rw [hcons]
    split
    · exact List.nodup_cons.mpr ⟨ht k', hs.nodup k'⟩
    · exact hs.nodup k'
  · rw [sleep_threads, Function.update_apply] at hu
    split at hu
    · cases hu
      rw [hk]
      simp
    · exact hs.waits u c' hu
  · rw [(sameQueue_sleep s t c).maxSize]
    cases c with
    | getJobsAndWait _ _ => exact hs.bounded hne
    | emplace _ => exact Nat.pos_of_ne_zero fun h0 => hready fun hpos => absurd hpos (by omega)
    | batchEmplace _ => exact Nat.pos_of_ne_zero fun h0 => hready fun hpos => absurd hpos (by omega)
    | clear => exact absurd trivial hready
    | stop => exact absurd trivial hready

theorem step_sleepers {a : JobAct T J} (h : s.step a = some s') (hs : s.Sleepers) :
    s'.Sleepers := by
  cases a with
  | call t c =>
      obtain ⟨hp, ⟨-, rfl⟩ | ⟨-, rfl⟩⟩ := call_cases h
      · have hidle : s.threads = Function.update s.threads t .idle := by
          rw [← hp, Function.update_eq_self]
        exact hs.moved hidle (sleepers_log s _) rfl (by rw [hp]; rfl) (by simp)
      · exact hs.moved rfl (fun k => by rw [sleepers_goto, sleepers_log]) rfl (by rw [hp]; rfl)
          (by simp)
  | enter t throws =>
      rcases enter_cases h with ⟨c, hc, ⟨hready, rfl⟩ | ⟨-, rfl⟩⟩ | ⟨hp, rfl⟩
      · exact hs.sleep hc hready
      · obtain ⟨⟨pc, hthreads, hpc⟩, hmax, hsleepers⟩ := critical_threads s t throws c
        refine hs.moved hthreads hsleepers hmax hc.sleepsOn fun c' hc' => ?_
        rcases hpc with rfl | rfl | rfl <;> cases hc'
      · exact hs.moved rfl (fun k => by cases k <;> rfl) rfl (by rw [hp]; rfl) (by simp)
  | notify t woken =>
      obtain ⟨k, pc, l, s₀, hpc, -, -, hs₀, rfl⟩ := notify_cases h
      obtain ⟨ht, hwait⟩ := JobPc.sleepsOn_of_notifies hpc
      refine Sleepers.notifyAll ?_ l
      rcases hs₀ with rfl | ⟨-, rfl⟩
      · exact hs.moved rfl (sleepers_goto _ t pc) rfl ht hwait
      · exact hs.moved rfl (fun k => by rw [sleepers_goto, sleepers_log]) rfl ht hwait
  | wakeUp t =>
      obtain ⟨-, -, rfl⟩ := wakeUp_cases h
      exact hs.wake t

theorem reachable_sleepers (h : threadSafeJobQueue.Reachable s) : s.Sleepers := by
  apply h.invariant
  · rintro s ⟨maxSize, warnSize, warnCallback, clearCallback, hs⟩
    unfold construct at hs
    split at hs
    · cases hs
    · cases hs
      exact ⟨fun k t => by cases k <;> simp [sleepers, JobPc.sleepsOn],
        fun k => by cases k <;> exact List.nodup_nil, by simp, by simp⟩
  · intro s s' a _ hs _ hstep
    exact step_sleepers hstep hs

/-! ## Outside of the critical sections -/

theorem quiet_same {a : JobAct T J} (ha : ∀ t throws, a ≠ .enter t throws)
    (h : s.step a = some s') :
    s'.run = s.run ∧ s'.queue = s.queue ∧ s'.maxSize = s.maxSize := by
  cases a with
  | call t c =>
      obtain ⟨-, ⟨-, rfl⟩ | ⟨-, rfl⟩⟩ := call_cases h
      · exact ⟨rfl, rfl, rfl⟩
      · exact ⟨rfl, rfl, rfl⟩
  | enter t throws => exact absurd rfl (ha t throws)
  | notify t woken =>
      obtain ⟨k, pc, l, s₀, -, -, -, hs₀, rfl⟩ := notify_cases h
      have hq := sameQueue_notifyAll (s₀.goto t pc) l
      rcases hs₀ with rfl | ⟨-, rfl⟩ <;> exact ⟨hq.run, hq.queue, hq.maxSize⟩
  | wakeUp t =>
      obtain ⟨-, -, rfl⟩ := wakeUp_cases h
      exact ⟨rfl, rfl, rfl⟩

theorem step_maxSize {a : JobAct T J} (h : s.step a = some s') : s'.maxSize = s.maxSize := by
  cases a with
  | enter t throws =>
      rcases enter_cases h with ⟨c, hc, ⟨hready, rfl⟩ | ⟨-, rfl⟩⟩ | ⟨hp, rfl⟩
      · exact (sameQueue_sleep s t c).maxSize
      · exact (critical_threads s t throws c).2.1
      · rfl
  | call _ _ | notify _ _ | wakeUp _ => exact (quiet_same (by simp) h).2.2

/-! ## The calls in progress -/

omit [DecidableEq T] in
theorem Entering.call? {t : T} {c : JobCall J} (hc : s.Entering t c) :
    (s.threads t).call? = some c := by
  rcases hc with hp | hp <;> rw [hp] <;> rfl

omit [DecidableEq T] in
theorem Entering.unique {t : T} {c c' : JobCall J} (hc : s.Entering t c) (hc' : s.Entering t c') :
    c' = c :=
  Option.some.inj (hc'.call?.symm.trans hc.call?)

theorem step_call? {a : JobAct T J} (h : s.step a = some s') {u : T} {c : JobCall J}
    (hu : (s'.threads u).call? = some c) :
    (s.threads u).call? = some c ∨ a = .call u c ∧ c ≠ .batchEmplace [] := by
  have hupdate {t : T} {pc : JobPc J} (hpc : ∀ d, pc.call? = some d → (s.threads t).call? = some d)
      (hu : (Function.update s.threads t pc u).call? = some c) : (s.threads u).call? = some c :=
    (Function.forall_update_iff s.threads fun u pc =>
      pc.call? = some c → (s.threads u).call? = some c).mpr ⟨hpc c, fun _ _ => id⟩ u hu
  cases a with
  | call t d =>
      obtain ⟨-, ⟨-, rfl⟩ | ⟨hd, rfl⟩⟩ := call_cases h
      · exact .inl hu
      · have hu : (Function.update s.threads t (.lock d) u).call? = some c := hu
        by_cases hut : u = t
        · subst hut
          rw [Function.update_self] at hu
          cases hu
          exact .inr ⟨rfl, hd⟩
        · rw [Function.update_of_ne hut] at hu
          exact .inl hu
  | enter t throws =>
      left
      rcases enter_cases h with ⟨d, hd, ⟨-, rfl⟩ | ⟨-, rfl⟩⟩ | ⟨hp, rfl⟩
      · rw [sleep_threads] at hu
        exact hupdate (fun d' hd' => hd' ▸ hd.call?) hu
      · obtain ⟨⟨pc, hthreads, hpc⟩, -⟩ := critical_threads s t throws d
        rw [hthreads] at hu
        refine hupdate (fun d' hd' => ?_) hu
        rcases hpc with rfl | rfl | rfl
        · cases hd'
        · exact hd' ▸ hd.call?
        · cases hd'
      · exact hupdate (fun d' hd' => by cases hd') hu
  | notify t woken =>
      left
      obtain ⟨k, pc, l, s₀, hpc, -, -, hs₀, rfl⟩ := notify_cases h
      have hthreads₀ : s₀.threads = s.threads := by rcases hs₀ with rfl | ⟨-, rfl⟩ <;> rfl
      rw [notifyAll_threads, goto_threads, hthreads₀] at hu
      have hgoto : (Function.update s.threads t pc u).call? = some c := by
        split at hu
        · rwa [JobPc.call?_wake] at hu
        · exact hu
      refine hupdate (fun d hd => ?_) hgoto
      rw [JobPc.call?_of_notifies hpc] at hd
      cases hd
  | wakeUp t =>
      left
      obtain ⟨-, -, rfl⟩ := wakeUp_cases h
      exact hupdate (fun d hd => by rwa [JobPc.call?_wake] at hd) hu

/-! ## Who is on the way -/

section Attended

variable {R : JobPc J → Prop} {k : JobCond}

theorem sleepsOn_update {t u : T} {pc : JobPc J} (hpc : ∀ c, pc ≠ .wait c)
    (h : (Function.update s.threads t pc u).sleepsOn = some k) :
    u ≠ t ∧ (s.threads u).sleepsOn = some k := by
  by_cases hut : u = t
  · subst hut
    rw [Function.update_self] at h
    rw [JobPc.sleepsOn_eq_none hpc] at h
    cases h
  · rw [Function.update_of_ne hut] at h
    exact ⟨hut, h⟩

/-- A notification on `k'` either wakes somebody, or nobody sleeps there; for the others nothing
changes. -/
theorem notify_attended (hs : s.Sleepers) (hR : ∀ pc, R pc → pc.sleepsOn = some k) {t : T}
    {pc : JobPc J} {k' : JobCond} {l : List T} (hpc : (s.threads t).notifies = some (k', pc))
    (hl : ∀ u ∈ l, u ∈ s.sleepers k') (hnil : l = [] → s.sleepers k' = [])
    (hthreads : ∀ u, s'.threads u = if u ∈ l then (Function.update s.threads t pc u).wake
      else Function.update s.threads t pc u)
    (hcov : Attended R (JobPc.wakes k) s.threads) : Attended R (JobPc.wakes k) s'.threads := by
  obtain ⟨ht, hwait⟩ := JobPc.sleepsOn_of_notifies hpc
  have hasleep {u : T} (hu : u ∈ l) : u ≠ t ∧ (s.threads u).sleepsOn = some k' := by
    have hsleeps := (hs.mem k' u).mp (hl u hu)
    refine ⟨?_, hsleeps⟩
    rintro rfl
    rw [ht] at hsleeps
    cases hsleeps
  have hrests {u : T} (hu : R (s'.threads u)) : u ∉ l ∧ u ≠ t ∧ R (s.threads u) := by
    have hsleeps := hR _ hu
    rw [hthreads] at hu hsleeps
    split at hsleeps
    · rw [JobPc.sleepsOn_wake] at hsleeps
      cases hsleeps
    · next hul =>
        obtain ⟨hut, -⟩ := sleepsOn_update hwait hsleeps
        rw [if_neg hul, Function.update_of_ne hut] at hu
        exact ⟨hul, hut, hu⟩
  by_cases hk : k' = k
  · subst hk
    cases l with
    | nil =>
        refine .of_none fun u hu => ?_
        obtain ⟨-, -, hold⟩ := hrests hu
        have hmem := (hs.mem k' u).mpr (hR _ hold)
        rw [hnil rfl] at hmem
        cases hmem
    | cons u l =>
        obtain ⟨hut, hsleeps⟩ := hasleep List.mem_cons_self
        refine .of_waker (t := u) ?_
        rw [hthreads, if_pos List.mem_cons_self, Function.update_of_ne hut]
        exact JobPc.wakes_wake hsleeps
  · refine hcov.mono (fun u hu => (hrests hu).2.2) fun v hv => ?_
    rw [hthreads]
    by_cases hvl : v ∈ l
    · exact absurd hv (JobPc.not_wakes_of_sleepsOn (hasleep hvl).2)
    · rw [if_neg hvl]
      by_cases hvt : v = t
      · subst hvt
        rw [Function.update_self]
        exact JobPc.wakes_of_notifies hpc (Ne.symm hk) hv
      · rwa [Function.update_of_ne hvt]

/-- The steps outside of the critical sections leave no thread unattended that rests on `k`. -/
theorem quiet_attended (hs : s.Sleepers) (hR : ∀ pc, R pc → pc.sleepsOn = some k) {a : JobAct T J}
    (ha : ∀ t throws, a ≠ .enter t throws) (h : s.step a = some s')
    (hcov : Attended R (JobPc.wakes k) s.threads) : Attended R (JobPc.wakes k) s'.threads := by
  cases a with
  | call t c =>
      obtain ⟨hp, ⟨-, rfl⟩ | ⟨-, rfl⟩⟩ := call_cases h
      · exact hcov
      · refine hcov.update (fun hlock => ?_) (fun _ hpc => hpc) ?_
        · cases hR _ hlock
        · rw [hp]
          exact False.elim
  | enter t throws => exact absurd rfl (ha t throws)
  | notify t woken =>
      obtain ⟨k', pc, l, s₀, hpc, hl, hnil, hs₀, rfl⟩ := notify_cases h
      refine notify_attended hs hR hpc hl hnil (fun u => ?_) hcov
      rw [notifyAll_threads, goto_threads]
      rcases hs₀ with rfl | ⟨-, rfl⟩ <;> rfl
  | wakeUp t =>
      obtain ⟨c, hp, rfl⟩ := wakeUp_cases h
      refine hcov.update (fun hwake => ?_) (fun _ hpc => hpc) ?_
      · have hsleeps := hR _ hwake
        rw [JobPc.sleepsOn_wake] at hsleeps
        cases hsleeps
      · rw [hp]
        exact False.elim

end Attended

end JobQueue

end VideoStream
