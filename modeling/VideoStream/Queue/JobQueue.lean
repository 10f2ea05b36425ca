import Mathlib.Logic.Function.Basic
import VideoStream.Library.System

/-!
# `ThreadSafeJobQueue`

The queue, its flags and its callbacks are touched only while `mutex_` is held, so what a thread does
from taking the mutex to releasing it, or to going to sleep in a `wait`, is one step (`enter`). The
loops in there are recursive functions. Beginning a call is a step, and so is each `notify`, which
comes after the mutex was released.

Modelling choices.

* A condition variable is the list of the threads that sleep on it. `notify_one` wakes any one of
  them, and none only if there is none; `wakeUp` is a spurious wake-up. A thread that was woken takes
  the mutex and tests its predicate again.
* `T` is the type of the threads. Each of them makes its calls one after the other.
* A job is moved or copied into the queue; the two overloads of `emplace` do the same there.
* Of the callbacks it matters whether they are installed, and whether the warn callback throws. The
  clear callback returns.
* `trace` is the history, oldest first. Nothing reads it.
-/

namespace VideoStream

open Library

/-- The member functions, with their arguments; `fetchJobs` is what the vector of the caller holds. -/
inductive JobCall (J : Type) where
  | getJobsAndWait (fetchJobs : List J) (maxSize : Nat)
  | emplace (job : J)
  | batchEmplace (jobs : List J)
  | clear
  | stop
  deriving DecidableEq

/-- The jobs that a call brings. -/
def JobCall.jobs {J : Type} : JobCall J → List J
  | .emplace job => [job]
  | .batchEmplace jobs => jobs
  | _ => []

/-- Where a thread stands. `lock` and `woken` are before the mutex, `notify` is behind it; the last
three are in `stop`, behind its `clear`. -/
inductive JobPc (J : Type) where
  | idle
  | lock (c : JobCall J)
  | wait (c : JobCall J)
  | woken (c : JobCall J)
  | notify (c : JobCall J)
  | stopRun
  | stopCond
  | stopCondSpace
  deriving DecidableEq

inductive JobEvent (T J : Type) where
  | called (t : T) (c : JobCall J)
  /-- the jobs of the call were pushed -/
  | accepted (t : T) (c : JobCall J)
  /-- the early return on `!run_` -/
  | refused (t : T) (c : JobCall J)
  /-- `get_jobs_and_wait` has filled the vector of its caller, and returns true -/
  | delivered (t : T) (maxSize : Nat) (fetchJobs : List J)
  /-- `get_jobs_and_wait` returns false; the vector of its caller -/
  | closed (t : T) (fetchJobs : List J)
  | warnCallback (size : Nat)
  /-- the exception of the warn callback leaves the call -/
  | threw (t : T)
  | clearCallback (job : J)
  /-- `clear` pops the job -/
  | cleared (job : J)
  /-- `stop` returns -/
  | stopped (t : T)
  deriving DecidableEq

/-- The state of a queue, with the field names of the source. `warnCallback` and `clearCallback` say
whether one is installed, `cond` and `condSpace` who sleeps there. -/
structure JobQueue (T J : Type) where
  maxSize : Nat
  warnSize : Nat
  warnCallback : Bool
  clearCallback : Bool
  run : Bool
  queue : List J
  warnTriggered : Bool
  cond : List T
  condSpace : List T
  threads : T → JobPc J
  trace : List (JobEvent T J)

/-- The steps of the threads. `throws`: what the warn callback does if it is called in this step;
`woken`: whom `notify_one` wakes. -/
inductive JobAct (T J : Type) where
  | call (t : T) (c : JobCall J)
  | enter (t : T) (throws : Bool)
  | notify (t : T) (woken : Option T)
  | wakeUp (t : T)
  deriving DecidableEq

/-! ## The loops -/

section Loops

variable {J : Type}

/-- The loop of `get_jobs_and_wait`, on the queue and on the vector. -/
def fetchLoop (maxSize : Nat) : List J → List J → List J × List J
  | [], fetchJobs => ([], fetchJobs)
  | job :: queue, fetchJobs =>
      if fetchJobs.length < maxSize then fetchLoop maxSize queue (fetchJobs ++ [job])
      else (job :: queue, fetchJobs)

/-- The loop of `batch_emplace`. -/
def pushLoop : List J → List J → List J
  | queue, [] => queue
  | queue, job :: jobs => pushLoop (queue ++ [job]) jobs

/-- The loop of `clear`, on the queue and on the history. -/
def clearLoop {T : Type} (clearCallback : Bool) :
    List J → List (JobEvent T J) → List (JobEvent T J)
  | [], trace => trace
  | job :: queue, trace =>
      if clearCallback then clearLoop clearCallback queue (trace ++ [.clearCallback job, .cleared job])
      else clearLoop clearCallback queue (trace ++ [.cleared job])

theorem fetchLoop_eq (n : Nat) (queue fetchJobs : List J) :
    fetchLoop n queue fetchJobs =
      (queue.drop (n - fetchJobs.length), fetchJobs ++ queue.take (n - fetchJobs.length)) := by
  induction queue generalizing fetchJobs with
  | nil => simp [fetchLoop]
  | cons job queue ih =>
      rw [fetchLoop]
      split
      · next hlt =>
          obtain ⟨d, hd⟩ := Nat.exists_eq_add_of_lt hlt
          rw [ih]
          simp [show n - fetchJobs.length = d + 1 by omega, show n - (fetchJobs.length + 1) = d by omega]
      · next hge => simp [Nat.sub_eq_zero_of_le (Nat.le_of_not_lt hge)]

theorem pushLoop_eq (queue jobs : List J) : pushLoop queue jobs = queue ++ jobs := by
  induction jobs generalizing queue with
  | nil => rw [pushLoop, List.append_nil]
  | cons job jobs ih => rw [pushLoop, ih, List.append_assoc, List.singleton_append]

/-- What `clear` logs of a job. -/
def clearedEvents {T : Type} (clearCallback : Bool) (job : J) : List (JobEvent T J) :=
  if clearCallback then [.clearCallback job, .cleared job] else [.cleared job]

theorem clearLoop_eq {T : Type} (b : Bool) (queue : List J) (trace : List (JobEvent T J)) :
    clearLoop b queue trace = trace ++ queue.flatMap (clearedEvents b) := by
  induction queue generalizing trace with
  | nil => simp [clearLoop]
  | cons job queue ih =>
      rw [clearLoop, ih, ih, List.flatMap_cons, clearedEvents]
      cases b <;> simp

end Loops

/-! ## The critical sections -/

namespace JobQueue

variable {T J : Type} [DecidableEq T]

/-- The thread `t` goes on at `pc`. -/
def goto (s : JobQueue T J) (t : T) (pc : JobPc J) : JobQueue T J :=
  { s with threads := Function.update s.threads t pc }

def log (s : JobQueue T J) (e : JobEvent T J) : JobQueue T J :=
  { s with trace := s.trace ++ [e] }

@[simp] theorem goto_trace (s : JobQueue T J) (t : T) (pc : JobPc J) :
    (s.goto t pc).trace = s.trace := rfl

@[simp] theorem goto_threads (s : JobQueue T J) (t : T) (pc : JobPc J) :
    (s.goto t pc).threads = Function.update s.threads t pc := rfl

/-- The constructor. The sizes are unsigned, so that only its second test can throw. -/
def construct (maxSize warnSize : Nat) (warnCallback clearCallback : Bool) :
    Except String (JobQueue T J) :=
  if warnSize > maxSize ∧ maxSize > 0 then throw "warn_size cannot exceed max_size"
  else
    pure
      { maxSize := maxSize
        warnSize := warnSize
        warnCallback := warnCallback
        clearCallback := clearCallback
        run := true
        queue := []
        warnTriggered := false
        cond := []
        condSpace := []
        threads := fun _ => .idle
        trace := [] }

/-- The predicate of the `wait` of a call; where there is no `wait`, it is true. -/
def Ready (s : JobQueue T J) : JobCall J → Prop
  | .getJobsAndWait _ _ => s.run = false ∨ s.queue ≠ []
  | .emplace _ => 0 < s.maxSize → s.run = false ∨ s.queue.length < s.maxSize
  | .batchEmplace jobs => 0 < s.maxSize → s.run = false ∨ s.queue.length + jobs.length ≤ s.maxSize
  | .clear | .stop => True

instance (s : JobQueue T J) : ∀ c, Decidable (s.Ready c)
  | .getJobsAndWait _ _ => inferInstanceAs (Decidable (_ ∨ _))
  | .emplace _ | .batchEmplace _ => inferInstanceAs (Decidable (_ → _ ∨ _))
  | .clear | .stop => isTrue trivial

/-- `cond_.wait` or `cond_space_.wait` puts the thread to sleep. -/
def sleep (s : JobQueue T J) (t : T) (c : JobCall J) : JobQueue T J :=
  match c with
  | .getJobsAndWait _ _ => { s with cond := t :: s.cond }.goto t (.wait c)
  | _ => { s with condSpace := t :: s.condSpace }.goto t (.wait c)

/-- The test of `check_queue_length` for calling the callback. -/
def Warns (s : JobQueue T J) : Prop :=
  (s.warnCallback = true ∧ 0 < s.warnSize) ∧ s.warnSize ≤ s.queue.length ∧ s.warnTriggered = false

instance (s : JobQueue T J) : Decidable s.Warns := inferInstanceAs (Decidable ((_ ∧ _) ∧ _ ∧ _))

def checkQueueLength (s : JobQueue T J) : JobQueue T J :=
  if s.Warns then { s with warnTriggered := true }.log (.warnCallback s.queue.length)
  else if s.queue.length < s.warnSize then { s with warnTriggered := false }
  else s

/-- `get_jobs_and_wait`, behind its `wait`. -/
def getJobsAndWait (s : JobQueue T J) (t : T) (fetchJobs : List J) (maxSize : Nat) :
    JobQueue T J :=
  if s.run then
    let (queue, jobs) := fetchLoop maxSize s.queue []
    ({ s with queue := queue }.log (.delivered t maxSize jobs)).goto t
      (if 0 < s.maxSize then .notify (.getJobsAndWait fetchJobs maxSize) else .idle)
  else (s.log (.closed t fetchJobs)).goto t .idle

/-- The jobs of the call are pushed. -/
def accept (s : JobQueue T J) (t : T) (c : JobCall J) : JobQueue T J :=
  { s with queue := pushLoop s.queue c.jobs }.log (.accepted t c)

/-- The push of the jobs, and `check_queue_length`. If the callback throws, the mutex is released and
nobody is notified. -/
def push (s : JobQueue T J) (t : T) (c : JobCall J) (throws : Bool) : JobQueue T J :=
  if (s.accept t c).Warns ∧ throws = true then
    ((s.accept t c).checkQueueLength.log (.threw t)).goto t .idle
  else (s.accept t c).checkQueueLength.goto t (.notify c)

/-- `emplace` and `batch_emplace`, behind their `wait`. -/
def produce (s : JobQueue T J) (t : T) (c : JobCall J) (throws : Bool) : JobQueue T J :=
  if 0 < s.maxSize ∧ s.run = false then (s.log (.refused t c)).goto t .idle
  else s.push t c throws

def emplace (s : JobQueue T J) (t : T) (job : J) (throws : Bool) : JobQueue T J :=
  s.produce t (.emplace job) throws

def batchEmplace (s : JobQueue T J) (t : T) (jobs : List J) (throws : Bool) : JobQueue T J :=
  s.produce t (.batchEmplace jobs) throws

/-- The critical section of `clear`. -/
def clearQueue (s : JobQueue T J) : JobQueue T J :=
  { s with queue := [], trace := clearLoop s.clearCallback s.queue s.trace }

def clear (s : JobQueue T J) (t : T) : JobQueue T J :=
  s.clearQueue.goto t (if 0 < s.maxSize then .notify .clear else .idle)

/-- `stop`, up to the end of its `clear`, or to the broadcast of it. -/
def stop (s : JobQueue T J) (t : T) : JobQueue T J :=
  s.clearQueue.goto t (if 0 < s.maxSize then .notify .stop else .stopRun)

/-- The thread holds the mutex, and the predicate of its `wait` is true. -/
def critical (s : JobQueue T J) (t : T) (throws : Bool) : JobCall J → JobQueue T J
  | .getJobsAndWait fetchJobs maxSize => s.getJobsAndWait t fetchJobs maxSize
  | .emplace job => s.emplace t job throws
  | .batchEmplace jobs => s.batchEmplace t jobs throws
  | .clear => s.clear t
  | .stop => s.stop t

/-- The thread takes the mutex. -/
def enter (s : JobQueue T J) (t : T) (throws : Bool) : Option (JobQueue T J) :=
  match s.threads t with
  | .lock c | .woken c => if s.Ready c then some (s.critical t throws c) else some (s.sleep t c)
  | .stopRun => some ({ s with run := false }.goto t .stopCond)
  | _ => none

/-! ## The notifications -/

end JobQueue

/-- A thread that sleeps is woken. -/
def JobPc.wake {J : Type} : JobPc J → JobPc J
  | .wait c => .woken c
  | pc => pc

namespace JobQueue

variable {T J : Type} [DecidableEq T]

/-- The thread `t` is woken. -/
def wake (s : JobQueue T J) (t : T) : JobQueue T J :=
  { s with cond := s.cond.erase t, condSpace := s.condSpace.erase t }.goto t (s.threads t).wake

/-- `notify_one` on a condition variable on which `sleepers` sleep. -/
def notifyOne (s : JobQueue T J) (sleepers : List T) : Option T → Option (JobQueue T J)
  | none => if sleepers = [] then some s else none
  | some u => if u ∈ sleepers then some (s.wake u) else none

/-- `notify_all` on a condition variable on which `sleepers` sleep. -/
def notifyAll (s : JobQueue T J) (sleepers : List T) : JobQueue T J := sleepers.foldl wake s

/-- The thread notifies, and goes on. -/
def notify (s : JobQueue T J) (t : T) (woken : Option T) : Option (JobQueue T J) :=
  match s.threads t with
  | .notify (.getJobsAndWait _ _) => (s.goto t .idle).notifyOne s.condSpace woken
  | .notify (.emplace _) | .notify (.batchEmplace _) => (s.goto t .idle).notifyOne s.cond woken
  | .notify .clear => some ((s.goto t .idle).notifyAll s.condSpace)
  | .notify .stop => some ((s.goto t .stopRun).notifyAll s.condSpace)
  | .stopCond => some ((s.goto t .stopCondSpace).notifyAll s.cond)
  | .stopCondSpace => some (((s.log (.stopped t)).goto t .idle).notifyAll s.condSpace)
  | _ => none

/-- A call begins; `batch_emplace` returns at once on an empty range. -/
def call (s : JobQueue T J) (t : T) (c : JobCall J) : Option (JobQueue T J) :=
  match s.threads t, c with
  | .idle, .batchEmplace [] => some (s.log (.called t (.batchEmplace [])))
  | .idle, c => some ((s.log (.called t c)).goto t (.lock c))
  | _, _ => none

def wakeUp (s : JobQueue T J) (t : T) : Option (JobQueue T J) :=
  match s.threads t with
  | .wait _ => some (s.wake t)
  | _ => none

def step (s : JobQueue T J) : JobAct T J → Option (JobQueue T J)
  | .call t c => s.call t c
  | .enter t throws => s.enter t throws
  | .notify t woken => s.notify t woken
  | .wakeUp t => s.wakeUp t

end JobQueue

/-- A queue and the threads that use it. -/
def threadSafeJobQueue {T J : Type} [DecidableEq T] :
    System (JobQueue T J) (JobAct T J) where
  init s := ∃ maxSize warnSize warnCallback clearCallback,
    JobQueue.construct maxSize warnSize warnCallback clearCallback = .ok s
  step := JobQueue.step

namespace JobQueue

variable {T J : Type} [DecidableEq T]

omit [DecidableEq T] in
theorem construct_ok {maxSize warnSize : Nat} {warnCallback clearCallback : Bool}
    {s : JobQueue T J} (h : construct maxSize warnSize warnCallback clearCallback = .ok s) :
    s.trace = [] ∧ s.queue = [] ∧ ∀ t, s.threads t = .idle := by
  unfold construct at h
  split at h
  · cases h
  · cases h
    exact ⟨rfl, rfl, fun _ => rfl⟩

/-! ## What a step can do -/

/-- The thread is before the mutex, in the call `c`. -/
def Entering (s : JobQueue T J) (t : T) (c : JobCall J) : Prop :=
  s.threads t = .lock c ∨ s.threads t = .woken c

/-- The transitions of a queue. -/
inductive Step (s : JobQueue T J) : JobQueue T J → Prop
  | call (t : T) (c : JobCall J) : s.threads t = .idle →
      Step s ((s.log (.called t c)).goto t (.lock c))
  | callEmpty (t : T) : s.threads t = .idle → Step s (s.log (.called t (.batchEmplace [])))
  | sleep (t : T) (c : JobCall J) : s.Entering t c → ¬ s.Ready c → Step s (s.sleep t c)
  | closed (t : T) (fetchJobs : List J) (n : Nat) : s.Entering t (.getJobsAndWait fetchJobs n) →
      s.run = false → Step s ((s.log (.closed t fetchJobs)).goto t .idle)
  | delivered (t : T) (fetchJobs : List J) (n : Nat) : s.Entering t (.getJobsAndWait fetchJobs n) →
      s.run = true → s.queue ≠ [] →
      Step s (({ s with queue := s.queue.drop n }.log (.delivered t n (s.queue.take n))).goto t
        (if 0 < s.maxSize then .notify (.getJobsAndWait fetchJobs n) else .idle))
  | refused (t : T) (c : JobCall J) : s.Entering t c → 0 < s.maxSize → s.run = false →
      Step s ((s.log (.refused t c)).goto t .idle)
  | accepted (t : T) (c : JobCall J) (throws : Bool) : s.Entering t c →
      (0 < s.maxSize → s.run = true ∧ s.queue.length + c.jobs.length ≤ s.maxSize) →
      Step s (s.push t c throws)
  | clear (t : T) : s.Entering t .clear → Step s (s.clear t)
  | stop (t : T) : s.Entering t .stop → Step s (s.stop t)
  | stopRun (t : T) : s.threads t = .stopRun → Step s ({ s with run := false }.goto t .stopCond)
  | notifySpace (t : T) (fetchJobs : List J) (n : Nat) (woken : Option T) (s' : JobQueue T J) :
      s.threads t = .notify (.getJobsAndWait fetchJobs n) →
      (s.goto t .idle).notifyOne s.condSpace woken = some s' → Step s s'
  | notifyCond (t : T) (c : JobCall J) (woken : Option T) (s' : JobQueue T J) :
      s.threads t = .notify c → (s.goto t .idle).notifyOne s.cond woken = some s' → Step s s'
  | notifyClear (t : T) : s.threads t = .notify .clear →
      Step s ((s.goto t .idle).notifyAll s.condSpace)
  | notifyStop (t : T) : s.threads t = .notify .stop →
      Step s ((s.goto t .stopRun).notifyAll s.condSpace)
  | stopCond (t : T) : s.threads t = .stopCond →
      Step s ((s.goto t .stopCondSpace).notifyAll s.cond)
  | stopped (t : T) : s.threads t = .stopCondSpace →
      Step s (((s.log (.stopped t)).goto t .idle).notifyAll s.condSpace)
  | wakeUp (t : T) (c : JobCall J) : s.threads t = .wait c → Step s (s.wake t)

variable {s s' : JobQueue T J}

theorem produce_cases {t : T} {c : JobCall J} {throws : Bool} (hc : s.Entering t c)
    (hready : 0 < s.maxSize → s.run = false ∨ s.queue.length + c.jobs.length ≤ s.maxSize) :
    Step s (s.produce t c throws) := by
  unfold produce
  split
  · next hclosed => exact .refused t c hc hclosed.1 hclosed.2
  · next hopen =>
      refine .accepted t c throws hc fun hmax => ?_
      have hrun : s.run = true := by
        by_contra hrun
        exact hopen ⟨hmax, by simpa using hrun⟩
      exact ⟨hrun, (hready hmax).resolve_left (by simp [hrun])⟩

theorem critical_cases {t : T} {c : JobCall J} {throws : Bool} (hc : s.Entering t c)
    (hready : s.Ready c) : Step s (s.critical t throws c) := by
  cases c with
  | getJobsAndWait fetchJobs n =>
      show Step s (s.getJobsAndWait t fetchJobs n)
      unfold getJobsAndWait
      split
      · next hrun =>
          rw [fetchLoop_eq]
          exact .delivered t fetchJobs n hc hrun (hready.resolve_left (by simp [hrun]))
      · next hrun => exact .closed t fetchJobs n hc (by simpa using hrun)
  | emplace job => exact produce_cases hc hready
  | batchEmplace jobs => exact produce_cases hc hready
  | clear => exact .clear t hc
  | stop => exact .stop t hc

theorem wakeUp_cases {t : T} (h : s.wakeUp t = some s') :
    ∃ c, s.threads t = .wait c ∧ s' = s.wake t := by
  unfold wakeUp at h
  split at h
  · next c hp => exact ⟨c, hp, (Option.some.inj h).symm⟩
  · cases h

theorem step_cases {a : JobAct T J} (h : s.step a = some s') : Step s s' := by
  cases a with
  | call t c =>
      change s.call t c = some s' at h
      unfold call at h
      split at h
      · next hp => cases h; exact .callEmpty t hp
      · next hp _ => cases h; exact .call t _ hp
      · cases h
  | enter t throws =>
      change s.enter t throws = some s' at h
      have hcritical {c : JobCall J} (hc : s.Entering t c)
          (h : (if s.Ready c then some (s.critical t throws c) else some (s.sleep t c)) = some s') :
          Step s s' := by
        split at h
        · next hready => cases h; exact critical_cases hc hready
        · next hready => cases h; exact .sleep t c hc hready
      unfold enter at h
      split at h
      · next c hp => exact hcritical (.inl hp) h
      · next c hp => exact hcritical (.inr hp) h
      · next hp => cases h; exact .stopRun t hp
      · cases h
  | notify t woken =>
      change s.notify t woken = some s' at h
      unfold notify at h
      split at h
      · next hp => exact .notifySpace t _ _ woken s' hp h
      · next hp => exact .notifyCond t _ woken s' hp h
      · next hp => exact .notifyCond t _ woken s' hp h
      · next hp => cases h; exact .notifyClear t hp
      · next hp => cases h; exact .notifyStop t hp
      · next hp => cases h; exact .stopCond t hp
      · next hp => cases h; exact .stopped t hp
      · cases h
  | wakeUp t =>
      obtain ⟨c, hp, rfl⟩ := wakeUp_cases h
      exact .wakeUp t c hp

/-! ## What `check_queue_length` and the notifications leave alone -/

omit [DecidableEq T] in
/-- `check_queue_length` touches its flag, and the history if it calls the callback. -/
theorem checkQueueLength_cases (s : JobQueue T J) :
    s.checkQueueLength.queue = s.queue ∧ s.checkQueueLength.maxSize = s.maxSize ∧
      s.checkQueueLength.threads = s.threads ∧
        (s.checkQueueLength.trace = s.trace ∨
          s.checkQueueLength.trace = s.trace ++ [.warnCallback s.queue.length]) := by
  unfold checkQueueLength
  split
  · exact ⟨rfl, rfl, rfl, .inr rfl⟩
  · split
    · exact ⟨rfl, rfl, rfl, .inl rfl⟩
    · exact ⟨rfl, rfl, rfl, .inl rfl⟩

/-- The two states differ in the threads at most: who sleeps, and where they stand. -/
structure SameQueue (s s' : JobQueue T J) : Prop where
  maxSize : s'.maxSize = s.maxSize
  run : s'.run = s.run
  queue : s'.queue = s.queue
  warnTriggered : s'.warnTriggered = s.warnTriggered
  trace : s'.trace = s.trace

theorem sameQueue_wake (s : JobQueue T J) (t : T) : s.SameQueue (s.wake t) := ⟨rfl, rfl, rfl, rfl, rfl⟩

omit [DecidableEq T] in
theorem SameQueue.trans {s₁ s₂ s₃ : JobQueue T J} (h : s₁.SameQueue s₂) (h' : s₂.SameQueue s₃) :
    s₁.SameQueue s₃ :=
  ⟨h'.maxSize.trans h.maxSize, h'.run.trans h.run, h'.queue.trans h.queue,
    h'.warnTriggered.trans h.warnTriggered, h'.trace.trans h.trace⟩

theorem sameQueue_goto (s : JobQueue T J) (t : T) (pc : JobPc J) : s.SameQueue (s.goto t pc) :=
  ⟨rfl, rfl, rfl, rfl, rfl⟩

theorem sameQueue_sleep (s : JobQueue T J) (t : T) (c : JobCall J) : s.SameQueue (s.sleep t c) := by
  cases c <;> exact ⟨rfl, rfl, rfl, rfl, rfl⟩

theorem sleep_threads (s : JobQueue T J) (t : T) (c : JobCall J) :
    (s.sleep t c).threads = Function.update s.threads t (.wait c) := by
  cases c <;> rfl

theorem sameQueue_notifyAll (s : JobQueue T J) (sleepers : List T) :
    s.SameQueue (s.notifyAll sleepers) := by
  induction sleepers generalizing s with
  | nil => exact ⟨rfl, rfl, rfl, rfl, rfl⟩
  | cons t sleepers ih => exact (sameQueue_wake s t).trans (ih (s.wake t))

theorem notifyOne_cases {sleepers : List T} {woken : Option T}
    (h : s.notifyOne sleepers woken = some s') :
    woken = none ∧ sleepers = [] ∧ s' = s ∨ ∃ u ∈ sleepers, woken = some u ∧ s' = s.wake u := by
  cases woken with
  | none =>
      rw [notifyOne] at h
      split at h
      · next hnone => cases h; exact .inl ⟨rfl, hnone, rfl⟩
      · cases h
  | some u =>
      rw [notifyOne] at h
      split at h
      · next hu => cases h; exact .inr ⟨u, hu, rfl, rfl⟩
      · cases h

theorem sameQueue_notifyOne {sleepers : List T} {woken : Option T}
    (h : s.notifyOne sleepers woken = some s') : s.SameQueue s' := by
  rcases notifyOne_cases h with ⟨-, -, rfl⟩ | ⟨u, -, -, rfl⟩
  · exact ⟨rfl, rfl, rfl, rfl, rfl⟩
  · exact sameQueue_wake s u

end JobQueue

end VideoStream
