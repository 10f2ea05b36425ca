import VideoStream.Library.Fifo
import VideoStream.Queue.JobQueue

/-!
# The jobs that go through the queue

Every step that touches the queue adds the jobs of one call at its end, or removes some at its front:
`get_jobs_and_wait` as many as it may, `clear` all of them. So the jobs that were removed, in this
order, and the content of the queue are the jobs that were accepted (`jobs_conserved`). Nobody pushes
without room, so that a bounded queue stays within its bound.
-/

namespace VideoStream

open Library Fifo

variable {T J : Type}

/-- The jobs that the event puts into the queue. -/
def JobEvent.added : JobEvent T J → List J
  | .accepted _ c => c.jobs
  | _ => []

/-- The jobs that the event takes out of the queue. -/
def JobEvent.removed : JobEvent T J → List J
  | .delivered _ _ fetchJobs => fetchJobs
  | .cleared job => [job]
  | _ => []

/-- The jobs accepted so far; those of a batch stand together, in the order of the batch. -/
def acceptedJobs (t : List (JobEvent T J)) : List J := t.flatMap JobEvent.added

/-- The jobs removed so far: delivered, or passed through `clear`. -/
def removedJobs (t : List (JobEvent T J)) : List J := t.flatMap JobEvent.removed

/-- The queue after the history `t`. -/
def queueAfter (t : List (JobEvent T J)) : List J := contents JobEvent.added JobEvent.removed t

@[simp] theorem acceptedJobs_cons (e : JobEvent T J) (t : List (JobEvent T J)) :
    acceptedJobs (e :: t) = e.added ++ acceptedJobs t := rfl

@[simp] theorem removedJobs_cons (e : JobEvent T J) (t : List (JobEvent T J)) :
    removedJobs (e :: t) = e.removed ++ removedJobs t := rfl

@[simp] theorem acceptedJobs_append (t es : List (JobEvent T J)) :
    acceptedJobs (t ++ es) = acceptedJobs t ++ acceptedJobs es :=
  List.flatMap_append

@[simp] theorem removedJobs_append (t es : List (JobEvent T J)) :
    removedJobs (t ++ es) = removedJobs t ++ removedJobs es :=
  List.flatMap_append

/-- The events that belong to no job: calls, refusals, closings, and what `check_queue_length` and
`stop` log. -/
def JobEvent.isQuiet : JobEvent T J → Bool
  | .accepted _ _ | .delivered _ _ _ | .cleared _ => false
  | _ => true

/-- The events of `check_queue_length`. -/
def JobEvent.isWarning : JobEvent T J → Bool
  | .warnCallback _ | .threw _ => true
  | _ => false

theorem JobEvent.isQuiet_of_isWarning {e : JobEvent T J} (h : e.isWarning = true) :
    e.isQuiet = true := by
  cases e <;> first | rfl | cases h

theorem JobEvent.added_of_isQuiet {e : JobEvent T J} (h : e.isQuiet = true) : e.added = [] := by
  cases e <;> first | rfl | cases h

theorem JobEvent.removed_of_isQuiet {e : JobEvent T J} (h : e.isQuiet = true) : e.removed = [] := by
  cases e <;> first | rfl | cases h

theorem acceptedJobs_of_isQuiet {es : List (JobEvent T J)} (h : ∀ e ∈ es, e.isQuiet = true) :
    acceptedJobs es = [] :=
  List.flatMap_eq_nil_iff.mpr fun e he => JobEvent.added_of_isQuiet (h e he)

theorem removedJobs_of_isQuiet {es : List (JobEvent T J)} (h : ∀ e ∈ es, e.isQuiet = true) :
    removedJobs es = [] :=
  List.flatMap_eq_nil_iff.mpr fun e he => JobEvent.removed_of_isQuiet (h e he)

/-- What `clear` logs of a job removes this job. -/
theorem clearedEvents_cases (b : Bool) (job : J) :
    removedJobs (clearedEvents (T := T) b job) = [job] ∧
      acceptedJobs (clearedEvents (T := T) b job) = [] := by
  cases b <;> exact ⟨rfl, rfl⟩

theorem eq_of_mem_clearedEvents {b : Bool} {job : J} {e : JobEvent T J}
    (h : e ∈ clearedEvents b job) : e = .clearCallback job ∨ e = .cleared job := by
  cases b with
  | true => simpa [clearedEvents] using h
  | false => exact .inr (by simpa [clearedEvents] using h)

theorem flatMap_clearedEvents (b : Bool) (queue : List J) :
    removedJobs (queue.flatMap (clearedEvents (T := T) b)) = queue ∧
      acceptedJobs (queue.flatMap (clearedEvents (T := T) b)) = [] := by
  induction queue with
  | nil => exact ⟨rfl, rfl⟩
  | cons job queue ih =>
      obtain ⟨hremoved, hadded⟩ := clearedEvents_cases (T := T) b job
      rw [List.flatMap_cons, removedJobs_append, acceptedJobs_append, hremoved, hadded, ih.1, ih.2]
      exact ⟨rfl, rfl⟩

namespace JobQueue

variable {s s' : JobQueue T J}

structure Fifo (s : JobQueue T J) : Prop where
  balanced : Balanced JobEvent.added JobEvent.removed s.trace s.queue
  delivered : ∀ a t n fetchJobs, a ++ [.delivered t n fetchJobs] <+: s.trace →
    fetchJobs = (queueAfter a).take n
  bounded : 0 < s.maxSize → s.queue.length ≤ s.maxSize

/-- The history goes on by `es`, in which a delivery can only be the first event. -/
theorem Fifo.append (hs : s.Fifo) (es : List (JobEvent T J)) (htrace : s'.trace = s.trace ++ es)
    (hmax : s'.maxSize = s.maxSize)
    (hqueue : removedJobs es ++ s'.queue = s.queue ++ acceptedJobs es)
    (hdelivered : ∀ b t n fetchJobs, b ++ [.delivered t n fetchJobs] <+: es →
      b = [] ∧ fetchJobs = s.queue.take n)
    (hbounded : 0 < s.maxSize → s'.queue.length ≤ s.maxSize) : s'.Fifo := by
  refine ⟨?_, fun a t n fetchJobs ha => ?_, hmax.symm ▸ hbounded⟩
  · rw [htrace]
    exact hs.balanced.append hqueue
  · rw [htrace] at ha
    rcases of_concat_prefix_append ha with hold | ⟨b, rfl, hnew⟩
    · exact hs.delivered a t n fetchJobs hold
    · obtain ⟨rfl, hjobs⟩ := hdelivered b t n fetchJobs hnew
      rw [List.append_nil, queueAfter, hs.balanced.contents_eq, hjobs]

/-- A step that leaves the queue alone. -/
theorem Fifo.quiet (hs : s.Fifo) (es : List (JobEvent T J)) (htrace : s'.trace = s.trace ++ es)
    (hmax : s'.maxSize = s.maxSize) (hqueue : s'.queue = s.queue)
    (hquiet : ∀ e ∈ es, e.isQuiet = true) : s'.Fifo := by
  refine hs.append _ htrace hmax ?_ (fun b t n fetchJobs hb => ?_) (hqueue.symm ▸ hs.bounded)
  · rw [acceptedJobs_of_isQuiet hquiet, removedJobs_of_isQuiet hquiet, hqueue, List.append_nil]
    rfl
  · have hd := hquiet (.delivered t n fetchJobs) (hb.subset (by simp))
    cases hd

theorem SameQueue.fifo (h : s.SameQueue s') (hs : s.Fifo) : s'.Fifo :=
  hs.quiet [] (by rw [h.trace, List.append_nil]) h.maxSize h.queue (by simp)

theorem clearQueue_fifo (hs : s.Fifo) : s.clearQueue.Fifo := by
  obtain ⟨hremoved, hadded⟩ := flatMap_clearedEvents (T := T) s.clearCallback s.queue
  refine hs.append _ (clearLoop_eq s.clearCallback s.queue s.trace) rfl ?_
    (fun b u n fetchJobs hb => ?_) fun _ => Nat.zero_le _
  · rw [hremoved, hadded]
    rfl
  · have hmem := hb.subset (List.mem_append_right b (List.mem_singleton_self _))
    obtain ⟨job, -, hjob⟩ := List.mem_flatMap.mp hmem
    rcases eq_of_mem_clearedEvents hjob with hx | hx <;> cases hx

variable [DecidableEq T]

theorem push_queue (s : JobQueue T J) (t : T) (c : JobCall J) (throws : Bool) :
    (s.push t c throws).queue = s.queue ++ c.jobs ∧
      (s.push t c throws).maxSize = s.maxSize := by
  obtain ⟨hqueue, hmax, -⟩ := (s.accept t c).checkQueueLength_cases
  rw [show (s.accept t c).queue = s.queue ++ c.jobs from pushLoop_eq _ _] at hqueue
  unfold push
  split
  · exact ⟨hqueue, hmax⟩
  · exact ⟨hqueue, hmax⟩

theorem push_history (s : JobQueue T J) (t : T) (c : JobCall J) (throws : Bool) :
    ∃ es, (s.push t c throws).trace = s.trace ++ (.accepted t c :: es) ∧
      ∀ e ∈ es, e.isWarning = true := by
  have hcheck : ∃ es, (s.accept t c).checkQueueLength.trace = s.trace ++ (.accepted t c :: es) ∧
      ∀ e ∈ es, e.isWarning = true := by
    obtain ⟨-, -, -, htrace | htrace⟩ := (s.accept t c).checkQueueLength_cases
    · exact ⟨[], htrace, by simp⟩
    · refine ⟨[.warnCallback (s.accept t c).queue.length], ?_, by simp [JobEvent.isWarning]⟩
      rw [htrace]
      exact List.append_assoc _ _ _
  obtain ⟨es, htrace, hquiet⟩ := hcheck
  unfold push
  split
  · refine ⟨es ++ [.threw t], ?_, fun e he => ?_⟩
    · rw [goto_trace, log, htrace, List.append_assoc]
      rfl
    · rcases List.mem_append.mp he with he | he
      · exact hquiet e he
      · obtain rfl := List.mem_singleton.mp he
        rfl
  · exact ⟨es, htrace, hquiet⟩

theorem push_fifo {t : T} {c : JobCall J} {throws : Bool} (hs : s.Fifo)
    (hroom : 0 < s.maxSize → s.queue.length + c.jobs.length ≤ s.maxSize) :
    (s.push t c throws).Fifo := by
  obtain ⟨es, htrace, hwarning⟩ := push_history s t c throws
  obtain ⟨hqueue, hmax⟩ := push_queue s t c throws
  have hquiet (e : JobEvent T J) (he : e ∈ es) : e.isQuiet = true :=
    JobEvent.isQuiet_of_isWarning (hwarning e he)
  refine hs.append _ htrace hmax ?_ (fun b u n fetchJobs hb => ?_) fun hpos => ?_
  · rw [removedJobs_cons, removedJobs_of_isQuiet hquiet, acceptedJobs_cons,
      acceptedJobs_of_isQuiet hquiet, hqueue]
    simp [JobEvent.added, JobEvent.removed]
  · have hmem : JobEvent.delivered u n fetchJobs ∈ JobEvent.accepted t c :: es :=
      hb.subset (by simp)
    rcases List.mem_cons.mp hmem with heq | hmem
    · cases heq
    · have hd := hquiet _ hmem
      cases hd
  · rw [hqueue, List.length_append]
    exact hroom hpos

theorem step_fifo (h : Step s s') (hs : s.Fifo) : s'.Fifo := by
  cases h with
  | call t c hp => exact hs.quiet [.called t c] rfl rfl rfl (by simp [JobEvent.isQuiet])
  | callEmpty t hp =>
      exact hs.quiet [.called t (.batchEmplace [])] rfl rfl rfl (by simp [JobEvent.isQuiet])
  | sleep t c hc hready => exact (sameQueue_sleep s t c).fifo hs
  | closed t fetchJobs n hc hrun =>
      exact hs.quiet [.closed t fetchJobs] rfl rfl rfl (by simp [JobEvent.isQuiet])
  | delivered t fetchJobs n hc hrun hne =>
      -- the front goes, and the rest is what is left of the queue
      refine hs.append [.delivered t n (s.queue.take n)] rfl rfl ?_
        (fun b u m jobs hb => ?_) fun hpos => ?_
      · show (s.queue.take n ++ []) ++ s.queue.drop n = s.queue ++ []
        rw [List.append_nil, List.append_nil, List.take_append_drop]
      · obtain ⟨rfl, heq⟩ := of_concat_prefix_singleton hb
        cases heq
        exact ⟨rfl, rfl⟩
      · show (s.queue.drop n).length ≤ s.maxSize
        rw [List.length_drop]
        exact Nat.le_trans (Nat.sub_le _ _) (hs.bounded hpos)
  | refused t c hc hmax hrun =>
      exact hs.quiet [.refused t c] rfl rfl rfl (by simp [JobEvent.isQuiet])
  | accepted t c throws hc hroom => exact push_fifo hs fun hmax => (hroom hmax).2
  | clear t hc => exact (clearQueue_fifo hs).quiet [] (by simp [clear]) rfl rfl (by simp)
  | stop t hc => exact (clearQueue_fifo hs).quiet [] (by simp [stop]) rfl rfl (by simp)
  | stopRun t hp => exact hs.quiet [] (by simp) rfl rfl (by simp)
  | notifySpace t _ _ woken s' _ hn | notifyCond t _ woken s' _ hn =>
      exact ((sameQueue_goto s t .idle).trans (sameQueue_notifyOne hn)).fifo hs
  | notifyClear t hp =>
      exact ((sameQueue_goto s t .idle).trans (sameQueue_notifyAll _ _)).fifo hs
  | notifyStop t hp =>
      exact ((sameQueue_goto s t .stopRun).trans (sameQueue_notifyAll _ _)).fifo hs
  | stopCond t hp =>
      exact ((sameQueue_goto s t .stopCondSpace).trans (sameQueue_notifyAll _ _)).fifo hs
  | stopped t hp =>
      refine (sameQueue_notifyAll _ _).fifo ?_
      exact hs.quiet [.stopped t] rfl rfl rfl (by simp [JobEvent.isQuiet])
  | wakeUp t c hp => exact (sameQueue_wake s t).fifo hs

theorem reachable_fifo (h : threadSafeJobQueue.Reachable s) : s.Fifo := by
  apply h.invariant
  · rintro s ⟨maxSize, warnSize, warnCallback, clearCallback, hs⟩
    obtain ⟨htrace, hqueue, -⟩ := construct_ok hs
    refine ⟨?_, ?_, ?_⟩
    · rw [htrace, hqueue]
      exact .nil
    · intro a t n fetchJobs ha
      rw [htrace] at ha
      exact absurd (List.prefix_nil.mp ha) (by simp)
    · intro _
      rw [hqueue]
      exact Nat.zero_le _
  · intro s s' a _ hs _ hstep
    exact step_fifo (step_cases hstep) hs

end JobQueue

/-! ## The calls of the producers -/

section Producers

/-- A call that brings jobs. -/
def JobCall.produces (c : JobCall J) : Bool := !c.jobs.isEmpty

/-- The call of a producer that a thread is in, before its jobs are pushed or refused. -/
def JobPc.unanswered : JobPc J → List (JobCall J)
  | .lock c | .wait c | .woken c => if c.produces then [c] else []
  | _ => []

variable [DecidableEq T]

/-- The event begins a call of a producer by the thread `u`. -/
def JobEvent.calledBy (u : T) : JobEvent T J → List (JobCall J)
  | .called t c => if t = u ∧ c.produces = true then [c] else []
  | _ => []

/-- The event pushes the jobs of a call by the thread `u`, or refuses them. -/
def JobEvent.answeredBy (u : T) : JobEvent T J → List (JobCall J)
  | .accepted t c | .refused t c => if t = u ∧ c.produces = true then [c] else []
  | _ => []

namespace JobQueue

variable {s s' : JobQueue T J} {t : T} {c : JobCall J}

/-- Every call of a producer so far has been answered once, in order, but for the one the thread is
in. -/
def Answered (s : JobQueue T J) : Prop :=
  ∀ u, Balanced (JobEvent.calledBy u) (JobEvent.answeredBy u) s.trace (s.threads u).unanswered

/-- A step of the thread `t`, to `pc`; the events are its own. -/
theorem Answered.goto (hs : s.Answered) (es : List (JobEvent T J)) {pc : JobPc J}
    (htrace : s'.trace = s.trace ++ es) (hthreads : s'.threads = Function.update s.threads t pc)
    (hown : es.flatMap (JobEvent.answeredBy t) ++ pc.unanswered =
      (s.threads t).unanswered ++ es.flatMap (JobEvent.calledBy t))
    (hother : ∀ u ≠ t, es.flatMap (JobEvent.answeredBy u) = [] ∧
      es.flatMap (JobEvent.calledBy u) = []) : s'.Answered := by
  intro u
  rw [htrace, hthreads]
  apply (hs u).append
  by_cases hu : u = t
  · rw [hu, Function.update_self]
    exact hown
  · rw [Function.update_of_ne hu, (hother u hu).1, (hother u hu).2, List.append_nil]
    rfl

/-- A step that the producers do not see. -/
theorem Answered.beside (hs : s.Answered) (es : List (JobEvent T J))
    (htrace : s'.trace = s.trace ++ es)
    (hthreads : ∀ u, (s'.threads u).unanswered = (s.threads u).unanswered)
    (hes : ∀ e ∈ es, ∀ u, e.answeredBy u = [] ∧ e.calledBy u = []) : s'.Answered := by
  intro u
  rw [htrace, hthreads]
  apply (hs u).append
  rw [List.flatMap_eq_nil_iff.mpr fun e he => (hes e he u).1,
    List.flatMap_eq_nil_iff.mpr fun e he => (hes e he u).2, List.append_nil]
  rfl

omit [DecidableEq T] in
theorem Entering.unanswered (hc : s.Entering t c) :
    (s.threads t).unanswered = if c.produces = true then [c] else [] := by
  rcases hc with hp | hp <;> rw [hp] <;> rfl

theorem push_threads (s : JobQueue T J) (t : T) (c : JobCall J) (throws : Bool) :
    (s.push t c throws).threads = Function.update s.threads t .idle ∨
      (s.push t c throws).threads = Function.update s.threads t (.notify c) := by
  have hthreads : (s.accept t c).checkQueueLength.threads = s.threads :=
    (s.accept t c).checkQueueLength_cases.2.2.1
  unfold push
  split
  · left
    rw [goto_threads, log, hthreads]
  · right
    rw [goto_threads, hthreads]

end JobQueue

end Producers

end VideoStream
