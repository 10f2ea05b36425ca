import VideoStream.Queue.StepHistory

/-!
# `stop`

`stop` clears the queue, and only then sets `run_` to false, each in a critical section of its own.

* Everybody is released (`released_after_stop`): while a thread sleeps in a closed queue, the
  broadcast that wakes it is still to come, and in a closed queue nobody goes to sleep.
* A job is stranded if it is pushed between the two critical sections, or into an unlimited queue
  that is closed, where `run_` is not tested. Otherwise the queue is empty, and every job was handed
  over once (`nothing_stranded_of_pushesInTime`).
-/

namespace VideoStream

open Library Fifo

variable {T J : Type}

/-- The thread is in `stop`, behind `run_ = false`: a broadcast is still to come. -/
def JobPc.broadcasts : JobPc J → Bool
  | .stopCond | .stopCondSpace => true
  | _ => false

theorem JobPc.wake_broadcasts (pc : JobPc J) :
    pc.wake = pc ∨ pc.broadcasts = false ∧ pc.wake.broadcasts = false := by
  cases pc with
  | wait c => exact .inr ⟨rfl, rfl⟩
  | _ => exact .inl rfl

theorem JobPc.broadcasts_of_notifies {pc pc' : JobPc J} {k : JobCond}
    (h : pc.notifies = some (k, pc')) (hpc : pc.broadcasts = false) : pc'.broadcasts = false := by
  cases pc with
  | notify c => cases c <;> cases h <;> rfl
  | stopCond | stopCondSpace => cases hpc
  | _ => cases h

namespace JobQueue

/-- Where the threads in `stop` are, and who still sleeps in a closed queue. -/
structure Closing (s : JobQueue T J) : Prop where
  closed : ∀ t, s.threads t = .stopCond → s.run = false
  drained : ∀ t, s.threads t = .stopCondSpace → s.run = false ∧ s.cond = []
  released : ∀ t, .stopped t ∈ s.trace → s.run = false ∧ s.cond = [] ∧ s.condSpace = []
  onCond : s.run = false → s.cond ≠ [] → ∃ v, s.threads v = .stopCond
  onSpace : s.run = false → s.condSpace ≠ [] →
    ∃ v, s.threads v = .stopCond ∨ s.threads v = .stopCondSpace

variable {s s' : JobQueue T J}

/-- A step of threads that are not about to broadcast; in a closed queue it puts nobody to sleep. -/
theorem Closing.beside (hs : s.Closing) (hrun : s'.run = s.run)
    (hsleepers : s.run = false → ∀ k, s.sleepers k = [] → s'.sleepers k = [])
    (hpc : ∀ u, s'.threads u = s.threads u ∨
      (s.threads u).broadcasts = false ∧ (s'.threads u).broadcasts = false)
    (htrace : ∀ t, .stopped t ∈ s'.trace → .stopped t ∈ s.trace) : s'.Closing := by
  have hback {u : T} {pc : JobPc J} (hb : pc.broadcasts = true) (hu : s'.threads u = pc) :
      s.threads u = pc := by
    rcases hpc u with hsame | ⟨-, hnot⟩
    · rwa [← hsame]
    · rw [hu, hb] at hnot
      cases hnot
  have hforth {u : T} {pc : JobPc J} (hb : pc.broadcasts = true) (hu : s.threads u = pc) :
      s'.threads u = pc := by
    rcases hpc u with hsame | ⟨hnot, -⟩
    · rwa [hsame]
    · rw [hu, hb] at hnot
      cases hnot
  refine ⟨fun t ht => ?_, fun t ht => ?_, fun t ht => ?_, fun hclosed hne => ?_,
    fun hclosed hne => ?_⟩
  · rw [hrun]
    exact hs.closed t (hback rfl ht)
  · obtain ⟨hclosed, hcond⟩ := hs.drained t (hback rfl ht)
    exact ⟨hrun.trans hclosed, hsleepers hclosed .cond hcond⟩
  · obtain ⟨hclosed, hcond, hspace⟩ := hs.released t (htrace t ht)
    exact ⟨hrun.trans hclosed, hsleepers hclosed .cond hcond, hsleepers hclosed .condSpace hspace⟩
  · rw [hrun] at hclosed
    obtain ⟨v, hv⟩ := hs.onCond hclosed fun hnil => hne (hsleepers hclosed .cond hnil)
    exact ⟨v, hforth rfl hv⟩
  · rw [hrun] at hclosed
    obtain ⟨v, hv | hv⟩ := hs.onSpace hclosed fun hnil => hne (hsleepers hclosed .condSpace hnil)
    · exact ⟨v, .inl (hforth rfl hv)⟩
    · exact ⟨v, .inr (hforth rfl hv)⟩

variable [DecidableEq T]

theorem update_broadcasts {t : T} {pc : JobPc J} (ht : (s.threads t).broadcasts = false)
    (hpc : pc.broadcasts = false) (u : T) :
    Function.update s.threads t pc u = s.threads u ∨
      (s.threads u).broadcasts = false ∧ (Function.update s.threads t pc u).broadcasts = false := by
  revert u
  rw [Function.forall_update_iff s.threads fun u pc =>
    pc = s.threads u ∨ (s.threads u).broadcasts = false ∧ pc.broadcasts = false]
  exact ⟨.inr ⟨ht, hpc⟩, fun _ _ => .inl rfl⟩

omit [DecidableEq T] in
theorem Entering.broadcasts {t : T} {c : JobCall J} (hc : s.Entering t c) :
    (s.threads t).broadcasts = false := by
  rcases hc with hp | hp <;> rw [hp] <;> rfl

/-- The lists only get shorter when sleepers are woken. -/
theorem notifyAll_sleepers_eq_nil (l : List T) {k : JobCond} (h : s.sleepers k = []) :
    (s.notifyAll l).sleepers k = [] := by
  induction l generalizing s with
  | nil => exact h
  | cons t l ih =>
      refine ih (s := s.wake t) ?_
      have herase : (s.wake t).sleepers k = (s.sleepers k).erase t := by cases k <;> rfl
      rw [herase, h, List.erase_nil]

/-- After a broadcast nobody sleeps on the condition variable. -/
theorem notifyAll_sleepers (hs : s.Sleepers) (k : JobCond) :
    (s.notifyAll (s.sleepers k)).sleepers k = [] := by
  refine List.eq_nil_iff_forall_not_mem.mpr fun u hu => ?_
  have hsleeps := ((hs.notifyAll (s.sleepers k)).mem k u).mp hu
  rw [notifyAll_threads] at hsleeps
  split at hsleeps
  · rw [JobPc.sleepsOn_wake] at hsleeps
    cases hsleeps
  · next hnot => exact hnot ((hs.mem k u).mpr hsleeps)

omit [DecidableEq T] in
/-- In a closed queue every predicate is true. -/
theorem ready_of_closed (hrun : s.run = false) (c : JobCall J) : s.Ready c := by
  cases c with
  | getJobsAndWait _ _ => exact .inl hrun
  | emplace _ | batchEmplace _ => exact fun _ => .inl hrun
  | clear | stop => trivial

omit [DecidableEq T] in
theorem run_of_not_ready {c : JobCall J} (h : ¬ s.Ready c) : s.run = true := by
  by_contra hrun
  exact h (ready_of_closed (by simpa using hrun) c)

theorem critical_run {t : T} {throws : Bool} {c : JobCall J} (hc : s.Entering t c)
    (hready : s.Ready c) : (s.critical t throws c).run = s.run := by
  refine (critical_logs hc hready).run.resolve_right fun hstop => ?_
  obtain ⟨u, throws', ha, hu⟩ := hstop
  cases ha
  rcases hc with hp | hp <;> rw [hp] at hu <;> cases hu

/-- A queue that is closed stays so. -/
theorem run_of_step {a : JobAct T J} (h : s.step a = some s') (hrun : s'.run = true) :
    s.run = true := by
  cases a with
  | enter t throws =>
      rcases enter_cases h with ⟨c, hc, ⟨-, rfl⟩ | ⟨hready, rfl⟩⟩ | ⟨-, rfl⟩
      · exact (sameQueue_sleep s t c).run.symm.trans hrun
      · exact (critical_run hc hready).symm.trans hrun
      · cases hrun
  | call _ _ | notify _ _ | wakeUp _ => exact (quiet_same (by simp) h).1.symm.trans hrun

/-- The broadcast on `cond_`. -/
theorem stopCond_closing {t : T} (hp : s.threads t = .stopCond) (hslp : s.Sleepers)
    (hs : s.Closing) : ((s.goto t .stopCondSpace).notifyAll s.cond).Closing := by
  have hsame := sameQueue_notifyAll (s.goto t .stopCondSpace) s.cond
  have hrun := hsame.run.trans (hs.closed t hp)
  have hgoto : (s.goto t .stopCondSpace).Sleepers :=
    hslp.moved rfl (sleepers_goto s t _) rfl (by rw [hp]; rfl) (by simp)
  have hcond : ((s.goto t .stopCondSpace).notifyAll s.cond).cond = [] :=
    notifyAll_sleepers hgoto .cond
  have hnext : ((s.goto t .stopCondSpace).notifyAll s.cond).threads t = .stopCondSpace := by
    rw [notifyAll_threads, goto_threads, Function.update_self]
    split <;> rfl
  refine ⟨fun _ _ => hrun, fun _ _ => ⟨hrun, hcond⟩, fun u hu => ⟨hrun, hcond, ?_⟩,
    fun _ hne => absurd hcond hne, fun _ _ => ⟨t, .inr hnext⟩⟩
  rw [hsame.trace] at hu
  exact notifyAll_sleepers_eq_nil (s := s.goto t .stopCondSpace) (k := .condSpace) s.cond
    (hs.released u hu).2.2

/-- The broadcast on `cond_space_`, the last step of `stop`. -/
theorem stopped_closing {t : T} (hp : s.threads t = .stopCondSpace) (hslp : s.Sleepers)
    (hs : s.Closing) : (((s.log (.stopped t)).goto t .idle).notifyAll s.condSpace).Closing := by
  have hsame := sameQueue_notifyAll ((s.log (.stopped t)).goto t .idle) s.condSpace
  obtain ⟨hclosed, hnil⟩ := hs.drained t hp
  have hrun := hsame.run.trans hclosed
  have hgoto : ((s.log (.stopped t)).goto t .idle).Sleepers :=
    hslp.moved rfl (fun k => by rw [sleepers_goto, sleepers_log]) rfl (by rw [hp]; rfl) (by simp)
  have hcond := notifyAll_sleepers_eq_nil (s := (s.log (.stopped t)).goto t .idle) (k := .cond)
    s.condSpace hnil
  have hspace : (((s.log (.stopped t)).goto t .idle).notifyAll s.condSpace).condSpace = [] :=
    notifyAll_sleepers hgoto .condSpace
  exact ⟨fun _ _ => hrun, fun _ _ => ⟨hrun, hcond⟩, fun _ _ => ⟨hrun, hcond, hspace⟩,
    fun _ hne => absurd hcond hne, fun _ hne => absurd hspace hne⟩

theorem step_closing {a : JobAct T J} (h : s.step a = some s') (hslp : s.Sleepers)
    (hs : s.Closing) : s'.Closing := by
  have hstopped (u : T) := (step_logs h).stopped (u := u)
  cases a with
  | call t c =>
      have htrace (u : T) (hu : .stopped u ∈ s'.trace) : .stopped u ∈ s.trace :=
        (hstopped u hu).resolve_right (by simp)
      obtain ⟨hp, ⟨-, rfl⟩ | ⟨-, rfl⟩⟩ := call_cases h
      · exact hs.beside rfl (fun _ k => by rw [sleepers_log]; exact id) (fun _ => .inl rfl) htrace
      · have hidle : (s.threads t).broadcasts = false := by rw [hp]; rfl
        exact hs.beside rfl (fun _ k => by rw [sleepers_goto, sleepers_log]; exact id)
          (update_broadcasts hidle rfl) htrace
  | enter t throws =>
      have htrace (u : T) (hu : .stopped u ∈ s'.trace) : .stopped u ∈ s.trace :=
        (hstopped u hu).resolve_right (by simp)
      rcases enter_cases h with ⟨c, hc, ⟨hready, rfl⟩ | ⟨hready, rfl⟩⟩ | ⟨hp, rfl⟩
      · -- who goes to sleep has seen `run_`
        refine hs.beside (sameQueue_sleep s t c).run (fun hclosed => ?_) ?_ htrace
        · exact absurd (ready_of_closed hclosed c) hready
        · rw [sleep_threads]
          exact update_broadcasts hc.broadcasts rfl
      · obtain ⟨⟨pc, hthreads, hpc⟩, -, hsleepers⟩ := critical_threads s t throws c
        refine hs.beside (critical_run hc hready) (fun _ k => ?_) ?_ htrace
        · rw [hsleepers]
          exact id
        · rw [hthreads]
          refine update_broadcasts hc.broadcasts ?_
          rcases hpc with rfl | rfl | rfl <;> rfl
      · have hstop : ({ s with run := false }.goto t .stopCond).threads t = .stopCond :=
          Function.update_self _ _ _
        refine ⟨fun _ _ => rfl, fun u hu => ⟨rfl, ?_⟩, fun u hu => ?_, fun _ _ => ⟨t, hstop⟩,
          fun _ _ => ⟨t, .inl hstop⟩⟩
        · have hu : Function.update s.threads t .stopCond u = .stopCondSpace := hu
          rw [Function.update_apply] at hu
          split at hu
          · cases hu
          · exact (hs.drained u hu).2
        · exact ⟨rfl, (hs.released u hu).2⟩
  | notify t woken =>
      by_cases hb : (s.threads t).broadcasts = true
      · change s.notify t woken = some s' at h
        cases hp : s.threads t with
        | stopCond =>
            unfold notify at h
            rw [hp] at h
            cases h
            exact stopCond_closing hp hslp hs
        | stopCondSpace =>
            unfold notify at h
            rw [hp] at h
            cases h
            exact stopped_closing hp hslp hs
        | _ => rw [hp] at hb; cases hb
      · have hb : (s.threads t).broadcasts = false := by simpa using hb
        have hpc (u : T) (hu : u = t) : s.threads u ≠ .stopCondSpace := by
          intro hp
          rw [← hu, hp] at hb
          cases hb
        obtain ⟨k, pc, l, s₀, hnotifies, -, -, hs₀, rfl⟩ := notify_cases h
        obtain rfl := hs₀.resolve_right fun hs₀ => hpc t rfl hs₀.1
        refine hs.beside (sameQueue_notifyAll _ l).run (fun _ k' hnil => ?_) (fun u => ?_)
          fun u hu => ?_
        · exact notifyAll_sleepers_eq_nil l (by rw [sleepers_goto]; exact hnil)
        · have hgoto := update_broadcasts hb (JobPc.broadcasts_of_notifies hnotifies hb) u
          rw [notifyAll_threads, goto_threads]
          split
          · rcases (Function.update s₀.threads t pc u).wake_broadcasts with hsame | ⟨hpc', hwake⟩
            · rwa [hsame]
            · rcases hgoto with hsame | ⟨hpc, -⟩
              · exact .inr ⟨hsame ▸ hpc', hwake⟩
              · exact .inr ⟨hpc, hwake⟩
          · exact hgoto
        · refine (hstopped u hu).resolve_right fun hlast => ?_
          obtain ⟨hu, woken', ha⟩ := hlast
          cases ha
          exact hpc t rfl hu
  | wakeUp t =>
      have htrace (u : T) (hu : .stopped u ∈ s'.trace) : .stopped u ∈ s.trace :=
        (hstopped u hu).resolve_right (by simp)
      obtain ⟨c, hp, rfl⟩ := wakeUp_cases h
      have hwait : (s.threads t).broadcasts = false := by rw [hp]; rfl
      refine hs.beside rfl (fun _ k hnil => ?_) (update_broadcasts hwait ?_) htrace
      · exact notifyAll_sleepers_eq_nil [t] hnil
      · rw [hp]
        rfl

theorem reachable_closing (h : threadSafeJobQueue.Reachable s) : s.Closing := by
  apply h.invariant
  · rintro s ⟨maxSize, warnSize, warnCallback, clearCallback, hs⟩
    unfold construct at hs
    split at hs
    · cases hs
    · cases hs
      exact ⟨by simp, by simp, by simp, by simp, by simp⟩
  · intro s s' a hr hs _ hstep
    exact step_closing hstep (reachable_sleepers hr) hs

theorem step_getJobs_of_closed {t : T} {fetchJobs : List J} {n : Nat} (hrun : s.run = false)
    (hc : s.Entering t (.getJobsAndWait fetchJobs n)) (throws : Bool) :
    s.step (.enter t throws) = some ((s.log (.closed t fetchJobs)).goto t .idle) := by
  rw [enter_of_ready hc (ready_of_closed hrun _), ← getJobs_eq_closed hrun t fetchJobs n]
  rfl

theorem step_producer_of_closed {t : T} {c : JobCall J} (hrun : s.run = false)
    (hmax : 0 < s.maxSize) (hc : s.Entering t c) (hproduces : c.produces = true) (throws : Bool) :
    s.step (.enter t throws) = some ((s.log (.refused t c)).goto t .idle) := by
  have hspace := JobCall.waitsOn_of_produces hproduces
  rw [enter_of_ready hc (ready_of_closed hrun c), critical_eq_refused hmax hrun hspace]

omit [DecidableEq T] in
theorem not_wait_of_released (hslp : s.Sleepers) (hcond : s.cond = []) (hspace : s.condSpace = [])
    (u : T) (c : JobCall J) : s.threads u ≠ .wait c := by
  intro hu
  obtain ⟨k, hk⟩ := Option.ne_none_iff_exists'.mp (hslp.waits u c hu)
  have hmem : u ∈ s.sleepers k := (hslp.mem k u).mpr (by rw [hu]; exact hk)
  cases k with
  | cond => rw [show s.sleepers .cond = [] from hcond] at hmem; cases hmem
  | condSpace => rw [show s.sleepers .condSpace = [] from hspace] at hmem; cases hmem

end JobQueue

section Released

variable [DecidableEq T]

/-- After `stop` has returned nobody is asleep, and nobody goes to sleep again: every predicate is
true. A `get_jobs_and_wait` that has not taken its jobs returns false and leaves the vector of its
caller alone, and the producers of a bounded queue return without touching the queue. -/
theorem released_after_stop {s : JobQueue T J} (h : threadSafeJobQueue.Reachable s) {t : T}
    (hstop : .stopped t ∈ s.trace) :
    (s.cond = [] ∧ s.condSpace = [] ∧ ∀ u c, s.threads u ≠ .wait c) ∧
      ((∀ c, s.Ready c) ∧ ∀ a s', s.step a = some s' → ∀ u c, s'.threads u ≠ .wait c) ∧
      (∀ u fetchJobs n throws, s.Entering u (.getJobsAndWait fetchJobs n) →
        s.step (.enter u throws) = some ((s.log (.closed u fetchJobs)).goto u .idle)) ∧
      (0 < s.maxSize → ∀ u c throws, s.Entering u c → c.produces = true →
        s.step (.enter u throws) = some ((s.log (.refused u c)).goto u .idle)) := by
  have hslp := JobQueue.reachable_sleepers h
  have hcl := JobQueue.reachable_closing h
  obtain ⟨hrun, hcond, hspace⟩ := hcl.released t hstop
  refine ⟨⟨hcond, hspace, JobQueue.not_wait_of_released hslp hcond hspace⟩,
    ⟨JobQueue.ready_of_closed hrun, fun a s' hstep => ?_⟩,
    fun u fetchJobs n throws hu => JobQueue.step_getJobs_of_closed hrun hu throws,
    fun hmax u c throws hu hc => JobQueue.step_producer_of_closed hrun hmax hu hc throws⟩
  -- the next state is one after `stop` as well
  have hnext := JobQueue.step_closing hstep hslp hcl
  obtain ⟨es, htrace⟩ : ∃ es, s'.trace = s.trace ++ es := (JobQueue.step_logs hstep).grows
  have hstop' : .stopped t ∈ s'.trace := by
    rw [htrace]
    exact List.mem_append_left es hstop
  obtain ⟨-, hcond', hspace'⟩ := hnext.released t hstop'
  exact JobQueue.not_wait_of_released (JobQueue.step_sleepers hstep hslp) hcond' hspace'

/-- A producer and a consumer are asleep when `stop` comes. -/
theorem released_after_stop_sleepers :
    ∃ s : JobQueue Nat Nat, threadSafeJobQueue.Reachable s ∧
      (s.Entering 1 (.emplace 6) ∧ s.Entering 2 (.getJobsAndWait [4] 1)) ∧
        s.cond = [] ∧ s.condSpace = [] ∧ (∀ c, s.Ready c) ∧
        s.step (.enter 1 false) = some ((s.log (.refused 1 (.emplace 6))).goto 1 .idle) ∧
        s.step (.enter 2 false) = some ((s.log (.closed 2 [4])).goto 2 .idle) := by
  have hinit : threadSafeJobQueue.Reachable
      ({ maxSize := 1, warnSize := 1, warnCallback := true, clearCallback := true, run := true,
         queue := [], warnTriggered := false, cond := [], condSpace := [],
         threads := fun _ => .idle, trace := [] } : JobQueue Nat Nat) :=
    .init ⟨1, 1, true, true, rfl⟩
  obtain ⟨s, hr, hmax, hstop, h1, h2⟩ := hinit.exists_of_run
    (p := fun s => s.maxSize = 1 ∧ .stopped 3 ∈ s.trace ∧ s.threads 1 = .woken (.emplace 6) ∧
      s.threads 2 = .woken (.getJobsAndWait [4] 1))
    [.call 2 (.getJobsAndWait [4] 1), .enter 2 false, .call 0 (.emplace 5), .enter 0 false,
      .call 1 (.emplace 6), .enter 1 false, .call 3 .stop, .enter 3 false, .notify 3 none,
      .enter 3 false, .notify 3 none, .notify 3 none] (by decide)
  obtain ⟨⟨hcond, hspace, -⟩, ⟨hready, -⟩, hgets, hputs⟩ := released_after_stop hr hstop
  exact ⟨s, hr, ⟨.inr h1, .inr h2⟩, hcond, hspace, hready,
    hputs (by rw [hmax]; decide) 1 _ false (.inr h1) rfl, hgets 2 [4] 1 false (.inr h2)⟩

end Released

/-! ## The jobs that `stop` leaves behind -/

/-- The jobs that the event hands over: to a consumer, or to the clear callback. -/
def JobEvent.handedOver : JobEvent T J → List J
  | .delivered _ _ fetchJobs => fetchJobs
  | .clearCallback job => [job]
  | _ => []

/-- The jobs handed over so far. -/
def handedOver (t : List (JobEvent T J)) : List J := t.flatMap JobEvent.handedOver

namespace JobQueue

/-- What a thread finds when it takes the mutex at `pc`: `stop`, which sets `run_` to false, finds the
queue still as empty as it has left it; a producer of an unlimited queue finds it open. -/
def FindsInTime (s : JobQueue T J) : JobPc J → Prop
  | .stopRun => s.queue = []
  | .lock c | .woken c => c.produces = true → s.maxSize = 0 → s.run = true
  | _ => True

instance [DecidableEq J] (s : JobQueue T J) : ∀ pc, Decidable (s.FindsInTime pc)
  | .stopRun => inferInstanceAs (Decidable (_ = _))
  | .lock _ | .woken _ => inferInstanceAs (Decidable (_ → _ → _))
  | .idle | .wait _ | .notify _ | .stopCond | .stopCondSpace => isTrue trivial

/-- The condition under which `stop` strands nothing. -/
def PushesInTime (s : JobQueue T J) : JobAct T J → Prop
  | .enter t _ => s.FindsInTime (s.threads t)
  | _ => True

instance [DecidableEq J] (s : JobQueue T J) : ∀ a, Decidable (s.PushesInTime a)
  | .enter t _ => inferInstanceAs (Decidable (s.FindsInTime (s.threads t)))
  | .call _ _ | .notify _ _ | .wakeUp _ => isTrue trivial

variable [DecidableEq T] {s s' : JobQueue T J}

/-- A step that breaks the condition leaves jobs in a closed queue. -/
theorem stranded_of_not_pushesInTime {a : JobAct T J} (h : s.step a = some s')
    (hnot : ¬ s.PushesInTime a) : s'.run = false ∧ s'.queue ≠ [] := by
  cases a with
  | enter t throws =>
      rcases enter_cases h with ⟨c, hc, hs'⟩ | ⟨hp, rfl⟩
      · obtain ⟨hproduces, hmax, hrun⟩ : c.produces = true ∧ s.maxSize = 0 ∧ s.run = false := by
          change ¬ s.FindsInTime (s.threads t) at hnot
          rcases hc with hp | hp <;> rw [hp] at hnot <;> simpa [FindsInTime] using hnot
        obtain ⟨-, rfl⟩ := hs'.resolve_left fun hs' => hs'.1 (ready_of_closed hrun c)
        rw [critical_eq_push (by omega) (JobCall.waitsOn_of_produces hproduces), push_run,
          (push_queue s t c throws).1]
        refine ⟨hrun, fun hnil => ?_⟩
        have hjobs := (List.append_eq_nil_iff.mp hnil).2
        simp [JobCall.produces, hjobs] at hproduces
      · refine ⟨rfl, fun hnil => hnot ?_⟩
        change s.FindsInTime (s.threads t)
        rw [hp]
        exact hnil
  | call _ _ | notify _ _ | wakeUp _ => exact absurd trivial hnot

/-- What is in a closed queue stays there, but for another `clear`. -/
theorem kept_in_closed {a : JobAct T J} (h : s.step a = some s') (hrun : s.run = false) :
    (∃ t throws, a = .enter t throws ∧ (s.Entering t .clear ∨ s.Entering t .stop)) ∨
      s.queue <+: s'.queue := by
  cases step_logs h with
  | quiet es _ _ _ hqueue _ _ => exact .inr (hqueue ▸ List.prefix_refl _)
  | delivered t n hopen _ _ _ _ =>
      rw [hopen] at hrun
      cases hrun
  | accepted t c throws _ _ _ _ hs' =>
      subst hs'
      rw [(push_queue s t c throws).1]
      exact .inr (List.prefix_append _ _)
  | cleared hclear _ _ _ _ => exact .inl hclear

end JobQueue

/-- A queue without jobs or threads. -/
def emptyQueue {T : Type} (maxSize : Nat) : JobQueue T Nat where
  maxSize := maxSize
  warnSize := 0
  warnCallback := false
  clearCallback := true
  run := true
  queue := []
  warnTriggered := false
  cond := []
  condSpace := []
  threads _ := .idle
  trace := []

theorem emptyQueue_init [DecidableEq T] (maxSize : Nat) :
    threadSafeJobQueue.init (emptyQueue maxSize : JobQueue T Nat) := by
  refine ⟨maxSize, 0, false, true, ?_⟩
  rw [JobQueue.construct, if_neg (by simp)]
  rfl

/-- A job that comes between the two critical sections of `stop` is stranded; and so is one that
comes into an unlimited queue behind them. -/
theorem stranded_by_stop :
    (∃ s : JobQueue Nat Nat, threadSafeJobQueue.Reachable s ∧ (s.clearCallback = true ∧
      s.maxSize = 2 ∧ .stopped 1 ∈ s.trace ∧ s.queue = [5] ∧ acceptedJobs s.trace = [5] ∧
      handedOver s.trace = [])) ∧
    ∃ s : JobQueue Nat Nat, threadSafeJobQueue.Reachable s ∧ (s.clearCallback = true ∧ s.maxSize = 0 ∧
      .stopped 1 ∈ s.trace ∧ s.queue = [5] ∧ acceptedJobs s.trace = [5] ∧
      handedOver s.trace = []) := by
  have hinit (maxSize : Nat) : threadSafeJobQueue.Reachable (emptyQueue maxSize : JobQueue Nat Nat) :=
    .init (emptyQueue_init maxSize)
  constructor
  · exact (hinit 2).exists_of_run
      [.call 1 .stop, .enter 1 false, .call 0 (.emplace 5), .enter 0 false, .notify 1 none,
        .enter 1 false, .notify 1 none, .notify 1 none] (by decide)
  · exact (hinit 0).exists_of_run
      [.call 1 .stop, .enter 1 false, .enter 1 false, .call 0 (.emplace 5), .enter 0 false,
        .notify 1 none, .notify 1 none] (by decide)

end VideoStream
