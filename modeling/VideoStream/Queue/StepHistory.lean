import VideoStream.Queue.Sleepers

/-!
# What a step logs

Seen from the queue and its history, a step delivers, pushes, clears, or leaves the queue alone
(`step_logs`). The sizes and the callbacks never change (`step_config`).
-/

namespace VideoStream

open Library

variable {T J : Type}

/-- The events of the calls themselves, and of `stop`; they belong neither to a job nor to a
callback. -/
def JobEvent.isBookkeeping : JobEvent T J → Bool
  | .called _ _ | .refused _ _ | .closed _ _ | .stopped _ => true
  | _ => false

theorem JobEvent.isQuiet_of_isBookkeeping {e : JobEvent T J} (h : e.isBookkeeping = true) :
    e.isQuiet = true := by
  cases e <;> first | rfl | cases h

namespace JobQueue

/-! ## The configuration -/

/-- What the constructor has set. -/
structure SameConfig (s s' : JobQueue T J) : Prop where
  maxSize : s'.maxSize = s.maxSize
  warnSize : s'.warnSize = s.warnSize
  warnCallback : s'.warnCallback = s.warnCallback
  clearCallback : s'.clearCallback = s.clearCallback

theorem SameConfig.trans {s₁ s₂ s₃ : JobQueue T J} (h : s₁.SameConfig s₂) (h' : s₂.SameConfig s₃) :
    s₁.SameConfig s₃ :=
  ⟨h'.maxSize.trans h.maxSize, h'.warnSize.trans h.warnSize,
    h'.warnCallback.trans h.warnCallback, h'.clearCallback.trans h.clearCallback⟩

theorem sameConfig_checkQueueLength (s : JobQueue T J) : s.SameConfig s.checkQueueLength := by
  unfold checkQueueLength
  split
  · exact ⟨rfl, rfl, rfl, rfl⟩
  · split
    · exact ⟨rfl, rfl, rfl, rfl⟩
    · exact ⟨rfl, rfl, rfl, rfl⟩

/-- The push of the jobs of the call would make `check_queue_length` call the callback. -/
def WarnsAt (s : JobQueue T J) (c : JobCall J) : Prop :=
  (s.warnCallback = true ∧ 0 < s.warnSize) ∧ s.warnSize ≤ s.queue.length + c.jobs.length ∧
    s.warnTriggered = false

instance (s : JobQueue T J) (c : JobCall J) : Decidable (s.WarnsAt c) :=
  inferInstanceAs (Decidable ((_ ∧ _) ∧ _ ∧ _))

theorem accept_warns (s : JobQueue T J) (t : T) (c : JobCall J) :
    (s.accept t c).Warns ↔ s.WarnsAt c := by
  unfold Warns WarnsAt accept
  show (_ ∧ s.warnSize ≤ (pushLoop s.queue c.jobs).length ∧ _) ↔ _
  rw [pushLoop_eq, List.length_append]
  exact Iff.rfl

variable [DecidableEq T] {s s' : JobQueue T J}

theorem sameConfig_notifyAll (s : JobQueue T J) (l : List T) : s.SameConfig (s.notifyAll l) := by
  induction l generalizing s with
  | nil => exact ⟨rfl, rfl, rfl, rfl⟩
  | cons t l ih =>
      have hwake : s.SameConfig (s.wake t) := ⟨rfl, rfl, rfl, rfl⟩
      exact hwake.trans (ih (s.wake t))

theorem sameConfig_push (s : JobQueue T J) (t : T) (c : JobCall J) (throws : Bool) :
    s.SameConfig (s.push t c throws) := by
  have hcheck := sameConfig_checkQueueLength (s.accept t c)
  unfold push
  split
  · exact ⟨hcheck.maxSize, hcheck.warnSize, hcheck.warnCallback, hcheck.clearCallback⟩
  · exact ⟨hcheck.maxSize, hcheck.warnSize, hcheck.warnCallback, hcheck.clearCallback⟩

theorem sameConfig_critical (s : JobQueue T J) (t : T) (throws : Bool) (c : JobCall J) :
    s.SameConfig (s.critical t throws c) := by
  apply critical_elim (P := fun _ s' => s.SameConfig s')
  · intro _ _ _
    exact ⟨rfl, rfl, rfl, rfl⟩
  · intro _ _ _
    exact ⟨rfl, rfl, rfl, rfl⟩
  · intro _ _ _ _
    exact ⟨rfl, rfl, rfl, rfl⟩
  · intro c _ _
    exact sameConfig_push s t c throws
  · exact ⟨rfl, rfl, rfl, rfl⟩
  · exact ⟨rfl, rfl, rfl, rfl⟩

theorem step_config {a : JobAct T J} (h : s.step a = some s') : s.SameConfig s' := by
  cases a with
  | call t c =>
      obtain ⟨-, ⟨-, rfl⟩ | ⟨-, rfl⟩⟩ := call_cases h
      · exact ⟨rfl, rfl, rfl, rfl⟩
      · exact ⟨rfl, rfl, rfl, rfl⟩
  | enter t throws =>
      rcases enter_cases h with ⟨c, -, ⟨-, rfl⟩ | ⟨-, rfl⟩⟩ | ⟨-, rfl⟩
      · cases c <;> exact ⟨rfl, rfl, rfl, rfl⟩
      · exact sameConfig_critical s t throws c
      · exact ⟨rfl, rfl, rfl, rfl⟩
  | notify t woken =>
      obtain ⟨k, pc, l, s₀, -, -, -, hs₀, rfl⟩ := notify_cases h
      have hgoto : s.SameConfig (s₀.goto t pc) := by
        rcases hs₀ with rfl | ⟨-, rfl⟩ <;> exact ⟨rfl, rfl, rfl, rfl⟩
      exact hgoto.trans (sameConfig_notifyAll _ l)
  | wakeUp t =>
      obtain ⟨-, -, rfl⟩ := wakeUp_cases h
      exact ⟨rfl, rfl, rfl, rfl⟩

/-! ## The history -/

/-- The step of `a`, seen from the queue and its history. -/
inductive Logs (s : JobQueue T J) (a : JobAct T J) (s' : JobQueue T J) : Prop
  | quiet (es : List (JobEvent T J)) : s'.trace = s.trace ++ es →
      (∀ e ∈ es, e.isBookkeeping = true) →
      (∀ t, .stopped t ∈ es → s.threads t = .stopCondSpace ∧ ∃ woken, a = .notify t woken) →
      s'.queue = s.queue → s'.warnTriggered = s.warnTriggered →
      (s'.run = s.run ∨ ∃ t throws, a = .enter t throws ∧ s.threads t = .stopRun) → Logs s a s'
  | delivered (t : T) (n : Nat) : s.run = true →
      s'.trace = s.trace ++ [.delivered t n (s.queue.take n)] → s'.queue = s.queue.drop n →
      s'.warnTriggered = s.warnTriggered → s'.run = s.run → Logs s a s'
  | accepted (t : T) (c : JobCall J) (throws : Bool) : a = .enter t throws → s.Entering t c →
      s.Ready c → (0 < s.maxSize → s.run = true) → s' = s.push t c throws → Logs s a s'
  | cleared : (∃ t throws, a = .enter t throws ∧ (s.Entering t .clear ∨ s.Entering t .stop)) →
      s'.trace = s.trace ++ s.queue.flatMap (clearedEvents s.clearCallback) →
      s'.queue = [] → s'.warnTriggered = s.warnTriggered → s'.run = s.run → Logs s a s'

theorem critical_logs {t : T} {throws : Bool} {c : JobCall J} (hc : s.Entering t c)
    (hready : s.Ready c) : s.Logs (.enter t throws) (s.critical t throws c) := by
  revert hc hready
  apply critical_elim (P := fun c s' => s.Entering t c → s.Ready c → s.Logs (.enter t throws) s')
  · intro fetchJobs n _ _ _
    exact .quiet [.closed t fetchJobs] rfl (by simp [JobEvent.isBookkeeping]) (by simp) rfl rfl
      (.inl rfl)
  · intro fetchJobs n hrun _ _
    exact .delivered t n hrun rfl rfl rfl rfl
  · intro c _ _ _ _ _
    exact .quiet [.refused t c] rfl (by simp [JobEvent.isBookkeeping]) (by simp) rfl rfl (.inl rfl)
  · intro c _ hopen hc hready
    exact .accepted t c throws rfl hc hready hopen rfl
  · intro hc _
    exact .cleared ⟨t, throws, rfl, .inl hc⟩ (clearLoop_eq _ _ _) rfl rfl rfl
  · intro hc _
    exact .cleared ⟨t, throws, rfl, .inr hc⟩ (clearLoop_eq _ _ _) rfl rfl rfl

theorem step_logs {a : JobAct T J} (h : s.step a = some s') : s.Logs a s' := by
  cases a with
  | call t c =>
      have hlog : ∀ e ∈ [JobEvent.called (T := T) t c], e.isBookkeeping = true := by
        simp [JobEvent.isBookkeeping]
      obtain ⟨-, ⟨-, rfl⟩ | ⟨-, rfl⟩⟩ := call_cases h
      · exact .quiet _ rfl hlog (by simp) rfl rfl (.inl rfl)
      · exact .quiet _ rfl hlog (by simp) rfl rfl (.inl rfl)
  | enter t throws =>
      rcases enter_cases h with ⟨c, hc, ⟨-, rfl⟩ | ⟨hready, rfl⟩⟩ | ⟨hp, rfl⟩
      · have hsame := sameQueue_sleep s t c
        exact .quiet [] (by rw [hsame.trace, List.append_nil]) (by simp) (by simp) hsame.queue
          hsame.warnTriggered (.inl hsame.run)
      · exact critical_logs hc hready
      · exact .quiet [] (by simp) (by simp) (by simp) rfl rfl (.inr ⟨t, throws, rfl, hp⟩)
  | notify t woken =>
      obtain ⟨k, pc, l, s₀, -, -, -, hs₀, rfl⟩ := notify_cases h
      have hsame := sameQueue_notifyAll (s₀.goto t pc) l
      rcases hs₀ with rfl | ⟨hp, rfl⟩
      · exact .quiet [] (by rw [hsame.trace, goto_trace, List.append_nil]) (by simp) (by simp)
          hsame.queue hsame.warnTriggered (.inl hsame.run)
      · exact .quiet [.stopped t] hsame.trace (by simp [JobEvent.isBookkeeping]) (by simp [hp])
          hsame.queue hsame.warnTriggered (.inl hsame.run)
  | wakeUp t =>
      obtain ⟨-, -, rfl⟩ := wakeUp_cases h
      exact .quiet [] (List.append_nil _).symm (by simp) (by simp) rfl rfl (.inl rfl)

/-- The callback throws: the exception leaves the call before its notification. -/
theorem push_throws {t : T} {c : JobCall J} {throws : Bool} (h : s.WarnsAt c ∧ throws = true) :
    s.push t c throws = ((s.accept t c).checkQueueLength.log (.threw t)).goto t .idle := by
  unfold push
  rw [if_pos ⟨(s.accept_warns t c).mpr h.1, h.2⟩]

theorem push_returns {t : T} {c : JobCall J} {throws : Bool} (h : ¬ (s.WarnsAt c ∧ throws = true)) :
    s.push t c throws = (s.accept t c).checkQueueLength.goto t (.notify c) := by
  unfold push
  rw [if_neg fun hthrows => h ⟨(s.accept_warns t c).mp hthrows.1, hthrows.2⟩]

theorem push_threads_of_throws {t : T} {c : JobCall J} {throws : Bool}
    (h : s.WarnsAt c ∧ throws = true) :
    (s.push t c throws).threads = Function.update s.threads t .idle := by
  rw [push_throws h, goto_threads, log, (s.accept t c).checkQueueLength_cases.2.2.1]
  rfl

theorem push_threads_of_returns {t : T} {c : JobCall J} {throws : Bool}
    (h : ¬ (s.WarnsAt c ∧ throws = true)) :
    (s.push t c throws).threads = Function.update s.threads t (.notify c) := by
  rw [push_returns h, goto_threads, (s.accept t c).checkQueueLength_cases.2.2.1]
  rfl

theorem push_run (s : JobQueue T J) (t : T) (c : JobCall J) (throws : Bool) :
    (s.push t c throws).run = s.run := by
  have hcheck : (s.accept t c).checkQueueLength.run = s.run := by
    unfold checkQueueLength
    split
    · rfl
    · split <;> rfl
  unfold push
  split
  · exact hcheck
  · exact hcheck

/-- Only `stop` closes the queue. -/
theorem Logs.run {a : JobAct T J} (h : s.Logs a s') :
    s'.run = s.run ∨ ∃ t throws, a = .enter t throws ∧ s.threads t = .stopRun := by
  cases h with
  | quiet es _ _ _ _ _ hrun => exact hrun
  | delivered t n _ _ _ _ hrun => exact .inl hrun
  | accepted t c throws _ _ _ _ hs' => exact .inl (hs' ▸ push_run s t c throws)
  | cleared _ _ _ _ hrun => exact .inl hrun

theorem Logs.grows {a : JobAct T J} (h : s.Logs a s') : ∃ es, s'.trace = s.trace ++ es := by
  cases h with
  | quiet es htrace _ _ _ _ _ => exact ⟨es, htrace⟩
  | delivered t n _ htrace _ _ _ => exact ⟨_, htrace⟩
  | accepted t c throws _ _ _ _ hs' =>
      obtain ⟨es, htrace, -⟩ := push_history s t c throws
      exact ⟨_, hs' ▸ htrace⟩
  | cleared _ htrace _ _ _ => exact ⟨_, htrace⟩

/-- The last step of `stop`. -/
theorem Logs.stopped {a : JobAct T J} (h : s.Logs a s') {u : T} (hu : .stopped u ∈ s'.trace) :
    .stopped u ∈ s.trace ∨ s.threads u = .stopCondSpace ∧ ∃ woken, a = .notify u woken := by
  have hold {es : List (JobEvent T J)} (htrace : s'.trace = s.trace ++ es)
      (hes : ∀ e ∈ es, e ≠ .stopped u) : .stopped u ∈ s.trace := by
    rw [htrace, List.mem_append] at hu
    exact hu.resolve_right fun hmem => hes _ hmem rfl
  cases h with
  | quiet es htrace _ hstopped _ _ _ =>
      rw [htrace, List.mem_append] at hu
      exact hu.imp_right (hstopped u)
  | delivered t n _ htrace _ _ _ => exact .inl (hold htrace (by simp))
  | accepted t c throws _ _ _ _ hs' =>
      subst hs'
      obtain ⟨es, htrace, hwarning⟩ := push_history s t c throws
      refine .inl (hold htrace fun e he => ?_)
      rcases List.mem_cons.mp he with rfl | he
      · simp
      · rintro rfl
        cases hwarning _ he
  | cleared _ htrace _ _ _ =>
      refine .inl (hold htrace fun e he => ?_)
      obtain ⟨job, -, hjob⟩ := List.mem_flatMap.mp he
      rcases eq_of_mem_clearedEvents hjob with rfl | rfl <;> simp

end JobQueue

end VideoStream
