import VideoStream.Queue.WakeUps

/-!
# The warning

`check_queue_length` runs at the end of a push. Its flag, which keeps it from warning twice, is reset
by pushes only: it does not see consumers and `clear` take the queue below the threshold.

* The flag is reset exactly where some push since the last call has left the queue below the threshold
  (`reachable_flagTold`).
* The callback is called at the pushes that end an excursion below the threshold, if before every push
  that crosses the threshold there was such a push (`warns_once_of_noticed`).
* It is called with the jobs pushed, the flag set, and nobody notified. If it throws, all of that
  stays (`leftAsItWas_iff`).
-/

namespace VideoStream

open Library Fifo

variable {T J : Type}

/-- Right behind a push: the callback is called. -/
def Called (b : List (JobEvent T J)) : Prop := ∃ size b', b = .warnCallback size :: b'

/-- Since the last call of the callback, or since the construction, the queue was shorter than `n` at
some moment. (Between two jobs of a `clear` it is longer than at its end, which counts as well.) -/
def BelowSince (n : Nat) (a : List (JobEvent T J)) : Prop :=
  ∃ a₁ a₂, a = a₁ ++ a₂ ∧ (∀ size, .warnCallback size ∉ a₂) ∧ (queueAfter a₁).length < n

def JobEvent.isPush : JobEvent T J → Bool
  | .accepted _ _ => true
  | _ => false

def JobEvent.isCallback : JobEvent T J → Bool
  | .warnCallback _ => true
  | _ => false

/-- Since the last call of the callback, or since the construction, some push left the queue shorter
than `n`. The construction counts as a push of nothing. -/
def ShortPushSince (n : Nat) (a : List (JobEvent T J)) : Prop :=
  ∃ a₁ a₂, a = a₁ ++ a₂ ∧ (∀ e ∈ a₁.getLast?, e.isPush = true) ∧
    (∀ e ∈ a₂, e.isCallback = false) ∧ (queueAfter a₁).length < n

instance (n : Nat) (a : List (JobEvent T J)) : Decidable (ShortPushSince n a) :=
  decidable_of_iff (∃ i, i ≤ a.length ∧ (∀ e ∈ (a.take i).getLast?, e.isPush = true) ∧
      (∀ e ∈ a.drop i, e.isCallback = false) ∧ (queueAfter (a.take i)).length < n) <| by
    constructor
    · rintro ⟨i, -, h⟩
      exact ⟨a.take i, a.drop i, (List.take_append_drop i a).symm, h⟩
    · rintro ⟨a₁, a₂, rfl, h⟩
      refine ⟨a₁.length, by simp, ?_⟩
      rwa [List.take_left, List.drop_left]

/-- The callback is called at a push iff the queue is not shorter than `n` behind it, and was so since
the last call. -/
def WarnsOnce (n : Nat) (trace : List (JobEvent T J)) : Prop :=
  ∀ a t c b, trace = a ++ .accepted t c :: b →
    (Called b ↔ n ≤ (queueAfter (a ++ [.accepted t c])).length ∧ BelowSince n a)

/-- The exception of the callback leaves the call of `t` in this step. -/
def Threw (s s' : JobQueue T J) (t : T) : Prop := ∃ es, s'.trace = s.trace ++ es ∧ .threw t ∈ es

/-! ## Histories that grow -/

section Grow

variable {n : Nat} {a es : List (JobEvent T J)}

theorem BelowSince.of_short (h : (queueAfter a).length < n) : BelowSince n a :=
  ⟨a, [], (List.append_nil a).symm, by simp, h⟩

theorem BelowSince.append (h : BelowSince n a) (hes : ∀ size, .warnCallback size ∉ es) :
    BelowSince n (a ++ es) := by
  obtain ⟨a₁, a₂, rfl, hnone, hshort⟩ := h
  refine ⟨a₁, a₂ ++ es, List.append_assoc _ _ _, fun size hmem => ?_, hshort⟩
  rcases List.mem_append.mp hmem with hmem | hmem
  · exact hnone size hmem
  · exact hes size hmem

/-- A longer history: the moment was before, or is the last one. -/
theorem BelowSince.of_concat {e : JobEvent T J} (h : BelowSince n (a ++ [e])) :
    BelowSince n a ∧ (∀ size, e ≠ .warnCallback size) ∨ (queueAfter (a ++ [e])).length < n := by
  obtain ⟨a₁, a₂, happ, hnone, hshort⟩ := h
  rcases List.eq_nil_or_concat a₂ with rfl | ⟨a₂', e', rfl⟩
  · rw [List.append_nil] at happ
    exact .inr (happ ▸ hshort)
  · rw [List.concat_eq_append, ← List.append_assoc] at happ
    obtain ⟨rfl, rfl⟩ := List.append_inj' happ rfl |>.imp_right List.singleton_inj.mp
    refine .inl ⟨⟨a₁, a₂', rfl, fun size hmem => hnone size ?_, hshort⟩, fun size he => ?_⟩
    · simp [hmem]
    · exact hnone size (by simp [he])

theorem queueAfter_append_quiet (hes : ∀ e ∈ es, e.isQuiet = true) :
    queueAfter (a ++ es) = queueAfter a := by
  show (acceptedJobs (a ++ es)).drop (removedJobs (a ++ es)).length = _
  rw [acceptedJobs_append, removedJobs_append, acceptedJobs_of_isQuiet hes,
    removedJobs_of_isQuiet hes, List.append_nil, List.append_nil]
  rfl

/-- Events that leave the queue alone bring no new moment. -/
theorem BelowSince.of_quiet (h : BelowSince n (a ++ es)) (hes : ∀ e ∈ es, e.isQuiet = true) :
    BelowSince n a := by
  obtain ⟨a₁, a₂, happ, hnone, hshort⟩ := h
  rcases List.append_eq_append_iff.mp happ with ⟨e₁, rfl, rfl⟩ | ⟨e₁, rfl, rfl⟩
  · rw [queueAfter_append_quiet fun e he => hes e (List.mem_append_left _ he)] at hshort
    exact .of_short hshort
  · exact ⟨a₁, e₁, rfl, fun size hmem => hnone size (List.mem_append_left _ hmem), hshort⟩

theorem called_append {b : List (JobEvent T J)} (hes : ∀ size b', es ≠ .warnCallback size :: b') :
    Called (b ++ es) ↔ Called b := by
  cases b with
  | nil =>
      constructor
      · intro h
        obtain ⟨size, b', h⟩ := h
        exact absurd h (hes size b')
      · intro h
        obtain ⟨size, b', h⟩ := h
        cases h
  | cons e b =>
      constructor
      · intro h
        obtain ⟨size, b', h⟩ := h
        cases h
        exact ⟨size, b, rfl⟩
      · intro h
        obtain ⟨size, b', h⟩ := h
        cases h
        exact ⟨size, b ++ es, rfl⟩

/-- The history goes on by `es`, in which a push can only be the first event. -/
theorem WarnsOnce.append (h : WarnsOnce n a) (hes : ∀ size b', es ≠ .warnCallback size :: b')
    (hpush : ∀ e₁ t c b, es = e₁ ++ .accepted t c :: b → e₁ = [] ∧
      (Called b ↔ n ≤ (queueAfter (a ++ [.accepted t c])).length ∧ BelowSince n a)) :
    WarnsOnce n (a ++ es) := by
  intro a' t c b happ
  rcases List.append_eq_append_iff.mp happ with ⟨e₁, rfl, hnew⟩ | ⟨e₁, hold, hnew⟩
  · obtain ⟨rfl, hcalled⟩ := hpush e₁ t c b hnew
    rw [List.append_nil]
    exact hcalled
  · cases e₁ with
    | nil =>
        rw [List.append_nil] at hold
        subst hold
        obtain ⟨-, hcalled⟩ := hpush [] t c b hnew.symm
        exact hcalled
    | cons e e₁ =>
        cases hnew
        show Called (e₁ ++ es) ↔ _
        rw [called_append hes]
        exact h a' t c e₁ hold

/-- One more event is a short push itself, or leaves the old one in place. -/
theorem shortPushSince_concat {e : JobEvent T J} : ShortPushSince n (a ++ [e]) ↔
    e.isPush = true ∧ (queueAfter (a ++ [e])).length < n ∨
      e.isCallback = false ∧ ShortPushSince n a := by
  constructor
  · rintro ⟨a₁, a₂, happ, hpush, hnone, hshort⟩
    rcases List.eq_nil_or_concat a₂ with rfl | ⟨a₂', e', rfl⟩
    · rw [List.append_nil] at happ
      subst happ
      exact .inl ⟨hpush e (by simp), hshort⟩
    · rw [List.concat_eq_append, ← List.append_assoc] at happ
      obtain ⟨rfl, he⟩ := List.append_inj' happ rfl
      obtain rfl := List.singleton_inj.mp he
      refine .inr ⟨hnone e (by simp), a₁, a₂', rfl, hpush, fun e' he' => hnone e' ?_, hshort⟩
      simp [he']
  · rintro (⟨hpush, hshort⟩ | ⟨hcall, a₁, a₂, rfl, hpush, hnone, hshort⟩)
    · exact ⟨a ++ [e], [], by simp, by simpa using hpush, by simp, hshort⟩
    · refine ⟨a₁, a₂ ++ [e], by simp, hpush, fun e' he' => ?_, hshort⟩
      rcases List.mem_append.mp he' with he' | he'
      · exact hnone e' he'
      · rwa [List.mem_singleton.mp he']

/-- Neither pushes nor calls of the callback. -/
theorem shortPushSince_append (hpush : ∀ e ∈ es, e.isPush = false)
    (hcall : ∀ e ∈ es, e.isCallback = false) :
    ShortPushSince n (a ++ es) ↔ ShortPushSince n a := by
  induction es using List.reverseRecOn with
  | nil => rw [List.append_nil]
  | append_singleton es e ih =>
      rw [← List.append_assoc, shortPushSince_concat, hpush e (by simp), hcall e (by simp),
        ih (fun e' he' => hpush e' (by simp [he'])) fun e' he' => hcall e' (by simp [he'])]
      simp

/-- A short push is a moment at which the queue was short. -/
theorem ShortPushSince.belowSince (h : ShortPushSince n a) : BelowSince n a := by
  obtain ⟨a₁, a₂, happ, -, hnone, hshort⟩ := h
  refine ⟨a₁, a₂, happ, fun size hmem => ?_, hshort⟩
  cases hnone _ hmem

end Grow

/-! ## The flag -/

namespace JobQueue

/-- The condition under which no excursion is missed: before a push that takes the queue over the
threshold, some push since the last call of the callback has left the queue below it. -/
def NoticesAt (s : JobQueue T J) : JobPc J → Prop
  | .lock c | .woken c =>
      s.Ready c → (0 < s.maxSize → s.run = true) → s.queue.length < s.warnSize →
        s.warnSize ≤ s.queue.length + c.jobs.length → ShortPushSince s.warnSize s.trace
  | _ => True

instance (s : JobQueue T J) : ∀ pc, Decidable (s.NoticesAt pc)
  | .lock _ | .woken _ => inferInstanceAs (Decidable (_ → _ → _ → _ → _))
  | .idle | .wait _ | .notify _ | .stopRun | .stopCond | .stopCondSpace => isTrue trivial

/-- The callback returns, and the step misses no excursion. -/
def Notices (s : JobQueue T J) : JobAct T J → Prop
  | .enter t throws => throws = false ∧ s.NoticesAt (s.threads t)
  | _ => True

instance (s : JobQueue T J) : ∀ a, Decidable (s.Notices a)
  | .enter _ _ => inferInstanceAs (Decidable (_ ∧ _))
  | .call _ _ | .notify _ _ | .wakeUp _ => isTrue trivial

/-- The flag is reset exactly where some push since the last call has left the queue short. -/
def FlagTold (s : JobQueue T J) : Prop :=
  s.warnTriggered = false ↔ ShortPushSince s.warnSize s.trace

/-- Where the flag is set, the queue is short if it was so since the last call. -/
structure Excursions (s : JobQueue T J) : Prop where
  triggered : s.warnTriggered = true → BelowSince s.warnSize s.trace →
    s.queue.length < s.warnSize
  once : WarnsOnce s.warnSize s.trace

variable [DecidableEq T] {s s' : JobQueue T J}

/-- A push whose callback is not called, or returns. -/
theorem push_warning {t : T} {c : JobCall J} {throws : Bool} (h : ¬ (s.WarnsAt c ∧ throws = true)) :
    (s.push t c throws).trace = s.trace ++ .accepted t c ::
      (if s.WarnsAt c then [.warnCallback (s.queue ++ c.jobs).length] else []) ∧
    (s.push t c throws).warnTriggered = if s.WarnsAt c then true
      else if (s.queue ++ c.jobs).length < s.warnSize then false else s.warnTriggered := by
  have hqueue : (s.accept t c).queue = s.queue ++ c.jobs := pushLoop_eq _ _
  rw [push_returns h]
  unfold checkQueueLength
  by_cases hwarns : s.WarnsAt c
  · rw [if_pos ((s.accept_warns t c).mpr hwarns), if_pos hwarns, if_pos hwarns, hqueue]
    exact ⟨List.append_assoc _ _ _, rfl⟩
  · rw [if_neg fun h => hwarns ((s.accept_warns t c).mp h), if_neg hwarns, if_neg hwarns, hqueue]
    split
    · next hshort => exact ⟨rfl, (if_pos hshort).symm⟩
    · next hlong => exact ⟨rfl, (if_neg hlong).symm⟩

/-- A push whose callback throws. -/
theorem push_warning_throws {t : T} {c : JobCall J} {throws : Bool}
    (h : s.WarnsAt c ∧ throws = true) :
    (s.push t c throws).trace =
        s.trace ++ [.accepted t c, .warnCallback (s.queue ++ c.jobs).length, .threw t] ∧
      (s.push t c throws).warnTriggered = true := by
  have hqueue : (s.accept t c).queue = s.queue ++ c.jobs := pushLoop_eq _ _
  rw [push_throws h]
  unfold checkQueueLength
  rw [if_pos ((s.accept_warns t c).mpr h.1), hqueue]
  refine ⟨?_, rfl⟩
  simp [accept, log]

/-- A push that calls the callback sets the flag, another one resets it below the threshold. -/
theorem push_flagTold {t : T} {c : JobCall J} {throws : Bool} (hfifo' : (s.push t c throws).Fifo)
    (hs : s.FlagTold) : (s.push t c throws).FlagTold := by
  unfold FlagTold
  rw [(sameConfig_push s t c throws).warnSize]
  by_cases hwarns : s.WarnsAt c
  · have hset : (s.push t c throws).warnTriggered = true ∧
        ¬ ShortPushSince s.warnSize (s.push t c throws).trace := by
      by_cases hthrows : throws = true
      · obtain ⟨htrace, hflag⟩ := push_warning_throws (t := t) ⟨hwarns, hthrows⟩
        refine ⟨hflag, fun hshort => ?_⟩
        rw [htrace, List.append_cons, List.append_cons, shortPushSince_concat,
          shortPushSince_concat] at hshort
        simp [JobEvent.isPush, JobEvent.isCallback] at hshort
      · obtain ⟨htrace, hflag⟩ := push_warning (t := t) fun h => hthrows h.2
        rw [if_pos hwarns] at htrace hflag
        refine ⟨hflag, fun hshort => ?_⟩
        rw [htrace, List.append_cons, shortPushSince_concat] at hshort
        simp [JobEvent.isPush, JobEvent.isCallback] at hshort
    rw [hset.1]
    exact iff_of_false (by simp) hset.2
  · have hnot : ¬ (s.WarnsAt c ∧ throws = true) := fun h => hwarns h.1
    obtain ⟨htrace, hflag⟩ := push_warning (t := t) hnot
    have hafter : queueAfter (s.push t c throws).trace = s.queue ++ c.jobs :=
      hfifo'.balanced.contents_eq.trans (push_queue s t c throws).1
    rw [if_neg hwarns] at htrace hflag
    rw [htrace] at hafter ⊢
    rw [hflag, shortPushSince_concat, hafter]
    split
    · next hshort => exact iff_of_true rfl (.inl ⟨rfl, hshort⟩)
    · next hlong =>
        refine hs.trans ⟨fun hold => .inr ⟨rfl, hold⟩, fun hshort => ?_⟩
        rcases hshort with ⟨-, hshort⟩ | ⟨-, hold⟩
        · exact absurd hshort hlong
        · exact hold

theorem step_flagTold {a : JobAct T J} (h : s.step a = some s') (hfifo' : s'.Fifo)
    (hs : s.FlagTold) : s'.FlagTold := by
  have hunpushed (es : List (JobEvent T J)) (htrace : s'.trace = s.trace ++ es)
      (hflag : s'.warnTriggered = s.warnTriggered)
      (hes : ∀ e ∈ es, e.isPush = false ∧ e.isCallback = false) : s'.FlagTold := by
    unfold FlagTold
    rw [hflag, (step_config h).warnSize, htrace,
      shortPushSince_append (fun e he => (hes e he).1) fun e he => (hes e he).2]
    exact hs
  cases step_logs h with
  | quiet es htrace hbook _ _ hflag _ =>
      refine hunpushed es htrace hflag fun e he => ?_
      have hbooked := hbook e he
      cases e <;> first | exact ⟨rfl, rfl⟩ | cases hbooked
  | delivered t n _ htrace _ hflag _ =>
      exact hunpushed _ htrace hflag (by simp [JobEvent.isPush, JobEvent.isCallback])
  | accepted t c throws ha hc hready hopen hs' =>
      subst hs'
      exact push_flagTold hfifo' hs
  | cleared _ htrace _ hflag _ =>
      refine hunpushed _ htrace hflag fun e he => ?_
      obtain ⟨job, -, hjob⟩ := List.mem_flatMap.mp he
      rcases eq_of_mem_clearedEvents hjob with rfl | rfl <;> exact ⟨rfl, rfl⟩

theorem reachable_flagTold (h : threadSafeJobQueue.Reachable s) (hpos : 0 < s.warnSize) :
    s.FlagTold := by
  refine h.invariant (I := fun s => 0 < s.warnSize → s.FlagTold) ?_ ?_ hpos
  · rintro s ⟨maxSize, warnSize, warnCallback, clearCallback, hs⟩ hpos
    obtain ⟨htrace, -, -⟩ := construct_ok hs
    have hflag : s.warnTriggered = false := by
      unfold construct at hs
      split at hs
      · cases hs
      · cases hs
        rfl
    unfold FlagTold
    rw [hflag, htrace]
    exact iff_of_true rfl ⟨[], [], rfl, by simp, by simp, hpos⟩
  · intro s s' a hr hs _ hstep hpos
    rw [(step_config hstep).warnSize] at hpos
    exact step_flagTold hstep (step_fifo (step_cases hstep) (reachable_fifo hr)) (hs hpos)

omit [DecidableEq T] in
/-- A step that pushes nothing, and makes the queue no longer. -/
theorem Excursions.unpushed (hs : s.Excursions) (es : List (JobEvent T J))
    (htrace : s'.trace = s.trace ++ es) (hconfig : s'.warnSize = s.warnSize)
    (hflag : s'.warnTriggered = s.warnTriggered) (hqueue : s'.queue.length ≤ s.queue.length)
    (hpush : ∀ t c, .accepted t c ∉ es) (hwarn : ∀ size, .warnCallback size ∉ es)
    (hbelow : BelowSince s.warnSize (s.trace ++ es) →
      BelowSince s.warnSize s.trace ∨ s'.queue.length < s.warnSize) : s'.Excursions := by
  refine ⟨fun hset hshort => ?_, ?_⟩
  · rw [htrace, hconfig] at hshort
    rw [hconfig]
    rcases hbelow hshort with hold | hnew
    · exact Nat.lt_of_le_of_lt hqueue (hs.triggered (hflag ▸ hset) hold)
    · exact hnew
  · rw [htrace, hconfig]
    refine hs.once.append (fun size b hes => hwarn size ?_) fun e₁ t c b hes => ?_
    · rw [hes]
      exact List.mem_cons_self
    · exact absurd (by rw [hes]; simp) (hpush t c)

/-- A push that finds the flag reset if it crosses the threshold. -/
theorem push_excursions {t : T} {c : JobCall J} (hcb : s.warnCallback = true) (hpos : 0 < s.warnSize)
    (hfifo' : (s.push t c false).Fifo) (htold : s.FlagTold)
    (hin : s.queue.length < s.warnSize → s.warnSize ≤ s.queue.length + c.jobs.length →
      s.warnTriggered = false) (hs : s.Excursions) : (s.push t c false).Excursions := by
  have hreturns : ¬ (s.WarnsAt c ∧ false = true) := by simp
  obtain ⟨htrace, hflag⟩ := push_warning (t := t) hreturns
  have hconfig := (sameConfig_push s t c false).warnSize
  have hlength : (s.push t c false).queue.length = s.queue.length + c.jobs.length := by
    rw [(push_queue s t c false).1, List.length_append]
  have hafter : queueAfter (s.push t c false).trace = (s.push t c false).queue :=
    hfifo'.balanced.contents_eq
  have hpushed : (queueAfter (s.trace ++ [.accepted t c])).length =
      s.queue.length + c.jobs.length := by
    have hquiet : ∀ e ∈ (if s.WarnsAt c then [JobEvent.warnCallback (s.queue ++ c.jobs).length]
        else [] : List (JobEvent T J)), e.isQuiet = true := by
      split <;> simp [JobEvent.isQuiet]
    rw [← hlength, ← hafter, htrace.trans (List.append_cons _ _ _), queueAfter_append_quiet hquiet]
  -- the callback is called iff the queue is long, and was short since the last call
  have hwarns : s.WarnsAt c ↔ s.warnSize ≤ s.queue.length + c.jobs.length ∧
      BelowSince s.warnSize s.trace := by
    constructor
    · intro hwarns
      exact ⟨hwarns.2.1, (htold.mp hwarns.2.2).belowSince⟩
    · intro hlong
      refine ⟨⟨hcb, hpos⟩, hlong.1, ?_⟩
      by_contra hset
      exact hset (hin (hs.triggered (by simpa using hset) hlong.2) hlong.1)
  refine ⟨fun hset hshort => ?_, ?_⟩
  · rw [hconfig] at hshort ⊢
    rw [hlength]
    by_contra hlong
    have hlast : ¬ (queueAfter (s.push t c false).trace).length < s.warnSize := by
      rw [hafter, hlength]
      exact hlong
    by_cases h : s.WarnsAt c
    · rw [htrace.trans (List.append_cons _ _ _), if_pos h] at hshort hlast
      rcases hshort.of_concat with ⟨-, hne⟩ | hlt
      · exact hne _ rfl
      · exact hlast hlt
    · rw [htrace, if_neg h] at hshort hlast
      rcases hshort.of_concat with ⟨hold, -⟩ | hlt
      · exact h (hwarns.mpr ⟨by omega, hold⟩)
      · exact hlast hlt
  · rw [htrace, hconfig]
    refine hs.once.append (by simp) fun e₁ t' c' b hes => ?_
    cases e₁ with
    | nil =>
        refine ⟨rfl, ?_⟩
        cases hes
        rw [hpushed, ← hwarns]
        split
        · next h => exact ⟨fun _ => h, fun _ => ⟨_, [], rfl⟩⟩
        · next h =>
            refine ⟨fun hnil => ?_, fun hwarn => absurd hwarn h⟩
            obtain ⟨_, _, hnil⟩ := hnil
            cases hnil
    | cons e e₁ =>
        -- the only push is the first event
        have hmem : JobEvent.accepted t' c' ∈ (if s.WarnsAt c
            then [JobEvent.warnCallback (s.queue ++ c.jobs).length] else [] : List (JobEvent T J)) := by
          rw [(List.cons.inj hes).2]
          simp
        split at hmem <;> simp at hmem

theorem step_excursions {a : JobAct T J} (h : s.step a = some s') (hcb : s.warnCallback = true)
    (hpos : 0 < s.warnSize) (hfifo : s.Fifo) (htold : s.FlagTold) (hin : s.Notices a)
    (hs : s.Excursions) : s'.Excursions := by
  have hconfig := (step_config h).warnSize
  have hfifo' : s'.Fifo := step_fifo (step_cases h) hfifo
  have hafter : queueAfter s'.trace = s'.queue := hfifo'.balanced.contents_eq
  cases step_logs h with
  | quiet es htrace hbook _ hqueue hflag _ =>
      have hquiet (e : JobEvent T J) (he : e ∈ es) := JobEvent.isQuiet_of_isBookkeeping (hbook e he)
      refine hs.unpushed es htrace hconfig hflag (hqueue ▸ Nat.le_refl _) (fun t c hmem => ?_)
        (fun size hmem => ?_) fun hbelow => .inl (hbelow.of_quiet hquiet)
      · cases hbook _ hmem
      · cases hbook _ hmem
  | delivered t n _ htrace hqueue hflag _ =>
      refine hs.unpushed _ htrace hconfig hflag ?_ (by simp) (by simp) fun hbelow => ?_
      · rw [hqueue, List.length_drop]
        exact Nat.sub_le _ _
      · rcases hbelow.of_concat with ⟨hold, -⟩ | hlast
        · exact .inl hold
        · rw [← htrace, hafter] at hlast
          exact .inr hlast
  | accepted t c throws ha hc hready hopen hs' =>
      subst ha hs'
      obtain ⟨rfl, hin⟩ := hin
      refine push_excursions hcb hpos hfifo' htold (fun hlt hle => ?_) hs
      rcases hc with hp | hp <;> rw [hp] at hin <;> exact htold.mpr (hin hready hopen hlt hle)
  | cleared _ htrace hqueue hflag _ =>
      have hevent {e : JobEvent T J} (he : e ∈ s.queue.flatMap (clearedEvents s.clearCallback)) :
          ∃ job, e = .clearCallback job ∨ e = .cleared job := by
        obtain ⟨job, -, hjob⟩ := List.mem_flatMap.mp he
        exact ⟨job, eq_of_mem_clearedEvents hjob⟩
      refine hs.unpushed _ htrace hconfig hflag (by simp [hqueue]) (fun t c hmem => ?_)
        (fun size hmem => ?_) fun _ => .inr (by rw [hqueue]; exact hpos)
      · obtain ⟨job, he | he⟩ := hevent hmem <;> cases he
      · obtain ⟨job, he | he⟩ := hevent hmem <;> cases he

/-- The condition is exact: at a push that crosses the threshold with the flag set the callback is not
called, although an excursion has ended. -/
theorem not_warnsOnce_of_not_notices {t : T} (h : s.step (.enter t false) = some s')
    (hfifo : s.Fifo) (htold : s.FlagTold) (hnot : ¬ s.Notices (.enter t false)) :
    ¬ WarnsOnce s.warnSize s'.trace := by
  obtain ⟨c, hc, hready, hopen, hlt, hle, hset⟩ : ∃ c, s.Entering t c ∧ s.Ready c ∧
      (0 < s.maxSize → s.run = true) ∧ s.queue.length < s.warnSize ∧
      s.warnSize ≤ s.queue.length + c.jobs.length ∧ ¬ ShortPushSince s.warnSize s.trace := by
    have hnotices : ¬ s.NoticesAt (s.threads t) := fun hnotices => hnot ⟨rfl, hnotices⟩
    cases hp : s.threads t with
    | lock c =>
        rw [hp] at hnotices
        refine ⟨c, .inl hp, ?_⟩
        simpa [NoticesAt] using hnotices
    | woken c =>
        rw [hp] at hnotices
        refine ⟨c, .inr hp, ?_⟩
        simpa [NoticesAt] using hnotices
    | _ =>
        rw [hp] at hnotices
        exact absurd trivial hnotices
  have hck : c.waitsOn = some .condSpace := by
    cases c with
    | emplace _ | batchEmplace _ => rfl
    | _ => exact absurd hle (by show ¬ _ ≤ s.queue.length + 0; omega)
  have hwarns : ¬ s.WarnsAt c := fun hwarns => hset (htold.mp hwarns.2.2)
  have hreturns : ¬ (s.WarnsAt c ∧ false = true) := by simp
  obtain ⟨htrace, -⟩ := push_warning (t := t) hreturns
  have hfifo' : (s.push t c false).Fifo := by
    have hstep := step_fifo (step_cases h) hfifo
    rwa [enter_push h hc hready hopen hck] at hstep
  have hafter : queueAfter (s.push t c false).trace = s.queue ++ c.jobs :=
    hfifo'.balanced.contents_eq.trans (push_queue s t c false).1
  rw [if_neg hwarns] at htrace
  rw [htrace] at hafter
  rw [enter_push h hc hready hopen hck, htrace]
  intro honce
  have hbelow : BelowSince s.warnSize s.trace := by
    refine .of_short ?_
    have hcontents : queueAfter s.trace = s.queue := hfifo.balanced.contents_eq
    rw [hcontents]
    exact hlt
  obtain ⟨size, b, hcalled⟩ := (honce s.trace t c [] rfl).mpr
    ⟨by rw [hafter, List.length_append]; exact hle, hbelow⟩
  cases hcalled

/-- The exception is logged last. -/
theorem push_threw {t : T} {c : JobCall J} {throws : Bool} (h : s.WarnsAt c ∧ throws = true) :
    Threw s (s.push t c throws) t :=
  ⟨_, (push_warning_throws h).1, by simp⟩

end JobQueue

/-- At every push the callback is called iff the queue is not below the threshold behind it and was
below it since the last call, if no step missed an excursion. -/
theorem warns_once_of_noticed [DecidableEq T] {s : JobQueue T J}
    (h : threadSafeJobQueue.ReachableBy JobQueue.Notices s) (hcb : s.warnCallback = true)
    (hpos : 0 < s.warnSize) : WarnsOnce s.warnSize s.trace := by
  have hinv : s.warnCallback = true → 0 < s.warnSize → s.Excursions := by
    apply h.invariant (I := fun s => s.warnCallback = true → 0 < s.warnSize → s.Excursions)
    · rintro s ⟨maxSize, warnSize, warnCallback, clearCallback, hs⟩ _ hpos
      obtain ⟨htrace, hqueue, -⟩ := JobQueue.construct_ok hs
      refine ⟨fun _ _ => by rw [hqueue]; exact hpos, fun a t c b hnil => ?_⟩
      rw [htrace] at hnil
      exact absurd hnil (by simp)
    · intro s s' a hr hs hin hstep hcb hpos
      have hconfig := JobQueue.step_config hstep
      rw [hconfig.warnCallback] at hcb
      rw [hconfig.warnSize] at hpos
      exact JobQueue.step_excursions hstep hcb hpos (JobQueue.reachable_fifo hr.reachable)
        (JobQueue.reachable_flagTold hr.reachable hpos) hin (hs hcb hpos)
  exact (hinv hcb hpos).once

/-- An unlimited queue with a warn callback, without jobs or threads. -/
def warnQueue {T : Type} (warnSize : Nat) : JobQueue T Nat :=
  { emptyQueue 0 with warnSize := warnSize, warnCallback := true }

theorem warnQueue_init [DecidableEq T] (warnSize : Nat) :
    threadSafeJobQueue.init (warnQueue warnSize : JobQueue T Nat) := by
  refine ⟨0, warnSize, true, true, ?_⟩
  rw [JobQueue.construct, if_neg (by simp)]
  rfl

/-- Two excursions: the first push of the second one leaves the queue below the threshold. -/
theorem warns_once_of_noticed_twice :
    ∃ s : JobQueue Nat Nat, threadSafeJobQueue.ReachableBy JobQueue.Notices s ∧
      s.trace.filter JobEvent.isWarning = [.warnCallback 2, .warnCallback 2] ∧
        WarnsOnce 2 s.trace := by
  have hinit : threadSafeJobQueue.ReachableBy JobQueue.Notices (warnQueue 2 : JobQueue Nat Nat) :=
    .init (warnQueue_init 2)
  obtain ⟨s, hr, hcb, hsize, htwo⟩ := hinit.exists_of_run
    (p := fun s => s.warnCallback = true ∧ s.warnSize = 2 ∧
      s.trace.filter JobEvent.isWarning = [.warnCallback 2, .warnCallback 2])
    [.call 0 (.emplace 5), .enter 0 false, .call 1 (.emplace 6), .enter 1 false,
      .call 2 (.getJobsAndWait [] 2), .enter 2 false, .call 3 (.emplace 7), .enter 3 false,
      .call 4 (.emplace 8), .enter 4 false] (by decide) (by decide)
  have honce := warns_once_of_noticed hr hcb (by rw [hsize]; decide)
  rw [hsize] at honce
  exact ⟨s, hr, htwo, honce⟩

/-- The callback returns. -/
def JobAct.returns : JobAct T J → Bool
  | .enter _ throws => !throws
  | _ => true

/-- Two excursions with a threshold of one: a consumer ends the first, unseen, and the push that begins
the second does not call the callback. -/
theorem warning_missed :
    ∃ s : JobQueue Nat Nat, threadSafeJobQueue.ReachableBy (fun _ a => a.returns = true) s ∧
      s.warnCallback = true ∧ s.warnSize = 1 ∧ ¬ WarnsOnce 1 s.trace := by
  have hinit : threadSafeJobQueue.ReachableBy (fun _ a => a.returns = true)
      (warnQueue 1 : JobQueue Nat Nat) := .init (warnQueue_init 1)
  obtain ⟨s, hr, hcb, hsize, htrace⟩ := hinit.exists_of_run
    (p := fun s => s.warnCallback = true ∧ s.warnSize = 1 ∧
      s.trace = [.called 0 (.emplace 5), .accepted 0 (.emplace 5), .warnCallback 1,
        .called 1 (.getJobsAndWait [] 1), .delivered 1 1 [5], .called 2 (.emplace 6)] ++
          .accepted 2 (.emplace 6) :: [])
    [.call 0 (.emplace 5), .enter 0 false, .call 1 (.getJobsAndWait [] 1), .enter 1 false,
      .call 2 (.emplace 6), .enter 2 false] (by decide) (by decide)
  refine ⟨s, hr, hcb, hsize, fun honce => ?_⟩
  obtain ⟨size, b, hcalled⟩ := (honce _ _ _ _ htrace).mpr ⟨by decide, .of_short (by decide)⟩
  cases hcalled

/-! ## A callback that throws -/

/-- The queue and the flag are what they were, and no consumer sleeps beside a job with nobody on the
way to it. -/
structure LeftAsItWas (s s' : JobQueue T J) : Prop where
  queue : s'.queue = s.queue
  warnTriggered : s'.warnTriggered = s.warnTriggered
  consumers : s'.queue ≠ [] → s'.cond ≠ [] → ∃ v, (s'.threads v).wakes .cond

/-- A call of a producer leaves the queue as it was, in case the callback throws, exactly when that
does not happen: the jobs are not pushed, or the callback is not called, or it returns. -/
theorem leftAsItWas_iff [DecidableEq T] {s s' : JobQueue T J} {t : T} {c : JobCall J} {throws : Bool}
    (hc : s.Entering t c) (hjobs : c.produces = true)
    (h : s.step (.enter t throws) = some s') :
    (Threw s s' t → LeftAsItWas s s') ↔
      ¬ ((s.Ready c ∧ (0 < s.maxSize → s.run = true)) ∧ s.WarnsAt c ∧ throws = true) := by
  constructor
  · intro hleft hthrows
    obtain ⟨⟨hready, hopen⟩, hthrows⟩ := hthrows
    have hpush := JobQueue.enter_push h hc hready hopen (JobCall.waitsOn_of_produces hjobs)
    have hqueue := (hleft (hpush ▸ JobQueue.push_threw hthrows)).queue
    rw [hpush, (JobQueue.push_queue s t c throws).1, List.append_right_eq_self] at hqueue
    simp [JobCall.produces, hqueue] at hjobs
  · intro hnot hthrew
    obtain ⟨es, htrace, hmem⟩ := hthrew
    have hnew {es' : List (JobEvent T J)} (htrace' : s'.trace = s.trace ++ es') :
        .threw t ∈ es' := List.append_cancel_left (htrace'.symm.trans htrace) ▸ hmem
    exfalso
    cases JobQueue.step_logs h with
    | quiet es' htrace' hbook _ _ _ _ => cases hbook _ (hnew htrace')
    | delivered u n _ htrace' _ _ _ => simpa using hnew htrace'
    | accepted u c' throws' ha hc' hready hopen hs' =>
        cases ha
        obtain rfl := hc.unique hc'
        have hreturns : ¬ (s.WarnsAt c' ∧ throws = true) := fun hwarn => hnot ⟨⟨hready, hopen⟩, hwarn⟩
        subst hs'
        have hpushed := hnew (JobQueue.push_warning hreturns).1
        split at hpushed <;> simp at hpushed
    | cleared _ htrace' _ _ _ =>
        obtain ⟨job, -, hjob⟩ := List.mem_flatMap.mp (hnew htrace')
        rcases eq_of_mem_clearedEvents hjob with he | he <;> cases he

/-- The callback throws: the queue is not what it was. -/
theorem leftAsItWas_iff_throwing :
    ∃ s s' : JobQueue Nat Nat, s.Entering 0 (.emplace 5) ∧ s.step (.enter 0 true) = some s' ∧
      s.queue = [5] ∧ s'.queue = [5, 5] ∧ ¬ (Threw s s' 0 → LeftAsItWas s s') := by
  let s : JobQueue Nat Nat := { warnQueue 1 with queue := [5], threads := fun _ => .lock (.emplace 5) }
  have hstep : s.step (.enter 0 true) = some (s.push 0 (.emplace 5) true) := rfl
  have hc : s.Entering 0 (.emplace 5) := .inl rfl
  refine ⟨s, _, hc, hstep, rfl, by decide, fun hleft => ?_⟩
  exact (leftAsItWas_iff hc rfl hstep).mp hleft (by decide)

/-- The jobs are in the queue and the flag is set when the exception leaves the call, so that a retry
would push them again; and a consumer sleeps beside the job, with nothing pending. -/
theorem leftAsItWas_fails :
    ∃ s s' : JobQueue (Fin 2) Nat, threadSafeJobQueue.Reachable s ∧
      s.Entering 1 (.emplace 5) ∧ s.step (.enter 1 true) = some s' ∧ Threw s s' 1 ∧
        (s.queue = [] ∧ s.warnTriggered = false) ∧ (s'.queue = [5] ∧ s'.warnTriggered = true) ∧
          s'.cond = [0] ∧ ∀ v, (s'.threads v).pending = false := by
  have hinit : threadSafeJobQueue.Reachable (warnQueue 1 : JobQueue (Fin 2) Nat) :=
    .init (warnQueue_init 1)
  obtain ⟨s, hr, h1, hbefore, hafter⟩ := hinit.exists_of_run
    (p := fun s => s.threads 1 = .lock (.emplace 5) ∧ (s.queue = [] ∧ s.warnTriggered = false) ∧
      (s.step (.enter 1 true)).any fun s' => s'.trace = s.trace ++
          [.accepted 1 (.emplace 5), .warnCallback 1, .threw 1] ∧
        (s'.queue = [5] ∧ s'.warnTriggered = true) ∧ s'.cond = [0] ∧
          ∀ v, (s'.threads v).pending = false)
    [.call 0 (.getJobsAndWait [] 1), .enter 0 false, .call 1 (.emplace 5)] (by decide)
  obtain ⟨s', hstep, hs'⟩ := (Option.any_eq_true _ _).mp hafter
  obtain ⟨htrace, hqueue, hrest⟩ := of_decide_eq_true hs'
  exact ⟨s, s', hr, .inl h1, hstep, ⟨_, htrace, by simp⟩, hbefore, hqueue, hrest⟩

end VideoStream
