import Mathlib.Data.Fintype.Basic
import VideoStream.Queue.Stop

/-!
# Wake-ups

A call may bring or take several jobs, and notifies one thread.

* A thread whose predicate is true stays asleep, with nobody on the way to wake it, only if a woken
  thread has left jobs, or room, for another one that sleeps (`no_lost_wakeUp_of_handsOn`).
* In an empty queue a producer is not blocked unless it brings more jobs than ever fit
  (`ready_in_empty_of_fits`).
-/

namespace VideoStream

open Library

variable {T J : Type}

/-- Between the unlock and the notification, or woken and before the test of the predicate. -/
def JobPc.pending : JobPc J → Bool
  | .woken _ | .notify _ | .stopCond | .stopCondSpace => true
  | _ => false

theorem JobPc.pending_of_wakes {pc : JobPc J} {k : JobCond} (h : pc.wakes k) :
    pc.pending = true := by
  cases pc with
  | woken _ | notify _ | stopCond | stopCondSpace => rfl
  | _ => cases h

namespace JobQueue

/-- No notification is pending, and a thread sleeps although its predicate is true. -/
def LostWakeUp (s : JobQueue T J) : Prop :=
  (∀ v, (s.threads v).pending = false) ∧ ∃ t c, s.threads t = .wait c ∧ s.Ready c

/-- Another thread than `t` is on the way to the condition variable. -/
def OnTheWay (s : JobQueue T J) (t : T) (k : JobCond) : Prop :=
  ∃ v, v ≠ t ∧ (s.threads v).wakes k

/-- A sleeping producer has room for its jobs when `n` jobs are in the queue. -/
def FitsBeside (s : JobQueue T J) (n : Nat) : Prop :=
  ∃ u, (s.threads u).sleepsOn = some .condSpace ∧
    ∀ d ∈ (s.threads u).call?, n + d.jobs.length ≤ s.maxSize

/-- The push of the call throws. -/
def ThrowsAt (s : JobQueue T J) (c : JobCall J) (throws : Bool) : Prop :=
  c.waitsOn = some .condSpace ∧ s.Ready c ∧ s.WarnsAt c ∧ throws = true

/-- What a thread leaves to others when it takes the mutex at `pc` of an open queue. A woken consumer
may leave jobs, a woken producer may leave room, to a thread that sleeps beside it; then, and when a
push throws, another thread has to be on the way to the sleeper. -/
def LeavesToOthers (s : JobQueue T J) (t : T) (throws : Bool) : JobPc J → Prop
  | .woken (.getJobsAndWait _ n) => n < s.queue.length → s.cond ≠ [] → s.OnTheWay t .cond
  | .woken .clear | .woken .stop => True
  | .woken c =>
      (s.FitsBeside (s.queue.length + if s.Ready c then c.jobs.length else 0) →
        s.OnTheWay t .condSpace) ∧
      (s.ThrowsAt c throws → s.cond ≠ [] → s.OnTheWay t .cond)
  | .lock c => s.ThrowsAt c throws → s.cond ≠ [] → s.OnTheWay t .cond
  | _ => True

/-- The condition under which no wake-up is lost. -/
def HandsOn (s : JobQueue T J) : JobAct T J → Prop
  | .enter t throws => s.run = true → s.LeavesToOthers t throws (s.threads t)
  | _ => True

section Decidable

variable [Fintype T] [DecidableEq T] (s : JobQueue T J)

instance (t : T) (k : JobCond) : Decidable (s.OnTheWay t k) :=
  inferInstanceAs (Decidable (∃ v, v ≠ t ∧ (s.threads v).wakes k))

instance (n : Nat) : Decidable (s.FitsBeside n) :=
  inferInstanceAs (Decidable (∃ u, (s.threads u).sleepsOn = some .condSpace ∧
    ∀ d ∈ (s.threads u).call?, n + d.jobs.length ≤ s.maxSize))

instance (c : JobCall J) (throws : Bool) : Decidable (s.ThrowsAt c throws) :=
  inferInstanceAs (Decidable (_ ∧ _ ∧ _ ∧ _))

instance [DecidableEq J] (t : T) (throws : Bool) :
    ∀ pc, Decidable (s.LeavesToOthers t throws pc)
  | .woken (.getJobsAndWait _ _) => inferInstanceAs (Decidable (_ → _ → _))
  | .woken (.emplace _) | .woken (.batchEmplace _) =>
      inferInstanceAs (Decidable ((_ → _) ∧ (_ → _ → _)))
  | .lock _ => inferInstanceAs (Decidable (_ → _ → _))
  | .woken .clear | .woken .stop | .idle | .wait _ | .notify _ | .stopRun | .stopCond
  | .stopCondSpace => isTrue trivial

instance [DecidableEq J] : ∀ a, Decidable (s.HandsOn a)
  | .enter _ _ => inferInstanceAs (Decidable (_ → _))
  | .call _ _ | .notify _ _ | .wakeUp _ => isTrue trivial

end Decidable

variable {s s' : JobQueue T J}

/-! ## The predicates -/

theorem ready_cond {c : JobCall J} (hc : c.waitsOn = some .cond) :
    s.Ready c ↔ s.run = false ∨ s.queue ≠ [] := by
  cases c with
  | getJobsAndWait _ _ => rfl
  | _ => cases hc

theorem ready_condSpace {c : JobCall J} (hc : c.waitsOn = some .condSpace) :
    s.Ready c ↔ (0 < s.maxSize → s.run = false ∨ s.queue.length + c.jobs.length ≤ s.maxSize) := by
  cases c with
  | emplace _ => rfl
  | batchEmplace _ => rfl
  | _ => cases hc

theorem ready_congr (hrun : s'.run = s.run) (hqueue : s'.queue = s.queue)
    (hmax : s'.maxSize = s.maxSize) (c : JobCall J) : s'.Ready c ↔ s.Ready c := by
  cases c with
  | getJobsAndWait _ _ => rw [ready_cond rfl, ready_cond rfl, hrun, hqueue]
  | emplace _ | batchEmplace _ =>
      rw [ready_condSpace rfl, ready_condSpace rfl, hrun, hqueue, hmax]
  | clear | stop => exact Iff.rfl

/-- The thread sleeps on `k`, and its predicate is true. -/
def Rests (s : JobQueue T J) (k : JobCond) (pc : JobPc J) : Prop :=
  ∃ c, pc = .wait c ∧ c.waitsOn = some k ∧ s.Ready c

theorem Rests.sleepsOn {k : JobCond} {pc : JobPc J} (h : s.Rests k pc) : pc.sleepsOn = some k := by
  obtain ⟨c, rfl, hk, -⟩ := h
  exact hk

/-- A producer that has pushed its jobs is on the way to the consumers, and to nobody else. -/
theorem wakes_notify_producer {c : JobCall J} (hc : c.waitsOn = some .condSpace) (k : JobCond) :
    (JobPc.notify c).wakes k ↔ k = .cond := by
  cases c with
  | emplace _ | batchEmplace _ => cases k <;> simp [JobPc.wakes, JobPc.notifies]
  | _ => cases hc

theorem leavesToOthers_producer {t : T} {throws : Bool} {c : JobCall J}
    (hc : c.waitsOn = some .condSpace) : s.LeavesToOthers t throws (.woken c) ↔
      (s.FitsBeside (s.queue.length + if s.Ready c then c.jobs.length else 0) →
        s.OnTheWay t .condSpace) ∧ (s.ThrowsAt c throws → s.cond ≠ [] → s.OnTheWay t .cond) := by
  cases c with
  | emplace _ | batchEmplace _ => rfl
  | _ => cases hc

/-- Whenever a thread could go on, somebody is on the way to it. -/
def AllAttended (s : JobQueue T J) : Prop :=
  ∀ k, Attended (s.Rests k) (JobPc.wakes k) s.threads

theorem AllAttended.not_lostWakeUp (h : s.AllAttended) (hslp : s.Sleepers) : ¬ s.LostWakeUp := by
  intro hlost
  obtain ⟨hnone, t, c, ht, hready⟩ := hlost
  obtain ⟨k, hk⟩ := Option.ne_none_iff_exists'.mp (hslp.waits t c ht)
  obtain ⟨v, hv⟩ := h k ⟨t, c, ht, hk, hready⟩
  have hpending := JobPc.pending_of_wakes hv
  rw [hnone v] at hpending
  cases hpending

/-- In a closed queue it is `stop` that is on the way. -/
theorem Closing.allAttended (hs : s.Closing) (hslp : s.Sleepers) (hrun : s.run = false) :
    s.AllAttended := by
  intro k hrest
  obtain ⟨u, hu⟩ := hrest
  have hmem : u ∈ s.sleepers k := (hslp.mem k u).mpr hu.sleepsOn
  cases k with
  | cond =>
      obtain ⟨v, hv⟩ := hs.onCond hrun (List.ne_nil_of_mem hmem)
      exact ⟨v, by rw [hv]; trivial⟩
  | condSpace =>
      obtain ⟨v, hv | hv⟩ := hs.onSpace hrun (List.ne_nil_of_mem hmem)
      · exact ⟨v, by rw [hv]; trivial⟩
      · exact ⟨v, by rw [hv]; rfl⟩

/-! ## What the steps do -/

/-- Somebody is on the way to a thread that could go on; if it is `t`, it was woken. -/
theorem AllAttended.onTheWay_or_woken (hs : s.AllAttended) {t u : T} {c : JobCall J} {k : JobCond}
    (hc : s.Entering t c) (hu : s.Rests k (s.threads u)) :
    s.OnTheWay t k ∨ s.threads t = .woken c ∧ c.waitsOn = some k := by
  obtain ⟨v, hv⟩ := hs k ⟨u, hu⟩
  by_cases hvt : v = t
  · subst hvt
    rcases hc with hp | hp
    · rw [hp] at hv
      exact hv.elim
    · refine .inr ⟨hp, ?_⟩
      rw [hp] at hv
      exact hv
  · exact .inl ⟨v, hvt, hv⟩

theorem FitsBeside.of_rests {u : T} {d : JobCall J} {n : Nat} (hu : s.threads u = .wait d)
    (hd : d.waitsOn = some .condSpace) (hn : n + d.jobs.length ≤ s.maxSize) : s.FitsBeside n := by
  refine ⟨u, by rw [hu]; exact hd, fun d' hd' => ?_⟩
  rw [hu] at hd'
  obtain rfl := Option.some.inj hd'
  exact hn

theorem Sleepers.bounded_of_rests (hslp : s.Sleepers) {u : T} (hu : s.Rests .condSpace (s.threads u)) :
    0 < s.maxSize := by
  apply hslp.bounded
  exact List.ne_nil_of_mem ((hslp.mem .condSpace u).mpr hu.sleepsOn)

variable [DecidableEq T]

/-- A thread finds its predicate false, and goes to sleep again. -/
theorem sleep_allAttended {t : T} {c : JobCall J} {throws : Bool} (hslp : s.Sleepers)
    (hc : s.Entering t c) (hready : ¬ s.Ready c)
    (hin : s.LeavesToOthers t throws (s.threads t)) (hs : s.AllAttended) :
    (s.sleep t c).AllAttended := by
  have hsame := sameQueue_sleep s t c
  have hcongr := ready_congr hsame.run hsame.queue hsame.maxSize
  intro k
  rw [sleep_threads]
  refine .leave (fun hrest => ?_) fun u _ hrest => ?_
  · obtain ⟨d, hd, -, hd'⟩ := hrest
    cases hd
    exact hready ((hcongr c).mp hd')
  · obtain ⟨d, hu, hk, hd⟩ := hrest
    have hd := (hcongr d).mp hd
    rcases hs.onTheWay_or_woken hc ⟨d, hu, hk, hd⟩ with hway | ⟨hp, hck⟩
    · exact hway
    · cases k with
      | cond =>
          -- the consumers all wait for the same
          rw [ready_cond hk] at hd
          exact absurd ((ready_cond hck).mpr hd) hready
      | condSpace =>
          have hmax := hslp.bounded_of_rests (u := u) ⟨d, hu, hk, hd⟩
          have hfits := ((ready_condSpace hk).mp hd hmax).resolve_left
            (by simp [run_of_not_ready hready])
          have hbeside := FitsBeside.of_rests hu hk hfits
          rw [hp, leavesToOthers_producer hck, if_neg hready] at hin
          exact hin.1 hbeside

omit [DecidableEq T] in
theorem Sleepers.not_rests_of_unlimited (hslp : s.Sleepers) (hmax : ¬ 0 < s.maxSize) (u : T) :
    ¬ s.Rests .condSpace (s.threads u) :=
  fun hu => hmax (hslp.bounded_of_rests hu)

omit [DecidableEq T] in
/-- A consumer that sleeps stays where it is when the queue changes. -/
theorem Rests.of_queue {k : JobCond} {pc : JobPc J} (h : s'.Rests k pc)
    (himp : ∀ c, c.waitsOn = some k → s'.Ready c → s.Ready c) : s.Rests k pc := by
  obtain ⟨c, hc, hk, hready⟩ := h
  exact ⟨c, hc, hk, himp c hk hready⟩

/-- A consumer takes jobs. -/
theorem getJobs_allAttended {t : T} {fetchJobs : List J} {n : Nat} {throws : Bool}
    (hrun : s.run = true) (hc : s.Entering t (.getJobsAndWait fetchJobs n))
    (hin : s.LeavesToOthers t throws (s.threads t)) (hslp : s.Sleepers)
    (hslp' : (s.getJobsAndWait t fetchJobs n).Sleepers) (hs : s.AllAttended) :
    (s.getJobsAndWait t fetchJobs n).AllAttended := by
  rw [getJobs_eq hrun] at hslp' ⊢
  intro k
  cases k with
  | cond =>
      refine .leave (fun hrest => ?_) fun u _ hrest => ?_
      · have hsleeps := hrest.sleepsOn
        split at hsleeps <;> cases hsleeps
      · -- a consumer that still sleeps finds jobs only if `t` has left some
        obtain ⟨d, hu, hk, hd⟩ := hrest
        have hleft : s.queue.drop n ≠ [] :=
          ((ready_cond hk).mp hd).resolve_left (by show ¬ s.run = false; simp [hrun])
        have hne : s.queue ≠ [] := fun hnil => hleft (by rw [hnil, List.drop_nil])
        have hrest : s.Rests .cond (s.threads u) := ⟨d, hu, hk, (ready_cond hk).mpr (.inr hne)⟩
        rcases hs.onTheWay_or_woken hc hrest with hway | ⟨hp, -⟩
        · exact hway
        · rw [hp] at hin
          have hcond := List.ne_nil_of_mem ((hslp.mem .cond u).mpr hrest.sleepsOn)
          exact hin (by simpa using hleft) hcond
  | condSpace =>
      by_cases hmax : 0 < s.maxSize
      · rw [if_pos hmax]
        exact .update_waker rfl
      · exact .of_none (hslp'.not_rests_of_unlimited hmax)

/-- A producer pushes. -/
theorem push_allAttended {t : T} {c : JobCall J} {throws : Bool} (hrun : s.run = true)
    (hc : s.Entering t c) (hck : c.waitsOn = some .condSpace) (hready : s.Ready c)
    (hin : s.LeavesToOthers t throws (s.threads t)) (hslp : s.Sleepers) (hs : s.AllAttended) :
    (s.push t c throws).AllAttended := by
  obtain ⟨hqueue, hmax⟩ := push_queue s t c throws
  have hrun' := push_run s t c throws
  -- what is left of the room for the others
  have hspace {pc : JobPc J} (hpc : pc.sleepsOn = none) :
      Attended ((s.push t c throws).Rests .condSpace) (JobPc.wakes .condSpace)
        (Function.update s.threads t pc) := by
    refine .leave (fun hrest => ?_) fun u _ hrest => ?_
    · have hsleeps := hrest.sleepsOn
      rw [hpc] at hsleeps
      cases hsleeps
    · obtain ⟨d, hu, hk, hd⟩ := hrest
      rw [ready_condSpace hk, hmax, hrun', hqueue, List.length_append] at hd
      have hrest : s.Rests .condSpace (s.threads u) := by
        refine ⟨d, hu, hk, (ready_condSpace hk).mpr fun hpos => ?_⟩
        exact (hd hpos).imp_right fun hfits => by omega
      have hfits := (hd (hslp.bounded_of_rests hrest)).resolve_left (by simp [hrun])
      rcases hs.onTheWay_or_woken hc hrest with hway | ⟨hp, -⟩
      · exact hway
      · have hbeside := FitsBeside.of_rests hu hk hfits
        rw [hp, leavesToOthers_producer hck, if_pos hready] at hin
        exact hin.1 hbeside
  by_cases hthrows : s.WarnsAt c ∧ throws = true
  · intro k
    rw [push_threads_of_throws hthrows]
    cases k with
    | cond =>
        refine .leave (fun hrest => ?_) fun u _ hrest => ?_
        · cases hrest.sleepsOn
        · have hcond := List.ne_nil_of_mem ((hslp.mem .cond u).mpr hrest.sleepsOn)
          have hthrowsAt : s.ThrowsAt c throws := ⟨hck, hready, hthrows⟩
          rcases hc with hp | hp
          · rw [hp] at hin
            exact hin hthrowsAt hcond
          · rw [hp, leavesToOthers_producer hck] at hin
            exact hin.2 hthrowsAt hcond
    | condSpace => exact hspace rfl
  · intro k
    rw [push_threads_of_returns hthrows]
    cases k with
    | cond => exact .update_waker ((wakes_notify_producer hck .cond).mpr rfl)
    | condSpace => exact hspace rfl

/-- `clear`, and the `clear` of `stop`: the broadcast to the producers comes next. -/
theorem clearQueue_allAttended {t : T} {pc : JobPc J} (hrun : s.run = true)
    (hwakes : 0 < s.maxSize → pc.wakes .condSpace)
    (hslp' : (s.clearQueue.goto t pc).Sleepers) : (s.clearQueue.goto t pc).AllAttended := by
  intro k
  cases k with
  | cond =>
      -- the queue is empty
      refine .of_none fun u hu => ?_
      obtain ⟨d, -, hk, hd⟩ := hu
      rcases (ready_cond hk).mp hd with hclosed | hne
      · have hclosed : s.run = false := hclosed
        rw [hrun] at hclosed
        cases hclosed
      · exact hne rfl
  | condSpace =>
      by_cases hmax : 0 < s.maxSize
      · exact .update_waker (hwakes hmax)
      · exact .of_none (hslp'.not_rests_of_unlimited hmax)

theorem enter_allAttended {t : T} {throws : Bool} (h : s.step (.enter t throws) = some s')
    (hin : s.HandsOn (.enter t throws)) (hslp : s.Sleepers) (hcl' : s'.Closing) (hs : s.AllAttended) :
    s'.AllAttended := by
  have hslp' := step_sleepers h hslp
  by_cases hclosed : s'.run = false
  · exact hcl'.allAttended hslp' hclosed
  · rcases enter_cases h with ⟨c, hc, ⟨hready, rfl⟩ | ⟨hready, rfl⟩⟩ | ⟨-, rfl⟩
    · exact sleep_allAttended hslp hc hready (hin (run_of_not_ready hready)) hs
    · have hrun : s.run = true := by
        rw [critical_run hc hready] at hclosed
        simpa using hclosed
      have hin := hin hrun
      have hproduce (hck : c.waitsOn = some .condSpace) : (s.critical t throws c).AllAttended := by
        rw [critical_eq_push (fun _ => hrun) hck]
        exact push_allAttended hrun hc hck hready hin hslp hs
      cases c with
      | getJobsAndWait fetchJobs n => exact getJobs_allAttended hrun hc hin hslp hslp' hs
      | emplace _ => exact hproduce rfl
      | batchEmplace _ => exact hproduce rfl
      | clear => exact clearQueue_allAttended hrun (fun hmax => by rw [if_pos hmax]; rfl) hslp'
      | stop => exact clearQueue_allAttended hrun (fun hmax => by rw [if_pos hmax]; rfl) hslp'
    · exact absurd rfl hclosed

section Exact

variable {t : T} {c : JobCall J} {throws : Bool}

omit [DecidableEq T] in
theorem Entering.exists_sleeper (hc : s.Entering t c) (hslp : s.Sleepers) (hne : s.cond ≠ []) :
    ∃ u d, u ≠ t ∧ s.threads u = .wait d ∧ d.waitsOn = some .cond := by
  obtain ⟨u, hmem⟩ := List.exists_mem_of_ne_nil _ hne
  have hsleeps := (hslp.mem .cond u).mp hmem
  obtain ⟨d, hu, hk⟩ := JobPc.eq_wait_of_sleepsOn hsleeps
  refine ⟨u, d, fun hut => ?_, hu, hk⟩
  rw [hut, hc.sleepsOn] at hsleeps
  cases hsleeps

omit [DecidableEq T] in
theorem not_wakes_of_not_onTheWay {k : JobCond} (h : ¬ s.OnTheWay t k) (v : T) (hvt : v ≠ t) :
    ¬ (s.threads v).wakes k :=
  fun hv => h ⟨v, hvt, hv⟩

/-- Jobs are left, and a consumer sleeps. -/
theorem getJobs_unattended {fetchJobs : List J} {n : Nat} (hrun : s.run = true)
    (hc : s.Entering t (.getJobsAndWait fetchJobs n)) (hslp : s.Sleepers)
    (hleft : n < s.queue.length) (hne : s.cond ≠ []) (hno : ¬ s.OnTheWay t .cond) :
    ¬ (s.getJobsAndWait t fetchJobs n).AllAttended := by
  intro hcov
  obtain ⟨u, d, hut, hu, hk⟩ := hc.exists_sleeper hslp hne
  have hcond := hcov .cond
  rw [getJobs_eq hrun] at hcond
  refine Attended.not_leave hut ?_ ?_ (not_wakes_of_not_onTheWay hno) hcond
  · have hqueue : s.queue.drop n ≠ [] := by simpa using hleft
    exact ⟨d, hu, hk, (ready_cond hk).mpr (.inr hqueue)⟩
  · split
    · simp [JobPc.wakes, JobPc.notifies]
    · exact not_false

/-- Jobs were pushed, nobody is notified, and a consumer sleeps. -/
theorem throws_unattended (hc : s.Entering t c) (hslp : s.Sleepers) (hthrows : s.ThrowsAt c throws)
    (hne : s.cond ≠ []) (hno : ¬ s.OnTheWay t .cond) : ¬ (s.push t c throws).AllAttended := by
  intro hcov
  obtain ⟨-, -, hwarns, hthrew⟩ := hthrows
  obtain ⟨u, d, hut, hu, hk⟩ := hc.exists_sleeper hslp hne
  have hcond := hcov .cond
  rw [push_threads_of_throws ⟨hwarns, hthrew⟩] at hcond
  refine Attended.not_leave hut ?_ not_false (not_wakes_of_not_onTheWay hno) hcond
  refine ⟨d, hu, hk, (ready_cond hk).mpr (.inr fun hnil => ?_)⟩
  -- the callback is called for a queue that is not empty
  have hlength := congrArg List.length ((push_queue s t c throws).1.symm.trans hnil)
  obtain ⟨⟨-, hpos⟩, hle, -⟩ := hwarns
  rw [List.length_append, List.length_nil] at hlength
  omega

/-- Room is left, and a producer sleeps. -/
theorem space_unattended (throws : Bool) (hc : s.Entering t c) (hck : c.waitsOn = some .condSpace)
    (hfits : s.FitsBeside (s.queue.length + if s.Ready c then c.jobs.length else 0))
    (hno : ¬ s.OnTheWay t .condSpace) :
    (s.Ready c → ¬ (s.push t c throws).AllAttended) ∧ (¬ s.Ready c → ¬ (s.sleep t c).AllAttended) := by
  obtain ⟨u, hsleeps, hroom⟩ := hfits
  obtain ⟨d, hu, hk⟩ := JobPc.eq_wait_of_sleepsOn hsleeps
  have hroom := hroom d (by rw [hu]; rfl)
  have hut : u ≠ t := by
    intro hut
    rw [hut, hc.sleepsOn] at hsleeps
    cases hsleeps
  have hnot := not_wakes_of_not_onTheWay hno
  refine ⟨fun hready hcov => ?_, fun hready hcov => ?_⟩
  · obtain ⟨hqueue, hmax⟩ := push_queue s t c throws
    have hrest : (s.push t c throws).Rests .condSpace (s.threads u) := by
      refine ⟨d, hu, hk, (ready_condSpace hk).mpr fun _ => .inr ?_⟩
      rw [if_pos hready] at hroom
      rw [hqueue, hmax, List.length_append]
      exact hroom
    have hspace := hcov .condSpace
    by_cases hthrows : s.WarnsAt c ∧ throws = true
    · rw [push_threads_of_throws hthrows] at hspace
      exact Attended.not_leave hut hrest not_false hnot hspace
    · rw [push_threads_of_returns hthrows] at hspace
      refine Attended.not_leave hut hrest (fun hwakes => ?_) hnot hspace
      cases (wakes_notify_producer hck .condSpace).mp hwakes
  · have hsame := sameQueue_sleep s t c
    have hspace := hcov .condSpace
    rw [sleep_threads] at hspace
    refine Attended.not_leave hut ?_ not_false hnot hspace
    refine ⟨d, hu, hk, (ready_congr hsame.run hsame.queue hsame.maxSize d).mpr ?_⟩
    rw [if_neg hready] at hroom
    exact (ready_condSpace hk).mpr fun _ => .inr hroom

/-- The condition is exact for one step: a step that breaks it leaves a thread asleep that could go on,
and nobody on the way to it. It is not for `LostWakeUp`, and not over a whole run, since a later
notification may still reach the sleeper. -/
theorem not_allAttended_of_not_handsOn (h : s.step (.enter t throws) = some s') (hslp : s.Sleepers)
    (hnot : ¬ s.HandsOn (.enter t throws)) : ¬ s'.AllAttended := by
  obtain ⟨hrun, hnot⟩ := Classical.not_imp.mp hnot
  have hthrow {c : JobCall J} (hc : s.Entering t c)
      (hnot : ¬ (s.ThrowsAt c throws → s.cond ≠ [] → s.OnTheWay t .cond)) : ¬ s'.AllAttended := by
    obtain ⟨hthrows, hnot⟩ := Classical.not_imp.mp hnot
    obtain ⟨hne, hno⟩ := Classical.not_imp.mp hnot
    rw [enter_push h hc hthrows.2.1 (fun _ => hrun) hthrows.1]
    exact throws_unattended hc hslp hthrows hne hno
  have hproducer {c : JobCall J} (hc : s.Entering t c) (hck : c.waitsOn = some .condSpace)
      (hnot : ¬ ((s.FitsBeside (s.queue.length + if s.Ready c then c.jobs.length else 0) →
        s.OnTheWay t .condSpace) ∧ (s.ThrowsAt c throws → s.cond ≠ [] → s.OnTheWay t .cond))) :
      ¬ s'.AllAttended := by
    by_cases hspace : s.FitsBeside (s.queue.length + if s.Ready c then c.jobs.length else 0) →
        s.OnTheWay t .condSpace
    · exact hthrow hc fun hrest => hnot ⟨hspace, hrest⟩
    · obtain ⟨hfits, hno⟩ := Classical.not_imp.mp hspace
      obtain ⟨hpush, hsleep⟩ := space_unattended throws hc hck hfits hno
      by_cases hready : s.Ready c
      · rw [enter_push h hc hready (fun _ => hrun) hck]
        exact hpush hready
      · rw [enter_entering hc h, if_neg hready]
        exact hsleep hready
  cases hp : s.threads t with
  | lock c =>
      rw [hp] at hnot
      exact hthrow (.inl hp) hnot
  | woken c =>
      rw [hp] at hnot
      have hc : s.Entering t c := .inr hp
      cases c with
      | getJobsAndWait fetchJobs n =>
          obtain ⟨hleft, hnot⟩ := Classical.not_imp.mp hnot
          obtain ⟨hne, hno⟩ := Classical.not_imp.mp hnot
          have hready : s.Ready (.getJobsAndWait fetchJobs n) :=
            .inr (List.ne_nil_of_length_pos (by omega))
          rw [enter_entering hc h, if_pos hready]
          exact getJobs_unattended hrun hc hslp hleft hne hno
      | emplace _ => exact hproducer hc rfl hnot
      | batchEmplace _ => exact hproducer hc rfl hnot
      | clear | stop => exact absurd trivial hnot
  | _ =>
      rw [hp] at hnot
      exact absurd trivial hnot

end Exact

theorem step_allAttended {a : JobAct T J} (h : s.step a = some s') (hin : s.HandsOn a)
    (hslp : s.Sleepers) (hcl' : s'.Closing) (hs : s.AllAttended) : s'.AllAttended := by
  have hquiet (ha : ∀ t throws, a ≠ .enter t throws) : s'.AllAttended := by
    intro k
    obtain ⟨hrun, hqueue, hmax⟩ := quiet_same ha h
    have hcov := quiet_attended hslp (fun _ => Rests.sleepsOn) ha h (hs k)
    refine hcov.mono (fun u hu => ?_) fun _ hv => hv
    exact hu.of_queue fun c _ hc => (ready_congr hrun hqueue hmax c).mp hc
  cases a with
  | enter t throws => exact enter_allAttended h hin hslp hcl' hs
  | call _ _ | notify _ _ | wakeUp _ => exact hquiet (by simp)

end JobQueue

/-- No wake-up is lost, if every step met the condition. -/
theorem no_lost_wakeUp_of_handsOn [DecidableEq T] {s : JobQueue T J}
    (h : threadSafeJobQueue.ReachableBy JobQueue.HandsOn s) : ¬ s.LostWakeUp := by
  have hcov : s.AllAttended := by
    apply h.invariant
    · rintro s ⟨maxSize, warnSize, warnCallback, clearCallback, hs⟩ k
      refine .of_none fun u hu => ?_
      have hsleeps := hu.sleepsOn
      rw [(JobQueue.construct_ok hs).2.2 u] at hsleeps
      cases hsleeps
    · intro s s' a hr hs hin hstep
      have hr' : threadSafeJobQueue.Reachable s' := .step hr.reachable trivial hstep
      exact JobQueue.step_allAttended hstep hin (JobQueue.reachable_sleepers hr.reachable)
        (JobQueue.reachable_closing hr') hs
  exact hcov.not_lostWakeUp (JobQueue.reachable_sleepers h.reachable)

/-- Two consumers sleep; the first is woken, takes all of the jobs, and nothing is left for the
other. -/
theorem no_lost_wakeUp_of_handsOn_takesAll :
    ∃ s : JobQueue (Fin 3) Nat, threadSafeJobQueue.ReachableBy JobQueue.HandsOn s ∧
      (s.threads 1 = .wait (.getJobsAndWait [] 2) ∧ acceptedJobs s.trace = [5, 6]) ∧
        ¬ s.LostWakeUp := by
  have hinit : threadSafeJobQueue.ReachableBy JobQueue.HandsOn
      (emptyQueue 0 : JobQueue (Fin 3) Nat) := .init (emptyQueue_init 0)
  obtain ⟨s, hr, hp⟩ := hinit.exists_of_run
    (p := fun s => s.threads 1 = .wait (.getJobsAndWait [] 2) ∧ acceptedJobs s.trace = [5, 6])
    [.call 0 (.getJobsAndWait [] 2), .enter 0 false, .call 1 (.getJobsAndWait [] 2), .enter 1 false,
      .call 2 (.batchEmplace [5, 6]), .enter 2 false, .notify 2 (some 0), .enter 0 false]
    (by decide) (by decide)
  exact ⟨s, hr, hp, no_lost_wakeUp_of_handsOn hr⟩

/-- A spurious wake-up. -/
def JobAct.isSpurious : JobAct T J → Bool
  | .wakeUp _ => true
  | _ => false

/-- Without spurious wake-ups: a consumer sleeps beside a job, since a batch of two has woken one
consumer, which has taken one job; and a producer sleeps beside free room, since the consumer that has
taken two jobs has woken one producer. -/
theorem wakeUp_lost :
    (∃ s : JobQueue (Fin 3) Nat,
      threadSafeJobQueue.ReachableBy (fun _ a => a.isSpurious = false) s ∧ s.LostWakeUp) ∧
    ∃ s : JobQueue (Fin 4) Nat,
      threadSafeJobQueue.ReachableBy (fun _ a => a.isSpurious = false) s ∧ s.LostWakeUp := by
  constructor
  · have hinit : threadSafeJobQueue.ReachableBy (fun _ a => a.isSpurious = false)
        (emptyQueue 0 : JobQueue (Fin 3) Nat) := .init (emptyQueue_init 0)
    obtain ⟨s, hr, hp, ht, hready⟩ := hinit.exists_of_run
      (p := fun s => (∀ v, (s.threads v).pending = false) ∧
        s.threads 1 = .wait (.getJobsAndWait [] 1) ∧ s.Ready (.getJobsAndWait [] 1))
      [.call 0 (.getJobsAndWait [] 1), .enter 0 false, .call 1 (.getJobsAndWait [] 1),
        .enter 1 false, .call 2 (.batchEmplace [5, 6]), .enter 2 false, .notify 2 (some 0),
        .enter 0 false] (by decide) (by decide)
    exact ⟨s, hr, hp, 1, _, ht, hready⟩
  · have hinit : threadSafeJobQueue.ReachableBy (fun _ a => a.isSpurious = false)
        (emptyQueue 2 : JobQueue (Fin 4) Nat) := .init (emptyQueue_init 2)
    obtain ⟨s, hr, hp, ht, hready⟩ := hinit.exists_of_run
      (p := fun s => (∀ v, (s.threads v).pending = false) ∧
        s.threads 2 = .wait (.emplace 8) ∧ s.Ready (.emplace 8))
      [.call 0 (.batchEmplace [5, 6]), .enter 0 false, .notify 0 none, .call 1 (.emplace 7),
        .enter 1 false, .call 2 (.emplace 8), .enter 2 false, .call 3 (.getJobsAndWait [] 2),
        .enter 3 false, .notify 3 (some 1), .enter 1 false, .notify 1 none] (by decide) (by decide)
    exact ⟨s, hr, hp, 2, _, ht, hready⟩

/-! ## The empty queue -/

namespace JobQueue

/-- The condition under which an empty queue blocks nobody: no call brings more jobs than a bounded
queue holds, as long as this is open. -/
def Fits (s : JobQueue T J) : JobAct T J → Prop
  | .call _ c => s.run = true → 0 < s.maxSize → c.jobs.length ≤ s.maxSize
  | _ => True

instance (s : JobQueue T J) : ∀ a, Decidable (s.Fits a)
  | .call _ _ => inferInstanceAs (Decidable (_ → _ → _))
  | .enter _ _ | .notify _ _ | .wakeUp _ => isTrue trivial

/-- The queue is bounded, open and empty. -/
structure OpenEmpty (s : JobQueue T J) : Prop where
  maxSize : 0 < s.maxSize
  run : s.run = true
  queue : s.queue = []

variable {s s' : JobQueue T J}

/-- In an empty queue it is the length of the batch that decides. -/
theorem OpenEmpty.ready_iff (h : s.OpenEmpty) {c : JobCall J} (hc : c.waitsOn = some .condSpace) :
    s.Ready c ↔ c.jobs.length ≤ s.maxSize := by
  rw [ready_condSpace hc, h.run, h.queue, List.length_nil, Nat.zero_add]
  simp [h.maxSize]

/-- In an empty queue somebody is on the way to every producer that sleeps. -/
def EmptyAttended (s : JobQueue T J) : Prop :=
  Attended (fun pc => s.OpenEmpty ∧ pc.sleepsOn = some .condSpace) (JobPc.wakes .condSpace) s.threads

theorem EmptyAttended.of_not_openEmpty (h : ¬ s.OpenEmpty) : s.EmptyAttended :=
  .of_none fun _ hu => h hu.1

variable [DecidableEq T]

/-- The calls in progress in an open queue were made in an open queue. -/
theorem calls_fit (h : threadSafeJobQueue.ReachableBy Fits s) :
    s.run = true → ∀ u c, (s.threads u).call? = some c →
      c ≠ .batchEmplace [] ∧ (0 < s.maxSize → c.jobs.length ≤ s.maxSize) := by
  apply h.invariant (I := fun s => s.run = true → ∀ u c, (s.threads u).call? = some c →
    c ≠ .batchEmplace [] ∧ (0 < s.maxSize → c.jobs.length ≤ s.maxSize))
  · rintro s ⟨maxSize, warnSize, warnCallback, clearCallback, hs⟩ _ u c hu
    rw [(construct_ok hs).2.2 u] at hu
    cases hu
  · intro s s' a _ hs hfits hstep hrun u c hu
    have hopen : s.run = true := run_of_step hstep hrun
    rw [step_maxSize hstep]
    rcases step_call? hstep hu with hold | ⟨rfl, hne⟩
    · exact hs hopen u c hold
    · exact ⟨hne, hfits hopen⟩

theorem enter_emptyAttended {t : T} {throws : Bool} (h : s.step (.enter t throws) = some s')
    (hcalls : s.run = true → ∀ u c, (s.threads u).call? = some c →
      c ≠ .batchEmplace [] ∧ (0 < s.maxSize → c.jobs.length ≤ s.maxSize))
    (hs : s.EmptyAttended) : s'.EmptyAttended := by
  by_cases hempty : s'.OpenEmpty
  · rcases enter_cases h with ⟨c, hc, ⟨hready, rfl⟩ | ⟨hready, rfl⟩⟩ | ⟨-, rfl⟩
    · have hsame := sameQueue_sleep s t c
      have hempty' : s.OpenEmpty :=
        ⟨hsame.maxSize ▸ hempty.maxSize, hsame.run ▸ hempty.run, hsame.queue ▸ hempty.queue⟩
      -- who goes to sleep is a consumer
      have hck : c.waitsOn ≠ some .condSpace := fun hck =>
        hready ((hempty'.ready_iff hck).mpr ((hcalls hempty'.run t c hc.call?).2 hempty'.maxSize))
      unfold EmptyAttended
      rw [sleep_threads]
      refine Attended.update hs (fun hrest => absurd hrest.2 hck) (fun pc hpc => ⟨hempty', hpc.2⟩)
        fun hwakes => ?_
      rcases hc with hp | hp
      · rw [hp] at hwakes
        exact hwakes
      · rw [hp] at hwakes
        exact absurd hwakes hck
    · have hrun : s.run = true := (critical_run hc hready).symm.trans hempty.run
      have hmax : 0 < s.maxSize := (critical_threads s t throws c).2.1 ▸ hempty.maxSize
      have hproduce (hck : c.waitsOn = some .condSpace) : (s.critical t throws c).EmptyAttended := by
        -- the jobs of the producer are in the queue
        have hqueue := hempty.queue
        rw [critical_eq_push (fun _ => hrun) hck, (push_queue s t c throws).1] at hqueue
        have hjobs := (List.append_eq_nil_iff.mp hqueue).2
        have hne := (hcalls hrun t c hc.call?).1
        cases c with
        | emplace _ => cases hjobs
        | batchEmplace jobs => exact absurd (congrArg JobCall.batchEmplace hjobs) hne
        | _ => cases hck
      cases c with
      | getJobsAndWait fetchJobs n =>
          show (s.getJobsAndWait t fetchJobs n).EmptyAttended
          rw [getJobs_eq hrun, if_pos hmax]
          exact .update_waker rfl
      | emplace _ => exact hproduce rfl
      | batchEmplace _ => exact hproduce rfl
      | clear | stop =>
          refine Attended.update_waker ?_
          rw [if_pos hmax]
          rfl
    · cases hempty.run
  · exact .of_not_openEmpty hempty

theorem step_emptyAttended {a : JobAct T J} (h : s.step a = some s') (hslp : s.Sleepers)
    (hcalls : s.run = true → ∀ u c, (s.threads u).call? = some c →
      c ≠ .batchEmplace [] ∧ (0 < s.maxSize → c.jobs.length ≤ s.maxSize))
    (hs : s.EmptyAttended) : s'.EmptyAttended := by
  have hquiet (ha : ∀ t throws, a ≠ .enter t throws) : s'.EmptyAttended := by
    obtain ⟨hrun, hqueue, hmax⟩ := quiet_same ha h
    refine Attended.mono (quiet_attended hslp (fun _ hpc => hpc.2) ha h hs) (fun u hu => ?_)
      fun _ hv => hv
    exact ⟨⟨hmax ▸ hu.1.maxSize, hrun ▸ hu.1.run, hqueue ▸ hu.1.queue⟩, hu.2⟩
  cases a with
  | enter t throws => exact enter_emptyAttended h hcalls hs
  | call _ _ | notify _ _ | wakeUp _ => exact hquiet (by simp)

end JobQueue

/-- A queue that is open and empty blocks no producer, if no call brought an open queue more jobs than it
holds: the predicate of every producer inside is true, and somebody is on the way to each one that
sleeps. -/
theorem ready_in_empty_of_fits [DecidableEq T] {s : JobQueue T J}
    (h : threadSafeJobQueue.ReachableBy JobQueue.Fits s) (hmax : 0 < s.maxSize) (hrun : s.run = true)
    (hqueue : s.queue = []) :
    (∀ t c, (s.threads t).call? = some c → c.waitsOn = some .condSpace → s.Ready c) ∧
      ((∃ t, (s.threads t).sleepsOn = some .condSpace) →
        ∃ v, (s.threads v).wakes .condSpace) := by
  have hempty : s.OpenEmpty := ⟨hmax, hrun, hqueue⟩
  have hcov : s.EmptyAttended := by
    apply h.invariant
    · rintro s ⟨maxSize, warnSize, warnCallback, clearCallback, hs⟩
      refine .of_none fun u hu => ?_
      have hsleeps := hu.2
      rw [(JobQueue.construct_ok hs).2.2 u] at hsleeps
      cases hsleeps
    · intro s s' a hr hs _ hstep
      exact JobQueue.step_emptyAttended hstep (JobQueue.reachable_sleepers hr.reachable)
        (JobQueue.calls_fit hr) hs
  refine ⟨fun t c ht hc => ?_, fun hsleep => ?_⟩
  · exact (hempty.ready_iff hc).mpr ((JobQueue.calls_fit h hrun t c ht).2 hmax)
  · obtain ⟨t, ht⟩ := hsleep
    exact hcov ⟨t, hempty, ht⟩

/-- A batch waits until the consumer has taken the other one. -/
theorem ready_in_empty_of_fits_twoBatches :
    ∃ s : JobQueue Nat Nat, threadSafeJobQueue.ReachableBy JobQueue.Fits s ∧
      (s.maxSize = 2 ∧ s.run = true ∧ s.queue = [] ∧ s.threads 1 = .wait (.batchEmplace [7, 8])) ∧
        s.Ready (.batchEmplace [7, 8]) ∧ ∃ v, (s.threads v).wakes .condSpace := by
  have hinit : threadSafeJobQueue.ReachableBy JobQueue.Fits (emptyQueue 2 : JobQueue Nat Nat) :=
    .init (emptyQueue_init 2)
  obtain ⟨s, hr, hmax, hrun, hqueue, h1⟩ := hinit.exists_of_run
    (p := fun s => s.maxSize = 2 ∧ s.run = true ∧ s.queue = [] ∧
      s.threads 1 = .wait (.batchEmplace [7, 8]))
    [.call 0 (.batchEmplace [5, 6]), .enter 0 false, .call 1 (.batchEmplace [7, 8]), .enter 1 false,
      .call 2 (.getJobsAndWait [] 2), .enter 2 false] (by decide) (by decide)
  obtain ⟨hready, hway⟩ := ready_in_empty_of_fits hr (by rw [hmax]; decide) hrun hqueue
  exact ⟨s, hr, ⟨hmax, hrun, hqueue, h1⟩, hready 1 _ (by rw [h1]; rfl) rfl,
    hway ⟨1, by rw [h1]; rfl⟩⟩

/-- A batch that is longer than the queue waits in front of an empty queue, with nothing pending. -/
theorem producer_blocked :
    ∃ s : JobQueue (Fin 2) Nat, threadSafeJobQueue.Reachable s ∧
      s.maxSize = 1 ∧ s.run = true ∧ s.queue = [] ∧ s.threads 0 = .wait (.batchEmplace [5, 6]) ∧
        ¬ s.Ready (.batchEmplace [5, 6]) ∧ ∀ v, (s.threads v).pending = false := by
  have hinit : threadSafeJobQueue.Reachable (emptyQueue 1 : JobQueue (Fin 2) Nat) :=
    .init (emptyQueue_init 1)
  exact hinit.exists_of_run [.call 0 (.batchEmplace [5, 6]), .enter 0 false] (by decide)

end VideoStream
