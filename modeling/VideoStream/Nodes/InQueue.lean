import VideoStream.Queue.ThreadSafeQueue
import VideoStream.Utils.SemaphoreObject

/-!
# `in_queue` and `in_queue_semaphore`

How a node uses the two objects. The calls of `meta_flow` and `deinitialized` push an entry and then
signal; the handle thread, in one round of its loop after the other, waits for the semaphore and then
calls `WaitAndPop`. Here every step of a member function of the two objects is a step: taking the
mutex, going to sleep and waking up, the notification and the return. The calls of `Size` for the
hooks and the log change neither object and are left out. `AtomicInQueue` relates the two objects to
the fields of a node, which change in one step.

`P` is the type of the calls that push; `Sum.inl j` is a call of `j`, and `Sum.inr n` is the call that
the handle thread makes in its round `n`.

* `handle_never_waits_on_queue` — `WaitAndPop` finds an entry, and never goes to sleep.
* `handle_pops_in_order` — round `n` gets the entry that was pushed as number `n`.
* `handle_not_stranded` — where the handle thread sleeps in front of the semaphore and no call is in
  between its `Push` and the end of its `signal`, `in_queue` is empty.
-/

namespace VideoStream

open Library

structure InQueue (P T : Type) where
  queue : QueueState (P ⊕ ℕ) T
  semaphore : SharedState (P ⊕ ℕ) VpSemaphore Unit

inductive InQueueAct (P : Type) where
  | queue (a : SharedAct (P ⊕ ℕ))
  | semaphore (a : SharedAct (P ⊕ ℕ))

namespace InQueue

variable {P T : Type}

/-- The calls on `in_queue`; `entry j` is what the call `j` pushes. -/
def queueOp (entry : P → T) : P ⊕ ℕ → QueueOp T
  | .inl j => .push (entry j)
  | .inr _ => .waitAndPop

/-- The calls on `in_queue_semaphore`. -/
def semaphoreOp : P ⊕ ℕ → SemaphoreOp
  | .inl _ => .signal
  | .inr _ => .wait

/-- The order within a thread: `signal` comes behind the return of `Push`, `WaitAndPop` behind the
return of `wait`, and the next round behind the return of `WaitAndPop`. -/
def mayBegin (s : InQueue P T) : InQueueAct P → Bool
  | .queue (.call (.inr n)) => (s.semaphore.calls (.inr n)).hasReturned
  | .semaphore (.call (.inl j)) => (s.queue.calls (.inl j)).hasReturned
  | .semaphore (.call (.inr (n + 1))) => (s.queue.calls (.inr n)).hasReturned
  | _ => true

variable [DecidableEq P]

/-- A step of one of the two objects. -/
def move (entry : P → T) (s : InQueue P T) : InQueueAct P → Option (InQueue P T)
  | .queue a =>
      ((threadSafeQueue T).step (queueOp entry) s.queue a).map fun q => { s with queue := q }
  | .semaphore a =>
      (vpSemaphore.object.step semaphoreOp s.semaphore a).map fun m =>
        { s with semaphore := m }

def step (entry : P → T) (s : InQueue P T) (a : InQueueAct P) : Option (InQueue P T) :=
  if s.mayBegin a then s.move entry a else none

/-- Nobody has pushed anything, and the handle thread has not begun. -/
def start : InQueue P T where
  queue := (threadSafeQueue T).start
  semaphore := vpSemaphore.object.start

end InQueue

/-- The two objects with their callers. -/
def inQueue {P T : Type} [DecidableEq P] (entry : P → T) :
    System (InQueue P T) (InQueueAct P) where
  init s := s = InQueue.start
  step := InQueue.step entry

/-! ## Calls in rounds -/

section

variable {P : Type}

/-- The calls of the producers among `l`. -/
def producers (l : List (P ⊕ ℕ)) : List P := l.filterMap Sum.getLeft?

/-- The rounds of the handle thread among `l`. -/
def rounds (l : List (P ⊕ ℕ)) : List ℕ := l.filterMap Sum.getRight?

theorem mem_producers {l : List (P ⊕ ℕ)} {j : P} : j ∈ producers l ↔ .inl j ∈ l := by
  simp [producers]

theorem mem_rounds {l : List (P ⊕ ℕ)} {n : ℕ} : n ∈ rounds l ↔ .inr n ∈ l := by
  simp [rounds]

@[simp] theorem producers_nil : producers ([] : List (P ⊕ ℕ)) = [] := rfl

@[simp] theorem rounds_nil : rounds ([] : List (P ⊕ ℕ)) = [] := rfl

@[simp] theorem producers_append (l l' : List (P ⊕ ℕ)) :
    producers (l ++ l') = producers l ++ producers l' := List.filterMap_append ..

@[simp] theorem rounds_append (l l' : List (P ⊕ ℕ)) :
    rounds (l ++ l') = rounds l ++ rounds l' := List.filterMap_append ..

@[simp] theorem producers_inl (j : P) (l : List (P ⊕ ℕ)) :
    producers (.inl j :: l) = j :: producers l := rfl

@[simp] theorem producers_inr (n : ℕ) (l : List (P ⊕ ℕ)) :
    producers (.inr n :: l) = producers l := rfl

@[simp] theorem rounds_inl (j : P) (l : List (P ⊕ ℕ)) : rounds (.inl j :: l) = rounds l := rfl

@[simp] theorem rounds_inr (n : ℕ) (l : List (P ⊕ ℕ)) : rounds (.inr n :: l) = n :: rounds l := rfl

theorem nodup_producers {l : List (P ⊕ ℕ)} (h : l.Nodup) : (producers l).Nodup := by
  apply h.filterMap
  intro x y j hx hy
  rw [Option.mem_def, Sum.getLeft?_eq_some_iff] at hx hy
  rw [hx, hy]

/-- More calls of producers on one side. -/
theorem length_producers_le {l l' : List (P ⊕ ℕ)} (h : l.Nodup)
    (hsub : ∀ j, .inl j ∈ l → .inl j ∈ l') : (producers l).length ≤ (producers l').length := by
  apply (List.subperm_of_subset (nodup_producers h) _).length_le
  intro j hj
  exact mem_producers.mpr (hsub j (mem_producers.mp hj))

variable {Op D R : Type} [DecidableEq P] {O : SharedObject Op D R} {op : P ⊕ ℕ → Op}
  {s s' : SharedState (P ⊕ ℕ) D R} {a : SharedAct (P ⊕ ℕ)}

/-- The calls of the rounds come one after the other. -/
def InRounds (s : SharedState (P ⊕ ℕ) D R) : Prop :=
  ∀ n, s.calls (.inr n) ≠ .absent → ∀ k < n, (s.calls (.inr k)).hasReturned

theorem mem_rounds_done (h : (O.system op).Reachable s) {n : ℕ} :
    n ∈ rounds (s.done.map Prod.fst) ↔ 2 ≤ (s.calls (.inr n)).rank :=
  mem_rounds.trans (SharedObject.mem_order h)

/-- The rounds that took effect are those before the first one that did not. -/
theorem eq_of_rounds (h : (O.system op).Reachable s) {c n : ℕ}
    (hc : rounds (s.done.map Prod.fst) = List.range c) (hn : ¬ 2 ≤ (s.calls (.inr n)).rank)
    (hbefore : ∀ k < n, (s.calls (.inr k)).hasReturned) : n = c := by
  have hmem (k : ℕ) : k < c ↔ 2 ≤ (s.calls (.inr k)).rank := by
    rw [← mem_rounds_done h, hc, List.mem_range]
  have hcn : ¬ n < c := by rwa [hmem]
  have hnc : ¬ c < n := fun hlt =>
    absurd ((hmem c).mpr (SharedPc.rank_of_hasReturned (hbefore c hlt))) (Nat.lt_irrefl c)
  omega

/-- So their effects come in the order of the rounds. -/
theorem step_rounds (h : (O.system op).Reachable s) (hstep : O.Step op s a s')
    (hrounds : InRounds s) (hs : ∃ c, rounds (s.done.map Prod.fst) = List.range c) :
    ∃ c, rounds (s'.done.map Prod.fst) = List.range c := by
  obtain ⟨c, hc⟩ := hs
  rcases SharedObject.step_acts hstep with ⟨-, hsame⟩ | ⟨i, r, -, -, hone, hrank⟩
  · exact ⟨c, by rw [hsame, hc]⟩
  · rw [hone, List.map_append, rounds_append]
    cases i with
    | inl j => exact ⟨c, (List.append_nil _).trans hc⟩
    | inr n =>
        have hbegan := SharedPc.ne_absent_of_rank (Nat.le_of_eq hrank.symm)
        obtain rfl : n = c := eq_of_rounds h hc (by omega) (hrounds n hbegan)
        refine ⟨n + 1, ?_⟩
        rw [List.range_succ, ← hc]
        rfl

end

namespace InQueue

variable {P T : Type} [DecidableEq P] {entry : P → T} {s s' : InQueue P T} {a : InQueueAct P}

/-! ## The transitions -/

/-- A step of one of the two objects, where the thread has come to it. -/
inductive Step (entry : P → T) (s : InQueue P T) : InQueue P T → Prop
  | queue (b : SharedAct (P ⊕ ℕ)) (q : QueueState (P ⊕ ℕ) T) : s.mayBegin (.queue b) = true →
      (threadSafeQueue T).step (queueOp entry) s.queue b = some q →
      Step entry s { s with queue := q }
  | semaphore (b : SharedAct (P ⊕ ℕ)) (m : SharedState (P ⊕ ℕ) VpSemaphore Unit) :
      s.mayBegin (.semaphore b) = true →
      vpSemaphore.object.step semaphoreOp s.semaphore b = some m →
      Step entry s { s with semaphore := m }

theorem step_cases (h : s.step entry a = some s') : Step entry s s' := by
  obtain ⟨hmay, hmove⟩ := Option.ite_none_right_eq_some.mp h
  cases a with
  | queue b =>
      obtain ⟨q, hq, rfl⟩ := Option.map_eq_some_iff.mp hmove
      exact .queue b q hmay hq
  | semaphore b =>
      obtain ⟨m, hm, rfl⟩ := Option.map_eq_some_iff.mp hmove
      exact .semaphore b m hmay hm

theorem reachable_queue (h : (inQueue entry).Reachable s) :
    ((threadSafeQueue T).system (queueOp entry)).Reachable s.queue := by
  apply h.project (fun s : InQueue P T => s.queue)
  · rintro _ rfl
    rfl
  · intro s s' a _ hstep
    cases step_cases hstep with
    | queue b q _ hq => exact .inr ⟨b, trivial, hq⟩
    | semaphore b m _ _ => exact .inl rfl

theorem reachable_semaphore (h : (inQueue entry).Reachable s) :
    (vpSemaphore.object.system semaphoreOp).Reachable s.semaphore := by
  apply h.project (fun s : InQueue P T => s.semaphore)
  · rintro _ rfl
    rfl
  · intro s s' a _ hstep
    cases step_cases hstep with
    | queue b q _ _ => exact .inl rfl
    | semaphore b m _ hm => exact .inr ⟨b, trivial, hm⟩

/-! ## The order within the threads -/

/-- What has begun comes behind what had to return. -/
structure Ordered (s : InQueue P T) : Prop where
  signal : ∀ j, s.semaphore.calls (.inl j) ≠ .absent →
    (s.queue.calls (.inl j)).hasReturned
  pop : ∀ n, s.queue.calls (.inr n) ≠ .absent →
    (s.semaphore.calls (.inr n)).hasReturned
  wait : ∀ n, s.semaphore.calls (.inr (n + 1)) ≠ .absent →
    (s.queue.calls (.inr n)).hasReturned

theorem reachable_ordered (h : (inQueue entry).Reachable s) : s.Ordered := by
  apply h.invariant
  · rintro _ rfl
    exact ⟨fun j hj => absurd rfl hj, fun n hn => absurd rfl hn, fun n hn => absurd rfl hn⟩
  · intro s s' a hr hs _ hstep
    cases step_cases hstep with
    | queue b q hmay hq =>
        have hq := SharedObject.step_cases hq
        have hcons := SharedObject.mem_sleepers (reachable_queue hr)
        refine ⟨fun j hj => ?_, fun n hn => ?_, fun n hn => ?_⟩
        · exact SharedObject.step_returned hq hcons (hs.signal j hj)
        · rcases SharedObject.step_began hq hcons hn with hn | rfl
          · exact hs.pop n hn
          · exact hmay
        · exact SharedObject.step_returned hq hcons (hs.wait n hn)
    | semaphore b m hmay hm =>
        have hm := SharedObject.step_cases hm
        have hcons := SharedObject.mem_sleepers (reachable_semaphore hr)
        refine ⟨fun j hj => ?_, fun n hn => ?_, fun n hn => ?_⟩
        · rcases SharedObject.step_began hm hcons hj with hj | rfl
          · exact hs.signal j hj
          · exact hmay
        · exact SharedObject.step_returned hm hcons (hs.pop n hn)
        · rcases SharedObject.step_began hm hcons hn with hn | rfl
          · exact hs.wait n hn
          · exact hmay

omit [DecidableEq P] in
/-- Behind a round that waits for its permit, all rounds have returned from both objects. -/
theorem Ordered.before (hs : s.Ordered) {n : ℕ}
    (hn : s.semaphore.calls (.inr n) ≠ .absent) :
    ∀ k < n, (s.queue.calls (.inr k)).hasReturned ∧
      (s.semaphore.calls (.inr k)).hasReturned := by
  induction n with
  | zero => exact fun k hk => absurd hk (Nat.not_lt_zero k)
  | succ n ih =>
      have hpopped := hs.wait n hn
      have hwaited := hs.pop n (SharedPc.ne_absent hpopped)
      intro k hk
      rcases Nat.lt_succ_iff_lt_or_eq.mp hk with hk | rfl
      · exact ih (SharedPc.ne_absent hwaited) k hk
      · exact ⟨hpopped, hwaited⟩

omit [DecidableEq P] in
theorem Ordered.inRounds_semaphore (hs : s.Ordered) : InRounds s.semaphore :=
  fun _ hn k hk => (hs.before hn k hk).2

omit [DecidableEq P] in
theorem Ordered.inRounds_queue (hs : s.Ordered) : InRounds s.queue :=
  fun n hn k hk => (hs.before (SharedPc.ne_absent (hs.pop n hn)) k hk).1

/-- Both objects have served the first rounds. -/
theorem reachable_rounds (h : (inQueue entry).Reachable s) :
    (∃ c, rounds (s.queue.done.map Prod.fst) = List.range c) ∧
      ∃ w, rounds (s.semaphore.done.map Prod.fst) = List.range w := by
  apply h.invariant (I := fun s : InQueue P T =>
    (∃ c, rounds (s.queue.done.map Prod.fst) = List.range c) ∧
      ∃ w, rounds (s.semaphore.done.map Prod.fst) = List.range w)
  · rintro _ rfl
    exact ⟨⟨0, rfl⟩, ⟨0, rfl⟩⟩
  · intro s s' a hr hs _ hstep
    have hordered := reachable_ordered hr
    cases step_cases hstep with
    | queue b q _ hq =>
        exact ⟨step_rounds (reachable_queue hr) (SharedObject.step_cases hq)
          hordered.inRounds_queue hs.1, hs.2⟩
    | semaphore b m _ hm =>
        exact ⟨hs.1, step_rounds (reachable_semaphore hr) (SharedObject.step_cases hm)
          hordered.inRounds_semaphore hs.2⟩

/-! ## Counting -/

omit [DecidableEq P] in
theorem flatMap_pushed (entry : P → T) (l : List ((P ⊕ ℕ) × QueueResult T)) :
    (l.map fun p => (queueOp entry p.1, p.2)).flatMap QueueOp.pushed =
      (producers (l.map Prod.fst)).map entry := by
  induction l with
  | nil => rfl
  | cons x l ih =>
      obtain ⟨i, r⟩ := x
      rw [List.map_cons, List.flatMap_cons, ih]
      cases i <;> rfl

omit [DecidableEq P] in
theorem length_taken (entry : P → T) {l : List ((P ⊕ ℕ) × QueueResult T)}
    (hl : ∀ n r, (.inr n, r) ∈ l → ∃ v, r = .value v) :
    ((l.map fun p => (queueOp entry p.1, p.2)).flatMap QueueOp.taken).length =
      (rounds (l.map Prod.fst)).length := by
  induction l with
  | nil => rfl
  | cons x l ih =>
      obtain ⟨i, r⟩ := x
      rw [List.map_cons, List.flatMap_cons, List.length_append,
        ih fun n r h => hl n r (List.mem_cons_of_mem _ h), List.map_cons]
      cases i with
      | inl j => exact Nat.zero_add _
      | inr n =>
          obtain ⟨v, rfl⟩ := hl n r (List.mem_cons_self ..)
          exact Nat.add_comm ..

theorem value_of_done (h : (inQueue entry).Reachable s) {n : ℕ} {r : QueueResult T}
    (hmem : (.inr n, r) ∈ s.queue.done) : ∃ v, r = .value v := by
  have hlegal := (SharedObject.linearizable (reachable_queue h)).2.1
  have heffect : (QueueOp.waitAndPop, r) ∈ s.queue.effects (queueOp entry) :=
    List.mem_map.mpr ⟨(.inr n, r), hmem, rfl⟩
  obtain ⟨q, q', hact⟩ := hlegal.acts_of_mem heffect
  exact ThreadSafeQueue.acts_waitAndPop hact

/-- The entries in `in_queue` are those that were pushed and not popped. -/
theorem queue_length (h : (inQueue entry).Reachable s) :
    (rounds (s.queue.done.map Prod.fst)).length + s.queue.data.q.length =
      (producers (s.queue.done.map Prod.fst)).length := by
  have hfifo := ThreadSafeQueue.reachable_balanced (reachable_queue h)
  have hlength := congrArg List.length hfifo
  rw [SharedState.effects, flatMap_pushed, List.length_append, List.length_map,
    length_taken entry fun n r hmem => value_of_done h hmem] at hlength
  exact hlength

omit [DecidableEq P] in
theorem permits_semaphoreOp (l : List (P ⊕ ℕ)) :
    permits (l.map semaphoreOp) = ((producers l).length : Int) - (rounds l).length := by
  induction l using List.reverseRecOn with
  | nil => rfl
  | append_singleton l i ih =>
      rw [List.map_append, List.map_singleton, permits_concat, producers_append, rounds_append]
      cases i with
      | inl j =>
          show permits (l.map semaphoreOp) + 1 = _
          rw [ih]
          simp
          omega
      | inr n =>
          show permits (l.map semaphoreOp) - 1 = _
          rw [ih]
          simp
          omega

/-- The count is what was signalled and not waited for. -/
theorem semaphore_count (h : (inQueue entry).Reachable s) :
    0 ≤ s.semaphore.data.count ∧ s.semaphore.data.count =
      ((producers (s.semaphore.done.map Prod.fst)).length : Int) -
        (rounds (s.semaphore.done.map Prod.fst)).length := by
  obtain ⟨hcount, hnonneg⟩ := reachable_permits (reachable_semaphore h)
  rw [permits_semaphoreOp] at hcount
  exact ⟨hnonneg, hcount⟩

/-- Every entry was pushed before it was signalled. -/
theorem signalled_le_pushed (h : (inQueue entry).Reachable s) :
    (producers (s.semaphore.done.map Prod.fst)).length ≤
      (producers (s.queue.done.map Prod.fst)).length := by
  have hsemaphore := reachable_semaphore h
  apply length_producers_le (SharedObject.linearizable hsemaphore).1.nodup
  intro j hj
  have hrank := (SharedObject.mem_order hsemaphore).mp hj
  -- `signal` took effect, so `Push` had returned
  have hbegan : s.semaphore.calls (.inl j) ≠ .absent := SharedPc.ne_absent_of_rank (by omega)
  have hreturned := (reachable_ordered h).signal j hbegan
  exact (SharedObject.mem_order (reachable_queue h)).mpr (SharedPc.rank_of_hasReturned hreturned)

/-! ## The handle thread -/

/-- From its call on until it takes effect, `WaitAndPop` has an entry to take. -/
theorem ready_of_rank (h : (inQueue entry).Reachable s) {n : ℕ}
    (hn : (s.queue.calls (.inr n)).rank = 1) : s.queue.data.q ≠ [] := by
  obtain ⟨⟨c, hc⟩, ⟨w, hw⟩⟩ := reachable_rounds h
  have hcn : ¬ n < c := by
    rw [← List.mem_range, ← hc, mem_rounds_done (reachable_queue h), hn]
    omega
  have hnw : n < w := by
    rw [← List.mem_range, ← hw, mem_rounds_done (reachable_semaphore h)]
    have hbegan : s.queue.calls (.inr n) ≠ .absent := SharedPc.ne_absent_of_rank (by omega)
    exact SharedPc.rank_of_hasReturned ((reachable_ordered h).pop n hbegan)
  have hlength := queue_length h
  obtain ⟨hnonneg, hcount⟩ := semaphore_count h
  have hpushed := signalled_le_pushed h
  rw [hc, List.length_range] at hlength
  rw [hw, List.length_range] at hcount
  intro hempty
  rw [hempty, List.length_nil] at hlength
  omega

end InQueue

variable {P T : Type} [DecidableEq P] {entry : P → T} {s : InQueue P T}

open InQueue in
/-- The `WaitAndPop` of the handle thread never goes to sleep: the semaphore has waited for it. -/
theorem handle_never_waits_on_queue (h : (inQueue entry).Reachable s) (n : ℕ) :
    s.queue.calls (.inr n) ≠ .wait := by
  apply h.invariant (I := fun s : InQueue P T => s.queue.calls (.inr n) ≠ .wait)
  · rintro _ rfl
    simp [InQueue.start, SharedObject.start]
  · intro s s' a hr hs _ hstep
    cases step_cases hstep with
    | queue b q _ hq =>
        intro hwait
        rcases SharedObject.step_wait (SharedObject.step_cases hq) hwait with hold | ⟨hrank, hnone⟩
        · exact hs hold
        · have hempty := ThreadSafeQueue.counts_length.waits hnone
          exact ready_of_rank hr hrank (List.length_eq_zero_iff.mp hempty)
    | semaphore b m _ _ => exact hs

/-- The handle thread sleeps in front of the semaphore, an entry is pushed and signalled, and the handle
thread pops it and goes on to its next round. -/
def oneEntryRun {P : Type} (j : P) : List (InQueueAct P) :=
  [.semaphore (.call (.inr 0)), .semaphore (.enter (.inr 0)), .queue (.call (.inl j)),
    .queue (.enter (.inl j)), .queue (.notify (.inl j) none), .queue (.ret (.inl j)),
    .semaphore (.call (.inl j)), .semaphore (.enter (.inl j)),
    .semaphore (.notify (.inl j) (some (.inr 0))), .semaphore (.ret (.inl j)),
    .semaphore (.enter (.inr 0)), .semaphore (.ret (.inr 0)), .queue (.call (.inr 0)),
    .queue (.enter (.inr 0)), .queue (.ret (.inr 0)), .semaphore (.call (.inr 1)),
    .semaphore (.enter (.inr 1))]

theorem handle_never_waits_on_queue_oneEntry : ∃ s : InQueue (Fin 2) ℕ,
    s.queue.calls (.inr 0) = .lock ∧ s.queue.calls (.inr 0) ≠ .wait := by
  obtain ⟨s, hr, hp⟩ := System.Reachable.exists_of_run (M := inQueue fun j : Fin 2 => j.val + 7)
    (p := fun s => s.queue.calls (.inr 0) = .lock) (.init rfl) ((oneEntryRun 0).take 13) (by decide)
  exact ⟨s, hp, handle_never_waits_on_queue hr 0⟩

open InQueue in
/-- Round `n` of the handle thread gets the entry that was pushed as number `n`. -/
theorem handle_pops_in_order (h : (inQueue entry).Reachable s) {n : ℕ} {r : QueueResult T}
    (hr : s.queue.calls (.inr n) = .returned r) :
    ∃ v, r = .value v ∧ ((producers (points s.queue.trace)).map entry)[n]? = some v := by
  have hqueue := reachable_queue h
  have hmem : (.inr n, r) ∈ s.queue.done := by
    rw [SharedObject.mem_done hqueue, hr]
    rfl
  obtain ⟨v, rfl⟩ := value_of_done h hmem
  refine ⟨v, rfl, ?_⟩
  obtain ⟨l, l', hl⟩ := List.append_of_mem hmem
  -- the rounds before it have popped the entries before
  have hround : (rounds (l.map Prod.fst)).length = n := by
    obtain ⟨c, hc⟩ := (reachable_rounds h).1
    have hn : (rounds (s.queue.done.map Prod.fst))[(rounds (l.map Prod.fst)).length]? = some n := by
      simp [hl]
    rw [hc] at hn
    obtain ⟨hlt, heq⟩ := List.getElem?_eq_some_iff.mp hn
    rwa [List.getElem_range] at heq
  have htaken : ((l.map fun p => (queueOp entry p.1, p.2)).flatMap QueueOp.taken).length = n := by
    rw [length_taken entry, hround]
    intro k r hk
    apply value_of_done h (n := k)
    rw [hl]
    exact List.mem_append_left _ hk
  have hfifo := ThreadSafeQueue.reachable_balanced hqueue
  rw [SharedState.effects, flatMap_pushed, hl, List.map_append, List.flatMap_append,
    List.append_assoc, ← hl] at hfifo
  rw [(SharedObject.reachable_explains hqueue).points, ← hfifo,
    List.getElem?_append_right (le_of_eq htaken), htaken, Nat.sub_self]
  rfl

theorem handle_pops_in_order_oneEntry : ∃ s : InQueue (Fin 2) ℕ,
    s.queue.calls (.inr 0) = .returned (.value 7) ∧
      ∃ v, QueueResult.value 7 = .value v ∧
        ((producers (points s.queue.trace)).map fun j => j.val + 7)[0]? = some v := by
  obtain ⟨s, hr, hp⟩ := System.Reachable.exists_of_run (M := inQueue fun j : Fin 2 => j.val + 7)
    (p := fun s => s.queue.calls (.inr 0) = .returned (.value 7)) (.init rfl) (oneEntryRun 0) (by decide)
  exact ⟨s, hp, handle_pops_in_order hr hp⟩

open InQueue in
/-- Where the handle thread sleeps in front of the semaphore, and every call that has begun to push
has returned from `signal`, there is no entry in `in_queue`. -/
theorem handle_not_stranded (h : (inQueue entry).Reachable s) {n : ℕ}
    (hn : s.semaphore.calls (.inr n) = .wait)
    (hpushed : ∀ j, s.queue.calls (.inl j) ≠ .absent →
      (s.semaphore.calls (.inl j)).hasReturned) : s.queue.data.q = [] := by
  have hordered := reachable_ordered h
  have hqueue := reachable_queue h
  have hsemaphore := reachable_semaphore h
  have hbegan : s.semaphore.calls (.inr n) ≠ .absent := by
    rw [hn]
    simp
  have hasleep : (s.semaphore.calls (.inr n)).hasReturned = false := by
    rw [hn]
    rfl
  have hbefore := hordered.before hbegan
  -- round `n` has not come to `in_queue`
  have hpop : s.queue.calls (.inr n) = .absent := by
    by_contra hpop
    rw [hordered.pop n hpop] at hasleep
    cases hasleep
  -- nobody is on the way to wake it up, so there is no permit
  have hidle (i : P ⊕ ℕ) : s.semaphore.calls i = .absent ∨ s.semaphore.calls i = .wait ∨
      (s.semaphore.calls i).hasReturned := by
    by_cases habsent : s.semaphore.calls i = .absent
    · exact .inl habsent
    · right
      cases i with
      | inl j => exact .inr (hpushed j (SharedPc.ne_absent (hordered.signal j habsent)))
      | inr k =>
          rcases Nat.lt_trichotomy k n with hk | rfl | hk
          · exact .inr (hbefore k hk).2
          · exact .inl hn
          · rw [(hordered.before habsent n hk).2] at hasleep
            cases hasleep
  have hcount : ¬ 0 < s.semaphore.data.count.toNat := by
    intro hpos
    apply SharedObject.not_stranded SemaphoreState.counts_permits hsemaphore
    refine ⟨hpos, fun i r hi => ?_, fun i hi => ?_, .inr n, hn⟩
    · rcases hidle i with h | h | h <;> (rw [hi] at h; cases h)
    · rcases hidle i with h | h | h <;> (rw [hi] at h; cases h)
  have hle : (producers (s.queue.done.map Prod.fst)).length ≤
      (producers (s.semaphore.done.map Prod.fst)).length := by
    apply length_producers_le (SharedObject.linearizable hqueue).1.nodup
    intro j hj
    have hrank := (SharedObject.mem_order hqueue).mp hj
    have hreturned := hpushed j (SharedPc.ne_absent_of_rank (by omega))
    exact (SharedObject.mem_order hsemaphore).mpr (SharedPc.rank_of_hasReturned hreturned)
  obtain ⟨⟨c, hc⟩, ⟨w, hw⟩⟩ := reachable_rounds h
  have hcn : n = c := by
    apply eq_of_rounds hqueue hc _ fun k hk => (hbefore k hk).1
    rw [hpop]
    exact Nat.not_succ_le_zero 1
  have hwn : n = w := by
    apply eq_of_rounds hsemaphore hw _ fun k hk => (hbefore k hk).2
    rw [hn]
    exact Nat.lt_irrefl 1
  have hlength := queue_length h
  obtain ⟨hnonneg, hpermits⟩ := semaphore_count h
  rw [hc, List.length_range] at hlength
  rw [hw, List.length_range] at hpermits
  apply List.eq_nil_of_length_eq_zero
  omega

theorem handle_not_stranded_oneEntry : ∃ s : InQueue (Fin 2) ℕ,
    s.semaphore.calls (.inr 1) = .wait ∧ s.queue.calls (.inl 0) ≠ .absent ∧
      s.queue.data.q = [] := by
  obtain ⟨s, hr, hp⟩ := System.Reachable.exists_of_run (M := inQueue fun j : Fin 2 => j.val + 7)
    (p := fun s => s.semaphore.calls (.inr 1) = .wait ∧ s.queue.calls (.inl 0) ≠ .absent ∧
      ∀ j, s.queue.calls (.inl j) ≠ .absent → (s.semaphore.calls (.inl j)).hasReturned)
    (.init rfl) (oneEntryRun 0) (by decide)
  exact ⟨s, hp.1, hp.2.1, handle_not_stranded hr hp.1 hp.2.2⟩

end VideoStream
