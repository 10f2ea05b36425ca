import VideoStream.Nodes.InQueue
import VideoStream.Nodes.Permits

/-!
# The atomic `in_queue`

The fields `inQueue` and `inQueueSemaphore` of a node change in one step where the code takes a
mutex, and may wait, notify and return. Both sides are runs of one system with four moves: an entry is
pushed, its signal comes later, the handle thread takes a permit, and then an entry.

* `in_queue_atomic` — the two objects with their callers make these moves, each in the step in which
  a call takes effect; every other step leaves them as they are.
* `node_in_queue_atomic` — a node makes the same moves, exactly where they are possible.
* `AtomicInQueue.Balanced` — on both sides each entry has its permit, or its signal is owed, or the
  handle thread holds its permit.
-/

namespace VideoStream

open Library

/-- The fields of a node, the signals that are owed for entries already pushed, and the permits that
the handle thread holds for entries not popped yet. -/
structure AtomicInQueue (T : Type) where
  inQueue : List T
  inQueueSemaphore : Nat
  owed : Nat
  held : Nat
  deriving DecidableEq

inductive InQueueMove (T : Type) where
  | push (v : T)
  | signal
  | wait
  | pop
  deriving DecidableEq

namespace AtomicInQueue

variable {T : Type}

def start : AtomicInQueue T := ⟨[], 0, 0, 0⟩

/-- `signal` comes behind a `push`, and `pop` behind a `wait`. -/
def step (s : AtomicInQueue T) : InQueueMove T → Option (AtomicInQueue T)
  | .push v => some { s with inQueue := s.inQueue ++ [v], owed := s.owed + 1 }
  | .signal =>
      if 0 < s.owed then
        some { s with inQueueSemaphore := s.inQueueSemaphore + 1, owed := s.owed - 1 }
      else none
  | .wait =>
      if s.held = 0 ∧ 0 < s.inQueueSemaphore then
        some { s with inQueueSemaphore := s.inQueueSemaphore - 1, held := 1 }
      else none
  | .pop =>
      match s.held, s.inQueue with
      | 1, _ :: inQueue => some { s with inQueue := inQueue, held := 0 }
      | _, _ => none

/-- Every entry has a permit, or is owed one, or the handle thread holds its permit. -/
def Balanced (s : AtomicInQueue T) : Prop :=
  s.inQueue.length = s.inQueueSemaphore + s.owed + s.held

end AtomicInQueue

def atomicInQueue {T : Type} : System (AtomicInQueue T) (InQueueMove T) where
  init s := s = AtomicInQueue.start
  step := AtomicInQueue.step

namespace AtomicInQueue

variable {T : Type} {s s' : AtomicInQueue T} {b : InQueueMove T}

theorem step_balanced (h : s.step b = some s') (hs : s.Balanced) : s'.Balanced := by
  unfold Balanced at hs ⊢
  cases b with
  | push v =>
      cases h
      show (s.inQueue ++ [v]).length = s.inQueueSemaphore + (s.owed + 1) + s.held
      rw [List.length_append, List.length_singleton]
      omega
  | signal =>
      obtain ⟨howed, hs'⟩ := Option.ite_none_right_eq_some.mp h
      cases hs'
      show s.inQueue.length = s.inQueueSemaphore + 1 + (s.owed - 1) + s.held
      omega
  | wait =>
      obtain ⟨⟨hheld, hpos⟩, hs'⟩ := Option.ite_none_right_eq_some.mp h
      cases hs'
      show s.inQueue.length = s.inQueueSemaphore - 1 + s.owed + 1
      omega
  | pop =>
      unfold step at h
      dsimp only at h
      split at h
      · next v inQueue hheld hqueue =>
          cases h
          rw [hqueue, List.length_cons, hheld] at hs
          show inQueue.length = s.inQueueSemaphore + s.owed + 0
          omega
      · cases h

theorem reachable_balanced (h : atomicInQueue.Reachable s) : s.Balanced := by
  apply h.invariant
  · rintro _ rfl
    rfl
  · intro s s' b _ hs _ hstep
    exact step_balanced hstep hs

end AtomicInQueue

/-! ## The two objects with their callers -/

namespace InQueue

variable {P T : Type}

/-- How many calls of producers, and of the handle thread, took effect. -/
def producersDone {D R : Type} (s : SharedState (P ⊕ ℕ) D R) : Nat :=
  (producers (s.done.map Prod.fst)).length

def roundsDone {D R : Type} (s : SharedState (P ⊕ ℕ) D R) : Nat :=
  (rounds (s.done.map Prod.fst)).length

/-- The entries and the count, with the calls that took effect on one of the objects only. -/
def atomic (s : InQueue P T) : AtomicInQueue T where
  inQueue := s.queue.data.q
  inQueueSemaphore := s.semaphore.data.count.toNat
  owed := producersDone s.queue - producersDone s.semaphore
  held := roundsDone s.semaphore - roundsDone s.queue

/-- The move of a step in which a call takes effect. -/
def inQueueMove (entry : P → T) : InQueueAct P → Option (InQueueMove T)
  | .queue (.enter (.inl j)) => some (.push (entry j))
  | .queue (.enter (.inr _)) => some .pop
  | .semaphore (.enter (.inl _)) => some .signal
  | .semaphore (.enter (.inr _)) => some .wait
  | _ => none

section Counting

variable {D R : Type} {s s' : SharedState (P ⊕ ℕ) D R} {r : R}

theorem done_inl {j : P} (h : s'.done = s.done ++ [(.inl j, r)]) :
    producersDone s' = producersDone s + 1 ∧ roundsDone s' = roundsDone s := by
  simp [producersDone, roundsDone, h]

theorem done_inr {n : ℕ} (h : s'.done = s.done ++ [(.inr n, r)]) :
    producersDone s' = producersDone s ∧ roundsDone s' = roundsDone s + 1 := by
  simp [producersDone, roundsDone, h]

end Counting

variable [DecidableEq P] {entry : P → T} {s s' : InQueue P T} {a : InQueueAct P}

/-- A round pops behind its permit, and the next round takes a permit behind that. -/
theorem rounds_interleave (h : (inQueue entry).Reachable s) :
    roundsDone s.queue ≤ roundsDone s.semaphore ∧
      roundsDone s.semaphore ≤ roundsDone s.queue + 1 := by
  obtain ⟨⟨c, hc⟩, ⟨w, hw⟩⟩ := reachable_rounds h
  have hordered := reachable_ordered h
  have hpopped (n : ℕ) : n < c ↔ 2 ≤ (s.queue.calls (.inr n)).rank := by
    rw [← mem_rounds_done (reachable_queue h), hc, List.mem_range]
  have hwaited (n : ℕ) : n < w ↔ 2 ≤ (s.semaphore.calls (.inr n)).rank := by
    rw [← mem_rounds_done (reachable_semaphore h), hw, List.mem_range]
  rw [roundsDone, roundsDone, hc, hw, List.length_range, List.length_range]
  constructor
  · by_contra hlt
    have hbegan := (hpopped w).mp (by omega)
    have hreturned := hordered.pop w (SharedPc.ne_absent_of_rank (by omega))
    exact absurd ((hwaited w).mpr (SharedPc.rank_of_hasReturned hreturned)) (Nat.lt_irrefl w)
  · by_contra hlt
    have hbegan := (hwaited (c + 1)).mp (by omega)
    have hreturned := hordered.wait c (SharedPc.ne_absent_of_rank (by omega))
    exact absurd ((hpopped c).mpr (SharedPc.rank_of_hasReturned hreturned)) (Nat.lt_irrefl c)

/-- A call takes effect on `in_queue`. -/
theorem queue_acts {i : P ⊕ ℕ} {r : QueueResult T} (h : (inQueue entry).Reachable s)
    (h' : (inQueue entry).Reachable s') (hsame : s'.semaphore = s.semaphore)
    (hacts : (threadSafeQueue T).Acts s.queue.data (queueOp entry i) r s'.queue.data)
    (hdone : s'.queue.done = s.queue.done ++ [(i, r)]) :
    ∃ b ∈ inQueueMove entry (.queue (.enter i)), s.atomic.step b = some s'.atomic := by
  have hfifo := ThreadSafeQueue.acts_fifo hacts
  have hrounds := rounds_interleave h'
  rw [hsame] at hrounds
  cases i with
  | inl j =>
      have hsignalled : producersDone s.semaphore ≤ producersDone s.queue := signalled_le_pushed h
      obtain ⟨hproducers, hsameRounds⟩ := done_inl hdone
      have hqueue : s'.queue.data.q = s.queue.data.q ++ [entry j] := hfifo
      refine ⟨_, rfl, ?_⟩
      unfold atomic
      rw [hsame, hproducers, hsameRounds, hqueue, Nat.succ_sub hsignalled]
      rfl
  | inr n =>
      obtain ⟨hsameProducers, hround⟩ := done_inr hdone
      obtain ⟨v, rfl⟩ := ThreadSafeQueue.acts_waitAndPop hacts
      have hqueue : v :: s'.queue.data.q = s.queue.data.q ++ [] := hfifo
      rw [List.append_nil] at hqueue
      -- round `n` is the one that holds the permit
      have hheld : roundsDone s.semaphore - roundsDone s.queue = 1 := by
        have hbefore := rounds_interleave h
        omega
      have hleft : roundsDone s.semaphore - roundsDone s'.queue = 0 := by omega
      refine ⟨_, rfl, ?_⟩
      unfold atomic
      rw [hsame, hsameProducers, hleft, hheld, ← hqueue]
      rfl

/-- A call takes effect on `in_queue_semaphore`. -/
theorem semaphore_acts {i : P ⊕ ℕ} {r : Unit} (h : (inQueue entry).Reachable s)
    (h' : (inQueue entry).Reachable s') (hsame : s'.queue = s.queue)
    (hacts : vpSemaphore.object.Acts s.semaphore.data (semaphoreOp i) r s'.semaphore.data)
    (hdone : s'.semaphore.done = s.semaphore.done ++ [(i, r)]) :
    ∃ b ∈ inQueueMove entry (.semaphore (.enter i)), s.atomic.step b = some s'.atomic := by
  have hbody := Monitor.acts_object.mp hacts
  have hrounds := rounds_interleave h'
  rw [hsame] at hrounds
  have hnonneg := (semaphore_count h).1
  cases i with
  | inl j =>
      have hsignalled : producersDone s'.semaphore ≤ producersDone s'.queue :=
        signalled_le_pushed h'
      obtain ⟨hproducers, hsameRounds⟩ := done_inl hdone
      have hdata : s.semaphore.data.signal = s'.semaphore.data := Option.some.inj hbody
      have hcount : s'.semaphore.data.count = s.semaphore.data.count + 1 := by
        rw [← hdata]
        rfl
      refine ⟨_, rfl, ?_⟩
      rw [hsame] at hsignalled
      have howed : 0 < s.atomic.owed := by
        show 0 < producersDone s.queue - producersDone s.semaphore
        omega
      rw [AtomicInQueue.step, if_pos howed]
      unfold atomic
      rw [hsame, hproducers, hsameRounds, hcount, Int.toNat_add hnonneg (by decide)]
      rfl
  | inr n =>
      obtain ⟨hsameProducers, hround⟩ := done_inr hdone
      obtain ⟨hpos, hdata⟩ := Option.ite_none_right_eq_some.mp hbody
      have hcount : s'.semaphore.data.count = s.semaphore.data.count - 1 := by
        rw [← Option.some.inj hdata]
      refine ⟨_, rfl, ?_⟩
      have hfree : s.atomic.held = 0 ∧ 0 < s.atomic.inQueueSemaphore := by
        have hbefore := rounds_interleave h
        refine ⟨?_, ?_⟩
        · show roundsDone s.semaphore - roundsDone s.queue = 0
          omega
        · show 0 < s.semaphore.data.count.toNat
          omega
      have hheld : roundsDone s'.semaphore - roundsDone s.queue = 1 := by
        have hbefore := rounds_interleave h
        omega
      rw [AtomicInQueue.step, if_pos hfree]
      unfold atomic
      rw [hsame, hsameProducers, hheld, hcount]
      simp only [Option.some.injEq, AtomicInQueue.mk.injEq, true_and, and_true]
      omega

/-- A step leaves the entries and the count as they are, or a call takes effect in it. -/
theorem step_atomic (h : (inQueue entry).Reachable s) (hstep : s.step entry a = some s') :
    s'.atomic = s.atomic ∨ ∃ b ∈ inQueueMove entry a, s.atomic.step b = some s'.atomic := by
  have h' : (inQueue entry).Reachable s' := .step h trivial hstep
  obtain ⟨-, hmove⟩ := Option.ite_none_right_eq_some.mp hstep
  cases a with
  | queue b =>
      obtain ⟨q, hq, rfl⟩ := Option.map_eq_some_iff.mp hmove
      rcases SharedObject.step_acts (SharedObject.step_cases hq) with ⟨hdata, hdone⟩ | hacts
      · left
        simp only [atomic, producersDone, roundsDone, hdata, hdone]
      · obtain ⟨i, r, rfl, hacts, hdone, -⟩ := hacts
        exact .inr (queue_acts h h' rfl hacts hdone)
  | semaphore b =>
      obtain ⟨m, hm, rfl⟩ := Option.map_eq_some_iff.mp hmove
      rcases SharedObject.step_acts (SharedObject.step_cases hm) with ⟨hdata, hdone⟩ | hacts
      · left
        simp only [atomic, producersDone, roundsDone, hdata, hdone]
      · obtain ⟨i, r, rfl, hacts, hdone, -⟩ := hacts
        exact .inr (semaphore_acts h h' rfl hacts hdone)

theorem reachable_atomic (h : (inQueue entry).Reachable s) : atomicInQueue.Reachable s.atomic := by
  apply h.invariant (I := fun s : InQueue P T => atomicInQueue.Reachable s.atomic)
  · rintro _ rfl
    exact .init rfl
  · intro s s' a hr hs _ hstep
    rcases step_atomic hr hstep with hsame | ⟨b, -, hb⟩
    · rwa [hsame]
    · exact .step hs trivial hb

end InQueue

/-- The two objects are never seen in another state than the atomic `in_queue`, and reach it by its
moves, one at most in each step. -/
theorem in_queue_atomic {P T : Type} [DecidableEq P] {entry : P → T} {s : InQueue P T}
    (h : (inQueue entry).Reachable s) : atomicInQueue.Reachable s.atomic ∧ s.atomic.Balanced ∧
      ∀ a s', s.step entry a = some s' → s'.atomic = s.atomic ∨
        ∃ b ∈ InQueue.inQueueMove entry a, s.atomic.step b = some s'.atomic := by
  have hatomic := InQueue.reachable_atomic h
  exact ⟨hatomic, AtomicInQueue.reachable_balanced hatomic, fun _ _ => InQueue.step_atomic h⟩

/-- The entry is pushed and signalled, and the handle thread holds its permit. -/
theorem in_queue_atomic_oneEntry : ∃ s : InQueue (Fin 2) ℕ, s.atomic = ⟨[7], 0, 0, 1⟩ ∧
    atomicInQueue.Reachable s.atomic ∧ s.atomic.Balanced ∧
      ∀ a s', s.step (fun j => j.val + 7) a = some s' → s'.atomic = s.atomic ∨
        ∃ b ∈ InQueue.inQueueMove (fun j => j.val + 7) a, s.atomic.step b = some s'.atomic := by
  obtain ⟨s, hr, hp⟩ := System.Reachable.exists_of_run (M := inQueue fun j : Fin 2 => j.val + 7)
    (p := fun s => s.atomic = ⟨[7], 0, 0, 1⟩) (.init rfl) ((oneEntryRun 0).take 13) (by decide)
  exact ⟨s, hp, in_queue_atomic hr⟩

/-! ## A node -/

namespace Node

variable {H M S : Type} [PermitAccount H]

/-- The fields of the node, with what the calls in progress owe and the handle thread holds. -/
def atomic (s : Node H M S) : AtomicInQueue (Option M) where
  inQueue := s.inQueue
  inQueueSemaphore := s.inQueueSemaphore
  owed := weight Call.owesIn s.calls + s.deinit.owes
  held := holds s.handle

/-- The move of a step of the shared threads. -/
def inQueueMove (s : Node H M S) : NodeAct M → Option (InQueueMove (Option M))
  | .call i =>
      match s.calls[i]? with
      | some (.metaFlow m .push) => some (.push (some m))
      | some (.metaFlow _ .signal) => some .signal
      | _ => none
  | .deinit =>
      match s.deinit with
      | .push => some (.push none)
      | .signal => some .signal
      | _ => none
  | _ => none

variable [HandleThread H] {s s' : Node H M S} {a : NodeAct M}

/-- A call of `meta_flow` makes the moves of its `Push` and its `signal`. -/
theorem call_atomic {i : Nat} {b : InQueueMove (Option M)}
    (hb : s.inQueueMove (.call i) = some b) :
    (s.step (.call i)).map atomic = s.atomic.step b := by
  unfold inQueueMove at hb
  dsimp only at hb
  split at hb
  · next m hc =>
      cases hb
      have hweight : weight Call.owesIn (advance s.calls i (.metaFlow m .push)) =
          weight Call.owesIn s.calls + 1 := weight_advance (w := Call.owesIn) hc
      show (s.calls[i]?.map _).map atomic = _
      rw [hc]
      simp only [Option.map_some, atomic, callBody, metaFlowBody, AtomicInQueue.step, hweight,
        Nat.add_right_comm]
  · next m hc =>
      cases hb
      have hweight : weight Call.owesIn (advance s.calls i (.metaFlow m .signal)) + 1 =
          weight Call.owesIn s.calls := weight_advance (w := Call.owesIn) hc
      have howed : 0 < s.atomic.owed := by
        show 0 < weight Call.owesIn s.calls + s.deinit.owes
        omega
      show (s.calls[i]?.map _).map atomic = _
      rw [hc, AtomicInQueue.step, if_pos howed]
      simp only [Option.map_some, atomic, callBody, metaFlowBody, Option.some.injEq,
        AtomicInQueue.mk.injEq, true_and, and_true]
      omega
  · cases hb

/-- So does `deinitialized`. -/
theorem deinit_atomic {b : InQueueMove (Option M)} (hb : s.inQueueMove .deinit = some b) :
    (s.step .deinit).map atomic = s.atomic.step b := by
  unfold inQueueMove at hb
  dsimp only at hb
  show s.deinitStep.map atomic = _
  split at hb
  · next hp =>
      cases hb
      simp only [deinitStep, hp, Option.map_some, atomic, AtomicInQueue.step, DeinitPc.owes,
        Nat.add_zero]
  · next hp =>
      cases hb
      have howed : 0 < s.atomic.owed := by
        show 0 < weight Call.owesIn s.calls + s.deinit.owes
        rw [hp]
        exact Nat.succ_pos _
      rw [AtomicInQueue.step, if_pos howed]
      simp only [deinitStep, hp, Option.map_some, atomic, DeinitPc.owes, Nat.add_zero,
        Nat.add_sub_cancel]
  · cases hb

/-- No other step of a shared thread touches `in_queue` or its semaphore. -/
theorem step_atomic_of_none (h : s.step a = some s') (hb : s.inQueueMove a = none) :
    s'.atomic = s.atomic := by
  cases a with
  | dispatch => cases dispatchStep_cases h <;> rfl
  | metaFlow m =>
      cases m with
      | none => cases h; rfl
      | some m =>
          cases h
          simp [atomic, Call.owesIn, FlowPc.owes]
  | pendingMeta m =>
      cases h
      simp [atomic, Call.owesIn]
  | call i =>
      obtain ⟨c, hc, rfl⟩ := callStep_cases h
      have hweight := weight_advance (w := Call.owesIn) hc
      simp only [inQueueMove, hc] at hb
      rcases c with ⟨m, pc⟩ | ⟨m, pc⟩ <;> cases pc <;>
        simp only [Call.next, FlowPc.next, Option.map_some, Option.map_none, Option.getD_some,
          Option.getD_none, Call.owesIn, FlowPc.owes] at hweight
      case metaFlow.push | metaFlow.signal => cases hb
      case metaFlow.hook | pendingMeta.push | pendingMeta.hook | pendingMeta.signal =>
        simp only [atomic, callBody, metaFlowBody, pendingMetaBody, AtomicInQueue.mk.injEq,
          true_and, and_true]
        omega
  | deinitialized =>
      obtain ⟨hp, rfl⟩ := deinitialized_cases h
      simp only [atomic, hp]
      rfl
  | deinit =>
      cases deinitStep_cases h with
      | push hp | signal hp => simp [inQueueMove, hp] at hb
      | alive hp | joinHandle hp _ | joinDispatch hp _ =>
          simp only [atomic, hp]
          rfl

end Node

namespace VpNode

variable {M S : Type}

/-- The move of a step of a plain node. -/
def inQueueMove (s : VpNode M S) : VpAct M → Option (InQueueMove (Option M))
  | .handle =>
      match s.handle.pc with
      | .wait => some .wait
      | .pop => some .pop
      | _ => none
  | .node a => Node.inQueueMove s a

variable [Meta M] {cfg : NodeConfig M} {s s' : VpNode M S} {a : VpAct M}

/-- The handle thread makes the moves of its `wait` and its `WaitAndPop`. -/
theorem handle_atomic {b : InQueueMove (Option M)} (hb : s.inQueueMove .handle = some b) :
    (s.handleStep cfg).map Node.atomic = s.atomic.step b := by
  unfold inQueueMove at hb
  dsimp only at hb
  split at hb
  · next hp =>
      cases hb
      have hheld : s.atomic.held = 0 := by
        show s.handle.pc.holds = 0
        rw [hp]
        rfl
      simp only [handleStep, hp, AtomicInQueue.step, hheld, true_and]
      show Option.map _ (if 0 < s.inQueueSemaphore then _ else _) =
        if 0 < s.inQueueSemaphore then _ else _
      split <;> rfl
  · next hp =>
      cases hb
      have hheld : s.atomic.held = 1 := by
        show s.handle.pc.holds = 1
        rw [hp]
        rfl
      have hqueue : s.atomic.inQueue = s.inQueue := rfl
      simp only [handleStep, hp, AtomicInQueue.step, hheld, hqueue]
      cases hentries : s.inQueue with
      | nil => rfl
      | cons e rest => cases e <;> rfl
  · cases hb

theorem handle_atomic_of_none (h : s.handleStep cfg = some s')
    (hb : s.inQueueMove .handle = none) : s'.atomic = s.atomic := by
  cases handleStep_cases h with
  | wait hp _ | popNull rest hp _ | popMeta m rest hp _ => simp [inQueueMove, hp] at hb
  | enter hp _ | leave hp _ | handlingHook m hp | throws m msg hp _ | consumed m r hp _ _
  | emit m r hp _ _ | keep m r hp _ _ | pushEnd hp | push i rest hp | handledHook i rest hp
  | signal rest hp | deadPush hp | deadSignal hp =>
      simp only [Node.atomic, holds, hp]
      rfl

variable (cfg s a) in
/-- A step of a node makes its move on `in_queue`, and is possible exactly where the move is; a step
without a move leaves `in_queue` and its semaphore as they are. -/
theorem step_atomic :
    (∀ b, s.inQueueMove a = some b →
      ((vpNode cfg).step s a).map Node.atomic = s.atomic.step b) ∧
    (s.inQueueMove a = none →
      ∀ s', (vpNode cfg).step s a = some s' → s'.atomic = s.atomic) := by
  cases a with
  | handle => exact ⟨fun _ => handle_atomic, fun hb _ h => handle_atomic_of_none h hb⟩
  | node a =>
      refine ⟨fun b hb => ?_, fun hb _ h => Node.step_atomic_of_none h hb⟩
      cases a with
      | call i => exact Node.call_atomic hb
      | deinit => exact Node.deinit_atomic hb
      | dispatch | metaFlow _ | pendingMeta _ | deinitialized => cases hb

theorem reachable_atomic (h : (vpNode cfg).Reachable s) : atomicInQueue.Reachable s.atomic := by
  apply h.invariant (I := fun s : VpNode M S => atomicInQueue.Reachable s.atomic)
  · rintro _ ⟨subscribers, rfl⟩
    exact .init rfl
  · intro s s' a _ hs _ hstep
    obtain ⟨hmove, hnone⟩ := step_atomic cfg s a
    cases hb : s.inQueueMove a with
    | none => rwa [hnone hb s' hstep]
    | some b =>
        have hatomic := hmove b hb
        rw [hstep] at hatomic
        exact .step hs trivial hatomic.symm

end VpNode

/-- A node is never seen with another `in_queue` than the atomic one. Each of its steps makes at most
one of the moves, and a step with a move is possible exactly where the move is. -/
theorem node_in_queue_atomic {M S : Type} [Meta M] {cfg : NodeConfig M} {s : VpNode M S}
    (h : (vpNode cfg).Reachable s) : atomicInQueue.Reachable s.atomic ∧ s.atomic.Balanced ∧
      ∀ a, (∀ b, s.inQueueMove a = some b →
          ((vpNode cfg).step s a).map Node.atomic = s.atomic.step b) ∧
        (s.inQueueMove a = none → ∀ s', (vpNode cfg).step s a = some s' → s'.atomic = s.atomic) := by
  have hatomic := VpNode.reachable_atomic h
  exact ⟨hatomic, AtomicInQueue.reachable_balanced hatomic, VpNode.step_atomic cfg s⟩

/-- A frame is in the queue and its signal is owed. -/
theorem node_in_queue_atomic_oneFrame : ∃ s : VpNode MetaPtr ℕ,
    s.atomic = ⟨[some (.frame 0)], 0, 1, 0⟩ ∧
    atomicInQueue.Reachable s.atomic ∧ s.atomic.Balanced ∧
      ∀ a, (∀ b, s.inQueueMove a = some b →
          (baseNode.step s a).map Node.atomic = s.atomic.step b) ∧
        (s.inQueueMove a = none → ∀ s', baseNode.step s a = some s' → s'.atomic = s.atomic) := by
  obtain ⟨s, hr, hp⟩ := System.Reachable.exists_of_run (M := baseNode)
    (p := fun s => s.atomic = ⟨[some (.frame 0)], 0, 1, 0⟩) (.init ⟨[], rfl⟩)
    [.node (.metaFlow (some (.frame 0))), .node (.call 0)] (by decide)
  exact ⟨s, hp, node_in_queue_atomic hr⟩

end VideoStream
