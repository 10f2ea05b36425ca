import VideoStream.Nodes.VpNode
import VideoStream.Nodes.VpSrcNode

/-!
# The semaphores never run ahead of the queues

A queue and its semaphore are separate objects, and every producer updates them in this order: it
pushes an entry, and some steps later it signals. Between the two it *owes* a signal. A consumer
takes a permit first and pops later: in between it *holds* a permit. So the permits, the permits
held and the signals owed together never exceed the entries:

    count + held + owed ≤ size

(a `nullptr` that the dispatch thread finds at the head costs a permit and stays). Everything else
about the peek-then-pop dispatcher follows: its `Front` finds an entry, and nobody but itself takes
that entry away.
-/

namespace VideoStream

open Library

/-! ## Permits held and signals owed -/

/-- The dispatch thread is between its `wait` and its `Pop`, or its null `continue`. -/
def DispatchPc.holds {M S : Type} : DispatchPc M S → Nat
  | .front | .leavingHook _ | .pushMeta _ | .publish .. | .pop _ => 1
  | _ => 0

/-- The meta the dispatch thread has taken from `Front` and not popped yet. -/
def DispatchPc.current {M S : Type} : DispatchPc M S → Option M
  | .leavingHook m | .pushMeta m | .publish m _ _ | .pop m => some m
  | _ => none

/-- The meta the dispatch thread has given to `push_meta` and not popped yet. -/
def DispatchPc.given {M S : Type} : DispatchPc M S → Option M
  | .publish m _ _ | .pop m => some m
  | _ => none

def FlowPc.owes : FlowPc → Nat
  | .push => 0
  | .hook | .signal => 1

/-- Signals of `in_queue_semaphore` that a call in progress owes. -/
def Call.owesIn {M : Type} : Call M → Nat
  | .metaFlow _ pc => pc.owes
  | .pendingMeta .. => 0

/-- Signals of `out_queue_semaphore` that a call in progress owes. -/
def Call.owesOut {M : Type} : Call M → Nat
  | .metaFlow .. => 0
  | .pendingMeta _ pc => pc.owes

def DeinitPc.owes : DeinitPc → Nat
  | .signal => 1
  | _ => 0

/-- The handle thread's part in the account: signals of `out_queue_semaphore` that it owes, and
permits of `in_queue_semaphore` that it holds. -/
class PermitAccount (H : Type) where
  owes : H → Nat
  holds : H → Nat

export PermitAccount (owes holds)

def HandlePc.owes {M : Type} : HandlePc M → Nat
  | .handledHook .. | .signal _ | .deadSignal => 1
  | _ => 0

def HandlePc.holds {M : Type} : HandlePc M → Nat
  | .pop => 1
  | _ => 0

instance {M : Type} : PermitAccount (HandleRun M) where
  owes h := h.pc.owes
  holds h := h.pc.holds

def SrcPc.owes {M : Type} : SrcPc M → Nat
  | .handleFrame _ | .signal _ | .deadSignal => 1
  | _ => 0

/-- The handle thread of a source does not touch `in_queue`. -/
instance {M : Type} : PermitAccount (SrcPc M) where
  owes := SrcPc.owes
  holds _ := 0

namespace Node

variable {H M S : Type}

/-- The account of `out_queue`, with `k` for the handle thread. -/
def OutBalance (s : Node H M S) (k : Nat) : Prop :=
  s.outQueueSemaphore + s.dispatch.holds + weight Call.owesOut s.calls + k ≤ s.outQueue.length

/-- The account of `in_queue`, with `k` for the handle thread. -/
def InBalance (s : Node H M S) (k : Nat) : Prop :=
  s.inQueueSemaphore + weight Call.owesIn s.calls + s.deinit.owes + k ≤ s.inQueue.length

/-- The accounts, and what the dispatch thread knows of the head of `out_queue`. -/
structure PermitInv [PermitAccount H] (s : Node H M S) : Prop where
  out : s.OutBalance (owes s.handle)
  inn : s.InBalance (holds s.handle)
  head : ∀ m, s.dispatch.current = some m → s.outQueue.head? = some (some m)
  given : ∀ m, s.dispatch.given = some m → s.pushedMetas.getLast? = some m
  noThrow : s.dispatch ≠ .threw

/-! ## The shared threads keep the accounts -/

section Steps

variable {s s' : Node H M S}

theorem publishNext_holds (m : M) (rest : List S) (ph : FlowPc) :
    (publishNext m rest ph).holds = 1 := by
  cases rest <;> cases ph <;> rfl

theorem publishNext_current (m : M) (rest : List S) (ph : FlowPc) :
    (publishNext m rest ph).current = some m := by
  cases rest <;> cases ph <;> rfl

theorem publishNext_given (m : M) (rest : List S) (ph : FlowPc) :
    (publishNext m rest ph).given = some m := by
  cases rest <;> cases ph <;> rfl

theorem publishNext_ne_threw (m : M) (rest : List S) (ph : FlowPc) :
    (publishNext m rest ph : DispatchPc M S) ≠ .threw := by
  cases rest <;> cases ph <;> simp [publishNext]

theorem dispatchStep_permitInv [PermitAccount H] (h : s.dispatchStep = some s')
    (hs : s.PermitInv) : s'.PermitInv := by
  obtain ⟨hout, hin, hhead, hgiven, hthrow⟩ := hs
  unfold OutBalance at hout
  cases dispatchStep_cases h with
  | enter hp _ | leave hp _ =>
      simp only [hp, DispatchPc.holds] at hout
      exact ⟨by simpa [OutBalance, DispatchPc.holds] using hout, hin,
        by simp [DispatchPc.current], by simp [DispatchPc.given], by simp⟩
  | wait hp hpos =>
      simp only [hp, DispatchPc.holds] at hout
      refine ⟨?_, hin, by simp [DispatchPc.current], by simp [DispatchPc.given], by simp⟩
      simp only [OutBalance, DispatchPc.holds]
      omega
  | frontEmpty hp hq =>
      -- the permit held stands for an entry
      simp only [hp, hq, DispatchPc.holds, List.length_nil] at hout
      omega
  | frontNull rest hp hq =>
      simp only [hp, DispatchPc.holds] at hout
      refine ⟨?_, hin, by simp [DispatchPc.current], by simp [DispatchPc.given], by simp⟩
      simp only [OutBalance, DispatchPc.holds]
      omega
  | frontMeta m rest hp hq =>
      simp only [hp, DispatchPc.holds] at hout
      exact ⟨hout, hin, by simp [DispatchPc.current, hq], by simp [DispatchPc.given], by simp⟩
  | leavingHook m hp =>
      simp only [hp, DispatchPc.holds] at hout
      simp only [hp, DispatchPc.current] at hhead
      exact ⟨hout, hin, by simpa [DispatchPc.current] using hhead, by simp [DispatchPc.given],
        by simp⟩
  | pushMeta m hp =>
      simp only [hp, DispatchPc.holds] at hout
      simp only [hp, DispatchPc.current] at hhead
      refine ⟨hout, hin, by simpa [DispatchPc.current] using hhead, ?_, by simp⟩
      simp [DispatchPc.given, pushedMetas, Event.pushed]
  | publish m rest ph hp =>
      simp only [hp, DispatchPc.holds] at hout
      simp only [hp, DispatchPc.current] at hhead
      simp only [hp, DispatchPc.given] at hgiven
      refine ⟨?_, hin, ?_, ?_, publishNext_ne_threw m rest ph⟩
      · simpa only [OutBalance, publishNext_holds] using hout
      · simpa only [publishNext_current] using hhead
      · intro m' hm'
        exact hgiven m' (publishNext_given m rest ph ▸ hm')
  | pop m hp =>
      simp only [hp, DispatchPc.holds] at hout
      refine ⟨?_, hin, by simp [DispatchPc.current], by simp [DispatchPc.given], by simp⟩
      simp only [OutBalance, DispatchPc.holds, List.length_tail]
      omega

/-- A call that is not at its last step goes on owing; its weight after the step. -/
theorem callStep_permitInv [PermitAccount H] {i : Nat} (h : s.callStep i = some s')
    (hs : s.PermitInv) : s'.PermitInv := by
  obtain ⟨hout, hin, hhead, hgiven, hthrow⟩ := hs
  obtain ⟨c, hc, rfl⟩ := callStep_cases h
  have hwin := weight_advance (w := Call.owesIn) hc
  have hwout := weight_advance (w := Call.owesOut) hc
  unfold OutBalance at hout
  unfold InBalance at hin
  rcases c with ⟨m, pc⟩ | ⟨m, pc⟩ <;> cases pc <;>
    simp only [Call.next, FlowPc.next, Option.map_some, Option.map_none, Option.getD_some,
      Option.getD_none, Call.owesIn, Call.owesOut, FlowPc.owes] at hwin hwout
  case metaFlow.push | metaFlow.hook | metaFlow.signal =>
    refine ⟨?_, ?_, hhead, ?_, hthrow⟩
    · simp only [OutBalance, callBody, metaFlowBody]
      omega
    · simp only [InBalance, callBody, metaFlowBody, List.length_append, List.length_singleton]
      omega
    · simpa [callBody, metaFlowBody, pushedMetas, Event.pushed] using hgiven
  case pendingMeta.push | pendingMeta.hook | pendingMeta.signal =>
    refine ⟨?_, ?_, ?_, ?_, hthrow⟩
    · simp only [OutBalance, callBody, pendingMetaBody, List.length_append,
        List.length_singleton]
      omega
    · simp only [InBalance, callBody, pendingMetaBody]
      omega
    · intro m' hm'
      simp [callBody, pendingMetaBody, hhead m' hm']
    · simpa [callBody, pendingMetaBody, pushedMetas, Event.pushed] using hgiven

theorem start_permitInv [PermitAccount H] {h : H} {subscribers : List S} (ho : owes h = 0)
    (hh : holds h = 0) : (Node.start h subscribers : Node H M S).PermitInv :=
  ⟨by simp [OutBalance, start, ho, DispatchPc.holds],
    by simp [InBalance, start, hh, DeinitPc.owes],
    by simp [start, DispatchPc.current], by simp [start, DispatchPc.given], by simp [start]⟩

variable [HandleThread H]

theorem deinitStep_permitInv [PermitAccount H] (h : s.deinitStep = some s')
    (hs : s.PermitInv) : s'.PermitInv := by
  obtain ⟨hout, hin, hhead, hgiven, hthrow⟩ := hs
  unfold InBalance at hin
  cases deinitStep_cases h with
  | alive hp | push hp | signal hp | joinHandle hp _ | joinDispatch hp _ =>
      simp only [hp, DeinitPc.owes] at hin
      refine ⟨hout, ?_, hhead, hgiven, hthrow⟩
      simp only [InBalance, DeinitPc.owes, List.length_append, List.length_singleton]
      omega

/-- Every step of a shared thread keeps the accounts. -/
theorem step_permitInv [PermitAccount H] {a : NodeAct M} (h : s.step a = some s')
    (hs : s.PermitInv) : s'.PermitInv := by
  cases a with
  | dispatch => exact dispatchStep_permitInv h hs
  | metaFlow m =>
      cases m with
      | none => cases h; exact hs
      | some m =>
          cases h
          exact ⟨by simpa [OutBalance, Call.owesOut, FlowPc.owes] using hs.out,
            by simpa [InBalance, Call.owesIn, FlowPc.owes] using hs.inn, hs.head, hs.given,
            hs.noThrow⟩
  | pendingMeta m =>
      cases h
      exact ⟨by simpa [OutBalance, Call.owesOut, FlowPc.owes] using hs.out,
        by simpa [InBalance, Call.owesIn, FlowPc.owes] using hs.inn, hs.head, hs.given,
        hs.noThrow⟩
  | call i => exact callStep_permitInv h hs
  | deinitialized =>
      obtain ⟨hi, rfl⟩ := deinitialized_cases h
      obtain ⟨hout, hin, hhead, hgiven, hthrow⟩ := hs
      simp only [InBalance, hi, DeinitPc.owes] at hin
      exact ⟨hout, hin, hhead, hgiven, hthrow⟩
  | deinit => exact deinitStep_permitInv h hs

end Steps

end Node

/-! ## The handle threads keep the accounts -/

namespace VpNode

open Node

variable {M S : Type} [Meta M] {cfg : NodeConfig M} {s s' : VpNode M S}

omit [Meta M] in
theorem pushed_batchEvents (h : Handled M) : (batchEvents h).filterMap Event.pushed = [] := by
  unfold batchEvents
  split <;> rfl

theorem handleStep_permitInv (h : s.handleStep cfg = some s') (hs : s.PermitInv) :
    s'.PermitInv := by
  obtain ⟨hout, hin, hhead, hgiven, hthrow⟩ := hs
  simp only [OutBalance, owes] at hout
  simp only [InBalance, holds] at hin
  -- what an entry pushed at the back leaves true of the head
  have hhead' : ∀ i : Option M, ∀ m, s.dispatch.current = some m →
      (s.outQueue ++ [i]).head? = some (some m) := by
    intro i m hm
    simp [hhead m hm]
  cases handleStep_cases h with
  | enter hp _ | leave hp _ | wait hp _ | handlingHook m hp | pushEnd hp | handledHook i rest hp
  | signal rest hp | deadSignal hp =>
      simp only [hp, HandlePc.owes, HandlePc.holds] at hout hin
      refine ⟨?_, ?_, hhead, by simpa [pushedMetas, Event.pushed] using hgiven, hthrow⟩
      · simp only [OutBalance, owes, HandlePc.owes]
        omega
      · simp only [InBalance, holds, HandlePc.holds]
        omega
  | popNull rest hp hq | popMeta m rest hp hq =>
      simp only [hp, hq, HandlePc.owes, HandlePc.holds, List.length_cons] at hout hin
      refine ⟨hout, ?_, hhead, by simpa [pushedMetas, Event.pushed] using hgiven, hthrow⟩
      simp only [InBalance, holds, HandlePc.holds]
      omega
  | throws m msg hp _ =>
      simp only [hp, HandlePc.owes, HandlePc.holds] at hout hin
      exact ⟨hout, hin, hhead, hgiven, hthrow⟩
  | consumed m r hp _ _ | emit m r hp _ _ | keep m r hp _ _ =>
      simp only [hp, HandlePc.owes, HandlePc.holds] at hout hin
      exact ⟨hout, hin, hhead, by simpa [pushedMetas, pushed_batchEvents] using hgiven, hthrow⟩
  | push i rest hp =>
      simp only [hp, HandlePc.owes, HandlePc.holds] at hout hin
      refine ⟨?_, hin, hhead' i, by simpa [pushedMetas, Event.pushed] using hgiven, hthrow⟩
      simp only [OutBalance, owes, HandlePc.owes, List.length_append, List.length_singleton]
      omega
  | deadPush hp =>
      simp only [hp, HandlePc.owes, HandlePc.holds] at hout hin
      refine ⟨?_, hin, hhead' none, by simpa [pushedMetas, Event.pushed] using hgiven, hthrow⟩
      simp only [OutBalance, owes, HandlePc.owes, List.length_append, List.length_singleton]
      omega

theorem reachable_permitInv (h : (vpNode cfg).Reachable s) : s.PermitInv := by
  apply h.invariant
  · rintro _ ⟨subscribers, rfl⟩
    exact start_permitInv rfl rfl
  · intro s s' a _ hs _ hstep
    cases a with
    | handle => exact handleStep_permitInv hstep hs
    | node a => exact step_permitInv hstep hs

end VpNode

namespace SrcNode

open Node

variable {M S : Type} {s s' : SrcNode M S}

theorem handleStep_permitInv (h : s.handleStep = some s') (hs : s.node.PermitInv) :
    s'.node.PermitInv := by
  obtain ⟨hout, hin, hhead, hgiven, hthrow⟩ := hs
  simp only [OutBalance, owes] at hout
  cases handleStep_cases h with
  | isOpen hp _ | notOpen hp _ | enter hp _ | leave hp _ | stillOpen hp _ | closed hp _
  | knock hp _ | stillAlive hp _ | notAlive hp _ | getFrame hp | handleFrame m hp
  | signal m hp | deadSignal hp =>
      simp only [hp, SrcPc.owes] at hout
      refine ⟨?_, hin, hhead, by simpa [pushedMetas, Event.pushed] using hgiven, hthrow⟩
      simp only [OutBalance, owes, SrcPc.owes]
      omega
  | push m hp | deadPush hp =>
      simp only [hp, SrcPc.owes] at hout
      refine ⟨?_, hin, ?_, by simpa [pushedMetas, Event.pushed] using hgiven, hthrow⟩
      · simp only [OutBalance, owes, SrcPc.owes, List.length_append, List.length_singleton]
        omega
      · intro m' hm'
        simp [hhead m' hm']

/-- The account after a step of the handle thread that touches no queue and no semaphore. -/
theorem permitInv_of_handle {node : Node (SrcPc M) M S} (pc : SrcPc M)
    (events : List (Event M)) (hpc : pc.owes = 0) (hold : node.handle.owes = 0)
    (hev : events.filterMap Event.pushed = []) (hs : node.PermitInv) :
    ({ node with handle := pc, trace := node.trace ++ events } : Node _ M S).PermitInv := by
  obtain ⟨hout, hin, hhead, hgiven, hthrow⟩ := hs
  simp only [OutBalance, owes, hold] at hout
  exact ⟨by simpa only [OutBalance, owes, hpc] using hout, hin, hhead,
    by simpa [pushedMetas, hev] using hgiven, hthrow⟩

theorem step_permitInv {a : SrcAct M} (h : s.step a = some s') (hs : s.node.PermitInv) :
    s'.node.PermitInv := by
  cases a with
  | handle => exact handleStep_permitInv h hs
  | openSource ok =>
      obtain ⟨hp, ⟨-, rfl⟩ | ⟨-, rfl⟩⟩ := openStep_cases h
      · simpa using permitInv_of_handle .test [] rfl (by simp [hp, SrcPc.owes]) rfl hs
      · simpa using permitInv_of_handle .exited [] rfl (by simp [hp, SrcPc.owes]) rfl hs
  | read r =>
      obtain ⟨hp, ⟨-, rfl⟩ | ⟨m, -, rfl⟩⟩ := readStep_cases h
      · simpa using permitInv_of_handle .deadPush [] rfl (by simp [hp, SrcPc.owes]) rfl hs
      · exact permitInv_of_handle (.push m) [.produced m (s.frameIndex + 1)] rfl
          (by simp [hp, SrcPc.owes]) rfl hs
  | node a =>
      obtain ⟨-, node, hn, rfl⟩ := nodeStep_cases h
      exact Node.step_permitInv hn hs
  | start => cases h; exact hs
  | stop => cases h; exact hs
  | speak m =>
      cases h
      exact ⟨hs.out, hs.inn, hs.head, by simpa [pushedMetas, Event.pushed] using hs.given,
        hs.noThrow⟩
  | deinitialized =>
      obtain ⟨-, rfl⟩ := deinitialized_cases h
      exact hs
  | destructor =>
      obtain ⟨-, rfl⟩ := destructor_cases h
      exact hs
  | closer =>
      rcases closerStep_cases h with ⟨-, rfl⟩ | ⟨-, rfl⟩
      · exact hs
      · have hin := hs.inn
        unfold InBalance at hin
        refine ⟨hs.out, ?_, hs.head, hs.given, hs.noThrow⟩
        simp only [InBalance, DeinitPc.owes]
        omega

theorem reachable_permitInv (h : vpSrcNode.Reachable s) : s.node.PermitInv := by
  apply h.invariant
  · rintro _ ⟨isOpened, subscribers, rfl⟩
    exact start_permitInv rfl rfl
  · intro s s' a _ hs _ hstep
    exact step_permitInv hstep hs

end SrcNode

/-! ## What the accounts say about the code -/

namespace Node

variable {H M S : Type} [PermitAccount H]

/-- The count of each semaphore, with the permit its consumer has taken and not used, is at most
the size of its queue; so `Front` does not throw, `Pop` removes the entry that was given to
`push_meta`, and `WaitAndPop` does not block. -/
structure Guarded (s : Node H M S) : Prop where
  out : s.outQueueSemaphore + s.dispatch.holds ≤ s.outQueue.length
  inn : s.inQueueSemaphore + holds s.handle ≤ s.inQueue.length
  front : s.dispatch = .front → s.outQueue ≠ []
  noThrow : s.dispatch ≠ .threw
  pop : ∀ m, s.dispatch = .pop m →
    s.outQueue.head? = some (some m) ∧ s.pushedMetas.getLast? = some m
  waitAndPop : 0 < holds s.handle → s.inQueue ≠ []

theorem PermitInv.guarded {s : Node H M S} (hs : s.PermitInv) : s.Guarded := by
  have hout := hs.out
  have hin := hs.inn
  unfold OutBalance at hout
  unfold InBalance at hin
  refine ⟨by omega, by omega, ?_, hs.noThrow, ?_, ?_⟩
  · rintro hp hq
    simp [hp, hq, DispatchPc.holds] at hout
  · intro m hp
    exact ⟨hs.head m (by simp [hp, DispatchPc.current]),
      hs.given m (by simp [hp, DispatchPc.given])⟩
  · intro hpos hq
    simp only [hq, List.length_nil] at hin
    omega

end Node

/-- In every run of a plain node and of a source node, the semaphores stay behind the queues. -/
theorem semaphores_behind_queues {M S : Type} [Meta M] :
    (∀ (cfg : NodeConfig M) (s : VpNode M S), (vpNode cfg).Reachable s → s.Guarded) ∧
      ∀ s : SrcNode M S, vpSrcNode.Reachable s → s.node.Guarded :=
  ⟨fun _ _ h => (VpNode.reachable_permitInv h).guarded,
    fun _ h => (SrcNode.reachable_permitInv h).guarded⟩

/-- The base node with batch size 1, over concrete pointers. -/
def baseNode : System (VpNode MetaPtr Nat) (VpAct MetaPtr) := vpNode (.base 1 Nat.one_pos)

/-- A frame on its way through a plain node, up to the `Pop` of the dispatch thread. -/
def oneFrameRun : List (VpAct MetaPtr) :=
  [.node (.metaFlow (some (.frame 0))), .node (.call 0), .node (.call 0), .node (.call 0),
    .handle, .handle, .handle, .handle, .handle, .handle, .handle, .handle,
    .node .dispatch, .node .dispatch, .node .dispatch, .node .dispatch, .node .dispatch,
    .node .dispatch]

theorem semaphores_behind_queues_oneFrame :
    ∃ s, baseNode.Reachable s ∧ s.dispatch = .pop (.frame 0) ∧ s.Guarded := by
  have hinit : baseNode.Reachable (VpNode.start []) := .init ⟨[], rfl⟩
  obtain ⟨s, hr, hp⟩ := hinit.exists_of_run (p := fun s => s.dispatch = .pop (.frame 0))
    oneFrameRun (by decide)
  exact ⟨s, hr, hp, semaphores_behind_queues.1 _ s hr⟩

end VideoStream
