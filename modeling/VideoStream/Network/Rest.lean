import VideoStream.Network.FrameOrder
import VideoStream.Nodes.Shutdown
import VideoStream.Nodes.Stranded

/-!
# A network comes to rest

Every entry of a queue, every permit and every position of a thread is given a rank that covers the
steps it sets off. An entry of `in_queue` pays for the iteration that handles it, for its way to
`out_queue`, and for a call of `meta_flow` of each subscriber; the cost of such a call is again that
of an entry, which is well-founded in an acyclic network (`Acyclic.exists_cost`). Every step of a
thread that is under way lowers the rank of the network.

* `network_comes_to_rest` — between two calls from outside, an acyclic network takes only so many
  steps, whatever its handlers do and however its threads are scheduled.
* `Network.quiescent_of_stuck` — when no thread of a live network can take a step, nothing is in
  flight.
-/

namespace VideoStream

open Library Meta

variable {N M : Type}

/-! ## Ranks -/

/-- With `E` for what an entry of `out_queue` sets off. -/
def Call.rank (E : ℕ) : Call M → ℕ
  | .metaFlow _ .push => E + 19
  | .metaFlow _ .hook => 8
  | .metaFlow _ .signal => 7
  | .pendingMeta _ .push => E + 10
  | .pendingMeta _ .hook => 9
  | .pendingMeta _ .signal => 8

def HandlePc.rank (E : ℕ) : HandlePc M → ℕ
  | .exited | .threw => 0
  | .deadSignal => 8
  | .deadPush | .wait => E + 9
  | .test => E + 10
  | .push _ => E + 11
  | .callHandlers _ => E + 12
  | .handlingHook _ => E + 13
  | .pop => E + 14
  | .signal _ => E + 19
  | .handledHook .. => E + 20

/-- With `C k` for the cost of a call of `meta_flow` of `k`. -/
def DispatchPc.rank (C : N → ℕ) : DispatchPc M N → ℕ
  | .exited | .threw | .wait => 0
  | .test => 1
  | .pop _ => 2
  | .publish _ rest .push => 3 + (rest.map C).sum
  | .publish _ rest .hook => 11 + (rest.tail.map C).sum
  | .publish _ rest .signal => 10 + (rest.tail.map C).sum
  | .pushMeta _ => 4
  | .leavingHook _ => 5
  | .front => 6

/-- In `push_meta` the cost of the first subscriber pays for the call of its `meta_flow`. -/
theorem DispatchPc.rank_publishNext {C : N → ℕ} {k : N} {E : ℕ} (hC : C k = 19 + E) (m : M)
    (rest : List N) (ph : FlowPc) :
    (Node.publishNext m (k :: rest) ph).rank C + (Call.metaFlow m ph).rank E =
      (DispatchPc.publish m (k :: rest) ph).rank C +
        ((Call.metaFlow m ph).next.map (Call.rank E)).getD 0 := by
  cases ph <;>
    simp only [Node.publishNext, DispatchPc.rank, Call.next, FlowPc.next, Call.rank, Option.map_some,
      Option.map_none, Option.getD_some, Option.getD_none, List.map_cons, List.sum_cons,
      List.tail_cons, hC] <;> omega

def DeinitPc.rank (E : ℕ) : DeinitPc → ℕ
  | .idle => 0
  | .joinDispatch => 1
  | .joinHandle => 2
  | .signal => 9
  | .push => E + 20
  | .alive => E + 21

/-- What is on `out_queue` and the dispatch thread of a node whose subscribers have the costs `C`. -/
def Node.outRank {H : Type} (C : N → ℕ) (node : Node H M N) : ℕ :=
  (node.subscribers.map C).sum * node.waiting.length + 7 * node.outQueueSemaphore +
    node.dispatch.rank C

/-- The rank of a node whose subscribers have the costs `C`. -/
def VpNode.rank (C : N → ℕ) (node : VpNode M N) : ℕ :=
  let E := (node.subscribers.map C).sum
  (E + 10) * (node.inQueue.length + node.handle.pc.inHand.toList.length +
      node.handle.notCopied.length) + 6 * node.inQueueSemaphore + node.handle.pc.rank E +
    node.outRank C + weight (Call.rank E) node.calls + node.deinit.rank E

/-! ## The steps of a node lower its rank -/

namespace Node

variable {H : Type} {C : N → ℕ} {node node' : Node H M N}

omit N in
/-- An entry more on `out_queue` costs at most what it sets off, with the head given away or not. -/
theorem mul_length_push (E : ℕ) (q : List (Option M)) (e : Option M) (given : Bool) :
    E * (if given then (q ++ [e]).tail else q ++ [e]).length ≤
      E * (if given then q.tail else q).length + E := by
  rw [← Nat.mul_succ]
  apply Nat.mul_le_mul_left
  cases given with
  | false => exact (List.length_append ..).le
  | true =>
      show (q ++ [e]).tail.length ≤ q.tail.length + 1
      rw [List.length_tail, List.length_tail, List.length_append, List.length_singleton]
      omega

/-- A step of the dispatch thread, outside the `meta_flow` of its subscribers. -/
theorem dispatchStep_outRank (h : node.dispatchStep = some node')
    (hne : ∀ m k rest ph, node.dispatch ≠ .publish m (k :: rest) ph)
    (hhead : ∀ m, node.dispatch.current = some m → node.outQueue.head? = some (some m)) :
    node'.outRank C < node.outRank C := by
  unfold outRank
  cases dispatchStep_cases h with
  | enter hp _ | leave hp _ | frontEmpty hp _ | frontNull rest hp _ | frontMeta m rest hp _
  | leavingHook m hp | pop m hp =>
      simp only [waiting, hp, DispatchPc.rank, DispatchPc.given]
      grind
  | wait hp hpos =>
      simp only [waiting, hp, DispatchPc.rank, DispatchPc.given]
      grind
  | pushMeta m hp =>
      -- the head is given away
      obtain ⟨q, hq⟩ : ∃ q, node.outQueue = some m :: q := by
        have hm := hhead m (by rw [hp]; rfl)
        cases hq : node.outQueue with
        | nil => rw [hq] at hm; cases hm
        | cons e q => rw [hq] at hm; cases hm; exact ⟨q, rfl⟩
      simp only [waiting, hp, hq, DispatchPc.rank, DispatchPc.given, Option.isSome_some,
        Option.isSome_none, if_true, Bool.false_eq_true, if_false, List.tail_cons,
        List.length_cons, Nat.mul_add]
      omega
  | publish m rest ph hp =>
      cases rest with
      | nil =>
          cases ph <;> simp only [publishNext, waiting, hp, DispatchPc.rank, DispatchPc.given] <;>
            grind
      | cons k rest => exact absurd hp (hne m k rest ph)

end Node

namespace VpNode

open Node

variable {C : N → ℕ} {node node' : VpNode M N}

variable [Meta M] {cfg : NodeConfig M}

theorem handleStep_rank (h : node.handleStep cfg = some node') : node'.rank C < node.rank C := by
  unfold rank outRank
  cases handleStep_cases h with
  | enter hp _ | leave hp _ | handlingHook m hp | handledHook i rest hp | signal rest hp
  | deadSignal hp | pushEnd hp =>
      simp only [waiting, HandleRun.notCopied, hp, HandlePc.rank, HandlePc.inHand]
      grind
  | wait hp hpos =>
      simp only [waiting, HandleRun.notCopied, hp, HandlePc.rank, HandlePc.inHand]
      omega
  | popNull rest hp hq | popMeta m rest hp hq =>
      simp only [waiting, HandleRun.notCopied, hp, hq, HandlePc.rank, HandlePc.inHand,
        List.length_cons]
      grind
  | throws m msg hp hc | consumed m r hp hc ht =>
      simp only [waiting, HandleRun.notCopied, hp, HandlePc.rank, HandlePc.inHand, Nat.mul_add]
      grind
  | emit m r hp hc ht | keep m r hp hc ht =>
      have hlen := Nat.mul_le_mul_left ((node.subscribers.map C).sum + 10) (length_callHandlers hc)
      simp only [waiting, HandleRun.notCopied, hp, HandlePc.rank, HandlePc.inHand, Nat.mul_add]
        at hlen ⊢
      grind
  | push i rest hp =>
      have hout := mul_length_push (node.subscribers.map C).sum node.outQueue i
        node.dispatch.given.isSome
      simp only [waiting, HandleRun.notCopied, hp, HandlePc.rank, HandlePc.inHand, Nat.mul_add,
        List.length_cons]
      grind
  | deadPush hp =>
      have hout := mul_length_push (node.subscribers.map C).sum node.outQueue none
        node.dispatch.given.isSome
      simp only [waiting, HandleRun.notCopied, hp, HandlePc.rank, HandlePc.inHand]
      grind

omit [Meta M] in
/-- A call that takes its next step pays for what it does, and goes on with less. -/
theorem callBody_rank (node : VpNode M N) (c : Call M) :
    VpNode.rank C (node.callBody c) +
        (c.next.map (Call.rank (node.subscribers.map C).sum)).getD 0 + 1 ≤
      node.rank C + c.rank (node.subscribers.map C).sum := by
  unfold rank outRank
  rcases c with ⟨m, ph⟩ | ⟨m, ph⟩
  · cases ph <;>
      simp only [callBody, metaFlowBody, waiting, Call.next, FlowPc.next, Call.rank, Option.map_some,
        Option.map_none, Option.getD_some, Option.getD_none, List.length_append,
        List.length_singleton, Nat.mul_add] <;> grind
  · have hout := mul_length_push (node.subscribers.map C).sum node.outQueue m
      node.dispatch.given.isSome
    cases ph <;>
      simp only [callBody, pendingMetaBody, waiting, Call.next, FlowPc.next, Call.rank,
        Option.map_some, Option.map_none, Option.getD_some, Option.getD_none] <;> grind

omit [Meta M] in
theorem callStep_rank {i : ℕ} (h : node.callStep i = some node') : node'.rank C < node.rank C := by
  obtain ⟨c, hc, rfl⟩ := callStep_cases h
  have hbody := callBody_rank (C := C) node c
  have hcalls := weight_advance (w := Call.rank (node.subscribers.map C).sum) hc
  have hsub : (node.callBody c).subscribers = node.subscribers := by
    rcases c with ⟨m, ph⟩ | ⟨m, ph⟩ <;> cases ph <;> rfl
  have hold : (node.callBody c).calls = node.calls := by
    rcases c with ⟨m, ph⟩ | ⟨m, ph⟩ <;> cases ph <;> rfl
  unfold rank outRank at *
  simp only [waiting, hsub, hold] at *
  grind

omit [Meta M] in
theorem dispatchStep_rank (h : node.dispatchStep = some node')
    (hne : ∀ m k rest ph, node.dispatch ≠ .publish m (k :: rest) ph)
    (hhead : ∀ m, node.dispatch.current = some m → node.outQueue.head? = some (some m)) :
    node'.rank C < node.rank C := by
  have hout := dispatchStep_outRank (C := C) h hne hhead
  unfold rank
  cases dispatchStep_cases h <;> exact Nat.add_lt_add_right (Nat.add_lt_add_right
    (Nat.add_lt_add_left hout _) _) _

omit [Meta M] in
theorem deinitStep_rank (h : node.deinitStep = some node') : node'.rank C < node.rank C := by
  unfold rank outRank
  cases deinitStep_cases h with
  | alive hp | push hp | signal hp | joinHandle hp _ | joinDispatch hp _ =>
      simp only [waiting, hp, DeinitPc.rank, List.length_append, List.length_singleton, Nat.mul_add]
      omega

omit [Meta M] in
theorem publishNext_rank {m : M} {k : N} {rest : List N} {ph : FlowPc} {E : ℕ}
    (hd : node.dispatch = .publish m (k :: rest) ph) (hC : C k = 19 + E) :
    rank C { node with dispatch := publishNext m (k :: rest) ph } + (Call.metaFlow m ph).rank E =
      node.rank C + ((Call.metaFlow m ph).next.map (Call.rank E)).getD 0 := by
  have hpc := DispatchPc.rank_publishNext hC m rest ph
  have hgiven : (publishNext m (k :: rest) ph).given = node.dispatch.given := by
    rw [hd]
    cases ph <;> rfl
  unfold rank outRank
  simp only [waiting, hgiven]
  rw [← hd] at hpc
  omega

end VpNode

/-! ## Every step lowers the rank of the network -/

/-- The steps of threads that are under way: all but the beginnings of calls from outside. -/
def NetAct.InProgress (a : NetAct N M) : Prop := a.vpAct.InProgress

namespace Network

variable [Fintype N] [DecidableEq N]

def rank (C : N → ℕ) (s : Network N M) : ℕ := ∑ n, (s.nodes n).rank C

theorem rank_setNode (C : N → ℕ) (s : Network N M) (n : N) (node : VpNode M N) :
    (s.setNode n node).rank C + (s.nodes n).rank C = s.rank C + node.rank C :=
  sum_setNode (fun _ => VpNode.rank C) s n node

theorem rank_setNode_lt {C : N → ℕ} {s : Network N M} {n : N} {node : VpNode M N}
    (h : node.rank C < (s.nodes n).rank C) : (s.setNode n node).rank C < s.rank C := by
  have hsum := rank_setNode C s n node
  omega

variable [Meta M] {C : N → ℕ} {cfg : N → NodeConfig M} {subscribers : N → List N}
  {s s' : Network N M} {a : NetAct N M}

/-- The dispatch threads of a network know the heads of their queues. -/
theorem reachable_head (hr : (network cfg subscribers).Reachable s) (n : N) (m : M)
    (hm : (s.nodes n).dispatch.current = some m) :
    (s.nodes n).outQueue.head? = some (some m) := by
  obtain ⟨calls, -, hn⟩ := node_reachable (A := fun _ => True) (fun _ => trivial)
    (fun _ _ _ _ _ => trivial) hr n
  exact (VpNode.reachable_permitInv hn).head m hm

theorem step_rank (hC : ∀ n, C n = 19 + ((subscribers n).map C).sum)
    (hwired : ∀ n, (s.nodes n).Wired (subscribers n))
    (hhead : ∀ n m, (s.nodes n).dispatch.current = some m →
      (s.nodes n).outQueue.head? = some (some m))
    (ha : a.InProgress) (h : (network cfg subscribers).step s a = some s') :
    s'.rank C < s.rank C := by
  cases step_cases h with
  | handle n node hn => exact rank_setNode_lt (VpNode.handleStep_rank hn)
  | flow n k m rest ph s₁ hd hs₁ =>
      have hleave := VpNode.publishNext_rank hd (hC k)
      have hn := rank_setNode C s n { s.nodes n with dispatch := Node.publishNext m (k :: rest) ph }
      rw [← hs₁] at hn
      dsimp only at hn
      -- the call goes on in `k`
      have hsub : (s₁.nodes k).subscribers = subscribers k := by
        rw [hs₁]
        refine forall_setNode (P := fun k node => node.subscribers = subscribers k)
          (fun k => (hwired k).wired) ?_ k
        exact (hwired n).wired
      have hbody := VpNode.callBody_rank (C := C) (s₁.nodes k) (.metaFlow m ph)
      rw [hsub] at hbody
      have hk := rank_setNode C s₁ k ((s₁.nodes k).metaFlowBody m ph)
      have hsame : (s₁.nodes k).callBody (.metaFlow m ph) = (s₁.nodes k).metaFlowBody m ph := rfl
      rw [hsame] at hbody
      omega
  | dispatch n node hn hne =>
      exact rank_setNode_lt (VpNode.dispatchStep_rank hn hne (hhead n))
  | node n a node hne hn =>
      cases a with
      | dispatch => exact absurd rfl hne
      | call i => exact rank_setNode_lt (VpNode.callStep_rank hn)
      | deinit => exact rank_setNode_lt (VpNode.deinitStep_rank hn)
      | metaFlow m | pendingMeta m | deinitialized => exact ha.elim

end Network

/-- From any state of an acyclic network, whatever its handlers do: without calls from outside the
threads can take a bounded number of steps only, in whatever order they take them. -/
theorem network_comes_to_rest [Fintype N] [DecidableEq N] [Meta M] {cfg : N → NodeConfig M}
    {subscribers : N → List N} {s : Network N M} (hacyclic : Acyclic subscribers)
    (h : (network cfg subscribers).Reachable s) :
    ∃ bound, ∀ as s', (∀ a ∈ as, NetAct.InProgress a) →
      (network cfg subscribers).run s as = some s' → as.length ≤ bound := by
  obtain ⟨C, hC⟩ := hacyclic.exists_cost 19
  refine ⟨s.rank C, fun as s' hP hr => ?_⟩
  have hcount : as.countP (fun _ => true) + s'.rank C ≤ s.rank C :=
    System.countP_le_of_run (I := (network cfg subscribers).Reachable)
      (fun s s' a hr ha hstep => ⟨.step hr trivial hstep,
        Network.step_rank hC (Network.reachable_wired hr) (Network.reachable_head hr) ha hstep⟩) h hP hr
  rw [List.countP_true] at hcount
  omega

theorem network_comes_to_rest_doubleEdge :
    ∃ s : Network (Fin 2) MetaPtr, (s.nodes 0).inQueue = [some (.frame 0)] ∧
      ∃ bound, ∀ as s', (∀ a ∈ as, NetAct.InProgress a) →
        (network (fun _ => .base 1 Nat.one_pos) doubleEdge).run s as = some s' →
          as.length ≤ bound := by
  have hinit : (network (fun _ => .base 1 Nat.one_pos) doubleEdge).Reachable
      (⟨fun n => VpNode.start (doubleEdge n), []⟩ : Network (Fin 2) MetaPtr) := .init rfl
  obtain ⟨s, hr, hp⟩ := hinit.exists_of_run
    (p := fun s => (s.nodes 0).inQueue = [some (.frame 0)])
    [.node 0 (.metaFlow (some (.frame 0))), .node 0 (.call 0)] (by decide)
  exact ⟨s, hp, network_comes_to_rest (Acyclic.of_lt (by decide)) hr⟩

/-! ## What a node at rest holds -/

namespace Node

variable {H S : Type} {s s' : Node H M S}

/-- What is true once `alive` was cleared, and only then. -/
structure AliveCleared (s : Node H M S) : Prop where
  dispatch : s.dispatch = .exited → s.alive = false
  deinit : s.deinit ≠ .idle → s.deinit ≠ .alive → s.alive = false

theorem publishNext_ne_exited (m : M) (rest : List S) (ph : FlowPc) :
    (publishNext m rest ph : DispatchPc M S) ≠ .exited := by
  cases rest <;> cases ph <;> simp [publishNext]

theorem step_aliveCleared [HandleThread H] {a : NodeAct M} (h : s.step a = some s') (hs : s.AliveCleared) :
    s'.AliveCleared := by
  obtain ⟨hdispatch, hdeinit⟩ := hs
  cases a with
  | dispatch =>
      cases dispatchStep_cases h with
      | leave hp ha => exact ⟨fun _ => ha, hdeinit⟩
      | publish m rest ph hp =>
          exact ⟨fun hx => absurd hx (publishNext_ne_exited m rest ph), hdeinit⟩
      | _ => exact ⟨fun hx => (nomatch hx), hdeinit⟩
  | metaFlow m => cases m <;> (cases h; exact ⟨hdispatch, hdeinit⟩)
  | pendingMeta m => cases h; exact ⟨hdispatch, hdeinit⟩
  | call i =>
      obtain ⟨c, -, rfl⟩ := callStep_cases h
      rcases c with ⟨m, pc⟩ | ⟨m, pc⟩ <;> cases pc <;> exact ⟨hdispatch, hdeinit⟩
  | deinitialized =>
      obtain ⟨-, rfl⟩ := deinitialized_cases h
      exact ⟨hdispatch, fun _ hne => absurd rfl hne⟩
  | deinit =>
      cases deinitStep_cases h with
      | alive hp => exact ⟨fun _ => rfl, fun _ _ => rfl⟩
      | push hp | signal hp | joinHandle hp _ =>
          have ha := hdeinit (by simp [hp]) (by simp [hp])
          exact ⟨fun _ => ha, fun _ _ => ha⟩
      | joinDispatch hp _ => exact ⟨hdispatch, fun hne => absurd rfl hne⟩

end Node

namespace VpNode

open Node

variable {S : Type} {s s' : VpNode M S}

/-- The account of `in_queue`, without a loss: every permit is used for an entry. -/
def InExact (s : VpNode M S) : Prop :=
  s.inQueue.length = s.inQueueSemaphore + weight Call.owesIn s.calls + s.deinit.owes +
    s.handle.pc.holds

theorem nodeStep_inExact {a : NodeAct M} (h : s.step a = some s') (hs : s.InExact) :
    s'.InExact := by
  unfold InExact at *
  cases a with
  | dispatch => cases dispatchStep_cases h <;> exact hs
  | metaFlow m =>
      cases m with
      | none => cases h; exact hs
      | some m =>
          cases h
          simpa [Call.owesIn, FlowPc.owes] using hs
  | pendingMeta m =>
      cases h
      simpa [Call.owesIn] using hs
  | call i =>
      obtain ⟨c, hc, rfl⟩ := callStep_cases h
      have hw := weight_advance (w := Call.owesIn) hc
      rcases c with ⟨m, pc⟩ | ⟨m, pc⟩ <;> cases pc <;>
        simp only [callBody, metaFlowBody, pendingMetaBody, Call.next, FlowPc.next, Option.map_some,
          Option.map_none, Option.getD_some, Option.getD_none, Call.owesIn, FlowPc.owes,
          List.length_append, List.length_singleton] at hw ⊢ <;> omega
  | deinitialized =>
      obtain ⟨hi, rfl⟩ := deinitialized_cases h
      simpa [hi, DeinitPc.owes] using hs
  | deinit =>
      cases deinitStep_cases h with
      | alive hp | push hp | signal hp | joinHandle hp _ | joinDispatch hp _ =>
          simp only [hp, DeinitPc.owes, List.length_append, List.length_singleton] at hs ⊢
          omega

variable [Meta M] {cfg : NodeConfig M}

theorem handleStep_inExact (h : s.handleStep cfg = some s') (hs : s.InExact) : s'.InExact := by
  unfold InExact at *
  cases handleStep_cases h with
  | popNull rest hp hq | popMeta m rest hp hq =>
      simp only [hp, hq, HandlePc.holds, List.length_cons] at hs ⊢
      omega
  | enter hp _ | leave hp _ | wait hp _ | handlingHook m hp | throws m msg hp _
  | consumed m r hp _ _ | emit m r hp _ _ | keep m r hp _ _ | pushEnd hp | push i rest hp
  | handledHook i rest hp | signal rest hp | deadPush hp | deadSignal hp =>
      simp only [hp, HandlePc.holds] at hs ⊢
      omega

theorem reachable_inExact (h : (vpNode cfg).Reachable s) : s.InExact := by
  apply h.invariant
  · rintro _ ⟨subscribers, rfl⟩
    rfl
  · intro s s' a _ hs _ hstep
    cases a with
    | handle => exact handleStep_inExact hstep hs
    | node a => exact nodeStep_inExact hstep hs

theorem reachable_aliveCleared (h : (vpNode cfg).Reachable s) : s.AliveCleared := by
  apply h.invariant
  · rintro _ ⟨subscribers, rfl⟩
    exact ⟨fun hx => (nomatch hx), fun hne => absurd rfl hne⟩
  · intro s s' a _ hs _ hstep
    cases a with
    | handle => cases handleStep_cases hstep <;> exact ⟨hs.dispatch, hs.deinit⟩
    | node a => exact step_aliveCleared hstep hs

/-- Until the dead flag there is no null on `out_queue`. -/
theorem reachable_noNull (h : (vpNode cfg).ReachableBy (fun _ a => a.Passes) s)
    (hlive : s.handle.pc.deadFlag = []) : none ∉ s.outQueue := by
  obtain ⟨r, hr, hinv⟩ := reachable_outPushes h
  have hout : outPushes s.trace = s.pushedMetas.map some ++ s.waiting :=
    reachable_outFifo h.reachable
  rw [hlive, List.append_nil, hout] at hr
  have hwaiting : none ∉ s.waiting := by
    intro hnone
    obtain ⟨m, -, hm⟩ := hinv none (by rw [← hr]; simp [hnone])
    cases hm
  have hhead := (reachable_permitInv h.reachable).head
  unfold waiting at hwaiting
  cases hg : s.dispatch.given with
  | none => simpa [hg] using hwaiting
  | some m =>
      have hm := hhead m (given_current hg)
      cases hq : s.outQueue with
      | nil => simp
      | cons e q =>
          rw [hq] at hm
          cases hm
          simpa [hg, hq] using hwaiting

/-- Nothing is pushed behind a null: only the dead flag is one, and the handle thread pushes nothing
after it. -/
theorem notBehindNull (h : (vpNode cfg).ReachableBy (fun _ a => a.Passes) s) (a : VpAct M) :
    NotBehindNull s.outQueue (s.pushes a) := by
  intro m hm
  rcases a with _ | a
  · have hlive : s.handle.pc.deadFlag = [] := by
      unfold pushes at hm
      cases hp : s.handle.pc <;> rw [hp] at hm <;> first | rfl | cases hm
    exact reachable_noNull h hlive
  · have hno := reachable_noPending (h.mono fun _ _ hc => hc.2)
    cases a with
    | call i =>
        have hm : Node.pushes s (.call i) = some (some m) := hm
        unfold Node.pushes at hm
        cases hc : s.calls[i]? with
        | none => simp [hc] at hm
        | some c =>
            rcases c with ⟨m', pc⟩ | ⟨m', pc⟩
            · simp [hc] at hm
            · exact absurd (List.mem_of_getElem? hc) (hno m' pc)
    | _ => cases hm

/-- A live node that is not called keeps nothing but its batch cache, when no thread can step. -/
theorem at_rest (h : (vpNode cfg).ReachableBy (fun _ a => a.Passes) s) (halive : s.alive = true)
    (hcalls : s.calls = []) (hhandle : s.handleStep cfg = none)
    (hdispatch : s.dispatchStep = none) (hdeinit : s.deinitStep = none) :
    s.inQueue = [] ∧ s.outQueue = [] ∧ s.handle.pc = .wait ∧ s.dispatch = .wait := by
  have hguard := (reachable_permitInv h.reachable).guarded
  have hcleared := reachable_aliveCleared h.reachable
  have hshutdown := reachable_shutdown h.reachable
  have hnot : s.alive ≠ false := by
    rw [halive]
    exact Bool.noConfusion
  have hidle : s.deinit = .idle := by
    by_contra hne
    have ha : s.deinit ≠ .alive := fun ha => deinitStep_enabled (.inl ha) hdeinit
    exact hnot (hcleared.deinit hne ha)
  obtain ⟨hwait, hsem⟩ : s.handle.pc = .wait ∧ s.inQueueSemaphore = 0 := by
    by_contra hne
    refine handleStep_enabled (fun hw => Nat.pos_of_ne_zero fun h0 => hne ⟨hw, h0⟩) (fun hp => ?_)
      (fun hx => hnot (hshutdown.left (.inr (.inr hx)))) ?_ hhandle
    · exact hguard.waitAndPop (by simp [PermitAccount.holds, hp, HandlePc.holds])
    · exact reachable_noThrow (h.mono fun _ _ hc => hc.1.imp fun _ hm => hm.tagged)
  obtain ⟨hdwait, hdsem⟩ : s.dispatch = .wait ∧ s.outQueueSemaphore = 0 := by
    by_contra hne
    exact dispatchStep_enabled (fun hw => Nat.pos_of_ne_zero fun h0 => hne ⟨hw, h0⟩)
      (fun hx => hnot (hcleared.dispatch hx)) hguard.noThrow hdispatch
  refine ⟨?_, ?_, hwait, hdwait⟩
  · have hin := reachable_inExact h.reachable
    unfold InExact at hin
    rw [hsem, hcalls, hidle, hwait] at hin
    exact List.eq_nil_of_length_eq_zero hin
  · -- no meta is pushed behind a null, so none is left without a permit
    have hrun : (vpNode cfg).ReachableBy
        (fun s a => s.alive = true → NotBehindNull s.outQueue (s.pushes a)) s :=
      h.strengthen fun s hs a _ => notBehindNull hs a
    obtain ⟨ms, ⟨n, hq⟩, hlen⟩ := reachable_covered hrun halive
    rw [hdsem, hdwait, hcalls, hwait] at hlen
    obtain rfl : ms = [] := List.eq_nil_of_length_eq_zero (Nat.le_zero.mp hlen)
    have hnull := reachable_noNull h (by rw [hwait]; rfl)
    rw [hq] at hnull ⊢
    cases n with
    | zero => rfl
    | succ n => exact absurd (by simp [List.replicate_succ]) hnull

end VpNode

/-- When no thread of a live network can take a step, nothing is in flight: what the network still
holds are the frames in the batch caches. -/
theorem Network.quiescent_of_stuck [Fintype N] [DecidableEq N] [Meta M] {cfg : N → NodeConfig M}
    {subscribers : N → List N} {s : Network N M}
    (h : (network cfg subscribers).ReachableBy (fun _ a => a.vpAct.Passes) s)
    (halive : ∀ n, (s.nodes n).alive = true)
    (hstuck : (network cfg subscribers).Stuck NetAct.InProgress s) : s.Quiescent := by
  have hhandle (n : N) : (s.nodes n).handleStep (cfg n) = none :=
    Option.map_eq_none_iff.mp (hstuck (.handle n) trivial)
  have hdispatch (n : N) : (s.nodes n).dispatchStep = none :=
    Option.map_eq_none_iff.mp (hstuck (.node n .dispatch) trivial)
  have hdeinit (n : N) : (s.nodes n).deinitStep = none :=
    Option.map_eq_none_iff.mp (hstuck (.node n .deinit) trivial)
  have hcalls (n : N) : (s.nodes n).calls = [] := by
    have hcall : (s.nodes n).callStep 0 = none :=
      Option.map_eq_none_iff.mp (hstuck (.node n (.call 0)) trivial)
    exact List.head?_eq_none_iff.mp (by simpa [Node.callStep] using hcall)
  -- no dispatch thread is in a call of `meta_flow`
  have hflowing (n : N) : s.flowing n = 0 := by
    refine Finset.sum_eq_zero fun k _ => ?_
    have hne : ∀ m rest ph, (s.nodes k).dispatch ≠ .publish m rest ph := by
      intro m rest ph hp
      have hnone := hdispatch k
      rw [Node.dispatchStep, hp] at hnone
      cases hnone
    cases hp : (s.nodes k).dispatch with
    | publish m rest ph => exact absurd hp (hne m rest ph)
    | _ => rfl
  have hrest (n : N) : (s.nodes n).inQueue = [] ∧ (s.nodes n).outQueue = [] ∧
      (s.nodes n).handle.pc = .wait ∧ (s.nodes n).dispatch = .wait := by
    obtain ⟨calls, hsum, hn⟩ := Network.runsAlone_passes h n
    have hnil : calls = [] := by
      rw [hcalls n, hflowing n] at hsum
      exact (Multiset.coe_eq_zero calls).mp hsum
    subst hnil
    have hsame : (s.nodes n).withCalls [] = s.nodes n := by
      rw [← hcalls n]
      rfl
    rw [hsame] at hn
    exact VpNode.at_rest hn (halive n) (hcalls n) (hhandle n) (hdispatch n) (hdeinit n)
  exact ⟨fun n => (hrest n).1, fun n => (hrest n).2.1, fun n => .inr (hrest n).2.2.1,
    fun n => .inr (hrest n).2.2.2, hcalls⟩

end VideoStream
