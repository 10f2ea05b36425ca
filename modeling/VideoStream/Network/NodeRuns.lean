import Mathlib.Algebra.Order.BigOperators.Group.Finset
import Mathlib.Algebra.BigOperators.Group.Finset.Basic
import Mathlib.Data.Multiset.AddSub
import VideoStream.Network.FramePaths
import VideoStream.Network.Network

/-!
# The nodes of a network by themselves

In a finite network every node runs as it would run alone, with the dispatch threads of the other
nodes as callers of its `meta_flow`: add the calls that they are in the middle of (`flowing`) to the
calls in progress, and the state of the node is one that `vpNode` reaches (`node_reachable`). So what
was proved of a node by itself holds of each node of a network.

What the callers of a node promise (`A`) has to be promised by the other nodes too; it is shown for
each of them under the same promise.
-/

namespace VideoStream

open Library

variable {N M : Type}

/-- The step of the node that a step of the network is. -/
def NetAct.vpAct : NetAct N M → VpAct M
  | .handle _ => .handle
  | .node _ a => .node a

/-! ## A node with other calls in progress -/

namespace Node

variable {H S : Type} {node node' : Node H M S} {calls : List (Call M)}

def withCalls (node : Node H M S) (calls : List (Call M)) : Node H M S := { node with calls := calls }

theorem dispatchStep_withCalls (h : node.dispatchStep = some node') :
    (node.withCalls calls).dispatchStep = some (node'.withCalls calls) := by
  cases dispatchStep_cases h with
  | enter hp ha | leave hp ha | wait hp ha => simp [withCalls, dispatchStep, hp, ha]
  | frontEmpty hp hq | frontNull rest hp hq | frontMeta m rest hp hq =>
      simp [withCalls, dispatchStep, hp, hq]
  | leavingHook m hp | pushMeta m hp | publish m rest ph hp | pop m hp =>
      simp [withCalls, dispatchStep, hp]

variable [HandleThread H]

theorem deinitStep_withCalls (h : node.deinitStep = some node') :
    (node.withCalls calls).deinitStep = some (node'.withCalls calls) := by
  unfold deinitStep at h
  cases hp : node.deinit with
  | idle => simp [hp] at h
  | alive | push | signal =>
      simp only [hp] at h
      cases h
      simp [withCalls, deinitStep, hp]
  | joinHandle | joinDispatch =>
      simp only [hp] at h
      split at h
      · next hj =>
          cases h
          simp [withCalls, deinitStep, hp, hj]
      · next hj =>
          obtain ⟨hx, hs⟩ := Option.ite_none_right_eq_some.mp h
          cases hs
          simp [withCalls, deinitStep, hp, hj, hx]

end Node

namespace VpNode

open Node

variable {S : Type} {node node' : VpNode M S} {calls : List (Call M)}

theorem handleStep_withCalls [Meta M] {cfg : NodeConfig M} (h : node.handleStep cfg = some node') :
    VpNode.handleStep cfg (node.withCalls calls) = some (node'.withCalls calls) := by
  cases handleStep_cases h with
  | enter hp ha | leave hp ha | wait hp ha => simp [withCalls, handleStep, hp, ha]
  | popNull rest hp hq | popMeta m rest hp hq => simp [withCalls, handleStep, hp, hq]
  | throws m msg hp hc => simp [withCalls, handleStep, hp, hc]
  | consumed m h hp hc ht | emit m h hp hc ht | keep m h hp hc ht =>
      simp [withCalls, handleStep, hp, hc, ht]
  | handlingHook m hp | push i rest hp | handledHook i rest hp | signal rest hp | pushEnd hp
  | deadPush hp | deadSignal hp => simp [withCalls, handleStep, hp]

end VpNode

/-! ## Calls in progress as a multiset -/

theorem coe_eraseIdx {calls : List (Call M)} {i : ℕ} {c : Call M} (h : calls[i]? = some c) :
    (calls : Multiset (Call M)) = {c} + (calls.eraseIdx i : Multiset (Call M)) := by
  obtain ⟨hlt, rfl⟩ := List.getElem?_eq_some_iff.mp h
  exact (Multiset.coe_eq_coe.mpr (List.getElem_cons_eraseIdx_perm hlt)).symm

/-- The call that steps is replaced by its continuation, if it has one. -/
theorem coe_advance {calls : List (Call M)} {i : ℕ} {c : Call M} (h : calls[i]? = some c) :
    (advance calls i c : Multiset (Call M)) =
      (c.next.toList : Multiset (Call M)) + (calls.eraseIdx i : Multiset (Call M)) := by
  obtain ⟨hlt, rfl⟩ := List.getElem?_eq_some_iff.mp h
  unfold advance
  cases calls[i].next with
  | none => exact (zero_add _).symm
  | some c' => exact Multiset.coe_eq_coe.mpr (List.set_perm_cons_eraseIdx hlt c')

/-- One of the calls takes its next step; the others are the same. -/
theorem Node.exists_callStep {H S : Type} {node : Node H M S} {calls : List (Call M)} {c : Call M}
    {G : Multiset (Call M)} (hcalls : (calls : Multiset (Call M)) = {c} + G) :
    ∃ i, ∃ calls' : List (Call M), (calls' : Multiset (Call M)) = c.next.toList + G ∧
      (node.withCalls calls).callStep i = some ((node.callBody c).withCalls calls') := by
  have hmem : c ∈ (calls : Multiset (Call M)) := by
    rw [hcalls]
    exact Multiset.mem_add.mpr (.inl (Multiset.mem_singleton_self c))
  obtain ⟨i, hi⟩ := List.mem_iff_getElem?.mp (Multiset.mem_coe.mp hmem)
  refine ⟨i, advance calls i c, ?_, ?_⟩
  · have hrest : (calls.eraseIdx i : Multiset (Call M)) = G := by
      rw [coe_eraseIdx hi] at hcalls
      exact add_left_cancel hcalls
    rw [coe_advance hi, hrest]
  · have hcall : (node.withCalls calls).calls[i]? = some c := hi
    rw [callStep, hcall]
    rcases c with ⟨m, pc⟩ | ⟨m, pc⟩ <;> cases pc <;> rfl

/-! ## One node -/

/-- The call of `meta_flow` at its next step, once it is in progress. -/
def FlowPc.flowing (m : M) : FlowPc → Multiset (Call M)
  | .push => 0
  | .hook => {.metaFlow m .hook}
  | .signal => {.metaFlow m .signal}

/-- With the calls `F` in addition, the node is in a state that it reaches by itself, by steps that
keep the promise `A`. -/
def RunsAlone {S : Type} [Meta M] (A : VpAct M → Prop) (cfg : NodeConfig M) (node : VpNode M S)
    (F : Multiset (Call M)) : Prop :=
  ∃ calls : List (Call M), (calls : Multiset (Call M)) = node.calls + F ∧
    (vpNode cfg).ReachableBy (fun _ a => A a) (node.withCalls calls)

namespace RunsAlone

open Node

variable {S : Type} [Meta M] {A : VpAct M → Prop} {cfg : NodeConfig M} {node node' : VpNode M S}
  {F : Multiset (Call M)}

theorem handle (h : node.handleStep cfg = some node') (hA : A .handle)
    (hs : RunsAlone A cfg node F) : RunsAlone A cfg node' F := by
  obtain ⟨calls, hcalls, hr⟩ := hs
  refine ⟨calls, ?_, .step hr hA (VpNode.handleStep_withCalls h)⟩
  rw [hcalls, VpNode.handleStep_calls h]

theorem dispatch (h : node.dispatchStep = some node') (hA : A (.node .dispatch))
    (hs : RunsAlone A cfg node F) : RunsAlone A cfg node' F := by
  obtain ⟨calls, hcalls, hr⟩ := hs
  refine ⟨calls, ?_, .step hr hA (dispatchStep_withCalls h)⟩
  rw [hcalls]
  cases dispatchStep_cases h <;> rfl

/-- The dispatch thread of another node takes a step of `meta_flow`. -/
theorem flow {m : M} {ph : FlowPc} (hmeta : ph = .push → A (.node (.metaFlow (some m))))
    (hcall : ∀ i, A (.node (.call i))) (hs : RunsAlone A cfg node (ph.flowing m + F)) :
    RunsAlone A cfg (node.metaFlowBody m ph)
      (((Call.metaFlow m ph).next.toList : Multiset (Call M)) + F) := by
  obtain ⟨calls, hcalls, hr⟩ := hs
  -- the call is in progress, or begins now
  have hbegun : ∃ calls' : List (Call M),
      (calls' : Multiset (Call M)) = {.metaFlow m ph} + (node.calls + F) ∧
        (vpNode cfg).ReachableBy (fun _ a => A a) (node.withCalls calls') := by
    cases ph with
    | push =>
        refine ⟨calls ++ [.metaFlow m .push], ?_, .step hr (hmeta rfl) rfl⟩
        rw [← Multiset.coe_add, hcalls, add_comm]
        exact congrArg _ (congrArg _ (zero_add F))
    | hook | signal =>
        refine ⟨calls, ?_, hr⟩
        rw [hcalls, add_left_comm]
        rfl
  obtain ⟨calls', hcalls', hr'⟩ := hbegun
  obtain ⟨i, calls'', hcalls'', hstep⟩ := exists_callStep hcalls'
  have hsame : (node.metaFlowBody m ph).calls = node.calls := by
    cases ph <;> rfl
  refine ⟨calls'', ?_, .step hr' (hcall i) hstep⟩
  rw [hcalls'', hsame, add_left_comm]

/-- The node takes a step of a shared thread other than its dispatch thread. -/
theorem step {a : NodeAct M} (h : node.step a = some node') (ha : a ≠ .dispatch)
    (hA : A (.node a)) (hcall : ∀ i, A (.node (.call i))) (hs : RunsAlone A cfg node F) :
    RunsAlone A cfg node' F := by
  obtain ⟨calls, hcalls, hr⟩ := hs
  cases a with
  | dispatch => exact absurd rfl ha
  | metaFlow m =>
      cases m with
      | none =>
          cases h
          exact ⟨calls, hcalls, hr⟩
      | some m =>
          cases h
          refine ⟨calls ++ [.metaFlow m .push], ?_, .step hr hA rfl⟩
          show _ = ((node.calls ++ [.metaFlow m .push] : List (Call M)) : Multiset (Call M)) + F
          rw [← Multiset.coe_add, hcalls, ← Multiset.coe_add, add_right_comm]
  | pendingMeta m =>
      cases h
      refine ⟨calls ++ [.pendingMeta m .push], ?_, .step hr hA rfl⟩
      show _ = ((node.calls ++ [.pendingMeta m .push] : List (Call M)) : Multiset (Call M)) + F
      rw [← Multiset.coe_add, hcalls, ← Multiset.coe_add, add_right_comm]
  | call i =>
      obtain ⟨c, hc, rfl⟩ := callStep_cases h
      rw [coe_eraseIdx hc, add_assoc] at hcalls
      obtain ⟨j, calls', hcalls', hstep⟩ := exists_callStep hcalls
      refine ⟨calls', ?_, .step hr (hcall j) hstep⟩
      show _ = (advance node.calls i c : Multiset (Call M)) + F
      rw [hcalls', coe_advance hc, add_assoc]
  | deinitialized =>
      obtain ⟨hidle, rfl⟩ := deinitialized_cases h
      refine ⟨calls, hcalls, .step hr hA ?_⟩
      show (if node.deinit = .idle then _ else none) = _
      rw [if_pos hidle]
      rfl
  | deinit =>
      refine ⟨calls, ?_, .step hr hA (deinitStep_withCalls h)⟩
      rw [hcalls]
      cases deinitStep_cases h <;> rfl

end RunsAlone

/-! ## The calls of the dispatch threads -/

/-- The call of `meta_flow` of the node `k` that a dispatch thread is in the middle of. -/
def DispatchPc.flowing [DecidableEq N] (k : N) : DispatchPc M N → Multiset (Call M)
  | .publish m (k' :: _) ph => if k' = k then ph.flowing m else 0
  | _ => 0

namespace Network

variable [Fintype N] [DecidableEq N]

/-- The calls of `meta_flow` of `k` that the dispatch threads are in the middle of. -/
def flowing (s : Network N M) (k : N) : Multiset (Call M) :=
  ∑ n, (s.nodes n).dispatch.flowing k

/-- The dispatch threads of the nodes other than `n`. -/
theorem exists_flowing (s : Network N M) (n k : N) :
    ∃ F, s.flowing k = (s.nodes n).dispatch.flowing k + F ∧
      ∀ node, (s.setNode n node).flowing k = node.dispatch.flowing k + F := by
  refine ⟨∑ j ∈ Finset.univ.erase n, (s.nodes j).dispatch.flowing k, ?_, fun node => ?_⟩
  · rw [flowing, ← Finset.add_sum_erase _ _ (Finset.mem_univ n)]
  · rw [flowing, ← Finset.add_sum_erase _ _ (Finset.mem_univ n), setNode_self]
    congr 1
    refine Finset.sum_congr rfl fun j hj => ?_
    rw [setNode_of_ne s node (Finset.ne_of_mem_erase hj)]

theorem flowing_setNode (s : Network N M) {n : N} {node : VpNode M N} {k : N}
    (h : node.dispatch.flowing k = (s.nodes n).dispatch.flowing k) :
    (s.setNode n node).flowing k = s.flowing k := by
  obtain ⟨F, hF, hnode⟩ := s.exists_flowing n k
  rw [hnode, hF, h]

variable [Meta M] {A : VpAct M → Prop} {cfg : N → NodeConfig M} {s s' : Network N M}

/-- One node takes a step that leaves the calls of its dispatch thread alone. -/
theorem runsAlone_setNode {n : N} {node : VpNode M N}
    (hs : ∀ k, RunsAlone A (cfg k) (s.nodes k) (s.flowing k))
    (hnode : RunsAlone A (cfg n) node (s.flowing n))
    (hflow : ∀ k, node.dispatch.flowing k = (s.nodes n).dispatch.flowing k) :
    ∀ k, RunsAlone A (cfg k) ((s.setNode n node).nodes k) ((s.setNode n node).flowing k) := by
  intro k
  rw [flowing_setNode s (hflow k)]
  exact forall_setNode (P := fun k node => RunsAlone A (cfg k) node (s.flowing k)) hs hnode k

omit [Fintype N] [Meta M] in
theorem flowing_publishNext (m : M) (j k : N) (rest : List N) (ph : FlowPc) :
    (Node.publishNext m (j :: rest) ph).flowing k =
      if j = k then ((Call.metaFlow m ph).next.toList : Multiset (Call M)) else 0 := by
  cases ph with
  | push | hook => rfl
  | signal =>
      have hzero : (DispatchPc.publish m rest .push).flowing k = (0 : Multiset (Call M)) := by
        cases rest with
        | nil => rfl
        | cons j' rest => exact ite_self _
      exact hzero.trans (ite_self _).symm

omit [Fintype N] [Meta M] in
/-- Outside `push_meta`, and at its end, the dispatch thread is in no call. -/
theorem flowing_dispatchStep {S : Type} {node node' : Node S M N} (h : node.dispatchStep = some node')
    (hne : ∀ m k rest ph, node.dispatch ≠ .publish m (k :: rest) ph) (k : N) :
    node'.dispatch.flowing k = node.dispatch.flowing k := by
  cases Node.dispatchStep_cases h with
  | pushMeta m hp =>
      rw [hp]
      show (DispatchPc.publish m node.subscribers .push).flowing k = 0
      cases node.subscribers with
      | nil => rfl
      | cons j rest => exact ite_self _
  | publish m rest ph hp =>
      cases rest with
      | nil =>
          rw [hp]
          rfl
      | cons j rest => exact absurd hp (hne m j rest ph)
  | enter hp _ | leave hp _ | wait hp _ | frontEmpty hp _ | frontNull rest hp _
  | frontMeta m rest hp _ | leavingHook m hp | pop m hp =>
      rw [hp]
      rfl

end Network

/-- Every node of a finite network runs as it would run alone. The network keeps the promise `A`, and
what a node gives to `push_meta` while its own callers keep it keeps it as well. -/
theorem node_reachable [Fintype N] [DecidableEq N] [Meta M] {A : VpAct M → Prop}
    {cfg : N → NodeConfig M} {subscribers : N → List N} {s : Network N M}
    (hcall : ∀ i, A (.node (.call i)))
    (hmeta : ∀ n (node : VpNode M N), (vpNode (cfg n)).ReachableBy (fun _ a => A a) node →
      ∀ m, node.dispatch.given = some m → A (.node (.metaFlow (some m))))
    (h : (network cfg subscribers).ReachableBy (fun _ a => A a.vpAct) s) (n : N) :
    RunsAlone A (cfg n) (s.nodes n) (s.flowing n) := by
  revert n
  apply h.invariant (I := fun s => ∀ n, RunsAlone A (cfg n) (s.nodes n) (s.flowing n))
  · rintro _ rfl n
    refine ⟨[], ?_, .init ⟨subscribers n, rfl⟩⟩
    show (0 : Multiset (Call M)) = 0 + ∑ _ : N, 0
    rw [Finset.sum_const_zero, add_zero]
  · intro s s' a hr hs hA hstep
    cases Network.step_cases hstep with
    | handle k node hk =>
        apply Network.runsAlone_setNode hs ((hs k).handle hk hA)
        intro j
        cases VpNode.handleStep_cases hk <;> rfl
    | flow k j m rest ph s₁ hd hs₁ =>
        -- the dispatch thread of `k` goes on
        have hk : (s.nodes k).dispatchStep =
            some { s.nodes k with dispatch := Node.publishNext m (j :: rest) ph } := by
          rw [Node.dispatchStep, hd]
        have hs₁nodes : ∀ n, RunsAlone A (cfg n) (s₁.nodes n) (s.flowing n) := by
          rw [hs₁]
          exact Network.forall_setNode (P := fun n node => RunsAlone A (cfg n) node (s.flowing n))
            hs ((hs k).dispatch hk hA)
        have hsend : ph = .push → A (.node (.metaFlow (some m))) := by
          rintro rfl
          obtain ⟨calls, -, hk'⟩ := hs k
          refine hmeta k _ hk' m ?_
          show (s.nodes k).dispatch.given = some m
          rw [hd]
          rfl
        -- and the call of `meta_flow` of `j` with it
        have hflowing (n : N) : ∃ F, s.flowing n = (if j = n then ph.flowing m else 0) + F ∧
            s₁.flowing n =
              (if j = n then ((Call.metaFlow m ph).next.toList : Multiset (Call M)) else 0) + F := by
          obtain ⟨F, hF, hnode⟩ := s.exists_flowing k n
          refine ⟨F, ?_, ?_⟩
          · rw [hF, hd]
            rfl
          · rw [hs₁, hnode, ← Network.flowing_publishNext]
        have hbody (n : N) : (s₁.setNode j ((s₁.nodes j).metaFlowBody m ph)).flowing n =
            s₁.flowing n := by
          apply Network.flowing_setNode
          cases ph <;> rfl
        intro n
        obtain ⟨F, hold, hnew⟩ := hflowing n
        rw [hbody, hnew]
        have hn := hs₁nodes n
        rw [hold] at hn
        by_cases hjn : j = n
        · subst hjn
          rw [if_pos rfl] at hn ⊢
          rw [Network.setNode_self]
          exact hn.flow hsend hcall
        · rw [if_neg hjn] at hn ⊢
          rwa [Network.setNode_of_ne _ _ (Ne.symm hjn)]
    | dispatch k node hk hne =>
        exact Network.runsAlone_setNode hs ((hs k).dispatch hk hA)
          (Network.flowing_dispatchStep hk hne)
    | node k a node ha hk =>
        have hdispatch : node.dispatch = (s.nodes k).dispatch := by
          cases a with
          | dispatch => exact absurd rfl ha
          | metaFlow m => cases m <;> (cases hk; rfl)
          | pendingMeta m => cases hk; rfl
          | call i =>
              obtain ⟨c, -, rfl⟩ := Node.callStep_cases hk
              rcases c with ⟨m, pc⟩ | ⟨m, pc⟩ <;> cases pc <;> rfl
          | deinitialized =>
              obtain ⟨-, rfl⟩ := Node.deinitialized_cases hk
              rfl
          | deinit => cases Node.deinitStep_cases hk <;> rfl
        exact Network.runsAlone_setNode hs ((hs k).step hk ha hA hcall)
          fun j => by rw [hdispatch]

/-- In every run of a finite network, whatever its wiring and its handlers, the semaphores of every
node stay behind its queues, and both queues hand on what they take in, in order. -/
theorem network_guarded [Fintype N] [DecidableEq N] [Meta M] {cfg : N → NodeConfig M}
    {subscribers : N → List N} {s : Network N M} (h : (network cfg subscribers).Reachable s) (n : N) :
    (s.nodes n).Guarded ∧ (s.nodes n).InFifo ∧ (s.nodes n).OutFifo := by
  obtain ⟨calls, -, hn⟩ := node_reachable (A := fun _ => True) (fun _ => trivial)
    (fun _ _ _ _ _ => trivial) h n
  have hguard := (VpNode.reachable_permitInv hn).guarded
  have hin : VpNode.InFifo ((s.nodes n).withCalls calls) := VpNode.reachable_inFifo hn
  have hout : ((s.nodes n).withCalls calls).OutFifo := VpNode.reachable_outFifo hn
  refine ⟨?_, hin, hout⟩
  exact ⟨hguard.out, hguard.inn, hguard.front, hguard.noThrow, hguard.pop, hguard.waitAndPop⟩

theorem network_guarded_doubleEdge :
    ∃ s : Network (Fin 2) MetaPtr,
      ((s.nodes 0).dispatch = .pop (.frame 0) ∧
        (s.nodes 1).inQueue = [some (.frame 0), some (.frame 0)]) ∧
        (s.nodes 1).Guarded ∧ (s.nodes 1).InFifo ∧ (s.nodes 1).OutFifo := by
  have hinit : (network (fun _ => .base 1 Nat.one_pos) doubleEdge).Reachable
      (⟨fun n => VpNode.start (doubleEdge n), []⟩ : Network (Fin 2) MetaPtr) := .init rfl
  obtain ⟨s, hr, hp⟩ := hinit.exists_of_run
    (p := fun s => (s.nodes 0).dispatch = .pop (.frame 0) ∧
      (s.nodes 1).inQueue = [some (.frame 0), some (.frame 0)])
    (doubleEdgeRun.take 25) (by decide)
  exact ⟨s, hp, network_guarded hr 1⟩

end VideoStream
