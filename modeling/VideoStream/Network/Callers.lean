import VideoStream.Network.FrameOrder

/-!
# A network under callers from outside

Threads that are no part of a network call `meta_flow` of its nodes. A caller that keeps the state of
its calls itself takes their steps from outside, as a dispatch thread of another node does: it pushes
on `in_queue`, calls the hooker and signals the semaphore, and no entry of `calls` stands for it. Put
those calls (`F`) in the place of `calls`, and the network is in a state that it reaches by itself
(`RunsBelow`), as long as its own threads (`isCall` is false) and those callers take the steps.
-/

namespace VideoStream

open Library Meta

variable {N M : Type}

/-- The step is one of a call from outside. -/
def NodeAct.isCall : NodeAct M → Bool
  | .metaFlow (some _) | .pendingMeta _ | .call _ => true
  | _ => false

def NetAct.isCall : NetAct N M → Bool
  | .handle _ => false
  | .node _ a => a.isCall

namespace Node

variable {H S : Type} [HandleThread H] {node node' : Node H M S} {a : NodeAct M}

theorem step_withCalls {calls : List (Call M)} (h : node.step a = some node')
    (ha : a.isCall = false) : (node.withCalls calls).step a = some (node'.withCalls calls) := by
  cases a with
  | dispatch => exact dispatchStep_withCalls h
  | metaFlow m =>
      cases m with
      | none =>
          cases h
          rfl
      | some m => cases ha
  | pendingMeta m => cases ha
  | call i => cases ha
  | deinitialized =>
      obtain ⟨hidle, rfl⟩ := deinitialized_cases h
      show (if node.deinit = .idle then _ else none) = _
      rw [if_pos hidle]
      rfl
  | deinit => exact deinitStep_withCalls h

theorem injected_of_not_isCall (ha : a.isCall = false) : a.injected = none := by
  rcases a with _ | (_ | m) | _ | _ | _ | _ <;> first | rfl | cases ha

end Node

namespace Network

/-- The network with these calls in progress, and this history of calls from outside. -/
def withCalls (s : Network N M) (calls : N → List (Call M)) (injections : List (N × M)) :
    Network N M :=
  ⟨fun n => (s.nodes n).withCalls (calls n), injections⟩

variable [DecidableEq N] {s s' : Network N M} {calls : N → List (Call M)}
  {injections : List (N × M)}

theorem withCalls_setNode (s : Network N M) (calls : N → List (Call M))
    (injections injections' : List (N × M)) (n : N) (node : VpNode M N) (cs : List (Call M)) :
    (s.setNode n node).withCalls (Function.update calls n cs) injections' =
      { (s.withCalls calls injections).setNode n (node.withCalls cs) with
        injections := injections' } := by
  refine congrArg (Network.mk · injections') (funext fun k => ?_)
  show ((Function.update s.nodes n node) k).withCalls (Function.update calls n cs k) =
    Function.update (fun k => (s.nodes k).withCalls (calls k)) n (node.withCalls cs) k
  by_cases hk : k = n
  · subst hk
    rw [Function.update_self, Function.update_self, Function.update_self]
  · rw [Function.update_of_ne hk, Function.update_of_ne hk, Function.update_of_ne hk]

theorem withCalls_setNode_same (s : Network N M) (n : N) (node : VpNode M N) :
    (s.setNode n node).withCalls calls injections =
      (s.withCalls calls injections).setNode n (node.withCalls (calls n)) := by
  have hset := withCalls_setNode s calls injections injections n node (calls n)
  rwa [Function.update_eq_self] at hset

theorem metaFlowBody_withCalls {S : Type} (node : VpNode M S) (cs : List (Call M)) (m : M)
    (ph : FlowPc) :
    Node.withCalls (node.metaFlowBody m ph) cs = (node.withCalls cs).metaFlowBody m ph := by
  cases ph <;> rfl

theorem dispatchStep_withCalls {n : N} (h : s.dispatchStep n = some s') :
    (s.withCalls calls injections).dispatchStep n = some (s'.withCalls calls injections) := by
  obtain ⟨node, hn, rfl⟩ := Option.map_eq_some_iff.mp h
  unfold dispatchStep
  show (Node.dispatchStep ((s.nodes n).withCalls (calls n))).map _ = _
  rw [Node.dispatchStep_withCalls hn, Option.map_some, ← withCalls_setNode_same]
  have hdispatch : ((s.withCalls calls injections).nodes n).dispatch = (s.nodes n).dispatch := rfl
  rw [hdispatch]
  cases (s.nodes n).dispatch with
  | publish m rest ph =>
      cases rest with
      | nil => rfl
      | cons k rest =>
          show some (((s.setNode n node).withCalls calls injections).setNode k
            (Node.metaFlowBody (((s.setNode n node).nodes k).withCalls (calls k)) m ph)) = _
          rw [← metaFlowBody_withCalls, ← withCalls_setNode_same]
  | _ => rfl

variable [Meta M] {cfg : N → NodeConfig M}

/-- A step of the network's own threads. -/
theorem step_withCalls {a : NetAct N M} (h : s.step cfg a = some s') (ha : a.isCall = false) :
    (s.withCalls calls injections).step cfg a = some (s'.withCalls calls injections) := by
  cases a with
  | handle n =>
      obtain ⟨node, hn, rfl⟩ := Option.map_eq_some_iff.mp h
      rw [withCalls_setNode_same]
      show (VpNode.handleStep (cfg n) ((s.nodes n).withCalls (calls n))).map _ = _
      rw [VpNode.handleStep_withCalls hn]
      rfl
  | node n a =>
      by_cases hd : a = .dispatch
      · subst hd
        exact dispatchStep_withCalls h
      · rw [step_node hd] at h ⊢
        obtain ⟨node, hn, rfl⟩ := Option.map_eq_some_iff.mp h
        show ((Node.withCalls (s.nodes n) (calls n)).step a).map _ = _
        rw [Node.step_withCalls hn ha, Option.map_some, Node.injected_of_not_isCall ha,
          ← withCalls_setNode_same]
        simp [withCalls]

/-- With the calls `F` in progress, the network is in a state that it reaches by itself, called from
outside at the nodes in `entry` only. -/
def RunsBelow (A : NetAct N M → Prop) (cfg : N → NodeConfig M) (subscribers : N → List N)
    (entry : N → Prop) (s : Network N M) (F : N → Multiset (Call M)) : Prop :=
  ∃ (calls : N → List (Call M)) (injections : List (N × M)),
    (∀ n, (calls n : Multiset (Call M)) = F n) ∧ (∀ p ∈ injections, entry p.1) ∧
      (network cfg subscribers).ReachableBy (fun _ a => A a) (s.withCalls calls injections)

/-- No own step pushes on the `in_queue` of a node that is nowhere subscribed. -/
theorem step_inPushes {a : NetAct N M} {subscribers : N → List N} {k : N}
    (h : (network cfg subscribers).step s a = some s') (ha : a.isCall = false)
    (hs : ∀ n, (s.nodes n).Wired (subscribers n)) (hk : ∀ n, k ∉ subscribers n) :
    inPushes (s'.nodes k).trace = inPushes (s.nodes k).trace := by
  cases step_cases h with
  | handle n node hn => exact inPushes_setNode (VpNode.handleStep_inPushes hn) k
  | flow n j m rest ph s₁ hp hs₁ =>
      have hjk : k ≠ j := by
        rintro rfl
        exact hk n (((hs n).publishing m _ ph hp).subset List.mem_cons_self)
      rw [setNode_of_ne _ _ hjk, hs₁]
      refine inPushes_setNode ?_ k
      rfl
  | dispatch n node hn hne =>
      exact inPushes_setNode (Node.dispatchStep_toGive hn (hs n) hne k).2.1 k
  | node n a node hd hn =>
      refine inPushes_setNode (VpNode.nodeStep_inPushes_same hn hd ?_) k
      rintro i rfl
      cases ha

namespace RunsBelow

variable {A : NetAct N M → Prop} {subscribers : N → List N} {entry : N → Prop}
  {F F' : N → Multiset (Call M)}

theorem wired (hs : RunsBelow A cfg subscribers entry s F) (n : N) :
    (s.nodes n).Wired (subscribers n) := by
  obtain ⟨calls, injections, -, -, hr⟩ := hs
  have hn := reachable_wired hr n
  exact ⟨hn.wired, hn.publishing⟩

/-- The network takes a step of its own. -/
theorem step {a : NetAct N M} (h : s.step cfg a = some s') (ha : a.isCall = false) (hA : A a)
    (hs : RunsBelow A cfg subscribers entry s F) : RunsBelow A cfg subscribers entry s' F := by
  obtain ⟨calls, injections, hcalls, hentry, hr⟩ := hs
  exact ⟨calls, injections, hcalls, hentry, .step hr hA (step_withCalls h ha)⟩

/-- A caller from outside takes a step of `meta_flow` of the node `k`. -/
theorem flow (G : N → Multiset (Call M)) {k : N} {m : M} {ph : FlowPc} (hmeta : A (.node k (.metaFlow (some m))))
    (hcall : ∀ i, A (.node k (.call i))) (hk : entry k)
    (hF : ∀ n, F n = (if k = n then ph.flowing m else 0) + G n)
    (hF' : ∀ n, F' n =
      (if k = n then ((Call.metaFlow m ph).next.toList : Multiset (Call M)) else 0) + G n)
    (hs : RunsBelow A cfg subscribers entry s F) :
    RunsBelow A cfg subscribers entry (s.setNode k ((s.nodes k).metaFlowBody m ph)) F' := by
  obtain ⟨calls, injections, hcalls, hentry, hr⟩ := hs
  have hself : (calls k : Multiset (Call M)) = ph.flowing m + G k := by
    rw [hcalls k, hF k, if_pos rfl]
  -- the call is in progress, or begins now
  have hbegun : ∃ (cs : List (Call M)) (injections' : List (N × M)),
      (cs : Multiset (Call M)) = {.metaFlow m ph} + G k ∧ (∀ p ∈ injections', entry p.1) ∧
        (network cfg subscribers).ReachableBy (fun _ a => A a)
          (s.withCalls (Function.update calls k cs) injections') := by
    cases ph with
    | push =>
        refine ⟨calls k ++ [.metaFlow m .push], injections ++ [(k, m)], ?_, ?_,
          .step hr hmeta ?_⟩
        · rw [← Multiset.coe_add, hself, add_comm]
          exact congrArg _ (zero_add (G k))
        · intro p hp
          rcases List.mem_append.mp hp with hp | hp
          · exact hentry p hp
          · rw [List.mem_singleton.mp hp]
            exact hk
        · show some _ = some _
          have hsame : s.setNode k (s.nodes k) = s :=
            congrArg (Network.mk · s.injections) (Function.update_eq_self k s.nodes)
          have hset := withCalls_setNode s calls injections (injections ++ [(k, m)]) k (s.nodes k)
            (calls k ++ [.metaFlow m .push])
          rw [hsame] at hset
          rw [hset]
          rfl
    | hook | signal =>
        refine ⟨calls k, injections, hself, hentry, ?_⟩
        rwa [Function.update_eq_self]
  obtain ⟨cs, injections', hcs, hentry', hr'⟩ := hbegun
  obtain ⟨i, cs', hcs', hstep⟩ := Node.exists_callStep hcs
  refine ⟨Function.update calls k cs', injections', fun n => ?_, hentry', .step hr' (hcall i) ?_⟩
  · rw [hF' n]
    by_cases hn : n = k
    · subst hn
      rw [Function.update_self, hcs', if_pos rfl]
    · rw [Function.update_of_ne hn, hcalls n, hF n, if_neg (Ne.symm hn), if_neg (Ne.symm hn)]
  · show ((Node.withCalls (s.nodes k) (Function.update calls k cs k)).callStep i).map _ = _
    have hset := withCalls_setNode s (Function.update calls k cs) injections' injections' k
      ((s.nodes k).callBody (.metaFlow m ph)) cs'
    rw [Function.update_idem] at hset
    rw [Function.update_self, hstep, Option.map_some]
    refine congrArg some (Eq.trans ?_ hset.symm)
    exact congrArg (Network.mk _) (List.append_nil _)

end RunsBelow

end Network

end VideoStream
