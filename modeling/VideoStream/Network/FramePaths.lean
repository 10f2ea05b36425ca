import Mathlib.Algebra.Order.BigOperators.Group.Finset
import VideoStream.Library.Paths
import VideoStream.Network.Network
import VideoStream.Nodes.Conservation

/-!
# Frames flow along every path exactly once

In a network of base nodes with batch size 1, follow one frame `f` and count the calls of
`meta_flow` that a node `target` receives for it. Every copy of `f` in the network is on its way to
`target` along some of the paths that are left: a copy that is about to be pushed on `in_queue` of
`n` along all paths from `n`, a copy inside `n` along those that go on from a subscriber of `n`, and a
copy in `push_meta` along those that go on from a subscriber it has not reached yet. Weighed so, the
copies and the calls received add up to the number of paths from where `f` was injected
(`potential_eq`), whatever the interleaving. When nothing is in flight, only the calls are left.
-/

namespace VideoStream

open Library Meta

variable {N M : Type}

/-! ## Copies of a frame in a node -/

section Copies

variable [DecidableEq M] (f : M)

/-- A call of `meta_flow` for `f` that has not pushed it yet. -/
def Call.entering : Call M → ℕ
  | .metaFlow m .push => if m = f then 1 else 0
  | _ => 0

/-- The copies of `f` that the node has and has not given to `push_meta`. -/
def VpNode.copies (node : VpNode M N) : ℕ :=
  node.inQueue.count (some f) + node.handle.pc.inHand.toList.count f +
    node.handle.notCopied.count (some f) + node.waiting.count (some f)

/-- The calls of `meta_flow` for `f` whose push the node has seen. -/
def VpNode.received (node : VpNode M N) : ℕ := (inPushes node.trace).count f

/-- The weight of the subscribers that `push_meta` of `f` has not reached. -/
def DispatchPc.publishing (W : N → ℕ) : DispatchPc M N → ℕ
  | .publish m rest .push => if m = f then (rest.map W).sum else 0
  | .publish m rest .hook => if m = f then (rest.tail.map W).sum else 0
  | .publish m rest .signal => if m = f then (rest.tail.map W).sum else 0
  | _ => 0

/-- The calls received by `target` and the copies in flight, weighed by the paths that are left:
`W n` for a copy that enters `n`. -/
def VpNode.potential [DecidableEq N] (W : N → ℕ) (target n : N) (node : VpNode M N) : ℕ :=
  (if n = target then node.received f else 0) + weight (Call.entering f) node.calls * W n +
    node.copies f * (node.subscribers.map W).sum + node.dispatch.publishing f W

end Copies

/-! ## The handle thread -/

namespace VpNode

open Node

/-- What holds of a node of the network: of its dispatch thread and the head of `out_queue`, of its
cache, of its wiring and of its callers. -/
structure Flows (subscribers : List N) (node : VpNode M N) : Prop where
  head : ∀ m, node.dispatch.current = some m → node.outQueue.head? = some (some m)
  unfinished : node.handle.unfinished = []
  wired : node.subscribers = subscribers
  noPending : node.NoPending

variable [Meta M] {hb : 0 < 1} {node node' : VpNode M N}

/-- With batch size 1 and an empty cache, `f` and no other meta makes a batch with `f` in it; a meta
that makes no batch leaves the cache empty. -/
theorem callHandlers_one [DecidableEq M] {f m : M} {r : Handled M} (hf : FrameMeta f)
    (h : callHandlers (.base 1 hb) [] m = .ok r) :
    (tail m r = .emit ∧ r.frameMetaBatchCache.count (some f) = if m = f then 1 else 0) ∨
      tail m r ≠ .emit ∧ m ≠ f ∧ (tail m r = .keep → r.frameMetaBatchCache = []) := by
  unfold callHandlers at h
  cases ht : metaType m with
  | frame =>
      simp only [ht] at h
      cases h
      left
      refine ⟨by simp [tail, ht, NodeConfig.base], ?_⟩
      by_cases hmf : m = f
      · subst hmf
        simp [castFrame_of_frameMeta hf]
      · have hcast : castFrame m ≠ some f := by
          unfold castFrame
          split <;> simp [hmf]
        simp [hmf, hcast]
  | control =>
      simp only [ht] at h
      cases h
      right
      refine ⟨?_, ?_, fun _ => rfl⟩
      · unfold tail
        split <;> simp
      · rintro rfl
        cases ht.symm.trans hf.1
  | other raw =>
      simp only [ht] at h
      cases h

theorem handleStep_flows {subscribers : List N} [DecidableEq M] {f : M} (hf : FrameMeta f)
    (h : node.handleStep (.base 1 hb) = some node') (hn : node.Flows subscribers) :
    node'.Flows subscribers ∧ node'.copies f = node.copies f := by
  obtain ⟨hhead, hun, hwired, hpending⟩ := hn
  have hcache : ∀ m, node.handle.pc = .callHandlers m → node.handle.frameMetaBatchCache = [] := by
    intro m hp
    rwa [HandleRun.unfinished, hp] at hun
  cases handleStep_cases h with
  | enter hp _ | leave hp _ | wait hp _ | handlingHook m hp | deadSignal hp =>
      refine ⟨⟨hhead, ?_, hwired, hpending⟩, ?_⟩
      · simpa [HandleRun.unfinished, hp] using hun
      · simp [copies, HandlePc.inHand, HandleRun.notCopied, waiting, hp]
  | handledHook i rest hp | signal rest hp | pushEnd hp =>
      refine ⟨⟨hhead, rfl, hwired, hpending⟩, ?_⟩
      simp [copies, HandlePc.inHand, HandleRun.notCopied, waiting, hp]
  | popNull rest hp hq | popMeta m rest hp hq =>
      refine ⟨⟨hhead, ?_, hwired, hpending⟩, ?_⟩
      · simpa [HandleRun.unfinished, hp] using hun
      · simp [copies, HandlePc.inHand, HandleRun.notCopied, waiting, hp, hq, List.count_cons]
  | throws m msg hp hc =>
      have hmf : m ≠ f := by
        rintro rfl
        exact callHandlers_ne_error (.inl hf.1) hc
      refine ⟨⟨hhead, ?_, hwired, hpending⟩, ?_⟩
      · simpa [HandleRun.unfinished, hp] using hun
      · simp [copies, HandlePc.inHand, HandleRun.notCopied, waiting, hp, hmf]
  | consumed m r hp hc ht =>
      rw [hcache m hp] at hc
      rcases callHandlers_one hf hc with ⟨hemit, -⟩ | ⟨-, hmf, -⟩
      · cases ht.symm.trans hemit
      · refine ⟨⟨hhead, rfl, hwired, hpending⟩, ?_⟩
        simp [copies, HandlePc.inHand, HandleRun.notCopied, waiting, hp, hmf, hcache m hp]
  | keep m r hp hc ht =>
      rw [hcache m hp] at hc
      rcases callHandlers_one hf hc with ⟨hemit, -⟩ | ⟨-, hmf, hkeep⟩
      · cases ht.symm.trans hemit
      · refine ⟨⟨hhead, hkeep ht, hwired, hpending⟩, ?_⟩
        simp [copies, HandlePc.inHand, HandleRun.notCopied, waiting, hp, hmf, hcache m hp, hkeep ht]
  | emit m r hp hc ht =>
      rw [hcache m hp] at hc
      rcases callHandlers_one hf hc with ⟨-, hcount⟩ | ⟨hemit, -⟩
      · refine ⟨⟨hhead, rfl, hwired, hpending⟩, ?_⟩
        simp [copies, HandlePc.inHand, HandleRun.notCopied, waiting, hp, hcount, hcache m hp,
          List.count_singleton]
      · exact absurd ht hemit
  | push i rest hp =>
      refine ⟨⟨fun m hm => ?_, rfl, hwired, hpending⟩, ?_⟩
      · rw [List.head?_append, hhead m hm]
        rfl
      · have hw : waiting { node with
            outQueue := node.outQueue ++ [i], trace := node.trace ++ [.outPush i],
            handle.pc := .handledHook i rest } = node.waiting ++ [i] :=
          waiting_push i rfl rfl hhead
        simp only [copies, hw, HandlePc.inHand, HandleRun.notCopied, hp, List.count_append,
          List.count_cons, List.count_nil]
        omega
  | deadPush hp =>
      refine ⟨⟨fun m hm => ?_, ?_, hwired, hpending⟩, ?_⟩
      · rw [List.head?_append, hhead m hm]
        rfl
      · simpa [HandleRun.unfinished, hp] using hun
      · have hw : waiting { node with
            outQueue := node.outQueue ++ [none], trace := node.trace ++ [.outPush none],
            handle.pc := .deadSignal } = node.waiting ++ [none] :=
          waiting_push none rfl rfl hhead
        simp [copies, hw, HandlePc.inHand, HandleRun.notCopied, hp]

/-! ## The potential of a node -/

variable [DecidableEq N] [DecidableEq M] {f : M} {W : N → ℕ} {target n : N} {subscribers : List N}

omit [Meta M] in
/-- A step of the node that neither receives a call nor passes a copy on. -/
theorem potential_congr (htrace : inPushes node'.trace = inPushes node.trace)
    (hcalls : weight (Call.entering f) node'.calls = weight (Call.entering f) node.calls)
    (hcopies : node'.copies f = node.copies f) (hwired : node'.subscribers = node.subscribers)
    (hpub : node'.dispatch.publishing f W = node.dispatch.publishing f W) :
    node'.potential f W target n = node.potential f W target n := by
  unfold potential received
  rw [htrace, hcalls, hcopies, hwired, hpub]

theorem handleStep_potential (hf : FrameMeta f) (h : node.handleStep (.base 1 hb) = some node')
    (hn : node.Flows subscribers) :
    node'.potential f W target n = node.potential f W target n := by
  obtain ⟨hn', hcopies⟩ := handleStep_flows hf h hn
  have hwired : node'.subscribers = node.subscribers := hn'.wired.trans hn.wired.symm
  cases handleStep_cases h <;>
    exact potential_congr (by simp [Event.inPushed]) rfl hcopies hwired rfl

omit [Meta M] in
/-- A call of `meta_flow` is a step closer to `target`: the copy that was about to enter is inside,
and the call is received. -/
theorem metaFlowBody_potential (m : M) (ph : FlowPc)
    (hW : W n = (if n = target then 1 else 0) + (node.subscribers.map W).sum) :
    VpNode.potential f W target n (node.metaFlowBody m ph) =
      node.potential f W target n + Call.entering f (.metaFlow m ph) * W n := by
  cases ph with
  | push =>
      have hreceived : received f (node.metaFlowBody m .push) =
          node.received f + if m = f then 1 else 0 := by
        simp [received, metaFlowBody, Event.inPushed, List.count_singleton]
      have hcopies : copies f (node.metaFlowBody m .push) =
          node.copies f + if m = f then 1 else 0 := by
        have hqueue : (node.inQueue ++ [some m]).count (some f) =
            node.inQueue.count (some f) + if m = f then 1 else 0 := by
          simp [List.count_singleton]
        show (node.inQueue ++ [some m]).count (some f) + node.handle.pc.inHand.toList.count f +
          node.handle.notCopied.count (some f) + node.waiting.count (some f) = _
        rw [hqueue, copies]
        omega
      show (if n = target then received f (node.metaFlowBody m .push) else 0) +
        weight (Call.entering f) node.calls * W n +
          copies f (node.metaFlowBody m .push) * (node.subscribers.map W).sum +
            node.dispatch.publishing f W = _
      rw [hreceived, hcopies, potential, Nat.add_mul]
      by_cases hm : m = f
      · rw [Call.entering, if_pos hm, one_mul, one_mul]
        split_ifs at hW ⊢ <;> omega
      · rw [Call.entering, if_neg hm, Nat.zero_mul, Nat.zero_mul]
        rfl
  | hook =>
      rw [show Call.entering f (.metaFlow m .hook) = 0 from rfl, Nat.zero_mul]
      exact potential_congr (by simp [metaFlowBody, Event.inPushed]) rfl rfl rfl rfl
  | signal =>
      rw [show Call.entering f (.metaFlow m .signal) = 0 from rfl, Nat.zero_mul]
      rfl

omit [Meta M] in
/-- Inside `push_meta` of `f`, the copy for the first subscriber goes to that subscriber. -/
theorem flow_potential {k : N} {rest : List N} {m : M} {ph : FlowPc}
    (hp : node.dispatch = .publish m (k :: rest) ph) :
    VpNode.potential f W target n { node with dispatch := publishNext m (k :: rest) ph } +
      Call.entering f (.metaFlow m ph) * W k = node.potential f W target n := by
  have hcopies : copies f { node with dispatch := publishNext m (k :: rest) ph } =
      node.copies f := by
    unfold copies waiting
    simp only [publishNext_given]
    simp [hp, DispatchPc.given]
  have hpub : (publishNext m (k :: rest) ph).publishing f W +
      Call.entering f (.metaFlow m ph) * W k = node.dispatch.publishing f W := by
    rw [hp]
    cases ph <;> by_cases hm : m = f <;>
      simp [publishNext, DispatchPc.publishing, Call.entering, hm, Nat.add_comm]
  show (if n = target then node.received f else 0) + weight (Call.entering f) node.calls * W n +
    copies f { node with dispatch := publishNext m (k :: rest) ph } *
      (node.subscribers.map W).sum + (publishNext m (k :: rest) ph).publishing f W + _ = _
  rw [hcopies, potential, ← hpub, Nat.add_assoc]

omit [Meta M] in
theorem dispatchStep_potential (h : node.dispatchStep = some node')
    (hne : ∀ m k rest ph, node.dispatch ≠ .publish m (k :: rest) ph)
    (hhead : ∀ m, node.dispatch.current = some m → node.outQueue.head? = some (some m)) :
    node'.potential f W target n = node.potential f W target n := by
  cases dispatchStep_cases h with
  | enter hp _ | leave hp _ | wait hp _ | frontEmpty hp _ | frontNull rest hp _
  | frontMeta m rest hp _ | pop m hp =>
      refine potential_congr rfl rfl ?_ rfl (by simp [hp, DispatchPc.publishing])
      simp [copies, waiting, hp, DispatchPc.given]
  | leavingHook m hp =>
      refine potential_congr (by simp [Event.inPushed]) rfl ?_ rfl
        (by simp [hp, DispatchPc.publishing])
      simp [copies, waiting, hp, DispatchPc.given]
  | publish m rest ph hp =>
      cases rest with
      | cons k rest => exact absurd hp (hne m k rest ph)
      | nil =>
          refine potential_congr rfl rfl ?_ rfl ?_
          · simp [copies, waiting, hp, publishNext, DispatchPc.given]
          · cases ph <;> simp [hp, publishNext, DispatchPc.publishing]
  | pushMeta m hp =>
      -- the head of `out_queue` is given to all subscribers
      have hq := hhead m (by rw [hp]; rfl)
      have hwaiting : node.outQueue.count (some f) =
          node.outQueue.tail.count (some f) + if m = f then 1 else 0 := by
        cases hc : node.outQueue with
        | nil => simp [hc] at hq
        | cons e rest =>
            obtain rfl : e = some m := by simpa [hc] using hq
            simp [List.count_cons]
      have hcopies : node.copies f = copies f { node with
          trace := node.trace ++ [.pushMeta m],
          dispatch := .publish m node.subscribers .push } + if m = f then 1 else 0 := by
        simp only [copies, waiting, hp, DispatchPc.given, Option.isSome_none, Option.isSome_some,
          if_true, Bool.false_eq_true, if_false]
        omega
      have hreceived : received f { node with
          trace := node.trace ++ [.pushMeta m],
          dispatch := .publish m node.subscribers .push } = node.received f := by
        simp [received, Event.inPushed]
      unfold potential
      rw [hcopies, hreceived, hp, Nat.add_mul]
      simp only [DispatchPc.publishing]
      split_ifs <;> omega

omit [Meta M] in
theorem potential_calls (f : M) (W : N → ℕ) (target n : N) (node : VpNode M N)
    (calls : List (Call M)) :
    VpNode.potential f W target n { node with calls := calls } +
      weight (Call.entering f) node.calls * W n =
        node.potential f W target n + weight (Call.entering f) calls * W n := by
  show (if n = target then node.received f else 0) + weight (Call.entering f) calls * W n +
    node.copies f * (node.subscribers.map W).sum + node.dispatch.publishing f W + _ = _
  unfold potential
  omega

omit [Meta M] in
/-- A caller from outside that is under way. -/
theorem callStep_potential {i : Nat} (h : node.callStep i = some node')
    (hn : node.Flows subscribers)
    (hW : W n = (if n = target then 1 else 0) + (node.subscribers.map W).sum) :
    node'.potential f W target n = node.potential f W target n := by
  obtain ⟨c, hc, rfl⟩ := callStep_cases h
  rcases c with ⟨m, ph⟩ | ⟨m, ph⟩
  · have hweight := weight_advance (w := Call.entering f) hc
    have hnext : ((Call.metaFlow m ph).next.map (Call.entering f)).getD 0 = 0 := by
      cases ph <;> rfl
    have hcalls := potential_calls f W target n (node.metaFlowBody m ph)
      (advance node.calls i (.metaFlow m ph))
    have hbody := metaFlowBody_potential (f := f) m ph hW
    have hsame : (node.metaFlowBody m ph).calls = node.calls := by cases ph <;> rfl
    rw [hnext, Nat.add_zero] at hweight
    rw [hsame, ← hweight, hbody, Nat.add_mul] at hcalls
    exact Nat.add_right_cancel (hcalls.trans (by omega))
  · exact absurd (List.mem_of_getElem? hc) (hn.noPending m ph)

omit [Meta M] in
/-- The other steps: of the callers from outside, and of `deinitialized`. -/
theorem nodeStep_potential {a : NodeAct M} (h : node.step a = some node') (ha : a ≠ .dispatch)
    (hp : (VpAct.node a).NoPendingMeta) (hn : node.Flows subscribers)
    (hW : W n = (if n = target then 1 else 0) + (node.subscribers.map W).sum) :
    node'.potential f W target n =
      node.potential f W target n + a.injected.toList.count f * W n := by
  cases a with
  | dispatch => exact absurd rfl ha
  | metaFlow m =>
      cases m with
      | none =>
          cases h
          simp [NodeAct.injected]
      | some m =>
          cases h
          have hcalls := potential_calls f W target n node (node.calls ++ [.metaFlow m .push])
          have hweight : weight (Call.entering f) (node.calls ++ [.metaFlow m .push]) =
              weight (Call.entering f) node.calls + [m].count f := by
            simp [Call.entering, List.count_singleton]
          rw [hweight, Nat.add_mul] at hcalls
          show _ = _ + [m].count f * W n
          omega
  | pendingMeta m => exact hp.elim
  | call i =>
      rw [callStep_potential h hn hW]
      simp [NodeAct.injected]
  | deinitialized =>
      obtain ⟨-, rfl⟩ := deinitialized_cases h
      simp [NodeAct.injected, potential, received, copies, waiting]
  | deinit =>
      have hzero : (NodeAct.deinit : NodeAct M).injected.toList.count f * W n = 0 := by
        simp [NodeAct.injected]
      rw [hzero, Nat.add_zero]
      cases deinitStep_cases h with
      | push hp => exact potential_congr rfl rfl (by simp [copies, waiting]) rfl rfl
      | _ => exact potential_congr rfl rfl rfl rfl rfl

/-! ## The invariant of a node -/

omit [Meta M] [DecidableEq N] [DecidableEq M] in
theorem dispatchStep_flows (h : node.dispatchStep = some node') (hn : node.Flows subscribers) :
    node'.Flows subscribers := by
  obtain ⟨hhead, hun, hwired, hpending⟩ := hn
  suffices hhead' : ∀ m, node'.dispatch.current = some m → node'.outQueue.head? = some (some m) by
    refine ⟨hhead', ?_, ?_, ?_⟩ <;> cases dispatchStep_cases h <;> assumption
  cases dispatchStep_cases h with
  | enter hp _ | leave hp _ | wait hp _ | frontEmpty hp _ | frontNull rest hp _ | pop m hp =>
      exact fun _ hm => nomatch hm
  | frontMeta m rest hp hq =>
      rintro m' hm'
      cases hm'
      show node.outQueue.head? = _
      rw [hq]
      rfl
  | leavingHook m hp | pushMeta m hp => exact fun m' hm' => hhead m' (by rw [hp]; exact hm')
  | publish m rest ph hp =>
      intro m' hm'
      rw [publishNext_current] at hm'
      exact hhead m' (by rw [hp]; exact hm')

omit [Meta M] [DecidableEq N] [DecidableEq M] in
theorem metaFlowBody_flows (m : M) (ph : FlowPc) (hn : node.Flows subscribers) :
    VpNode.Flows subscribers (node.metaFlowBody m ph) := by
  cases ph <;> exact ⟨hn.head, hn.unfinished, hn.wired, hn.noPending⟩

omit [Meta M] [DecidableEq N] [DecidableEq M] in
theorem nodeStep_flows {a : NodeAct M} (h : node.step a = some node')
    (hp : (VpAct.node a).NoPendingMeta) (hn : node.Flows subscribers) :
    node'.Flows subscribers := by
  have hpending := nodeStep_noPending h hp hn.noPending
  cases a with
  | dispatch => exact dispatchStep_flows h hn
  | metaFlow m => cases m <;> (cases h; exact ⟨hn.head, hn.unfinished, hn.wired, hpending⟩)
  | pendingMeta m => exact hp.elim
  | call i =>
      obtain ⟨c, hc, rfl⟩ := callStep_cases h
      rcases c with ⟨m, ph⟩ | ⟨m, ph⟩
      · have hbody := metaFlowBody_flows m ph hn
        exact ⟨hbody.head, hbody.unfinished, hbody.wired, hpending⟩
      · exact absurd (List.mem_of_getElem? hc) (hn.noPending m ph)
  | deinitialized =>
      obtain ⟨-, rfl⟩ := deinitialized_cases h
      exact ⟨hn.head, hn.unfinished, hn.wired, hpending⟩
  | deinit =>
      cases deinitStep_cases h <;> exact ⟨hn.head, hn.unfinished, hn.wired, hpending⟩

end VpNode

/-! ## The potential of the network -/

/-- The step does not begin a call of `pending_meta`. -/
def NetAct.NoPendingMeta : NetAct N M → Prop
  | .handle _ => True
  | .node _ a => (VpAct.node a).NoPendingMeta

instance : ∀ a : NetAct N M, Decidable a.NoPendingMeta
  | .handle _ => isTrue trivial
  | .node _ a => inferInstanceAs (Decidable (VpAct.node a).NoPendingMeta)

namespace Network

variable [Fintype N] [DecidableEq N] [DecidableEq M]

def potential (f : M) (W : N → ℕ) (target : N) (s : Network N M) : ℕ :=
  ∑ n, (s.nodes n).potential f W target n

/-- The weight of the calls of `meta_flow` from outside for `f`. -/
def injected (f : M) (W : N → ℕ) (s : Network N M) : ℕ :=
  ((s.injections.filter fun p => p.2 = f).map fun p => W p.1).sum

omit [DecidableEq M] in
theorem sum_setNode (P : N → VpNode M N → ℕ) (s : Network N M) (n : N) (node : VpNode M N) :
    ∑ k, P k ((s.setNode n node).nodes k) + P n (s.nodes n) =
      ∑ k, P k (s.nodes k) + P n node := by
  rw [← Finset.sum_erase_add _ _ (Finset.mem_univ n),
    ← Finset.sum_erase_add (Finset.univ) (fun k => P k (s.nodes k)) (Finset.mem_univ n),
    setNode_self]
  have hrest : ∑ k ∈ Finset.univ.erase n, P k ((s.setNode n node).nodes k) =
      ∑ k ∈ Finset.univ.erase n, P k (s.nodes k) := by
    refine Finset.sum_congr rfl fun k hk => ?_
    rw [setNode_of_ne s node (Finset.ne_of_mem_erase hk)]
  rw [hrest]
  omega

omit [Fintype N] [DecidableEq N] in
theorem injected_append (f : M) (W : N → ℕ) (s : Network N M) (n : N) (m : Option M) :
    injected f W { s with injections := s.injections ++ m.toList.map fun m => (n, m) } =
      s.injected f W + m.toList.count f * W n := by
  unfold injected
  rw [List.filter_append, List.map_append, List.sum_append]
  cases m with
  | none => simp
  | some m => by_cases hm : m = f <;> simp [hm]

section Steps

variable [Meta M] {f : M} {W : N → ℕ} {target : N} {subscribers : N → List N} {s s' : Network N M}
  {hb : 0 < 1} {a : NetAct N M}

omit [Fintype N] [DecidableEq M] [Meta M] in
theorem publishNext_flows {n k : N} {m : M} {rest : List N} {ph : FlowPc} {s₁ : Network N M}
    (hd : (s.nodes n).dispatch = .publish m (k :: rest) ph)
    (hs₁ : s₁ = s.setNode n { s.nodes n with dispatch := Node.publishNext m (k :: rest) ph })
    (hs : ∀ n, (s.nodes n).Flows (subscribers n)) : ∀ n, (s₁.nodes n).Flows (subscribers n) := by
  rw [hs₁]
  refine forall_setNode hs (VpNode.dispatchStep_flows ?_ (hs n))
  simp [Node.dispatchStep, hd]

omit [Fintype N] in
theorem step_flows (hf : FrameMeta f)
    (h : (network (fun _ => .base 1 hb) subscribers).step s a = some s') (hp : a.NoPendingMeta)
    (hs : ∀ n, (s.nodes n).Flows (subscribers n)) : ∀ n, (s'.nodes n).Flows (subscribers n) := by
  cases step_cases h with
  | handle n node hn => exact forall_setNode hs (VpNode.handleStep_flows hf hn (hs n)).1
  | flow n k m rest ph s₁ hd hs₁ =>
      have hs₁' := publishNext_flows hd hs₁ hs
      exact forall_setNode hs₁' (VpNode.metaFlowBody_flows m ph (hs₁' k))
  | dispatch n node hn _ => exact forall_setNode hs (VpNode.dispatchStep_flows hn (hs n))
  | node n a node ha hn => exact forall_setNode hs (VpNode.nodeStep_flows hn hp (hs n))

/-- A step moves copies along the edges, and changes the potential only by what it injects. -/
theorem step_potential (hf : FrameMeta f)
    (hW : ∀ n, W n = (if n = target then 1 else 0) + ((subscribers n).map W).sum)
    (h : (network (fun _ => .base 1 hb) subscribers).step s a = some s') (hp : a.NoPendingMeta)
    (hs : ∀ n, (s.nodes n).Flows (subscribers n))
    (hbal : s.potential f W target = s.injected f W) :
    s'.potential f W target = s'.injected f W := by
  have hwired : ∀ n (node : VpNode M N), node.subscribers = subscribers n →
      W n = (if n = target then 1 else 0) + (node.subscribers.map W).sum := by
    intro n node hn
    rw [hn]
    exact hW n
  unfold potential at *
  cases step_cases h with
  | handle n node hn =>
      have hsum := sum_setNode (VpNode.potential f W target) s n node
      rw [VpNode.handleStep_potential hf hn (hs n)] at hsum
      exact (Nat.add_right_cancel hsum).trans hbal
  | flow n k m rest ph s₁ hd hs₁ =>
      -- the copy leaves `n` and enters `k`
      have hleave : VpNode.potential f W target n
          { s.nodes n with dispatch := Node.publishNext m (k :: rest) ph } +
            Call.entering f (.metaFlow m ph) * W k = (s.nodes n).potential f W target n :=
        VpNode.flow_potential hd
      have hk := (publishNext_flows hd hs₁ hs k).wired
      have henter : VpNode.potential f W target k ((s₁.nodes k).metaFlowBody m ph) =
          (s₁.nodes k).potential f W target k + Call.entering f (.metaFlow m ph) * W k :=
        VpNode.metaFlowBody_potential m ph (hwired k _ hk)
      have hsum := sum_setNode (VpNode.potential f W target) s n
        { s.nodes n with dispatch := Node.publishNext m (k :: rest) ph }
      have hsum' := sum_setNode (VpNode.potential f W target) s₁ k
        ((s₁.nodes k).metaFlowBody m ph)
      rw [← hs₁] at hsum
      have hinj : s₁.injections = s.injections := by
        rw [hs₁]
        rfl
      show _ = ((s₁.injections.filter fun p => p.2 = f).map fun p => W p.1).sum
      rw [hinj]
      show _ = s.injected f W
      omega
  | dispatch n node hn hne =>
      have hsum := sum_setNode (VpNode.potential f W target) s n node
      rw [VpNode.dispatchStep_potential hn hne (hs n).head] at hsum
      exact (Nat.add_right_cancel hsum).trans hbal
  | node n a node ha hn =>
      have hsum := sum_setNode (VpNode.potential f W target) s n node
      rw [VpNode.nodeStep_potential hn ha hp (hs n) (hwired n _ (hs n).wired)] at hsum
      have hinj := injected_append f W (s.setNode n node) n a.injected
      have hsame : (s.setNode n node).injected f W = s.injected f W := rfl
      show ∑ k, VpNode.potential f W target k ((s.setNode n node).nodes k) = _
      rw [hsame] at hinj
      refine Eq.trans ?_ hinj.symm
      omega

omit [Fintype N] in
theorem reachable_flows (hf : FrameMeta f)
    (h : (network (fun _ => .base 1 hb) subscribers).ReachableBy (fun _ a => a.NoPendingMeta) s) :
    ∀ n, (s.nodes n).Flows (subscribers n) := by
  apply h.invariant (I := fun s => ∀ n, (s.nodes n).Flows (subscribers n))
  · rintro _ rfl n
    exact ⟨fun _ hm => (nomatch hm), rfl, rfl, fun _ _ hc => (nomatch hc)⟩
  · intro s s' a _ hs hp hstep
    exact step_flows hf hstep hp hs

/-- In every reachable state the calls received and the copies in flight, weighed by the paths that
are left, make up the paths from where `f` was injected. -/
theorem potential_eq (hf : FrameMeta f)
    (hW : ∀ n, W n = (if n = target then 1 else 0) + ((subscribers n).map W).sum)
    (h : (network (fun _ => .base 1 hb) subscribers).ReachableBy (fun _ a => a.NoPendingMeta) s) :
    s.potential f W target = s.injected f W := by
  apply h.invariant (I := fun s => s.potential f W target = s.injected f W)
  · rintro _ rfl
    apply Finset.sum_eq_zero
    intro n _
    show (if n = target then 0 else 0) + 0 * W n + 0 * _ + 0 = 0
    simp
  · intro s s' a hr hs hp hstep
    exact step_potential hf hW hstep hp (reachable_flows hf hr) hs

end Steps

/-- Nothing is in flight: the queues are empty, and no thread is in the middle of an iteration or
of a call. -/
structure Quiescent (s : Network N M) : Prop where
  inQueue : ∀ n, (s.nodes n).inQueue = []
  outQueue : ∀ n, (s.nodes n).outQueue = []
  handle : ∀ n, (s.nodes n).handle.pc = .test ∨ (s.nodes n).handle.pc = .wait
  dispatch : ∀ n, (s.nodes n).dispatch = .test ∨ (s.nodes n).dispatch = .wait
  calls : ∀ n, (s.nodes n).calls = []

omit [Fintype N] [DecidableEq N] in
theorem Quiescent.potential [DecidableEq N] {s : Network N M} (hq : s.Quiescent) {f : M} {W : N → ℕ}
    {target n : N} {l : List N} (hn : (s.nodes n).Flows l) :
    (s.nodes n).potential f W target n = if n = target then (s.nodes n).received f else 0 := by
  have hcopied : (s.nodes n).handle.notCopied = [] := by
    rw [HandleRun.notCopied_eq, hn.unfinished]
    rcases hq.handle n with hp | hp <;> rw [hp] <;> rfl
  have hhand : (s.nodes n).handle.pc.inHand = none := by
    rcases hq.handle n with hp | hp <;> rw [hp] <;> rfl
  have hwaiting : (s.nodes n).waiting = [] := by
    rw [Node.waiting, hq.outQueue n]
    split <;> rfl
  have hpub : (s.nodes n).dispatch.publishing f W = 0 := by
    rcases hq.dispatch n with hp | hp <;> rw [hp] <;> rfl
  unfold VpNode.potential VpNode.copies
  rw [hq.inQueue n, hq.calls n, hcopied, hhand, hwaiting, hpub]
  simp

end Network

/-- A frame that was injected once into `n` of a finite acyclic network of base nodes reaches every
node at most once along each path, and exactly once when nothing is in flight. -/
theorem frame_flows_once [Fintype N] [DecidableEq N] [DecidableEq M] [Meta M]
    {subscribers : N → List N} {hb : 0 < 1} {s : Network N M} {f : M} {n : N}
    (hacyclic : Acyclic subscribers) (hf : FrameMeta f)
    (h : (network (fun _ => .base 1 hb) subscribers).ReachableBy (fun _ a => a.NoPendingMeta) s)
    (honce : s.injections.filter (fun p => p.2 = f) = [(n, f)]) (m : N) :
    (s.nodes m).received f ≤ pathCount subscribers n m ∧
      (s.Quiescent → (s.nodes m).received f = pathCount subscribers n m) := by
  have hpot := Network.potential_eq (W := fun k => pathCount subscribers k m) hf
    (fun k => hacyclic.pathCount_eq k m) h
  have hinj : s.injected f (fun k => pathCount subscribers k m) = pathCount subscribers n m := by
    unfold Network.injected
    rw [honce]
    simp
  rw [hinj] at hpot
  constructor
  · rw [← hpot]
    refine le_trans ?_ (Finset.single_le_sum (fun _ _ => Nat.zero_le _) (Finset.mem_univ m))
    unfold VpNode.potential
    rw [if_pos rfl]
    omega
  · intro hq
    rw [← hpot, Network.potential, Finset.sum_congr rfl fun k _ =>
      hq.potential (Network.reachable_flows hf h k)]
    simp

/-- Two nodes, the second subscribed twice to the first. -/
def doubleEdge : Fin 2 → List (Fin 2)
  | 0 => [1, 1]
  | 1 => []

/-- A frame is injected into the first node, and both nodes work until nothing is in flight. -/
def doubleEdgeRun : List (NetAct (Fin 2) MetaPtr) :=
  let iteration (n : Fin 2) : List (NetAct (Fin 2) MetaPtr) := List.replicate 9 (.handle n)
  let dispatch (n : Fin 2) (k : Nat) : List (NetAct (Fin 2) MetaPtr) :=
    List.replicate k (.node n .dispatch)
  [.node 0 (.metaFlow (some (.frame 0))), .node 0 (.call 0), .node 0 (.call 0), .node 0 (.call 0)] ++
    iteration 0 ++ dispatch 0 13 ++ iteration 1 ++ iteration 1 ++ dispatch 1 14

theorem frame_flows_once_doubleEdge :
    ∃ s : Network (Fin 2) MetaPtr, s.Quiescent ∧ (s.nodes 1).received (.frame 0) = 2 ∧
      (s.nodes 1).received (.frame 0) = pathCount doubleEdge 0 1 := by
  have hinit : (network (fun _ => .base 1 Nat.one_pos) doubleEdge).ReachableBy
      (fun _ a => a.NoPendingMeta)
      (⟨fun n => VpNode.start (doubleEdge n), []⟩ : Network (Fin 2) MetaPtr) := .init rfl
  obtain ⟨s, hr, hp⟩ := hinit.exists_of_run
    (p := fun s => (∀ n, (s.nodes n).inQueue = [] ∧ (s.nodes n).outQueue = [] ∧
      (s.nodes n).handle.pc = .test ∧ (s.nodes n).dispatch = .test ∧ (s.nodes n).calls = []) ∧
      (s.nodes 1).received (.frame 0) = 2 ∧
        s.injections.filter (fun p => p.2 = .frame 0) = [(0, .frame 0)])
    doubleEdgeRun (by decide) (by decide)
  obtain ⟨hquiet, htwo, honce⟩ := hp
  have hacyclic : Acyclic doubleEdge := Acyclic.of_lt (by decide)
  have hq : s.Quiescent := ⟨fun n => (hquiet n).1, fun n => (hquiet n).2.1,
    fun n => .inl (hquiet n).2.2.1, fun n => .inl (hquiet n).2.2.2.1, fun n => (hquiet n).2.2.2.2⟩
  exact ⟨s, hq, htwo, (frame_flows_once hacyclic (by decide) hr honce 1).2 hq⟩

end VideoStream
