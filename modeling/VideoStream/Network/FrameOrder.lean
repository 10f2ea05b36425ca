import VideoStream.Network.FramePaths
import VideoStream.Network.NodeRuns
import VideoStream.Nodes.Teardown

/-!
# The order of frames in a network

A network of base nodes, each with its own batch size. Where a node has one pre node only, what it has
received is what the pre node gave to `push_meta`, as often as it is subscribed there, up to the meta
that is being pushed (`reachable_handsOver`). A node by itself gives whole batches of what it has
received to `push_meta`; that holds in the network too, by `node_reachable`. `Arrives` puts the two
together along the edges, and `frames_arrive_in_order` is that the nodes below a node `r` receive just
this: at any time a beginning of it, and all of it when nothing is in flight.
-/

namespace VideoStream

open Library Meta

variable {N M : Type}

/-! ## One subscription -/

/-- What the dispatch thread is still to hand over to `k` in this call of `push_meta`. -/
def DispatchPc.toGive [DecidableEq N] (k : N) : DispatchPc M N → List M
  | .publish m rest .push => List.replicate (rest.count k) m
  | .publish m rest .hook | .publish m rest .signal => List.replicate (rest.tail.count k) m
  | _ => []

namespace VpNode

/-- The calls of `meta_flow` from outside that are in progress have metas in `P`. -/
def FlowsOnly (P : M → Prop) (node : VpNode M N) : Prop :=
  ∀ m ph, Call.metaFlow m ph ∈ node.calls → P m

variable {node node' : VpNode M N} {P : M → Prop}

theorem handleStep_inPushes [Meta M] {cfg : NodeConfig M} (h : node.handleStep cfg = some node') :
    inPushes node'.trace = inPushes node.trace := by
  cases handleStep_cases h <;> simp [Event.inPushed]

theorem inPushes_metaFlowBody (m : M) (ph : FlowPc) :
    inPushes (node.metaFlowBody m ph).trace =
      inPushes node.trace ++ if ph = .push then [m] else [] := by
  cases ph <;> simp [Node.metaFlowBody, Event.inPushed]

/-- A shared thread that is in no call pushes nothing on `in_queue`. -/
theorem nodeStep_inPushes_same {a : NodeAct M} (h : node.step a = some node') (ha : a ≠ .dispatch)
    (hcall : ∀ i, a ≠ .call i) : inPushes node'.trace = inPushes node.trace := by
  cases a with
  | dispatch => exact absurd rfl ha
  | metaFlow m => cases m <;> (cases h; rfl)
  | pendingMeta m => cases h; rfl
  | call i => exact absurd rfl (hcall i)
  | deinitialized =>
      obtain ⟨-, rfl⟩ := Node.deinitialized_cases h
      rfl
  | deinit => cases Node.deinitStep_cases h <;> rfl

/-- What a step of a shared thread pushes on `in_queue` comes from a call in progress. -/
theorem nodeStep_inPushes {a : NodeAct M} (h : node.step a = some node') (ha : a ≠ .dispatch)
    (hflow : node.FlowsOnly P) :
    ∃ ms, (∀ m ∈ ms, P m) ∧ inPushes node'.trace = inPushes node.trace ++ ms := by
  by_cases hcall : ∃ i, a = .call i
  · obtain ⟨i, rfl⟩ := hcall
    obtain ⟨c, hc, rfl⟩ := Node.callStep_cases h
    rcases c with ⟨m, pc⟩ | ⟨m, pc⟩
    · refine ⟨if pc = .push then [m] else [], ?_, inPushes_metaFlowBody m pc⟩
      intro m' hm'
      split at hm'
      · rw [List.mem_singleton.mp hm']
        exact hflow m pc (List.mem_of_getElem? hc)
      · cases hm'
    · refine ⟨[], List.forall_mem_nil _, ?_⟩
      cases pc <;> simp [Node.callBody, Node.pendingMetaBody, Event.inPushed]
  · refine ⟨[], List.forall_mem_nil _, ?_⟩
    rw [nodeStep_inPushes_same h ha fun i hi => hcall ⟨i, hi⟩, List.append_nil]

theorem nodeStep_flowsOnly {a : NodeAct M} (h : node.step a = some node')
    (ha : ∀ m, a.injected = some m → P m) (hn : node.FlowsOnly P) : node'.FlowsOnly P := by
  cases a with
  | dispatch => cases Node.dispatchStep_cases h <;> exact hn
  | metaFlow m =>
      cases m with
      | none =>
          cases h
          exact hn
      | some m =>
          cases h
          intro m' ph hc
          rcases List.mem_append.mp hc with hc | hc
          · exact hn m' ph hc
          · cases List.mem_singleton.mp hc
            exact ha m rfl
  | pendingMeta m =>
      cases h
      intro m' ph hc
      rcases List.mem_append.mp hc with hc | hc
      · exact hn m' ph hc
      · cases List.mem_singleton.mp hc
  | call i =>
      obtain ⟨c, hc, rfl⟩ := Node.callStep_cases h
      intro m ph hd
      rcases mem_advance hd with hd | hnext
      · exact hn m ph hd
      · rcases c with ⟨m', pc'⟩ | ⟨m', pc'⟩
        · have hm' := hn m' pc' (List.mem_of_getElem? hc)
          cases pc' <;> cases hnext <;> exact hm'
        · cases pc' <;> cases hnext
  | deinitialized =>
      obtain ⟨-, rfl⟩ := Node.deinitialized_cases h
      exact hn
  | deinit => cases Node.deinitStep_cases h <;> exact hn

end VpNode

/-- Outside `push_meta` there is nothing to hand over; a call of it begins with all there is. -/
theorem Node.dispatchStep_toGive {H : Type} [DecidableEq N] {node node' : Node H M N}
    {subscribers : List N} (h : node.dispatchStep = some node')
    (hn : node.Wired subscribers)
    (hne : ∀ m k rest ph, node.dispatch ≠ .publish m (k :: rest) ph) (k : N) :
    node.dispatch.toGive k = [] ∧ inPushes node'.trace = inPushes node.trace ∧
      (pushMetas node'.trace).flatMap (List.replicate (subscribers.count k)) =
        (pushMetas node.trace).flatMap (List.replicate (subscribers.count k)) ++
          node'.dispatch.toGive k := by
  cases Node.dispatchStep_cases h with
  | pushMeta m hp =>
      refine ⟨by rw [hp]; rfl, by simp [Event.inPushed], ?_⟩
      show (pushMetas (node.trace ++ [.pushMeta m])).flatMap _ =
        _ ++ List.replicate (node.subscribers.count k) m
      rw [pushMetas_concat, List.flatMap_append, hn.wired]
      simp [Event.pushed]
  | leavingHook m hp =>
      refine ⟨by rw [hp]; rfl, by simp [Event.inPushed], ?_⟩
      show (pushMetas (node.trace ++ [.leaving _ m])).flatMap _ = _ ++ []
      rw [pushMetas_concat, List.append_nil]
      simp [Event.pushed]
  | publish m rest ph hp =>
      cases rest with
      | nil =>
          refine ⟨?_, rfl, (List.append_nil _).symm⟩
          rw [hp]
          cases ph <;> rfl
      | cons j rest => exact absurd hp (hne m j rest ph)
  | enter hp _ | leave hp _ | wait hp _ | frontEmpty hp _ | frontNull rest hp _
  | frontMeta m rest hp _ | pop m hp =>
      exact ⟨by rw [hp]; rfl, rfl, (List.append_nil _).symm⟩

/-- The first subscriber of `rest` gets the meta when `meta_flow` pushes it. -/
theorem toGive_publishNext [DecidableEq N] (m : M) (j k : N) (rest : List N) (ph : FlowPc) :
    (DispatchPc.publish m (j :: rest) ph).toGive k =
      (if j = k then (if ph = .push then [m] else []) else []) ++
        (Node.publishNext m (j :: rest) ph).toGive k := by
  cases ph with
  | push =>
      show List.replicate ((j :: rest).count k) m = _ ++ List.replicate (rest.count k) m
      by_cases hjk : j = k
      · rw [hjk, List.count_cons_self, if_pos rfl, List.replicate_succ]
        rfl
      · rw [List.count_cons_of_ne hjk, if_neg hjk]
        rfl
  | hook | signal =>
      show List.replicate (rest.count k) m = _ ++ List.replicate (rest.count k) m
      by_cases hjk : j = k <;> simp [hjk]

/-! ## One edge -/

namespace Network

variable [DecidableEq N] {s s' : Network N M} {subscribers : N → List N} {p k : N}

/-- What `k` has received and what is still to be handed over to it is what `p` has given to
`push_meta`, as often as `k` is subscribed. -/
def HandsOver (subscribers : N → List N) (p k : N) (s : Network N M) : Prop :=
  inPushes (s.nodes k).trace ++ (s.nodes p).dispatch.toGive k =
    (pushMetas (s.nodes p).trace).flatMap (List.replicate ((subscribers p).count k))

theorem HandsOver.same (hs : s.HandsOver subscribers p k)
    (hk : inPushes (s'.nodes k).trace = inPushes (s.nodes k).trace)
    (hp : (s.nodes p).SameGiven (s'.nodes p)) : s'.HandsOver subscribers p k := by
  unfold HandsOver at *
  rw [hk, hp.dispatch, hp.pushMetas]
  exact hs

/-- One node takes a step; the others are the same. -/
theorem sameGiven_setNode {n : N} {node : VpNode M N} (h : (s.nodes n).SameGiven node) (j : N) :
    (s.nodes j).SameGiven ((s.setNode n node).nodes j) :=
  forall_setNode (P := fun j node => (s.nodes j).SameGiven node) (fun _ => ⟨rfl, rfl, rfl⟩) h j

theorem inPushes_setNode {n : N} {node : VpNode M N}
    (h : inPushes node.trace = inPushes (s.nodes n).trace) (j : N) :
    inPushes ((s.setNode n node).nodes j).trace = inPushes (s.nodes j).trace :=
  forall_setNode (P := fun j node => inPushes node.trace = inPushes (s.nodes j).trace)
    (fun _ => rfl) h j

variable [Meta M] {cfg : N → NodeConfig M} {C : Network N M → NetAct N M → Prop}

theorem reachable_wired (h : (network cfg subscribers).ReachableBy C s) :
    ∀ n, (s.nodes n).Wired (subscribers n) := by
  apply h.invariant (I := fun s => ∀ n, (s.nodes n).Wired (subscribers n))
  · rintro _ rfl n
    exact ⟨rfl, fun m rest ph hp => nomatch hp⟩
  · intro s s' a _ hs _ hstep
    cases step_cases hstep with
    | handle n node hn =>
        exact forall_setNode hs ((VpNode.handleStep_sameGiven hn).wired (hs n))
    | flow n j m rest ph s₁ hd hs₁ =>
        have hs₁' : ∀ n, (s₁.nodes n).Wired (subscribers n) := by
          rw [hs₁]
          refine forall_setNode hs (Node.dispatchStep_wired ?_ (hs n))
          rw [Node.dispatchStep, hd]
        exact forall_setNode hs₁' ((Node.metaFlowBody_sameGiven m ph).wired (hs₁' j))
    | dispatch n node hn _ => exact forall_setNode hs (Node.dispatchStep_wired hn (hs n))
    | node n a node ha hn =>
        exact forall_setNode hs (Node.step_wired hn (hs n))

/-- A node into which nothing was injected has no calls of `meta_flow` from outside in progress. -/
theorem reachable_flowsOnly (h : (network cfg subscribers).ReachableBy C s)
    (hk : ∀ m, (k, m) ∉ s.injections) : (s.nodes k).FlowsOnly fun _ => False := by
  revert hk
  apply h.invariant (I := fun s => (∀ m, (k, m) ∉ s.injections) → (s.nodes k).FlowsOnly fun _ => False)
  · rintro _ rfl _ m ph hc
    cases hc
  · intro s s' a _ hs _ hstep
    -- a step that leaves the calls of every node as they are
    have hsame (s₁ : Network N M) (n : N) (node : VpNode M N)
        (hs₁ : (s₁.nodes k).FlowsOnly fun _ => False) (hn : node.calls = (s₁.nodes n).calls) :
        ((s₁.setNode n node).nodes k).FlowsOnly fun _ => False := by
      by_cases hkn : k = n
      · subst hkn
        rw [setNode_self, VpNode.FlowsOnly, hn]
        exact hs₁
      · rwa [setNode_of_ne s₁ node hkn]
    cases step_cases hstep with
    | handle n node hn =>
        intro hk
        exact hsame s n node (hs hk) (VpNode.handleStep_calls hn)
    | flow n j m rest ph s₁ hd hs₁ =>
        intro hk
        have hinj : s₁.injections = s.injections := by
          rw [hs₁]
          rfl
        have hk : ∀ m, (k, m) ∉ s.injections := fun m => hinj ▸ hk m
        refine hsame s₁ j _ ?_ (by cases ph <;> rfl)
        rw [hs₁]
        exact hsame s n _ (hs hk) rfl
    | dispatch n node hn _ =>
        intro hk
        refine hsame s n node (hs hk) ?_
        cases Node.dispatchStep_cases hn <;> rfl
    | node n a node ha hn =>
        intro hk
        have hold := hs fun m hm => hk m (List.mem_append_left _ hm)
        show ((s.setNode n node).nodes k).FlowsOnly fun _ => False
        by_cases hkn : k = n
        · subst hkn
          rw [setNode_self]
          refine VpNode.nodeStep_flowsOnly hn (fun m hinj => ?_) hold
          exact hk m (List.mem_append_right _ (by simp [hinj]))
        · rwa [setNode_of_ne s node hkn]

/-- A node with one pre node, into which nothing was injected, receives what the pre node gives to
`push_meta`, each meta as often as the node is subscribed there. -/
theorem reachable_handsOver (h : (network cfg subscribers).ReachableBy C s)
    (hpre : ∀ q, k ∈ subscribers q → q = p) (hk : ∀ m, (k, m) ∉ s.injections) :
    s.HandsOver subscribers p k := by
  revert hk
  apply h.invariant (I := fun s => (∀ m, (k, m) ∉ s.injections) → s.HandsOver subscribers p k)
  · rintro _ rfl _
    rfl
  · intro s s' a hr hs _ hstep
    have hwired := reachable_wired hr
    cases step_cases hstep with
    | handle n node hn =>
        intro hk
        exact (hs hk).same (inPushes_setNode (VpNode.handleStep_inPushes hn) k)
          (sameGiven_setNode (VpNode.handleStep_sameGiven hn) p)
    | flow n j m rest ph s₁ hd hs₁ =>
        intro hk
        have hk : ∀ m, (k, m) ∉ s.injections := fun m => by
          have hk := hk m
          rw [hs₁] at hk
          exact hk
        have hs := hs hk
        have hmem : j ∈ subscribers n :=
          ((hwired n).publishing m _ ph hd).subset List.mem_cons_self
        -- `meta_flow` of `j` touches no dispatch thread, and of the traces that of `j` only
        have hbody (i : N) :
            (s₁.nodes i).SameGiven ((s₁.setNode j ((s₁.nodes j).metaFlowBody m ph)).nodes i) :=
          sameGiven_setNode (Node.metaFlowBody_sameGiven m ph) i
        have hin₁ (i : N) : inPushes (s₁.nodes i).trace = inPushes (s.nodes i).trace := by
          rw [hs₁]
          refine inPushes_setNode ?_ i
          rfl
        have hgiven : pushMetas (s₁.nodes p).trace = pushMetas (s.nodes p).trace := by
          rw [hs₁]
          refine forall_setNode
            (P := fun i node => pushMetas node.trace = pushMetas (s.nodes i).trace)
            (fun _ => rfl) ?_ p
          rfl
        unfold HandsOver at hs ⊢
        rw [(hbody p).dispatch, (hbody p).pushMetas, hgiven, ← hs]
        by_cases hnp : n = p
        · subst hnp
          have hdispatch : (s₁.nodes n).dispatch = Node.publishNext m (j :: rest) ph := by
            rw [hs₁, setNode_self]
          rw [hd, hdispatch, toGive_publishNext m j k rest ph, ← List.append_assoc]
          congr 1
          by_cases hjk : j = k
          · subst hjk
            rw [setNode_self, VpNode.inPushes_metaFlowBody, hin₁, if_pos rfl]
          · rw [setNode_of_ne _ _ (Ne.symm hjk), hin₁, if_neg hjk, List.append_nil]
        · have hjk : j ≠ k := by
            rintro rfl
            exact hnp (hpre n hmem)
          rw [setNode_of_ne _ _ (Ne.symm hjk), hin₁, hs₁, setNode_of_ne _ _ (Ne.symm hnp)]
    | dispatch n node hn hne =>
        intro hk
        have hs := hs hk
        obtain ⟨hold, hin, hgive⟩ := Node.dispatchStep_toGive hn (hwired n) hne k
        unfold HandsOver at hs ⊢
        rw [inPushes_setNode hin k]
        by_cases hpn : p = n
        · subst hpn
          rw [setNode_self, hgive, ← hs, hold, List.append_nil]
        · rwa [setNode_of_ne s node hpn]
    | node n a node ha hn =>
        intro hk
        have hold : ∀ m, (k, m) ∉ s.injections :=
          fun m hm => hk m (List.mem_append_left _ hm)
        refine (hs hold).same ?_ (sameGiven_setNode (Node.step_sameGiven hn ha) p)
        by_cases hkn : k = n
        · subst hkn
          show inPushes ((s.setNode k node).nodes k).trace = _
          rw [setNode_self]
          obtain ⟨ms, hms, hin⟩ := VpNode.nodeStep_inPushes hn ha (reachable_flowsOnly hr hold)
          rw [hin, List.eq_nil_iff_forall_not_mem.mpr hms, List.append_nil]
        · show inPushes ((s.setNode n node).nodes k).trace = _
          rw [setNode_of_ne s node hkn]

end Network

/-! ## Whole batches -/

section WholeBatches

variable {α : Type}

/-- The batches of `b` entries that `l` fills. -/
def wholeBatches (b : ℕ) (l : List α) : List α := l.take (l.length / b * b)

theorem wholeBatches_mono {b : ℕ} {l l' : List α} (h : l <+: l') :
    wholeBatches b l <+: wholeBatches b l' := by
  have hlen : l.length / b * b ≤ l'.length / b * b :=
    Nat.mul_le_mul_right b (Nat.div_le_div_right h.length_le)
  have hl : wholeBatches b l <+: l' := (List.take_prefix _ l).trans h
  refine List.prefix_of_prefix_length_le hl (List.take_prefix _ l') ?_
  unfold wholeBatches
  rw [List.length_take, List.length_take]
  have hle := h.length_le
  omega

theorem flatten_eq_wholeBatches {b : ℕ} {bs : List (List α)} {rest l : List α}
    (hl : bs.flatten ++ rest = l) (hfull : ∀ B ∈ bs, B.length = b) (hshort : rest.length < b) :
    bs.flatten = wholeBatches b l := by
  have hlen : bs.flatten.length = bs.length * b := by
    rw [List.length_flatten, List.eq_replicate_of_mem (l := bs.map List.length) (a := b)]
    · simp
    · simpa using hfull
  have hdiv : l.length / b = bs.length := by
    rw [← hl, List.length_append, hlen, Nat.mul_comm,
      Nat.mul_add_div (Nat.zero_lt_of_lt hshort), Nat.div_eq_of_lt hshort, Nat.add_zero]
  rw [wholeBatches, hdiv, ← hlen, ← hl, List.take_left]

theorem flatMap_mono {β : Type} {l l' : List α} (f : α → List β) (h : l <+: l') :
    l.flatMap f <+: l'.flatMap f := by
  obtain ⟨t, rfl⟩ := h
  rw [List.flatMap_append]
  exact List.prefix_append _ _

end WholeBatches

/-! ## What a node gives to `push_meta` -/

namespace VpNode

open Node

variable {S : Type} [Meta M] {cfg : NodeConfig M} {s : VpNode M S}

/-- What the handle thread puts on `out_queue` are frames, whatever its handlers return. -/
theorem reachable_outPushes
    (h : (vpNode cfg).ReachableBy (fun _ a => a.Carries WellTyped ∧ a.NoPendingMeta) s) :
    ∃ q, outPushes s.trace ++ s.handle.pc.uncopied = q ++ s.handle.pc.deadFlag ∧
      ∀ e ∈ q, ∃ m, FrameMeta m ∧ e = some m := by
  obtain ⟨input, r, hsim⟩ := reachable_simulates
    (h.mono fun _ _ hc => ⟨hc.1.imp fun _ hm => hm.tagged, hc.2⟩)
  have hin : inPushes s.trace = takenMetas s.trace ++ s.inQueue.reduceOption :=
    reachable_inFifo h.reachable
  have htyped : ∀ m ∈ input, WellTyped m := by
    intro m hm
    apply reachable_inPushes (h.mono fun _ _ hc => hc.1) m
    rw [hin, hsim.taken]
    simp [hm]
  have hrun := hsim.run
  rw [handleAll_wellTyped htyped] at hrun
  refine ⟨r.outQueue, hsim.outQueue, fun e he => ?_⟩
  cases hrun
  exact (inv_foldl cfg input).frames e (List.mem_append_left _ he)

/-- A node passes on frames only. -/
theorem reachable_pushMetas
    (h : (vpNode cfg).ReachableBy (fun _ a => a.Carries WellTyped ∧ a.NoPendingMeta) s) :
    ∀ m ∈ pushMetas s.trace, FrameMeta m := by
  obtain ⟨q, hq, hframes⟩ := reachable_outPushes h
  have hout : outPushes s.trace = s.pushedMetas.map some ++ s.waiting :=
    reachable_outFifo h.reachable
  intro m hm
  have hmem : some m ∈ q ++ s.handle.pc.deadFlag := by
    rw [← hq, hout]
    have hm : m ∈ s.pushedMetas := hm
    simp [hm]
  have hdead : some m ∉ s.handle.pc.deadFlag := by
    cases s.handle.pc <;> simp [HandlePc.deadFlag]
  obtain ⟨m', hm', heq⟩ := hframes _ ((List.mem_append.mp hmem).resolve_right hdead)
  cases heq
  exact hm'

/-- Nothing is in the queues or in the hands of the two threads. -/
structure Quiet (s : VpNode M S) : Prop where
  inQueue : s.inQueue = []
  outQueue : s.outQueue = []
  handle : s.handle.pc = .test ∨ s.handle.pc = .wait

/-- A base node gives whole batches of what it has received to `push_meta`, and all that it can when
nothing is left to do. -/
theorem reachable_wholeBatches {b : ℕ} {hb : 0 < b}
    (h : (vpNode (.base b hb)).ReachableBy (fun _ a => a.Carries WellTyped ∧ a.NoPendingMeta) s) :
    pushMetas s.trace <+: wholeBatches b (frameMetas (inPushes s.trace)) ∧
      (s.Quiet → pushMetas s.trace = wholeBatches b (frameMetas (inPushes s.trace))) := by
  obtain ⟨fs, bs, rest, r, hsplit, -, hpushed, -, hin⟩ := exists_splits h
  have hframes : frameMetas s.pushedMetas = pushMetas s.trace :=
    frameMetas_eq_self (reachable_pushMetas h)
  rw [hframes] at hpushed
  have hwhole := flatten_eq_wholeBatches hsplit.frames hsplit.full hsplit.short
  constructor
  · have hpre : fs <+: frameMetas (inPushes s.trace) := by
      rw [hin, List.append_assoc]
      exact List.prefix_append _ _
    refine List.IsPrefix.trans ?_ (wholeBatches_mono hpre)
    rw [← hwhole, ← hpushed, List.append_assoc]
    exact List.prefix_append _ _
  · intro hq
    have hwaiting : s.waiting = [] := by
      rw [waiting, hq.outQueue]
      split <;> rfl
    have huncopied : s.handle.pc.uncopied = [] := by
      rcases hq.handle with hp | hp <;> rw [hp] <;> rfl
    have hhand : s.handle.pc.inHand = none := by
      rcases hq.handle with hp | hp <;> rw [hp] <;> rfl
    rw [hwaiting, huncopied] at hpushed
    rw [hq.inQueue, hhand] at hin
    have hpushed : pushMetas s.trace = bs.flatten := by
      rw [← hpushed]
      simp [queuedFrames, frameMetas]
    have hin : frameMetas (inPushes s.trace) = fs := by
      rw [hin]
      simp [queuedFrames, frameMetas]
    rw [hpushed, hin, hwhole]

end VpNode

/-! ## Along the edges -/

/-- What arrives at the nodes below `r` when `r` has received the frames `xs`: whole batches, each
frame as often as the node is subscribed to its only pre node. The entries, which may be called from
outside, are not among these nodes. -/
inductive Arrives [DecidableEq N] (subscribers : N → List N) (b : N → ℕ) (entry : N → Prop) (r : N)
    (xs : List M) : N → List M → Prop
  | root : Arrives subscribers b entry r xs r xs
  | along {p k : N} {ys : List M} : Arrives subscribers b entry r xs p ys → ¬ entry k →
      (∀ q, k ∈ subscribers q → q = p) →
      Arrives subscribers b entry r xs k
        ((wholeBatches (b p) ys).flatMap (List.replicate ((subscribers p).count k)))

/-- The callers from outside pass well-typed metas to `meta_flow`, and do not call `pending_meta`. -/
def VpAct.Passes [Meta M] (a : VpAct M) : Prop := a.Carries WellTyped ∧ a.NoPendingMeta

instance [Meta M] (a : VpAct M) : Decidable a.Passes :=
  inferInstanceAs (Decidable (a.Carries WellTyped ∧ a.NoPendingMeta))

namespace Network

variable [Fintype N] [DecidableEq N] [Meta M] {cfg : N → NodeConfig M} {subscribers : N → List N}
  {s : Network N M} {p k : N}

theorem runsAlone_passes
    (h : (network cfg subscribers).ReachableBy (fun _ a => a.vpAct.Passes) s) (n : N) :
    RunsAlone VpAct.Passes (cfg n) (s.nodes n) (s.flowing n) := by
  refine node_reachable (fun _ => ⟨trivial, trivial⟩) ?_ h n
  intro n node hr m hm
  refine ⟨.inl (VpNode.reachable_pushMetas hr m ?_), trivial⟩
  have hlast := (VpNode.reachable_permitInv hr.reachable).given m hm
  exact List.mem_of_getLast? hlast

/-- The node `k` receives from its only pre node `p` nothing but frames, in the order in which `p`
gives them to `push_meta`. -/
theorem reachable_received
    (h : (network cfg subscribers).ReachableBy (fun _ a => a.vpAct.Passes) s)
    (hpre : ∀ q, k ∈ subscribers q → q = p) (hk : ∀ m, (k, m) ∉ s.injections) :
    frameMetas (inPushes (s.nodes k).trace) = inPushes (s.nodes k).trace ∧
      inPushes (s.nodes k).trace ++ (s.nodes p).dispatch.toGive k =
        (pushMetas (s.nodes p).trace).flatMap (List.replicate ((subscribers p).count k)) := by
  have hgiven := reachable_handsOver h hpre hk
  refine ⟨frameMetas_eq_self fun m hm => ?_, hgiven⟩
  obtain ⟨calls, -, hp⟩ := runsAlone_passes h p
  have hmem : m ∈ (pushMetas (s.nodes p).trace).flatMap
      (List.replicate ((subscribers p).count k)) := by
    rw [← hgiven]
    exact List.mem_append_left _ hm
  obtain ⟨m', hm', hrep⟩ := List.mem_flatMap.mp hmem
  rw [List.eq_of_mem_replicate hrep]
  exact VpNode.reachable_pushMetas hp m' hm'

/-- The induction along the edges: a node has received a beginning of what arrives, if `r` has received
a beginning of `xs`. -/
theorem received_of_arrives {b : N → ℕ} {hb : ∀ n, 0 < b n} {entry : N → Prop} {r : N}
    {xs zs : List M}
    (h : (network (fun n => .base (b n) (hb n)) subscribers).ReachableBy
      (fun _ a => a.vpAct.Passes) s)
    (hentry : ∀ p ∈ s.injections, entry p.1)
    (hroot : frameMetas (inPushes (s.nodes r).trace) <+: xs)
    (hk : Arrives subscribers b entry r xs k zs) :
    frameMetas (inPushes (s.nodes k).trace) <+: zs ∧
      (k ≠ r → ∀ m ∈ inPushes (s.nodes k).trace, FrameMeta m) ∧
        (s.Quiescent → frameMetas (inPushes (s.nodes r).trace) = xs →
          frameMetas (inPushes (s.nodes k).trace) = zs) := by
  induction hk with
  | root => exact ⟨hroot, fun hr => absurd rfl hr, fun _ hxs => hxs⟩
  | @along p k ys hp hnot hpre ih =>
      obtain ⟨hbefore, -, hall⟩ := ih
      have hinj : ∀ m, (k, m) ∉ s.injections := fun m hm => hnot (hentry _ hm)
      obtain ⟨hframes, hgiven⟩ := reachable_received h hpre hinj
      obtain ⟨calls, -, hrun⟩ := runsAlone_passes h p
      obtain ⟨hbatches, hquiet⟩ := VpNode.reachable_wholeBatches hrun
      refine ⟨?_, fun _ m hm => ?_, fun hq hxs => ?_⟩
      · rw [hframes]
        calc inPushes (s.nodes k).trace
            <+: (pushMetas (s.nodes p).trace).flatMap
                (List.replicate ((subscribers p).count k)) := ⟨_, hgiven⟩
          _ <+: (wholeBatches (b p) ys).flatMap (List.replicate ((subscribers p).count k)) :=
              flatMap_mono _ (hbatches.trans (wholeBatches_mono hbefore))
      · rw [← hframes] at hm
        exact of_decide_eq_true (List.mem_filter.mp hm).2
      · have hgive : (s.nodes p).dispatch.toGive k = [] := by
          rcases hq.dispatch p with hd | hd <;> rw [hd] <;> rfl
        have hpush := hquiet ⟨hq.inQueue p, hq.outQueue p, hq.handle p⟩
        rw [hgive, List.append_nil] at hgiven
        rw [hframes, hgiven, ← hall hq hxs]
        exact congrArg _ hpush

end Network

/-- In a network of base nodes of any batch sizes, into which metas are injected at the entries only: a
node that is reached from `r` through nodes with one pre node each has received, at any time, a
beginning of what `Arrives` says, and all of it when nothing is in flight. No control meta gets
there. -/
theorem frames_arrive_in_order [Fintype N] [DecidableEq N] [Meta M] {b : N → ℕ}
    {hb : ∀ n, 0 < b n} {subscribers : N → List N} {s : Network N M} {entry : N → Prop} {r k : N}
    {zs : List M}
    (h : (network (fun n => .base (b n) (hb n)) subscribers).ReachableBy
      (fun _ a => a.vpAct.Passes) s)
    (hentry : ∀ p ∈ s.injections, entry p.1)
    (hk : Arrives subscribers b entry r (frameMetas (inPushes (s.nodes r).trace)) k zs) :
    frameMetas (inPushes (s.nodes k).trace) <+: zs ∧
      (k ≠ r → ∀ m ∈ inPushes (s.nodes k).trace, FrameMeta m) ∧
        (s.Quiescent → frameMetas (inPushes (s.nodes k).trace) = zs) := by
  obtain ⟨hbefore, hframes, hall⟩ := Network.received_of_arrives h hentry (List.prefix_refl _) hk
  exact ⟨hbefore, hframes, fun hq => hall hq rfl⟩

/-- Two frames make a batch of the first node, and five one of the second. -/
def doubleEdgeBatch : Fin 2 → ℕ
  | 0 => 2
  | 1 => 5

theorem doubleEdgeBatch_pos : ∀ n, 0 < doubleEdgeBatch n := by
  decide

/-- Three frames, with a control meta among them, are injected into the first of two nodes, and
both work until nothing is in flight. -/
def threeFramesNetRun (first second : N) : List (NetAct N MetaPtr) :=
  let flow (m : MetaPtr) : List (NetAct N MetaPtr) :=
    .node first (.metaFlow (some m)) :: List.replicate 3 (.node first (.call 0))
  flow (.frame 0) ++ flow (.control 1) ++ flow (.frame 2) ++ flow (.frame 3) ++
    List.replicate 28 (.handle first) ++ List.replicate 27 (.node first .dispatch) ++
    List.replicate 21 (.handle second) ++ [.node second .dispatch]

theorem frames_arrive_in_order_doubleEdge :
    ∃ s : Network (Fin 2) MetaPtr, s.Quiescent ∧
      frameMetas (inPushes (s.nodes 0).trace) = [.frame 0, .frame 2, .frame 3] ∧
      frameMetas (inPushes (s.nodes 1).trace) = [.frame 0, .frame 0, .frame 2, .frame 2] := by
  have hinit : (network (fun n => .base (doubleEdgeBatch n) (doubleEdgeBatch_pos n))
      doubleEdge).ReachableBy (fun _ a => a.vpAct.Passes)
      (⟨fun n => VpNode.start (doubleEdge n), []⟩ : Network (Fin 2) MetaPtr) := .init rfl
  obtain ⟨s, hr, hp⟩ := hinit.exists_of_run
    (p := fun s => (∀ n, (s.nodes n).inQueue = [] ∧ (s.nodes n).outQueue = [] ∧
      (s.nodes n).handle.pc = .wait ∧ (s.nodes n).dispatch = .wait ∧ (s.nodes n).calls = []) ∧
      frameMetas (inPushes (s.nodes 0).trace) = [.frame 0, .frame 2, .frame 3] ∧
        ∀ p ∈ s.injections, p.1 = 0)
    (threeFramesNetRun 0 1) (by decide +kernel) (by decide)
  obtain ⟨hquiet, hthree, hentry⟩ := hp
  have hq : s.Quiescent := ⟨fun n => (hquiet n).1, fun n => (hquiet n).2.1,
    fun n => .inr (hquiet n).2.2.1, fun n => .inr (hquiet n).2.2.2.1, fun n => (hquiet n).2.2.2.2⟩
  have hpre : ∀ q, (1 : Fin 2) ∈ doubleEdge q → q = 0 := by
    decide
  have hk : Arrives doubleEdge doubleEdgeBatch (· = 0) 0 (frameMetas (inPushes (s.nodes 0).trace)) 1 _ :=
    .along .root (by decide) hpre
  have hall := (frames_arrive_in_order hr hentry hk).2.2 hq
  rw [hthree] at hall
  exact ⟨s, hq, hthree, hall⟩

end VideoStream
