import VideoStream.Network.Pipeline

/-!
# From the data source to the nodes

What the threads of a source hand over to a node that only the source feeds is what the source has
published (`reachable_handsOver`); from there on the frames go along the edges as in `FrameOrder`.

* `source_broadcasts` — the nodes that only the source feeds receive all that it publishes, frames and
  control metas, in the order in which the lock was taken.
* `Pipeline.received_of_arrives` — the frames that a node further below has received are, at any time, a
  beginning of what `Arrives` makes of the frames that the data source returned, and all of it at rest.
-/

namespace VideoStream

open Library Meta

variable {N M : Type}

namespace Pipeline

variable [DecidableEq N] [Meta M] {cfg : N → NodeConfig M} {below : List N}
  {subscribers : N → List N} {s s' : Pipeline N M}

/-! ## The first nodes -/

/-- What the threads of the source have handed over to `k`, and what is still to be. -/
def HandsOver (below : List N) (k : N) (s : Pipeline N M) : Prop :=
  inPushes (s.net.nodes k).trace ++ (s.src.node.dispatch.toGive k ++ s.speaker.pc.toGive k) =
    (published s.src.node.trace).flatMap (List.replicate (below.count k))

omit [Meta M] in
theorem toGive_of_not_locks {S : Type} [DecidableEq S] {pc : DispatchPc M S} (h : pc.locks = false)
    (k : S) : pc.toGive k = [] := by
  cases pc <;> first | rfl | cases h

omit [Meta M] in
/-- The thread that is inside `push_meta` takes a step of `meta_flow`. -/
theorem inPushes_flow (net : Network N M) (j k : N) (m : M) (rest : List N) (ph : FlowPc) :
    inPushes ((net.setNode j ((net.nodes j).metaFlowBody m ph)).nodes k).trace ++
        (Node.publishNext m (j :: rest) ph).toGive k =
      inPushes (net.nodes k).trace ++ (DispatchPc.publish m (j :: rest) ph).toGive k := by
  rw [toGive_publishNext m j k rest ph, ← List.append_assoc]
  congr 1
  by_cases hjk : j = k
  · subst hjk
    rw [Network.setNode_self, VpNode.inPushes_metaFlowBody, if_pos rfl]
  · rw [Network.setNode_of_ne _ _ (Ne.symm hjk), if_neg hjk, List.append_nil]

theorem reachable_handsOver
    (h : (pipeline cfg below subscribers).ReachableBy (fun _ a => a.Env) s) {k : N}
    (hk : ∀ n, k ∉ subscribers n) : s.HandsOver below k := by
  apply h.invariant (I := HandsOver below k)
  · rintro _ ⟨isOpened, rfl⟩
    rfl
  · intro s s' a hr hs ha hstep
    obtain ⟨hwired, hexclusive, hspeaking⟩ := reachable_publishes hr
    unfold HandsOver at hs ⊢
    cases step_cases hstep with
    | src a src hd hspeak hsrc =>
        show _ ++ (src.node.dispatch.toGive k ++ _) = (published src.node.trace).flatMap _
        rw [(SrcNode.step_sameGiven hsrc hd).dispatch, SrcNode.step_published hsrc hd hspeak]
        exact hs
    | dispatch node hn hne hpush =>
        obtain ⟨hold, -, hgive⟩ := Node.dispatchStep_toGive hn hwired hne k
        obtain ⟨ms, hms, hpublished⟩ := Node.dispatchStep_published hn
        rw [hms, List.flatMap_append] at hgive
        have hnew := List.append_cancel_left hgive
        -- only one of the two has something to hand over
        have hcomm : node.dispatch.toGive k ++ s.speaker.pc.toGive k =
            s.speaker.pc.toGive k ++ node.dispatch.toGive k := by
          cases hl : node.dispatch.locks with
          | false => rw [toGive_of_not_locks hl, List.append_nil, List.nil_append]
          | true =>
              have hidle : s.speaker = .idle := by
                rcases locks_of_dispatchStep hn hl with ⟨m, hp⟩ | hl
                · exact hpush m hp
                · exact hexclusive hl
              rw [hidle]
              exact List.append_nil _
        rw [hold, List.nil_append] at hs
        show _ ++ (node.dispatch.toGive k ++ _) = (published node.trace).flatMap _
        rw [hcomm, ← List.append_assoc, hs, hpublished, List.flatMap_append, hnew]
    | flow j m rest ph s₁ hp hs₁ =>
        have hidle : s.speaker = .idle := hexclusive (by rw [hp]; rfl)
        rw [hp, hidle] at hs
        rw [hs₁]
        show inPushes ((s.net.setNode j ((s.net.nodes j).metaFlowBody m ph)).nodes k).trace ++
          ((Node.publishNext m (j :: rest) ph).toGive k ++ s.speaker.pc.toGive k) =
            (published s.src.node.trace).flatMap _
        rw [hidle, ← hs, ← List.append_assoc, inPushes_flow, List.append_assoc]
    | speak m hdispatch hidle =>
        rw [toGive_of_not_locks hdispatch, hidle] at hs
        show _ ++ (s.src.node.dispatch.toGive k ++
          List.replicate (s.src.node.subscribers.count k) m) =
            (published (s.src.node.trace ++ [.speak m])).flatMap _
        rw [toGive_of_not_locks hdispatch, published_concat, List.flatMap_append, ← hs, hwired.wired]
        simp [Event.published, SpeakPc.pc, DispatchPc.toGive]
    | speakEnd m ph hp =>
        rw [hp] at hs
        rw [← hs]
        cases ph <;> rfl
    | speakFlow j m rest ph s₁ hp hs₁ =>
        have hnot : s.src.node.dispatch.locks = false := by
          refine Bool.eq_false_iff.mpr fun hl => ?_
          rw [hexclusive hl] at hp
          cases hp
        rw [hp, toGive_of_not_locks hnot] at hs
        rw [hs₁]
        show inPushes ((s.net.setNode j ((s.net.nodes j).metaFlowBody m ph)).nodes k).trace ++
          (s.src.node.dispatch.toGive k ++ (SpeakPc.publishNext m (j :: rest) ph).pc.toGive k) = _
        rw [toGive_of_not_locks hnot, SpeakPc.pc_publishNext, List.nil_append, inPushes_flow]
        exact hs
    | net a net hn =>
        rw [← hs]
        congr 1
        exact Network.step_inPushes hn ha (reachable_below hr).wired hk

/-- The nodes that only the source feeds receive what it publishes, each meta as often as the node is
subscribed: at any time a beginning of it, and all of it when neither the dispatch thread nor `speak`
holds `subscribers_lock`. -/
theorem reachable_broadcasts
    (h : (pipeline cfg below subscribers).ReachableBy (fun _ a => a.Env) s) {k : N}
    (hk : ∀ n, k ∉ subscribers n) :
    inPushes (s.net.nodes k).trace <+:
        (published s.src.node.trace).flatMap (List.replicate (below.count k)) ∧
      (s.src.node.dispatch.locks = false → s.speaker = .idle →
        inPushes (s.net.nodes k).trace =
          (published s.src.node.trace).flatMap (List.replicate (below.count k))) := by
  have hgiven := reachable_handsOver h hk
  refine ⟨⟨_, hgiven⟩, fun hlock hidle => ?_⟩
  rw [← hgiven, toGive_of_not_locks hlock, hidle]
  exact (List.append_nil _).symm

/-- Nothing is on its way: in the network below, or between the data source and it. -/
structure AtRest (s : Pipeline N M) : Prop where
  net : s.net.Quiescent
  handle : s.src.node.handle.unpushed = none
  outQueue : s.src.node.outQueue.reduceOption = []
  dispatch : s.src.node.dispatch = .test ∨ s.src.node.dispatch = .wait
  speaker : s.speaker = .idle

omit [DecidableEq N] [Meta M] in
theorem AtRest.not_locks (hs : s.AtRest) : s.src.node.dispatch.locks = false := by
  rcases hs.dispatch with hd | hd <;> rw [hd] <;> rfl

/-- At rest all that was produced has been given to `push_meta`. -/
theorem AtRest.pushMetas (hs : s.AtRest)
    (h : (pipeline cfg below subscribers).ReachableBy (fun _ a => a.Env) s) :
    pushMetas s.src.node.trace = producedMetas s.src.node.trace := by
  have hsrc := reachable_src h
  have hfifo : outPushes s.src.node.trace =
      (VideoStream.pushMetas s.src.node.trace).map some ++ s.src.node.waiting :=
    SrcNode.reachable_outFifo hsrc.reachable
  have hwaiting : s.src.node.waiting = s.src.node.outQueue := by
    rw [Node.waiting]
    rcases hs.dispatch with hd | hd <;> rw [hd] <;> rfl
  have hpushed := (SrcNode.reachable_loopOrder (hsrc.mono fun _ _ hc => hc.1)).pushed
  rw [hfifo, hwaiting, List.reduceOption_append, reduceOption_map_some, hs.outQueue, hs.handle,
    Option.toList_none, List.append_nil, List.append_nil] at hpushed
  exact hpushed

end Pipeline

theorem frameMetas_flatMap_replicate [Meta M] (c : ℕ) (ms : List M) :
    frameMetas (ms.flatMap (List.replicate c)) = (frameMetas ms).flatMap (List.replicate c) := by
  induction ms with
  | nil => rfl
  | cons m ms ih =>
      rw [List.flatMap_cons, frameMetas_append, ih]
      by_cases hm : FrameMeta m <;> simp [frameMetas, hm]

section

variable [DecidableEq N] [Meta M] {below : List N} {subscribers : N → List N} {s : Pipeline N M}

/-- The nodes that only the source feeds receive what it publishes, each meta as often as the node is
subscribed, in the order in which `subscribers_lock` was taken: at any time a beginning of it, and
all of it when neither the dispatch thread nor `speak` holds the lock. The frames in it are a
beginning of those that the data source returned. -/
theorem source_broadcasts {cfg : N → NodeConfig M} {k : N}
    (h : (pipeline cfg below subscribers).ReachableBy (fun _ a => a.Env) s)
    (hk : ∀ n, k ∉ subscribers n) :
    inPushes (s.net.nodes k).trace <+:
        (published s.src.node.trace).flatMap (List.replicate (below.count k)) ∧
      (s.src.node.dispatch.locks = false → s.speaker = .idle →
        inPushes (s.net.nodes k).trace =
          (published s.src.node.trace).flatMap (List.replicate (below.count k))) ∧
      frameMetas (published s.src.node.trace) <+: producedMetas s.src.node.trace := by
  obtain ⟨hbefore, hwhole⟩ := Pipeline.reachable_broadcasts h hk
  refine ⟨hbefore, hwhole, ?_⟩
  rw [Pipeline.frameMetas_published h]
  exact (Pipeline.reachable_pushMetas h).1

/-- From the data source to the nodes below, through base nodes of any batch sizes: a node that is
reached from a first node `r` through nodes with one pre node each has received, at any time, a
beginning of what `Arrives` makes of the frames that `get_frame_meta` returned, and all of it at
rest. No control meta gets further than `r`. -/
theorem Pipeline.received_of_arrives [Fintype N] {b : N → ℕ} {hb : ∀ n, 0 < b n} {r k : N} {zs : List M}
    (h : (pipeline (fun n => .base (b n) (hb n)) below subscribers).ReachableBy
      (fun _ a => a.Env) s)
    (hr : ∀ n, r ∉ subscribers n)
    (hk : Arrives subscribers b (· ∈ below) r
      ((producedMetas s.src.node.trace).flatMap (List.replicate (below.count r))) k zs) :
    frameMetas (inPushes (s.net.nodes k).trace) <+: zs ∧
      (k ≠ r → ∀ m ∈ inPushes (s.net.nodes k).trace, FrameMeta m) ∧
        (s.AtRest → frameMetas (inPushes (s.net.nodes k).trace) = zs) := by
  obtain ⟨calls, injections, hcalls, hentry, hnet⟩ := Pipeline.reachable_below h
  obtain ⟨⟨gap, hbefore⟩, hwhole⟩ := Pipeline.reachable_broadcasts h hr
  have hframes : frameMetas ((published s.src.node.trace).flatMap
      (List.replicate (below.count r))) =
        (pushMetas s.src.node.trace).flatMap (List.replicate (below.count r)) := by
    rw [frameMetas_flatMap_replicate, Pipeline.frameMetas_published h]
  have hroot : frameMetas (inPushes (s.net.nodes r).trace) <+:
      (producedMetas s.src.node.trace).flatMap (List.replicate (below.count r)) := by
    refine List.IsPrefix.trans ?_ (flatMap_mono _ (Pipeline.reachable_pushMetas h).1)
    rw [← hframes, ← hbefore, frameMetas_append]
    exact List.prefix_append _ _
  obtain ⟨hpre, hno, hall⟩ := Network.received_of_arrives hnet hentry hroot hk
  refine ⟨hpre, hno, fun hrest => hall ?_ ?_⟩
  · refine ⟨hrest.net.inQueue, hrest.net.outQueue, hrest.net.handle, hrest.net.dispatch,
      fun n => (Multiset.coe_eq_zero _).mp ?_⟩
    show (calls n : Multiset (Call M)) = 0
    rw [hcalls n, Pipeline.flowing, hrest.speaker]
    rcases hrest.dispatch with hd | hd <;> rw [hd] <;> rfl
  · show frameMetas (inPushes (s.net.nodes r).trace) = _
    rw [hwhole hrest.not_locks hrest.speaker, hframes, hrest.pushMetas h]

end

/-- The source reads a frame, puts it on `out_queue` and handles it. -/
def readFrame (m : MetaPtr) : List (PipeAct N MetaPtr) :=
  List.replicate 5 (.src .handle) ++ [.src (.read (some m))] ++ List.replicate 3 (.src .handle)

/-- Three frames are read and dispatched, `speak` is called after the first of them, and two nodes
below work until nothing is on its way. -/
def threeFramesPipeRun (first second : N) : List (PipeAct N MetaPtr) :=
  [.src .start, .src .handle] ++ readFrame (.frame 0) ++ readFrame (.frame 1) ++
    readFrame (.frame 2) ++ List.replicate 10 (.src (.node .dispatch)) ++
    [.src (.speak (.control 7))] ++ List.replicate 4 .speaker ++
    List.replicate 20 (.src (.node .dispatch)) ++ List.replicate 28 (.net (.handle first)) ++
    List.replicate 27 (.net (.node first .dispatch)) ++
    List.replicate 21 (.net (.handle second)) ++ [.net (.node second .dispatch)]

/-- What the run leaves: everything is at rest. -/
theorem exists_threeFramesPipeRun :
    ∃ s : Pipeline (Fin 2) MetaPtr,
      (pipeline (fun n => .base (doubleEdgeBatch n) (doubleEdgeBatch_pos n)) [0]
        doubleEdge).ReachableBy (fun _ a => a.Env) s ∧ s.AtRest ∧
      published s.src.node.trace = [.frame 0, .control 7, .frame 1, .frame 2] ∧
      producedMetas s.src.node.trace = [.frame 0, .frame 1, .frame 2] := by
  have hinit : (pipeline (fun n => .base (doubleEdgeBatch n) (doubleEdgeBatch_pos n)) [0]
      doubleEdge).ReachableBy (fun _ a => a.Env)
      (⟨SrcNode.start true [0], .idle, fun n => VpNode.start (doubleEdge n), []⟩ :
        Pipeline (Fin 2) MetaPtr) := .init ⟨true, rfl⟩
  obtain ⟨s, hr, hp⟩ := hinit.exists_of_run
    (p := fun s => (∀ n, (s.net.nodes n).inQueue = [] ∧ (s.net.nodes n).outQueue = [] ∧
      (s.net.nodes n).handle.pc = .wait ∧ (s.net.nodes n).dispatch = .wait ∧
        (s.net.nodes n).calls = []) ∧
      (s.src.node.handle = .test ∧ s.src.node.outQueue = [] ∧ s.src.node.dispatch = .test ∧
        s.speaker = .idle) ∧
      published s.src.node.trace = [.frame 0, .control 7, .frame 1, .frame 2] ∧
      producedMetas s.src.node.trace = [.frame 0, .frame 1, .frame 2])
    (threeFramesPipeRun 0 1) (by decide +kernel) (by decide +kernel)
  obtain ⟨hnet, ⟨hhandle, hout, hdispatch, hspeaker⟩, hpublished⟩ := hp
  refine ⟨s, hr, ⟨⟨fun n => (hnet n).1, fun n => (hnet n).2.1, fun n => .inr (hnet n).2.2.1,
    fun n => .inr (hnet n).2.2.2.1, fun n => (hnet n).2.2.2.2⟩, ?_, ?_, .inl hdispatch, hspeaker⟩,
    hpublished⟩
  · rw [hhandle]
    rfl
  · rw [hout]
    rfl

theorem source_broadcasts_threeFrames :
    ∃ s : Pipeline (Fin 2) MetaPtr,
      inPushes (s.net.nodes 0).trace = [.frame 0, .control 7, .frame 1, .frame 2] := by
  obtain ⟨s, hr, hrest, hpublished, -⟩ := exists_threeFramesPipeRun
  have hfirst : ∀ n, (0 : Fin 2) ∉ doubleEdge n := by
    decide
  have hwhole := (source_broadcasts hr hfirst).2.1 hrest.not_locks hrest.speaker
  rw [hpublished] at hwhole
  exact ⟨s, hwhole⟩

end VideoStream
