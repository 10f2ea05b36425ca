import VideoStream.Nodes.Sequential

/-!
# The order of a source's frames

`vp_src_node::handle_run` puts a frame on `out_queue` *before* it handles it, and signals the
semaphore after. What keeps the dispatch thread off the frame in between is the account of
`Permits`: a frame that is not handled yet is owed a signal, so the permit that the dispatch thread
holds stands for an entry in front of it.

The handle thread is the only producer here, and its history is one sequence: the frames that
`get_frame_meta` returned are those it has handled and the one it is at (`reachable_loopOrder`). With
`out_queue` a queue, the frames dispatched are a prefix of it.
-/

namespace VideoStream

open Library

variable {M S : Type}

/-! ## Projections of the trace -/

/-- The meta that `get_frame_meta` returned, and its `frame_index`. -/
def Event.produced? : Event M → Option (M × Int)
  | .produced m frameIndex => some (m, frameIndex)
  | _ => none

/-- The meta that `vp_src_node::handle_frame_meta` has returned for. -/
def Event.frameHandled? : Event M → Option M
  | .frameHandled m => some m
  | _ => none

/-- What `get_frame_meta` returned, with the indices it assigned. -/
def produced (t : List (Event M)) : List (M × Int) := t.filterMap Event.produced?

/-- The frames that `get_frame_meta` returned. -/
def producedMetas (t : List (Event M)) : List M := (produced t).map Prod.fst

/-- The frames that `handle_frame_meta` has returned for. -/
def handledFrames (t : List (Event M)) : List M := t.filterMap Event.frameHandled?

@[simp] theorem produced_concat (t : List (Event M)) (e : Event M) :
    produced (t ++ [e]) = produced t ++ e.produced?.toList := filterMap_concat ..

@[simp] theorem producedMetas_concat (t : List (Event M)) (e : Event M) :
    producedMetas (t ++ [e]) = producedMetas t ++ (e.produced?.map Prod.fst).toList := by
  unfold producedMetas
  rw [produced_concat, List.map_append]
  cases e.produced? <;> rfl

@[simp] theorem handledFrames_concat (t : List (Event M)) (e : Event M) :
    handledFrames (t ++ [e]) = handledFrames t ++ e.frameHandled?.toList := filterMap_concat ..

/-- The frame that the handle thread has not put on `out_queue` yet. -/
def SrcPc.unpushed : SrcPc M → Option M
  | .push m => some m
  | _ => none

/-- The frame that the handle thread has not handled yet. -/
def SrcPc.unhandled : SrcPc M → Option M
  | .push m | .handleFrame m => some m
  | _ => none

/-- The step does not begin a call of `pending_meta`. -/
def SrcAct.NoPendingMeta : SrcAct M → Prop
  | .node (.pendingMeta _) => False
  | _ => True

instance SrcAct.decidableNoPendingMeta : ∀ a : SrcAct M, Decidable a.NoPendingMeta
  | .node (.pendingMeta _) => isFalse id
  | .node (.metaFlow _) | .node .dispatch | .node (.call _) | .node .deinitialized
  | .node .deinit | .handle | .openSource _ | .read _ | .start | .stop | .speak _
  | .deinitialized | .destructor | .closer => isTrue trivial

namespace SrcNode

open Node

variable {s s' : SrcNode M S}

/-! ## `out_queue` -/

theorem handleStep_outFifo (h : s.handleStep = some s')
    (hhead : ∀ m, s.node.dispatch.current = some m → s.node.outQueue.head? = some (some m))
    (hs : s.node.OutFifo) : s'.node.OutFifo := by
  cases handleStep_cases h with
  | push m hp =>
      exact hs.push (some m) rfl rfl hhead (by simp [Event.outPushed]) (by simp [Event.pushed])
  | deadPush hp =>
      exact hs.push none rfl rfl hhead (by simp [Event.outPushed]) (by simp [Event.pushed])
  | _ => exact hs.same rfl (by simp [Event.outPushed]) (by simp [Event.pushed])

theorem step_outFifo {a : SrcAct M} (h : s.step a = some s')
    (hhead : ∀ m, s.node.dispatch.current = some m → s.node.outQueue.head? = some (some m))
    (hs : s.node.OutFifo) : s'.node.OutFifo := by
  cases step_cases h with
  | handle _ hh => exact handleStep_outFifo hh hhead hs
  | node a node _ hn => exact nodeStep_outFifo hn hhead hs
  | read m _ | speak m =>
      exact hs.same rfl (by simp [Event.outPushed]) (by simp [Event.pushed])
  | opened _ | notOpened _ | readNone _ | control _ _ _ _ _ _ => exact hs

theorem reachable_outFifo (h : vpSrcNode.Reachable s) : s.node.OutFifo := by
  apply h.invariant (I := fun s => s.node.OutFifo)
  · rintro _ ⟨isOpened, subscribers, rfl⟩
    rfl
  · intro s s' a hr hs _ hstep
    exact step_outFifo hstep (reachable_permitInv hr).head hs

end SrcNode

/-! ## The handle thread -/

/-- A shared thread produces no frame. -/
theorem Node.step_producedMetas {H : Type} [HandleThread H] {s s' : Node H M S} {a : NodeAct M}
    (h : s.step a = some s') : producedMetas s'.trace = producedMetas s.trace := by
  rw [producedMetas, produced, Node.step_filterMap _ h]
  · rfl
  · intro e he
    cases e <;> first | rfl | cases he

/-- With no call of `pending_meta` under way, a shared thread adds nothing to the history of the
handle thread. -/
theorem Node.step_loopTrace {H : Type} [HandleThread H] {s s' : Node H M S} {a : NodeAct M}
    (h : s.step a = some s') (hp : s.NoPendingCall) :
    outPushes s'.trace = outPushes s.trace ∧ produced s'.trace = produced s.trace ∧
      handledFrames s'.trace = handledFrames s.trace := by
  cases a with
  | dispatch =>
      cases dispatchStep_cases h <;>
        simp [Event.outPushed, Event.produced?, Event.frameHandled?]
  | metaFlow m => cases m <;> (cases h; exact ⟨rfl, rfl, rfl⟩)
  | pendingMeta m => cases h; exact ⟨rfl, rfl, rfl⟩
  | call i =>
      obtain ⟨c, hc, rfl⟩ := callStep_cases h
      rcases c with ⟨m, pc⟩ | ⟨m, pc⟩
      · cases pc <;>
          simp [callBody, metaFlowBody, Event.outPushed, Event.produced?, Event.frameHandled?]
      · exact absurd (List.mem_of_getElem? hc) (hp m pc)
  | deinitialized =>
      obtain ⟨-, rfl⟩ := deinitialized_cases h
      exact ⟨rfl, rfl, rfl⟩
  | deinit => cases deinitStep_cases h <;> exact ⟨rfl, rfl, rfl⟩

namespace SrcNode

open Node

variable {s s' : SrcNode M S}

/-- The history of the handle thread: what it was given it has handled, up to the frame it is at,
and has put on `out_queue`, up to the frame it is about to put there. -/
structure LoopOrder (s : SrcNode M S) : Prop where
  handled : handledFrames s.node.trace ++ s.node.handle.unhandled.toList =
    producedMetas s.node.trace
  pushed : (outPushes s.node.trace).reduceOption ++ s.node.handle.unpushed.toList =
    producedMetas s.node.trace
  last : ∀ m, s.node.handle = .handleFrame m →
    (outPushes s.node.trace).getLast? = some (some m)
  index : s.frameIndex + 1 = (produced s.node.trace).length
  indices : (produced s.node.trace).map Prod.snd =
    (List.range (produced s.node.trace).length).map Int.ofNat

/-- A step that adds nothing to the history, at a position with the same frame in hand. -/
theorem LoopOrder.same (hs : s.LoopOrder) (hpushes : outPushes s'.node.trace = outPushes s.node.trace)
    (hproduced : produced s'.node.trace = produced s.node.trace)
    (hhandled : handledFrames s'.node.trace = handledFrames s.node.trace)
    (hindex : s'.frameIndex = s.frameIndex)
    (hunhandled : s'.node.handle.unhandled = s.node.handle.unhandled)
    (hunpushed : s'.node.handle.unpushed = s.node.handle.unpushed)
    (hlast : ∀ m, s'.node.handle = .handleFrame m → s.node.handle = .handleFrame m) :
    s'.LoopOrder := by
  have hmetas : producedMetas s'.node.trace = producedMetas s.node.trace := by
    rw [producedMetas, hproduced]
    rfl
  refine ⟨?_, ?_, ?_, ?_, ?_⟩
  · rw [hhandled, hunhandled, hmetas]
    exact hs.handled
  · rw [hpushes, hunpushed, hmetas]
    exact hs.pushed
  · intro m hm
    rw [hpushes]
    exact hs.last m (hlast m hm)
  · rw [hindex, hproduced]
    exact hs.index
  · rw [hproduced]
    exact hs.indices

theorem handleStep_loopOrder (h : s.handleStep = some s') (hs : s.LoopOrder) : s'.LoopOrder := by
  cases handleStep_cases h with
  | isOpen hp _ | notOpen hp _ | enter hp _ | leave hp _ | stillOpen hp _ | closed hp _
  | knock hp _ | stillAlive hp _ | notAlive hp _ | signal m hp | deadSignal hp =>
      exact hs.same rfl rfl rfl rfl (by rw [hp]; rfl) (by rw [hp]; rfl) (by simp)
  | getFrame hp =>
      exact hs.same (by simp [Event.outPushed]) (by simp [Event.produced?])
        (by simp [Event.frameHandled?]) rfl (by rw [hp]; rfl) (by rw [hp]; rfl)
        (by simp)
  | push m hp =>
      -- the frame is pushed, and still to be handled
      obtain ⟨hhandled, hpushed, -, hindex, hindices⟩ := hs
      rw [hp] at hhandled hpushed
      refine ⟨?_, ?_, ?_, ?_, ?_⟩
      · simpa [Event.frameHandled?, Event.produced?, SrcPc.unhandled] using hhandled
      · simpa [Event.outPushed, Event.produced?, SrcPc.unpushed, List.reduceOption_append]
          using hpushed
      · rintro m' ⟨⟩
        simp [Event.outPushed]
      · simpa [Event.produced?] using hindex
      · simpa [Event.produced?] using hindices
  | handleFrame m hp =>
      obtain ⟨hhandled, hpushed, -, hindex, hindices⟩ := hs
      rw [hp] at hhandled hpushed
      refine ⟨?_, ?_, by simp, ?_, ?_⟩
      · simpa [Event.frameHandled?, Event.produced?, SrcPc.unhandled] using hhandled
      · simpa [Event.outPushed, Event.produced?, SrcPc.unpushed] using hpushed
      · simpa [Event.produced?] using hindex
      · simpa [Event.produced?] using hindices
  | deadPush hp =>
      obtain ⟨hhandled, hpushed, -, hindex, hindices⟩ := hs
      rw [hp] at hhandled hpushed
      refine ⟨?_, ?_, by simp, ?_, ?_⟩
      · simpa [Event.frameHandled?, Event.produced?, SrcPc.unhandled] using hhandled
      · simpa [Event.outPushed, Event.produced?, SrcPc.unpushed, List.reduceOption_append]
          using hpushed
      · simpa [Event.produced?] using hindex
      · simpa [Event.produced?] using hindices

theorem read_loopOrder {m : M} (hp : s.node.handle = .reading) (hs : s.LoopOrder) :
    LoopOrder
      { s with
        frameIndex := s.frameIndex + 1,
        node.trace := s.node.trace ++ [.produced m (s.frameIndex + 1)],
        node.handle := .push m } := by
  obtain ⟨hhandled, hpushed, -, hindex, hindices⟩ := hs
  rw [hp] at hhandled hpushed
  refine ⟨?_, ?_, by simp, ?_, ?_⟩
  · simpa [Event.frameHandled?, Event.produced?, SrcPc.unhandled] using hhandled
  · simpa [Event.outPushed, Event.produced?, SrcPc.unpushed] using hpushed
  · simp only [produced_concat, Event.produced?, Option.toList_some, List.length_append,
      List.length_singleton]
    omega
  · simp only [produced_concat, Event.produced?, Option.toList_some, List.length_append,
      List.length_singleton, List.range_succ, List.map_append, hindices, hindex]
    rfl

theorem step_loopOrder {a : SrcAct M} (h : s.step a = some s') (hp : s.node.NoPendingCall)
    (hs : s.LoopOrder) : s'.LoopOrder := by
  cases step_cases h with
  | handle _ hh => exact handleStep_loopOrder hh hs
  | opened hp | notOpened hp | readNone hp =>
      exact hs.same rfl rfl rfl rfl (by rw [hp]; rfl) (by rw [hp]; rfl) (by simp)
  | read m hp => exact read_loopOrder hp hs
  | node a node _ hn =>
      obtain ⟨hpushes, hproduced, hhandled⟩ := step_loopTrace hn hp
      have hh := step_handle hn
      exact hs.same hpushes hproduced hhandled rfl (by rw [hh]) (by rw [hh])
        (fun m hm => hh ▸ hm)
  | speak m =>
      exact hs.same (by simp [Event.outPushed]) (by simp [Event.produced?])
        (by simp [Event.frameHandled?]) rfl rfl rfl (fun _ hm => hm)
  | control _ _ _ _ _ _ => exact hs.same rfl rfl rfl rfl rfl rfl (fun _ hm => hm)

theorem step_noPendingCall {a : SrcAct M} (h : s.step a = some s') (ha : a.NoPendingMeta)
    (hs : s.node.NoPendingCall) : s'.node.NoPendingCall := by
  cases step_cases h with
  | handle _ hh => cases handleStep_cases hh <;> exact hs
  | node a node _ hn =>
      apply Node.step_noPendingCall hn _ hs
      rintro m rfl
      exact ha
  | _ => exact hs

theorem reachable_noPendingCall (h : vpSrcNode.ReachableBy (fun _ a => a.NoPendingMeta) s) :
    s.node.NoPendingCall := by
  apply h.invariant (I := fun s => s.node.NoPendingCall)
  · rintro _ ⟨isOpened, subscribers, rfl⟩ m pc hc
    cases hc
  · intro s s' a _ hs ha hstep
    exact step_noPendingCall hstep ha hs

theorem reachable_loopOrder (h : vpSrcNode.ReachableBy (fun _ a => a.NoPendingMeta) s) :
    s.LoopOrder := by
  apply h.invariant
  · rintro _ ⟨isOpened, subscribers, rfl⟩
    exact ⟨rfl, rfl, fun _ hm => (nomatch hm), rfl, rfl⟩
  · intro s s' a hr hs _ hstep
    exact step_loopOrder hstep (reachable_noPendingCall hr) hs

/-! ## The dispatch thread behind the handle thread -/

/-- The frame that is not handled yet is not the only one that waits for the dispatch thread: the
permit the thread holds stands for an entry in front of it. -/
theorem waiting_ne_nil {m : M} (hinv : s.node.PermitInv) (hp : s.node.handle = .handleFrame m) :
    s.node.waiting ≠ [] := by
  have hout := hinv.out
  simp only [OutBalance, owes, hp, SrcPc.owes] at hout
  unfold waiting
  split
  · next hgiven =>
      have hholds : s.node.dispatch.holds = 1 := by
        cases hd : s.node.dispatch <;> rw [hd] at hgiven <;> first | rfl | cases hgiven
      intro htail
      have hlen := congrArg List.length htail
      rw [List.length_tail, List.length_nil] at hlen
      omega
  · intro hnil
    rw [hnil, List.length_nil] at hout
    omega

theorem pushMetas_prefix_handledFrames (h : vpSrcNode.ReachableBy (fun _ a => a.NoPendingMeta) s) :
    pushMetas s.node.trace <+: handledFrames s.node.trace := by
  have hloop := reachable_loopOrder h
  have hfifo : outPushes s.node.trace = (pushMetas s.node.trace).map some ++ s.node.waiting :=
    reachable_outFifo h.reachable
  have hframes : (outPushes s.node.trace).reduceOption =
      pushMetas s.node.trace ++ s.node.waiting.reduceOption := by
    rw [hfifo, List.reduceOption_append, reduceOption_map_some]
  have hpushed := hloop.pushed
  rw [hframes, ← hloop.handled, List.append_assoc] at hpushed
  cases hp : s.node.handle with
  | push m =>
      rw [hp] at hpushed
      have hcancel := List.append_cancel_right ((List.append_assoc ..).trans hpushed)
      exact ⟨_, hcancel⟩
  | handleFrame m =>
      -- the frame at the end of `out_queue` is the one that is not handled
      have hne := waiting_ne_nil (reachable_permitInv h.reachable) hp
      have hlast := hloop.last m hp
      rw [hfifo, List.getLast?_append_of_ne_nil _ hne] at hlast
      obtain ⟨ws, hws⟩ := List.getLast?_eq_some_iff.mp hlast
      rw [hp, hws, List.reduceOption_append] at hpushed
      simp only [SrcPc.unhandled, SrcPc.unpushed, Option.toList_some, Option.toList_none,
        List.append_nil, List.reduceOption_singleton] at hpushed
      rw [← List.append_assoc] at hpushed
      exact ⟨_, List.append_cancel_right hpushed⟩
  | _ =>
      rw [hp] at hpushed
      simp only [SrcPc.unhandled, SrcPc.unpushed, Option.toList_none, List.append_nil] at hpushed
      exact ⟨_, hpushed⟩

/-- A step adds at most one event to the trace. -/
theorem step_trace {a : SrcAct M} (h : s.step a = some s') :
    s'.node.trace = s.node.trace ∨ ∃ e, s'.node.trace = s.node.trace ++ [e] := by
  cases step_cases h with
  | handle _ hh =>
      cases handleStep_cases hh with
      | getFrame _ | push _ _ | handleFrame _ _ | deadPush _ => exact .inr ⟨_, rfl⟩
      | _ => exact .inl rfl
  | node a node _ hn => exact (Node.step_trace hn).imp_right fun ⟨e, _, he⟩ => ⟨e, he⟩
  | read m _ | speak m => exact .inr ⟨_, rfl⟩
  | opened _ | notOpened _ | readNone _ | control _ _ _ _ _ _ => exact .inl rfl

/-- What holds of the trace in every reachable state holds of it at any earlier time. -/
theorem reachable_prefix {C : SrcNode M S → SrcAct M → Prop} {P : List (Event M) → Prop}
    (hP : ∀ s, vpSrcNode.ReachableBy C s → P s.node.trace) (h : vpSrcNode.ReachableBy C s) :
    ∀ t, t <+: s.node.trace → P t := by
  refine System.ReachableBy.history (fun s => s.node.trace) ?_ ?_ hP h
  · rintro _ ⟨isOpened, subscribers, rfl⟩
    rfl
  · intro s s' a hstep
    exact step_trace hstep

end SrcNode

theorem produced_getElem? {t : List (Event M)} {k : Nat} {m : M}
    (hindices : (produced t).map Prod.snd = (List.range (produced t).length).map Int.ofNat)
    (hm : (producedMetas t)[k]? = some m) : (produced t)[k]? = some (m, Int.ofNat k) := by
  unfold producedMetas at hm
  rw [List.getElem?_map] at hm
  obtain ⟨⟨m', i⟩, hk, rfl⟩ := Option.map_eq_some_iff.mp hm
  have hlt : k < (produced t).length := (List.getElem?_eq_some_iff.mp hk).1
  have hsnd := congrArg (·[k]?) hindices
  simp only [List.getElem?_map, hk, Option.map_some, List.getElem?_range hlt] at hsnd
  rw [hk, Option.some.inj hsnd]

/-- The `k`-th frame given to `push_meta` is the `k`-th that `get_frame_meta` returned, with
`frame_index` `k`; and at any time of the run so far, the frames given to `push_meta` were the first
of those that had been handled, and these the first of those that `get_frame_meta` had returned. -/
structure ProductionOrder (s : SrcNode M S) : Prop where
  index : ∀ (k : Nat) (m : M), s.node.pushedMetas[k]? = some m →
    (produced s.node.trace)[k]? = some (m, Int.ofNat k)
  order : ∀ t, t <+: s.node.trace →
    pushMetas t <+: handledFrames t ∧ handledFrames t <+: producedMetas t

/-- Without `pending_meta`, a source dispatches its frames in the order of production, and none
before it was handled. -/
theorem dispatched_in_order {s : SrcNode M S}
    (h : vpSrcNode.ReachableBy (fun _ a => a.NoPendingMeta) s) : ProductionOrder s := by
  constructor
  · intro k m hk
    have hloop := SrcNode.reachable_loopOrder h
    have hpushed := SrcNode.pushMetas_prefix_handledFrames h
    have hproduced : pushMetas s.node.trace <+: producedMetas s.node.trace :=
      hpushed.trans ⟨_, hloop.handled⟩
    apply produced_getElem? hloop.indices
    obtain ⟨hlt, rfl⟩ := List.getElem?_eq_some_iff.mp hk
    exact List.prefix_iff_getElem?.mp hproduced k hlt
  · refine SrcNode.reachable_prefix ?_ h
    intro s hs
    exact ⟨SrcNode.pushMetas_prefix_handledFrames hs,
      ⟨_, (SrcNode.reachable_loopOrder hs).handled⟩⟩

/-- Two frames produced; the first is with the subscribers, and the second waits on `out_queue` to
be handled. -/
def twoFramesRun : List (SrcAct MetaPtr) :=
  let iteration (m : MetaPtr) : List (SrcAct MetaPtr) :=
    [.handle, .handle, .handle, .handle, .handle, .read (some m), .handle]
  [.start, .handle, .openSource true] ++ iteration (.frame 0) ++ [.handle, .handle] ++
    iteration (.frame 1) ++ List.replicate 5 (.node .dispatch)

theorem dispatched_in_order_twoFrames :
    ∃ s : SrcNode MetaPtr Nat, (s.node.pushedMetas = [.frame 0] ∧
      s.node.outQueue = [some (.frame 0), some (.frame 1)] ∧
      produced s.node.trace = [(.frame 0, 0), (.frame 1, 1)]) ∧ ProductionOrder s := by
  have hinit : vpSrcNode.ReachableBy (fun _ a => a.NoPendingMeta)
      (SrcNode.start false [] : SrcNode MetaPtr Nat) := .init ⟨false, [], rfl⟩
  obtain ⟨s, hr, hp⟩ := hinit.exists_of_run
    (p := fun s => s.node.pushedMetas = [.frame 0] ∧
      s.node.outQueue = [some (.frame 0), some (.frame 1)] ∧
      produced s.node.trace = [(.frame 0, 0), (.frame 1, 1)])
    twoFramesRun (by decide) (by decide)
  exact ⟨s, hp, dispatched_in_order hr⟩

end VideoStream
