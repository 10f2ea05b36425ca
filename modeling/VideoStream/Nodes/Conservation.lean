import VideoStream.Nodes.Sequential

/-!
# Conservation of frames in a running node

The three laws of `Sequential`, put together for a node with the base handlers. Such a node passes a
control meta on to nobody and clears its cache only after the batch was copied out, so the loop
splits the frames it has taken into batches and an unfinished rest (`handleAll_base`). The queues
hand them on in order, and every frame is in one place: given to `push_meta`, in `out_queue`, in the
cache, in hand, or in `in_queue`.
-/

namespace VideoStream

open Library Meta

variable {M S : Type} [Meta M]

/-- The frames among `ms`. -/
def frameMetas (ms : List M) : List M := ms.filter fun m => FrameMeta m

/-- The frames among the entries of a queue. -/
def queuedFrames (q : List (Option M)) : List M := frameMetas q.reduceOption

@[simp] theorem frameMetas_append (xs ys : List M) :
    frameMetas (xs ++ ys) = frameMetas xs ++ frameMetas ys := List.filter_append ..

@[simp] theorem queuedFrames_append (q q' : List (Option M)) :
    queuedFrames (q ++ q') = queuedFrames q ++ queuedFrames q' := by
  rw [queuedFrames, List.reduceOption_append, frameMetas_append]
  rfl

@[simp] theorem queuedFrames_map_some (ms : List M) : queuedFrames (ms.map some) = frameMetas ms := by
  rw [queuedFrames, reduceOption_map_some]

/-! ## The loop of the base node -/

/-- The loop has split the frames `fs` into the batches `bs` and an unfinished rest. -/
structure HandleOut.Splits (b : Nat) (r : HandleOut M) (fs : List M) (bs : List (List M))
    (rest : List M) : Prop where
  batches : r.batches = bs.map (·.map some)
  cache : r.cache = rest.map some
  outQueue : r.outQueue = bs.flatten.map some
  frames : bs.flatten ++ rest = fs
  full : ∀ B ∈ bs, B.length = b
  short : rest.length < b

omit [Meta M] in
theorem HandleOut.Splits.frameStep {b : Nat} {hb : 0 < b} {r : HandleOut M} {fs rest : List M}
    {bs : List (List M)} (h : r.Splits b fs bs rest) (m : M) :
    ∃ bs' rest', (VideoStream.frameStep (.base b hb) r m).Splits b (fs ++ [m]) bs' rest' := by
  obtain ⟨hbatches, hcache, hout, hframes, hfull, hshort⟩ := h
  have hlen : r.cache.length = rest.length := by rw [hcache, List.length_map]
  have hcache' : r.cache ++ [some m] = (rest ++ [m]).map some := by
    rw [hcache, List.map_append]
    rfl
  unfold VideoStream.frameStep
  rw [hlen, hcache']
  split
  · next hle =>
      -- `m` completes the batch
      have hle : b ≤ rest.length + 1 := hle
      refine ⟨bs ++ [rest ++ [m]], [], ?_, rfl, ?_, ?_, ?_, hb⟩
      · show r.batches ++ [(rest ++ [m]).map some] = _
        rw [hbatches]
        simp
      · show r.outQueue ++ (rest ++ [m]).map some = _
        rw [hout]
        simp
      · rw [← hframes]
        simp
      · intro B hB
        rcases List.mem_append.mp hB with hB | hB
        · exact hfull B hB
        · rw [List.mem_singleton.mp hB, List.length_append, List.length_singleton]
          omega
  · next hlt =>
      have hlt : ¬ b ≤ rest.length + 1 := hlt
      refine ⟨bs, rest ++ [m], hbatches, rfl, hout, ?_, hfull, ?_⟩
      · rw [← hframes, List.append_assoc]
      · rw [List.length_append, List.length_singleton]
        omega

theorem handleAll_base {b : Nat} {hb : 0 < b} {input : List M} {r : HandleOut M}
    (hin : ∀ m ∈ input, WellTyped m) (hr : handleAll (.base b hb) input = .ok r) :
    ∃ bs rest, r.Splits b (frameMetas input) bs rest := by
  induction input using List.reverseRecOn generalizing r with
  | nil =>
      cases hr
      exact ⟨[], [], rfl, rfl, rfl, rfl, by simp, hb⟩
  | append_singleton ms m ih =>
      have hms : ∀ m ∈ ms, WellTyped m := fun m' hm' => hin m' (List.mem_append_left _ hm')
      rw [handleAll_concat, handleAll_wellTyped hms] at hr
      obtain ⟨bs, rest, hsplit⟩ := ih hms (handleAll_wellTyped hms)
      have hm := hin m (by simp)
      rw [Except.bind, handleMeta_wellTyped hm] at hr
      cases hr
      rcases hm with hm | hm
      · rw [nextOut_frame hm]
        have hone : frameMetas [m] = [m] := by simp [frameMetas, hm]
        rw [frameMetas_append, hone]
        exact hsplit.frameStep m
      · rw [nextOut_control hm]
        have hnone : frameMetas [m] = [] := by
          simpa [frameMetas] using fun hf : FrameMeta m => hf.not_controlMeta hm
        rw [frameMetas_append, hnone, List.append_nil]
        -- the base handler returns its argument, so nothing is cleared
        exact ⟨bs, rest, hsplit⟩

/-! ## The trace of a step -/

/-- The entries of the batch cache that are not on `out_queue` yet: while a batch is copied out they
are those the copying loop still has to go through. -/
def HandleRun.notCopied (h : HandleRun M) : List (Option M) :=
  match h.pc with
  | .push rest | .handledHook _ rest | .signal rest => rest
  | _ => h.frameMetaBatchCache

omit [Meta M] in
theorem HandleRun.notCopied_eq (h : HandleRun M) :
    h.notCopied = h.pc.uncopied ++ h.unfinished := by
  unfold notCopied unfinished HandlePc.uncopied
  cases h.pc <;> simp

namespace VpNode

open Node

variable {cfg : NodeConfig M} {s s' : VpNode M S}

/-- A step adds at most one event to the trace, and a push on `in_queue` only for a meta that is
awaited. -/
theorem step_trace {a : VpAct M} (h : (vpNode cfg).step s a = some s') :
    s'.trace = s.trace ∨ ∃ e, s'.trace = s.trace ++ [e] ∧ ∀ m, e = .inPush m → s.Awaits m := by
  cases a with
  | handle =>
      cases handleStep_cases h with
      | popMeta m rest hp hq => exact .inr ⟨_, rfl, fun _ he => nomatch he⟩
      | handlingHook m hp => exact .inr ⟨_, rfl, fun _ he => nomatch he⟩
      | consumed m r hp hc ht | emit m r hp hc ht | keep m r hp hc ht =>
          unfold batchEvents
          cases r.batchComplete
          · exact .inl (List.append_nil _)
          · exact .inr ⟨_, rfl, fun _ he => nomatch he⟩
      | push i rest hp | handledHook i rest hp | deadPush hp =>
          exact .inr ⟨_, rfl, fun _ he => nomatch he⟩
      | _ => exact .inl rfl
  | node a =>
      cases a with
      | dispatch =>
          cases dispatchStep_cases h with
          | leavingHook m hp | pushMeta m hp => exact .inr ⟨_, rfl, fun _ he => nomatch he⟩
          | _ => exact .inl rfl
      | metaFlow m => cases m <;> (cases h; exact .inl rfl)
      | pendingMeta m => cases h; exact .inl rfl
      | call i =>
          obtain ⟨c, hc, rfl⟩ := callStep_cases h
          rcases c with ⟨m, pc⟩ | ⟨m, pc⟩ <;> cases pc
          case metaFlow.push =>
            refine .inr ⟨_, rfl, fun m' he => ?_⟩
            cases he
            exact .inr (.inl ⟨_, List.mem_of_getElem? hc⟩)
          case metaFlow.signal | pendingMeta.signal => exact .inl rfl
          all_goals exact .inr ⟨_, rfl, fun _ he => nomatch he⟩
      | deinitialized =>
          obtain ⟨-, rfl⟩ := deinitialized_cases h
          exact .inl rfl
      | deinit => cases deinitStep_cases h <;> exact .inl rfl

/-- What holds of the trace in every reachable state holds of it at any earlier time. -/
theorem reachable_prefix {C : VpNode M S → VpAct M → Prop} {P : List (Event M) → Prop}
    (hP : ∀ s, (vpNode cfg).ReachableBy C s → P s.trace) (h : (vpNode cfg).ReachableBy C s) :
    ∀ t, t <+: s.trace → P t := by
  refine System.ReachableBy.history (fun s => s.trace) ?_ ?_ hP h
  · rintro _ ⟨subscribers, rfl⟩
    rfl
  · intro s s' a hstep
    rcases step_trace hstep with hsame | ⟨e, hone, -⟩
    · exact .inl hsame
    · exact .inr ⟨e, hone⟩

/-- The metas on `in_queue`, and those that were there, are those that the callers passed. -/
theorem reachable_inPushes {P : M → Prop}
    (h : (vpNode cfg).ReachableBy (fun _ a => a.Carries P) s) : ∀ m ∈ inPushes s.trace, P m := by
  apply h.invariant (I := fun s => ∀ m ∈ inPushes s.trace, P m)
  · rintro _ ⟨subscribers, rfl⟩ m hm
    cases hm
  · intro s s' a hr hs _ hstep m hm
    rcases step_trace hstep with hsame | ⟨e, hone, hawaits⟩
    · exact hs m (hsame ▸ hm)
    · rw [hone, inPushes_concat] at hm
      rcases List.mem_append.mp hm with hm | hm
      · exact hs m hm
      · have he : e = .inPush m := by
          cases e with
          | inPush m' => rw [List.mem_singleton.mp hm]
          | _ => cases hm
        exact reachable_awaits hr m (hawaits m he)

end VpNode

/-! ## Conservation -/

/-- Every frame that `meta_flow` pushed is in one place, in the order of the pushes; and at any time
of the run so far, the frames given to `push_meta` had been handled in batches of `b` consecutive
frames. -/
structure Conserves (b : Nat) (s : VpNode M S) : Prop where
  sequence : frameMetas s.pushedMetas ++ queuedFrames s.waiting ++ queuedFrames s.handle.notCopied ++
    frameMetas s.handle.pc.inHand.toList ++ queuedFrames s.inQueue = frameMetas (inPushes s.trace)
  batched : ∀ t, t <+: s.trace → ∃ bs : List (List M), batches t = bs.map (·.map some) ∧
    (∀ B ∈ bs, B.length = b) ∧ frameMetas (pushMetas t) <+: bs.flatten ∧
      bs.flatten <+: frameMetas (inPushes t)

omit [Meta M] in
theorem VpAct.Carries.imp {P Q : M → Prop} (hPQ : ∀ m, P m → Q m) {a : VpAct M}
    (h : a.Carries P) : a.Carries Q := by
  rcases a with _ | (_ | (_ | m) | _ | _ | _ | _) <;> first | exact hPQ m h | exact trivial

theorem frameMetas_eq_self {ms : List M} (h : ∀ m ∈ ms, FrameMeta m) : frameMetas ms = ms :=
  List.filter_eq_self.mpr fun m hm => decide_eq_true (h m hm)

/-- The laws of `Sequential` for a node with the base handlers: the loop has split the frames `fs`
it has handled, and the queues hold the others. -/
theorem exists_splits {b : Nat} {hb : 0 < b} {s : VpNode M S}
    (h : (vpNode (.base b hb)).ReachableBy (fun _ a => a.Carries WellTyped ∧ a.NoPendingMeta) s) :
    ∃ fs bs rest r, HandleOut.Splits b r fs bs rest ∧ batches s.trace = r.batches ∧
      frameMetas s.pushedMetas ++ queuedFrames s.waiting ++ queuedFrames s.handle.pc.uncopied =
        bs.flatten ∧
      queuedFrames s.handle.unfinished = rest ∧
      frameMetas (inPushes s.trace) =
        fs ++ frameMetas s.handle.pc.inHand.toList ++ queuedFrames s.inQueue := by
  have hin : inPushes s.trace = takenMetas s.trace ++ s.inQueue.reduceOption :=
    VpNode.reachable_inFifo h.reachable
  have hout : outPushes s.trace = s.pushedMetas.map some ++ s.waiting :=
    VpNode.reachable_outFifo h.reachable
  obtain ⟨input, r, hsim⟩ := VpNode.reachable_simulates
    (h.mono fun _ _ hc => ⟨hc.1.imp fun _ hm => hm.tagged, hc.2⟩)
  have htyped : ∀ m ∈ input, WellTyped m := by
    intro m hm
    apply VpNode.reachable_inPushes (h.mono fun _ _ hc => hc.1) m
    rw [hin, hsim.taken]
    simp [hm]
  obtain ⟨bs, rest, hsplit⟩ := handleAll_base htyped hsim.run
  have hframes : ∀ m ∈ bs.flatten ++ rest, FrameMeta m := by
    intro m hm
    rw [hsplit.frames] at hm
    exact of_decide_eq_true (List.mem_filter.mp hm).2
  refine ⟨frameMetas input, bs, rest, r, hsplit, hsim.batches, ?_, ?_, ?_⟩
  · have hdead : queuedFrames s.handle.pc.deadFlag = [] := by
      cases s.handle.pc <;> rfl
    have hflat := frameMetas_eq_self fun m hm => hframes m (List.mem_append_left _ hm)
    calc frameMetas s.pushedMetas ++ queuedFrames s.waiting ++ queuedFrames s.handle.pc.uncopied
        = queuedFrames (outPushes s.trace ++ s.handle.pc.uncopied) := by simp [hout]
      _ = queuedFrames (r.outQueue ++ s.handle.pc.deadFlag) := by rw [hsim.outQueue]
      _ = bs.flatten := by
          rw [queuedFrames_append, hdead, hsplit.outQueue, queuedFrames_map_some, hflat,
            List.append_nil]
  · rw [hsim.cache, hsplit.cache, queuedFrames_map_some]
    exact frameMetas_eq_self fun m hm => hframes m (List.mem_append_right _ hm)
  · rw [hin, hsim.taken, frameMetas_append, frameMetas_append]
    rfl

/-- A base node of any batch size loses no frame, duplicates none and keeps their order, whatever
the interleaving of its threads. -/
theorem frames_conserved {b : Nat} {hb : 0 < b} {s : VpNode M S}
    (h : (vpNode (.base b hb)).ReachableBy (fun _ a => a.Carries WellTyped ∧ a.NoPendingMeta) s) :
    Conserves b s := by
  constructor
  · obtain ⟨fs, bs, rest, r, hsplit, -, hpushed, hrest, hin⟩ := exists_splits h
    rw [HandleRun.notCopied_eq, queuedFrames_append, hin, ← hsplit.frames, hrest,
      ← hpushed]
    simp only [List.append_assoc]
  · refine VpNode.reachable_prefix (fun s hs => ?_) h
    obtain ⟨fs, bs, rest, r, hsplit, hbatches, hpushed, hrest, hin⟩ := exists_splits hs
    refine ⟨bs, hbatches.trans hsplit.batches, hsplit.full, ?_, ?_⟩
    · exact ⟨_, by rw [← hpushed, List.append_assoc]; rfl⟩
    · exact ⟨_, by rw [hin, ← hsplit.frames, List.append_assoc, List.append_assoc]⟩

/-- Batch size 2. Two frames with a control meta between them fill a batch, and a third one is in
the cache; the dispatch thread has given the first frame to `push_meta`. -/
def threeFramesRun : List (VpAct MetaPtr) :=
  let flow (m : MetaPtr) : List (VpAct MetaPtr) :=
    [.node (.metaFlow (some m)), .node (.call 0), .node (.call 0), .node (.call 0)]
  let iteration : List (VpAct MetaPtr) := [.handle, .handle, .handle, .handle, .handle]
  flow (.frame 0) ++ flow (.control 1) ++ flow (.frame 2) ++ flow (.frame 3) ++ iteration ++
    iteration ++ iteration ++ List.replicate 7 .handle ++ iteration ++
    List.replicate 5 (.node .dispatch)

theorem frames_conserved_threeFrames :
    ∃ s : VpNode MetaPtr Nat, (s.pushedMetas = [.frame 0] ∧ s.waiting = [some (.frame 2)] ∧
      s.handle.notCopied = [some (.frame 3)]) ∧ Conserves 2 s := by
  have hinit : (vpNode (.base 2 Nat.two_pos)).ReachableBy
      (fun _ a => a.Carries WellTyped ∧ a.NoPendingMeta)
      (VpNode.start [] : VpNode MetaPtr Nat) := .init ⟨[], rfl⟩
  obtain ⟨s, hr, hp⟩ := hinit.exists_of_run
    (p := fun s => s.pushedMetas = [.frame 0] ∧ s.waiting = [some (.frame 2)] ∧
      s.handle.notCopied = [some (.frame 3)])
    threeFramesRun (by decide) (by decide)
  exact ⟨s, hp, frames_conserved hr⟩

end VideoStream
