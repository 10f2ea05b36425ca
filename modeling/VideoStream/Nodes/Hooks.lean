import VideoStream.Nodes.Ports

/-!
# The four hook ports of a plain node

On the way in, `meta_flow` pushes a meta on `in_queue`, then invokes the arriving hooker, then
signals. As on the way out, a permit is not tied to a meta: with two publishers the handle thread
may be let in by the one and pop the meta of the other, and invoke the handling hooker before the
arriving one. `HeadArrived` excludes this.

Everything behind it is in order by itself, as long as nobody calls `pending_meta`: the handle
thread is then the only producer of `out_queue`, and it puts there only what it has popped.
-/

namespace VideoStream

open Library Meta

variable {M S : Type} [DecidableEq M]

/-- The call has put `m` on `in_queue` and has not come to its hook. -/
def Call.unarrived (m : M) : Call M → Nat
  | .metaFlow m' .hook => if m' = m then 1 else 0
  | _ => 0

/-- The handle thread has popped `m` and not come to the handling hook. -/
def HandlePc.unhandled (m : M) : HandlePc M → Nat
  | .handlingHook m' => if m' = m then 1 else 0
  | _ => 0

theorem count_takenMetas_concat (m : M) (t : List (Event M)) (e : Event M) :
    (takenMetas (t ++ [e])).count m = (takenMetas t).count m + e.taken.toList.count m := by
  rw [takenMetas_concat, List.count_append]

namespace VpNode

open Node

variable {s s' : VpNode M S} {m : M}

/-- What the ports have seen of `m` on the way in: the arriving hooker was invoked for every meta
pushed, except those whose caller is on its way to the hook, and the handling hooker for every meta
popped, except the one in hand. -/
structure InPorts (m : M) (s : VpNode M S) : Prop where
  arriving : portCount m .arriving s.trace + weight (Call.unarrived m) s.calls =
    portCount m .inPush s.trace
  handling : portCount m .handling s.trace + s.handle.pc.unhandled m =
    (takenMetas s.trace).count m

theorem callStep_inPorts {i : Nat} (h : s.callStep i = some s') (hs : s.InPorts m) :
    s'.InPorts m := by
  obtain ⟨harriving, hhandling⟩ := hs
  obtain ⟨c, hc, rfl⟩ := callStep_cases h
  have hw := weight_advance (w := Call.unarrived m) hc
  rcases c with ⟨m', pc⟩ | ⟨e, pc⟩ <;> cases pc <;>
    simp only [Call.next, FlowPc.next, Option.map_some, Option.map_none, Option.getD_some,
      Option.getD_none, Call.unarrived] at hw
  case metaFlow.signal | pendingMeta.push | pendingMeta.hook | pendingMeta.signal =>
    refine ⟨?_, by simpa [callBody, metaFlowBody, pendingMetaBody, Event.port, Event.taken]
      using hhandling⟩
    simp [callBody, metaFlowBody, pendingMetaBody, Event.port]
    omega
  case metaFlow.push | metaFlow.hook =>
    -- the push puts its caller on the way to the hook, and the hook takes it off again
    refine ⟨?_, by simpa [callBody, metaFlowBody, Event.port, Event.taken] using hhandling⟩
    simp only [callBody, metaFlowBody, portCount_concat, Event.port]
    by_cases hm : m' = m <;> simp [hm] at hw ⊢ <;> omega

theorem nodeStep_inPorts {a : NodeAct M} (h : s.step a = some s') (hs : s.InPorts m) :
    s'.InPorts m := by
  cases a with
  | dispatch =>
      obtain ⟨harriving, hhandling⟩ := hs
      cases dispatchStep_cases h <;>
        exact ⟨by simpa [Event.port] using harriving,
          by simpa [Event.port, Event.taken] using hhandling⟩
  | metaFlow m' =>
      cases m' with
      | none => cases h; exact hs
      | some m' => cases h; exact ⟨by simpa [Call.unarrived] using hs.arriving, hs.handling⟩
  | pendingMeta e => cases h; exact ⟨by simpa [Call.unarrived] using hs.arriving, hs.handling⟩
  | call i => exact callStep_inPorts h hs
  | deinitialized =>
      obtain ⟨-, rfl⟩ := deinitialized_cases h
      exact ⟨hs.arriving, hs.handling⟩
  | deinit => cases deinitStep_cases h <;> exact ⟨hs.arriving, hs.handling⟩

variable [Meta M] {cfg : NodeConfig M}

theorem handleStep_inPorts (h : s.handleStep cfg = some s') (hs : s.InPorts m) :
    s'.InPorts m := by
  obtain ⟨harriving, hhandling⟩ := hs
  cases handleStep_cases h with
  | popMeta m' rest hp _ | handlingHook m' hp =>
      refine ⟨by simpa [Event.port] using harriving, ?_⟩
      rw [hp] at hhandling
      simp only [HandlePc.unhandled, portCount_concat, Event.port, count_takenMetas_concat,
        Event.taken, Option.toList_some, Option.toList_none, List.count_singleton,
        List.count_nil, beq_iff_eq] at hhandling ⊢
      by_cases hm : m' = m <;> simp [hm] at hhandling ⊢ <;> omega
  | enter hp _ | leave hp _ | wait hp _ | popNull rest hp _ | throws m' msg hp _
  | consumed m' r hp _ _ | emit m' r hp _ _ | keep m' r hp _ _ | pushEnd hp | push i rest hp
  | handledHook i rest hp | signal rest hp | deadPush hp | deadSignal hp =>
      rw [hp] at hhandling
      exact ⟨by simpa [Event.port] using harriving,
        by simpa [HandlePc.unhandled, Event.port, Event.taken] using hhandling⟩

theorem reachable_inPorts (h : (vpNode cfg).Reachable s) (m : M) : s.InPorts m := by
  apply h.invariant (I := fun s => s.InPorts m)
  · rintro _ ⟨subscribers, rfl⟩
    exact ⟨rfl, rfl⟩
  · intro s s' a _ hs _ hstep
    cases a with
    | handle => exact handleStep_inPorts hstep hs
    | node a => exact nodeStep_inPorts hstep hs

/-! ## Arriving before handling -/

/-- The handle thread invokes the handling hooker for a meta whose arriving hooker was invoked: not
more callers are on their way to the hook for `m` than `m` is on `in_queue`. -/
def HeadArrived (s : VpNode M S) : VpAct M → Prop
  | .handle => ∀ m, s.handle.pc = .handlingHook m →
      weight (Call.unarrived m) s.calls ≤ s.inQueue.count (some m)
  | .node _ => True

omit [Meta M] in
instance decidableHeadArrived (s : VpNode M S) : ∀ a, Decidable (s.HeadArrived a)
  | .handle =>
      match hp : s.handle.pc with
      | .handlingHook m =>
          decidable_of_iff (weight (Call.unarrived m) s.calls ≤ s.inQueue.count (some m))
            ⟨fun h m' hm => by cases hp.symm.trans hm; exact h, fun h => h m hp⟩
      | .test | .wait | .pop | .callHandlers _ | .push _ | .handledHook .. | .signal _ | .deadPush
      | .deadSignal | .exited | .threw => isTrue fun _ hm => nomatch hp.symm.trans hm
  | .node _ => isTrue trivial

omit [Meta M] in
/-- The metas pushed on `in_queue` are those popped and those still there. -/
theorem InFifo.count (hs : s.InFifo) (m : M) :
    (takenMetas s.trace).count m + s.inQueue.count (some m) = portCount m .inPush s.trace := by
  have hreduce : s.inQueue.reduceOption.count m = s.inQueue.count (some m) := by
    rw [List.reduceOption, List.count_filterMap, List.count_eq_countP]
    apply List.countP_congr
    rintro (_ | e) _ <;> simp
  have hcount := congrArg (List.count m) hs
  rw [List.count_append, count_inPushes, hreduce] at hcount
  exact hcount.symm

omit [Meta M] in
/-- Between two histories: the handling hooker was not invoked for `m`. -/
structure KeepsHandling (m : M) (t t' : List (Event M)) : Prop where
  handling : portCount m .handling t' = portCount m .handling t
  arriving : portCount m .arriving t ≤ portCount m .arriving t'

omit [Meta M] in
theorem nodeStep_keepsHandling {a : NodeAct M} (h : s.step a = some s') (m : M) :
    KeepsHandling m s.trace s'.trace := by
  cases a with
  | dispatch => cases dispatchStep_cases h <;> constructor <;> simp [Event.port]
  | metaFlow m => cases m <;> (cases h; exact ⟨rfl, le_rfl⟩)
  | pendingMeta e => cases h; exact ⟨rfl, le_rfl⟩
  | call i =>
      obtain ⟨c, -, rfl⟩ := callStep_cases h
      rcases c with ⟨m', pc⟩ | ⟨e, pc⟩ <;> cases pc <;> constructor <;>
        simp [callBody, metaFlowBody, pendingMetaBody, Event.port]
  | deinitialized =>
      obtain ⟨-, rfl⟩ := deinitialized_cases h
      exact ⟨rfl, le_rfl⟩
  | deinit => cases deinitStep_cases h <;> exact ⟨rfl, le_rfl⟩

theorem handleStep_keepsHandling (h : s.handleStep cfg = some s')
    (hne : s.handle.pc ≠ .handlingHook m) : KeepsHandling m s.trace s'.trace := by
  cases handleStep_cases h with
  | handlingHook m' hp =>
      have hm : m' ≠ m := fun he => hne (he ▸ hp)
      constructor <;> simp [Event.port, hm]
  | _ => constructor <;> simp [Event.port]

theorem handling_le_arriving (h : (vpNode cfg).ReachableBy (fun s a => s.HeadArrived a) s) (m : M) :
    portCount m .handling s.trace ≤ portCount m .arriving s.trace := by
  apply h.invariant (I := fun s => portCount m .handling s.trace ≤ portCount m .arriving s.trace)
  · rintro _ ⟨subscribers, rfl⟩
    exact le_rfl
  · intro s s' a hr hs hc hstep
    have hkeeps (hk : KeepsHandling m s.trace s'.trace) :
        portCount m .handling s'.trace ≤ portCount m .arriving s'.trace := by
      rw [hk.handling]
      exact hs.trans hk.arriving
    cases a with
    | node a => exact hkeeps (nodeStep_keepsHandling hstep m)
    | handle =>
        by_cases hp : s.handle.pc = .handlingHook m
        · obtain ⟨harriving, hhandling⟩ := reachable_inPorts hr.reachable m
          have hcount := (reachable_inFifo hr.reachable).count m
          have hle := hc m hp
          rw [hp] at hhandling
          simp only [HandlePc.unhandled] at hhandling
          -- one more meta was popped than handled, and all but those on `in_queue` have arrived
          have hlt : portCount m .handling s.trace + 1 ≤ portCount m .arriving s.trace := by
            simp only [if_true] at hhandling
            omega
          cases handleStep_cases hstep with
          | handlingHook m' hp' => simpa [Event.port] using le_trans (by split <;> omega) hlt
          | _ => simp_all
        · exact hkeeps (handleStep_keepsHandling hstep hp)

/-! ## What the handle thread puts on `out_queue` -/

end VpNode

omit [DecidableEq M] in
/-- The loop puts on `out_queue`, and keeps in its cache, entries for metas it has popped, in
order. -/
theorem handleAll_sublist [Meta M] {cfg : NodeConfig M} {input : List M} {r : HandleOut M}
    (hr : handleAll cfg input = .ok r) :
    (r.outQueue ++ r.cache).Sublist (input.map castFrame) := by
  induction input using List.reverseRecOn generalizing r with
  | nil =>
      cases hr
      exact List.Sublist.refl _
  | append_singleton ms m ih =>
      -- what one iteration does to the outcome of those before it
      rw [handleAll_concat] at hr
      cases hms : handleAll cfg ms with
      | error msg => rw [hms] at hr; cases hr
      | ok r₀ =>
          have hsub := ih hms
          rw [hms] at hr
          replace hr : handleMeta cfg r₀ m = .ok r := hr
          rw [List.map_append, List.map_singleton]
          cases ht : metaType m with
          | frame =>
              have happend : ((r₀.outQueue ++ r₀.cache) ++ [castFrame m]).Sublist
                  (ms.map castFrame ++ [castFrame m]) := hsub.append_right _
              rw [List.append_assoc] at happend
              by_cases hb : cfg.frameMetaHandleBatch ≤ r₀.cache.length + 1 <;>
                simp [handleMeta, callHandlers, tail, ht, hb, Except.map] at hr <;>
                (subst hr; simpa using happend)
          | control =>
              have hweak : (r₀.outQueue ++ r₀.cache).Sublist
                  (ms.map castFrame ++ [castFrame m]) := hsub.trans (List.sublist_append_left ..)
              -- a consumed control meta clears the cache
              by_cases hn : cfg.handleControlMeta (castControl m) = none <;>
                simp [handleMeta, callHandlers, tail, ht, hn, Except.map] at hr <;> subst hr
              · simpa using (List.sublist_append_left _ _).trans hweak
              · exact hweak
          | other raw => simp [handleMeta, callHandlers, ht, Except.map] at hr

theorem count_outQueue_le [Meta M] {cfg : NodeConfig M} {input : List M} {r : HandleOut M}
    (hr : handleAll cfg input = .ok r) (m : M) : r.outQueue.count (some m) ≤ input.count m := by
  have hsub := (List.sublist_append_left r.outQueue r.cache).trans (handleAll_sublist hr)
  refine (hsub.count_le _).trans ?_
  rw [List.count_eq_countP, List.countP_map, List.count_eq_countP]
  apply List.countP_mono_left
  intro m' _ hm'
  by_cases hframe : isFrame m' <;> simp_all [castFrame]

namespace VpNode

open Node

variable [Meta M] {cfg : NodeConfig M} {s s' : VpNode M S} {m : M}

theorem outPush_le_handling
    (h : (vpNode cfg).ReachableBy (fun _ a => a.Carries Tagged ∧ a.NoPendingMeta) s) (m : M) :
    portCount m .outPush s.trace ≤ portCount m .handling s.trace := by
  obtain ⟨input, r, hsim⟩ := reachable_simulates h
  have hhandling := (reachable_inPorts h.reachable m).handling
  have hqueue := congrArg (List.count (some m)) hsim.outQueue
  have hdead : s.handle.pc.deadFlag.count (some m) = 0 := by
    cases s.handle.pc <;> simp [HandlePc.deadFlag]
  rw [List.count_append, List.count_append, count_outPushes, hdead] at hqueue
  have hle := count_outQueue_le hsim.run m
  have hhand : s.handle.pc.unhandled m ≤ s.handle.pc.inHand.toList.count m := by
    cases s.handle.pc <;> simp [HandlePc.unhandled, HandlePc.inHand, List.count_singleton]
  rw [hsim.taken, List.count_append] at hhandling
  omega

/-! ## Handled before leaving -/

omit [DecidableEq M] in
/-- The entry that waits for its hook is the last one pushed. -/
theorem reachable_last (h : (vpNode cfg).ReachableBy (fun _ a => a.NoPendingMeta) s) :
    ∀ i rest, s.handle.pc = .handledHook i rest → (outPushes s.trace).getLast? = some i := by
  apply h.invariant (I := fun s => ∀ i rest, s.handle.pc = .handledHook i rest →
    (outPushes s.trace).getLast? = some i)
  · rintro _ ⟨subscribers, rfl⟩ i rest hp
    cases hp
  · intro s s' a hr hs _ hstep i rest hp'
    cases a with
    | handle =>
        cases handleStep_cases hstep with
        | push e rest' hp =>
            cases hp'
            simp [Event.outPushed]
        | _ => cases hp'
    | node a =>
        rw [step_handle hstep] at hp'
        rw [(step_loopTrace hstep (reachable_noPending hr)).1]
        exact hs i rest hp'

omit [Meta M] in
/-- Where nobody calls `pending_meta`, no call is on its way to the hook. -/
theorem unhooked_of_noPending (hp : s.NoPending) : s.unhooked m = s.handle.pc.unhooked m := by
  have hzero : weight (Call.unhooked m) s.calls = 0 := by
    apply List.sum_eq_zero
    intro x hx
    obtain ⟨c, hc, rfl⟩ := List.mem_map.mp hx
    rcases c with ⟨m', pc⟩ | ⟨e, pc⟩
    · rfl
    · exact absurd hc (hp e pc)
  rw [unhooked, hzero, Nat.zero_add]

omit [DecidableEq M] in
/-- The entry that waits for its hook is owed a signal, so it is not the one that the dispatch thread
holds a permit for, but one behind it. -/
theorem unhooked_behind_head {i : Option M} {rest : List (Option M)}
    (h : (vpNode cfg).ReachableBy (fun _ a => a.NoPendingMeta) s)
    (hp : s.dispatch = .leavingHook m) (hh : s.handle.pc = .handledHook i rest) :
    i ∈ s.outQueue.tail := by
  have hlast := reachable_last h i rest hh
  have hfifo : outPushes s.trace = s.pushedMetas.map some ++ s.waiting :=
    reachable_outFifo h.reachable
  have hwaiting : s.waiting = s.outQueue := by
    unfold waiting
    rw [hp]
    rfl
  -- a permit with the dispatch thread and a signal owed: two entries at least
  have hout := (reachable_permitInv h.reachable).out
  simp only [OutBalance, owes, hh, hp, HandlePc.owes, DispatchPc.holds] at hout
  rw [hfifo, hwaiting] at hlast
  cases hq : s.outQueue with
  | nil =>
      rw [hq, List.length_nil] at hout
      omega
  | cons e behind =>
      have hne : behind ≠ [] := by
        rintro rfl
        rw [hq, List.length_singleton] at hout
        omega
      rw [hq, List.getLast?_append_of_ne_nil _ (List.cons_ne_nil _ _),
        List.getLast?_cons_of_ne_nil hne] at hlast
      exact List.mem_of_getLast? hlast

/-- With the handle thread as the only producer, the dispatch thread takes up hooked entries
only. -/
theorem headHooked_of_noPending
    (h : (vpNode cfg).ReachableBy (fun _ a => a.NoPendingMeta) s) (a : VpAct M) :
    s.HeadHooked a := by
  rcases a with _ | (_ | _ | _ | _ | _ | _)
  case node.dispatch =>
    intro m hp
    rw [unhooked_of_noPending (reachable_noPending h)]
    have hhead : s.outQueue.head? = some (some m) :=
      (reachable_permitInv h.reachable).head m (by rw [hp]; rfl)
    obtain ⟨rest, hq⟩ := List.head?_eq_some_iff.mp hhead
    have hpos : 0 < s.outQueue.count (some m) := by
      rw [hq]
      simp
    cases hh : s.handle.pc with
    | handledHook i rest' =>
        simp only [HandlePc.unhooked]
        split
        · next hi =>
            -- one entry of the meta is at the front, and the unhooked one behind it
            have hmem := unhooked_behind_head h hp hh
            rw [hi, hq, List.tail_cons] at hmem
            have hrest : 0 < rest.count (some m) := List.count_pos_iff.mpr hmem
            rw [hq, List.count_cons_self]
            omega
        · exact hpos
    | _ => exact hpos
  all_goals exact trivial

end VpNode

/-! ## The order of the ports -/

/-- The stages of a meta on its way through a plain node. -/
def stages : List Port := [.inPush, .arriving, .handling, .outPush, .handled, .leaving, .pushMeta]

/-- At any time no meta has reached a stage before the one in front of it. So a meta that was passed
to `meta_flow` once and dispatched has been at each of the four hook ports once, in order. -/
structure HooksInOrder (t : List (Event M)) : Prop where
  staged : ∀ m, Staged stages (portsOf m t)
  once : ∀ m, portCount m .inPush t = 1 → .pushMeta ∈ portsOf m t → portsOf m t = stages

/-- If the handle thread takes up arrived metas only, then the four hookers are invoked in order. -/
theorem hooks_in_order_of_headArrived [Meta M] {cfg : NodeConfig M} {s : VpNode M S}
    (h : (vpNode cfg).ReachableBy
      (fun s a => (a.Carries Tagged ∧ a.NoPendingMeta) ∧ s.HeadArrived a) s) :
    HooksInOrder s.trace := by
  have hcounts : ∀ t, t <+: s.trace → ∀ m, stages.IsChain fun p q =>
      portCount m q t ≤ portCount m p t := by
    refine VpNode.reachable_prefix ?_ h
    intro s hs m
    have hnoPending := hs.mono fun _ _ hc => hc.1.2
    -- the output ports need no condition here: `pending_meta` is what could upset them
    have hhooked : (vpNode cfg).ReachableBy (fun s a => s.HeadHooked a) s := by
      apply hnoPending.strengthen
      intro s hs a
      exact VpNode.headHooked_of_noPending hs a
    have harriving := (VpNode.reachable_inPorts hs.reachable m).arriving
    have hhandling := VpNode.handling_le_arriving (hs.mono fun _ _ hc => hc.2) m
    have hpush := VpNode.outPush_le_handling (hs.mono fun _ _ hc => hc.1) m
    have hhandled := VpNode.handled_le_outPush hs.reachable m
    have hleaving := VpNode.leaving_le_handled hhooked m
    have hgiven := VpNode.pushMeta_le_leaving hs.reachable m
    simp only [stages, List.isChain_cons_cons, List.isChain_singleton, and_true]
    omega
  have hstaged : ∀ m, Staged stages (portsOf m s.trace) := fun m =>
    staged_portsOf fun t ht => hcounts t ht m
  refine ⟨hstaged, ?_⟩
  intro m hone hpush
  apply (hstaged m).eq_stages (by decide)
  · have hpos : 0 < portCount m .pushMeta s.trace := List.count_pos_iff.mpr hpush
    have hchain := hcounts s.trace List.prefix_rfl m
    simp only [stages, List.isChain_cons_cons, List.isChain_singleton, and_true] at hchain
    intro p hp
    show portCount m p s.trace = 1
    cases p <;> omega
  · intro p _
    cases p <;> simp [stages]

/-- A call of `meta_flow` up to its return, one iteration of the handle thread, and the dispatch
thread up to `push_meta`. -/
def onePublisher : List (VpAct MetaPtr) :=
  [.node (.metaFlow (some (.frame 0))), .node (.call 0), .node (.call 0), .node (.call 0)] ++
    List.replicate 8 .handle ++ List.replicate 5 (.node .dispatch)

theorem hooks_in_order_of_headArrived_onePublisher :
    ∃ s : VpNode MetaPtr Nat, portsOf (.frame 0) s.trace = stages ∧ HooksInOrder s.trace := by
  have hinit : baseNode.ReachableBy
      (fun s a => (a.Carries Tagged ∧ a.NoPendingMeta) ∧ s.HeadArrived a) (VpNode.start []) :=
    .init ⟨[], rfl⟩
  obtain ⟨s, hr, hp⟩ := hinit.exists_of_run (p := fun s => portsOf (.frame 0) s.trace = stages)
    onePublisher (by decide) (by decide)
  exact ⟨s, hp, hooks_in_order_of_headArrived hr⟩

/-- Two publishers: the one has pushed its frame and not come to the hook, and the signal of the
other lets the handle thread in. -/
def twoPublishers : List (VpAct MetaPtr) :=
  [.node (.metaFlow (some (.frame 0))), .node (.metaFlow (some (.frame 1))), .node (.call 0),
    .node (.call 1), .node (.call 1), .node (.call 1)] ++
    List.replicate 8 .handle ++ List.replicate 5 (.node .dispatch)

/-- A frame is dispatched before the arriving hooker is invoked for it. -/
theorem hooks_out_of_order :
    ∃ s, baseNode.ReachableBy (fun _ a => a.Carries FrameMeta ∧ a.NoPendingMeta) s ∧
      portsOf (.frame 0) s.trace = stages.erase .arriving ∧ ¬ HooksInOrder s.trace := by
  have hinit : baseNode.ReachableBy (fun _ a => a.Carries FrameMeta ∧ a.NoPendingMeta)
      (VpNode.start []) := .init ⟨[], rfl⟩
  obtain ⟨s, hr, hp⟩ := hinit.exists_of_run
    (p := fun s => portsOf (.frame 0) s.trace = stages.erase .arriving)
    twoPublishers (by decide) (by decide)
  refine ⟨s, hr, hp, ?_⟩
  intro horder
  have hone := horder.once (.frame 0) (by rw [portCount, hp]; decide) (by rw [hp]; decide)
  rw [hp] at hone
  exact absurd hone (by decide)

end VideoStream
