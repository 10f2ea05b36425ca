import Mathlib.Data.List.ReduceOption
import VideoStream.Nodes.Awaits
import VideoStream.Nodes.Permits

/-!
# The threads of a plain node against the loop

What the threads of a plain node do to its metas, read off the trace, in three laws.

* `in_queue` is a queue: the metas pushed are those popped and those still there
  (`reachable_inFifo`).
* `out_queue` is one too, with the dispatch thread peeking at its head: the entries pushed are the
  metas given to `push_meta` and the entries still waiting (`reachable_outFifo`).
* Between the two, the handle thread does what the loop of `HandleRun` does: whatever the
  interleaving, its batches, its cache and its pushes on `out_queue` are those of `handleAll` on the
  metas it has popped (`reachable_simulates`). Only while a batch is copied out does it lag behind.
-/

namespace VideoStream

open Library Meta

variable {M S : Type}

/-! ## Projections of the trace -/

/-- The metas that `meta_flow` pushed on `in_queue`. -/
def inPushes (t : List (Event M)) : List M := t.filterMap Event.inPushed

/-- The metas that the handle thread popped from `in_queue`. -/
def takenMetas (t : List (Event M)) : List M := t.filterMap Event.taken

/-- The arguments of the calls of `handle_frame_meta(vector)`. -/
def batches (t : List (Event M)) : List (List (Option M)) := t.filterMap Event.batched

/-- The entries pushed on `out_queue`. -/
def outPushes (t : List (Event M)) : List (Option M) := t.filterMap Event.outPushed

/-- The metas given to `push_meta`. -/
def pushMetas (t : List (Event M)) : List M := t.filterMap Event.pushed

theorem filterMap_concat {α β : Type} (f : α → Option β) (l : List α) (a : α) :
    (l ++ [a]).filterMap f = l.filterMap f ++ (f a).toList := by
  rw [List.filterMap_append]
  cases hf : f a <;> simp [hf]

@[simp] theorem reduceOption_map_some {α : Type} (l : List α) :
    (l.map some).reduceOption = l := by
  rw [List.reduceOption, List.filterMap_map]
  exact List.filterMap_some ..

@[simp] theorem inPushes_concat (t : List (Event M)) (e : Event M) :
    inPushes (t ++ [e]) = inPushes t ++ e.inPushed.toList := filterMap_concat ..

@[simp] theorem takenMetas_concat (t : List (Event M)) (e : Event M) :
    takenMetas (t ++ [e]) = takenMetas t ++ e.taken.toList := filterMap_concat ..

@[simp] theorem batches_concat (t : List (Event M)) (e : Event M) :
    batches (t ++ [e]) = batches t ++ e.batched.toList := filterMap_concat ..

@[simp] theorem outPushes_concat (t : List (Event M)) (e : Event M) :
    outPushes (t ++ [e]) = outPushes t ++ e.outPushed.toList := filterMap_concat ..

@[simp] theorem pushMetas_concat (t : List (Event M)) (e : Event M) :
    pushMetas (t ++ [e]) = pushMetas t ++ e.pushed.toList := filterMap_concat ..

section BatchEvents

variable (t : List (Event M)) (h : Handled M)

@[simp] theorem inPushes_batchEvents :
    inPushes (t ++ VpNode.batchEvents h) = inPushes t := by
  unfold VpNode.batchEvents
  split <;> simp [Event.inPushed]

@[simp] theorem takenMetas_batchEvents :
    takenMetas (t ++ VpNode.batchEvents h) = takenMetas t := by
  unfold VpNode.batchEvents
  split <;> simp [Event.taken]

@[simp] theorem outPushes_batchEvents :
    outPushes (t ++ VpNode.batchEvents h) = outPushes t := by
  unfold VpNode.batchEvents
  split <;> simp [Event.outPushed]

@[simp] theorem pushMetas_batchEvents :
    pushMetas (t ++ VpNode.batchEvents h) = pushMetas t := by
  unfold VpNode.batchEvents
  split <;> simp [Event.pushed]

@[simp] theorem batches_batchEvents :
    batches (t ++ VpNode.batchEvents h) =
      if h.batchComplete then batches t ++ [h.frameMetaBatchCache] else batches t := by
  unfold VpNode.batchEvents
  split <;> simp [Event.batched]

end BatchEvents

/-! ## `in_queue` -/

namespace VpNode

open Node

variable {s s' : VpNode M S}

/-- The metas pushed on `in_queue` are those popped and those still there, in this order. -/
def InFifo (s : VpNode M S) : Prop :=
  inPushes s.trace = takenMetas s.trace ++ s.inQueue.reduceOption

/-- The shared threads touch `in_queue` by pushing at its end. -/
theorem nodeStep_inFifo {a : NodeAct M} (h : s.step a = some s') (hs : s.InFifo) : s'.InFifo := by
  unfold InFifo at *
  cases a with
  | dispatch =>
      cases dispatchStep_cases h with
      | leavingHook m hp | pushMeta m hp =>
          simpa [Event.inPushed, Event.taken] using hs
      | _ => exact hs
  | metaFlow m => cases m <;> (cases h; exact hs)
  | pendingMeta m => cases h; exact hs
  | call i =>
      obtain ⟨c, -, rfl⟩ := callStep_cases h
      rcases c with ⟨m, pc⟩ | ⟨m, pc⟩ <;> cases pc
      case metaFlow.push =>
        show inPushes (s.trace ++ [.inPush m]) =
          takenMetas (s.trace ++ [.inPush m]) ++ (s.inQueue ++ [some m]).reduceOption
        rw [inPushes_concat, hs, takenMetas_concat, List.reduceOption_append]
        simp [Event.inPushed, Event.taken]
      case metaFlow.hook | pendingMeta.push | pendingMeta.hook =>
        simpa [callBody, metaFlowBody, pendingMetaBody, Event.inPushed, Event.taken] using hs
      all_goals exact hs
  | deinitialized =>
      obtain ⟨-, rfl⟩ := deinitialized_cases h
      exact hs
  | deinit =>
      cases deinitStep_cases h with
      | push hp => simpa [List.reduceOption_append] using hs
      | _ => exact hs

variable [Meta M] {cfg : NodeConfig M}

theorem handleStep_inFifo (h : s.handleStep cfg = some s') (hs : s.InFifo) : s'.InFifo := by
  unfold InFifo at *
  cases handleStep_cases h with
  | popNull rest hp hq => simpa [hq] using hs
  | popMeta m rest hp hq =>
      rw [hq] at hs
      simpa [Event.inPushed, Event.taken] using hs
  | _ => simpa [Event.inPushed, Event.taken] using hs

theorem reachable_inFifo (h : (vpNode cfg).Reachable s) : s.InFifo := by
  apply h.invariant
  · rintro _ ⟨subscribers, rfl⟩
    rfl
  · intro s s' a _ hs _ hstep
    cases a with
    | handle => exact handleStep_inFifo hstep hs
    | node a => exact nodeStep_inFifo hstep hs

/-! ## `out_queue` -/

end VpNode

namespace Node

variable {H : Type} {s s' : Node H M S}

/-- The entries of `out_queue` that have not been given to `push_meta`: the dispatch thread pops
the head only after `push_meta` returned. -/
def waiting (s : Node H M S) : List (Option M) :=
  if s.dispatch.given.isSome then s.outQueue.tail else s.outQueue

/-- The entries pushed on `out_queue` are the metas given to `push_meta` and the entries that wait,
in this order. -/
def OutFifo (s : Node H M S) : Prop :=
  outPushes s.trace = s.pushedMetas.map some ++ s.waiting

theorem given_current {pc : DispatchPc M S} {m : M} (h : pc.given = some m) :
    pc.current = some m := by
  cases pc <;> first | exact h | cases h

/-- A push on `out_queue` is a push on what waits: the head that is being pushed to the
subscribers is still there. -/
theorem waiting_push (e : Option M) (hdispatch : s'.dispatch = s.dispatch)
    (hqueue : s'.outQueue = s.outQueue ++ [e])
    (hhead : ∀ m, s.dispatch.current = some m → s.outQueue.head? = some (some m)) :
    s'.waiting = s.waiting ++ [e] := by
  unfold waiting
  rw [hdispatch, hqueue]
  cases hg : s.dispatch.given with
  | none => rfl
  | some m =>
      have hne := hhead m (given_current hg)
      cases hq : s.outQueue with
      | nil => simp [hq] at hne
      | cons e' rest => rfl

/-- A step that neither pushes an entry on `out_queue` nor gives one to `push_meta`. -/
theorem OutFifo.same (hs : s.OutFifo) (hwaiting : s'.waiting = s.waiting)
    (hout : outPushes s'.trace = outPushes s.trace)
    (hpush : pushMetas s'.trace = pushMetas s.trace) : s'.OutFifo := by
  show outPushes s'.trace = (pushMetas s'.trace).map some ++ s'.waiting
  rw [hout, hpush, hwaiting]
  exact hs

/-- A step that pushes `e` on `out_queue`. -/
theorem OutFifo.push (hs : s.OutFifo) (e : Option M) (hdispatch : s'.dispatch = s.dispatch)
    (hqueue : s'.outQueue = s.outQueue ++ [e])
    (hhead : ∀ m, s.dispatch.current = some m → s.outQueue.head? = some (some m))
    (hout : outPushes s'.trace = outPushes s.trace ++ [e])
    (hpush : pushMetas s'.trace = pushMetas s.trace) : s'.OutFifo := by
  show outPushes s'.trace = (pushMetas s'.trace).map some ++ s'.waiting
  rw [hout, hpush, waiting_push e hdispatch hqueue hhead, ← List.append_assoc]
  exact congrArg (· ++ [e]) hs

theorem dispatchStep_outFifo (h : s.dispatchStep = some s')
    (hhead : ∀ m, s.dispatch.current = some m → s.outQueue.head? = some (some m))
    (hs : s.OutFifo) : s'.OutFifo := by
  cases dispatchStep_cases h with
  | enter hp _ | leave hp _ | wait hp _ | frontEmpty hp _ | frontNull rest hp _
  | frontMeta m rest hp _ | pop m hp =>
      exact hs.same (by simp [waiting, hp, DispatchPc.given]) rfl rfl
  | publish m rest ph hp =>
      refine hs.same ?_ rfl rfl
      simp only [waiting, publishNext_given]
      simp [hp, DispatchPc.given]
  | leavingHook m hp =>
      exact hs.same (by simp [waiting, hp, DispatchPc.given]) (by simp [Event.outPushed])
        (by simp [Event.pushed])
  | pushMeta m hp =>
      -- the head moves from what waits to what was given away
      have hq := hhead m (by rw [hp]; rfl)
      cases hc : s.outQueue with
      | nil => simp [hc] at hq
      | cons e rest =>
          obtain rfl : e = some m := by simpa [hc] using hq
          have hs' : outPushes s.trace = (pushMetas s.trace).map some ++ s.waiting := hs
          show outPushes (s.trace ++ [.pushMeta m]) =
            (pushMetas (s.trace ++ [.pushMeta m])).map some ++ _
          rw [outPushes_concat, pushMetas_concat, hs']
          simp [waiting, hp, hc, DispatchPc.given, Event.outPushed, Event.pushed]

theorem nodeStep_outFifo [HandleThread H] {a : NodeAct M} (h : s.step a = some s')
    (hhead : ∀ m, s.dispatch.current = some m → s.outQueue.head? = some (some m))
    (hs : s.OutFifo) : s'.OutFifo := by
  cases a with
  | dispatch => exact dispatchStep_outFifo h hhead hs
  | metaFlow m => cases m <;> (cases h; exact hs)
  | pendingMeta m => cases h; exact hs
  | call i =>
      obtain ⟨c, -, rfl⟩ := callStep_cases h
      rcases c with ⟨m, pc⟩ | ⟨m, pc⟩ <;> cases pc
      case pendingMeta.push =>
        exact hs.push m rfl rfl hhead (by simp [callBody, pendingMetaBody, Event.outPushed])
          (by simp [callBody, pendingMetaBody, Event.pushed])
      case metaFlow.signal | pendingMeta.signal => exact hs
      all_goals
        exact hs.same rfl (by simp [callBody, metaFlowBody, pendingMetaBody, Event.outPushed])
          (by simp [callBody, metaFlowBody, pendingMetaBody, Event.pushed])
  | deinitialized =>
      obtain ⟨-, rfl⟩ := deinitialized_cases h
      exact hs
  | deinit => cases deinitStep_cases h <;> exact hs

end Node

namespace VpNode

open Node

variable [Meta M] {cfg : NodeConfig M} {s s' : VpNode M S}

theorem handleStep_outFifo (h : s.handleStep cfg = some s')
    (hhead : ∀ m, s.dispatch.current = some m → s.outQueue.head? = some (some m))
    (hs : s.OutFifo) : s'.OutFifo := by
  cases handleStep_cases h with
  | push i rest hp =>
      exact hs.push i rfl rfl hhead (by simp [Event.outPushed]) (by simp [Event.pushed])
  | deadPush hp =>
      exact hs.push none rfl rfl hhead (by simp [Event.outPushed]) (by simp [Event.pushed])
  | _ => exact hs.same rfl (by simp [Event.outPushed]) (by simp [Event.pushed])

theorem reachable_outFifo (h : (vpNode cfg).Reachable s) : s.OutFifo := by
  apply h.invariant
  · rintro _ ⟨subscribers, rfl⟩
    rfl
  · intro s s' a hr hs _ hstep
    have hhead := (reachable_permitInv hr).head
    cases a with
    | handle => exact handleStep_outFifo hstep hhead hs
    | node a => exact nodeStep_outFifo hstep hhead hs

end VpNode

/-! ## The handle thread -/

/-- The step does not begin a call of `pending_meta`. -/
def VpAct.NoPendingMeta : VpAct M → Prop
  | .node (.pendingMeta _) => False
  | _ => True

instance : ∀ a : VpAct M, Decidable a.NoPendingMeta
  | .node (.pendingMeta _) => isFalse id
  | .node (.metaFlow _) | .node .dispatch | .node (.call _) | .node .deinitialized
  | .node .deinit | .handle => isTrue trivial

/-- The entries of a complete batch that are still to be put on `out_queue`. -/
def HandlePc.uncopied : HandlePc M → List (Option M)
  | .push rest | .handledHook _ rest | .signal rest => rest
  | _ => []

/-- The dead flag, once it is on `out_queue`. -/
def HandlePc.deadFlag : HandlePc M → List (Option M)
  | .deadSignal | .exited => [none]
  | _ => []

/-- The batch cache, without a complete batch that is being copied out. -/
def HandleRun.unfinished (h : HandleRun M) : List (Option M) :=
  match h.pc with
  | .push _ | .handledHook .. | .signal _ => []
  | _ => h.frameMetaBatchCache

namespace Node

/-- No call of `pending_meta` is under way. -/
def NoPendingCall {H : Type} (s : Node H M S) : Prop := ∀ m pc, Call.pendingMeta m pc ∉ s.calls

theorem step_noPendingCall {H : Type} [HandleThread H] {s s' : Node H M S} {a : NodeAct M}
    (h : s.step a = some s') (ha : ∀ m, a ≠ .pendingMeta m) (hs : s.NoPendingCall) :
    s'.NoPendingCall := by
  cases a with
  | dispatch => cases dispatchStep_cases h <;> exact hs
  | metaFlow m =>
      cases m with
      | none => cases h; exact hs
      | some m =>
          cases h
          intro m' pc hc
          rcases List.mem_append.mp hc with hc | hc
          · exact hs m' pc hc
          · cases List.mem_singleton.mp hc
  | pendingMeta m => exact absurd rfl (ha m)
  | call i =>
      obtain ⟨c, hc, rfl⟩ := callStep_cases h
      intro m pc hd
      rcases mem_advance hd with hd | hnext
      · exact hs m pc hd
      · rcases c with ⟨m', pc'⟩ | ⟨m', pc'⟩
        · cases pc' <;> cases hnext
        · exact hs m' pc' (List.mem_of_getElem? hc)
  | deinitialized =>
      obtain ⟨-, rfl⟩ := deinitialized_cases h
      exact hs
  | deinit => cases deinitStep_cases h <;> exact hs

end Node

namespace VpNode

open Node

/-- Nothing but the handle thread pushes on `out_queue`. -/
def NoPending (s : VpNode M S) : Prop := ∀ m pc, Call.pendingMeta m pc ∉ s.calls

variable {s s' : VpNode M S}

theorem nodeStep_noPending {a : NodeAct M} (h : s.step a = some s')
    (ha : (VpAct.node a).NoPendingMeta) (hs : s.NoPending) : s'.NoPending := by
  apply step_noPendingCall h _ hs
  rintro m rfl
  exact ha

variable [Meta M] {cfg : NodeConfig M}

theorem handleStep_calls (h : s.handleStep cfg = some s') : s'.calls = s.calls := by
  cases handleStep_cases h <;> rfl

theorem reachable_noPending (h : (vpNode cfg).ReachableBy (fun _ a => a.NoPendingMeta) s) :
    s.NoPending := by
  apply h.invariant
  · rintro _ ⟨subscribers, rfl⟩ m pc hc
    cases hc
  · intro s s' a _ hs ha hstep
    cases a with
    | node a => exact nodeStep_noPending hstep ha hs
    | handle => rwa [NoPending, handleStep_calls hstep]

/-- The handle thread has run the loop over `input`, with the result `r`; it may still hold a meta
that it has popped, and entries of `r.outQueue` that it has not pushed. -/
structure Simulates (cfg : NodeConfig M) (s : VpNode M S) (input : List M) (r : HandleOut M) :
    Prop where
  run : handleAll cfg input = .ok r
  taken : takenMetas s.trace = input ++ s.handle.pc.inHand.toList
  batches : batches s.trace = r.batches
  cache : s.handle.unfinished = r.cache
  outQueue : outPushes s.trace ++ s.handle.pc.uncopied = r.outQueue ++ s.handle.pc.deadFlag

variable {input : List M} {r : HandleOut M}

/-- A shared thread does not show in the trace of the handle thread. -/
theorem nodeStep_simulates {a : NodeAct M} (h : s.step a = some s') (hp : s.NoPending)
    (hs : s.Simulates cfg input r) : s'.Simulates cfg input r := by
  obtain ⟨hrun, htaken, hbatches, hcache, hout⟩ := hs
  have hh : s'.handle = s.handle := step_handle h
  suffices htrace : takenMetas s'.trace = takenMetas s.trace ∧
      VideoStream.batches s'.trace = VideoStream.batches s.trace ∧
        outPushes s'.trace = outPushes s.trace by
    obtain ⟨h1, h2, h3⟩ := htrace
    exact ⟨hrun, by rw [h1, hh, htaken], by rw [h2, hbatches], by rw [hh, hcache],
      by rw [h3, hh, hout]⟩
  cases a with
  | dispatch =>
      cases dispatchStep_cases h with
      | leavingHook m hp' | pushMeta m hp' =>
          simp [Event.taken, Event.batched, Event.outPushed]
      | _ => exact ⟨rfl, rfl, rfl⟩
  | metaFlow m => cases m <;> (cases h; exact ⟨rfl, rfl, rfl⟩)
  | pendingMeta m => cases h; exact ⟨rfl, rfl, rfl⟩
  | call i =>
      obtain ⟨c, hc, rfl⟩ := callStep_cases h
      rcases c with ⟨m, pc⟩ | ⟨m, pc⟩
      · cases pc <;>
          simp [callBody, metaFlowBody, Event.taken, Event.batched, Event.outPushed]
      · exact absurd (List.mem_of_getElem? hc) (hp m pc)
  | deinitialized =>
      obtain ⟨-, rfl⟩ := deinitialized_cases h
      exact ⟨rfl, rfl, rfl⟩
  | deinit => cases deinitStep_cases h <;> exact ⟨rfl, rfl, rfl⟩

/-- The meta in hand went through the handlers: the loop has made one more iteration. -/
theorem Simulates.handled (hs : s.Simulates cfg input r) {m : M} {h : Handled M} {r' : HandleOut M}
    (hp : s.handle.pc = .callHandlers m)
    (hc : callHandlers cfg s.handle.frameMetaBatchCache m = .ok h)
    (hr' : r' = let batches := if h.batchComplete then r.batches ++ [h.frameMetaBatchCache]
        else r.batches
      match tail m h with
      | .consumed => ⟨[], r.outQueue, batches⟩
      | .emit => ⟨[], r.outQueue ++ h.frameMetaBatchCache, batches⟩
      | .keep => ⟨h.frameMetaBatchCache, r.outQueue, batches⟩)
    (htrace : s'.trace = s.trace ++ batchEvents h) (hin : s'.handle.pc.inHand = none)
    (hcache : s'.handle.unfinished = r'.cache)
    (hout : r.outQueue ++ s'.handle.pc.uncopied = r'.outQueue)
    (hdead : s'.handle.pc.deadFlag = []) : s'.Simulates cfg (input ++ [m]) r' := by
  have hold : s.handle.frameMetaBatchCache = r.cache := by
    rw [← hs.cache, HandleRun.unfinished, hp]
  have hempty : outPushes s.trace = r.outQueue := by
    simpa [hp, HandlePc.uncopied, HandlePc.deadFlag] using hs.outQueue
  rw [hold] at hc
  refine ⟨?_, ?_, ?_, hcache, ?_⟩
  · rw [handleAll_concat, hs.run, hr']
    exact handleMeta_ok hc
  · rw [htrace, takenMetas_batchEvents, hs.taken, hp, hin]
    simp [HandlePc.inHand]
  · rw [htrace, batches_batchEvents, hs.batches, hr']
    cases tail m h <;> rfl
  · rw [htrace, outPushes_batchEvents, hempty, hdead, hout, List.append_nil]

theorem handleStep_simulates (h : s.handleStep cfg = some s') (hthrow : s'.handle.pc ≠ .threw)
    (hs : s.Simulates cfg input r) : ∃ input' r', s'.Simulates cfg input' r' := by
  have ⟨hrun, htaken, hbatches, hcache, hout⟩ := hs
  cases handleStep_cases h with
  | enter hp _ | leave hp _ | wait hp _ | popNull rest hp _ | popMeta m rest hp _
  | handlingHook m hp | push i rest hp | handledHook i rest hp | signal rest hp | deadPush hp
  | deadSignal hp =>
      simp only [hp, HandlePc.inHand, Option.toList_none, Option.toList_some] at htaken
      simp only [HandleRun.unfinished, hp] at hcache
      simp only [hp, HandlePc.uncopied, HandlePc.deadFlag] at hout
      refine ⟨input, r, hrun, ?_, ?_, ?_, ?_⟩
      · simpa [HandlePc.inHand, Event.taken] using htaken
      · simpa [Event.batched] using hbatches
      · simpa [HandleRun.unfinished] using hcache
      · simpa [HandlePc.uncopied, HandlePc.deadFlag, Event.outPushed] using hout
  | pushEnd hp =>
      -- the batch is copied out: now the cache is cleared
      simp only [hp, HandlePc.inHand, Option.toList_none] at htaken
      simp only [HandleRun.unfinished, hp] at hcache
      simp only [hp, HandlePc.uncopied, HandlePc.deadFlag] at hout
      exact ⟨input, r, hrun, htaken, hbatches, hcache, hout⟩
  | throws m msg hp hc => exact absurd rfl hthrow
  | consumed m h hp hc ht =>
      exact ⟨_, _, hs.handled hp hc rfl rfl rfl (by rw [ht]; rfl)
        (by rw [ht]; exact List.append_nil _) rfl⟩
  | emit m h hp hc ht =>
      exact ⟨_, _, hs.handled hp hc rfl rfl rfl (by rw [ht]; rfl) (by rw [ht]; rfl) rfl⟩
  | keep m h hp hc ht =>
      exact ⟨_, _, hs.handled hp hc rfl rfl rfl (by rw [ht]; rfl)
        (by rw [ht]; exact List.append_nil _) rfl⟩

/-- Whatever the interleaving, the handle thread runs the loop. -/
theorem reachable_simulates
    (h : (vpNode cfg).ReachableBy (fun _ a => a.Carries Tagged ∧ a.NoPendingMeta) s) :
    ∃ input r, s.Simulates cfg input r := by
  apply h.invariant (I := fun s => ∃ input r, s.Simulates cfg input r)
  · rintro _ ⟨subscribers, rfl⟩
    exact ⟨[], .start, rfl, rfl, rfl, rfl, rfl⟩
  · rintro s s' a hr ⟨input, r, hs⟩ hc hstep
    cases a with
    | handle =>
        have hr' := System.ReachableBy.step hr hc hstep
        exact handleStep_simulates hstep
          (reachable_noThrow (hr'.mono fun _ _ hc => hc.1)) hs
    | node a =>
        have hp := reachable_noPending (hr.mono fun _ _ hc => hc.2)
        exact ⟨input, r, nodeStep_simulates hstep hp hs⟩

end VpNode

end VideoStream
