import VideoStream.Nodes.Awaits
import VideoStream.Nodes.Permits

/-!
# Shutdown of a plain node

`deinitialized` sets `alive` to false and only then signals `in_queue_semaphore`; the handle thread
leaves its loop and only then signals `out_queue_semaphore`. Both threads test `alive` after every
permit they take. So a thread that entered its `wait` while the node was alive is woken by a signal
that is given after `alive` was cleared, and the next thing it does is the test that ends it; a
thread that tests later does not enter `wait` again. The permits may stand for any entries — the
null of `deinitialized` need not be the one that is popped.

`Shutdown` states this for the two waits, and `not_stuck_of_not_alive` is the result: no thread is
left behind.
-/

namespace VideoStream

open Library Meta

/-! ## When a thread can step -/

namespace VpNode

variable {M S : Type} [Meta M] {cfg : NodeConfig M} {s s' : VpNode M S}

theorem handleStep_enabled (hwait : s.handle.pc = .wait → 0 < s.inQueueSemaphore)
    (hpop : s.handle.pc = .pop → s.inQueue ≠ []) (hexited : s.handle.pc ≠ .exited)
    (hthrew : s.handle.pc ≠ .threw) : s.handleStep cfg ≠ none := by
  unfold handleStep
  cases hp : s.handle.pc with
  | test => cases s.alive <;> simp
  | wait => simp [hwait hp]
  | pop =>
      have hne := hpop hp
      rcases hq : s.inQueue with _ | ⟨_ | m, rest⟩
      · exact absurd hq hne
      · simp
      · simp
  | callHandlers m =>
      cases hc : callHandlers cfg s.handle.frameMetaBatchCache m with
      | error msg => simp [hc]
      | ok r => cases ht : tail m r <;> simp [hc, ht]
  | push rest => cases rest <;> simp
  | handlingHook m | handledHook i rest | signal rest | deadPush | deadSignal => simp
  | exited => exact absurd hp hexited
  | threw => exact absurd hp hthrew

end VpNode

/-! ## The invariant of the two waits -/

namespace VpNode

open Node

variable {M S : Type} {s s' : VpNode M S}

/-- What keeps the two waits from being for good. -/
structure Shutdown (s : VpNode M S) : Prop where
  /-- the handle thread entered its `wait` before `alive` was cleared: the signal is to come, or
  it is there -/
  handleWait : s.alive = false → s.handle.pc = .wait →
    s.deinit = .push ∨ s.deinit = .signal ∨ 0 < s.inQueueSemaphore
  /-- the signal of the dead flag has not been taken -/
  dispatchWait : s.dispatch = .wait → s.handle.pc = .exited → 0 < s.outQueueSemaphore
  left : s.handle.pc = .deadPush ∨ s.handle.pc = .deadSignal ∨ s.handle.pc = .exited →
    s.alive = false

theorem nodeStep_shutdown {a : NodeAct M} (h : s.step a = some s') (hs : s.Shutdown) :
    s'.Shutdown := by
  obtain ⟨hw, hd, hl⟩ := hs
  have hh : s'.handle = s.handle := step_handle h
  have hleft : s'.handle.pc = .deadPush ∨ s'.handle.pc = .deadSignal ∨ s'.handle.pc = .exited →
      s'.alive = false := fun hp => step_alive h (hl (hh ▸ hp))
  cases a with
  | dispatch =>
      cases dispatchStep_cases h with
      | enter hp ha =>
          -- a thread that has left its loop did so after `alive` was cleared
          refine ⟨hw, fun _ hx => ?_, hleft⟩
          exact absurd (hl (.inr (.inr hx))) (by simp [ha])
      | publish m rest ph hp =>
          refine ⟨hw, fun hx => ?_, hleft⟩
          have := publishNext_holds (S := S) m rest ph
          rw [show publishNext m rest ph = .wait from hx] at this
          cases this
      | _ => exact ⟨hw, fun hx => (nomatch hx), hleft⟩
  | metaFlow m => cases m <;> (cases h; exact ⟨hw, hd, hleft⟩)
  | pendingMeta m => cases h; exact ⟨hw, hd, hleft⟩
  | call i =>
      obtain ⟨c, -, rfl⟩ := callStep_cases h
      rcases c with ⟨m, pc⟩ | ⟨m, pc⟩ <;> cases pc
      case metaFlow.signal =>
        exact ⟨fun _ _ => .inr (.inr (Nat.succ_pos _)), hd, hleft⟩
      case pendingMeta.signal => exact ⟨hw, fun _ _ => Nat.succ_pos _, hleft⟩
      all_goals exact ⟨hw, hd, hleft⟩
  | deinitialized =>
      obtain ⟨hi, rfl⟩ := deinitialized_cases h
      refine ⟨fun ha hp => ?_, hd, hleft⟩
      rcases hw ha hp with hw | hw | hw
      · exact absurd hw (by simp [hi])
      · exact absurd hw (by simp [hi])
      · exact .inr (.inr hw)
  | deinit =>
      cases deinitStep_cases h with
      | alive hp => exact ⟨fun _ _ => .inl rfl, hd, hleft⟩
      | push hp => exact ⟨fun _ _ => .inr (.inl rfl), hd, hleft⟩
      | signal hp => exact ⟨fun _ _ => .inr (.inr (Nat.succ_pos _)), hd, hleft⟩
      | joinHandle hp _ | joinDispatch hp _ =>
          refine ⟨fun ha hx => ?_, hd, hleft⟩
          rcases hw ha hx with hw | hw | hw
          · exact absurd hw (by simp [hp])
          · exact absurd hw (by simp [hp])
          · exact .inr (.inr hw)

variable [Meta M] {cfg : NodeConfig M}

theorem handleStep_shutdown (h : s.handleStep cfg = some s') (hs : s.Shutdown) : s'.Shutdown := by
  obtain ⟨hw, hd, hl⟩ := hs
  cases handleStep_cases h with
  | enter hp ha => exact ⟨fun hx => absurd hx (by simp [ha]), fun _ hx => (nomatch hx), by simp⟩
  | leave hp ha => exact ⟨fun _ hx => (nomatch hx), fun _ hx => (nomatch hx), fun _ => ha⟩
  | deadPush hp =>
      exact ⟨fun _ hx => (nomatch hx), fun _ hx => (nomatch hx), fun _ => hl (.inl hp)⟩
  | deadSignal hp =>
      exact ⟨fun _ hx => (nomatch hx), fun _ _ => Nat.succ_pos _, fun _ => hl (.inr (.inl hp))⟩
  | _ => exact ⟨fun _ hx => (nomatch hx), fun _ hx => (nomatch hx), by simp⟩

theorem reachable_shutdown (h : (vpNode cfg).Reachable s) : s.Shutdown := by
  apply h.invariant
  · rintro _ ⟨subscribers, rfl⟩
    exact ⟨fun ha => (nomatch ha), fun hx => (nomatch hx), by simp [start, Node.start]⟩
  · intro s s' a _ hs _ hstep
    cases a with
    | handle => exact handleStep_shutdown hstep hs
    | node a => exact nodeStep_shutdown hstep hs

end VpNode

/-! ## No thread is left behind -/

/-- The steps of threads that are under way: all but the beginnings of calls. -/
def VpAct.InProgress {M : Type} : VpAct M → Prop
  | .handle | .node .dispatch | .node (.call _) | .node .deinit => True
  | .node (.metaFlow _) | .node (.pendingMeta _) | .node .deinitialized => False

/-- After `alive` was cleared, some thread that is under way can step until the handle thread and
the dispatch thread have both returned. -/
theorem not_stuck_of_not_alive {M S : Type} [Meta M] {cfg : NodeConfig M} {s : VpNode M S}
    (h : (vpNode cfg).ReachableBy (fun _ a => a.Carries Tagged) s) (ha : s.alive = false)
    (hleft : s.handle.pc ≠ .exited ∨ s.dispatch ≠ .exited) :
    ¬ (vpNode cfg).Stuck VpAct.InProgress s := by
  intro hstuck
  have hguard := (VpNode.reachable_permitInv h.reachable).guarded
  have hinv := VpNode.reachable_shutdown h.reachable
  have hhandle : s.handleStep cfg = none := hstuck .handle trivial
  have hdispatch : s.dispatchStep = none := hstuck (.node .dispatch) trivial
  have hdeinit : s.deinitStep = none := hstuck (.node .deinit) trivial
  by_cases hx : s.handle.pc = .exited
  · -- the handle thread is gone, and its dead flag is signalled
    have hdx := hleft.resolve_left fun hne => hne hx
    exact Node.dispatchStep_enabled (fun hw => hinv.dispatchWait hw hx) hdx hguard.noThrow
      hdispatch
  · refine VpNode.handleStep_enabled (fun hw => ?_) (fun hp => ?_) hx
      (VpNode.reachable_noThrow h) hhandle
    · rcases hinv.handleWait ha hw with hd | hd | hpos
      · exact absurd hdeinit (Node.deinitStep_enabled (.inr (.inl hd)))
      · exact absurd hdeinit (Node.deinitStep_enabled (.inr (.inr hd)))
      · exact hpos
    · exact hguard.waitAndPop (by simp [PermitAccount.holds, hp, HandlePc.holds])

/-- Both threads enter their waits, `meta_flow` of a frame begins, and then `deinitialized` clears
`alive`. -/
def waitThenDeinit : List (VpAct MetaPtr) :=
  [.handle, .node .dispatch, .node (.metaFlow (some (.frame 0))), .node .deinitialized,
    .node .deinit]

theorem not_stuck_of_not_alive_waitThenDeinit :
    ∃ s, baseNode.ReachableBy (fun _ a => a.Carries Tagged) s ∧
      (s.alive = false ∧ s.handle.pc = .wait ∧ s.dispatch = .wait) ∧
        ¬ baseNode.Stuck VpAct.InProgress s := by
  have hinit : baseNode.ReachableBy (fun _ a => a.Carries Tagged) (VpNode.start []) := .init ⟨[], rfl⟩
  obtain ⟨s, hr, hp⟩ := hinit.exists_of_run
    (p := fun s => s.alive = false ∧ s.handle.pc = .wait ∧ s.dispatch = .wait)
    waitThenDeinit (by decide) (by decide)
  exact ⟨s, hr, hp, not_stuck_of_not_alive hr hp.1 (.inl (by simp [hp.2.1]))⟩

end VideoStream
