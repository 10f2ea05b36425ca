import VideoStream.Nodes.Permits

/-!
# Shutdown of a source node

Only the handle thread can wake the dispatch thread of a source for good: nothing else signals
`out_queue_semaphore` once the callers of `pending_meta` are done. So the dispatch thread ends iff
the dead flag is still there when it tests `alive` for the last time. `handle_run` has exits that
do not see to this:

* a failed `open` returns without a dead flag;
* a failed `read`, or a source found closed, ends the loop while `alive` may still be true. The dead
  flag is pushed, but the dispatch thread may take its permit, test `alive` and enter its `wait`
  again before `deinitialized` clears it.

`EndsDead` excludes these; then no thread is left behind (`not_stuck_of_endsDead`).
`stuck_after_exit` has a run for each of the exits that ends with the dispatch thread waiting for
good, and `deinitialized` in its second join.
-/

namespace VideoStream

open Library

/-! ## The runs in question -/

/-- The steps of threads that are under way: all but the beginnings of calls, and the calls that
open and close the gate. -/
def SrcAct.InProgress {M : Type} : SrcAct M → Prop
  | .handle | .openSource _ | .read _ | .closer => True
  | .node .dispatch | .node (.call _) | .node .deinit => True
  | .node (.metaFlow _) | .node (.pendingMeta _) | .node .deinitialized => False
  | .start | .stop | .speak _ | .deinitialized | .destructor => False

/-- The handle thread has left its loop. -/
def SrcPc.Ended {M : Type} : SrcPc M → Prop
  | .deadPush | .deadSignal | .exited => True
  | _ => False

namespace SrcNode

variable {M S : Type} {s s' : SrcNode M S}

/-- `stop` is not called while a thread closes the node. -/
def NoConcurrentStop (s : SrcNode M S) : SrcAct M → Prop
  | .stop => s.Closable
  | _ => True

/-- The handle thread leaves `handle_run` only after `alive` was cleared; if it leaves without a dead
flag, the dispatch thread is not in its `wait` without a permit. -/
def EndsDead (s : SrcNode M S) : SrcAct M → Prop
  | .openSource false =>
      s.node.handle = .openSource →
        s.node.alive = false ∧ (s.node.dispatch = .wait → 0 < s.node.outQueueSemaphore)
  | .read none => s.node.handle = .reading → s.node.alive = false
  | .handle => s.node.handle = .testOpen → s.isOpened = false → s.node.alive = false
  | _ => True

instance : ∀ a, Decidable (s.NoConcurrentStop a)
  | .stop => inferInstanceAs (Decidable s.Closable)
  | .handle | .openSource _ | .read _ | .closer | .node _ | .start | .speak _ | .deinitialized
  | .destructor => isTrue trivial

instance [DecidableEq M] [DecidableEq S] : ∀ a, Decidable (s.EndsDead a)
  | .openSource false => inferInstanceAs (Decidable (_ → _ ∧ _))
  | .read none => inferInstanceAs (Decidable (_ → _))
  | .handle => inferInstanceAs (Decidable (_ → _ → _))
  | .openSource true | .read (some _) | .stop | .closer | .node _ | .start | .speak _
  | .deinitialized | .destructor => isTrue trivial

/-! ## The invariant -/

/-- What keeps the two waits, for the gate and for `out_queue_semaphore`, from being for good. The
last three fields say that a `deinitialized` that has returned has joined the handle thread, so that
a later `stop` does no harm. -/
structure Shutdown (s : SrcNode M S) : Prop where
  gate : s.node.alive = false ∨ s.node.deinit ≠ .idle → s.gate = true ∨ s.node.handle = .exited
  ended : s.node.handle.Ended → s.node.alive = false
  dispatchWait : s.node.dispatch = .wait → s.node.handle = .exited → 0 < s.node.outQueueSemaphore
  joined : s.node.handleJoinable = false → s.node.handle = .exited
  joinDispatch : s.node.deinit = .joinDispatch → s.node.handleJoinable = false
  idle : s.node.alive = false → s.node.deinit = .idle → s.node.handleJoinable = false

/-- A step of the handle thread to a position in the loop, or out of it after `alive` was cleared;
the exit itself leaves a permit. -/
theorem Shutdown.handle (hs : s.Shutdown) (hne : s.node.handle ≠ .exited)
    (hgate : s'.gate = s.gate) (halive : s'.node.alive = s.node.alive)
    (hdeinit : s'.node.deinit = s.node.deinit)
    (hjoinable : s'.node.handleJoinable = s.node.handleJoinable)
    (hended : s'.node.handle.Ended → s.node.alive = false)
    (hwait : s'.node.dispatch = .wait → s'.node.handle = .exited →
      0 < s'.node.outQueueSemaphore) : s'.Shutdown := by
  refine ⟨fun hd => ?_, fun he => ?_, hwait, fun hj => ?_, fun hd => ?_, fun ha hd => ?_⟩
  · rw [halive, hdeinit] at hd
    rw [hgate]
    exact .inl ((hs.gate hd).resolve_right hne)
  · rw [halive]
    exact hended he
  · rw [hjoinable] at hj
    exact absurd (hs.joined hj) hne
  · rw [hjoinable]
    exact hs.joinDispatch (hdeinit ▸ hd)
  · rw [hjoinable]
    exact hs.idle (halive ▸ ha) (hdeinit ▸ hd)

theorem handleStep_shutdown (h : s.handleStep = some s') (hc : s.EndsDead .handle)
    (hs : s.Shutdown) : s'.Shutdown := by
  cases handleStep_cases h with
  | leave hp ha | notAlive hp ha =>
      exact hs.handle (by simp [hp]) rfl rfl rfl rfl (fun _ => ha) (fun _ hx => nomatch hx)
  | closed hp ho =>
      exact hs.handle (by simp [hp]) rfl rfl rfl rfl (fun _ => hc hp ho) (fun _ hx => nomatch hx)
  | deadPush hp =>
      refine hs.handle (by simp [hp]) rfl rfl rfl rfl (fun _ => ?_) (fun _ hx => nomatch hx)
      exact hs.ended (by simp [hp, SrcPc.Ended])
  | deadSignal hp =>
      refine hs.handle (by simp [hp]) rfl rfl rfl rfl (fun _ => ?_) (fun _ _ => Nat.succ_pos _)
      exact hs.ended (by simp [hp, SrcPc.Ended])
  | isOpen hp _ | notOpen hp _ | enter hp _ | stillOpen hp _ | knock hp _ | stillAlive hp _
  | getFrame hp | push m hp | handleFrame m hp | signal m hp =>
      exact hs.handle (by simp [hp]) rfl rfl rfl rfl (fun he => nomatch he)
        (fun _ hx => nomatch hx)

theorem openStep_shutdown {ok : Bool} (h : s.openStep ok = some s')
    (hc : s.EndsDead (.openSource ok)) (hs : s.Shutdown) : s'.Shutdown := by
  obtain ⟨hp, ⟨rfl, rfl⟩ | ⟨rfl, rfl⟩⟩ := openStep_cases h
  · exact hs.handle (by simp [hp]) rfl rfl rfl rfl (fun he => nomatch he)
      (fun _ hx => nomatch hx)
  · obtain ⟨ha, hd⟩ := hc hp
    exact hs.handle (by simp [hp]) rfl rfl rfl rfl (fun _ => ha) (fun hx _ => hd hx)

theorem readStep_shutdown {r : Option M} (h : s.readStep r = some s')
    (hc : s.EndsDead (.read r)) (hs : s.Shutdown) : s'.Shutdown := by
  obtain ⟨hp, ⟨rfl, rfl⟩ | ⟨m, rfl, rfl⟩⟩ := readStep_cases h
  · exact hs.handle (by simp [hp]) rfl rfl rfl rfl (fun _ => hc hp) (fun _ hx => nomatch hx)
  · exact hs.handle (by simp [hp]) rfl rfl rfl rfl (fun he => nomatch he)
      (fun _ hx => nomatch hx)

theorem nodeStep_shutdown {a : NodeAct M} (h : s.step (.node a) = some s') (hs : s.Shutdown) :
    s'.Shutdown := by
  obtain ⟨hbase, node, hn, rfl⟩ := nodeStep_cases h
  obtain ⟨hg, he, hw, hj, hjd, hi⟩ := hs
  cases a with
  | dispatch =>
      cases Node.dispatchStep_cases hn with
      | enter hp ha =>
          -- a handle thread that is gone left after `alive` was cleared
          refine ⟨hg, he, fun _ hx => ?_, hj, hjd, hi⟩
          have hdead := he (show SrcPc.Ended s.node.handle by rw [hx]; trivial)
          exact absurd hdead (by simp [ha])
      | publish m rest ph hp =>
          refine ⟨hg, he, fun hx => ?_, hj, hjd, hi⟩
          have hholds := Node.publishNext_holds (S := S) m rest ph
          rw [show Node.publishNext m rest ph = .wait from hx] at hholds
          cases hholds
      | _ => exact ⟨hg, he, fun hx => (nomatch hx), hj, hjd, hi⟩
  | metaFlow m => cases m <;> (cases hn; exact ⟨hg, he, hw, hj, hjd, hi⟩)
  | pendingMeta m => cases hn; exact ⟨hg, he, hw, hj, hjd, hi⟩
  | call i =>
      obtain ⟨c, -, rfl⟩ := Node.callStep_cases hn
      rcases c with ⟨m, pc⟩ | ⟨m, pc⟩ <;> cases pc
      case pendingMeta.signal => exact ⟨hg, he, fun _ _ => Nat.succ_pos _, hj, hjd, hi⟩
      all_goals exact ⟨hg, he, hw, hj, hjd, hi⟩
  | deinitialized => exact absurd rfl hbase
  | deinit =>
      cases Node.deinitStep_cases hn with
      | alive hp =>
          refine ⟨fun _ => hg (.inr (by simp [hp])), fun _ => rfl, hw, hj, fun hx => (nomatch hx),
            fun _ hx => (nomatch hx)⟩
      | push hp | signal hp =>
          refine ⟨fun _ => hg (.inr (by simp [hp])), he, hw, hj, fun hx => (nomatch hx),
            fun _ hx => (nomatch hx)⟩
      | joinHandle hp hx =>
          have hexited : s.node.handle = .exited := by
            cases hb : s.node.handleJoinable with
            | false => exact hj hb
            | true =>
                have hret := hx hb
                cases hh : s.node.handle <;> rw [hh] at hret <;> first | rfl | cases hret
          exact ⟨fun _ => .inr hexited, he, hw, fun _ => hexited, fun _ => rfl,
            fun _ hx => (nomatch hx)⟩
      | joinDispatch hp _ =>
          have hjoined := hjd hp
          exact ⟨fun _ => .inr (hj hjoined), he, hw, hj, fun hx => (nomatch hx),
            fun _ _ => hjoined⟩

theorem step_shutdown {a : SrcAct M} (h : s.step a = some s') (hstop : s.NoConcurrentStop a)
    (hc : s.EndsDead a) (hs : s.Shutdown) : s'.Shutdown := by
  cases a with
  | handle => exact handleStep_shutdown h hc hs
  | openSource ok => exact openStep_shutdown h hc hs
  | read r => exact readStep_shutdown h hc hs
  | node a => exact nodeStep_shutdown h hs
  | start =>
      cases h
      exact ⟨fun _ => .inl rfl, hs.ended, hs.dispatchWait, hs.joined, hs.joinDispatch, hs.idle⟩
  | stop =>
      cases h
      refine ⟨fun hd => ?_, hs.ended, hs.dispatchWait, hs.joined, hs.joinDispatch, hs.idle⟩
      -- nobody is closing the node, so a dead node has joined its handle thread
      rcases hd with ha | hd
      · exact .inr (hs.joined (hs.idle ha hstop.2))
      · exact absurd hstop.2 hd
  | speak m =>
      cases h
      exact ⟨hs.gate, hs.ended, hs.dispatchWait, hs.joined, hs.joinDispatch, hs.idle⟩
  | deinitialized =>
      obtain ⟨-, rfl⟩ := deinitialized_cases h
      exact ⟨hs.gate, hs.ended, hs.dispatchWait, hs.joined, hs.joinDispatch, hs.idle⟩
  | destructor =>
      obtain ⟨-, rfl⟩ := destructor_cases h
      exact ⟨hs.gate, hs.ended, hs.dispatchWait, hs.joined, hs.joinDispatch, hs.idle⟩
  | closer =>
      rcases closerStep_cases h with ⟨hp, rfl⟩ | ⟨hp, rfl⟩
      · exact ⟨hs.gate, hs.ended, hs.dispatchWait, hs.joined, hs.joinDispatch, hs.idle⟩
      · exact ⟨fun _ => .inl rfl, hs.ended, hs.dispatchWait, hs.joined, fun hx => (nomatch hx),
          fun _ hx => (nomatch hx)⟩

theorem reachable_shutdown
    (h : vpSrcNode.ReachableBy (fun s a => s.NoConcurrentStop a ∧ s.EndsDead a) s) :
    s.Shutdown := by
  apply h.invariant
  · rintro _ ⟨isOpened, subscribers, rfl⟩
    refine ⟨?_, fun he => (nomatch he), fun hx => (nomatch hx), fun hx => (nomatch hx),
      fun hx => (nomatch hx), fun ha => (nomatch ha)⟩
    rintro (ha | hd)
    · cases ha
    · exact absurd rfl hd
  · intro s s' a _ hs hc hstep
    exact step_shutdown hstep hc.1 hc.2 hs

/-! ## No thread is left behind -/

/-- A handle thread that has not returned can step, if need be by the return of `open` or `read`. -/
theorem handle_enabled (hgate : s.node.handle = .knock → s.gate = true)
    (hexited : s.node.handle ≠ .exited) :
    s.step .handle ≠ none ∨ s.step (.openSource true) ≠ none ∨ s.step (.read none) ≠ none := by
  show s.handleStep ≠ none ∨ s.openStep true ≠ none ∨ s.readStep none ≠ none
  unfold handleStep openStep readStep
  cases hp : s.node.handle with
  | isOpen => left; cases s.isOpened <;> simp
  | openSource => simp
  | test => left; cases s.node.alive <;> simp
  | testOpen => left; cases s.isOpened <;> simp
  | knock => simp [hgate hp]
  | testAlive => left; cases s.node.alive <;> simp
  | reading => simp
  | getFrame | push m | handleFrame m | signal m | deadPush | deadSignal => simp
  | exited => exact absurd hp hexited

end SrcNode

/-- In every run in which the handle thread leaves `handle_run` only after `alive` was cleared, some
thread that is under way can step after `alive` was cleared, until both threads have returned. -/
theorem not_stuck_of_endsDead {M S : Type} {s : SrcNode M S}
    (h : vpSrcNode.ReachableBy (fun s a => s.NoConcurrentStop a ∧ s.EndsDead a) s)
    (ha : s.node.alive = false)
    (hleft : s.node.handle ≠ .exited ∨ s.node.dispatch ≠ .exited) :
    ¬ vpSrcNode.Stuck SrcAct.InProgress s := by
  intro hstuck
  have hinv := SrcNode.reachable_shutdown h
  have hguard := (SrcNode.reachable_permitInv h.reachable).guarded
  by_cases hx : s.node.handle = .exited
  · have hdx := hleft.resolve_left fun hne => hne hx
    have hdispatch := hstuck (.node .dispatch) trivial
    refine Node.dispatchStep_enabled (fun hw => hinv.dispatchWait hw hx) hdx hguard.noThrow ?_
    exact Option.map_eq_none_iff.mp hdispatch
  · have hgate := (hinv.gate (.inl ha)).resolve_right hx
    rcases SrcNode.handle_enabled (fun _ => hgate) hx with hne | hne | hne
    · exact hne (hstuck .handle trivial)
    · exact hne (hstuck (.openSource true) trivial)
    · exact hne (hstuck (.read none) trivial)

/-- One frame on its way, then the destructor, with the handle thread past the test of `alive` when
`alive` is cleared. -/
def frameThenDestructor : List (SrcAct MetaPtr) :=
  [.start, .handle, .openSource true, .handle, .handle, .handle, .handle, .handle,
    .read (some (.frame 0)), .handle, .handle, .handle, .node .dispatch, .node .dispatch,
    .node .dispatch, .node .dispatch, .node .dispatch, .node .dispatch, .node .dispatch,
    .node .dispatch, .handle, .destructor, .closer, .closer, .node .deinit, .handle]

theorem not_stuck_of_endsDead_frameThenDestructor :
    ∃ s : SrcNode MetaPtr Nat,
      vpSrcNode.ReachableBy (fun s a => s.NoConcurrentStop a ∧ s.EndsDead a) s ∧
        (s.node.alive = false ∧ s.node.handle = .deadPush ∧ s.node.dispatch = .wait) ∧
          ¬ vpSrcNode.Stuck SrcAct.InProgress s := by
  have hinit : vpSrcNode.ReachableBy (fun s a => s.NoConcurrentStop a ∧ s.EndsDead a)
      (SrcNode.start false [] : SrcNode MetaPtr Nat) := .init ⟨false, [], rfl⟩
  obtain ⟨s, hr, hp⟩ := hinit.exists_of_run
    (p := fun s => s.node.alive = false ∧ s.node.handle = .deadPush ∧ s.node.dispatch = .wait)
    frameThenDestructor (by decide) (by decide)
  exact ⟨s, hr, hp, not_stuck_of_endsDead hr hp.1 (.inl (by simp [hp.2.1]))⟩

/-! ## The exits that leave the dispatch thread behind -/

/-- `deinitialized` joins the dispatch thread, which waits for a permit that nobody will give. -/
def SrcNode.Hung {M S : Type} (s : SrcNode M S) : Prop :=
  (s.node.alive = false ∧ s.node.handle = .exited ∧ s.node.dispatch = .wait ∧
    s.node.outQueueSemaphore = 0) ∧
  (s.node.calls = [] ∧ s.node.deinit = .joinDispatch ∧ s.node.dispatchJoinable = true ∧
    s.closer = .idle)

instance {M S : Type} [DecidableEq M] [DecidableEq S] (s : SrcNode M S) : Decidable s.Hung :=
  inferInstanceAs (Decidable ((_ ∧ _) ∧ (_ ∧ _)))

theorem SrcNode.Hung.stuck {M S : Type} {s : SrcNode M S} (h : s.Hung) :
    vpSrcNode.Stuck SrcAct.InProgress s := by
  obtain ⟨⟨-, hh, hd, hsem⟩, hcalls, hdeinit, hj, hcloser⟩ := h
  intro a ha
  cases a with
  | handle => show s.handleStep = none; simp [handleStep, hh]
  | openSource ok => show s.openStep ok = none; simp [openStep, hh]
  | read r => show s.readStep r = none; simp [readStep, hh]
  | closer => show s.closerStep = none; simp [closerStep, hcloser]
  | node a =>
      cases a with
      | dispatch =>
          show (s.node.dispatchStep).map _ = none
          simp [Node.dispatchStep, hd, hsem]
      | call i =>
          show (s.node.callStep i).map _ = none
          simp [Node.callStep, hcalls]
      | deinit =>
          show (s.node.deinitStep).map _ = none
          simp [Node.deinitStep, hdeinit, hj, hd, DispatchPc.hasExited]
      | metaFlow m | pendingMeta m | deinitialized => cases ha
  | start | stop | speak m | deinitialized | destructor => cases ha

/-- `open` fails; the dispatch thread is in its `wait`. -/
def openFails : List (SrcAct MetaPtr) :=
  [.handle, .openSource false, .node .dispatch, .deinitialized, .closer, .node .deinit,
    .node .deinit, .node .deinit, .node .deinit]

/-- `deinitialized` opens the gate, and `read` fails before it clears `alive`. -/
def readFails : List (SrcAct MetaPtr) :=
  [.handle, .openSource true, .handle, .handle, .deinitialized, .closer, .handle, .handle, .handle,
    .read none, .handle, .handle, .node .dispatch, .node .dispatch, .node .dispatch,
    .node .dispatch, .node .deinit, .node .deinit, .node .deinit, .node .deinit]

/-- The destructor closes the source, and the handle thread sees it before `alive` is cleared. -/
def sourceClosed : List (SrcAct MetaPtr) :=
  [.handle, .openSource true, .handle, .destructor, .closer, .handle, .handle, .handle,
    .node .dispatch, .node .dispatch, .node .dispatch, .node .dispatch, .closer, .node .deinit,
    .node .deinit, .node .deinit, .node .deinit]

/-- The run of `as` ends in a state in which the dispatch thread is left behind. -/
def LeftBehindBy (as : List (SrcAct MetaPtr)) : Prop :=
  ∃ s : SrcNode MetaPtr Nat, vpSrcNode.run (SrcNode.start false []) as = some s ∧
    vpSrcNode.ReachableBy SrcNode.NoConcurrentStop s ∧ s.node.alive = false ∧
      s.node.dispatch ≠ .exited ∧ vpSrcNode.Stuck SrcAct.InProgress s

theorem leftBehindBy_of_hung {as : List (SrcAct MetaPtr)}
    (hrun : (vpSrcNode.run (SrcNode.start false [] : SrcNode MetaPtr Nat) as).any
      (fun s => s.Hung) = true)
    (halong : vpSrcNode.Along SrcNode.NoConcurrentStop
      (SrcNode.start false [] : SrcNode MetaPtr Nat) as) : LeftBehindBy as := by
  have hinit : vpSrcNode.ReachableBy SrcNode.NoConcurrentStop
      (SrcNode.start false [] : SrcNode MetaPtr Nat) := .init ⟨false, [], rfl⟩
  obtain ⟨s, hs, hp⟩ := (Option.any_eq_true _ _).mp hrun
  have hhung : s.Hung := of_decide_eq_true hp
  exact ⟨s, hs, hinit.of_run halong hs, hhung.1.1, by simp [hhung.1.2.2.1], hhung.stuck⟩

/-- Each of the three exits can leave the dispatch thread waiting for good. -/
theorem stuck_after_exit :
    LeftBehindBy openFails ∧ LeftBehindBy readFails ∧ LeftBehindBy sourceClosed :=
  ⟨leftBehindBy_of_hung (by decide) (by decide), leftBehindBy_of_hung (by decide) (by decide),
    leftBehindBy_of_hung (by decide) (by decide)⟩

end VideoStream
