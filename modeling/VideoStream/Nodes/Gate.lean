import VideoStream.Nodes.VpSrcNode

/-!
# The gate of a source node

`stop` closes the gate and `start` opens it; the handle thread knocks once in each iteration, and
tests `alive` a second time behind the gate. `deinitialized` opens the gate too, so that the handle
thread gets out of `knock`, and clears `alive` some time later.

As in the model of the node, `start` and `stop` are one critical section each. A `start` that waits
for the mutex of the gate while `stop` holds it comes after: it is the next `start`, and ends the
period behind the `stop`.

Both uses of the gate fail in the window between the two steps of `deinitialized`.

* A stopped source is let through the gate by `deinitialized`, finds `alive` still true and goes on
  producing (`frames_while_stopped`). `FindsDead` excludes this, and then a stopped source begins no
  frame but the one it was past the gate for (`silent_while_stopped`).
* A `stop` in the window, or after it, closes the gate again. A handle thread that passed its test of
  `alive` before waits in `knock` for good (`wedged_by_stop`). `GateKept` excludes this
  (`not_wedged_of_gateKept`), and no less (`wedged_of_not_gateKept`).
-/

namespace VideoStream

open Library

variable {M S : Type}

/-! ## While the source is stopped -/

/-- `get_frame_meta` begins. -/
def Event.beginsFrame : Event M → Bool
  | .getFrame => true
  | _ => false

/-- How many calls of `get_frame_meta` have begun. -/
def framesBegun (t : List (Event M)) : Nat := t.countP Event.beginsFrame

@[simp] theorem framesBegun_concat (t : List (Event M)) (e : Event M) :
    framesBegun (t ++ [e]) = framesBegun t + if e.beginsFrame then 1 else 0 := by
  rw [framesBegun, List.countP_append, List.countP_singleton]
  rfl

/-- The handle thread is between the gate and `get_frame_meta`. -/
def SrcPc.pastGate : SrcPc M → Nat
  | .testAlive | .getFrame => 1
  | _ => 0

@[simp] theorem SrcPc.pastGate_knock : (SrcPc.knock : SrcPc M).pastGate = 0 := rfl

/-- The step passes the gate. -/
def SrcNode.passesGate (s : SrcNode M S) : SrcAct M → Bool
  | .handle =>
      match s.node.handle with
      | .knock => true
      | _ => false
  | _ => false

theorem SrcNode.passesGate_knock {s : SrcNode M S} (h : s.node.handle = .knock) :
    s.passesGate .handle = true := by
  rw [passesGate, h]

theorem SrcNode.passesGate_of_ne {s : SrcNode M S} (h : s.node.handle ≠ .knock) :
    s.passesGate .handle = false := by
  show (match s.node.handle with | .knock => true | _ => false) = false
  split
  · contradiction
  · rfl

theorem SrcNode.passesGate_other {s : SrcNode M S} {a : SrcAct M} (h : a ≠ .handle) :
    s.passesGate a = false := by
  cases a with
  | handle => exact absurd rfl h
  | _ => rfl

/-- The state of a source in a period in which `start` is not called, and whether the handle thread
has passed the gate in it. -/
structure Stopped (M S : Type) where
  src : SrcNode M S
  knocked : Bool

/-- The period behind a `stop` that has returned in the state `s₀`, until the next `start`. -/
def stoppedFrom (s₀ : SrcNode M S) : System (Stopped M S) (SrcAct M) where
  init p := p = ⟨s₀, false⟩
  step p a :=
    match a with
    | .start => none
    | a => (p.src.step a).map fun s => ⟨s, p.knocked || p.src.passesGate a⟩

theorem stoppedFrom_cases {s₀ : SrcNode M S} {p p' : Stopped M S} {a : SrcAct M}
    (h : (stoppedFrom s₀).step p a = some p') :
    a ≠ .start ∧ p.src.step a = some p'.src ∧ p'.knocked = (p.knocked || p.src.passesGate a) := by
  cases a with
  | start => cases h
  | stop | speak m => cases h; exact ⟨by simp, rfl, rfl⟩
  | _ =>
      obtain ⟨s, hs, rfl⟩ := Option.map_eq_some_iff.mp h
      exact ⟨by simp, hs, rfl⟩

/-- Behind a gate that it passed in the period, the handle thread does not find `alive` true while
`deinitialized` is between `gate.open()` and `alive = false`. -/
def FindsDead (p : Stopped M S) : SrcAct M → Prop
  | .handle => p.src.node.handle = .testAlive → p.src.node.alive = true →
      p.src.node.deinit = .alive → p.knocked = false
  | _ => True

instance decidableFindsDead [DecidableEq M] (p : Stopped M S) : ∀ a, Decidable (FindsDead p a)
  | .handle => inferInstanceAs (Decidable (_ → _ → _ → _))
  | .openSource _ | .read _ | .closer | .node _ | .start | .stop | .speak _ | .deinitialized
  | .destructor => isTrue trivial

namespace Stopped

variable {s₀ : SrcNode M S} {p p' : Stopped M S}

/-- The gate is closed, and the handle thread on its side of it, unless `deinitialized` has opened
it; and of the frames that the handle thread was past the gate for, none is begun twice. -/
structure Silent (s₀ : SrcNode M S) (p : Stopped M S) : Prop where
  window : p.src.gate = true ∨ p.knocked = true →
    p.src.node.alive = false ∨ p.src.node.deinit = .alive
  unseen : p.knocked = true → p.src.node.handle ≠ .getFrame
  frames : framesBegun p.src.node.trace +
      (if p.knocked then 0 else p.src.node.handle.pastGate) ≤
    framesBegun s₀.node.trace + s₀.node.handle.pastGate

/-- A step that leaves the gate alone and begins no frame, at a position of the handle thread that
is not past the gate. -/
theorem Silent.away (hs : p.Silent s₀) (hgate : p'.src.gate = p.src.gate)
    (hknocked : p'.knocked = p.knocked) (halive : p'.src.node.alive = p.src.node.alive)
    (hdeinit : p'.src.node.deinit = p.src.node.deinit)
    (htrace : framesBegun p'.src.node.trace = framesBegun p.src.node.trace)
    (hpast : p'.src.node.handle.pastGate = 0) : p'.Silent s₀ := by
  have hframes := hs.frames
  refine ⟨?_, ?_, ?_⟩
  · rw [hgate, hknocked, halive, hdeinit]
    exact hs.window
  · intro _ hp
    rw [hp] at hpast
    cases hpast
  · rw [htrace, hpast]
    split at hframes <;> split <;> omega

/-- A step of another thread. -/
theorem Silent.other (hs : p.Silent s₀) (hknocked : p'.knocked = p.knocked)
    (hhandle : p'.src.node.handle = p.src.node.handle)
    (htrace : framesBegun p'.src.node.trace = framesBegun p.src.node.trace)
    (hwindow : p'.src.gate = true ∨ p.knocked = true →
      p'.src.node.alive = false ∨ p'.src.node.deinit = .alive) : p'.Silent s₀ := by
  refine ⟨?_, ?_, ?_⟩
  · rw [hknocked]
    exact hwindow
  · rw [hknocked, hhandle]
    exact hs.unseen
  · rw [htrace, hknocked, hhandle]
    exact hs.frames

/-- A step of the handle thread that neither passes the gate nor begins a frame. -/
theorem Silent.beside (hs : p.Silent s₀) (hknock : p.src.node.handle ≠ .knock)
    (hknocked : p'.knocked = (p.knocked || p.src.passesGate .handle))
    (hgate : p'.src.gate = p.src.gate) (halive : p'.src.node.alive = p.src.node.alive)
    (hdeinit : p'.src.node.deinit = p.src.node.deinit)
    (htrace : framesBegun p'.src.node.trace = framesBegun p.src.node.trace)
    (hpast : p'.src.node.handle.pastGate = 0) : p'.Silent s₀ := by
  rw [SrcNode.passesGate_of_ne hknock, Bool.or_false] at hknocked
  exact hs.away hgate hknocked halive hdeinit htrace hpast

theorem handleStep_silent (h : p.src.handleStep = some p'.src)
    (hknocked : p'.knocked = (p.knocked || p.src.passesGate .handle))
    (hc : FindsDead p .handle) (hs : p.Silent s₀) : p'.Silent s₀ := by
  have hstep := SrcNode.handleStep_cases h
  generalize hsrc : p'.src = src at hstep
  cases hstep with
  | knock hp hg =>
      -- the gate is open, so the window is; the frame begun from here on is not counted
      rw [SrcNode.passesGate_knock hp, Bool.or_true] at hknocked
      have hframes := hs.frames
      refine ⟨fun _ => ?_, fun _ hx => ?_, ?_⟩
      · rw [hsrc]
        exact hs.window (.inl hg)
      · rw [hsrc] at hx
        cases hx
      · rw [hp] at hframes
        rw [hsrc, if_pos hknocked]
        simpa only [SrcPc.pastGate_knock, ite_self] using hframes
  | stillAlive hp ha =>
      rw [SrcNode.passesGate_of_ne (by simp [hp]), Bool.or_false] at hknocked
      have hframes := hs.frames
      refine ⟨fun hw => ?_, fun hk _ => ?_, ?_⟩
      · rw [hsrc] at hw ⊢
        rw [hknocked] at hw
        exact hs.window hw
      · -- the gate was open in the period, so `deinitialized` is in its window
        rw [hknocked] at hk
        rcases hs.window (.inr hk) with hdead | hd
        · simp [ha] at hdead
        · simp [hc hp ha hd] at hk
      · rw [hp] at hframes
        rw [hsrc, hknocked]
        exact hframes
  | getFrame hp =>
      -- only the frame of a thread that was past the gate before the period
      rw [SrcNode.passesGate_of_ne (by simp [hp]), Bool.or_false] at hknocked
      have hframes := hs.frames
      have hunknocked : p.knocked = false := by
        by_contra hk
        exact hs.unseen (by simpa using hk) hp
      refine ⟨fun hw => ?_, fun hk _ => ?_, ?_⟩
      · rw [hsrc] at hw ⊢
        rw [hknocked] at hw
        exact hs.window hw
      · simp [hknocked, hunknocked] at hk
      · rw [hp, hunknocked] at hframes
        rw [hsrc, hknocked, hunknocked]
        rw [framesBegun_concat]
        exact hframes
  | isOpen hp _ | notOpen hp _ | enter hp _ | leave hp _ | stillOpen hp _ | closed hp _
  | notAlive hp _ | push m hp | handleFrame m hp | signal m hp | deadPush hp | deadSignal hp =>
      apply hs.beside (by simp [hp]) hknocked <;> rw [hsrc]
      all_goals first | rfl | simp [Event.beginsFrame]

/-- The node's other threads begin no frame, and `alive` is cleared where the window ends. -/
theorem nodeStep_silent {a : NodeAct M} (h : p.src.step (.node a) = some p'.src)
    (hknocked : p'.knocked = p.knocked) (hs : p.Silent s₀) : p'.Silent s₀ := by
  obtain ⟨hbase, node, hn, hsrc⟩ := SrcNode.nodeStep_cases h
  have hframes : framesBegun node.trace = framesBegun p.src.node.trace := by
    rcases Node.step_trace hn with hsame | ⟨e, he, hone⟩
    · rw [hsame]
    · rw [hone, framesBegun_concat]
      cases e <;> first | rfl | cases he
  apply hs.other hknocked
  · rw [hsrc]
    exact Node.step_handle hn
  · rw [hsrc]
    exact hframes
  · intro hw
    rw [hsrc] at hw ⊢
    rcases hs.window hw with ha | hd
    · exact .inl (Node.step_alive hn ha)
    · exact Node.step_closing hn hd

theorem step_silent {a : SrcAct M} (h : (stoppedFrom s₀).step p a = some p') (hc : FindsDead p a)
    (hs : p.Silent s₀) : p'.Silent s₀ := by
  obtain ⟨hstart, hstep, hknocked⟩ := stoppedFrom_cases h
  have hother (ha : a ≠ .handle) : p'.knocked = p.knocked := by
    rw [hknocked, SrcNode.passesGate_other ha, Bool.or_false]
  cases a with
  | handle => exact handleStep_silent hstep hknocked hc hs
  | node a => exact nodeStep_silent hstep (hother (by simp)) hs
  | openSource ok =>
      obtain ⟨-, ⟨-, hsrc⟩ | ⟨-, hsrc⟩⟩ := SrcNode.openStep_cases hstep
      · apply hs.away _ (hother (by simp)) <;> rw [hsrc]
        rfl
      · apply hs.away _ (hother (by simp)) <;> rw [hsrc]
        rfl
  | read r =>
      obtain ⟨-, ⟨-, hsrc⟩ | ⟨m, -, hsrc⟩⟩ := SrcNode.readStep_cases hstep
      · apply hs.away _ (hother (by simp)) <;> rw [hsrc]
        rfl
      · apply hs.away _ (hother (by simp)) <;> rw [hsrc]
        · simp [Event.beginsFrame]
        · rfl
  | start => exact absurd rfl hstart
  | stop =>
      have hsrc : p'.src = { p.src with gate := false } := (Option.some.inj hstep).symm
      apply hs.other (hother (by simp)) <;> rw [hsrc]
      intro hw
      exact hs.window (.inr (hw.resolve_left (by simp)))
  | speak m =>
      have hsrc := (Option.some.inj hstep).symm
      apply hs.other (hother (by simp)) <;> rw [hsrc]
      · simp [Event.beginsFrame]
      · exact hs.window
  | deinitialized =>
      obtain ⟨-, hsrc⟩ := SrcNode.deinitialized_cases hstep
      apply hs.other (hother (by simp)) <;> rw [hsrc]
      exact hs.window
  | destructor =>
      obtain ⟨-, hsrc⟩ := SrcNode.destructor_cases hstep
      apply hs.other (hother (by simp)) <;> rw [hsrc]
      exact hs.window
  | closer =>
      rcases SrcNode.closerStep_cases hstep with ⟨-, hsrc⟩ | ⟨-, hsrc⟩
      · apply hs.other (hother (by simp)) <;> rw [hsrc]
        exact hs.window
      · -- the gate opens, and the window with it
        apply hs.other (hother (by simp)) <;> rw [hsrc]
        exact fun _ => .inr rfl

theorem reachable_silent (hgate : s₀.gate = false) (h : (stoppedFrom s₀).ReachableBy FindsDead p) :
    p.Silent s₀ := by
  apply h.invariant
  · rintro _ rfl
    refine ⟨fun hw => ?_, fun hk => ?_, le_rfl⟩
    · simp [hgate] at hw
    · cases hk
  · intro p p' a _ hs hc hstep
    exact step_silent hstep hc hs

end Stopped

theorem SrcPc.pastGate_le_one (pc : SrcPc M) : pc.pastGate ≤ 1 := by
  cases pc with
  | testAlive | getFrame => exact le_rfl
  | _ => exact Nat.zero_le 1

/-- In a period behind a `stop`, in every step of which `FindsDead` holds, the handle thread begins
no frame but the one it was past the gate for: at most one in all, and none if it was in `knock`. -/
theorem silent_while_stopped {s s₀ : SrcNode M S} {p : Stopped M S}
    (hstop : s.step .stop = some s₀) (hp : (stoppedFrom s₀).ReachableBy FindsDead p) :
    framesBegun p.src.node.trace ≤ framesBegun s₀.node.trace + s₀.node.handle.pastGate ∧
      framesBegun p.src.node.trace ≤ framesBegun s₀.node.trace + 1 ∧
      (s₀.node.handle = .knock →
        framesBegun p.src.node.trace ≤ framesBegun s₀.node.trace) := by
  have hgate : s₀.gate = false := by
    cases hstop
    rfl
  have hframes : framesBegun p.src.node.trace ≤
      framesBegun s₀.node.trace + s₀.node.handle.pastGate :=
    (Nat.le_add_right _ _).trans (Stopped.reachable_silent hgate hp).frames
  refine ⟨hframes, hframes.trans ?_, fun hknock => ?_⟩
  · exact Nat.add_le_add_left s₀.node.handle.pastGate_le_one _
  · rwa [hknock] at hframes

/-- A source in `knock`, and the gate closed. -/
def blocked : SrcNode MetaPtr Nat := { SrcNode.start true [] with node.handle := .knock }

/-- The same with the gate open. -/
def knocking : SrcNode MetaPtr Nat := { blocked with gate := true }

theorem reachable_knocking : vpSrcNode.Reachable knocking := by
  have hinit : vpSrcNode.Reachable (SrcNode.start true [] : SrcNode MetaPtr Nat) :=
    .init ⟨true, [], rfl⟩
  have hrun : vpSrcNode.run (SrcNode.start true []) [.start, .handle, .handle, .handle] =
      some knocking := rfl
  exact hinit.of_run hrun

/-- `deinitialized` opens the gate and clears `alive` before the handle thread tests it. -/
theorem silent_while_stopped_teardown :
    vpSrcNode.Reachable knocking ∧ knocking.step .stop = some blocked ∧
      ∃ p : Stopped MetaPtr Nat, (p.src.node.alive = false ∧ p.src.node.handle = .deadPush) ∧
        framesBegun p.src.node.trace ≤
            framesBegun blocked.node.trace + blocked.node.handle.pastGate ∧
          framesBegun p.src.node.trace ≤ framesBegun blocked.node.trace + 1 ∧
          (blocked.node.handle = .knock →
            framesBegun p.src.node.trace ≤ framesBegun blocked.node.trace) := by
  have hinit : (stoppedFrom blocked).ReachableBy FindsDead ⟨blocked, false⟩ := .init rfl
  obtain ⟨p, hr, hp⟩ := hinit.exists_of_run
    (p := fun p => p.src.node.alive = false ∧ p.src.node.handle = .deadPush)
    [.deinitialized, .closer, .handle, .node .deinit, .handle] (by decide) (by decide)
  exact ⟨reachable_knocking, rfl, p, hp, silent_while_stopped (s := knocking) rfl hr⟩

/-- `stop` returns with the handle thread in `knock`. Then `deinitialized` opens the gate, and two
frames are begun before it clears `alive`. -/
theorem frames_while_stopped :
    vpSrcNode.Reachable knocking ∧ knocking.step .stop = some blocked ∧
      blocked.node.handle = .knock ∧ framesBegun blocked.node.trace = 0 ∧
        ∃ p, (stoppedFrom blocked).Reachable p ∧ framesBegun p.src.node.trace = 2 := by
  have hinit : (stoppedFrom blocked).Reachable ⟨blocked, false⟩ := .init rfl
  exact ⟨reachable_knocking, rfl, rfl, rfl, hinit.exists_of_run
    [.deinitialized, .closer, .handle, .handle, .handle, .read (some (.frame 0)), .handle,
      .handle, .handle, .handle, .handle, .handle, .handle, .handle] (by decide)⟩

/-! ## The handle thread in the gate -/

namespace SrcNode

variable {s s' : SrcNode M S}

/-- The handle thread is past its first test of `alive`, and not through the gate yet. -/
def AtGate (s : SrcNode M S) : Prop :=
  s.node.handle = .testOpen ∨ s.node.handle = .knock

/-- The handle thread waits in `knock`, after `alive` was cleared, and no `gate.open()` is to come
but by a new `start`. -/
def Wedged (s : SrcNode M S) : Prop :=
  (s.node.alive = false ∧ s.node.handle = .knock) ∧ s.gate = false ∧ s.closer = .idle

/-- Neither does `stop` close the gate before a handle thread that will not test `alive` again, nor
does `deinitialized` clear `alive` behind a gate that was closed again. -/
def GateKept (s : SrcNode M S) : SrcAct M → Prop
  | .stop => s.closer = .idle → s.node.alive = false → ¬ s.AtGate
  | .node .deinit => s.closer = .idle → s.node.deinit = .alive → s.AtGate → s.gate = true
  | _ => True

instance [DecidableEq M] (s : SrcNode M S) : Decidable s.AtGate :=
  inferInstanceAs (Decidable (_ ∨ _))

instance [DecidableEq M] (s : SrcNode M S) : Decidable s.Wedged :=
  inferInstanceAs (Decidable ((_ ∧ _) ∧ _ ∧ _))

instance decidableGateKept [DecidableEq M] (s : SrcNode M S) : ∀ a, Decidable (s.GateKept a)
  | .stop => inferInstanceAs (Decidable (_ → _ → ¬ _))
  | .node .deinit => inferInstanceAs (Decidable (_ → _ → _ → _))
  | .node .dispatch | .node (.metaFlow _) | .node (.pendingMeta _) | .node (.call _)
  | .node .deinitialized => isTrue trivial
  | .handle | .openSource _ | .read _ | .closer | .start | .speak _ | .deinitialized
  | .destructor => isTrue trivial

/-- A dead source has its gate open, or is about to, as long as the handle thread is in front of
it. -/
def GateOpens (s : SrcNode M S) : Prop :=
  s.node.alive = false → s.AtGate → s.gate = true ∨ s.closer ≠ .idle

theorem handleStep_gateOpens (h : s.handleStep = some s') (hs : s.GateOpens) : s'.GateOpens := by
  intro hdead hat
  cases handleStep_cases h with
  | enter hp ha => exact absurd hdead (by simp [ha])
  | stillOpen hp _ => exact hs hdead (.inl hp)
  | _ => rcases hat with hx | hx <;> cases hx

theorem nodeStep_gateOpens {a : NodeAct M} (h : s.step (.node a) = some s')
    (hc : s.GateKept (.node a)) (hs : s.GateOpens) : s'.GateOpens := by
  obtain ⟨-, node, hn, rfl⟩ := nodeStep_cases h
  intro hdead hat
  have hat : s.AtGate := by
    have hhandle := Node.step_handle hn
    rwa [AtGate, ← hhandle]
  cases ha : s.node.alive with
  | false => exact hs ha hat
  | true =>
      obtain ⟨rfl, hd⟩ := Node.step_cleared hn ha hdead
      by_cases hcloser : s.closer = .idle
      · exact .inl (hc hcloser hd hat)
      · exact .inr hcloser

theorem step_gateOpens {a : SrcAct M} (h : s.step a = some s') (hc : s.GateKept a)
    (hs : s.GateOpens) : s'.GateOpens := by
  cases a with
  | handle => exact handleStep_gateOpens h hs
  | openSource ok =>
      obtain ⟨-, ⟨-, rfl⟩ | ⟨-, rfl⟩⟩ := openStep_cases h
      all_goals
        intro _ hat
        rcases hat with hx | hx <;> cases hx
  | read r =>
      obtain ⟨-, ⟨-, rfl⟩ | ⟨m, -, rfl⟩⟩ := readStep_cases h
      all_goals
        intro _ hat
        rcases hat with hx | hx <;> cases hx
  | node a => exact nodeStep_gateOpens h hc hs
  | start =>
      cases h
      exact fun _ _ => .inl rfl
  | stop =>
      -- the gate may close behind a teardown that has yet to open it
      cases h
      intro hdead hat
      by_cases hcloser : s.closer = .idle
      · exact absurd hat (hc hcloser hdead)
      · exact .inr hcloser
  | speak m =>
      cases h
      exact hs
  | deinitialized =>
      obtain ⟨-, rfl⟩ := deinitialized_cases h
      exact fun _ _ => .inr (by simp)
  | destructor =>
      obtain ⟨-, rfl⟩ := destructor_cases h
      exact fun _ _ => .inr (by simp)
  | closer =>
      rcases closerStep_cases h with ⟨-, rfl⟩ | ⟨-, rfl⟩
      · exact fun _ _ => .inr (by simp)
      · exact fun _ _ => .inl rfl

theorem reachable_gateOpens (h : vpSrcNode.ReachableBy GateKept s) : s.GateOpens := by
  apply h.invariant
  · rintro _ ⟨isOpened, subscribers, rfl⟩ hdead
    cases hdead
  · intro s s' a _ hs hc hstep
    exact step_gateOpens hstep hc hs

/-- A step against `GateKept` wedges the handle thread, at once or by its next step. -/
theorem wedged_of_not_gateKept {a : SrcAct M} (h : s.step a = some s') (hc : ¬ s.GateKept a)
    (hopen : s.isOpened = true) :
    s'.Wedged ∨ ∃ s'', s'.step .handle = some s'' ∧ s''.Wedged := by
  have hwedge (ha : s'.node.alive = false) (hat : s'.AtGate) (hg : s'.gate = false)
      (hcloser : s'.closer = .idle) (ho : s'.isOpened = true) :
      s'.Wedged ∨ ∃ s'', s'.step .handle = some s'' ∧ s''.Wedged := by
    rcases hat with hp | hp
    · -- the source is open, so the thread goes on to knock
      right
      refine ⟨{ s' with node.handle := .knock }, ?_, ⟨ha, rfl⟩, hg, hcloser⟩
      show s'.handleStep = _
      simp [handleStep, hp, ho]
    · exact .inl ⟨⟨ha, hp⟩, hg, hcloser⟩
  cases a with
  | stop =>
      obtain ⟨hcloser, hdead, hat⟩ : s.closer = .idle ∧ s.node.alive = false ∧ s.AtGate := by
        simpa [GateKept] using hc
      cases h
      exact hwedge hdead hat rfl hcloser hopen
  | node a =>
      cases a with
      | deinit =>
          obtain ⟨hcloser, hd, hat, hg⟩ : s.closer = .idle ∧ s.node.deinit = .alive ∧ s.AtGate ∧
              s.gate = false := by
            simpa [GateKept] using hc
          obtain ⟨-, node, hn, rfl⟩ := nodeStep_cases h
          have hhandle := Node.step_handle hn
          cases Node.deinitStep_cases hn with
          | alive _ => exact hwedge rfl hat hg hcloser hopen
          | push hp | signal hp | joinHandle hp _ | joinDispatch hp _ =>
              rw [hp] at hd
              cases hd
      | _ => exact absurd trivial hc
  | _ => exact absurd trivial hc

end SrcNode

/-- In every run whose `stop`s keep the gate for the teardown, the handle thread of a dead source is
never left in `knock`. -/
theorem not_wedged_of_gateKept {s : SrcNode M S} (h : vpSrcNode.ReachableBy SrcNode.GateKept s) :
    ¬ s.Wedged := by
  rintro ⟨⟨hdead, hp⟩, hgate, hcloser⟩
  rcases SrcNode.reachable_gateOpens h hdead (.inr hp) with hopen | hcloses
  · simp [hgate] at hopen
  · exact hcloses hcloser

/-- `stop` before `deinitialized`; the handle thread is in `knock` when `alive` is cleared. -/
theorem not_wedged_of_gateKept_stopFirst :
    ∃ s : SrcNode MetaPtr Nat, vpSrcNode.ReachableBy SrcNode.GateKept s ∧
      (s.node.alive = false ∧ s.node.handle = .knock) ∧ ¬ s.Wedged := by
  have hinit : vpSrcNode.ReachableBy SrcNode.GateKept (SrcNode.start true [] : SrcNode MetaPtr Nat) :=
    .init ⟨true, [], rfl⟩
  obtain ⟨s, hr, hp⟩ := hinit.exists_of_run
    (p := fun s => s.node.alive = false ∧ s.node.handle = .knock)
    [.start, .handle, .handle, .stop, .handle, .deinitialized, .closer, .node .deinit]
    (by decide) (by decide)
  exact ⟨s, hr, hp, not_wedged_of_gateKept hr⟩

/-- `stop` comes between `gate.open()` and `alive = false`. -/
def stopInTeardown : List (SrcAct MetaPtr) :=
  [.handle, .handle, .handle, .start, .deinitialized, .closer, .stop, .node .deinit, .node .deinit,
    .node .deinit]

/-- The handle thread waits in `knock` for good, and `deinitialized` waits to join it. -/
theorem wedged_by_stop :
    ∃ s : SrcNode MetaPtr Nat, vpSrcNode.run (SrcNode.start true []) stopInTeardown = some s ∧
      s.Wedged ∧ s.node.deinit = .joinHandle ∧ s.step .handle = none ∧
        s.step (.node .deinit) = none :=
  ⟨_, rfl, by decide, rfl, rfl, rfl⟩

end VideoStream
