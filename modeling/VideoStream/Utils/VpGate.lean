import Mathlib.Data.Fintype.Basic
import VideoStream.Library.Monitor

/-!
# `vp_gate`

The gate is a monitor: `knock` waits until it is open, and `open` notifies one of the knockers.

A knocker that was woken passes an open gate and wakes nobody else. So the gate releases every
knocker if that happens only while nobody sleeps, or while somebody else is on the way
(`gate_not_stranded`), and otherwise it does not (`stranded_iff`).

With one knocker only, as in a source node, nobody is left behind: where the gate is open and the
knocker sleeps, the notify of an `open` is still to come (`one_knocker_released`).
-/

namespace VideoStream

open Library

/-- The member functions; `openGate` is `open`. -/
inductive GateOp where
  | knock
  | openGate
  | close
  | isOpen
  deriving DecidableEq

structure VpGate where
  opened : Bool
  deriving DecidableEq

namespace VpGate

def knock (g : VpGate) : Option VpGate := if g.opened then some g else none

def openGate (g : VpGate) : VpGate := { g with opened := true }

def close (g : VpGate) : VpGate := { g with opened := false }

def isOpen (g : VpGate) : Bool := g.opened

end VpGate

/-- `is_open` changes nothing. -/
def vpGate : Monitor GateOp VpGate where
  data := { opened := false }
  body
    | .knock, g => g.knock
    | .openGate, g => some g.openGate
    | .close, g => some g.close
    | .isOpen, g => some g
  notifies op := op = .openGate

abbrev GateState (T : Type) := MonitorState T GateOp VpGate

namespace GateState

variable {T : Type}

/-- The gate is open, no `open` has its notify before it, nobody who was woken has yet to test the
gate again, and a thread sleeps in `knock`. -/
def Stranded (s : GateState T) : Prop :=
  s.data.isOpen = true ∧ (∀ t, s.threads t ≠ .notify .openGate) ∧
    (∀ t, s.threads t ≠ .woken .knock) ∧ ∃ t, s.threads t = .wait .knock

/-- A knocker that was woken and finds the gate open leaves nobody asleep, or another thread has a
notify or a test before it. -/
def HandsOn (s : GateState T) : MonitorAct T GateOp → Prop
  | .enter t => s.threads t = .woken .knock → s.data.isOpen = true →
      (∃ u, (s.threads u).Sleeps) → ∃ v, v ≠ t ∧ (s.threads v).Wakes
  | _ => True

instance [DecidableEq T] [Fintype T] (s : GateState T) : DecidablePred s.HandsOn
  | .enter t => inferInstanceAs (Decidable (s.threads t = .woken .knock →
      s.data.isOpen = true → (∃ u, (s.threads u).Sleeps) → ∃ v, v ≠ t ∧ (s.threads v).Wakes))
  | .call _ _ | .notify _ _ => isTrue trivial

variable [DecidableEq T] {s s' : GateState T} {a : MonitorAct T GateOp}

/-! ## Where the threads stand -/

theorem body_eq_none {op : GateOp} {g : VpGate} (h : vpGate.body op g = none) :
    op = .knock ∧ g.isOpen = false := by
  cases op with
  | knock =>
      have hopen : ¬ g.opened = true := fun hopen => by
        change g.knock = none at h
        rw [VpGate.knock, if_pos hopen] at h
        cases h
      exact ⟨rfl, Bool.eq_false_iff.mpr hopen⟩
  | openGate | close | isOpen => cases h

theorem sleeps_iff (h : vpGate.system.Reachable s) (t : T) :
    (s.threads t).Sleeps ↔ s.threads t = .wait .knock := by
  have hallows := Monitor.allows h t
  constructor
  · intro hsleeps
    generalize s.threads t = pc at hallows hsleeps
    cases pc with
    | wait op =>
        obtain ⟨g, hnone⟩ := hallows
        rw [(body_eq_none hnone).1]
    | _ => exact False.elim hsleeps
  · intro hwait
    rw [hwait]
    trivial

theorem wakes_iff (h : vpGate.system.Reachable s) (t : T) :
    (s.threads t).Wakes ↔ s.threads t = .notify .openGate ∨ s.threads t = .woken .knock := by
  have hallows := Monitor.allows h t
  constructor
  · intro hwakes
    generalize s.threads t = pc at hallows hwakes
    cases pc with
    | woken op =>
        obtain ⟨g, hnone⟩ := hallows
        rw [(body_eq_none hnone).1]
        exact .inr rfl
    | notify op =>
        have hop : op = .openGate := of_decide_eq_true hallows
        rw [hop]
        exact .inl rfl
    | _ => exact False.elim hwakes
  · intro hpc
    rcases hpc with hpc | hpc <;> rw [hpc] <;> trivial

/-- Somebody is on the way to the sleepers, if the gate is open. -/
def SleepersAttended (s : GateState T) : Prop :=
  s.data.isOpen = true → Attended MonitorPc.Sleeps MonitorPc.Wakes s.threads

theorem stranded_iff_not (h : vpGate.system.Reachable s) : s.Stranded ↔ ¬ s.SleepersAttended := by
  constructor
  · intro hstranded hattended
    obtain ⟨hopen, hnotify, hwoken, t, ht⟩ := hstranded
    obtain ⟨v, hv⟩ := hattended hopen ⟨t, (sleeps_iff h t).mpr ht⟩
    rcases (wakes_iff h v).mp hv with hv | hv
    · exact hnotify v hv
    · exact hwoken v hv
  · intro hnot
    obtain ⟨hopen, hunattended⟩ := Classical.not_imp.mp hnot
    obtain ⟨⟨t, ht⟩, hnone⟩ := Classical.not_imp.mp hunattended
    refine ⟨hopen, fun v hv => hnone ⟨v, ?_⟩, fun v hv => hnone ⟨v, ?_⟩, t, (sleeps_iff h t).mp ht⟩
    · exact (wakes_iff h v).mpr (.inl hv)
    · exact (wakes_iff h v).mpr (.inr hv)

/-! ## The steps -/

omit [DecidableEq T] in
theorem handsOn_of_ne {t : T} {op : GateOp} (henters : (s.threads t).enters = some op)
    (hop : op ≠ .knock) : s.HandsOn (.enter t) := by
  intro hwoken
  rw [hwoken] at henters
  cases henters
  exact absurd rfl hop

/-- A thread that does not sleep moves, and was not on the way. -/
theorem attended_goto (hs : s.SleepersAttended) {t : T} (hwakes : ¬ (s.threads t).Wakes)
    {pc : MonitorPc GateOp} (hpc : ¬ pc.Sleeps) : SleepersAttended (s.goto t pc) := by
  intro hopen
  apply (hs hopen).update
  · exact fun hsleeps => absurd hsleeps hpc
  · exact fun _ hsleeps => hsleeps
  · exact fun hbefore => absurd hbefore hwakes

/-- A knocker passes the open gate. -/
theorem attended_knock_iff (hs : s.SleepersAttended) (hopen : s.data.isOpen = true) {t : T}
    (henters : (s.threads t).enters = some .knock) :
    SleepersAttended (s.goto t .idle) ↔ s.HandsOn (.enter t) := by
  rcases MonitorPc.enters_eq_some.mp henters with hlock | hwoken
  · apply iff_of_true
    · apply attended_goto hs _ MonitorPc.not_sleeps_idle
      rw [hlock]
      exact not_false
    · intro hwoken
      rw [hlock] at hwoken
      cases hwoken
  · -- the knocker was on the way, and is no longer
    constructor
    · intro hattended _ _ hsleeps
      obtain ⟨u, hu⟩ := hsleeps
      have hut : u ≠ t := by
        intro hut
        rw [hut, hwoken] at hu
        exact hu
      by_contra hnone
      apply Attended.not_leave hut hu MonitorPc.not_wakes_idle _ (hattended hopen)
      exact fun v hv hwakes => hnone ⟨v, hv, hwakes⟩
    · intro hhands hopen
      apply Attended.leave MonitorPc.not_sleeps_idle
      intro u _ hu
      exact hhands hwoken hopen ⟨u, hu⟩

/-- A step of a state whose sleepers are attended leaves them so exactly if it hands on. -/
theorem attended_step_iff (h : vpGate.system.Reachable s) (hs : s.SleepersAttended)
    (hstep : vpGate.step s a = some s') : s'.SleepersAttended ↔ s.HandsOn a := by
  have hconsistent := Monitor.mem_sleepers h
  apply Monitor.step_elim (P := fun s' => SleepersAttended s' ↔ s.HandsOn a) _ _ _ _ _ hstep
  · intro t op ha hidle
    subst ha
    apply iff_of_true _ trivial
    apply attended_goto hs _ MonitorPc.not_sleeps_lock
    rw [hidle]
    exact not_false
  · intro t op g ha henters hbody
    subst ha
    cases op with
    | knock =>
        obtain ⟨hopen, hg⟩ := Option.ite_none_right_eq_some.mp hbody
        cases hg
        exact attended_knock_iff hs hopen henters
    | openGate =>
        apply iff_of_true _ (handsOn_of_ne henters (by decide))
        intro _
        exact Attended.update_waker trivial
    | close =>
        apply iff_of_true _ (handsOn_of_ne henters (by decide))
        intro hopen
        cases hbody
        cases hopen
    | isOpen =>
        apply iff_of_true _ (handsOn_of_ne henters (by decide))
        cases hbody
        apply attended_goto hs _ MonitorPc.not_sleeps_idle
        -- nobody is woken in `is_open`
        intro hwakes
        rcases (wakes_iff h t).mp hwakes with hpc | hpc <;> rw [hpc] at henters <;> cases henters
  · intro t op ha _ hbody
    subst ha
    have hclosed := (body_eq_none hbody).2
    apply iff_of_true
    · exact fun hopen => absurd (hopen.symm.trans hclosed) (by decide)
    · exact fun _ hopen => absurd (hopen.symm.trans hclosed) (by decide)
  · intro t u op ha hnotify hu
    subst ha
    apply iff_of_true _ trivial
    intro _
    apply Attended.update_waker
    exact MonitorPc.wakes_wake (Monitor.sleeps_of_mem hconsistent hnotify hu)
  · intro t op ha _ hnone
    subst ha
    apply iff_of_true _ trivial
    intro hopen
    apply Attended.leave MonitorPc.not_sleeps_idle
    intro u _ hu
    exact absurd hu (Monitor.not_sleeps_of_empty hconsistent hnone u)

/-- What strands the sleepers: a knocker that does not hand on. -/
theorem stranded_iff (h : vpGate.system.Reachable s) (hs : ¬ s.Stranded)
    (hstep : vpGate.step s a = some s') : s'.Stranded ↔ ¬ s.HandsOn a := by
  have hattended : s.SleepersAttended := by
    rwa [stranded_iff_not h, not_not] at hs
  have hreach : vpGate.system.Reachable s' := .step h trivial hstep
  rw [stranded_iff_not hreach, attended_step_iff h hattended hstep]

theorem reachable_attended (h : vpGate.system.ReachableBy HandsOn s) : s.SleepersAttended := by
  apply h.invariant
  · intro s hs hopen
    cases hs
    cases hopen
  · intro s s' a hreach hs hhands hstep
    exact (attended_step_iff hreach.reachable hs hstep).mpr hhands

/-! ## One knocker -/

/-- Nobody but `t` calls `knock`. -/
def OneKnocker (t : T) (_ : GateState T) : MonitorAct T GateOp → Prop
  | .call u .knock => u = t
  | _ => True

instance (t : T) (s : GateState T) : DecidablePred (OneKnocker t s)
  | .call u .knock => inferInstanceAs (Decidable (u = t))
  | .call _ .openGate | .call _ .close | .call _ .isOpen | .enter _ | .notify _ _ => isTrue trivial

/-- Two threads in `knock` are one. -/
theorem eq_of_knocks {t u v : T} (h : vpGate.system.ReachableBy (OneKnocker t) s)
    (hu : (s.threads u).op? = some .knock) (hv : (s.threads v).op? = some .knock) : u = v := by
  have hone (w : T) (hw : (s.threads w).op? = some .knock) : w = t := by
    refine Monitor.op?_invariant (P := fun w op => op = .knock → w = t) ?_ h w .knock hw rfl
    rintro s w op hcall rfl
    exact hcall
  rw [hone u hu, hone v hv]

/-- A knocker that was woken is the only one, so that nobody sleeps. -/
theorem handsOn_of_oneKnocker {t : T} (h : vpGate.system.ReachableBy (OneKnocker t) s)
    (a : MonitorAct T GateOp) : s.HandsOn a := by
  cases a with
  | enter u =>
      intro hwoken _ hsleeps
      obtain ⟨v, hv⟩ := hsleeps
      have hwait := (sleeps_iff h.reachable v).mp hv
      have hvu : v = u := eq_of_knocks h (by rw [hwait]; rfl) (by rw [hwoken]; rfl)
      rw [hvu, hwoken] at hwait
      cases hwait
  | call _ _ | notify _ _ => trivial

end GateState

open GateState

/-- No knocker is stranded in a run in which every knocker that was woken hands on. -/
theorem gate_not_stranded {T : Type} [DecidableEq T] {s : GateState T}
    (h : vpGate.system.ReachableBy HandsOn s) : ¬ s.Stranded := by
  rw [stranded_iff_not h.reachable, not_not]
  exact reachable_attended h

/-- Two knockers fall asleep and are released by a call of `open` each. -/
theorem gate_not_stranded_run : ∃ s : GateState (Fin 4), vpGate.system.ReachableBy HandsOn s ∧
    s.trace = [.openGate, .openGate, .knock, .knock] ∧ ¬ s.Stranded := by
  obtain ⟨s, hs, htrace⟩ := System.ReachableBy.exists_of_run
    (M := vpGate.system) (C := HandsOn) (p := fun s : GateState (Fin 4) =>
      s.trace = [.openGate, .openGate, .knock, .knock])
    (.init rfl)
    [.call 0 .knock, .enter 0, .call 1 .knock, .enter 1, .call 2 .openGate, .enter 2,
      .notify 2 (some 0), .call 3 .openGate, .enter 3, .enter 0, .notify 3 (some 1), .enter 1]
    (by decide) (by decide)
  exact ⟨s, hs, htrace, gate_not_stranded hs⟩

/-- With one knocker, the notify of an `open` is still to come where the knocker sleeps in front of an
open gate. -/
theorem one_knocker_released {T : Type} [DecidableEq T] {s : GateState T} {t u : T}
    (h : vpGate.system.ReachableBy (OneKnocker t) s) (hopen : s.data.isOpen = true)
    (hwait : s.threads u = .wait .knock) : ∃ v, s.threads v = .notify .openGate := by
  have hattended : s.SleepersAttended :=
    reachable_attended (h.strengthen fun s hs a => handsOn_of_oneKnocker hs a)
  obtain ⟨v, hv⟩ := hattended hopen ⟨u, (sleeps_iff h.reachable u).mpr hwait⟩
  rcases (wakes_iff h.reachable v).mp hv with hnotify | hwoken
  · exact ⟨v, hnotify⟩
  · -- the one knocker does not both sleep and come back
    have hvu : v = u := eq_of_knocks h (by rw [hwoken]; rfl) (by rw [hwait]; rfl)
    rw [hvu, hwait] at hwoken
    cases hwoken

/-- The knocker sleeps, and `open` has its notify before it. -/
theorem one_knocker_released_run : ∃ s : GateState (Fin 2),
    vpGate.system.ReachableBy (OneKnocker 0) s ∧ s.trace = [.openGate] ∧
      ∃ v, s.threads v = .notify .openGate := by
  obtain ⟨s, hs, htrace, hopen, hwait⟩ := System.ReachableBy.exists_of_run
    (M := vpGate.system) (C := OneKnocker 0) (p := fun s : GateState (Fin 2) =>
      s.trace = [.openGate] ∧ s.data.isOpen = true ∧ s.threads 0 = .wait .knock)
    (.init rfl)
    [.call 0 .knock, .enter 0, .call 1 .openGate, .enter 1]
    (by decide) (by decide)
  exact ⟨s, hs, htrace, one_knocker_released hs hopen hwait⟩

/-- Two knockers fall asleep, and one call of `open` releases one of them. -/
theorem gate_strands : ∃ s : GateState (Fin 3), vpGate.system.Reachable s ∧ s.Stranded := by
  obtain ⟨s, hs, hstranded⟩ := System.Reachable.exists_of_run
    (M := vpGate.system) (p := fun s : GateState (Fin 3) =>
      s.data.isOpen = true ∧ (∀ t, s.threads t ≠ .notify .openGate) ∧
        (∀ t, s.threads t ≠ .woken .knock) ∧ ∃ t, s.threads t = .wait .knock)
    (.init rfl)
    [.call 0 .knock, .enter 0, .call 1 .knock, .enter 1, .call 2 .openGate, .enter 2,
      .notify 2 (some 0), .enter 0]
    (by decide)
  exact ⟨s, hs, hstranded⟩

end VideoStream
