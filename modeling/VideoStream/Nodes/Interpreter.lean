import VideoStream.Nodes.ScriptedSource

/-!
# The Python interpreter of the source nodes

Every `vp_src_node` has a `PythonMethod` of its own, with a `py::scoped_interpreter` in it. But the
interpreter is one for the process: constructing a `scoped_interpreter` while it runs throws, and
destroying one finalises it. So a second source cannot be constructed while the first is alive, and
that is the only way in which the histories of constructions and destructions go wrong
(`sources_coexist_iff`).

The class `scoped_interpreter` is pybind11's: it is a parameter, and `ScopedInterpreter.Lawful` is what
is documented of it.
-/

namespace VideoStream

open Library

/-- How a constructor ends early: by an exception, or by a failed assertion, which ends the process. -/
inductive ConstructError where
  | runtimeError (what : String)
  | assertion
  deriving DecidableEq, Repr

/-- The constructor and the destructor of `py::scoped_interpreter`, on whether the interpreter is
initialised. -/
structure ScopedInterpreter where
  construct : Bool → Except ConstructError Bool
  destroy : Bool → Bool

/-- Constructing one while the interpreter runs throws a `std::runtime_error`, and otherwise initialises
it; destroying one finalises it. -/
structure ScopedInterpreter.Lawful (guard : ScopedInterpreter) : Prop where
  running : ∃ what, guard.construct true = .error (.runtimeError what)
  idle : guard.construct false = .ok true
  finalizes : guard.destroy true = false

section Constructors

variable (guard : ScopedInterpreter)

/-- The constructor of `PythonMethod`. Appending to `sys.path` leaves the interpreter as it is, and so
does giving back the GIL. -/
def pythonMethod (initialized : Bool) : Except ConstructError Bool := guard.construct initialized

/-- The destructor: the GIL is taken again, and then the guard is destroyed. -/
def pythonMethodDestructor (initialized : Bool) : Bool := guard.destroy initialized

/-- The constructor of `vp_src_node`: the data source, the caller of the script, and the assertion. -/
def vpSrcNodeConstructor (initialized : Bool) (channelIndex : Int) (resizeRatio : ℚ) :
    Except ConstructError Bool := do
  if vpImageDataSource channelIndex 1 1 = none then throw .assertion
  let initialized ← pythonMethod guard initialized
  if ¬ (0 < resizeRatio ∧ resizeRatio ≤ 1) then throw .assertion
  return initialized

end Constructors

/-- The process: whether the interpreter is initialised, the source nodes that are alive, and the
exceptions that left a constructor. -/
structure SrcProcess (P : Type) where
  initialized : Bool
  alive : List P
  thrown : List String
  deriving DecidableEq

/-- The nodes are their addresses. -/
inductive SrcProcessAct (P : Type) where
  | construct (node : P) (channelIndex : Int) (resizeRatio : ℚ)
  | destroy (node : P)

namespace SrcProcess

variable {P : Type} [DecidableEq P] (guard : ScopedInterpreter)

def start : SrcProcess P where
  initialized := false
  alive := []
  thrown := []

/-- When a constructor throws there is no node; what it has made is destroyed, and the guard is not
among it. -/
def construct (s : SrcProcess P) (node : P) (channelIndex : Int) (resizeRatio : ℚ) :
    Option (SrcProcess P) :=
  match vpSrcNodeConstructor guard s.initialized channelIndex resizeRatio with
  | .ok initialized => some { s with initialized := initialized, alive := node :: s.alive }
  | .error (.runtimeError what) => some { s with thrown := s.thrown ++ [what] }
  | .error .assertion => none

/-- The destructor of `vp_src_node` resets `py_call`, which is held by nobody else. -/
def destroy (s : SrcProcess P) (node : P) : SrcProcess P :=
  { s with initialized := pythonMethodDestructor guard s.initialized, alive := s.alive.erase node }

def step (s : SrcProcess P) : SrcProcessAct P → Option (SrcProcess P)
  | .construct node channelIndex resizeRatio =>
      if node ∈ s.alive then none else s.construct guard node channelIndex resizeRatio
  | .destroy node => if node ∈ s.alive then some (s.destroy guard node) else none

/-- A source node is constructed only while no other is alive. -/
def Alone (s : SrcProcess P) : SrcProcessAct P → Prop
  | .construct _ _ _ => s.alive = []
  | .destroy _ => True

instance (s : SrcProcess P) : ∀ a, Decidable (s.Alone a)
  | .construct _ _ _ => inferInstanceAs (Decidable (_ = _))
  | .destroy _ => isTrue trivial

end SrcProcess

/-- The histories of one thread that constructs and destroys source nodes. -/
def srcProcess {P : Type} [DecidableEq P] (guard : ScopedInterpreter) :
    System (SrcProcess P) (SrcProcessAct P) where
  init s := s = .start
  step := SrcProcess.step guard

namespace SrcProcess

variable {P : Type} [DecidableEq P] {guard : ScopedInterpreter} {s s' : SrcProcess P}

/-- There is no node, or one, and the interpreter runs for it. -/
def OneAtMost (s : SrcProcess P) : Prop :=
  s.initialized = false ∧ s.alive = [] ∨ s.initialized = true ∧ ∃ node, s.alive = [node]

omit [DecidableEq P] in
theorem OneAtMost.initialized_iff (hs : s.OneAtMost) : s.initialized = true ↔ s.alive ≠ [] := by
  rcases hs with ⟨hi, ha⟩ | ⟨hi, node, ha⟩
  · simp [hi, ha]
  · simp [hi, ha]

theorem vpSrcNodeConstructor_running {what : String}
    (hrunning : guard.construct true = .error (.runtimeError what)) (channelIndex : Int)
    (resizeRatio : ℚ) :
    vpSrcNodeConstructor guard true channelIndex resizeRatio = .error (.runtimeError what) := by
  show (guard.construct true >>= fun _ => _) = _
  rw [hrunning]
  rfl

theorem vpSrcNodeConstructor_idle (hidle : guard.construct false = .ok true) {channelIndex : Int}
    {resizeRatio : ℚ} : vpSrcNodeConstructor guard false channelIndex resizeRatio =
      if ¬ (0 < resizeRatio ∧ resizeRatio ≤ 1) then .error .assertion else .ok true := by
  show (guard.construct false >>= fun _ => _) = _
  rw [hidle]
  show (if ¬ (0 < resizeRatio ∧ resizeRatio ≤ 1) then _ else _) = _
  split <;> rfl

/-- A construction finds no node, and makes one, or it throws. -/
theorem construct_cases (hguard : guard.Lawful) {node : P} {channelIndex : Int} {resizeRatio : ℚ}
    (hs : s.OneAtMost) (h : s.step guard (.construct node channelIndex resizeRatio) = some s') :
    s.alive = [] ∧ s' = { s with initialized := true, alive := [node] } ∨
      s.alive ≠ [] ∧ ∃ what, s' = { s with thrown := s.thrown ++ [what] } := by
  have hconstruct : s.construct guard node channelIndex resizeRatio = some s' := by
    change (if node ∈ s.alive then none
      else s.construct guard node channelIndex resizeRatio) = some s' at h
    split at h
    · cases h
    · exact h
  unfold construct at hconstruct
  rcases hs with ⟨hi, ha⟩ | ⟨hi, _, ha⟩
  · rw [hi, vpSrcNodeConstructor_idle hguard.idle] at hconstruct
    split at hconstruct
    · next heq =>
        split at heq <;> cases heq
        cases hconstruct
        exact .inl ⟨ha, by rw [ha]⟩
    · next heq => split at heq <;> cases heq
    · cases hconstruct
  · obtain ⟨what, hrunning⟩ := hguard.running
    rw [hi, vpSrcNodeConstructor_running hrunning] at hconstruct
    cases hconstruct
    exact .inr ⟨by simp [ha], what, by rw [hi]⟩

theorem step_oneAtMost (hguard : guard.Lawful) {a : SrcProcessAct P}
    (h : s.step guard a = some s') (hs : s.OneAtMost) : s'.OneAtMost := by
  cases a with
  | construct node channelIndex resizeRatio =>
      rcases construct_cases hguard hs h with ⟨-, rfl⟩ | ⟨-, _, rfl⟩
      · exact .inr ⟨rfl, node, rfl⟩
      · exact hs
  | destroy node =>
      change (if node ∈ s.alive then some (s.destroy guard node) else none) = some s' at h
      split at h
      · next hmem =>
          cases h
          rcases hs with ⟨-, ha⟩ | ⟨hi, node', ha⟩
          · rw [ha] at hmem
            cases hmem
          · rw [ha] at hmem
            obtain rfl := List.mem_singleton.mp hmem
            refine .inl ⟨?_, by show s.alive.erase node = []; rw [ha, List.erase_cons_head]⟩
            show guard.destroy s.initialized = false
            rw [hi, hguard.finalizes]
      · cases h

/-- A step throws nothing exactly when its construction is alone. -/
theorem step_thrown (hguard : guard.Lawful) {a : SrcProcessAct P} (h : s.step guard a = some s')
    (hs : s.OneAtMost) : s'.thrown = [] ↔ s.thrown = [] ∧ s.Alone a := by
  cases a with
  | construct node channelIndex resizeRatio =>
      rcases construct_cases hguard hs h with ⟨ha, rfl⟩ | ⟨ha, what, rfl⟩
      · exact ⟨fun hthrown => ⟨hthrown, ha⟩, fun hthrown => hthrown.1⟩
      · constructor
        · intro hthrown
          exact absurd hthrown (by simp)
        · intro halone
          exact absurd halone.2 ha
  | destroy node =>
      change (if node ∈ s.alive then some (s.destroy guard node) else none) = some s' at h
      split at h
      · cases h
        exact ⟨fun hthrown => ⟨hthrown, trivial⟩, fun hthrown => hthrown.1⟩
      · cases h

/-- Over a history: every construction was alone iff nothing was thrown. -/
theorem run_thrown (hguard : guard.Lawful) {as : List (SrcProcessAct P)}
    (h : (srcProcess guard).run s as = some s') (hs : s.OneAtMost) :
    s'.OneAtMost ∧ (s'.thrown = [] ↔ s.thrown = [] ∧ (srcProcess guard).Along Alone s as) := by
  induction as generalizing s with
  | nil =>
      cases h
      exact ⟨hs, by simp [System.Along]⟩
  | cons a as ih =>
      obtain ⟨s₁, hstep, hrun⟩ := Option.bind_eq_some_iff.mp h
      obtain ⟨hs', hthrown⟩ := ih hrun (step_oneAtMost hguard hstep hs)
      refine ⟨hs', ?_⟩
      have halong : (srcProcess guard).Along Alone s (a :: as) ↔
          s.Alone a ∧ (srcProcess guard).Along Alone s₁ as := by
        rw [System.Along, hstep]
      rw [hthrown, step_thrown hguard hstep hs, halong, and_assoc]

end SrcProcess

/-- In a history of constructions and destructions nothing is thrown, and the interpreter is
initialised exactly while a source node is alive, if and only if no source node was constructed while
another one was alive. -/
theorem sources_coexist_iff {P : Type} [DecidableEq P] {guard : ScopedInterpreter}
    (hguard : guard.Lawful) {as : List (SrcProcessAct P)} {s : SrcProcess P}
    (h : (srcProcess guard).run .start as = some s) :
    (s.thrown = [] ∧ (s.initialized = true ↔ s.alive ≠ [])) ↔
      (srcProcess guard).Along SrcProcess.Alone .start as := by
  have hstart : (SrcProcess.start : SrcProcess P).OneAtMost := .inl ⟨rfl, rfl⟩
  obtain ⟨hs, hthrown⟩ := SrcProcess.run_thrown hguard h hstart
  constructor
  · intro hcoexist
    exact (hthrown.mp hcoexist.1).2
  · intro halone
    exact ⟨hthrown.mpr ⟨rfl, halone⟩, hs.initialized_iff⟩

/-- The class as pybind11 has it. -/
def scopedInterpreter : ScopedInterpreter where
  construct initialized :=
    if initialized then throw (.runtimeError "The interpreter is already running") else pure true
  destroy _ := false

theorem scopedInterpreter_lawful : scopedInterpreter.Lawful := ⟨⟨_, rfl⟩, rfl, rfl⟩

/-- One source after the other. -/
theorem sources_coexist_iff_oneByOne :
    ∃ s : SrcProcess Nat,
      (srcProcess scopedInterpreter).run .start
          [.construct 0 0 1, .destroy 0, .construct 1 1 1] = some s ∧
        s.thrown = [] ∧ (s.initialized = true ↔ s.alive ≠ []) := by
  have hrun : (srcProcess scopedInterpreter).run .start
      [.construct 0 0 1, .destroy 0, .construct 1 1 1] =
        some (⟨true, [1], []⟩ : SrcProcess Nat) := by decide +kernel
  exact ⟨_, hrun, (sources_coexist_iff scopedInterpreter_lawful hrun).mpr (by decide +kernel)⟩

/-- The construction of a second source throws. -/
theorem sources_coexist_fails :
    scopedInterpreter.Lawful ∧ ∃ s : SrcProcess Nat,
      (srcProcess scopedInterpreter).run .start [.construct 0 0 1, .construct 1 1 1] = some s ∧
        s.thrown = ["The interpreter is already running"] ∧ s.alive = [0] :=
  ⟨scopedInterpreter_lawful, ⟨true, [0], ["The interpreter is already running"]⟩,
    by decide +kernel, rfl, rfl⟩

end VideoStream
