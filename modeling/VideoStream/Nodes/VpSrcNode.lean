import VideoStream.Library.System
import VideoStream.Nodes.Node

/-!
# `vp_src_node`

A source node overrides `handle_run`: it takes frames from its data source, not from `in_queue`,
and passes a gate before each of them. It overrides `deinitialized` too, which opens the gate first;
the destructor closes the data source before that.

The data source is the environment: `open` and `read` return what the action says. `is_open` reads
the flag `is_opened`, which a successful `open` sets and `close` clears. The constructor always makes
a data source, so the null test at the head of `handle_run` is not a step, and `handle_frame_meta`
returns: an exception out of it would end the process, and with it the run. `alive` and `is_open`
in the loop test are two reads, hence two steps.

The gate is its flag `opened_`: `start`, `stop` and the `open` of `deinitialized` set it in one
critical section each, so that a `start` that waits for the mutex comes behind the `stop` that holds
it, and `knock` passes where it is set. The handle thread is the only one that knocks; so the notify
of `open` goes to it whenever it sleeps, and leaves it asleep only in front of a closed gate
(`one_knocker_released`).
-/

namespace VideoStream

open Library

/-- Where the handle thread stands in `vp_src_node::handle_run`; `reading` is inside
`get_frame_meta`. -/
inductive SrcPc (M : Type) where
  | isOpen
  | openSource
  | test
  | testOpen
  | knock
  | testAlive
  | getFrame
  | reading
  | push (m : M)
  | handleFrame (m : M)
  | signal (m : M)
  | deadPush
  | deadSignal
  | exited
  deriving DecidableEq

def SrcPc.hasExited {M : Type} : SrcPc M → Bool
  | .exited => true
  | _ => false

instance {M : Type} : HandleThread (SrcPc M) where
  exited := SrcPc.hasExited

/-- The part of the destructor and of `vp_src_node::deinitialized` before
`vp_node::deinitialized`. -/
inductive SrcDeinitPc where
  | idle
  | closeSource
  | openGate
  deriving DecidableEq, Repr

/-- The state of a source node: the node, `gate.opened_`, and the data source's `is_opened` and
`frame_index`. -/
structure SrcNode (M S : Type) where
  node : Node (SrcPc M) M S
  gate : Bool
  isOpened : Bool
  frameIndex : Int
  closer : SrcDeinitPc

/-- The steps of a source node. `openSource` and `read` carry what the data source returned;
`read` builds the frame meta. `closer` goes on with the destructor or with `deinitialized`. -/
inductive SrcAct (M : Type) where
  | handle
  | openSource (ok : Bool)
  | read (m : Option M)
  | node (a : NodeAct M)
  | start
  | stop
  | speak (m : M)
  | deinitialized
  | destructor
  | closer
  deriving DecidableEq

namespace SrcNode

variable {M S : Type}

/-- A source node whose threads have just been started. The data source may be open already. -/
def start (isOpened : Bool) (subscribers : List S) : SrcNode M S where
  node := Node.start .isOpen subscribers
  gate := false
  isOpened := isOpened
  frameIndex := -1
  closer := .idle

/-- `vp_src_node::handle_run`, the steps that do not wait for the data source. -/
def handleStep (s : SrcNode M S) : Option (SrcNode M S) :=
  match s.node.handle with
  | .isOpen =>
      if s.isOpened then some { s with node.handle := .test }
      else some { s with node.handle := .openSource }
  | .openSource => none
  | .test =>
      if s.node.alive then some { s with node.handle := .testOpen }
      else some { s with node.handle := .deadPush }
  | .testOpen =>
      if s.isOpened then some { s with node.handle := .knock }
      else some { s with node.handle := .deadPush }
  | .knock => if s.gate then some { s with node.handle := .testAlive } else none
  | .testAlive =>
      if s.node.alive then some { s with node.handle := .getFrame }
      else some { s with node.handle := .deadPush }
  | .getFrame =>
      some { s with node.trace := s.node.trace ++ [.getFrame], node.handle := .reading }
  | .reading => none
  | .push m =>
      some
        { s with
          node.outQueue := s.node.outQueue ++ [some m],
          node.trace := s.node.trace ++ [.outPush (some m)], node.handle := .handleFrame m }
  | .handleFrame m =>
      some { s with node.trace := s.node.trace ++ [.frameHandled m], node.handle := .signal m }
  | .signal _ =>
      some
        { s with
          node.outQueueSemaphore := s.node.outQueueSemaphore + 1, node.handle := .test }
  | .deadPush =>
      some
        { s with
          node.outQueue := s.node.outQueue ++ [none],
          node.trace := s.node.trace ++ [.outPush none], node.handle := .deadSignal }
  | .deadSignal =>
      some
        { s with
          node.outQueueSemaphore := s.node.outQueueSemaphore + 1, node.handle := .exited }
  | .exited => none

/-- `data_source_->open()` returns; on failure `handle_run` returns at once. -/
def openStep (s : SrcNode M S) (ok : Bool) : Option (SrcNode M S) :=
  match s.node.handle with
  | .openSource =>
      if ok then some { s with isOpened := true, node.handle := .test }
      else some { s with node.handle := .exited }
  | _ => none

/-- `get_frame_meta` returns: a new meta with the next `frame_index`, or null after a failed
`read`. -/
def readStep (s : SrcNode M S) (r : Option M) : Option (SrcNode M S) :=
  match s.node.handle, r with
  | .reading, none => some { s with node.handle := .deadPush }
  | .reading, some m =>
      some
        { s with
          frameIndex := s.frameIndex + 1,
          node.trace := s.node.trace ++ [.produced m (s.frameIndex + 1)],
          node.handle := .push m }
  | _, _ => none

/-- `data_source_->close()`, then `gate.open()`, then `vp_node::deinitialized` begins. -/
def closerStep (s : SrcNode M S) : Option (SrcNode M S) :=
  match s.closer with
  | .idle => none
  | .closeSource => some { s with isOpened := false, closer := .openGate }
  | .openGate => some { s with gate := true, closer := .idle, node.deinit := .alive }

/-- No thread is in `deinitialized` or in the destructor. -/
def Closable (s : SrcNode M S) : Prop := s.closer = .idle ∧ s.node.deinit = .idle

instance (s : SrcNode M S) : Decidable s.Closable := inferInstanceAs (Decidable (_ ∧ _))

/-- The step function of a source node. The base class's `deinitialized` is overridden. -/
def step (s : SrcNode M S) : SrcAct M → Option (SrcNode M S)
  | .handle => s.handleStep
  | .openSource ok => s.openStep ok
  | .read r => s.readStep r
  | .node .deinitialized => none
  | .node a => (s.node.step a).map fun node => { s with node := node }
  | .start => some { s with gate := true }
  | .stop => some { s with gate := false }
  | .speak m => some { s with node.trace := s.node.trace ++ [.speak m] }
  | .deinitialized => if s.Closable then some { s with closer := .openGate } else none
  | .destructor => if s.Closable then some { s with closer := .closeSource } else none
  | .closer => s.closerStep

end SrcNode

/-- A source node with all its threads. -/
def vpSrcNode {M S : Type} : System (SrcNode M S) (SrcAct M) where
  init s := ∃ isOpened subscribers, s = SrcNode.start isOpened subscribers
  step := SrcNode.step

namespace SrcNode

variable {M S : Type}

/-! ## The transitions of the handle thread -/

/-- The transitions of `handleStep`. -/
inductive HandleStep (s : SrcNode M S) : SrcNode M S → Prop
  | isOpen : s.node.handle = .isOpen → s.isOpened = true →
      HandleStep s { s with node.handle := .test }
  | notOpen : s.node.handle = .isOpen → s.isOpened = false →
      HandleStep s { s with node.handle := .openSource }
  | enter : s.node.handle = .test → s.node.alive = true →
      HandleStep s { s with node.handle := .testOpen }
  | leave : s.node.handle = .test → s.node.alive = false →
      HandleStep s { s with node.handle := .deadPush }
  | stillOpen : s.node.handle = .testOpen → s.isOpened = true →
      HandleStep s { s with node.handle := .knock }
  | closed : s.node.handle = .testOpen → s.isOpened = false →
      HandleStep s { s with node.handle := .deadPush }
  | knock : s.node.handle = .knock → s.gate = true →
      HandleStep s { s with node.handle := .testAlive }
  | stillAlive : s.node.handle = .testAlive → s.node.alive = true →
      HandleStep s { s with node.handle := .getFrame }
  | notAlive : s.node.handle = .testAlive → s.node.alive = false →
      HandleStep s { s with node.handle := .deadPush }
  | getFrame : s.node.handle = .getFrame →
      HandleStep s { s with node.trace := s.node.trace ++ [.getFrame], node.handle := .reading }
  | push (m : M) : s.node.handle = .push m →
      HandleStep s
        { s with
          node.outQueue := s.node.outQueue ++ [some m],
          node.trace := s.node.trace ++ [.outPush (some m)], node.handle := .handleFrame m }
  | handleFrame (m : M) : s.node.handle = .handleFrame m →
      HandleStep s
        { s with node.trace := s.node.trace ++ [.frameHandled m], node.handle := .signal m }
  | signal (m : M) : s.node.handle = .signal m →
      HandleStep s
        { s with
          node.outQueueSemaphore := s.node.outQueueSemaphore + 1, node.handle := .test }
  | deadPush : s.node.handle = .deadPush →
      HandleStep s
        { s with
          node.outQueue := s.node.outQueue ++ [none],
          node.trace := s.node.trace ++ [.outPush none], node.handle := .deadSignal }
  | deadSignal : s.node.handle = .deadSignal →
      HandleStep s
        { s with
          node.outQueueSemaphore := s.node.outQueueSemaphore + 1, node.handle := .exited }

theorem handleStep_cases {s s' : SrcNode M S} (h : s.handleStep = some s') :
    HandleStep s s' := by
  unfold handleStep at h
  cases hp : s.node.handle with
  | isOpen =>
      simp only [hp] at h
      split at h
      · next ho => cases h; exact .isOpen hp ho
      · next ho => cases h; exact .notOpen hp (by simpa using ho)
  | openSource => simp only [hp] at h; cases h
  | test =>
      simp only [hp] at h
      split at h
      · next ha => cases h; exact .enter hp ha
      · next ha => cases h; exact .leave hp (by simpa using ha)
  | testOpen =>
      simp only [hp] at h
      split at h
      · next ho => cases h; exact .stillOpen hp ho
      · next ho => cases h; exact .closed hp (by simpa using ho)
  | knock =>
      simp only [hp] at h
      split at h
      · next hg => cases h; exact .knock hp hg
      · cases h
  | testAlive =>
      simp only [hp] at h
      split at h
      · next ha => cases h; exact .stillAlive hp ha
      · next ha => cases h; exact .notAlive hp (by simpa using ha)
  | getFrame => simp only [hp] at h; cases h; exact .getFrame hp
  | reading => simp only [hp] at h; cases h
  | push m => simp only [hp] at h; cases h; exact .push m hp
  | handleFrame m => simp only [hp] at h; cases h; exact .handleFrame m hp
  | signal m => simp only [hp] at h; cases h; exact .signal m hp
  | deadPush => simp only [hp] at h; cases h; exact .deadPush hp
  | deadSignal => simp only [hp] at h; cases h; exact .deadSignal hp
  | exited => simp only [hp] at h; cases h

theorem openStep_cases {s s' : SrcNode M S} {ok : Bool} (h : s.openStep ok = some s') :
    s.node.handle = .openSource ∧
      (ok = true ∧ s' = { s with isOpened := true, node.handle := .test } ∨
        ok = false ∧ s' = { s with node.handle := .exited }) := by
  unfold openStep at h
  split at h
  · next hp => cases ok <;> (cases h; simp [hp])
  · cases h

theorem readStep_cases {s s' : SrcNode M S} {r : Option M} (h : s.readStep r = some s') :
    s.node.handle = .reading ∧
      (r = none ∧ s' = { s with node.handle := .deadPush } ∨
        ∃ m, r = some m ∧
          s' = { s with
            frameIndex := s.frameIndex + 1,
            node.trace := s.node.trace ++ [.produced m (s.frameIndex + 1)],
            node.handle := .push m }) := by
  unfold readStep at h
  split at h
  · next hp => cases h; exact ⟨hp, .inl ⟨rfl, rfl⟩⟩
  · next m hp => cases h; exact ⟨hp, .inr ⟨m, rfl, rfl⟩⟩
  · cases h

theorem closerStep_cases {s s' : SrcNode M S} (h : s.closerStep = some s') :
    s.closer = .closeSource ∧ s' = { s with isOpened := false, closer := .openGate } ∨
      s.closer = .openGate ∧
        s' = { s with gate := true, closer := .idle, node.deinit := .alive } := by
  unfold closerStep at h
  split at h
  · cases h
  · next hp => cases h; exact .inl ⟨hp, rfl⟩
  · next hp => cases h; exact .inr ⟨hp, rfl⟩

theorem step_node {s : SrcNode M S} {a : NodeAct M} (ha : a ≠ .deinitialized) :
    s.step (.node a) = (s.node.step a).map fun node => { s with node := node } := by
  cases a <;> first | rfl | exact absurd rfl ha

/-- A shared step of a source node is a step of its node, and not the base `deinitialized`. -/
theorem nodeStep_cases {s s' : SrcNode M S} {a : NodeAct M} (h : s.step (.node a) = some s') :
    a ≠ .deinitialized ∧ ∃ node, s.node.step a = some node ∧ s' = { s with node := node } := by
  have ha : a ≠ .deinitialized := by
    rintro rfl
    cases h
  rw [step_node ha] at h
  obtain ⟨node, hn, rfl⟩ := Option.map_eq_some_iff.mp h
  exact ⟨ha, node, hn, rfl⟩

theorem deinitialized_cases {s s' : SrcNode M S} (h : s.step .deinitialized = some s') :
    s.Closable ∧ s' = { s with closer := .openGate } := by
  simp only [step] at h
  split at h
  · next hc => cases h; exact ⟨hc, rfl⟩
  · cases h

theorem destructor_cases {s s' : SrcNode M S} (h : s.step .destructor = some s') :
    s.Closable ∧ s' = { s with closer := .closeSource } := by
  simp only [step] at h
  split at h
  · next hc => cases h; exact ⟨hc, rfl⟩
  · cases h

/-! ## The transitions of a source node -/

/-- The transitions of `step`. The control interface and the teardown have one for all: what they
change outside of the data source is the gate and the position of the teardown. -/
inductive Step (s : SrcNode M S) : SrcAct M → SrcNode M S → Prop
  | handle (s' : SrcNode M S) : s.handleStep = some s' → Step s .handle s'
  | opened : s.node.handle = .openSource →
      Step s (.openSource true) { s with isOpened := true, node.handle := .test }
  | notOpened : s.node.handle = .openSource →
      Step s (.openSource false) { s with node.handle := .exited }
  | readNone : s.node.handle = .reading →
      Step s (.read none) { s with node.handle := .deadPush }
  | read (m : M) : s.node.handle = .reading →
      Step s (.read (some m))
        { s with
          frameIndex := s.frameIndex + 1,
          node.trace := s.node.trace ++ [.produced m (s.frameIndex + 1)],
          node.handle := .push m }
  | node (a : NodeAct M) (node : Node (SrcPc M) M S) : a ≠ .deinitialized →
      s.node.step a = some node → Step s (.node a) { s with node := node }
  | speak (m : M) : Step s (.speak m) { s with node.trace := s.node.trace ++ [.speak m] }
  | control (a : SrcAct M) (gate isOpened : Bool) (closer : SrcDeinitPc) (deinit : DeinitPc) :
      a ∈ [SrcAct.start, .stop, .deinitialized, .destructor, .closer] →
      Step s a
        { s with
          gate := gate, isOpened := isOpened, closer := closer, node.deinit := deinit }

theorem step_cases {s s' : SrcNode M S} {a : SrcAct M} (h : s.step a = some s') : Step s a s' := by
  cases a with
  | handle => exact .handle s' h
  | openSource ok =>
      obtain ⟨hp, ⟨rfl, rfl⟩ | ⟨rfl, rfl⟩⟩ := openStep_cases h
      · exact .opened hp
      · exact .notOpened hp
  | read r =>
      obtain ⟨hp, ⟨rfl, rfl⟩ | ⟨m, rfl, rfl⟩⟩ := readStep_cases h
      · exact .readNone hp
      · exact .read m hp
  | node a =>
      obtain ⟨ha, node, hn, rfl⟩ := nodeStep_cases h
      exact .node a node ha hn
  | speak m => cases h; exact .speak m
  | start => cases h; exact .control .start true s.isOpened s.closer s.node.deinit (by simp)
  | stop => cases h; exact .control .stop false s.isOpened s.closer s.node.deinit (by simp)
  | deinitialized =>
      obtain ⟨-, rfl⟩ := deinitialized_cases h
      exact .control .deinitialized s.gate s.isOpened .openGate s.node.deinit (by simp)
  | destructor =>
      obtain ⟨-, rfl⟩ := destructor_cases h
      exact .control .destructor s.gate s.isOpened .closeSource s.node.deinit (by simp)
  | closer =>
      rcases closerStep_cases h with ⟨-, rfl⟩ | ⟨-, rfl⟩
      · exact .control .closer s.gate false .openGate s.node.deinit (by simp)
      · exact .control .closer true s.isOpened .idle .alive (by simp)

end SrcNode

end VideoStream
