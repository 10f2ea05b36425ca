import Mathlib.Data.Rat.Defs
import VideoStream.Nodes.VpSrcNode
import VideoStream.Objects.MetaObject

/-!
# A source node with its data source and its script

`VpSrcNode` leaves open which meta `get_frame_meta` returns and what `handle_frame_meta` does to it.
Here both are the code: the data source reads an image, scales it and makes a frame meta of it, and
`handle_frame_meta` hands the meta to the Python script by `PythonMethod::process`.

`cv::Mat` is a type `Image` of which nothing is known but that it can be resized and has a size. A
ratio is a rational number, as a `float` is. What the environment decides is part of the step: what
`read` returned (`read`), and what came of the call of the script (`process`). Between these calls
anybody, the script too, may make metas and write their attributes (`heap`).

An exception that leaves `handle_run` leaves the thread function, and ends the process (`terminated`).
-/

namespace VideoStream

open Library

/-- `cv::Mat`: `resize` is `cv::resize` by the same ratio in both directions. -/
class CvMat (Image : Type) where
  cols : Image → Int
  rows : Image → Int
  resize : Image → ℚ → Image

/-! ## `vp_data_source` -/

/-- The fields of a data source, but for `is_opened` and `frame_index`, which are in `SrcNode`. -/
structure VpDataSource where
  channelIndex : Int
  resizeRatio : ℚ
  videoWidth : Int
  videoHeight : Int
  fps : Int
  deriving DecidableEq

/-- The constructor, which asserts that the ratio is in range. -/
def vpDataSource (channelIndex : Int) (resizeRatio : ℚ) : Option VpDataSource :=
  if 0 < resizeRatio ∧ resizeRatio ≤ 1 then
    some
      { channelIndex := channelIndex
        resizeRatio := resizeRatio
        videoWidth := -1
        videoHeight := -1
        fps := -1 }
  else none

/-- The constructor of `vp_image_data_source`; which file it reads is left to `read`. The default
arguments are 1 and 1. -/
def vpImageDataSource (channelIndex interval : Int) (resizeRatio : ℚ) : Option VpDataSource :=
  if 1 ≤ interval ∧ interval ≤ 60 then vpDataSource channelIndex resizeRatio else none

/-- The constructor of `vp_src_node`: the data source it makes, and its assertion about the ratio. -/
def vpSrcNodeDataSource (channelIndex : Int) (resizeRatio : ℚ) : Option VpDataSource := do
  -- the ratio is not passed on, so the data source has the default arguments
  let dataSource ← vpImageDataSource channelIndex 1 1
  if 0 < resizeRatio ∧ resizeRatio ≤ 1 then some dataSource else none

section

variable {Image : Type} [CvMat Image]

/-- The image scaled by the ratio, which does nothing to it at ratio 1. -/
def scaled (ratio : ℚ) (frame : Image) : Image :=
  if ratio ≠ 1 then CvMat.resize frame ratio else frame

/-- `get_frame_meta`, with the image that was read and the new `frame_index`. -/
def VpDataSource.getFrameMeta (d : VpDataSource) (frameIndex : Int) (frame : Image) :
    VpDataSource × VpFrameMeta Image :=
  let resizeFrame := scaled d.resizeRatio frame
  let d := { d with videoWidth := CvMat.cols resizeFrame, videoHeight := CvMat.rows resizeFrame }
  (d, vpFrameMeta resizeFrame frameIndex d.channelIndex d.videoWidth d.videoHeight d.fps)

end

/-! ## The script -/

/-- What comes of importing the script and calling its function: a Python error, `None`, a
`vp_frame_meta`, or any other object. -/
inductive ScriptOutcome where
  | error
  | none
  | frameMeta (m : Nat)
  | object
  deriving DecidableEq

/-- `PythonMethod::process`. Python errors are caught; the `cast_error` of a failed cast is not one of
them. -/
def PythonMethod.process (m : Nat) : ScriptOutcome → Except String (Option Nat)
  | .error => .ok (some m)
  | .none => .ok (some m)
  | .frameMeta result => .ok (some result)
  | .object => .error "cast_error"

/-- `vp_src_node::handle_frame_meta`. The result of the script goes into the parameter, which is a
copy of the caller's pointer; what is left of it here is the log entry. -/
def SrcNode.handleFrameMeta (m : Nat) (outcome : ScriptOutcome) : Except String (Option Nat) := do
  let m ← PythonMethod.process m outcome
  return m

/-! ## The system -/

/-- A call of `process` that returned: its argument, what came of the script, and its result. -/
structure ScriptCall where
  argument : Nat
  outcome : ScriptOutcome
  result : Option Nat
  deriving DecidableEq

/-- What `handle_run` does with `out_queue` and `out_queue_semaphore`. -/
inductive OutEvent where
  | push (m : Option Nat)
  | signal
  deriving DecidableEq

/-- What a step of the handle thread did with them, read off the queue and the count before the step
and after it. -/
def SrcNode.outEvents {S : Type} (s s' : SrcNode Nat S) : List OutEvent :=
  (s'.node.outQueue.drop s.node.outQueue.length).map .push ++
    List.replicate (s'.node.outQueueSemaphore - s.node.outQueueSemaphore) .signal

/-- A source, its data source and the objects its metas point to. The rest is history: the images
that were read, the metas made of them and their frames, the calls of `process` that returned, and
what the handle thread has done with `out_queue`. -/
structure ScriptedSource (Image S : Type) where
  src : SrcNode Nat S
  dataSource : VpDataSource
  heap : MetaHeap Image
  terminated : Bool
  images : List Image
  frames : List (Nat × Image)
  processed : List ScriptCall
  outHistory : List OutEvent

inductive ScriptedAct (Image : Type) where
  | src (a : SrcAct Nat)
  | read (r : Option Image)
  | process (outcome : ScriptOutcome)
  | heap (a : MetaAct Image)
  deriving DecidableEq

/-- The handle thread is about to call `handle_frame_meta`. -/
def SrcPc.calls {M : Type} : SrcPc M → Bool
  | .handleFrame _ => true
  | _ => false

/-- A step that does not wait for the data source or the script. -/
def SrcNode.Plain {S : Type} (s : SrcNode Nat S) : SrcAct Nat → Prop
  | .read _ => False
  | .handle => s.node.handle.calls = false
  | _ => True

instance SrcNode.decidablePlain {S : Type} (s : SrcNode Nat S) : ∀ a, Decidable (s.Plain a)
  | .read _ => isFalse id
  | .handle => inferInstanceAs (Decidable (_ = _))
  | .openSource _ | .node _ | .start | .stop | .speak _ | .deinitialized | .destructor
  | .closer => isTrue trivial

namespace ScriptedSource

variable {Image S : Type} [CvMat Image]

/-- A step of the threads. -/
def srcStep (s : ScriptedSource Image S) (a : SrcAct Nat) : Option (ScriptedSource Image S) :=
  (s.src.step a).map fun src =>
    match a with
    | .handle => { s with src := src, outHistory := s.outHistory ++ s.src.outEvents src }
    | _ => { s with src := src }

/-- `get_frame_meta` returns. The meta it makes is a new object. -/
def readStep (s : ScriptedSource Image S) : Option Image → Option (ScriptedSource Image S)
  | none => (s.src.step (.read none)).map fun src => { s with src := src }
  | some image =>
      let (dataSource, m) := s.dataSource.getFrameMeta (s.src.frameIndex + 1) image
      (s.src.step (.read (some s.heap.length))).map fun src =>
        { s with
          src := src
          dataSource := dataSource
          heap := s.heap ++ [.frameMeta m]
          images := s.images ++ [image]
          frames := s.frames ++ [(s.heap.length, m.frame)] }

/-- `handle_frame_meta` returns, or an exception leaves it. -/
def processStep (s : ScriptedSource Image S) (outcome : ScriptOutcome) :
    Option (ScriptedSource Image S) :=
  match s.src.node.handle with
  | .handleFrame m =>
      match SrcNode.handleFrameMeta m outcome with
      | .ok result =>
          (s.src.step .handle).map fun src =>
            { s with
              src := src
              processed := s.processed ++ [⟨m, outcome, result⟩]
              outHistory := s.outHistory ++ s.src.outEvents src }
      | .error _ => some { s with terminated := true }
  | _ => none

/-- A step of the process, as long as it is there. -/
def step (s : ScriptedSource Image S) (a : ScriptedAct Image) : Option (ScriptedSource Image S) :=
  if s.terminated then none
  else
    match a with
    | .src a => if s.src.Plain a then s.srcStep a else none
    | .read r => s.readStep r
    | .process outcome => s.processStep outcome
    | .heap a => (s.heap.step a).map fun heap => { s with heap := heap }

end ScriptedSource

/-- A source node that was constructed with `resizeRatio`, and the world around it. -/
def scriptedSource {Image S : Type} [CvMat Image] (channelIndex : Int) (resizeRatio : ℚ) :
    System (ScriptedSource Image S) (ScriptedAct Image) where
  init s := ∃ isOpened subscribers dataSource heap,
    vpSrcNodeDataSource channelIndex resizeRatio = some dataSource ∧
      s =
        { src := SrcNode.start isOpened subscribers
          dataSource := dataSource
          heap := heap
          terminated := false
          images := []
          frames := []
          processed := []
          outHistory := [] }
  step := ScriptedSource.step

namespace ScriptedSource

variable {Image S : Type} [CvMat Image] {s s' : ScriptedSource Image S}

/-! ## The transitions -/

/-- The transitions of a scripted source. -/
inductive Step (s : ScriptedSource Image S) : ScriptedAct Image → ScriptedSource Image S → Prop
  | src (a : SrcAct Nat) (src : SrcNode Nat S) : s.src.Plain a → a ≠ .handle →
      s.src.step a = some src → Step s (.src a) { s with src := src }
  | handle (src : SrcNode Nat S) : s.src.Plain .handle → s.src.step .handle = some src →
      Step s (.src .handle) { s with src := src, outHistory := s.outHistory ++ s.src.outEvents src }
  | readNone (src : SrcNode Nat S) : s.src.step (.read none) = some src →
      Step s (.read none) { s with src := src }
  | read (image : Image) (src : SrcNode Nat S) :
      s.src.step (.read (some s.heap.length)) = some src →
      Step s (.read (some image))
        { s with
          src := src
          dataSource := (s.dataSource.getFrameMeta (s.src.frameIndex + 1) image).1
          heap :=
            s.heap ++ [.frameMeta (s.dataSource.getFrameMeta (s.src.frameIndex + 1) image).2]
          images := s.images ++ [image]
          frames := s.frames ++ [(s.heap.length, scaled s.dataSource.resizeRatio image)] }
  | process (m : Nat) (outcome : ScriptOutcome) (result : Option Nat) (src : SrcNode Nat S) :
      s.src.node.handle = .handleFrame m → SrcNode.handleFrameMeta m outcome = .ok result →
      s.src.step .handle = some src →
      Step s (.process outcome)
        { s with
          src := src
          processed := s.processed ++ [⟨m, outcome, result⟩]
          outHistory := s.outHistory ++ s.src.outEvents src }
  | escape (m : Nat) (outcome : ScriptOutcome) (msg : String) :
      s.src.node.handle = .handleFrame m → SrcNode.handleFrameMeta m outcome = .error msg →
      Step s (.process outcome) { s with terminated := true }
  | heap (a : MetaAct Image) (heap : MetaHeap Image) : s.heap.step a = some heap →
      Step s (.heap a) { s with heap := heap }

theorem step_cases {a : ScriptedAct Image} (h : s.step a = some s') :
    s.terminated = false ∧ Step s a s' := by
  unfold step at h
  split at h
  · cases h
  · next hrunning =>
      refine ⟨by simpa using hrunning, ?_⟩
      cases a with
      | src a =>
          simp only at h
          split at h
          · next hplain =>
              obtain ⟨src, hsrc, rfl⟩ := Option.map_eq_some_iff.mp h
              cases a with
              | handle => exact .handle src hplain hsrc
              | _ => exact .src _ src hplain (by simp) hsrc
          · cases h
      | read r =>
          cases r with
          | none =>
              obtain ⟨src, hsrc, rfl⟩ := Option.map_eq_some_iff.mp h
              exact .readNone src hsrc
          | some image =>
              obtain ⟨src, hsrc, rfl⟩ := Option.map_eq_some_iff.mp h
              exact .read image src hsrc
      | process outcome =>
          simp only [processStep] at h
          split at h
          · next m hp =>
              split at h
              · next result hresult =>
                  obtain ⟨src, hsrc, rfl⟩ := Option.map_eq_some_iff.mp h
                  exact .process m outcome result src hp hresult hsrc
              · next msg herror => cases h; exact .escape m outcome msg hp herror
          · cases h
      | heap a =>
          obtain ⟨heap, hheap, rfl⟩ := Option.map_eq_some_iff.mp h
          exact .heap a heap hheap

end ScriptedSource

end VideoStream
