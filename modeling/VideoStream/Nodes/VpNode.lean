import VideoStream.Library.System
import VideoStream.Nodes.HandleRun
import VideoStream.Nodes.Node

/-!
# `vp_node`

The handle thread of a plain node and the system of all its threads. The handlers of the loop body
are those of `HandleRun`; the copy of a complete batch to `out_queue` goes entry by entry, with the
`Push`, the hook and the `signal` of each entry as steps of their own, and the cache is cleared only
after the last entry.
-/

namespace VideoStream

open Library

/-- Where the handle thread stands in `vp_node::handle_run`. In the copying loop, `rest` are the
entries of the cache after the current one. `threw`: an exception left the thread function. -/
inductive HandlePc (M : Type) where
  | test
  | wait
  | pop
  | handlingHook (m : M)
  | callHandlers (m : M)
  | push (rest : List (Option M))
  | handledHook (i : Option M) (rest : List (Option M))
  | signal (rest : List (Option M))
  | deadPush
  | deadSignal
  | exited
  | threw
  deriving DecidableEq

/-- The handle thread of a `vp_node`: its position and its batch cache. -/
structure HandleRun (M : Type) where
  pc : HandlePc M
  frameMetaBatchCache : List (Option M)
  deriving DecidableEq

def HandlePc.hasExited {M : Type} : HandlePc M → Bool
  | .exited => true
  | _ => false

instance {M : Type} : HandleThread (HandleRun M) where
  exited h := h.pc.hasExited

abbrev VpNode (M S : Type) := Node (HandleRun M) M S

namespace VpNode

variable {M S : Type}

/-- A node whose threads have just been started. -/
def start (subscribers : List S) : VpNode M S := Node.start ⟨.test, []⟩ subscribers

variable [Meta M]

/-- The call of `handle_frame_meta(vector)`, if the handlers made it. -/
def batchEvents (h : Handled M) : List (Event M) :=
  if h.batchComplete then [.batch h.frameMetaBatchCache] else []

/-- `vp_node::handle_run`. -/
def handleStep (cfg : NodeConfig M) (s : VpNode M S) : Option (VpNode M S) :=
  match s.handle.pc with
  | .test =>
      if s.alive then some { s with handle.pc := .wait }
      else some { s with handle.pc := .deadPush }
  | .wait =>
      if 0 < s.inQueueSemaphore then
        some { s with inQueueSemaphore := s.inQueueSemaphore - 1, handle.pc := .pop }
      else none
  | .pop =>
      match s.inQueue with
      | [] => none
      | none :: rest => some { s with inQueue := rest, handle.pc := .test }
      | some m :: rest =>
          some
            { s with
              inQueue := rest, trace := s.trace ++ [.popped m], handle.pc := .handlingHook m }
  | .handlingHook m =>
      some
        { s with
          trace := s.trace ++ [.handling s.inQueue.length m], handle.pc := .callHandlers m }
  | .callHandlers m =>
      match callHandlers cfg s.handle.frameMetaBatchCache m with
      | .error _ => some { s with handle.pc := .threw }
      | .ok h =>
          let s := { s with trace := s.trace ++ batchEvents h }
          match tail m h with
          | .consumed => some { s with handle := ⟨.test, []⟩ }
          | .emit =>
              some { s with handle := ⟨.push h.frameMetaBatchCache, h.frameMetaBatchCache⟩ }
          | .keep => some { s with handle := ⟨.test, h.frameMetaBatchCache⟩ }
  | .push [] => some { s with handle := ⟨.test, []⟩ }
  | .push (i :: rest) =>
      some
        { s with
          outQueue := s.outQueue ++ [i], trace := s.trace ++ [.outPush i],
          handle.pc := .handledHook i rest }
  | .handledHook i rest =>
      some
        { s with
          trace := s.trace ++ [.handled s.outQueue.length i], handle.pc := .signal rest }
  | .signal rest =>
      some { s with outQueueSemaphore := s.outQueueSemaphore + 1, handle.pc := .push rest }
  | .deadPush =>
      some
        { s with
          outQueue := s.outQueue ++ [none], trace := s.trace ++ [.outPush none],
          handle.pc := .deadSignal }
  | .deadSignal =>
      some { s with outQueueSemaphore := s.outQueueSemaphore + 1, handle.pc := .exited }
  | .exited => none
  | .threw => none

end VpNode

/-- The steps of a plain node. -/
inductive VpAct (M : Type) where
  | handle
  | node (a : NodeAct M)
  deriving DecidableEq

/-- A plain node with all its threads. -/
def vpNode {M S : Type} [Meta M] (cfg : NodeConfig M) : System (VpNode M S) (VpAct M) where
  init s := ∃ subscribers, s = VpNode.start subscribers
  step s a :=
    match a with
    | .handle => s.handleStep cfg
    | .node a => s.step a

namespace VpNode

variable {M S : Type} [Meta M] {cfg : NodeConfig M}

/-! ## The transitions of the handle thread -/

/-- The transitions of `handleStep`. -/
inductive HandleStep (cfg : NodeConfig M) (s : VpNode M S) : VpNode M S → Prop
  | enter : s.handle.pc = .test → s.alive = true →
      HandleStep cfg s { s with handle.pc := .wait }
  | leave : s.handle.pc = .test → s.alive = false →
      HandleStep cfg s { s with handle.pc := .deadPush }
  | wait : s.handle.pc = .wait → 0 < s.inQueueSemaphore →
      HandleStep cfg s { s with inQueueSemaphore := s.inQueueSemaphore - 1, handle.pc := .pop }
  | popNull (rest : List (Option M)) : s.handle.pc = .pop → s.inQueue = none :: rest →
      HandleStep cfg s { s with inQueue := rest, handle.pc := .test }
  | popMeta (m : M) (rest : List (Option M)) : s.handle.pc = .pop → s.inQueue = some m :: rest →
      HandleStep cfg s
        { s with inQueue := rest, trace := s.trace ++ [.popped m], handle.pc := .handlingHook m }
  | handlingHook (m : M) : s.handle.pc = .handlingHook m →
      HandleStep cfg s
        { s with
          trace := s.trace ++ [.handling s.inQueue.length m], handle.pc := .callHandlers m }
  | throws (m : M) (msg : String) : s.handle.pc = .callHandlers m →
      callHandlers cfg s.handle.frameMetaBatchCache m = .error msg →
      HandleStep cfg s { s with handle.pc := .threw }
  | consumed (m : M) (h : Handled M) : s.handle.pc = .callHandlers m →
      callHandlers cfg s.handle.frameMetaBatchCache m = .ok h → tail m h = .consumed →
      HandleStep cfg s { s with trace := s.trace ++ batchEvents h, handle := ⟨.test, []⟩ }
  | emit (m : M) (h : Handled M) : s.handle.pc = .callHandlers m →
      callHandlers cfg s.handle.frameMetaBatchCache m = .ok h → tail m h = .emit →
      HandleStep cfg s
        { s with
          trace := s.trace ++ batchEvents h,
          handle := ⟨.push h.frameMetaBatchCache, h.frameMetaBatchCache⟩ }
  | keep (m : M) (h : Handled M) : s.handle.pc = .callHandlers m →
      callHandlers cfg s.handle.frameMetaBatchCache m = .ok h → tail m h = .keep →
      HandleStep cfg s
        { s with
          trace := s.trace ++ batchEvents h, handle := ⟨.test, h.frameMetaBatchCache⟩ }
  | pushEnd : s.handle.pc = .push [] → HandleStep cfg s { s with handle := ⟨.test, []⟩ }
  | push (i : Option M) (rest : List (Option M)) : s.handle.pc = .push (i :: rest) →
      HandleStep cfg s
        { s with
          outQueue := s.outQueue ++ [i], trace := s.trace ++ [.outPush i],
          handle.pc := .handledHook i rest }
  | handledHook (i : Option M) (rest : List (Option M)) :
      s.handle.pc = .handledHook i rest →
      HandleStep cfg s
        { s with
          trace := s.trace ++ [.handled s.outQueue.length i], handle.pc := .signal rest }
  | signal (rest : List (Option M)) : s.handle.pc = .signal rest →
      HandleStep cfg s
        { s with outQueueSemaphore := s.outQueueSemaphore + 1, handle.pc := .push rest }
  | deadPush : s.handle.pc = .deadPush →
      HandleStep cfg s
        { s with
          outQueue := s.outQueue ++ [none], trace := s.trace ++ [.outPush none],
          handle.pc := .deadSignal }
  | deadSignal : s.handle.pc = .deadSignal →
      HandleStep cfg s
        { s with outQueueSemaphore := s.outQueueSemaphore + 1, handle.pc := .exited }

theorem handleStep_cases {s s' : VpNode M S} (h : s.handleStep cfg = some s') :
    HandleStep cfg s s' := by
  unfold handleStep at h
  cases hp : s.handle.pc with
  | test =>
      simp only [hp] at h
      split at h
      · next ha => cases h; exact .enter hp ha
      · next ha => cases h; exact .leave hp (by simpa using ha)
  | wait =>
      simp only [hp] at h
      split at h
      · next hpos => cases h; exact .wait hp hpos
      · cases h
  | pop =>
      simp only [hp] at h
      split at h
      · cases h
      · next rest hq => cases h; exact .popNull rest hp hq
      · next m rest hq => cases h; exact .popMeta m rest hp hq
  | handlingHook m => simp only [hp] at h; cases h; exact .handlingHook m hp
  | callHandlers m =>
      simp only [hp] at h
      split at h
      · next msg hc => cases h; exact .throws m msg hp hc
      · next r hc =>
          split at h
          · next ht => cases h; exact .consumed m r hp hc ht
          · next ht => cases h; exact .emit m r hp hc ht
          · next ht => cases h; exact .keep m r hp hc ht
  | push rest =>
      cases rest with
      | nil => simp only [hp] at h; cases h; exact .pushEnd hp
      | cons i rest => simp only [hp] at h; cases h; exact .push i rest hp
  | handledHook i rest => simp only [hp] at h; cases h; exact .handledHook i rest hp
  | signal rest => simp only [hp] at h; cases h; exact .signal rest hp
  | deadPush => simp only [hp] at h; cases h; exact .deadPush hp
  | deadSignal => simp only [hp] at h; cases h; exact .deadSignal hp
  | exited => simp only [hp] at h; cases h
  | threw => simp only [hp] at h; cases h

end VpNode

end VideoStream
