import VideoStream.Library.Weight
import VideoStream.Objects.Meta

/-!
# The parts that all nodes share

A node is a shared state touched by several threads: the handle thread, the dispatch thread, the
threads that call `meta_flow` or `pending_meta`, and the thread that runs `deinitialized`. Every
access to a queue, a semaphore, a flag or a hook port is a step of its own, so that the
interleavings of the steps are those of the code. What a `vp_node` and a `vp_src_node` do
differently is the handle thread: its local state `H` is a parameter here.

Modelling choices.

* `vp_semaphore` is its count: `wait` is enabled while the count is positive and takes one permit,
  `signal` adds one. `ThreadSafeQueue` is the list of its entries; a null pointer is `none`.
* The ports of `vp_meta_hookable` are events of `trace`, the history of the run. An event is there
  whether or not a hooker is installed. Nothing reads `trace`.
* `push_meta` holds `subscribers_lock` while it goes through the subscribers, so the dispatch
  thread works on the list as it was when the call began. The three steps of each subscriber's
  `meta_flow` are steps of the dispatch thread; here they leave the node itself alone, and
  `Network` gives them their effect on the subscriber.
* A call of `meta_flow` or `pending_meta` in progress is an entry of `calls`. Which thread makes it
  does not matter, so any number of calls may be in progress.
-/

namespace VideoStream

/-- The handle thread of a class of nodes: whether it has returned from `handle_run`. -/
class HandleThread (H : Type) where
  exited : H → Bool

/-- What can be observed of a node's run, oldest first in `Node.trace`. The hook ports carry the
queue size that is passed to the hooker. -/
inductive Event (M : Type) where
  /-- `meta_flow`: `in_queue.Push(meta)` -/
  | inPush (m : M)
  /-- `invoke_meta_arriving_hooker` -/
  | arriving (queueSize : Nat) (m : M)
  /-- `handle_run`: `in_queue.WaitAndPop` returned a non-null meta -/
  | popped (m : M)
  /-- `invoke_meta_handling_hooker` -/
  | handling (queueSize : Nat) (m : M)
  /-- the call of `handle_frame_meta(vector)` -/
  | batch (metas : List (Option M))
  /-- `vp_src_node`: `get_frame_meta` begins -/
  | getFrame
  /-- `vp_src_node`: `get_frame_meta` returned a meta and gave it this `frame_index` -/
  | produced (m : M) (frameIndex : Int)
  /-- `vp_src_node`: `handle_frame_meta` returned -/
  | frameHandled (m : M)
  /-- `out_queue.Push` -/
  | outPush (m : Option M)
  /-- `invoke_meta_handled_hooker` -/
  | handled (queueSize : Nat) (m : Option M)
  /-- `invoke_meta_leaving_hooker` -/
  | leaving (queueSize : Nat) (m : M)
  /-- the dispatch thread's call of `push_meta` -/
  | pushMeta (m : M)
  /-- `vp_src_node::speak`: its call of `push_meta` -/
  | speak (m : M)
  deriving DecidableEq

/-- The meta of a call of `push_meta` by the dispatch thread. -/
def Event.pushed {M : Type} : Event M → Option M
  | .pushMeta m => some m
  | _ => none

/-- The entry of a `Push` on `in_queue` by `meta_flow`. -/
def Event.inPushed {M : Type} : Event M → Option M
  | .inPush m => some m
  | _ => none

/-- The entry of a `Push` on `out_queue`. -/
def Event.outPushed {M : Type} : Event M → Option (Option M)
  | .outPush m => some m
  | _ => none

/-- The meta that the handle thread popped. -/
def Event.taken {M : Type} : Event M → Option M
  | .popped m => some m
  | _ => none

/-- The argument of a call of `handle_frame_meta(vector)`. -/
def Event.batched {M : Type} : Event M → Option (List (Option M))
  | .batch metas => some metas
  | _ => none

/-- The events of the threads that all nodes share. -/
def Event.isShared {M : Type} : Event M → Bool
  | .inPush _ | .arriving _ _ | .outPush _ | .handled _ _ | .leaving _ _ | .pushMeta _ => true
  | _ => false

/-- Where a thread stands in the body of `meta_flow` or `pending_meta`: before the `Push`, before
the hook, before the `signal`. -/
inductive FlowPc where
  | push
  | hook
  | signal
  deriving DecidableEq, Repr

/-- Where the dispatch thread stands in `dispatch_run`; `publish m rest ph` is inside `push_meta`,
in the `meta_flow` of the first subscriber of `rest`. `threw`: `Front` found the queue empty. -/
inductive DispatchPc (M S : Type) where
  | test
  | wait
  | front
  | leavingHook (m : M)
  | pushMeta (m : M)
  | publish (m : M) (rest : List S) (ph : FlowPc)
  | pop (m : M)
  | exited
  | threw
  deriving DecidableEq

/-- Where a thread stands in `vp_node::deinitialized`; `idle` is outside. -/
inductive DeinitPc where
  | idle
  | alive
  | push
  | signal
  | joinHandle
  | joinDispatch
  deriving DecidableEq, Repr

/-- A call in progress. `meta_flow` returns at once on `nullptr`, `pending_meta` does not. -/
inductive Call (M : Type) where
  | metaFlow (m : M) (pc : FlowPc)
  | pendingMeta (m : Option M) (pc : FlowPc)
  deriving DecidableEq

/-- The state of a node, with the field names of `vp_node`. -/
structure Node (H M S : Type) where
  alive : Bool
  inQueue : List (Option M)
  outQueue : List (Option M)
  inQueueSemaphore : Nat
  outQueueSemaphore : Nat
  handle : H
  dispatch : DispatchPc M S
  calls : List (Call M)
  deinit : DeinitPc
  handleJoinable : Bool
  dispatchJoinable : Bool
  subscribers : List S
  trace : List (Event M)

/-- The steps of the threads that all nodes share. `metaFlow` and `pendingMeta` begin a call,
`call i` takes the next step of the `i`-th call in progress; `deinitialized` begins, `deinit` goes
on. -/
inductive NodeAct (M : Type) where
  | dispatch
  | metaFlow (m : Option M)
  | pendingMeta (m : Option M)
  | call (i : Nat)
  | deinitialized
  | deinit
  deriving DecidableEq

namespace Node

variable {H M S : Type}

/-- A node whose threads have been started and have not taken a step. -/
def start (h : H) (subscribers : List S) : Node H M S where
  alive := true
  inQueue := []
  outQueue := []
  inQueueSemaphore := 0
  outQueueSemaphore := 0
  handle := h
  dispatch := .test
  calls := []
  deinit := .idle
  handleJoinable := true
  dispatchJoinable := true
  subscribers := subscribers
  trace := []

/-- The metas given to `push_meta` so far. -/
def pushedMetas (s : Node H M S) : List M := s.trace.filterMap Event.pushed

/-! ## The dispatch thread -/

/-- The dispatch thread inside `push_meta`: `Push`, hook and `signal` of the first subscriber's
`meta_flow`, then the next subscriber, then the return. -/
def publishNext (m : M) : List S → FlowPc → DispatchPc M S
  | [], _ => .pop m
  | k :: rest, .push => .publish m (k :: rest) .hook
  | k :: rest, .hook => .publish m (k :: rest) .signal
  | _ :: rest, .signal => .publish m rest .push

/-- `vp_node::dispatch_run`. -/
def dispatchStep (s : Node H M S) : Option (Node H M S) :=
  match s.dispatch with
  | .test =>
      if s.alive then some { s with dispatch := .wait } else some { s with dispatch := .exited }
  | .wait =>
      if 0 < s.outQueueSemaphore then
        some { s with outQueueSemaphore := s.outQueueSemaphore - 1, dispatch := .front }
      else none
  | .front =>
      match s.outQueue with
      | [] => some { s with dispatch := .threw }
      | none :: _ => some { s with dispatch := .test }
      | some m :: _ => some { s with dispatch := .leavingHook m }
  | .leavingHook m =>
      some { s with trace := s.trace ++ [.leaving s.outQueue.length m], dispatch := .pushMeta m }
  | .pushMeta m =>
      some { s with trace := s.trace ++ [.pushMeta m], dispatch := .publish m s.subscribers .push }
  | .publish m rest ph => some { s with dispatch := publishNext m rest ph }
  | .pop _ => some { s with outQueue := s.outQueue.tail, dispatch := .test }
  | .exited => none
  | .threw => none

/-! ## The callers of `meta_flow` and `pending_meta` -/

/-- `vp_node::meta_flow` on a non-null meta. -/
def metaFlowBody (s : Node H M S) (m : M) : FlowPc → Node H M S
  | .push => { s with inQueue := s.inQueue ++ [some m], trace := s.trace ++ [.inPush m] }
  | .hook => { s with trace := s.trace ++ [.arriving s.inQueue.length m] }
  | .signal => { s with inQueueSemaphore := s.inQueueSemaphore + 1 }

/-- `vp_node::pending_meta`. -/
def pendingMetaBody (s : Node H M S) (m : Option M) : FlowPc → Node H M S
  | .push => { s with outQueue := s.outQueue ++ [m], trace := s.trace ++ [.outPush m] }
  | .hook => { s with trace := s.trace ++ [.handled s.outQueue.length m] }
  | .signal => { s with outQueueSemaphore := s.outQueueSemaphore + 1 }

/-- The step a call in progress takes next. -/
def callBody (s : Node H M S) : Call M → Node H M S
  | .metaFlow m pc => s.metaFlowBody m pc
  | .pendingMeta m pc => s.pendingMetaBody m pc

end Node

/-- The program counter after this step; `none`: the call returns. -/
def FlowPc.next : FlowPc → Option FlowPc
  | .push => some .hook
  | .hook => some .signal
  | .signal => none

/-- The call after its next step; `none`: it returned. -/
def Call.next {M : Type} : Call M → Option (Call M)
  | .metaFlow m pc => pc.next.map (.metaFlow m)
  | .pendingMeta m pc => pc.next.map (.pendingMeta m)

/-- The calls in progress after the `i`-th of them, `c`, took a step. -/
def advance {M : Type} (calls : List (Call M)) (i : Nat) (c : Call M) : List (Call M) :=
  match c.next with
  | some c' => calls.set i c'
  | none => calls.eraseIdx i

namespace Node

variable {H M S : Type}

/-- The next step of the `i`-th call in progress. -/
def callStep (s : Node H M S) (i : Nat) : Option (Node H M S) :=
  s.calls[i]?.map fun c => { s.callBody c with calls := advance s.calls i c }

/-! ## `deinitialized` -/

end Node

/-- The dispatch thread has returned from `dispatch_run`. -/
def DispatchPc.hasExited {M S : Type} : DispatchPc M S → Bool
  | .exited => true
  | _ => false

namespace Node

variable {H M S : Type} [HandleThread H]

/-- `vp_node::deinitialized`. A join is enabled once the thread has returned; a thread that was
joined before is not joinable. -/
def deinitStep (s : Node H M S) : Option (Node H M S) :=
  match s.deinit with
  | .idle => none
  | .alive => some { s with alive := false, deinit := .push }
  | .push => some { s with inQueue := s.inQueue ++ [none], deinit := .signal }
  | .signal =>
      some { s with inQueueSemaphore := s.inQueueSemaphore + 1, deinit := .joinHandle }
  | .joinHandle =>
      if s.handleJoinable = false then some { s with deinit := .joinDispatch }
      else if HandleThread.exited s.handle then
        some { s with handleJoinable := false, deinit := .joinDispatch }
      else none
  | .joinDispatch =>
      if s.dispatchJoinable = false then some { s with deinit := .idle }
      else if s.dispatch.hasExited then
        some { s with dispatchJoinable := false, deinit := .idle }
      else none

/-- A step of one of the shared threads. -/
def step (s : Node H M S) : NodeAct M → Option (Node H M S)
  | .dispatch => s.dispatchStep
  | .metaFlow none => some s
  | .metaFlow (some m) => some { s with calls := s.calls ++ [.metaFlow m .push] }
  | .pendingMeta m => some { s with calls := s.calls ++ [.pendingMeta m .push] }
  | .call i => s.callStep i
  | .deinitialized => if s.deinit = .idle then some { s with deinit := .alive } else none
  | .deinit => s.deinitStep

end Node

/-! ## What a step can do

The transitions of the shared threads by name. A proof about a step splits on these and never
unfolds the step functions. -/

namespace Node

variable {H M S : Type}

/-- The transitions of `dispatchStep`. -/
inductive DispatchStep (s : Node H M S) : Node H M S → Prop
  | enter : s.dispatch = .test → s.alive = true → DispatchStep s { s with dispatch := .wait }
  | leave : s.dispatch = .test → s.alive = false → DispatchStep s { s with dispatch := .exited }
  | wait : s.dispatch = .wait → 0 < s.outQueueSemaphore →
      DispatchStep s
        { s with outQueueSemaphore := s.outQueueSemaphore - 1, dispatch := .front }
  | frontEmpty : s.dispatch = .front → s.outQueue = [] →
      DispatchStep s { s with dispatch := .threw }
  | frontNull (rest : List (Option M)) : s.dispatch = .front → s.outQueue = none :: rest →
      DispatchStep s { s with dispatch := .test }
  | frontMeta (m : M) (rest : List (Option M)) : s.dispatch = .front →
      s.outQueue = some m :: rest → DispatchStep s { s with dispatch := .leavingHook m }
  | leavingHook (m : M) : s.dispatch = .leavingHook m →
      DispatchStep s
        { s with trace := s.trace ++ [.leaving s.outQueue.length m], dispatch := .pushMeta m }
  | pushMeta (m : M) : s.dispatch = .pushMeta m →
      DispatchStep s
        { s with
          trace := s.trace ++ [.pushMeta m], dispatch := .publish m s.subscribers .push }
  | publish (m : M) (rest : List S) (ph : FlowPc) : s.dispatch = .publish m rest ph →
      DispatchStep s { s with dispatch := publishNext m rest ph }
  | pop (m : M) : s.dispatch = .pop m →
      DispatchStep s { s with outQueue := s.outQueue.tail, dispatch := .test }

theorem dispatchStep_cases {s s' : Node H M S} (h : s.dispatchStep = some s') :
    DispatchStep s s' := by
  unfold dispatchStep at h
  cases hp : s.dispatch with
  | test =>
      simp only [hp] at h
      split at h
      · next ha => cases h; exact .enter hp ha
      · next ha => cases h; exact .leave hp (by simpa using ha)
  | wait =>
      simp only [hp] at h
      split at h
      · next hpos => cases h; exact .wait hp hpos
      · cases h
  | front =>
      simp only [hp] at h
      split at h
      · next hq => cases h; exact .frontEmpty hp hq
      · next rest hq => cases h; exact .frontNull rest hp hq
      · next m rest hq => cases h; exact .frontMeta m rest hp hq
  | leavingHook m => simp only [hp] at h; cases h; exact .leavingHook m hp
  | pushMeta m => simp only [hp] at h; cases h; exact .pushMeta m hp
  | publish m rest ph => simp only [hp] at h; cases h; exact .publish m rest ph hp
  | pop m => simp only [hp] at h; cases h; exact .pop m hp
  | exited => simp only [hp] at h; cases h
  | threw => simp only [hp] at h; cases h

/-- The call that takes the step is in progress, and advances. -/
theorem callStep_cases {s s' : Node H M S} {i : Nat} (h : s.callStep i = some s') :
    ∃ c, s.calls[i]? = some c ∧ s' = { s.callBody c with calls := advance s.calls i c } := by
  obtain ⟨c, hc, rfl⟩ := Option.map_eq_some_iff.mp h
  exact ⟨c, hc, rfl⟩

variable [HandleThread H]

/-- The transitions of `deinitStep`. -/
inductive DeinitStep (s : Node H M S) : Node H M S → Prop
  | alive : s.deinit = .alive → DeinitStep s { s with alive := false, deinit := .push }
  | push : s.deinit = .push →
      DeinitStep s { s with inQueue := s.inQueue ++ [none], deinit := .signal }
  | signal : s.deinit = .signal →
      DeinitStep s
        { s with inQueueSemaphore := s.inQueueSemaphore + 1, deinit := .joinHandle }
  | joinHandle : s.deinit = .joinHandle →
      (s.handleJoinable = true → HandleThread.exited s.handle = true) →
      DeinitStep s { s with handleJoinable := false, deinit := .joinDispatch }
  | joinDispatch : s.deinit = .joinDispatch →
      (s.dispatchJoinable = true → s.dispatch.hasExited = true) →
      DeinitStep s { s with dispatchJoinable := false, deinit := .idle }

theorem deinitStep_cases {s s' : Node H M S} (h : s.deinitStep = some s') : DeinitStep s s' := by
  unfold deinitStep at h
  cases hp : s.deinit with
  | idle => simp only [hp] at h; cases h
  | alive => simp only [hp] at h; cases h; exact .alive hp
  | push => simp only [hp] at h; cases h; exact .push hp
  | signal => simp only [hp] at h; cases h; exact .signal hp
  | joinHandle =>
      simp only [hp] at h
      split at h
      · next hj =>
          have hs : ({ s with deinit := .joinDispatch } : Node H M S) =
              { s with handleJoinable := false, deinit := .joinDispatch } := by rw [hj]
          rw [← Option.some.inj h, hs]
          exact .joinHandle hp fun ht => absurd ht (by simp [hj])
      · split at h
        · next hx => cases h; exact .joinHandle hp fun _ => hx
        · cases h
  | joinDispatch =>
      simp only [hp] at h
      split at h
      · next hj =>
          have hs : ({ s with deinit := .idle } : Node H M S) =
              { s with dispatchJoinable := false, deinit := .idle } := by rw [hj]
          rw [← Option.some.inj h, hs]
          exact .joinDispatch hp fun ht => absurd ht (by simp [hj])
      · split at h
        · next hx => cases h; exact .joinDispatch hp fun _ => hx
        · cases h

theorem deinitialized_cases {s s' : Node H M S} (h : s.step .deinitialized = some s') :
    s.deinit = .idle ∧ s' = { s with deinit := .alive } := by
  simp only [step] at h
  split at h
  · next hi => cases h; exact ⟨hi, rfl⟩
  · cases h

/-- No shared thread touches the handle thread. -/
theorem step_handle {s s' : Node H M S} {a : NodeAct M} (h : s.step a = some s') :
    s'.handle = s.handle := by
  cases a with
  | dispatch => cases dispatchStep_cases h <;> rfl
  | metaFlow m => cases m <;> (cases h; rfl)
  | pendingMeta m => cases h; rfl
  | call i =>
      obtain ⟨c, -, rfl⟩ := callStep_cases h
      rcases c with ⟨m, pc⟩ | ⟨m, pc⟩ <;> cases pc <;> rfl
  | deinitialized =>
      obtain ⟨-, rfl⟩ := deinitialized_cases h
      rfl
  | deinit => cases deinitStep_cases h <;> rfl

/-- `alive` is never set again. -/
theorem step_alive {s s' : Node H M S} {a : NodeAct M} (h : s.step a = some s')
    (ha : s.alive = false) : s'.alive = false := by
  cases a with
  | dispatch => cases dispatchStep_cases h <;> exact ha
  | metaFlow m => cases m <;> (cases h; exact ha)
  | pendingMeta m => cases h; exact ha
  | call i =>
      obtain ⟨c, -, rfl⟩ := callStep_cases h
      rcases c with ⟨m, pc⟩ | ⟨m, pc⟩ <;> cases pc <;> exact ha
  | deinitialized =>
      obtain ⟨-, rfl⟩ := deinitialized_cases h
      exact ha
  | deinit => cases deinitStep_cases h <;> first | exact ha | rfl

/-- Only `deinitialized` clears `alive`. -/
theorem step_cleared {s s' : Node H M S} {a : NodeAct M} (h : s.step a = some s')
    (ha : s.alive = true) (hdead : s'.alive = false) : a = .deinit ∧ s.deinit = .alive := by
  have hsame (hx : s'.alive = s.alive) : a = .deinit ∧ s.deinit = .alive := by
    rw [hx, ha] at hdead
    cases hdead
  cases a with
  | dispatch => cases dispatchStep_cases h <;> exact hsame rfl
  | metaFlow m => cases m <;> (cases h; exact hsame rfl)
  | pendingMeta m => cases h; exact hsame rfl
  | call i =>
      obtain ⟨c, -, rfl⟩ := callStep_cases h
      rcases c with ⟨m, pc⟩ | ⟨m, pc⟩ <;> cases pc <;> exact hsame rfl
  | deinitialized =>
      obtain ⟨-, rfl⟩ := deinitialized_cases h
      exact hsame rfl
  | deinit =>
      cases deinitStep_cases h with
      | alive hp => exact ⟨rfl, hp⟩
      | _ => exact hsame rfl

theorem alive_of_step {s s' : Node H M S} {a : NodeAct M} (h : s.step a = some s')
    (ha : s'.alive = true) : s.alive = true := by
  by_contra hdead
  rw [step_alive h (by simpa using hdead)] at ha
  cases ha

/-- Where `deinitialized` is about to clear `alive`, it stays until it has. -/
theorem step_closing {s s' : Node H M S} {a : NodeAct M} (h : s.step a = some s')
    (hd : s.deinit = .alive) : s'.alive = false ∨ s'.deinit = .alive := by
  cases a with
  | dispatch => cases dispatchStep_cases h <;> exact .inr hd
  | metaFlow m => cases m <;> (cases h; exact .inr hd)
  | pendingMeta m => cases h; exact .inr hd
  | call i =>
      obtain ⟨c, -, rfl⟩ := callStep_cases h
      rcases c with ⟨m, pc⟩ | ⟨m, pc⟩ <;> cases pc <;> exact .inr hd
  | deinitialized =>
      obtain ⟨-, rfl⟩ := deinitialized_cases h
      exact .inr rfl
  | deinit =>
      cases deinitStep_cases h with
      | alive _ => exact .inl rfl
      | push hp | signal hp | joinHandle hp _ | joinDispatch hp _ =>
          rw [hp] at hd
          cases hd

/-- A step of a shared thread adds at most one event to the trace, of those that are its own. -/
theorem step_trace {s s' : Node H M S} {a : NodeAct M} (h : s.step a = some s') :
    s'.trace = s.trace ∨ ∃ e, e.isShared = true ∧ s'.trace = s.trace ++ [e] := by
  cases a with
  | dispatch =>
      cases dispatchStep_cases h with
      | leavingHook m hp | pushMeta m hp => exact .inr ⟨_, rfl, rfl⟩
      | _ => exact .inl rfl
  | metaFlow m => cases m <;> (cases h; exact .inl rfl)
  | pendingMeta m => cases h; exact .inl rfl
  | call i =>
      obtain ⟨c, -, rfl⟩ := callStep_cases h
      rcases c with ⟨m, pc⟩ | ⟨m, pc⟩ <;> cases pc <;>
        first | exact .inl rfl | exact .inr ⟨_, rfl, rfl⟩
  | deinitialized =>
      obtain ⟨-, rfl⟩ := deinitialized_cases h
      exact .inl rfl
  | deinit => cases deinitStep_cases h <;> exact .inl rfl

/-- What only the handle thread logs is not logged by a shared thread. -/
theorem step_filterMap {β : Type} {f : Event M → Option β}
    (hf : ∀ e, e.isShared = true → f e = none) {s s' : Node H M S} {a : NodeAct M}
    (h : s.step a = some s') : s'.trace.filterMap f = s.trace.filterMap f := by
  rcases step_trace h with hsame | ⟨e, he, hone⟩
  · rw [hsame]
  · rw [hone, List.filterMap_append, List.filterMap_cons_none (hf e he)]
    exact List.append_nil _

end Node

/-! ## When a shared thread can step -/

namespace Node

variable {H M S : Type} {s : Node H M S}

theorem dispatchStep_enabled (hwait : s.dispatch = .wait → 0 < s.outQueueSemaphore)
    (hexited : s.dispatch ≠ .exited) (hthrew : s.dispatch ≠ .threw) : s.dispatchStep ≠ none := by
  unfold dispatchStep
  cases hp : s.dispatch with
  | test => cases s.alive <;> simp
  | wait => simp [hwait hp]
  | front => rcases s.outQueue with _ | ⟨_ | m, rest⟩ <;> simp
  | leavingHook m | pushMeta m | publish m rest ph | pop m => simp
  | exited => exact absurd hp hexited
  | threw => exact absurd hp hthrew

theorem deinitStep_enabled [HandleThread H]
    (h : s.deinit = .alive ∨ s.deinit = .push ∨ s.deinit = .signal) : s.deinitStep ≠ none := by
  unfold deinitStep
  rcases h with h | h | h <;> simp [h]

end Node

/-! ## Weights of the calls in progress -/

section Weights

open Library

variable {M : Type} {w : Call M → Nat}

/-- The weight of the calls in progress after a step of one of them: the call that stepped is
replaced by its continuation, if it has one. -/
theorem weight_advance {calls : List (Call M)} {i : Nat} {c : Call M} (h : calls[i]? = some c) :
    weight w (advance calls i c) + w c = weight w calls + (c.next.map w).getD 0 := by
  unfold advance
  cases hn : c.next with
  | none => simpa using weight_eraseIdx h
  | some c' => simpa using weight_set c' h

end Weights

end VideoStream
