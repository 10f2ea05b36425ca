import VideoStream.Nodes.Permits

/-!
# Metas behind a null

The dispatch thread looks at the head of `out_queue` and takes a permit for it. A `nullptr` at the
head costs the permit but is not popped, so it stays at the head for good, and takes the permits of
all the entries behind it too. `Stranded` is the state this ends in: the dispatch thread waits, no
permit is left and none is owed, and a meta is still on the queue.

Nulls get on `out_queue` by `pending_meta(nullptr)`, as the dead flag of either `handle_run`, and
from a batch with a failed cast. As long as no meta is pushed *behind* a null while the node is
alive, the permits suffice for all metas: the queue is a list of metas followed by nulls, and no
longer in metas than there are permits left, held and owed.
-/

namespace VideoStream

open Library

namespace Node

variable {H M S : Type}

/-- The entry that a step of a shared thread pushes on `out_queue`. -/
def pushes (s : Node H M S) : NodeAct M → Option (Option M)
  | .call i =>
      match s.calls[i]? with
      | some (.pendingMeta m .push) => some m
      | _ => none
  | _ => none

/-- The dispatch thread of a live node waits without a permit, no producer is between its `Push`
and its `signal`, and `out_queue` holds a meta. -/
structure Stranded [PermitAccount H] (s : Node H M S) : Prop where
  alive : s.alive = true
  wait : s.dispatch = .wait
  noPermit : s.outQueueSemaphore = 0
  noCall : ∀ c ∈ s.calls, c.owesOut = 0
  noHandle : owes s.handle = 0
  left : ∃ m, some m ∈ s.outQueue

instance [PermitAccount H] (s : Node H M S) [DecidableEq M] [DecidableEq S] :
    Decidable s.Stranded :=
  decidable_of_iff (s.alive = true ∧ s.dispatch = .wait ∧ s.outQueueSemaphore = 0 ∧
      (∀ c ∈ s.calls, c.owesOut = 0) ∧ owes s.handle = 0 ∧ ∃ e ∈ s.outQueue, e.isSome = true)
    ⟨fun ⟨h₁, h₂, h₃, h₄, h₅, e, he, hs⟩ =>
        ⟨h₁, h₂, h₃, h₄, h₅, e.get hs, by simpa using he⟩,
      fun ⟨h₁, h₂, h₃, h₄, h₅, m, hm⟩ => ⟨h₁, h₂, h₃, h₄, h₅, some m, hm, rfl⟩⟩

end Node

/-- No meta is pushed behind a null: if `e` is the entry pushed on `queue`, it is null or `queue`
has no null. -/
def NotBehindNull {M : Type} (queue : List (Option M)) (e : Option (Option M)) : Prop :=
  ∀ m, e = some (some m) → none ∉ queue

instance {M : Type} [DecidableEq M] (queue : List (Option M)) :
    ∀ e : Option (Option M), Decidable (NotBehindNull queue e)
  | none => isTrue fun _ h => nomatch h
  | some none => isTrue fun _ h => nomatch h
  | some (some m) => decidable_of_iff (none ∉ queue) ⟨fun h _ _ => h, fun h => h m rfl⟩

/-- The entry that a step of a plain node pushes on `out_queue`. -/
def VpNode.pushes {M S : Type} (s : VpNode M S) : VpAct M → Option (Option M)
  | .handle =>
      match s.handle.pc with
      | .push (i :: _) => some i
      | .deadPush => some none
      | _ => none
  | .node a => Node.pushes s a

/-- The entry that a step of a source node pushes on `out_queue`. -/
def SrcNode.pushes {M S : Type} (s : SrcNode M S) : SrcAct M → Option (Option M)
  | .handle =>
      match s.node.handle with
      | .push m => some (some m)
      | .deadPush => some none
      | _ => none
  | .node a => s.node.pushes a
  | _ => none

/-! ## The account of the metas -/

/-- The metas of a queue that has its nulls behind them, and how many nulls there are. -/
def MetasThenNulls {M : Type} (queue : List (Option M)) (ms : List M) : Prop :=
  ∃ n, queue = ms.map some ++ List.replicate n none

section Queue

variable {M : Type} {queue : List (Option M)} {ms : List M}

theorem MetasThenNulls.push_null (h : MetasThenNulls queue ms) :
    MetasThenNulls (queue ++ [none]) ms := by
  obtain ⟨n, rfl⟩ := h
  exact ⟨n + 1, by rw [List.append_assoc, List.replicate_succ']⟩

theorem MetasThenNulls.push_meta (h : MetasThenNulls queue ms) (hn : none ∉ queue) (m : M) :
    MetasThenNulls (queue ++ [some m]) (ms ++ [m]) := by
  obtain ⟨n, rfl⟩ := h
  cases n with
  | zero => exact ⟨0, by simp⟩
  | succ n => exact absurd (by simp [List.replicate_succ]) hn

theorem MetasThenNulls.tail {m : M} (h : MetasThenNulls queue ms)
    (hm : queue.head? = some (some m)) :
    MetasThenNulls queue.tail ms.tail ∧ ms.length = ms.tail.length + 1 := by
  obtain ⟨n, rfl⟩ := h
  cases ms with
  | nil => cases n <;> simp [List.replicate_succ] at hm
  | cons m' ms => exact ⟨⟨n, by simp⟩, by simp⟩

theorem MetasThenNulls.null_head (h : MetasThenNulls queue ms)
    (hm : queue.head? = some none) : ms = [] := by
  obtain ⟨n, rfl⟩ := h
  cases ms with
  | nil => rfl
  | cons m' ms => simp at hm

end Queue

namespace Node

variable {H M S : Type}

/-- The metas on `out_queue` come first, and are covered by permits; `k` is what the handle thread
owes. -/
def Covered (s : Node H M S) (k : Nat) : Prop :=
  ∃ ms, MetasThenNulls s.outQueue ms ∧
    ms.length ≤ s.outQueueSemaphore + s.dispatch.holds + weight Call.owesOut s.calls + k

theorem Covered.not_stranded [PermitAccount H] {s : Node H M S} (h : s.Covered (owes s.handle)) :
    ¬ s.Stranded := by
  rintro ⟨-, hwait, hsem, hcalls, hhandle, m, hm⟩
  obtain ⟨ms, ⟨n, hq⟩, hlen⟩ := h
  have hweight : weight Call.owesOut s.calls = 0 := by
    refine List.sum_eq_zero fun x hx => ?_
    obtain ⟨c, hc, rfl⟩ := List.mem_map.mp hx
    exact hcalls c hc
  simp only [hwait, hsem, hweight, hhandle, DispatchPc.holds] at hlen
  -- no permits, hence no metas
  obtain rfl : ms = [] := List.length_eq_zero_iff.mp (by omega)
  rw [hq] at hm
  simp at hm

section Steps

variable {s s' : Node H M S} {k : Nat}

theorem dispatchStep_covered [PermitAccount H] (h : s.dispatchStep = some s')
    (hinv : s.PermitInv) (hs : s.Covered k) : s'.Covered k := by
  obtain ⟨ms, hq, hlen⟩ := hs
  cases dispatchStep_cases h with
  | enter hp _ | leave hp _ | leavingHook m hp | pushMeta m hp | frontMeta m rest hp _ =>
      exact ⟨ms, hq, by simpa [hp, DispatchPc.holds] using hlen⟩
  | wait hp hpos =>
      refine ⟨ms, hq, ?_⟩
      simp only [hp, DispatchPc.holds] at hlen ⊢
      omega
  | frontEmpty hp hempty =>
      exact absurd hempty (hinv.guarded.front hp)
  | frontNull rest hp hnull =>
      -- the head is null, so no meta is left to cover
      obtain rfl := hq.null_head (by rw [hnull]; rfl)
      exact ⟨[], hq, Nat.zero_le _⟩
  | publish m rest ph hp =>
      simp only [hp, DispatchPc.holds] at hlen
      exact ⟨ms, hq, by simpa only [publishNext_holds] using hlen⟩
  | pop m hp =>
      obtain ⟨htail, hms⟩ := hq.tail (hinv.head m (by simp [hp, DispatchPc.current]))
      refine ⟨ms.tail, htail, ?_⟩
      simp only [hp, DispatchPc.holds] at hlen ⊢
      omega

theorem callStep_covered {i : Nat} (h : s.callStep i = some s')
    (hc : NotBehindNull s.outQueue (s.pushes (.call i))) (hs : s.Covered k) : s'.Covered k := by
  obtain ⟨ms, hq, hlen⟩ := hs
  obtain ⟨c, hci, rfl⟩ := callStep_cases h
  have hw := weight_advance (w := Call.owesOut) hci
  rcases c with ⟨m, pc⟩ | ⟨m, pc⟩ <;> cases pc <;>
    simp only [Call.next, FlowPc.next, Option.map_some, Option.map_none, Option.getD_some,
      Option.getD_none, Call.owesOut, FlowPc.owes] at hw
  case metaFlow.push | metaFlow.hook | metaFlow.signal =>
    refine ⟨ms, hq, ?_⟩
    simp only [callBody, metaFlowBody]
    omega
  case pendingMeta.push =>
    cases m with
    | none =>
        refine ⟨ms, hq.push_null, ?_⟩
        simp only [callBody, pendingMetaBody]
        omega
    | some m =>
        refine ⟨ms ++ [m], hq.push_meta (hc m (by simp [pushes, hci])) m, ?_⟩
        simp only [callBody, pendingMetaBody, List.length_append, List.length_singleton]
        omega
  case pendingMeta.hook | pendingMeta.signal =>
    refine ⟨ms, hq, ?_⟩
    simp only [callBody, pendingMetaBody]
    omega

theorem step_covered [HandleThread H] [PermitAccount H] {a : NodeAct M} (h : s.step a = some s')
    (hinv : s.PermitInv) (hc : NotBehindNull s.outQueue (s.pushes a)) (hs : s.Covered k) :
    s'.Covered k := by
  cases a with
  | dispatch => exact dispatchStep_covered h hinv hs
  | metaFlow m =>
      cases m with
      | none => cases h; exact hs
      | some m => cases h; simpa [Covered, Call.owesOut] using hs
  | pendingMeta m => cases h; simpa [Covered, Call.owesOut, FlowPc.owes] using hs
  | call i => exact callStep_covered h hc hs
  | deinitialized =>
      obtain ⟨-, rfl⟩ := deinitialized_cases h
      exact hs
  | deinit => cases deinitStep_cases h <;> exact hs

end Steps

theorem start_covered {h : H} {subscribers : List S} :
    (Node.start h subscribers : Node H M S).Covered 0 :=
  ⟨[], ⟨0, rfl⟩, Nat.zero_le _⟩

end Node

/-! ## The two kinds of nodes -/

namespace VpNode

open Node

variable {M S : Type} [Meta M] {cfg : NodeConfig M} {s s' : VpNode M S}

theorem handleStep_covered (h : s.handleStep cfg = some s')
    (hc : NotBehindNull s.outQueue (s.pushes .handle)) (hs : s.Covered s.handle.pc.owes) :
    s'.Covered s'.handle.pc.owes := by
  obtain ⟨ms, hq, hlen⟩ := hs
  cases handleStep_cases h with
  | push i rest hp =>
      simp only [hp, HandlePc.owes] at hlen
      cases i with
      | none =>
          refine ⟨ms, hq.push_null, ?_⟩
          simp only [HandlePc.owes]
          omega
      | some m =>
          refine ⟨ms ++ [m], hq.push_meta (hc m (by simp [pushes, hp])) m, ?_⟩
          simp only [HandlePc.owes, List.length_append, List.length_singleton]
          omega
  | deadPush hp =>
      simp only [hp, HandlePc.owes] at hlen
      refine ⟨ms, hq.push_null, ?_⟩
      simp only [HandlePc.owes]
      omega
  | enter hp _ | leave hp _ | wait hp _ | popNull rest hp _ | popMeta m rest hp _
  | handlingHook m hp | throws m msg hp _ | consumed m r hp _ _ | emit m r hp _ _
  | keep m r hp _ _ | pushEnd hp | handledHook i rest hp | signal rest hp | deadSignal hp =>
      simp only [hp, HandlePc.owes] at hlen
      refine ⟨ms, hq, ?_⟩
      simp only [HandlePc.owes]
      omega

theorem alive_of_step {a : VpAct M} (h : (vpNode cfg).step s a = some s')
    (ha : s'.alive = true) : s.alive = true := by
  cases a with
  | handle => cases handleStep_cases h <;> exact ha
  | node a => exact Node.alive_of_step h ha

theorem reachable_covered (h : (vpNode cfg).ReachableBy
      (fun s a => s.alive = true → NotBehindNull s.outQueue (s.pushes a)) s) :
    s.alive = true → s.Covered s.handle.pc.owes := by
  apply h.invariant (I := fun s => s.alive = true → s.Covered s.handle.pc.owes)
  · rintro _ ⟨subscribers, rfl⟩ _
    exact start_covered
  · intro s s' a hr hs hc hstep halive'
    have halive := alive_of_step hstep halive'
    have hcov := hs halive
    have hpush := hc halive
    cases a with
    | handle => exact handleStep_covered hstep hpush hcov
    | node a =>
        have hcov' := step_covered hstep (reachable_permitInv hr.reachable) hpush hcov
        rwa [← step_handle hstep] at hcov'

end VpNode

namespace SrcNode

open Node

variable {M S : Type} {s s' : SrcNode M S}

theorem handleStep_covered (h : s.handleStep = some s')
    (hc : NotBehindNull s.node.outQueue (s.pushes .handle))
    (hs : s.node.Covered s.node.handle.owes) : s'.node.Covered s'.node.handle.owes := by
  obtain ⟨ms, hq, hlen⟩ := hs
  cases handleStep_cases h with
  | push m hp =>
      simp only [hp, SrcPc.owes] at hlen
      refine ⟨ms ++ [m], hq.push_meta (hc m (by simp [pushes, hp])) m, ?_⟩
      simp only [SrcPc.owes, List.length_append, List.length_singleton]
      omega
  | deadPush hp =>
      simp only [hp, SrcPc.owes] at hlen
      refine ⟨ms, hq.push_null, ?_⟩
      simp only [SrcPc.owes]
      omega
  | isOpen hp _ | notOpen hp _ | enter hp _ | leave hp _ | stillOpen hp _ | closed hp _
  | knock hp _ | stillAlive hp _ | notAlive hp _ | getFrame hp | handleFrame m hp
  | signal m hp | deadSignal hp =>
      simp only [hp, SrcPc.owes] at hlen
      refine ⟨ms, hq, ?_⟩
      simp only [SrcPc.owes]
      omega

theorem step_covered {a : SrcAct M} (h : s.step a = some s') (hinv : s.node.PermitInv)
    (hc : NotBehindNull s.node.outQueue (s.pushes a)) (hs : s.node.Covered s.node.handle.owes) :
    s'.node.Covered s'.node.handle.owes := by
  cases step_cases h with
  | handle _ hh => exact handleStep_covered hh hc hs
  | opened hp | notOpened hp | readNone hp | read m hp =>
      simpa only [Covered, hp, SrcPc.owes] using hs
  | node a node _ hn =>
      have hcov := Node.step_covered hn hinv hc hs
      rwa [← step_handle hn] at hcov
  | speak m | control _ _ _ _ _ _ => exact hs

theorem alive_of_step {a : SrcAct M} (h : s.step a = some s') (ha : s'.node.alive = true) :
    s.node.alive = true := by
  cases step_cases h with
  | handle _ hh => cases handleStep_cases hh <;> exact ha
  | node a node _ hn => exact Node.alive_of_step hn ha
  | _ => exact ha

theorem reachable_covered (h : vpSrcNode.ReachableBy
      (fun s a => s.node.alive = true → NotBehindNull s.node.outQueue (s.pushes a)) s) :
    s.node.alive = true → s.node.Covered s.node.handle.owes := by
  apply h.invariant (I := fun s => s.node.alive = true → s.node.Covered s.node.handle.owes)
  · rintro _ ⟨isOpened, subscribers, rfl⟩ _
    exact start_covered
  · intro s s' a hr hs hc hstep halive'
    have halive := alive_of_step hstep halive'
    exact step_covered hstep (reachable_permitInv hr.reachable) (hc halive) (hs halive)

end SrcNode

/-- In a run that pushes no meta behind a null while the node is alive, no meta is stranded. -/
theorem not_stranded_of_notBehindNull {M S : Type} [Meta M] :
    (∀ (cfg : NodeConfig M) (s : VpNode M S),
      (vpNode cfg).ReachableBy
          (fun s a => s.alive = true → NotBehindNull s.outQueue (s.pushes a)) s →
        ¬ s.Stranded) ∧
    ∀ s : SrcNode M S,
      vpSrcNode.ReachableBy
          (fun s a => s.node.alive = true → NotBehindNull s.node.outQueue (s.pushes a)) s →
        ¬ s.node.Stranded := by
  constructor
  · intro cfg s h hstranded
    exact (VpNode.reachable_covered h hstranded.alive).not_stranded hstranded
  · intro s h hstranded
    exact (SrcNode.reachable_covered h hstranded.alive).not_stranded hstranded

/-- `pending_meta` of a meta, then `pending_meta(nullptr)`, then the dispatch thread until it waits
for a third permit. -/
def metaThenNull : List (VpAct MetaPtr) :=
  [.node (.pendingMeta (some (.control 0))), .node (.call 0), .node (.call 0), .node (.call 0),
    .node (.pendingMeta none), .node (.call 0), .node (.call 0), .node (.call 0),
    .node .dispatch, .node .dispatch, .node .dispatch, .node .dispatch, .node .dispatch,
    .node .dispatch, .node .dispatch, .node .dispatch, .node .dispatch, .node .dispatch,
    .node .dispatch]

/-- A source whose first `read` fails, so that its dead flag is pushed while the node is alive; then
the dispatch thread until it waits for a second permit. -/
def endedWhileAlive : List (SrcAct MetaPtr) :=
  [.start, .handle, .openSource true, .handle, .handle, .handle, .handle, .handle, .read none,
    .handle, .handle, .node .dispatch, .node .dispatch, .node .dispatch, .node .dispatch]

theorem not_stranded_of_notBehindNull_metaThenNull :
    (∃ s, baseNode.ReachableBy
        (fun s a => s.alive = true → NotBehindNull s.outQueue (s.pushes a)) s ∧
      (s.dispatch = .wait ∧ s.outQueueSemaphore = 0 ∧ s.outQueue = [none]) ∧ ¬ s.Stranded) ∧
    ∃ s : SrcNode MetaPtr Nat, vpSrcNode.ReachableBy
        (fun s a => s.node.alive = true → NotBehindNull s.node.outQueue (s.pushes a)) s ∧
      (s.node.dispatch = .wait ∧ s.node.outQueueSemaphore = 0 ∧ s.node.outQueue = [none]) ∧
        ¬ s.node.Stranded := by
  constructor
  · have hinit : baseNode.ReachableBy
        (fun s a => s.alive = true → NotBehindNull s.outQueue (s.pushes a)) (VpNode.start []) :=
      .init ⟨[], rfl⟩
    obtain ⟨s, hr, hp⟩ := hinit.exists_of_run
      (p := fun s => s.dispatch = .wait ∧ s.outQueueSemaphore = 0 ∧ s.outQueue = [none])
      metaThenNull (by decide) (by decide)
    exact ⟨s, hr, hp, not_stranded_of_notBehindNull.1 _ s hr⟩
  · have hinit : vpSrcNode.ReachableBy
        (fun s a => s.node.alive = true → NotBehindNull s.node.outQueue (s.pushes a))
        (SrcNode.start false [] : SrcNode MetaPtr Nat) := .init ⟨false, [], rfl⟩
    obtain ⟨s, hr, hp⟩ := hinit.exists_of_run
      (p := fun s => s.node.dispatch = .wait ∧ s.node.outQueueSemaphore = 0 ∧
        s.node.outQueue = [none])
      endedWhileAlive (by decide) (by decide)
    exact ⟨s, hr, hp, not_stranded_of_notBehindNull.2 s hr⟩

/-- `pending_meta(nullptr)`, then `pending_meta` of a meta, then the dispatch thread until it waits
for a third permit. -/
def nullThenMeta : List (VpAct MetaPtr) :=
  [.node (.pendingMeta none), .node (.call 0), .node (.call 0), .node (.call 0),
    .node (.pendingMeta (some (.control 0))), .node (.call 0), .node (.call 0), .node (.call 0),
    .node .dispatch, .node .dispatch, .node .dispatch, .node .dispatch, .node .dispatch,
    .node .dispatch, .node .dispatch]

/-- The same source, with a `pending_meta` of a meta before the dispatch thread looks at the dead
flag. -/
def endedThenMeta : List (SrcAct MetaPtr) :=
  [.start, .handle, .openSource true, .handle, .handle, .handle, .handle, .handle, .read none,
    .handle, .handle, .node (.pendingMeta (some (.control 0))), .node (.call 0),
    .node (.call 0), .node (.call 0), .node .dispatch, .node .dispatch, .node .dispatch,
    .node .dispatch, .node .dispatch, .node .dispatch, .node .dispatch]

/-- Both kinds of nodes can strand a meta. -/
theorem stranded_behind_null :
    (∃ s, baseNode.Reachable s ∧ s.Stranded) ∧
      ∃ s : SrcNode MetaPtr Nat, vpSrcNode.Reachable s ∧ s.node.Stranded := by
  constructor
  · have hinit : baseNode.Reachable (VpNode.start []) := .init ⟨[], rfl⟩
    exact hinit.exists_of_run nullThenMeta (by decide)
  · have hinit : vpSrcNode.Reachable (SrcNode.start false [] : SrcNode MetaPtr Nat) :=
      .init ⟨false, [], rfl⟩
    exact hinit.exists_of_run (p := fun s => s.node.Stranded) endedThenMeta (by decide)

end VideoStream
