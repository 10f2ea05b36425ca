import Mathlib.Data.List.Count
import VideoStream.Library.Stages
import VideoStream.Nodes.Conservation
import VideoStream.Nodes.SourceOrder

/-!
# The hook ports on the way out

A meta leaves a node through two ports: the *handled* hooker is invoked after its `Push` on
`out_queue`, the *leaving* hooker before its `push_meta`. The producer signals the semaphore only
after the hook, but a permit is not tied to an entry, and so the dispatch thread may be at an entry
whose producer has not come to the hook: another producer's signal let it in. The loop of a source
node has no handled hook at all, and `speak` none of the two.

The history of one meta is what `portsOf` keeps of the trace. `passes_ports_of_headHooked` says that
it goes through the stages of `outStages` in order if the dispatch thread takes up no entry before
its hook; `misses_ports` has the three ways in which it does not.
-/

namespace VideoStream

open Library Meta

/-- What the history of a meta records: the two queues and the four hook ports, in the order of
`vp_meta_hookable`, and the call of `push_meta`. -/
inductive Port where
  | inPush
  | arriving
  | handling
  | outPush
  | handled
  | leaving
  | pushMeta
  deriving DecidableEq, Repr

variable {M S : Type} [DecidableEq M]

/-- The port at which an event sees the meta `m`. -/
def Event.port (m : M) : Event M → Option Port
  | .inPush m' => if m' = m then some .inPush else none
  | .arriving _ m' => if m' = m then some .arriving else none
  | .handling _ m' => if m' = m then some .handling else none
  | .outPush e => if e = some m then some .outPush else none
  | .handled _ e => if e = some m then some .handled else none
  | .leaving _ m' => if m' = m then some .leaving else none
  | .pushMeta m' => if m' = m then some .pushMeta else none
  | .popped _ | .batch _ | .getFrame | .produced .. | .frameHandled _ | .speak _ => none

/-- The history of the meta `m`. -/
def portsOf (m : M) (t : List (Event M)) : List Port := t.filterMap (Event.port m)

@[simp] theorem portsOf_concat (m : M) (t : List (Event M)) (e : Event M) :
    portsOf m (t ++ [e]) = portsOf m t ++ (e.port m).toList := filterMap_concat ..

@[simp] theorem portsOf_batchEvents (m : M) (t : List (Event M)) (h : Handled M) :
    portsOf m (t ++ VpNode.batchEvents h) = portsOf m t := by
  unfold VpNode.batchEvents
  split <;> simp [Event.port]

/-- How often `m` was at the port `p`. -/
def portCount (m : M) (p : Port) (t : List (Event M)) : Nat := (portsOf m t).count p

/-- A projection of the trace that sees `m` where the port `p` does. -/
theorem count_filterMap_eq_portCount {α : Type} [BEq α] [LawfulBEq α] {f : Event M → Option α} {a : α}
    {m : M} {p : Port} (hf : ∀ e, f e = some a ↔ e.port m = some p) (t : List (Event M)) :
    (t.filterMap f).count a = portCount m p t := by
  unfold portCount portsOf
  rw [List.count_filterMap, List.count_filterMap]
  apply List.countP_congr
  intro e _
  simpa using hf e

@[simp] theorem portCount_concat (m : M) (p : Port) (t : List (Event M)) (e : Event M) :
    portCount m p (t ++ [e]) = portCount m p t + if e.port m = some p then 1 else 0 := by
  unfold portCount
  rw [portsOf_concat, List.count_append]
  congr 1
  cases he : e.port m with
  | none => simp
  | some q => by_cases hq : q = p <;> simp [hq]

@[simp] theorem portCount_batchEvents (m : M) (p : Port) (t : List (Event M)) (h : Handled M) :
    portCount m p (t ++ VpNode.batchEvents h) = portCount m p t := by
  rw [portCount, portsOf_batchEvents]
  rfl

theorem count_outPushes (m : M) (t : List (Event M)) :
    (outPushes t).count (some m) = portCount m .outPush t := by
  apply count_filterMap_eq_portCount
  rintro (_ | _ | _ | _ | _ | _ | _ | _ | e | _ | _ | _ | _) <;>
    simp [Event.outPushed, Event.port]

theorem count_pushMetas (m : M) (t : List (Event M)) :
    (pushMetas t).count m = portCount m .pushMeta t := by
  apply count_filterMap_eq_portCount
  rintro (_ | _ | _ | _ | _ | _ | _ | _ | e | _ | _ | _ | _) <;> simp [Event.pushed, Event.port]

theorem count_inPushes (m : M) (t : List (Event M)) :
    (inPushes t).count m = portCount m .inPush t := by
  apply count_filterMap_eq_portCount
  rintro (_ | _ | _ | _ | _ | _ | _ | _ | e | _ | _ | _ | _) <;> simp [Event.inPushed, Event.port]

/-- Stages of the history, from the counts at any time of the trace. -/
theorem staged_portsOf {stages : List Port} {m : M} {t : List (Event M)}
    (h : ∀ t', t' <+: t → stages.IsChain fun p q => portCount m q t' ≤ portCount m p t') :
    Staged stages (portsOf m t) := by
  intro l hl
  obtain ⟨t', ht', rfl⟩ := List.prefix_filterMap_iff.mp hl
  exact h t' ht'

/-! ## The shared threads -/

/-- The call has put `m` on `out_queue` and has not come to its hook. -/
def Call.unhooked (m : M) : Call M → Nat
  | .pendingMeta e .hook => if e = some m then 1 else 0
  | _ => 0

/-- The leaving hooker has been invoked for `m`, and `push_meta` has not been called. -/
def DispatchPc.left (m : M) : DispatchPc M S → Nat
  | .pushMeta m' => if m' = m then 1 else 0
  | _ => 0

omit [DecidableEq M] in
/-- A condition on the meta at the leaving hook is decided at the position. -/
def DispatchPc.decidableAtLeaving {P : M → Prop} [DecidablePred P] :
    ∀ pc : DispatchPc M S, Decidable (∀ m, pc = .leavingHook m → P m)
  | .leavingHook m => decidable_of_iff (P m) ⟨fun h m' hm => by cases hm; exact h, fun h => h m rfl⟩
  | .test | .wait | .front | .pushMeta _ | .publish .. | .pop _ | .exited | .threw =>
      isTrue fun _ hm => nomatch hm

namespace Node

variable {H : Type} {s s' : Node H M S} {m : M} {k : Nat}

/-- What the ports have seen of `m`: every entry on `out_queue` was hooked, except those whose
producer is on its way to the hook; `k` are those of the handle thread. -/
structure OutPorts (m : M) (k : Nat) (s : Node H M S) : Prop where
  handled : portCount m .handled s.trace + weight (Call.unhooked m) s.calls + k =
    portCount m .outPush s.trace
  leaving : portCount m .leaving s.trace = portCount m .pushMeta s.trace + s.dispatch.left m

theorem publishNext_left (m' : M) (rest : List S) (ph : FlowPc) :
    (publishNext m' rest ph).left m = 0 := by
  cases rest <;> cases ph <;> rfl

theorem dispatchStep_outPorts (h : s.dispatchStep = some s') (hs : s.OutPorts m k) :
    s'.OutPorts m k := by
  obtain ⟨hhandled, hleaving⟩ := hs
  cases dispatchStep_cases h with
  | enter hp _ | leave hp _ | wait hp _ | frontEmpty hp _ | frontNull rest hp _
  | frontMeta m' rest hp _ | pop m' hp =>
      rw [hp] at hleaving
      exact ⟨hhandled, hleaving⟩
  | publish m' rest ph hp =>
      rw [hp] at hleaving
      refine ⟨hhandled, ?_⟩
      rw [publishNext_left]
      exact hleaving
  | leavingHook m' hp =>
      rw [hp] at hleaving
      refine ⟨by simpa [Event.port] using hhandled, ?_⟩
      simp only [DispatchPc.left, portCount_concat, Event.port] at hleaving ⊢
      by_cases hm : m' = m <;> simp [hm, hleaving]
  | pushMeta m' hp =>
      rw [hp] at hleaving
      refine ⟨by simpa [Event.port] using hhandled, ?_⟩
      simp only [DispatchPc.left, portCount_concat, Event.port] at hleaving ⊢
      by_cases hm : m' = m <;> simp_all

theorem callStep_outPorts {i : Nat} (h : s.callStep i = some s') (hs : s.OutPorts m k) :
    s'.OutPorts m k := by
  obtain ⟨hhandled, hleaving⟩ := hs
  obtain ⟨c, hc, rfl⟩ := callStep_cases h
  have hw := weight_advance (w := Call.unhooked m) hc
  rcases c with ⟨m', pc⟩ | ⟨e, pc⟩ <;> cases pc <;>
    simp only [Call.next, FlowPc.next, Option.map_some, Option.map_none, Option.getD_some,
      Option.getD_none, Call.unhooked] at hw
  case metaFlow.push | metaFlow.hook | metaFlow.signal | pendingMeta.signal =>
    refine ⟨?_, by simpa [callBody, metaFlowBody, pendingMetaBody, Event.port] using hleaving⟩
    simp [callBody, metaFlowBody, pendingMetaBody, Event.port]
    omega
  case pendingMeta.push | pendingMeta.hook =>
    refine ⟨?_, by simpa [callBody, pendingMetaBody, Event.port] using hleaving⟩
    simp only [callBody, pendingMetaBody, portCount_concat, Event.port]
    by_cases he : e = some m <;> simp [he] at hw ⊢ <;> omega

theorem step_outPorts [HandleThread H] {a : NodeAct M} (h : s.step a = some s')
    (hs : s.OutPorts m k) : s'.OutPorts m k := by
  cases a with
  | dispatch => exact dispatchStep_outPorts h hs
  | metaFlow m' =>
      cases m' with
      | none => cases h; exact hs
      | some m' => cases h; exact ⟨by simpa [Call.unhooked] using hs.handled, hs.leaving⟩
  | pendingMeta e => cases h; exact ⟨by simpa [Call.unhooked] using hs.handled, hs.leaving⟩
  | call i => exact callStep_outPorts h hs
  | deinitialized =>
      obtain ⟨-, rfl⟩ := deinitialized_cases h
      exact ⟨hs.handled, hs.leaving⟩
  | deinit => cases deinitStep_cases h <;> exact ⟨hs.handled, hs.leaving⟩

/-- Between two histories: the leaving hooker was not invoked for `m`. -/
structure KeepsLeaving (m : M) (t t' : List (Event M)) : Prop where
  leaving : portCount m .leaving t' = portCount m .leaving t
  handled : portCount m .handled t ≤ portCount m .handled t'

theorem step_keepsLeaving [HandleThread H] {a : NodeAct M} (h : s.step a = some s')
    (ha : a = .dispatch → s.dispatch ≠ .leavingHook m) : KeepsLeaving m s.trace s'.trace := by
  cases a with
  | dispatch =>
      cases dispatchStep_cases h with
      | leavingHook m' hp =>
          have hne : m' ≠ m := fun he => ha rfl (he ▸ hp)
          constructor <;> simp [Event.port, hne]
      | pushMeta m' hp => constructor <;> simp [Event.port]
      | _ => exact ⟨rfl, le_rfl⟩
  | metaFlow m => cases m <;> (cases h; exact ⟨rfl, le_rfl⟩)
  | pendingMeta e => cases h; exact ⟨rfl, le_rfl⟩
  | call i =>
      obtain ⟨c, -, rfl⟩ := callStep_cases h
      rcases c with ⟨m', pc⟩ | ⟨e, pc⟩ <;> cases pc <;> constructor <;>
        simp [callBody, metaFlowBody, pendingMetaBody, Event.port]
  | deinitialized =>
      obtain ⟨-, rfl⟩ := deinitialized_cases h
      exact ⟨rfl, le_rfl⟩
  | deinit => cases deinitStep_cases h <;> exact ⟨rfl, le_rfl⟩

omit [DecidableEq M] in
/-- A shared thread does not speak. -/
theorem step_speak [HandleThread H] {a : NodeAct M} (h : s.step a = some s')
    (hm : .speak m ∈ s'.trace) : .speak m ∈ s.trace := by
  rcases step_trace h with hsame | ⟨e, he, hone⟩
  · rwa [hsame] at hm
  · rw [hone] at hm
    rcases List.mem_append.mp hm with hm | hm
    · exact hm
    · rw [← List.mem_singleton.mp hm] at he
      cases he

/-- At its leaving hook the dispatch thread has given away exactly the entries of `m` that are not
on `out_queue` any more. -/
theorem OutPorts.at_leavingHook (hs : s.OutPorts m k) (hfifo : s.OutFifo)
    (hp : s.dispatch = .leavingHook m) :
    portCount m .leaving s.trace + s.outQueue.count (some m) = portCount m .outPush s.trace := by
  have hcount := congrArg (List.count (some m)) hfifo
  have hwaiting : s.waiting = s.outQueue := by
    unfold waiting
    rw [hp]
    rfl
  have hmap : (s.pushedMetas.map some).count (some m) = (pushMetas s.trace).count m :=
    List.count_map_of_injective _ _ (Option.some_injective M) m
  rw [List.count_append, count_outPushes, hwaiting, hmap, count_pushMetas] at hcount
  have hleaving := hs.leaving
  rw [hp] at hleaving
  simp only [DispatchPc.left] at hleaving
  omega

/-- The leaving hook of an entry that was hooked: the hooked entries are more than those that have
left. -/
theorem OutPorts.leavingHook (hs : s.OutPorts m k) (hfifo : s.OutFifo)
    (hp : s.dispatch = .leavingHook m)
    (hlt : weight (Call.unhooked m) s.calls + k < s.outQueue.count (some m))
    (h : s.dispatchStep = some s') :
    portCount m .leaving s'.trace ≤ portCount m .handled s'.trace := by
  have hcount := hs.at_leavingHook hfifo hp
  have hhandled := hs.handled
  have hle : portCount m .leaving s.trace + 1 ≤ portCount m .handled s.trace := by omega
  cases dispatchStep_cases h with
  | leavingHook m' hp' => simpa [Event.port] using le_trans (by split <;> omega) hle
  | _ => simp_all

end Node

/-! ## The handle threads -/

/-- The handle thread has put `m` on `out_queue` and has not come to the hook. -/
def HandlePc.unhooked (m : M) : HandlePc M → Nat
  | .handledHook i _ => if i = some m then 1 else 0
  | _ => 0

namespace VpNode

open Node

variable [Meta M] {cfg : NodeConfig M} {s s' : VpNode M S} {m : M}

theorem handleStep_outPorts (h : s.handleStep cfg = some s')
    (hs : s.OutPorts m (s.handle.pc.unhooked m)) : s'.OutPorts m (s'.handle.pc.unhooked m) := by
  obtain ⟨hhandled, hleaving⟩ := hs
  cases handleStep_cases h with
  | push i rest hp | handledHook i rest hp =>
      refine ⟨?_, by simpa [Event.port] using hleaving⟩
      rw [hp] at hhandled
      simp only [HandlePc.unhooked, portCount_concat, Event.port] at hhandled ⊢
      by_cases hi : i = some m <;> simp [hi] at hhandled ⊢ <;> omega
  | enter hp _ | leave hp _ | wait hp _ | popNull rest hp _ | popMeta m' rest hp _
  | handlingHook m' hp | throws m' msg hp _ | consumed m' r hp _ _ | emit m' r hp _ _
  | keep m' r hp _ _ | pushEnd hp | signal rest hp | deadPush hp | deadSignal hp =>
      rw [hp] at hhandled
      exact ⟨by simpa [HandlePc.unhooked, Event.port] using hhandled,
        by simpa [Event.port] using hleaving⟩

theorem reachable_outPorts (h : (vpNode cfg).Reachable s) (m : M) :
    s.OutPorts m (s.handle.pc.unhooked m) := by
  apply h.invariant (I := fun s => s.OutPorts m (s.handle.pc.unhooked m))
  · rintro _ ⟨subscribers, rfl⟩
    exact ⟨rfl, rfl⟩
  · intro s s' a _ hs _ hstep
    cases a with
    | handle => exact handleStep_outPorts hstep hs
    | node a =>
        rw [step_handle hstep]
        exact step_outPorts hstep hs

end VpNode

namespace SrcNode

open Node

variable {s s' : SrcNode M S} {m : M}

/-- The ports of a source: of the frames that the loop has put on `out_queue`, none was hooked. -/
def OutPorts (m : M) (s : SrcNode M S) : Prop :=
  ∃ k, s.node.OutPorts m k ∧
    k + s.node.handle.unpushed.toList.count m = (producedMetas s.node.trace).count m

theorem handleStep_outPorts (h : s.handleStep = some s') (hs : s.OutPorts m) : s'.OutPorts m := by
  obtain ⟨k, ⟨hhandled, hleaving⟩, hk⟩ := hs
  cases handleStep_cases h with
  | push m' hp =>
      rw [hp] at hk
      refine ⟨k + [m'].count m, ⟨?_, by simpa [Event.port] using hleaving⟩, ?_⟩
      · simp only [portCount_concat, Event.port, List.count_singleton, beq_iff_eq]
        by_cases hm : m' = m <;> simp [hm] <;> omega
      · simpa [SrcPc.unpushed, Event.produced?] using hk
  | isOpen hp _ | notOpen hp _ | enter hp _ | leave hp _ | stillOpen hp _ | closed hp _
  | knock hp _ | stillAlive hp _ | notAlive hp _ | getFrame hp | handleFrame m' hp
  | signal m' hp | deadPush hp | deadSignal hp =>
      rw [hp] at hk
      exact ⟨k, ⟨by simpa [Event.port] using hhandled, by simpa [Event.port] using hleaving⟩,
        by simpa [SrcPc.unpushed, Event.produced?] using hk⟩

theorem step_outPorts {a : SrcAct M} (h : s.step a = some s') (hs : s.OutPorts m) :
    s'.OutPorts m := by
  obtain ⟨k, ⟨hhandled, hleaving⟩, hk⟩ := hs
  cases step_cases h with
  | handle _ hh => exact handleStep_outPorts hh ⟨k, ⟨hhandled, hleaving⟩, hk⟩
  | opened hp | notOpened hp | readNone hp =>
      rw [hp] at hk
      exact ⟨k, ⟨hhandled, hleaving⟩, hk⟩
  | read m' hp =>
      rw [hp] at hk
      refine ⟨k, ⟨by simpa [Event.port] using hhandled, by simpa [Event.port] using hleaving⟩, ?_⟩
      simp only [SrcPc.unpushed, Option.toList_none, List.count_nil] at hk
      simp only [SrcPc.unpushed, producedMetas_concat, Event.produced?, Option.map_some,
        Option.toList_some, List.count_append]
      omega
  | node a node _ hn =>
      refine ⟨k, Node.step_outPorts hn ⟨hhandled, hleaving⟩, ?_⟩
      rw [step_handle hn, step_producedMetas hn]
      exact hk
  | speak m' =>
      exact ⟨k, ⟨by simpa [Event.port] using hhandled, by simpa [Event.port] using hleaving⟩,
        by simpa [Event.produced?] using hk⟩
  | control _ _ _ _ _ _ => exact ⟨k, ⟨hhandled, hleaving⟩, hk⟩

theorem reachable_outPorts (h : vpSrcNode.Reachable s) (m : M) : s.OutPorts m := by
  apply h.invariant (I := fun s => s.OutPorts m)
  · rintro _ ⟨isOpened, subscribers, rfl⟩
    exact ⟨0, ⟨rfl, rfl⟩, rfl⟩
  · intro s s' a _ hs _ hstep
    exact step_outPorts hstep hs

end SrcNode

/-! ## The law of the output ports -/

/-- The stages of a meta on its way out of a node. -/
def outStages : List Port := [.outPush, .handled, .leaving, .pushMeta]

/-- At any time no entry of a meta has reached a stage before the one in front of it. So a meta that
was put on `out_queue` once, and was given to `push_meta`, had its handled hook and then its leaving
hook once, and both before `push_meta`. And no meta goes to the subscribers without an entry. -/
structure PassesPorts (t : List (Event M)) : Prop where
  stages : ∀ m, Staged outStages (portsOf m t)
  once : ∀ m, portCount m .outPush t = 1 → .pushMeta ∈ portsOf m t →
    (portsOf m t).filter (· ∈ outStages) = outStages
  noSpeak : ∀ m, .speak m ∉ t

omit [DecidableEq M] in
theorem outStages_nodup : outStages.Nodup := by decide

/-- A meta that was put on `out_queue` once and dispatched went through each stage once. -/
theorem passesPorts_of_counts {t : List (Event M)}
    (h : ∀ t', t' <+: t → ∀ m, portCount m .handled t' ≤ portCount m .outPush t' ∧
      portCount m .leaving t' ≤ portCount m .handled t' ∧
      portCount m .pushMeta t' ≤ portCount m .leaving t')
    (hspeak : ∀ m, .speak m ∉ t) : PassesPorts t := by
  have hstaged : ∀ m, Staged outStages (portsOf m t) := by
    intro m
    apply staged_portsOf
    intro t' ht'
    obtain ⟨hhandled, hleaving, hpush⟩ := h t' ht' m
    simp [outStages, hhandled, hleaving, hpush]
  refine ⟨hstaged, ?_, hspeak⟩
  intro m hone hpush
  apply (hstaged m).filter.eq_stages outStages_nodup
  · obtain ⟨hhandled, hleaving, hle⟩ := h t List.prefix_rfl m
    have hpos : 0 < portCount m .pushMeta t := List.count_pos_iff.mpr hpush
    intro p hp
    rw [List.count_filter (by simpa using hp)]
    show portCount m p t = 1
    simp only [outStages, List.mem_cons, List.not_mem_nil, or_false] at hp
    rcases hp with rfl | rfl | rfl | rfl <;> omega
  · intro p hp
    simpa using (List.mem_filter.mp hp).2

namespace VpNode

open Node

variable {s s' : VpNode M S}

/-- The entries of `m` that were put on `out_queue` and not hooked. -/
def unhooked (s : VpNode M S) (m : M) : Nat :=
  weight (Call.unhooked m) s.calls + s.handle.pc.unhooked m

/-- The dispatch thread invokes the leaving hooker for an entry that was hooked: `m` has more
entries on `out_queue` than producers on their way to the hook. -/
def HeadHooked (s : VpNode M S) : VpAct M → Prop
  | .node .dispatch => ∀ m, s.dispatch = .leavingHook m → s.unhooked m < s.outQueue.count (some m)
  | _ => True

instance decidableHeadHooked (s : VpNode M S) : ∀ a, Decidable (s.HeadHooked a)
  | .node .dispatch => s.dispatch.decidableAtLeaving
  | .node (.metaFlow _) | .node (.pendingMeta _) | .node (.call _) | .node .deinitialized
  | .node .deinit | .handle => isTrue trivial

theorem handled_le_outPush [Meta M] {cfg : NodeConfig M} (h : (vpNode cfg).Reachable s) (m : M) :
    portCount m .handled s.trace ≤ portCount m .outPush s.trace := by
  have hhandled := (reachable_outPorts h m).handled
  omega

theorem pushMeta_le_leaving [Meta M] {cfg : NodeConfig M} (h : (vpNode cfg).Reachable s) (m : M) :
    portCount m .pushMeta s.trace ≤ portCount m .leaving s.trace := by
  have hleaving := (reachable_outPorts h m).leaving
  omega

theorem handleStep_keepsLeaving [Meta M] {cfg : NodeConfig M} (h : s.handleStep cfg = some s')
    (m : M) : KeepsLeaving m s.trace s'.trace := by
  cases handleStep_cases h <;> constructor <;> simp [Event.port]

variable [Meta M] {cfg : NodeConfig M}

omit [DecidableEq M] in
theorem reachable_noSpeak (h : (vpNode cfg).Reachable s) (m : M) : .speak m ∉ s.trace := by
  apply h.invariant (I := fun s => .speak m ∉ s.trace)
  · rintro _ ⟨subscribers, rfl⟩
    exact List.not_mem_nil
  · intro s s' a _ hs _ hstep hm
    cases a with
    | node a => exact hs (step_speak hstep hm)
    | handle =>
        apply hs
        cases handleStep_cases hstep with
        | consumed m' r hp _ _ | emit m' r hp _ _ | keep m' r hp _ _ =>
            rcases List.mem_append.mp hm with hm | hm
            · exact hm
            · unfold batchEvents at hm
              split at hm <;> simp at hm
        | _ => simpa using hm

theorem leaving_le_handled (h : (vpNode cfg).ReachableBy (fun s a => s.HeadHooked a) s) (m : M) :
    portCount m .leaving s.trace ≤ portCount m .handled s.trace := by
  apply h.invariant (I := fun s => portCount m .leaving s.trace ≤ portCount m .handled s.trace)
  · rintro _ ⟨subscribers, rfl⟩
    exact le_rfl
  · intro s s' a hr hs hc hstep
    have hkeeps (hk : KeepsLeaving m s.trace s'.trace) :
        portCount m .leaving s'.trace ≤ portCount m .handled s'.trace := by
      rw [hk.leaving]
      exact hs.trans hk.handled
    cases a with
    | handle => exact hkeeps (handleStep_keepsLeaving hstep m)
    | node a =>
        by_cases hat : a = .dispatch ∧ s.dispatch = .leavingHook m
        · obtain ⟨rfl, hp⟩ := hat
          exact (reachable_outPorts hr.reachable m).leavingHook (reachable_outFifo hr.reachable)
            hp (hc m hp) hstep
        · exact hkeeps (step_keepsLeaving hstep fun ha hp => hat ⟨ha, hp⟩)

end VpNode

namespace SrcNode

open Node

variable {s s' : SrcNode M S}

/-- The dispatch thread invokes the leaving hooker for an entry that was hooked: not for a frame of
the loop, and `m` has more entries on `out_queue` than calls of `pending_meta` on their way to the
hook. And `speak` is not called. -/
def HeadHooked (s : SrcNode M S) : SrcAct M → Prop
  | .node .dispatch => ∀ m, s.node.dispatch = .leavingHook m →
      m ∉ producedMetas s.node.trace ∧
        weight (Call.unhooked m) s.node.calls < s.node.outQueue.count (some m)
  | .speak _ => False
  | _ => True

instance decidableHeadHooked (s : SrcNode M S) : ∀ a, Decidable (s.HeadHooked a)
  | .node .dispatch => s.node.dispatch.decidableAtLeaving
  | .speak _ => isFalse id
  | .node (.metaFlow _) | .node (.pendingMeta _) | .node (.call _) | .node .deinitialized
  | .node .deinit | .handle | .openSource _ | .read _ | .start | .stop | .deinitialized
  | .destructor | .closer => isTrue trivial

theorem handled_le_outPush (h : vpSrcNode.Reachable s) (m : M) :
    portCount m .handled s.node.trace ≤ portCount m .outPush s.node.trace := by
  obtain ⟨k, hports, -⟩ := reachable_outPorts h m
  have hhandled := hports.handled
  omega

theorem pushMeta_le_leaving (h : vpSrcNode.Reachable s) (m : M) :
    portCount m .pushMeta s.node.trace ≤ portCount m .leaving s.node.trace := by
  obtain ⟨k, hports, -⟩ := reachable_outPorts h m
  have hleaving := hports.leaving
  omega

theorem step_keepsLeaving {a : SrcAct M} {m : M} (h : s.step a = some s')
    (ha : a = .node .dispatch → s.node.dispatch ≠ .leavingHook m) :
    KeepsLeaving m s.node.trace s'.node.trace := by
  cases step_cases h with
  | handle _ hh => cases handleStep_cases hh <;> constructor <;> simp [Event.port]
  | read m' _ | speak m' => constructor <;> simp [Event.port]
  | node a node _ hn =>
      apply Node.step_keepsLeaving hn
      rintro rfl
      exact ha rfl
  | opened _ | notOpened _ | readNone _ | control _ _ _ _ _ _ => exact ⟨rfl, le_rfl⟩

theorem leaving_le_handled (h : vpSrcNode.ReachableBy (fun s a => s.HeadHooked a) s) (m : M) :
    portCount m .leaving s.node.trace ≤ portCount m .handled s.node.trace := by
  apply h.invariant
    (I := fun s => portCount m .leaving s.node.trace ≤ portCount m .handled s.node.trace)
  · rintro _ ⟨isOpened, subscribers, rfl⟩
    exact le_rfl
  · intro s s' a hr hs hc hstep
    by_cases hat : a = .node .dispatch ∧ s.node.dispatch = .leavingHook m
    · obtain ⟨rfl, hp⟩ := hat
      obtain ⟨k, hports, hk⟩ := reachable_outPorts hr.reachable m
      obtain ⟨hm, hlt⟩ := hc m hp
      have hzero : k = 0 := by
        rw [List.count_eq_zero.mpr hm] at hk
        omega
      have hstep' : s.step (.node .dispatch) = some s' := hstep
      obtain ⟨-, node, hn, rfl⟩ := nodeStep_cases hstep'
      exact hports.leavingHook (reachable_outFifo hr.reachable) hp (by omega) hn
    · have hkeeps := step_keepsLeaving (m := m) hstep fun ha hp => hat ⟨ha, hp⟩
      rw [hkeeps.leaving]
      exact hs.trans hkeeps.handled

omit [DecidableEq M] in
/-- Only `speak` records its meta. -/
theorem step_speak {a : SrcAct M} {m : M} (h : s.step a = some s')
    (hm : .speak m ∈ s'.node.trace) : .speak m ∈ s.node.trace ∨ a = .speak m := by
  cases step_cases h with
  | handle _ hh =>
      left
      cases handleStep_cases hh <;> simpa using hm
  | read m' _ =>
      left
      simpa using hm
  | node a node _ hn => exact .inl (Node.step_speak hn hm)
  | speak m' =>
      rcases List.mem_append.mp hm with hm | hm
      · exact .inl hm
      · right
        simpa [eq_comm] using hm
  | opened _ | notOpened _ | readNone _ | control _ _ _ _ _ _ => exact .inl hm

theorem reachable_noSpeak (h : vpSrcNode.ReachableBy (fun s a => s.HeadHooked a) s) (m : M) :
    .speak m ∉ s.node.trace := by
  apply h.invariant (I := fun s => .speak m ∉ s.node.trace)
  · rintro _ ⟨isOpened, subscribers, rfl⟩
    exact List.not_mem_nil
  · intro s s' a _ hs hc hstep hm
    rcases step_speak hstep hm with hm | rfl
    · exact hs hm
    · exact hc

end SrcNode

/-! ## Both kinds of nodes -/

/-- In a run in which the dispatch thread takes up hooked entries only, every meta that leaves the
node passes the output ports. -/
theorem passes_ports_of_headHooked [Meta M] :
    (∀ (cfg : NodeConfig M) (s : VpNode M S),
      (vpNode cfg).ReachableBy (fun s a => s.HeadHooked a) s → PassesPorts s.trace) ∧
    ∀ s : SrcNode M S,
      vpSrcNode.ReachableBy (fun s a => s.HeadHooked a) s → PassesPorts s.node.trace := by
  constructor
  · intro cfg s h
    apply passesPorts_of_counts
    · refine VpNode.reachable_prefix ?_ h
      intro s hs m
      exact ⟨VpNode.handled_le_outPush hs.reachable m, VpNode.leaving_le_handled hs m,
        VpNode.pushMeta_le_leaving hs.reachable m⟩
    · exact VpNode.reachable_noSpeak h.reachable
  · intro s h
    apply passesPorts_of_counts
    · refine SrcNode.reachable_prefix ?_ h
      intro s hs m
      exact ⟨SrcNode.handled_le_outPush hs.reachable m, SrcNode.leaving_le_handled hs m,
        SrcNode.pushMeta_le_leaving hs.reachable m⟩
    · exact SrcNode.reachable_noSpeak h

/-- `pending_meta` of a control meta, up to `push_meta`. -/
def pendingDispatched : List (NodeAct MetaPtr) :=
  [.pendingMeta (some (.control 0)), .call 0, .call 0, .call 0] ++ List.replicate 5 .dispatch

theorem passes_ports_of_headHooked_pending :
    (∃ s, baseNode.ReachableBy (fun s a => s.HeadHooked a) s ∧
      .pushMeta ∈ portsOf (.control 0) s.trace ∧ PassesPorts s.trace) ∧
    ∃ s : SrcNode MetaPtr Nat, vpSrcNode.ReachableBy (fun s a => s.HeadHooked a) s ∧
      .pushMeta ∈ portsOf (.control 0) s.node.trace ∧ PassesPorts s.node.trace := by
  constructor
  · have hinit : baseNode.ReachableBy (fun s a => s.HeadHooked a) (VpNode.start []) :=
      .init ⟨[], rfl⟩
    obtain ⟨s, hr, hp⟩ := hinit.exists_of_run (p := fun s => .pushMeta ∈ portsOf (.control 0) s.trace)
      (pendingDispatched.map .node) (by decide) (by decide)
    exact ⟨s, hr, hp, passes_ports_of_headHooked.1 _ s hr⟩
  · have hinit : vpSrcNode.ReachableBy (fun s a => s.HeadHooked a)
        (SrcNode.start false [] : SrcNode MetaPtr Nat) := .init ⟨false, [], rfl⟩
    obtain ⟨s, hr, hp⟩ := hinit.exists_of_run
      (p := fun s => .pushMeta ∈ portsOf (.control 0) s.node.trace)
      (pendingDispatched.map .node) (by decide) (by decide)
    exact ⟨s, hr, hp, passes_ports_of_headHooked.2 s hr⟩

/-! ## The ways past the ports -/

/-- `m` was put on `out_queue` once and given to `push_meta`, and not each of the output ports was
passed in turn. -/
def MissesPort (m : M) (t : List (Event M)) : Prop :=
  (portCount m .outPush t = 1 ∧ .pushMeta ∈ portsOf m t) ∧
    (portsOf m t).filter (· ∈ outStages) ≠ outStages

instance (m : M) (t : List (Event M)) : Decidable (MissesPort m t) :=
  inferInstanceAs (Decidable ((_ ∧ _) ∧ _))

theorem MissesPort.not_passesPorts {m : M} {t : List (Event M)} (h : MissesPort m t) :
    ¬ PassesPorts t := fun hpass => h.2 (hpass.once m h.1.1 h.1.2)

/-- One `pending_meta` has pushed its meta and not come to the hook; the signal of another one lets
the dispatch thread in. -/
def pendingOvertaken : List (NodeAct MetaPtr) :=
  [.pendingMeta (some (.control 0)), .pendingMeta (some (.control 1)), .call 0, .call 1, .call 1,
    .call 1] ++ List.replicate 5 .dispatch

/-- A source produces a frame and dispatches it. -/
def frameDispatched : List (SrcAct MetaPtr) :=
  [.start, .handle, .openSource true, .handle, .handle, .handle, .handle, .handle,
    .read (some (.frame 0)), .handle, .handle, .handle] ++ List.replicate 5 (.node .dispatch)

/-- The handled hook may come too late in both kinds of nodes; the loop of a source does not have
it, and `speak` has no hook at all. -/
theorem misses_ports :
    (∃ s, baseNode.Reachable s ∧ ¬ PassesPorts s.trace) ∧
      (∃ s : SrcNode MetaPtr Nat, vpSrcNode.Reachable s ∧
        MissesPort (.frame 0) s.node.trace ∧ ¬ PassesPorts s.node.trace) ∧
      ∃ s : SrcNode MetaPtr Nat, vpSrcNode.Reachable s ∧
        .speak (.control 0) ∈ s.node.trace ∧ ¬ PassesPorts s.node.trace := by
  have hsrc : vpSrcNode.Reachable (SrcNode.start false [] : SrcNode MetaPtr Nat) :=
    .init ⟨false, [], rfl⟩
  refine ⟨?_, ?_, ?_⟩
  · have hinit : baseNode.Reachable (VpNode.start []) := .init ⟨[], rfl⟩
    obtain ⟨s, hr, hp⟩ := hinit.exists_of_run (p := fun s => MissesPort (.control 0) s.trace)
      (pendingOvertaken.map .node) (by decide)
    exact ⟨s, hr, hp.not_passesPorts⟩
  · obtain ⟨s, hr, hp⟩ := hsrc.exists_of_run (p := fun s => MissesPort (.frame 0) s.node.trace)
      frameDispatched (by decide)
    exact ⟨s, hr, hp, hp.not_passesPorts⟩
  · obtain ⟨s, hr, hp⟩ := hsrc.exists_of_run (p := fun s => .speak (.control 0) ∈ s.node.trace)
      [.speak (.control 0)] (by decide)
    exact ⟨s, hr, hp, fun hpass => hpass.noSpeak _ hp⟩

end VideoStream
