import VideoStream.Nodes.Conservation
import VideoStream.Nodes.Shutdown
import VideoStream.Nodes.SourceOrder

/-!
# What a node still does after `alive` was cleared

Both threads test `alive` at the head of their loops, so after `deinitialized` has cleared it each of
them finishes the iteration it is in, and begins no other. What is left of the two iterations is
counted here step by step. The callers of `meta_flow` and `pending_meta` may go on; what they push
stays in the queues.

* `teardown_bounded` — from there on each of the two threads takes a bounded number of steps, and at
  most one more meta goes through each of them.
-/

namespace VideoStream

open Library

variable {H M S : Type}

namespace Node

variable {s s' : Node H M S}

/-! ## What the dispatch thread gives away -/

/-- The subscribers are those of the wiring, and the dispatch thread goes through them. -/
structure Wired (subscribers : List S) (s : Node H M S) : Prop where
  wired : s.subscribers = subscribers
  publishing : ∀ m rest ph, s.dispatch = .publish m rest ph → rest <:+ subscribers

/-- The step changes nothing of what the dispatch thread gives away. -/
structure SameGiven (s s' : Node H M S) : Prop where
  pushMetas : pushMetas s'.trace = pushMetas s.trace
  dispatch : s'.dispatch = s.dispatch
  subscribers : s'.subscribers = s.subscribers

variable {subscribers : List S}

theorem SameGiven.wired (h : SameGiven s s') (hs : s.Wired subscribers) :
    s'.Wired subscribers := by
  refine ⟨h.subscribers.trans hs.wired, fun m rest ph hp => ?_⟩
  rw [h.dispatch] at hp
  exact hs.publishing m rest ph hp

theorem metaFlowBody_sameGiven (m : M) (ph : FlowPc) : SameGiven s (s.metaFlowBody m ph) := by
  cases ph <;> exact ⟨by simp [metaFlowBody, Event.pushed], rfl, rfl⟩

theorem step_sameGiven [HandleThread H] {a : NodeAct M} (h : s.step a = some s')
    (ha : a ≠ .dispatch) : SameGiven s s' := by
  cases a with
  | dispatch => exact absurd rfl ha
  | metaFlow m => cases m <;> (cases h; exact ⟨rfl, rfl, rfl⟩)
  | pendingMeta m => cases h; exact ⟨rfl, rfl, rfl⟩
  | call i =>
      obtain ⟨c, -, rfl⟩ := callStep_cases h
      rcases c with ⟨m, pc⟩ | ⟨m, pc⟩
      · obtain ⟨hpush, hdispatch, hsub⟩ := metaFlowBody_sameGiven (s := s) m pc
        exact ⟨hpush, hdispatch, hsub⟩
      · cases pc <;> exact ⟨by simp [callBody, pendingMetaBody, Event.pushed], rfl, rfl⟩
  | deinitialized =>
      obtain ⟨-, rfl⟩ := deinitialized_cases h
      exact ⟨rfl, rfl, rfl⟩
  | deinit => cases deinitStep_cases h <;> exact ⟨rfl, rfl, rfl⟩

theorem dispatchStep_wired (h : s.dispatchStep = some s') (hs : s.Wired subscribers) :
    s'.Wired subscribers := by
  obtain ⟨hwired, hpublishing⟩ := hs
  cases dispatchStep_cases h with
  | pushMeta m hp =>
      refine ⟨hwired, fun m' rest ph hp' => ?_⟩
      obtain ⟨-, rfl, -⟩ := DispatchPc.publish.inj hp'
      exact hwired ▸ List.suffix_rfl
  | publish m rest ph hp =>
      refine ⟨hwired, fun m' rest' ph' hp' => ?_⟩
      have hsuffix := hpublishing m rest ph hp
      cases rest with
      | nil => cases hp'
      | cons k rest =>
          cases ph with
          | push | hook =>
              cases hp'
              exact hsuffix
          | signal =>
              cases hp'
              exact (List.suffix_cons k rest').trans hsuffix
  | enter hp _ | leave hp _ | wait hp _ | frontEmpty hp _ | frontNull rest hp _
  | frontMeta m rest hp _ | leavingHook m hp | pop m hp =>
      exact ⟨hwired, fun m' rest' ph' hp' => nomatch hp'⟩

theorem step_wired [HandleThread H] {a : NodeAct M} (h : s.step a = some s')
    (hs : s.Wired subscribers) : s'.Wired subscribers := by
  by_cases ha : a = .dispatch
  · subst ha
    exact dispatchStep_wired h hs
  · exact (step_sameGiven h ha).wired hs

end Node

/-- A step of the dispatch thread. -/
def NodeAct.isDispatch : NodeAct M → Bool
  | .dispatch => true
  | _ => false

/-! ## What is left of an iteration -/

/-- The steps that the dispatch thread of a node with `n` subscribers has left. -/
def DispatchPc.stepsLeft (n : ℕ) : DispatchPc M S → ℕ
  | .exited | .threw => 0
  | .test => 1
  | .pop _ => 2
  | .publish _ [] _ => 3
  | .publish _ (_ :: rest) .push => 6 + 3 * rest.length
  | .publish _ (_ :: rest) .hook => 5 + 3 * rest.length
  | .publish _ (_ :: rest) .signal => 4 + 3 * rest.length
  | .pushMeta _ => 4 + 3 * n
  | .leavingHook _ => 5 + 3 * n
  | .front => 6 + 3 * n
  | .wait => 7 + 3 * n

/-- The metas that the dispatch thread may still give to `push_meta`. -/
def DispatchPc.toPush : DispatchPc M S → ℕ
  | .wait | .front | .leavingHook _ | .pushMeta _ => 1
  | _ => 0

/-- The steps that the handle thread of a plain node has left, with `k` entries to copy out. -/
def HandlePc.stepsLeft (k : ℕ) : HandlePc M → ℕ
  | .exited | .threw => 0
  | .deadSignal => 1
  | .deadPush => 2
  | .test => 3
  | .push _ => 4 + 3 * k
  | .signal _ => 5 + 3 * k
  | .handledHook .. => 6 + 3 * k
  | .callHandlers _ => 8 + 3 * k
  | .handlingHook _ => 9 + 3 * k
  | .pop => 10 + 3 * k
  | .wait => 11 + 3 * k

/-- The metas that the handle thread may still take. -/
def HandlePc.toTake : HandlePc M → ℕ
  | .wait | .pop => 1
  | _ => 0

/-- The steps that the handle thread of a source has left. -/
def SrcPc.stepsLeft : SrcPc M → ℕ
  | .exited => 0
  | .deadSignal => 1
  | .deadPush => 2
  | .test | .testAlive => 3
  | .knock | .openSource | .signal _ => 4
  | .isOpen | .testOpen | .handleFrame _ => 5
  | .push _ => 6
  | .reading => 7
  | .getFrame => 8

/-- The frames that the handle thread of a source may still read. -/
def SrcPc.toRead : SrcPc M → ℕ
  | .getFrame | .reading => 1
  | _ => 0

/-! ## The dispatch thread -/

namespace Node

variable {s s' : Node H M S}

/-- The steps and the metas that the dispatch thread has left. -/
def dispatchLeft (s : Node H M S) : ℕ := s.dispatch.stepsLeft s.subscribers.length

def pushedAtMost (s : Node H M S) : ℕ := (pushMetas s.trace).length + s.dispatch.toPush

theorem dispatchStep_left (h : s.dispatchStep = some s') (ha : s.alive = false) :
    s'.dispatchLeft + 1 ≤ s.dispatchLeft ∧ s'.pushedAtMost ≤ s.pushedAtMost := by
  unfold dispatchLeft pushedAtMost
  cases dispatchStep_cases h with
  | enter hp halive =>
      rw [ha] at halive
      cases halive
  | pushMeta m hp =>
      rw [hp]
      constructor
      · show (DispatchPc.publish m s.subscribers .push).stepsLeft s.subscribers.length + 1 ≤
          4 + 3 * s.subscribers.length
        cases s.subscribers with
        | nil => exact Nat.le_refl 4
        | cons k rest =>
            show 6 + 3 * rest.length + 1 ≤ 4 + 3 * (rest.length + 1)
            omega
      · show (pushMetas (s.trace ++ [.pushMeta m])).length + 0 ≤ (pushMetas s.trace).length + 1
        rw [pushMetas_concat, List.length_append]
        exact Nat.le_refl _
  | publish m rest ph hp =>
      rw [hp]
      refine ⟨?_, ?_⟩
      · rcases rest with _ | ⟨k, _ | ⟨k', rest⟩⟩ <;> cases ph <;>
          grind [publishNext, DispatchPc.stepsLeft]
      · cases rest <;> cases ph <;> exact Nat.le_refl _
  | leavingHook m hp =>
      rw [hp]
      refine ⟨?_, ?_⟩
      · show 4 + 3 * s.subscribers.length + 1 ≤ 5 + 3 * s.subscribers.length
        omega
      · show (pushMetas (s.trace ++ [.leaving _ m])).length + 1 ≤ (pushMetas s.trace).length + 1
        rw [pushMetas_concat, List.length_append]
        exact Nat.le_refl _
  | leave hp _ | wait hp _ | frontEmpty hp _ | frontNull rest hp _ | frontMeta m rest hp _
  | pop m hp =>
      rw [hp]
      simp only [DispatchPc.stepsLeft, DispatchPc.toPush]
      omega

/-- A step of a shared thread, once `alive` is cleared. -/
theorem step_left [HandleThread H] {a : NodeAct M} (h : s.step a = some s')
    (ha : s.alive = false) :
    s'.dispatchLeft + a.isDispatch.toNat ≤ s.dispatchLeft ∧
      s'.pushedAtMost ≤ s.pushedAtMost := by
  by_cases hd : a = .dispatch
  · subst hd
    exact dispatchStep_left h ha
  · obtain ⟨hpush, hdispatch, hsub⟩ := step_sameGiven h hd
    have hnot : a.isDispatch = false := by
      cases a <;> first | rfl | exact absurd rfl hd
    unfold dispatchLeft pushedAtMost
    rw [hpush, hdispatch, hsub, hnot]
    exact ⟨Nat.le_refl _, Nat.le_refl _⟩

/-- With the subscribers of the wiring, the bounds are those at the head of an iteration. -/
theorem dispatchLeft_le {subscribers : List S} (hs : s.Wired subscribers) :
    s.dispatchLeft ≤ 7 + 3 * s.subscribers.length := by
  unfold dispatchLeft
  cases hp : s.dispatch with
  | publish m rest ph =>
      have hle := (hs.publishing m rest ph hp).length_le
      rw [← hs.wired] at hle
      rcases rest with _ | ⟨k, rest⟩ <;> cases ph <;>
        simp only [DispatchPc.stepsLeft, List.length_cons] at hle ⊢ <;> omega
  | _ =>
      simp only [DispatchPc.stepsLeft]
      omega

theorem pushedAtMost_le : s.pushedAtMost ≤ (pushMetas s.trace).length + 1 := by
  unfold pushedAtMost
  cases s.dispatch <;> simp [DispatchPc.toPush]

end Node

/-! ## The handle thread of a plain node -/

/-- A step of the handle thread. -/
def VpAct.isHandle : VpAct M → Bool
  | .handle => true
  | .node _ => false

/-- A step of the dispatch thread. -/
def VpAct.isDispatch : VpAct M → Bool
  | .handle => false
  | .node a => a.isDispatch

namespace VpNode

open Node

variable {s s' : VpNode M S}

/-- The steps and the metas that the handle thread has left. -/
def handleLeft (s : VpNode M S) : ℕ := s.handle.pc.stepsLeft s.handle.notCopied.length

def takenAtMost (s : VpNode M S) : ℕ := (takenMetas s.trace).length + s.handle.pc.toTake

theorem handleLeft_le : s.handleLeft ≤ 11 + 3 * s.handle.notCopied.length := by
  unfold handleLeft
  cases s.handle.pc <;> simp only [HandlePc.stepsLeft] <;> omega

theorem takenAtMost_le : s.takenAtMost ≤ (takenMetas s.trace).length + 1 := by
  unfold takenAtMost
  cases s.handle.pc <;> simp [HandlePc.toTake]

variable [Meta M] {cfg : NodeConfig M}

/-- The handlers put at most the meta itself into the cache. -/
theorem length_callHandlers {cache : List (Option M)} {m : M} {r : Handled M}
    (h : callHandlers cfg cache m = .ok r) : r.frameMetaBatchCache.length ≤ cache.length + 1 := by
  unfold callHandlers at h
  split at h
  · cases h
    exact Nat.le_succ _
  · cases h
    exact (List.length_append ..).le
  · cases h

theorem handleStep_sameGiven (h : s.handleStep cfg = some s') : SameGiven s s' := by
  cases handleStep_cases h <;> exact ⟨by simp [Event.pushed], rfl, rfl⟩

theorem handleStep_left (h : s.handleStep cfg = some s') (ha : s.alive = false) :
    s'.handleLeft + 1 ≤ s.handleLeft ∧ s'.takenAtMost ≤ s.takenAtMost := by
  unfold handleLeft takenAtMost HandleRun.notCopied
  cases handleStep_cases h with
  | enter hp halive =>
      rw [ha] at halive
      cases halive
  | emit m r hp hc ht | keep m r hp hc ht | consumed m r hp hc ht =>
      have hlen := length_callHandlers hc
      simp only [hp, HandlePc.stepsLeft, HandlePc.toTake, takenMetas_batchEvents]
      omega
  | leave hp _ | wait hp _ | popNull rest hp _ | popMeta m rest hp _ | handlingHook m hp
  | throws m msg hp _ | pushEnd hp | push i rest hp | handledHook i rest hp | signal rest hp
  | deadPush hp | deadSignal hp =>
      simp only [hp, HandlePc.stepsLeft, HandlePc.toTake, takenMetas_concat, Event.taken,
        List.length_append, List.length_cons, Option.toList_some, Option.toList_none,
        List.length_nil]
      omega

/-- A step of the node, once `alive` is cleared. -/
theorem step_left {a : VpAct M} (h : (vpNode cfg).step s a = some s') (ha : s.alive = false) :
    s'.alive = false ∧
      s'.handleLeft + a.isHandle.toNat ≤ s.handleLeft ∧ s'.takenAtMost ≤ s.takenAtMost ∧
      s'.dispatchLeft + a.isDispatch.toNat ≤ s.dispatchLeft ∧ s'.pushedAtMost ≤ s.pushedAtMost := by
  cases a with
  | handle =>
      have hsame : s'.alive = s.alive := by
        cases handleStep_cases h <;> rfl
      obtain ⟨hpush, hdispatch, hsub⟩ := handleStep_sameGiven h
      obtain ⟨hleft, htaken⟩ := handleStep_left h ha
      refine ⟨hsame.trans ha, hleft, htaken, ?_, ?_⟩
      · rw [dispatchLeft, hdispatch, hsub]
        exact Nat.le_refl _
      · rw [pushedAtMost, hpush, hdispatch]
        exact Nat.le_refl _
  | node a =>
      have hh : s'.handle = s.handle := step_handle h
      have htaken : takenMetas s'.trace = takenMetas s.trace := by
        refine step_filterMap ?_ h
        intro e he
        cases e <;> first | rfl | cases he
      obtain ⟨hleft, hpush⟩ := Node.step_left h ha
      refine ⟨step_alive h ha, ?_, ?_, hleft, hpush⟩
      · rw [handleLeft, hh]
        exact Nat.le_refl _
      · rw [takenAtMost, hh, htaken]
        exact Nat.le_refl _

theorem reachable_wired (h : (vpNode cfg).Reachable s) : ∃ subscribers, s.Wired subscribers := by
  apply h.invariant (I := fun s => ∃ subscribers, s.Wired subscribers)
  · rintro _ ⟨subscribers, rfl⟩
    exact ⟨subscribers, rfl, fun m rest ph hp => nomatch hp⟩
  · rintro s s' a _ ⟨subscribers, hs⟩ _ hstep
    refine ⟨subscribers, ?_⟩
    cases a with
    | handle => exact (handleStep_sameGiven hstep).wired hs
    | node a => exact Node.step_wired hstep hs

/-- What the rest of a run counts, and what it leaves. -/
theorem run_left {as : List (VpAct M)} (ha : s.alive = false)
    (hr : (vpNode cfg).run s as = some s') :
    as.countP VpAct.isHandle + s'.handleLeft ≤ s.handleLeft ∧
      as.countP VpAct.isDispatch + s'.dispatchLeft ≤ s.dispatchLeft ∧
      s'.takenAtMost ≤ s.takenAtMost ∧ s'.pushedAtMost ≤ s.pushedAtMost := by
  have hall : ∀ a ∈ as, (fun _ => True) a := fun _ _ => trivial
  refine ⟨?_, ?_, ?_, ?_⟩
  · exact System.countP_le_of_run (I := fun s => s.alive = false)
      (fun s s' a ha _ h => ⟨(step_left h ha).1, (step_left h ha).2.1⟩) ha hall hr
  · exact System.countP_le_of_run (I := fun s => s.alive = false)
      (fun s s' a ha _ h => ⟨(step_left h ha).1, (step_left h ha).2.2.2.1⟩) ha hall hr
  · have hle := System.countP_le_of_run (I := fun s => s.alive = false) (p := fun _ => false)
      (fun s s' a ha _ h => ⟨(step_left h ha).1, (step_left h ha).2.2.1⟩) ha hall hr
    rw [List.countP_false] at hle
    exact (Nat.zero_add _).symm.trans_le hle
  · have hle := System.countP_le_of_run (I := fun s => s.alive = false) (p := fun _ => false)
      (fun s s' a ha _ h => ⟨(step_left h ha).1, (step_left h ha).2.2.2.2⟩) ha hall hr
    rw [List.countP_false] at hle
    exact (Nat.zero_add _).symm.trans_le hle

end VpNode

/-! ## The handle thread of a source -/

/-- A step of the handle thread, one inside `open` or `get_frame_meta` included. -/
def SrcAct.isHandle : SrcAct M → Bool
  | .handle | .openSource _ | .read _ => true
  | _ => false

/-- A step of the dispatch thread. -/
def SrcAct.isDispatch : SrcAct M → Bool
  | .node a => a.isDispatch
  | _ => false

namespace SrcNode

open Node

variable {s s' : SrcNode M S}

/-- The steps and the frames that the handle thread has left. -/
def handleLeft (s : SrcNode M S) : ℕ := s.node.handle.stepsLeft

def readAtMost (s : SrcNode M S) : ℕ := (producedMetas s.node.trace).length + s.node.handle.toRead

theorem handleLeft_le : s.handleLeft ≤ 8 := by
  unfold handleLeft
  cases s.node.handle <;> simp [SrcPc.stepsLeft]

theorem readAtMost_le : s.readAtMost ≤ (producedMetas s.node.trace).length + 1 := by
  unfold readAtMost
  cases s.node.handle <;> simp [SrcPc.toRead]

theorem handleStep_sameGiven (h : s.handleStep = some s') : SameGiven s.node s'.node := by
  cases handleStep_cases h <;> exact ⟨by simp [Event.pushed], rfl, rfl⟩

theorem handleStep_left (h : s.handleStep = some s') (ha : s.node.alive = false) :
    s'.handleLeft + 1 ≤ s.handleLeft ∧ s'.readAtMost ≤ s.readAtMost := by
  unfold handleLeft readAtMost
  cases handleStep_cases h with
  | enter hp halive | stillAlive hp halive =>
      rw [ha] at halive
      cases halive
  | isOpen hp _ | notOpen hp _ | leave hp _ | stillOpen hp _ | closed hp _ | knock hp _
  | notAlive hp _ | getFrame hp | push m hp | handleFrame m hp | signal m hp | deadPush hp
  | deadSignal hp =>
      simp only [hp, SrcPc.stepsLeft, SrcPc.toRead, producedMetas_concat, Event.produced?,
        Option.map_none, Option.toList_none, List.append_nil]
      omega

/-- A step of the source, once `alive` is cleared. -/
theorem step_left {a : SrcAct M} (h : vpSrcNode.step s a = some s') (ha : s.node.alive = false) :
    s'.node.alive = false ∧
      s'.handleLeft + a.isHandle.toNat ≤ s.handleLeft ∧ s'.readAtMost ≤ s.readAtMost ∧
      s'.node.dispatchLeft + a.isDispatch.toNat ≤ s.node.dispatchLeft ∧
      s'.node.pushedAtMost ≤ s.node.pushedAtMost := by
  cases step_cases h with
  | handle _ hh =>
      have hsame : s'.node.alive = s.node.alive := by
        cases handleStep_cases hh <;> rfl
      obtain ⟨hpush, hdispatch, hsub⟩ := handleStep_sameGiven hh
      obtain ⟨hleft, hread⟩ := handleStep_left hh ha
      refine ⟨hsame.trans ha, hleft, hread, ?_, ?_⟩
      · rw [dispatchLeft, hdispatch, hsub]
        exact Nat.le_refl _
      · rw [pushedAtMost, hpush, hdispatch]
        exact Nat.le_refl _
  | opened hp | notOpened hp | readNone hp | read m hp =>
      refine ⟨ha, ?_, ?_, Nat.le_refl _, ?_⟩
      · simp [handleLeft, hp, SrcPc.stepsLeft, SrcAct.isHandle]
      · simp [readAtMost, hp, SrcPc.toRead, Event.produced?]
      · simp [pushedAtMost, Event.pushed]
  | node a node hne hn =>
      have hh : node.handle = s.node.handle := step_handle hn
      obtain ⟨hleft, hpush⟩ := Node.step_left hn ha
      refine ⟨step_alive hn ha, ?_, ?_, hleft, hpush⟩
      · show node.handle.stepsLeft + 0 ≤ s.node.handle.stepsLeft
        rw [hh]
        exact Nat.le_refl _
      · show (producedMetas node.trace).length + node.handle.toRead ≤ _
        rw [hh, step_producedMetas hn]
        exact Nat.le_refl _
  | speak m =>
      refine ⟨ha, Nat.le_refl _, ?_, Nat.le_refl _, ?_⟩
      · simp [readAtMost, Event.produced?]
      · simp [pushedAtMost, Event.pushed]
  | control _ gate isOpened closer deinit hmem =>
      have hnot : a.isHandle = false ∧ a.isDispatch = false := by
        simp only [List.mem_cons, List.not_mem_nil, or_false] at hmem
        rcases hmem with rfl | rfl | rfl | rfl | rfl <;> exact ⟨rfl, rfl⟩
      rw [hnot.1, hnot.2]
      exact ⟨ha, Nat.le_refl _, Nat.le_refl _, Nat.le_refl _, Nat.le_refl _⟩

theorem step_wired {subscribers : List S} {a : SrcAct M} (h : s.step a = some s')
    (hs : s.node.Wired subscribers) : s'.node.Wired subscribers := by
  cases step_cases h with
  | handle _ hh => exact (handleStep_sameGiven hh).wired hs
  | node a node hne hn => exact Node.step_wired hn hs
  | _ => exact ⟨hs.wired, hs.publishing⟩

theorem reachable_wired (h : vpSrcNode.Reachable s) : ∃ subscribers, s.node.Wired subscribers := by
  apply h.invariant (I := fun s => ∃ subscribers, s.node.Wired subscribers)
  · rintro _ ⟨isOpened, subscribers, rfl⟩
    exact ⟨subscribers, rfl, fun m rest ph hp => nomatch hp⟩
  · rintro s s' a _ ⟨subscribers, hs⟩ _ hstep
    exact ⟨subscribers, step_wired hstep hs⟩

/-- What the rest of a run counts, and what it leaves. -/
theorem run_left {as : List (SrcAct M)} (ha : s.node.alive = false)
    (hr : vpSrcNode.run s as = some s') :
    as.countP SrcAct.isHandle + s'.handleLeft ≤ s.handleLeft ∧
      as.countP SrcAct.isDispatch + s'.node.dispatchLeft ≤ s.node.dispatchLeft ∧
      s'.readAtMost ≤ s.readAtMost ∧ s'.node.pushedAtMost ≤ s.node.pushedAtMost := by
  have hall : ∀ a ∈ as, (fun _ => True) a := fun _ _ => trivial
  refine ⟨?_, ?_, ?_, ?_⟩
  · exact System.countP_le_of_run (I := fun s => s.node.alive = false)
      (fun s s' a ha _ h => ⟨(step_left h ha).1, (step_left h ha).2.1⟩) ha hall hr
  · exact System.countP_le_of_run (I := fun s => s.node.alive = false)
      (fun s s' a ha _ h => ⟨(step_left h ha).1, (step_left h ha).2.2.2.1⟩) ha hall hr
  · have hle := System.countP_le_of_run (I := fun s => s.node.alive = false) (p := fun _ => false)
      (fun s s' a ha _ h => ⟨(step_left h ha).1, (step_left h ha).2.2.1⟩) ha hall hr
    rw [List.countP_false] at hle
    exact (Nat.zero_add _).symm.trans_le hle
  · have hle := System.countP_le_of_run (I := fun s => s.node.alive = false) (p := fun _ => false)
      (fun s s' a ha _ h => ⟨(step_left h ha).1, (step_left h ha).2.2.2.2⟩) ha hall hr
    rw [List.countP_false] at hle
    exact (Nat.zero_add _).symm.trans_le hle

end SrcNode

/-! ## The teardown -/

/-- Once `alive` is cleared, whatever the other threads and the callers do: the handle thread and the
dispatch thread have a bounded number of steps left, and take at most one more meta each. -/
theorem teardown_bounded {M S : Type} [Meta M] :
    (∀ (cfg : NodeConfig M) (s s' : VpNode M S) (as : List (VpAct M)),
      (vpNode cfg).Reachable s → s.alive = false → (vpNode cfg).run s as = some s' →
        as.countP VpAct.isHandle ≤ 11 + 3 * s.handle.notCopied.length ∧
        as.countP VpAct.isDispatch ≤ 7 + 3 * s.subscribers.length ∧
        (takenMetas s'.trace).length ≤ (takenMetas s.trace).length + 1 ∧
        (pushMetas s'.trace).length ≤ (pushMetas s.trace).length + 1) ∧
    ∀ (s s' : SrcNode M S) (as : List (SrcAct M)),
      vpSrcNode.Reachable s → s.node.alive = false → vpSrcNode.run s as = some s' →
        as.countP SrcAct.isHandle ≤ 8 ∧
        as.countP SrcAct.isDispatch ≤ 7 + 3 * s.node.subscribers.length ∧
        (producedMetas s'.node.trace).length ≤ (producedMetas s.node.trace).length + 1 ∧
        (pushMetas s'.node.trace).length ≤ (pushMetas s.node.trace).length + 1 := by
  constructor
  · intro cfg s s' as h ha hr
    obtain ⟨subscribers, hwired⟩ := VpNode.reachable_wired h
    obtain ⟨hhandle, hdispatch, htaken, hpushed⟩ := VpNode.run_left ha hr
    have hleft := VpNode.handleLeft_le (s := s)
    have hdleft := Node.dispatchLeft_le hwired
    have hmost := VpNode.takenAtMost_le (s := s)
    have hpmost := Node.pushedAtMost_le (s := s)
    refine ⟨by omega, by omega, ?_, ?_⟩
    · exact (Nat.le_add_right _ _).trans (htaken.trans hmost)
    · exact (Nat.le_add_right _ _).trans (hpushed.trans hpmost)
  · intro s s' as h ha hr
    obtain ⟨subscribers, hwired⟩ := SrcNode.reachable_wired h
    obtain ⟨hhandle, hdispatch, hread, hpushed⟩ := SrcNode.run_left ha hr
    have hleft := SrcNode.handleLeft_le (s := s)
    have hdleft := Node.dispatchLeft_le hwired
    have hmost := SrcNode.readAtMost_le (s := s)
    have hpmost := Node.pushedAtMost_le (s := s.node)
    refine ⟨by omega, by omega, ?_, ?_⟩
    · exact (Nat.le_add_right _ _).trans (hread.trans hmost)
    · exact (Nat.le_add_right _ _).trans (hpushed.trans hpmost)

/-- The call of `meta_flow` that began before `alive` was cleared ends, and the handle thread takes its
frame. -/
def lastFrame : List (VpAct MetaPtr) :=
  List.replicate 3 (.node (.call 0)) ++ [.handle, .handle]

/-- `alive` is cleared when the handle thread has passed its last test. -/
def deinitBeforeRead : List (SrcAct MetaPtr) :=
  [.start, .handle, .openSource true, .handle, .handle, .handle, .handle, .deinitialized, .closer,
    .node .deinit]

theorem teardown_bounded_lastFrame :
    (∃ s s' : VpNode MetaPtr Nat, (s.alive = false ∧ takenMetas s.trace = []) ∧
      baseNode.run s lastFrame = some s' ∧ takenMetas s'.trace = [.frame 0] ∧
        lastFrame.countP VpAct.isHandle ≤ 11 + 3 * s.handle.notCopied.length) ∧
    ∃ s s' : SrcNode MetaPtr Nat, (s.node.alive = false ∧ producedMetas s.node.trace = []) ∧
      vpSrcNode.run s [.handle, .read (some (.frame 0))] = some s' ∧
        producedMetas s'.node.trace = [.frame 0] ∧
          [SrcAct.handle, .read (some (MetaPtr.frame 0))].countP SrcAct.isHandle ≤ 8 := by
  constructor
  · have hinit : baseNode.Reachable (VpNode.start []) := .init ⟨[], rfl⟩
    obtain ⟨s, hr, hp, hrun⟩ := hinit.exists_of_run
      (p := fun s => (s.alive = false ∧ takenMetas s.trace = []) ∧
        (baseNode.run s lastFrame).any (fun t => takenMetas t.trace = [.frame 0]) = true)
      waitThenDeinit (by decide)
    obtain ⟨s', hs', ht⟩ := (Option.any_eq_true _ _).mp hrun
    exact ⟨s, s', hp, hs', of_decide_eq_true ht, (teardown_bounded.1 _ s s' _ hr hp.1 hs').1⟩
  · have hinit : vpSrcNode.Reachable (SrcNode.start false [] : SrcNode MetaPtr Nat) :=
      .init ⟨false, [], rfl⟩
    obtain ⟨s, hr, hp, hrun⟩ := hinit.exists_of_run
      (p := fun s => (s.node.alive = false ∧ producedMetas s.node.trace = []) ∧
        (vpSrcNode.run s [.handle, .read (some (.frame 0))]).any
          (fun t => producedMetas t.node.trace = [.frame 0]) = true)
      deinitBeforeRead (by decide)
    obtain ⟨s', hs', ht⟩ := (Option.any_eq_true _ _).mp hrun
    have hbound := (teardown_bounded (M := MetaPtr)).2 s s' _ hr hp.1 hs'
    exact ⟨s, s', hp, hs', of_decide_eq_true ht, hbound.1⟩

end VideoStream
