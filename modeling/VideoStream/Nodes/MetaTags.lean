import VideoStream.Nodes.Sequential
import VideoStream.Objects.MetaObject

/-!
# Tags and casts

`handle_run` picks its branch by `meta_type_`, casts to the class that should go with it, and uses
the result of the cast without a test. So it relies on the tags of the objects. Here a node runs
beside everybody who makes metas, copies them, or writes their attributes.

* As long as every operation keeps the tags (`MetaHeap.KeepsTag`), all casts succeed, the batch cache
  and the batches have no null, no null is copied to `out_queue`, and the loop does not throw
  (`casts_succeed_of_keepsTag`). An operation that does not keep them makes a tag disagree at once
  (`not_castsSucceed_of_not_keepsTag`).
* A script that writes `meta_type` breaks each of these (`casts_fail`).
-/

namespace VideoStream

open Library Meta

/-! ## Nulls in the loop -/

/-- The entries of the batch cache that are still to be copied to `out_queue`. -/
def HandlePc.copying {M : Type} : HandlePc M → List (Option M)
  | .push rest | .signal rest => rest
  | .handledHook i rest => i :: rest
  | _ => []

namespace VpNode

open Node

variable {M S : Type} {s s' : VpNode M S}

/-- No null comes from the handlers. -/
structure NoNull (s : VpNode M S) : Prop where
  noThrow : s.handle.pc ≠ .threw
  cache : none ∉ s.handle.frameMetaBatchCache
  copying : none ∉ s.handle.pc.copying
  batches : ∀ metas ∈ batches s.trace, none ∉ metas

theorem nodeStep_noNull {a : NodeAct M} (h : s.step a = some s') (hs : s.NoNull) : s'.NoNull := by
  have hbatches : batches s'.trace = batches s.trace := by
    apply step_filterMap _ h
    intro e he
    cases e <;> first | rfl | cases he
  obtain ⟨hthrow, hcache, hcopying, hnone⟩ := hs
  rw [← step_handle h] at hthrow hcache hcopying
  exact ⟨hthrow, hcache, hcopying, hbatches ▸ hnone⟩

variable [Meta M] {cfg : NodeConfig M}

/-- On a well-typed meta the casts succeed. -/
theorem callHandlers_noNull {cache : List (Option M)} {m : M} {h : Handled M} (hm : WellTyped m)
    (hcache : none ∉ cache) (hc : callHandlers cfg cache m = .ok h) :
    none ∉ h.frameMetaBatchCache := by
  unfold callHandlers at hc
  rcases hm with hf | hcontrol
  · rw [hf.1, castFrame_of_frameMeta hf] at hc
    cases hc
    simpa using hcache
  · rw [hcontrol.1] at hc
    cases hc
    exact hcache

omit [Meta M] in
theorem batches_noNull {t : List (Event M)} {h : Handled M} (hnone : none ∉ h.frameMetaBatchCache)
    (ht : ∀ metas ∈ batches t, none ∉ metas) :
    ∀ metas ∈ batches (t ++ batchEvents h), none ∉ metas := by
  intro metas hmem
  rw [batches_batchEvents] at hmem
  split at hmem
  · rcases List.mem_append.mp hmem with hmem | hmem
    · exact ht metas hmem
    · rwa [List.mem_singleton.mp hmem]
  · exact ht metas hmem

theorem handleStep_noNull (h : s.handleStep cfg = some s')
    (hm : ∀ m, s.handle.pc.inHand = some m → WellTyped m) (hs : s.NoNull) : s'.NoNull := by
  obtain ⟨hthrow, hcache, hcopying, hbatches⟩ := hs
  cases handleStep_cases h with
  | throws m msg hp hc =>
      have htagged := (hm m (by simp [hp, HandlePc.inHand])).tagged
      exact absurd hc (callHandlers_ne_error htagged)
  | consumed m r hp hc ht =>
      have hnone := callHandlers_noNull (hm m (by simp [hp, HandlePc.inHand])) hcache hc
      exact ⟨by simp, by simp, by simp [HandlePc.copying], batches_noNull hnone hbatches⟩
  | emit m r hp hc ht =>
      have hnone := callHandlers_noNull (hm m (by simp [hp, HandlePc.inHand])) hcache hc
      exact ⟨by simp, hnone, hnone, batches_noNull hnone hbatches⟩
  | keep m r hp hc ht =>
      have hnone := callHandlers_noNull (hm m (by simp [hp, HandlePc.inHand])) hcache hc
      exact ⟨by simp, hnone, by simp [HandlePc.copying], batches_noNull hnone hbatches⟩
  | pushEnd hp => exact ⟨by simp, by simp, by simp [HandlePc.copying], hbatches⟩
  | push i rest hp =>
      rw [hp] at hcopying
      exact ⟨by simp, hcache, hcopying, by simpa [Event.batched] using hbatches⟩
  | handledHook i rest hp =>
      rw [hp] at hcopying
      refine ⟨by simp, hcache, fun hx => hcopying (List.mem_cons_of_mem _ hx), ?_⟩
      simpa [Event.batched] using hbatches
  | signal rest hp =>
      rw [hp] at hcopying
      exact ⟨by simp, hcache, hcopying, hbatches⟩
  | _ =>
      exact ⟨by simp, hcache, by simp [HandlePc.copying], by simpa [Event.batched] using hbatches⟩

/-- What the handle thread pushes on `out_queue` is not null, but for the dead flag. -/
theorem NoNull.pushed (hs : s.NoNull) (h : s.handleStep cfg = some s')
    (hp : s.handle.pc ≠ .deadPush) {i : Option M} (hq : s'.outQueue = s.outQueue ++ [i]) :
    i ≠ none := by
  cases handleStep_cases h with
  | push j rest hpush =>
      obtain rfl : j = i := by simpa using hq
      rintro rfl
      refine hs.copying ?_
      rw [hpush]
      exact List.mem_cons_self
  | deadPush hdead => exact absurd hdead hp
  | _ => simp at hq

end VpNode

/-! ## A node beside those who use its metas -/

/-- A node, and the objects that its metas point to. -/
structure HeapNode (Image S : Type) where
  heap : MetaHeap Image
  node : VpNode Nat S

/-- An operation on the heap, or a step of the node. -/
inductive HeapAct (Image : Type) where
  | heap (a : MetaAct Image)
  | node (a : VpAct Nat)
  deriving DecidableEq

namespace HeapNode

variable {Image S : Type}

/-- The step passes no pointer but to an object that was made. -/
def Valid (heap : MetaHeap Image) : VpAct Nat → Prop
  | .node (.metaFlow (some m)) | .node (.pendingMeta (some m)) => m < heap.length
  | _ => True

instance decidableValid (heap : MetaHeap Image) : ∀ a, Decidable (Valid heap a)
  | .node (.metaFlow (some _)) | .node (.pendingMeta (some _)) =>
      inferInstanceAs (Decidable (_ < _))
  | .node (.metaFlow none) | .node (.pendingMeta none) | .node .dispatch | .node (.call _)
  | .node .deinitialized | .node .deinit | .handle => isTrue trivial

/-- A step. The node reads the tags and the classes as they are now. -/
def step (cfg : NodeConfig Nat) (s : HeapNode Image S) :
    HeapAct Image → Option (HeapNode Image S)
  | .heap a => (s.heap.step a).map fun heap => { s with heap := heap }
  | .node a =>
      if Valid s.heap a then
        ((@vpNode Nat S s.heap.asMeta cfg).step s.node a).map fun node => { s with node := node }
      else none

/-- The operation on the heap keeps the tags. -/
def KeepsTag (s : HeapNode Image S) : HeapAct Image → Prop
  | .heap a => s.heap.KeepsTag a
  | .node _ => True

instance (s : HeapNode Image S) : ∀ a, Decidable (s.KeepsTag a)
  | .heap a => inferInstanceAs (Decidable (s.heap.KeepsTag a))
  | .node _ => isTrue trivial

end HeapNode

/-- A node, and everybody who makes and changes metas. -/
def heapNode {Image S : Type} (cfg : NodeConfig Nat) : System (HeapNode Image S) (HeapAct Image) where
  init s := s.heap = [] ∧ ∃ subscribers, s.node = VpNode.start subscribers
  step := HeapNode.step cfg

namespace HeapNode

variable {Image S : Type} {cfg : NodeConfig Nat} {s s' : HeapNode Image S}

/-- The tags agree with the classes, and everything that `handle_run` builds on it holds. -/
structure CastsSucceed (s : HeapNode Image S) : Prop where
  typed : s.heap.Typed
  castFrame : ∀ m, s.node.handle.pc = .callHandlers m →
    s.heap.asMeta.metaType m = .frame → @castFrame Nat s.heap.asMeta m = some m
  castControl : ∀ m, s.node.handle.pc = .callHandlers m →
    s.heap.asMeta.metaType m = .control → @castControl Nat s.heap.asMeta m = some m
  noNull : s.node.NoNull
  pushed : ∀ cfg node, @VpNode.handleStep Nat S s.heap.asMeta cfg s.node = some node →
    s.node.handle.pc ≠ .deadPush → ∀ i, node.outQueue = s.node.outQueue ++ [i] → i ≠ none

/-- The invariant behind it: the handle thread looks at objects that were made. -/
structure TagInv (s : HeapNode Image S) : Prop where
  typed : s.heap.Typed
  awaits : ∀ m, s.node.Awaits m → m < s.heap.length
  noNull : s.node.NoNull

theorem step_tagInv {a : HeapAct Image} (h : s.step cfg a = some s') (hkeeps : s.KeepsTag a)
    (hs : s.TagInv) : s'.TagInv := by
  obtain ⟨htyped, hawaits, hnull⟩ := hs
  cases a with
  | heap a =>
      obtain ⟨heap, hheap, rfl⟩ := Option.map_eq_some_iff.mp h
      refine ⟨MetaHeap.step_typed hheap hkeeps htyped, fun m hm => ?_, hnull⟩
      exact Nat.lt_of_lt_of_le (hawaits m hm) (MetaHeap.step_length hheap)
  | node a =>
      rw [step] at h
      split at h
      · next hvalid =>
          obtain ⟨node, hn, rfl⟩ := Option.map_eq_some_iff.mp h
          cases a with
          | handle =>
              let _ := s.heap.asMeta
              refine ⟨htyped, fun m hm => hawaits m (VpNode.handleStep_awaits hn hm), ?_⟩
              refine VpNode.handleStep_noNull hn (fun m hm => ?_) hnull
              exact htyped.wellTyped (hawaits m (.inr (.inr hm)))
          | node a =>
              refine ⟨htyped, fun m hm => ?_, VpNode.nodeStep_noNull hn hnull⟩
              rcases VpNode.nodeStep_awaits hn hm with hm | rfl
              · exact hawaits m hm
              · exact hvalid
      · cases h

theorem reachable_tagInv (h : (heapNode cfg).ReachableBy KeepsTag s) : s.TagInv := by
  apply h.invariant
  · rintro s ⟨hheap, subscribers, hnode⟩
    refine ⟨?_, fun m hm => ?_, ?_⟩
    · rw [hheap]
      intro o ho
      cases ho
    · rw [hnode] at hm
      rcases hm with hm | ⟨pc, hpc⟩ | hm
      · cases hm
      · cases hpc
      · cases hm
    · rw [hnode]
      exact ⟨by simp [VpNode.start, Node.start], by simp [VpNode.start, Node.start],
        by simp [VpNode.start, Node.start, HandlePc.copying],
        by simp [VpNode.start, Node.start, batches]⟩
  · intro s s' a _ hs hkeeps hstep
    exact step_tagInv hstep hkeeps hs

/-- A write against `KeepsTag` makes the tags disagree at once. -/
theorem not_castsSucceed_of_not_keepsTag {a : HeapAct Image} (h : s.step cfg a = some s')
    (hkeeps : ¬ s.KeepsTag a) : ¬ s'.CastsSucceed := by
  intro hcasts
  cases a with
  | heap a =>
      obtain ⟨heap, hheap, rfl⟩ := Option.map_eq_some_iff.mp h
      exact MetaHeap.not_typed_of_not_keepsTag hheap hkeeps hcasts.typed
  | node a => exact hkeeps trivial

end HeapNode

/-- In every run in which each operation on the heap keeps the tags, the tags agree with the classes,
the casts of `handle_run` succeed, no handler gets a null and none is kept or copied, and the loop
does not throw. -/
theorem casts_succeed_of_keepsTag {Image S : Type} {cfg : NodeConfig Nat} {s : HeapNode Image S}
    (h : (heapNode cfg).ReachableBy HeapNode.KeepsTag s) : s.CastsSucceed := by
  have hs := HeapNode.reachable_tagInv h
  have htyped {m : Nat} (hp : s.node.handle.pc = .callHandlers m) :
      @WellTyped Nat s.heap.asMeta m :=
    hs.typed.wellTyped (hs.awaits m (.inr (.inr (by simp [hp, HandlePc.inHand]))))
  let _ := s.heap.asMeta
  refine ⟨hs.typed, fun m hp htag => ?_, fun m hp htag => ?_, hs.noNull, ?_⟩
  · rcases htyped hp with hf | hc
    · exact castFrame_of_frameMeta hf
    · have hctag : metaType m = .control := hc.1
      rw [show metaType m = MetaType.frame from htag] at hctag
      cases hctag
  · rcases htyped hp with hf | hc
    · have hftag : metaType m = .frame := hf.1
      rw [show metaType m = MetaType.control from htag] at hftag
      cases hftag
    · exact castControl_of_controlMeta hc
  · intro cfg node hstep hp i hq
    exact hs.noNull.pushed hstep hp hq

/-- A frame meta made by the default constructor, all zero, whose tag is written as it is, and a clone
of it. The clone goes through a node. -/
theorem casts_succeed_of_keepsTag_cloned :
    ∃ s : HeapNode Unit Nat, (heapNode (NodeConfig.base 1 Nat.one_pos)).ReachableBy
      HeapNode.KeepsTag s ∧ (s.node.outQueue = [some 1] ∧ s.heap.length = 2) ∧
        s.CastsSucceed := by
  have hinit : (heapNode (NodeConfig.base 1 Nat.one_pos)).ReachableBy HeapNode.KeepsTag
      (⟨[], VpNode.start []⟩ : HeapNode Unit Nat) := .init ⟨rfl, [], rfl⟩
  obtain ⟨s, hr, hp⟩ := hinit.exists_of_run
    (p := fun s => s.node.outQueue = [some 1] ∧ s.heap.length = 2)
    [.heap (.vpFrameMetaDefault ⟨.frame, 0, 0, 0, 0, 0, ()⟩), .heap (.write 0 (.metaType .frame)),
      .heap (.clone 0), .node (.node (.metaFlow (some 1))), .node (.node (.call 0)),
      .node (.node (.call 0)), .node (.node (.call 0)), .node .handle, .node .handle, .node .handle,
      .node .handle, .node .handle, .node .handle] (by decide) (by decide)
  exact ⟨s, hr, hp, casts_succeed_of_keepsTag hr⟩

/-- One frame meta, its tag written, passed to a node that handles it. -/
def writeTag (t : MetaType) : List (HeapAct Unit) :=
  [.heap (.vpFrameMeta () 0 0 0 0 0), .heap (.write 0 (.metaType t)), .node (.node (.metaFlow (some 0))),
    .node (.node (.call 0)), .node (.node (.call 0)), .node (.node (.call 0)), .node .handle,
    .node .handle, .node .handle, .node .handle]

theorem HeapNode.reachable_start :
    (heapNode (NodeConfig.base 1 Nat.one_pos)).Reachable
      (⟨[], VpNode.start []⟩ : HeapNode Unit Nat) :=
  .init ⟨rfl, [], rfl⟩

/-- A script writes the attribute `meta_type` of a frame meta. `CONTROL`: the cast yields null, which
is what `handle_control_meta` is called with. A value that is no enumerator: the loop throws. -/
theorem casts_fail :
    (∃ s : HeapNode Unit Nat, (heapNode (NodeConfig.base 1 Nat.one_pos)).Reachable s ∧
      s.node.handle.pc = .callHandlers 0 ∧ s.heap.asMeta.metaType 0 = .control ∧
        @castControl Nat s.heap.asMeta 0 = none) ∧
    ∃ s : HeapNode Unit Nat, (heapNode (NodeConfig.base 1 Nat.one_pos)).Reachable s ∧
      s.node.handle.pc = .threw :=
  ⟨HeapNode.reachable_start.exists_of_run (writeTag .control) (by decide),
    HeapNode.reachable_start.exists_of_run (writeTag (.other 7) ++ [.node .handle]) (by decide)⟩

end VideoStream
