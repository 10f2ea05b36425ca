import Mathlib.Data.List.Induction
import Mathlib.Tactic.Set
import VideoStream.Objects.Meta

/-!
# The loop body of `vp_node::handle_run`

One iteration of the handle thread, from the popped meta to the end of the loop body: the handlers
are called (`callHandlers`), then the shared tail decides between the early `continue` of a
consumed control meta, the copy of a complete batch to `out_queue`, and nothing (`tail`).

`handleAll` runs the loop over a sequence of popped metas, without the other threads. The handle
thread of `VpNode` takes the same functions step by step; `VpNode.Simulates` says that it puts on
`out_queue` what `handleAll` puts there.

The two results here are about what a control meta does to the loop: `forwards_iff` (its result
never reaches `out_queue`) and `sameFrames_iff` (it drops the frames of an unfinished batch).
-/

namespace VideoStream

open Meta

/-- What a subclass of `vp_node` sets: the batch size and the virtual `handle_control_meta`, which
may return `nullptr`. Both `handle_frame_meta` overloads return nothing. -/
structure NodeConfig (M : Type) where
  frameMetaHandleBatch : Nat
  batch_pos : 0 < frameMetaHandleBatch
  handleControlMeta : Option M → Option M

/-- `vp_node::handle_control_meta` of the base class returns its argument. -/
def NodeConfig.base {M : Type} (b : Nat) (hb : 0 < b) : NodeConfig M := ⟨b, hb, id⟩

variable {M : Type} [Meta M]

/-- The local variables of an iteration after the handlers were called. -/
structure Handled (M : Type) where
  frameMetaBatchCache : List (Option M)
  outMeta : Option M
  batchComplete : Bool

/-- "call handlers": the branches on `in_meta->meta_type_`. With `batchComplete` the cache is what
`handle_frame_meta(vector)` was called with. -/
def callHandlers (cfg : NodeConfig M) (cache : List (Option M)) (inMeta : M) :
    Except String (Handled M) :=
  match metaType inMeta with
  | .control => .ok ⟨cache, cfg.handleControlMeta (castControl inMeta), false⟩
  | .frame =>
      let cache := cache ++ [castFrame inMeta]
      .ok ⟨cache, none, cfg.frameMetaHandleBatch ≤ cache.length⟩
  | .other _ => .error "invalid meta type!"

/-- How an iteration goes on after the handlers. -/
inductive Tail where
  /-- control meta with a null result: the cache is cleared and the loop continues -/
  | consumed
  /-- complete batch: the cache is copied to `out_queue` entry by entry, then cleared -/
  | emit
  /-- neither: back to the loop test -/
  | keep
  deriving DecidableEq, Repr

/-- The shared tail of the loop body. -/
def tail (inMeta : M) (h : Handled M) : Tail :=
  if metaType inMeta = .control ∧ h.outMeta.isNone then .consumed
  else if h.batchComplete then .emit
  else .keep

/-! ## The loop over a sequence of metas -/

/-- The batch cache, the entries put on `out_queue` so far, and the arguments of the calls of
`handle_frame_meta(vector)` so far. -/
structure HandleOut (M : Type) where
  cache : List (Option M)
  outQueue : List (Option M)
  batches : List (List (Option M))
  deriving DecidableEq

/-- At the start of `handle_run`. -/
def HandleOut.start : HandleOut M := ⟨[], [], []⟩

/-- One iteration of the loop, from a popped non-null meta. -/
def handleMeta (cfg : NodeConfig M) (r : HandleOut M) (inMeta : M) : Except String (HandleOut M) :=
  (callHandlers cfg r.cache inMeta).map fun h =>
    let batches := if h.batchComplete then r.batches ++ [h.frameMetaBatchCache] else r.batches
    match tail inMeta h with
    | .consumed => ⟨[], r.outQueue, batches⟩
    | .emit => ⟨[], r.outQueue ++ h.frameMetaBatchCache, batches⟩
    | .keep => ⟨h.frameMetaBatchCache, r.outQueue, batches⟩

/-- The loop over a sequence of popped metas. -/
def handleAll (cfg : NodeConfig M) (input : List M) : Except String (HandleOut M) :=
  input.foldlM (handleMeta cfg) .start

/-! ## The iteration on well-typed metas -/

/-- The iteration of a frame meta. -/
def frameStep (cfg : NodeConfig M) (r : HandleOut M) (m : M) : HandleOut M :=
  if cfg.frameMetaHandleBatch ≤ r.cache.length + 1 then
    ⟨[], r.outQueue ++ (r.cache ++ [some m]), r.batches ++ [r.cache ++ [some m]]⟩
  else ⟨r.cache ++ [some m], r.outQueue, r.batches⟩

/-- The iteration of a control meta. -/
def controlStep (cfg : NodeConfig M) (r : HandleOut M) (m : M) : HandleOut M :=
  if cfg.handleControlMeta (some m) = none then ⟨[], r.outQueue, r.batches⟩ else r

/-- The iteration of a well-typed meta. -/
def nextOut (cfg : NodeConfig M) (r : HandleOut M) (m : M) : HandleOut M :=
  if FrameMeta m then frameStep cfg r m else controlStep cfg r m

variable {cfg : NodeConfig M} {r : HandleOut M} {m : M}

/-- The handlers throw on an untagged meta only. -/
theorem callHandlers_ne_error {cache : List (Option M)} {msg : String} (h : Tagged m) :
    callHandlers cfg cache m ≠ .error msg := by
  unfold callHandlers
  rcases h with h | h <;> simp [h]

/-- An iteration on which the handlers do not throw. -/
theorem handleMeta_ok {h : Handled M} (hc : callHandlers cfg r.cache m = .ok h) :
    handleMeta cfg r m = .ok
      (let batches := if h.batchComplete then r.batches ++ [h.frameMetaBatchCache] else r.batches
      match tail m h with
      | .consumed => ⟨[], r.outQueue, batches⟩
      | .emit => ⟨[], r.outQueue ++ h.frameMetaBatchCache, batches⟩
      | .keep => ⟨h.frameMetaBatchCache, r.outQueue, batches⟩) := by
  rw [handleMeta, hc]
  rfl

theorem handleAll_concat (cfg : NodeConfig M) (input : List M) (m : M) :
    handleAll cfg (input ++ [m]) = (handleAll cfg input).bind fun r => handleMeta cfg r m := by
  unfold handleAll
  rw [List.foldlM_append]
  simp only [List.foldlM_cons, List.foldlM_nil, bind_pure]
  rfl

theorem nextOut_frame (h : FrameMeta m) : nextOut cfg r m = frameStep cfg r m := if_pos h

theorem nextOut_control (h : ControlMeta m) : nextOut cfg r m = controlStep cfg r m :=
  if_neg fun hf => hf.not_controlMeta h

theorem handleMeta_frame (h : FrameMeta m) : handleMeta cfg r m = .ok (frameStep cfg r m) := by
  have ht : metaType m = .frame := h.1
  by_cases hb : cfg.frameMetaHandleBatch ≤ r.cache.length + 1 <;>
    simp [handleMeta, callHandlers, tail, frameStep, ht, h, hb, Except.map]

theorem handleMeta_control (h : ControlMeta m) :
    handleMeta cfg r m = .ok (controlStep cfg r m) := by
  have ht : metaType m = .control := h.1
  by_cases hn : cfg.handleControlMeta (some m) = none <;>
    simp [handleMeta, callHandlers, tail, controlStep, ht, h, hn, Except.map]

theorem handleMeta_wellTyped (h : WellTyped m) : handleMeta cfg r m = .ok (nextOut cfg r m) := by
  rcases h with h | h
  · rw [handleMeta_frame h, nextOut_frame h]
  · rw [handleMeta_control h, nextOut_control h]

/-- On well-typed metas the loop does not throw, and is a fold of `nextOut`. -/
theorem handleAll_wellTyped {input : List M} (h : ∀ m ∈ input, WellTyped m) :
    handleAll cfg input = .ok (input.foldl (nextOut cfg) .start) := by
  have hfold : ∀ (input : List M) (r : HandleOut M), (∀ m ∈ input, WellTyped m) →
      input.foldlM (handleMeta cfg) r = .ok (input.foldl (nextOut cfg) r) := by
    intro input
    induction input with
    | nil => intro r _; rfl
    | cons m ms ih =>
        intro r h
        rw [List.foldlM_cons, handleMeta_wellTyped (h m List.mem_cons_self)]
        exact ih _ fun m' hm' => h m' (List.mem_cons_of_mem _ hm')
  exact hfold input .start h

/-! ## Control metas and `out_queue` -/

/-- The iteration that handles the control meta `c`, after the metas `pre`, adds to `out_queue`
exactly what `handle_control_meta` returned: one entry, or none for `nullptr`. -/
def ForwardsAt (cfg : NodeConfig M) (pre : List M) (c : M) : Prop :=
  (handleAll cfg (pre ++ [c])).map HandleOut.outQueue =
    (handleAll cfg pre).map fun r =>
      r.outQueue ++ (cfg.handleControlMeta (some c)).toList.map some

/-- Every control meta of `input` is forwarded: its result is put on `out_queue` once, behind
everything the iterations before it put there. -/
def Forwards (cfg : NodeConfig M) (input : List M) : Prop :=
  ∀ pre c post, input = pre ++ c :: post → ControlMeta c → ForwardsAt cfg pre c

omit [Meta M] in
/-- A control iteration leaves `out_queue` alone, whatever the handler returns. -/
theorem controlStep_outQueue (cfg : NodeConfig M) (r : HandleOut M) (c : M) :
    (controlStep cfg r c).outQueue = r.outQueue := by
  unfold controlStep
  split <;> rfl

theorem forwardsAt_iff {pre : List M} {c : M} (hpre : ∀ m ∈ pre, WellTyped m)
    (hc : ControlMeta c) : ForwardsAt cfg pre c ↔ cfg.handleControlMeta (some c) = none := by
  have hall : ∀ m ∈ pre ++ [c], WellTyped m := by
    intro m hm
    rcases List.mem_append.mp hm with hm | hm
    · exact hpre m hm
    · rw [List.mem_singleton.mp hm]
      exact .inr hc
  unfold ForwardsAt
  rw [handleAll_wellTyped hall, handleAll_wellTyped hpre, List.foldl_append]
  simp only [List.foldl_cons, List.foldl_nil, nextOut_control hc, Except.map, Except.ok.injEq,
    controlStep_outQueue, List.self_eq_append_right, List.map_eq_nil_iff,
    Option.toList_eq_nil_iff]

/-- The loop forwards control metas only where there is nothing to forward: `batch_complete` is
false on the control branch, so a non-null `out_meta` is dropped at the tail. -/
theorem forwards_iff (cfg : NodeConfig M) (input : List M) (hin : ∀ m ∈ input, WellTyped m) :
    Forwards cfg input ↔
      ∀ c ∈ input, ControlMeta c → cfg.handleControlMeta (some c) = none := by
  constructor
  · intro h c hc hctl
    obtain ⟨pre, post, rfl⟩ := List.append_of_mem hc
    have hpre : ∀ m ∈ pre, WellTyped m := fun m hm => hin m (List.mem_append_left _ hm)
    exact (forwardsAt_iff hpre hctl).mp (h pre c post rfl hctl)
  · rintro h pre c post rfl hctl
    have hpre : ∀ m ∈ pre, WellTyped m := fun m hm => hin m (List.mem_append_left _ hm)
    exact (forwardsAt_iff hpre hctl).mpr (h c (by simp) hctl)

/-- A node with batch size `b` that consumes every control meta, as a DES node does. -/
def NodeConfig.consuming (b : Nat) (hb : 0 < b) : NodeConfig M := ⟨b, hb, fun _ => none⟩

theorem forwards_iff_consuming :
    Forwards (.consuming 1 Nat.one_pos) [MetaPtr.frame 0, MetaPtr.control 1] ↔
      ∀ c ∈ [MetaPtr.frame 0, MetaPtr.control 1], ControlMeta c →
        (NodeConfig.consuming 1 Nat.one_pos).handleControlMeta (some c) = none :=
  forwards_iff (.consuming 1 Nat.one_pos) [MetaPtr.frame 0, MetaPtr.control 1] (by decide)

/-- The base node, batch size 1, drops a control meta that its handler passed on. -/
theorem forwards_fails_control : ¬ Forwards (.base 1 Nat.one_pos) [MetaPtr.control 0] := by
  intro h
  have hctl : ControlMeta (MetaPtr.control 0) := by decide
  have := (forwardsAt_iff (by decide) hctl).mp (h [] (MetaPtr.control 0) [] rfl hctl)
  exact absurd this (by decide)

/-! ## Control metas and the batch cache

The second law compares two runs of the loop: on an input, and on the input without its control
metas. The loop keeps every frame it has not copied out in the cache, so the frames copied out and
the frames cached together count the frames handled — unless a control iteration cleared a cache
that was not empty. -/

/-- The input without its control metas. -/
def eraseControls (input : List M) : List M := input.filter fun m => ¬ ControlMeta m

/-- The frames among the entries of a queue. -/
def frameEntries (entries : List (Option M)) : List M :=
  entries.filterMap fun e => e.bind castFrame

/-- What the law compares: the frames put on `out_queue`, the batches handled, the cache. -/
def HandleOut.frameView (r : HandleOut M) : List M × List (List (Option M)) × List (Option M) :=
  (frameEntries r.outQueue, r.batches, r.cache)

/-- The loop does the same to the frames of `input` as to the frames alone. -/
def SameFrames (cfg : NodeConfig M) (input : List M) : Prop :=
  (handleAll cfg input).map HandleOut.frameView =
    (handleAll cfg (eraseControls input)).map HandleOut.frameView

/-- Every control meta that its handler consumes arrives when the frames before it fill their
batches, so that the cache is empty. -/
def ConsumedBetweenBatches (cfg : NodeConfig M) (input : List M) : Prop :=
  ∀ pre c post, input = pre ++ c :: post → ControlMeta c →
    cfg.handleControlMeta (some c) = none →
    cfg.frameMetaHandleBatch ∣ (eraseControls pre).length

/-- What the loop keeps true of its variables. -/
structure HandleOut.Inv (cfg : NodeConfig M) (r : HandleOut M) : Prop where
  cache_lt : r.cache.length < cfg.frameMetaHandleBatch
  out_dvd : cfg.frameMetaHandleBatch ∣ r.outQueue.length
  frames : ∀ e ∈ r.outQueue ++ r.cache, ∃ m, FrameMeta m ∧ e = some m

/-- The frames that the loop still accounts for. -/
def HandleOut.frameCount (r : HandleOut M) : Nat := r.outQueue.length + r.cache.length

theorem inv_start : (HandleOut.start : HandleOut M).Inv cfg :=
  ⟨cfg.batch_pos, Nat.dvd_zero _, by intro e he; cases he⟩

theorem inv_frameStep (h : r.Inv cfg) (hm : FrameMeta m) : (frameStep cfg r m).Inv cfg := by
  have hlt := h.cache_lt
  unfold frameStep
  split
  · next hb =>
      refine ⟨cfg.batch_pos, ?_, ?_⟩
      · have hlen : r.cache.length + 1 = cfg.frameMetaHandleBatch := by omega
        simp only [List.length_append, List.length_singleton, hlen]
        exact Nat.dvd_add h.out_dvd (Nat.dvd_refl _)
      · intro e he
        simp only [List.append_nil, ← List.append_assoc, List.mem_append,
          List.mem_singleton] at he
        rcases he with he | rfl
        · exact h.frames e (List.mem_append.mpr he)
        · exact ⟨m, hm, rfl⟩
  · next hb =>
      refine ⟨by simp only [List.length_append, List.length_singleton]; omega, h.out_dvd, ?_⟩
      intro e he
      simp only [← List.append_assoc, List.mem_append, List.mem_singleton] at he
      rcases he with he | rfl
      · exact h.frames e (List.mem_append.mpr he)
      · exact ⟨m, hm, rfl⟩

theorem inv_controlStep (h : r.Inv cfg) : (controlStep cfg r m).Inv cfg := by
  unfold controlStep
  split
  · refine ⟨cfg.batch_pos, h.out_dvd, fun e he => h.frames e ?_⟩
    exact List.mem_append_left _ (by simpa using he)
  · exact h

theorem inv_nextOut (h : r.Inv cfg) : (nextOut cfg r m).Inv cfg := by
  unfold nextOut
  split
  · next hm => exact inv_frameStep h hm
  · exact inv_controlStep h

theorem inv_foldl (cfg : NodeConfig M) (input : List M) : (input.foldl (nextOut cfg) .start).Inv cfg := by
  induction input using List.reverseRecOn with
  | nil => exact inv_start
  | append_singleton ms m ih =>
      rw [List.foldl_append]
      exact inv_nextOut ih

/-! ### Counting frames -/

omit [Meta M] in
theorem frameCount_frameStep : (frameStep cfg r m).frameCount = r.frameCount + 1 := by
  unfold frameStep HandleOut.frameCount
  split <;> simp <;> omega

omit [Meta M] in
theorem frameCount_controlStep_le (cfg : NodeConfig M) (r : HandleOut M) (m : M) :
    (controlStep cfg r m).frameCount ≤ r.frameCount := by
  unfold controlStep HandleOut.frameCount
  split <;> simp

omit [Meta M] in
/-- A consumed control meta takes the cached frames with it. -/
theorem frameCount_consumed (hn : cfg.handleControlMeta (some m) = none) :
    (controlStep cfg r m).frameCount + r.cache.length = r.frameCount := by
  simp [controlStep, hn, HandleOut.frameCount]

theorem eraseControls_append (xs ys : List M) :
    eraseControls (xs ++ ys) = eraseControls xs ++ eraseControls ys := List.filter_append ..

theorem eraseControls_frame (hm : FrameMeta m) : eraseControls [m] = [m] := by
  simp [eraseControls, hm.not_controlMeta]

theorem eraseControls_control (hm : ControlMeta m) : eraseControls [m] = [] := by
  simp [eraseControls, hm]

/-- A stretch of the input adds at most one frame for each of its frame metas. -/
theorem frameCount_foldl_le (cfg : NodeConfig M) (input : List M)
    (hin : ∀ m ∈ input, WellTyped m) (r : HandleOut M) :
    (input.foldl (nextOut cfg) r).frameCount ≤ r.frameCount + (eraseControls input).length := by
  induction input generalizing r with
  | nil => simp
  | cons m ms ih =>
      have hms := ih (fun m' hm' => hin m' (List.mem_cons_of_mem _ hm')) (nextOut cfg r m)
      have hcons : eraseControls (m :: ms) = eraseControls [m] ++ eraseControls ms :=
        eraseControls_append [m] ms
      rw [List.foldl_cons, hcons, List.length_append]
      rcases hin m List.mem_cons_self with hm | hm
      · rw [nextOut_frame hm, frameCount_frameStep] at hms
        rw [nextOut_frame hm, eraseControls_frame hm, List.length_singleton]
        omega
      · rw [nextOut_control hm] at hms ⊢
        rw [eraseControls_control hm, List.length_nil]
        have := frameCount_controlStep_le cfg r m
        omega

/-- On frames alone the loop accounts for all of them. -/
theorem frameCount_frames (cfg : NodeConfig M) (input : List M)
    (hin : ∀ m ∈ input, FrameMeta m) :
    (input.foldl (nextOut cfg) .start).frameCount = input.length := by
  induction input using List.reverseRecOn with
  | nil => rfl
  | append_singleton ms m ih =>
      rw [List.foldl_append, List.foldl_cons, List.foldl_nil,
        nextOut_frame (hin m (by simp)), frameCount_frameStep,
        ih fun m' hm' => hin m' (List.mem_append_left _ hm'), List.length_append,
        List.length_singleton]

theorem eraseControls_frames {input : List M} (hin : ∀ m ∈ input, WellTyped m) :
    ∀ m ∈ eraseControls input, FrameMeta m := by
  intro m hm
  obtain ⟨hm, hc⟩ := List.mem_filter.mp hm
  exact (hin m hm).resolve_right (by simpa using hc)

theorem eraseControls_wellTyped {input : List M} (hin : ∀ m ∈ input, WellTyped m) :
    ∀ m ∈ eraseControls input, WellTyped m :=
  fun m hm => .inl (eraseControls_frames hin m hm)

/-- The length of a list of queue entries that are all frames is the number of its frames. -/
theorem length_frameEntries {entries : List (Option M)}
    (h : ∀ e ∈ entries, ∃ m, FrameMeta m ∧ e = some m) :
    (frameEntries entries).length = entries.length := by
  induction entries with
  | nil => rfl
  | cons e es ih =>
      obtain ⟨m, hm, rfl⟩ := h _ List.mem_cons_self
      have hes := ih fun e' he' => h e' (List.mem_cons_of_mem _ he')
      simpa [frameEntries, hm] using hes

/-! ### The two directions -/

/-- Where every consumed control meta meets an empty cache, the two runs end in the same state. -/
theorem foldl_eraseControls {input : List M} (hin : ∀ m ∈ input, WellTyped m)
    (hcons : ConsumedBetweenBatches cfg input) :
    input.foldl (nextOut cfg) .start = (eraseControls input).foldl (nextOut cfg) .start := by
  induction input using List.reverseRecOn with
  | nil => rfl
  | append_singleton ms m ih =>
      have hms : ∀ m ∈ ms, WellTyped m := fun m' hm' => hin m' (List.mem_append_left _ hm')
      have hpre : ConsumedBetweenBatches cfg ms := by
        rintro pre c post rfl
        exact hcons pre c (post ++ [m]) (by simp)
      have hih := ih hms hpre
      rw [List.foldl_append, List.foldl_cons, List.foldl_nil, hih, eraseControls_append]
      rcases hin m (by simp) with hm | hm
      · rw [eraseControls_frame hm, List.foldl_append, List.foldl_cons, List.foldl_nil]
      · rw [eraseControls_control hm, List.append_nil, nextOut_control hm]
        unfold controlStep
        split
        · next hn =>
            -- the frames before `m` fill their batches: nothing is cached
            have hdvd := hcons ms m [] rfl hm hn
            have hinv := inv_foldl cfg (eraseControls ms)
            have hcount := frameCount_frames cfg _ (eraseControls_frames hms)
            unfold HandleOut.frameCount at hcount
            rw [← hcount] at hdvd
            have hcache := Nat.eq_zero_of_dvd_of_lt
              ((Nat.dvd_add_right hinv.out_dvd).mp hdvd) hinv.cache_lt
            cases hr : (eraseControls ms).foldl (nextOut cfg) .start with
            | mk cache out batches =>
                rw [hr] at hcache
                obtain rfl : cache = [] := List.length_eq_zero_iff.mp hcache
                rfl
        · rfl

/-- If the run on the whole input accounts for all its frames, then no control iteration cleared
a cache with frames in it. -/
theorem consumedBetweenBatches_of_count {input : List M} (hin : ∀ m ∈ input, WellTyped m)
    (hcount : (input.foldl (nextOut cfg) .start).frameCount = (eraseControls input).length) :
    ConsumedBetweenBatches cfg input := by
  rintro pre c post rfl hc hn
  have hpre : ∀ m ∈ pre, WellTyped m := fun m hm => hin m (List.mem_append_left _ hm)
  have hpost : ∀ m ∈ post, WellTyped m := fun m hm => hin m (by simp [hm])
  set r := pre.foldl (nextOut cfg) .start with hr
  have hle := frameCount_foldl_le cfg pre hpre .start
  have hstart : (HandleOut.start : HandleOut M).frameCount = 0 := rfl
  have hrest := frameCount_foldl_le cfg post hpost (controlStep cfg r c)
  have hdrop := frameCount_consumed (r := r) hn
  have hsplit : (eraseControls (pre ++ c :: post)).length =
      (eraseControls pre).length + (eraseControls post).length := by
    rw [List.append_cons, eraseControls_append, eraseControls_append, eraseControls_control hc,
      List.append_nil, List.length_append]
  rw [← hr, hstart] at hle
  rw [List.foldl_append, List.foldl_cons, ← hr, nextOut_control hc, hsplit] at hcount
  have hfull : r.outQueue.length = (eraseControls pre).length := by
    unfold HandleOut.frameCount at *
    omega
  rw [← hfull]
  exact (inv_foldl cfg pre).out_dvd

/-- Control metas leave the frames alone exactly when those that are consumed arrive between two
batches: `frame_meta_batch_cache.clear()` on the consumed branch drops whatever is cached. -/
theorem sameFrames_iff (cfg : NodeConfig M) (input : List M) (hin : ∀ m ∈ input, WellTyped m) :
    SameFrames cfg input ↔ ConsumedBetweenBatches cfg input := by
  unfold SameFrames
  rw [handleAll_wellTyped hin, handleAll_wellTyped (eraseControls_wellTyped hin)]
  simp only [Except.map, Except.ok.injEq]
  constructor
  · intro h
    apply consumedBetweenBatches_of_count hin
    have hlen : ∀ r : HandleOut M, r.Inv cfg →
        r.frameCount = r.frameView.1.length + r.frameView.2.2.length := by
      intro r hr
      have hout := length_frameEntries fun e he => hr.frames e (List.mem_append_left _ he)
      simp [HandleOut.frameCount, HandleOut.frameView, hout]
    rw [hlen _ (inv_foldl cfg input), h, ← hlen _ (inv_foldl cfg _),
      frameCount_frames cfg _ (eraseControls_frames hin)]
  · intro h
    rw [foldl_eraseControls hin h]

theorem sameFrames_iff_between :
    SameFrames (.consuming 1 Nat.one_pos) [MetaPtr.frame 0, MetaPtr.control 1] ↔
      ConsumedBetweenBatches (.consuming 1 Nat.one_pos) [MetaPtr.frame 0, MetaPtr.control 1] :=
  sameFrames_iff (.consuming 1 Nat.one_pos) [MetaPtr.frame 0, MetaPtr.control 1] (by decide)

/-- Batch size 2: a consumed control meta in the middle of a batch, and the frame before it is
never handled. -/
theorem sameFrames_fails_midBatch :
    ¬ SameFrames (.consuming 2 Nat.two_pos)
      [MetaPtr.frame 0, MetaPtr.control 1, MetaPtr.frame 2] := by
  intro h
  have hcache := congrArg (fun e : Except String _ => e.toOption.map (·.2.2)) h
  exact absurd hcache (by decide)

end VideoStream
