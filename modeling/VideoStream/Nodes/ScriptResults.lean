import VideoStream.Nodes.ScriptedSource
import VideoStream.Nodes.SourceOrder

/-!
# What the script returns

A source is given a ratio to scale its images by, and a script to hand its frames to. The ratio does
not get past the constructor: the data source is made with ratio 1. The result of the script does
not get past `handle_frame_meta`, whose parameter it goes into. So a source dispatches what was asked
for as long as both would have made no difference (`as_asked_iff`, `not_as_asked`).

An exception of `PythonMethod::process` is not caught in the thread. There is one for each result
that is no `vp_frame_meta` (`script_returns_of_noObject`, `script_escapes`).
-/

namespace VideoStream

open Library

/-! ## The history of the calls -/

namespace SrcNode

variable {S : Type} {s s' : SrcNode Nat S}

/-- Frames are produced and handled in the steps of the data source and of the script. -/
theorem step_plain_trace {a : SrcAct Nat} (h : s.step a = some s') (hplain : s.Plain a) :
    handledFrames s'.node.trace = handledFrames s.node.trace ∧
      producedMetas s'.node.trace = producedMetas s.node.trace := by
  cases step_cases h with
  | handle _ hh =>
      have hcalls : s.node.handle.calls = false := hplain
      cases handleStep_cases hh with
      | handleFrame m hp => rw [hp] at hcalls; cases hcalls
      | _ => simp [Event.frameHandled?, Event.produced?]
  | readNone _ | read m _ => exact absurd hplain id
  | node a node _ hn =>
      refine ⟨Node.step_filterMap ?_ hn, Node.step_producedMetas hn⟩
      intro e he
      cases e <;> first | rfl | cases he
  | speak m => simp [Event.frameHandled?, Event.produced?]
  | opened _ | notOpened _ | control _ _ _ _ _ _ => exact ⟨rfl, rfl⟩

end SrcNode

/-- Whatever ratio the node is constructed with, its data source does not scale. -/
theorem vpSrcNodeDataSource_ratio {channelIndex : Int} {resizeRatio : ℚ} {d : VpDataSource}
    (h : vpSrcNodeDataSource channelIndex resizeRatio = some d) : d.resizeRatio = 1 := by
  unfold vpSrcNodeDataSource at h
  obtain ⟨d', hd, h⟩ := Option.bind_eq_some_iff.mp h
  split at h
  · cases h
    simp only [vpImageDataSource, vpDataSource] at hd
    split at hd
    · split at hd
      · cases hd
        rfl
      · cases hd
    · cases hd
  · cases h

namespace ScriptedSource

variable {Image S : Type} [CvMat Image] {s s' : ScriptedSource Image S}
variable {channelIndex : Int} {resizeRatio : ℚ}

/-- The history of the calls beside the trace of the node. -/
structure Logged (s : ScriptedSource Image S) : Prop where
  ratio : s.dataSource.resizeRatio = 1
  arguments : s.processed.map ScriptCall.argument = handledFrames s.src.node.trace
  results : ∀ c ∈ s.processed, SrcNode.handleFrameMeta c.argument c.outcome = .ok c.result
  frames : s.frames.map Prod.fst = producedMetas s.src.node.trace
  images : s.frames.map Prod.snd = s.images

theorem handleFrameMeta_trace {src src' : SrcNode Nat S} {m : Nat}
    (hp : src.node.handle = .handleFrame m) (h : src.step .handle = some src') :
    src'.node.trace = src.node.trace ++ [.frameHandled m] ∧ src'.node.handle = .signal m := by
  have hstep : src.handleStep = some src' := h
  rw [SrcNode.handleStep, hp] at hstep
  cases hstep
  exact ⟨rfl, rfl⟩

theorem step_logged {a : ScriptedAct Image} (h : Step s a s') (hs : s.Logged) : s'.Logged := by
  obtain ⟨hratio, harguments, hresults, hframes, himages⟩ := hs
  cases h with
  | src a src hplain _ hsrc | handle src hplain hsrc =>
      obtain ⟨hhandled, hproduced⟩ := SrcNode.step_plain_trace hsrc hplain
      exact ⟨hratio, harguments.trans hhandled.symm, hresults, hframes.trans hproduced.symm,
        himages⟩
  | readNone src hsrc =>
      obtain ⟨-, ⟨-, rfl⟩ | ⟨m, hm, -⟩⟩ := SrcNode.readStep_cases hsrc
      · exact ⟨hratio, harguments, hresults, hframes, himages⟩
      · cases hm
  | read image src hsrc =>
      obtain ⟨-, ⟨hm, -⟩ | ⟨m, hm, rfl⟩⟩ := SrcNode.readStep_cases hsrc
      · cases hm
      · cases hm
        refine ⟨hratio, ?_, hresults, ?_, ?_⟩
        · simpa [Event.frameHandled?] using harguments
        · simpa [Event.produced?] using hframes
        · simp [himages, hratio, scaled]
  | process m outcome result src hp hresult hsrc =>
      obtain ⟨htrace, -⟩ := handleFrameMeta_trace hp hsrc
      refine ⟨hratio, ?_, ?_, ?_, himages⟩
      · simp [htrace, harguments, Event.frameHandled?]
      · intro c hc
        rcases List.mem_append.mp hc with hc | hc
        · exact hresults c hc
        · rw [List.mem_singleton.mp hc]
          exact hresult
      · simp [htrace, hframes, Event.produced?]
  | escape m outcome msg hp herror => exact ⟨hratio, harguments, hresults, hframes, himages⟩
  | heap a heap hheap => exact ⟨hratio, harguments, hresults, hframes, himages⟩

theorem reachable_logged {C : ScriptedSource Image S → ScriptedAct Image → Prop}
    (h : (scriptedSource channelIndex resizeRatio).ReachableBy C s) : s.Logged := by
  apply h.invariant
  · rintro s ⟨isOpened, subscribers, dataSource, heap, hd, rfl⟩
    exact ⟨vpSrcNodeDataSource_ratio hd, rfl, fun _ hc => (nomatch hc), rfl, rfl⟩
  · intro s s' a _ hs _ hstep
    exact step_logged (step_cases hstep).2 hs

end ScriptedSource

/-! ## What a source dispatches -/

/-- The step does not begin a call of `pending_meta`. -/
def ScriptedAct.NoPendingMeta {Image : Type} : ScriptedAct Image → Prop
  | .src a => a.NoPendingMeta
  | _ => True

instance ScriptedAct.decidableNoPendingMeta {Image : Type} :
    ∀ a : ScriptedAct Image, Decidable a.NoPendingMeta
  | .src a => inferInstanceAs (Decidable a.NoPendingMeta)
  | .read _ | .process _ | .heap _ => isTrue trivial

/-- The script leaves the meta as it is: it fails, or returns `None` or the meta itself. -/
def ScriptOutcome.Keeps (m : Nat) : ScriptOutcome → Prop
  | .error | .none => True
  | .frameMeta result => result = m
  | .object => False

instance ScriptOutcome.decidableKeeps (m : Nat) : ∀ o : ScriptOutcome, Decidable (o.Keeps m)
  | .error | .none => isTrue trivial
  | .frameMeta _ => inferInstanceAs (Decidable (_ = _))
  | .object => isFalse id

/-- `handle_frame_meta` is left with its argument exactly when the script keeps it. -/
theorem handleFrameMeta_argument_iff {m : Nat} {outcome : ScriptOutcome} :
    SrcNode.handleFrameMeta m outcome = .ok (some m) ↔ outcome.Keeps m := by
  cases outcome with
  | error | none => exact iff_of_true rfl trivial
  | object => exact iff_of_false (fun h => nomatch h) id
  | frameMeta result =>
      constructor
      · rintro ⟨⟩
        rfl
      · rintro ⟨⟩
        rfl

namespace ScriptedSource

variable {Image S : Type} [CvMat Image] {s s' : ScriptedSource Image S}
variable {channelIndex : Int} {resizeRatio : ℚ}

/-- The `k`-th frame meta dispatched is the one that `process` returned for the `k`-th frame, which
was made of the `k`-th image, scaled by the ratio. -/
def AsAsked (resizeRatio : ℚ) (s : ScriptedSource Image S) : Prop :=
  ∀ (k m : Nat), s.src.node.pushedMetas[k]? = some m → ∃ argument outcome image,
    s.processed[k]? = some ⟨argument, outcome, some m⟩ ∧ s.images[k]? = some image ∧
      s.frames[k]? = some (argument, scaled resizeRatio image)

/-- Neither the script nor the ratio changes anything about the `k`-th frame. -/
structure Unchanged (resizeRatio : ℚ) (s : ScriptedSource Image S) (k : Nat) : Prop where
  script : ∀ c, s.processed[k]? = some c → c.outcome.Keeps c.argument
  image : ∀ image, s.images[k]? = some image → scaled resizeRatio image = image

/-- A step of a scripted source is a step of the source, or of the objects around it. -/
theorem step_src {a : ScriptedAct Image} (h : Step s a s') (ha : a.NoPendingMeta) :
    s'.src = s.src ∨ ∃ b : SrcAct Nat, b.NoPendingMeta ∧ s.src.step b = some s'.src := by
  cases h with
  | src a src _ _ hsrc => exact .inr ⟨a, ha, hsrc⟩
  | handle src _ hsrc => exact .inr ⟨.handle, trivial, hsrc⟩
  | readNone src hsrc => exact .inr ⟨.read none, trivial, hsrc⟩
  | read image src hsrc => exact .inr ⟨.read _, trivial, hsrc⟩
  | process m outcome result src _ _ hsrc => exact .inr ⟨.handle, trivial, hsrc⟩
  | escape m outcome msg _ _ => exact .inl rfl
  | heap a heap _ => exact .inl rfl

theorem reachable_src
    (h : (scriptedSource channelIndex resizeRatio).ReachableBy (fun _ a => a.NoPendingMeta) s) :
    vpSrcNode.ReachableBy (fun _ a => a.NoPendingMeta) s.src := by
  apply System.ReachableBy.project (fun s : ScriptedSource Image S => s.src) _ _ h
  · rintro s ⟨isOpened, subscribers, dataSource, heap, -, rfl⟩
    exact ⟨isOpened, subscribers, rfl⟩
  · intro s s' a ha hstep
    exact step_src (step_cases hstep).2 ha

/-- The `k`-th frame meta dispatched is the one that the `k`-th call of `process` was given, and it
was made of the `k`-th image. -/
theorem dispatched_argument
    (h : (scriptedSource channelIndex resizeRatio).ReachableBy (fun _ a => a.NoPendingMeta) s)
    {k m : Nat} (hk : s.src.node.pushedMetas[k]? = some m) :
    ∃ c image, s.processed[k]? = some c ∧ c.argument = m ∧ s.images[k]? = some image ∧
      s.frames[k]? = some (m, image) := by
  have hlog := reachable_logged h
  obtain ⟨hlt, hm⟩ := List.getElem?_eq_some_iff.mp hk
  -- the dispatch thread is behind the handle thread, and this behind the data source
  have hdispatched := SrcNode.pushMetas_prefix_handledFrames (reachable_src h)
  have hloop := SrcNode.reachable_loopOrder (reachable_src h)
  have hhandled : (handledFrames s.src.node.trace)[k]? = some m := by
    rw [← hm]
    exact List.prefix_iff_getElem?.mp hdispatched k hlt
  have hproduced : (producedMetas s.src.node.trace)[k]? = some m := by
    rw [← hm]
    exact List.prefix_iff_getElem?.mp (hdispatched.trans ⟨_, hloop.handled⟩) k hlt
  rw [← hlog.arguments, List.getElem?_map] at hhandled
  rw [← hlog.frames, List.getElem?_map] at hproduced
  obtain ⟨c, hc, hargument⟩ := Option.map_eq_some_iff.mp hhandled
  obtain ⟨⟨m', image⟩, hframe, rfl⟩ := Option.map_eq_some_iff.mp hproduced
  refine ⟨c, image, hc, hargument, ?_, hframe⟩
  rw [← hlog.images, List.getElem?_map, hframe]
  rfl

/-- Without `pending_meta`, a source dispatches what was asked for if and only if neither the script
nor the ratio makes a difference to a frame that it dispatches. -/
theorem as_asked_iff
    (h : (scriptedSource channelIndex resizeRatio).ReachableBy (fun _ a => a.NoPendingMeta) s) :
    s.AsAsked resizeRatio ↔ ∀ k < s.src.node.pushedMetas.length, s.Unchanged resizeRatio k := by
  have hlog := reachable_logged h
  constructor
  · intro hasked k hlt
    have hk := List.getElem?_eq_getElem hlt
    obtain ⟨c, image, hc, hargument, himage, hframe⟩ := dispatched_argument h hk
    obtain ⟨argument, outcome, image', hc', himage', hframe'⟩ := hasked k _ hk
    obtain rfl := Option.some.inj (himage.symm.trans himage')
    obtain ⟨rfl, hscaled⟩ := Prod.mk.inj (Option.some.inj (hframe.symm.trans hframe'))
    constructor
    · intro d hd
      obtain rfl := Option.some.inj (hc'.symm.trans hd)
      exact handleFrameMeta_argument_iff.mp (hlog.results _ (List.mem_of_getElem? hd))
    · intro d hd
      rw [← Option.some.inj (himage.symm.trans hd)]
      exact hscaled.symm
  · intro hkeeps k m hk
    obtain ⟨⟨argument, outcome, result⟩, image, hc, rfl, himage, hframe⟩ :=
      dispatched_argument h hk
    obtain ⟨hscript, hscale⟩ := hkeeps k (List.getElem?_eq_some_iff.mp hk).1
    have hresult := hlog.results _ (List.mem_of_getElem? hc)
    rw [handleFrameMeta_argument_iff.mpr (hscript _ hc)] at hresult
    have hargument : some argument = result := Except.ok.inj hresult
    subst hargument
    refine ⟨argument, outcome, image, hc, himage, ?_⟩
    rw [hscale image himage]
    exact hframe

end ScriptedSource

/-! ### Runs on images of one colour -/

/-- An image of one colour. To resize it is to round its size. -/
structure PlainImage where
  cols : Int
  rows : Int
  colour : Nat
  deriving DecidableEq

instance plainImageCvMat : CvMat PlainImage where
  cols := PlainImage.cols
  rows := PlainImage.rows
  resize image ratio :=
    { image with
      cols := (image.cols * ratio + 1 / 2).floor
      rows := (image.rows * ratio + 1 / 2).floor }

def smallImage : PlainImage := ⟨4, 2, 255⟩

/-- The meta of an earlier frame, which the script may have kept. -/
def earlierMeta : MetaObject PlainImage := .frameMeta (vpFrameMeta smallImage 0 0 4 2 (-1))

/-- One frame is made of the image and handed to the subscribers. -/
def oneImageRun (image : PlainImage) (outcome : ScriptOutcome) : List (ScriptedAct PlainImage) :=
  [.src .start, .src .handle, .src (.openSource true)] ++ List.replicate 5 (.src .handle) ++
    [.read (some image), .src .handle, .process outcome, .src .handle] ++
    List.replicate 5 (.src (.node .dispatch))

/-- A source of channel 0, with one object made before. -/
def scriptedStart : ScriptedSource PlainImage Nat where
  src := SrcNode.start false []
  dataSource := ⟨0, 1, -1, -1, -1⟩
  heap := [earlierMeta]
  terminated := false
  images := []
  frames := []
  processed := []
  outHistory := []

theorem reachable_scriptedStart {C : ScriptedSource PlainImage Nat → ScriptedAct PlainImage → Prop}
    {resizeRatio : ℚ} (h : vpSrcNodeDataSource 0 resizeRatio = some ⟨0, 1, -1, -1, -1⟩) :
    (scriptedSource 0 resizeRatio).ReachableBy C scriptedStart :=
  .init ⟨false, [], _, _, h, rfl⟩

/-- At ratio 1, and with a script that returns `None`. -/
theorem as_asked_oneImage :
    ∃ s : ScriptedSource PlainImage Nat, s.src.node.pushedMetas = [1] ∧
      s.processed = [⟨1, .none, some 1⟩] ∧ s.images = [smallImage] ∧ s.AsAsked 1 := by
  have hinit : (scriptedSource 0 1).ReachableBy (fun _ a => a.NoPendingMeta) scriptedStart :=
    reachable_scriptedStart (by decide +kernel)
  obtain ⟨s, hr, hpushed, hprocessed, himages⟩ := hinit.exists_of_run
    (p := fun s => s.src.node.pushedMetas = [1] ∧ s.processed = [⟨1, .none, some 1⟩] ∧
      s.images = [smallImage])
    (oneImageRun smallImage .none) (by decide +kernel) (by decide +kernel)
  refine ⟨s, hpushed, hprocessed, himages, (ScriptedSource.as_asked_iff hr).mpr ?_⟩
  intro k hk
  rw [hpushed] at hk
  obtain rfl : k = 0 := Nat.lt_one_iff.mp hk
  constructor
  · intro c hc
    rw [hprocessed] at hc
    cases hc
    trivial
  · intro image _
    rfl

/-- A source that was asked to halve its images dispatches the image itself; and a source whose
script returned another frame meta dispatches the one that the script was given. -/
theorem not_as_asked :
    (∃ s : ScriptedSource PlainImage Nat,
      (scriptedSource 0 (1 / 2)).ReachableBy (fun _ a => a.NoPendingMeta) s ∧
        ¬ s.AsAsked (1 / 2)) ∧
    ∃ s : ScriptedSource PlainImage Nat,
      (scriptedSource 0 1).ReachableBy (fun _ a => a.NoPendingMeta) s ∧ ¬ s.AsAsked 1 := by
  constructor
  · have hinit : (scriptedSource 0 (1 / 2)).ReachableBy (fun _ a => a.NoPendingMeta)
        scriptedStart := reachable_scriptedStart (by decide +kernel)
    obtain ⟨s, hr, hpushed, himages, hframes⟩ := hinit.exists_of_run
      (p := fun s => s.src.node.pushedMetas = [1] ∧ s.images = [smallImage] ∧
        s.frames = [(1, smallImage)])
      (oneImageRun smallImage .none) (by decide +kernel) (by decide +kernel)
    refine ⟨s, hr, fun hasked => ?_⟩
    obtain ⟨argument, outcome, image, -, himage, hframe⟩ := hasked 0 1 (by rw [hpushed]; rfl)
    rw [himages] at himage
    rw [hframes] at hframe
    obtain rfl : smallImage = image := Option.some.inj himage
    have hscaled : smallImage = scaled (1 / 2) smallImage :=
      congrArg Prod.snd (Option.some.inj hframe)
    exact absurd hscaled (by decide +kernel)
  · have hinit : (scriptedSource 0 1).ReachableBy (fun _ a => a.NoPendingMeta)
        scriptedStart := reachable_scriptedStart (by decide +kernel)
    obtain ⟨s, hr, hpushed, hprocessed⟩ := hinit.exists_of_run
      (p := fun s => s.src.node.pushedMetas = [1] ∧
        s.processed = [⟨1, .frameMeta 0, some 0⟩])
      (oneImageRun smallImage (.frameMeta 0)) (by decide +kernel) (by decide +kernel)
    refine ⟨s, hr, fun hasked => ?_⟩
    obtain ⟨argument, outcome, image, hc, -, -⟩ := hasked 0 1 (by rw [hpushed]; rfl)
    rw [hprocessed] at hc
    cases hc

/-! ## The exceptions of the script -/

/-- The entry that the handle thread has pushed on `out_queue` and not signalled yet. -/
def SrcPc.unsignalled {M : Type} : SrcPc M → List (Option M)
  | .handleFrame m | .signal m => [some m]
  | .deadSignal => [none]
  | _ => []

/-- Each entry is pushed, and signalled once before the next of them. -/
def signalledPushes (es : List (Option Nat)) : List OutEvent :=
  es.flatMap fun e => [.push e, .signal]

/-- The script does not return an object of another type in this step. -/
def ScriptedAct.NoObject {Image : Type} : ScriptedAct Image → Prop
  | .process .object => False
  | _ => True

instance ScriptedAct.decidableNoObject {Image : Type} :
    ∀ a : ScriptedAct Image, Decidable a.NoObject
  | .process .object => isFalse id
  | .process .error | .process .none | .process (.frameMeta _) | .src _ | .read _ | .heap _ =>
      isTrue trivial

/-- `process` returns, and not null, exactly when the result of the script can be cast. -/
theorem process_returns_iff {m : Nat} {outcome : ScriptOutcome} :
    (∃ result, PythonMethod.process m outcome = .ok (some result)) ↔ outcome ≠ .object := by
  cases outcome with
  | error | none => exact iff_of_true ⟨m, rfl⟩ (by simp)
  | frameMeta result => exact iff_of_true ⟨result, rfl⟩ (by simp)
  | object => exact iff_of_false (fun ⟨_, h⟩ => nomatch h) (fun h => h rfl)

theorem handleFrameMeta_eq_process (m : Nat) (outcome : ScriptOutcome) :
    SrcNode.handleFrameMeta m outcome = PythonMethod.process m outcome := by
  cases outcome <;> rfl

namespace SrcNode

variable {S : Type} {s s' : SrcNode Nat S}

/-- A step of the handle thread pushes an entry, if there is none to signal, or signals the one that
there is, or does neither. -/
theorem handleStep_outEvents (h : s.handleStep = some s') :
    (s.outEvents s' = [] ∧ s'.node.handle.unsignalled = s.node.handle.unsignalled) ∨
      (∃ e, s.outEvents s' = [.push e] ∧ s.node.handle.unsignalled = [] ∧
        s'.node.handle.unsignalled = [e]) ∨
      ∃ e, s.outEvents s' = [.signal] ∧ s.node.handle.unsignalled = [e] ∧
        s'.node.handle.unsignalled = [] := by
  cases handleStep_cases h with
  | isOpen hp _ | notOpen hp _ | enter hp _ | leave hp _ | stillOpen hp _ | closed hp _
  | knock hp _ | stillAlive hp _ | notAlive hp _ | getFrame hp | handleFrame m hp =>
      exact .inl ⟨by simp [outEvents], by rw [hp]; rfl⟩
  | push m hp => exact .inr (.inl ⟨some m, by simp [outEvents], by rw [hp]; rfl, rfl⟩)
  | deadPush hp => exact .inr (.inl ⟨none, by simp [outEvents], by rw [hp]; rfl, rfl⟩)
  | signal m hp => exact .inr (.inr ⟨some m, by simp [outEvents], by rw [hp]; rfl, rfl⟩)
  | deadSignal hp => exact .inr (.inr ⟨none, by simp [outEvents], by rw [hp]; rfl, rfl⟩)

/-- No other step touches the entry that waits for its signal. -/
theorem step_unsignalled {a : SrcAct Nat} (h : s.step a = some s') (ha : a ≠ .handle) :
    s'.node.handle.unsignalled = s.node.handle.unsignalled := by
  cases step_cases h with
  | handle _ _ => exact absurd rfl ha
  | opened hp | notOpened hp | readNone hp | read m hp =>
      rw [hp]
      rfl
  | node a node _ hn => rw [Node.step_handle hn]
  | speak m | control _ _ _ _ _ _ => rfl

end SrcNode

namespace ScriptedSource

variable {Image S : Type} [CvMat Image] {s s' : ScriptedSource Image S}
variable {channelIndex : Int} {resizeRatio : ℚ}

/-- Each entry that the handle thread pushed has been signalled once, and before the next push, but
for the one that it is at. -/
def Alternates (s : ScriptedSource Image S) : Prop :=
  ∃ es, s.outHistory = signalledPushes es ++ s.src.node.handle.unsignalled.map .push

/-- No exception has left `process`, its results are not null, and each push of the handle thread on
`out_queue` is followed by one signal of its semaphore. -/
structure ScriptReturns (s : ScriptedSource Image S) : Prop where
  running : s.terminated = false
  nonNull : ∀ c ∈ s.processed, c.result.isSome
  signals : s.Alternates

omit [CvMat Image] in
/-- A step of the handle thread continues the history. -/
theorem Alternates.handle {src : SrcNode Nat S} (hs : s.Alternates)
    (h : s.src.step .handle = some src)
    (hhistory : s'.outHistory = s.outHistory ++ s.src.outEvents src) (hsrc : s'.src = src) :
    s'.Alternates := by
  obtain ⟨es, hes⟩ := hs
  unfold Alternates
  rw [hhistory, hsrc, hes]
  rcases SrcNode.handleStep_outEvents h with ⟨hnone, hsame⟩ | ⟨e, hpush, hold, hnew⟩ |
    ⟨e, hsignal, hold, hnew⟩
  · exact ⟨es, by rw [hnone, hsame, List.append_nil]⟩
  · exact ⟨es, by rw [hpush, hold, hnew]; simp⟩
  · exact ⟨es ++ [e], by rw [hsignal, hold, hnew]; simp [signalledPushes]⟩

omit [CvMat Image] in
theorem Alternates.other {a : SrcAct Nat} {src : SrcNode Nat S} (hs : s.Alternates)
    (h : s.src.step a = some src) (ha : a ≠ .handle) (hhistory : s'.outHistory = s.outHistory)
    (hsrc : s'.src = src) : s'.Alternates := by
  obtain ⟨es, hes⟩ := hs
  exact ⟨es, by rw [hhistory, hsrc, SrcNode.step_unsignalled h ha, hes]⟩

theorem step_scriptReturns {a : ScriptedAct Image} (h : Step s a s') (ha : a.NoObject)
    (hs : s.ScriptReturns) : s'.ScriptReturns := by
  obtain ⟨hrunning, hnonNull, hsignals⟩ := hs
  cases h with
  | src a src _ hne hsrc => exact ⟨hrunning, hnonNull, hsignals.other hsrc hne rfl rfl⟩
  | handle src hplain hsrc => exact ⟨hrunning, hnonNull, hsignals.handle hsrc rfl rfl⟩
  | readNone src hsrc | read image src hsrc =>
      exact ⟨hrunning, hnonNull, hsignals.other hsrc (by simp) rfl rfl⟩
  | process m outcome result src hp hresult hsrc =>
      refine ⟨hrunning, ?_, hsignals.handle hsrc rfl rfl⟩
      intro c hc
      rcases List.mem_append.mp hc with hc | hc
      · exact hnonNull c hc
      · -- the step is taken, so the result could be cast
        have hcast : outcome ≠ .object := by
          rintro rfl
          cases hresult
        obtain ⟨value, hvalue⟩ := process_returns_iff (m := m).mpr hcast
        rw [handleFrameMeta_eq_process, hvalue] at hresult
        rw [List.mem_singleton.mp hc, ← Except.ok.inj hresult]
        rfl
  | escape m outcome msg _ herror =>
      -- only an object of another type makes `process` throw
      cases outcome with
      | object => exact absurd ha id
      | error | none | frameMeta result => cases herror
  | heap a heap _ => exact ⟨hrunning, hnonNull, hsignals⟩

theorem reachable_scriptReturns
    (h : (scriptedSource channelIndex resizeRatio).ReachableBy (fun _ a => a.NoObject) s) :
    s.ScriptReturns := by
  apply h.invariant
  · rintro s ⟨isOpened, subscribers, dataSource, heap, -, rfl⟩
    exact ⟨rfl, fun _ hc => (nomatch hc), [], rfl⟩
  · intro s s' a _ hs ha hstep
    exact step_scriptReturns (step_cases hstep).2 ha hs

/-- From the push of a frame on, nothing but the script keeps the handle thread from its signal. -/
structure Signals (s : ScriptedSource Image S) : Prop where
  pushes : ∀ m, s.src.node.handle = .push m →
    ∃ s', s.step (.src .handle) = some s' ∧ s'.src.node.handle = .handleFrame m ∧
      s'.src.node.outQueue = s.src.node.outQueue ++ [some m]
  returns : ∀ m outcome, s.src.node.handle = .handleFrame m → outcome ≠ .object →
    ∃ s', s.step (.process outcome) = some s' ∧ s'.src.node.handle = .signal m
  signals : ∀ m, s.src.node.handle = .signal m →
    ∃ s', s.step (.src .handle) = some s' ∧ s'.src.node.handle = .test ∧
      s'.src.node.outQueueSemaphore = s.src.node.outQueueSemaphore + 1

theorem signals_of_running (hs : s.terminated = false) : s.Signals := by
  refine ⟨fun m hp => ?_, fun m outcome hp hcast => ?_, fun m hp => ?_⟩
  · simp [step, hs, srcStep, hp, SrcNode.Plain, SrcPc.calls, SrcNode.step, SrcNode.handleStep]
  · obtain ⟨value, hvalue⟩ := process_returns_iff (m := m).mpr hcast
    rw [← handleFrameMeta_eq_process] at hvalue
    simp [step, hs, processStep, hp, hvalue, SrcNode.step, SrcNode.handleStep]
  · simp [step, hs, srcStep, hp, SrcNode.Plain, SrcPc.calls, SrcNode.step, SrcNode.handleStep]

/-- A script whose results can all be cast does not kill the source: `process` always returns a
frame meta, and the frame that was pushed before the call is signalled after it. -/
theorem script_returns_of_noObject
    (h : (scriptedSource channelIndex resizeRatio).ReachableBy (fun _ a => a.NoObject) s) :
    s.ScriptReturns ∧ s.Signals :=
  ⟨reachable_scriptReturns h, signals_of_running (reachable_scriptReturns h).running⟩

/-- Any other object ends the process: its exception leaves `handle_run`, and no thread is there to
signal the frame. -/
theorem object_escapes {m : Nat} (hs : s.terminated = false)
    (hp : s.src.node.handle = .handleFrame m) :
    s.step (.process .object) = some { s with terminated := true } ∧
      ∀ a, step { s with terminated := true } a = none := by
  constructor
  · simp [step, hs, processStep, hp, handleFrameMeta_eq_process, PythonMethod.process]
  · intro a
    rfl

end ScriptedSource

/-- The script raises an error, and the source is at its next iteration. -/
theorem script_returns_oneImage :
    ∃ s : ScriptedSource PlainImage Nat, s.processed = [⟨1, .error, some 1⟩] ∧
      s.outHistory = [.push (some 1), .signal] ∧ s.ScriptReturns ∧ s.Signals := by
  have hinit : (scriptedSource 0 1).ReachableBy (fun _ a => a.NoObject) scriptedStart :=
    reachable_scriptedStart (by decide +kernel)
  obtain ⟨s, hr, hprocessed, hhistory⟩ := hinit.exists_of_run
    (p := fun s => s.processed = [⟨1, .error, some 1⟩] ∧
      s.outHistory = [.push (some 1), .signal])
    (oneImageRun smallImage .error) (by decide +kernel) (by decide +kernel)
  exact ⟨s, hprocessed, hhistory, ScriptedSource.script_returns_of_noObject hr⟩

/-- The script returns a string. The frame it was given stays on `out_queue`, with no permit. -/
theorem script_escapes :
    ∃ s : ScriptedSource PlainImage Nat,
      (scriptedSource 0 1).Reachable s ∧ (s.terminated = true ∧
        s.outHistory = [.push (some 1)] ∧ s.src.node.outQueue = [some 1] ∧
          s.src.node.outQueueSemaphore = 0) := by
  have hinit : (scriptedSource 0 1).Reachable scriptedStart :=
    reachable_scriptedStart (by decide +kernel)
  exact hinit.exists_of_run ((oneImageRun smallImage .object).take 11) (by decide +kernel)

end VideoStream
