import VideoStream.Network.Callers

/-!
# A source and the network below it

A source node feeds a network of plain nodes. Its dispatch thread and the thread that calls `speak`
both go through its subscribers in `push_meta`, under one `subscribers_lock`: neither takes the lock
while the other is inside. What they do there are the steps of `meta_flow` of nodes of the network.

The network below is one of those of `Network`, with these two threads as its callers from outside
(`reachable_below`), so what was proved of a network by itself holds of it here. The source is one of
those of `VpSrcNode` (`reachable_src`).
-/

namespace VideoStream

open Library Meta

variable {N M : Type}

/-- Where the thread that calls `speak` stands; `publish m rest ph` is inside `push_meta`, in the
`meta_flow` of the first subscriber of `rest`. -/
inductive SpeakPc (M S : Type) where
  | idle
  | publish (m : M) (rest : List S) (ph : FlowPc)
  deriving DecidableEq

/-- A source node, the call of `speak` that holds its `subscribers_lock`, and the nodes below. -/
structure Pipeline (N M : Type) where
  src : SrcNode M N
  speaker : SpeakPc M N
  net : Network N M

inductive PipeAct (N M : Type) where
  | src (a : SrcAct M)
  | speaker
  | net (a : NetAct N M)
  deriving DecidableEq

/-- The dispatch thread holds `subscribers_lock`. -/
def DispatchPc.locks {S : Type} : DispatchPc M S → Bool
  | .publish .. => true
  | _ => false

/-- `speak` holds `subscribers_lock`. -/
def SpeakPc.locks {S : Type} : SpeakPc M S → Bool
  | .publish .. => true
  | .idle => false

theorem SpeakPc.eq_idle {S : Type} {pc : SpeakPc M S} (h : pc.locks = false) : pc = .idle := by
  cases pc with
  | idle => rfl
  | publish m rest ph => cases h

/-- `speak` inside `push_meta`, one step of `meta_flow` further. -/
def SpeakPc.publishNext {S : Type} (m : M) : List S → FlowPc → SpeakPc M S
  | [], _ => .idle
  | k :: rest, .push => .publish m (k :: rest) .hook
  | k :: rest, .hook => .publish m (k :: rest) .signal
  | _ :: rest, .signal => .publish m rest .push

/-- Inside `push_meta`, `speak` is where a dispatch thread would be. -/
def SpeakPc.pc {S : Type} : SpeakPc M S → DispatchPc M S
  | .idle => .test
  | .publish m rest ph => .publish m rest ph

@[simp] theorem SpeakPc.pc_publishNext {S : Type} (m : M) (k : S) (rest : List S) (ph : FlowPc) :
    (SpeakPc.publishNext m (k :: rest) ph).pc = Node.publishNext m (k :: rest) ph := by
  cases ph <;> rfl

namespace Pipeline

variable [DecidableEq N]

/-- A step of `meta_flow` of the node `k`. -/
def flow (s : Pipeline N M) (k : N) (m : M) (ph : FlowPc) : Pipeline N M :=
  { s with net := s.net.setNode k ((s.net.nodes k).metaFlowBody m ph) }

/-- The dispatch thread of the source. It enters `push_meta` while `speak` is not inside. -/
def dispatchStep (s : Pipeline N M) : Option (Pipeline N M) :=
  match s.src.node.dispatch with
  | .pushMeta _ =>
      if s.speaker.locks then none
      else s.src.node.dispatchStep.map fun node => { s with src.node := node }
  | .publish m (k :: _) ph =>
      s.src.node.dispatchStep.map fun node => { s with src.node := node }.flow k m ph
  | _ => s.src.node.dispatchStep.map fun node => { s with src.node := node }

/-- A call of `speak` enters `push_meta`. -/
def speakStep (s : Pipeline N M) (m : M) : Option (Pipeline N M) :=
  if s.src.node.dispatch.locks || s.speaker.locks then none
  else
    (s.src.step (.speak m)).map fun src =>
      { s with src := src, speaker := .publish m s.src.node.subscribers .push }

/-- `speak` goes on inside `push_meta`. -/
def speakerStep (s : Pipeline N M) : Option (Pipeline N M) :=
  match s.speaker with
  | .idle => none
  | .publish _ [] _ => some { s with speaker := .idle }
  | .publish m (k :: rest) ph =>
      some ({ s with speaker := SpeakPc.publishNext m (k :: rest) ph }.flow k m ph)

variable [Meta M]

def step (cfg : N → NodeConfig M) (s : Pipeline N M) : PipeAct N M → Option (Pipeline N M)
  | .src (.node .dispatch) => s.dispatchStep
  | .src (.speak m) => s.speakStep m
  | .src a => (s.src.step a).map fun src => { s with src := src }
  | .speaker => s.speakerStep
  | .net a => (s.net.step cfg a).map fun net => { s with net := net }

end Pipeline

/-- The source has the subscribers `below`, and the network the wiring `subscribers`. -/
def pipeline [DecidableEq N] [Meta M] (cfg : N → NodeConfig M) (below : List N)
    (subscribers : N → List N) : System (Pipeline N M) (PipeAct N M) where
  init s := ∃ isOpened, s =
    ⟨SrcNode.start isOpened below, .idle, fun n => VpNode.start (subscribers n), []⟩
  step := Pipeline.step cfg

/-! ## The environment -/

/-- `get_frame_meta` makes a frame meta and `speak` a control meta. Nothing but `push_meta` calls
`meta_flow`, and nothing `pending_meta`. -/
def PipeAct.Env [Meta M] : PipeAct N M → Prop
  | .src (.read (some m)) => FrameMeta m
  | .src (.speak m) => ControlMeta m
  | .src (.node a) => a.isCall = false
  | .net a => a.isCall = false
  | _ => True

instance PipeAct.decidableEnv [Meta M] : ∀ a : PipeAct N M, Decidable a.Env
  | .src (.read (some m)) => inferInstanceAs (Decidable (FrameMeta m))
  | .src (.speak m) => inferInstanceAs (Decidable (ControlMeta m))
  | .src (.node a) => inferInstanceAs (Decidable (a.isCall = false))
  | .net a => inferInstanceAs (Decidable (a.isCall = false))
  | .src .handle | .src (.openSource _) | .src (.read none) | .src .start | .src .stop
  | .src .deinitialized | .src .destructor | .src .closer | .speaker => isTrue trivial

/-! ## The transitions of a pipeline -/

namespace Pipeline

variable [DecidableEq N] [Meta M] {cfg : N → NodeConfig M} {s s' : Pipeline N M}

/-- The transitions of `step`. -/
inductive PipeStep (cfg : N → NodeConfig M) (s : Pipeline N M) :
    PipeAct N M → Pipeline N M → Prop
  | src (a : SrcAct M) (src : SrcNode M N) : a ≠ .node .dispatch → (∀ m, a ≠ .speak m) →
      s.src.step a = some src → PipeStep cfg s (.src a) { s with src := src }
  | dispatch (node : Node (SrcPc M) M N) : s.src.node.dispatchStep = some node →
      (∀ m k rest ph, s.src.node.dispatch ≠ .publish m (k :: rest) ph) →
      (∀ m, s.src.node.dispatch = .pushMeta m → s.speaker = .idle) →
      PipeStep cfg s (.src (.node .dispatch)) { s with src.node := node }
  | flow (k : N) (m : M) (rest : List N) (ph : FlowPc) (s₁ : Pipeline N M) :
      s.src.node.dispatch = .publish m (k :: rest) ph →
      s₁ = { s with src.node.dispatch := Node.publishNext m (k :: rest) ph } →
      PipeStep cfg s (.src (.node .dispatch)) (s₁.flow k m ph)
  | speak (m : M) : s.src.node.dispatch.locks = false → s.speaker = .idle →
      PipeStep cfg s (.src (.speak m))
        { s with
          src.node.trace := s.src.node.trace ++ [.speak m],
          speaker := .publish m s.src.node.subscribers .push }
  | speakEnd (m : M) (ph : FlowPc) : s.speaker = .publish m [] ph →
      PipeStep cfg s .speaker { s with speaker := .idle }
  | speakFlow (k : N) (m : M) (rest : List N) (ph : FlowPc) (s₁ : Pipeline N M) :
      s.speaker = .publish m (k :: rest) ph →
      s₁ = { s with speaker := SpeakPc.publishNext m (k :: rest) ph } →
      PipeStep cfg s .speaker (s₁.flow k m ph)
  | net (a : NetAct N M) (net : Network N M) : s.net.step cfg a = some net →
      PipeStep cfg s (.net a) { s with net := net }

theorem dispatchStep_cases (h : s.dispatchStep = some s') :
    PipeStep cfg s (.src (.node .dispatch)) s' := by
  unfold dispatchStep at h
  cases hp : s.src.node.dispatch with
  | pushMeta m =>
      simp only [hp] at h
      obtain ⟨hlock, h⟩ := Option.ite_none_left_eq_some.mp h
      obtain ⟨node, hn, rfl⟩ := Option.map_eq_some_iff.mp h
      refine .dispatch node hn (by simp [hp]) fun _ _ => SpeakPc.eq_idle (by simpa using hlock)
  | publish m rest ph =>
      cases rest with
      | nil =>
          simp only [hp] at h
          obtain ⟨node, hn, rfl⟩ := Option.map_eq_some_iff.mp h
          exact .dispatch node hn (by simp [hp]) (by simp [hp])
      | cons k rest =>
          simp only [hp] at h
          obtain ⟨node, hn, rfl⟩ := Option.map_eq_some_iff.mp h
          rw [Node.dispatchStep, hp] at hn
          cases hn
          exact .flow k m rest ph _ hp rfl
  | _ =>
      simp only [hp] at h
      obtain ⟨node, hn, rfl⟩ := Option.map_eq_some_iff.mp h
      exact .dispatch node hn (by simp [hp]) (by simp [hp])

theorem step_src {a : SrcAct M} (hd : a ≠ .node .dispatch) (hs : ∀ m, a ≠ .speak m) :
    s.step cfg (.src a) = (s.src.step a).map fun src => { s with src := src } := by
  rcases a with _ | _ | _ | a | _ | _ | m | _ | _ | _
  case speak => exact absurd rfl (hs m)
  case node =>
    cases a with
    | dispatch => exact absurd rfl hd
    | _ => rfl
  all_goals rfl

theorem step_cases {below : List N} {subscribers : N → List N} {a : PipeAct N M}
    (h : (pipeline cfg below subscribers).step s a = some s') : PipeStep cfg s a s' := by
  cases a with
  | src a =>
      by_cases hd : a = .node .dispatch
      · subst hd
        exact dispatchStep_cases h
      · by_cases hs : ∃ m, a = .speak m
        · obtain ⟨m, rfl⟩ := hs
          have h : s.speakStep m = some s' := h
          obtain ⟨hlock, h⟩ := Option.ite_none_left_eq_some.mp h
          obtain ⟨hdispatch, hspeaker⟩ := Bool.or_eq_false_iff.mp (Bool.eq_false_of_not_eq_true hlock)
          cases h
          exact .speak m hdispatch (SpeakPc.eq_idle hspeaker)
        · have hs : ∀ m, a ≠ .speak m := fun m he => hs ⟨m, he⟩
          have h : s.step cfg (.src a) = some s' := h
          rw [step_src hd hs] at h
          obtain ⟨src, hsrc, rfl⟩ := Option.map_eq_some_iff.mp h
          exact .src a src hd hs hsrc
  | speaker =>
      have h : s.speakerStep = some s' := h
      unfold speakerStep at h
      split at h
      · cases h
      · next m ph hp => cases h; exact .speakEnd m ph hp
      · next m k rest ph hp => cases h; exact .speakFlow k m rest ph _ hp rfl
  | net a =>
      obtain ⟨net, hn, rfl⟩ := Option.map_eq_some_iff.mp h
      exact .net a net hn

end Pipeline

/-! ## The source -/

/-- A meta that the data source returns is in `P`. -/
def SrcAct.Reads (P : M → Prop) : SrcAct M → Prop
  | .read (some m) => P m
  | _ => True

/-- The meta of a call of `push_meta`, by the dispatch thread or by `speak`. -/
def Event.published : Event M → Option M
  | .pushMeta m | .speak m => some m
  | _ => none

/-- What a source has published, in the order in which `subscribers_lock` was taken. -/
def published (t : List (Event M)) : List M := t.filterMap Event.published

@[simp] theorem published_concat (t : List (Event M)) (e : Event M) :
    published (t ++ [e]) = published t ++ e.published.toList := filterMap_concat ..

namespace Node

variable {H S : Type} {node node' : Node H M S}

/-- What a step of the dispatch thread publishes is what it gives to `push_meta`. -/
theorem dispatchStep_published (h : node.dispatchStep = some node') :
    ∃ ms, pushMetas node'.trace = pushMetas node.trace ++ ms ∧
      published node'.trace = published node.trace ++ ms := by
  cases dispatchStep_cases h with
  | pushMeta m hp => exact ⟨[m], by simp [Event.pushed], by simp [Event.published]⟩
  | leavingHook m hp => exact ⟨[], by simp [Event.pushed], by simp [Event.published]⟩
  | _ => exact ⟨[], (List.append_nil _).symm, (List.append_nil _).symm⟩

theorem step_published [HandleThread H] {a : NodeAct M} (h : node.step a = some node')
    (ha : a ≠ .dispatch) : published node'.trace = published node.trace := by
  rcases step_trace h with hsame | ⟨e, he, hone⟩
  · rw [hsame]
  · have hpush := (step_sameGiven h ha).pushMetas
    have hevent : e.published = e.pushed := by
      cases e <;> first | rfl | cases he
    rw [hone, pushMetas_concat] at hpush
    rw [hone, published_concat, hevent, List.append_right_eq_self.mp hpush, List.append_nil]

end Node

namespace SrcNode

variable {S : Type} {s s' : SrcNode M S} {P : M → Prop}

/-- The steps of a source outside `push_meta`. -/
theorem step_sameGiven {a : SrcAct M} (h : s.step a = some s') (hd : a ≠ .node .dispatch) :
    Node.SameGiven s.node s'.node := by
  cases step_cases h with
  | handle _ hh => exact handleStep_sameGiven hh
  | node a node _ hn => exact Node.step_sameGiven hn fun ha => hd (ha ▸ rfl)
  | read m _ | speak m => exact ⟨by simp [Event.pushed], rfl, rfl⟩
  | opened _ | notOpened _ | readNone _ | control _ _ _ _ _ _ => exact ⟨rfl, rfl, rfl⟩

theorem step_published {a : SrcAct M} (h : s.step a = some s') (hd : a ≠ .node .dispatch)
    (hs : ∀ m, a ≠ .speak m) : published s'.node.trace = published s.node.trace := by
  cases step_cases h with
  | handle _ hh => cases handleStep_cases hh <;> simp [Event.published]
  | node a node _ hn => exact Node.step_published hn fun ha => hd (ha ▸ rfl)
  | read m _ => simp [Event.published]
  | speak m => exact absurd rfl (hs m)
  | opened _ | notOpened _ | readNone _ | control _ _ _ _ _ _ => rfl

/-- What `get_frame_meta` returned came from the data source. -/
theorem reachable_producedMetas (h : vpSrcNode.ReachableBy (fun _ a => a.Reads P) s) :
    ∀ m ∈ producedMetas s.node.trace, P m := by
  apply h.invariant (I := fun s => ∀ m ∈ producedMetas s.node.trace, P m)
  · rintro _ ⟨isOpened, subscribers, rfl⟩ m hm
    cases hm
  · intro s s' a _ hs ha hstep
    have hsame (hx : producedMetas s'.node.trace = producedMetas s.node.trace) :
        ∀ m ∈ producedMetas s'.node.trace, P m := hx ▸ hs
    cases step_cases hstep with
    | handle _ hh => exact hsame (by cases handleStep_cases hh <;> simp [Event.produced?])
    | node a node _ hn => exact hsame (Node.step_producedMetas hn)
    | read m _ =>
        intro m' hm'
        simp only [producedMetas_concat, Event.produced?, Option.map_some, Option.toList_some] at hm'
        rcases List.mem_append.mp hm' with hm' | hm'
        · exact hs m' hm'
        · rw [List.mem_singleton.mp hm']
          exact ha
    | speak m => exact hsame (by simp [Event.produced?])
    | opened _ | notOpened _ | readNone _ | control _ _ _ _ _ _ => exact hs

end SrcNode

namespace Pipeline

variable [DecidableEq N] [Meta M] {cfg : N → NodeConfig M} {below : List N}
  {subscribers : N → List N} {s s' : Pipeline N M}

/-- The source runs as it would run by itself. -/
theorem reachable_src (h : (pipeline cfg below subscribers).ReachableBy (fun _ a => a.Env) s) :
    vpSrcNode.ReachableBy (fun _ a => a.NoPendingMeta ∧ a.Reads FrameMeta) s.src := by
  refine h.project Pipeline.src ?_ ?_
  · rintro _ ⟨isOpened, rfl⟩
    exact ⟨isOpened, below, rfl⟩
  · intro s s' a ha hstep
    cases step_cases hstep with
    | src a src hd hs hsrc =>
        refine .inr ⟨a, ?_, hsrc⟩
        rcases a with _ | _ | _ | a | _ | _ | _ | _ | _ | _
        case read r => cases r <;> exact ⟨trivial, ha⟩
        case node => cases a <;> first | exact ⟨trivial, trivial⟩ | cases ha
        all_goals exact ⟨trivial, trivial⟩
    | dispatch node hn _ _ =>
        refine .inr ⟨.node .dispatch, ⟨trivial, trivial⟩, ?_⟩
        show (s.src.node.dispatchStep).map _ = _
        rw [hn]
        rfl
    | flow k m rest ph s₁ hp hs₁ =>
        refine .inr ⟨.node .dispatch, ⟨trivial, trivial⟩, ?_⟩
        show (s.src.node.dispatchStep).map _ = _
        rw [Node.dispatchStep, hp, hs₁]
        rfl
    | speak m _ _ => exact .inr ⟨.speak m, ⟨trivial, trivial⟩, rfl⟩
    | speakEnd m ph _ => exact .inl rfl
    | speakFlow k m rest ph s₁ _ hs₁ =>
        rw [hs₁]
        exact .inl rfl
    | net a net _ => exact .inl rfl

/-! ## `subscribers_lock` -/

/-- The two threads that publish: what they go through, and that one of them is inside only. -/
structure Publishes (below : List N) (s : Pipeline N M) : Prop where
  wired : s.src.node.Wired below
  exclusive : s.src.node.dispatch.locks = true → s.speaker = .idle
  speaking : ∀ m rest ph, s.speaker = .publish m rest ph → rest <:+ below ∧ ControlMeta m

omit [DecidableEq N] [Meta M] in
/-- The dispatch thread is inside only if it was before, or enters. -/
theorem locks_of_dispatchStep {S : Type} {node node' : Node S M N}
    (h : node.dispatchStep = some node') (hl : node'.dispatch.locks = true) :
    (∃ m, node.dispatch = .pushMeta m) ∨ node.dispatch.locks = true := by
  cases Node.dispatchStep_cases h with
  | pushMeta m hp => exact .inl ⟨m, hp⟩
  | publish m rest ph hp =>
      rw [hp]
      exact .inr rfl
  | _ => cases hl

theorem reachable_publishes
    (h : (pipeline cfg below subscribers).ReachableBy (fun _ a => a.Env) s) :
    s.Publishes below := by
  apply h.invariant (I := Publishes below)
  · rintro _ ⟨isOpened, rfl⟩
    exact ⟨⟨rfl, by rintro _ _ _ ⟨⟩⟩, fun _ => rfl, by rintro _ _ _ ⟨⟩⟩
  · rintro s s' a - ⟨hwired, hexclusive, hspeaking⟩ ha hstep
    cases step_cases hstep with
    | src a src hd hs hsrc =>
        refine ⟨SrcNode.step_wired hsrc hwired, fun hl => ?_, hspeaking⟩
        rw [(SrcNode.step_sameGiven hsrc hd).dispatch] at hl
        exact hexclusive hl
    | dispatch node hn _ hpush =>
        refine ⟨Node.dispatchStep_wired hn hwired, fun hl => ?_, hspeaking⟩
        rcases locks_of_dispatchStep hn hl with ⟨m, hp⟩ | hl
        · exact hpush m hp
        · exact hexclusive hl
    | flow k m rest ph s₁ hp hs₁ =>
        have hn : s.src.node.dispatchStep =
            some { s.src.node with dispatch := Node.publishNext m (k :: rest) ph } := by
          rw [Node.dispatchStep, hp]
        rw [hs₁]
        refine ⟨Node.dispatchStep_wired hn hwired, fun _ => hexclusive ?_, hspeaking⟩
        rw [hp]
        rfl
    | speak m hdispatch hspeaker =>
        refine ⟨⟨hwired.wired, hwired.publishing⟩, fun hl => ?_, ?_⟩
        · have hl : s.src.node.dispatch.locks = true := hl
          rw [hdispatch] at hl
          cases hl
        · rintro m' rest ph ⟨⟩
          exact ⟨hwired.wired ▸ List.suffix_rfl, ha⟩
    | speakEnd m ph hp => exact ⟨hwired, fun _ => rfl, by rintro _ _ _ ⟨⟩⟩
    | speakFlow k m rest ph s₁ hp hs₁ =>
        obtain ⟨hsuffix, hcontrol⟩ := hspeaking m _ ph hp
        rw [hs₁]
        refine ⟨hwired, fun hl => ?_, fun m' rest' ph' hp' => ?_⟩
        · have hidle := hexclusive hl
          rw [hp] at hidle
          cases hidle
        · cases ph <;> cases hp'
          · exact ⟨hsuffix, hcontrol⟩
          · exact ⟨hsuffix, hcontrol⟩
          · exact ⟨(List.suffix_cons k _).trans hsuffix, hcontrol⟩
    | net a net _ => exact ⟨hwired, hexclusive, hspeaking⟩

/-! ## What the source publishes -/

/-- What the dispatch thread gives to `push_meta` are frames, of those that were produced. -/
theorem reachable_pushMetas
    (h : (pipeline cfg below subscribers).ReachableBy (fun _ a => a.Env) s) :
    pushMetas s.src.node.trace <+: producedMetas s.src.node.trace ∧
      ∀ m ∈ pushMetas s.src.node.trace, FrameMeta m := by
  have hsrc := reachable_src h
  have hloop := SrcNode.reachable_loopOrder (hsrc.mono fun _ _ hc => hc.1)
  have hpre : pushMetas s.src.node.trace <+: producedMetas s.src.node.trace := by
    refine (SrcNode.pushMetas_prefix_handledFrames (hsrc.mono fun _ _ hc => hc.1)).trans ?_
    rw [← hloop.handled]
    exact List.prefix_append _ _
  exact ⟨hpre, fun m hm =>
    SrcNode.reachable_producedMetas (hsrc.mono fun _ _ hc => hc.2) m (hpre.subset hm)⟩

/-- The frames among what is published are those that the dispatch thread gives to `push_meta`. -/
theorem frameMetas_published
    (h : (pipeline cfg below subscribers).ReachableBy (fun _ a => a.Env) s) :
    frameMetas (published s.src.node.trace) = pushMetas s.src.node.trace := by
  apply h.invariant (I := fun s => frameMetas (published s.src.node.trace) =
    pushMetas s.src.node.trace)
  · rintro _ ⟨isOpened, rfl⟩
    rfl
  · intro s s' a hr hs ha hstep
    have hframes := (reachable_pushMetas (.step hr ha hstep)).2
    cases step_cases hstep with
    | src a src hd hspeak hsrc =>
        show frameMetas (published src.node.trace) = pushMetas src.node.trace
        rw [SrcNode.step_published hsrc hd hspeak, (SrcNode.step_sameGiven hsrc hd).pushMetas]
        exact hs
    | dispatch node hn _ _ =>
        obtain ⟨ms, hpush, hpublished⟩ := Node.dispatchStep_published hn
        have hms : frameMetas ms = ms := by
          refine frameMetas_eq_self fun m hm => hframes m ?_
          show m ∈ pushMetas node.trace
          rw [hpush]
          exact List.mem_append_right _ hm
        show frameMetas (published node.trace) = pushMetas node.trace
        rw [hpush, hpublished, frameMetas_append, hs, hms]
    | flow k m rest ph s₁ hp hs₁ =>
        rw [hs₁]
        exact hs
    | speak m _ _ =>
        have hcontrol : ControlMeta m := ha
        have hframe : ¬ FrameMeta m := fun hf => hf.not_controlMeta hcontrol
        show frameMetas (published (s.src.node.trace ++ [.speak m])) =
          pushMetas (s.src.node.trace ++ [.speak m])
        rw [published_concat, pushMetas_concat, frameMetas_append, hs]
        simp [Event.published, Event.pushed, frameMetas, hframe]
    | speakEnd m ph _ => exact hs
    | speakFlow k m rest ph s₁ _ hs₁ =>
        rw [hs₁]
        exact hs
    | net a net _ => exact hs

/-! ## The network below -/

/-- The calls of `meta_flow` of the node `k` that the threads of the source are in the middle of. -/
def flowing (s : Pipeline N M) (k : N) : Multiset (Call M) :=
  s.src.node.dispatch.flowing k + s.speaker.pc.flowing k

/-- The network below runs as it would run by itself, with the threads of the source as callers from
outside. -/
theorem reachable_below (h : (pipeline cfg below subscribers).ReachableBy (fun _ a => a.Env) s) :
    s.net.RunsBelow (fun a => a.vpAct.Passes) cfg subscribers (· ∈ below) s.flowing := by
  have hcall (k : N) (i : ℕ) : (NetAct.node k (.call i) : NetAct N M).vpAct.Passes :=
    ⟨trivial, trivial⟩
  apply h.invariant (I := fun s : Pipeline N M =>
    s.net.RunsBelow (fun a => a.vpAct.Passes) cfg subscribers (· ∈ below) s.flowing)
  · rintro _ ⟨isOpened, rfl⟩
    exact ⟨fun _ => [], [], fun _ => rfl, List.forall_mem_nil _, .init rfl⟩
  · intro s s' a hr hs ha hstep
    have hpublishes := reachable_publishes hr
    -- the calls of the two threads stay as they are
    have hsame (src : SrcNode M N) (speaker : SpeakPc M N)
        (hflow : ∀ k, src.node.dispatch.flowing k + speaker.pc.flowing k = s.flowing k) :
        s.net.RunsBelow (fun a => a.vpAct.Passes) cfg subscribers (· ∈ below)
          (flowing ⟨src, speaker, s.net⟩) := by
      rwa [show flowing ⟨src, speaker, s.net⟩ = s.flowing from funext hflow]
    cases step_cases hstep with
    | src a src hd _ hsrc =>
        refine hsame src s.speaker fun k => ?_
        rw [(SrcNode.step_sameGiven hsrc hd).dispatch]
        rfl
    | dispatch node hn hne _ =>
        refine hsame { s.src with node := node } s.speaker fun k => ?_
        rw [Network.flowing_dispatchStep hn hne]
        rfl
    | flow k m rest ph s₁ hp hs₁ =>
        have hmem : m ∈ pushMetas s.src.node.trace := by
          refine List.mem_of_getLast? ((SrcNode.reachable_permitInv (reachable_src hr).reachable).given m ?_)
          rw [hp]
          rfl
        have hframe := (reachable_pushMetas hr).2 m hmem
        have hk : k ∈ below :=
          (hpublishes.wired.publishing m _ ph hp).subset List.mem_cons_self
        rw [hs₁]
        refine hs.flow (fun n => s.speaker.pc.flowing n) ⟨.inl hframe, trivial⟩ (hcall k) hk
          (fun n => ?_) (fun n => ?_)
        · rw [flowing, hp]
          rfl
        · show (Node.publishNext m (k :: rest) ph).flowing n + s.speaker.pc.flowing n = _
          rw [Network.flowing_publishNext]
    | speak m _ hidle =>
        refine hsame _ _ fun k => ?_
        rw [flowing, hidle]
        refine congrArg _ ?_
        show (DispatchPc.publish m s.src.node.subscribers .push).flowing k = 0
        cases s.src.node.subscribers with
        | nil => rfl
        | cons j rest => exact ite_self _
    | speakEnd m ph hp =>
        refine hsame s.src .idle fun k => ?_
        rw [flowing, hp]
        rfl
    | speakFlow k m rest ph s₁ hp hs₁ =>
        obtain ⟨hsuffix, hcontrol⟩ := hpublishes.speaking m _ ph hp
        have hk : k ∈ below := hsuffix.subset List.mem_cons_self
        rw [hs₁]
        refine hs.flow (fun n => s.src.node.dispatch.flowing n) ⟨.inr hcontrol, trivial⟩ (hcall k) hk
          (fun n => ?_) (fun n => ?_)
        · rw [flowing, hp, add_comm]
          rfl
        · show s.src.node.dispatch.flowing n +
            (SpeakPc.publishNext m (k :: rest) ph).pc.flowing n = _
          rw [SpeakPc.pc_publishNext, Network.flowing_publishNext, add_comm]
    | net a net hn =>
        refine hs.step hn ha ?_
        rcases a with n | ⟨n, _ | (_ | m) | _ | _ | _ | _⟩ <;>
          first | exact ⟨trivial, trivial⟩ | cases ha

end Pipeline

end VideoStream
