import VideoStream.Network.Delivery
import VideoStream.Network.Rest

/-!
# A pipeline comes to rest

The threads of a pipeline, without the data source and without new calls (`Internal`). Each of their
steps lowers a rank, as in a network by itself, so that they come to an end; and when none of them can
take a step and all nodes are alive, nothing is on its way.

* `frames_delivered` — between two frames of the data source an acyclic pipeline takes only so many
  steps, and then every frame has arrived, as far as whole batches allow.
-/

namespace VideoStream

open Library Meta

variable {N M : Type}

/-- The steps of the threads that are under way. The data source and the callers of the source's
interface are the environment. -/
def PipeAct.Internal : PipeAct N M → Prop
  | .src .handle | .src .closer | .speaker => True
  | .src (.node a) => a = .dispatch ∨ a = .deinit
  | .net a => a.InProgress ∧ a.isCall = false
  | _ => False

/-! ## Ranks -/

/-- With `E` for what an entry of `out_queue` sets off. In `openSource` and `reading` the handle thread
waits for the data source. -/
def SrcPc.rank (E : ℕ) : SrcPc M → ℕ
  | .exited | .openSource | .reading => 0
  | .getFrame => 1
  | .deadSignal => 8
  | .deadPush => E + 9
  | .testAlive => E + 10
  | .knock => E + 11
  | .testOpen => E + 12
  | .test => E + 13
  | .isOpen => E + 14
  | .signal _ => E + 21
  | .handleFrame _ => E + 22
  | .push _ => E + 23 + E

def SrcDeinitPc.rank (E : ℕ) : SrcDeinitPc → ℕ
  | .idle => 0
  | .openGate => E + 22
  | .closeSource => E + 23

namespace SrcNode

open Node

variable {C : N → ℕ} {s s' : SrcNode M N}

/-- The rank of a source whose subscribers have the costs `C`. -/
def rank (C : N → ℕ) (s : SrcNode M N) : ℕ :=
  let E := (s.node.subscribers.map C).sum
  s.node.handle.rank E + s.node.outRank C + s.node.deinit.rank E + s.closer.rank E

theorem handleStep_rank (h : s.handleStep = some s') : s'.rank C < s.rank C := by
  unfold rank outRank
  cases handleStep_cases h with
  | isOpen hp _ | notOpen hp _ | enter hp _ | leave hp _ | stillOpen hp _ | closed hp _ | knock hp _
  | stillAlive hp _ | notAlive hp _ | getFrame hp | handleFrame m hp | signal m hp
  | deadSignal hp =>
      simp only [waiting, hp, SrcPc.rank]
      omega
  | push m hp =>
      have hout := mul_length_push (s.node.subscribers.map C).sum s.node.outQueue (some m)
        s.node.dispatch.given.isSome
      simp only [waiting, hp, SrcPc.rank]
      omega
  | deadPush hp =>
      have hout := mul_length_push (s.node.subscribers.map C).sum s.node.outQueue none
        s.node.dispatch.given.isSome
      simp only [waiting, hp, SrcPc.rank]
      omega

theorem closerStep_rank (h : s.closerStep = some s') : s'.rank C < s.rank C := by
  unfold rank outRank
  rcases closerStep_cases h with ⟨hp, rfl⟩ | ⟨hp, rfl⟩
  · simp only [hp, SrcDeinitPc.rank, waiting]
    omega
  · simp only [hp, SrcDeinitPc.rank, DeinitPc.rank, waiting]
    omega

theorem deinitStep_rank {node : Node (SrcPc M) M N} (h : s.node.deinitStep = some node) :
    rank C { s with node := node } < s.rank C := by
  unfold rank outRank
  cases deinitStep_cases h with
  | alive hp | push hp | signal hp | joinHandle hp _ | joinDispatch hp _ =>
      simp only [hp, DeinitPc.rank, waiting]
      omega

theorem dispatchStep_rank {node : Node (SrcPc M) M N} (h : s.node.dispatchStep = some node)
    (hne : ∀ m k rest ph, s.node.dispatch ≠ .publish m (k :: rest) ph)
    (hhead : ∀ m, s.node.dispatch.current = some m → s.node.outQueue.head? = some (some m)) :
    rank C { s with node := node } < s.rank C := by
  have hout := dispatchStep_outRank (C := C) h hne hhead
  unfold rank
  cases dispatchStep_cases h <;>
    exact Nat.add_lt_add_right (Nat.add_lt_add_right (Nat.add_lt_add_left hout _) _) _

/-- Inside `push_meta` only the position of the dispatch thread counts. -/
theorem publishNext_rank {m : M} {k : N} {rest : List N} {ph : FlowPc}
    (hp : s.node.dispatch = .publish m (k :: rest) ph) :
    rank C { s with node.dispatch := publishNext m (k :: rest) ph } +
        (DispatchPc.publish m (k :: rest) ph).rank C =
      s.rank C + (publishNext m (k :: rest) ph).rank C := by
  have hgiven : (publishNext m (k :: rest) ph).given = s.node.dispatch.given := by
    rw [hp]
    cases ph <;> rfl
  unfold rank outRank
  simp only [waiting, hgiven]
  rw [hp]
  omega

end SrcNode

/-! ## What a source at rest holds -/

/-- With no call of `pending_meta` under way, a shared thread only pops from `out_queue`. -/
theorem Node.step_outQueue {H S : Type} [HandleThread H] {node node' : Node H M S} {a : NodeAct M}
    (h : node.step a = some node') (hp : node.NoPendingCall) :
    node'.outQueue <:+ node.outQueue := by
  cases a with
  | dispatch =>
      cases dispatchStep_cases h with
      | pop m hp => exact List.tail_suffix _
      | _ => exact List.suffix_rfl
  | metaFlow m => cases m <;> (cases h; exact List.suffix_rfl)
  | pendingMeta m =>
      cases h
      exact List.suffix_rfl
  | call i =>
      obtain ⟨c, hc, rfl⟩ := callStep_cases h
      rcases c with ⟨m, pc⟩ | ⟨m, pc⟩
      · cases pc <;> exact List.suffix_rfl
      · exact absurd (List.mem_of_getElem? hc) (hp m pc)
  | deinitialized =>
      obtain ⟨-, rfl⟩ := deinitialized_cases h
      exact List.suffix_rfl
  | deinit => cases deinitStep_cases h <;> exact List.suffix_rfl

namespace SrcNode

open Node

variable {S : Type} {s s' : SrcNode M S}

theorem reachable_exited (h : vpSrcNode.Reachable s) :
    s.node.dispatch = .exited → s.node.alive = false := by
  apply h.invariant (I := fun s => s.node.dispatch = .exited → s.node.alive = false)
  · rintro _ ⟨isOpened, subscribers, rfl⟩ hx
    cases hx
  · intro s s' a _ hs _ hstep hx
    by_cases hd : a = .node .dispatch
    · subst hd
      obtain ⟨node, hn, rfl⟩ := Option.map_eq_some_iff.mp hstep
      have hn : s.node.dispatchStep = some node := hn
      cases dispatchStep_cases hn with
      | leave hp ha => exact ha
      | publish m rest ph hp => exact absurd hx (publishNext_ne_exited m rest ph)
      | _ => cases hx
    · have hdead := hs ((step_sameGiven hstep hd).dispatch ▸ hx)
      by_contra ha
      rw [alive_of_step hstep (by simpa using ha)] at hdead
      cases hdead

/-- Until the dead flag there is no null on `out_queue`. -/
theorem reachable_noNull (h : vpSrcNode.ReachableBy (fun _ a => a.NoPendingMeta) s) :
    s.node.handle = .deadSignal ∨ s.node.handle = .exited ∨ none ∉ s.node.outQueue := by
  apply h.invariant (I := fun s =>
    s.node.handle = .deadSignal ∨ s.node.handle = .exited ∨ none ∉ s.node.outQueue)
  · rintro _ ⟨isOpened, subscribers, rfl⟩
    exact .inr (.inr (List.not_mem_nil))
  · intro s s' a hr hs ha hstep
    cases step_cases hstep with
    | handle _ hh =>
        cases handleStep_cases hh with
        | deadPush hp => exact .inl rfl
        | deadSignal hp => exact .inr (.inl rfl)
        | push m hp =>
            rw [hp] at hs
            refine .inr (.inr ?_)
            simpa using hs
        | _ => simp_all
    | opened hp | readNone hp | read m hp =>
        rw [hp] at hs
        refine .inr (.inr ?_)
        simpa using hs
    | notOpened hp => exact .inr (.inl rfl)
    | node a node hne hn =>
        rw [← step_handle hn] at hs
        have hsuffix := step_outQueue hn (reachable_noPendingCall hr)
        exact hs.imp id (Or.imp id fun hnone hmem => hnone (hsuffix.subset hmem))
    | speak m | control _ _ _ _ _ _ => exact hs

/-- Nothing is pushed behind a null: the only one is the dead flag, and the handle thread pushes
nothing after it. -/
theorem notBehindNull (h : vpSrcNode.ReachableBy (fun _ a => a.NoPendingMeta) s) (a : SrcAct M) :
    NotBehindNull s.node.outQueue (s.pushes a) := by
  intro m hm
  unfold pushes at hm
  split at hm
  · cases hp : s.node.handle with
    | push m' =>
        have hnone := reachable_noNull h
        rw [hp] at hnone
        simpa using hnone
    | _ => simp [hp] at hm
  · next a =>
      unfold Node.pushes at hm
      split at hm
      · next i =>
          cases hc : s.node.calls[i]? with
          | none => simp [hc] at hm
          | some c =>
              rcases c with ⟨m', pc⟩ | ⟨m', pc⟩
              · simp [hc] at hm
              · exact absurd (List.mem_of_getElem? hc) (reachable_noPendingCall h m' pc)
      · cases hm
  · cases hm

/-- Where the handle thread is blocked, it waits for the gate or for the data source, or has returned:
it has no frame in hand and owes no signal. -/
theorem blocked_handle (h : s.handleStep = none) :
    s.node.handle.unpushed = none ∧ s.node.handle.owes = 0 := by
  unfold handleStep at h
  cases hp : s.node.handle with
  | push m | handleFrame m | signal m | deadSignal => simp [hp] at h
  | _ => exact ⟨rfl, rfl⟩

/-- A live source whose threads are blocked has given all its frames to `push_meta`. -/
theorem at_rest (h : vpSrcNode.ReachableBy (fun _ a => a.NoPendingMeta) s)
    (halive : s.node.alive = true) (hcalls : s.node.calls = []) (hhandle : s.handleStep = none)
    (hdispatch : s.node.dispatchStep = none) :
    s.node.handle.unpushed = none ∧ s.node.outQueue.reduceOption = [] ∧ s.node.dispatch = .wait := by
  obtain ⟨hunpushed, howes⟩ := blocked_handle hhandle
  obtain ⟨hwait, hsem⟩ : s.node.dispatch = .wait ∧ s.node.outQueueSemaphore = 0 := by
    by_contra hne
    refine dispatchStep_enabled (fun hw => Nat.pos_of_ne_zero fun h0 => hne ⟨hw, h0⟩) (fun hx => ?_)
      (reachable_permitInv h.reachable).noThrow hdispatch
    have hdead := reachable_exited h.reachable hx
    rw [halive] at hdead
    cases hdead
  -- the metas on `out_queue` are covered by permits, and there is none
  have hrun : vpSrcNode.ReachableBy
      (fun s a => s.node.alive = true → NotBehindNull s.node.outQueue (s.pushes a)) s :=
    h.strengthen fun s hs a _ => notBehindNull hs a
  obtain ⟨ms, ⟨n, hq⟩, hlen⟩ := reachable_covered hrun halive
  rw [hsem, hwait, hcalls, howes] at hlen
  obtain rfl : ms = [] := List.eq_nil_of_length_eq_zero (Nat.le_zero.mp hlen)
  refine ⟨hunpushed, ?_, hwait⟩
  rw [hq]
  simp [List.reduceOption]

end SrcNode

/-! ## There are no calls from outside -/

theorem Node.step_calls {H S : Type} [HandleThread H] {node node' : Node H M S} {a : NodeAct M}
    (h : node.step a = some node') (ha : a.isCall = false) : node'.calls = node.calls := by
  cases a with
  | dispatch => cases dispatchStep_cases h <;> rfl
  | metaFlow m =>
      cases m with
      | none => cases h; rfl
      | some m => cases ha
  | pendingMeta m => cases ha
  | call i => cases ha
  | deinitialized =>
      obtain ⟨-, rfl⟩ := deinitialized_cases h
      rfl
  | deinit => cases deinitStep_cases h <;> rfl

namespace Network

variable [DecidableEq N] {s s' : Network N M}

theorem calls_setNode {n : N} {node : VpNode M N} (hs : ∀ k, (s.nodes k).calls = [])
    (hn : node.calls = (s.nodes n).calls) : ∀ k, ((s.setNode n node).nodes k).calls = [] :=
  forall_setNode (P := fun _ node => node.calls = []) hs (hn.trans (hs n))

theorem step_calls [Meta M] {cfg : N → NodeConfig M} {subscribers : N → List N} {a : NetAct N M}
    (h : (network cfg subscribers).step s a = some s') (ha : a.isCall = false)
    (hs : ∀ n, (s.nodes n).calls = []) : ∀ n, (s'.nodes n).calls = [] := by
  cases step_cases h with
  | handle n node hn => exact calls_setNode hs (VpNode.handleStep_calls hn)
  | flow n k m rest ph s₁ _ hs₁ =>
      have hs₁calls : ∀ n, (s₁.nodes n).calls = [] := by
        rw [hs₁]
        exact calls_setNode hs rfl
      exact calls_setNode hs₁calls (by cases ph <;> rfl)
  | dispatch n node hn _ => exact calls_setNode hs (Node.step_calls (a := .dispatch) hn rfl)
  | node n a node _ hn => exact calls_setNode hs (Node.step_calls hn ha)

end Network

namespace Pipeline

variable [DecidableEq N] [Meta M] {cfg : N → NodeConfig M} {below : List N}
  {subscribers : N → List N} {s s' : Pipeline N M}

/-- Neither the source nor a node below is called by other threads than those that publish. -/
theorem reachable_calls (h : (pipeline cfg below subscribers).ReachableBy (fun _ a => a.Env) s) :
    s.src.node.calls = [] ∧ ∀ n, (s.net.nodes n).calls = [] := by
  apply h.invariant
    (I := fun s : Pipeline N M => s.src.node.calls = [] ∧ ∀ n, (s.net.nodes n).calls = [])
  · rintro _ ⟨isOpened, rfl⟩
    exact ⟨rfl, fun _ => rfl⟩
  · rintro s s' a - ⟨hsrc, hnet⟩ ha hstep
    have hbody (k : N) (m : M) (ph : FlowPc) :
        ∀ n, ((s.net.setNode k ((s.net.nodes k).metaFlowBody m ph)).nodes n).calls = [] :=
      Network.calls_setNode hnet (by cases ph <;> rfl)
    cases step_cases hstep with
    | src a src hd _ hstep' =>
        refine ⟨?_, hnet⟩
        show src.node.calls = []
        cases SrcNode.step_cases hstep' with
        | handle _ hh => cases SrcNode.handleStep_cases hh <;> exact hsrc
        | node a node _ hn => rw [Node.step_calls hn ha, hsrc]
        | _ => exact hsrc
    | dispatch node hn _ _ =>
        refine ⟨?_, hnet⟩
        cases Node.dispatchStep_cases hn <;> exact hsrc
    | flow k m rest ph s₁ _ hs₁ =>
        rw [hs₁]
        exact ⟨hsrc, hbody k m ph⟩
    | speak m _ _ | speakEnd m ph _ => exact ⟨hsrc, hnet⟩
    | speakFlow k m rest ph s₁ _ hs₁ =>
        rw [hs₁]
        exact ⟨hsrc, hbody k m ph⟩
    | net a net hstep' =>
        have hstep' : (network cfg subscribers).step s.net a = some net := hstep'
        exact ⟨hsrc, Network.step_calls hstep' ha hnet⟩

/-! ## The steps lower the rank -/

section Rank

variable [Fintype N] {C : N → ℕ}

def rank (C : N → ℕ) (s : Pipeline N M) : ℕ :=
  s.src.rank C + s.speaker.pc.rank C + s.net.rank C

omit [Meta M] in
/-- The thread that publishes leaves its position with what the call of `meta_flow` costs. -/
theorem flow_rank (hC : ∀ n, C n = 19 + ((subscribers n).map C).sum)
    (hwired : ∀ n, (s.net.nodes n).Wired (subscribers n)) {src : SrcNode M N} {speaker : SpeakPc M N}
    {k : N} {m : M} (rest : List N) {ph : FlowPc}
    (hleave : src.rank C + speaker.pc.rank C + (DispatchPc.publish m (k :: rest) ph).rank C =
      s.src.rank C + s.speaker.pc.rank C + (Node.publishNext m (k :: rest) ph).rank C) :
    (flow ⟨src, speaker, s.net⟩ k m ph).rank C < s.rank C := by
  have hpc := DispatchPc.rank_publishNext (hC k) m rest ph
  have hbody := VpNode.callBody_rank (C := C) (s.net.nodes k) (.metaFlow m ph)
  rw [(hwired k).wired] at hbody
  have hk := Network.rank_setNode C s.net k ((s.net.nodes k).metaFlowBody m ph)
  have hsame : (s.net.nodes k).callBody (.metaFlow m ph) = (s.net.nodes k).metaFlowBody m ph := rfl
  rw [hsame] at hbody
  show src.rank C + speaker.pc.rank C +
    (s.net.setNode k ((s.net.nodes k).metaFlowBody m ph)).rank C < _
  unfold rank
  omega

theorem step_rank (hC : ∀ n, C n = 19 + ((subscribers n).map C).sum)
    (hr : (pipeline cfg below subscribers).ReachableBy (fun _ a => a.Env) s) {a : PipeAct N M}
    (ha : a.Internal) (h : (pipeline cfg below subscribers).step s a = some s') :
    s'.rank C < s.rank C := by
  obtain ⟨calls, injections, -, -, hnet⟩ := reachable_below hr
  have hwired : ∀ n, (s.net.nodes n).Wired (subscribers n) := (reachable_below hr).wired
  have hhead := (SrcNode.reachable_permitInv (reachable_src hr).reachable).head
  have hnethead : ∀ n m, (s.net.nodes n).dispatch.current = some m →
      (s.net.nodes n).outQueue.head? = some (some m) := fun n m hm =>
    Network.reachable_head hnet.reachable n m hm
  cases step_cases h with
  | src a src hd _ hsrc =>
      refine Nat.add_lt_add_right (Nat.add_lt_add_right ?_ _) _
      show src.rank C < s.src.rank C
      cases a with
      | handle => exact SrcNode.handleStep_rank hsrc
      | closer => exact SrcNode.closerStep_rank hsrc
      | node a =>
          obtain ⟨-, node, hn, rfl⟩ := SrcNode.nodeStep_cases hsrc
          rcases ha with rfl | rfl
          · exact absurd rfl hd
          · exact SrcNode.deinitStep_rank hn
      | _ => exact ha.elim
  | dispatch node hn hne _ =>
      exact Nat.add_lt_add_right (Nat.add_lt_add_right (SrcNode.dispatchStep_rank hn hne hhead) _) _
  | flow k m rest ph s₁ hp hs₁ =>
      rw [hs₁]
      refine flow_rank hC hwired rest ?_
      have hleave := SrcNode.publishNext_rank (C := C) hp
      dsimp only at hleave ⊢
      omega
  | speak m _ _ => exact ha.elim
  | speakEnd m ph hp =>
      refine Nat.add_lt_add_right (Nat.add_lt_add_left ?_ _) _
      show _ < s.speaker.pc.rank C
      rw [hp]
      cases ph <;> simp [SpeakPc.pc, DispatchPc.rank]
  | speakFlow k m rest ph s₁ hp hs₁ =>
      rw [hs₁]
      refine flow_rank hC hwired rest ?_
      rw [SpeakPc.pc_publishNext, hp]
      show _ + _ + (SpeakPc.publish m (k :: rest) ph).pc.rank C = _
      omega
  | net a net hn =>
      refine Nat.add_lt_add_left ?_ _
      exact Network.step_rank hC hwired hnethead ha.1 hn

end Rank

/-! ## At rest -/

/-- When no thread of a live pipeline can take a step, nothing is on its way. -/
theorem at_rest [Fintype N]
    (h : (pipeline cfg below subscribers).ReachableBy (fun _ a => a.Env) s)
    (hsrc : s.src.node.alive = true) (hnet : ∀ n, (s.net.nodes n).alive = true)
    (hstuck : (pipeline cfg below subscribers).Stuck PipeAct.Internal s) : s.AtRest := by
  obtain ⟨hcalls, hncalls⟩ := reachable_calls h
  have hidle : s.speaker = .idle := by
    have hspeaker : s.speakerStep = none := hstuck .speaker trivial
    unfold speakerStep at hspeaker
    split at hspeaker
    · next hp => exact hp
    · cases hspeaker
    · cases hspeaker
  have hhandle : s.src.handleStep = none := Option.map_eq_none_iff.mp (hstuck (.src .handle) trivial)
  have hdispatch : s.src.node.dispatchStep = none := by
    have hnone : s.dispatchStep = none := hstuck (.src (.node .dispatch)) (.inl rfl)
    unfold dispatchStep at hnone
    split at hnone
    · rw [hidle] at hnone
      exact Option.map_eq_none_iff.mp hnone
    · exact Option.map_eq_none_iff.mp hnone
    · exact Option.map_eq_none_iff.mp hnone
  obtain ⟨hunpushed, hout, hwait⟩ := SrcNode.at_rest ((reachable_src h).mono fun _ _ hc => hc.1) hsrc
    hcalls hhandle hdispatch
  refine ⟨?_, hunpushed, hout, .inr hwait, hidle⟩
  -- the network is in a state that it reaches by itself, with no calls from outside
  obtain ⟨calls, injections, hsum, -, hr⟩ := reachable_below h
  have hnodes : s.net.withCalls calls injections = ⟨s.net.nodes, injections⟩ := by
    refine congrArg (Network.mk · injections) (funext fun n => ?_)
    have hnil : calls n = [] := by
      refine (Multiset.coe_eq_zero _).mp ?_
      rw [hsum n, flowing, hwait, hidle]
      rfl
    rw [hnil, ← hncalls n]
    rfl
  rw [hnodes] at hr
  have hquiet := Network.quiescent_of_stuck hr hnet fun a ha => ?_
  · exact ⟨hquiet.inQueue, hquiet.outQueue, hquiet.handle, hquiet.dispatch, hquiet.calls⟩
  · have hown (b : NetAct N M) (hb : b.InProgress) (hcall : b.isCall = false) :
        s.net.step cfg b = none := Option.map_eq_none_iff.mp (hstuck (.net b) ⟨hb, hcall⟩)
    rcases a with n | ⟨n, a⟩
    · exact Option.map_eq_none_iff.mpr (Option.map_eq_none_iff.mp (hown (.handle n) ha rfl))
    · cases a with
      | dispatch =>
          exact Option.map_eq_none_iff.mpr (Option.map_eq_none_iff.mp (hown (.node n .dispatch) ha rfl))
      | deinit =>
          exact Option.map_eq_none_iff.mpr (Option.map_eq_none_iff.mp (hown (.node n .deinit) ha rfl))
      | call i =>
          refine Option.map_eq_none_iff.mpr ?_
          show (s.net.nodes n).callStep i = none
          rw [Node.callStep, hncalls n]
          rfl
      | metaFlow m | pendingMeta m | deinitialized => exact ha.elim

/-- The threads produce no frame: those come from the data source. -/
theorem step_producedMetas {a : PipeAct N M} (ha : a.Internal)
    (h : (pipeline cfg below subscribers).step s a = some s') :
    producedMetas s'.src.node.trace = producedMetas s.src.node.trace := by
  cases step_cases h with
  | src a src _ _ hsrc =>
      show producedMetas src.node.trace = _
      cases SrcNode.step_cases hsrc with
      | handle _ hh => cases SrcNode.handleStep_cases hh <;> simp [Event.produced?]
      | node a node _ hn => exact Node.step_producedMetas hn
      | control _ _ _ _ _ _ => rfl
      | _ => exact ha.elim
  | dispatch node hn _ _ => exact Node.step_producedMetas (a := .dispatch) hn
  | flow k m rest ph s₁ _ hs₁ | speakFlow k m rest ph s₁ _ hs₁ =>
      rw [hs₁]
      rfl
  | speak m _ _ => exact ha.elim
  | speakEnd m ph _ | net a net _ => rfl

omit [DecidableEq N] in
/-- Among the steps of the threads there is no call from outside. -/
theorem env_of_internal : ∀ {a : PipeAct N M}, a.Internal → a.Env
  | .src .handle, _ | .src .closer, _ | .speaker, _ => trivial
  | .src (.node _), ha => by rcases ha with rfl | rfl <;> rfl
  | .net _, ha => ha.2

theorem run_internal (h : (pipeline cfg below subscribers).ReachableBy (fun _ a => a.Env) s)
    {as : List (PipeAct N M)} (hP : ∀ a ∈ as, a.Internal)
    (hrun : (pipeline cfg below subscribers).run s as = some s') :
    (pipeline cfg below subscribers).ReachableBy (fun _ a => a.Env) s' ∧
      producedMetas s'.src.node.trace = producedMetas s.src.node.trace := by
  refine System.run_invariant
    (I := fun t => (pipeline cfg below subscribers).ReachableBy (fun _ a => a.Env) t ∧
      producedMetas t.src.node.trace = producedMetas s.src.node.trace)
    (fun t t' a ht ha hstep => ?_) ⟨h, rfl⟩ hP hrun
  obtain ⟨hr, hproduced⟩ := ht
  exact ⟨.step hr (env_of_internal ha) hstep, (step_producedMetas ha hstep).trans hproduced⟩

/-- An acyclic pipeline comes to rest, as an acyclic network does. -/
theorem run_bounded [Fintype N] (hacyclic : Acyclic subscribers)
    (h : (pipeline cfg below subscribers).ReachableBy (fun _ a => a.Env) s) :
    ∃ bound, ∀ as s', (∀ a ∈ as, PipeAct.Internal a) →
      (pipeline cfg below subscribers).run s as = some s' → as.length ≤ bound := by
  obtain ⟨C, hC⟩ := hacyclic.exists_cost 19
  refine ⟨s.rank C, fun as s' hP hrun => ?_⟩
  have hcount : as.countP (fun _ => true) + s'.rank C ≤ s.rank C :=
    System.countP_le_of_run
      (I := (pipeline cfg below subscribers).ReachableBy fun _ a => a.Env)
      (fun t t' a ht ha hstep =>
        ⟨.step ht (env_of_internal ha) hstep, step_rank hC ht ha hstep⟩) h hP hrun
  rw [List.countP_true] at hcount
  omega

end Pipeline

/-- Between two frames of the data source, in an acyclic pipeline of base nodes of any batch sizes: in
whatever order its threads take their steps, they take a bounded number of them only; and when none
of them can take another and all nodes are alive, every node that is reached through nodes with one
pre node each has received all that `Arrives` makes of the frames. -/
theorem frames_delivered [Fintype N] [DecidableEq N] [Meta M] {b : N → ℕ} {hb : ∀ n, 0 < b n}
    {below : List N} {subscribers : N → List N} {s : Pipeline N M} {r k : N} {zs : List M}
    (hacyclic : Acyclic subscribers)
    (h : (pipeline (fun n => .base (b n) (hb n)) below subscribers).ReachableBy
      (fun _ a => a.Env) s)
    (hr : ∀ n, r ∉ subscribers n)
    (hk : Arrives subscribers b (· ∈ below) r
      ((producedMetas s.src.node.trace).flatMap (List.replicate (below.count r))) k zs) :
    ∃ bound, ∀ as s', (∀ a ∈ as, PipeAct.Internal a) →
      (pipeline (fun n => .base (b n) (hb n)) below subscribers).run s as = some s' →
        as.length ≤ bound ∧
          (s'.src.node.alive = true → (∀ n, (s'.net.nodes n).alive = true) →
            (pipeline (fun n => .base (b n) (hb n)) below subscribers).Stuck PipeAct.Internal s' →
              frameMetas (inPushes (s'.net.nodes k).trace) = zs) := by
  obtain ⟨bound, hbound⟩ := Pipeline.run_bounded hacyclic h
  refine ⟨bound, fun as s' hP hrun => ⟨hbound as s' hP hrun, fun hsrc hnet hstuck => ?_⟩⟩
  obtain ⟨hs', hproduced⟩ := Pipeline.run_internal h hP hrun
  have hrest := Pipeline.at_rest hs' hsrc hnet hstuck
  rw [← hproduced] at hk
  exact (Pipeline.received_of_arrives hs' hr hk).2.2 hrest

/-- The threads of a source that has read three frames, and of two nodes below it, until all of them
are blocked. -/
def threeFramesPassOn (first second : N) : List (PipeAct N MetaPtr) :=
  List.replicate 5 (.src .handle) ++ List.replicate 31 (.src (.node .dispatch)) ++
    List.replicate 23 (.net (.handle first)) ++ List.replicate 27 (.net (.node first .dispatch)) ++
    List.replicate 21 (.net (.handle second)) ++ [.net (.node second .dispatch)]

theorem threeFramesPassOn_internal {first second : N} :
    ∀ a ∈ threeFramesPassOn first second, a.Internal := by
  intro a ha
  simp only [threeFramesPassOn, List.mem_append, List.mem_replicate, List.mem_singleton] at ha
  rcases ha with ((((⟨-, rfl⟩ | ⟨-, rfl⟩) | ⟨-, rfl⟩) | ⟨-, rfl⟩) | ⟨-, rfl⟩) | rfl
  · trivial
  · exact .inl rfl
  all_goals exact ⟨trivial, rfl⟩

/-- The threads of a pipeline with the given nodes, one step of each. -/
def PipeAct.threads (nodes : List N) : List (PipeAct N M) :=
  [.src .handle, .src .closer, .src (.node .dispatch), .src (.node .deinit), .speaker] ++
    nodes.flatMap fun n => [.net (.handle n), .net (.node n .dispatch), .net (.node n .deinit)]

theorem PipeAct.Internal.mem_threads {a : PipeAct N M} {nodes : List N} (ha : a.Internal)
    (hnodes : ∀ n, n ∈ nodes) : a ∈ threads nodes := by
  have hnet {n : N} {a : PipeAct N M}
      (h : a ∈ [.net (.handle n), .net (.node n .dispatch), .net (.node n .deinit)]) :
      a ∈ threads nodes := List.mem_append_right _ (List.mem_flatMap.mpr ⟨n, hnodes n, h⟩)
  rcases a with a | _ | ⟨n | ⟨n, a⟩⟩
  · cases a with
    | handle | closer => simp [threads]
    | node a => rcases ha with rfl | rfl <;> simp [threads]
    | _ => exact ha.elim
  · simp [threads]
  · exact hnet (n := n) (by simp)
  · cases a with
    | dispatch | deinit => exact hnet (n := n) (by simp)
    | call i => cases ha.2
    | metaFlow m | pendingMeta m | deinitialized => exact ha.1.elim

theorem frames_delivered_threeFrames :
    ∃ s s' : Pipeline (Fin 2) MetaPtr,
      producedMetas s.src.node.trace = [.frame 0, .frame 1, .frame 2] ∧
      inPushes (s.net.nodes 0).trace = [] ∧
      (pipeline (fun n => .base (doubleEdgeBatch n) (doubleEdgeBatch_pos n)) [0] doubleEdge).run s
        (threeFramesPassOn 0 1) = some s' ∧
      frameMetas (inPushes (s'.net.nodes 1).trace) = [.frame 0, .frame 0, .frame 1, .frame 1] := by
  have hinit : (pipeline (fun n => .base (doubleEdgeBatch n) (doubleEdgeBatch_pos n)) [0]
      doubleEdge).ReachableBy (fun _ a => a.Env)
      (⟨SrcNode.start true [0], .idle, fun n => VpNode.start (doubleEdge n), []⟩ :
        Pipeline (Fin 2) MetaPtr) := .init ⟨true, rfl⟩
  obtain ⟨s, hreach, ⟨hproduced, hnothing⟩, hrun⟩ := hinit.exists_of_run
    (p := fun s => (producedMetas s.src.node.trace = [.frame 0, .frame 1, .frame 2] ∧
        inPushes (s.net.nodes 0).trace = []) ∧
      ((pipeline (fun n => .base (doubleEdgeBatch n) (doubleEdgeBatch_pos n)) [0] doubleEdge).run s
        (threeFramesPassOn 0 1)).any (fun s' => s'.src.node.alive ∧
          (∀ n, (s'.net.nodes n).alive = true) ∧
          ∀ a ∈ PipeAct.threads [0, 1], (s'.step
            (fun n => .base (doubleEdgeBatch n) (doubleEdgeBatch_pos n)) a).isNone) = true)
    ([.src .start, .src .handle] ++ readFrame (.frame 0) ++ readFrame (.frame 1) ++
      readFrame (.frame 2)) (by decide +kernel) (by decide +kernel)
  obtain ⟨s', hs', hp⟩ := (Option.any_eq_true _ _).mp hrun
  obtain ⟨hsrc, hnet, hblocked⟩ := of_decide_eq_true hp
  have hk : Arrives doubleEdge doubleEdgeBatch (· ∈ [0]) 0
      ((producedMetas s.src.node.trace).flatMap (List.replicate (List.count 0 [0]))) 1 _ :=
    .along .root (by decide) (by decide)
  obtain ⟨bound, hbound⟩ := frames_delivered (Acyclic.of_lt (by decide)) hreach (by decide) hk
  have hall := (hbound _ s' threeFramesPassOn_internal hs').2 hsrc hnet fun a ha =>
    Option.isNone_iff_eq_none.mp (hblocked a (ha.mem_threads (by decide)))
  rw [hproduced] at hall
  exact ⟨s, s', hproduced, hnothing, hs', hall⟩

end VideoStream
