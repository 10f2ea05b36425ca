import Mathlib.Logic.Function.Basic
import VideoStream.Nodes.Sequential

/-!
# A network of nodes

Plain nodes, wired by their subscriber lists. A step of the network is a step of a thread of one
node, but the dispatch thread of a node that goes through its subscribers takes the steps of their
`meta_flow`: it pushes on the `in_queue` of another node, calls its hooker, and signals its
semaphore. The wiring does not change.

`injections` is the history of the calls of `meta_flow` from outside the network.
-/

namespace VideoStream

open Library

variable {N M : Type}

structure Network (N M : Type) where
  nodes : N → VpNode M N
  injections : List (N × M)

/-- The steps of a network: of the handle thread of a node, or of its other threads and its callers
from outside. -/
inductive NetAct (N M : Type) where
  | handle (n : N)
  | node (n : N) (a : NodeAct M)
  deriving DecidableEq

/-- The meta of a beginning call of `meta_flow`. -/
def NodeAct.injected : NodeAct M → Option M
  | .metaFlow m => m
  | _ => none

namespace Network

variable [DecidableEq N]

def setNode (s : Network N M) (n : N) (node : VpNode M N) : Network N M :=
  { s with nodes := Function.update s.nodes n node }

/-- The dispatch thread of `n`. Inside `push_meta` it runs `meta_flow` of the subscriber `k`. -/
def dispatchStep (s : Network N M) (n : N) : Option (Network N M) :=
  (s.nodes n).dispatchStep.map fun node =>
    let s' := s.setNode n node
    match (s.nodes n).dispatch with
    | .publish m (k :: _) ph => s'.setNode k ((s'.nodes k).metaFlowBody m ph)
    | _ => s'

variable [Meta M]

def step (cfg : N → NodeConfig M) (s : Network N M) : NetAct N M → Option (Network N M)
  | .handle n => ((s.nodes n).handleStep (cfg n)).map (s.setNode n)
  | .node n .dispatch => s.dispatchStep n
  | .node n a =>
      ((s.nodes n).step a).map fun node =>
        { s.setNode n node with
          injections := s.injections ++ a.injected.toList.map fun m => (n, m) }

end Network

/-- The network with the wiring `subscribers`. -/
def network [DecidableEq N] [Meta M] (cfg : N → NodeConfig M) (subscribers : N → List N) :
    System (Network N M) (NetAct N M) where
  init s := s = ⟨fun n => VpNode.start (subscribers n), []⟩
  step := Network.step cfg

namespace Network

variable [DecidableEq N] [Meta M] {cfg : N → NodeConfig M} {s s' : Network N M}

/-! ## The transitions of a network -/

/-- The transitions of `step`. -/
inductive NetStep (cfg : N → NodeConfig M) (s : Network N M) : NetAct N M → Network N M → Prop
  | handle (n : N) (node : VpNode M N) : (s.nodes n).handleStep (cfg n) = some node →
      NetStep cfg s (.handle n) (s.setNode n node)
  | flow (n k : N) (m : M) (rest : List N) (ph : FlowPc) (s₁ : Network N M) :
      (s.nodes n).dispatch = .publish m (k :: rest) ph →
      s₁ = s.setNode n { s.nodes n with dispatch := Node.publishNext m (k :: rest) ph } →
      NetStep cfg s (.node n .dispatch) (s₁.setNode k ((s₁.nodes k).metaFlowBody m ph))
  | dispatch (n : N) (node : VpNode M N) : (s.nodes n).dispatchStep = some node →
      (∀ m k rest ph, (s.nodes n).dispatch ≠ .publish m (k :: rest) ph) →
      NetStep cfg s (.node n .dispatch) (s.setNode n node)
  | node (n : N) (a : NodeAct M) (node : VpNode M N) : a ≠ .dispatch →
      (s.nodes n).step a = some node →
      NetStep cfg s (.node n a)
        { s.setNode n node with
          injections := s.injections ++ a.injected.toList.map fun m => (n, m) }

theorem dispatchStep_cases {n : N} (h : s.dispatchStep n = some s') :
    NetStep cfg s (.node n .dispatch) s' := by
  obtain ⟨node, hn, rfl⟩ := Option.map_eq_some_iff.mp h
  cases hp : (s.nodes n).dispatch with
  | publish m rest ph =>
      cases rest with
      | nil =>
          simp only
          exact .dispatch n node hn (by simp [hp])
      | cons k rest =>
          simp only
          cases Node.dispatchStep_cases hn with
          | publish m' rest' ph' hp' =>
              cases hp.symm.trans hp'
              exact .flow n k m rest ph _ hp rfl
          | _ => simp_all
  | _ =>
      simp only
      exact .dispatch n node hn (by simp [hp])

theorem step_node {n : N} {a : NodeAct M} (ha : a ≠ .dispatch) :
    s.step cfg (.node n a) = ((s.nodes n).step a).map fun node =>
      { s.setNode n node with
        injections := s.injections ++ a.injected.toList.map fun m => (n, m) } := by
  cases a <;> first | rfl | exact absurd rfl ha

theorem step_cases {subscribers : N → List N} {a : NetAct N M}
    (h : (network cfg subscribers).step s a = some s') : NetStep cfg s a s' := by
  cases a with
  | handle n =>
      obtain ⟨node, hn, rfl⟩ := Option.map_eq_some_iff.mp h
      exact .handle n node hn
  | node n a =>
      by_cases ha : a = .dispatch
      · subst ha
        exact dispatchStep_cases h
      · have h : s.step cfg (.node n a) = some s' := h
        rw [step_node ha] at h
        obtain ⟨node, hn, rfl⟩ := Option.map_eq_some_iff.mp h
        exact .node n a node ha hn

/-! ## Updates -/

omit [Meta M] in
@[simp] theorem setNode_self (s : Network N M) (n : N) (node : VpNode M N) :
    (s.setNode n node).nodes n = node := Function.update_self ..

omit [Meta M] in
theorem setNode_of_ne {k n : N} (s : Network N M) (node : VpNode M N) (h : k ≠ n) :
    (s.setNode n node).nodes k = s.nodes k := Function.update_of_ne h ..

omit [Meta M] in
/-- A property of all nodes is kept if the updated node has it. -/
theorem forall_setNode {P : N → VpNode M N → Prop} {n : N} {node : VpNode M N}
    (hs : ∀ k, P k (s.nodes k)) (hn : P n node) : ∀ k, P k ((s.setNode n node).nodes k) :=
  (Function.forall_update_iff s.nodes P).mpr ⟨hn, fun k _ => hs k⟩

end Network

end VideoStream
