import Mathlib.Logic.Function.Basic

/-!
# The node graph

Nodes are wired by `attach_to` and unwired by the three `detach` functions of `vp_node`. An edge is
stored twice, in the `subscribers` of the pre node and in the `pre_nodes` of the next one, and
parallel edges are stored as often as they were made. The operations run in `GraphM`: an exception
leaves the state as the code has made it so far.

A node is its address, `N`; its type and its name are fixed.
-/

namespace VideoStream

/-- `vp_node_type`. -/
inductive NodeType where
  | src
  | mid
  | des
  deriving DecidableEq, Repr

/-- The fixed attributes of the nodes. Names need not be distinct. -/
structure NodeInfo (N : Type) where
  nodeType : N → NodeType
  nodeName : N → String

/-- The two lists of every node. -/
structure NodeGraph (N : Type) where
  subscribers : N → List N
  preNodes : N → List N

/-- No edges yet. -/
def NodeGraph.empty {N : Type} : NodeGraph N := ⟨fun _ => [], fun _ => []⟩

/-- `vp_invalid_argument_error`; and `outOfFuel`, which the code does not have: the recursion of
`detach_recursively` went deeper than the model followed it. -/
inductive GraphError where
  | invalidArgument (msg : String)
  | outOfFuel
  deriving DecidableEq, Repr

/-- An operation on the graph. -/
abbrev GraphM (N : Type) := EStateM GraphError (NodeGraph N)

section Operations

variable {N : Type} [DecidableEq N]

/-- `vp_meta_publisher::add_subscriber` of `p`. -/
def NodeGraph.addSubscriber (g : NodeGraph N) (p n : N) : NodeGraph N :=
  { g with subscribers := Function.update g.subscribers p (g.subscribers p ++ [n]) }

/-- `vp_meta_publisher::remove_subscriber` of `p`: every occurrence of `n` is erased. -/
def NodeGraph.removeSubscriber (g : NodeGraph N) (p n : N) : NodeGraph N :=
  { g with subscribers := Function.update g.subscribers p ((g.subscribers p).filter (· ≠ n)) }

def NodeGraph.setPreNodes (g : NodeGraph N) (n : N) (l : List N) : NodeGraph N :=
  { g with preNodes := Function.update g.preNodes n l }

/-- The loop body of `attach_to`: `n` is added to the subscribers of `i` before the type of `i` is
tested. -/
def attachOne (info : NodeInfo N) (n i : N) : GraphM N Unit := do
  modify (·.addSubscriber i n)
  if info.nodeType i = .des then
    throw (.invalidArgument "DES nodes must not have any next nodes!")
  modify fun g => g.setPreNodes n (g.preNodes n ++ [i])

/-- `vp_node::attach_to` of `n`. -/
def attachTo (info : NodeInfo N) (n : N) (preNodes : List N) : GraphM N Unit := do
  if info.nodeType n = .src then
    throw (.invalidArgument "SRC nodes must not have any pre nodes!")
  forM preNodes (attachOne info n)

/-- The loop body of `detach`. -/
def detachOne (info : NodeInfo N) (n i : N) : GraphM N Unit := do
  if info.nodeType i = .des then
    throw (.invalidArgument "DES nodes not in pre_nodes")
  modify (·.removeSubscriber i n)

/-- `vp_node::detach` of `n`. -/
def detach (info : NodeInfo N) (n : N) : GraphM N Unit := do
  forM ((← get).preNodes n) (detachOne info n)
  modify (·.setPreNodes n [])

/-- The loop of `detach_from` over the entries of `pre_nodes`: an entry with a name in `names` is
erased, and loses `n` as a subscriber; the others are kept. -/
def detachFromLoop (info : NodeInfo N) (n : N) (names : List String) : List N → GraphM N (List N)
  | [] => pure []
  | i :: rest => do
      if info.nodeName i ∈ names then
        modify (·.removeSubscriber i n)
        detachFromLoop info n names rest
      else
        return i :: (← detachFromLoop info n names rest)

/-- `vp_node::detach_from` of `n`. -/
def detachFrom (info : NodeInfo N) (n : N) (preNodeNames : List String) : GraphM N Unit := do
  let kept ← detachFromLoop info n preNodeNames ((← get).preNodes n)
  modify (·.setPreNodes n kept)

/-- `vp_node::detach_recursively` of `n`, to a depth of `fuel` calls. `next_nodes` is a copy of the
subscribers, taken after the detach. -/
def detachRecursively (info : NodeInfo N) : Nat → N → GraphM N Unit
  | 0, _ => throw .outOfFuel
  | fuel + 1, n => do
      detach info n
      forM ((← get).subscribers n) (detachRecursively info fuel)

end Operations

end VideoStream
