import Mathlib.Data.List.Count
import VideoStream.Graph.NodeGraph
import VideoStream.Library.System

/-!
# What the operations do to the wiring

Every operation has a closed form on the two lists (`attachTo_ok`, `detach_ok`, `detachFrom_ok`),
and what it does when it throws is known exactly (`attachTo_src`, `attachTo_des`). From these:

* `attach_to` is all-or-nothing only on lists without DES nodes, and for SRC nodes
  (`allOrNothing_iff`): the subscriber is added before the pre node is tested.
* The two directions of the graph agree in every reachable state (`directions_agree`).
-/

namespace VideoStream

open Library

variable {N : Type} [DecidableEq N] {info : NodeInfo N} {g g' : NodeGraph N} {n : N} {l : List N}

/-! ## Sequencing -/

omit [DecidableEq N] in
theorem GraphM.bind_ok {α β : Type} {x : GraphM N α} {f : α → GraphM N β} {a : α}
    (h : x.run g = .ok a g') : (x >>= f).run g = (f a).run g' := by
  show EStateM.bind x f g = f a g'
  unfold EStateM.bind
  rw [show x g = .ok a g' from h]

omit [DecidableEq N] in
theorem GraphM.bind_error {α β : Type} {x : GraphM N α} {f : α → GraphM N β} {e : GraphError}
    (h : x.run g = .error e g') : (x >>= f).run g = .error e g' := by
  show EStateM.bind x f g = .error e g'
  unfold EStateM.bind
  rw [show x g = .error e g' from h]

omit [DecidableEq N] in
theorem GraphM.run_get_bind {α : Type} {f : NodeGraph N → GraphM N α} :
    (get >>= f).run g = (f g).run g := rfl

omit [DecidableEq N] in
theorem GraphM.run_modify_bind {α : Type} {u : NodeGraph N → NodeGraph N}
    {f : Unit → GraphM N α} : (modify u >>= f).run g = (f ()).run (u g) := rfl

/-! ## `attach_to` -/

/-- `n` is attached to every node of `l`, as often as it occurs there. -/
def NodeGraph.attach (g : NodeGraph N) (n : N) (l : List N) : NodeGraph N where
  subscribers p := g.subscribers p ++ List.replicate (l.count p) n
  preNodes := Function.update g.preNodes n (g.preNodes n ++ l)

theorem NodeGraph.attach_nil (g : NodeGraph N) (n : N) : g.attach n [] = g := by
  unfold attach
  simp

theorem NodeGraph.attach_cons (g : NodeGraph N) (n i : N) (l : List N) :
    ((g.addSubscriber i n).setPreNodes n (g.preNodes n ++ [i])).attach n l =
      g.attach n (i :: l) := by
  unfold attach setPreNodes addSubscriber
  congr 1
  · funext p
    by_cases hp : p = i
    · subst hp
      simp [List.replicate_succ]
    · have hi : i ≠ p := fun h => hp h.symm
      simp [hp, List.count_cons_of_ne hi]
  · simp

theorem attachOne_ok {i : N} (h : info.nodeType i ≠ .des) :
    (attachOne info n i).run g =
      .ok () ((g.addSubscriber i n).setPreNodes n (g.preNodes n ++ [i])) := by
  unfold attachOne
  rw [if_neg h]
  rfl

theorem attachOne_des {i : N} (h : info.nodeType i = .des) :
    (attachOne info n i).run g =
      .error (.invalidArgument "DES nodes must not have any next nodes!")
        (g.addSubscriber i n) := by
  unfold attachOne
  rw [if_pos h]
  rfl

theorem attachLoop_ok (h : ∀ i ∈ l, info.nodeType i ≠ .des) :
    (forM l (attachOne info n)).run g = .ok () (g.attach n l) := by
  induction l generalizing g with
  | nil =>
      rw [NodeGraph.attach_nil]
      rfl
  | cons i l ih =>
      rw [List.forM_cons, GraphM.bind_ok (attachOne_ok (h i List.mem_cons_self)),
        ih fun j hj => h j (List.mem_cons_of_mem _ hj), NodeGraph.attach_cons]

theorem attachTo_src (h : info.nodeType n = .src) :
    (attachTo info n l).run g =
      .error (.invalidArgument "SRC nodes must not have any pre nodes!") g := by
  unfold attachTo
  rw [if_pos h]
  rfl

theorem attachTo_loop (h : info.nodeType n ≠ .src) :
    (attachTo info n l).run g = (forM l (attachOne info n)).run g := by
  unfold attachTo
  rw [if_neg h]

theorem attachTo_ok (hn : info.nodeType n ≠ .src) (hl : ∀ i ∈ l, info.nodeType i ≠ .des) :
    (attachTo info n l).run g = .ok () (g.attach n l) := by
  rw [attachTo_loop hn, attachLoop_ok hl]

/-- At the first DES node `p` of the list the nodes before it are attached, and `p` has a new
subscriber. -/
theorem attachTo_des {pre post : List N} {p : N} (hn : info.nodeType n ≠ .src)
    (hpre : ∀ i ∈ pre, info.nodeType i ≠ .des) (hp : info.nodeType p = .des) :
    (attachTo info n (pre ++ p :: post)).run g =
      .error (.invalidArgument "DES nodes must not have any next nodes!")
        ((g.attach n pre).addSubscriber p n) := by
  rw [attachTo_loop hn, List.forM_append, GraphM.bind_ok (attachLoop_ok hpre), List.forM_cons,
    GraphM.bind_error (attachOne_des hp)]

omit [DecidableEq N] in
theorem exists_first_des (h : ¬ ∀ i ∈ l, info.nodeType i ≠ .des) :
    ∃ pre p post, l = pre ++ p :: post ∧ info.nodeType p = .des ∧
      ∀ i ∈ pre, info.nodeType i ≠ .des := by
  obtain ⟨p, hfind⟩ : ∃ p, l.find? (fun i => info.nodeType i = .des) = some p := by
    rw [← Option.isSome_iff_exists, List.find?_isSome]
    simpa using h
  obtain ⟨hp, pre, post, hl, hpre⟩ := List.find?_eq_some_iff_append.mp hfind
  exact ⟨pre, p, post, hl, of_decide_eq_true hp, by simpa using hpre⟩

/-- The calls that return normally, and their effect. -/
theorem attachTo_eq_ok (h : (attachTo info n l).run g = .ok () g') :
    info.nodeType n ≠ .src ∧ (∀ i ∈ l, info.nodeType i ≠ .des) ∧ g' = g.attach n l := by
  by_cases hn : info.nodeType n = .src
  · rw [attachTo_src hn] at h
    cases h
  · by_cases hl : ∀ i ∈ l, info.nodeType i ≠ .des
    · rw [attachTo_ok hn hl] at h
      cases h
      exact ⟨hn, hl, rfl⟩
    · obtain ⟨pre, p, post, rfl, hp, hpre⟩ := exists_first_des hl
      rw [attachTo_des hn hpre hp] at h
      cases h

/-- If the call throws, the graph is what it was. -/
def AllOrNothing (info : NodeInfo N) (g : NodeGraph N) (n : N) (l : List N) : Prop :=
  ∀ msg g', (attachTo info n l).run g = .error (.invalidArgument msg) g' → g' = g

/-- `attach_to` is all-or-nothing exactly when no DES node is in the list, or the call is refused at
once: `add_subscriber` comes before the test of the type, and nothing takes it back. -/
theorem allOrNothing_iff (info : NodeInfo N) (g : NodeGraph N) (n : N) (l : List N) :
    AllOrNothing info g n l ↔
      info.nodeType n = .src ∨ ∀ i ∈ l, info.nodeType i ≠ .des := by
  constructor
  · intro h
    by_contra hcon
    obtain ⟨hn, hl⟩ := not_or.mp hcon
    obtain ⟨pre, p, post, rfl, hp, hpre⟩ := exists_first_des hl
    have hsame := congrFun (congrArg NodeGraph.subscribers (h _ _ (attachTo_des hn hpre hp))) p
    have hlen := congrArg List.length hsame
    simp [NodeGraph.addSubscriber, NodeGraph.attach] at hlen
  · rintro (hn | hl) msg g' herr
    · rw [attachTo_src hn] at herr
      cases herr
      rfl
    · by_cases hn : info.nodeType n = .src
      · rw [attachTo_src hn] at herr
        cases herr
        rfl
      · rw [attachTo_ok hn hl] at herr
        cases herr

/-- Three nodes: the second is a DES node, the others are not SRC nodes. -/
def threeNodes : NodeInfo (Fin 3) where
  nodeType i := if i = 1 then .des else .mid
  nodeName _ := "node"

/-- `attach_to` of a list with a DES node behind another node: both have the new subscriber, and the
first is a pre node. -/
theorem allOrNothing_fails_des : ¬ AllOrNothing threeNodes .empty 0 [2, 1] := by
  intro h
  have hpre : ∀ i ∈ [(2 : Fin 3)], threeNodes.nodeType i ≠ .des := by decide
  have hsame := h _ _ (attachTo_des (by decide) hpre (by decide))
  exact absurd (congrFun (congrArg NodeGraph.subscribers hsame) 1) (by decide)

/-! ## `detach` and `detach_from` -/

/-- `n` is removed from the subscribers of the nodes in `l`. -/
def NodeGraph.unsubscribe (g : NodeGraph N) (n : N) (l : List N) : NodeGraph N where
  subscribers p := if p ∈ l then (g.subscribers p).filter (· ≠ n) else g.subscribers p
  preNodes := g.preNodes

theorem NodeGraph.unsubscribe_nil (g : NodeGraph N) (n : N) : g.unsubscribe n [] = g := by
  unfold unsubscribe
  simp

theorem NodeGraph.unsubscribe_cons (g : NodeGraph N) (n i : N) (l : List N) :
    (g.removeSubscriber i n).unsubscribe n l = g.unsubscribe n (i :: l) := by
  unfold unsubscribe removeSubscriber
  congr 1
  funext p
  by_cases hp : p = i
  · subst hp
    simp
  · simp [hp]

theorem detachOne_ok {i : N} (h : info.nodeType i ≠ .des) :
    (detachOne info n i).run g = .ok () (g.removeSubscriber i n) := by
  unfold detachOne
  rw [if_neg h]
  rfl

theorem detachLoop_ok (h : ∀ i ∈ l, info.nodeType i ≠ .des) :
    (forM l (detachOne info n)).run g = .ok () (g.unsubscribe n l) := by
  induction l generalizing g with
  | nil =>
      rw [NodeGraph.unsubscribe_nil]
      rfl
  | cons i l ih =>
      rw [List.forM_cons, GraphM.bind_ok (detachOne_ok (h i List.mem_cons_self)),
        ih fun j hj => h j (List.mem_cons_of_mem _ hj), NodeGraph.unsubscribe_cons]

theorem detach_ok (h : ∀ i ∈ g.preNodes n, info.nodeType i ≠ .des) :
    (detach info n).run g =
      .ok () ((g.unsubscribe n (g.preNodes n)).setPreNodes n []) := by
  unfold detach
  rw [GraphM.run_get_bind, GraphM.bind_ok (detachLoop_ok h)]
  rfl

/-- The loop of `detach_from` goes through the entries once: those with a name in `names` lose `n`,
the others are kept. -/
theorem detachFromLoop_ok (names : List String) :
    (detachFromLoop info n names l).run g =
      .ok (l.filter fun i => info.nodeName i ∉ names)
        (g.unsubscribe n (l.filter fun i => info.nodeName i ∈ names)) := by
  induction l generalizing g with
  | nil =>
      rw [List.filter_nil, List.filter_nil, NodeGraph.unsubscribe_nil]
      rfl
  | cons i l ih =>
      unfold detachFromLoop
      by_cases hi : info.nodeName i ∈ names
      · rw [if_pos hi, GraphM.run_modify_bind, ih,
          NodeGraph.unsubscribe_cons]
        simp [hi]
      · rw [if_neg hi, GraphM.bind_ok ih]
        simp [hi]

theorem detachFrom_ok (names : List String) :
    (detachFrom info n names).run g =
      .ok () ((g.unsubscribe n ((g.preNodes n).filter fun i => info.nodeName i ∈ names)).setPreNodes
        n ((g.preNodes n).filter fun i => info.nodeName i ∉ names)) := by
  unfold detachFrom
  rw [GraphM.run_get_bind, GraphM.bind_ok (detachFromLoop_ok names)]
  rfl

/-! ## The two directions agree -/

/-- What the operations keep: an edge is stored as often in the one direction as in the other, and
no edge leads into a SRC node or out of a DES node. -/
structure NodeGraph.Wired (info : NodeInfo N) (g : NodeGraph N) : Prop where
  count : ∀ n p, (g.subscribers p).count n = (g.preNodes n).count p
  src : ∀ n, info.nodeType n = .src → g.preNodes n = []
  des : ∀ n, ∀ p ∈ g.preNodes n, info.nodeType p ≠ .des

theorem NodeGraph.wired_empty (info : NodeInfo N) : (NodeGraph.empty : NodeGraph N).Wired info :=
  ⟨fun _ _ => rfl, fun _ _ => rfl, fun _ _ hp => nomatch hp⟩

theorem NodeGraph.Wired.attach (hg : g.Wired info) (hn : info.nodeType n ≠ .src)
    (hl : ∀ i ∈ l, info.nodeType i ≠ .des) : (g.attach n l).Wired info := by
  refine ⟨fun k p => ?_, fun k hk => ?_, fun k p hp => ?_⟩
  · unfold NodeGraph.attach
    by_cases hkn : k = n
    · subst hkn
      simp [hg.count]
    · have hnk : ¬ n = k := fun h => hkn h.symm
      simp [hkn, hnk, List.count_replicate, hg.count]
  · have hkn : k ≠ n := fun h => hn (h ▸ hk)
    unfold NodeGraph.attach
    simp [hkn, hg.src k hk]
  · by_cases hkn : k = n
    · subst hkn
      have hp : p ∈ g.preNodes k ++ l := by simpa [NodeGraph.attach] using hp
      rcases List.mem_append.mp hp with hp | hp
      · exact hg.des k p hp
      · exact hl p hp
    · have hp : p ∈ g.preNodes k := by simpa [NodeGraph.attach, hkn] using hp
      exact hg.des k p hp

theorem NodeGraph.count_unsubscribe (g : NodeGraph N) (n : N) (l : List N) (k p : N) :
    ((g.unsubscribe n l).subscribers p).count k =
      if k = n ∧ p ∈ l then 0 else (g.subscribers p).count k := by
  show (if p ∈ l then (g.subscribers p).filter (· ≠ n) else g.subscribers p).count k = _
  by_cases hp : p ∈ l
  · by_cases hk : k = n
    · subst hk
      rw [if_pos hp, if_pos ⟨rfl, hp⟩]
      exact List.count_eq_zero_of_not_mem (by simp)
    · simp [hp, hk, List.count_filter]
  · simp [hp]

/-- `n` loses the pre nodes that `c` selects, in both directions. -/
theorem NodeGraph.Wired.cut (hg : g.Wired info) (n : N) (c : N → Bool) :
    ((g.unsubscribe n ((g.preNodes n).filter c)).setPreNodes n
      ((g.preNodes n).filter fun i => !c i)).Wired info := by
  refine ⟨fun k p => ?_, fun k hk => ?_, fun k p hp => ?_⟩
  · show ((g.unsubscribe n ((g.preNodes n).filter c)).subscribers p).count k =
      (Function.update g.preNodes n ((g.preNodes n).filter fun i => !c i) k).count p
    rw [count_unsubscribe]
    by_cases hk : k = n
    · subst hk
      rw [Function.update_self, hg.count]
      by_cases hp : p ∈ (g.preNodes k).filter c
      · have hc := (List.mem_filter.mp hp).2
        rw [if_pos ⟨rfl, hp⟩, List.count_eq_zero_of_not_mem]
        simp [hc]
      · rw [if_neg fun h => hp h.2]
        by_cases hc : c p = true
        · have hpre : p ∉ g.preNodes k := fun h => hp (List.mem_filter.mpr ⟨h, hc⟩)
          rw [List.count_eq_zero_of_not_mem hpre,
            List.count_eq_zero_of_not_mem fun h => hpre (List.mem_filter.mp h).1]
        · rw [List.count_filter (by simp [hc])]
    · rw [if_neg fun h => hk h.1, Function.update_of_ne hk, hg.count]
  · show Function.update g.preNodes n ((g.preNodes n).filter fun i => !c i) k = []
    by_cases hkn : k = n
    · subst hkn
      rw [Function.update_self, hg.src k hk, List.filter_nil]
    · rw [Function.update_of_ne hkn, hg.src k hk]
  · have hp : p ∈ Function.update g.preNodes n ((g.preNodes n).filter fun i => !c i) k := hp
    by_cases hkn : k = n
    · subst hkn
      rw [Function.update_self] at hp
      exact hg.des k p (List.mem_filter.mp hp).1
    · rw [Function.update_of_ne hkn] at hp
      exact hg.des k p hp

/-- From a wired graph the operation returns to a wired graph; it does not throw. -/
def GraphM.Safe (info : NodeInfo N) (x : GraphM N Unit) : Prop :=
  ∀ g : NodeGraph N, g.Wired info →
    (∃ g', x.run g = .ok () g' ∧ g'.Wired info) ∨ ∃ g', x.run g = .error .outOfFuel g'

omit [DecidableEq N] in
theorem GraphM.Safe.bind [DecidableEq N] {x : GraphM N Unit} {f : Unit → GraphM N Unit}
    (hx : Safe info x) (hf : Safe info (f ())) : Safe info (x >>= f) := by
  intro g hg
  rcases hx g hg with ⟨g', hok, hg'⟩ | ⟨g', herr⟩
  · rw [GraphM.bind_ok hok]
    exact hf g' hg'
  · exact .inr ⟨g', GraphM.bind_error herr⟩

theorem GraphM.Safe.forM {f : N → GraphM N Unit} (h : ∀ i ∈ l, Safe info (f i)) :
    Safe info (forM l f) := by
  induction l with
  | nil => exact fun g hg => .inl ⟨g, rfl, hg⟩
  | cons i l ih =>
      rw [List.forM_cons]
      exact (h i List.mem_cons_self).bind (ih fun j hj => h j (List.mem_cons_of_mem _ hj))

theorem detach_wired (hg : g.Wired info) (n : N) :
    ∃ g', (detach info n).run g = .ok () g' ∧ g'.Wired info := by
  refine ⟨_, detach_ok (hg.des n), ?_⟩
  have hall : (g.preNodes n).filter (fun _ => true) = g.preNodes n :=
    List.filter_eq_self.mpr fun _ _ => rfl
  have hnone : (g.preNodes n).filter (fun _ => !true) = [] :=
    List.filter_eq_nil_iff.mpr fun _ _ => by simp
  have hcut := hg.cut n fun _ => true
  rwa [hall, hnone] at hcut

theorem detachFrom_wired (hg : g.Wired info) (n : N) (names : List String) :
    ∃ g', (detachFrom info n names).run g = .ok () g' ∧ g'.Wired info := by
  refine ⟨_, detachFrom_ok names, ?_⟩
  have hcut := hg.cut n fun i => info.nodeName i ∈ names
  simpa using hcut

theorem detachRecursively_safe (fuel : Nat) (n : N) :
    GraphM.Safe info (detachRecursively info fuel n) := by
  induction fuel generalizing n with
  | zero => exact fun g _ => .inr ⟨g, rfl⟩
  | succ fuel ih =>
      intro g hg
      obtain ⟨g', hok, hg'⟩ := detach_wired hg n
      unfold detachRecursively
      rw [GraphM.bind_ok hok, GraphM.run_get_bind]
      exact GraphM.Safe.forM (fun i _ => ih i) g' hg'

/-! ## Runs -/

/-- The operations on the graph. -/
inductive GraphOp (N : Type) where
  | attachTo (n : N) (preNodes : List N)
  | detach (n : N)
  | detachFrom (n : N) (preNodeNames : List String)
  | detachRecursively (fuel : Nat) (n : N)

def GraphOp.run (info : NodeInfo N) : GraphOp N → GraphM N Unit
  | .attachTo n l => VideoStream.attachTo info n l
  | .detach n => VideoStream.detach info n
  | .detachFrom n names => VideoStream.detachFrom info n names
  | .detachRecursively fuel n => VideoStream.detachRecursively info fuel n

/-- The graph under operations that return normally. -/
def nodeGraph (info : NodeInfo N) : System (NodeGraph N) (GraphOp N) where
  init g := g = .empty
  step g op :=
    match (op.run info).run g with
    | .ok _ g' => some g'
    | .error _ _ => none

theorem nodeGraph_step {op : GraphOp N} (h : (nodeGraph info).step g op = some g') :
    (op.run info).run g = .ok () g' := by
  simp only [nodeGraph] at h
  split at h
  · next hok => cases h; exact hok
  · cases h

theorem step_wired {op : GraphOp N} (h : (nodeGraph info).step g op = some g')
    (hg : g.Wired info) : g'.Wired info := by
  have hok := nodeGraph_step h
  cases op with
  | attachTo n l =>
      obtain ⟨hn, hl, rfl⟩ := attachTo_eq_ok hok
      exact hg.attach hn hl
  | detach n =>
      obtain ⟨g'', hd, hg''⟩ := detach_wired hg n
      cases hd.symm.trans hok
      exact hg''
  | detachFrom n names =>
      obtain ⟨g'', hd, hg''⟩ := detachFrom_wired hg n names
      cases hd.symm.trans hok
      exact hg''
  | detachRecursively fuel n =>
      rcases detachRecursively_safe fuel n g hg with ⟨g'', hd, hg''⟩ | ⟨g'', hd⟩
      · cases hd.symm.trans hok
        exact hg''
      · cases hd.symm.trans hok

theorem reachable_wired (h : (nodeGraph info).Reachable g) : g.Wired info := by
  apply h.invariant
  · rintro _ rfl
    exact NodeGraph.wired_empty info
  · intro g g' op _ hg _ hstep
    exact step_wired hstep hg

/-- The two directions of the graph agree in every reachable state, and `detach` does not throw. -/
theorem directions_agree (h : (nodeGraph info).Reachable g) :
    (∀ n p, (g.subscribers p).count n = (g.preNodes n).count p) ∧
      (∀ n, info.nodeType n = .src → g.preNodes n = []) ∧
      (∀ n, ∀ p ∈ g.preNodes n, info.nodeType p ≠ .des) ∧
      (∀ n msg g', (detach info n).run g ≠ .error (.invalidArgument msg) g') ∧
      ∀ fuel n msg g', (detachRecursively info fuel n).run g ≠ .error (.invalidArgument msg) g' := by
  have hg := reachable_wired h
  refine ⟨hg.count, hg.src, hg.des, fun n msg g' herr => ?_, fun fuel n msg g' herr => ?_⟩
  · obtain ⟨g'', hok, -⟩ := detach_wired hg n
    cases hok.symm.trans herr
  · rcases detachRecursively_safe fuel n g hg with ⟨g'', hok, -⟩ | ⟨g'', hfuel⟩
    · cases hok.symm.trans herr
    · cases hfuel.symm.trans herr

/-- A run with parallel edges, a self-loop and a cycle. -/
def loopRun : List (GraphOp (Fin 3)) :=
  [.attachTo 0 [2, 2, 0], .attachTo 2 [0], .detachFrom 0 ["other"], .attachTo 1 [0, 2]]

theorem directions_agree_loop : ∃ g, (nodeGraph threeNodes).Reachable g ∧
    ((g.subscribers 2).count 0 = 2 ∧ g.preNodes 2 = [0] ∧ g.preNodes 0 = [2, 2, 0]) ∧
      ∀ n p, (g.subscribers p).count n = (g.preNodes n).count p := by
  have hinit : (nodeGraph threeNodes).Reachable .empty := .init rfl
  obtain ⟨g, hr, hp⟩ := hinit.exists_of_run
    (p := fun g => (g.subscribers 2).count 0 = 2 ∧ g.preNodes 2 = [0] ∧ g.preNodes 0 = [2, 2, 0])
    loopRun (by decide)
  exact ⟨g, hr, hp, (directions_agree hr).1⟩

end VideoStream
