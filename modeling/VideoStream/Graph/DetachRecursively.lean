import Mathlib.Algebra.Order.BigOperators.Group.Finset
import Mathlib.Data.Fintype.Card
import Mathlib.Logic.Relation
import VideoStream.Graph.Wiring

/-!
# `detach_recursively` cuts what it can reach

The recursion has no visited set. What carries it is that the nodes on its stack have lost their pre
nodes, so that no edge leads back to them: the stack never holds a node twice, and its depth is at
most the number of the nodes. Every call but the first follows an edge, and the edges out of a node
that has been walked are gone, so that no edge is followed twice.

`detachRecursivelyCalls` is the same recursion with its calls written down (`calls_detachRecursively`).
A walk that has called the nodes `V` leaves `g.cut V` behind.
-/

namespace VideoStream

variable {N : Type} [DecidableEq N] {info : NodeInfo N} {g : NodeGraph N} {n : N} {l V W : List N}

/-- `detach_recursively`, with the nodes on which it is called, in the order of the calls. -/
def detachRecursivelyCalls (info : NodeInfo N) : Nat → N → GraphM N (List N)
  | 0, _ => throw .outOfFuel
  | fuel + 1, n => do
      detach info n
      let calls ← ((← get).subscribers n).mapM (detachRecursivelyCalls info fuel)
      return n :: calls.flatten

omit [DecidableEq N] in
theorem GraphM.map_mapM {α : Type} {f : N → GraphM N α} {f' : N → GraphM N Unit}
    (h : ∀ i, (fun _ => ()) <$> f i = f' i) (l : List N) :
    (fun _ => ()) <$> l.mapM f = forM l f' := by
  induction l with
  | nil => rfl
  | cons i l ih =>
      rw [List.forM_cons, ← h, ← ih, List.mapM_cons]
      simp

theorem calls_detachRecursively (fuel : Nat) (n : N) :
    (fun _ => ()) <$> detachRecursivelyCalls info fuel n = detachRecursively info fuel n := by
  induction fuel generalizing n with
  | zero => rfl
  | succ fuel ih =>
      unfold detachRecursivelyCalls detachRecursively
      rw [map_bind]
      congr 1
      funext _
      rw [map_bind]
      congr 1
      funext g
      rw [← GraphM.map_mapM ih, map_bind]
      rfl

/-! ## Cutting edges -/

/-- The edges into the nodes of `V` are gone, in both directions. -/
def NodeGraph.cut (g : NodeGraph N) (V : List N) : NodeGraph N where
  subscribers p := (g.subscribers p).filter (· ∉ V)
  preNodes n := if n ∈ V then [] else g.preNodes n

/-- What the walk needs of the wiring: the two directions agree, and `detach` does not throw. -/
structure NodeGraph.Paired (info : NodeInfo N) (g : NodeGraph N) : Prop where
  count : ∀ n p, (g.subscribers p).count n = (g.preNodes n).count p
  des : ∀ n, ∀ p ∈ g.preNodes n, info.nodeType p ≠ .des

namespace NodeGraph

theorem mem_cut {p m : N} : m ∈ (g.cut V).subscribers p ↔ m ∈ g.subscribers p ∧ m ∉ V := by
  simp [cut]

theorem cut_nil (g : NodeGraph N) : g.cut [] = g := by
  simp [cut]

theorem cut_cut (g : NodeGraph N) (V W : List N) : (g.cut V).cut W = g.cut (V ++ W) := by
  unfold cut
  congr 1
  · funext p
    rw [List.filter_filter]
    congr 1
    funext m
    simp [Bool.and_comm]
  · funext n
    by_cases hV : n ∈ V
    · simp [hV]
    · simp [hV]

theorem Paired.mem_iff (hg : g.Paired info) {p : N} : n ∈ g.subscribers p ↔ p ∈ g.preNodes n := by
  rw [← List.count_pos_iff, hg.count, List.count_pos_iff]

theorem Paired.cut (hg : g.Paired info) (V : List N) : (g.cut V).Paired info := by
  refine ⟨fun n p => ?_, fun n p hp => ?_⟩
  · show ((g.subscribers p).filter (· ∉ V)).count n = (if n ∈ V then [] else g.preNodes n).count p
    by_cases hn : n ∈ V
    · rw [if_pos hn, List.count_nil]
      exact List.count_eq_zero_of_not_mem (by simp [hn])
    · rw [if_neg hn, ← hg.count, List.count_filter (by simp [hn])]
  · have hp : p ∈ if n ∈ V then [] else g.preNodes n := hp
    split at hp
    · cases hp
    · exact hg.des n p hp

/-- No edge leads to nodes without pre nodes. -/
theorem Paired.notMem_stack (hg : g.Paired info) {stack : Finset N}
    (hstack : ∀ a ∈ stack, g.preNodes a = []) {m p : N} (hm : m ∈ g.subscribers p) : m ∉ stack := by
  intro hmem
  have hp := hg.mem_iff.mp hm
  rw [hstack m hmem] at hp
  cases hp

theorem cut_preNodes_eq_nil {a : N} (h : g.preNodes a = []) (V : List N) :
    (g.cut V).preNodes a = [] := by
  simp [cut, h]

theorem detach_eq_cut (hg : g.Paired info) (n : N) : (detach info n).run g = .ok () (g.cut [n]) := by
  have hsub (p : N) : (if p ∈ g.preNodes n then (g.subscribers p).filter (· ≠ n)
      else g.subscribers p) = (g.subscribers p).filter (· ∉ [n]) := by
    split
    · simp
    · next hp =>
        -- `n` is not among the subscribers of a node that is no pre node of it
        have hn : n ∉ g.subscribers p := fun h => hp (hg.mem_iff.mp h)
        refine (List.filter_eq_self.mpr fun m hm => ?_).symm
        have hmn : m ≠ n := fun h => hn (h ▸ hm)
        simpa using hmn
  rw [detach_ok (hg.des n)]
  congr 1
  unfold unsubscribe setPreNodes NodeGraph.cut
  congr 1
  · exact funext hsub
  · funext m
    rw [Function.update_apply]
    simp

/-! ## The walk -/

/-- `m` is reached from `n` along subscribers. -/
def Reaches (g : NodeGraph N) : N → N → Prop := Relation.ReflTransGen fun p m => m ∈ g.subscribers p

/-- The edges out of the nodes that are not on the stack. -/
def edgesOff [Fintype N] (g : NodeGraph N) (stack : Finset N) : Nat :=
  ∑ p ∈ stackᶜ, (g.subscribers p).length

/-- What the calls of a walk from `roots` are, above a stack: they hold the roots and whatever a
called node leads to, nothing that is not reached, and but for the roots one call for an edge. -/
structure Walk [Fintype N] (g : NodeGraph N) (stack : Finset N) (roots calls : List N) : Prop where
  called : ∀ m ∈ roots, m ∈ calls
  closed : ∀ v ∈ calls, ∀ m ∈ g.subscribers v, m ∈ calls
  reached : ∀ v ∈ calls, ∃ m ∈ roots, g.Reaches m v
  few : calls.length + (g.cut calls).edgesOff stack ≤ roots.length + g.edgesOff stack

theorem Reaches.of_cut {p m : N} (h : (g.cut V).Reaches p m) : g.Reaches p m :=
  Relation.ReflTransGen.mono (fun _ _ hm => (mem_cut.mp hm).1) _ _ h

variable [Fintype N] {stack : Finset N}

theorem edgesOff_cut_le (g : NodeGraph N) (V : List N) (stack : Finset N) :
    (g.cut V).edgesOff stack ≤ g.edgesOff stack :=
  Finset.sum_le_sum fun _ _ => List.length_filter_le _ _

theorem edgesOff_insert (hn : n ∉ stack) :
    g.edgesOff stack = (g.subscribers n).length + g.edgesOff (insert n stack) := by
  unfold edgesOff
  have hmem : n ∈ stackᶜ := Finset.mem_compl.mpr hn
  rw [Finset.compl_insert]
  exact (Finset.add_sum_erase _ (fun p => (g.subscribers p).length) hmem).symm

theorem Walk.nil (g : NodeGraph N) (stack : Finset N) : g.Walk stack [] [] :=
  ⟨by simp, by simp, by simp, by rw [cut_nil]⟩

/-- The loop over the next nodes: the second part walks the graph that the first has left. -/
theorem Walk.cons {m : N} (hm : g.Walk stack [m] V) (hl : (g.cut V).Walk stack l W) :
    g.Walk stack (m :: l) (V ++ W) := by
  refine ⟨fun k hk => ?_, fun v hv k hk => ?_, fun v hv => ?_, ?_⟩
  · rcases List.mem_cons.mp hk with rfl | hk
    · exact List.mem_append_left W (hm.called k (List.mem_singleton_self k))
    · exact List.mem_append_right V (hl.called k hk)
  · rcases List.mem_append.mp hv with hv | hv
    · exact List.mem_append_left W (hm.closed v hv k hk)
    · -- an edge that the first part has cut leads to a node that it has called
      by_cases hkV : k ∈ V
      · exact List.mem_append_left W hkV
      · exact List.mem_append_right V (hl.closed v hv k (mem_cut.mpr ⟨hk, hkV⟩))
  · rcases List.mem_append.mp hv with hv | hv
    · obtain ⟨r, hr, hreach⟩ := hm.reached v hv
      obtain rfl := List.mem_singleton.mp hr
      exact ⟨r, List.mem_cons_self, hreach⟩
    · obtain ⟨r, hr, hreach⟩ := hl.reached v hv
      exact ⟨r, List.mem_cons_of_mem m hr, hreach.of_cut⟩
  · have hV := hm.few
    have hW := hl.few
    rw [cut_cut] at hW
    rw [List.length_append, List.length_cons]
    rw [List.length_singleton] at hV
    omega

/-- A call, and the loop over its next nodes. -/
theorem Walk.call (hn : n ∉ stack)
    (hl : (g.cut [n]).Walk (insert n stack) ((g.cut [n]).subscribers n) W) :
    g.Walk stack [n] (n :: W) := by
  refine ⟨fun k hk => ?_, fun v hv k hk => ?_, fun v hv => ?_, ?_⟩
  · obtain rfl := List.mem_singleton.mp hk
    exact List.mem_cons_self
  · by_cases hkn : k = n
    · exact hkn ▸ List.mem_cons_self
    · have hcut : k ∈ (g.cut [n]).subscribers v := mem_cut.mpr ⟨hk, by simpa using hkn⟩
      rcases List.mem_cons.mp hv with rfl | hv
      · exact List.mem_cons_of_mem v (hl.called k hcut)
      · exact List.mem_cons_of_mem n (hl.closed v hv k hcut)
  · refine ⟨n, List.mem_singleton_self n, ?_⟩
    rcases List.mem_cons.mp hv with rfl | hv
    · exact .refl
    · obtain ⟨m, hm, hreach⟩ := hl.reached v hv
      exact .head (mem_cut.mp hm).1 hreach.of_cut
  · -- the edges out of `n` are followed once: after the walk there are none
    have hfew := hl.few
    have hnone : ((g.cut [n]).cut W).subscribers n = [] := by
      refine List.eq_nil_iff_forall_not_mem.mpr fun k hk => ?_
      obtain ⟨hcut, hkW⟩ := mem_cut.mp hk
      exact hkW (hl.called k hcut)
    have hbefore := edgesOff_insert (g := g.cut [n]) hn
    have hafter := edgesOff_insert (g := (g.cut [n]).cut W) hn
    have hle := edgesOff_cut_le g [n] stack
    rw [hnone, List.length_nil, Nat.zero_add] at hafter
    rw [← List.singleton_append, ← cut_cut, hafter, List.length_append, List.length_singleton]
    omega

theorem Walk.mem_iff (h : g.Walk stack [n] V) (m : N) : m ∈ V ↔ g.Reaches n m := by
  constructor
  · intro hm
    obtain ⟨r, hr, hreach⟩ := h.reached m hm
    obtain rfl := List.mem_singleton.mp hr
    exact hreach
  · intro hreach
    induction hreach with
    | refl => exact h.called n (List.mem_singleton_self n)
    | tail _ hedge ih => exact h.closed _ ih _ hedge

end NodeGraph

open NodeGraph

section Recursion

variable [Fintype N] {stack : Finset N}

/-- The loop, over calls that walk what they reach. -/
theorem callsLoop_walk {f : N → GraphM N (List N)}
    (hf : ∀ (g : NodeGraph N) (m : N), g.Paired info → (∀ a ∈ stack, g.preNodes a = []) →
      m ∉ stack → ∃ calls, (f m).run g = .ok calls (g.cut calls) ∧ g.Walk stack [m] calls)
    (hg : g.Paired info) (hstack : ∀ a ∈ stack, g.preNodes a = []) (hl : ∀ m ∈ l, m ∉ stack) :
    ∃ calls : List (List N), (l.mapM f).run g = .ok calls (g.cut calls.flatten) ∧
      g.Walk stack l calls.flatten := by
  induction l generalizing g with
  | nil =>
      refine ⟨[], ?_, .nil g stack⟩
      rw [List.flatten_nil, cut_nil]
      rfl
  | cons m l ih =>
      obtain ⟨V, hm, hV⟩ := hf g m hg hstack (hl m List.mem_cons_self)
      obtain ⟨W, hrest, hW⟩ := ih (hg.cut V) (fun a ha => cut_preNodes_eq_nil (hstack a ha) V)
        fun k hk => hl k (List.mem_cons_of_mem m hk)
      refine ⟨V :: W, ?_, ?_⟩
      · rw [List.mapM_cons, GraphM.bind_ok hm, GraphM.bind_ok hrest, cut_cut]
        rfl
      · exact hV.cons hW

/-- A call above a stack of nodes without pre nodes: the fuel has to last for the nodes that are not
on the stack. -/
theorem calls_walk (fuel : Nat) (hg : g.Paired info) (hstack : ∀ a ∈ stack, g.preNodes a = [])
    (hn : n ∉ stack) (hfuel : stackᶜ.card ≤ fuel) :
    ∃ calls, (detachRecursivelyCalls info fuel n).run g = .ok calls (g.cut calls) ∧
      g.Walk stack [n] calls := by
  induction fuel generalizing g n stack with
  | zero =>
      have hpos : 0 < stackᶜ.card := Finset.card_pos.mpr ⟨n, Finset.mem_compl.mpr hn⟩
      omega
  | succ fuel ih =>
      have hcut := hg.cut [n]
      have hstack' (a : N) (ha : a ∈ insert n stack) : (g.cut [n]).preNodes a = [] := by
        rcases Finset.mem_insert.mp ha with rfl | ha
        · simp [cut]
        · exact cut_preNodes_eq_nil (hstack a ha) [n]
      have hfuel' : (insert n stack)ᶜ.card ≤ fuel := by
        rw [Finset.compl_insert, Finset.card_erase_of_mem (Finset.mem_compl.mpr hn)]
        omega
      obtain ⟨calls, hloop, hwalk⟩ :=
        callsLoop_walk (f := detachRecursivelyCalls info fuel) (l := (g.cut [n]).subscribers n)
          (fun g' m hg' hs hm => ih hg' hs hm hfuel') hcut hstack'
          (fun m hm => hcut.notMem_stack hstack' hm)
      refine ⟨n :: calls.flatten, ?_, .call hn hwalk⟩
      unfold detachRecursivelyCalls
      rw [GraphM.bind_ok (detach_eq_cut hg n), GraphM.run_get_bind, GraphM.bind_ok hloop, cut_cut]
      rfl

open scoped Classical in
/-- `detach_recursively` terminates without an exception, with at most one call more than there are
edges. The nodes that are reached from `n` have lost their edges; of the others each keeps its pre
nodes, and its subscribers but for those that are reached. -/
theorem detachRecursively_cuts (hg : g.Paired info) (n : N) {fuel : Nat}
    (hfuel : Fintype.card N ≤ fuel) :
    ∃ calls g', (detachRecursivelyCalls info fuel n).run g = .ok calls g' ∧
      (detachRecursively info fuel n).run g = .ok () g' ∧
      calls.length ≤ (∑ p, (g.subscribers p).length) + 1 ∧
      (∀ m, g.Reaches n m → g'.preNodes m = [] ∧ g'.subscribers m = []) ∧
      ∀ m, ¬ g.Reaches n m → g'.preNodes m = g.preNodes m ∧
        g'.subscribers m = (g.subscribers m).filter fun k => ¬ g.Reaches n k := by
  have hall : (∅ : Finset N)ᶜ.card ≤ fuel := by simpa using hfuel
  obtain ⟨calls, hrun, hwalk⟩ := calls_walk fuel hg (by simp) (Finset.notMem_empty n) hall
  have hreach := hwalk.mem_iff
  refine ⟨calls, g.cut calls, hrun, ?_, ?_, fun m hm => ⟨?_, ?_⟩, fun m hm => ⟨?_, ?_⟩⟩
  · rw [← calls_detachRecursively, map_eq_pure_bind, GraphM.bind_ok hrun]
    rfl
  · have hfew := hwalk.few
    unfold edgesOff at hfew
    rw [Finset.compl_empty, List.length_singleton] at hfew
    omega
  · simp [cut, hreach, hm]
  · refine List.eq_nil_iff_forall_not_mem.mpr fun k hk => ?_
    obtain ⟨hedge, hk⟩ := mem_cut.mp hk
    exact hk (hwalk.closed m ((hreach m).mpr hm) k hedge)
  · simp [cut, hreach, hm]
  · show (g.subscribers m).filter (· ∉ calls) = _
    congr 1
    funext k
    rw [decide_eq_decide, hreach]

end Recursion

/-- A diamond with a cycle, a self-loop and parallel edges behind it, and a node before it. -/
def tangledGraph : NodeGraph (Fin 5) where
  subscribers p := match p with
    | 0 => [1, 2, 1]
    | 1 => [3, 1]
    | 2 => [3]
    | 3 => [2]
    | 4 => [1, 0]
  preNodes n := match n with
    | 0 => [4]
    | 1 => [0, 0, 1, 4]
    | 2 => [0, 3]
    | 3 => [1, 2]
    | 4 => []

open scoped Classical in
theorem detachRecursively_cuts_tangled :
    ∃ calls g', (detachRecursivelyCalls ⟨fun _ => .mid, fun _ => "node"⟩ 5 0).run tangledGraph =
        .ok calls g' ∧
      (detachRecursively ⟨fun _ => .mid, fun _ => "node"⟩ 5 0).run tangledGraph = .ok () g' ∧
      calls.length ≤ (∑ p, (tangledGraph.subscribers p).length) + 1 ∧
      (∀ m, tangledGraph.Reaches 0 m → g'.preNodes m = [] ∧ g'.subscribers m = []) ∧
      ∀ m, ¬ tangledGraph.Reaches 0 m → g'.preNodes m = tangledGraph.preNodes m ∧
        g'.subscribers m = (tangledGraph.subscribers m).filter fun k =>
          ¬ tangledGraph.Reaches 0 k :=
  detachRecursively_cuts ⟨by decide, by decide⟩ 0 (by decide)

end VideoStream
