import Mathlib.Algebra.BigOperators.Fin
import Mathlib.Data.Finite.Sigma
import Mathlib.Data.Finite.Sum
import Mathlib.Data.Fintype.Card
import Mathlib.Logic.Relation
import Mathlib.SetTheory.Cardinal.Finite

/-!
# Paths in a multigraph

A multigraph is given by its successor lists, with parallel edges repeated. A `Path` names the edge
it takes at every node by its position in the list, so that paths along parallel edges are
different. In an acyclic multigraph on finitely many nodes there are finitely many paths between any
two nodes, and `pathCount` has the recursion of a path's first edge (`pathCount_eq`). What arrives at a
node can be given a cost that covers all that it sets off (`exists_cost`).
-/

namespace VideoStream.Library

variable {N : Type*} (succ : N → List N)

/-- A directed path; `nil` is the empty one. -/
inductive Path : N → N → Type _
  | nil (n : N) : Path n n
  | cons {n m : N} (i : Fin (succ n).length) : Path (succ n)[i] m → Path n m

/-- No node is reached from itself by one or more edges. -/
def Acyclic : Prop := ∀ n, ¬ Relation.TransGen (fun a b => b ∈ succ a) n n

/-- The number of paths. -/
noncomputable def pathCount (n m : N) : ℕ := Nat.card (Path succ n m)

/-- A path is empty, or a first edge and a path. -/
def Path.equiv (n m : N) : Path succ n m ≃
    PLift (n = m) ⊕ Σ i : Fin (succ n).length, Path succ (succ n)[i] m where
  toFun
    | .nil _ => .inl ⟨rfl⟩
    | .cons i p => .inr ⟨i, p⟩
  invFun
    | .inl ⟨h⟩ => h ▸ .nil n
    | .inr ⟨i, p⟩ => .cons i p
  left_inv p := by cases p <;> rfl
  right_inv
    | .inl ⟨h⟩ => by cases h; rfl
    | .inr ⟨i, p⟩ => rfl

variable {succ}

/-- A multigraph whose edges go up in some order is acyclic. -/
theorem Acyclic.of_lt [Preorder N] (h : ∀ a, ∀ b ∈ succ a, a < b) : Acyclic succ := by
  intro n hn
  have hlt : Relation.TransGen (fun a b : N => a < b) n n :=
    Relation.TransGen.mono h _ _ hn
  rw [Relation.transGen_eq_self] at hlt
  exact lt_irrefl n hlt

theorem Acyclic.wellFounded [Finite N] (h : Acyclic succ) :
    WellFounded fun b a => b ∈ succ a := by
  have htrans : IsTrans N (Relation.TransGen fun b a => b ∈ succ a) := inferInstance
  have hirrefl : Std.Irrefl (Relation.TransGen fun b a => b ∈ succ a) :=
    ⟨fun n hn => h n (Relation.transGen_swap.mp hn)⟩
  have hwf := Finite.wellFounded_of_trans_of_irrefl (Relation.TransGen fun b a => b ∈ succ a)
  exact Subrelation.wf (fun hab => Relation.TransGen.single hab) hwf

/-- A cost for every node that pays `c`, and the costs of the successors. -/
theorem Acyclic.exists_cost [Finite N] (h : Acyclic succ) (c : ℕ) :
    ∃ C : N → ℕ, ∀ n, C n = c + ((succ n).map C).sum := by
  refine ⟨h.wellFounded.fix fun n ih => c + ((succ n).attach.map fun k => ih k.1 k.2).sum,
    fun n => ?_⟩
  rw [WellFounded.fix_eq]
  exact congrArg (fun l => c + List.sum l) List.attach_map_val

theorem Acyclic.finite_path [Finite N] (h : Acyclic succ) (n m : N) : Finite (Path succ n m) := by
  induction n using h.wellFounded.induction with
  | h n ih =>
      have hrest : ∀ i : Fin (succ n).length, Finite (Path succ (succ n)[i] m) :=
        fun i => ih _ (List.getElem_mem _)
      exact Finite.of_equiv _ (Path.equiv succ n m).symm

/-- A path to `m` is empty, if it starts there, or goes on from a successor. -/
theorem Acyclic.pathCount_eq [Finite N] [DecidableEq N] (h : Acyclic succ) (n m : N) :
    pathCount succ n m =
      (if n = m then 1 else 0) + ((succ n).map fun k => pathCount succ k m).sum := by
  have hrest : ∀ i : Fin (succ n).length, Finite (Path succ (succ n)[i] m) :=
    fun i => h.finite_path _ m
  unfold pathCount
  rw [Nat.card_congr (Path.equiv succ n m), Nat.card_sum, Nat.card_sigma]
  congr 1
  · split
    · next hnm => exact Nat.card_eq_one_iff_unique.mpr ⟨⟨fun ⟨_⟩ ⟨_⟩ => rfl⟩, ⟨⟨hnm⟩⟩⟩
    · next hnm =>
        have hempty : IsEmpty (PLift (n = m)) := ⟨fun h => hnm h.down⟩
        exact Nat.card_of_isEmpty
  · exact Fin.sum_univ_fun_getElem (succ n) fun k => Nat.card (Path succ k m)

end VideoStream.Library
