import Mathlib.Data.List.Induction
import Mathlib.Data.List.Perm.Basic

/-!
# Substitution of keywords

A substitution is a list of keywords, each with its text. `substitute ps s` scans `s` once, from
left to right, and puts the text of a keyword wherever one begins.

The keywords are bracketed (`Bracketed`): each begins with the same symbol, which is nowhere else in
it; no keyword begins another; and the texts are not empty and have no symbol in common with the
keywords. Then the keywords may be substituted one after the other, in any order
(`substituteEach_eq`, `substituteEach_perm`).
-/

namespace VideoStream.Library

variable {α : Type*}

section Scan

variable [DecidableEq α]

/-- Inside of a keyword the next `n` symbols are skipped. -/
def scan (ps : List (List α × List α)) : Nat → List α → List α
  | _, [] => []
  | n + 1, _ :: s => scan ps n s
  | 0, c :: s =>
      match ps.find? fun p => p.1.isPrefixOf (c :: s) with
      | some p => p.2 ++ scan ps (p.1.length - 1) s
      | none => c :: scan ps 0 s

def substitute (ps : List (List α × List α)) (s : List α) : List α := scan ps 0 s

/-- The substitutions one after the other. -/
def substituteEach (ps : List (List α × List α)) (s : List α) : List α :=
  ps.foldl (fun s p => substitute [p] s) s

end Scan

/-- The keywords begin with `o`, and neither they nor the texts can get into each other's way. -/
structure Bracketed (o : α) (ps : List (List α × List α)) : Prop where
  bracket : ∀ p ∈ ps, ∃ k, p.1 = o :: k ∧ o ∉ k
  prefixFree : ∀ p ∈ ps, ∀ q ∈ ps, p.1 <+: q.1 → p = q
  text : ∀ p ∈ ps, p.2 ≠ []
  disjoint : ∀ p ∈ ps, ∀ q ∈ ps, ∀ x ∈ p.2, x ∉ q.1

variable {ps : List (List α × List α)} {p : List α × List α} {s : List α} {c o : α}

namespace Bracketed

theorem ne_nil (h : Bracketed o ps) (hp : p ∈ ps) : p.1 ≠ [] := by
  obtain ⟨k, hk, -⟩ := h.bracket p hp
  rw [hk]
  exact List.cons_ne_nil _ _

/-- At most one keyword begins at a place. -/
theorem unique (h : Bracketed o ps) (hp : p ∈ ps) {q : List α × List α} (hq : q ∈ ps)
    (hstart : p.1 <+: s) (hstart' : q.1 <+: s) : q = p := by
  rcases List.prefix_or_prefix_of_prefix hstart hstart' with hle | hle
  · exact (h.prefixFree p hp q hq hle).symm
  · exact h.prefixFree q hq p hp hle

theorem of_subset (h : Bracketed o ps) {qs : List (List α × List α)} (hsub : qs ⊆ ps) :
    Bracketed o qs where
  bracket p hp := h.bracket p (hsub hp)
  prefixFree p hp q hq := h.prefixFree p (hsub hp) q (hsub hq)
  text p hp := h.text p (hsub hp)
  disjoint p hp q hq := h.disjoint p (hsub hp) q (hsub hq)

end Bracketed

/-! ## The scan -/

variable [DecidableEq α]

theorem scan_eq_drop (ps : List (List α × List α)) (n : Nat) (s : List α) :
    scan ps n s = substitute ps (s.drop n) := by
  induction s generalizing n with
  | nil => simp [scan, substitute]
  | cons c s ih =>
      cases n with
      | zero => rfl
      | succ n =>
          rw [scan, List.drop_succ_cons]
          exact ih n

/-- No keyword begins here. -/
theorem substitute_cons (h : ∀ p ∈ ps, ¬ p.1 <+: c :: s) :
    substitute ps (c :: s) = c :: substitute ps s := by
  have hnone : (ps.find? fun p => p.1.isPrefixOf (c :: s)) = none := by
    rw [List.find?_eq_none]
    intro p hp
    rw [List.isPrefixOf_iff_prefix]
    exact h p hp
  show scan ps 0 (c :: s) = _
  rw [scan, hnone]
  rfl

/-- The keyword of `p` is here, and of no other. -/
theorem substitute_append (hp : p ∈ ps) (hne : p.1 ≠ [])
    (hunique : ∀ q ∈ ps, q.1 <+: p.1 ++ s → q = p) :
    substitute ps (p.1 ++ s) = p.2 ++ substitute ps s := by
  obtain ⟨c, k, hk⟩ := List.exists_cons_of_ne_nil hne
  have hfind : (ps.find? fun q => q.1.isPrefixOf (p.1 ++ s)) = some p := by
    cases hfound : ps.find? fun q => q.1.isPrefixOf (p.1 ++ s) with
    | none =>
        rw [List.find?_eq_none] at hfound
        have hnot := hfound p hp
        rw [List.isPrefixOf_iff_prefix] at hnot
        exact absurd (List.prefix_append _ _) hnot
    | some q =>
        have hq := List.find?_some hfound
        rw [List.isPrefixOf_iff_prefix] at hq
        rw [hunique q (List.mem_of_find?_eq_some hfound) hq]
  rw [hk, List.cons_append] at hfind ⊢
  show scan ps 0 (c :: (k ++ s)) = _
  rw [scan, hfind]
  show p.2 ++ scan ps (p.1.length - 1) (k ++ s) = _
  rw [scan_eq_drop, hk, List.length_cons, Nat.add_sub_cancel, List.drop_left]

namespace Bracketed

theorem substitute_keyword (h : Bracketed o ps) (hp : p ∈ ps) (s : List α) :
    substitute ps (p.1 ++ s) = p.2 ++ substitute ps s :=
  substitute_append hp (h.ne_nil hp) fun _ hq hstart =>
    h.unique hp hq (List.prefix_append _ _) hstart

/-- A place where a keyword begins, and a place where none does. -/
theorem cases_cons (h : Bracketed o ps) (c : α) (s : List α) :
    (∃ p ∈ ps, ∃ t, c :: s = p.1 ++ t ∧ substitute ps (c :: s) = p.2 ++ substitute ps t) ∨
      (∀ p ∈ ps, ¬ p.1 <+: c :: s) ∧ substitute ps (c :: s) = c :: substitute ps s := by
  by_cases hkey : ∃ p ∈ ps, p.1 <+: c :: s
  · obtain ⟨p, hp, t, ht⟩ := hkey
    refine .inl ⟨p, hp, t, ht.symm, ?_⟩
    rw [← ht, h.substitute_keyword hp]
  · have hnone : ∀ p ∈ ps, ¬ p.1 <+: c :: s := fun p hp hstart => hkey ⟨p, hp, hstart⟩
    exact .inr ⟨hnone, substitute_cons hnone⟩

/-- Where the opening symbol is not, nothing is substituted. -/
theorem substitute_plain (h : Bracketed o ps) {w : List α} (hw : o ∉ w) (s : List α) :
    substitute ps (w ++ s) = w ++ substitute ps s := by
  induction w with
  | nil => rfl
  | cons c w ih =>
      rw [List.cons_append, substitute_cons, ih fun hmem => hw (List.mem_cons_of_mem c hmem)]
      · rfl
      · intro p hp hstart
        obtain ⟨k, hk, -⟩ := h.bracket p hp
        rw [hk] at hstart
        obtain ⟨rfl, -⟩ := List.cons_prefix_cons.mp hstart
        exact hw List.mem_cons_self

/-- What the scan puts in has no part in a keyword: the symbols of one were there before. -/
theorem prefix_of_prefix_substitute (h : Bracketed o ps) {k : List α}
    (hk : ∀ p ∈ ps, ∀ x ∈ p.2, x ∉ k) (hstart : k <+: substitute ps s) : k <+: s := by
  induction k generalizing s with
  | nil => exact List.nil_prefix
  | cons a k ih =>
      cases s with
      | nil => exact hstart
      | cons c s =>
          rcases h.cases_cons c s with ⟨p, hp, t, -, ht⟩ | ⟨-, hplain⟩
          · obtain ⟨x, text, hx⟩ := List.exists_cons_of_ne_nil (h.text p hp)
            rw [ht, hx, List.cons_append] at hstart
            obtain ⟨rfl, -⟩ := List.cons_prefix_cons.mp hstart
            exact absurd List.mem_cons_self (hk p hp a (by rw [hx]; exact List.mem_cons_self))
          · rw [hplain] at hstart
            obtain ⟨rfl, hrest⟩ := List.cons_prefix_cons.mp hstart
            refine List.cons_prefix_cons.mpr ⟨rfl, ih (fun p hp x hx hmem => ?_) hrest⟩
            exact hk p hp x hx (List.mem_cons_of_mem _ hmem)

end Bracketed

/-! ## One keyword after the other -/

/-- One more keyword, behind the others. -/
theorem substitute_concat (h : Bracketed o (ps ++ [p])) (s : List α) :
    substitute [p] (substitute ps s) = substitute (ps ++ [p]) s := by
  have hps : Bracketed o ps := h.of_subset (List.subset_append_left _ _)
  have hone : Bracketed o [p] := h.of_subset (List.subset_append_right _ _)
  have hmem : p ∈ ps ++ [p] := List.mem_append_right _ List.mem_cons_self
  obtain ⟨k, hk, hok⟩ := h.bracket p hmem
  have htext {q : List α × List α} (hq : q ∈ ps) : o ∉ q.2 := by
    intro ho
    refine h.disjoint q (List.mem_append_left _ hq) p hmem o ho ?_
    rw [hk]
    exact List.mem_cons_self
  induction hn : s.length using Nat.strongRecOn generalizing s with
  | ind n ih =>
      cases s with
      | nil => rfl
      | cons c s =>
          have hshort {key t : List α} (hne : key ≠ []) (ht : c :: s = key ++ t) :
              t.length < n := by
            have hpos := List.length_pos_iff.mpr hne
            have hlength := congrArg List.length ht
            rw [List.length_append] at hlength
            omega
          rcases h.cases_cons c s with ⟨q, hq, t, ht, hboth⟩ | ⟨hnone, hboth⟩
          · have hrest := ih t.length (hshort (h.ne_nil hq) ht) t rfl
            rw [hboth, ht]
            by_cases hin : q ∈ ps
            · -- a keyword of `ps`: its text has no opening symbol
              rw [hps.substitute_keyword hin, hone.substitute_plain (htext hin), hrest]
            · -- the keyword of `p`: the scan of the others leaves it alone
              obtain rfl := List.mem_singleton.mp ((List.mem_append.mp hq).resolve_left hin)
              have hkept : substitute ps (q.1 ++ t) = q.1 ++ substitute ps t := by
                rw [hk, List.cons_append, substitute_cons, hps.substitute_plain hok]
                · rfl
                · intro q' hq' hstart
                  rw [← List.cons_append, ← hk, ← ht] at hstart
                  have heq := h.unique hmem (List.mem_append_left _ hq')
                    (ht ▸ List.prefix_append _ _) hstart
                  exact hin (heq ▸ hq')
              rw [hkept, hone.substitute_keyword List.mem_cons_self, hrest]
          · have hrest := ih s.length (hshort (List.cons_ne_nil c []) rfl) s rfl
            have hps_none : ∀ q ∈ ps, ¬ q.1 <+: c :: s := fun q hq =>
              hnone q (List.mem_append_left _ hq)
            rw [hboth, substitute_cons hps_none, substitute_cons, hrest]
            intro q hq hstart
            obtain rfl := List.mem_singleton.mp hq
            rw [hk] at hstart
            obtain ⟨rfl, htail⟩ := List.cons_prefix_cons.mp hstart
            -- a new occurrence would have been there before
            refine hnone q hmem ?_
            rw [hk]
            refine List.cons_prefix_cons.mpr ⟨rfl, hps.prefix_of_prefix_substitute ?_ htail⟩
            intro q' hq' x hx hxk
            refine h.disjoint q' (List.mem_append_left _ hq') q hmem x hx ?_
            rw [hk]
            exact List.mem_cons_of_mem _ hxk

/-- The keywords may be substituted one after the other. -/
theorem substituteEach_eq (h : Bracketed o ps) (s : List α) :
    substituteEach ps s = substitute ps s := by
  induction ps using List.reverseRecOn with
  | nil =>
      have hnone (s : List α) : substitute [] s = s := by
        induction s with
        | nil => rfl
        | cons c s ih =>
            rw [substitute_cons (by simp), ih]
      exact (hnone s).symm
  | append_singleton ps p ih =>
      have hps : Bracketed o ps := h.of_subset (List.subset_append_left _ _)
      have hbefore : substituteEach ps s = substitute ps s := ih hps
      unfold substituteEach at hbefore ⊢
      rw [List.foldl_append, hbefore]
      exact substitute_concat h s

/-- The order of the keywords does not matter. -/
theorem substitute_perm (h : Bracketed o ps) {qs : List (List α × List α)} (hperm : qs.Perm ps)
    (s : List α) : substitute qs s = substitute ps s := by
  have hqs : Bracketed o qs := h.of_subset hperm.subset
  induction hn : s.length using Nat.strongRecOn generalizing s with
  | ind n ih =>
      cases s with
      | nil => rfl
      | cons c s =>
          rcases h.cases_cons c s with ⟨p, hp, t, ht, hsub⟩ | ⟨hnone, hsub⟩
          · have hlength := congrArg List.length ht
            have hpos := List.length_pos_iff.mpr (h.ne_nil hp)
            rw [List.length_append] at hlength
            have hrest := ih t.length (by omega) t rfl
            rw [hsub, ht, hqs.substitute_keyword (hperm.symm.subset hp), hrest]
          · have hnone' : ∀ q ∈ qs, ¬ q.1 <+: c :: s := fun q hq => hnone q (hperm.subset hq)
            have hrest := ih s.length (hn ▸ Nat.lt_succ_self _) s rfl
            rw [hsub, substitute_cons hnone', hrest]

theorem substituteEach_perm (h : Bracketed o ps) {qs : List (List α × List α)} (hperm : qs.Perm ps)
    (s : List α) : substituteEach qs s = substitute ps s := by
  rw [substituteEach_eq (h.of_subset hperm.subset), substitute_perm h hperm]

end VideoStream.Library
