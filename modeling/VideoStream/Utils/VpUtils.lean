import Mathlib.Data.List.TakeWhile
import VideoStream.Utils.Conversions

/-!
# Strings

`string_split` reads a stream line by line, and `set_width_and_fill` pads a string. A `std::string`
is the list of its characters.

* The tokens of a string, joined again, are the string without its last delimiter, if it ends in one
  (`stringSplit_lossless`).
* A string is padded to the width exactly when the width is not negative (`padsExactly_iff`): it is
  compared with the size of the string as a `size_t`.
-/

namespace VideoStream

/-! ## `string_split` -/

/-- A `std::istringstream`: what is left of it, and `eofbit` and `failbit`. -/
structure StringStream where
  rest : List Char
  eof : Bool
  fail : Bool

/-- `std::getline`. A stream at its end is not read any more, and a read that extracts nothing, not
even a delimiter, fails. -/
def getline (stream : StringStream) (token : List Char) (delimiter : Char) :
    List Char × StringStream :=
  if stream.eof || stream.fail then (token, { stream with fail := true })
  else
    (stream.rest.takeWhile (· != delimiter),
      match stream.rest.dropWhile (· != delimiter) with
      | [] => { rest := [], eof := true, fail := stream.rest.isEmpty }
      | _ :: rest => { rest := rest, eof := false, fail := false })

theorem getline_rest_lt {stream : StringStream} {token : List Char} {delimiter : Char}
    (h : (getline stream token delimiter).2.fail = false) :
    (getline stream token delimiter).2.rest.length < stream.rest.length := by
  unfold getline at h ⊢
  split
  · next hend =>
      rw [if_pos hend] at h
      cases h
  · next hend =>
      rw [if_neg hend] at h
      have hle := (List.dropWhile_suffix (l := stream.rest) (· != delimiter)).length_le
      split
      · next hdrop =>
          rw [hdrop] at h
          exact List.length_pos_iff.mpr (by simpa using h)
      · next hdrop =>
          rw [hdrop, List.length_cons] at hle
          exact hle

/-- The loop of `string_split`. -/
def splitLoop (stream : StringStream) (token : List Char) (tokens : List (List Char))
    (delimiter : Char) : List (List Char) :=
  if _h : (getline stream token delimiter).2.fail = false then
    splitLoop (getline stream token delimiter).2 (getline stream token delimiter).1
      (tokens ++ [(getline stream token delimiter).1]) delimiter
  else tokens
termination_by stream.rest.length
decreasing_by exact getline_rest_lt _h

def stringSplit (s : List Char) (delimiter : Char) : List (List Char) :=
  splitLoop { rest := s, eof := false, fail := false } [] [] delimiter

section Lines

variable {s line : List Char} {token : List Char} {tokens : List (List Char)} {delimiter : Char}

/-- A string is a number of lines, each with its delimiter, and what is left. -/
theorem lines_induction (delimiter : Char) {P : List Char → Prop} (nil : P [])
    (last : ∀ line, line ≠ [] → delimiter ∉ line → P line)
    (cons : ∀ line s, delimiter ∉ line → P s → P (line ++ delimiter :: s)) (s : List Char) :
    P s := by
  induction hn : s.length using Nat.strongRecOn generalizing s with
  | ind n ih =>
      by_cases hmem : delimiter ∈ s
      · obtain ⟨line, rest, rfl, hline⟩ := List.eq_append_cons_of_mem hmem
        apply cons line rest hline
        apply ih rest.length _ rest rfl
        rw [← hn, List.length_append, List.length_cons]
        omega
      · by_cases hs : s = []
        · rw [hs]
          exact nil
        · exact last s hs hmem

theorem all_ne_of_not_mem (h : delimiter ∉ line) : ∀ c ∈ line, (c != delimiter) = true := by
  intro c hc
  rw [bne_iff_ne]
  intro heq
  exact h (heq ▸ hc)

theorem getline_line (h : delimiter ∉ line) (s token : List Char) :
    getline { rest := line ++ delimiter :: s, eof := false, fail := false } token delimiter =
      (line, { rest := s, eof := false, fail := false }) := by
  have hne := all_ne_of_not_mem h
  unfold getline
  simp [List.takeWhile_append_of_pos hne, List.dropWhile_append_of_pos hne]

theorem getline_last (h : delimiter ∉ line) (token : List Char) :
    getline { rest := line, eof := false, fail := false } token delimiter =
      (line, { rest := [], eof := true, fail := line.isEmpty }) := by
  have hne := all_ne_of_not_mem h
  unfold getline
  simp [List.takeWhile_eq_self_iff.mpr hne, List.dropWhile_eq_nil_iff.mpr hne]

theorem splitLoop_line (h : delimiter ∉ line) (s token : List Char) (tokens : List (List Char)) :
    splitLoop { rest := line ++ delimiter :: s, eof := false, fail := false } token tokens delimiter =
      splitLoop { rest := s, eof := false, fail := false } line (tokens ++ [line]) delimiter := by
  rw [splitLoop, getline_line h, dif_pos rfl]

/-- The last line has no delimiter, and the read after it fails. -/
theorem splitLoop_last (hne : line ≠ []) (h : delimiter ∉ line) (token : List Char)
    (tokens : List (List Char)) :
    splitLoop { rest := line, eof := false, fail := false } token tokens delimiter =
      tokens ++ [line] := by
  rw [splitLoop, getline_last h, dif_pos (by simpa using hne), splitLoop]
  simp [getline]

theorem splitLoop_nil (token : List Char) (tokens : List (List Char)) (delimiter : Char) :
    splitLoop { rest := [], eof := false, fail := false } token tokens delimiter = tokens := by
  rw [splitLoop, getline_last List.not_mem_nil, dif_neg (by simp)]

theorem splitLoop_eq (s token : List Char) (tokens : List (List Char)) :
    splitLoop { rest := s, eof := false, fail := false } token tokens delimiter =
      tokens ++ stringSplit s delimiter := by
  unfold stringSplit
  induction s using lines_induction delimiter generalizing token tokens with
  | nil => rw [splitLoop_nil, splitLoop_nil, List.append_nil]
  | last line hne h => rw [splitLoop_last hne h, splitLoop_last hne h, List.nil_append]
  | cons line s h ih =>
      rw [splitLoop_line h, splitLoop_line h, ih line (tokens ++ [line]), ih line ([] ++ [line]),
        List.nil_append, List.append_assoc]

theorem stringSplit_nil (delimiter : Char) : stringSplit [] delimiter = [] :=
  splitLoop_nil [] [] delimiter

theorem stringSplit_last (hne : line ≠ []) (h : delimiter ∉ line) :
    stringSplit line delimiter = [line] :=
  splitLoop_last hne h [] []

theorem stringSplit_line (h : delimiter ∉ line) (s : List Char) :
    stringSplit (line ++ delimiter :: s) delimiter = line :: stringSplit s delimiter := by
  rw [stringSplit, splitLoop_line h, splitLoop_eq]
  rfl

theorem not_mem_token {token : List Char} (htoken : token ∈ stringSplit s delimiter) :
    delimiter ∉ token := by
  induction s using lines_induction delimiter with
  | nil =>
      rw [stringSplit_nil] at htoken
      cases htoken
  | last line hne h =>
      rw [stringSplit_last hne h, List.mem_singleton] at htoken
      rwa [htoken]
  | cons line s h ih =>
      rw [stringSplit_line h] at htoken
      rcases List.mem_cons.mp htoken with rfl | htoken
      · exact h
      · exact ih htoken

theorem stringSplit_eq_nil : stringSplit s delimiter = [] ↔ s = [] := by
  constructor
  · intro h
    induction s using lines_induction delimiter with
    | nil => rfl
    | last line hne hline =>
        rw [stringSplit_last hne hline] at h
        cases h
    | cons line s hline _ =>
        rw [stringSplit_line hline] at h
        cases h
  · intro h
    rw [h, stringSplit_nil]

theorem getLast?_line (hs : s ≠ []) : (line ++ delimiter :: s).getLast? = s.getLast? := by
  obtain ⟨c, t, rfl⟩ := List.exists_cons_of_ne_nil hs
  rw [List.getLast?_append, List.getLast?_cons_cons, List.getLast?_eq_some_getLast (by simp)]
  rfl

theorem intercalate_stringSplit (s : List Char) (delimiter : Char) :
    [delimiter].intercalate (stringSplit s delimiter) =
      if s.getLast? = some delimiter then s.dropLast else s := by
  induction s using lines_induction delimiter with
  | nil => rw [stringSplit_nil]; rfl
  | last line hne h =>
      have hlast : line.getLast? ≠ some delimiter := fun hlast => h (List.mem_of_getLast? hlast)
      rw [stringSplit_last hne h, if_neg hlast]
      simp
  | cons line s h ih =>
      rw [stringSplit_line h]
      by_cases hs : s = []
      · -- the delimiter at the end opens no token
        subst hs
        rw [stringSplit_nil]
        simp
      · obtain ⟨token, tokens, hsplit⟩ :=
          List.exists_cons_of_ne_nil fun hnil : stringSplit s delimiter = [] =>
            hs (stringSplit_eq_nil.mp hnil)
        rw [hsplit] at ih ⊢
        have hjoin : [delimiter].intercalate (line :: token :: tokens) =
            line ++ delimiter :: [delimiter].intercalate (token :: tokens) := by
          simp [List.intercalate]
        rw [hjoin, ih, getLast?_line hs]
        split
        · rw [List.dropLast_append_of_ne_nil (by simp), List.dropLast_cons_of_ne_nil hs]
        · rfl

theorem length_stringSplit (s : List Char) (delimiter : Char) :
    (stringSplit s delimiter).length =
      s.count delimiter + if s ≠ [] ∧ s.getLast? ≠ some delimiter then 1 else 0 := by
  induction s using lines_induction delimiter with
  | nil => rw [stringSplit_nil]; rfl
  | last line hne h =>
      have hlast : line.getLast? ≠ some delimiter := fun hlast => h (List.mem_of_getLast? hlast)
      rw [stringSplit_last hne h, if_pos ⟨hne, hlast⟩, List.count_eq_zero.mpr h]
      rfl
  | cons line s h ih =>
      rw [stringSplit_line h, List.length_cons, ih, List.count_append, List.count_eq_zero.mpr h,
        List.count_cons_self]
      by_cases hs : s = []
      · subst hs
        simp
      · rw [getLast?_line hs]
        simp only [hs, ne_eq, not_false_eq_true, true_and, List.append_eq_nil_iff, reduceCtorEq,
          and_false]
        omega

end Lines

/-- No token holds the delimiter; the tokens, joined again, are the string without a delimiter at
its end; and there is a token for each delimiter, and one more if the string goes on behind the
last. -/
theorem stringSplit_lossless (s : List Char) (delimiter : Char) :
    (∀ token ∈ stringSplit s delimiter, delimiter ∉ token) ∧
      ([delimiter].intercalate (stringSplit s delimiter) =
        if s.getLast? = some delimiter then s.dropLast else s) ∧
      (stringSplit s delimiter).length =
        s.count delimiter + if s ≠ [] ∧ s.getLast? ≠ some delimiter then 1 else 0 :=
  ⟨fun _ htoken => not_mem_token htoken, intercalate_stringSplit s delimiter,
    length_stringSplit s delimiter⟩

/-! ## `set_width_and_fill` -/

/-- `std::string::max_size()`. The standard leaves its value to the implementation; what is used of it
is that it is above every `int`, and below every negative `int` that has become a `size_t`. -/
def maxSize : Nat := 2 ^ 63 - 1

/-- The loop. A string that would get longer than `max_size()` throws. -/
def setWidthAndFill (str : List Char) (width : Int) (fill : Char) (fillLeft : Bool) :
    Except String (List Char) :=
  if str.length < sizeT width then
    if str.length < maxSize then
      setWidthAndFill (if fillLeft then fill :: str else str ++ [fill]) width fill fillLeft
    else throw "length_error"
  else pure str
termination_by sizeT width - str.length
decreasing_by
  split <;> simp <;> omega

/-- `str` behind, or before, `n` fill characters. -/
def padBy (n : Nat) (str : List Char) (fill : Char) (fillLeft : Bool) : List Char :=
  if fillLeft then List.replicate n fill ++ str else str ++ List.replicate n fill

section Pad

variable {str : List Char} {width : Int} {fill : Char} {fillLeft : Bool}

theorem length_padBy (n : Nat) (str : List Char) (fill : Char) (fillLeft : Bool) :
    (padBy n str fill fillLeft).length = n + str.length := by
  cases fillLeft with
  | true => rw [padBy, if_pos rfl, List.length_append, List.length_replicate]
  | false =>
      rw [padBy, if_neg Bool.false_ne_true, List.length_append, List.length_replicate, Nat.add_comm]

theorem padBy_zero (str : List Char) (fill : Char) (fillLeft : Bool) :
    padBy 0 str fill fillLeft = str := by
  cases fillLeft <;> simp [padBy]

/-- One turn of the loop. -/
theorem padBy_succ (n : Nat) (str : List Char) (fill : Char) (fillLeft : Bool) :
    padBy n (if fillLeft then fill :: str else str ++ [fill]) fill fillLeft =
      padBy (n + 1) str fill fillLeft := by
  cases fillLeft with
  | true =>
      simp only [padBy, if_true]
      rw [List.replicate_succ', List.append_assoc]
      rfl
  | false =>
      simp only [padBy, if_neg Bool.false_ne_true]
      rw [List.replicate_succ, List.append_assoc]
      rfl

theorem setWidthAndFill_of_le (h : sizeT width ≤ str.length) (fill : Char) (fillLeft : Bool) :
    setWidthAndFill str width fill fillLeft = .ok str := by
  rw [setWidthAndFill, if_neg (Nat.not_lt.mpr h)]
  rfl

/-- A width that fits into a string is reached. -/
theorem setWidthAndFill_eq (hmax : sizeT width ≤ maxSize) (str : List Char) (fill : Char)
    (fillLeft : Bool) : setWidthAndFill str width fill fillLeft =
      .ok (padBy (sizeT width - str.length) str fill fillLeft) := by
  induction hn : sizeT width - str.length generalizing str with
  | zero => rw [setWidthAndFill_of_le (by omega), padBy_zero]
  | succ n ih =>
      rw [setWidthAndFill, if_pos (by omega), if_pos (by omega), ih, padBy_succ]
      split
      · rw [List.length_cons]
        omega
      · rw [List.length_append, List.length_singleton]
        omega

/-- The others are not: the string grows until it cannot grow any more. -/
theorem setWidthAndFill_throws (hwidth : maxSize < sizeT width) (hstr : str.length ≤ maxSize)
    (fill : Char) (fillLeft : Bool) :
    setWidthAndFill str width fill fillLeft = .error "length_error" := by
  induction hn : maxSize - str.length generalizing str with
  | zero =>
      rw [setWidthAndFill, if_pos (by omega), if_neg (by omega)]
      rfl
  | succ n ih =>
      have hlength : (if fillLeft = true then fill :: str else str ++ [fill]).length =
          str.length + 1 := by
        split <;> simp
      rw [setWidthAndFill, if_pos (by omega), if_pos (by omega)]
      exact ih (by omega) (by omega)

end Pad

/-- The loop ends, with a string as long as the longer of `str` and the width, which is `str` and
fill characters on one side of it. -/
def PadsExactly (str : List Char) (width : Int) (fill : Char) (fillLeft : Bool) : Prop :=
  ∃ result, setWidthAndFill str width fill fillLeft = .ok result ∧
    (result.length : Int) = max (str.length : Int) width ∧
    (∃ n, result = padBy n str fill fillLeft) ∧
    (width ≤ str.length → result = str)

/-- A string is padded to an `int` exactly when this is not negative. -/
theorem padsExactly_iff {str : List Char} {width : Int} (hstr : str.length ≤ maxSize)
    (hwidth : -2 ^ 31 ≤ width ∧ width < 2 ^ 31) (fill : Char) (fillLeft : Bool) :
    PadsExactly str width fill fillLeft ↔ 0 ≤ width := by
  constructor
  · intro hpads
    by_contra hneg
    have hsize := sizeT_of_neg (by omega) hwidth.1
    have hhuge : maxSize < sizeT width := by
      unfold maxSize
      omega
    obtain ⟨result, hresult, -⟩ := hpads
    rw [setWidthAndFill_throws hhuge hstr] at hresult
    cases hresult
  · intro hnonneg
    obtain ⟨n, rfl⟩ := Int.eq_ofNat_of_zero_le hnonneg
    have hsize : sizeT n = n := sizeT_ofNat (by omega)
    have hmax : sizeT n ≤ maxSize := by
      rw [hsize]
      unfold maxSize
      omega
    refine ⟨_, setWidthAndFill_eq hmax str fill fillLeft, ?_, ⟨_, rfl⟩, fun hle => ?_⟩
    · rw [length_padBy, hsize]
      omega
    · rw [hsize, Nat.sub_eq_zero_of_le (by omega), padBy_zero]

theorem padsExactly_iff_month : PadsExactly ['7'] 2 '0' true :=
  (padsExactly_iff (by decide) (by decide) '0' true).mpr (by decide)

/-- The width -1 is above every size, and the loop goes on until the string is too long. -/
theorem negative_width_fails : ¬ PadsExactly ['7'] (-1) '0' true := by
  intro hpads
  obtain ⟨result, hresult, -⟩ := hpads
  rw [setWidthAndFill_throws (by decide) (by decide)] at hresult
  cases hresult

end VideoStream
