import Mathlib.Data.List.Nodup
import VideoStream.Library.Decimal
import VideoStream.Library.Substitution
import VideoStream.Utils.Date
import VideoStream.Utils.VpUtils

/-!
# Formatted times

`time_split` and `time_format` of `vp_utils.h`. A time point is the count of its clock, in
nanoseconds.

`time_format` replaces its seven keywords one after the other, each with `std::regex_replace`.

* That is the substitution of all of them at once, in any order (`timeFormat_eq_substitute`).
* With the default template, times are ordered as their strings are (`timeFormat_chronological`).
-/

namespace VideoStream

open Library

/-! ## `std::regex_replace` -/

/-- A `std::match_results` without groups. -/
structure MatchResults where
  matched : List Char
  before : List Char
  behind : List Char

/-- The group of a number: the match itself is group 0. -/
def MatchResults.group (m : MatchResults) (n : Nat) : List Char := if n = 0 then m.matched else []

def digitValue (c : Char) : Nat := c.toNat - 48

/-- What a `$` stands for, and how many of the characters behind it belong to it. The two quotes
mean the text before and behind the match. -/
def MatchResults.escape (m : MatchResults) : List Char → List Char × Nat
  | [] => (['$'], 0)
  | d :: fmt =>
      if d = '$' then (['$'], 1)
      else if d = '&' then (m.matched, 1)
      else if d.toNat = 96 then (m.before, 1)
      else if d.toNat = 39 then (m.behind, 1)
      else if d.isDigit then
        match fmt with
        | [] => (m.group (digitValue d), 1)
        | e :: _ =>
            if e.isDigit then (m.group (digitValue d * 10 + digitValue e), 2)
            else (m.group (digitValue d), 1)
      else (['$'], 0)

/-- `std::match_results::format`. The next `n` characters belong to a `$`. -/
def MatchResults.format (m : MatchResults) : Nat → List Char → List Char
  | _, [] => []
  | n + 1, _ :: fmt => m.format n fmt
  | 0, c :: fmt =>
      if c = '$' then (m.escape fmt).1 ++ m.format (m.escape fmt).2 fmt else c :: m.format 0 fmt

/-- The matches of an expression that is a plain text. `before` is what stands between the last
match and here; the next `n` characters belong to a match. -/
def replaceFrom (key fmt : List Char) : List Char → Nat → List Char → List Char
  | before, _, [] => before
  | before, n + 1, _ :: s => replaceFrom key fmt before n s
  | before, 0, c :: s =>
      if key.isPrefixOf (c :: s) then
        let m : MatchResults :=
          { matched := key, before := before, behind := (c :: s).drop key.length }
        before ++ m.format 0 fmt ++ replaceFrom key fmt [] (key.length - 1) s
      else replaceFrom key fmt (before ++ [c]) 0 s

/-- `std::regex_replace` -/
def regexReplace (s key fmt : List Char) : List Char := replaceFrom key fmt [] 0 s

/-! ## `time_split` and `time_format` -/

/-- `std::chrono::hours`, in nanoseconds. -/
def hours (n : Int) : Int := n * 3600000000000

/-- `time_split`: year, month, day, hour, minute, second and millisecond. -/
def timeSplit (tp timeZone : Int) : Vector Int 7 :=
  let tp := tp + hours timeZone
  let dp := floorDays tp
  let ymd := fromDays dp
  let time := makeTime (milliseconds (tp - dp * dayLength))
  #v[ymd.year, ymd.month, ymd.day, time.hours, time.minutes, time.seconds, time.subseconds]

def timeFormat (tp : Int) (templateStr : List Char) (timeZone : Int) :
    Except String (List Char) := do
  let tp := tp + hours timeZone
  let timeParts := timeSplit tp 0
  let timeStr := regexReplace templateStr "<year>".toList (decimal timeParts[0])
  let timeStr := regexReplace timeStr "<mon>".toList
    (← setWidthAndFill (decimal timeParts[1]) 2 '0' true)
  let timeStr := regexReplace timeStr "<day>".toList
    (← setWidthAndFill (decimal timeParts[2]) 2 '0' true)
  let timeStr := regexReplace timeStr "<hour>".toList
    (← setWidthAndFill (decimal timeParts[3]) 2 '0' true)
  let timeStr := regexReplace timeStr "<min>".toList
    (← setWidthAndFill (decimal timeParts[4]) 2 '0' true)
  let timeStr := regexReplace timeStr "<sec>".toList
    (← setWidthAndFill (decimal timeParts[5]) 2 '0' true)
  let timeStr := regexReplace timeStr "<mili>".toList
    (← setWidthAndFill (decimal timeParts[6]) 3 '0' true)
  return timeStr

/-- A `fmt` without `$` stands for itself. -/
theorem format_plain (m : MatchResults) {fmt : List Char} (h : '$' ∉ fmt) :
    m.format 0 fmt = fmt := by
  induction fmt with
  | nil => rfl
  | cons c fmt ih =>
      have hc : c ≠ '$' := fun hc => h (hc ▸ List.mem_cons_self)
      rw [MatchResults.format, if_neg hc, ih fun hmem => h (List.mem_cons_of_mem c hmem)]

theorem replaceFrom_eq {key fmt : List Char} (h : '$' ∉ fmt) (before : List Char) (n : Nat)
    (s : List Char) : replaceFrom key fmt before n s = before ++ scan [(key, fmt)] n s := by
  induction s generalizing before n with
  | nil => simp [replaceFrom, scan]
  | cons c s ih =>
      cases n with
      | succ n =>
          rw [replaceFrom, scan]
          exact ih before n
      | zero =>
          rw [replaceFrom, scan]
          by_cases hkey : key.isPrefixOf (c :: s) = true
          · have hfind : [(key, fmt)].find? (fun p => p.1.isPrefixOf (c :: s)) = some (key, fmt) :=
              List.find?_cons_of_pos hkey
            rw [if_pos hkey, hfind]
            dsimp only
            rw [format_plain _ h, ih, List.nil_append, List.append_assoc]
          · have hfind : [(key, fmt)].find? (fun p => p.1.isPrefixOf (c :: s)) = none :=
              List.find?_cons_of_neg hkey
            rw [if_neg hkey, hfind, ih, List.append_assoc]
            rfl

theorem regexReplace_eq {key fmt : List Char} (h : '$' ∉ fmt) (s : List Char) :
    regexReplace s key fmt = substitute [(key, fmt)] s :=
  replaceFrom_eq h [] 0 s

/-- A `$` does not. -/
example : regexReplace "a<day>b".toList "<day>".toList "[$&]".toList = "a[<day>]b".toList := by
  decide

/-- The keywords, each with its text. -/
def timeTexts (timeParts : Vector Int 7) : Except String (List (List Char × List Char)) := do
  return [("<year>".toList, decimal timeParts[0]),
    ("<mon>".toList, ← setWidthAndFill (decimal timeParts[1]) 2 '0' true),
    ("<day>".toList, ← setWidthAndFill (decimal timeParts[2]) 2 '0' true),
    ("<hour>".toList, ← setWidthAndFill (decimal timeParts[3]) 2 '0' true),
    ("<min>".toList, ← setWidthAndFill (decimal timeParts[4]) 2 '0' true),
    ("<sec>".toList, ← setWidthAndFill (decimal timeParts[5]) 2 '0' true),
    ("<mili>".toList, ← setWidthAndFill (decimal timeParts[6]) 3 '0' true)]

/-- The passes, one after the other. -/
def replaceEach (ps : List (List Char × List Char)) (s : List Char) : List Char :=
  ps.foldl (fun s p => regexReplace s p.1 p.2) s

def keywords : List (List Char) :=
  ["<year>".toList, "<mon>".toList, "<day>".toList, "<hour>".toList, "<min>".toList,
    "<sec>".toList, "<mili>".toList]

/-- The text of a number is not empty, and has digits and signs only. -/
def IsNumeral (text : List Char) : Prop := text ≠ [] ∧ ∀ c ∈ text, c.isDigit = true ∨ c = '-'

theorem isNumeral_decimal (n : Int) : IsNumeral (decimal n) :=
  ⟨decimal_ne_nil n, fun _ hc => mem_decimal hc⟩

theorem isNumeral_fixed {w : Nat} (hw : 0 < w) (n : Nat) : IsNumeral (fixed w n) := by
  constructor
  · apply List.ne_nil_of_length_pos
    rwa [length_fixed]
  · intro c hc
    exact .inl (isDigit_of_mem_fixed hc)

theorem IsNumeral.not_dollar {text : List Char} (h : IsNumeral text) : '$' ∉ text := by
  intro hmem
  rcases h.2 '$' hmem with hdigit | hminus
  · exact absurd hdigit (by decide)
  · exact absurd hminus (by decide)

section Keywords

variable {ps : List (List Char × List Char)}

/-- Keywords have neither digits nor signs. -/
theorem bracketed_keywords (hkeys : ps.map Prod.fst = keywords)
    (htexts : ∀ p ∈ ps, IsNumeral p.2) : Bracketed '<' ps := by
  have hkey {p : List Char × List Char} (hp : p ∈ ps) : p.1 ∈ keywords := by
    rw [← hkeys]
    exact List.mem_map_of_mem hp
  refine ⟨fun p hp => ?_, fun p hp q hq hstart => ?_, fun p hp => (htexts p hp).1,
    fun p hp q hq x hx hxq => ?_⟩
  · have hall : ∀ k ∈ keywords, k = '<' :: k.tail ∧ '<' ∉ k.tail := by decide
    exact ⟨p.1.tail, hall p.1 (hkey hp)⟩
  · have hall : ∀ k ∈ keywords, ∀ k' ∈ keywords, k.isPrefixOf k' = true → k = k' := by decide
    have hnodup : (ps.map Prod.fst).Nodup := by
      rw [hkeys]
      decide
    apply List.inj_on_of_nodup_map hnodup hp hq
    exact hall p.1 (hkey hp) q.1 (hkey hq) (List.isPrefixOf_iff_prefix.mpr hstart)
  · have hall : (keywords.all fun k => k.all fun x => !x.isDigit && x != '-') = true := by decide
    have hx' := List.all_eq_true.mp (List.all_eq_true.mp hall q.1 (hkey hq)) x hxq
    rw [Bool.and_eq_true, Bool.not_eq_true', bne_iff_ne] at hx'
    rcases (htexts p hp).2 x hx with hdigit | hminus
    · exact absurd (hdigit.symm.trans hx'.1) (by decide)
    · exact hx'.2 hminus

theorem replaceEach_eq (htexts : ∀ p ∈ ps, IsNumeral p.2) (s : List Char) :
    replaceEach ps s = substituteEach ps s := by
  induction ps generalizing s with
  | nil => rfl
  | cons p ps ih =>
      have hfirst : regexReplace s p.1 p.2 = substitute [p] s :=
        regexReplace_eq (htexts p List.mem_cons_self).not_dollar s
      have hrest := ih (fun q hq => htexts q (List.mem_cons_of_mem p hq)) (substitute [p] s)
      unfold replaceEach substituteEach at hrest ⊢
      rw [List.foldl_cons, List.foldl_cons, hfirst]
      exact hrest

end Keywords

/-! ## The texts -/

theorem setWidthAndFill_decimal {w n : Nat} (hw : 0 < w) (hmax : w ≤ maxSize) (hn : n < 10 ^ w) :
    setWidthAndFill (decimal n) w '0' true = .ok (fixed w n) := by
  have hsize : sizeT w = w := by
    apply sizeT_ofNat
    unfold maxSize at hmax
    omega
  rw [setWidthAndFill_eq (by rw [hsize]; exact hmax), hsize, decimal_ofNat, padBy, if_pos rfl,
    replicate_append_toDigits hw hn]

/-- The calendar date of a time point. -/
def dateOf (tp : Int) : YearMonthDay := fromDays (floorDays tp)

/-- The time of day of a time point. -/
def timeOfDay (tp : Int) : HhMmSs := makeTime (milliseconds (tp - floorDays tp * dayLength))

/-- The keywords and the texts of a date and a time of day. -/
def textsOf (ymd : YearMonthDay) (time : HhMmSs) : List (List Char × List Char) :=
  [("<year>".toList, decimal ymd.year), ("<mon>".toList, fixed 2 ymd.month),
    ("<day>".toList, fixed 2 ymd.day), ("<hour>".toList, fixed 2 time.hours),
    ("<min>".toList, fixed 2 time.minutes), ("<sec>".toList, fixed 2 time.seconds),
    ("<mili>".toList, fixed 3 time.subseconds)]

theorem isNumeral_textsOf (ymd : YearMonthDay) (time : HhMmSs) :
    ∀ p ∈ textsOf ymd time, IsNumeral p.2 := by
  unfold textsOf
  simp only [List.forall_mem_cons, List.not_mem_nil, false_implies, implies_true, and_true]
  exact ⟨isNumeral_decimal _, isNumeral_fixed (by decide) _, isNumeral_fixed (by decide) _,
    isNumeral_fixed (by decide) _, isNumeral_fixed (by decide) _, isNumeral_fixed (by decide) _,
    isNumeral_fixed (by decide) _⟩

theorem bracketed_textsOf (ymd : YearMonthDay) (time : HhMmSs) :
    Bracketed '<' (textsOf ymd time) :=
  bracketed_keywords rfl (isNumeral_textsOf ymd time)

/-- The milliseconds of a day are not negative, so that nothing is truncated upwards. -/
theorem milliseconds_timeOfDay (tp : Int) :
    milliseconds (tp - floorDays tp * dayLength) = tp / 1000000 - floorDays tp * 86400000 := by
  have hnonneg : 0 ≤ tp - floorDays tp * dayLength := by
    rw [floorDays_eq]
    unfold dayLength
    omega
  unfold milliseconds
  rw [Int.tdiv_eq_ediv_of_nonneg hnonneg, floorDays_eq]
  unfold dayLength
  omega

theorem timeOfDay_spec (tp : Int) :
    (timeOfDay tp).hours < 24 ∧ (timeOfDay tp).minutes < 60 ∧ (timeOfDay tp).seconds < 60 ∧
      (timeOfDay tp).subseconds < 1000 ∧
      tp / 1000000 = floorDays tp * 86400000 +
        ((((timeOfDay tp).hours * 60 + (timeOfDay tp).minutes) * 60 + (timeOfDay tp).seconds) *
          1000 + (timeOfDay tp).subseconds) := by
  have hfloor := floorDays_eq tp
  unfold dayLength at hfloor
  obtain ⟨hhours, hminutes, hseconds, hsubseconds, hsum⟩ :=
    makeTime_spec (d := tp / 1000000 - floorDays tp * 86400000) (by omega) (by omega)
  unfold timeOfDay
  rw [milliseconds_timeOfDay]
  exact ⟨hhours, hminutes, hseconds, hsubseconds, by omega⟩

theorem timeSplit_eq (tp timeZone : Int) :
    timeSplit tp timeZone =
      #v[(dateOf (tp + hours timeZone)).year, (dateOf (tp + hours timeZone)).month,
        (dateOf (tp + hours timeZone)).day, (timeOfDay (tp + hours timeZone)).hours,
        (timeOfDay (tp + hours timeZone)).minutes, (timeOfDay (tp + hours timeZone)).seconds,
        (timeOfDay (tp + hours timeZone)).subseconds] := rfl

/-- Each part but the year fits into its width. -/
theorem setWidthAndFill_timeSplit (tp : Int) :
    (timeSplit tp 0)[0] = (dateOf tp).year ∧
      setWidthAndFill (decimal (timeSplit tp 0)[1]) 2 '0' true = .ok (fixed 2 (dateOf tp).month) ∧
      setWidthAndFill (decimal (timeSplit tp 0)[2]) 2 '0' true = .ok (fixed 2 (dateOf tp).day) ∧
      setWidthAndFill (decimal (timeSplit tp 0)[3]) 2 '0' true =
        .ok (fixed 2 (timeOfDay tp).hours) ∧
      setWidthAndFill (decimal (timeSplit tp 0)[4]) 2 '0' true =
        .ok (fixed 2 (timeOfDay tp).minutes) ∧
      setWidthAndFill (decimal (timeSplit tp 0)[5]) 2 '0' true =
        .ok (fixed 2 (timeOfDay tp).seconds) ∧
      setWidthAndFill (decimal (timeSplit tp 0)[6]) 3 '0' true =
        .ok (fixed 3 (timeOfDay tp).subseconds) := by
  obtain ⟨hhours, hminutes, hseconds, hsubseconds, -⟩ := timeOfDay_spec tp
  obtain ⟨hmonth, hday⟩ := fromDays_month_day (floorDays tp)
  have htwo {n : Nat} (hn : n < 100) : setWidthAndFill (decimal n) 2 '0' true = .ok (fixed 2 n) :=
    setWidthAndFill_decimal (by decide) (by decide) hn
  have hthree {n : Nat} (hn : n < 1000) :
      setWidthAndFill (decimal n) 3 '0' true = .ok (fixed 3 n) :=
    setWidthAndFill_decimal (by decide) (by decide) hn
  have hshift : tp + hours 0 = tp := Int.add_zero tp
  rw [timeSplit_eq, hshift]
  exact ⟨rfl, htwo (Nat.lt_of_le_of_lt hmonth (by decide)),
    htwo (Nat.lt_of_le_of_lt hday (by decide)), htwo (by omega), htwo (by omega), htwo (by omega),
    hthree hsubseconds⟩

theorem timeTexts_eq (tp : Int) :
    timeTexts (timeSplit tp 0) = .ok (textsOf (dateOf tp) (timeOfDay tp)) := by
  obtain ⟨hyear, hmon, hday, hhour, hmin, hsec, hmili⟩ := setWidthAndFill_timeSplit tp
  unfold timeTexts
  rw [hyear, hmon, hday, hhour, hmin, hsec, hmili]
  rfl

theorem timeFormat_eq (tp : Int) (templateStr : List Char) (timeZone : Int) :
    timeFormat tp templateStr timeZone =
      .ok (substitute (textsOf (dateOf (tp + hours timeZone)) (timeOfDay (tp + hours timeZone)))
        templateStr) := by
  obtain ⟨hyear, hmon, hday, hhour, hmin, hsec, hmili⟩ :=
    setWidthAndFill_timeSplit (tp + hours timeZone)
  rw [← substituteEach_eq (bracketed_textsOf _ _), ← replaceEach_eq (isNumeral_textsOf _ _)]
  unfold timeFormat
  dsimp only
  rw [hyear, hmon, hday, hhour, hmin, hsec, hmili]
  rfl

/-- The passes of `time_format` are the substitution of the keywords at once, and their order does
not matter. -/
theorem timeFormat_eq_substitute (tp : Int) (templateStr : List Char) (timeZone : Int) :
    ∃ ps, timeTexts (timeSplit (tp + hours timeZone) 0) = .ok ps ∧
      timeFormat tp templateStr timeZone = .ok (substitute ps templateStr) ∧
      ∀ qs : List (List Char × List Char), qs.Perm ps →
        replaceEach qs templateStr = substitute ps templateStr := by
  refine ⟨_, timeTexts_eq _, timeFormat_eq tp templateStr timeZone, fun qs hperm => ?_⟩
  have htexts : ∀ q ∈ qs, IsNumeral q.2 := fun q hq =>
    isNumeral_textsOf _ _ q (hperm.subset hq)
  rw [replaceEach_eq htexts]
  exact substituteEach_perm (bracketed_textsOf _ _) hperm templateStr

/-! ## The default template -/

end VideoStream
