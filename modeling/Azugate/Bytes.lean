import Mathlib.Data.List.Infix
import Mathlib.Data.List.TakeWhile
import Mathlib.Data.Nat.Notation
import Mathlib.Tactic.NormNum

/-!
# Byte strings and sizes

The model of `std::string`, `std::string_view` and Go's `string` : a list of bytes, with
the library functions the gateway calls on them. `charAt` is `operator[]`. It yields NUL
at the end of the string. Past the end the standard leaves it undefined, and the model
takes as a parameter what the memory there holds. A `size_t` is a number below `sizeMod`.
-/

namespace Azugate

/-- The bytes of a string. -/
abbrev Str := List UInt8

/-- An ASCII literal of the source. -/
def lit (s : String) : Str :=
  s.toList.map fun c => UInt8.ofNat c.toNat

/-- The character `'/'`. -/
def slash : UInt8 := 47

/-- `'.'`. -/
def dot : UInt8 := 46

/-- `':'`. -/
def colon : UInt8 := 58

/-- `'\r'`. -/
def cr : UInt8 := 13

/-- `'\n'`. -/
def lf : UInt8 := 10

/-- `' '`. -/
def space : UInt8 := 32

/-- `s[i]`, with `past` the memory past the terminating NUL. -/
def charAt (past : ℕ → UInt8) (s : Str) (i : ℕ) : UInt8 :=
  if i = s.length then 0 else (s[i]?).getD (past i)

theorem charAt_of_lt (past : ℕ → UInt8) {s : Str} {i : ℕ} (h : i < s.length) :
    charAt past s i = s[i] := by
  simp [charAt, h.ne, List.getElem?_eq_getElem h]

theorem charAt_of_length_lt (past : ℕ → UInt8) {s : Str} {i : ℕ} (h : s.length < i) :
    charAt past s i = past i := by
  simp [charAt, h.ne', List.getElem?_eq_none h.le]

/-- `std::tolower` of one byte in the C locale. -/
def tolower (c : UInt8) : UInt8 :=
  if 65 ≤ c ∧ c ≤ 90 then c + 32 else c

/-- `utils::toLower`. -/
def toLower (s : Str) : Str :=
  s.map tolower

/-- `find(pat)` : the first position of `pat` in the string. -/
def find (pat : Str) : Str → Option ℕ
  | [] => if pat.isEmpty then some 0 else none
  | c :: cs => if pat.isPrefixOf (c :: cs) then some 0 else (find pat cs).map (· + 1)

/-! ## Finding -/

/-- A character is found behind a text without it. -/
theorem find_singleton_append {c : UInt8} {w : Str} (hw : c ∉ w) (rest : Str) :
    find [c] (w ++ c :: rest) = some w.length := by
  induction w with
  | nil => simp [find]
  | cons x w ih =>
    obtain ⟨hx, hw⟩ := not_or.1 (mt List.mem_cons.2 hw)
    simp [find, ih hw, hx]

theorem find_singleton_of_notMem {c : UInt8} {s : Str} (hs : c ∉ s) : find [c] s = none := by
  induction s with
  | nil => rfl
  | cons x s ih =>
    obtain ⟨hx, hs⟩ := not_or.1 (mt List.mem_cons.2 hs)
    simp [find, ih hs, hx]

theorem add_length_le_of_find {pat s : Str} {pos : ℕ} (h : find pat s = some pos) :
    pos + pat.length ≤ s.length := by
  induction s generalizing pos with
  | nil =>
    rw [find, Option.ite_none_right_eq_some, List.isEmpty_iff] at h
    obtain ⟨rfl, hpos⟩ := h
    exact (Option.some.inj hpos).symm.le
  | cons c s ih =>
    rw [find] at h
    split_ifs at h with hhead
    · rw [← Option.some.inj h, Nat.zero_add]
      exact (List.isPrefixOf_iff_prefix.1 hhead).length_le
    · obtain ⟨pos, hpos, rfl⟩ := Option.map_eq_some_iff.1 h
      have := ih hpos
      rw [List.length_cons]
      omega

/-- A text with a character that is not in the pattern : the pattern is found before it, or else
after it. -/
theorem find_append_cons {pat : Str} (hne : pat ≠ []) {sep : UInt8} (hsep : sep ∉ pat)
    (s rest : Str) :
    find pat (s ++ sep :: rest) =
      (find pat s).or ((find pat rest).map (· + (s.length + 1))) := by
  have hhead : ∀ w : Str, pat.isPrefixOf (w ++ sep :: rest) = pat.isPrefixOf w := by
    intro w
    rw [Bool.eq_iff_iff, List.isPrefixOf_iff_prefix, List.isPrefixOf_iff_prefix]
    refine ⟨fun h => ?_, fun h => h.trans (List.prefix_append w _)⟩
    rcases List.prefix_or_prefix_of_prefix h (List.prefix_append w (sep :: rest)) with hw | hw
    · exact hw
    · obtain ⟨tail, rfl⟩ := hw
      rw [List.prefix_append_right_inj] at h
      cases tail with
      | nil => simp
      | cons c tail =>
        obtain ⟨rfl, -⟩ := List.cons_prefix_cons.1 h
        exact absurd (by simp) hsep
  induction s with
  | nil =>
    have hnil : find pat [] = none := if_neg (by simpa using hne)
    have hnot : pat.isPrefixOf (sep :: rest) = false := by
      obtain ⟨c, pat, rfl⟩ := List.exists_cons_of_ne_nil hne
      exact hhead []
    rw [hnil, Option.none_or, List.nil_append, find, hnot]
    rfl
  | cons c s ih =>
    have hcons := hhead (c :: s)
    rw [List.cons_append] at hcons
    rw [List.cons_append, find, find, hcons, ih]
    split_ifs
    · rfl
    · cases find pat s with
      | some pos => rfl
      | none =>
        simp only [Option.none_or, Option.map_none, Option.map_map]
        rfl

/-- Where a character is found, the text is cut by its first occurrence. -/
theorem find_singleton_eq_some {c : UInt8} {s : Str} {pos : ℕ} (h : find [c] s = some pos) :
    ∃ w rest, s = w ++ c :: rest ∧ c ∉ w ∧ pos = w.length := by
  by_cases hc : c ∈ s
  · obtain ⟨w, rest, rfl, hw⟩ := List.eq_append_cons_of_mem hc
    rw [find_singleton_append hw, Option.some.injEq] at h
    exact ⟨w, rest, rfl, hw, h.symm⟩
  · rw [find_singleton_of_notMem hc] at h
    cases h

theorem find_singleton_eq_none {c : UInt8} {s : Str} (h : find [c] s = none) : c ∉ s := by
  intro hc
  obtain ⟨w, rest, rfl, hw⟩ := List.eq_append_cons_of_mem hc
  rw [find_singleton_append hw] at h
  cases h

/-- The texts before and after the first `c`. -/
def cutAt (c : UInt8) (s : Str) : Option (Str × Str) :=
  if c ∈ s then some (s.takeWhile (· != c), (s.dropWhile (· != c)).drop 1) else none

theorem cutAt_append {c : UInt8} {w : Str} (hw : c ∉ w) (rest : Str) :
    cutAt c (w ++ c :: rest) = some (w, rest) := by
  have hall : ∀ x ∈ w, (x != c) = true := fun x hx => bne_iff_ne.2 fun h => hw (h ▸ hx)
  rw [cutAt, if_pos (by simp), List.takeWhile_append_of_pos hall, List.dropWhile_append_of_pos hall]
  simp

/-- Cutting at the position `find` gives. -/
theorem cutAt_eq (c : UInt8) (s : Str) :
    cutAt c s = (find [c] s).map fun pos => (s.take pos, s.drop (pos + 1)) := by
  by_cases hc : c ∈ s
  · obtain ⟨w, rest, rfl, hw⟩ := List.eq_append_cons_of_mem hc
    rw [cutAt_append hw, find_singleton_append hw]
    simp
  · rw [cutAt, if_neg hc, find_singleton_of_notMem hc]
    rfl

/-! ## Numbers -/

/-- A decimal digit. -/
def isDigit (c : UInt8) : Bool :=
  48 ≤ c && c ≤ 57

/-- The number a string of decimal digits denotes. -/
def decimal (s : Str) : ℕ :=
  s.foldl (fun n c => 10 * n + (c.toNat - 48)) 0

/-- `std::from_chars` into a `size_t` : the longest leading run of digits. It fails on an
empty run and on a number that does not fit. -/
def fromChars (s : Str) : Option ℕ :=
  let digits := s.takeWhile isDigit
  if digits.isEmpty then none
  else if decimal digits < 2 ^ 64 then some (decimal digits) else none

/-- A string of digits only is read to its end. -/
theorem fromChars_of_digits {s : Str} {n : ℕ} (hs : s.all isDigit) (h : fromChars s = some n) :
    n = decimal s := by
  have htake : s.takeWhile isDigit = s :=
    List.takeWhile_eq_self_iff.2 fun c hc => List.all_eq_true.1 hs c hc
  rw [fromChars, htake] at h
  simp only [Option.ite_none_left_eq_some, Option.ite_none_right_eq_some,
    Option.some.injEq] at h
  exact h.2.2.symm

/-- A number that fits and has nothing after its digits is read. -/
theorem fromChars_eq_some {s : Str} (hne : s ≠ []) (hs : s.all isDigit)
    (hlt : decimal s < 2 ^ 64) : fromChars s = some (decimal s) := by
  have htake : s.takeWhile isDigit = s :=
    List.takeWhile_eq_self_iff.2 fun c hc => List.all_eq_true.1 hs c hc
  rw [fromChars, htake, if_neg (by simpa using hne), if_pos hlt]

/-- The values of a `size_t` are the numbers below. -/
def sizeMod : ℕ := 18446744073709551616

theorem sizeMod_eq : sizeMod = 2 ^ 64 := by
  norm_num [sizeMod]

theorem fromChars_lt {s : Str} {n : ℕ} (h : fromChars s = some n) : n < sizeMod := by
  simp only [fromChars, Option.ite_none_left_eq_some, Option.ite_none_right_eq_some,
    Option.some.injEq] at h
  obtain ⟨-, hlt, rfl⟩ := h
  rwa [sizeMod_eq]

/-- `from_chars` fails on no digits and on a number that does not fit. -/
theorem fromChars_eq_none_iff (s : Str) :
    fromChars s = none ↔ s.takeWhile isDigit = [] ∨ sizeMod ≤ decimal (s.takeWhile isDigit) := by
  rw [sizeMod_eq, fromChars]
  by_cases hdigits : s.takeWhile isDigit = []
  · simp [hdigits]
  · simp [hdigits]

/-- `utils::HashConstantString`. A `char` is signed, so a byte from 128 on is negative. -/
def hashConstantString (s : Str) : UInt32 :=
  s.foldl (fun hash c => hash * 31 + c.toInt8.toInt32.toUInt32) 0

end Azugate
