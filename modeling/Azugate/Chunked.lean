import Mathlib.Data.List.TakeWhile
import Mathlib.Data.Nat.Digits.Lemmas

/-!
# Numerals and the chunked transfer coding

`numeral` writes a number in a base up to 16, and reading its digits back gives the number
(`foldl_numeral`).

A chunked body is a list of chunks, each with its size in hexadecimal on a line before it,
and a last chunk of size 0. `Chunked.decode` reads a whole body : sizes without extensions, no
trailer, and nothing after the end. It reads a body written from non-empty chunks back to
their bytes (`Chunked.decode_chunks_last`), and it does not take one that was cut short after
a chunk (`Chunked.decode_chunks`).
-/

/-! ## Numerals -/

/-- The digit `d`, in lower case. -/
def digitChar (d : ℕ) : UInt8 :=
  UInt8.ofNat (if d < 10 then 48 + d else 87 + d)

/-- The text of a number in base `b`. -/
def numeral (b n : ℕ) : List UInt8 :=
  if n = 0 then [digitChar 0] else (Nat.digits b n).reverse.map digitChar

/-- Every character of a numeral is a digit of its base. -/
theorem mem_numeral {b n : ℕ} (hb : 1 < b) {c : UInt8} (hc : c ∈ numeral b n) :
    ∃ d < b, c = digitChar d := by
  unfold numeral at hc
  split_ifs at hc with hn
  · exact ⟨0, by omega, List.mem_singleton.1 hc⟩
  · obtain ⟨d, hd, rfl⟩ := List.mem_map.1 hc
    exact ⟨d, Nat.digits_lt_base hb (List.mem_reverse.1 hd), rfl⟩

theorem numeral_ne_nil (b n : ℕ) : numeral b n ≠ [] := by
  unfold numeral
  split_ifs with hn
  · simp
  · simp [Nat.digits_ne_nil_iff_ne_zero.2 hn]

theorem numeral_of_lt {b n : ℕ} (hn : n < b) : numeral b n = [digitChar n] := by
  unfold numeral
  split_ifs with hzero
  · rw [hzero]
  · rw [Nat.digits_of_lt b n hzero hn]
    rfl

/-- The last digit of a numeral stands behind the numeral of the rest. -/
theorem numeral_of_le {b n : ℕ} (hb : 1 < b) (hn : b ≤ n) :
    numeral b n = numeral b (n / b) ++ [digitChar (n % b)] := by
  have hdiv : 0 < n / b := Nat.div_pos hn (by omega)
  rw [numeral, numeral, if_neg (by omega), if_neg hdiv.ne', Nat.digits_def' hb (by omega)]
  simp

/-- A numeral has the digits of its number, and one digit for 0. -/
theorem length_numeral_le_iff {b k : ℕ} (hb : 1 < b) (n : ℕ) :
    (numeral b n).length ≤ k + 1 ↔ n < b ^ (k + 1) := by
  rw [← Nat.digits_length_le_iff hb]
  unfold numeral
  split_ifs with hn
  · simp [hn]
  · rw [List.length_map, List.length_reverse]

theorem numeral_two_digits {b n : ℕ} (hb : 1 < b) (hn : b ≤ n) (hlt : n < b * b) :
    numeral b n = [digitChar (n / b), digitChar (n % b)] := by
  rw [numeral_of_le hb hn, numeral_of_lt (Nat.div_lt_of_lt_mul hlt)]
  rfl

theorem numeral_three_digits {b n : ℕ} (hb : 1 < b) (hn : b * b ≤ n) (hlt : n < b * b * b) :
    numeral b n = [digitChar (n / b / b), digitChar (n / b % b), digitChar (n % b)] := by
  have hle : b ≤ n := (Nat.le_mul_of_pos_left b (by omega)).trans hn
  have hdiv : b ≤ n / b := (Nat.le_div_iff_mul_le (by omega)).2 hn
  have hdivlt : n / b < b * b := Nat.div_lt_of_lt_mul (by rwa [Nat.mul_comm])
  rw [numeral_of_le hb hle, numeral_two_digits hb hdiv hdivlt]
  rfl

/-- Reading the digits of a numeral from left to right gives the number. -/
theorem foldl_numeral {b : ℕ} (hb : 1 < b) {value : UInt8 → ℕ}
    (hvalue : ∀ d < b, value (digitChar d) = d) (n : ℕ) :
    (numeral b n).foldl (fun n c => b * n + value c) 0 = n := by
  unfold numeral
  split_ifs with hn
  · simp [hn, hvalue 0 (by omega)]
  · rw [List.foldl_map, List.foldl_reverse]
    have hfold : ∀ L : List ℕ, (∀ d ∈ L, d < b) →
        L.foldr (fun d n => b * n + value (digitChar d)) 0 = Nat.ofDigits b L := by
      intro L hL
      induction L with
      | nil => rfl
      | cons d L ih =>
        rw [List.foldr_cons, Nat.ofDigits_cons, ih fun d hd => hL d (by simp [hd]),
          hvalue d (hL d (by simp))]
        simp [Nat.add_comm]
    rw [hfold _ fun d hd => Nat.digits_lt_base hb hd, Nat.ofDigits_digits]

namespace Chunked

/-! ## The coding -/

/-- A hexadecimal digit, in either case. -/
def isHexDigit (c : UInt8) : Bool :=
  (48 ≤ c && c ≤ 57) || (65 ≤ c && c ≤ 70) || (97 ≤ c && c ≤ 102)

/-- The value of a hexadecimal digit. -/
def hexValue (c : UInt8) : ℕ :=
  if c ≤ 57 then c.toNat - 48 else if c ≤ 70 then c.toNat - 55 else c.toNat - 87

/-- CR LF. -/
def crlf : List UInt8 := [13, 10]

/-- A chunk with the line of its size. -/
def chunk (data : List UInt8) : List UInt8 :=
  numeral 16 data.length ++ crlf ++ data ++ crlf

/-- The last chunk, of size 0, and the end of the body. -/
def last : List UInt8 := 48 :: (crlf ++ crlf)

/-- The size at the start of a chunk, and what follows its line. -/
def readSize (s : List UInt8) : Option (ℕ × List UInt8) :=
  if s.takeWhile isHexDigit = [] then none
  else if (s.dropWhile isHexDigit).take 2 = crlf then
    some ((s.takeWhile isHexDigit).foldl (fun n c => 16 * n + hexValue c) 0,
      (s.dropWhile isHexDigit).drop 2)
  else none

/-- The bytes of the chunks up to the last one, for at most so many chunks. -/
def decodeChunks : ℕ → List UInt8 → Option (List UInt8)
  | 0, _ => none
  | fuel + 1, s =>
    match readSize s with
    | none => none
    | some (0, rest) => if rest = crlf then some [] else none
    | some (n + 1, rest) =>
      if (rest.drop (n + 1)).take 2 = crlf then
        (decodeChunks fuel (rest.drop (n + 3))).map (rest.take (n + 1) ++ ·)
      else none

/-- The content of a chunked body. -/
def decode (s : List UInt8) : Option (List UInt8) :=
  decodeChunks s.length s

/-! ## Round trip -/

theorem isHexDigit_digitChar : ∀ d < 16, isHexDigit (digitChar d) = true := by
  decide

theorem hexValue_digitChar : ∀ d < 16, hexValue (digitChar d) = d := by
  decide

/-- The size line is read back. -/
theorem readSize_numeral (n : ℕ) (rest : List UInt8) :
    readSize (numeral 16 n ++ crlf ++ rest) = some (n, rest) := by
  have hall : ∀ c ∈ numeral 16 n, isHexDigit c = true := by
    intro c hc
    obtain ⟨d, hd, rfl⟩ := mem_numeral (by decide) hc
    exact isHexDigit_digitChar d hd
  have htake : (numeral 16 n ++ crlf ++ rest).takeWhile isHexDigit = numeral 16 n := by
    rw [List.append_assoc, List.takeWhile_append_of_pos hall]
    simp [crlf, isHexDigit]
  have hdrop : (numeral 16 n ++ crlf ++ rest).dropWhile isHexDigit = crlf ++ rest := by
    rw [List.append_assoc, List.dropWhile_append_of_pos hall]
    simp [crlf, isHexDigit]
  rw [readSize, htake, hdrop, if_neg (numeral_ne_nil 16 n), if_pos (by simp [crlf]),
    foldl_numeral (by decide) hexValue_digitChar]
  simp [crlf]

theorem decodeChunks_chunk {data : List UInt8} (hdata : data ≠ []) (fuel : ℕ)
    (rest : List UInt8) :
    decodeChunks (fuel + 1) (chunk data ++ rest) =
      (decodeChunks fuel rest).map (data ++ ·) := by
  obtain ⟨n, hn⟩ : ∃ n, data.length = n + 1 :=
    Nat.exists_eq_add_of_le' (List.length_pos_iff.2 hdata)
  have hsize : readSize (chunk data ++ rest) = some (n + 1, data ++ (crlf ++ rest)) := by
    rw [← hn, ← readSize_numeral data.length]
    simp [chunk]
  have hdrop : (data ++ (crlf ++ rest)).drop (n + 1) = crlf ++ rest := by
    rw [← hn, List.drop_left]
  have hnext : (data ++ (crlf ++ rest)).drop (n + 3) = rest := by
    rw [show n + 3 = (n + 1) + 2 from rfl, ← List.drop_drop, hdrop]
    simp [crlf]
  have htake : (data ++ (crlf ++ rest)).take (n + 1) = data := by
    rw [← hn, List.take_left]
  simp only [decodeChunks, hsize, hdrop, hnext, htake]
  simp [crlf]

theorem decodeChunks_chunks (fuel : ℕ) (rest : List UInt8) :
    ∀ chunks : List (List UInt8), (∀ c ∈ chunks, c ≠ []) →
      decodeChunks (chunks.length + fuel) (chunks.flatMap chunk ++ rest) =
        (decodeChunks fuel rest).map (chunks.flatten ++ ·)
  | [], _ => by simp
  | c :: chunks, h => by
    rw [List.length_cons, Nat.add_right_comm, List.flatMap_cons, List.append_assoc,
      decodeChunks_chunk (h c (by simp)),
      decodeChunks_chunks fuel rest chunks fun d hd => h d (by simp [hd])]
    simp [Function.comp_def]

/-- A body is at least as long as it has chunks. -/
theorem length_le_chunks : ∀ chunks : List (List UInt8),
    chunks.length ≤ (chunks.flatMap chunk).length
  | [] => by simp
  | c :: chunks => by
    have ih := length_le_chunks chunks
    simp only [List.flatMap_cons, List.length_append, List.length_cons, chunk, crlf]
    omega

/-- A body of non-empty chunks is read back. -/
theorem decode_chunks_last {chunks : List (List UInt8)} (h : ∀ c ∈ chunks, c ≠ []) :
    decode (chunks.flatMap chunk ++ last) = some chunks.flatten := by
  have hlen := length_le_chunks chunks
  obtain ⟨fuel, hfuel⟩ : ∃ fuel, (chunks.flatMap chunk ++ last).length =
      chunks.length + (fuel + 1) := by
    refine ⟨(chunks.flatMap chunk).length - chunks.length + 4, ?_⟩
    simp only [List.length_append, last, crlf, List.length_cons, List.length_nil]
    omega
  have hlast : decodeChunks (fuel + 1) last = some [] := by
    simp [decodeChunks, readSize, last, crlf, isHexDigit, hexValue]
  rw [decode, hfuel, decodeChunks_chunks _ _ _ h, hlast]
  simp

/-- A body that ends after a chunk that is not the last is not taken. -/
theorem decode_chunks {chunks : List (List UInt8)} (h : ∀ c ∈ chunks, c ≠ []) :
    decode (chunks.flatMap chunk) = none := by
  obtain ⟨fuel, hfuel⟩ := Nat.exists_eq_add_of_le (length_le_chunks chunks)
  have hnil : decodeChunks fuel [] = none := by
    cases fuel with
    | zero => rfl
    | succ fuel => simp [decodeChunks, readSize]
  rw [decode, hfuel, ← List.append_nil (chunks.flatMap chunk), decodeChunks_chunks _ _ _ h, hnil]
  rfl

/-- A body that does not start with a size is not taken. -/
theorem decode_of_not_hex {c : UInt8} (hc : isHexDigit c = false) (s : List UInt8) :
    decode (c :: s) = none := by
  simp [decode, decodeChunks, readSize, hc]

end Chunked
