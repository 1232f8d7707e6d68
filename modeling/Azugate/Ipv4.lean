import Azugate.Chunked
import Azugate.Server
import Mathlib.Computability.RegularExpressions

/-!
# Texts of IPv4 addresses

`isValidIpv4` is a full match of a regular expression, for which Mathlib has the meaning and a
decision. The expression has five alternatives for a number up to 255, and the one for two digits
takes a zero in front (`mem_octetPattern`). Peer addresses have no such zeros, and `isValidIpv4_iff`
says on which strings the match agrees with the texts of addresses. On the blacklist, a string on
which it does not agree keeps no peer out (`Incoming.filter_of_hasLeadingZero`).
-/

namespace Azugate

/-! ## The pattern -/

/-- The class `[lo-hi]` of decimal digits. -/
def digitClass (lo hi : ℕ) : RegularExpression UInt8 :=
  ((List.range' lo (hi + 1 - lo)).map fun d => .char (digitChar d)).sum

/-- `25[0-5]|2[0-4][0-9]|1[0-9][0-9]|[0-9][0-9]|[0-9]`. -/
def octetPattern : RegularExpression UInt8 :=
  .char 50 * .char 53 * digitClass 0 5 + .char 50 * digitClass 0 4 * digitClass 0 9 +
    .char 49 * digitClass 0 9 * digitClass 0 9 + digitClass 0 9 * digitClass 0 9 + digitClass 0 9

/-- `ipv4Pattern` : a number, and three times `\.` and a number. -/
def ipv4Pattern : RegularExpression UInt8 :=
  octetPattern * (.char dot * octetPattern) ^ 3

/-- `isValidIpv4`. -/
def isValidIpv4 (ipv4Address : Str) : Bool :=
  ipv4Pattern.rmatch ipv4Address

/-! ## Addresses -/

/-- The dotted decimal text of an address. -/
def ipv4Text (address : UInt32) : Str :=
  [dot].intercalate [numeral 10 (address.toNat / 2 ^ 24), numeral 10 (address.toNat / 2 ^ 16 % 256),
    numeral 10 (address.toNat / 2 ^ 8 % 256), numeral 10 (address.toNat % 256)]

/-- The text of a number up to 255, without leading zeros. -/
def IsOctet (part : Str) : Prop :=
  ∃ n < 256, part = numeral 10 n

/-- A zero and a digit. -/
def IsZeroPadded (part : Str) : Prop :=
  ∃ d < 10, part = [digitChar 0, digitChar d]

/-! ## The numbers the pattern takes -/

theorem mem_matches_sum {α : Type} (patterns : List (RegularExpression α)) (x : List α) :
    x ∈ patterns.sum.matches' ↔ ∃ pattern ∈ patterns, x ∈ pattern.matches' := by
  induction patterns with
  | nil => simp [Language.notMem_zero]
  | cons pattern patterns ih =>
    rw [List.sum_cons, RegularExpression.matches'_add, Language.mem_add, ih]
    simp

theorem mem_digitClass {lo hi : ℕ} {x : Str} :
    x ∈ (digitClass lo hi).matches' ↔ ∃ d, lo ≤ d ∧ d ≤ hi ∧ x = [digitChar d] := by
  rw [digitClass, mem_matches_sum]
  constructor
  · rintro ⟨pattern, hpattern, hx⟩
    obtain ⟨d, hd, rfl⟩ := List.mem_map.1 hpattern
    have hrange := List.mem_range'_1.1 hd
    exact ⟨d, hrange.1, by omega, hx⟩
  · rintro ⟨d, hlo, hhi, rfl⟩
    exact ⟨_, List.mem_map_of_mem (List.mem_range'_1.2 (by omega)), rfl⟩

/-- The five alternatives. -/
theorem mem_octetPattern_cases {x : Str} :
    x ∈ octetPattern.matches' ↔
      (∃ d ≤ 5, x = [50, 53, digitChar d]) ∨
      (∃ d ≤ 4, ∃ e ≤ 9, x = [50, digitChar d, digitChar e]) ∨
      (∃ d ≤ 9, ∃ e ≤ 9, x = [49, digitChar d, digitChar e]) ∨
      (∃ d ≤ 9, ∃ e ≤ 9, x = [digitChar d, digitChar e]) ∨
      ∃ d ≤ 9, x = [digitChar d] := by
  have hchar : ∀ (c : UInt8) (y : Str), y ∈ ({[c]} : Language UInt8) ↔ y = [c] := fun _ _ => Iff.rfl
  simp only [octetPattern, RegularExpression.matches'_add, RegularExpression.matches'_mul,
    RegularExpression.matches'_char, Language.mem_add, Language.mem_mul, mem_digitClass, hchar]
  simp [or_assoc, @eq_comm _ x]

theorem isOctet_of_two_digits {d e : ℕ} (hd : 1 ≤ d) (hd9 : d ≤ 9) (he : e ≤ 9) :
    IsOctet [digitChar d, digitChar e] := by
  have hdiv : (10 * d + e) / 10 = d := by omega
  have hmod : (10 * d + e) % 10 = e := by omega
  refine ⟨10 * d + e, by omega, ?_⟩
  rw [numeral_two_digits (by decide) (by omega) (by omega), hdiv, hmod]

theorem isOctet_of_three_digits {a d e : ℕ} (ha : 1 ≤ a) (hd : d ≤ 9) (he : e ≤ 9)
    (hlt : 100 * a + 10 * d + e < 256) : IsOctet [digitChar a, digitChar d, digitChar e] := by
  have hhundreds : (100 * a + 10 * d + e) / 10 / 10 = a := by omega
  have htens : (100 * a + 10 * d + e) / 10 % 10 = d := by omega
  have hmod : (100 * a + 10 * d + e) % 10 = e := by omega
  refine ⟨100 * a + 10 * d + e, hlt, ?_⟩
  rw [numeral_three_digits (by decide) (by omega) (by omega), hhundreds, htens, hmod]

/-- The digits of a number up to 255. -/
theorem IsOctet.digits {x : Str} (hx : IsOctet x) :
    (∃ d ≤ 9, x = [digitChar d]) ∨
    (∃ d e, 1 ≤ d ∧ d ≤ 9 ∧ e ≤ 9 ∧ x = [digitChar d, digitChar e]) ∨
    ∃ a d e, 1 ≤ a ∧ d ≤ 9 ∧ e ≤ 9 ∧ 100 * a + 10 * d + e < 256 ∧
      x = [digitChar a, digitChar d, digitChar e] := by
  obtain ⟨n, hn, rfl⟩ := hx
  by_cases h10 : n < 10
  · exact Or.inl ⟨n, by omega, numeral_of_lt h10⟩
  by_cases h100 : n < 100
  · exact Or.inr (Or.inl ⟨n / 10, n % 10, by omega, by omega, by omega,
      numeral_two_digits (by decide) (by omega) h100⟩)
  · exact Or.inr (Or.inr ⟨n / 10 / 10, n / 10 % 10, n % 10, by omega, by omega, by omega, by omega,
      numeral_three_digits (by decide) (by omega) (by omega)⟩)

/-- The pattern takes the numbers up to 255 and a digit behind a zero. -/
theorem mem_octetPattern {x : Str} :
    x ∈ octetPattern.matches' ↔ IsOctet x ∨ IsZeroPadded x := by
  rw [mem_octetPattern_cases]
  constructor
  · rintro (⟨d, hd, rfl⟩ | ⟨d, hd, e, he, rfl⟩ | ⟨d, hd, e, he, rfl⟩ | ⟨d, hd, e, he, rfl⟩ |
      ⟨d, hd, rfl⟩)
    · exact Or.inl (isOctet_of_three_digits (a := 2) (d := 5) (by omega) (by omega) (by omega)
        (by omega))
    · exact Or.inl (isOctet_of_three_digits (a := 2) (by omega) (by omega) (by omega) (by omega))
    · exact Or.inl (isOctet_of_three_digits (a := 1) (by omega) (by omega) (by omega) (by omega))
    · rcases Nat.eq_zero_or_pos d with rfl | hpos
      · exact Or.inr ⟨e, by omega, rfl⟩
      · exact Or.inl (isOctet_of_two_digits hpos hd he)
    · exact Or.inl ⟨d, by omega, (numeral_of_lt (by omega)).symm⟩
  · rintro (hx | ⟨d, hd, rfl⟩)
    · rcases hx.digits with ⟨d, hd, rfl⟩ | ⟨d, e, -, hd, he, rfl⟩ | ⟨a, d, e, ha, hd, he, hlt, rfl⟩
      · exact Or.inr (Or.inr (Or.inr (Or.inr ⟨d, hd, rfl⟩)))
      · exact Or.inr (Or.inr (Or.inr (Or.inl ⟨d, hd, e, he, rfl⟩)))
      · obtain rfl | rfl : a = 1 ∨ a = 2 := by omega
        · exact Or.inr (Or.inr (Or.inl ⟨d, hd, e, he, rfl⟩))
        · rcases Nat.lt_or_ge d 5 with hd5 | hd5
          · exact Or.inr (Or.inl ⟨d, by omega, e, he, rfl⟩)
          · obtain rfl : d = 5 := by omega
            exact Or.inl ⟨e, by omega, rfl⟩
    · exact Or.inr (Or.inr (Or.inr (Or.inl ⟨0, by omega, d, by omega, rfl⟩)))

/-- No number is written with a zero in front. -/
theorem not_isOctet_of_isZeroPadded {x : Str} (hx : IsZeroPadded x) : ¬IsOctet x := by
  have hdigit : ∀ d ≤ 9, digitChar d = digitChar 0 → d = 0 := by decide
  obtain ⟨e, -, rfl⟩ := hx
  intro hoctet
  rcases hoctet.digits with ⟨d, -, h⟩ | ⟨d, f, hpos, hd, -, h⟩ | ⟨a, d, f, -, -, -, -, h⟩
  · exact absurd (congrArg List.length h) (by simp)
  · have hzero := hdigit d hd (List.cons.inj h).1.symm
    omega
  · exact absurd (congrArg List.length h) (by simp)

/-! ## The parts between the dots -/

theorem dot_notMem_octetPattern {x : Str} (hx : x ∈ octetPattern.matches') : dot ∉ x := by
  have hdigit : ∀ d < 10, dot ≠ digitChar d := by decide
  rcases mem_octetPattern.1 hx with ⟨n, -, rfl⟩ | ⟨d, hd, rfl⟩
  · intro hdot
    obtain ⟨d, hd, heq⟩ := mem_numeral (by decide) hdot
    exact hdigit d hd heq
  · simp [hdigit 0 (by decide), hdigit d hd]

theorem intercalate_cons_eq_flatMap (c : UInt8) (x : Str) (xs : List Str) :
    [c].intercalate (x :: xs) = x ++ xs.flatMap (c :: ·) := by
  induction xs generalizing x with
  | nil => simp
  | cons y xs ih =>
    rw [List.intercalate_cons_cons, ih y]
    simp

/-- Numbers with dots before them. -/
theorem exists_map_of_mem_dot {groups : List Str}
    (hgroups : ∀ g ∈ groups, g ∈ (RegularExpression.char dot * octetPattern).matches') :
    ∃ xs : List Str, groups = xs.map (dot :: ·) ∧ ∀ x ∈ xs, x ∈ octetPattern.matches' := by
  induction groups with
  | nil => exact ⟨[], rfl, by simp⟩
  | cons g groups ih =>
    obtain ⟨hg, hgroups⟩ := List.forall_mem_cons.1 hgroups
    obtain ⟨xs, rfl, hxs⟩ := ih hgroups
    obtain ⟨w, hw, x, hx, rfl⟩ := Language.mem_mul.1 hg
    obtain rfl : w = [dot] := hw
    exact ⟨x :: xs, rfl, List.forall_mem_cons.2 ⟨hx, hxs⟩⟩

/-- A full match is four numbers between dots. -/
theorem isValidIpv4_eq_true_iff (s : Str) :
    isValidIpv4 s = true ↔ (s.splitOn dot).length = 4 ∧
      ∀ part ∈ s.splitOn dot, IsOctet part ∨ IsZeroPadded part := by
  rw [isValidIpv4, RegularExpression.rmatch_iff_matches', ipv4Pattern,
    RegularExpression.matches'_mul, RegularExpression.matches'_pow, Language.mem_mul]
  simp only [Language.mem_pow, ← mem_octetPattern]
  constructor
  · rintro ⟨x, hx, rest, ⟨groups, rfl, hlength, hgroups⟩, rfl⟩
    obtain ⟨xs, rfl, hxs⟩ := exists_map_of_mem_dot hgroups
    have hall : ∀ y ∈ x :: xs, y ∈ octetPattern.matches' := List.forall_mem_cons.2 ⟨hx, hxs⟩
    have hparts : (x ++ (xs.map (dot :: ·)).flatten).splitOn dot = x :: xs := by
      rw [← List.flatMap_def, ← intercalate_cons_eq_flatMap]
      exact List.splitOn_intercalate dot (fun y hy => dot_notMem_octetPattern (hall y hy)) (by simp)
    rw [hparts, List.length_cons]
    rw [List.length_map] at hlength
    exact ⟨by omega, hall⟩
  · rintro ⟨hlength, hparts⟩
    obtain ⟨x, xs, hcons⟩ := List.exists_cons_of_length_eq_add_one hlength
    have hs : x ++ (xs.map (dot :: ·)).flatten = s := by
      rw [← List.flatMap_def, ← intercalate_cons_eq_flatMap, ← hcons, List.intercalate_splitOn]
    rw [hcons] at hparts hlength
    obtain ⟨hx, hxs⟩ := List.forall_mem_cons.1 hparts
    refine ⟨x, hx, _, ⟨xs.map (dot :: ·), rfl, ?_, fun g hg => ?_⟩, hs⟩
    · rw [List.length_map]
      rw [List.length_cons] at hlength
      omega
    · obtain ⟨y, hy, rfl⟩ := List.mem_map.1 hg
      exact Language.mem_mul.2 ⟨[dot], rfl, y, hxs y hy, rfl⟩

theorem dot_notMem_of_isOctet {x : Str} (hx : IsOctet x) : dot ∉ x :=
  dot_notMem_octetPattern (mem_octetPattern.2 (Or.inl hx))

/-- The text of an address is four numbers without leading zeros between dots. -/
theorem exists_ipv4Text_iff (s : Str) :
    (∃ address, s = ipv4Text address) ↔
      (s.splitOn dot).length = 4 ∧ ∀ part ∈ s.splitOn dot, IsOctet part := by
  constructor
  · rintro ⟨address, rfl⟩
    have hlt := address.toNat_lt
    have hall : ∀ part ∈ [numeral 10 (address.toNat / 2 ^ 24),
        numeral 10 (address.toNat / 2 ^ 16 % 256), numeral 10 (address.toNat / 2 ^ 8 % 256),
        numeral 10 (address.toNat % 256)], IsOctet part := by
      simp only [List.forall_mem_cons, List.not_mem_nil, false_imp_iff, implies_true, and_true]
      exact ⟨⟨_, by omega, rfl⟩, ⟨_, by omega, rfl⟩, ⟨_, by omega, rfl⟩, ⟨_, by omega, rfl⟩⟩
    rw [ipv4Text, List.splitOn_intercalate dot (fun y hy => dot_notMem_of_isOctet (hall y hy))
      (by simp)]
    exact ⟨rfl, hall⟩
  · rintro ⟨hlength, hall⟩
    obtain ⟨a, b, c, d, hparts⟩ := List.length_eq_four.1 hlength
    have hs : [dot].intercalate (s.splitOn dot) = s := List.intercalate_splitOn dot
    rw [hparts] at hall hs
    simp only [List.forall_mem_cons] at hall
    obtain ⟨⟨na, hna, rfl⟩, ⟨nb, hnb, rfl⟩, ⟨nc, hnc, rfl⟩, ⟨nd, hnd, rfl⟩, -⟩ := hall
    have hnat : (UInt32.ofNat (na * 2 ^ 24 + nb * 2 ^ 16 + nc * 2 ^ 8 + nd)).toNat =
        na * 2 ^ 24 + nb * 2 ^ 16 + nc * 2 ^ 8 + nd := by
      rw [UInt32.toNat_ofNat']
      exact Nat.mod_eq_of_lt (by omega)
    have ha : (na * 2 ^ 24 + nb * 2 ^ 16 + nc * 2 ^ 8 + nd) / 2 ^ 24 = na := by omega
    have hb : (na * 2 ^ 24 + nb * 2 ^ 16 + nc * 2 ^ 8 + nd) / 2 ^ 16 % 256 = nb := by omega
    have hc : (na * 2 ^ 24 + nb * 2 ^ 16 + nc * 2 ^ 8 + nd) / 2 ^ 8 % 256 = nc := by omega
    have hd : (na * 2 ^ 24 + nb * 2 ^ 16 + nc * 2 ^ 8 + nd) % 256 = nd := by omega
    refine ⟨UInt32.ofNat (na * 2 ^ 24 + nb * 2 ^ 16 + nc * 2 ^ 8 + nd), ?_⟩
    rw [ipv4Text, hnat, ha, hb, hc, hd, hs]

/-! ## Leading zeros -/

/-- Four parts between dots that the pattern takes, one of them a digit behind a zero. -/
def HasLeadingZero (s : Str) : Prop :=
  (s.splitOn dot).length = 4 ∧ (∀ part ∈ s.splitOn dot, IsOctet part ∨ IsZeroPadded part) ∧
    ∃ part ∈ s.splitOn dot, IsZeroPadded part

theorem not_ipv4Text_of_hasLeadingZero {s : Str} (hs : HasLeadingZero s) :
    ¬∃ address, s = ipv4Text address := by
  obtain ⟨-, -, part, hpart, hzero⟩ := hs
  rw [exists_ipv4Text_iff]
  rintro ⟨-, hall⟩
  exact not_isOctet_of_isZeroPadded hzero (hall part hpart)

/-- The match agrees with the texts of addresses exactly on the strings without a leading zero of
this kind. -/
theorem isValidIpv4_iff (s : Str) :
    (isValidIpv4 s = true ↔ ∃ address, s = ipv4Text address) ↔ ¬HasLeadingZero s := by
  constructor
  · intro hagrees hs
    have hvalid := (isValidIpv4_eq_true_iff s).2 ⟨hs.1, hs.2.1⟩
    exact not_ipv4Text_of_hasLeadingZero hs (hagrees.1 hvalid)
  · intro hno
    rw [isValidIpv4_eq_true_iff, exists_ipv4Text_iff]
    refine and_congr_right fun hlength => ⟨fun hparts part hpart => ?_, fun hparts part hpart =>
      Or.inl (hparts part hpart)⟩
    exact (hparts part hpart).resolve_right fun hzero =>
      hno ⟨hlength, hparts, part, hpart, hzero⟩

/-- `01.2.3.4` is matched. -/
theorem not_isValidIpv4_iff_leading_zero :
    isValidIpv4 (lit "01.2.3.4") = true ∧ ¬∃ address, lit "01.2.3.4" = ipv4Text address := by
  refine ⟨by decide +kernel, ?_⟩
  rw [exists_ipv4Text_iff]
  rintro ⟨-, hparts⟩
  have hmem : [digitChar 0, digitChar 1] ∈ (lit "01.2.3.4").splitOn dot := by decide +kernel
  exact not_isOctet_of_isZeroPadded ⟨1, by decide, rfl⟩ (hparts _ hmem)

/-- A blacklist of texts with leading zeros keeps no peer out. -/
theorem Incoming.filter_of_hasLeadingZero {c : Incoming} {address : UInt32}
    (hpeer : c.address = ipv4Text address) (hlist : ∀ ip ∈ c.ipBlackList, HasLeadingZero ip) :
    c.filter = true := by
  have hnot : c.address ∉ c.ipBlackList := fun hmem =>
    not_ipv4Text_of_hasLeadingZero (hlist _ hmem) ⟨address, hpeer⟩
  simpa [Incoming.filter] using hnot

end Azugate
