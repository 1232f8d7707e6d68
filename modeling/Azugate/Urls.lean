import Azugate.Chunked
import Azugate.HttpMessage
import Mathlib.Data.List.Nodup
import Mathlib.Logic.Function.Basic

/-!
# Texts in a URL

The helpers of `common.hpp` on URLs. `UrlEncode` escapes a byte by `%` and its number, in decimal,
so only escapes below 10 decode to the byte (`percentDecode_urlEncode_iff`).
`ExtractParamFromUrl` cuts the query at every `&` into a map, and the value it gives is the one of
the last part with the key (`extractParamFromUrl_eq`).

`GetContentTypeFromSuffix` compares extensions by their hashes, and `FindFileExtension` takes the
text after the last dot of the whole URL. `getContentType_eq_iff` says for which URLs the type is
the one of the extension of the last component.
-/

namespace Azugate

/-! ## Escapes -/

/-- The bytes `UrlEncode` leaves as they are. -/
def isUnreserved (c : UInt8) : Bool :=
  (97 ≤ c && c ≤ 122) || (65 ≤ c && c ≤ 90) || (48 ≤ c && c ≤ 57) || c == 45 || c == 95 ||
    c == 46 || c == 126

/-- `std::setw` and `std::setfill` : the text with `fill` in front, up to the width. -/
def padded (width : ℕ) (fill : UInt8) (s : Str) : Str :=
  List.replicate (width - s.length) fill ++ s

/-- `'%'`. -/
def percent : UInt8 := 37

/-- What `UrlEncode` writes for a byte. The stream is in its default base, 10. -/
def urlEncodeByte (c : UInt8) : Str :=
  if isUnreserved c then [c] else percent :: padded 2 48 (numeral 10 c.toNat)

/-- `UrlEncode`. -/
def urlEncode (str : Str) : Str :=
  str.flatMap urlEncodeByte

/-- The bytes of a text with escapes : `%` and two hexadecimal digits are the byte they denote. -/
def percentDecode : Str → Str
  | c :: a :: b :: rest =>
    if c = percent ∧ Chunked.isHexDigit a = true ∧ Chunked.isHexDigit b = true then
      UInt8.ofNat (16 * Chunked.hexValue a + Chunked.hexValue b) :: percentDecode rest
    else c :: percentDecode (a :: b :: rest)
  | c :: rest => c :: percentDecode rest
  | [] => []

theorem percentDecode_cons_of_ne {c : UInt8} (hc : c ≠ percent) (rest : Str) :
    percentDecode (c :: rest) = c :: percentDecode rest := by
  match rest with
  | [] => rfl
  | [_] => rfl
  | _ :: _ :: _ => rw [percentDecode, if_neg fun h => hc h.1]

theorem percentDecode_escape {a b : UInt8} (ha : Chunked.isHexDigit a = true)
    (hb : Chunked.isHexDigit b = true) (rest : Str) :
    percentDecode (percent :: a :: b :: rest) =
      UInt8.ofNat (16 * Chunked.hexValue a + Chunked.hexValue b) :: percentDecode rest := by
  rw [percentDecode, if_pos ⟨rfl, ha, hb⟩]

/-- The decimal digits of a byte, at least two of them. -/
theorem padded_numeral {n : ℕ} (hn : n < 256) :
    (n < 10 ∧ padded 2 48 (numeral 10 n) = [digitChar 0, digitChar n]) ∨
    (10 ≤ n ∧ n < 100 ∧ padded 2 48 (numeral 10 n) = [digitChar (n / 10), digitChar (n % 10)]) ∨
    (100 ≤ n ∧ padded 2 48 (numeral 10 n) =
      [digitChar (n / 100), digitChar (n / 10 % 10), digitChar (n % 10)]) := by
  by_cases h10 : n < 10
  · refine Or.inl ⟨h10, ?_⟩
    rw [numeral_of_lt h10]
    rfl
  by_cases h100 : n < 100
  · refine Or.inr (Or.inl ⟨Nat.le_of_not_lt h10, h100, ?_⟩)
    rw [numeral_two_digits (by decide) (Nat.le_of_not_lt h10) h100]
    rfl
  · refine Or.inr (Or.inr ⟨Nat.le_of_not_lt h100, ?_⟩)
    rw [numeral_three_digits (by decide) (Nat.le_of_not_lt h100) (by omega),
      Nat.div_div_eq_div_mul]
    rfl

/-- An escape decodes to the byte exactly when the byte is below 10, and in any case to
something. -/
theorem urlEncodeByte_reserved {c : UInt8} (hc : isUnreserved c = false) :
    ∃ decoded, decoded ≠ [] ∧ (decoded = [c] ↔ c < 10) ∧
      ∀ rest, percentDecode (urlEncodeByte c ++ rest) = decoded ++ percentDecode rest := by
  have hlt : c.toNat < 256 := c.toNat_lt
  have hdecode : ∀ hi lo, hi < 10 → lo < 10 → ∀ rest,
      percentDecode (percent :: digitChar hi :: digitChar lo :: rest) =
        UInt8.ofNat (16 * hi + lo) :: percentDecode rest := by
    intro hi lo hhi hlo rest
    rw [percentDecode_escape (Chunked.isHexDigit_digitChar hi (by omega))
      (Chunked.isHexDigit_digitChar lo (by omega)), Chunked.hexValue_digitChar hi (by omega),
      Chunked.hexValue_digitChar lo (by omega)]
  have hescape : urlEncodeByte c = percent :: padded 2 48 (numeral 10 c.toNat) := by
    rw [urlEncodeByte, hc, if_neg (by decide)]
  rw [hescape]
  rcases padded_numeral hlt with ⟨hn, htext⟩ | ⟨hlo, hhi, htext⟩ | ⟨hlo, htext⟩
  · refine ⟨[UInt8.ofNat (16 * 0 + c.toNat)], by simp, ?_, fun rest => ?_⟩
    · simp [UInt8.lt_iff_toNat_lt, hn]
    · rw [htext]
      exact hdecode 0 c.toNat (by omega) hn rest
  · refine ⟨[UInt8.ofNat (16 * (c.toNat / 10) + c.toNat % 10)], by simp, ?_, fun rest => ?_⟩
    · rw [List.singleton_inj, UInt8.lt_iff_toNat_lt, ← UInt8.toNat_inj, UInt8.toNat_ofNat']
      simp only [UInt8.toNat_ofNat]
      omega
    · rw [htext]
      exact hdecode _ _ (by omega) (by omega) rest
  · refine ⟨[UInt8.ofNat (16 * (c.toNat / 100) + c.toNat / 10 % 10), digitChar (c.toNat % 10)],
      by simp, ?_, fun rest => ?_⟩
    · simp [UInt8.lt_iff_toNat_lt]
      omega
    · have hdigit : ∀ d < 10, digitChar d ≠ percent := by decide
      rw [htext]
      show percentDecode (percent :: digitChar (c.toNat / 100) :: digitChar (c.toNat / 10 % 10) ::
        (digitChar (c.toNat % 10) :: rest)) = _
      rw [hdecode _ _ (by omega) (by omega), percentDecode_cons_of_ne (hdigit _ (by omega))]
      rfl

/-- What `UrlEncode` writes for a byte decodes to the byte exactly when the byte is left as it is,
or is below 10. -/
theorem urlEncodeByte_decodes (c : UInt8) :
    ∃ decoded, decoded ≠ [] ∧ (decoded = [c] ↔ isUnreserved c = true ∨ c < 10) ∧
      ∀ rest, percentDecode (urlEncodeByte c ++ rest) = decoded ++ percentDecode rest := by
  cases hc : isUnreserved c with
  | false => simpa using urlEncodeByte_reserved hc
  | true =>
    have hne : c ≠ percent := by
      rintro rfl
      exact absurd hc (by decide)
    refine ⟨[c], by simp, by simp, fun rest => ?_⟩
    rw [urlEncodeByte, if_pos hc]
    exact percentDecode_cons_of_ne hne rest

theorem length_le_percentDecode_urlEncode (s : Str) :
    s.length ≤ (percentDecode (urlEncode s)).length := by
  induction s with
  | nil => exact Nat.zero_le _
  | cons c s ih =>
    obtain ⟨decoded, hne, -, hdecode⟩ := urlEncodeByte_decodes c
    have hpos := List.length_pos_iff.2 hne
    rw [urlEncode, List.flatMap_cons, hdecode, List.length_append, List.length_cons]
    exact (Nat.add_comm _ _).trans_le (Nat.add_le_add hpos ih)

/-- Decoding what `UrlEncode` writes gives the text back exactly when every byte of it is one
that is left as it is, or is below 10. -/
theorem percentDecode_urlEncode_iff (s : Str) :
    percentDecode (urlEncode s) = s ↔ ∀ c ∈ s, isUnreserved c = true ∨ c < 10 := by
  induction s with
  | nil => simp [urlEncode, percentDecode]
  | cons c s ih =>
    obtain ⟨decoded, hne, hiff, hdecode⟩ := urlEncodeByte_decodes c
    have hcons : percentDecode (urlEncode (c :: s)) = decoded ++ percentDecode (urlEncode s) := by
      rw [urlEncode, List.flatMap_cons, hdecode]
      rfl
    rw [List.forall_mem_cons, ← hiff, ← ih, hcons]
    constructor
    · intro h
      -- nothing decodes to less than it was, so no byte can decode to more
      have hpos := List.length_pos_iff.2 hne
      have hrest := length_le_percentDecode_urlEncode s
      have hall := congrArg List.length h
      rw [List.length_append, List.length_cons] at hall
      have hsplit : decoded ++ percentDecode (urlEncode s) = [c] ++ s := h
      exact List.append_inj hsplit (by rw [List.length_singleton]; omega)
    · rintro ⟨hhead, htail⟩
      rw [hhead, htail]
      rfl

/-- A space is escaped by its decimal number, which is the escape of the digit two. -/
theorem not_percentDecode_urlEncode_space :
    urlEncode (lit "a b") = lit "a%32b" ∧ percentDecode (urlEncode (lit "a b")) ≠ lit "a b" := by
  decide +kernel

/-! ## Parameters of the query -/

/-- `'&'`. -/
def ampersand : UInt8 := 38

/-- `'='`. -/
def equalsSign : UInt8 := 61

/-- `'?'`. -/
def questionMark : UInt8 := 63

/-- `params[param_key] = param_value`, for a part of the query with a `=`. -/
def storeParam (params : Str → Option Str) (param : Str) : Str → Option Str :=
  match find [equalsSign] param with
  | some eqPos => Function.update params (param.take eqPos) (some (param.drop (eqPos + 1)))
  | none => params

/-- The loop of `ExtractParamFromUrl`, and the last parameter after it. -/
def collectParams (params : Str → Option Str) (query : Str) : Str → Option Str :=
  match h : find [ampersand] query with
  | some pos => collectParams (storeParam params (query.take pos)) (query.drop (pos + 1))
  | none => storeParam params query
termination_by query.length
decreasing_by
  obtain ⟨w, rest, rfl, -, rfl⟩ := find_singleton_eq_some h
  simp
  omega

/-- `ExtractParamFromUrl`. -/
def extractParamFromUrl (url key : Str) : Str :=
  match find [questionMark] url with
  | none => []
  | some queryStart =>
    (collectParams (fun _ => none) (url.drop (queryStart + 1)) key).getD []

/-- The parameters of a query, in order : the parts between `&` that have a `=`, cut at their
first. -/
def queryParams (query : Str) : List (Str × Str) :=
  (query.splitOn ampersand).filterMap (cutAt equalsSign)

/-- The value of the last parameter of a URL with the name, or the empty string. -/
def paramOfUrl (url key : Str) : Str :=
  match cutAt questionMark url with
  | none => []
  | some (_, query) => ((queryParams query).reverse.lookup key).getD []

theorem storeParam_apply (params : Str → Option Str) (param key : Str) :
    storeParam params param key =
      (([param].filterMap (cutAt equalsSign)).reverse.lookup key).or (params key) := by
  have hcut := cutAt_eq equalsSign param
  cases hpos : find [equalsSign] param with
  | none =>
    rw [hpos] at hcut
    simp [storeParam, hpos, hcut]
  | some eqPos =>
    rw [hpos] at hcut
    by_cases hkey : key = param.take eqPos
    · simp [storeParam, hpos, hcut, hkey]
    · simp [storeParam, hpos, hcut, hkey]

theorem queryParams_append {w : Str} (hw : ampersand ∉ w) (rest : Str) :
    queryParams (w ++ ampersand :: rest) =
      [w].filterMap (cutAt equalsSign) ++ queryParams rest := by
  rw [queryParams, List.splitOn_append_cons_self_of_not_mem hw, ← List.singleton_append,
    List.filterMap_append]
  rfl

theorem queryParams_of_notMem {query : Str} (hquery : ampersand ∉ query) :
    queryParams query = [query].filterMap (cutAt equalsSign) := by
  rw [queryParams, List.splitOn_eq_singleton hquery]

/-- What the loop has stored under a key is the value of the last part with that name, and what
was there before if there is none. -/
theorem collectParams_apply (params : Str → Option Str) (query key : Str) :
    collectParams params query key =
      ((queryParams query).reverse.lookup key).or (params key) := by
  fun_induction collectParams params query with
  | case1 params query pos hpos ih =>
    obtain ⟨w, rest, rfl, hw, rfl⟩ := find_singleton_eq_some hpos
    rw [List.take_left, List.drop_length_add_append] at ih
    rw [List.take_left, List.drop_length_add_append, queryParams_append hw, List.reverse_append,
      List.lookup_append, Option.or_assoc, ← storeParam_apply]
    exact ih
  | case2 params query hnone =>
    rw [storeParam_apply, queryParams_of_notMem (find_singleton_eq_none hnone)]

/-- `ExtractParamFromUrl` gives the value of the last parameter with the name. -/
theorem extractParamFromUrl_eq (url key : Str) :
    extractParamFromUrl url key = paramOfUrl url key := by
  rw [extractParamFromUrl, paramOfUrl, cutAt_eq]
  cases find [questionMark] url with
  | none => rfl
  | some queryStart =>
    simp [collectParams_apply]

/-! ## Content types -/

/-- The text after the last `c`, all of the text if there is none. -/
def afterLast (c : UInt8) (s : Str) : Str :=
  (s.reverse.takeWhile (· != c)).reverse

/-- The content type of the extension of that name. -/
def contentTypeOfExtension (ext : Str) : Str :=
  match contentTypes.find? fun (name, _) => lit name == ext with
  | some (_, contentType) => lit contentType
  | none => lit "application/octet-stream"

/-- The content type of the text after the last dot of the last component of a URL. -/
def contentTypeOfUrl (url : Str) : Str :=
  let component := afterLast slash url
  if dot ∈ component then contentTypeOfExtension (afterLast dot component)
  else lit "application/octet-stream"

theorem afterLast_append {c : UInt8} {w : Str} (hw : c ∉ w) (s : Str) :
    afterLast c (s ++ c :: w) = w := by
  have hall : ∀ x ∈ w.reverse, (x != c) = true := by
    intro x hx
    exact bne_iff_ne.2 fun h => hw (h ▸ List.mem_reverse.1 hx)
  rw [afterLast, List.reverse_append, List.reverse_cons, List.append_assoc,
    List.takeWhile_append_of_pos hall]
  simp

theorem afterLast_of_notMem {c : UInt8} {s : Str} (hs : c ∉ s) : afterLast c s = s := by
  have hall : ∀ x ∈ s.reverse, (x != c) = true := by
    intro x hx
    exact bne_iff_ne.2 fun h => hs (h ▸ List.mem_reverse.1 hx)
  rw [afterLast, List.takeWhile_eq_self_iff.2 hall, List.reverse_reverse]

/-- A text is cut by the last occurrence of a character. -/
theorem exists_eq_append_cons_last {c : UInt8} {s : Str} (hs : c ∈ s) :
    ∃ before w, s = before ++ c :: w ∧ c ∉ w := by
  obtain ⟨w, before, hrev, hw⟩ := List.eq_append_cons_of_mem (List.mem_reverse.2 hs)
  refine ⟨before.reverse, w.reverse, ?_, mt List.mem_reverse.1 hw⟩
  rw [← List.reverse_reverse s, hrev]
  simp

theorem contentTypeOfExtension_of_forall_ne {ext : Str} (hne : ∀ p ∈ contentTypes, lit p.1 ≠ ext) :
    contentTypeOfExtension ext = lit "application/octet-stream" := by
  have hnone : (contentTypes.find? fun (name, _) => lit name == ext) = none := by
    rw [List.find?_eq_none]
    intro p hp h
    exact hne p hp (eq_of_beq h)
  rw [contentTypeOfExtension, hnone]

theorem contentTypeOfExtension_of_slash {ext : Str} (hext : slash ∈ ext) :
    contentTypeOfExtension ext = lit "application/octet-stream" := by
  have hnames : ∀ p ∈ contentTypes, slash ∉ lit p.1 := by decide
  exact contentTypeOfExtension_of_forall_ne fun p hp h => hnames p hp (h ▸ hext)

theorem findFileExtension_eq (url : Str) :
    findFileExtension url = if dot ∈ url then afterLast dot url else [] := by
  exact if_congr List.contains_iff_mem rfl rfl

/-- Taking the text after the last dot of the whole URL makes no difference : where the last dot is
in another component, the text has a slash in it and is no extension. -/
theorem contentTypeOfUrl_eq (url : Str) :
    contentTypeOfUrl url = contentTypeOfExtension (findFileExtension url) := by
  rw [contentTypeOfUrl, findFileExtension_eq]
  by_cases hdot : dot ∈ url
  · obtain ⟨before, w, rfl, hw⟩ := exists_eq_append_cons_last hdot
    rw [if_pos hdot, afterLast_append hw]
    by_cases hslash : slash ∈ w
    · obtain ⟨dirs, name, rfl, hname⟩ := exists_eq_append_cons_last hslash
      have hcomponent : afterLast slash (before ++ dot :: (dirs ++ slash :: name)) = name := by
        rw [← List.cons_append, ← List.append_assoc]
        exact afterLast_append hname _
      have hnodot : dot ∉ name := fun h => hw (by simp [h])
      rw [hcomponent, if_neg hnodot, contentTypeOfExtension_of_slash hslash]
    · have hcomponent : ∃ front, afterLast slash (before ++ dot :: w) = front ++ dot :: w := by
        by_cases hbefore : slash ∈ before
        · obtain ⟨dirs, front, rfl, hfront⟩ := exists_eq_append_cons_last hbefore
          refine ⟨front, ?_⟩
          rw [List.append_assoc, List.cons_append]
          exact afterLast_append (by simp [hfront, hslash]; decide) _
        · exact ⟨before, afterLast_of_notMem (by simp [hbefore, hslash]; decide)⟩
      obtain ⟨front, hcomponent⟩ := hcomponent
      rw [hcomponent, if_pos (by simp), afterLast_append hw]
  · have hcomponent : dot ∉ afterLast slash url := by
      intro h
      exact hdot (List.mem_reverse.1 ((List.takeWhile_sublist _).subset (List.mem_reverse.1 h)))
    rw [if_neg hdot, if_neg hcomponent]
    rfl

/-- No two of the listed extensions have one hash. -/
theorem hashConstantString_contentTypes :
    ∀ p ∈ contentTypes, ∀ q ∈ contentTypes,
      hashConstantString (lit p.1) = hashConstantString (lit q.1) → p = q := by
  have hnodup : (contentTypes.map fun p => hashConstantString (lit p.1)).Nodup := by decide +kernel
  exact fun p hp q hq h => List.inj_on_of_nodup_map hnodup hp hq h

/-- An entry with the hash of the extension is the case the `switch` takes. -/
theorem getContentTypeFromSuffix_of_hash {p : String × String} (hp : p ∈ contentTypes) {ext : Str}
    (hhash : hashConstantString (lit p.1) = hashConstantString ext) :
    getContentTypeFromSuffix ext = lit p.2 := by
  have hfound : (contentTypes.find? fun (name, _) =>
      hashConstantString (lit name) == hashConstantString ext).isSome :=
    List.find?_isSome.2 ⟨p, hp, beq_iff_eq.2 hhash⟩
  obtain ⟨q, hq⟩ := Option.isSome_iff_exists.1 hfound
  have hqfound := List.find?_some hq
  have hqhash : hashConstantString (lit q.1) = hashConstantString ext := eq_of_beq hqfound
  obtain rfl : p = q :=
    hashConstantString_contentTypes p hp q (List.mem_of_find?_eq_some hq) (hhash.trans hqhash.symm)
  rw [getContentTypeFromSuffix, hq]

theorem getContentTypeFromSuffix_of_forall_ne {ext : Str}
    (hne : ∀ p ∈ contentTypes, hashConstantString (lit p.1) ≠ hashConstantString ext) :
    getContentTypeFromSuffix ext = lit "application/octet-stream" := by
  have hnone : (contentTypes.find? fun (name, _) =>
      hashConstantString (lit name) == hashConstantString ext) = none := by
    rw [List.find?_eq_none]
    intro p hp h
    exact hne p hp (eq_of_beq h)
  rw [getContentTypeFromSuffix, hnone]

/-- A listed extension has its own type by both comparisons. -/
theorem contentTypeOfExtension_of_mem {p : String × String} (hp : p ∈ contentTypes) :
    contentTypeOfExtension (lit p.1) = lit p.2 := by
  have hfound : (contentTypes.find? fun (name, _) => lit name == lit p.1).isSome :=
    List.find?_isSome.2 ⟨p, hp, beq_self_eq_true _⟩
  obtain ⟨q, hq⟩ := Option.isSome_iff_exists.1 hfound
  have hqfound := List.find?_some hq
  have hqname : lit q.1 = lit p.1 := eq_of_beq hqfound
  obtain rfl : p = q :=
    hashConstantString_contentTypes p hp q (List.mem_of_find?_eq_some hq) (by rw [hqname])
  rw [contentTypeOfExtension, hq]

/-- The type declared for a URL is the one of its extension exactly when the extension is listed,
or has the hash of no extension with another type than the default. -/
theorem getContentType_eq_iff (url : Str) :
    getContentTypeFromSuffix (findFileExtension url) = contentTypeOfUrl url ↔
      (∃ p ∈ contentTypes, lit p.1 = findFileExtension url) ∨
      ∀ p ∈ contentTypes, hashConstantString (lit p.1) =
        hashConstantString (findFileExtension url) → p.2 = "application/octet-stream" := by
  rw [contentTypeOfUrl_eq]
  generalize findFileExtension url = ext
  by_cases hlisted : ∃ p ∈ contentTypes, lit p.1 = ext
  · obtain ⟨p, hp, rfl⟩ := hlisted
    rw [getContentTypeFromSuffix_of_hash hp rfl, contentTypeOfExtension_of_mem hp]
    exact iff_of_true rfl (Or.inl ⟨p, hp, rfl⟩)
  rw [or_iff_right hlisted,
    contentTypeOfExtension_of_forall_ne fun p hp h => hlisted ⟨p, hp, h⟩]
  have htypes : ∀ p ∈ contentTypes, lit p.2 = lit "application/octet-stream" →
      p.2 = "application/octet-stream" := by decide +kernel
  constructor
  · intro h p hp hhash
    rw [getContentTypeFromSuffix_of_hash hp hhash] at h
    exact htypes p hp h
  · intro h
    by_cases hhit : ∃ p ∈ contentTypes, hashConstantString (lit p.1) = hashConstantString ext
    · obtain ⟨p, hp, hhash⟩ := hhit
      rw [getContentTypeFromSuffix_of_hash hp hhash, h p hp hhash]
    · exact getContentTypeFromSuffix_of_forall_ne fun p hp hhash => hhit ⟨p, hp, hhash⟩

/-- The hash of `kT` is the hash of `js`. -/
theorem not_getContentType_eq_colliding :
    contentTypeOfUrl (lit "/a.kT") = lit "application/octet-stream" ∧
      getContentTypeFromSuffix (findFileExtension (lit "/a.kT")) = lit "application/javascript" ∧
      getContentTypeFromSuffix (findFileExtension (lit "/a.kT")) ≠
        contentTypeOfUrl (lit "/a.kT") := by
  decide +kernel

end Azugate
