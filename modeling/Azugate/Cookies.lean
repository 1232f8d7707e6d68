import Azugate.Headers

/-!
# The access token in a cookie

`extractAzugateAccessTokenFromCookie` looks for `azugate_access_token=` in the text of the header,
and not for a cookie of that name. It is found first in the first cookie that has it anywhere, in
the end of a longer name or in a value as well (`extractAzugateAccessToken_cookieHeader`).
`readsAccessToken_iff` says for which lists of cookies the token is the value of the cookie of that
name, whatever that value is.
-/

namespace Azugate

/-! ## Lists of cookies -/

/-- `';'`. -/
def semicolon : UInt8 := 59

/-- A pair of a `Cookie` header. -/
@[ext] structure Cookie where
  name : Str
  value : Str
  deriving DecidableEq, Repr

/-- The pair as it is written. -/
def Cookie.text (c : Cookie) : Str :=
  c.name ++ lit "=" ++ c.value

/-- The name has no `=` or `;`, and the value no `;`. -/
structure Cookie.Valid (c : Cookie) : Prop where
  name : 61 ∉ c.name ∧ semicolon ∉ c.name
  value : semicolon ∉ c.value

/-- The value of a `Cookie` header. -/
def cookieHeader (cookies : List Cookie) : Str :=
  (lit "; ").intercalate (cookies.map Cookie.text)

/-- The name of the cookie with the access token. -/
def accessTokenName : Str :=
  lit "azugate_access_token"

/-- The value of the first cookie of that name, or the empty string. -/
def accessToken (cookies : List Cookie) : Str :=
  ((cookies.find? fun c => c.name == accessTokenName).map Cookie.value).getD []

/-! ## The search -/

/-- What `extractAzugateAccessTokenFromCookie` looks for. -/
def accessTokenKey : Str :=
  lit "azugate_access_token="

/-- The text after the key in a pair. -/
def afterKey (text : Str) : Option Str :=
  (find accessTokenKey text).map fun pos => text.drop (pos + 21)

theorem extractAzugateAccessToken_eq (s : Str) :
    extractAzugateAccessTokenFromCookie s =
      ((find accessTokenKey s).map fun pos => (s.drop (pos + 21)).takeWhile (· != 59)).getD [] := by
  unfold extractAzugateAccessTokenFromCookie
  change _ = ((find (lit "azugate_access_token=") s).map _).getD []
  cases find (lit "azugate_access_token=") s <;> rfl

theorem semicolon_notMem_text {c : Cookie} (hc : c.Valid) : semicolon ∉ c.text := by
  have hequals : semicolon ∉ lit "=" := by decide
  simp [Cookie.text, hc.name.2, hc.value, hequals]

theorem takeWhile_drop_of_semicolon {text : Str} (htext : semicolon ∉ text) (pos : ℕ) (rest : Str) :
    (text.drop pos ++ rest).takeWhile (· != 59) =
      text.drop pos ++ rest.takeWhile (· != 59) := by
  refine List.takeWhile_append_of_pos fun c hc => bne_iff_ne.2 ?_
  rintro rfl
  exact htext (List.mem_of_mem_drop hc)

theorem find_accessTokenKey_append (text rest : Str) :
    find accessTokenKey (text ++ lit "; " ++ rest) =
      (find accessTokenKey text).or
        ((find accessTokenKey rest).map fun pos => pos + 1 + (text.length + 1)) := by
  have hkey : accessTokenKey ≠ [] ∧ semicolon ∉ accessTokenKey ∧ space ∉ accessTokenKey := by
    decide
  have hsplit : text ++ lit "; " ++ rest = text ++ semicolon :: ([] ++ space :: rest) := by
    simp [lit, semicolon, space]
  have hnil : find accessTokenKey [] = none := rfl
  rw [hsplit, find_append_cons hkey.1 hkey.2.1, find_append_cons hkey.1 hkey.2.2, hnil,
    Option.none_or, Option.map_map]
  rfl

/-- A text without a semicolon at the front : the key is found there, up to its end, or else
further on. -/
theorem extractAzugateAccessToken_append {text : Str} (htext : semicolon ∉ text) (rest : Str) :
    extractAzugateAccessTokenFromCookie (text ++ lit "; " ++ rest) =
      (afterKey text).getD (extractAzugateAccessTokenFromCookie rest) := by
  rw [extractAzugateAccessToken_eq, extractAzugateAccessToken_eq, afterKey,
    find_accessTokenKey_append]
  cases hpos : find accessTokenKey text with
  | some pos =>
    have hle : pos + 21 ≤ text.length := add_length_le_of_find hpos
    simp only [Option.some_or, Option.map_some, Option.getD_some, List.append_assoc]
    rw [List.drop_append_of_le_length hle, takeWhile_drop_of_semicolon htext]
    exact List.append_nil _
  | none =>
    cases find accessTokenKey rest with
    | none => rfl
    | some pos =>
      have hdrop : pos + 1 + (text.length + 1) + 21 = (text ++ lit "; ").length + (pos + 21) := by
        rw [List.length_append]
        show _ = text.length + 2 + (pos + 21)
        omega
      simp only [Option.none_or, Option.map_some, Option.map_none, Option.getD_none]
      rw [hdrop, List.drop_length_add_append]

theorem extractAzugateAccessToken_single {text : Str} (htext : semicolon ∉ text) :
    extractAzugateAccessTokenFromCookie text = (afterKey text).getD [] := by
  rw [extractAzugateAccessToken_eq, afterKey]
  cases find accessTokenKey text with
  | none => rfl
  | some pos => simpa using takeWhile_drop_of_semicolon htext (pos + 21) []

/-- The token is what stands after the key in the first pair that has it. -/
theorem extractAzugateAccessToken_cookieHeader {cookies : List Cookie}
    (hcookies : ∀ c ∈ cookies, c.Valid) :
    extractAzugateAccessTokenFromCookie (cookieHeader cookies) =
      (cookies.findSome? fun c => afterKey c.text).getD [] := by
  induction cookies with
  | nil => rfl
  | cons c cookies ih =>
    obtain ⟨hc, hcookies⟩ := List.forall_mem_cons.1 hcookies
    have htext := semicolon_notMem_text hc
    cases cookies with
    | nil =>
      have hheader : cookieHeader [c] = c.text := by simp [cookieHeader]
      rw [hheader, extractAzugateAccessToken_single htext]
      cases hkey : afterKey c.text <;> simp [hkey]
    | cons d cookies =>
      have hheader : cookieHeader (c :: d :: cookies) =
          c.text ++ lit "; " ++ cookieHeader (d :: cookies) := by
        simp [cookieHeader, List.intercalate]
      rw [hheader, extractAzugateAccessToken_append htext, ih hcookies]
      cases hkey : afterKey c.text <;> simp [hkey]

/-- A cookie of the name has the key at its front. -/
theorem afterKey_of_name {c : Cookie} (hc : c.name = accessTokenName) :
    afterKey c.text = some c.value := by
  have htext : c.text = accessTokenKey ++ c.value := by
    rw [Cookie.text, hc]
    rfl
  have hfind : find accessTokenKey (accessTokenKey ++ c.value) = some 0 := by
    have hhead : accessTokenKey.isPrefixOf (accessTokenKey ++ c.value) = true :=
      List.isPrefixOf_iff_prefix.2 (List.prefix_append _ _)
    exact if_pos hhead
  rw [afterKey, htext, hfind, Option.map_some]
  rfl

theorem name_ne_of_afterKey {c : Cookie} (h : afterKey c.text = none) :
    c.name ≠ accessTokenName := by
  intro hname
  rw [afterKey_of_name hname] at h
  cases h

theorem name_ne_of_find {c : Cookie} (h : find accessTokenKey c.text = none) :
    c.name ≠ accessTokenName :=
  name_ne_of_afterKey (by rw [afterKey, h, Option.map_none])

/-- Where the first pair with the key is a cookie of the name, its value is the token. -/
theorem accessToken_of_first {before after : List Cookie} {c : Cookie}
    (hbefore : ∀ b ∈ before, afterKey b.text = none) (hc : c.name = accessTokenName) :
    accessToken (before ++ c :: after) = c.value := by
  have hfind : ((before ++ c :: after).find? fun c => c.name == accessTokenName) = some c := by
    refine List.find?_eq_some_iff_append.2 ⟨by simp [hc], before, after, rfl, fun b hb => ?_⟩
    simpa using name_ne_of_afterKey (hbefore b hb)
  rw [accessToken, hfind]
  rfl

/-! ## Which lists are read right -/

/-- The lists have the same names in the same order, and the same values but for cookies of the
token's name. -/
def SameBesidesToken : List Cookie → List Cookie → Prop :=
  List.Forall₂ fun c d => c.name = d.name ∧ (c.name ≠ accessTokenName → c.value = d.value)

/-- The function returns the value of the first cookie of the token's name, or the empty string,
and does so for all values these cookies could have. -/
def ReadsAccessToken (cookies : List Cookie) : Prop :=
  ∀ cookies', SameBesidesToken cookies cookies' → (∀ c ∈ cookies', c.Valid) →
    extractAzugateAccessTokenFromCookie (cookieHeader cookies') = accessToken cookies'

theorem sameBesidesToken_refl (cookies : List Cookie) : SameBesidesToken cookies cookies :=
  List.forall₂_same.2 fun _ _ => ⟨rfl, fun _ => rfl⟩

theorem SameBesidesToken.names {cookies cookies' : List Cookie}
    (h : SameBesidesToken cookies cookies') :
    cookies.map Cookie.name = cookies'.map Cookie.name := by
  induction h with
  | nil => rfl
  | cons hcd _ ih => rw [List.map_cons, List.map_cons, hcd.1, ih]

theorem SameBesidesToken.eq_of_name_ne {cookies cookies' : List Cookie}
    (h : SameBesidesToken cookies cookies') (hne : ∀ c ∈ cookies', c.name ≠ accessTokenName) :
    cookies = cookies' := by
  induction h with
  | nil => rfl
  | @cons c d cookies cookies' hcd _ ih =>
    obtain ⟨hd, hne⟩ := List.forall_mem_cons.1 hne
    rw [ih hne, Cookie.ext hcd.1 (hcd.2 (hcd.1 ▸ hd))]

/-- Up to a cookie of another name with no cookie of the token's name before it, the lists are the
same. -/
theorem SameBesidesToken.exists_append {cookies before after : List Cookie} {c : Cookie}
    (h : SameBesidesToken cookies (before ++ c :: after))
    (hbefore : ∀ b ∈ before, b.name ≠ accessTokenName) (hc : c.name ≠ accessTokenName) :
    ∃ after', cookies = before ++ c :: after' := by
  obtain ⟨d, after', ⟨hname, hvalue⟩, -, hdrop⟩ :=
    List.forall₂_cons_right_iff.1 (List.forall₂_drop_append _ _ _ h)
  have hd : d = c := Cookie.ext hname (hvalue (hname ▸ hc))
  have htake : cookies.take before.length = before :=
    SameBesidesToken.eq_of_name_ne (List.forall₂_take_append _ _ _ h) hbefore
  refine ⟨after', ?_⟩
  calc
    cookies = cookies.take before.length ++ cookies.drop before.length :=
      (List.take_append_drop _ _).symm
    _ = before ++ c :: after' := by rw [htake, hdrop, hd]

theorem accessToken_of_names {cookies : List Cookie}
    (h : accessTokenName ∉ cookies.map Cookie.name) : accessToken cookies = [] := by
  have hnone : (cookies.find? fun c => c.name == accessTokenName) = none := by
    refine List.find?_eq_none.2 fun c hc hname => h ?_
    exact eq_of_beq hname ▸ List.mem_map_of_mem hc
  rw [accessToken, hnone]
  rfl

/-- The token is what stands after the key in the first pair that has it. -/
theorem extractAzugateAccessToken_of_first {before after : List Cookie} {c : Cookie} {pos : ℕ}
    (hcookies : ∀ d ∈ before ++ c :: after, d.Valid)
    (hbefore : ∀ b ∈ before, find accessTokenKey b.text = none)
    (hpos : find accessTokenKey c.text = some pos) :
    extractAzugateAccessTokenFromCookie (cookieHeader (before ++ c :: after)) =
      c.text.drop (pos + 21) := by
  have hfirst : ((before ++ c :: after).findSome? fun c => afterKey c.text) =
      some (c.text.drop (pos + 21)) := by
    refine List.findSome?_eq_some_iff.2 ⟨before, c, after, rfl, ?_, fun b hb => ?_⟩
    · rw [afterKey, hpos, Option.map_some]
    · rw [afterKey, hbefore b hb, Option.map_none]
  rw [extractAzugateAccessToken_cookieHeader hcookies, hfirst, Option.getD_some]

/-- The cookie, with `v` for its value if it has the token's name. -/
def Cookie.withToken (v : Str) (c : Cookie) : Cookie :=
  if c.name = accessTokenName then ⟨c.name, v⟩ else c

@[simp] theorem Cookie.name_withToken (v : Str) (c : Cookie) : (c.withToken v).name = c.name := by
  unfold Cookie.withToken
  split_ifs <;> rfl

theorem Cookie.withToken_of_ne {v : Str} {c : Cookie} (h : c.name ≠ accessTokenName) :
    c.withToken v = c :=
  if_neg h

theorem Cookie.Valid.withToken {v : Str} (hv : semicolon ∉ v) {c : Cookie} (hc : c.Valid) :
    (c.withToken v).Valid := by
  unfold Cookie.withToken
  split_ifs
  · exact ⟨hc.name, hv⟩
  · exact hc

theorem sameBesidesToken_withToken (v : Str) (cookies : List Cookie) :
    SameBesidesToken cookies (cookies.map (Cookie.withToken v)) := by
  refine List.forall₂_map_right_iff.2 (List.forall₂_same.2 fun c _ => ?_)
  exact ⟨(c.name_withToken v).symm, fun hname => by rw [Cookie.withToken_of_ne hname]⟩

theorem accessToken_withToken {v : Str} {cookies : List Cookie}
    (h : accessTokenName ∈ cookies.map Cookie.name) :
    accessToken (cookies.map (Cookie.withToken v)) = v := by
  obtain ⟨d, hd, hname⟩ := List.mem_map.1 h
  have hsome : (cookies.find? fun c => c.name == accessTokenName).isSome :=
    List.find?_isSome.2 ⟨d, hd, by simp [hname]⟩
  obtain ⟨c, hc⟩ := Option.isSome_iff_exists.1 hsome
  have hcname : c.name = accessTokenName := by simpa using List.find?_some hc
  have hcomp : ((fun c : Cookie => c.name == accessTokenName) ∘ Cookie.withToken v) =
      fun c => c.name == accessTokenName := by
    funext c
    simp
  rw [accessToken, List.find?_map, hcomp, hc]
  simp [Cookie.withToken, hcname]

/-- Where the first pair with the key has another name, a list that is read right has no cookie of
the token's name : its value could be another than what stands after the key. -/
theorem ReadsAccessToken.notMem_names {before after : List Cookie} {c : Cookie} {pos : ℕ}
    (h : ReadsAccessToken (before ++ c :: after))
    (hcookies : ∀ d ∈ before ++ c :: after, d.Valid)
    (hbefore : ∀ b ∈ before, find accessTokenKey b.text = none)
    (hpos : find accessTokenKey c.text = some pos) (hname : c.name ≠ accessTokenName) :
    accessTokenName ∉ (before ++ c :: after).map Cookie.name := by
  intro hmem
  obtain ⟨v, hv, hne⟩ : ∃ v, semicolon ∉ v ∧ c.text.drop (pos + 21) ≠ v := by
    by_cases hnil : c.text.drop (pos + 21) = []
    · exact ⟨[space], by decide, by simp [hnil]⟩
    · exact ⟨[], by simp, hnil⟩
  have hvalid : ∀ d ∈ (before ++ c :: after).map (Cookie.withToken v), d.Valid := by
    intro d hd
    obtain ⟨d', hd', rfl⟩ := List.mem_map.1 hd
    exact (hcookies d' hd').withToken hv
  have hsame : before.map (Cookie.withToken v) = before := calc
    before.map (Cookie.withToken v) = before.map id :=
      List.map_congr_left fun b hb =>
        Cookie.withToken_of_ne (name_ne_of_find (hbefore b hb))
    _ = before := List.map_id before
  have hread := h _ (sameBesidesToken_withToken v _) hvalid
  rw [accessToken_withToken hmem] at hread
  rw [List.map_append, List.map_cons, hsame, Cookie.withToken_of_ne hname] at hread hvalid
  rw [extractAzugateAccessToken_of_first hvalid hbefore hpos] at hread
  exact hne hread

/-- A list is read right exactly when no pair has the key in it, or the first that does is the
cookie of the name, or no cookie has the name and that pair ends with the key. -/
theorem readsAccessToken_iff (cookies : List Cookie) (hcookies : ∀ c ∈ cookies, c.Valid) :
    ReadsAccessToken cookies ↔
      ∀ before c after pos, cookies = before ++ c :: after →
        (∀ b ∈ before, find accessTokenKey b.text = none) →
        find accessTokenKey c.text = some pos →
        c.name = accessTokenName ∨
          accessTokenName ∉ cookies.map Cookie.name ∧
            pos + accessTokenKey.length = c.text.length := by
  have hlength : accessTokenKey.length = 21 := by decide
  rw [hlength]
  constructor
  · rintro hall before c after pos rfl hbefore hpos
    by_cases hname : c.name = accessTokenName
    · exact Or.inl hname
    have hle : pos + 21 ≤ c.text.length := add_length_le_of_find hpos
    have hnames := hall.notMem_names hcookies hbefore hpos hname
    refine Or.inr ⟨hnames, ?_⟩
    have hread := hall _ (sameBesidesToken_refl _) hcookies
    rw [extractAzugateAccessToken_of_first hcookies hbefore hpos, accessToken_of_names hnames,
      List.drop_eq_nil_iff] at hread
    omega
  · intro hcond cookies' hsame hvalid
    cases hfirst : cookies'.findSome? fun c => afterKey c.text with
    | none =>
      rw [extractAzugateAccessToken_cookieHeader hvalid, hfirst, Option.getD_none]
      refine (accessToken_of_names fun hmem => ?_).symm
      obtain ⟨c, hc, hname⟩ := List.mem_map.1 hmem
      exact name_ne_of_afterKey (List.findSome?_eq_none_iff.1 hfirst c hc) hname
    | some token =>
      obtain ⟨before', c', after', rfl, hc', hbefore'⟩ := List.findSome?_eq_some_iff.1 hfirst
      obtain ⟨pos, hpos, -⟩ := Option.map_eq_some_iff.1 hc'
      rw [extractAzugateAccessToken_of_first hvalid
        (fun b hb => Option.map_eq_none_iff.1 (hbefore' b hb)) hpos]
      by_cases hname' : c'.name = accessTokenName
      · have hvalue := afterKey_of_name hname'
        rw [afterKey, hpos, Option.map_some, Option.some.injEq] at hvalue
        rw [accessToken_of_first hbefore' hname', hvalue]
      · obtain ⟨after, hsplit⟩ := hsame.exists_append
          (fun b hb => name_ne_of_afterKey (hbefore' b hb)) hname'
        obtain ⟨hnames, hend⟩ := (hcond before' c' after pos hsplit
          (fun b hb => Option.map_eq_none_iff.1 (hbefore' b hb)) hpos).resolve_left hname'
        rw [accessToken_of_names (hsame.names ▸ hnames), List.drop_eq_nil_iff]
        exact hend.ge

/-- The cookie of the name behind another. -/
theorem readsAccessToken_iff_second :
    let cookies : List Cookie := [⟨lit "theme", lit "a=b"⟩, ⟨lit "azugate_access_token", lit "t"⟩]
    ReadsAccessToken cookies := by
  intro cookies
  have hvalid : ∀ c ∈ cookies, c.Valid := by
    intro c hc
    simp only [cookies, List.mem_cons, List.not_mem_nil, or_false] at hc
    rcases hc with rfl | rfl <;> exact ⟨by decide, by decide⟩
  have hmiss : ∀ c ∈ cookies, c.name = accessTokenName ∨ find accessTokenKey c.text = none := by
    decide +kernel
  refine (readsAccessToken_iff cookies hvalid).2 ?_
  intro before c after pos heq _ hpos
  refine Or.inl ((hmiss c (by simp [heq])).resolve_right fun h => ?_)
  rw [h] at hpos
  cases hpos

/-- A cookie whose name ends with the name of the token shadows it. -/
theorem not_extractAzugateAccessToken_eq_shadowed :
    let cookies : List Cookie :=
      [⟨lit "xazugate_access_token", lit "1"⟩, ⟨lit "azugate_access_token", lit "2"⟩]
    cookieHeader cookies = lit "xazugate_access_token=1; azugate_access_token=2" ∧
      accessToken cookies = lit "2" ∧
      extractAzugateAccessTokenFromCookie (cookieHeader cookies) = lit "1" ∧
      extractAzugateAccessTokenFromCookie (cookieHeader cookies) ≠ accessToken cookies := by
  decide +kernel

end Azugate
