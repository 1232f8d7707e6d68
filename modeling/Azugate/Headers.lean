import Azugate.Bytes
import Mathlib.Data.List.Induction
import Mathlib.Data.List.Nodup

/-!
# Request headers

`extractMetaFromHeaders` reads the request's headers, one after the other, into the fields
the handler decides by. `buildRequestHeaders` is the header block `handleHttpRequest` sends
to the target : the client's headers set one after the other in a Boost.Beast message, which
keeps one field for each name, less those the gateway drops.

Both keep the last of several headers of one name. So the body length the target reads off
the block (`declaredBodyLength`) and the one the relay works with come from one header, and
`declaredBodyLength_iff` says when they are one number : when no header says
`Transfer-Encoding`, and the last `Content-Length` has nothing after its digits.

`from_chars` does not say no to a number with something after it, and nothing compares two
lengths. `readsContentLength_iff` says for which headers the length is read as it should be
nevertheless. `forwardsHeaders_iff` is about the block as a whole : it has every header of the
client that is not dropped, unless two of them have one name.
-/

namespace Azugate

/-! ## Reading the headers -/

/-- `phr_header`. A continuation line has a null name. -/
structure Header where
  name : Option Str
  value : Option Str
  deriving DecidableEq, Repr

namespace Header

/-- The name as a lower-case string. -/
def lowerName (h : Header) : Str :=
  toLower (h.name.getD [])

/-- The value as a string. -/
def valueStr (h : Header) : Str :=
  h.value.getD []

end Header

/-- `kMaxHeadersNum`. -/
def kMaxHeadersNum : ℕ := 256

/-- `CompressionType`. -/
structure CompressionType where
  code : UInt32
  str : Str
  deriving DecidableEq, Repr

namespace CompressionType

/-- The compression type a constant string names. -/
def ofName (name : String) : CompressionType :=
  ⟨hashConstantString (lit name), lit name⟩

def gzip : CompressionType := ofName "gzip"

def brotli : CompressionType := ofName "brotli"

def none : CompressionType := ofName ""

end CompressionType

/-- `GetCompressionType`. -/
def getCompressionType (supported : Str) : CompressionType :=
  if (find (lit "gzip") supported).isSome then .gzip
  else if (find (lit "brotli") supported).isSome then .brotli
  else .none

/-- `extractAzugateAccessTokenFromCookie` : the text after the first
`azugate_access_token=`, up to the next `';'`. -/
def extractAzugateAccessTokenFromCookie (cookieHeader : Str) : Str :=
  match find (lit "azugate_access_token=") cookieHeader with
  | none => []
  | some tokenPos => (cookieHeader.drop (tokenPos + 21)).takeWhile (· != 59)

/-- The members of `HttpProxyHandler` that `extractMetaFromHeaders` sets. -/
structure RequestMeta where
  compressionType : CompressionType
  token : Str
  requestContentLength : ℕ
  isWebSocket : Bool
  deriving DecidableEq, Repr

/-- One pass of the loop of `extractMetaFromHeaders`, with `none` for its `return false`. -/
def extractHeader (m : RequestMeta) (h : Header) : Option RequestMeta :=
  match h.name, h.value with
  | some name, some value =>
    if name.length = 0 ∨ value.length = 0 then none
    else if toLower name = lit "accept-encoding" then
      some { m with compressionType := getCompressionType value }
    else if toLower name = lit "cookie" then
      some { m with token := extractAzugateAccessTokenFromCookie value }
    else if toLower name = lit "content-length" then
      (fromChars value).map fun n => { m with requestContentLength := n }
    else if toLower name = lit "connection" then
      some { m with isWebSocket := toLower value = toLower (lit "Upgrade") }
    else some m
  | _, _ => none

/-- `extractMetaFromHeaders`, with `httpCompression` for `GetHttpCompression()`. -/
def extractMetaFromHeaders (httpCompression : Bool) (m : RequestMeta) (headers : List Header) :
    Option RequestMeta :=
  if headers.length = 0 ∨ kMaxHeadersNum < headers.length then none
  else
    (headers.foldlM extractHeader m).map fun m =>
      if httpCompression then m else { m with compressionType := .none }

/-! ## The header block for the target -/

/-- The fields of a Boost.Beast message, in the order they are written. -/
abbrev Fields := List (Str × Str)

/-- `fields::set` : one field in place of all those of the name, in any letter case. -/
def Fields.set (fields : Fields) (name value : Str) : Fields :=
  fields.filter (fun f => toLower f.1 ≠ toLower name) ++ [(name, value)]

/-- The gateway does not drop a header of this lower-case name. -/
def isForwarded (lowerName : Str) : Bool :=
  lowerName != lit "connection" && lowerName != lit "host" && lowerName != lit "referer" &&
    lowerName != lit "accept-encoding" && lowerName != lit "accept" &&
    (find (lit "sec-") lowerName).isNone

/-- One pass of the loop of `handleHttpRequest` that rewrites the headers. -/
def forwardHeader (fields : Fields) (h : Header) : Fields :=
  if isForwarded h.lowerName then fields.set (h.name.getD []) h.valueStr else fields

/-- The fields of the request `handleHttpRequest` writes to the target. -/
def buildRequestHeaders (headers : List Header) (targetHost : Str) : Fields :=
  ((headers.foldl forwardHeader []).set (lit "Connection") (lit "Close")).set (lit "Host")
    targetHost

/-! ## The framing rules -/

/-- The values of the fields of a name, given in lower case. -/
def Fields.values (fields : Fields) (lowerName : Str) : List Str :=
  (fields.filter fun f => toLower f.1 = lowerName).map Prod.snd

/-- The body length a header block declares in HTTP/1.1. A `Transfer-Encoding` overrides the
length and leaves none. A `Content-Length` is digits only, and several have to agree. With
neither there is no body. -/
def declaredBodyLength (fields : Fields) : Option ℕ :=
  if fields.values (lit "transfer-encoding") ≠ [] then none
  else
    match fields.values (lit "content-length") with
    | [] => some 0
    | v :: vs =>
      if v ≠ [] ∧ v.all isDigit ∧ vs.all (· = v) then some (decimal v) else none

/-! ## The last header of a name -/

/-- The value of the last header of a name, given in lower case. -/
def lastValue (lowerName : Str) (headers : List Header) : Option Str :=
  ((headers.filter fun h => h.lowerName = lowerName).getLast?).map Header.valueStr

theorem lastValue_snoc (lowerName : Str) (headers : List Header) (h : Header) :
    lastValue lowerName (headers ++ [h]) =
      if h.lowerName = lowerName then some h.valueStr else lastValue lowerName headers := by
  by_cases hn : h.lowerName = lowerName <;> simp [lastValue, hn]

theorem lastValue_eq_none_iff (lowerName : Str) (headers : List Header) :
    lastValue lowerName headers = none ↔ ∀ h ∈ headers, h.lowerName ≠ lowerName := by
  simp [lastValue]

theorem Fields.values_set (fields : Fields) (name value lowerName : Str) :
    (fields.set name value).values lowerName =
      if toLower name = lowerName then [value] else fields.values lowerName := by
  rw [Fields.values, Fields.set, List.filter_append, List.filter_filter, List.map_append]
  by_cases h : toLower name = lowerName
  · have hnone : fields.filter (fun f =>
        decide (toLower f.1 = lowerName) && decide (toLower f.1 ≠ toLower name)) = [] := by
      refine List.filter_eq_nil_iff.2 fun f _ => ?_
      simp [h]
    simp only [hnone, if_pos h]
    simp [h]
  · have hsame : fields.filter (fun f =>
        decide (toLower f.1 = lowerName) && decide (toLower f.1 ≠ toLower name)) =
        fields.filter fun f => decide (toLower f.1 = lowerName) := by
      refine List.filter_congr fun f _ => ?_
      by_cases hf : toLower f.1 = lowerName
      · simp [hf, Ne.symm h]
      · simp [hf]
    simp only [hsame, if_neg h]
    simp [h, Fields.values]

/-- The forwarding loop keeps the last header of each name it forwards. -/
theorem values_forwardHeaders {lowerName : Str} (hf : isForwarded lowerName)
    (headers : List Header) :
    (headers.foldl forwardHeader []).values lowerName = (lastValue lowerName headers).toList := by
  induction headers using List.reverseRecOn with
  | nil => rfl
  | append_singleton headers h ih =>
    rw [List.foldl_append, lastValue_snoc]
    simp only [List.foldl_cons, List.foldl_nil, forwardHeader]
    have hset := Fields.values_set (headers.foldl forwardHeader []) (h.name.getD []) h.valueStr
      lowerName
    by_cases hn : h.lowerName = lowerName
    · rw [if_pos hn, if_pos (hn ▸ hf), hset, if_pos (show toLower _ = _ from hn)]
      rfl
    · rw [if_neg hn, ← ih]
      split_ifs
      · rw [hset, if_neg (show toLower _ ≠ _ from hn)]
      · rfl

theorem values_buildRequestHeaders {lowerName : Str} (hf : isForwarded lowerName)
    (hh : lowerName ≠ lit "host") (hc : lowerName ≠ lit "connection") (headers : List Header)
    (targetHost : Str) :
    (buildRequestHeaders headers targetHost).values lowerName =
      (lastValue lowerName headers).toList := by
  have hhost : toLower (lit "Host") ≠ lowerName := fun h => hh (h ▸ by decide)
  have hconn : toLower (lit "Connection") ≠ lowerName := fun h => hc (h ▸ by decide)
  rw [buildRequestHeaders, Fields.values_set, if_neg hhost, Fields.values_set, if_neg hconn,
    values_forwardHeaders hf]

/-! ## What the headers make of the members -/

/-- `extractMetaFromHeaders` does not refuse the header. -/
def Header.isUsable (h : Header) : Bool :=
  h.name.any (!·.isEmpty) && h.value.any (!·.isEmpty) &&
    (h.lowerName != lit "content-length" || (fromChars h.valueStr).isSome)

/-- The members after a header that is not refused. -/
def RequestMeta.afterHeader (m : RequestMeta) (h : Header) : RequestMeta where
  compressionType :=
    if h.lowerName = lit "accept-encoding" then getCompressionType h.valueStr
    else m.compressionType
  token :=
    if h.lowerName = lit "cookie" then extractAzugateAccessTokenFromCookie h.valueStr
    else m.token
  requestContentLength :=
    if h.lowerName = lit "content-length" then (fromChars h.valueStr).getD 0
    else m.requestContentLength
  isWebSocket :=
    if h.lowerName = lit "connection" then toLower h.valueStr = toLower (lit "Upgrade")
    else m.isWebSocket

theorem extractHeader_eq (m : RequestMeta) (h : Header) :
    extractHeader m h = if h.isUsable then some (m.afterHeader h) else none := by
  obtain ⟨name, value⟩ := h
  cases name with
  | none => rfl
  | some name =>
    cases value with
    | none => simp [extractHeader, Header.isUsable]
    | some value =>
      simp only [extractHeader, Header.isUsable, RequestMeta.afterHeader, Header.lowerName,
        Header.valueStr, Option.getD_some, Option.any_some, List.length_eq_zero_iff]
      by_cases hempty : name = [] ∨ value = []
      · rcases hempty with rfl | rfl <;> simp
      · rw [if_neg hempty]
        rw [not_or] at hempty
        -- the names are different, so at most one of the tests holds
        have hnames : lit "accept-encoding" ≠ lit "cookie" ∧
            lit "accept-encoding" ≠ lit "content-length" ∧
            lit "accept-encoding" ≠ lit "connection" ∧ lit "cookie" ≠ lit "content-length" ∧
            lit "cookie" ≠ lit "connection" ∧ lit "content-length" ≠ lit "connection" := by
          decide
        obtain ⟨hac, hal, han, hkl, hkn, hln⟩ := hnames
        by_cases hae : toLower name = lit "accept-encoding"
        · simp [hempty, hae, hac, hal, han]
        by_cases hck : toLower name = lit "cookie"
        · simp [hempty, hck, hac.symm, hkl, hkn]
        by_cases hcl : toLower name = lit "content-length"
        · simp only [hcl, hal.symm, hkl.symm, hln, if_false, if_true]
          cases fromChars value <;> simp [hempty]
        by_cases hcn : toLower name = lit "connection"
        · simp [hempty, hcn, han.symm, hkn.symm, hln.symm]
          rfl
        · simp [hempty, hae, hck, hcl, hcn]

theorem foldlM_extractHeader (headers : List Header) (m : RequestMeta) :
    headers.foldlM extractHeader m =
      if headers.all Header.isUsable then some (headers.foldl RequestMeta.afterHeader m)
      else none := by
  induction headers generalizing m with
  | nil => rfl
  | cons h headers ih =>
    rw [List.foldlM_cons, extractHeader_eq, List.all_cons, List.foldl_cons]
    cases h.isUsable with
    | true => simpa using ih (m.afterHeader h)
    | false => rfl

/-- `extractMetaFromHeaders` accepts the header list. -/
def headersAccepted (headers : List Header) : Bool :=
  headers.length != 0 && headers.length ≤ kMaxHeadersNum && headers.all Header.isUsable

/-- The members after an accepted header list. -/
theorem extractMeta_eq (c : Bool) (m : RequestMeta) (headers : List Header) :
    extractMetaFromHeaders c m headers =
      if headersAccepted headers then
        some (if c then headers.foldl RequestMeta.afterHeader m
          else { headers.foldl RequestMeta.afterHeader m with compressionType := .none })
      else none := by
  unfold extractMetaFromHeaders headersAccepted
  rw [foldlM_extractHeader]
  by_cases hlen : headers.length = 0 ∨ kMaxHeadersNum < headers.length
  · rw [if_pos hlen, if_neg]
    rcases hlen with h | h
    · simp [h]
    · simp [Nat.not_le.2 h]
  · rw [if_neg hlen]
    rw [not_or, Nat.not_lt] at hlen
    cases headers.all Header.isUsable with
    | true => simp [hlen]
    | false => simp

/-- A member that only the headers of one name write comes from the last of them. -/
theorem foldl_afterHeader {α : Type*} (field : RequestMeta → α) (lowerName : Str) (g : Str → α)
    (hstep : ∀ m h, field (RequestMeta.afterHeader m h) =
      if h.lowerName = lowerName then g h.valueStr else field m)
    (headers : List Header) (m : RequestMeta) :
    field (headers.foldl RequestMeta.afterHeader m) =
      ((lastValue lowerName headers).map g).getD (field m) := by
  induction headers using List.reverseRecOn with
  | nil => rfl
  | append_singleton headers h ih =>
    rw [List.foldl_append, lastValue_snoc]
    simp only [List.foldl_cons, List.foldl_nil, hstep]
    split_ifs
    · rfl
    · exact ih

theorem lastValue_mem {lowerName : Str} {headers : List Header} {v : Str}
    (h : lastValue lowerName headers = some v) :
    ∃ hd ∈ headers, hd.lowerName = lowerName ∧ hd.valueStr = v := by
  obtain ⟨hd, hlast, rfl⟩ := Option.map_eq_some_iff.1 h
  have hmem := List.mem_filter.1 (List.mem_of_getLast? hlast)
  exact ⟨hd, hmem.1, by simpa using hmem.2, rfl⟩

/-! ## The length the relay works with -/

theorem requestContentLength_extractMeta {c : Bool} {m m' : RequestMeta} {headers : List Header}
    (h : extractMetaFromHeaders c m headers = some m') :
    match lastValue (lit "content-length") headers with
    | none => m'.requestContentLength = m.requestContentLength
    | some v => v ≠ [] ∧ fromChars v = some m'.requestContentLength := by
  rw [extractMeta_eq, Option.ite_none_right_eq_some] at h
  obtain ⟨hacc, h⟩ := h
  have hlen : m'.requestContentLength =
      ((lastValue (lit "content-length") headers).map fun v => (fromChars v).getD 0).getD
        m.requestContentLength := by
    rw [← foldl_afterHeader RequestMeta.requestContentLength (lit "content-length")
      (fun v => (fromChars v).getD 0) (fun _ _ => rfl) headers m, ← Option.some.inj h]
    cases c <;> rfl
  cases hv : lastValue (lit "content-length") headers with
  | none => rw [hlen, hv]; rfl
  | some v =>
    obtain ⟨hd, hmem, hname, rfl⟩ := lastValue_mem hv
    simp only [headersAccepted, Bool.and_eq_true, List.all_eq_true] at hacc
    have husable := hacc.2 hd hmem
    simp only [Header.isUsable, hname, bne_self_eq_false, Bool.false_or,
      Bool.and_eq_true] at husable
    obtain ⟨⟨-, hval⟩, hfrom⟩ := husable
    obtain ⟨n, hn⟩ := Option.isSome_iff_exists.1 hfrom
    refine ⟨?_, by rw [hlen, hv, hn]; simp [hn]⟩
    obtain ⟨v, hv, hne⟩ := (Option.any_eq_true _ _).1 hval
    simpa [Header.valueStr, hv] using hne

/-! ## When the two lengths agree -/

/-- For accepted headers the block declares the length the relay works with exactly when no
header is a `Transfer-Encoding` and the last `Content-Length` is digits only. The
constructor sets that length to zero. -/
theorem declaredBodyLength_iff (c : Bool) (m m' : RequestMeta) (headers : List Header)
    (targetHost : Str) (hm : m.requestContentLength = 0)
    (h : extractMetaFromHeaders c m headers = some m') :
    declaredBodyLength (buildRequestHeaders headers targetHost) = some m'.requestContentLength ↔
      (∀ hd ∈ headers, hd.lowerName ≠ lit "transfer-encoding") ∧
        ∀ v ∈ lastValue (lit "content-length") headers, v.all isDigit := by
  have hlen := requestContentLength_extractMeta h
  rw [declaredBodyLength,
    values_buildRequestHeaders (by decide) (by decide) (by decide),
    values_buildRequestHeaders (by decide) (by decide) (by decide), ← lastValue_eq_none_iff]
  cases lastValue (lit "transfer-encoding") headers with
  | some v => simp
  | none =>
    cases hv : lastValue (lit "content-length") headers with
    | none =>
      rw [hv] at hlen
      simp [hlen, hm]
    | some v =>
      rw [hv] at hlen
      obtain ⟨hne, hfrom⟩ := hlen
      by_cases hd : v.all isDigit
      · rw [fromChars_of_digits hd hfrom]
        simp [hne]
      · have hnot : ¬(v ≠ [] ∧ v.all isDigit ∧ [].all fun w => decide (w = v)) :=
          fun hv => hd hv.2.1
        simp only [Option.toList_none, Option.toList_some, ne_eq, not_true_eq_false, if_false]
        rw [if_neg hnot]
        simp only [reduceCtorEq, Option.mem_some_iff, forall_eq', true_and, false_iff]
        exact hd

/-- A header of the source's own spelling. -/
def Header.ofStrings (name value : String) : Header :=
  ⟨some (lit name), some (lit value)⟩

/-- A body of five bytes, announced twice in different letter case. -/
theorem declaredBodyLength_iff_two_lengths :
    let headers := [.ofStrings "Host" "a", .ofStrings "Content-Length" "4",
      .ofStrings "content-length" "5"]
    extractMetaFromHeaders true ⟨.none, [], 0, false⟩ headers = some ⟨.none, [], 5, false⟩ ∧
      declaredBodyLength (buildRequestHeaders headers (lit "b")) = some 5 :=
  ⟨by decide, (declaredBodyLength_iff true ⟨.none, [], 0, false⟩ ⟨.none, [], 5, false⟩ _ (lit "b")
    rfl (by decide)).2 (by decide)⟩

/-- A `Transfer-Encoding` beside the length is sent on, and the relay works with the length. -/
theorem not_declaredBodyLength_transfer_encoding :
    let headers := [.ofStrings "Content-Length" "5", .ofStrings "Transfer-Encoding" "chunked"]
    extractMetaFromHeaders true ⟨.none, [], 0, false⟩ headers = some ⟨.none, [], 5, false⟩ ∧
      declaredBodyLength (buildRequestHeaders headers (lit "b")) ≠ some 5 := by
  decide

/-- So is a length with text after its digits. -/
example :
    let headers := [.ofStrings "Content-Length" "5x"]
    extractMetaFromHeaders true ⟨.none, [], 0, false⟩ headers = some ⟨.none, [], 5, false⟩ ∧
      declaredBodyLength (buildRequestHeaders headers (lit "b")) ≠ some 5 := by
  decide

/-! ## What the memory decides -/

/-- The members after the constructor. It leaves the compression type and the WebSocket flag
as the memory held them. -/
def RequestMeta.fresh (compressionType : CompressionType) (isWebSocket : Bool) : RequestMeta :=
  ⟨compressionType, [], 0, isWebSocket⟩

/-- What a successful `extractMetaFromHeaders` leaves in the members is the same whatever the
memory held. -/
def MetaDetermined (c : Bool) (headers : List Header) : Prop :=
  ∀ compressionType compressionType' isWebSocket isWebSocket' m m',
    extractMetaFromHeaders c (.fresh compressionType isWebSocket) headers = some m →
    extractMetaFromHeaders c (.fresh compressionType' isWebSocket') headers = some m' → m = m'

/-- The members after accepted headers, each from the last header of its name. -/
theorem foldl_afterHeader_eq (headers : List Header) (m : RequestMeta) :
    headers.foldl RequestMeta.afterHeader m =
      ⟨((lastValue (lit "accept-encoding") headers).map getCompressionType).getD m.compressionType,
        ((lastValue (lit "cookie") headers).map extractAzugateAccessTokenFromCookie).getD m.token,
        ((lastValue (lit "content-length") headers).map fun v => (fromChars v).getD 0).getD
          m.requestContentLength,
        ((lastValue (lit "connection") headers).map fun v =>
          decide (toLower v = toLower (lit "Upgrade"))).getD m.isWebSocket⟩ := by
  rw [← foldl_afterHeader RequestMeta.compressionType _ getCompressionType (fun _ _ => rfl),
    ← foldl_afterHeader RequestMeta.token _ extractAzugateAccessTokenFromCookie (fun _ _ => rfl),
    ← foldl_afterHeader RequestMeta.requestContentLength _ (fun v => (fromChars v).getD 0)
      (fun _ _ => rfl),
    ← foldl_afterHeader RequestMeta.isWebSocket (lit "connection")
      (fun v => decide (toLower v = toLower (lit "Upgrade"))) (fun _ h => by
        simp only [RequestMeta.afterHeader])]

theorem exists_header_iff (lowerName : Str) (headers : List Header) :
    (∃ h ∈ headers, h.lowerName = lowerName) ↔ (lastValue lowerName headers).isSome := by
  rw [← not_iff_not, Option.not_isSome_iff_eq_none, lastValue_eq_none_iff]
  simp

/-- The members are determined exactly for the header lists that are refused, or that name a
connection and, with compression on, the encodings the client accepts. -/
theorem metaDetermined_iff (c : Bool) (headers : List Header) :
    MetaDetermined c headers ↔
      (headersAccepted headers →
        (c = true → ∃ h ∈ headers, h.lowerName = lit "accept-encoding") ∧
          ∃ h ∈ headers, h.lowerName = lit "connection") := by
  unfold MetaDetermined
  simp only [extractMeta_eq, foldl_afterHeader_eq, exists_header_iff, RequestMeta.fresh,
    Option.ite_none_right_eq_some, Option.some.injEq]
  constructor
  · intro h hacc
    constructor
    · rintro rfl
      have := h ⟨0, []⟩ ⟨1, []⟩ false false _ _ ⟨hacc, rfl⟩ ⟨hacc, rfl⟩
      cases hv : lastValue (lit "accept-encoding") headers with
      | none => simp [hv] at this
      | some v => rfl
    · have := h .none .none false true _ _ ⟨hacc, rfl⟩ ⟨hacc, rfl⟩
      cases hv : lastValue (lit "connection") headers with
      | none => cases c <;> simp [hv] at this
      | some v => rfl
  · rintro h _ _ _ _ m m' ⟨hacc, rfl⟩ ⟨-, rfl⟩
    obtain ⟨hae, hconn⟩ := h hacc
    obtain ⟨w, hw⟩ := Option.isSome_iff_exists.1 hconn
    cases c with
    | false => simp [hw]
    | true =>
      obtain ⟨v, hv⟩ := Option.isSome_iff_exists.1 (hae rfl)
      simp [hv, hw]

/-- A request that names its host only. -/
theorem not_metaDetermined_host_only : ¬MetaDetermined true [.ofStrings "Host" "a"] := by
  intro h
  have := h .none .none false true _ _ rfl rfl
  exact absurd this (by decide)

/-! ## The content lengths that are accepted -/

/-- The values of the headers named `content-length`, in any letter case. -/
def contentLengths (headers : List Header) : List Str :=
  (headers.filter fun h => h.lowerName = lit "content-length").map Header.valueStr

/-- The value is a string of digits that denotes `n`. -/
def Denotes (value : Str) (n : ℕ) : Prop :=
  value ≠ [] ∧ value.all isDigit = true ∧ decimal value = n

/-- The values denote one number, and it fits a `size_t`. -/
def OneNumber (values : List Str) : Prop :=
  ∃ n < sizeMod, ∀ v ∈ values, Denotes v n

/-- A header with a name and a value. -/
def Header.isFilled (h : Header) : Bool :=
  h.name.any (!·.isEmpty) && h.value.any (!·.isEmpty)

/-- A header list `extractMetaFromHeaders` has no reason to refuse but its content lengths. -/
structure HeadersFilled (headers : List Header) : Prop where
  pos : 1 ≤ headers.length
  length_le : headers.length ≤ kMaxHeadersNum
  filled : ∀ h ∈ headers, h.isFilled = true

/-- `extractMetaFromHeaders` accepts the headers exactly if their content lengths denote one
number, and then has it in `request_content_length_`, or zero if there is none. -/
def ReadsContentLength (c : Bool) (m : RequestMeta) (headers : List Header) : Prop :=
  ((extractMetaFromHeaders c m headers).isSome ↔ OneNumber (contentLengths headers)) ∧
    ∀ m', extractMetaFromHeaders c m headers = some m' →
      (contentLengths headers = [] → m'.requestContentLength = 0) ∧
        ∀ v ∈ contentLengths headers, Denotes v m'.requestContentLength

theorem Denotes.fromChars {v : Str} {n : ℕ} (h : Denotes v n) (hlt : n < sizeMod) :
    fromChars v = some n := by
  obtain ⟨hne, hdigits, rfl⟩ := h
  rw [sizeMod_eq] at hlt
  exact fromChars_eq_some hne hdigits hlt

/-- Filled headers are accepted if `from_chars` reads every content length. -/
theorem HeadersFilled.accepted_iff {headers : List Header} (h : HeadersFilled headers) (c : Bool)
    (m : RequestMeta) :
    (extractMetaFromHeaders c m headers).isSome ↔
      ∀ v ∈ contentLengths headers, (fromChars v).isSome := by
  have husable : ∀ hd ∈ headers, (hd.isUsable = true ↔
      (hd.lowerName = lit "content-length" → (fromChars hd.valueStr).isSome)) := by
    intro hd hmem
    have hfilled := h.filled hd hmem
    rw [Header.isFilled] at hfilled
    rw [Header.isUsable, hfilled]
    by_cases hcl : hd.lowerName = lit "content-length" <;> simp [hcl]
  have hacc : headersAccepted headers = headers.all Header.isUsable := by
    simp [headersAccepted, List.length_pos_iff.1 h.pos, h.length_le]
  rw [extractMeta_eq, hacc, Option.isSome_ite, List.all_eq_true]
  simp only [contentLengths, List.mem_map, List.mem_filter, decide_eq_true_eq,
    forall_exists_index, and_imp]
  constructor
  · rintro hall v hd hmem hname rfl
    exact (husable hd hmem).1 (hall hd hmem) hname
  · exact fun hall hd hmem => (husable hd hmem).2 fun hname => hall _ hd hmem hname rfl

theorem contentLengths_eq_nil_iff (headers : List Header) :
    contentLengths headers = [] ↔ lastValue (lit "content-length") headers = none := by
  simp [contentLengths, lastValue]

theorem lastValue_mem_contentLengths {headers : List Header} {v : Str}
    (h : lastValue (lit "content-length") headers = some v) : v ∈ contentLengths headers := by
  obtain ⟨hd, hmem, hname, rfl⟩ := lastValue_mem h
  exact List.mem_map_of_mem (List.mem_filter.2 ⟨hmem, by simpa using hname⟩)

/-- The length that is read off content lengths that denote one number. -/
theorem requestContentLength_of_oneNumber {c : Bool} {m m' : RequestMeta} {headers : List Header}
    (hone : OneNumber (contentLengths headers)) (hm : m.requestContentLength = 0)
    (hmeta : extractMetaFromHeaders c m headers = some m') :
    (contentLengths headers = [] → m'.requestContentLength = 0) ∧
      ∀ v ∈ contentLengths headers, Denotes v m'.requestContentLength := by
  obtain ⟨n, hlt, hall⟩ := hone
  have hlen := requestContentLength_extractMeta hmeta
  cases hlast : lastValue (lit "content-length") headers with
  | none =>
    rw [hlast] at hlen
    have hnil := (contentLengths_eq_nil_iff headers).2 hlast
    exact ⟨fun _ => hlen.trans hm, by simp [hnil]⟩
  | some v =>
    rw [hlast] at hlen
    have hmem := lastValue_mem_contentLengths hlast
    obtain rfl : n = m'.requestContentLength :=
      Option.some.inj (((hall v hmem).fromChars hlt).symm.trans hlen.2)
    exact ⟨fun hnil => absurd hmem (by simp [hnil]), hall⟩

/-- The content lengths are read as they should be exactly when one of them has no digits in
front, or more than fit, or all denote one number. -/
theorem readsContentLength_iff (c : Bool) (compressionType : CompressionType) (isWebSocket : Bool)
    (headers : List Header) (h : HeadersFilled headers) :
    ReadsContentLength c (.fresh compressionType isWebSocket) headers ↔
      (∃ v ∈ contentLengths headers,
        v.takeWhile isDigit = [] ∨ sizeMod ≤ decimal (v.takeWhile isDigit)) ∨
      OneNumber (contentLengths headers) := by
  simp only [← fromChars_eq_none_iff]
  have hacc := h.accepted_iff c (.fresh compressionType isWebSocket)
  by_cases hone : OneNumber (contentLengths headers)
  · simp only [hone, or_true, iff_true]
    refine ⟨iff_of_true (hacc.2 fun v hv => ?_) hone, fun m' hmeta => ?_⟩
    · obtain ⟨n, hlt, hall⟩ := hone
      rw [(hall v hv).fromChars hlt]
      rfl
    · exact requestContentLength_of_oneNumber hone rfl hmeta
  · simp only [hone, or_false]
    constructor
    · rintro ⟨hiff, -⟩
      by_contra hnone
      refine hone (hiff.1 (hacc.2 fun v hv => ?_))
      rw [Option.isSome_iff_ne_none]
      exact fun hv' => hnone ⟨v, hv, hv'⟩
    · rintro ⟨v, hv, hv'⟩
      have hrefused : ¬(extractMetaFromHeaders c (.fresh compressionType isWebSocket)
          headers).isSome := by
        intro hsome
        have hread := hacc.1 hsome v hv
        rw [hv'] at hread
        exact absurd hread (by decide)
      refine ⟨iff_of_false hrefused hone, fun m' hmeta => ?_⟩
      rw [hmeta] at hrefused
      exact absurd rfl hrefused

/-- A host, and a length that is given twice. -/
theorem readsContentLength_iff_twice :
    let headers := [.ofStrings "Host" "a", .ofStrings "Content-Length" "5",
      .ofStrings "content-length" "05"]
    HeadersFilled headers ∧ ReadsContentLength true (.fresh .none false) headers := by
  intro headers
  have hfilled : HeadersFilled headers := ⟨by decide, by decide, by decide⟩
  have hvalues : contentLengths headers = [lit "5", lit "05"] := by decide
  refine ⟨hfilled, (readsContentLength_iff true .none false headers hfilled).2 (Or.inr ?_)⟩
  rw [hvalues]
  refine ⟨5, by decide, fun v hv => ?_⟩
  rcases List.mem_pair.1 hv with rfl | rfl
  · exact ⟨by decide, by decide, by decide⟩
  · exact ⟨by decide, by decide, by decide⟩

/-- A length with something after its digits is accepted. -/
theorem not_readsContentLength_trailing :
    let headers := [.ofStrings "Content-Length" "5x"]
    HeadersFilled headers ∧
      (extractMetaFromHeaders true (.fresh .none false) headers).isSome = true ∧
      ¬ReadsContentLength true (.fresh .none false) headers := by
  intro headers
  have haccepted : (extractMetaFromHeaders true (.fresh .none false) headers).isSome = true := by
    decide
  have hvalues : contentLengths headers = [lit "5x"] := by decide
  refine ⟨⟨by decide, by decide, by decide⟩, haccepted, ?_⟩
  rintro ⟨hiff, -⟩
  obtain ⟨n, -, hall⟩ := hiff.1 haccepted
  rw [hvalues] at hall
  exact absurd (hall _ (List.mem_singleton.2 rfl)).2.1 (by decide)

/-! ## The headers that are forwarded -/

/-- The client's headers the gateway does not drop. -/
def forwardedHeaders (headers : List Header) : Fields :=
  (headers.filter fun h => isForwarded h.lowerName).map fun h => (h.name.getD [], h.valueStr)

/-- The header block for the target is the client's headers that are not dropped, with one
`Connection` and one `Host`. -/
structure ForwardsHeaders (headers : List Header) (targetHost : Str) : Prop where
  client : (buildRequestHeaders headers targetHost).filter (fun f =>
    toLower f.1 ≠ lit "connection" ∧ toLower f.1 ≠ lit "host") = forwardedHeaders headers
  connection : ((buildRequestHeaders headers targetHost).values (lit "connection")).length = 1
  host : ((buildRequestHeaders headers targetHost).values (lit "host")).length = 1

namespace Fields

/-- The names of the fields, in lower case. -/
def names (fields : Fields) : List Str :=
  fields.map fun f => toLower f.1

theorem names_set (fields : Fields) (name value : Str) :
    (fields.set name value).names = fields.names.filter (· ≠ toLower name) ++ [toLower name] := by
  simp [names, set, List.filter_map, Function.comp_def]

/-- `set` keeps one field for each name. -/
theorem nodup_names_set {fields : Fields} (h : fields.names.Nodup) (name value : Str) :
    (fields.set name value).names.Nodup := by
  rw [names_set]
  refine List.nodup_append.2 ⟨h.filter _, List.nodup_singleton _, ?_⟩
  rintro a ha b hb rfl
  obtain rfl := List.mem_singleton.1 hb
  simp at ha

theorem set_of_notMem {fields : Fields} {name : Str} (h : toLower name ∉ fields.names)
    (value : Str) : fields.set name value = fields ++ [(name, value)] := by
  have hall : fields.filter (fun f => toLower f.1 ≠ toLower name) = fields := by
    refine List.filter_eq_self.2 fun f hf => ?_
    have hne : toLower f.1 ≠ toLower name :=
      fun heq => h (heq ▸ List.mem_map_of_mem (f := fun f => toLower f.1) hf)
    simpa using hne
  rw [set, hall]

/-- Fields with names of their own are added one after the other. -/
theorem foldl_set_of_nodup :
    ∀ (more fields : Fields), (fields ++ more).names.Nodup →
      more.foldl (fun fields f => fields.set f.1 f.2) fields = fields ++ more
  | [], fields, _ => by simp
  | f :: more, fields, h => by
    have hnew : toLower f.1 ∉ fields.names := by
      rw [names, List.map_append] at h
      exact fun hmem => List.disjoint_of_nodup_append h hmem (by simp)
    rw [List.foldl_cons, set_of_notMem hnew,
      foldl_set_of_nodup more _ (by rwa [List.append_cons] at h)]
    simp

end Fields

/-- The loop of `handleHttpRequest` sets the headers that are not dropped. -/
theorem foldl_forwardHeader :
    ∀ (headers : List Header) (fields : Fields), headers.foldl forwardHeader fields =
      (forwardedHeaders headers).foldl (fun fields f => fields.set f.1 f.2) fields
  | [], _ => rfl
  | h :: headers, fields => by
    rw [List.foldl_cons, foldl_forwardHeader headers, forwardHeader]
    cases hf : isForwarded h.lowerName <;> simp [forwardedHeaders, hf]

theorem nodup_names_buildRequestHeaders (headers : List Header) (targetHost : Str) :
    (buildRequestHeaders headers targetHost).names.Nodup := by
  have hloop : ∀ (headers : List Header) (fields : Fields), fields.names.Nodup →
      (headers.foldl forwardHeader fields).names.Nodup := by
    intro headers
    induction headers with
    | nil => exact fun _ h => h
    | cons h headers ih =>
      intro fields hfields
      rw [List.foldl_cons]
      refine ih _ ?_
      unfold forwardHeader
      split_ifs
      · exact Fields.nodup_names_set hfields _ _
      · exact hfields
  exact Fields.nodup_names_set (Fields.nodup_names_set (hloop headers [] List.nodup_nil) _ _) _ _

theorem names_forwardedHeaders (headers : List Header) :
    (forwardedHeaders headers).names =
      (headers.filter fun h => isForwarded h.lowerName).map Header.lowerName := by
  simp [forwardedHeaders, Fields.names, Header.lowerName, Function.comp_def]

theorem isForwarded_of_mem_names {headers : List Header} {name : Str}
    (h : name ∈ (forwardedHeaders headers).names) : isForwarded name = true := by
  rw [names_forwardedHeaders] at h
  obtain ⟨hd, hmem, rfl⟩ := List.mem_map.1 h
  simpa using (List.mem_filter.1 hmem).2

/-- The block, if no two headers that are not dropped have one name. -/
theorem buildRequestHeaders_of_nodup {headers : List Header}
    (h : (forwardedHeaders headers).names.Nodup) (targetHost : Str) :
    buildRequestHeaders headers targetHost = forwardedHeaders headers ++
      [(lit "Connection", lit "Close")] ++ [(lit "Host", targetHost)] := by
  have hconnection : toLower (lit "Connection") ∉ (forwardedHeaders headers).names :=
    fun hmem => absurd (isForwarded_of_mem_names hmem) (by decide)
  have hhost : toLower (lit "Host") ∉
      (forwardedHeaders headers ++ [(lit "Connection", lit "Close")]).names := by
    rw [Fields.names, List.map_append, List.mem_append]
    rintro (hmem | hmem)
    · exact absurd (isForwarded_of_mem_names hmem) (by decide)
    · exact absurd hmem (by decide)
  have hloop := Fields.foldl_set_of_nodup (forwardedHeaders headers) [] h
  rw [buildRequestHeaders, foldl_forwardHeader, hloop, List.nil_append,
    Fields.set_of_notMem hconnection, Fields.set_of_notMem hhost]

/-- The block holds every header that is not dropped exactly when no two of them have one
name. -/
theorem forwardsHeaders_iff (headers : List Header) (targetHost : Str) :
    ForwardsHeaders headers targetHost ↔
      ((headers.filter fun h => isForwarded h.lowerName).map Header.lowerName).Nodup := by
  rw [← names_forwardedHeaders]
  constructor
  · intro h
    rw [← h.client]
    exact (List.filter_sublist.map _).nodup (nodup_names_buildRequestHeaders headers targetHost)
  · intro hnodup
    have hnames : toLower (lit "Connection") = lit "connection" ∧
        toLower (lit "Host") = lit "host" ∧ lit "host" ≠ lit "connection" := by
      decide
    refine ⟨?_, by simp [buildRequestHeaders, Fields.values_set, hnames],
      by simp [buildRequestHeaders, Fields.values_set, hnames]⟩
    rw [buildRequestHeaders_of_nodup hnodup, List.filter_append, List.filter_append,
      List.filter_eq_self.2 ?_]
    · simp [hnames]
    · intro f hf
      have hforwarded := isForwarded_of_mem_names
        (List.mem_map_of_mem (f := fun f => toLower f.1) hf)
      simp only [isForwarded, Bool.and_eq_true, bne_iff_ne] at hforwarded
      simp [hforwarded]

/-- Of two `Cookie` lines the target gets the second. -/
theorem not_forwardsHeaders_two_cookies :
    let headers := [.ofStrings "Cookie" "a=1", .ofStrings "cookie" "b=2"]
    (extractMetaFromHeaders true (.fresh .none false) headers).isSome = true ∧
      ¬ForwardsHeaders headers (lit "b") := by
  intro headers
  refine ⟨by decide, fun h => ?_⟩
  exact absurd h.client (by decide)

end Azugate
