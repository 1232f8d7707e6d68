import Azugate.HeaderRead

/-!
# Relaying a request

`handleHttpRequest` connects to the target, writes it the rewritten header, then the body :
first the bytes that came with the header, then what further reads of the client's socket
deliver, until as many bytes are written as the request declares. The answers of the network
are a parameter, `Target`.

The relay never looks at how many bytes of the body are missing when it reads, nor at how many
came with the header when it copies them. `forwardsBodyOnly_iff` says when it keeps to the
declared body nevertheless, against every target : when the client's bytes fall into reads in
such a way that no read goes past the end of the body. `copyFits_iff` says when the copy stays
inside its buffer.
-/

namespace Azugate

/-- `kDefaultBufSize`. -/
def kDefaultBufSize : ℕ := 1024 * 4

/-! ## Methods -/

/-- `boost::beast::http::verb`, as far as `stringToVerb` knows it. -/
inductive Verb where
  | get
  | post
  | put
  | delete
  | head
  | options
  | patch
  | connect
  | trace
  deriving DecidableEq, Repr

/-- The table of `stringToVerb`. -/
def methodMap : List (Str × Verb) :=
  [(lit "GET", .get), (lit "POST", .post), (lit "PUT", .put), (lit "DELETE", .delete),
    (lit "HEAD", .head), (lit "OPTIONS", .options), (lit "PATCH", .patch),
    (lit "CONNECT", .connect), (lit "TRACE", .trace)]

/-- `stringToVerb`. -/
def stringToVerb (methodStr : Str) : Option Verb :=
  methodMap.lookup methodStr

/-! ## The relay loop -/

/-- How the target and the network answer the calls of `handleHttpRequest`. -/
structure Target where
  resolves : Bool
  connects : Bool
  handshakes : Bool
  takesHeader : Bool
  /-- The `i`-th write of the body : all of it is written, or it fails after so many bytes. -/
  writes : ℕ → Option ℕ
  /-- The target's response, unless reading it fails. -/
  response : Option Str
  /-- The client takes the response. -/
  clientTakes : Bool

/-- A target that takes every byte. -/
def Target.willing (response : Str) : Target :=
  ⟨true, true, true, true, fun _ => none, some response, true⟩

/-- Where the relay of the body ended. -/
inductive RelayEnd where
  /-- The loop is over. -/
  | finished
  /-- An error made the handler call back and return. -/
  | stopped
  /-- A read is under way. -/
  | blocked
  deriving DecidableEq, Repr

/-- The body bytes written to the target, and where that ended. `wrapped` says that the
number of bytes left was computed below zero. -/
structure Relayed where
  sent : Str
  wrapped : Bool
  next : RelayEnd
  deriving DecidableEq, Repr

/-- The relay loop, from `n_read` and the `i`-th write on, on the reads to come. -/
def relayLoop (T : Target) (leftBodyLength : ℕ) : ℕ → ℕ → List ReadResult → Str × RelayEnd
  | nRead, _, [] => ([], if nRead < leftBodyLength then .blocked else .finished)
  | nRead, i, r :: reads =>
    if nRead < leftBodyLength then
      match r with
      | .eof => ([], .finished)
      | .error => ([], .stopped)
      | .data bytes =>
        match T.writes i with
        | some k => (bytes.take k, .stopped)
        | none =>
          let rest := relayLoop T leftBodyLength ((nRead + bytes.length) % sizeMod) (i + 1) reads
          (bytes ++ rest.1, rest.2)
    else ([], .finished)

/-- The write of the bytes that came with the header, which is left out if there are none. -/
def writeExtra (T : Target) (extraBody : Str) : Option ℕ :=
  if extraBody.length = 0 then none else T.writes 0

/-- `request_content_length_ - extra_body_len_`. -/
def leftBodyLength (requestContentLength extraBodyLen : ℕ) : ℕ :=
  (requestContentLength + sizeMod - extraBodyLen) % sizeMod

/-- The relay of the body. The bytes that came with the header are copied into a buffer of
`kDefaultBufSize` bytes first. More than fit there leave the behaviour undefined, which is
`none` here. -/
def relayBody (T : Target) (extraBody : Str) (requestContentLength : ℕ)
    (reads : List ReadResult) : Option Relayed :=
  if kDefaultBufSize < extraBody.length then none
  else
    match writeExtra T extraBody with
    | some k => some ⟨extraBody.take k, false, .stopped⟩
    | none =>
      let rest := relayLoop T (leftBodyLength requestContentLength extraBody.length) 0 1 reads
      some ⟨extraBody ++ rest.1, requestContentLength < extraBody.length, rest.2⟩

/-! ## The handler -/

/-- The header `handleHttpRequest` builds for the target. -/
structure TargetHeader where
  verb : Verb
  url : Str
  fields : Fields
  deriving DecidableEq, Repr

/-- What a call of `handleHttpRequest` does. -/
structure HttpRun where
  /-- The header the target got. -/
  header : Option TargetHeader
  body : Relayed
  /-- The response the client got. -/
  response : Option Str
  /-- Calls of `async_accpet_cb_`. -/
  callbacks : ℕ
  deriving DecidableEq, Repr

/-- An error before the body : one callback, and nothing of the body is written. -/
def HttpRun.failed : HttpRun :=
  ⟨none, ⟨[], false, .stopped⟩, none, 1⟩

/-- The end of `handleHttpRequest`, after the body. -/
def respond (T : Target) (header : TargetHeader) (body : Relayed) : HttpRun :=
  match body.next with
  | .blocked => ⟨some header, body, none, 0⟩
  | .stopped => ⟨some header, body, none, 1⟩
  | .finished =>
    match T.response with
    | none => ⟨some header, body, none, 1⟩
    | some response => ⟨some header, body, if T.clientTakes then some response else none, 1⟩

/-- `handleHttpRequest`. -/
def handleHttpRequest (isSsl : Bool) (T : Target) (targetHost targetUrl : Str)
    (h : HttpProxyHandler) (m : RequestMeta) (reads : List ReadResult) : Option HttpRun :=
  if !T.resolves then some .failed
  else if !T.connects then some .failed
  else if isSsl && !T.handshakes then some .failed
  else
    match stringToVerb (h.request.method.getD []) with
    | none => some .failed
    | some verb =>
      if !T.takesHeader then some .failed
      else
        (relayBody T h.extraBody m.requestContentLength reads).map
          (respond T ⟨verb, targetUrl, buildRequestHeaders h.request.headers targetHost⟩)

/-- The handler gives up before the body, or knows the method and relays. -/
theorem handleHttpRequest_cases (isSsl : Bool) (T : Target) (targetHost targetUrl : Str)
    (h : HttpProxyHandler) (m : RequestMeta) (reads : List ReadResult) :
    handleHttpRequest isSsl T targetHost targetUrl h m reads = some .failed ∨
      ∃ verb, stringToVerb (h.request.method.getD []) = some verb ∧
        handleHttpRequest isSsl T targetHost targetUrl h m reads =
          (relayBody T h.extraBody m.requestContentLength reads).map
            (respond T ⟨verb, targetUrl, buildRequestHeaders h.request.headers targetHost⟩) := by
  unfold handleHttpRequest
  cases stringToVerb (h.request.method.getD []) with
  | none => simp
  | some verb =>
    dsimp only
    split_ifs
    · exact Or.inl rfl
    · exact Or.inl rfl
    · exact Or.inl rfl
    · exact Or.inl rfl
    · exact Or.inr ⟨verb, rfl, rfl⟩

/-! ## Reads that keep to the body -/

/-- The bytes reads deliver, up to the end of the stream or an error. -/
def received : List ReadResult → Str
  | .data bytes :: reads => bytes ++ received reads
  | _ => []

/-- While `missing` bytes of the body are to come, no read delivers more. -/
def ReadsFit : ℕ → List ReadResult → Prop
  | missing, .data bytes :: reads =>
    missing = 0 ∨ bytes.length ≤ missing ∧ ReadsFit (missing - bytes.length) reads
  | _, _ => True

instance : ∀ (missing : ℕ) (reads : List ReadResult), Decidable (ReadsFit missing reads)
  | missing, .data bytes :: reads =>
    have := instDecidableReadsFit (missing - bytes.length) reads
    inferInstanceAs (Decidable (missing = 0 ∨ bytes.length ≤ missing ∧ _))
  | _, [] => isTrue trivial
  | _, .eof :: _ => isTrue trivial
  | _, .error :: _ => isTrue trivial

/-- Reads that fit bring the loop no further than the bytes that were left. -/
theorem relayLoop_of_readsFit (T : Target) {left : ℕ} (hlt : left < sizeMod) :
    ∀ (nRead i : ℕ) (reads : List ReadResult), nRead ≤ left → ReadsFit (left - nRead) reads →
      (relayLoop T left nRead i reads).1 <+: (received reads).take (left - nRead)
  | nRead, i, [], _, _ => List.nil_prefix
  | nRead, i, .eof :: reads, _, _ => by
    unfold relayLoop
    split_ifs <;> exact List.nil_prefix
  | nRead, i, .error :: reads, _, _ => by
    unfold relayLoop
    split_ifs <;> exact List.nil_prefix
  | nRead, i, .data bytes :: reads, hle, hfit => by
    unfold relayLoop
    split_ifs with hleft
    · obtain ⟨hlen, hfit⟩ : bytes.length ≤ left - nRead ∧
          ReadsFit (left - nRead - bytes.length) reads := by
        rcases hfit with hzero | hfit
        · omega
        · exact hfit
      have hmod : (nRead + bytes.length) % sizeMod = nRead + bytes.length :=
        Nat.mod_eq_of_lt (by omega)
      have htake : (received (.data bytes :: reads)).take (left - nRead) =
          bytes ++ (received reads).take (left - (nRead + bytes.length)) := by
        rw [received, List.take_append, List.take_of_length_le hlen, Nat.sub_add_eq]
      rw [htake]
      cases T.writes i with
      | some k => exact (List.take_prefix k bytes).trans (List.prefix_append _ _)
      | none =>
        simp only [hmod]
        rw [List.prefix_append_right_inj]
        refine relayLoop_of_readsFit T hlt _ _ reads (by omega) ?_
        rwa [Nat.sub_add_eq]
    · exact List.nil_prefix

/-- A loop whose writes all succeed keeps to the bytes that were left only if the reads do. -/
theorem readsFit_of_relayLoop {T : Target} (hT : ∀ i, T.writes i = none) {left : ℕ}
    (hlt : left < sizeMod) :
    ∀ (nRead i : ℕ) (reads : List ReadResult), nRead ≤ left →
      (relayLoop T left nRead i reads).1.length ≤ left - nRead → ReadsFit (left - nRead) reads
  | nRead, i, [], _, _ => trivial
  | nRead, i, .eof :: reads, _, _ => trivial
  | nRead, i, .error :: reads, _, _ => trivial
  | nRead, i, .data bytes :: reads, hle, hsent => by
    by_cases hleft : nRead < left
    · simp only [relayLoop, if_pos hleft, hT, List.length_append] at hsent
      have hmod : (nRead + bytes.length) % sizeMod = nRead + bytes.length :=
        Nat.mod_eq_of_lt (by omega)
      rw [hmod] at hsent
      refine Or.inr ⟨by omega, ?_⟩
      rw [← Nat.sub_add_eq]
      exact readsFit_of_relayLoop hT hlt _ (i + 1) reads (by omega) (by omega)
    · exact Or.inl (by omega)

/-! ## When the declared body is all that is forwarded -/

/-- The header loop made the reads `cs` and has parsed a header. -/
structure HeaderReadBy (P : PhrParser) (cs : List Str) (h : HttpProxyHandler) : Prop where
  delivers : (headerReads P).Along Delivers cs
  exec_eq : (headerReads P).exec cs = h
  parsed : ∃ extraBodyLen, h.phase = .parsed extraBodyLen
  all_read : cs.flatten = h.headerBuf

/-- After the header come the bytes left over, then those of the reads to come. -/
theorem HeaderReadBy.drop_append {P : PhrParser} {cs : List Str} {h : HttpProxyHandler}
    (hr : HeaderReadBy P cs h) (rest : Str) :
    (cs.flatten ++ rest).drop h.totalParsed = h.extraBody ++ rest := by
  obtain ⟨extraBodyLen, hphase⟩ := hr.parsed
  have hp : Progress P h := hr.exec_eq ▸ (progress_exec hr.delivers).1
  obtain ⟨hextra, hlen⟩ := hp.extraBody_eq hphase
  rw [hr.all_read, List.drop_append_of_le_length (by omega), hextra]

/-- Against every target, the bytes written of the body are the first of the body the request
declares, and no count of bytes goes below zero. The client's bytes are `stream`. -/
def ForwardsBodyOnly (h : HttpProxyHandler) (m : RequestMeta) (stream : Str)
    (reads : List ReadResult) : Prop :=
  ∀ isSsl T targetHost targetUrl, ∃ run,
    handleHttpRequest isSsl T targetHost targetUrl h m reads = some run ∧
    run.body.wrapped = false ∧
    run.body.sent <+: (stream.drop h.totalParsed).take m.requestContentLength

theorem leftBodyLength_eq {requestContentLength extraBodyLen : ℕ}
    (hle : extraBodyLen ≤ requestContentLength) (hlt : requestContentLength < sizeMod) :
    leftBodyLength requestContentLength extraBodyLen = requestContentLength - extraBodyLen := by
  rw [leftBodyLength, show requestContentLength + sizeMod - extraBodyLen =
    requestContentLength - extraBodyLen + sizeMod by omega, Nat.add_mod_right,
    Nat.mod_eq_of_lt (by omega)]

theorem body_respond (T : Target) (header : TargetHeader) (body : Relayed) :
    (respond T header body).body = body := by
  unfold respond
  split
  · rfl
  · rfl
  · split <;> rfl

/-- The relay of the body, for reads that fit. -/
theorem relayBody_of_readsFit (T : Target) {extraBody : Str} {n : ℕ} {reads : List ReadResult}
    (hlt : n < sizeMod) (hbuf : extraBody.length ≤ kDefaultBufSize) (hle : extraBody.length ≤ n)
    (hfit : ReadsFit (n - extraBody.length) reads) :
    ∃ body, relayBody T extraBody n reads = some body ∧ body.wrapped = false ∧
      body.sent <+: (extraBody ++ received reads).take n := by
  rw [relayBody, if_neg (by omega), List.take_append, List.take_of_length_le hle]
  cases writeExtra T extraBody with
  | some k =>
    exact ⟨_, rfl, rfl, (List.take_prefix k extraBody).trans (List.prefix_append _ _)⟩
  | none =>
    refine ⟨_, rfl, by simpa using hle, ?_⟩
    simp only [leftBodyLength_eq hle hlt]
    rw [List.prefix_append_right_inj]
    have hleft : n - extraBody.length < sizeMod := by omega
    simpa using relayLoop_of_readsFit T hleft 0 1 reads (Nat.zero_le _) hfit

theorem writeExtra_of_writes {T : Target} (hT : ∀ i, T.writes i = none) (extraBody : Str) :
    writeExtra T extraBody = none := by
  unfold writeExtra
  split_ifs
  · rfl
  · exact hT 0

/-- A relay all of whose writes succeed keeps to `n` bytes only if the reads fit. -/
theorem readsFit_of_relayBody {T : Target} (hT : ∀ i, T.writes i = none) {extraBody : Str} {n : ℕ}
    {reads : List ReadResult} (hlt : n < sizeMod) {body : Relayed}
    (h : relayBody T extraBody n reads = some body) (hwrap : body.wrapped = false)
    (hsent : body.sent.length ≤ n) :
    extraBody.length ≤ kDefaultBufSize ∧ extraBody.length ≤ n ∧
      ReadsFit (n - extraBody.length) reads := by
  rw [relayBody, writeExtra_of_writes hT, Option.ite_none_left_eq_some] at h
  obtain ⟨hbuf, h⟩ := h
  obtain rfl := Option.some.inj h
  have hle : extraBody.length ≤ n := by simpa using hwrap
  simp only [leftBodyLength_eq hle hlt, List.length_append] at hsent
  have hleft : n - extraBody.length < sizeMod := by omega
  refine ⟨by omega, hle, ?_⟩
  simpa using readsFit_of_relayLoop hT hleft 0 1 reads (Nat.zero_le _) (by omega)

/-- An accepted length is a `size_t`. -/
theorem requestContentLength_lt {c : Bool} {m m' : RequestMeta} {headers : List Header}
    (hm : m.requestContentLength = 0) (h : extractMetaFromHeaders c m headers = some m') :
    m'.requestContentLength < sizeMod := by
  have hlen := requestContentLength_extractMeta h
  cases hv : lastValue (lit "content-length") headers with
  | none =>
    rw [hv] at hlen
    rw [hlen, hm]
    norm_num [sizeMod]
  | some v =>
    rw [hv] at hlen
    exact fromChars_lt hlen.2

/-- A request with a method the gateway does not know has nothing of its body forwarded. For
any other, the declared body is all that is forwarded exactly when the bytes that came with
its header fit the relay's buffer and the body, and every later read that starts within the
body ends within it. -/
theorem forwardsBodyOnly_iff (P : PhrParser) (cs : List Str) (reads : List ReadResult)
    (h : HttpProxyHandler) (c : Bool) (m m' : RequestMeta) (hr : HeaderReadBy P cs h)
    (hm : m.requestContentLength = 0)
    (hmeta : extractMetaFromHeaders c m h.request.headers = some m') :
    ForwardsBodyOnly h m' (cs.flatten ++ received reads) reads ↔
      stringToVerb (h.request.method.getD []) = none ∨
        h.extraBody.length ≤ kDefaultBufSize ∧ h.extraBody.length ≤ m'.requestContentLength ∧
          ReadsFit (m'.requestContentLength - h.extraBody.length) reads := by
  have hlt := requestContentLength_lt hm hmeta
  unfold ForwardsBodyOnly
  rw [hr.drop_append]
  constructor
  · intro hall
    cases hverb : stringToVerb (h.request.method.getD []) with
    | none => exact Or.inl rfl
    | some verb =>
      obtain ⟨run, hrun, hwrap, hsent⟩ := hall false (.willing []) [] []
      simp only [handleHttpRequest, Target.willing, hverb, Bool.not_true, Bool.false_and,
        Bool.false_eq_true, if_false] at hrun
      obtain ⟨body, hbody, rfl⟩ := Option.map_eq_some_iff.1 hrun
      rw [body_respond] at hwrap hsent
      exact Or.inr (readsFit_of_relayBody (fun _ => rfl) hlt hbody hwrap
        (hsent.length_le.trans (List.length_take_le _ _)))
  · intro hcond isSsl T targetHost targetUrl
    rcases handleHttpRequest_cases isSsl T targetHost targetUrl h m' reads with
      hrun | ⟨verb, hverb, hrun⟩
    · exact ⟨_, hrun, rfl, List.nil_prefix⟩
    · obtain ⟨hbuf, hle, hfit⟩ := hcond.resolve_left (by simp [hverb])
      obtain ⟨body, hbody, hwrap, hsent⟩ := relayBody_of_readsFit T hlt hbuf hle hfit
      rw [hrun, hbody]
      exact ⟨_, rfl, by rwa [body_respond], by rwa [body_respond]⟩

/-- One read with a header that declares five bytes, and two of them. -/
theorem exec_put : (headerReads pico).exec [lit "PUT / HTTP/1.1\r\nContent-Length: 5\r\n\r\nhe"] =
    ⟨lit "PUT / HTTP/1.1\r\nContent-Length: 5\r\n\r\nhe", 37,
      ⟨37, some (lit "PUT"), some (lit "/"), 1, [.ofStrings "Content-Length" "5"]⟩,
      .parsed 2⟩ := by
  decide +kernel

theorem headerReadBy_put : HeaderReadBy pico [lit "PUT / HTTP/1.1\r\nContent-Length: 5\r\n\r\nhe"]
    ((headerReads pico).exec [lit "PUT / HTTP/1.1\r\nContent-Length: 5\r\n\r\nhe"]) := by
  refine ⟨by decide, rfl, ?_, ?_⟩
  · rw [exec_put]
    exact ⟨2, rfl⟩
  · rw [exec_put]
    simp

/-- A body of five bytes, two of which came with the header. -/
theorem forwardsBodyOnly_iff_two_reads :
    let cs := [lit "PUT / HTTP/1.1\r\nContent-Length: 5\r\n\r\nhe"]
    let h := (headerReads pico).exec cs
    HeaderReadBy pico cs h ∧
      extractMetaFromHeaders true ⟨.none, [], 0, false⟩ h.request.headers =
        some ⟨.none, [], 5, false⟩ ∧
      ForwardsBodyOnly h ⟨.none, [], 5, false⟩ (cs.flatten ++ lit "llo") [.data (lit "llo")] := by
  have hmeta : extractMetaFromHeaders true ⟨.none, [], 0, false⟩
      ((headerReads pico).exec
        [lit "PUT / HTTP/1.1\r\nContent-Length: 5\r\n\r\nhe"]).request.headers =
      some ⟨.none, [], 5, false⟩ := by
    rw [exec_put]
    decide
  refine ⟨headerReadBy_put, hmeta, ?_⟩
  refine (forwardsBodyOnly_iff pico _ [.data (lit "llo")] _ true _ _ headerReadBy_put rfl
    hmeta).2 ?_
  rw [exec_put]
  decide

/-- A second request right behind the first one is forwarded as its body. -/
theorem not_forwardsBodyOnly_pipelined :
    let cs := [lit "GET / HTTP/1.1\r\nHost: a\r\n\r\nGET"]
    let h := (headerReads pico).exec cs
    let m : RequestMeta := ⟨.none, [], 0, false⟩
    HeaderReadBy pico cs h ∧ extractMetaFromHeaders true m h.request.headers = some m ∧
      (handleHttpRequest false (.willing []) (lit "b") (lit "/") h m []).map
        (fun run => (run.body.sent, run.body.wrapped)) = some (lit "GET", true) ∧
      ¬ForwardsBodyOnly h m cs.flatten [] := by
  have hexec : (headerReads pico).exec [lit "GET / HTTP/1.1\r\nHost: a\r\n\r\nGET"] =
      ⟨lit "GET / HTTP/1.1\r\nHost: a\r\n\r\nGET", 27,
        ⟨27, some (lit "GET"), some (lit "/"), 1, [.ofStrings "Host" "a"]⟩, .parsed 3⟩ := by
    decide +kernel
  have hr : HeaderReadBy pico [lit "GET / HTTP/1.1\r\nHost: a\r\n\r\nGET"]
      ((headerReads pico).exec [lit "GET / HTTP/1.1\r\nHost: a\r\n\r\nGET"]) := by
    refine ⟨by decide, rfl, ?_, ?_⟩
    · rw [hexec]
      exact ⟨3, rfl⟩
    · rw [hexec]
      simp
  intro cs h m
  have hrun : (handleHttpRequest false (.willing []) (lit "b") (lit "/") h m []).map
      (fun run => (run.body.sent, run.body.wrapped)) = some (lit "GET", true) := by
    simp only [h, cs, hexec]
    decide +kernel
  refine ⟨hr, ?_, hrun, fun hall => ?_⟩
  · simp only [h, cs, hexec]
    decide
  obtain ⟨run, hsome, -, hsent⟩ := hall false (.willing []) (lit "b") (lit "/")
  rw [hsome] at hrun
  obtain ⟨hbody, -⟩ := Prod.mk.inj (Option.some.inj hrun)
  have := hsent.length_le.trans (List.length_take_le _ _)
  rw [hbody] at this
  exact absurd this (by decide)

/-! ## The bytes that come with the header -/

/-- Against every target, and whatever the reads to come, `handleHttpRequest` keeps inside its
buffer. Its one step that could leave it is the copy of the bytes that came with the header. -/
def CopyFits (h : HttpProxyHandler) : Prop :=
  ∀ isSsl T targetHost targetUrl m reads,
    (handleHttpRequest isSsl T targetHost targetUrl h m reads).isSome

theorem relayBody_isSome_iff (T : Target) (extraBody : Str) (requestContentLength : ℕ)
    (reads : List ReadResult) :
    (relayBody T extraBody requestContentLength reads).isSome ↔
      extraBody.length ≤ kDefaultBufSize := by
  unfold relayBody
  split_ifs with hover
  · exact iff_of_false (by simp) (by omega)
  · refine iff_of_true ?_ (by omega)
    cases writeExtra T extraBody <;> rfl

/-- The copy stays inside the relay's buffer exactly for a method the gateway does not know, as
there is no copy then, and when the reads up to the end of the header go at most
`kDefaultBufSize` bytes past it. -/
theorem copyFits_iff (P : PhrParser) (cs : List Str) (h : HttpProxyHandler)
    (hr : HeaderReadBy P cs h) :
    CopyFits h ↔ stringToVerb ((P.parse cs.flatten).method.getD []) = none ∨
      (cs.flatten.length : ℤ) ≤ (P.parse cs.flatten).pret + kDefaultBufSize := by
  obtain ⟨extraBodyLen, hphase⟩ := hr.parsed
  have hp : Progress P h := hr.exec_eq ▸ (progress_exec hr.delivers).1
  obtain ⟨hextra, -⟩ := hp.extraBody_eq hphase
  unfold Progress at hp
  rw [hphase] at hp
  obtain ⟨hreq, hacc, htotal, hlen, -⟩ := hp
  have hpos := PhrRequest.pret_pos hacc
  have hsurplus : h.extraBody.length ≤ kDefaultBufSize ↔
      (cs.flatten.length : ℤ) ≤ (P.parse cs.flatten).pret + kDefaultBufSize := by
    rw [hr.all_read, ← hreq, hextra, List.length_drop]
    omega
  rw [← hsurplus, hr.all_read, ← hreq]
  constructor
  · intro hall
    cases hverb : stringToVerb (h.request.method.getD []) with
    | none => exact Or.inl rfl
    | some verb =>
      have hrun := hall false (.willing []) [] [] ⟨.none, [], 0, false⟩ []
      simp only [handleHttpRequest, Target.willing, hverb, Bool.not_true, Bool.false_and,
        Bool.false_eq_true, if_false, Option.isSome_map] at hrun
      exact Or.inr ((relayBody_isSome_iff _ _ _ _).1 hrun)
  · intro hcond isSsl T targetHost targetUrl m reads
    rcases handleHttpRequest_cases isSsl T targetHost targetUrl h m reads with
      hrun | ⟨verb, hverb, hrun⟩
    · rw [hrun]
      rfl
    · rw [hrun, Option.isSome_map]
      exact (relayBody_isSome_iff _ _ _ _).2 (hcond.resolve_left (by simp [hverb]))

/-- One read with a whole header and the bytes after it. -/
theorem headerReadBy_one_read {P : PhrParser} {hdr rest : Str} (hacc : (P.parse hdr).isAccepted)
    (hle : (hdr ++ rest).length ≤ kMaxHttpHeaderSize) :
    HeaderReadBy P [hdr ++ rest] ⟨hdr ++ rest, (P.parse hdr).pret.toNat, P.parse hdr,
      .parsed ((hdr ++ rest).length - (P.parse hdr).pret.toNat)⟩ := by
  have hpos := PhrRequest.pret_pos hacc
  have hpret := P.pret_le hdr
  refine ⟨?_, exec_one_read hacc rest, ⟨_, rfl⟩, by simp⟩
  rw [← List.nil_append [hdr ++ rest], Machine.along_snoc]
  refine ⟨Machine.along_nil, ?_, hle⟩
  rw [List.length_append]
  omega

/-- A header of `27` bytes with two bytes after it, all in one read. -/
theorem copyFits_iff_two_bytes :
    let hdr := lit "GET / HTTP/1.1\r\nHost: a\r\n\r\n"
    ∃ h, HeaderReadBy pico [hdr ++ lit "xy"] h ∧ h.phase = .parsed 2 ∧ CopyFits h := by
  intro hdr
  have hacc : (pico.parse hdr).isAccepted := by decide +kernel
  have hr := headerReadBy_one_read hacc
    (show (hdr ++ lit "xy").length ≤ kMaxHttpHeaderSize by decide)
  have hphase : Phase.parsed ((hdr ++ lit "xy").length - (pico.parse hdr).pret.toNat) =
      .parsed 2 := by
    decide +kernel
  exact ⟨_, hr, hphase, (copyFits_iff pico _ _ hr).2 (Or.inr (by decide +kernel))⟩

/-- A header of `27` bytes with `4097` bytes after it, all in one read. -/
theorem not_copyFits_long_read :
    let hdr := lit "GET / HTTP/1.1\r\nHost: a\r\n\r\n"
    let m : RequestMeta := ⟨.none, [], 0, false⟩
    ∃ h, HeaderReadBy pico [hdr ++ List.replicate 4097 120] h ∧
      extractMetaFromHeaders true m h.request.headers = some m ∧
      h.phase = .parsed 4097 ∧ ¬4097 ≤ kDefaultBufSize ∧
      handleHttpRequest false (.willing []) (lit "baidu.com") (lit "/") h m [] = none := by
  intro hdr m
  have hacc : (pico.parse hdr).isAccepted := by decide +kernel
  have hpret : (pico.parse hdr).pret = 27 := by decide +kernel
  have hlen : (hdr ++ List.replicate 4097 120).length = 4124 := by
    rw [List.length_append, List.length_replicate]
    rfl
  have hr := headerReadBy_one_read hacc
    (show (hdr ++ List.replicate 4097 120).length ≤ kMaxHttpHeaderSize by rw [hlen]; decide)
  have hverb : stringToVerb ((pico.parse hdr).method.getD []) = some .get := by decide +kernel
  refine ⟨_, hr, by decide +kernel, ?_, by decide, ?_⟩
  · simp only [hlen, hpret]
    rfl
  · simp only [handleHttpRequest, Target.willing, hverb, Bool.not_true, Bool.false_and,
      Bool.false_eq_true, if_false, Option.map_eq_none_iff]
    have hextra : ((hdr ++ List.replicate 4097 120).drop 27).take 4097 =
        List.replicate 4097 120 := by
      rw [List.drop_left' (by rfl), List.take_of_length_le (by rw [List.length_replicate])]
    rw [← Option.not_isSome_iff_eq_none, relayBody_isSome_iff]
    simp only [HttpProxyHandler.extraBody, hlen, hpret, Int.reduceToNat, Nat.reduceSub, hextra,
      List.length_replicate]
    decide

/-! ## The whole body -/

/-- Reads that bring no more than is left, and either all of it or the end of the stream, let
the loop come to its end. If no write fails it has written what they brought. -/
theorem relayLoop_chunks (T : Target) {left : ℕ} (hlt : left < sizeMod) (tail : List ReadResult) :
    ∀ (chunks : List Str) (nRead i : ℕ),
      (nRead + chunks.flatten.length = left ∨
        nRead + chunks.flatten.length < left ∧ ∃ rest, tail = .eof :: rest) →
      (relayLoop T left nRead i (chunks.map .data ++ tail)).2 ≠ .blocked ∧
        ((∀ j, T.writes j = none) →
          relayLoop T left nRead i (chunks.map .data ++ tail) = (chunks.flatten, .finished))
  | [], nRead, i, hleft => by
    have hend : relayLoop T left nRead i tail = ([], .finished) := by
      rcases hleft with rfl | ⟨hless, rest, rfl⟩
      · cases tail with
        | nil => simp [relayLoop]
        | cons r tail => simp [relayLoop]
      · replace hless : nRead < left := by simpa using hless
        simp [relayLoop, hless]
    rw [List.map_nil, List.nil_append, hend]
    exact ⟨by simp, fun _ => rfl⟩
  | bytes :: chunks, nRead, i, hleft => by
    rw [List.flatten_cons, List.length_append] at hleft
    by_cases hless : nRead < left
    · have hmod : (nRead + bytes.length) % sizeMod = nRead + bytes.length :=
        Nat.mod_eq_of_lt (by omega)
      rw [List.map_cons, List.cons_append, relayLoop, if_pos hless]
      cases hw : T.writes i with
      | some k =>
        refine ⟨by simp, fun hall => ?_⟩
        simp [hall i] at hw
      | none =>
        obtain ⟨hnot, hall⟩ := relayLoop_chunks T hlt tail chunks (nRead + bytes.length) (i + 1)
          (by rw [Nat.add_assoc]; exact hleft)
        simp only [hmod]
        refine ⟨hnot, fun h => ?_⟩
        rw [hall h, List.flatten_cons]
    · obtain rfl : bytes = [] := List.eq_nil_of_length_eq_zero (by omega)
      have hnil : chunks.flatten = [] := List.eq_nil_of_length_eq_zero (by omega)
      have hend : relayLoop T left nRead i (([] :: chunks).map .data ++ tail) =
          ([], .finished) := by
        rw [List.map_cons, List.cons_append, relayLoop, if_neg hless]
      rw [hend, List.flatten_cons, hnil]
      exact ⟨by simp, fun _ => rfl⟩

theorem received_data (chunks : List Str) (tail : List ReadResult) :
    received (chunks.map .data ++ tail) = chunks.flatten ++ received tail := by
  induction chunks with
  | nil => rfl
  | cons bytes chunks ih =>
    rw [List.map_cons, List.cons_append, received, ih, List.flatten_cons, List.append_assoc]

theorem readsFit_data {tail : List ReadResult} : ∀ (chunks : List Str) (missing : ℕ),
    (chunks.flatten.length = missing ∨
      chunks.flatten.length < missing ∧ ∃ rest, tail = .eof :: rest) →
    ReadsFit missing (chunks.map .data ++ tail)
  | [], missing, h => by
    rcases h with rfl | ⟨-, rest, rfl⟩
    · cases tail with
      | nil => trivial
      | cons r tail =>
        cases r with
        | data bytes => exact Or.inl rfl
        | eof => trivial
        | error => trivial
    · trivial
  | bytes :: chunks, missing, h => by
    rw [List.flatten_cons, List.length_append] at h
    refine Or.inr ⟨by omega, readsFit_data chunks (missing - bytes.length) ?_⟩
    rcases h with h | ⟨h, htail⟩
    · exact Or.inl (by omega)
    · exact Or.inr ⟨by omega, htail⟩

/-- The relay of a body the client sends whole, or breaks off by closing the connection. It
comes to its end, what it writes is an initial part of the body, and if no write fails it is
the body as far as the client sent it. -/
theorem relayBody_whole (T : Target) {extraBody : Str} {n : ℕ} {chunks : List Str}
    {tail : List ReadResult} (hlt : n < sizeMod) (hbuf : extraBody.length ≤ kDefaultBufSize)
    (hlen : (extraBody ++ chunks.flatten).length = n ∨
      (extraBody ++ chunks.flatten).length < n ∧ ∃ rest, tail = .eof :: rest) :
    ∃ body, relayBody T extraBody n (chunks.map .data ++ tail) = some body ∧
      body.next ≠ .blocked ∧ body.sent <+: extraBody ++ chunks.flatten ∧
      ((∀ i, T.writes i = none) →
        body.sent = extraBody ++ chunks.flatten ∧ body.next = .finished) := by
  rw [List.length_append] at hlen
  have hle : extraBody.length ≤ n := by omega
  have hleft : chunks.flatten.length = n - extraBody.length ∨
      chunks.flatten.length < n - extraBody.length ∧ ∃ rest, tail = .eof :: rest := by
    rcases hlen with hlen | ⟨hlen, htail⟩
    · exact Or.inl (by omega)
    · exact Or.inr ⟨by omega, htail⟩
  have htake : (extraBody ++ received (chunks.map .data ++ tail)).take n =
      extraBody ++ chunks.flatten := by
    rw [received_data, ← List.append_assoc]
    rcases hlen with hlen | ⟨hlen, rest, rfl⟩
    · exact List.take_left' (by rw [List.length_append, hlen])
    · show ((extraBody ++ chunks.flatten) ++ []).take n = _
      rw [List.append_nil]
      exact List.take_of_length_le (by rw [List.length_append]; omega)
  obtain ⟨body, hbody, -, hsent⟩ := relayBody_of_readsFit T hlt hbuf hle
    (readsFit_data chunks _ hleft)
  rw [htake] at hsent
  have hloop := relayLoop_chunks T (show n - extraBody.length < sizeMod by omega) tail chunks 0 1
    (by simpa using hleft)
  refine ⟨body, hbody, ?_⟩
  rw [relayBody, if_neg (by omega), leftBodyLength_eq hle hlt] at hbody
  cases hw : writeExtra T extraBody with
  | some k =>
    rw [hw] at hbody
    obtain rfl := Option.some.inj hbody
    refine ⟨by simp, hsent, fun hall => ?_⟩
    simp [writeExtra_of_writes hall] at hw
  | none =>
    rw [hw] at hbody
    obtain rfl := Option.some.inj hbody
    exact ⟨hloop.1, hsent, fun hall => by simp only [hloop.2 hall, and_self]⟩

/-- A client sends its header and then the declared body, or closes the connection before the
end of it. If what came with the header fits the relay's buffer, the relay comes to its end,
and what the target gets after the header, if it gets one, is the body in order : an initial
part of it if a write fails, and otherwise all the client sent. -/
theorem relay_whole_body (P : PhrParser) (cs chunks : List Str) (tail : List ReadResult)
    (body : Str) (h : HttpProxyHandler) (c : Bool) (m m' : RequestMeta) (isSsl : Bool) (T : Target)
    (targetHost targetUrl : Str) (hr : HeaderReadBy P cs h) (hm : m.requestContentLength = 0)
    (hmeta : extractMetaFromHeaders c m h.request.headers = some m')
    (hbuf : h.extraBody.length ≤ kDefaultBufSize)
    (hbody : (cs.flatten ++ chunks.flatten).drop h.totalParsed = body)
    (hlen : body.length = m'.requestContentLength ∨
      body.length < m'.requestContentLength ∧ ∃ rest, tail = .eof :: rest) :
    ∃ run, handleHttpRequest isSsl T targetHost targetUrl h m' (chunks.map .data ++ tail) =
        some run ∧
      run.body.next ≠ .blocked ∧ run.body.sent <+: body ∧
      (run.header.isSome → (∀ i, T.writes i = none) →
        run.body.sent = body ∧ run.body.next = .finished) := by
  rw [hr.drop_append] at hbody
  subst hbody
  rcases handleHttpRequest_cases isSsl T targetHost targetUrl h m' (chunks.map .data ++ tail) with
    hrun | ⟨verb, hverb, hrun⟩
  · exact ⟨_, hrun, by simp [HttpRun.failed], List.nil_prefix, by simp [HttpRun.failed]⟩
  · obtain ⟨body, hsome, hnext, hsent, hall⟩ := relayBody_whole T (requestContentLength_lt hm hmeta)
      hbuf hlen
    rw [hrun, hsome]
    refine ⟨_, rfl, ?_⟩
    rw [body_respond]
    exact ⟨hnext, hsent, fun _ => hall⟩

/-- A body of five bytes, two of which came with the header and three in two reads. -/
theorem relay_whole_body_three_reads :
    let cs := [lit "PUT / HTTP/1.1\r\nContent-Length: 5\r\n\r\nhe"]
    let h := (headerReads pico).exec cs
    HeaderReadBy pico cs h ∧
      ∃ run, handleHttpRequest false (.willing []) (lit "b") (lit "/") h ⟨.none, [], 5, false⟩
          [.data (lit "l"), .data (lit "lo")] = some run ∧
        run.header.isSome ∧ run.body.sent = lit "hello" ∧ run.body.next = .finished := by
  intro cs h
  have hheader : (handleHttpRequest false (.willing []) (lit "b") (lit "/") h
      ⟨.none, [], 5, false⟩ [.data (lit "l"), .data (lit "lo")]).map (·.header.isSome) =
      some true := by
    simp only [h, cs, exec_put]
    decide +kernel
  have hmeta : extractMetaFromHeaders true ⟨.none, [], 0, false⟩ h.request.headers =
      some ⟨.none, [], 5, false⟩ := by
    simp only [h, cs, exec_put]
    decide
  obtain ⟨run, hrun, -, -, hall⟩ := relay_whole_body pico cs [lit "l", lit "lo"] [] (lit "hello") h
    true ⟨.none, [], 0, false⟩ ⟨.none, [], 5, false⟩ false (.willing []) (lit "b") (lit "/")
    headerReadBy_put rfl hmeta (by simp only [h, cs, exec_put]; decide)
    (by simp only [h, cs, exec_put]; decide) (Or.inl rfl)
  replace hrun : handleHttpRequest false (.willing []) (lit "b") (lit "/") h
      ⟨.none, [], 5, false⟩ [.data (lit "l"), .data (lit "lo")] = some run := hrun
  rw [hrun] at hheader
  have hsome : run.header.isSome := by simpa using hheader
  exact ⟨headerReadBy_put, run, hrun, hsome, hall hsome fun _ => rfl⟩

end Azugate
