import Azugate.HttpMessage

/-!
# The byte parser

`HttpParser::ParseByte` is a machine of six states that is fed one byte at a time. In each
state it collects the bytes of a word in `msg_buffer_` until the byte that ends the word :
SP for the method and the URL, LF for the version and the header lines. It drops CR after
the URL, and in the header lines SP as well, and writes these in lower case. A header line
is split at its first colon and stored as `key: val`.

`parseBytes_collect` is the run rule : a run over bytes that do not end the word collects
them, and `parseBytes_word_end` adds the byte that does. With them `parseBytes_stringify`
follows the text of a request through the machine. `HttpRequest::StringifyFirstLine` writes
no line end, so the version runs on into what `StringifyHeaders` writes, and no request is
read back (`not_roundTrips`).
-/

namespace Azugate

/-! ## The machine -/

/-- `State`. -/
inductive ParserState where
  | method
  | url
  | version
  | headers
  | done
  | err
  deriving DecidableEq, Repr

/-- The members of `HttpParser` that `ParseByte` reads and writes. -/
structure HttpParser where
  request : HttpRequest
  msgBuffer : Str
  state : ParserState
  nTotalRead : ℕ
  deriving DecidableEq, Repr

/-- `isascii`. -/
def isascii (c : UInt8) : Bool :=
  c < 128

namespace HttpParser

/-- A parser as constructed. -/
def fresh : HttpParser :=
  ⟨⟨[], [], [], []⟩, [], .method, 0⟩

/-- The end of a header line : the line is stored in two parts, and the empty line is the
end of the headers. -/
def endHeader (p : HttpParser) : HttpParser :=
  if p.msgBuffer = [] then { p with state := .done }
  else
    match find (lit ":") p.msgBuffer with
    | none => { p with state := .err }
    | some pos =>
      let key := p.msgBuffer.take pos
      let val := p.msgBuffer.drop (pos + 1)
      { p with
        request.headers := p.request.headers ++ [key ++ lit ": " ++ val]
        msgBuffer := [] }

/-- The `switch` of `ParseByte`. -/
def onChar (p : HttpParser) (curChar : UInt8) : HttpParser :=
  match p.state with
  | .method =>
    if curChar = space then
      { p with request.method := p.msgBuffer, msgBuffer := [], state := .url }
    else { p with msgBuffer := p.msgBuffer ++ [curChar] }
  | .url =>
    if curChar = space then
      { p with request.url := p.msgBuffer, msgBuffer := [], state := .version }
    else { p with msgBuffer := p.msgBuffer ++ [curChar] }
  | .version =>
    if curChar = cr then p
    else if curChar = lf then
      { p with request.version := p.msgBuffer, msgBuffer := [], state := .headers }
    else if curChar = space then { p with state := .err }
    else { p with msgBuffer := p.msgBuffer ++ [curChar] }
  | .headers =>
    if curChar = cr then p
    else if curChar = lf then p.endHeader
    else if curChar = space then p
    else { p with msgBuffer := p.msgBuffer ++ [tolower curChar] }
  | .done => p
  | .err => p

/-- `HttpParser::ParseByte`. -/
def parseByte (kMaxMsgLength : ℕ) (p : HttpParser) (curChar : UInt8) : HttpParser :=
  if !isascii curChar then { p with state := .err }
  else
    let p := { p with nTotalRead := (p.nTotalRead + 1) % sizeMod }
    if kMaxMsgLength < p.nTotalRead then { p with state := .err } else p.onChar curChar

/-- `ParseByte` on each byte in turn. -/
def parseBytes (kMaxMsgLength : ℕ) (p : HttpParser) (bytes : Str) : HttpParser :=
  bytes.foldl (parseByte kMaxMsgLength) p

/-! ## Runs -/

variable {kMaxMsgLength : ℕ}

@[simp] theorem parseBytes_nil (p : HttpParser) : p.parseBytes kMaxMsgLength [] = p :=
  rfl

@[simp] theorem parseBytes_cons (p : HttpParser) (c : UInt8) (bytes : Str) :
    p.parseBytes kMaxMsgLength (c :: bytes) =
      (p.parseByte kMaxMsgLength c).parseBytes kMaxMsgLength bytes :=
  rfl

theorem parseBytes_append (p : HttpParser) (bytes bytes' : Str) :
    p.parseBytes kMaxMsgLength (bytes ++ bytes') =
      (p.parseBytes kMaxMsgLength bytes).parseBytes kMaxMsgLength bytes' :=
  List.foldl_append

/-- The counter after `n` more bytes. -/
def counted (p : HttpParser) (n : ℕ) : HttpParser :=
  { p with nTotalRead := p.nTotalRead + n }

/-- A byte within the limit goes to the `switch`. -/
theorem parseByte_eq (hmax : kMaxMsgLength < sizeMod) {p : HttpParser} {c : UInt8}
    (hc : isascii c) (hn : p.nTotalRead < kMaxMsgLength) :
    p.parseByte kMaxMsgLength c = (p.counted 1).onChar c := by
  have hmod : (p.nTotalRead + 1) % sizeMod = p.nTotalRead + 1 := Nat.mod_eq_of_lt (by omega)
  simp only [parseByte, hc, Bool.not_true, Bool.false_eq_true, if_false, hmod,
    if_neg (Nat.not_lt.2 hn)]
  rfl

theorem parseByte_of_err {p : HttpParser} (h : p.state = .err) (c : UInt8) :
    (p.parseByte kMaxMsgLength c).state = .err := by
  simp only [parseByte]
  split_ifs
  · rfl
  · rfl
  · simp [onChar, h]

/-- An error is final. -/
theorem parseBytes_of_err :
    ∀ (bytes : Str) {p : HttpParser}, p.state = .err →
      (p.parseBytes kMaxMsgLength bytes).state = .err
  | [], _, h => h
  | c :: bytes, _, h => parseBytes_of_err bytes (parseByte_of_err h c)

/-- The byte does not end the word that is collected in the state. -/
def Collects : ParserState → UInt8 → Prop
  | .method, c => c ≠ space
  | .url, c => c ≠ space
  | .version, c => c ≠ space ∧ c ≠ lf
  | .headers, c => c ≠ lf
  | .done, _ => True
  | .err, _ => True

/-- What the state collects of the byte. -/
def collected : ParserState → UInt8 → Str
  | .method, c => [c]
  | .url, c => [c]
  | .version, c => if c = cr then [] else [c]
  | .headers, c => if c = cr ∨ c = space then [] else [tolower c]
  | .done, _ => []
  | .err, _ => []

theorem onChar_of_collects {p : HttpParser} {c : UInt8} (h : Collects p.state c) :
    p.onChar c = { p with msgBuffer := p.msgBuffer ++ collected p.state c } := by
  obtain ⟨request, msgBuffer, state, n⟩ := p
  cases state with
  | method => exact if_neg h
  | url => exact if_neg h
  | version =>
    obtain ⟨hspace, hlf⟩ := h
    by_cases hcr : c = cr
    · simp [onChar, collected, hcr]
    · simp [onChar, collected, hcr, hlf, hspace]
  | headers =>
    replace h : c ≠ lf := h
    by_cases hcr : c = cr
    · simp [onChar, collected, hcr]
    · by_cases hspace : c = space
      · subst hspace
        simp [onChar, collected, hcr, h]
      · simp [onChar, collected, hcr, h, hspace]
  | done => simp [onChar, collected]
  | err => simp [onChar, collected]

/-- The parser after it has collected the bytes of `w`. -/
def collectWord (p : HttpParser) (w : Str) : HttpParser :=
  { p with
    msgBuffer := p.msgBuffer ++ w.flatMap (collected p.state)
    nTotalRead := p.nTotalRead + w.length }

/-- A run over bytes that do not end the word collects them. -/
theorem parseBytes_collect (hmax : kMaxMsgLength < sizeMod) :
    ∀ (w : Str) (p : HttpParser), (∀ c ∈ w, isascii c ∧ Collects p.state c) →
      p.nTotalRead + w.length ≤ kMaxMsgLength →
      p.parseBytes kMaxMsgLength w = p.collectWord w
  | [], p, _, _ => by simp [collectWord]
  | c :: w, p, hw, hlen => by
    rw [List.length_cons] at hlen
    obtain ⟨hc, hcol⟩ := hw c (by simp)
    have hstep : p.parseByte kMaxMsgLength c = p.collectWord [c] := by
      rw [parseByte_eq hmax hc (by omega), onChar_of_collects (p := p.counted 1) hcol]
      simp [counted, collectWord]
    rw [parseBytes_cons, hstep,
      parseBytes_collect hmax w (p.collectWord [c]) (fun d hd => hw d (by simp [hd]))
        (by simp only [collectWord, List.length_singleton]; omega)]
    simp [collectWord, Nat.add_assoc, Nat.add_comm 1]

/-- A word and the byte that ends it. -/
theorem parseBytes_word_end (hmax : kMaxMsgLength < sizeMod) {w : Str} {c : UInt8}
    (p : HttpParser) (hw : ∀ d ∈ w, isascii d ∧ Collects p.state d) (hc : isascii c)
    (hlen : p.nTotalRead + (w.length + 1) ≤ kMaxMsgLength) :
    p.parseBytes kMaxMsgLength (w ++ [c]) = ((p.collectWord w).counted 1).onChar c := by
  rw [parseBytes_append, parseBytes_collect hmax w p hw (by omega), parseBytes_cons,
    parseBytes_nil, parseByte_eq hmax hc (by simp only [collectWord]; omega)]

/-- In the version, a space before the line end is an error. -/
theorem parseBytes_version_space :
    ∀ (w : Str) {p : HttpParser}, p.state = .version → lf ∉ w →
      (p.parseBytes kMaxMsgLength (w ++ [space])).state = .err
  | [], p, hs, _ => by
    simp only [List.nil_append, parseBytes_cons, parseBytes_nil, parseByte]
    split_ifs
    · rfl
    · rfl
    · simp only [onChar, hs]
      rfl
  | c :: w, p, hs, hlf => by
    obtain ⟨hc, hw⟩ := not_or.1 (mt List.mem_cons.2 hlf)
    rw [List.cons_append, parseBytes_cons]
    have hstep : (p.parseByte kMaxMsgLength c).state = .version ∨
        (p.parseByte kMaxMsgLength c).state = .err := by
      simp only [parseByte, onChar, hs, if_neg (Ne.symm hc)]
      split_ifs <;> simp
    rcases hstep with h | h
    · exact parseBytes_version_space w h hw
    · exact parseBytes_of_err _ h

end HttpParser

/-! ## The text of a request -/

/-- The bytes of a word on the first line. -/
def IsWord (s : Str) : Prop :=
  ∀ c ∈ s, isascii c ∧ c ≠ space ∧ c ≠ cr ∧ c ≠ lf

instance (s : Str) : Decidable (IsWord s) :=
  List.decidableBAll _ _

/-- A header in the form the parser stores it. -/
def IsStoredHeader (h : Str) : Prop :=
  ∃ key val, h = key ++ lit ": " ++ val ∧ toLower key = key ∧ colon ∉ key ∧
    (∀ c ∈ key ++ val, c ≠ space ∧ c ≠ cr ∧ c ≠ lf)

namespace HttpRequest

/-- The request can be written on lines of its own : words on the first line, headers in
the form the parser stores. -/
structure WellFormed (r : HttpRequest) : Prop where
  method : IsWord r.method
  url : IsWord r.url
  version : IsWord r.version
  headers : ∀ h ∈ r.headers, IsStoredHeader h

/-- A fresh parser reads the request's text back to the request. -/
def RoundTrips (kMaxMsgLength : ℕ) (r : HttpRequest) : Prop :=
  (HttpParser.fresh.parseBytes kMaxMsgLength r.stringify).state = .done ∧
    (HttpParser.fresh.parseBytes kMaxMsgLength r.stringify).request = r

end HttpRequest

namespace HttpParser

variable {kMaxMsgLength : ℕ}

/-- The states of the first line collect the bytes of a word as they are. -/
theorem collected_of_isWord {w : Str} (hw : IsWord w) {s : ParserState}
    (hs : s = .method ∨ s = .url ∨ s = .version) {c : UInt8} (hc : c ∈ w) :
    (isascii c ∧ Collects s c) ∧ collected s c = [c] := by
  obtain ⟨hascii, hspace, hcr, hlf⟩ := hw c hc
  rcases hs with rfl | rfl | rfl
  · exact ⟨⟨hascii, hspace⟩, rfl⟩
  · exact ⟨⟨hascii, hspace⟩, rfl⟩
  · exact ⟨⟨hascii, hspace, hlf⟩, if_neg hcr⟩

theorem flatMap_collected_of_isWord {w : Str} (hw : IsWord w) {s : ParserState}
    (hs : s = .method ∨ s = .url ∨ s = .version) : w.flatMap (collected s) = w := by
  conv_rhs => rw [← List.flatMap_singleton' w]
  exact List.flatMap_congr fun c hc => (collected_of_isWord hw hs hc).2

theorem parseBytes_word (hmax : kMaxMsgLength < sizeMod) {w : Str} (hw : IsWord w)
    (p : HttpParser) (hs : p.state = .method ∨ p.state = .url ∨ p.state = .version)
    (hbuf : p.msgBuffer = []) (hlen : p.nTotalRead + w.length ≤ kMaxMsgLength) :
    p.parseBytes kMaxMsgLength w =
      { p with msgBuffer := w, nTotalRead := p.nTotalRead + w.length } := by
  rw [parseBytes_collect hmax w p (fun c hc => (collected_of_isWord hw hs hc).1) hlen,
    collectWord, flatMap_collected_of_isWord hw hs, hbuf, List.nil_append]

/-- A word that a space ends goes to the `switch` as a whole. -/
theorem parseBytes_word_space (hmax : kMaxMsgLength < sizeMod) {w : Str} (hw : IsWord w)
    (p : HttpParser) (hs : p.state = .method ∨ p.state = .url ∨ p.state = .version)
    (hbuf : p.msgBuffer = []) (hlen : p.nTotalRead + (w.length + 1) ≤ kMaxMsgLength) :
    p.parseBytes kMaxMsgLength (w ++ [space]) =
      onChar { p with msgBuffer := w, nTotalRead := p.nTotalRead + w.length + 1 } space := by
  rw [parseBytes_word_end hmax p (fun c hc => (collected_of_isWord hw hs hc).1) (by decide) hlen,
    collectWord, flatMap_collected_of_isWord hw hs, hbuf, List.nil_append]
  rfl

/-- The first line leaves the parser in the version, with the version in the buffer. -/
theorem parseBytes_firstLine (hmax : kMaxMsgLength < sizeMod) {r : HttpRequest}
    (hr : r.WellFormed) (hlen : r.stringifyFirstLine.length ≤ kMaxMsgLength) :
    fresh.parseBytes kMaxMsgLength r.stringifyFirstLine =
      ⟨⟨r.method, r.url, [], []⟩, r.version, .version, r.stringifyFirstLine.length⟩ := by
  have hsum : r.stringifyFirstLine.length =
      0 + r.method.length + 1 + r.url.length + 1 + r.version.length := by
    simp [HttpRequest.stringifyFirstLine]
    omega
  have hmethod := parseBytes_word_space hmax hr.method fresh (Or.inl rfl) rfl
    (by simp only [fresh]; omega)
  have hurl := parseBytes_word_space hmax hr.url
    ⟨⟨r.method, [], [], []⟩, [], .url, 0 + r.method.length + 1⟩ (Or.inr (Or.inl rfl)) rfl
    (by simp only; omega)
  have hversion := parseBytes_word hmax hr.version
    ⟨⟨r.method, r.url, [], []⟩, [], .version, 0 + r.method.length + 1 + r.url.length + 1⟩
    (Or.inr (Or.inr rfl)) rfl (by simp only; omega)
  have htext : r.stringifyFirstLine =
      (r.method ++ [space]) ++ ((r.url ++ [space]) ++ r.version) := by
    simp [HttpRequest.stringifyFirstLine]
  rw [hsum, htext, parseBytes_append, hmethod, parseBytes_append]
  exact (congrArg (parseBytes kMaxMsgLength · r.version) hurl).trans hversion

end HttpParser

namespace HttpRequest

variable {kMaxMsgLength : ℕ}

/-- Where the text of a request leaves the parser : the CRLF that should end the headers ends
the version, and with headers the space of the first one is an error in the version. -/
theorem parseBytes_stringify (hmax : kMaxMsgLength < sizeMod) {r : HttpRequest}
    (hr : r.WellFormed) (hlen : r.stringify.length ≤ kMaxMsgLength) :
    (HttpParser.fresh.parseBytes kMaxMsgLength r.stringify).state =
      if r.headers = [] then .headers else .err := by
  rw [stringify, List.length_append] at hlen
  rw [stringify, HttpParser.parseBytes_append,
    HttpParser.parseBytes_firstLine hmax hr (by omega)]
  cases hheaders : r.headers with
  | nil =>
    rw [hheaders] at hlen
    simp only [stringifyHeaders, kCrlf, List.flatMap_nil, List.nil_append, List.length_cons,
      List.length_nil] at hlen ⊢
    rw [HttpParser.parseBytes_cons, HttpParser.parseByte_eq hmax (by decide) (by simp only; omega),
      HttpParser.parseBytes_cons, HttpParser.parseByte_eq hmax (by decide)
        (by simp [HttpParser.onChar, HttpParser.counted]; omega)]
    rfl
  | cons h hs =>
    obtain ⟨key, val, rfl, -, -, hbytes⟩ := hr.headers h (by simp [hheaders])
    have htext : stringifyHeaders ((key ++ lit ": " ++ val) :: hs) =
        ((key ++ [colon]) ++ [space]) ++ (val ++ kCrlf ++ stringifyHeaders hs) := by
      simp [stringifyHeaders, lit, colon, space]
    have hlf : lf ∉ key ++ [colon] := by
      intro hmem
      rcases List.mem_append.1 hmem with hkey | hcolon
      · exact (hbytes lf (List.mem_append_left val hkey)).2.2 rfl
      · exact absurd hcolon (by decide)
    rw [htext, HttpParser.parseBytes_append, if_neg (by simp)]
    exact HttpParser.parseBytes_of_err _ (HttpParser.parseBytes_version_space _ rfl hlf)

/-- No request is read back from its own text. -/
theorem not_roundTrips (hmax : kMaxMsgLength < sizeMod) (r : HttpRequest) (hr : r.WellFormed)
    (hlen : r.stringify.length ≤ kMaxMsgLength) : ¬r.RoundTrips kMaxMsgLength := by
  rintro ⟨hdone, -⟩
  rw [parseBytes_stringify hmax hr hlen] at hdone
  split_ifs at hdone

theorem not_roundTrips_host :
    let r : HttpRequest := ⟨lit "GET", lit "/", lit "HTTP/1.1", [lit "host: a"]⟩
    r.WellFormed ∧ r.stringify.length ≤ 4096 ∧ ¬r.RoundTrips 4096 := by
  intro r
  have hr : r.WellFormed := by
    refine ⟨by decide +kernel, by decide +kernel, by decide +kernel, ?_⟩
    intro h hh
    rw [List.mem_singleton.1 hh]
    exact ⟨lit "host", lit "a", by decide, by decide, by decide, by decide +kernel⟩
  exact ⟨hr, by decide, not_roundTrips (by decide) r hr (by decide)⟩

/-- The text of a request without headers leaves the parser waiting for them. -/
theorem not_roundTrips_no_headers :
    let r : HttpRequest := ⟨lit "GET", lit "/", lit "HTTP/1.1", []⟩
    r.WellFormed ∧ r.stringify.length ≤ 4096 ∧
      (HttpParser.fresh.parseBytes 4096 r.stringify).state = .headers ∧
      ¬r.RoundTrips 4096 := by
  intro r
  have hstate : (HttpParser.fresh.parseBytes 4096 r.stringify).state = .headers := by decide
  refine ⟨⟨by decide +kernel, by decide +kernel, by decide +kernel, ?_⟩, by decide, hstate, ?_⟩
  · intro h hh
    simp [r] at hh
  · rintro ⟨hdone, -⟩
    rw [hstate] at hdone
    exact absurd hdone (by decide)

end HttpRequest

end Azugate
