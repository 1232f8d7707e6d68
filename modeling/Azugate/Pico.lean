import Azugate.Headers
import Azugate.Incremental
import Mathlib.Data.List.DropRight

/-!
# The request parser

`phr_parse_request` of picohttpparser, as the handler calls it : on the bytes received so
far, from the start (`last_len` is zero). It is written here with the incremental
combinators, one definition for each function of the C source. Those read a byte at `buf`
after `CHECK_EOF`, and the end of the buffer is an answer of its own, `-2`.

The handler relies on two facts about the call only, which `PhrParser` carries. For
picohttpparser they follow from the stability of the combinators (`pico`).
-/

namespace Azugate

open Incremental Incremental.Parser

/-! ## Characters -/

/-- `' '` or `'\t'`. -/
def isBlank (c : UInt8) : Bool :=
  c == space || c == 9

/-- `token_char_map`. -/
def isTokenChar (c : UInt8) : Bool :=
  isDigit c || (65 ≤ c && c ≤ 90) || (97 ≤ c && c ≤ 122) || (lit "!#$%&'*+-.^_`|~").contains c

/-- A byte that ends the path with an error in `ADVANCE_TOKEN`. -/
def isControl (c : UInt8) : Bool :=
  c < space || c == 127

namespace Pico

/-! ## The functions of the C source -/

/-- The end of a line : `"\r\n"` or `'\n'`. -/
def eol : Parser UInt8 Unit := do
  let c ← item
  if c = cr then tokens [lf]
  else if c = lf then Parser.pure ()
  else fail

/-- The empty line some clients send before a request. -/
def skipEmptyLine : Parser UInt8 Unit := do
  let c ← peek
  if c = cr ∨ c = lf then eol else Parser.pure ()

/-- `parse_token`. -/
def parseToken (nextChar : UInt8) : Parser UInt8 Str :=
  takeUntil (· == nextChar) fun c => !isTokenChar c

/-- `ADVANCE_TOKEN`. -/
def advanceToken : Parser UInt8 Str :=
  takeUntil (· == space) isControl

/-- The `do … while (*buf == ' ')` after a token. -/
def skipSpaces : Parser UInt8 Unit := do
  let _ ← item
  let _ ← takeUntil (· != space) fun _ => false
  Parser.pure ()

/-- `parse_http_version`. -/
def parseHttpVersion : Parser UInt8 ℕ := do
  atLeast 9
  tokens (lit "HTTP/1.")
  let d ← satisfy isDigit
  Parser.pure (d.toNat - 48)

/-- `get_token_to_eol`. A tab is part of the text, any other control character ends it. -/
def getTokenToEol : Parser UInt8 Str := do
  let token ← takeUntil (fun c => isControl c && c != 9) fun _ => false
  eol
  Parser.pure token

/-- The name of a header, with the colon and the blanks after it. -/
def parseHeaderName : Parser UInt8 Str := do
  let name ← parseToken 58
  if name = [] then fail
  else do
    let _ ← item
    let _ ← takeUntil (fun c => !isBlank c) fun _ => false
    Parser.pure name

/-- The name of the header on a line that starts with `c`. A line after the first that starts
with a blank continues the one before and has none. -/
def parseLineName (first : Bool) (c : UInt8) : Parser UInt8 (Option Str) :=
  if !first && isBlank c then Parser.pure none
  else do
    let name ← parseHeaderName
    Parser.pure (some name)

/-- One pass of the loop of `parse_headers`. -/
def parseHeader (first : Bool) (c : UInt8) : Parser UInt8 Header := do
  let name ← parseLineName first c
  let value ← getTokenToEol
  Parser.pure ⟨name, some (value.rdropWhile isBlank)⟩

/-- `parse_headers`, with room for `left` more headers. -/
def parseHeaders (left : ℕ) (first : Bool) : Parser UInt8 (List Header) := do
  let c ← peek
  if c = cr ∨ c = lf then do
    eol
    Parser.pure []
  else
    match left with
    | 0 => fail
    | left + 1 => do
      let header ← parseHeader first c
      let headers ← parseHeaders left false
      Parser.pure (header :: headers)

end Pico

/-! ## The call -/

/-- The result of `phr_parse_request` and what it leaves in its output parameters. -/
structure PhrRequest where
  pret : ℤ
  method : Option Str
  path : Option Str
  minorVersion : ℤ
  headers : List Header
  deriving DecidableEq, Repr

namespace Pico

/-- The value of the output parameters before a request is parsed. -/
def unparsed (pret : ℤ) : PhrRequest :=
  ⟨pret, none, none, -1, []⟩

/-- `parse_request`. -/
def parseRequest (maxHeaders : ℕ) : Parser UInt8 PhrRequest := do
  skipEmptyLine
  let method ← parseToken space
  skipSpaces
  let path ← advanceToken
  skipSpaces
  if method = [] ∨ path = [] then fail
  else do
    let minorVersion ← parseHttpVersion
    eol
    let headers ← parseHeaders maxHeaders true
    Parser.pure ⟨0, some method, some path, minorVersion, headers⟩

/-- `phr_parse_request`, before its result becomes an `int` (`PhrRequest.returned`, which changes
nothing below `2^31` bytes). The handler reads the output parameters of a complete request
only. -/
def phrParseRequest (maxHeaders : ℕ) (buf : Str) : PhrRequest :=
  match parseRequest maxHeaders buf with
  | .done request rest => { request with pret := buf.length - rest.length }
  | .more => unparsed (-2)
  | .fail => unparsed (-1)

/-! ## Stability -/

theorem stable_eol : Stable eol :=
  stable_item.bind fun _ =>
    Stable.ite _ (stable_tokens _) (Stable.ite _ (stable_pure ()) stable_fail)

theorem stable_skipEmptyLine : Stable skipEmptyLine :=
  stable_peek.bind fun _ => Stable.ite _ stable_eol (stable_pure ())

theorem stable_skipSpaces : Stable skipSpaces :=
  stable_item.bind fun _ => (stable_takeUntil _ _).bind fun _ => stable_pure ()

theorem stable_parseHttpVersion : Stable parseHttpVersion :=
  (stable_atLeast 9).bind fun _ => (stable_tokens _).bind fun _ =>
    (stable_satisfy isDigit).bind fun _ => stable_pure _

theorem stable_getTokenToEol : Stable getTokenToEol :=
  (stable_takeUntil _ _).bind fun _ => stable_eol.bind fun _ => stable_pure _

theorem stable_parseHeaderName : Stable parseHeaderName :=
  (stable_takeUntil _ _).bind fun _ => Stable.ite _ stable_fail <|
    stable_item.bind fun _ => (stable_takeUntil _ _).bind fun _ => stable_pure _

theorem stable_parseLineName (first : Bool) (c : UInt8) : Stable (parseLineName first c) :=
  Stable.ite _ (stable_pure none) (stable_parseHeaderName.bind fun _ => stable_pure _)

theorem stable_parseHeader (first : Bool) (c : UInt8) : Stable (parseHeader first c) :=
  (stable_parseLineName first c).bind fun _ =>
    stable_getTokenToEol.bind fun _ => stable_pure _

theorem stable_parseHeaders : ∀ (left : ℕ) (first : Bool), Stable (parseHeaders left first)
  | left, first => by
    rw [parseHeaders.eq_def]
    refine stable_peek.bind fun c => Stable.ite _ (stable_eol.bind fun _ => stable_pure _) ?_
    cases left with
    | zero => exact stable_fail
    | succ left =>
      exact (stable_parseHeader first c).bind fun _ =>
        (stable_parseHeaders left false).bind fun _ => stable_pure _

theorem stable_parseRequest (maxHeaders : ℕ) : Stable (parseRequest maxHeaders) :=
  stable_skipEmptyLine.bind fun _ => (stable_takeUntil _ _).bind fun _ =>
    stable_skipSpaces.bind fun _ => (stable_takeUntil _ _).bind fun _ =>
    stable_skipSpaces.bind fun _ => Stable.ite _ stable_fail <|
    stable_parseHttpVersion.bind fun _ => stable_eol.bind fun _ =>
    (stable_parseHeaders maxHeaders true).bind fun _ => stable_pure _

theorem pret_phrParseRequest_le (maxHeaders : ℕ) (buf : Str) :
    (phrParseRequest maxHeaders buf).pret ≤ buf.length := by
  unfold phrParseRequest
  cases parseRequest maxHeaders buf with
  | done request rest =>
    show (buf.length : ℤ) - rest.length ≤ buf.length
    omega
  | more =>
    show (-2 : ℤ) ≤ buf.length
    omega
  | fail =>
    show (-1 : ℤ) ≤ buf.length
    omega

/-- A complete request and an error are what they are whatever bytes follow. -/
theorem phrParseRequest_append (maxHeaders : ℕ) {buf : Str}
    (h : (phrParseRequest maxHeaders buf).pret ≠ -2) (more : Str) :
    phrParseRequest maxHeaders (buf ++ more) = phrParseRequest maxHeaders buf := by
  have hstable := stable_parseRequest maxHeaders
  cases hp : parseRequest maxHeaders buf with
  | done request rest =>
    simp only [phrParseRequest, hstable.done hp more, hp, List.length_append, Int.natCast_add]
    congr 1
    omega
  | more => simp [phrParseRequest, hp, unparsed] at h
  | fail => simp only [phrParseRequest, hstable.fail hp more, hp]

end Pico

/-! ## What the handler relies on -/

/-- A function that can stand for `phr_parse_request`. Its result is at most the length it was
given, and one other than `-2` (more input needed) does not change with more input. -/
structure PhrParser where
  /-- The call. -/
  parse : Str → PhrRequest
  pret_le : ∀ buf, (parse buf).pret ≤ buf.length
  parse_append : ∀ {buf}, (parse buf).pret ≠ -2 → ∀ more, parse (buf ++ more) = parse buf

/-- picohttpparser, with the handler's array of headers. -/
def pico : PhrParser where
  parse := Pico.phrParseRequest kMaxHeadersNum
  pret_le := Pico.pret_phrParseRequest_le kMaxHeadersNum
  parse_append := Pico.phrParseRequest_append kMaxHeadersNum

/-- A request whose header is continued on a line of its own. -/
example :
    pico.parse (lit "GET /a HTTP/1.1\r\nHost: b \r\n c\n\nrest") =
      ⟨31, some (lit "GET"), some (lit "/a"), 1,
        [⟨some (lit "Host"), some (lit "b")⟩, ⟨none, some (lit " c")⟩]⟩ := by
  decide +kernel

end Azugate
