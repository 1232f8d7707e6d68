import Azugate.HttpMessage
import Azugate.PicoGrammar

/-!
# Responses and the response parser

`phr_parse_response` shares its header loop and its version with the request parser. The status
is three digits, and the reason phrase is the rest of the line without the spaces before it.

`phrParseResponse_accepts_iff` is its language, as for requests. What `HttpResponse` writes for a
status of three digits, after any calls of its setters with printable arguments, is a text of that
language, and it is read back : the status, the phrase, and one header for each call that writes
one (`phrParseResponse_stringify`).
-/

namespace Azugate

open Incremental Incremental.Parser

/-- The result of `phr_parse_response` and what it leaves in its output parameters. -/
structure PhrResponse where
  pret : ℤ
  minorVersion : ℤ
  status : ℕ
  msg : Option Str
  headers : List Header
  deriving DecidableEq, Repr

/-- What the caller of `phr_parse_response` gets : its result is converted to `int`. -/
def PhrResponse.returned (resp : PhrResponse) : PhrResponse :=
  { resp with pret := Pico.toInt resp.pret }

namespace Pico

/-! ## The functions of the C source -/

/-- `PARSE_INT_3`. -/
def parseInt3 : Parser UInt8 ℕ := do
  let a ← satisfy isDigit
  let b ← satisfy isDigit
  let c ← satisfy isDigit
  Parser.pure (100 * (a.toNat - 48) + 10 * (b.toNat - 48) + (c.toNat - 48))

/-- The reason phrase, from the text behind the status. -/
def trimMessage (text : Str) : Parser UInt8 Str :=
  if text = [] then Parser.pure []
  else if text.head? = some space then Parser.pure (text.dropWhile (· == space))
  else fail

/-- `parse_response`. -/
def parseResponse (maxHeaders : ℕ) : Parser UInt8 PhrResponse := do
  let minorVersion ← parseHttpVersion
  let c ← peek
  if c ≠ space then fail
  else do
    skipSpaces
    atLeast 4
    let status ← parseInt3
    let text ← getTokenToEol
    let msg ← trimMessage text
    let headers ← parseHeaders maxHeaders true
    Parser.pure ⟨0, minorVersion, status, some msg, headers⟩

/-- The value of the output parameters before a response is parsed. -/
def unparsedResponse (pret : ℤ) : PhrResponse :=
  ⟨pret, -1, 0, none, []⟩

/-- `phr_parse_response`, with `last_len` zero, and before its result becomes an `int`. -/
def phrParseResponse (maxHeaders : ℕ) (buf : Str) : PhrResponse :=
  match parseResponse maxHeaders buf with
  | .done response rest => { response with pret := buf.length - rest.length }
  | .more => unparsedResponse (-2)
  | .fail => unparsedResponse (-1)

/-! ## Stability -/

theorem stable_parseInt3 : Stable parseInt3 :=
  (stable_satisfy isDigit).bind fun _ => (stable_satisfy isDigit).bind fun _ =>
    (stable_satisfy isDigit).bind fun _ => stable_pure _

theorem stable_trimMessage (text : Str) : Stable (trimMessage text) :=
  Stable.ite _ (stable_pure []) (Stable.ite _ (stable_pure _) stable_fail)

theorem stable_parseResponse (maxHeaders : ℕ) : Stable (parseResponse maxHeaders) :=
  stable_parseHttpVersion.bind fun _ => stable_peek.bind fun _ => Stable.ite _ stable_fail <|
    stable_skipSpaces.bind fun _ => (stable_atLeast 4).bind fun _ =>
    stable_parseInt3.bind fun _ => stable_getTokenToEol.bind fun _ =>
    (stable_trimMessage _).bind fun _ => (stable_parseHeaders maxHeaders true).bind fun _ =>
    stable_pure _

/-! ## The language -/

theorem parseInt3_eq_done_iff {n : ℕ} {xs rest : Str} :
    parseInt3 xs = .done n rest ↔ ∃ a b c, (∀ d ∈ [a, b, c], isDigit d = true) ∧
      n = decimal [a, b, c] ∧ xs = a :: b :: c :: rest := by
  have hvalue : ∀ a b c : UInt8, decimal [a, b, c] =
      100 * (a.toNat - 48) + 10 * (b.toNat - 48) + (c.toNat - 48) := by
    intro a b c
    simp only [decimal, List.foldl_cons, List.foldl_nil]
    omega
  simp only [parseInt3, bind_eq_done_iff, satisfy_eq_done_iff, pure_eq_done_iff, hvalue]
  constructor
  · rintro ⟨a, s1, ⟨rfl, ha⟩, b, s2, ⟨rfl, hb⟩, c, s3, ⟨rfl, hc⟩, rfl, rfl⟩
    exact ⟨a, b, c, by simp [ha, hb, hc], rfl, rfl⟩
  · rintro ⟨a, b, c, hall, rfl, rfl⟩
    simp only [List.mem_cons, List.not_mem_nil, or_false, forall_eq_or_imp, forall_eq] at hall
    exact ⟨a, _, ⟨rfl, hall.1⟩, b, _, ⟨rfl, hall.2.1⟩, c, _, ⟨rfl, hall.2.2⟩, rfl, rfl⟩

theorem trimMessage_eq_done_iff {text msg xs rest : Str} :
    trimMessage text xs = .done msg rest ↔
      (∀ c ∈ text.head?, c = space) ∧ text.dropWhile (· == space) = msg ∧ xs = rest := by
  unfold trimMessage
  cases text with
  | nil => simp [pure_eq_done_iff]
  | cons c text =>
    by_cases hc : c = space
    · simp [hc, pure_eq_done_iff]
    · simp [hc, fail_ne_done]

/-- The parts of a response. -/
structure ResponseParts where
  minorVersion : UInt8
  /-- The spaces after the first behind the version. -/
  spaces : ℕ
  /-- The digits of the status. -/
  status : UInt8 × UInt8 × UInt8
  /-- The reason phrase with the spaces before it. -/
  text : Str
  withCr : Bool
  lines : List HeaderLine
  endsWithCr : Bool

namespace ResponseParts

/-- The digits of the status as a text. -/
def statusText (r : ResponseParts) : Str :=
  [r.status.1, r.status.2.1, r.status.2.2]

/-- The text of the response. -/
def toText (r : ResponseParts) : Str :=
  lit "HTTP/1." ++ r.minorVersion :: space :: (List.replicate r.spaces space ++ (r.statusText ++
    (r.text ++ (lineEnd r.withCr ++
      (r.lines.flatMap HeaderLine.toText ++ lineEnd r.endsWithCr)))))

/-- The version and the status are digits, the phrase is printable and set off by a space, and the
header lines can stand where they do. -/
structure WellFormed (maxHeaders : ℕ) (r : ResponseParts) : Prop where
  minorVersion : isDigit r.minorVersion = true
  status : ∀ d ∈ r.statusText, isDigit d = true
  text : (∀ c ∈ r.text, (isControl c && c != 9) = false) ∧ ∀ c ∈ r.text.head?, c = space
  lines : WellFormedLines true r.lines
  room : r.lines.length ≤ maxHeaders

/-- The response of the parts, as `parse_response` leaves it in its output parameters. -/
def response (r : ResponseParts) : PhrResponse :=
  ⟨0, (r.minorVersion.toNat - 48 : ℕ), decimal r.statusText,
    some (r.text.dropWhile (· == space)), r.lines.map HeaderLine.header⟩

end ResponseParts

theorem ne_space_of_isDigit {d : UInt8} (h : isDigit d = true) : d ≠ space := by
  rintro rfl
  exact absurd h (by decide)

/-- `parse_response` is done exactly on the text of a well-formed response, whatever follows it. -/
theorem parseResponse_eq_done_iff {maxHeaders : ℕ} {resp : PhrResponse} {xs rest : Str} :
    parseResponse maxHeaders xs = .done resp rest ↔
      ∃ r : ResponseParts, r.WellFormed maxHeaders ∧ xs = r.toText ++ rest ∧ resp = r.response := by
  constructor
  · intro h
    obtain ⟨minorVersion, s1, hversion, h⟩ := bind_eq_done_iff.1 h
    obtain ⟨c, s2, hpeek, hrest⟩ := bind_eq_done_iff.1 h
    obtain ⟨rfl, hc⟩ := peek_eq_done_iff.1 hpeek
    split_ifs at hrest with hspace
    · exact absurd hrest fail_ne_done
    obtain ⟨⟨⟩, s3, hspaces, h⟩ := bind_eq_done_iff.1 hrest
    obtain ⟨⟨⟩, s4, hwait, h⟩ := bind_eq_done_iff.1 h
    obtain ⟨-, rfl⟩ := atLeast_eq_done_iff.1 hwait
    obtain ⟨status, s5, hstatus, h⟩ := bind_eq_done_iff.1 h
    obtain ⟨text, s6, htext, h⟩ := bind_eq_done_iff.1 h
    obtain ⟨msg, s7, hmsg, h⟩ := bind_eq_done_iff.1 h
    obtain ⟨headers, s8, hheaders, hpure⟩ := bind_eq_done_iff.1 h
    obtain ⟨rfl, rfl⟩ := pure_eq_done_iff.1 hpure
    -- each part in turn, from the last to the first
    obtain ⟨lines, endsWithCr, hroom, hlines, rfl, rfl⟩ := parseHeaders_eq_done_iff.1 hheaders
    obtain ⟨hhead, rfl, rfl⟩ := trimMessage_eq_done_iff.1 hmsg
    obtain ⟨hprint, withCr, rfl⟩ := getTokenToEol_eq_done_iff.1 htext
    obtain ⟨d1, d2, d3, hdigits, rfl, rfl⟩ := parseInt3_eq_done_iff.1 hstatus
    obtain ⟨-, x, spaces, rfl⟩ := skipSpaces_eq_done_iff.1 hspaces
    obtain ⟨-, d, hd, rfl, rfl⟩ := parseHttpVersion_eq_done_iff.1 hversion
    obtain rfl : x = space := (Option.some.inj hc).trans (not_not.1 hspace)
    refine ⟨⟨d, spaces, (d1, d2, d3), text, withCr, lines, endsWithCr⟩,
      ⟨hd, hdigits, ⟨hprint, hhead⟩, hlines, hroom⟩, ?_, rfl⟩
    simp [ResponseParts.toText, ResponseParts.statusText]
  · rintro ⟨⟨d, spaces, ⟨d1, d2, d3⟩, text, withCr, lines, endsWithCr⟩, hr, rfl, rfl⟩
    obtain ⟨hd, hdigits, ⟨hprint, hhead⟩, hlines, hroom⟩ := hr
    have htext : ResponseParts.toText ⟨d, spaces, (d1, d2, d3), text, withCr, lines, endsWithCr⟩ ++
        rest = lit "HTTP/1." ++ d :: (space :: (List.replicate spaces space ++ d1 :: d2 :: d3 ::
          (text ++ lineEnd withCr ++
            (lines.flatMap HeaderLine.toText ++ lineEnd endsWithCr ++ rest)))) := by
      simp [ResponseParts.toText, ResponseParts.statusText]
    have hd1 : isDigit d1 = true := hdigits d1 (by simp [ResponseParts.statusText])
    rw [htext]
    refine bind_eq_done_iff.2 ⟨d.toNat - 48, _,
        parseHttpVersion_eq_done_iff.2 ⟨List.cons_ne_nil _ _, d, hd, rfl, rfl⟩,
      bind_eq_done_iff.2 ⟨space, _, peek_eq_done_iff.2 ⟨rfl, rfl⟩, ?_⟩⟩
    rw [if_neg (by simp)]
    refine bind_eq_done_iff.2 ⟨(), _,
        skipSpaces_eq_done_iff.2 ⟨⟨d1, rfl, ne_space_of_isDigit hd1⟩, space, spaces, rfl⟩,
      bind_eq_done_iff.2 ⟨(), _, atLeast_eq_done_iff.2 ⟨?_, rfl⟩,
      bind_eq_done_iff.2 ⟨_, _, parseInt3_eq_done_iff.2 ⟨d1, d2, d3, hdigits, rfl, rfl⟩,
      bind_eq_done_iff.2 ⟨text, _, getTokenToEol_eq_done_iff.2 ⟨hprint, withCr, rfl⟩,
      bind_eq_done_iff.2 ⟨_, _, trimMessage_eq_done_iff.2 ⟨hhead, rfl, rfl⟩,
      bind_eq_done_iff.2 ⟨_, _,
        parseHeaders_eq_done_iff.2 ⟨lines, endsWithCr, hroom, hlines, rfl, rfl⟩, rfl⟩⟩⟩⟩⟩⟩
    -- the line has an end, so a fourth character is there
    have hend := List.length_pos_iff.2
      (lineEnd_append_ne_nil withCr (lines.flatMap HeaderLine.toText ++ lineEnd endsWithCr ++ rest))
    rw [List.length_append] at hend
    simp only [List.length_cons, List.length_append] at hend ⊢
    omega

theorem phrParseResponse_of_wellFormed {maxHeaders : ℕ} {r : ResponseParts}
    (hr : r.WellFormed maxHeaders) (rest : Str) :
    phrParseResponse maxHeaders (r.toText ++ rest) =
      { r.response with pret := r.toText.length } := by
  rw [phrParseResponse, parseResponse_eq_done_iff.2 ⟨r, hr, rfl, rfl⟩]
  simp

/-- The result of `phr_parse_response` is positive exactly on the text of a well-formed response
whose length is positive as an `int`, whatever follows it. It is that length, and the answer is the
response the text writes. -/
theorem phrParseResponse_accepts_iff (maxHeaders : ℕ) (buf : Str) (resp : PhrResponse) :
    ((phrParseResponse maxHeaders buf).returned = resp ∧ 0 < resp.pret) ↔
      ∃ (r : ResponseParts) (rest : Str), r.WellFormed maxHeaders ∧ buf = r.toText ++ rest ∧
        resp = { r.response with pret := toInt r.toText.length } ∧ 0 < resp.pret := by
  constructor
  · rintro ⟨hresp, hpos⟩
    unfold phrParseResponse at hresp
    cases hparse : parseResponse maxHeaders buf with
    | done resp' rest =>
      simp only [hparse] at hresp
      obtain ⟨r, hr, rfl, rfl⟩ := parseResponse_eq_done_iff.1 hparse
      refine ⟨r, rest, hr, rfl, ?_, hpos⟩
      rw [← hresp, List.length_append, PhrResponse.returned]
      simp
    | more =>
      simp only [hparse] at hresp
      rw [← hresp] at hpos
      exact absurd hpos (by decide)
    | fail =>
      simp only [hparse] at hresp
      rw [← hresp] at hpos
      exact absurd hpos (by decide)
  · rintro ⟨r, rest, hr, rfl, rfl, hpos⟩
    rw [phrParseResponse_of_wellFormed hr rest]
    exact ⟨rfl, hpos⟩

/-! ## What `HttpResponse` writes -/

/-- The text without the blanks around it. -/
def trimBlanks (s : Str) : Str :=
  (s.dropWhile isBlank).rdropWhile isBlank

end Pico

/-- No argument of the call has a control character, but for tabs. -/
def HeaderCall.Printable (call : HeaderCall) : Prop :=
  ∀ text ∈ call.arguments, ∀ c ∈ text, (isControl c && c != 9) = false

/-- The headers a client reads for a call. -/
def HeaderCall.headers : HeaderCall → List Header
  | .setAcceptEncoding _ => []
  | call => [⟨some call.field, some (Pico.trimBlanks call.value)⟩]

namespace Pico

theorem isTokenChar_field (call : HeaderCall) :
    call.field ≠ [] ∧ ∀ c ∈ call.field, isTokenChar c = true := by
  rw [← List.all_eq_true]
  cases call <;> simp only [HeaderCall.field] <;> decide +kernel

theorem printable_digitChar : ∀ d < 10, (isControl (digitChar d) && digitChar d != 9) = false := by
  decide

/-- The value of a call with printable arguments is printable. -/
theorem printable_value {call : HeaderCall} (hcall : call.Printable) :
    ∀ c ∈ call.value, (isControl c && c != 9) = false := by
  have hjoined : ∀ texts : List Str, (∀ text ∈ texts, ∀ c ∈ text, (isControl c && c != 9) = false) →
      ∀ c ∈ (lit ",").intercalate texts, (isControl c && c != 9) = false := by
    intro texts htexts c hc
    by_contra hcontrol
    refine notMem_intercalate (c := c) ?_ (fun text htext hmem => ?_) hc
    · intro hcomma
      obtain rfl := List.mem_singleton.1 hcomma
      exact hcontrol (by decide)
    · exact hcontrol (htexts text htext c hmem)
  cases call with
  | setCookie key val =>
    obtain ⟨hkey, hval⟩ : (∀ c ∈ key, (isControl c && c != 9) = false) ∧
        ∀ c ∈ val, (isControl c && c != 9) = false :=
      ⟨hcall key (by simp [HeaderCall.arguments]), hcall val (by simp [HeaderCall.arguments])⟩
    intro c hc
    simp only [HeaderCall.value, List.mem_append] at hc
    rcases hc with (hc | hc) | hc
    · exact hkey c hc
    · obtain rfl := List.mem_singleton.1 hc
      decide
    · exact hval c hc
  | setKeepAlive keepAlive => cases keepAlive <;> simp only [HeaderCall.value] <;> decide +kernel
  | setContentLength len =>
    intro c hc
    obtain ⟨d, hd, rfl⟩ := mem_numeral (by decide) hc
    exact printable_digitChar d hd
  | setAllowHeaders texts | setAllowMethods texts | setAcceptEncoding texts =>
    exact hjoined texts hcall
  | _ => exact hcall _ (List.mem_singleton.2 rfl)

/-- The line of a setter, as the parser sees it. -/
theorem exists_headerLine {call : HeaderCall} (hcall : call.Printable) {line : Str}
    (hline : call.IsLine line) :
    ∃ l : HeaderLine, (∀ first, l.WellFormed first) ∧ l.toText = line ++ kCrlf ∧
      l.header = ⟨some call.field, some (trimBlanks call.value)⟩ := by
  have hvalue := printable_value hcall
  have hwell : ∀ blanks : Str, (∀ c ∈ blanks, isBlank c = true) → ∀ first,
      HeaderLine.WellFormed first
        ⟨some call.field, blanks, call.value.dropWhile isBlank, true⟩ := by
    intro blanks hblanks first
    refine ⟨fun name hname => ?_, by simp, hblanks, fun c hc => ?_⟩
    · obtain rfl := Option.some.inj hname
      refine ⟨(isTokenChar_field call).1, (isTokenChar_field call).2, fun c hc => ?_⟩
      have := List.head?_dropWhile_not isBlank call.value
      rw [Option.mem_def.1 hc] at this
      simpa using this
    · exact hvalue c ((List.dropWhile_suffix _).mem hc)
  have htake : ∀ c ∈ call.value.takeWhile isBlank, isBlank c = true :=
    fun c => List.mem_takeWhile_imp
  have hcut : call.value.takeWhile isBlank ++ call.value.dropWhile isBlank = call.value :=
    List.takeWhile_append_dropWhile
  rcases hline with rfl | rfl
  · refine ⟨⟨_, call.value.takeWhile isBlank, _, true⟩, hwell _ htake, ?_, rfl⟩
    simp only [HeaderLine.toText, HeaderLine.beforeEnd, Option.elim_some, List.append_assoc]
    rw [← List.append_assoc (call.value.takeWhile isBlank), hcut]
    rfl
  · refine ⟨⟨_, space :: call.value.takeWhile isBlank, _, true⟩, hwell _ ?_, ?_, rfl⟩
    · exact List.forall_mem_cons.2 ⟨by decide, htake⟩
    · simp only [HeaderLine.toText, HeaderLine.beforeEnd, Option.elim_some, List.append_assoc,
        List.cons_append]
      rw [← List.append_assoc (call.value.takeWhile isBlank), hcut]
      rfl

theorem wellFormedLines_of_forall :
    ∀ {lines : List HeaderLine} {first : Bool}, (∀ l ∈ lines, ∀ first, l.WellFormed first) →
      WellFormedLines first lines
  | [], _, _ => trivial
  | l :: lines, first, h => by
    obtain ⟨hl, hlines⟩ := List.forall_mem_cons.1 h
    exact ⟨hl first, wellFormedLines_of_forall hlines⟩

/-- The lines of a sequence of calls. -/
theorem exists_headerLines {calls : List HeaderCall} (hcalls : ∀ call ∈ calls, call.Printable) :
    ∃ lines : List HeaderLine, (∀ l ∈ lines, ∀ first, l.WellFormed first) ∧
      lines.flatMap HeaderLine.toText =
        (calls.flatMap HeaderCall.lines).flatMap (fun line => line ++ kCrlf) ∧
      lines.map HeaderLine.header = calls.flatMap HeaderCall.headers ∧
      lines.length ≤ calls.length := by
  induction calls with
  | nil => exact ⟨[], by simp, rfl, rfl, Nat.le_refl 0⟩
  | cons call calls ih =>
    obtain ⟨hcall, hcalls⟩ := List.forall_mem_cons.1 hcalls
    obtain ⟨lines, hlines, htext, hheaders, hlen⟩ := ih hcalls
    rcases call.lines_eq with ⟨types, rfl, hnil⟩ | ⟨hwrites, own, hown, hisLine⟩
    · refine ⟨lines, hlines, ?_, ?_, hlen.trans (Nat.le_succ _)⟩
      · rw [List.flatMap_cons, hnil, List.nil_append, htext]
      · rw [List.flatMap_cons, hheaders]
        rfl
    · obtain ⟨l, hl, hltext, hlheader⟩ := exists_headerLine hcall hisLine
      refine ⟨l :: lines, List.forall_mem_cons.2 ⟨hl, hlines⟩, ?_, ?_, Nat.succ_le_succ hlen⟩
      · simp only [List.flatMap_cons, List.flatMap_append, hown, hltext, htext, List.flatMap_nil,
          List.append_nil]
      · have hhead : call.headers = [⟨some call.field, some (trimBlanks call.value)⟩] := by
          cases call with
          | setAcceptEncoding types => exact absurd rfl (hwrites types)
          | _ => rfl
        rw [List.map_cons, List.flatMap_cons, hlheader, hheaders, hhead]
        rfl

-- `List.all` goes over the bytes of a text, where a decided `∀ c ∈ s` may go over all bytes.
theorem forall_mem_eq_false {p : UInt8 → Bool} {s : Str} (h : (s.all fun c => !p c) = true) :
    ∀ c ∈ s, p c = false :=
  fun c hc => by simpa using List.all_eq_true.1 h c hc

/-- The reason phrases are printable and do not start with a space. -/
theorem printable_message (code : UInt16) :
    (∀ c ∈ getMessageFromStatusCode code, (isControl c && c != 9) = false) ∧
      (getMessageFromStatusCode code).dropWhile (· == space) = getMessageFromStatusCode code := by
  have hall : ∀ s ∈ "Unknown Status" :: statusMessages.map Prod.snd,
      ((lit s).all fun c => !(isControl c && c != 9)) = true ∧
        (lit s).dropWhile (· == space) = lit s := by
    decide +kernel
  suffices hmem : (statusMessages.lookup code).getD "Unknown Status" ∈
      "Unknown Status" :: statusMessages.map Prod.snd by
    obtain ⟨hprint, htrim⟩ := hall _ hmem
    exact ⟨forall_mem_eq_false hprint, htrim⟩
  cases hlookup : statusMessages.lookup code with
  | none => exact List.mem_cons_self
  | some s =>
    obtain ⟨pre, post, hmem, -⟩ := List.lookup_eq_some_iff.1 hlookup
    exact List.mem_cons_of_mem _ (List.mem_map.2 ⟨(code, s), by simp [hmem], rfl⟩)

/-- What `HttpResponse` writes for a status of three digits, as the parts of a response. -/
theorem exists_responseParts {code : UInt16} (hcode : 100 ≤ code.toNat ∧ code.toNat < 1000)
    {calls : List HeaderCall} (hcalls : ∀ call ∈ calls, call.Printable) {maxHeaders : ℕ}
    (hroom : calls.length ≤ maxHeaders) :
    ∃ r : ResponseParts, r.WellFormed maxHeaders ∧
      HttpMessage.stringify
        (.response { statusCode := code, headers := calls.foldl HeaderCall.apply [] }) = r.toText ∧
      r.response = ⟨0, 1, code.toNat, some (getMessageFromStatusCode code),
        calls.flatMap HeaderCall.headers⟩ := by
  obtain ⟨lines, hlines, htext, hheaders, hlen⟩ := exists_headerLines hcalls
  obtain ⟨hprint, htrim⟩ := printable_message code
  have hdigit : ∀ d < 10, isDigit (digitChar d) = true := by decide
  have hdigits := numeral_three_digits (b := 10) (by decide) hcode.1 hcode.2
  obtain ⟨r, hr⟩ : ∃ r : ResponseParts, r = ⟨49, 0, (digitChar (code.toNat / 10 / 10),
    digitChar (code.toNat / 10 % 10), digitChar (code.toNat % 10)),
    space :: getMessageFromStatusCode code, true, lines, true⟩ := ⟨_, rfl⟩
  have hstatus : r.statusText = numeral 10 code.toNat := by rw [hr, hdigits]; rfl
  refine ⟨r, ?_, ?_, ?_⟩
  · subst hr
    refine ⟨show isDigit 49 = true by decide, fun d hd => ?_,
      ⟨List.forall_mem_cons.2 ⟨by decide, hprint⟩, by simp⟩, wellFormedLines_of_forall hlines,
      hlen.trans hroom⟩
    rw [hstatus] at hd
    obtain ⟨d, hlt, rfl⟩ := mem_numeral (by decide) hd
    exact hdigit d hlt
  · have hversion : lit "HTTP/1.1" = lit "HTTP/1." ++ [49] := by decide
    have hfold : calls.foldl HeaderCall.apply [] = calls.flatMap HeaderCall.lines := by
      rw [HeaderCall.foldl_apply, List.nil_append]
    simp only [HttpMessage.stringify, HttpMessage.stringifyFirstLine, HttpMessage.headers,
      HttpResponse.stringifyFirstLine, stringifyHeaders, ResponseParts.toText, hfold, hstatus]
    subst hr
    simp [hversion, htext, lineEnd, kCrlf]
  · have hdecimal : decimal (numeral 10 code.toNat) = code.toNat :=
      foldl_numeral (by decide) (by decide) _
    rw [ResponseParts.response, hstatus, hdecimal]
    subst hr
    simp [htrim, hheaders]

/-- What `HttpResponse` writes for a status of three digits is read back, whatever follows it, if it
is shorter than `2^31` bytes. -/
theorem phrParseResponse_stringify (code : UInt16) (hcode : 100 ≤ code.toNat ∧ code.toNat < 1000)
    (calls : List HeaderCall) (hcalls : ∀ call ∈ calls, call.Printable) (maxHeaders : ℕ)
    (hroom : calls.length ≤ maxHeaders) (body : Str) :
    let msg : HttpMessage :=
      .response { statusCode := code, headers := calls.foldl HeaderCall.apply [] }
    msg.stringify.length < 2 ^ 31 →
      (phrParseResponse maxHeaders (msg.stringify ++ body)).returned =
        ⟨msg.stringify.length, 1, code.toNat, some (getMessageFromStatusCode code),
          calls.flatMap HeaderCall.headers⟩ := by
  intro msg hlen
  obtain ⟨r, hwell, htext, hresponse⟩ := exists_responseParts hcode hcalls hroom
  replace htext : msg.stringify = r.toText := htext
  rw [htext, phrParseResponse_of_wellFormed hwell, hresponse, PhrResponse.returned,
    toInt_of_lt (htext ▸ hlen)]

/-- A page that is not there, with a cookie whose value has blanks around it. -/
theorem phrParseResponse_stringify_not_found :
    let calls := [HeaderCall.setAcceptEncoding [lit "gzip"], .setToken (lit " t "),
      .setContentLength 2]
    let msg : HttpMessage :=
      .response { statusCode := 404, headers := calls.foldl HeaderCall.apply [] }
    (phrParseResponse 256 (msg.stringify ++ lit "xy")).returned =
      ⟨msg.stringify.length, 1, 404, some (lit "Not Found"),
        [.ofStrings "Token" "t", .ofStrings "Content-Length" "2"]⟩ := by
  intro calls msg
  have hcalls : ∀ call ∈ calls, call.Printable := by
    simp only [calls, List.forall_mem_cons, HeaderCall.Printable, HeaderCall.arguments]
    decide +kernel
  have h := phrParseResponse_stringify 404 (by decide) calls hcalls 256 (by decide) (lit "xy")
    (by decide +kernel)
  exact h.trans (by decide +kernel)

end Pico

end Azugate
