import Azugate.PicoResponse

/-!
# Parsing again only when a message is complete

The three parsers of picohttpparser take the length of the previous, incomplete call in
`last_len`. If it is not zero, `is_complete` first looks for the empty line that ends a header,
from three bytes before that length on, and the message is parsed only if it is there. The gateway
passes zero, and parses from the start after every read.

`parseReads_lastLen` says that the check loses nothing : whatever the reads, the requests and the
responses accepted are the same with it and without it. It rests on two facts about an accepted
text, which `PhrCall` carries : it ends in an empty line, and it has no CR that is not followed by
LF. The answers on the way can differ, as a malformed header can be reported later or earlier. A
block of headers alone can be a single empty line, which is one line end and not two. So with
`phr_parse_headers` the check can wait for more after the end (`phrParseHeadersFrom_eq_iff`).
-/

namespace Azugate

open Incremental Incremental.Parser

namespace Pico

/-! ## The check -/

/-- The loop of `is_complete`, with `retCnt` line ends in a row so far. -/
def isCompleteFrom : ℕ → Str → Outcome UInt8 Unit
  | _, [] => .more
  | retCnt, c :: rest =>
    if c = cr then
      match rest with
      | [] => .more
      | d :: rest =>
        if d ≠ lf then .fail
        else if retCnt + 1 = 2 then .done () rest else isCompleteFrom (retCnt + 1) rest
    else if c = lf then
      if retCnt + 1 = 2 then .done () rest else isCompleteFrom (retCnt + 1) rest
    else isCompleteFrom 0 rest

/-- `is_complete`. -/
def isComplete (lastLen : ℕ) (buf : Str) : Outcome UInt8 Unit :=
  isCompleteFrom 0 (if lastLen < 3 then buf else buf.drop (lastLen - 3))

/-- The three functions share their frame. `parse` is the call with `last_len` zero, and `unparsed`
what the output parameters hold before it. -/
def afterIsComplete {α : Type} (unparsed : ℤ → α) (parse : Str → α) (lastLen : ℕ) (buf : Str) : α :=
  if lastLen ≠ 0 then
    match isComplete lastLen buf with
    | .done _ _ => parse buf
    | .more => unparsed (-2)
    | .fail => unparsed (-1)
  else parse buf

/-- `phr_parse_request`. -/
def phrParseRequestFrom (maxHeaders : ℕ) : ℕ → Str → PhrRequest :=
  afterIsComplete unparsed (phrParseRequest maxHeaders)

/-- `phr_parse_response`. -/
def phrParseResponseFrom (maxHeaders : ℕ) : ℕ → Str → PhrResponse :=
  afterIsComplete unparsedResponse (phrParseResponse maxHeaders)

/-- The result of `phr_parse_headers` and the headers it leaves. -/
structure PhrHeaders where
  pret : ℤ
  headers : List Header
  deriving DecidableEq, Repr

/-- `phr_parse_headers` with `last_len` zero. -/
def phrParseHeaders (maxHeaders : ℕ) (buf : Str) : PhrHeaders :=
  match parseHeaders maxHeaders true buf with
  | .done headers rest => ⟨buf.length - rest.length, headers⟩
  | .more => ⟨-2, []⟩
  | .fail => ⟨-1, []⟩

/-- `phr_parse_headers`. -/
def phrParseHeadersFrom (maxHeaders : ℕ) : ℕ → Str → PhrHeaders :=
  afterIsComplete (fun pret => ⟨pret, []⟩) (phrParseHeaders maxHeaders)

/-! ## Texts that end in an empty line -/

/-- Every CR is followed by LF. -/
def CrBeforeLf : Str → Prop
  | [] => True
  | c :: rest => (c = cr → rest.head? = some lf) ∧ CrBeforeLf rest

theorem CrBeforeLf.append_of_notMem {u : Str} (hu : cr ∉ u) {v : Str} (hv : CrBeforeLf v) :
    CrBeforeLf (u ++ v) := by
  induction u with
  | nil => exact hv
  | cons c u ih =>
    obtain ⟨hc, hu⟩ := not_or.1 (mt List.mem_cons.2 hu)
    exact ⟨fun h => absurd h.symm hc, ih hu⟩

theorem CrBeforeLf.lineEnd_append (withCr : Bool) {v : Str} (hv : CrBeforeLf v) :
    CrBeforeLf (lineEnd withCr ++ v) := by
  have hlf : lf ≠ cr := by decide
  cases withCr with
  | false => exact ⟨fun h => absurd h hlf, hv⟩
  | true => exact ⟨fun _ => rfl, fun h => absurd h hlf, hv⟩

theorem CrBeforeLf.of_append : ∀ (u : Str) {v : Str}, CrBeforeLf (u ++ v) → CrBeforeLf v
  | [], _, h => h
  | _ :: u, _, h => of_append u h.2

/-- The text ends in two line ends, and every CR in it is part of one. -/
structure EndsInEmptyLine (text : Str) : Prop where
  crBeforeLf : CrBeforeLf text
  ends : ∃ u withCr withCr', text = u ++ (lineEnd withCr ++ lineEnd withCr')

theorem length_lineEnd_le (withCr : Bool) : (lineEnd withCr).length ≤ 2 := by
  cases withCr <;> simp [lineEnd]

/-- The end of a text is within its last four bytes. -/
theorem EndsInEmptyLine.drop {text : Str} (h : EndsInEmptyLine text) {s : ℕ}
    (hs : s + 4 ≤ text.length) : EndsInEmptyLine (text.drop s) := by
  obtain ⟨u, withCr, withCr', rfl⟩ := h.ends
  have h1 := length_lineEnd_le withCr
  have h2 := length_lineEnd_le withCr'
  have hcr := h.crBeforeLf
  rw [← List.take_append_drop s (u ++ (lineEnd withCr ++ lineEnd withCr'))] at hcr
  refine ⟨hcr.of_append, u.drop s, withCr, withCr', ?_⟩
  rw [List.drop_append_of_le_length]
  simp only [List.length_append] at hs
  omega

theorem isCompleteFrom_crlf (retCnt : ℕ) (rest : Str) :
    isCompleteFrom retCnt (cr :: lf :: rest) =
      if retCnt + 1 = 2 then .done () rest else isCompleteFrom (retCnt + 1) rest := by
  simp [isCompleteFrom]

theorem isCompleteFrom_cr {d : UInt8} (hd : d ≠ lf) (retCnt : ℕ) (rest : Str) :
    isCompleteFrom retCnt (cr :: d :: rest) = .fail := by
  simp [isCompleteFrom, hd]

theorem isCompleteFrom_lf (retCnt : ℕ) (rest : Str) :
    isCompleteFrom retCnt (lf :: rest) =
      if retCnt + 1 = 2 then .done () rest else isCompleteFrom (retCnt + 1) rest := by
  have hlf : lf ≠ cr := by decide
  rw [isCompleteFrom.eq_def]
  simp [hlf]

theorem isCompleteFrom_other {c : UInt8} (hcr : c ≠ cr) (hlf : c ≠ lf) (retCnt : ℕ) (rest : Str) :
    isCompleteFrom retCnt (c :: rest) = isCompleteFrom 0 rest := by
  rw [isCompleteFrom.eq_def]
  simp [hcr, hlf]

/-- A line end counts, with or without a CR. -/
theorem isCompleteFrom_lineEnd (withCr : Bool) (retCnt : ℕ) (rest : Str) :
    isCompleteFrom retCnt (lineEnd withCr ++ rest) =
      if retCnt + 1 = 2 then .done () rest else isCompleteFrom (retCnt + 1) rest := by
  cases withCr with
  | false => exact isCompleteFrom_lf retCnt rest
  | true => exact isCompleteFrom_crlf retCnt rest

/-- The check finds the end of such a text, whatever follows it. -/
theorem isCompleteFrom_of_ends (withCr withCr' : Bool) (rest : Str) :
    ∀ (u : Str) {retCnt : ℕ}, retCnt < 2 → CrBeforeLf (u ++ (lineEnd withCr ++ lineEnd withCr')) →
      ∃ rest', isCompleteFrom retCnt (u ++ (lineEnd withCr ++ lineEnd withCr') ++ rest) =
        .done () rest'
  | [], retCnt, hcnt, _ => by
    rw [List.nil_append, List.append_assoc, isCompleteFrom_lineEnd]
    split_ifs with h2
    · exact ⟨_, rfl⟩
    · obtain rfl : retCnt = 0 := by omega
      exact ⟨_, isCompleteFrom_lineEnd withCr' 1 rest⟩
  | c :: u, retCnt, hcnt, hcr => by
    have hrest : ∀ {retCnt : ℕ}, retCnt < 2 → ∃ rest', isCompleteFrom retCnt
        (u ++ (lineEnd withCr ++ lineEnd withCr') ++ rest) = .done () rest' :=
      fun h => isCompleteFrom_of_ends withCr withCr' rest u h hcr.2
    rw [List.cons_append, List.cons_append]
    by_cases hc : c = cr
    · -- the LF after the CR counts once, with it
      obtain ⟨v, hv⟩ : ∃ v, u ++ (lineEnd withCr ++ lineEnd withCr') = lf :: v :=
        List.head?_eq_some_iff.1 (hcr.1 hc)
      obtain ⟨rest', hone⟩ := hrest hcnt
      rw [hv, List.cons_append, isCompleteFrom_lf] at hone
      rw [hv, hc, List.cons_append, isCompleteFrom_crlf]
      exact ⟨rest', hone⟩
    · by_cases hl : c = lf
      · rw [hl, isCompleteFrom_lf]
        split_ifs with h2
        · exact ⟨_, rfl⟩
        · exact hrest (by omega)
      · rw [isCompleteFrom_other hc hl]
        exact hrest (by omega)

/-- A call that had less than the whole text before finds the end of it. -/
theorem EndsInEmptyLine.isComplete_eq_done {text : Str} (h : EndsInEmptyLine text) {lastLen : ℕ}
    (hlt : lastLen < text.length) (rest : Str) :
    ∃ rest', isComplete lastLen (text ++ rest) = .done () rest' := by
  unfold isComplete
  split_ifs with hshort
  · obtain ⟨u, withCr, withCr', rfl⟩ := h.ends
    exact isCompleteFrom_of_ends withCr withCr' rest u (by decide) h.crBeforeLf
  · have hdrop := h.drop (s := lastLen - 3) (by omega)
    obtain ⟨u, withCr, withCr', htext⟩ := hdrop.ends
    have hcr := hdrop.crBeforeLf
    rw [htext] at hcr
    rw [List.drop_append_of_le_length (by omega), htext]
    exact isCompleteFrom_of_ends withCr withCr' rest u (by decide) hcr

/-- A CR without LF stays one, whatever follows. -/
theorem isCompleteFrom_append_of_fail : ∀ {retCnt : ℕ} {xs : Str},
    isCompleteFrom retCnt xs = .fail → ∀ ys, isCompleteFrom retCnt (xs ++ ys) = .fail
  | retCnt, [], h, ys => by simp [isCompleteFrom] at h
  | retCnt, c :: rest, h, ys => by
    by_cases hc : c = cr
    · subst hc
      cases rest with
      | nil => simp [isCompleteFrom] at h
      | cons d rest =>
        by_cases hd : d = lf
        · subst hd
          rw [isCompleteFrom_crlf] at h
          rw [List.cons_append, List.cons_append, isCompleteFrom_crlf]
          split_ifs at h ⊢
          exact isCompleteFrom_append_of_fail h ys
        · exact isCompleteFrom_cr hd retCnt (rest ++ ys)
    · by_cases hl : c = lf
      · subst hl
        rw [isCompleteFrom_lf] at h
        rw [List.cons_append, isCompleteFrom_lf]
        split_ifs at h ⊢
        exact isCompleteFrom_append_of_fail h ys
      · rw [isCompleteFrom_other hc hl] at h
        rw [List.cons_append, isCompleteFrom_other hc hl]
        exact isCompleteFrom_append_of_fail h ys

/-! ## Calls with the check and without it -/

/-- A parser as its caller sees it : the result of a call is positive, `-1` or `-2`, one other than
`-2` does not change with more input, and an accepted text ends in an empty line. -/
structure PhrCall (α : Type) where
  /-- The result in an answer. -/
  pret : α → ℤ
  /-- The answer with the output parameters as they were. -/
  unparsed : ℤ → α
  /-- The call with `last_len` zero. -/
  parse : Str → α
  pret_unparsed : ∀ n, pret (unparsed n) = n
  answers : ∀ buf, 0 < pret (parse buf) ∨ pret (parse buf) = -1 ∨ pret (parse buf) = -2
  parse_append : ∀ {buf}, pret (parse buf) ≠ -2 → ∀ more, parse (buf ++ more) = parse buf
  ends : ∀ {buf}, 0 < pret (parse buf) → ∃ text rest, buf = text ++ rest ∧
    parse text = parse buf ∧ EndsInEmptyLine text

/-- A loop that reads and parses, with `buf` read so far : the answer it accepts, if there is one,
and the pieces it has not read. `parse` gets the length of the previous call. -/
def parseReads {α : Type} (pret : α → ℤ) (parse : ℕ → Str → α) :
    Str → List Str → Option (α × List Str)
  | _, [] => none
  | buf, piece :: pieces =>
    let answer := parse buf.length (buf ++ piece)
    if 0 < pret answer then some (answer, pieces)
    else if pret answer = -2 then parseReads pret parse (buf ++ piece) pieces
    else none

namespace PhrCall

variable {α : Type} (C : PhrCall α)

/-- The call with the check. -/
def parseFrom : ℕ → Str → α :=
  afterIsComplete C.unparsed C.parse

/-- The bytes so far are accepted. -/
def Accepts (buf : Str) : Prop :=
  0 < C.pret (C.parse buf)

variable {C}

theorem Accepts.append {buf : Str} (h : C.Accepts buf) (more : Str) : C.Accepts (buf ++ more) := by
  have hne : C.pret (C.parse buf) ≠ -2 := by
    intro hpret
    rw [Accepts, hpret] at h
    exact absurd h (by decide)
  rwa [Accepts, C.parse_append hne more]

/-- Where the check starts, the accepted text has its end before it, so it is found. -/
theorem isComplete_of_accepts {buf : Str} (h : C.Accepts buf) (lastLen : ℕ)
    (hlast : ¬C.Accepts (buf.take lastLen)) : ∃ rest, isComplete lastLen buf = .done () rest := by
  obtain ⟨text, rest, rfl, hparse, hends⟩ := C.ends h
  have hlt : lastLen < text.length := by
    by_contra hle
    refine hlast ?_
    rw [List.take_append, List.take_of_length_le (Nat.le_of_not_lt hle)]
    refine Accepts.append ?_ _
    rwa [Accepts, hparse]
  exact hends.isComplete_eq_done hlt rest

/-- What is accepted without the check is accepted with it. -/
theorem parseFrom_of_accepts {buf : Str} (h : C.Accepts buf) (lastLen : ℕ)
    (hlast : ¬C.Accepts (buf.take lastLen)) : C.parseFrom lastLen buf = C.parse buf := by
  obtain ⟨rest, hdone⟩ := isComplete_of_accepts h lastLen hlast
  simp [parseFrom, afterIsComplete, hdone]

/-- What is accepted with the check is accepted without it. -/
theorem accepts_of_parseFrom {lastLen : ℕ} {buf : Str}
    (h : 0 < C.pret (C.parseFrom lastLen buf)) : C.Accepts buf := by
  unfold parseFrom afterIsComplete at h
  split at h
  · split at h
    · exact h
    · simp [C.pret_unparsed] at h
    · simp [C.pret_unparsed] at h
  · exact h

/-- Bytes the parser has refused are not accepted with more. -/
theorem not_accepts_of_fail {buf : Str} (h : C.pret (C.parse buf) = -1) (more : Str) :
    ¬C.Accepts (buf ++ more) := by
  rw [Accepts, C.parse_append (by omega), h]
  decide

/-- Bytes that are refused with the check are not accepted with more. -/
theorem not_accepts_of_parseFrom {lastLen : ℕ} {buf : Str} (hle : lastLen ≤ buf.length)
    (hlast : ¬C.Accepts (buf.take lastLen)) (h : C.pret (C.parseFrom lastLen buf) = -1)
    (more : Str) : ¬C.Accepts (buf ++ more) := by
  intro haccepts
  unfold parseFrom afterIsComplete at h
  split at h
  · split at h
    · exact not_accepts_of_fail h more haccepts
    · simp [C.pret_unparsed] at h
    · -- a CR without LF, and it is still there with more
      rename_i hfail
      have htake : (buf ++ more).take lastLen = buf.take lastLen :=
        List.take_append_of_le_length hle
      obtain ⟨rest, hdone⟩ := isComplete_of_accepts haccepts lastLen (htake ▸ hlast)
      have hmore : isComplete lastLen (buf ++ more) = .fail := by
        unfold isComplete at hfail ⊢
        split_ifs at hfail ⊢
        · exact isCompleteFrom_append_of_fail hfail more
        · rw [List.drop_append_of_le_length (by omega)]
          exact isCompleteFrom_append_of_fail hfail more
      rw [hmore] at hdone
      cases hdone
  · exact not_accepts_of_fail h more haccepts

theorem pret_parseFrom (lastLen : ℕ) (buf : Str) :
    0 < C.pret (C.parseFrom lastLen buf) ∨ C.pret (C.parseFrom lastLen buf) = -1 ∨
      C.pret (C.parseFrom lastLen buf) = -2 := by
  unfold parseFrom afterIsComplete
  split
  · split
    · exact C.answers buf
    · exact Or.inr (Or.inr (C.pret_unparsed _))
    · exact Or.inr (Or.inl (C.pret_unparsed _))
  · exact C.answers buf

/-- A loop on bytes that are not accepted with any more accepts nothing. -/
theorem parseReads_eq_none {parse : ℕ → Str → α}
    (hparse : ∀ lastLen buf, 0 < C.pret (parse lastLen buf) → C.Accepts buf) :
    ∀ (pieces : List Str) (buf : Str), (∀ more, ¬C.Accepts (buf ++ more)) →
      parseReads C.pret parse buf pieces = none
  | [], _, _ => rfl
  | piece :: pieces, buf, h => by
    rw [parseReads, if_neg fun hpos => h piece (hparse _ _ hpos)]
    split_ifs
    · refine parseReads_eq_none hparse pieces (buf ++ piece) fun more => ?_
      rw [List.append_assoc]
      exact h (piece ++ more)
    · rfl

/-- The two loops accept the same, from any bytes that are not accepted yet. -/
theorem parseReads_parseFrom :
    ∀ (pieces : List Str) (buf : Str), ¬C.Accepts buf →
      parseReads C.pret C.parseFrom buf pieces = parseReads C.pret (fun _ => C.parse) buf pieces
  | [], _, _ => rfl
  | piece :: pieces, buf, hbuf => by
    have htake : (buf ++ piece).take buf.length = buf := List.take_left
    by_cases haccepts : C.Accepts (buf ++ piece)
    · have heq := parseFrom_of_accepts haccepts buf.length (htake.symm ▸ hbuf)
      replace haccepts : 0 < C.pret (C.parse (buf ++ piece)) := haccepts
      simp only [parseReads, heq, if_pos haccepts]
    · have hfrom : ¬0 < C.pret (C.parseFrom buf.length (buf ++ piece)) :=
        mt accepts_of_parseFrom haccepts
      have hplain : ∀ lastLen buf, 0 < C.pret ((fun _ : ℕ => C.parse) lastLen buf) →
          C.Accepts buf := fun _ _ h => h
      have hparse : ¬0 < C.pret (C.parse (buf ++ piece)) := haccepts
      simp only [parseReads, if_neg hfrom, if_neg hparse]
      split_ifs with h1 h2 h2
      · exact parseReads_parseFrom pieces _ haccepts
      · -- refused without the check, and never accepted with it
        have hfail := ((C.answers (buf ++ piece)).resolve_left hparse).resolve_right h2
        exact parseReads_eq_none (fun _ _ => accepts_of_parseFrom) pieces _
          (not_accepts_of_fail hfail)
      · have hfail := ((C.pret_parseFrom buf.length (buf ++ piece)).resolve_left
          hfrom).resolve_right h1
        exact (parseReads_eq_none hplain pieces _ (not_accepts_of_parseFrom (by simp)
          (htake.symm ▸ hbuf) hfail)).symm
      · rfl

end PhrCall

/-! ## Requests and responses -/

theorem cr_notMem_replicate_space (n : ℕ) : cr ∉ List.replicate n space :=
  fun hcr => absurd (List.eq_of_mem_replicate hcr) (by decide)

theorem cr_ne_of_isDigit {d : UInt8} (h : isDigit d = true) : cr ≠ d := by
  rintro rfl
  exact absurd h (by decide)

theorem HeaderLine.cr_notMem_beforeEnd {l : HeaderLine} {first : Bool} (hl : l.WellFormed first) :
    cr ∉ l.beforeEnd :=
  hl.notMem_beforeEnd (by decide) (by decide) (by decide) (by decide)

theorem crBeforeLf_lines : ∀ {lines : List HeaderLine} {first : Bool},
    WellFormedLines first lines → ∀ {v : Str}, CrBeforeLf v →
      CrBeforeLf (lines.flatMap HeaderLine.toText ++ v)
  | [], _, _, _, hv => hv
  | l :: lines, _, h, v, hv => by
    rw [List.flatMap_cons, List.append_assoc, HeaderLine.toText, List.append_assoc]
    exact ((crBeforeLf_lines h.2 hv).lineEnd_append l.withCr).append_of_notMem
      (HeaderLine.cr_notMem_beforeEnd h.1)

/-- The header lines end in a line end, and so does the line before them. -/
theorem exists_lines_eq (withCr : Bool) (lines : List HeaderLine) :
    ∃ u withCr', lineEnd withCr ++ lines.flatMap HeaderLine.toText = u ++ lineEnd withCr' := by
  induction lines using List.reverseRecOn with
  | nil => exact ⟨[], withCr, by simp⟩
  | append_singleton lines l _ =>
    exact ⟨lineEnd withCr ++ lines.flatMap HeaderLine.toText ++ l.beforeEnd, l.withCr,
      by simp [HeaderLine.toText]⟩

/-- A first line without CRs, and header lines after it. -/
theorem endsInEmptyLine_of_lines {u : Str} (hu : cr ∉ u) (withCr endsWithCr : Bool) {first : Bool}
    {lines : List HeaderLine} (hlines : WellFormedLines first lines) :
    EndsInEmptyLine (u ++ (lineEnd withCr ++
      (lines.flatMap HeaderLine.toText ++ lineEnd endsWithCr))) := by
  obtain ⟨v, withCr', hv⟩ := exists_lines_eq withCr lines
  have hend : CrBeforeLf (lineEnd endsWithCr) := by
    simpa using CrBeforeLf.lineEnd_append endsWithCr (v := []) trivial
  refine ⟨((crBeforeLf_lines hlines hend).lineEnd_append withCr).append_of_notMem hu, u ++ v,
    withCr', endsWithCr, ?_⟩
  rw [← List.append_assoc (lineEnd withCr), hv]
  simp

theorem EndsInEmptyLine.lineEnd_append {text : Str} (h : EndsInEmptyLine text) (withCr : Bool) :
    EndsInEmptyLine (lineEnd withCr ++ text) := by
  obtain ⟨u, a, b, htext⟩ := h.ends
  exact ⟨h.crBeforeLf.lineEnd_append withCr, lineEnd withCr ++ u, a, b, by simp [htext]⟩

theorem RequestParts.endsInEmptyLine {maxHeaders : ℕ} {r : RequestParts}
    (hr : r.WellFormed maxHeaders) : EndsInEmptyLine r.toText := by
  have hmethod : cr ∉ r.method := mt (hr.method.2 cr) (by decide)
  have hpath : cr ∉ r.path := mt (fun hcr => (hr.path.2 cr hcr).2) (by decide)
  have hline : cr ∉ r.method ++ space :: (List.replicate r.spaces space ++ r.path ++
      space :: (List.replicate r.spaces' space ++ lit "HTTP/1." ++ [r.minorVersion])) := by
    simp only [List.mem_append, List.mem_cons, not_or, List.not_mem_nil, not_false_eq_true,
      and_true, cr_notMem_replicate_space, hmethod, hpath, true_and,
      cr_ne_of_isDigit hr.minorVersion]
    decide
  have hends := endsInEmptyLine_of_lines hline r.withCr r.endsWithCr hr.lines
  have htext : r.toText = r.emptyLine.elim [] lineEnd ++ (r.method ++ space ::
      (List.replicate r.spaces space ++ r.path ++ space :: (List.replicate r.spaces' space ++
        lit "HTTP/1." ++ [r.minorVersion])) ++ (lineEnd r.withCr ++
          (r.lines.flatMap HeaderLine.toText ++ lineEnd r.endsWithCr))) := by
    simp [RequestParts.toText, RequestParts.afterVersion]
  rw [htext]
  cases r.emptyLine with
  | none => exact hends
  | some withCr => exact hends.lineEnd_append withCr

theorem ResponseParts.endsInEmptyLine {maxHeaders : ℕ} {r : ResponseParts}
    (hr : r.WellFormed maxHeaders) : EndsInEmptyLine r.toText := by
  have hstatus : cr ∉ r.statusText := mt (hr.status cr) (by decide)
  have htext : cr ∉ r.text := mt (hr.text.1 cr) (by decide)
  have hline : cr ∉ lit "HTTP/1." ++ r.minorVersion :: space ::
      (List.replicate r.spaces space ++ (r.statusText ++ r.text)) := by
    simp only [List.mem_append, List.mem_cons, not_or, cr_notMem_replicate_space,
      htext, hstatus, not_false_eq_true, and_true,
      cr_ne_of_isDigit hr.minorVersion, true_and]
    decide
  have hends := endsInEmptyLine_of_lines hline r.withCr r.endsWithCr hr.lines
  simpa [ResponseParts.toText] using hends

/-- `phr_parse_request` as its caller sees it. -/
def requestCall (maxHeaders : ℕ) : PhrCall PhrRequest where
  pret := PhrRequest.pret
  unparsed := unparsed
  parse := phrParseRequest maxHeaders
  pret_unparsed _ := rfl
  answers buf := by
    unfold phrParseRequest
    cases hparse : parseRequest maxHeaders buf with
    | done request rest =>
      obtain ⟨r, hr, rfl, -⟩ := parseRequest_eq_done_iff.1 hparse
      refine Or.inl ?_
      have hpos : 0 < r.toText.length := by simp [RequestParts.toText]
      simpa using hpos
    | more => exact Or.inr (Or.inr rfl)
    | fail => exact Or.inr (Or.inl rfl)
  parse_append := phrParseRequest_append maxHeaders
  ends {buf} h := by
    cases hparse : parseRequest maxHeaders buf with
    | done request rest =>
      obtain ⟨r, hr, rfl, -⟩ := parseRequest_eq_done_iff.1 hparse
      refine ⟨r.toText, rest, rfl, ?_, RequestParts.endsInEmptyLine hr⟩
      have hself := phrParseRequest_of_wellFormed hr []
      rw [List.append_nil] at hself
      rw [hself, phrParseRequest_of_wellFormed hr]
    | more => simp [phrParseRequest, hparse, unparsed] at h
    | fail => simp [phrParseRequest, hparse, unparsed] at h

/-- A complete response and an error are what they are whatever bytes follow. -/
theorem phrParseResponse_append (maxHeaders : ℕ) {buf : Str}
    (h : (phrParseResponse maxHeaders buf).pret ≠ -2) (more : Str) :
    phrParseResponse maxHeaders (buf ++ more) = phrParseResponse maxHeaders buf := by
  have hstable := stable_parseResponse maxHeaders
  cases hp : parseResponse maxHeaders buf with
  | done response rest =>
    simp only [phrParseResponse, hstable.done hp more, hp, List.length_append, Int.natCast_add]
    congr 1
    omega
  | more => simp [phrParseResponse, hp, unparsedResponse] at h
  | fail => simp only [phrParseResponse, hstable.fail hp more, hp]

/-- `phr_parse_response` as its caller sees it. -/
def responseCall (maxHeaders : ℕ) : PhrCall PhrResponse where
  pret := PhrResponse.pret
  unparsed := unparsedResponse
  parse := phrParseResponse maxHeaders
  pret_unparsed _ := rfl
  answers buf := by
    unfold phrParseResponse
    cases hparse : parseResponse maxHeaders buf with
    | done response rest =>
      obtain ⟨r, hr, rfl, -⟩ := parseResponse_eq_done_iff.1 hparse
      refine Or.inl ?_
      have hpos : 0 < r.toText.length := by simp [ResponseParts.toText]
      simpa using hpos
    | more => exact Or.inr (Or.inr rfl)
    | fail => exact Or.inr (Or.inl rfl)
  parse_append := phrParseResponse_append maxHeaders
  ends {buf} h := by
    cases hparse : parseResponse maxHeaders buf with
    | done response rest =>
      obtain ⟨r, hr, rfl, -⟩ := parseResponse_eq_done_iff.1 hparse
      refine ⟨r.toText, rest, rfl, ?_, ResponseParts.endsInEmptyLine hr⟩
      have hself := phrParseResponse_of_wellFormed hr []
      rw [List.append_nil] at hself
      rw [hself, phrParseResponse_of_wellFormed hr]
    | more => simp [phrParseResponse, hparse, unparsedResponse] at h
    | fail => simp [phrParseResponse, hparse, unparsedResponse] at h

theorem PhrCall.not_accepts_nil {α : Type} (C : PhrCall α) : ¬C.Accepts [] := by
  intro h
  obtain ⟨text, rest, hnil, -, hends⟩ := C.ends h
  obtain ⟨u, withCr, withCr', rfl⟩ := hends.ends
  have hend := (List.append_eq_nil_iff.1 (List.append_eq_nil_iff.1 hnil.symm).1).2
  exact lineEnd_append_ne_nil _ _ hend

/-- Whatever the reads, a loop that passes the length of the previous call accepts the same requests
and the same responses as one that passes zero, and after the same reads. -/
theorem parseReads_lastLen (maxHeaders : ℕ) (pieces : List Str) :
    parseReads PhrRequest.pret (phrParseRequestFrom maxHeaders) [] pieces =
        parseReads PhrRequest.pret (fun _ => phrParseRequest maxHeaders) [] pieces ∧
      parseReads PhrResponse.pret (phrParseResponseFrom maxHeaders) [] pieces =
        parseReads PhrResponse.pret (fun _ => phrParseResponse maxHeaders) [] pieces :=
  ⟨PhrCall.parseReads_parseFrom pieces [] (requestCall maxHeaders).not_accepts_nil,
    PhrCall.parseReads_parseFrom pieces [] (responseCall maxHeaders).not_accepts_nil⟩

/-- A version that is none : with the check the bare CR is an error at once, without it the parser
waits for the nine bytes of a version. Neither accepts the request. -/
example :
    (phrParseRequestFrom 256 6 (lit "GET / \rX")).pret = -1 ∧
      (phrParseRequest 256 (lit "GET / \rX")).pret = -2 := by
  decide +kernel

/-! ## Header blocks -/

theorem phrParseHeaders_of_lines {maxHeaders : ℕ} {lines : List HeaderLine}
    (hlines : WellFormedLines true lines) (hroom : lines.length ≤ maxHeaders) (endsWithCr : Bool) :
    phrParseHeaders maxHeaders (lines.flatMap HeaderLine.toText ++ lineEnd endsWithCr) =
      ⟨(lines.flatMap HeaderLine.toText ++ lineEnd endsWithCr).length,
        lines.map HeaderLine.header⟩ := by
  have hparse : parseHeaders maxHeaders true (lines.flatMap HeaderLine.toText ++
      lineEnd endsWithCr) = .done (lines.map HeaderLine.header) [] :=
    parseHeaders_eq_done_iff.2 ⟨lines, endsWithCr, hroom, hlines, by simp, rfl⟩
  simp [phrParseHeaders, hparse]

/-- A complete block of headers is accepted with the check exactly if there was no previous call, or
the block has a header. -/
theorem phrParseHeadersFrom_eq_iff (maxHeaders : ℕ) (lines : List HeaderLine)
    (hlines : WellFormedLines true lines) (hroom : lines.length ≤ maxHeaders) (endsWithCr : Bool)
    (lastLen : ℕ)
    (hlast : lastLen < (lines.flatMap HeaderLine.toText ++ lineEnd endsWithCr).length) :
    phrParseHeadersFrom maxHeaders lastLen (lines.flatMap HeaderLine.toText ++ lineEnd endsWithCr) =
        phrParseHeaders maxHeaders (lines.flatMap HeaderLine.toText ++ lineEnd endsWithCr) ↔
      lastLen = 0 ∨ lines ≠ [] := by
  by_cases hzero : lastLen = 0
  · simp [hzero, phrParseHeadersFrom, afterIsComplete]
  cases lines with
  | nil =>
    -- the one line end is CR LF, and the call before had its CR
    have hsingle := phrParseHeaders_of_lines hlines hroom endsWithCr
    cases endsWithCr with
    | false => exact absurd hlast (by simp [lineEnd, hzero])
    | true =>
      obtain rfl : lastLen = 1 := by
        simp [lineEnd] at hlast
        omega
      rw [hsingle]
      simp [phrParseHeadersFrom, afterIsComplete, isComplete, lineEnd, isCompleteFrom]
  | cons l lines =>
    have hends := endsInEmptyLine_of_lines (HeaderLine.cr_notMem_beforeEnd hlines.1) l.withCr
      endsWithCr hlines.2
    have htext : l.beforeEnd ++ (lineEnd l.withCr ++ (lines.flatMap HeaderLine.toText ++
        lineEnd endsWithCr)) = (l :: lines).flatMap HeaderLine.toText ++ lineEnd endsWithCr := by
      simp [HeaderLine.toText]
    rw [htext] at hends
    obtain ⟨rest, hdone⟩ := hends.isComplete_eq_done hlast []
    rw [List.append_nil] at hdone
    refine iff_of_true ?_ (Or.inr (List.cons_ne_nil _ _))
    rw [phrParseHeadersFrom, afterIsComplete, if_pos hzero, hdone]

/-- The block with one header `a: b`, of which the call before had all but the last byte. -/
theorem phrParseHeadersFrom_eq_iff_one_header :
    WellFormedLines true [⟨some (lit "a"), lit " ", lit "b", true⟩] ∧
      phrParseHeadersFrom 256 7 (lit "a: b\r\n\r\n") =
        phrParseHeaders 256 (lit "a: b\r\n\r\n") := by
  have hlines : WellFormedLines true [⟨some (lit "a"), lit " ", lit "b", true⟩] := by
    refine ⟨⟨fun name hname => ?_, by simp, by decide +kernel, by decide +kernel⟩, trivial⟩
    obtain rfl := Option.some.inj hname
    decide +kernel
  exact ⟨hlines, (phrParseHeadersFrom_eq_iff 256 _ hlines (by decide) true 7 (by decide)).2
    (Or.inr (by decide))⟩

end Pico

end Azugate
