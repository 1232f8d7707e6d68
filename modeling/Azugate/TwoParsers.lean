import Azugate.PicoGrammar
import Azugate.RequestGrammar

/-!
# The two request parsers

The gateway has `phr_parse_request` and a parser of its own, `HttpParser::ParseByte`. Both take a
request as text, and `PhrRequest.stored` says what the second would store for what the first has
read : names and values in lower case, the spaces of the values left out.

On a text that `phr_parse_request` takes the two read the same request exactly if it is written
plainly (`readsTheSame_iff`). `ParseByte` knows no empty line before the request, no second space
between its words, no line that continues the one before, and a tab is no blank for it. With a
second space behind the method the URL would be empty, and with one behind the path there is an
error.
-/

namespace Azugate

/-! ## Lines of a text -/

/-- A text has one first `c`. -/
theorem append_cons_unique {c : UInt8} {w w' rest rest' : Str} (hw : c ∉ w) (hw' : c ∉ w')
    (h : w ++ c :: rest = w' ++ c :: rest') : w = w' ∧ rest = rest' := by
  have hcut := congrArg (cutAt c) h
  rwa [cutAt_append hw, cutAt_append hw', Option.some.injEq, Prod.mk.injEq] at hcut

/-- A text is cut at its LFs in one way. -/
theorem lines_injective : ∀ {xs ys : List Str}, (∀ l ∈ xs, lf ∉ l) → (∀ l ∈ ys, lf ∉ l) →
    (xs.flatMap fun l => l ++ [lf]) = (ys.flatMap fun l => l ++ [lf]) → xs = ys
  | [], [], _, _, _ => rfl
  | [], y :: ys, _, _, h => by simp at h
  | x :: xs, [], _, _, h => by simp at h
  | x :: xs, y :: ys, hxs, hys, h => by
    obtain ⟨hx, hxs'⟩ := List.forall_mem_cons.1 hxs
    obtain ⟨hy, hys'⟩ := List.forall_mem_cons.1 hys
    simp only [List.flatMap_cons, List.append_assoc, List.singleton_append] at h
    obtain ⟨hfirst, hrest⟩ := append_cons_unique hx hy h
    rw [hfirst, lines_injective hxs' hys' hrest]

theorem mapM_map_eq_some_map_iff {α β γ : Type*} {f : β → Option γ} {g : α → β} {h : α → γ} :
    ∀ {l : List α}, (l.map g).mapM f = some (l.map h) ↔ ∀ x ∈ l, f (g x) = some (h x)
  | [] => by simp
  | x :: l => by
    rw [List.map_cons, List.mapM_cons, List.forall_mem_cons, ← mapM_map_eq_some_map_iff]
    cases hx : f (g x) with
    | none => simp
    | some y =>
      cases hl : (l.map g).mapM f with
      | none => simp
      | some ys => simp

/-! ## What the byte parser stores -/

/-- The header as the byte parser stores it. A line that continues another has no name to store. -/
def Header.stored (h : Header) : Option Str :=
  h.name.bind fun name => h.value.map fun value => toLower name ++ lit ": " ++ headerText value

/-- The request as the byte parser stores it. -/
def PhrRequest.stored (req : PhrRequest) : Option HttpRequest :=
  req.method.bind fun method => req.path.bind fun path =>
    (req.headers.mapM Header.stored).map fun headers =>
      ⟨method, path, lit "HTTP/1." ++ numeral 10 req.minorVersion.toNat, headers⟩

/-- Both parsers take the whole of the text, and they read the same request. -/
def ReadsTheSame (maxHeaders kMaxMsgLength : ℕ) (s : Str) : Prop :=
  (Pico.phrParseRequest maxHeaders s).pret = s.length ∧
    HttpParser.DoneAtLast kMaxMsgLength .fresh s ∧
    (Pico.phrParseRequest maxHeaders s).stored =
      some (HttpParser.fresh.parseBytes kMaxMsgLength s).request

namespace Pico

/-- The line up to its LF. -/
def HeaderLine.line (l : HeaderLine) : Str :=
  l.beforeEnd ++ if l.withCr then [cr] else []

/-- The line has a name, and the blanks around its value are spaces. -/
structure HeaderLine.Plain (l : HeaderLine) : Prop where
  named : l.name.isSome
  blanks : 9 ∉ l.blanks
  text : 9 ∉ l.text.rtakeWhile isBlank

/-- The request is written with one space between its words, with nothing before it, and with
plain header lines. -/
structure RequestParts.Plain (r : RequestParts) : Prop where
  emptyLine : r.emptyLine = none
  spaces : r.spaces = 0
  spaces' : r.spaces' = 0
  lines : ∀ l ∈ r.lines, l.Plain

namespace HeaderLine

theorem toText_eq_line (l : HeaderLine) : l.toText = l.line ++ [lf] := by
  obtain ⟨name, blanks, text, withCr⟩ := l
  cases withCr <;> simp [toText, line, lineEnd]

theorem headerText_append (s s' : Str) : headerText (s ++ s') = headerText s ++ headerText s' := by
  simp [headerText, toLower]

/-- Blanks leave nothing in the stored form exactly if none is a tab. -/
theorem headerText_blanks {s : Str} (h : ∀ c ∈ s, isBlank c = true) :
    headerText s = [] ↔ 9 ∉ s := by
  rw [HttpParser.headerText_eq_nil]
  constructor
  · intro hall htab
    exact absurd (hall 9 htab) (by decide)
  · intro htab c hc
    have hblank := h c hc
    simp only [isBlank, Bool.or_eq_true, beq_iff_eq] at hblank
    rcases hblank with hspace | rfl
    · exact Or.inr hspace
    · exact absurd hc htab

theorem headerText_token {s : Str} (h : ∀ c ∈ s, isTokenChar c = true) :
    headerText s = toLower s := by
  have hends : isTokenChar cr = false ∧ isTokenChar space = false := by decide
  rw [headerText, List.filter_eq_self.2]
  intro c hc
  have htoken := h c hc
  rw [Bool.and_eq_true, bne_iff_ne, bne_iff_ne]
  constructor
  · rintro rfl
    simp [hends] at htoken
  · rintro rfl
    simp [hends] at htoken

/-- The stored form of a line with a name. -/
theorem storedHeader_line {first : Bool} {l : HeaderLine} (hl : l.WellFormed first) {name : Str}
    (hname : l.name = some name) :
    storedHeader l.line = toLower name ++ lit ": " ++ headerText (l.blanks ++ l.text) := by
  obtain ⟨-, htoken, -⟩ := hl.named name hname
  have hcolon : colon ∉ toLower name := by
    intro hmem
    obtain ⟨c, hc, hlower⟩ := List.mem_map.1 hmem
    obtain rfl := (tolower_eq_colon c).1 hlower
    exact absurd (htoken colon hc) (by simp [not_isTokenChar_colon])
  have hend : headerText (if l.withCr then [cr] else []) = [] := by
    cases l.withCr <;> rfl
  refine storedHeader_eq ?_ hcolon
  have hmark : headerText [colon] = [colon] := by decide
  rw [line, headerText_append, hend, List.append_nil, beforeEnd, hname, List.append_assoc,
    headerText_append, Option.elim_some, headerText_append, headerText_token htoken, hmark,
    List.append_assoc, List.singleton_append]

/-- The two parsers store the same for a line exactly if it is plain. -/
theorem stored_header_iff {first : Bool} {l : HeaderLine} (hl : l.WellFormed first) :
    l.header.stored = some (storedHeader l.line) ↔ l.Plain := by
  cases hname : l.name with
  | none =>
    refine iff_of_false (by simp [Header.stored, header, hname]) fun h => ?_
    simpa [hname] using h.named
  | some name =>
    have hsplit : l.text.rdropWhile isBlank ++ l.text.rtakeWhile isBlank = l.text := by
      rw [List.rdropWhile, List.rtakeWhile, ← List.reverse_append, List.takeWhile_append_dropWhile,
        List.reverse_reverse]
    have htext : headerText l.text =
        headerText (l.text.rdropWhile isBlank) ++ headerText (l.text.rtakeWhile isBlank) := by
      rw [← headerText_append, hsplit]
    have hstored : l.header.stored =
        some (toLower name ++ lit ": " ++ headerText (l.text.rdropWhile isBlank)) := by
      simp [Header.stored, header, hname]
    rw [storedHeader_line hl hname, hstored, Option.some.injEq, List.append_cancel_left_eq,
      headerText_append, htext]
    have hblanks := headerText_blanks hl.blanks
    have htrailing := headerText_blanks fun c hc => List.mem_rtakeWhile_imp (l := l.text) hc
    constructor
    · intro h
      have hlen := congrArg List.length h
      simp only [List.length_append] at hlen
      refine ⟨by rw [hname]; rfl, hblanks.1 ?_, htrailing.1 ?_⟩
      · exact List.length_eq_zero_iff.1 (by omega)
      · exact List.length_eq_zero_iff.1 (by omega)
    · intro h
      rw [hblanks.2 h.blanks, htrailing.2 h.text, List.nil_append, List.append_nil]

theorem lf_notMem_line {first : Bool} {l : HeaderLine} (hl : l.WellFormed first) :
    lf ∉ l.line := by
  have hend : lf ∉ if l.withCr then [cr] else [] := by
    cases l.withCr <;> decide
  rw [line, List.mem_append, not_or]
  exact ⟨hl.notMem_beforeEnd (by decide) (by decide) (by decide) (by decide), hend⟩

end HeaderLine

theorem WellFormedLines.forall {lines : List HeaderLine} : ∀ {first : Bool},
    WellFormedLines first lines → ∀ l ∈ lines, ∃ first, l.WellFormed first := by
  induction lines with
  | nil => simp
  | cons l lines ih =>
    intro first h
    exact List.forall_mem_cons.2 ⟨⟨first, h.1⟩, ih h.2⟩

/-! ## Requests -/

namespace RequestParts

/-- The words and lines of a request with one space between its words. -/
def byteText (r : RequestParts) : RequestText where
  method := r.method
  url := r.path
  version := lit "HTTP/1." ++ r.minorVersion :: if r.withCr then [cr] else []
  lines := r.lines.map HeaderLine.line
  last := if r.endsWithCr then [cr] else []

theorem lineEnd_eq (withCr : Bool) : lineEnd withCr = (if withCr then [cr] else []) ++ [lf] := by
  cases withCr <;> rfl

theorem afterVersion_eq (r : RequestParts) :
    r.afterVersion = (if r.withCr then [cr] else []) ++ lf ::
      ((r.byteText.lines ++ [r.byteText.last]).flatMap fun l => l ++ [lf]) := by
  have hlines : r.lines.flatMap HeaderLine.toText =
      (r.lines.map HeaderLine.line).flatMap fun l => l ++ [lf] := by
    rw [List.flatMap_map]
    exact congrArg (fun f => r.lines.flatMap f) (funext HeaderLine.toText_eq_line)
  simp [afterVersion, lineEnd_eq, hlines, byteText]

/-- The text of a request with one space between its words. -/
theorem toText_of_plain {r : RequestParts} (hempty : r.emptyLine = none) (hspaces : r.spaces = 0)
    (hspaces' : r.spaces' = 0) : r.toText = r.byteText.text := by
  rw [toText, hempty, hspaces, hspaces', afterVersion_eq]
  simp [RequestText.text, byteText]

theorem isDigit_ne {c : UInt8} (h : isDigit c = true) : c ≠ space ∧ c ≠ lf ∧ c ≠ cr := by
  have hends : isDigit space = false ∧ isDigit lf = false ∧ isDigit cr = false := by decide
  refine ⟨?_, ?_, ?_⟩
  · rintro rfl
    simp [hends] at h
  · rintro rfl
    simp [hends] at h
  · rintro rfl
    simp [hends] at h

variable {maxHeaders : ℕ} {r : RequestParts}

theorem version_byteText (hr : r.WellFormed maxHeaders) :
    space ∉ r.byteText.version ∧ lf ∉ r.byteText.version := by
  obtain ⟨hspace, hlf, -⟩ := isDigit_ne hr.minorVersion
  have hlit : space ∉ lit "HTTP/1." ∧ lf ∉ lit "HTTP/1." := by decide
  have hend : space ∉ (if r.withCr then [cr] else []) ∧ lf ∉ (if r.withCr then [cr] else []) := by
    cases r.withCr <;> decide
  simp only [byteText, List.mem_append, List.mem_cons, not_or]
  exact ⟨⟨hlit.1, hspace.symm, hend.1⟩, hlit.2, hlf.symm, hend.2⟩

theorem wellFormed_byteText (hr : r.WellFormed maxHeaders)
    (hnamed : ∀ l ∈ r.lines, l.name.isSome) : r.byteText.WellFormed where
  method h := by
    have hends : isTokenChar space = false := by decide
    simpa [hends] using hr.method.2 space h
  url h := (hr.path.2 space h).1 rfl
  version := version_byteText hr
  lines := by
    intro line hline
    obtain ⟨l, hl, rfl⟩ := List.mem_map.1 hline
    obtain ⟨first, hwell⟩ := hr.lines.forall l hl
    obtain ⟨name, hname⟩ := Option.isSome_iff_exists.1 (hnamed l hl)
    have hcolon : colon ∈ l.line.filter fun c => c != cr && c != space := by
      rw [List.mem_filter]
      exact ⟨by simp [HeaderLine.line, HeaderLine.beforeEnd, hname], by decide⟩
    exact ⟨HeaderLine.lf_notMem_line hwell, List.ne_nil_of_mem hcolon, hcolon⟩
  last c hc := by
    cases hcr : r.endsWithCr with
    | true => exact Or.inl (by simpa [byteText, hcr] using hc)
    | false => simp [byteText, hcr] at hc

theorem request_byteText (hr : r.WellFormed maxHeaders) :
    r.byteText.request = ⟨r.method, r.path, lit "HTTP/1." ++ [r.minorVersion],
      r.lines.map fun l => storedHeader l.line⟩ := by
  have hversion : r.byteText.version.filter (· != cr) = lit "HTTP/1." ++ [r.minorVersion] := by
    have hlit : (lit "HTTP/1.").filter (· != cr) = lit "HTTP/1." := by decide
    have hend : (if r.withCr then [cr] else []).filter (· != cr) = [] := by
      cases r.withCr <;> decide
    rw [byteText, List.filter_append, hlit,
      List.filter_cons_of_pos (by simpa using (isDigit_ne hr.minorVersion).2.2), hend]
  rw [RequestText.request, hversion]
  simp [byteText]

/-- What `phr_parse_request` reads, as the byte parser stores it. -/
theorem stored_request (hr : r.WellFormed maxHeaders) (pret : ℤ) :
    PhrRequest.stored { r.request with pret := pret } =
      ((r.lines.map HeaderLine.header).mapM Header.stored).map fun headers =>
        ⟨r.method, r.path, lit "HTTP/1." ++ [r.minorVersion], headers⟩ := by
  have hdigit : ∀ c : UInt8, isDigit c = true → numeral 10 (c.toNat - 48) = [c] := by
    intro c hc
    simp only [isDigit, Bool.and_eq_true, decide_eq_true_eq, UInt8.le_iff_toNat_le] at hc
    rw [numeral_of_lt (by have : c.toNat ≤ 57 := hc.2; omega), digitChar, if_pos (by
      have : c.toNat ≤ 57 := hc.2
      omega)]
    have hback : 48 + (c.toNat - 48) = c.toNat := by
      have : 48 ≤ c.toNat := hc.1
      omega
    rw [hback, UInt8.ofNat_toNat]
  simp only [PhrRequest.stored, request, Option.bind_some, Int.toNat_natCast,
    hdigit _ hr.minorVersion]

/-- Where the byte parser finds the method and the path of the parts, they are written with one
space between the words, and the lines are those of the parts. -/
theorem plain_of_text {r' : RequestText} (hr : r.WellFormed maxHeaders) (hr' : r'.WellFormed)
    (hmethod : r'.method = r.method) (hurl : r'.url = r.path) (htext : r'.text = r.toText) :
    r.emptyLine = none ∧ r.spaces = 0 ∧ r.spaces' = 0 ∧ r'.lines = r.byteText.lines := by
  obtain ⟨c, method, hc⟩ := List.exists_cons_of_ne_nil hr.method.1
  obtain ⟨d, path, hd⟩ := List.exists_cons_of_ne_nil hr.path.1
  have htoken := hr.method.2 c (by simp [hc])
  have hpath := (hr.path.2 d (by simp [hd])).1
  rw [RequestText.text, hmethod, hurl, toText] at htext
  -- the first byte of the text is one of the method
  have hempty : r.emptyLine = none := by
    have hends : isTokenChar cr = false ∧ isTokenChar lf = false := by decide
    cases he : r.emptyLine with
    | none => rfl
    | some withCr =>
      exfalso
      rw [he, hc] at htext
      cases withCr with
      | true =>
        obtain ⟨rfl, -⟩ := List.cons.inj htext
        simp [hends] at htoken
      | false =>
        obtain ⟨rfl, -⟩ := List.cons.inj htext
        simp [hends] at htoken
  rw [hempty] at htext
  simp only [Option.elim_none, List.nil_append, List.append_cancel_left_eq, List.cons.injEq,
    true_and, List.append_assoc] at htext
  -- then that of the path
  have hspaces : r.spaces = 0 := by
    cases hn : r.spaces with
    | zero => rfl
    | succ n =>
      exfalso
      rw [hn, hd] at htext
      exact hpath (List.cons.inj htext).1
  rw [hspaces] at htext
  simp only [List.replicate_zero, List.nil_append, List.append_cancel_left_eq, List.cons.injEq,
    true_and] at htext
  -- and the version has no space
  have hspaces' : r.spaces' = 0 := by
    cases hn : r.spaces' with
    | zero => rfl
    | succ n =>
      exfalso
      rw [hn, List.replicate_succ, List.cons_append] at htext
      cases hv : r'.version with
      | nil =>
        rw [hv] at htext
        exact absurd (List.cons.inj htext).1 (by decide)
      | cons v version =>
        rw [hv] at htext
        refine hr'.version.1 ?_
        rw [hv, (List.cons.inj htext).1]
        simp
  refine ⟨hempty, hspaces, hspaces', ?_⟩
  rw [hspaces', afterVersion_eq] at htext
  have hsame : r'.version ++ lf :: ((r'.lines ++ [r'.last]).flatMap fun l => l ++ [lf]) =
      r.byteText.version ++ lf ::
        ((r.byteText.lines ++ [r.byteText.last]).flatMap fun l => l ++ [lf]) := by
    simpa [byteText] using htext
  obtain ⟨-, hlines⟩ := append_cons_unique hr'.version.2 (version_byteText hr).2 hsame
  have hcut := lines_injective ?_ ?_ hlines
  · exact (List.append_inj' hcut rfl).1
  · intro l hl
    rcases List.mem_append.1 hl with hl | hl
    · exact (hr'.lines l hl).1
    · rw [List.mem_singleton.1 hl]
      intro hlf
      rcases hr'.last lf hlf with h | h
      · exact absurd h (by decide)
      · exact absurd h (by decide)
  · intro l hl
    rcases List.mem_append.1 hl with hl | hl
    · obtain ⟨part, hpart, rfl⟩ := List.mem_map.1 hl
      obtain ⟨first, hwell⟩ := hr.lines.forall part hpart
      exact HeaderLine.lf_notMem_line hwell
    · have hlast : lf ∉ if r.endsWithCr then [cr] else [] := by
        cases r.endsWithCr <;> decide
      rw [List.mem_singleton.1 hl]
      exact hlast

end RequestParts

/-- On a text that `phr_parse_request` takes, of ASCII bytes and within the limit of the byte
parser, the two read the same request exactly if it is written plainly. -/
theorem readsTheSame_iff (maxHeaders kMaxMsgLength : ℕ) (hmax : kMaxMsgLength < sizeMod)
    (r : RequestParts) (hr : r.WellFormed maxHeaders) (hascii : ∀ c ∈ r.toText, isascii c)
    (hlen : r.toText.length ≤ kMaxMsgLength) :
    ReadsTheSame maxHeaders kMaxMsgLength r.toText ↔ r.Plain := by
  have hpico := phrParseRequest_of_wellFormed hr []
  rw [List.append_nil] at hpico
  have hstored := RequestParts.stored_request hr r.toText.length
  rw [ReadsTheSame, hpico, hstored]
  have hlines : ((r.lines.map HeaderLine.header).mapM Header.stored =
      some (r.lines.map fun l => storedHeader l.line)) ↔ ∀ l ∈ r.lines, l.Plain := by
    rw [mapM_map_eq_some_map_iff]
    refine forall₂_congr fun l hl => ?_
    obtain ⟨first, hwell⟩ := hr.lines.forall l hl
    exact HeaderLine.stored_header_iff hwell
  constructor
  · rintro ⟨-, hdone, hsame⟩
    obtain ⟨headers, hheaders, hrequest⟩ := Option.map_eq_some_iff.1 hsame
    obtain ⟨r', hr', htext⟩ := hdone.requestText hmax hascii hlen
    rw [htext] at hascii hlen hrequest
    rw [(HttpParser.parseBytes_text hmax hr' hascii hlen).2] at hrequest
    obtain ⟨hmethod, hurl, -, hstoredLines⟩ := HttpRequest.mk.inj hrequest
    obtain ⟨hempty, hspaces, hspaces', hparts⟩ := RequestParts.plain_of_text hr hr' hmethod.symm
      hurl.symm htext.symm
    refine ⟨hempty, hspaces, hspaces', hlines.1 ?_⟩
    rw [hheaders, hstoredLines, hparts]
    simp [RequestParts.byteText]
  · intro h
    have htext := RequestParts.toText_of_plain h.emptyLine h.spaces h.spaces'
    rw [htext] at hascii hlen
    obtain ⟨hdone, hrequest⟩ := HttpParser.parseBytes_text hmax
      (RequestParts.wellFormed_byteText hr fun l hl => (h.lines l hl).named) hascii hlen
    rw [htext, hrequest, RequestParts.request_byteText hr, hlines.2 h.lines]
    exact ⟨rfl, hdone, rfl⟩

/-- A request with one header, with one space behind the method and with two. -/
theorem readsTheSame_iff_two_spaces :
    ReadsTheSame 256 4096 (lit "GET /a HTTP/1.1\r\nHost: B\r\n\r\n") ∧
      ¬ReadsTheSame 256 4096 (lit "GET  /a HTTP/1.1\r\nHost: B\r\n\r\n") := by
  have hparts : ∀ spaces, RequestParts.WellFormed 256 ⟨none, lit "GET", spaces, lit "/a", 0, 49,
      true, [⟨some (lit "Host"), lit " ", lit "B", true⟩], true⟩ := by
    have hmethod : lit "GET" ≠ [] ∧ ∀ c ∈ lit "GET", isTokenChar c = true := by decide +kernel
    have hpath : lit "/a" ≠ [] ∧ ∀ c ∈ lit "/a", c ≠ space ∧ isControl c = false := by
      decide +kernel
    refine fun spaces => ⟨hmethod, hpath, show isDigit 49 = true by decide,
      ⟨⟨fun name hname => ?_, by simp, by decide +kernel, by decide +kernel⟩, trivial⟩, by simp⟩
    obtain rfl := Option.some.inj hname
    decide +kernel
  constructor
  · refine (readsTheSame_iff 256 4096 (by decide +kernel) _ (hparts 0) (by decide +kernel)
      (by decide +kernel)).2 ⟨rfl, rfl, rfl, ?_⟩
    intro l hl
    obtain rfl := List.mem_singleton.1 hl
    exact ⟨rfl, by decide +kernel, by decide +kernel⟩
  · intro h
    have hplain := (readsTheSame_iff 256 4096 (by decide +kernel) _ (hparts 1) (by decide +kernel)
      (by decide +kernel)).1 h
    exact absurd hplain.spaces (by decide)

end Pico

end Azugate
