import Azugate.HttpParser

/-!
# The requests the byte parser accepts

`RequestText` is a request as lines : the first line of three words, the header lines, and the line
that ends them. A fresh parser is done with the last byte of a text exactly when the text is one
of these, and then it has the words and the header lines in the form it stores them. A byte that is
not ASCII, or one past `kMaxMsgLength`, is an error (`parseBytes_requestText`).

A header the parser has stored is the form it would store that line in. So `StringifyHeaders` of
headers that were parsed is parsed to the same headers (`parseBytes_stringifyHeaders`).
-/

namespace Azugate

/-! ## Lines -/

/-- A header line without its CRs and spaces, in lower case. -/
def headerText (line : Str) : Str :=
  toLower (line.filter fun c => c != cr && c != space)

/-- `key: val`, from the two parts of a line at its first colon. -/
def storedHeader (line : Str) : Str :=
  (headerText line).takeWhile (· != colon) ++ lit ": " ++
    ((headerText line).dropWhile (· != colon)).drop 1

theorem storedHeader_eq {line key val : Str} (htext : headerText line = key ++ colon :: val)
    (hkey : colon ∉ key) : storedHeader line = key ++ lit ": " ++ val := by
  have hcut := cutAt_append hkey val
  rw [cutAt, if_pos (by simp), Option.some.injEq, Prod.mk.injEq] at hcut
  rw [storedHeader, htext, hcut.1, hcut.2]

/-- The parts of a request between its separators. -/
structure RequestText where
  method : Str
  url : Str
  version : Str
  lines : List Str
  last : Str

namespace RequestText

/-- The text : spaces end the method and the URL, and LF ends everything after. -/
def text (r : RequestText) : Str :=
  r.method ++ space :: (r.url ++ space :: (r.version ++ lf ::
    (r.lines.flatMap (fun line => line ++ [lf]) ++ (r.last ++ [lf]))))

/-- No part has its separator in it, the header lines have a colon, and the last line is empty but
for CRs and spaces. -/
structure WellFormed (r : RequestText) : Prop where
  method : space ∉ r.method
  url : space ∉ r.url
  version : space ∉ r.version ∧ lf ∉ r.version
  lines : ∀ line ∈ r.lines, lf ∉ line ∧
    line.filter (fun c => c != cr && c != space) ≠ [] ∧
    colon ∈ line.filter fun c => c != cr && c != space
  last : ∀ c ∈ r.last, c = cr ∨ c = space

/-- The request of the text. -/
def request (r : RequestText) : HttpRequest :=
  ⟨r.method, r.url, r.version.filter (· != cr), r.lines.map storedHeader⟩

end RequestText

theorem tolower_eq_colon (c : UInt8) : tolower c = colon ↔ c = colon := by
  unfold tolower colon
  grind

theorem colon_mem_headerText {line : Str} :
    colon ∈ headerText line ↔ colon ∈ line.filter fun c => c != cr && c != space := by
  simp [headerText, toLower, tolower_eq_colon]

/-- Every CR and space of the line is dropped, and every other byte collected. -/
theorem flatMap_collected_headers (line : Str) :
    line.flatMap (HttpParser.collected .headers) = headerText line := by
  induction line with
  | nil => rfl
  | cons c line ih =>
    rw [List.flatMap_cons, ih]
    by_cases hcr : c = cr
    · simp [HttpParser.collected, headerText, hcr]
    · by_cases hspace : c = space
      · simp [HttpParser.collected, headerText, hspace]
      · simp [HttpParser.collected, headerText, toLower, hcr, hspace]

theorem flatMap_collected_version (w : Str) :
    w.flatMap (HttpParser.collected .version) = w.filter (· != cr) := by
  induction w with
  | nil => rfl
  | cons c w ih =>
    rw [List.flatMap_cons, ih]
    by_cases hcr : c = cr
    · simp [HttpParser.collected, hcr]
    · simp [HttpParser.collected, hcr]

namespace HttpParser

variable {kMaxMsgLength : ℕ}

/-! ## Steps over a line -/

/-- The parser between two header lines. -/
def atLine (request : HttpRequest) (n : ℕ) : HttpParser :=
  ⟨request, [], .headers, n⟩

/-- The end of a line with a colon. -/
theorem endHeader_of_colon (request : HttpRequest) {line : Str} (hcolon : colon ∈ headerText line)
    (n : ℕ) :
    endHeader ⟨request, headerText line, .headers, n⟩ =
      atLine { request with headers := request.headers ++ [storedHeader line] } n := by
  obtain ⟨key, val, htext, hkey⟩ := List.eq_append_cons_of_mem hcolon
  have hfind : find (lit ":") (key ++ colon :: val) = some key.length :=
    find_singleton_append hkey val
  rw [endHeader, storedHeader_eq htext hkey, htext, if_neg (by simp)]
  simp only [hfind]
  simp [atLine]

theorem endHeader_of_no_colon {p : HttpParser} (hne : p.msgBuffer ≠ [])
    (hcolon : colon ∉ p.msgBuffer) : p.endHeader.state = .err := by
  have hfind : find (lit ":") p.msgBuffer = none := find_singleton_of_notMem hcolon
  rw [endHeader, if_neg hne, hfind]

/-- A header line, and its end. -/
theorem parseBytes_headerLine (hmax : kMaxMsgLength < sizeMod) {line : Str} (request : HttpRequest)
    {n : ℕ} (hlf : lf ∉ line) (hascii : ∀ c ∈ line, isascii c)
    (hlen : n + (line.length + 1) ≤ kMaxMsgLength) :
    (atLine request n).parseBytes kMaxMsgLength (line ++ [lf]) =
      endHeader ⟨request, headerText line, .headers, n + (line.length + 1)⟩ := by
  have hcollects : ∀ d ∈ line, isascii d ∧ Collects (atLine request n).state d :=
    fun d hd => ⟨hascii d hd, fun h => hlf (h ▸ hd)⟩
  rw [parseBytes_word_end hmax _ hcollects (by decide) hlen]
  simp only [collectWord, counted, atLine, flatMap_collected_headers, List.nil_append]
  rfl

/-- Header lines with colons, one after the other. -/
theorem parseBytes_headerLines (hmax : kMaxMsgLength < sizeMod) (lines : List Str) :
    ∀ (request : HttpRequest) (n : ℕ),
      (∀ line ∈ lines, lf ∉ line ∧ colon ∈ headerText line ∧ ∀ c ∈ line, isascii c) →
      n + (lines.flatMap fun line => line ++ [lf]).length ≤ kMaxMsgLength →
      (atLine request n).parseBytes kMaxMsgLength (lines.flatMap fun line => line ++ [lf]) =
        atLine { request with headers := request.headers ++ lines.map storedHeader }
          (n + (lines.flatMap fun line => line ++ [lf]).length) := by
  induction lines with
  | nil =>
    intro request n _ _
    simp
  | cons line lines ih =>
    intro request n hlines hlen
    obtain ⟨⟨hlf, hcolon, hascii⟩, hlines⟩ := List.forall_mem_cons.1 hlines
    simp only [List.flatMap_cons, List.length_append, List.length_singleton] at hlen
    rw [List.flatMap_cons, parseBytes_append,
      parseBytes_headerLine hmax request hlf hascii (by omega),
      endHeader_of_colon request hcolon, ih _ _ hlines (by omega)]
    simp only [List.map_cons, List.append_assoc, List.singleton_append, List.length_append,
      List.length_cons, Nat.add_assoc, Nat.add_comm 1]

theorem headerText_eq_nil {line : Str} : headerText line = [] ↔ ∀ c ∈ line, c = cr ∨ c = space := by
  simp [headerText, toLower, or_iff_not_imp_left]

/-- The line that ends the headers. -/
theorem parseBytes_lastLine (hmax : kMaxMsgLength < sizeMod) {last : Str} (request : HttpRequest)
    {n : ℕ} (hlast : ∀ c ∈ last, c = cr ∨ c = space)
    (hlen : n + (last.length + 1) ≤ kMaxMsgLength) :
    ((atLine request n).parseBytes kMaxMsgLength last).state = .headers ∧
      (atLine request n).parseBytes kMaxMsgLength (last ++ [lf]) =
        ⟨request, [], .done, n + (last.length + 1)⟩ := by
  have hbyte : ∀ c ∈ last, isascii c ∧ c ≠ lf := by
    intro c hc
    rcases hlast c hc with rfl | rfl <;> decide
  constructor
  · have hcollects : ∀ c ∈ last, isascii c ∧ Collects (atLine request n).state c := hbyte
    rw [parseBytes_collect hmax last _ hcollects (by simp only [atLine]; omega)]
    rfl
  · rw [parseBytes_headerLine hmax request (fun h => (hbyte lf h).2 rfl)
      (fun c hc => (hbyte c hc).1) hlen, headerText_eq_nil.2 hlast]
    rfl

/-! ## Words of the first line -/

theorem parseBytes_method (hmax : kMaxMsgLength < sizeMod) {w : Str} (hspace : space ∉ w)
    (hascii : ∀ c ∈ w, isascii c) (hlen : w.length + 1 ≤ kMaxMsgLength) :
    fresh.parseBytes kMaxMsgLength (w ++ [space]) = ⟨⟨w, [], [], []⟩, [], .url, w.length + 1⟩ := by
  have hword : ∀ c ∈ w, isascii c ∧ Collects fresh.state c :=
    fun c hc => ⟨hascii c hc, fun h => hspace (h ▸ hc)⟩
  have hcollected : w.flatMap (collected fresh.state) = w := List.flatMap_singleton' w
  rw [parseBytes_word_end hmax fresh hword (by decide) (by simp only [fresh]; omega),
    collectWord, hcollected]
  simp [fresh, counted, onChar]

theorem parseBytes_url (hmax : kMaxMsgLength < sizeMod) (method : Str) {w : Str} {n : ℕ}
    (hspace : space ∉ w) (hascii : ∀ c ∈ w, isascii c) (hlen : n + (w.length + 1) ≤ kMaxMsgLength) :
    parseBytes kMaxMsgLength ⟨⟨method, [], [], []⟩, [], .url, n⟩ (w ++ [space]) =
      ⟨⟨method, w, [], []⟩, [], .version, n + (w.length + 1)⟩ := by
  have hword : ∀ c ∈ w, isascii c ∧ Collects .url c :=
    fun c hc => ⟨hascii c hc, fun h => hspace (h ▸ hc)⟩
  have hcollected : w.flatMap (collected .url) = w := List.flatMap_singleton' w
  rw [parseBytes_word_end hmax _ hword (by decide) hlen, collectWord, hcollected]
  simp [counted, onChar, Nat.add_assoc]

theorem parseBytes_version (hmax : kMaxMsgLength < sizeMod) (method url : Str) {w : Str} {n : ℕ}
    (hspace : space ∉ w) (hlf : lf ∉ w) (hascii : ∀ c ∈ w, isascii c)
    (hlen : n + (w.length + 1) ≤ kMaxMsgLength) :
    parseBytes kMaxMsgLength ⟨⟨method, url, [], []⟩, [], .version, n⟩ (w ++ [lf]) =
      atLine ⟨method, url, w.filter (· != cr), []⟩ (n + (w.length + 1)) := by
  have hword : ∀ c ∈ w, isascii c ∧ Collects .version c := fun c hc =>
    ⟨hascii c hc, fun h => hspace (h ▸ hc), fun h => hlf (h ▸ hc)⟩
  rw [parseBytes_word_end hmax _ hword (by decide) hlen, collectWord, flatMap_collected_version]
  rfl

/-! ## The last byte -/

/-- The parser is done with the last of the bytes, and not before. -/
def DoneAtLast (kMaxMsgLength : ℕ) (p : HttpParser) (bytes : Str) : Prop :=
  (p.parseBytes kMaxMsgLength bytes).state = .done ∧
    ∀ front, front <+: bytes → front ≠ bytes → (p.parseBytes kMaxMsgLength front).state ≠ .done

theorem DoneAtLast.append {p : HttpParser} {bytes bytes' : Str}
    (h : DoneAtLast kMaxMsgLength p (bytes ++ bytes')) :
    DoneAtLast kMaxMsgLength (p.parseBytes kMaxMsgLength bytes) bytes' := by
  obtain ⟨hdone, hbefore⟩ := h
  refine ⟨by rwa [← parseBytes_append], fun front hfront hne => ?_⟩
  rw [← parseBytes_append]
  refine hbefore (bytes ++ front) ((List.prefix_append_right_inj bytes).2 hfront) fun h => ?_
  exact hne (List.append_cancel_left h)

/-- A parser that is done stays done within the limit. -/
theorem parseBytes_of_done (hmax : kMaxMsgLength < sizeMod) {p : HttpParser} (h : p.state = .done)
    {bytes : Str} (hascii : ∀ c ∈ bytes, isascii c)
    (hlen : p.nTotalRead + bytes.length ≤ kMaxMsgLength) :
    (p.parseBytes kMaxMsgLength bytes).state = .done := by
  have hcollects : ∀ c ∈ bytes, isascii c ∧ Collects p.state c := by
    intro c hc
    rw [h]
    exact ⟨hascii c hc, trivial⟩
  rw [parseBytes_collect hmax bytes p hcollects hlen]
  exact h

theorem endHeader_nTotalRead (p : HttpParser) : p.endHeader.nTotalRead = p.nTotalRead := by
  unfold endHeader
  split_ifs
  · rfl
  · split <;> rfl

theorem onChar_nTotalRead (p : HttpParser) (c : UInt8) :
    (p.onChar c).nTotalRead = p.nTotalRead := by
  unfold onChar
  cases p.state with
  | method | url | version =>
    dsimp only
    split_ifs <;> rfl
  | headers =>
    dsimp only
    split_ifs
    · rfl
    · exact p.endHeader_nTotalRead
    · rfl
    · rfl
  | done | err => rfl

/-- Without an error every byte is counted. -/
theorem parseBytes_err_or_nTotalRead (bytes : Str) :
    ∀ p : HttpParser, p.nTotalRead + bytes.length < sizeMod →
      (p.parseBytes kMaxMsgLength bytes).state = .err ∨
        (p.parseBytes kMaxMsgLength bytes).nTotalRead = p.nTotalRead + bytes.length := by
  induction bytes with
  | nil =>
    intro p _
    exact Or.inr rfl
  | cons c bytes ih =>
    intro p hlen
    rw [List.length_cons] at hlen ⊢
    have hmod : (p.nTotalRead + 1) % sizeMod = p.nTotalRead + 1 := Nat.mod_eq_of_lt (by omega)
    have hstep : (p.parseByte kMaxMsgLength c).state = .err ∨
        (p.parseByte kMaxMsgLength c).nTotalRead = p.nTotalRead + 1 := by
      simp only [parseByte, hmod]
      split_ifs
      · exact Or.inl rfl
      · exact Or.inl rfl
      · exact Or.inr (onChar_nTotalRead _ c)
    rw [parseBytes_cons]
    rcases hstep with herr | hcount
    · exact Or.inl (parseBytes_of_err bytes herr)
    · have hrest := ih (p.parseByte kMaxMsgLength c) (by omega)
      rw [hcount, Nat.add_assoc, Nat.add_comm 1] at hrest
      exact hrest

/-- Being done is final, so a parser that is done with a byte and not with the byte before was not
done earlier. -/
theorem DoneAtLast.of_concat (hmax : kMaxMsgLength < sizeMod) {p : HttpParser} {bytes : Str}
    {c : UInt8} (hascii : ∀ d ∈ bytes, isascii d)
    (hlen : p.nTotalRead + bytes.length ≤ kMaxMsgLength)
    (hbefore : (p.parseBytes kMaxMsgLength bytes).state ≠ .done)
    (hdone : (p.parseBytes kMaxMsgLength (bytes ++ [c])).state = .done) :
    DoneAtLast kMaxMsgLength p (bytes ++ [c]) := by
  refine ⟨hdone, fun front hfront hne hfrontDone => hbefore ?_⟩
  obtain ⟨rest, rfl⟩ := (List.prefix_concat_iff.1 hfront).resolve_left hne
  rw [List.length_append] at hlen
  rcases parseBytes_err_or_nTotalRead front p (by omega) with herr | hcount
  · rw [hfrontDone] at herr
    cases herr
  · rw [parseBytes_append]
    exact parseBytes_of_done hmax hfrontDone (fun d hd => hascii d (by simp [hd])) (by omega)

/-- A parser between two lines that is done with the last byte has read header lines with colons
and the line that ends them. -/
theorem DoneAtLast.lines (hmax : kMaxMsgLength < sizeMod) (bytes : Str) :
    ∀ (request : HttpRequest) (n : ℕ), (∀ c ∈ bytes, isascii c) →
      n + bytes.length ≤ kMaxMsgLength → DoneAtLast kMaxMsgLength (atLine request n) bytes →
      ∃ (lines : List Str) (last : Str),
        (∀ line ∈ lines, lf ∉ line ∧ colon ∈ headerText line) ∧
        (∀ c ∈ last, c = cr ∨ c = space) ∧
        bytes = (lines.flatMap fun line => line ++ [lf]) ++ (last ++ [lf]) := by
  induction hn : bytes.length using Nat.strong_induction_on generalizing bytes with
  | _ length ih =>
    intro request n hascii hlen hdone
    by_cases hlf : lf ∈ bytes
    · obtain ⟨line, rest, rfl, hline⟩ := List.eq_append_cons_of_mem hlf
      have hsplit : line ++ lf :: rest = (line ++ [lf]) ++ rest := by simp
      have hlineAscii : ∀ c ∈ line, isascii c := fun c hc => hascii c (by simp [hc])
      rw [List.length_append, List.length_cons] at hn
      have hparse : (atLine request n).parseBytes kMaxMsgLength (line ++ [lf]) = endHeader
          ⟨request, headerText line, .headers, n + (line.length + 1)⟩ :=
        parseBytes_headerLine hmax request hline hlineAscii (by omega)
      rw [hsplit] at hdone ⊢
      by_cases hempty : headerText line = []
      · -- the headers end with this line, so nothing comes after it
        have hend : line ++ [lf] = line ++ [lf] ++ rest := by
          by_contra hne
          refine hdone.2 (line ++ [lf]) (List.prefix_append _ _) hne ?_
          rw [hparse, hempty]
          rfl
        refine ⟨[], line, by simp, headerText_eq_nil.1 hempty, ?_⟩
        rw [← hend]
        rfl
      · have hrest := hdone.append
        rw [hparse] at hrest
        by_cases hcolon : colon ∈ headerText line
        · rw [endHeader_of_colon request hcolon] at hrest
          obtain ⟨lines, last, hlines, hlast, rfl⟩ := ih rest.length (by omega) rest rfl _ _
            (fun c hc => hascii c (by simp [hc])) (by omega) hrest
          refine ⟨line :: lines, last, List.forall_mem_cons.2 ⟨⟨hline, hcolon⟩, hlines⟩, hlast, ?_⟩
          simp
        · have herr := hrest.1.symm.trans
            (parseBytes_of_err rest (endHeader_of_no_colon hempty hcolon))
          cases herr
    · have hcollects : ∀ c ∈ bytes, isascii c ∧ Collects (atLine request n).state c :=
        fun c hc => ⟨hascii c hc, fun h => hlf (h ▸ hc)⟩
      have hstate := hdone.1
      rw [parseBytes_collect hmax bytes _ hcollects (by simp only [atLine, hn]; omega)] at hstate
      cases hstate

/-! ## Texts of requests -/

/-- What comes before the last line. -/
def frontText (method url version : Str) (lines : List Str) : Str :=
  (method ++ [space]) ++ ((url ++ [space]) ++
    ((version ++ [lf]) ++ lines.flatMap fun line => line ++ [lf]))

theorem text_eq (r : RequestText) :
    r.text = frontText r.method r.url r.version r.lines ++ (r.last ++ [lf]) := by
  simp [RequestText.text, frontText]

theorem parseBytes_frontText (hmax : kMaxMsgLength < sizeMod) {r : RequestText} (hr : r.WellFormed)
    (hascii : ∀ c ∈ r.text, isascii c) (hlen : r.text.length ≤ kMaxMsgLength) :
    fresh.parseBytes kMaxMsgLength (frontText r.method r.url r.version r.lines) =
      atLine r.request (frontText r.method r.url r.version r.lines).length := by
  have hlines : ∀ line ∈ r.lines, lf ∉ line ∧ colon ∈ headerText line ∧ ∀ c ∈ line, isascii c := by
    intro line hline
    obtain ⟨hlf, -, hcolon⟩ := hr.lines line hline
    refine ⟨hlf, colon_mem_headerText.2 hcolon, fun c hc => hascii c ?_⟩
    have hmem : c ∈ r.lines.flatMap fun line => line ++ [lf] :=
      List.mem_flatMap.2 ⟨line, hline, List.mem_append_left _ hc⟩
    simp only [RequestText.text, List.mem_append, List.mem_cons]
    tauto
  rw [text_eq] at hlen
  simp only [frontText, List.length_append, List.length_singleton] at hlen ⊢
  rw [parseBytes_append, parseBytes_method hmax hr.method
      (fun c hc => hascii c (by simp [RequestText.text, hc])) (by omega), parseBytes_append,
    parseBytes_url hmax r.method hr.url (fun c hc => hascii c (by simp [RequestText.text, hc]))
      (by omega), parseBytes_append,
    parseBytes_version hmax r.method r.url hr.version.1 hr.version.2
      (fun c hc => hascii c (by simp [RequestText.text, hc])) (by omega),
    parseBytes_headerLines hmax r.lines _ _ hlines (by omega)]
  simp only [RequestText.request, List.nil_append, Nat.add_assoc]

/-- A parser that has read up to the last line is done with the last byte of it. -/
theorem DoneAtLast.of_lastLine (hmax : kMaxMsgLength < sizeMod) {p : HttpParser} {front last : Str}
    {request : HttpRequest}
    (hfront : p.parseBytes kMaxMsgLength front = atLine request (p.nTotalRead + front.length))
    (hascii : ∀ c ∈ front, isascii c) (hlast : ∀ c ∈ last, c = cr ∨ c = space)
    (hlen : p.nTotalRead + (front ++ (last ++ [lf])).length ≤ kMaxMsgLength) :
    DoneAtLast kMaxMsgLength p (front ++ (last ++ [lf])) ∧
      (p.parseBytes kMaxMsgLength (front ++ (last ++ [lf]))).request = request := by
  simp only [List.length_append, List.length_singleton] at hlen
  obtain ⟨hbefore, hend⟩ := parseBytes_lastLine hmax request hlast
    (n := p.nTotalRead + front.length) (by omega)
  have hlastAscii : ∀ c ∈ last, isascii c := by
    intro c hc
    rcases hlast c hc with rfl | rfl <;> decide
  constructor
  · rw [← List.append_assoc]
    refine DoneAtLast.of_concat hmax (List.forall_mem_append.2 ⟨hascii, hlastAscii⟩) ?_ ?_ ?_
    · rw [List.length_append]
      omega
    · rw [parseBytes_append, hfront, hbefore]
      decide
    · rw [List.append_assoc, parseBytes_append, hfront, hend]
  · rw [parseBytes_append, hfront, hend]

/-- A fresh parser is done with the last byte of the text of a request, and has the request. -/
theorem parseBytes_text (hmax : kMaxMsgLength < sizeMod) {r : RequestText} (hr : r.WellFormed)
    (hascii : ∀ c ∈ r.text, isascii c) (hlen : r.text.length ≤ kMaxMsgLength) :
    DoneAtLast kMaxMsgLength fresh r.text ∧
      (fresh.parseBytes kMaxMsgLength r.text).request = r.request := by
  have hfront := parseBytes_frontText hmax hr hascii hlen
  rw [text_eq] at hascii hlen ⊢
  refine DoneAtLast.of_lastLine hmax ?_ (List.forall_mem_append.1 hascii).1 hr.last ?_
  · simpa [fresh] using hfront
  · simpa [fresh] using hlen

/-- A parser that is done with the last byte, and was in the method or the URL, has met a space. -/
theorem DoneAtLast.space_mem (hmax : kMaxMsgLength < sizeMod) {p : HttpParser} {bytes : Str}
    (hs : p.state = .method ∨ p.state = .url) (hascii : ∀ c ∈ bytes, isascii c)
    (hlen : p.nTotalRead + bytes.length ≤ kMaxMsgLength)
    (hdone : DoneAtLast kMaxMsgLength p bytes) : space ∈ bytes := by
  by_contra hspace
  have hcollects : ∀ c ∈ bytes, isascii c ∧ Collects p.state c := by
    intro c hc
    have hne : c ≠ space := fun h => hspace (h ▸ hc)
    rcases hs with hs | hs
    · rw [hs]
      exact ⟨hascii c hc, hne⟩
    · rw [hs]
      exact ⟨hascii c hc, hne⟩
  have hstate := hdone.1
  rw [parseBytes_collect hmax bytes p hcollects hlen] at hstate
  rcases hs with hs | hs
  · cases hs.symm.trans hstate
  · cases hs.symm.trans hstate

/-- A parser that is done with the last byte, and was in the version, has met a LF, and no space
before it. -/
theorem DoneAtLast.version (hmax : kMaxMsgLength < sizeMod) {p : HttpParser} {bytes : Str}
    (hs : p.state = .version) (hascii : ∀ c ∈ bytes, isascii c)
    (hlen : p.nTotalRead + bytes.length ≤ kMaxMsgLength)
    (hdone : DoneAtLast kMaxMsgLength p bytes) :
    ∃ w rest, bytes = w ++ lf :: rest ∧ space ∉ w ∧ lf ∉ w := by
  have hnoSpace : ∀ w rest, bytes = w ++ rest → lf ∉ w → space ∉ w := by
    intro w rest heq hlf hspace
    obtain ⟨front, back, rfl, -⟩ := List.eq_append_cons_of_mem hspace
    have hfront : lf ∉ front := fun h => hlf (List.mem_append_left _ h)
    have herr : ((p.parseBytes kMaxMsgLength (front ++ [space])).parseBytes kMaxMsgLength
        (back ++ rest)).state = .err :=
      parseBytes_of_err _ (parseBytes_version_space front hs hfront)
    rw [← parseBytes_append] at herr
    have hall : front ++ [space] ++ (back ++ rest) = bytes := by simp [heq]
    rw [hall, hdone.1] at herr
    cases herr
  by_cases hlf : lf ∈ bytes
  · obtain ⟨w, rest, heq, hw⟩ := List.eq_append_cons_of_mem hlf
    exact ⟨w, rest, heq, hnoSpace w _ heq hw, hw⟩
  · have hspace := hnoSpace bytes [] (List.append_nil bytes).symm hlf
    have hcollects : ∀ c ∈ bytes, isascii c ∧ Collects p.state c := by
      intro c hc
      rw [hs]
      exact ⟨hascii c hc, fun h => hspace (h ▸ hc), fun h => hlf (h ▸ hc)⟩
    have hstate := hdone.1
    rw [parseBytes_collect hmax bytes p hcollects hlen] at hstate
    cases hs.symm.trans hstate

/-- A byte string with whose last byte a fresh parser is done is the text of a request. -/
theorem DoneAtLast.requestText (hmax : kMaxMsgLength < sizeMod) {bytes : Str}
    (hascii : ∀ c ∈ bytes, isascii c) (hlen : bytes.length ≤ kMaxMsgLength)
    (hdone : DoneAtLast kMaxMsgLength fresh bytes) :
    ∃ r : RequestText, r.WellFormed ∧ bytes = r.text := by
  have hmethodEnd := hdone.space_mem hmax (Or.inl rfl) hascii
    (by simp only [fresh]; omega)
  obtain ⟨method, bytes, rfl, hmethod⟩ := List.eq_append_cons_of_mem hmethodEnd
  simp only [List.mem_append, List.mem_cons, List.length_append, List.length_cons] at hascii hlen
  rw [List.append_cons] at hdone
  have hurlDone := hdone.append
  rw [parseBytes_method hmax hmethod (fun c hc => hascii c (Or.inl hc)) (by omega)] at hurlDone
  have hurlEnd := hurlDone.space_mem hmax (Or.inr rfl) (fun c hc => hascii c (by simp [hc]))
    (by simp only; omega)
  obtain ⟨url, bytes, rfl, hurl⟩ := List.eq_append_cons_of_mem hurlEnd
  simp only [List.mem_append, List.mem_cons, List.length_append, List.length_cons] at hascii hlen
  rw [List.append_cons] at hurlDone
  have hversionDone := hurlDone.append
  rw [parseBytes_url hmax method hurl (fun c hc => hascii c (by simp [hc])) (by omega)]
    at hversionDone
  obtain ⟨version, bytes, rfl, hversion, hlf⟩ := hversionDone.version hmax rfl
    (fun c hc => hascii c (by simp [hc])) (by simp only; omega)
  simp only [List.mem_append, List.mem_cons, List.length_append, List.length_cons] at hascii hlen
  rw [List.append_cons] at hversionDone
  have hlinesDone := hversionDone.append
  rw [parseBytes_version hmax method url hversion hlf (fun c hc => hascii c (by simp [hc]))
    (by omega)] at hlinesDone
  obtain ⟨lines, last, hlines, hlast, rfl⟩ := DoneAtLast.lines hmax bytes _ _
    (fun c hc => hascii c (by simp [hc])) (by omega) hlinesDone
  refine ⟨⟨method, url, version, lines, last⟩, ⟨hmethod, hurl, ⟨hversion, hlf⟩, ?_, hlast⟩, rfl⟩
  intro line hline
  have hcolon := colon_mem_headerText.1 (hlines line hline).2
  exact ⟨(hlines line hline).1, List.ne_nil_of_mem hcolon, hcolon⟩

/-- A byte that is not ASCII, or past the limit, is an error. -/
theorem parseBytes_err (bytes bytes' : Str) (c : UInt8)
    (hlen : bytes.length + 1 < sizeMod) (hc : isascii c = false ∨ kMaxMsgLength ≤ bytes.length) :
    (fresh.parseBytes kMaxMsgLength (bytes ++ c :: bytes')).state = .err := by
  rw [parseBytes_append, parseBytes_cons]
  refine parseBytes_of_err bytes' ?_
  have hstart : fresh.nTotalRead + bytes.length < sizeMod := by
    simp only [fresh]
    omega
  rcases parseBytes_err_or_nTotalRead bytes fresh hstart with herr | hcount
  · exact parseByte_of_err herr c
  · cases hascii : isascii c with
    | false => simp [parseByte, hascii]
    | true =>
      have hlimit := hc.resolve_left (by simp [hascii])
      have hmod : ((fresh.parseBytes kMaxMsgLength bytes).nTotalRead + 1) % sizeMod =
          bytes.length + 1 := by
        rw [hcount, Nat.mod_eq_of_lt (by simp only [fresh]; omega)]
        simp [fresh]
      have hpast : kMaxMsgLength < bytes.length + 1 := by omega
      simp [parseByte, hascii, hmod, hpast]

/-- Within the limit a fresh parser is done with the last of a string of ASCII bytes exactly when
they are the text of a request, and then it has the request. A byte that is not ASCII, or past the
limit, is an error. -/
theorem parseBytes_requestText (kMaxMsgLength : ℕ) (hmax : kMaxMsgLength < sizeMod) :
    (∀ s : Str, (∀ c ∈ s, isascii c) → s.length ≤ kMaxMsgLength →
      (DoneAtLast kMaxMsgLength fresh s ↔ ∃ r : RequestText, r.WellFormed ∧ s = r.text) ∧
      ∀ r : RequestText, r.WellFormed → s = r.text →
        (fresh.parseBytes kMaxMsgLength s).request = r.request) ∧
    ∀ (s s' : Str) (c : UInt8), s.length + 1 < sizeMod →
      (isascii c = false ∨ kMaxMsgLength ≤ s.length) →
      (fresh.parseBytes kMaxMsgLength (s ++ c :: s')).state = .err := by
  refine ⟨fun s hascii hlen => ⟨⟨fun h => h.requestText hmax hascii hlen, ?_⟩, ?_⟩,
    fun s s' c => parseBytes_err s s' c⟩
  · rintro ⟨r, hr, rfl⟩
    exact (parseBytes_text hmax hr hascii hlen).1
  · rintro r hr rfl
    exact (parseBytes_text hmax hr hascii hlen).2

/-- A request with one header. -/
theorem parseBytes_requestText_host :
    let s := lit "GET /a HTTP/1.1\r\nHost: A:1\r\n\r\n"
    DoneAtLast 4096 fresh s ∧
      (fresh.parseBytes 4096 s).request =
        ⟨lit "GET", lit "/a", lit "HTTP/1.1", [lit "host: a:1"]⟩ := by
  intro s
  let r : RequestText := ⟨lit "GET", lit "/a", lit "HTTP/1.1\r", [lit "Host: A:1\r"], lit "\r"⟩
  have hr : r.WellFormed :=
    ⟨by decide, by decide, by decide, by decide +kernel, by decide +kernel⟩
  have htext : s = r.text := by decide +kernel
  obtain ⟨hiff, hrequest⟩ :=
    (parseBytes_requestText 4096 (by decide)).1 s (by decide +kernel) (by decide +kernel)
  have hparts : r.request = ⟨lit "GET", lit "/a", lit "HTTP/1.1", [lit "host: a:1"]⟩ := by
    decide +kernel
  exact ⟨hiff.2 ⟨r, hr, htext⟩, (hrequest r hr htext).trans hparts⟩

/-! ## Headers that were parsed -/

/-- A byte the parser collects in a header line. -/
def IsHeaderByte (c : UInt8) : Prop :=
  isascii c ∧ tolower c = c ∧ c ≠ cr ∧ c ≠ lf ∧ c ≠ space

theorem isHeaderByte_tolower {c : UInt8} (hascii : isascii c) (hcr : c ≠ cr) (hlf : c ≠ lf)
    (hspace : c ≠ space) : IsHeaderByte (tolower c) := by
  simp only [IsHeaderByte, isascii, tolower, cr, lf, space] at *
  grind

/-- A header as the parser stores it. -/
def IsParsedHeader (h : Str) : Prop :=
  ∃ key val, h = key ++ lit ": " ++ val ∧ colon ∉ key ∧ ∀ c ∈ key ++ val, IsHeaderByte c

/-- The invariant of the runs : the header line so far is of bytes that are collected, and the
headers are as the parser stores them. -/
structure ParsedOnly (p : HttpParser) : Prop where
  buffer : p.state = .headers → ∀ c ∈ p.msgBuffer, IsHeaderByte c
  headers : ∀ h ∈ p.request.headers, IsParsedHeader h

theorem ParsedOnly.endHeader {p : HttpParser} (h : ParsedOnly p) (hs : p.state = .headers) :
    ParsedOnly p.endHeader := by
  unfold HttpParser.endHeader
  split_ifs
  · exact ⟨by simp, h.headers⟩
  · cases hfind : find (lit ":") p.msgBuffer with
    | none => exact ⟨by simp, h.headers⟩
    | some pos =>
      obtain ⟨key, val, hbuffer, hkey, rfl⟩ := find_singleton_eq_some hfind
      have hbytes := h.buffer hs
      rw [hbuffer] at hbytes
      refine ⟨by simp, fun header hheader => ?_⟩
      rcases List.mem_append.1 hheader with hold | hnew
      · exact h.headers header hold
      · rw [List.mem_singleton.1 hnew, hbuffer]
        refine ⟨key, val, by simp, hkey, fun c hc => hbytes c ?_⟩
        rcases List.mem_append.1 hc with hc | hc <;> simp [hc]

theorem ParsedOnly.onChar {p : HttpParser} (h : ParsedOnly p) {c : UInt8} (hc : isascii c) :
    ParsedOnly (p.onChar c) := by
  unfold HttpParser.onChar
  cases hs : p.state with
  | method | url =>
    dsimp only
    split_ifs
    · exact ⟨by simp, h.headers⟩
    · exact ⟨by simp, h.headers⟩
  | version =>
    dsimp only
    split_ifs
    · exact h
    · exact ⟨by simp, h.headers⟩
    · exact ⟨by simp, h.headers⟩
    · exact ⟨by simp, h.headers⟩
  | headers =>
    dsimp only
    split_ifs with hcr hlf hspace
    · exact h
    · exact h.endHeader hs
    · exact h
    · refine ⟨fun _ d hd => ?_, h.headers⟩
      rcases List.mem_append.1 hd with hd | hd
      · exact h.buffer hs d hd
      · rw [List.mem_singleton.1 hd]
        exact isHeaderByte_tolower hc hcr hlf hspace
  | done | err => exact h

theorem ParsedOnly.parseByte {p : HttpParser} (h : ParsedOnly p) (c : UInt8) :
    ParsedOnly (p.parseByte kMaxMsgLength c) := by
  have hcounted : ∀ n, ParsedOnly { p with nTotalRead := n } := fun n => ⟨h.buffer, h.headers⟩
  simp only [HttpParser.parseByte]
  split_ifs with hascii
  · exact ⟨by simp, h.headers⟩
  · exact ⟨by simp, h.headers⟩
  · exact (hcounted _).onChar (by simpa using hascii)

theorem ParsedOnly.parseBytes (bytes : Str) :
    ∀ {p : HttpParser}, ParsedOnly p → ParsedOnly (p.parseBytes kMaxMsgLength bytes) := by
  induction bytes with
  | nil => exact id
  | cons c bytes ih => exact fun h => ih (h.parseByte c)

theorem ParsedOnly.fresh : ParsedOnly fresh :=
  ⟨by simp [HttpParser.fresh], by simp [HttpParser.fresh]⟩

theorem headerText_append (w w' : Str) : headerText (w ++ w') = headerText w ++ headerText w' := by
  simp [headerText, toLower]

theorem headerText_of_isHeaderByte {w : Str} (hw : ∀ c ∈ w, IsHeaderByte c) :
    headerText w = w := by
  have hfilter : w.filter (fun c => c != cr && c != space) = w := by
    refine List.filter_eq_self.2 fun c hc => ?_
    simp [(hw c hc).2.2.1, (hw c hc).2.2.2.2]
  have hlower : w.map tolower = w.map id := List.map_congr_left fun c hc => (hw c hc).2.1
  rw [headerText, hfilter, toLower, hlower, List.map_id]

/-- The line `StringifyHeaders` writes of a header that was parsed is stored as the header. -/
theorem storedHeader_of_isParsedHeader {h : Str} (hh : IsParsedHeader h) :
    (lf ∉ h ++ [cr] ∧ colon ∈ headerText (h ++ [cr]) ∧ ∀ c ∈ h ++ [cr], isascii c) ∧
      storedHeader (h ++ [cr]) = h := by
  obtain ⟨key, val, rfl, hkey, hbytes⟩ := hh
  obtain ⟨hkeyBytes, hvalBytes⟩ := List.forall_mem_append.1 hbytes
  have hsep : headerText (lit ": ") = [colon] ∧ headerText [cr] = [] := by decide
  have htext : headerText (key ++ lit ": " ++ val ++ [cr]) = key ++ colon :: val := by
    rw [headerText_append, headerText_append, headerText_append, hsep.1, hsep.2,
      headerText_of_isHeaderByte hkeyBytes, headerText_of_isHeaderByte hvalBytes]
    simp
  have hline : ∀ c ∈ key ++ lit ": " ++ val ++ [cr], isascii c ∧ c ≠ lf := by
    have hlits : ∀ c ∈ lit ": " ++ [cr], isascii c ∧ c ≠ lf := by decide +kernel
    intro c hc
    simp only [List.mem_append] at hc hlits
    rcases hc with ((hc | hc) | hc) | hc
    · exact ⟨(hkeyBytes c hc).1, (hkeyBytes c hc).2.2.2.1⟩
    · exact hlits c (Or.inl hc)
    · exact ⟨(hvalBytes c hc).1, (hvalBytes c hc).2.2.2.1⟩
    · exact hlits c (Or.inr hc)
  refine ⟨⟨fun h => (hline lf h).2 rfl, ?_, fun c hc => (hline c hc).1⟩,
    storedHeader_eq htext hkey⟩
  rw [htext]
  simp

theorem stringifyHeaders_eq (headers : List Str) :
    stringifyHeaders headers =
      ((headers.map fun h => h ++ [cr]).flatMap fun line => line ++ [lf]) ++ ([cr] ++ [lf]) := by
  simp [stringifyHeaders, kCrlf, List.flatMap_map]

/-- Headers that were parsed are parsed from the text `StringifyHeaders` writes of them to the
same headers, and the parser is done with the last byte of it. -/
theorem parseBytes_stringifyHeaders (kMaxMsgLength kMaxMsgLength' : ℕ)
    (hmax : kMaxMsgLength < sizeMod) (s : Str) (headers : List Str)
    (hparsed : headers = (HttpParser.fresh.parseBytes kMaxMsgLength' s).request.headers)
    (p : HttpParser) (hs : p.state = .headers) (hbuffer : p.msgBuffer = [])
    (hheaders : p.request.headers = [])
    (hlen : p.nTotalRead + (stringifyHeaders headers).length ≤ kMaxMsgLength) :
    DoneAtLast kMaxMsgLength p (stringifyHeaders headers) ∧
      (p.parseBytes kMaxMsgLength (stringifyHeaders headers)).request.headers = headers := by
  have hstored : ∀ h ∈ headers, IsParsedHeader h := by
    rw [hparsed]
    exact (ParsedOnly.fresh.parseBytes s).headers
  have hp : p = atLine p.request p.nTotalRead := by
    simp [atLine, ← hs, ← hbuffer]
  have hlines : ∀ line ∈ headers.map fun h => h ++ [cr],
      lf ∉ line ∧ colon ∈ headerText line ∧ ∀ c ∈ line, isascii c := by
    rw [List.forall_mem_map]
    exact fun h hh => (storedHeader_of_isParsedHeader (hstored h hh)).1
  have hsame : (headers.map fun h => h ++ [cr]).map storedHeader = headers := by
    rw [List.map_map]
    refine (List.map_congr_left fun h hh => ?_).trans (List.map_id headers)
    exact (storedHeader_of_isParsedHeader (hstored h hh)).2
  rw [stringifyHeaders_eq] at hlen ⊢
  have hascii : ∀ c ∈ (headers.map fun h => h ++ [cr]).flatMap fun line => line ++ [lf],
      isascii c := by
    intro c hc
    obtain ⟨line, hline, hc⟩ := List.mem_flatMap.1 hc
    rcases List.mem_append.1 hc with hc | hc
    · exact (hlines line hline).2.2 c hc
    · rw [List.mem_singleton.1 hc]
      decide
  have hfrontLen := hlen
  rw [List.length_append, ← Nat.add_assoc] at hfrontLen
  have hfront := parseBytes_headerLines hmax (headers.map fun h => h ++ [cr]) p.request
    p.nTotalRead hlines (Nat.le_of_add_right_le hfrontLen)
  rw [← hp, hsame, hheaders, List.nil_append] at hfront
  obtain ⟨hdone, hrequest⟩ := DoneAtLast.of_lastLine hmax hfront hascii (by simp) hlen
  exact ⟨hdone, congrArg HttpRequest.headers hrequest⟩

/-- A header with colons in its value and an empty one. -/
theorem parseBytes_stringifyHeaders_host :
    let headers := [lit "host: a:1", lit ": "]
    let p : HttpParser := ⟨⟨[], [], [], []⟩, [], .headers, 0⟩
    (p.parseBytes 4096 (stringifyHeaders headers)).request.headers = headers := by
  intro headers p
  have hparsed : headers = (fresh.parseBytes 4096
      (lit "GET / HTTP/1.1\r\nHost: A:1\r\n:\r\n\r\n")).request.headers := by decide +kernel
  exact (parseBytes_stringifyHeaders 4096 4096 (by decide) _ headers hparsed p rfl rfl rfl
    (by decide +kernel)).2

end HttpParser

end Azugate
