import Azugate.Pico

/-!
# The requests picohttpparser accepts

`HeaderLine` is a line of a header block, as the text it was written with, and `RequestParts` a
whole request : the parts between its separators, with the spaces and line ends that can be
written in more than one way. `parseRequest` is done exactly on the texts of well-formed parts,
whatever follows them, and its answer is read off the parts (`parseRequest_eq_done_iff`).

Every function of the C source has its own lemma of this form, and those of the combinators are
`takeUntil_eq_done_iff` and its like.
-/

namespace Azugate

open Incremental Incremental.Parser

namespace Pico

/-! ## Ends of lines -/

/-- The end of a line. -/
def lineEnd (withCr : Bool) : Str :=
  if withCr then [cr, lf] else [lf]

theorem eol_eq_done_iff {xs rest : Str} :
    eol xs = .done () rest ↔ ∃ withCr, xs = lineEnd withCr ++ rest := by
  rw [eol, bind_eq_done_iff]
  simp only [item_eq_done_iff]
  constructor
  · rintro ⟨c, mid, rfl, h⟩
    split_ifs at h with hcr hlf
    · rw [tokens_eq_done_iff] at h
      exact ⟨true, by rw [hcr, h]; rfl⟩
    · obtain ⟨-, rfl⟩ := pure_eq_done_iff.1 h
      exact ⟨false, by rw [hlf]; rfl⟩
    · exact absurd h fail_ne_done
  · rintro ⟨_ | _, rfl⟩
    · exact ⟨lf, rest, rfl, rfl⟩
    · exact ⟨cr, lf :: rest, rfl, by rw [if_pos rfl, tokens_eq_done_iff]; rfl⟩

theorem head?_lineEnd (withCr : Bool) (rest : Str) :
    (lineEnd withCr ++ rest).head? = some (if withCr then cr else lf) := by
  cases withCr <;> rfl

/-- The first character of the end of a line ends a header's value. -/
theorem isControl_lineEnd (withCr : Bool) :
    (isControl (if withCr then cr else lf) && (if withCr then cr else lf) != 9) = true := by
  cases withCr <;> decide

theorem getTokenToEol_eq_done_iff {token xs rest : Str} :
    getTokenToEol xs = .done token rest ↔
      (∀ c ∈ token, (isControl c && c != 9) = false) ∧
        ∃ withCr, xs = token ++ lineEnd withCr ++ rest := by
  rw [getTokenToEol, bind_eq_done_iff]
  constructor
  · rintro ⟨text, mid, htext, h⟩
    obtain ⟨⟨⟩, mid', heol, hpure⟩ := bind_eq_done_iff.1 h
    obtain ⟨rfl, rfl⟩ := pure_eq_done_iff.1 hpure
    obtain ⟨rfl, hall, -⟩ := takeUntil_eq_done_iff.1 htext
    obtain ⟨withCr, rfl⟩ := eol_eq_done_iff.1 heol
    exact ⟨fun c hc => (hall c hc).1, withCr, by simp⟩
  · rintro ⟨hall, withCr, rfl⟩
    refine ⟨token, lineEnd withCr ++ rest, takeUntil_eq_done_iff.2 ⟨by simp, ?_, ?_⟩, ?_⟩
    · exact fun c hc => ⟨hall c hc, rfl⟩
    · exact ⟨_, head?_lineEnd withCr rest, isControl_lineEnd withCr⟩
    · exact bind_eq_done_iff.2 ⟨(), rest, eol_eq_done_iff.2 ⟨withCr, rfl⟩, rfl⟩

/-! ## Header lines -/

/-- A line of a header block, with the blanks after the colon. A line that continues the one
before has no name, and its blanks are part of the text. -/
structure HeaderLine where
  name : Option Str
  blanks : Str
  text : Str
  withCr : Bool

namespace HeaderLine

/-- The line as it is written, up to its end. -/
def beforeEnd (l : HeaderLine) : Str :=
  (l.name.elim [] fun name => name ++ [colon]) ++ l.blanks ++ l.text

/-- The line as it is written. -/
def toText (l : HeaderLine) : Str :=
  l.beforeEnd ++ lineEnd l.withCr

/-- The header of the line : the blanks around the value are dropped. -/
def header (l : HeaderLine) : Header :=
  ⟨l.name, some (l.text.rdropWhile isBlank)⟩

/-- The line can stand in a header block, `first` for the first of it. -/
structure WellFormed (first : Bool) (l : HeaderLine) : Prop where
  named : ∀ name, l.name = some name → name ≠ [] ∧ (∀ c ∈ name, isTokenChar c = true) ∧
    ∀ c ∈ l.text.head?, isBlank c = false
  folded : l.name = none → first = false ∧ l.blanks = [] ∧
    ∃ c, l.text.head? = some c ∧ isBlank c = true
  blanks : ∀ c ∈ l.blanks, isBlank c = true
  text : ∀ c ∈ l.text, (isControl c && c != 9) = false

/-- A byte that is in none of the classes of the line's parts is not in the line. -/
theorem WellFormed.notMem_beforeEnd {first : Bool} {l : HeaderLine} (hl : l.WellFormed first)
    {c : UInt8} (hcolon : c ≠ colon) (htoken : ¬isTokenChar c = true) (hblank : ¬isBlank c = true)
    (hcontrol : ¬(isControl c && c != 9) = false) : c ∉ l.beforeEnd := by
  have hname : c ∉ l.name.elim [] fun name => name ++ [colon] := by
    cases hn : l.name with
    | none => exact List.not_mem_nil
    | some name =>
      have hname : c ∉ name := mt ((hl.named name hn).2.1 c) htoken
      simp [hname, hcolon]
  simp only [beforeEnd, List.mem_append, not_or]
  exact ⟨⟨hname, mt (hl.blanks c) hblank⟩, mt (hl.text c) hcontrol⟩

end HeaderLine

theorem not_isTokenChar_colon : isTokenChar colon = false := by
  decide

theorem not_isBlank_of_isTokenChar {c : UInt8} (h : isTokenChar c = true) : isBlank c = false := by
  have hends : isTokenChar space = false ∧ isTokenChar 9 = false := by decide
  simp only [isBlank, Bool.or_eq_false_iff, beq_eq_false_iff_ne]
  constructor
  · rintro rfl
    simp [hends] at h
  · rintro rfl
    simp [hends] at h

theorem parseToken_eq_done_iff {nextChar : UInt8} (hnext : isTokenChar nextChar = false)
    {token xs rest : Str} :
    parseToken nextChar xs = .done token rest ↔
      (∀ c ∈ token, isTokenChar c = true) ∧ ∃ rest', rest = nextChar :: rest' ∧
        xs = token ++ rest := by
  rw [parseToken, takeUntil_eq_done_iff]
  constructor
  · rintro ⟨rfl, hall, x, hx, hstop⟩
    obtain rfl := eq_of_beq hstop
    obtain ⟨rest', rfl⟩ := List.head?_eq_some_iff.1 hx
    exact ⟨fun c hc => by simpa using (hall c hc).2, rest', rfl, rfl⟩
  · rintro ⟨hall, rest', rfl, rfl⟩
    refine ⟨rfl, fun c hc => ⟨?_, by simp [hall c hc]⟩, nextChar, rfl, by simp⟩
    rw [beq_eq_false_iff_ne]
    rintro rfl
    exact absurd (hall c hc) (by simp [hnext])

/-- The blanks after a colon, up to the first character that is none. -/
theorem skipBlanks_eq_done_iff {blanks xs rest : Str} :
    takeUntil (fun c => !isBlank c) (fun _ => false) xs = .done blanks rest ↔
      (∀ c ∈ blanks, isBlank c = true) ∧ xs = blanks ++ rest ∧
        ∃ c, rest.head? = some c ∧ isBlank c = false := by
  rw [takeUntil_eq_done_iff]
  simp only [Bool.not_eq_false', and_true, Bool.not_eq_true']
  exact and_left_comm

theorem parseHeaderName_eq_done_iff {name xs rest : Str} :
    parseHeaderName xs = .done name rest ↔
      name ≠ [] ∧ (∀ c ∈ name, isTokenChar c = true) ∧
        (∃ c, rest.head? = some c ∧ isBlank c = false) ∧
        ∃ blanks, (∀ c ∈ blanks, isBlank c = true) ∧ xs = name ++ [colon] ++ blanks ++ rest := by
  rw [parseHeaderName, bind_eq_done_iff]
  constructor
  · rintro ⟨token, mid, htoken, h⟩
    obtain ⟨hall, mid', rfl, rfl⟩ := (parseToken_eq_done_iff not_isTokenChar_colon).1 htoken
    split_ifs at h with hnil
    · exact absurd h fail_ne_done
    · obtain ⟨x, mid, hitem, h⟩ := bind_eq_done_iff.1 h
      obtain ⟨blanks, mid'', hblanks, hpure⟩ := bind_eq_done_iff.1 h
      obtain ⟨rfl, rfl⟩ := pure_eq_done_iff.1 hpure
      obtain ⟨rfl, rfl⟩ := List.cons.inj (item_eq_done_iff.1 hitem)
      obtain ⟨hb, rfl, hnext⟩ := skipBlanks_eq_done_iff.1 hblanks
      exact ⟨hnil, hall, hnext, blanks, hb, by simp [colon]⟩
  · rintro ⟨hnil, hall, hnext, blanks, hb, rfl⟩
    refine ⟨name, colon :: (blanks ++ rest), ?_, ?_⟩
    · exact (parseToken_eq_done_iff not_isTokenChar_colon).2 ⟨hall, _, rfl, by simp⟩
    · rw [if_neg hnil]
      exact bind_eq_done_iff.2 ⟨colon, _, item_eq_done_iff.2 rfl, bind_eq_done_iff.2
        ⟨blanks, rest, skipBlanks_eq_done_iff.2 ⟨hb, rfl, hnext⟩, rfl⟩⟩

/-- A header line is read whole, with its end. -/
theorem parseHeader_eq_done_iff {first : Bool} {h : Header} {xs rest : Str} :
    (∃ c, xs.head? = some c ∧ c ≠ cr ∧ c ≠ lf ∧ parseHeader first c xs = .done h rest) ↔
      ∃ l : HeaderLine, l.WellFormed first ∧ xs = l.toText ++ rest ∧ h = l.header := by
  constructor
  · rintro ⟨c, hc, -, -, hparse⟩
    obtain ⟨name, mid, hname, hparse⟩ := bind_eq_done_iff.1 hparse
    obtain ⟨text, mid', htoken, hpure⟩ := bind_eq_done_iff.1 hparse
    obtain ⟨rfl, rfl⟩ := pure_eq_done_iff.1 hpure
    obtain ⟨htext, withCr, rfl⟩ := getTokenToEol_eq_done_iff.1 htoken
    rw [parseLineName] at hname
    split_ifs at hname with hfolded
    · -- a line that continues the one before
      obtain ⟨rfl, rfl⟩ := pure_eq_done_iff.1 hname
      simp only [Bool.and_eq_true, Bool.not_eq_true'] at hfolded
      have hhead : text.head? = some c := by
        cases text with
        | nil =>
          -- an empty line would start with its end
          rw [List.nil_append, head?_lineEnd, Option.some.injEq] at hc
          rw [← hc] at hfolded
          exact absurd hfolded.2 (by cases withCr <;> decide)
        | cons d text => exact hc
      refine ⟨⟨none, [], text, withCr⟩, ⟨by simp, fun _ => ?_, by simp, htext⟩, ?_, rfl⟩
      · exact ⟨hfolded.1, rfl, c, hhead, hfolded.2⟩
      · simp [HeaderLine.toText, HeaderLine.beforeEnd]
    · obtain ⟨token, mid, htoken, hpure⟩ := bind_eq_done_iff.1 hname
      obtain ⟨rfl, rfl⟩ := pure_eq_done_iff.1 hpure
      obtain ⟨hne, hall, ⟨d, hd, hblank⟩, blanks, hblanks, rfl⟩ :=
        parseHeaderName_eq_done_iff.1 htoken
      refine ⟨⟨some token, blanks, text, withCr⟩, ⟨?_, by simp, hblanks, htext⟩, ?_, rfl⟩
      · intro name hname
        obtain rfl := Option.some.inj hname
        refine ⟨hne, hall, fun e he => ?_⟩
        cases text with
        | nil => simp at he
        | cons x text =>
          obtain rfl : x = d := Option.some.inj hd
          obtain rfl : x = e := Option.some.inj he
          exact hblank
      · simp [HeaderLine.toText, HeaderLine.beforeEnd]
  · rintro ⟨⟨name, blanks, text, withCr⟩, hl, rfl, rfl⟩
    have hvalue : getTokenToEol (text ++ lineEnd withCr ++ rest) = .done text rest :=
      getTokenToEol_eq_done_iff.2 ⟨hl.text, withCr, rfl⟩
    cases name with
    | none =>
      obtain ⟨rfl, hnil, c, hc, hblank⟩ := hl.folded rfl
      obtain rfl : blanks = [] := hnil
      obtain ⟨text', rfl⟩ : ∃ text', text = c :: text' := List.head?_eq_some_iff.1 hc
      have hends : isBlank cr = false ∧ isBlank lf = false := by decide
      refine ⟨c, rfl, ?_, ?_, ?_⟩
      · rintro rfl
        simp [hends] at hblank
      · rintro rfl
        simp [hends] at hblank
      · refine bind_eq_done_iff.2 ⟨none, _, ?_, bind_eq_done_iff.2 ⟨_, _, hvalue, rfl⟩⟩
        simp [parseLineName, hblank, HeaderLine.toText, HeaderLine.beforeEnd, Parser.pure]
    | some name =>
      obtain ⟨hne, hall, hhead⟩ := hl.named name rfl
      obtain ⟨c, name', rfl⟩ := List.exists_cons_of_ne_nil hne
      have htoken : isTokenChar c = true := hall c (by simp)
      have hends : isTokenChar cr = false ∧ isTokenChar lf = false := by decide
      refine ⟨c, rfl, ?_, ?_, ?_⟩
      · rintro rfl
        simp [hends] at htoken
      · rintro rfl
        simp [hends] at htoken
      · refine bind_eq_done_iff.2 ⟨some (c :: name'), text ++ lineEnd withCr ++ rest, ?_,
          bind_eq_done_iff.2 ⟨_, _, hvalue, rfl⟩⟩
        rw [parseLineName, not_isBlank_of_isTokenChar htoken, Bool.and_false, if_neg (by decide)]
        have htext : HeaderLine.toText ⟨some (c :: name'), blanks, text, withCr⟩ ++ rest =
            c :: name' ++ [colon] ++ blanks ++ (text ++ lineEnd withCr ++ rest) := by
          simp [HeaderLine.toText, HeaderLine.beforeEnd]
        refine bind_eq_done_iff.2 ⟨c :: name', _, parseHeaderName_eq_done_iff.2
          ⟨hne, hall, ?_, blanks, hl.blanks, htext⟩, rfl⟩
        cases text with
        | nil =>
          refine ⟨_, head?_lineEnd withCr rest, ?_⟩
          cases withCr <;> decide
        | cons d text => exact ⟨d, rfl, hhead d rfl⟩

/-- The lines can stand in a header block one after the other. -/
def WellFormedLines : Bool → List HeaderLine → Prop
  | _, [] => True
  | first, l :: lines => l.WellFormed first ∧ WellFormedLines false lines

/-- A header block is its lines, as many as there is room for, and an empty line. -/
theorem parseHeaders_eq_done_iff {xs rest : Str} :
    ∀ {left : ℕ} {first : Bool} {headers : List Header},
      parseHeaders left first xs = .done headers rest ↔
        ∃ (lines : List HeaderLine) (withCr : Bool), lines.length ≤ left ∧
          WellFormedLines first lines ∧
          xs = lines.flatMap HeaderLine.toText ++ lineEnd withCr ++ rest ∧
          headers = lines.map HeaderLine.header
  | left, first, headers => by
    rw [parseHeaders.eq_def, bind_eq_done_iff]
    simp only [peek_eq_done_iff]
    constructor
    · rintro ⟨c, mid, ⟨rfl, hc⟩, h⟩
      split_ifs at h with hend
      · obtain ⟨⟨⟩, mid, heol, hpure⟩ := bind_eq_done_iff.1 h
        obtain ⟨rfl, rfl⟩ := pure_eq_done_iff.1 hpure
        obtain ⟨withCr, rfl⟩ := eol_eq_done_iff.1 heol
        exact ⟨[], withCr, Nat.zero_le _, trivial, rfl, rfl⟩
      · rw [not_or] at hend
        cases left with
        | zero => exact absurd h fail_ne_done
        | succ left =>
          obtain ⟨header, mid', hheader, h⟩ := bind_eq_done_iff.1 h
          obtain ⟨headers', mid'', hheaders, hpure⟩ := bind_eq_done_iff.1 h
          obtain ⟨rfl, rfl⟩ := pure_eq_done_iff.1 hpure
          obtain ⟨l, hl, rfl, rfl⟩ :=
            parseHeader_eq_done_iff.1 ⟨c, hc, hend.1, hend.2, hheader⟩
          obtain ⟨lines, withCr, hlen, hlines, rfl, rfl⟩ := parseHeaders_eq_done_iff.1 hheaders
          exact ⟨l :: lines, withCr, Nat.succ_le_succ hlen, ⟨hl, hlines⟩, by simp, rfl⟩
    · rintro ⟨lines, withCr, hlen, hlines, rfl, rfl⟩
      cases lines with
      | nil =>
        refine ⟨_, _, ⟨rfl, head?_lineEnd withCr rest⟩, ?_⟩
        rw [if_pos (by cases withCr <;> simp)]
        exact bind_eq_done_iff.2 ⟨(), rest, eol_eq_done_iff.2 ⟨withCr, rfl⟩, rfl⟩
      | cons l lines =>
        obtain ⟨left, rfl⟩ := Nat.exists_eq_add_of_le' (Nat.succ_le_of_lt
          (Nat.lt_of_lt_of_le (Nat.succ_pos _) hlen))
        obtain ⟨c, hc, hcr, hlf, hheader⟩ := parseHeader_eq_done_iff.2 ⟨l, hlines.1, rfl, rfl⟩
        have htext : (l :: lines).flatMap HeaderLine.toText ++ lineEnd withCr ++ rest =
            l.toText ++ (lines.flatMap HeaderLine.toText ++ lineEnd withCr ++ rest) := by simp
        rw [htext]
        refine ⟨c, _, ⟨rfl, hc⟩, ?_⟩
        rw [if_neg (by simp [hcr, hlf])]
        exact bind_eq_done_iff.2 ⟨_, _, hheader, bind_eq_done_iff.2 ⟨_, _,
          parseHeaders_eq_done_iff.2 ⟨lines, withCr, Nat.le_of_succ_le_succ hlen, hlines.2, rfl,
            rfl⟩, rfl⟩⟩

/-! ## Requests -/

/-- The spaces after a token : one, and any that follow it. -/
theorem skipSpaces_eq_done_iff {xs rest : Str} :
    skipSpaces xs = .done () rest ↔ (∃ c, rest.head? = some c ∧ c ≠ space) ∧
      ∃ x n, xs = x :: (List.replicate n space ++ rest) := by
  rw [skipSpaces, bind_eq_done_iff]
  simp only [item_eq_done_iff]
  constructor
  · rintro ⟨x, mid, rfl, h⟩
    obtain ⟨spaces, mid', hspaces, hpure⟩ := bind_eq_done_iff.1 h
    obtain ⟨-, rfl⟩ := pure_eq_done_iff.1 hpure
    obtain ⟨rfl, hall, c, hc, hne⟩ := takeUntil_eq_done_iff.1 hspaces
    refine ⟨⟨c, hc, by simpa using hne⟩, x, spaces.length, ?_⟩
    rw [← List.eq_replicate_of_mem fun y hy => by simpa using (hall y hy).1]
  · rintro ⟨⟨c, hc, hne⟩, x, n, rfl⟩
    refine ⟨x, _, rfl, bind_eq_done_iff.2 ⟨List.replicate n space, rest, ?_, rfl⟩⟩
    refine takeUntil_eq_done_iff.2 ⟨rfl, fun y hy => ?_, c, hc, by simpa using hne⟩
    simp [List.eq_of_mem_replicate hy]

theorem parseHttpVersion_eq_done_iff {n : ℕ} {xs rest : Str} :
    parseHttpVersion xs = .done n rest ↔
      rest ≠ [] ∧ ∃ d, isDigit d = true ∧ n = d.toNat - 48 ∧
        xs = lit "HTTP/1." ++ d :: rest := by
  have hlen : (lit "HTTP/1.").length = 7 := by decide
  rw [parseHttpVersion, bind_eq_done_iff]
  constructor
  · rintro ⟨⟨⟩, mid, hwait, h⟩
    obtain ⟨hlong, rfl⟩ := atLeast_eq_done_iff.1 hwait
    obtain ⟨⟨⟩, mid', htokens, h⟩ := bind_eq_done_iff.1 h
    obtain ⟨d, mid'', hdigit, hpure⟩ := bind_eq_done_iff.1 h
    obtain ⟨rfl, rfl⟩ := pure_eq_done_iff.1 hpure
    obtain ⟨rfl, hd⟩ := satisfy_eq_done_iff.1 hdigit
    rw [tokens_eq_done_iff] at htokens
    refine ⟨?_, d, hd, rfl, htokens⟩
    rintro rfl
    rw [htokens, List.length_append, hlen] at hlong
    simp at hlong
  · rintro ⟨hrest, d, hd, rfl, rfl⟩
    refine ⟨(), _, atLeast_eq_done_iff.2 ⟨?_, rfl⟩, bind_eq_done_iff.2
      ⟨(), _, tokens_eq_done_iff.2 rfl, bind_eq_done_iff.2
        ⟨d, rest, satisfy_eq_done_iff.2 ⟨rfl, hd⟩, rfl⟩⟩⟩
    rw [List.length_append, List.length_cons, hlen]
    have := List.length_pos_iff.2 hrest
    omega

theorem advanceToken_eq_done_iff {path xs rest : Str} :
    advanceToken xs = .done path rest ↔
      (∀ c ∈ path, c ≠ space ∧ isControl c = false) ∧ ∃ rest', rest = space :: rest' ∧
        xs = path ++ rest := by
  rw [advanceToken, takeUntil_eq_done_iff]
  constructor
  · rintro ⟨rfl, hall, x, hx, hstop⟩
    obtain rfl := eq_of_beq hstop
    obtain ⟨rest', rfl⟩ := List.head?_eq_some_iff.1 hx
    exact ⟨fun c hc => by simpa using hall c hc, rest', rfl, rfl⟩
  · rintro ⟨hall, rest', rfl, rfl⟩
    exact ⟨rfl, fun c hc => by simpa using hall c hc, space, rfl, by simp⟩

/-- The empty line before a request, if there is one. -/
theorem skipEmptyLine_eq_done_iff {xs rest : Str} :
    skipEmptyLine xs = .done () rest ↔
      (∃ withCr, xs = lineEnd withCr ++ rest) ∨
        (xs = rest ∧ ∃ c, xs.head? = some c ∧ c ≠ cr ∧ c ≠ lf) := by
  rw [skipEmptyLine, bind_eq_done_iff]
  simp only [peek_eq_done_iff]
  constructor
  · rintro ⟨c, mid, ⟨rfl, hc⟩, h⟩
    split_ifs at h with hend
    · exact Or.inl (eol_eq_done_iff.1 h)
    · obtain ⟨-, rfl⟩ := pure_eq_done_iff.1 h
      rw [not_or] at hend
      exact Or.inr ⟨rfl, c, hc, hend⟩
  · rintro (⟨withCr, rfl⟩ | ⟨rfl, c, hc, hcr, hlf⟩)
    · refine ⟨_, _, ⟨rfl, head?_lineEnd withCr rest⟩, ?_⟩
      rw [if_pos (by cases withCr <;> simp)]
      exact eol_eq_done_iff.2 ⟨withCr, rfl⟩
    · refine ⟨c, xs, ⟨rfl, hc⟩, ?_⟩
      rw [if_neg (by simp [hcr, hlf])]
      rfl

theorem skipEmptyLine_of_isTokenChar (emptyLine : Option Bool) {c : UInt8}
    (hc : isTokenChar c = true) (rest : Str) :
    skipEmptyLine (emptyLine.elim [] lineEnd ++ c :: rest) = .done () (c :: rest) := by
  cases emptyLine with
  | some withCr => exact skipEmptyLine_eq_done_iff.2 (Or.inl ⟨withCr, rfl⟩)
  | none =>
    have hends : isTokenChar cr = false ∧ isTokenChar lf = false := by decide
    refine skipEmptyLine_eq_done_iff.2 (Or.inr ⟨rfl, c, rfl, ?_, ?_⟩)
    · rintro rfl
      simp [hends] at hc
    · rintro rfl
      simp [hends] at hc

/-- The parts of a request. -/
structure RequestParts where
  /-- The empty line before the request, with or without a CR. -/
  emptyLine : Option Bool
  method : Str
  /-- The spaces after the first behind the method. -/
  spaces : ℕ
  path : Str
  /-- The spaces after the first behind the path. -/
  spaces' : ℕ
  minorVersion : UInt8
  withCr : Bool
  lines : List HeaderLine
  endsWithCr : Bool

namespace RequestParts

/-- What follows the version in the text. -/
def afterVersion (r : RequestParts) : Str :=
  lineEnd r.withCr ++ r.lines.flatMap HeaderLine.toText ++ lineEnd r.endsWithCr

/-- The text of the request. -/
def toText (r : RequestParts) : Str :=
  r.emptyLine.elim [] lineEnd ++ r.method ++ space :: (List.replicate r.spaces space ++ r.path ++
    space :: (List.replicate r.spaces' space ++ lit "HTTP/1." ++ r.minorVersion ::
      r.afterVersion))

/-- The method is a token, the path has no space and no control character, the version ends in
a digit, and the header lines can stand where they do. -/
structure WellFormed (maxHeaders : ℕ) (r : RequestParts) : Prop where
  method : r.method ≠ [] ∧ ∀ c ∈ r.method, isTokenChar c = true
  path : r.path ≠ [] ∧ ∀ c ∈ r.path, c ≠ space ∧ isControl c = false
  minorVersion : isDigit r.minorVersion = true
  lines : WellFormedLines true r.lines
  room : r.lines.length ≤ maxHeaders

/-- The request of the parts, as `parse_request` leaves it in its output parameters. -/
def request (r : RequestParts) : PhrRequest :=
  ⟨0, some r.method, some r.path, (r.minorVersion.toNat - 48 : ℕ), r.lines.map HeaderLine.header⟩

end RequestParts

theorem lineEnd_append_ne_nil (withCr : Bool) (rest : Str) : lineEnd withCr ++ rest ≠ [] := by
  cases withCr <;> simp [lineEnd]

/-- `parse_request` is done exactly on the text of a well-formed request, whatever follows it. -/
theorem parseRequest_eq_done_iff {maxHeaders : ℕ} {req : PhrRequest} {xs rest : Str} :
    parseRequest maxHeaders xs = .done req rest ↔
      ∃ r : RequestParts, r.WellFormed maxHeaders ∧ xs = r.toText ++ rest ∧ req = r.request := by
  have hspace : isTokenChar space = false := by decide
  constructor
  · intro h
    obtain ⟨⟨⟩, s1, hskip, h⟩ := bind_eq_done_iff.1 h
    obtain ⟨method, s2, hmethod, h⟩ := bind_eq_done_iff.1 h
    obtain ⟨⟨⟩, s3, hspaces, h⟩ := bind_eq_done_iff.1 h
    obtain ⟨path, s4, hpath, h⟩ := bind_eq_done_iff.1 h
    obtain ⟨⟨⟩, s5, hspaces', h⟩ := bind_eq_done_iff.1 h
    split_ifs at h with hempty
    · exact absurd h fail_ne_done
    obtain ⟨minorVersion, s6, hversion, h⟩ := bind_eq_done_iff.1 h
    obtain ⟨⟨⟩, s7, heol, h⟩ := bind_eq_done_iff.1 h
    obtain ⟨headers, s8, hheaders, hpure⟩ := bind_eq_done_iff.1 h
    obtain ⟨rfl, rfl⟩ := pure_eq_done_iff.1 hpure
    -- each part in turn, from the last to the first
    obtain ⟨lines, endsWithCr, hroom, hlines, rfl, rfl⟩ := parseHeaders_eq_done_iff.1 hheaders
    obtain ⟨withCr, rfl⟩ := eol_eq_done_iff.1 heol
    obtain ⟨-, d, hd, rfl, rfl⟩ := parseHttpVersion_eq_done_iff.1 hversion
    obtain ⟨-, y, spaces', rfl⟩ := skipSpaces_eq_done_iff.1 hspaces'
    obtain ⟨hpathChars, rest', hy, rfl⟩ := advanceToken_eq_done_iff.1 hpath
    obtain ⟨rfl, -⟩ := List.cons.inj hy
    obtain ⟨-, x, spaces, rfl⟩ := skipSpaces_eq_done_iff.1 hspaces
    obtain ⟨hmethodChars, rest'', hx, rfl⟩ := (parseToken_eq_done_iff hspace).1 hmethod
    obtain ⟨rfl, -⟩ := List.cons.inj hx
    rw [not_or] at hempty
    rcases skipEmptyLine_eq_done_iff.1 hskip with ⟨withCr', rfl⟩ | ⟨rfl, -⟩
    · refine ⟨⟨some withCr', method, spaces, path, spaces', d, withCr, lines, endsWithCr⟩,
        ⟨⟨hempty.1, hmethodChars⟩, ⟨hempty.2, hpathChars⟩, hd, hlines, hroom⟩, ?_, rfl⟩
      simp [RequestParts.toText, RequestParts.afterVersion]
    · refine ⟨⟨none, method, spaces, path, spaces', d, withCr, lines, endsWithCr⟩,
        ⟨⟨hempty.1, hmethodChars⟩, ⟨hempty.2, hpathChars⟩, hd, hlines, hroom⟩, ?_, rfl⟩
      simp [RequestParts.toText, RequestParts.afterVersion]
  · rintro ⟨⟨emptyLine, method, spaces, path, spaces', d, withCr, lines, endsWithCr⟩, hr, rfl, rfl⟩
    obtain ⟨⟨hm, hmethod⟩, ⟨hp, hpath⟩, hd, hlines, hroom⟩ := hr
    obtain ⟨c, method', rfl⟩ := List.exists_cons_of_ne_nil hm
    obtain ⟨p, path', rfl⟩ := List.exists_cons_of_ne_nil hp
    have htext : RequestParts.toText ⟨emptyLine, c :: method', spaces, p :: path', spaces', d,
        withCr, lines, endsWithCr⟩ ++ rest = emptyLine.elim [] lineEnd ++ c :: (method' ++
          space :: (List.replicate spaces space ++ p :: (path' ++
            space :: (List.replicate spaces' space ++ (lit "HTTP/1." ++ d ::
              (lineEnd withCr ++ (lines.flatMap HeaderLine.toText ++ lineEnd endsWithCr ++
                rest))))))) := by
      simp [RequestParts.toText, RequestParts.afterVersion]
    rw [htext]
    refine bind_eq_done_iff.2 ⟨(), _,
        skipEmptyLine_of_isTokenChar emptyLine (hmethod c (by simp)) _,
      bind_eq_done_iff.2 ⟨c :: method', _,
        (parseToken_eq_done_iff hspace).2 ⟨hmethod, _, rfl, rfl⟩,
      bind_eq_done_iff.2 ⟨(), _,
        skipSpaces_eq_done_iff.2 ⟨⟨p, rfl, (hpath p (by simp)).1⟩, space, spaces, rfl⟩,
      bind_eq_done_iff.2 ⟨p :: path', _, advanceToken_eq_done_iff.2 ⟨hpath, _, rfl, rfl⟩,
      bind_eq_done_iff.2 ⟨(), _,
        skipSpaces_eq_done_iff.2 ⟨⟨72, rfl, by decide⟩, space, spaces', rfl⟩, ?_⟩⟩⟩⟩⟩
    rw [if_neg (by simp)]
    exact bind_eq_done_iff.2 ⟨d.toNat - 48, _,
        parseHttpVersion_eq_done_iff.2 ⟨lineEnd_append_ne_nil _ _, d, hd, rfl, rfl⟩,
      bind_eq_done_iff.2 ⟨(), _, eol_eq_done_iff.2 ⟨withCr, rfl⟩,
      bind_eq_done_iff.2 ⟨_, _,
        parseHeaders_eq_done_iff.2 ⟨lines, endsWithCr, hroom, hlines, rfl, rfl⟩, rfl⟩⟩⟩

theorem phrParseRequest_of_wellFormed {maxHeaders : ℕ} {r : RequestParts}
    (hr : r.WellFormed maxHeaders) (rest : Str) :
    phrParseRequest maxHeaders (r.toText ++ rest) =
      { r.request with pret := r.toText.length } := by
  rw [phrParseRequest, parseRequest_eq_done_iff.2 ⟨r, hr, rfl, rfl⟩]
  simp

/-! ## The call -/

/-- The conversion of a length to `int`. -/
def toInt (n : ℤ) : ℤ :=
  n.bmod (2 ^ 32)

theorem toInt_of_lt {n : ℕ} (h : n < 2 ^ 31) : toInt n = n :=
  Int.bmod_eq_of_le (by omega) (by omega)

end Pico

/-- What the caller of `phr_parse_request` gets : its result is converted to `int`. -/
def PhrRequest.returned (req : PhrRequest) : PhrRequest :=
  { req with pret := Pico.toInt req.pret }

namespace Pico

/-- The result of `phr_parse_request` is positive exactly on the text of a well-formed request whose
length is positive as an `int`, whatever follows it. It is that length, and the answer is the
request the text writes. -/
theorem phrParseRequest_accepts_iff (maxHeaders : ℕ) (buf : Str) (req : PhrRequest) :
    ((phrParseRequest maxHeaders buf).returned = req ∧ 0 < req.pret) ↔
      ∃ (r : RequestParts) (rest : Str), r.WellFormed maxHeaders ∧ buf = r.toText ++ rest ∧
        req = { r.request with pret := toInt r.toText.length } ∧ 0 < req.pret := by
  constructor
  · rintro ⟨hreq, hpos⟩
    unfold phrParseRequest at hreq
    cases hparse : parseRequest maxHeaders buf with
    | done req' rest =>
      simp only [hparse] at hreq
      obtain ⟨r, hr, rfl, rfl⟩ := parseRequest_eq_done_iff.1 hparse
      refine ⟨r, rest, hr, rfl, ?_, hpos⟩
      rw [← hreq, List.length_append, PhrRequest.returned]
      simp
    | more =>
      simp only [hparse] at hreq
      rw [← hreq] at hpos
      exact absurd hpos (by decide)
    | fail =>
      simp only [hparse] at hreq
      rw [← hreq] at hpos
      exact absurd hpos (by decide)
  · rintro ⟨r, rest, hr, rfl, rfl, hpos⟩
    rw [phrParseRequest_of_wellFormed hr rest]
    exact ⟨rfl, hpos⟩

end Pico

end Azugate
