import Azugate.Compression
import Azugate.HttpParser

/-!
# The byte parser over a file

`HttpParser::ParseFileStream` feeds a file to `ParseByte` through `io_buffer_`. It reads
`kBufferSize` bytes whenever the buffer is used up, and gives up when the stream has failed
before. A read that ends the file sets the stream's failure only if it was cut short. So after
a file whose length is a multiple of `kBufferSize` there is one read more, which brings nothing,
and `ParseByte` goes on with the bytes the buffer has from before.

`parseUntil` is what the loop is for : the bytes of the file, one by one, until the parser has
an answer. `parsesBytewise_iff` says for which files and buffers the loop is that.
-/

namespace Azugate

/-! ## The loop -/

/-- The members of `HttpParser` that a file is read with. -/
structure FileParser where
  parser : HttpParser
  /-- `kBufferSize` bytes. -/
  ioBuffer : Str
  curBufIdx : ℕ
  endBufIdx : ℕ
  fin : FileStream
  /-- `!fin_`. -/
  failed : Bool

/-- A call of `ParseByte` : the index it reads at, how many bytes the last read has brought,
and the byte. -/
structure ParsedByte where
  index : ℕ
  endBufIdx : ℕ
  byte : UInt8
  deriving DecidableEq, Repr

/-- How `ParseFileStream` ends : its return value, the parser, and the calls of `ParseByte`. -/
structure FileParse where
  ret : Bool
  parser : HttpParser
  calls : List ParsedByte
  deriving DecidableEq, Repr

namespace FileParser

variable (kBufferSize kMaxMsgLength : ℕ)

/-- The constructor, on a file. -/
def ofFile (content : Str) : FileParser :=
  ⟨.fresh, List.replicate kBufferSize 0, kBufferSize, kBufferSize, ⟨content, none⟩, false⟩

/-- `ReadFromFileStream`, with `none` for its `return false`. A read writes to the front of the
buffer. -/
def readFromFileStream (p : FileParser) : Option FileParser :=
  if p.failed then none
  else
    let (r, fin) := p.fin.read kBufferSize
    some { p with
      ioBuffer := r.bytes ++ p.ioBuffer.drop r.bytes.length
      endBufIdx := r.bytes.length
      fin := fin
      failed := r.fail }

/-- The start of a pass : a read if the buffer is used up. -/
def refill (p : FileParser) : Option FileParser :=
  if p.curBufIdx = p.endBufIdx then
    (p.readFromFileStream kBufferSize).map fun p => { p with curBufIdx := 0 }
  else some p

/-- `ParseFileStream`. There is no result if it reads past the end of `io_buffer_`, and none
without enough fuel. -/
def parseFileStream : ℕ → FileParser → Option FileParse
  | 0, _ => none
  | fuel + 1, p =>
    if p.parser.state = .err then some ⟨false, p.parser, []⟩
    else if p.parser.state = .done then some ⟨true, p.parser, []⟩
    else
      match p.refill kBufferSize with
      | none => some ⟨false, p.parser, []⟩
      | some p =>
        match p.ioBuffer[p.curBufIdx]? with
        | none => none
        | some curChar =>
          (parseFileStream fuel { p with
            parser := p.parser.parseByte kMaxMsgLength curChar
            curBufIdx := p.curBufIdx + 1 }).map fun run =>
              { run with calls := ⟨p.curBufIdx, p.endBufIdx, curChar⟩ :: run.calls }

end FileParser

/-! ## The bytes one by one -/

namespace HttpParser

variable (kMaxMsgLength : ℕ)

/-- The parser has an answer. -/
def Stopped (p : HttpParser) : Prop :=
  p.state = .err ∨ p.state = .done

instance (p : HttpParser) : Decidable p.Stopped :=
  inferInstanceAs (Decidable (_ ∨ _))

/-- `ParseByte` on the bytes until there is an answer, or none are left. -/
def parseUntil : HttpParser → Str → HttpParser
  | p, [] => p
  | p, c :: bytes => if p.Stopped then p else parseUntil (p.parseByte kMaxMsgLength c) bytes

variable {kMaxMsgLength}

theorem parseUntil_of_stopped {p : HttpParser} (h : p.Stopped) (bytes : Str) :
    p.parseUntil kMaxMsgLength bytes = p := by
  cases bytes with
  | nil => rfl
  | cons c bytes => rw [parseUntil, if_pos h]

theorem parseUntil_cons {p : HttpParser} (h : ¬p.Stopped) (c : UInt8) (bytes : Str) :
    p.parseUntil kMaxMsgLength (c :: bytes) =
      (p.parseByte kMaxMsgLength c).parseUntil kMaxMsgLength bytes := by
  rw [parseUntil, if_neg h]

end HttpParser

/-- `ParseFileStream` ends. It gives the return value and the request that the bytes of the
file one by one give, and `ParseByte` is called on bytes of the file in order, each at an index
below the number of bytes last read. -/
def ParsesBytewise (kBufferSize kMaxMsgLength : ℕ) (content : Str) : Prop :=
  ∃ N, ∀ fuel, N ≤ fuel → ∃ run,
    FileParser.parseFileStream kBufferSize kMaxMsgLength fuel (.ofFile kBufferSize content) =
        some run ∧
      (run.ret = true ↔
        (HttpParser.fresh.parseUntil kMaxMsgLength content).state = .done) ∧
      run.parser.request = (HttpParser.fresh.parseUntil kMaxMsgLength content).request ∧
      run.calls.map ParsedByte.byte <+: content ∧
      ∀ call ∈ run.calls, call.index < call.endBufIdx

/-! ## The buffer and the file -/

/-- The bytes still to be parsed are `rest`, of a file of `len` bytes : what the buffer has
left, and what the stream has. The stream fails with a read that was cut short. -/
structure Pending (kBufferSize len : ℕ) (p : FileParser) (rest : Str) : Prop where
  length_eq : p.ioBuffer.length = kBufferSize
  cur_le : p.curBufIdx ≤ p.endBufIdx
  end_le : p.endBufIdx ≤ kBufferSize
  rest_eq : rest = (p.ioBuffer.take p.endBufIdx).drop p.curBufIdx ++ p.fin.rest
  good : p.fin.badAfter = none
  failed : p.failed = true → p.fin.rest = [] ∧ ¬kBufferSize ∣ len
  reading : p.failed = false → kBufferSize ∣ len - p.fin.rest.length ∧ p.fin.rest.length ≤ len

namespace Pending

variable {kBufferSize len : ℕ} {p : FileParser} {rest : Str}

theorem ofFile (content : Str) :
    Pending kBufferSize content.length (.ofFile kBufferSize content) content where
  length_eq := by simp [FileParser.ofFile]
  cur_le := le_rfl
  end_le := le_rfl
  rest_eq := by simp [FileParser.ofFile]
  good := rfl
  failed := by simp [FileParser.ofFile]
  reading := by simp [FileParser.ofFile]

/-- A byte the buffer has left is the next to be parsed. -/
theorem next (h : Pending kBufferSize len p rest) (hlt : p.curBufIdx < p.endBufIdx) :
    ∃ c rest', rest = c :: rest' ∧ p.ioBuffer[p.curBufIdx]? = some c ∧
      ∀ parser, Pending kBufferSize len
        { p with parser := parser, curBufIdx := p.curBufIdx + 1 } rest' := by
  have hend := h.end_le
  rw [← h.length_eq] at hend
  have hlen : p.curBufIdx < (p.ioBuffer.take p.endBufIdx).length := by
    rw [List.length_take]
    omega
  refine ⟨p.ioBuffer[p.curBufIdx],
    (p.ioBuffer.take p.endBufIdx).drop (p.curBufIdx + 1) ++ p.fin.rest, ?_,
    List.getElem?_eq_getElem _, fun parser =>
      ⟨h.length_eq, hlt, h.end_le, rfl, h.good, h.failed, h.reading⟩⟩
  rw [h.rest_eq, List.drop_eq_getElem_cons hlen, List.getElem_take, List.cons_append]

/-- A read while there are bytes to come brings the next of them. -/
theorem read (h : Pending kBufferSize len p rest) (heq : p.curBufIdx = p.endBufIdx)
    (hfailed : p.failed = false) (hrest : rest ≠ []) (hpos : 0 < kBufferSize) :
    ∃ p', p.refill kBufferSize = some p' ∧ p'.parser = p.parser ∧ p'.curBufIdx < p'.endBufIdx ∧
      Pending kBufferSize len p' rest := by
  obtain ⟨parser, ioBuffer, curBufIdx, endBufIdx, ⟨finRest, badAfter⟩, failed⟩ := p
  obtain ⟨hlen, -, -, hpending, rfl, -, hreading⟩ := h
  simp only at heq hfailed hlen hpending hreading
  subst heq hfailed
  obtain ⟨hdvd, hle⟩ := hreading rfl
  have hall : finRest = rest := by
    rw [hpending, List.drop_eq_nil_of_le (List.length_take_le _ _), List.nil_append]
  subst hall
  have hcount := List.length_pos_iff.2 hrest
  refine ⟨⟨parser, finRest.take kBufferSize ++ ioBuffer.drop (finRest.take kBufferSize).length, 0,
    (finRest.take kBufferSize).length, ⟨finRest.drop kBufferSize, none⟩,
    decide (finRest.length < kBufferSize) || false⟩, by simp [FileParser.refill,
      FileParser.readFromFileStream, FileStream.read, ReadState.fail], rfl, ?_, ?_⟩
  · simp only [List.length_take]
    omega
  · constructor
    · simp only [List.length_append, List.length_take, List.length_drop]
      omega
    · exact Nat.zero_le _
    · exact List.length_take_le _ _
    · simp
    · rfl
    · intro hshort
      simp only [Bool.or_false, decide_eq_true_eq] at hshort
      refine ⟨List.drop_eq_nil_of_le hshort.le, fun hdvd' => ?_⟩
      have hsub : kBufferSize ∣ finRest.length := (Nat.dvd_sub_iff_right hle hdvd').1 hdvd
      exact absurd (Nat.le_of_dvd hcount hsub) (by omega)
    · intro hlong
      simp only [Bool.or_false, decide_eq_false_iff_not] at hlong
      refine ⟨?_, by simp only [List.length_drop]; omega⟩
      have hsplit : len - (finRest.drop kBufferSize).length =
          len - finRest.length + kBufferSize := by
        rw [List.length_drop]
        omega
      rw [hsplit]
      exact Nat.dvd_add hdvd (dvd_refl _)

/-- The start of a pass. It brings the next byte, or sees the end of the file, or after a file
that fills its buffers goes on with a byte from before. -/
theorem refill_cases (h : Pending kBufferSize len p rest) (hpos : 0 < kBufferSize) :
    (rest = [] ∧ ¬kBufferSize ∣ len ∧ p.refill kBufferSize = none) ∨
    (rest = [] ∧ kBufferSize ∣ len ∧ ∃ p' c, p.refill kBufferSize = some p' ∧
      p'.parser = p.parser ∧ p'.ioBuffer[p'.curBufIdx]? = some c ∧
      ¬p'.curBufIdx < p'.endBufIdx) ∨
    ∃ c rest' p', rest = c :: rest' ∧ p.refill kBufferSize = some p' ∧ p'.parser = p.parser ∧
      p'.ioBuffer[p'.curBufIdx]? = some c ∧ p'.curBufIdx < p'.endBufIdx ∧
      ∀ parser, Pending kBufferSize len
        { p' with parser := parser, curBufIdx := p'.curBufIdx + 1 } rest' := by
  rcases h.cur_le.lt_or_eq with hlt | heq
  · obtain ⟨c, rest', hrest, hc, hnext⟩ := h.next hlt
    exact Or.inr (Or.inr ⟨c, rest', p, hrest, by simp [FileParser.refill, hlt.ne], rfl, hc, hlt,
      hnext⟩)
  by_cases hnil : rest = []
  · have hfin : p.fin.rest = [] := (List.append_eq_nil_iff.1 (h.rest_eq.symm.trans hnil)).2
    cases hfailed : p.failed with
    | true =>
      refine Or.inl ⟨hnil, (h.failed hfailed).2, ?_⟩
      simp [FileParser.refill, FileParser.readFromFileStream, heq, hfailed]
    | false =>
      have hdvd : kBufferSize ∣ len := by simpa [hfin] using (h.reading hfailed).1
      have hlen : 0 < p.ioBuffer.length := by rw [h.length_eq]; exact hpos
      refine Or.inr (Or.inl ⟨hnil, hdvd, ?_⟩)
      simp [FileParser.refill, FileParser.readFromFileStream, heq, hfailed, FileStream.read,
        h.good, hfin, hlen]
  · cases hfailed : p.failed with
    | true =>
      refine absurd ?_ hnil
      rw [h.rest_eq, heq, List.drop_eq_nil_of_le (List.length_take_le _ _),
        (h.failed hfailed).1, List.nil_append]
    | false =>
      obtain ⟨p', hp', hparser, hlt, hpending⟩ := h.read heq hfailed hnil hpos
      obtain ⟨c, rest', hrest, hc, hnext⟩ := hpending.next hlt
      exact Or.inr (Or.inr ⟨c, rest', p', hrest, hp', hparser, hc, hlt, hnext⟩)

end Pending

/-! ## The loop on a file -/

section Loop

variable {kBufferSize kMaxMsgLength len : ℕ}

theorem parseFileStream_of_stopped {p : FileParser} (h : p.parser.Stopped) (fuel : ℕ) :
    p.parseFileStream kBufferSize kMaxMsgLength (fuel + 1) =
      some ⟨decide (p.parser.state = .done), p.parser, []⟩ := by
  rcases h with h | h <;> simp [FileParser.parseFileStream, h]

theorem parseFileStream_of_refill_none {p : FileParser} (h : ¬p.parser.Stopped)
    (hrefill : p.refill kBufferSize = none) (fuel : ℕ) :
    p.parseFileStream kBufferSize kMaxMsgLength (fuel + 1) = some ⟨false, p.parser, []⟩ := by
  obtain ⟨herr, hdone⟩ := not_or.1 h
  simp [FileParser.parseFileStream, herr, hdone, hrefill]

theorem parseFileStream_of_refill {p p' : FileParser} {c : UInt8} (h : ¬p.parser.Stopped)
    (hrefill : p.refill kBufferSize = some p') (hc : p'.ioBuffer[p'.curBufIdx]? = some c)
    (fuel : ℕ) :
    p.parseFileStream kBufferSize kMaxMsgLength (fuel + 1) =
      (FileParser.parseFileStream kBufferSize kMaxMsgLength fuel { p' with
        parser := p'.parser.parseByte kMaxMsgLength c
        curBufIdx := p'.curBufIdx + 1 }).map fun run =>
          { run with calls := ⟨p'.curBufIdx, p'.endBufIdx, c⟩ :: run.calls } := by
  obtain ⟨herr, hdone⟩ := not_or.1 h
  simp [FileParser.parseFileStream, herr, hdone, hrefill, hc]

/-- If the bytes left bring an answer, or the file does not fill its buffers, the loop parses
them one by one. -/
theorem parseFileStream_bytewise (hpos : 0 < kBufferSize) :
    ∀ (rest : Str) (p : FileParser), Pending kBufferSize len p rest →
      (kBufferSize ∣ len → (p.parser.parseUntil kMaxMsgLength rest).Stopped) →
      ∃ calls : List ParsedByte, calls.map ParsedByte.byte <+: rest ∧
        (∀ call ∈ calls, call.index < call.endBufIdx) ∧
        ∀ fuel, rest.length < fuel →
          p.parseFileStream kBufferSize kMaxMsgLength fuel =
            some ⟨decide ((p.parser.parseUntil kMaxMsgLength rest).state = .done),
              p.parser.parseUntil kMaxMsgLength rest, calls⟩ := by
  intro rest
  induction rest with
  | nil =>
    intro p hp hstops
    refine ⟨[], List.nil_prefix, by simp, fun fuel hfuel => ?_⟩
    obtain ⟨fuel, rfl⟩ := Nat.exists_eq_succ_of_ne_zero (Nat.ne_of_gt hfuel)
    rw [HttpParser.parseUntil]
    by_cases hs : p.parser.Stopped
    · exact parseFileStream_of_stopped hs fuel
    · rcases hp.refill_cases hpos with ⟨-, -, hnone⟩ | ⟨-, hdvd, -⟩ | ⟨c, rest', p', hcons, -⟩
      · rw [parseFileStream_of_refill_none hs hnone, decide_eq_false (not_or.1 hs).2]
      · exact absurd (hstops hdvd) hs
      · exact absurd hcons (by simp)
  | cons c rest ih =>
    intro p hp hstops
    by_cases hs : p.parser.Stopped
    · refine ⟨[], List.nil_prefix, by simp, fun fuel hfuel => ?_⟩
      obtain ⟨fuel, rfl⟩ := Nat.exists_eq_succ_of_ne_zero (Nat.ne_zero_of_lt hfuel)
      rw [HttpParser.parseUntil_of_stopped hs]
      exact parseFileStream_of_stopped hs fuel
    · rcases hp.refill_cases hpos with ⟨hnil, -⟩ | ⟨hnil, -⟩ | ⟨c', rest', p', hcons, hp', hparser,
        hc, hlt, hnext⟩
      · exact absurd hnil (by simp)
      · exact absurd hnil (by simp)
      · obtain ⟨rfl, rfl⟩ := List.cons.inj hcons
        rw [HttpParser.parseUntil_cons hs] at hstops ⊢
        obtain ⟨calls, hbytes, hindex, hrun⟩ := ih _
          (hnext (p'.parser.parseByte kMaxMsgLength c)) (by rw [hparser]; exact hstops)
        refine ⟨⟨p'.curBufIdx, p'.endBufIdx, c⟩ :: calls, ?_, ?_, fun fuel hfuel => ?_⟩
        · rw [List.map_cons, List.cons_prefix_cons]
          exact ⟨rfl, hbytes⟩
        · rintro call (_ | ⟨_, hcall⟩)
          · exact hlt
          · exact hindex call hcall
        · obtain ⟨fuel, rfl⟩ := Nat.exists_eq_succ_of_ne_zero (Nat.ne_zero_of_lt hfuel)
          rw [parseFileStream_of_refill hs hp' hc, hrun fuel (Nat.lt_of_succ_lt_succ hfuel),
            hparser]
          rfl

/-- If the bytes left bring no answer and the file fills its buffers, the loop calls `ParseByte`
past the bytes of the last read. -/
theorem parseFileStream_past_end (hpos : 0 < kBufferSize) (hdvd : kBufferSize ∣ len) :
    ∀ (rest : Str) (p : FileParser), Pending kBufferSize len p rest →
      ¬(p.parser.parseUntil kMaxMsgLength rest).Stopped → ∀ fuel run,
      p.parseFileStream kBufferSize kMaxMsgLength fuel = some run →
      ∃ call ∈ run.calls, ¬call.index < call.endBufIdx := by
  intro rest
  induction rest with
  | nil =>
    intro p hp hs fuel run hrun
    cases fuel with
    | zero => simp [FileParser.parseFileStream] at hrun
    | succ fuel =>
      rcases hp.refill_cases hpos with ⟨-, hnot, -⟩ | ⟨-, -, p', c, hp', -, hc, hpast⟩ | ⟨_, _, _,
        hcons, -⟩
      · exact absurd hdvd hnot
      · rw [parseFileStream_of_refill hs hp' hc] at hrun
        obtain ⟨run', -, rfl⟩ := Option.map_eq_some_iff.1 hrun
        exact ⟨_, List.mem_cons_self, hpast⟩
      · exact absurd hcons (by simp)
  | cons c rest ih =>
    intro p hp hs fuel run hrun
    have hgoing : ¬p.parser.Stopped :=
      fun hstop => hs (by rwa [HttpParser.parseUntil_of_stopped hstop])
    rw [HttpParser.parseUntil_cons hgoing] at hs
    cases fuel with
    | zero => simp [FileParser.parseFileStream] at hrun
    | succ fuel =>
      rcases hp.refill_cases hpos with ⟨hnil, -⟩ | ⟨hnil, -⟩ | ⟨c', rest', p', hcons, hp', hparser,
        hc, -, hnext⟩
      · exact absurd hnil (by simp)
      · exact absurd hnil (by simp)
      · obtain ⟨rfl, rfl⟩ := List.cons.inj hcons
        rw [parseFileStream_of_refill hgoing hp' hc] at hrun
        obtain ⟨run', hrun', rfl⟩ := Option.map_eq_some_iff.1 hrun
        obtain ⟨call, hcall, hpast⟩ := ih _ (hnext (p'.parser.parseByte kMaxMsgLength c))
          (by rw [hparser]; exact hs) fuel run' hrun'
        exact ⟨call, List.mem_cons_of_mem _ hcall, hpast⟩

end Loop

/-- `ParseFileStream` parses the bytes of the file one by one exactly when they bring an answer,
or do not fill the last buffer they are read into. -/
theorem parsesBytewise_iff (kBufferSize kMaxMsgLength : ℕ) (hpos : 1 ≤ kBufferSize)
    (content : Str) :
    ParsesBytewise kBufferSize kMaxMsgLength content ↔
      (HttpParser.fresh.parseUntil kMaxMsgLength content).Stopped ∨
        ¬kBufferSize ∣ content.length := by
  have hp : Pending kBufferSize content.length (.ofFile kBufferSize content) content :=
    Pending.ofFile content
  constructor
  · rintro ⟨N, hall⟩
    by_contra hn
    obtain ⟨hs, hdvd⟩ := not_or.1 hn
    obtain ⟨run, hrun, -, -, -, hindex⟩ := hall N le_rfl
    obtain ⟨call, hcall, hpast⟩ :=
      parseFileStream_past_end hpos (not_not.1 hdvd) content _ hp hs N run hrun
    exact hpast (hindex call hcall)
  · intro h
    have hstopped : kBufferSize ∣ content.length →
        ((FileParser.ofFile kBufferSize content).parser.parseUntil kMaxMsgLength content).Stopped :=
      fun hdvd => h.resolve_right (not_not.2 hdvd)
    obtain ⟨calls, hbytes, hindex, hrun⟩ := parseFileStream_bytewise hpos content _ hp hstopped
    refine ⟨content.length + 1, fun fuel hfuel => ⟨_, hrun fuel hfuel, ?_, rfl, hbytes, hindex⟩⟩
    exact decide_eq_true_iff

/-- A request of three full buffers. -/
theorem parsesBytewise_iff_request :
    let content := lit "GET / HTTP/1.1\r\n\r\n"
    6 ∣ content.length ∧ ParsesBytewise 6 4096 content := by
  intro content
  have hdone : (HttpParser.fresh.parseUntil 4096 content).Stopped := by decide
  exact ⟨by decide, (parsesBytewise_iff 6 4096 (by decide) content).2 (Or.inl hdone)⟩

/-- The file `GET` and a buffer of three bytes : after the file `ParseByte` goes on. -/
theorem not_parsesBytewise_full_buffer : ¬ParsesBytewise 3 4096 (lit "GET") := by
  rintro ⟨N, hall⟩
  obtain ⟨run, hrun, -, -, -, hindex⟩ := hall N le_rfl
  obtain ⟨call, hcall, hpast⟩ := parseFileStream_past_end (by decide) (by decide) (lit "GET") _
    (Pending.ofFile (lit "GET")) (by decide) N run hrun
  exact hpast (hindex call hcall)

end Azugate
