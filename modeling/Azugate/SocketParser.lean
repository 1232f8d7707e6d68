import Azugate.FileParser

/-!
# The byte parser over a socket

`HttpParser::ParseSocketStream` is the loop of `ParseFileStream` with `recv` in place of the
stream. `ReadFromSocket` looks only at the sign of what `recv` returns : `end_buf_idx_` is
`kBufferSize` from the constructor on. After a `recv` that does not fill the buffer, `ParseByte`
goes on with the bytes the buffer has from before.

`parsesReceived_iff` says for which sequences of `recv` the loop parses the bytes received, one by
one : those where the parser has an answer by the end of every `recv` that is shorter than the
buffer.
-/

namespace Azugate

/-! ## The loop -/

/-- The members of `HttpParser` that a socket is read with. -/
structure SocketParser where
  parser : HttpParser
  /-- `kBufferSize` bytes. -/
  ioBuffer : Str
  curBufIdx : ℕ
  endBufIdx : ℕ
  /-- The bytes each `recv` to come brings. None stands for an end of the stream or an error. -/
  recvs : List Str
  /-- `len` of the last `ReadFromSocket`, which nothing reads. -/
  len : ℕ

/-- A call of `ParseByte` : the index it reads at, how many bytes the last `recv` has brought,
and the byte. -/
structure SocketCall where
  index : ℕ
  len : ℕ
  byte : UInt8
  deriving DecidableEq, Repr

/-- How `ParseSocketStream` ends : its return value, the parser, and the calls of `ParseByte`. -/
structure SocketParse where
  ret : Bool
  parser : HttpParser
  calls : List SocketCall
  deriving DecidableEq, Repr

namespace SocketParser

variable (kBufferSize kMaxMsgLength : ℕ)

/-- The constructor, on a socket. -/
def ofSocket (recvs : List Str) : SocketParser :=
  ⟨.fresh, List.replicate kBufferSize 0, kBufferSize, kBufferSize, recvs, 0⟩

/-- `ReadFromSocket`, with `none` for its `return false`. The bytes are written to the front of
the buffer, and `end_buf_idx_` stays as it is. -/
def readFromSocket (p : SocketParser) : Option SocketParser :=
  match p.recvs with
  | [] => none
  | bytes :: recvs =>
    if 0 < bytes.length then
      some { p with
        ioBuffer := bytes ++ p.ioBuffer.drop bytes.length
        recvs := recvs
        len := bytes.length }
    else none

/-- The start of a pass : a `recv` if the buffer is used up. -/
def refill (p : SocketParser) : Option SocketParser :=
  if p.curBufIdx = p.endBufIdx then p.readFromSocket.map fun p => { p with curBufIdx := 0 }
  else some p

/-- `ParseSocketStream`. There is no result if it reads past the end of `io_buffer_`, and none
without enough fuel. -/
def parseSocketStream : ℕ → SocketParser → Option SocketParse
  | 0, _ => none
  | fuel + 1, p =>
    if p.parser.state = .err then some ⟨false, p.parser, []⟩
    else if p.parser.state = .done then some ⟨true, p.parser, []⟩
    else
      match p.refill with
      | none => some ⟨false, p.parser, []⟩
      | some p =>
        match p.ioBuffer[p.curBufIdx]? with
        | none => none
        | some curChar =>
          (parseSocketStream fuel { p with
            parser := p.parser.parseByte kMaxMsgLength curChar
            curBufIdx := p.curBufIdx + 1 }).map fun run =>
              { run with calls := ⟨p.curBufIdx, p.len, curChar⟩ :: run.calls }

end SocketParser

/-! ## The bytes received -/

/-- The segments received before the first `recv` that brings nothing. -/
def receivedSegments (recvs : List Str) : List Str :=
  recvs.takeWhile fun bytes => !bytes.isEmpty

namespace HttpParser

variable (kMaxMsgLength : ℕ)

/-- The bytes `parseUntil` calls `ParseByte` on. -/
def parsedBytes : HttpParser → Str → Str
  | _, [] => []
  | p, c :: bytes =>
    if p.Stopped then [] else c :: parsedBytes (p.parseByte kMaxMsgLength c) bytes

variable {kMaxMsgLength}

theorem parsedBytes_of_stopped {p : HttpParser} (h : p.Stopped) (bytes : Str) :
    p.parsedBytes kMaxMsgLength bytes = [] := by
  cases bytes with
  | nil => rfl
  | cons c bytes => rw [parsedBytes, if_pos h]

theorem parsedBytes_cons {p : HttpParser} (h : ¬p.Stopped) (c : UInt8) (bytes : Str) :
    p.parsedBytes kMaxMsgLength (c :: bytes) =
      c :: (p.parseByte kMaxMsgLength c).parsedBytes kMaxMsgLength bytes := by
  rw [parsedBytes, if_neg h]

theorem parseUntil_append (p : HttpParser) (bytes bytes' : Str) :
    p.parseUntil kMaxMsgLength (bytes ++ bytes') =
      (p.parseUntil kMaxMsgLength bytes).parseUntil kMaxMsgLength bytes' := by
  induction bytes generalizing p with
  | nil => rfl
  | cons c bytes ih =>
    by_cases h : p.Stopped
    · rw [parseUntil_of_stopped h, parseUntil_of_stopped h, parseUntil_of_stopped h]
    · rw [List.cons_append, parseUntil_cons h, parseUntil_cons h, ih]

theorem parsedBytes_append (p : HttpParser) (bytes bytes' : Str) :
    p.parsedBytes kMaxMsgLength (bytes ++ bytes') = p.parsedBytes kMaxMsgLength bytes ++
      (p.parseUntil kMaxMsgLength bytes).parsedBytes kMaxMsgLength bytes' := by
  induction bytes generalizing p with
  | nil => rfl
  | cons c bytes ih =>
    by_cases h : p.Stopped
    · rw [parseUntil_of_stopped h, parsedBytes_of_stopped h, parsedBytes_of_stopped h,
        parsedBytes_of_stopped h, List.nil_append]
    · rw [List.cons_append, parsedBytes_cons h, parsedBytes_cons h, parseUntil_cons h, ih,
        List.cons_append]

/-- A parser without an answer has parsed all the bytes. -/
theorem parsedBytes_of_not_stopped {p : HttpParser} {bytes : Str}
    (h : ¬(p.parseUntil kMaxMsgLength bytes).Stopped) :
    p.parsedBytes kMaxMsgLength bytes = bytes := by
  induction bytes generalizing p with
  | nil => rfl
  | cons c bytes ih =>
    have hgoing : ¬p.Stopped := fun hs => h (by rwa [parseUntil_of_stopped hs])
    rw [parseUntil_cons hgoing] at h
    rw [parsedBytes_cons hgoing, ih h]

end HttpParser

/-- `ParseSocketStream` ends. It calls `ParseByte` on the bytes received, each once and in order,
at indexes below the number of bytes of the last `recv`, until there is an answer or no more
bytes, and it gives the return value and the request these bytes one by one give. -/
def ParsesReceived (kBufferSize kMaxMsgLength : ℕ) (recvs : List Str) : Prop :=
  let received := (receivedSegments recvs).flatten
  ∃ N, ∀ fuel, N ≤ fuel → ∃ run,
    SocketParser.parseSocketStream kMaxMsgLength fuel (.ofSocket kBufferSize recvs) = some run ∧
      run.calls.map SocketCall.byte = HttpParser.fresh.parsedBytes kMaxMsgLength received ∧
      (∀ call ∈ run.calls, call.index < call.len) ∧
      (run.ret = true ↔ (HttpParser.fresh.parseUntil kMaxMsgLength received).state = .done) ∧
      run.parser.request = (HttpParser.fresh.parseUntil kMaxMsgLength received).request

/-! ## The loop on a segment -/

section Loop

variable {kBufferSize kMaxMsgLength : ℕ}

theorem parseSocketStream_of_stopped {p : SocketParser} (h : p.parser.Stopped) (fuel : ℕ) :
    p.parseSocketStream kMaxMsgLength (fuel + 1) =
      some ⟨decide (p.parser.state = .done), p.parser, []⟩ := by
  rcases h with h | h <;> simp [SocketParser.parseSocketStream, h]

theorem parseSocketStream_of_refill_none {p : SocketParser} (h : ¬p.parser.Stopped)
    (hrefill : p.refill = none) (fuel : ℕ) :
    p.parseSocketStream kMaxMsgLength (fuel + 1) = some ⟨false, p.parser, []⟩ := by
  obtain ⟨herr, hdone⟩ := not_or.1 h
  simp [SocketParser.parseSocketStream, herr, hdone, hrefill]

/-- The run, with calls of `ParseByte` before it. -/
def SocketParse.after (calls : List SocketCall) (run : SocketParse) : SocketParse :=
  { run with calls := calls ++ run.calls }

theorem SocketParse.after_nil : SocketParse.after [] = id :=
  rfl

theorem parseSocketStream_of_refill {p p' : SocketParser} {c : UInt8} (h : ¬p.parser.Stopped)
    (hrefill : p.refill = some p') (hc : p'.ioBuffer[p'.curBufIdx]? = some c) (fuel : ℕ) :
    p.parseSocketStream kMaxMsgLength (fuel + 1) =
      (SocketParser.parseSocketStream kMaxMsgLength fuel { p' with
        parser := p'.parser.parseByte kMaxMsgLength c
        curBufIdx := p'.curBufIdx + 1 }).map (.after [⟨p'.curBufIdx, p'.len, c⟩]) := by
  obtain ⟨herr, hdone⟩ := not_or.1 h
  simp [SocketParser.parseSocketStream, herr, hdone, hrefill, hc]
  rfl

/-- The loop parses bytes of the last `recv` that the buffer still has, up to an answer. -/
theorem parseSocketStream_segment (w : Str) :
    ∀ (p : SocketParser) (stale : Str), p.ioBuffer.drop p.curBufIdx = w ++ stale →
      p.curBufIdx + w.length ≤ p.endBufIdx → p.curBufIdx + w.length ≤ p.len →
      ∃ calls : List SocketCall, calls.map SocketCall.byte = p.parser.parsedBytes kMaxMsgLength w ∧
        (∀ call ∈ calls, call.index < call.len) ∧
        ∀ fuel, p.parseSocketStream kMaxMsgLength (fuel + calls.length) =
          (SocketParser.parseSocketStream kMaxMsgLength fuel { p with
            parser := p.parser.parseUntil kMaxMsgLength w
            curBufIdx := p.curBufIdx + calls.length }).map (.after calls) := by
  induction w with
  | nil =>
    intro p stale _ _ _
    exact ⟨[], rfl, by simp, fun fuel => by rw [SocketParse.after_nil, Option.map_id]; rfl⟩
  | cons c w ih =>
    intro p stale hbuffer hend hlen
    by_cases hs : p.parser.Stopped
    · refine ⟨[], by rw [HttpParser.parsedBytes_of_stopped hs]; rfl, by simp, fun fuel => ?_⟩
      rw [SocketParse.after_nil, Option.map_id, HttpParser.parseUntil_of_stopped hs]
      rfl
    · rw [List.length_cons] at hend hlen
      have hrefill : p.refill = some p := if_neg (by omega)
      have hc : p.ioBuffer[p.curBufIdx]? = some c := by
        rw [← List.head?_drop, hbuffer]
        rfl
      have hrest : p.ioBuffer.drop (p.curBufIdx + 1) = w ++ stale := by
        rw [← List.tail_drop, hbuffer]
        rfl
      obtain ⟨calls, hbytes, hindex, hrun⟩ := ih { p with
        parser := p.parser.parseByte kMaxMsgLength c
        curBufIdx := p.curBufIdx + 1 } stale hrest (by simp only; omega) (by simp only; omega)
      refine ⟨⟨p.curBufIdx, p.len, c⟩ :: calls, ?_, ?_, fun fuel => ?_⟩
      · rw [List.map_cons, hbytes, HttpParser.parsedBytes_cons hs]
      · rintro call (_ | ⟨_, hcall⟩)
        · show p.curBufIdx < p.len
          omega
        · exact hindex call hcall
      · rw [List.length_cons, ← Nat.add_assoc, parseSocketStream_of_refill hs hrefill hc, hrun fuel,
          HttpParser.parseUntil_cons hs, Option.map_map]
        simp only [Nat.add_assoc, Nat.add_comm 1]
        rfl

/-- The buffer is used up, and the next `recv` brings `recvs`. -/
structure UsedUp (kBufferSize : ℕ) (p : SocketParser) (parser : HttpParser) (recvs : List Str) :
    Prop where
  parser_eq : p.parser = parser
  length_eq : p.ioBuffer.length = kBufferSize
  cur_eq : p.curBufIdx = kBufferSize
  end_eq : p.endBufIdx = kBufferSize
  recvs_eq : p.recvs = recvs

theorem UsedUp.ofSocket (recvs : List Str) :
    UsedUp kBufferSize (.ofSocket kBufferSize recvs) .fresh recvs where
  parser_eq := rfl
  length_eq := List.length_replicate
  cur_eq := rfl
  end_eq := rfl
  recvs_eq := rfl

/-- The parser after a `recv` that brings bytes. -/
def SocketParser.filled (p : SocketParser) (bytes : Str) (recvs : List Str) : SocketParser :=
  { p with
    ioBuffer := bytes ++ p.ioBuffer.drop bytes.length
    curBufIdx := 0
    recvs := recvs
    len := bytes.length }

theorem UsedUp.refill_cons {p : SocketParser} {parser : HttpParser} {bytes : Str}
    {recvs : List Str} (hp : UsedUp kBufferSize p parser (bytes :: recvs)) (hne : bytes ≠ []) :
    p.refill = some (p.filled bytes recvs) := by
  rw [SocketParser.refill, if_pos (hp.cur_eq.trans hp.end_eq.symm), SocketParser.readFromSocket,
    hp.recvs_eq]
  simp only [List.length_pos_iff.2 hne, if_true, Option.map_some]
  rfl

/-- A `recv` that brings nothing. -/
theorem UsedUp.refill_none {p : SocketParser} {parser : HttpParser} {recvs : List Str}
    (hp : UsedUp kBufferSize p parser recvs) (hnone : receivedSegments recvs = []) :
    p.refill = none := by
  rw [SocketParser.refill, if_pos (hp.cur_eq.trans hp.end_eq.symm), SocketParser.readFromSocket,
    hp.recvs_eq]
  cases recvs with
  | nil => rfl
  | cons bytes recvs =>
    cases bytes with
    | nil => rfl
    | cons c bytes => simp [receivedSegments] at hnone

/-- A `recv` that brings bytes, and the loop over them. -/
theorem UsedUp.recv (kMaxMsgLength : ℕ) {p : SocketParser} {parser : HttpParser} {bytes : Str}
    {recvs : List Str}
    (hp : UsedUp kBufferSize p parser (bytes :: recvs)) (hne : bytes ≠ [])
    (hlen : bytes.length ≤ kBufferSize) (hs : ¬parser.Stopped) :
    ∃ calls : List SocketCall,
      calls.map SocketCall.byte = parser.parsedBytes kMaxMsgLength bytes ∧
      (∀ call ∈ calls, call.index < call.len) ∧
      ∀ fuel, p.parseSocketStream kMaxMsgLength (fuel + 1 + calls.length) =
        (SocketParser.parseSocketStream kMaxMsgLength (fuel + 1) { p.filled bytes recvs with
          parser := parser.parseUntil kMaxMsgLength bytes
          curBufIdx := calls.length }).map (.after calls) := by
  obtain rfl := hp.parser_eq
  have hpos := List.length_pos_iff.2 hne
  obtain ⟨calls, hbytes, hindex, hrun⟩ := parseSocketStream_segment bytes (p.filled bytes recvs)
    (p.ioBuffer.drop bytes.length) rfl (by simp only [SocketParser.filled, hp.end_eq]; omega)
    (by simp only [SocketParser.filled]; omega)
  have hfilled : (p.filled bytes recvs).refill = some (p.filled bytes recvs) :=
    if_neg (by simp only [SocketParser.filled, hp.end_eq]; omega)
  refine ⟨calls, hbytes, hindex, fun fuel => ?_⟩
  have hsame : p.parseSocketStream kMaxMsgLength (fuel + 1 + calls.length) =
      (p.filled bytes recvs).parseSocketStream kMaxMsgLength (fuel + 1 + calls.length) := by
    rw [Nat.add_right_comm, SocketParser.parseSocketStream, SocketParser.parseSocketStream,
      hp.refill_cons hne, hfilled]
    rfl
  rw [hsame, hrun (fuel + 1)]
  simp only [SocketParser.filled, Nat.zero_add]

/-- The condition on the segments to come : by the end of one that does not fill the buffer the
parser has an answer. -/
def AnswersShort (kBufferSize kMaxMsgLength : ℕ) (parser : HttpParser) (segments : List Str) :
    Prop :=
  ∀ before bytes after, segments = before ++ bytes :: after → bytes.length < kBufferSize →
    (parser.parseUntil kMaxMsgLength (before ++ [bytes]).flatten).Stopped

theorem AnswersShort.tail {parser : HttpParser} {bytes : Str} {segments : List Str}
    (h : AnswersShort kBufferSize kMaxMsgLength parser (bytes :: segments)) :
    AnswersShort kBufferSize kMaxMsgLength (parser.parseUntil kMaxMsgLength bytes) segments := by
  intro before bytes' after heq hshort
  have hstop := h (bytes :: before) bytes' after (by rw [heq]; rfl) hshort
  rw [List.cons_append, List.flatten_cons, HttpParser.parseUntil_append] at hstop
  exact hstop

/-- The loop ends where the parser has an answer, or where `recv` brings nothing. -/
theorem UsedUp.ends (kMaxMsgLength : ℕ) {p : SocketParser} {parser : HttpParser}
    {recvs : List Str}
    (hp : UsedUp kBufferSize p parser recvs)
    (hend : parser.Stopped ∨ receivedSegments recvs = []) :
    parser.parsedBytes kMaxMsgLength (receivedSegments recvs).flatten = [] ∧
      ∀ fuel, 1 ≤ fuel → p.parseSocketStream kMaxMsgLength fuel =
        some ⟨decide ((parser.parseUntil kMaxMsgLength
            (receivedSegments recvs).flatten).state = .done),
          parser.parseUntil kMaxMsgLength (receivedSegments recvs).flatten, []⟩ := by
  obtain rfl := hp.parser_eq
  by_cases hs : p.parser.Stopped
  · refine ⟨HttpParser.parsedBytes_of_stopped hs _, fun fuel hfuel => ?_⟩
    obtain ⟨fuel, rfl⟩ := Nat.exists_eq_add_of_le' hfuel
    rw [HttpParser.parseUntil_of_stopped hs, parseSocketStream_of_stopped hs]
  · have hnone := hend.resolve_left hs
    rw [hnone]
    refine ⟨rfl, fun fuel hfuel => ?_⟩
    obtain ⟨fuel, rfl⟩ := Nat.exists_eq_add_of_le' hfuel
    rw [parseSocketStream_of_refill_none hs (hp.refill_none hnone), List.flatten_nil,
      HttpParser.parseUntil, decide_eq_false (not_or.1 hs).2]

/-- Once the buffer is used up by bytes that brought no answer, the next `recv` is due. -/
theorem UsedUp.next {p : SocketParser} {parser : HttpParser} {bytes : Str} {recvs : List Str}
    (hp : UsedUp kBufferSize p parser (bytes :: recvs)) (hfull : bytes.length = kBufferSize) :
    UsedUp kBufferSize { p.filled bytes recvs with
      parser := parser.parseUntil kMaxMsgLength bytes
      curBufIdx := bytes.length } (parser.parseUntil kMaxMsgLength bytes) recvs where
  parser_eq := rfl
  length_eq := by simp [SocketParser.filled, hp.length_eq, hfull]
  cur_eq := hfull
  end_eq := hp.end_eq
  recvs_eq := rfl

theorem receivedSegments_cons {bytes : Str} (hne : bytes ≠ []) (recvs : List Str) :
    receivedSegments (bytes :: recvs) = bytes :: receivedSegments recvs := by
  simp [receivedSegments, hne]

theorem receivedSegments_eq_cons {recvs segments : List Str} {bytes : Str}
    (h : receivedSegments recvs = bytes :: segments) :
    bytes ≠ [] ∧ ∃ recvs', recvs = bytes :: recvs' ∧ receivedSegments recvs' = segments := by
  cases recvs with
  | nil => cases h
  | cons first recvs =>
    have hne : first ≠ [] := by
      rintro rfl
      cases h
    rw [receivedSegments_cons hne] at h
    obtain ⟨rfl, rfl⟩ := List.cons.inj h
    exact ⟨hne, recvs, rfl, rfl⟩

/-- Where every short segment brings an answer, the loop parses the bytes received one by one. -/
theorem parseSocketStream_received :
    ∀ (recvs : List Str) (p : SocketParser) (parser : HttpParser),
      UsedUp kBufferSize p parser recvs → (∀ bytes ∈ recvs, bytes.length ≤ kBufferSize) →
      AnswersShort kBufferSize kMaxMsgLength parser (receivedSegments recvs) →
      ∃ (calls : List SocketCall) (N : ℕ),
        calls.map SocketCall.byte =
          parser.parsedBytes kMaxMsgLength (receivedSegments recvs).flatten ∧
        (∀ call ∈ calls, call.index < call.len) ∧
        ∀ fuel, N ≤ fuel → p.parseSocketStream kMaxMsgLength fuel =
          some ⟨decide ((parser.parseUntil kMaxMsgLength
              (receivedSegments recvs).flatten).state = .done),
            parser.parseUntil kMaxMsgLength (receivedSegments recvs).flatten, calls⟩ := by
  intro recvs
  induction recvs with
  | nil =>
    intro p parser hp _ _
    obtain ⟨hnone, hrun⟩ := hp.ends kMaxMsgLength (Or.inr rfl)
    exact ⟨[], 1, hnone.symm, by simp, hrun⟩
  | cons bytes recvs ih =>
    intro p parser hp hlen hanswers
    by_cases hend : parser.Stopped ∨ receivedSegments (bytes :: recvs) = []
    · obtain ⟨hnone, hrun⟩ := hp.ends kMaxMsgLength hend
      exact ⟨[], 1, hnone.symm, by simp, hrun⟩
    obtain ⟨hs, hsome⟩ := not_or.1 hend
    have hne : bytes ≠ [] := by
      rintro rfl
      exact hsome rfl
    rw [receivedSegments_cons hne] at hanswers ⊢
    rw [List.flatten_cons, HttpParser.parseUntil_append, HttpParser.parsedBytes_append]
    obtain ⟨calls, hbytes, hindex, hrun⟩ := hp.recv kMaxMsgLength hne
      (hlen bytes List.mem_cons_self) hs
    by_cases hstop : (parser.parseUntil kMaxMsgLength bytes).Stopped
    · -- the answer comes within the segment
      rw [HttpParser.parseUntil_of_stopped hstop, HttpParser.parsedBytes_of_stopped hstop,
        List.append_nil]
      refine ⟨calls, 1 + calls.length, hbytes, hindex, fun fuel hfuel => ?_⟩
      obtain ⟨fuel, rfl⟩ := Nat.exists_eq_add_of_le' hfuel
      rw [← Nat.add_assoc, hrun fuel, parseSocketStream_of_stopped hstop, Option.map_some,
        SocketParse.after, List.append_nil]
    · have hfull : bytes.length = kBufferSize := by
        have hle := hlen bytes List.mem_cons_self
        by_contra hshort
        refine hstop ?_
        simpa using hanswers [] bytes (receivedSegments recvs) rfl (by omega)
      have hcount : calls.length = bytes.length := by
        rw [← HttpParser.parsedBytes_of_not_stopped hstop, ← hbytes, List.length_map]
      rw [hcount] at hrun
      obtain ⟨calls', N, hbytes', hindex', hrun'⟩ := ih _ _ (hp.next hfull)
        (fun b hb => hlen b (List.mem_cons_of_mem _ hb)) hanswers.tail
      refine ⟨calls ++ calls', N + 1 + bytes.length, ?_, ?_, fun fuel hfuel => ?_⟩
      · rw [List.map_append, hbytes, hbytes']
      · intro call hcall
        exact (List.mem_append.1 hcall).elim (hindex call) (hindex' call)
      · obtain ⟨more, rfl⟩ := Nat.exists_eq_add_of_le hfuel
        have hfuel_eq : N + 1 + bytes.length + more = N + more + 1 + bytes.length := by omega
        rw [hfuel_eq, hrun, hrun' (N + more + 1) (by omega)]
        rfl

/-- The run over a segment that brings no answer calls `ParseByte` on all of it. -/
theorem UsedUp.recv_all {p : SocketParser} {parser : HttpParser} {bytes : Str}
    {recvs : List Str} (hp : UsedUp kBufferSize p parser (bytes :: recvs)) (hne : bytes ≠ [])
    (hlen : bytes.length ≤ kBufferSize)
    (hgoing : ¬(parser.parseUntil kMaxMsgLength bytes).Stopped) :
    ∃ calls : List SocketCall,
      ∀ fuel, p.parseSocketStream kMaxMsgLength (fuel + 1 + bytes.length) =
        (SocketParser.parseSocketStream kMaxMsgLength (fuel + 1) { p.filled bytes recvs with
          parser := parser.parseUntil kMaxMsgLength bytes
          curBufIdx := bytes.length }).map (.after calls) := by
  have hs : ¬parser.Stopped := by
    intro hs
    exact hgoing (by rwa [HttpParser.parseUntil_of_stopped hs])
  obtain ⟨calls, hbytes, -, hrun⟩ := hp.recv kMaxMsgLength hne hlen hs
  have hcount : calls.length = bytes.length := by
    rw [← HttpParser.parsedBytes_of_not_stopped hgoing, ← hbytes, List.length_map]
  rw [hcount] at hrun
  exact ⟨calls, hrun⟩

/-- After a short segment that brings no answer, `ParseByte` is called past the bytes received. -/
theorem UsedUp.stale {p : SocketParser} {parser : HttpParser} {bytes : Str} {recvs : List Str}
    (hp : UsedUp kBufferSize p parser (bytes :: recvs)) (hne : bytes ≠ [])
    (hshort : bytes.length < kBufferSize)
    (hgoing : ¬(parser.parseUntil kMaxMsgLength bytes).Stopped) (fuel : ℕ) (run : SocketParse)
    (hrun : p.parseSocketStream kMaxMsgLength (fuel + (1 + bytes.length)) = some run) :
    ∃ call ∈ run.calls, ¬call.index < call.len := by
  obtain ⟨calls, hsegment⟩ := hp.recv_all hne hshort.le hgoing
  obtain ⟨c, hc⟩ : ∃ c, (bytes ++ p.ioBuffer.drop bytes.length)[bytes.length]? = some c := by
    refine ⟨_, List.getElem?_eq_getElem ?_⟩
    rw [List.length_append, List.length_drop, hp.length_eq]
    omega
  -- the bytes are used up and the buffer is not, so there is no `recv` before the next call
  rw [← Nat.add_assoc, hsegment, parseSocketStream_of_refill hgoing
    (if_neg (by simp only [SocketParser.filled, hp.end_eq]; omega)) hc, Option.map_map] at hrun
  obtain ⟨rest, -, rfl⟩ := Option.map_eq_some_iff.1 hrun
  exact ⟨⟨bytes.length, bytes.length, c⟩, by simp [SocketParse.after, SocketParser.filled],
    Nat.lt_irrefl _⟩

theorem parseSocketStream_stale :
    ∀ (before : List Str) (bytes : Str) (after recvs : List Str) (p : SocketParser)
      (parser : HttpParser), UsedUp kBufferSize p parser recvs →
      receivedSegments recvs = before ++ bytes :: after →
      (∀ bytes ∈ recvs, bytes.length ≤ kBufferSize) → bytes.length < kBufferSize →
      ¬(parser.parseUntil kMaxMsgLength (before ++ [bytes]).flatten).Stopped →
      ∃ K, ∀ fuel run, p.parseSocketStream kMaxMsgLength (fuel + K) = some run →
        ∃ call ∈ run.calls, ¬call.index < call.len := by
  intro before
  induction before with
  | nil =>
    intro bytes after recvs p parser hp hsegments _ hshort hstop
    obtain ⟨hne, recvs, rfl, -⟩ := receivedSegments_eq_cons hsegments
    rw [List.nil_append, List.flatten_singleton] at hstop
    exact ⟨1 + bytes.length, hp.stale hne hshort hstop⟩
  | cons first before ih =>
    intro bytes after recvs p parser hp hsegments hlen hshort hstop
    obtain ⟨hne, recvs, rfl, htail⟩ := receivedSegments_eq_cons hsegments
    rw [List.cons_append, List.flatten_cons, HttpParser.parseUntil_append] at hstop
    have hgoing : ¬(parser.parseUntil kMaxMsgLength first).Stopped := by
      intro hs
      exact hstop (by rwa [HttpParser.parseUntil_of_stopped hs])
    rcases (hlen first List.mem_cons_self).lt_or_eq with hfirst | hfull
    · exact ⟨1 + first.length, hp.stale hne hfirst hgoing⟩
    · obtain ⟨calls, hsegment⟩ := hp.recv_all hne hfull.le hgoing
      obtain ⟨K, hK⟩ := ih bytes after recvs _ _ (hp.next hfull) htail
        (fun b hb => hlen b (List.mem_cons_of_mem _ hb)) hshort hstop
      refine ⟨K + 1 + first.length, fun fuel run hrun => ?_⟩
      rw [← Nat.add_assoc, ← Nat.add_assoc, hsegment, Nat.add_assoc, Nat.add_comm K 1,
        ← Nat.add_assoc] at hrun
      obtain ⟨rest, hrest, rfl⟩ := Option.map_eq_some_iff.1 hrun
      obtain ⟨call, hcall, hpast⟩ := hK (fuel + 1) rest hrest
      exact ⟨call, List.mem_append_right _ hcall, hpast⟩

end Loop

/-- `ParseSocketStream` parses the bytes received one by one exactly when by the end of every
`recv` that does not fill the buffer the parser has an answer. -/
theorem parsesReceived_iff (kBufferSize kMaxMsgLength : ℕ) (recvs : List Str)
    (hrecvs : ∀ bytes ∈ recvs, bytes.length ≤ kBufferSize) :
    ParsesReceived kBufferSize kMaxMsgLength recvs ↔
      ∀ before bytes after, receivedSegments recvs = before ++ bytes :: after →
        bytes.length < kBufferSize →
        (HttpParser.fresh.parseUntil kMaxMsgLength (before ++ [bytes]).flatten).Stopped := by
  have hp : UsedUp kBufferSize (.ofSocket kBufferSize recvs) .fresh recvs := UsedUp.ofSocket recvs
  constructor
  · rintro ⟨N, hall⟩ before bytes after hsegments hshort
    by_contra hstop
    obtain ⟨K, hK⟩ := parseSocketStream_stale before bytes after recvs _ _ hp hsegments hrecvs
      hshort hstop
    obtain ⟨run, hrun, -, hindex, -⟩ := hall (N + K) (Nat.le_add_right N K)
    obtain ⟨call, hcall, hpast⟩ := hK N run hrun
    exact hpast (hindex call hcall)
  · intro hanswers
    obtain ⟨calls, N, hbytes, hindex, hrun⟩ :=
      parseSocketStream_received recvs _ _ hp hrecvs hanswers
    exact ⟨N, fun fuel hfuel => ⟨_, hrun fuel hfuel, hbytes, hindex, decide_eq_true_iff, rfl⟩⟩

/-- A request of three full buffers. -/
theorem parsesReceived_iff_request :
    ParsesReceived 6 4096 [lit "GET / ", lit "HTTP/1", lit ".1\r\n\r\n"] := by
  refine (parsesReceived_iff 6 4096 _ (by decide)).2 fun before bytes after hsegments hshort => ?_
  have hfull : ∀ b ∈ receivedSegments [lit "GET / ", lit "HTTP/1", lit ".1\r\n\r\n"],
      ¬b.length < 6 := by decide
  exact absurd hshort (hfull bytes (by simp [hsegments]))

/-- A request in two segments is complete, but between them the loop parses the zeros the buffer
is constructed with. -/
theorem not_parsesReceived_two_segments :
    let recvs := [lit "GET / HTTP/1.1\r\nhost: a\r\n", lit "\r\n"]
    (HttpParser.fresh.parseUntil 4096 (receivedSegments recvs).flatten).state = .done ∧
      ¬ParsesReceived 512 4096 recvs := by
  intro recvs
  refine ⟨by decide +kernel, ?_⟩
  have hp : UsedUp 512 (.ofSocket 512 recvs) .fresh recvs := UsedUp.ofSocket recvs
  have hgoing : ¬(HttpParser.fresh.parseUntil 4096
      ([] ++ [lit "GET / HTTP/1.1\r\nhost: a\r\n"]).flatten).Stopped := by decide +kernel
  rintro ⟨N, hall⟩
  obtain ⟨K, hK⟩ := parseSocketStream_stale [] _ [lit "\r\n"] recvs _ _ hp (by decide) (by decide)
    (by decide) hgoing
  obtain ⟨run, hrun, -, hindex, -⟩ := hall (N + K) (Nat.le_add_right N K)
  obtain ⟨call, hcall, hpast⟩ := hK N run hrun
  exact hpast (hindex call hcall)

end Azugate
