import Azugate.Machine
import Azugate.Pico

/-!
# Reading a request's header

`HttpProxyHandler` reads into `header_buf` and parses all it has after each read, until the
parser has an answer or the buffer is full. `headerReads` is that loop as a machine driven by
the bytes the reads deliver.

How the client's bytes fall into reads is not the handler's choice. `verdict_exec` says that
it does not matter : for every split the loop comes to the verdict the parser gives on the
first `kMaxHttpHeaderSize` bytes of the stream (`streamVerdict`). `Progress` is the invariant
of the loop. It ties the members of the handler to the bytes read so far.
-/

namespace Azugate

/-- `kMaxHttpHeaderSize`. -/
def kMaxHttpHeaderSize : ℕ := 1024 * 8

/-- What a read of the client's socket completes with. -/
inductive ReadResult where
  | data (bytes : Str)
  | eof
  | error
  deriving DecidableEq, Repr

/-! ## The handler's loop -/

/-- What the handler is doing. -/
inductive Phase where
  /-- A read into `header_buf + offset`, for at most `size` bytes, is under way. -/
  | reading (offset size : ℕ)
  /-- The header is parsed, and `extra_body_len_` bytes after it are in the buffer. -/
  | parsed (extraBodyLen : ℕ)
  /-- `async_accpet_cb_` was called in place of going on. -/
  | finished
  deriving DecidableEq, Repr

/-- The members of `HttpProxyHandler` that reading a header uses, with `headerBuf` the part of
`header_buf` that was written. -/
structure HttpProxyHandler where
  headerBuf : Str
  totalParsed : ℕ
  request : PhrRequest
  phase : Phase
  deriving DecidableEq, Repr

namespace HttpProxyHandler

/-- `parseRequest`. -/
def parseRequest (h : HttpProxyHandler) : HttpProxyHandler :=
  if kMaxHttpHeaderSize ≤ h.totalParsed then { h with phase := .finished }
  else { h with phase := .reading h.totalParsed (kMaxHttpHeaderSize - h.totalParsed) }

/-- The constructor, and `Start`. -/
def start : HttpProxyHandler :=
  parseRequest ⟨[], 0, Pico.unparsed 0, .finished⟩

end HttpProxyHandler

/-- `valid_request` of `onRead`. -/
def PhrRequest.isValid (r : PhrRequest) : Bool :=
  !(r.method.getD []).isEmpty && !(r.path.getD []).isEmpty && r.headers.length ≤ kMaxHeadersNum

/-- The parser found a request `onRead` goes on with. -/
def PhrRequest.isAccepted (r : PhrRequest) : Bool :=
  0 < r.pret && r.isValid

namespace HttpProxyHandler

variable (P : PhrParser)

/-- `onRead`, up to its call of `extractMetadata`. -/
def onRead (h : HttpProxyHandler) : ReadResult → HttpProxyHandler
  | .data bytes =>
    let headerBuf := h.headerBuf.take h.totalParsed ++ bytes
    let totalParsed := h.totalParsed + bytes.length
    let request := P.parse (headerBuf.take totalParsed)
    if request.isAccepted then
      ⟨headerBuf, request.pret.toNat, request, .parsed (totalParsed - request.pret.toNat)⟩
    else if request.pret = -2 then
      parseRequest ⟨headerBuf, totalParsed, request, h.phase⟩
    else ⟨headerBuf, totalParsed, request, .finished⟩
  | .eof => { h with phase := .finished }
  | .error => { h with phase := .finished }

/-- The `extra_body_len_` bytes at `header_buf + total_parsed_`. -/
def extraBody (h : HttpProxyHandler) : Str :=
  match h.phase with
  | .parsed extraBodyLen => (h.headerBuf.drop h.totalParsed).take extraBodyLen
  | _ => []

end HttpProxyHandler

/-- The loop, driven by the bytes of the reads. Once it is over nothing more is read. -/
def headerReads (P : PhrParser) : Machine HttpProxyHandler Str where
  init := .start
  step h bytes :=
    match h.phase with
    | .reading _ _ => h.onRead P (.data bytes)
    | _ => h

/-- In this phase a read can deliver `n` bytes : at least one, and no more than it has room
for. -/
def Phase.Delivers : Phase → ℕ → Prop
  | .reading _ size, n => 1 ≤ n ∧ n ≤ size
  | _, _ => True

instance : ∀ (phase : Phase) (n : ℕ), Decidable (phase.Delivers n)
  | .reading _ size, n => inferInstanceAs (Decidable (1 ≤ n ∧ n ≤ size))
  | .parsed _, _ => isTrue trivial
  | .finished, _ => isTrue trivial

/-- The next read can deliver `bytes`. -/
def Delivers (h : HttpProxyHandler) (bytes : Str) : Prop :=
  h.phase.Delivers bytes.length

instance (h : HttpProxyHandler) (bytes : Str) : Decidable (Delivers h bytes) :=
  inferInstanceAs (Decidable (h.phase.Delivers bytes.length))

/-- A way in which the reads can deliver a stream. -/
structure IsSplit (P : PhrParser) (stream : Str) (cs : List Str) : Prop where
  flatten_eq : cs.flatten = stream
  delivers : (headerReads P).Along Delivers cs

/-! ## The verdict -/

/-- What the loop has come to. -/
inductive Verdict where
  | waiting
  | accepted (totalParsed : ℕ) (method path : Option Str) (headers : List Header)
  | rejected
  deriving DecidableEq, Repr

def HttpProxyHandler.verdict (h : HttpProxyHandler) : Verdict :=
  match h.phase with
  | .reading _ _ => .waiting
  | .parsed _ => .accepted h.totalParsed h.request.method h.request.path h.request.headers
  | .finished => .rejected

/-- The verdict on a stream, however it is delivered. -/
def streamVerdict (P : PhrParser) (stream : Str) : Verdict :=
  let buf := stream.take kMaxHttpHeaderSize
  let r := P.parse buf
  if stream = [] then .waiting
  else if r.isAccepted then .accepted r.pret.toNat r.method r.path r.headers
  else if r.pret = -2 ∧ buf.length < kMaxHttpHeaderSize then .waiting
  else .rejected

/-! ## The invariant -/

/-- How the handler stands to the bytes it has read. -/
def Progress (P : PhrParser) (h : HttpProxyHandler) : Prop :=
  match h.phase with
  | .reading offset size =>
    h.totalParsed = h.headerBuf.length ∧ offset = h.headerBuf.length ∧
      h.headerBuf.length < kMaxHttpHeaderSize ∧ size = kMaxHttpHeaderSize - offset ∧
      (h.headerBuf = [] ∨ (P.parse h.headerBuf).pret = -2)
  | .parsed extraBodyLen =>
    h.request = P.parse h.headerBuf ∧ h.request.isAccepted ∧
      h.totalParsed = h.request.pret.toNat ∧
      h.totalParsed + extraBodyLen = h.headerBuf.length ∧
      h.headerBuf.length ≤ kMaxHttpHeaderSize
  | .finished =>
    h.headerBuf ≠ [] ∧ h.totalParsed = h.headerBuf.length ∧
      h.headerBuf.length ≤ kMaxHttpHeaderSize ∧ (P.parse h.headerBuf).isAccepted = false ∧
      ((P.parse h.headerBuf).pret = -2 → h.headerBuf.length = kMaxHttpHeaderSize)

variable {P : PhrParser}

theorem PhrRequest.pret_pos {r : PhrRequest} (h : r.isAccepted) : 0 < r.pret := by
  simp only [PhrRequest.isAccepted, Bool.and_eq_true, decide_eq_true_eq] at h
  exact h.1

/-- One read that brings a whole header and the bytes after it. -/
theorem exec_one_read {hdr : Str} (hacc : (P.parse hdr).isAccepted) (rest : Str) :
    (headerReads P).exec [hdr ++ rest] = ⟨hdr ++ rest, (P.parse hdr).pret.toNat, P.parse hdr,
      .parsed ((hdr ++ rest).length - (P.parse hdr).pret.toNat)⟩ := by
  have hpos := PhrRequest.pret_pos hacc
  have hparse : P.parse (hdr ++ rest) = P.parse hdr := P.parse_append (by omega) rest
  have hstart : HttpProxyHandler.start = ⟨[], 0, Pico.unparsed 0, .reading 0 kMaxHttpHeaderSize⟩ :=
    rfl
  show HttpProxyHandler.onRead P .start (.data (hdr ++ rest)) = _
  rw [hstart]
  simp only [HttpProxyHandler.onRead, List.take_nil, List.nil_append, Nat.zero_add,
    List.take_length, hparse, if_pos hacc]

theorem progress_start : Progress P .start := by
  refine ⟨rfl, rfl, ?_, rfl, Or.inl rfl⟩
  decide

/-- A read appends to the buffer and keeps the invariant. -/
theorem progress_onRead {h : HttpProxyHandler} {offset size : ℕ} {bytes : Str}
    (hp : Progress P h) (hr : h.phase = .reading offset size) (h1 : 1 ≤ bytes.length)
    (h2 : bytes.length ≤ size) :
    (h.onRead P (.data bytes)).headerBuf = h.headerBuf ++ bytes ∧
      Progress P (h.onRead P (.data bytes)) := by
  unfold Progress at hp
  rw [hr] at hp
  obtain ⟨htotal, rfl, hlt, rfl, -⟩ := hp
  have hbuf : h.headerBuf.take h.totalParsed ++ bytes = h.headerBuf ++ bytes := by
    rw [htotal, List.take_length]
  have hlen : h.totalParsed + bytes.length = (h.headerBuf ++ bytes).length := by
    rw [htotal, List.length_append]
  have hle : (h.headerBuf ++ bytes).length ≤ kMaxHttpHeaderSize := by
    rw [List.length_append]
    omega
  have hne : h.headerBuf ++ bytes ≠ [] := by
    intro hnil
    have := (List.append_eq_nil_iff.1 hnil).2
    simp [this] at h1
  simp only [HttpProxyHandler.onRead, hbuf, hlen, List.take_length]
  generalize h.headerBuf ++ bytes = buf at hle hne
  split_ifs with hacc hmore
  · have hpos := PhrRequest.pret_pos hacc
    have hpret := P.pret_le buf
    exact ⟨rfl, rfl, hacc, rfl, by simp only; omega, hle⟩
  · unfold HttpProxyHandler.parseRequest
    split_ifs with hfull
    · exact ⟨rfl, hne, rfl, hle, Bool.eq_false_iff.2 hacc, fun _ => hle.antisymm hfull⟩
    · exact ⟨rfl, rfl, rfl, not_le.1 hfull, rfl, Or.inr hmore⟩
  · exact ⟨rfl, hne, rfl, hle, Bool.eq_false_iff.2 hacc, fun h => absurd h hmore⟩

/-- The reads `cs` went into the buffer in order, up to where the loop ended. -/
def Consumed (P : PhrParser) (cs : List Str) (h : HttpProxyHandler) : Prop :=
  ∃ pre post, cs = pre ++ post ∧ (headerReads P).exec pre = h ∧ pre.flatten = h.headerBuf ∧
    ∀ offset size, h.phase = .reading offset size → post = []

theorem consumed_stop {cs : List Str} {h : HttpProxyHandler} (hc : Consumed P cs h)
    (hr : ∀ offset size, h.phase ≠ .reading offset size) (c : Str) : Consumed P (cs ++ [c]) h := by
  obtain ⟨pre, post, rfl, hpre, hbuf, -⟩ := hc
  exact ⟨pre, post ++ [c], by simp, hpre, hbuf, fun offset size h => absurd h (hr offset size)⟩

theorem headerReads_step_of_not_reading {h : HttpProxyHandler}
    (hr : ∀ offset size, h.phase ≠ .reading offset size) (c : Str) :
    (headerReads P).step h c = h := by
  cases hp : h.phase with
  | reading offset size => exact absurd hp (hr offset size)
  | parsed extraBodyLen => simp only [headerReads, hp]
  | finished => simp only [headerReads, hp]

/-- The invariant holds after every run. -/
theorem progress_exec {cs : List Str} (h : (headerReads P).Along Delivers cs) :
    Progress P ((headerReads P).exec cs) ∧ Consumed P cs ((headerReads P).exec cs) := by
  refine Machine.Along.invariant (fun cs h => Progress P h ∧ Consumed P cs h) ?_ ?_ cs h
  · exact ⟨progress_start, [], [], rfl, rfl, rfl, fun _ _ _ => rfl⟩
  · intro cs c _ hd ⟨hp, hc⟩
    generalize (headerReads P).exec cs = h at hd hp hc
    by_cases hr : ∃ offset size, h.phase = .reading offset size
    · obtain ⟨offset, size, hr⟩ := hr
      have hstep : (headerReads P).step h c = h.onRead P (.data c) := by
        simp only [headerReads, hr]
      rw [Delivers, hr] at hd
      obtain ⟨hbuf, hp'⟩ := progress_onRead hp hr hd.1 hd.2
      obtain ⟨pre, post, rfl, rfl, hpre, hpost⟩ := hc
      obtain rfl := hpost offset size hr
      rw [hstep]
      refine ⟨hp', pre ++ [c], [], by simp, by rw [Machine.exec_snoc, hstep], ?_, fun _ _ _ => rfl⟩
      rw [hbuf, List.flatten_append, hpre, List.flatten_singleton]
    · have hnot : ∀ offset size, h.phase ≠ .reading offset size :=
        fun offset size heq => hr ⟨offset, size, heq⟩
      rw [headerReads_step_of_not_reading hnot]
      exact ⟨hp, consumed_stop hc hnot c⟩

/-! ## The verdict does not depend on the reads -/

/-- The bytes read are the first of the stream. -/
theorem IsSplit.take_eq {stream : Str} {cs : List Str} (hs : IsSplit P stream cs)
    {h : HttpProxyHandler} (hc : Consumed P cs h) (hle : h.headerBuf.length ≤ kMaxHttpHeaderSize) :
    ∃ rest, stream.take kMaxHttpHeaderSize = h.headerBuf ++ rest := by
  obtain ⟨pre, post, rfl, -, hbuf, -⟩ := hc
  refine ⟨post.flatten.take (kMaxHttpHeaderSize - h.headerBuf.length), ?_⟩
  rw [← hs.flatten_eq, List.flatten_append, hbuf, List.take_append,
    List.take_of_length_le hle]

/-- An answer of the parser on the first bytes of a stream is the verdict on the stream. -/
theorem streamVerdict_of_answer {stream buf rest : Str} (hne : buf ≠ [])
    (htake : stream.take kMaxHttpHeaderSize = buf ++ rest) (h : (P.parse buf).pret ≠ -2) :
    streamVerdict P stream =
      if (P.parse buf).isAccepted then
        .accepted (P.parse buf).pret.toNat (P.parse buf).method (P.parse buf).path
          (P.parse buf).headers
      else .rejected := by
  have hstream : stream ≠ [] := by
    rintro rfl
    exact hne (List.append_eq_nil_iff.1 htake.symm).1
  simp only [streamVerdict, htake, P.parse_append h rest, if_neg hstream, h, false_and, if_false]

theorem verdict_exec {stream : Str} {cs : List Str} (hs : IsSplit P stream cs) :
    ((headerReads P).exec cs).verdict = streamVerdict P stream := by
  obtain ⟨hp, hc⟩ := progress_exec hs.delivers
  generalize (headerReads P).exec cs = h at hp hc
  unfold Progress at hp
  unfold HttpProxyHandler.verdict
  cases hr : h.phase with
  | reading offset size =>
    rw [hr] at hp
    obtain ⟨-, -, hlt, -, hparse⟩ := hp
    obtain ⟨pre, post, rfl, -, hbuf, hpost⟩ := hc
    have hstream : stream = h.headerBuf := by
      rw [← hs.flatten_eq, hpost offset size hr, List.append_nil, hbuf]
    rw [hstream, streamVerdict, List.take_of_length_le hlt.le]
    rcases hparse with hnil | hmore
    · simp [hnil]
    · have hacc : (P.parse h.headerBuf).isAccepted = false := by
        simp [PhrRequest.isAccepted, hmore]
      simp [hacc, hmore, hlt]
  | parsed extraBodyLen =>
    rw [hr] at hp
    obtain ⟨hreq, hacc, htotal, hlen, hle⟩ := hp
    obtain ⟨rest, hrest⟩ := hs.take_eq hc hle
    have hpos := PhrRequest.pret_pos hacc
    have hne : h.headerBuf ≠ [] := List.ne_nil_of_length_pos (by omega)
    rw [htotal, streamVerdict_of_answer hne hrest (by rw [← hreq]; omega), ← hreq, if_pos hacc]
  | finished =>
    rw [hr] at hp
    obtain ⟨hne, -, hle, hacc, hfull⟩ := hp
    obtain ⟨rest, hrest⟩ := hs.take_eq hc hle
    by_cases hmore : (P.parse h.headerBuf).pret = -2
    · have hlen := hfull hmore
      have htake : stream.take kMaxHttpHeaderSize = h.headerBuf := by
        have hsum := congrArg List.length hrest
        rw [List.length_append, hlen] at hsum
        have hle := List.length_take_le kMaxHttpHeaderSize stream
        have hnil : rest = [] := List.eq_nil_of_length_eq_zero (by omega)
        rw [hrest, hnil, List.append_nil]
      have hstream : stream ≠ [] := by
        rintro rfl
        exact hne htake.symm
      simp [streamVerdict, htake, hstream, hacc, hlen]
    · rw [streamVerdict_of_answer hne hrest hmore, hacc]
      rfl

/-! ## The whole header phase -/

/-- Nothing is read or parsed past the end of `header_buf`, and a read that is under way has
room in it. -/
def InsideBuffer (h : HttpProxyHandler) : Prop :=
  h.totalParsed ≤ kMaxHttpHeaderSize ∧ h.headerBuf.length ≤ kMaxHttpHeaderSize ∧
    ∀ offset size, h.phase = .reading offset size → 0 < size ∧ offset + size ≤ kMaxHttpHeaderSize

theorem Progress.insideBuffer {h : HttpProxyHandler} (hp : Progress P h) : InsideBuffer h := by
  unfold Progress at hp
  cases hr : h.phase with
  | reading offset size =>
    rw [hr] at hp
    obtain ⟨htotal, rfl, hlt, rfl, -⟩ := hp
    refine ⟨by omega, hlt.le, fun offset size h => ?_⟩
    obtain ⟨rfl, rfl⟩ := Phase.reading.inj (hr.symm.trans h)
    omega
  | parsed extraBodyLen =>
    rw [hr] at hp
    obtain ⟨-, -, -, hlen, hle⟩ := hp
    exact ⟨by omega, hle, by simp [hr]⟩
  | finished =>
    rw [hr] at hp
    obtain ⟨-, htotal, hle, -, -⟩ := hp
    exact ⟨by omega, hle, by simp [hr]⟩

/-- The bytes left over are the rest of the buffer. -/
theorem Progress.extraBody_eq {h : HttpProxyHandler} (hp : Progress P h) {extraBodyLen : ℕ}
    (hr : h.phase = .parsed extraBodyLen) :
    h.extraBody = h.headerBuf.drop h.totalParsed ∧
      h.totalParsed + extraBodyLen = h.headerBuf.length := by
  unfold Progress at hp
  rw [hr] at hp
  obtain ⟨-, -, -, hlen, -⟩ := hp
  refine ⟨?_, hlen⟩
  simp only [HttpProxyHandler.extraBody, hr]
  exact List.take_of_length_le (by rw [List.length_drop]; omega)

/-- What follows the header in the stream : the bytes left over in the buffer, then those no
read has delivered yet. -/
theorem IsSplit.drop_eq {stream : Str} {cs : List Str} (hs : IsSplit P stream cs)
    {extraBodyLen : ℕ} (hr : ((headerReads P).exec cs).phase = .parsed extraBodyLen) :
    ((headerReads P).exec cs).extraBody.length = extraBodyLen ∧
      ∃ pre post, cs = pre ++ post ∧ (headerReads P).exec pre = (headerReads P).exec cs ∧
        stream.drop ((headerReads P).exec cs).totalParsed =
          ((headerReads P).exec cs).extraBody ++ post.flatten := by
  obtain ⟨hp, pre, post, hcs, hpre, hbuf, -⟩ := progress_exec hs.delivers
  generalize (headerReads P).exec cs = h at hp hr hpre hbuf
  obtain ⟨hextra, hlen⟩ := hp.extraBody_eq hr
  refine ⟨by rw [hextra, List.length_drop]; omega, pre, post, hcs, hpre, ?_⟩
  rw [← hs.flatten_eq, hcs, List.flatten_append, hbuf, hextra, List.drop_append_of_le_length]
  omega

/-- Any two splits of a stream come to one verdict. No read leaves `header_buf`, and the bytes
left over after an accepted header are those that follow it in the stream. -/
theorem header_phase_of_split (P : PhrParser) (stream : Str) (cs ds : List Str)
    (hcs : IsSplit P stream cs) (hds : IsSplit P stream ds) :
    ((headerReads P).exec cs).verdict = ((headerReads P).exec ds).verdict ∧
      (∀ pre, pre <+: cs → InsideBuffer ((headerReads P).exec pre)) ∧
      ∀ extraBodyLen, ((headerReads P).exec cs).phase = .parsed extraBodyLen →
        ((headerReads P).exec cs).extraBody.length = extraBodyLen ∧
          ∃ pre post, cs = pre ++ post ∧ (headerReads P).exec pre = (headerReads P).exec cs ∧
            stream.drop ((headerReads P).exec cs).totalParsed =
              ((headerReads P).exec cs).extraBody ++ post.flatten := by
  refine ⟨(verdict_exec hcs).trans (verdict_exec hds).symm, ?_, fun _ => hcs.drop_eq⟩
  rintro pre ⟨post, rfl⟩
  exact (progress_exec hcs.delivers.of_append).1.insideBuffer

/-- A header with two bytes of body after it, split within the empty line and not at all. -/
theorem header_phase_of_split_two_reads :
    let stream := lit "GET / HTTP/1.1\r\nHost: a\r\n\r\nxy"
    let cs := [lit "GET / HTTP/1.1\r\nHost: a\r\n\r", lit "\nxy"]
    IsSplit pico stream cs ∧ IsSplit pico stream [stream] ∧
      ((headerReads pico).exec cs).verdict =
        .accepted 27 (some (lit "GET")) (some (lit "/")) [.ofStrings "Host" "a"] ∧
      ((headerReads pico).exec cs).verdict = ((headerReads pico).exec [stream]).verdict := by
  have hcs : IsSplit pico (lit "GET / HTTP/1.1\r\nHost: a\r\n\r\nxy")
      [lit "GET / HTTP/1.1\r\nHost: a\r\n\r", lit "\nxy"] :=
    ⟨by decide, by decide +kernel⟩
  have hds : IsSplit pico (lit "GET / HTTP/1.1\r\nHost: a\r\n\r\nxy")
      [lit "GET / HTTP/1.1\r\nHost: a\r\n\r\nxy"] :=
    ⟨by decide, by decide +kernel⟩
  exact ⟨hcs, hds, by decide +kernel, (header_phase_of_split pico _ _ _ hcs hds).1⟩

end Azugate
