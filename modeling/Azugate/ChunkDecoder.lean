import Azugate.Bytes
import Azugate.Chunked

/-!
# The chunked decoder of picohttpparser

`phr_decode_chunked` removes the chunked coding from a buffer, in place. Between calls a
`phr_chunked_decoder` holds where in the coding the bytes ended, so that a body can be decoded as it
arrives. One call runs the phases of the coding over blocks of the buffer (`decodeLoop`).

`feed` is the same decoder taken byte by byte, and `decodeLoop_eq` says that a call is the run of
`feed` over its bytes. So it does not matter for the coding how a body falls into calls
(`run_append`).

What does depend on the calls is the guard at their end : a call that has come to no end fails if
the coding has taken up `100` KiB and more than three quarters of all the bytes so far.
Where it does not stop them, two ways to cut a body into pieces give the same
(`decodeReads_of_pieces`).
-/

namespace Azugate

namespace Pico

/-! ## The decoder -/

/-- `_state` : the constants `CHUNKED_IN_…`. -/
inductive ChunkState where
  | inChunkSize
  | inChunkExt
  | inChunkData
  | inChunkCrlf
  | inTrailersLineHead
  | inTrailersLineMiddle
  deriving DecidableEq, Repr

/-- `phr_chunked_decoder`. -/
structure ChunkedDecoder where
  bytesLeftInChunk : ℕ
  consumeTrailer : Bool
  hexCount : ℕ
  state : ChunkState
  totalRead : ℕ
  totalOverhead : ℕ
  deriving DecidableEq, Repr

/-- A decoder that is zero but for `consume_trailer`. -/
def ChunkedDecoder.zero (consumeTrailer : Bool) : ChunkedDecoder :=
  ⟨0, consumeTrailer, 0, .inChunkSize, 0, 0⟩

/-- `decode_hex`, with `none` for `-1`. -/
def decodeHex (c : UInt8) : Option ℕ :=
  if 48 ≤ c && c ≤ 57 then some (c.toNat - 48)
  else if 65 ≤ c && c ≤ 70 then some (c.toNat - 65 + 10)
  else if 97 ≤ c && c ≤ 102 then some (c.toNat - 97 + 10)
  else none

/-- The characters that may follow a chunk size. -/
def endsChunkSize (c : UInt8) : Bool :=
  c == space || c == 9 || c == 59 || c == lf || c == cr

/-- How a call leaves its loop. -/
inductive ChunkExit where
  | incomplete
  | error
  | complete
  deriving DecidableEq, Repr

/-- What a part of a call leaves : how it ended, the decoder, the decoded bytes that are at the
start of the buffer now, and the bytes from `src` on. -/
structure Decoded where
  exit : ChunkExit
  decoder : ChunkedDecoder
  out : Str
  rest : Str
  deriving DecidableEq, Repr

/-- One `case` of the `switch` : it leaves the loop, or goes on with the state it has set. A `case`
that falls through sets the state of the next before, so the two ways of going on are one. -/
inductive ChunkPass where
  | exit (d : Decoded)
  | next (decoder : ChunkedDecoder) (out rest : Str)
  deriving DecidableEq, Repr

namespace ChunkedDecoder

/-- `CHUNKED_IN_CHUNK_SIZE`. -/
def inChunkSize : ChunkedDecoder → Str → ChunkPass
  | d, [] => .exit ⟨.incomplete, d, [], []⟩
  | d, c :: buf =>
    match decodeHex c with
    | none =>
      if d.hexCount = 0 then .exit ⟨.error, d, [], c :: buf⟩
      else if endsChunkSize c then
        .next { d with hexCount := 0, state := .inChunkExt } [] (c :: buf)
      else .exit ⟨.error, d, [], c :: buf⟩
    | some v =>
      if d.hexCount = 16 then .exit ⟨.error, d, [], c :: buf⟩
      else
        inChunkSize
          { d with
            bytesLeftInChunk := (d.bytesLeftInChunk * 16 + v) % sizeMod
            hexCount := d.hexCount + 1 } buf

/-- The end of the line of a chunk size. -/
def endOfSizeLine (d : ChunkedDecoder) : Option ChunkedDecoder :=
  if d.bytesLeftInChunk = 0 then
    if d.consumeTrailer then some { d with state := .inTrailersLineHead } else none
  else some { d with state := .inChunkData }

/-- `CHUNKED_IN_CHUNK_EXT`. -/
def inChunkExt : ChunkedDecoder → Str → ChunkPass
  | d, [] => .exit ⟨.incomplete, d, [], []⟩
  | d, c :: buf =>
    if c = lf then
      match d.endOfSizeLine with
      | some d' => .next d' [] buf
      | none => .exit ⟨.complete, d, [], buf⟩
    else inChunkExt d buf

/-- `CHUNKED_IN_CHUNK_DATA`. -/
def inChunkData (d : ChunkedDecoder) (buf : Str) : ChunkPass :=
  if buf.length < d.bytesLeftInChunk then
    .exit ⟨.incomplete, { d with bytesLeftInChunk := d.bytesLeftInChunk - buf.length }, buf, []⟩
  else
    .next { d with bytesLeftInChunk := 0, state := .inChunkCrlf } (buf.take d.bytesLeftInChunk)
      (buf.drop d.bytesLeftInChunk)

/-- `CHUNKED_IN_CHUNK_CRLF`. -/
def inChunkCrlf : ChunkedDecoder → Str → ChunkPass
  | d, [] => .exit ⟨.incomplete, d, [], []⟩
  | d, c :: buf =>
    if c = cr then inChunkCrlf d buf
    else if c ≠ lf then .exit ⟨.error, d, [], c :: buf⟩
    else .next { d with state := .inChunkSize } [] buf

/-- `CHUNKED_IN_TRAILERS_LINE_HEAD`. -/
def inTrailersLineHead : ChunkedDecoder → Str → ChunkPass
  | d, [] => .exit ⟨.incomplete, d, [], []⟩
  | d, c :: buf =>
    if c = cr then inTrailersLineHead d buf
    else if c = lf then .exit ⟨.complete, d, [], buf⟩
    else .next { d with state := .inTrailersLineMiddle } [] buf

/-- `CHUNKED_IN_TRAILERS_LINE_MIDDLE`. -/
def inTrailersLineMiddle : ChunkedDecoder → Str → ChunkPass
  | d, [] => .exit ⟨.incomplete, d, [], []⟩
  | d, c :: buf =>
    if c = lf then .next { d with state := .inTrailersLineHead } [] buf
    else inTrailersLineMiddle d buf

/-- The `switch`. -/
def pass (d : ChunkedDecoder) (buf : Str) : ChunkPass :=
  match d.state with
  | .inChunkSize => d.inChunkSize buf
  | .inChunkExt => d.inChunkExt buf
  | .inChunkData => d.inChunkData buf
  | .inChunkCrlf => d.inChunkCrlf buf
  | .inTrailersLineHead => d.inTrailersLineHead buf
  | .inTrailersLineMiddle => d.inTrailersLineMiddle buf

/-- The `while` loop. -/
def decodeLoop : ℕ → ChunkedDecoder → Str → Option Decoded
  | 0, _, _ => none
  | fuel + 1, d, buf =>
    match d.pass buf with
    | .exit r => some r
    | .next d' out rest =>
      (decodeLoop fuel d' rest).map fun r => { r with out := out ++ r.out }

/-- The coding takes up `100` KiB and more than three quarters of what was read. -/
def overheadExceeded (d : ChunkedDecoder) : Bool :=
  100 * 1024 ≤ d.totalOverhead &&
    (d.totalRead + sizeMod - d.totalOverhead) % sizeMod < d.totalRead / 4

end ChunkedDecoder

/-- The result of `phr_decode_chunked` : its value, the decoder, and the two parts of the buffer. -/
structure PhrDecoded where
  ret : ℤ
  decoder : ChunkedDecoder
  out : Str
  rest : Str
  deriving DecidableEq, Repr

/-- The end of `phr_decode_chunked`, after the loop over a buffer of `bufsz` bytes. -/
def afterDecodeLoop (bufsz : ℕ) (r : Decoded) : PhrDecoded :=
  match r.exit with
  | .complete => ⟨r.rest.length, r.decoder, r.out, r.rest⟩
  | .error => ⟨-1, r.decoder, r.out, r.rest⟩
  | .incomplete =>
    let d := { r.decoder with
      totalOverhead := (r.decoder.totalOverhead + (bufsz - r.out.length)) % sizeMod }
    ⟨if d.overheadExceeded then -1 else -2, d, r.out, r.rest⟩

/-- `phr_decode_chunked`. -/
def phrDecodeChunked (d : ChunkedDecoder) (buf : Str) : Option PhrDecoded :=
  let d := { d with totalRead := (d.totalRead + buf.length) % sizeMod }
  (d.decodeLoop (2 * buf.length + 2) buf).map (afterDecodeLoop buf.length)

/-! ## Byte by byte -/

/-- What a byte does to the decoder. -/
inductive Fed where
  | more (decoder : ChunkedDecoder) (out : Str)
  | error
  | complete (decoder : ChunkedDecoder)
  deriving DecidableEq, Repr

namespace ChunkedDecoder

/-- A byte behind a chunk size. -/
def feedExt (d : ChunkedDecoder) (c : UInt8) : Fed :=
  if c = lf then
    match d.endOfSizeLine with
    | some d' => .more d' []
    | none => .complete d
  else .more d []

/-- The decoder after one byte. -/
def feed (d : ChunkedDecoder) (c : UInt8) : Fed :=
  match d.state with
  | .inChunkSize =>
    match decodeHex c with
    | none =>
      if d.hexCount ≠ 0 ∧ endsChunkSize c then
        feedExt { d with hexCount := 0, state := .inChunkExt } c
      else .error
    | some v =>
      if d.hexCount = 16 then .error
      else
        .more { d with
          bytesLeftInChunk := (d.bytesLeftInChunk * 16 + v) % sizeMod
          hexCount := d.hexCount + 1 } []
  | .inChunkExt => d.feedExt c
  | .inChunkData =>
    if d.bytesLeftInChunk = 1 then
      .more { d with bytesLeftInChunk := 0, state := .inChunkCrlf } [c]
    else .more { d with bytesLeftInChunk := d.bytesLeftInChunk - 1 } [c]
  | .inChunkCrlf =>
    if c = cr then .more d []
    else if c = lf then .more { d with state := .inChunkSize } []
    else .error
  | .inTrailersLineHead =>
    if c = cr then .more d []
    else if c = lf then .complete d
    else .more { d with state := .inTrailersLineMiddle } []
  | .inTrailersLineMiddle =>
    if c = lf then .more { d with state := .inTrailersLineHead } [] else .more d []

end ChunkedDecoder

/-- The result with `out` decoded before it. -/
def Decoded.after (out : Str) (r : Decoded) : Decoded :=
  { r with out := out ++ r.out }

@[simp] theorem Decoded.after_nil (r : Decoded) : r.after [] = r :=
  rfl

@[simp] theorem Decoded.after_after (out out' : Str) (r : Decoded) :
    (r.after out').after out = r.after (out ++ out') := by
  simp [Decoded.after]

namespace ChunkedDecoder

/-- The decoder over bytes, up to the end of the coding or an error. -/
def run : ChunkedDecoder → Str → Decoded
  | d, [] => ⟨.incomplete, d, [], []⟩
  | d, c :: buf =>
    match d.feed c with
    | .more d' out => (run d' buf).after out
    | .error => ⟨.error, d, [], c :: buf⟩
    | .complete d' => ⟨.complete, d', [], buf⟩

theorem run_cons_more {d d' : ChunkedDecoder} {c : UInt8} {out : Str}
    (h : d.feed c = .more d' out) (buf : Str) : d.run (c :: buf) = (d'.run buf).after out := by
  rw [run, h]

theorem run_cons_error {d : ChunkedDecoder} {c : UInt8} (h : d.feed c = .error) (buf : Str) :
    d.run (c :: buf) = ⟨.error, d, [], c :: buf⟩ := by
  rw [run, h]

theorem run_cons_complete {d d' : ChunkedDecoder} {c : UInt8} (h : d.feed c = .complete d')
    (buf : Str) : d.run (c :: buf) = ⟨.complete, d', [], buf⟩ := by
  rw [run, h]

/-- In the data of a chunk there are bytes left. A decoder that starts with zeros keeps that. -/
def Valid (d : ChunkedDecoder) : Prop :=
  d.state = .inChunkData → 0 < d.bytesLeftInChunk

/-- Bytes to come, and half a byte for a size that has not ended. -/
def toDo (d : ChunkedDecoder) (buf : Str) : ℕ :=
  2 * buf.length + if d.state = .inChunkSize then 1 else 0

/-- A pass is a part of the run, and leaves less to do. -/
def PassSpec (d : ChunkedDecoder) (buf : Str) : ChunkPass → Prop
  | .exit r => d.run buf = r
  | .next d' out rest =>
    d.run buf = (d'.run rest).after out ∧ d'.Valid ∧ d'.toDo rest < d.toDo buf

theorem endOfSizeLine_valid {d d' : ChunkedDecoder} (h : d.endOfSizeLine = some d') :
    d'.Valid ∧ d'.state ≠ .inChunkSize := by
  unfold endOfSizeLine at h
  split_ifs at h with hzero
  · obtain rfl := Option.some.inj h
    exact ⟨by simp [Valid], by simp⟩
  · obtain rfl := Option.some.inj h
    exact ⟨fun _ => Nat.pos_of_ne_zero hzero, by simp⟩

theorem feedExt_ne_error (d : ChunkedDecoder) (c : UInt8) : d.feedExt c ≠ .error := by
  unfold feedExt
  split_ifs
  · split <;> simp
  · simp

/-- A byte that only moves the decoder is a part of the pass. -/
theorem PassSpec.cons {d d' : ChunkedDecoder} {c : UInt8} {buf : Str} {p : ChunkPass}
    (hfeed : d.feed c = .more d' []) (h : d'.PassSpec buf p) : d.PassSpec (c :: buf) p := by
  have hless : d'.toDo buf < d.toDo (c :: buf) := by
    simp only [toDo, List.length_cons]
    split_ifs <;> omega
  cases p with
  | exit r => exact (run_cons_more hfeed buf).trans h
  | next d'' out rest =>
    obtain ⟨hrun, hvalid, hdo⟩ := h
    exact ⟨(run_cons_more hfeed buf).trans hrun, hvalid, hdo.trans hless⟩

theorem passSpec_inChunkSize : ∀ (buf : Str) (d : ChunkedDecoder), d.state = .inChunkSize →
    d.PassSpec buf (d.inChunkSize buf)
  | [], _, _ => rfl
  | c :: buf, d, hstate => by
    unfold inChunkSize
    cases hc : decodeHex c with
    | none =>
      dsimp only
      split_ifs with hzero hends
      · exact run_cons_error (by simp [feed, hstate, hc, hzero]) buf
      · refine ⟨?_, by simp [Valid], by simp [toDo, hstate]⟩
        -- the byte behind the size is looked at again
        have hfeed : d.feed c = feedExt { d with hexCount := 0, state := .inChunkExt } c := by
          simp [feed, hstate, hc, hzero, hends]
        have hne := feedExt_ne_error { d with hexCount := 0, state := .inChunkExt } c
        rw [run, run, hfeed]
        show _ = Decoded.after [] (match feedExt _ c with
          | .more d' out => _ | .error => _ | .complete d' => _)
        cases hext : feedExt { d with hexCount := 0, state := .inChunkExt } c with
        | more d' out => rfl
        | error => exact absurd hext hne
        | complete d' => rfl
      · exact run_cons_error (by simp [feed, hstate, hc, hends]) buf
    | some v =>
      dsimp only
      split_ifs with hfull
      · exact run_cons_error (by simp [feed, hstate, hc, hfull]) buf
      · exact .cons (by simp [feed, hstate, hc, hfull]) (passSpec_inChunkSize buf _ hstate)

theorem passSpec_inChunkExt : ∀ (buf : Str) (d : ChunkedDecoder), d.state = .inChunkExt →
    d.PassSpec buf (d.inChunkExt buf)
  | [], _, _ => rfl
  | c :: buf, d, hstate => by
    unfold inChunkExt
    split_ifs with hlf
    · cases hend : d.endOfSizeLine with
      | some d' =>
        obtain ⟨hvalid, hne⟩ := endOfSizeLine_valid hend
        refine ⟨run_cons_more (by simp [feed, feedExt, hstate, hlf, hend]) buf, hvalid, ?_⟩
        simp only [toDo, List.length_cons, if_neg hne]
        omega
      | none => exact run_cons_complete (by simp [feed, feedExt, hstate, hlf, hend]) buf
    · exact .cons (by simp [feed, feedExt, hstate, hlf]) (passSpec_inChunkExt buf d hstate)

/-- The data of a chunk goes through. -/
theorem run_inChunkData : ∀ (buf : Str) (d : ChunkedDecoder), d.state = .inChunkData →
    buf.length < d.bytesLeftInChunk →
      d.run buf = ⟨.incomplete, { d with bytesLeftInChunk := d.bytesLeftInChunk - buf.length },
        buf, []⟩
  | [], _, _, _ => rfl
  | c :: buf, d, hstate, hlt => by
    rw [List.length_cons] at hlt
    have hfeed : d.feed c = .more { d with bytesLeftInChunk := d.bytesLeftInChunk - 1 } [c] := by
      simp only [feed, hstate]
      rw [if_neg (by omega)]
    have hrest := run_inChunkData buf { d with bytesLeftInChunk := d.bytesLeftInChunk - 1 } hstate
      (by dsimp only; omega)
    rw [run_cons_more hfeed, hrest]
    simp only [Decoded.after, List.length_cons, List.singleton_append, Nat.sub_sub, Nat.add_comm 1]

theorem run_chunkData (rest : Str) : ∀ (data : Str) (d : ChunkedDecoder), data ≠ [] →
    d.state = .inChunkData → d.bytesLeftInChunk = data.length →
      d.run (data ++ rest) =
        (run { d with bytesLeftInChunk := 0, state := .inChunkCrlf } rest).after data
  | [], _, hne, _, _ => absurd rfl hne
  | [c], d, _, hstate, hlen => by
    have hfeed : d.feed c = .more { d with bytesLeftInChunk := 0, state := .inChunkCrlf } [c] := by
      simp only [feed, hstate]
      rw [if_pos (by simpa using hlen)]
    exact run_cons_more hfeed rest
  | c :: c' :: data, d, _, hstate, hlen => by
    rw [List.length_cons, List.length_cons] at hlen
    have hfeed : d.feed c = .more { d with bytesLeftInChunk := d.bytesLeftInChunk - 1 } [c] := by
      simp only [feed, hstate]
      rw [if_neg (by omega)]
    have hrest := run_chunkData rest (c' :: data)
      { d with bytesLeftInChunk := d.bytesLeftInChunk - 1 } (by simp) hstate
      (by simp only [List.length_cons]; omega)
    rw [List.cons_append, run_cons_more hfeed, hrest, Decoded.after_after]
    rfl

theorem passSpec_inChunkData (buf : Str) {d : ChunkedDecoder} (hstate : d.state = .inChunkData)
    (hvalid : d.Valid) : d.PassSpec buf (d.inChunkData buf) := by
  unfold inChunkData
  split_ifs with hlt
  · exact run_inChunkData buf d hstate hlt
  · have hpos := hvalid hstate
    refine ⟨?_, by simp [Valid], ?_⟩
    · have hrun := run_chunkData (buf.drop d.bytesLeftInChunk) (buf.take d.bytesLeftInChunk) d
        (List.ne_nil_of_length_pos (by rw [List.length_take]; omega)) hstate
        (by rw [List.length_take]; omega)
      rwa [List.take_append_drop] at hrun
    · simp only [toDo, List.length_drop, hstate]
      simp
      omega

theorem passSpec_inChunkCrlf : ∀ (buf : Str) (d : ChunkedDecoder), d.state = .inChunkCrlf →
    d.PassSpec buf (d.inChunkCrlf buf)
  | [], _, _ => rfl
  | c :: buf, d, hstate => by
    unfold inChunkCrlf
    split_ifs with hcr hlf
    · exact .cons (by simp [feed, hstate, hcr]) (passSpec_inChunkCrlf buf d hstate)
    · exact run_cons_error (by simp [feed, hstate, hcr, hlf]) buf
    · rw [not_not.1 hlf] at hcr ⊢
      refine ⟨run_cons_more (by simp [feed, hstate, hcr]) buf, by simp [Valid], ?_⟩
      simp only [toDo, hstate, List.length_cons, if_true]
      simp
      omega

theorem passSpec_inTrailersLineHead : ∀ (buf : Str) (d : ChunkedDecoder),
    d.state = .inTrailersLineHead → d.PassSpec buf (d.inTrailersLineHead buf)
  | [], _, _ => rfl
  | c :: buf, d, hstate => by
    unfold inTrailersLineHead
    split_ifs with hcr hlf
    · exact .cons (by simp [feed, hstate, hcr]) (passSpec_inTrailersLineHead buf d hstate)
    · rw [hlf] at hcr ⊢
      exact run_cons_complete (by simp [feed, hstate, hcr]) buf
    · exact ⟨run_cons_more (by simp [feed, hstate, hcr, hlf]) buf, by simp [Valid],
        by simp [toDo, hstate]⟩

theorem passSpec_inTrailersLineMiddle : ∀ (buf : Str) (d : ChunkedDecoder),
    d.state = .inTrailersLineMiddle → d.PassSpec buf (d.inTrailersLineMiddle buf)
  | [], _, _ => rfl
  | c :: buf, d, hstate => by
    unfold inTrailersLineMiddle
    split_ifs with hlf
    · exact ⟨run_cons_more (by simp [feed, hstate, hlf]) buf, by simp [Valid],
        by simp [toDo, hstate]⟩
    · exact .cons (by simp [feed, hstate, hlf]) (passSpec_inTrailersLineMiddle buf d hstate)

theorem passSpec_pass {d : ChunkedDecoder} (hvalid : d.Valid) (buf : Str) :
    d.PassSpec buf (d.pass buf) := by
  cases hstate : d.state with
  | inChunkSize =>
    simp only [pass, hstate]
    exact passSpec_inChunkSize buf d hstate
  | inChunkExt =>
    simp only [pass, hstate]
    exact passSpec_inChunkExt buf d hstate
  | inChunkData =>
    simp only [pass, hstate]
    exact passSpec_inChunkData buf hstate hvalid
  | inChunkCrlf =>
    simp only [pass, hstate]
    exact passSpec_inChunkCrlf buf d hstate
  | inTrailersLineHead =>
    simp only [pass, hstate]
    exact passSpec_inTrailersLineHead buf d hstate
  | inTrailersLineMiddle =>
    simp only [pass, hstate]
    exact passSpec_inTrailersLineMiddle buf d hstate

/-- The loop of a call is the run over its bytes, and does not run out of passes. -/
theorem decodeLoop_eq : ∀ (fuel : ℕ) {d : ChunkedDecoder}, d.Valid → ∀ buf : Str,
    d.toDo buf < fuel → d.decodeLoop fuel buf = some (d.run buf)
  | 0, _, _, _, hfuel => absurd hfuel (Nat.not_lt_zero _)
  | fuel + 1, d, hvalid, buf, hfuel => by
    have hspec := passSpec_pass hvalid buf
    unfold decodeLoop
    cases hpass : d.pass buf with
    | exit r =>
      rw [hpass] at hspec
      exact congrArg some hspec.symm
    | next d' out rest =>
      rw [hpass] at hspec
      obtain ⟨hrun, hvalid', hless⟩ := hspec
      dsimp only
      rw [decodeLoop_eq fuel hvalid' rest (by omega), hrun]
      rfl

end ChunkedDecoder

/-! ## Bodies that arrive in pieces -/

namespace ChunkedDecoder

/-- A byte leaves a decoder as it should be, and lets at most itself through. -/
theorem valid_feed {d d' : ChunkedDecoder} {c : UInt8} {out : Str} (hvalid : d.Valid)
    (h : d.feed c = .more d' out) : d'.Valid ∧ out.length ≤ 1 := by
  have hext : ∀ {d d' : ChunkedDecoder}, d.state = .inChunkExt → d.feedExt c = .more d' out →
      d'.Valid ∧ out.length ≤ 1 := by
    intro d d' hstate h
    unfold feedExt at h
    split_ifs at h
    · cases hend : d.endOfSizeLine with
      | some d'' =>
        simp only [hend, Fed.more.injEq] at h
        obtain ⟨rfl, rfl⟩ := h
        exact ⟨(endOfSizeLine_valid hend).1, by simp⟩
      | none => simp [hend] at h
    · obtain ⟨rfl, rfl⟩ := Fed.more.inj h
      exact ⟨by simp [Valid, hstate], by simp⟩
  unfold feed at h
  cases hstate : d.state with
  | inChunkSize =>
    simp only [hstate] at h
    split at h
    · split_ifs at h
      exact hext rfl h
    · split_ifs at h
      obtain ⟨rfl, rfl⟩ := Fed.more.inj h
      exact ⟨by simp [Valid], by simp⟩
  | inChunkExt =>
    simp only [hstate] at h
    exact hext hstate h
  | inChunkData =>
    simp only [hstate] at h
    have hpos := hvalid hstate
    split_ifs at h with hone
    · obtain ⟨rfl, rfl⟩ := Fed.more.inj h
      exact ⟨by simp [Valid], by simp⟩
    · obtain ⟨rfl, rfl⟩ := Fed.more.inj h
      exact ⟨fun _ => by dsimp only; omega, by simp⟩
  | inChunkCrlf =>
    simp only [hstate] at h
    split_ifs at h
    · obtain ⟨rfl, rfl⟩ := Fed.more.inj h
      exact ⟨hvalid, by simp⟩
    · obtain ⟨rfl, rfl⟩ := Fed.more.inj h
      exact ⟨by simp [Valid], by simp⟩
  | inTrailersLineHead =>
    simp only [hstate] at h
    split_ifs at h
    · obtain ⟨rfl, rfl⟩ := Fed.more.inj h
      exact ⟨hvalid, by simp⟩
    · obtain ⟨rfl, rfl⟩ := Fed.more.inj h
      exact ⟨by simp [Valid], by simp⟩
  | inTrailersLineMiddle =>
    simp only [hstate] at h
    split_ifs at h
    · obtain ⟨rfl, rfl⟩ := Fed.more.inj h
      exact ⟨by simp [Valid], by simp⟩
    · obtain ⟨rfl, rfl⟩ := Fed.more.inj h
      exact ⟨hvalid, by simp⟩

theorem valid_run : ∀ (buf : Str) {d : ChunkedDecoder}, d.Valid →
    (d.run buf).exit = .incomplete → (d.run buf).decoder.Valid ∧ (d.run buf).rest = []
  | [], _, hvalid, _ => ⟨hvalid, rfl⟩
  | c :: buf, d, hvalid, h => by
    cases hfeed : d.feed c with
    | more d' out =>
      rw [run_cons_more hfeed] at h ⊢
      exact valid_run buf (valid_feed hvalid hfeed).1 h
    | error => simp [run_cons_error hfeed] at h
    | complete d' => simp [run_cons_complete hfeed] at h

/-- A run that has come to no end goes on with the bytes that follow, and one that has does not
look at them. -/
theorem run_append (more : Str) : ∀ (buf : Str) (d : ChunkedDecoder),
    d.run (buf ++ more) =
      if (d.run buf).exit = .incomplete then ((d.run buf).decoder.run more).after (d.run buf).out
      else { d.run buf with rest := (d.run buf).rest ++ more }
  | [], _ => rfl
  | c :: buf, d => by
    cases hfeed : d.feed c with
    | more d' out =>
      rw [List.cons_append, run_cons_more hfeed, run_cons_more hfeed, run_append more buf d']
      by_cases h : (d'.run buf).exit = .incomplete
      · rw [if_pos h, if_pos (show ((d'.run buf).after out).exit = _ from h), Decoded.after_after]
        rfl
      · rw [if_neg h, if_neg (show ((d'.run buf).after out).exit ≠ _ from h)]
        rfl
    | error =>
      rw [List.cons_append, run_cons_error hfeed, run_cons_error hfeed]
      simp
    | complete d' =>
      rw [List.cons_append, run_cons_complete hfeed, run_cons_complete hfeed]
      simp

/-- The decoder with other counts of bytes. -/
def withTotals (d : ChunkedDecoder) (totalRead totalOverhead : ℕ) : ChunkedDecoder :=
  { d with totalRead := totalRead, totalOverhead := totalOverhead }

end ChunkedDecoder

/-- What a byte does to a decoder with other counts of bytes. -/
def Fed.withTotals (r o : ℕ) : Fed → Fed
  | .more d out => .more (d.withTotals r o) out
  | .error => .error
  | .complete d => .complete (d.withTotals r o)

namespace ChunkedDecoder

theorem endOfSizeLine_withTotals (d : ChunkedDecoder) (r o : ℕ) :
    (d.withTotals r o).endOfSizeLine = d.endOfSizeLine.map (·.withTotals r o) := by
  unfold endOfSizeLine withTotals
  split_ifs <;> rfl

theorem feedExt_withTotals (d : ChunkedDecoder) (r o : ℕ) (c : UInt8) :
    (d.withTotals r o).feedExt c = Fed.withTotals r o (d.feedExt c) := by
  unfold feedExt
  split_ifs
  · rw [endOfSizeLine_withTotals]
    cases d.endOfSizeLine <;> rfl
  · rfl

theorem feed_withTotals (d : ChunkedDecoder) (r o : ℕ) (c : UInt8) :
    (d.withTotals r o).feed c = Fed.withTotals r o (d.feed c) := by
  obtain ⟨left, trailer, hexCount, state, r', o'⟩ := d
  show feed ⟨left, trailer, hexCount, state, r, o⟩ c = _
  cases state with
  | inChunkSize =>
    simp only [feed]
    cases decodeHex c with
    | none =>
      dsimp only
      split_ifs
      · exact feedExt_withTotals ⟨left, trailer, 0, .inChunkExt, r', o'⟩ r o c
      · rfl
    | some v =>
      dsimp only
      split_ifs <;> rfl
  | inChunkExt => exact feedExt_withTotals ⟨left, trailer, hexCount, .inChunkExt, r', o'⟩ r o c
  | inChunkData =>
    simp only [feed]
    split_ifs <;> rfl
  | inChunkCrlf =>
    simp only [feed]
    split_ifs <;> rfl
  | inTrailersLineHead =>
    simp only [feed]
    split_ifs <;> rfl
  | inTrailersLineMiddle =>
    simp only [feed]
    split_ifs <;> rfl

theorem run_withTotals (r o : ℕ) : ∀ (buf : Str) (d : ChunkedDecoder),
    (d.withTotals r o).run buf =
      { d.run buf with decoder := (d.run buf).decoder.withTotals r o }
  | [], _ => rfl
  | c :: buf, d => by
    have hfeed := feed_withTotals d r o c
    cases h : d.feed c with
    | more d' out =>
      rw [h] at hfeed
      rw [run_cons_more hfeed, run_cons_more h, run_withTotals r o buf d']
      rfl
    | error =>
      rw [h] at hfeed
      rw [run_cons_error hfeed, run_cons_error h]
    | complete d' =>
      rw [h] at hfeed
      rw [run_cons_complete hfeed, run_cons_complete h]

/-! ## Calls -/

theorem length_out_run_le : ∀ (buf : Str) {d : ChunkedDecoder}, d.Valid →
    (d.run buf).out.length ≤ buf.length
  | [], _, _ => le_rfl
  | c :: buf, d, hvalid => by
    cases hfeed : d.feed c with
    | more d' out =>
      obtain ⟨hvalid', hout⟩ := valid_feed hvalid hfeed
      have hrest := length_out_run_le buf hvalid'
      rw [run_cons_more hfeed]
      simp only [Decoded.after, List.length_append, List.length_cons]
      omega
    | error => simp [run_cons_error hfeed]
    | complete d' => simp [run_cons_complete hfeed]

/-- The decoder after a call that came to no end, with the counts of bytes. -/
def counted (d : ChunkedDecoder) (buf : Str) : ChunkedDecoder :=
  (d.run buf).decoder.withTotals ((d.totalRead + buf.length) % sizeMod)
    ((d.totalOverhead + (buf.length - (d.run buf).out.length)) % sizeMod)

/-- The value of a call. -/
def ret (d : ChunkedDecoder) (buf : Str) : ℤ :=
  match (d.run buf).exit with
  | .complete => (d.run buf).rest.length
  | .error => -1
  | .incomplete => if (d.counted buf).overheadExceeded then -1 else -2

theorem valid_withTotals {d : ChunkedDecoder} (h : d.Valid) (r o : ℕ) : (d.withTotals r o).Valid :=
  h

/-- A call, by the run over its bytes. -/
theorem phrDecodeChunked_eq {d : ChunkedDecoder} (hvalid : d.Valid) (buf : Str) :
    ∃ d', phrDecodeChunked d buf = some ⟨d.ret buf, d', (d.run buf).out, (d.run buf).rest⟩ ∧
      ((d.run buf).exit = .incomplete → d' = d.counted buf) := by
  have hfuel : (d.withTotals ((d.totalRead + buf.length) % sizeMod) d.totalOverhead).toDo buf <
      2 * buf.length + 2 := by
    unfold toDo
    split_ifs <;> omega
  have hloop := decodeLoop_eq _ (valid_withTotals hvalid _ _) buf hfuel
  rw [run_withTotals] at hloop
  have hcall : phrDecodeChunked d buf = some (afterDecodeLoop buf.length ⟨(d.run buf).exit,
      (d.run buf).decoder.withTotals ((d.totalRead + buf.length) % sizeMod) d.totalOverhead,
      (d.run buf).out, (d.run buf).rest⟩) :=
    congrArg (Option.map (afterDecodeLoop buf.length)) hloop
  rw [hcall, ret]
  cases hexit : (d.run buf).exit with
  | incomplete => exact ⟨d.counted buf, rfl, fun _ => rfl⟩
  | error => exact ⟨_, rfl, by simp⟩
  | complete => exact ⟨_, rfl, by simp⟩

/-- The run over the bytes of two calls, by the second call. -/
theorem run_counted (d : ChunkedDecoder) {buf : Str} (h : (d.run buf).exit = .incomplete)
    (more : Str) :
    (d.run (buf ++ more)).exit = ((d.counted buf).run more).exit ∧
      (d.run (buf ++ more)).out = (d.run buf).out ++ ((d.counted buf).run more).out ∧
      (d.run (buf ++ more)).rest = ((d.counted buf).run more).rest := by
  rw [run_append, if_pos h, counted, run_withTotals]
  exact ⟨rfl, rfl, rfl⟩

theorem counted_append {d : ChunkedDecoder} (hvalid : d.Valid) {buf : Str}
    (h : (d.run buf).exit = .incomplete) (more : Str) :
    (d.counted buf).counted more = d.counted (buf ++ more) := by
  obtain ⟨-, hout, -⟩ := d.run_counted h more
  have hdecoder : ∀ r o, ((d.counted buf).run more).decoder.withTotals r o =
      (d.run (buf ++ more)).decoder.withTotals r o := by
    intro r o
    rw [run_append, if_pos h, counted, run_withTotals]
    rfl
  have hle := length_out_run_le buf hvalid
  have hle' := length_out_run_le more (valid_withTotals (valid_run buf hvalid h).1
    ((d.totalRead + buf.length) % sizeMod)
    ((d.totalOverhead + (buf.length - (d.run buf).out.length)) % sizeMod))
  show ((d.counted buf).run more).decoder.withTotals
    (((d.totalRead + buf.length) % sizeMod + more.length) % sizeMod)
    (((d.totalOverhead + (buf.length - (d.run buf).out.length)) % sizeMod +
      (more.length - ((d.counted buf).run more).out.length)) % sizeMod) =
    (d.run (buf ++ more)).decoder.withTotals ((d.totalRead + (buf ++ more).length) % sizeMod)
      ((d.totalOverhead + ((buf ++ more).length - (d.run (buf ++ more)).out.length)) % sizeMod)
  replace hle' : ((d.counted buf).run more).out.length ≤ more.length := hle'
  have hread : d.totalRead + buf.length + more.length = d.totalRead + (buf ++ more).length := by
    rw [List.length_append]
    omega
  have hoverhead : d.totalOverhead + (buf.length - (d.run buf).out.length) +
      (more.length - ((d.counted buf).run more).out.length) =
        d.totalOverhead + ((buf ++ more).length - (d.run (buf ++ more)).out.length) := by
    rw [hout, List.length_append, List.length_append]
    omega
  rw [hdecoder, Nat.mod_add_mod, Nat.mod_add_mod, hread, hoverhead]

end ChunkedDecoder

/-- A caller that hands the pieces of a body to `phr_decode_chunked` as they arrive, as long as it
returns `-2`. The last result, with all that was decoded, and the pieces that were not handed
over. -/
def decodeReads : ChunkedDecoder → List Str → Option (PhrDecoded × List Str)
  | d, [] => some (⟨-2, d, [], []⟩, [])
  | d, piece :: pieces =>
    (phrDecodeChunked d piece).bind fun r =>
      if r.ret = -2 then
        (decodeReads r.decoder pieces).map fun (r', unread) =>
          ({ r' with out := r.out ++ r'.out }, unread)
      else some (r, pieces)

/-- Where the coding had come to no end, before the last piece, it had not taken up too much. -/
def WithinOverhead (d : ChunkedDecoder) (pieces : List Str) : Prop :=
  ∀ pre post, pieces = pre ++ post → pre ≠ [] → post ≠ [] →
    (d.run pre.flatten).exit = .incomplete → (d.counted pre.flatten).overheadExceeded = false

namespace ChunkedDecoder

theorem ret_counted {d : ChunkedDecoder} (hvalid : d.Valid) {buf : Str}
    (h : (d.run buf).exit = .incomplete) (more : Str) :
    d.ret (buf ++ more) = (d.counted buf).ret more := by
  obtain ⟨hexit, -, hrest⟩ := d.run_counted h more
  rw [ret, ret, hexit, hrest, counted_append hvalid h]

/-- A call whose bytes have come to an end, and what follows them. -/
theorem ret_append_of_not_incomplete {d : ChunkedDecoder} {buf : Str}
    (h : (d.run buf).exit ≠ .incomplete) (more : Str) :
    d.ret (buf ++ more) = if 0 ≤ d.ret buf then d.ret buf + more.length else d.ret buf := by
  have hrun := run_append more buf d
  rw [if_neg h] at hrun
  rw [ret, ret, hrun]
  cases hexit : (d.run buf).exit with
  | incomplete => exact absurd hexit h
  | error => simp
  | complete => simp

theorem ret_ne_of_not_incomplete {d : ChunkedDecoder} {buf : Str}
    (h : (d.run buf).exit ≠ .incomplete) : d.ret buf ≠ -2 := by
  rw [ret]
  cases hexit : (d.run buf).exit with
  | incomplete => exact absurd hexit h
  | error => simp
  | complete =>
    simp only
    omega

end ChunkedDecoder

/-- The bytes of the first piece count for the others. -/
theorem WithinOverhead.counted {d : ChunkedDecoder} {piece : Str} {pieces : List Str}
    (h : WithinOverhead d (piece :: pieces)) (hvalid : d.Valid)
    (hexit : (d.run piece).exit = .incomplete) : WithinOverhead (d.counted piece) pieces := by
  intro pre post hpieces hpre hpost hincomplete
  have hwhole := h (piece :: pre) post (by rw [hpieces]; rfl) (by simp) hpost
  rw [List.flatten_cons, (d.run_counted hexit pre.flatten).1,
    ← ChunkedDecoder.counted_append hvalid hexit] at hwhole
  exact hwhole hincomplete

open ChunkedDecoder in
/-- As long as the guard does not stop it before, a body that arrives in pieces is decoded as if it
had come at once : the same bytes, the same value, but for what the caller did not hand over, and
the same bytes behind the end. -/
theorem decodeReads_eq_call : ∀ (pieces : List Str) (d : ChunkedDecoder), d.Valid → pieces ≠ [] →
    WithinOverhead d pieces →
    ∃ r r' unread, decodeReads d pieces = some (r, unread) ∧
      phrDecodeChunked d pieces.flatten = some r' ∧ r'.out = r.out ∧
      r'.rest = r.rest ++ unread.flatten ∧
      r'.ret = if 0 ≤ r.ret then r.ret + unread.flatten.length else r.ret
  | [], _, _, hne, _ => absurd rfl hne
  | piece :: pieces, d, hvalid, _, hguard => by
    obtain ⟨d', hcall, hcounted⟩ := phrDecodeChunked_eq hvalid piece
    obtain ⟨dw, hwhole, -⟩ := phrDecodeChunked_eq hvalid (piece :: pieces).flatten
    rw [List.flatten_cons] at hwhole ⊢
    rw [decodeReads, hcall]
    by_cases hexit : (d.run piece).exit = .incomplete
    · obtain rfl := hcounted hexit
      obtain ⟨hvalid', hrest⟩ := valid_run piece hvalid hexit
      by_cases hlast : pieces = []
      · subst hlast
        rw [List.flatten_nil, List.append_nil] at hwhole ⊢
        rw [hrest] at hwhole
        by_cases hret : d.ret piece = -2
        · refine ⟨_, _, [], by rw [Option.bind_some, if_pos hret]; rfl, hwhole, ?_, rfl, ?_⟩
          · simp
          · simp [hret]
        · refine ⟨⟨d.ret piece, d.counted piece, (d.run piece).out, (d.run piece).rest⟩, _, [],
            if_neg hret, hwhole, rfl, ?_, ?_⟩
          · simp [hrest]
          · simp
      · have hret : d.ret piece = -2 := by
          have hok := hguard [piece] pieces rfl (by simp) hlast (by simpa using hexit)
          rw [List.flatten_singleton] at hok
          simp [ret, hexit, hok]
        obtain ⟨r, r', unread, hreads, hcall', hout, hrest', hret'⟩ := decodeReads_eq_call pieces
          (d.counted piece) (valid_withTotals hvalid' _ _) hlast (hguard.counted hvalid hexit)
        obtain ⟨dc, hcall'', -⟩ := phrDecodeChunked_eq (valid_withTotals hvalid' _ _ :
          (d.counted piece).Valid) pieces.flatten
        obtain rfl := Option.some.inj (hcall''.symm.trans hcall')
        obtain ⟨-, hout', hrest''⟩ := d.run_counted hexit pieces.flatten
        refine ⟨{ r with out := (d.run piece).out ++ r.out }, _, unread, ?_, hwhole, ?_, ?_, ?_⟩
        · rw [Option.bind_some, if_pos hret, hreads]
          rfl
        · rw [← hout]
          exact hout'
        · exact hrest''.trans hrest'
        · exact (ret_counted hvalid hexit pieces.flatten).trans hret'
    · have hrun := run_append pieces.flatten piece d
      rw [if_neg hexit] at hrun
      refine ⟨_, _, pieces, if_neg (ret_ne_of_not_incomplete hexit), hwhole, ?_, ?_, ?_⟩
      · rw [hrun]
      · rw [hrun]
      · exact ret_append_of_not_incomplete hexit _

/-- The value of a result, with the bytes of the pieces that were not handed over counted among
those behind the end. -/
def PhrDecoded.total (r : PhrDecoded) (unread : List Str) : ℤ :=
  if 0 ≤ r.ret then r.ret + unread.flatten.length else r.ret

/-- Two ways to cut a body into pieces decode to the same bytes, come to the same end, and leave the
same bytes behind it, as long as the guard does not stop one of them early. -/
theorem decodeReads_of_pieces (d : ChunkedDecoder) (hvalid : d.Valid) (pieces pieces' : List Str)
    (hne : pieces ≠ []) (hne' : pieces' ≠ []) (hflatten : pieces.flatten = pieces'.flatten)
    (hguard : WithinOverhead d pieces) (hguard' : WithinOverhead d pieces') :
    ∃ r r' unread unread', decodeReads d pieces = some (r, unread) ∧
      decodeReads d pieces' = some (r', unread') ∧ r.out = r'.out ∧
      r.total unread = r'.total unread' ∧
      r.rest ++ unread.flatten = r'.rest ++ unread'.flatten := by
  obtain ⟨r, w, unread, hreads, hwhole, hout, hrest, hret⟩ :=
    decodeReads_eq_call pieces d hvalid hne hguard
  obtain ⟨r', w', unread', hreads', hwhole', hout', hrest', hret'⟩ :=
    decodeReads_eq_call pieces' d hvalid hne' hguard'
  rw [hflatten] at hwhole
  obtain rfl := Option.some.inj (hwhole.symm.trans hwhole')
  exact ⟨r, r', unread, unread', hreads, hreads', hout.symm.trans hout', hret.symm.trans hret',
    hrest.symm.trans hrest'⟩

/-- Less than `100` KiB in all is never too much. -/
theorem withinOverhead_of_short {d : ChunkedDecoder} {pieces : List Str}
    (h : d.totalOverhead + pieces.flatten.length < 100 * 1024) : WithinOverhead d pieces := by
  rintro pre post rfl - - -
  have hmod := Nat.mod_le
    (d.totalOverhead + (pre.flatten.length - (d.run pre.flatten).out.length)) sizeMod
  have hless : (d.counted pre.flatten).totalOverhead < 100 * 1024 := by
    refine lt_of_le_of_lt hmod ?_
    rw [List.flatten_append, List.length_append] at h
    omega
  simp [ChunkedDecoder.overheadExceeded, Nat.not_le.2 hless]

/-- A body of one chunk, cut within the size line and within the data. -/
theorem decodeReads_of_pieces_two_cuts :
    let d := ChunkedDecoder.zero false
    let pieces := [lit "3;a", lit "=b\r\nab", lit "c\r\n0\r\n\r\nx"]
    let pieces' := [lit "3;a=b\r\nabc\r\n0\r\n\r\nx"]
    pieces.flatten = pieces'.flatten ∧
      ∃ r r' unread unread', decodeReads d pieces = some (r, unread) ∧
        decodeReads d pieces' = some (r', unread') ∧ r.out = r'.out ∧
        r.total unread = r'.total unread' ∧
        r.rest ++ unread.flatten = r'.rest ++ unread'.flatten := by
  intro d pieces pieces'
  have hflatten : pieces.flatten = pieces'.flatten := by decide +kernel
  exact ⟨hflatten, decodeReads_of_pieces d (by simp [d, ChunkedDecoder.zero, ChunkedDecoder.Valid])
    pieces pieces' (by simp [pieces]) (by simp [pieces']) hflatten
    (withinOverhead_of_short (by decide +kernel)) (withinOverhead_of_short (by decide +kernel))⟩

end Pico

end Azugate
