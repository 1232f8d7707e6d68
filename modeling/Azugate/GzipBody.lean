import Azugate.CompressorRuns
import Azugate.Socket

/-!
# Gzip over a socket

The handler of `handleGzipCompression` writes every piece of output of the compressor to the
socket as a chunk, with one `write_some` for its three buffers, and the end of the body follows.
On a run of the compressor these are the writes of `writeEach` (`handleGzipCompression_eq`).
With writes that send everything or fail, a body that is not complete does not look like one
(`handleGzipCompression_chunked`). A write that is cut short goes unnoticed (`sendsAll_iff`).

The buffer of a chunk's size line is over a temporary string that is gone when the line is
written. The parameter `stale` is what the memory holds then.
-/

namespace Azugate

/-- `kChunkedEncodingEndingStr`. -/
def kChunkedEncodingEndingStr : Str := lit "0\r\n\r\n"

/-- `compressed_output_handler`. The line of the size is read from memory that is not its own
any more. -/
def compressedOutputHandler (A : Accepts) (stale : ℕ → Str → Str) (s : Socket) (data : Str) :
    Socket × Bool :=
  s.writeSome A (stale s.calls (numeral 16 data.length ++ kCrlf) ++ data ++ kCrlf)

/-- `handleGzipCompression`. -/
def handleGzipCompression (Z : Zlib) (A : Accepts) (stale : ℕ → Str → Str) (fuel : ℕ)
    (source : FileStream) (s : Socket) : Option (Socket × Bool) :=
  (gzipStreamCompress Z (compressedOutputHandler A stale) fuel source Z.init s).map
    fun (s, ret) => if !ret then (s, false) else s.writeSome A kChunkedEncodingEndingStr

/-! ## The writes of a run -/

/-- The line of a chunk's size. -/
def sizeLine (out : Str) : Str :=
  numeral 16 out.length ++ kCrlf

/-- The buffers of the chunks, from the `i`-th write on. -/
def chunkBuffers (stale : ℕ → Str → Str) (i : ℕ) (outs : List Str) : List Str :=
  (outs.zipIdx i).map fun p => stale p.2 (sizeLine p.1) ++ p.1 ++ kCrlf

section Writes

variable {Z : Zlib} {A : Accepts} {stale : ℕ → Str → Str} {source : FileStream}
  {calls : List DeflateCall} {ret : Bool}

/-- The handler writes each block once, until a write fails. -/
theorem hand_compressedOutputHandler (s : Socket) (calls : List DeflateCall) :
    (hand (compressedOutputHandler A stale) s calls).2 =
      s.writeEach A (chunkBuffers stale s.calls (blocks calls)) := by
  induction calls generalizing s with
  | nil => rfl
  | cons c calls ih =>
    rw [hand]
    rcases handOne_cases (compressedOutputHandler A stale) s c with
      ⟨hp, hone⟩ | ⟨hp, hone⟩
    · rw [hone, if_pos rfl, blocks_cons, hp, List.nil_append]
      exact ih s
    · rw [hone, blocks_cons, hp, List.singleton_append, chunkBuffers, List.zipIdx_cons,
        List.map_cons, compressedOutputHandler, Socket.writeEach, sizeLine]
      rcases hwrite : s.writeSome A
        (stale s.calls (numeral 16 c.out.length ++ kCrlf) ++ c.out ++ kCrlf) with ⟨s', _ | _⟩
      · rfl
      · have hcalls : s'.calls = s.calls + 1 := by
          rw [← s.calls_writeSome, hwrite]
        rw [if_pos rfl, ih, hcalls]
        rfl

/-- On a run of the compressor, `handleGzipCompression` writes the chunks, and after them the end
if the compressor has not failed. -/
theorem handleGzipCompression_eq (hcomp : Compresses Z 0 source Z.init calls ret) (A : Accepts)
    (stale : ℕ → Str → Str) :
    ∃ N, ∀ fuel, N ≤ fuel → ∀ s, handleGzipCompression Z A stale fuel source s =
      some (if ret then
          s.writeEach A (chunkBuffers stale s.calls (blocks calls) ++ [kChunkedEncodingEndingStr])
        else ((s.writeEach A (chunkBuffers stale s.calls (blocks calls))).1, false)) := by
  obtain ⟨N, hrun⟩ := hcomp.gzipRun_eq (compressedOutputHandler A stale)
  refine ⟨N, fun fuel hfuel s => ?_⟩
  rw [handleGzipCompression, gzipStreamCompress_eq_gzipRun _ _ fuel 0, hrun fuel hfuel s,
    hand_compressedOutputHandler, Socket.writeEach_append]
  simp only [Option.map_some, Socket.writeEach_singleton]
  cases ret with
  | true => cases (s.writeEach A (chunkBuffers stale s.calls (blocks calls))).2 <;> rfl
  | false => simp

/-- The buffers when the memory of a size line holds what `g` leaves of it. -/
theorem chunkBuffers_const (g : Str → Str) (i : ℕ) (outs : List Str) :
    chunkBuffers (fun _ => g) i outs = outs.map fun out => g (sizeLine out) ++ out ++ kCrlf := by
  conv_rhs => rw [← List.zipIdx_map_fst i outs, List.map_map]
  rfl

/-- With the size lines intact the buffers are the chunks. -/
theorem chunkBuffers_intact (i : ℕ) (outs : List Str) :
    chunkBuffers (fun _ line => line) i outs = outs.map Chunked.chunk :=
  chunkBuffers_const (fun line => line) i outs

/-- When every write completes in full, `handleGzipCompression` ends. It sends chunks of a gzip
stream of the file, and after them the end if the file could be read. -/
theorem handleGzipCompression_spec {gunzip : Str → Option Str} (L : Z.Lawful gunzip)
    (g : Str → Str) (source : FileStream) (s : Socket) :
    ∃ (N : ℕ) (outs : List Str), (∀ out ∈ outs, out ≠ []) ∧
      (source.readable = true → gunzip outs.flatten = some source.rest) ∧
      ∀ fuel, N ≤ fuel → ∃ s', handleGzipCompression Z .all (fun _ => g) fuel source s =
          some (s', source.readable) ∧
        s'.sent = s.sent ++
          (outs.flatMap fun out => g (numeral 16 out.length ++ kCrlf) ++ out ++ kCrlf) ++
          if source.readable then kChunkedEncodingEndingStr else [] := by
  obtain ⟨calls, ret, hcomp⟩ := exists_compresses L.toBounded 0 source .init
  obtain ⟨rfl, hgunzip⟩ := hcomp.gunzip_eq L .init
  obtain ⟨N, hrun⟩ := handleGzipCompression_eq hcomp .all fun _ => g
  refine ⟨N, blocks calls, fun out => ne_nil_of_mem_blocks, ?_, fun fuel hfuel => ?_⟩
  · simpa [flatten_blocks] using hgunzip
  · rw [hrun fuel hfuel, chunkBuffers_const, Socket.writeEach_all, Socket.writeEach_all]
    cases source.readable with
    | true => exact ⟨_, rfl, by simp [List.flatMap_def, sizeLine]⟩
    | false => exact ⟨_, rfl, by simp [List.flatMap_def, sizeLine]⟩

end Writes

/-! ## Writes that fail -/

/-- With writes that send all their bytes or fail, the chunks before the first failure are sent,
and the end only after all of them. -/
theorem writeEach_chunks {A : Accepts} (hA : A.AllOrNone) (s : Socket) (outs : List Str) :
    ∃ k, (s.writeEach A (outs.map Chunked.chunk)).1.sent =
        s.sent ++ (outs.take k).flatMap Chunked.chunk ∧
      (s.writeEach A (outs.map Chunked.chunk ++ [kChunkedEncodingEndingStr])).1.sent =
        s.sent ++ (outs.take k).flatMap Chunked.chunk ++
          (if (s.writeEach A (outs.map Chunked.chunk ++ [kChunkedEncodingEndingStr])).2 then
            kChunkedEncodingEndingStr else []) ∧
      ((s.writeEach A (outs.map Chunked.chunk ++ [kChunkedEncodingEndingStr])).2 = true →
        outs.length ≤ k) := by
  obtain ⟨k, hsent, hok⟩ := s.writeEach_of_allOrNone hA (outs.map Chunked.chunk)
  rw [← List.map_take, ← List.flatMap_def] at hsent
  rw [List.length_map] at hok
  refine ⟨k, hsent, ?_⟩
  rw [Socket.writeEach_append]
  by_cases hall : (s.writeEach A (outs.map Chunked.chunk)).2 = true
  · rw [if_pos hall]
    obtain ⟨k', hend, hok'⟩ := Socket.writeEach_of_allOrNone hA
      (s.writeEach A (outs.map Chunked.chunk)).1 [kChunkedEncodingEndingStr]
    refine ⟨?_, fun _ => hok.1 hall⟩
    rw [hend, hsent]
    cases k' with
    | zero =>
      rw [if_neg fun h => absurd (hok'.1 h) (by simp)]
      simp
    | succ k' =>
      rw [if_pos (hok'.2 (by simp))]
      simp
  · rw [if_neg hall]
    exact ⟨by simp [hsent], fun h => absurd h (by simp)⟩

/-- For every run of the compressor and every write that may fail, when a write sends all its
bytes or fails : what `handleGzipCompression` has sent are the chunks before the first failure. If
it returns true, the compressor has not failed, these are all chunks, the end follows them, and
the whole decodes to the output of the compressor. If not, the end is not sent, and a client does
not take the body for a complete one. -/
theorem handleGzipCompression_chunked {Z : Zlib} {source : FileStream} {calls : List DeflateCall}
    {ret : Bool} (hcomp : Compresses Z 0 source Z.init calls ret) {A : Accepts}
    (hA : A.AllOrNone) (s : Socket) :
    ∃ N s' ok k, (∀ fuel, N ≤ fuel →
        handleGzipCompression Z A (fun _ line => line) fuel source s = some (s', ok)) ∧
      s'.sent = s.sent ++ ((blocks calls).take k).flatMap Chunked.chunk ++
        (if ok then kChunkedEncodingEndingStr else []) ∧
      (∀ out ∈ blocks calls, out ≠ []) ∧
      (ok = true → ret = true ∧ (blocks calls).length ≤ k ∧
        Chunked.decode (s'.sent.drop s.sent.length) = some (blocks calls).flatten) ∧
      (ok = false → Chunked.decode (s'.sent.drop s.sent.length) = none) := by
  obtain ⟨N, hrun⟩ := handleGzipCompression_eq hcomp A fun _ line => line
  simp only [chunkBuffers_intact] at hrun
  obtain ⟨k, hchunks, hbody, hall⟩ := writeEach_chunks hA s (blocks calls)
  have hne : ∀ out ∈ blocks calls, out ≠ [] := fun out => ne_nil_of_mem_blocks
  have hcut : Chunked.decode (((blocks calls).take k).flatMap Chunked.chunk) = none :=
    Chunked.decode_chunks fun out hout => hne out (List.mem_of_mem_take hout)
  cases ret with
  | false =>
    refine ⟨N, _, false, k, fun fuel hfuel => hrun fuel hfuel s, ?_, hne, by simp, fun _ => ?_⟩
    · exact hchunks.trans (List.append_nil _).symm
    · rw [hchunks, List.drop_left, hcut]
  | true =>
    refine ⟨N, _, _, k, fun fuel hfuel => hrun fuel hfuel s, hbody, hne, fun hok => ?_,
      fun hok => ?_⟩
    · refine ⟨rfl, hall hok, ?_⟩
      rw [hbody, if_pos hok, List.append_assoc, List.drop_left,
        List.take_of_length_le (hall hok)]
      exact Chunked.decode_chunks_last hne
    · rw [hbody, hok, if_neg (by decide), List.append_nil, List.drop_left, hcut]

/-- The calls of `deflate` on the file `a`. -/
theorem compresses_a :
    Compresses HeldZlib.zlib 0 ⟨lit "a", none⟩ HeldZlib.zlib.init
      [⟨0, true, lit "a", HeldZlib.gzip (lit "a"), .streamEnd⟩] true := by
  have hdrains : Drains HeldZlib.zlib 0 true HeldZlib.zlib.init (lit "a")
      [⟨0, true, lit "a", HeldZlib.gzip (lit "a"), .streamEnd⟩] _ .streamEnd :=
    .last (by decide)
  have hshort : (lit "a").length < kDefaultCompressChunkBytes := by decide
  exact @Compresses.last _ 0 ⟨lit "a", none⟩ _ _ _ _ _ rfl rfl hshort hdrains

/-- The file `a` is sent as one chunk and the end, which decode to its gzip stream. -/
theorem handleGzipCompression_chunked_a :
    ∃ N s', (∀ fuel, N ≤ fuel →
        handleGzipCompression HeldZlib.zlib .all (fun _ line => line) fuel ⟨lit "a", none⟩ ⟨[], 0⟩ =
          some (s', true)) ∧
      Chunked.decode s'.sent = some (HeldZlib.gzip (lit "a")) := by
  have hall : Accepts.all.AllOrNone := fun _ _ _ h => (Option.some.inj h).symm
  obtain ⟨N, s', ok, k, hrun, -, -, hok, -⟩ :=
    handleGzipCompression_chunked compresses_a hall ⟨[], 0⟩
  have hcode : (handleGzipCompression HeldZlib.zlib .all (fun _ line => line) (N + 2)
      ⟨lit "a", none⟩ ⟨[], 0⟩).map Prod.snd = some true := rfl
  rw [hrun (N + 2) (by omega)] at hcode
  obtain rfl := Option.some.inj hcode
  refine ⟨N, s', hrun, ?_⟩
  exact (hok rfl).2.2

/-! ## Writes that are cut short -/

/-- The memory of every size line still holds the line when it is written. -/
def LinesIntact (stale : ℕ → Str → Str) (i : ℕ) (outs : List Str) : Prop :=
  ∀ p ∈ outs.zipIdx i, stale p.2 (sizeLine p.1) = sizeLine p.1

theorem chunkBuffers_eq_iff (stale : ℕ → Str → Str) (i : ℕ) (outs : List Str) :
    chunkBuffers stale i outs = outs.map Chunked.chunk ↔ LinesIntact stale i outs := by
  rw [← chunkBuffers_intact i, chunkBuffers, chunkBuffers, List.map_inj_left]
  refine forall_congr' fun p => imp_congr_right fun _ => ?_
  rw [List.append_left_inj, List.append_left_inj]

/-- The buffers are as long as the chunks. -/
theorem chunkBuffers_length {stale : ℕ → Str → Str}
    (hstale : ∀ i line, (stale i line).length = line.length) (i : ℕ) (outs : List Str) :
    List.Forall₂ (fun buffer data => buffer.length = data.length) (chunkBuffers stale i outs)
      (outs.map Chunked.chunk) := by
  rw [← chunkBuffers_intact i, chunkBuffers, chunkBuffers, List.forall₂_map_left_iff,
    List.forall₂_map_right_iff]
  refine List.forall₂_same.2 fun p _ => ?_
  simp only [List.length_append, hstale]

/-- What the two functions have sent when they return true. For `SendHttpHeader` it is the whole
header block exactly if one of the two writes fails or both are accepted whole. For
`handleGzipCompression` it is all chunks and the end exactly if the compressor or one of the
writes fails, or every write is accepted whole with the size lines intact. -/
theorem sendsAll_iff {A : Accepts} (hA : A.Bounded) (s : Socket) :
    (∀ msg : HttpMessage,
      ((sendHttpHeader A s msg).2 = true →
          (sendHttpHeader A s msg).1.sent = s.sent ++ msg.stringify) ↔
        A s.calls msg.stringifyFirstLine.length = none ∨
          A (s.calls + 1) (stringifyHeaders msg.headers).length = none ∨
          (A s.calls msg.stringifyFirstLine.length = some msg.stringifyFirstLine.length ∧
            A (s.calls + 1) (stringifyHeaders msg.headers).length =
              some (stringifyHeaders msg.headers).length)) ∧
    ∀ (Z : Zlib) (source : FileStream) (calls : List DeflateCall) (ret : Bool)
      (stale : ℕ → Str → Str), Compresses Z 0 source Z.init calls ret →
      (∀ i line, (stale i line).length = line.length) →
      let chunks := (blocks calls).map Chunked.chunk ++ [kChunkedEncodingEndingStr]
      ∃ N s' ok, (∀ fuel, N ≤ fuel →
          handleGzipCompression Z A stale fuel source s = some (s', ok)) ∧
        ((ok = true → s'.sent = s.sent ++ chunks.flatten) ↔
          ret = false ∨
            (∃ p ∈ (chunks.map List.length).zipIdx s.calls, A p.2 p.1 = none) ∨
            (LinesIntact stale s.calls (blocks calls) ∧
              ∀ p ∈ (chunks.map List.length).zipIdx s.calls, A p.2 p.1 = some p.1)) := by
  refine ⟨sendHttpHeader_sends_iff hA s, ?_⟩
  intro Z source calls ret stale hcomp hstale chunks
  obtain ⟨N, hrun⟩ := handleGzipCompression_eq hcomp A stale
  cases ret with
  | false =>
    simp only [Bool.false_eq_true, if_false] at hrun
    exact ⟨N, _, false, fun fuel hfuel => hrun fuel hfuel s, by simp⟩
  | true =>
    simp only [if_true] at hrun
    refine ⟨N, _, _, fun fuel hfuel => hrun fuel hfuel s, ?_⟩
    have hlen : List.Forall₂ (fun buffer data => buffer.length = data.length)
        (chunkBuffers stale s.calls (blocks calls) ++ [kChunkedEncodingEndingStr]) chunks :=
      List.rel_append (chunkBuffers_length hstale s.calls (blocks calls))
        (.cons rfl .nil)
    have hsends := Socket.writeEach_sends_iff hA s hlen
    rw [List.append_left_inj, chunkBuffers_eq_iff] at hsends
    simpa only [Bool.true_eq_false, false_or] using hsends

/-- On a socket that takes everything the file `a` is sent as its chunk and the end. -/
theorem sendsAll_iff_a :
    let chunks := [Chunked.chunk (HeldZlib.gzip (lit "a")), kChunkedEncodingEndingStr]
    ∃ N s' ok, (∀ fuel, N ≤ fuel →
        handleGzipCompression HeldZlib.zlib .all (fun _ line => line) fuel ⟨lit "a", none⟩ ⟨[], 0⟩ =
          some (s', ok)) ∧
      (ok = true → s'.sent = chunks.flatten) := by
  intro chunks
  have hall : Accepts.all.Bounded := fun _ n _ h => (Option.some.inj h).ge
  obtain ⟨N, s', ok, hrun, hiff⟩ := (sendsAll_iff hall ⟨[], 0⟩).2 HeldZlib.zlib _ _ _
    (fun _ line => line) compresses_a fun _ _ => rfl
  refine ⟨N, s', ok, hrun, hiff.2 (Or.inr (Or.inr ⟨fun _ _ => rfl, fun _ _ => rfl⟩))⟩

/-- A response whose first line is cut after one byte is sent without the rest of the line, and a
gzip body of the file `a` whose chunk is cut after one byte without the rest of the chunk. Both
calls return true. -/
theorem not_sendsAll_short_write :
    let A : Accepts := fun i n => some (if i = 0 then 1 else n)
    let msg : HttpMessage := .response { statusCode := 404 }
    sendHttpHeader A ⟨[], 0⟩ msg = (⟨lit "H\r\n", 2⟩, true) ∧ msg.stringify ≠ lit "H\r\n" ∧
      handleGzipCompression HeldZlib.zlib A (fun _ line => line) 2 ⟨lit "a", none⟩ ⟨[], 0⟩ =
        some (⟨lit "10\r\n\r\n", 2⟩, true) ∧
      Chunked.chunk (HeldZlib.gzip (lit "a")) ++ kChunkedEncodingEndingStr ≠
        lit "10\r\n\r\n" := by
  decide +kernel

end Azugate
