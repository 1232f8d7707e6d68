import Azugate.ChunkDecoder

/-!
# Chunked bodies through the decoder

The chunked bodies the gateway writes (`Chunked.chunk`, `Chunked.last`) go through
`phr_decode_chunked` and come out as their content. `decodeReads_chunks` says so for every way in
which such a body arrives, with anything behind it.

The guard of the decoder does not stop a body whose chunks have two bytes or more : before every
byte the coding takes up at most two and a half times the content and twenty bytes
(`overhead_le`). One byte a chunk would be too much.
-/

namespace Azugate

namespace Pico

open Chunked

/-! ## A chunk through the decoder -/

theorem decodeHex_digitChar : ∀ d < 16, decodeHex (digitChar d) = some d := by
  decide

/-- The value of a digit. -/
def hexDigitValue (c : UInt8) : ℕ :=
  (decodeHex c).getD 0

/-- A size read in a `size_t`. -/
theorem foldl_mod_sizeMod : ∀ (digits : Str) (n : ℕ),
    digits.foldl (fun n c => (n * 16 + hexDigitValue c) % sizeMod) (n % sizeMod) =
      digits.foldl (fun n c => 16 * n + hexDigitValue c) n % sizeMod
  | [], _ => rfl
  | c :: digits, n => by
    have hstep : (n % sizeMod * 16 + hexDigitValue c) % sizeMod =
        (16 * n + hexDigitValue c) % sizeMod := by
      rw [Nat.mul_comm 16 n, Nat.add_mod, Nat.mod_mul_mod, ← Nat.add_mod]
    rw [List.foldl_cons, List.foldl_cons, hstep, foldl_mod_sizeMod digits]

namespace ChunkedDecoder

/-- The decoder between two chunks. -/
structure Ready (d : ChunkedDecoder) : Prop where
  state : d.state = .inChunkSize
  bytesLeftInChunk : d.bytesLeftInChunk = 0
  hexCount : d.hexCount = 0

/-- The digits of a size. -/
theorem run_digits (rest : Str) : ∀ (digits : Str) (d : ChunkedDecoder),
    (∀ c ∈ digits, (decodeHex c).isSome) → d.state = .inChunkSize →
      d.hexCount + digits.length ≤ 16 →
      d.run (digits ++ rest) = run { d with
        bytesLeftInChunk :=
          digits.foldl (fun n c => (n * 16 + hexDigitValue c) % sizeMod) d.bytesLeftInChunk
        hexCount := d.hexCount + digits.length } rest
  | [], _, _, _, _ => rfl
  | c :: digits, d, hdigits, hstate, hcount => by
    rw [List.length_cons] at hcount
    obtain ⟨v, hv⟩ := Option.isSome_iff_exists.1 (hdigits c (by simp))
    have hfeed : d.feed c = .more { d with
        bytesLeftInChunk := (d.bytesLeftInChunk * 16 + hexDigitValue c) % sizeMod
        hexCount := d.hexCount + 1 } [] := by
      simp only [feed, hstate, hv, hexDigitValue, Option.getD_some]
      rw [if_neg (by omega)]
    have hrest := run_digits rest digits { d with
        bytesLeftInChunk := (d.bytesLeftInChunk * 16 + hexDigitValue c) % sizeMod
        hexCount := d.hexCount + 1 } (fun c hc => hdigits c (by simp [hc])) hstate
        (by dsimp only; omega)
    rw [List.cons_append, run_cons_more hfeed, hrest]
    simp only [Decoded.after_nil, List.foldl_cons, List.length_cons, Nat.add_assoc, Nat.add_comm 1]

/-- The line of a size, for a decoder that is ready. -/
theorem run_sizeLine {d : ChunkedDecoder} (hd : d.Ready) {n : ℕ} (hn : n < sizeMod) (rest : Str) :
    d.run (numeral 16 n ++ crlf ++ rest) =
      match endOfSizeLine { d with bytesLeftInChunk := n, state := .inChunkExt } with
      | some d' => d'.run rest
      | none => ⟨.complete, { d with bytesLeftInChunk := n, state := .inChunkExt }, [], rest⟩ := by
  have hlen : (numeral 16 n).length ≤ 16 :=
    (length_numeral_le_iff (by decide) n).2 (by simpa [sizeMod] using hn)
  have hpos := List.length_pos_of_ne_nil (numeral_ne_nil 16 n)
  have hhex : ∀ c ∈ numeral 16 n, (decodeHex c).isSome := by
    intro c hc
    obtain ⟨v, hv, rfl⟩ := mem_numeral (by decide) hc
    rw [decodeHex_digitChar v hv]
    rfl
  have hvalue : (numeral 16 n).foldl (fun n c => (n * 16 + hexDigitValue c) % sizeMod)
      d.bytesLeftInChunk = n := by
    have hread : ∀ v < 16, hexDigitValue (digitChar v) = v := fun v hv => by
      rw [hexDigitValue, decodeHex_digitChar v hv]
      rfl
    rw [hd.bytesLeftInChunk, ← Nat.zero_mod sizeMod, foldl_mod_sizeMod,
      foldl_numeral (by decide) hread, Nat.mod_eq_of_lt hn]
  have hcount : d.hexCount + (numeral 16 n).length ≠ 0 := by omega
  rw [List.append_assoc, run_digits _ _ d hhex hd.state (by rw [hd.hexCount]; omega), hvalue]
  -- the CR ends the size, the LF its line
  have hcr : feed { d with
      bytesLeftInChunk := n, hexCount := d.hexCount + (numeral 16 n).length } cr =
        .more { d with bytesLeftInChunk := n, state := .inChunkExt } [] := by
    have hends : decodeHex cr = none ∧ endsChunkSize cr = true ∧ cr ≠ lf := by decide
    obtain ⟨left, trailer, hexCount, state, r, o⟩ := d
    obtain ⟨rfl, rfl, rfl⟩ := hd
    simp only [feed, hends.1]
    rw [if_pos ⟨hcount, hends.2.1⟩, feedExt, if_neg hends.2.2]
  have hlf : feed { d with bytesLeftInChunk := n, state := .inChunkExt } lf =
      feedExt { d with bytesLeftInChunk := n, state := .inChunkExt } lf :=
    rfl
  show run _ (cr :: lf :: rest) = _
  rw [run_cons_more hcr, Decoded.after_nil, run, hlf, feedExt, if_pos rfl]
  cases endOfSizeLine { d with bytesLeftInChunk := n, state := .inChunkExt } with
  | some d' => rfl
  | none => rfl

/-- A chunk goes through, and the decoder is ready for the next. -/
theorem run_chunk {d : ChunkedDecoder} (hd : d.Ready) {data : Str} (hdata : data ≠ [])
    (hlen : data.length < sizeMod) (rest : Str) :
    d.run (chunk data ++ rest) = (d.run rest).after data := by
  have hpos := List.length_pos_of_ne_nil hdata
  have hline : endOfSizeLine { d with bytesLeftInChunk := data.length, state := .inChunkExt } =
      some { d with bytesLeftInChunk := data.length, state := .inChunkData } := by
    simp only [endOfSizeLine]
    rw [if_neg (by omega)]
  have htext : chunk data ++ rest =
      numeral 16 data.length ++ crlf ++ (data ++ (crlf ++ rest)) := by
    simp [chunk]
  have hends : cr ≠ lf := by decide
  have hready : ({ d with bytesLeftInChunk := 0, state := .inChunkSize } : ChunkedDecoder) = d := by
    rw [← hd.bytesLeftInChunk, ← hd.state]
  rw [htext, run_sizeLine hd hlen, hline]
  show run _ (data ++ (crlf ++ rest)) = _
  rw [run_chunkData _ _ _ hdata rfl rfl]
  show (run _ (cr :: lf :: rest)).after data = _
  have hcr : feed { d with bytesLeftInChunk := 0, state := .inChunkCrlf } cr =
      .more { d with bytesLeftInChunk := 0, state := .inChunkCrlf } [] := by
    simp [feed]
  have hlf : feed { d with bytesLeftInChunk := 0, state := .inChunkCrlf } lf = .more d [] := by
    simp [feed, hends.symm, hready]
  rw [run_cons_more hcr, run_cons_more hlf]
  rfl

theorem run_chunks {d : ChunkedDecoder} (hd : d.Ready) (rest : Str) : ∀ chunks : List Str,
    (∀ c ∈ chunks, c ≠ [] ∧ c.length < sizeMod) →
      d.run (chunks.flatMap chunk ++ rest) = (d.run rest).after chunks.flatten
  | [], _ => rfl
  | c :: chunks, h => by
    obtain ⟨hne, hlen⟩ := h c (by simp)
    rw [List.flatMap_cons, List.append_assoc, run_chunk hd hne hlen,
      run_chunks hd rest chunks fun c hc => h c (by simp [hc]), Decoded.after_after,
      List.flatten_cons]

/-- What the decoder leaves of the end of a body : without `consume_trailer` it does not take the
last line. -/
def behindLast (consumeTrailer : Bool) (more : Str) : Str :=
  if consumeTrailer then more else crlf ++ more

/-- The last chunk ends the coding. -/
theorem run_last {d : ChunkedDecoder} (hd : d.Ready) (more : Str) :
    (d.run (last ++ more)).exit = .complete ∧ (d.run (last ++ more)).out = [] ∧
      (d.run (last ++ more)).rest = behindLast d.consumeTrailer more := by
  have hends : cr ≠ lf := by decide
  have htext : last ++ more = numeral 16 0 ++ crlf ++ (crlf ++ more) := by
    rw [numeral_of_lt (by decide)]
    rfl
  rw [htext, run_sizeLine hd (by decide)]
  obtain ⟨left, trailer, hexCount, state, r, o⟩ := d
  cases trailer with
  | false => exact ⟨rfl, rfl, rfl⟩
  | true =>
    have hcr : feed ⟨0, true, hexCount, .inTrailersLineHead, r, o⟩ cr =
        .more ⟨0, true, hexCount, .inTrailersLineHead, r, o⟩ [] := by
      simp [feed]
    have hlf : feed ⟨0, true, hexCount, .inTrailersLineHead, r, o⟩ lf =
        .complete ⟨0, true, hexCount, .inTrailersLineHead, r, o⟩ := by
      simp [feed, hends.symm]
    have hrun : run ⟨0, true, hexCount, .inTrailersLineHead, r, o⟩ (cr :: lf :: more) =
        ⟨.complete, ⟨0, true, hexCount, .inTrailersLineHead, r, o⟩, [], more⟩ := by
      rw [run_cons_more hcr, run_cons_complete hlf]
      rfl
    show (run ⟨0, true, hexCount, .inTrailersLineHead, r, o⟩ (cr :: lf :: more)).exit = _ ∧ _
    exact ⟨congrArg Decoded.exit hrun, congrArg Decoded.out hrun, congrArg Decoded.rest hrun⟩

/-! ## The guard -/

/-- The bytes that the coding takes up do not get fewer. -/
theorem overhead_mono {d : ChunkedDecoder} (hvalid : d.Valid) {buf : Str}
    (h : (d.run buf).exit = .incomplete) (more : Str) :
    buf.length + (d.run (buf ++ more)).out.length ≤
      (buf ++ more).length + (d.run buf).out.length := by
  have hrest := length_out_run_le more (valid_run buf hvalid h).1
  rw [run_append, if_pos h]
  simp only [Decoded.after, List.length_append]
  omega

theorem Ready.valid {d : ChunkedDecoder} (hd : d.Ready) : d.Valid := by
  simp [Valid, hd.state]

theorem lt_pow_div_succ (n : ℕ) : n < 16 ^ (n / 16 + 1) := by
  have hdiv : n / 16 < 16 ^ (n / 16) := Nat.lt_pow_self (by decide)
  rw [pow_succ]
  omega

theorem two_mul_length_chunk_le {data : Str} (h : 2 ≤ data.length) :
    2 * (chunk data).length ≤ 7 * data.length := by
  have hdigits : (numeral 16 data.length).length ≤ data.length / 16 + 1 :=
    (length_numeral_le_iff (by decide) _).2 (lt_pow_div_succ data.length)
  simp only [chunk, crlf, List.length_append, List.length_cons, List.length_nil]
  omega

theorem length_chunk_le {data : Str} (h : data.length < sizeMod) :
    (chunk data).length ≤ data.length + 20 := by
  have hdigits : (numeral 16 data.length).length ≤ 16 :=
    (length_numeral_le_iff (by decide) _).2 (by simpa [sizeMod] using h)
  simp only [chunk, crlf, List.length_append, List.length_cons, List.length_nil]
  omega

/-- Where a body of chunks of two bytes or more has come to no end, the coding takes up at most two
and a half times the content and twenty bytes. -/
theorem overhead_le {d : ChunkedDecoder} (hd : d.Ready) {more post : Str} :
    ∀ (chunks : List Str), (∀ c ∈ chunks, 2 ≤ c.length ∧ c.length < sizeMod) → ∀ pre : Str,
      pre ++ post = chunks.flatMap chunk ++ (last ++ more) → (d.run pre).exit = .incomplete →
        2 * pre.length ≤ 7 * (d.run pre).out.length + 40
  | [], _, pre, hpre, hexit => by
    rw [List.flatMap_nil, List.nil_append] at hpre
    rcases List.append_eq_append_iff.1 hpre with ⟨s, hlast, -⟩ | ⟨s, rfl, -⟩
    · have hlen := congrArg List.length hlast
      simp only [last, crlf, List.length_cons, List.length_append, List.length_nil] at hlen
      omega
    · -- with the whole last chunk it would have ended
      rw [(run_last hd s).1] at hexit
      cases hexit
  | c :: chunks, h, pre, hpre, hexit => by
    obtain ⟨htwo, hlen⟩ := h c (by simp)
    have hne : c ≠ [] := List.ne_nil_of_length_pos (by omega)
    rw [List.flatMap_cons, List.append_assoc] at hpre
    rcases List.append_eq_append_iff.1 hpre with ⟨s, hchunk, -⟩ | ⟨s, rfl, hrest⟩
    · -- within the chunk : not more than its whole coding
      have hmono := overhead_mono hd.valid hexit s
      have hout : (d.run (chunk c)).out = c := by
        have hrun := run_chunk hd hne hlen []
        rw [List.append_nil] at hrun
        rw [hrun]
        simp [run, Decoded.after]
      rw [← hchunk, hout] at hmono
      have hle := length_chunk_le hlen
      omega
    · rw [run_chunk hd hne hlen] at hexit ⊢
      have ih := overhead_le hd chunks (fun c hc => h c (by simp [hc])) s hrest.symm hexit
      have hle := two_mul_length_chunk_le htwo
      simp only [Decoded.after, List.length_append]
      omega

end ChunkedDecoder

open ChunkedDecoder

theorem ready_zero (consumeTrailer : Bool) : (zero consumeTrailer).Ready :=
  ⟨rfl, rfl, rfl⟩

/-- So the guard stops no such body. -/
theorem withinOverhead_of_chunks (consumeTrailer : Bool) {chunks pieces : List Str} {more : Str}
    (hchunks : ∀ c ∈ chunks, 2 ≤ c.length ∧ c.length < sizeMod)
    (hpieces : pieces.flatten = chunks.flatMap chunk ++ (last ++ more))
    (hlen : pieces.flatten.length < sizeMod) : WithinOverhead (zero consumeTrailer) pieces := by
  rintro pre post rfl - - hexit
  rw [List.flatten_append] at hpieces hlen
  rw [List.length_append] at hlen
  have hle := overhead_le (ready_zero consumeTrailer) chunks hchunks _ hpieces hexit
  have hout := length_out_run_le pre.flatten (ready_zero consumeTrailer).valid
  generalize hrun : (run (zero consumeTrailer) pre.flatten).out.length = out at hle hout
  have hread : ((zero consumeTrailer).counted pre.flatten).totalRead = pre.flatten.length := by
    show (0 + pre.flatten.length) % sizeMod = _
    rw [Nat.zero_add, Nat.mod_eq_of_lt (by omega)]
  have hoverhead : ((zero consumeTrailer).counted pre.flatten).totalOverhead =
      pre.flatten.length - out := by
    show (0 + (pre.flatten.length - _)) % sizeMod = _
    rw [Nat.zero_add, hrun, Nat.mod_eq_of_lt (by omega)]
  have hcontent : (pre.flatten.length + sizeMod - (pre.flatten.length - out)) % sizeMod = out := by
    rw [show pre.flatten.length + sizeMod - (pre.flatten.length - out) = out + sizeMod by omega,
      Nat.add_mod_right, Nat.mod_eq_of_lt (by omega)]
  rw [overheadExceeded, hread, hoverhead, hcontent, Bool.and_eq_false_iff, decide_eq_false_iff_not,
    decide_eq_false_iff_not]
  omega

theorem length_le_of_mem_chunks {chunks : List Str} {c : Str} (hc : c ∈ chunks) (more : Str) :
    c.length ≤ (chunks.flatMap chunk ++ more).length := by
  have hsub : List.Sublist (chunk c) (chunks.flatMap chunk) :=
    List.sublist_flatten_of_mem (List.mem_map_of_mem hc)
  have hle := hsub.length_le
  simp only [chunk, List.length_append] at hle ⊢
  omega

/-- A chunked body in one call, with anything behind it. -/
theorem phrDecodeChunked_chunks (consumeTrailer : Bool) {chunks : List Str}
    (hchunks : ∀ c ∈ chunks, c ≠ [] ∧ c.length < sizeMod) (more : Str) :
    ∃ d, phrDecodeChunked (zero consumeTrailer) (chunks.flatMap chunk ++ (last ++ more)) =
      some ⟨(behindLast consumeTrailer more).length, d, chunks.flatten,
        behindLast consumeTrailer more⟩ := by
  have hready := ready_zero consumeTrailer
  obtain ⟨d, hcall, -⟩ := phrDecodeChunked_eq hready.valid (chunks.flatMap chunk ++ (last ++ more))
  obtain ⟨hexit, hout, hrest⟩ := run_last hready more
  have hrun := run_chunks hready (last ++ more) chunks hchunks
  have hend : (run (zero consumeTrailer) (chunks.flatMap chunk ++ (last ++ more))).exit =
      .complete := by
    rw [hrun]
    exact hexit
  refine ⟨d, ?_⟩
  rw [hcall, ChunkedDecoder.ret, hend, hrun]
  simp only [Decoded.after, hout, hrest, List.append_nil]
  rfl

/-- A chunked body comes out as its content, however it arrives : the decoder hands over the bytes
of the chunks and stops behind the last one, before anything that follows. -/
theorem decodeReads_chunks (consumeTrailer : Bool) (chunks pieces : List Str) (more : Str)
    (hchunks : ∀ c ∈ chunks, 2 ≤ c.length)
    (hpieces : pieces.flatten = chunks.flatMap chunk ++ (last ++ more))
    (hlen : pieces.flatten.length < sizeMod) :
    ∃ r unread, decodeReads (zero consumeTrailer) pieces = some (r, unread) ∧
      r.ret = r.rest.length ∧ r.out = chunks.flatten ∧
      r.rest ++ unread.flatten = behindLast consumeTrailer more := by
  have hsizes : ∀ c ∈ chunks, 2 ≤ c.length ∧ c.length < sizeMod :=
    fun c hc => ⟨hchunks c hc, (length_le_of_mem_chunks hc _).trans_lt (hpieces ▸ hlen)⟩
  have hne : pieces ≠ [] := by
    rintro rfl
    simp [last] at hpieces
  obtain ⟨r, w, unread, hreads, hcall, hout, hrest, hret⟩ := decodeReads_eq_call pieces _
    (ready_zero consumeTrailer).valid hne
    (withinOverhead_of_chunks consumeTrailer hsizes hpieces hlen)
  -- the call with all the bytes
  obtain ⟨d, hwhole⟩ := phrDecodeChunked_chunks consumeTrailer
    (fun c hc => ⟨List.ne_nil_of_length_pos (by have := hsizes c hc; omega), (hsizes c hc).2⟩) more
  rw [hpieces] at hcall
  obtain rfl := Option.some.inj (hwhole.symm.trans hcall)
  dsimp only at hout hrest hret
  refine ⟨r, unread, hreads, ?_, hout.symm, hrest.symm⟩
  rw [hrest, List.length_append] at hret
  split_ifs at hret <;> omega

/-- Two chunks, cut within a size and within the last chunk, and the start of what follows. -/
theorem decodeReads_chunks_two_chunks :
    let chunks := [lit "hello, world!!!!!!", lit "ok"]
    let pieces := [lit "1", lit "2\r\nhello, world!!!!!!\r\n2\r\nok\r\n0", lit "\r\n\r\nGET",
      lit " /"]
    (∀ c ∈ chunks, 2 ≤ c.length) ∧
      pieces.flatten = chunks.flatMap chunk ++ (last ++ lit "GET /") ∧
      ∃ r unread, decodeReads (zero true) pieces = some (r, unread) ∧
        r.ret = r.rest.length ∧ r.out = chunks.flatten ∧
        r.rest ++ unread.flatten = lit "GET /" := by
  intro chunks pieces
  have hchunks : ∀ c ∈ chunks, 2 ≤ c.length := by decide +kernel
  have hpieces : pieces.flatten = chunks.flatMap chunk ++ (last ++ lit "GET /") := by
    decide +kernel
  exact ⟨hchunks, hpieces, decodeReads_chunks true chunks pieces _ hchunks hpieces
    (by decide +kernel)⟩

end Pico

end Azugate
