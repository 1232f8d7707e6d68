import Azugate.GzipBody
import Azugate.Server

/-!
# Serving a local file

`handleLocalFileRequest` writes a response header and then the file. The header declares a
chunked body in the negotiated encoding, or a body of the file's size. The body is chosen in
`compressAndWriteBody`, by a `switch` of its own over the same compression type.

`declaredBody` is what a client reads off the header lines, and `SendsDeclaredBody` says that
the bytes after the header are such a body and hold the file. `sendsDeclaredBody_iff` says when
they are : the negotiation can settle on brotli, for which the header is written and no body,
and with gzip the size lines are read from memory that is not theirs any more.

A plain socket takes the file by one call of `sendfile`, whose count is not looked at, and with TLS
it is written block by block (`handleNoCompression_sends_iff`).
-/

namespace Azugate

/-! ## The body -/

/-- A regular file : its bytes, whether it can be opened, and after how many bytes the device
fails. -/
structure FileOnDisk where
  content : Str
  opens : Bool
  badAfter : Option ℕ
  deriving DecidableEq, Repr

/-- A stream on the file. -/
def FileOnDisk.stream (f : FileOnDisk) : FileStream :=
  ⟨f.content, f.badAfter⟩

/-- The client's connection : how it answers `write_some`, and `sendfile` of so many bytes, and
what the memory of a destroyed size line holds. -/
structure ClientConnection where
  isSsl : Bool
  accepts : Accepts
  sendfile : ℕ → Option ℕ
  stale : ℕ → Str → Str

/-- A connection on which every call completes in full. -/
def ClientConnection.willing (isSsl : Bool) (stale : ℕ → Str → Str) : ClientConnection :=
  ⟨isSsl, .all, some, stale⟩

/-- The loop of `handleNoCompression` over blocks of the size of `header_buf`. -/
def sendBlocks (A : Accepts) : ℕ → FileStream → Socket → Option (Socket × Bool)
  | 0, _, _ => none
  | fuel + 1, source, s =>
    let (r, source) := source.read kMaxHttpHeaderSize
    if 0 < r.bytes.length then
      let (s, ok) := s.write A r.bytes.length r.bytes
      if !ok then some (s, false)
      else if r.eof then some (s, true) else sendBlocks A fuel source s
    else if r.bad then some (s, false)
    else if r.eof then some (s, true) else sendBlocks A fuel source s

/-- `handleNoCompression`. A plain socket takes the file by one `sendfile`. -/
def handleNoCompression (C : ClientConnection) (fuel : ℕ) (f : FileOnDisk) (localFileSize : ℕ)
    (s : Socket) : Option (Socket × Bool) :=
  if !C.isSsl then
    if !f.opens then some (s, false)
    else
      match C.sendfile localFileSize with
      | none => some (s, false)
      | some n => some (⟨s.sent ++ f.content.take n, s.calls⟩, true)
  else if !f.opens then some (s, false)
  else sendBlocks C.accepts fuel f.stream s

/-- `compressAndWriteBody`. -/
def compressAndWriteBody (Z : Zlib) (C : ClientConnection) (fuel : ℕ) (f : FileOnDisk)
    (localFileSize : ℕ) (compressionType : CompressionType) (s : Socket) :
    Option (Socket × Bool) :=
  if compressionType.code = CompressionType.gzip.code then
    if !f.opens then some (s, false)
    else handleGzipCompression Z C.accepts C.stale fuel f.stream s
  else if compressionType.code = CompressionType.brotli.code then some (s, false)
  else if compressionType.code = (CompressionType.ofName "zstd").code then some (s, false)
  else if compressionType.code = (CompressionType.ofName "deflate").code then some (s, false)
  else handleNoCompression C fuel f localFileSize s

/-! ## The response -/

/-- The response of `handleLocalFileRequest`. -/
def localFileResponse (targetUrl : Str) (compressionType : CompressionType)
    (localFileSize : ℕ) : HttpResponse :=
  let headers := setContentType [] (getContentTypeFromSuffix (findFileExtension targetUrl))
  let headers := setKeepAlive headers false
  { statusCode := 200
    headers :=
      if compressionType.code ≠ CompressionType.none.code then
        setTransferEncoding (setContentEncoding headers compressionType.str) (lit "chunked")
      else setContentLength headers localFileSize }

/-- What `handleLocalFileRequest` has done to the client's socket. -/
structure ServedFile where
  headerSent : Bool
  bodySent : Bool
  /-- The bytes sent by `SendHttpHeader`. -/
  header : Str
  /-- The bytes sent after them. -/
  body : Str
  deriving DecidableEq, Repr

/-- `handleLocalFileRequest`, on a file that exists. -/
def serveLocalFile (Z : Zlib) (C : ClientConnection) (fuel : ℕ) (targetUrl : Str)
    (compressionType : CompressionType) (f : FileOnDisk) : Option ServedFile :=
  let resp := localFileResponse targetUrl compressionType f.content.length
  match sendHttpHeader C.accepts ⟨[], 0⟩ (.response resp) with
  | (s, false) => some ⟨false, false, s.sent, []⟩
  | (s, true) =>
    (compressAndWriteBody Z C fuel f f.content.length compressionType s).map
      fun (s', ok) => ⟨true, ok, s.sent, s'.sent.drop s.sent.length⟩

/-- The run as the server sees it. -/
theorem handleLocalFileRequest_of_serveLocalFile {Z : Zlib} {C : ClientConnection} {fuel : ℕ}
    {targetUrl : Str} {compressionType : CompressionType} {f : FileOnDisk} {run : ServedFile}
    (h : serveLocalFile Z C fuel targetUrl compressionType f = some run) :
    handleLocalFileRequest ⟨true, run.headerSent, run.bodySent⟩ =
      ⟨run.headerSent, run.bodySent, 1⟩ := by
  simp only [serveLocalFile] at h
  split at h
  · obtain rfl := Option.some.inj h
    rfl
  · obtain ⟨⟨s', ok⟩, -, rfl⟩ := Option.map_eq_some_iff.1 h
    rfl

/-! ## What the header declares -/

/-- The name on a header line, in lower case. -/
def headerName (line : Str) : Str :=
  toLower (line.takeWhile (· != colon))

/-- The value on a header line. -/
def headerValue (line : Str) : Str :=
  ((line.dropWhile (· != colon)).drop 1).dropWhile (· == space)

/-- The value of the first line with the name. -/
def field (name : Str) (headers : List Str) : Option Str :=
  (headers.find? fun line => headerName line == name).map headerValue

/-- The kinds of body a header declares. -/
inductive BodyKind where
  | chunked (contentEncoding : Str)
  | sized (n : ℕ)
  deriving DecidableEq, Repr

/-- The body the header lines declare. -/
def declaredBody (headers : List Str) : Option BodyKind :=
  if field (lit "transfer-encoding") headers = some (lit "chunked") then
    some (.chunked ((field (lit "content-encoding") headers).getD []))
  else (field (lit "content-length") headers).map fun value => .sized (decimal value)

/-- The bytes are a body of the kind and hold `content`, with `decoders` the decoder of each
content encoding. -/
def BodyKind.Holds (decoders : Str → Str → Option Str) (body content : Str) : BodyKind → Prop
  | .chunked contentEncoding => ∃ payload, Chunked.decode body = some payload ∧
      decoders contentEncoding payload = some content
  | .sized n => body.length = n ∧ body = content

/-- On a connection on which every call completes in full, `handleLocalFileRequest` ends, it has
sent the header of its response, and the bytes after it are a body of the declared kind that
holds the file. -/
def SendsDeclaredBody (Z : Zlib) (decoders : Str → Str → Option Str) (stale : ℕ → Str → Str)
    (isSsl : Bool) (targetUrl : Str) (compressionType : CompressionType) (f : FileOnDisk) : Prop :=
  let resp := localFileResponse targetUrl compressionType f.content.length
  ∃ N, ∀ fuel, N ≤ fuel → ∃ run kind,
    serveLocalFile Z (.willing isSsl stale) fuel targetUrl compressionType f = some run ∧
      run.headerSent = true ∧
      run.header = resp.stringifyFirstLine ++ stringifyHeaders resp.headers ∧
      declaredBody resp.headers = some kind ∧ kind.Holds decoders run.body f.content

theorem decimal_numeral (n : ℕ) : decimal (numeral 10 n) = n :=
  foldl_numeral (by decide) (by decide) n

theorem declaredBody_gzip (targetUrl : Str) (n : ℕ) :
    declaredBody (localFileResponse targetUrl .gzip n).headers = some (.chunked (lit "gzip")) :=
  rfl

theorem declaredBody_brotli (targetUrl : Str) (n : ℕ) :
    declaredBody (localFileResponse targetUrl .brotli n).headers =
      some (.chunked (lit "brotli")) :=
  rfl

/-- The length is read back from its line. -/
theorem declaredBody_none (targetUrl : Str) (n : ℕ) :
    declaredBody (localFileResponse targetUrl .none n).headers = some (.sized n) := by
  have hvalue : (numeral 10 n).dropWhile (· == space) = numeral 10 n := by
    rw [List.dropWhile_eq_self_iff]
    intro hl
    obtain ⟨d, hd, hc⟩ := mem_numeral (by decide) (List.getElem_mem hl)
    have hspace : ∀ d < 10, digitChar d ≠ space := by decide
    simpa [hc] using hspace d hd
  have hread : declaredBody (localFileResponse targetUrl .none n).headers =
      some (.sized (decimal ((numeral 10 n).dropWhile (· == space)))) := rfl
  rw [hread, hvalue, decimal_numeral]

/-! ## The body in full -/

theorem FileStream.rest_ne_nil {source : FileStream} (h : source.readable = false) :
    source.rest ≠ [] := by
  rintro hnil
  simp [FileStream.readable, hnil] at h

/-- One pass of the loop over blocks, on a block that is not empty. -/
theorem sendBlocks_block {A : Accepts} {source source' : FileStream} {bytes : Str} {eof : Bool}
    (hread : source.read kMaxHttpHeaderSize = (⟨bytes, eof, false⟩, source')) (hne : bytes ≠ [])
    {s s' : Socket} {ok : Bool} (hwrite : s.write A bytes.length bytes = (s', ok)) (fuel : ℕ) :
    sendBlocks A (fuel + 1) source s =
      if !ok then some (s', false)
      else if eof then some (s', true) else sendBlocks A fuel source' s' := by
  simp only [sendBlocks, hread, hwrite, if_pos (List.length_pos_iff.2 hne)]

/-- The loop over blocks ends. If it returns true, the file could be read and was sent, however
the socket cuts the writes. With writes that complete in full it fails only on a file that cannot
be read, after less than the file. -/
theorem sendBlocks_ends (A : Accepts) (source : FileStream) (s : Socket) :
    ∃ N s' ok, (∀ fuel, N ≤ fuel → sendBlocks A fuel source s = some (s', ok)) ∧
      (ok = true → source.readable = true ∧ s'.sent = s.sent ++ source.rest) ∧
      (ok = false → A = .all → source.readable = false ∧
        ∃ part, s'.sent = s.sent ++ part ∧ part.length < source.rest.length) := by
  -- every read but the last shortens the file
  induction hn : source.rest.length using Nat.strong_induction_on generalizing source s with
  | _ n ih =>
    rcases source.read_cases kMaxHttpHeaderSize with
      ⟨hbad, hread⟩ | ⟨hgood, -, source', hread⟩ | ⟨source', hread, hrest, hlong, hsame⟩
    · refine ⟨1, s, false, fun fuel hfuel => ?_, by simp, fun _ _ => ⟨hbad, [], by simp, ?_⟩⟩
      · obtain ⟨fuel, rfl⟩ := Nat.exists_eq_add_of_le' hfuel
        simp [sendBlocks, hread]
      · exact hn ▸ List.length_pos_iff.2 (FileStream.rest_ne_nil hbad)
    · by_cases hnil : source.rest = []
      · refine ⟨1, s, true, fun fuel hfuel => ?_, fun _ => ⟨hgood, by simp [hnil]⟩, by simp⟩
        obtain ⟨fuel, rfl⟩ := Nat.exists_eq_add_of_le' hfuel
        simp [sendBlocks, hread, hnil]
      · obtain ⟨s', ⟨hwrite, hsent⟩ | ⟨hwrite, hpart⟩⟩ := s.write_cases A hnil
        · refine ⟨1, s', true, fun fuel hfuel => ?_, fun _ => ⟨hgood, hsent⟩, by simp⟩
          obtain ⟨fuel, rfl⟩ := Nat.exists_eq_add_of_le' hfuel
          exact sendBlocks_block hread hnil hwrite fuel
        · refine ⟨1, s', false, fun fuel hfuel => ?_, by simp, fun _ hall => absurd hall hpart⟩
          obtain ⟨fuel, rfl⟩ := Nat.exists_eq_add_of_le' hfuel
          exact sendBlocks_block hread hnil hwrite fuel
    · have hpos : 0 < kMaxHttpHeaderSize := by decide
      have hne : source.rest.take kMaxHttpHeaderSize ≠ [] := by
        rw [ne_eq, List.take_eq_nil_iff, not_or]
        exact ⟨hpos.ne', List.length_pos_iff.1 (by omega)⟩
      have hlen : source'.rest.length = source.rest.length - kMaxHttpHeaderSize := by
        rw [hrest, List.length_drop]
      obtain ⟨s', ⟨hwrite, hsent⟩ | ⟨hwrite, hpart⟩⟩ := s.write_cases A hne
      · obtain ⟨N, s'', ok, hrun, hwhole, hpart⟩ := ih source'.rest.length (by omega) source' s' rfl
        refine ⟨N + 1, s'', ok, fun fuel hfuel => ?_, fun hok => ?_, fun hok hall => ?_⟩
        · obtain ⟨fuel, rfl⟩ := Nat.exists_eq_add_of_le' hfuel
          rw [← hrun (fuel + N) (by omega)]
          exact sendBlocks_block hread hne hwrite (fuel + N)
        · obtain ⟨hgood, hall⟩ := hwhole hok
          refine ⟨hsame ▸ hgood, ?_⟩
          rw [hall, hsent, hrest, List.append_assoc, List.take_append_drop]
        · obtain ⟨hbad, part, hpart, hless⟩ := hpart hok hall
          refine ⟨hsame ▸ hbad, source.rest.take kMaxHttpHeaderSize ++ part, ?_, ?_⟩
          · rw [hpart, hsent, List.append_assoc]
          · rw [List.length_append, List.length_take]
            omega
      · refine ⟨1, s', false, fun fuel hfuel => ?_, by simp, fun _ hall => absurd hall hpart⟩
        obtain ⟨fuel, rfl⟩ := Nat.exists_eq_add_of_le' hfuel
        exact sendBlocks_block hread hne hwrite fuel

/-- With writes that complete in full it has sent the file if it could be read, and less
otherwise. -/
theorem sendBlocks_spec (source : FileStream) (s : Socket) :
    ∃ N s', (∀ fuel, N ≤ fuel → sendBlocks .all fuel source s = some (s', source.readable)) ∧
      (source.readable = true → s'.sent = s.sent ++ source.rest) ∧
      (source.readable = false → ∃ part, s'.sent = s.sent ++ part ∧
        part.length < source.rest.length) := by
  obtain ⟨N, s', ok, hrun, hwhole, hpart⟩ := sendBlocks_ends .all source s
  cases ok with
  | true =>
    obtain ⟨hgood, hsent⟩ := hwhole rfl
    exact ⟨N, s', by simpa [hgood] using hrun, fun _ => hsent, by simp [hgood]⟩
  | false =>
    obtain ⟨hbad, hless⟩ := hpart rfl rfl
    exact ⟨N, s', by simpa [hbad] using hrun, by simp [hbad], fun _ => hless⟩

/-- On a plain socket, what `handleNoCompression` has sent when it returns true is the whole file
exactly if the file does not open, `sendfile` fails, or its one call sends as much as it is asked
to. With TLS it is the whole file however the socket cuts the writes. -/
theorem handleNoCompression_sends_iff (accepts : Accepts) (sendfile : ℕ → Option ℕ)
    (stale : ℕ → Str → Str) (f : FileOnDisk) (s : Socket)
    (hcount : ∀ n, sendfile f.content.length = some n → n ≤ f.content.length) :
    (∃ s' ok, (∀ fuel, handleNoCompression ⟨false, accepts, sendfile, stale⟩ fuel f
          f.content.length s = some (s', ok)) ∧
        ((ok = true → s'.sent = s.sent ++ f.content) ↔
          f.opens = false ∨ sendfile f.content.length = none ∨
            sendfile f.content.length = some f.content.length)) ∧
      ∃ N s' ok, (∀ fuel, N ≤ fuel → handleNoCompression ⟨true, accepts, sendfile, stale⟩ fuel f
          f.content.length s = some (s', ok)) ∧
        (ok = true → s'.sent = s.sent ++ f.content) := by
  cases hopens : f.opens with
  | false =>
    refine ⟨⟨s, false, fun fuel => ?_, by simp⟩, 0, s, false, fun fuel _ => ?_, by simp⟩
    · simp [handleNoCompression, hopens]
    · simp [handleNoCompression, hopens]
  | true =>
    constructor
    · cases hsend : sendfile f.content.length with
      | none =>
        refine ⟨s, false, fun fuel => ?_, by simp⟩
        simp [handleNoCompression, hopens, hsend]
      | some n =>
        refine ⟨⟨s.sent ++ f.content.take n, s.calls⟩, true, fun fuel => ?_, ?_⟩
        · simp [handleNoCompression, hopens, hsend]
        · have hle := hcount n hsend
          simp only [List.append_cancel_left_eq, List.take_eq_self_iff, Option.some.injEq]
          constructor
          · intro h
            exact Or.inr (Or.inr (le_antisymm hle (h trivial)))
          · rintro (h | h | h) -
            · exact absurd h (by decide)
            · exact absurd h (by simp)
            · exact h.ge
    · obtain ⟨N, s', ok, hrun, hwhole, -⟩ := sendBlocks_ends accepts f.stream s
      refine ⟨N, s', ok, fun fuel hfuel => ?_, fun hok => (hwhole hok).2⟩
      rw [← hrun fuel hfuel]
      simp [handleNoCompression, hopens]

/-- A file of two bytes, by a `sendfile` that sends both. -/
theorem handleNoCompression_sends_iff_two :
    let f : FileOnDisk := ⟨lit "ab", true, none⟩
    (∀ n, some f.content.length = some n → n ≤ f.content.length) ∧
      ∃ s' ok, (∀ fuel, handleNoCompression ⟨false, .all, some, fun _ line => line⟩ fuel f 2
          ⟨[], 0⟩ = some (s', ok)) ∧ (ok = true → s'.sent = lit "ab") := by
  intro f
  have hcount : ∀ n, some f.content.length = some n → n ≤ f.content.length :=
    fun n h => (Option.some.inj h).ge
  refine ⟨hcount, ?_⟩
  obtain ⟨⟨s', ok, hrun, hiff⟩, -⟩ :=
    handleNoCompression_sends_iff .all some (fun _ line => line) f ⟨[], 0⟩ hcount
  exact ⟨s', ok, hrun, hiff.2 (Or.inr (Or.inr rfl))⟩

/-- A `sendfile` that sends one byte of two : the body is shorter than the header has announced,
and `handleNoCompression` returns true. -/
theorem not_handleNoCompression_sends_short :
    let f : FileOnDisk := ⟨lit "ab", true, none⟩
    let C : ClientConnection := ⟨false, .all, fun _ => some 1, fun _ line => line⟩
    handleNoCompression C 1 f f.content.length ⟨[], 0⟩ = some (⟨lit "a", 0⟩, true) ∧
      declaredBody (localFileResponse (lit "/a") .none f.content.length).headers =
        some (.sized 2) := by
  decide +kernel

/-- The file can be sent as it is : it is empty, or it opens and, with TLS, can be read. -/
def SentAsIs (isSsl : Bool) (f : FileOnDisk) : Prop :=
  f.content = [] ∨ (f.opens = true ∧ (isSsl = true → f.stream.readable = true))

/-- From the socket `s`, `compressAndWriteBody` ends and has written `body`. -/
def WritesBody (Z : Zlib) (C : ClientConnection) (compressionType : CompressionType)
    (f : FileOnDisk) (s : Socket) (body : Str) : Prop :=
  ∃ N ok, ∀ fuel, N ≤ fuel → ∃ s',
    compressAndWriteBody Z C fuel f f.content.length compressionType s = some (s', ok) ∧
      s'.sent = s.sent ++ body

section Serve

variable {Z : Zlib} {decoders : Str → Str → Option Str} {stale : ℕ → Str → Str} {isSsl : Bool}
  {targetUrl : Str} {compressionType : CompressionType} {f : FileOnDisk}

/-- The socket after the header. -/
def afterHeader (targetUrl : Str) (compressionType : CompressionType) (f : FileOnDisk) : Socket :=
  let resp := localFileResponse targetUrl compressionType f.content.length
  ⟨resp.stringifyFirstLine ++ stringifyHeaders resp.headers, 2⟩

theorem serveLocalFile_willing (fuel : ℕ) :
    serveLocalFile Z (.willing isSsl stale) fuel targetUrl compressionType f =
      (compressAndWriteBody Z (.willing isSsl stale) fuel f f.content.length compressionType
        (afterHeader targetUrl compressionType f)).map fun (s', ok) =>
          ⟨true, ok, (afterHeader targetUrl compressionType f).sent,
            s'.sent.drop (afterHeader targetUrl compressionType f).sent.length⟩ := by
  simp [serveLocalFile, sendHttpHeader, ClientConnection.willing, afterHeader,
    HttpMessage.stringifyFirstLine, HttpMessage.headers]

/-- Once it is known what body is written, it is the declared one or not. -/
theorem sendsDeclaredBody_iff_holds {kind : BodyKind} {body : Str}
    (hkind : declaredBody (localFileResponse targetUrl compressionType f.content.length).headers =
      some kind)
    (hbody : WritesBody Z (.willing isSsl stale) compressionType f
      (afterHeader targetUrl compressionType f) body) :
    SendsDeclaredBody Z decoders stale isSsl targetUrl compressionType f ↔
      kind.Holds decoders body f.content := by
  obtain ⟨N, ok, hrun⟩ := hbody
  have hserve : ∀ fuel, N ≤ fuel →
      serveLocalFile Z (.willing isSsl stale) fuel targetUrl compressionType f =
        some ⟨true, ok, (afterHeader targetUrl compressionType f).sent, body⟩ := by
    intro fuel hfuel
    obtain ⟨s', hs', hsent⟩ := hrun fuel hfuel
    rw [serveLocalFile_willing, hs']
    simp [hsent]
  constructor
  · rintro ⟨N', hall⟩
    obtain ⟨run, kind', hrun', -, -, hkind', hholds⟩ := hall (max N N') (le_max_right N N')
    rw [hserve _ (le_max_left N N')] at hrun'
    obtain rfl := Option.some.inj hrun'
    obtain rfl := Option.some.inj (hkind.symm.trans hkind')
    exact hholds
  · intro hholds
    exact ⟨N, fun fuel hfuel => ⟨_, kind, hserve fuel hfuel, rfl, rfl, hkind, hholds⟩⟩

/-- Brotli : the header is followed by nothing. -/
theorem not_sendsDeclaredBody_brotli :
    ¬SendsDeclaredBody Z decoders stale isSsl targetUrl .brotli f := by
  have hbody : WritesBody Z (.willing isSsl stale) .brotli f (afterHeader targetUrl .brotli f) [] :=
    ⟨0, false, fun fuel _ => ⟨_, rfl, (List.append_nil _).symm⟩⟩
  rw [sendsDeclaredBody_iff_holds (declaredBody_brotli targetUrl _) hbody]
  rintro ⟨payload, hdecode, -⟩
  exact absurd hdecode (by simp [Chunked.decode, Chunked.decodeChunks])

/-- Without compression the body is the file, unless the file does not open, or with TLS cannot
be read. -/
theorem writesBody_none (s : Socket) :
    ∃ body, WritesBody Z (.willing isSsl stale) .none f s body ∧
      (body = f.content ↔ SentAsIs isSsl f) := by
  have hwrite : ∀ fuel, compressAndWriteBody Z (.willing isSsl stale) fuel f f.content.length
      .none s = handleNoCompression (.willing isSsl stale) fuel f f.content.length s :=
    fun _ => rfl
  unfold SentAsIs
  cases hopens : f.opens with
  | false =>
    refine ⟨[], ⟨0, false, fun fuel _ => ⟨s, ?_, (List.append_nil _).symm⟩⟩, ?_⟩
    · simp [hwrite, handleNoCompression, hopens]
    · simp only [Bool.false_eq_true, false_and, or_false]
      exact eq_comm
  | true =>
    cases isSsl with
    | false =>
      refine ⟨f.content, ⟨0, true, fun fuel _ => ⟨⟨s.sent ++ f.content, s.calls⟩, ?_, rfl⟩⟩, ?_⟩
      · rw [hwrite]
        simp [handleNoCompression, hopens, ClientConnection.willing]
      · simp
    | true =>
      obtain ⟨N, s', hrun, hwhole, hpart⟩ := sendBlocks_spec f.stream s
      have hblocks : ∀ fuel, N ≤ fuel → compressAndWriteBody Z (.willing true stale) fuel f
          f.content.length .none s = some (s', f.stream.readable) := by
        intro fuel hfuel
        rw [← hrun fuel hfuel, hwrite]
        simp [handleNoCompression, hopens, ClientConnection.willing]
      cases hreadable : f.stream.readable with
      | true =>
        refine ⟨f.content, ⟨N, true, fun fuel hfuel => ⟨s', ?_, hwhole hreadable⟩⟩, by simp⟩
        rw [hblocks fuel hfuel, hreadable]
      | false =>
        obtain ⟨part, hsent, hlen⟩ := hpart hreadable
        refine ⟨part, ⟨N, false, fun fuel hfuel => ⟨s', ?_, hsent⟩⟩, ?_⟩
        · rw [hblocks fuel hfuel, hreadable]
        · have hne : part ≠ f.content := fun heq => absurd hlen (by rw [heq]; exact lt_irrefl _)
          have hcontent : f.content ≠ [] := FileStream.rest_ne_nil hreadable
          simp [hne, hcontent]

theorem sendsDeclaredBody_none_iff :
    SendsDeclaredBody Z decoders stale isSsl targetUrl .none f ↔ SentAsIs isSsl f := by
  obtain ⟨body, hbody, hiff⟩ := writesBody_none (afterHeader targetUrl .none f)
  rw [sendsDeclaredBody_iff_holds (declaredBody_none targetUrl _) hbody, ← hiff]
  exact ⟨fun h => h.2, fun h => ⟨by rw [h], h⟩⟩

variable (isSsl f) in
/-- With gzip the body is a list of chunks, whose size lines are as `g` leaves them, and the end
if the file opens and can be read. -/
theorem writesBody_gzip (L : Z.Lawful (decoders (lit "gzip"))) (g : Str → Str) (s : Socket) :
    ∃ outs : List Str, (∀ out ∈ outs, out ≠ []) ∧
      WritesBody Z (.willing isSsl fun _ => g) .gzip f s
        ((outs.flatMap fun out => g (numeral 16 out.length ++ kCrlf) ++ out ++ kCrlf) ++
          if f.opens && f.stream.readable then kChunkedEncodingEndingStr else []) ∧
      (f.opens = true → f.stream.readable = true →
        decoders (lit "gzip") outs.flatten = some f.content) := by
  cases hopens : f.opens with
  | false =>
    refine ⟨[], by simp, ⟨0, false, fun fuel _ => ⟨s, ?_, by simp⟩⟩, by simp⟩
    simp [compressAndWriteBody, hopens]
  | true =>
    obtain ⟨N, outs, hne, hgunzip, hrun⟩ := handleGzipCompression_spec L g f.stream s
    refine ⟨outs, hne, ⟨N, f.stream.readable, fun fuel hfuel => ?_⟩, fun _ => hgunzip⟩
    obtain ⟨s', hs', hsent⟩ := hrun fuel hfuel
    refine ⟨s', ?_, ?_⟩
    · rw [← hs']
      simp [compressAndWriteBody, hopens, ClientConnection.willing]
    · rw [hsent, Bool.true_and, List.append_assoc]

/-- With the size lines intact, a gzip body is as declared exactly when the file opens and can
be read. -/
theorem sendsDeclaredBody_gzip_iff (L : Z.Lawful (decoders (lit "gzip"))) :
    SendsDeclaredBody Z decoders (fun _ line => line) isSsl targetUrl .gzip f ↔
      f.opens = true ∧ f.stream.readable = true := by
  obtain ⟨outs, hne, hbody, hgunzip⟩ :=
    writesBody_gzip isSsl f L (fun line => line) (afterHeader targetUrl .gzip f)
  have hchunks : (outs.flatMap fun out => numeral 16 out.length ++ kCrlf ++ out ++ kCrlf) =
      outs.flatMap Chunked.chunk := rfl
  rw [hchunks] at hbody
  rw [sendsDeclaredBody_iff_holds (declaredBody_gzip targetUrl _) hbody]
  cases hall : f.opens && f.stream.readable with
  | true =>
    obtain ⟨hopens, hreadable⟩ := Bool.and_eq_true_iff.1 hall
    refine ⟨fun _ => ⟨hopens, hreadable⟩, fun _ => ?_⟩
    exact ⟨outs.flatten, Chunked.decode_chunks_last hne, hgunzip hopens hreadable⟩
  | false =>
    constructor
    · rintro ⟨payload, hdecode, -⟩
      rw [if_neg (by simp), List.append_nil, Chunked.decode_chunks hne] at hdecode
      exact absurd hdecode (by simp)
    · rintro ⟨hopens, hreadable⟩
      simp [hopens, hreadable] at hall

/-- With something else in the memory of the size lines, a gzip body is not as declared. -/
theorem not_sendsDeclaredBody_gzip_stale (L : Z.Lawful (decoders (lit "gzip"))) :
    ¬SendsDeclaredBody Z decoders (fun _ line => line.map fun _ => 122) isSsl targetUrl .gzip
      f := by
  obtain ⟨outs, hne, hbody, hgunzip⟩ := writesBody_gzip isSsl f L
    (fun line => line.map fun _ => 122) (afterHeader targetUrl .gzip f)
  rw [sendsDeclaredBody_iff_holds (declaredBody_gzip targetUrl _) hbody]
  rintro ⟨payload, hdecode, -⟩
  cases outs with
  | nil =>
    cases hall : f.opens && f.stream.readable with
    | true =>
      obtain ⟨hopens, hreadable⟩ := Bool.and_eq_true_iff.1 hall
      have hempty := hgunzip hopens hreadable
      rw [List.flatten_nil, L.gunzip_nil] at hempty
      exact absurd hempty (by simp)
    | false =>
      simp [hall, Chunked.decode, Chunked.decodeChunks] at hdecode
  | cons out outs =>
    obtain ⟨d, ds, hnum⟩ := List.exists_cons_of_ne_nil (numeral_ne_nil 16 out.length)
    simp only [List.flatMap_cons, hnum, List.cons_append, List.map_cons] at hdecode
    rw [Chunked.decode_of_not_hex (by decide)] at hdecode
    exact absurd hdecode (by simp)

end Serve

/-! ## The negotiated encoding -/

/-- The compression type `extractMetaFromHeaders` settles on. -/
theorem compressionType_extractMeta {httpCompression : Bool} {m m' : RequestMeta}
    {headers : List Header} {acceptEncoding : Str}
    (hmeta : extractMetaFromHeaders httpCompression m headers = some m')
    (haccept : lastValue (lit "accept-encoding") headers = some acceptEncoding) :
    m'.compressionType = if httpCompression then getCompressionType acceptEncoding else .none := by
  rw [extractMeta_eq, foldl_afterHeader_eq, haccept] at hmeta
  simp only [Option.ite_none_right_eq_some, Option.some.injEq] at hmeta
  obtain ⟨-, rfl⟩ := hmeta
  split_ifs <;> rfl

/-- The client's `Accept-Encoding` has the text of an encoding in it. -/
def offers (acceptEncoding : Str) (name : String) : Bool :=
  (find (lit name) acceptEncoding).isSome

/-- No encoding is negotiated. -/
def Unencoded (httpCompression : Bool) (acceptEncoding : Str) : Prop :=
  httpCompression = false ∨
    (offers acceptEncoding "gzip" = false ∧ offers acceptEncoding "brotli" = false)

/-- The three outcomes of the negotiation. -/
theorem negotiation_cases (httpCompression : Bool) (acceptEncoding : Str) :
    let chosen := if httpCompression then getCompressionType acceptEncoding else .none
    (chosen = .none ∧ Unencoded httpCompression acceptEncoding ∧
        ¬(httpCompression = true ∧ offers acceptEncoding "gzip" = true)) ∨
      (chosen = .gzip ∧ ¬Unencoded httpCompression acceptEncoding ∧ httpCompression = true ∧
        offers acceptEncoding "gzip" = true) ∨
      (chosen = .brotli ∧ ¬Unencoded httpCompression acceptEncoding ∧
        offers acceptEncoding "gzip" = false) := by
  intro chosen
  cases httpCompression with
  | false => exact Or.inl ⟨rfl, Or.inl rfl, by simp⟩
  | true =>
    have hchosen : chosen = if offers acceptEncoding "gzip" = true then .gzip
        else if offers acceptEncoding "brotli" = true then .brotli else .none := rfl
    rw [hchosen]
    cases hgzip : offers acceptEncoding "gzip" with
    | true => exact Or.inr (Or.inl ⟨rfl, by simp [Unencoded, hgzip], rfl, rfl⟩)
    | false =>
      cases hbrotli : offers acceptEncoding "brotli" with
      | true => exact Or.inr (Or.inr ⟨rfl, by simp [Unencoded, hbrotli], rfl⟩)
      | false => exact Or.inl ⟨rfl, Or.inr ⟨hgzip, hbrotli⟩, by simp⟩

/-- The bytes after the header are the declared body of the file exactly when no encoding is
negotiated and the file can be sent as it is, or, as long as the size lines are intact, gzip is
negotiated and the file opens and can be read. -/
theorem sendsDeclaredBody_iff (Z : Zlib) (decoders : Str → Str → Option Str)
    (L : Z.Lawful (decoders (lit "gzip"))) (httpCompression : Bool) (m m' : RequestMeta)
    (headers : List Header) (acceptEncoding : Str)
    (hmeta : extractMetaFromHeaders httpCompression m headers = some m')
    (haccept : lastValue (lit "accept-encoding") headers = some acceptEncoding)
    (isSsl : Bool) (targetUrl : Str) (f : FileOnDisk) :
    (SendsDeclaredBody Z decoders (fun _ line => line) isSsl targetUrl m'.compressionType f ↔
      (Unencoded httpCompression acceptEncoding ∧ SentAsIs isSsl f) ∨
        (httpCompression = true ∧ offers acceptEncoding "gzip" = true ∧ f.opens = true ∧
          f.stream.readable = true)) ∧
    ((∀ stale, (∀ i line, (stale i line).length = line.length) →
        SendsDeclaredBody Z decoders stale isSsl targetUrl m'.compressionType f) ↔
      Unencoded httpCompression acceptEncoding ∧ SentAsIs isSsl f) := by
  rw [compressionType_extractMeta hmeta haccept]
  have hgarbage : ∀ (i : ℕ) (line : Str), (line.map fun _ => (122 : UInt8)).length = line.length :=
    fun _ _ => List.length_map _
  rcases negotiation_cases httpCompression acceptEncoding with
    ⟨hchosen, hplain, hno⟩ | ⟨hchosen, hplain, hhttp, hgzip⟩ | ⟨hchosen, hplain, hgzip⟩
  · rw [hchosen]
    simp only [sendsDeclaredBody_none_iff, hplain, true_and]
    refine ⟨⟨Or.inl, ?_⟩, fun h => h (fun _ line => line) fun _ _ => rfl, fun h _ _ => h⟩
    rintro (h | ⟨hhttp, hgzip, -⟩)
    · exact h
    · exact absurd ⟨hhttp, hgzip⟩ hno
  · rw [hchosen, sendsDeclaredBody_gzip_iff L]
    constructor
    · exact ⟨fun h => Or.inr ⟨hhttp, hgzip, h⟩, fun h => (h.resolve_left fun h => hplain h.1).2.2⟩
    · exact ⟨fun h => absurd (h _ hgarbage) (not_sendsDeclaredBody_gzip_stale L),
        fun h => absurd h.1 hplain⟩
  · rw [hchosen]
    constructor
    · refine ⟨fun h => absurd h not_sendsDeclaredBody_brotli, ?_⟩
      rintro (⟨h, -⟩ | ⟨-, h, -⟩)
      · exact absurd h hplain
      · rw [hgzip] at h
        exact absurd h (by decide)
    · exact ⟨fun h => absurd (h _ hgarbage) not_sendsDeclaredBody_brotli,
        fun h => absurd h.1 hplain⟩

/-- A client that can decode gzip. -/
def gzipOnly (contentEncoding : Str) : Str → Option Str :=
  if contentEncoding = lit "gzip" then HeldZlib.gunzip else fun _ => none

/-- The file `a` goes out as a gzip body to a client that offers gzip. -/
theorem sendsDeclaredBody_iff_gzip :
    let headers := [.ofStrings "Accept-Encoding" "gzip, br"]
    ∃ m', extractMetaFromHeaders true (.fresh .none false) headers = some m' ∧
      lastValue (lit "accept-encoding") headers = some (lit "gzip, br") ∧
      SendsDeclaredBody HeldZlib.zlib gzipOnly (fun _ line => line) false (lit "/a.txt")
        m'.compressionType ⟨lit "a", true, none⟩ := by
  intro headers
  have hmeta : extractMetaFromHeaders true (.fresh .none false) headers =
      some (.fresh .gzip false) := by decide
  have haccept : lastValue (lit "accept-encoding") headers = some (lit "gzip, br") := by decide
  refine ⟨_, hmeta, haccept, ?_⟩
  exact (sendsDeclaredBody_iff HeldZlib.zlib gzipOnly HeldZlib.lawful true _ _ headers _ hmeta
    haccept false (lit "/a.txt") ⟨lit "a", true, none⟩).1.2
      (Or.inr ⟨rfl, by decide, rfl, by decide⟩)

/-- A client that offers brotli is promised a chunked body and gets nothing after the header. -/
theorem not_sendsDeclaredBody_offered_brotli :
    let headers := [.ofStrings "Accept-Encoding" "brotli"]
    let f : FileOnDisk := ⟨lit "a", true, none⟩
    ∃ m', extractMetaFromHeaders true (.fresh .none false) headers = some m' ∧
      declaredBody (localFileResponse (lit "/a.txt") m'.compressionType 1).headers =
        some (.chunked (lit "brotli")) ∧
      (serveLocalFile HeldZlib.zlib (.willing false fun _ line => line) 1 (lit "/a.txt")
        m'.compressionType f).map (fun run => (run.headerSent, run.body)) = some (true, []) ∧
      ¬SendsDeclaredBody HeldZlib.zlib gzipOnly (fun _ line => line) false (lit "/a.txt")
        m'.compressionType f := by
  intro headers f
  have hmeta : extractMetaFromHeaders true (.fresh .none false) headers =
      some (.fresh .brotli false) := by decide
  have hbody : compressAndWriteBody HeldZlib.zlib (.willing false fun _ line => line) 1 f
      f.content.length .brotli (afterHeader (lit "/a.txt") .brotli f) =
        some (afterHeader (lit "/a.txt") .brotli f, false) := rfl
  refine ⟨_, hmeta, rfl, ?_, not_sendsDeclaredBody_brotli⟩
  rw [serveLocalFile_willing, show (RequestMeta.fresh .brotli false).compressionType = .brotli
    from rfl, hbody]
  simp

end Azugate
