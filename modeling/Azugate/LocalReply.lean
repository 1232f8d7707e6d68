import Azugate.ChunkedBodies
import Azugate.LocalFiles
import Azugate.PicoResponse

/-!
# What a client reads of a local file

`handleLocalFileRequest` sends a response header and a body, both built from texts. Here the bytes
go back through a reader : `phr_parse_response` for the header, and `phr_decode_chunked` for a body
in chunks. `localFile_read_back` says that the reader gets the status, the headers that were set,
and the file, on a connection on which every call completes in full and with the size lines of the
chunks intact.
-/

namespace Azugate

open Pico Pico.ChunkedDecoder

/-! ## The header -/

/-- The calls of `handleLocalFileRequest` on its response. -/
def localFileCalls (targetUrl : Str) (compressionType : CompressionType) (localFileSize : ℕ) :
    List HeaderCall :=
  [.setContentType (getContentTypeFromSuffix (findFileExtension targetUrl)), .setKeepAlive false] ++
    if compressionType.code ≠ CompressionType.none.code then
      [.setContentEncoding compressionType.str, .setTransferEncoding (lit "chunked")]
    else [.setContentLength localFileSize]

theorem localFileResponse_eq (targetUrl : Str) (compressionType : CompressionType)
    (localFileSize : ℕ) :
    localFileResponse targetUrl compressionType localFileSize =
      { statusCode := 200
        headers := (localFileCalls targetUrl compressionType localFileSize).foldl
          HeaderCall.apply [] } := by
  unfold localFileResponse localFileCalls
  split_ifs <;> rfl

/-- The content types are printable, and have no blanks around them. -/
theorem printable_contentType (path : Str) :
    (∀ c ∈ getContentTypeFromSuffix path, (isControl c && c != 9) = false) ∧
      trimBlanks (getContentTypeFromSuffix path) = getContentTypeFromSuffix path := by
  have hall : ∀ s ∈ "application/octet-stream" :: contentTypes.map Prod.snd,
      ((lit s).all fun c => !(isControl c && c != 9)) = true ∧ trimBlanks (lit s) = lit s := by
    decide +kernel
  have hmem : ∃ s ∈ "application/octet-stream" :: contentTypes.map Prod.snd,
      getContentTypeFromSuffix path = lit s := by
    unfold getContentTypeFromSuffix
    split
    · rename_i hfind
      exact ⟨_, List.mem_cons_of_mem _
        (List.mem_map_of_mem (List.mem_of_find?_eq_some hfind)), rfl⟩
    · exact ⟨_, List.mem_cons_self, rfl⟩
  obtain ⟨s, hs, hcontent⟩ := hmem
  obtain ⟨hprint, htrim⟩ := hall s hs
  rw [hcontent]
  exact ⟨forall_mem_eq_false hprint, htrim⟩

theorem trimBlanks_numeral (n : ℕ) : trimBlanks (numeral 10 n) = numeral 10 n := by
  have hdigit : ∀ d < 10, isBlank (digitChar d) = false := by decide
  have hnone : ∀ c ∈ numeral 10 n, isBlank c = false := by
    intro c hc
    obtain ⟨d, hd, rfl⟩ := mem_numeral (by decide) hc
    exact hdigit d hd
  have hdrop : ∀ {s : Str}, (∀ c ∈ s, isBlank c = false) → s.dropWhile isBlank = s := by
    intro s hs
    refine List.dropWhile_eq_self_iff.2 fun hl => ?_
    simpa using hs _ (List.getElem_mem hl)
  rw [trimBlanks, hdrop hnone, List.rdropWhile, hdrop fun c hc => hnone c (List.mem_reverse.1 hc),
    List.reverse_reverse]

theorem printable_localFileCalls (targetUrl : Str) {compressionType : CompressionType}
    (htype : compressionType = .none ∨ compressionType = .gzip) (localFileSize : ℕ) :
    ∀ call ∈ localFileCalls targetUrl compressionType localFileSize, call.Printable := by
  have hcontent := (printable_contentType (findFileExtension targetUrl)).1
  have hgzip : ∀ c ∈ lit "gzip", (isControl c && c != 9) = false :=
    forall_mem_eq_false (by decide +kernel)
  have hchunked : ∀ c ∈ lit "chunked", (isControl c && c != 9) = false :=
    forall_mem_eq_false (by decide +kernel)
  intro call hcall text htext
  rcases htype with rfl | rfl
  · replace hcall : call ∈ [HeaderCall.setContentType _, .setKeepAlive false,
      .setContentLength localFileSize] := hcall
    simp only [List.mem_cons, List.not_mem_nil, or_false] at hcall
    rcases hcall with rfl | rfl | rfl
    · rw [List.mem_singleton.1 htext]
      exact hcontent
    · exact absurd htext List.not_mem_nil
    · exact absurd htext List.not_mem_nil
  · replace hcall : call ∈ [HeaderCall.setContentType _, .setKeepAlive false,
      .setContentEncoding (lit "gzip"), .setTransferEncoding (lit "chunked")] := hcall
    simp only [List.mem_cons, List.not_mem_nil, or_false] at hcall
    rcases hcall with rfl | rfl | rfl | rfl
    · rw [List.mem_singleton.1 htext]
      exact hcontent
    · exact absurd htext List.not_mem_nil
    · rw [List.mem_singleton.1 htext]
      exact hgzip
    · rw [List.mem_singleton.1 htext]
      exact hchunked

/-- The headers a client reads. -/
def localFileHeaders (targetUrl : Str) (compressionType : CompressionType) (localFileSize : ℕ) :
    List Header :=
  [⟨some (lit "Content-Type"), some (getContentTypeFromSuffix (findFileExtension targetUrl))⟩,
    .ofStrings "Connection" "Close"] ++
    if compressionType.code ≠ CompressionType.none.code then
      [⟨some (lit "content-encoding"), some compressionType.str⟩,
        .ofStrings "transfer-encoding" "chunked"]
    else [⟨some (lit "Content-Length"), some (numeral 10 localFileSize)⟩]

theorem headers_localFileCalls (targetUrl : Str) {compressionType : CompressionType}
    (htype : compressionType = .none ∨ compressionType = .gzip) (localFileSize : ℕ) :
    (localFileCalls targetUrl compressionType localFileSize).flatMap HeaderCall.headers =
      localFileHeaders targetUrl compressionType localFileSize := by
  have hcontent := (printable_contentType (findFileExtension targetUrl)).2
  have hliterals : trimBlanks (lit "Close") = lit "Close" ∧ trimBlanks (lit "gzip") = lit "gzip" ∧
      trimBlanks (lit "chunked") = lit "chunked" := by
    decide +kernel
  rcases htype with rfl | rfl
  · show [Header.mk _ (some (trimBlanks (getContentTypeFromSuffix _))),
      ⟨_, some (trimBlanks (lit "Close"))⟩, ⟨_, some (trimBlanks (numeral 10 localFileSize))⟩] = _
    rw [hcontent, hliterals.1, trimBlanks_numeral]
    rfl
  · show [Header.mk _ (some (trimBlanks (getContentTypeFromSuffix _))),
      ⟨_, some (trimBlanks (lit "Close"))⟩, ⟨_, some (trimBlanks (lit "gzip"))⟩,
      ⟨_, some (trimBlanks (lit "chunked"))⟩] = _
    rw [hcontent, hliterals.1, hliterals.2.1, hliterals.2.2]
    rfl

/-- The header is read back, whatever body follows. -/
theorem phrParseResponse_localFile (targetUrl : Str) {compressionType : CompressionType}
    (htype : compressionType = .none ∨ compressionType = .gzip) (f : FileOnDisk) {maxHeaders : ℕ}
    (hroom : 4 ≤ maxHeaders) (body : Str) :
    phrParseResponse maxHeaders ((afterHeader targetUrl compressionType f).sent ++ body) =
      ⟨(afterHeader targetUrl compressionType f).sent.length, 1, 200, some (lit "OK"),
        localFileHeaders targetUrl compressionType f.content.length⟩ := by
  have hlen : (localFileCalls targetUrl compressionType f.content.length).length ≤ maxHeaders := by
    refine le_trans ?_ hroom
    unfold localFileCalls
    split_ifs <;> simp
  have hcode : 100 ≤ (200 : UInt16).toNat ∧ (200 : UInt16).toNat < 1000 := by decide
  obtain ⟨r, hwell, htext, hresponse⟩ := exists_responseParts hcode
    (printable_localFileCalls targetUrl htype f.content.length) hlen
  rw [headers_localFileCalls targetUrl htype] at hresponse
  have hsent : (afterHeader targetUrl compressionType f).sent = r.toText := by
    rw [← htext, ← localFileResponse_eq]
    rfl
  rw [hsent, phrParseResponse_of_wellFormed hwell, hresponse]
  rfl

/-! ## The body -/

theorem serveLocalFile_of_writesBody {Z : Zlib} {isSsl : Bool} {stale : ℕ → Str → Str}
    {targetUrl : Str} {compressionType : CompressionType} {f : FileOnDisk} {body : Str}
    (hbody : WritesBody Z (.willing isSsl stale) compressionType f
      (afterHeader targetUrl compressionType f) body) :
    ∃ N ok, ∀ fuel, N ≤ fuel →
      serveLocalFile Z (.willing isSsl stale) fuel targetUrl compressionType f =
        some ⟨true, ok, (afterHeader targetUrl compressionType f).sent, body⟩ := by
  obtain ⟨N, ok, hrun⟩ := hbody
  refine ⟨N, ok, fun fuel hfuel => ?_⟩
  obtain ⟨s', hs', hsent⟩ := hrun fuel hfuel
  rw [serveLocalFile_willing, hs']
  simp [hsent]

/-- The chunks of a compressed file, and the end behind them, through the decoder. -/
theorem decodes_gzip_body {outs : List Str} (hne : ∀ out ∈ outs, out ≠ [])
    (hlen : (outs.flatMap Chunked.chunk ++ kChunkedEncodingEndingStr).length < sizeMod) :
    ∃ d, phrDecodeChunked (zero true) (outs.flatMap Chunked.chunk ++ kChunkedEncodingEndingStr) =
      some ⟨0, d, outs.flatten, []⟩ := by
  have hlast : kChunkedEncodingEndingStr = Chunked.last ++ [] := by decide
  rw [hlast] at hlen ⊢
  exact phrDecodeChunked_chunks true
    (fun out hout => ⟨hne out hout, (length_le_of_mem_chunks hout _).trans_lt hlen⟩) []

/-- A client that reads the reply for a local file with `phr_parse_response`, and a body in chunks
with `phr_decode_chunked`, gets the status, the headers that were set, and the file. -/
theorem localFile_read_back (Z : Zlib) (gunzip : Str → Option Str) (L : Z.Lawful gunzip)
    (isSsl : Bool) (targetUrl : Str) (f : FileOnDisk) (hopens : f.opens = true)
    (hreadable : f.stream.readable = true) (maxHeaders : ℕ) (hroom : 4 ≤ maxHeaders) :
    let C := ClientConnection.willing isSsl fun _ line => line
    (∃ N, ∀ fuel, N ≤ fuel → ∃ run, serveLocalFile Z C fuel targetUrl .none f = some run ∧
      phrParseResponse maxHeaders (run.header ++ run.body) =
        ⟨run.header.length, 1, 200, some (lit "OK"),
          localFileHeaders targetUrl .none f.content.length⟩ ∧
      run.body = f.content) ∧
    ∃ N, ∀ fuel, N ≤ fuel → ∃ run, serveLocalFile Z C fuel targetUrl .gzip f = some run ∧
      phrParseResponse maxHeaders (run.header ++ run.body) =
        ⟨run.header.length, 1, 200, some (lit "OK"),
          localFileHeaders targetUrl .gzip f.content.length⟩ ∧
      (run.body.length < sizeMod →
        ∃ d payload, phrDecodeChunked (zero true) run.body = some ⟨0, d, payload, []⟩ ∧
          gunzip payload = some f.content) := by
  intro C
  constructor
  · have hwrites : ∃ body, WritesBody Z C .none f (afterHeader targetUrl .none f) body ∧
        (body = f.content ↔ SentAsIs isSsl f) := writesBody_none _
    obtain ⟨body, hbody, hiff⟩ := hwrites
    obtain ⟨N, ok, hserve⟩ := serveLocalFile_of_writesBody hbody
    refine ⟨N, fun fuel hfuel => ⟨_, hserve fuel hfuel, ?_, ?_⟩⟩
    · exact phrParseResponse_localFile targetUrl (Or.inl rfl) f hroom body
    · exact hiff.2 (Or.inr ⟨hopens, fun _ => hreadable⟩)
  · obtain ⟨outs, hne, hbody, hgunzip⟩ := @writesBody_gzip Z (fun _ => gunzip) isSsl f L
      (fun line => line) (afterHeader targetUrl .gzip f)
    rw [hopens, hreadable, Bool.and_self, if_pos rfl] at hbody
    obtain ⟨N, ok, hserve⟩ := serveLocalFile_of_writesBody hbody
    refine ⟨N, fun fuel hfuel => ⟨_, hserve fuel hfuel, ?_, fun hlen => ?_⟩⟩
    · exact phrParseResponse_localFile targetUrl (Or.inr rfl) f hroom _
    · obtain ⟨d, hdecode⟩ := decodes_gzip_body hne hlen
      exact ⟨d, outs.flatten, hdecode, hgunzip hopens hreadable⟩

/-- The text file `a`, sent as it is over a plain connection. -/
theorem localFile_read_back_a :
    let f : FileOnDisk := ⟨lit "a", true, none⟩
    f.opens = true ∧ f.stream.readable = true ∧
      ∃ N, ∀ fuel, N ≤ fuel → ∃ run,
        serveLocalFile HeldZlib.zlib (.willing false fun _ line => line) fuel (lit "/a.txt") .none
          f = some run ∧
        phrParseResponse 256 (run.header ++ run.body) =
          ⟨run.header.length, 1, 200, some (lit "OK"), [.ofStrings "Content-Type" "text/plain",
            .ofStrings "Connection" "Close", .ofStrings "Content-Length" "1"]⟩ ∧
        run.body = lit "a" := by
  intro f
  obtain ⟨⟨N, hplain⟩, -⟩ := localFile_read_back HeldZlib.zlib HeldZlib.gunzip HeldZlib.lawful false
    (lit "/a.txt") f rfl rfl 256 (by decide)
  refine ⟨rfl, rfl, N, fun fuel hfuel => ?_⟩
  obtain ⟨run, hrun, hheader, hbody⟩ := hplain fuel hfuel
  have hheaders : localFileHeaders (lit "/a.txt") .none f.content.length =
      [.ofStrings "Content-Type" "text/plain", .ofStrings "Connection" "Close",
        .ofStrings "Content-Length" "1"] := by
    decide +kernel
  rw [hheaders] at hheader
  exact ⟨run, hrun, hheader, hbody⟩

end Azugate
