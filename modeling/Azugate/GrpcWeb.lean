import Azugate.Bytes

/-!
# Frames of gRPC-Web

`HttpProxyHandler::handleGrpcWebRequest` takes a message from a frame of which some bytes were read
with the header of the request. It reads the bytes that are missing of the five of the frame's
header, to the start of the buffer and not behind those that are there. The payload it does not
read at all, and where more than the header was there, the number of missing bytes wraps around.

`takesPayload_iff` : the message is the payload, whatever the rest of the buffer holds,
exactly when the payload is empty and none of the header is missing, or all of it.
-/

namespace Azugate

/-! ## Frames -/

/-- The four bytes of a length, the highest first. -/
def bigEndian (n : ℕ) : Str :=
  [UInt8.ofNat (n / 2 ^ 24), UInt8.ofNat (n / 2 ^ 16), UInt8.ofNat (n / 2 ^ 8), UInt8.ofNat n]

/-- A data frame. The length of the payload has to fit its four bytes. -/
structure GrpcFrame where
  compressed : UInt8
  payload : Str
  length_lt : payload.length < 2 ^ 32

/-- The five bytes before the payload. -/
def GrpcFrame.header (f : GrpcFrame) : Str :=
  f.compressed :: bigEndian f.payload.length

/-- The frame as it is sent. -/
def GrpcFrame.bytes (f : GrpcFrame) : Str :=
  f.header ++ f.payload

/-! ## The handler -/

/-- `kGrpcFrameLength`. -/
def kGrpcFrameLength : ℕ := 5

/-- `msg_len`, from the bytes of the buffer. -/
def msgLen (b1 b2 b3 b4 : UInt8) : ℕ :=
  b1.toNat <<< 24 ||| b2.toNat <<< 16 ||| b3.toNat <<< 8 ||| b4.toNat

/-- `boost::asio::read` with `transfer_exactly`, where the socket has `sock` and then ends. It
writes to the start of the buffer until the bytes are there or the buffer is full, and gives the
buffer and the number of bytes. There is no result for an error. -/
def readExactly (sock buffer : Str) (count : ℕ) : Option (Str × ℕ) :=
  let count := min count buffer.length
  if sock.length < count then none else some (sock.take count ++ buffer.drop count, count)

/-- The end of `handleGrpcWebRequest` : `response_str` after it has taken the message from the
buffer. There is no result if it reads past the end of the buffer. -/
def assignMessage (buffer responseStr : Str) : Option Str :=
  match buffer with
  | _ :: b1 :: b2 :: b3 :: b4 :: rest =>
    if kGrpcFrameLength + msgLen b1 b2 b3 b4 > buffer.length then some responseStr
    else some (rest.take (msgLen b1 b2 b3 b4))
  | _ => none

/-- `left_frame_bytes`, a difference of two `size_t`. -/
def leftFrameBytes (extraBodyLen : ℕ) : ℕ :=
  (kGrpcFrameLength + sizeMod - extraBodyLen) % sizeMod

/-- `HttpProxyHandler::handleGrpcWebRequest` : `response_str` when it returns. -/
def handleGrpcWebRequest (extraBodyLen : ℕ) (sock buffer responseStr : Str) : Option Str :=
  let left := leftFrameBytes extraBodyLen
  if left ≠ 0 then
    match readExactly sock buffer left with
    | none => some responseStr
    | some (buffer, nRead) =>
      if (nRead + left) % sizeMod < kGrpcFrameLength then some responseStr
      else assignMessage buffer responseStr
  else assignMessage buffer responseStr

/-- With `extraBodyLen` bytes of a frame in the buffer and the others on the socket, the response
is the payload, whatever else is in the buffer and on the socket. -/
def TakesPayload (f : GrpcFrame) (extraBodyLen : ℕ) : Prop :=
  ∀ buffer following responseStr : Str, f.payload.length + kGrpcFrameLength ≤ buffer.length →
    buffer.take extraBodyLen = f.bytes.take extraBodyLen →
    handleGrpcWebRequest extraBodyLen (f.bytes.drop extraBodyLen ++ following) buffer responseStr =
      some f.payload

/-! ## Lengths -/

theorem msgLen_eq (b1 b2 b3 b4 : UInt8) :
    msgLen b1 b2 b3 b4 =
      b1.toNat * 2 ^ 24 + b2.toNat * 2 ^ 16 + b3.toNat * 2 ^ 8 + b4.toNat := by
  have h2 : b2.toNat < 2 ^ 8 := b2.toNat_lt
  have h3 : b3.toNat < 2 ^ 8 := b3.toNat_lt
  have h4 : b4.toNat < 2 ^ 8 := b4.toNat_lt
  have hnest : msgLen b1 b2 b3 b4 =
      (((b1.toNat <<< 8 ||| b2.toNat) <<< 8 ||| b3.toNat) <<< 8 ||| b4.toNat) := by
    simp only [msgLen, Nat.shiftLeft_or_distrib, ← Nat.shiftLeft_add]
  rw [hnest, ← Nat.shiftLeft_add_eq_or_of_lt h2, ← Nat.shiftLeft_add_eq_or_of_lt h3,
    ← Nat.shiftLeft_add_eq_or_of_lt h4]
  simp only [Nat.shiftLeft_eq]
  omega

theorem assignMessage_header (f : GrpcFrame) {rest : Str} (hrest : f.payload.length ≤ rest.length)
    (responseStr : Str) :
    assignMessage (f.header ++ rest) responseStr = some (rest.take f.payload.length) := by
  have hlt := f.length_lt
  have hlen : msgLen (UInt8.ofNat (f.payload.length / 2 ^ 24))
      (UInt8.ofNat (f.payload.length / 2 ^ 16)) (UInt8.ofNat (f.payload.length / 2 ^ 8))
      (UInt8.ofNat f.payload.length) = f.payload.length := by
    rw [msgLen_eq]
    simp only [UInt8.toNat_ofNat']
    omega
  have hfits : ¬kGrpcFrameLength + f.payload.length > (f.header ++ rest).length := by
    simp only [GrpcFrame.header, bigEndian, kGrpcFrameLength, List.length_append, List.length_cons,
      List.length_nil]
    omega
  simp only [GrpcFrame.header, bigEndian, List.cons_append, List.nil_append] at hfits ⊢
  rw [assignMessage, hlen, if_neg hfits]

/-- A message of the wrong length is not the payload, and neither is the response from before. -/
theorem assignMessage_ne {payload rest responseStr : Str} {b0 b1 b2 b3 b4 : UInt8}
    (hlen : msgLen b1 b2 b3 b4 ≠ payload.length) (hresponse : responseStr ≠ payload) :
    assignMessage (b0 :: b1 :: b2 :: b3 :: b4 :: rest) responseStr ≠ some payload := by
  rw [assignMessage]
  split_ifs with hfits
  · exact fun h => hresponse (Option.some.inj h)
  · intro h
    refine hlen ?_
    rw [← Option.some.inj h, List.length_take]
    simp only [kGrpcFrameLength, List.length_cons] at hfits
    omega

/-! ## Bytes that are missing -/

theorem leftFrameBytes_of_le {n : ℕ} (hn : n ≤ 5) : leftFrameBytes n = 5 - n := by
  simp only [leftFrameBytes, kGrpcFrameLength, sizeMod]
  omega

theorem leftFrameBytes_of_lt {n : ℕ} (hn : 5 < n) (hsize : n < sizeMod) :
    leftFrameBytes n = sizeMod + 5 - n := by
  simp only [leftFrameBytes, kGrpcFrameLength, sizeMod] at *
  omega

/-- The missing bytes of a header of which four or fewer bytes are there are read to the start of
the buffer. With more than two of them there, they are taken to be too few. -/
theorem handleGrpcWebRequest_of_lt_five {n : ℕ} (hn : n < 5) {sock buffer : Str}
    (hsock : 5 ≤ n + sock.length) (hbuffer : 5 ≤ buffer.length) (responseStr : Str) :
    handleGrpcWebRequest n sock buffer responseStr =
      if n ≤ 2 then assignMessage (sock.take (5 - n) ++ buffer.drop (5 - n)) responseStr
      else some responseStr := by
  have hleft : leftFrameBytes n = 5 - n := leftFrameBytes_of_le hn.le
  have hread : readExactly sock buffer (5 - n) =
      some (sock.take (5 - n) ++ buffer.drop (5 - n), 5 - n) := by
    rw [readExactly, Nat.min_eq_left (by omega), if_neg (by omega)]
  have hmod : (5 - n + (5 - n)) % sizeMod = 5 - n + (5 - n) :=
    Nat.mod_eq_of_lt (by simp only [sizeMod]; omega)
  simp only [handleGrpcWebRequest, hleft, hread, hmod, kGrpcFrameLength]
  rw [if_pos (by omega)]
  by_cases htwo : n ≤ 2
  · rw [if_neg (by omega), if_pos htwo]
  · rw [if_pos (by omega), if_neg htwo]

theorem handleGrpcWebRequest_five (sock buffer responseStr : Str) :
    handleGrpcWebRequest 5 sock buffer responseStr = assignMessage buffer responseStr := by
  have hleft : leftFrameBytes 5 = 0 := by decide
  simp only [handleGrpcWebRequest, hleft]
  exact if_neg (by simp)

/-- More bytes than the header are there : the read is for more than the socket has. -/
theorem handleGrpcWebRequest_of_five_lt {n : ℕ} (hn : 5 < n) (hsize : n < sizeMod)
    {sock buffer : Str} (hsock : n + sock.length < sizeMod + 5)
    (hbuffer : sock.length < buffer.length) (responseStr : Str) :
    handleGrpcWebRequest n sock buffer responseStr = some responseStr := by
  have hleft : leftFrameBytes n = sizeMod + 5 - n := leftFrameBytes_of_lt hn hsize
  have hread : readExactly sock buffer (sizeMod + 5 - n) = none := by
    rw [readExactly, if_pos (by omega)]
  simp only [handleGrpcWebRequest, hleft, hread]
  rw [if_pos (by omega)]

/-! ## The payload -/

/-- With none or all of the header there, the message is what the buffer holds behind it. -/
theorem handleGrpcWebRequest_header (f : GrpcFrame) {n : ℕ} (hn : n = 0 ∨ n = 5)
    {buffer : Str} (hbuffer : f.payload.length + kGrpcFrameLength ≤ buffer.length)
    (htake : buffer.take n = f.bytes.take n) (following responseStr : Str) :
    handleGrpcWebRequest n (f.bytes.drop n ++ following) buffer responseStr =
      some ((buffer.drop 5).take f.payload.length) := by
  have hheader : f.header.length = 5 := rfl
  have hrest : f.payload.length ≤ (buffer.drop 5).length := by
    rw [List.length_drop]
    simp only [kGrpcFrameLength] at hbuffer
    omega
  simp only [kGrpcFrameLength] at hbuffer
  rw [← assignMessage_header f hrest responseStr]
  rcases hn with rfl | rfl
  · rw [List.drop_zero, handleGrpcWebRequest_of_lt_five (by decide)
      (by simp only [GrpcFrame.bytes, List.length_append, hheader]; omega) (by omega),
      if_pos (by decide)]
    rw [GrpcFrame.bytes, List.append_assoc]
    rfl
  · have hfront : buffer.take 5 = f.header := htake
    rw [handleGrpcWebRequest_five]
    conv_lhs => rw [← List.take_append_drop 5 buffer, hfront]

theorem bytes_length (f : GrpcFrame) : f.bytes.length = f.payload.length + kGrpcFrameLength := by
  rw [GrpcFrame.bytes, List.length_append, Nat.add_comm]
  rfl

/-- With none or all of the header there, a payload is not read. -/
theorem payload_eq_nil_of_takesPayload {f : GrpcFrame} {n : ℕ} (hn : n = 0 ∨ n = 5)
    (h : TakesPayload f n) : f.payload = [] := by
  -- a buffer that holds something else where the payload should come
  have hlen : f.payload.length + kGrpcFrameLength ≤ (f.header ++ f.payload.map (· + 1)).length := by
    rw [List.length_append, List.length_map, Nat.add_comm]
    rfl
  have htake : (f.header ++ f.payload.map (· + 1)).take n = f.bytes.take n := by
    rcases hn with rfl | rfl <;> rfl
  have hother := h _ [] [] hlen htake
  rw [handleGrpcWebRequest_header f hn hlen htake] at hother
  have hsame : f.payload.map (· + 1) = f.payload := by
    have hdrop : (f.header ++ f.payload.map (· + 1)).drop 5 = f.payload.map (· + 1) := rfl
    rw [hdrop, List.take_of_length_le (by simp)] at hother
    exact Option.some.inj hother
  cases hpayload : f.payload with
  | nil => rfl
  | cons c payload =>
    rw [hpayload, List.map_cons, List.cons.injEq] at hsame
    exact absurd hsame.1 (by simp)

/-- With one or two bytes of the header there, a byte of the length is one the buffer had
before. -/
theorem not_takesPayload_of_overwritten {f : GrpcFrame} {n : ℕ} (hn : n = 1 ∨ n = 2) :
    ¬TakesPayload f n := by
  intro h
  -- the byte in the place of the lowest one of the length is another
  have hmsgLen : ∀ b1 b2 b3, msgLen b1 b2 b3 (UInt8.ofNat f.payload.length + 1) ≠
      f.payload.length := by
    intro b1 b2 b3 heq
    rw [msgLen_eq] at heq
    have hbyte : (UInt8.ofNat f.payload.length + 1).toNat = (f.payload.length + 1) % 256 := by
      simp [UInt8.toNat_add]
    omega
  have hresponse : f.payload ++ [0] ≠ f.payload := by simp
  have hlength := bytes_length f
  have hlen : (f.header.take 4 ++ (UInt8.ofNat f.payload.length + 1) :: f.payload).length =
      f.payload.length + kGrpcFrameLength := by
    rw [List.length_append, List.length_cons, Nat.add_comm]
    rfl
  simp only [kGrpcFrameLength] at hlength hlen
  have hrun := h (f.header.take 4 ++ (UInt8.ofNat f.payload.length + 1) :: f.payload) []
    (f.payload ++ [0]) hlen.ge (by rcases hn with rfl | rfl <;> rfl)
  rw [handleGrpcWebRequest_of_lt_five (by omega)
    (by rw [List.append_nil, List.length_drop]; omega) (by omega), if_pos (by omega)] at hrun
  rcases hn with rfl | rfl
  · exact assignMessage_ne (hmsgLen _ _ _) hresponse hrun
  · exact assignMessage_ne (hmsgLen _ _ _) hresponse hrun

/-- Where the response stays as it was, it is not the payload. -/
theorem not_takesPayload_of_unchanged {f : GrpcFrame} {n : ℕ}
    (h : ∀ responseStr, handleGrpcWebRequest n (f.bytes.drop n ++ []) f.bytes responseStr =
      some responseStr) : ¬TakesPayload f n := by
  intro htakes
  have hpayload := htakes f.bytes [] (f.payload ++ [0]) (bytes_length f).ge rfl
  rw [h] at hpayload
  simp at hpayload

/-- The message is the payload exactly when the payload is empty and none or all of the header was
there. -/
theorem takesPayload_iff (f : GrpcFrame) (extraBodyLen : ℕ)
    (hextra : extraBodyLen ≤ f.bytes.length) :
    TakesPayload f extraBodyLen ↔ f.payload = [] ∧ (extraBodyLen = 0 ∨ extraBodyLen = 5) := by
  have hlength := bytes_length f
  have hlt := f.length_lt
  simp only [kGrpcFrameLength] at hlength
  constructor
  · intro h
    by_cases hall : extraBodyLen = 0 ∨ extraBodyLen = 5
    · exact ⟨payload_eq_nil_of_takesPayload hall h, hall⟩
    by_cases hover : extraBodyLen = 1 ∨ extraBodyLen = 2
    · exact absurd h (not_takesPayload_of_overwritten hover)
    refine absurd h (not_takesPayload_of_unchanged fun responseStr => ?_)
    rw [List.append_nil]
    by_cases hfew : extraBodyLen < 5
    · rw [handleGrpcWebRequest_of_lt_five hfew (by rw [List.length_drop]; omega) (by omega),
        if_neg (by omega)]
    · exact handleGrpcWebRequest_of_five_lt (by omega) (by simp only [sizeMod]; omega)
        (by simp only [List.length_drop, sizeMod]; omega) (by rw [List.length_drop]; omega) _
  · rintro ⟨hnil, hall⟩ buffer following responseStr hbuffer htake
    rw [handleGrpcWebRequest_header f hall hbuffer htake, hnil]
    rfl

/-- A frame without a payload, of which nothing was read before. -/
theorem takesPayload_iff_empty : TakesPayload ⟨0, [], by decide⟩ 0 :=
  (takesPayload_iff ⟨0, [], by decide⟩ 0 (by decide)).2 ⟨rfl, Or.inl rfl⟩

/-- A frame of which nothing was read before, and a buffer of zeros : the message is two of them. -/
theorem not_takesPayload_zeros :
    handleGrpcWebRequest 0 (GrpcFrame.bytes ⟨0, lit "hi", by decide⟩) (List.replicate 16 0) [] =
        some [0, 0] ∧
      ¬TakesPayload ⟨0, lit "hi", by decide⟩ 0 := by
  refine ⟨by decide +kernel, fun h => ?_⟩
  have hzeros := h (List.replicate 16 0) [] [] (by decide) rfl
  exact absurd hzeros (by decide +kernel)

end Azugate
