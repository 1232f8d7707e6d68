import Azugate.HeaderRead
import Mathlib.Logic.Function.Basic

/-!
# The WebSocket relay

`handleWebSocketRequest` turns the client's connection and one to the target into WebSocket
streams and starts two loops. Each reads a message from one stream, writes its payload to the
other and reads again. `wsRelay` is the two loops as one machine : an event is the completion
of a read on one side, and the sides' events come in any order.

Framing is Boost.Beast's. It is the parameter `decode`, the messages in a side's bytes. A read
appends the payload of the next one to the buffer of its loop, and a write sends what it is
given as one message, whose type is the stream's `binary` option and not that of the message
read. The client's stream starts with what `accept` leaves of its buffer, which holds the
header and nothing of the extra body behind it.

`relays_iff` : when there was no extra body, what is written to each side is a prefix
of what the other side sent exactly in the runs in which only text messages are passed on.
-/

namespace Azugate

/-! ## Streams and loops -/

/-- The type of a WebSocket message. -/
inductive WsType where
  | text
  | binary
  deriving DecidableEq, Repr

structure WsMessage where
  type : WsType
  payload : Str
  deriving DecidableEq, Repr

/-- `src_ws_stream`, the client's, and `target_ws_stream`. -/
inductive Side where
  | source
  | target
  deriving DecidableEq, Repr

/-- The stream a side's loop writes to. -/
def Side.other : Side → Side
  | .source => .target
  | .target => .source

theorem Side.other_injective : Function.Injective Side.other := by
  intro a b h
  cases a <;> cases b <;> simp_all [Side.other]

/-- The two streams, and the loops that read from them. -/
structure WsRelay where
  /-- The messages of the peer that its stream has not read. -/
  incoming : Side → List WsMessage
  /-- The messages written to the peer. -/
  written : Side → List WsMessage
  /-- The option `binary` of the stream. -/
  binary : Side → Bool
  dataBuffer : Side → Str
  /-- An `async_read` from the stream is under way. -/
  reading : Side → Bool
  /-- Calls of `async_accpet_cb_`. -/
  callbacks : ℕ

namespace WsRelay

/-- `readWebSocketPayloadFromSource`. -/
def readWebSocketPayloadFromSource (s : WsRelay) (side : Side) : WsRelay :=
  { s with reading := Function.update s.reading side true }

/-- `stream::write`. -/
def write (s : WsRelay) (side : Side) (data : Str) : WsRelay :=
  let message := ⟨if s.binary side then .binary else .text, data⟩
  { s with written := Function.update s.written side (s.written side ++ [message]) }

/-- `flat_buffer::consume`. -/
def consume (s : WsRelay) (side : Side) (n : ℕ) : WsRelay :=
  { s with dataBuffer := Function.update s.dataBuffer side ((s.dataBuffer side).drop n) }

/-- `async_accpet_cb_`. -/
def callback (s : WsRelay) : WsRelay :=
  { s with callbacks := s.callbacks + 1 }

/-- `onWebSocketRead`, with `ec` the error of the read and `writeEc` that of the write. -/
def onWebSocketRead (s : WsRelay) (side : Side) (ec : Bool) (bytesRead : ℕ) (writeEc : Bool) :
    WsRelay :=
  if ec then s.callback
  else if writeEc then s.callback
  else
    let s := s.write side.other (s.dataBuffer side)
    (s.consume side bytesRead).readWebSocketPayloadFromSource side

/-- The read under way is over. -/
def endRead (s : WsRelay) (side : Side) : WsRelay :=
  { s with reading := Function.update s.reading side false }

/-- The read under way takes the message `m`, with `rest` behind it. -/
def receive (s : WsRelay) (side : Side) (m : WsMessage) (rest : List WsMessage) : WsRelay :=
  { s.endRead side with
    incoming := Function.update s.incoming side rest
    dataBuffer := Function.update s.dataBuffer side (s.dataBuffer side ++ m.payload) }

end WsRelay

/-! ## The handler -/

/-- What `handleWebSocketRequest` meets : the two handshakes, the way to the target, and the
bytes that come on the two sockets. -/
structure WsSetup where
  isSsl : Bool
  accepts : Bool
  resolves : Bool
  connects : Bool
  handshakes : Bool
  /-- The bytes of the side's peer that no read had delivered yet. -/
  later : Side → Str

/-- The bytes the side's peer sends after the handshake. -/
def WsSetup.sentBytes (W : WsSetup) (h : HttpProxyHandler) : Side → Str
  | .source => h.extraBody ++ W.later .source
  | .target => W.later .target

/-- The bytes the side's stream decodes : `accept` has the first `total_parsed_` bytes of
`header_buf` and takes the header, which is as long. -/
def WsSetup.streamBytes (W : WsSetup) (h : HttpProxyHandler) : Side → Str
  | .source => (h.headerBuf.take h.totalParsed).drop h.totalParsed ++ W.later .source
  | .target => W.later .target

/-- `handleWebSocketRequest`. -/
def handleWebSocketRequest (decode : Side → Str → List WsMessage) (W : WsSetup)
    (h : HttpProxyHandler) : WsRelay :=
  let s : WsRelay :=
    { incoming := fun side => decode side (W.streamBytes h side)
      written := fun _ => []
      binary := fun _ => false
      dataBuffer := fun _ => []
      reading := fun _ => false
      callbacks := 0 }
  if W.isSsl then s.callback
  else if !W.accepts then s.callback
  else if !W.resolves then s.callback
  else if !W.connects then s.callback
  else if !W.handshakes then s.callback
  else
    (s.readWebSocketPayloadFromSource .source).readWebSocketPayloadFromSource .target

/-- How a read under way completes : with an error, or with the next message, which the write
after it sends or does not. -/
inductive WsCompletion where
  | error
  | message (sent : Bool)
  deriving DecidableEq, Repr

/-- A read on a side completes. -/
structure WsEvent where
  side : Side
  completion : WsCompletion
  deriving DecidableEq, Repr

/-- The handler runs on a completion. -/
def WsRelay.onEvent (s : WsRelay) (e : WsEvent) : WsRelay :=
  match e.completion, s.incoming e.side with
  | .error, _ => (s.endRead e.side).onWebSocketRead e.side true 0 false
  | .message _, [] => s
  | .message sent, m :: rest =>
    (s.receive e.side m rest).onWebSocketRead e.side false m.payload.length (!sent)

/-- The relay of a request. -/
def wsRelay (decode : Side → Str → List WsMessage) (W : WsSetup) (h : HttpProxyHandler) :
    Machine WsRelay WsEvent where
  init := handleWebSocketRequest decode W h
  step s e := s.onEvent e

namespace WsRelay

/-- A completion can happen while its read is under way, and a message if there is one. -/
def Happens (s : WsRelay) (e : WsEvent) : Prop :=
  s.reading e.side = true ∧ (e.completion ≠ .error → s.incoming e.side ≠ [])

/-- If the event passes a message on, it is a text message. -/
def PassesText (s : WsRelay) (e : WsEvent) : Prop :=
  e.completion = .message true → ∀ m ∈ (s.incoming e.side).head?, m.type = .text

instance (s : WsRelay) (e : WsEvent) : Decidable (s.Happens e) :=
  inferInstanceAs (Decidable (_ ∧ _))

instance (s : WsRelay) (e : WsEvent) : Decidable (s.PassesText e) :=
  inferInstanceAs (Decidable (_ → _))

end WsRelay

/-! ## The relay passes on what it reads -/

/-- The invariant of the relay. A loop that waits has an empty buffer, and what it has passed
on and what it has not read are what the side sent. -/
structure InStep (sent : Side → List WsMessage) (s : WsRelay) : Prop where
  binary : ∀ side, s.binary side = false
  isPrefix : ∀ side, s.written side.other <+: sent side
  waiting : ∀ side, s.reading side = true →
    s.dataBuffer side = [] ∧ s.written side.other ++ s.incoming side = sent side

namespace InStep

variable {sent : Side → List WsMessage} {s : WsRelay}

/-- A loop that stops leaves the other as it is. -/
theorem stop (h : InStep sent s) (side : Side) : InStep sent (s.endRead side).callback := by
  refine ⟨h.binary, h.isPrefix, fun side' hreading => ?_⟩
  by_cases hside : side' = side
  · simp [WsRelay.callback, WsRelay.endRead, hside] at hreading
  · refine h.waiting side' ?_
    simpa [WsRelay.callback, WsRelay.endRead, Function.update_of_ne hside] using hreading

/-- A message that is read and not passed on ends its loop. -/
theorem drop (h : InStep sent s) (side : Side) (m : WsMessage) (rest : List WsMessage) :
    InStep sent (s.receive side m rest).callback := by
  refine ⟨h.binary, h.isPrefix, fun side' hreading => ?_⟩
  by_cases hside : side' = side
  · simp [WsRelay.callback, WsRelay.receive, WsRelay.endRead, hside] at hreading
  · have hwaiting := h.waiting side' (by
      simpa [WsRelay.callback, WsRelay.receive, WsRelay.endRead, Function.update_of_ne hside]
        using hreading)
    simpa [WsRelay.callback, WsRelay.receive, WsRelay.endRead, Function.update_of_ne hside]
      using hwaiting

/-- The relay after a text message is passed on. -/
theorem onWebSocketRead_receive (h : InStep sent s) {side : Side} (hreading : s.reading side = true)
    {m : WsMessage} (htext : m.type = .text) (rest : List WsMessage) :
    (s.receive side m rest).onWebSocketRead side false m.payload.length false =
      { s with
        incoming := Function.update s.incoming side rest
        written := Function.update s.written side.other (s.written side.other ++ [m]) } := by
  have hbuf : s.dataBuffer side = [] := (h.waiting side hreading).1
  have hm : (⟨.text, m.payload⟩ : WsMessage) = m := by rw [← htext]
  have hempty : Function.update s.dataBuffer side [] = s.dataBuffer := by
    rw [← hbuf, Function.update_eq_self]
  have hagain : Function.update s.reading side true = s.reading := by
    rw [← hreading, Function.update_eq_self]
  simp only [WsRelay.onWebSocketRead, WsRelay.receive, WsRelay.endRead, WsRelay.write,
    WsRelay.consume, WsRelay.readWebSocketPayloadFromSource, Bool.false_eq_true, if_false,
    Function.update_self, Function.update_idem, h.binary, hbuf, List.nil_append,
    List.drop_length, hm, hempty, hagain]

/-- A text message that is passed on moves from what is not read to what is written. -/
theorem pass (h : InStep sent s) {side : Side} (hreading : s.reading side = true) {m : WsMessage}
    (htext : m.type = .text) {rest : List WsMessage} (hin : s.incoming side = m :: rest) :
    InStep sent ((s.receive side m rest).onWebSocketRead side false m.payload.length false) := by
  obtain ⟨hbuf, hsent⟩ := h.waiting side hreading
  rw [h.onWebSocketRead_receive hreading htext]
  have hsent' : (s.written side.other ++ [m]) ++ rest = sent side := by
    rw [List.append_assoc, List.singleton_append, ← hin, hsent]
  refine ⟨h.binary, fun side' => ?_, fun side' hreading' => ?_⟩
  · by_cases hside : side' = side
    · subst hside
      simp only [Function.update_self]
      exact ⟨rest, hsent'⟩
    · simp only [Function.update_of_ne (Side.other_injective.ne hside)]
      exact h.isPrefix side'
  · by_cases hside : side' = side
    · subst hside
      simp only [Function.update_self]
      exact ⟨hbuf, hsent'⟩
    · simp only [Function.update_of_ne (Side.other_injective.ne hside),
        Function.update_of_ne hside]
      exact h.waiting side' hreading'

/-- One completion keeps the relay in step. -/
theorem onEvent (h : InStep sent s) {e : WsEvent} (hhappens : s.Happens e)
    (htext : s.PassesText e) : InStep sent (s.onEvent e) := by
  obtain ⟨side, completion⟩ := e
  obtain ⟨hreading, hsome⟩ := hhappens
  cases completion with
  | error => exact h.stop side
  | message passed =>
    cases hin : s.incoming side with
    | nil => exact absurd hin (hsome (by simp))
    | cons m rest =>
      simp only [WsRelay.onEvent, hin]
      cases passed with
      | false => exact h.drop side m rest
      | true => exact h.pass hreading (htext rfl m (by simp [hin])) hin

end InStep

/-- The stream of a side decodes what the side sends, if there is no extra body. -/
theorem WsSetup.streamBytes_eq (W : WsSetup) {h : HttpProxyHandler} (hextra : h.extraBody = [])
    (side : Side) : W.streamBytes h side = W.sentBytes h side := by
  cases side with
  | source => simp [streamBytes, sentBytes, hextra]
  | target => rfl

theorem inStep_handleWebSocketRequest (decode : Side → Str → List WsMessage) (W : WsSetup)
    {h : HttpProxyHandler} (hextra : h.extraBody = []) :
    InStep (fun side => decode side (W.sentBytes h side)) (handleWebSocketRequest decode W h) := by
  have hstart : ∀ reading callbacks, InStep (fun side => decode side (W.sentBytes h side))
      ⟨fun side => decode side (W.streamBytes h side), fun _ => [], fun _ => false, fun _ => [],
        reading, callbacks⟩ := by
    refine fun reading callbacks => ⟨fun _ => rfl, fun _ => List.nil_prefix, fun side _ => ?_⟩
    exact ⟨rfl, congrArg (decode side) (W.streamBytes_eq hextra side)⟩
  simp only [handleWebSocketRequest]
  split_ifs <;> exact hstart _ _

/-- A message that is passed on in step is written as text. -/
theorem InStep.text_of_isPrefix {sent : Side → List WsMessage} {s : WsRelay} (h : InStep sent s)
    {e : WsEvent} (hhappens : s.Happens e)
    (hrelays : (s.onEvent e).written e.side.other <+: sent e.side) : s.PassesText e := by
  obtain ⟨side, completion⟩ := e
  rintro rfl m hm
  obtain ⟨hbuf, hsent⟩ := h.waiting side hhappens.1
  obtain ⟨rest, hin⟩ : ∃ rest, s.incoming side = m :: rest := List.head?_eq_some_iff.1 hm
  have hwritten : (s.onEvent ⟨side, .message true⟩).written side.other =
      s.written side.other ++ [⟨.text, m.payload⟩] := by
    simp [WsRelay.onEvent, hin, WsRelay.onWebSocketRead, WsRelay.receive, WsRelay.endRead,
      WsRelay.write, WsRelay.consume, WsRelay.readWebSocketPayloadFromSource, h.binary, hbuf]
  rw [hwritten, ← hsent, hin, List.prefix_append_right_inj, List.cons_prefix_cons] at hrelays
  rw [← hrelays.1]

/-- After each event of the run, the messages written to each side are a prefix of those the
other side sent. -/
def Relays (decode : Side → Str → List WsMessage) (W : WsSetup) (h : HttpProxyHandler)
    (es : List WsEvent) : Prop :=
  ∀ pre, pre <+: es → ∀ side,
    ((wsRelay decode W h).exec pre).written side.other <+: decode side (W.sentBytes h side)

/-- In a run with no extra body, the messages written to each side are at every point a prefix
of those the other side sent exactly when only text messages are passed on. -/
theorem relays_iff (decode : Side → Str → List WsMessage) (W : WsSetup)
    (h : HttpProxyHandler) (hextra : h.extraBody = []) (es : List WsEvent)
    (hrun : (wsRelay decode W h).Along WsRelay.Happens es) :
    Relays decode W h es ↔ (wsRelay decode W h).Along WsRelay.PassesText es := by
  have hinStep : ∀ es, (wsRelay decode W h).Along WsRelay.Happens es →
      (wsRelay decode W h).Along WsRelay.PassesText es →
      InStep (fun side => decode side (W.sentBytes h side)) ((wsRelay decode W h).exec es) := by
    intro es hrun htext
    refine Machine.Along.invariant (M := wsRelay decode W h)
      (C := fun s e => s.Happens e ∧ s.PassesText e)
      (fun _ s => InStep (fun side => decode side (W.sentBytes h side)) s)
      (inStep_handleWebSocketRequest decode W hextra)
      (fun _ _ _ hC hs => hs.onEvent hC.1 hC.2) es ?_
    exact fun pre e post hes => ⟨hrun pre e post hes, htext pre e post hes⟩
  constructor
  · intro hrelays
    induction es using List.reverseRecOn with
    | nil => exact Machine.along_nil
    | append_singleton es e ih =>
      obtain ⟨hrun, hhappens⟩ := Machine.along_snoc.1 hrun
      have htext := ih hrun fun pre hpre => hrelays pre (hpre.trans (List.prefix_append es [e]))
      refine Machine.along_snoc.2 ⟨htext, ?_⟩
      have hlast := hrelays _ (List.prefix_refl _) e.side
      rw [Machine.exec_snoc] at hlast
      exact (hinStep es hrun htext).text_of_isPrefix hhappens hlast
  · rintro htext pre ⟨post, rfl⟩ side
    exact (hinStep pre hrun.of_append htext.of_append).isPrefix side

/-! ## Two peers -/

/-- The messages in a run of frames that are each a whole message, text or binary, of less
than 126 bytes, masked or not. -/
def shortFrames : ℕ → Str → List WsMessage
  | fuel + 1, opcode :: len :: rest =>
    let n := (len % 128).toNat
    let (key, rest) := if 128 ≤ len then (rest.take 4, rest.drop 4) else ([0, 0, 0, 0], rest)
    let payload := (rest.take n).zipIdx.map fun (c, i) => c ^^^ key.getD (i % 4) 0
    if n < 126 ∧ n ≤ rest.length then
      if opcode = 0x81 then ⟨.text, payload⟩ :: shortFrames fuel (rest.drop n)
      else if opcode = 0x82 then ⟨.binary, payload⟩ :: shortFrames fuel (rest.drop n)
      else []
    else []
  | _, _ => []

/-- A client's opening handshake. -/
def wsHandshake : Str :=
  lit "GET / HTTP/1.1\r\nHost: a\r\nUpgrade: websocket\r\nConnection: Upgrade\r\n" ++
    lit "Sec-WebSocket-Key: dGhlIHNhbXBsZSBub25jZQ==\r\nSec-WebSocket-Version: 13\r\n\r\n"

/-- The handshake is a header, and `extra` comes in the same read. -/
theorem exec_wsHandshake (extra : Str) :
    (headerReads pico).exec [wsHandshake ++ extra] =
      ⟨wsHandshake ++ extra, wsHandshake.length, pico.parse wsHandshake,
        .parsed extra.length⟩ := by
  have hparse : (pico.parse wsHandshake).isAccepted ∧
      (pico.parse wsHandshake).pret.toNat = wsHandshake.length := by
    decide +kernel
  rw [exec_one_read hparse.1 extra, hparse.2, List.length_append, Nat.add_sub_cancel_left]

/-- Every handshake succeeds, and the peers send the given bytes. -/
def WsSetup.open (client target : Str) : WsSetup :=
  ⟨false, true, true, true, true, fun | .source => client | .target => target⟩

/-- The client's text `a` goes to the target, and the target's text `b` to the client. -/
theorem relays_iff_two_texts :
    let decode := fun (_ : Side) s => shortFrames s.length s
    let W := WsSetup.open [0x81, 0x81, 0, 0, 0, 0, 97] [0x81, 1, 98]
    let h := (headerReads pico).exec [wsHandshake]
    let es := [⟨.source, .message true⟩, ⟨.target, .message true⟩]
    (wsRelay decode W h).Along WsRelay.Happens es ∧ Relays decode W h es ∧
      ((wsRelay decode W h).exec es).written .target = [⟨.text, [97]⟩] := by
  rw [← List.append_nil wsHandshake, exec_wsHandshake]
  intro decode W h es
  have hall : h.extraBody = [] ∧ (wsRelay decode W h).Along WsRelay.Happens es ∧
      (wsRelay decode W h).Along WsRelay.PassesText es ∧
      ((wsRelay decode W h).exec es).written .target = [⟨.text, [97]⟩] := by
    decide +kernel
  obtain ⟨hextra, hrun, htext, hwritten⟩ := hall
  exact ⟨hrun, (relays_iff decode W h hextra es hrun).2 htext, hwritten⟩

/-- The target was written something else than the client sent. -/
theorem not_relays_of_written {decode : Side → Str → List WsMessage} {W : WsSetup}
    {h : HttpProxyHandler} {es : List WsEvent} {sent written : List WsMessage}
    (hsent : decode .source (W.sentBytes h .source) = sent)
    (hwritten : ((wsRelay decode W h).exec es).written .target = written)
    (hne : ¬written <+: sent) : ¬Relays decode W h es := by
  intro hrelays
  have hsub := hrelays es (List.prefix_refl es) .source
  rw [show Side.source.other = .target from rfl, hsent, hwritten] at hsub
  exact hne hsub

/-- The client's binary message `a` is written to the target as text. -/
theorem not_relays_binary :
    let decode := fun (_ : Side) s => shortFrames s.length s
    let W := WsSetup.open [0x82, 0x81, 0, 0, 0, 0, 97] []
    let h := (headerReads pico).exec [wsHandshake]
    let es := [⟨.source, .message true⟩]
    (wsRelay decode W h).Along WsRelay.Happens es ∧
      decode .source (W.sentBytes h .source) = [⟨.binary, [97]⟩] ∧
      ((wsRelay decode W h).exec es).written .target = [⟨.text, [97]⟩] ∧
      ¬Relays decode W h es := by
  rw [← List.append_nil wsHandshake, exec_wsHandshake]
  intro decode W h es
  have hall : (wsRelay decode W h).Along WsRelay.Happens es ∧
      decode .source (W.sentBytes h .source) = [⟨.binary, [97]⟩] ∧
      ((wsRelay decode W h).exec es).written .target = [⟨.text, [97]⟩] := by
    decide +kernel
  obtain ⟨hrun, hsent, hwritten⟩ := hall
  exact ⟨hrun, hsent, hwritten, not_relays_of_written hsent hwritten (by decide)⟩

/-- The text `a` that came with the handshake is lost, and the target gets `b` first. -/
theorem not_relays_extra_body :
    let decode := fun (_ : Side) s => shortFrames s.length s
    let W := WsSetup.open [0x81, 0x81, 0, 0, 0, 0, 98] []
    let h := (headerReads pico).exec [wsHandshake ++ [0x81, 0x81, 0, 0, 0, 0, 97]]
    let es := [⟨.source, .message true⟩]
    (wsRelay decode W h).Along WsRelay.Happens es ∧
      decode .source (W.sentBytes h .source) = [⟨.text, [97]⟩, ⟨.text, [98]⟩] ∧
      ((wsRelay decode W h).exec es).written .target = [⟨.text, [98]⟩] ∧
      ¬Relays decode W h es := by
  rw [exec_wsHandshake]
  intro decode W h es
  have hall : (wsRelay decode W h).Along WsRelay.Happens es ∧
      decode .source (W.sentBytes h .source) = [⟨.text, [97]⟩, ⟨.text, [98]⟩] ∧
      ((wsRelay decode W h).exec es).written .target = [⟨.text, [98]⟩] := by
    decide +kernel
  obtain ⟨hrun, hsent, hwritten⟩ := hall
  exact ⟨hrun, hsent, hwritten, not_relays_of_written hsent hwritten (by decide)⟩

end Azugate
