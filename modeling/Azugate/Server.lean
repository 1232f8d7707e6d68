import Azugate.Binding
import Azugate.Relay

/-!
# The server and its pending accepts

A `Server` has an `async_accept` under way, and starts the next one with `accept`. That call
stands at the end of `onAccept`, and it is the callback of `Dispatch` and of every
`HttpProxyHandler` as well. `server` is the event loop : an accept completes, or a read of a
handler's connection does, and the handler runs until it waits for the next read or is done.

`outstanding_eq_one_iff` says when the server never has more than the one accept under way :
as long as no connection reaches `Dispatch`.
-/

namespace Azugate

/-! ## The handler after the header -/

/-- How the file system and the client's socket answer `handleLocalFileRequest`. -/
structure LocalFile where
  /-- The path exists and is a regular file. -/
  isRegular : Bool
  sendsHeader : Bool
  writesBody : Bool

/-- What a call of `handleLocalFileRequest` does. -/
structure LocalRun where
  headerSent : Bool
  bodySent : Bool
  /-- Calls of `async_accpet_cb_`. -/
  callbacks : ℕ
  deriving DecidableEq, Repr

/-- `handleLocalFileRequest`. -/
def handleLocalFileRequest (F : LocalFile) : LocalRun :=
  if !F.isRegular then ⟨false, false, 1⟩
  else if !F.sendsHeader then ⟨false, false, 1⟩
  else ⟨true, F.writesBody, 1⟩

/-- What a handler meets outside itself : the configuration, the router, the file system, the
peer it connects to and the client. -/
structure Surroundings where
  httpCompression : Bool
  httpExternalAuthorization : Bool
  jwtPublicKeyPem : Str
  getRouteTarget : Str → Option ConnectionInfo
  file : Str → LocalFile
  isSsl : Bool
  /-- The peer at the address that `route` assigns, which is one and the same for every target of
  the router. -/
  target : Target
  reads : List ReadResult

/-- `authentication`. -/
def authentication (jwtPublicKeyPem _token : Str) : Bool :=
  if jwtPublicKeyPem.length ≠ 0 then true else true

/-- How `extractMetadata` ends. -/
inductive HandlerRun where
  | badMeta
  | unauthorized
  | notFound
  | localFile (run : LocalRun)
  | http (run : HttpRun)
  deriving DecidableEq, Repr

/-- Calls of `async_accpet_cb_`. `route` makes one of its own after `handleLocalFileRequest`. -/
def HandlerRun.callbacks : HandlerRun → ℕ
  | .badMeta => 1
  | .unauthorized => 1
  | .notFound => 1
  | .localFile run => run.callbacks + 1
  | .http run => run.callbacks

/-- The handler has returned. It has not while the relay waits for the client. -/
def HandlerRun.returned : HandlerRun → Bool
  | .http run => run.body.next != .blocked
  | _ => true

/-- `route`. It overwrites the address, port and protocol of a remote target by constants, so
every such request goes to `handleHttpRequest`. -/
def route (S : Surroundings) (h : HttpProxyHandler) (m : RequestMeta) : Option HandlerRun :=
  match S.getRouteTarget (routeSourceUrl (h.request.path.getD [])) with
  | none => some .notFound
  | some conn =>
    let targetUrl := if conn.httpUrl = [] then lit "/" else conn.httpUrl
    if !conn.isRemote then some (.localFile (handleLocalFileRequest (S.file targetUrl)))
    else
      (handleHttpRequest S.isSsl S.target (lit "baidu.com") targetUrl h m S.reads).map .http

/-- `extractMetadata`. -/
def extractMetadata (S : Surroundings) (h : HttpProxyHandler) (m : RequestMeta) :
    Option HandlerRun :=
  match extractMetaFromHeaders S.httpCompression m h.request.headers with
  | none => some .badMeta
  | some m =>
    if S.httpExternalAuthorization && !m.isWebSocket &&
        !authentication S.jwtPublicKeyPem m.token then some .unauthorized
    else route S h m

/-- A completed read, with all the handler does before it waits again or is done : the handler
if it waits, and the number of callbacks. There is no result if the handler does not return. -/
def HttpProxyHandler.afterRead (P : PhrParser) (S : Surroundings) (m : RequestMeta)
    (h : HttpProxyHandler) (r : ReadResult) : Option (Option HttpProxyHandler × ℕ) :=
  let h := h.onRead P r
  match h.phase with
  | .reading _ _ => some (some h, 0)
  | .finished => some (none, 1)
  | .parsed _ =>
    (extractMetadata S h m).bind fun run =>
      if run.returned then some (none, run.callbacks) else none

/-! ## Accepting -/

/-- A completed accept, with what `onAccept` and `Dispatch` find out about it. -/
structure Incoming where
  /-- The accept completed with an error. -/
  error : Bool
  /-- `remote_endpoint` fails. -/
  endpointError : Bool
  address : Str
  ipBlackList : List Str
  enableRateLimiter : Bool
  /-- The answer of `GetToken`. -/
  token : Bool
  https : Bool
  /-- The TLS handshake succeeds. -/
  handshake : Bool
  deriving DecidableEq, Repr

/-- `Filter`. -/
def Incoming.filter (c : Incoming) : Bool :=
  !c.ipBlackList.contains c.address

/-- `onAccept` calls `Dispatch`. -/
def Incoming.isDispatched (c : Incoming) : Bool :=
  !c.error && !c.endpointError && c.filter

/-- The number of `async_accept` operations under way, and the handlers that wait for a
read. -/
structure Server where
  outstanding : ℕ
  handlers : List HttpProxyHandler

namespace Server

/-- `accept`, so many times. -/
def accept (s : Server) (n : ℕ) : Server :=
  { s with outstanding := s.outstanding + n }

/-- A new handler's `Start`. -/
def startHandler (s : Server) : Server :=
  { s with handlers := s.handlers ++ [HttpProxyHandler.start] }

/-- `Dispatch`. -/
def dispatch (s : Server) (c : Incoming) : Server :=
  if c.enableRateLimiter && !c.token then s.accept 1
  else if c.https then
    if !c.handshake then s.accept 1 else s.startHandler.accept 1
  else s.startHandler.accept 1

/-- `onAccept`. The accept that completed is not under way any more. -/
def onAccept (s : Server) (c : Incoming) : Server :=
  let s := { s with outstanding := s.outstanding - 1 }
  if c.error then s.accept 1
  else if c.endpointError then s.accept 1
  else if !c.filter then s.accept 1
  else (s.dispatch c).accept 1

end Server

/-! ## The event loop -/

/-- An accept completes, or a read of the `i`-th waiting handler. The handler's members that
`extractMetaFromHeaders` may leave as they are come with the event. -/
inductive ServerEvent where
  | accepted (c : Incoming)
  | read (i : ℕ) (r : ReadResult) (S : Surroundings) (m : RequestMeta)

/-- A handler's read completes. -/
def Server.onRead (P : PhrParser) (s : Server) (i : ℕ) (r : ReadResult) (S : Surroundings)
    (m : RequestMeta) : Server :=
  match (s.handlers[i]?).bind fun h => h.afterRead P S m r with
  | none => s
  | some (none, n) => { s with handlers := s.handlers.eraseIdx i }.accept n
  | some (some h, n) => { s with handlers := s.handlers.set i h }.accept n

/-- The server after `Run` has called `accept`, driven by its events. -/
def server (P : PhrParser) : Machine Server ServerEvent where
  init := Server.accept ⟨0, []⟩ 1
  step s
    | .accepted c => s.onAccept c
    | .read i r S m => s.onRead P i r S m

/-- An accept can complete if one is under way, a read if a handler waits for it. The events
are those after which the server is back in its loop. -/
def Happens (P : PhrParser) (s : Server) : ServerEvent → Prop
  | .accepted _ => 0 < s.outstanding
  | .read i r S m => ((s.handlers[i]?).bind fun h => h.afterRead P S m r).isSome

variable {P : PhrParser}

instance : ∀ (s : Server) (e : ServerEvent), Decidable (Happens P s e)
  | s, .accepted _ => inferInstanceAs (Decidable (0 < s.outstanding))
  | s, .read i r S m =>
    inferInstanceAs (Decidable (((s.handlers[i]?).bind fun h => h.afterRead P S m r).isSome = true))

/-! ## The accepts under way -/

/-- The event takes a connection to `Dispatch`. -/
def ServerEvent.isDispatched : ServerEvent → Bool
  | .accepted c => c.isDispatched
  | .read .. => false

/-- Each connection `Dispatch` sees has left one accept more, and with none no handler waits. -/
def AcceptsLeft (es : List ServerEvent) (s : Server) : Prop :=
  1 + es.countP ServerEvent.isDispatched ≤ s.outstanding ∧
    (es.countP ServerEvent.isDispatched = 0 → s.outstanding = 1 ∧ s.handlers = [])

theorem Server.onAccept_of_dispatched (s : Server) {c : Incoming} (h : c.isDispatched) :
    (s.onAccept c).outstanding = s.outstanding - 1 + 2 := by
  simp only [Incoming.isDispatched, Bool.and_eq_true, Bool.not_eq_true'] at h
  obtain ⟨⟨herr, hend⟩, hfilter⟩ := h
  simp only [onAccept, herr, hend, hfilter, dispatch, Bool.false_eq_true, if_false, Bool.not_true]
  split_ifs <;> rfl

theorem Server.onAccept_of_not_dispatched (s : Server) {c : Incoming} (h : c.isDispatched = false) :
    s.onAccept c = ⟨s.outstanding - 1 + 1, s.handlers⟩ := by
  unfold onAccept
  split_ifs with herr hend hfilter
  · rfl
  · rfl
  · rfl
  · simp_all [Incoming.isDispatched]

theorem Server.outstanding_le_onRead (s : Server) (i : ℕ) (r : ReadResult) (S : Surroundings)
    (m : RequestMeta) : s.outstanding ≤ (s.onRead P i r S m).outstanding := by
  unfold onRead
  split
  · exact le_rfl
  · exact Nat.le_add_right _ _
  · exact Nat.le_add_right _ _

theorem acceptsLeft_step {es : List ServerEvent} {s : Server} {e : ServerEvent}
    (h : Happens P s e) (hs : AcceptsLeft es s) :
    AcceptsLeft (es ++ [e]) ((server P).step s e) := by
  obtain ⟨hle, hzero⟩ := hs
  have hcount : (es ++ [e]).countP ServerEvent.isDispatched =
      es.countP ServerEvent.isDispatched + if e.isDispatched then 1 else 0 := by
    rw [List.countP_append, List.countP_singleton]
  rw [AcceptsLeft, hcount]
  cases e with
  | accepted c =>
    replace h : 0 < s.outstanding := h
    show _ ≤ (s.onAccept c).outstanding ∧
      (_ → (s.onAccept c).outstanding = 1 ∧ (s.onAccept c).handlers = [])
    cases hc : c.isDispatched with
    | true =>
      simp only [ServerEvent.isDispatched, hc, if_true, s.onAccept_of_dispatched hc]
      exact ⟨by omega, fun h => absurd h (Nat.succ_ne_zero _)⟩
    | false =>
      simp only [ServerEvent.isDispatched, hc, Bool.false_eq_true, if_false, Nat.add_zero,
        s.onAccept_of_not_dispatched hc]
      refine ⟨by omega, fun h0 => ?_⟩
      obtain ⟨hout, hhand⟩ := hzero h0
      exact ⟨by omega, hhand⟩
  | read i r S m =>
    simp only [ServerEvent.isDispatched, Bool.false_eq_true, if_false, Nat.add_zero]
    refine ⟨hle.trans (s.outstanding_le_onRead i r S m), fun h0 => ?_⟩
    -- no handler waits, so no read completes
    simp [Happens, (hzero h0).2] at h

theorem acceptsLeft_exec {es : List ServerEvent} (h : (server P).Along (Happens P) es) :
    AcceptsLeft es ((server P).exec es) := by
  refine Machine.Along.invariant AcceptsLeft ?_ (fun _ _ _ h hs => acceptsLeft_step h hs) es h
  exact ⟨le_rfl, fun _ => ⟨rfl, rfl⟩⟩

/-- In every run, one accept is under way after each of its events exactly when no event takes
a connection to `Dispatch`. -/
theorem outstanding_eq_one_iff (P : PhrParser) (es : List ServerEvent)
    (h : (server P).Along (Happens P) es) :
    (∀ pre, pre <+: es → ((server P).exec pre).outstanding = 1) ↔
      ∀ e ∈ es, e.isDispatched = false := by
  constructor
  · intro hone
    have hle := (acceptsLeft_exec h).1
    rw [hone es (List.prefix_refl es)] at hle
    have hzero : es.countP ServerEvent.isDispatched = 0 := by omega
    simpa using List.countP_eq_zero.1 hzero
  · rintro hnone pre ⟨post, rfl⟩
    have hzero : pre.countP ServerEvent.isDispatched = 0 :=
      List.countP_eq_zero.2 fun e he => by simp [hnone e (List.mem_append_left post he)]
    exact ((acceptsLeft_exec h.of_append).2 hzero).1

/-- A connection from `address` that nothing stops. -/
def Incoming.plain (address : Str) : Incoming :=
  ⟨false, false, address, [], false, true, false, true⟩

/-- A connection whose accept failed, then one that is filtered. -/
theorem outstanding_eq_one_iff_filtered :
    let es := [.accepted { Incoming.plain (lit "a") with error := true },
      .accepted { Incoming.plain (lit "a") with ipBlackList := [lit "a"] }]
    (server pico).Along (Happens pico) es ∧
      ∀ pre, pre <+: es → ((server pico).exec pre).outstanding = 1 := by
  have hes : (server pico).Along (Happens pico)
      [.accepted { Incoming.plain (lit "a") with error := true },
        .accepted { Incoming.plain (lit "a") with ipBlackList := [lit "a"] }] := by
    decide
  exact ⟨hes, (outstanding_eq_one_iff pico _ hes).2 (by decide)⟩

/-- One connection that is handed to a handler leaves two accepts under way. -/
theorem not_outstanding_eq_one_dispatched :
    let es := [.accepted (.plain (lit "a"))]
    (server pico).Along (Happens pico) es ∧ ((server pico).exec es).outstanding = 2 ∧
      ¬∀ pre, pre <+: es → ((server pico).exec pre).outstanding = 1 := by
  refine ⟨by decide, by decide, fun h => ?_⟩
  exact absurd (h _ (List.prefix_refl _)) (by decide)

end Azugate
