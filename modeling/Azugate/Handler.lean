import Azugate.RouterRuns
import Azugate.Server
import Azugate.WebSocket

/-!
# Where a request goes, and how often the handler calls back

`route` copies address, port and protocol of the target the router chose, and overwrites the
copies by constants before it looks at them. `remoteDestination` is that end of `route`. The
registrations have no argument for an address or a port, and leave both as they are
(`unaddressed_exec`). `routesToTarget_iff` says what is left of routing to the chosen target.

`HttpProxyHandler.life` is a handler from `Start` to its end, over the reads of the header.
Every exit calls `async_accpet_cb_` once, but `handleLocalFileRequest` has called it at each of
its own exits when `route` calls it again, and the two loops of a WebSocket relay call it once
each. `callbacks_eq_one_iff` says for which requests there is one call.
-/

namespace Azugate

/-! ## The destination -/

/-- The functions that take a remote request. -/
inductive ProxyHandler where
  | handleHttpRequest
  | handleWebSocketRequest
  deriving DecidableEq, Repr

/-- The handler of a protocol. -/
def ProxyHandler.ofType : ProtocolType → Option ProxyHandler
  | .http => some .handleHttpRequest
  | .webSocket => some .handleWebSocketRequest
  | _ => none

/-- Where `route` sends a request. -/
structure Destination where
  handler : ProxyHandler
  address : Str
  port : UInt16
  deriving DecidableEq, Repr

/-- The end of `route`, for a remote target. There is none if it only calls back. -/
def remoteDestination (conn : ConnectionInfo) : Option Destination :=
  -- the three variables are copies of the target's members, and then assigned
  let target : ConnectionInfo :=
    { conn with downstreamAddress := lit "baidu.com", downstreamPort := 80, type := .http }
  if target.downstreamAddress = [] then none
  else if target.type = .webSocket then
    some ⟨.handleWebSocketRequest, target.downstreamAddress, target.downstreamPort⟩
  else if target.type = .http then
    some ⟨.handleHttpRequest, target.downstreamAddress, target.downstreamPort⟩
  else none

/-- Every remote request goes to one place. -/
theorem remoteDestination_eq (conn : ConnectionInfo) :
    remoteDestination conn = some ⟨.handleHttpRequest, lit "baidu.com", 80⟩ :=
  rfl

namespace Routes

/-- The request is handed to the handler of its target's protocol, with the address and the
port of the target. -/
def RoutesToTarget (past : ℕ → UInt8) (r : Routes) (sourceUrl : Str) : Prop :=
  ∀ target r', r.getRouteTarget past sourceUrl = some (some target, r') →
    target.isRemote = true → ∃ handler, ProxyHandler.ofType target.type = some handler ∧
      remoteDestination target = some ⟨handler, target.downstreamAddress, target.downstreamPort⟩

end Routes

/-- What two targets have to agree on to be one place. -/
def ConnectionInfo.place (c : ConnectionInfo) : ProtocolType × Str × UInt16 :=
  (c.type, c.downstreamAddress, c.downstreamPort)

/-- The place a target has to be for `route` to send its requests there. -/
def routedPlace : ProtocolType × Str × UInt16 :=
  (.http, lit "baidu.com", 80)

theorem remoteDestination_own_iff (target : ConnectionInfo) :
    (∃ handler, ProxyHandler.ofType target.type = some handler ∧ remoteDestination target =
      some ⟨handler, target.downstreamAddress, target.downstreamPort⟩) ↔
      target.place = routedPlace := by
  simp only [remoteDestination_eq, Option.some.injEq, Destination.mk.injEq,
    ConnectionInfo.place, routedPlace, Prod.mk.injEq]
  constructor
  · rintro ⟨handler, htype, rfl, haddress, hport⟩
    refine ⟨?_, haddress.symm, hport.symm⟩
    cases ht : target.type <;> simp [ht, ProxyHandler.ofType] at htype ⊢
  · rintro ⟨htype, haddress, hport⟩
    exact ⟨_, by rw [htype]; rfl, rfl, haddress.symm, hport.symm⟩

/-! ## What the registrations leave out -/

/-- A remote target has an address and a port. -/
def ConnectionInfo.Addressed (c : ConnectionInfo) : Prop :=
  c.isRemote = true → c.downstreamAddress ≠ [] ∧ c.downstreamPort ≠ 0

/-- No target of the tables has an address or a port. -/
def Routes.Unaddressed (r : Routes) : Prop :=
  ∀ slot e, r.entry slot = some e → ∀ c ∈ e.targets, c.place = (.http, [], 0)

theorem RouteAction.unaddressed_addTarget {e : RouteAction} (targetUrl : Str) (isLocal : Bool)
    (he : ∀ c ∈ e.targets, c.place = (.http, [], 0)) :
    ∀ c ∈ (e.addTarget (routeTarget targetUrl isLocal)).targets, c.place = (.http, [], 0) := by
  intro c hc
  rcases mem_targets_addTarget hc with hc | rfl
  · exact he c hc
  · rfl

namespace Routes.Unaddressed

variable {r : Routes}

theorem addPathMatchRoute (h : r.Unaddressed) (sourceUrl targetUrl : Str) (isLocal : Bool)
    (leftover : ℕ) :
    (r.addPathMatchRoute sourceUrl targetUrl isLocal leftover).Unaddressed := by
  intro slot e hslot
  cases slot with
  | pre i => exact h (.pre i) e hslot
  | path url =>
    by_cases hurl : url = sourceUrl
    · subst hurl
      simp only [entry, exactRoutes_addPathMatchRoute_self, Option.some.injEq] at hslot
      subst hslot
      refine RouteAction.unaddressed_addTarget targetUrl isLocal ?_
      cases hold : r.exactRoutes url with
      | none => simp
      | some e => exact h (.path url) e hold
    · rw [entry, exactRoutes_addPathMatchRoute_of_ne hurl] at hslot
      exact h (.path url) e hslot

theorem addPrefixMatchRoute (h : r.Unaddressed) (sourceUrl targetUrl : Str) (isLocal : Bool) :
    (r.addPrefixMatchRoute sourceUrl targetUrl isLocal).Unaddressed := by
  have hold : ∀ route ∈ r.prefixRoutes, ∀ c ∈ route.2.targets, c.place = (.http, [], 0) := by
    intro route hroute
    obtain ⟨i, hi⟩ := List.mem_iff_getElem?.1 hroute
    exact h (.pre i) route.2 (by rw [entry, hi]; rfl)
  intro slot e hslot
  cases slot with
  | path url => exact h (.path url) e hslot
  | pre i =>
    obtain ⟨route, hroute, rfl⟩ := Option.map_eq_some_iff.1 hslot
    rcases mem_addToPrefixRoutes (List.mem_of_getElem? hroute) with hmem | ⟨e, he, hmem | rfl⟩
    · exact hold route hmem
    · rw [he]
      exact RouteAction.unaddressed_addTarget targetUrl isLocal (hold (route.1, e) hmem)
    · rw [he]
      exact RouteAction.unaddressed_addTarget targetUrl isLocal (by simp)

theorem afterLookup (h : r.Unaddressed) (past : ℕ → UInt8) (sourceUrl : Str) :
    (r.afterLookup past sourceUrl).Unaddressed := by
  intro slot e hslot
  rcases lookup_cases r past sourceUrl with ⟨-, heq⟩ | ⟨slot', e', c, -, he', -, -, heq⟩
  · rw [heq] at hslot
    exact h slot e hslot
  · rw [heq] at hslot
    by_cases hsame : slot = slot'
    · subst hsame
      rw [entry_setEntry_self he'] at hslot
      obtain rfl := Option.some.inj hslot
      exact h slot e' he'
    · rw [entry_setEntry_of_ne _ hsame] at hslot
      exact h slot e hslot

end Routes.Unaddressed

/-- The targets have no address after any run of the router. -/
theorem unaddressed_exec (calls : List RouterCall) : (router.exec calls).Unaddressed := by
  refine Machine.invariant (fun _ => Routes.Unaddressed) ?_ (fun calls call h => ?_) calls
  · intro slot e hslot
    cases slot <;> simp [router, Routes.empty, Routes.entry] at hslot
  · cases call with
    | addPathMatchRoute sourceUrl targetUrl isLocal leftover =>
      exact h.addPathMatchRoute sourceUrl targetUrl isLocal leftover
    | addPrefixMatchRoute sourceUrl targetUrl isLocal =>
      exact h.addPrefixMatchRoute sourceUrl targetUrl isLocal
    | getRouteTarget sourceUrl past => exact h.afterLookup past sourceUrl

/-- A request is handed on as its target asks exactly when it has no remote target, or one at
the place `route` sends everything to. Two targets are kept apart exactly when they are one
place, and a registered target has an address and a port exactly when it is not remote. -/
theorem routesToTarget_iff (past : ℕ → UInt8) (r : Routes) (sourceUrl : Str)
    (target target' : ConnectionInfo) (calls : List RouterCall) (slot : Slot) :
    (r.RoutesToTarget past sourceUrl ↔
      ∀ target r', r.getRouteTarget past sourceUrl = some (some target, r') →
        target.isRemote = true → target.place = routedPlace) ∧
    ((target.place ≠ target'.place → remoteDestination target ≠ remoteDestination target') ↔
      target.place = target'.place) ∧
    ∀ e, (router.exec calls).entry slot = some e → ∀ c ∈ e.targets,
      (c.Addressed ↔ c.isRemote = false) := by
  refine ⟨?_, ?_, fun e he c hc => ?_⟩
  · simp only [Routes.RoutesToTarget, remoteDestination_own_iff]
  · simp [remoteDestination_eq]
  · have hplace := unaddressed_exec calls slot e he c hc
    simp only [ConnectionInfo.place, Prod.mk.injEq] at hplace
    simp [ConnectionInfo.Addressed, hplace]

/-- A remote route `/a` : its requests go somewhere else than to its target, which has no
address. -/
theorem not_routesToTarget_registered :
    let r := router.exec [.addPathMatchRoute (lit "/a") (lit "/x") false 0]
    ¬r.RoutesToTarget (fun _ => 0) (lit "/a") ∧
      ∃ e, r.entry (.path (lit "/a")) = some e ∧ ¬∀ c ∈ e.targets, c.Addressed := by
  intro r
  have he : r.entry (.path (lit "/a")) = some ⟨0, [routeTarget (lit "/x") false]⟩ := by decide
  refine ⟨fun h => ?_, _, he, fun h => ?_⟩
  · have hlookup : r.getRouteTarget (fun _ => 0) (lit "/a") =
        some (some (routeTarget (lit "/x") false), r.afterLookup (fun _ => 0) (lit "/a")) := rfl
    have hplace := (remoteDestination_own_iff _).1 (h _ _ hlookup rfl)
    exact absurd hplace (by decide)
  · exact (h _ (List.mem_singleton.2 rfl) rfl).1 rfl

/-! ## Callbacks of a request -/

/-- The handler `h` over the reads of its connection that complete. The handler if it still
waits for one, and the callbacks so far. There is no result if it does not return from one. -/
def HttpProxyHandler.life (P : PhrParser) (S : Surroundings) (m : RequestMeta) :
    HttpProxyHandler → List ReadResult → Option (Option HttpProxyHandler × ℕ)
  | h, [] => some (some h, 0)
  | h, r :: reads =>
    match h.afterRead P S m r with
    | none => none
    | some (none, n) => some (none, n)
    | some (some h', n) => (life P S m h' reads).map fun (h'', k) => (h'', n + k)

/-- The handler when the reads have brought it a header that is accepted. -/
def HttpProxyHandler.withHeader (P : PhrParser) :
    HttpProxyHandler → List ReadResult → Option HttpProxyHandler
  | _, [] => none
  | h, r :: reads =>
    match (h.onRead P r).phase with
    | .reading _ _ => withHeader P (h.onRead P r) reads
    | .parsed _ => some (h.onRead P r)
    | .finished => none

/-- The headers are accepted, and the router answers the path with a local file. -/
def Surroundings.servesFile (S : Surroundings) (m : RequestMeta) (h : HttpProxyHandler) : Bool :=
  (extractMetaFromHeaders S.httpCompression m h.request.headers).isSome &&
    (S.getRouteTarget (routeSourceUrl (h.request.path.getD []))).any fun conn => !conn.isRemote

section Callbacks

variable {P : PhrParser} {S : Surroundings} {m : RequestMeta}

theorem authentication_eq_true (jwtPublicKeyPem token : Str) :
    authentication jwtPublicKeyPem token = true := by
  simp [authentication]

theorem callbacks_handleLocalFileRequest (F : LocalFile) :
    (handleLocalFileRequest F).callbacks = 1 := by
  unfold handleLocalFileRequest
  split_ifs <;> rfl

/-- `handleHttpRequest` calls back once, unless it waits for the client. -/
theorem callbacks_handleHttpRequest {isSsl : Bool} {T : Target} {targetHost targetUrl : Str}
    {h : HttpProxyHandler} {reads : List ReadResult} {run : HttpRun}
    (hrun : handleHttpRequest isSsl T targetHost targetUrl h m reads = some run)
    (hreturned : run.body.next ≠ .blocked) : run.callbacks = 1 := by
  rcases handleHttpRequest_cases isSsl T targetHost targetUrl h m reads with hfail | ⟨verb, -, hgo⟩
  · obtain rfl := Option.some.inj (hfail.symm.trans hrun)
    rfl
  · rw [hgo] at hrun
    obtain ⟨body, -, rfl⟩ := Option.map_eq_some_iff.1 hrun
    rw [body_respond] at hreturned
    unfold respond
    cases hnext : body.next with
    | blocked => exact absurd hnext hreturned
    | stopped => rfl
    | finished => cases T.response <;> rfl

theorem callbacks_route {h : HttpProxyHandler} {run : HandlerRun} (hrun : route S h m = some run)
    (hreturned : run.returned = true) :
    run.callbacks =
      if (S.getRouteTarget (routeSourceUrl (h.request.path.getD []))).any fun conn =>
        !conn.isRemote then 2 else 1 := by
  unfold route at hrun
  cases hconn : S.getRouteTarget (routeSourceUrl (h.request.path.getD [])) with
  | none =>
    rw [hconn] at hrun
    obtain rfl := Option.some.inj hrun
    rfl
  | some conn =>
    simp only [hconn] at hrun
    cases hremote : conn.isRemote with
    | false =>
      simp only [hremote, Bool.not_false, if_true, Option.some.injEq] at hrun
      subst hrun
      simp [HandlerRun.callbacks, callbacks_handleLocalFileRequest, hremote]
    | true =>
      simp only [hremote, Bool.not_true, Bool.false_eq_true, if_false] at hrun
      obtain ⟨httpRun, hhttp, rfl⟩ := Option.map_eq_some_iff.1 hrun
      simp [HandlerRun.callbacks, hremote,
        callbacks_handleHttpRequest hhttp (by simpa [HandlerRun.returned] using hreturned)]

/-- What follows a parsed header calls back once, and twice for a local file. -/
theorem callbacks_extractMetadata {h : HttpProxyHandler} {run : HandlerRun}
    (hrun : extractMetadata S h m = some run) (hreturned : run.returned = true) :
    run.callbacks = if S.servesFile m h then 2 else 1 := by
  unfold extractMetadata at hrun
  cases hmeta : extractMetaFromHeaders S.httpCompression m h.request.headers with
  | none =>
    rw [hmeta] at hrun
    obtain rfl := Option.some.inj hrun
    simp [HandlerRun.callbacks, Surroundings.servesFile, hmeta]
  | some m' =>
    simp only [hmeta, authentication_eq_true, Bool.not_true, Bool.and_false, Bool.false_eq_true,
      if_false] at hrun
    simpa [Surroundings.servesFile, hmeta] using callbacks_route hrun hreturned

/-- The callbacks of a handler that has finished. -/
theorem callbacks_life :
    ∀ (reads : List ReadResult) (h : HttpProxyHandler) {n : ℕ},
      h.life P S m reads = some (none, n) →
      n = if (h.withHeader P reads).any (S.servesFile m) then 2 else 1
  | [], h, n, hlife => by simp [HttpProxyHandler.life] at hlife
  | r :: reads, h, n, hlife => by
    simp only [HttpProxyHandler.life, HttpProxyHandler.afterRead] at hlife
    rw [HttpProxyHandler.withHeader]
    cases hphase : (h.onRead P r).phase with
    | reading offset size =>
      simp only [hphase] at hlife
      obtain ⟨⟨h', k⟩, hrest, heq⟩ := Option.map_eq_some_iff.1 hlife
      obtain ⟨rfl, rfl⟩ := Prod.mk.inj heq
      rw [Nat.zero_add]
      exact callbacks_life reads _ hrest
    | finished =>
      simp only [hphase, Option.some.injEq, Prod.mk.injEq, true_and] at hlife
      simp [← hlife]
    | parsed extraBodyLen =>
      simp only [hphase] at hlife
      cases hrun : extractMetadata S (h.onRead P r) m with
      | none => simp [hrun] at hlife
      | some run =>
        cases hreturned : run.returned with
        | false => simp [hrun, hreturned] at hlife
        | true =>
          simp only [hrun, Option.bind_some, hreturned, if_true, Option.some.injEq,
            Prod.mk.injEq, true_and] at hlife
          rw [← hlife, callbacks_extractMetadata hrun hreturned]
          simp

end Callbacks

/-! ## Callbacks of a WebSocket relay -/

/-- `handleWebSocketRequest` gets as far as its two loops. -/
def WsSetup.opens (W : WsSetup) : Bool :=
  !W.isSsl && W.accepts && W.resolves && W.connects && W.handshakes

namespace WsRelay

/-- The number of loops that wait for a read. -/
def loops (s : WsRelay) : ℕ :=
  (if s.reading .source then 1 else 0) + if s.reading .target then 1 else 0

/-- The end of a read that is under way leaves a loop less. -/
theorem loops_endRead {s : WsRelay} {side : Side} (h : s.reading side = true) :
    s.loops = (s.endRead side).loops + 1 := by
  cases side <;> simp [loops, endRead, h, Nat.add_comm]

/-- A loop that ends calls back. -/
theorem callbacks_add_loops_onEvent {s : WsRelay} {e : WsEvent} (h : s.Happens e) :
    (s.onEvent e).callbacks + (s.onEvent e).loops = s.callbacks + s.loops := by
  obtain ⟨side, completion⟩ := e
  replace h : s.reading side = true := h.1
  have hended : s.callbacks + 1 + (s.endRead side).loops = s.callbacks + s.loops := by
    rw [loops_endRead h]
    omega
  cases completion with
  | error => exact hended
  | message sent =>
    cases hin : s.incoming side with
    | nil => simp only [onEvent, hin]
    | cons message rest =>
      simp only [onEvent, hin]
      cases sent with
      | false => exact hended
      | true =>
        have hagain : Function.update s.reading side true = s.reading := by
          rw [← h, Function.update_eq_self]
        simp only [onWebSocketRead, Bool.not_true, Bool.false_eq_true, if_false, receive, endRead,
          write, consume, readWebSocketPayloadFromSource, loops, Function.update_idem, hagain]

end WsRelay

/-- The callbacks of a relay, and the loops that have not ended. -/
theorem callbacks_add_loops (decode : Side → Str → List WsMessage) (W : WsSetup)
    (h : HttpProxyHandler) (es : List WsEvent)
    (hrun : (wsRelay decode W h).Along WsRelay.Happens es) :
    ((wsRelay decode W h).exec es).callbacks + ((wsRelay decode W h).exec es).loops =
      if W.opens then 2 else 1 := by
  refine Machine.Along.invariant (M := wsRelay decode W h)
    (fun _ s => s.callbacks + s.loops = if W.opens then 2 else 1) ?_
    (fun _ _ _ hhappens hs => ?_) es hrun
  · obtain ⟨isSsl, accepts, resolves, connects, handshakes, later⟩ := W
    simp only [wsRelay, handleWebSocketRequest, WsSetup.opens]
    cases isSsl <;> cases accepts <;> cases resolves <;> cases connects <;> cases handshakes <;> rfl
  · exact (WsRelay.callbacks_add_loops_onEvent hhappens).trans hs

/-! ## One callback -/

/-- A handler that has finished has called back once exactly when its request was not answered
from a local file, and a WebSocket relay exactly when its loops were never started. -/
theorem callbacks_eq_one_iff (P : PhrParser) (S : Surroundings) (m : RequestMeta) :
    (∀ reads n, HttpProxyHandler.start.life P S m reads = some (none, n) →
      (n = 1 ↔ ∀ h, HttpProxyHandler.start.withHeader P reads = some h →
        S.servesFile m h = false)) ∧
    ∀ decode W h es, (wsRelay decode W h).Along WsRelay.Happens es →
      (∀ side, ((wsRelay decode W h).exec es).reading side = false) →
      (((wsRelay decode W h).exec es).callbacks = 1 ↔ W.opens = false) := by
  constructor
  · intro reads n hlife
    rw [callbacks_life reads _ hlife]
    cases HttpProxyHandler.start.withHeader P reads with
    | none => simp
    | some h => cases hfile : S.servesFile m h <;> simp [hfile]
  · intro decode W h es hrun hended
    have hsum := callbacks_add_loops decode W h es hrun
    have hnone : ((wsRelay decode W h).exec es).loops = 0 := by
      simp [WsRelay.loops, hended]
    rw [hnone, Nat.add_zero] at hsum
    rw [hsum]
    cases W.opens <;> simp

/-- Surroundings in which the router gives every path the one answer. -/
def Surroundings.answering (conn : Option ConnectionInfo) : Surroundings where
  httpCompression := false
  httpExternalAuthorization := false
  jwtPublicKeyPem := []
  getRouteTarget := fun _ => conn
  file := fun _ => ⟨true, true, true⟩
  isSsl := false
  target := .willing []
  reads := []

/-- A request for a path without a route. -/
theorem callbacks_eq_one_iff_not_found :
    let S := Surroundings.answering none
    let reads := [.data (lit "GET /a HTTP/1.1\r\nHost: a\r\n\r\n")]
    ∃ n, HttpProxyHandler.start.life pico S (.fresh .none false) reads = some (none, n) ∧
      n = 1 := by
  intro S reads
  have hlife : HttpProxyHandler.start.life pico S (.fresh .none false) reads = some (none, 1) := by
    decide +kernel
  refine ⟨1, hlife, ((callbacks_eq_one_iff pico S _).1 reads 1 hlife).2 ?_⟩
  intro h _
  simp [Surroundings.servesFile, S, Surroundings.answering]

/-- A request for a local file. -/
theorem not_callbacks_eq_one_local_file :
    let S := Surroundings.answering (some (routeTarget (lit "/x") true))
    let reads := [.data (lit "GET /a HTTP/1.1\r\nHost: a\r\n\r\n")]
    ∃ n, HttpProxyHandler.start.life pico S (.fresh .none false) reads = some (none, n) ∧
      n ≠ 1 := by
  intro S reads
  have hlife : HttpProxyHandler.start.life pico S (.fresh .none false) reads = some (none, 2) := by
    decide +kernel
  exact ⟨2, hlife, by decide⟩

end Azugate
