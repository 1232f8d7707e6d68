import Azugate.Server
import Azugate.TokenBucket

/-!
# The gateway under its configuration

`Gateway` is the server of `Server` together with what its accepts really find : the variables
of the configuration (`g_ip_blacklist`, `g_enable_rate_limiter`, `g_enable_https` and the two
numbers of the rate limiter), the token bucket, and the timer that refills it. `gateway` runs
it over calls of the configuration functions, ticks, accepts and reads in any order, each event
run to its end before the next. Calls of `GetToken` and ticks that overlap on the threads of `Run`
are not among its runs, but those of `limiter`.

Every run of `gateway` is a run of `server` and of `limiterCalls` (`server_exec`,
`rateLimiter_exec`). The timer is set from its last expiry and not from the clock, so the
ticks keep to their seconds (`expiry_exec`), and the limiter bounds the connections served in any
stretch of time by the tokens at hand and one refill a second.
-/

namespace Azugate

/-! ## The handshake -/

/-- How `SslHandshake` finds its files and the client. -/
structure Handshake where
  usesCertificateChainFile : Bool
  usesPrivateKeyFile : Bool
  /-- What `handshake` throws, if it throws. -/
  exception : Option Str
  deriving DecidableEq, Repr

/-- The one exception after which `SslHandshake` goes on. -/
def alertCertificateUnknown : Str :=
  lit "handshake: ssl/tls alert certificate unknown (SSL routines) [asio.ssl:167773206]"

/-- `SslHandshake` returns a stream. -/
def sslHandshake (t : Handshake) : Bool :=
  if !t.usesCertificateChainFile then false
  else if !t.usesPrivateKeyFile then false
  else
    match t.exception with
    | none => true
    | some what => what == alertCertificateUnknown

/-! ## The gateway -/

/-- The variables of the configuration that a connection meets. -/
structure Settings where
  ipBlacklist : List Str
  enableRateLimiter : Bool
  enableHttps : Bool
  rateLimitor : RateLimitorConfig

/-- `kDftTokenGenIntervalSec`, in the nanoseconds of the clock. -/
def tokenGenInterval : ℕ := 1000000000

/-- The server, the limiter with its timer, and the variables they read. The limiter holds the
two numbers of its configuration. -/
structure Gateway where
  /-- `g_ip_blacklist`, a set : only membership is read. -/
  ipBlacklist : List Str
  enableRateLimiter : Bool
  enableHttps : Bool
  rateLimiter : TokenBucketRateLimiter
  /-- The clock. -/
  now : ℕ
  /-- When `timer_` expires. -/
  expiry : ℕ
  server : Server

/-- A call of the configuration, time that passes, an expired timer, or an event of the
server. -/
inductive GatewayEvent where
  | addBlacklistIp (ip : Str)
  | removeBlacklistIp (ip : Str)
  | setEnableRateLimitor (enable : Bool)
  | setHttps (https : Bool)
  | configRateLimitor (numTokenMax numTokenPerSec : UInt64)
  | elapse (nanoseconds : ℕ)
  | tick
  | accepted (error endpointError : Bool) (address : Str) (tls : Handshake)
  | read (i : ℕ) (r : ReadResult) (S : Surroundings) (m : RequestMeta)

namespace Gateway

/-- The constructor of `Server`, with `rate_limiter_.Start()`, and the `accept` of `Run`. -/
def construct (S : Settings) (now : ℕ) : Gateway where
  ipBlacklist := S.ipBlacklist
  enableRateLimiter := S.enableRateLimiter
  enableHttps := S.enableHttps
  rateLimiter := .construct S.rateLimitor
  now := now
  expiry := now + tokenGenInterval
  server := Server.accept ⟨0, []⟩ 1

/-- A completed accept, with what the configuration and the limiter say about it. -/
def incoming (g : Gateway) (error endpointError : Bool) (address : Str) (tls : Handshake) :
    Incoming where
  error := error
  endpointError := endpointError
  address := address
  ipBlackList := g.ipBlacklist
  enableRateLimiter := g.enableRateLimiter
  token := g.rateLimiter.getToken.1
  https := g.enableHttps
  handshake := sslHandshake tls

/-- `onAccept`. A token is asked for in `Dispatch`, and only with the limiter on. -/
def onAccept (g : Gateway) (c : Incoming) : Gateway :=
  { g with
    rateLimiter :=
      if c.isDispatched && g.enableRateLimiter then g.rateLimiter.getToken.2 else g.rateLimiter
    server := g.server.onAccept c }

/-- `TokenBucketRateLimiter::tick`. -/
def tick (g : Gateway) : Gateway :=
  { g with rateLimiter := g.rateLimiter.performTask, expiry := g.expiry + tokenGenInterval }

/-- The gateway after an event. -/
def step (P : PhrParser) (g : Gateway) : GatewayEvent → Gateway
  | .addBlacklistIp ip => { g with ipBlacklist := g.ipBlacklist.insert ip }
  | .removeBlacklistIp ip => { g with ipBlacklist := g.ipBlacklist.filter (· != ip) }
  | .setEnableRateLimitor enable => { g with enableRateLimiter := enable }
  | .setHttps https => { g with enableHttps := https }
  | .configRateLimitor numTokenMax numTokenPerSec =>
    { g with rateLimiter := g.rateLimiter.configRateLimitor numTokenMax numTokenPerSec }
  | .elapse nanoseconds => { g with now := g.now + nanoseconds }
  | .tick => g.tick
  | .accepted error endpointError address tls =>
    g.onAccept (g.incoming error endpointError address tls)
  | .read i r S m => { g with server := g.server.onRead P i r S m }

end Gateway

/-- The gateway started at `now` under the settings `S`, on events that do not overlap. -/
def gateway (P : PhrParser) (S : Settings) (now : ℕ) : Machine Gateway GatewayEvent where
  init := .construct S now
  step := Gateway.step P

/-- A tick needs an expired timer, an accept one that is under way, and a read a handler that
waits for it. -/
def Possible (P : PhrParser) (g : Gateway) : GatewayEvent → Prop
  | .tick => g.expiry ≤ g.now
  | .accepted error endpointError address tls =>
    Happens P g.server (.accepted (g.incoming error endpointError address tls))
  | .read i r S m => Happens P g.server (.read i r S m)
  | _ => True

instance (P : PhrParser) (g : Gateway) : ∀ e : GatewayEvent, Decidable (Possible P g e)
  | .tick => inferInstanceAs (Decidable (g.expiry ≤ g.now))
  | .accepted error endpointError address tls =>
    inferInstanceAs
      (Decidable (Happens P g.server (.accepted (g.incoming error endpointError address tls))))
  | .read i r S m => inferInstanceAs (Decidable (Happens P g.server (.read i r S m)))
  | .addBlacklistIp _ | .removeBlacklistIp _ | .setEnableRateLimitor _ | .setHttps _ |
    .configRateLimitor .. | .elapse _ => inferInstanceAs (Decidable True)

variable {P : PhrParser}

/-! ## The machines below -/

/-- The event of the server, if it is one. -/
def Gateway.serverEvent (g : Gateway) : GatewayEvent → Option ServerEvent
  | .accepted error endpointError address tls =>
    some (.accepted (g.incoming error endpointError address tls))
  | .read i r S m => some (.read i r S m)
  | _ => none

/-- The call of the limiter, if there is one. -/
def Gateway.limiterCall (g : Gateway) : GatewayEvent → Option LimiterCall
  | .configRateLimitor numTokenMax numTokenPerSec =>
    some (.configRateLimitor numTokenMax numTokenPerSec)
  | .tick => some .performTask
  | .accepted error endpointError address tls =>
    if (g.incoming error endpointError address tls).isDispatched && g.enableRateLimiter then
      some .getToken
    else none
  | _ => none

theorem Gateway.server_step (g : Gateway) (e : GatewayEvent) :
    (g.step P e).server = (g.serverEvent e).toList.foldl (Azugate.server P).step g.server := by
  cases e <;> rfl

theorem Gateway.rateLimiter_step (g : Gateway) (e : GatewayEvent) :
    (g.step P e).rateLimiter =
      (g.limiterCall e).toList.foldl TokenBucketRateLimiter.call g.rateLimiter := by
  cases e with
  | accepted error endpointError address tls =>
    show (if (g.incoming error endpointError address tls).isDispatched && g.enableRateLimiter
      then g.rateLimiter.getToken.2 else g.rateLimiter) = _
    rw [limiterCall]
    split_ifs with h
    · rfl
    · rfl
  | _ => rfl

namespace Gateway

/-- The gateway in the state `g`, driven by its events. -/
def machine (P : PhrParser) (g : Gateway) : Machine Gateway GatewayEvent :=
  ⟨g, Gateway.step P⟩

/-- The events of the server in a run from `g`. -/
def serverTrace (P : PhrParser) (g : Gateway) (es : List GatewayEvent) : List ServerEvent :=
  Machine.trace (step P) serverEvent g es

/-- The calls of the limiter in a run from `g`. -/
def limiterTrace (P : PhrParser) (g : Gateway) (es : List GatewayEvent) : List LimiterCall :=
  Machine.trace (step P) limiterCall g es

@[simp] theorem serverTrace_cons (g : Gateway) (e : GatewayEvent) (es : List GatewayEvent) :
    g.serverTrace P (e :: es) = (g.serverEvent e).toList ++ (g.step P e).serverTrace P es :=
  rfl

@[simp] theorem limiterTrace_cons (g : Gateway) (e : GatewayEvent) (es : List GatewayEvent) :
    g.limiterTrace P (e :: es) = (g.limiterCall e).toList ++ (g.step P e).limiterTrace P es :=
  rfl

/-- The limiter of the gateway is the limiter after the calls of its trace. -/
theorem rateLimiter_exec (g : Gateway) (es : List GatewayEvent) :
    ((machine P g).exec es).rateLimiter =
      (g.limiterTrace P es).foldl TokenBucketRateLimiter.call g.rateLimiter :=
  Machine.exec_trace (M := machine P g) (N := limiterCalls g.rateLimiter.cfg) rateLimiter
    rateLimiter_step es g

end Gateway

/-- The server of a run is the server after the run's trace, which is a run itself. -/
theorem server_exec (S : Settings) (now : ℕ) (es : List GatewayEvent)
    (h : (gateway P S now).Along (Possible P) es) :
    ((gateway P S now).exec es).server =
        (server P).exec ((Gateway.construct S now).serverTrace P es) ∧
      (server P).Along (Happens P) ((Gateway.construct S now).serverTrace P es) := by
  have hpass : ∀ (g : Gateway) e, Possible P g e → ∀ k ∈ g.serverEvent e,
      Happens P g.server k := by
    intro g e he k hk
    cases e with
    | accepted error endpointError address tls =>
      obtain rfl := Option.some.inj hk
      exact he
    | read i r S m =>
      obtain rfl := Option.some.inj hk
      exact he
    | _ => simp [Gateway.serverEvent] at hk
  exact ⟨Machine.exec_trace (M := gateway P S now) (N := server P) Gateway.server
      Gateway.server_step es _,
    Machine.along_trace (M := gateway P S now) (N := server P) Gateway.server
      Gateway.server_step hpass es _ h⟩

/-! ## The timer -/

/-- The ticks of a run. -/
def ticks (es : List GatewayEvent) : ℕ :=
  es.countP fun e => e matches .tick

/-- The timer is set to whole seconds after its start, and no tick comes before its time : the
last one was due a second before the next will be. -/
theorem expiry_exec : ∀ (es : List GatewayEvent) (g : Gateway),
    (Gateway.machine P g).Along (Possible P) es →
      ((Gateway.machine P g).exec es).expiry = g.expiry + tokenGenInterval * ticks es ∧
        g.now ≤ ((Gateway.machine P g).exec es).now ∧
        (ticks es ≠ 0 → g.expiry + tokenGenInterval * ticks es ≤
          ((Gateway.machine P g).exec es).now + tokenGenInterval)
  | [], g, _ => ⟨rfl, le_rfl, fun h => absurd rfl h⟩
  | e :: es, g, h => by
    obtain ⟨he, hes⟩ := Machine.along_cons.1 h
    obtain ⟨hexp, hnow, hdue⟩ := expiry_exec es (g.step P e) hes
    show ((Gateway.machine P (g.step P e)).exec es).expiry = _ ∧
      g.now ≤ ((Gateway.machine P (g.step P e)).exec es).now ∧
      (_ → _ ≤ ((Gateway.machine P (g.step P e)).exec es).now + _)
    cases e with
    | tick =>
      have hticks : ticks (.tick :: es) = ticks es + 1 := by simp [ticks]
      replace he : g.expiry ≤ g.now := he
      simp only [Gateway.step, Gateway.tick] at hexp hnow hdue ⊢
      rw [hticks, Nat.mul_succ]
      refine ⟨by omega, hnow, fun _ => ?_⟩
      by_cases hzero : ticks es = 0
      · rw [hzero]
        omega
      · have := hdue hzero
        omega
    | elapse nanoseconds =>
      simp only [Gateway.step] at hexp hnow hdue ⊢
      exact ⟨hexp, by omega, hdue⟩
    | _ => exact ⟨hexp, hnow, hdue⟩

/-! ## Connections served -/

/-- `Dispatch` starts a handler for the connection. -/
def Incoming.startsHandler (c : Incoming) : Bool :=
  c.isDispatched && (!c.enableRateLimiter || c.token) && (!c.https || c.handshake)

/-- The event starts a handler. -/
def ServerEvent.startsHandler : ServerEvent → Bool
  | .accepted c => c.startsHandler
  | .read .. => false

/-- The handlers started in a run from `g`. -/
def Gateway.started (P : PhrParser) (g : Gateway) (es : List GatewayEvent) : ℕ :=
  (g.serverTrace P es).countP ServerEvent.startsHandler

theorem Server.handlers_onAccept (s : Server) (c : Incoming) :
    (s.onAccept c).handlers =
      s.handlers ++ if c.startsHandler then [HttpProxyHandler.start] else [] := by
  unfold onAccept dispatch
  split_ifs <;> simp_all [Incoming.startsHandler, Incoming.isDispatched, accept, startHandler]

namespace Gateway

theorem started_cons (g : Gateway) (e : GatewayEvent) (es : List GatewayEvent) :
    g.started P (e :: es) =
      (g.serverEvent e).toList.countP ServerEvent.startsHandler + (g.step P e).started P es := by
  simp [started]

/-- With the limiter on, a connection that starts a handler has been granted a token. -/
theorem started_event_le_grants {g : Gateway} (hon : g.enableRateLimiter = true)
    (e : GatewayEvent) :
    (g.serverEvent e).toList.countP ServerEvent.startsHandler ≤
      g.rateLimiter.grants (g.limiterCall e).toList := by
  cases e with
  | accepted error endpointError address tls =>
    have hcount : (g.serverEvent (.accepted error endpointError address tls)).toList.countP
        ServerEvent.startsHandler =
          if (g.incoming error endpointError address tls).startsHandler then 1 else 0 :=
      List.countP_singleton
    rw [hcount]
    split_ifs with hstarts
    · simp only [Incoming.startsHandler, Bool.and_eq_true, Bool.or_eq_true] at hstarts
      obtain ⟨⟨hdispatched, htoken⟩, -⟩ := hstarts
      replace htoken : g.rateLimiter.getToken.1 = true := by
        rcases htoken with hoff | htoken
        · simp [incoming, hon] at hoff
        · exact htoken
      simp [limiterCall, hdispatched, hon, TokenBucketRateLimiter.grants, htoken]
    · exact Nat.zero_le _
  | _ => exact Nat.zero_le _

theorem enableRateLimiter_step {g : Gateway} (hon : g.enableRateLimiter = true)
    {e : GatewayEvent} (he : e ≠ .setEnableRateLimitor false) :
    (g.step P e).enableRateLimiter = true := by
  cases e with
  | setEnableRateLimitor enable =>
    cases enable with
    | true => rfl
    | false => exact absurd rfl he
  | _ => exact hon

theorem started_le_grants : ∀ (es : List GatewayEvent) {g : Gateway},
    g.enableRateLimiter = true → .setEnableRateLimitor false ∉ es →
      g.started P es ≤ g.rateLimiter.grants (g.limiterTrace P es)
  | [], _, _, _ => le_rfl
  | e :: es, g, hon, hes => by
    obtain ⟨he, hes⟩ := List.ne_and_not_mem_of_not_mem_cons hes
    have hrest := started_le_grants es (enableRateLimiter_step (P := P) hon he.symm) hes
    have hevent := started_event_le_grants hon e
    rw [started_cons, limiterTrace_cons, TokenBucketRateLimiter.grants_append,
      ← rateLimiter_step (P := P)]
    omega

end Gateway

/-! ## The bound by time -/

/-- No call of `ConfigRateLimitor` asks for more than `cap` tokens or a higher rate than
`rate`. -/
def GatewayEvent.ConfiguresAtMost (cap rate : ℕ) : GatewayEvent → Prop
  | .configRateLimitor numTokenMax numTokenPerSec =>
    numTokenMax.toNat ≤ cap ∧ numTokenPerSec.toNat ≤ rate
  | _ => True

namespace Gateway

/-- The capacity and the rate of the configuration, and the tokens, are at most these. -/
structure AtMost (cap rate : ℕ) (l : TokenBucketRateLimiter) : Prop where
  nToken : l.nToken ≤ cap
  numTokenMax : l.cfg.numTokenMax ≤ cap
  numTokenPerSec : l.cfg.numTokenPerSec ≤ rate
  lt : l.nToken < sizeMod

variable {cap rate : ℕ}

theorem AtMost.getToken {l : TokenBucketRateLimiter} (h : AtMost cap rate l) :
    AtMost cap rate l.getToken.2 := by
  obtain ⟨hle, hmax, hrate, hlt⟩ := h
  rcases Nat.eq_zero_or_pos l.nToken with hzero | hpos
  · rw [TokenBucketRateLimiter.getToken_of_zero hzero]
    exact ⟨hle, hmax, hrate, hlt⟩
  · rw [TokenBucketRateLimiter.getToken_of_pos hpos hlt]
    exact ⟨(Nat.sub_le _ _).trans hle, hmax, hrate, (Nat.sub_le _ _).trans_lt hlt⟩

theorem AtMost.step {g : Gateway} (h : AtMost cap rate g.rateLimiter) {e : GatewayEvent}
    (he : e.ConfiguresAtMost cap rate) : AtMost cap rate (g.step P e).rateLimiter := by
  cases e with
  | configRateLimitor numTokenMax numTokenPerSec =>
    obtain ⟨hle, hmax, hrate, hlt⟩ := h
    refine ⟨hle, ?_, ?_, hlt⟩
    · show (if _ then _ else _) ≤ cap
      split_ifs
      · exact he.1
      · exact hmax
    · show (if _ then _ else _) ≤ rate
      split_ifs
      · exact he.2
      · exact hrate
  | tick =>
    have hfull := g.rateLimiter.nToken_performTask_le.1
    exact ⟨hfull.trans h.numTokenMax, h.numTokenMax, h.numTokenPerSec,
      hfull.trans_lt g.rateLimiter.cfg.max_lt⟩
  | accepted error endpointError address tls =>
    show AtMost cap rate (if _ then _ else _)
    split_ifs
    · exact h.getToken
    · exact h
  | _ => exact h

theorem AtMost.exec {g : Gateway} (h : AtMost cap rate g.rateLimiter) :
    ∀ es : List GatewayEvent, (∀ e ∈ es, e.ConfiguresAtMost cap rate) →
      AtMost cap rate ((machine P g).exec es).rateLimiter := by
  intro es hes
  induction es generalizing g with
  | nil => exact h
  | cons e es ih =>
    obtain ⟨he, hes⟩ := List.forall_mem_cons.1 hes
    exact ih (h.step he) hes

/-- The counter is a `size_t`. -/
theorem nToken_lt_exec (es : List GatewayEvent) {g : Gateway}
    (h : g.rateLimiter.nToken < sizeMod) :
    ((machine P g).exec es).rateLimiter.nToken < sizeMod := by
  have hall : AtMost sizeMod sizeMod g.rateLimiter :=
    ⟨h.le, g.rateLimiter.cfg.max_lt.le, g.rateLimiter.cfg.perSec_lt.le, h⟩
  refine (hall.exec es fun e _ => ?_).lt
  cases e with
  | configRateLimitor numTokenMax numTokenPerSec =>
    rw [sizeMod_eq]
    exact ⟨numTokenMax.toNat_lt.le, numTokenPerSec.toNat_lt.le⟩
  | _ => trivial

theorem cfg_getToken (l : TokenBucketRateLimiter) : l.getToken.2.cfg = l.cfg := by
  by_cases h : 0 < l.nToken
  · simp only [TokenBucketRateLimiter.getToken, if_pos h]
  · simp only [TokenBucketRateLimiter.getToken, if_neg h]

/-- The refills of a run are at most the rate for each tick. -/
theorem refilled_limiterTrace_le : ∀ (es : List GatewayEvent) {g : Gateway},
    AtMost cap rate g.rateLimiter → (∀ e ∈ es, e.ConfiguresAtMost cap rate) →
      refilled g.rateLimiter.cfg (g.limiterTrace P es) ≤ rate * ticks es
  | [], _, _, _ => Nat.zero_le _
  | e :: es, g, h, hes => by
    obtain ⟨he, hes⟩ := List.forall_mem_cons.1 hes
    have hrest := refilled_limiterTrace_le es (h.step (P := P) he) hes
    cases e with
    | tick =>
      have hticks : ticks (.tick :: es) = ticks es + 1 := by simp [ticks]
      have hrate := h.numTokenPerSec
      show g.rateLimiter.cfg.numTokenPerSec + refilled g.rateLimiter.cfg _ ≤ _
      rw [hticks, Nat.mul_succ, Nat.add_comm]
      exact Nat.add_le_add hrest hrate
    | accepted error endpointError address tls =>
      have hticks : ticks (.accepted error endpointError address tls :: es) = ticks es := by
        simp [ticks]
      have hcfg : (g.step P (.accepted error endpointError address tls)).rateLimiter.cfg =
          g.rateLimiter.cfg := by
        show (if _ then g.rateLimiter.getToken.2 else g.rateLimiter).cfg = _
        split_ifs
        · exact cfg_getToken _
        · rfl
      rw [hcfg] at hrest
      rw [hticks, limiterTrace_cons, limiterCall]
      split_ifs
      · exact hrest
      · exact hrest
    | _ => exact hrest

/-- With the limiter on, the connections served and the tokens left are paid for by the tokens
at the start and the ticks. -/
theorem started_add_nToken_le {g : Gateway} {es : List GatewayEvent}
    (hon : g.enableRateLimiter = true) (hstays : .setEnableRateLimitor false ∉ es)
    (h : AtMost cap rate g.rateLimiter) (hes : ∀ e ∈ es, e.ConfiguresAtMost cap rate) :
    g.started P es + ((machine P g).exec es).rateLimiter.nToken ≤
      g.rateLimiter.nToken + rate * ticks es := by
  have hgrants := started_le_grants (P := P) es hon hstays
  have hpaid := TokenBucketRateLimiter.grants_add_nToken_le (g.limiterTrace P es) g.rateLimiter h.lt
  have hrefilled := refilled_limiterTrace_le (P := P) es h hes
  rw [rateLimiter_exec]
  omega

end Gateway

/-- In every stretch `es` of every run, as long as the limiter is on and every tick that was due
before has run, the gateway starts at most `cap` handlers and `rate` more for each second begun,
where `cap` and `rate` bound what is configured over the run. As in all runs of `gateway`, no
accept or tick overlaps another. -/
theorem started_le_of_elapsed (P : PhrParser) (S : Settings) (start cap rate : ℕ)
    (pre es : List GatewayEvent) (h : (gateway P S start).Along (Possible P) (pre ++ es))
    (hcap : S.rateLimitor.numTokenMax ≤ cap) (hrate : S.rateLimitor.numTokenPerSec ≤ rate)
    (hconfigs : ∀ e ∈ pre ++ es, e.ConfiguresAtMost cap rate)
    (hon : ((gateway P S start).exec pre).enableRateLimiter = true)
    (hstays : .setEnableRateLimitor false ∉ es)
    (hdue : ((gateway P S start).exec pre).now < ((gateway P S start).exec pre).expiry) :
    ((gateway P S start).exec pre).started P es ≤
      cap + rate * ((((gateway P S start).exec (pre ++ es)).now -
        ((gateway P S start).exec pre).now) / tokenGenInterval + 1) := by
  have hinit : Gateway.AtMost cap rate (Gateway.construct S start).rateLimiter :=
    ⟨hcap, hcap, hrate, S.rateLimitor.max_lt⟩
  have hpre : Gateway.AtMost cap rate ((gateway P S start).exec pre).rateLimiter :=
    hinit.exec pre fun e he => hconfigs e (List.mem_append_left es he)
  have hpaid := Gateway.started_add_nToken_le (P := P) hon hstays hpre
    fun e he => hconfigs e (List.mem_append_right pre he)
  obtain ⟨-, hnow, hlast⟩ := expiry_exec es _ h.startAt
  rw [Machine.exec_append]
  set g := (gateway P S start).exec pre with hg
  change _ ≤ cap + rate * ((((Gateway.machine P g).exec es).now - g.now) / tokenGenInterval + 1)
  set now' := ((Gateway.machine P g).exec es).now with hnow'
  -- the ticks but the first are each due a second after the one before
  have hticks : ticks es ≤ (now' - g.now) / tokenGenInterval + 1 := by
    cases hk : ticks es with
    | zero => exact Nat.zero_le _
    | succ k =>
      have hlast := hlast (by omega)
      rw [hk, Nat.mul_succ] at hlast
      have hspan : k * tokenGenInterval ≤ now' - g.now := by
        rw [Nat.mul_comm]
        omega
      exact Nat.succ_le_succ ((Nat.le_div_iff_mul_le (by norm_num [tokenGenInterval])).2 hspan)
  have hmul := Nat.mul_le_mul_left rate hticks
  have htokens := hpre.nToken
  omega

/-- The default limiter over its first second, and a connection right after the tick. -/
theorem started_le_of_elapsed_one_second :
    let S : Settings := ⟨[], true, false, .default⟩
    let tls : Handshake := ⟨true, true, none⟩
    let pre := [.accepted false false (lit "a") tls, .elapse tokenGenInterval, .tick]
    let es := [.elapse 5, .accepted false false (lit "a") tls]
    (gateway pico S 0).Along (Possible pico) (pre ++ es) ∧
      ((gateway pico S 0).exec pre).started pico es ≤
        1000 + 100 * ((((gateway pico S 0).exec (pre ++ es)).now -
          ((gateway pico S 0).exec pre).now) / tokenGenInterval + 1) := by
  intro S tls pre es
  have hrun : (gateway pico S 0).Along (Possible pico) (pre ++ es) := by decide +kernel
  refine ⟨hrun, started_le_of_elapsed pico S 0 1000 100 pre es hrun le_rfl le_rfl ?_
    (by decide +kernel) ?_ (by decide +kernel)⟩
  · simp [pre, es, GatewayEvent.ConfiguresAtMost]
  · simp [es]

/-! ## What is served after a pause -/

/-- The event neither brings a connection nor changes the numbers of the limiter. -/
def GatewayEvent.isIdle : GatewayEvent → Bool
  | .accepted .. | .configRateLimitor .. => false
  | _ => true

/-- An accepted connection that only the limiter could stop. -/
def Gateway.Passes (g : Gateway) : GatewayEvent → Prop
  | .accepted error endpointError address tls =>
    error = false ∧ endpointError = false ∧ address ∉ g.ipBlacklist ∧
      (g.enableHttps = true → sslHandshake tls = true)
  | _ => False

namespace Gateway

/-- The timer is never set for more than a second ahead. -/
theorem expiry_le (S : Settings) (start : ℕ) {es : List GatewayEvent}
    (h : (gateway P S start).Along (Possible P) es) :
    ((gateway P S start).exec es).expiry ≤
      ((gateway P S start).exec es).now + tokenGenInterval := by
  refine Machine.Along.invariant (fun _ g => g.expiry ≤ g.now + tokenGenInterval) le_rfl
    (fun es e _ he hle => ?_) es h
  cases e with
  | tick =>
    replace he : ((gateway P S start).exec es).expiry ≤ ((gateway P S start).exec es).now := he
    exact Nat.add_le_add_right he _
  | elapse nanoseconds =>
    show ((gateway P S start).exec es).expiry ≤
      ((gateway P S start).exec es).now + nanoseconds + tokenGenInterval
    omega
  | _ => exact hle

theorem idle_cases (g : Gateway) {e : GatewayEvent} (he : e.isIdle = true)
    (es : List GatewayEvent) :
    e = .tick ∨ (g.step P e).rateLimiter = g.rateLimiter ∧ ticks (e :: es) = ticks es := by
  cases e with
  | tick => exact Or.inl rfl
  | accepted error endpointError address tls => simp [GatewayEvent.isIdle] at he
  | configRateLimitor numTokenMax numTokenPerSec => simp [GatewayEvent.isIdle] at he
  | _ => exact Or.inr ⟨rfl, by simp [ticks]⟩

/-- The ticks of a pause fill the bucket. -/
theorem nToken_idle : ∀ (es : List GatewayEvent) {g : Gateway},
    (∀ e ∈ es, e.isIdle = true) →
      g.rateLimiter.nToken + g.rateLimiter.cfg.numTokenPerSec < sizeMod →
      g.rateLimiter.cfg.numTokenMax + g.rateLimiter.cfg.numTokenPerSec < sizeMod →
      min g.rateLimiter.cfg.numTokenMax
          (g.rateLimiter.nToken + g.rateLimiter.cfg.numTokenPerSec * ticks es) ≤
        ((machine P g).exec es).rateLimiter.nToken
  | [], _, _, _, _ => min_le_right _ _
  | e :: es, g, hidle, hfits, hmax => by
    obtain ⟨he, hes⟩ := List.forall_mem_cons.1 hidle
    have hrest := nToken_idle (g := g.step P e) es hes
    refine le_trans ?_ (hrest ?_ ?_)
    all_goals obtain rfl | ⟨hkeeps, hticks⟩ := idle_cases (P := P) g he es
    · have hticks : ticks (.tick :: es) = ticks es + 1 := by simp [ticks]
      show _ ≤ min g.rateLimiter.cfg.numTokenMax
        (g.rateLimiter.performTask.nToken + g.rateLimiter.cfg.numTokenPerSec * ticks es)
      rw [TokenBucketRateLimiter.nToken_performTask_of_fits hfits, hticks, Nat.mul_succ]
      omega
    · rw [hkeeps, hticks]
    · show g.rateLimiter.performTask.nToken + g.rateLimiter.cfg.numTokenPerSec < _
      have hfull := g.rateLimiter.nToken_performTask_le.1
      omega
    · rwa [hkeeps]
    · exact hmax
    · rwa [hkeeps]

/-- A connection that passes is served while there is a token. -/
theorem started_of_passes : ∀ (cs : List GatewayEvent) {g : Gateway},
    (∀ c ∈ cs, g.Passes c) → g.rateLimiter.nToken < sizeMod →
      cs.length ≤ g.rateLimiter.nToken → g.started P cs = cs.length
  | [], _, _, _, _ => rfl
  | c :: cs, g, hpass, hlt, hlen => by
    obtain ⟨hc, hcs⟩ := List.forall_mem_cons.1 hpass
    cases c with
    | accepted error endpointError address tls =>
      obtain ⟨rfl, rfl, hlisted, htls⟩ := hc
      rw [List.length_cons] at hlen
      have htoken := TokenBucketRateLimiter.getToken_of_pos (by omega) hlt
      have hdispatched : (g.incoming false false address tls).isDispatched = true := by
        simp [Incoming.isDispatched, Incoming.filter, incoming, hlisted]
      have hstarts : (g.incoming false false address tls).startsHandler = true := by
        rw [Incoming.startsHandler, hdispatched]
        cases hssl : g.enableHttps <;> simp [incoming, htoken, hssl, htls]
      have hleft : cs.length ≤
            (g.step P (.accepted false false address tls)).rateLimiter.nToken ∧
          (g.step P (.accepted false false address tls)).rateLimiter.nToken < sizeMod := by
        show cs.length ≤ (if _ then _ else _ : TokenBucketRateLimiter).nToken ∧
          (if _ then _ else _ : TokenBucketRateLimiter).nToken < _
        split_ifs
        · rw [htoken]
          exact ⟨by dsimp only; omega, by dsimp only; omega⟩
        · exact ⟨by omega, hlt⟩
      have hrest := started_of_passes (g := g.step P (.accepted false false address tls)) cs hcs
        hleft.2 hleft.1
      rw [started_cons, hrest]
      simp [serverEvent, ServerEvent.startsHandler, hstarts, Nat.add_comm]
    | _ => exact absurd hc id

end Gateway

/-- After a stretch of any run without connections, and with every tick run that was due, a burst
of connections is served whole if it is within the capacity and within the tokens from before and
one refill for each second that has passed. -/
theorem started_eq_length_after_idle (P : PhrParser) (S : Settings) (start : ℕ)
    (pre idle cs : List GatewayEvent)
    (h : (gateway P S start).Along (Possible P) (pre ++ idle))
    (hidle : ∀ e ∈ idle, e.isIdle = true)
    (hdue : ((gateway P S start).exec (pre ++ idle)).now <
      ((gateway P S start).exec (pre ++ idle)).expiry)
    (hpass : ∀ c ∈ cs, ((gateway P S start).exec (pre ++ idle)).Passes c)
    (hfits : max ((gateway P S start).exec pre).rateLimiter.nToken
          ((gateway P S start).exec pre).rateLimiter.cfg.numTokenMax +
        ((gateway P S start).exec pre).rateLimiter.cfg.numTokenPerSec < sizeMod)
    (hlen : cs.length ≤ min ((gateway P S start).exec pre).rateLimiter.cfg.numTokenMax
      (((gateway P S start).exec pre).rateLimiter.nToken +
        ((gateway P S start).exec pre).rateLimiter.cfg.numTokenPerSec *
          ((((gateway P S start).exec (pre ++ idle)).now - ((gateway P S start).exec pre).now) /
            tokenGenInterval))) :
    ((gateway P S start).exec (pre ++ idle)).started P cs = cs.length := by
  have hahead := Gateway.expiry_le S start h.of_append
  obtain ⟨hexpiry, hnow, -⟩ := expiry_exec idle _ h.startAt
  rw [Machine.exec_append] at hdue hpass hlen ⊢
  set g := (gateway P S start).exec pre
  change ∀ c ∈ cs, ((Gateway.machine P g).exec idle).Passes c at hpass
  change ((Gateway.machine P g).exec idle).now < ((Gateway.machine P g).exec idle).expiry at hdue
  change cs.length ≤ min g.rateLimiter.cfg.numTokenMax (g.rateLimiter.nToken +
    g.rateLimiter.cfg.numTokenPerSec *
      ((((Gateway.machine P g).exec idle).now - g.now) / tokenGenInterval)) at hlen
  change ((Gateway.machine P g).exec idle).started P cs = _
  change ((Gateway.machine P g).exec idle).expiry = _ at hexpiry
  -- every second that has passed had its tick
  have hticks : (((Gateway.machine P g).exec idle).now - g.now) / tokenGenInterval ≤
      ticks idle := by
    refine Nat.le_of_lt_succ ((Nat.div_lt_iff_lt_mul (by norm_num [tokenGenInterval])).2 ?_)
    rw [Nat.succ_mul, Nat.mul_comm]
    omega
  have htokens := Gateway.nToken_idle (P := P) (g := g) idle hidle (by omega) (by omega)
  have hmul := Nat.mul_le_mul_left g.rateLimiter.cfg.numTokenPerSec hticks
  refine Gateway.started_of_passes cs hpass ?_ (by omega)
  exact Gateway.nToken_lt_exec idle (Gateway.nToken_lt_exec pre S.rateLimitor.max_lt)

/-- The bucket of three tokens is empty, and refilled by two a second : three seconds later it
serves three connections. -/
theorem started_eq_length_after_idle_three :
    let S : Settings := ⟨[], true, false, RateLimitorConfig.default.config 3 2⟩
    let c : GatewayEvent := .accepted false false (lit "a") ⟨true, true, none⟩
    let pre := [c, c, c]
    let idle := [.elapse 2000000000, .tick, .elapse 1000000000, .tick, .tick]
    (gateway pico S 0).Along (Possible pico) (pre ++ idle) ∧
      ((gateway pico S 0).exec (pre ++ idle)).started pico [c, c, c] = 3 := by
  intro S c pre idle
  have hrun : (gateway pico S 0).Along (Possible pico) (pre ++ idle) := by decide +kernel
  refine ⟨hrun, started_eq_length_after_idle pico S 0 pre idle [c, c, c] hrun (by decide +kernel)
    (by decide +kernel) ?_ (by decide +kernel) (by decide +kernel)⟩
  intro c' hc'
  obtain rfl : c' = c := by simpa using hc'
  exact ⟨rfl, rfl, by decide +kernel, by simp [sslHandshake]⟩

/-! ## Which connections are served -/

/-- What a call says about an address : that it is on the blacklist, or that it is not. -/
def GatewayEvent.listsIp (address : Str) : GatewayEvent → Option Bool
  | .addBlacklistIp ip => if ip = address then some true else none
  | .removeBlacklistIp ip => if ip = address then some false else none
  | _ => none

/-- The value of `SetEnableRateLimitor`. -/
def GatewayEvent.enablesRateLimitor : GatewayEvent → Option Bool
  | .setEnableRateLimitor enable => some enable
  | _ => none

/-- The value of `SetHttps`. -/
def GatewayEvent.enablesHttps : GatewayEvent → Option Bool
  | .setHttps https => some https
  | _ => none

/-- What the last of the calls that set it made of a setting. -/
def lastSet (sets : GatewayEvent → Option Bool) (es : List GatewayEvent) (first : Bool) : Bool :=
  ((es.filterMap sets).getLast?).getD first

namespace Gateway

theorem contains_ipBlacklist_step (g : Gateway) (e : GatewayEvent) (address : Str) :
    (g.step P e).ipBlacklist.contains address =
      (e.listsIp address).getD (g.ipBlacklist.contains address) := by
  cases e with
  | addBlacklistIp ip =>
    simp only [step, GatewayEvent.listsIp]
    split_ifs with hip
    · simp [hip]
    · have hne : address ≠ ip := fun h => hip h.symm
      simp [List.contains_eq_mem, hne]
  | removeBlacklistIp ip =>
    simp only [step, GatewayEvent.listsIp]
    split_ifs with hip
    · simp [hip]
    · have hne : address ≠ ip := fun h => hip h.symm
      simp [List.contains_eq_mem, hne]
  | _ => rfl

theorem contains_ipBlacklist_exec (S : Settings) (start : ℕ) (es : List GatewayEvent)
    (address : Str) :
    ((gateway P S start).exec es).ipBlacklist.contains address =
      lastSet (GatewayEvent.listsIp address) es (S.ipBlacklist.contains address) :=
  Machine.exec_register (fun g : Gateway => g.ipBlacklist.contains address)
    (GatewayEvent.listsIp address) (fun g e => contains_ipBlacklist_step g e address) es

theorem enableRateLimiter_exec (S : Settings) (start : ℕ) (es : List GatewayEvent) :
    ((gateway P S start).exec es).enableRateLimiter =
      lastSet GatewayEvent.enablesRateLimitor es S.enableRateLimiter :=
  Machine.exec_register (M := gateway P S start) Gateway.enableRateLimiter
    GatewayEvent.enablesRateLimitor (fun g e => by cases e <;> rfl) es

theorem enableHttps_exec (S : Settings) (start : ℕ) (es : List GatewayEvent) :
    ((gateway P S start).exec es).enableHttps =
      lastSet GatewayEvent.enablesHttps es S.enableHttps :=
  Machine.exec_register (M := gateway P S start) Gateway.enableHttps GatewayEvent.enablesHttps
    (fun g e => by cases e <;> rfl) es

/-- A token is missing after a call exactly if there was one. -/
theorem nToken_getToken_ne_iff {l : TokenBucketRateLimiter} (h : l.nToken < sizeMod) :
    l.getToken.2.nToken ≠ l.nToken ↔ 0 < l.nToken := by
  rcases Nat.eq_zero_or_pos l.nToken with hzero | hpos
  · simp [TokenBucketRateLimiter.getToken_of_zero hzero, hzero]
  · rw [TokenBucketRateLimiter.getToken_of_pos hpos h]
    exact ⟨fun _ => hpos, fun _ => by dsimp only; omega⟩

theorem getToken_fst_iff {l : TokenBucketRateLimiter} (h : l.nToken < sizeMod) :
    l.getToken.1 = true ↔ 0 < l.nToken := by
  rcases Nat.eq_zero_or_pos l.nToken with hzero | hpos
  · simp [TokenBucketRateLimiter.getToken_of_zero hzero, hzero]
  · simp [TokenBucketRateLimiter.getToken_of_pos hpos h, hpos]

end Gateway

/-- After any run, a completed accept starts a handler exactly when it is without an error, the
last call about its address did not put it on the blacklist, and, as far as the last calls have
turned them on, there is a token and `SslHandshake` returns a stream. The token is taken whatever
the handshake does, and never for a connection that is turned away before. -/
theorem accepted_iff_last_settings (P : PhrParser) (S : Settings) (start : ℕ)
    (es : List GatewayEvent) (error endpointError : Bool) (address : Str) (tls : Handshake) :
    let g := (gateway P S start).exec es
    let g' := (gateway P S start).exec (es ++ [.accepted error endpointError address tls])
    let limited := lastSet GatewayEvent.enablesRateLimitor es S.enableRateLimiter
    let reaches := error = false ∧ endpointError = false ∧
      lastSet (GatewayEvent.listsIp address) es (S.ipBlacklist.contains address) = false
    (g'.server.handlers = g.server.handlers ++ [HttpProxyHandler.start] ↔
        reaches ∧ (limited = true → 0 < g.rateLimiter.nToken) ∧
          (lastSet GatewayEvent.enablesHttps es S.enableHttps = true → sslHandshake tls = true)) ∧
      (g'.rateLimiter.nToken ≠ g.rateLimiter.nToken ↔
        reaches ∧ limited = true ∧ 0 < g.rateLimiter.nToken) := by
  intro g g' limited reaches
  have hlt : g.rateLimiter.nToken < sizeMod := Gateway.nToken_lt_exec es S.rateLimitor.max_lt
  have hdispatched :
      (g.incoming error endpointError address tls).isDispatched = true ↔ reaches := by
    have hlisted : g.ipBlacklist.contains address = _ :=
      Gateway.contains_ipBlacklist_exec S start es address
    simp only [reaches, ← hlisted, Incoming.isDispatched, Incoming.filter, Gateway.incoming]
    simp [and_assoc]
  have hlimited : limited = g.enableRateLimiter :=
    (Gateway.enableRateLimiter_exec S start es).symm
  have hg' : g' = g.onAccept (g.incoming error endpointError address tls) :=
    Machine.exec_snoc _ _ _
  rw [← Gateway.enableHttps_exec (P := P) S start es, hlimited, hg']
  constructor
  · show (g.server.onAccept _).handlers = _ ↔ _
    rw [Server.handlers_onAccept, List.append_cancel_left_eq, ← hdispatched, Incoming.startsHandler,
      ← Gateway.getToken_fst_iff hlt]
    have himp : ∀ a b : Bool, (!a || b) = true ↔ (a = true → b = true) := by decide
    simp only [Bool.and_eq_true, himp, and_assoc]
    split_ifs with hstarts
    · exact ⟨fun _ => hstarts, fun _ => rfl⟩
    · exact ⟨fun hnil => absurd hnil (by simp), fun h => absurd h hstarts⟩
  · show (if _ then g.rateLimiter.getToken.2 else g.rateLimiter).nToken ≠ _ ↔ _
    rw [← hdispatched, ← Gateway.nToken_getToken_ne_iff hlt]
    split_ifs with h
    · simp only [Bool.and_eq_true] at h
      simp [h]
    · simp only [Bool.and_eq_true, not_and] at h
      refine ⟨fun hne => absurd rfl hne, ?_⟩
      rintro ⟨hd, hon, -⟩
      exact absurd hon (h hd)

end Azugate
