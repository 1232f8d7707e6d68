import Azugate.Binding
import Azugate.RoundRobin

/-!
# Start-up from the configuration

`NewAzugate` of the Go binding passes the port and the public key to the core, and then adds
the routes of the configuration one by one, each under its path or else under its prefix. At a
route with neither it returns an error, and what it has added before stays in the core's tables.

`newAzugate_eq` says what the core holds afterwards. `answer_after_startup` follows the routes to
the requests : a request for a path with routes gets their targets in turn, in the order of the
configuration and from the index the core's memory left, whatever is looked up in between.
-/

namespace Azugate

/-! ## The configuration -/

/-- `config.Route`, with its `Match` and `RouteAction`. -/
structure RouteConfig where
  path : Option Str
  pre : Option Str
  isLocal : Bool
  /-- `to`. -/
  target : Str
  deriving DecidableEq, Repr

/-- `config.Config`. A port is any `int`. -/
structure Config where
  port : ℤ
  routes : List RouteConfig

/-- The variables of the core that start-up sets : `g_port`, `g_jwt_public_key_pem` and the
tables. -/
structure Core where
  port : UInt16
  jwtPublicKeyPem : Str
  routes : Routes

/-- The error of a route that matches nothing. -/
def noMatchError : Str :=
  lit "neither prefix nor path was found in the route element"

namespace Core

/-- `azugate_load_config` and `LoadConfig`. -/
def loadConfig (core : Core) (port : UInt16) (jwtPublicKeyPem : Str) : Core :=
  { core with port := port, jwtPublicKeyPem := jwtPublicKeyPem }

/-- The loop of `NewAzugate` over the routes. A new exact entry finds its index in memory,
`leftover` of its key. -/
def addRoutes (leftover : Str → ℕ) : Core → List RouteConfig → Option Str × Core
  | core, [] => (none, core)
  | core, route :: routes =>
    match route.path with
    | some path =>
      addRoutes leftover
        { core with
          routes := core.routes.bindPathMatchRoute path route.target route.isLocal
            (leftover (cString (normalizeURL path))) } routes
    | none =>
      match route.pre with
      | some pre =>
        addRoutes leftover
          { core with
            routes := core.routes.bindPrefixMatchRoute pre route.target route.isLocal } routes
      | none => (some noMatchError, core)

/-- `NewAzugate` : the error it returns, and the core after it. `pem` is the answer of
`publicKeyToPEM`. -/
def newAzugate (leftover : Str → ℕ) (core : Core) (config : Config) (pem : Except Str Str) :
    Option Str × Core :=
  match pem with
  | .error err => (some err, core)
  | .ok pem =>
    addRoutes leftover (core.loadConfig (UInt16.ofInt config.port) (cString pem)) config.routes

end Core

/-! ## The routes as calls of the router -/

/-- The route has a path or a prefix. -/
def RouteConfig.hasMatch (route : RouteConfig) : Bool :=
  route.path.isSome || route.pre.isSome

/-- The call of the router that adds a route. -/
def RouteConfig.call (leftover : Str → ℕ) (route : RouteConfig) : Option RouterCall :=
  match route.path, route.pre with
  | some path, _ =>
    some (.addPathMatchRoute (cString (normalizeURL path)) (cString (normalizeURL route.target))
      route.isLocal (leftover (cString (normalizeURL path))))
  | none, some pre =>
    some (.addPrefixMatchRoute (cString (normalizeURL pre)) (cString (normalizeURL route.target))
      route.isLocal)
  | none, none => none

/-- The calls of the loop : those of the routes before the first that matches nothing. -/
def routeCalls (leftover : Str → ℕ) (routes : List RouteConfig) : List RouterCall :=
  (routes.takeWhile RouteConfig.hasMatch).filterMap (RouteConfig.call leftover)

namespace Core

variable (leftover : Str → ℕ)

/-- The loop makes its calls, and ends early exactly if some route matches nothing. -/
theorem addRoutes_eq : ∀ (routes : List RouteConfig) (core : Core),
    core.addRoutes leftover routes =
      (if routes.all RouteConfig.hasMatch then none else some noMatchError,
        { core with routes := (routeCalls leftover routes).foldl Routes.call core.routes })
  | [], _ => rfl
  | route :: routes, core => by
    obtain ⟨path, pre, isLocal, target⟩ := route
    cases path with
    | some path =>
      simp only [addRoutes]
      rw [addRoutes_eq routes]
      simp [RouteConfig.hasMatch, RouteConfig.call, routeCalls, Routes.call,
        Routes.bindPathMatchRoute]
    | none =>
      cases pre with
      | some pre =>
        simp only [addRoutes]
        rw [addRoutes_eq routes]
        simp [RouteConfig.hasMatch, RouteConfig.call, routeCalls, Routes.call,
          Routes.bindPrefixMatchRoute]
      | none => simp [addRoutes, RouteConfig.hasMatch, routeCalls]

end Core

/-- `NewAzugate` returns an error exactly if there is no public key text or some route matches
nothing. With a key the core has the port modulo `2^16`, the key up to its first NUL, and the
tables after the calls of the routes up to that one. -/
theorem newAzugate_eq (leftover : Str → ℕ) (core : Core) (config : Config) (pem : Str) :
    core.newAzugate leftover config (.ok pem) =
      (if config.routes.all RouteConfig.hasMatch then none else some noMatchError,
        ⟨UInt16.ofInt config.port, cString pem,
          (routeCalls leftover config.routes).foldl Routes.call core.routes⟩) :=
  Core.addRoutes_eq leftover config.routes _

/-! ## Lookups of an exact route among others -/

namespace Routes

theorem exactRoutes_afterLookups_any (url : Str) :
    ∀ (qs : List Lookup) {r : Routes} {e : RouteAction}, r.exactRoutes url = some e →
      (r.afterLookups qs).exactRoutes url = some (e.afterCalls (lookupsOf url qs))
  | [], _, _, he => he
  | q :: qs, r, e, he => by
    by_cases hq : q.1 = url
    · have hself : (r.afterLookup q.2 q.1).exactRoutes url = some e.afterCall := by
        rw [hq, afterLookup_of_exact he q.2, Function.update_self]
      have hcount : lookupsOf url (q :: qs) = lookupsOf url qs + 1 := by
        simp [lookupsOf, hq]
      rw [hcount]
      exact exactRoutes_afterLookups_any url qs hself
    · have hother : (r.afterLookup q.2 q.1).exactRoutes url = some e := by
        rw [exactRoutes_afterLookup_of_ne r q.2 (Ne.symm hq), he]
      have hcount : lookupsOf url (q :: qs) = lookupsOf url qs := by
        simp [lookupsOf, hq]
      rw [hcount]
      exact exactRoutes_afterLookups_any url qs hother

end Routes

/-! ## From the configuration to the requests -/

/-- The target of a route for the exact key `key`. -/
def RouteConfig.pathTarget (key : Str) (route : RouteConfig) : Option (Str × Bool) :=
  match route.path with
  | some path =>
    if cString (normalizeURL path) = key then
      some (cString (normalizeURL route.target), !route.isLocal)
    else none
  | none => none

/-- The distinct targets of the routes for `key`, in the order of the configuration. -/
def configuredTargets (key : Str) (routes : List RouteConfig) : List (Str × Bool) :=
  (routes.filterMap (RouteConfig.pathTarget key)).eraseDups

variable {leftover : Str → ℕ}

theorem routeCalls_of_hasMatch {routes : List RouteConfig} (h : routes.all RouteConfig.hasMatch) :
    routeCalls leftover routes = routes.filterMap (RouteConfig.call leftover) := by
  rw [routeCalls, List.takeWhile_eq_self_iff.2 (List.all_eq_true.1 h)]

theorem pathTargets_routeCalls (key : Str) {routes : List RouteConfig}
    (h : routes.all RouteConfig.hasMatch) :
    pathTargets key (routeCalls leftover routes) = configuredTargets key routes := by
  rw [routeCalls_of_hasMatch h, pathTargets, List.filterMap_filterMap, configuredTargets]
  congr 2
  funext route
  obtain ⟨path, pre, isLocal, target⟩ := route
  cases path with
  | some path => rfl
  | none =>
    cases pre with
    | some pre => rfl
    | none => rfl

/-- The index of an exact entry stays where memory left it. -/
theorem nextIndex_routeCalls (key : Str) (routes : List RouteConfig) :
    ∀ e, (router.exec (routeCalls leftover routes)).exactRoutes key = some e →
      e.nextIndex = leftover key := by
  refine List.foldlRecOn (motive := fun r : Routes => ∀ e, r.exactRoutes key = some e →
    e.nextIndex = leftover key) _ _ (by simp [router, Routes.empty]) fun r ih call hcall e he => ?_
  obtain ⟨⟨path, pre, isLocal, target⟩, -, hroute⟩ := List.mem_filterMap.1 hcall
  cases path with
  | some path =>
    obtain rfl := Option.some.inj hroute
    by_cases hkey : key = cString (normalizeURL path)
    · rw [hkey] at he ih ⊢
      obtain rfl := Option.some.inj ((r.exactRoutes_addPathMatchRoute_self _ _ _ _).symm.trans he)
      rw [RouteAction.nextIndex_addTarget]
      cases hold : r.exactRoutes (cString (normalizeURL path)) with
      | none => rfl
      | some old => exact ih old hold
    · exact ih e ((Routes.exactRoutes_addPathMatchRoute_of_ne hkey).symm.trans he)
  | none =>
    cases pre with
    | some pre =>
      obtain rfl := Option.some.inj hroute
      exact ih e he
    | none => simp [RouteConfig.call] at hroute

/-- The tables after start-up and lookups, as a run of the router. -/
theorem afterLookups_eq_exec (calls : List RouterCall) (qs : List Lookup) :
    (router.exec calls).afterLookups qs =
      router.exec (calls ++ qs.map fun q => .getRouteTarget q.1 q.2) := by
  rw [Machine.exec_append]
  show _ = (qs.map fun q => .getRouteTarget q.1 q.2).foldl Routes.call (router.exec calls)
  rw [List.foldl_map]
  rfl

theorem pathTargets_append_lookups (key : Str) (calls : List RouterCall) (qs : List Lookup) :
    pathTargets key (calls ++ qs.map fun q => .getRouteTarget q.1 q.2) = pathTargets key calls := by
  rw [pathTargets, List.filterMap_append, List.filterMap_map]
  have hnone : qs.filterMap (RouterCall.pathTarget key ∘ fun q => .getRouteTarget q.1 q.2) = [] :=
    List.filterMap_eq_nil_iff.2 fun _ _ => rfl
  rw [hnone, List.append_nil]
  rfl

/-- Once started on empty tables, the gateway answers a request for a path with the targets of its
routes, in turn, as the configuration lists them. The first is the one at the index that memory
left, and other lookups do not change the turn. A path without routes of its own gets the target
of some prefix route of the configuration, if any. -/
theorem answer_after_startup (leftover : Str → ℕ) (core : Core) (hempty : core.routes = .empty)
    (config : Config) (pem : Str)
    (hstarts : (core.newAzugate leftover config (.ok pem)).1 = none) (qs : List Lookup)
    (path : Str) (past : ℕ → UInt8) :
    let key := routeSourceUrl path
    let targets := configuredTargets key config.routes
    let r := (core.newAzugate leftover config (.ok pem)).2.routes.afterLookups qs
    (leftover key < targets.length →
        (r.answer past key).map ConnectionInfo.key =
          targets[(leftover key + lookupsOf key qs) % targets.length]?) ∧
      (targets = [] → ∀ c, r.answer past key = some c → ∃ route ∈ config.routes,
        route.path = none ∧ route.pre.isSome ∧
          c.key = (cString (normalizeURL route.target), !route.isLocal)) := by
  intro key targets r
  rw [newAzugate_eq] at hstarts
  have hall : config.routes.all RouteConfig.hasMatch = true := by
    by_contra hno
    simp [hno] at hstarts
  have hr : r = (router.exec (routeCalls leftover config.routes)).afterLookups qs := by
    show (core.newAzugate leftover config (.ok pem)).2.routes.afterLookups qs = _
    rw [newAzugate_eq, hempty]
    rfl
  have hrecorded := recorded_exec (routeCalls leftover config.routes)
  have hrecorded' := recorded_exec
    (routeCalls leftover config.routes ++ qs.map fun q => .getRouteTarget q.1 q.2)
  rw [← afterLookups_eq_exec, ← hr] at hrecorded'
  have htargets : pathTargets key (routeCalls leftover config.routes) = targets :=
    pathTargets_routeCalls key hall
  constructor
  · intro hindex
    have hsome := (hrecorded.isSome_iff key).2
      (by rw [htargets]; exact List.ne_nil_of_length_pos (by omega))
    obtain ⟨e, he⟩ := Option.isSome_iff_exists.1 hsome
    have hkeys : e.keys = targets := (hrecorded.keys_eq he).trans htargets
    have hnext := nextIndex_routeCalls key config.routes e he
    have hlen : e.targets.length = targets.length := by rw [← e.length_keys, hkeys]
    have hafter := Routes.exactRoutes_afterLookups_any key qs he
    rw [RouteAction.afterCalls_eq (by omega), hnext, hlen] at hafter
    have hlt : (leftover key + lookupsOf key qs) % targets.length < e.targets.length := by
      rw [hlen]
      exact Nat.mod_lt _ (by omega)
    set i := (leftover key + lookupsOf key qs) % targets.length
    have hget : targets[i]? = some (e.targets.get ⟨i, hlt⟩).key := calc
      targets[i]? = e.keys[i]? := congrArg (fun keys : List (Str × Bool) => keys[i]?) hkeys.symm
      _ = (e.targets[i]?).map ConnectionInfo.key := List.getElem?_map
      _ = some (e.targets.get ⟨i, hlt⟩).key := by rw [List.getElem?_eq_getElem hlt]; rfl
    rw [hr, Routes.answer, Routes.getRouteTarget_of_exact hafter hlt, hget]
    rfl
  · intro hnil c hc
    have hexact : r.exactRoutes key = none := by
      have hno := (hrecorded'.isSome_iff key).not
      rw [pathTargets_append_lookups, htargets] at hno
      simpa [hnil] using hno
    obtain ⟨sourceUrl, targetUrl, isLocal, hmem, hkey⟩ :=
      (hrecorded'.answerRegistered past key c hc).2 hexact
    have hcall : RouterCall.addPrefixMatchRoute sourceUrl targetUrl isLocal ∈
        routeCalls leftover config.routes := by
      simpa using hmem
    rw [routeCalls_of_hasMatch hall] at hcall
    obtain ⟨⟨path, pre, isLocal', target⟩, hroute, hcall⟩ := List.mem_filterMap.1 hcall
    cases path with
    | some path => simp [RouteConfig.call] at hcall
    | none =>
      cases pre with
      | none => simp [RouteConfig.call] at hcall
      | some pre =>
        obtain ⟨-, rfl, rfl⟩ := RouterCall.addPrefixMatchRoute.inj (Option.some.inj hcall)
        exact ⟨_, hroute, rfl, rfl, hkey⟩

/-- Two routes for `/a`, written in two ways, and one for a prefix. The third request for `/a` gets
the first target again. -/
theorem answer_after_startup_two_targets :
    let core : Core := ⟨443, [], .empty⟩
    let config : Config := ⟨8080, [⟨some (lit "/a"), none, false, lit "/x"⟩,
      ⟨none, some (lit "/b"), false, lit "/z"⟩, ⟨some (lit "a/"), none, true, lit "y"⟩]⟩
    let r := (core.newAzugate (fun _ => 0) config (.ok [])).2.routes
    (core.newAzugate (fun _ => 0) config (.ok [])).1 = none ∧
      ((r.afterLookups [(lit "/a", fun _ => 0), (lit "/c", fun _ => 0),
        (lit "/a", fun _ => 0)]).answer (fun _ => 0) (lit "/a")).map ConnectionInfo.key =
          some (lit "/x", true) := by
  intro core config r
  have hstarts : (core.newAzugate (fun _ => 0) config (.ok [])).1 = none := by decide +kernel
  refine ⟨hstarts, ((answer_after_startup (fun _ => 0) core rfl config [] hstarts
    [(lit "/a", fun _ => 0), (lit "/c", fun _ => 0), (lit "/a", fun _ => 0)] (lit "/a")
    fun _ => 0).1 (by decide +kernel)).trans ?_⟩
  decide +kernel

end Azugate
