import Azugate.Bytes
import Mathlib.Logic.Function.Basic

/-!
# The HTTP router

`Routes` is the pair of tables `g_exact_routes` and `g_prefix_routes`. The first is a hash
map and is only ever searched by key, so it is a function to entries. The second is
scanned in order, so it is a list of prefixes with their entries. An entry
(`RouteAction`) holds its targets and the index of the next one to hand out.

`getRouteTarget` chooses an entry (`selectSlot`) and takes the entry's next target. An
outer `none` stands for `targets[next_index]` past the end of the vector, which the
source leaves undefined.

The prefix scan skips an entry when `source_url` starts with its prefix, and again when
the prefix ends on a path boundary of `source_url`; it keeps the longest of the others.
`Routes.routesByLongestPrefix_iff` says when that choice is the longest prefix on a path boundary.
-/

namespace Azugate

/-! ## Entries and tables -/

/-- `ProtocolType` : the constants of `protocols.h`. -/
inductive ProtocolType where
  | http
  | tcp
  | udp
  | grpc
  | webSocket
  | unknown
  deriving DecidableEq, Repr

/-- `ConnectionInfo`. -/
structure ConnectionInfo where
  type : ProtocolType
  /-- IPv4/IPv6 address string. -/
  downstreamAddress : Str := []
  downstreamPort : UInt16 := 0
  httpUrl : Str
  /-- Remote endpoint, or local file. -/
  isRemote : Bool
  deriving DecidableEq, Repr

/-- `RouteAction`. -/
structure RouteAction where
  /-- Used for round robin. -/
  nextIndex : ℕ
  targets : List ConnectionInfo
  deriving DecidableEq, Repr

namespace RouteAction

/-- `RouteAction::AddTarget`. -/
def addTarget (e : RouteAction) (conn : ConnectionInfo) : RouteAction :=
  if e.targets.any fun c => conn.httpUrl == c.httpUrl && conn.isRemote == c.isRemote then e
  else { e with targets := e.targets ++ [conn] }

/-- `RouteAction::GetNextTarget`, with `none` for an index past the end of `targets`. -/
def getNextTarget (e : RouteAction) : Option (Option ConnectionInfo × RouteAction) :=
  if e.targets.isEmpty then some (none, e)
  else
    (e.targets[e.nextIndex]?).map fun result =>
      (some result, { e with nextIndex := (e.nextIndex + 1) % e.targets.length })

end RouteAction

/-- `g_exact_routes` and `g_prefix_routes`. -/
structure Routes where
  exactRoutes : Str → Option RouteAction
  prefixRoutes : List (Str × RouteAction)

/-- A place of an entry : its key in the exact table, or its index in the prefix table. -/
inductive Slot where
  | path (url : Str)
  | pre (i : ℕ)
  deriving DecidableEq, Repr

namespace Routes

/-- The tables at start-up. -/
def empty : Routes :=
  ⟨fun _ => none, []⟩

/-- The entry in a slot. -/
def entry (r : Routes) : Slot → Option RouteAction
  | .path url => r.exactRoutes url
  | .pre i => (r.prefixRoutes[i]?).map Prod.snd

/-- Write an entry back to its slot. -/
def setEntry (r : Routes) (e : RouteAction) : Slot → Routes
  | .path url => { r with exactRoutes := Function.update r.exactRoutes url (some e) }
  | .pre i => { r with prefixRoutes := r.prefixRoutes.modify i fun route => (route.1, e) }

end Routes

/-! ## Registration -/

/-- `matchPrefix`. -/
def matchPrefix (sourceUrl pre : Str) : Bool :=
  pre.isPrefixOf sourceUrl

theorem matchPrefix_iff {sourceUrl pre : Str} : matchPrefix sourceUrl pre ↔ pre <+: sourceUrl :=
  List.isPrefixOf_iff_prefix

/-- The target both registrations build. -/
def routeTarget (targetUrl : Str) (isLocal : Bool) : ConnectionInfo where
  type := .http
  httpUrl := targetUrl
  isRemote := !isLocal

/-- The loop of `AddPrefixMatchRoute` and the `emplace_back` after it : the first route
whose prefix `sourceUrl` starts with takes the target, a new route at the end otherwise. -/
def addToPrefixRoutes (sourceUrl : Str) (target : ConnectionInfo) :
    List (Str × RouteAction) → List (Str × RouteAction)
  | [] => [(sourceUrl, RouteAction.addTarget ⟨0, []⟩ target)]
  | route :: routes =>
    if matchPrefix sourceUrl route.1 then (route.1, route.2.addTarget target) :: routes
    else route :: addToPrefixRoutes sourceUrl target routes

namespace Routes

/-- `AddPrefixMatchRoute`. -/
def addPrefixMatchRoute (r : Routes) (sourceUrl targetUrl : Str) (isLocal : Bool) : Routes :=
  { r with
    prefixRoutes := addToPrefixRoutes sourceUrl (routeTarget targetUrl isLocal) r.prefixRoutes }

/-- `AddPathMatchRoute`. A new entry is default-initialised : its `next_index` is whatever
the memory held, `leftover`. -/
def addPathMatchRoute (r : Routes) (sourceUrl targetUrl : Str) (isLocal : Bool)
    (leftover : ℕ) : Routes :=
  let target := routeTarget targetUrl isLocal
  let routerEntry := (r.exactRoutes sourceUrl).getD ⟨leftover, []⟩
  { r with
    exactRoutes := Function.update r.exactRoutes sourceUrl (some (routerEntry.addTarget target)) }

end Routes

/-! ## Lookup -/

/-- The loop variables of the prefix scan : the index of the longest match, its length. -/
structure LongestMatch where
  longestMatch : Option ℕ
  longestLen : ℕ
  deriving DecidableEq, Repr

/-- One pass of the loop of `GetRouteTarget`, over the prefix at index `i`. -/
def scanPrefix (past : ℕ → UInt8) (sourceUrl : Str) (best : LongestMatch) (i : ℕ) (pre : Str) :
    LongestMatch :=
  if matchPrefix sourceUrl pre then best
  else if pre.length = sourceUrl.length ∨ charAt past sourceUrl pre.length = slash ∨
      pre.getLast? = some slash then best
  else if pre.length ≤ best.longestLen then best
  else ⟨some i, pre.length⟩

/-- The loop of `GetRouteTarget` from index `i` on. -/
def scanPrefixes (past : ℕ → UInt8) (sourceUrl : Str) :
    ℕ → LongestMatch → List (Str × RouteAction) → LongestMatch
  | _, best, [] => best
  | i, best, route :: routes =>
    scanPrefixes past sourceUrl (i + 1) (scanPrefix past sourceUrl best i route.1) routes

namespace Routes

/-- The entry `GetRouteTarget` asks for its next target. -/
def selectSlot (past : ℕ → UInt8) (r : Routes) (sourceUrl : Str) : Option Slot :=
  if (r.exactRoutes sourceUrl).isSome then some (.path sourceUrl)
  else (scanPrefixes past sourceUrl 0 ⟨none, 0⟩ r.prefixRoutes).longestMatch.map .pre

/-- `GetRouteTarget` : the answer, and the tables after it. -/
def getRouteTarget (past : ℕ → UInt8) (r : Routes) (sourceUrl : Str) :
    Option (Option ConnectionInfo × Routes) :=
  match r.selectSlot past sourceUrl with
  | none => some (none, r)
  | some slot =>
    match r.entry slot with
    | none => some (none, r)
    | some e => e.getNextTarget.map fun (target, e') => (target, r.setEntry e' slot)

end Routes

/-! ## The prefix scan -/

/-- The scan does not skip `pre` at its two tests. -/
def Kept (past : ℕ → UInt8) (sourceUrl pre : Str) : Prop :=
  ¬matchPrefix sourceUrl pre ∧ ¬(pre.length = sourceUrl.length ∨
    charAt past sourceUrl pre.length = slash ∨ pre.getLast? = some slash)

/-- The empty prefix is skipped at the first test. -/
theorem Kept.length_pos {past : ℕ → UInt8} {sourceUrl pre : Str} (h : Kept past sourceUrl pre) :
    0 < pre.length := by
  refine List.length_pos_of_ne_nil fun hnil => h.1 ?_
  rw [hnil, matchPrefix_iff]
  exact List.nil_prefix

theorem scanPrefix_of_not_kept {past : ℕ → UInt8} {sourceUrl pre : Str}
    (h : ¬Kept past sourceUrl pre) (best : LongestMatch) (i : ℕ) :
    scanPrefix past sourceUrl best i pre = best := by
  unfold scanPrefix
  split_ifs with hm hb
  · rfl
  · rfl
  · rfl
  · exact absurd ⟨hm, hb⟩ h

/-- A match, once found, is only replaced by another. -/
theorem scanPrefix_isSome (past : ℕ → UInt8) (sourceUrl : Str) {best : LongestMatch}
    (h : best.longestMatch.isSome) (i : ℕ) (pre : Str) :
    (scanPrefix past sourceUrl best i pre).longestMatch.isSome := by
  unfold scanPrefix
  split_ifs <;> first | exact h | rfl

theorem scanPrefixes_isSome (past : ℕ → UInt8) (sourceUrl : Str) :
    ∀ (routes : List (Str × RouteAction)) (i : ℕ) {best : LongestMatch},
      best.longestMatch.isSome →
      (scanPrefixes past sourceUrl i best routes).longestMatch.isSome
  | [], _, _, h => h
  | route :: routes, i, _, h =>
    scanPrefixes_isSome past sourceUrl routes (i + 1)
      (scanPrefix_isSome past sourceUrl h i route.1)

/-- The scan finds nothing exactly when it skips every route. -/
theorem scanPrefixes_eq_none_iff (past : ℕ → UInt8) (sourceUrl : Str) :
    ∀ (routes : List (Str × RouteAction)) (i : ℕ),
      (scanPrefixes past sourceUrl i ⟨none, 0⟩ routes).longestMatch = none ↔
        ∀ route ∈ routes, ¬Kept past sourceUrl route.1
  | [], _ => by simp [scanPrefixes]
  | route :: routes, i => by
    by_cases hk : Kept past sourceUrl route.1
    · have hscan : scanPrefix past sourceUrl ⟨none, 0⟩ i route.1 = ⟨some i, route.1.length⟩ := by
        rw [scanPrefix, if_neg hk.1, if_neg hk.2, if_neg (Nat.not_le.2 hk.length_pos)]
      have hsome : (scanPrefixes past sourceUrl (i + 1) ⟨some i, route.1.length⟩
          routes).longestMatch.isSome := scanPrefixes_isSome past sourceUrl routes (i + 1) rfl
      rw [scanPrefixes, hscan]
      refine ⟨fun h => ?_, fun h => absurd hk (h route (by simp))⟩
      rw [h] at hsome
      exact absurd hsome (by simp)
    · rw [scanPrefixes, scanPrefix_of_not_kept hk, scanPrefixes_eq_none_iff past sourceUrl routes]
      simp [hk]

theorem scanPrefix_eq_some {past : ℕ → UInt8} {sourceUrl : Str} {best : LongestMatch} {i j : ℕ}
    {pre : Str} (h : (scanPrefix past sourceUrl best i pre).longestMatch = some j) :
    best.longestMatch = some j ∨ (j = i ∧ Kept past sourceUrl pre) := by
  unfold scanPrefix at h
  split_ifs at h with hm hb hl
  · exact Or.inl h
  · exact Or.inl h
  · exact Or.inl h
  · exact Or.inr ⟨(Option.some.inj h).symm, hm, hb⟩

/-- What the scan finds is one of the routes it does not skip. -/
theorem scanPrefixes_eq_some (past : ℕ → UInt8) (sourceUrl : Str) :
    ∀ (routes : List (Str × RouteAction)) (i : ℕ) {best : LongestMatch} {j : ℕ},
      (scanPrefixes past sourceUrl i best routes).longestMatch = some j →
      best.longestMatch = some j ∨
        ∃ k route, j = i + k ∧ routes[k]? = some route ∧ Kept past sourceUrl route.1
  | [], _, _, _, h => Or.inl h
  | route :: routes, i, best, j, h => by
    rcases scanPrefixes_eq_some past sourceUrl routes (i + 1) h with h | ⟨k, route', hj, hk, hr⟩
    · rcases scanPrefix_eq_some h with h | ⟨rfl, hr⟩
      · exact Or.inl h
      · exact Or.inr ⟨0, route, rfl, rfl, hr⟩
    · exact Or.inr ⟨k + 1, route', by omega, by simpa using hk, hr⟩

/-! ## The characters the scan reads -/

/-- A character access of the scan : `s[i]`, or `s.back()`. -/
inductive CharAccess where
  | index (s : Str) (i : ℕ)
  | back (s : Str)
  deriving DecidableEq, Repr

/-- The access is defined : `operator[]` up to the terminating NUL, `back()` on a
non-empty string. -/
def CharAccess.InRange : CharAccess → Prop
  | .index s i => i ≤ s.length
  | .back s => s ≠ []

/-- The boundary test of the scan from left to right : its value, and the characters it
reads before an operand decides it. -/
def boundaryTest (past : ℕ → UInt8) (sourceUrl pre : Str) : Bool × List CharAccess :=
  if pre.length = sourceUrl.length then (true, [])
  else if charAt past sourceUrl pre.length = slash then (true, [.index sourceUrl pre.length])
  else (pre.getLast? = some slash, [.index sourceUrl pre.length, .back pre])

theorem boundaryTest_fst_iff (past : ℕ → UInt8) (sourceUrl pre : Str) :
    (boundaryTest past sourceUrl pre).1 = true ↔ pre.length = sourceUrl.length ∨
      charAt past sourceUrl pre.length = slash ∨ pre.getLast? = some slash := by
  unfold boundaryTest
  split_ifs with hl hc
  · simp [hl]
  · simp [hc]
  · simp [hl, hc]

/-- The pass of `scanPrefix`, with its boundary test evaluated by `boundaryTest`. -/
theorem scanPrefix_eq_boundaryTest (past : ℕ → UInt8) (sourceUrl : Str) (best : LongestMatch)
    (i : ℕ) (pre : Str) :
    scanPrefix past sourceUrl best i pre =
      if matchPrefix sourceUrl pre then best
      else if (boundaryTest past sourceUrl pre).1 then best
      else if pre.length ≤ best.longestLen then best
      else ⟨some i, pre.length⟩ := by
  simp only [scanPrefix, boundaryTest_fst_iff]

/-- The characters one pass reads outside `matchPrefix`. -/
def scanAccesses (past : ℕ → UInt8) (sourceUrl pre : Str) : List CharAccess :=
  if matchPrefix sourceUrl pre then [] else (boundaryTest past sourceUrl pre).2

/-- A pass reads past the end of `sourceUrl` exactly on a prefix longer than it; `back()`
is never called on the empty prefix, which the first test skips. -/
theorem scanAccesses_inRange_iff (past : ℕ → UInt8) (sourceUrl pre : Str) :
    (∀ a ∈ scanAccesses past sourceUrl pre, a.InRange) ↔ pre.length ≤ sourceUrl.length := by
  unfold scanAccesses
  by_cases hm : matchPrefix sourceUrl pre
  · simp [hm, (matchPrefix_iff.1 hm).length_le]
  · have hne : pre ≠ [] := by
      rintro rfl
      exact hm (matchPrefix_iff.2 List.nil_prefix)
    rw [if_neg hm]
    unfold boundaryTest
    split_ifs with hl hc
    · simp [hl]
    · simp [CharAccess.InRange]
    · simp [CharAccess.InRange, hne]

/-- A pass whose reads are in range does not depend on the memory past `sourceUrl`. -/
theorem scanPrefix_of_inRange {sourceUrl pre : Str} (h : pre.length ≤ sourceUrl.length)
    (past past' : ℕ → UInt8) (best : LongestMatch) (i : ℕ) :
    scanPrefix past sourceUrl best i pre = scanPrefix past' sourceUrl best i pre := by
  have hc : charAt past sourceUrl pre.length = charAt past' sourceUrl pre.length := by
    rcases h.lt_or_eq with hlt | heq
    · rw [charAt_of_lt past hlt, charAt_of_lt past' hlt]
    · simp [charAt, heq]
  rw [scanPrefix, scanPrefix, hc]

theorem scanPrefixes_of_inRange {sourceUrl : Str} (past past' : ℕ → UInt8) :
    ∀ (routes : List (Str × RouteAction)) (i : ℕ) (best : LongestMatch),
      (∀ route ∈ routes, route.1.length ≤ sourceUrl.length) →
      scanPrefixes past sourceUrl i best routes = scanPrefixes past' sourceUrl i best routes
  | [], _, _, _ => rfl
  | route :: routes, i, best, h => by
    rw [scanPrefixes, scanPrefixes, scanPrefix_of_inRange (h route (by simp)) past past']
    exact scanPrefixes_of_inRange past past' routes (i + 1) _ fun r hr => h r (by simp [hr])

namespace Routes

/-- The characters `GetRouteTarget` reads outside `matchPrefix`, in order. -/
def charAccesses (past : ℕ → UInt8) (r : Routes) (sourceUrl : Str) : List CharAccess :=
  if (r.exactRoutes sourceUrl).isSome then []
  else r.prefixRoutes.flatMap fun route => scanAccesses past sourceUrl route.1

/-- Without an exact entry the scan runs, and its reads are in range exactly when no prefix
is longer than `sourceUrl`. -/
theorem charAccesses_inRange_of_scan (past : ℕ → UInt8) {r : Routes} {sourceUrl : Str}
    (hexact : ¬(r.exactRoutes sourceUrl).isSome) :
    (∀ a ∈ r.charAccesses past sourceUrl, a.InRange) ↔
      ∀ route ∈ r.prefixRoutes, route.1.length ≤ sourceUrl.length := by
  rw [charAccesses, if_neg hexact]
  simp only [← scanAccesses_inRange_iff past]
  constructor
  · exact fun h route hroute a ha => h a (List.mem_flatMap.2 ⟨route, hroute, ha⟩)
  · intro h a ha
    obtain ⟨route, hroute, ha⟩ := List.mem_flatMap.1 ha
    exact h route hroute a ha

/-- Every character access of `GetRouteTarget` is in range exactly when there is an exact
entry or no prefix is longer than `sourceUrl`. -/
theorem charAccesses_inRange_iff (past : ℕ → UInt8) (r : Routes) (sourceUrl : Str) :
    (∀ a ∈ r.charAccesses past sourceUrl, a.InRange) ↔
      (r.exactRoutes sourceUrl).isSome ∨
        ∀ route ∈ r.prefixRoutes, route.1.length ≤ sourceUrl.length := by
  by_cases hexact : (r.exactRoutes sourceUrl).isSome
  · simp [charAccesses, hexact]
  · rw [charAccesses_inRange_of_scan past hexact, or_iff_right hexact]

/-- The prefix `/api` against `/a` : the scan reads the fifth character of a string of two. -/
theorem not_charAccesses_inRange_short_url :
    ¬∀ a ∈ (empty.addPrefixMatchRoute (lit "/api") (lit "/t") false).charAccesses (fun _ => 0)
      (lit "/a"), a.InRange := by
  intro h
  have hread : CharAccess.InRange (.index (lit "/a") 4) := h _ (by decide)
  exact absurd hread (by simp [CharAccess.InRange, lit])

/-- While every access is in range, the choice does not depend on the memory past
`sourceUrl`. -/
theorem selectSlot_of_inRange {r : Routes} {sourceUrl : Str} {past : ℕ → UInt8}
    (h : ∀ a ∈ r.charAccesses past sourceUrl, a.InRange) (past' : ℕ → UInt8) :
    r.selectSlot past' sourceUrl = r.selectSlot past sourceUrl := by
  unfold selectSlot
  by_cases hexact : (r.exactRoutes sourceUrl).isSome
  · rw [if_pos hexact, if_pos hexact]
  · have hlen := (charAccesses_inRange_of_scan past hexact).1 h
    rw [if_neg hexact, if_neg hexact, scanPrefixes_of_inRange past' past r.prefixRoutes 0 _ hlen]

end Routes

/-! ## The longest prefix on a path boundary -/

/-- `pre` ends on a path boundary of `sourceUrl`. -/
def OnBoundary (sourceUrl pre : Str) : Prop :=
  pre.length = sourceUrl.length ∨ sourceUrl[pre.length]? = some slash ∨ pre.getLast? = some slash

/-- The test of the scan agrees with `OnBoundary` while it reads inside the string, and
past the end it can go either way. -/
theorem forall_not_kept_iff (sourceUrl pre : Str) :
    (∀ past, ¬Kept past sourceUrl pre) ↔ pre <+: sourceUrl ∨ OnBoundary sourceUrl pre := by
  constructor
  · intro h
    by_contra hn
    obtain ⟨hp, hb⟩ := not_or.1 hn
    refine h (fun _ => 0) ⟨fun hm => hp (matchPrefix_iff.1 hm), ?_⟩
    rintro (hl | hc | hg)
    · exact hb (Or.inl hl)
    · refine hb (Or.inr (Or.inl ?_))
      rcases lt_trichotomy pre.length sourceUrl.length with hlt | heq | hgt
      · rw [charAt_of_lt _ hlt] at hc
        rw [List.getElem?_eq_getElem hlt, hc]
      · exact absurd (Or.inl heq) hb
      · rw [charAt_of_length_lt _ hgt] at hc
        exact absurd hc (by decide)
    · exact hb (Or.inr (Or.inr hg))
  · rintro (hp | hl | hc | hg) past ⟨hm, hb⟩
    · exact hm (matchPrefix_iff.2 hp)
    · exact hb (Or.inl hl)
    · obtain ⟨hlt, hc⟩ := List.getElem?_eq_some_iff.1 hc
      exact hb (Or.inr (Or.inl (by rw [charAt_of_lt past hlt, hc])))
    · exact hb (Or.inr (Or.inr hg))

namespace Routes

/-- The choice of a longest-prefix router : the exact entry if there is one, otherwise a
prefix entry that is longest among those `sourceUrl` starts with on a path boundary. -/
def LongestPrefixSelects (r : Routes) (sourceUrl : Str) : Option Slot → Prop
  | some (.path url) => url = sourceUrl ∧ (r.exactRoutes sourceUrl).isSome
  | some (.pre i) => r.exactRoutes sourceUrl = none ∧ ∃ route, r.prefixRoutes[i]? = some route ∧
      (route.1 <+: sourceUrl ∧ OnBoundary sourceUrl route.1) ∧
      ∀ other ∈ r.prefixRoutes, other.1 <+: sourceUrl → OnBoundary sourceUrl other.1 →
        other.1.length ≤ route.1.length
  | none => r.exactRoutes sourceUrl = none ∧
      ∀ route ∈ r.prefixRoutes, ¬(route.1 <+: sourceUrl ∧ OnBoundary sourceUrl route.1)

/-- `GetRouteTarget` chooses as a longest-prefix router, and answers `nullopt` exactly when
there is nothing to choose or the chosen entry has no target. -/
def RoutesByLongestPrefix (past : ℕ → UInt8) (r : Routes) (sourceUrl : Str) : Prop :=
  r.LongestPrefixSelects sourceUrl (r.selectSlot past sourceUrl) ∧
    ((∃ r', r.getRouteTarget past sourceUrl = some (none, r')) ↔
      r.LongestPrefixSelects sourceUrl none ∨
        ∃ slot e, r.selectSlot past sourceUrl = some slot ∧ r.entry slot = some e ∧
          e.targets = [])

/-- `GetRouteTarget` on a chosen entry answers `nullopt` exactly when the entry is empty. -/
theorem getRouteTarget_eq_nullopt_iff {past : ℕ → UInt8} {r : Routes} {sourceUrl : Str}
    {slot : Slot} {e : RouteAction} (hs : r.selectSlot past sourceUrl = some slot)
    (he : r.entry slot = some e) :
    (∃ r', r.getRouteTarget past sourceUrl = some (none, r')) ↔ e.targets = [] := by
  simp only [getRouteTarget, hs, he, RouteAction.getNextTarget]
  by_cases ht : e.targets = []
  · simp [ht]
  · simp [ht]

theorem selectSlot_of_exact (past : ℕ → UInt8) {r : Routes} {sourceUrl : Str}
    (h : (r.exactRoutes sourceUrl).isSome) :
    r.selectSlot past sourceUrl = some (.path sourceUrl) := by
  rw [selectSlot, if_pos h]

theorem selectSlot_eq_none_iff (past : ℕ → UInt8) (r : Routes) (sourceUrl : Str) :
    r.selectSlot past sourceUrl = none ↔ r.exactRoutes sourceUrl = none ∧
      ∀ route ∈ r.prefixRoutes, ¬Kept past sourceUrl route.1 := by
  rw [selectSlot, ← scanPrefixes_eq_none_iff past sourceUrl r.prefixRoutes 0]
  cases r.exactRoutes sourceUrl <;> simp

/-- The prefix scan chooses a route that `sourceUrl` does not start with. -/
theorem selectSlot_eq_pre {past : ℕ → UInt8} {r : Routes} {sourceUrl : Str} {i : ℕ}
    (h : r.selectSlot past sourceUrl = some (.pre i)) :
    ∃ route, r.prefixRoutes[i]? = some route ∧ Kept past sourceUrl route.1 := by
  unfold selectSlot at h
  split_ifs at h
  · simp at h
  · obtain ⟨j, hj, hji⟩ := Option.map_eq_some_iff.1 h
    obtain rfl := Slot.pre.inj hji
    rcases scanPrefixes_eq_some past sourceUrl _ _ hj with hn | ⟨k, route, rfl, hk, hr⟩
    · simp at hn
    · exact ⟨route, by simpa using hk, hr⟩

/-- `GetRouteTarget` is a longest-prefix router, whatever the memory past `sourceUrl`
holds, exactly when there is an exact entry or each prefix passes one of its two tests
and fails the other. -/
theorem routesByLongestPrefix_iff (r : Routes) (sourceUrl : Str) :
    (∀ past, r.RoutesByLongestPrefix past sourceUrl) ↔
      (r.exactRoutes sourceUrl).isSome ∨
        ∀ route ∈ r.prefixRoutes, (route.1 <+: sourceUrl ↔ ¬OnBoundary sourceUrl route.1) := by
  cases hexact : r.exactRoutes sourceUrl with
  | some e =>
    simp only [Option.isSome_some, true_or, iff_true]
    intro past
    have hslot := selectSlot_of_exact past (by rw [hexact]; rfl)
    refine ⟨by simp [hslot, LongestPrefixSelects, hexact], ?_⟩
    rw [getRouteTarget_eq_nullopt_iff hslot hexact, hslot]
    simp [LongestPrefixSelects, entry, hexact]
  | none =>
    simp only [Option.isSome_none, Bool.false_eq_true, false_or]
    constructor
    · intro h
      have hnone : ∀ past, r.selectSlot past sourceUrl = none := by
        intro past
        obtain ⟨hsel, -⟩ := h past
        cases hslot : r.selectSlot past sourceUrl with
        | none => rfl
        | some slot =>
          rw [hslot] at hsel
          cases slot with
          | path url => simp [LongestPrefixSelects, hexact] at hsel
          | pre i =>
            obtain ⟨route, hr, hk⟩ := selectSlot_eq_pre hslot
            obtain ⟨-, route', hr', ⟨hp, -⟩, -⟩ := hsel
            obtain rfl := Option.some.inj (hr.symm.trans hr')
            exact absurd (matchPrefix_iff.2 hp) hk.1
      intro route hroute
      have hkept := (forall_not_kept_iff sourceUrl route.1).1 fun past =>
        ((selectSlot_eq_none_iff past r sourceUrl).1 (hnone past)).2 route hroute
      have hsel := (h fun _ => 0).1
      rw [hnone] at hsel
      refine ⟨fun hp hb => hsel.2 route hroute ⟨hp, hb⟩, fun hb => ?_⟩
      exact hkept.resolve_right hb
    · intro h past
      have hnone : r.selectSlot past sourceUrl = none := by
        refine (selectSlot_eq_none_iff past r sourceUrl).2 ⟨hexact, fun route hroute => ?_⟩
        refine (forall_not_kept_iff sourceUrl route.1).2 ?_ past
        by_cases hb : OnBoundary sourceUrl route.1
        · exact Or.inr hb
        · exact Or.inl ((h route hroute).2 hb)
      have hsel : r.LongestPrefixSelects sourceUrl none := by
        refine ⟨hexact, fun route hroute ⟨hp, hb⟩ => ?_⟩
        exact (h route hroute).1 hp hb
      refine ⟨by rw [hnone]; exact hsel, ?_⟩
      simp [getRouteTarget, hnone, hsel]

/-- One prefix route `/api` : a request below it is not routed to it. -/
theorem not_routesByLongestPrefix_below_prefix :
    ¬Routes.RoutesByLongestPrefix (fun _ => 0)
      (empty.addPrefixMatchRoute (lit "/api") (lit "/t") false) (lit "/api/x") := by
  rintro ⟨hsel, -⟩
  have hslot : (empty.addPrefixMatchRoute (lit "/api") (lit "/t") false).selectSlot (fun _ => 0)
      (lit "/api/x") = none := by decide
  rw [hslot] at hsel
  refine hsel.2 _ (List.mem_singleton.2 rfl) ⟨?_, Or.inr (Or.inl (by decide))⟩
  exact ⟨lit "/x", by decide⟩

end Routes

end Azugate
