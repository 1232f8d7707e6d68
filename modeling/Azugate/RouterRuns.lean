import Azugate.Machine
import Azugate.Router

/-!
# Runs of the router

The router's state is changed by registrations and by lookups, which move the round-robin
index of the entry they read. `router` is the machine of these calls from empty tables.

`Recorded` relates the tables to the calls so far. The exact table has an entry for each
URL registered with `AddPathMatchRoute`, with that URL's targets in order of first
registration, and every target of a prefix entry came from some `AddPrefixMatchRoute`.
`router_confined` is what follows for lookups.

A new exact entry starts with an index that was never initialised (`freshIndex`), a new
prefix entry with zero. `along_indexInRange_iff` says which runs read no target vector past
its end.
-/

namespace Azugate

/-- Appending to a list changes its distinct elements only by a new one. -/
theorem eraseDups_snoc {α : Type*} [BEq α] [LawfulBEq α] (l : List α) (a : α) :
    (l ++ [a]).eraseDups = if a ∈ l.eraseDups then l.eraseDups else l.eraseDups ++ [a] := by
  rw [List.eraseDups_append]
  by_cases h : a ∈ l
  · simp [List.removeAll, h]
  · simp [List.removeAll, h, List.eraseDups_cons]

theorem nodup_eraseDups {α : Type*} [BEq α] [LawfulBEq α] (l : List α) : l.eraseDups.Nodup := by
  induction l using List.reverseRecOn with
  | nil => simp
  | append_singleton l a ih =>
    rw [eraseDups_snoc]
    split_ifs with h
    · exact ih
    · exact List.nodup_append.2 ⟨ih, by simp, by
        rintro x hx y hy rfl
        exact h (List.mem_singleton.1 hy ▸ hx)⟩

/-! ## Entries -/

/-- What `AddTarget` compares. -/
def ConnectionInfo.key (c : ConnectionInfo) : Str × Bool :=
  (c.httpUrl, c.isRemote)

@[simp] theorem key_routeTarget (targetUrl : Str) (isLocal : Bool) :
    (routeTarget targetUrl isLocal).key = (targetUrl, !isLocal) :=
  rfl

namespace RouteAction

/-- The targets of an entry, as `AddTarget` tells them apart. -/
def keys (e : RouteAction) : List (Str × Bool) :=
  e.targets.map ConnectionInfo.key

@[simp] theorem nextIndex_addTarget (e : RouteAction) (c : ConnectionInfo) :
    (e.addTarget c).nextIndex = e.nextIndex := by
  unfold addTarget
  split_ifs <;> rfl

/-- The duplicate test of `AddTarget`. -/
theorem any_key_iff (e : RouteAction) (c : ConnectionInfo) :
    (e.targets.any fun d => c.httpUrl == d.httpUrl && c.isRemote == d.isRemote) = true ↔
      c.key ∈ e.keys := by
  simp only [List.any_eq_true, Bool.and_eq_true, beq_iff_eq, keys, List.mem_map,
    ConnectionInfo.key, Prod.mk.injEq]
  exact exists_congr fun d => and_congr_right fun _ => and_congr eq_comm eq_comm

/-- `AddTarget` leaves an entry that holds the target's key and appends otherwise. -/
theorem addTarget_eq (e : RouteAction) (c : ConnectionInfo) :
    e.addTarget c = if c.key ∈ e.keys then e else { e with targets := e.targets ++ [c] } := by
  simp only [addTarget, any_key_iff]

theorem keys_addTarget (e : RouteAction) (c : ConnectionInfo) :
    (e.addTarget c).keys = if c.key ∈ e.keys then e.keys else e.keys ++ [c.key] := by
  rw [addTarget_eq]
  by_cases h : c.key ∈ e.keys
  · rw [if_pos h, if_pos h]
  · rw [if_neg h, if_neg h]
    simp [keys]

theorem length_keys (e : RouteAction) : e.keys.length = e.targets.length := by
  simp [keys]

theorem length_targets_addTarget (e : RouteAction) (c : ConnectionInfo) :
    e.targets.length ≤ (e.addTarget c).targets.length ∧ 0 < (e.addTarget c).targets.length := by
  rw [← length_keys, ← length_keys, keys_addTarget]
  split_ifs with h
  · exact ⟨le_rfl, List.length_pos_of_mem h⟩
  · simp

theorem mem_targets_addTarget {e : RouteAction} {c d : ConnectionInfo}
    (h : d ∈ (e.addTarget c).targets) : d ∈ e.targets ∨ d = c := by
  unfold addTarget at h
  split_ifs at h
  · exact Or.inl h
  · simpa using h

end RouteAction

namespace Routes

theorem setEntry_self {r : Routes} {slot : Slot} {e : RouteAction} (h : r.entry slot = some e) :
    r.setEntry e slot = r := by
  cases slot with
  | path url =>
    have hu : Function.update r.exactRoutes url (some e) = r.exactRoutes := by
      rw [← h]
      exact Function.update_eq_self _ _
    simp [setEntry, hu]
  | pre i =>
    obtain ⟨route, hr, rfl⟩ := Option.map_eq_some_iff.1 h
    have hm : r.prefixRoutes.modify i (fun x => (x.1, route.2)) = r.prefixRoutes := by
      refine List.ext_getElem? fun j => ?_
      by_cases hij : i = j
      · subst hij
        simp [hr]
      · simp [hij]
    simp [setEntry, hm]

theorem entry_setEntry_self {r : Routes} {slot : Slot} {e : RouteAction}
    (h : r.entry slot = some e) (e' : RouteAction) : (r.setEntry e' slot).entry slot = some e' := by
  cases slot with
  | path url => simp [setEntry, entry]
  | pre i =>
    obtain ⟨route, hr, -⟩ := Option.map_eq_some_iff.1 h
    simp [setEntry, entry, hr]

theorem entry_setEntry_of_ne {r : Routes} {slot slot' : Slot} (e : RouteAction)
    (h : slot' ≠ slot) : (r.setEntry e slot).entry slot' = r.entry slot' := by
  cases slot with
  | path url =>
    cases slot' with
    | path url' =>
      have hu : url' ≠ url := fun hu => h (congrArg Slot.path hu)
      simp [setEntry, entry, hu]
    | pre j => rfl
  | pre i =>
    cases slot' with
    | path url' => rfl
    | pre j =>
      have hij : i ≠ j := fun hij => h (congrArg Slot.pre hij.symm)
      simp [setEntry, entry, hij]

end Routes

/-! ## Calls -/

/-- A call of the router. `leftover` is what the memory of a new exact entry's index
holds, `past` what the memory past the end of `sourceUrl` holds. -/
inductive RouterCall where
  | addPathMatchRoute (sourceUrl targetUrl : Str) (isLocal : Bool) (leftover : ℕ)
  | addPrefixMatchRoute (sourceUrl targetUrl : Str) (isLocal : Bool)
  | getRouteTarget (sourceUrl : Str) (past : ℕ → UInt8)

namespace Routes

/-- The target a lookup returns. A lookup whose index is past the end returns none. -/
def answer (r : Routes) (past : ℕ → UInt8) (sourceUrl : Str) : Option ConnectionInfo :=
  (r.getRouteTarget past sourceUrl).bind Prod.fst

/-- The tables after a lookup. -/
def afterLookup (r : Routes) (past : ℕ → UInt8) (sourceUrl : Str) : Routes :=
  ((r.getRouteTarget past sourceUrl).map Prod.snd).getD r

/-- The tables after a call. -/
def call (r : Routes) : RouterCall → Routes
  | .addPathMatchRoute sourceUrl targetUrl isLocal leftover =>
    r.addPathMatchRoute sourceUrl targetUrl isLocal leftover
  | .addPrefixMatchRoute sourceUrl targetUrl isLocal =>
    r.addPrefixMatchRoute sourceUrl targetUrl isLocal
  | .getRouteTarget sourceUrl past => r.afterLookup past sourceUrl

/-- A lookup either returns nothing and changes nothing, or takes the target at the index
of the entry it chooses and moves that index on. -/
theorem lookup_cases (r : Routes) (past : ℕ → UInt8) (sourceUrl : Str) :
    (r.answer past sourceUrl = none ∧ r.afterLookup past sourceUrl = r) ∨
      ∃ slot e c, r.selectSlot past sourceUrl = some slot ∧ r.entry slot = some e ∧
        e.targets[e.nextIndex]? = some c ∧ r.answer past sourceUrl = some c ∧
        r.afterLookup past sourceUrl =
          r.setEntry { e with nextIndex := (e.nextIndex + 1) % e.targets.length } slot := by
  unfold answer afterLookup getRouteTarget
  cases hs : r.selectSlot past sourceUrl with
  | none => exact Or.inl ⟨rfl, rfl⟩
  | some slot =>
    cases he : r.entry slot with
    | none => exact Or.inl ⟨by simp [he], by simp [he]⟩
    | some e =>
      simp only [he, RouteAction.getNextTarget]
      by_cases ht : e.targets = []
      · left
        simp [ht, setEntry_self he]
      · cases hc : e.targets[e.nextIndex]? with
        | none => exact Or.inl (by simp [ht])
        | some c => exact Or.inr ⟨slot, e, c, rfl, he, hc, by simp [ht], by simp [ht]⟩

end Routes

/-- The router from empty tables. -/
def router : Machine Routes RouterCall where
  init := .empty
  step := Routes.call

@[simp] theorem Routes.exactRoutes_addPathMatchRoute_self (r : Routes) (sourceUrl targetUrl : Str)
    (isLocal : Bool) (leftover : ℕ) :
    (r.addPathMatchRoute sourceUrl targetUrl isLocal leftover).exactRoutes sourceUrl =
      some (((r.exactRoutes sourceUrl).getD ⟨leftover, []⟩).addTarget
        (routeTarget targetUrl isLocal)) := by
  simp [addPathMatchRoute]

theorem Routes.exactRoutes_addPathMatchRoute_of_ne {r : Routes} {sourceUrl targetUrl url : Str}
    {isLocal : Bool} {leftover : ℕ} (h : url ≠ sourceUrl) :
    (r.addPathMatchRoute sourceUrl targetUrl isLocal leftover).exactRoutes url =
      r.exactRoutes url := by
  simp [addPathMatchRoute, h]

/-- After a registration every prefix route was there, or is an old or a fresh entry with
the new target added. -/
theorem mem_addToPrefixRoutes {sourceUrl : Str} {target : ConnectionInfo} :
    ∀ {routes : List (Str × RouteAction)} {route : Str × RouteAction},
      route ∈ addToPrefixRoutes sourceUrl target routes →
      route ∈ routes ∨ ∃ e : RouteAction, route.2 = e.addTarget target ∧
        ((route.1, e) ∈ routes ∨ e = ⟨0, []⟩)
  | [], route, h => by
    rw [addToPrefixRoutes, List.mem_singleton] at h
    exact Or.inr ⟨_, by rw [h], Or.inr rfl⟩
  | first :: routes, route, h => by
    unfold addToPrefixRoutes at h
    split_ifs at h
    · rcases List.mem_cons.1 h with rfl | h
      · exact Or.inr ⟨first.2, rfl, Or.inl (by simp)⟩
      · exact Or.inl (List.mem_cons_of_mem _ h)
    · rcases List.mem_cons.1 h with rfl | h
      · exact Or.inl (by simp)
      · rcases mem_addToPrefixRoutes h with h | ⟨e, he, hmem | hnew⟩
        · exact Or.inl (List.mem_cons_of_mem _ h)
        · exact Or.inr ⟨e, he, Or.inl (List.mem_cons_of_mem _ hmem)⟩
        · exact Or.inr ⟨e, he, Or.inr hnew⟩

/-! ## What a lookup leaves alone -/

namespace Routes

/-- A lookup keeps the keys and the targets of the exact table. -/
theorem exactTargets_afterLookup (r : Routes) (past : ℕ → UInt8) (sourceUrl url : Str) :
    ((r.afterLookup past sourceUrl).exactRoutes url).map RouteAction.targets =
      (r.exactRoutes url).map RouteAction.targets := by
  rcases lookup_cases r past sourceUrl with ⟨-, h⟩ | ⟨slot, e, c, -, he, -, -, h⟩
  · rw [h]
  · rw [h]
    cases slot with
    | path key =>
      by_cases hk : url = key
      · subst hk
        have he' : r.exactRoutes url = some e := he
        simp [setEntry, he']
      · simp [setEntry, hk]
    | pre i => rfl

/-- A lookup keeps the prefixes and the targets of the prefix table. -/
theorem prefixTargets_afterLookup (r : Routes) (past : ℕ → UInt8) (sourceUrl : Str) :
    (r.afterLookup past sourceUrl).prefixRoutes.map (fun route => (route.1, route.2.targets)) =
      r.prefixRoutes.map fun route => (route.1, route.2.targets) := by
  rcases lookup_cases r past sourceUrl with ⟨-, h⟩ | ⟨slot, e, c, -, he, -, -, h⟩
  · rw [h]
  · rw [h]
    cases slot with
    | path key => rfl
    | pre i =>
      obtain ⟨route, hr, rfl⟩ := Option.map_eq_some_iff.1 he
      refine List.ext_getElem? fun j => ?_
      by_cases hij : i = j
      · subst hij
        simp [setEntry, hr]
      · simp [setEntry, hij]

end Routes

/-! ## The tables and the calls so far -/

/-- The target a call registers for the exact route of `url`. -/
def RouterCall.pathTarget (url : Str) : RouterCall → Option (Str × Bool)
  | .addPathMatchRoute sourceUrl targetUrl isLocal _ =>
    if sourceUrl = url then some (targetUrl, !isLocal) else none
  | _ => none

/-- The distinct targets registered for the exact route of `url`, in order of first
registration. -/
def pathTargets (url : Str) (calls : List RouterCall) : List (Str × Bool) :=
  (calls.filterMap (RouterCall.pathTarget url)).eraseDups

/-- Some `AddPrefixMatchRoute` registered the target `c`. -/
def PrefixRegistered (calls : List RouterCall) (c : ConnectionInfo) : Prop :=
  ∃ sourceUrl targetUrl isLocal,
    RouterCall.addPrefixMatchRoute sourceUrl targetUrl isLocal ∈ calls ∧
      c.key = (targetUrl, !isLocal)

theorem PrefixRegistered.snoc {calls : List RouterCall} {c : ConnectionInfo}
    (h : PrefixRegistered calls c) (call : RouterCall) : PrefixRegistered (calls ++ [call]) c := by
  obtain ⟨sourceUrl, targetUrl, isLocal, hmem, hkey⟩ := h
  exact ⟨sourceUrl, targetUrl, isLocal, List.mem_append_left _ hmem, hkey⟩

theorem pathTargets_snoc_of_none {url : Str} {call : RouterCall} (h : call.pathTarget url = none)
    (calls : List RouterCall) : pathTargets url (calls ++ [call]) = pathTargets url calls := by
  simp [pathTargets, h]

theorem pathTargets_snoc_of_some {url : Str} {call : RouterCall} {k : Str × Bool}
    (h : call.pathTarget url = some k) (calls : List RouterCall) :
    pathTargets url (calls ++ [call]) =
      if k ∈ pathTargets url calls then pathTargets url calls
      else pathTargets url calls ++ [k] := by
  rw [pathTargets, List.filterMap_append]
  simp only [List.filterMap_cons, h, List.filterMap_nil]
  exact eraseDups_snoc _ k

/-- The tables record the calls. -/
structure Recorded (calls : List RouterCall) (r : Routes) : Prop where
  path : ∀ url, (r.exactRoutes url).map RouteAction.keys =
    if pathTargets url calls = [] then none else some (pathTargets url calls)
  prefixes : ∀ route ∈ r.prefixRoutes, ∀ c ∈ route.2.targets, PrefixRegistered calls c

namespace Recorded

variable {calls : List RouterCall} {r : Routes}

theorem isSome_iff (h : Recorded calls r) (url : Str) :
    (r.exactRoutes url).isSome ↔ pathTargets url calls ≠ [] := by
  have hp := h.path url
  rw [← Option.isSome_map (f := RouteAction.keys), hp]
  by_cases hn : pathTargets url calls = [] <;> simp [hn]

theorem keys_eq (h : Recorded calls r) {url : Str} {e : RouteAction}
    (he : r.exactRoutes url = some e) : e.keys = pathTargets url calls := by
  have hp := h.path url
  rw [he, if_neg ((h.isSome_iff url).1 (by rw [he]; rfl))] at hp
  exact Option.some.inj hp

/-- The entry a registration starts from has the targets registered so far. -/
theorem keys_getD (h : Recorded calls r) (url : Str) (leftover : ℕ) :
    ((r.exactRoutes url).getD ⟨leftover, []⟩).keys = pathTargets url calls := by
  cases he : r.exactRoutes url with
  | some e => exact h.keys_eq he
  | none =>
    have hn : pathTargets url calls = [] := by
      by_contra hne
      have := (h.isSome_iff url).2 hne
      rw [he] at this
      simp at this
    rw [hn]
    rfl

theorem addPathMatchRoute (h : Recorded calls r) (sourceUrl targetUrl : Str) (isLocal : Bool)
    (leftover : ℕ) :
    Recorded (calls ++ [.addPathMatchRoute sourceUrl targetUrl isLocal leftover])
      (r.addPathMatchRoute sourceUrl targetUrl isLocal leftover) where
  path url := by
    by_cases hu : url = sourceUrl
    · subst hu
      rw [pathTargets_snoc_of_some (k := (targetUrl, !isLocal)) (by simp [RouterCall.pathTarget])]
      have hkeys := RouteAction.keys_addTarget ((r.exactRoutes url).getD ⟨leftover, []⟩)
        (routeTarget targetUrl isLocal)
      rw [h.keys_getD, key_routeTarget] at hkeys
      rw [if_neg]
      · simp [hkeys]
      · split_ifs with hmem
        · exact List.ne_nil_of_mem hmem
        · simp
    · rw [pathTargets_snoc_of_none (by simp [RouterCall.pathTarget, Ne.symm hu]), ← h.path url]
      rw [Routes.exactRoutes_addPathMatchRoute_of_ne hu]
  prefixes route hr c hc := (h.prefixes route hr c hc).snoc _

theorem addPrefixMatchRoute (h : Recorded calls r) (sourceUrl targetUrl : Str)
    (isLocal : Bool) :
    Recorded (calls ++ [.addPrefixMatchRoute sourceUrl targetUrl isLocal])
      (r.addPrefixMatchRoute sourceUrl targetUrl isLocal) where
  path url := by
    rw [pathTargets_snoc_of_none rfl]
    exact h.path url
  prefixes route hr c hc := by
    rcases mem_addToPrefixRoutes hr with hr | ⟨e, he, hold⟩
    · exact (h.prefixes route hr c hc).snoc _
    · rw [he] at hc
      rcases RouteAction.mem_targets_addTarget hc with hc | rfl
      · rcases hold with hold | rfl
        · exact (h.prefixes _ hold c hc).snoc _
        · simp at hc
      · exact ⟨sourceUrl, targetUrl, isLocal, by simp, rfl⟩

theorem afterLookup (h : Recorded calls r) (sourceUrl : Str) (past : ℕ → UInt8) :
    Recorded (calls ++ [.getRouteTarget sourceUrl past]) (r.afterLookup past sourceUrl) where
  path url := by
    have ht := congrArg (Option.map (List.map ConnectionInfo.key))
      (r.exactTargets_afterLookup past sourceUrl url)
    rw [Option.map_map, Option.map_map] at ht
    rw [pathTargets_snoc_of_none rfl, ← h.path url]
    exact ht
  prefixes route hr c hc := by
    have hmem : (route.1, route.2.targets) ∈
        r.prefixRoutes.map fun route => (route.1, route.2.targets) := by
      rw [← r.prefixTargets_afterLookup past sourceUrl]
      exact List.mem_map_of_mem hr
    obtain ⟨old, hold, heq⟩ := List.mem_map.1 hmem
    obtain ⟨-, htargets⟩ := Prod.mk.inj heq
    rw [← htargets] at hc
    exact (h.prefixes old hold c hc).snoc _

end Recorded

/-- The tables record the calls, after every run. -/
theorem recorded_exec (calls : List RouterCall) : Recorded calls (router.exec calls) := by
  refine Machine.invariant Recorded ⟨fun url => rfl, by simp [router, Routes.empty]⟩ ?_ calls
  intro calls call h
  cases call with
  | addPathMatchRoute sourceUrl targetUrl isLocal leftover =>
    exact h.addPathMatchRoute sourceUrl targetUrl isLocal leftover
  | addPrefixMatchRoute sourceUrl targetUrl isLocal =>
    exact h.addPrefixMatchRoute sourceUrl targetUrl isLocal
  | getRouteTarget sourceUrl past => exact h.afterLookup sourceUrl past

/-! ## Confinement -/

/-- Some `AddPathMatchRoute` registered `url`. -/
def PathRegistered (calls : List RouterCall) (url : Str) : Prop :=
  ∃ targetUrl isLocal leftover,
    RouterCall.addPathMatchRoute url targetUrl isLocal leftover ∈ calls

theorem mem_pathTargets_iff {url targetUrl : Str} {isRemote : Bool} {calls : List RouterCall} :
    (targetUrl, isRemote) ∈ pathTargets url calls ↔ ∃ isLocal leftover, isRemote = !isLocal ∧
      RouterCall.addPathMatchRoute url targetUrl isLocal leftover ∈ calls := by
  rw [pathTargets, List.mem_eraseDups, List.mem_filterMap]
  constructor
  · rintro ⟨call, hmem, hcall⟩
    cases call with
    | addPathMatchRoute sourceUrl targetUrl' isLocal leftover =>
      simp only [RouterCall.pathTarget, Option.ite_none_right_eq_some, Option.some.injEq,
        Prod.mk.injEq] at hcall
      obtain ⟨rfl, rfl, rfl⟩ := hcall
      exact ⟨isLocal, leftover, rfl, hmem⟩
    | addPrefixMatchRoute => simp [RouterCall.pathTarget] at hcall
    | getRouteTarget => simp [RouterCall.pathTarget] at hcall
  · rintro ⟨isLocal, leftover, rfl, hmem⟩
    exact ⟨_, hmem, by simp [RouterCall.pathTarget]⟩

theorem pathTargets_ne_nil_iff {url : Str} {calls : List RouterCall} :
    pathTargets url calls ≠ [] ↔ PathRegistered calls url := by
  constructor
  · intro hne
    obtain ⟨⟨targetUrl, isRemote⟩, h⟩ := List.exists_mem_of_ne_nil _ hne
    obtain ⟨isLocal, leftover, -, hmem⟩ := mem_pathTargets_iff.1 h
    exact ⟨targetUrl, isLocal, leftover, hmem⟩
  · rintro ⟨targetUrl, isLocal, leftover, hmem⟩
    exact List.ne_nil_of_mem (mem_pathTargets_iff.2 ⟨isLocal, leftover, rfl, hmem⟩)

theorem Recorded.pathRegistered_iff {calls : List RouterCall} {r : Routes} (h : Recorded calls r)
    (url : Str) : (r.exactRoutes url).isSome ↔ PathRegistered calls url := by
  rw [h.isSome_iff, pathTargets_ne_nil_iff]

theorem Recorded.pathRegistered {calls : List RouterCall} {r : Routes} (h : Recorded calls r)
    {url : Str} {e : RouteAction} (he : r.exactRoutes url = some e) : PathRegistered calls url :=
  (h.pathRegistered_iff url).1 (by rw [he]; rfl)

theorem Recorded.not_pathRegistered {calls : List RouterCall} {r : Routes} (h : Recorded calls r)
    {url : Str} (he : r.exactRoutes url = none) : ¬PathRegistered calls url := by
  rw [← h.pathRegistered_iff, he]
  simp

/-- The exact table is the record of the calls : an entry for each URL registered, with its
distinct targets in order of first registration. -/
def ExactTableRecords (calls : List RouterCall) (r : Routes) : Prop :=
  ∀ url, ((r.exactRoutes url).isSome ↔ PathRegistered calls url) ∧
    ∀ e, r.exactRoutes url = some e → e.keys = pathTargets url calls ∧ e.keys.Nodup

/-- The lookup keeps every key and target list, changes nothing if it returns no target,
and changes no entry but the one its target comes from otherwise. -/
def LookupKeepsTables (r : Routes) (past : ℕ → UInt8) (url : Str) : Prop :=
  (∀ key, ((r.afterLookup past url).exactRoutes key).map RouteAction.targets =
      (r.exactRoutes key).map RouteAction.targets) ∧
    (r.afterLookup past url).prefixRoutes.map (fun route => (route.1, route.2.targets)) =
      r.prefixRoutes.map (fun route => (route.1, route.2.targets)) ∧
    (r.answer past url = none → r.afterLookup past url = r) ∧
    ∀ c, r.answer past url = some c → ∃ slot e, r.entry slot = some e ∧ c ∈ e.targets ∧
      ∀ slot', slot' ≠ slot → (r.afterLookup past url).entry slot' = r.entry slot'

/-- A target returned for a URL with an exact route was registered for that URL with the
same flag, any other by some prefix registration. -/
def AnswerRegistered (calls : List RouterCall) (r : Routes) (past : ℕ → UInt8) (url : Str) :
    Prop :=
  ∀ c, r.answer past url = some c →
    ((r.exactRoutes url).isSome → ∃ isLocal leftover, c.isRemote = !isLocal ∧
      RouterCall.addPathMatchRoute url c.httpUrl isLocal leftover ∈ calls) ∧
    (r.exactRoutes url = none → PrefixRegistered calls c)

theorem lookupKeepsTables (r : Routes) (past : ℕ → UInt8) (url : Str) :
    LookupKeepsTables r past url := by
  refine ⟨r.exactTargets_afterLookup past url, r.prefixTargets_afterLookup past url, ?_, ?_⟩
  · intro hnone
    rcases r.lookup_cases past url with ⟨-, h⟩ | ⟨slot, e, c, -, -, -, hsome, -⟩
    · exact h
    · simp [hnone] at hsome
  · intro c hc
    rcases r.lookup_cases past url with ⟨hnone, -⟩ | ⟨slot, e, c', -, he, hget, hsome, h⟩
    · simp [hc] at hnone
    · obtain rfl := Option.some.inj (hc.symm.trans hsome)
      refine ⟨slot, e, he, List.mem_of_getElem? hget, fun slot' hne => ?_⟩
      rw [h]
      exact Routes.entry_setEntry_of_ne _ hne

theorem Recorded.answerRegistered {calls : List RouterCall} {r : Routes} (h : Recorded calls r)
    (past : ℕ → UInt8) (url : Str) : AnswerRegistered calls r past url := by
  intro c hc
  rcases r.lookup_cases past url with ⟨hnone, -⟩ | ⟨slot, e, c', hslot, he, hget, hsome, -⟩
  · simp [hc] at hnone
  · obtain rfl := Option.some.inj (hc.symm.trans hsome)
    have hmem := List.mem_of_getElem? hget
    constructor
    · intro hexact
      rw [Routes.selectSlot_of_exact past hexact] at hslot
      obtain rfl := Option.some.inj hslot
      have hkey : c.key ∈ pathTargets url calls := by
        rw [← h.keys_eq he]
        exact List.mem_map_of_mem hmem
      exact mem_pathTargets_iff.1 hkey
    · intro hexact
      cases slot with
      | path key =>
        unfold Routes.selectSlot at hslot
        simp [hexact] at hslot
      | pre i =>
        obtain ⟨route, hr, rfl⟩ := Option.map_eq_some_iff.1 he
        exact h.prefixes route (List.mem_of_getElem? hr) c hmem

/-- Confinement over whole runs : the exact table is the record of the calls, a lookup
changes no key, no target list and no other entry, and what it returns was registered. -/
theorem router_confined (calls : List RouterCall) :
    ExactTableRecords calls (router.exec calls) ∧
      ∀ past url, LookupKeepsTables (router.exec calls) past url ∧
        AnswerRegistered calls (router.exec calls) past url := by
  have h := recorded_exec calls
  refine ⟨fun url => ⟨h.pathRegistered_iff url, fun e he => ⟨h.keys_eq he, ?_⟩⟩,
    fun past url => ?_⟩
  · rw [h.keys_eq he]
    exact nodup_eraseDups _
  · exact ⟨lookupKeepsTables _ past url, h.answerRegistered past url⟩

/-! ## The index of a new exact entry -/

namespace RouterCall

/-- The call registers the exact route of `url`. -/
def registersPath (url : Str) : RouterCall → Bool
  | .addPathMatchRoute sourceUrl _ _ _ => sourceUrl = url
  | _ => false

/-- The call looks `url` up. -/
def looksUp (url : Str) : RouterCall → Bool
  | .getRouteTarget sourceUrl _ => sourceUrl = url
  | _ => false

end RouterCall

/-- What the memory held where the exact entry of `url` was created, while no lookup has
reached that entry. -/
def freshIndex (url : Str) (calls : List RouterCall) : Option ℕ :=
  match calls.dropWhile fun call => !call.registersPath url with
  | .addPathMatchRoute _ _ _ leftover :: rest =>
    if rest.any (RouterCall.looksUp url) then none else some leftover
  | _ => none

theorem registersPath_eq_false {url : Str} {calls : List RouterCall}
    (h : ¬PathRegistered calls url) : ∀ call ∈ calls, call.registersPath url = false := by
  intro call hmem
  cases call with
  | addPathMatchRoute sourceUrl targetUrl isLocal leftover =>
    refine decide_eq_false fun hu => h ?_
    exact ⟨targetUrl, isLocal, leftover, hu ▸ hmem⟩
  | addPrefixMatchRoute => rfl
  | getRouteTarget => rfl

/-- Before its first registration a URL has no index, at it the index is `leftover`. -/
theorem dropWhile_of_not_registered {url : Str} {calls : List RouterCall}
    (h : ¬PathRegistered calls url) (call : RouterCall) :
    (calls ++ [call]).dropWhile (fun call => !call.registersPath url) =
      [call].dropWhile fun call => !call.registersPath url := by
  rw [List.dropWhile_append_of_pos]
  intro c hc
  simp [registersPath_eq_false h c hc]

theorem freshIndex_first {url targetUrl : Str} {isLocal : Bool} {leftover : ℕ}
    {calls : List RouterCall} (h : ¬PathRegistered calls url) :
    freshIndex url (calls ++ [.addPathMatchRoute url targetUrl isLocal leftover]) =
      some leftover := by
  rw [freshIndex, dropWhile_of_not_registered h]
  simp [RouterCall.registersPath]

/-- From the first registration on, calls that do not look the URL up leave it fresh. -/
theorem freshIndex_snoc {url : Str} {calls : List RouterCall} (h : PathRegistered calls url)
    (call : RouterCall) :
    freshIndex url (calls ++ [call]) =
      if call.looksUp url then none else freshIndex url calls := by
  obtain ⟨targetUrl, isLocal, leftover, hmem⟩ := h
  have hne : calls.dropWhile (fun call => !call.registersPath url) ≠ [] := by
    intro hnil
    have := List.dropWhile_eq_nil_iff.1 hnil _ hmem
    simp [RouterCall.registersPath] at this
  have hsnoc : (calls ++ [call]).dropWhile (fun call => !call.registersPath url) =
      calls.dropWhile (fun call => !call.registersPath url) ++ [call] := by
    rw [List.dropWhile_append, if_neg (by simpa using hne)]
  rw [freshIndex, freshIndex, hsnoc]
  generalize calls.dropWhile (fun call => !call.registersPath url) = since at hne
  cases since with
  | nil => exact absurd rfl hne
  | cons first rest =>
    cases first with
    | addPathMatchRoute =>
      by_cases hl : call.looksUp url
      · simp [hl]
      · simp [hl]
    | addPrefixMatchRoute => simp
    | getRouteTarget => simp

theorem Routes.selectSlot_eq_path {r : Routes} {past : ℕ → UInt8} {sourceUrl key : Str}
    (h : r.selectSlot past sourceUrl = some (.path key)) : key = sourceUrl := by
  unfold selectSlot at h
  split_ifs at h
  · exact (Slot.path.inj (Option.some.inj h)).symm
  · simp at h

/-- A lookup changes the exact entry of its own URL only. -/
theorem exactRoutes_afterLookup_of_ne (r : Routes) (past : ℕ → UInt8) {sourceUrl url : Str}
    (h : url ≠ sourceUrl) : (r.afterLookup past sourceUrl).exactRoutes url = r.exactRoutes url := by
  rcases r.lookup_cases past sourceUrl with ⟨-, hr⟩ | ⟨slot, e, c, hslot, -, -, -, hr⟩
  · rw [hr]
  · rw [hr]
    cases slot with
    | path key =>
      obtain rfl := Routes.selectSlot_eq_path hslot
      simp [Routes.setEntry, h]
    | pre i => rfl

/-- An exact entry no lookup has reached still has the index it was created with. -/
def FreshIndexKept (calls : List RouterCall) (r : Routes) : Prop :=
  ∀ url e n, r.exactRoutes url = some e → freshIndex url calls = some n → e.nextIndex = n

namespace FreshIndexKept

variable {calls : List RouterCall} {r : Routes} {url : Str} {e : RouteAction} {n : ℕ}

/-- The step where the entry of `url` was there, with the index `e` has now, and the call
does not look it up. -/
theorem of_old (h : FreshIndexKept calls r) (hrec : Recorded calls r) {call : RouterCall}
    (hcall : call.looksUp url = false) {old : RouteAction} (hold : r.exactRoutes url = some old)
    (hn : freshIndex url (calls ++ [call]) = some n) : old.nextIndex = n := by
  rw [freshIndex_snoc (hrec.pathRegistered hold), hcall] at hn
  exact h url old n hold hn

theorem addPathMatchRoute (h : FreshIndexKept calls r) (hrec : Recorded calls r)
    (sourceUrl targetUrl : Str) (isLocal : Bool) (leftover : ℕ) :
    FreshIndexKept (calls ++ [.addPathMatchRoute sourceUrl targetUrl isLocal leftover])
      (r.addPathMatchRoute sourceUrl targetUrl isLocal leftover) := by
  intro url e n he hn
  by_cases hu : url = sourceUrl
  · subst hu
    rw [Routes.exactRoutes_addPathMatchRoute_self, Option.some.injEq] at he
    rw [← he, RouteAction.nextIndex_addTarget]
    cases hold : r.exactRoutes url with
    | none =>
      rw [freshIndex_first (hrec.not_pathRegistered hold)] at hn
      exact Option.some.inj hn
    | some old => exact h.of_old hrec rfl hold hn
  · rw [Routes.exactRoutes_addPathMatchRoute_of_ne hu] at he
    exact h.of_old hrec rfl he hn

theorem afterLookup (h : FreshIndexKept calls r) (hrec : Recorded calls r) (sourceUrl : Str)
    (past : ℕ → UInt8) :
    FreshIndexKept (calls ++ [.getRouteTarget sourceUrl past])
      (r.afterLookup past sourceUrl) := by
  intro url e n he hn
  by_cases hu : url = sourceUrl
  · have hreg := (hrec.afterLookup sourceUrl past).pathRegistered he
    rw [← pathTargets_ne_nil_iff, pathTargets_snoc_of_none rfl, pathTargets_ne_nil_iff] at hreg
    rw [freshIndex_snoc hreg] at hn
    simp [RouterCall.looksUp, hu] at hn
  · rw [exactRoutes_afterLookup_of_ne r past hu] at he
    exact h.of_old hrec (by simp [RouterCall.looksUp, Ne.symm hu]) he hn

end FreshIndexKept

theorem freshIndexKept_exec (calls : List RouterCall) :
    FreshIndexKept calls (router.exec calls) := by
  refine Machine.invariant FreshIndexKept (fun url e n he => ?_) ?_ calls
  · simp [router, Routes.empty] at he
  · intro calls call h
    have hrec := recorded_exec calls
    cases call with
    | addPathMatchRoute sourceUrl targetUrl isLocal leftover =>
      exact h.addPathMatchRoute hrec sourceUrl targetUrl isLocal leftover
    | addPrefixMatchRoute sourceUrl targetUrl isLocal =>
      exact fun url e n he hn => h.of_old hrec rfl he hn
    | getRouteTarget sourceUrl past => exact h.afterLookup hrec sourceUrl past

/-- Every prefix entry has its index in range. -/
def PrefixIndexInRange (r : Routes) : Prop :=
  ∀ route ∈ r.prefixRoutes, route.2.nextIndex < route.2.targets.length

theorem PrefixIndexInRange.addPrefixMatchRoute {r : Routes} (h : PrefixIndexInRange r)
    (sourceUrl targetUrl : Str) (isLocal : Bool) :
    PrefixIndexInRange (r.addPrefixMatchRoute sourceUrl targetUrl isLocal) := by
  intro route hr
  rcases mem_addToPrefixRoutes hr with hr | ⟨e, he, hold⟩
  · exact h route hr
  · rw [he, RouteAction.nextIndex_addTarget]
    obtain ⟨hle, hpos⟩ := e.length_targets_addTarget (routeTarget targetUrl isLocal)
    rcases hold with hold | rfl
    · exact (h _ hold).trans_le hle
    · exact hpos

theorem PrefixIndexInRange.afterLookup {r : Routes} (h : PrefixIndexInRange r)
    (past : ℕ → UInt8) (sourceUrl : Str) : PrefixIndexInRange (r.afterLookup past sourceUrl) := by
  rcases r.lookup_cases past sourceUrl with ⟨-, hr⟩ | ⟨slot, e, c, -, -, hget, -, hr⟩
  · rw [hr]
    exact h
  · rw [hr]
    cases slot with
    | path key => exact h
    | pre i =>
      intro route hmem
      obtain ⟨j, hj⟩ := List.mem_iff_getElem?.1 hmem
      simp only [Routes.setEntry, List.getElem?_modify] at hj
      obtain ⟨old, hold, hj⟩ := Option.map_eq_some_iff.1 hj
      have hpos : 0 < e.targets.length := List.length_pos_of_mem (List.mem_of_getElem? hget)
      split_ifs at hj with hij
      · rw [← hj]
        exact Nat.mod_lt _ hpos
      · rw [← hj]
        exact h old (List.mem_of_getElem? hold)

theorem prefixIndexInRange_exec (calls : List RouterCall) :
    PrefixIndexInRange (router.exec calls) := by
  refine Machine.invariant (fun _ => PrefixIndexInRange) ?_ ?_ calls
  · simp [PrefixIndexInRange, router, Routes.empty]
  · intro calls call h
    cases call with
    | addPathMatchRoute => exact h
    | addPrefixMatchRoute sourceUrl targetUrl isLocal =>
      exact h.addPrefixMatchRoute sourceUrl targetUrl isLocal
    | getRouteTarget sourceUrl past => exact h.afterLookup past sourceUrl

/-! ## Which runs keep every index in range -/

/-- If the call reaches `GetNextTarget` on an entry with targets, that entry's index is in
range. -/
def IndexInRange (r : Routes) : RouterCall → Prop
  | .getRouteTarget url past => ∀ slot e, r.selectSlot past url = some slot →
      r.entry slot = some e → e.targets ≠ [] → e.nextIndex < e.targets.length
  | _ => True

/-- At the first lookup that reaches an exact entry, more targets are registered for its URL
than the number the memory held when the entry was created. -/
def FreshIndexCovered (calls : List RouterCall) : Prop :=
  ∀ pre url past post, calls = pre ++ .getRouteTarget url past :: post →
    ∀ n, freshIndex url pre = some n → n < (pathTargets url pre).length

theorem FreshIndexCovered.of_append {calls calls' : List RouterCall}
    (h : FreshIndexCovered (calls ++ calls')) : FreshIndexCovered calls :=
  fun pre url past post heq => h pre url past (post ++ calls') (by simp [heq])

theorem pathRegistered_of_freshIndex {url : Str} {calls : List RouterCall} {n : ℕ}
    (h : freshIndex url calls = some n) : PathRegistered calls url := by
  by_contra hreg
  have hnil : calls.dropWhile (fun call => !call.registersPath url) = [] := by
    refine List.dropWhile_eq_nil_iff.2 fun call hmem => ?_
    simp [registersPath_eq_false hreg call hmem]
  simp [freshIndex, hnil] at h

/-- Every exact entry a lookup has reached has its index in range. -/
def ReachedIndexInRange (calls : List RouterCall) (r : Routes) : Prop :=
  ∀ url e, r.exactRoutes url = some e → freshIndex url calls = none →
    e.nextIndex < e.targets.length

/-- With both kinds of entry in range, so is the one a covered lookup reads. -/
theorem ReachedIndexInRange.of_covered {calls : List RouterCall} {r : Routes}
    (h : ReachedIndexInRange calls r) (hrec : Recorded calls r) (hfresh : FreshIndexKept calls r)
    {url : Str} (hcov : ∀ n, freshIndex url calls = some n → n < (pathTargets url calls).length)
    {e : RouteAction} (he : r.exactRoutes url = some e) : e.nextIndex < e.targets.length := by
  cases hn : freshIndex url calls with
  | none => exact h url e he hn
  | some n =>
    rw [hfresh url e n he hn, ← e.length_keys, hrec.keys_eq he]
    exact hcov n hn

/-- An entry in range before a call that does not look it up was reached before it. -/
theorem ReachedIndexInRange.of_old {calls : List RouterCall} {r : Routes}
    (h : ReachedIndexInRange calls r) (hrec : Recorded calls r) {call : RouterCall} {url : Str}
    (hcall : call.looksUp url = false) {old : RouteAction} (hold : r.exactRoutes url = some old)
    (hn : freshIndex url (calls ++ [call]) = none) : old.nextIndex < old.targets.length := by
  rw [freshIndex_snoc (hrec.pathRegistered hold), hcall] at hn
  exact h url old hold hn

theorem ReachedIndexInRange.addPathMatchRoute {calls : List RouterCall} {r : Routes}
    (h : ReachedIndexInRange calls r) (hrec : Recorded calls r) (sourceUrl targetUrl : Str)
    (isLocal : Bool) (leftover : ℕ) :
    ReachedIndexInRange (calls ++ [.addPathMatchRoute sourceUrl targetUrl isLocal leftover])
      (r.addPathMatchRoute sourceUrl targetUrl isLocal leftover) := by
  intro url e he hn
  by_cases hu : url = sourceUrl
  · subst hu
    rw [Routes.exactRoutes_addPathMatchRoute_self, Option.some.injEq] at he
    cases hold : r.exactRoutes url with
    | none => simp [freshIndex_first (hrec.not_pathRegistered hold)] at hn
    | some old =>
      have hlt := h.of_old hrec rfl hold hn
      rw [hold] at he
      rw [← he, RouteAction.nextIndex_addTarget]
      exact hlt.trans_le (RouteAction.length_targets_addTarget _ _).1
  · rw [Routes.exactRoutes_addPathMatchRoute_of_ne hu] at he
    exact h.of_old hrec rfl he hn

theorem ReachedIndexInRange.afterLookup {calls : List RouterCall} {r : Routes}
    (h : ReachedIndexInRange calls r) (hrec : Recorded calls r) (hfresh : FreshIndexKept calls r)
    {sourceUrl : Str}
    (hcov : ∀ n, freshIndex sourceUrl calls = some n → n < (pathTargets sourceUrl calls).length)
    (past : ℕ → UInt8) :
    ReachedIndexInRange (calls ++ [.getRouteTarget sourceUrl past])
      (r.afterLookup past sourceUrl) := by
  intro url e he hn
  by_cases hu : url = sourceUrl
  · subst hu
    rcases r.lookup_cases past url with ⟨-, hr⟩ | ⟨slot, old, c, hslot, -, hget, -, hr⟩
    · rw [hr] at he
      exact h.of_covered hrec hfresh hcov he
    · rw [hr] at he
      cases slot with
      | pre i => exact h.of_covered hrec hfresh hcov he
      | path key =>
        obtain rfl := Routes.selectSlot_eq_path hslot
        simp only [Routes.setEntry, Function.update_self, Option.some.injEq] at he
        rw [← he]
        exact Nat.mod_lt _ (List.length_pos_of_mem (List.mem_of_getElem? hget))
  · rw [exactRoutes_afterLookup_of_ne r past hu] at he
    exact h.of_old hrec (by simp [RouterCall.looksUp, Ne.symm hu]) he hn

/-- A covered run leaves every entry a lookup has reached in range. -/
theorem reachedIndexInRange_exec (calls : List RouterCall) (hcov : FreshIndexCovered calls) :
    ReachedIndexInRange calls (router.exec calls) := by
  induction calls using List.reverseRecOn with
  | nil =>
    intro url e he
    simp [router, Routes.empty] at he
  | append_singleton calls call ih =>
    have h := ih hcov.of_append
    have hrec := recorded_exec calls
    rw [Machine.exec_snoc]
    cases call with
    | addPathMatchRoute sourceUrl targetUrl isLocal leftover =>
      exact h.addPathMatchRoute hrec sourceUrl targetUrl isLocal leftover
    | addPrefixMatchRoute sourceUrl targetUrl isLocal =>
      exact fun url e he hn => h.of_old hrec rfl he hn
    | getRouteTarget sourceUrl past =>
      exact h.afterLookup hrec (freshIndexKept_exec calls) (hcov calls sourceUrl past [] rfl) past

/-- No call of a run reads a target vector past its end exactly when the run is covered. -/
theorem along_indexInRange_iff (calls : List RouterCall) :
    router.Along IndexInRange calls ↔ FreshIndexCovered calls := by
  constructor
  · rintro h pre url past post heq n hn
    have hrec := recorded_exec pre
    have hsome := (hrec.pathRegistered_iff url).2 (pathRegistered_of_freshIndex hn)
    obtain ⟨e, he⟩ := Option.isSome_iff_exists.1 hsome
    have htargets : e.targets ≠ [] := by
      have hne := (hrec.isSome_iff url).1 hsome
      rw [← hrec.keys_eq he] at hne
      simpa [RouteAction.keys] using hne
    have hlt := h pre _ post heq _ e (Routes.selectSlot_of_exact past hsome) he htargets
    rwa [freshIndexKept_exec pre url e n he hn, ← e.length_keys, hrec.keys_eq he] at hlt
  · intro hcov pre call post heq
    cases call with
    | addPathMatchRoute => trivial
    | addPrefixMatchRoute => trivial
    | getRouteTarget url past =>
      intro slot e hslot he _
      cases slot with
      | path key =>
        obtain rfl := Routes.selectSlot_eq_path hslot
        have hpre : FreshIndexCovered pre := by
          rw [heq] at hcov
          exact hcov.of_append
        exact (reachedIndexInRange_exec pre hpre).of_covered (recorded_exec pre)
          (freshIndexKept_exec pre) (hcov pre key past post heq) he
      | pre i =>
        obtain ⟨route, hr, rfl⟩ := Option.map_eq_some_iff.1 he
        exact prefixIndexInRange_exec pre route (List.mem_of_getElem? hr)

/-- One exact route with one target, created where the memory held `1`, then looked up. -/
theorem not_along_indexInRange_leftover :
    ¬router.Along IndexInRange
      [.addPathMatchRoute (lit "/a") (lit "/t") false 1,
        .getRouteTarget (lit "/a") fun _ => 0] := by
  intro h
  have := h [.addPathMatchRoute (lit "/a") (lit "/t") false 1] _ [] rfl (.path (lit "/a"))
    ⟨1, [routeTarget (lit "/t") false]⟩ (by decide) (by decide) (by decide)
  exact absurd this (by decide)

end Azugate
