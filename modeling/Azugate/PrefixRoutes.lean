import Azugate.RouterRuns

/-!
# Under which prefix a target is filed

`AddPrefixMatchRoute` adds its target to the first route whose prefix the source starts
with, and makes a new route only if there is none. So a source registered after one of its
own prefixes gets no route.

`FiledBySource` is the table a registration by source would build : one route for each
source, with the distinct targets registered for it. `filedBySource_iff` says which orders
of registration build it : no source is registered for the first time after another that
is a prefix of it (`NestedFirst`). In such a run no route's prefix is a prefix of a later
one (`Unshadowed`), so the first match of a source with a route is its own.
-/

namespace Azugate

/-- One call of `AddPrefixMatchRoute`. -/
structure PrefixRegistration where
  sourceUrl : Str
  targetUrl : Str
  isLocal : Bool
  deriving DecidableEq, Repr

namespace PrefixRegistration

/-- The target it registers. -/
def target (g : PrefixRegistration) : ConnectionInfo :=
  routeTarget g.targetUrl g.isLocal

end PrefixRegistration

/-- Registrations of prefix routes, from the empty tables. -/
def prefixRegistrar : Machine Routes PrefixRegistration where
  init := .empty
  step r g := r.addPrefixMatchRoute g.sourceUrl g.targetUrl g.isLocal

/-- The table `g_prefix_routes` after the registrations `gs`. -/
def prefixTable (gs : List PrefixRegistration) : List (Str × RouteAction) :=
  (prefixRegistrar.exec gs).prefixRoutes

@[simp] theorem prefixTable_nil : prefixTable [] = [] :=
  rfl

theorem prefixTable_snoc (gs : List PrefixRegistration) (g : PrefixRegistration) :
    prefixTable (gs ++ [g]) = addToPrefixRoutes g.sourceUrl g.target (prefixTable gs) := by
  rw [prefixTable, Machine.exec_snoc]
  rfl

/-- The distinct targets registered with the source `s`, in order of first registration. -/
def targetsOf (s : Str) (gs : List PrefixRegistration) : List (Str × Bool) :=
  ((gs.filter fun g => g.sourceUrl = s).map fun g => (g.targetUrl, !g.isLocal)).eraseDups

/-- One route for each source registered, holding the targets registered with it. -/
structure FiledBySource (gs : List PrefixRegistration) (routes : List (Str × RouteAction)) :
    Prop where
  nodup : (routes.map Prod.fst).Nodup
  mem_iff : ∀ s, s ∈ routes.map Prod.fst ↔ s ∈ gs.map PrefixRegistration.sourceUrl
  targets : ∀ route ∈ routes, route.2.keys = targetsOf route.1 gs

/-- No source is registered for the first time after another that is a prefix of it. -/
def NestedFirst (gs : List PrefixRegistration) : Prop :=
  ∀ pre g post, gs = pre ++ g :: post → g.sourceUrl ∉ pre.map PrefixRegistration.sourceUrl →
    ∀ h ∈ pre, ¬h.sourceUrl <+: g.sourceUrl

/-! ## The first match -/

/-- The prefix of no route is a prefix of a later one. -/
def Unshadowed (routes : List (Str × RouteAction)) : Prop :=
  (routes.map Prod.fst).Pairwise fun a b => ¬a <+: b

theorem Unshadowed.nodup {routes : List (Str × RouteAction)} (h : Unshadowed routes) :
    (routes.map Prod.fst).Nodup :=
  h.imp fun {a b} hab (heq : a = b) => hab (heq ▸ List.prefix_refl a)

/-- With no match the target goes to a new route at the end. -/
theorem addToPrefixRoutes_of_no_match {s : Str} (target : ConnectionInfo) :
    ∀ {routes : List (Str × RouteAction)}, (∀ route ∈ routes, ¬route.1 <+: s) →
      addToPrefixRoutes s target routes = routes ++ [(s, RouteAction.addTarget ⟨0, []⟩ target)]
  | [], _ => rfl
  | route :: routes, h => by
    have hne : ¬matchPrefix s route.1 := fun hm => h route (by simp) (matchPrefix_iff.1 hm)
    rw [addToPrefixRoutes, if_neg hne,
      addToPrefixRoutes_of_no_match target fun route' hr => h route' (by simp [hr])]
    rfl

/-- In an unshadowed table a source with a route goes to that route. -/
theorem addToPrefixRoutes_of_mem {s : Str} (target : ConnectionInfo) :
    ∀ {routes : List (Str × RouteAction)}, Unshadowed routes → s ∈ routes.map Prod.fst →
      addToPrefixRoutes s target routes =
        routes.map fun route => if route.1 = s then (s, route.2.addTarget target) else route
  | [], _, h => by simp at h
  | route :: routes, hu, h => by
    rw [Unshadowed, List.map_cons, List.pairwise_cons] at hu
    obtain ⟨hfirst, hrest⟩ := hu
    by_cases hs : route.1 = s
    · have hother : ∀ other ∈ routes, other.1 ≠ s := by
        intro other hmem heq
        exact hfirst _ (List.mem_map_of_mem hmem) (by rw [hs, heq])
      have hm : matchPrefix s route.1 := matchPrefix_iff.2 (by rw [hs])
      rw [addToPrefixRoutes, if_pos hm, List.map_cons, if_pos hs, hs]
      congr 1
      symm
      refine (List.map_congr_left fun other hmem => ?_).trans (List.map_id _)
      rw [if_neg (hother other hmem)]
      rfl
    · have hmem : s ∈ routes.map Prod.fst := by
        rcases List.mem_cons.1 h with h | h
        · exact absurd h.symm hs
        · exact h
      have hne : ¬matchPrefix s route.1 := fun hm => hfirst s hmem (matchPrefix_iff.1 hm)
      rw [addToPrefixRoutes, if_neg hne, List.map_cons, if_neg hs,
        addToPrefixRoutes_of_mem target hrest hmem]

/-- A registration adds its source to the prefixes unless one of them is a prefix of it. -/
theorem map_fst_addToPrefixRoutes (s : Str) (target : ConnectionInfo) :
    ∀ routes : List (Str × RouteAction),
      (addToPrefixRoutes s target routes).map Prod.fst =
        if ∃ k ∈ routes.map Prod.fst, k <+: s then routes.map Prod.fst
        else routes.map Prod.fst ++ [s]
  | [] => by simp [addToPrefixRoutes]
  | route :: routes => by
    by_cases hm : route.1 <+: s
    · rw [addToPrefixRoutes, if_pos (matchPrefix_iff.2 hm), if_pos ⟨route.1, by simp, hm⟩]
      rfl
    · have hex : (∃ k ∈ (route :: routes).map Prod.fst, k <+: s) ↔
          ∃ k ∈ routes.map Prod.fst, k <+: s := by
        simp [hm]
      rw [addToPrefixRoutes, if_neg (mt matchPrefix_iff.1 hm), List.map_cons,
        map_fst_addToPrefixRoutes s target routes]
      by_cases h : ∃ k ∈ routes.map Prod.fst, k <+: s
      · rw [if_pos h, if_pos (hex.2 h), List.map_cons]
      · rw [if_neg h, if_neg (mt hex.1 h), List.map_cons, List.cons_append]

/-! ## Targets of one source -/

theorem targetsOf_snoc_of_ne {s : Str} {g : PrefixRegistration} (h : g.sourceUrl ≠ s)
    (gs : List PrefixRegistration) : targetsOf s (gs ++ [g]) = targetsOf s gs := by
  simp [targetsOf, h]

theorem targetsOf_snoc_self (gs : List PrefixRegistration) (g : PrefixRegistration) :
    targetsOf g.sourceUrl (gs ++ [g]) =
      if g.target.key ∈ targetsOf g.sourceUrl gs then targetsOf g.sourceUrl gs
      else targetsOf g.sourceUrl gs ++ [g.target.key] := by
  have hmap : ((gs ++ [g]).filter fun h => h.sourceUrl = g.sourceUrl).map
      (fun h => (h.targetUrl, !h.isLocal)) =
      ((gs.filter fun h => h.sourceUrl = g.sourceUrl).map fun h => (h.targetUrl, !h.isLocal)) ++
        [g.target.key] := by
    simp [PrefixRegistration.target]
  rw [targetsOf, hmap]
  exact eraseDups_snoc _ _

theorem targetsOf_of_not_mem {s : Str} {gs : List PrefixRegistration}
    (h : s ∉ gs.map PrefixRegistration.sourceUrl) : targetsOf s gs = [] := by
  have hfilter : (gs.filter fun g => g.sourceUrl = s) = [] := by
    refine List.filter_eq_nil_iff.2 fun g hg => ?_
    rw [decide_eq_true_eq]
    rintro rfl
    exact h (List.mem_map_of_mem hg)
  simp [targetsOf, hfilter]

/-! ## Which orders file every target under its source -/

theorem NestedFirst.of_append {gs gs' : List PrefixRegistration} (h : NestedFirst (gs ++ gs')) :
    NestedFirst gs :=
  fun pre g post heq => h pre g (post ++ gs') (by simp [heq])

/-- A registration of a source that has a route. -/
theorem FiledBySource.snoc_of_mem {gs : List PrefixRegistration}
    {routes : List (Str × RouteAction)} (h : FiledBySource gs routes) (hu : Unshadowed routes)
    {g : PrefixRegistration} (hg : g.sourceUrl ∈ gs.map PrefixRegistration.sourceUrl) :
    FiledBySource (gs ++ [g]) (addToPrefixRoutes g.sourceUrl g.target routes) ∧
      Unshadowed (addToPrefixRoutes g.sourceUrl g.target routes) := by
  have hmem := (h.mem_iff _).2 hg
  have hfst : (addToPrefixRoutes g.sourceUrl g.target routes).map Prod.fst =
      routes.map Prod.fst := by
    rw [map_fst_addToPrefixRoutes, if_pos ⟨_, hmem, List.prefix_refl _⟩]
  refine ⟨⟨by rw [hfst]; exact h.nodup, fun s => ?_, fun route hr => ?_⟩, ?_⟩
  · rw [hfst, h.mem_iff s, List.map_append, List.mem_append]
    simp only [List.map_cons, List.map_nil, List.mem_singleton]
    exact ⟨Or.inl, fun hs => hs.elim id fun hs => hs ▸ hg⟩
  · rw [addToPrefixRoutes_of_mem g.target hu hmem] at hr
    obtain ⟨old, hold, rfl⟩ := List.mem_map.1 hr
    by_cases hs : old.1 = g.sourceUrl
    · rw [if_pos hs, targetsOf_snoc_self, RouteAction.keys_addTarget, h.targets old hold, hs]
    · rw [if_neg hs, targetsOf_snoc_of_ne (Ne.symm hs)]
      exact h.targets old hold
  · rw [Unshadowed, hfst]
    exact hu

/-- A registration of a source none of whose prefixes has a route. -/
theorem FiledBySource.snoc_of_no_match {gs : List PrefixRegistration}
    {routes : List (Str × RouteAction)} (h : FiledBySource gs routes) (hu : Unshadowed routes)
    {g : PrefixRegistration} (hg : g.sourceUrl ∉ gs.map PrefixRegistration.sourceUrl)
    (hno : ∀ k ∈ routes.map Prod.fst, ¬k <+: g.sourceUrl) :
    FiledBySource (gs ++ [g]) (addToPrefixRoutes g.sourceUrl g.target routes) ∧
      Unshadowed (addToPrefixRoutes g.sourceUrl g.target routes) := by
  have hfst : (addToPrefixRoutes g.sourceUrl g.target routes).map Prod.fst =
      routes.map Prod.fst ++ [g.sourceUrl] := by
    rw [map_fst_addToPrefixRoutes, if_neg]
    rintro ⟨k, hk, hp⟩
    exact hno k hk hp
  have hunsh : Unshadowed (addToPrefixRoutes g.sourceUrl g.target routes) := by
    rw [Unshadowed, hfst, List.pairwise_append]
    refine ⟨hu, by simp, fun k hk s hs => ?_⟩
    rw [List.mem_singleton.1 hs]
    exact hno k hk
  refine ⟨⟨hunsh.nodup, fun s => ?_, fun route hr => ?_⟩, hunsh⟩
  · rw [hfst, List.map_append, List.mem_append, List.mem_append, h.mem_iff s]
    rfl
  · rw [addToPrefixRoutes_of_no_match g.target fun route hr =>
      hno _ (List.mem_map_of_mem hr)] at hr
    rcases List.mem_append.1 hr with hr | hr
    · have hne : g.sourceUrl ≠ route.1 := by
        intro heq
        exact hno _ (List.mem_map_of_mem hr) (heq ▸ List.prefix_refl _)
      rw [targetsOf_snoc_of_ne hne]
      exact h.targets route hr
    · rw [List.mem_singleton.1 hr, targetsOf_snoc_self, targetsOf_of_not_mem hg]
      rfl

/-- Registrations with nested sources first file every target under its source. -/
theorem filedBySource_of_nestedFirst (gs : List PrefixRegistration) (hgs : NestedFirst gs) :
    FiledBySource gs (prefixTable gs) ∧ Unshadowed (prefixTable gs) := by
  induction gs using List.reverseRecOn with
  | nil => exact ⟨⟨by simp, by simp, by simp⟩, List.Pairwise.nil⟩
  | append_singleton gs g ih =>
    obtain ⟨h, hu⟩ := ih hgs.of_append
    rw [prefixTable_snoc]
    by_cases hg : g.sourceUrl ∈ gs.map PrefixRegistration.sourceUrl
    · exact h.snoc_of_mem hu hg
    · refine h.snoc_of_no_match hu hg fun k hk => ?_
      obtain ⟨old, hold, rfl⟩ := List.mem_map.1 ((h.mem_iff k).1 hk)
      exact hgs gs g [] rfl hg old hold

/-- Every source is covered by a prefix in the table, and every prefix in it is a source. -/
theorem prefixTable_covers (gs : List PrefixRegistration) :
    (∀ g ∈ gs, ∃ k ∈ (prefixTable gs).map Prod.fst, k <+: g.sourceUrl) ∧
      ∀ k ∈ (prefixTable gs).map Prod.fst, k ∈ gs.map PrefixRegistration.sourceUrl := by
  induction gs using List.reverseRecOn with
  | nil => simp
  | append_singleton gs g ih =>
    obtain ⟨hcov, hsub⟩ := ih
    rw [prefixTable_snoc, map_fst_addToPrefixRoutes, List.map_append]
    split_ifs with h
    · refine ⟨fun g' hg' => ?_, fun k hk => List.mem_append_left _ (hsub k hk)⟩
      rcases List.mem_append.1 hg' with hg' | hg'
      · exact hcov g' hg'
      · rw [List.mem_singleton.1 hg']
        exact h
    · refine ⟨fun g' hg' => ?_, fun k hk => ?_⟩
      · rcases List.mem_append.1 hg' with hg' | hg'
        · obtain ⟨k, hk, hp⟩ := hcov g' hg'
          exact ⟨k, List.mem_append_left _ hk, hp⟩
        · rw [List.mem_singleton.1 hg']
          exact ⟨g.sourceUrl, by simp, List.prefix_refl _⟩
      · rcases List.mem_append.1 hk with hk | hk
        · exact List.mem_append_left _ (hsub k hk)
        · exact List.mem_append_right _ hk

/-- A source without a route, shadowed by the prefix of one, never gets a route. -/
theorem shadowed_append {s : Str} {pre : List PrefixRegistration}
    (hs : s ∉ (prefixTable pre).map Prod.fst)
    (hp : ∃ k ∈ (prefixTable pre).map Prod.fst, k <+: s) (post : List PrefixRegistration) :
    s ∉ (prefixTable (pre ++ post)).map Prod.fst ∧
      ∃ k ∈ (prefixTable (pre ++ post)).map Prod.fst, k <+: s := by
  induction post using List.reverseRecOn with
  | nil =>
    rw [List.append_nil]
    exact ⟨hs, hp⟩
  | append_singleton post g ih =>
    obtain ⟨hs', k, hk, hks⟩ := ih
    rw [← List.append_assoc, prefixTable_snoc, map_fst_addToPrefixRoutes]
    split_ifs with h
    · exact ⟨hs', k, hk, hks⟩
    · refine ⟨fun hmem => ?_, k, List.mem_append_left _ hk, hks⟩
      rcases List.mem_append.1 hmem with hmem | hmem
      · exact hs' hmem
      · rw [List.mem_singleton.1 hmem] at hks
        exact h ⟨k, hk, hks⟩

/-- The table has one route for each source, with its targets, exactly when no source was
registered for the first time after one of its prefixes. -/
theorem filedBySource_iff (gs : List PrefixRegistration) :
    FiledBySource gs (prefixTable gs) ↔ NestedFirst gs := by
  refine ⟨fun h pre g post heq hnew old hold hp => ?_, fun h =>
    (filedBySource_of_nestedFirst gs h).1⟩
  obtain ⟨hcov, hsub⟩ := prefixTable_covers pre
  obtain ⟨k, hk, hko⟩ := hcov old hold
  have hshadow := shadowed_append (fun hmem => hnew (hsub _ hmem)) ⟨k, hk, hko.trans hp⟩
    (g :: post)
  rw [← heq] at hshadow
  refine hshadow.1 ((h.mem_iff _).2 ?_)
  rw [heq]
  simp

/-- `/a` and then `/a/b` : the second source has no route. -/
theorem not_filedBySource_nested :
    ¬FiledBySource [⟨lit "/a", lit "/t", false⟩, ⟨lit "/a/b", lit "/u", false⟩]
      (prefixTable [⟨lit "/a", lit "/t", false⟩, ⟨lit "/a/b", lit "/u", false⟩]) := by
  intro h
  exact absurd ((h.mem_iff (lit "/a/b")).2 (by decide)) (by decide)

end Azugate
