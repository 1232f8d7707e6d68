import Azugate.RouterRuns
import Mathlib.Algebra.Order.Floor.Div
import Mathlib.Data.Int.CardIntervalMod

/-!
# Round robin

`GetNextTarget` hands out the targets of an entry in turn. `afterCalls` is the entry after so
many calls, and `timesReturned` counts the calls that read a given position. From an index
below the number of targets the `i`-th call reads position `(next_index + i) % n`, and over
any number of calls two positions are read equally often, up to one call.

`GetRouteTarget` on an exact route is a call on the entry of that route. Lookups of other
exact routes move the index of their own entry only, so the calls an entry gets are the
lookups of its URL, wherever these stand among the others (`exactRoutes_afterLookups`).
`roundRobin` is the two statements together.
-/

namespace Azugate

/-- A counter modulo `n` that starts at `s` meets a residue in every `n`-th step. -/
theorem count_add_mod {n p : ℕ} (hp : p < n) (s k : ℕ) :
    Nat.count (fun i => (s + i) % n = p) k = k / n ∨
      Nat.count (fun i => (s + i) % n = p) k = k ⌈/⌉ n := by
  have hn : 0 < n := by omega
  -- the steps that meet `p` are one residue class
  have hclass : ∀ i, (s + i) % n = p ↔ i ≡ p + (n - s % n) [MOD n] := by
    intro i
    have hs := Nat.mod_lt s hn
    have hback : s + (p + (n - s % n)) ≡ p [MOD n] := by
      have hsplit : s + (p + (n - s % n)) = p + n * (s / n + 1) := by
        have := Nat.div_add_mod s n
        rw [Nat.mul_add]
        omega
      rw [hsplit, Nat.ModEq, Nat.add_mul_mod_self_left]
    constructor
    · intro h
      refine Nat.ModEq.add_left_cancel' s ?_
      exact Nat.ModEq.trans (by rw [Nat.ModEq, h, Nat.mod_eq_of_lt hp]) hback.symm
    · intro h
      have hsum : s + i ≡ p [MOD n] := (h.add_left s).trans hback
      rw [hsum, Nat.mod_eq_of_lt hp]
  simp only [hclass]
  rw [Nat.count_modEq_card k hn, Nat.ceilDiv_eq_add_pred_div]
  split_ifs with hlt
  · right
    have hpos : 0 < k % n := by omega
    have hk := Nat.div_add_mod k n
    have hsplit : k + n - 1 = (k % n - 1) + n * (k / n + 1) := by
      rw [Nat.mul_add]
      omega
    have hsmall : (k % n - 1) / n = 0 := Nat.div_eq_of_lt (by have := Nat.mod_lt k hn; omega)
    rw [hsplit, Nat.add_mul_div_left _ _ hn, hsmall, Nat.zero_add]
  · exact Or.inl (Nat.add_zero _)

/-! ## Calls on one entry -/

namespace RouteAction

/-- The entry after a call of `GetNextTarget`. -/
def afterCall (e : RouteAction) : RouteAction :=
  (e.getNextTarget.map Prod.snd).getD e

/-- The entry after `i` calls of `GetNextTarget`. -/
def afterCalls (e : RouteAction) (i : ℕ) : RouteAction :=
  afterCall^[i] e

/-- How many of `k` calls read the target at position `p`. -/
def timesReturned (e : RouteAction) (k p : ℕ) : ℕ :=
  Nat.count (fun i => (e.afterCalls i).nextIndex = p) k

/-- A call on an entry whose index is in range. -/
theorem getNextTarget_eq {e : RouteAction} (h : e.nextIndex < e.targets.length) :
    e.getNextTarget = some (some e.targets[e.nextIndex],
      { e with nextIndex := (e.nextIndex + 1) % e.targets.length }) := by
  have hne : e.targets ≠ [] := List.length_pos_iff.1 (by omega)
  simp [getNextTarget, hne, List.getElem?_eq_getElem h]

theorem afterCall_eq {e : RouteAction} (h : e.nextIndex < e.targets.length) :
    e.afterCall = { e with nextIndex := (e.nextIndex + 1) % e.targets.length } := by
  rw [afterCall, getNextTarget_eq h]
  rfl

/-- The index after `i` calls. -/
theorem afterCalls_eq {e : RouteAction} (h : e.nextIndex < e.targets.length) (i : ℕ) :
    e.afterCalls i = { e with nextIndex := (e.nextIndex + i) % e.targets.length } := by
  induction i with
  | zero => rw [Nat.add_zero, Nat.mod_eq_of_lt h]; rfl
  | succ i ih =>
    have hstep : e.afterCalls (i + 1) = (e.afterCalls i).afterCall :=
      Function.iterate_succ_apply' afterCall i e
    have hlt : (e.nextIndex + i) % e.targets.length < e.targets.length :=
      Nat.mod_lt _ (by omega)
    rw [hstep, ih, afterCall_eq hlt, Nat.mod_add_mod, Nat.add_assoc]

theorem timesReturned_balanced {e : RouteAction} (h : e.nextIndex < e.targets.length) (k : ℕ)
    {p : ℕ} (hp : p < e.targets.length) :
    e.timesReturned k p = k / e.targets.length ∨
      e.timesReturned k p = k ⌈/⌉ e.targets.length := by
  simp only [timesReturned, afterCalls_eq h]
  exact count_add_mod hp e.nextIndex k

/-- The first call, and those after it. -/
theorem timesReturned_succ (e : RouteAction) (k p : ℕ) :
    e.timesReturned (k + 1) p =
      e.afterCall.timesReturned k p + if e.nextIndex = p then 1 else 0 :=
  Nat.count_succ' _ k

end RouteAction

/-! ## Lookups of exact routes -/

/-- A lookup : the URL, and what the memory past its end holds. -/
abbrev Lookup := Str × (ℕ → UInt8)

/-- The number of lookups of `url`. -/
def lookupsOf (url : Str) (qs : List Lookup) : ℕ :=
  qs.countP fun q => q.1 = url

namespace Routes

/-- The tables after lookups, one after the other. -/
def afterLookups (r : Routes) (qs : List Lookup) : Routes :=
  qs.foldl (fun r q => r.afterLookup q.2 q.1) r

/-- How many of the lookups of `url` find the entry of `url` at position `p`. -/
def servedAt (url : Str) (p : ℕ) : Routes → List Lookup → ℕ
  | _, [] => 0
  | r, q :: qs =>
    servedAt url p (r.afterLookup q.2 q.1) qs +
      if q.1 = url ∧ (r.exactRoutes url).any (·.nextIndex = p) then 1 else 0

/-- A lookup of an exact route is a call on its entry. -/
theorem afterLookup_of_exact {r : Routes} {url : Str} {e : RouteAction}
    (he : r.exactRoutes url = some e) (past : ℕ → UInt8) :
    (r.afterLookup past url).exactRoutes =
      Function.update r.exactRoutes url (some e.afterCall) := by
  have hslot : r.selectSlot past url = some (.path url) :=
    selectSlot_of_exact past (by rw [he]; rfl)
  have hentry : r.entry (.path url) = some e := he
  simp only [afterLookup, getRouteTarget, hslot, hentry, RouteAction.afterCall]
  cases e.getNextTarget with
  | none =>
    simp only [Option.map_none, Option.getD_none]
    rw [← he, Function.update_eq_self]
  | some res => rfl

/-- Lookups of exact routes : the entry of `url` gets the calls of its own lookups. -/
theorem exactRoutes_afterLookups (url : Str) :
    ∀ (qs : List Lookup) (r : Routes) (e : RouteAction), r.exactRoutes url = some e →
      (∀ q ∈ qs, (r.exactRoutes q.1).isSome) →
      (r.afterLookups qs).exactRoutes url = some (e.afterCalls (lookupsOf url qs)) ∧
        ∀ p, servedAt url p r qs = e.timesReturned (lookupsOf url qs) p
  | [], r, e, he, _ => ⟨he, fun _ => rfl⟩
  | q :: qs, r, e, he, hqs => by
    obtain ⟨e', he'⟩ := Option.isSome_iff_exists.1 (hqs q (by simp))
    have hnext := afterLookup_of_exact he' q.2
    have hkeys : ∀ q' ∈ qs, ((r.afterLookup q.2 q.1).exactRoutes q'.1).isSome := by
      intro q' hq'
      rw [hnext]
      by_cases hsame : q'.1 = q.1
      · rw [hsame, Function.update_self]
        rfl
      · rw [Function.update_of_ne hsame]
        exact hqs q' (by simp [hq'])
    by_cases hurl : q.1 = url
    · obtain rfl : e' = e := Option.some.inj (he'.symm.trans (hurl ▸ he))
      have hself : (r.afterLookup q.2 q.1).exactRoutes url = some e'.afterCall := by
        rw [hnext, hurl, Function.update_self]
      obtain ⟨hafter, hserved⟩ := exactRoutes_afterLookups url qs _ _ hself hkeys
      have hcount : lookupsOf url (q :: qs) = lookupsOf url qs + 1 := by
        simp [lookupsOf, hurl]
      refine ⟨?_, fun p => ?_⟩
      · rw [hcount]
        exact hafter
      · rw [hcount, RouteAction.timesReturned_succ, servedAt, hserved p]
        simp [hurl, he]
    · have hother : (r.afterLookup q.2 q.1).exactRoutes url = some e := by
        rw [hnext, Function.update_of_ne (Ne.symm hurl), he]
      obtain ⟨hafter, hserved⟩ := exactRoutes_afterLookups url qs _ _ hother hkeys
      have hcount : lookupsOf url (q :: qs) = lookupsOf url qs := by
        simp [lookupsOf, hurl]
      refine ⟨?_, fun p => ?_⟩
      · rw [hcount]
        exact hafter
      · rw [hcount, servedAt, hserved p]
        simp [hurl]

/-- A lookup of an exact route whose index is in range. -/
theorem getRouteTarget_of_exact {r : Routes} {url : Str} {e : RouteAction}
    (he : r.exactRoutes url = some e) (h : e.nextIndex < e.targets.length) (past : ℕ → UInt8) :
    r.getRouteTarget past url =
      some (some e.targets[e.nextIndex], r.afterLookup past url) := by
  have hslot : r.selectSlot past url = some (.path url) :=
    selectSlot_of_exact past (by rw [he]; rfl)
  have hentry : r.entry (.path url) = some e := he
  simp [afterLookup, getRouteTarget, hslot, hentry, RouteAction.getNextTarget_eq h]

end Routes

/-! ## Both -/

/-- An entry with its index in range hands out its targets in turn and equally often, to calls
of `GetNextTarget` and to lookups of its exact route among those of others. -/
theorem roundRobin (e : RouteAction) (h : e.nextIndex < e.targets.length) :
    (∀ i, ∃ target, e.targets[(e.nextIndex + i) % e.targets.length]? = some target ∧
      (e.afterCalls i).getNextTarget = some (some target, e.afterCalls (i + 1))) ∧
    (∀ k p, p < e.targets.length → e.timesReturned k p = k / e.targets.length ∨
      e.timesReturned k p = k ⌈/⌉ e.targets.length) ∧
    ∀ (r : Routes) (url : Str), r.exactRoutes url = some e → ∀ qs : List Lookup,
      (∀ q ∈ qs, (r.exactRoutes q.1).isSome) →
      (∀ pre past post, qs = pre ++ (url, past) :: post →
        ∃ target, e.targets[(e.nextIndex + lookupsOf url pre) % e.targets.length]? = some target ∧
          (r.afterLookups pre).getRouteTarget past url =
            some (some target, r.afterLookups (pre ++ [(url, past)]))) ∧
      ∀ p, p < e.targets.length →
        r.servedAt url p qs = lookupsOf url qs / e.targets.length ∨
          r.servedAt url p qs = lookupsOf url qs ⌈/⌉ e.targets.length := by
  have hlt : ∀ i, (e.nextIndex + i) % e.targets.length < e.targets.length :=
    fun i => Nat.mod_lt _ (by omega)
  refine ⟨fun i => ⟨_, List.getElem?_eq_getElem (hlt i), ?_⟩,
    fun k p hp => RouteAction.timesReturned_balanced h k hp, fun r url he qs hqs => ⟨?_, ?_⟩⟩
  · rw [RouteAction.afterCalls_eq h, RouteAction.afterCalls_eq h,
      RouteAction.getNextTarget_eq (hlt i), Nat.mod_add_mod, Nat.add_assoc]
  · rintro pre past post rfl
    refine ⟨_, List.getElem?_eq_getElem (hlt (lookupsOf url pre)), ?_⟩
    obtain ⟨hafter, -⟩ := Routes.exactRoutes_afterLookups url pre r e he
      fun q hq => hqs q (by simp [hq])
    rw [RouteAction.afterCalls_eq h] at hafter
    rw [Routes.getRouteTarget_of_exact hafter (hlt _)]
    simp [Routes.afterLookups]
  · intro p hp
    rw [(Routes.exactRoutes_afterLookups url qs r e he hqs).2 p]
    exact RouteAction.timesReturned_balanced h _ hp

/-- Two targets, and a lookup of another route between two of this one. -/
theorem roundRobin_two_targets :
    let r := ((Routes.empty.addPathMatchRoute (lit "/a") (lit "/x") false 1).addPathMatchRoute
      (lit "/a") (lit "/y") false 0).addPathMatchRoute (lit "/b") (lit "/z") false 0
    let e : RouteAction := ⟨1, [routeTarget (lit "/x") false, routeTarget (lit "/y") false]⟩
    let qs : List Lookup := [(lit "/a", fun _ => 0), (lit "/b", fun _ => 0),
      (lit "/a", fun _ => 0), (lit "/a", fun _ => 0)]
    r.exactRoutes (lit "/a") = some e ∧ r.servedAt (lit "/a") 0 qs = 1 ∧
      r.servedAt (lit "/a") 1 qs = 2 ∧
      ∃ r', (r.afterLookups (qs.take 2)).getRouteTarget (fun _ => 0) (lit "/a") =
        some (some (routeTarget (lit "/x") false), r') := by
  intro r e qs
  have he : r.exactRoutes (lit "/a") = some e := by decide
  have hqs : ∀ q ∈ qs, (r.exactRoutes q.1).isSome := by
    simp only [qs, List.forall_mem_cons, List.not_mem_nil, false_implies, implies_true]
    decide
  obtain ⟨-, -, hall⟩ := roundRobin e (by decide)
  obtain ⟨hturn, -⟩ := hall r (lit "/a") he qs hqs
  obtain ⟨target, htarget, hlookup⟩ := hturn (qs.take 2) (fun _ => 0) (qs.drop 3) rfl
  obtain rfl : routeTarget (lit "/x") false = target := Option.some.inj (by rw [← htarget]; decide)
  exact ⟨he, by decide, by decide, _, hlookup⟩

end Azugate
