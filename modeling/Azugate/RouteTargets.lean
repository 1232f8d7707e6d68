import Azugate.RouterRuns

/-!
# The targets of a route entry

`AddTarget`, `RemoveTarget`, `Contains` and `GetNextTarget` on one `RouteAction`.
`AddTarget` takes two targets for the same when `http_url` and `is_remote` agree.
`RemoveTarget` and `Contains` compare with `operator==`, which reads the type and then the
address or the URL, and holds of no pair of udp, grpc or untyped targets, not even of a
target and itself.

`oneIdentity_iff` says on which targets the two notions agree. `indexCovered_iff` says in
which runs of the calls `next_index` stays below the number of targets : `RemoveTarget`
leaves the index as it is when it empties the entry, and the next `AddTarget` does not
reset it.
-/

namespace Azugate

/-- `ConnectionInfo::operator==`. -/
def ConnectionInfo.equals (c other : ConnectionInfo) : Bool :=
  if c.type ≠ other.type then false
  else if c.type = .tcp then c.downstreamAddress == other.downstreamAddress
  else (c.type = .http || c.type = .webSocket) && c.httpUrl == other.httpUrl

/-- A target equals itself when its type is one `operator==` compares. -/
theorem ConnectionInfo.equals_self_iff (c : ConnectionInfo) :
    c.equals c = true ↔ c.type = .http ∨ c.type = .tcp ∨ c.type = .webSocket := by
  cases h : c.type <;> simp [equals, h]

namespace RouteAction

/-- `RouteAction::RemoveTarget` : `std::remove` keeps the targets that are not equal to
`conn`, in order, and the index is brought back in range only if targets are left. -/
def removeTarget (e : RouteAction) (conn : ConnectionInfo) : RouteAction :=
  let kept := e.targets.filter fun c => !c.equals conn
  if kept.length = e.targets.length then e
  else if kept.length ≤ e.nextIndex ∧ kept ≠ [] then ⟨e.nextIndex % kept.length, kept⟩
  else { e with targets := kept }

/-- `RouteAction::Contains`. -/
def contains (e : RouteAction) (conn : ConnectionInfo) : Bool :=
  e.targets.any fun c => c.equals conn

theorem targets_removeTarget (e : RouteAction) (conn : ConnectionInfo) :
    (e.removeTarget conn).targets = e.targets.filter fun c => !c.equals conn := by
  simp only [removeTarget]
  split_ifs with hlen hidx
  · exact ((List.filter_sublist).eq_of_length hlen).symm
  · rfl
  · rfl

/-! ## One notion of identity -/

theorem contains_removeTarget (e : RouteAction) (conn : ConnectionInfo) :
    (e.removeTarget conn).contains conn = false := by
  rw [contains, targets_removeTarget, List.any_eq_false]
  intro c hc
  simpa using (List.mem_filter.1 hc).2

theorem sublist_removeTarget (e : RouteAction) (conn : ConnectionInfo) :
    (e.removeTarget conn).targets.Sublist e.targets := by
  rw [targets_removeTarget]
  exact List.filter_sublist

theorem mem_removeTarget_iff {e : RouteAction} {conn d : ConnectionInfo} (hd : d ∈ e.targets) :
    d ∈ (e.removeTarget conn).targets ↔ d.equals conn = false := by
  rw [targets_removeTarget, List.mem_filter]
  simp [hd]

/-- After `AddTarget`, the target is found if an equal one was held, or if it was new to
`AddTarget` and its type is one `operator==` compares. -/
theorem contains_addTarget_iff (e : RouteAction) (conn : ConnectionInfo) :
    (e.addTarget conn).contains conn = true ↔
      (∃ t ∈ e.targets, t.equals conn = true) ∨
        (conn.key ∉ e.keys ∧ (conn.type = .http ∨ conn.type = .tcp ∨ conn.type = .webSocket)) := by
  rw [← ConnectionInfo.equals_self_iff, addTarget_eq]
  split_ifs with hkey
  · simp only [contains, List.any_eq_true, hkey, not_true_eq_false, false_and, or_false]
  · simp [contains, hkey]

/-- The laws of one notion of identity : an added target is found, a removed one is not,
the targets left keep their order, and another target held stays. -/
structure OneIdentity (e : RouteAction) (c d : ConnectionInfo) : Prop where
  contains_added : (e.addTarget c).contains c = true
  not_contains_removed : (e.removeTarget c).contains c = false
  order : (e.removeTarget c).targets.Sublist e.targets
  other_kept : c ≠ d → c ∈ e.targets → d ∈ e.targets → d ∈ (e.removeTarget c).targets

/-- The operations agree on the targets exactly when an equal target was held, or the
added one was new and of a type `operator==` compares, and `c` and `d` are not two held
targets that it takes for one. -/
theorem oneIdentity_iff (e : RouteAction) (c d : ConnectionInfo) :
    e.OneIdentity c d ↔
      ((∃ t ∈ e.targets, t.equals c = true) ∨
        (c.key ∉ e.keys ∧ (c.type = .http ∨ c.type = .tcp ∨ c.type = .webSocket))) ∧
      ¬(c ≠ d ∧ c ∈ e.targets ∧ d ∈ e.targets ∧ d.equals c = true) := by
  rw [← contains_addTarget_iff]
  constructor
  · intro h
    refine ⟨h.contains_added, ?_⟩
    rintro ⟨hne, hc, hd, heq⟩
    have hkept := (mem_removeTarget_iff hd).1 (h.other_kept hne hc hd)
    rw [heq] at hkept
    exact absurd hkept (by decide)
  · rintro ⟨hadd, hsep⟩
    refine ⟨hadd, contains_removeTarget e c, sublist_removeTarget e c, fun hne hc hd => ?_⟩
    rw [mem_removeTarget_iff hd, ← Bool.not_eq_true]
    exact fun heq => hsep ⟨hne, hc, hd, heq⟩

/-- The file `/x` and the endpoint `/x` are two targets of an entry, and `RemoveTarget` of
the one removes the other. -/
theorem not_oneIdentity_file_and_endpoint :
    ¬OneIdentity ⟨0, [routeTarget (lit "/x") false, routeTarget (lit "/x") true]⟩
      (routeTarget (lit "/x") false) (routeTarget (lit "/x") true) := by
  intro h
  have hkept := h.other_kept (by decide) (by simp) (by simp)
  exact absurd hkept (by decide)

end RouteAction

/-! ## The index over runs of the calls -/

/-- A call on one entry. -/
inductive TargetCall where
  | addTarget (conn : ConnectionInfo)
  | removeTarget (conn : ConnectionInfo)
  | getNextTarget
  deriving DecidableEq, Repr

/-- The entry after a call, with `none` after an index past the end of `targets`. -/
def RouteAction.call (e : RouteAction) : TargetCall → Option RouteAction
  | .addTarget conn => some (e.addTarget conn)
  | .removeTarget conn => some (e.removeTarget conn)
  | .getNextTarget => e.getNextTarget.map Prod.snd

/-- The calls on an entry, from a value-initialised one. -/
def targetCalls : Machine (Option RouteAction) TargetCall where
  init := some ⟨0, []⟩
  step s call := s.bind fun e => e.call call

/-- `next_index < targets.size()` whenever `targets` is non-empty. -/
def RouteAction.IndexCovered (e : RouteAction) : Prop :=
  e.targets ≠ [] → e.nextIndex < e.targets.length

/-- The calls so far were defined, and the index of the entry is covered. -/
def Covered : Option RouteAction → Prop
  | none => False
  | some e => e.IndexCovered

/-- The step is not an `AddTarget` on an entry that was emptied with its index not at 0. -/
def RestartsAtZero : Option RouteAction → TargetCall → Prop
  | some e, .addTarget _ => e.targets = [] → e.nextIndex = 0
  | _, _ => True

namespace RouteAction

theorem IndexCovered.addTarget {e : RouteAction} (h : e.IndexCovered)
    (hzero : e.targets = [] → e.nextIndex = 0) (conn : ConnectionInfo) :
    (e.addTarget conn).IndexCovered := by
  rw [addTarget_eq]
  split_ifs with hkey
  · exact h
  · intro _
    rw [List.length_append, List.length_singleton]
    by_cases hnil : e.targets = []
    · rw [hzero hnil]
      exact Nat.succ_pos _
    · exact Nat.lt_succ_of_lt (h hnil)

/-- A removal that leaves targets leaves the index among them. -/
theorem IndexCovered.removeTarget {e : RouteAction} (h : e.IndexCovered)
    (conn : ConnectionInfo) : (e.removeTarget conn).IndexCovered := by
  simp only [RouteAction.removeTarget]
  split_ifs with hlen hidx
  · exact h
  · intro hne
    exact Nat.mod_lt _ (List.length_pos_of_ne_nil hne)
  · intro hne
    exact Nat.lt_of_not_le fun hle => hidx ⟨hle, hne⟩

theorem IndexCovered.getNextTarget {e : RouteAction} (h : e.IndexCovered) :
    ∃ answer e', e.getNextTarget = some (answer, e') ∧ e'.IndexCovered := by
  unfold RouteAction.getNextTarget
  by_cases hnil : e.targets = []
  · exact ⟨none, e, by simp [hnil], h⟩
  · rw [if_neg (by simpa using hnil), List.getElem?_eq_getElem (h hnil), Option.map_some]
    exact ⟨_, _, rfl, fun _ => Nat.mod_lt _ (List.length_pos_of_ne_nil hnil)⟩

/-- One call keeps the index covered, unless it restarts an emptied entry elsewhere
than at 0. -/
theorem IndexCovered.call {e : RouteAction} (h : e.IndexCovered) {call : TargetCall}
    (hzero : RestartsAtZero (some e) call) : Covered (e.call call) := by
  cases call with
  | addTarget conn => exact h.addTarget hzero conn
  | removeTarget conn => exact h.removeTarget conn
  | getNextTarget =>
    obtain ⟨answer, e', hget, he'⟩ := h.getNextTarget
    rw [RouteAction.call, hget]
    exact he'

/-- An emptied entry whose index is not at 0 is uncovered by the next `AddTarget`. -/
theorem not_indexCovered_addTarget {e : RouteAction} (hnil : e.targets = [])
    (hidx : e.nextIndex ≠ 0) (conn : ConnectionInfo) : ¬(e.addTarget conn).IndexCovered := by
  intro h
  have hlt := h (by simp [RouteAction.addTarget, hnil])
  simp only [RouteAction.addTarget, hnil, List.any_nil, Bool.false_eq_true, if_false,
    List.nil_append, List.length_singleton] at hlt
  omega

end RouteAction

/-- The index is covered after every call of a run exactly when no `AddTarget` of the run
finds an entry emptied with its index not at 0. -/
theorem indexCovered_iff (calls : List TargetCall) :
    (∀ pre, pre <+: calls → Covered (targetCalls.exec pre)) ↔
      targetCalls.Along RestartsAtZero calls := by
  constructor
  · rintro h pre call post rfl
    have hstep := h (pre ++ [call]) ⟨post, by simp⟩
    rw [Machine.exec_snoc] at hstep
    cases hs : targetCalls.exec pre with
    | none => trivial
    | some e =>
      rw [hs] at hstep
      cases call with
      | addTarget conn =>
        intro hnil
        by_contra hidx
        exact RouteAction.not_indexCovered_addTarget hnil hidx conn hstep
      | removeTarget conn => trivial
      | getNextTarget => trivial
  · rintro h pre ⟨post, rfl⟩
    refine Machine.Along.invariant (fun _ s => Covered s) ?_ ?_ pre h.of_append
    · exact fun hne => absurd rfl hne
    · intro es call _ hzero hcov
      cases hs : targetCalls.exec es with
      | none =>
        rw [hs] at hcov
        exact hcov.elim
      | some e =>
        rw [hs] at hcov hzero
        exact RouteAction.IndexCovered.call hcov hzero

/-- The file `/x` and the endpoint `/x` are added, one is handed out, both are removed at
once, and the target added next is at index 0 while `next_index` is 1. -/
theorem not_indexCovered_after_emptying :
    ¬Covered (targetCalls.exec [.addTarget (routeTarget (lit "/x") false),
      .addTarget (routeTarget (lit "/x") true), .getNextTarget,
      .removeTarget (routeTarget (lit "/x") false),
      .addTarget (routeTarget (lit "/y") false)]) := by
  have hrun : targetCalls.exec [.addTarget (routeTarget (lit "/x") false),
      .addTarget (routeTarget (lit "/x") true), .getNextTarget,
      .removeTarget (routeTarget (lit "/x") false),
      .addTarget (routeTarget (lit "/y") false)] =
      some ⟨1, [routeTarget (lit "/y") false]⟩ := by decide
  rw [hrun]
  intro h
  exact absurd (h (by simp)) (by simp)

end Azugate
