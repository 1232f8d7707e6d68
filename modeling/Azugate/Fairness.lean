import Azugate.RoundRobin

/-!
# Round robin while targets are added

`RouteAction::AddTarget` appends to the targets that `GetNextTarget` hands out in turn, and leaves
the index where it is. So the number of targets can grow in the middle of a round. `answersTo` is
what the lookups of one URL get in a run of router calls, with registrations and the lookups of
other URLs between them.

`answers_balanced` says that no target is left out and none is preferred : of `m` answers a target
that was registered before them gets at least `m / n` for `n` the number of targets at their end,
and at most `m / n`, rounded up, for `n` the number at their start.

The argument counts turns. `turnsTo n p s` is the number of turns from `s` to `p` on a wheel of `n`
places. A turn on a wheel of at most `n` places takes one off, and from `p` itself it leads to
`n - 1` at most (`turnsTo_next_le`). On a wheel of at least `n` places it is the other way round
(`le_turnsTo_next`).
-/

namespace Azugate

/-! ## Turns -/

/-- The number of turns from `s` to `p` on a wheel of `n` places. -/
def turnsTo (n p s : ℕ) : ℕ :=
  if s ≤ p then p - s else n - s + p

theorem turnsTo_lt {n p : ℕ} (hp : p < n) (s : ℕ) : turnsTo n p s < n := by
  unfold turnsTo
  split_ifs <;> omega

theorem next_eq {l s : ℕ} (hs : s < l) : (s + 1) % l = if s + 1 = l then 0 else s + 1 := by
  split_ifs with h
  · rw [h, Nat.mod_self]
  · exact Nat.mod_eq_of_lt (by omega)

/-- A turn on a wheel of at most `n` places. -/
theorem turnsTo_next_le {n l p s : ℕ} (hl : l ≤ n) (hs : s < l) (hp : p < l) :
    turnsTo n p ((s + 1) % l) + 1 ≤ turnsTo n p s + if s = p then n else 0 := by
  rw [next_eq hs]
  unfold turnsTo
  split_ifs <;> omega

/-- A turn on a wheel of at least `n` places. -/
theorem le_turnsTo_next {n l p s : ℕ} (hl : n ≤ l) (hs : s < l) (hp : p < n) :
    turnsTo n p s + (if s = p then n else 0) ≤ turnsTo n p ((s + 1) % l) + 1 := by
  rw [next_eq hs]
  unfold turnsTo
  split_ifs <;> omega

/-! ## Answers -/

namespace Routes

/-- The answer of a call, if it looks `url` up. -/
def answerTo (url : Str) (r : Routes) : RouterCall → Option (Option ConnectionInfo)
  | .getRouteTarget sourceUrl past =>
    if sourceUrl = url then some (r.answer past sourceUrl) else none
  | _ => none

/-- The answers to the lookups of `url` among calls. -/
def answersTo (url : Str) (r : Routes) (calls : List RouterCall) : List (Option ConnectionInfo) :=
  Machine.trace Routes.call (answerTo url) r calls

end Routes

/-- How many of the answers are the target with the key `k`. -/
def timesAnswered (k : Str × Bool) (answers : List (Option ConnectionInfo)) : ℕ :=
  answers.countP fun answer => answer.any (·.key = k)

theorem timesAnswered_snoc (k : Str × Bool) (answers : List (Option ConnectionInfo))
    (answer : Option ConnectionInfo) :
    timesAnswered k (answers ++ [answer]) =
      timesAnswered k answers + if answer.any (·.key = k) then 1 else 0 := by
  rw [timesAnswered, List.countP_append, List.countP_singleton]
  rfl

theorem answersTo_snoc (url : Str) (calls window : List RouterCall) (call : RouterCall) :
    (router.exec calls).answersTo url (window ++ [call]) =
      (router.exec calls).answersTo url window ++
        ((router.exec (calls ++ window)).answerTo url call).toList := by
  rw [Routes.answersTo, Machine.trace_snoc, Machine.exec_append]
  rfl

/-- A registration appends to the targets of a URL, other calls leave them. -/
theorem pathTargets_isPrefix_append (url : Str) (calls more : List RouterCall) :
    List.IsPrefix (pathTargets url calls) (pathTargets url (calls ++ more)) := by
  induction more using List.reverseRecOn with
  | nil => simp
  | append_singleton more call ih =>
    refine ih.trans ?_
    rw [← List.append_assoc]
    cases hcall : call.pathTarget url with
    | none => rw [pathTargets_snoc_of_none hcall]
    | some k =>
      rw [pathTargets_snoc_of_some hcall]
      split_ifs
      · exact List.prefix_refl _
      · exact List.prefix_append _ _

/-! ## Fairness -/

/-- A call that does not look `url` up leaves the index of its entry. -/
theorem nextIndex_call_of_not_looksUp {r : Routes} {url : Str} {e : RouteAction}
    (he : r.exactRoutes url = some e) {call : RouterCall} (hcall : call.looksUp url = false) :
    ∃ e', (r.call call).exactRoutes url = some e' ∧ e'.nextIndex = e.nextIndex := by
  cases call with
  | addPathMatchRoute sourceUrl targetUrl isLocal leftover =>
    by_cases hu : url = sourceUrl
    · subst hu
      refine ⟨_, Routes.exactRoutes_addPathMatchRoute_self r url targetUrl isLocal leftover, ?_⟩
      rw [RouteAction.nextIndex_addTarget, he]
      rfl
    · exact ⟨e, (Routes.exactRoutes_addPathMatchRoute_of_ne hu).trans he, rfl⟩
  | addPrefixMatchRoute sourceUrl targetUrl isLocal => exact ⟨e, he, rfl⟩
  | getRouteTarget sourceUrl past =>
    have hu : url ≠ sourceUrl := by
      rintro rfl
      simp [RouterCall.looksUp] at hcall
    exact ⟨e, (exactRoutes_afterLookup_of_ne r past hu).trans he, rfl⟩

/-- A lookup is answered with the target at the index, and turns it on. -/
theorem lookup_of_exact {r : Routes} {url : Str} {e : RouteAction}
    (he : r.exactRoutes url = some e) (hlt : e.nextIndex < e.targets.length) (past : ℕ → UInt8) :
    r.answer past url = some e.targets[e.nextIndex] ∧
      (r.afterLookup past url).exactRoutes url =
        some { e with nextIndex := (e.nextIndex + 1) % e.targets.length } := by
  constructor
  · rw [Routes.answer, Routes.getRouteTarget_of_exact he hlt]
    rfl
  · rw [Routes.afterLookup_of_exact he, Function.update_self, RouteAction.afterCall_eq hlt]

/-- In a covered run the entry a lookup finds has its index in range. -/
theorem nextIndex_lt_of_covered {calls post : List RouterCall} {url : Str} {past : ℕ → UInt8}
    (hcov : FreshIndexCovered (calls ++ .getRouteTarget url past :: post)) {e : RouteAction}
    (he : (router.exec calls).exactRoutes url = some e) : e.nextIndex < e.targets.length :=
  (reachedIndexInRange_exec calls hcov.of_append).of_covered (recorded_exec calls)
    (freshIndexKept_exec calls) (hcov calls url past post rfl) he

/-- The turns of the entry of `url` since `calls`, when `s` was its index : how many led to the
position `p` is known up to the turns that are left, on a wheel as large as the entry gets and on
one as small as it was. -/
def TurnsCounted (url : Str) (k : Str × Bool) (p s small large : ℕ)
    (calls window : List RouterCall) : Prop :=
  ∃ e, (router.exec (calls ++ window)).exactRoutes url = some e ∧
    let answers := (router.exec calls).answersTo url window
    answers.length + turnsTo large p e.nextIndex ≤
        timesAnswered k answers * large + turnsTo large p s ∧
      timesAnswered k answers * small + turnsTo small p s ≤
        answers.length + turnsTo small p e.nextIndex

/-- A lookup is a turn, and any other call is none. -/
theorem TurnsCounted.snoc {url : Str} {k : Str × Bool} {p s small large : ℕ}
    {calls window : List RouterCall} {call : RouterCall}
    (hcov : FreshIndexCovered (calls ++ window ++ [call]))
    (hk : (pathTargets url (calls ++ window))[p]? = some k) (hp : p < small)
    (hsmall : small ≤ (pathTargets url (calls ++ window)).length)
    (hlarge : (pathTargets url (calls ++ window)).length ≤ large)
    (h : TurnsCounted url k p s small large calls window) :
    TurnsCounted url k p s small large calls (window ++ [call]) := by
  obtain ⟨e, he, hle, hge⟩ := h
  have hrec := recorded_exec (calls ++ window)
  have hlen : (pathTargets url (calls ++ window)).length = e.targets.length := by
    rw [← hrec.keys_eq he, e.length_keys]
  by_cases hcall : call.looksUp url
  · cases call with
    | addPathMatchRoute => simp [RouterCall.looksUp] at hcall
    | addPrefixMatchRoute => simp [RouterCall.looksUp] at hcall
    | getRouteTarget sourceUrl past =>
      obtain rfl : sourceUrl = url := by simpa [RouterCall.looksUp] using hcall
      have hlt := nextIndex_lt_of_covered hcov he
      obtain ⟨hanswer, hafter⟩ := lookup_of_exact he hlt past
      -- the keys are distinct, so only the position `p` answers with `k`
      have hkey : e.targets[e.nextIndex].key = k ↔ e.nextIndex = p := by
        have hnodup : e.keys.Nodup := by
          rw [hrec.keys_eq he]
          exact nodup_eraseDups _
        rw [← List.getElem?_inj (by rwa [e.length_keys]) hnodup, hrec.keys_eq he, hk,
          ← hrec.keys_eq he]
        simp [RouteAction.keys, hlt]
      have hanswers : (router.exec calls).answersTo sourceUrl
          (window ++ [.getRouteTarget sourceUrl past]) =
            (router.exec calls).answersTo sourceUrl window ++ [some e.targets[e.nextIndex]] := by
        rw [answersTo_snoc]
        simp [Routes.answerTo, hanswer]
      refine ⟨_, by rw [← List.append_assoc, Machine.exec_snoc]; exact hafter, ?_⟩
      dsimp only
      have hturn := turnsTo_next_le (hlen ▸ hlarge) hlt (hlen ▸ hp.trans_le hsmall)
      have hturn' := le_turnsTo_next (hlen ▸ hsmall) hlt hp
      rw [hanswers, timesAnswered_snoc, List.length_append, List.length_singleton]
      simp only [Option.any_some, decide_eq_true_eq, hkey]
      by_cases hpos : e.nextIndex = p
      · rw [if_pos hpos] at hturn hturn' ⊢
        rw [Nat.add_mul, Nat.add_mul]
        omega
      · rw [if_neg hpos] at hturn hturn' ⊢
        simp only [Nat.add_zero] at hturn hturn' ⊢
        omega
  · obtain ⟨e', he', hindex⟩ := nextIndex_call_of_not_looksUp he (Bool.eq_false_iff.2 hcall)
    have hanswers : (router.exec calls).answersTo url (window ++ [call]) =
        (router.exec calls).answersTo url window := by
      rw [answersTo_snoc]
      cases call with
      | addPathMatchRoute => simp [Routes.answerTo]
      | addPrefixMatchRoute => simp [Routes.answerTo]
      | getRouteTarget sourceUrl past =>
        have hu : sourceUrl ≠ url := by simpa [RouterCall.looksUp] using hcall
        simp [Routes.answerTo, hu]
    refine ⟨e', by rw [← List.append_assoc, Machine.exec_snoc]; exact he', ?_⟩
    rw [hanswers, hindex]
    exact ⟨hle, hge⟩

/-- Of the answers to the lookups of a URL every target registered before them gets its share, while
targets are added : at least the whole rounds over the targets there are in the end, and at most the
rounds begun over those there were at the start. -/
theorem answers_balanced (calls window : List RouterCall)
    (hcov : FreshIndexCovered (calls ++ window)) (url : Str) (k : Str × Bool)
    (hk : k ∈ pathTargets url calls) :
    let answers := (router.exec calls).answersTo url window
    answers.length / (pathTargets url (calls ++ window)).length ≤ timesAnswered k answers ∧
      timesAnswered k answers ≤ answers.length ⌈/⌉ (pathTargets url calls).length := by
  dsimp only
  have hrec := recorded_exec calls
  obtain ⟨p, hp, hkp⟩ := List.getElem_of_mem hk
  obtain ⟨e, he⟩ := Option.isSome_iff_exists.1
    ((hrec.isSome_iff url).2 (List.ne_nil_of_mem hk))
  have hcount : ∀ part rest, window = part ++ rest → TurnsCounted url k p e.nextIndex
      (pathTargets url calls).length (pathTargets url (calls ++ window)).length calls part := by
    intro part
    induction part using List.reverseRecOn with
    | nil =>
      intro rest _
      refine ⟨e, by rwa [List.append_nil], ?_⟩
      simp [Routes.answersTo, Machine.trace, timesAnswered]
    | append_singleton part call ih =>
      intro rest hrest
      have hsplit : calls ++ window = calls ++ part ++ [call] ++ rest := by simp [hrest]
      have hstart := pathTargets_isPrefix_append url calls part
      have hend := pathTargets_isPrefix_append url (calls ++ part) (call :: rest)
      rw [show calls ++ part ++ call :: rest = calls ++ window by simp [hrest]] at hend
      rw [hsplit] at hcov
      refine (ih (call :: rest) (by simp [hrest])).snoc hcov.of_append ?_ hp hstart.length_le
        hend.length_le
      obtain ⟨new, hnew⟩ := hstart
      rw [← hnew, List.getElem?_append_left hp, List.getElem?_eq_getElem hp, hkp]
  obtain ⟨e', -, hle, hge⟩ := hcount window [] (by simp)
  have hlarge : p < (pathTargets url (calls ++ window)).length :=
    hp.trans_le (pathTargets_isPrefix_append url calls window).length_le
  have hstart := turnsTo_lt hlarge e.nextIndex
  have hend := turnsTo_lt hp e'.nextIndex
  constructor
  · rw [← Nat.lt_succ_iff, Nat.div_lt_iff_lt_mul (by omega), Nat.succ_mul]
    omega
  · rw [Nat.ceilDiv_eq_add_pred_div, Nat.le_div_iff_mul_le (by omega)]
    omega

/-- Where new entries find zeros in memory, every run is covered. -/
theorem freshIndexCovered_of_zero {calls : List RouterCall}
    (h : ∀ url targetUrl isLocal leftover,
      RouterCall.addPathMatchRoute url targetUrl isLocal leftover ∈ calls → leftover = 0) :
    FreshIndexCovered calls := by
  intro pre url past post heq n hn
  have hpos := List.length_pos_of_ne_nil
    (pathTargets_ne_nil_iff.2 (pathRegistered_of_freshIndex hn))
  have hzero : n = 0 := by
    unfold freshIndex at hn
    split at hn
    next sourceUrl targetUrl isLocal leftover rest hdrop =>
      split_ifs at hn
      obtain rfl := Option.some.inj hn
      have hmem : RouterCall.addPathMatchRoute sourceUrl targetUrl isLocal leftover ∈ pre :=
        (List.dropWhile_sublist _).subset (hdrop ▸ List.mem_cons_self)
      exact h sourceUrl targetUrl isLocal leftover (by rw [heq]; simp [hmem])
    next => cases hn
  omega

/-- Two targets, and a third one that is added after the first of five lookups. -/
theorem answers_balanced_third_target :
    let calls : List RouterCall := [.addPathMatchRoute (lit "/a") (lit "/x") false 0,
      .addPathMatchRoute (lit "/a") (lit "/y") false 0]
    let window : List RouterCall := [.getRouteTarget (lit "/a") fun _ => 0,
      .addPathMatchRoute (lit "/a") (lit "/z") false 0, .getRouteTarget (lit "/a") fun _ => 0,
      .getRouteTarget (lit "/b") fun _ => 0, .getRouteTarget (lit "/a") fun _ => 0,
      .getRouteTarget (lit "/a") fun _ => 0, .getRouteTarget (lit "/a") fun _ => 0]
    let answers := (router.exec calls).answersTo (lit "/a") window
    answers.length = 5 ∧ (pathTargets (lit "/a") (calls ++ window)).length = 3 ∧
      5 / 3 ≤ timesAnswered (lit "/y", true) answers ∧
      timesAnswered (lit "/y", true) answers ≤ 5 ⌈/⌉ 2 := by
  intro calls window answers
  have hcov : FreshIndexCovered (calls ++ window) := freshIndexCovered_of_zero (by
    intro url targetUrl isLocal leftover hmem
    simp only [calls, window, List.cons_append, List.nil_append, List.mem_cons, reduceCtorEq,
      RouterCall.addPathMatchRoute.injEq, List.not_mem_nil, or_false, false_or] at hmem
    omega)
  have hbalanced : answers.length / _ ≤ _ ∧ _ ≤ answers.length ⌈/⌉ _ :=
    answers_balanced calls window hcov (lit "/a") (lit "/y", true) (by decide +kernel)
  have hlen : answers.length = 5 := by decide +kernel
  have htargets : (pathTargets (lit "/a") (calls ++ window)).length = 3 := by decide +kernel
  have hbefore : (pathTargets (lit "/a") calls).length = 2 := by decide +kernel
  rw [hlen, htargets, hbefore] at hbalanced
  exact ⟨hlen, htargets, hbalanced⟩

end Azugate
