import Azugate.RouterRuns
import Mathlib.Data.List.DropRight

/-!
# The Go binding and the key of a route

The Go layer registers every route under `normalizeURL` of its source, and hands the
string to the C++ core through `C.CString`, which ends at the first NUL. The handler looks
a request up under its path, with `/` alone rewritten to the empty string
(`routeSourceUrl`). `registrationFound_iff` says for which paths the two keys agree, so
that a route registered for a path is found by a request for it.
-/

namespace Azugate

/-- `strings.Trim(url, "/")`. -/
def trimSlashes (url : Str) : Str :=
  (url.dropWhile (· == slash)).rdropWhile (· == slash)

/-- `normalizeURL`. -/
def normalizeURL (url : Str) : Str :=
  let trimmed := trimSlashes url
  if trimmed = [] then [] else slash :: trimmed

/-- `C.CString`, and the `std::string` built from it : the bytes before the first NUL. -/
def cString (s : Str) : Str :=
  s.takeWhile (· != 0)

namespace Routes

/-- `Azugate.AddPathMatchRoute` of the Go binding. -/
def bindPathMatchRoute (r : Routes) (sourceURL targetURL : Str) (isLocal : Bool)
    (leftover : ℕ) : Routes :=
  r.addPathMatchRoute (cString (normalizeURL sourceURL)) (cString (normalizeURL targetURL))
    isLocal leftover

/-- `Azugate.AddPrefixMatchRoute` of the Go binding. -/
def bindPrefixMatchRoute (r : Routes) (sourceURL targetURL : Str) (isLocal : Bool) : Routes :=
  r.addPrefixMatchRoute (cString (normalizeURL sourceURL)) (cString (normalizeURL targetURL))
    isLocal

end Routes

/-- The URL `HttpProxyHandler::route` looks up for a request path. -/
def routeSourceUrl (path : Str) : Str :=
  if path = lit "/" then [] else path

/-- Registration and lookup send `u` to one key, and after any registration of `u` the
exact lookup of a request for `u` reaches an entry with the target registered. -/
def RegistrationFound (u : Str) : Prop :=
  routeSourceUrl u = cString (normalizeURL u) ∧
    ∀ (r : Routes) (targetURL : Str) (isLocal : Bool) (leftover : ℕ) (past : ℕ → UInt8),
      (r.bindPathMatchRoute u targetURL isLocal leftover).selectSlot past (routeSourceUrl u) =
          some (.path (routeSourceUrl u)) ∧
        ∃ e, (r.bindPathMatchRoute u targetURL isLocal leftover).entry
            (.path (routeSourceUrl u)) = some e ∧
          (cString (normalizeURL targetURL), !isLocal) ∈ e.keys

theorem mem_keys_addTarget (e : RouteAction) (c : ConnectionInfo) :
    c.key ∈ (e.addTarget c).keys := by
  rw [RouteAction.keys_addTarget]
  split_ifs with h
  · exact h
  · simp

/-- The lookup finds the route as soon as the keys agree. -/
theorem registrationFound_iff_key (u : Str) :
    RegistrationFound u ↔ routeSourceUrl u = cString (normalizeURL u) := by
  refine ⟨fun h => h.1, fun h => ⟨h, fun r targetURL isLocal leftover past => ?_⟩⟩
  have hentry := r.exactRoutes_addPathMatchRoute_self (cString (normalizeURL u))
    (cString (normalizeURL targetURL)) isLocal leftover
  rw [h]
  refine ⟨Routes.selectSlot_of_exact past ?_, _, hentry, ?_⟩
  · rw [Routes.bindPathMatchRoute, hentry]
    rfl
  · exact mem_keys_addTarget _ (routeTarget (cString (normalizeURL targetURL)) isLocal)

/-! ## When the keys agree -/

theorem trimSlashes_cons_slash (w : Str) : trimSlashes (slash :: w) = trimSlashes w := by
  simp [trimSlashes]

theorem length_trimSlashes_le (w : Str) :
    (trimSlashes w).length ≤ (w.dropWhile (· == slash)).length ∧
      (w.dropWhile (· == slash)).length ≤ w.length :=
  ⟨(List.rdropWhile_prefix _ _).length_le, (List.dropWhile_suffix _).length_le⟩

/-- Trimming keeps a string exactly when it neither starts nor ends with a slash. -/
theorem trimSlashes_eq_self_iff (w : Str) :
    trimSlashes w = w ↔ w.head? ≠ some slash ∧ w.getLast? ≠ some slash := by
  constructor
  · intro h
    obtain ⟨h1, h2⟩ := length_trimSlashes_le w
    rw [h] at h1
    have hdrop : w.dropWhile (· == slash) = w :=
      (List.dropWhile_suffix _).eq_of_length (le_antisymm h2 h1)
    rw [trimSlashes, hdrop, List.rdropWhile_eq_self_iff] at h
    constructor
    · intro hhead
      cases w with
      | nil => simp at hhead
      | cons c w =>
        obtain rfl : c = slash := by simpa using hhead
        have := (List.dropWhile_suffix (· == slash) (l := w)).length_le
        rw [List.dropWhile_cons_of_pos (by simp)] at hdrop
        rw [hdrop, List.length_cons] at this
        omega
    · intro hlast
      obtain ⟨hne, hlast⟩ := List.mem_getLast?_eq_getLast (Option.mem_def.2 hlast)
      exact h hne (by simp [← hlast])
  · rintro ⟨hhead, hlast⟩
    have hdrop : w.dropWhile (· == slash) = w := by
      cases w with
      | nil => rfl
      | cons c w =>
        rw [List.dropWhile_cons_of_neg]
        simpa using hhead
    rw [trimSlashes, hdrop, List.rdropWhile_eq_self_iff]
    intro hne hslash
    exact hlast (by rw [List.getLast?_eq_getLast_of_ne_nil hne, eq_of_beq hslash])

/-- A string cut at its first NUL is at least as long only if it has none. -/
theorem cString_eq_self_iff (s : Str) : cString s = s ↔ 0 ∉ s := by
  rw [cString, List.takeWhile_eq_self_iff]
  constructor
  · intro h hmem
    simpa using h 0 hmem
  · intro h c hc
    have : c ≠ 0 := fun h0 => h (h0 ▸ hc)
    simpa using this

theorem length_cString_le (s : Str) : (cString s).length ≤ s.length :=
  (List.takeWhile_prefix _).length_le

/-- The key of a path `/w` with `w` not empty agrees with `/w` exactly when neither the
trimming nor the C string loses a byte of it. -/
theorem key_cons_slash_iff {w : Str} (hw : w ≠ []) :
    slash :: w = cString (normalizeURL (slash :: w)) ↔ trimSlashes w = w ∧ 0 ∉ w := by
  rw [normalizeURL, trimSlashes_cons_slash]
  constructor
  · intro h
    by_cases htrim : trimSlashes w = []
    · simp [htrim, cString] at h
    · have hkey : w = cString (trimSlashes w) := by
        rw [if_neg htrim, cString, List.takeWhile_cons_of_pos (by decide)] at h
        exact (List.cons.inj h).2
      have hlen := length_cString_le (trimSlashes w)
      rw [← hkey] at hlen
      obtain ⟨h1, h2⟩ := length_trimSlashes_le w
      have hdrop : w.dropWhile (· == slash) = w :=
        (List.dropWhile_suffix _).eq_of_length (by omega)
      have htw : trimSlashes w = w := by
        have hpre : trimSlashes w <+: w.dropWhile (· == slash) := List.rdropWhile_prefix _ _
        exact (hpre.eq_of_length (by omega)).trans hdrop
      rw [htw] at hkey
      exact ⟨htw, (cString_eq_self_iff w).1 hkey.symm⟩
  · rintro ⟨htw, h0⟩
    rw [htw, if_neg hw, cString, List.takeWhile_cons_of_pos (by decide)]
    exact congrArg (slash :: ·) ((cString_eq_self_iff w).2 h0).symm

/-- A route registered for a path is found by a request for it exactly when the path is `/`,
or has no second slash after the first, no slash at the end, and no NUL. -/
theorem registrationFound_iff (u : Str) (hu : u.head? = some slash) :
    RegistrationFound u ↔
      u = lit "/" ∨ (u[1]? ≠ some slash ∧ u.getLast? ≠ some slash ∧ 0 ∉ u) := by
  rw [registrationFound_iff_key]
  cases u with
  | nil => simp at hu
  | cons c w =>
    obtain rfl : c = slash := by simpa using hu
    by_cases hw : w = []
    · subst hw
      simp only [show [slash] = lit "/" from rfl, true_or, iff_true]
      decide
    · have hne : slash :: w ≠ lit "/" := fun h => hw (List.cons.inj h).2
      have hlast : (slash :: w).getLast? = w.getLast? := by
        rw [List.getLast?_cons, List.getLast?_eq_getLast_of_ne_nil hw]
        rfl
      have hzero : (0 : UInt8) ∈ slash :: w ↔ 0 ∈ w := by
        simp [show (0 : UInt8) ≠ slash by decide]
      rw [routeSourceUrl, if_neg hne, key_cons_slash_iff hw, trimSlashes_eq_self_iff, hlast, hzero,
        List.getElem?_cons_succ, ← List.head?_eq_getElem?, and_assoc]
      simp [hne]

/-- The path `/a/b` is found. -/
theorem registrationFound_iff_nested :
    (lit "/a/b").head? = some slash ∧ RegistrationFound (lit "/a/b") :=
  ⟨by decide, (registrationFound_iff (lit "/a/b") (by decide)).2 (by decide)⟩

/-- A trailing slash : the route is stored under `/a`, the request looks up `/a/`. -/
theorem not_registrationFound_trailing_slash : ¬RegistrationFound (lit "/a/") := by
  rw [registrationFound_iff_key]
  decide

end Azugate
