import Azugate.Bytes
import Azugate.Machine
import Mathlib.Data.Finset.Card
import Mathlib.Data.Finset.Insert
import Mathlib.Tactic.NormNum

/-!
# The token bucket

`GetToken` takes a token with `fetch_sub` before it knows that there is one. A call that
finds zero is refused and gives its decrement back with `fetch_add`. The counter is a
`size_t`, so in between it stands at `2^64 - 1`. `performTask` reads the counter and writes
it back, capped, in two steps.

`limiter` interleaves the atomic steps of any number of calls with those of the ticks, one
tick at a time. `granted_card_le` bounds the calls granted by the capacity and the refills,
in every run that keeps two conditions (`Safe`) : no call begins while a refused call has
the counter at `2^64 - 1`, and no tick writes back more than its refill on top of what the
counter holds by then.

The counter is followed by its level, the count plus one : a refused call takes the level
to zero, and no safe step takes it lower.
-/

namespace Azugate

/-- `g_num_token_max` and `g_num_token_per_sec`. Both are positive : `ConfigRateLimitor`
ignores a zero. -/
structure RateLimitorConfig where
  numTokenMax : ℕ
  numTokenPerSec : ℕ
  max_pos : 0 < numTokenMax
  perSec_pos : 0 < numTokenPerSec
  max_lt : numTokenMax < sizeMod
  perSec_lt : numTokenPerSec < sizeMod

namespace RateLimitorConfig

/-- The values at start-up. -/
def default : RateLimitorConfig where
  numTokenMax := 1000
  numTokenPerSec := 100
  max_pos := by norm_num
  perSec_pos := by norm_num
  max_lt := by norm_num [sizeMod]
  perSec_lt := by norm_num [sizeMod]

/-- `ConfigRateLimitor`. -/
def config (cfg : RateLimitorConfig) (numTokenMax numTokenPerSec : UInt64) :
    RateLimitorConfig where
  numTokenMax := if 0 < numTokenMax.toNat then numTokenMax.toNat else cfg.numTokenMax
  numTokenPerSec := if 0 < numTokenPerSec.toNat then numTokenPerSec.toNat else cfg.numTokenPerSec
  max_pos := by
    split_ifs with h
    · exact h
    · exact cfg.max_pos
  perSec_pos := by
    split_ifs with h
    · exact h
    · exact cfg.perSec_pos
  max_lt := by
    split_ifs
    · rw [sizeMod_eq]
      exact numTokenMax.toNat_lt
    · exact cfg.max_lt
  perSec_lt := by
    split_ifs
    · rw [sizeMod_eq]
      exact numTokenPerSec.toNat_lt
    · exact cfg.perSec_lt

/-- What `performTask` stores after it has loaded `loaded`. -/
def refill (cfg : RateLimitorConfig) (loaded : ℕ) : ℕ :=
  let newTokenNum := (loaded + cfg.numTokenPerSec) % sizeMod
  if cfg.numTokenMax < newTokenNum then cfg.numTokenMax else newTokenNum

theorem refill_le_max (cfg : RateLimitorConfig) (loaded : ℕ) :
    cfg.refill loaded ≤ cfg.numTokenMax := by
  unfold refill
  dsimp only
  split_ifs with h
  · exact le_rfl
  · exact Nat.le_of_not_lt h

theorem refill_le (cfg : RateLimitorConfig) (loaded : ℕ) :
    cfg.refill loaded ≤ (loaded + cfg.numTokenPerSec) % sizeMod := by
  unfold refill
  dsimp only
  split_ifs with h
  · exact h.le
  · exact le_rfl

end RateLimitorConfig

/-! ## Interleavings -/

/-- The counter, the calls of `GetToken` by where they are, and the tick. -/
structure Bucket where
  /-- `n_token_`. -/
  nToken : ℕ
  /-- Calls refused by `fetch_sub` that have not run `fetch_add` yet. -/
  pending : Finset ℕ
  /-- Calls that returned `true`. -/
  granted : Finset ℕ
  /-- Calls that returned `false`. -/
  refused : Finset ℕ
  /-- What the running `performTask` has loaded. -/
  loaded : Option ℕ
  /-- Runs of `performTask` started. -/
  ticks : ℕ

/-- One atomic step : of a call of `GetToken`, named by a number, or of `performTask`. -/
inductive LimiterStep where
  | fetchSub (call : ℕ)
  | fetchAdd (call : ℕ)
  | load
  | store
  deriving DecidableEq, Repr

namespace Bucket

/-- The bucket after a step. -/
def step (cfg : RateLimitorConfig) (b : Bucket) : LimiterStep → Bucket
  | .fetchSub call =>
    if 0 < b.nToken then
      { b with
        nToken := (b.nToken + sizeMod - 1) % sizeMod
        granted := insert call b.granted }
    else
      { b with
        nToken := (b.nToken + sizeMod - 1) % sizeMod
        pending := insert call b.pending }
  | .fetchAdd call =>
    { b with
      nToken := (b.nToken + 1) % sizeMod
      pending := b.pending.erase call
      refused := insert call b.refused }
  | .load => { b with loaded := some b.nToken, ticks := b.ticks + 1 }
  | .store =>
    match b.loaded with
    | some loaded => { b with nToken := cfg.refill loaded, loaded := none }
    | none => b

theorem step_fetchSub_granted (cfg : RateLimitorConfig) {b : Bucket} (h : 0 < b.nToken)
    (call : ℕ) :
    b.step cfg (.fetchSub call) =
      { b with
        nToken := (b.nToken + sizeMod - 1) % sizeMod
        granted := insert call b.granted } :=
  if_pos h

theorem step_fetchSub_refused (cfg : RateLimitorConfig) {b : Bucket} (h : ¬0 < b.nToken)
    (call : ℕ) :
    b.step cfg (.fetchSub call) =
      { b with
        nToken := (b.nToken + sizeMod - 1) % sizeMod
        pending := insert call b.pending } :=
  if_neg h

theorem step_store (cfg : RateLimitorConfig) {b : Bucket} {v : ℕ} (h : b.loaded = some v) :
    b.step cfg .store = { b with nToken := cfg.refill v, loaded := none } := by
  simp only [step, h]

/-- The steps a state allows : a call runs `fetch_sub` once and `fetch_add` once after a
refusal, and a tick loads, then stores, before the next. -/
def Enabled (b : Bucket) : LimiterStep → Prop
  | .fetchSub call => call ∉ b.pending ∧ call ∉ b.granted ∧ call ∉ b.refused
  | .fetchAdd call => call ∈ b.pending
  | .load => b.loaded = none
  | .store => b.loaded.isSome

instance (b : Bucket) : ∀ s : LimiterStep, Decidable (b.Enabled s)
  | .fetchSub call =>
    inferInstanceAs (Decidable (call ∉ b.pending ∧ call ∉ b.granted ∧ call ∉ b.refused))
  | .fetchAdd call => inferInstanceAs (Decidable (call ∈ b.pending))
  | .load => inferInstanceAs (Decidable (b.loaded = none))
  | .store => inferInstanceAs (Decidable (b.loaded.isSome = true))

end Bucket

/-- The interleavings from a full bucket. -/
def limiter (cfg : RateLimitorConfig) : Machine Bucket LimiterStep where
  init := ⟨cfg.numTokenMax, ∅, ∅, ∅, none, 0⟩
  step := Bucket.step cfg

/-! ## The bound -/

/-- The count plus one, so that a counter one below zero has level zero. -/
def level (nToken : ℕ) : ℕ :=
  (nToken + 1) % sizeMod

namespace Bucket

/-- The steps the bound allows. A call does not begin while the counter stands at `2^64 - 1`
and a refused call has yet to give its decrement back. A tick stores when the counter is not
below what it loaded, or when the refill would reach the capacity in any case. -/
def Safe (cfg : RateLimitorConfig) (b : Bucket) : LimiterStep → Prop
  | .fetchSub _ => ¬(b.nToken = sizeMod - 1 ∧ b.pending.Nonempty)
  | .store => ∀ loaded ∈ b.loaded, level loaded ≤ level b.nToken ∨
      cfg.numTokenMax + 1 ≤ level b.nToken + cfg.numTokenPerSec
  | _ => True

instance (cfg : RateLimitorConfig) (b : Bucket) : ∀ s : LimiterStep, Decidable (b.Safe cfg s)
  | .fetchSub _ =>
    inferInstanceAs (Decidable ¬(b.nToken = sizeMod - 1 ∧ b.pending.Nonempty))
  | .fetchAdd _ => inferInstanceAs (Decidable True)
  | .load => inferInstanceAs (Decidable True)
  | .store => inferInstanceAs (Decidable (∀ loaded ∈ b.loaded, level loaded ≤ level b.nToken ∨
      cfg.numTokenMax + 1 ≤ level b.nToken + cfg.numTokenPerSec))

/-- The refill a running tick has yet to store. -/
def dueRefill (cfg : RateLimitorConfig) : Option ℕ → ℕ
  | some _ => cfg.numTokenPerSec
  | none => 0

/-- The bucket has level `l` : the counter is one below `l`, level zero has a refused call to
thank for it, and what was granted, what is left and what is to be given back, together
with the refill of a running tick, is within the budget. -/
structure Budget (cfg : RateLimitorConfig) (b : Bucket) (l : ℕ) : Prop where
  nToken : b.nToken = (l + sizeMod - 1) % sizeMod
  pending : l = 0 → b.pending.Nonempty
  loaded : ∀ v ∈ b.loaded, v < sizeMod
  total : b.granted.card + l + b.pending.card + dueRefill cfg b.loaded ≤
    cfg.numTokenMax + 1 + cfg.numTokenPerSec * b.ticks

namespace Budget

variable {cfg : RateLimitorConfig} {b : Bucket} {l : ℕ}

theorem level_le (h : Budget cfg b l) : level b.nToken ≤ l := by
  have hn := h.nToken
  simp only [level, sizeMod] at hn ⊢
  omega

/-- One below, for a level that is not zero. -/
theorem nToken_pred (h : Budget cfg b l) (hl : l ≠ 0) :
    (b.nToken + sizeMod - 1) % sizeMod = (l - 1 + sizeMod - 1) % sizeMod := by
  have hn := h.nToken
  simp only [sizeMod] at hn ⊢
  omega

theorem ne_zero_of_safe (h : Budget cfg b l) {call : ℕ} (hs : b.Safe cfg (.fetchSub call)) :
    l ≠ 0 := by
  rintro rfl
  refine hs ⟨?_, h.pending rfl⟩
  rw [h.nToken]
  norm_num [sizeMod]

theorem fetchSub (h : Budget cfg b l) {call : ℕ} (he : b.Enabled (.fetchSub call))
    (hs : b.Safe cfg (.fetchSub call)) :
    Budget cfg (b.step cfg (.fetchSub call)) (l - 1) := by
  have hl := h.ne_zero_of_safe hs
  have hnToken := h.nToken_pred hl
  have htotal := h.total
  obtain ⟨hpend, hgrant, -⟩ := he
  by_cases hn : 0 < b.nToken
  · rw [step_fetchSub_granted cfg hn]
    refine ⟨hnToken, fun h1 => ?_, h.loaded, ?_⟩
    · -- level one is a counter of zero, which is not granted
      obtain rfl : l = 1 := by omega
      rw [h.nToken] at hn
      norm_num [sizeMod] at hn
    · simp only [Finset.card_insert_of_notMem hgrant]
      omega
  · rw [step_fetchSub_refused cfg hn]
    refine ⟨hnToken, fun _ => ⟨call, Finset.mem_insert_self _ _⟩, h.loaded, ?_⟩
    simp only [Finset.card_insert_of_notMem hpend]
    omega

theorem fetchAdd (h : Budget cfg b l) {call : ℕ} (he : b.Enabled (.fetchAdd call)) :
    Budget cfg (b.step cfg (.fetchAdd call)) (l + 1) := by
  have htotal := h.total
  have hcard := Finset.card_erase_add_one he
  refine ⟨?_, fun h0 => absurd h0 (Nat.succ_ne_zero l), h.loaded, ?_⟩
  · simp only [step, h.nToken, sizeMod]
    omega
  · simp only [step]
    omega

theorem load (h : Budget cfg b l) (he : b.Enabled .load) :
    Budget cfg (b.step cfg .load) l := by
  have htotal := h.total
  have hnone : b.loaded = none := he
  refine ⟨h.nToken, h.pending, ?_, ?_⟩
  · rintro v hv
    obtain rfl : b.nToken = v := by simpa [step] using hv
    rw [h.nToken]
    exact Nat.mod_lt _ (by norm_num [sizeMod])
  · simp only [step, dueRefill, Nat.mul_succ]
    simp only [hnone, dueRefill] at htotal
    omega

/-- What a tick adds to a counter it finds as it loaded it is at most its refill. -/
theorem refill_add_one_le (cfg : RateLimitorConfig) {v : ℕ} (hv : v < sizeMod) :
    cfg.refill v + 1 ≤ level v + cfg.numTokenPerSec := by
  have hle := cfg.refill_le v
  have hpos := cfg.perSec_pos
  have hlt := cfg.perSec_lt
  rcases Nat.lt_or_ge (v + 1) sizeMod with h | h
  · have hmod := Nat.mod_le (v + cfg.numTokenPerSec) sizeMod
    rw [level, Nat.mod_eq_of_lt h]
    omega
  · -- the addition wraps : a refill of `2^64 - 1` makes up the missing token
    have hsum : v + cfg.numTokenPerSec = sizeMod + (cfg.numTokenPerSec - 1) := by omega
    rw [hsum, Nat.add_mod_left, Nat.mod_eq_of_lt (by omega)] at hle
    omega

theorem store (h : Budget cfg b l) (he : b.Enabled .store) (hs : b.Safe cfg .store) :
    ∃ l', Budget cfg (b.step cfg .store) l' := by
  obtain ⟨v, hv⟩ := Option.isSome_iff_exists.1 he
  have htotal := h.total
  have hlevel := h.level_le
  have hmax := cfg.refill_le_max v
  have hlt := cfg.max_lt
  have hadd : cfg.refill v + 1 ≤ l + cfg.numTokenPerSec := by
    rcases hs v hv with hs | hs
    · have := refill_add_one_le cfg (h.loaded v hv)
      omega
    · omega
  simp only [hv, dueRefill] at htotal
  refine ⟨cfg.refill v + 1, ⟨?_, fun h0 => absurd h0 (Nat.succ_ne_zero _), ?_, ?_⟩⟩
  · have hmod : cfg.refill v + 1 + sizeMod - 1 = cfg.refill v + sizeMod := by omega
    rw [step_store cfg hv, hmod, Nat.add_mod_right, Nat.mod_eq_of_lt (by omega)]
  · simp [step_store cfg hv]
  · simp only [step_store cfg hv, dueRefill]
    omega

/-- Within the budget, the grants are within the capacity and the refills. -/
theorem granted_le (h : Budget cfg b l) :
    b.granted.card ≤ cfg.numTokenMax + cfg.numTokenPerSec * b.ticks := by
  have htotal := h.total
  rcases Nat.eq_zero_or_pos l with hl | hl
  · have := Finset.card_pos.2 (h.pending hl)
    omega
  · omega

end Budget

end Bucket

/-- In every interleaving of safe steps the calls granted are at most the capacity plus the
refill of every tick started. -/
theorem granted_card_le (cfg : RateLimitorConfig) (steps : List LimiterStep)
    (h : (limiter cfg).Along (fun b s => b.Enabled s ∧ b.Safe cfg s) steps) :
    ((limiter cfg).exec steps).granted.card ≤
      cfg.numTokenMax + cfg.numTokenPerSec * ((limiter cfg).exec steps).ticks := by
  have hinv := Machine.Along.invariant (fun _ b => ∃ l, Bucket.Budget cfg b l) ?_ ?_ steps h
  · obtain ⟨l, hl⟩ := hinv
    exact hl.granted_le
  · refine ⟨cfg.numTokenMax + 1, ⟨?_, by simp, by simp [limiter],
      by simp [limiter, Bucket.dueRefill]⟩⟩
    have hlt := cfg.max_lt
    have hmod : cfg.numTokenMax + 1 + sizeMod - 1 = cfg.numTokenMax + sizeMod := by omega
    rw [hmod, Nat.add_mod_right, Nat.mod_eq_of_lt hlt]
    rfl
  · rintro steps s - ⟨he, hs⟩ ⟨l, hl⟩
    cases s with
    | fetchSub call => exact ⟨l - 1, hl.fetchSub he hs⟩
    | fetchAdd call => exact ⟨l + 1, hl.fetchAdd he⟩
    | load => exact ⟨l, hl.load he⟩
    | store => exact hl.store he hs

/-- A bucket of one token, refilled by one : a grant, a tick, a grant and a refusal. -/
theorem granted_card_le_one_token :
    let cfg := RateLimitorConfig.default.config 1 1
    let steps := [.fetchSub 0, .load, .store, .fetchSub 1, .fetchSub 2, .fetchAdd 2]
    (limiter cfg).Along (fun b s => b.Enabled s ∧ b.Safe cfg s) steps ∧
      ((limiter cfg).exec steps).granted.card ≤
        cfg.numTokenMax + cfg.numTokenPerSec * ((limiter cfg).exec steps).ticks :=
  ⟨by decide +kernel, granted_card_le _ _ (by decide +kernel)⟩

/-- A bucket of one token and three calls : the second is refused and takes the counter to
`2^64 - 1`, where the third finds a token. -/
theorem not_granted_card_le_wrapped :
    let cfg := RateLimitorConfig.default.config 1 1
    let steps := [.fetchSub 0, .fetchSub 1, .fetchSub 2]
    (limiter cfg).Along Bucket.Enabled steps ∧
      ¬((limiter cfg).exec steps).granted.card ≤
        cfg.numTokenMax + cfg.numTokenPerSec * ((limiter cfg).exec steps).ticks := by
  decide +kernel

/-- A bucket of two tokens : a tick that loaded two stores two after both were taken. -/
example :
    let cfg := RateLimitorConfig.default.config 2 1
    let steps := [.load, .fetchSub 0, .fetchSub 1, .store, .fetchSub 2, .fetchSub 3]
    (limiter cfg).Along Bucket.Enabled steps ∧
      ¬((limiter cfg).exec steps).granted.card ≤
        cfg.numTokenMax + cfg.numTokenPerSec * ((limiter cfg).exec steps).ticks := by
  decide +kernel

end Azugate
