import Azugate.RateLimiter

/-!
# Calls of the token bucket, one at a time

Here no two calls overlap, and the configuration changes between them. `GetToken` and
`performTask` then are the atomic steps of `Bucket` with nothing in between
(`nToken_getToken_eq_steps`, `nToken_performTask_eq_steps`).

`tokenBucket_contract` is the contract of the limiter over runs of any length : a call is
granted exactly when there is a token, which it takes, the count stays within the capacity
of the latest tick (`capInForce`), and the grants stay within the first capacity plus every
refill (`refilled`). A decrement below zero is undone by the same call, and a refill that
wraps only adds less. `performTask_fills_iff` says when a tick does not wrap.
-/

namespace Azugate

/-- `TokenBucketRateLimiter`, with the configuration it reads. -/
structure TokenBucketRateLimiter where
  cfg : RateLimitorConfig
  nToken : ℕ

/-- A call that changes the limiter or its configuration. -/
inductive LimiterCall where
  | configRateLimitor (numTokenMax numTokenPerSec : UInt64)
  | performTask
  | getToken
  deriving DecidableEq, Repr

namespace TokenBucketRateLimiter

/-- The constructor. -/
def construct (cfg : RateLimitorConfig) : TokenBucketRateLimiter :=
  ⟨cfg, cfg.numTokenMax⟩

/-- `GetToken`. -/
def getToken (l : TokenBucketRateLimiter) : Bool × TokenBucketRateLimiter :=
  let currentTokens := l.nToken
  let l := { l with nToken := (currentTokens + sizeMod - 1) % sizeMod }
  if 0 < currentTokens then (true, l)
  else (false, { l with nToken := (l.nToken + 1) % sizeMod })

/-- `performTask`. -/
def performTask (l : TokenBucketRateLimiter) : TokenBucketRateLimiter :=
  { l with nToken := l.cfg.refill l.nToken }

/-- `ConfigRateLimitor`. -/
def configRateLimitor (l : TokenBucketRateLimiter) (numTokenMax numTokenPerSec : UInt64) :
    TokenBucketRateLimiter :=
  { l with cfg := l.cfg.config numTokenMax numTokenPerSec }

/-- The limiter after a call. -/
def call (l : TokenBucketRateLimiter) : LimiterCall → TokenBucketRateLimiter
  | .configRateLimitor numTokenMax numTokenPerSec =>
    l.configRateLimitor numTokenMax numTokenPerSec
  | .performTask => l.performTask
  | .getToken => l.getToken.2

/-- The calls of `GetToken` that return `true`. -/
def grants (l : TokenBucketRateLimiter) : List LimiterCall → ℕ
  | [] => 0
  | .getToken :: calls => (if l.getToken.1 then 1 else 0) + l.getToken.2.grants calls
  | c :: calls => (l.call c).grants calls

end TokenBucketRateLimiter

/-- A limiter constructed under `cfg`, driven by calls. -/
def limiterCalls (cfg : RateLimitorConfig) : Machine TokenBucketRateLimiter LimiterCall where
  init := .construct cfg
  step := TokenBucketRateLimiter.call

/-! ## The history of configurations -/

/-- The capacity in force at the latest tick, `cap` before the first. -/
def capInForce : RateLimitorConfig → ℕ → List LimiterCall → ℕ
  | _, cap, [] => cap
  | cfg, cap, .configRateLimitor numTokenMax numTokenPerSec :: calls =>
    capInForce (cfg.config numTokenMax numTokenPerSec) cap calls
  | cfg, _, .performTask :: calls => capInForce cfg cfg.numTokenMax calls
  | cfg, cap, .getToken :: calls => capInForce cfg cap calls

/-- The sum of the refills in force at the ticks. -/
def refilled : RateLimitorConfig → List LimiterCall → ℕ
  | _, [] => 0
  | cfg, .configRateLimitor numTokenMax numTokenPerSec :: calls =>
    refilled (cfg.config numTokenMax numTokenPerSec) calls
  | cfg, .performTask :: calls => cfg.numTokenPerSec + refilled cfg calls
  | cfg, .getToken :: calls => refilled cfg calls

namespace TokenBucketRateLimiter

/-! ## One call -/

theorem getToken_of_pos {l : TokenBucketRateLimiter} (h : 0 < l.nToken)
    (hlt : l.nToken < sizeMod) : l.getToken = (true, { l with nToken := l.nToken - 1 }) := by
  have hmod : (l.nToken + sizeMod - 1) % sizeMod = l.nToken - 1 := by
    rw [show l.nToken + sizeMod - 1 = l.nToken - 1 + sizeMod by omega, Nat.add_mod_right,
      Nat.mod_eq_of_lt (by omega)]
  simp only [getToken, if_pos h, hmod]

/-- A refused call takes the count below zero and back. -/
theorem getToken_of_zero {l : TokenBucketRateLimiter} (h : l.nToken = 0) :
    l.getToken = (false, l) := by
  have hmod : ((0 + sizeMod - 1) % sizeMod + 1) % sizeMod = 0 := by norm_num [sizeMod]
  simp only [getToken, h, lt_irrefl, if_false, hmod]
  rw [← h]

theorem nToken_performTask_le (l : TokenBucketRateLimiter) :
    l.performTask.nToken ≤ l.cfg.numTokenMax ∧
      l.performTask.nToken ≤ l.nToken + l.cfg.numTokenPerSec :=
  ⟨l.cfg.refill_le_max _, (l.cfg.refill_le _).trans (Nat.mod_le _ _)⟩

/-- A tick that wraps loses tokens, however full the bucket is. -/
theorem nToken_performTask_of_wraps {l : TokenBucketRateLimiter}
    (hle : l.nToken ≤ l.cfg.numTokenMax) (hwraps : sizeMod ≤ l.nToken + l.cfg.numTokenPerSec) :
    l.performTask.nToken < l.nToken := by
  have hmax := l.cfg.max_lt
  have hrate := l.cfg.perSec_lt
  have hmod : (l.nToken + l.cfg.numTokenPerSec) % sizeMod =
      l.nToken + l.cfg.numTokenPerSec - sizeMod := by
    rw [Nat.mod_eq_sub_mod hwraps, Nat.mod_eq_of_lt (by omega)]
  have hrefill := l.cfg.refill_le l.nToken
  rw [hmod] at hrefill
  show l.cfg.refill l.nToken < l.nToken
  omega

/-- A tick that does not wrap adds its tokens up to the capacity. -/
theorem nToken_performTask_of_fits {l : TokenBucketRateLimiter}
    (hfits : l.nToken + l.cfg.numTokenPerSec < sizeMod) :
    l.performTask.nToken = min l.cfg.numTokenMax (l.nToken + l.cfg.numTokenPerSec) := by
  show l.cfg.refill l.nToken = _
  rw [RateLimitorConfig.refill, Nat.mod_eq_of_lt hfits]
  split_ifs with hfull
  · rw [min_eq_left hfull.le]
  · rw [min_eq_right (Nat.le_of_not_lt hfull)]

/-! ## Runs -/

theorem nToken_foldl_le : ∀ (calls : List LimiterCall) (l : TokenBucketRateLimiter) {cap : ℕ},
    l.nToken ≤ cap → cap < sizeMod →
      (calls.foldl call l).nToken ≤ capInForce l.cfg cap calls ∧
        capInForce l.cfg cap calls < sizeMod
  | [], _, _, hle, hlt => ⟨hle, hlt⟩
  | .configRateLimitor numTokenMax numTokenPerSec :: calls, l, _, hle, hlt =>
    nToken_foldl_le calls (l.configRateLimitor numTokenMax numTokenPerSec) hle hlt
  | .performTask :: calls, l, _, _, _ =>
    nToken_foldl_le calls l.performTask l.nToken_performTask_le.1 l.cfg.max_lt
  | .getToken :: calls, l, cap, hle, hlt => by
    show (calls.foldl call l.getToken.2).nToken ≤ _ ∧ _
    rcases Nat.eq_zero_or_pos l.nToken with h | h
    · rw [getToken_of_zero h]
      exact nToken_foldl_le calls l hle hlt
    · rw [getToken_of_pos h (by omega)]
      exact nToken_foldl_le calls { l with nToken := l.nToken - 1 }
        ((Nat.sub_le _ _).trans hle) hlt

/-- Grants and the tokens left are paid for by the tokens at the start and the refills. -/
theorem grants_add_nToken_le : ∀ (calls : List LimiterCall) (l : TokenBucketRateLimiter),
    l.nToken < sizeMod →
      l.grants calls + (calls.foldl call l).nToken ≤ l.nToken + refilled l.cfg calls
  | [], l, _ => by simp [grants, refilled]
  | .configRateLimitor numTokenMax numTokenPerSec :: calls, l, hlt =>
    grants_add_nToken_le calls (l.configRateLimitor numTokenMax numTokenPerSec) hlt
  | .performTask :: calls, l, _ => by
    obtain ⟨hmax, hsum⟩ := l.nToken_performTask_le
    have hlt := l.cfg.max_lt
    have hrest := grants_add_nToken_le calls l.performTask (by omega)
    show l.performTask.grants calls + (calls.foldl call l.performTask).nToken ≤
      l.nToken + (l.cfg.numTokenPerSec + refilled l.cfg calls)
    replace hrest : _ ≤ l.performTask.nToken + refilled l.cfg calls := hrest
    omega
  | .getToken :: calls, l, hlt => by
    show (if l.getToken.1 then 1 else 0) + l.getToken.2.grants calls +
      (calls.foldl call l.getToken.2).nToken ≤ l.nToken + refilled l.cfg calls
    rcases Nat.eq_zero_or_pos l.nToken with h | h
    · rw [getToken_of_zero h]
      have hrest := grants_add_nToken_le calls l hlt
      simpa using hrest
    · rw [getToken_of_pos h hlt]
      have hrest := grants_add_nToken_le calls { l with nToken := l.nToken - 1 }
        (by dsimp only; omega)
      simp only [if_true] at hrest ⊢
      omega

theorem grants_append : ∀ (calls calls' : List LimiterCall) (l : TokenBucketRateLimiter),
    l.grants (calls ++ calls') = l.grants calls + (calls.foldl call l).grants calls'
  | [], calls', l => by simp [grants]
  | .configRateLimitor numTokenMax numTokenPerSec :: calls, calls', l =>
    grants_append calls calls' (l.configRateLimitor numTokenMax numTokenPerSec)
  | .performTask :: calls, calls', l => grants_append calls calls' l.performTask
  | .getToken :: calls, calls', l => by
    have hrest := grants_append calls calls' l.getToken.2
    simp only [List.cons_append, grants, List.foldl_cons, call, hrest, Nat.add_assoc]

end TokenBucketRateLimiter

/-- The contract of the token bucket, after any calls. -/
theorem tokenBucket_contract (cfg : RateLimitorConfig) (calls : List LimiterCall) :
    let l := (limiterCalls cfg).exec calls
    (l.getToken.1 = true ↔ 0 < l.nToken) ∧
      (l.getToken.1 = true → l.getToken.2.nToken + 1 = l.nToken) ∧
      (l.getToken.1 = false → l.getToken.2.nToken = l.nToken) ∧
      l.nToken ≤ capInForce cfg cfg.numTokenMax calls ∧
      (TokenBucketRateLimiter.construct cfg).grants calls ≤
        cfg.numTokenMax + refilled cfg calls := by
  intro l
  obtain ⟨hle, hlt⟩ := TokenBucketRateLimiter.nToken_foldl_le calls (.construct cfg) le_rfl
    cfg.max_lt
  have hgrants := TokenBucketRateLimiter.grants_add_nToken_le calls (.construct cfg) cfg.max_lt
  replace hle : l.nToken ≤ capInForce cfg cfg.numTokenMax calls := hle
  replace hlt : capInForce cfg cfg.numTokenMax calls < sizeMod := hlt
  have hgrants' : (TokenBucketRateLimiter.construct cfg).grants calls ≤
      cfg.numTokenMax + refilled cfg calls := (Nat.le_add_right _ _).trans hgrants
  rcases Nat.eq_zero_or_pos l.nToken with h | h
  · rw [TokenBucketRateLimiter.getToken_of_zero h]
    exact ⟨by simp [h], by simp, fun _ => rfl, hle, hgrants'⟩
  · rw [TokenBucketRateLimiter.getToken_of_pos h (hle.trans_lt hlt)]
    exact ⟨by simp [h], fun _ => by dsimp only; omega, by simp, hle, hgrants'⟩

/-- A tick fills the bucket up to its capacity, and takes no token, exactly when the sum of the
tokens and the refill is a `size_t`. -/
theorem performTask_fills_iff (l : TokenBucketRateLimiter) (hle : l.nToken ≤ l.cfg.numTokenMax) :
    (l.performTask.nToken = min l.cfg.numTokenMax (l.nToken + l.cfg.numTokenPerSec) ∧
        l.nToken ≤ l.performTask.nToken) ↔
      l.nToken + l.cfg.numTokenPerSec < sizeMod := by
  constructor
  · rintro ⟨-, hkept⟩
    by_contra hwraps
    have hlost := TokenBucketRateLimiter.nToken_performTask_of_wraps hle (Nat.le_of_not_lt hwraps)
    exact absurd hkept (Nat.not_le.2 hlost)
  · intro hfits
    have hfull := TokenBucketRateLimiter.nToken_performTask_of_fits hfits
    refine ⟨hfull, ?_⟩
    rw [hfull]
    exact le_min hle (Nat.le_add_right _ _)

/-- A bucket at start-up that has lost 50 tokens. -/
theorem performTask_fills_iff_default :
    let l : TokenBucketRateLimiter := ⟨.default, 950⟩
    l.nToken ≤ l.cfg.numTokenMax ∧ l.performTask.nToken = 1000 := by
  intro l
  have hle : l.nToken ≤ l.cfg.numTokenMax := by decide
  exact ⟨hle, ((performTask_fills_iff l hle).2 (by decide)).1⟩

/-- Five tokens of ten, and the largest rate. -/
theorem not_performTask_fills_largest_rate :
    let l : TokenBucketRateLimiter :=
      ⟨RateLimitorConfig.default.config 10 18446744073709551615, 5⟩
    l.nToken ≤ l.cfg.numTokenMax ∧ l.performTask.nToken = 4 ∧
      min l.cfg.numTokenMax (l.nToken + l.cfg.numTokenPerSec) = 10 := by
  decide +kernel

/-- Three tokens, of which one is taken. The capacity is lowered to one, the next tick brings
the count down to it. -/
example :
    let cfg := RateLimitorConfig.default.config 3 1
    let calls := [.getToken, .configRateLimitor 1 2]
    ((limiterCalls cfg).exec calls).nToken = 2 ∧
      ((limiterCalls cfg).exec (calls ++ [.performTask])).nToken = 1 := by
  decide +kernel

/-! ## The atomic steps -/

theorem nToken_getToken_eq_steps (cfg : RateLimitorConfig) (b : Bucket) (c : ℕ) :
    (TokenBucketRateLimiter.getToken ⟨cfg, b.nToken⟩).2.nToken =
      if 0 < b.nToken then (b.step cfg (.fetchSub c)).nToken
      else ((b.step cfg (.fetchSub c)).step cfg (.fetchAdd c)).nToken := by
  by_cases h : 0 < b.nToken
  · rw [if_pos h, Bucket.step_fetchSub_granted cfg h]
    simp only [TokenBucketRateLimiter.getToken, if_pos h]
  · rw [if_neg h, Bucket.step_fetchSub_refused cfg h]
    simp only [TokenBucketRateLimiter.getToken, if_neg h]
    rfl

theorem nToken_performTask_eq_steps (cfg : RateLimitorConfig) (b : Bucket) :
    (TokenBucketRateLimiter.performTask ⟨cfg, b.nToken⟩).nToken =
      ((b.step cfg .load).step cfg .store).nToken :=
  rfl

end Azugate
