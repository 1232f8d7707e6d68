import Mathlib.Data.List.Infix

/-!
# Incremental parsers

A parser is run on the input received so far. It is done with a value and the input left
over, it needs more input, or it fails. It is `Stable` if it never takes an answer back :
once it is done or has failed, further input changes nothing but the rest, and what it
leaves over is the end of what it was given.

The combinators are those of a parser with one token of lookahead. Each keeps stability, so
a parser written with them is stable by construction.
-/

namespace Incremental

variable {τ α β : Type}

/-- The answer of a parser on the input so far. -/
inductive Outcome (τ α : Type) where
  | done (a : α) (rest : List τ)
  | more
  | fail
  deriving DecidableEq, Repr

/-- A parser of tokens `τ`. -/
def Parser (τ α : Type) :=
  List τ → Outcome τ α

namespace Parser

/-- Done, with nothing read. -/
def pure (a : α) : Parser τ α :=
  fun xs => .done a xs

/-- Failure. -/
def fail : Parser τ α :=
  fun _ => .fail

/-- One parser after another. -/
def bind (p : Parser τ α) (f : α → Parser τ β) : Parser τ β := fun xs =>
  match p xs with
  | .done a rest => f a rest
  | .more => .more
  | .fail => .fail

instance : Monad (Parser τ) where
  pure := pure
  bind := bind

/-- The next token. -/
def item : Parser τ τ
  | [] => .more
  | x :: xs => .done x xs

/-- The next token, not read. -/
def peek : Parser τ τ
  | [] => .more
  | x :: xs => .done x (x :: xs)

/-- Wait until `n` tokens are there. -/
def atLeast (n : ℕ) : Parser τ Unit := fun xs =>
  if xs.length < n then .more else .done () xs

/-- The tokens up to the first that satisfies `stop`, which stays. A token that satisfies
`bad` before it is a failure. -/
def takeUntil (stop bad : τ → Bool) : Parser τ (List τ)
  | [] => .more
  | x :: xs =>
    if stop x then .done [] (x :: xs)
    else if bad x then .fail
    else
      match takeUntil stop bad xs with
      | .done ys rest => .done (x :: ys) rest
      | .more => .more
      | .fail => .fail

/-- The next token, which has to satisfy `p`. -/
def satisfy (p : τ → Bool) : Parser τ τ := do
  let x ← item
  if p x then Parser.pure x else fail

/-- The given tokens, one after the other. -/
def tokens [DecidableEq τ] : List τ → Parser τ Unit
  | [] => Parser.pure ()
  | x :: xs => do
    let _ ← satisfy (· = x)
    tokens xs

/-! ## Stability -/

/-- Further input changes neither a value nor a failure. -/
structure Stable (p : Parser τ α) : Prop where
  done : ∀ {xs a rest}, p xs = .done a rest → ∀ ys, p (xs ++ ys) = .done a (rest ++ ys)
  fail : ∀ {xs}, p xs = .fail → ∀ ys, p (xs ++ ys) = .fail
  suffix : ∀ {xs a rest}, p xs = .done a rest → rest <:+ xs

theorem stable_pure (a : α) : Stable (Parser.pure a : Parser τ α) where
  done h ys := by
    obtain ⟨rfl, rfl⟩ := Outcome.done.inj h
    rfl
  fail h := by simp [Parser.pure] at h
  suffix h := by
    obtain ⟨rfl, rfl⟩ := Outcome.done.inj h
    exact List.suffix_refl _

theorem stable_fail : Stable (fail : Parser τ α) where
  done h := by simp [fail] at h
  fail _ _ := rfl
  suffix h := by simp [fail] at h

/-- What a sequence that is done did on the way. -/
theorem bind_eq_done {p : Parser τ α} {f : α → Parser τ β} {xs rest : List τ} {b : β}
    (h : (p >>= f) xs = .done b rest) : ∃ a mid, p xs = .done a mid ∧ f a mid = .done b rest := by
  replace h : Parser.bind p f xs = .done b rest := h
  unfold Parser.bind at h
  cases hp : p xs with
  | done a mid =>
    rw [hp] at h
    exact ⟨a, mid, rfl, h⟩
  | more => simp [hp] at h
  | fail => simp [hp] at h

theorem bind_of_done {p : Parser τ α} {f : α → Parser τ β} {xs mid : List τ} {a : α}
    (h : p xs = .done a mid) : (p >>= f) xs = f a mid := by
  show Parser.bind p f xs = _
  simp only [Parser.bind, h]

theorem bind_of_fail {p : Parser τ α} {f : α → Parser τ β} {xs : List τ} (h : p xs = .fail) :
    (p >>= f) xs = .fail := by
  show Parser.bind p f xs = _
  simp only [Parser.bind, h]

theorem bind_eq_fail {p : Parser τ α} {f : α → Parser τ β} {xs : List τ}
    (h : (p >>= f) xs = .fail) :
    p xs = .fail ∨ ∃ a mid, p xs = .done a mid ∧ f a mid = .fail := by
  replace h : Parser.bind p f xs = .fail := h
  unfold Parser.bind at h
  cases hp : p xs with
  | done a mid =>
    rw [hp] at h
    exact Or.inr ⟨a, mid, rfl, h⟩
  | more => simp [hp] at h
  | fail => exact Or.inl rfl

theorem Stable.bind {p : Parser τ α} {f : α → Parser τ β} (hp : Stable p)
    (hf : ∀ a, Stable (f a)) : Stable (p >>= f) where
  done h ys := by
    obtain ⟨a, mid, hpa, hfa⟩ := bind_eq_done h
    rw [bind_of_done (hp.done hpa ys), (hf a).done hfa ys]
  fail h ys := by
    rcases bind_eq_fail h with h | ⟨a, mid, hpa, hfa⟩
    · exact bind_of_fail (hp.fail h ys)
    · rw [bind_of_done (hp.done hpa ys), (hf a).fail hfa ys]
  suffix h := by
    obtain ⟨a, mid, hpa, hfa⟩ := bind_eq_done h
    exact ((hf a).suffix hfa).trans (hp.suffix hpa)

theorem Stable.ite {p q : Parser τ α} (c : Prop) [Decidable c] (hp : Stable p) (hq : Stable q) :
    Stable (if c then p else q) := by
  split_ifs
  · exact hp
  · exact hq

theorem stable_item : Stable (item : Parser τ τ) where
  done {xs a rest} h ys := by
    cases xs with
    | nil => simp [item] at h
    | cons x xs =>
      obtain ⟨rfl, rfl⟩ := Outcome.done.inj h
      rfl
  fail {xs} h := by cases xs <;> simp [item] at h
  suffix {xs a rest} h := by
    cases xs with
    | nil => simp [item] at h
    | cons x xs =>
      obtain ⟨rfl, rfl⟩ := Outcome.done.inj h
      exact List.suffix_cons x xs

theorem stable_peek : Stable (peek : Parser τ τ) where
  done {xs a rest} h ys := by
    cases xs with
    | nil => simp [peek] at h
    | cons x xs =>
      obtain ⟨rfl, rfl⟩ := Outcome.done.inj h
      rfl
  fail {xs} h := by cases xs <;> simp [peek] at h
  suffix {xs a rest} h := by
    cases xs with
    | nil => simp [peek] at h
    | cons x xs =>
      obtain ⟨rfl, rfl⟩ := Outcome.done.inj h
      exact List.suffix_refl _

theorem stable_atLeast (n : ℕ) : Stable (atLeast n : Parser τ Unit) where
  done {xs a rest} h ys := by
    unfold atLeast at h ⊢
    split_ifs at h with hn
    obtain ⟨-, rfl⟩ := Outcome.done.inj h
    rw [if_neg (by rw [List.length_append]; omega)]
  fail {xs} h := by
    unfold atLeast at h
    split_ifs at h
  suffix {xs a rest} h := by
    unfold atLeast at h
    split_ifs at h
    obtain ⟨-, rfl⟩ := Outcome.done.inj h
    exact List.suffix_refl _

theorem stable_takeUntil (stop bad : τ → Bool) : Stable (takeUntil stop bad) where
  done {xs a rest} h ys := by
    induction xs generalizing a with
    | nil => simp [takeUntil] at h
    | cons x xs ih =>
      rw [takeUntil] at h
      rw [List.cons_append, takeUntil]
      split_ifs at h ⊢
      · obtain ⟨rfl, rfl⟩ := Outcome.done.inj h
        rfl
      · cases ht : takeUntil stop bad xs with
        | done zs mid =>
          rw [ht] at h
          obtain ⟨rfl, rfl⟩ := Outcome.done.inj h
          rw [ih ht]
        | more => simp [ht] at h
        | fail => simp [ht] at h
  fail {xs} h ys := by
    induction xs with
    | nil => simp [takeUntil] at h
    | cons x xs ih =>
      rw [takeUntil] at h
      rw [List.cons_append, takeUntil]
      split_ifs at h ⊢
      · rfl
      · cases ht : takeUntil stop bad xs with
        | done zs mid => simp [ht] at h
        | more => simp [ht] at h
        | fail => rw [ih ht]
  suffix {xs a rest} h := by
    induction xs generalizing a with
    | nil => simp [takeUntil] at h
    | cons x xs ih =>
      rw [takeUntil] at h
      split_ifs at h
      · obtain ⟨rfl, rfl⟩ := Outcome.done.inj h
        exact List.suffix_refl _
      · cases ht : takeUntil stop bad xs with
        | done zs mid =>
          rw [ht] at h
          obtain ⟨rfl, rfl⟩ := Outcome.done.inj h
          exact (ih ht).trans (List.suffix_cons x xs)
        | more => simp [ht] at h
        | fail => simp [ht] at h

theorem stable_satisfy (p : τ → Bool) : Stable (satisfy p) :=
  stable_item.bind fun x => Stable.ite _ (stable_pure x) stable_fail

theorem stable_tokens [DecidableEq τ] : ∀ xs : List τ, Stable (tokens xs)
  | [] => stable_pure ()
  | _ :: xs => (stable_satisfy _).bind fun _ => stable_tokens xs

/-! ## What a parser that is done has read -/

theorem pure_eq_done_iff {a b : α} {xs rest : List τ} :
    Parser.pure b xs = .done a rest ↔ b = a ∧ xs = rest := by
  simp [Parser.pure]

theorem fail_ne_done {a : α} {xs rest : List τ} :
    (fail : Parser τ α) xs ≠ .done a rest := by
  simp [fail]

theorem bind_eq_done_iff {p : Parser τ α} {f : α → Parser τ β} {xs rest : List τ} {b : β} :
    (p >>= f) xs = .done b rest ↔ ∃ a mid, p xs = .done a mid ∧ f a mid = .done b rest := by
  constructor
  · exact bind_eq_done
  · rintro ⟨a, mid, hp, hf⟩
    rw [bind_of_done hp, hf]

theorem item_eq_done_iff {x : τ} {xs rest : List τ} :
    item xs = .done x rest ↔ xs = x :: rest := by
  cases xs <;> simp [item]

theorem peek_eq_done_iff {x : τ} {xs rest : List τ} :
    peek xs = .done x rest ↔ rest = xs ∧ xs.head? = some x := by
  cases xs with
  | nil => simp [peek]
  | cons y ys => simp [peek, eq_comm, and_comm]

theorem atLeast_eq_done_iff {n : ℕ} {xs rest : List τ} :
    atLeast n xs = .done () rest ↔ n ≤ xs.length ∧ xs = rest := by
  unfold atLeast
  split_ifs with h
  · simp [Nat.not_le.2 h]
  · simp [Nat.not_lt.1 h]

/-- The tokens read have none that stops or fails, and one that stops comes next. -/
theorem takeUntil_eq_done_iff {stop bad : τ → Bool} {ys xs rest : List τ} :
    takeUntil stop bad xs = .done ys rest ↔
      xs = ys ++ rest ∧ (∀ y ∈ ys, stop y = false ∧ bad y = false) ∧
        ∃ x, rest.head? = some x ∧ stop x = true := by
  induction xs generalizing ys with
  | nil =>
    simp only [takeUntil, reduceCtorEq, false_iff]
    rintro ⟨hnil, -, x, hx, -⟩
    rw [eq_comm, List.append_eq_nil_iff] at hnil
    simp [hnil.2] at hx
  | cons x xs ih =>
    rw [takeUntil]
    by_cases hstop : stop x = true
    · rw [if_pos hstop]
      constructor
      · intro h
        obtain ⟨rfl, rfl⟩ := Outcome.done.inj h
        exact ⟨rfl, by simp, x, rfl, hstop⟩
      · rintro ⟨hxs, hys, -⟩
        cases ys with
        | nil => rw [hxs, List.nil_append]
        | cons y ys =>
          obtain ⟨rfl, -⟩ := List.cons.inj hxs
          exact absurd hstop (by simp [(hys x (by simp)).1])
    · rw [if_neg hstop]
      by_cases hbad : bad x = true
      · rw [if_pos hbad]
        simp only [reduceCtorEq, false_iff]
        rintro ⟨hxs, hys, y, hy, hyes⟩
        cases ys with
        | nil =>
          rw [← show x :: xs = rest from hxs] at hy
          exact hstop (by simpa using (Option.some.inj hy).symm ▸ hyes)
        | cons z ys =>
          obtain ⟨rfl, -⟩ := List.cons.inj hxs
          exact absurd hbad (by simp [(hys x (by simp)).2])
      · rw [if_neg hbad]
        constructor
        · intro h
          cases ht : takeUntil stop bad xs with
          | done zs mid =>
            rw [ht] at h
            obtain ⟨rfl, rfl⟩ := Outcome.done.inj h
            obtain ⟨rfl, hzs, hnext⟩ := ih.1 ht
            refine ⟨rfl, ?_, hnext⟩
            simpa [Bool.eq_false_iff.2 hstop, Bool.eq_false_iff.2 hbad] using hzs
          | more => simp [ht] at h
          | fail => simp [ht] at h
        · rintro ⟨hxs, hys, y, hy, hyes⟩
          cases ys with
          | nil =>
            rw [← show x :: xs = rest from hxs] at hy
            exact absurd (Option.some.inj hy ▸ hyes) hstop
          | cons z ys =>
            obtain ⟨rfl, rfl⟩ := List.cons.inj hxs
            rw [ih.2 ⟨rfl, fun y hy => hys y (by simp [hy]), y, hy, hyes⟩]

theorem satisfy_eq_done_iff {p : τ → Bool} {x : τ} {xs rest : List τ} :
    satisfy p xs = .done x rest ↔ xs = x :: rest ∧ p x = true := by
  rw [satisfy, bind_eq_done_iff]
  simp only [item_eq_done_iff]
  constructor
  · rintro ⟨y, mid, rfl, h⟩
    split_ifs at h with hp
    · obtain ⟨rfl, rfl⟩ := pure_eq_done_iff.1 h
      exact ⟨rfl, hp⟩
    · exact absurd h fail_ne_done
  · rintro ⟨rfl, hp⟩
    exact ⟨x, rest, rfl, by rw [if_pos hp]; rfl⟩

theorem tokens_eq_done_iff [DecidableEq τ] {ts xs rest : List τ} :
    tokens ts xs = .done () rest ↔ xs = ts ++ rest := by
  induction ts generalizing xs with
  | nil => simp [tokens, pure_eq_done_iff]
  | cons t ts ih =>
    rw [tokens, bind_eq_done_iff]
    simp only [satisfy_eq_done_iff, ih, decide_eq_true_eq]
    constructor
    · rintro ⟨x, mid, ⟨rfl, rfl⟩, rfl⟩
      rfl
    · rintro rfl
      exact ⟨t, _, ⟨rfl, rfl⟩, rfl⟩

end Parser

end Incremental
