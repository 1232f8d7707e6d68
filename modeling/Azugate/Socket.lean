import Azugate.HttpMessage
import Mathlib.Data.List.Forall2

/-!
# Writing to a socket

A socket answers each call of `write_some` with an error or with the number of bytes it accepts,
which may be fewer than it is offered. The parameter `Accepts` is how it answers.

`boost::asio::write` calls `write_some` until everything is accepted, and has sent everything when
it succeeds (`sent_of_write`). Code that calls `write_some` once for each of its buffers
(`writeEach`) has sent everything when it succeeds exactly if every buffer was accepted whole
(`writeEach_sends_iff`). `SendHttpHeader` is such code.
-/

namespace Azugate

/-- The bytes a socket has accepted, and the number of write calls. -/
structure Socket where
  sent : Str
  calls : ℕ
  deriving DecidableEq, Repr

/-- How a socket answers its writes : to the `i`-th call, with `n` bytes, an error or the
number of bytes it accepts. -/
abbrev Accepts := ℕ → ℕ → Option ℕ

/-- Every write completes in full. -/
def Accepts.all : Accepts :=
  fun _ n => some n

/-- A write accepts no more bytes than it is offered. -/
def Accepts.Bounded (A : Accepts) : Prop :=
  ∀ i n k, A i n = some k → k ≤ n

/-- A write accepts all its bytes, or it fails. -/
def Accepts.AllOrNone (A : Accepts) : Prop :=
  ∀ i n k, A i n = some k → k = n

namespace Socket

/-- `write_some`, and whether it has succeeded. -/
def writeSome (A : Accepts) (s : Socket) (data : Str) : Socket × Bool :=
  match A s.calls data.length with
  | none => (⟨s.sent, s.calls + 1⟩, false)
  | some n => (⟨s.sent ++ data.take n, s.calls + 1⟩, true)

@[simp] theorem writeSome_all (s : Socket) (data : Str) :
    s.writeSome Accepts.all data = (⟨s.sent ++ data, s.calls + 1⟩, true) := by
  simp [writeSome, Accepts.all]

theorem calls_writeSome (A : Accepts) (s : Socket) (data : Str) :
    (s.writeSome A data).1.calls = s.calls + 1 := by
  unfold writeSome
  split <;> rfl

/-! ## Until everything is accepted -/

/-- `boost::asio::write` : `write_some` until everything is accepted. -/
def write (A : Accepts) : ℕ → Socket → Str → Socket × Bool
  | _, s, [] => (s, true)
  | 0, s, _ => (s, false)
  | calls + 1, s, c :: data =>
    match A s.calls (data.length + 1) with
    | none => (⟨s.sent, s.calls + 1⟩, false)
    | some n =>
      write A calls ⟨s.sent ++ (c :: data).take n, s.calls + 1⟩ ((c :: data).drop n)

/-- A write of something completes in one call. -/
theorem write_all (s : Socket) {data : Str} (hdata : data ≠ []) :
    s.write .all data.length data = (⟨s.sent ++ data, s.calls + 1⟩, true) := by
  cases data with
  | nil => exact absurd rfl hdata
  | cons c data =>
    simp only [write, List.length_cons, Accepts.all]
    rw [List.take_of_length_le (by simp), List.drop_of_length_le (by simp)]
    cases data <;> rfl

/-- When it succeeds, everything was sent. -/
theorem sent_of_write {A : Accepts} :
    ∀ {calls : ℕ} {s : Socket} {data : Str}, (s.write A calls data).2 = true →
      (s.write A calls data).1.sent = s.sent ++ data
  | calls, s, [], _ => by simp [write]
  | 0, s, c :: data, hok => by simp [write] at hok
  | calls + 1, s, c :: data, hok => by
    rw [write] at hok ⊢
    cases hA : A s.calls (data.length + 1) with
    | none => simp [hA] at hok
    | some n =>
      simp only [hA] at hok
      simp only [sent_of_write hok]
      rw [List.append_assoc, List.take_append_drop]

/-- A write of something sends everything or fails, and it fails on no socket that completes every
write in full. -/
theorem write_cases (A : Accepts) (s : Socket) {data : Str} (hdata : data ≠ []) :
    ∃ s', (s.write A data.length data = (s', true) ∧ s'.sent = s.sent ++ data) ∨
      (s.write A data.length data = (s', false) ∧ A ≠ .all) := by
  rcases hwrite : s.write A data.length data with ⟨s', _ | _⟩
  · refine ⟨s', Or.inr ⟨rfl, ?_⟩⟩
    rintro rfl
    rw [write_all s hdata] at hwrite
    exact absurd (congrArg Prod.snd hwrite) (by simp)
  · have hsent := sent_of_write (congrArg Prod.snd hwrite)
    rw [hwrite] at hsent
    exact ⟨s', Or.inl ⟨rfl, hsent⟩⟩

/-! ## One call for each buffer -/

/-- `write_some` for each buffer, until one fails. -/
def writeEach (A : Accepts) : Socket → List Str → Socket × Bool
  | s, [] => (s, true)
  | s, data :: rest =>
    match s.writeSome A data with
    | (s, false) => (s, false)
    | (s, true) => writeEach A s rest

/-- What is accepted of each buffer, from the `i`-th call on. -/
def accepted (A : Accepts) (i : ℕ) (buffers : List Str) : List Str :=
  (buffers.zipIdx i).map fun p => p.1.take ((A p.2 p.1.length).getD 0)

variable {A : Accepts}

theorem writeEach_cons_none {s : Socket} {data : Str} (hA : A s.calls data.length = none)
    (rest : List Str) : s.writeEach A (data :: rest) = (⟨s.sent, s.calls + 1⟩, false) := by
  simp [writeEach, writeSome, hA]

theorem writeEach_cons_some {s : Socket} {data : Str} {n : ℕ}
    (hA : A s.calls data.length = some n) (rest : List Str) :
    s.writeEach A (data :: rest) =
      writeEach A ⟨s.sent ++ data.take n, s.calls + 1⟩ rest := by
  simp [writeEach, writeSome, hA]

/-- It succeeds when every call does. -/
theorem writeEach_eq_true_iff (s : Socket) (buffers : List Str) :
    (s.writeEach A buffers).2 = true ↔
      ∀ p ∈ (buffers.map List.length).zipIdx s.calls, A p.2 p.1 ≠ none := by
  induction buffers generalizing s with
  | nil => simp [writeEach]
  | cons data rest ih =>
    rw [List.map_cons, List.zipIdx_cons, List.forall_mem_cons]
    cases hA : A s.calls data.length with
    | none => simp [writeEach_cons_none hA]
    | some n =>
      rw [writeEach_cons_some hA, ih]
      simp

theorem sent_writeEach {s : Socket} {buffers : List Str}
    (hok : (s.writeEach A buffers).2 = true) :
    (s.writeEach A buffers).1.sent = s.sent ++ (accepted A s.calls buffers).flatten := by
  induction buffers generalizing s with
  | nil => simp [writeEach, accepted]
  | cons data rest ih =>
    cases hA : A s.calls data.length with
    | none => simp [writeEach_cons_none hA] at hok
    | some n =>
      rw [writeEach_cons_some hA] at hok ⊢
      rw [ih hok]
      simp [accepted, hA]

theorem accepted_length_le {buffers meant : List Str}
    (hlen : List.Forall₂ (fun buffer data => buffer.length = data.length) buffers meant) (i : ℕ) :
    List.Forall₂ (fun x y => x.length ≤ y.length) (accepted A i buffers) meant := by
  induction hlen generalizing i with
  | nil => exact .nil
  | @cons buffer data buffers meant hlen _ ih =>
    refine .cons ?_ (ih (i + 1))
    rw [List.length_take, ← hlen]
    exact Nat.min_le_right _ _

/-- Pieces that are no longer than the ones they stand for have the same bytes only if they are
the same. -/
theorem eq_of_flatten_eq {xs ys : List Str}
    (hle : List.Forall₂ (fun x y => x.length ≤ y.length) xs ys)
    (heq : xs.flatten = ys.flatten) : xs = ys := by
  have hlen : ∀ {xs ys : List Str}, List.Forall₂ (fun x y => x.length ≤ y.length) xs ys →
      xs.flatten.length ≤ ys.flatten.length := by
    intro xs ys h
    induction h with
    | nil => simp
    | cons hxy _ ih =>
      simp only [List.flatten_cons, List.length_append]
      omega
  induction hle with
  | nil => rfl
  | @cons x y xs ys hxy hrest ih =>
    rw [List.flatten_cons, List.flatten_cons] at heq
    have hrest' := hlen hrest
    have hall := congrArg List.length heq
    simp only [List.length_append] at hall
    obtain ⟨rfl, htail⟩ := List.append_inj heq (by omega)
    rw [ih htail]

/-- The buffers hold what is meant, and every call accepts its whole buffer. -/
theorem accepted_eq_iff (hA : A.Bounded) {buffers meant : List Str}
    (hlen : List.Forall₂ (fun buffer data => buffer.length = data.length) buffers meant) (i : ℕ)
    (hok : ∀ p ∈ (buffers.map List.length).zipIdx i, A p.2 p.1 ≠ none) :
    accepted A i buffers = meant ↔
      buffers = meant ∧ ∀ p ∈ (buffers.map List.length).zipIdx i, A p.2 p.1 = some p.1 := by
  induction hlen generalizing i with
  | nil => simp [accepted]
  | @cons buffer data buffers meant hlen _ ih =>
    rw [List.map_cons, List.zipIdx_cons, List.forall_mem_cons] at hok ⊢
    obtain ⟨n, hn⟩ := Option.ne_none_iff_exists'.1 hok.1
    have hle : n ≤ buffer.length := hA _ _ _ hn
    have hcons : accepted A i (buffer :: buffers) =
        buffer.take n :: accepted A (i + 1) buffers := by
      simp [accepted, hn]
    rw [hcons, List.cons_eq_cons, ih (i + 1) hok.2, List.cons_eq_cons]
    have hhead : buffer.take n = data ↔ buffer = data ∧ n = buffer.length := by
      constructor
      · intro htake
        have hcut := congrArg List.length htake
        rw [List.length_take] at hcut
        have hfull : n = buffer.length := by omega
        exact ⟨by rw [← htake, hfull, List.take_length], hfull⟩
      · rintro ⟨rfl, rfl⟩
        exact List.take_length
    rw [hhead, hn, Option.some.injEq]
    exact and_and_and_comm

/-- When it succeeds everything was sent exactly if a call fails, or every call accepts its whole
buffer and the buffers hold what is meant. -/
theorem writeEach_sends_iff (hA : A.Bounded) (s : Socket) {buffers meant : List Str}
    (hlen : List.Forall₂ (fun buffer data => buffer.length = data.length) buffers meant) :
    ((s.writeEach A buffers).2 = true →
        (s.writeEach A buffers).1.sent = s.sent ++ meant.flatten) ↔
      (∃ p ∈ (meant.map List.length).zipIdx s.calls, A p.2 p.1 = none) ∨
        (buffers = meant ∧ ∀ p ∈ (meant.map List.length).zipIdx s.calls, A p.2 p.1 = some p.1) := by
  have hlens : buffers.map List.length = meant.map List.length := by
    rw [← List.forall₂_eq_eq_eq, List.forall₂_map_left_iff, List.forall₂_map_right_iff]
    exact hlen
  rw [← hlens]
  by_cases hfail : ∃ p ∈ (buffers.map List.length).zipIdx s.calls, A p.2 p.1 = none
  · refine iff_of_true (fun hok => ?_) (Or.inl hfail)
    obtain ⟨p, hp, hnone⟩ := hfail
    exact absurd hnone ((writeEach_eq_true_iff s buffers).1 hok p hp)
  · have hall : ∀ p ∈ (buffers.map List.length).zipIdx s.calls, A p.2 p.1 ≠ none :=
      fun p hp hnone => hfail ⟨p, hp, hnone⟩
    have hok := (writeEach_eq_true_iff s buffers).2 hall
    rw [or_iff_right hfail, ← accepted_eq_iff hA hlen s.calls hall, sent_writeEach hok,
      List.append_cancel_left_eq]
    exact ⟨fun h => eq_of_flatten_eq (accepted_length_le hlen s.calls) (h hok),
      fun h _ => by rw [h]⟩

theorem writeEach_append (s : Socket) (buffers buffers' : List Str) :
    s.writeEach A (buffers ++ buffers') =
      if (s.writeEach A buffers).2 then (s.writeEach A buffers).1.writeEach A buffers'
      else ((s.writeEach A buffers).1, false) := by
  induction buffers generalizing s with
  | nil => rfl
  | cons data rest ih =>
    rw [List.cons_append]
    cases hans : A s.calls data.length with
    | none => simp [writeEach_cons_none hans]
    | some n => rw [writeEach_cons_some hans, writeEach_cons_some hans, ih]

theorem writeEach_singleton (s : Socket) (data : Str) :
    s.writeEach A [data] = s.writeSome A data := by
  rw [writeEach]
  rcases s.writeSome A data with ⟨s', _ | _⟩ <;> rfl

theorem writeEach_all (s : Socket) (buffers : List Str) :
    s.writeEach .all buffers = (⟨s.sent ++ buffers.flatten, s.calls + buffers.length⟩, true) := by
  induction buffers generalizing s with
  | nil => simp [writeEach]
  | cons data rest ih =>
    rw [writeEach, writeSome_all]
    simp [ih, Nat.add_assoc, Nat.add_comm 1]

/-- When no call accepts a part of its buffer, the buffers before the first failure are sent. -/
theorem writeEach_of_allOrNone (hA : A.AllOrNone) (s : Socket) (buffers : List Str) :
    ∃ k, (s.writeEach A buffers).1.sent = s.sent ++ (buffers.take k).flatten ∧
      ((s.writeEach A buffers).2 = true ↔ buffers.length ≤ k) := by
  induction buffers generalizing s with
  | nil => exact ⟨0, by simp [writeEach]⟩
  | cons data rest ih =>
    cases hans : A s.calls data.length with
    | none => exact ⟨0, by simp [writeEach_cons_none hans]⟩
    | some n =>
      obtain rfl := hA _ _ _ hans
      rw [writeEach_cons_some hans]
      obtain ⟨k, hsent, hok⟩ := ih ⟨s.sent ++ data.take data.length, s.calls + 1⟩
      refine ⟨k + 1, ?_, ?_⟩
      · rw [hsent]
        simp
      · rw [hok]
        simp

end Socket

/-! ## The header block -/

/-- `HttpClient::SendHttpHeader`. -/
def sendHttpHeader (A : Accepts) (s : Socket) (msg : HttpMessage) : Socket × Bool :=
  match s.writeSome A msg.stringifyFirstLine with
  | (s, false) => (s, false)
  | (s, true) => s.writeSome A (stringifyHeaders msg.headers)

theorem sendHttpHeader_eq (A : Accepts) (s : Socket) (msg : HttpMessage) :
    sendHttpHeader A s msg =
      s.writeEach A [msg.stringifyFirstLine, stringifyHeaders msg.headers] := by
  rw [sendHttpHeader, Socket.writeEach]
  rcases s.writeSome A msg.stringifyFirstLine with ⟨s', _ | _⟩
  · rfl
  · exact (s'.writeEach_singleton _).symm

/-- What `SendHttpHeader` has sent when it returns true is the whole header block exactly if one of
its two writes fails or both are accepted whole. -/
theorem sendHttpHeader_sends_iff {A : Accepts} (hA : A.Bounded) (s : Socket) (msg : HttpMessage) :
    ((sendHttpHeader A s msg).2 = true →
        (sendHttpHeader A s msg).1.sent = s.sent ++ msg.stringify) ↔
      A s.calls msg.stringifyFirstLine.length = none ∨
        A (s.calls + 1) (stringifyHeaders msg.headers).length = none ∨
        (A s.calls msg.stringifyFirstLine.length = some msg.stringifyFirstLine.length ∧
          A (s.calls + 1) (stringifyHeaders msg.headers).length =
            some (stringifyHeaders msg.headers).length) := by
  have hsends := Socket.writeEach_sends_iff hA s
    (List.forall₂_same.2 fun (data : Str) (_ : data ∈
      [msg.stringifyFirstLine, stringifyHeaders msg.headers]) => rfl)
  rw [sendHttpHeader_eq]
  simpa [HttpMessage.stringify, or_assoc] using hsends

end Azugate
