import Azugate.Bytes

/-!
# Gzip over a stream

`GzipStreamCompress` reads a file in blocks of `kDefaultCompressChunkBytes`, hands each to
zlib's `deflate` until it is used up, and gives every piece of output to a handler.

zlib is the parameter `Zlib`, for calls in the order the manual asks for (`Zlib.Reached`). What
the manual says of `deflate` is in `Zlib.Bounded`, with `Zlib.Streaming` for a stream that has
ended and `Zlib.Lawful` for one that can be decompressed.

The loops take fuel, and without enough of it there is no result.
-/

namespace Azugate

/-- `kDefaultCompressChunkBytes`. -/
def kDefaultCompressChunkBytes : ℕ := 100

/-! ## zlib -/

/-- The return values of `deflate`. -/
inductive ZRet where
  | ok
  | streamEnd
  | bufError
  deriving DecidableEq, Repr

/-- What a call of `deflate` leaves. -/
structure DeflateResult (σ : Type) where
  state : σ
  /-- The number of input bytes it used. -/
  used : ℕ
  out : Str
  ret : ZRet

/-- A deflate stream with a gzip wrapper. -/
structure Zlib where
  State : Type
  /-- After `deflateInit2`. -/
  init : State
  /-- `deflate` with the given input, so much room for output, and `Z_FINISH` or
  `Z_NO_FLUSH`. -/
  deflate : State → Str → ℕ → Bool → DeflateResult State

namespace Zlib

variable (Z : Zlib)

/-- After `Z_FINISH`, with input left over, only `Z_FINISH` with that input may follow. -/
def Allows (pending : Option Str) (inp : Str) (finish : Bool) : Prop :=
  ∀ rest ∈ pending, inp = rest ∧ finish = true

/-- The state is reached by calls in order that used `input` and put out `output`. With
`pending` the input the first `Z_FINISH` has left over. -/
inductive Reached : Z.State → Str → Str → Option Str → Prop where
  | init : Reached Z.init [] [] none
  | call {st : Z.State} {input output : Str} {pending : Option Str} {inp : Str} {room : ℕ}
      {finish : Bool} (h : Reached st input output pending) (hallows : Allows pending inp finish)
      (hroom : 0 < room) :
      Reached (Z.deflate st inp room finish).state
        (input ++ inp.take (Z.deflate st inp room finish).used)
        (output ++ (Z.deflate st inp room finish).out)
        (if finish then some (inp.drop (Z.deflate st inp room finish).used) else none)

/-- What the manual says of every call of `deflate`. -/
structure Bounded : Prop where
  /-- A call stays within its two buffers. -/
  within : ∀ {st input output pending inp room finish}, Z.Reached st input output pending →
    Allows pending inp finish → 0 < room →
    (Z.deflate st inp room finish).used ≤ inp.length ∧
      (Z.deflate st inp room finish).out.length ≤ room
  /-- A call stops only with its input used up or its output full. -/
  stops : ∀ {st input output pending inp room finish}, Z.Reached st input output pending →
    Allows pending inp finish → 0 < room →
    (Z.deflate st inp room finish).used = inp.length ∨
      (Z.deflate st inp room finish).out.length = room
  /-- The output is finite in total. -/
  finite : ∃ left : Z.State → Str → Bool → ℕ,
    ∀ {st input output pending inp room finish}, Z.Reached st input output pending →
      Allows pending inp finish → 0 < room →
      left (Z.deflate st inp room finish).state
          (inp.drop (Z.deflate st inp room finish).used) finish +
        (Z.deflate st inp room finish).out.length ≤ left st inp finish

/-- And of a stream that has ended : a further call says so again, and puts out nothing. -/
structure Streaming : Prop extends Z.Bounded where
  ended : ∀ {st input output pending inp room room'}, Z.Reached st input output pending →
    Allows pending inp true → 0 < room → 0 < room' →
    (Z.deflate st inp room true).ret = .streamEnd →
    (Z.deflate (Z.deflate st inp room true).state
        (inp.drop (Z.deflate st inp room true).used) room' true).out = [] ∧
      (Z.deflate (Z.deflate st inp room true).state
        (inp.drop (Z.deflate st inp room true).used) room' true).ret = .streamEnd

/-- What the manual says of `deflate`, for a stream that `gunzip` decompresses. -/
structure Lawful (gunzip : Str → Option Str) : Prop extends Z.Bounded where
  /-- With `Z_FINISH` and enough room the stream ends. -/
  finishes : ∀ {st input output pending inp room}, Z.Reached st input output pending →
    Allows pending inp true → (Z.deflate st inp room true).out.length < room →
    (Z.deflate st inp room true).ret = .streamEnd
  /-- The output of a stream that has ended decompresses to its input. -/
  gunzip_output : ∀ {st input output pending inp room}, Z.Reached st input output pending →
    Allows pending inp true → 0 < room → (Z.deflate st inp room true).ret = .streamEnd →
    (Z.deflate st inp room true).used = inp.length →
    gunzip (output ++ (Z.deflate st inp room true).out) = some (input ++ inp)
  /-- A gzip stream is not empty. -/
  gunzip_nil : gunzip [] = none

variable {Z}

/-- A call that leaves room has used its input. -/
theorem Bounded.used_eq (B : Z.Bounded) {st : Z.State} {input output inp : Str}
    {pending : Option Str} {room : ℕ} {finish : Bool} (hst : Z.Reached st input output pending)
    (hallows : Allows pending inp finish) (hroom : 0 < room)
    (hleft : (Z.deflate st inp room finish).out.length ≠ room) :
    (Z.deflate st inp room finish).used = inp.length :=
  (B.stops hst hallows hroom).resolve_right hleft

theorem allows_none (inp : Str) (finish : Bool) : Allows none inp finish := by
  simp [Allows]

/-- After a call, one more like it may follow with the input that is left. -/
theorem allows_again (inp : Str) (finish : Bool) :
    Allows (if finish then some inp else none) inp finish := by
  cases finish <;> simp [Allows]

end Zlib

/-! ## Reading a file -/

/-- A `std::ifstream` : the bytes it has not read, and after how many of them the device
fails, if it does. -/
structure FileStream where
  rest : Str
  badAfter : Option ℕ
  deriving DecidableEq, Repr

/-- What `read` leaves : `gcount` bytes, and the flags of the stream. -/
structure ReadState where
  bytes : Str
  eof : Bool
  bad : Bool
  deriving DecidableEq, Repr

/-- `fail()`. A read that meets the end of the file sets `failbit` with `eofbit`. -/
def ReadState.fail (r : ReadState) : Bool :=
  r.eof || r.bad

namespace FileStream

/-- `read` of `n` bytes. -/
def read (f : FileStream) (n : ℕ) : ReadState × FileStream :=
  if f.badAfter.any (· < min n f.rest.length) then (⟨[], false, true⟩, f)
  else
    (⟨f.rest.take n, f.rest.length < n, false⟩, ⟨f.rest.drop n, f.badAfter.map (· - n)⟩)

/-- The device does not fail before the end of the file. -/
def readable (f : FileStream) : Bool :=
  f.badAfter.all (f.rest.length ≤ ·)

/-- The three ways a read goes : the device fails, the file ends, or it goes on. -/
theorem read_cases (f : FileStream) (n : ℕ) :
    (f.readable = false ∧ f.read n = (⟨[], false, true⟩, f)) ∨
    (f.readable = true ∧ f.rest.length < n ∧ ∃ f', f.read n = (⟨f.rest, true, false⟩, f')) ∨
    ∃ f', f.read n = (⟨f.rest.take n, false, false⟩, f') ∧ f'.rest = f.rest.drop n ∧
      n ≤ f.rest.length ∧ f'.readable = f.readable := by
  obtain ⟨rest, badAfter⟩ := f
  by_cases hbad : badAfter.any (· < min n rest.length) = true
  · obtain ⟨k, rfl, hk⟩ := (Option.any_eq_true _ _).1 hbad
    refine Or.inl ⟨?_, by simp only [read, hbad, if_true]⟩
    simp only [decide_eq_true_eq] at hk
    simp only [readable, Option.all_some, decide_eq_false_iff_not]
    omega
  · have hread : read ⟨rest, badAfter⟩ n = (⟨rest.take n, rest.length < n, false⟩,
        ⟨rest.drop n, badAfter.map (· - n)⟩) := by
      rw [read, if_neg hbad]
    rw [hread]
    right
    by_cases hend : rest.length < n
    · left
      refine ⟨?_, hend, _, by rw [List.take_of_length_le hend.le, decide_eq_true hend]⟩
      cases badAfter with
      | none => rfl
      | some k =>
        simp only [Option.any_some, decide_eq_true_eq] at hbad
        simp only [readable, Option.all_some, decide_eq_true_eq]
        omega
    · right
      refine ⟨_, by rw [decide_eq_false hend], rfl, not_lt.1 hend, ?_⟩
      cases badAfter with
      | none => rfl
      | some k =>
        simp only [Option.any_some, decide_eq_true_eq] at hbad
        simp only [readable, Option.map_some, Option.all_some, List.length_drop, decide_eq_decide]
        omega

end FileStream

/-! ## The compressor -/

section Compressor

variable (Z : Zlib) {H : Type*} (outputHandler : H → Str → H × Bool)

/-- The inner loop of `GzipStreamCompress` : `deflate` and the handler, until a call leaves
room for output. The handler's state, and unless it has stopped the loop the compressor's
state and the last return value. -/
def drain (finish : Bool) : ℕ → Z.State → Str → H → Option (H × Option (Z.State × ZRet))
  | 0, _, _, _ => none
  | fuel + 1, st, inp, h =>
    let r := Z.deflate st inp kDefaultCompressChunkBytes finish
    let (h, ok) := if 0 < r.out.length then outputHandler h r.out else (h, true)
    if !ok then some (h, none)
    else if r.out.length = kDefaultCompressChunkBytes then
      drain finish fuel r.state (inp.drop r.used) h
    else some (h, some (r.state, r.ret))

/-- `GzipCompressor::GzipStreamCompress`. -/
def gzipStreamCompress : ℕ → FileStream → Z.State → H → Option (H × Bool)
  | 0, _, _, _ => none
  | fuel + 1, source, st, h =>
    let (r, source) := source.read kDefaultCompressChunkBytes
    if r.fail && !r.eof then some (h, false)
    else
      match drain Z outputHandler r.eof fuel st r.bytes h with
      | none => none
      | some (h, none) => some (h, false)
      | some (h, some (st, ret)) =>
        if r.eof then some (h, ret = .streamEnd) else gzipStreamCompress fuel source st h

end Compressor

/-! ## A compressor that keeps its input -/

namespace HeldZlib

/-- The head of a gzip stream as zlib writes it. -/
def head : Str := [31, 139, 8, 0, 0, 0, 0, 0, 0, 3]

/-- What zlib writes after it for the text `a`. -/
def tailOfA : Str := [75, 4, 0, 67, 190, 183, 232, 1, 0, 0, 0]

/-- The stream of the text `a` as zlib writes it, and any other text behind a zero. -/
def gzip (x : Str) : Str :=
  head ++ if x = [97] then tailOfA else 0 :: x

/-- The text of a stream. -/
def gunzip (s : Str) : Option Str :=
  if s.take 10 ≠ head then none
  else if s.drop 10 = tailOfA then some [97]
  else if (s.drop 10).head? = some 0 then some (s.drop 11) else none

theorem gunzip_gzip (x : Str) : gunzip (gzip x) = some x := by
  by_cases hx : x = [97]
  · subst hx
    decide
  · simp [gunzip, gzip, hx, head, tailOfA]

/-- The compressor that writes the whole stream on `Z_FINISH`. Its state is the input so far and
the output it still holds. -/
def zlib : Zlib where
  State := Str × Option Str
  init := ([], none)
  deflate st inp room finish :=
    if !finish then ⟨(st.1 ++ inp, st.2), inp.length, [], .ok⟩
    else
      let out := st.2.getD (gzip (st.1 ++ inp))
      ⟨(st.1 ++ inp, some (out.drop room)), inp.length, out.take room,
        if out.length ≤ room then .streamEnd else .ok⟩

/-- What a state of the compressor holds of the bytes it was given and has put out. -/
def Holds (st : Str × Option Str) (input output : Str) : Option Str → Prop
  | none => st = (input, none) ∧ output = []
  | some rest => rest = [] ∧ st.1 = input ∧ ∃ held, st.2 = some held ∧ output ++ held = gzip input

/-- The output a call with `Z_FINISH` has to put out. -/
theorem holds_output {st : Str × Option Str} {input output inp : Str} {pending : Option Str}
    (h : Holds st input output pending) (hallows : Zlib.Allows pending inp true) :
    st.1 ++ inp = input ++ inp ∧
      output ++ st.2.getD (gzip (st.1 ++ inp)) = gzip (input ++ inp) := by
  cases pending with
  | none =>
    obtain ⟨rfl, rfl⟩ := h
    exact ⟨rfl, rfl⟩
  | some rest =>
    obtain ⟨rfl, hin, held, hheld, hout⟩ := h
    obtain ⟨rfl, -⟩ := hallows [] rfl
    exact ⟨by rw [hin], by rw [hheld, Option.getD_some, hout, List.append_nil]⟩

theorem holds_of_reached {st : zlib.State} {input output : Str} {pending : Option Str}
    (h : zlib.Reached st input output pending) : Holds st input output pending := by
  induction h with
  | init => exact ⟨rfl, rfl⟩
  | @call st input output pending inp room finish _ hallows _ ih =>
    cases finish with
    | false =>
      cases pending with
      | none =>
        obtain ⟨rfl, rfl⟩ := ih
        simp [zlib, Holds]
      | some rest => exact absurd (hallows rest rfl).2 (by decide)
    | true =>
      obtain ⟨hin, hout⟩ := holds_output ih hallows
      simp only [zlib, Bool.not_true, Bool.false_eq_true, if_false, if_true, List.drop_length,
        List.take_length]
      exact ⟨rfl, hin, _, rfl, by rw [List.append_assoc, List.take_append_drop, hout]⟩

theorem lawful : zlib.Lawful gunzip where
  within := by
    intro st input output pending inp room finish _ _ _
    cases finish <;> simp [zlib]
  stops := by
    intro st input output pending inp room finish _ _ _
    cases finish <;> simp [zlib]
  finishes := by
    intro st input output pending inp room _ _ hlt
    simp only [zlib, Bool.not_true, Bool.false_eq_true, if_false, List.length_take] at hlt ⊢
    rw [if_pos (by omega)]
  finite := by
    refine ⟨fun st inp _ => (st.2.getD (gzip (st.1 ++ inp))).length, ?_⟩
    intro st input output pending inp room finish _ _ _
    cases finish with
    | false => simp [zlib]
    | true =>
      simp only [zlib, Bool.not_true, Bool.false_eq_true, if_false, Option.getD_some,
        List.length_drop, List.length_take]
      omega
  gunzip_output := by
    intro st input output pending inp room hst hallows _ hend _
    obtain ⟨-, hout⟩ := holds_output (holds_of_reached hst) hallows
    simp only [zlib, Bool.not_true, Bool.false_eq_true, if_false] at hend ⊢
    split_ifs at hend with hroom
    rw [List.take_of_length_le hroom, hout, gunzip_gzip]
  gunzip_nil := by decide

theorem streaming : zlib.Streaming where
  toBounded := lawful.toBounded
  ended := by
    intro st input output pending inp room room' _ _ _ _ hend
    simp only [zlib, Bool.not_true, Bool.false_eq_true, if_false, Option.getD_some] at hend ⊢
    split_ifs at hend with hroom
    rw [List.drop_of_length_le hroom]
    simp

end HeldZlib

end Azugate
