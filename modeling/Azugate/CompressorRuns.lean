import Azugate.Compression

/-!
# Runs of the compressor

`gzipRun` is `GzipStreamCompress` with its calls of `deflate`. `Drains` and `Compresses` are the
calls of the two loops when no handler stops them, and with any handler the loops make these
calls up to the one whose output is refused (`Compresses.gzipRun_eq`). What holds of whole runs
is proved by induction on the two relations.

With enough fuel the loops end (`exists_drains`, `exists_compresses`) : a call of `deflate` that
fills its room takes from the output that is left, and a read that is not the last one from the
file.
-/

namespace Azugate

/-! ## Calls of `deflate` -/

/-- A call of `deflate` : the number of reads before the one that brought its input, the input
bytes it used, and what it has put out and returned. -/
structure DeflateCall where
  block : ℕ
  /-- It was made with `Z_FINISH`. -/
  finish : Bool
  fed : Str
  out : Str
  ret : ZRet
  deriving DecidableEq, Repr

section Runs

variable (Z : Zlib) {H : Type*} (outputHandler : H → Str → H × Bool)

/-- `drain` with its calls of `deflate`. -/
def drainRun (block : ℕ) (finish : Bool) :
    ℕ → Z.State → Str → H → Option (List DeflateCall × H × Option (Z.State × ZRet))
  | 0, _, _, _ => none
  | fuel + 1, st, inp, h =>
    let r := Z.deflate st inp kDefaultCompressChunkBytes finish
    let call : DeflateCall := ⟨block, finish, inp.take r.used, r.out, r.ret⟩
    let (h, ok) := if 0 < r.out.length then outputHandler h r.out else (h, true)
    if !ok then some ([call], h, none)
    else if r.out.length = kDefaultCompressChunkBytes then
      (drainRun block finish fuel r.state (inp.drop r.used) h).map fun (calls, res) =>
        (call :: calls, res)
    else some ([call], h, some (r.state, r.ret))

/-- `gzipStreamCompress` with its calls of `deflate`, from the read of number `block` on. -/
def gzipRun : ℕ → ℕ → FileStream → Z.State → H → Option (List DeflateCall × H × Bool)
  | 0, _, _, _, _ => none
  | fuel + 1, block, source, st, h =>
    let (r, source) := source.read kDefaultCompressChunkBytes
    if r.fail && !r.eof then some ([], h, false)
    else
      match drainRun Z outputHandler block r.eof fuel st r.bytes h with
      | none => none
      | some (calls, h, none) => some (calls, h, false)
      | some (calls, h, some (st, ret)) =>
        if r.eof then some (calls, h, ret = .streamEnd)
        else (gzipRun fuel (block + 1) source st h).map fun (calls', res) => (calls ++ calls', res)

theorem drain_eq_drainRun (block : ℕ) (finish : Bool) :
    ∀ (fuel : ℕ) (st : Z.State) (inp : Str) (h : H),
      drain Z outputHandler finish fuel st inp h =
        (drainRun Z outputHandler block finish fuel st inp h).map Prod.snd
  | 0, _, _, _ => rfl
  | fuel + 1, st, inp, h => by
    rw [drain, drainRun]
    generalize Z.deflate st inp kDefaultCompressChunkBytes finish = r
    dsimp only
    generalize (if 0 < r.out.length then outputHandler h r.out else (h, true)) = res
    split_ifs
    · rfl
    · rw [drain_eq_drainRun block finish fuel, Option.map_map]
      rfl
    · rfl

theorem gzipStreamCompress_eq_gzipRun :
    ∀ (fuel block : ℕ) (source : FileStream) (st : Z.State) (h : H),
      gzipStreamCompress Z outputHandler fuel source st h =
        (gzipRun Z outputHandler fuel block source st h).map Prod.snd
  | 0, _, _, _, _ => rfl
  | fuel + 1, block, source, st, h => by
    rw [gzipStreamCompress, gzipRun]
    generalize source.read kDefaultCompressChunkBytes = read
    dsimp only
    rw [drain_eq_drainRun Z outputHandler block]
    by_cases hfail : (read.1.fail && !read.1.eof) = true
    · rw [if_pos hfail, if_pos hfail]
      rfl
    · rw [if_neg hfail, if_neg hfail]
      cases drainRun Z outputHandler block read.1.eof fuel st read.1.bytes h with
      | none => rfl
      | some run =>
        obtain ⟨calls, h, _ | ⟨st', ret⟩⟩ := run
        · rfl
        · simp only [Option.map_some]
          split_ifs
          · rfl
          · rw [gzipStreamCompress_eq_gzipRun fuel (block + 1), Option.map_map]
            rfl

variable {Z} {outputHandler}

/-! ## The handler -/

/-- The handler's state after the pieces of output. -/
def handled (outputHandler : H → Str → H × Bool) (h : H) (outs : List Str) : H :=
  outs.foldl (fun h out => (outputHandler h out).1) h

/-- The handler takes every one of the pieces. -/
def Takes (outputHandler : H → Str → H × Bool) (h : H) (outs : List Str) : Prop :=
  ∀ pre out post, outs = pre ++ out :: post →
    (outputHandler (handled outputHandler h pre) out).2 = true

theorem takes_nil (h : H) : Takes outputHandler h [] := by
  intro pre out post heq
  simp at heq

theorem takes_cons_iff {h : H} {out : Str} {outs : List Str} :
    Takes outputHandler h (out :: outs) ↔
      (outputHandler h out).2 = true ∧ Takes outputHandler (outputHandler h out).1 outs := by
  constructor
  · exact fun htakes => ⟨htakes [] out outs rfl, fun pre out' post heq =>
      htakes (out :: pre) out' post (by rw [heq]; rfl)⟩
  · rintro ⟨hout, houts⟩ pre out' post heq
    cases pre with
    | nil =>
      obtain ⟨rfl, rfl⟩ := List.cons.inj heq
      exact hout
    | cons x pre =>
      obtain ⟨rfl, htail⟩ := List.cons.inj heq
      exact houts pre out' post htail

/-- The pieces a call of `deflate` gives to the handler. -/
def pieces (out : Str) : List Str :=
  if out = [] then [] else [out]

@[simp] theorem flatten_pieces (out : Str) : (pieces out).flatten = out := by
  unfold pieces
  split_ifs with hnil
  · simp [hnil]
  · simp

theorem ne_nil_of_mem_pieces {out piece : Str} (h : piece ∈ pieces out) : piece ≠ [] := by
  unfold pieces at h
  split_ifs at h with hnil
  · simp at h
  · rwa [List.mem_singleton.1 h]

/-- The blocks calls of `deflate` give to the handler. -/
def blocks (calls : List DeflateCall) : List Str :=
  calls.flatMap fun c => pieces c.out

theorem blocks_cons (c : DeflateCall) (calls : List DeflateCall) :
    blocks (c :: calls) = pieces c.out ++ blocks calls :=
  List.flatMap_cons

theorem flatten_blocks (calls : List DeflateCall) :
    (blocks calls).flatten = calls.flatMap DeflateCall.out := by
  induction calls with
  | nil => rfl
  | cons c calls ih =>
    rw [blocks_cons, List.flatten_append, flatten_pieces, ih, List.flatMap_cons]

theorem ne_nil_of_mem_blocks {calls : List DeflateCall} {block : Str} (h : block ∈ blocks calls) :
    block ≠ [] := by
  obtain ⟨c, -, hc⟩ := List.mem_flatMap.1 h
  exact ne_nil_of_mem_pieces hc

/-- The handler on the output of one call. -/
def handOne (outputHandler : H → Str → H × Bool) (h : H) (c : DeflateCall) : H × Bool :=
  if 0 < c.out.length then outputHandler h c.out else (h, true)

/-- The handler on the output of calls, until it refuses a piece. The calls up to there, its
state, and whether it has taken everything. -/
def hand (outputHandler : H → Str → H × Bool) : H → List DeflateCall → List DeflateCall × H × Bool
  | h, [] => ([], h, true)
  | h, c :: calls =>
    if (handOne outputHandler h c).2 then
      (c :: (hand outputHandler (handOne outputHandler h c).1 calls).1,
        (hand outputHandler (handOne outputHandler h c).1 calls).2)
    else ([c], (handOne outputHandler h c).1, false)

theorem hand_append (h : H) (calls calls' : List DeflateCall) :
    hand outputHandler h (calls ++ calls') =
      if (hand outputHandler h calls).2.2 then
        ((hand outputHandler h calls).1 ++
            (hand outputHandler (hand outputHandler h calls).2.1 calls').1,
          (hand outputHandler (hand outputHandler h calls).2.1 calls').2)
      else hand outputHandler h calls := by
  induction calls generalizing h with
  | nil => rfl
  | cons c calls ih =>
    rw [List.cons_append, hand, hand]
    by_cases hok : (handOne outputHandler h c).2 = true
    · simp only [if_pos hok, ih]
      split_ifs <;> rfl
    · simp only [if_neg hok, Bool.false_eq_true, if_false]

variable (outputHandler) in
/-- A call that is handed on, in terms of its blocks. -/
theorem handOne_cases (h : H) (c : DeflateCall) :
    (pieces c.out = [] ∧ handOne outputHandler h c = (h, true)) ∨
      (pieces c.out = [c.out] ∧ handOne outputHandler h c = outputHandler h c.out) := by
  by_cases hout : c.out = []
  · exact Or.inl (by simp [pieces, handOne, hout])
  · exact Or.inr (by simp [pieces, handOne, hout, List.length_pos_iff])

variable (outputHandler) in
/-- The handler takes the blocks of all calls, or it refuses one and is given none after it. -/
theorem hand_cases (h : H) (calls : List DeflateCall) :
    (Takes outputHandler h (blocks calls) ∧
        hand outputHandler h calls = (calls, handled outputHandler h (blocks calls), true)) ∨
      ∃ made rest pre out, calls = made ++ rest ∧ blocks made = pre ++ [out] ∧
        Takes outputHandler h pre ∧
        (outputHandler (handled outputHandler h pre) out).2 = false ∧
        hand outputHandler h calls = (made, handled outputHandler h (blocks made), false) := by
  induction calls generalizing h with
  | nil => exact Or.inl ⟨takes_nil h, rfl⟩
  | cons c calls ih =>
    rw [hand]
    rcases handOne_cases outputHandler h c with ⟨hp, hone⟩ | ⟨hp, hone⟩
    · -- the call has put out nothing
      have hblocks : ∀ calls, blocks (c :: calls) = blocks calls := fun calls => by
        rw [blocks_cons, hp, List.nil_append]
      rw [hone, if_pos rfl, hblocks]
      rcases ih h with ⟨htakes, heq⟩ | ⟨made, rest, pre, out, hcalls, hmade, htakes, hout, heq⟩
      · exact Or.inl ⟨htakes, by rw [heq]⟩
      · refine Or.inr ⟨c :: made, rest, pre, out, by rw [hcalls]; rfl, ?_, htakes, hout, ?_⟩
        · rw [hblocks, hmade]
        · rw [heq, hblocks]
    · have hblocks : ∀ calls, blocks (c :: calls) = c.out :: blocks calls := fun calls => by
        rw [blocks_cons, hp, List.singleton_append]
      rw [hone]
      by_cases hok : (outputHandler h c.out).2 = true
      · rw [if_pos hok, hblocks]
        rcases ih (outputHandler h c.out).1 with
          ⟨htakes, heq⟩ | ⟨made, rest, pre, out, hcalls, hmade, htakes, hout, heq⟩
        · exact Or.inl ⟨takes_cons_iff.2 ⟨hok, htakes⟩, by rw [heq]; rfl⟩
        · refine Or.inr ⟨c :: made, rest, c.out :: pre, out, by rw [hcalls]; rfl, ?_,
            takes_cons_iff.2 ⟨hok, htakes⟩, hout, ?_⟩
          · rw [hblocks, hmade]
            rfl
          · rw [heq, hblocks]
            rfl
      · rw [if_neg hok]
        refine Or.inr ⟨[c], calls, [], c.out, rfl, hblocks [], takes_nil h,
          Bool.eq_false_of_not_eq_true hok, ?_⟩
        rw [hblocks]
        rfl

/-! ## The calls do not depend on the handler -/

/-- The call of `deflate` on `inp`. -/
def Zlib.callOn (Z : Zlib) (st : Z.State) (inp : Str) (block : ℕ) (finish : Bool) : DeflateCall :=
  let r := Z.deflate st inp kDefaultCompressChunkBytes finish
  ⟨block, finish, inp.take r.used, r.out, r.ret⟩

/-- One pass of the inner loop. -/
theorem drainRun_succ (block : ℕ) (finish : Bool) (fuel : ℕ) (st : Z.State) (inp : Str) (h : H) :
    drainRun Z outputHandler block finish (fuel + 1) st inp h =
      let r := Z.deflate st inp kDefaultCompressChunkBytes finish
      let c := Z.callOn st inp block finish
      if (handOne outputHandler h c).2 then
        if r.out.length = kDefaultCompressChunkBytes then
          (drainRun Z outputHandler block finish fuel r.state (inp.drop r.used)
            (handOne outputHandler h c).1).map fun (calls, res) => (c :: calls, res)
        else some ([c], (handOne outputHandler h c).1, some (r.state, r.ret))
      else some ([c], (handOne outputHandler h c).1, none) := by
  rw [drainRun]
  rcases hone : handOne outputHandler h (Z.callOn st inp block finish) with ⟨h', ok⟩
  have hres := hone
  dsimp only [handOne, Zlib.callOn] at hres
  simp only [hone, hres]
  cases ok <;> rfl

variable (Z) in
/-- The calls of the inner loop when no handler stops it, with the state after them and the last
return value. -/
inductive Drains (block : ℕ) (finish : Bool) :
    Z.State → Str → List DeflateCall → Z.State → ZRet → Prop where
  | last {st : Z.State} {inp : Str}
      (hleft : (Z.deflate st inp kDefaultCompressChunkBytes finish).out.length ≠
        kDefaultCompressChunkBytes) :
      Drains block finish st inp [Z.callOn st inp block finish]
        (Z.deflate st inp kDefaultCompressChunkBytes finish).state
        (Z.deflate st inp kDefaultCompressChunkBytes finish).ret
  | full {st st' : Z.State} {inp : Str} {calls : List DeflateCall} {ret : ZRet}
      (hfull : (Z.deflate st inp kDefaultCompressChunkBytes finish).out.length =
        kDefaultCompressChunkBytes)
      (hrest : Drains block finish (Z.deflate st inp kDefaultCompressChunkBytes finish).state
        (inp.drop (Z.deflate st inp kDefaultCompressChunkBytes finish).used) calls st' ret) :
      Drains block finish st inp (Z.callOn st inp block finish :: calls) st' ret

variable (outputHandler) in
/-- With any handler the inner loop makes these calls, up to the one whose output is refused. -/
theorem Drains.drainRun_eq {block : ℕ} {finish : Bool} {st st' : Z.State} {inp : Str}
    {calls : List DeflateCall} {ret : ZRet} (hdrains : Drains Z block finish st inp calls st' ret)
    {fuel : ℕ} (hfuel : calls.length ≤ fuel) (h : H) :
    drainRun Z outputHandler block finish fuel st inp h =
      some ((hand outputHandler h calls).1, (hand outputHandler h calls).2.1,
        if (hand outputHandler h calls).2.2 then some (st', ret) else none) := by
  induction hdrains generalizing fuel h with
  | @last st inp hleft =>
    obtain ⟨fuel, rfl⟩ := Nat.exists_eq_add_of_le' hfuel
    rw [List.length_singleton, drainRun_succ, hand, hand]
    dsimp only
    rw [if_neg hleft]
    by_cases hok : (handOne outputHandler h (Z.callOn st inp block finish)).2 = true
    · simp only [if_pos hok]
      rfl
    · simp only [if_neg hok]
      rfl
  | @full st st' inp calls ret hfull hrest ih =>
    obtain ⟨fuel, rfl⟩ := Nat.exists_eq_add_of_le' hfuel
    rw [List.length_cons, ← Nat.add_assoc, drainRun_succ, hand]
    dsimp only
    rw [if_pos hfull, ih (by omega)]
    by_cases hok : (handOne outputHandler h (Z.callOn st inp block finish)).2 = true
    · simp only [if_pos hok]
      rfl
    · simp only [if_neg hok]
      rfl

/-- Every call is of the block it was made for. -/
theorem Drains.of_mem {block : ℕ} {finish : Bool} {st st' : Z.State} {inp : Str}
    {calls : List DeflateCall} {ret : ZRet} (hdrains : Drains Z block finish st inp calls st' ret)
    {c : DeflateCall} (hc : c ∈ calls) : c.block = block ∧ c.finish = finish := by
  induction hdrains with
  | last hleft =>
    obtain rfl := List.mem_singleton.1 hc
    exact ⟨rfl, rfl⟩
  | full hfull hrest ih =>
    rcases List.mem_cons.1 hc with rfl | hc
    · exact ⟨rfl, rfl⟩
    · exact ih hc

section Order

variable {block : ℕ} {finish : Bool} {st st' : Z.State} {inp input output : Str}
  {pending : Option Str} {calls : List DeflateCall} {ret : ZRet}

theorem room_pos : 0 < kDefaultCompressChunkBytes := by decide

/-- The inner loop ends. -/
theorem exists_drains (B : Z.Bounded) (block : ℕ) (finish : Bool) (inp : Str)
    (hst : Z.Reached st input output pending) (hallows : Zlib.Allows pending inp finish) :
    ∃ calls st' ret, Drains Z block finish st inp calls st' ret := by
  obtain ⟨left, hleft⟩ := B.finite
  -- a call that fills its room takes as much from the output that is left
  induction hn : left st inp finish using Nat.strong_induction_on
    generalizing st input output inp pending with
  | _ n ih =>
    by_cases hfull : (Z.deflate st inp kDefaultCompressChunkBytes finish).out.length =
        kDefaultCompressChunkBytes
    · have hless := hleft hst hallows room_pos
      have hpos := room_pos
      obtain ⟨calls, st', ret, hrest⟩ :=
        ih _ (by omega) _ (hst.call hallows room_pos) (Zlib.allows_again _ finish) rfl
      exact ⟨_, _, _, .full hfull hrest⟩
    · exact ⟨_, _, _, .last hfull⟩

/-- The calls of the inner loop use its input in order. -/
theorem Drains.reached (B : Z.Bounded) (hdrains : Drains Z block finish st inp calls st' ret)
    (hst : Z.Reached st input output pending) (hallows : Zlib.Allows pending inp finish) :
    calls.flatMap DeflateCall.fed = inp ∧
      Z.Reached st' (input ++ inp) (output ++ calls.flatMap DeflateCall.out)
        (if finish then some [] else none) := by
  induction hdrains generalizing input output pending with
  | @last st inp hleft =>
    have hnext := hst.call hallows room_pos
    have hused := B.used_eq hst hallows room_pos hleft
    rw [hused, List.take_length, List.drop_length] at hnext
    exact ⟨by simp [Zlib.callOn, hused], by simpa [Zlib.callOn] using hnext⟩
  | @full st st' inp calls ret hfull hrest ih =>
    obtain ⟨hfed, hnext⟩ := ih (hst.call hallows room_pos) (Zlib.allows_again _ finish)
    rw [List.flatMap_cons, List.flatMap_cons, hfed]
    simp only [List.append_assoc, List.take_append_drop] at hnext
    exact ⟨List.take_append_drop _ inp, hnext⟩

/-- With `Z_FINISH`, the last call says that the stream has ended when any call has. -/
theorem Drains.ended (S : Z.Streaming) (hdrains : Drains Z block true st inp calls st' ret)
    (hst : Z.Reached st input output pending) (hallows : Zlib.Allows pending inp true) :
    ret = .streamEnd ↔ ∃ c ∈ calls, c.ret = .streamEnd := by
  induction hdrains generalizing input output pending with
  | last hleft => simp [Zlib.callOn]
  | @full st st' inp calls ret hfull hrest ih =>
    rw [ih (hst.call hallows room_pos) (Zlib.allows_again _ true)]
    constructor
    · rintro ⟨c, hc, hend⟩
      exact ⟨c, List.mem_cons_of_mem _ hc, hend⟩
    · rintro ⟨c, hc, hend⟩
      rcases List.mem_cons.1 hc with rfl | hc
      · -- the call has filled its room with the end of the stream, and one more is made
        obtain ⟨hout, hagain⟩ := S.ended hst hallows room_pos room_pos hend
        cases hrest with
        | last hleft => exact ⟨_, List.mem_singleton_self _, hagain⟩
        | full hfull' hrest' =>
          rw [hout] at hfull'
          exact absurd hfull' (by decide)
      · exact ⟨c, hc, hend⟩

/-- With `Z_FINISH`, the last call ends the stream, and what all have put out decompresses. -/
theorem Drains.finishes {gunzip : Str → Option Str} (L : Z.Lawful gunzip)
    (hdrains : Drains Z block true st inp calls st' ret)
    (hst : Z.Reached st input output pending) (hallows : Zlib.Allows pending inp true) :
    ret = .streamEnd ∧
      gunzip (output ++ calls.flatMap DeflateCall.out) = some (input ++ inp) := by
  induction hdrains generalizing input output pending with
  | @last st inp hleft =>
    have hlt := lt_of_le_of_ne (L.within hst hallows room_pos).2 hleft
    have hend := L.finishes hst hallows hlt
    have hused := L.toBounded.used_eq hst hallows room_pos hleft
    refine ⟨hend, ?_⟩
    simpa [Zlib.callOn] using L.gunzip_output hst hallows room_pos hend hused
  | @full st st' inp calls ret hfull hrest ih =>
    obtain ⟨hend, hgunzip⟩ := ih (hst.call hallows room_pos) (Zlib.allows_again _ true)
    simp only [List.append_assoc, List.take_append_drop] at hgunzip
    exact ⟨hend, hgunzip⟩

end Order

/-! ## Whole runs -/

variable (Z) in
/-- The calls of `GzipStreamCompress` when no handler stops it, from the read of number `block`
on, and what it returns. -/
inductive Compresses : ℕ → FileStream → Z.State → List DeflateCall → Bool → Prop where
  | failed {block : ℕ} {source : FileStream} {st : Z.State}
      (hread : source.read kDefaultCompressChunkBytes = (⟨[], false, true⟩, source))
      (hbad : source.readable = false) :
      Compresses block source st [] false
  | last {block : ℕ} {source source' : FileStream} {st st' : Z.State}
      {calls : List DeflateCall} {ret : ZRet}
      (hread : source.read kDefaultCompressChunkBytes = (⟨source.rest, true, false⟩, source'))
      (hgood : source.readable = true) (hshort : source.rest.length < kDefaultCompressChunkBytes)
      (hdrains : Drains Z block true st source.rest calls st' ret) :
      Compresses block source st calls (ret = .streamEnd)
  | more {block : ℕ} {source source' : FileStream} {st st' : Z.State}
      {calls calls' : List DeflateCall} {ret : ZRet} {ok : Bool}
      (hread : source.read kDefaultCompressChunkBytes =
        (⟨source.rest.take kDefaultCompressChunkBytes, false, false⟩, source'))
      (hrest : source'.rest = source.rest.drop kDefaultCompressChunkBytes)
      (hlong : kDefaultCompressChunkBytes ≤ source.rest.length)
      (hsame : source'.readable = source.readable)
      (hdrains : Drains Z block false st (source.rest.take kDefaultCompressChunkBytes) calls st'
        ret)
      (hmore : Compresses (block + 1) source' st' calls' ok) :
      Compresses block source st (calls ++ calls') ok

variable (outputHandler) in
/-- With any handler `GzipStreamCompress` makes these calls, up to the one whose output is
refused, and returns false then. -/
theorem Compresses.gzipRun_eq {block : ℕ} {source : FileStream} {st : Z.State}
    {calls : List DeflateCall} {ok : Bool} (hcomp : Compresses Z block source st calls ok) :
    ∃ N, ∀ fuel, N ≤ fuel → ∀ h : H, gzipRun Z outputHandler fuel block source st h =
      some ((hand outputHandler h calls).1, (hand outputHandler h calls).2.1,
        (hand outputHandler h calls).2.2 && ok) := by
  induction hcomp with
  | failed hread hbad =>
    refine ⟨1, fun fuel hfuel h => ?_⟩
    obtain ⟨fuel, rfl⟩ := Nat.exists_eq_add_of_le' hfuel
    simp [gzipRun, hread, ReadState.fail, hand]
  | @last block source source' st st' calls ret hread hgood hshort hdrains =>
    refine ⟨calls.length + 1, fun fuel hfuel h => ?_⟩
    obtain ⟨fuel, rfl⟩ := Nat.exists_eq_add_of_le' hfuel
    rw [← Nat.add_assoc, gzipRun, hread]
    simp only [ReadState.fail, hdrains.drainRun_eq outputHandler (Nat.le_add_left _ fuel) h]
    cases (hand outputHandler h calls).2.2 <;> simp
  | @more block source source' st st' calls calls' ret ok hread hrest hlong hsame hdrains hmore
      ih =>
    obtain ⟨N, hrun⟩ := ih
    refine ⟨calls.length + N + 1, fun fuel hfuel h => ?_⟩
    obtain ⟨fuel, rfl⟩ := Nat.exists_eq_add_of_le' hfuel
    rw [← Nat.add_assoc, gzipRun, hread, hand_append]
    have hall := hdrains.drainRun_eq outputHandler
      (show calls.length ≤ fuel + (calls.length + N) by omega) h
    simp only [ReadState.fail, hall]
    cases hok : (hand outputHandler h calls).2.2 with
    | true => simp [hrun (fuel + (calls.length + N)) (by omega)]
    | false => simp [hok]

/-- `Z_FINISH` is given from the read on that meets the end of the file. -/
theorem Compresses.finish_iff {block : ℕ} {source : FileStream} {st : Z.State}
    {calls : List DeflateCall} {ok : Bool} (hcomp : Compresses Z block source st calls ok)
    {c : DeflateCall} (hc : c ∈ calls) :
    c.finish = true ↔ c.block = block + source.rest.length / kDefaultCompressChunkBytes := by
  induction hcomp with
  | failed hread hbad => simp at hc
  | last hread hgood hshort hdrains =>
    obtain ⟨hblock, hfinish⟩ := hdrains.of_mem hc
    simp [hblock, hfinish, Nat.div_eq_of_lt hshort]
  | @more block source source' st st' calls calls' ret ok hread hrest hlong hsame hdrains hmore
      ih =>
    have hdiv : source.rest.length / kDefaultCompressChunkBytes =
        source'.rest.length / kDefaultCompressChunkBytes + 1 := by
      rw [hrest, List.length_drop, ← Nat.div_eq_sub_div room_pos hlong]
    rcases List.mem_append.1 hc with hc | hc
    · obtain ⟨hblock, hfinish⟩ := hdrains.of_mem hc
      simp [hblock, hfinish, hdiv]
    · rw [ih hc, hdiv]
      omega

section Order

variable {block : ℕ} {source : FileStream} {st : Z.State} {input output : Str}
  {calls : List DeflateCall} {ok : Bool}

/-- `GzipStreamCompress` ends. -/
theorem exists_compresses (B : Z.Bounded) (block : ℕ) (source : FileStream)
    (hst : Z.Reached st input output none) : ∃ calls ok, Compresses Z block source st calls ok := by
  -- every read but the last shortens the file
  induction hn : source.rest.length using Nat.strong_induction_on
    generalizing block source st input output with
  | _ n ih =>
    rcases source.read_cases kDefaultCompressChunkBytes with
      ⟨hbad, hread⟩ | ⟨hgood, hshort, source', hread⟩ | ⟨source', hread, hrest, hlong, hsame⟩
    · exact ⟨_, _, .failed hread hbad⟩
    · obtain ⟨calls, st', ret, hdrains⟩ :=
        exists_drains B block true source.rest hst (Zlib.allows_none _ _)
      exact ⟨_, _, .last hread hgood hshort hdrains⟩
    · obtain ⟨calls, st', ret, hdrains⟩ := exists_drains B block false
        (source.rest.take kDefaultCompressChunkBytes) hst (Zlib.allows_none _ _)
      obtain ⟨-, hst'⟩ := hdrains.reached B hst (Zlib.allows_none _ _)
      have hless : source'.rest.length < n := by
        have hpos := room_pos
        rw [hrest, List.length_drop]
        omega
      obtain ⟨calls', ok, hmore⟩ := ih _ hless (block + 1) source' hst' rfl
      exact ⟨_, _, .more hread hrest hlong hsame hdrains hmore⟩

/-- The calls use the bytes of the file in order, and all of them if it can be read. -/
theorem Compresses.fed (B : Z.Bounded) (hcomp : Compresses Z block source st calls ok)
    (hst : Z.Reached st input output none) :
    calls.flatMap DeflateCall.fed <+: source.rest ∧
      (source.readable = true → calls.flatMap DeflateCall.fed = source.rest) := by
  induction hcomp generalizing input output with
  | failed hread hbad => simp [hbad]
  | last hread hgood hshort hdrains =>
    obtain ⟨hfed, -⟩ := hdrains.reached B hst (Zlib.allows_none _ _)
    exact ⟨hfed ▸ List.prefix_rfl, fun _ => hfed⟩
  | @more block source source' st st' calls calls' ret ok hread hrest hlong hsame hdrains hmore
      ih =>
    obtain ⟨hfed, hst'⟩ := hdrains.reached B hst (Zlib.allows_none _ _)
    obtain ⟨hpre, hall⟩ := ih hst'
    rw [hrest] at hpre hall
    rw [List.flatMap_append, hfed]
    constructor
    · conv_rhs => rw [← List.take_append_drop kDefaultCompressChunkBytes source.rest]
      exact (List.prefix_append_right_inj _).2 hpre
    · intro hgood
      rw [hall (hsame.trans hgood), List.take_append_drop]

/-- It returns true when a call with `Z_FINISH` has ended the stream. -/
theorem Compresses.ended (S : Z.Streaming) (hcomp : Compresses Z block source st calls ok)
    (hst : Z.Reached st input output none) :
    ok = true ↔ ∃ c ∈ calls, c.finish = true ∧ c.ret = .streamEnd := by
  induction hcomp generalizing input output with
  | failed hread hbad => simp
  | @last block source source' st st' calls ret hread hgood hshort hdrains =>
    rw [decide_eq_true_iff, hdrains.ended S hst (Zlib.allows_none _ _)]
    refine exists_congr fun c => and_congr_right fun hc => ?_
    simp [(hdrains.of_mem hc).2]
  | @more block source source' st st' calls calls' ret ok hread hrest hlong hsame hdrains hmore
      ih =>
    obtain ⟨-, hst'⟩ := hdrains.reached S.toBounded hst (Zlib.allows_none _ _)
    rw [ih hst']
    refine exists_congr fun c => ?_
    constructor
    · rintro ⟨hc, hend⟩
      exact ⟨List.mem_append_right _ hc, hend⟩
    · rintro ⟨hc, hfinish, hend⟩
      rcases List.mem_append.1 hc with hc | hc
      · rw [(hdrains.of_mem hc).2] at hfinish
        exact absurd hfinish (by decide)
      · exact ⟨hc, hfinish, hend⟩

/-- It returns true if the file can be read, and what was put out decompresses to the file. -/
theorem Compresses.gunzip_eq {gunzip : Str → Option Str} (L : Z.Lawful gunzip)
    (hcomp : Compresses Z block source st calls ok) (hst : Z.Reached st input output none) :
    ok = source.readable ∧ (source.readable = true →
      gunzip (output ++ calls.flatMap DeflateCall.out) = some (input ++ source.rest)) := by
  induction hcomp generalizing input output with
  | failed hread hbad => simp [hbad]
  | last hread hgood hshort hdrains =>
    obtain ⟨hend, hgunzip⟩ := hdrains.finishes L hst (Zlib.allows_none _ _)
    exact ⟨by rw [hgood, hend]; rfl, fun _ => hgunzip⟩
  | @more block source source' st st' calls calls' ret ok hread hrest hlong hsame hdrains hmore
      ih =>
    obtain ⟨-, hst'⟩ := hdrains.reached L.toBounded hst (Zlib.allows_none _ _)
    obtain ⟨hok, hgunzip⟩ := ih hst'
    refine ⟨hok.trans hsame, fun hgood => ?_⟩
    simpa [hrest] using hgunzip (hsame.trans hgood)

end Order

end Runs

/-! ## Every handler -/

/-- With every handler `GzipStreamCompress` ends. The calls of `deflate` use the bytes of the file
in order, with `Z_FINISH` from the read on that meets its end, and the handler is given all their
output in order. A handler that takes everything lets it use the whole file, and it returns true
when a call has ended the stream. Otherwise the block that is refused is the last one, and it
returns false. -/
theorem gzipStreamCompress_calls (Z : Zlib) (S : Z.Streaming) {H : Type*}
    (outputHandler : H → Str → H × Bool) (h : H) (source : FileStream) :
    ∃ N calls h' ret,
      (∀ fuel, N ≤ fuel →
        gzipStreamCompress Z outputHandler fuel source Z.init h = some (h', ret) ∧
          gzipRun Z outputHandler fuel 0 source Z.init h = some (calls, h', ret)) ∧
      calls.flatMap DeflateCall.fed <+: source.rest ∧
      (∀ c ∈ calls,
        c.finish = true ↔ c.block = source.rest.length / kDefaultCompressChunkBytes) ∧
      h' = handled outputHandler h (blocks calls) ∧
      (∀ block ∈ blocks calls, block ≠ []) ∧
      (blocks calls).flatten = calls.flatMap DeflateCall.out ∧
      ((Takes outputHandler h (blocks calls) ∧
          (source.readable = true → calls.flatMap DeflateCall.fed = source.rest) ∧
          (ret = true ↔ ∃ c ∈ calls, c.finish = true ∧ c.ret = .streamEnd)) ∨
        ∃ taken refused, blocks calls = taken ++ [refused] ∧ Takes outputHandler h taken ∧
          (outputHandler (handled outputHandler h taken) refused).2 = false ∧ ret = false) := by
  obtain ⟨calls, ok, hcomp⟩ := exists_compresses S.toBounded 0 source .init
  obtain ⟨hpre, hall⟩ := hcomp.fed S.toBounded .init
  obtain ⟨N, hrun⟩ := hcomp.gzipRun_eq outputHandler
  have hcode : ∀ fuel, N ≤ fuel →
      gzipStreamCompress Z outputHandler fuel source Z.init h =
        some ((hand outputHandler h calls).2.1, (hand outputHandler h calls).2.2 && ok) := by
    intro fuel hfuel
    rw [gzipStreamCompress_eq_gzipRun Z outputHandler fuel 0, hrun fuel hfuel]
    rfl
  rcases hand_cases outputHandler h calls with
    ⟨htakes, heq⟩ | ⟨made, rest, taken, refused, rfl, hmade, htakes, hout, heq⟩
  · simp only [heq, Bool.true_and] at hrun hcode
    refine ⟨N, calls, _, ok, fun fuel hfuel => ⟨hcode fuel hfuel, ?_⟩, hpre, fun c hc => ?_, rfl,
      fun block => ne_nil_of_mem_blocks, flatten_blocks calls,
      Or.inl ⟨htakes, hall, hcomp.ended S .init⟩⟩
    · rw [hrun fuel hfuel h, heq]
      rfl
    · rw [hcomp.finish_iff hc, Nat.zero_add]
  · simp only [heq, Bool.false_and] at hcode
    refine ⟨N, made, _, false, fun fuel hfuel => ⟨hcode fuel hfuel, ?_⟩, ?_, fun c hc => ?_, rfl,
      fun block => ne_nil_of_mem_blocks, flatten_blocks made,
      Or.inr ⟨taken, refused, hmade, htakes, hout, rfl⟩⟩
    · rw [hrun fuel hfuel h, heq]
      rfl
    · rw [List.flatMap_append] at hpre
      exact (List.prefix_append _ _).trans hpre
    · rw [hcomp.finish_iff (List.mem_append_left _ hc), Nat.zero_add]

/-- The file `a` is compressed in one call, whose output goes to a handler that keeps it. -/
theorem gzipStreamCompress_calls_a :
    let keep : List Str → Str → List Str × Bool := fun kept out => (kept ++ [out], true)
    ∃ (N : ℕ) (calls : List DeflateCall), (∀ fuel, N ≤ fuel →
        gzipStreamCompress HeldZlib.zlib keep fuel ⟨lit "a", none⟩ HeldZlib.zlib.init [] =
          some ([HeldZlib.gzip (lit "a")], true)) ∧
      calls.flatMap DeflateCall.fed <+: lit "a" ∧
      calls.flatMap DeflateCall.out = HeldZlib.gzip (lit "a") := by
  intro keep
  obtain ⟨N, calls, kept, ret, hrun, hfed, -, hkept, -, hflat, -⟩ :=
    gzipStreamCompress_calls HeldZlib.zlib HeldZlib.streaming keep [] ⟨lit "a", none⟩
  have hcode : gzipStreamCompress HeldZlib.zlib keep (N + 2) ⟨lit "a", none⟩ HeldZlib.zlib.init [] =
      some ([HeldZlib.gzip (lit "a")], true) := rfl
  rw [(hrun (N + 2) (by omega)).1] at hcode
  obtain ⟨rfl, rfl⟩ := Prod.mk.inj (Option.some.inj hcode)
  have hblocks : ∀ (outs kept : List Str), handled keep kept outs = kept ++ outs := by
    intro outs
    induction outs with
    | nil => simp [handled]
    | cons out outs ih =>
      intro kept
      exact (ih (kept ++ [out])).trans (by simp)
  refine ⟨N, calls, fun fuel hfuel => (hrun fuel hfuel).1, hfed, ?_⟩
  rw [hblocks, List.nil_append] at hkept
  rw [← hflat, ← hkept]
  simp

end Azugate
