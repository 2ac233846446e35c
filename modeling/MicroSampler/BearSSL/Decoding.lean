import Mathlib.Data.Nat.Size
import MicroSampler.BearSSL.ModpowOpt

/-!
# Integers from bytes: `br_i31_decode`

The bytes of a number, least significant first, pass through an accumulator that gives off a
word whenever it holds 31 bits. The announced bit length is computed from the words
afterwards, from the top one that is not zero.

`brI31Decode_eq`: the array holds the number in the bytes, with its exact bit length.
-/

namespace MicroSampler.BearSSL

open Limbs

/-! ## The functions -/

def BIT_LENGTH (x : Word) : Word :=
  let k := NEQ x 0
  let c := GT x 0xFFFF
  let x := MUX c (x >>> 16) x
  let k := k + (c <<< 4)
  let c := GT x 0x00FF
  let x := MUX c (x >>> 8) x
  let k := k + (c <<< 3)
  let c := GT x 0x000F
  let x := MUX c (x >>> 4) x
  let k := k + (c <<< 2)
  let c := GT x 0x0003
  let x := MUX c (x >>> 2) x
  let k := k + (c <<< 1)
  k + GT x 0x0001

/-- The loop from the top word down: the first word that is not zero, and its index. -/
def bitLengthLoop (x : List Word) : (xlen : Nat) → (tw twk : Word) → Option (Word × Word)
  | 0, tw, twk => some (tw, twk)
  | xlen + 1, tw, twk => do
    let c := EQ tw 0
    let w ← x[xlen]?
    bitLengthLoop x xlen (MUX c w tw) (MUX c (BitVec.ofNat 32 xlen) twk)

def brI31BitLength (x : List Word) (xlen : Nat) : Option Word := do
  let (tw, twk) ← bitLengthLoop x xlen 0 0
  pure ((twk <<< 5) + BIT_LENGTH tw)

/-- `x[i] = w`. -/
def setWord (x : List Word) (i : Nat) (w : Word) : Option (List Word) :=
  if i < x.length then some (x.set i w) else none

/-- What the loop of `br_i31_decode` works on. -/
structure Decoder where
  x : List Word
  v : Nat
  acc : Word
  accLen : Nat

/-- The loop over the bytes, from the last one on. -/
def decodeLoop (src : List Byte) : (u : Nat) → Decoder → Option Decoder
  | 0, s => some s
  | u + 1, s => do
    let byte ← src[u]?
    let b : Word := byte.setWidth 32
    let acc := s.acc ||| (b <<< s.accLen)
    let accLen := s.accLen + 8
    if 31 ≤ accLen then do
      let x ← setWord s.x s.v (acc &&& 0x7FFFFFFF)
      decodeLoop src u ⟨x, s.v + 1, b >>> (8 - (accLen - 31)), accLen - 31⟩
    else decodeLoop src u { s with acc, accLen }

/-- The word that the loop leaves in the accumulator. -/
def decodeLast (s : Decoder) : Option (List Word × Nat) :=
  if s.accLen ≠ 0 then (setWord s.x s.v s.acc).map (·, s.v + 1) else some (s.x, s.v)

def brI31Decode (x : List Word) (src : List Byte) (len : Nat) : Option (List Word) := do
  let s ← decodeLoop src len ⟨x, 1, 0, 0⟩
  let (x, v) ← decodeLast s
  let h ← brI31BitLength (x.drop 1) (v - 1)
  setWord x 0 h

/-! ## The accumulator -/

/-- The words that the accumulator gives off for the bytes, least significant first, and what
it holds afterwards. -/
def repack : List Byte → (acc : Word) → (accLen : Nat) → List Word × Word × Nat
  | [], acc, accLen => ([], acc, accLen)
  | byte :: bytes, acc, accLen =>
    let b : Word := byte.setWidth 32
    if 31 ≤ accLen + 8 then
      let r := repack bytes (b >>> (8 - (accLen + 8 - 31))) (accLen + 8 - 31)
      (((acc ||| (b <<< accLen)) &&& 0x7FFFFFFF) :: r.1, r.2)
    else repack bytes (acc ||| (b <<< accLen)) (accLen + 8)

/-- Bits on top of the accumulator. -/
theorem toNat_push {acc : Word} {s : Nat} (hacc : acc.toNat < 2 ^ s) (hs : s ≤ 32) (w : Word) :
    (acc ||| (w <<< s)).toNat = (acc.toNat + 2 ^ s * w.toNat) % 2 ^ 32 := by
  have h32 : 2 ^ 32 = 2 ^ s * 2 ^ (32 - s) := by
    rw [← pow_add]
    congr 1
    omega
  have hshift : (w <<< s).toNat = 2 ^ s * (w.toNat % 2 ^ (32 - s)) := by
    rw [BitVec.toNat_shiftLeft, Nat.shiftLeft_eq, mul_comm, h32, Nat.mul_mod_mul_left]
  have hor : (acc ||| (w <<< s)).toNat = 2 ^ s * (w.toNat % 2 ^ (32 - s)) + acc.toNat := by
    rw [BitVec.toNat_or, hshift, Nat.or_comm, ← Nat.two_pow_add_eq_or_of_lt hacc]
  have hlt := (acc ||| (w <<< s)).isLt
  have hmod : 2 ^ s * (w.toNat % 2 ^ (32 - s)) = (2 ^ s * w.toNat) % 2 ^ 32 := by
    rw [h32, Nat.mul_mod_mul_left]
  rw [hor] at hlt ⊢
  omega

/-- The bits that find no room. -/
theorem toNat_spill {acc : Word} {s t : Nat} (hacc : acc.toNat < 2 ^ s) (hst : s ≤ t) (w : Word) :
    (w >>> (t - s)).toNat = (acc.toNat + 2 ^ s * w.toNat) / 2 ^ t := by
  have hsplit : 2 ^ t = 2 ^ s * 2 ^ (t - s) := by rw [← pow_add, Nat.add_sub_cancel' hst]
  rw [BitVec.toNat_ushiftRight, Nat.shiftRight_eq_div_pow, hsplit, ← Nat.div_div_eq_div_mul,
    Nat.add_mul_div_left _ _ (Nat.two_pow_pos s), Nat.div_eq_of_lt hacc, zero_add]

/-- A byte on top of the accumulator: its low 31 bits, and the bits above. -/
theorem push_byte {acc : Word} {accLen : Nat} (hacc : acc.toNat < 2 ^ accLen) (hlen : accLen ≤ 30)
    (byte : Byte) :
    (acc ||| (byte.setWidth 32 <<< accLen)).toNat % 2 ^ 31 =
        (acc.toNat + 2 ^ accLen * byte.toNat) % 2 ^ 31 ∧
      (accLen + 8 < 31 →
        (acc ||| (byte.setWidth 32 <<< accLen)).toNat = acc.toNat + 2 ^ accLen * byte.toNat) ∧
      (31 ≤ accLen + 8 → ((byte.setWidth 32 : Word) >>> (8 - (accLen + 8 - 31))).toNat =
        (acc.toNat + 2 ^ accLen * byte.toNat) / 2 ^ 31) := by
  have hbyte := byte.isLt
  have hwide : (byte.setWidth 32 : Word).toNat = byte.toNat := by
    rw [BitVec.toNat_setWidth]
    omega
  have hpush := toNat_push hacc (by omega) (byte.setWidth 32)
  have hspill := @toNat_spill acc accLen 31 hacc (by omega) (byte.setWidth 32)
  rw [hwide] at hpush hspill
  refine ⟨?_, fun hshort => ?_, fun hfull => ?_⟩
  · rw [hpush]
    exact Nat.mod_mod_of_dvd _ (pow_dvd_pow 2 (by omega))
  · have hroom : 2 ^ (accLen + 8) ≤ 2 ^ 32 := Nat.pow_le_pow_right two_pos (by omega)
    have hmul : 2 ^ accLen * byte.toNat ≤ 2 ^ accLen * 255 := Nat.mul_le_mul_left _ (by omega)
    rw [hpush, Nat.mod_eq_of_lt]
    rw [pow_add] at hroom
    omega
  · rw [← hspill]
    congr 2
    omega

/-- **Repacking** keeps the number: what the words and the accumulator hold is what was in the
accumulator and in the bytes. -/
theorem repack_eq (bytes : List Byte) {acc : Word} {accLen : Nat} (hacc : acc.toNat < 2 ^ accLen)
    (hlen : accLen ≤ 30) :
    let r := repack bytes acc accLen
    Small r.1 ∧ r.2.1.toNat < 2 ^ r.2.2 ∧ r.2.2 ≤ 30 ∧
      31 * r.1.length + r.2.2 = accLen + 8 * bytes.length ∧
      value r.1 + base ^ r.1.length * r.2.1.toNat =
        acc.toNat + 2 ^ accLen * (Nat.ofDigits 256 (bytes.map BitVec.toNat) : ℕ) := by
  induction bytes generalizing acc accLen with
  | nil =>
    refine ⟨Small.nil, hacc, hlen, ?_, ?_⟩
    · simp [repack]
    · simp [repack]
  | cons byte bytes ih =>
    obtain ⟨hlow, hshort, hhigh⟩ := push_byte hacc hlen byte
    have hbyte := byte.isLt
    have htotal : acc.toNat + 2 ^ accLen * byte.toNat < 2 ^ (accLen + 8) := by
      rw [pow_add]
      have : 2 ^ accLen * byte.toNat ≤ 2 ^ accLen * 255 := Nat.mul_le_mul_left _ (by omega)
      omega
    rw [List.map_cons, Nat.ofDigits_cons]
    generalize hdigits : Nat.ofDigits 256 (bytes.map BitVec.toNat) = D at ih ⊢
    by_cases hfull : 31 ≤ accLen + 8
    · -- a word is given off
      have hnext := hhigh hfull
      have hnextlt : (byte.setWidth 32 >>> (8 - (accLen + 8 - 31)) : Word).toNat <
          2 ^ (accLen + 8 - 31) := by
        rw [hnext, Nat.div_lt_iff_lt_mul (Nat.two_pow_pos _), ← pow_add, Nat.sub_add_cancel hfull]
        exact htotal
      obtain ⟨hsmall, hacc', hlen', hcount, hvalue⟩ := ih hnextlt (by omega)
      simp only [repack, if_pos hfull]
      refine ⟨hsmall.cons ?_, hacc', hlen', ?_, ?_⟩
      · rw [toNat_mask]
        exact Nat.mod_lt _ (by decide)
      · rw [List.length_cons, List.length_cons]
        omega
      · have hword : (((acc ||| (byte.setWidth 32 <<< accLen)) &&& 0x7FFFFFFF).toNat : ℤ) =
            (acc.toNat + 2 ^ accLen * byte.toNat : ℕ) % base := by
          rw [toNat_mask, hlow]
          rfl
        have hrest : ((byte.setWidth 32 >>> (8 - (accLen + 8 - 31)) : Word).toNat : ℤ) =
            (acc.toNat + 2 ^ accLen * byte.toNat : ℕ) / base := by
          rw [hnext]
          rfl
        have hpow : (2 : ℤ) ^ accLen * 256 = base * 2 ^ (accLen + 8 - 31) := by
          have h256 : (256 : ℤ) = 2 ^ 8 := by norm_num
          rw [base, h256, ← pow_add, ← pow_add]
          congr 1
          omega
        have hsplit := Int.emod_add_mul_ediv (acc.toNat + 2 ^ accLen * byte.toNat : ℕ) base
        rw [← hword, ← hrest, Nat.cast_add, Nat.cast_mul, Nat.cast_pow, Nat.cast_ofNat] at hsplit
        rw [value_cons, List.length_cons, pow_succ', Nat.cast_add, Nat.cast_mul, Nat.cast_ofNat]
        linear_combination base * hvalue + hsplit - D * hpow
    · have hnext := hshort (by omega)
      obtain ⟨hsmall, hacc', hlen', hcount, hvalue⟩ := ih (hnext ▸ htotal) (by omega)
      simp only [repack, if_neg hfull]
      refine ⟨hsmall, hacc', hlen', ?_, ?_⟩
      · rw [List.length_cons]
        omega
      · rw [hvalue, hnext, pow_add]
        push_cast
        ring

/-! ## The loop over the bytes -/

theorem setWord_here (pre : List Word) (w v : Word) (post : List Word) :
    setWord (pre ++ w :: post) pre.length v = some (pre ++ v :: post) := by
  rw [setWord, if_pos (by simp), set_here]

/-- The loop writes the words of `repack` one behind the other. -/
theorem decodeLoop_eq {src : List Byte} {u : Nat} (hu : u ≤ src.length) (x0 : Word)
    (out rest : List Word) (acc : Word) (accLen : Nat)
    (hroom : (repack (src.take u).reverse acc accLen).1.length ≤ rest.length) :
    decodeLoop src u ⟨x0 :: (out ++ rest), out.length + 1, acc, accLen⟩ =
      some ⟨x0 :: (out ++ ((repack (src.take u).reverse acc accLen).1 ++
          rest.drop (repack (src.take u).reverse acc accLen).1.length)),
        out.length + (repack (src.take u).reverse acc accLen).1.length + 1,
        (repack (src.take u).reverse acc accLen).2.1,
        (repack (src.take u).reverse acc accLen).2.2⟩ := by
  induction u generalizing out rest acc accLen with
  | zero => simp [decodeLoop, repack]
  | succ u ih =>
    have hget : src[u]? = some src[u] := List.getElem?_eq_getElem hu
    have htake : (src.take (u + 1)).reverse = src[u] :: (src.take u).reverse := by
      rw [← List.take_append_getElem hu, List.reverse_append, List.reverse_singleton,
        List.singleton_append]
    rw [htake] at hroom ⊢
    simp only [decodeLoop, hget, Option.bind_eq_bind, Option.bind_some]
    by_cases hfull : 31 ≤ accLen + 8
    · simp only [repack, if_pos hfull, List.length_cons] at hroom ⊢
      cases rest with
      | nil => exact absurd hroom (Nat.not_succ_le_zero _)
      | cons old rest =>
        have hset := setWord_here (x0 :: out) old
          ((acc ||| (src[u].setWidth 32 <<< accLen)) &&& 0x7FFFFFFF) rest
        have hrec := ih (Nat.le_of_succ_le hu)
          (out ++ [(acc ||| (src[u].setWidth 32 <<< accLen)) &&& 0x7FFFFFFF]) rest
          (src[u].setWidth 32 >>> (8 - (accLen + 8 - 31))) (accLen + 8 - 31)
          (Nat.le_of_succ_le_succ hroom)
        rw [List.length_cons, List.cons_append, List.cons_append] at hset
        rw [List.append_assoc, List.singleton_append, List.length_append, List.length_singleton,
          List.append_assoc, List.singleton_append] at hrec
        rw [hset, Option.bind_some, hrec, List.drop_succ_cons, List.cons_append]
        congr 2
        omega
    · simp only [repack, if_neg hfull] at hroom ⊢
      exact ih (Nat.le_of_succ_le hu) out rest _ _ hroom

/-! ## The bit length -/

theorem size_div_two_pow {n s : Nat} (h : 2 ^ s ≤ n) : Nat.size (n / 2 ^ s) + s = Nat.size n := by
  have hs : s < Nat.size n := Nat.lt_size.mpr h
  apply Nat.le_antisymm
  · have hlt : n / 2 ^ s < 2 ^ (Nat.size n - s) := by
      rw [Nat.div_lt_iff_lt_mul (Nat.two_pow_pos s), ← pow_add, Nat.sub_add_cancel hs.le]
      exact Nat.lt_size_self n
    have := Nat.size_le.mpr hlt
    omega
  · refine Nat.size_le.mpr ?_
    rw [pow_add, ← Nat.div_lt_iff_lt_mul (Nat.two_pow_pos s)]
    exact Nat.lt_size_self _

/-- One step of the search: the word loses `s` bits if it has more, and they are counted. -/
theorem bitLength_step {x k lim : Word} {s e : Nat} (hlim : lim.toNat = 2 ^ s - 1) (he : 2 ^ e = s)
    (hs : s ≤ 16) (hx : 0 < x.toNat) (hlt : x.toNat < 2 ^ (s + s))
    (hk : k.toNat + Nat.size x.toNat ≤ 33) :
    0 < (MUX (GT x lim) (x >>> s) x).toNat ∧ (MUX (GT x lim) (x >>> s) x).toNat < 2 ^ s ∧
      (k + (GT x lim <<< e)).toNat + Nat.size (MUX (GT x lim) (x >>> s) x).toNat =
        k.toNat + Nat.size x.toNat := by
  have hpow := Nat.two_pow_pos s
  rw [GT_eq, hlim, MUX_flag]
  by_cases hbig : 2 ^ s ≤ x.toNat
  · have hcond : 2 ^ s - 1 < x.toNat := by omega
    have hsize := size_div_two_pow hbig
    have hshift : (x >>> s).toNat = x.toNat / 2 ^ s := by
      rw [BitVec.toNat_ushiftRight, Nat.shiftRight_eq_div_pow]
    have hone : (flag (2 ^ s - 1 < x.toNat) <<< e).toNat = s := by
      rw [flag_of hcond, BitVec.toNat_shiftLeft, Nat.shiftLeft_eq]
      have h1 : (1 : Word).toNat = 1 := rfl
      rw [h1, one_mul, he]
      omega
    rw [if_pos hcond, hshift, BitVec.toNat_add, hone]
    refine ⟨Nat.div_pos hbig hpow, ?_, by omega⟩
    rw [Nat.div_lt_iff_lt_mul hpow, ← pow_add]
    exact hlt
  · have hcond : ¬ 2 ^ s - 1 < x.toNat := by omega
    have hzero : (0 : Word) <<< e = 0 := by simp
    rw [if_neg hcond, flag_of_not hcond, hzero, add_zero]
    exact ⟨hx, by omega, rfl⟩

/-- `BIT_LENGTH` is the bit length. -/
theorem toNat_BIT_LENGTH (x : Word) : (BIT_LENGTH x).toNat = Nat.size x.toNat := by
  by_cases hzero : x = 0
  · rw [hzero]
    decide
  have hpos : 0 < x.toNat := Nat.pos_of_ne_zero fun h => hzero (BitVec.eq_of_toNat_eq h)
  have hone : (NEQ x 0).toNat = 1 := by
    rw [NEQ_eq, flag_of hzero]
    rfl
  have hsize : Nat.size x.toNat ≤ 32 := Nat.size_le.mpr x.isLt
  -- 16, 8, 4 and 2 bits
  obtain ⟨hx1, hlt1, hk1⟩ :=
    @bitLength_step x (NEQ x 0) 0xFFFF 16 4 rfl rfl (by omega) hpos x.isLt (by omega)
  rw [BIT_LENGTH]
  generalize MUX (GT x 0xFFFF) (x >>> 16) x = x1 at *
  generalize NEQ x 0 + (GT x 0xFFFF <<< 4) = k1 at *
  obtain ⟨hx2, hlt2, hk2⟩ := @bitLength_step x1 k1 0xFF 8 3 rfl rfl (by omega) hx1 hlt1 (by omega)
  generalize MUX (GT x1 0xFF) (x1 >>> 8) x1 = x2 at *
  generalize k1 + (GT x1 0xFF <<< 3) = k2 at *
  obtain ⟨hx3, hlt3, hk3⟩ := @bitLength_step x2 k2 0xF 4 2 rfl rfl (by omega) hx2 hlt2 (by omega)
  generalize MUX (GT x2 0xF) (x2 >>> 4) x2 = x3 at *
  generalize k2 + (GT x2 0xF <<< 2) = k3 at *
  obtain ⟨hx4, hlt4, hk4⟩ := @bitLength_step x3 k3 0x3 2 1 rfl rfl (by omega) hx3 hlt3 (by omega)
  generalize MUX (GT x3 0x3) (x3 >>> 2) x3 = x4 at *
  generalize k3 + (GT x3 0x3 <<< 1) = k4 at *
  -- the last bit
  have hlast : Nat.size x4.toNat = 1 + (GT x4 1).toNat := by
    have h1 : (1 : Word).toNat = 1 := rfl
    rw [GT_eq, toNat_flag, h1]
    obtain h | h | h : x4.toNat = 1 ∨ x4.toNat = 2 ∨ x4.toNat = 3 := by omega
    all_goals
      rw [h]
      decide
  have hbit := flag_bit (1 < x4.toNat)
  rw [BitVec.toNat_add]
  omega

/-- Once a word is found the loop keeps it. -/
theorem bitLengthLoop_found {x : List Word} {n : Nat} (hn : n ≤ x.length) {tw : Word}
    (htw : tw ≠ 0) (twk : Word) : bitLengthLoop x n tw twk = some (tw, twk) := by
  induction n with
  | zero => rfl
  | succ n ih =>
    rw [bitLengthLoop, List.getElem?_eq_getElem hn, EQ_eq, flag_of_not htw]
    simp only [Option.bind_eq_bind, Option.bind_some, MUX_zero]
    exact ih (Nat.le_of_succ_le hn)

/-- The top word that is not zero, and its index. -/
theorem bitLengthLoop_eq (ws post : List Word) (t : Word) :
    (∃ k, ws = List.replicate k 0 ∧ bitLengthLoop (ws ++ post) ws.length 0 t =
        some (0, if k = 0 then t else 0)) ∨
      ∃ low top k, ws = low ++ top :: List.replicate k 0 ∧ top ≠ 0 ∧
        bitLengthLoop (ws ++ post) ws.length 0 t = some (top, BitVec.ofNat 32 low.length) := by
  induction ws using List.reverseRecOn generalizing post t with
  | nil => exact .inl ⟨0, rfl, rfl⟩
  | append_singleton ws w ih =>
    have hget : (ws ++ (w :: post))[ws.length]? = some w := getElem?_here ws w post
    have hstep : bitLengthLoop (ws ++ [w] ++ post) (ws ++ [w]).length 0 t =
        bitLengthLoop (ws ++ (w :: post)) ws.length w (BitVec.ofNat 32 ws.length) := by
      rw [List.length_append, List.length_singleton, List.append_assoc, List.singleton_append,
        bitLengthLoop, hget, EQ_eq, flag_of rfl]
      simp only [Option.bind_eq_bind, Option.bind_some, MUX_one]
    rw [hstep]
    by_cases hw : w = 0
    · subst hw
      obtain ⟨k, hws, hrun⟩ | ⟨low, top, k, hws, htop, hrun⟩ :=
        ih (0 :: post) (BitVec.ofNat 32 ws.length)
      · refine .inl ⟨k + 1, by rw [hws, List.replicate_succ'], ?_⟩
        rw [hrun, if_neg k.succ_ne_zero, hws, List.length_replicate]
        split
        · next hk =>
          rw [hk]
          rfl
        · rfl
      · refine .inr ⟨low, top, k + 1, ?_, htop, hrun⟩
        rw [hws, List.append_assoc, List.cons_append, List.replicate_succ']
    · refine .inr ⟨ws, w, 0, rfl, hw, ?_⟩
      exact bitLengthLoop_found (by rw [List.length_append]; omega) hw _

/-- **The announced length** of the words is the one of the integer without its leading zero
words, and exact. -/
theorem brI31BitLength_eq {ws : List Word} (hsmall : Small ws) (post : List Word)
    (hfits : 32 * ws.length + 94 < 2 ^ 32) :
    ∃ (h : Word) (y : I31 h) (k : Nat), brI31BitLength (ws ++ post) ws.length = some h ∧
      ws = y.words ++ List.replicate k 0 ∧ (y.value = 0 → h = 0) ∧ (0 < y.value → y.Exact) := by
  obtain ⟨k, hws, hrun⟩ | ⟨low, top, k, hws, htop, hrun⟩ := bitLengthLoop_eq ws post 0
  · have hzero : brI31BitLength (ws ++ post) ws.length = some 0 := by
      rw [brI31BitLength, hrun, ite_self]
      rfl
    refine ⟨0, ⟨[], rfl, Small.nil, by decide⟩, k, hzero, hws, fun _ => rfl, fun h => ?_⟩
    exact absurd h (lt_irrefl 0)
  · have hlen : low.length + 1 + k = ws.length := by
      rw [hws, List.length_append, List.length_cons, List.length_replicate]
      omega
    have htopsmall : top.toNat < 2 ^ 31 :=
      hsmall top (hws ▸ List.mem_append_right _ List.mem_cons_self)
    have htoppos : 0 < top.toNat :=
      Nat.pos_of_ne_zero fun h => htop (BitVec.eq_of_toNat_eq h)
    have hsize : Nat.size top.toNat ≤ 31 := Nat.size_le.mpr htopsmall
    have hsizepos : 0 < Nat.size top.toNat := Nat.size_pos.mpr htoppos
    obtain ⟨h, hh⟩ : ∃ h, h = (BitVec.ofNat 32 low.length <<< 5) + BIT_LENGTH top := ⟨_, rfl⟩
    have hnat : h.toNat = 32 * low.length + Nat.size top.toNat := by
      rw [hh, BitVec.toNat_add, BitVec.toNat_shiftLeft, BitVec.toNat_ofNat, toNat_BIT_LENGTH,
        Nat.shiftLeft_eq]
      omega
    have hroom : h.toNat + 63 < 2 ^ 32 := by omega
    have hcount : (low ++ [top]).length = wordCount h := by
      rw [wordCount_eq hroom, List.length_append, List.length_singleton]
      omega
    have hwords : Small (low ++ [top]) := by
      intro w hw
      refine hsmall w (hws ▸ ?_)
      simp only [List.mem_append, List.mem_cons] at hw ⊢
      tauto
    have hvalue : value (low ++ [top]) = value low + base ^ low.length * top.toNat := by
      rw [value_append, value_cons, value_nil, mul_zero, add_zero]
    have hlow := value_nonneg hwords.left
    have hlowlt := value_lt hwords.left
    have htoppow : base ^ low.length * 1 ≤ base ^ low.length * (top.toNat : ℤ) :=
      mul_le_mul_of_nonneg_left (by omega) (pow_pos base_pos _).le
    refine ⟨h, ⟨low ++ [top], hcount, hwords, hroom⟩, k, ?_, ?_, ?_, ?_⟩
    · rw [brI31BitLength, hrun, hh]
      rfl
    · rw [hws, List.append_assoc, List.singleton_append]
    · intro hzero
      have hpow := pow_pos base_pos low.length
      rw [I31.value] at hzero
      dsimp only at hzero
      omega
    · intro _
      have hbits : bitLength h = 31 * low.length + Nat.size top.toNat := by
        rw [bitLength, hnat]
        omega
      have hpow := pow_pos base_pos low.length
      have hlower : (2 : ℤ) ^ (Nat.size top.toNat - 1) ≤ top.toNat := by
        have := Nat.lt_size.mp (by omega : Nat.size top.toNat - 1 < Nat.size top.toNat)
        exact_mod_cast this
      have hupper : (top.toNat : ℤ) + 1 ≤ 2 ^ Nat.size top.toNat := by
        have := Nat.lt_size_self top.toNat
        exact_mod_cast this
      rw [I31.Exact, I31.value, hbits]
      dsimp only
      rw [hvalue]
      constructor
      · rw [show 31 * low.length + Nat.size top.toNat - 1 =
          31 * low.length + (Nat.size top.toNat - 1) by omega, pow_add, ← base_pow]
        have := mul_le_mul_of_nonneg_left hlower hpow.le
        omega
      · rw [pow_add, ← base_pow]
        have := mul_le_mul_of_nonneg_left hupper hpow.le
        rw [mul_add, mul_one] at this
        omega

/-! ## The function -/

/-- The number of words that `len` bytes fill. -/
def wordsOfBytes (len : Nat) : Nat := (8 * len + 30) / 31

theorem ofDigits_bytes (src : List Byte) (len : Nat) :
    Nat.ofDigits 256 ((src.take len).reverse.map BitVec.toNat) = exponent src len := rfl

/-- **Decoding.** The array holds the number in the first `len` bytes with its exact bit
length; the words that its leading zero bytes fill are cleared, and the words behind stay. -/
theorem brI31Decode_eq {src : List Byte} {len : Nat} (hlen : len ≤ src.length)
    (hfits : 32 * wordsOfBytes len + 94 < 2 ^ 32) (x0 : Word) {old : List Word}
    (hold : old.length = wordsOfBytes len) (rest : List Word) :
    ∃ (h : Word) (y : I31 h) (k : Nat),
      brI31Decode (x0 :: (old ++ rest)) src len =
        some (y.array (List.replicate k 0 ++ rest)) ∧
      y.value = exponent src len ∧ wordCount h + k = wordsOfBytes len ∧
      (y.value = 0 → h = 0) ∧ (0 < y.value → y.Exact) := by
  obtain ⟨hsmall, hacc, hroom, hcount, hvalue⟩ :=
    repack_eq (src.take len).reverse (by decide : (0 : Word).toNat < 2 ^ 0) (Nat.zero_le 30)
  have hnat : ((0 : Word).toNat : ℤ) = 0 := rfl
  rw [ofDigits_bytes, hnat, zero_add, pow_zero, one_mul] at hvalue
  rw [List.length_reverse, List.length_take_of_le hlen, Nat.zero_add] at hcount
  have hfit : (repack (src.take len).reverse 0 0).1.length ≤ (old ++ rest).length := by
    rw [List.length_append, hold, wordsOfBytes]
    omega
  have hloop := decodeLoop_eq hlen x0 [] (old ++ rest) 0 0 hfit
  generalize repack (src.take len).reverse 0 0 = r at *
  obtain ⟨ws, acc, accLen⟩ := r
  dsimp only at *
  -- the words of the loop and the last one
  obtain ⟨all, hall, hallsmall, hallvalue, hlast⟩ : ∃ all : List Word,
      all.length = wordsOfBytes len ∧ Small all ∧ value all = exponent src len ∧
      decodeLast ⟨x0 :: (ws ++ (old ++ rest).drop ws.length), ws.length + 1, acc, accLen⟩ =
        some (x0 :: (all ++ rest), all.length + 1) := by
    have hle : ws.length ≤ old.length := by
      rw [hold, wordsOfBytes]
      omega
    rw [List.drop_append_of_le_length hle]
    by_cases hend : accLen = 0
    · have hfull : ws.length = old.length := by
        rw [hold, wordsOfBytes]
        omega
      have hzero : acc = 0 := by
        rw [hend, pow_zero] at hacc
        exact BitVec.eq_of_toNat_eq (Nat.lt_one_iff.mp hacc)
      rw [hzero, hnat, mul_zero, add_zero] at hvalue
      refine ⟨ws, hfull.trans hold, hsmall, hvalue, ?_⟩
      rw [decodeLast, if_neg (not_not_intro hend), hfull, List.drop_length, List.nil_append]
    · have hone : (old.drop ws.length).length = 1 := by
        rw [List.length_drop, hold, wordsOfBytes]
        omega
      obtain ⟨o, ho⟩ := List.length_eq_one_iff.mp hone
      have hset := setWord_here (x0 :: ws) o acc rest
      rw [List.length_cons, List.cons_append, List.cons_append] at hset
      refine ⟨ws ++ [acc], ?_, hsmall.append (Small.nil.cons ?_), ?_, ?_⟩
      · rw [List.length_append, List.length_singleton, wordsOfBytes]
        omega
      · exact hacc.trans_le (Nat.pow_le_pow_right two_pos (by omega))
      · rw [← hvalue, value_append, value_cons, value_nil, mul_zero, add_zero]
      · rw [decodeLast, if_pos hend, ho, List.singleton_append, hset, Option.map_some,
          List.length_append, List.length_singleton, List.append_assoc, List.singleton_append]
  obtain ⟨h, y, k, hbits, hwords, hzero, hexact⟩ :=
    brI31BitLength_eq hallsmall rest (hall ▸ hfits)
  refine ⟨h, y, k, ?_, ?_, ?_, hzero, hexact⟩
  · simp only [List.nil_append, List.length_nil, Nat.zero_add] at hloop
    simp only [brI31Decode, hloop, hlast, Option.bind_eq_bind, Option.bind_some, List.drop_one,
      List.tail_cons, Nat.add_sub_cancel, hbits]
    rw [setWord, if_pos (by simp), List.set_cons_zero, I31.array, hwords, List.append_assoc]
  · rw [← hallvalue, hwords, value_append, value_replicate, mul_zero, add_zero]
    rfl
  · rw [← hall, hwords, List.length_append, y.length_eq, List.length_replicate]

end MicroSampler.BearSSL
