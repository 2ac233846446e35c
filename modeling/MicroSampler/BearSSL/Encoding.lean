import MicroSampler.BearSSL.Decoding

/-!
# Bytes from integers: `br_i31_encode`

The words pass through an accumulator that gives off four bytes whenever it holds 32 bits,
from the end of the destination on; what is behind the words is zero, and what does not fit
is dropped. Encoding undoes `br_i31_decode`, and decoding undoes an encoding that is long
enough.
-/

namespace MicroSampler.BearSSL

open Limbs

/-! ## The function -/

/-- `br_enc32be` at `dst + i`. -/
def brEnc32be (dst : List Byte) (i : Nat) (x : Word) : Option (List Byte) :=
  if i + 4 ≤ dst.length then
    some ((((dst.set i ((x >>> 24).setWidth 8)).set (i + 1) ((x >>> 16).setWidth 8)).set (i + 2)
      ((x >>> 8).setWidth 8)).set (i + 3) (x.setWidth 8))
  else none

/-- The `switch` for the last bytes, `buf` being at `dst + len`. -/
def encodeLast (dst : List Byte) (len : Nat) (z : Word) : Option (List Byte) :=
  if len ≤ dst.length then
    match len with
    | 3 => some (((dst.set 0 ((z >>> 16).setWidth 8)).set 1 ((z >>> 8).setWidth 8)).set 2
        (z.setWidth 8))
    | 2 => some ((dst.set 0 ((z >>> 8).setWidth 8)).set 1 (z.setWidth 8))
    | 1 => some (dst.set 0 (z.setWidth 8))
    | _ => some dst
  else none

/-- What the loop of `br_i31_encode` works on. `buf` is at `dst + len`. -/
structure Encoder where
  dst : List Byte
  len : Nat
  k : Nat
  acc : Word
  accLen : Nat

/-- `(k <= xlen) ? x[k] : 0`. -/
def wordAt (x : List Word) (xlen k : Nat) : Option Word := if k ≤ xlen then x[k]? else some 0

/-- The loop over the words; it ends when all bytes are written. -/
def encodeLoop (x : List Word) (xlen : Nat) : (fuel : Nat) → Encoder → Option (List Byte)
  | fuel, s =>
    if s.len ≠ 0 then
      match fuel with
      | 0 => none
      | fuel + 1 => do
        let w ← wordAt x xlen s.k
        if s.accLen = 0 then
          encodeLoop x xlen fuel { s with k := s.k + 1, acc := w, accLen := 31 }
        else
          let z := s.acc ||| (w <<< s.accLen)
          let accLen := s.accLen - 1
          let acc := w >>> (31 - accLen)
          if 4 ≤ s.len then do
            let dst ← brEnc32be s.dst (s.len - 4) z
            encodeLoop x xlen fuel ⟨dst, s.len - 4, s.k + 1, acc, accLen⟩
          else encodeLast s.dst s.len z
    else some s.dst

/-- Every other pass writes at least one byte. -/
def brI31Encode (dst : List Byte) (len : Nat) (x : List Word) : Option (List Byte) := do
  let h ← x[0]?
  let xlen := ((h + 31) >>> 5).toNat
  if xlen = 0 then
    if len ≤ dst.length then some (List.replicate len 0 ++ dst.drop len) else none
  else encodeLoop x xlen (2 * len) ⟨dst, len, 1, 0, 0⟩

/-! ## Numbers in bytes -/

/-- The number in the bytes, most significant first. -/
def number (bs : List Byte) : Nat := Nat.ofDigits 256 (bs.reverse.map BitVec.toNat)

theorem exponent_eq_number (e : List Byte) (elen : Nat) :
    exponent e elen = number (e.take elen) := rfl

@[simp] theorem number_nil : number [] = 0 := rfl

theorem number_append (xs ys : List Byte) :
    number (xs ++ ys) = number xs * 256 ^ ys.length + number ys := by
  rw [number, List.reverse_append, List.map_append, Nat.ofDigits_append, List.length_map,
    List.length_reverse, add_comm, mul_comm]
  rfl

theorem number_cons (b : Byte) (bs : List Byte) :
    number (b :: bs) = b.toNat * 256 ^ bs.length + number bs := by
  have hone : number [b] = b.toNat := Nat.ofDigits_singleton
  rw [← List.singleton_append, number_append, hone]

theorem number_replicate (n : Nat) : number (List.replicate n 0) = 0 := by
  induction n with
  | zero => rfl
  | succ n ih =>
    rw [List.replicate_succ, number_cons, ih]
    exact Nat.zero_mul _

theorem number_lt (bs : List Byte) : number bs < 256 ^ bs.length := by
  have hlt := exponent_lt (Nat.le_refl bs.length)
  rw [exponent_eq_number, List.take_length, mul_comm, pow_mul] at hlt
  exact hlt

theorem number_inj {xs ys : List Byte} (hlen : xs.length = ys.length)
    (h : number xs = number ys) : xs = ys := by
  have hx : exponent xs xs.length = number xs := by rw [exponent_eq_number, List.take_length]
  have hy : exponent ys xs.length = number ys := by
    rw [exponent_eq_number, hlen, List.take_length]
  have htake := exponent_inj (Nat.le_refl _) hlen.le (hx.trans (h.trans hy.symm))
  rwa [List.take_length, hlen, List.take_length] at htake

/-! ## The writes -/

/-- The low `n` bytes of a word, most significant first. -/
def bytesBe (z : Word) : (n : Nat) → List Byte
  | 0 => []
  | n + 1 => (z >>> (8 * n)).setWidth 8 :: bytesBe z n

@[simp] theorem length_bytesBe (z : Word) (n : Nat) : (bytesBe z n).length = n := by
  induction n with
  | zero => rfl
  | succ n ih => rw [bytesBe, List.length_cons, ih]

theorem number_bytesBe (z : Word) (n : Nat) : number (bytesBe z n) = z.toNat % 256 ^ n := by
  induction n with
  | zero => rw [pow_zero, Nat.mod_one, bytesBe, number_nil]
  | succ n ih =>
    have hpow : 2 ^ (8 * n) = 256 ^ n := pow_mul 2 8 n
    rw [bytesBe, number_cons, ih, length_bytesBe, BitVec.toNat_setWidth, BitVec.toNat_ushiftRight,
      Nat.shiftRight_eq_div_pow, hpow, add_comm, mul_comm]
    exact Nat.mod_pow_succ.symm

theorem brEnc32be_eq {dst : List Byte} {i : Nat} (hi : i + 4 ≤ dst.length) (z : Word) :
    brEnc32be dst i z = some (dst.take i ++ (bytesBe z 4 ++ dst.drop (i + 4))) := by
  obtain ⟨front, back, hdst, hfront⟩ : ∃ front back, dst = front ++ back ∧ front.length = i :=
    ⟨dst.take i, dst.drop i, (List.take_append_drop i dst).symm, List.length_take_of_le (by omega)⟩
  subst hdst hfront
  rw [List.length_append, Nat.add_le_add_iff_left] at hi
  rw [brEnc32be, if_pos (by rw [List.length_append]; omega), List.take_left, ← List.drop_drop,
    List.drop_left]
  obtain _ | ⟨a, _ | ⟨b, _ | ⟨c, _ | ⟨d, post⟩⟩⟩⟩ := back
  iterate 4 exact absurd hi (by simp)
  simp [bytesBe, List.set_append_right]

theorem encodeLast_eq {dst : List Byte} {len : Nat} (hpos : 0 < len) (hlt : len < 4)
    (hlen : len ≤ dst.length) (z : Word) :
    encodeLast dst len z = some (bytesBe z len ++ dst.drop len) := by
  obtain rfl | rfl | rfl : len = 1 ∨ len = 2 ∨ len = 3 := by omega
  · obtain _ | ⟨a, post⟩ := dst
    · exact absurd hlen (by simp)
    · simp [encodeLast, bytesBe]
  · obtain _ | ⟨a, _ | ⟨b, post⟩⟩ := dst
    iterate 2 exact absurd hlen (by simp)
    simp [encodeLast, bytesBe]
  · obtain _ | ⟨a, _ | ⟨b, _ | ⟨c, post⟩⟩⟩ := dst
    iterate 3 exact absurd hlen (by simp)
    simp [encodeLast, bytesBe]

/-! ## The loop -/

/-- The word at index `k + 1`, zero behind the integer. -/
theorem wordAt_eq {h : Word} (x : I31 h) (rest : List Word) (k : Nat) :
    ∃ w : Word, wordAt (x.array rest) (wordCount h) (k + 1) = some w ∧ w.toNat < 2 ^ 31 ∧
      value (x.words.drop k) = w.toNat + base * value (x.words.drop (k + 1)) := by
  by_cases hk : k < x.words.length
  · refine ⟨x.words[k], ?_, x.small _ (List.getElem_mem hk), ?_⟩
    · rw [wordAt, if_pos (x.length_eq ▸ hk), I31.array, List.getElem?_cons_succ,
        List.getElem?_append_left hk, List.getElem?_eq_getElem hk]
    · rw [List.drop_eq_getElem_cons hk, value_cons]
  · rw [not_lt] at hk
    have hbehind : ¬ k + 1 ≤ wordCount h := by
      rw [← x.length_eq]
      omega
    refine ⟨0, if_neg hbehind, by decide, ?_⟩
    rw [List.drop_eq_nil_of_le hk, List.drop_eq_nil_of_le (by omega), value_nil, mul_zero]
    rfl

/-- What the accumulator and the words from index `k + 1` on hold. -/
def Encoder.pending {h : Word} (x : I31 h) (k : Nat) (acc : Word) (accLen : Nat) : ℤ :=
  acc.toNat + 2 ^ accLen * value (x.words.drop k)

/-- A word that is read: its low bits complete 32, the others stay. -/
theorem pending_emit {h : Word} (x : I31 h) {k : Nat} {acc w : Word} {accLen : Nat}
    (hacc : acc.toNat < 2 ^ (accLen + 1)) (hlen : accLen + 1 ≤ 31) (hw : w.toNat < 2 ^ 31)
    (hvalue : value (x.words.drop k) = w.toNat + base * value (x.words.drop (k + 1))) :
    (w >>> (31 - accLen)).toNat < 2 ^ accLen ∧
      Encoder.pending x k acc (accLen + 1) = (acc ||| (w <<< (accLen + 1))).toNat +
        2 ^ 32 * Encoder.pending x (k + 1) (w >>> (31 - accLen)) accLen := by
  have hz := toNat_push hacc (by omega) w
  have hspill := @toNat_spill acc (accLen + 1) 32 hacc (by omega) w
  rw [Nat.succ_sub_succ] at hspill
  have hpow : 2 ^ (accLen + 1) = 2 ^ accLen * 2 := pow_succ 2 accLen
  constructor
  · rw [hspill, Nat.div_lt_iff_lt_mul (by decide)]
    calc acc.toNat + 2 ^ (accLen + 1) * w.toNat
        < 2 ^ (accLen + 1) + 2 ^ (accLen + 1) * w.toNat := Nat.add_lt_add_right hacc _
      _ = 2 ^ (accLen + 1) * (w.toNat + 1) := by rw [Nat.mul_succ, add_comm]
      _ ≤ 2 ^ (accLen + 1) * 2 ^ 31 := Nat.mul_le_mul_left _ hw
      _ = 2 ^ accLen * 2 ^ 32 := by rw [hpow, mul_assoc, ← pow_succ']
  · have hsplit : ((acc ||| (w <<< (accLen + 1))).toNat : ℤ) +
        2 ^ 32 * (w >>> (31 - accLen)).toNat = acc.toNat + 2 ^ (accLen + 1) * w.toNat := by
      rw [hz, hspill]
      exact_mod_cast Nat.mod_add_div (acc.toNat + 2 ^ (accLen + 1) * w.toNat) (2 ^ 32)
    rw [Encoder.pending, Encoder.pending, hvalue, base]
    linear_combination -hsplit

/-- Four bytes in front of the ones that are written: the number modulo a power of 256. -/
theorem emod_emit (z p : ℤ) {len : Nat} (hlen : 4 ≤ len) (hz : 0 ≤ z) (hlt : z < 2 ^ 32) :
    p % 256 ^ (len - 4) * 256 ^ 4 + z = (z + 2 ^ 32 * p) % 256 ^ len := by
  have h32 : (256 : ℤ) ^ 4 = 2 ^ 32 := by norm_num
  have hpow : (256 : ℤ) ^ len = 256 ^ (len - 4) * 2 ^ 32 := by
    rw [← h32, ← pow_add, Nat.sub_add_cancel hlen]
  have hN : (0 : ℤ) < 256 ^ (len - 4) := pow_pos (by decide) _
  rw [hpow, h32]
  generalize (256 : ℤ) ^ (len - 4) = N at *
  have hsplit : z + 2 ^ 32 * p = p % N * 2 ^ 32 + z + N * 2 ^ 32 * (p / N) := by
    linear_combination -(2 ^ 32) * Int.emod_add_mul_ediv p N
  have hpos := Int.emod_nonneg p hN.ne'
  have hlt' := Int.emod_lt_of_pos p hN
  have hlow : (p % N * 2 ^ 32 + z) % (N * 2 ^ 32) = p % N * 2 ^ 32 + z :=
    Int.emod_eq_of_lt (by omega) (by omega)
  rw [hsplit, Int.add_mul_emod_self_left, hlow]

/-- **The loop** writes the low bytes of what the accumulator and the words hold. -/
theorem encodeLoop_eq {h : Word} (x : I31 h) (rest : List Word) {fuel : Nat} {dst : List Byte}
    {len k accLen : Nat} {acc : Word} (hacc : acc.toNat < 2 ^ accLen) (hroom : accLen ≤ 31)
    (hlen : len ≤ dst.length) (hfuel : 2 * len ≤ fuel + min accLen 1) :
    ∃ front, encodeLoop (x.array rest) (wordCount h) fuel ⟨dst, len, k + 1, acc, accLen⟩ =
        some (front ++ dst.drop len) ∧ front.length = len ∧
      (number front : ℤ) = Encoder.pending x k acc accLen % 256 ^ len := by
  induction fuel generalizing dst len k accLen acc with
  | zero =>
    obtain rfl : len = 0 := by omega
    refine ⟨[], ?_, rfl, ?_⟩
    · simp [encodeLoop]
    · rw [pow_zero, Int.emod_one]
      rfl
  | succ fuel ih =>
    by_cases hend : len = 0
    · subst hend
      refine ⟨[], ?_, rfl, ?_⟩
      · simp [encodeLoop]
      · rw [pow_zero, Int.emod_one]
        rfl
    obtain ⟨w, hget, hw, hvalue⟩ := wordAt_eq x rest k
    rw [encodeLoop]
    simp only [ne_eq, hend, not_false_eq_true, if_true, hget, Option.bind_eq_bind, Option.bind_some]
    cases accLen with
    | zero =>
      -- the accumulator is filled
      obtain ⟨front, hrun, hfront, hnumber⟩ := @ih dst len (k + 1) 31 w hw (Nat.le_refl 31) hlen
        (by omega)
      refine ⟨front, by rw [if_pos rfl, hrun], hfront, ?_⟩
      rw [hnumber, Encoder.pending, Encoder.pending, hvalue, pow_zero, one_mul]
      rw [pow_zero, Nat.lt_one_iff] at hacc
      rw [hacc, Nat.cast_zero, zero_add]
      rfl
    | succ accLen =>
      obtain ⟨hspill, hpending⟩ := pending_emit x hacc hroom hw hvalue
      have hz := (acc ||| (w <<< (accLen + 1))).isLt
      rw [if_neg (Nat.succ_ne_zero _), Nat.add_sub_cancel]
      by_cases hfour : 4 ≤ len
      · have hwrite := @brEnc32be_eq dst (len - 4) (by omega) (acc ||| (w <<< (accLen + 1)))
        rw [Nat.sub_add_cancel hfour] at hwrite
        rw [if_pos hfour, hwrite, Option.bind_some]
        have htake : (dst.take (len - 4)).length = len - 4 := List.length_take_of_le (by omega)
        obtain ⟨front, hrun, hfront, hnumber⟩ := @ih (dst.take (len - 4) ++
          (bytesBe (acc ||| (w <<< (accLen + 1))) 4 ++ dst.drop len)) (len - 4) (k + 1) accLen
          (w >>> (31 - accLen)) hspill (by omega) (by rw [List.length_append]; omega) (by omega)
        rw [List.drop_left' htake] at hrun
        refine ⟨front ++ bytesBe (acc ||| (w <<< (accLen + 1))) 4, ?_, ?_, ?_⟩
        · rw [hrun, List.append_assoc]
        · rw [List.length_append, length_bytesBe, hfront, Nat.sub_add_cancel hfour]
        · rw [number_append, number_bytesBe, length_bytesBe, hpending,
            ← emod_emit _ _ hfour (Int.natCast_nonneg _) (by exact_mod_cast hz), ← hnumber,
            Nat.mod_eq_of_lt (show _ < 256 ^ 4 from hz)]
          push_cast
          rfl
      · rw [if_neg hfour, encodeLast_eq (by omega) (by omega) hlen]
        refine ⟨_, rfl, length_bytesBe _ _, ?_⟩
        have hpow : (2 : ℤ) ^ 32 = 256 ^ len * 256 ^ (4 - len) := by
          rw [← pow_add, Nat.add_sub_cancel' (by omega)]
          norm_num
        rw [number_bytesBe, hpending, hpow, mul_assoc, Int.add_mul_emod_self_left]
        push_cast
        rfl

/-! ## The function -/

/-- **Encoding.** The first `len` bytes hold the integer modulo a power of 256, most
significant byte first, and the bytes behind stay. -/
theorem brI31Encode_eq {h : Word} (x : I31 h) (rest : List Word) {dst : List Byte} {len : Nat}
    (hlen : len ≤ dst.length) :
    ∃ front, brI31Encode dst len (x.array rest) = some (front ++ dst.drop len) ∧
      front.length = len ∧ (number front : ℤ) = x.value % 256 ^ len := by
  have hhead : (x.array rest)[0]? = some h := rfl
  simp only [brI31Encode, hhead, Option.bind_eq_bind, Option.bind_some, ← wordCount.eq_1]
  by_cases hzero : wordCount h = 0
  · have hwords : x.words = [] := List.eq_nil_of_length_eq_zero (x.length_eq.trans hzero)
    refine ⟨List.replicate len 0, ?_, List.length_replicate, ?_⟩
    · rw [if_pos hzero, if_pos hlen]
    · rw [number_replicate, I31.value, hwords, value_nil, Int.zero_emod]
      rfl
  · rw [if_neg hzero]
    obtain ⟨front, hrun, hfront, hnumber⟩ := @encodeLoop_eq h x rest (2 * len) dst len 0 0 0
      Nat.one_pos (by omega) hlen (by omega)
    refine ⟨front, hrun, hfront, ?_⟩
    rw [hnumber, Encoder.pending, pow_zero, one_mul, List.drop_zero]
    exact congrArg (· % _) (zero_add x.value)

/-- The last `n` bytes of a number that has zero bytes in front of it. -/
theorem number_padded (bs : List Byte) (n : Nat) :
    number ((List.replicate n 0 ++ bs).drop bs.length) = number bs % 256 ^ n := by
  have hsplit := List.take_append_drop bs.length (List.replicate n 0 ++ bs)
  have hlast : ((List.replicate n 0 ++ bs).drop bs.length).length = n := by simp
  have hnumber : number (List.replicate n 0 ++ bs) = number bs := by
    rw [number_append, number_replicate, zero_mul, zero_add]
  have hlt := number_lt ((List.replicate n 0 ++ bs).drop bs.length)
  rw [← hsplit, number_append, hlast] at hnumber
  rw [hlast] at hlt
  rw [← hnumber, mul_comm, Nat.mul_add_mod, Nat.mod_eq_of_lt hlt]

/-- **Encoding undoes decoding.** Bytes that are decoded and encoded into `n` bytes are the
last `n` of them, with zero bytes in front where there are not so many. -/
theorem brI31Encode_decode {src : List Byte} {len : Nat} (hlen : len ≤ src.length)
    (hfits : 32 * wordsOfBytes len + 94 < 2 ^ 32) (x0 : Word) {old : List Word}
    (hold : old.length = wordsOfBytes len) (rest : List Word) :
    ∃ x, brI31Decode (x0 :: (old ++ rest)) src len = some x ∧
      ∀ (dst : List Byte) (n : Nat), n ≤ dst.length → brI31Encode dst n x =
        some ((List.replicate n 0 ++ src.take len).drop len ++ dst.drop n) := by
  obtain ⟨h, y, k, hdecode, hvalue, -⟩ := brI31Decode_eq hlen hfits x0 hold rest
  refine ⟨_, hdecode, fun dst n hn => ?_⟩
  obtain ⟨front, hencode, hfront, hnumber⟩ := brI31Encode_eq y (List.replicate k 0 ++ rest) hn
  have htake : (src.take len).length = len := List.length_take_of_le hlen
  have hpadded := number_padded (src.take len) n
  rw [htake] at hpadded
  have hsame : front = (List.replicate n 0 ++ src.take len).drop len := by
    refine number_inj ?_ ?_
    · rw [hfront, List.length_drop, List.length_append, List.length_replicate, htake,
        Nat.add_sub_cancel]
    · rw [hpadded, ← exponent_eq_number]
      rw [hvalue] at hnumber
      exact_mod_cast hnumber
  rw [hencode, hsame]

theorem brI31Encode_decode_five :
    ∃ x, brI31Decode [9, 8, 7, 6] [0, 255, 254, 253, 252] 5 = some x ∧
      ∀ (dst : List Byte) (n : Nat), n ≤ dst.length → brI31Encode dst n x =
        some ((List.replicate n (0 : Byte) ++ [0, 255, 254, 253, 252]).drop 5 ++ dst.drop n) :=
  @brI31Encode_decode [0, 255, 254, 253, 252] 5 (by decide) (by decide) 9 [8, 7] rfl [6]

/-- **Decoding undoes encoding** into enough bytes: the value comes back, with an exact bit
length. -/
theorem brI31Decode_encode {h : Word} (x : I31 h) (xrest : List Word) {dst : List Byte}
    {len : Nat} (hlen : len ≤ dst.length) (hroom : x.value < 256 ^ len)
    (hfits : 32 * wordsOfBytes len + 94 < 2 ^ 32) (x0 : Word) {old : List Word}
    (hold : old.length = wordsOfBytes len) (rest : List Word) :
    ∃ bytes, brI31Encode dst len (x.array xrest) = some bytes ∧
      ∃ (h' : Word) (y : I31 h') (rest' : List Word),
        brI31Decode (x0 :: (old ++ rest)) bytes len = some (y.array rest') ∧
        y.value = x.value ∧ (0 < y.value → y.Exact) := by
  obtain ⟨front, hencode, hfront, hnumber⟩ := brI31Encode_eq x xrest hlen
  have hbytes : len ≤ (front ++ dst.drop len).length := by
    rw [List.length_append, hfront]
    omega
  obtain ⟨h', y, k, hdecode, hvalue, -, -, hexact⟩ := brI31Decode_eq hbytes hfits x0 hold rest
  refine ⟨_, hencode, h', y, _, hdecode, ?_, hexact⟩
  rw [hvalue, exponent_eq_number, List.take_left' hfront, hnumber,
    Int.emod_eq_of_lt x.value_nonneg hroom]

end MicroSampler.BearSSL
