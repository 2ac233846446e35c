import MicroSampler.BearSSL.Division
import MicroSampler.BearSSL.Montgomery

/-!
# Shifting in a word: `br_i31_muladd_small`

`br_i31_muladd_small` replaces `x` by `x * 2^31 + z` modulo `m`. A modulus of one word is
divided directly. Otherwise the quotient is estimated from the leading 31 bits of `x` and
`m`, that multiple of `m` is subtracted, and what the estimate was off by is corrected with
one addition or one subtraction.
-/

namespace MicroSampler.BearSSL

open Limbs Division

/-- `memmove(x + dst, x + src, len * sizeof *x)`. -/
def memmoveWords (x : List Word) (dst src len : Nat) : Option (List Word) :=
  if dst + len ≤ x.length ∧ src + len ≤ x.length then
    some (x.take dst ++ (x.drop src).take len ++ x.drop (dst + len))
  else none

/-- The leading 31 bits, as both branches on `mblr` read them. -/
def leading (x : List Word) (mlen mblr : Nat) : Option Word :=
  if mblr = 0 then x[mlen]?
  else do
    let hi ← x[mlen]?
    let lo ← x[mlen - 1]?
    pure (((hi <<< (31 - mblr)) ||| (lo >>> mblr)) &&& 0x7FFFFFFF)

/-- What the subtraction loop rewrites. -/
structure SubtractState where
  x : List Word
  cc : Word
  tb : Word
  deriving DecidableEq

/-- The loop that subtracts `q * m`, from index `u` on. -/
def subtractLoop (m : List Word) (q : Word) :
    (n u : Nat) → SubtractState → Option SubtractState
  | 0, _, s => some s
  | n + 1, u, s => do
    let mw ← m[u]?
    let xw ← s.x[u]?
    let zl := MUL31 mw q + s.cc.setWidth 64
    let cc := (zl >>> 31).setWidth 32
    let zw := zl.setWidth 32 &&& 0x7FFFFFFF
    let nxw := xw - zw
    let cc := cc + nxw >>> 31
    let nxw := nxw &&& 0x7FFFFFFF
    subtractLoop m q n (u + 1) ⟨s.x.set u nxw, cc, MUX (EQ nxw mw) s.tb (GT nxw mw)⟩

def brI31MuladdSmall (x : List Word) (z : Word) (m : List Word) : Option (List Word) := do
  let mBitlen ← m[0]?
  if mBitlen = 0 then
    pure x
  else if mBitlen.toNat ≤ 31 then do
    let x1 ← x[1]?
    let m1 ← m[1]?
    let hi := x1 >>> 1
    let lo := (x1 <<< 31) ||| z
    pure (x.set 1 (brRem hi lo m1))
  else do
    let mlen := ((mBitlen + 31) >>> 5).toNat
    let mblr := (mBitlen &&& 31).toNat
    let hi ← x[mlen]?
    let a0 ← leading x mlen mblr
    let x ← memmoveWords x 2 1 (mlen - 1)
    let x := x.set 1 z
    let a1 ← leading x mlen mblr
    let b0 ← leading m mlen mblr
    let g := brDiv (a0 >>> 1) (a1 ||| (a0 <<< 31)) b0
    let q := MUX (EQ a0 b0) 0x7FFFFFFF (MUX (EQ g 0) 0 (g - 1))
    let s ← subtractLoop m q mlen 1 ⟨x, 0, 1⟩
    let overshoot := GT s.cc hi
    let under := ~~~overshoot &&& (s.tb ||| LT s.cc hi)
    let t ← brI31Add s.x m overshoot
    let t ← brI31Sub t.1 m under
    pure t.1

/-! ## Subtracting a multiple -/

/-- One pass of the loop is a column whose carry is negative. -/
theorem subtract_column {mw xw q cc : Word} (hm : mw.toNat < 2 ^ 31) (hx : xw.toNat < 2 ^ 31)
    (hq : q.toNat < 2 ^ 31) (hcc : cc.toNat ≤ 2 ^ 31) :
    let zl := MUL31 mw q + cc.setWidth 64
    let nxw := xw - (zl.setWidth 32 &&& 0x7FFFFFFF)
    let cc' := (zl >>> 31).setWidth 32 + nxw >>> 31
    ((nxw &&& 0x7FFFFFFF).toNat : ℤ) = (xw.toNat - q.toNat * mw.toNat - cc.toNat) % base ∧
      -(cc'.toNat : ℤ) = (xw.toNat - q.toNat * mw.toNat - cc.toNat) / base ∧
      cc'.toNat ≤ 2 ^ 31 := by
  intro zl nxw cc'
  have hprod : mw.toNat * q.toNat ≤ (2 ^ 31 - 1) * (2 ^ 31 - 1) :=
    Nat.mul_le_mul (by omega) (by omega)
  have hzl : zl.toNat = mw.toNat * q.toNat + cc.toNat := by
    rw [BitVec.toNat_add, MUL31, BitVec.toNat_mul, BitVec.toNat_setWidth, BitVec.toNat_setWidth,
      BitVec.toNat_setWidth]
    generalize hp : mw.toNat * q.toNat = p at hprod
    have hmw : mw.toNat % 2 ^ 64 = mw.toNat := by omega
    have hqw : q.toNat % 2 ^ 64 = q.toNat := by omega
    rw [hmw, hqw, hp]
    omega
  have hzw : (zl.setWidth 32 &&& 0x7FFFFFFF : Word).toNat = zl.toNat % 2 ^ 31 := toNat_low zl
  have hzh : ((zl >>> 31).setWidth 32 : Word).toNat = zl.toNat / 2 ^ 31 := by
    rw [BitVec.toNat_setWidth, toNat_high, hzl]
    generalize mw.toNat * q.toNat = p at hprod
    omega
  have hnxw : nxw.toNat = (2 ^ 32 - zl.toNat % 2 ^ 31 + xw.toNat) % 2 ^ 32 := by
    rw [BitVec.toNat_sub, hzw]
  have hborrow : (nxw >>> 31).toNat = nxw.toNat / 2 ^ 31 := toNat_carry nxw
  have hcc' : cc'.toNat = zl.toNat / 2 ^ 31 + nxw.toNat / 2 ^ 31 := by
    rw [BitVec.toNat_add, hzh, hborrow, hzl]
    have := nxw.isLt
    generalize mw.toNat * q.toNat = p at hprod
    omega
  have hmul : (q.toNat * mw.toNat : ℤ) = (mw.toNat * q.toNat : Nat) := by
    push_cast
    ring
  rw [toNat_mask, hcc', hmul, hnxw, hzl, base_eq]
  generalize mw.toNat * q.toNat = p at hprod
  refine ⟨by omega, by omega, by omega⟩

/-- **The subtraction as a row of columns**, with the comparison of the difference and `m`
kept on the way. -/
theorem subtractLoop_eq {q : Word} (hq : q.toNat < 2 ^ 31) {xs ms : List Word} (hx : Small xs)
    (hm : Small ms) (hlen : ms.length = xs.length) (pre prem : List Word)
    (hpre : prem.length = pre.length) (post postm : List Word) {cc : Word}
    (hcc : cc.toNat ≤ 2 ^ 31) (tb : Bool) :
    ∃ out cc', subtractLoop (prem ++ (ms ++ postm)) q xs.length pre.length
        ⟨pre ++ (xs ++ post), cc, flag tb⟩ =
          some ⟨pre ++ (out ++ post), cc', flag (exceeds tb (ints out) (ints ms))⟩ ∧
      out.length = xs.length ∧ Small out ∧
      (ints out, -(cc'.toNat : ℤ)) = normalise base (-cc.toNat)
        (List.zipWith (fun x m => x + -(q.toNat : ℤ) * m) (ints xs) (ints ms)) := by
  induction xs generalizing ms pre prem cc tb with
  | nil =>
    have hms : ms = [] := List.length_eq_zero_iff.mp hlen
    refine ⟨[], cc, ?_, rfl, Small.nil, by simp [hms, normalise]⟩
    simp [subtractLoop, hms, exceeds]
  | cons xw xs ih =>
    obtain ⟨mw, ms, rfl⟩ := List.exists_cons_of_length_eq_add_one hlen
    obtain ⟨hdigit, hcarry, hcc'⟩ := subtract_column hm.head hx.head hq hcc
    generalize hnxw : xw - ((MUL31 mw q + cc.setWidth 64).setWidth 32 &&& 0x7FFFFFFF) = nxw
      at hdigit hcarry hcc'
    generalize hccdef : ((MUL31 mw q + cc.setWidth 64) >>> 31).setWidth 32 + nxw >>> 31 = cc1
      at hcarry hcc'
    have hsmall : (nxw &&& 0x7FFFFFFF).toNat < 2 ^ 31 := by
      rw [toNat_mask]
      exact Nat.mod_lt _ (by decide)
    generalize hword : nxw &&& 0x7FFFFFFF = w at hdigit hsmall
    obtain ⟨out, cc', hrun, hout, hsmallout, hnorm⟩ := ih hx.tail hm.tail (Nat.succ.inj hlen)
      (pre ++ [w]) (prem ++ [mw]) (by simp [hpre]) hcc'
      (if (w.toNat : ℤ) = mw.toNat then tb else decide ((mw.toNat : ℤ) < w.toNat))
    refine ⟨w :: out, cc', ?_, by simp [hout], hsmallout.cons hsmall, ?_⟩
    · have htb : MUX (EQ w mw) (flag tb) (GT w mw) =
          flag (if (w.toNat : ℤ) = mw.toNat then tb else decide ((mw.toNat : ℤ) < w.toNat)) := by
        rw [EQ_eq, MUX_flag, GT_eq]
        have heq : w = mw ↔ (w.toNat : ℤ) = mw.toNat := by
          rw [Nat.cast_inj, BitVec.toNat_inj]
        by_cases h : w = mw
        · simp only [if_pos h, if_pos (heq.mp h)]
        · simp only [if_neg h, if_neg (fun hc => h (heq.mpr hc))]
          apply flag_congr
          simp
      have hgetm : (prem ++ mw :: (ms ++ postm))[pre.length]? = some mw :=
        hpre ▸ getElem?_here prem mw (ms ++ postm)
      rw [List.length_append, List.length_singleton, List.append_assoc, List.append_assoc,
        List.append_assoc, List.singleton_append, List.singleton_append,
        List.singleton_append] at hrun
      simp only [List.cons_append, List.length_cons, subtractLoop, hgetm,
        getElem?_here pre xw, Option.bind_eq_bind, Option.bind_some, hnxw, hccdef, hword, htb,
        set_here, ints_cons, exceeds]
      exact hrun
    · have hsub : (xw.toNat : ℤ) + -(q.toNat : ℤ) * mw.toNat + -cc.toNat =
          xw.toNat - q.toNat * mw.toNat - cc.toNat := by ring
      rw [hcarry] at hnorm
      simp only [ints_cons, List.zipWith_cons_cons, normalise, hsub, ← hnorm, hdigit]

/-- The loop on two integers of one announced bit length. -/
theorem subtractLoop_value {h : Word} (x m : I31 h) (rx rm : List Word) {q : Word}
    (hq : q.toNat < 2 ^ 31) :
    ∃ (d : I31 h) (cc : Word) (tb : Bool),
      subtractLoop (m.array rm) q (wordCount h) 1 ⟨x.array rx, 0, 1⟩ =
          some ⟨d.array rx, cc, flag tb⟩ ∧
        x.value - q.toNat * m.value = d.value - base ^ wordCount h * cc.toNat ∧
        (tb = true ↔ m.value ≤ d.value) := by
  have hlen : m.words.length = x.words.length := m.length_eq.trans x.length_eq.symm
  obtain ⟨out, cc, hrun, hout, hsmall, hnorm⟩ := subtractLoop_eq hq x.small m.small hlen
    [h] [h] rfl rx rm (by decide : (0 : Word).toNat ≤ 2 ^ 31) true
  have hxv : eval base (ints x.words) = x.value := rfl
  have hmv : eval base (ints m.words) = m.value := rfl
  refine ⟨⟨out, hout.trans x.length_eq, hsmall, m.fits⟩, cc,
    exceeds true (ints out) (ints m.words), ?_, ?_, ?_⟩
  · rw [x.length_eq] at hrun
    exact hrun
  · have hzero : (-((0 : Word).toNat : ℤ)) = 0 := rfl
    have hsum := eval_normalise base (-((0 : Word).toNat : ℤ))
      (List.zipWith (fun x m => x + -(q.toNat : ℤ) * m) (ints x.words) (ints m.words))
    rw [← hnorm, eval_zipWith _ _ (by simp [hlen]), hzero, add_zero, List.length_zipWith,
      length_ints, length_ints, hlen, Nat.min_self, x.length_eq, hxv, hmv] at hsum
    change _ = eval base (ints out) - _
    linear_combination -hsum
  · rw [exceeds_iff base_pos true hsmall.digits m.small.digits
      (by rw [length_ints, length_ints, hout, hlen]), hmv]
    change m.value < value out ∨ value out = m.value ∧ true = true ↔ m.value ≤ value out
    simp only [and_true]
    omega

/-! ## The correction -/

/-- The two control words after the loop: `D` is the difference, the words of `d` with the
extra word `hi` above them and the carry `cc` below. -/
theorem correction_eq {h : Word} (d m : I31 h) (rx rm : List Word) {hi cc : Word} {tb : Bool}
    (htb : tb = true ↔ m.value ≤ d.value) {D : ℤ}
    (hD : D = d.value + base ^ wordCount h * (hi.toNat - cc.toNat)) (hlow : -m.value ≤ D)
    (hhigh : D < 2 * m.value) :
    ∃ r : I31 h, ((brI31Add (d.array rx) (m.array rm) (GT cc hi)).bind fun t =>
        (brI31Sub t.1 (m.array rm) (~~~ GT cc hi &&& (flag tb ||| LT cc hi))).bind fun t =>
          some t.1) = some (r.array rx) ∧ r.value = D % m.value := by
  have hd := d.value_nonneg
  have hd' := d.value_lt
  have hm' := m.value_lt
  have hpow : 0 < base ^ wordCount h := pow_pos base_pos _
  have hunder : ~~~ GT cc hi &&& (flag tb ||| LT cc hi) =
      flag (¬ hi.toNat < cc.toNat ∧ (tb = true ∨ cc.toNat < hi.toNat)) := by
    rw [GT_eq, LT_eq, flag_or, not_flag_and]
  obtain ⟨a, ha, hadd⟩ := brI31Add_eq (flag_bit (hi.toNat < cc.toNat)) d m rx rm
  rw [hunder, GT_eq, hadd, Option.bind_some]
  dsimp only
  generalize hP : base ^ wordCount h = P at *
  rcases lt_trichotomy hi.toNat cc.toNat with hover | heq | hless
  · -- the estimate was too large
    have hneg : P * ((hi.toNat : ℤ) - cc.toNat) ≤ P * (-1) :=
      mul_le_mul_of_nonneg_left (by omega) hpow.le
    obtain ⟨_, -, hsub⟩ := brI31Sub_eq zero_bit a m rx rm
    refine ⟨a, ?_, ?_⟩
    · rw [flag_of hover, if_pos rfl, flag_of_not (fun hc => hc.1 hover), hsub,
        if_neg (by decide), Option.bind_some]
    · have hshift : d.value + m.value = D + m.value + P * (cc.toNat - hi.toNat) := by
        rw [hD]
        ring
      have hmod : D % m.value = D + m.value := by
        rw [← Int.add_emod_right, Int.emod_eq_of_lt (by omega) (by omega)]
      rw [ha, hshift, Int.add_mul_emod_self_left, hmod]
      exact Int.emod_eq_of_lt (by omega) (by omega)
  · -- only the comparison kept on the way decides
    rw [heq, sub_self, mul_zero, add_zero] at hD
    rw [flag_of_not (by omega : ¬ hi.toNat < cc.toNat), if_neg (by decide)]
    by_cases hle : m.value ≤ d.value
    · obtain ⟨b, hb, hsub⟩ := brI31Sub_eq one_bit d m rx rm
      refine ⟨b, ?_, ?_⟩
      · rw [flag_of ⟨by omega, Or.inl (htb.mpr hle)⟩, hsub, if_pos rfl, Option.bind_some]
      · rw [hb, hP, hD, ← Int.sub_emod_right d.value m.value,
          Int.emod_eq_of_lt (by omega) (by omega)]
        exact (Int.emod_eq_of_lt (by omega) (by omega)).symm
    · obtain ⟨_, -, hsub⟩ := brI31Sub_eq zero_bit d m rx rm
      refine ⟨d, ?_, ?_⟩
      · have hno : ¬ (¬ hi.toNat < cc.toNat ∧ (tb = true ∨ cc.toNat < hi.toNat)) := by
          rintro ⟨-, hb | hc⟩
          · exact hle (htb.mp hb)
          · omega
        rw [flag_of_not hno, hsub, if_neg (by decide), Option.bind_some]
      · rw [hD]
        exact (Int.emod_eq_of_lt hd (by omega)).symm
  · -- an extra bit is left above the words
    have hone : P * 1 ≤ P * ((hi.toNat : ℤ) - cc.toNat) :=
      mul_le_mul_of_nonneg_left (by omega) hpow.le
    rw [flag_of_not (by omega : ¬ hi.toNat < cc.toNat), if_neg (by decide)]
    obtain ⟨b, hb, hsub⟩ := brI31Sub_eq one_bit d m rx rm
    refine ⟨b, ?_, ?_⟩
    · rw [flag_of ⟨by omega, Or.inr hless⟩, hsub, if_pos rfl, Option.bind_some]
    · have hshift : d.value - m.value = D - m.value + P * (cc.toNat - hi.toNat) := by
        rw [hD]
        ring
      have hmod : D % m.value = D - m.value := by
        rw [← Int.sub_emod_right, Int.emod_eq_of_lt (by omega) (by omega)]
      rw [hb, hP, hshift, Int.add_mul_emod_self_left, hmod]
      exact Int.emod_eq_of_lt (by omega) (by omega)

/-! ## The leading bits -/

/-- The bit length that `x[0]` announces. -/
def bitLength (h : Word) : Nat := 31 * (h.toNat / 32) + h.toNat % 32

/-- The announced bit length is the true one. -/
def I31.Exact {h : Word} (m : I31 h) : Prop :=
  2 ^ (bitLength h - 1) ≤ m.value ∧ m.value < 2 ^ bitLength h

/-- An odd modulus of forty bits, in two words. -/
def fortyBits : I31 41 :=
  ⟨[1515870811, 499], by decide, (Small.nil.cons (by decide)).cons (by decide), by decide⟩

theorem exact_fortyBits : fortyBits.Exact := ⟨by decide, by decide⟩

/-- An integer of two words below it. -/
def smallFactor : I31 41 :=
  ⟨[3, 2], by decide, (Small.nil.cons (by decide)).cons (by decide), by decide⟩

theorem base_pow (n : Nat) : base ^ n = 2 ^ (31 * n) := (pow_mul 2 31 n).symm

theorem toNat_mblr (h : Word) : (h &&& 31).toNat = h.toNat % 32 := by
  rw [BitVec.toNat_and]
  exact Nat.and_two_pow_sub_one_eq_mod h.toNat 5

/-- Two neighbouring words give 31 bits that straddle them. -/
theorem toNat_straddle {u v : Word} {k : Nat} (hu : u.toNat < 2 ^ 31) (hk : k ≤ 31) :
    (((v <<< (31 - k)) ||| (u >>> k)) &&& 0x7FFFFFFF).toNat =
      (v.toNat * 2 ^ 31 + u.toNat) / 2 ^ k % 2 ^ 31 := by
  have hsplit : 2 ^ 31 = 2 ^ k * 2 ^ (31 - k) := by rw [← Nat.pow_add, Nat.add_sub_cancel' hk]
  have hleft : (v <<< (31 - k)).toNat = v.toNat * 2 ^ (31 - k) % 2 ^ 32 := by
    rw [BitVec.toNat_shiftLeft, Nat.shiftLeft_eq]
  have hdvd : 2 ^ (31 - k) ∣ (v <<< (31 - k)).toNat := by
    rw [hleft]
    exact (Nat.dvd_mod_iff (Nat.pow_dvd_pow 2 (by omega))).mpr (Nat.dvd_mul_left _ _)
  have hlow : (u >>> k).toNat < 2 ^ (31 - k) := by
    rw [BitVec.toNat_ushiftRight, Nat.shiftRight_eq_div_pow,
      Nat.div_lt_iff_lt_mul (Nat.two_pow_pos k), Nat.mul_comm, ← hsplit]
    exact hu
  have hquot : (v.toNat * 2 ^ 31 + u.toNat) / 2 ^ k =
      v.toNat * 2 ^ (31 - k) + u.toNat / 2 ^ k := by
    have hsum : v.toNat * 2 ^ 31 + u.toNat = 2 ^ k * (v.toNat * 2 ^ (31 - k)) + u.toNat := by
      rw [hsplit]
      ring
    rw [hsum, Nat.mul_add_div (Nat.two_pow_pos k)]
  rw [toNat_mask, toNat_or_of_lt hdvd hlow, hleft, BitVec.toNat_ushiftRight,
    Nat.shiftRight_eq_div_pow, hquot]
  omega

theorem exists_concat {n : Nat} {ws : List Word} (h : ws.length = n + 1) :
    ∃ low v, ws = low ++ [v] ∧ low.length = n := by
  have hne : ws ≠ [] := by
    intro hnil
    rw [hnil] at h
    cases h
  exact ⟨ws.dropLast, ws.getLast hne, (List.dropLast_append_getLast hne).symm,
    by rw [List.length_dropLast, h, Nat.add_sub_cancel]⟩

/-- **The leading bits** of an integer are its quotient by a power of two, the same one for
each integer of the announced bit length. -/
theorem leading_eq {h : Word} (hlong : 31 < h.toNat) (w : I31 h) (rest : List Word) :
    ∃ l, leading (w.array rest) (wordCount h) (h &&& 31).toNat = some l ∧
      (l.toNat : ℤ) = w.value / 2 ^ (bitLength h - 31) % base := by
  have hcount := wordCount_eq w.fits
  have hlen := w.length_eq
  rw [toNat_mblr]
  unfold leading
  by_cases hk : h.toNat % 32 = 0
  · obtain ⟨n, hn⟩ : ∃ n, wordCount h = n + 1 := ⟨wordCount h - 1, by omega⟩
    obtain ⟨low, v, hwords, hlow⟩ := exists_concat (hlen.trans hn)
    have hsmall : Small (low ++ [v]) := hwords ▸ w.small
    refine ⟨v, ?_, ?_⟩
    · rw [if_pos hk, I31.array, hwords, hn, List.getElem?_cons_succ, List.append_assoc,
        List.singleton_append, ← hlow, getElem?_here]
    · have hexp : bitLength h - 31 = 31 * n := by
        unfold bitLength
        omega
      have hv := hsmall.right.head
      have hrem := BearSSL.value_lt hsmall.left
      rw [hlow] at hrem
      rw [I31.value, hwords, value_append, hexp, ← base_pow, hlow,
        Int.add_mul_ediv_left _ _ (pow_pos base_pos n).ne',
        Int.ediv_eq_zero_of_lt (BearSSL.value_nonneg hsmall.left) hrem, zero_add, value_cons,
        value_nil, mul_zero, add_zero]
      exact (Int.emod_eq_of_lt (by omega) (by rw [base_eq]; omega)).symm
  · obtain ⟨n, hn⟩ : ∃ n, wordCount h = n + 2 := ⟨wordCount h - 2, by omega⟩
    obtain ⟨low', v, hwords', hlow'⟩ := exists_concat (hlen.trans hn)
    obtain ⟨low, u, hwords, hlow⟩ := exists_concat hlow'
    rw [hwords, List.append_assoc, List.singleton_append] at hwords'
    have hsmall : Small (low ++ [u, v]) := hwords' ▸ w.small
    have hu := hsmall.right.head
    refine ⟨_, ?_, congrArg Nat.cast (toNat_straddle (v := v) hu (by omega : h.toNat % 32 ≤ 31))
      |>.trans ?_⟩
    · have hget : (w.array rest)[wordCount h]? = some v := by
        have := getElem?_here (low ++ [u]) v rest
        rw [List.length_append, List.length_singleton, hlow] at this
        rw [I31.array, hwords', hn, List.getElem?_cons_succ]
        simpa using this
      have hget' : (w.array rest)[wordCount h - 1]? = some u := by
        have := getElem?_here low u (v :: rest)
        rw [hlow] at this
        rw [I31.array, hwords', hn, Nat.add_sub_assoc (by decide), List.getElem?_cons_succ]
        simpa using this
      rw [if_neg hk, hget, hget']
      rfl
    · have hexp : bitLength h - 31 = 31 * n + h.toNat % 32 := by
        unfold bitLength
        omega
      have hrem := BearSSL.value_lt hsmall.left
      rw [hlow] at hrem
      have hpair : value [u, v] = ((v.toNat * 2 ^ 31 + u.toNat : Nat) : ℤ) := by
        rw [value_cons, value_cons, value_nil, base_eq]
        push_cast
        ring
      rw [I31.value, hwords', value_append, hexp, pow_add, ← base_pow, hlow,
        ← Int.ediv_ediv_of_nonneg (pow_pos base_pos n).le,
        Int.add_mul_ediv_left _ _ (pow_pos base_pos n).ne',
        Int.ediv_eq_zero_of_lt (BearSSL.value_nonneg hsmall.left) hrem, zero_add, hpair, base_eq]
      push_cast
      rfl

/-! ## The estimate -/

/-- A word of 31 bits shifted in below another one. -/
theorem double_shift {a b : Word} (hb : b.toNat < 2 ^ 31) :
    double (a >>> 1) ((a <<< 31) ||| b) = a.toNat * 2 ^ 31 + b.toNat := by
  have hleft : (a <<< 31).toNat = a.toNat * 2 ^ 31 % 2 ^ 32 := by
    rw [BitVec.toNat_shiftLeft, Nat.shiftLeft_eq]
  have hdvd : 2 ^ 31 ∣ (a <<< 31).toNat := by
    rw [hleft]
    exact (Nat.dvd_mod_iff (Nat.pow_dvd_pow 2 (by decide))).mpr (Nat.dvd_mul_left _ _)
  rw [double, toNat_or_of_lt hdvd hb, hleft, BitVec.toNat_ushiftRight, Nat.shiftRight_eq_div_pow]
  omega

/-- The word `q` is the estimate from the leading parts. -/
theorem quotient_eq {a0 a1 b0 : Word} {S V M : Nat} (hb : b0.toNat = M / S)
    (ha0 : a0.toNat = V / S / 2 ^ 31) (ha1 : a1.toNat = V / S % 2 ^ 31)
    (hle : a0.toNat ≤ b0.toNat) (hpos : 0 < b0.toNat) :
    let g := brDiv (a0 >>> 1) (a1 ||| (a0 <<< 31)) b0
    let q := MUX (EQ a0 b0) 0x7FFFFFFF (MUX (EQ g 0) 0 (g - 1))
    q.toNat = estimate (2 ^ 30) S V M ∧ q.toNat < 2 ^ 31 := by
  intro g q
  have ha1' : a1.toNat < 2 ^ 31 := ha1 ▸ Nat.mod_lt _ (by decide)
  have hhi : (a0 >>> 1).toNat ≤ b0.toNat := by
    rw [BitVec.toNat_ushiftRight, Nat.shiftRight_eq_div_pow]
    omega
  have hdouble : double (a0 >>> 1) (a1 ||| (a0 <<< 31)) = V / S := by
    rw [BitVec.or_comm, double_shift ha1', ha0, ha1]
    omega
  have hg : g.toNat = V / S / b0.toNat % 2 ^ 32 := by
    have h := (brDivrem_eq (a1 ||| (a0 <<< 31)) hpos hhi).1
    rwa [hdouble] at h
  have hq : q = if a0 = b0 then 0x7FFFFFFF else if g = 0 then 0 else g - 1 := by
    rw [← MUX_flag (g = 0), ← MUX_flag (a0 = b0), ← EQ_eq, ← EQ_eq]
  rw [hq]
  unfold estimate
  have heq : a0 = b0 ↔ V / S / (2 * 2 ^ 30) = M / S := by
    have hbase : 2 * 2 ^ 30 = 2 ^ 31 := rfl
    rw [← BitVec.toNat_inj, ha0, hb, hbase]
  by_cases hfull : a0 = b0
  · rw [if_pos hfull, if_pos (heq.mp hfull)]
    decide
  · have hlt : a0.toNat < b0.toNat :=
      Nat.lt_of_le_of_ne hle (fun hc => hfull (BitVec.eq_of_toNat_eq hc))
    have hdigit : V / S / b0.toNat < 2 ^ 31 := by
      rw [Nat.div_lt_iff_lt_mul hpos]
      omega
    have hg' : g.toNat = V / S / (M / S) := by
      rw [hg, Nat.mod_eq_of_lt (hdigit.trans (by decide)), hb]
    have hglt : g.toNat < 2 ^ 31 := by rwa [hg', ← hb]
    rw [if_neg hfull, if_neg (fun hc => hfull (heq.mpr hc)), ← hg']
    by_cases hzero : g = 0
    · rw [if_pos hzero, hzero]
      decide
    · have hgpos : g.toNat ≠ 0 := fun hc => hzero (BitVec.eq_of_toNat_eq hc)
      have hone : (g - 1).toNat = g.toNat - 1 := by
        rw [BitVec.toNat_sub]
        have h1 : (1 : Word).toNat = 1 := rfl
        have := g.isLt
        omega
      rw [if_neg hzero, hone]
      omega

/-- Subtracting the estimate leaves a difference that one correction brings below the
modulus. -/
theorem quotient_bounds {a0 a1 b0 : Word} {e : Nat} {V M : ℤ} (hb0 : (b0.toNat : ℤ) = M / 2 ^ e)
    (ha0 : (a0.toNat : ℤ) = V / 2 ^ e / base) (ha1 : (a1.toNat : ℤ) = V / 2 ^ e % base)
    (hhalf : 2 ^ 30 ≤ M / 2 ^ e) (hV : 0 ≤ V) (hM : 0 ≤ M) (hVlt : V < M * base) :
    let g := brDiv (a0 >>> 1) (a1 ||| (a0 <<< 31)) b0
    let q := MUX (EQ a0 b0) 0x7FFFFFFF (MUX (EQ g 0) 0 (g - 1))
    q.toNat < 2 ^ 31 ∧ -M ≤ V - q.toNat * M ∧ V - q.toNat * M < 2 * M := by
  intro g q
  lift V to ℕ using hV
  lift M to ℕ using hM
  have hbase : base = ((2 ^ 31 : ℕ) : ℤ) := by decide
  rw [hbase] at ha0 ha1 hVlt
  have hVlt' : V < M * (2 * 2 ^ 30) := by exact_mod_cast hVlt
  have hhalf' : 2 ^ 30 ≤ M / 2 ^ e := by exact_mod_cast hhalf
  have hb : b0.toNat = M / 2 ^ e := by exact_mod_cast hb0
  have ha0' : a0.toNat = V / 2 ^ e / 2 ^ 31 := by exact_mod_cast ha0
  have ha1' : a1.toNat = V / 2 ^ e % 2 ^ 31 := by exact_mod_cast ha1
  have hle : a0.toNat ≤ b0.toNat := by
    rw [ha0', hb, Nat.div_div_eq_div_mul, Nat.mul_comm, ← Nat.div_div_eq_div_mul]
    exact Nat.div_le_div_right (by omega)
  obtain ⟨hq, hqlt⟩ := quotient_eq hb ha0' ha1' hle (by omega)
  obtain ⟨hover, hunder⟩ := estimate_bounds (Nat.two_pow_pos e) hhalf' (by decide) hVlt'
  rw [← hq] at hover hunder
  refine ⟨hqlt, ?_, ?_⟩
  · have : ((q.toNat * M : ℕ) : ℤ) ≤ ((V + M : ℕ) : ℤ) := Int.ofNat_le.mpr hover
    push_cast at this
    linarith
  · have : (V : ℤ) < (((q.toNat + 2) * M : ℕ) : ℤ) := Int.ofNat_lt.mpr hunder
    push_cast at this
    linarith

/-! ## The whole function -/

/-- The words move up and `z` takes the lowest place; the top word drops out. -/
theorem memmoveWords_up (h z top : Word) (ws rest : List Word) :
    ∃ moved, memmoveWords (h :: (ws ++ top :: rest)) 2 1 ws.length = some moved ∧
      moved.set 1 z = h :: (z :: ws ++ rest) := by
  obtain ⟨c, tail, htail⟩ : ∃ c tail, ws ++ top :: rest = c :: tail := by
    cases ws with
    | nil => exact ⟨top, rest, rfl⟩
    | cons w ws => exact ⟨w, ws ++ top :: rest, rfl⟩
  refine ⟨h :: c :: (ws ++ rest), ?_, rfl⟩
  have hfits : 2 + ws.length ≤ (h :: (ws ++ top :: rest)).length ∧
      1 + ws.length ≤ (h :: (ws ++ top :: rest)).length := by
    simp only [List.length_cons, List.length_append]
    omega
  have htake : (h :: (ws ++ top :: rest)).take 2 = [h, c] := by rw [htail]; rfl
  have hdrop : (h :: (ws ++ top :: rest)).drop (2 + ws.length) = rest := by
    rw [show 2 + ws.length = (ws.length + 1) + 1 by omega, List.drop_succ_cons,
      show ws ++ top :: rest = (ws ++ [top]) ++ rest by simp]
    exact List.drop_left' (by simp)
  rw [memmoveWords, if_pos hfits, htake, hdrop, List.drop_succ_cons, List.drop_zero,
    List.take_left]
  rfl

/-- The leading parts of the dividend `V`, the modulus and `x`. -/
theorem leading_parts {h : Word} (hlong : 31 < h.toNat) {x x' m : I31 h} {z top : Word}
    (hz : z.toNat < 2 ^ 31) (hx : x.value < m.value) (hexact : m.Exact) {V : ℤ}
    (hV : V = x.value * base + z.toNat)
    (htop : V = x'.value + base ^ wordCount h * top.toNat) :
    x.value / 2 ^ (bitLength h - 31) % base = V / 2 ^ (bitLength h - 31) / base ∧
      x'.value / 2 ^ (bitLength h - 31) % base = V / 2 ^ (bitLength h - 31) % base ∧
      m.value / 2 ^ (bitLength h - 31) % base = m.value / 2 ^ (bitLength h - 31) ∧
      2 ^ 30 ≤ m.value / 2 ^ (bitLength h - 31) := by
  have hcount := wordCount_eq m.fits
  obtain ⟨e, he⟩ : ∃ e, bitLength h = e + 31 :=
    ⟨bitLength h - 31, by unfold bitLength; omega⟩
  obtain ⟨r, hr⟩ : ∃ r, 31 * wordCount h = e + 31 + r :=
    ⟨31 * wordCount h - (e + 31), by unfold bitLength at he; omega⟩
  obtain ⟨hmlow, hmhigh⟩ := hexact
  rw [he] at hmlow hmhigh
  rw [he, Nat.add_sub_cancel]
  have hS : (0 : ℤ) < 2 ^ e := by positivity
  have hlt : ∀ y : ℤ, y < 2 ^ (e + 31) → y / 2 ^ e < base := by
    intro y hy
    refine Int.ediv_lt_of_lt_mul hS ?_
    rwa [pow_add, mul_comm] at hy
  refine ⟨?_, ?_, ?_, ?_⟩
  · have hshift : V / base = x.value := by
      rw [hV, mul_comm, Int.mul_add_ediv_left _ _ base_pos.ne',
        Int.ediv_eq_zero_of_lt (by omega) (by rw [base_eq]; omega), add_zero]
    rw [Int.emod_eq_of_lt (Int.ediv_nonneg x.value_nonneg hS.le) (hlt _ (hx.trans hmhigh)),
      Int.ediv_ediv_of_nonneg hS.le, mul_comm, ← Int.ediv_ediv_of_nonneg base_pos.le, hshift]
  · have hmultiple : base ^ wordCount h * top.toNat = 2 ^ e * (base * (2 ^ r * top.toNat)) := by
      rw [base_pow, hr, pow_add, pow_add, base]
      ring
    rw [htop, hmultiple, Int.add_mul_ediv_left _ _ hS.ne', Int.add_mul_emod_self_left]
  · exact Int.emod_eq_of_lt (Int.ediv_nonneg m.value_nonneg hS.le) (hlt _ hmhigh)
  · refine (Int.le_ediv_iff_mul_le hS).mpr ?_
    rwa [show e + 31 - 1 = 30 + e by omega, pow_add] at hmlow

theorem announced_pos {h : Word} {x m : I31 h} (hx : x.value < m.value) : h ≠ 0 := by
  intro hzero
  have hwords : wordCount h = 0 := by
    rw [hzero]
    rfl
  have hm := m.value_lt
  have := x.value_nonneg
  rw [hwords, pow_zero] at hm
  omega

/-- A modulus of one word is divided directly. -/
theorem brI31MuladdSmall_short {h z : Word} (x m : I31 h) (rx rm : List Word)
    (hz : z.toNat < 2 ^ 31) (hx : x.value < m.value) (hshort : h.toNat ≤ 31) :
    ∃ r : I31 h, brI31MuladdSmall (x.array rx) z (m.array rm) = some (r.array rx) ∧
      r.value = (x.value * base + z.toNat) % m.value := by
  have hne := announced_pos hx
  have hcount := wordCount_eq m.fits
  have hone : wordCount h = 1 := by
    have : h.toNat ≠ 0 := fun hc => hne (BitVec.eq_of_toNat_eq hc)
    omega
  obtain ⟨x1, hx1⟩ := List.length_eq_one_iff.mp (x.length_eq.trans hone)
  obtain ⟨m1, hm1⟩ := List.length_eq_one_iff.mp (m.length_eq.trans hone)
  have hxv : x.value = x1.toNat := by simp [I31.value, hx1]
  have hmv : m.value = m1.toNat := by simp [I31.value, hm1]
  have hlt : x1.toNat < m1.toNat := by omega
  have hhigh : (x1 >>> 1).toNat ≤ m1.toNat := by
    rw [BitVec.toNat_ushiftRight, Nat.shiftRight_eq_div_pow]
    omega
  have hdiv := (brDivrem_eq ((x1 <<< 31) ||| z) (by omega) hhigh).2
  rw [double_shift hz] at hdiv
  have hsmall : (brRem (x1 >>> 1) ((x1 <<< 31) ||| z) m1).toNat < 2 ^ 31 := by
    have hm1small : m1.toNat < 2 ^ 31 := m.small m1 (by simp [hm1])
    have := Nat.mod_lt (x1.toNat * 2 ^ 31 + z.toNat) (by omega : 0 < m1.toNat)
    rw [brRem, hdiv]
    omega
  refine ⟨⟨[brRem (x1 >>> 1) ((x1 <<< 31) ||| z) m1], hone.symm, Small.nil.cons hsmall, m.fits⟩,
    ?_, ?_⟩
  · have hm0 : (m.array rm)[0]? = some h := rfl
    have hgetx : (x.array rx)[1]? = some x1 := by simp [I31.array, hx1]
    have hgetm : (m.array rm)[1]? = some m1 := by simp [I31.array, hm1]
    simp only [brI31MuladdSmall, hm0, Option.bind_eq_bind, Option.bind_some, if_neg hne,
      if_pos hshort, hgetx, hgetm, Option.pure_def]
    simp [I31.array, hx1]
  · rw [I31.value, value_cons, value_nil, mul_zero, add_zero, brRem, hdiv, hxv, hmv, base_eq]
    push_cast
    rfl

/-- A longer modulus is divided by the estimate and the correction. -/
theorem brI31MuladdSmall_long {h z : Word} (x m : I31 h) (rx rm : List Word)
    (hz : z.toNat < 2 ^ 31) (hx : x.value < m.value) (hlong : 31 < h.toNat) (hexact : m.Exact) :
    ∃ r : I31 h, brI31MuladdSmall (x.array rx) z (m.array rm) = some (r.array rx) ∧
      r.value = (x.value * base + z.toNat) % m.value := by
  have hcount := wordCount_eq m.fits
  obtain ⟨n, hn⟩ : ∃ n, wordCount h = n + 1 := ⟨wordCount h - 1, by omega⟩
  obtain ⟨ws, top, hwords, hws⟩ := exists_concat (x.length_eq.trans hn)
  have hsmall : Small (ws ++ [top]) := hwords ▸ x.small
  -- `x'` is what lies in the array after the move, `top` what dropped out
  obtain ⟨x', hx'⟩ : ∃ x' : I31 h, x'.words = z :: ws :=
    ⟨⟨z :: ws, by simp [hws, hn], hsmall.left.cons hz, x.fits⟩, rfl⟩
  obtain ⟨V, hV⟩ : ∃ V, V = x.value * base + z.toNat := ⟨_, rfl⟩
  have htop : V = x'.value + base ^ wordCount h * top.toNat := by
    rw [hV, I31.value, I31.value, hwords, hx', value_append, value_cons, value_cons, value_nil,
      hws, hn, pow_succ]
    ring
  obtain ⟨hquot, hrest, hfull, hhalf⟩ := leading_parts hlong hz hx hexact hV htop
  obtain ⟨a0, hget0, ha0⟩ := leading_eq hlong x rx
  obtain ⟨a1, hget1, ha1⟩ := leading_eq hlong x' rx
  obtain ⟨b0, hgetb, hb0⟩ := leading_eq hlong m rm
  have hVnonneg : 0 ≤ V := by
    have := mul_nonneg x.value_nonneg base_pos.le
    omega
  have hVlt : V < m.value * base := by
    have hstep : (x.value + 1) * base ≤ m.value * base :=
      mul_le_mul_of_nonneg_right hx base_pos.le
    have hbase := base_eq
    rw [add_mul, one_mul] at hstep
    omega
  obtain ⟨hqlt, hlow, hhigh⟩ := quotient_bounds (hb0.trans hfull) (ha0.trans hquot)
    (ha1.trans hrest) hhalf hVnonneg m.value_nonneg hVlt
  generalize hqdef : MUX (EQ a0 b0) 0x7FFFFFFF (MUX
    (EQ (brDiv (a0 >>> 1) (a1 ||| (a0 <<< 31)) b0) 0) 0
      (brDiv (a0 >>> 1) (a1 ||| (a0 <<< 31)) b0 - 1)) = q at hqlt hlow hhigh
  obtain ⟨d, cc, tb, hloop, hdiff, htb⟩ := subtractLoop_value x' m rx rm hqlt
  have hdiff' : V - q.toNat * m.value =
      d.value + base ^ wordCount h * (top.toNat - cc.toNat) := by
    rw [htop]
    linear_combination hdiff
  obtain ⟨r, hr, hvalue⟩ := correction_eq d m rx rm htb hdiff' hlow hhigh
  refine ⟨r, ?_, ?_⟩
  · have hm0 : (m.array rm)[0]? = some h := rfl
    have hmlen : ((h + 31) >>> 5).toNat = wordCount h := rfl
    have hxarray : x.array rx = h :: (ws ++ top :: rx) := by
      rw [I31.array, hwords, List.append_assoc, List.singleton_append]
    obtain ⟨moved, hmove, hset⟩ := memmoveWords_up h z top ws rx
    have hmove' : memmoveWords (x.array rx) 2 1 (wordCount h - 1) = some moved := by
      rw [hxarray, hn, Nat.add_sub_cancel, ← hws]
      exact hmove
    have hset' : moved.set 1 z = x'.array rx := by rw [hset, I31.array, hx']
    have hgettop : (x.array rx)[wordCount h]? = some top := by
      rw [hxarray, hn, List.getElem?_cons_succ, ← hws, getElem?_here]
    simp only [brI31MuladdSmall, hm0, Option.bind_eq_bind, Option.bind_some,
      if_neg (announced_pos hx), if_neg (Nat.not_le.mpr hlong), hmlen, hgettop, hget0, hmove',
      hset', hget1, hgetb, hqdef, hloop, Option.pure_def]
    exact hr
  · rw [hvalue, ← hV]
    exact Int.sub_mul_emod_self_right _ _ _

/-- **Shifting in a word.** For `x` below a modulus of one word, or of the announced length,
the function leaves the remainder of `x * 2^31 + z`. -/
theorem brI31MuladdSmall_eq {h z : Word} (x m : I31 h) (rx rm : List Word)
    (hz : z.toNat < 2 ^ 31) (hx : x.value < m.value) (hexact : 31 < h.toNat → m.Exact) :
    ∃ r : I31 h, brI31MuladdSmall (x.array rx) z (m.array rm) = some (r.array rx) ∧
      r.value = (x.value * base + z.toNat) % m.value := by
  rcases Nat.lt_or_ge 31 h.toNat with hlong | hshort
  · exact brI31MuladdSmall_long x m rx rm hz hx hlong (hexact hlong)
  · exact brI31MuladdSmall_short x m rx rm hz hx hshort

end MicroSampler.BearSSL
