import Mathlib.Data.BitVec
import MicroSampler.BearSSL.MulAdd

/-!
# Montgomery form: `br_i31_ninv31`, `br_i31_to_monty`, `br_i31_from_monty`

An integer is brought to Montgomery form by shifting in as many zero words as the modulus
has, and back by dividing as often by the base. The division needs `-1/m` modulo the base,
which Newton's iteration computes from the lowest word of an odd modulus.
-/

namespace MicroSampler.BearSSL

open Limbs Montgomery

def brI31Ninv31 (x : Word) : Word :=
  let y := 2 - x
  let y := y * (2 - y * x)
  let y := y * (2 - y * x)
  let y := y * (2 - y * x)
  let y := y * (2 - y * x)
  MUX (x &&& 1) (-y) 0 &&& 0x7FFFFFFF

/-- The passes left of the loop of `br_i31_to_monty`. -/
def toMontyLoop (m : List Word) : (k : Nat) → (x : List Word) → Option (List Word)
  | 0, x => some x
  | k + 1, x => do
    let x ← brI31MuladdSmall x 0 m
    toMontyLoop m k x

def brI31ToMonty (x m : List Word) : Option (List Word) := do
  let m0 ← m[0]?
  toMontyLoop m ((m0 + 31) >>> 5).toNat x

/-- The column `v` of `br_i31_from_monty`, which does not write the first digit. -/
def fromMontyColumn (m : List Word) (f : Word) (v : Nat) (s : List Word × BitVec 64) :
    Option (List Word × BitVec 64) := do
  let xw ← s.1[v + 1]?
  let mw ← m[v + 1]?
  let z := xw.setWidth 64 + MUL31 f mw + s.2
  pure (if v ≠ 0 then s.1.set v (z.setWidth 32 &&& 0x7FFFFFFF) else s.1, z >>> 31)

def fromMontyColumns (m : List Word) (f : Word) :
    (n v : Nat) → List Word × BitVec 64 → Option (List Word × BitVec 64)
  | 0, _, s => some s
  | n + 1, v, s => do
    let s ← fromMontyColumn m f v s
    fromMontyColumns m f n (v + 1) s

def fromMontyRound (m : List Word) (m0i : Word) (len : Nat) (x : List Word) :
    Option (List Word) := do
  let x1 ← x[1]?
  let f := MUL31_lo x1 m0i
  let s ← fromMontyColumns m f len 0 (x, 0)
  pure (s.1.set len (s.2.setWidth 32))

/-- The passes left of the outer loop. -/
def fromMontyLoop (m : List Word) (m0i : Word) (len : Nat) :
    (n : Nat) → (x : List Word) → Option (List Word)
  | 0, x => some x
  | n + 1, x => do
    let x ← fromMontyRound m m0i len x
    fromMontyLoop m m0i len n x

def brI31FromMonty (x m : List Word) (m0i : Word) : Option (List Word) := do
  let m0 ← m[0]?
  let len := ((m0 + 31) >>> 5).toNat
  let x ← fromMontyLoop m m0i len len x
  let s ← brI31Sub x m 0
  let t ← brI31Sub s.1 m (NOT s.2)
  pure t.1

/-! ## The inverse -/

/-- Four iterations carry the inverse from two bits to 32. -/
theorem newton_inverse {x : Word} (hx : x.toNat % 2 = 1) :
    let y := 2 - x
    let y := y * (2 - y * x)
    let y := y * (2 - y * x)
    let y := y * (2 - y * x)
    let y := y * (2 - y * x)
    x * y = 1 := by
  intro y y1 y2 y3 y4
  obtain ⟨k, hk⟩ : ∃ k : Word, x = 1 - 2 * k := by
    refine ⟨BitVec.ofNat 32 (2 ^ 31 - x.toNat / 2), ?_⟩
    apply BitVec.eq_of_toNat_eq
    have h1 : (1 : Word).toNat = 1 := rfl
    have h2 : (2 : Word).toNat = 2 := rfl
    have hlt := x.isLt
    rw [BitVec.toNat_sub, BitVec.toNat_mul, BitVec.toNat_ofNat, h1, h2]
    omega
  have h0 : 1 - x * (2 - x) = 4 * k ^ 2 := by
    rw [hk]
    ring
  have h4 : 1 - x * y4 = (4 * k ^ 2) ^ 16 := by
    rw [newton_error x y3, newton_error x y2, newton_error x y1, newton_error x y, h0]
    ring
  have hzero : (4 * k ^ 2) ^ 16 = 0 := by
    have hpow : (4 : Word) ^ 16 = 0 := by decide
    rw [mul_pow, hpow, zero_mul]
  rw [hzero] at h4
  exact (sub_eq_zero.mp h4).symm

/-- **The inverse.** The result is `-1/x` modulo the base for an odd `x`, and zero for an
even one. -/
theorem brI31Ninv31_eq (x : Word) :
    (x.toNat % 2 = 1 → (x.toNat : ℤ) * (brI31Ninv31 x).toNat ≡ -1 [ZMOD base]) ∧
      (x.toNat % 2 = 0 → brI31Ninv31 x = 0) := by
  have hbit : x &&& 1 = flag (x.toNat % 2 = 1) := by
    apply BitVec.eq_of_toNat_eq
    rw [toNat_flag, BitVec.toNat_and]
    have hand : x.toNat &&& (1 : Word).toNat = x.toNat % 2 := Nat.and_one_is_mod _
    rw [hand]
    split <;> omega
  refine ⟨fun hodd => ?_, fun heven => ?_⟩
  · have hinv := newton_inverse hodd
    simp only at hinv
    simp only [brI31Ninv31, hbit, flag_of hodd, MUX_one]
    generalize (2 - x) * (2 - (2 - x) * x) * (2 - (2 - x) * (2 - (2 - x) * x) * x) = y at hinv ⊢
    generalize y * (2 - y * x) = y at hinv ⊢
    generalize y * (2 - y * x) = y at hinv ⊢
    have hneg : x * -y = -1 := by rw [mul_neg, hinv]
    have hprod := congrArg BitVec.toNat hneg
    rw [BitVec.toNat_mul] at hprod
    have hone : (-1 : Word).toNat = 2 ^ 32 - 1 := by decide
    rw [hone] at hprod
    rw [toNat_mask, base_eq]
    generalize (-y).toNat = n at hprod ⊢
    have hmod : x.toNat * (n % 2 ^ 31) % 2 ^ 31 = 2 ^ 31 - 1 := by
      rw [Nat.mul_mod_mod]
      omega
    have hcast : (x.toNat : ℤ) * (n % 2 ^ 31 : ℕ) = (x.toNat * (n % 2 ^ 31) : ℕ) := by
      push_cast
      rfl
    rw [hcast, Int.ModEq]
    omega
  · simp only [brI31Ninv31, hbit, flag_of_not (by omega : ¬ x.toNat % 2 = 1), MUX_zero]
    decide

/-- **The only inverse.** The result fits 31 bits; for an odd `x` it is the one word of 31
bits that inverts `-x`, and for an even one it is zero. -/
theorem brI31Ninv31_unique (x : Word) :
    (brI31Ninv31 x).toNat < 2 ^ 31 ∧ (x.toNat % 2 = 0 → brI31Ninv31 x = 0) ∧
      (x.toNat % 2 = 1 → ∀ y : Word, y.toNat < 2 ^ 31 →
        ((x.toNat : ℤ) * y.toNat ≡ -1 [ZMOD base] ↔ y = brI31Ninv31 x)) := by
  have hsmall : (brI31Ninv31 x).toNat < 2 ^ 31 := by
    rw [brI31Ninv31, toNat_mask]
    exact Nat.mod_lt _ (by decide)
  refine ⟨hsmall, (brI31Ninv31_eq x).2, fun hodd y hy => ⟨fun hinv => ?_, fun heq => ?_⟩⟩
  · -- `y * (x * z)` is `-y` from one side and `-z` from the other
    have hz := (brI31Ninv31_eq x).1 hodd
    generalize brI31Ninv31 x = z at hz hsmall
    have hleft : (y.toNat : ℤ) * (x.toNat * z.toNat) ≡ -y.toNat [ZMOD base] := by
      have := hz.mul_left (y.toNat : ℤ)
      rwa [mul_neg_one] at this
    have hright : (y.toNat : ℤ) * (x.toNat * z.toNat) ≡ -z.toNat [ZMOD base] := by
      have := hinv.mul_right (z.toNat : ℤ)
      rwa [neg_one_mul, mul_comm (x.toNat : ℤ), mul_assoc] at this
    have hmod : (y.toNat : ℤ) ≡ z.toNat [ZMOD base] := by
      have := (hleft.symm.trans hright).neg
      rwa [neg_neg, neg_neg] at this
    rw [Int.ModEq, base_eq] at hmod
    apply BitVec.eq_of_toNat_eq
    omega
  · rw [heq]
    exact (brI31Ninv31_eq x).1 hodd

/-- The inverse of the lowest word is one of the whole modulus. -/
theorem inverse_of_lowest {h m1 : Word} {m : I31 h} {ms : List Word} (hwords : m.words = m1 :: ms)
    (hodd : m.value % 2 = 1) : m.value * (brI31Ninv31 m1).toNat ≡ -1 [ZMOD base] := by
  have hlow : m.value ≡ m1.toNat [ZMOD base] := by
    rw [I31.value, hwords]
    exact value_modEq m1 ms
  have hm1 : m1.toNat % 2 = 1 := by
    have hparity : m.value % 2 = (m1.toNat : ℤ) % 2 := by
      rw [I31.value, hwords, value_cons, base_eq]
      omega
    omega
  exact (hlow.mul_right _).trans ((brI31Ninv31_eq m1).1 hm1)

/-! ## To Montgomery form -/

section Form

variable {h : Word} {m : I31 h} (rx rm : List Word)

theorem toMontyLoop_eq (hexact : 31 < h.toNat → m.Exact) (k : Nat) {x : I31 h}
    (hx : x.value < m.value) :
    ∃ r : I31 h, toMontyLoop (m.array rm) k (x.array rx) = some (r.array rx) ∧
      r.value < m.value ∧ r.value ≡ x.value * base ^ k [ZMOD m.value] := by
  induction k generalizing x with
  | zero => exact ⟨x, rfl, hx, by rw [pow_zero, mul_one]⟩
  | succ k ih =>
    have hmpos : 0 < m.value := x.value_nonneg.trans_lt hx
    obtain ⟨y, hrun, hy⟩ :=
      brI31MuladdSmall_eq x m rx rm (by decide : (0 : Word).toNat < 2 ^ 31) hx hexact
    have hzero : ((0 : Word).toNat : ℤ) = 0 := rfl
    rw [hzero, add_zero] at hy
    obtain ⟨r, hrest, hr, hmod⟩ := ih (hy ▸ Int.emod_lt_of_pos _ hmpos)
    refine ⟨r, ?_, hr, ?_⟩
    · rw [toMontyLoop, hrun]
      exact hrest
    · have hstep : y.value ≡ x.value * base [ZMOD m.value] := hy ▸ Int.mod_modEq _ _
      have hpow := hmod.trans (hstep.mul_right (base ^ k))
      rwa [mul_assoc, ← pow_succ'] at hpow

theorem brI31ToMonty_eq (hexact : 31 < h.toNat → m.Exact) {x : I31 h} (hx : x.value < m.value) :
    ∃ r : I31 h, brI31ToMonty (x.array rx) (m.array rm) = some (r.array rx) ∧
      r.value < m.value ∧ r.value ≡ x.value * base ^ wordCount h [ZMOD m.value] :=
  toMontyLoop_eq rx rm hexact (wordCount h) hx

/-! ## From Montgomery form -/

theorem MUL31_zero (w : Word) : MUL31 0 w = 0 := by
  rw [MUL31, show (0 : Word).setWidth 64 = 0 from rfl, zero_mul]

/-- Behind the first column the pass is the one of the multiplication without its first
factor. -/
theorem fromMontyColumns_eq (m : List Word) (f : Word) (n v : Nat) (s : List Word × BitVec 64) :
    fromMontyColumns m f n (v + 1) s = montyColumns m m 0 f n (v + 1) s := by
  induction n generalizing v s with
  | zero => rfl
  | succ n ih =>
    simp only [fromMontyColumns, montyColumns, fromMontyColumn, montyColumn, MUL31_zero, add_zero,
      Option.bind_eq_bind, Option.bind_assoc, ne_eq, Nat.succ_ne_zero, not_false_eq_true, if_true,
      Option.pure_def, Option.bind_some, ih]
    refine Option.bind_congr fun xw _ => ?_
    cases hm : m[v + 1 + 1]? with
    | none => rfl
    | some mw => rfl

/-- The sum of the first column. -/
theorem toNat_firstColumn {w mw f : Word} (hw : w.toNat < 2 ^ 31) (hm : mw.toNat < 2 ^ 31)
    (hf : f.toNat < 2 ^ 31) :
    (w.setWidth 64 + MUL31 f mw + 0).toNat = w.toNat + f.toNat * mw.toNat ∧
      ((w.setWidth 64 + MUL31 f mw + 0) >>> 31).toNat < 2 ^ 32 := by
  have hzero : (0 : Word).toNat = 0 := rfl
  have hzero' : (0 : BitVec 64).toNat = 0 := rfl
  have h := @toNat_column w 0 mw 0 f 0 hw (by decide) hm (by decide) hf (by decide)
  rw [MUL31_zero, add_zero (w.setWidth 64), hzero, hzero', Nat.mul_zero, Nat.add_zero,
    Nat.add_zero] at h
  refine ⟨h.1, ?_⟩
  rw [toNat_high, h.1]
  omega

variable {m0i : Word}

/-- **One round** divides by the base up to a multiple of the modulus. -/
theorem fromMontyRound_eq (hinv : m.value * m0i.toNat ≡ -1 [ZMOD base])
    (hpos : 0 < wordCount h) {x : I31 h} (hx : x.value ≤ m.value) :
    ∃ y : I31 h, fromMontyRound (m.array rm) m0i (wordCount h) (x.array rx) =
        some (y.array rx) ∧ y.value ≤ m.value ∧ base * y.value ≡ x.value [ZMOD m.value] := by
  obtain ⟨n, hn⟩ : ∃ n, wordCount h = n + 1 := ⟨wordCount h - 1, by omega⟩
  obtain ⟨w, ws, hws⟩ := List.exists_cons_of_length_eq_add_one (x.length_eq.trans hn)
  obtain ⟨mw, ms, hms⟩ := List.exists_cons_of_length_eq_add_one (m.length_eq.trans hn)
  have hxsmall : Small (w :: ws) := hws ▸ x.small
  have hmsmall : Small (mw :: ms) := hms ▸ m.small
  have hwslen : ws.length = n := by
    have := x.length_eq
    rw [hws, hn, List.length_cons] at this
    exact Nat.succ.inj this
  have hmslen : ms.length = ws.length := by
    have := m.length_eq
    rw [hms, hn, List.length_cons] at this
    omega
  have hxv : x.value = w.toNat + base * value ws := by rw [I31.value, hws, value_cons]
  have hmv : m.value = mw.toNat + base * value ms := by rw [I31.value, hms, value_cons]
  -- the first column is divisible by the base
  have hf : ((MUL31_lo w m0i).toNat : ℤ) ≡ x.value * m0i.toNat [ZMOD base] := by
    have hfactor := factor_modEq w 0 0 m0i
    have hzero : MUL31_lo 0 0 = 0 := by decide
    have hnat : ((0 : Word).toNat : ℤ) = 0 := rfl
    rw [hzero, add_zero w, hnat, zero_mul, add_zero] at hfactor
    refine hfactor.trans (Int.ModEq.mul_right _ ?_)
    rw [I31.value, hws]
    exact (value_modEq w ws).symm
  have hfsmall := MUL31_lo_lt w m0i
  generalize hfdef : MUL31_lo w m0i = f at hf hfsmall
  have hdvd := dvd_add_mul hinv hf
  obtain ⟨hz, hcarry⟩ := toNat_firstColumn hxsmall.head hmsmall.head hfsmall
  generalize hzdef : w.setWidth 64 + MUL31 f mw + 0 = z at hz hcarry
  have hfirst : (w.toNat : ℤ) + f.toNat * mw.toNat = base * (z >>> 31).toNat := by
    have hdvd0 : base ∣ (w.toNat : ℤ) + f.toNat * mw.toNat := by
      have hsplit : x.value + f.toNat * m.value =
          (w.toNat + f.toNat * mw.toNat) + base * (value ws + f.toNat * value ms) := by
        rw [hxv, hmv]
        ring
      rw [hsplit] at hdvd
      exact (Int.dvd_iff_dvd_of_dvd_add hdvd).mpr (Dvd.intro _ rfl)
    have hzv : (z.toNat : ℤ) = w.toNat + f.toNat * mw.toNat := by
      rw [hz]
      push_cast
      ring
    rw [← hzv] at hdvd0 ⊢
    rw [toNat_high]
    rw [base_eq] at hdvd0 ⊢
    omega
  -- the other columns move down by one word
  obtain ⟨out, last, r, hrun, hout, hsmall, hr, hnorm⟩ := montyColumns_eq hxsmall.tail hmsmall.tail
    hmsmall.tail (by decide : (0 : Word).toNat < 2 ^ 31) hfsmall hmslen hmslen [h] [h, mw] [h, mw]
    rfl rfl w rx rm rm hcarry
  have hsum : base * (value out + base ^ n * r.toNat) = x.value + f.toNat * m.value := by
    have hrow := eval_normalise base ((z >>> 31).toNat : ℤ) (montyRow ws ms ms 0 f)
    have hnat : ((0 : Word).toNat : ℤ) = 0 := rfl
    rw [← hnorm, length_montyRow 0 f hmslen hmslen, hwslen, eval_montyRow 0 f hmslen hmslen, hnat,
      zero_mul, add_zero] at hrow
    have hvalue : value out + base ^ n * r.toNat =
        value ws + f.toNat * value ms + (z >>> 31).toNat := hrow
    rw [hvalue, hxv, hmv]
    linear_combination -hfirst
  have hle : value out + base ^ n * r.toNat ≤ m.value := by
    have hfm : f.toNat * m.value ≤ (base - 1) * m.value :=
      mul_le_mul_of_nonneg_right (by rw [base_eq]; omega) m.value_nonneg
    have hbound : base * (value out + base ^ n * r.toNat) ≤ base * m.value := by
      rw [hsum]
      linarith
    exact le_of_mul_le_mul_left hbound base_pos
  have hrsmall : r.toNat < 2 ^ 31 := by
    have hm := m.value_lt
    have hpow : 0 < base ^ n := pow_pos base_pos n
    have hout0 := value_nonneg hsmall
    rw [hn, pow_succ] at hm
    have hlt : base ^ n * r.toNat < base ^ n * base := by linarith
    have := lt_of_mul_lt_mul_left hlt hpow.le
    rw [base_eq] at this
    omega
  have hr32 : (r.setWidth 32).toNat = r.toNat := by
    rw [BitVec.toNat_setWidth]
    omega
  obtain ⟨y, hy⟩ : ∃ y : I31 h, y.words = out ++ [r.setWidth 32] :=
    ⟨⟨out ++ [r.setWidth 32], by simp [hout, hwslen, hn],
      hsmall.append (Small.nil.cons (hr32 ▸ hrsmall)), m.fits⟩, rfl⟩
  have hyv : y.value = value out + base ^ n * r.toNat := by
    rw [I31.value, hy, value_append, hout, hwslen, value_cons, value_nil, mul_zero, add_zero, hr32]
  refine ⟨y, ?_, hyv ▸ hle, ?_⟩
  · have hx1 : (x.array rx)[1]? = some w := by rw [I31.array, hws]; rfl
    have hm1 : (m.array rm)[1]? = some mw := by rw [I31.array, hms]; rfl
    have hpass : fromMontyColumns (m.array rm) f (wordCount h) 0 (x.array rx, 0) =
        some (h :: (out ++ last :: rx), r) := by
      rw [hn, fromMontyColumns]
      simp only [fromMontyColumn, hx1, hm1, Option.bind_eq_bind, Option.bind_some, Option.pure_def,
        ne_eq, not_true_eq_false, if_false, hzdef]
      rw [fromMontyColumns_eq, I31.array, I31.array, hws, hms]
      rw [hwslen] at hrun
      exact hrun
    have hset : (h :: (out ++ last :: rx)).set (n + 1) (r.setWidth 32) = y.array rx := by
      rw [List.set_cons_succ, ← hwslen, ← hout, set_here, I31.array, hy, List.append_assoc,
        List.singleton_append]
    simp only [fromMontyRound, hx1, Option.bind_eq_bind, Option.bind_some, hfdef, hpass,
      Option.pure_def]
    rw [hn, hset]
  · rw [hyv, hsum]
    have hmultiple : f.toNat * m.value ≡ 0 [ZMOD m.value] :=
      Int.modEq_zero_iff_dvd.mpr (Dvd.intro_left _ rfl)
    have := hmultiple.add_left x.value
    rwa [add_zero] at this

theorem fromMontyLoop_eq (hinv : m.value * m0i.toNat ≡ -1 [ZMOD base]) (n : Nat)
    (hpos : 0 < wordCount h) {x : I31 h} (hx : x.value ≤ m.value) :
    ∃ y : I31 h, fromMontyLoop (m.array rm) m0i (wordCount h) n (x.array rx) =
        some (y.array rx) ∧ y.value ≤ m.value ∧ base ^ n * y.value ≡ x.value [ZMOD m.value] := by
  induction n generalizing x with
  | zero => exact ⟨x, rfl, hx, by rw [pow_zero, one_mul]⟩
  | succ n ih =>
    obtain ⟨x1, hround, hx1, hmod1⟩ := fromMontyRound_eq rx rm hinv hpos hx
    obtain ⟨y, hrest, hy, hmod⟩ := ih hx1
    refine ⟨y, ?_, hy, ?_⟩
    · rw [fromMontyLoop, hround]
      exact hrest
    · have hscaled := (hmod.mul_left base).trans hmod1
      rwa [← mul_assoc, ← pow_succ'] at hscaled

theorem brI31FromMonty_eq (hinv : m.value * m0i.toNat ≡ -1 [ZMOD base]) {x : I31 h}
    (hx : x.value < m.value) :
    ∃ r : I31 h, brI31FromMonty (x.array rx) (m.array rm) m0i = some (r.array rx) ∧
      r.value < m.value ∧ base ^ wordCount h * r.value ≡ x.value [ZMOD m.value] := by
  have hpos : 0 < wordCount h := by
    rcases Nat.eq_zero_or_pos (wordCount h) with h0 | hpos
    · have hm := m.value_lt
      have := x.value_nonneg
      rw [h0, pow_zero] at hm
      omega
    · exact hpos
  obtain ⟨y, hloop, hy, hmod⟩ := fromMontyLoop_eq rx rm hinv (wordCount h) hpos hx.le
  obtain ⟨_, -, hcompare⟩ := brI31Sub_eq zero_bit y m rx rm
  rw [if_neg (by decide)] at hcompare
  obtain ⟨d, hd, hsub⟩ := brI31Sub_eq (flag_bit (¬ y.value < m.value)) y m rx rm
  have hrun : brI31FromMonty (x.array rx) (m.array rm) m0i =
      some ((if flag (¬ y.value < m.value) = 1 then d else y).array rx) := by
    have hm0 : (m.array rm)[0]? = some h := rfl
    have hlen : ((h + 31) >>> 5).toNat = wordCount h := rfl
    simp only [brI31FromMonty, hm0, Option.bind_eq_bind, Option.bind_some, hlen, hloop, hcompare,
      NOT_flag, hsub, Option.pure_def]
  rcases lt_or_eq_of_le hy with hlt | heq
  · rw [flag_of_not (not_not_intro hlt), if_neg (by decide)] at hrun
    exact ⟨y, hrun, hlt, hmod⟩
  · rw [flag_of (not_lt.mpr heq.ge), if_pos rfl] at hrun
    have hzero : d.value = 0 := by rw [hd, heq, sub_self, Int.zero_emod]
    refine ⟨d, hrun, ?_, ?_⟩
    · have := x.value_nonneg
      omega
    · have hdrop : d.value ≡ y.value [ZMOD m.value] := by
        rw [hzero, heq, Int.ModEq, Int.emod_self, Int.zero_emod]
      exact (hdrop.mul_left _).trans hmod

/-! ## Computing in Montgomery form -/

/-- The Montgomery factor cancels modulo an odd modulus. -/
theorem cancel_base (hodd : m.value % 2 = 1) (hpos : 0 < m.value) {a b : ℤ} {n : Nat}
    (hab : base ^ n * a ≡ base ^ n * b [ZMOD m.value]) : a ≡ b [ZMOD m.value] := by
  rw [base_pow] at hab
  exact cancel_two_pow hodd hpos _ hab

theorem exists_lowest (hodd : m.value % 2 = 1) : ∃ m1 ms, m.words = m1 :: ms := by
  refine List.exists_cons_of_ne_nil fun hnil => ?_
  rw [I31.value, hnil] at hodd
  cases hodd

/-- **There and back.** For an odd modulus the two conversions restore every integer below
it, with the words behind it. -/
theorem fromMonty_toMonty {m1 : Word} (hm1 : (m.array rm)[1]? = some m1)
    (hodd : m.value % 2 = 1) (hexact : 31 < h.toNat → m.Exact) {x : I31 h}
    (hx : x.value < m.value) :
    (brI31ToMonty (x.array rx) (m.array rm)).bind
        (brI31FromMonty · (m.array rm) (brI31Ninv31 m1)) = some (x.array rx) := by
  obtain ⟨m1', ms, hms⟩ := exists_lowest hodd
  rw [I31.array, hms] at hm1
  cases hm1
  obtain ⟨t, hto, ht, htmod⟩ := brI31ToMonty_eq rx rm hexact hx
  obtain ⟨r, hfrom, hr, hrmod⟩ := brI31FromMonty_eq rx rm (inverse_of_lowest hms hodd) ht
  have hpos : 0 < m.value := x.value_nonneg.trans_lt hx
  have hmod : r.value ≡ x.value [ZMOD m.value] := by
    have := hrmod.trans htmod
    rw [mul_comm x.value] at this
    exact cancel_base hodd hpos this
  have heq : r = x := by
    apply I31.ext_value
    rwa [Int.ModEq, Int.emod_eq_of_lt r.value_nonneg hr, Int.emod_eq_of_lt x.value_nonneg hx]
      at hmod
  rw [hto, Option.bind_some, hfrom, heq]

/-- Two words modulo two words, with a word behind. -/
theorem fromMonty_toMonty_forty :
    (brI31ToMonty [41, 3, 2, 9] [41, 1515870811, 499]).bind
        (brI31FromMonty · [41, 1515870811, 499] (brI31Ninv31 1515870811)) =
      some [41, 3, 2, 9] :=
  fromMonty_toMonty (m := fortyBits) (x := smallFactor) [9] [] rfl (by decide)
    (fun _ => exact_fortyBits) (by decide)

/-- **A product through Montgomery form.** Converting both factors, multiplying into a
third array and converting back gives the product modulo `m`, for either order of the
factors and whatever the third array held. -/
theorem product_through_monty {m1 : Word} (hm1 : (m.array rm)[1]? = some m1)
    (hodd : m.value % 2 = 1) (hexact : 31 < h.toNat → m.Exact) {x y : I31 h}
    (hx : x.value < m.value) (hy : y.value < m.value) (ry rest : List Word) (d0 : Word)
    {old : List Word} (hold : old.length = wordCount h) :
    ∃ (tx ty p r : I31 h),
      brI31ToMonty (x.array rx) (m.array rm) = some (tx.array rx) ∧
        brI31ToMonty (y.array ry) (m.array rm) = some (ty.array ry) ∧
        brI31Montymul (d0 :: (old ++ rest)) (tx.array rx) (ty.array ry) (m.array rm)
          (brI31Ninv31 m1) = some (p.array rest) ∧
        brI31Montymul (d0 :: (old ++ rest)) (ty.array ry) (tx.array rx) (m.array rm)
          (brI31Ninv31 m1) = some (p.array rest) ∧
        brI31FromMonty (p.array rest) (m.array rm) (brI31Ninv31 m1) = some (r.array rest) ∧
        r.value = x.value * y.value % m.value := by
  obtain ⟨m1', ms, hms⟩ := exists_lowest hodd
  rw [I31.array, hms] at hm1
  cases hm1
  have hinv := inverse_of_lowest hms hodd
  have hpos : 0 < m.value := x.value_nonneg.trans_lt hx
  obtain ⟨tx, hxrun, htx, hxmod⟩ := brI31ToMonty_eq rx rm hexact hx
  obtain ⟨ty, hyrun, hty, hymod⟩ := brI31ToMonty_eq ry rm hexact hy
  obtain ⟨p, hmul, hp, hpmod⟩ := brI31Montymul_eq (x := tx) rx ry rm hinv hty d0 rest hold
  obtain ⟨q, hmul', hq, hqmod⟩ := brI31Montymul_eq (x := ty) ry rx rm hinv htx d0 rest hold
  obtain ⟨r, hfrom, hr, hrmod⟩ := brI31FromMonty_eq rest rm hinv hp
  have hpq : q = p := by
    have hmod : q.value ≡ p.value [ZMOD m.value] := by
      rw [mul_comm] at hqmod
      have := hqmod.trans ((mul_comm ty.value tx.value ▸ hpmod.symm))
      rw [mul_comm] at this
      exact cancel_base hodd hpos this
    apply I31.ext_value
    rwa [Int.ModEq, Int.emod_eq_of_lt q.value_nonneg hq, Int.emod_eq_of_lt p.value_nonneg hp]
      at hmod
  refine ⟨tx, ty, p, r, hxrun, hyrun, hmul, hpq ▸ hmul', hfrom, ?_⟩
  -- the product has one factor of Montgomery form left, and the way back removes it
  have hform : p.value ≡ base ^ wordCount h * (x.value * y.value) [ZMOD m.value] := by
    refine cancel_base (n := wordCount h) hodd hpos (hpmod.trans ?_)
    have := hxmod.mul hymod
    have hring : x.value * base ^ wordCount h * (y.value * base ^ wordCount h) =
        base ^ wordCount h * (base ^ wordCount h * (x.value * y.value)) := by ring
    rwa [hring] at this
  have hmod := cancel_base hodd hpos (hrmod.trans hform)
  rwa [Int.ModEq, Int.emod_eq_of_lt r.value_nonneg hr] at hmod

theorem product_through_monty_forty :
    ∃ (tx p r : I31 41),
      brI31ToMonty [41, 3, 2] [41, 1515870811, 499] = some (tx.array []) ∧
        brI31Montymul [0, 7, 7] (tx.array []) (tx.array []) [41, 1515870811, 499]
          (brI31Ninv31 1515870811) = some (p.array []) ∧
        brI31FromMonty (p.array []) [41, 1515870811, 499] (brI31Ninv31 1515870811) =
          some (r.array []) ∧
        r.value = 4294967299 ^ 2 % 1073110211163 := by
  obtain ⟨tx, ty, p, r, hx, hy, hmul, -, hfrom, hvalue⟩ := product_through_monty
    (m := fortyBits) (x := smallFactor) (y := smallFactor) [] [] rfl (by decide)
    (fun _ => exact_fortyBits) (by decide) (by decide) [] [] 0
    (rfl : [(7 : Word), 7].length = 2)
  have hsame : ty.array [] = tx.array [] := Option.some_inj.mp (hy.symm.trans hx)
  exact ⟨tx, p, r, hx, hsame ▸ hmul, hfrom, hvalue.trans (by decide)⟩

end Form

end MicroSampler.BearSSL
