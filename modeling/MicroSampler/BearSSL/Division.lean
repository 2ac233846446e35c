import MicroSampler.BearSSL.ConstantTime
import MicroSampler.Library.Division

/-!
# Division of a double word: `br_divrem`

`br_divrem` divides the double word `hi:lo` by `d`, one quotient bit for each pass and
without a branch. Before the pass for bit `k` the words `hi:lo` hold what is left to
divide and `q` the quotient bits above `k`: the state of a restoring division, in which
the divisor shifted by `k` is subtracted when it fits.
-/

namespace MicroSampler.BearSSL

open Division

/-- What the loop of `br_divrem` rewrites. -/
structure DivremState where
  hi : Word
  lo : Word
  q : Word
  deriving DecidableEq

/-- The pass of the loop for bit `k`. -/
def divremStep (d : Word) (k : Nat) (s : DivremState) : DivremState :=
  let j := 32 - k
  let w := (s.hi <<< j) ||| (s.lo >>> k)
  let ctl := GE w d ||| (s.hi >>> k)
  let hi2 := (w - d) >>> j
  let lo2 := s.lo - (d <<< k)
  { hi := MUX ctl hi2 s.hi
    lo := MUX ctl lo2 s.lo
    q := s.q ||| (ctl <<< k) }

/-- The loop from bit `k` down to bit one. -/
def divremFrom (d : Word) : (k : Nat) → DivremState → DivremState
  | 0, s => s
  | k + 1, s => divremFrom d k (divremStep d (k + 1) s)

/-- The quotient and the remainder `br_divrem` computes. -/
def brDivrem (hi lo d : Word) : Word × Word :=
  let ch := EQ hi d
  let s := divremFrom d 31 ⟨MUX ch 0 hi, lo, 0⟩
  let cf := GE s.lo d ||| s.hi
  (s.q ||| cf, MUX cf (s.lo - d) s.lo)

def brRem (hi lo d : Word) : Word := (brDivrem hi lo d).2

def brDiv (hi lo d : Word) : Word := (brDivrem hi lo d).1

/-! ## One pass -/

/-- The double word `hi:lo`. -/
def double (hi lo : Word) : Nat := hi.toNat * 2 ^ 32 + lo.toNat

def DivremState.rest (s : DivremState) : Nat := double s.hi s.lo

/-- A word with its low bits clear and a shorter one do not overlap. -/
theorem toNat_or_of_lt {a b : Word} {i : Nat} (ha : 2 ^ i ∣ a.toNat) (hb : b.toNat < 2 ^ i) :
    (a ||| b).toNat = a.toNat + b.toNat := by
  obtain ⟨c, hc⟩ := ha
  rw [BitVec.toNat_or, hc, ← Nat.two_pow_add_eq_or_of_lt hb]

/-- The window of the double word that the pass compares: the 33 bits from bit `k` on. -/
theorem window_eq {s : DivremState} {k : Nat} (hk : k ≤ 32) :
    s.rest / 2 ^ k = (s.hi >>> k).toNat * 2 ^ 32 +
      ((s.hi <<< (32 - k)) ||| (s.lo >>> k)).toNat := by
  have hsplit : 2 ^ 32 = 2 ^ k * 2 ^ (32 - k) := by rw [← Nat.pow_add, Nat.add_sub_cancel' hk]
  have hleft : (s.hi <<< (32 - k)).toNat = s.hi.toNat % 2 ^ k * 2 ^ (32 - k) := by
    rw [BitVec.toNat_shiftLeft, Nat.shiftLeft_eq, hsplit, Nat.mul_mod_mul_right]
  have hlow : (s.lo >>> k).toNat < 2 ^ (32 - k) := by
    rw [BitVec.toNat_ushiftRight, Nat.shiftRight_eq_div_pow,
      Nat.div_lt_iff_lt_mul (Nat.two_pow_pos k), Nat.mul_comm, ← hsplit]
    exact s.lo.isLt
  rw [toNat_or_of_lt (hleft ▸ Nat.dvd_mul_left _ _) hlow, hleft, BitVec.toNat_ushiftRight,
    BitVec.toNat_ushiftRight, Nat.shiftRight_eq_div_pow, Nat.shiftRight_eq_div_pow,
    DivremState.rest, double]
  have hhi := Nat.div_add_mod s.hi.toNat (2 ^ k)
  have hsum : s.hi.toNat * 2 ^ 32 + s.lo.toNat =
      2 ^ k * (s.hi.toNat * 2 ^ (32 - k)) + s.lo.toNat := by
    rw [hsplit]
    ring
  rw [hsum, Nat.mul_add_div (Nat.two_pow_pos k)]
  conv_lhs => rw [← hhi]
  rw [hsplit]
  ring

/-- The control word of the pass tells whether the shifted divisor fits. -/
theorem divremStep_ctl {s : DivremState} {d : Word} {k : Nat} (hk : k ≤ 32)
    (hlt : s.rest < d.toNat * 2 ^ (k + 1)) :
    GE ((s.hi <<< (32 - k)) ||| (s.lo >>> k)) d ||| (s.hi >>> k) =
      flag (d.toNat * 2 ^ k ≤ s.rest) := by
  have hwindow := window_eq (s := s) hk
  have hd := d.isLt
  have hw := ((s.hi <<< (32 - k)) ||| (s.lo >>> k)).isLt
  have hsmall : s.rest / 2 ^ k < 2 * d.toNat := by
    rw [Nat.div_lt_iff_lt_mul (Nat.two_pow_pos k)]
    rw [Nat.pow_succ] at hlt
    linarith
  have hfits : d.toNat * 2 ^ k ≤ s.rest ↔ d.toNat ≤ s.rest / 2 ^ k :=
    (Nat.le_div_iff_mul_le (Nat.two_pow_pos k)).symm
  generalize hv : (s.hi <<< (32 - k)) ||| (s.lo >>> k) = w at hwindow hw ⊢
  have hover : s.hi >>> k = flag ((s.hi >>> k).toNat = 1) := by
    apply BitVec.eq_of_toNat_eq
    rw [toNat_flag]
    split_ifs <;> omega
  rw [GE_eq, hover, flag_or]
  apply flag_congr
  rw [hfits]
  omega

/-- **One quotient bit.** The pass for bit `k` is a step of the restoring division. -/
theorem divremStep_restoring {N k : Nat} {d : Word} {s : DivremState} (hk : k < 32)
    (h : Restoring N d.toNat (k + 1) s.q.toNat s.rest) :
    Restoring N d.toNat k (divremStep d k s).q.toNat (divremStep d k s).rest := by
  have hctl := divremStep_ctl hk.le h.lt
  have hwindow := window_eq (s := s) hk.le
  by_cases hfit : d.toNat * 2 ^ k ≤ s.rest
  · rw [flag_of hfit] at hctl
    have hbit : ((1 : Word) <<< k).toNat = 2 ^ k := by
      rw [BitVec.toNat_shiftLeft, Nat.shiftLeft_eq]
      exact (Nat.mod_eq_of_lt (by simpa using Nat.pow_lt_pow_right (by decide) hk)).trans
        (Nat.one_mul _)
    have hq : (s.q ||| (1 : Word) <<< k).toNat = s.q.toNat + 2 ^ k := by
      rw [toNat_or_of_lt h.dvd (hbit ▸ Nat.pow_lt_pow_right (by decide) (Nat.lt_succ_self k)), hbit]
    have hrest : double (((s.hi <<< (32 - k) ||| s.lo >>> k) - d) >>> (32 - k))
        (s.lo - d <<< k) = s.rest - d.toNat * 2 ^ k := by
      have hd := d.isLt
      have hw := ((s.hi <<< (32 - k)) ||| (s.lo >>> k)).isLt
      have hlo := s.lo.isLt
      have htop : s.rest / 2 ^ k < 2 * d.toNat := by
        rw [Nat.div_lt_iff_lt_mul (Nat.two_pow_pos k)]
        have := h.lt
        rw [Nat.pow_succ] at this
        linarith
      have hfit' : d.toNat ≤ s.rest / 2 ^ k :=
        (Nat.le_div_iff_mul_le (Nat.two_pow_pos k)).mpr hfit
      have hdiff : ((s.hi <<< (32 - k) ||| s.lo >>> k) - d).toNat = s.rest / 2 ^ k - d.toNat := by
        rw [BitVec.toNat_sub]
        omega
      have hshift : (s.rest / 2 ^ k - d.toNat) / 2 ^ (32 - k) =
          (s.rest - d.toNat * 2 ^ k) / 2 ^ 32 := by
        rw [← Nat.sub_mul_div, Nat.div_div_eq_div_mul, ← Nat.pow_add, Nat.add_sub_cancel' hk.le,
          Nat.mul_comm]
      have hlow : (s.lo - d <<< k).toNat = (s.rest - d.toNat * 2 ^ k) % 2 ^ 32 := by
        rw [BitVec.toNat_sub, BitVec.toNat_shiftLeft, Nat.shiftLeft_eq]
        have hsum : s.rest = s.hi.toNat * 2 ^ 32 + s.lo.toNat := rfl
        omega
      rw [double, BitVec.toNat_ushiftRight, Nat.shiftRight_eq_div_pow, hdiff, hshift, hlow,
        Nat.mul_comm, Nat.div_add_mod]
    have hstep : divremStep d k s = ⟨((s.hi <<< (32 - k) ||| s.lo >>> k) - d) >>> (32 - k),
        s.lo - d <<< k, s.q ||| (1 : Word) <<< k⟩ := by
      simp only [divremStep, hctl, MUX_one]
    rw [hstep, DivremState.rest, hq, hrest]
    exact h.take hfit
  · rw [flag_of_not hfit] at hctl
    have hzero : (0 : Word) <<< k = 0#32 := BitVec.zero_shiftLeft k
    have hstep : divremStep d k s = s := by
      simp only [divremStep, hctl, MUX_zero, hzero, BitVec.or_zero]
    rw [hstep]
    exact h.skip (Nat.lt_of_not_le hfit)

theorem divremFrom_restoring {N k : Nat} {d : Word} {s : DivremState} (hk : k < 32)
    (h : Restoring N d.toNat (k + 1) s.q.toNat s.rest) :
    Restoring N d.toNat 1 (divremFrom d k s).q.toNat (divremFrom d k s).rest := by
  induction k generalizing s with
  | zero => exact h
  | succ k ih => exact ih (by omega) (divremStep_restoring hk h)

/-! ## The whole division -/

/-- The last bit, for which nothing is shifted. -/
theorem divrem_last {N : Nat} {d : Word} {s : DivremState}
    (h : Restoring N d.toNat 1 s.q.toNat s.rest) :
    Restoring N d.toNat 0 (s.q ||| (GE s.lo d ||| s.hi)).toNat
      (MUX (GE s.lo d ||| s.hi) (s.lo - d) s.lo).toNat := by
  have hctl := divremStep_ctl (s := s) (k := 0) (by omega) h.lt
  have hzero : s.hi <<< 32 = 0#32 := by
    apply BitVec.eq_of_toNat_eq
    rw [BitVec.toNat_shiftLeft, Nat.shiftLeft_eq, Nat.mul_mod_left]
    rfl
  rw [Nat.sub_zero, hzero, BitVec.ushiftRight_zero, BitVec.ushiftRight_zero, BitVec.zero_or] at hctl
  rw [hctl, MUX_flag]
  have hsum : s.rest = s.hi.toNat * 2 ^ 32 + s.lo.toNat := rfl
  have hlt := h.lt
  have hd := d.isLt
  have hlo := s.lo.isLt
  by_cases hfit : d.toNat * 2 ^ 0 ≤ s.rest
  · rw [if_pos hfit, flag_of hfit]
    have hq : (s.q ||| 1).toNat = s.q.toNat + 2 ^ 0 := toNat_or_of_lt h.dvd (by decide)
    have hr : (s.lo - d).toNat = s.rest - d.toNat * 2 ^ 0 := by
      rw [BitVec.toNat_sub]
      omega
    rw [hq, hr]
    exact h.take hfit
  · rw [if_neg hfit, flag_of_not hfit, BitVec.ofNat_eq_ofNat, BitVec.or_zero]
    have hr : s.lo.toNat = s.rest := by omega
    rw [hr]
    exact h.skip (Nat.lt_of_not_le hfit)

/-- **Division.** For a high word not above the divisor the results are the remainder, and
the quotient truncated to a word: it is too long when the high word is the divisor. -/
theorem brDivrem_eq {hi d : Word} (lo : Word) (hd : 0 < d.toNat) (hhi : hi.toNat ≤ d.toNat) :
    (brDivrem hi lo d).1.toNat = double hi lo / d.toNat % 2 ^ 32 ∧
      (brDivrem hi lo d).2.toNat = double hi lo % d.toNat := by
  have hlo := lo.isLt
  -- the loop starts with a high word below the divisor in either case
  obtain ⟨top, htop, hlt, hdouble⟩ : ∃ top : Word, MUX (EQ hi d) 0 hi = top ∧
      top.toNat < d.toNat ∧
      double hi lo = double top lo + if hi = d then d.toNat * 2 ^ 32 else 0 := by
    rw [EQ_eq, MUX_flag]
    by_cases h : hi = d
    · refine ⟨0, by rw [if_pos h], hd, ?_⟩
      rw [if_pos h, h]
      unfold double
      simp only [BitVec.ofNat_eq_ofNat, BitVec.toNat_ofNat, Nat.zero_mod]
      omega
    · refine ⟨hi, by rw [if_neg h], ?_, by rw [if_neg h, Nat.add_zero]⟩
      have hne : hi.toNat ≠ d.toNat := fun heq => h (BitVec.eq_of_toNat_eq heq)
      omega
  have hstart : double top lo < d.toNat * 2 ^ (31 + 1) := by
    unfold double
    omega
  have hrun := (divrem_last (divremFrom_restoring (s := ⟨top, lo, 0⟩) (by decide)
    (Restoring.start hstart))).done
  have hquot : (brDivrem hi lo d).1.toNat = double top lo / d.toNat := by
    rw [brDivrem, htop]
    exact hrun.1.symm
  have hrem : (brDivrem hi lo d).2.toNat = double top lo % d.toNat := by
    rw [brDivrem, htop]
    exact hrun.2.symm
  have hsmall : double top lo / d.toNat < 2 ^ 32 := by
    rw [Nat.div_lt_iff_lt_mul hd, Nat.mul_comm]
    exact hstart
  rw [hquot, hrem, hdouble]
  by_cases h : hi = d
  · rw [if_pos h, Nat.add_mul_div_left _ _ hd, Nat.add_mul_mod_self_left, Nat.add_mod_right,
      Nat.mod_eq_of_lt hsmall]
    exact ⟨rfl, rfl⟩
  · rw [if_neg h, Nat.add_zero, Nat.mod_eq_of_lt hsmall]
    exact ⟨rfl, rfl⟩

/-- **Quotient and remainder.** `br_rem` is below the divisor, and `br_div` is the quotient
up to the bit that does not fit when the high word is the divisor. -/
theorem brDiv_brRem {hi lo d : Word} (hd : 0 < d.toNat) (hhi : hi.toNat ≤ d.toNat) :
    (brRem hi lo d).toNat < d.toNat ∧
      double hi lo =
        ((brDiv hi lo d).toNat + if hi = d then 2 ^ 32 else 0) * d.toNat +
          (brRem hi lo d).toNat := by
  obtain ⟨hquot, hrem⟩ := brDivrem_eq lo hd hhi
  have hlo := lo.isLt
  rw [brDiv, brRem, hquot, hrem]
  refine ⟨Nat.mod_lt _ hd, ?_⟩
  have hdiv := Nat.div_add_mod (double hi lo) d.toNat
  by_cases h : hi = d
  · have hsum : double hi lo = lo.toNat + d.toNat * 2 ^ 32 := by
      rw [double, h]
      ring
    have hsmall : lo.toNat / d.toNat < 2 ^ 32 := (Nat.div_le_self _ _).trans_lt hlo
    have htop : double hi lo / d.toNat = lo.toNat / d.toNat + 2 ^ 32 := by
      rw [hsum, Nat.add_mul_div_left _ _ hd]
    rw [if_pos h]
    have hlow : double hi lo / d.toNat % 2 ^ 32 = lo.toNat / d.toNat := by
      rw [htop, Nat.add_mod_right, Nat.mod_eq_of_lt hsmall]
    rw [hlow, ← htop, Nat.mul_comm, hdiv]
  · have hne : hi.toNat ≠ d.toNat := fun heq => h (BitVec.eq_of_toNat_eq heq)
    have hsmall : double hi lo / d.toNat < 2 ^ 32 := by
      rw [Nat.div_lt_iff_lt_mul hd, double]
      have hstep : (hi.toNat + 1) * 2 ^ 32 ≤ d.toNat * 2 ^ 32 :=
        Nat.mul_le_mul_right _ (by omega)
      omega
    rw [if_neg h, Nat.add_zero, Nat.mod_eq_of_lt hsmall, Nat.mul_comm, hdiv]

theorem brDiv_brRem_seven :
    (brRem 7 5 7).toNat < 7 ∧
      double 7 5 = ((brDiv 7 5 7).toNat + 2 ^ 32) * 7 + (brRem 7 5 7).toNat :=
  brDiv_brRem (by decide) (by decide)

end MicroSampler.BearSSL
