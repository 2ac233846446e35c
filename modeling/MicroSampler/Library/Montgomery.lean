import Mathlib.Data.Int.ModEq
import Mathlib.Data.Nat.ModEq
import Mathlib.RingTheory.Coprime.Lemmas
import Mathlib.Tactic.Linarith
import Mathlib.Tactic.LinearCombination
import Mathlib.Tactic.Ring

/-!
# Montgomery reduction and powers

A Montgomery multiplication takes the digits of one factor from the least significant on,
adds the other factor times the digit, then the multiple of the modulus that makes the sum
divisible by the base, and divides. `Reduced` is what holds between two digits and
`Reduced.step` one digit; after all digits one subtraction at most is missing. The rest of
the file is what the callers of such a multiplication need: an inverse by Newton's
iteration, and powers collected from the bits of the exponent.
-/

namespace MicroSampler.Montgomery

/-! ## One digit at a time -/

/-- The partial product `t` after `u` digits with value `X`, the second factor being `y`. -/
structure Reduced (W m y : ℤ) (u : Nat) (X t : ℤ) : Prop where
  nonneg : 0 ≤ t
  lt : t < 2 * m
  modEq : W ^ u * t ≡ X * y [ZMOD m]

theorem Reduced.start {W m : ℤ} (y : ℤ) (hm : 0 < m) : Reduced W m y 0 0 0 :=
  ⟨le_refl 0, by linarith, by rw [mul_zero, zero_mul]⟩

/-- The factor `f` chosen from the last digits makes the sum divisible. -/
theorem dvd_add_mul {W t m0 m0i f : ℤ} (hinv : m0 * m0i ≡ -1 [ZMOD W])
    (hf : f ≡ t * m0i [ZMOD W]) : W ∣ t + f * m0 := by
  have h : t + f * m0 ≡ t + t * (m0 * m0i) [ZMOD W] := by
    have := (hf.mul_right m0).add_left t
    rwa [mul_assoc, mul_comm m0i] at this
  have hzero : t + t * (m0 * m0i) ≡ 0 [ZMOD W] := by
    have := (hinv.mul_left t).add_left t
    rwa [mul_neg_one, add_neg_cancel] at this
  exact Int.modEq_zero_iff_dvd.mp (h.trans hzero)

theorem Reduced.step {W m y X t x f t' : ℤ} {u : Nat} (h : Reduced W m y u X t) (hW : 0 < W)
    (hx : 0 ≤ x ∧ x < W) (hf : 0 ≤ f ∧ f < W) (hy : 0 ≤ y ∧ y < m)
    (hsum : W * t' = t + x * y + f * m) :
    Reduced W m y (u + 1) (X + W ^ u * x) t' := by
  obtain ⟨hnonneg, hlt, hmod⟩ := h
  have hm : 0 < m := hy.1.trans_lt hy.2
  have hxy : x * y ≤ (W - 1) * m := by nlinarith [hx.1, hx.2, hy.1, hy.2]
  have hfm : f * m ≤ (W - 1) * m := mul_le_mul_of_nonneg_right (by omega) hm.le
  refine ⟨?_, ?_, ?_⟩
  · have h1 := mul_nonneg hx.1 hy.1
    have h2 := mul_nonneg hf.1 hm.le
    by_contra hneg
    have : W * t' < 0 := mul_neg_of_pos_of_neg hW (by omega)
    omega
  · have hsmall : W * t' < W * (2 * m) := by linarith
    exact lt_of_mul_lt_mul_left hsmall hW.le
  · have hpow : W ^ (u + 1) * t' = W ^ u * t + W ^ u * x * y + W ^ u * f * m := by
      rw [pow_succ]
      linear_combination W ^ u * hsum
    rw [hpow, add_mul]
    have hdrop : W ^ u * t + W ^ u * x * y + W ^ u * f * m ≡
        W ^ u * t + W ^ u * x * y [ZMOD m] := by
      have : W ^ u * f * m ≡ 0 [ZMOD m] :=
        Int.modEq_zero_iff_dvd.mpr (Dvd.intro_left _ rfl)
      have := this.add_left (W ^ u * t + W ^ u * x * y)
      rwa [add_zero] at this
    exact hdrop.trans (hmod.add_right _)

/-! ## An inverse by Newton's iteration -/

/-- One iteration squares the error. -/
theorem newton_error {R : Type} [CommRing R] (x y : R) :
    1 - x * (y * (2 - y * x)) = (1 - x * y) ^ 2 := by ring

/-! ## Powers from the bits of the exponent -/

/-- One more bit of the exponent, from the least significant on. -/
theorem pow_mod_two_pow_succ {M : Type} [Monoid M] (x : M) (e k : Nat) :
    x ^ (e % 2 ^ (k + 1)) = x ^ (e % 2 ^ k) * if e.testBit k then x ^ 2 ^ k else 1 := by
  have hbit : e % 2 ^ (k + 1) = e % 2 ^ k + 2 ^ k * (e.testBit k).toNat := by
    rw [Nat.pow_succ, Nat.mod_mul, Nat.toNat_testBit]
  rw [hbit, pow_add]
  cases e.testBit k <;> simp

theorem pow_two_pow_succ {M : Type} [Monoid M] (x : M) (k : Nat) :
    x ^ 2 ^ (k + 1) = x ^ 2 ^ k * x ^ 2 ^ k := by
  rw [pow_succ, pow_mul, sq]

/-- A window of the exponent, from the most significant bits on: `k` squarings and one
product extend the power by `k` bits. -/
theorem pow_window {M : Type} [Monoid M] (x : M) (e k n : Nat) :
    (x ^ (e / 2 ^ (n + k))) ^ 2 ^ k * x ^ (e / 2 ^ n % 2 ^ k) = x ^ (e / 2 ^ n) := by
  rw [← pow_mul, ← pow_add, pow_add 2, ← Nat.div_div_eq_div_mul, Nat.div_add_mod']

/-- Powers of two cancel modulo an odd number. -/
theorem cancel_two_pow {m a b : ℤ} (hm : m % 2 = 1) (hpos : 0 < m) (k : Nat)
    (h : 2 ^ k * a ≡ 2 ^ k * b [ZMOD m]) : a ≡ b [ZMOD m] := by
  have hcop : IsCoprime m (2 ^ k) := by
    refine IsCoprime.pow_right ⟨1, -(m / 2), ?_⟩
    have := Int.emod_add_mul_ediv m 2
    linarith
  have hgcd : (m.gcd (2 ^ k) : ℤ) = 1 := by
    rw [Int.isCoprime_iff_gcd_eq_one.mp hcop]
    rfl
  have hcancel := Int.ModEq.cancel_left_div_gcd hpos h
  rwa [hgcd, Int.ediv_one] at hcancel

end MicroSampler.Montgomery
