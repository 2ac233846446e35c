import Mathlib.Algebra.Ring.GeomSum
import Mathlib.Algebra.Ring.Parity
import Mathlib.Data.Int.ModEq
import Mathlib.Data.Nat.ModEq
import Mathlib.RingTheory.Int.Basic
import Mathlib.Tactic.LinearCombination
import Mathlib.Tactic.Ring

/-!
# Linear congruential sequences modulo a power of two

The sequence `x`, `a * x + c`, `a * (a * x + c) + c`, … modulo `2 ^ k`. When `a` is 1 modulo 4
and `c` is odd, it runs through all residues before it repeats (`iterate_modEq_iff`).
-/

namespace MicroSampler.Congruential

open Finset

/-- One step of the sequence. -/
def next (a c x : ℤ) : ℤ := a * x + c

/-- `1 + a + … + a ^ (n - 1)`. -/
def geometric (a : ℤ) (n : Nat) : ℤ := ∑ i ∈ range n, a ^ i

theorem iterate_next (a c x : ℤ) (n : Nat) :
    (next a c)^[n] x = a ^ n * x + c * geometric a n := by
  induction n with
  | zero => simp [geometric]
  | succ n ih =>
    rw [Function.iterate_succ_apply', ih, next, geometric, geometric, geom_sum_succ]
    ring

theorem geometric_mul (a : ℤ) (n : Nat) : geometric a n * (a - 1) = a ^ n - 1 :=
  geom_sum_mul a n

/-- What `n` steps add to a number. -/
theorem iterate_next_sub (a c x : ℤ) (n : Nat) :
    (next a c)^[n] x - x = geometric a n * ((a - 1) * x + c) := by
  rw [iterate_next]
  linear_combination -x * geometric_mul a n

/-! ## Divisibility of the sums -/

theorem geometric_double (a : ℤ) (n : Nat) :
    geometric a (2 * n) = geometric a n * (1 + a ^ n) := by
  rw [geometric, two_mul, sum_range_add]
  simp only [pow_add, ← mul_sum]
  rw [← geometric]
  ring

theorem odd_geometric_iff {a : ℤ} (ha : Odd a) (n : Nat) : Odd (geometric a n) ↔ Odd n := by
  induction n with
  | zero => simp [geometric]
  | succ n ih =>
    rw [geometric, sum_range_succ, ← geometric, Int.odd_add, ih, Nat.odd_add_one]
    have hpow : ¬ Even (a ^ n) := Int.not_even_iff_odd.mpr ha.pow
    tauto

/-- The other factor of a doubled sum is twice an odd number. -/
theorem exists_odd_half {a : ℤ} (ha : a ≡ 1 [ZMOD 4]) (n : Nat) :
    ∃ b, Odd b ∧ 1 + a ^ n = 2 * b := by
  have hpow : a ^ n ≡ 1 [ZMOD 4] := by simpa using ha.pow n
  obtain ⟨t, ht⟩ := hpow.symm.dvd
  exact ⟨2 * t + 1, ⟨t, rfl⟩, by linear_combination ht⟩

theorem two_pow_dvd_mul_odd_iff {b : ℤ} (hb : Odd b) (k : Nat) (m : ℤ) :
    2 ^ k ∣ m * b ↔ 2 ^ k ∣ m := by
  have hcoprime : IsCoprime ((2 : ℤ) ^ k) b := (Int.isCoprime_two_left.mpr hb).pow_left
  exact ⟨hcoprime.dvd_of_dvd_mul_right, fun hdvd => hdvd.mul_right b⟩

/-- The sums are divisible by the powers of two that divide the number of their terms. -/
theorem two_pow_dvd_geometric_iff {a : ℤ} (ha : a ≡ 1 [ZMOD 4]) (k n : Nat) :
    (2 : ℤ) ^ k ∣ geometric a n ↔ 2 ^ k ∣ n := by
  induction k generalizing n with
  | zero => simp
  | succ k ih =>
    obtain ⟨m, rfl | rfl⟩ := Nat.even_or_odd' n
    · -- an even number of terms: halve it and drop the odd factor
      obtain ⟨b, hb, hhalf⟩ := exists_odd_half ha m
      rw [geometric_double, hhalf, pow_succ', pow_succ', show geometric a m * (2 * b) =
        2 * (geometric a m * b) by ring, mul_dvd_mul_iff_left two_ne_zero,
        two_pow_dvd_mul_odd_iff hb, ih, Nat.mul_dvd_mul_iff_left two_pos]
    · have hodd : Odd a := by
        obtain ⟨t, ht⟩ := ha.symm.dvd
        exact ⟨2 * t, by linear_combination ht⟩
      have hterms : Odd (2 * m + 1) := ⟨m, rfl⟩
      have hsum := (odd_geometric_iff hodd _).mpr hterms
      constructor
      · intro hdvd
        exact absurd (even_iff_two_dvd.mpr ((dvd_pow_self 2 k.succ_ne_zero).trans hdvd))
          (Int.not_even_iff_odd.mpr hsum)
      · intro hdvd
        exact absurd (even_iff_two_dvd.mpr ((dvd_pow_self 2 k.succ_ne_zero).trans hdvd))
          (Nat.not_even_iff_odd.mpr hterms)

/-! ## The period -/

section Period

variable {a c : ℤ} (ha : a ≡ 1 [ZMOD 4]) (hc : Odd c)

include ha hc

/-- After `n` steps the sequence is where it was exactly when `2 ^ k` divides `n`. -/
theorem iterate_modEq_self_iff (k n : Nat) (x : ℤ) :
    (next a c)^[n] x ≡ x [ZMOD 2 ^ k] ↔ 2 ^ k ∣ n := by
  obtain ⟨t, ht⟩ := ha.symm.dvd
  have hstep : Odd ((a - 1) * x + c) := by
    obtain ⟨r, hr⟩ := hc
    exact ⟨2 * t * x + r, by linear_combination x * ht + hr⟩
  rw [Int.modEq_comm, Int.modEq_iff_dvd, iterate_next_sub, two_pow_dvd_mul_odd_iff hstep,
    two_pow_dvd_geometric_iff ha]

/-- Two members of the sequence agree exactly when their positions do. -/
theorem iterate_modEq_iff (k i j : Nat) (x : ℤ) :
    (next a c)^[i] x ≡ (next a c)^[j] x [ZMOD 2 ^ k] ↔ i ≡ j [MOD 2 ^ k] := by
  wlog hij : i ≤ j generalizing i j
  · rw [Int.modEq_comm, this j i (Nat.le_of_not_le hij)]
    exact ⟨Nat.ModEq.symm, Nat.ModEq.symm⟩
  rw [Nat.modEq_iff_dvd' hij, ← iterate_modEq_self_iff ha hc k (j - i) ((next a c)^[i] x),
    ← Function.iterate_add_apply, Nat.sub_add_cancel hij, Int.modEq_comm]

end Period

end MicroSampler.Congruential
