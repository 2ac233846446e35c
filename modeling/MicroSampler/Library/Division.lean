import Mathlib.Algebra.Order.Group.Nat
import Mathlib.Algebra.Order.Ring.Nat
import Mathlib.Tactic.Linarith
import Mathlib.Tactic.Ring

/-!
# Division by shifts and by estimates

Two ways to divide natural numbers. Restoring division subtracts the divisor shifted by
`k` whenever it fits and records bit `k` of the quotient. A quotient of one digit may also
be estimated from the leading digits alone, and the estimate is off by at most one when the
divisor's leading digit is at least half the base.
-/

namespace MicroSampler.Division

/-! ## Restoring division -/

/-- The dividend `N` after the quotient bits from `k` on are known: `q` collects them, `v`
is what is left to divide. -/
structure Restoring (N d k q v : Nat) : Prop where
  sum : N = q * d + v
  lt : v < d * 2 ^ k
  dvd : 2 ^ k ∣ q

theorem Restoring.start {N d k : Nat} (h : N < d * 2 ^ k) : Restoring N d k 0 N :=
  ⟨by rw [Nat.zero_mul, Nat.zero_add], h, Nat.dvd_zero _⟩

/-- The divisor fits at bit `k`. -/
theorem Restoring.take {N d k q v : Nat} (h : Restoring N d (k + 1) q v)
    (hfit : d * 2 ^ k ≤ v) : Restoring N d k (q + 2 ^ k) (v - d * 2 ^ k) := by
  obtain ⟨hsum, hlt, hdvd⟩ := h
  rw [Nat.pow_succ] at hlt
  refine ⟨?_, ?_, ?_⟩
  · have hprod : (q + 2 ^ k) * d = q * d + d * 2 ^ k := by ring
    omega
  · have hdouble : d * (2 ^ k * 2) = d * 2 ^ k + d * 2 ^ k := by ring
    omega
  · exact Nat.dvd_add ((Nat.pow_dvd_pow 2 (Nat.le_succ k)).trans hdvd) (Nat.dvd_refl _)

/-- The divisor does not fit at bit `k`. -/
theorem Restoring.skip {N d k q v : Nat} (h : Restoring N d (k + 1) q v)
    (hfit : v < d * 2 ^ k) : Restoring N d k q v :=
  ⟨h.sum, hfit, (Nat.pow_dvd_pow 2 (Nat.le_succ k)).trans h.dvd⟩

/-- After the last bit the rest is the remainder. -/
theorem Restoring.done {N d q v : Nat} (h : Restoring N d 0 q v) : N / d = q ∧ N % d = v := by
  obtain ⟨hsum, hlt, -⟩ := h
  rw [Nat.pow_zero, Nat.mul_one] at hlt
  have hd : 0 < d := by omega
  rw [hsum]
  constructor
  · rw [Nat.mul_comm, Nat.mul_add_div hd, Nat.div_eq_of_lt hlt, Nat.add_zero]
  · rw [Nat.mul_comm, Nat.mul_add_mod, Nat.mod_eq_of_lt hlt]

/-! ## Estimating a quotient digit -/

/-- The estimate of `V / M` for a quotient below the base `2 * B`: one less than the
quotient of the leading parts `V / S` and `M / S`, and the largest digit where that
quotient does not fit. -/
def estimate (B S V M : Nat) : Nat :=
  if V / S / (2 * B) = M / S then 2 * B - 1 else V / S / (M / S) - 1

/-- **The estimate is off by at most one**: subtracting that many divisors leaves more than
`-M` and less than `2 * M`. -/
theorem estimate_bounds {B S V M : Nat} (hS : 0 < S) (hlow : B ≤ M / S) (hB : 0 < B)
    (hV : V < M * (2 * B)) :
    estimate B S V M * M ≤ V + M ∧ V < (estimate B S V M + 2) * M := by
  have hA := Nat.div_mul_le_self V S
  have hb := Nat.div_mul_le_self M S
  have hA' : V < (V / S + 1) * S := by
    have := Nat.lt_div_mul_add (a := V) hS
    rwa [Nat.succ_mul]
  have hb' : M < (M / S + 1) * S := by
    have := Nat.lt_div_mul_add (a := M) hS
    rwa [Nat.succ_mul]
  unfold estimate
  generalize V / S = A at *
  generalize M / S = b at *
  by_cases hfull : A / (2 * B) = b
  · rw [if_pos hfull]
    have hAb : b * (2 * B) ≤ A := by
      rw [← hfull]
      exact Nat.div_mul_le_self A (2 * B)
    refine ⟨?_, ?_⟩
    · obtain ⟨c, rfl⟩ : ∃ c, B = c + 1 := ⟨B - 1, by omega⟩
      have hrest : 2 * (c + 1) - 1 = 2 * c + 1 := by omega
      rw [hrest]
      have hlead : 2 * c * (b + 1) ≤ A := by nlinarith
      have hwhole : 2 * c * M ≤ V := calc
        2 * c * M ≤ 2 * c * ((b + 1) * S) := Nat.mul_le_mul_left _ hb'.le
        _ = 2 * c * (b + 1) * S := by ring
        _ ≤ A * S := Nat.mul_le_mul_right _ hlead
        _ ≤ V := hA
      linarith
    · refine hV.trans_le ?_
      rw [Nat.mul_comm]
      exact Nat.mul_le_mul_right M (by omega)
  · rw [if_neg hfull]
    have hbpos : 0 < b := hB.trans_le hlow
    have hg := Nat.div_mul_le_self A b
    have hg' : A < (A / b + 1) * b := by
      have := Nat.lt_div_mul_add (a := A) hbpos
      rwa [Nat.succ_mul]
    have hAM : A * S < (b + 1) * (2 * B) * S := by nlinarith
    have hAtop : A < (b + 1) * (2 * B) := Nat.lt_of_mul_lt_mul_right hAM
    have hAb : A < b * (2 * B) := by
      have hquot : A / (2 * B) < b + 1 := (Nat.div_lt_iff_lt_mul (by omega)).mpr hAtop
      exact (Nat.div_lt_iff_lt_mul (by omega)).mp (by omega : A / (2 * B) < b)
    have hdigit : A / b < 2 * B := (Nat.div_lt_iff_lt_mul hbpos).mpr (by linarith)
    generalize A / b = g at *
    have hupper : V < (g + 1) * M := calc
      V < (A + 1) * S := hA'
      _ ≤ (g + 1) * b * S := Nat.mul_le_mul_right _ hg'
      _ = (g + 1) * (b * S) := by ring
      _ ≤ (g + 1) * M := Nat.mul_le_mul_left _ hb
    refine ⟨?_, hupper.trans_le (Nat.mul_le_mul_right M (by omega))⟩
    rcases Nat.lt_or_ge g 2 with hsmall | hlarge
    · have hle : (g - 1) * M ≤ 0 * M := Nat.mul_le_mul_right M (by omega)
      omega
    · obtain ⟨c, rfl⟩ : ∃ c, g = c + 2 := ⟨g - 2, by omega⟩
      have hlead : c * (b + 1) ≤ A := by nlinarith
      have hwhole : c * M ≤ V := calc
        c * M ≤ c * ((b + 1) * S) := Nat.mul_le_mul_left _ hb'.le
        _ = c * (b + 1) * S := by ring
        _ ≤ A * S := Nat.mul_le_mul_right _ hlead
        _ ≤ V := hA
      have hone : (c + 2 - 1) * M = c * M + M := by
        rw [show c + 2 - 1 = c + 1 by omega, Nat.succ_mul]
      omega

end MicroSampler.Division
