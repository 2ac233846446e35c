import Mathlib.Tactic.SplitIfs
import MicroSampler.BearSSL.ConditionalCopy

/-!
# Constant-time comparisons

The comparisons of `inner.h` compute a control word without a branch: the top bit of a
word that is masked together from the operands. Each of them is `flag` of the comparison
it stands for, and the operations on control words are the connectives.
-/

namespace MicroSampler.BearSSL

def NOT (ctl : Word) : Word := ctl ^^^ 1

def EQ (x y : Word) : Word :=
  let q := x ^^^ y
  NOT ((q ||| -q) >>> 31)

def NEQ (x y : Word) : Word :=
  let q := x ^^^ y
  (q ||| -q) >>> 31

def GT (x y : Word) : Word :=
  let z := y - x
  (z ^^^ ((x ^^^ y) &&& (x ^^^ z))) >>> 31

def GE (x y : Word) : Word := NOT (GT y x)

def LT (x y : Word) : Word := GT y x

/-! ## Control words -/

/-- The control word of a condition. -/
def flag (p : Prop) [Decidable p] : Word := if p then 1 else 0

theorem toNat_flag (p : Prop) [Decidable p] : (flag p).toNat = if p then 1 else 0 := by
  unfold flag
  split <;> rfl

theorem flag_congr {p q : Prop} [Decidable p] [Decidable q] (h : p ↔ q) : flag p = flag q := by
  unfold flag
  simp only [h]

@[simp] theorem flag_true : flag True = 1 := rfl

@[simp] theorem flag_false : flag False = 0 := rfl

theorem flag_of {p : Prop} [Decidable p] (h : p) : flag p = 1 := if_pos h

theorem flag_of_not {p : Prop} [Decidable p] (h : ¬ p) : flag p = 0 := if_neg h

theorem flag_bit (p : Prop) [Decidable p] : flag p = 0 ∨ flag p = 1 := by
  by_cases h : p
  · exact Or.inr (flag_of h)
  · exact Or.inl (flag_of_not h)

theorem zero_bit : (0 : Word) = 0 ∨ (0 : Word) = 1 := Or.inl rfl

theorem one_bit : (1 : Word) = 0 ∨ (1 : Word) = 1 := Or.inr rfl

@[simp] theorem NOT_flag (p : Prop) [Decidable p] : NOT (flag p) = flag ¬ p := by
  by_cases h : p
  · rw [flag_of h, flag_of_not (not_not_intro h)]
    decide
  · rw [flag_of_not h, flag_of h]
    decide

@[simp] theorem flag_or (p q : Prop) [Decidable p] [Decidable q] :
    flag p ||| flag q = flag (p ∨ q) := by
  by_cases hp : p <;> by_cases hq : q <;> simp [flag, hp, hq]

/-- The complement of a control word has other bits than the lowest; a control word masks
them. -/
theorem not_flag_and (p q : Prop) [Decidable p] [Decidable q] :
    ~~~ flag p &&& flag q = flag (¬ p ∧ q) := by
  by_cases hp : p <;> by_cases hq : q <;> simp [flag, hp, hq]

@[simp] theorem MUX_flag (p : Prop) [Decidable p] (x y : Word) :
    MUX (flag p) x y = if p then x else y := by
  by_cases h : p
  · rw [flag_of h, MUX_one, if_pos h]
  · rw [flag_of_not h, MUX_zero, if_neg h]

/-! ## Comparisons -/

/-- The top bit of a word. -/
theorem ushiftRight_top (w : Word) : w >>> 31 = flag (w.msb = true) := by
  apply BitVec.eq_of_toNat_eq
  have hw := w.isLt
  rw [toNat_flag, BitVec.toNat_ushiftRight, Nat.shiftRight_eq_div_pow, BitVec.msb_eq_decide]
  split_ifs with h
  · simp only [decide_eq_true_eq] at h
    omega
  · simp only [decide_eq_true_eq] at h
    omega

theorem NEQ_eq (x y : Word) : NEQ x y = flag (x ≠ y) := by
  simp only [NEQ, ushiftRight_top]
  apply flag_congr
  have hxy : x ≠ y ↔ x ^^^ y ≠ 0#32 := (not_congr BitVec.xor_eq_zero_iff).symm
  rw [BitVec.msb_or, BitVec.msb_neg, hxy]
  generalize x ^^^ y = q
  by_cases h : q = 0#32
  · simp [h]
  · by_cases hmin : q = BitVec.intMin 32
    · subst hmin
      decide
    · cases hq : q.msb <;> simp [h, hmin]

theorem EQ_eq (x y : Word) : EQ x y = flag (x = y) := by
  have h : EQ x y = NOT (NEQ x y) := rfl
  rw [h, NEQ_eq, NOT_flag]
  exact flag_congr not_not

theorem GT_eq (x y : Word) : GT x y = flag (y.toNat < x.toNat) := by
  simp only [GT, ushiftRight_top]
  apply flag_congr
  have hx := x.isLt
  have hy := y.isLt
  have hz : (y - x).msb = decide (2 ^ 31 ≤ (2 ^ 32 - x.toNat + y.toNat) % 2 ^ 32) := by
    rw [BitVec.msb_eq_decide, BitVec.toNat_sub]
  rw [BitVec.msb_xor, BitVec.msb_and, BitVec.msb_xor, BitVec.msb_xor, hz, BitVec.msb_eq_decide,
    BitVec.msb_eq_decide]
  by_cases h1 : 2 ^ 31 ≤ x.toNat <;> by_cases h2 : 2 ^ 31 ≤ y.toNat <;>
    by_cases h3 : 2 ^ 31 ≤ (2 ^ 32 - x.toNat + y.toNat) % 2 ^ 32 <;>
    simp only [h1, h2, h3, decide_true, decide_false, Bool.xor_false, Bool.xor_true,
      Bool.and_true, Bool.and_false, Bool.not_true, Bool.not_false, Bool.false_eq_true,
      true_iff, false_iff, not_lt] <;> omega

theorem LT_eq (x y : Word) : LT x y = flag (x.toNat < y.toNat) := GT_eq y x

theorem GE_eq (x y : Word) : GE x y = flag (y.toNat ≤ x.toNat) := by
  rw [GE, GT_eq, NOT_flag]
  exact flag_congr Nat.not_lt

end MicroSampler.BearSSL
