import Mathlib.Algebra.Order.Ring.Int
import Mathlib.Data.Nat.Digits.Defs
import Mathlib.Tactic.Linarith
import Mathlib.Tactic.LinearCombination
import Mathlib.Tactic.Ring

/-!
# Rows of columns and their carries

Multi-word arithmetic works on rows of columns, least significant column first. A column
may be any integer: the sum of two digits, their difference, a digit and two products. One
pass with a carry turns a row into digits (`normalise`), and what the digits and the last
carry are is division with remainder of the value of the row (`normalise_eq`), whatever
operation made the columns. A borrow is a negative carry.
-/

namespace MicroSampler.Limbs

/-! ## The value of a row -/

/-- The integer a row of columns stands for in base `W`. -/
def eval (W : ℤ) : List ℤ → ℤ
  | [] => 0
  | z :: zs => z + W * eval W zs

@[simp] theorem eval_nil (W : ℤ) : eval W [] = 0 := rfl

@[simp] theorem eval_cons (W z : ℤ) (zs : List ℤ) : eval W (z :: zs) = z + W * eval W zs := rfl

theorem eval_append (W : ℤ) (xs ys : List ℤ) :
    eval W (xs ++ ys) = eval W xs + W ^ xs.length * eval W ys := by
  induction xs with
  | nil => simp
  | cons x xs ih =>
    rw [List.cons_append, eval_cons, ih, eval_cons, List.length_cons, pow_succ]
    ring

theorem eval_replicate_zero (W : ℤ) (n : Nat) : eval W (List.replicate n 0) = 0 := by
  induction n with
  | zero => rfl
  | succ n ih => rw [List.replicate_succ, eval_cons, ih, mul_zero, add_zero]

/-- Rows of one length are added column by column, each with its own factor. -/
theorem eval_zipWith (W k : ℤ) {xs ys : List ℤ} (h : xs.length = ys.length) :
    eval W (List.zipWith (fun x y => x + k * y) xs ys) = eval W xs + k * eval W ys := by
  induction xs generalizing ys with
  | nil =>
    have hys : ys = [] := List.length_eq_zero_iff.mp h.symm
    simp [hys]
  | cons x xs ih =>
    cases ys with
    | nil => cases h
    | cons y ys =>
      rw [List.zipWith_cons_cons, eval_cons, ih (Nat.succ.inj h), eval_cons, eval_cons]
      ring

/-! ## Digits -/

/-- The columns are digits of base `W`. -/
def Digits (W : ℤ) (zs : List ℤ) : Prop := ∀ z ∈ zs, 0 ≤ z ∧ z < W

theorem Digits.nil (W : ℤ) : Digits W [] := fun _ hz => absurd hz List.not_mem_nil

theorem Digits.cons {W z : ℤ} {zs : List ℤ} (hz : 0 ≤ z ∧ z < W) (h : Digits W zs) :
    Digits W (z :: zs) := by
  intro d hd
  rcases List.mem_cons.mp hd with rfl | hd
  · exact hz
  · exact h d hd

theorem Digits.head {W z : ℤ} {zs : List ℤ} (h : Digits W (z :: zs)) : 0 ≤ z ∧ z < W :=
  h z List.mem_cons_self

theorem Digits.tail {W z : ℤ} {zs : List ℤ} (h : Digits W (z :: zs)) : Digits W zs :=
  fun d hd => h d (List.mem_cons_of_mem z hd)

theorem Digits.left {W : ℤ} {xs ys : List ℤ} (h : Digits W (xs ++ ys)) : Digits W xs :=
  fun d hd => h d (List.mem_append_left ys hd)

theorem Digits.right {W : ℤ} {xs ys : List ℤ} (h : Digits W (xs ++ ys)) : Digits W ys :=
  fun d hd => h d (List.mem_append_right xs hd)

theorem Digits.append {W : ℤ} {xs ys : List ℤ} (hx : Digits W xs) (hy : Digits W ys) :
    Digits W (xs ++ ys) := by
  intro d hd
  rcases List.mem_append.mp hd with hd | hd
  · exact hx d hd
  · exact hy d hd

theorem eval_nonneg {W : ℤ} (hW : 0 < W) {zs : List ℤ} (h : Digits W zs) : 0 ≤ eval W zs := by
  induction zs with
  | nil => exact le_refl 0
  | cons z zs ih =>
    have htail := mul_nonneg hW.le (ih h.tail)
    have hhead := h.head.1
    rw [eval_cons]
    omega

theorem eval_lt {W : ℤ} (hW : 0 < W) {zs : List ℤ} (h : Digits W zs) :
    eval W zs < W ^ zs.length := by
  induction zs with
  | nil => simp
  | cons z zs ih =>
    have hstep : W * (eval W zs + 1) ≤ W * W ^ zs.length :=
      mul_le_mul_of_nonneg_left (ih h.tail) hW.le
    have hhead := h.head.2
    rw [eval_cons, List.length_cons, pow_succ, mul_comm (W ^ zs.length)]
    linarith

/-- Digits of one length with one value are the same. -/
theorem eq_of_eval_eq {W : ℤ} (hW : 0 < W) {xs ys : List ℤ} (hx : Digits W xs)
    (hy : Digits W ys) (hlen : xs.length = ys.length) (h : eval W xs = eval W ys) : xs = ys := by
  induction xs generalizing ys with
  | nil => exact (List.length_eq_zero_iff.mp hlen.symm).symm
  | cons x xs ih =>
    cases ys with
    | nil => cases hlen
    | cons y ys =>
      rw [eval_cons, eval_cons] at h
      have hmod := congrArg (· % W) h
      simp only [Int.add_mul_emod_self_left] at hmod
      rw [Int.emod_eq_of_lt hx.head.1 hx.head.2, Int.emod_eq_of_lt hy.head.1 hy.head.2] at hmod
      subst hmod
      have hrest : eval W xs = eval W ys := mul_left_cancel₀ hW.ne' (by linarith)
      rw [ih hx.tail hy.tail (Nat.succ.inj hlen) hrest]

/-! ## Carries -/

/-- The digits a pass with carry `c` leaves, and the carry behind the last column. -/
def normalise (W : ℤ) : (c : ℤ) → List ℤ → List ℤ × ℤ
  | c, [] => ([], c)
  | c, z :: zs =>
    let rest := normalise W ((z + c) / W) zs
    ((z + c) % W :: rest.1, rest.2)

@[simp] theorem length_normalise (W c : ℤ) (zs : List ℤ) :
    (normalise W c zs).1.length = zs.length := by
  induction zs generalizing c with
  | nil => rfl
  | cons z zs ih => rw [normalise, List.length_cons, ih, List.length_cons]

theorem digits_normalise {W : ℤ} (hW : 0 < W) (c : ℤ) (zs : List ℤ) :
    Digits W (normalise W c zs).1 := by
  induction zs generalizing c with
  | nil => exact Digits.nil W
  | cons z zs ih => exact (ih _).cons ⟨Int.emod_nonneg _ hW.ne', Int.emod_lt_of_pos _ hW⟩

theorem eval_normalise (W c : ℤ) (zs : List ℤ) :
    eval W (normalise W c zs).1 + W ^ zs.length * (normalise W c zs).2 = eval W zs + c := by
  induction zs generalizing c with
  | nil => simp [normalise]
  | cons z zs ih =>
    have hrest := ih ((z + c) / W)
    have hcol := Int.emod_add_mul_ediv (z + c) W
    simp only [normalise, eval_cons, List.length_cons, pow_succ]
    linear_combination W * hrest + hcol

/-- **The pass is a division.** The digits hold the remainder of the row by `W ^ n`, the
last carry the quotient. -/
theorem normalise_eq {W : ℤ} (hW : 0 < W) (c : ℤ) (zs : List ℤ) :
    eval W (normalise W c zs).1 = (eval W zs + c) % W ^ zs.length ∧
      (normalise W c zs).2 = (eval W zs + c) / W ^ zs.length := by
  have hdigits := digits_normalise hW c zs
  have h0 := eval_nonneg hW hdigits
  have hlt := eval_lt hW hdigits
  rw [length_normalise] at hlt
  have hsum := eval_normalise W c zs
  have hpow : (0 : ℤ) < W ^ zs.length := pow_pos hW _
  have h := (Int.ediv_emod_unique hpow).mpr ⟨hsum, h0, hlt⟩
  exact ⟨h.2.symm, h.1.symm⟩

/-! ## Comparing digits on the way -/

/-- The comparison a pass from the least significant column keeps: the last pair of columns
that differ decides, `b` where none does. -/
def exceeds (b : Bool) : List ℤ → List ℤ → Bool
  | x :: xs, y :: ys => exceeds (if x = y then b else y < x) xs ys
  | _, _ => b

theorem exceeds_iff {W : ℤ} (hW : 0 < W) (b : Bool) {xs ys : List ℤ} (hx : Digits W xs)
    (hy : Digits W ys) (hlen : xs.length = ys.length) :
    exceeds b xs ys = true ↔ eval W ys < eval W xs ∨ eval W xs = eval W ys ∧ b = true := by
  induction xs generalizing ys b with
  | nil =>
    have hys : ys = [] := List.length_eq_zero_iff.mp hlen.symm
    simp [hys, exceeds]
  | cons x xs ih =>
    cases ys with
    | nil => cases hlen
    | cons y ys =>
      rw [exceeds, ih _ hx.tail hy.tail (Nat.succ.inj hlen), eval_cons, eval_cons]
      have hx0 := hx.head
      have hy0 := hy.head
      rcases lt_trichotomy (eval W xs) (eval W ys) with hlt | heq | hgt
      · have hcol : W * (eval W xs + 1) ≤ W * eval W ys := mul_le_mul_of_nonneg_left hlt hW.le
        constructor
        · rintro (h | ⟨h, -⟩) <;> omega
        · rintro (h | ⟨h, -⟩) <;> exfalso <;> linarith
      · rw [heq]
        by_cases hxy : x = y
        · simp [hxy]
        · simp only [hxy, if_false, lt_irrefl, false_or, true_and, decide_eq_true_eq,
            add_left_inj, false_and, or_false, add_lt_add_iff_right]
      · have hcol : W * (eval W ys + 1) ≤ W * eval W xs := mul_le_mul_of_nonneg_left hgt hW.le
        constructor
        · intro _
          exact Or.inl (by linarith)
        · intro _
          exact Or.inl hgt

end MicroSampler.Limbs
