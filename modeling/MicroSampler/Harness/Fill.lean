import MicroSampler.Harness.Main
import MicroSampler.Library.Congruential

/-!
# The words that fill the data buffer

`fill_words_deterministically` writes the sequence `v * 1664525 + 1013904223` of 32-bit words.
The multiplier is 1 modulo 4 and the increment odd, so the sequence has the full period: a
word comes again after `2 ^ 32` places and not before, whatever the seed
(`fillWords_repeat_iff`). The copied data of a trial has no word twice.
-/

namespace MicroSampler.Harness

open Congruential

/-- The body of the loop of `fill_words_deterministically`. -/
def nextWord (v : BitVec 32) : BitVec 32 := v * 1664525 + 1013904223

theorem nextWord_toNat (v : BitVec 32) :
    (nextWord v).toNat = (v.toNat * 1664525 + 1013904223) % 2 ^ 32 := by
  rw [nextWord, BitVec.toNat_add, BitVec.toNat_mul, Nat.mod_add_mod]
  rfl

theorem nextWord_modEq (v : BitVec 32) :
    ((nextWord v).toNat : ℤ) ≡ next 1664525 1013904223 v.toNat [ZMOD 2 ^ 32] := by
  rw [nextWord_toNat, next, Int.natCast_mod, Nat.cast_add, Nat.cast_mul, mul_comm, Nat.cast_pow]
  simp only [Nat.cast_ofNat]
  exact Int.mod_modEq _ _

theorem iterate_nextWord_modEq (i : Nat) (v : BitVec 32) :
    ((nextWord^[i] v).toNat : ℤ) ≡ (next 1664525 1013904223)^[i] v.toNat [ZMOD 2 ^ 32] := by
  induction i with
  | zero => exact Int.ModEq.refl _
  | succ i ih =>
    rw [Function.iterate_succ_apply', Function.iterate_succ_apply']
    calc ((nextWord (nextWord^[i] v)).toNat : ℤ)
        ≡ next 1664525 1013904223 (nextWord^[i] v).toNat [ZMOD 2 ^ 32] := nextWord_modEq _
      _ ≡ next 1664525 1013904223 ((next 1664525 1013904223)^[i] v.toNat) [ZMOD 2 ^ 32] :=
          (ih.mul_left _).add_right _

/-- The words of the sequence agree where their positions agree modulo `2 ^ 32`. -/
theorem iterate_nextWord_eq_iff (i j : Nat) (v : BitVec 32) :
    nextWord^[i] v = nextWord^[j] v ↔ i ≡ j [MOD 2 ^ 32] := by
  have hmultiplier : (1664525 : ℤ) ≡ 1 [ZMOD 4] := rfl
  have hincrement : Odd (1013904223 : ℤ) := ⟨506952111, by norm_num⟩
  rw [← iterate_modEq_iff hmultiplier hincrement 32 i j v.toNat]
  have hi := iterate_nextWord_modEq i v
  have hj := iterate_nextWord_modEq j v
  constructor
  · intro heq
    rw [heq] at hi
    exact hi.symm.trans hj
  · intro hmod
    have hwords := (hi.trans hmod).trans hj.symm
    have hnat : (nextWord^[i] v).toNat ≡ (nextWord^[j] v).toNat [MOD 2 ^ 32] :=
      Int.natCast_modEq_iff.mp (by rwa [Nat.cast_pow, Nat.cast_ofNat])
    exact BitVec.eq_of_toNat_eq
      (hnat.eq_of_lt_of_lt (BitVec.isLt _) (BitVec.isLt _))

theorem fillWordsDeterministically_succ (n : Nat) (v : BitVec 32) :
    fillWordsDeterministically (n + 1) v =
      nextWord v :: fillWordsDeterministically n (nextWord v) := rfl

theorem fillWordsDeterministically_eq (n : Nat) (seed : BitVec 32) :
    fillWordsDeterministically n seed =
      (List.range n).map fun i => nextWord^[i + 1] seed := by
  induction n generalizing seed with
  | zero => rw [fillWordsDeterministically, List.range_zero, List.map_nil]
  | succ n ih =>
    have hshift : (fun i => nextWord^[i + 1] seed) ∘ Nat.succ =
        fun i => nextWord^[i + 1] (nextWord seed) := by
      ext1 i
      rw [Function.comp_apply, Function.iterate_succ_apply]
    rw [fillWordsDeterministically_succ, ih, List.range_succ_eq_map, List.map_cons, List.map_map,
      hshift, Function.iterate_succ_apply, Function.iterate_zero_apply]

/-- Two places of the filled buffer hold the same word exactly when they lie a multiple of
`2 ^ 32` apart, and the seed itself comes at the places just before such a multiple. -/
theorem fillWords_repeat_iff (n : Nat) (seed : BitVec 32) :
    (∀ i j : Fin (fillWordsDeterministically n seed).length,
      (fillWordsDeterministically n seed).get i = (fillWordsDeterministically n seed).get j ↔
        i.val ≡ j.val [MOD 2 ^ 32]) ∧
    ∀ i : Fin (fillWordsDeterministically n seed).length,
      (fillWordsDeterministically n seed).get i = seed ↔ 2 ^ 32 ∣ i.val + 1 := by
  have hget (i : Fin (fillWordsDeterministically n seed).length) :
      (fillWordsDeterministically n seed).get i = nextWord^[i.val + 1] seed := by
    simp only [List.get_eq_getElem, fillWordsDeterministically_eq, List.getElem_map,
      List.getElem_range]
  constructor
  · intro i j
    rw [hget, hget, iterate_nextWord_eq_iff]
    constructor
    · intro hmod
      exact Nat.ModEq.add_right_cancel' 1 hmod
    · intro hmod
      exact Nat.ModEq.add_right 1 hmod
  · intro i
    have hseed := iterate_nextWord_eq_iff (i.val + 1) 0 seed
    rw [Function.iterate_zero_apply] at hseed
    rw [hget, hseed, Nat.modEq_zero_iff_dvd]

/-- No word is copied twice: the data of a fresh trial is duplicate free. -/
theorem createDefaultTrialContext_data_nodup {W : Type} (client : Client W) (dataSize : Nat)
    (hsize : dataSize ≤ 2 ^ 32) {w w' : W} {ctx : TrialContext}
    (h : createDefaultTrialContext client dataSize w = some (ctx, w')) :
    ctx.data.Nodup ∧ ctx.data.length = dataSize := by
  unfold createDefaultTrialContext at h
  obtain ⟨u, -, hu⟩ := Option.bind_eq_some_iff.mp h
  obtain ⟨rfl, -⟩ := Prod.mk.inj (Option.some.inj hu)
  show (fillWordsDeterministically dataSize 0x11111111).Nodup ∧
    (fillWordsDeterministically dataSize 0x11111111).length = dataSize
  rw [fillWordsDeterministically_eq]
  refine ⟨List.nodup_range.map_on ?_, by simp⟩
  intro i hi j hj heq
  have hmod := Nat.ModEq.add_right_cancel' 1 ((iterate_nextWord_eq_iff _ _ _).mp heq)
  exact hmod.eq_of_lt_of_lt ((List.mem_range.mp hi).trans_le hsize)
    ((List.mem_range.mp hj).trans_le hsize)

end MicroSampler.Harness
