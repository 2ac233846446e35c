import Mathlib.Data.List.TakeWhile
import MicroSampler.Simulation.Deployment

/-!
# The arrays of the harness

`main` computes the sizes of its two arrays in words of 64 bits, which wrap, and its loops
count up to the number of iterations that it was given. `buffersHold_iff`: the sizes are the
true products, and what the loops use lies in the arrays, below `2 ^ 56` iterations. From
there on every run leaves an array (`iterations_lt_of_main`).

The governor prints an integer of its own as the first argument; `iterations_arguments` is
what the harness makes of it.
-/

namespace MicroSampler.Harness

open Json Simulation

/-! ## Sizes -/

/-- `sizeof(uint64_t) * total_bit_iterations`. -/
def durationBytes (iterations : BitVec 64) : BitVec 64 := 8 * (iterations * 32)

/-- `sizeof(uint32_t) * iterations`. -/
def keyBytes (iterations : BitVec 64) : BitVec 64 := 4 * iterations

theorem toNat_durationBytes (iterations : BitVec 64) :
    (durationBytes iterations).toNat = 8 * (iterations.toNat * 32) % 2 ^ 64 := by
  have h8 : (8 : BitVec 64).toNat = 8 := rfl
  have h32 : (32 : BitVec 64).toNat = 32 := rfl
  rw [durationBytes, BitVec.toNat_mul, BitVec.toNat_mul, h8, h32]
  omega

theorem toNat_keyBytes (iterations : BitVec 64) :
    (keyBytes iterations).toNat = 4 * iterations.toNat % 2 ^ 64 := by
  have h4 : (4 : BitVec 64).toNat = 4 := rfl
  rw [keyBytes, BitVec.toNat_mul, h4]

theorem toNat_durationBytes_eq_iff {iterations : BitVec 64} :
    (durationBytes iterations).toNat = 8 * (iterations.toNat * 32) ↔
      iterations.toNat < 2 ^ 56 := by
  rw [toNat_durationBytes]
  omega

theorem toNat_keyBytes_eq_iff {iterations : BitVec 64} :
    (keyBytes iterations).toNat = 4 * iterations.toNat ↔ iterations.toNat < 2 ^ 62 := by
  rw [toNat_keyBytes]
  omega

/-! ## Indices -/

/-- An index of the loop nest is in an array that has the true size. -/
theorem index_lt_length {iterations i ki : BitVec 64} (hn : iterations.toNat < 2 ^ 56)
    (hi : i < iterations) (hki : ki < 32) (junk : Nat → BitVec 64) :
    (i * 32 + ki).toNat < (HeapArray.malloc junk (durationBytes iterations)).cells.length := by
  have h32 : (32 : BitVec 64).toNat = 32 := rfl
  have hi' : i.toNat < iterations.toNat := hi
  have hki' : ki.toNat < 32 := hki
  have hbytes := toNat_durationBytes_eq_iff.mpr hn
  rw [HeapArray.length_malloc, hbytes, BitVec.toNat_add, BitVec.toNat_mul, h32]
  omega

theorem key_index_lt_length {iterations i : BitVec 64} (hn : iterations.toNat < 2 ^ 62)
    (hi : i < iterations) (junk : Nat → BitVec 32) :
    i.toNat < (HeapArray.malloc junk (keyBytes iterations)).cells.length := by
  have hi' : i.toNat < iterations.toNat := hi
  have hbytes := toNat_keyBytes_eq_iff.mpr hn
  rw [HeapArray.length_malloc, hbytes]
  omega

/-! ## Runs -/

/-- A run that ends has used the arrays up to the last trial, so they had room for it. -/
theorem iterations_lt_of_main {W : Type} {client : Client W} {now : BitVec 32}
    {argv : List (List Char)} {w : W} {r : List Call × List Char}
    (h : main client now argv w = some r) :
    (parseArguments now argv).iterations.toNat < 2 ^ 56 := by
  obtain ⟨m, hm, -⟩ := Option.bind_eq_some_iff.mp h
  have hsize := (Recorded.measure hm).lt_size
  omega

/-- **Runs.** When every call returns, the harness ends with an output exactly below
`2 ^ 56` iterations: there is no other way than to leave an array. -/
theorem exists_main_iff {W : Type} {client : Client W} (hc : client.Returns) (now : BitVec 32)
    (argv : List (List Char)) (w : W) :
    (∃ r, main client now argv w = some r) ↔
      (parseArguments now argv).iterations.toNat < 2 ^ 56 := by
  constructor
  · rintro ⟨r, hr⟩
    exact iterations_lt_of_main hr
  · intro hn
    obtain ⟨calls, text, h⟩ := exists_main hc now argv w hn
    exact ⟨_, h⟩

/-- What the arrays are for, with the number of iterations that the arguments give: their
sizes are computed as the true products, every index of the loops lies in them, and so no run
in which the calls return is stopped by an access. -/
structure BuffersHold (now : BitVec 32) (argv : List (List Char)) : Prop where
  durationBytes_eq : (durationBytes (parseArguments now argv).iterations).toNat =
    8 * ((parseArguments now argv).iterations.toNat * 32)
  keyBytes_eq : (keyBytes (parseArguments now argv).iterations).toNat =
    4 * (parseArguments now argv).iterations.toNat
  durations : ∀ junk : Nat → BitVec 64, ∀ i < (parseArguments now argv).iterations,
    ∀ ki < (32 : BitVec 64), (i * 32 + ki).toNat <
      (HeapArray.malloc junk (durationBytes (parseArguments now argv).iterations)).cells.length
  keys : ∀ junk : Nat → BitVec 32, ∀ i < (parseArguments now argv).iterations, i.toNat <
    (HeapArray.malloc junk (keyBytes (parseArguments now argv).iterations)).cells.length
  runs : ∀ {W : Type} {client : Client W}, client.Returns → ∀ w,
    ∃ r, main client now argv w = some r

/-- **When the arrays are large enough.** -/
theorem buffersHold_iff (now : BitVec 32) (argv : List (List Char)) :
    BuffersHold now argv ↔ (parseArguments now argv).iterations.toNat < 2 ^ 56 := by
  constructor
  · intro h
    exact toNat_durationBytes_eq_iff.mp h.durationBytes_eq
  · intro hn
    have hkeys : (parseArguments now argv).iterations.toNat < 2 ^ 62 := by omega
    exact ⟨toNat_durationBytes_eq_iff.mpr hn, toNat_keyBytes_eq_iff.mpr hkeys,
      fun junk i hi ki hki => index_lt_length hn hi hki junk,
      fun junk i hi => key_index_lt_length hkeys hi junk,
      fun hc w => (exists_main_iff hc now argv w).mpr hn⟩

/-- For `2 ^ 62` iterations both sizes wrap to zero. The arrays are there and have no cell. -/
theorem emptyBuffers_not_held :
    (parseArguments 0 ["4611686018427387904".toList]).iterations = BitVec.ofNat 64 (2 ^ 62) ∧
      durationBytes (BitVec.ofNat 64 (2 ^ 62)) = 0 ∧ keyBytes (BitVec.ofNat 64 (2 ^ 62)) = 0 ∧
      ¬ BuffersHold 0 ["4611686018427387904".toList] := by
  have hparse : (parseArguments 0 ["4611686018427387904".toList]).iterations =
      BitVec.ofNat 64 (2 ^ 62) := by decide +kernel
  have hsize : keyBytes (BitVec.ofNat 64 (2 ^ 62)) = 0 := by decide
  refine ⟨hparse, by decide, hsize, fun h => ?_⟩
  -- the first key is written behind the end
  have hkey := h.keys (fun _ => 0) 0
  rw [hparse, hsize, HeapArray.length_malloc] at hkey
  exact absurd (hkey (by decide)) (by decide)

/-! ## The argument -/

theorem toList_toString (n : Int) :
    (toString n).toList = withSign (decide (n < 0)) (Nat.toDigits 10 n.natAbs) := by
  rw [Int.toString_eq_repr, Int.repr_eq_if]
  by_cases hn : 0 ≤ n
  · have habs : n.toNat = n.natAbs := by omega
    rw [if_pos hn, Nat.toList_repr, habs, decide_eq_false (by omega)]
    rfl
  · have habs : (-n).toNat = n.natAbs := by omega
    rw [if_neg hn, String.toList_append, Nat.toList_repr, habs, decide_eq_true (by omega)]
    rfl

theorem toNat_of_isDigit {c : Char} (hc : c.isDigit = true) : 48 ≤ c.toNat :=
  (Char.isDigit_iff_toNat.mp hc).1

theorem not_blank_of_isDigit {c : Char} (hc : c.isDigit = true) :
    (c = ' ' || ('\t' ≤ c && c ≤ '\r') : Bool) = false := by
  have h := toNat_of_isDigit hc
  have hspace : c ≠ ' ' := by
    rintro rfl
    exact absurd h (by decide)
  have hreturn : ¬ c ≤ '\r' := fun hle =>
    absurd (Nat.le_trans h (Char.le_def.mp hle)) (by decide)
  simp [hspace, hreturn]

theorem head?_ne_of_isDigit {ds : List Char} (hd : ∀ c ∈ ds, c.isDigit = true) {s : Char}
    (hs : s.toNat < 48) : ds.head? ≠ some s := by
  intro hhead
  have h := toNat_of_isDigit (hd s (List.mem_of_mem_head? hhead))
  omega

/-- `sscanf` on what `str` prints. -/
theorem scanUnsigned_withSign (negative : Bool) (n : Nat) :
    scanUnsigned (withSign negative (Nat.toDigits 10 n)) =
      some (if 2 ^ 64 ≤ n then BitVec.allOnes 64
        else if negative then -BitVec.ofNat 64 n else BitVec.ofNat 64 n) := by
  have hdigit : ∀ c ∈ Nat.toDigits 10 n, c.isDigit = true := fun c hc =>
    Nat.isDigit_of_mem_toDigits (by decide) (by decide) hc
  have htake : (Nat.toDigits 10 n).takeWhile Char.isDigit = Nat.toDigits 10 n :=
    List.takeWhile_eq_self_iff.mpr hdigit
  have hne : Nat.toDigits 10 n ≠ [] := Nat.toDigits_ne_nil
  cases negative with
  | true =>
    have hblank : (withSign true (Nat.toDigits 10 n)).dropWhile
        (fun c => c = ' ' || ('\t' ≤ c && c ≤ '\r')) = '-' :: Nat.toDigits 10 n := rfl
    simp only [scanUnsigned, hblank, List.head?_cons, decide_true, Bool.true_or, if_true,
      List.tail_cons, htake, if_neg hne, Nat.ofDigitChars_ten_toDigits]
    split <;> rfl
  | false =>
    have hblank : (withSign false (Nat.toDigits 10 n)).dropWhile
        (fun c => c = ' ' || ('\t' ≤ c && c ≤ '\r')) = Nat.toDigits 10 n := by
      obtain ⟨c, ds, hds⟩ := List.exists_cons_of_ne_nil hne
      have hc := not_blank_of_isDigit (hdigit c (hds ▸ List.mem_cons_self))
      rw [withSign, if_neg Bool.false_ne_true, hds, List.dropWhile_cons, hc,
        if_neg Bool.false_ne_true]
    have hminus := head?_ne_of_isDigit hdigit (s := '-') (by decide)
    have hplus := head?_ne_of_isDigit hdigit (s := '+') (by decide)
    simp only [scanUnsigned, hblank, hminus, hplus, decide_false, Bool.or_self,
      Bool.false_eq_true, if_false, htake, if_neg hne, Nat.ofDigitChars_ten_toDigits]
    split <;> rfl

theorem scanUnsigned_toString (n : Int) :
    scanUnsigned (toString n).toList =
      some (if 2 ^ 64 ≤ n.natAbs then BitVec.allOnes 64 else BitVec.ofInt 64 n) := by
  have hofInt : (if decide (n < 0) then -BitVec.ofNat 64 n.natAbs
      else BitVec.ofNat 64 n.natAbs) = BitVec.ofInt 64 n := by
    by_cases hn : n < 0
    · have habs : n = -(n.natAbs : Int) := by omega
      rw [decide_eq_true hn, if_pos rfl]
      conv_rhs => rw [habs]
      rw [BitVec.ofInt_neg, BitVec.ofInt_natCast]
    · have habs : n = (n.natAbs : Int) := by omega
      rw [decide_eq_false hn, if_neg Bool.false_ne_true]
      conv_rhs => rw [habs]
      rw [BitVec.ofInt_natCast]
  rw [toList_toString, scanUnsigned_withSign, hofInt]

/-- The number of iterations that the harness gets from the governor. -/
theorem iterations_arguments (now : BitVec 32) (config : HarnessConfig)
    (configuration : RunConfiguration) :
    (parseArguments now (arguments config configuration).tail).iterations =
      if 2 ^ 64 ≤ configuration.innerIterations.natAbs then BitVec.allOnes 64
      else BitVec.ofInt 64 configuration.innerIterations := by
  rw [parseArguments, arguments, List.tail_cons, List.getElem?_cons_zero, Option.bind_some,
    scanUnsigned_toString, Option.getD_some]

/-- The inner iterations of a configuration for which the arrays are large enough: few, or
negative by so much that they wrap to few. -/
theorem iterations_arguments_lt_iff (now : BitVec 32) (config : HarnessConfig)
    (configuration : RunConfiguration) :
    (parseArguments now (arguments config configuration).tail).iterations.toNat < 2 ^ 56 ↔
      0 ≤ configuration.innerIterations ∧ configuration.innerIterations < 2 ^ 56 ∨
      -2 ^ 64 < configuration.innerIterations ∧
        configuration.innerIterations < 2 ^ 56 - 2 ^ 64 := by
  rw [iterations_arguments]
  split
  · rw [BitVec.toNat_allOnes]
    omega
  · rw [BitVec.toNat_ofInt]
    omega

end MicroSampler.Harness
