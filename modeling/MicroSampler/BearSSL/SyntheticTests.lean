import MicroSampler.BearSSL.Exponentiation
import MicroSampler.BearSSL.HexInput

/-!
# The synthetic test programs

The `main` functions of the microsampler tests read a key of 128 bytes, take its first
`(iters + 7) >> 3` bytes as the exponent and call one of the exponentiations on the arrays
`x1` and `m1`, both of which hold 1, 2, 3, .... The first of these words announces one bit,
so that the modulus is the single word 2 and `m0i` is zero: the squares are zero from the
start, and the result is one until the first set bit of the key and zero afterwards.
-/

namespace MicroSampler.BearSSL

open Limbs

/-- The initial content of `x1` and `m1`. -/
def counting : List Word :=
  [1, 2, 3, 4, 5, 6, 7, 8, 9, 10, 11, 12, 13, 14, 15, 16, 17, 18, 19, 20, 21, 22, 23, 24, 25, 26,
    27, 28, 29, 30, 31, 32, 33, 34, 35]

/-- The arrays a `main` does not initialise; `r` belongs to the second version only. -/
structure Locals where
  keyval : List Byte
  tmp1 : List Word
  tmp2 : List Word
  r : List Word
  length_keyval : keyval.length = 128
  length_tmp1 : tmp1.length = 35
  length_tmp2 : tmp2.length = 35
  length_r : r.length = 35

/-- An exponentiation as the programs call it. -/
abbrev ModpowFn (ρ : Type) :=
  (e : List Byte) → (elen : Nat) → (m : List Byte) → (m0i : Word) → Work ρ → Option (Work ρ)

/-- `calls` calls in a row on the same buffers. -/
def repeatModpow {ρ : Type} (modpow : ModpowFn ρ) (e : List Byte) (elen : Nat) (m : List Byte)
    (m0i : Word) : (calls : Nat) → Work ρ → Option (Work ρ)
  | 0, w => some w
  | calls + 1, w => (modpow e elen m m0i w).bind (repeatModpow modpow e elen m m0i calls)

/-- The common `main`: the key text, the number of bits and what the exponentiation leaves. -/
def mainWith {ρ : Type} (modpow : ModpowFn ρ) (calls : Nat) (key : List Char) (iters : Nat)
    (l : Locals) (own : ρ) : Option (Work ρ) := do
  let keyval ← str2hex key l.keyval 128
  let blen := (iters + 7) >>> 3
  let m1 ← counting[1]?
  repeatModpow modpow keyval blen (bytesOf counting) (brI31Ninv31 m1) calls
    ⟨bytesOf counting, bytesOf l.tmp1, bytesOf l.tmp2, own⟩

def mainV1 (key : List Char) (iters : Nat) (l : Locals) : Option (Work Unit) :=
  mainWith (brI31ModpowV1 bearArith) 1 key iters l ()

def mainV2 (key : List Char) (iters : Nat) (l : Locals) : Option (Work (List Byte)) :=
  mainWith (brI31ModpowV2 bearArith) 1 key iters l (bytesOf l.r)

def mainV3 (key : List Char) (iters : Nat) (l : Locals) : Option (Work Unit) :=
  mainWith (brI31Modpow bearArith) 1 key iters l ()

def mainV1Warmup (key : List Char) (iters : Nat) (l : Locals) : Option (Work Unit) :=
  mainWith (brI31ModpowV1 bearArith) 2 key iters l ()

def mainV2Warmup (key : List Char) (iters : Nat) (l : Locals) : Option (Work (List Byte)) :=
  mainWith (brI31ModpowV2 bearArith) 2 key iters l (bytesOf l.r)

def mainV3Warmup (key : List Char) (iters : Nat) (l : Locals) : Option (Work Unit) :=
  mainWith (brI31Modpow bearArith) 2 key iters l ()

/-! ## Rounds without squares -/

section Degenerate

variable {h : Word} {m : I31 h} {rm : List Word} {m0i : Word} {e : List Byte} {elen : Nat}

theorem bearArith_montymul_zero (rm : List Word) (m0i : Word) (hm : 0 < m.value) (x : I31 h)
    (rx ry : List Word) {d : List Word} (hd : wordCount h < d.length) :
    bearArith.montymul (bytesOf d) (bytesOf (x.array rx)) (bytesOf ((I31.zero m.fits).array ry))
      (bytesOf (m.array rm)) m0i =
        bytesOf ((I31.zero m.fits).array (d.drop (wordCount h + 1))) := by
  obtain ⟨d0, old, heq, hold⟩ := exists_room hd
  have hrun := brI31Montymul_zero rx ry rm x m0i hm (I31.value_zero m.fits) d0
    (d.drop (wordCount h + 1)) hold
  rw [← heq] at hrun
  have hlen : ((I31.zero m.fits).array (d.drop (wordCount h + 1))).length = d.length := by
    rw [I31.length_array, List.length_drop]
    omega
  rw [← rewriteWords_some hlen, ← hrun]
  simp only [bearArith, wordsOf_bytesOf]

/-- The result after `k` rounds with zero squares. -/
def untilFirstBit (m one : I31 h) (E k : Nat) : I31 h :=
  if E % 2 ^ k = 0 then one else I31.zero m.fits

theorem untilFirstBit_succ (m one : I31 h) (E k : Nat) :
    (if E.testBit k = true then I31.zero m.fits else untilFirstBit m one E k) =
      untilFirstBit m one E (k + 1) := by
  have hpow : E % 2 ^ (k + 1) = E % 2 ^ k + 2 ^ k * (E.testBit k).toNat := by
    rw [Nat.pow_succ, Nat.mod_mul, Nat.toNat_testBit]
  have hpos := Nat.two_pow_pos k
  unfold untilFirstBit
  rw [hpow]
  cases hbit : E.testBit k with
  | false => simp
  | true =>
    have hne : E % 2 ^ k + 2 ^ k * true.toNat ≠ 0 := by
      simp only [Bool.toNat_true]
      omega
    rw [if_pos rfl, if_neg hne]

theorem modpowRound_zero (rm : List Word) (m0i : Word) (hm : 0 < m.value) (one : I31 h) {k : Nat}
    (he : elen ≤ e.length) (hk : k < elen * 8) (rx r1 : List Word) {d : List Word}
    (hd : wordCount h < d.length) :
    ∃ d', modpowRound bearArith copyV1 e elen (bytesOf (m.array rm)) m0i k
        (buffers (untilFirstBit m one (exponent e elen) k) (I31.zero m.fits) rx r1 d) =
      some (buffers (untilFirstBit m one (exponent e elen) (k + 1)) (I31.zero m.fits) rx r1 d') ∧
        d'.length = d.length := by
  generalize hr : untilFirstBit m one (exponent e elen) k = r
  have hmul := bearArith_montymul_zero rm m0i hm r rx r1 hd
  have hd1 : wordCount h < ((I31.zero m.fits).array (d.drop (wordCount h + 1))).length := by
    rw [I31.length_array]
    omega
  have hsqr := bearArith_montymul_zero rm m0i hm (I31.zero m.fits) r1 r1 hd1
  rw [I31.drop_array] at hsqr
  have hctl := modpowCtl_eq he hk
  have hcopy := copy_array ((exponent e elen).testBit k = true) r (I31.zero m.fits) rx
    (d.drop (wordCount h + 1))
  rw [← hr, untilFirstBit_succ] at hcopy
  have hmove := memmove_over (I31.zero m.fits) (I31.zero m.fits) (d.drop (wordCount h + 1)) r1
  refine ⟨(I31.zero m.fits).array (d.drop (wordCount h + 1)), ?_, ?_⟩
  · rw [hr] at hcopy
    simp only [modpowRound, modulusLen_bytesOf, hctl, buffers, hmul, copyV1, hcopy, Option.map_some,
      hsqr, hmove, Option.bind_eq_bind, Option.bind_some, Option.pure_def]
  · rw [I31.length_array, List.length_drop]
    omega

/-- **No squares.** Where the Montgomery form of `x` is zero, the result is one until the
first set bit of the exponent and zero afterwards. -/
theorem modpowAfter_zero (rm : List Word) (m0i : Word) {x : I31 h} (hm : 0 < m.value)
    (hpos : 0 < wordCount h) (hmonty : ∀ rest, brI31ToMonty (x.array rest) (m.array rm) =
      some ((I31.zero m.fits).array rest))
    (he : elen ≤ e.length) (rx : List Word) {t1 d : List Word} (ht1 : wordCount h < t1.length)
    (hd : wordCount h < d.length) :
    ∃ one : I31 h, one.value = 1 ∧ ∀ k ≤ elen * 8, ∃ d',
      modpowAfter bearArith copyV1 e elen (bytesOf (m.array rm)) m0i
          ⟨bytesOf (x.array rx), bytesOf t1, bytesOf d, ()⟩ k =
        some (buffers (untilFirstBit m one (exponent e elen) k) (I31.zero m.fits) rx
          (t1.drop (wordCount h + 1)) d') ∧ d'.length = d.length := by
  obtain ⟨one, hone, hvalue⟩ := bearArith_one hpos x rx
  refine ⟨one, hvalue, fun k hk => ?_⟩
  induction k with
  | zero =>
    have hmove := memmove_array x rx ht1
    have hload : loadWord (bytesOf (m.array rm)) 0 = some h :=
      loadWord_bytesOf [] h (m.words ++ rm)
    have hform : bearArith.toMonty (bytesOf (x.array (t1.drop (wordCount h + 1))))
        (bytesOf (m.array rm)) =
          bytesOf ((I31.zero m.fits).array (t1.drop (wordCount h + 1))) := by
      have hlen : ((I31.zero m.fits).array (t1.drop (wordCount h + 1))).length =
          (x.array (t1.drop (wordCount h + 1))).length := by
        rw [I31.length_array, I31.length_array]
      rw [← rewriteWords_some hlen, ← hmonty]
      simp only [bearArith, wordsOf_bytesOf]
    have hstart : untilFirstBit m one (exponent e elen) 0 = one := by
      rw [untilFirstBit, pow_zero, Nat.mod_one, if_pos rfl]
    refine ⟨d, ?_, rfl⟩
    simp only [modpowAfter, modpowStart, modulusLen_bytesOf, hmove, hload, hone, hform, hstart,
      buffers, Option.bind_eq_bind, Option.bind_some, Option.pure_def]
  | succ k ih =>
    obtain ⟨d', hafter, hlen⟩ := ih (by omega)
    obtain ⟨d'', hround, hlen'⟩ := modpowRound_zero rm m0i hm one he
      (by omega : k < elen * 8) rx (t1.drop (wordCount h + 1)) (hlen ▸ hd)
    refine ⟨d'', ?_, hlen'.trans hlen⟩
    rw [modpowAfter, hafter, Option.bind_some, hround]

end Degenerate

/-! ## The programs -/

/-- A version of the loop follows the run of the first version, and its own buffer stays
long enough. -/
theorem modpowAfter_follows {ρ : Type} {copy : Copy ρ} {P : ρ → Nat → Prop}
    (hcopy : Follows copy P) {A : MontyArith} {e m : List Byte} {elen mlen k : Nat} {m0i : Word}
    (hm : modulusLen m = some mlen) {w : Work ρ} (hP : P w.r mlen) {v : Work Unit}
    (hv : modpowAfter A copyV1 e elen m m0i w.forget k = some v) :
    ∃ w', modpowAfter A copy e elen m m0i w k = some w' ∧ w'.forget = v ∧ P w'.r mlen := by
  rcases modpowAfter_sized A e elen m0i hcopy hm hP k with ⟨w', hw', hsized, h1⟩ | ⟨-, h1⟩
  · exact ⟨w', hw', Option.some.inj (h1.symm.trans hv), hsized.own⟩
  · rw [hv] at h1
    cases h1

/-- The modulus of the programs, in the array `m1`. -/
def two : I31 1 := ⟨[2], by decide, Small.nil.cons (by decide), by decide⟩

theorem two_array : two.array (counting.drop 2) = counting := by decide

/-- The integers that `x1` can hold before a call. -/
theorem toMonty_small {x : I31 1} (hx : x.words = [2] ∨ x.words = [1] ∨ x.words = [0])
    (rest : List Word) : brI31ToMonty (x.array rest) (two.array (counting.drop 2)) =
      some ((I31.zero two.fits).array rest) := by
  unfold I31.array
  rcases hx with hx | hx | hx <;> rw [hx] <;> rfl

/-- The word `x1[1]` after an exponentiation with the exponent `E`. -/
def finalWord (E : Nat) : Word := if E = 0 then 1 else 0

theorem finalWord_cases (E : Nat) :
    [finalWord E] = [(2 : Word)] ∨ [finalWord E] = [1] ∨ [finalWord E] = [0] := by
  unfold finalWord
  split
  · exact Or.inr (Or.inl rfl)
  · exact Or.inr (Or.inr rfl)

section Calls

variable {ρ : Type} {copy : Copy ρ} {P : ρ → Nat → Prop} {e : List Byte} {elen : Nat} (m0i : Word)

/-- One call on arrays like those of a `main`. -/
theorem modpowWith_eq (hcopy : Follows copy P) (he : elen ≤ e.length) (helen : elen < 2 ^ 29)
    {x : I31 1} (hx : x.words = [2] ∨ x.words = [1] ∨ x.words = [0]) {t1 d : List Word}
    (ht1 : 1 < t1.length) (hd : 1 < d.length) {w : Work ρ} (hP : P w.r 8)
    (hw : w.forget = ⟨bytesOf (x.array (counting.drop 2)), bytesOf t1, bytesOf d, ()⟩) :
    ∃ (w' : Work ρ) (y : I31 1) (d' : List Word),
      modpowWith bearArith copy e elen (bytesOf counting) m0i w = some w' ∧
        y.words = [finalWord (exponent e elen)] ∧ d'.length = d.length ∧ P w'.r 8 ∧
        w'.forget = ⟨bytesOf (y.array (counting.drop 2)), bytesOf (1 :: 0 :: t1.drop 2),
          bytesOf d', ()⟩ := by
  obtain ⟨one, hone, hrun⟩ := modpowAfter_zero (m := two)
    (counting.drop 2) m0i (by decide) (by decide) (toMonty_small hx) he (counting.drop 2) ht1 hd
  obtain ⟨d', hafter, hlen⟩ := hrun (modpowRounds elen) (modpowRounds_le elen)
  rw [← hw, two_array] at hafter
  have hmlen : modulusLen (bytesOf counting) = some 8 := by
    rw [← two_array]
    exact modulusLen_bytesOf two (counting.drop 2)
  obtain ⟨w', hw', hforget, hP'⟩ := modpowAfter_follows hcopy hmlen hP hafter
  refine ⟨w', untilFirstBit two one (exponent e elen) (modpowRounds elen), d', hw', ?_, hlen, hP',
    hforget.trans rfl⟩
  have hlow : exponent e elen % 2 ^ modpowRounds elen = exponent e elen := by
    rw [modpowRounds_eq helen]
    exact Nat.mod_eq_of_lt (exponent_lt he)
  have hwords : one.words = [1] := by
    have hext : one = ⟨[1], by decide, Small.nil.cons (by decide), by decide⟩ :=
      I31.ext_value (hone.trans (by decide))
    rw [hext]
  unfold untilFirstBit finalWord
  rw [hlow]
  split
  · exact hwords
  · rfl

/-- Further calls leave what the first one left. -/
theorem repeatModpow_eq (hcopy : Follows copy P) (he : elen ≤ e.length) (helen : elen < 2 ^ 29)
    (calls : Nat) {x : I31 1} (hx : x.words = [2] ∨ x.words = [1] ∨ x.words = [0])
    {t1 d : List Word} (ht1 : 1 < t1.length) (hd : 1 < d.length) {w : Work ρ} (hP : P w.r 8)
    (hw : w.forget = ⟨bytesOf (x.array (counting.drop 2)), bytesOf t1, bytesOf d, ()⟩) :
    ∃ w', repeatModpow (modpowWith bearArith copy) e elen (bytesOf counting) m0i (calls + 1) w =
        some w' ∧ w'.x = bytesOf (1 :: finalWord (exponent e elen) :: counting.drop 2) ∧
      w'.t1 = bytesOf (1 :: 0 :: t1.drop 2) := by
  obtain ⟨w', y, d', hrun, hy, hlen, hP', hforget⟩ :=
    modpowWith_eq m0i hcopy he helen hx ht1 hd hP hw
  cases calls with
  | zero =>
    refine ⟨w', by rw [repeatModpow, hrun]; rfl, ?_, congrArg Work.t1 hforget⟩
    have hbytes := congrArg Work.x hforget
    rw [I31.array, hy] at hbytes
    exact hbytes
  | succ calls =>
    obtain ⟨w'', hrest, hx'', ht1''⟩ := repeatModpow_eq hcopy he helen calls
      (hy ▸ finalWord_cases _) (by simp) (hlen ▸ hd) hP' hforget
    exact ⟨w'', by rw [repeatModpow, hrun, Option.bind_some, hrest], hx'', ht1''⟩

end Calls

/-- The arrays a run leaves: `x1` and the squares in `tmp1`. -/
def Leaves {ρ : Type} (run : Option (Work ρ)) (x1 tmp1 : List Word) : Prop :=
  ∃ w, run = some w ∧ w.x = bytesOf x1 ∧ w.t1 = bytesOf tmp1

theorem mainWith_leaves {ρ : Type} {copy : Copy ρ} {P : ρ → Nat → Prop} (hcopy : Follows copy P)
    (calls : Nat) {key : List Char} {iters : Nat} {l : Locals} {keyval : List Byte}
    (hkey : str2hex key l.keyval 128 = some keyval) (hiters : iters ≤ 1024) {own : ρ}
    (hown : P own 8) :
    Leaves (mainWith (modpowWith bearArith copy) (calls + 1) key iters l own)
      (1 :: finalWord (exponent keyval ((iters + 7) >>> 3)) :: counting.drop 2)
      (1 :: 0 :: l.tmp1.drop 2) := by
  have hlen : keyval.length = 128 := (length_of_str2hex hkey).trans l.length_keyval
  have hblen : (iters + 7) >>> 3 ≤ 128 := by
    rw [Nat.shiftRight_eq_div_pow]
    omega
  have hm1 : counting[1]? = some 2 := by decide
  have ht1 := l.length_tmp1
  have ht2 := l.length_tmp2
  obtain ⟨w, hrun, hx, htmp⟩ := repeatModpow_eq (brI31Ninv31 2) hcopy
    (by omega : (iters + 7) >>> 3 ≤ keyval.length) (by omega) calls (x := two) (Or.inl rfl)
    (by omega : 1 < l.tmp1.length) (by omega : 1 < l.tmp2.length)
    (w := ⟨bytesOf counting, bytesOf l.tmp1, bytesOf l.tmp2, own⟩) hown
    (by rw [two_array]; rfl)
  refine ⟨w, ?_, hx, htmp⟩
  simp only [mainWith, hkey, hm1, Option.bind_eq_bind, Option.bind_some]
  exact hrun

/-- **The test programs compute nothing but the first bit.** Whatever the key and the
uninitialised arrays hold, each of the six programs stays inside its arrays, leaves zero
squares, and leaves one in `x1[1]` when all processed key bits are zero, zero otherwise;
the words behind the first two of `x1` keep their initial values. -/
theorem mains_leave {key : List Char} {iters : Nat} {l : Locals} {keyval : List Byte}
    (hkey : str2hex key l.keyval 128 = some keyval) (hiters : iters ≤ 1024) :
    let x1 := 1 :: finalWord (exponent keyval ((iters + 7) >>> 3)) :: counting.drop 2
    let tmp1 := 1 :: 0 :: l.tmp1.drop 2
    Leaves (mainV1 key iters l) x1 tmp1 ∧ Leaves (mainV2 key iters l) x1 tmp1 ∧
      Leaves (mainV3 key iters l) x1 tmp1 ∧ Leaves (mainV1Warmup key iters l) x1 tmp1 ∧
      Leaves (mainV2Warmup key iters l) x1 tmp1 ∧ Leaves (mainV3Warmup key iters l) x1 tmp1 := by
  have hr : 8 ≤ (bytesOf l.r).length := by
    rw [length_bytesOf, l.length_r]
    decide
  exact ⟨mainWith_leaves copyV1_follows 0 hkey hiters trivial,
    mainWith_leaves copyV2_follows 0 hkey hiters hr,
    mainWith_leaves copyV3_follows 0 hkey hiters trivial,
    mainWith_leaves copyV1_follows 1 hkey hiters trivial,
    mainWith_leaves copyV2_follows 1 hkey hiters hr,
    mainWith_leaves copyV3_follows 1 hkey hiters trivial⟩

/-- The key of all ones with eight iterations. -/
theorem mains_leave_ones :
    ∃ (l : Locals) (keyval : List Byte),
      str2hex (List.replicate 256 'f' ++ [nul]) l.keyval 128 = some keyval ∧
        Leaves (mainV2Warmup (List.replicate 256 'f' ++ [nul]) 8 l)
          (1 :: finalWord (exponent keyval 1) :: counting.drop 2) (1 :: 0 :: l.tmp1.drop 2) := by
  have hhex : ∀ c ∈ List.replicate 256 'f', Radix.IsHexDigit c := by
    intro c hc
    rw [List.eq_of_mem_replicate hc]
    decide
  obtain ⟨keyval, hkey⟩ := Option.isSome_iff_exists.mp
    (str2hex_isSome (n := 128) [nul] (List.replicate 128 0) List.length_replicate hhex)
  refine ⟨⟨List.replicate 128 0, List.replicate 35 0, List.replicate 35 0, List.replicate 35 0,
    List.length_replicate, List.length_replicate, List.length_replicate, List.length_replicate⟩,
    keyval, hkey, ?_⟩
  exact (mains_leave hkey (by decide : 8 ≤ 1024)).2.2.2.2.1

end MicroSampler.BearSSL
