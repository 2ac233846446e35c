import Mathlib.Data.Nat.Digits.Lemmas
import MicroSampler.BearSSL.Modpow
import MicroSampler.BearSSL.MontgomeryForm

/-!
# What the exponentiation computes

The loop of `br_i31_modpow` runs on byte buffers, its arithmetic on words. Here the loop
gets the arithmetic of the library: the buffers hold words, least significant byte first,
and a round multiplies by, or skips, one more square of `x`. After every round the result
is `x` to the exponent read so far, for each of the three conditional copies.
-/

namespace MicroSampler.BearSSL

open Limbs Montgomery

/-! ## Words in byte buffers -/

/-- The words of a buffer; bytes that do not fill a word are dropped. -/
def wordsOf : List Byte → List Word
  | b0 :: b1 :: b2 :: b3 :: bs => (b3 ++ b2 ++ b1 ++ b0) :: wordsOf bs
  | _ => []

def bytesOf (ws : List Word) : List Byte := ws.flatMap wordBytes

@[simp] theorem bytesOf_nil : bytesOf [] = [] := rfl

@[simp] theorem bytesOf_cons (w : Word) (ws : List Word) :
    bytesOf (w :: ws) = wordBytes w ++ bytesOf ws := List.flatMap_cons

theorem bytesOf_append (xs ys : List Word) : bytesOf (xs ++ ys) = bytesOf xs ++ bytesOf ys :=
  List.flatMap_append

@[simp] theorem length_bytesOf (ws : List Word) : (bytesOf ws).length = 4 * ws.length := by
  induction ws with
  | nil => rfl
  | cons w ws ih =>
    rw [bytesOf_cons, List.length_append, ih, List.length_cons]
    simp only [wordBytes, List.length_cons, List.length_nil]
    omega

/-- The four bytes of a word give the word back. -/
theorem word_of_bytes (w : Word) :
    w.extractLsb' 24 8 ++ w.extractLsb' 16 8 ++ w.extractLsb' 8 8 ++ w.extractLsb' 0 8 = w := by
  ext i hi
  simp only [BitVec.getElem_append, BitVec.getElem_extractLsb']
  split_ifs with h1 h2 h3
  · simp [BitVec.getLsbD_eq_getElem hi]
  all_goals
    rw [BitVec.getLsbD_eq_getElem (by omega)]
    congr 1
    omega

theorem wordsOf_bytesOf (ws : List Word) : wordsOf (bytesOf ws) = ws := by
  induction ws with
  | nil => rfl
  | cons w ws ih =>
    rw [bytesOf_cons, wordBytes]
    simp only [List.cons_append, List.nil_append, wordsOf]
    rw [word_of_bytes, ih]

theorem bytesOf_take (ws : List Word) (n : Nat) :
    (bytesOf ws).take (4 * n) = bytesOf (ws.take n) := by
  induction n generalizing ws with
  | zero => simp
  | succ n ih =>
    cases ws with
    | nil => simp
    | cons w ws =>
      have hfour : 4 * (n + 1) = (wordBytes w).length + 4 * n := Nat.add_comm _ _
      rw [List.take_succ_cons, bytesOf_cons, bytesOf_cons, ← ih ws, hfour,
        List.take_length_add_append]

theorem bytesOf_drop (ws : List Word) (n : Nat) :
    (bytesOf ws).drop (4 * n) = bytesOf (ws.drop n) := by
  induction n generalizing ws with
  | zero => simp
  | succ n ih =>
    cases ws with
    | nil => simp
    | cons w ws =>
      have hfour : 4 * (n + 1) = (wordBytes w).length + 4 * n := Nat.add_comm _ _
      rw [List.drop_succ_cons, bytesOf_cons, ← ih ws, hfour, List.drop_length_add_append]

theorem loadWord_bytesOf (pre : List Word) (w : Word) (post : List Word) :
    loadWord (bytesOf (pre ++ w :: post)) pre.length = some w := by
  have hget : ∀ j : Nat, (bytesOf (pre ++ w :: post))[4 * pre.length + j]? =
      (wordBytes w ++ bytesOf post)[j]? := by
    intro j
    rw [bytesOf_append, List.getElem?_append_right (by simp), length_bytesOf,
      Nat.add_sub_cancel_left, bytesOf_cons]
  have h0 := hget 0
  rw [Nat.add_zero] at h0
  simp only [loadWord, h0, hget, wordBytes, List.cons_append, List.getElem?_cons_zero,
    List.getElem?_cons_succ, Option.bind_eq_bind, Option.bind_some, Option.pure_def, word_of_bytes]

theorem storeWord_bytesOf (pre : List Word) (w v : Word) (post : List Word) :
    storeWord (bytesOf (pre ++ w :: post)) pre.length v = some (bytesOf (pre ++ v :: post)) := by
  have hfits : 4 * pre.length + 4 ≤ (bytesOf (pre ++ w :: post)).length := by
    rw [length_bytesOf, List.length_append, List.length_cons]
    omega
  rw [storeWord, if_pos hfits, ← Nat.mul_succ, bytesOf_take, bytesOf_drop, List.take_left,
    bytesOf_append, bytesOf_cons]
  have hdrop : (pre ++ w :: post).drop (pre.length + 1) = post := by
    rw [← List.drop_drop, List.drop_left]
    rfl
  rw [hdrop, List.append_assoc]

theorem memmove_bytesOf {dst src : List Word} {n : Nat} (hdst : n ≤ dst.length)
    (hsrc : n ≤ src.length) :
    memmove (bytesOf dst) (bytesOf src) (4 * n) = some (bytesOf (src.take n ++ dst.drop n)) := by
  rw [memmove_of_le (by simp; omega) (by simp; omega), bytesOf_take, bytesOf_drop, bytesOf_append]

/-! ## The arithmetic of the library -/

/-- A buffer rewritten as an array of words. A call that left its arrays would not change
the buffer; the calls of the loop stay inside (`bearArith_montymul`, `bearArith_toMonty`). -/
def rewriteWords (buf : List Byte) (ws : Option (List Word)) : List Byte :=
  match ws with
  | some ws => (bytesOf ws ++ buf.drop (4 * ws.length)).take buf.length
  | none => buf

theorem length_rewriteWords (buf : List Byte) (ws : Option (List Word)) :
    (rewriteWords buf ws).length = buf.length := by
  unfold rewriteWords
  split
  · rw [List.length_take, List.length_append, length_bytesOf, List.length_drop]
    omega
  · rfl

theorem rewriteWords_some {old new : List Word} (h : new.length = old.length) :
    rewriteWords (bytesOf old) (some new) = bytesOf new := by
  have hdrop : (bytesOf old).drop (4 * new.length) = [] :=
    List.drop_eq_nil_of_le (by rw [length_bytesOf, h])
  have hlen : (bytesOf old).length = (bytesOf new).length := by
    rw [length_bytesOf, length_bytesOf, h]
  rw [rewriteWords, hdrop, List.append_nil, hlen, List.take_length]

def bearArith : MontyArith where
  toMonty x m := rewriteWords x (brI31ToMonty (wordsOf x) (wordsOf m))
  zero x bitLen := rewriteWords x (brI31Zero (wordsOf x) bitLen)
  montymul d x y m m0i :=
    rewriteWords d (brI31Montymul (wordsOf d) (wordsOf x) (wordsOf y) (wordsOf m) m0i)
  length_toMonty x _ := length_rewriteWords x _
  length_zero x _ := length_rewriteWords x _
  length_montymul d _ _ _ _ := length_rewriteWords d _

/-- With a modulus of two words the copies move the words of a product. -/
theorem modpow_versions_agree_forty :
    (brI31ModpowV2 bearArith [0xb1] 1 (bytesOf [41, 1515870811, 499]) (brI31Ninv31 1515870811)
      ⟨bytesOf [41, 3, 2], bytesOf [0, 0, 0], bytesOf [0, 0, 0], bytesOf [6, 6, 6]⟩).map
        Work.forget =
      brI31Modpow bearArith [0xb1] 1 (bytesOf [41, 1515870811, 499]) (brI31Ninv31 1515870811)
        ⟨bytesOf [41, 3, 2], bytesOf [0, 0, 0], bytesOf [0, 0, 0], ()⟩ ∧
    (brI31Modpow bearArith [0xb1] 1 (bytesOf [41, 1515870811, 499]) (brI31Ninv31 1515870811)
      ⟨bytesOf [41, 3, 2], bytesOf [0, 0, 0], bytesOf [0, 0, 0], ()⟩).isSome = true := by
  have hlen : modulusLen (bytesOf [41, 1515870811, 499]) = some 12 := by decide
  obtain ⟨-, ⟨-, h2⟩, -, hsome⟩ := modpow_versions_agree bearArith [0xb1] 1
    (bytesOf [41, 1515870811, 499]) (brI31Ninv31 1515870811) (bytesOf [41, 3, 2])
    (bytesOf [0, 0, 0]) (bytesOf [0, 0, 0]) (bytesOf [6, 6, 6]) (by
      intro mlen hm
      rw [hlen] at hm
      cases hm
      decide)
  exact ⟨h2, hsome 12 hlen (by decide) (by decide) (by decide) (by decide) (by decide)⟩

/-! ## The exponent -/

/-- The exponent in the first `elen` bytes, most significant byte first. -/
def exponent (e : List Byte) (elen : Nat) : Nat :=
  Nat.ofDigits 256 ((e.take elen).reverse.map BitVec.toNat)

theorem testBit_ofDigits {bs : List Byte} {i : Nat} (hi : i < bs.length) (j : Nat) (hj : j < 8) :
    (Nat.ofDigits 256 (bs.map BitVec.toNat)).testBit (8 * i + j) = bs[i].toNat.testBit j := by
  induction bs generalizing i with
  | nil => cases hi
  | cons b bs ih =>
    have hsplit : Nat.ofDigits 256 ((b :: bs).map BitVec.toNat) =
        2 ^ 8 * Nat.ofDigits 256 (bs.map BitVec.toNat) + b.toNat := by
      rw [List.map_cons, Nat.ofDigits_cons, Nat.add_comm]
      rfl
    rw [hsplit, Nat.testBit_two_pow_mul_add _ b.isLt]
    cases i with
    | zero =>
      rw [Nat.mul_zero, Nat.zero_add, if_pos hj]
      rfl
    | succ i =>
      have hback : 8 * (i + 1) + j - 8 = 8 * i + j := by omega
      rw [if_neg (by omega), hback]
      exact ih (Nat.lt_of_succ_lt_succ hi)

/-- **The control words are the bits of the exponent**, least significant first. -/
theorem modpowCtl_eq {e : List Byte} {elen k : Nat} (he : elen ≤ e.length) (hk : k < elen * 8) :
    modpowCtl e elen k = some (flag ((exponent e elen).testBit k = true)) := by
  have hdiv : k >>> 3 = k / 8 := Nat.shiftRight_eq_div_pow k 3
  have hmod : k &&& 7 = k % 8 := Nat.and_two_pow_sub_one_eq_mod k 3
  have hidx : elen - 1 - k / 8 < e.length := by omega
  have hlen : (e.take elen).reverse.length = elen := by
    rw [List.length_reverse, List.length_take_of_le he]
  have hrev : k / 8 < (e.take elen).reverse.length := by omega
  have hbyte : (e.take elen).reverse[k / 8] = e[elen - 1 - k / 8] := by
    rw [List.getElem_reverse, List.getElem_take]
    simp only [List.length_take_of_le he]
  have hbit := testBit_ofDigits hrev (k % 8) (Nat.mod_lt _ (by decide))
  rw [Nat.div_add_mod, hbyte] at hbit
  rw [modpowCtl, hdiv, hmod, List.getElem?_eq_getElem hidx, Option.map_some]
  congr 1
  apply BitVec.eq_of_toNat_eq
  have hwide : (e[elen - 1 - k / 8].setWidth 32 : Word).toNat = e[elen - 1 - k / 8].toNat := by
    rw [BitVec.toNat_setWidth]
    have := e[elen - 1 - k / 8].isLt
    omega
  have hand : ∀ n : Nat, n &&& (1 : Word).toNat = n % 2 := fun n => Nat.and_one_is_mod n
  rw [toNat_flag, BitVec.toNat_and, hand, BitVec.toNat_ushiftRight, hwide, exponent, hbit,
    Nat.testBit_eq_decide_div_mod_eq, Nat.shiftRight_eq_div_pow]
  simp only [decide_eq_true_eq]
  split <;> omega

theorem modpowRounds_eq {elen : Nat} (helen : elen < 2 ^ 29) : modpowRounds elen = elen * 8 := by
  rw [modpowRounds, BitVec.toNat_shiftLeft, BitVec.toNat_ofNat, Nat.shiftLeft_eq]
  omega

theorem modpowRounds_le (elen : Nat) : modpowRounds elen ≤ elen * 8 := by
  rw [modpowRounds, BitVec.toNat_shiftLeft, BitVec.toNat_ofNat, Nat.shiftLeft_eq]
  exact (Nat.mod_le _ _).trans (Nat.mul_le_mul_right _ (Nat.mod_le _ _))

theorem exponent_lt {e : List Byte} {elen : Nat} (he : elen ≤ e.length) :
    exponent e elen < 2 ^ (elen * 8) := by
  have hdigits := Nat.ofDigits_lt_base_pow_length (b := 256)
    (l := (e.take elen).reverse.map BitVec.toNat) (by decide) (by
      intro d hd
      obtain ⟨b, -, rfl⟩ := List.mem_map.mp hd
      exact b.isLt)
  rw [List.length_map, List.length_reverse, List.length_take_of_le he] at hdigits
  rw [Nat.mul_comm, Nat.pow_mul]
  exact hdigits

/-! ## Arrays in byte buffers -/

section Arrays

variable {h : Word}

theorem I31.take_array (x : I31 h) (rest : List Word) :
    (x.array rest).take (wordCount h + 1) = h :: x.words := by
  rw [I31.array, List.take_succ_cons, ← x.length_eq, List.take_left]

theorem I31.drop_array (x : I31 h) (rest : List Word) :
    (x.array rest).drop (wordCount h + 1) = rest := by
  rw [I31.array, List.drop_succ_cons, ← x.length_eq, List.drop_left]

theorem I31.length_array (x : I31 h) (rest : List Word) :
    (x.array rest).length = wordCount h + 1 + rest.length := by
  rw [I31.array, List.length_cons, List.length_append, x.length_eq]
  omega

theorem modulusLen_bytesOf (m : I31 h) (rm : List Word) :
    modulusLen (bytesOf (m.array rm)) = some (4 * (wordCount h + 1)) := by
  have hload : loadWord (bytesOf (m.array rm)) 0 = some h := loadWord_bytesOf [] h (m.words ++ rm)
  have hlen : ((h + 63) >>> 5).toNat = wordCount h + 1 := by
    have h63 : (63 : Word).toNat = 63 := rfl
    have hfits := m.fits
    rw [wordCount_eq hfits, BitVec.toNat_ushiftRight, BitVec.toNat_add, Nat.shiftRight_eq_div_pow]
    omega
  rw [modulusLen, hload, Option.map_some, hlen, Nat.mul_comm]

/-- Copying an array of the announced length leaves the words behind it. -/
theorem memmove_array (x : I31 h) (rest : List Word) {dst : List Word}
    (hdst : wordCount h < dst.length) :
    memmove (bytesOf dst) (bytesOf (x.array rest)) (4 * (wordCount h + 1)) =
      some (bytesOf (x.array (dst.drop (wordCount h + 1)))) := by
  rw [memmove_bytesOf hdst (by rw [I31.length_array]; omega), I31.take_array]
  rfl

theorem select_array (p : Prop) [Decidable p] (x y : I31 h) (rx ry : List Word) :
    select (flag p) (bytesOf (x.array rx)) (bytesOf (y.array ry)) (4 * (wordCount h + 1)) =
      bytesOf ((if p then y else x).array rx) := by
  by_cases hp : p
  · rw [select, flag_of hp, if_pos rfl, if_pos hp, bytesOf_take, bytesOf_drop, I31.take_array,
      I31.drop_array, ← bytesOf_append]
    rfl
  · rw [select, flag_of_not hp, if_neg (by decide), if_neg hp]

/-- The copy of the first version between two arrays of one announced length. -/
theorem copy_array (p : Prop) [Decidable p] (x y : I31 h) (rx ry : List Word) :
    brCcopyV1 (flag p) (bytesOf (x.array rx)) (bytesOf (y.array ry)) (4 * (wordCount h + 1)) =
      some (bytesOf ((if p then y else x).array rx)) := by
  have hroom : ∀ (z : I31 h) (rz : List Word),
      4 * (wordCount h + 1) ≤ (bytesOf (z.array rz)).length := by
    intro z rz
    rw [length_bytesOf, I31.length_array]
    omega
  rw [brCcopyV1_eq_select (flag_bit p) (hroom x rx) (hroom y ry), select_array]

theorem memmove_over (x y : I31 h) (rx ry : List Word) :
    memmove (bytesOf (y.array ry)) (bytesOf (x.array rx)) (4 * (wordCount h + 1)) =
      some (bytesOf (x.array ry)) := by
  have hroom : wordCount h < (y.array ry).length := by
    rw [I31.length_array]
    omega
  rw [memmove_array x rx hroom, I31.drop_array]

/-- An array with room for an integer, whatever it holds. -/
theorem exists_room {d : List Word} (hd : wordCount h < d.length) :
    ∃ d0 old, d = d0 :: (old ++ d.drop (wordCount h + 1)) ∧ old.length = wordCount h := by
  cases d with
  | nil => cases hd
  | cons d0 ds =>
    refine ⟨d0, ds.take (wordCount h), ?_, ?_⟩
    · rw [List.drop_succ_cons, List.take_append_drop]
    · rw [List.length_take]
      simp only [List.length_cons] at hd
      omega

variable {m : I31 h} {rm : List Word} {m0i : Word}

theorem bearArith_montymul (rm : List Word) (hinv : m.value * m0i.toNat ≡ -1 [ZMOD base])
    (x y : I31 h) (rx ry : List Word) (hy : y.value < m.value) {d : List Word}
    (hd : wordCount h < d.length) :
    ∃ p : I31 h, brI31Montymul d (x.array rx) (y.array ry) (m.array rm) m0i =
        some (p.array (d.drop (wordCount h + 1))) ∧
      bearArith.montymul (bytesOf d) (bytesOf (x.array rx)) (bytesOf (y.array ry))
        (bytesOf (m.array rm)) m0i = bytesOf (p.array (d.drop (wordCount h + 1))) ∧
      p.value < m.value ∧ base ^ wordCount h * p.value ≡ x.value * y.value [ZMOD m.value] := by
  obtain ⟨d0, old, heq, hold⟩ := exists_room hd
  obtain ⟨p, hrun, hlt, hmod⟩ := brI31Montymul_eq (x := x) rx ry rm hinv hy d0
    (d.drop (wordCount h + 1)) hold
  rw [← heq] at hrun
  refine ⟨p, hrun, ?_, hlt, hmod⟩
  have hlen : (p.array (d.drop (wordCount h + 1))).length = d.length := by
    rw [I31.length_array, List.length_drop]
    omega
  rw [← rewriteWords_some hlen, ← hrun]
  simp only [bearArith, wordsOf_bytesOf]

theorem bearArith_toMonty (rm : List Word) (hexact : 31 < h.toNat → m.Exact) (x : I31 h)
    (rx : List Word) (hx : x.value < m.value) :
    ∃ t : I31 h, brI31ToMonty (x.array rx) (m.array rm) = some (t.array rx) ∧
      bearArith.toMonty (bytesOf (x.array rx)) (bytesOf (m.array rm)) = bytesOf (t.array rx) ∧
      t.value < m.value ∧ t.value ≡ x.value * base ^ wordCount h [ZMOD m.value] := by
  obtain ⟨t, hrun, hlt, hmod⟩ := brI31ToMonty_eq rx rm hexact hx
  refine ⟨t, hrun, ?_, hlt, hmod⟩
  have hlen : (t.array rx).length = (x.array rx).length := by
    rw [I31.length_array, I31.length_array]
  rw [← rewriteWords_some hlen, ← hrun]
  simp only [bearArith, wordsOf_bytesOf]

/-- The result starts as one. -/
theorem bearArith_one (hpos : 0 < wordCount h) (x : I31 h) (rx : List Word) :
    ∃ one : I31 h, storeWord (bearArith.zero (bytesOf (x.array rx)) h) 1 1#32 =
        some (bytesOf (one.array rx)) ∧ one.value = 1 := by
  obtain ⟨n, hn⟩ : ∃ n, wordCount h = n + 1 := ⟨wordCount h - 1, by omega⟩
  have hzero : bearArith.zero (bytesOf (x.array rx)) h = bytesOf ((I31.zero x.fits).array rx) := by
    have hlen : ((I31.zero x.fits).array rx).length = (x.array rx).length := by
      rw [I31.length_array, I31.length_array]
    rw [← rewriteWords_some hlen, ← brI31Zero_eq x.fits h rx x.length_eq]
    simp only [bearArith, wordsOf_bytesOf]
    rfl
  refine ⟨⟨1 :: List.replicate n 0, by rw [List.length_cons, List.length_replicate, hn],
    (Small.replicate n).cons (by decide), x.fits⟩, ?_, ?_⟩
  · have hwords : (I31.zero x.fits).words = List.replicate (wordCount h) 0 := rfl
    rw [hn, List.replicate_succ] at hwords
    have harray : (I31.zero x.fits).array rx = [h] ++ 0 :: (List.replicate n 0 ++ rx) := by
      rw [I31.array, hwords, List.cons_append, List.singleton_append]
    have hstore := storeWord_bytesOf [h] 0 1#32 (List.replicate n 0 ++ rx)
    rw [← harray, List.length_singleton, List.singleton_append, ← List.cons_append] at hstore
    rw [hzero, hstore]
    rfl
  · have hone : ((1 : Word).toNat : ℤ) = 1 := rfl
    rw [I31.value, value_cons, value_replicate, mul_zero, add_zero, hone]

end Arrays

/-! ## Square and multiply -/

/-- The integers between two rounds: `t` is the next square in Montgomery form, `r` the
power collected from the low bits of the exponent. -/
structure Powers {h : Word} (x m : I31 h) (E k : Nat) (r t : I31 h) : Prop where
  lt : t.value < m.value
  square : t.value ≡ x.value ^ 2 ^ k * base ^ wordCount h [ZMOD m.value]
  power : r.value ≡ x.value ^ (E % 2 ^ k) [ZMOD m.value]
  reduced : 1 < m.value → r.value < m.value

section Rounds

variable {h m1 : Word} {x m : I31 h} {ms : List Word} {E k : Nat} {r t p : I31 h}

/-- **One round**: `p` is the product of the first call, `q` the one of the second. -/
theorem Powers.step (hodd : m.value % 2 = 1) (hr : Powers x m E k r t) {q : I31 h}
    (hp : p.value < m.value)
    (hpmod : base ^ wordCount h * p.value ≡ r.value * t.value [ZMOD m.value])
    (hq : q.value < m.value)
    (hqmod : base ^ wordCount h * q.value ≡ t.value * t.value [ZMOD m.value]) :
    Powers x m E (k + 1) (if E.testBit k = true then p else r) q := by
  have hpos : 0 < m.value := p.value_nonneg.trans_lt hp
  have hproduct : p.value ≡ r.value * x.value ^ 2 ^ k [ZMOD m.value] := by
    refine cancel_base (n := wordCount h) hodd hpos (hpmod.trans ?_)
    have hmul := hr.square.mul_left r.value
    rwa [← mul_assoc, mul_comm _ (base ^ wordCount h)] at hmul
  have hsquare : q.value ≡ x.value ^ 2 ^ (k + 1) * base ^ wordCount h [ZMOD m.value] := by
    refine cancel_base (n := wordCount h) hodd hpos (hqmod.trans ?_)
    have hmul := hr.square.mul hr.square
    have hpow : x.value ^ 2 ^ k * base ^ wordCount h * (x.value ^ 2 ^ k * base ^ wordCount h) =
        base ^ wordCount h * (x.value ^ 2 ^ (k + 1) * base ^ wordCount h) := by
      rw [pow_two_pow_succ]
      ring
    rwa [hpow] at hmul
  refine ⟨hq, hsquare, ?_, ?_⟩
  · rw [pow_mod_two_pow_succ]
    by_cases hbit : E.testBit k = true
    · rw [if_pos hbit, if_pos hbit]
      exact hproduct.trans (hr.power.mul_right _)
    · rw [if_neg hbit, if_neg hbit, mul_one]
      exact hr.power
  · intro hone
    split
    · exact hp
    · exact hr.reduced hone

variable {rm : List Word} {m0i : Word} {e : List Byte} {elen : Nat}

/-- The buffers between two rounds, `d` being whatever `t2` holds. -/
def buffers (r t : I31 h) (rx r1 d : List Word) : Work Unit :=
  ⟨bytesOf (r.array rx), bytesOf (t.array r1), bytesOf d, ()⟩

theorem modpowRound_power (rm : List Word) (hodd : m.value % 2 = 1)
    (hinv : m.value * m0i.toNat ≡ -1 [ZMOD base]) (he : elen ≤ e.length) (hk : k < elen * 8)
    (rx r1 : List Word) {d : List Word} (hd : wordCount h < d.length)
    (hr : Powers x m (exponent e elen) k r t) :
    ∃ r' t' d', modpowRound bearArith copyV1 e elen (bytesOf (m.array rm)) m0i k
        (buffers r t rx r1 d) = some (buffers r' t' rx r1 d') ∧ d'.length = d.length ∧
      Powers x m (exponent e elen) (k + 1) r' t' := by
  obtain ⟨p, -, hmul, hp, hpmod⟩ := bearArith_montymul rm hinv r t rx r1 hr.lt hd
  have hd1 : wordCount h < (p.array (d.drop (wordCount h + 1))).length := by
    rw [I31.length_array]
    omega
  obtain ⟨q, -, hsqr, hq, hqmod⟩ := bearArith_montymul rm hinv t t r1 r1 hr.lt hd1
  rw [I31.drop_array] at hsqr
  have hctl := modpowCtl_eq he hk
  have hcopy := copy_array ((exponent e elen).testBit k = true) r p rx (d.drop (wordCount h + 1))
  have hmove := memmove_over q t (d.drop (wordCount h + 1)) r1
  refine ⟨if (exponent e elen).testBit k = true then p else r, q,
    q.array (d.drop (wordCount h + 1)), ?_, ?_, hr.step hodd hp hpmod hq hqmod⟩
  · simp only [modpowRound, modulusLen_bytesOf, hctl, buffers, hmul, copyV1, hcopy, Option.map_some,
      hsqr, hmove, Option.bind_eq_bind, Option.bind_some, Option.pure_def]
  · rw [I31.length_array, List.length_drop]
    omega

theorem modpowStart_power (rm : List Word) (e : List Byte) (elen : Nat)
    (hexact : 31 < h.toNat → m.Exact) (hx : x.value < m.value) (rx : List Word) {t1 : List Word}
    (ht1 : wordCount h < t1.length) (d : List Word) :
    ∃ r t, modpowStart bearArith (bytesOf (m.array rm))
        ⟨bytesOf (x.array rx), bytesOf t1, bytesOf d, ()⟩ =
          some (buffers r t rx (t1.drop (wordCount h + 1)) d) ∧
      Powers x m (exponent e elen) 0 r t := by
  have hpos : 0 < wordCount h := by
    rcases Nat.eq_zero_or_pos (wordCount h) with h0 | hpos
    · have hm := m.value_lt
      have := x.value_nonneg
      rw [h0, pow_zero] at hm
      omega
    · exact hpos
  have hmove := memmove_array x rx ht1
  obtain ⟨t, -, hmonty, ht, htmod⟩ :=
    bearArith_toMonty rm hexact x (t1.drop (wordCount h + 1)) hx
  obtain ⟨one, hone, hvalue⟩ := bearArith_one hpos x rx
  have hload : loadWord (bytesOf (m.array rm)) 0 = some h := loadWord_bytesOf [] h (m.words ++ rm)
  refine ⟨one, t, ?_, ht, ?_, ?_, fun hlt => hvalue ▸ hlt⟩
  · simp only [modpowStart, modulusLen_bytesOf, hmove, hload, hone, hmonty, buffers,
      Option.bind_eq_bind, Option.bind_some, Option.pure_def]
  · rwa [pow_zero, pow_one]
  · rw [pow_zero, Nat.mod_one, pow_zero, hvalue]

/-- The buffers after any number of rounds. -/
theorem modpowAfter_power (rm : List Word) (hodd : m.value % 2 = 1)
    (hexact : 31 < h.toNat → m.Exact) (hinv : m.value * m0i.toNat ≡ -1 [ZMOD base])
    (hx : x.value < m.value) (he : elen ≤ e.length) (hk : k ≤ elen * 8) (rx : List Word)
    {t1 d : List Word} (ht1 : wordCount h < t1.length) (hd : wordCount h < d.length) :
    ∃ r t d', modpowAfter bearArith copyV1 e elen (bytesOf (m.array rm)) m0i
        ⟨bytesOf (x.array rx), bytesOf t1, bytesOf d, ()⟩ k =
          some (buffers r t rx (t1.drop (wordCount h + 1)) d') ∧ d'.length = d.length ∧
      Powers x m (exponent e elen) k r t := by
  induction k with
  | zero =>
    obtain ⟨r, t, hstart, hpowers⟩ := modpowStart_power rm e elen hexact hx rx ht1 d
    exact ⟨r, t, d, hstart, rfl, hpowers⟩
  | succ k ih =>
    obtain ⟨r, t, d', hafter, hlen, hpowers⟩ := ih (by omega)
    obtain ⟨r', t', d'', hround, hlen', hpowers'⟩ := modpowRound_power rm hodd hinv he
      (by omega : k < elen * 8) rx (t1.drop (wordCount h + 1)) (hlen ▸ hd) hpowers
    refine ⟨r', t', d'', ?_, hlen'.trans hlen, hpowers'⟩
    rw [modpowAfter, hafter, Option.bind_some, hround]

end Rounds

/-! ## The three versions -/

theorem Powers.value_eq {h : Word} {x m : I31 h} {E k : Nat} {r t : I31 h}
    (hr : Powers x m E k r t) (hone : 1 < m.value) :
    r.value = x.value ^ (E % 2 ^ k) % m.value := by
  have hmod := hr.power
  rw [Int.ModEq, Int.emod_eq_of_lt r.value_nonneg (hr.reduced hone)] at hmod
  exact hmod

/-- **Modular exponentiation.** For an odd modulus and `x` below it the three versions leave
`x` to the exponent, modulo `m`, in the words of `x`; the words behind the integers stay as
they were. The exponent is read from `elen` bytes; where eight times that many rounds do
not fit 32 bits, its low bits only. -/
theorem modpow_eq {h m1 : Word} {x m : I31 h} {rx rm t1 t2 dummy : List Word} {e : List Byte}
    {elen : Nat} (hm1 : (m.array rm)[1]? = some m1) (hodd : m.value % 2 = 1)
    (hexact : 31 < h.toNat → m.Exact) (hx : x.value < m.value) (ht1 : wordCount h < t1.length)
    (ht2 : wordCount h < t2.length) (hdummy : wordCount h < dummy.length)
    (he : elen ≤ e.length) :
    ∃ (r t : I31 h) (d : List Word) (dummy' : List Byte),
      let w := buffers r t rx (t1.drop (wordCount h + 1)) d
      brI31Modpow bearArith e elen (bytesOf (m.array rm)) (brI31Ninv31 m1)
          ⟨bytesOf (x.array rx), bytesOf t1, bytesOf t2, ()⟩ = some w ∧
        brI31ModpowV1 bearArith e elen (bytesOf (m.array rm)) (brI31Ninv31 m1)
          ⟨bytesOf (x.array rx), bytesOf t1, bytesOf t2, ()⟩ = some w ∧
        brI31ModpowV2 bearArith e elen (bytesOf (m.array rm)) (brI31Ninv31 m1)
          ⟨bytesOf (x.array rx), bytesOf t1, bytesOf t2, bytesOf dummy⟩ =
            some ⟨w.x, w.t1, w.t2, dummy'⟩ ∧
        r.value ≡ x.value ^ (exponent e elen % 2 ^ modpowRounds elen) [ZMOD m.value] ∧
        (1 < m.value → r.value =
          x.value ^ (exponent e elen % 2 ^ modpowRounds elen) % m.value) ∧
        (elen < 2 ^ 29 → exponent e elen % 2 ^ modpowRounds elen = exponent e elen) := by
  obtain ⟨m1', ms, hms⟩ := exists_lowest hodd
  have hinv := inverse_of_lowest hms hodd
  rw [I31.array, hms] at hm1
  cases hm1
  obtain ⟨r, t, d, hafter, -, hpowers⟩ := modpowAfter_power rm hodd hexact hinv hx he
    (modpowRounds_le elen) rx ht1 ht2
  have hmlen := modulusLen_bytesOf m rm
  have h3 := modpowAfter_forget bearArith e elen (m := bytesOf (m.array rm)) (brI31Ninv31 m1)
    copyV3_follows (w := ⟨bytesOf (x.array rx), bytesOf t1, bytesOf t2, ()⟩)
    (fun _ _ => trivial) (modpowRounds elen)
  have h2 := modpowAfter_forget bearArith e elen (m := bytesOf (m.array rm)) (brI31Ninv31 m1)
    copyV2_follows (w := ⟨bytesOf (x.array rx), bytesOf t1, bytesOf t2, bytesOf dummy⟩)
    (fun mlen hm => by
      rw [hmlen] at hm
      cases hm
      rw [length_bytesOf]
      omega) (modpowRounds elen)
  simp only [Work.forget, hafter] at h3 h2
  obtain ⟨w3, hw3, hforget3⟩ := Option.map_eq_some_iff.mp h3
  obtain ⟨w2, hw2, hforget2⟩ := Option.map_eq_some_iff.mp h2
  refine ⟨r, t, d, w2.r, ?_, hafter, ?_, hpowers.power, hpowers.value_eq, ?_⟩
  · exact hw3.trans (congrArg some hforget3)
  · rw [brI31ModpowV2, modpowWith, hw2, ← hforget2]
    rfl
  · intro helen
    rw [modpowRounds_eq helen]
    exact Nat.mod_eq_of_lt (exponent_lt he)

/-- The fifth power of two words modulo two words, in buffers with room for one more. -/
theorem modpow_eq_forty :
    ∃ (r t : I31 41) (d : List Word) (dummy' : List Byte),
      let w := buffers r t [] (([0, 0, 0, 0] : List Word).drop (wordCount 41 + 1)) d
      brI31Modpow bearArith [5] 1 (bytesOf [41, 1515870811, 499]) (brI31Ninv31 1515870811)
          ⟨bytesOf [41, 3, 2], bytesOf [0, 0, 0, 0], bytesOf [0, 0, 0, 0], ()⟩ = some w ∧
        brI31ModpowV2 bearArith [5] 1 (bytesOf [41, 1515870811, 499]) (brI31Ninv31 1515870811)
          ⟨bytesOf [41, 3, 2], bytesOf [0, 0, 0, 0], bytesOf [0, 0, 0, 0], bytesOf [0, 0, 0]⟩ =
            some ⟨w.x, w.t1, w.t2, dummy'⟩ ∧
        r.value = 926845861639 := by
  obtain ⟨r, t, d, dummy', h3, -, h2, -, hvalue, helen⟩ := @modpow_eq 41 1515870811 smallFactor
    fortyBits [] [] [0, 0, 0, 0] [0, 0, 0, 0] [0, 0, 0] [5] 1 rfl (by decide)
    (fun _ => exact_fortyBits) (by decide) (by decide) (by decide) (by decide) (by decide)
  refine ⟨r, t, d, dummy', h3, h2, ?_⟩
  have hone := hvalue (by decide)
  rw [helen (by decide)] at hone
  exact hone.trans (by decide)

end MicroSampler.BearSSL
