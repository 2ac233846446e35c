import MicroSampler.BearSSL.ConstantTime
import MicroSampler.Library.Limbs

/-!
# Integers of 31-bit words

An integer lies in an array behind its announced bit length, 31 bits in each word and the
least significant word first. `br_i31_zero` clears one; `br_i31_add` and `br_i31_sub` are
one loop that passes a carry or a borrow along the words and writes only when its control
word says so. An access outside an array is `none`.
-/

namespace MicroSampler.BearSSL

open Limbs

/-! ## The three operations -/

/-- `memset` to zero. -/
def memsetWords (x : List Word) (start len : Nat) : Option (List Word) :=
  if start + len ≤ x.length then
    some (x.take start ++ List.replicate len 0 ++ x.drop (start + len))
  else none

def brI31Zero (x : List Word) (bitLen : Word) : Option (List Word) :=
  if 0 < x.length then memsetWords (x.set 0 bitLen) 1 ((bitLen + 31) >>> 5).toNat else none

/-- The passes of the loop from index `u` on, with the new word `naw` as the operation
computes it from the two words and the carry. -/
def carryLoop (naw : Word → Word → Word → Word) (b : List Word) (ctl : Word) :
    (n u : Nat) → (a : List Word) → (cc : Word) → Option (List Word × Word)
  | 0, _, a, cc => some (a, cc)
  | n + 1, u, a, cc => do
    let aw ← a[u]?
    let bw ← b[u]?
    let w := naw aw bw cc
    carryLoop naw b ctl n (u + 1) (a.set u (MUX ctl (w &&& 0x7FFFFFFF) aw)) (w >>> 31)

/-- The array `a` and the carry. -/
def brI31Add (a b : List Word) (ctl : Word) : Option (List Word × Word) := do
  let h ← a[0]?
  carryLoop (fun aw bw cc => aw + bw + cc) b ctl (((h + 63) >>> 5).toNat - 1) 1 a 0

/-- The array `a` and the borrow. -/
def brI31Sub (a b : List Word) (ctl : Word) : Option (List Word × Word) := do
  let h ← a[0]?
  carryLoop (fun aw bw cc => aw - bw - cc) b ctl (((h + 63) >>> 5).toNat - 1) 1 a 0

/-! ## Values -/

/-- The base of the words. -/
def base : ℤ := 2 ^ 31

theorem base_pos : 0 < base := by decide

theorem base_eq : base = 2147483648 := by decide

def ints (ws : List Word) : List ℤ := ws.map fun w => (w.toNat : ℤ)

@[simp] theorem ints_nil : ints [] = [] := rfl

@[simp] theorem ints_cons (w : Word) (ws : List Word) :
    ints (w :: ws) = (w.toNat : ℤ) :: ints ws := rfl

@[simp] theorem length_ints (ws : List Word) : (ints ws).length = ws.length := List.length_map _

theorem ints_append (xs ys : List Word) : ints (xs ++ ys) = ints xs ++ ints ys :=
  List.map_append

/-- The integer in the words. -/
def value (ws : List Word) : ℤ := eval base (ints ws)

@[simp] theorem value_nil : value [] = 0 := rfl

@[simp] theorem value_cons (w : Word) (ws : List Word) :
    value (w :: ws) = w.toNat + base * value ws := rfl

theorem value_append (xs ys : List Word) :
    value (xs ++ ys) = value xs + base ^ xs.length * value ys := by
  rw [value, ints_append, eval_append, length_ints]
  rfl

/-- The upper bit of each word is zero. -/
def Small (ws : List Word) : Prop := ∀ w ∈ ws, w.toNat < 2 ^ 31

theorem Small.nil : Small [] := fun _ h => absurd h List.not_mem_nil

theorem Small.cons {w : Word} {ws : List Word} (hw : w.toNat < 2 ^ 31) (h : Small ws) :
    Small (w :: ws) := by
  intro v hv
  rcases List.mem_cons.mp hv with rfl | hv
  · exact hw
  · exact h v hv

theorem Small.head {w : Word} {ws : List Word} (h : Small (w :: ws)) : w.toNat < 2 ^ 31 :=
  h w List.mem_cons_self

theorem Small.tail {w : Word} {ws : List Word} (h : Small (w :: ws)) : Small ws :=
  fun v hv => h v (List.mem_cons_of_mem w hv)

theorem Small.left {xs ys : List Word} (h : Small (xs ++ ys)) : Small xs :=
  fun v hv => h v (List.mem_append_left ys hv)

theorem Small.right {xs ys : List Word} (h : Small (xs ++ ys)) : Small ys :=
  fun v hv => h v (List.mem_append_right xs hv)

theorem Small.append {xs ys : List Word} (hx : Small xs) (hy : Small ys) : Small (xs ++ ys) := by
  intro v hv
  rcases List.mem_append.mp hv with hv | hv
  · exact hx v hv
  · exact hy v hv

theorem Small.replicate (n : Nat) : Small (List.replicate n 0) := by
  intro w hw
  rw [List.eq_of_mem_replicate hw]
  decide

theorem Small.digits {ws : List Word} (h : Small ws) : Digits base (ints ws) := by
  intro z hz
  obtain ⟨w, hw, rfl⟩ := List.mem_map.mp hz
  have hlt := h w hw
  have hbase := base_eq
  omega

theorem value_nonneg {ws : List Word} (h : Small ws) : 0 ≤ value ws :=
  eval_nonneg base_pos h.digits

theorem value_lt {ws : List Word} (h : Small ws) : value ws < base ^ ws.length := by
  have := eval_lt base_pos h.digits
  rwa [length_ints] at this

theorem value_replicate (n : Nat) : value (List.replicate n 0) = 0 := by
  rw [value, ints, List.map_replicate]
  exact eval_replicate_zero base n

theorem eq_of_value_eq {xs ys : List Word} (hx : Small xs) (hy : Small ys)
    (hlen : xs.length = ys.length) (h : value xs = value ys) : xs = ys := by
  have hints := eq_of_eval_eq base_pos hx.digits hy.digits (by simp [hlen]) h
  refine List.map_injective_iff.mpr ?_ hints
  intro v w hvw
  exact BitVec.eq_of_toNat_eq (Int.ofNat.inj hvw)

/-! ## Integers in their arrays -/

/-- The words behind the announced bit length `h`. -/
def wordCount (h : Word) : Nat := ((h + 31) >>> 5).toNat

/-- An integer of announced bit length `h`. -/
structure I31 (h : Word) where
  words : List Word
  length_eq : words.length = wordCount h
  small : Small words
  /-- The array is addressable, so that the lengths computed from `h` do not wrap. -/
  fits : h.toNat + 63 < 2 ^ 32

namespace I31

variable {h : Word}

/-- The array holds the integer and what lies behind it. -/
def array (x : I31 h) (rest : List Word) : List Word := h :: (x.words ++ rest)

def value (x : I31 h) : ℤ := BearSSL.value x.words

theorem value_nonneg (x : I31 h) : 0 ≤ x.value := BearSSL.value_nonneg x.small

theorem value_lt (x : I31 h) : x.value < base ^ wordCount h := by
  rw [← x.length_eq]
  exact BearSSL.value_lt x.small

theorem ext_value {x y : I31 h} (hxy : x.value = y.value) : x = y := by
  have hwords : x.words = y.words :=
    eq_of_value_eq x.small y.small (x.length_eq.trans y.length_eq.symm) hxy
  cases x
  cases y
  simp only at hwords
  subst hwords
  rfl

end I31

theorem wordCount_eq {h : Word} (hfits : h.toNat + 63 < 2 ^ 32) :
    wordCount h = (h.toNat + 31) / 32 := by
  rw [wordCount, BitVec.toNat_ushiftRight, BitVec.toNat_add, Nat.shiftRight_eq_div_pow]
  have h31 : (31 : Word).toNat = 31 := rfl
  omega

/-- The bound of the carry loops. -/
theorem loopBound_eq {h : Word} (hfits : h.toNat + 63 < 2 ^ 32) :
    ((h + 63) >>> 5).toNat - 1 = wordCount h := by
  rw [wordCount_eq hfits, BitVec.toNat_ushiftRight, BitVec.toNat_add, Nat.shiftRight_eq_div_pow]
  have h63 : (63 : Word).toNat = 63 := rfl
  omega

/-! ## Words in place -/

theorem getElem?_here (pre : List Word) (w : Word) (post : List Word) :
    (pre ++ w :: post)[pre.length]? = some w := by
  rw [List.getElem?_append_right (Nat.le_refl _), Nat.sub_self, List.getElem?_cons_zero]

theorem set_here (pre : List Word) (w v : Word) (post : List Word) :
    (pre ++ w :: post).set pre.length v = pre ++ v :: post := by
  rw [List.set_append_right _ _ (Nat.le_refl _), Nat.sub_self, List.set_cons_zero]

/-! ## The carry loop -/

theorem toNat_mask (w : Word) : (w &&& 0x7FFFFFFF).toNat = w.toNat % 2 ^ 31 := by
  rw [BitVec.toNat_and]
  exact Nat.and_two_pow_sub_one_eq_mod w.toNat 31

theorem toNat_carry (w : Word) : (w >>> 31).toNat = w.toNat / 2 ^ 31 := by
  rw [BitVec.toNat_ushiftRight, Nat.shiftRight_eq_div_pow]

/-- `naw` computes a column of a row whose carries have the sign `s`. -/
def Column (s : ℤ) (naw : Word → Word → Word → Word) : Prop :=
  ∀ aw bw cc : Word, aw.toNat < 2 ^ 31 → bw.toNat < 2 ^ 31 → cc.toNat ≤ 1 →
    ((naw aw bw cc &&& 0x7FFFFFFF).toNat : ℤ) = (aw.toNat + s * bw.toNat + s * cc.toNat) % base ∧
      s * (naw aw bw cc >>> 31).toNat = (aw.toNat + s * bw.toNat + s * cc.toNat) / base

theorem column_add : Column 1 fun aw bw cc => aw + bw + cc := by
  intro aw bw cc haw hbw hcc
  have hsum : (aw + bw + cc).toNat = aw.toNat + bw.toNat + cc.toNat := by
    rw [BitVec.toNat_add, BitVec.toNat_add]
    omega
  rw [toNat_mask, toNat_carry, hsum, base_eq]
  omega

theorem column_sub : Column (-1) fun aw bw cc => aw - bw - cc := by
  intro aw bw cc haw hbw hcc
  have hdiff : ((aw - bw - cc).toNat : ℤ) = (aw.toNat - bw.toNat - cc.toNat) % 2 ^ 32 := by
    rw [BitVec.toNat_sub, BitVec.toNat_sub]
    omega
  rw [toNat_mask, toNat_carry, base_eq]
  beta_reduce
  omega

/-- **The loop as a row of columns.** The words of `a` are replaced by the digits of the
row when the control is one, and the carry is returned in either case. -/
theorem carryLoop_eq {s : ℤ} {naw : Word → Word → Word → Word} (hcol : Column s naw) {ctl : Word}
    (hctl : ctl = 0 ∨ ctl = 1) {as bs : List Word} (ha : Small as) (hb : Small bs)
    (hlen : as.length = bs.length) (pre preb : List Word) (hpre : preb.length = pre.length)
    (post postb : List Word) {cc : Word} (hcc : cc.toNat ≤ 1) :
    ∃ out cc', carryLoop naw (preb ++ (bs ++ postb)) ctl as.length pre.length
        (pre ++ (as ++ post)) cc = some (pre ++ ((if ctl = 1 then out else as) ++ post), cc') ∧
      out.length = as.length ∧ Small out ∧ cc'.toNat ≤ 1 ∧
      (ints out, s * cc'.toNat) = normalise base (s * cc.toNat)
        (List.zipWith (fun x y => x + s * y) (ints as) (ints bs)) := by
  induction as generalizing bs pre preb cc with
  | nil =>
    have hbs : bs = [] := List.length_eq_zero_iff.mp hlen.symm
    refine ⟨[], cc, ?_, rfl, Small.nil, hcc, by simp [hbs, normalise]⟩
    simp [carryLoop]
  | cons aw as ih =>
    cases bs with
    | nil => cases hlen
    | cons bw bs =>
      obtain ⟨hdigit, hcarry⟩ := hcol aw bw cc ha.head hb.head hcc
      have hcc' : (naw aw bw cc >>> 31).toNat ≤ 1 := by
        have := (naw aw bw cc).isLt
        rw [toNat_carry]
        omega
      obtain ⟨out, cc', hrun, hout, hsmall, hlast, hnorm⟩ := ih ha.tail hb.tail
        (Nat.succ.inj hlen) (pre ++ [MUX ctl (naw aw bw cc &&& 0x7FFFFFFF) aw]) (preb ++ [bw])
        (by simp [hpre]) hcc'
      refine ⟨(naw aw bw cc &&& 0x7FFFFFFF) :: out, cc', ?_, by simp [hout], ?_, hlast, ?_⟩
      · have hnext := hrun
        rw [List.length_append, List.length_singleton, List.append_assoc, List.append_assoc,
          List.singleton_append, List.singleton_append] at hnext
        rw [List.cons_append, List.cons_append, List.length_cons, carryLoop,
          getElem?_here pre aw, ← hpre, getElem?_here preb bw, hpre]
        simp only [Option.bind_eq_bind, Option.bind_some]
        rw [set_here, hnext]
        rcases hctl with rfl | rfl
        · rw [MUX_zero, if_neg (by decide), if_neg (by decide), List.append_assoc]
          rfl
        · rw [MUX_one, if_pos rfl, if_pos rfl, List.append_assoc]
          rfl
      · refine hsmall.cons ?_
        rw [toNat_mask]
        exact Nat.mod_lt _ (by decide)
      · have hrest := hnorm
        rw [hcarry] at hrest
        simp only [ints_cons, List.zipWith_cons_cons, normalise, ← hrest, hdigit]

/-- The loop on two integers of one announced bit length. -/
theorem carryLoop_value {s : ℤ} {naw : Word → Word → Word → Word} (hcol : Column s naw)
    {ctl : Word} (hctl : ctl = 0 ∨ ctl = 1) {h : Word} (a b : I31 h) (ra rb : List Word) :
    ∃ (d : I31 h) (cc : Word),
      carryLoop naw (b.array rb) ctl (wordCount h) 1 (a.array ra) 0 =
          some ((if ctl = 1 then d else a).array ra, cc) ∧
        d.value = (a.value + s * b.value) % base ^ wordCount h ∧ cc.toNat ≤ 1 ∧
        s * cc.toNat = (a.value + s * b.value) / base ^ wordCount h := by
  have hlen : a.words.length = b.words.length := a.length_eq.trans b.length_eq.symm
  obtain ⟨out, cc, hrun, hout, hsmall, hcc, hnorm⟩ := carryLoop_eq hcol hctl a.small b.small hlen
    [h] [h] rfl ra rb (by decide : (0 : Word).toNat ≤ 1)
  have hrow := normalise_eq base_pos (s * ((0 : Word).toNat : ℤ))
    (List.zipWith (fun x y => x + s * y) (ints a.words) (ints b.words))
  rw [← hnorm, eval_zipWith base s (by simp [hlen]), List.length_zipWith, length_ints, length_ints,
    ← hlen, Nat.min_self, a.length_eq] at hrow
  simp only [BitVec.ofNat_eq_ofNat, BitVec.toNat_ofNat, Nat.zero_mod, Nat.cast_zero, mul_zero,
    add_zero] at hrow
  refine ⟨⟨out, hout.trans a.length_eq, hsmall, a.fits⟩, cc, ?_, hrow.1, hcc, hrow.2⟩
  rw [a.length_eq] at hrun
  refine hrun.trans ?_
  rcases hctl with rfl | rfl <;> rfl

/-! ## Addition and subtraction -/

/-- **Addition.** The carry tells whether the sum has an extra bit above the words, whether
or not the sum is written. -/
theorem brI31Add_eq {h ctl : Word} (hctl : ctl = 0 ∨ ctl = 1) (a b : I31 h) (ra rb : List Word) :
    ∃ d : I31 h, d.value = (a.value + b.value) % base ^ wordCount h ∧
      brI31Add (a.array ra) (b.array rb) ctl = some ((if ctl = 1 then d else a).array ra,
        flag (base ^ wordCount h ≤ a.value + b.value)) := by
  obtain ⟨d, cc, hrun, hvalue, hcc, hcarry⟩ := carryLoop_value column_add hctl a b ra rb
  simp only [one_mul] at hvalue hcarry
  refine ⟨d, hvalue, ?_⟩
  have hflag : cc = flag (base ^ wordCount h ≤ a.value + b.value) := by
    apply BitVec.eq_of_toNat_eq
    have hpow : 0 < base ^ wordCount h := pow_pos base_pos _
    have ha := a.value_nonneg
    have hb := b.value_nonneg
    rw [toNat_flag]
    split_ifs with hle
    · have hone : 1 * base ^ wordCount h ≤ a.value + b.value := by rwa [one_mul]
      have := (Int.le_ediv_iff_mul_le hpow).mpr hone
      omega
    · have := Int.ediv_eq_zero_of_lt (by omega : 0 ≤ a.value + b.value) (not_le.mp hle)
      omega
  rw [← hflag, ← hrun]
  simp only [brI31Add, I31.array, List.getElem?_cons_zero, Option.bind_eq_bind, Option.bind_some,
    loopBound_eq a.fits]

/-- **Subtraction.** The borrow compares the two integers, whether or not the difference is
written. -/
theorem brI31Sub_eq {h ctl : Word} (hctl : ctl = 0 ∨ ctl = 1) (a b : I31 h) (ra rb : List Word) :
    ∃ d : I31 h, d.value = (a.value - b.value) % base ^ wordCount h ∧
      brI31Sub (a.array ra) (b.array rb) ctl = some ((if ctl = 1 then d else a).array ra,
        flag (a.value < b.value)) := by
  obtain ⟨d, cc, hrun, hvalue, hcc, hcarry⟩ := carryLoop_value column_sub hctl a b ra rb
  rw [neg_one_mul, ← sub_eq_add_neg] at hvalue
  rw [neg_one_mul, neg_one_mul, ← sub_eq_add_neg] at hcarry
  refine ⟨d, hvalue, ?_⟩
  have hflag : cc = flag (a.value < b.value) := by
    apply BitVec.eq_of_toNat_eq
    have hpow : 0 < base ^ wordCount h := pow_pos base_pos _
    have ha := a.value_nonneg
    have hb := b.value_lt
    rw [toNat_flag]
    split_ifs with hlt
    · have := Int.ediv_neg_of_neg_of_pos (by omega : a.value - b.value < 0) hpow
      omega
    · have := Int.ediv_nonneg (by omega : 0 ≤ a.value - b.value) hpow.le
      omega
  rw [← hflag, ← hrun]
  simp only [brI31Sub, I31.array, List.getElem?_cons_zero, Option.bind_eq_bind, Option.bind_some,
    loopBound_eq a.fits]

/-- **Subtraction undoes addition.** For any two integers of one announced bit length the
sum is written with its carry, and subtracting again restores the array and borrows exactly
what was carried. -/
theorem brI31Sub_undoes_add {h : Word} (a b : I31 h) (ra rb : List Word) :
    ∃ (d : I31 h) (cc : Word), brI31Add (a.array ra) (b.array rb) 1 = some (d.array ra, cc) ∧
      brI31Sub (d.array ra) (b.array rb) 1 = some (a.array ra, cc) ∧
      d.value + base ^ wordCount h * cc.toNat = a.value + b.value := by
  obtain ⟨d, hd, hadd⟩ := brI31Add_eq one_bit a b ra rb
  obtain ⟨e, he, hsub⟩ := brI31Sub_eq one_bit d b ra rb
  rw [if_pos rfl] at hadd hsub
  have hpow : 0 < base ^ wordCount h := pow_pos base_pos _
  have ha := a.value_nonneg
  have ha' := a.value_lt
  have hb := b.value_nonneg
  have hb' := b.value_lt
  generalize hP : base ^ wordCount h = P at *
  have hrestore : e = a := by
    apply I31.ext_value
    rw [he, hd, Int.emod_sub_emod, add_sub_cancel_right]
    exact Int.emod_eq_of_lt ha ha'
  rw [hrestore] at hsub
  by_cases hcarry : P ≤ a.value + b.value
  · have hvalue : d.value = a.value + b.value - P := by
      rw [hd, ← Int.sub_emod_right]
      exact Int.emod_eq_of_lt (by omega) (by omega)
    rw [flag_of hcarry] at hadd
    rw [flag_of (by omega)] at hsub
    refine ⟨d, 1, hadd, hsub, ?_⟩
    have hone : ((1 : Word).toNat : ℤ) = 1 := rfl
    rw [hone, hvalue]
    ring
  · have hvalue : d.value = a.value + b.value := by
      rw [hd]
      exact Int.emod_eq_of_lt (by omega) (by omega)
    rw [flag_of_not hcarry] at hadd
    rw [flag_of_not (by omega)] at hsub
    refine ⟨d, 0, hadd, hsub, ?_⟩
    have hzero : ((0 : Word).toNat : ℤ) = 0 := rfl
    rw [hzero, hvalue]
    ring

/-! ## Zero -/

def I31.zero {h : Word} (hfits : h.toNat + 63 < 2 ^ 32) : I31 h where
  words := List.replicate (wordCount h) 0
  length_eq := List.length_replicate
  small := Small.replicate _
  fits := hfits

@[simp] theorem I31.value_zero {h : Word} (hfits : h.toNat + 63 < 2 ^ 32) :
    (I31.zero hfits).value = 0 := value_replicate _

/-- Whatever the array held, `br_i31_zero` leaves zero and the words behind it. -/
theorem brI31Zero_eq {h : Word} (hfits : h.toNat + 63 < 2 ^ 32) (x0 : Word)
    {old : List Word} (rest : List Word) (hold : old.length = wordCount h) :
    brI31Zero (x0 :: (old ++ rest)) h = some ((I31.zero hfits).array rest) := by
  have hlen : 1 + ((h + 31) >>> 5).toNat ≤ ((x0 :: (old ++ rest)).set 0 h).length := by
    rw [List.set_cons_zero, List.length_cons, List.length_append, hold, wordCount]
    omega
  rw [brI31Zero, if_pos (by simp), memsetWords, if_pos hlen, List.set_cons_zero]
  have hdrop : (old ++ rest).drop ((h + 31) >>> 5).toNat = rest := List.drop_left' hold
  simp only [I31.array, I31.zero, wordCount, Nat.add_comm 1, List.drop_succ_cons, hdrop,
    List.take_succ_cons, List.take_zero, List.nil_append, List.cons_append]

end MicroSampler.BearSSL
