import MicroSampler.BearSSL.MulAdd

/-!
# Reduction: `br_i31_reduce`

An integer shorter than the modulus is copied. A longer one starts with one word less than
the modulus has, taken from its top, which is below the modulus; the other words are
shifted in one by one, from the most significant on.
-/

namespace MicroSampler.BearSSL

open Limbs

/-- `memcpy(x + dst, a + src, len * sizeof *a)` between two arrays. -/
def memcpyWords (x a : List Word) (dst src len : Nat) : Option (List Word) :=
  if dst + len ≤ x.length ∧ src + len ≤ a.length then
    some (x.take dst ++ (a.drop src).take len ++ x.drop (dst + len))
  else none

/-- The loop that clears the upper words, from `x[u + 1]` on. -/
def clearLoop : (n u : Nat) → (x : List Word) → List Word
  | 0, _, x => x
  | n + 1, u, x => clearLoop n (u + 1) (x.set (u + 1) 0)

/-- The loop that shifts in `a[u]`, ..., `a[1]`. -/
def shiftInLoop (a m : List Word) : (u : Nat) → (x : List Word) → Option (List Word)
  | 0, x => some x
  | u + 1, x => do
    let au ← a[u + 1]?
    let x ← brI31MuladdSmall x au m
    shiftInLoop a m u x

def brI31Reduce (x a m : List Word) : Option (List Word) := do
  let mBitlen ← m[0]?
  let mlen := ((mBitlen + 31) >>> 5).toNat
  -- every branch writes up to `x[mlen]`
  if x.length ≤ mlen then none
  else if mBitlen = 0 then pure (x.set 0 mBitlen)
  else do
    let x := x.set 0 mBitlen
    let aBitlen ← a[0]?
    let alen := ((aBitlen + 31) >>> 5).toNat
    if aBitlen.toNat < mBitlen.toNat then do
      let x ← memcpyWords x a 1 1 alen
      pure (clearLoop (mlen - alen) alen x)
    else do
      let x ← memcpyWords x a 1 (2 + (alen - mlen)) (mlen - 1)
      shiftInLoop a m (1 + alen - mlen) (x.set mlen 0)

/-! ## Shifting in the words of an integer -/

section Reduce

variable {h : Word} {m : I31 h} (rm rest : List Word)

/-- The words left to shift in, `low`, are a prefix of the words of `a`. -/
theorem shiftInLoop_eq (ha : Word) (hexact : 31 < h.toNat → m.Exact) {low : List Word}
    (hlow : Small low) (high : List Word) {x : I31 h} (hx : x.value < m.value) :
    ∃ r : I31 h, shiftInLoop (ha :: (low ++ high)) (m.array rm) low.length (x.array rest) =
        some (r.array rest) ∧
      r.value = (value low + base ^ low.length * x.value) % m.value := by
  induction low using List.reverseRecOn generalizing high x with
  | nil =>
    refine ⟨x, rfl, ?_⟩
    rw [value_nil, zero_add, List.length_nil, pow_zero, one_mul]
    exact (Int.emod_eq_of_lt x.value_nonneg hx).symm
  | append_singleton low w ih =>
    have hpos : 0 < m.value := x.value_nonneg.trans_lt hx
    obtain ⟨y, hrun, hy⟩ := brI31MuladdSmall_eq x m rest rm hlow.right.head hx hexact
    have hylt : y.value < m.value := hy ▸ Int.emod_lt_of_pos _ hpos
    obtain ⟨r, hrest, hr⟩ := ih hlow.left (w :: high) hylt
    refine ⟨r, ?_, ?_⟩
    · have hget : (ha :: (low ++ w :: high))[low.length + 1]? = some w := by
        rw [List.getElem?_cons_succ, getElem?_here]
      rw [List.append_assoc, List.singleton_append, List.length_append, List.length_singleton,
        shiftInLoop, hget]
      simp only [Option.bind_eq_bind, Option.bind_some, hrun]
      exact hrest
    · have hstep : base ^ low.length * y.value ≡
          base ^ low.length * (x.value * base + w.toNat) [ZMOD m.value] := by
        rw [hy]
        exact (Int.mod_modEq _ _).mul_left _
      rw [hr, value_append, value_cons, value_nil, List.length_append, List.length_singleton,
        pow_succ]
      refine (hstep.add_left (value low)).trans ?_
      rw [Int.ModEq]
      congr 1
      ring

/-! ## The whole function -/

theorem memcpyWords_eq {x a post src : List Word} (pre old front tail : List Word)
    (hx : x = pre ++ (old ++ post)) (ha : a = front ++ (src ++ tail))
    (hlen : old.length = src.length) :
    memcpyWords x a pre.length front.length src.length = some (pre ++ (src ++ post)) := by
  have hfits : pre.length + src.length ≤ x.length ∧ front.length + src.length ≤ a.length := by
    rw [hx, ha]
    simp only [List.length_append]
    omega
  have hdrop : x.drop (pre.length + src.length) = post := by
    rw [hx, ← List.drop_drop, List.drop_left, ← hlen, List.drop_left]
  rw [memcpyWords, if_pos hfits, hdrop, hx, ha, List.take_left, List.drop_left, List.take_left,
    List.append_assoc]

theorem clearLoop_eq (h0 : Word) (pre old post : List Word) :
    clearLoop old.length pre.length (h0 :: (pre ++ (old ++ post))) =
      h0 :: (pre ++ (List.replicate old.length 0 ++ post)) := by
  induction old generalizing pre with
  | nil => rfl
  | cons w old ih =>
    have h := ih (pre ++ [0])
    rw [List.length_append, List.length_singleton, List.append_assoc, List.singleton_append,
      List.append_assoc, List.singleton_append] at h
    rw [List.length_cons, clearLoop, List.set_cons_succ, List.cons_append, set_here, h,
      List.replicate_succ, List.cons_append]

theorem exists_split {ws : List Word} {n : Nat} (h : n ≤ ws.length) :
    ∃ front back, ws = front ++ back ∧ front.length = n ∧ back.length = ws.length - n :=
  ⟨ws.take n, ws.drop n, (List.take_append_drop n ws).symm, List.length_take_of_le h,
    List.length_drop⟩

/-- A shorter integer is below the modulus and is copied. -/
theorem brI31Reduce_short {ha : Word} (hexact : m.Exact) (a : I31 ha) (ra : List Word)
    (hless : ha.toNat < h.toNat) (hvalid : ha.toNat % 32 < 31)
    (hunused : a.value < 2 ^ bitLength ha) (d0 : Word) {old : List Word}
    (hold : old.length = wordCount h) :
    ∃ r : I31 h, brI31Reduce (d0 :: (old ++ rest)) (a.array ra) (m.array rm) =
        some (r.array rest) ∧ r.value = a.value % m.value := by
  have hcount := wordCount_eq m.fits
  have hcounta := wordCount_eq a.fits
  have hle : wordCount ha ≤ wordCount h := by omega
  have halen := a.length_eq
  obtain ⟨old1, old2, hsplit, hlen1, hlen2⟩ := exists_split (hold ▸ hle)
  obtain ⟨r, hr⟩ : ∃ r : I31 h, r.words = a.words ++ List.replicate old2.length 0 :=
    ⟨⟨a.words ++ List.replicate old2.length 0, by
      rw [List.length_append, List.length_replicate, halen, hlen2, hold]
      omega, a.small.append (Small.replicate _), m.fits⟩, rfl⟩
  have hrv : r.value = a.value := by
    rw [I31.value, hr, value_append, value_replicate, mul_zero, add_zero]
    rfl
  have hlt : a.value < m.value := by
    have hbits : bitLength ha ≤ bitLength h - 1 := by
      unfold bitLength
      omega
    have hpow : (2 : ℤ) ^ bitLength ha ≤ 2 ^ (bitLength h - 1) :=
      pow_le_pow_right₀ (by decide) hbits
    exact hunused.trans_le (hpow.trans hexact.1)
  refine ⟨r, ?_, by rw [hrv, Int.emod_eq_of_lt a.value_nonneg hlt]⟩
  have hcopy : memcpyWords (h :: (old ++ rest)) (a.array ra) 1 1 (wordCount ha) =
      some (h :: (a.words ++ (old2 ++ rest))) := by
    rw [← halen]
    exact memcpyWords_eq [h] old1 [ha] ra
      (by rw [hsplit, List.append_assoc]; rfl) rfl (hlen1.trans halen.symm)
  have hclear : clearLoop (wordCount h - wordCount ha) (wordCount ha)
      (h :: (a.words ++ (old2 ++ rest))) = r.array rest := by
    rw [← hold, ← hlen2, ← halen, clearLoop_eq, I31.array, hr, List.append_assoc]
  have hm0 : (m.array rm)[0]? = some h := rfl
  have ha0 : (a.array ra)[0]? = some ha := rfl
  have hne : h ≠ 0 := by
    intro hzero
    rw [hzero] at hless
    exact absurd hless (Nat.not_lt_zero _)
  have hroom : ¬ (d0 :: (old ++ rest)).length ≤ wordCount h := by
    rw [List.length_cons, List.length_append, hold]
    omega
  have hword : ∀ v : Word, ((v + 31) >>> 5).toNat = wordCount v := fun _ => rfl
  simp only [brI31Reduce, hm0, ha0, hword, if_neg hroom, if_neg hne, if_pos hless,
    List.set_cons_zero, hcopy, hclear, Option.bind_eq_bind, Option.bind_some, Option.pure_def]

/-- A longer integer starts with its top words, and the others are shifted in. -/
theorem brI31Reduce_long {ha : Word} (hexact : m.Exact) (a : I31 ha) (ra : List Word)
    (hpos : h ≠ 0) (hle : h.toNat ≤ ha.toNat) (d0 : Word) {old : List Word}
    (hold : old.length = wordCount h) :
    ∃ r : I31 h, brI31Reduce (d0 :: (old ++ rest)) (a.array ra) (m.array rm) =
        some (r.array rest) ∧ r.value = a.value % m.value := by
  have hcount := wordCount_eq m.fits
  have hcounta := wordCount_eq a.fits
  have halen := a.length_eq
  have hne : h.toNat ≠ 0 := fun hc => hpos (BitVec.eq_of_toNat_eq hc)
  obtain ⟨n, hn⟩ : ∃ n, wordCount h = n + 1 := ⟨wordCount h - 1, by omega⟩
  obtain ⟨low, high, hwords, hlow, hhigh⟩ :=
    exists_split (by omega : wordCount ha - n ≤ a.words.length)
  obtain ⟨old1, last, hsplit, hlen1⟩ := exists_concat (hold.trans hn)
  have hsmall : Small (low ++ high) := hwords ▸ a.small
  obtain ⟨x, hx⟩ : ∃ x : I31 h, x.words = high ++ [0] :=
    ⟨⟨high ++ [0], by rw [List.length_append, List.length_singleton]; omega,
      hsmall.right.append (Small.nil.cons (by decide)), m.fits⟩, rfl⟩
  have hxv : x.value = value high := by
    have hzero : ((0 : Word).toNat : ℤ) = 0 := rfl
    rw [I31.value, hx, value_append, value_cons, value_nil, hzero, mul_zero, add_zero, mul_zero,
      add_zero]
  have hlt : x.value < m.value := by
    have hbits : 31 * high.length ≤ bitLength h - 1 := by
      unfold bitLength
      omega
    have hpow : base ^ high.length ≤ 2 ^ (bitLength h - 1) := by
      rw [base_pow]
      exact pow_le_pow_right₀ (by decide) hbits
    rw [hxv]
    exact (BearSSL.value_lt hsmall.right).trans_le (hpow.trans hexact.1)
  obtain ⟨r, hloop, hr⟩ :=
    shiftInLoop_eq rm rest ha (fun _ => hexact) hsmall.left (high ++ ra) hlt
  have harray : a.array ra = ha :: (low ++ (high ++ ra)) := by
    rw [I31.array, hwords, List.append_assoc]
  rw [← harray] at hloop
  refine ⟨r, ?_, ?_⟩
  · have hcopy : memcpyWords (h :: (old ++ rest)) (a.array ra) 1
        (2 + (wordCount ha - wordCount h)) (wordCount h - 1) =
          some (h :: (high ++ last :: rest)) := by
      have hfront : (ha :: low).length = 2 + (wordCount ha - wordCount h) := by
        rw [List.length_cons]
        omega
      have hcopied : high.length = wordCount h - 1 := by omega
      rw [← hfront, ← hcopied]
      refine memcpyWords_eq [h] old1 (ha :: low) ra ?_ ?_ (by omega)
      · rw [hsplit, List.append_assoc]
        rfl
      · rw [harray]
        rfl
    have hset : (h :: (high ++ last :: rest)).set (wordCount h) 0 = x.array rest := by
      have hlen : wordCount h = high.length + 1 := by omega
      rw [hlen, List.set_cons_succ, set_here, I31.array, hx, List.append_assoc,
        List.singleton_append]
    have hpasses : 1 + wordCount ha - wordCount h = low.length := by omega
    have hm0 : (m.array rm)[0]? = some h := rfl
    have ha0 : (a.array ra)[0]? = some ha := rfl
    have hroom : ¬ (d0 :: (old ++ rest)).length ≤ wordCount h := by
      rw [List.length_cons, List.length_append, hold]
      omega
    have hword : ∀ v : Word, ((v + 31) >>> 5).toNat = wordCount v := fun _ => rfl
    simp only [brI31Reduce, hm0, ha0, hword, if_neg hroom, if_neg hpos,
      if_neg (Nat.not_lt.mpr hle), List.set_cons_zero, hcopy, hset, hpasses, hloop,
      Option.bind_eq_bind, Option.bind_some]
  · have hav : a.value = value low + base ^ low.length * value high := by
      rw [I31.value, hwords, value_append]
    rw [hr, hxv, hav]

/-- **Reduction.** For a modulus of the announced length and an integer whose announced
length is a valid one, the function leaves the remainder, whichever of the two is longer and
whatever the destination held. -/
theorem brI31Reduce_eq {ha : Word} (hexact : m.Exact) (a : I31 ha) (ra : List Word)
    (hvalid : ha.toNat % 32 < 31) (hunused : a.value < 2 ^ bitLength ha) (d0 : Word)
    {old : List Word} (hold : old.length = wordCount h) :
    ∃ r : I31 h, brI31Reduce (d0 :: (old ++ rest)) (a.array ra) (m.array rm) =
        some (r.array rest) ∧ r.value = a.value % m.value := by
  rcases Nat.lt_or_ge ha.toNat h.toNat with hless | hle
  · exact brI31Reduce_short rm rest hexact a ra hless hvalid hunused d0 hold
  · have hpos : h ≠ 0 := by
      intro hzero
      have hm := m.value_lt
      have hone : (1 : ℤ) ≤ 2 ^ (bitLength h - 1) := one_le_pow₀ (by decide)
      have hnone : wordCount h = 0 := by
        rw [hzero]
        rfl
      have hlow := hone.trans hexact.1
      rw [hnone, pow_zero] at hm
      omega
    exact brI31Reduce_long rm rest hexact a ra hpos hle d0 hold

end Reduce

/-- Three words modulo two. -/
theorem brI31Reduce_eq_forty :
    ∃ r : I31 41, brI31Reduce [0, 0, 0] [73, 100, 7, 300] [41, 1515870811, 499] =
      some (r.array []) ∧ r.value = 348952969926 := by
  obtain ⟨r, hrun, hvalue⟩ := brI31Reduce_eq (m := fortyBits) [] [] exact_fortyBits
    (⟨[100, 7, 300], by decide,
      ((Small.nil.cons (by decide)).cons (by decide)).cons (by decide), by decide⟩ : I31 73) []
    (by decide) (by decide) 0 (rfl : [(0 : Word), 0].length = 2)
  exact ⟨r, hrun, hvalue.trans (by decide)⟩

end MicroSampler.BearSSL
