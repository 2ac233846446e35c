import MicroSampler.BearSSL.Windows

/-!
# Exponentiation with a window

The loop over the windows, and what comes before it. `br_i31_modpow_opt` refuses an array of
fewer than two temporaries; else it leaves `x` to the exponent modulo `m`, as
`br_i31_modpow` does, and touches nothing behind the words it was given. What it prints
tells the exponent.
-/

namespace MicroSampler.BearSSL

open Limbs Montgomery

/-! ## All windows -/

/-- The bits of the window `j` of an exponent `E` of `n` bits. -/
def windowBits (winLen n E j : Nat) : Word :=
  BitVec.ofNat 32 (E / 2 ^ (n - (j + 1) * winLen) % 2 ^ min winLen (n - j * winLen))

/-- The lines that are printed for the windows of an exponent `E` of `n` bits. -/
def windowLines (winLen n E : Nat) : List Print :=
  (List.range ((n + winLen - 1) / winLen)).map fun j => .bits (windowBits winLen n E j)

theorem windowLines_zero {winLen : Nat} (hpos : 1 ≤ winLen) (E : Nat) :
    windowLines winLen 0 E = [] := by
  rw [windowLines, Nat.div_eq_of_lt (by omega), List.range_zero, List.map_nil]

theorem windowLines_step {winLen n : Nat} (hpos : 1 ≤ winLen) (hn : 0 < n) (E : Nat) :
    windowLines winLen n E =
      .bits (windowBits winLen n E 0) :: windowLines winLen (n - winLen) E := by
  have hcount : (n + winLen - 1) / winLen = (n - winLen + winLen - 1) / winLen + 1 := by
    by_cases hle : winLen ≤ n
    · rw [Nat.sub_add_cancel hle, show n + winLen - 1 = n - 1 + winLen by omega,
        Nat.add_div_right _ hpos]
    · rw [show n + winLen - 1 = n - 1 + winLen by omega, Nat.add_div_right _ hpos,
        Nat.div_eq_of_lt (by omega : n - 1 < winLen), Nat.div_eq_of_lt (by omega)]
  rw [windowLines, hcount, List.range_succ_eq_map, List.map_cons, List.map_map, windowLines]
  congr 1
  refine List.map_congr_left fun j _ => ?_
  have hlow : n - winLen - (j + 1) * winLen = n - (j + 1 + 1) * winLen := by
    rw [Nat.succ_mul (j + 1)]
    omega
  have hhigh : n - winLen - j * winLen = n - (j + 1) * winLen := by
    rw [Nat.succ_mul]
    omega
  show Print.bits (windowBits winLen n E (j + 1)) = Print.bits (windowBits winLen (n - winLen) E j)
  rw [windowBits, windowBits, hlow, hhigh]

theorem Reader.left_pos_iff {r : Reader} : 0 < r.left ↔ 0 < r.accLen ∨ 0 < r.elen := by
  rw [Reader.left]
  omega

theorem windowLoop_done {m : List Word} {m0i m0 : Word} {words mwlen winLen fuel : Nat}
    {r : Reader} (hleft : r.left = 0) (s : Opt) :
    windowLoop m m0i m0 words mwlen winLen fuel r s = some s := by
  have hdone : ¬ (0 < r.accLen ∨ 0 < r.elen) := by
    rw [← Reader.left_pos_iff, hleft]
    exact lt_irrefl 0
  cases fuel <;> rw [windowLoop, if_neg hdone]

section Loop

variable {h : Word} {m : I31 h} (rm : List Word) {m0i : Word} {x : ℤ} {a : I31 h}

/-- **The loop.** With `x` to the bits read so far it ends with `x` to the exponent. -/
theorem windowLoop_eq (hodd : m.value % 2 = 1) (hinv : m.value * m0i.toNat ≡ -1 [ZMOD base])
    {mwlen winLen E : Nat} (hroom : wordCount h < mwlen) (hpos : 1 ≤ winLen) (hfive : winLen ≤ 5)
    (ra : List Word) {rest : List Word} {fuel : Nat} {r : Reader} (hr : r.Reads E)
    (hfuel : r.left ≤ fuel) (ha : Represents m (x ^ (E / 2 ^ r.left)) a) {t1 tail : List Word}
    (ht1 : t1.length = mwlen) (htail : Window m mwlen x rest winLen tail) (printed : List Print) :
    ∃ b t1' tail', Represents m (x ^ E) b ∧ t1'.length = mwlen ∧
      Window m mwlen x rest winLen tail' ∧
      windowLoop (m.array rm) m0i h (wordCount h + 1) mwlen winLen fuel r
          ⟨a.array ra, t1 ++ tail, printed⟩ =
        some ⟨b.array ra, t1' ++ tail', printed ++ windowLines winLen r.left E⟩ := by
  induction fuel generalizing r a t1 tail printed with
  | zero =>
    have hleft : r.left = 0 := Nat.le_zero.mp hfuel
    rw [hleft, pow_zero, Nat.div_one] at ha
    refine ⟨a, t1, tail, ha, ht1, htail, ?_⟩
    rw [windowLoop_done hleft, hleft, windowLines_zero hpos, List.append_nil]
  | succ fuel ih =>
    rcases Nat.eq_zero_or_pos r.left with hleft | hleft
    · rw [hleft, pow_zero, Nat.div_one] at ha
      refine ⟨a, t1, tail, ha, ht1, htail, ?_⟩
      rw [windowLoop_done hleft, hleft, windowLines_zero hpos, List.append_nil]
    · have hmore := Reader.left_pos_iff.mp hleft
      obtain ⟨bits, r', hnext, hbits, hleft', hr'⟩ := Reader.next_eq hr hpos hfive
      have hlt : bits.toNat < 2 ^ min winLen r.left := by
        rw [hbits]
        exact Nat.mod_lt _ (Nat.two_pow_pos _)
      obtain ⟨b, t1', tail', hb, ht1', htail', hround⟩ := windowRound_eq rm hodd hinv hroom
        (Nat.min_le_left _ _) hfive ha ra ht1 htail hlt printed
      have hsplit : r.left = r.left - winLen + min winLen r.left := by omega
      have hpower := pow_window x E (min winLen r.left) (r.left - winLen)
      rw [← hsplit, ← hbits] at hpower
      rw [hpower, ← hleft'] at hb
      obtain ⟨c, t1'', tail'', hc, ht1'', htail'', hrun⟩ := ih hr' (by omega) hb ht1' htail'
        (printed ++ [.bits bits])
      refine ⟨c, t1'', tail'', hc, ht1'', htail'', ?_⟩
      have hline : bits = windowBits winLen r.left E 0 := by
        rw [windowBits, Nat.zero_mul, Nat.sub_zero, Nat.zero_add, Nat.one_mul, ← hbits]
        rw [BitVec.ofNat_toNat, BitVec.setWidth_eq]
      rw [windowLoop, if_pos hmore]
      simp only [hnext, hround, hrun, Option.bind_eq_bind, Option.bind_some]
      rw [windowLines_step hpos hleft, ← hline, hleft', List.append_assoc, List.singleton_append]

/-! ## Before the loop -/

theorem windowLength_bounds (mwlen twlen : Nat) {n : Nat} (hn : 1 ≤ n) :
    1 ≤ windowLength mwlen twlen n ∧ windowLength mwlen twlen n ≤ n ∧
      (1 < windowLength mwlen twlen n →
        (2 ^ windowLength mwlen twlen n + 1) * mwlen ≤ twlen) := by
  induction n with
  | zero => exact absurd hn (Nat.not_succ_le_zero 0)
  | succ n ih =>
    cases n with
    | zero => exact ⟨le_refl 1, le_refl 1, fun h => absurd h (lt_irrefl 1)⟩
    | succ n =>
      obtain ⟨hone, hle, hfits⟩ := ih n.succ_pos
      rw [windowLength]
      split
      · next hfit =>
        rw [Nat.shiftLeft_eq, one_mul] at hfit
        exact ⟨hn, le_refl _, fun _ => hfit⟩
      · exact ⟨hone, hle.trans (Nat.le_succ _), hfits⟩

/-- The integer whose upper word is one and whose other words are zero. -/
def I31.upper {h : Word} {n : Nat} (hn : wordCount h = n + 1) (hfits : h.toNat + 63 < 2 ^ 32) :
    I31 h where
  words := List.replicate n 0 ++ [1]
  length_eq := by simp [hn]
  small := (Small.replicate n).append (Small.nil.cons (by decide))
  fits := hfits

theorem I31.value_upper {n : Nat} (hn : wordCount h = n + 1) (hfits : h.toNat + 63 < 2 ^ 32) :
    (I31.upper hn hfits).value = base ^ n := by
  have h1 : ((1 : Word).toNat : ℤ) = 1 := rfl
  rw [I31.value, I31.upper, value_append, value_replicate, List.length_replicate, value_cons,
    value_nil, mul_zero, add_zero, zero_add, h1, mul_one]

theorem I31.set_upper {n : Nat} (hn : wordCount h = n + 1) (hfits : h.toNat + 63 < 2 ^ 32)
    (ry : List Word) :
    ((I31.zero hfits).array ry).set (wordCount h) 1 = (I31.upper hn hfits).array ry := by
  have hwords : (I31.zero hfits).words = List.replicate n 0 ++ [0] := by
    rw [I31.zero]
    dsimp only
    rw [hn, List.replicate_succ']
  have hhere := set_here (List.replicate n (0 : Word)) 0 1 ry
  rw [List.length_replicate] at hhere
  rw [I31.array, I31.array, hwords, I31.upper, hn, List.set_cons_succ, List.append_assoc,
    List.append_assoc, List.singleton_append, List.singleton_append, hhere]

/-- The upper word alone is below an odd modulus. -/
theorem base_pow_lt (hodd : m.value % 2 = 1) (hexact : 31 < h.toNat → m.Exact)
    (hone : 1 < m.value) {n : Nat} (hn : wordCount h = n + 1) : base ^ n < m.value := by
  have hcount := wordCount_eq m.fits
  cases n with
  | zero => rwa [pow_zero]
  | succ n =>
    have hbits : 31 * (n + 1) ≤ bitLength h - 1 := by
      rw [bitLength]
      omega
    have hle : base ^ (n + 1) ≤ m.value := by
      rw [base_pow]
      exact (pow_le_pow_right₀ (by decide) hbits).trans (hexact (by omega)).1
    have heven : base ^ (n + 1) % 2 = 0 := by
      rw [pow_succ', base_eq]
      omega
    exact lt_of_le_of_ne hle fun heq => by omega

/-- **One.** Shifting the upper word once gives the factor of the representation. -/
theorem montyOne_eq (hodd : m.value % 2 = 1) (hexact : 31 < h.toNat → m.Exact)
    (hone : 1 < m.value) (y : I31 h) (ry : List Word) :
    ∃ b, Represents m 1 b ∧ montyOne (y.array ry) (m.array rm) h = some (b.array ry) := by
  obtain ⟨n, hn⟩ : ∃ n, wordCount h = n + 1 := by
    refine ⟨wordCount h - 1, (Nat.succ_pred fun hzero => ?_).symm⟩
    have hm := m.value_lt
    rw [hzero, pow_zero] at hm
    omega
  have hlt : (I31.upper hn m.fits).value < m.value := by
    rw [I31.value_upper]
    exact base_pow_lt hodd hexact hone hn
  obtain ⟨b, hrun, hb⟩ := brI31MuladdSmall_eq (I31.upper hn m.fits) m ry rm
    (by decide : (0 : Word).toNat < 2 ^ 31) hlt hexact
  have hnat : ((0 : Word).toNat : ℤ) = 0 := rfl
  rw [hnat, add_zero, I31.value_upper, ← pow_succ, ← hn] at hb
  refine ⟨b, ⟨?_, ?_⟩, ?_⟩
  · rw [hb]
    exact Int.emod_lt_of_pos _ (by omega)
  · rw [hb, one_mul]
    exact Int.mod_modEq _ _
  · have hindex : ((h + 31) >>> 5).toNat = wordCount h := rfl
    have hzero : brI31Zero (y.array ry) h = some ((I31.zero m.fits).array ry) :=
      brI31Zero_eq m.fits h ry y.length_eq
    simp only [montyOne, hzero, Option.bind_eq_bind, Option.bind_some, hindex,
      I31.set_upper hn m.fits, hrun]

/-- How much of the array is used. -/
def usedWords (mwlen winLen : Nat) : Nat := (if winLen = 1 then 2 else 2 ^ winLen + 1) * mwlen

/-- The first of several blocks. -/
theorem exists_cut {mwlen n : Nat} {l : List Word} (hl : (n + 1) * mwlen ≤ l.length) :
    ∃ front, front.length = mwlen ∧ l = front ++ l.drop mwlen ∧
      n * mwlen ≤ (l.drop mwlen).length := by
  rw [Nat.succ_mul] at hl
  refine ⟨l.take mwlen, ?_, (List.take_append_drop mwlen l).symm, ?_⟩
  · rw [List.length_take]
    omega
  · rw [List.length_drop]
    omega

/-- **The powers.** -/
theorem windowPowers_eq (hodd : m.value % 2 = 1) (hinv : m.value * m0i.toNat ≡ -1 [ZMOD base])
    {mwlen winLen : Nat} (hroom : wordCount h < mwlen) (hpos : 1 ≤ winLen)
    (ha : Represents m x a) (ra : List Word) {tmp : List Word}
    (htmp : usedWords mwlen winLen ≤ tmp.length) :
    ∃ t1 tail, t1.length = mwlen ∧
      Window m mwlen x (tmp.drop (usedWords mwlen winLen)) winLen tail ∧
      windowPowers (a.array ra) (m.array rm) m0i (wordCount h + 1) mwlen winLen tmp =
        some (t1 ++ tail) := by
  unfold usedWords at htmp ⊢
  by_cases hwin : winLen = 1
  · subst hwin
    rw [if_pos rfl] at htmp ⊢
    obtain ⟨t1, ht1, htmp1, hroom1⟩ := exists_cut htmp
    rw [one_mul] at hroom1
    obtain ⟨block, hblock, hplace⟩ := exists_block ha hroom hroom1
    have hcopy := memcpyWords_array a ra t1 (by omega : wordCount h < (tmp.drop mwlen).length)
    rw [← htmp1, ht1, hplace, List.drop_drop, ← two_mul] at hcopy
    exact ⟨t1, _, ht1, .single hblock, by rw [windowPowers, if_pos rfl, hcopy]⟩
  · rw [if_neg hwin] at htmp ⊢
    obtain ⟨n, hn⟩ : ∃ n, 2 ^ winLen = n + 2 :=
      ⟨2 ^ winLen - 2, by have := Nat.pow_le_pow_right two_pos (by omega : 1 ≤ winLen); omega⟩
    rw [hn] at htmp ⊢
    obtain ⟨t1, ht1, htmp1, hroom1⟩ := exists_cut htmp
    obtain ⟨t2, ht2, htmp2, hroom2⟩ := exists_cut hroom1
    have hroom3 : mwlen ≤ ((tmp.drop mwlen).drop mwlen).length := by
      rw [Nat.succ_mul] at hroom2
      omega
    obtain ⟨block, hblock, hplace⟩ := exists_block ha hroom hroom3
    have hcopy := memcpyWords_array a ra (t1 ++ t2)
      (by omega : wordCount h < ((tmp.drop mwlen).drop mwlen).length)
    rw [List.append_assoc, ← htmp2, ← htmp1, List.length_append, ht1, ht2, hplace] at hcopy
    rw [← pow_one x] at hblock
    have hbehind : n * mwlen ≤ (((tmp.drop mwlen).drop mwlen).drop mwlen).length := by
      rw [Nat.succ_mul] at hroom2
      rw [List.length_drop]
      omega
    obtain ⟨blocks, htable, hblocks, hrun⟩ := powersLoop_eq rm hodd hinv hroom ha ra (t1 ++ t2)
      hblock hbehind
    have hrest : (((tmp.drop mwlen).drop mwlen).drop mwlen).drop (n * mwlen) =
        tmp.drop ((n + 2 + 1) * mwlen) := by
      rw [List.drop_drop, List.drop_drop, List.drop_drop]
      congr 1
      ring
    rw [List.length_append, ht1, ht2, hrest] at hrun
    refine ⟨t1, t2 ++ ((block :: blocks).flatten ++ tmp.drop ((n + 2 + 1) * mwlen)), ht1,
      .table (by omega) ht2 ⟨hblock, htable⟩ ?_, ?_⟩
    · rw [List.length_cons, hblocks, hn]
      rfl
    · have hpasses : (1 <<< winLen) - 2 = n := by
        rw [Nat.shiftLeft_eq, one_mul, hn]
        rfl
      rw [windowPowers, if_neg hwin, hcopy]
      simp only [Option.bind_eq_bind, Option.bind_some, hpasses, hrun]
      rw [List.flatten_cons, List.append_assoc, List.append_assoc]

theorem Table.length_flatten {mwlen u : Nat} {blocks : List (List Word)}
    (htable : Table m mwlen x u blocks) : blocks.flatten.length = blocks.length * mwlen := by
  induction blocks generalizing u with
  | nil => rw [List.flatten_nil, List.length_nil, List.length_nil, Nat.zero_mul]
  | cons block blocks ih =>
    rw [List.flatten_cons, List.length_append, htable.1.1, ih htable.2, List.length_cons,
      Nat.succ_mul, Nat.add_comm]

/-- The rest lies behind what is used. -/
theorem Window.exists_front {mwlen winLen : Nat} {rest t1 tail : List Word}
    (htail : Window m mwlen x rest winLen tail) (ht1 : t1.length = mwlen) :
    ∃ front, t1 ++ tail = front ++ rest ∧ front.length = usedWords mwlen winLen := by
  cases htail with
  | @single block hblock =>
    refine ⟨t1 ++ block, (List.append_assoc _ _ _).symm, ?_⟩
    rw [List.length_append, ht1, hblock.1, usedWords, if_pos rfl, two_mul]
  | @table _ t2 blocks hwin ht2 htable hcount =>
    refine ⟨t1 ++ (t2 ++ blocks.flatten), by rw [List.append_assoc, List.append_assoc], ?_⟩
    have hpow := Nat.one_le_two_pow (n := winLen)
    rw [List.length_append, List.length_append, ht1, ht2, htable.length_flatten, hcount, usedWords,
      if_neg (by omega), show 2 ^ winLen + 1 = 2 ^ winLen - 1 + 1 + 1 by omega, Nat.succ_mul,
      Nat.succ_mul]
    omega

end Loop

/-! ## The function -/

/-- The words of one temporary, an even number. -/
def temporaryWords (h : Word) : Nat := wordCount h + 1 + ((wordCount h + 1) &&& 1)

theorem modulusWords_eq {h : Word} (hfits : h.toNat + 63 < 2 ^ 32) :
    ((h + 63) >>> 5).toNat = wordCount h + 1 := by
  have h63 : (63 : Word).toNat = 63 := rfl
  rw [wordCount_eq hfits, BitVec.toNat_ushiftRight, BitVec.toNat_add, Nat.shiftRight_eq_div_pow]
  omega

/-- The run of the function when the array is long enough. -/
theorem brI31ModpowOpt_run {h m1 : Word} {x m : I31 h} (rx : List Word) {rm tmp : List Word}
    {e : List Byte} {elen twlen : Nat} (hm1 : (m.array rm)[1]? = some m1) (hodd : m.value % 2 = 1)
    (hexact : 31 < h.toNat → m.Exact) (hone : 1 < m.value) (hx : x.value < m.value)
    (he : elen ≤ e.length) (htmp : twlen ≤ tmp.length) (hroom : 2 * temporaryWords h ≤ twlen) :
    ∃ (r : I31 h) (tmp' : List Word),
      brI31ModpowOpt (x.array rx) e elen (m.array rm) (brI31Ninv31 m1) tmp twlen =
        some (1, ⟨r.array rx, tmp', .winLen (windowLength (temporaryWords h) twlen 5) ::
          windowLines (windowLength (temporaryWords h) twlen 5) (8 * elen) (exponent e elen)⟩) ∧
      r.value = x.value ^ exponent e elen % m.value ∧ tmp'.length = tmp.length ∧
      tmp'.drop twlen = tmp.drop twlen := by
  obtain ⟨m1', ms, hms⟩ := exists_lowest hodd
  have hinv := inverse_of_lowest hms hodd
  rw [I31.array, hms] at hm1
  cases hm1
  obtain ⟨hpos, hfive, hfits⟩ := windowLength_bounds (temporaryWords h) twlen (by decide : 1 ≤ 5)
  have hblock : wordCount h < temporaryWords h :=
    Nat.lt_of_lt_of_le (Nat.lt_succ_self _) (Nat.le_add_right _ _)
  have hlen : ((h + 63) >>> 5).toNat + (((h + 63) >>> 5).toNat &&& 1) = temporaryWords h := by
    rw [modulusWords_eq m.fits, temporaryWords]
  generalize hwin : windowLength (temporaryWords h) twlen 5 = winLen at hpos hfive hfits ⊢
  generalize temporaryWords h = mwlen at hroom hfits hblock hlen hwin
  have hused : usedWords mwlen winLen ≤ twlen := by
    rw [usedWords]
    split
    · exact hroom
    · next hne => exact hfits (by omega)
  obtain ⟨t, hto, ht, htmod⟩ := brI31ToMonty_eq rx rm hexact hx
  have hbase : Represents m x.value t := ⟨ht, htmod⟩
  obtain ⟨t1, tail, ht1, htail, hpowers⟩ := windowPowers_eq rm hodd hinv
    hblock hpos hbase rx (hused.trans htmp)
  obtain ⟨one, honerep, hmontyOne⟩ := montyOne_eq rm hodd hexact hone t rx
  have hreads := Reader.reads_start he
  have hstart :
      Represents m (x.value ^ (exponent e elen / 2 ^ Reader.left ⟨0, 0, e, elen⟩)) one := by
    have hlt := exponent_lt he
    rw [mul_comm] at hlt
    rw [Reader.left, Nat.add_zero, Nat.div_eq_of_lt hlt, pow_zero]
    exact honerep
  obtain ⟨b, t1', tail', hb, ht1', htail', hloop⟩ := windowLoop_eq rm hodd hinv hblock hpos
    hfive rx hreads (le_refl (8 * elen)) hstart ht1 htail [.winLen winLen]
  obtain ⟨r, hfrom, hr, hrmod⟩ := brI31FromMonty_eq rx rm hinv hb.lt
  obtain ⟨front, hfront, hfrontlen⟩ := htail'.exists_front ht1'
  refine ⟨r, t1' ++ tail', ?_, ?_, ?_, ?_⟩
  · have hm0 : (m.array rm)[0]? = some h := rfl
    have henough : ¬ twlen < mwlen <<< 1 := by
      rw [Nat.shiftLeft_eq]
      omega
    have hwords := modulusWords_eq m.fits
    rw [hwords] at hlen
    simp only [brI31ModpowOpt, hm0, Option.bind_eq_bind, Option.bind_some, Option.pure_def, hwords,
      hlen, if_neg henough, hwin, hto, hpowers, hmontyOne, hloop, hfrom]
    rw [Reader.left, Nat.add_zero, List.singleton_append]
  · have hmod := cancel_base hodd (by omega) (hrmod.trans (mul_comm (x.value ^ _) _ ▸ hb.mod))
    rwa [Int.ModEq, Int.emod_eq_of_lt r.value_nonneg hr] at hmod
  · rw [hfront, List.length_append, hfrontlen, List.length_drop]
    omega
  · rw [hfront, List.drop_append, hfrontlen, List.drop_eq_nil_of_le (hfrontlen.trans_le hused),
      List.nil_append, List.drop_drop, Nat.add_sub_cancel' hused]

/-- **`br_i31_modpow_opt`.** An array of fewer than two temporaries is refused, and nothing is
written, whatever the words of the modulus are. Otherwise, for an odd modulus above one and an
integer below it, the function leaves `x` to the exponent modulo `m`, whatever window the
array has room for and whatever it held, and the words behind the array stay. -/
theorem brI31ModpowOpt_eq {h : Word} {m : I31 h} {rm tmp : List Word} {e : List Byte}
    {elen twlen : Nat} :
    (∀ (x : List Word) (m0i : Word), twlen < 2 * temporaryWords h →
      brI31ModpowOpt x e elen (m.array rm) m0i tmp twlen = some (0, ⟨x, tmp, []⟩)) ∧
    (∀ (m1 : Word) (x : I31 h) (rx : List Word), (m.array rm)[1]? = some m1 →
      m.value % 2 = 1 → (31 < h.toNat → m.Exact) → 1 < m.value → x.value < m.value →
      elen ≤ e.length → twlen ≤ tmp.length → 2 * temporaryWords h ≤ twlen →
      ∃ (r : I31 h) (tmp' : List Word) (printed : List Print),
        brI31ModpowOpt (x.array rx) e elen (m.array rm) (brI31Ninv31 m1) tmp twlen =
          some (1, ⟨r.array rx, tmp', printed⟩) ∧
        r.value = x.value ^ exponent e elen % m.value ∧ tmp'.length = tmp.length ∧
        tmp'.drop twlen = tmp.drop twlen) := by
  constructor
  · intro x m0i hshort
    have hm0 : (m.array rm)[0]? = some h := rfl
    have hlen : wordCount h + 1 + ((wordCount h + 1) &&& 1) = temporaryWords h := rfl
    have hless : twlen < temporaryWords h <<< 1 := by
      rw [Nat.shiftLeft_eq]
      omega
    simp only [brI31ModpowOpt, hm0, Option.bind_eq_bind, Option.bind_some, Option.pure_def,
      modulusWords_eq m.fits, hlen, if_pos hless]
  · intro m1 x rx hm1 hodd hexact hone hx he htmp hroom
    obtain ⟨r, tmp', hrun, hvalue, hlen, hrest⟩ :=
      brI31ModpowOpt_run rx hm1 hodd hexact hone hx he htmp hroom
    exact ⟨r, tmp', _, hrun, hvalue, hlen, hrest⟩

/-- The fifth power of two words modulo two words: the array is too short, or has room for a
table of three powers. -/
theorem brI31ModpowOpt_eq_forty :
    brI31ModpowOpt [41, 3, 2] [5] 1 [41, 1515870811, 499] (brI31Ninv31 1515870811) [9, 9, 9] 7 =
        some (0, ⟨[41, 3, 2], [9, 9, 9], []⟩) ∧
      ∃ (r : I31 41) (tmp' : List Word) (printed : List Print),
        brI31ModpowOpt [41, 3, 2] [5] 1 [41, 1515870811, 499] (brI31Ninv31 1515870811)
            (List.replicate 24 9) 23 = some (1, ⟨r.array [], tmp', printed⟩) ∧
          r.value = 926845861639 ∧ tmp'.drop 23 = [9] := by
  have hshort := (@brI31ModpowOpt_eq 41 fortyBits [] [9, 9, 9] [5] 1 7).1 [41, 3, 2]
    (brI31Ninv31 1515870811) (by decide)
  obtain ⟨r, tmp', printed, hrun, hvalue, -, hrest⟩ :=
    (@brI31ModpowOpt_eq 41 fortyBits [] (List.replicate 24 9) [5] 1 23).2 1515870811 smallFactor
      [] rfl (by decide) (fun _ => exact_fortyBits) (by decide) (by decide) (by decide)
      (by decide) (by decide)
  exact ⟨hshort, r, tmp', printed, hrun, hvalue.trans (by decide), hrest⟩

/-! ## The plain exponentiation -/

/-- **The window makes no difference.** For every modulus, base and exponent the function with
the window leaves the same words in `x` as `br_i31_modpow`. -/
theorem brI31ModpowOpt_agrees {h m1 : Word} {x m : I31 h} {rx rm tmp t1 t2 : List Word}
    {e : List Byte} {elen twlen : Nat} (hm1 : (m.array rm)[1]? = some m1)
    (hodd : m.value % 2 = 1) (hexact : 31 < h.toNat → m.Exact) (hone : 1 < m.value)
    (hx : x.value < m.value) (he : elen ≤ e.length) (helen : elen < 2 ^ 29)
    (htmp : twlen ≤ tmp.length) (hroom : 2 * temporaryWords h ≤ twlen)
    (ht1 : wordCount h < t1.length) (ht2 : wordCount h < t2.length) :
    ∃ o w, brI31ModpowOpt (x.array rx) e elen (m.array rm) (brI31Ninv31 m1) tmp twlen =
        some (1, o) ∧
      brI31Modpow bearArith e elen (bytesOf (m.array rm)) (brI31Ninv31 m1)
        ⟨bytesOf (x.array rx), bytesOf t1, bytesOf t2, ()⟩ = some w ∧ w.x = bytesOf o.x := by
  obtain ⟨r, tmp', hrun, hvalue, -⟩ :=
    brI31ModpowOpt_run rx hm1 hodd hexact hone hx he htmp hroom
  obtain ⟨m1', ms, hms⟩ := exists_lowest hodd
  have hinv := inverse_of_lowest hms hodd
  rw [I31.array, hms] at hm1
  cases hm1
  obtain ⟨s, t, d, hafter, -, hpowers⟩ := modpowAfter_power rm hodd hexact hinv hx he
    (modpowRounds_le elen) rx ht1 ht2
  have hforget := modpowAfter_forget bearArith e elen (m := bytesOf (m.array rm)) (brI31Ninv31 m1)
    copyV3_follows (w := ⟨bytesOf (x.array rx), bytesOf t1, bytesOf t2, ()⟩)
    (fun _ _ => trivial) (modpowRounds elen)
  simp only [Work.forget, hafter] at hforget
  obtain ⟨w, hw, hwx⟩ := Option.map_eq_some_iff.mp hforget
  have hsame : s = r := by
    apply I31.ext_value
    rw [hpowers.value_eq hone, hvalue, modpowRounds_eq helen, Nat.mod_eq_of_lt (exponent_lt he)]
  refine ⟨_, w, hrun, hw, ?_⟩
  rw [← hsame]
  exact congrArg Work.x hwx

theorem brI31ModpowOpt_agrees_forty :
    ∃ o w, brI31ModpowOpt [41, 3, 2] [5] 1 [41, 1515870811, 499] (brI31Ninv31 1515870811)
        (List.replicate 24 9) 23 = some (1, o) ∧
      brI31Modpow bearArith [5] 1 (bytesOf [41, 1515870811, 499]) (brI31Ninv31 1515870811)
        ⟨bytesOf [41, 3, 2], bytesOf [0, 0, 0], bytesOf [0, 0, 0], ()⟩ = some w ∧
        w.x = bytesOf o.x :=
  @brI31ModpowOpt_agrees 41 1515870811 smallFactor fortyBits [] [] (List.replicate 24 9)
    [0, 0, 0] [0, 0, 0] [5] 1 23 rfl (by decide) (fun _ => exact_fortyBits) (by decide) (by decide)
    (by decide) (by decide) (by decide) (by decide) (by decide) (by decide)

/-! ## What is printed -/

theorem windowBits_inj {winLen n E E' : Nat} (hfive : winLen ≤ 5)
    (h : windowBits winLen n E 0 = windowBits winLen n E' 0) :
    E / 2 ^ (n - winLen) % 2 ^ min winLen n = E' / 2 ^ (n - winLen) % 2 ^ min winLen n := by
  have hpow : 2 ^ min winLen n ≤ 2 ^ 5 :=
    Nat.pow_le_pow_right two_pos ((Nat.min_le_left _ _).trans hfive)
  have hsmall (F : Nat) : F / 2 ^ (n - winLen) % 2 ^ min winLen n < 2 ^ 32 :=
    (Nat.mod_lt _ (Nat.two_pow_pos _)).trans (by omega)
  have hnat := congrArg BitVec.toNat h
  simp only [windowBits, Nat.zero_mul, Nat.sub_zero, Nat.zero_add, Nat.one_mul,
    BitVec.toNat_ofNat] at hnat
  rwa [Nat.mod_eq_of_lt (hsmall E), Nat.mod_eq_of_lt (hsmall E')] at hnat

/-- The lines of all windows determine the bits. -/
theorem windowLines_inj {winLen : Nat} (hpos : 1 ≤ winLen) (hfive : winLen ≤ 5) {n E E' : Nat}
    (h : windowLines winLen n E = windowLines winLen n E') : E % 2 ^ n = E' % 2 ^ n := by
  induction n using Nat.strongRecOn with
  | ind n ih =>
    rcases Nat.eq_zero_or_pos n with rfl | hn
    · rw [pow_zero, Nat.mod_one, Nat.mod_one]
    · rw [windowLines_step hpos hn, windowLines_step hpos hn] at h
      obtain ⟨hfirst, hrest⟩ := List.cons.inj h
      have hlow := ih (n - winLen) (by omega) hrest
      have hhigh := windowBits_inj hfive (Print.bits.inj hfirst)
      have hsplit : 2 ^ n = 2 ^ (n - winLen) * 2 ^ min winLen n := by
        rw [← pow_add]
        congr 1
        omega
      rw [hsplit, Nat.mod_mul, Nat.mod_mul, hlow, hhigh]

/-- **The output tells the exponent.** Two calls with one modulus and one array size, for any
bases below the modulus, print the same lines exactly when their exponents have the same
bytes. -/
theorem printed_eq_iff {h m1 : Word} {x x' m : I31 h} {rx rx' rm tmp tmp' : List Word}
    {e e' : List Byte} {elen twlen : Nat} (hm1 : (m.array rm)[1]? = some m1)
    (hodd : m.value % 2 = 1) (hexact : 31 < h.toNat → m.Exact) (hone : 1 < m.value)
    (hx : x.value < m.value) (hx' : x'.value < m.value) (he : elen ≤ e.length)
    (he' : elen ≤ e'.length) (htmp : twlen ≤ tmp.length) (htmp' : twlen ≤ tmp'.length)
    (hroom : 2 * temporaryWords h ≤ twlen) :
    (brI31ModpowOpt (x.array rx) e elen (m.array rm) (brI31Ninv31 m1) tmp twlen).map
          (fun r => r.2.printed) =
        (brI31ModpowOpt (x'.array rx') e' elen (m.array rm) (brI31Ninv31 m1) tmp' twlen).map
          (fun r => r.2.printed) ↔
      e.take elen = e'.take elen := by
  obtain ⟨r, out, hrun, -⟩ := brI31ModpowOpt_run rx hm1 hodd hexact hone hx he htmp hroom
  obtain ⟨r', out', hrun', -⟩ :=
    brI31ModpowOpt_run rx' hm1 hodd hexact hone hx' he' htmp' hroom
  obtain ⟨hpos, hfive, -⟩ := windowLength_bounds (temporaryWords h) twlen (by decide : 1 ≤ 5)
  rw [hrun, hrun', Option.map_some, Option.map_some, Option.some_inj]
  constructor
  · intro hlines
    have hmod := windowLines_inj hpos hfive (List.cons.inj hlines).2
    have hlt := exponent_lt he
    have hlt' := exponent_lt he'
    rw [mul_comm] at hlt hlt'
    rw [Nat.mod_eq_of_lt hlt, Nat.mod_eq_of_lt hlt'] at hmod
    exact exponent_inj he he' hmod
  · intro hbytes
    rw [exponent, hbytes, ← exponent]

theorem printed_eq_iff_forty :
    (brI31ModpowOpt [41, 3, 2] [5] 1 [41, 1515870811, 499] (brI31Ninv31 1515870811)
            (List.replicate 8 9) 8).map (fun r => r.2.printed) =
        (brI31ModpowOpt [41, 3, 2] [6] 1 [41, 1515870811, 499] (brI31Ninv31 1515870811)
            (List.replicate 8 0) 8).map (fun r => r.2.printed) ↔
      ([5] : List Byte) = [6] :=
  @printed_eq_iff 41 1515870811 smallFactor smallFactor fortyBits [] [] [] (List.replicate 8 9)
    (List.replicate 8 0) [5] [6] 1 8 rfl (by decide) (fun _ => exact_fortyBits) (by decide)
    (by decide) (by decide) (by decide) (by decide) (by decide) (by decide) (by decide)

end MicroSampler.BearSSL
