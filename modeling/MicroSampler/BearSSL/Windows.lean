import MicroSampler.BearSSL.ModpowOpt

/-!
# What the exponentiation with a window computes

The array of temporaries is a block for `t1`, one for the value that is looked up, and one
for each power. A window squares `x` as often as it has bits and multiplies it with the
power that the lookup leaves, so that after each window `x` is the base to the bits of the
exponent read so far.
-/

namespace MicroSampler.BearSSL

open Limbs Montgomery

/-! ## Montgomery representation -/

/-- `t` is the Montgomery representation of `v`. -/
structure Represents {h : Word} (m : I31 h) (v : ℤ) (t : I31 h) : Prop where
  lt : t.value < m.value
  mod : t.value ≡ v * base ^ wordCount h [ZMOD m.value]

theorem I31.array_append {h : Word} (x : I31 h) (r s : List Word) :
    x.array (r ++ s) = x.array r ++ s := by
  rw [I31.array, I31.array, List.cons_append, List.append_assoc]

section Blocks

variable {h : Word} {m : I31 h} (rm : List Word) {m0i : Word} {u v : ℤ} {a b : I31 h}

/-- **A product** into a place with enough room. -/
theorem montymulAt_eq (hodd : m.value % 2 = 1) (hinv : m.value * m0i.toNat ≡ -1 [ZMOD base])
    (ha : Represents m u a) (hb : Represents m v b) (ra rb pre : List Word) {d : List Word}
    (hd : wordCount h < d.length) :
    ∃ p, Represents m (u * v) p ∧
      montymulAt (pre ++ d) pre.length (a.array ra) (b.array rb) (m.array rm) m0i =
        some (pre ++ p.array (d.drop (wordCount h + 1))) := by
  obtain ⟨d0, old, heq, hold⟩ := exists_room hd
  obtain ⟨p, hrun, hlt, hmod⟩ := brI31Montymul_eq (x := a) ra rb rm hinv hb.lt d0
    (d.drop (wordCount h + 1)) hold
  rw [← heq] at hrun
  refine ⟨p, ⟨hlt, ?_⟩, ?_⟩
  · have hpos : 0 < m.value := p.value_nonneg.trans_lt hlt
    refine cancel_base (n := wordCount h) hodd hpos (hmod.trans ((ha.mod.mul hb.mod).trans ?_))
    rw [show u * base ^ wordCount h * (v * base ^ wordCount h) =
      base ^ wordCount h * (u * v * base ^ wordCount h) by ring]
  · rw [montymulAt, List.drop_left, List.take_left, hrun, Option.map_some]

/-- `memcpy` of an integer into a place with enough room. -/
theorem memcpyWords_array (x : I31 h) (rx pre : List Word) {d : List Word}
    (hd : wordCount h < d.length) :
    memcpyWords (pre ++ d) (x.array rx) pre.length 0 (wordCount h + 1) =
      some (pre ++ x.array (d.drop (wordCount h + 1))) := by
  obtain ⟨d0, old, heq, hold⟩ := exists_room hd
  have hsrc : x.array rx = [] ++ ((h :: x.words) ++ rx) := rfl
  have hdst : pre ++ d = pre ++ ((d0 :: old) ++ d.drop (wordCount h + 1)) := by
    rw [List.cons_append, ← heq]
  have hlen : (d0 :: old).length = (h :: x.words).length := by
    rw [List.length_cons, List.length_cons, hold, x.length_eq]
  have hcopy := memcpyWords_eq pre (d0 :: old) [] rx hdst hsrc hlen
  rw [List.length_cons, x.length_eq] at hcopy
  exact hcopy

/-- **Squarings.** They use the room of the first block. -/
theorem squareLoop_eq (hodd : m.value % 2 = 1) (hinv : m.value * m0i.toNat ≡ -1 [ZMOD base])
    (k : Nat) (ha : Represents m u a) (ra : List Word) {t1 : List Word}
    (ht1 : wordCount h < t1.length) (rest : List Word) (printed : List Print) :
    ∃ b t1', Represents m (u ^ 2 ^ k) b ∧ t1'.length = t1.length ∧
      squareLoop (m.array rm) m0i (wordCount h + 1) k ⟨a.array ra, t1 ++ rest, printed⟩ =
        some ⟨b.array ra, t1' ++ rest, printed⟩ := by
  induction k generalizing u a t1 with
  | zero => exact ⟨a, t1, by rwa [pow_zero, pow_one], rfl, rfl⟩
  | succ k ih =>
    have hroom : wordCount h < (t1 ++ rest).length := by
      rw [List.length_append]
      omega
    obtain ⟨p, hp, hmul⟩ := montymulAt_eq rm hodd hinv ha ha ra ra [] hroom
    rw [List.drop_append_of_le_length ht1] at hmul
    have hroom' : wordCount h < (a.array ra).length := by
      rw [I31.length_array]
      omega
    have hcopy := memcpyWords_array p (t1.drop (wordCount h + 1) ++ rest) [] hroom'
    rw [I31.drop_array] at hcopy
    have hlen : (p.array (t1.drop (wordCount h + 1))).length = t1.length := by
      rw [I31.length_array, List.length_drop]
      omega
    rw [I31.array_append, List.nil_append, List.length_nil, List.nil_append] at hmul
    rw [I31.array_append, List.nil_append, List.length_nil, List.nil_append] at hcopy
    have hroom1 : wordCount h < (p.array (t1.drop (wordCount h + 1))).length := by omega
    obtain ⟨b, t1', hb, ht1', hrun⟩ := ih hp hroom1
    refine ⟨b, t1', ?_, ht1'.trans hlen, ?_⟩
    · rwa [← sq, ← pow_mul, ← pow_succ'] at hb
    · simp only [squareLoop, hmul, hcopy, Option.bind_eq_bind, Option.bind_some]
      exact hrun

/-! ## The powers -/

/-- A block of the array that holds the power `v`. -/
def Holds {h : Word} (m : I31 h) (mwlen : Nat) (v : ℤ) (block : List Word) : Prop :=
  block.length = mwlen ∧ ∃ p pad, Represents m v p ∧ block = p.array pad

/-- An integer in a place with enough room is a block in front of the rest. -/
theorem exists_block {mwlen : Nat} (ha : Represents m v a) (hroom : wordCount h < mwlen)
    {d : List Word} (hd : mwlen ≤ d.length) :
    ∃ block, Holds m mwlen v block ∧
      a.array (d.drop (wordCount h + 1)) = block ++ d.drop mwlen := by
  have hsplit : d.drop (wordCount h + 1) =
      (d.take mwlen).drop (wordCount h + 1) ++ d.drop mwlen := by
    conv_lhs => rw [← List.take_append_drop mwlen d]
    exact List.drop_append_of_le_length (by rw [List.length_take]; omega)
  refine ⟨a.array ((d.take mwlen).drop (wordCount h + 1)), ⟨?_, a, _, ha, rfl⟩, ?_⟩
  · rw [I31.length_array, List.length_drop, List.length_take]
    omega
  · rw [hsplit, I31.array_append]

/-- Blocks that hold `x ^ u`, `x ^ (u + 1)`, … -/
def Table {h : Word} (m : I31 h) (mwlen : Nat) (x : ℤ) : Nat → List (List Word) → Prop
  | _, [] => True
  | u, block :: blocks => Holds m mwlen (x ^ u) block ∧ Table m mwlen x (u + 1) blocks

/-- **The table.** Each pass multiplies the last power by `x`. -/
theorem powersLoop_eq (hodd : m.value % 2 = 1) (hinv : m.value * m0i.toNat ≡ -1 [ZMOD base])
    {mwlen : Nat} (hroom : wordCount h < mwlen) (ha : Represents m v a) (ra : List Word) {n u : Nat}
    (pre : List Word) {block : List Word} (hblock : Holds m mwlen (v ^ u) block)
    {rest : List Word} (hrest : n * mwlen ≤ rest.length) :
    ∃ blocks, Table m mwlen v (u + 1) blocks ∧ blocks.length = n ∧
      powersLoop (a.array ra) (m.array rm) m0i mwlen n pre.length (pre ++ (block ++ rest)) =
        some (pre ++ (block ++ (blocks.flatten ++ rest.drop (n * mwlen)))) := by
  induction n generalizing u pre block rest with
  | zero =>
    refine ⟨[], trivial, rfl, ?_⟩
    rw [powersLoop, Nat.zero_mul, List.drop_zero, List.flatten_nil, List.nil_append]
  | succ n ih =>
    obtain ⟨hlen, p, pad, hp, rfl⟩ := hblock
    rw [Nat.succ_mul] at hrest
    obtain ⟨q, hq, hmul⟩ := montymulAt_eq rm hodd hinv hp ha (pad ++ rest) ra
      (pre ++ p.array pad) (by omega : wordCount h < rest.length)
    rw [← pow_succ] at hq
    obtain ⟨next, hnext, hplace⟩ := exists_block hq hroom (by omega : mwlen ≤ rest.length)
    have hbehind : n * mwlen ≤ (rest.drop mwlen).length := by
      rw [List.length_drop]
      omega
    obtain ⟨blocks, htable, hblocks, hrun⟩ := ih (pre ++ p.array pad) hnext hbehind
    refine ⟨_ :: blocks, ⟨hnext, htable⟩, by rw [List.length_cons, hblocks], ?_⟩
    have hat : pre.length + mwlen = (pre ++ p.array pad).length := by
      rw [List.length_append, hlen]
    rw [List.append_assoc, ← I31.array_append, hplace, ← hat] at hmul
    rw [← hat, List.append_assoc] at hrun
    simp only [powersLoop, ← I31.array_append p, List.drop_left, hmul, Option.bind_eq_bind,
      Option.bind_some]
    rw [List.append_assoc, hrun, List.flatten_cons, List.append_assoc, List.append_assoc,
      List.drop_drop, Nat.succ_mul, Nat.add_comm mwlen, I31.array_append]

/-! ## The lookup -/

/-- The words of `as`, into which those of `bs` are masked. -/
def masked (mask : Word) (as bs : List Word) : List Word :=
  List.zipWith (fun a b => a ||| (mask &&& b)) as bs

theorem maskLoop_eq (mask : Word) (t2 base v : Nat) (front as mid bs back : List Word)
    (hlen : as.length = bs.length) (ht2 : front.length = t2 + v)
    (hbase : t2 + v + as.length + mid.length = base + v) :
    maskLoop mask t2 base as.length v (front ++ (as ++ (mid ++ (bs ++ back)))) =
      some (front ++ (masked mask as bs ++ (mid ++ (bs ++ back)))) := by
  induction as generalizing v front mid bs with
  | nil =>
    obtain rfl := List.length_eq_zero_iff.mp hlen.symm
    rfl
  | cons a as ih =>
    cases bs with
    | nil => cases hlen
    | cons b bs =>
      have hget : (front ++ (a :: as ++ (mid ++ (b :: bs ++ back))))[t2 + v]? = some a := by
        rw [← ht2]
        exact getElem?_here front a _
      have hget' : (front ++ (a :: as ++ (mid ++ (b :: bs ++ back))))[base + v]? = some b := by
        have hpos : base + v = (front ++ (a :: as) ++ mid).length := by
          simp only [List.length_append]
          omega
        have hassoc : front ++ (a :: as ++ (mid ++ (b :: bs ++ back))) =
            (front ++ (a :: as) ++ mid) ++ b :: (bs ++ back) := by simp
        rw [hassoc, hpos]
        exact getElem?_here _ b _
      have hrec := ih (v + 1) (front ++ [a ||| (mask &&& b)]) (mid ++ [b]) bs
        (Nat.succ.inj hlen) (by simp [ht2]; omega)
        (by simp only [List.length_cons, List.length_append, List.length_nil] at hbase ⊢; omega)
      have hset : (front ++ (a :: as ++ (mid ++ (b :: bs ++ back)))).set (t2 + v)
          (a ||| (mask &&& b)) =
          front ++ [a ||| (mask &&& b)] ++ (as ++ (mid ++ [b] ++ (bs ++ back))) := by
        rw [← ht2, List.cons_append, set_here]
        simp
      rw [List.length_cons, maskLoop, hget, hget']
      simp only [Option.bind_eq_bind, Option.bind_some, hset]
      rw [hrec]
      simp [masked]

theorem masked_none {as bs : List Word} (hlen : as.length = bs.length) : masked 0 as bs = as := by
  induction as generalizing bs with
  | nil => rfl
  | cons a as ih =>
    cases bs with
    | nil => cases hlen
    | cons b bs =>
      have hword : a ||| (0 &&& b) = a := by simp
      have hrest := ih (Nat.succ.inj hlen)
      rw [masked] at hrest
      rw [masked, List.zipWith_cons_cons, hword, hrest]

theorem masked_all (ws as bs : List Word) :
    masked (-1) (List.replicate ws.length 0 ++ as) (ws ++ bs) = ws ++ masked (-1) as bs := by
  induction ws with
  | nil => rfl
  | cons w ws ih =>
    have hones : (-1 : Word) = BitVec.allOnes 32 := by decide
    have hword : (0 : Word) ||| (-1 &&& w) = w := by
      rw [hones, BitVec.allOnes_and]
      exact BitVec.zero_or
    rw [masked] at ih
    rw [masked, List.length_cons, List.replicate_succ, List.cons_append, List.cons_append,
      List.zipWith_cons_cons, hword, ih, List.cons_append]

/-- A block into which another one is masked, all but its first word. -/
def maskedBlock (mask : Word) (t2 block : List Word) : List Word :=
  t2.take 1 ++ masked mask (t2.drop 1) (block.drop 1)

theorem length_maskedBlock (mask : Word) {t2 block : List Word} (hlen : t2.length = block.length) :
    (maskedBlock mask t2 block).length = t2.length := by
  rw [maskedBlock, masked, List.length_append, List.length_zipWith, List.length_drop,
    List.length_drop, List.length_take]
  omega

theorem maskedBlock_none {t2 block : List Word} (hlen : t2.length = block.length) :
    maskedBlock 0 t2 block = t2 := by
  rw [maskedBlock, masked_none (by rw [List.length_drop, List.length_drop, hlen]),
    List.take_append_drop]

/-- A cleared block becomes the other one. -/
theorem maskedBlock_zero (p : I31 h) (pad0 pad : List Word) :
    maskedBlock (-1) ((I31.zero p.fits).array pad0) (p.array pad) =
      p.array (masked (-1) pad0 pad) := by
  have hwords := masked_all p.words pad0 pad
  rw [p.length_eq] at hwords
  exact congrArg (h :: ·) hwords

/-- **One power.** The loop over the words masks its block into the one behind `pre`. -/
theorem maskLoop_block (mask : Word) (pre done back : List Word) {t2 block : List Word}
    (hlen : t2.length = block.length) :
    maskLoop mask pre.length (pre.length + t2.length + done.length) (t2.length - 1) 1
        (pre ++ (t2 ++ (done ++ (block ++ back)))) =
      some (pre ++ (maskedBlock mask t2 block ++ (done ++ (block ++ back)))) := by
  cases t2 with
  | nil =>
    obtain rfl := List.length_eq_zero_iff.mp hlen.symm
    rfl
  | cons t ts =>
    cases block with
    | nil => cases hlen
    | cons b bs =>
      have hpass := maskLoop_eq mask pre.length (pre.length + (ts.length + 1) + done.length) 1
        (pre ++ [t]) ts (done ++ [b]) bs back (Nat.succ.inj hlen)
        (by rw [List.length_append, List.length_singleton])
        (by simp only [List.length_append, List.length_singleton]; omega)
      simpa [maskedBlock] using hpass

/-- The mask of the power `u`. -/
theorem mask_eq {u : Nat} {bits : Word} (hu : u < 2 ^ 32) :
    -EQ (BitVec.ofNat 32 u) bits = if bits.toNat = u then -1 else 0 := by
  have hiff : BitVec.ofNat 32 u = bits ↔ bits.toNat = u := by
    rw [← BitVec.toNat_inj, BitVec.toNat_ofNat, Nat.mod_eq_of_lt hu, eq_comm]
  rw [EQ_eq, flag_congr hiff]
  by_cases heq : bits.toNat = u
  · rw [flag_of heq, if_pos heq]
  · rw [flag_of_not heq, if_neg heq]
    rfl

/-- **The lookup.** The block behind `pre` collects the power `bits`, if it is in the table;
otherwise it stays as it is. -/
theorem lookupLoop_eq {mwlen : Nat} (bits : Word) {u : Nat} (pre : List Word) {t2 : List Word}
    (ht2 : t2.length = mwlen) (done : List Word) {todo : List (List Word)}
    (htable : Table m mwlen v u todo) (hu : u + todo.length ≤ 2 ^ 32) (rest : List Word) :
    ∃ t2', lookupLoop bits mwlen pre.length todo.length u (pre.length + mwlen + done.length)
        (pre ++ (t2 ++ (done ++ (todo.flatten ++ rest)))) =
          some (pre ++ (t2' ++ (done ++ (todo.flatten ++ rest)))) ∧ t2'.length = mwlen ∧
      (bits.toNat < u ∨ u + todo.length ≤ bits.toNat → t2' = t2) ∧
      (u ≤ bits.toNat → bits.toNat < u + todo.length →
        ∀ pad, t2 = (I31.zero m.fits).array pad → Holds m mwlen (v ^ bits.toNat) t2') := by
  induction todo generalizing u t2 done with
  | nil => exact ⟨t2, rfl, ht2, fun _ => rfl, fun hle hlt => absurd hlt (Nat.not_lt.mpr hle)⟩
  | cons block todo ih =>
    obtain ⟨hblock, htable⟩ := htable
    rw [List.length_cons] at hu
    have hlen : t2.length = block.length := ht2.trans hblock.1.symm
    have hpass := maskLoop_block (-EQ (BitVec.ofNat 32 u) bits) pre done (todo.flatten ++ rest) hlen
    have hmasked := (length_maskedBlock (-EQ (BitVec.ofNat 32 u) bits) hlen).trans ht2
    obtain ⟨t2', hrun, hlen', hskip, hhit⟩ := ih hmasked (done ++ block) htable (by omega)
    have hsame (hne : bits.toNat ≠ u) :
        maskedBlock (-EQ (BitVec.ofNat 32 u) bits) t2 block = t2 := by
      rw [mask_eq (by omega), if_neg hne, maskedBlock_none hlen]
    refine ⟨t2', ?_, hlen', ?_, ?_⟩
    · rw [ht2] at hpass
      rw [List.length_append, hblock.1, ← Nat.add_assoc, List.append_assoc done] at hrun
      rw [List.length_cons, List.flatten_cons, List.append_assoc block, lookupLoop]
      simp only [hpass, Option.bind_eq_bind, Option.bind_some]
      exact hrun
    · intro hout
      rw [List.length_cons] at hout
      rw [hskip (by omega)]
      exact hsame (by omega)
    · intro hle hlt pad0 hzero
      rw [List.length_cons] at hlt
      by_cases heq : bits.toNat = u
      · -- the power itself; the passes behind it skip
        obtain ⟨-, p, pad, hp, rfl⟩ := hblock
        have hfound := hskip (.inl (by omega))
        rw [mask_eq (by omega), if_pos heq, hzero, maskedBlock_zero] at hfound
        exact ⟨hlen', p, _, heq ▸ hp, hfound⟩
      · exact hhit (by omega) (by omega) pad0 ((hsame heq).trans hzero)

theorem Table.take {mwlen : Nat} {u : Nat} {blocks : List (List Word)}
    (htable : Table m mwlen v u blocks) (n : Nat) : Table m mwlen v u (blocks.take n) := by
  induction blocks generalizing u n with
  | nil => rwa [List.take_nil]
  | cons block blocks ih =>
    cases n with
    | zero => trivial
    | succ n => exact ⟨htable.1, ih htable.2 n⟩

theorem represents_zero (hpos : 0 < m.value) : Represents m 0 (I31.zero m.fits) where
  lt := by rwa [I31.value_zero]
  mod := by rw [I31.value_zero, zero_mul]

theorem brI31ZeroAt_eq (hfits : h.toNat + 63 < 2 ^ 32) (pre : List Word) {d : List Word}
    (hd : wordCount h < d.length) :
    brI31ZeroAt (pre ++ d) pre.length h =
      some (pre ++ (I31.zero hfits).array (d.drop (wordCount h + 1))) := by
  obtain ⟨d0, old, heq, hold⟩ := exists_room hd
  have hrun := brI31Zero_eq hfits d0 (d.drop (wordCount h + 1)) hold
  rw [← heq] at hrun
  rw [brI31ZeroAt, List.drop_left, List.take_left, hrun, Option.map_some]

/-- `CCOPY` of an integer. -/
theorem ccopyWords_array (p : Prop) [Decidable p] (x y : I31 h) (rx ry : List Word) :
    ccopyWords (flag p) (x.array rx) (y.array ry) (4 * (wordCount h + 1)) =
      some ((if p then y else x).array rx) := by
  have hroom : ∀ (z : I31 h) (rz : List Word),
      4 * (wordCount h + 1) ≤ (bytesOf (z.array rz)).length := by
    intro z rz
    rw [length_bytesOf, I31.length_array]
    omega
  rw [ccopyWords, brCcopy_eq_select (flag_bit p) (hroom x rx) (hroom y ry), select_array,
    Option.map_some, wordsOf_bytesOf]

/-! ## One window -/

/-- The array behind `t1`: the only power, or the place for the lookup and the table. What
lies behind is `rest`. -/
inductive Window {h : Word} (m : I31 h) (mwlen : Nat) (x : ℤ) (rest : List Word) :
    (winLen : Nat) → List Word → Prop
  | single {block : List Word} (hblock : Holds m mwlen x block) :
    Window m mwlen x rest 1 (block ++ rest)
  | table {winLen : Nat} {t2 : List Word} {blocks : List (List Word)} (hwin : 1 < winLen)
    (ht2 : t2.length = mwlen) (htable : Table m mwlen x 1 blocks)
    (hcount : blocks.length = 2 ^ winLen - 1) :
    Window m mwlen x rest winLen (t2 ++ (blocks.flatten ++ rest))

/-- The product with the block behind `t1` is copied unless the bits are zero. -/
theorem multiply_eq (hodd : m.value % 2 = 1) (hinv : m.value * m0i.toNat ≡ -1 [ZMOD base])
    {mwlen : Nat} (hroom : wordCount h < mwlen) {w : ℤ} (ha : Represents m u a) (ra : List Word)
    {t1 block : List Word} (ht1 : t1.length = mwlen) (hblock : Holds m mwlen w block)
    (rest : List Word) (bits : Word) :
    ∃ p t1', Represents m (u * w) p ∧ t1'.length = mwlen ∧
      montymulAt (t1 ++ (block ++ rest)) 0 (a.array ra) ((t1 ++ (block ++ rest)).drop mwlen)
        (m.array rm) m0i = some (t1' ++ (block ++ rest)) ∧
      ccopyWords (NEQ bits 0) (a.array ra) (t1' ++ (block ++ rest)) (4 * (wordCount h + 1)) =
        some ((if bits ≠ 0 then p else a).array ra) := by
  obtain ⟨-, q, pad, hq, rfl⟩ := hblock
  have hlong : wordCount h < (t1 ++ (q.array pad ++ rest)).length := by
    rw [List.length_append]
    omega
  obtain ⟨p, hp, hmul⟩ := montymulAt_eq rm hodd hinv ha hq ra (pad ++ rest) [] hlong
  rw [List.drop_append_of_le_length (by omega), I31.array_append, I31.array_append] at hmul
  refine ⟨p, p.array (t1.drop (wordCount h + 1)), hp, ?_, ?_, ?_⟩
  · rw [I31.length_array, List.length_drop]
    omega
  · rw [← ht1, List.drop_left]
    exact hmul
  · rw [NEQ_eq, ← I31.array_append]
    exact ccopyWords_array (bits ≠ 0) a p ra _

/-- The block that the product is taken with: whatever the bits, if there is one power only,
and otherwise the power that was looked up. -/
theorem lookup_eq {mwlen winLen k : Nat} (hpos : 0 < m.value) (hroom : wordCount h < mwlen)
    (hk : k ≤ winLen) (hfive : winLen ≤ 5) {rest tail : List Word}
    (htail : Window m mwlen v rest winLen tail) {bits : Word} (hbits : bits.toNat < 2 ^ k)
    {t1 : List Word} (ht1 : t1.length = mwlen) :
    ∃ block rest' w, Holds m mwlen w block ∧ Window m mwlen v rest winLen (block ++ rest') ∧
      (bits ≠ 0 → w = v ^ bits.toNat) ∧
      windowLookup h bits mwlen winLen k (t1 ++ tail) = some (t1 ++ (block ++ rest')) := by
  have hnonzero : bits ≠ 0 → 0 < bits.toNat := by
    intro hne
    refine Nat.pos_of_ne_zero fun hzero => hne (BitVec.eq_of_toNat_eq hzero)
  cases htail with
  | @single block hblock =>
    refine ⟨block, rest, v, hblock, .single hblock, fun hne => ?_, if_neg (lt_irrefl 1)⟩
    have hone : 2 ^ k ≤ 2 ^ 1 := Nat.pow_le_pow_right two_pos hk
    have := hnonzero hne
    rw [show bits.toNat = 1 by omega, pow_one]
  | @table _ t2 blocks hwin ht2 htable hcount =>
    have hcut : (1 <<< k) - 1 = (blocks.take (2 ^ k - 1)).length := by
      have : 2 ^ k ≤ 2 ^ winLen := Nat.pow_le_pow_right two_pos hk
      rw [List.length_take, Nat.shiftLeft_eq, one_mul, hcount]
      omega
    have hsmall : 2 ^ k ≤ 2 ^ 5 := Nat.pow_le_pow_right two_pos (hk.trans hfive)
    have hone : 1 ≤ 2 ^ k := Nat.one_le_two_pow
    have hzero := brI31ZeroAt_eq m.fits t1 (d := t2 ++ (blocks.flatten ++ rest))
      (by rw [List.length_append]; omega)
    rw [List.drop_append_of_le_length (by omega), I31.array_append, ht1] at hzero
    have hlen : ((I31.zero m.fits).array (t2.drop (wordCount h + 1))).length = mwlen := by
      rw [I31.length_array, List.length_drop]
      omega
    have hflat : blocks.flatten ++ rest = [] ++ ((blocks.take (2 ^ k - 1)).flatten ++
        ((blocks.drop (2 ^ k - 1)).flatten ++ rest)) := by
      rw [List.nil_append, ← List.append_assoc, ← List.flatten_append, List.take_append_drop]
    obtain ⟨t2', hrun, hlen', hskip, hhit⟩ := lookupLoop_eq bits t1 hlen []
      (htable.take (2 ^ k - 1)) (by rw [← hcut, Nat.shiftLeft_eq]; omega)
      ((blocks.drop (2 ^ k - 1)).flatten ++ rest)
    rw [← hflat, ht1, List.length_nil, Nat.add_zero, ← hcut] at hrun
    rw [← hcut, Nat.shiftLeft_eq, one_mul] at hskip hhit
    refine ⟨t2', blocks.flatten ++ rest, if bits ≠ 0 then v ^ bits.toNat else 0, ?_,
      .table hwin hlen' htable hcount, fun hne => if_pos hne, ?_⟩
    · by_cases hbit : bits = 0
      · rw [if_neg (not_not_intro hbit), hskip (.inl (by rw [hbit]; exact Nat.one_pos))]
        exact ⟨hlen, _, _, represents_zero hpos, rfl⟩
      · rw [if_pos hbit]
        have := hnonzero hbit
        exact hhit (by omega) (by omega) _ rfl
    · rw [windowLookup, if_pos hwin, hzero]
      exact hrun

/-- **One window.** -/
theorem windowRound_eq (hodd : m.value % 2 = 1) (hinv : m.value * m0i.toNat ≡ -1 [ZMOD base])
    {mwlen winLen k : Nat} (hroom : wordCount h < mwlen) (hk : k ≤ winLen) (hfive : winLen ≤ 5)
    (ha : Represents m u a) (ra : List Word) {t1 tail rest : List Word} (ht1 : t1.length = mwlen)
    (htail : Window m mwlen v rest winLen tail) {bits : Word} (hbits : bits.toNat < 2 ^ k)
    (printed : List Print) :
    ∃ b t1' tail', Represents m (u ^ 2 ^ k * v ^ bits.toNat) b ∧ t1'.length = mwlen ∧
      Window m mwlen v rest winLen tail' ∧
      windowRound (m.array rm) m0i h (wordCount h + 1) mwlen winLen k bits
          ⟨a.array ra, t1 ++ tail, printed⟩ =
        some ⟨b.array ra, t1' ++ tail', printed ++ [.bits bits]⟩ := by
  have hpos : 0 < m.value := a.value_nonneg.trans_lt ha.lt
  obtain ⟨c, t1', hc, ht1', hsquares⟩ := squareLoop_eq rm hodd hinv k ha ra
    (by omega : wordCount h < t1.length) tail printed
  obtain ⟨block, rest', w, hblock, hwindow, hw, hlookup⟩ := lookup_eq hpos hroom hk hfive htail
    hbits (ht1'.trans ht1)
  obtain ⟨p, t1'', hp, ht1'', hmul, hcopy⟩ := multiply_eq rm hodd hinv hroom hc ra
    (ht1'.trans ht1) hblock rest' bits
  refine ⟨if bits ≠ 0 then p else c, t1'', block ++ rest', ?_, ht1'', hwindow, ?_⟩
  · by_cases hbit : bits = 0
    · have hzero : bits.toNat = 0 := by
        rw [hbit]
        rfl
      rwa [if_neg (not_not_intro hbit), hzero, pow_zero, mul_one]
    · rw [if_pos hbit, ← hw hbit]
      exact hp
  · simp only [windowRound, hsquares, Option.bind_eq_bind, Option.bind_some, Option.pure_def]
    simp only [hlookup, Option.bind_some, hmul, hcopy]

end Blocks
end MicroSampler.BearSSL
