import MicroSampler.BearSSL.Integers
import MicroSampler.Library.Montgomery

/-!
# Montgomery multiplication: `br_i31_montymul`

Each round adds a digit of `x` times `y` and a multiple of the modulus to the accumulator
`d`, and moves the sum down by one word on the way: column `v` is read at index `v + 1` and
written at index `v`. The columns run in an unrolled loop of four and a loop for the rest.
The accumulator keeps a bit `dh` above its words, and one subtraction at the end brings it
below the modulus. `br_i31_from_monty` runs the same columns without a second factor.
-/

namespace MicroSampler.BearSSL

open Limbs Montgomery

/-- `MUL31`, the 64-bit product. -/
def MUL31 (x y : Word) : BitVec 64 := x.setWidth 64 * y.setWidth 64

def MUL31_lo (x y : Word) : Word := (x * y) &&& 0x7FFFFFFF

/-- The statement of the inner loops for the column `v`, on `d` and the carry `r`. -/
def montyColumn (y m : List Word) (xu f : Word) (v : Nat) (s : List Word × BitVec 64) :
    Option (List Word × BitVec 64) := do
  let dw ← s.1[v + 1]?
  let yw ← y[v + 1]?
  let mw ← m[v + 1]?
  let z := dw.setWidth 64 + MUL31 xu yw + MUL31 f mw + s.2
  pure (s.1.set v (z.setWidth 32 &&& 0x7FFFFFFF), z >>> 31)

/-- The loop `v += 4`. -/
def montyQuads (y m : List Word) (xu f : Word) :
    (n v : Nat) → List Word × BitVec 64 → Option (List Word × BitVec 64)
  | 0, _, s => some s
  | n + 1, v, s => do
    let s ← montyColumn y m xu f v s
    let s ← montyColumn y m xu f (v + 1) s
    let s ← montyColumn y m xu f (v + 2) s
    let s ← montyColumn y m xu f (v + 3) s
    montyQuads y m xu f n (v + 4) s

/-- The loop `v ++`. -/
def montyColumns (y m : List Word) (xu f : Word) :
    (n v : Nat) → List Word × BitVec 64 → Option (List Word × BitVec 64)
  | 0, _, s => some s
  | n + 1, v, s => do
    let s ← montyColumn y m xu f v s
    montyColumns y m xu f n (v + 1) s

/-- The round for digit `u`, on `d` and `dh`. The columns have read `d` up to index `len`,
so that the write to `d[len]` is inside the array. -/
def montyRound (x y m : List Word) (m0i : Word) (len u : Nat) (s : List Word × BitVec 64) :
    Option (List Word × BitVec 64) := do
  let xu ← x[u + 1]?
  let d1 ← s.1[1]?
  let y1 ← y[1]?
  let f := MUL31_lo (d1 + MUL31_lo xu y1) m0i
  let len4 := len / 4 * 4
  let t ← montyQuads y m xu f (len / 4) 0 (s.1, 0)
  let t ← montyColumns y m xu f (len - len4) len4 t
  let zh := s.2 + t.2
  pure (t.1.set len (zh.setWidth 32 &&& 0x7FFFFFFF), zh >>> 31)

def montyRounds (x y m : List Word) (m0i : Word) (len : Nat) :
    (n u : Nat) → List Word × BitVec 64 → Option (List Word × BitVec 64)
  | 0, _, s => some s
  | n + 1, u, s => do
    let s ← montyRound x y m m0i len u s
    montyRounds x y m m0i len n (u + 1) s

def brI31Montymul (d x y m : List Word) (m0i : Word) : Option (List Word) := do
  let m0 ← m[0]?
  let len := ((m0 + 31) >>> 5).toNat
  let d ← brI31Zero d m0
  let s ← montyRounds x y m m0i len len 0 (d, 0)
  let d := s.1.set 0 m0
  let s' ← brI31Sub d m 0
  let t ← brI31Sub s'.1 m (NEQ (s.2.setWidth 32) 0 ||| NOT s'.2)
  pure t.1

/-! ## The unrolled loop -/

theorem montyColumns_add (y m : List Word) (xu f : Word) (k n v : Nat)
    (s : List Word × BitVec 64) : montyColumns y m xu f (k + n) v s =
      (montyColumns y m xu f k v s).bind (montyColumns y m xu f n (v + k)) := by
  induction k generalizing v s with
  | zero => rw [Nat.zero_add, Nat.add_zero, montyColumns, Option.bind_some]
  | succ k ih =>
    rw [Nat.succ_add, montyColumns, montyColumns, Option.bind_eq_bind, Option.bind_assoc]
    congr 1
    funext t
    rw [ih, Nat.add_assoc, Nat.add_comm 1 k]

theorem montyQuads_eq (y m : List Word) (xu f : Word) (n v : Nat) (s : List Word × BitVec 64) :
    montyQuads y m xu f n v s = montyColumns y m xu f (n * 4) v s := by
  induction n generalizing v s with
  | zero => rfl
  | succ n ih =>
    have hfour : (n + 1) * 4 = 4 + n * 4 := by omega
    rw [hfour, montyColumns_add]
    simp only [montyQuads, montyColumns, ih, Option.bind_eq_bind, Option.bind_assoc,
      Option.bind_some, Nat.add_assoc, Nat.reduceAdd]

/-- The two loops are the loop over all columns. -/
theorem quads_then_columns (y m : List Word) (xu f : Word) (len : Nat)
    (s : List Word × BitVec 64) :
    (montyQuads y m xu f (len / 4) 0 s).bind
        (montyColumns y m xu f (len - len / 4 * 4) (len / 4 * 4)) =
      montyColumns y m xu f len 0 s := by
  have h := montyColumns_add y m xu f (len / 4 * 4) (len - len / 4 * 4) 0 s
  rw [Nat.add_sub_cancel' (Nat.div_mul_le_self len 4), Nat.zero_add] at h
  rw [montyQuads_eq, h]

/-! ## One pass over the columns -/

/-- The columns a pass adds up. -/
def montyRow (ds ys ms : List Word) (xu f : Word) : List ℤ :=
  List.zipWith (fun t w => t + (f.toNat : ℤ) * w)
    (List.zipWith (fun d w => d + (xu.toNat : ℤ) * w) (ints ds) (ints ys)) (ints ms)

@[simp] theorem length_montyRow {ds ys ms : List Word} (xu f : Word)
    (hy : ys.length = ds.length) (hm : ms.length = ds.length) :
    (montyRow ds ys ms xu f).length = ds.length := by simp [montyRow, hy, hm]

theorem eval_montyRow {ds ys ms : List Word} (xu f : Word) (hy : ys.length = ds.length)
    (hm : ms.length = ds.length) : eval base (montyRow ds ys ms xu f) =
      value ds + xu.toNat * value ys + f.toNat * value ms := by
  rw [montyRow, eval_zipWith _ _ (by simp [hy, hm]), eval_zipWith _ _ (by simp [hy])]
  rfl

/-- The sum of a column fits, and leaves a carry of one word. -/
theorem toNat_column {dw yw mw xu f : Word} {r : BitVec 64} (hd : dw.toNat < 2 ^ 31)
    (hy : yw.toNat < 2 ^ 31) (hm : mw.toNat < 2 ^ 31) (hx : xu.toNat < 2 ^ 31)
    (hf : f.toNat < 2 ^ 31) (hr : r.toNat < 2 ^ 32) :
    (dw.setWidth 64 + MUL31 xu yw + MUL31 f mw + r).toNat =
        dw.toNat + xu.toNat * yw.toNat + f.toNat * mw.toNat + r.toNat ∧
      dw.toNat + xu.toNat * yw.toNat + f.toNat * mw.toNat + r.toNat < 2 ^ 63 := by
  have hxy : xu.toNat * yw.toNat ≤ (2 ^ 31 - 1) * (2 ^ 31 - 1) :=
    Nat.mul_le_mul (by omega) (by omega)
  have hfm : f.toNat * mw.toNat ≤ (2 ^ 31 - 1) * (2 ^ 31 - 1) :=
    Nat.mul_le_mul (by omega) (by omega)
  have hwide : ∀ w : Word, w.toNat < 2 ^ 31 → (w.setWidth 64).toNat = w.toNat := by
    intro w hw
    rw [BitVec.toNat_setWidth]
    omega
  generalize hp : xu.toNat * yw.toNat = p at hxy ⊢
  generalize hq : f.toNat * mw.toNat = q at hfm ⊢
  refine ⟨?_, by omega⟩
  rw [BitVec.toNat_add, BitVec.toNat_add, BitVec.toNat_add, MUL31, MUL31, BitVec.toNat_mul,
    BitVec.toNat_mul, hwide dw hd, hwide xu hx, hwide yw hy, hwide f hf, hwide mw hm, hp, hq]
  omega

theorem toNat_low (z : BitVec 64) :
    (z.setWidth 32 &&& 0x7FFFFFFF : Word).toNat = z.toNat % 2 ^ 31 := by
  rw [toNat_mask, BitVec.toNat_setWidth]
  omega

theorem toNat_high (z : BitVec 64) : (z >>> 31).toNat = z.toNat / 2 ^ 31 := by
  rw [BitVec.toNat_ushiftRight, Nat.shiftRight_eq_div_pow]

/-- **The pass as a row of columns.** The digits move down by one word; the last slot the
pass frees still holds what it held. -/
theorem montyColumns_eq {ds ys ms : List Word} {xu f : Word} (hd : Small ds) (hy : Small ys)
    (hm : Small ms) (hx : xu.toNat < 2 ^ 31) (hf : f.toNat < 2 ^ 31)
    (hylen : ys.length = ds.length) (hmlen : ms.length = ds.length)
    (pre prey prem : List Word) (hprey : prey.length = pre.length + 1)
    (hprem : prem.length = pre.length + 1) (c : Word) (post posty postm : List Word)
    {r : BitVec 64} (hr : r.toNat < 2 ^ 32) :
    ∃ out last r', montyColumns (prey ++ (ys ++ posty)) (prem ++ (ms ++ postm)) xu f ds.length
        pre.length (pre ++ c :: (ds ++ post), r) = some (pre ++ (out ++ last :: post), r') ∧
      out.length = ds.length ∧ Small out ∧ r'.toNat < 2 ^ 32 ∧
      (ints out, (r'.toNat : ℤ)) = normalise base r.toNat (montyRow ds ys ms xu f) := by
  induction ds generalizing ys ms pre prey prem c r with
  | nil =>
    exact ⟨[], c, r, by simp [montyColumns], rfl, Small.nil, hr, by simp [montyRow, normalise]⟩
  | cons dw ds ih =>
    obtain ⟨yw, ys, rfl⟩ := List.exists_cons_of_length_eq_add_one hylen
    obtain ⟨mw, ms, rfl⟩ := List.exists_cons_of_length_eq_add_one hmlen
    obtain ⟨hz, hzlt⟩ := toNat_column hd.head hy.head hm.head hx hf hr
    generalize hzdef : dw.setWidth 64 + MUL31 xu yw + MUL31 f mw + r = z at hz
    have hr' : (z >>> 31).toNat < 2 ^ 32 := by
      rw [toNat_high]
      omega
    obtain ⟨out, last, r', hrun, hout, hsmall, hlast, hnorm⟩ := ih hd.tail hy.tail hm.tail
      (Nat.succ.inj hylen) (Nat.succ.inj hmlen) (pre ++ [z.setWidth 32 &&& 0x7FFFFFFF])
      (prey ++ [yw]) (prem ++ [mw]) (by simp [hprey]) (by simp [hprem]) dw hr'
    have hget : (pre ++ c :: dw :: (ds ++ post))[pre.length + 1]? = some dw := by
      have := getElem?_here (pre ++ [c]) dw (ds ++ post)
      rwa [List.length_append, List.length_singleton, List.append_assoc,
        List.singleton_append] at this
    have hgety : (prey ++ yw :: (ys ++ posty))[pre.length + 1]? = some yw :=
      hprey ▸ getElem?_here prey yw (ys ++ posty)
    have hgetm : (prem ++ mw :: (ms ++ postm))[pre.length + 1]? = some mw :=
      hprem ▸ getElem?_here prem mw (ms ++ postm)
    refine ⟨(z.setWidth 32 &&& 0x7FFFFFFF) :: out, last, r', ?_, by simp [hout], ?_, hlast, ?_⟩
    · rw [List.length_append, List.length_singleton, List.append_assoc, List.append_assoc,
        List.append_assoc, List.append_assoc, List.singleton_append, List.singleton_append,
        List.singleton_append] at hrun
      simp only [List.cons_append, List.length_cons, montyColumns, montyColumn, hget, hgety,
        hgetm, Option.bind_eq_bind, Option.bind_some, Option.pure_def, hzdef, set_here]
      exact hrun
    · refine hsmall.cons ?_
      rw [toNat_low]
      exact Nat.mod_lt _ (by decide)
    · have hcol : (z.toNat : ℤ) =
          dw.toNat + (xu.toNat : ℤ) * yw.toNat + (f.toNat : ℤ) * mw.toNat + r.toNat := by
        rw [hz]
        push_cast
        ring
      have hcarry : ((z >>> 31).toNat : ℤ) = z.toNat / base := by
        rw [toNat_high, base_eq]
        omega
      have hdigit : ((z.setWidth 32 &&& 0x7FFFFFFF : Word).toNat : ℤ) = z.toNat % base := by
        rw [toNat_low, base_eq]
        omega
      rw [hcarry, hcol] at hnorm
      simp only [montyRow, ints_cons, List.zipWith_cons_cons, normalise, hdigit, hcol]
      simp only [montyRow] at hnorm
      rw [← hnorm]

/-! ## One round -/

theorem toNat_MUL31_lo (x y : Word) : (MUL31_lo x y).toNat = x.toNat * y.toNat % 2 ^ 31 := by
  rw [MUL31_lo, toNat_mask, BitVec.toNat_mul]
  exact Nat.mod_mod_of_dvd _ (Nat.pow_dvd_pow 2 (by decide))

theorem MUL31_lo_lt (x y : Word) : (MUL31_lo x y).toNat < 2 ^ 31 := by
  rw [toNat_MUL31_lo]
  exact Nat.mod_lt _ (by decide)

/-- The factor of a round, up to the base. -/
theorem factor_modEq (d1 xu y1 m0i : Word) :
    ((MUL31_lo (d1 + MUL31_lo xu y1) m0i).toNat : ℤ) ≡
      (d1.toNat + xu.toNat * y1.toNat) * m0i.toNat [ZMOD base] := by
  have hsum : (d1 + MUL31_lo xu y1).toNat ≡ d1.toNat + xu.toNat * y1.toNat [MOD 2 ^ 31] := by
    rw [BitVec.toNat_add, toNat_MUL31_lo]
    have hwrap : (d1.toNat + xu.toNat * y1.toNat % 2 ^ 31) % 2 ^ 32 ≡
        d1.toNat + xu.toNat * y1.toNat % 2 ^ 31 [MOD 2 ^ 31] :=
      Nat.mod_mod_of_dvd _ (Nat.pow_dvd_pow 2 (by decide))
    exact hwrap.trans ((Nat.mod_modEq _ _).add_left _)
  have h := hsum.mul_right m0i.toNat
  have hbase : base = ((2 ^ 31 : Nat) : ℤ) := by decide
  rw [toNat_MUL31_lo, hbase]
  exact_mod_cast Int.natCast_modEq_iff.mpr ((Nat.mod_modEq _ _).trans h)

/-- The first word is the integer up to the base. -/
theorem value_modEq (w : Word) (ws : List Word) : value (w :: ws) ≡ w.toNat [ZMOD base] := by
  rw [value_cons]
  have h : base * value ws ≡ 0 [ZMOD base] := Int.modEq_zero_iff_dvd.mpr (Dvd.intro _ rfl)
  have := h.add_left (w.toNat : ℤ)
  rwa [add_zero] at this

/-- The accumulator in `d` and `dh`. -/
def accumulated (n : Nat) (ws : List Word) (dh : BitVec 64) : ℤ :=
  value ws + base ^ n * dh.toNat

/-- What a pass over the columns and the write to `d[len]` leave: the sum, moved down by one
word, when its first digit is zero. -/
theorem accumulated_shift {n : Nat} {out : List Word} {dh r : BitVec 64} {row : ℤ}
    (hout : out.length = n + 1) (hsmall : Small out) (hdh : dh.toNat ≤ 1)
    (hr : r.toNat < 2 ^ 32) (hvalue : value out + base ^ (n + 1) * r.toNat = row)
    (hdvd : base ∣ row + base ^ (n + 1) * dh.toNat) (rest : List Word) (last : Word) :
    ∃ d0 ws', (out ++ last :: rest).set (n + 1) ((dh + r).setWidth 32 &&& 0x7FFFFFFF) =
        d0 :: (ws' ++ rest) ∧ ws'.length = n + 1 ∧ Small ws' ∧
      base * accumulated (n + 1) ws' ((dh + r) >>> 31) = row + base ^ (n + 1) * dh.toNat := by
  match out, hout with
  | g :: gs, hout =>
    have hgs : gs.length = n := Nat.succ.inj hout
    have hzh : (dh + r).toNat = dh.toNat + r.toNat := by
      rw [BitVec.toNat_add]
      omega
    have hg : (g.toNat : ℤ) = 0 := by
      have hsum : value (g :: gs) + base ^ (n + 1) * (dh.toNat + r.toNat) =
          row + base ^ (n + 1) * dh.toNat := by
        rw [← hvalue]
        ring
      have hmod : base ∣ (g.toNat : ℤ) := by
        have hrow : value (g :: gs) + base ^ (n + 1) * (dh.toNat + r.toNat) =
            g.toNat + base * (value gs + base ^ n * (dh.toNat + r.toNat)) := by
          rw [value_cons, pow_succ]
          ring
        rw [← hsum, hrow] at hdvd
        exact (Int.dvd_iff_dvd_of_dvd_add hdvd).mpr (Dvd.intro _ rfl)
      have hlt := hsmall.head
      exact Int.eq_zero_of_dvd_of_nonneg_of_lt (by omega) (by rw [base_eq]; omega) hmod
    refine ⟨g, gs ++ [(dh + r).setWidth 32 &&& 0x7FFFFFFF], ?_, by simp [hgs], ?_, ?_⟩
    · rw [← hout, set_here, List.append_assoc, List.singleton_append, List.cons_append]
    · refine hsmall.tail.append (Small.nil.cons ?_)
      rw [toNat_low]
      exact Nat.mod_lt _ (by decide)
    · have htop : (((dh + r).setWidth 32 &&& 0x7FFFFFFF : Word).toNat : ℤ) +
          base * ((dh + r) >>> 31).toNat = dh.toNat + r.toNat := by
        rw [toNat_low, toNat_high, hzh, base_eq]
        omega
      rw [value_cons, hg] at hvalue
      rw [accumulated, value_append, hgs, value_cons, value_nil, ← hvalue, pow_succ]
      linear_combination base ^ n * base * htop

section Rounds

variable {h : Word} (x y m : I31 h) (rx ry rm : List Word) {m0i : Word}

/-- The accumulator between two rounds. -/
structure Accumulator (u : Nat) (ws : List Word) (dh : BitVec 64) : Prop where
  length_eq : ws.length = wordCount h
  small : Small ws
  reduced : Reduced base m.value y.value u (value (x.words.take u))
    (accumulated (wordCount h) ws dh)

variable {x y m}

theorem Accumulator.dh_le {u : Nat} {ws : List Word} {dh : BitVec 64}
    (hacc : Accumulator x y m u ws dh) : dh.toNat ≤ 1 := by
  have hlt := hacc.reduced.lt
  have hm := m.value_lt
  have hws := BearSSL.value_nonneg hacc.small
  have hpow : 0 < base ^ wordCount h := pow_pos base_pos _
  rw [accumulated] at hlt
  have htwo : base ^ wordCount h * dh.toNat < base ^ wordCount h * 2 := by linarith
  have := lt_of_mul_lt_mul_left htwo hpow.le
  omega

/-- The round on any accumulator whose sum is divisible by the base. -/
theorem montyRound_shift {u : Nat} {d1 y1 xu : Word} {ds ys : List Word} {dh : BitVec 64}
    (hlen : (d1 :: ds).length = wordCount h) (hsmall : Small (d1 :: ds)) (hdh : dh.toNat ≤ 1)
    (hys : y.words = y1 :: ys) (hxu : x.words[u]? = some xu)
    (hdvd : base ∣ accumulated (wordCount h) (d1 :: ds) dh + xu.toNat * y.value +
      (MUL31_lo (d1 + MUL31_lo xu y1) m0i).toNat * m.value) (d0 : Word) (rest : List Word) :
    ∃ d0' ws' dh', montyRound (x.array rx) (y.array ry) (m.array rm) m0i (wordCount h) u
        (d0 :: (d1 :: ds ++ rest), dh) = some (d0' :: (ws' ++ rest), dh') ∧
      ws'.length = wordCount h ∧ Small ws' ∧
      base * accumulated (wordCount h) ws' dh' =
        accumulated (wordCount h) (d1 :: ds) dh + xu.toNat * y.value +
          (MUL31_lo (d1 + MUL31_lo xu y1) m0i).toNat * m.value := by
  obtain ⟨n, hn⟩ : ∃ n, wordCount h = n + 1 := ⟨ds.length, by rw [← hlen, List.length_cons]⟩
  have hxsmall : xu.toNat < 2 ^ 31 := x.small xu (List.mem_of_getElem? hxu)
  have hfsmall := MUL31_lo_lt (d1 + MUL31_lo xu y1) m0i
  generalize hf : MUL31_lo (d1 + MUL31_lo xu y1) m0i = f at hdvd hfsmall
  have hylen : y.words.length = (d1 :: ds).length := y.length_eq.trans hlen.symm
  have hmlen : m.words.length = (d1 :: ds).length := m.length_eq.trans hlen.symm
  obtain ⟨out, last, r, hrun, hout, hsmallout, hr, hnorm⟩ := montyColumns_eq hsmall y.small m.small
    hxsmall hfsmall hylen hmlen [] [h] [h] rfl rfl d0 rest ry rm
    (r := 0) (by decide)
  have hvalue : value out + base ^ (n + 1) * r.toNat =
      value (d1 :: ds) + xu.toNat * y.value + f.toNat * m.value := by
    have hzero : ((0 : BitVec 64).toNat : ℤ) = 0 := rfl
    have hsum := eval_normalise base ((0 : BitVec 64).toNat : ℤ)
      (montyRow (d1 :: ds) y.words m.words xu f)
    rwa [← hnorm, length_montyRow xu f hylen hmlen, hlen, hn, eval_montyRow xu f hylen hmlen,
      hzero, add_zero] at hsum
  have hsum : value (d1 :: ds) + xu.toNat * y.value + f.toNat * m.value +
      base ^ (n + 1) * dh.toNat =
        accumulated (wordCount h) (d1 :: ds) dh + xu.toNat * y.value + f.toNat * m.value := by
    rw [accumulated, hn]
    ring
  obtain ⟨d0', ws', hset, hlen', hsmall', hshift⟩ := accumulated_shift (hout.trans (hlen.trans hn))
    hsmallout hdh hr hvalue (hsum ▸ hdvd) rest last
  refine ⟨d0', ws', (dh + r) >>> 31, ?_, hlen'.trans hn.symm, hsmall', ?_⟩
  · have hgetx : (x.array rx)[u + 1]? = some xu := by
      have hux : u < x.words.length := (List.getElem?_eq_some_iff.mp hxu).1
      rw [I31.array, List.getElem?_cons_succ, List.getElem?_append_left hux, hxu]
    have hd1 : (d0 :: (d1 :: ds ++ rest))[1]? = some d1 := rfl
    have hy1 : (y.array ry)[1]? = some y1 := by rw [I31.array, hys]; rfl
    have hpass := quads_then_columns (y.array ry) (m.array rm) xu f (wordCount h)
      (d0 :: (d1 :: ds ++ rest), 0)
    rw [← hlen] at hpass
    have hcolumns := hpass.trans hrun
    rw [hlen] at hcolumns
    simp only [montyRound, hgetx, hd1, hy1, hf, Option.bind_eq_bind, Option.bind_some,
      Option.pure_def]
    rw [← Option.bind_assoc, hcolumns, Option.bind_some, List.nil_append, hn, hset]
  · rw [hn, hshift, hsum, hn]

/-- **One round** adds the product with digit `u`, reduces it, and keeps the accumulator
below twice the modulus. -/
theorem montyRound_eq (hinv : m.value * m0i.toNat ≡ -1 [ZMOD base]) (hy : y.value < m.value)
    {u : Nat} (hu : u < wordCount h) {ws : List Word} {dh : BitVec 64}
    (hacc : Accumulator x y m u ws dh) (d0 : Word) (rest : List Word) :
    ∃ d0' ws' dh', montyRound (x.array rx) (y.array ry) (m.array rm) m0i (wordCount h) u
        (d0 :: (ws ++ rest), dh) = some (d0' :: (ws' ++ rest), dh') ∧
      Accumulator x y m (u + 1) ws' dh' := by
  obtain ⟨n, hn⟩ : ∃ n, wordCount h = n + 1 := ⟨wordCount h - 1, by omega⟩
  have hlen := hacc.length_eq
  have hux : u < x.words.length := x.length_eq ▸ hu
  obtain ⟨d1, ds, rfl⟩ := List.exists_cons_of_length_eq_add_one (hlen.trans hn)
  obtain ⟨y1, ys, hys⟩ := List.exists_cons_of_length_eq_add_one (y.length_eq.trans hn)
  have hxu : x.words[u]? = some x.words[u] := List.getElem?_eq_getElem hux
  have hxsmall : x.words[u].toNat < 2 ^ 31 := x.small _ (List.getElem_mem hux)
  have htake : value (x.words.take (u + 1)) =
      value (x.words.take u) + base ^ u * x.words[u].toNat := by
    rw [List.take_add_one, hxu, value_append, List.length_take_of_le hux.le, Option.toList_some,
      value_cons, value_nil, mul_zero, add_zero]
  generalize x.words[u] = xu at hxu hxsmall htake
  -- the factor makes the sum of the round divisible by the base
  have hfactor := factor_modEq d1 xu y1 m0i
  have hlast : accumulated (wordCount h) (d1 :: ds) dh + xu.toNat * y.value ≡
      d1.toNat + xu.toNat * y1.toNat [ZMOD base] := by
    have hy0 : y.value ≡ y1.toNat [ZMOD base] := by
      rw [I31.value, hys]
      exact value_modEq y1 ys
    refine Int.ModEq.add ?_ (hy0.mul_left _)
    have hhigh : base ^ wordCount h * dh.toNat ≡ 0 [ZMOD base] := by
      rw [hn, pow_succ]
      exact Int.modEq_zero_iff_dvd.mpr (Dvd.intro_left (base ^ n * dh.toNat) (by ring))
    have := (value_modEq d1 ds).add hhigh
    rwa [add_zero] at this
  have hdvd := dvd_add_mul hinv (hfactor.trans (hlast.symm.mul_right _))
  obtain ⟨d0', ws', dh', hrun, hlen', hsmall', hshift⟩ :=
    montyRound_shift rx ry rm hlen hacc.small hacc.dh_le hys hxu hdvd d0 rest
  refine ⟨d0', ws', dh', hrun, hlen', hsmall', ?_⟩
  have hfsmall := MUL31_lo_lt (d1 + MUL31_lo xu y1) m0i
  rw [htake]
  exact hacc.reduced.step base_pos ⟨by omega, by rw [base_eq]; omega⟩
    ⟨by omega, by rw [base_eq]; omega⟩ ⟨y.value_nonneg, hy⟩ hshift

theorem montyRounds_eq (hinv : m.value * m0i.toNat ≡ -1 [ZMOD base]) (hy : y.value < m.value)
    {n u : Nat} (hu : u + n ≤ wordCount h) {ws : List Word} {dh : BitVec 64}
    (hacc : Accumulator x y m u ws dh) (d0 : Word) (rest : List Word) :
    ∃ d0' ws' dh', montyRounds (x.array rx) (y.array ry) (m.array rm) m0i (wordCount h) n u
        (d0 :: (ws ++ rest), dh) = some (d0' :: (ws' ++ rest), dh') ∧
      Accumulator x y m (u + n) ws' dh' := by
  induction n generalizing u ws dh d0 with
  | zero => exact ⟨d0, ws, dh, rfl, hacc⟩
  | succ n ih =>
    obtain ⟨d1, ws1, dh1, hround, hacc1⟩ :=
      montyRound_eq rx ry rm hinv hy (by omega : u < _) hacc d0 rest
    obtain ⟨d2, ws2, dh2, hrest, hacc2⟩ := ih (by omega : u + 1 + n ≤ _) hacc1 d1
    refine ⟨d2, ws2, dh2, ?_, ?_⟩
    · rw [montyRounds, hround]
      exact hrest
    · rwa [Nat.add_right_comm] at hacc2

/-- The control word of the last subtraction compares the accumulator with the modulus. -/
theorem lastCtl_eq {u : Nat} {ws : List Word} {dh : BitVec 64}
    (hacc : Accumulator x y m u ws dh) :
    NEQ (dh.setWidth 32) 0 ||| NOT (flag (value ws < m.value)) =
      flag (m.value ≤ accumulated (wordCount h) ws dh) := by
  have hdh := hacc.dh_le
  have hws := BearSSL.value_nonneg hacc.small
  have hm := m.value_lt
  have hnarrow : dh.setWidth 32 ≠ 0 ↔ dh.toNat = 1 := by
    rw [ne_eq, ← BitVec.toNat_inj, BitVec.toNat_setWidth]
    have hzero : (0 : Word).toNat = 0 := rfl
    omega
  rw [NEQ_eq, NOT_flag, flag_or]
  apply flag_congr
  rw [hnarrow, accumulated]
  rcases (by omega : dh.toNat = 0 ∨ dh.toNat = 1) with h0 | h1
  · simp [h0]
  · have hle : m.value ≤ value ws + base ^ wordCount h := by linarith
    simp [h1, hle]

/-- **Montgomery multiplication.** Whatever `d` held, it receives the product divided by
the base as often as the modulus has words, below the modulus; no access is outside an
array. -/
theorem brI31Montymul_eq (hinv : m.value * m0i.toNat ≡ -1 [ZMOD base]) (hy : y.value < m.value)
    (d0 : Word) {old : List Word} (rest : List Word) (hold : old.length = wordCount h) :
    ∃ p : I31 h, brI31Montymul (d0 :: (old ++ rest)) (x.array rx) (y.array ry) (m.array rm) m0i =
        some (p.array rest) ∧ p.value < m.value ∧
      base ^ wordCount h * p.value ≡ x.value * y.value [ZMOD m.value] := by
  have hmpos : 0 < m.value := y.value_nonneg.trans_lt hy
  have hstart : Accumulator x y m 0 (I31.zero m.fits).words 0 := by
    refine ⟨(I31.zero m.fits).length_eq, (I31.zero m.fits).small, ?_⟩
    have hzero : accumulated (wordCount h) (I31.zero m.fits).words 0 = 0 := by
      have := I31.value_zero m.fits
      rw [I31.value] at this
      rw [accumulated, this]
      simp
    rw [hzero]
    exact Reduced.start y.value hmpos
  obtain ⟨d0', ws, dh, hrounds, hacc⟩ := montyRounds_eq rx ry rm hinv hy (Nat.zero_add _).le
    hstart h rest
  rw [Nat.zero_add] at hacc
  have hlast := lastCtl_eq hacc
  obtain ⟨hnonneg, hlt, hmod⟩ := hacc.reduced
  rw [← x.length_eq, List.take_length, x.length_eq] at hmod
  generalize hT : accumulated (wordCount h) ws dh = T at hlast hnonneg hlt hmod
  obtain ⟨d, hdwords⟩ : ∃ d : I31 h, d.words = ws :=
    ⟨⟨ws, hacc.length_eq, hacc.small, m.fits⟩, rfl⟩
  obtain ⟨_, -, hcompare⟩ := brI31Sub_eq zero_bit d m rest rm
  rw [if_neg (by decide)] at hcompare
  obtain ⟨e, he, hsub⟩ := brI31Sub_eq (flag_bit (m.value ≤ T)) d m rest rm
  have hrun : brI31Montymul (d0 :: (old ++ rest)) (x.array rx) (y.array ry) (m.array rm) m0i =
      some ((if flag (m.value ≤ T) = 1 then e else d).array rest) := by
    have hm0 : (m.array rm)[0]? = some h := rfl
    have hset : (d0' :: (ws ++ rest)).set 0 h = d.array rest := by
      rw [I31.array, hdwords, List.set_cons_zero]
    have hzeroed := brI31Zero_eq m.fits d0 rest hold
    have hctlEq : NEQ (dh.setWidth 32) 0 ||| NOT (flag (d.value < m.value)) =
        flag (m.value ≤ T) := by
      rw [I31.value, hdwords]
      exact hlast
    simp only [brI31Montymul, hm0, Option.bind_eq_bind, Option.bind_some, hzeroed]
    change (montyRounds (x.array rx) (y.array ry) (m.array rm) m0i (wordCount h) (wordCount h) 0
      (h :: ((I31.zero m.fits).words ++ rest), 0)).bind _ = _
    rw [hrounds]
    simp only [Option.bind_some, hset, hcompare, hctlEq, hsub, Option.pure_def]
  have hpow : 0 < base ^ wordCount h := pow_pos base_pos _
  have hm := m.value_lt
  have hdT : T = d.value + base ^ wordCount h * dh.toNat := by
    rw [← hT, accumulated, I31.value, hdwords]
  by_cases hle : m.value ≤ T
  · rw [flag_of hle, if_pos rfl] at hrun
    have hvalue : e.value = T - m.value := by
      have hshift : d.value - m.value = T - m.value - base ^ wordCount h * dh.toNat := by
        rw [hdT]
        ring
      rw [he, hshift, Int.sub_mul_emod_self_left]
      exact Int.emod_eq_of_lt (by omega) (by omega)
    refine ⟨e, hrun, by omega, ?_⟩
    have hdrop : T - m.value ≡ T [ZMOD m.value] := Int.sub_emod_right T m.value
    rw [hvalue]
    exact (hdrop.mul_left _).trans hmod
  · rw [flag_of_not hle, if_neg (by decide)] at hrun
    have hvalue : d.value = T := by
      have hdh := hacc.dh_le
      rcases (by omega : dh.toNat = 0 ∨ dh.toNat = 1) with h0 | h1
      · rw [hdT, h0, Nat.cast_zero, mul_zero, add_zero]
      · have := d.value_nonneg
        rw [h1, Nat.cast_one, mul_one] at hdT
        omega
    refine ⟨d, hrun, by omega, ?_⟩
    rw [hvalue]
    exact hmod

/-! ## A zero factor -/

/-- With a zero factor every round finds a zero accumulator and leaves it, whatever the
modulus and `m0i` are. -/
theorem montyRounds_zero (x : I31 h) (m0i : Word) (hy : y.value = 0) {n u : Nat}
    (hu : u + n ≤ wordCount h) (d0 : Word) (rest : List Word) :
    ∃ d0', montyRounds (x.array rx) (y.array ry) (m.array rm) m0i (wordCount h) n u
        (d0 :: ((I31.zero m.fits).words ++ rest), 0) =
      some (d0' :: ((I31.zero m.fits).words ++ rest), 0) := by
  induction n generalizing u d0 with
  | zero => exact ⟨d0, rfl⟩
  | succ n ih =>
    obtain ⟨k, hk⟩ : ∃ k, wordCount h = k + 1 := ⟨wordCount h - 1, by omega⟩
    have hyzero : y = I31.zero m.fits := I31.ext_value (hy.trans (I31.value_zero m.fits).symm)
    have hwords : (I31.zero m.fits).words = List.replicate (wordCount h) 0 := rfl
    rw [hk, List.replicate_succ] at hwords
    have hys : y.words = 0 :: List.replicate k 0 := hyzero ▸ hwords
    have hux : u < x.words.length := by rw [x.length_eq]; omega
    have hxu : x.words[u]? = some x.words[u] := List.getElem?_eq_getElem hux
    have hfactor : MUL31_lo (0 + MUL31_lo x.words[u] 0) m0i = 0 := by
      apply BitVec.eq_of_toNat_eq
      have hzero : (0 : Word).toNat = 0 := rfl
      rw [toNat_MUL31_lo, BitVec.toNat_add, toNat_MUL31_lo, hzero, Nat.mul_zero, Nat.zero_mod,
        Nat.add_zero, Nat.zero_mod, Nat.zero_mul, Nat.zero_mod]
    have hacc : accumulated (wordCount h) (0 :: List.replicate k 0) 0 = 0 := by
      have := I31.value_zero m.fits
      rw [I31.value, hwords] at this
      rw [accumulated, this]
      rfl
    have hnone : accumulated (wordCount h) (0 :: List.replicate k 0) 0 +
        x.words[u].toNat * y.value +
          (MUL31_lo (0 + MUL31_lo x.words[u] 0) m0i).toNat * m.value = 0 := by
      rw [hacc, hy, hfactor, mul_zero, add_zero, zero_add]
      exact zero_mul _
    obtain ⟨d1, ws', dh', hround, hlen', hsmall', hshift⟩ := montyRound_shift rx ry rm (m := m)
      (hwords ▸ (I31.zero m.fits).length_eq) (hwords ▸ (I31.zero m.fits).small) (by decide) hys hxu
      (hnone ▸ dvd_zero base) d0 rest
    rw [hnone] at hshift
    have hzero : accumulated (wordCount h) ws' dh' = 0 :=
      (mul_eq_zero.mp hshift).resolve_left base_pos.ne'
    have hpow : 0 < base ^ wordCount h := pow_pos base_pos _
    have hws' := BearSSL.value_nonneg hsmall'
    have hdh' : (0 : ℤ) ≤ base ^ wordCount h * dh'.toNat :=
      mul_nonneg hpow.le (Int.natCast_nonneg _)
    rw [accumulated] at hzero
    have hdh0 : dh' = 0 := by
      have hprod : base ^ wordCount h * (dh'.toNat : ℤ) = 0 := by omega
      have := (mul_eq_zero.mp hprod).resolve_left hpow.ne'
      exact BitVec.eq_of_toNat_eq (Int.ofNat.inj this)
    have hws0 : ws' = (I31.zero m.fits).words := by
      refine eq_of_value_eq hsmall' (I31.zero m.fits).small
        (hlen'.trans (I31.zero m.fits).length_eq.symm) ?_
      have hz := I31.value_zero m.fits
      rw [I31.value] at hz
      rw [hz]
      omega
    obtain ⟨d2, hrest⟩ := ih (by omega : u + 1 + n ≤ _) d1
    refine ⟨d2, ?_⟩
    rw [← hwords, hdh0, hws0] at hround
    rw [montyRounds, hround]
    exact hrest

/-- A product with zero is zero, also for an even modulus. -/
theorem brI31Montymul_zero (x : I31 h) (m0i : Word) (hm : 0 < m.value) (hy : y.value = 0)
    (d0 : Word) {old : List Word} (rest : List Word) (hold : old.length = wordCount h) :
    brI31Montymul (d0 :: (old ++ rest)) (x.array rx) (y.array ry) (m.array rm) m0i =
      some ((I31.zero m.fits).array rest) := by
  obtain ⟨d0', hrounds⟩ := montyRounds_zero (m := m) rx ry rm x m0i hy
    (Nat.zero_add _).le h rest
  obtain ⟨_, -, hcompare⟩ := brI31Sub_eq zero_bit (I31.zero m.fits) m rest rm
  have hless : (I31.zero m.fits).value < m.value := by rwa [I31.value_zero]
  rw [if_neg (by decide), flag_of hless] at hcompare
  have hm0 : (m.array rm)[0]? = some h := rfl
  have hset : (d0' :: ((I31.zero m.fits).words ++ rest)).set 0 h =
      (I31.zero m.fits).array rest := rfl
  have hctl : NEQ ((0 : BitVec 64).setWidth 32) 0 ||| NOT 1 = 0 := by decide
  simp only [brI31Montymul, hm0, Option.bind_eq_bind, Option.bind_some,
    brI31Zero_eq m.fits d0 rest hold]
  change (montyRounds (x.array rx) (y.array ry) (m.array rm) m0i (wordCount h) (wordCount h) 0
    (h :: ((I31.zero m.fits).words ++ rest), 0)).bind _ = _
  rw [hrounds]
  simp only [Option.bind_some, hset, hcompare, hctl, Option.pure_def]

end Rounds

end MicroSampler.BearSSL
