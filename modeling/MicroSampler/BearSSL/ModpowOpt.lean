import MicroSampler.BearSSL.Exponentiation
import MicroSampler.BearSSL.Reduction

/-!
# `br_i31_modpow_opt`

The exponentiation with a window: up to five bits of the exponent at a time, from the most
significant on, as many as the temporaries allow. The temporaries are one array: the
product `t1`, the value `t2` that is looked up, and behind it the powers of `x`. A pointer
into the array is an offset, and what is read through it is the array from there on. Two
lines are printed: the window length, and the bits of each window.
-/

namespace MicroSampler.BearSSL

/-- The lines of the two calls of `printf`. -/
inductive Print
  | winLen (n : Nat)
  | bits (w : Word)
  deriving DecidableEq

/-! ## Parts of the array -/

/-- `br_i31_montymul` with its destination at `tmp + d`. The factors do not overlap with it. -/
def montymulAt (tmp : List Word) (d : Nat) (x y m : List Word) (m0i : Word) :
    Option (List Word) :=
  (brI31Montymul (tmp.drop d) x y m m0i).map (tmp.take d ++ ·)

def brI31ZeroAt (tmp : List Word) (d : Nat) (bitLen : Word) : Option (List Word) :=
  (brI31Zero (tmp.drop d) bitLen).map (tmp.take d ++ ·)

/-- `CCOPY` of `len` bytes between two arrays of words. -/
def ccopyWords (ctl : Word) (dst src : List Word) (len : Nat) : Option (List Word) :=
  (brCcopy ctl (bytesOf dst) (bytesOf src) len).map wordsOf

/-! ## The window -/

/-- The loop that finds the window length, from `winLen` down. -/
def windowLength (mwlen twlen : Nat) : (winLen : Nat) → Nat
  | n + 2 =>
    if ((1 <<< (n + 2)) + 1) * mwlen ≤ twlen then n + 2 else windowLength mwlen twlen (n + 1)
  | n => n

/-- The loop that computes the powers, the last one at `tmp + base`. -/
def powersLoop (x m : List Word) (m0i : Word) (mwlen : Nat) :
    (n base : Nat) → (tmp : List Word) → Option (List Word)
  | 0, _, tmp => some tmp
  | n + 1, base, tmp => do
    let tmp ← montymulAt tmp (base + mwlen) (tmp.drop base) x m m0i
    powersLoop x m m0i mwlen n (base + mwlen) tmp

/-- The loop over the words of one power. -/
def maskLoop (mask : Word) (t2 base : Nat) : (n v : Nat) → (tmp : List Word) → Option (List Word)
  | 0, _, tmp => some tmp
  | n + 1, v, tmp => do
    let tv ← tmp[t2 + v]?
    let bv ← tmp[base + v]?
    maskLoop mask t2 base n (v + 1) (tmp.set (t2 + v) (tv ||| (mask &&& bv)))

/-- The loop over the powers. -/
def lookupLoop (bits : Word) (mwlen t2 : Nat) :
    (n u base : Nat) → (tmp : List Word) → Option (List Word)
  | 0, _, _, tmp => some tmp
  | n + 1, u, base, tmp => do
    let tmp ← maskLoop (-EQ (BitVec.ofNat 32 u) bits) t2 base (mwlen - 1) 1 tmp
    lookupLoop bits mwlen t2 n (u + 1) (base + mwlen) tmp

/-! ## The exponent -/

/-- What is left of the exponent: `accLen` bits of `acc`, and `elen` bytes at `e`. -/
structure Reader where
  acc : Word
  accLen : Nat
  e : List Byte
  elen : Nat

/-- The next bits: how many, and their value. -/
def Reader.next (winLen : Nat) (s : Reader) : Option (Nat × Word × Reader) := do
  let (k, s) ←
    if s.accLen < winLen then
      if 0 < s.elen then
        match s.e with
        | b :: e => some (winLen, ⟨(s.acc <<< 8) ||| b.setWidth 32, s.accLen + 8, e, s.elen - 1⟩)
        | [] => none
      else some (s.accLen, s)
    else some (winLen, s)
  let bits := (s.acc >>> (s.accLen - k)) &&& (((1 : Word) <<< k) - 1)
  pure (k, bits, { s with accLen := s.accLen - k })

/-! ## The function -/

/-- What the function writes. -/
structure Opt where
  x : List Word
  tmp : List Word
  printed : List Print
  deriving DecidableEq

/-- The squarings of one window. -/
def squareLoop (m : List Word) (m0i : Word) (words : Nat) : (n : Nat) → Opt → Option Opt
  | 0, s => some s
  | n + 1, s => do
    let tmp ← montymulAt s.tmp 0 s.x s.x m m0i
    let x ← memcpyWords s.x tmp 0 0 words
    squareLoop m m0i words n { s with x, tmp }

/-- The lookup in the table, if there is one. -/
def windowLookup (m0 bits : Word) (mwlen winLen k : Nat) (tmp : List Word) :
    Option (List Word) :=
  if 1 < winLen then do
    let tmp ← brI31ZeroAt tmp mwlen m0
    lookupLoop bits mwlen mwlen ((1 <<< k) - 1) 1 (mwlen + mwlen) tmp
  else some tmp

/-- The body of the loop over the windows, for `k` bits. -/
def windowRound (m : List Word) (m0i m0 : Word) (words mwlen winLen k : Nat) (bits : Word)
    (s : Opt) : Option Opt := do
  let s ← squareLoop m m0i words k s
  let s := { s with printed := s.printed ++ [Print.bits bits] }
  let tmp ← windowLookup m0 bits mwlen winLen k s.tmp
  let tmp ← montymulAt tmp 0 s.x (tmp.drop mwlen) m m0i
  let x ← ccopyWords (NEQ bits 0) s.x tmp (4 * words)
  pure { s with x, tmp }

/-- The loop over the windows; it ends when nothing is left of the exponent. -/
def windowLoop (m : List Word) (m0i m0 : Word) (words mwlen winLen : Nat) :
    (fuel : Nat) → Reader → Opt → Option Opt
  | fuel, r, s =>
    if 0 < r.accLen ∨ 0 < r.elen then
      match fuel with
      | 0 => none
      | fuel + 1 => do
        let (k, bits, r) ← r.next winLen
        let s ← windowRound m m0i m0 words mwlen winLen k bits s
        windowLoop m m0i m0 words mwlen winLen fuel r s
    else some s

/-- The first power, or the only one, and the others behind it. -/
def windowPowers (x m : List Word) (m0i : Word) (words mwlen winLen : Nat) (tmp : List Word) :
    Option (List Word) :=
  if winLen = 1 then memcpyWords tmp x mwlen 0 words
  else do
    let tmp ← memcpyWords tmp x (mwlen + mwlen) 0 words
    powersLoop x m m0i mwlen ((1 <<< winLen) - 2) (mwlen + mwlen) tmp

/-- One in Montgomery representation. -/
def montyOne (x m : List Word) (m0 : Word) : Option (List Word) := do
  let x ← brI31Zero x m0
  brI31MuladdSmall (x.set ((m0 + 31) >>> 5).toNat 1) 0 m

/-- The result and what is written. There are at most `8 * elen` windows. -/
def brI31ModpowOpt (x : List Word) (e : List Byte) (elen : Nat) (m : List Word) (m0i : Word)
    (tmp : List Word) (twlen : Nat) : Option (Word × Opt) := do
  let m0 ← m[0]?
  let words := ((m0 + 63) >>> 5).toNat
  let mwlen := words + (words &&& 1)
  if twlen < mwlen <<< 1 then
    pure (0, ⟨x, tmp, []⟩)
  else do
    let winLen := windowLength mwlen twlen 5
    let x ← brI31ToMonty x m
    let tmp ← windowPowers x m m0i words mwlen winLen tmp
    let x ← montyOne x m m0
    let s ← windowLoop m m0i m0 words mwlen winLen (8 * elen) ⟨0, 0, e, elen⟩
      ⟨x, tmp, [.winLen winLen]⟩
    let x ← brI31FromMonty s.x m m0i
    pure (1, { s with x })

/-! ## Reading the exponent -/

theorem exponent_cons (b : Byte) {e : List Byte} {n : Nat} (hn : n ≤ e.length) :
    exponent (b :: e) (n + 1) = b.toNat * 2 ^ (8 * n) + exponent e n := by
  have hlen : ((e.take n).reverse.map BitVec.toNat).length = n := by simp [hn]
  rw [exponent, List.take_succ_cons, List.reverse_cons, List.map_append, Nat.ofDigits_append, hlen,
    pow_mul]
  simp only [List.map_cons, List.map_nil, Nat.ofDigits_singleton, exponent]
  ring

theorem exponent_inj {e e' : List Byte} {elen : Nat} (he : elen ≤ e.length)
    (he' : elen ≤ e'.length) (h : exponent e elen = exponent e' elen) :
    e.take elen = e'.take elen := by
  have hdigit (l : List Byte) : ∀ d ∈ l.map BitVec.toNat, d < 256 := by
    intro d hd
    obtain ⟨b, -, rfl⟩ := List.mem_map.mp hd
    exact b.isLt
  have hlists := Nat.ofDigits_inj_of_len_eq (by decide) (by simp [he, he'])
    (hdigit (e.take elen).reverse) (hdigit (e'.take elen).reverse) h
  refine List.reverse_injective (List.map_injective_iff.mpr ?_ hlists)
  intro b c hbc
  exact BitVec.eq_of_toNat_eq hbc

theorem toNat_lowBits (w : Word) {k : Nat} (hk : k < 32) :
    (w &&& (((1 : Word) <<< k) - 1)).toNat = w.toNat % 2 ^ k := by
  have hpow : 2 ^ k < 2 ^ 32 := Nat.pow_lt_pow_right (by decide) hk
  have hone : ((1 : Word) <<< k).toNat = 2 ^ k := by
    rw [BitVec.toNat_shiftLeft, Nat.shiftLeft_eq]
    exact (congrArg (· % 2 ^ 32) (one_mul _)).trans (Nat.mod_eq_of_lt hpow)
  have hmask : ((1 : Word) <<< k - 1).toNat = 2 ^ k - 1 := by
    have hpos : 0 < 2 ^ k := Nat.two_pow_pos k
    have h1 : (1 : Word).toNat = 1 := rfl
    rw [BitVec.toNat_sub, hone, h1]
    omega
  rw [BitVec.toNat_and, hmask, Nat.and_two_pow_sub_one_eq_mod]

/-- The upper bits of the lower part, and what is below them. -/
theorem split_bits {A L n X E k : Nat} (hX : X < 2 ^ n) (hk : k ≤ L)
    (h : A % 2 ^ L * 2 ^ n + X = E % 2 ^ (n + L)) :
    A / 2 ^ (L - k) % 2 ^ k = E / 2 ^ (n + (L - k)) % 2 ^ k ∧
      A % 2 ^ (L - k) * 2 ^ n + X = E % 2 ^ (n + (L - k)) := by
  have hL : 2 ^ L = 2 ^ (L - k) * 2 ^ k := by rw [← pow_add, Nat.sub_add_cancel hk]
  have hE : 2 ^ (n + L) = 2 ^ (n + (L - k)) * 2 ^ k := by rw [pow_add, hL, ← mul_assoc, ← pow_add]
  have hn : 0 < 2 ^ n := Nat.two_pow_pos n
  have hdiv : (A % 2 ^ L * 2 ^ n + X) / 2 ^ n = A % 2 ^ L := by
    rw [mul_comm, Nat.mul_add_div hn, Nat.div_eq_of_lt hX, add_zero]
  have hmod : (A % 2 ^ L * 2 ^ n + X) % 2 ^ n = X := by
    rw [mul_comm, Nat.mul_add_mod, Nat.mod_eq_of_lt hX]
  constructor
  · calc A / 2 ^ (L - k) % 2 ^ k
        = A % 2 ^ L / 2 ^ (L - k) := by rw [hL, Nat.mod_mul_right_div_self]
      _ = E % 2 ^ (n + L) / 2 ^ (n + (L - k)) := by
          rw [← h, pow_add, ← Nat.div_div_eq_div_mul, hdiv]
      _ = E / 2 ^ (n + (L - k)) % 2 ^ k := by rw [hE, Nat.mod_mul_right_div_self]
  · calc A % 2 ^ (L - k) * 2 ^ n + X
        = X + 2 ^ n * (A % 2 ^ L % 2 ^ (L - k)) := by
          rw [hL, Nat.mod_mul_right_mod, mul_comm, add_comm]
      _ = (A % 2 ^ L * 2 ^ n + X) % (2 ^ n * 2 ^ (L - k)) := by rw [Nat.mod_mul, hdiv, hmod]
      _ = E % 2 ^ (n + (L - k)) := by rw [h, hE, pow_add 2 n (L - k), Nat.mod_mul_right_mod]

namespace Reader

/-- The bits that are left. -/
def left (s : Reader) : Nat := 8 * s.elen + s.accLen

/-- What is left is the low part of the exponent `E`. -/
structure Reads (E : Nat) (s : Reader) : Prop where
  room : s.accLen ≤ 12
  inside : s.elen ≤ s.e.length
  value : s.acc.toNat % 2 ^ s.accLen * 2 ^ (8 * s.elen) + exponent s.e s.elen = E % 2 ^ s.left

theorem reads_start {e : List Byte} {elen : Nat} (he : elen ≤ e.length) :
    Reads (exponent e elen) ⟨0, 0, e, elen⟩ where
  room := Nat.zero_le _
  inside := he
  value := by
    have hlt := exponent_lt he
    rw [mul_comm] at hlt
    rw [pow_zero, Nat.mod_one, zero_mul, zero_add]
    exact (Nat.mod_eq_of_lt hlt).symm

/-- Taking bits of the accumulator. -/
theorem Reads.take {E : Nat} {s : Reader} (h : s.Reads E) {k : Nat} (hk : k ≤ s.accLen) :
    ((s.acc >>> (s.accLen - k)) &&& (((1 : Word) <<< k) - 1)).toNat = E / 2 ^ (s.left - k) % 2 ^ k ∧
      Reads E { s with accLen := s.accLen - k } := by
  have hroom := h.room
  have hlt := exponent_lt h.inside
  rw [mul_comm] at hlt
  obtain ⟨hbits, hrest⟩ := split_bits hlt hk h.value
  have hleft : s.left - k = 8 * s.elen + (s.accLen - k) := by
    rw [left]
    omega
  refine ⟨?_, (Nat.sub_le _ _).trans hroom, h.inside, hrest⟩
  rw [toNat_lowBits _ (by omega), BitVec.toNat_ushiftRight, Nat.shiftRight_eq_div_pow, hbits, hleft]

/-- Reading one more byte. -/
theorem Reads.refill {E : Nat} {acc : Word} {accLen elen : Nat} {b : Byte} {e : List Byte}
    (h : Reads E ⟨acc, accLen, b :: e, elen + 1⟩) (hroom : accLen ≤ 4) :
    Reads E ⟨(acc <<< 8) ||| b.setWidth 32, accLen + 8, e, elen⟩ := by
  have hinside : elen ≤ e.length := Nat.le_of_succ_le_succ h.inside
  refine ⟨by show accLen + 8 ≤ 12; omega, hinside, ?_⟩
  have hvalue := h.value
  dsimp only [left] at hvalue ⊢
  have hacc : ((acc <<< 8) ||| b.setWidth 32).toNat % 2 ^ (accLen + 8) =
      acc.toNat % 2 ^ accLen * 2 ^ 8 + b.toNat := by
    have hb := b.isLt
    have hshift : (acc <<< 8).toNat = 2 ^ 8 * (acc.toNat % 2 ^ 24) := by
      rw [BitVec.toNat_shiftLeft, Nat.shiftLeft_eq]
      omega
    have hwide : (b.setWidth 32 : Word).toNat = b.toNat := by
      rw [BitVec.toNat_setWidth]
      omega
    have hor : 2 ^ 8 * (acc.toNat % 2 ^ 24) ||| b.toNat = 2 ^ 8 * (acc.toNat % 2 ^ 24) + b.toNat :=
      (Nat.two_pow_add_eq_or_of_lt hb _).symm
    have hdvd : 2 ^ accLen ∣ 2 ^ 24 := pow_dvd_pow 2 (by omega)
    rw [BitVec.toNat_or, hshift, hwide, hor, pow_add, mul_comm (2 ^ accLen), Nat.mod_mul,
      Nat.mul_add_mod, Nat.mod_eq_of_lt hb, Nat.mul_add_div (by decide), Nat.div_eq_of_lt hb,
      add_zero, Nat.mod_mod_of_dvd _ hdvd]
    ring
  rw [exponent_cons b hinside] at hvalue
  have hleft : 8 * elen + (accLen + 8) = 8 * (elen + 1) + accLen := by omega
  rw [hacc, hleft, ← hvalue]
  ring

/-- **The next window.** -/
theorem next_eq {E winLen : Nat} {s : Reader} (h : s.Reads E) (hpos : 1 ≤ winLen)
    (hfive : winLen ≤ 5) :
    ∃ bits s', s.next winLen = some (min winLen s.left, bits, s') ∧
      bits.toNat = E / 2 ^ (s.left - winLen) % 2 ^ min winLen s.left ∧
      s'.left = s.left - winLen ∧ s'.Reads E := by
  obtain ⟨acc, accLen, e, elen⟩ := s
  have hstep {s : Reader} (h : s.Reads E) {k : Nat} (hk : k ≤ s.accLen)
      (hmin : k = min winLen s.left) :
      ((s.acc >>> (s.accLen - k)) &&& (((1 : Word) <<< k) - 1)).toNat =
          E / 2 ^ (s.left - winLen) % 2 ^ min winLen s.left ∧
        left { s with accLen := s.accLen - k } = s.left - winLen ∧
        Reads E { s with accLen := s.accLen - k } := by
    obtain ⟨hbits, hreads⟩ := h.take hk
    have hleft : s.left - k = s.left - winLen := by omega
    refine ⟨by rw [hbits, hleft, hmin], ?_, hreads⟩
    rw [← hleft, left, left]
    dsimp only
    omega
  by_cases hshort : accLen < winLen
  · cases elen with
    | zero =>
      obtain ⟨hbits, hleft, hreads⟩ := hstep h (le_refl accLen) (by simp only [left]; omega)
      refine ⟨_, _, ?_, hbits, hleft, hreads⟩
      have hmin : min winLen (left ⟨acc, accLen, e, 0⟩) = accLen := by simp only [left]; omega
      simp only [next, if_pos hshort, lt_irrefl, if_false, Option.bind_eq_bind, Option.bind_some,
        Option.pure_def, hmin]
    | succ elen =>
      cases e with
      | nil => exact absurd h.inside (Nat.not_succ_le_zero elen)
      | cons b e =>
        have hfull := h.refill (by omega : accLen ≤ 4)
        have hsame : left ⟨(acc <<< 8) ||| b.setWidth 32, accLen + 8, e, elen⟩ =
            left ⟨acc, accLen, b :: e, elen + 1⟩ := by simp only [left]; omega
        have hmin : winLen = min winLen (left ⟨acc, accLen, b :: e, elen + 1⟩) := by
          simp only [left]
          omega
        obtain ⟨hbits, hleft, hreads⟩ := hstep hfull (by dsimp only; omega) (hsame ▸ hmin)
        rw [hsame] at hbits hleft
        refine ⟨_, _, ?_, hbits, hleft, hreads⟩
        simp only [next, if_pos hshort, Nat.succ_pos, if_true, Option.bind_eq_bind,
          Option.bind_some, Option.pure_def, Nat.add_sub_cancel, ← hmin]
  · have hmin : winLen = min winLen (left ⟨acc, accLen, e, elen⟩) := by simp only [left]; omega
    obtain ⟨hbits, hleft, hreads⟩ := hstep h (Nat.le_of_not_lt hshort) hmin
    refine ⟨_, _, ?_, hbits, hleft, hreads⟩
    simp only [next, if_neg hshort, Option.bind_eq_bind, Option.bind_some, Option.pure_def, ← hmin]

end Reader
end MicroSampler.BearSSL
