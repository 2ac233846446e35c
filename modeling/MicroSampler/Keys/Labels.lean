import MicroSampler.BearSSL.HexInput
import MicroSampler.BearSSL.Modpow
import MicroSampler.Library.Loops
import MicroSampler.Library.Python

/-!
# Class labels and the exponent bits they stand for

`stats.py` labels the recorded rounds with the bits of the key text: it expands hex
digits to four characters each, reverses the whole string and cuts it into windows. The
exponentiation reads the decoded bytes from the last one backwards and each byte from
its least significant bit. With one label for each round of a full trace the two orders
are the same.
-/

namespace MicroSampler.Keys

open Radix Python Loops BearSSL

abbrev Label := List Char

/-- The list `key` of `stats.py`, from the text of the key file and the number of
recorded iterations. A missing or malformed digit raises. -/
def decodeKey (keyhex : List Char) (loops window : Nat) : Option (List Label) := do
  let digits ← (List.range (roundDiv (loops * window) 4)).mapM fun c => do
    let v ← intHexChar (← keyhex[c]?)
    pure (format04b v)
  slices window digits.flatten.reverse

/-- `blen = (iters + 7) >> 3` in the test programs. -/
def keyBytes (iters : Nat) : Nat := (iters + 7) >>> 3

/-- The labels of a full trace: the key string read backwards, one character each. -/
theorem decodeKey_full {keyhex : List Char} {n : Nat} {vals : Nat → Nat}
    (hvals : ∀ c < 2 * n, keyhex[c]?.bind intHexChar = some (vals c))
    (hsmall : ∀ c < 2 * n, vals c < 16) :
    decodeKey keyhex (8 * n) 1 = some
      (((List.range (2 * n)).flatMap fun c => (msbBits 4 (vals c)).map bitChar).reverse.map
        fun a => [a]) := by
  have hround : roundDiv (8 * n * 1) 4 = 2 * n := by
    rw [show 8 * n * 1 = 4 * (2 * n) by omega, roundDiv_mul (by decide)]
  have hdigits : (List.range (2 * n)).mapM (fun c => do
      let v ← intHexChar (← keyhex[c]?)
      pure (format04b v)) =
        some ((List.range (2 * n)).map fun c => (msbBits 4 (vals c)).map bitChar) := by
    apply mapM_eq_some_map
    intro c hc
    have hlt := List.mem_range.mp hc
    obtain ⟨ch, hch, hval⟩ := Option.bind_eq_some_iff.mp (hvals c hlt)
    simp [hch, hval, format04b_of_lt (hsmall c hlt)]
  rw [decodeKey, hround, hdigits, Option.bind_eq_bind, Option.bind_some, slices_one,
    List.flatMap_def]

/-- Bit `k & 7` of the byte that round `k` reads is the character of round `k` in the
reversed key string. -/
theorem reversed_key_bit {n : Nat} {vals : Nat → Nat} (hsmall : ∀ c < 2 * n, vals c < 16)
    {k : Nat} (hk : k < 8 * n) :
    (((List.range (2 * n)).flatMap fun c => (msbBits 4 (vals c)).map bitChar).reverse)[k]? =
      some (bitChar ((16 * vals (2 * (n - 1 - k / 8)) + vals (2 * (n - 1 - k / 8) + 1)).testBit
        (k % 8))) := by
  have hblock : ∀ c ∈ List.range (2 * n), ((msbBits 4 (vals c)).map bitChar).length = 4 := by
    simp
  have hlen : ((List.range (2 * n)).flatMap
      fun c => (msbBits 4 (vals c)).map bitChar).length = 8 * n := by
    rw [length_flatMap_block hblock, List.length_range]
    omega
  rw [List.getElem?_reverse (by omega), hlen]
  -- counted from the front this is bit `3 - k % 4` of digit `2 * n - 1 - k / 4`
  rw [show 8 * n - 1 - k = 4 * (2 * n - 1 - k / 4) + (3 - k % 4) by omega,
    getElem?_flatMap_block hblock (by omega), List.getElem?_range (by omega), Option.bind_some,
    List.getElem?_map, getElem?_msbBits _ (by omega), Option.map_some]
  have hlow := hsmall (2 * (n - 1 - k / 8) + 1) (by omega)
  have hsplit := Nat.testBit_two_pow_mul_add (vals (2 * (n - 1 - k / 8)))
    (show vals (2 * (n - 1 - k / 8) + 1) < 2 ^ 4 from hlow) (k % 8)
  rw [show 16 * vals (2 * (n - 1 - k / 8)) + vals (2 * (n - 1 - k / 8) + 1) =
    2 ^ 4 * vals (2 * (n - 1 - k / 8)) + vals (2 * (n - 1 - k / 8) + 1) by rfl, hsplit]
  split
  · rw [show 2 * n - 1 - k / 4 = 2 * (n - 1 - k / 8) + 1 by omega,
      show 4 - 1 - (3 - k % 4) = k % 8 by omega]
  · rw [show 2 * n - 1 - k / 4 = 2 * (n - 1 - k / 8) by omega,
      show 4 - 1 - (3 - k % 4) = k % 8 - 4 by omega]

/-- The control bit of a round, read from the decoded byte. -/
theorem modpowCtl_of_byte {e : List Byte} {elen k v : Nat} (hv : v < 256)
    (h : e[elen - 1 - (k >>> 3)]? = some (BitVec.ofNat 8 v)) :
    modpowCtl e elen k = some (if v.testBit (k % 8) then 1 else 0) := by
  rw [modpowCtl, h, Option.map_some]
  congr 1
  apply BitVec.eq_of_toNat_eq
  rw [BitVec.toNat_and, BitVec.toNat_ushiftRight, BitVec.toNat_setWidth, BitVec.toNat_ofNat,
    show BitVec.toNat (1 : Word) = 2 ^ 1 - 1 from rfl, Nat.and_two_pow_sub_one_eq_mod,
    show k &&& 7 = k % 8 from Nat.and_two_pow_sub_one_eq_mod k 3, Nat.testBit_eq_decide_div_mod_eq,
    Nat.shiftRight_eq_div_pow, Nat.mod_eq_of_lt (by omega : v % 2 ^ 8 < 2 ^ 32),
    Nat.mod_eq_of_lt (by omega : v < 2 ^ 8)]
  rcases Nat.mod_two_eq_zero_or_one (v / 2 ^ (k % 8)) with h | h <;> simp [h]

theorem modpowRounds_eq {n : Nat} (hn : n ≤ 128) : modpowRounds n = 8 * n := by
  rw [modpowRounds, BitVec.toNat_shiftLeft, BitVec.toNat_ofNat, Nat.shiftLeft_eq]
  omega

/-- **Labels are exponent bits.** For a trace with all rounds of the exponentiation,
window one and a key text of at least `2 * blen` hexadecimal digits, `stats.py` builds
one label for each round, and the label of round `k` is the printed control bit that
the round computes from the array `str2hex` decodes from the same text. -/
theorem label_eq_ctl {iters : Nat} (hblen : keyBytes iters ≤ 128) {keyhex tail : List Char}
    (hlen : 2 * keyBytes iters ≤ keyhex.length)
    (hhex : ∀ c ∈ keyhex.take (2 * keyBytes iters), IsHexDigit c)
    {keyval e : List Byte} (hkeyval : keyval.length = 128)
    (he : str2hex (keyhex ++ nul :: tail) keyval 128 = some e) :
    modpowRounds (keyBytes iters) = 8 * keyBytes iters ∧
    ∃ key, decodeKey keyhex (8 * keyBytes iters) 1 = some key ∧
      key.length = 8 * keyBytes iters ∧
      ∀ k < 8 * keyBytes iters, ∃ ctl, modpowCtl e (keyBytes iters) k = some ctl ∧
        key[k]? = some (Nat.toDigits 10 ctl.toNat) := by
  refine ⟨modpowRounds_eq hblen, ?_⟩
  generalize keyBytes iters = n at hblen hlen hhex ⊢
  let vals : Nat → Nat := fun c => ((keyhex[c]?).bind hexVal?).getD 0
  have hget : ∀ c, c < 2 * n → ∃ ch, keyhex[c]? = some ch ∧ hexVal? ch = some (vals c) := by
    intro c hc
    have hin : c < keyhex.length := by omega
    have hmem : keyhex[c] ∈ keyhex.take (2 * n) :=
      List.mem_take_iff_getElem.mpr ⟨c, by omega, rfl⟩
    obtain ⟨v, hv⟩ := Option.isSome_iff_exists.mp (hhex _ hmem)
    refine ⟨keyhex[c], List.getElem?_eq_getElem hin, ?_⟩
    simp [vals, List.getElem?_eq_getElem hin, hv]
  have hsmall : ∀ c < 2 * n, vals c < 16 := by
    intro c hc
    obtain ⟨ch, -, hval⟩ := hget c hc
    exact hexVal?_lt hval
  have hkey := @decodeKey_full keyhex n vals (fun c hc => by
    obtain ⟨ch, hch, hval⟩ := hget c hc
    rw [hch, Option.bind_some]
    exact hval) hsmall
  refine ⟨_, hkey, ?_, ?_⟩
  · rw [List.length_map, List.length_reverse, length_flatMap_block (w := 4) (by simp),
      List.length_range]
    omega
  · intro k hk
    have hj : 2 * (n - 1 - k / 8) + 1 < 2 * n := by omega
    obtain ⟨c0, hc0, hv0⟩ := hget (2 * (n - 1 - k / 8)) (by omega)
    obtain ⟨c1, hc1, hv1⟩ := hget (2 * (n - 1 - k / 8) + 1) hj
    have hbyte := str2hex_byte (n - 1 - k / 8) he (by omega) (by omega)
      ((List.getElem?_append_left (by omega)).trans hc0)
      ((List.getElem?_append_left (by omega)).trans hc1) hv0 hv1
    have h0 := hsmall (2 * (n - 1 - k / 8)) (by omega)
    have h1 := hsmall (2 * (n - 1 - k / 8) + 1) hj
    refine ⟨_, modpowCtl_of_byte (v := 16 * vals (2 * (n - 1 - k / 8)) +
      vals (2 * (n - 1 - k / 8) + 1)) (by omega) ?_, ?_⟩
    · rw [show k >>> 3 = k / 8 from Nat.shiftRight_eq_div_pow k 3]
      exact hbyte
    · rw [List.getElem?_map, reversed_key_bit hsmall hk, Option.map_some]
      cases Nat.testBit _ (k % 8) <;> rfl

theorem label_eq_ctl_b1 :
    ∃ key, decodeKey (List.replicate 128 ['b', '1']).flatten 8 1 = some key ∧
      key.length = 8 ∧
      ∀ k < 8, ∃ ctl, modpowCtl (List.replicate 128 0xb1) 1 k = some ctl ∧
        key[k]? = some (Nat.toDigits 10 ctl.toNat) :=
  (@label_eq_ctl 8 (by decide) (List.replicate 128 ['b', '1']).flatten []
    (by decide +kernel) (List.all_iff_forall_prop.mp (by decide +kernel))
    (List.replicate 128 0) (List.replicate 128 0xb1) List.length_replicate (by decide +kernel)).2

end MicroSampler.Keys
