import Mathlib.Tactic.SplitIfs
import MicroSampler.Keys.Labels

/-!
# Labels of truncated traces

The number of recorded iterations decides how many hexadecimal digits of the key `stats.py`
expands. The string is reversed afterwards, so the label of the first iteration is the last
bit of the last digit taken: the labels of a shorter trace are other bits of the key as soon
as it takes fewer digits.
-/

namespace MicroSampler.Keys

open Radix Python Loops

/-- The number of digits taken for a trace, window one. -/
def digitsTaken (loops : Nat) : Nat := roundDiv loops 4

/-- The bits of a text of hexadecimal digits. -/
def keyBits (keyhex : List Char) : List Bool :=
  keyhex.flatMap fun c => msbBits 4 ((hexVal? c).getD 0)

/-- The labels of `short` iterations are the first labels of `long` iterations, and each of
the iterations has one. -/
def LabelsStable (keyhex : List Char) (short long : Nat) : Prop :=
  ∃ key key', decodeKey keyhex short 1 = some key ∧ decodeKey keyhex long 1 = some key' ∧
    short ≤ key.length ∧ key.take short = key'.take short

/-- The last `k` bits of the first `n` digits. -/
def lastBits (keyhex : List Char) (n k : Nat) : List Bool :=
  ((keyBits keyhex).take (4 * n)).drop (4 * n - k)

theorem roundDiv_four_mono {m n : Nat} (h : m ≤ n) : roundDiv m 4 ≤ roundDiv n 4 := by
  unfold roundDiv
  dsimp only
  split_ifs <;> omega

theorem length_keyBits (keyhex : List Char) : (keyBits keyhex).length = 4 * keyhex.length := by
  apply length_flatMap_block
  simp

theorem keyBits_append (front back : List Char) :
    keyBits (front ++ back) = keyBits front ++ keyBits back := List.flatMap_append

theorem keyBits_take (keyhex : List Char) (n : Nat) :
    keyBits (keyhex.take n) = (keyBits keyhex).take (4 * n) := by
  by_cases hn : n ≤ keyhex.length
  · have hsize : (keyBits (keyhex.take n)).length = 4 * n := by
      rw [length_keyBits, List.length_take, Nat.min_eq_left hn]
    conv_rhs => rw [← List.take_append_drop n keyhex, keyBits_append, ← hsize]
    rw [List.take_left]
  · have hsize : (keyBits keyhex).length ≤ 4 * n := by
      rw [length_keyBits]
      omega
    rw [List.take_of_length_le (by omega), List.take_of_length_le hsize]

/-- The key list is the bits of the digits taken, read backwards. -/
theorem decodeKey_one {keyhex : List Char} (hhex : ∀ c ∈ keyhex, IsHexDigit c) {loops : Nat}
    (hlen : digitsTaken loops ≤ keyhex.length) :
    decodeKey keyhex loops 1 = some
      (((keyBits keyhex).take (4 * digitsTaken loops)).reverse.map fun b => [bitChar b]) := by
  have hdigits : (List.range (digitsTaken loops)).mapM (fun c => do
      let v ← intHexChar (← keyhex[c]?)
      pure (format04b v)) =
        some ((keyhex.take (digitsTaken loops)).map fun c =>
          (msbBits 4 ((hexVal? c).getD 0)).map bitChar) := by
    have hget : ∀ c ∈ List.range (digitsTaken loops), (do
        let v ← intHexChar (← keyhex[c]?)
        pure (format04b v)) =
          some ((msbBits 4 ((keyhex[c]?.bind hexVal?).getD 0)).map bitChar) := by
      intro c hc
      have hlt : c < keyhex.length := (List.mem_range.mp hc).trans_le hlen
      obtain ⟨v, hv⟩ := Option.isSome_iff_exists.mp (hhex _ (List.getElem_mem hlt))
      simp [List.getElem?_eq_getElem hlt, intHexChar, hv, format04b_of_lt (hexVal?_lt hv)]
    rw [mapM_eq_some_map hget]
    congr 1
    apply List.ext_getElem (by simp [hlen])
    intro c hc _
    have hlt : c < keyhex.length := by
      rw [List.length_map, List.length_range] at hc
      omega
    simp [List.getElem?_eq_getElem hlt]
  rw [decodeKey, Nat.mul_one, ← digitsTaken, hdigits, Option.bind_eq_bind, Option.bind_some,
    slices_one]
  have hflat : ((keyhex.take (digitsTaken loops)).map fun c =>
      (msbBits 4 ((hexVal? c).getD 0)).map bitChar).flatten =
        ((keyBits keyhex).take (4 * digitsTaken loops)).map bitChar := by
    rw [← keyBits_take, keyBits, List.flatMap_def, List.map_flatten, List.map_map]
    rfl
  rw [hflat, ← List.map_reverse, List.map_map]
  rfl

/-- There is a label for each iteration when the digits taken have as many bits. -/
theorem labels_take {keyhex : List Char} (hhex : ∀ c ∈ keyhex, IsHexDigit c) {loops : Nat}
    (hlen : digitsTaken loops ≤ keyhex.length) :
    ∃ key, decodeKey keyhex loops 1 = some key ∧ key.length = 4 * digitsTaken loops ∧
      ∀ k ≤ 4 * digitsTaken loops, key.take k =
        ((lastBits keyhex (digitsTaken loops) k).reverse.map fun b => [bitChar b]) := by
  have hsize : ((keyBits keyhex).take (4 * digitsTaken loops)).length =
      4 * digitsTaken loops := by
    rw [List.length_take, length_keyBits]
    omega
  refine ⟨_, decodeKey_one hhex hlen, ?_, ?_⟩
  · rw [List.length_map, List.length_reverse, hsize]
  · intro k hk
    rw [← List.map_take, List.take_reverse, hsize, lastBits]

theorem bitChar_label_injective : Function.Injective fun b => [bitChar b] := by
  intro a b h
  cases a <;> cases b <;> simp [bitChar] at h ⊢

/-- For one key text: the labels are stable when the digits taken have enough bits and the
last bits of the digits of the longer trace are those of the shorter one. -/
theorem labelsStable_iff_lastBits {keyhex : List Char} (hhex : ∀ c ∈ keyhex, IsHexDigit c)
    {short long : Nat} (hle : short ≤ long) (hlen : digitsTaken long ≤ keyhex.length) :
    LabelsStable keyhex short long ↔ short ≤ 4 * digitsTaken short ∧
      lastBits keyhex (digitsTaken short) short = lastBits keyhex (digitsTaken long) short := by
  have hmono : digitsTaken short ≤ digitsTaken long := roundDiv_four_mono hle
  obtain ⟨key, hkey, hsize, htake⟩ := labels_take hhex (hmono.trans hlen)
  obtain ⟨key', hkey', hsize', htake'⟩ := labels_take hhex hlen
  have hstable : LabelsStable keyhex short long ↔
      short ≤ 4 * digitsTaken short ∧ key.take short = key'.take short := by
    rw [← hsize]
    constructor
    · intro ⟨first, second, hfirst, hsecond, h⟩
      rw [hkey] at hfirst
      rw [hkey'] at hsecond
      cases hfirst
      cases hsecond
      exact h
    · intro h
      exact ⟨key, key', hkey, hkey', h⟩
  rw [hstable]
  apply and_congr_right
  intro hshort
  rw [htake short hshort, htake' short (by omega),
    (List.map_injective_iff.mpr bitChar_label_injective).eq_iff, List.reverse_inj]

/-- A key text of `n + 1` digits with one bit set, the last one. -/
def lastBitKey (n : Nat) : List Char := List.replicate n '0' ++ ['1']

theorem lastBitKey_hex (n : Nat) : ∀ c ∈ lastBitKey n, IsHexDigit c := by
  intro c hc
  rw [lastBitKey, List.mem_append, List.mem_replicate, List.mem_singleton] at hc
  obtain ⟨-, rfl⟩ | rfl := hc
  · decide
  · decide

theorem length_lastBitKey (n : Nat) : (lastBitKey n).length = n + 1 := by
  simp [lastBitKey]

theorem true_not_mem_lastBits {n m : Nat} (hm : m ≤ n) (k : Nat) :
    true ∉ lastBits (lastBitKey n) m k := by
  intro h
  have hmem := List.mem_of_mem_drop h
  rw [← keyBits_take, lastBitKey, List.take_append_of_le_length (by simpa using hm),
    List.take_replicate, keyBits, List.mem_flatMap] at hmem
  obtain ⟨c, hc, hbit⟩ := hmem
  rw [List.eq_of_mem_replicate hc] at hbit
  revert hbit
  decide

theorem true_mem_lastBits {n k : Nat} (hk : 0 < k) (hn : k ≤ 4 * (n + 1)) :
    true ∈ lastBits (lastBitKey n) (n + 1) k := by
  have hlast : (keyBits (lastBitKey n))[4 * n + 3]? = some true := by
    have hzeros : (keyBits (List.replicate n '0')).length = 4 * n := by
      rw [length_keyBits, List.length_replicate]
    rw [lastBitKey, keyBits_append, List.getElem?_append_right (by omega), hzeros,
      Nat.add_sub_cancel_left]
    rfl
  apply List.mem_of_getElem? (i := k - 1)
  rw [lastBits, List.getElem?_drop, List.getElem?_take_of_lt (by omega)]
  rw [show 4 * (n + 1) - k + (k - 1) = 4 * n + 3 by omega, hlast]

/-- **When labels are stable.** For one key text, when the digits taken for the shorter
trace have a bit for each iteration and these bits end both ranges of digits. For all key
texts, when the two traces take the same number of digits. -/
theorem labelsStable_iff {short long : Nat} (hle : short ≤ long) :
    (∀ keyhex : List Char, (∀ c ∈ keyhex, IsHexDigit c) → digitsTaken long ≤ keyhex.length →
      (LabelsStable keyhex short long ↔ short ≤ 4 * digitsTaken short ∧
        lastBits keyhex (digitsTaken short) short =
          lastBits keyhex (digitsTaken long) short)) ∧
    ((∀ keyhex : List Char, (∀ c ∈ keyhex, IsHexDigit c) → digitsTaken long ≤ keyhex.length →
      LabelsStable keyhex short long) ↔
        short ≤ 4 * digitsTaken short ∧ (short = 0 ∨ digitsTaken short = digitsTaken long)) := by
  refine ⟨fun keyhex hhex hlen => labelsStable_iff_lastBits hhex hle hlen, ?_, ?_⟩
  · intro h
    have hbits := (labelsStable_iff_lastBits (lastBitKey_hex (digitsTaken long - 1)) hle
      (by rw [length_lastBitKey]; omega)).mp (h _ (lastBitKey_hex _)
      (by rw [length_lastBitKey]; omega))
    refine ⟨hbits.1, ?_⟩
    by_contra hne
    rw [not_or] at hne
    have hmono : digitsTaken short ≤ digitsTaken long := roundDiv_four_mono hle
    -- the last bit of the longer range is set and no bit before it is
    have hset : true ∈ lastBits (lastBitKey (digitsTaken long - 1)) (digitsTaken long) short := by
      have := true_mem_lastBits (n := digitsTaken long - 1) (k := short) (by omega) (by omega)
      rwa [Nat.sub_add_cancel (by omega)] at this
    rw [← hbits.2] at hset
    exact true_not_mem_lastBits (by omega) _ hset
  · intro ⟨hshort, hsame⟩ keyhex hhex hlen
    rw [labelsStable_iff_lastBits hhex hle hlen]
    refine ⟨hshort, ?_⟩
    obtain rfl | hdigits := hsame
    · simp [lastBits]
    · rw [hdigits]

/-- Of the key `01` the only digit of a trace of four iterations is `0`, and the first label
of a trace of eight comes from `1`. -/
theorem labelsStable_iff_four_eight : 4 ≤ 8 ∧
    (LabelsStable ['0', '1'] 4 8 ↔ 4 ≤ 4 * digitsTaken 4 ∧
      lastBits ['0', '1'] (digitsTaken 4) 4 = lastBits ['0', '1'] (digitsTaken 8) 4) :=
  ⟨by decide, (labelsStable_iff (by decide)).1 _ (lastBitKey_hex 1) (by decide)⟩

/-- A trace of one iteration takes no digit and has no label, and the labels of a trace of
four iterations are not those of a trace of eight. -/
theorem labels_not_stable :
    ¬ LabelsStable ['0', '1'] 1 4 ∧ ¬ LabelsStable ['0', '1'] 4 8 := by
  constructor
  · intro ⟨key, key', hkey, _, hshort, _⟩
    have hnone : decodeKey ['0', '1'] 1 1 = some [] := by decide
    rw [hnone] at hkey
    cases hkey
    exact absurd hshort (by decide)
  · intro ⟨key, key', hkey, hkey', _, htake⟩
    have hfour : decodeKey ['0', '1'] 4 1 = some [['0'], ['0'], ['0'], ['0']] := by decide
    have height : decodeKey ['0', '1'] 8 1 =
        some [['1'], ['0'], ['0'], ['0'], ['0'], ['0'], ['0'], ['0']] := by decide
    rw [hfour] at hkey
    rw [height] at hkey'
    cases hkey
    cases hkey'
    exact absurd htake (by decide)

end MicroSampler.Keys
