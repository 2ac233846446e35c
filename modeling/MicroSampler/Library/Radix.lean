import Mathlib.Data.Bool.AllAny
import Mathlib.Data.List.Basic
import Mathlib.Data.List.Induction
import Mathlib.Data.Nat.Bits
import Mathlib.Tactic.Ring

/-!
# Bit strings and digit strings

Numbers written most significant bit first, the numbers these strings denote, and
hexadecimal texts read four bits at a time. Nothing below fixes a width: the
lemmas relate a string to its value, a concatenation to the values of its parts, and a
position in a list of equally long blocks to a block and an offset.
-/

namespace MicroSampler.Radix

/-! ## Bits, most significant first -/

/-- The `w` low bits of `n`, most significant first. -/
def msbBits (w n : Nat) : List Bool :=
  (List.range w).map fun i => n.testBit (w - 1 - i)

/-- The number a bit string denotes when its first bit is the most significant. -/
def ofMsb (bits : List Bool) : Nat :=
  bits.foldl (fun acc b => 2 * acc + b.toNat) 0

@[simp] theorem length_msbBits (w n : Nat) : (msbBits w n).length = w := by
  simp [msbBits]

theorem getElem?_msbBits {w i : Nat} (n : Nat) (hi : i < w) :
    (msbBits w n)[i]? = some (n.testBit (w - 1 - i)) := by
  simp [msbBits, List.getElem?_range hi]

@[simp] theorem ofMsb_nil : ofMsb [] = 0 := rfl

theorem ofMsb_concat (bits : List Bool) (b : Bool) :
    ofMsb (bits ++ [b]) = 2 * ofMsb bits + b.toNat := by
  simp [ofMsb, List.foldl_append]

theorem ofMsb_append (front back : List Bool) :
    ofMsb (front ++ back) = ofMsb front * 2 ^ back.length + ofMsb back := by
  induction back using List.reverseRecOn with
  | nil => simp
  | append_singleton back b ih =>
    rw [← List.append_assoc, ofMsb_concat, ih, ofMsb_concat, List.length_append,
      List.length_singleton, Nat.pow_succ]
    ring

theorem ofMsb_lt (bits : List Bool) : ofMsb bits < 2 ^ bits.length := by
  induction bits using List.reverseRecOn with
  | nil => simp
  | append_singleton bits b ih =>
    rw [ofMsb_concat, List.length_append, List.length_singleton, Nat.pow_succ]
    have := Bool.toNat_lt b
    omega

/-- Bit `i` counted from the least significant end is the `i`-th entry from the back. -/
theorem testBit_ofMsb {bits : List Bool} {i : Nat} (hi : i < bits.length) :
    bits[bits.length - 1 - i]? = some ((ofMsb bits).testBit i) := by
  induction bits using List.reverseRecOn generalizing i with
  | nil => simp at hi
  | append_singleton bits b ih =>
    rw [ofMsb_concat]
    cases i with
    | zero => cases b <;> simp [Nat.testBit_zero, Nat.add_mod]
    | succ i =>
      simp only [List.length_append, List.length_singleton] at hi ⊢
      have hhalf : (2 * ofMsb bits + b.toNat) / 2 = ofMsb bits := by
        have := Bool.toNat_lt b
        omega
      rw [Nat.testBit_succ, hhalf, List.getElem?_append_left (by omega),
        show bits.length + 1 - 1 - (i + 1) = bits.length - 1 - i by omega]
      exact ih (by omega)

theorem ofMsb_pos_of_mem {bits : List Bool} (ht : true ∈ bits) : 0 < ofMsb bits := by
  induction bits using List.reverseRecOn with
  | nil => simp at ht
  | append_singleton bits b ih =>
    rw [ofMsb_concat]
    rcases List.mem_append.mp ht with ht | ht
    · have := ih ht
      omega
    · rw [← List.mem_singleton.mp ht]
      simp

/-! ## Lists of equally long blocks -/

/-- Entry `w * i + j` of a concatenation of blocks of length `w` is entry `j` of
block `i`. -/
theorem getElem?_flatMap_block {α β : Type} {f : α → List β} {w : Nat} {l : List α}
    (hf : ∀ a ∈ l, (f a).length = w) {i j : Nat} (hj : j < w) :
    (l.flatMap f)[w * i + j]? = l[i]?.bind fun a => (f a)[j]? := by
  induction l generalizing i with
  | nil => simp
  | cons a l ih =>
    have ha : (f a).length = w := hf a (by simp)
    rw [List.flatMap_cons]
    cases i with
    | zero =>
      rw [Nat.mul_zero, Nat.zero_add, List.getElem?_append_left (by omega)]
      simp
    | succ i =>
      rw [List.getElem?_append_right (by rw [ha, Nat.mul_succ]; omega), ha,
        show w * (i + 1) + j - w = w * i + j by rw [Nat.mul_succ]; omega,
        ih (fun b hb => hf b (by simp [hb]))]
      simp

theorem length_flatMap_block {α β : Type} {f : α → List β} {w : Nat} {l : List α}
    (hf : ∀ a ∈ l, (f a).length = w) : (l.flatMap f).length = w * l.length := by
  induction l with
  | nil => simp
  | cons a l ih =>
    rw [List.flatMap_cons, List.length_append, hf a (by simp),
      ih (fun b hb => hf b (by simp [hb])), List.length_cons]
    ring

/-- Cutting a list into blocks of length `w` and concatenating them gives it back. -/
theorem flatMap_blocks {α : Type} (w m : Nat) (l : List α) (hl : l.length = w * m) :
    (List.range m).flatMap (fun i => (l.drop (w * i)).take w) = l := by
  induction m generalizing l with
  | zero =>
    have : l = [] := List.length_eq_zero_iff.mp (by simpa using hl)
    simp [this]
  | succ m ih =>
    rw [List.range_succ_eq_map, List.flatMap_cons, List.flatMap_map]
    have hrest : ((List.range m).flatMap fun i => (l.drop (w * (i + 1))).take w) = l.drop w := by
      rw [← ih (l.drop w) (by rw [List.length_drop, hl, Nat.mul_succ]; omega)]
      congr 1
      funext i
      rw [List.drop_drop, Nat.mul_succ, Nat.add_comm]
    rw [hrest, Nat.mul_zero, List.drop_zero, List.take_append_drop]

theorem getElem?_flatten_block {α : Type} {w : Nat} {blocks : List (List α)}
    (hblocks : ∀ b ∈ blocks, b.length = w) (i : Nat) {j : Nat} (hj : j < w) :
    blocks.flatten[w * i + j]? = blocks[i]?.bind (·[j]?) := by
  have h := getElem?_flatMap_block (f := id) (l := blocks) (i := i) hblocks hj
  simpa using h

theorem length_flatten_block {α : Type} {w : Nat} {blocks : List (List α)}
    (hblocks : ∀ b ∈ blocks, b.length = w) : blocks.flatten.length = w * blocks.length := by
  have h := length_flatMap_block (f := id) (l := blocks) hblocks
  simpa using h

/-- A list whose length is a multiple of `w` is a concatenation of blocks. -/
theorem exists_blocks {α : Type} {w m : Nat} {l : List α} (hl : l.length = w * m) :
    ∃ blocks : List (List α), (∀ b ∈ blocks, b.length = w) ∧ blocks.length = m ∧
      blocks.flatten = l := by
  refine ⟨(List.range m).map fun i => (l.drop (w * i)).take w, ?_, by simp, ?_⟩
  · intro b hb
    obtain ⟨i, hi, rfl⟩ := List.mem_map.mp hb
    have hroom : w * (i + 1) ≤ w * m := Nat.mul_le_mul_left w (List.mem_range.mp hi)
    rw [Nat.mul_succ] at hroom
    rw [List.length_take, List.length_drop]
    omega
  · rw [← List.flatMap_def]
    exact flatMap_blocks w m l hl

/-! ## Hexadecimal texts -/

/-- The value of a hexadecimal digit of either case. -/
def hexVal? (c : Char) : Option Nat :=
  if '0' ≤ c ∧ c ≤ '9' then some (c.toNat - 48)
  else if 'a' ≤ c ∧ c ≤ 'f' then some (c.toNat - 87)
  else if 'A' ≤ c ∧ c ≤ 'F' then some (c.toNat - 55)
  else none

def IsHexDigit (c : Char) : Prop := (hexVal? c).isSome

instance (c : Char) : Decidable (IsHexDigit c) :=
  inferInstanceAs (Decidable ((hexVal? c).isSome = true))

theorem hexVal?_digitChar {d : Nat} (hd : d < 16) : hexVal? d.digitChar = some d := by
  have h : ∀ d, d < 16 → hexVal? (Nat.digitChar d) = some d := by decide
  exact h d hd

theorem hexVal?_lt {c : Char} {d : Nat} (h : hexVal? c = some d) : d < 16 := by
  unfold hexVal? at h
  split at h
  · rename_i hc
    have h9 : c.toNat ≤ 57 := hc.2
    cases h
    omega
  · split at h
    · rename_i hc
      have hf : c.toNat ≤ 102 := hc.2
      cases h
      omega
    · split at h
      · rename_i hc
        have hf : c.toNat ≤ 70 := hc.2
        cases h
        omega
      · cases h

/-- The digits of a number whose bits come in groups of four, the first group not
zero: one digit for each group. -/
theorem toDigits_ofMsb_blocks {head : List Bool} {groups : List (List Bool)}
    (hhead : head.length = 4) (hnz : true ∈ head) (hgroups : ∀ g ∈ groups, g.length = 4) :
    Nat.toDigits 16 (ofMsb (head ++ groups.flatten)) =
      (head :: groups).map fun g => (ofMsb g).digitChar := by
  induction groups using List.reverseRecOn with
  | nil =>
    have hlt : ofMsb head < 16 := by
      have := ofMsb_lt head
      rwa [hhead] at this
    simp [Nat.toDigits_of_lt_base hlt]
  | append_singleton groups g ih =>
    have hg : g.length = 4 := hgroups g (by simp)
    have hlt : ofMsb g < 16 := by
      have := ofMsb_lt g
      rwa [hg] at this
    have hpos : 0 < ofMsb (head ++ groups.flatten) :=
      ofMsb_pos_of_mem (List.mem_append_left _ hnz)
    have hval : ofMsb (head ++ (groups ++ [g]).flatten) =
        16 * ofMsb (head ++ groups.flatten) + ofMsb g := by
      rw [List.flatten_append, List.flatten_singleton, ← List.append_assoc, ofMsb_append, hg]
      ring
    rw [hval, ← Nat.toDigits_append_toDigits (by decide) hpos hlt,
      ih (fun x hx => hgroups x (by simp [hx])), Nat.toDigits_of_lt_base hlt]
    simp

/-- The first digit of a positive number is not zero. -/
theorem toDigits_head_ne_zero {b n : Nat} (hb : 1 < b) (hn : 0 < n) :
    ∃ d rest, Nat.toDigits b n = Nat.digitChar d :: rest ∧ 0 < d ∧ d < b := by
  induction n using Nat.strongRecOn with
  | ind n ih =>
    by_cases hlt : n < b
    · exact ⟨n, [], Nat.toDigits_of_lt_base hlt, hn, hlt⟩
    · obtain ⟨d, rest, hd, hpos, hsmall⟩ :=
        ih (n / b) (Nat.div_lt_self hn hb) (Nat.div_pos (Nat.le_of_not_lt hlt) (by omega))
      refine ⟨d, rest ++ [Nat.digitChar (n % b)], ?_, hpos, hsmall⟩
      rw [Nat.toDigits_of_base_le hb (Nat.le_of_not_lt hlt), hd, List.cons_append]

theorem isHexDigit_of_mem_toDigits {n : Nat} {c : Char} (hc : c ∈ Nat.toDigits 16 n) :
    IsHexDigit c := by
  induction n using Nat.strongRecOn with
  | ind n ih =>
    rw [Nat.toDigits_eq_if (by decide)] at hc
    split at hc
    · rename_i hlt
      rw [List.mem_singleton.mp hc]
      simp [IsHexDigit, hexVal?_digitChar hlt]
    · rcases List.mem_append.mp hc with hc | hc
      · exact ih (n / 16) (by omega) hc
      · rw [List.mem_singleton.mp hc]
        simp [IsHexDigit, hexVal?_digitChar (Nat.mod_lt n (by decide : 0 < 16))]

/-- A positive number below `2 ^ w` has one of its `w` low bits set. -/
theorem exists_testBit_of_pos {w d : Nat} (hd : 0 < d) (hw : d < 2 ^ w) :
    ∃ i, i < w ∧ d.testBit i = true := by
  obtain ⟨i, hi⟩ := Nat.exists_testBit_of_ne_zero (by omega : d ≠ 0)
  refine ⟨i, ?_, hi⟩
  by_contra hge
  have hlt : d < 2 ^ i := hw.trans_le (Nat.pow_le_pow_right (by decide) (by omega))
  rw [Nat.testBit_lt_two_pow hlt] at hi
  cases hi

end MicroSampler.Radix
