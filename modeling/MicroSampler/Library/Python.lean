import MicroSampler.Library.Radix

/-!
# Python built-ins on integers and strings

The built-in functions the scripts call on numbers and texts, as the language
documents them. A string is a list of characters. A call that raises is `none`.
-/

namespace MicroSampler.Python

open Radix

/-- `round(n / d)`: the nearest integer, a tie going to the even neighbour. -/
def roundDiv (n d : Nat) : Nat :=
  let q := n / d
  let r := n % d
  if 2 * r < d then q
  else if d < 2 * r then q + 1
  else if q % 2 = 0 then q else q + 1

theorem roundDiv_mul {d : Nat} (hd : 0 < d) (q : Nat) : roundDiv (d * q) d = q := by
  simp [roundDiv, Nat.mul_div_cancel_left q hd, hd]

/-- `int(c, 16)` on a string of one character. -/
def intHexChar (c : Char) : Option Nat := hexVal? c

def bitChar (b : Bool) : Char := if b then '1' else '0'

@[simp] theorem bitChar_eq_one (b : Bool) : bitChar b = '1' ↔ b = true := by
  cases b <;> simp [bitChar]

/-- `'{:04b}'.format(v)`: the binary digits, padded with zeros to four characters. -/
def format04b (v : Nat) : List Char :=
  List.replicate (4 - (Nat.toDigits 2 v).length) '0' ++ Nat.toDigits 2 v

theorem format04b_of_lt {v : Nat} (hv : v < 16) :
    format04b v = (msbBits 4 v).map bitChar := by
  have h : ∀ v, v < 16 → format04b v = (msbBits 4 v).map bitChar := by decide
  exact h v hv

/-- `hex(n)` for a non-negative integer. -/
def hex (n : Nat) : List Char := '0' :: 'x' :: Nat.toDigits 16 n

/-- Decided over the characters of the text, and not over the whole of `Char`. -/
local instance decidableForallMem (p : Char → Prop) [DecidablePred p] (s : List Char) :
    Decidable (∀ c ∈ s, p c) := List.decidableBAll p s

/-- `int(s, 2)` on a string without blanks, sign or underscore: every other character
than a binary digit, and the empty string, raise. -/
def intBinary (s : List Char) : Option Nat :=
  if s ≠ [] ∧ ∀ c ∈ s, c = '0' ∨ c = '1' then some (ofMsb (s.map fun c => c = '1')) else none

theorem intBinary_map_bitChar {bits : List Bool} (h : bits ≠ []) :
    intBinary (bits.map bitChar) = some (ofMsb bits) := by
  have hdigits : ∀ c ∈ bits.map bitChar, c = '0' ∨ c = '1' := by
    intro c hc
    obtain ⟨b, -, rfl⟩ := List.mem_map.mp hc
    cases b <;> simp [bitChar]
  have hback : (bits.map bitChar).map (fun c => decide (c = '1')) = bits := by
    rw [List.map_map]
    conv_rhs => rw [← List.map_id bits]
    apply List.map_congr_left
    intro b _
    simp
  rw [intBinary, if_pos ⟨by simpa using h, hdigits⟩, hback]

/-- A string over the two binary digits is the printed form of a bit string. -/
theorem exists_bits_of_binary {s : List Char} (h : ∀ c ∈ s, c = '0' ∨ c = '1') :
    ∃ bits : List Bool, s = bits.map bitChar := by
  refine ⟨s.map fun c => c = '1', ?_⟩
  rw [List.map_map]
  conv_lhs => rw [← List.map_id s]
  apply List.map_congr_left
  intro c hc
  rcases h c hc with rfl | rfl <;> decide

/-- The value of a text of digits in a base up to sixteen; the empty text has none. -/
def digitsVal (base : Nat) (s : List Char) : Option Nat :=
  if s = [] then none
  else s.foldlM (fun n c => do
    let v ← hexVal? c
    if v < base then some (base * n + v) else none) 0

/-- `int(s)` on a text of digits and blanks: blanks around the digits are ignored. -/
def int (s : List Char) : Option Nat :=
  digitsVal 10 ((s.dropWhile (· = ' ')).reverse.dropWhile (· = ' ')).reverse

/-- `int(s, 16)` on a text over `[0-9a-fx]`: the digits may follow `0x`. -/
def intHex (s : List Char) : Option Nat :=
  match s with
  | '0' :: 'x' :: digits => digitsVal 16 digits
  | digits => digitsVal 16 digits

/-- The loop of `digitsVal` behind a value. -/
def digitsFrom (base n : Nat) (s : List Char) : Option Nat :=
  s.foldlM (fun n c => do
    let v ← hexVal? c
    if v < base then some (base * n + v) else none) n

theorem digitsVal_of_ne_nil {base : Nat} {s : List Char} (h : s ≠ []) :
    digitsVal base s = digitsFrom base 0 s := if_neg h

theorem digitsFrom_append (base n : Nat) (s t : List Char) :
    digitsFrom base n (s ++ t) = (digitsFrom base n s).bind fun m => digitsFrom base m t :=
  List.foldlM_append

theorem digitsFrom_singleton {v : Nat} (n : Nat) {c : Char} (hc : hexVal? c = some v) :
    digitsFrom 16 n [c] = some (16 * n + v) := by
  simp [digitsFrom, hc, hexVal?_lt hc]

/-- Hexadecimal digits have a value. -/
theorem exists_digitsVal {s : List Char} (hne : s ≠ []) (h : ∀ c ∈ s, IsHexDigit c) :
    ∃ v, digitsVal 16 s = some v := by
  rw [digitsVal_of_ne_nil hne]
  clear hne
  induction s using List.reverseRecOn with
  | nil => exact ⟨0, rfl⟩
  | append_singleton s c ih =>
    obtain ⟨m, hm⟩ := ih fun d hd => h d (List.mem_append_left _ hd)
    obtain ⟨v, hv⟩ := Option.isSome_iff_exists.mp (h c List.mem_concat_self)
    exact ⟨16 * m + v, by rw [digitsFrom_append, hm, Option.bind_some, digitsFrom_singleton m hv]⟩

theorem digitsVal_toDigits (n : Nat) : digitsVal 16 (Nat.toDigits 16 n) = some n := by
  rw [digitsVal_of_ne_nil Nat.toDigits_ne_nil]
  induction n using Nat.strongRecOn with
  | ind n ih =>
    by_cases hlt : n < 16
    · rw [Nat.toDigits_of_lt_base hlt, digitsFrom_singleton 0 (hexVal?_digitChar hlt)]
      simp
    · have hmod := hexVal?_digitChar (Nat.mod_lt n (by decide : 0 < 16))
      rw [Nat.toDigits_of_base_le (by decide) (Nat.le_of_not_lt hlt), digitsFrom_append,
        ih (n / 16) (by omega), Option.bind_some, digitsFrom_singleton _ hmod,
        Nat.div_add_mod]

theorem intHex_of_digits {s : List Char} (h : ∀ c ∈ s, IsHexDigit c) :
    intHex s = digitsVal 16 s := by
  unfold intHex
  split
  · exact absurd (h 'x' (by simp)) (by decide)
  · rfl

/-! ## Sequences -/

/-- `range(start, stop)`. -/
def range (start stop : Int) : List Int :=
  (List.range (stop - start).toNat).map fun k => start + k

theorem range_eq_map (start : Int) (n : Nat) :
    range start (start + n) = (List.range n).map fun k : Nat => start + (k : Int) := by
  have hcast : (do let k ← List.range n; pure (k : Int)) =
      (List.range n).map fun k : Nat => (k : Int) :=
    (List.map_eq_flatMap).symm
  have hsize : (start + n - start).toNat = n := by omega
  rw [range, hsize, hcast, List.map_map]
  rfl

/-- `l[i]`: a negative index counts from the end, an index outside the list raises. -/
def index? {α : Type} (l : List α) (i : Int) : Option α :=
  if 0 ≤ i then l[i.toNat]? else if 0 ≤ l.length + i then l[(l.length + i).toNat]? else none

/-- The position a slice bound stands for in a list of length `len`. -/
def sliceBound (len : Nat) (i : Int) : Nat :=
  if 0 ≤ i then min i.toNat len else (len + i).toNat

/-- `l[start:stop]`. -/
def slice {α : Type} (l : List α) (start stop : Int) : List α :=
  (l.take (sliceBound l.length stop)).drop (sliceBound l.length start)

/-- `[s[x:x+step] for x in range(0, len(s), step)]`; a step of zero raises. -/
def slices {α : Type} (step : Nat) (s : List α) : Option (List (List α)) :=
  if step = 0 then none
  else some ((List.range ((s.length + step - 1) / step)).map fun j => (s.drop (j * step)).take step)

theorem slices_one {α : Type} (s : List α) : slices 1 s = some (s.map fun a => [a]) := by
  have h : (List.range s.length).map (fun j => (s.drop (j * 1)).take 1) = s.map fun a => [a] := by
    apply List.ext_getElem (by simp)
    intro i h1 h2
    simp only [List.length_map, List.length_range] at h1
    simp only [List.getElem_map, List.getElem_range, Nat.mul_one]
    rw [List.drop_eq_getElem_cons h1, List.take_succ_cons, List.take_zero]
  simp only [slices, Nat.succ_ne_zero, if_false, Nat.add_sub_cancel, Nat.div_one, h]

end MicroSampler.Python
