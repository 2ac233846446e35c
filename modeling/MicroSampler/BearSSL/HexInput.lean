import MicroSampler.Library.Radix
import MicroSampler.BearSSL.ConditionalCopy

/-!
# Reading the key argument: `str2hex`

`str2hex` converts the key text by one `sscanf(inp, "%2hhx", ..)` for each byte and
advances `inp` by two characters, whether or not there was anything to convert. The
text is the part of the argument's memory object from `inp` on, its terminator
included. A read outside the object is `none`.
-/

namespace MicroSampler.BearSSL

open Radix

/-- The character that ends a C string. -/
def nul : Char := Char.ofNat 0

def isSpace (c : Char) : Bool := c ∈ [' ', '\t', '\n', '\x0b', '\x0c', '\r']

/-- The item of `%2hhx` that starts at the first non-blank character: at most two
characters, a sign and the prefix `0x` counting among them. The inner `none` is a
failed conversion, which stores nothing. -/
def scanHexItem : List Char → Option (Option Byte)
  | [] => none
  | c :: rest =>
    if c = '+' ∨ c = '-' then
      match rest with
      | [] => none
      | d :: _ =>
        some ((hexVal? d).map fun v => if c = '-' then -BitVec.ofNat 8 v else BitVec.ofNat 8 v)
    else
      match hexVal? c with
      | none => some none
      | some v =>
        match rest with
        | [] => none
        | d :: _ =>
          match hexVal? d with
          | some w => some (some (BitVec.ofNat 8 (16 * v + w)))
          | none => some (some (BitVec.ofNat 8 v))

/-- `sscanf(inp, "%2hhx", &b)`: leading blanks are skipped. -/
def sscanf2hhx : List Char → Option (Option Byte)
  | [] => none
  | c :: rest => if isSpace c then sscanf2hhx rest else scanHexItem (c :: rest)

/-- The loop of `str2hex` from `buffer[count]` on, `remaining` bytes to go. -/
def str2hexFrom (inp : List Char) (buffer : List Byte) (count : Nat) :
    Nat → Option (List Byte)
  | 0 => some buffer
  | remaining + 1 =>
    match sscanf2hhx inp with
    | none => none
    | some none => str2hexFrom (inp.drop 2) buffer (count + 1) remaining
    | some (some b) => str2hexFrom (inp.drop 2) (buffer.set count b) (count + 1) remaining

def str2hex (inp : List Char) (buffer : List Byte) (bufsize : Nat) : Option (List Byte) :=
  str2hexFrom inp buffer 0 bufsize

theorem isSpace_of_hexDigit {c : Char} (h : IsHexDigit c) : isSpace c = false := by
  by_contra hs
  have hblank : ∀ c ∈ [' ', '\t', '\n', '\x0b', '\x0c', '\r'], ¬ IsHexDigit c :=
    List.all_iff_forall_prop.mp (by decide)
  exact hblank c (by simpa only [isSpace, decide_eq_true_eq, Bool.not_eq_false] using hs) h

/-- Two hexadecimal digits are one byte, the first digit its high half. -/
theorem sscanf2hhx_digits {c d : Char} {v w : Nat} (hc : hexVal? c = some v)
    (hd : hexVal? d = some w) (rest : List Char) :
    sscanf2hhx (c :: d :: rest) = some (some (BitVec.ofNat 8 (16 * v + w))) := by
  have hdigit : IsHexDigit c := by simp [IsHexDigit, hc]
  have hsign : ¬ (c = '+' ∨ c = '-') := by
    rintro (rfl | rfl) <;> revert hc <;> decide +revert
  simp [sscanf2hhx, isSpace_of_hexDigit hdigit, scanHexItem, hsign, hc, hd]

theorem length_of_str2hexFrom {inp : List Char} {buffer out : List Byte} {count n : Nat}
    (h : str2hexFrom inp buffer count n = some out) : out.length = buffer.length := by
  induction n generalizing inp buffer count with
  | zero =>
    have he : buffer = out := Option.some.inj h
    rw [he]
  | succ n ih =>
    unfold str2hexFrom at h
    split at h
    · cases h
    · exact ih h
    · simpa using ih h

/-- Bytes below the current position are final. -/
theorem str2hexFrom_frame {inp : List Char} {buffer out : List Byte} {count n i : Nat}
    (h : str2hexFrom inp buffer count n = some out) (hi : i < count) :
    out[i]? = buffer[i]? := by
  induction n generalizing inp buffer count with
  | zero =>
    have he : buffer = out := Option.some.inj h
    rw [he]
  | succ n ih =>
    unfold str2hexFrom at h
    split at h
    · cases h
    · exact ih h (by omega)
    · rw [ih h (by omega), List.getElem?_set_ne (by omega)]

/-- Where two digits stand at offset `2 * j`, the conversion stores their byte at
position `count + j`. -/
theorem str2hexFrom_byte {inp : List Char} {buffer out : List Byte} {count n j : Nat}
    {c d : Char} {v w : Nat} (h : str2hexFrom inp buffer count n = some out) (hj : j < n)
    (hlen : count + n ≤ buffer.length) (hc : inp[2 * j]? = some c)
    (hd : inp[2 * j + 1]? = some d) (hv : hexVal? c = some v) (hw : hexVal? d = some w) :
    out[count + j]? = some (BitVec.ofNat 8 (16 * v + w)) := by
  induction n generalizing inp buffer count j with
  | zero => omega
  | succ n ih =>
    cases j with
    | zero =>
      match inp, hc, hd with
      | x :: y :: rest, hc, hd =>
        have hx : x = c := by simpa using hc
        have hy : y = d := by simpa using hd
        subst hx hy
        rw [str2hexFrom, sscanf2hhx_digits hv hw] at h
        rw [Nat.add_zero, str2hexFrom_frame h (by omega), List.getElem?_set_self (by omega)]
    | succ j =>
      have hc' : (inp.drop 2)[2 * j]? = some c := by
        rw [List.getElem?_drop]
        exact (congrArg (inp[·]?) (by omega)).trans hc
      have hd' : (inp.drop 2)[2 * j + 1]? = some d := by
        rw [List.getElem?_drop]
        exact (congrArg (inp[·]?) (by omega)).trans hd
      unfold str2hexFrom at h
      rw [show count + (j + 1) = count + 1 + j by omega]
      split at h
      · cases h
      · exact ih h (by omega) (by omega) hc' hd'
      · exact ih h (by omega) (by simpa using (by omega : count + 1 + n ≤ buffer.length)) hc' hd'

/-- On a text with two digits for each byte the conversion stays inside the text. -/
theorem str2hexFrom_isSome {inp tail : List Char} {buffer : List Byte} {count n : Nat}
    (hlen : inp.length = 2 * n) (hhex : ∀ c ∈ inp, IsHexDigit c) :
    (str2hexFrom (inp ++ tail) buffer count n).isSome := by
  induction n generalizing inp buffer count with
  | zero => simp [str2hexFrom]
  | succ n ih =>
    match inp, hlen, hhex with
    | x :: y :: rest, hlen, hhex =>
      obtain ⟨v, hv⟩ := Option.isSome_iff_exists.mp (hhex x (by simp))
      obtain ⟨w, hw⟩ := Option.isSome_iff_exists.mp (hhex y (by simp))
      rw [List.cons_append, List.cons_append, str2hexFrom, sscanf2hhx_digits hv hw]
      exact ih (by simp only [List.length_cons] at hlen; omega) (fun c hc => hhex c (by simp [hc]))

/-! ## The whole conversion -/

theorem length_of_str2hex {inp : List Char} {buffer out : List Byte} {n : Nat}
    (h : str2hex inp buffer n = some out) : out.length = buffer.length :=
  length_of_str2hexFrom h

theorem str2hex_byte {inp : List Char} {buffer out : List Byte} {n : Nat} (j : Nat)
    {c d : Char} {v w : Nat} (h : str2hex inp buffer n = some out) (hj : j < n)
    (hlen : n ≤ buffer.length) (hc : inp[2 * j]? = some c) (hd : inp[2 * j + 1]? = some d)
    (hv : hexVal? c = some v) (hw : hexVal? d = some w) :
    out[j]? = some (BitVec.ofNat 8 (16 * v + w)) := by
  have := str2hexFrom_byte h hj (by omega) hc hd hv hw
  rwa [Nat.zero_add] at this

theorem str2hex_isSome {inp : List Char} (tail : List Char) (buffer : List Byte) {n : Nat}
    (hlen : inp.length = 2 * n) (hhex : ∀ c ∈ inp, IsHexDigit c) :
    (str2hex (inp ++ tail) buffer n).isSome :=
  str2hexFrom_isSome hlen hhex

end MicroSampler.BearSSL
