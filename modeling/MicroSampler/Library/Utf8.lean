import Mathlib.Data.List.Basic

/-!
# Decoding of byte strings

`bytes.decode()` for UTF-8. A malformed part is an error in the strict form and is left out
with `errors="ignore"`; as the Unicode standard has it, a malformed part ends in front of
the first byte that cannot continue it.
-/

namespace MicroSampler.Utf8

abbrev Bytes := List UInt8

/-- A character whose lead byte is read: its bits so far, the number of bytes to come and
the bounds of the next. -/
structure Pending where
  bits : Nat
  more : Nat
  low : Nat
  high : Nat

def lead? (b : Nat) : Option Pending :=
  if 0xc2 ≤ b ∧ b ≤ 0xdf then some ⟨b - 0xc0, 1, 0x80, 0xbf⟩
  else if b = 0xe0 then some ⟨0x0, 2, 0xa0, 0xbf⟩
  else if b = 0xed then some ⟨0xd, 2, 0x80, 0x9f⟩
  else if 0xe1 ≤ b ∧ b ≤ 0xef then some ⟨b - 0xe0, 2, 0x80, 0xbf⟩
  else if b = 0xf0 then some ⟨0x0, 3, 0x90, 0xbf⟩
  else if 0xf1 ≤ b ∧ b ≤ 0xf3 then some ⟨b - 0xf0, 3, 0x80, 0xbf⟩
  else if b = 0xf4 then some ⟨0x4, 3, 0x80, 0x8f⟩
  else none

/-- A byte between characters: what it writes and what it opens. -/
def start (b : Nat) : List (Option Char) × Option Pending :=
  if b < 0x80 then ([some (Char.ofNat b)], none)
  else
    match lead? b with
    | some p => ([], some p)
    | none => ([none], none)

def step : Option Pending → Nat → List (Option Char) × Option Pending
  | none, b => start b
  | some p, b =>
    if p.low ≤ b ∧ b ≤ p.high then
      let bits := p.bits * 64 + b % 64
      if p.more ≤ 1 then ([some (Char.ofNat bits)], none)
      else ([], some ⟨bits, p.more - 1, 0x80, 0xbf⟩)
    else
      let (out, next) := start b
      (none :: out, next)

/-- The characters of a byte string, `none` for each malformed part. -/
def units : Option Pending → Bytes → List (Option Char)
  | none, [] => []
  | some _, [] => [none]
  | p, b :: s =>
    let (out, next) := step p b.toNat
    out ++ units next s

/-- `decode()`; a malformed string raises. -/
def decode (s : Bytes) : Option (List Char) := (units none s).mapM id

/-- `decode(errors="ignore")`. -/
def decodeIgnore (s : Bytes) : List Char := (units none s).filterMap id

/-- The bytes of a text of ASCII characters. -/
def ascii (s : List Char) : Bytes := s.map fun c => c.toNat.toUInt8

end MicroSampler.Utf8
