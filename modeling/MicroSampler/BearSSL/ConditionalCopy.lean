import Mathlib.Data.List.Basic
import Mathlib.Data.BitVec

/-!
# The three conditional copies

`br_ccopy` selects byte by byte with the masked `MUX`; `br_ccopy_v1` and `br_ccopy_v2`
branch on the control word and move a block, the latter into a dummy buffer when the
control is zero. Buffers that do not overlap are separate byte lists, and an access
outside a buffer is `none`.
-/

namespace MicroSampler.BearSSL

abbrev Byte := BitVec 8

abbrev Word := BitVec 32

/-- `memmove`, and `memcpy` between buffers that do not overlap. -/
def memmove (dst src : List Byte) (len : Nat) : Option (List Byte) :=
  if len ≤ dst.length ∧ len ≤ src.length then some (src.take len ++ dst.drop len) else none

def MUX (ctl x y : Word) : Word := y ^^^ (-ctl &&& (x ^^^ y))

def brCcopy (ctl : Word) : (dst src : List Byte) → (len : Nat) → Option (List Byte)
  | dst, _, 0 => some dst
  | y :: dst, x :: src, len + 1 =>
    (brCcopy ctl dst src len).map
      ((MUX ctl (x.setWidth 32) (y.setWidth 32)).setWidth 8 :: ·)
  | _, _, _ + 1 => none

def brCcopyV1 (ctl : Word) (dst src : List Byte) (len : Nat) : Option (List Byte) :=
  if ctl ≠ 0 then memmove dst src len else some dst

/-- The two buffers `br_ccopy_v2` leaves, `dst` first. -/
def brCcopyV2 (ctl : Word) (dst dummy src : List Byte) (len : Nat) :
    Option (List Byte × List Byte) :=
  if ctl ≠ 0 then (memmove dst src len).map (·, dummy)
  else (memmove dummy src len).map (dst, ·)

/-! ## One specification for the three -/

/-- What a conditional copy is for: `src` replaces the first `len` bytes of `dst` when
the control is one, and `dst` stays as it is when the control is zero. -/
def select (ctl : Word) (dst src : List Byte) (len : Nat) : List Byte :=
  if ctl = 1 then src.take len ++ dst.drop len else dst

theorem length_select {ctl : Word} {dst src : List Byte} {len : Nat}
    (hdst : len ≤ dst.length) (hsrc : len ≤ src.length) :
    (select ctl dst src len).length = dst.length := by
  unfold select
  split
  · rw [List.length_append, List.length_take, List.length_drop]
    omega
  · rfl

theorem length_of_memmove {dst src out : List Byte} {len : Nat}
    (h : memmove dst src len = some out) :
    len ≤ dst.length ∧ len ≤ src.length ∧ out.length = dst.length := by
  unfold memmove at h
  split at h
  · rename_i hlen
    cases h
    refine ⟨hlen.1, hlen.2, ?_⟩
    rw [List.length_append, List.length_take, List.length_drop]
    omega
  · cases h

theorem memmove_of_le {dst src : List Byte} {len : Nat} (hdst : len ≤ dst.length)
    (hsrc : len ≤ src.length) : memmove dst src len = some (src.take len ++ dst.drop len) :=
  if_pos ⟨hdst, hsrc⟩

theorem memmove_of_short {dst src : List Byte} {len : Nat} (hsrc : src.length < len) :
    memmove dst src len = none := by
  rw [memmove, if_neg (by omega)]

theorem MUX_one (x y : Word) : MUX 1 x y = x := by
  have h : -(1 : Word) = BitVec.allOnes 32 := by decide
  rw [MUX, h, BitVec.allOnes_and, BitVec.xor_comm x y, ← BitVec.xor_assoc, BitVec.xor_self,
    BitVec.zero_xor]

theorem MUX_zero (x y : Word) : MUX 0 x y = y := by
  have h : -(0 : Word) = 0#32 := by decide
  rw [MUX, h, BitVec.zero_and, BitVec.xor_zero]

/-- One byte of `br_ccopy`: widened, selected and narrowed again. -/
theorem MUX_byte {ctl : Word} (hctl : ctl = 0 ∨ ctl = 1) (x y : Byte) :
    (MUX ctl (x.setWidth 32) (y.setWidth 32)).setWidth 8 = if ctl = 1 then x else y := by
  have hnarrow : ∀ b : Byte, (b.setWidth 32).setWidth 8 = b := by
    intro b
    rw [BitVec.setWidth_setWidth_of_le _ (by decide), BitVec.setWidth_eq]
  rcases hctl with rfl | rfl
  · rw [MUX_zero, hnarrow, if_neg (by decide)]
  · rw [MUX_one, hnarrow, if_pos rfl]

theorem brCcopy_eq_select {ctl : Word} (hctl : ctl = 0 ∨ ctl = 1) {dst src : List Byte}
    {len : Nat} (hdst : len ≤ dst.length) (hsrc : len ≤ src.length) :
    brCcopy ctl dst src len = some (select ctl dst src len) := by
  induction len generalizing dst src with
  | zero => simp [brCcopy, select]
  | succ len ih =>
    match dst, src, hdst, hsrc with
    | y :: dst, x :: src, hdst, hsrc =>
      have hrec := ih (Nat.le_of_succ_le_succ hdst) (Nat.le_of_succ_le_succ hsrc)
      rw [brCcopy, hrec, Option.map_some, MUX_byte hctl]
      rcases hctl with rfl | rfl <;> simp [select]

theorem brCcopyV1_eq_select {ctl : Word} (hctl : ctl = 0 ∨ ctl = 1) {dst src : List Byte}
    {len : Nat} (hdst : len ≤ dst.length) (hsrc : len ≤ src.length) :
    brCcopyV1 ctl dst src len = some (select ctl dst src len) := by
  rcases hctl with rfl | rfl
  · simp [brCcopyV1, select]
  · simp [brCcopyV1, select, memmove_of_le hdst hsrc]

/-- The dummy of `br_ccopy_v2` keeps its length, whatever is written to it. -/
theorem brCcopyV2_eq_select {ctl : Word} (hctl : ctl = 0 ∨ ctl = 1)
    {dst dummy src : List Byte} {len : Nat} (hdst : len ≤ dst.length)
    (hsrc : len ≤ src.length) (hdummy : len ≤ dummy.length) :
    ∃ dummy', brCcopyV2 ctl dst dummy src len = some (select ctl dst src len, dummy') ∧
      dummy'.length = dummy.length := by
  rcases hctl with rfl | rfl
  · have hmove := memmove_of_le hdummy hsrc
    refine ⟨_, by simp [brCcopyV2, select, hmove], (length_of_memmove hmove).2.2⟩
  · exact ⟨dummy, by simp [brCcopyV2, select, memmove_of_le hdst hsrc], rfl⟩

end MicroSampler.BearSSL
