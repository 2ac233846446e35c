import MicroSampler.BearSSL.ConditionalCopy

/-!
# Modular exponentiation with three conditional copies

`br_i31_modpow`, `br_i31_modpow_v1` and `br_i31_modpow_v2` run the same loop and differ
in the conditional copy they call, the last one with an extra dummy buffer `r`. The
multiplication, the conversion to Montgomery form and the clearing of an integer are
parameters: functions of the buffers they read that rewrite their destination in place.

Every copy that follows `select` on buffers of sufficient length gives the same `x`,
`t1` and `t2` after every round (`modpowAfter_forget`). Rounds whose `t2` is too short
fail in all versions, at the latest in the closing `memcpy`.
-/

namespace MicroSampler.BearSSL

/-! ## Words and lengths -/

/-- The 32-bit word at index `i`, least significant byte first. -/
def loadWord (buf : List Byte) (i : Nat) : Option Word := do
  let b0 ← buf[4 * i]?
  let b1 ← buf[4 * i + 1]?
  let b2 ← buf[4 * i + 2]?
  let b3 ← buf[4 * i + 3]?
  pure (b3 ++ b2 ++ b1 ++ b0)

def wordBytes (w : Word) : List Byte :=
  [w.extractLsb' 0 8, w.extractLsb' 8 8, w.extractLsb' 16 8, w.extractLsb' 24 8]

def storeWord (buf : List Byte) (i : Nat) (w : Word) : Option (List Byte) :=
  if 4 * i + 4 ≤ buf.length then
    some (buf.take (4 * i) ++ wordBytes w ++ buf.drop (4 * i + 4))
  else none

/-- `mlen = ((m[0] + 63) >> 5) * sizeof m[0]`. -/
def modulusLen (m : List Byte) : Option Nat :=
  (loadWord m 0).map fun m0 : Word => ((m0 + 63) >>> 5).toNat * 4

/-- The arithmetic the loop calls. Each function receives the former content of its
destination first and returns the new content, of the same length. -/
structure MontyArith where
  toMonty : (x m : List Byte) → List Byte
  zero : (x : List Byte) → (bitLen : Word) → List Byte
  montymul : (d x y m : List Byte) → (m0i : Word) → List Byte
  length_toMonty : ∀ x m, (toMonty x m).length = x.length
  length_zero : ∀ x bitLen, (zero x bitLen).length = x.length
  length_montymul : ∀ d x y m m0i, (montymul d x y m m0i).length = d.length

/-! ## The loop -/

/-- The buffers the loop writes; `r` is what a version owns beside them. -/
structure Work (ρ : Type) where
  x : List Byte
  t1 : List Byte
  t2 : List Byte
  r : ρ
  deriving DecidableEq

/-- The buffers all versions have in common. -/
def Work.forget {ρ : Type} (w : Work ρ) : Work Unit := ⟨w.x, w.t1, w.t2, ()⟩

/-- `(e[elen - 1 - (k >> 3)] >> (k & 7)) & 1`. -/
def modpowCtl (e : List Byte) (elen k : Nat) : Option Word :=
  (e[elen - 1 - (k >>> 3)]?).map fun b : Byte => (b.setWidth 32 >>> (k &&& 7)) &&& 1

/-- The loop bound `(uint32_t)elen << 3`. -/
def modpowRounds (elen : Nat) : Nat := (BitVec.ofNat 32 elen <<< 3).toNat

/-- A conditional copy as the loop calls it: `dst`, the version's own buffer, `src`. -/
abbrev Copy (ρ : Type) :=
  (ctl : Word) → (dst : List Byte) → ρ → (src : List Byte) → (len : Nat) →
    Option (List Byte × ρ)

section Loop

variable {ρ : Type} (A : MontyArith) (copy : Copy ρ) (e : List Byte) (elen : Nat)
  (m : List Byte) (m0i : Word)

/-- Everything before the loop. -/
def modpowStart (w : Work ρ) : Option (Work ρ) := do
  let mlen ← modulusLen m
  let t1 ← memmove w.t1 w.x mlen
  let m0 ← loadWord m 0
  let x ← storeWord (A.zero w.x m0) 1 1#32
  pure { w with x, t1 := A.toMonty t1 m }

/-- One pass of the loop body. -/
def modpowRound (k : Nat) (w : Work ρ) : Option (Work ρ) := do
  let mlen ← modulusLen m
  let ctl ← modpowCtl e elen k
  let t2 := A.montymul w.t2 w.x w.t1 m m0i
  let (x, r) ← copy ctl w.x w.r t2 mlen
  let t2 := A.montymul t2 w.t1 w.t1 m m0i
  let t1 ← memmove w.t1 t2 mlen
  pure { x, t1, t2, r }

/-- The buffers after the first `k` rounds. -/
def modpowAfter (w : Work ρ) : (k : Nat) → Option (Work ρ)
  | 0 => modpowStart A m w
  | k + 1 => (modpowAfter w k).bind (modpowRound A copy e elen m m0i k)

/-- The buffers at the end of the loop. -/
def modpowWith (w : Work ρ) : Option (Work ρ) :=
  modpowAfter A copy e elen m m0i w (modpowRounds elen)

end Loop

/-- `br_ccopy`, `br_ccopy_v1` and `br_ccopy_v2` at the call sites of the loop. -/
def copyV3 : Copy Unit := fun ctl dst _ src len => (brCcopy ctl dst src len).map (·, ())

def copyV1 : Copy Unit := fun ctl dst _ src len => (brCcopyV1 ctl dst src len).map (·, ())

def copyV2 : Copy (List Byte) := fun ctl dst r src len => brCcopyV2 ctl dst r src len

def brI31Modpow (A : MontyArith) (e : List Byte) (elen : Nat) (m : List Byte) (m0i : Word) :
    Work Unit → Option (Work Unit) := modpowWith A copyV3 e elen m m0i

def brI31ModpowV1 (A : MontyArith) (e : List Byte) (elen : Nat) (m : List Byte)
    (m0i : Word) : Work Unit → Option (Work Unit) := modpowWith A copyV1 e elen m m0i

def brI31ModpowV2 (A : MontyArith) (e : List Byte) (elen : Nat) (m : List Byte)
    (m0i : Word) : Work (List Byte) → Option (Work (List Byte)) :=
  modpowWith A copyV2 e elen m m0i

/-! ## Copies that follow the specification -/

/-- A copy follows `select` whenever both buffers are long enough, and preserves the
condition `P` on the version's own buffer. -/
def Follows {ρ : Type} (copy : Copy ρ) (P : ρ → Nat → Prop) : Prop :=
  ∀ (ctl : Word) (dst src : List Byte) (r : ρ) (len : Nat), ctl = 0 ∨ ctl = 1 →
    len ≤ dst.length → len ≤ src.length → P r len →
      ∃ r', copy ctl dst r src len = some (select ctl dst src len, r') ∧ P r' len

theorem copyV3_follows : Follows copyV3 fun _ _ => True := by
  intro ctl dst src r len hctl hdst hsrc _
  exact ⟨(), by rw [copyV3, brCcopy_eq_select hctl hdst hsrc]; rfl, trivial⟩

theorem copyV1_follows : Follows copyV1 fun _ _ => True := by
  intro ctl dst src r len hctl hdst hsrc _
  exact ⟨(), by rw [copyV1, brCcopyV1_eq_select hctl hdst hsrc]; rfl, trivial⟩

theorem copyV2_follows : Follows copyV2 fun r len => len ≤ r.length := by
  intro ctl dst src r len hctl hdst hsrc hr
  obtain ⟨r', hcopy, hlen⟩ := brCcopyV2_eq_select hctl hdst hsrc hr
  exact ⟨r', hcopy, hr.trans_eq hlen.symm⟩

theorem modpowCtl_bit {e : List Byte} {elen k : Nat} {ctl : Word}
    (h : modpowCtl e elen k = some ctl) : ctl = 0 ∨ ctl = 1 := by
  obtain ⟨b, -, rfl⟩ := Option.map_eq_some_iff.mp h
  have hlt : ((b.setWidth 32 >>> (k &&& 7)) &&& 1#32).toNat < 2 := by
    rw [BitVec.toNat_and, show (1#32).toNat = 2 ^ 1 - 1 from rfl, Nat.and_two_pow_sub_one_eq_mod]
    exact Nat.mod_lt _ (by decide)
  have hcases : ∀ w : Word, w.toNat < 2 → w = 0 ∨ w = 1 := by
    intro w hw
    rcases (by omega : w.toNat = 0 ∨ w.toNat = 1) with h | h
    · exact Or.inl (BitVec.eq_of_toNat_eq h)
    · exact Or.inr (BitVec.eq_of_toNat_eq h)
  exact hcases _ hlt

section Versions

variable {ρ : Type} (A : MontyArith) (e : List Byte) (elen : Nat) {m : List Byte}
  (m0i : Word)

/-- Lengths the prologue establishes and every round keeps. -/
structure Sized (mlen : Nat) (P : ρ → Nat → Prop) (w : Work ρ) : Prop where
  x : mlen ≤ w.x.length
  own : P w.r mlen

theorem modpowStart_forget (w : Work ρ) :
    modpowStart A m w.forget = (modpowStart A m w).map Work.forget := by
  cases hm : modulusLen m with
  | none => simp [modpowStart, hm]
  | some mlen =>
    cases hmove : memmove w.t1 w.x mlen with
    | none => simp [modpowStart, hm, Work.forget, hmove]
    | some t1 =>
      cases hload : loadWord m 0 with
      | none => simp [modpowStart, hm, Work.forget, hload]
      | some m0 =>
        cases hstore : storeWord (A.zero w.x m0) 1 1#32 <;>
          simp [modpowStart, hm, Work.forget, hmove, hload, hstore]

theorem modpowStart_sized {w w' : Work ρ} {mlen : Nat} {P : ρ → Nat → Prop}
    (hm : modulusLen m = some mlen) (hP : P w.r mlen) (h : modpowStart A m w = some w') :
    Sized mlen P w' := by
  simp only [modpowStart, hm, Option.bind_eq_bind, Option.bind_some] at h
  obtain ⟨t1, ht1, h⟩ := Option.bind_eq_some_iff.mp h
  obtain ⟨m0, -, h⟩ := Option.bind_eq_some_iff.mp h
  obtain ⟨x, hx, h⟩ := Option.bind_eq_some_iff.mp h
  cases h
  refine ⟨?_, hP⟩
  have hlen : x.length = w.x.length := by
    unfold storeWord at hx
    split at hx
    · rename_i hfit
      cases hx
      simp only [List.length_append, List.length_take, List.length_drop, wordBytes,
        List.length_cons, List.length_nil, A.length_zero] at hfit ⊢
      omega
    · cases hx
  exact hlen.symm ▸ (length_of_memmove ht1).2.1

/-- One round of any copy that follows `select`: it fails when `t2` is too short, and
otherwise selects into `x` and squares `t1`. -/
theorem modpowRound_eq {copy : Copy ρ} {P : ρ → Nat → Prop} (hcopy : Follows copy P)
    {mlen k : Nat} (hm : modulusLen m = some mlen) {w : Work ρ} (hw : Sized mlen P w) :
    (∃ w', modpowRound A copy e elen m m0i k w = some w' ∧ Sized mlen P w' ∧
      modpowRound A copyV1 e elen m m0i k w.forget = some w'.forget) ∨
    (modpowRound A copy e elen m m0i k w = none ∧
      modpowRound A copyV1 e elen m m0i k w.forget = none) := by
  cases hctl : modpowCtl e elen k with
  | none => exact Or.inr ⟨by simp [modpowRound, hm, hctl], by simp [modpowRound, hm, hctl]⟩
  | some ctl =>
    have hbit := modpowCtl_bit hctl
    by_cases hlen : mlen ≤ w.t2.length
    · have hprod : mlen ≤ (A.montymul w.t2 w.x w.t1 m m0i).length := by
        rw [A.length_montymul]
        exact hlen
      obtain ⟨r', hr', hP'⟩ := hcopy ctl w.x _ w.r mlen hbit hw.x hprod hw.own
      obtain ⟨_, h1, _⟩ := copyV1_follows ctl w.x _ () mlen hbit hw.x hprod trivial
      cases hmove : memmove w.t1 (A.montymul (A.montymul w.t2 w.x w.t1 m m0i) w.t1 w.t1 m m0i)
          mlen with
      | none =>
        exact Or.inr ⟨by simp [modpowRound, hm, hctl, hr', hmove],
          by simp [modpowRound, hm, hctl, h1, hmove, Work.forget]⟩
      | some t1 =>
        refine Or.inl ⟨_, by simp [modpowRound, hm, hctl, hr', hmove]; rfl, ⟨?_, hP'⟩,
          by simp [modpowRound, hm, hctl, h1, hmove, Work.forget]⟩
        simp only [length_select hw.x hprod]
        exact hw.x
    · -- the copy may succeed without reading `t2`; the closing `memcpy` does not
      have hshort : ∀ t1 x y : List Byte,
          memmove t1 (A.montymul (A.montymul w.t2 w.x w.t1 m m0i) x y m m0i) mlen = none := by
        intro t1 x y
        apply memmove_of_short
        rw [A.length_montymul, A.length_montymul]
        omega
      exact Or.inr ⟨by simp [modpowRound, hm, hctl, hshort],
        by simp [modpowRound, hm, hctl, Work.forget, hshort]⟩

theorem modpowAfter_sized {copy : Copy ρ} {P : ρ → Nat → Prop} (hcopy : Follows copy P)
    {mlen : Nat} (hm : modulusLen m = some mlen) {w : Work ρ} (hP : P w.r mlen) (k : Nat) :
    (∃ w', modpowAfter A copy e elen m m0i w k = some w' ∧ Sized mlen P w' ∧
      modpowAfter A copyV1 e elen m m0i w.forget k = some w'.forget) ∨
    (modpowAfter A copy e elen m m0i w k = none ∧
      modpowAfter A copyV1 e elen m m0i w.forget k = none) := by
  induction k with
  | zero =>
    have hforget := modpowStart_forget A (m := m) w
    cases hstart : modpowStart A m w with
    | none => exact Or.inr ⟨hstart, by simp [modpowAfter, hforget, hstart]⟩
    | some w' =>
      exact Or.inl ⟨w', hstart, modpowStart_sized A hm hP hstart,
        by simp [modpowAfter, hforget, hstart]⟩
  | succ k ih =>
    rcases ih with ⟨w', hw', hsized, h1⟩ | ⟨hw', h1⟩
    · have := modpowRound_eq A e elen m0i (k := k) hcopy hm hsized
      simpa [modpowAfter, hw', h1] using this
    · exact Or.inr ⟨by simp [modpowAfter, hw'], by simp [modpowAfter, h1]⟩

/-- Up to the version's own buffer, any copy that follows `select` computes what
`br_i31_modpow_v1` computes, after every number of rounds. -/
theorem modpowAfter_forget {copy : Copy ρ} {P : ρ → Nat → Prop} (hcopy : Follows copy P)
    {w : Work ρ} (hP : ∀ mlen, modulusLen m = some mlen → P w.r mlen) (k : Nat) :
    (modpowAfter A copy e elen m m0i w k).map Work.forget =
      modpowAfter A copyV1 e elen m m0i w.forget k := by
  cases hm : modulusLen m with
  | none =>
    have hnone : ∀ {τ : Type} (copy : Copy τ) (w : Work τ),
        modpowAfter A copy e elen m m0i w k = none := by
      intro τ copy w
      induction k with
      | zero => simp [modpowAfter, modpowStart, hm]
      | succ k ih => simp [modpowAfter, ih]
    rw [hnone, hnone]
    rfl
  | some mlen =>
    rcases modpowAfter_sized A e elen m0i hcopy hm (hP mlen hm) k
      with ⟨w', hw', -, h1⟩ | ⟨hw', h1⟩
    · rw [hw', h1]
      rfl
    · rw [hw', h1]
      rfl

end Versions

/-! ## The loop stays inside its buffers -/

theorem modpowCtl_isSome {e : List Byte} {elen k : Nat} (he : elen ≤ e.length)
    (hk : k < modpowRounds elen) : (modpowCtl e elen k).isSome := by
  have hrounds : modpowRounds elen ≤ elen * 8 := by
    rw [modpowRounds, BitVec.toNat_shiftLeft, BitVec.toNat_ofNat, Nat.shiftLeft_eq]
    exact (Nat.mod_le _ _).trans (Nat.mul_le_mul_right _ (Nat.mod_le _ _))
  rw [modpowCtl, Option.isSome_map, List.getElem?_eq_getElem (by omega)]
  rfl

theorem length_of_modpowRound {A : MontyArith} {e m : List Byte} {elen k : Nat} {m0i : Word}
    {w w' : Work Unit} (h : modpowRound A copyV1 e elen m m0i k w = some w') :
    w'.x.length = w.x.length ∧ w'.t1.length = w.t1.length ∧ w'.t2.length = w.t2.length := by
  obtain ⟨mlen, -, h⟩ := Option.bind_eq_some_iff.mp h
  obtain ⟨ctl, -, h⟩ := Option.bind_eq_some_iff.mp h
  obtain ⟨⟨x, r⟩, hcopy, h⟩ := Option.bind_eq_some_iff.mp h
  obtain ⟨t1, ht1, h⟩ := Option.bind_eq_some_iff.mp h
  cases h
  refine ⟨?_, (length_of_memmove ht1).2.2, by simp only [A.length_montymul]⟩
  obtain ⟨x', hx', hpair⟩ := Option.map_eq_some_iff.mp hcopy
  cases hpair
  unfold brCcopyV1 at hx'
  split at hx'
  · exact (length_of_memmove hx').2.2
  · cases hx'
    rfl

/-- With `mlen` bytes in each work buffer, two words in `x` and `elen` exponent bytes no
round reads or writes outside a buffer. -/
theorem modpowAfter_isSome (A : MontyArith) {e m x t1 t2 : List Byte} {elen mlen : Nat}
    (m0i : Word) (hm : modulusLen m = some mlen) (hx : mlen ≤ x.length) (hx1 : 8 ≤ x.length)
    (ht1 : mlen ≤ t1.length) (ht2 : mlen ≤ t2.length) (he : elen ≤ e.length) {k : Nat}
    (hk : k ≤ modpowRounds elen) :
    ∃ w, modpowAfter A copyV1 e elen m m0i ⟨x, t1, t2, ()⟩ k = some w ∧
      mlen ≤ w.x.length ∧ mlen ≤ w.t1.length ∧ mlen ≤ w.t2.length := by
  induction k with
  | zero =>
    obtain ⟨m0, hm0, -⟩ := Option.map_eq_some_iff.mp hm
    have hstore : storeWord (A.zero x m0) 1 1#32 = some
        ((A.zero x m0).take 4 ++ wordBytes 1#32 ++ (A.zero x m0).drop 8) := by
      rw [storeWord, if_pos (by rw [A.length_zero]; omega)]
    refine ⟨_, by simp [modpowAfter, modpowStart, hm, memmove_of_le ht1 hx, hm0, hstore]; rfl,
      ?_, ?_, ht2⟩
    · simp only [List.length_append, List.length_take, List.length_drop, A.length_zero,
        wordBytes, List.length_cons, List.length_nil]
      omega
    · simp only [A.length_toMonty, List.length_append, List.length_take, List.length_drop]
      omega
  | succ k ih =>
    obtain ⟨w, hw, hwx, hwt1, hwt2⟩ := ih (by omega)
    obtain ⟨ctl, hctl⟩ := Option.isSome_iff_exists.mp (modpowCtl_isSome he (by omega : k < _))
    have hprod : mlen ≤ (A.montymul w.t2 w.x w.t1 m m0i).length := by
      rw [A.length_montymul]
      exact hwt2
    have hsquare : mlen ≤
        (A.montymul (A.montymul w.t2 w.x w.t1 m m0i) w.t1 w.t1 m m0i).length := by
      rw [A.length_montymul]
      exact hprod
    have hcopy := brCcopyV1_eq_select (modpowCtl_bit hctl) hwx hprod
    obtain ⟨w', hw'⟩ : ∃ w', modpowRound A copyV1 e elen m m0i k w = some w' :=
      ⟨_, by simp [modpowRound, hm, hctl, copyV1, hcopy, memmove_of_le hwt1 hsquare]; rfl⟩
    obtain ⟨h1, h2, h3⟩ := length_of_modpowRound hw'
    exact ⟨w', by simp [modpowAfter, hw, hw'], h1 ▸ hwx, h2 ▸ hwt1, h3 ▸ hwt2⟩

/-! ## The versions agree -/

/-- **Interchangeable versions.** The three loops leave the same `x`, `t1` and `t2` after
every round and at the end, the second one for any initial content of an `r` that holds
`mlen` bytes; the three conditional copies leave the same destination for a control in
`{0, 1}` and every length; and on buffers that hold the modulus no round fails. -/
theorem modpow_versions_agree (A : MontyArith) (e : List Byte) (elen : Nat) (m : List Byte)
    (m0i : Word) (x t1 t2 r : List Byte)
    (hr : ∀ mlen, modulusLen m = some mlen → mlen ≤ r.length) :
    (∀ k ≤ modpowRounds elen,
      modpowAfter A copyV1 e elen m m0i ⟨x, t1, t2, ()⟩ k =
          modpowAfter A copyV3 e elen m m0i ⟨x, t1, t2, ()⟩ k ∧
        (modpowAfter A copyV2 e elen m m0i ⟨x, t1, t2, r⟩ k).map Work.forget =
          modpowAfter A copyV3 e elen m m0i ⟨x, t1, t2, ()⟩ k) ∧
    (brI31ModpowV1 A e elen m m0i ⟨x, t1, t2, ()⟩ = brI31Modpow A e elen m m0i ⟨x, t1, t2, ()⟩ ∧
      (brI31ModpowV2 A e elen m m0i ⟨x, t1, t2, r⟩).map Work.forget =
        brI31Modpow A e elen m m0i ⟨x, t1, t2, ()⟩) ∧
    (∀ ctl, ctl = 0 ∨ ctl = 1 → ∀ (dst dummy src : List Byte) (len : Nat),
      len ≤ dst.length → len ≤ src.length → len ≤ dummy.length →
        brCcopy ctl dst src len = brCcopyV1 ctl dst src len ∧
        (brCcopyV2 ctl dst dummy src len).map Prod.fst = brCcopyV1 ctl dst src len) ∧
    (∀ mlen, modulusLen m = some mlen → mlen ≤ x.length → 8 ≤ x.length → mlen ≤ t1.length →
      mlen ≤ t2.length → elen ≤ e.length →
        (brI31Modpow A e elen m m0i ⟨x, t1, t2, ()⟩).isSome) := by
  have h3 : ∀ k, modpowAfter A copyV1 e elen m m0i ⟨x, t1, t2, ()⟩ k =
      modpowAfter A copyV3 e elen m m0i ⟨x, t1, t2, ()⟩ k := by
    intro k
    have h := modpowAfter_forget A e elen (m := m) m0i copyV3_follows
      (w := ⟨x, t1, t2, ()⟩) (fun _ _ => trivial) k
    have hid : ∀ o : Option (Work Unit), o.map Work.forget = o := by
      intro o
      cases o <;> rfl
    exact h.symm.trans (hid _)
  have h2 : ∀ k, (modpowAfter A copyV2 e elen m m0i ⟨x, t1, t2, r⟩ k).map Work.forget =
      modpowAfter A copyV3 e elen m m0i ⟨x, t1, t2, ()⟩ k := fun k =>
    (modpowAfter_forget A e elen m0i copyV2_follows (w := ⟨x, t1, t2, r⟩) hr k).trans (h3 k)
  refine ⟨fun k _ => ⟨h3 k, h2 k⟩, ⟨h3 _, h2 _⟩, ?_, ?_⟩
  · intro ctl hctl dst dummy src len hdst hsrc hdummy
    obtain ⟨_, hv2, -⟩ := brCcopyV2_eq_select hctl hdst hsrc hdummy
    rw [brCcopy_eq_select hctl hdst hsrc, brCcopyV1_eq_select hctl hdst hsrc, hv2]
    exact ⟨rfl, rfl⟩
  · intro mlen hm hx hx1 ht1 ht2 he
    obtain ⟨w, hw, -⟩ := modpowAfter_isSome A m0i hm hx hx1 ht1 ht2 he (Nat.le_refl _)
    rw [brI31Modpow, modpowWith, ← h3, hw]
    rfl

end MicroSampler.BearSSL
