import MicroSampler.Harness.Hooks

/-!
# Resetting a trial context

The buffers of a trial context as blocks of bytes with their extents. The context counts the
bytes of a buffer where `fill_words_deterministically` takes a number of words.
-/

namespace MicroSampler.TrialReset

open BearSSL (Byte Word)
open Harness (fillWordsDeterministically)
open Hooks (wordBytes)

/-! ## Blocks -/

/-- An allocated block. -/
abbrev Block := List Byte

/-- `memset`. A byte outside of the block is not written. -/
def memset (block : Block) (value : Byte) (n : Nat) : Option Block :=
  if n ≤ block.length then some (List.replicate n value ++ block.drop n) else none

/-- The assignment of a word to an element of a block. -/
def storeWord (block : Block) (i : Nat) (x : Word) : Option Block :=
  if 4 * (i + 1) ≤ block.length then
    some (block.take (4 * i) ++ wordBytes x ++ block.drop (4 * (i + 1)))
  else none

/-- The rounds of `fill_words_deterministically` from `i` on. -/
def fillFrom : Nat → Nat → Word → Block → Option Block
  | 0, _, _, block => some block
  | n + 1, i, v, block => do
    let v := v * 1664525 + 1013904223
    let block ← storeWord block i v
    fillFrom n (i + 1) v block

/-- `fill_words_deterministically`. -/
def fillWords (block : Block) (n : Nat) (seed : Word) : Option Block := fillFrom n 0 seed block

/-- `calloc`; `allocates` says for which sizes there is memory. -/
def calloc (allocates : Nat → Bool) (n size : Nat) : Option Block :=
  if n * size < 2 ^ 64 ∧ allocates (n * size) = true then some (List.replicate (n * size) 0)
  else none

/-! ## The context -/

/-- `trial_context_t`, with the blocks that it points to. -/
structure TrialContext where
  dest : Block
  dummy : Block
  data : Block
  dataLen : BitVec 64
  deriving DecidableEq

/-- `create_default_trial_context`. -/
def createDefaultTrialContext (allocates : Nat → Bool) (dataSize : BitVec 64) :
    Option TrialContext := do
  let bufferByteSize := dataSize * 4
  let dest ← calloc allocates dataSize.toNat 4
  let dummy ← calloc allocates dataSize.toNat 4
  let data ← calloc allocates dataSize.toNat 4
  let data ← fillWords data dataSize.toNat 0x11111111
  pure ⟨dest, dummy, data, bufferByteSize⟩

/-- `reset_trial_context`. -/
def resetTrialContext (ctx : TrialContext) : Option TrialContext := do
  let dest ← memset ctx.dest 0 ctx.dataLen.toNat
  let dummy ← memset ctx.dummy 0 ctx.dataLen.toNat
  let data ← memset ctx.data 0 ctx.dataLen.toNat
  let data ← fillWords data ctx.dataLen.toNat 0x11111111
  pure ⟨dest, dummy, data, ctx.dataLen⟩

/-- The context after any writes into its buffers. -/
structure Written (fresh ctx : TrialContext) : Prop where
  dest : ctx.dest.length = fresh.dest.length
  dummy : ctx.dummy.length = fresh.dummy.length
  data : ctx.data.length = fresh.data.length
  dataLen : ctx.dataLen = fresh.dataLen

/-! ## The loops -/

theorem length_wordBytes (x : Word) : (wordBytes x).length = 4 := by simp [wordBytes]

/-- What a word written into a block leaves there. -/
theorem storeWord_eq {block : Block} {i : Nat} (h : 4 * (i + 1) ≤ block.length) (x : Word) :
    ∃ block', storeWord block i x = some block' ∧ block'.length = block.length ∧
      block'.take (4 * (i + 1)) = block.take (4 * i) ++ wordBytes x ∧
        ∀ k, 4 * (i + 1) ≤ k → block'.drop k = block.drop k := by
  have hfront : (block.take (4 * i) ++ wordBytes x).length = 4 * (i + 1) := by
    rw [List.length_append, length_wordBytes, List.length_take_of_le (by omega)]
    omega
  refine ⟨_, if_pos h, ?_, ?_, ?_⟩
  · rw [List.length_append, hfront, List.length_drop]
    omega
  · rw [List.take_append_of_le_length hfront.ge, List.take_of_length_le hfront.le]
  · intro k hk
    rw [List.drop_append, hfront, List.drop_of_length_le (by omega), List.nil_append,
      List.drop_drop, Nat.add_sub_cancel' hk]

/-- The loop writes the words of the generator when the block has room for them, and writes
outside of the block otherwise. -/
theorem fillFrom_eq (n i : Nat) (v : Word) (block : Block) (hi : 4 * i ≤ block.length) :
    fillFrom n i v block =
      if 4 * (i + n) ≤ block.length then
        some (block.take (4 * i) ++ (fillWordsDeterministically n v).flatMap wordBytes ++
          block.drop (4 * (i + n)))
      else none := by
  induction n generalizing i v block with
  | zero =>
    rw [fillFrom, Nat.add_zero, if_pos hi, fillWordsDeterministically, List.flatMap_nil,
      List.append_nil, List.take_append_drop]
  | succ n ih =>
    rw [fillFrom]
    by_cases hroom : 4 * (i + 1) ≤ block.length
    · obtain ⟨block', hstore, hlength, htake, hdrop⟩ :=
        storeWord_eq hroom (v * 1664525 + 1013904223)
      rw [hstore, Option.bind_eq_bind, Option.bind_some, ih _ _ _ (hlength ▸ hroom), hlength,
        htake, hdrop _ (by omega), fillWordsDeterministically, List.flatMap_cons,
        show i + 1 + n = i + (n + 1) by omega]
      simp only [List.append_assoc]
    · have hstore : storeWord block i (v * 1664525 + 1013904223) = none := if_neg hroom
      rw [hstore, if_neg (by omega)]
      rfl

theorem fillWords_eq (block : Block) (n : Nat) (seed : Word) :
    fillWords block n seed =
      if 4 * n ≤ block.length then
        some ((fillWordsDeterministically n seed).flatMap wordBytes ++ block.drop (4 * n))
      else none := by
  rw [fillWords, fillFrom_eq _ _ _ _ (Nat.zero_le _)]
  simp

theorem length_fillWordsDeterministically (n : Nat) (v : Word) :
    (fillWordsDeterministically n v).length = n := by
  induction n generalizing v with
  | zero => rfl
  | succ n ih => rw [fillWordsDeterministically, List.length_cons, ih]

theorem length_flatMap_wordBytes (words : List Word) :
    (words.flatMap wordBytes).length = 4 * words.length := by
  induction words with
  | nil => rfl
  | cons x words ih =>
    rw [List.flatMap_cons, List.length_append, ih, length_wordBytes, List.length_cons]
    omega

/-! ## Reset and creation -/

/-- The created context: `n` words in each buffer, and the number of their bytes. -/
def freshContext (n : Nat) : TrialContext where
  dest := List.replicate (4 * n) 0
  dummy := List.replicate (4 * n) 0
  data := (fillWordsDeterministically n 0x11111111).flatMap wordBytes
  dataLen := BitVec.ofNat 64 (4 * n)

theorem createDefaultTrialContext_eq_some {allocates : Nat → Bool} {dataSize : BitVec 64}
    {fresh : TrialContext} (h : createDefaultTrialContext allocates dataSize = some fresh) :
    4 * dataSize.toNat < 2 ^ 64 ∧ fresh = freshContext dataSize.toNat := by
  unfold createDefaultTrialContext at h
  obtain ⟨dest, hdest, h⟩ := Option.bind_eq_some_iff.mp h
  have hsize : dataSize.toNat * 4 < 2 ^ 64 ∧ allocates (dataSize.toNat * 4) = true := by
    by_contra hno
    rw [calloc, if_neg hno] at hdest
    cases hdest
  have hcalloc : calloc allocates dataSize.toNat 4 =
      some (List.replicate (4 * dataSize.toNat) 0) := by
    rw [calloc, if_pos hsize, Nat.mul_comm]
  have hfill : fillWords (List.replicate (4 * dataSize.toNat) 0) dataSize.toNat 0x11111111 =
      some ((fillWordsDeterministically dataSize.toNat 0x11111111).flatMap wordBytes) := by
    rw [fillWords_eq, List.length_replicate, if_pos (le_refl _), List.drop_of_length_le (by simp),
      List.append_nil]
  have hlen : dataSize * 4 = BitVec.ofNat 64 (4 * dataSize.toNat) := by
    apply BitVec.eq_of_toNat_eq
    rw [BitVec.toNat_mul, BitVec.toNat_ofNat, Nat.mul_comm]
    rfl
  rw [hcalloc] at hdest h
  cases hdest
  simp only [Option.bind_eq_bind, Option.bind_some] at h
  rw [hfill, hlen] at h
  cases h
  exact ⟨by omega, rfl⟩

/-- `memset` of a whole block. -/
theorem memset_whole {block : Block} {n : Nat} (h : block.length = n) (value : Byte) :
    memset block value n = some (List.replicate n value) := by
  rw [memset, if_pos h.ge, List.drop_of_length_le h.le, List.append_nil]

/-- **Resetting is not creating.** The reset leaves a context as it was created, whatever
was written into its buffers, only when the buffers are empty. Otherwise it writes outside of
the data buffer. -/
theorem reset_eq_fresh_iff {allocates : Nat → Bool} {dataSize : BitVec 64}
    {fresh ctx : TrialContext} (hfresh : createDefaultTrialContext allocates dataSize = some fresh)
    (hctx : Written fresh ctx) :
    resetTrialContext ctx = some fresh ↔ dataSize = 0 := by
  obtain ⟨hsize, rfl⟩ := createDefaultTrialContext_eq_some hfresh
  obtain ⟨hdest, hdummy, hdata, hlen⟩ := hctx
  have hbytes : ctx.dataLen.toNat = 4 * dataSize.toNat := by
    rw [hlen, freshContext, BitVec.toNat_ofNat, Nat.mod_eq_of_lt hsize]
  simp only [freshContext, List.length_replicate, length_flatMap_wordBytes,
    length_fillWordsDeterministically] at hdest hdummy hdata
  have hreset : resetTrialContext ctx =
      (fillWords (List.replicate (4 * dataSize.toNat) 0) (4 * dataSize.toNat) 0x11111111).bind
        fun data => some ⟨List.replicate (4 * dataSize.toNat) 0,
          List.replicate (4 * dataSize.toNat) 0, data, ctx.dataLen⟩ := by
    rw [resetTrialContext, hbytes, memset_whole hdest, memset_whole hdummy, memset_whole hdata]
    rfl
  rw [hreset, fillWords_eq, List.length_replicate]
  by_cases hzero : dataSize = 0
  · subst hzero
    simp only [iff_true]
    rw [hlen]
    rfl
  · -- four times too many words
    have hpos : 0 < dataSize.toNat := by
      rw [Nat.pos_iff_ne_zero]
      exact fun h => hzero (BitVec.eq_of_toNat_eq h)
    rw [if_neg (by omega)]
    simpa using hzero

/-- A context of one word, after something was written into its three buffers. -/
def usedContext : TrialContext where
  dest := [1, 2, 3, 4]
  dummy := [5, 6, 7, 8]
  data := [9, 10, 11, 12]
  dataLen := 4

/-- The reset of an empty context leaves it as it was, and with one word in each buffer it
writes a second one. -/
theorem reset_eq_fresh_iff_used : ∃ empty fresh,
    createDefaultTrialContext (fun _ => true) 0 = some empty ∧ Written empty empty ∧
      (resetTrialContext empty = some empty ↔ (0 : BitVec 64) = 0) ∧
    createDefaultTrialContext (fun _ => true) 1 = some fresh ∧ Written fresh usedContext ∧
      (resetTrialContext usedContext = some fresh ↔ (1 : BitVec 64) = 0) := by
  have hempty : createDefaultTrialContext (fun _ => true) 0 = some (freshContext 0) := by decide
  have hfresh : createDefaultTrialContext (fun _ => true) 1 = some (freshContext 1) := by decide
  have hunchanged : Written (freshContext 0) (freshContext 0) := ⟨rfl, rfl, rfl, rfl⟩
  have hwritten : Written (freshContext 1) usedContext := ⟨rfl, rfl, rfl, rfl⟩
  exact ⟨_, _, hempty, hunchanged, reset_eq_fresh_iff hempty hunchanged, hfresh, hwritten,
    reset_eq_fresh_iff hfresh hwritten⟩

/-- With one word in each buffer the reset writes the second one. -/
theorem reset_one_word : ∃ fresh,
    createDefaultTrialContext (fun _ => true) 1 = some fresh ∧ fresh.data.length = 4 ∧
      fresh.dataLen = 4 ∧ resetTrialContext fresh = none :=
  ⟨freshContext 1, by decide, by decide, by decide, by decide⟩

end MicroSampler.TrialReset
