import MicroSampler.Library.JsonText
import MicroSampler.Library.Loops

/-!
# The output of the timing harness

`generate_json_output` prints the measurements of a run with nested `printf` loops and
commas placed by hand. `isText_generateJsonOutput`: whatever the run, the text is one JSON
document, the one that `Run.document` describes.
-/

namespace MicroSampler.Harness

open Json Loops

/-! ## Memory -/

/-- An array on the heap. Its size in bytes fits a `size_t`. -/
structure HeapArray (w : Nat) where
  cells : List (BitVec w)
  size_lt : cells.length * (w / 8) < 2 ^ 64

namespace HeapArray

variable {w : Nat}

/-- `malloc(bytes)`, with what the memory happens to hold. -/
def malloc (junk : Nat → BitVec w) (bytes : BitVec 64) : HeapArray w where
  cells := (List.range (bytes.toNat / (w / 8))).map junk
  size_lt := by
    rw [List.length_map, List.length_range]
    exact Nat.lt_of_le_of_lt (Nat.div_mul_le_self _ _) bytes.isLt

/-- A read; outside the array it has no meaning. -/
def get? (a : HeapArray w) (i : BitVec 64) : Option (BitVec w) := a.cells[i.toNat]?

/-- A write; outside the array it has no meaning. -/
def set? (a : HeapArray w) (i : BitVec 64) (v : BitVec w) : Option (HeapArray w) :=
  if i.toNat < a.cells.length then
    some ⟨a.cells.set i.toNat v, by rw [List.length_set]; exact a.size_lt⟩
  else none

theorem length_malloc (junk : Nat → BitVec w) (bytes : BitVec 64) :
    (malloc junk bytes).cells.length = bytes.toNat / (w / 8) := by
  simp [malloc]

end HeapArray

/-! ## Printing -/

/-- `%zu` and `%lu`. -/
def printU64 (x : BitVec 64) : List Char := Nat.toDigits 10 x.toNat

/-- `%u`. -/
def printU32 (x : BitVec 32) : List Char := Nat.toDigits 10 x.toNat

/-- `%zd`: the word as a signed number. -/
def printI64 (x : BitVec 64) : List Char :=
  withSign (decide (x.toInt < 0)) (Nat.toDigits 10 x.toInt.natAbs)

structure GlobalContext where
  iterations : BitVec 64
  randomSeed : BitVec 32

/-- The control bit of a key bit: `(uint32_t)((keys[i] >> ki) & 0x1)`. -/
def keyBit (key : BitVec 32) (ki : BitVec 64) : BitVec 32 := (key >>> ki.toNat) &&& 0x1

/-- The `printf` of one trial. -/
def bitText (ki : BitVec 64) (bit key : BitVec 32) (duration : BitVec 64) : List Char :=
  "\n\t\t\t\t\x7b \"bit\": ".toList ++ printU64 ki ++ ", \"class\": ".toList ++ printU32 bit ++
    ", \"key\": ".toList ++ printU32 key ++ ", \"duration\": ".toList ++ printU64 duration ++
    " \x7d".toList

/-- The body of the loop over the bits of a key. -/
def printBit (durations : HeapArray 64) (keys : HeapArray 32) (i ki : BitVec 64) :
    Option (List Char) := do
  let key ← keys.get? i
  let bit := keyBit key ki
  let duration ← durations.get? (i * 32 + ki)
  pure (bitText ki bit key duration ++ if ki < 31 then [','] else [])

/-- The two `printf` around the bits of an iteration. -/
def iterationText (i : BitVec 64) (bits : List Char) : List Char :=
  "\n\t\t\x7b\n\t\t\t\"iteration\": ".toList ++ printU64 i ++ ",\n\t\t\t\"durations\": [".toList ++
    bits ++ "\n\t\t\t]\n\t\t\x7d".toList

/-- The body of the loop over the iterations. -/
def printIteration (ctx : GlobalContext) (durations : HeapArray 64) (keys : HeapArray 32)
    (i : BitVec 64) : Option (List Char) := do
  let bits ← (List.range 32).mapM fun ki => printBit durations keys i (BitVec.ofNat 64 ki)
  pure (iterationText i bits.flatten ++ if i < ctx.iterations - 1 then [','] else [])

/-- The two `printf` around the iterations. -/
def globalText (ctx : GlobalContext) (data : List Char) : List Char :=
  "\x7b\n\t\"iterations\": ".toList ++ printI64 ctx.iterations ++ ",\n\t\"seed\": ".toList ++
    printU32 ctx.randomSeed ++ ",\n\t\"data\": [".toList ++ data ++ "\n\t]\n\x7d\n".toList

/-- `generate_json_output`, as what it prints. -/
def generateJsonOutput (ctx : GlobalContext) (durations : HeapArray 64) (keys : HeapArray 32) :
    Option (List Char) := do
  let iterations ← (List.range ctx.iterations.toNat).mapM fun i =>
    printIteration ctx durations keys (BitVec.ofNat 64 i)
  pure (globalText ctx iterations.flatten)

/-! ## What a run measured -/

/-- The arguments of `generate_json_output`: the arrays hold what the loops read. -/
structure Run where
  ctx : GlobalContext
  durations : HeapArray 64
  keys : HeapArray 32
  enough_durations : ctx.iterations.toNat * 32 ≤ durations.cells.length
  enough_keys : ctx.iterations.toNat ≤ keys.cells.length

namespace Run

/-- The number of iterations. -/
def size (r : Run) : Nat := r.ctx.iterations.toNat

/-- `keys[i]`. -/
def key (r : Run) (i : Nat) : BitVec 32 := r.keys.cells[i]?.getD 0

/-- `durations[i*32+ki]`. -/
def duration (r : Run) (i ki : Nat) : BitVec 64 := r.durations.cells[i * 32 + ki]?.getD 0

/-- `(keys[i] >> ki) & 1`. -/
def cls (r : Run) (i ki : Nat) : BitVec 32 := (r.key i >>> ki) &&& 1

def output (r : Run) : Option (List Char) := generateJsonOutput r.ctx r.durations r.keys

/-- One member of the innermost objects. -/
def bitMembers (r : Run) (i ki : Nat) : List (CodePoints × Json) :=
  [(codes "bit", .int ki), (codes "class", .int (r.cls i ki).toNat),
    (codes "key", .int (r.key i).toNat), (codes "duration", .int (r.duration i ki).toNat)]

def iterationMembers (r : Run) (i : Nat) : List (CodePoints × Json) :=
  [(codes "iteration", .int i),
    (codes "durations", .arr ((List.range 32).map fun ki => .obj (r.bitMembers i ki)))]

/-- The document that a run prints. -/
def document (r : Run) : Json :=
  .obj [(codes "iterations", .int r.size), (codes "seed", .int r.ctx.randomSeed.toNat),
    (codes "data", .arr ((List.range r.size).map fun i => .obj (r.iterationMembers i)))]

/-! ## The arrays hold what is read -/

theorem size_lt (r : Run) : r.size < 2 ^ 56 := by
  have h := r.durations.size_lt
  have hd := r.enough_durations
  rw [size]
  omega

theorem toNat_ofNat {r : Run} {i : Nat} (hi : i < r.size) : (BitVec.ofNat 64 i).toNat = i := by
  have h := r.size_lt
  rw [BitVec.toNat_ofNat, Nat.mod_eq_of_lt (by omega)]

/-- The index arithmetic does not wrap. -/
theorem toNat_index {r : Run} {i ki : Nat} (hi : i < r.size) (hki : ki < 32) :
    (BitVec.ofNat 64 i * 32 + BitVec.ofNat 64 ki).toNat = i * 32 + ki := by
  have h := r.size_lt
  have h32 : (32 : BitVec 64).toNat = 32 := rfl
  rw [BitVec.toNat_add, BitVec.toNat_mul, toNat_ofNat hi, h32, BitVec.toNat_ofNat]
  omega

theorem get?_keys {r : Run} {i : Nat} (hi : i < r.size) :
    r.keys.get? (BitVec.ofNat 64 i) = some (r.key i) := by
  have hlt : i < r.keys.cells.length := Nat.lt_of_lt_of_le hi r.enough_keys
  simp [HeapArray.get?, toNat_ofNat hi, key, List.getElem?_eq_getElem hlt]

theorem get?_durations {r : Run} {i ki : Nat} (hi : i < r.size) (hki : ki < 32) :
    r.durations.get? (BitVec.ofNat 64 i * 32 + BitVec.ofNat 64 ki) = some (r.duration i ki) := by
  have hlt : i * 32 + ki < r.durations.cells.length := by
    have h := r.enough_durations
    have hi' : i < r.ctx.iterations.toNat := hi
    omega
  rw [HeapArray.get?, toNat_index hi hki, duration, List.getElem?_eq_getElem hlt,
    Option.getD_some]

/-! ## The printed text -/

theorem toNat_bit {ki : Nat} (hki : ki < 32) : (BitVec.ofNat 64 ki).toNat = ki := by
  rw [BitVec.toNat_ofNat, Nat.mod_eq_of_lt (by omega)]

theorem toNat_keyBit (r : Run) {i ki : Nat} (hki : ki < 32) :
    keyBit (r.key i) (BitVec.ofNat 64 ki) = r.cls i ki := by
  rw [keyBit, toNat_bit hki, cls]

theorem printBit_eq {r : Run} {i ki : Nat} (hi : i < r.size) (hki : ki < 32) :
    printBit r.durations r.keys (BitVec.ofNat 64 i) (BitVec.ofNat 64 ki) =
      some (bitText (BitVec.ofNat 64 ki) (r.cls i ki) (r.key i) (r.duration i ki) ++
        if ki < 31 then [','] else []) := by
  have h31 : (31 : BitVec 64).toNat = 31 := rfl
  have hcomma : (BitVec.ofNat 64 ki < 31) ↔ ki < 31 := by
    rw [BitVec.lt_def, toNat_bit hki, h31]
  simp only [printBit, get?_keys hi, get?_durations hi hki, toNat_keyBit r hki, hcomma,
    Option.bind_eq_bind, Option.bind_some, Option.pure_def]

theorem printIteration_eq {r : Run} {i : Nat} (hi : i < r.size) :
    printIteration r.ctx r.durations r.keys (BitVec.ofNat 64 i) =
      some (iterationText (BitVec.ofNat 64 i)
        ((List.range 32).flatMap fun ki =>
          bitText (BitVec.ofNat 64 ki) (r.cls i ki) (r.key i) (r.duration i ki) ++
            if ki < 31 then [','] else []) ++ if i + 1 < r.size then [','] else []) := by
  have hcomma : (BitVec.ofNat 64 i < r.ctx.iterations - 1) ↔ i + 1 < r.size := by
    have hlt := r.size_lt
    have h1 : (1 : BitVec 64).toNat = 1 := rfl
    rw [BitVec.lt_def, toNat_ofNat hi, BitVec.toNat_sub, h1]
    unfold size at *
    omega
  have hbits := mapM_eq_some_map fun ki hki => printBit_eq hi (List.mem_range.mp hki)
  rw [printIteration, hbits]
  simp only [hcomma, List.flatMap_def, Option.bind_eq_bind, Option.bind_some, Option.pure_def]

theorem generateJsonOutput_eq (r : Run) :
    r.output = some (globalText r.ctx ((List.range r.size).flatMap fun i =>
      iterationText (BitVec.ofNat 64 i) ((List.range 32).flatMap fun ki =>
        bitText (BitVec.ofNat 64 ki) (r.cls i ki) (r.key i) (r.duration i ki) ++
          if ki < 31 then [','] else []) ++ if i + 1 < r.size then [','] else [])) := by
  have hiterations := mapM_eq_some_map fun i hi =>
    @printIteration_eq r i (List.mem_range.mp hi)
  rw [output, generateJsonOutput, ← size, hiterations]
  simp only [List.flatMap_def, Option.bind_eq_bind, Option.bind_some, Option.pure_def]

/-! ## The text is a document -/

theorem spells_bitText (ki : BitVec 64) (bit key : BitVec 32) (duration : BitVec 64) :
    Spells (bitText ki bit key duration)
      (tokens (.obj [(codes "bit", .int ki.toNat), (codes "class", .int bit.toNat),
        (codes "key", .int key.toNat), (codes "duration", .int duration.toNat)])) := by
  have hbit : Spells "\n\t\t\t\t\x7b \"bit\": ".toList
      [.beginObject, .string (codes "bit"), .nameSeparator] :=
    .blank rfl (.blank rfl (.blank rfl (.blank rfl (.blank rfl (.structural rfl (.blank rfl
      (.name "bit" rfl (.structural rfl (.blank rfl .nil)))))))))
  have hcls : Spells ", \"class\": ".toList
      [.valueSeparator, .string (codes "class"), .nameSeparator] :=
    .structural rfl (.blank rfl (.name "class" rfl (.structural rfl (.blank rfl .nil))))
  have hkey : Spells ", \"key\": ".toList
      [.valueSeparator, .string (codes "key"), .nameSeparator] :=
    .structural rfl (.blank rfl (.name "key" rfl (.structural rfl (.blank rfl .nil))))
  have hduration : Spells ", \"duration\": ".toList
      [.valueSeparator, .string (codes "duration"), .nameSeparator] :=
    .structural rfl (.blank rfl (.name "duration" rfl (.structural rfl (.blank rfl .nil))))
  have hclose : Spells " \x7d".toList [.endObject] := .blank rfl (.structural rfl .nil)
  have h1 := hduration.append (Spells.scalar (scalar_toDigits duration.toNat) rfl hclose)
  have h2 := hkey.append (Spells.scalar (scalar_toDigits key.toNat) rfl h1)
  have h3 := hcls.append (Spells.scalar (scalar_toDigits bit.toNat) rfl h2)
  have h4 := hbit.append (Spells.scalar (scalar_toDigits ki.toNat) rfl h3)
  unfold bitText
  exact h4.of_eq (by simp only [printU64, printU32, List.append_assoc])
    (by simp [tokens, moreMembers])

theorem spells_iterationText (i : BitVec 64) {f : Nat → List Char} {v : Nat → Json}
    (hf : ∀ ki ≤ 31, Spells (f ki) (v ki).tokens) :
    Spells (iterationText i
        ((List.range 32).flatMap fun ki => f ki ++ if ki < 31 then [','] else []))
      (tokens (.obj [(codes "iteration", .int i.toNat),
        (codes "durations", .arr ((List.range 32).map v))])) := by
  have hiteration : Spells "\n\t\t\x7b\n\t\t\t\"iteration\": ".toList
      [.beginObject, .string (codes "iteration"), .nameSeparator] :=
    .blank rfl (.blank rfl (.blank rfl (.structural rfl (.blank rfl (.blank rfl (.blank rfl
      (.blank rfl (.name "iteration" rfl (.structural rfl (.blank rfl .nil))))))))))
  have hdurations : Spells ",\n\t\t\t\"durations\": [".toList
      ([.valueSeparator, .string (codes "durations"), .nameSeparator] ++ [.beginArray]) :=
    .structural rfl (.blank rfl (.blank rfl (.blank rfl (.blank rfl
      (.name "durations" rfl (.structural rfl (.blank rfl (.structural rfl .nil))))))))
  have hclose : Spells "\n\t\t\t]\n\t\t\x7d".toList [.endArray, .endObject] :=
    .blank rfl (.blank rfl (.blank rfl (.blank rfl (.structural rfl
      (.blank rfl (.blank rfl (.blank rfl (.structural rfl .nil))))))))
  have h := hiteration.append (Spells.scalar (scalar_toDigits i.toNat) rfl
    (Spells.array hdurations hf hclose))
  unfold iterationText
  exact h.of_eq (by simp only [printU64, List.append_assoc]) (by simp [tokens, moreMembers])

/-- The number of iterations prints as itself: it has no sign bit. -/
theorem scalar_printI64 (r : Run) : Scalar (printI64 r.ctx.iterations) (.int r.size) := by
  have hlt := r.size_lt
  have hint : r.ctx.iterations.toInt = (r.size : Int) :=
    BitVec.toInt_eq_toNat_of_lt (by rw [← size]; omega)
  have hneg : decide ((r.size : Int) < 0) = false := decide_eq_false (by omega)
  rw [printI64, hint, hneg]
  exact scalar_toDigits r.size

theorem spells_globalText (r : Run) {data : List Char} {v : List Json}
    (hdata : ∀ {o s : List Char} {ts us : List Token}, Spells o (ts ++ [.beginArray]) →
      Spells s (.endArray :: us) → Spells (o ++ (data ++ s)) (ts ++ (tokens (.arr v) ++ us))) :
    Spells (globalText r.ctx data)
      (tokens (.obj [(codes "iterations", .int r.size),
        (codes "seed", .int r.ctx.randomSeed.toNat), (codes "data", .arr v)])) := by
  have hiterations : Spells "\x7b\n\t\"iterations\": ".toList
      [.beginObject, .string (codes "iterations"), .nameSeparator] :=
    .structural rfl (.blank rfl (.blank rfl
      (.name "iterations" rfl (.structural rfl (.blank rfl .nil)))))
  have hseed : Spells ",\n\t\"seed\": ".toList
      [.valueSeparator, .string (codes "seed"), .nameSeparator] :=
    .structural rfl (.blank rfl (.blank rfl
      (.name "seed" rfl (.structural rfl (.blank rfl .nil)))))
  have hopen : Spells ",\n\t\"data\": [".toList
      ([.valueSeparator, .string (codes "data"), .nameSeparator] ++ [.beginArray]) :=
    .structural rfl (.blank rfl (.blank rfl
      (.name "data" rfl (.structural rfl (.blank rfl (.structural rfl .nil))))))
  have hclose : Spells "\n\t]\n\x7d\n".toList [.endArray, .endObject] :=
    .blank rfl (.blank rfl (.structural rfl (.blank rfl (.structural rfl (.blank rfl .nil)))))
  have h := hiterations.append (Spells.scalar (scalar_printI64 r) rfl (hseed.append
    (Spells.scalar (scalar_toDigits r.ctx.randomSeed.toNat) rfl (hdata hopen hclose))))
  unfold globalText
  exact h.of_eq (by simp only [printU32, List.append_assoc]) (by simp [tokens, moreMembers])

/-- **The output is one JSON document.** For every number of iterations, zero included, and
whatever the arrays hold, the text is the document of the run. -/
theorem isText_generateJsonOutput (r : Run) :
    ∃ text, r.output = some text ∧ IsText text r.document := by
  refine ⟨_, generateJsonOutput_eq r, isText_of_spells (spells_globalText r ?_)⟩
  intro o s ts us ho hs
  have hlt := r.size_lt
  rcases Nat.eq_zero_or_pos r.size with hzero | hpos
  · rw [hzero]
    exact (ho.append hs).of_eq (by simp) (by simp [tokens])
  · obtain ⟨n, hn⟩ := Nat.exists_eq_succ_of_ne_zero (Nat.pos_iff_ne_zero.mp hpos)
    have helement : ∀ i ≤ n, Spells
        (iterationText (BitVec.ofNat 64 i) ((List.range 32).flatMap fun ki =>
          bitText (BitVec.ofNat 64 ki) (r.cls i ki) (r.key i) (r.duration i ki) ++
            if ki < 31 then [','] else []))
        (tokens (.obj (r.iterationMembers i))) := by
      intro i hi
      have h := spells_iterationText (BitVec.ofNat 64 i) (fun ki hki =>
        @toNat_bit ki (by omega) ▸
          spells_bitText (BitVec.ofNat 64 ki) (r.cls i ki) (r.key i) (r.duration i ki))
      rwa [toNat_ofNat (r := r) (by omega)] at h
    rw [hn]
    simpa only [Nat.succ_eq_add_one, Nat.add_lt_add_iff_right] using
      Spells.array ho helement hs

end Run

end MicroSampler.Harness
