import MicroSampler.Library.Padding
import MicroSampler.Scripts.CorrelationReader

/-!
# Identifiers of iterations

`corr_measure.py` numbers the cells of a unit, pads every iteration to the longest one with
rows of zeros, hashes the rows and numbers the hashes. Zero is also the number of a missing
cell, so a cycle in which the unit is empty is no different from padding.
-/

namespace MicroSampler.Scripts

open Python Loops Padding

/-! ## The iterations of a frame -/

/-- Iterations as rows of cells before `fillna`, the empty text a missing cell. Their rows
are rows of the frame. -/
structure Family (unit : MeasuredUnit) (frame : List FrameRow) where
  iterations : List (List (List Text))
  width : ∀ it ∈ iterations, ∀ row ∈ it, row.length = unit.columns.length
  ofFrame : ∀ it ∈ iterations, ∀ row ∈ it, ∃ r ∈ frame, r.cells = row.map fillna

/-- The rows after `fillna`. -/
def filled (it : List (List Text)) : List (List Text) := it.map fun row => row.map fillna

/-- An entry of `X_inp`. -/
def encodeIteration (unit : MeasuredUnit) (frame : List FrameRow) (it : List (List Text)) :
    List (List Nat) :=
  (filled it).map fun row => row.map (addrNumber (addrDict unit frame))

def Family.encoded {unit : MeasuredUnit} {frame : List FrameRow} (f : Family unit frame) :
    List (List (List Nat)) := f.iterations.map (encodeIteration unit frame)

/-! ## Padding and hashing -/

/-- One test of the loop that finds the longest iteration. -/
def longer (m : Int) (x : List (List Nat)) : Int := if m < x.length then x.length else m

/-- `m`, the number of rows of the longest iteration. -/
def longest (xInp : List (List (List Nat))) : Int := xInp.foldl longer (-1)

/-- The padding loop of one iteration. An array without rows has no `shape[1]`. -/
def padIteration (m : Int) (x : List (List Nat)) : Option (List (List Nat)) :=
  (List.range (m - x.length).toNat).foldlM (fun x _ => do
    let row ← x.head?
    pure (x ++ [List.replicate row.length 0])) x

/-- `X_train`. -/
def xTrain (xInp : List (List (List Nat))) : Option (List (List (List Nat))) :=
  xInp.mapM (padIteration (longest xInp))

def arrayToScalar (hash : List (List Nat) → Int) (arrays : List (List (List Nat))) :
    Dict (List (List Nat)) Int := Dict.ofKeys arrays hash

/-- `X_id`. The second scalar is printed on the way. -/
def xId (hash : List (List Nat) → Int) (xInp : List (List (List Nat))) : Option (List Nat) := do
  let arrays ← xTrain xInp
  let xScalar ← arrays.mapM (arrayToScalar hash arrays).get?
  let _ ← xScalar[1]?
  pure (xScalar.map (number (unique xScalar)))

/-- Any two iterations receive identifiers, the same ones when their rows are the same. -/
def Distinguishes (hash : List (List Nat) → Int) {unit : MeasuredUnit} {frame : List FrameRow}
    (f : Family unit frame) : Prop :=
  ∀ (i j : Nat) a b, i < j → f.iterations[i]? = some a → f.iterations[j]? = some b →
    ∃ ids p q, xId hash f.encoded = some ids ∧ ids[i]? = some p ∧ ids[j]? = some q ∧
      (p = q ↔ a = b)

/-- `hash` is injective on the tuples that occur. -/
def InjectiveOnTuples (hash : List (List Nat) → Int) (xInp : List (List (List Nat))) : Prop :=
  ∀ arrays, xTrain xInp = some arrays →
    ∀ x ∈ arrays, ∀ y ∈ arrays, hash x = hash y → x = y

/-- The second iteration is the first with cycles behind it in which every slot is
missing. A cell `0x00` counts as missing. -/
def ExtendsByEmpty (unit : MeasuredUnit) (a b : List (List Text)) : Prop :=
  Extends (List.replicate unit.columns.length "0x00".toList) (filled a) (filled b)

/-! ## The iterations of the segmentation -/

theorem readFrame_cells {unit : MeasuredUnit} {lines : List (List Text)}
    {frame : List FrameRow} (h : readFrame unit lines = some frame) {r : FrameRow}
    (hr : r ∈ frame) :
    ∃ row : List Text, row.length = unit.columns.length ∧ r.cells = row.map fillna := by
  obtain ⟨fields, -, hfields⟩ := exists_of_mem_mapM h hr
  obtain ⟨row, hrow, hfields⟩ := Option.bind_eq_some_iff.mp hfields
  obtain ⟨cls, -, hfields⟩ := Option.bind_eq_some_iff.mp hfields
  obtain ⟨text, -, hfields⟩ := Option.bind_eq_some_iff.mp hfields
  obtain ⟨iter, -, hfields⟩ := Option.bind_eq_some_iff.mp hfields
  obtain ⟨key, -, hfields⟩ := Option.bind_eq_some_iff.mp hfields
  cases hfields
  exact ⟨row, (forall₂_of_mapM hrow).length_eq.symm, rfl⟩

/-- The iterations that the segmentation keeps for some keys are those of a family. -/
theorem exists_family {unit : MeasuredUnit} {lines : List (List Text)} {frame : List FrameRow}
    (hframe : readFrame unit lines = some frame) {g : Grouping}
    (hg : segment frame (addrNumber (addrDict unit frame)) = some g) (ks : List Text) :
    ∃ f : Family unit frame,
      f.encoded = ks.flatMap fun k => ((g.xInp.get? k).getD []).take iters := by
  have hrows : ∀ x ∈ ks.flatMap fun k => ((g.xInp.get? k).getD []).take iters, ∀ y ∈ x,
      ∃ row : List Text, (row.length = unit.columns.length ∧
        ∃ r ∈ frame, r.cells = row.map fillna) ∧
          (row.map fillna).map (addrNumber (addrDict unit frame)) = y := by
    intro x hx y hy
    obtain ⟨k, -, hk⟩ := List.mem_flatMap.mp hx
    have hmem := List.mem_flatten.mpr ⟨x, List.mem_of_mem_take hk, hy⟩
    rw [segment_contents hg, List.mem_map] at hmem
    obtain ⟨r, hr, rfl⟩ := hmem
    have hrframe := (List.mem_filter.mp hr).1
    obtain ⟨row, hwidth, hcells⟩ := readFrame_cells hframe hrframe
    exact ⟨row, ⟨hwidth, r, hrframe, hcells⟩, by rw [hcells]⟩
  have hiterations : ∀ x ∈ ks.flatMap fun k => ((g.xInp.get? k).getD []).take iters,
      ∃ it : List (List Text), (∀ row ∈ it, row.length = unit.columns.length ∧
        ∃ r ∈ frame, r.cells = row.map fillna) ∧ encodeIteration unit frame it = x := by
    intro x hx
    obtain ⟨it, hall, hmap⟩ := exists_map_eq (hrows x hx)
    refine ⟨it, hall, ?_⟩
    rw [encodeIteration, filled, List.map_map, ← hmap]
    rfl
  obtain ⟨its, hall, hmap⟩ := exists_map_eq hiterations
  exact ⟨⟨its, fun it hit row hrow => (hall it hit row hrow).1,
    fun it hit row hrow => (hall it hit row hrow).2⟩, hmap⟩

/-! ## The numbers of cells -/

theorem addrNumber_zero (dict : Dict Text Unit) : addrNumber dict "0x00".toList = 0 :=
  if_pos rfl

theorem addrNumber_eq_iff {dict : Dict Text Unit} {c c' : Text} (hc : c ∈ dict.keys) :
    addrNumber dict c = addrNumber dict c' ↔ c = c' := by
  constructor
  · intro h
    unfold addrNumber at h
    split at h
    · next hzero =>
      split at h
      · next hzero' => rw [hzero, hzero']
      · cases h
    · next hne =>
      split at h
      · cases h
      · have hmem : c ∈ dict.keys.filter fun k => k ≠ "0x00".toList :=
          List.mem_filter.mpr ⟨hc, decide_eq_true hne⟩
        exact (number_eq_iff hmem).mp h
  · intro h
    rw [h]

/-- The numbering tells apart the cells of the dictionary and the missing cell. -/
theorem addrNumber_injOn {dict : Dict Text Unit} {c c' : Text}
    (hc : c ∈ dict.keys ∨ c = "0x00".toList) (hc' : c' ∈ dict.keys ∨ c' = "0x00".toList)
    (h : addrNumber dict c = addrNumber dict c') : c = c' := by
  obtain hc | rfl := hc
  · exact (addrNumber_eq_iff hc).mp h
  · obtain hc' | rfl := hc'
    · exact ((addrNumber_eq_iff hc').mp h.symm).symm
    · rfl

theorem mem_addrDict {unit : MeasuredUnit} {frame : List FrameRow} {r : FrameRow}
    (hr : r ∈ frame) (hwidth : r.cells.length = unit.columns.length) {c : Text}
    (hc : c ∈ r.cells) : c ∈ (addrDict unit frame).keys := by
  obtain ⟨j, hj, rfl⟩ := List.getElem_of_mem hc
  rw [addrDict, Dict.mem_keys_ofKeys, List.mem_flatMap]
  refine ⟨j, List.mem_range.mpr (hwidth ▸ hj), List.mem_map.mpr ⟨r, hr, ?_⟩⟩
  rw [List.getElem?_eq_getElem hj, Option.getD_some]

theorem Family.mem_addrDict {unit : MeasuredUnit} {frame : List FrameRow}
    (f : Family unit frame) {it : List (List Text)} (hit : it ∈ f.iterations)
    {row : List Text} (hrow : row ∈ filled it) {c : Text} (hc : c ∈ row) :
    c ∈ (addrDict unit frame).keys := by
  obtain ⟨raw, hraw, rfl⟩ := List.mem_map.mp hrow
  obtain ⟨r, hr, hcells⟩ := f.ofFrame it hit raw hraw
  apply Scripts.mem_addrDict hr
  · rw [hcells, List.length_map, f.width it hit raw hraw]
  · rw [hcells]
    exact hc

/-! ## The padded iterations -/

/-- The loop ends with the start value or the length of an iteration, and no length is
above it. -/
theorem foldl_longer (l : List (List (List Nat))) (m : Int) :
    m ≤ l.foldl longer m ∧ (∀ x ∈ l, (x.length : Int) ≤ l.foldl longer m) ∧
      (l.foldl longer m = m ∨ ∃ x ∈ l, l.foldl longer m = x.length) := by
  induction l generalizing m with
  | nil => simp
  | cons y l ih =>
    obtain ⟨hmono, hall, hor⟩ := ih (longer m y)
    have hle : m ≤ longer m y := by
      unfold longer
      split <;> omega
    have hlen : (y.length : Int) ≤ longer m y := by
      unfold longer
      split <;> omega
    have hval : longer m y = m ∨ longer m y = y.length := by
      unfold longer
      split
      · exact Or.inr rfl
      · exact Or.inl rfl
    rw [List.foldl_cons]
    refine ⟨hle.trans hmono, ?_, ?_⟩
    · intro x hx
      obtain rfl | hx := List.mem_cons.mp hx
      · exact hlen.trans hmono
      · exact hall x hx
    · obtain hsame | ⟨x, hx, hx'⟩ := hor
      · rw [hsame]
        exact hval.imp id fun h => ⟨y, List.mem_cons_self, h⟩
      · exact Or.inr ⟨x, List.mem_cons_of_mem _ hx, hx'⟩

theorem le_longest {xInp : List (List (List Nat))} {x : List (List Nat)} (hx : x ∈ xInp) :
    (x.length : Int) ≤ longest xInp := (foldl_longer xInp (-1)).2.1 x hx

/-- An array with rows is padded with rows of its width. -/
theorem padIteration_cons (m : Int) (row : List Nat) (x : List (List Nat)) :
    padIteration m (row :: x) =
      some (padTo (List.replicate row.length 0) m.toNat (row :: x)) := by
  have hrun : ∀ n, (List.range n).foldlM (fun x _ => do
      let row ← x.head?
      pure (x ++ [List.replicate row.length 0])) (row :: x) =
        some (row :: x ++ List.replicate n (List.replicate row.length 0)) := by
    intro n
    induction n with
    | zero => simp
    | succ n ih =>
      rw [List.range_succ, List.foldlM_append, ih]
      simp [List.replicate_succ']
  rw [padIteration, hrun, padTo]
  congr 3
  omega

/-- An array without rows is left alone, or the padding fails. -/
theorem padIteration_nil (m : Int) : padIteration m [] = if m ≤ 0 then some [] else none := by
  rw [padIteration]
  by_cases hm : m ≤ 0
  · have hn : (m - ([] : List (List Nat)).length).toNat = 0 := by
      rw [List.length_nil]
      omega
    rw [hn, if_pos hm]
    rfl
  · have hn : (m - ([] : List (List Nat)).length).toNat = (m.toNat - 1) + 1 := by
      rw [List.length_nil]
      omega
    rw [hn, if_neg hm, List.range_succ_eq_map]
    rfl

theorem padIteration_eq_some_iff {m : Int} {w : Nat} {x y : List (List Nat)}
    (hw : ∀ row ∈ x, row.length = w) :
    padIteration m x = some y ↔ (x = [] → m ≤ 0) ∧ y = padTo (List.replicate w 0) m.toNat x := by
  cases x with
  | nil =>
    rw [padIteration_nil]
    by_cases hm : m ≤ 0
    · rw [if_pos hm, padTo, Int.toNat_of_nonpos hm, Option.some.injEq, eq_comm]
      simp [hm]
    · rw [if_neg hm]
      simp [hm]
  | cons row x =>
    rw [padIteration_cons, hw row List.mem_cons_self, Option.some.injEq, eq_comm]
    simp

/-! ## Equal identifiers -/

section Identifiers

variable {unit : MeasuredUnit} {frame : List FrameRow} (f : Family unit frame)

/-- The cells of an iteration, padded with cycles without elements. -/
def Family.padded (it : List (List Text)) : List (List Text) :=
  padTo (List.replicate unit.columns.length "0x00".toList) (longest f.encoded).toNat (filled it)

/-- The padded array of numbers. -/
def Family.array (it : List (List Text)) : List (List Nat) :=
  (f.padded it).map fun row => row.map (addrNumber (addrDict unit frame))

theorem padTo_encodeIteration (it : List (List Text)) :
    padTo (List.replicate unit.columns.length 0) (longest f.encoded).toNat
      (encodeIteration unit frame it) = f.array it := by
  rw [Family.array, Family.padded, padTo, padTo, List.map_append, List.map_replicate,
    List.map_replicate, addrNumber_zero, encodeIteration, List.length_map]

theorem padIteration_encode {it : List (List Text)} (hit : it ∈ f.iterations)
    {y : List (List Nat)} :
    padIteration (longest f.encoded) (encodeIteration unit frame it) = some y ↔
      (it = [] → longest f.encoded ≤ 0) ∧ y = f.array it := by
  have hw : ∀ row ∈ encodeIteration unit frame it, row.length = unit.columns.length := by
    intro row hrow
    obtain ⟨cells, hcells, rfl⟩ := List.mem_map.mp hrow
    obtain ⟨raw, hraw, rfl⟩ := List.mem_map.mp hcells
    rw [List.length_map, List.length_map, f.width it hit raw hraw]
  rw [padIteration_eq_some_iff hw, padTo_encodeIteration, encodeIteration, filled,
    List.map_eq_nil_iff, List.map_eq_nil_iff]

theorem longest_nonpos_iff :
    longest f.encoded ≤ 0 ↔ ∀ b ∈ f.iterations, b = [] := by
  constructor
  · intro h b hb
    have hle := le_longest (List.mem_map_of_mem (f := encodeIteration unit frame) hb)
    rw [← Family.encoded, encodeIteration, List.length_map, filled, List.length_map] at hle
    apply List.eq_nil_of_length_eq_zero
    omega
  · intro h
    obtain hstart | ⟨x, hx, hlength⟩ := (foldl_longer f.encoded (-1)).2.2
    · rw [longest, hstart]
      omega
    · obtain ⟨b, hb, rfl⟩ := List.mem_map.mp hx
      rw [longest, hlength, h b hb]
      rfl

/-- The padding succeeds unless some iteration has no cycle and another one has. -/
theorem xTrain_eq_some_iff {arrays : List (List (List Nat))} :
    xTrain f.encoded = some arrays ↔
      (∀ a ∈ f.iterations, ∀ b ∈ f.iterations, a = [] → b = []) ∧
        arrays = f.iterations.map f.array := by
  have hreturns (hempty : ∀ a ∈ f.iterations, a = [] → longest f.encoded ≤ 0) :
      xTrain f.encoded = some (f.iterations.map f.array) := by
    rw [xTrain]
    nth_rewrite 2 [Family.encoded]
    rw [List.mapM_map]
    exact mapM_eq_some_map fun it hit => (padIteration_encode f hit).mpr ⟨hempty it hit, rfl⟩
  constructor
  · intro h
    have hempty : ∀ a ∈ f.iterations, a = [] → longest f.encoded ≤ 0 := by
      intro a ha
      have hsome := mapM_isSome_iff.mp (Option.isSome_of_mem h) _
        (List.mem_map_of_mem (f := encodeIteration unit frame) ha)
      obtain ⟨y, hy⟩ := Option.isSome_iff_exists.mp hsome
      exact ((padIteration_encode f ha).mp hy).1
    rw [hreturns hempty] at h
    exact ⟨fun a ha b hb hnil => (longest_nonpos_iff f).mp (hempty a ha hnil) b hb,
      (Option.some.inj h).symm⟩
  · intro ⟨hempty, harrays⟩
    rw [harrays]
    exact hreturns fun a ha hnil => (longest_nonpos_iff f).mpr fun b hb => hempty a ha b hb hnil

/-- Two padded arrays are the same when one iteration extends the other by empty cycles. -/
theorem array_eq_iff {a b : List (List Text)} (ha : a ∈ f.iterations) (hb : b ∈ f.iterations) :
    f.array a = f.array b ↔ ExtendsByEmpty unit a b ∨ ExtendsByEmpty unit b a := by
  have hlen : ∀ it ∈ f.iterations, (filled it).length ≤ (longest f.encoded).toNat := by
    intro it hit
    have hle := le_longest (List.mem_map_of_mem (f := encodeIteration unit frame) hit)
    rw [encodeIteration, List.length_map] at hle
    rw [Family.encoded]
    omega
  have hcells : ∀ it ∈ f.iterations, ∀ row ∈ f.padded it, ∀ c ∈ row,
      c ∈ (addrDict unit frame).keys ∨ c = "0x00".toList := by
    intro it hit row hrow c hc
    rw [Family.padded, padTo, List.mem_append] at hrow
    obtain hrow | hrow := hrow
    · exact Or.inl (f.mem_addrDict hit hrow hc)
    · rw [List.eq_of_mem_replicate hrow] at hc
      exact Or.inr (List.eq_of_mem_replicate hc)
  rw [Family.array, Family.array, map_eq_map_iff_of_injOn]
  · rw [Family.padded, Family.padded, padTo_eq_padTo_iff (hlen a ha) (hlen b hb)]
    rfl
  · intro row hrow row' hrow' h
    refine (map_eq_map_iff_of_injOn fun c hc c' hc' => ?_).mp h
    exact addrNumber_injOn (hcells a ha row hrow c hc) (hcells b hb row' hrow' c' hc')

/-- The number of the hash of an iteration among the hashes of the family. -/
def Family.identifier (hash : List (List Nat) → Int) (it : List (List Text)) : Nat :=
  number (unique (f.iterations.map fun it => hash (f.array it))) (hash (f.array it))

/-- The identifiers, whenever there are any. -/
theorem xId_eq_some_iff {hash : List (List Nat) → Int} {ids : List Nat} :
    xId hash f.encoded = some ids ↔
      (∀ a ∈ f.iterations, ∀ b ∈ f.iterations, a = [] → b = []) ∧ 2 ≤ f.iterations.length ∧
        ids = f.iterations.map (f.identifier hash) := by
  have hscalars : (f.iterations.map f.array).mapM
      (arrayToScalar hash (f.iterations.map f.array)).get? =
        some (f.iterations.map fun it => hash (f.array it)) := by
    rw [List.mapM_map]
    refine mapM_eq_some_map fun it hit => ?_
    rw [arrayToScalar, Function.comp_apply, Dict.get?_ofKeys, if_pos (List.mem_map_of_mem hit)]
  have hsecond : (∃ v, (f.iterations.map fun it => hash (f.array it))[1]? = some v) ↔
      2 ≤ f.iterations.length := by
    rw [← Option.isSome_iff_exists, isSome_getElem?, List.length_map]
    rfl
  unfold xId
  constructor
  · intro h
    obtain ⟨arrays, harrays, h⟩ := Option.bind_eq_some_iff.mp h
    obtain ⟨hempty, rfl⟩ := (xTrain_eq_some_iff f).mp harrays
    obtain ⟨scalars, hsome, h⟩ := Option.bind_eq_some_iff.mp h
    rw [hscalars] at hsome
    cases hsome
    obtain ⟨v, hv, h⟩ := Option.bind_eq_some_iff.mp h
    cases h
    refine ⟨hempty, hsecond.mp ⟨v, hv⟩, ?_⟩
    rw [List.map_map]
    rfl
  · intro ⟨hempty, htwo, hids⟩
    obtain ⟨v, hv⟩ := hsecond.mpr htwo
    rw [(xTrain_eq_some_iff f).mpr ⟨hempty, rfl⟩]
    simp only [Option.bind_eq_bind, Option.bind_some]
    rw [hscalars]
    simp only [Option.bind_some]
    rw [hv, hids, Option.bind_some, List.map_map]
    rfl

/-- Two iterations of the family: what their identifiers say. -/
theorem ids_agree_iff {hash : List (List Nat) → Int} (hinj : InjectiveOnTuples hash f.encoded)
    {i j : Nat} (hij : i < j) {a b : List (List Text)} (ha : f.iterations[i]? = some a)
    (hb : f.iterations[j]? = some b) :
    (∃ ids p q, xId hash f.encoded = some ids ∧ ids[i]? = some p ∧ ids[j]? = some q ∧
      (p = q ↔ a = b)) ↔
        (∀ a ∈ f.iterations, ∀ b ∈ f.iterations, a = [] → b = []) ∧
          (ExtendsByEmpty unit a b ∨ ExtendsByEmpty unit b a → a = b) := by
  have hmema := List.mem_of_getElem? ha
  have hmemb := List.mem_of_getElem? hb
  have hnumbers (hempty : ∀ a ∈ f.iterations, ∀ b ∈ f.iterations, a = [] → b = []) :
      f.identifier hash a = f.identifier hash b ↔
        ExtendsByEmpty unit a b ∨ ExtendsByEmpty unit b a := by
    rw [Family.identifier, Family.identifier,
      number_eq_iff (mem_unique.mpr (List.mem_map.mpr ⟨a, hmema, rfl⟩)),
      ← array_eq_iff f hmema hmemb]
    constructor
    · exact hinj _ ((xTrain_eq_some_iff f).mpr ⟨hempty, rfl⟩) _ (List.mem_map_of_mem hmema) _
        (List.mem_map_of_mem hmemb)
    · intro h
      rw [h]
  constructor
  · intro ⟨ids, p, q, hids, hp, hq, hpq⟩
    obtain ⟨hempty, -, rfl⟩ := (xId_eq_some_iff f).mp hids
    rw [List.getElem?_map, ha] at hp
    rw [List.getElem?_map, hb] at hq
    cases hp
    cases hq
    rw [hnumbers hempty] at hpq
    exact ⟨hempty, hpq.mp⟩
  · intro ⟨hempty, hsame⟩
    obtain ⟨hj, -⟩ := List.getElem?_eq_some_iff.mp hb
    refine ⟨_, f.identifier hash a, f.identifier hash b, (xId_eq_some_iff f).mpr
      ⟨hempty, by omega, rfl⟩, ?_, ?_, ?_⟩
    · rw [List.getElem?_map, ha]
      rfl
    · rw [List.getElem?_map, hb]
      rfl
    · rw [hnumbers hempty]
      refine ⟨hsame, fun h => Or.inl ?_⟩
      rw [h]
      exact Extends.refl _ _

end Identifiers

/-- **When identifiers tell iterations apart.** Any two iterations receive the same
identifier exactly when their rows are the same: this holds when no iteration is another one
with empty cycles behind it, and no iteration is without cycles while another has some. -/
theorem distinguishes_iff {unit : MeasuredUnit} {frame : List FrameRow} (f : Family unit frame)
    {hash : List (List Nat) → Int} (hinj : InjectiveOnTuples hash f.encoded) :
    Distinguishes hash f ↔
      (∀ a ∈ f.iterations, ∀ b ∈ f.iterations, a = [] → b = []) ∧
        ∀ a ∈ f.iterations, ∀ b ∈ f.iterations, ExtendsByEmpty unit a b → a = b := by
  constructor
  · intro h
    -- two different iterations stand at two places, in one order or the other
    have hpair (a) (ha : a ∈ f.iterations) (b) (hb : b ∈ f.iterations) (hne : a ≠ b) :
        (∀ a ∈ f.iterations, ∀ b ∈ f.iterations, a = [] → b = []) ∧
          ¬ (ExtendsByEmpty unit a b ∨ ExtendsByEmpty unit b a) := by
      obtain ⟨i, hi⟩ := List.mem_iff_getElem?.mp ha
      obtain ⟨j, hj⟩ := List.mem_iff_getElem?.mp hb
      obtain hij | hij | hij := Nat.lt_trichotomy i j
      · obtain ⟨hempty, hsame⟩ := (ids_agree_iff f hinj hij hi hj).mp (h i j a b hij hi hj)
        exact ⟨hempty, fun hext => hne (hsame hext)⟩
      · subst hij
        rw [hi] at hj
        exact absurd (Option.some.inj hj) hne
      · obtain ⟨hempty, hsame⟩ := (ids_agree_iff f hinj hij hj hi).mp (h j i b a hij hj hi)
        exact ⟨hempty, fun hext => hne (hsame hext.symm).symm⟩
    constructor
    · intro a ha b hb hnil
      by_contra hne
      have hdiff : a ≠ b := fun hab => hne (hab ▸ hnil)
      exact hne ((hpair a ha b hb hdiff).1 a ha b hb hnil)
    · intro a ha b hb hext
      by_contra hne
      exact (hpair a ha b hb hne).2 (Or.inl hext)
  · intro ⟨hempty, hsame⟩ i j a b hij ha hb
    have hmema := List.mem_of_getElem? ha
    have hmemb := List.mem_of_getElem? hb
    refine (ids_agree_iff f hinj hij ha hb).mpr ⟨hempty, fun hext => ?_⟩
    obtain hext | hext := hext
    · exact hsame a hmema b hmemb hext
    · exact (hsame b hmemb a hmema hext).symm

/-! ## A failing table -/

def emptyTailFrame : List FrameRow :=
  [⟨["0x1".toList, "0x00".toList], "0".toList, 0, "0x44".toList⟩,
    ⟨["0x1".toList, "0x00".toList], "1".toList, 1, "0x44".toList⟩,
    ⟨["0x00".toList, "0x00".toList], "1".toList, 1, "0x44".toList⟩]

/-- Two iterations, the second with one more cycle, in which the unit is empty. -/
def emptyTail : Family .euuAlu emptyTailFrame where
  iterations := [[["0x1".toList, []]], [["0x1".toList, []], [[], []]]]
  width := by decide
  ofFrame := by decide

/-- A polynomial in the numbers of the tuple. -/
def tupleHash (x : List (List Nat)) : Int := x.flatten.foldl (fun h c => 31 * h + c) 7

theorem emptyTail_injective : InjectiveOnTuples tupleHash emptyTail.encoded := by
  intro arrays harrays x hx y hy _
  have hvalue : xTrain emptyTail.encoded = some [[[1, 0], [0, 0]], [[1, 0], [0, 0]]] := by
    decide
  rw [hvalue] at harrays
  cases harrays
  simp only [List.mem_cons, List.not_mem_nil, or_false, or_self] at hx hy
  rw [hx, hy]

theorem distinguishes_iff_emptyTail : InjectiveOnTuples tupleHash emptyTail.encoded ∧
    (Distinguishes tupleHash emptyTail ↔
      (∀ a ∈ emptyTail.iterations, ∀ b ∈ emptyTail.iterations, a = [] → b = []) ∧
        ∀ a ∈ emptyTail.iterations, ∀ b ∈ emptyTail.iterations,
          ExtendsByEmpty .euuAlu a b → a = b) :=
  ⟨emptyTail_injective, distinguishes_iff emptyTail emptyTail_injective⟩

/-- An iteration and the same iteration with an empty cycle behind it receive the same
identifier. -/
theorem emptyTail_not_distinguished :
    InjectiveOnTuples tupleHash emptyTail.encoded ∧ ¬ Distinguishes tupleHash emptyTail := by
  refine ⟨emptyTail_injective, fun h => ?_⟩
  have hsame := ((ids_agree_iff emptyTail emptyTail_injective Nat.zero_lt_one rfl rfl).mp
    (h 0 1 _ _ Nat.zero_lt_one rfl rfl)).2
  exact absurd (hsame (Or.inl ⟨1, rfl⟩)) (by decide)

end MicroSampler.Scripts
