import MicroSampler.Scripts.TableWriter

/-!
# The correlation reader

`corr_measure.py` reads the table back and rebuilds the iterations of each key by a
run-length segmentation of the rows. Reading drops the header line and one line more, so
the first state of the table is in no iteration, whatever the table.
-/

namespace MicroSampler.Scripts

open Python Loops

/-! ## Reading the table -/

/-- The unit whose cells are correlated with the classes. -/
inductive MeasuredUnit
  | euuAlu | lqAddr | sqAddr | lqPc | sqPc | robPc
  deriving DecidableEq, Repr

/-- `make_column_name`. -/
def makeColumnName (base : String) (size : Nat) : List Text :=
  (List.range size).map fun i => base.toList ++ '_' :: str i

/-- `sub_column`: the names given to all columns but the first. -/
def subColumn : List Text :=
  ["LQ-OCPNCY".toList] ++ makeColumnName "LQ_PC" 8 ++ makeColumnName "LQ_ADDR" 8 ++
  ["SQ-OCPNY".toList] ++ makeColumnName "SQ_PC" 8 ++ makeColumnName "SQ_ADDR" 8 ++
  ["ROB-OCPNY".toList] ++ makeColumnName "ROB_PC" 32 ++ makeColumnName "LFB_DATA" 16 ++
  makeColumnName "EUU_ALU" 2 ++ makeColumnName "EUU_ADDRG" 1 ++ makeColumnName "EUU_DIV" 1 ++
  makeColumnName "EUU_MUL" 1 ++
  ["PREF-ADDR", "CLASS", "ITER", "KEY", "DTLB-NMISS", "DCACHE-NMISS"].map String.toList

/-- The columns of a unit. -/
def MeasuredUnit.columns : MeasuredUnit → List Text
  | .euuAlu => makeColumnName "EUU_ALU" 2
  | .lqAddr => makeColumnName "LQ_ADDR" 8
  | .sqAddr => makeColumnName "SQ_ADDR" 8
  | .lqPc => makeColumnName "LQ_PC" 8
  | .sqPc => makeColumnName "SQ_PC" 8
  | .robPc => makeColumnName "ROB_PC" 32

/-- The cell of a row under a column name; the first field of the line is the index. -/
def cell (fields : List Text) (column : Text) : Option Text := do
  let j ← subColumn.idxOf? column
  (fields.drop 1)[j]?

/-- `fillna('0x00')`: an empty field is a missing value. -/
def fillna (field : Text) : Text := if field = [] then "0x00".toList else field

/-- The columns of `new_df` in one row. -/
structure FrameRow where
  cells : List Text
  cls : Text
  iter : Nat
  key : Text

def frameRow (unit : MeasuredUnit) (fields : List Text) : Option FrameRow := do
  let cells ← unit.columns.mapM (cell fields)
  let cls ← cell fields "CLASS".toList
  let iter ← cell fields "ITER".toList
  let iter ← int iter
  let key ← cell fields "KEY".toList
  pure ⟨cells.map fillna, cls, iter, key⟩

/-- `pd.read_csv(file, names = sub_column, header = 1)`: the first two lines go. -/
def readFrame (unit : MeasuredUnit) (lines : List (List Text)) : Option (List FrameRow) :=
  (lines.drop 2).mapM (frameRow unit)

/-- `addr_dict` for the columns of the unit, filled column by column. -/
def addrDict (unit : MeasuredUnit) (frame : List FrameRow) : Dict Text Unit :=
  Dict.ofKeys ((List.range unit.columns.length).flatMap fun j =>
    frame.map fun row => row.cells[j]?.getD []) fun _ => ()

/-- The number of a cell: zero for `0x00`, else its position among the other values,
counted from one. -/
def addrNumber (dict : Dict Text Unit) (field : Text) : Nat :=
  if field = "0x00".toList then 0
  else (dict.keys.filter fun k => k ≠ "0x00".toList).idxOf field + 1

/-! ## Segmentation -/

def keys : List Text :=
  ["0x44", "0xaa", "rand-0.10_0.90", "rand-0.20_0.80", "rand-0.30_0.70", "rand-0.40_0.60",
    "rand-0.50_0.50", "rand-0.60_0.40", "rand-0.70_0.30", "rand-0.80_0.20",
    "rand-0.90_0.10"].map String.toList

/-- The variables of the segmentation loop. -/
structure Grouping where
  xInp : Dict Text (List (List (List Nat)))
  yInp : Dict Text (List Text)
  tmp : List (List Nat)
  currKey : Text
  currIter : Nat

def Grouping.start : Grouping where
  xInp := Dict.ofKeys keys fun _ => []
  yInp := Dict.ofKeys keys fun _ => []
  tmp := []
  currKey := "0x44".toList
  currIter := 0

/-- Close an iteration: `tmp` and the class of row `i - 1` are appended under the current
key. An unknown key raises. -/
def Grouping.flush (g : Grouping) (frame : List FrameRow) (i : Nat) : Option Grouping := do
  let x ← g.xInp.get? g.currKey
  let y ← g.yInp.get? g.currKey
  let row ← index? frame ((i : Int) - 1)
  pure { g with
    xInp := g.xInp.set g.currKey (x ++ [g.tmp])
    yInp := g.yInp.set g.currKey (y ++ [row.cls])
    tmp := [] }

/-- The first test of the loop body: the key changes. -/
def Grouping.nextKey (g : Grouping) (frame : List FrameRow) (i : Nat) (row : FrameRow) :
    Option Grouping :=
  if row.key ≠ g.currKey then do
    let g ← g.flush frame i
    pure { g with currKey := row.key, currIter := row.iter }
  else some g

/-- The second test of the loop body: the iteration changes. -/
def Grouping.nextIter (g : Grouping) (frame : List FrameRow) (i : Nat) (row : FrameRow) :
    Option Grouping :=
  if row.iter ≠ g.currIter then { g with currIter := row.iter }.flush frame i else some g

def Grouping.step (frame : List FrameRow) (enc : Text → Nat) (g : Grouping) (e : FrameRow × Nat) :
    Option Grouping := do
  let g ← g.nextKey frame e.2 e.1
  let g ← g.nextIter frame e.2 e.1
  pure { g with tmp := g.tmp ++ [e.1.cells.map enc] }

/-- The segmentation with the flush after the loop, where `i` is the last row. -/
def segment (frame : List FrameRow) (enc : Text → Nat) : Option Grouping := do
  let g ← frame.zipIdx.foldlM (Grouping.step frame enc) Grouping.start
  g.flush frame (frame.length - 1)

def correlate (unit : MeasuredUnit) (lines : List (List Text)) : Option Grouping := do
  let frame ← readFrame unit lines
  segment frame (addrNumber (addrDict unit frame))

/-! ## What the segmentation keeps -/

/-- The rows held for a key, those of the open iteration included. -/
def Grouping.contents (g : Grouping) (k : Text) : List (List Nat) :=
  ((g.xInp.get? k).getD []).flatten ++ if k = g.currKey then g.tmp else []

theorem flush_contents {g g' : Grouping} {frame : List FrameRow} {i : Nat}
    (h : g.flush frame i = some g') :
    g'.tmp = [] ∧ g'.currKey = g.currKey ∧
      ∀ k, ((g'.xInp.get? k).getD []).flatten = g.contents k := by
  obtain ⟨x, hx, h⟩ := Option.bind_eq_some_iff.mp h
  obtain ⟨y, -, h⟩ := Option.bind_eq_some_iff.mp h
  obtain ⟨row, -, h⟩ := Option.bind_eq_some_iff.mp h
  cases h
  refine ⟨rfl, rfl, fun k => ?_⟩
  rw [Grouping.contents, Dict.get?_set]
  by_cases hk : k = g.currKey
  · simp [hk, hx]
  · simp [hk]

theorem nextKey_contents {g g' : Grouping} {frame : List FrameRow} {i : Nat} {row : FrameRow}
    (h : g.nextKey frame i row = some g') :
    g'.currKey = row.key ∧ ∀ k, g'.contents k = g.contents k := by
  unfold Grouping.nextKey at h
  split at h
  · obtain ⟨g₁, hflush, h⟩ := Option.bind_eq_some_iff.mp h
    cases h
    obtain ⟨htmp, -, hcontents⟩ := flush_contents hflush
    refine ⟨rfl, fun k => ?_⟩
    rw [← hcontents, Grouping.contents, htmp]
    simp
  · next hkey =>
    cases h
    exact ⟨(not_not.mp hkey).symm, fun _ => rfl⟩

theorem nextIter_contents {g g' : Grouping} {frame : List FrameRow} {i : Nat} {row : FrameRow}
    (h : g.nextIter frame i row = some g') :
    g'.currKey = g.currKey ∧ ∀ k, g'.contents k = g.contents k := by
  unfold Grouping.nextIter at h
  split at h
  · obtain ⟨htmp, hkey, hcontents⟩ := flush_contents h
    refine ⟨hkey, fun k => ?_⟩
    rw [Grouping.contents, htmp, hcontents]
    simp [Grouping.contents]
  · cases h
    exact ⟨rfl, fun _ => rfl⟩

/-- One row: it joins the rows of its key. -/
theorem step_contents {g g' : Grouping} {frame : List FrameRow} {enc : Text → Nat}
    {e : FrameRow × Nat} (h : g.step frame enc e = some g') (k : Text) :
    g'.contents k = g.contents k ++ if e.1.key = k then [e.1.cells.map enc] else [] := by
  obtain ⟨g₁, hkey, h⟩ := Option.bind_eq_some_iff.mp h
  obtain ⟨g₂, hiter, h⟩ := Option.bind_eq_some_iff.mp h
  cases h
  obtain ⟨hcurr₁, hcontents₁⟩ := nextKey_contents hkey
  obtain ⟨hcurr₂, hcontents₂⟩ := nextIter_contents hiter
  rw [← hcontents₁, ← hcontents₂, Grouping.contents, Grouping.contents]
  dsimp only
  rw [hcurr₂, hcurr₁]
  by_cases hk : e.1.key = k
  · simp [hk]
  · simp [hk, Ne.symm hk]

/-- **The segmentation keeps the rows it reads.** Under each key, the iterations hold the
rows of that key, in the order of the table. -/
theorem segment_contents {frame : List FrameRow} {enc : Text → Nat} {g : Grouping}
    (h : segment frame enc = some g) (k : Text) :
    ((g.xInp.get? k).getD []).flatten =
      (frame.filter fun row => row.key = k).map fun row => row.cells.map enc := by
  obtain ⟨g₁, hloop, hflush⟩ := Option.bind_eq_some_iff.mp h
  obtain ⟨-, -, hcontents⟩ := flush_contents hflush
  rw [hcontents]
  have hrun : ∀ (l : List (FrameRow × Nat)) (g₀ : Grouping),
      l.foldlM (Grouping.step frame enc) g₀ = some g₁ →
        g₁.contents k = g₀.contents k ++
          ((l.map Prod.fst).filter fun row => row.key = k).map fun row => row.cells.map enc := by
    intro l
    induction l with
    | nil =>
      intro g₀ h
      cases h
      simp
    | cons e l ih =>
      intro g₀ h
      rw [List.foldlM_cons] at h
      obtain ⟨g₂, hstep, hrest⟩ := Option.bind_eq_some_iff.mp h
      rw [ih g₂ hrest, step_contents hstep, List.map_cons, List.filter_cons]
      by_cases hk : e.1.key = k <;> simp [hk]
  have hstart : Grouping.start.contents k = [] := by
    rw [Grouping.contents, Grouping.start, Dict.get?_ofKeys]
    split <;> simp
  rw [hrun _ _ hloop, hstart, List.nil_append, List.zipIdx_map_fst]

/-! ## Writer and reader -/

/-- The cells of a state under the columns of a unit. -/
def stateCells (unit : MeasuredUnit) (state : UArch) : List Text :=
  match unit with
  | .euuAlu => (requestFields 2 state.executionUnits.alu).map fillna
  | .lqAddr => (hexFields 8 state.lq.address).map fillna
  | .sqAddr => (hexFields 8 state.sq.address).map fillna
  | .lqPc => (hexFields 8 state.lq.pc).map fillna
  | .sqPc => (hexFields 8 state.sq.pc).map fillna
  | .robPc => (hexFields 32 state.rob.pc).map fillna

/-- The iterations the table has for a key. -/
def iterationsOf (traces : Dict Text KeyTrace) (k : Text) : List (List UArch) :=
  ((traces.get? k).map fun trace => trace.loopsUArch.take iters).getD []

/-- The classes of these iterations. -/
def classesOf (traces : Dict Text KeyTrace) (k : Text) : List Text :=
  ((traces.get? k).map fun trace => trace.keybin.take iters).getD []

/-- The reader rebuilds the iterations that were written: for some numbering of the cells,
each key has the rows of its iterations and their classes. -/
def ReaderAgrees (unit : MeasuredUnit) (traces : Dict Text KeyTrace) : Prop :=
  ∃ rows g, writeTable traces = some rows ∧ correlate unit (header :: rows) = some g ∧
    ∃ enc : Text → Nat, ∀ k ∈ keys,
      g.xInp.get? k = some ((iterationsOf traces k).map fun it =>
        it.map fun state => (stateCells unit state).map enc) ∧
      g.yInp.get? k = some (classesOf traces k)

theorem frameRow_key {unit : MeasuredUnit} {fields : List Text} {row : FrameRow}
    (h : frameRow unit fields = some row) : fields[92]? = some row.key := by
  obtain ⟨cells, -, h⟩ := Option.bind_eq_some_iff.mp h
  obtain ⟨cls, -, h⟩ := Option.bind_eq_some_iff.mp h
  obtain ⟨itertext, -, h⟩ := Option.bind_eq_some_iff.mp h
  obtain ⟨iter, -, h⟩ := Option.bind_eq_some_iff.mp h
  obtain ⟨key, hkey, h⟩ := Option.bind_eq_some_iff.mp h
  cases h
  have hcolumn : subColumn.idxOf? "KEY".toList = some 91 := by decide +kernel
  rw [cell, hcolumn] at hkey
  simpa [List.getElem?_drop] using hkey

/-- Agreement needs, for each key, as many rows behind the first one of the table as its
iterations have states. -/
theorem ReaderAgrees.count {unit : MeasuredUnit} {traces : Dict Text KeyTrace}
    (h : ReaderAgrees unit traces) {rows : List (List Text)}
    (hrows : writeTable traces = some rows) {k : Text} (hk : k ∈ keys) :
    ((iterationsOf traces k).map List.length).sum =
      (rows.drop 1).countP fun row => row[92]? = some k := by
  obtain ⟨rows', g, hrows', hg, enc, hagree⟩ := h
  rw [hrows] at hrows'
  cases hrows'
  obtain ⟨frame, hframe, hsegment⟩ := Option.bind_eq_some_iff.mp hg
  have hcontents := congrArg List.length (segment_contents hsegment k)
  rw [(hagree k hk).1, Option.getD_some, List.length_flatten, List.map_map, List.length_map,
    ← List.countP_eq_length_filter] at hcontents
  have hlengths : ((iterationsOf traces k).map (List.length ∘ fun it =>
      it.map fun state => (stateCells unit state).map enc)) =
        (iterationsOf traces k).map List.length := by
    simp [Function.comp_def]
  rw [hlengths] at hcontents
  rw [hcontents]
  -- the frame has the rows from the third line on, with their keys
  have hall := forall₂_of_mapM hframe
  rw [List.drop_succ_cons] at hall
  clear hsegment hcontents hframe hg hrows
  generalize rows.drop 1 = table at hall ⊢
  induction hall with
  | nil => rfl
  | cons hrow _ ih =>
    rw [List.countP_cons, List.countP_cons, ih, frameRow_key hrow]
    simp

/-- **The reader never agrees with the writer.** Whatever keys of the list and non-empty
iterations the table is written for, the first state of the table is missing. -/
theorem not_readerAgrees {unit : MeasuredUnit} {traces : Dict Text KeyTrace}
    (hkeys : ∀ k ∈ traces.keys, k ∈ keys) (hne : traces.keys ≠ [])
    (hiter : ∀ trace ∈ traces.values, ∀ it ∈ trace.loopsUArch, it ≠ []) :
    ¬ ReaderAgrees unit traces := by
  intro h
  obtain ⟨rows, -, hrows, -⟩ := id h
  obtain ⟨⟨k, trace⟩, rest, hentries⟩ : ∃ e rest, traces.entries = e :: rest := by
    cases hentries : traces.entries with
    | nil => exact absurd (by rw [Dict.keys, hentries]; rfl) hne
    | cons e rest => exact ⟨e, rest, rfl⟩
  obtain ⟨first, others, hfirst, hothers, rfl⟩ := writeTable_cons hentries hrows
  have hk : k ∈ keys := hkeys k (by rw [Dict.keys, hentries]; exact List.mem_cons_self)
  have hcount := h.count hrows hk
  obtain ⟨hlength, hfirstkey⟩ := keyRows_spec hfirst
  have hget : traces.get? k = some trace :=
    Dict.get?_eq_some_iff.mpr (hentries ▸ List.mem_cons_self)
  rw [iterationsOf, hget, Option.map_some, Option.getD_some, ← hlength] at hcount
  -- rows of the other keys do not count
  have hotherkeys : (others.flatten.countP fun row => row[92]? = some k) = 0 := by
    rw [List.countP_eq_zero]
    intro row hrow hkey
    obtain ⟨block, hblock, hrow⟩ := List.mem_flatten.mp hrow
    obtain ⟨e, he, hkeyrows⟩ := exists_of_mem_mapM hothers hblock
    have hsame : e.1 = k := by
      have hrowkey := (keyRows_spec hkeyrows).2 row hrow
      rw [of_decide_eq_true hkey] at hrowkey
      exact (Option.some.inj hrowkey).symm
    have hnodup := traces.nodup
    rw [hentries, List.map_cons, List.nodup_cons] at hnodup
    exact hnodup.1 (List.mem_map.mpr ⟨e, he, hsame⟩)
  have hpos := keyRows_pos hfirst (hiter trace (by simp [Dict.values, hentries]))
  obtain ⟨row, tail, rfl⟩ := List.exists_cons_of_length_pos hpos
  rw [List.cons_append, List.drop_one, List.tail_cons, List.countP_append, hotherkeys] at hcount
  have hle : (tail.countP fun row => row[92]? = some k) ≤ tail.length := List.countP_le_length
  rw [List.length_cons] at hcount
  omega

/-- A hundred iterations of one state under one key. -/
def uniformTraces : Dict Text KeyTrace :=
  Dict.ofKeys ["0x44".toList] fun _ =>
    ⟨List.replicate 100 [{ cycleBegin := 0, hwprefetcher := ⟨some 0, some 0⟩ }],
      List.replicate 100 ['0']⟩

theorem not_readerAgrees_uniform : ¬ ReaderAgrees .lqPc uniformTraces :=
  not_readerAgrees (by decide) (by decide) (by decide +kernel)

/-- One of the hundred rows is missing. -/
theorem uniformTraces_row_lost :
    (∃ rows, writeTable uniformTraces = some rows ∧ rows.length = 100) ∧
      ¬ ReaderAgrees .lqPc uniformTraces := by
  have hcount : (writeTable uniformTraces).map (fun rows => (rows.length,
      (rows.drop 1).countP fun row => row[92]? = some "0x44".toList)) = some (100, 99) := by
    decide +kernel
  obtain ⟨rows, hrows, heq⟩ := Option.map_eq_some_iff.mp hcount
  obtain ⟨hlength, hread⟩ := Prod.mk.inj heq
  refine ⟨⟨rows, hrows, hlength⟩, fun h => ?_⟩
  have hagree := h.count hrows (show "0x44".toList ∈ keys by decide)
  rw [hread] at hagree
  revert hagree
  decide +kernel

end MicroSampler.Scripts
