import MicroSampler.Library.Dict
import MicroSampler.Library.Loops
import MicroSampler.Scripts.Microarchitecture

/-!
# The table writer

`generate_table.py` writes a header and one row for each state of the first hundred
iterations of each key. A row has one field for each name of the header, empty where the
state has no such element. The file is modelled by the fields of its lines.
-/

namespace MicroSampler.Scripts

open Python Loops

/-- `str(n)` of a non-negative integer. -/
def str (n : Nat) : Text := Nat.toDigits 10 n

def iters : Nat := 100

/-! ## The header -/

/-- `name + str(x)` for the first `size` numbers. -/
def numbered (name : String) (size : Nat) : List Text :=
  (List.range size).map fun x => name.toList ++ str x

def header : List Text :=
  ["CYCLE".toList, "LQ-OCPNCY".toList] ++ numbered "LQ-PC-" 8 ++ numbered "LQ-ADDR-" 8 ++
  ["SQ-OCPNCY".toList] ++ numbered "SQ-PC-" 8 ++ numbered "SQ-ADDR-" 8 ++
  ["ROB-OCPNCY".toList] ++ numbered "ROB-PC-" 32 ++ numbered "LFB-" 16 ++
  ["EUU-ALU-0", "EUU-ALU-1", "EUU-ADDRGEN-0", "EUU-DIV-0", "EUU-MUL-0", "PREF-ADDR", "CLASS",
    "ITER", "KEY", "DTLB-NMISS", "DCACHE-NMISS"].map String.toList

/-! ## The rows -/

/-- The first `size` elements in hexadecimal, an empty field for a missing one. -/
def hexFields (size : Nat) (l : List Nat) : List Text :=
  (List.range size).map fun x => (l[x]?.map hex).getD []

/-- The first `size` requests of a unit, an empty field for a missing one. -/
def requestFields (size : Nat) (l : List Text) : List Text :=
  (List.range size).map fun x => l[x]?.getD []

/-- The fields that name the sample. -/
def sampleFields (keystr cls : Text) (loop : Nat) (state : UArch) : List Text :=
  [cls, str loop, keystr, str state.dtlbMisses.pc.length, str state.dcacheMisses.pc.length]

/-- The fields up to the prefetcher. -/
def unitFields (state : UArch) : List Text :=
  [str state.cycleBegin, str state.lq.occupancy] ++ hexFields 8 state.lq.pc ++
  hexFields 8 state.lq.address ++ [str state.sq.occupancy] ++ hexFields 8 state.sq.pc ++
  hexFields 8 state.sq.address ++ [str state.rob.occupancy] ++ hexFields 32 state.rob.pc ++
  hexFields 16 state.lfb.data ++ requestFields 2 state.executionUnits.alu ++
  requestFields 1 state.executionUnits.addrgen ++ requestFields 1 state.executionUnits.div ++
  requestFields 1 state.executionUnits.mul

/-- The row of a state. `hex` of a prefetcher address that was never set raises. -/
def tableRow (keystr cls : Text) (loop : Nat) (state : UArch) : Option (List Text) := do
  let address ← state.hwprefetcher.address
  pure (unitFields state ++ [hex address] ++ sampleFields keystr cls loop state)

/-- What the writer keeps of a trace: `loopsUArch` and the labels `keybin`. -/
structure KeyTrace where
  loopsUArch : List (List UArch)
  keybin : List Text

def iterationRows (keystr : Text) (trace : KeyTrace) (loop : Nat) : Option (List (List Text)) := do
  let states ← trace.loopsUArch[loop]?
  states.mapM fun state => do
    let cls ← trace.keybin[loop]?
    tableRow keystr cls loop state

def keyRows (keystr : Text) (trace : KeyTrace) : Option (List (List Text)) := do
  let rows ← (List.range iters).mapM (iterationRows keystr trace)
  pure rows.flatten

/-- The rows of the table, in the order of the keys. -/
def writeTable (traces : Dict Text KeyTrace) : Option (List (List Text)) := do
  let rows ← traces.entries.mapM fun e => keyRows e.1 e.2
  pure rows.flatten

/-! ## Lengths and positions -/

@[simp] theorem length_numbered (name : String) (size : Nat) :
    (numbered name size).length = size := by
  rw [numbered, List.length_map, List.length_range]

@[simp] theorem length_hexFields (size : Nat) (l : List Nat) :
    (hexFields size l).length = size := by
  rw [hexFields, List.length_map, List.length_range]

@[simp] theorem length_requestFields (size : Nat) (l : List Text) :
    (requestFields size l).length = size := by
  rw [requestFields, List.length_map, List.length_range]

theorem length_unitFields (state : UArch) : (unitFields state).length = 89 := by
  simp [unitFields]

/-- Every row has as many fields as the header. -/
theorem length_tableRow {keystr cls : Text} {loop : Nat} {state : UArch} {row : List Text}
    (h : tableRow keystr cls loop state = some row) : row.length = header.length := by
  obtain ⟨address, -, hrow⟩ := Option.bind_eq_some_iff.mp h
  cases hrow
  simp [length_unitFields, sampleFields, header]

/-- The field under `KEY`. -/
theorem tableRow_key {keystr cls : Text} {loop : Nat} {state : UArch} {row : List Text}
    (h : tableRow keystr cls loop state = some row) : row[92]? = some keystr := by
  obtain ⟨address, -, hrow⟩ := Option.bind_eq_some_iff.mp h
  cases hrow
  rw [List.append_assoc, List.getElem?_append_right (by rw [length_unitFields]; omega),
    length_unitFields]
  rfl

theorem iterationRows_spec {keystr : Text} {trace : KeyTrace} {loop : Nat}
    {rows : List (List Text)} (h : iterationRows keystr trace loop = some rows) :
    ∃ states, trace.loopsUArch[loop]? = some states ∧ rows.length = states.length ∧
      ∀ row ∈ rows, row[92]? = some keystr := by
  obtain ⟨states, hstates, hrows⟩ := Option.bind_eq_some_iff.mp h
  refine ⟨states, hstates, (forall₂_of_mapM hrows).length_eq.symm, ?_⟩
  intro row hrow
  obtain ⟨state, -, hstate⟩ := exists_of_mem_mapM hrows hrow
  obtain ⟨cls, -, hstate⟩ := Option.bind_eq_some_iff.mp hstate
  exact tableRow_key hstate

/-- The first `n` iterations of a key give as many rows as they have states. -/
theorem map_length_iterationRows {keystr : Text} {trace : KeyTrace} {n : Nat}
    {rows : List (List (List Text))}
    (h : (List.range n).mapM (iterationRows keystr trace) = some rows) :
    rows.map List.length = (trace.loopsUArch.take n).map List.length := by
  induction n generalizing rows with
  | zero =>
    cases h
    rfl
  | succ n ih =>
    rw [List.range_succ, List.mapM_append] at h
    obtain ⟨before, hbefore, h⟩ := Option.bind_eq_some_iff.mp h
    obtain ⟨last, hlast, h⟩ := Option.bind_eq_some_iff.mp h
    cases h
    rw [List.mapM_cons, List.mapM_nil] at hlast
    obtain ⟨rows, hrows, hlast⟩ := Option.bind_eq_some_iff.mp hlast
    cases hlast
    obtain ⟨states, hstates, hlength, -⟩ := iterationRows_spec hrows
    rw [List.map_append, ih hbefore, List.take_add_one, hstates]
    simp [hlength]

theorem keyRows_spec {keystr : Text} {trace : KeyTrace} {rows : List (List Text)}
    (h : keyRows keystr trace = some rows) :
    rows.length = ((trace.loopsUArch.take iters).map List.length).sum ∧
      ∀ row ∈ rows, row[92]? = some keystr := by
  obtain ⟨blocks, hblocks, hrows⟩ := Option.bind_eq_some_iff.mp h
  cases hrows
  refine ⟨by rw [List.length_flatten, map_length_iterationRows hblocks], ?_⟩
  intro row hrow
  obtain ⟨block, hblock, hrow⟩ := List.mem_flatten.mp hrow
  obtain ⟨loop, -, hloop⟩ := exists_of_mem_mapM hblocks hblock
  obtain ⟨-, -, -, hkey⟩ := iterationRows_spec hloop
  exact hkey row hrow

/-- A key with non-empty iterations has a row. -/
theorem keyRows_pos {keystr : Text} {trace : KeyTrace} {rows : List (List Text)}
    (h : keyRows keystr trace = some rows) (hiter : ∀ it ∈ trace.loopsUArch, it ≠ []) :
    0 < rows.length := by
  obtain ⟨blocks, hblocks, -⟩ := Option.bind_eq_some_iff.mp h
  have hall := mapM_isSome_iff.mp (Option.isSome_of_eq_some hblocks)
  obtain ⟨block, hblock⟩ := Option.isSome_iff_exists.mp
    (hall 0 (List.mem_range.mpr (by decide : 0 < iters)))
  obtain ⟨states, hstates, -, -⟩ := iterationRows_spec hblock
  obtain ⟨first, rest, hcons⟩ := List.exists_cons_of_ne_nil
    (List.ne_nil_of_mem (List.mem_of_getElem? hstates))
  have hfirst : first ≠ [] := hiter first (hcons ▸ List.mem_cons_self)
  rw [(keyRows_spec h).1, hcons, iters, List.take_succ_cons, List.map_cons, List.sum_cons]
  have := List.length_pos_iff.mpr hfirst
  omega

theorem writeTable_cons {k : Text} {trace : KeyTrace} {traces : Dict Text KeyTrace}
    {rest : List (Text × KeyTrace)} (h : traces.entries = (k, trace) :: rest)
    {rows : List (List Text)} (hrows : writeTable traces = some rows) :
    ∃ first others, keyRows k trace = some first ∧
      (rest.mapM fun e => keyRows e.1 e.2) = some others ∧ rows = first ++ others.flatten := by
  rw [writeTable, h, List.mapM_cons] at hrows
  obtain ⟨all, hall, hrows⟩ := Option.bind_eq_some_iff.mp hrows
  obtain ⟨first, hfirst, hall⟩ := Option.bind_eq_some_iff.mp hall
  obtain ⟨others, hothers, hall⟩ := Option.bind_eq_some_iff.mp hall
  cases hall
  cases hrows
  exact ⟨first, others, hfirst, hothers, List.flatten_cons⟩

end MicroSampler.Scripts
