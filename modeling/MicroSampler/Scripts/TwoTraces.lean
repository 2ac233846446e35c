import MicroSampler.Scripts.MissRows

/-!
# The table of two traces

`generate_table_multiple.py` puts the states of a baseline trace and of one with an
optimisation into one table. The lines have the names of the header for their fields, but the
columns of the execution units are empty throughout: a state has no `executionUnitsBusy`, and
the access stands in a `try`.

* `multipleTable_matches`: the program ends normally exactly when every state has an address of
  the prefetcher, and then each state has one line with its values.
* `multipleTable_of_traces`: for parsed traces, when each cycle has a line of the prefetcher.
-/

namespace MicroSampler.Scripts

open Python Loops

/-! ## Writing -/

/-- `header`. -/
def multipleHeader : Text :=
  let text := addField [] "LQ-OCPNCY".toList
  let text := addNumbered text "LQ-PC-" 8
  let text := addNumbered text "LQ-ADDR-" 8
  let text := addField text "SQ-OCPNCY".toList
  let text := addNumbered text "SQ-PC-" 8
  let text := addNumbered text "SQ-ADDR-" 8
  let text := addField text "ROB-OCPNCY".toList
  let text := addNumbered text "ROB-PC-" 32
  let text := addNumbered text "LFB-" 16
  let text := addNumbered text "EUU-" 4
  text ++ "PREF-ADDR,IMPL".toList

/-- `row`, without its end of line. -/
def multipleRow (traceName : Text) (state : UArch) : Option Text := do
  let row := addField [] (str state.lq.occupancy)
  let row := trimmed (tryFields row 8 fun x => state.lq.pc[x]?.map hex)
  let row := trimmed (tryFields row 8 fun x => state.lq.address[x]?.map hex)
  let row := addField row (str state.sq.occupancy)
  let row := trimmed (tryFields row 8 fun x => state.sq.pc[x]?.map hex)
  let row := trimmed (tryFields row 8 fun x => state.sq.address[x]?.map hex)
  let row := addField row (str state.rob.occupancy)
  let row := trimmed (tryFields row 32 fun x => state.rob.pc[x]?.map hex)
  let row := trimmed (tryFields row 16 fun x => state.lfb.data[x]?.map hex)
  -- `state.executionUnitsBusy` raises
  let row := trimmed (tryFields row 4 fun _ => none)
  let address ← state.hwprefetcher.address
  let row := addField row (hex address)
  pure (row ++ traceName)

/-- `traces`, in the order of the dictionary, with the name of the trace at each state. -/
def namedStates (s1 s2 : List UArch) : List (Text × UArch) :=
  s1.map (fun state => ("baseline".toList, state)) ++ s2.map fun state => ("opt".toList, state)

/-- The file. -/
def multipleTable (s1 s2 : List UArch) : Option Text := do
  let rows ← (namedStates s1 s2).mapM fun x => multipleRow x.1 x.2
  pure (linesText (multipleHeader :: rows))

/-! ## Columns -/

/-- The names of the header, with what belongs under each. -/
inductive MultipleColumn
  | shared (c : Column)
  | euu (x : Nat)
  | impl

namespace MultipleColumn

/-- The columns of the queues and of the line fill buffer. -/
def queueColumns : List Column :=
  [Column.lqOcpncy] ++ (List.range 8).map Column.lqPc ++ (List.range 8).map Column.lqAddr ++
  [Column.sqOcpncy] ++ (List.range 8).map Column.sqPc ++ (List.range 8).map Column.sqAddr ++
  [Column.robOcpncy] ++ (List.range 32).map Column.robPc ++ (List.range 16).map Column.lfb

def columns : List MultipleColumn :=
  queueColumns.map shared ++ (List.range 4).map euu ++ [shared .prefAddr, impl]

def name : MultipleColumn → Text
  | shared c => c.name
  | euu x => "EUU-".toList ++ str x
  | impl => "IMPL".toList

/-- The value of a state, if it has the element. -/
def value (traceName : Text) (state : UArch) : MultipleColumn → Option Text
  | shared c => c.value [] [] 0 state
  | euu _ => none
  | impl => some traceName

end MultipleColumn

open MultipleColumn (columns)

theorem addField_nil (field : Text) : addField [] field = terminated [field] :=
  addField_terminated [] field

theorem multipleHeader_eq :
    multipleHeader = List.intercalate [','] (columns.map MultipleColumn.name) := by
  have hlast : "PREF-ADDR,IMPL".toList =
      List.intercalate [','] (["PREF-ADDR", "IMPL"].map String.toList) := by
    decide +kernel
  have hnames : (columns.map MultipleColumn.name) =
      ["LQ-OCPNCY".toList] ++ numbered "LQ-PC-" 8 ++ numbered "LQ-ADDR-" 8 ++
        ["SQ-OCPNCY".toList] ++ numbered "SQ-PC-" 8 ++ numbered "SQ-ADDR-" 8 ++
        ["ROB-OCPNCY".toList] ++ numbered "ROB-PC-" 32 ++ numbered "LFB-" 16 ++
        numbered "EUU-" 4 ++ ["PREF-ADDR", "IMPL"].map String.toList := by
    decide +kernel
  unfold multipleHeader
  rw [hlast, hnames]
  simp only [addField_nil, addField_terminated, addNumbered_terminated]
  rw [terminated_append_intercalate _ (by simp)]

theorem nodup_multipleNames : (columns.map MultipleColumn.name).Nodup := by decide +kernel

theorem fields_multipleHeader : fields multipleHeader = columns.map MultipleColumn.name := by
  have hcomma : ∀ name ∈ columns.map MultipleColumn.name, ',' ∉ name := by decide +kernel
  rw [multipleHeader_eq, fields_intercalate (by decide) hcomma]

theorem lineEnd_not_mem_multipleHeader : '\n' ∉ multipleHeader := by
  have hnames : ∀ name ∈ columns.map MultipleColumn.name, '\n' ∉ name := by decide +kernel
  rw [multipleHeader_eq]
  exact not_mem_intercalate (by decide) hnames

/-- The text of a line is that of its values between commas. -/
theorem multipleRow_eq {traceName : Text} {state : UArch}
    (ha : state.hwprefetcher.address ≠ none) :
    multipleRow traceName state = some (List.intercalate [',']
      (columns.map fun c => (c.value traceName state).getD [])) := by
  obtain ⟨address, ha⟩ := Option.ne_none_iff_exists'.mp ha
  unfold multipleRow
  simp only [addField_nil, addField_terminated, tryFields_terminated, trimmed_terminated,
    List.cons_append, terminated_append, ha, Option.bind_eq_bind, Option.bind_some,
    Option.pure_def, Option.some.injEq]
  congr 1
  simp only [columns, MultipleColumn.queueColumns, List.map_append, List.map_map, List.map_cons,
    List.map_nil, MultipleColumn.value, Column.value, ha, Function.comp_def, Option.map_some,
    Option.getD_some, Option.getD_none, List.append_assoc, List.cons_append, List.nil_append]

theorem isSome_multipleRow_iff {traceName : Text} {state : UArch} :
    (multipleRow traceName state).isSome ↔ state.hwprefetcher.address ≠ none := by
  constructor
  · intro hsome ha
    unfold multipleRow at hsome
    rw [ha] at hsome
    cases hsome
  · intro ha
    rw [multipleRow_eq ha]
    rfl

/-! ## The table -/

/-- A line that says of a state what the header says it does. -/
structure MultipleMatches (x : Text × UArch) (line : Text) : Prop where
  length : (fields line).length = (fields multipleHeader).length
  value : ∀ c ∈ columns, ((fields multipleHeader).zip (fields line)).lookup c.name =
    some ((c.value x.1 x.2).getD [])

theorem writable_multipleValue {traceName : Text} (hname : Writable traceName) {state : UArch}
    {c : MultipleColumn} (hc : c ∈ columns) {t : Text}
    (ht : c.value traceName state = some t) : Writable t := by
  have hmap {l : List Nat} {x : Nat} (hx : l[x]?.map hex = some t) : Writable t := by
    obtain ⟨n, -, rfl⟩ := Option.map_eq_some_iff.mp hx
    exact writable_hex n
  cases c with
  | shared c =>
    cases c with
    | cycle | lqOcpncy | sqOcpncy | robOcpncy | iter | dtlbNmiss | dcacheNmiss =>
      cases ht
      exact writable_str _
    | lqPc | lqAddr | sqPc | sqAddr | robPc | lfb => exact hmap ht
    | prefAddr =>
      obtain ⟨n, -, rfl⟩ := Option.map_eq_some_iff.mp ht
      exact writable_hex n
    | euu | cls | key => simp [columns, MultipleColumn.queueColumns] at hc
  | euu => cases ht
  | impl =>
    cases ht
    exact hname

theorem multipleMatches {x : Text × UArch} (hname : Writable x.1) {line : Text}
    (h : multipleRow x.1 x.2 = some line) : '\n' ∉ line ∧ MultipleMatches x line := by
  have ha := isSome_multipleRow_iff.mp (Option.isSome_of_eq_some h)
  rw [multipleRow_eq ha] at h
  cases h
  have hchar {ch : Char} (hch : ∀ t, Writable t → ch ∉ t) :
      ∀ field ∈ columns.map fun c => (c.value x.1 x.2).getD [], ch ∉ field := by
    intro field hfield
    obtain ⟨c, hc, rfl⟩ := List.mem_map.mp hfield
    cases hvalue : c.value x.1 x.2 with
    | none => exact List.not_mem_nil
    | some t => exact hch t (writable_multipleValue hname hc hvalue)
  have hfields := fields_intercalate (by simp [columns]) (hchar fun t ht => ht.2.1)
  refine ⟨not_mem_intercalate (by decide) (hchar fun t ht => ht.2.2), ?_, fun c hc => ?_⟩
  · rw [hfields, fields_multipleHeader, List.length_map, List.length_map]
  · rw [hfields, fields_multipleHeader]
    exact lookup_zip_map nodup_multipleNames hc

theorem writable_traceName {s1 s2 : List UArch} {x : Text × UArch} (h : x ∈ namedStates s1 s2) :
    Writable x.1 := by
  have hname : ∀ name ∈ ["baseline".toList, "opt".toList],
      name ≠ [] ∧ ',' ∉ name ∧ '\n' ∉ name := by
    decide
  obtain h | h := List.mem_append.mp h
  · obtain ⟨state, -, rfl⟩ := List.mem_map.mp h
    exact hname _ List.mem_cons_self
  · obtain ⟨state, -, rfl⟩ := List.mem_map.mp h
    exact hname _ (List.mem_cons_of_mem _ List.mem_cons_self)

theorem map_snd_namedStates (s1 s2 : List UArch) : (namedStates s1 s2).map Prod.snd = s1 ++ s2 := by
  simp [namedStates, Function.comp_def]

theorem isSome_multipleTable_iff {s1 s2 : List UArch} :
    (multipleTable s1 s2).isSome ↔ ∀ state ∈ s1 ++ s2, state.hwprefetcher.address ≠ none := by
  have hrows : ((namedStates s1 s2).mapM fun x => multipleRow x.1 x.2).isSome ↔
      ∀ x ∈ namedStates s1 s2, x.2.hwprefetcher.address ≠ none := by
    simp only [mapM_isSome_iff, isSome_multipleRow_iff]
  rw [← map_snd_namedStates, List.forall_mem_map, ← hrows, multipleTable]
  cases (namedStates s1 s2).mapM fun x => multipleRow x.1 x.2 <;> simp

/-- **The table of two traces.** The program ends normally when every state has an address of
the prefetcher, and only then. The file is the header and a line for each state, the baseline
first, with the values of the state under their names; the four columns of the execution units
are empty. -/
theorem multipleTable_matches (s1 s2 : List UArch) :
    ((multipleTable s1 s2).isSome ↔ ∀ state ∈ s1 ++ s2, state.hwprefetcher.address ≠ none) ∧
    ∀ file, multipleTable s1 s2 = some file → ∃ rows,
      file.splitOn '\n' = multipleHeader :: rows ++ [[]] ∧
      fields multipleHeader = columns.map MultipleColumn.name ∧
      List.Forall₂ MultipleMatches (namedStates s1 s2) rows := by
  refine ⟨isSome_multipleTable_iff, fun file hfile => ?_⟩
  obtain ⟨rows, hrows, hfile⟩ := Option.bind_eq_some_iff.mp hfile
  obtain rfl : linesText (multipleHeader :: rows) = file := Option.some.inj hfile
  have hlines := (List.forall₂_and_left _ _).mpr
    ⟨fun x hx => writable_traceName hx, forall₂_of_mapM hrows⟩
  have hmatches : List.Forall₂ (fun x line => '\n' ∉ line ∧ MultipleMatches x line)
      (namedStates s1 s2) rows := hlines.imp fun x line h => multipleMatches h.1 h.2
  refine ⟨rows, ?_, fields_multipleHeader, hmatches.imp fun x line h => h.2⟩
  have hend : ∀ line ∈ multipleHeader :: rows, '\n' ∉ line := by
    refine List.forall_mem_cons.mpr ⟨lineEnd_not_mem_multipleHeader, fun line hline => ?_⟩
    obtain ⟨i, hi, rfl⟩ := List.getElem_of_mem hline
    have hlt : i < (namedStates s1 s2).length := hmatches.length_eq ▸ hi
    exact ((List.forall₂_iff_get.mp hmatches).2 i hlt hi).1
  rw [splitOn_linesText hend, List.cons_append]

/-! ## Parsed traces -/

/-- Every cycle of the region has a line of the prefetcher. -/
def Prefetched (beginRoiPc endRoiPc : Text) (lines : List Text) : Prop :=
  ∀ g ∈ segments none (roiLines beginRoiPc endRoiPc {} lines), ∃ line ∈ g.body, IsPrefetch line

theorem forall_address_iff {beginRoiPc endRoiPc : Text} {lines : List Text}
    {instructions : InstrDict} {states : List UArch}
    (h : getTraceData beginRoiPc endRoiPc lines = .ok (instructions, states)) :
    (∀ state ∈ states, state.hwprefetcher.address ≠ none) ↔
      Prefetched beginRoiPc endRoiPc lines := by
  have hstates := states_segments h
  constructor
  · intro hall g hg
    obtain ⟨state, hstate, heq⟩ := List.mem_map.mp (hstates ▸ List.mem_map_of_mem hg)
    exact (Segment.parts heq.symm).address.mp (hall state hstate)
  · intro hall state hstate
    obtain ⟨g, hg, heq⟩ := List.mem_map.mp (hstates ▸ List.mem_map_of_mem (f := Except.ok) hstate)
    exact (Segment.parts heq).address.mpr (hall g hg)

/-- **Two parsed traces.** Their table is written exactly when every cycle of both regions has a
line of the prefetcher. -/
theorem multipleTable_of_traces {b1 e1 b2 e2 : Text} {lines1 lines2 : List Text}
    {i1 i2 : InstrDict} {s1 s2 : List UArch} (h1 : getTraceData b1 e1 lines1 = .ok (i1, s1))
    (h2 : getTraceData b2 e2 lines2 = .ok (i2, s2)) :
    (multipleTable s1 s2).isSome ↔ Prefetched b1 e1 lines1 ∧ Prefetched b2 e2 lines2 := by
  rw [isSome_multipleTable_iff, List.forall_mem_append, forall_address_iff h1,
    forall_address_iff h2]

theorem multipleTable_of_traces_prefetched : ∃ instructions states,
    getTraceData "0x10".toList "0x99".toList (missTrace [prefetchLine]) =
        .ok (instructions, states) ∧
      ((multipleTable states states).isSome ↔
        Prefetched "0x10".toList "0x99".toList (missTrace [prefetchLine]) ∧
          Prefetched "0x10".toList "0x99".toList (missTrace [prefetchLine])) := by
  have hrun : (getTraceData "0x10".toList "0x99".toList
      (missTrace [prefetchLine])).toOption.isSome = true := by decide +kernel
  cases h : getTraceData "0x10".toList "0x99".toList (missTrace [prefetchLine]) with
  | error e =>
    rw [h] at hrun
    cases hrun
  | ok out => exact ⟨out.1, out.2, rfl, multipleTable_of_traces h h⟩

end MicroSampler.Scripts
