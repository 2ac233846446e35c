import MicroSampler.Keys.Labels
import MicroSampler.Scripts.TableWriter
import MicroSampler.Scripts.TraceSegments

/-!
# The lines of the table

The text of the lines that `generate_table.py` writes. A line is built field by field in one
text, whose last comma is written anew after each group of fields. A line should have, under
each name of the header, the value of its state.

* `rowText_eq`: where it does not raise, the text is that of the fields between commas.
* `tableMatches_iff`: the states of an iteration have lines that match the header when each of
  their cycles has a line of the prefetcher, and only then.
-/

namespace MicroSampler.Scripts

open Python Regex Radix Loops Keys

/-! ## Writing a line -/

/-- `FunctionalUnits`, in the order of the enumeration. -/
inductive FunctionalUnit
  | ALU | ADDRGEN | DIV | MUL
  deriving DecidableEq

namespace FunctionalUnit

def all : List FunctionalUnit := [ALU, ADDRGEN, DIV, MUL]

def name : FunctionalUnit → Text
  | ALU => "ALU".toList
  | ADDRGEN => "ADDRGEN".toList
  | DIV => "DIV".toList
  | MUL => "MUL".toList

theorem name_eq_ALU {u : FunctionalUnit} : u.name = "ALU".toList ↔ u = ALU := by
  cases u <;> decide

end FunctionalUnit

/-- `exeReqs[x]`. -/
def ExecutionUnits.exeReqs (exe : ExecutionUnits) : FunctionalUnit → List Text
  | .ALU => exe.alu
  | .ADDRGEN => exe.addrgen
  | .DIV => exe.div
  | .MUL => exe.mul

/-- `text += field + ','`. -/
def addField (text field : Text) : Text := text ++ field ++ [',']

/-- The field in a `try`: it is empty if it cannot be read. -/
def tryField (text : Text) (field : Option Text) : Text := addField text (field.getD [])

/-- A `try` for each of the first `size` elements. -/
def tryFields (text : Text) (size : Nat) (field : Nat → Option Text) : Text :=
  (List.range size).foldl (fun text x => tryField text (field x)) text

/-- `text[:-1] + ','`. -/
def trimmed (text : Text) : Text := text.dropLast ++ [',']

/-- `header += name + str(x) + ','` for the first `size` numbers. -/
def addNumbered (text : Text) (name : String) (size : Nat) : Text :=
  (List.range size).foldl (fun text x => addField text (name.toList ++ str x)) text

/-- The columns of the units. -/
def addUnitNames (text : Text) : Text :=
  FunctionalUnit.all.foldl (fun text x =>
    let text := addField text ("EUU-".toList ++ x.name ++ "-0".toList)
    if x.name = "ALU".toList then addField text ("EUU-".toList ++ x.name ++ "-1".toList)
    else text) text

/-- `header`. -/
def headerText : Text :=
  let text := addField [] "CYCLE".toList
  let text := addField text "LQ-OCPNCY".toList
  let text := addNumbered text "LQ-PC-" 8
  let text := addNumbered text "LQ-ADDR-" 8
  let text := addField text "SQ-OCPNCY".toList
  let text := addNumbered text "SQ-PC-" 8
  let text := addNumbered text "SQ-ADDR-" 8
  let text := addField text "ROB-OCPNCY".toList
  let text := addNumbered text "ROB-PC-" 32
  let text := addNumbered text "LFB-" 16
  let text := addUnitNames text
  text ++ "PREF-ADDR,CLASS,ITER,KEY,DTLB-NMISS,DCACHE-NMISS".toList

/-- The requests of the units. -/
def tryRequests (text : Text) (exe : ExecutionUnits) : Text :=
  FunctionalUnit.all.foldl (fun text x =>
    let text := tryField text (exe.exeReqs x)[0]?
    if x.name = "ALU".toList then tryField text (exe.exeReqs x)[1]? else text) text

/-- `row`. `hex` of a prefetcher address that was never set raises, as does a missing label. -/
def rowText (keystr : Text) (keybin : List Text) (loop : Nat) (state : UArch) : Option Text := do
  let row := addField [] (str state.cycleBegin)
  let row := addField row (str state.lq.occupancy)
  let row := trimmed (tryFields row 8 fun x => state.lq.pc[x]?.map hex)
  let row := trimmed (tryFields row 8 fun x => state.lq.address[x]?.map hex)
  let row := addField row (str state.sq.occupancy)
  let row := trimmed (tryFields row 8 fun x => state.sq.pc[x]?.map hex)
  let row := trimmed (tryFields row 8 fun x => state.sq.address[x]?.map hex)
  let row := addField row (str state.rob.occupancy)
  let row := trimmed (tryFields row 32 fun x => state.rob.pc[x]?.map hex)
  let row := trimmed (tryFields row 16 fun x => state.lfb.data[x]?.map hex)
  let row := trimmed (tryRequests row state.executionUnits)
  let address ← state.hwprefetcher.address
  let row := addField row (hex address)
  let cls ← keybin[loop]?
  let row := addField row cls
  let row := addField row (str loop)
  let row := addField row keystr
  let row := addField row (str state.dtlbMisses.pc.length)
  pure (row ++ str state.dcacheMisses.pc.length)

/-- The lines of an iteration. -/
def iterationLines (keystr : Text) (keybin : List Text) (loop : Nat) (states : List UArch) :
    Option (List Text) := states.mapM (rowText keystr keybin loop)

/-! ## Columns -/

/-- The names of the header, with the element of a state that belongs under each. -/
inductive Column
  | cycle | lqOcpncy | lqPc (x : Nat) | lqAddr (x : Nat) | sqOcpncy | sqPc (x : Nat)
  | sqAddr (x : Nat) | robOcpncy | robPc (x : Nat) | lfb (x : Nat)
  | euu (u : FunctionalUnit) (x : Nat) | prefAddr | cls | iter | key | dtlbNmiss | dcacheNmiss

namespace Column

def columns : List Column :=
  [cycle, lqOcpncy] ++ (List.range 8).map lqPc ++ (List.range 8).map lqAddr ++ [sqOcpncy] ++
  (List.range 8).map sqPc ++ (List.range 8).map sqAddr ++ [robOcpncy] ++
  (List.range 32).map robPc ++ (List.range 16).map lfb ++
  [euu .ALU 0, euu .ALU 1, euu .ADDRGEN 0, euu .DIV 0, euu .MUL 0, prefAddr, cls, iter, key,
    dtlbNmiss, dcacheNmiss]

def name : Column → Text
  | cycle => "CYCLE".toList
  | lqOcpncy => "LQ-OCPNCY".toList
  | lqPc x => "LQ-PC-".toList ++ str x
  | lqAddr x => "LQ-ADDR-".toList ++ str x
  | sqOcpncy => "SQ-OCPNCY".toList
  | sqPc x => "SQ-PC-".toList ++ str x
  | sqAddr x => "SQ-ADDR-".toList ++ str x
  | robOcpncy => "ROB-OCPNCY".toList
  | robPc x => "ROB-PC-".toList ++ str x
  | lfb x => "LFB-".toList ++ str x
  | euu u x => "EUU-".toList ++ u.name ++ "-".toList ++ str x
  | prefAddr => "PREF-ADDR".toList
  | cls => "CLASS".toList
  | iter => "ITER".toList
  | key => "KEY".toList
  | dtlbNmiss => "DTLB-NMISS".toList
  | dcacheNmiss => "DCACHE-NMISS".toList

/-- The value of a state in a column, if the state has the element. -/
def value (keystr : Text) (keybin : List Text) (loop : Nat) (state : UArch) :
    Column → Option Text
  | cycle => some (str state.cycleBegin)
  | lqOcpncy => some (str state.lq.occupancy)
  | lqPc x => state.lq.pc[x]?.map hex
  | lqAddr x => state.lq.address[x]?.map hex
  | sqOcpncy => some (str state.sq.occupancy)
  | sqPc x => state.sq.pc[x]?.map hex
  | sqAddr x => state.sq.address[x]?.map hex
  | robOcpncy => some (str state.rob.occupancy)
  | robPc x => state.rob.pc[x]?.map hex
  | lfb x => state.lfb.data[x]?.map hex
  | euu u x => (state.executionUnits.exeReqs u)[x]?
  | prefAddr => state.hwprefetcher.address.map hex
  | cls => keybin[loop]?
  | iter => some (str loop)
  | key => some keystr
  | dtlbNmiss => some (str state.dtlbMisses.pc.length)
  | dcacheNmiss => some (str state.dcacheMisses.pc.length)

end Column

open Column (columns)

/-- The fields of a line. -/
def fields (line : Text) : List Text := line.splitOn ','

/-- The field of a line under a name of the header. -/
def fieldUnder (name line : Text) : Option Text :=
  ((fields headerText).zip (fields line)).lookup name

/-- A line that says of a state what the header says it does. -/
structure LineMatches (keystr : Text) (keybin : List Text) (loop : Nat) (state : UArch)
    (line : Text) : Prop where
  single : '\n' ∉ line
  length : (fields line).length = (fields headerText).length
  value : ∀ c ∈ columns,
    fieldUnder c.name line = some ((c.value keystr keybin loop state).getD [])
  empty : ∀ c ∈ columns,
    fieldUnder c.name line = some [] ↔ c.value keystr keybin loop state = none

/-- The writer does not raise, and each state has one line, which matches the header. -/
structure TableMatches (keystr : Text) (keybin : List Text) (loop : Nat) (states : List UArch) :
    Prop where
  names : fields headerText = columns.map Column.name
  lines : ∃ lines, iterationLines keystr keybin loop states = some lines ∧
    List.Forall₂ (LineMatches keystr keybin loop) states lines

/-! ## Texts of fields -/

/-- Fields with a comma after each. -/
def terminated (l : List Text) : Text := l.flatMap fun field => field ++ [',']

theorem addField_terminated (l : List Text) (field : Text) :
    addField (terminated l) field = terminated (l ++ [field]) := by
  simp [addField, terminated]

theorem tryField_terminated (l : List Text) (field : Option Text) :
    tryField (terminated l) field = terminated (l ++ [field.getD []]) := addField_terminated l _

theorem foldl_addField_terminated {α : Type} (l : List Text) (xs : List α) (field : α → Text) :
    xs.foldl (fun text x => addField text (field x)) (terminated l) =
      terminated (l ++ xs.map field) := by
  induction xs generalizing l with
  | nil => simp
  | cons x xs ih =>
    rw [List.foldl_cons, addField_terminated, ih, List.append_assoc]
    rfl

theorem addNumbered_terminated (l : List Text) (name : String) (size : Nat) :
    addNumbered (terminated l) name size = terminated (l ++ numbered name size) :=
  foldl_addField_terminated ..

theorem tryFields_terminated (l : List Text) (size : Nat) (field : Nat → Option Text) :
    tryFields (terminated l) size field =
      terminated (l ++ (List.range size).map fun x => (field x).getD []) :=
  foldl_addField_terminated ..

theorem tryRequests_terminated (l : List Text) (exe : ExecutionUnits) :
    tryRequests (terminated l) exe =
      terminated (l ++ (requestFields 2 exe.alu ++ requestFields 1 exe.addrgen ++
        requestFields 1 exe.div ++ requestFields 1 exe.mul)) := by
  simp only [tryRequests, FunctionalUnit.all, List.foldl_cons, List.foldl_nil,
    FunctionalUnit.name_eq_ALU, reduceCtorEq, if_true, if_false]
  simp [tryField_terminated, requestFields, ExecutionUnits.exeReqs, List.range_succ]

/-- The last comma of a group is written anew. -/
theorem trimmed_terminated (field : Text) (l : List Text) :
    trimmed (terminated (field :: l)) = terminated (field :: l) := by
  obtain ⟨front, last, h⟩ := (List.eq_nil_or_concat (field :: l)).resolve_left (by simp)
  rw [h]
  simp [trimmed, terminated]

theorem terminated_append_intercalate (l : List Text) {l' : List Text} (hl' : l' ≠ []) :
    terminated l ++ List.intercalate [','] l' = List.intercalate [','] (l ++ l') := by
  induction l with
  | nil => simp [terminated]
  | cons field l ih =>
    have hne : l ++ l' ≠ [] := by simp [hl']
    obtain ⟨next, rest, heq⟩ := List.exists_cons_of_ne_nil hne
    rw [terminated, List.flatMap_cons, ← terminated, List.append_assoc, ih, List.cons_append, heq,
      List.intercalate_cons_cons]

theorem terminated_append (l : List Text) (last : Text) :
    terminated l ++ last = List.intercalate [','] (l ++ [last]) := by
  rw [← terminated_append_intercalate l (List.cons_ne_nil last []), List.intercalate_singleton]

/-- The text of a line is that of its fields between commas. -/
theorem rowText_eq (keystr : Text) (keybin : List Text) (loop : Nat) (state : UArch) :
    rowText keystr keybin loop state = (do
      let cls ← keybin[loop]?
      let row ← tableRow keystr cls loop state
      pure (List.intercalate [','] row)) := by
  have hfirst (field : Text) : addField [] field = terminated [field] :=
    addField_terminated [] field
  unfold rowText tableRow
  simp only [hfirst, addField_terminated, tryFields_terminated, tryRequests_terminated,
    trimmed_terminated, List.cons_append, terminated_append]
  cases state.hwprefetcher.address with
  | none => cases keybin[loop]? <;> rfl
  | some address =>
    cases keybin[loop]? with
    | none => rfl
    | some cls =>
      simp [unitFields, sampleFields, hexFields]

theorem addUnitNames_terminated (l : List Text) :
    addUnitNames (terminated l) = terminated (l ++
      ["EUU-ALU-0", "EUU-ALU-1", "EUU-ADDRGEN-0", "EUU-DIV-0", "EUU-MUL-0"].map String.toList) := by
  simp only [addUnitNames, FunctionalUnit.all, List.foldl_cons, List.foldl_nil,
    FunctionalUnit.name_eq_ALU, reduceCtorEq, if_true, if_false, addField_terminated]
  rw [List.append_assoc, List.append_assoc, List.append_assoc, List.append_assoc]
  rfl

theorem headerText_eq : headerText = List.intercalate [','] header := by
  have hfirst (field : Text) : addField [] field = terminated [field] :=
    addField_terminated [] field
  have hlast : "PREF-ADDR,CLASS,ITER,KEY,DTLB-NMISS,DCACHE-NMISS".toList =
      List.intercalate [','] (["PREF-ADDR", "CLASS", "ITER", "KEY", "DTLB-NMISS",
        "DCACHE-NMISS"].map String.toList) := by
    decide +kernel
  unfold headerText
  rw [hlast]
  simp only [hfirst, addField_terminated, addNumbered_terminated, addUnitNames_terminated]
  rw [terminated_append_intercalate _ (by simp)]
  simp only [header, List.map_cons, List.map_nil, List.append_assoc, List.cons_append,
    List.nil_append]

theorem header_eq : header = columns.map Column.name := by decide +kernel

theorem nodup_names : (columns.map Column.name).Nodup := by
  rw [← header_eq]
  decide +kernel

theorem fields_intercalate {l : List Text} (hne : l ≠ []) (h : ∀ field ∈ l, ',' ∉ field) :
    fields (List.intercalate [','] l) = l := List.splitOn_intercalate ',' h hne

theorem fields_headerText : fields headerText = columns.map Column.name := by
  have hcomma : ∀ name ∈ header, ',' ∉ name := by decide +kernel
  rw [headerText_eq, fields_intercalate (by decide) hcomma, header_eq]

/-- The fields of a row stand in the order of the columns. -/
theorem tableRow_eq {keystr cls : Text} {keybin : List Text} {loop : Nat} {state : UArch}
    (hcls : keybin[loop]? = some cls) (ha : state.hwprefetcher.address ≠ none) :
    tableRow keystr cls loop state =
      some (columns.map fun c => (c.value keystr keybin loop state).getD []) := by
  obtain ⟨address, ha⟩ := Option.ne_none_iff_exists'.mp ha
  have hone (l : List Text) : requestFields 1 l = [l[0]?.getD []] := rfl
  have htwo (l : List Text) : requestFields 2 l = [l[0]?.getD [], l[1]?.getD []] := rfl
  simp only [tableRow, ha, Option.bind_eq_bind, Option.bind_some, Option.pure_def, columns,
    List.map_append, List.map_map, List.map_cons, List.map_nil, Column.value, hcls, unitFields,
    sampleFields, hexFields, hone, htwo, ExecutionUnits.exeReqs, Option.map_some,
    Option.getD_some, Function.comp_def, List.append_assoc, List.cons_append, List.nil_append]

/-! ## Values -/

/-- The text can be a field: it is not empty, and has no comma and no end of line. -/
def Writable (t : Text) : Prop := t ≠ [] ∧ ',' ∉ t ∧ '\n' ∉ t

theorem writable_of_forall {t : Text} {p : Char → Prop} (hne : t ≠ []) (h : ∀ c ∈ t, p c)
    (hcomma : ¬ p ',') (hline : ¬ p '\n') : Writable t :=
  ⟨hne, fun hc => hcomma (h _ hc), fun hc => hline (h _ hc)⟩

theorem toDigits_ne_nil (b n : Nat) : Nat.toDigits b n ≠ [] :=
  List.ne_nil_of_length_pos Nat.length_toDigits_pos

theorem writable_str (n : Nat) : Writable (str n) :=
  writable_of_forall (toDigits_ne_nil 10 n)
    (fun _ hc => Nat.isDigit_of_mem_toDigits (by decide) (by decide) hc) (by decide) (by decide)

theorem writable_hex (n : Nat) : Writable (hex n) := by
  have hchars : ∀ c ∈ hex n, c = 'x' ∨ IsHexDigit c := by
    intro c hc
    simp only [hex, List.mem_cons] at hc
    obtain rfl | rfl | hc := hc
    · exact .inr (by decide)
    · exact .inl rfl
    · exact .inr (isHexDigit_of_mem_toDigits hc)
  exact writable_of_forall (List.cons_ne_nil _ _) hchars (by decide) (by decide)

/-- `[\.\_\-x0-9a-z]+`, the name of a key in the path of its file. -/
def keyName : Regex :=
  plus (.set [('.', '.'), ('_', '_'), ('-', '-'), ('x', 'x'), ('0', '9'), ('a', 'z')])

theorem writable_keyName {keystr : Text} (h : Lang keyName keystr) : Writable keystr := by
  obtain ⟨hne, hchars⟩ := inRanges_of_lang_plus h
  exact writable_of_forall hne hchars (by decide) (by decide)

/-- The address of a request. -/
theorem writable_request {pc : Text} (h : Lang (plus hexX) pc) : Writable pc := by
  obtain ⟨hne, hchars⟩ := inRanges_of_lang_plus h
  exact writable_of_forall hne hchars (by decide) (by decide)

theorem mem_format04b {v : Nat} (hv : v < 16) {c : Char} (hc : c ∈ format04b v) :
    c = '0' ∨ c = '1' := by
  rw [format04b_of_lt hv] at hc
  obtain ⟨b, -, rfl⟩ := List.mem_map.mp hc
  cases b
  · exact .inl rfl
  · exact .inr rfl

/-- The labels of `stats.py` are texts of bits. -/
theorem writable_label {keyhex : Text} {loops window : Nat} {keybin : List Text}
    (h : decodeKey keyhex loops window = some keybin) {cls : Text} (hcls : cls ∈ keybin) :
    Writable cls := by
  obtain ⟨digits, hdigits, hslices⟩ := Option.bind_eq_some_iff.mp h
  have hbits : ∀ c ∈ digits.flatten.reverse, c = '0' ∨ c = '1' := by
    intro c hc
    obtain ⟨digit, hdigit, hc⟩ := List.mem_flatten.mp (List.mem_reverse.mp hc)
    obtain ⟨i, -, hi⟩ := exists_of_mem_mapM hdigits hdigit
    obtain ⟨char, -, hi⟩ := Option.bind_eq_some_iff.mp hi
    obtain ⟨v, hv, hi⟩ := Option.bind_eq_some_iff.mp hi
    cases hi
    exact mem_format04b (hexVal?_lt hv) hc
  unfold slices at hslices
  split at hslices
  · cases hslices
  next hwindow =>
  cases hslices
  obtain ⟨j, hj, rfl⟩ := List.mem_map.mp hcls
  have hshort : j * window < digits.flatten.reverse.length := by
    have hlt := (Nat.lt_div_iff_mul_lt (by omega)).mp (List.mem_range.mp hj)
    omega
  refine writable_of_forall ?_
    (fun c hc => hbits c (List.mem_of_mem_drop (List.mem_of_mem_take hc))) (by decide) (by decide)
  rw [ne_eq, List.take_eq_nil_iff, List.drop_eq_nil_iff]
  omega

/-! ## One line -/

/-- What the writer is given can be written. -/
structure Given (keystr : Text) (keybin : List Text) (state : UArch) : Prop where
  keystr : Writable keystr
  labels : ∀ cls ∈ keybin, Writable cls
  requests : ∀ u, ∀ pc ∈ state.executionUnits.exeReqs u, Writable pc

theorem writable_value {keystr : Text} {keybin : List Text} {state : UArch}
    (h : Given keystr keybin state) {loop : Nat} {c : Column} {t : Text}
    (ht : c.value keystr keybin loop state = some t) : Writable t := by
  have hmap {l : List Nat} {x : Nat} (hx : l[x]?.map hex = some t) : Writable t := by
    obtain ⟨n, -, rfl⟩ := Option.map_eq_some_iff.mp hx
    exact writable_hex n
  cases c with
  | cycle | lqOcpncy | sqOcpncy | robOcpncy | iter | dtlbNmiss | dcacheNmiss =>
    cases ht
    exact writable_str _
  | lqPc | lqAddr | sqPc | sqAddr | robPc | lfb => exact hmap ht
  | euu u => exact h.requests u t (List.mem_of_getElem? ht)
  | prefAddr =>
    obtain ⟨n, -, rfl⟩ := Option.map_eq_some_iff.mp ht
    exact writable_hex n
  | cls => exact h.labels t (List.mem_of_getElem? ht)
  | key =>
    cases ht
    exact h.keystr

theorem lookup_zip_map {α β γ : Type} [BEq β] [LawfulBEq β] {f : α → β} {g : α → γ} {l : List α}
    (h : (l.map f).Nodup) {a : α} (ha : a ∈ l) :
    ((l.map f).zip (l.map g)).lookup (f a) = some (g a) := by
  induction l with
  | nil => cases ha
  | cons b l ih =>
    rw [List.map_cons, List.nodup_cons] at h
    rw [List.map_cons, List.map_cons, List.zip_cons_cons, List.lookup_cons]
    obtain rfl | ha := List.mem_cons.mp ha
    · rw [beq_self_eq_true]
    · have hne : f a ≠ f b := fun heq => h.1 (heq ▸ List.mem_map_of_mem ha)
      rw [beq_eq_false_iff_ne.mpr hne]
      exact ih h.2 ha

theorem not_mem_intercalate {x : Char} {sep : Text} {l : List Text} (hsep : x ∉ sep)
    (h : ∀ field ∈ l, x ∉ field) : x ∉ List.intercalate sep l := by
  induction l with
  | nil => simp
  | cons field l ih =>
    obtain ⟨hfield, hrest⟩ := List.forall_mem_cons.mp h
    cases l with
    | nil => simpa using hfield
    | cons next rest =>
      rw [List.intercalate_cons_cons]
      simpa [hfield, hsep] using ih hrest

/-- The line of a state, if the writer does not raise, matches the header. -/
theorem lineMatches {keystr : Text} {keybin : List Text} {loop : Nat} {state : UArch}
    (h : Given keystr keybin state) {line : Text}
    (hline : rowText keystr keybin loop state = some line) :
    LineMatches keystr keybin loop state line := by
  rw [rowText_eq] at hline
  obtain ⟨cls, hcls, hline⟩ := Option.bind_eq_some_iff.mp hline
  obtain ⟨row, hrow, hline⟩ := Option.bind_eq_some_iff.mp hline
  have ha : state.hwprefetcher.address ≠ none := by
    obtain ⟨address, ha, -⟩ := Option.bind_eq_some_iff.mp hrow
    exact ha ▸ Option.some_ne_none address
  cases hline
  cases hrow.symm.trans (tableRow_eq hcls ha)
  have hchar {x : Char} (hx : ∀ t, Writable t → x ∉ t) :
      ∀ field ∈ columns.map fun c => (c.value keystr keybin loop state).getD [], x ∉ field := by
    intro field hfield
    obtain ⟨c, -, rfl⟩ := List.mem_map.mp hfield
    cases hc : c.value keystr keybin loop state with
    | none => simp
    | some t => exact hx t (writable_value h hc)
  have hfields := fields_intercalate (by simp [columns]) (hchar fun t ht => ht.2.1)
  have hunder : ∀ c ∈ columns, fieldUnder c.name (List.intercalate [','] (columns.map fun c =>
      (c.value keystr keybin loop state).getD [])) =
        some ((c.value keystr keybin loop state).getD []) := by
    intro c hc
    rw [fieldUnder, hfields, fields_headerText]
    exact lookup_zip_map nodup_names hc
  constructor
  · exact not_mem_intercalate (by decide) (hchar fun t ht => ht.2.2)
  · rw [hfields, fields_headerText, List.length_map, List.length_map]
  · exact hunder
  · intro c hc
    rw [hunder c hc, Option.some.injEq]
    cases hvalue : c.value keystr keybin loop state with
    | none => simp
    | some t => simpa using (writable_value h hvalue).1

theorem isSome_rowText_iff {keystr : Text} {keybin : List Text} {loop : Nat} {state : UArch} :
    (rowText keystr keybin loop state).isSome ↔
      loop < keybin.length ∧ state.hwprefetcher.address ≠ none := by
  rw [rowText_eq]
  unfold tableRow
  cases hcls : keybin[loop]? with
  | none =>
    have hle := List.getElem?_eq_none_iff.mp hcls
    refine iff_of_false (by simp) fun h => ?_
    omega
  | some cls =>
    have hlt := (List.getElem?_eq_some_iff.mp hcls).1
    cases state.hwprefetcher.address <;> simp [hlt]

/-- An iteration. -/
theorem tableMatches_states_iff {keystr : Text} {keybin : List Text} {loop : Nat}
    {states : List UArch} (h : ∀ state ∈ states, Given keystr keybin state) :
    TableMatches keystr keybin loop states ↔
      ∀ state ∈ states, loop < keybin.length ∧ state.hwprefetcher.address ≠ none := by
  constructor
  · intro ⟨_, lines, hlines, _⟩ state hstate
    have hall := mapM_isSome_iff.mp (Option.isSome_of_eq_some hlines)
    exact isSome_rowText_iff.mp (hall state hstate)
  · intro hall
    have hsome : (iterationLines keystr keybin loop states).isSome :=
      mapM_isSome_iff.mpr fun state hstate => isSome_rowText_iff.mpr (hall state hstate)
    obtain ⟨lines, hlines⟩ := Option.isSome_iff_exists.mp hsome
    have hgiven := (List.forall₂_and_left _ _).mpr ⟨h, forall₂_of_mapM hlines⟩
    refine ⟨fields_headerText, lines, hlines, hgiven.imp ?_⟩
    intro state line hline
    exact lineMatches hline.1 hline.2

/-! ## States of a trace -/

/-- `loopsUArch[x]`: the states that begin between the first fetch and the last retirement of
an iteration. -/
def loopStates (fetch retire : Nat) (states : List UArch) : List UArch :=
  states.filter fun state => fetch ≤ state.cycleBegin ∧ state.cycleBegin ≤ retire

/-- A line that the parser takes for one of the prefetcher. -/
def IsPrefetch (line : Text) : Prop := ∃ m, classify line = some (.hwprefetch, m)

theorem hwprefetch_recordLine {kind : LineKind} {m : Match} {valid : Option Text}
    {cur cur' : UArch} (h : recordLine kind m valid cur = .ok cur') :
    cur'.hwprefetcher.address ≠ none ↔
      kind = .hwprefetch ∨ cur.hwprefetcher.address ≠ none := by
  by_cases hkind : kind = .hwprefetch
  · subst hkind
    simp only [recordLine, hwprefetchLine, bind_eq_ok_iff] at h
    obtain ⟨address, -, data, -, h⟩ := h
    cases h
    simp
  · rw [(recordLine_keeps h).hwprefetcher hkind]
    simp [hkind]

/-- A state holds requests that were matched. -/
def RequestsMatched (state : UArch) : Prop :=
  ∀ u, ∀ pc ∈ state.executionUnits.exeReqs u, Lang (plus hexX) pc

theorem mem_exeReqs_request {exe : ExecutionUnits} {unit pc pc' : Text} {u : FunctionalUnit}
    (h : pc' ∈ (exe.request unit pc).exeReqs u) : pc' ∈ exe.exeReqs u ∨ pc' = pc := by
  unfold ExecutionUnits.request at h
  split_ifs at h <;> cases u <;> simp_all [ExecutionUnits.exeReqs]

theorem requestsMatched_recordLine {line : Text} {kind : LineKind} {m : Match}
    (hclass : classify line = some (kind, m)) {valid : Option Text} {cur cur' : UArch}
    (hcur : RequestsMatched cur) (h : recordLine kind m valid cur = .ok cur') :
    RequestsMatched cur' := by
  intro u pc hpc
  by_cases hkind : kind = .exe
  · subst hkind
    simp only [recordLine, exeLine] at h
    split at h
    · cases h
      obtain hpc | rfl := mem_exeReqs_request hpc
      · exact hcur u pc hpc
      · obtain ⟨r, hr, hsearch⟩ := classify_eq_some hclass
        obtain rfl : r = exeStatus := by simpa [chain] using hr
        have hgroup := groupsRead_present hclass (n := 3) (by decide)
        obtain ⟨a, ha, hlang⟩ := search_group hsearch hgroup
        rwa [List.mem_singleton.mp ha] at hlang
    · cases h
      exact hcur u pc hpc
  · rw [(recordLine_keeps h).executionUnits hkind] at hpc
    exact hcur u pc hpc

/-- What the table depends on, after the lines since the marker. -/
structure Parts (cycle : Nat) (body : List Text) (state : UArch) : Prop where
  cycleBegin : state.cycleBegin = cycle
  address : state.hwprefetcher.address ≠ none ↔ ∃ line ∈ body, IsPrefetch line
  requests : RequestsMatched state

/-- One line. -/
theorem Parts.recordBody {cycle : Nat} {body : List Text} {cur cur' : UArch} {line : Text}
    (hcur : Parts cycle body cur) (h : recordBody cur line = .ok cur') :
    Parts cycle (body ++ [line]) cur' := by
  have hsame (hline : ¬ IsPrefetch line) : Parts cycle (body ++ [line]) cur :=
    ⟨hcur.cycleBegin, by simp [hcur.address, or_and_right, exists_or, hline], hcur.requests⟩
  unfold Scripts.recordBody at h
  cases hclass : classify line with
  | none =>
    rw [hclass] at h
    cases h
    exact hsame fun ⟨m, hm⟩ => Option.some_ne_none _ (hm.symm.trans hclass)
  | some e =>
    obtain ⟨kind, m⟩ := e
    have hiff : IsPrefetch line ↔ kind = .hwprefetch := by
      simp [IsPrefetch, hclass]
    rw [hclass] at h
    dsimp only at h
    split at h
    · next hkind =>
      cases h
      refine hsame fun hline => ?_
      rw [hiff.mp hline] at hkind
      exact hkind.elim LineKind.noConfusion LineKind.noConfusion
    · refine ⟨(recordLine_keeps h).cycleBegin.trans hcur.cycleBegin, ?_,
        requestsMatched_recordLine hclass hcur.requests h⟩
      rw [hwprefetch_recordLine h, hcur.address, ← hiff]
      simp [or_and_right, exists_or, or_comm]

theorem parts_foldlM {cycle : Nat} {body : List Text} {cur : UArch}
    (h : body.foldlM Scripts.recordBody { cycleBegin := cycle } = .ok cur) :
    Parts cycle body cur := by
  induction body using List.reverseRecOn generalizing cur with
  | nil =>
    cases h
    refine ⟨rfl, by simp, fun u pc hpc => ?_⟩
    cases u <;> cases hpc
  | append_singleton body line ih =>
    obtain ⟨cur', hbody, hline⟩ := foldlM_append_eq_ok_iff.mp h
    rw [List.foldlM_cons] at hline
    obtain ⟨cur'', hline, hnil⟩ := bind_eq_ok_iff.mp hline
    cases hnil
    exact (ih hbody).recordBody hline

theorem Segment.parts {g : Segment} {state : UArch} (h : g.state = .ok state) :
    Parts g.cycleBegin g.body state := by
  obtain ⟨cur, hbody, hstate⟩ := bind_eq_ok_iff.mp h
  cases hstate
  have hparts := parts_foldlM hbody
  exact ⟨hparts.cycleBegin, hparts.address, hparts.requests⟩

/-- The states are those of the segments. -/
theorem states_segments {beginRoiPc endRoiPc : Text} {lines : List Text}
    {instructions : InstrDict} {states : List UArch}
    (h : getTraceData beginRoiPc endRoiPc lines = .ok (instructions, states)) :
    states.map Except.ok =
      (segments none (roiLines beginRoiPc endRoiPc {} lines)).map Segment.state := by
  unfold getTraceData at h
  obtain ⟨⟨r, s⟩, hrun, hout⟩ := bind_eq_ok_iff.mp h
  cases hout
  have hbuilds : Builds {} none := ⟨rfl, by simp⟩
  have hstates := chainLines_segments hbuilds (traceLoop_ok hrun)
  simpa using hstates

/-- **Lines of the table.** The states of an iteration have lines that match the header
exactly when the iteration has a label and each of its cycles a line of the prefetcher. -/
theorem tableMatches_iff {beginRoiPc endRoiPc : Text} {lines : List Text}
    {instructions : InstrDict} {states : List UArch}
    (h : getTraceData beginRoiPc endRoiPc lines = .ok (instructions, states))
    {keystr : Text} (hkeystr : Lang keyName keystr) {keyhex : Text} {loops window : Nat}
    {keybin : List Text} (hkeybin : decodeKey keyhex loops window = some keybin)
    (loop fetch retire : Nat) :
    TableMatches keystr keybin loop (loopStates fetch retire states) ↔
      ∀ g ∈ segments none (roiLines beginRoiPc endRoiPc {} lines),
        fetch ≤ g.cycleBegin → g.cycleBegin ≤ retire →
          loop < keybin.length ∧ ∃ line ∈ g.body, IsPrefetch line := by
  have hstates := states_segments h
  have hsegment : ∀ state ∈ states, ∃ g ∈ segments none (roiLines beginRoiPc endRoiPc {} lines),
      Parts g.cycleBegin g.body state := by
    intro state hstate
    obtain ⟨g, hg, heq⟩ := List.mem_map.mp (hstates ▸ List.mem_map_of_mem (f := Except.ok) hstate)
    exact ⟨g, hg, Segment.parts heq⟩
  have hstate : ∀ g ∈ segments none (roiLines beginRoiPc endRoiPc {} lines), ∃ state ∈ states,
      Parts g.cycleBegin g.body state := by
    intro g hg
    obtain ⟨state, hstate, heq⟩ := List.mem_map.mp (hstates ▸ List.mem_map_of_mem hg)
    exact ⟨state, hstate, Segment.parts heq.symm⟩
  have hgiven : ∀ state ∈ loopStates fetch retire states, Given keystr keybin state := by
    intro state hmem
    obtain ⟨g, -, hparts⟩ := hsegment state (List.mem_of_mem_filter hmem)
    exact ⟨writable_keyName hkeystr, fun _ => writable_label hkeybin,
      fun u pc hpc => writable_request (hparts.requests u pc hpc)⟩
  rw [tableMatches_states_iff hgiven]
  constructor
  · intro hall g hg hfetch hretire
    obtain ⟨state, hmem, hparts⟩ := hstate g hg
    have hin : state ∈ loopStates fetch retire states := by
      rw [loopStates, List.mem_filter, hparts.cycleBegin]
      exact ⟨hmem, decide_eq_true ⟨hfetch, hretire⟩⟩
    exact ⟨(hall state hin).1, hparts.address.mp (hall state hin).2⟩
  · intro hall state hin
    rw [loopStates, List.mem_filter, decide_eq_true_eq] at hin
    obtain ⟨g, hg, hparts⟩ := hsegment state hin.1
    rw [hparts.cycleBegin] at hin
    obtain ⟨hlt, hline⟩ := hall g hg hin.2.1 hin.2.2
    exact ⟨hlt, hparts.address.mpr hline⟩

theorem keyName_k : Lang keyName "k".toList := .seq (.set (by decide)) .starNil

/-- A line of the prefetcher. -/
def prefetchLine : Text := "Prefetcher: Address:0x30 Data:0x0".toList

theorem tableMatches_iff_prefetched : ∃ instructions states,
    getTraceData "0x10".toList "0x99".toList (missTrace [prefetchLine]) =
        .ok (instructions, states) ∧
      ∃ keybin, decodeKey "a".toList 4 1 = some keybin ∧
        (TableMatches "k".toList keybin 0 (loopStates 0 9 states) ↔
          ∀ g ∈ segments none (roiLines "0x10".toList "0x99".toList {} (missTrace [prefetchLine])),
            0 ≤ g.cycleBegin → g.cycleBegin ≤ 9 →
              0 < keybin.length ∧ ∃ line ∈ g.body, IsPrefetch line) := by
  have hrun : (getTraceData "0x10".toList "0x99".toList
      (missTrace [prefetchLine])).toOption.isSome = true := by decide +kernel
  have hkey : (decodeKey "a".toList 4 1).isSome = true := by decide +kernel
  obtain ⟨keybin, hkeybin⟩ := Option.isSome_iff_exists.mp hkey
  cases h : getTraceData "0x10".toList "0x99".toList (missTrace [prefetchLine]) with
  | error e =>
    rw [h] at hrun
    cases hrun
  | ok out =>
    exact ⟨out.1, out.2, rfl, keybin, hkeybin, tableMatches_iff h keyName_k hkeybin 0 0 9⟩

/-- A cycle without a line of the prefetcher ends the program. -/
theorem unprefetched_not_matched : ∃ instructions states,
    getTraceData "0x10".toList "0x99".toList (missTrace []) = .ok (instructions, states) ∧
      ∃ keybin, decodeKey "a".toList 4 1 = some keybin ∧ 0 < keybin.length ∧
        ¬ TableMatches "k".toList keybin 0 (loopStates 0 9 states) := by
  have hrun : (getTraceData "0x10".toList "0x99".toList (missTrace [])).toOption.map
      (fun out => iterationLines "k".toList [['0'], ['1'], ['0'], ['1']] 0
        (loopStates 0 9 out.2)) = some none := by decide +kernel
  have hkey : decodeKey "a".toList 4 1 = some [['0'], ['1'], ['0'], ['1']] := by decide +kernel
  cases h : getTraceData "0x10".toList "0x99".toList (missTrace []) with
  | error e =>
    rw [h] at hrun
    cases hrun
  | ok out =>
    refine ⟨out.1, out.2, rfl, _, hkey, by decide, fun hmatches => ?_⟩
    obtain ⟨lines, hlines, -⟩ := hmatches.lines
    rw [h] at hrun
    exact Option.some_ne_none lines (hlines.symm.trans (Option.some.inj hrun))

end MicroSampler.Scripts
