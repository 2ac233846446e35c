import MicroSampler.Scripts.ComponentLoop
import MicroSampler.Scripts.TableLines

/-!
# The rows of the miss statistics

Behind the loop over the components `stats.py` writes the misses of the analysed iterations to
`miss_stats.csv`, a line for each, and counts them for each iteration.

* `missStats_reads_back`: when the loop is completed the file reads back as the misses, in order,
  and the counters are the numbers of its rows.
* `missStats_of_trace`: of a parsed trace the file has the data cache misses alone. Their rows
  are a field shorter than the header, and the TLB counters are zero throughout.
-/

namespace MicroSampler.Scripts

open Loops Regex

def DTLBMiss.numMisses (misses : DTLBMiss) : Nat := misses.pc.length

def DCacheMiss.numMisses (misses : DCacheMiss) : Nat := misses.pc.length

/-! ## Writing -/

/-- `'ITERN,STATEN,MISSN,TYPE,PC,PADDR\n'`, without its end of line. -/
def missHeader : Text := "ITERN,STATEN,MISSN,TYPE,PC,PADDR".toList

/-- `str(idx)+','+str(s)+','+str(j)+','`. -/
def rowStart (idx s j : Nat) : Text :=
  str idx ++ [','] ++ str s ++ [','] ++ str j ++ [',']

/-- What is written for one state. -/
def writeMisses (idx s : Nat) (state : UArch) : Option Text := do
  let dtlb ← (List.range state.dtlbMisses.numMisses).mapM fun j => do
    let pc ← state.dtlbMisses.pc[j]?
    let paddr ← state.dtlbMisses.paddr[j]?
    pure (rowStart idx s j ++ "DTLB,".toList ++ pc ++ [','] ++ paddr ++ ['\n'])
  let dcache ← (List.range state.dcacheMisses.numMisses).mapM fun j => do
    let pc ← state.dcacheMisses.pc[j]?
    pure (rowStart idx s j ++ "DCACHE,".toList ++ pc ++ ['\n'])
  pure (dtlb.flatten ++ dcache.flatten)

/-- The counters of the iterations, and the file. -/
structure MissStats where
  dtlbm : List Nat
  dcachem : List Nat
  file : Text

/-- `dtlbm[idx]` of an iteration. -/
def dtlbCount (loop : List UArch) : Nat := (loop.map fun state => state.dtlbMisses.numMisses).sum

/-- `dcachem[idx]` of an iteration. -/
def dcacheCount (loop : List UArch) : Nat :=
  (loop.map fun state => state.dcacheMisses.numMisses).sum

/-- One round of the loop over the iterations: the counters of an iteration and its lines. -/
def missRound (loopsUArch : List (List UArch)) (idx : Nat) : Option (Nat × Nat × Text) := do
  let loop ← loopsUArch[idx]?
  let texts ← (List.range loop.length).mapM fun s => do
    let state ← loop[s]?
    writeMisses idx s state
  pure (dtlbCount loop, dcacheCount loop, texts.flatten)

/-- The part of `stats.py` that counts and writes the misses. -/
def countMisses (loopsUArch : List (List UArch)) (iters window : Int) : Option MissStats := do
  let n ← analysedIters iters window
  let rounds ← (List.range n).mapM (missRound loopsUArch)
  pure
    { dtlbm := rounds.map fun r => r.1
      dcachem := rounds.map fun r => r.2.1
      file := missHeader ++ ['\n'] ++ rounds.flatMap fun r => r.2.2 }

/-- `stats.py` up to the file of the misses. -/
def missStats (loopsUArch : List (List UArch)) (key : List Keys.Label) (iters window : Int)
    (phi alpha : ℚ) : Option MissStats := do
  let _ ← components.mapM (componentRound loopsUArch key iters window phi alpha)
  countMisses loopsUArch iters window

/-! ## The misses -/

inductive Miss
  | dtlb (pc paddr : Text)
  | dcache (pc : Text)
  deriving DecidableEq

def Miss.isDtlb : Miss → Bool
  | dtlb _ _ => true
  | dcache _ => false

/-- A miss with its numbers: of the iteration, of the state in it, and of the miss in that. -/
structure MissRow where
  iter : Nat
  state : Nat
  number : Nat
  miss : Miss
  deriving DecidableEq

def missRows (idx s : Nat) (misses : List Miss) : List MissRow :=
  misses.zipIdx.map fun x => ⟨idx, s, x.2, x.1⟩

/-- The misses of a state, each kind with numbers of its own. -/
def stateMisses (idx s : Nat) (state : UArch) : List MissRow :=
  missRows idx s ((state.dtlbMisses.pc.zip state.dtlbMisses.paddr).map fun x => .dtlb x.1 x.2) ++
    missRows idx s (state.dcacheMisses.pc.map .dcache)

def loopMisses (idx : Nat) (loop : List UArch) : List MissRow :=
  loop.zipIdx.flatMap fun x => stateMisses idx x.2 x.1

/-- The misses of the iterations. -/
def allMisses (loops : List (List UArch)) : List MissRow :=
  loops.zipIdx.flatMap fun x => loopMisses x.2 x.1

namespace MissRow

/-- The fields of the row. -/
def fields (r : MissRow) : List Text :=
  [str r.iter, str r.state, str r.number] ++
    match r.miss with
    | .dtlb pc paddr => ["DTLB".toList, pc, paddr]
    | .dcache pc => ["DCACHE".toList, pc]

def line (r : MissRow) : Text := List.intercalate [','] r.fields

end MissRow

/-! ## Reading -/

/-- The row with these fields. -/
def readRow : List Text → Option MissRow
  | [iter, state, number, kind, pc, paddr] =>
    if kind = "DTLB".toList then
      some ⟨Nat.ofDigitChars 10 iter 0, Nat.ofDigitChars 10 state 0,
        Nat.ofDigitChars 10 number 0, .dtlb pc paddr⟩
    else none
  | [iter, state, number, kind, pc] =>
    if kind = "DCACHE".toList then
      some ⟨Nat.ofDigitChars 10 iter 0, Nat.ofDigitChars 10 state 0,
        Nat.ofDigitChars 10 number 0, .dcache pc⟩
    else none
  | _ => none

/-- The lines between the header and the empty rest behind the last one. -/
def fileLines (file : Text) : List Text := (file.splitOn '\n').tail.dropLast

/-- The rows of a file. -/
def readMissStats (file : Text) : Option (List MissRow) :=
  (fileLines file).mapM fun line => readRow (fields line)

theorem readRow_fields (r : MissRow) : readRow r.fields = some r := by
  obtain ⟨iter, state, number, miss⟩ := r
  cases miss with
  | dtlb pc paddr =>
    simp [MissRow.fields, readRow, str, Nat.ofDigitChars_ten_toDigits]
  | dcache pc =>
    simp [MissRow.fields, readRow, str, Nat.ofDigitChars_ten_toDigits]

/-! ## What a state can be given -/

/-- The texts can be fields, and each TLB miss has its physical address. -/
structure MissesGiven (state : UArch) : Prop where
  paired : state.dtlbMisses.paddr.length = state.dtlbMisses.pc.length
  pc : ∀ t ∈ state.dtlbMisses.pc, Writable t
  paddr : ∀ t ∈ state.dtlbMisses.paddr, Writable t
  dcache : ∀ t ∈ state.dcacheMisses.pc, Writable t

theorem writable_dtlb : Writable "DTLB".toList := ⟨by decide, by decide, by decide⟩

theorem writable_dcache : Writable "DCACHE".toList := ⟨by decide, by decide, by decide⟩

theorem mem_missRows {idx s : Nat} {misses : List Miss} {r : MissRow}
    (h : r ∈ missRows idx s misses) : r.iter = idx ∧ r.miss ∈ misses := by
  obtain ⟨x, hx, rfl⟩ := List.mem_map.mp h
  exact ⟨rfl, List.fst_mem_of_mem_zipIdx hx⟩

theorem writable_fields {idx s : Nat} {state : UArch} (h : MissesGiven state) {r : MissRow}
    (hr : r ∈ stateMisses idx s state) : ∀ t ∈ r.fields, Writable t := by
  have hmiss : ∀ t ∈ (match r.miss with
      | .dtlb pc paddr => ["DTLB".toList, pc, paddr]
      | .dcache pc => ["DCACHE".toList, pc]), Writable t := by
    obtain hr | hr := List.mem_append.mp hr
    · obtain ⟨⟨pc, paddr⟩, hmem, hx⟩ := List.mem_map.mp (mem_missRows hr).2
      rw [← hx]
      obtain ⟨hpc, hpaddr⟩ := List.of_mem_zip hmem
      simp only [List.mem_cons, List.not_mem_nil, or_false, forall_eq_or_imp, forall_eq]
      exact ⟨writable_dtlb, h.pc pc hpc, h.paddr paddr hpaddr⟩
    · obtain ⟨pc, hmem, hx⟩ := List.mem_map.mp (mem_missRows hr).2
      rw [← hx]
      simp only [List.mem_cons, List.not_mem_nil, or_false, forall_eq_or_imp, forall_eq]
      exact ⟨writable_dcache, h.dcache pc hmem⟩
  intro t ht
  obtain ht | ht := List.mem_append.mp ht
  · simp only [List.mem_cons, List.not_mem_nil, or_false] at ht
    obtain rfl | rfl | rfl := ht <;> exact writable_str _
  · exact hmiss t ht

/-! ## What is written -/

/-- A text of lines, each with its end. -/
def linesText (lines : List Text) : Text := lines.flatMap fun line => line ++ ['\n']

/-- A loop over the positions of a list. -/
theorem mapM_range_getElem {α β : Type} {l : List α} {f : Nat → Option β} {g : α × Nat → β}
    (h : ∀ (j : Nat) (hj : j < l.length), f j = some (g (l[j], j))) :
    (List.range l.length).mapM f = some (l.zipIdx.map g) := by
  induction l using List.reverseRecOn with
  | nil => rfl
  | append_singleton l a ih =>
    have hfront : (List.range l.length).mapM f = some (l.zipIdx.map g) := by
      refine ih fun j hj => ?_
      rw [h j (by simp; omega), List.getElem_append_left hj]
    have hlast : f l.length = some (g (a, l.length)) := by
      rw [h l.length (by simp), List.getElem_concat_length rfl]
    rw [List.length_append, List.length_singleton, List.range_succ, List.mapM_append, hfront,
      List.mapM_cons, hlast, List.zipIdx_append, List.map_append, Nat.zero_add]
    rfl

theorem line_dtlb (idx s j : Nat) (pc paddr : Text) :
    rowStart idx s j ++ "DTLB,".toList ++ pc ++ [','] ++ paddr ++ ['\n'] =
      MissRow.line ⟨idx, s, j, .dtlb pc paddr⟩ ++ ['\n'] := by
  simp [rowStart, MissRow.line, MissRow.fields, List.intercalate_cons_cons]

theorem line_dcache (idx s j : Nat) (pc : Text) :
    rowStart idx s j ++ "DCACHE,".toList ++ pc ++ ['\n'] =
      MissRow.line ⟨idx, s, j, .dcache pc⟩ ++ ['\n'] := by
  simp [rowStart, MissRow.line, MissRow.fields, List.intercalate_cons_cons]

/-- The lines of rows. -/
def rowsText (rows : List MissRow) : Text := linesText (rows.map MissRow.line)

theorem rowsText_append (rows rows' : List MissRow) :
    rowsText (rows ++ rows') = rowsText rows ++ rowsText rows' := by
  rw [rowsText, List.map_append]
  exact List.flatMap_append

theorem rowsText_flatMap {α : Type} (l : List α) (rows : α → List MissRow) :
    rowsText (l.flatMap rows) = (l.map fun a => rowsText (rows a)).flatten := by
  induction l with
  | nil => rfl
  | cons a l ih => rw [List.flatMap_cons, rowsText_append, ih, List.map_cons, List.flatten_cons]

/-- The lines of the misses of one kind. -/
theorem rowsText_missRows {α : Type} (idx s : Nat) (l : List α) (miss : α → Miss) :
    rowsText (missRows idx s (l.map miss)) =
      (l.zipIdx.map fun x => MissRow.line ⟨idx, s, x.2, miss x.1⟩ ++ ['\n']).flatten := by
  rw [rowsText, linesText, missRows, List.zipIdx_map, List.map_map, List.map_map,
    List.flatMap_def, List.map_map]
  rfl

theorem writeMisses_eq {state : UArch} (h : MissesGiven state) (idx s : Nat) :
    writeMisses idx s state = some (rowsText (stateMisses idx s state)) := by
  have hlength : (state.dtlbMisses.pc.zip state.dtlbMisses.paddr).length =
      state.dtlbMisses.numMisses := by
    rw [List.length_zip, h.paired, Nat.min_self]
    rfl
  have hdtlb : ((List.range state.dtlbMisses.numMisses).mapM fun j => do
      let pc ← state.dtlbMisses.pc[j]?
      let paddr ← state.dtlbMisses.paddr[j]?
      pure (rowStart idx s j ++ "DTLB,".toList ++ pc ++ [','] ++ paddr ++ ['\n'])) =
        some ((state.dtlbMisses.pc.zip state.dtlbMisses.paddr).zipIdx.map fun x =>
          MissRow.line ⟨idx, s, x.2, .dtlb x.1.1 x.1.2⟩ ++ ['\n']) := by
    rw [← hlength]
    refine mapM_range_getElem fun j hj => ?_
    rw [List.length_zip, Nat.lt_min] at hj
    rw [List.getElem?_eq_getElem hj.1, List.getElem?_eq_getElem hj.2, List.getElem_zip,
      ← line_dtlb]
    rfl
  have hdcache : ((List.range state.dcacheMisses.numMisses).mapM fun j => do
      let pc ← state.dcacheMisses.pc[j]?
      pure (rowStart idx s j ++ "DCACHE,".toList ++ pc ++ ['\n'])) =
        some (state.dcacheMisses.pc.zipIdx.map fun x =>
          MissRow.line ⟨idx, s, x.2, .dcache x.1⟩ ++ ['\n']) := by
    refine mapM_range_getElem fun j hj => ?_
    rw [List.getElem?_eq_getElem hj, ← line_dcache]
    rfl
  rw [writeMisses, hdtlb, hdcache, stateMisses, rowsText_append, rowsText_missRows,
    rowsText_missRows]
  rfl

/-- A round of the loop over the iterations. -/
theorem missRound_eq {loopsUArch : List (List UArch)} {idx : Nat} {loop : List UArch}
    (hloop : loopsUArch[idx]? = some loop) (h : ∀ state ∈ loop, MissesGiven state) :
    missRound loopsUArch idx =
      some (dtlbCount loop, dcacheCount loop, rowsText (loopMisses idx loop)) := by
  have htexts : ((List.range loop.length).mapM fun s => do
      let state ← loop[s]?
      writeMisses idx s state) =
        some (loop.zipIdx.map fun x => rowsText (stateMisses idx x.2 x.1)) := by
    refine mapM_range_getElem fun s hs => ?_
    rw [List.getElem?_eq_getElem hs]
    exact writeMisses_eq (h _ (List.getElem_mem hs)) idx s
  rw [missRound, hloop, Option.bind_eq_bind, Option.bind_some, htexts, loopMisses,
    rowsText_flatMap]
  rfl

/-- The texts of all the states can be written. -/
def AllGiven (loops : List (List UArch)) : Prop :=
  ∀ loop ∈ loops, ∀ state ∈ loop, MissesGiven state

/-- What is counted and written when there are enough iterations. -/
theorem countMisses_eq {loopsUArch : List (List UArch)} {iters window : Int} {n : Nat}
    (hn : analysedIters iters window = some n) (hgiven : AllGiven (loopsUArch.take n))
    (hlength : n ≤ loopsUArch.length) :
    countMisses loopsUArch iters window = some
      { dtlbm := (loopsUArch.take n).map dtlbCount
        dcachem := (loopsUArch.take n).map dcacheCount
        file := missHeader ++ ['\n'] ++ rowsText (allMisses (loopsUArch.take n)) } := by
  have hsize : (loopsUArch.take n).length = n := List.length_take_of_le hlength
  have hrounds : (List.range n).mapM (missRound loopsUArch) =
      some ((loopsUArch.take n).zipIdx.map fun x =>
        (dtlbCount x.1, dcacheCount x.1, rowsText (loopMisses x.2 x.1))) := by
    conv_lhs => rw [← hsize]
    refine mapM_range_getElem fun idx hidx => ?_
    refine missRound_eq ?_ (hgiven _ (List.getElem_mem hidx))
    rw [List.getElem_take, List.getElem?_eq_getElem]
  have hfst {β : Type} (f : List UArch → β) :
      ((loopsUArch.take n).zipIdx.map fun x => f x.1) = (loopsUArch.take n).map f := by
    have hmap : ((loopsUArch.take n).zipIdx.map Prod.fst).map f = (loopsUArch.take n).map f := by
      rw [List.zipIdx_map_fst]
    rwa [List.map_map] at hmap
  rw [countMisses, hn, Option.bind_eq_bind, Option.bind_some, hrounds, Option.bind_eq_bind,
    Option.bind_some, allMisses, rowsText_flatMap]
  simp only [List.map_map, List.flatMap_def, Function.comp_def, hfst dtlbCount, hfst dcacheCount]
  rfl

theorem Labelled.le_length {loopsUArch : List (List UArch)} {key : List Keys.Label} {n : Nat}
    (h : Labelled loopsUArch key n) : n ≤ loopsUArch.length := by
  by_contra hlt
  obtain ⟨loop, hloop, -⟩ := h loopsUArch.length (by omega)
  rw [List.getElem?_eq_none (le_refl _)] at hloop
  cases hloop

section Script

variable {loopsUArch : List (List UArch)} {key : List Keys.Label} {iters window : Int} {n : Nat}
  {phi alpha : ℚ}

/-- The file is written when the loop over the components is completed. -/
theorem missStats_eq_some_iff (hn : analysedIters iters window = some n) (hpos : 0 < alpha)
    (hle : alpha ≤ phi) (hgiven : AllGiven (loopsUArch.take n)) {out : MissStats} :
    missStats loopsUArch key iters window phi alpha = some out ↔
      (Selectable loopsUArch key n ∧
        PrefetchersPrinted (recordedFraction .HWPREFETCHER loopsUArch key n) key phi alpha) ∧
      out =
        { dtlbm := (loopsUArch.take n).map dtlbCount
          dcachem := (loopsUArch.take n).map dcacheCount
          file := missHeader ++ ['\n'] ++ rowsText (allMisses (loopsUArch.take n)) } := by
  rw [missStats, ← components_isSome_iff hn hpos hle]
  cases hrounds : components.mapM (componentRound loopsUArch key iters window phi alpha) with
  | none => simp
  | some rounds =>
    obtain ⟨hselect, -⟩ :=
      (components_isSome_iff hn hpos hle).mp (Option.isSome_of_eq_some hrounds)
    rw [Option.bind_eq_bind, Option.bind_some, countMisses_eq hn hgiven hselect.labelled.le_length]
    simp [eq_comm]

theorem isSome_missStats_iff (hn : analysedIters iters window = some n) (hpos : 0 < alpha)
    (hle : alpha ≤ phi) (hgiven : AllGiven (loopsUArch.take n)) :
    (missStats loopsUArch key iters window phi alpha).isSome ↔
      Selectable loopsUArch key n ∧
        PrefetchersPrinted (recordedFraction .HWPREFETCHER loopsUArch key n) key phi alpha := by
  rw [Option.isSome_iff_exists]
  simp only [missStats_eq_some_iff hn hpos hle hgiven, exists_and_left, exists_eq, and_true]

end Script

/-! ## Reading it back -/

theorem linesText_eq (lines : List Text) :
    linesText lines = List.intercalate ['\n'] (lines ++ [[]]) := by
  induction lines with
  | nil => rfl
  | cons line lines ih =>
    obtain ⟨next, rest, heq⟩ := List.exists_cons_of_ne_nil (by simp : lines ++ [[]] ≠ [])
    rw [linesText, List.flatMap_cons, ← linesText, ih, List.cons_append, heq,
      List.intercalate_cons_cons]

/-- The lines come apart again, with an empty rest behind the last end. -/
theorem splitOn_linesText {lines : List Text} (h : ∀ line ∈ lines, '\n' ∉ line) :
    (linesText lines).splitOn '\n' = lines ++ [[]] := by
  have hall : ∀ line ∈ lines ++ [[]], '\n' ∉ line := by
    intro line hline
    obtain hline | hline := List.mem_append.mp hline
    · exact h line hline
    · rw [List.mem_singleton.mp hline]
      exact List.not_mem_nil
  rw [linesText_eq, List.splitOn_intercalate '\n' hall (by simp)]

theorem fileLines_rowsText {rows : List MissRow}
    (h : ∀ r ∈ rows, ∀ t ∈ r.fields, Writable t) :
    fileLines (missHeader ++ ['\n'] ++ rowsText rows) = rows.map MissRow.line := by
  have htext : missHeader ++ ['\n'] ++ rowsText rows =
      linesText (missHeader :: rows.map MissRow.line) := rfl
  have hall : ∀ line ∈ missHeader :: rows.map MissRow.line, '\n' ∉ line := by
    intro line hline
    obtain rfl | hline := List.mem_cons.mp hline
    · decide
    · obtain ⟨r, hr, rfl⟩ := List.mem_map.mp hline
      exact not_mem_intercalate (by decide) fun t ht => (h r hr t ht).2.2
  rw [fileLines, htext, splitOn_linesText hall, List.cons_append, List.tail_cons,
    List.dropLast_concat]

theorem fields_line {r : MissRow} (h : ∀ t ∈ r.fields, Writable t) : fields r.line = r.fields :=
  fields_intercalate (by simp [MissRow.fields]) fun t ht => (h t ht).2.1

theorem readMissStats_rowsText {rows : List MissRow}
    (h : ∀ r ∈ rows, ∀ t ∈ r.fields, Writable t) :
    readMissStats (missHeader ++ ['\n'] ++ rowsText rows) = some rows := by
  have hread : ∀ r ∈ rows, readRow (fields r.line) = some r := by
    intro r hr
    rw [fields_line (h r hr), readRow_fields]
  rw [readMissStats, fileLines_rowsText h, List.mapM_map,
    mapM_eq_some_map (f := (fun line => readRow (fields line)) ∘ MissRow.line) hread, List.map_id']

/-! ## Counting the rows -/

theorem fields_allMisses {loops : List (List UArch)} (h : AllGiven loops) {r : MissRow}
    (hr : r ∈ allMisses loops) : ∀ t ∈ r.fields, Writable t := by
  obtain ⟨⟨loop, idx⟩, hloop, hr⟩ := List.mem_flatMap.mp hr
  obtain ⟨⟨state, s⟩, hstate, hr⟩ := List.mem_flatMap.mp hr
  exact writable_fields (h loop (List.fst_mem_of_mem_zipIdx hloop) state
    (List.fst_mem_of_mem_zipIdx hstate)) hr

theorem iter_of_mem_loopMisses {idx : Nat} {loop : List UArch} {r : MissRow}
    (h : r ∈ loopMisses idx loop) : r.iter = idx := by
  obtain ⟨x, -, hr⟩ := List.mem_flatMap.mp h
  obtain hr | hr := List.mem_append.mp hr <;> exact (mem_missRows hr).1

theorem allMisses_concat (loops : List (List UArch)) (loop : List UArch) :
    allMisses (loops ++ [loop]) = allMisses loops ++ loopMisses loops.length loop := by
  rw [allMisses, List.zipIdx_append, List.flatMap_append]
  simp [allMisses]

theorem iter_lt {loops : List (List UArch)} {r : MissRow} (h : r ∈ allMisses loops) :
    r.iter < loops.length := by
  obtain ⟨⟨loop, idx⟩, hx, hr⟩ := List.mem_flatMap.mp h
  rw [iter_of_mem_loopMisses hr]
  have := (List.mem_zipIdx hx).2.1
  omega

/-- The rows of an iteration that are of one kind. -/
def rowsOf (kind : Miss → Bool) (idx : Nat) (rows : List MissRow) : List MissRow :=
  rows.filter fun r => r.iter = idx && kind r.miss

/-- The counters of a kind are the numbers of its rows. -/
theorem map_length_rowsOf {kind : Miss → Bool} {count : List UArch → Nat}
    {loops : List (List UArch)}
    (h : ∀ loop ∈ loops, ∀ idx, (rowsOf kind idx (loopMisses idx loop)).length = count loop) :
    (List.range loops.length).map (fun idx => (rowsOf kind idx (allMisses loops)).length) =
      loops.map count := by
  induction loops using List.reverseRecOn with
  | nil => rfl
  | append_singleton loops loop ih =>
    have hold : ∀ idx ∈ List.range loops.length,
        (rowsOf kind idx (allMisses (loops ++ [loop]))).length =
          (rowsOf kind idx (allMisses loops)).length := by
      intro idx hidx
      have hnone : rowsOf kind idx (loopMisses loops.length loop) = [] := by
        refine List.filter_eq_nil_iff.mpr fun r hr => ?_
        have hne := ne_of_gt (List.mem_range.mp hidx)
        simp [iter_of_mem_loopMisses hr, hne]
      rw [allMisses_concat, rowsOf, List.filter_append, ← rowsOf, ← rowsOf, hnone,
        List.append_nil]
    have hnew : (rowsOf kind loops.length (allMisses (loops ++ [loop]))).length = count loop := by
      have hnone : rowsOf kind loops.length (allMisses loops) = [] := by
        refine List.filter_eq_nil_iff.mpr fun r hr => ?_
        simp [ne_of_lt (iter_lt hr)]
      rw [allMisses_concat, rowsOf, List.filter_append, ← rowsOf, ← rowsOf, hnone,
        List.nil_append]
      exact h loop (by simp) _
    rw [List.length_append, List.length_singleton, List.range_succ, List.map_append,
      List.map_congr_left hold, ih fun l hl => h l (List.mem_append_left _ hl), List.map_append,
      List.map_singleton, hnew, List.map_singleton]

theorem length_rowsOf_stateMisses {state : UArch} (h : MissesGiven state) (idx s : Nat) :
    (rowsOf Miss.isDtlb idx (stateMisses idx s state)).length = state.dtlbMisses.numMisses ∧
      (rowsOf (fun m => !m.isDtlb) idx (stateMisses idx s state)).length =
        state.dcacheMisses.numMisses := by
  have hkind {α : Type} (kind : Miss → Bool) (l : List α) (miss : α → Miss) (b : Bool)
      (hb : ∀ a, kind (miss a) = b) :
      (rowsOf kind idx (missRows idx s (l.map miss))).length = if b then l.length else 0 := by
    have hall : ∀ r ∈ missRows idx s (l.map miss), (r.iter = idx && kind r.miss) = b := by
      intro r hr
      obtain ⟨hiter, hmiss⟩ := mem_missRows hr
      obtain ⟨a, -, ha⟩ := List.mem_map.mp hmiss
      simp [hiter, ← ha, hb]
    cases b with
    | true =>
      rw [rowsOf, List.filter_eq_self.mpr hall]
      simp [missRows]
    | false =>
      rw [rowsOf, List.filter_eq_nil_iff.mpr fun r hr => by simp [hall r hr]]
      rfl
  have hzip : (state.dtlbMisses.pc.zip state.dtlbMisses.paddr).length =
      state.dtlbMisses.pc.length := by
    rw [List.length_zip, h.paired, Nat.min_self]
  have hsplit (kind : Miss → Bool) : (rowsOf kind idx (stateMisses idx s state)).length =
      (rowsOf kind idx (missRows idx s ((state.dtlbMisses.pc.zip state.dtlbMisses.paddr).map
        fun x => .dtlb x.1 x.2))).length +
      (rowsOf kind idx (missRows idx s (state.dcacheMisses.pc.map .dcache))).length := by
    rw [stateMisses, rowsOf, List.filter_append, List.length_append]
    rfl
  constructor
  · rw [hsplit, hkind _ _ _ true fun _ => rfl, hkind _ _ _ false fun _ => rfl]
    exact hzip
  · rw [hsplit, hkind _ _ _ false fun _ => rfl, hkind _ _ _ true fun _ => rfl]
    exact Nat.zero_add _

/-- The counter of a loop from those of its states. -/
theorem length_rowsOf_loopMisses {kind : Miss → Bool} {count : UArch → Nat} {loop : List UArch}
    {idx : Nat}
    (h : ∀ state ∈ loop, ∀ s, (rowsOf kind idx (stateMisses idx s state)).length = count state) :
    (rowsOf kind idx (loopMisses idx loop)).length = (loop.map count).sum := by
  have hmap : (loop.zipIdx.map fun x => (rowsOf kind idx (stateMisses idx x.2 x.1)).length) =
      (loop.zipIdx.map Prod.fst).map count := by
    rw [List.map_map]
    exact List.map_congr_left fun x hx => h x.1 (List.fst_mem_of_mem_zipIdx hx) x.2
  rw [List.zipIdx_map_fst] at hmap
  rw [rowsOf, loopMisses, List.filter_flatMap, List.length_flatMap, ← hmap]
  rfl

/-- **The miss statistics.** The file is written when the loop over the components is completed:
what it reads is recorded, there are labels and colours for them, and no candidate of the
prefetcher lacks its address or its data. Then it reads back as the misses of the analysed
iterations, in order, and each counter is the number of rows of its iteration and kind. -/
theorem missStats_reads_back {loopsUArch : List (List UArch)} {key : List Keys.Label}
    {iters window : Int} {n : Nat} {phi alpha : ℚ} (hn : analysedIters iters window = some n)
    (hpos : 0 < alpha) (hle : alpha ≤ phi) (hgiven : AllGiven (loopsUArch.take n)) :
    ((missStats loopsUArch key iters window phi alpha).isSome ↔
      Selectable loopsUArch key n ∧
        PrefetchersPrinted (recordedFraction .HWPREFETCHER loopsUArch key n) key phi alpha) ∧
    ∀ out, missStats loopsUArch key iters window phi alpha = some out →
      readMissStats out.file = some (allMisses (loopsUArch.take n)) ∧
      out.dtlbm = (List.range n).map (fun idx =>
        (rowsOf Miss.isDtlb idx (allMisses (loopsUArch.take n))).length) ∧
      out.dcachem = (List.range n).map (fun idx =>
        (rowsOf (fun m => !m.isDtlb) idx (allMisses (loopsUArch.take n))).length) := by
  refine ⟨isSome_missStats_iff hn hpos hle hgiven, fun out hout => ?_⟩
  obtain ⟨⟨hselect, -⟩, rfl⟩ := (missStats_eq_some_iff hn hpos hle hgiven).mp hout
  have hsize : (loopsUArch.take n).length = n :=
    List.length_take_of_le hselect.labelled.le_length
  have hdtlb : ∀ loop ∈ loopsUArch.take n, ∀ idx,
      (rowsOf Miss.isDtlb idx (loopMisses idx loop)).length = dtlbCount loop :=
    fun loop hloop idx => length_rowsOf_loopMisses fun state hstate s =>
      (length_rowsOf_stateMisses (hgiven loop hloop state hstate) idx s).1
  have hdcache : ∀ loop ∈ loopsUArch.take n, ∀ idx,
      (rowsOf (fun m => !m.isDtlb) idx (loopMisses idx loop)).length = dcacheCount loop :=
    fun loop hloop idx => length_rowsOf_loopMisses fun state hstate s =>
      (length_rowsOf_stateMisses (hgiven loop hloop state hstate) idx s).2
  refine ⟨readMissStats_rowsText fun r hr => fields_allMisses hgiven hr, ?_, ?_⟩
  · rw [← map_length_rowsOf hdtlb, hsize]
  · rw [← map_length_rowsOf hdcache, hsize]

/-- A state with a miss of each kind, and a request of the prefetcher. -/
def missedState : UArch :=
  { cycleBegin := 1
    hwprefetcher := ⟨some 7, some 8⟩
    dtlbMisses := ⟨["0x1".toList], ["0x2".toList]⟩
    dcacheMisses := ⟨["0x3".toList]⟩ }

theorem missStats_reads_back_missed :
    ∃ out, missStats [[missedState]] [['1']] 1 1 (9 / 10) (1 / 10) = some out ∧
      readMissStats out.file = some [⟨0, 0, 0, .dtlb "0x1".toList "0x2".toList⟩,
        ⟨0, 0, 0, .dcache "0x3".toList⟩] := by
  have hgiven : AllGiven [[missedState]] := by
    intro loop hloop state hstate
    obtain rfl := List.mem_singleton.mp hloop
    obtain rfl := List.mem_singleton.mp hstate
    constructor <;> simp [missedState, Writable]
  have hselect : Selectable [[missedState]] [['1']] 1 :=
    ⟨labelled_of_le (le_refl 1) (le_refl 1), by decide, by decide⟩
  have hprinted : PrefetchersPrinted (recordedFraction .HWPREFETCHER [[missedState]] [['1']] 1)
      [['1']] (9 / 10) (1 / 10) :=
    prefetchersPrinted_of_forall (by norm_num) (by decide +kernel)
  obtain ⟨hiff, hall⟩ := @missStats_reads_back [[missedState]] [['1']] 1 1 1 (9 / 10) (1 / 10) rfl
    (by norm_num) (by norm_num) hgiven
  obtain ⟨out, hout⟩ := Option.isSome_iff_exists.mp (hiff.mpr ⟨hselect, hprinted⟩)
  exact ⟨out, hout, (hall out hout).1⟩

/-! ## The misses of a trace -/

/-- `loopsUArch`, for the first fetch and the last retirement of each iteration. -/
def loopsOf (windows : List (Nat × Nat)) (states : List UArch) : List (List UArch) :=
  windows.map fun w => loopStates w.1 w.2 states

/-- The segments that begin in a window. -/
def segmentsIn (w : Nat × Nat) (segs : List Segment) : List Segment :=
  segs.filter fun g => w.1 ≤ g.cycleBegin ∧ g.cycleBegin ≤ w.2

/-- The data cache misses of a segment. -/
def Segment.dcachePcs (g : Segment) : List Text := g.body.filterMap dcacheMissOf

/-- The data cache misses of the segments in each window. -/
def traceMisses (windows : List (Nat × Nat)) (segs : List Segment) : List MissRow :=
  windows.zipIdx.flatMap fun x => (segmentsIn x.1 segs).zipIdx.flatMap fun y =>
    missRows x.2 y.2 (y.1.dcachePcs.map .dcache)

theorem writable_dcacheMissOf {line pc : Text} (h : dcacheMissOf line = some pc) : Writable pc := by
  unfold dcacheMissOf at h
  split at h
  · next m hclass =>
    split at h
    · cases h
      obtain ⟨r, hr, hsearch⟩ := classify_eq_some hclass
      obtain rfl : r = dcacheStatus := by simpa [chain] using hr
      have hgroup := groupsRead_present hclass (n := 1) (by decide)
      obtain ⟨a, ha, hlang⟩ := search_group hsearch hgroup
      rw [List.mem_singleton.mp ha] at hlang
      exact writable_request hlang
    · cases h
  · cases h

/-- The misses of the states of a trace. -/
theorem map_misses_states {beginRoiPc endRoiPc : Text} {lines : List Text}
    {instructions : InstrDict} {states : List UArch}
    (h : getTraceData beginRoiPc endRoiPc lines = .ok (instructions, states)) :
    states.map UArch.misses =
      (segments none (roiLines beginRoiPc endRoiPc {} lines)).map Segment.recorded := by
  unfold getTraceData at h
  obtain ⟨⟨r, s⟩, hrun, hout⟩ := bind_eq_ok_iff.mp h
  cases hout
  have htracks : Tracks {} none := ⟨rfl, by simp⟩
  have hstates := chainLines_states htracks (traceLoop_ok hrun)
  simpa using hstates

section Trace

variable {states : List UArch} {segs : List Segment}

theorem loopStates_misses (h : states.map UArch.misses = segs.map Segment.recorded)
    (w : Nat × Nat) :
    (loopStates w.1 w.2 states).map UArch.misses = (segmentsIn w segs).map Segment.recorded := by
  have hfilter := congrArg (List.filter fun m : CycleMisses =>
    decide (w.1 ≤ m.cycleBegin ∧ m.cycleBegin ≤ w.2)) h
  rw [List.filter_map, List.filter_map] at hfilter
  exact hfilter

theorem missesGiven_of_recorded {state : UArch} {g : Segment} (h : state.misses = g.recorded) :
    MissesGiven state := by
  have hdtlb : state.dtlbMisses = {} := congrArg CycleMisses.dtlb h
  have hdcache : state.dcacheMisses = ⟨g.body.filterMap dcacheMissOf⟩ :=
    congrArg CycleMisses.dcache h
  constructor
  · rw [hdtlb]
  · simp [hdtlb]
  · simp [hdtlb]
  · intro t ht
    rw [hdcache] at ht
    obtain ⟨line, -, hline⟩ := List.mem_filterMap.mp ht
    exact writable_dcacheMissOf hline

theorem allGiven_loopsOf (h : states.map UArch.misses = segs.map Segment.recorded)
    (windows : List (Nat × Nat)) : AllGiven (loopsOf windows states) := by
  intro loop hloop state hstate
  obtain ⟨w, -, rfl⟩ := List.mem_map.mp hloop
  have hmem := List.mem_map_of_mem (f := UArch.misses) (List.mem_of_mem_filter hstate)
  rw [h] at hmem
  obtain ⟨g, -, hg⟩ := List.mem_map.mp hmem
  exact missesGiven_of_recorded hg.symm

/-- The rows of recorded misses. -/
def recordedRows (idx s : Nat) (m : CycleMisses) : List MissRow :=
  missRows idx s ((m.dtlb.pc.zip m.dtlb.paddr).map fun x => .dtlb x.1 x.2) ++
    missRows idx s (m.dcache.pc.map .dcache)

theorem loopMisses_eq (idx : Nat) (loop : List UArch) :
    loopMisses idx loop =
      (loop.map UArch.misses).zipIdx.flatMap fun x => recordedRows idx x.2 x.1 := by
  rw [List.zipIdx_map, List.flatMap_map]
  rfl

theorem allMisses_loopsOf (h : states.map UArch.misses = segs.map Segment.recorded)
    (windows : List (Nat × Nat)) :
    allMisses (loopsOf windows states) = traceMisses windows segs := by
  rw [allMisses, loopsOf, List.zipIdx_map, List.flatMap_map, traceMisses]
  congr 1
  ext x : 1
  rw [Prod.map_snd, Prod.map_fst, loopMisses_eq, loopStates_misses h, List.zipIdx_map,
    List.flatMap_map]
  rfl

theorem dtlbCount_loopStates (h : states.map UArch.misses = segs.map Segment.recorded)
    (w : Nat × Nat) : dtlbCount (loopStates w.1 w.2 states) = 0 := by
  have hcount := congrArg (List.map fun m : CycleMisses => m.dtlb.pc.length)
    (loopStates_misses h w)
  rw [List.map_map, List.map_map] at hcount
  refine (congrArg List.sum hcount).trans (List.sum_eq_zero_iff_forall_eq_nat.mpr fun k hk => ?_)
  obtain ⟨g, -, rfl⟩ := List.mem_map.mp hk
  rfl

theorem dcacheCount_loopStates (h : states.map UArch.misses = segs.map Segment.recorded)
    (w : Nat × Nat) : dcacheCount (loopStates w.1 w.2 states) =
      ((segmentsIn w segs).map fun g => g.dcachePcs.length).sum := by
  have hcount := congrArg (List.map fun m : CycleMisses => m.dcache.pc.length)
    (loopStates_misses h w)
  rw [List.map_map, List.map_map] at hcount
  exact congrArg List.sum hcount

/-- A row of a data cache miss has no physical address. -/
theorem length_fields_traceMisses {windows : List (Nat × Nat)} {r : MissRow}
    (h : r ∈ traceMisses windows segs) : r.fields.length = 5 := by
  obtain ⟨x, -, hr⟩ := List.mem_flatMap.mp h
  obtain ⟨y, -, hr⟩ := List.mem_flatMap.mp hr
  obtain ⟨pc, -, hpc⟩ := List.mem_map.mp (mem_missRows hr).2
  rw [MissRow.fields, ← hpc]
  rfl

end Trace

/-- **The miss statistics of a trace.** When the loop over the components is completed, the rows
are the data cache misses of the segments in each window, and every line is a field shorter than
the header. No TLB miss is ever counted. -/
theorem missStats_of_trace {beginRoiPc endRoiPc : Text} {lines : List Text}
    {instructions : InstrDict} {states : List UArch}
    (h : getTraceData beginRoiPc endRoiPc lines = .ok (instructions, states))
    (windows : List (Nat × Nat)) (key : List Keys.Label) {iters window : Int} {n : Nat}
    {phi alpha : ℚ} (hn : analysedIters iters window = some n) (hpos : 0 < alpha)
    (hle : alpha ≤ phi) :
    ((missStats (loopsOf windows states) key iters window phi alpha).isSome ↔
      Selectable (loopsOf windows states) key n ∧ PrefetchersPrinted
        (recordedFraction .HWPREFETCHER (loopsOf windows states) key n) key phi alpha) ∧
    ∀ out, missStats (loopsOf windows states) key iters window phi alpha = some out →
      readMissStats out.file = some (traceMisses (windows.take n)
        (segments none (roiLines beginRoiPc endRoiPc {} lines))) ∧
      out.dtlbm = List.replicate n 0 ∧
      out.dcachem = (windows.take n).map (fun w =>
        ((segmentsIn w (segments none (roiLines beginRoiPc endRoiPc {} lines))).map
          fun g => g.dcachePcs.length).sum) ∧
      ∀ line ∈ fileLines out.file, (fields line).length + 1 = (fields missHeader).length := by
  have hmisses := map_misses_states h
  have htake : (loopsOf windows states).take n = loopsOf (windows.take n) states :=
    List.map_take.symm
  have hgiven : AllGiven ((loopsOf windows states).take n) :=
    htake ▸ allGiven_loopsOf hmisses (windows.take n)
  refine ⟨isSome_missStats_iff hn hpos hle hgiven, fun out hout => ?_⟩
  obtain ⟨⟨hselect, -⟩, hout⟩ := (missStats_eq_some_iff hn hpos hle hgiven).mp hout
  have hlength := hselect.labelled.le_length
  rw [loopsOf, List.length_map] at hlength
  have hsize : (windows.take n).length = n := List.length_take_of_le hlength
  rw [htake, allMisses_loopsOf hmisses] at hout
  subst hout
  have hrows : ∀ r ∈ traceMisses (windows.take n)
      (segments none (roiLines beginRoiPc endRoiPc {} lines)), ∀ t ∈ r.fields, Writable t := by
    rw [← allMisses_loopsOf hmisses, ← htake]
    exact fun r hr => fields_allMisses hgiven hr
  refine ⟨readMissStats_rowsText hrows, ?_, ?_, ?_⟩
  · refine List.eq_replicate_iff.mpr ⟨?_, fun k hk => ?_⟩
    · rw [List.length_map, loopsOf, List.length_map, hsize]
    · obtain ⟨loop, hloop, rfl⟩ := List.mem_map.mp hk
      obtain ⟨w, -, rfl⟩ := List.mem_map.mp hloop
      exact dtlbCount_loopStates hmisses w
  · dsimp only
    rw [loopsOf, List.map_map]
    exact List.map_congr_left fun w _ => dcacheCount_loopStates hmisses w
  · intro line hline
    rw [fileLines_rowsText hrows] at hline
    obtain ⟨r, hr, rfl⟩ := List.mem_map.mp hline
    rw [fields_line (hrows r hr), length_fields_traceMisses hr]
    decide +kernel

theorem missStats_of_trace_dcache : ∃ instructions states,
    getTraceData "0x10".toList "0x99".toList (missTrace [prefetchLine]) =
        .ok (instructions, states) ∧
      ∃ out, missStats (loopsOf [(0, 9)] states) [['1']] 1 1 (9 / 10) (1 / 10) = some out ∧
        out.dtlbm = [0] := by
  have hrun : (getTraceData "0x10".toList "0x99".toList
      (missTrace [prefetchLine])).toOption.map (fun out =>
        out.2.all fun s => s.hwprefetcher.str.isSome) = some true := by decide +kernel
  cases hdata : getTraceData "0x10".toList "0x99".toList (missTrace [prefetchLine]) with
  | error e =>
    rw [hdata] at hrun
    cases hrun
  | ok parsed =>
    obtain ⟨instructions, states⟩ := parsed
    rw [hdata] at hrun
    have hstr : ∀ s ∈ states, s.hwprefetcher.str ≠ none := fun s hs =>
      Option.isSome_iff_ne_none.mp (List.all_eq_true.mp (Option.some.inj hrun) s hs)
    have hselect : Selectable (loopsOf [(0, 9)] states) [['1']] 1 :=
      ⟨labelled_of_le (le_refl 1) (le_refl 1), by decide, by decide⟩
    have hprinted : PrefetchersPrinted
        (recordedFraction .HWPREFETCHER (loopsOf [(0, 9)] states) [['1']] 1) [['1']]
          (9 / 10) (1 / 10) := by
      refine prefetchersPrinted_of_forall (by norm_num) fun loop hloop s hs => ?_
      obtain ⟨w, -, rfl⟩ := List.mem_map.mp hloop
      exact hstr s (List.mem_of_mem_filter hs)
    obtain ⟨hiff, hall⟩ := @missStats_of_trace _ _ _ _ _ hdata [(0, 9)] [['1']] 1 1 1 (9 / 10)
      (1 / 10) rfl (by norm_num) (by norm_num)
    obtain ⟨out, hout⟩ := Option.isSome_iff_exists.mp (hiff.mpr ⟨hselect, hprinted⟩)
    exact ⟨instructions, states, rfl, out, hout, (hall out hout).2.1⟩

end MicroSampler.Scripts
