import Mathlib.Data.List.TakeWhile
import MicroSampler.Scripts.MissCounting

/-!
# Segments of the trace

What a run of `get_trace_data` that returns has recorded. The region reaches from the
first fetch of the begin address to the retirement of an instruction fetched at the end
address. The returned states are the segments of the region between successive cycle
markers, each built from its own lines. The instructions are those fetched in the region,
each stage with the cycle of its line.
-/

namespace MicroSampler.Scripts

open Python Regex Loops

/-! ## Timestamps -/

/-- What a line says as an instruction timestamp. -/
structure Stamp where
  seqnum : Nat
  stage : Text
  cycle : Nat
  pc : Option Text
  inst : Option Text
  deriving DecidableEq

def stampOf (line : Text) : Option Stamp :=
  (search timestamp line).map fun m =>
    ⟨(digitsVal 10 (m.text 1)).getD 0, m.text 2, (digitsVal 10 (m.text 3)).getD 0, m.group 5,
      m.group 7⟩

def Stamp.isFetch (st : Stamp) : Bool := st.stage = "fetch".toList

/-- The stamp fetches an instruction at the address. -/
def Stamp.isFetchAt (pc : Text) (st : Stamp) : Bool := st.isFetch && st.pc = some pc

/-- The stamp fetches the instruction of a sequence number. -/
def Stamp.isFetchOf (seqnum : Nat) (st : Stamp) : Bool := st.isFetch && st.seqnum = seqnum

def stamps (lines : List Text) : List Stamp := lines.filterMap stampOf

/-- The instructions fetched, in order. -/
def fetches (trace : List Stamp) : List Stamp := trace.filter Stamp.isFetch

/-- No sequence number is fetched twice. -/
def FetchedOnce (lines : List Text) : Prop := ((fetches (stamps lines)).map Stamp.seqnum).Nodup

/-- The cycle of the line that gives the stage of an instruction, zero if there is none. The
lines of an instruction are those after its fetch; if a stage is given twice the last line
counts. -/
def stageCycle (trace : List Stamp) (seqnum : Nat) (stage : Text) : Nat :=
  (((trace.dropWhile fun st => !st.isFetchOf seqnum).filter fun st =>
    st.seqnum = seqnum && st.stage = stage).getLast?.map Stamp.cycle).getD 0

/-- The timing record of a fetched instruction. -/
def instrOf (trace : List Stamp) (fetch : Stamp) : Instr where
  seqnum := fetch.seqnum
  pc := fetch.pc
  inst := fetch.inst
  fetch := fetch.cycle
  decode := stageCycle trace fetch.seqnum "decode".toList
  rename := stageCycle trace fetch.seqnum "rename".toList
  dispatch := stageCycle trace fetch.seqnum "dispatch".toList
  issue := stageCycle trace fetch.seqnum "issue".toList
  complete := stageCycle trace fetch.seqnum "complete".toList
  retire := stageCycle trace fetch.seqnum "retire".toList

/-! ## The region -/

/-- The trace from the first fetch of the begin address on. -/
def fromBegin (beginRoiPc : Text) (lines : List Text) : List Text :=
  lines.dropWhile fun line => !(stampOf line).any (Stamp.isFetchAt beginRoiPc)

/-- A line that retires an instruction fetched at the end address. -/
def isStop (endRoiPc : Text) (seen : List Text) (line : Text) : Bool :=
  (stampOf line).any fun st => st.stage = "retire".toList &&
    (stamps seen).any fun f => f.isFetchAt endRoiPc && f.isFetchOf st.seqnum

/-- The lines up to the stopping point, and the line that is the stopping point unless the
trace ends before. -/
def untilStop (endRoiPc : Text) : List Text → List Text → List Text × Option Text
  | _, [] => ([], none)
  | seen, line :: lines =>
    if isStop endRoiPc seen line then ([], some line)
    else
      let (inside, stop) := untilStop endRoiPc (seen ++ [line]) lines
      (line :: inside, stop)

/-- The lines of the region, the stopping point excluded. -/
def region (beginRoiPc endRoiPc : Text) (lines : List Text) : List Text :=
  (untilStop endRoiPc [] (fromBegin beginRoiPc lines)).1

/-- The timestamps of the region, that of the stopping point included. -/
def regionStamps (beginRoiPc endRoiPc : Text) (lines : List Text) : List Stamp :=
  let (inside, stop) := untilStop endRoiPc [] (fromBegin beginRoiPc lines)
  stamps (inside ++ stop.toList)

/-! ## The dictionary of instructions -/

/-- `recordStage` on what it reads of the line. -/
def recordStamp (endRoiPc : Text) (instructions : InstrDict) (st : Stamp) : InstrDict × Bool :=
  if st.isFetch then
    (instructions.set
      { seqnum := st.seqnum, pc := st.pc, inst := st.inst, fetch := st.cycle }, false)
  else
    match instructions.items.get? st.seqnum with
    | none => (instructions, false)
    | some instr =>
      (instructions.set { instr.setStage st.stage st.cycle with seqnum := st.seqnum },
        st.stage = "retire".toList && instr.pc = some endRoiPc)

theorem recordStage_eq (endRoiPc : Text) (instructions : InstrDict) (m : Match)
    (seqnum cycle : Nat) :
    recordStage endRoiPc instructions m seqnum cycle =
      recordStamp endRoiPc instructions ⟨seqnum, m.text 2, cycle, m.group 5, m.group 7⟩ := by
  unfold recordStage recordStamp Stamp.isFetch
  cases instructions.items.get? seqnum <;> simp only [decide_eq_true_eq]

theorem timestampLine_eq (beginRoiPc endRoiPc : Text) (r : Region) (line : Text) :
    timestampLine beginRoiPc endRoiPc r line =
      match stampOf line with
      | none => (r, false)
      | some st =>
        if r.beginRoi || st.isFetchAt beginRoiPc then
          (⟨(recordStamp endRoiPc r.instructions st).1, true⟩,
            (recordStamp endRoiPc r.instructions st).2)
        else (r, false) := by
  unfold timestampLine stampOf
  cases search timestamp line with
  | none => rfl
  | some m =>
    dsimp only [Option.map_some]
    rw [recordStage_eq]
    rfl

/-- The dictionary holds the instructions fetched in the trace. -/
def Holds (instructions : InstrDict) (trace : List Stamp) : Prop :=
  instructions.items.entries = (fetches trace).map fun f => (f.seqnum, instrOf trace f)

theorem isFetchOf_self {st : Stamp} (h : st.isFetch = true) : st.isFetchOf st.seqnum = true := by
  simp [Stamp.isFetchOf, h]

theorem fetches_concat (trace : List Stamp) (st : Stamp) :
    fetches (trace ++ [st]) = fetches trace ++ if st.isFetch then [st] else [] := by
  rw [fetches, List.filter_append, ← fetches]
  cases h : st.isFetch <;> simp [h]

/-- Past its fetch, a line counts for the instruction it names. -/
theorem stageCycle_concat {trace : List Stamp} {f : Stamp} (hf : f ∈ fetches trace) (st : Stamp)
    (stage : Text) :
    stageCycle (trace ++ [st]) f.seqnum stage =
      if st.seqnum = f.seqnum ∧ st.stage = stage then st.cycle
      else stageCycle trace f.seqnum stage := by
  have hrest : (trace.dropWhile fun a => !a.isFetchOf f.seqnum).isEmpty = false := by
    rw [fetches, List.mem_filter] at hf
    rw [List.isEmpty_eq_false_iff, ne_eq, List.dropWhile_eq_nil_iff]
    intro hall
    have hself := hall f hf.1
    rw [isFetchOf_self hf.2] at hself
    cases hself
  unfold stageCycle
  rw [List.dropWhile_append, hrest, if_neg Bool.false_ne_true, List.filter_append]
  by_cases h : st.seqnum = f.seqnum ∧ st.stage = stage
  · simp [h]
  · have hnot : (decide (st.seqnum = f.seqnum) && decide (st.stage = stage)) = false := by
      simpa using h
    simp [h, hnot]

/-- The fetch of an instruction opens its record, with no stage reached. -/
theorem stageCycle_fetch {trace : List Stamp} {st : Stamp} (hfetch : st.isFetch = true)
    (hnew : st.seqnum ∉ (fetches trace).map Stamp.seqnum) {stage : Text}
    (hstage : stage ≠ "fetch".toList) : stageCycle (trace ++ [st]) st.seqnum stage = 0 := by
  have hrest : (trace.dropWhile fun a => !a.isFetchOf st.seqnum) = [] := by
    rw [List.dropWhile_eq_nil_iff]
    intro f hf
    by_cases h : f.isFetchOf st.seqnum = true
    · simp only [Stamp.isFetchOf, Bool.and_eq_true, decide_eq_true_eq] at h
      exact absurd (List.mem_map.mpr ⟨f, List.mem_filter.mpr ⟨hf, h.1⟩, h.2⟩) hnew
    · simpa using h
  have hne : st.stage ≠ stage := by
    rw [Stamp.isFetch, decide_eq_true_eq] at hfetch
    rw [hfetch]
    exact hstage.symm
  unfold stageCycle
  rw [List.dropWhile_append, hrest]
  simp [isFetchOf_self hfetch, hne]

/-- A stage line sets the field of its stage. -/
theorem setStage_eq (instr : Instr) (stage : Text) (cycle : Nat) :
    instr.setStage stage cycle = { instr with
      decode := if stage = "decode".toList then cycle else instr.decode
      rename := if stage = "rename".toList then cycle else instr.rename
      dispatch := if stage = "dispatch".toList then cycle else instr.dispatch
      issue := if stage = "issue".toList then cycle else instr.issue
      complete := if stage = "complete".toList then cycle else instr.complete
      retire := if stage = "retire".toList then cycle else instr.retire } := by
  have hne : ["decode".toList, "rename".toList, "dispatch".toList, "issue".toList,
      "complete".toList, "retire".toList].Nodup := by decide
  unfold Instr.setStage
  -- the stages are six different names, nothing else of them matters
  generalize "decode".toList = d, "rename".toList = n, "dispatch".toList = p,
    "issue".toList = i, "complete".toList = c, "retire".toList = t at hne ⊢
  simp only [List.nodup_cons, List.mem_cons, List.not_mem_nil, or_false, not_or] at hne
  by_cases hd : stage = d
  · subst hd
    simp [hne]
  by_cases hn : stage = n
  · subst hn
    simp [hd, hne]
  by_cases hp : stage = p
  · subst hp
    simp [hd, hn, hne]
  by_cases hi : stage = i
  · subst hi
    simp [hd, hn, hp, hne]
  by_cases hc : stage = c
  · subst hc
    simp [hd, hn, hp, hi, hne]
  by_cases ht : stage = t
  · subst ht
    simp [hd, hn, hp, hi, hc]
  simp [hd, hn, hp, hi, hc, ht]

/-- How the record of a fetched instruction changes with a line. -/
theorem instrOf_concat {trace : List Stamp} {f : Stamp} (hf : f ∈ fetches trace)
    (st : Stamp) :
    instrOf (trace ++ [st]) f =
      if f.seqnum = st.seqnum then
        { (instrOf trace f).setStage st.stage st.cycle with seqnum := st.seqnum }
      else instrOf trace f := by
  unfold instrOf
  simp only [stageCycle_concat hf, setStage_eq]
  by_cases hq : f.seqnum = st.seqnum
  · simp only [hq, true_and, if_true]
  · have hne : ¬ st.seqnum = f.seqnum := fun h => hq h.symm
    simp only [hq, hne, false_and, if_false]

theorem get?_of_holds {instructions : InstrDict} {trace : List Stamp}
    (h : Holds instructions trace) {seqnum : Nat} {instr : Instr} :
    instructions.items.get? seqnum = some instr ↔
      ∃ f ∈ fetches trace, f.seqnum = seqnum ∧ instrOf trace f = instr := by
  rw [Dict.get?_eq_some_iff, h, List.mem_map]
  simp only [Prod.mk.injEq]

theorem keys_of_holds {instructions : InstrDict} {trace : List Stamp}
    (h : Holds instructions trace) :
    instructions.items.keys = (fetches trace).map Stamp.seqnum := by
  rw [Dict.keys, h, List.map_map]
  rfl

/-- A fetch adds an instruction at the end. -/
theorem holds_fetch {instructions : InstrDict} {trace : List Stamp}
    (h : Holds instructions trace) {st : Stamp} (hfetch : st.isFetch = true)
    (hnew : st.seqnum ∉ (fetches trace).map Stamp.seqnum) :
    Holds (instructions.set
      { seqnum := st.seqnum, pc := st.pc, inst := st.inst, fetch := st.cycle })
      (trace ++ [st]) := by
  have hold : ∀ f ∈ fetches trace, instrOf (trace ++ [st]) f = instrOf trace f := by
    intro f hf
    have hne : f.seqnum ≠ st.seqnum := fun heq => hnew (List.mem_map.mpr ⟨f, hf, heq⟩)
    rw [instrOf_concat hf, if_neg hne]
  have hst : instrOf (trace ++ [st]) st =
      { seqnum := st.seqnum, pc := st.pc, inst := st.inst, fetch := st.cycle } := by
    have hzero : ∀ stage, stage ≠ "fetch".toList →
        stageCycle (trace ++ [st]) st.seqnum stage = 0 :=
      fun stage hstage => stageCycle_fetch hfetch hnew hstage
    unfold instrOf
    rw [hzero _ (by decide), hzero _ (by decide), hzero _ (by decide), hzero _ (by decide),
      hzero _ (by decide), hzero _ (by decide)]
  unfold Holds InstrDict.set
  rw [← keys_of_holds h] at hnew
  rw [Dict.entries_set_of_not_mem hnew, h, fetches_concat, if_pos hfetch, List.map_append,
    List.map_singleton, hst]
  congr 1
  apply List.map_congr_left
  intro f hf
  rw [hold f hf]

/-- A stage line changes the record of its instruction, if that was fetched. -/
theorem holds_stage {instructions : InstrDict} {trace : List Stamp}
    (h : Holds instructions trace) {st : Stamp} (hfetch : st.isFetch = false) {instr : Instr}
    (hinstr : instructions.items.get? st.seqnum = some instr) :
    Holds (instructions.set { instr.setStage st.stage st.cycle with seqnum := st.seqnum })
      (trace ++ [st]) := by
  obtain ⟨f₀, hf₀, hseq₀, rfl⟩ := (get?_of_holds h).mp hinstr
  have hmem : st.seqnum ∈ instructions.items.keys := Dict.mem_keys_iff.mpr ⟨_, hinstr⟩
  have hnodup := instructions.items.nodup_keys
  rw [keys_of_holds h] at hnodup
  unfold Holds InstrDict.set
  rw [Dict.entries_set_of_mem hmem, h, fetches_concat, hfetch, if_neg Bool.false_ne_true,
    List.append_nil, List.map_map]
  apply List.map_congr_left
  intro f hf
  rw [Function.comp_apply, instrOf_concat hf]
  by_cases hseq : f.seqnum = st.seqnum
  · obtain rfl : f = f₀ := List.inj_on_of_nodup_map hnodup hf hf₀ (hseq.trans hseq₀.symm)
    rw [if_pos hseq, if_pos hseq, hseq]
  · rw [if_neg hseq, if_neg hseq]

/-- A stage line of an instruction that was not fetched changes nothing. -/
theorem holds_ignored {instructions : InstrDict} {trace : List Stamp}
    (h : Holds instructions trace) {st : Stamp} (hfetch : st.isFetch = false)
    (hinstr : instructions.items.get? st.seqnum = none) :
    Holds instructions (trace ++ [st]) := by
  unfold Holds
  rw [h, fetches_concat, hfetch, if_neg Bool.false_ne_true, List.append_nil]
  apply List.map_congr_left
  intro f hf
  have hne : f.seqnum ≠ st.seqnum := by
    intro heq
    rw [(get?_of_holds h).mpr ⟨f, hf, heq, rfl⟩] at hinstr
    cases hinstr
  rw [instrOf_concat hf, if_neg hne]

/-- **One timestamp.** The dictionary keeps holding the instructions fetched. -/
theorem holds_recordStamp {instructions : InstrDict} {trace : List Stamp}
    (h : Holds instructions trace) (endRoiPc : Text) {st : Stamp}
    (honce : ((fetches (trace ++ [st])).map Stamp.seqnum).Nodup) :
    Holds (recordStamp endRoiPc instructions st).1 (trace ++ [st]) := by
  unfold recordStamp
  by_cases hfetch : st.isFetch = true
  · rw [if_pos hfetch]
    apply holds_fetch h hfetch
    rw [fetches_concat, if_pos hfetch, List.map_append, List.map_singleton,
      List.nodup_append] at honce
    intro hmem
    exact honce.2.2 _ hmem _ (List.mem_singleton.mpr rfl) rfl
  · rw [if_neg hfetch]
    have hfetch : st.isFetch = false := by simpa using hfetch
    cases hinstr : instructions.items.get? st.seqnum with
    | none => exact holds_ignored h hfetch hinstr
    | some instr => exact holds_stage h hfetch hinstr

/-- The line at which the loop stops: the instruction fetched at the address retires. -/
theorem isStop_iff {endRoiPc line : Text} {seen : List Text} {st : Stamp}
    (hst : stampOf line = some st) : isStop endRoiPc seen line = true ↔
      st.stage = "retire".toList ∧
        ∃ f ∈ fetches (stamps seen), f.seqnum = st.seqnum ∧ f.pc = some endRoiPc := by
  unfold isStop
  simp only [hst, Option.any_some, Bool.and_eq_true, decide_eq_true_eq, List.any_eq_true,
    fetches, List.mem_filter, Stamp.isFetchAt, Stamp.isFetchOf]
  constructor
  · rintro ⟨hretire, f, hf, ⟨hfetch, hpc⟩, -, hseq⟩
    exact ⟨hretire, f, ⟨hf, hfetch⟩, hseq, hpc⟩
  · rintro ⟨hretire, f, ⟨hf, hfetch⟩, hseq, hpc⟩
    exact ⟨hretire, f, hf, ⟨hfetch, hpc⟩, hfetch, hseq⟩

/-- The loop ends at the retirement of an instruction fetched at the end address. -/
theorem recordStamp_stop {instructions : InstrDict} {seen : List Text}
    (h : Holds instructions (stamps seen)) {endRoiPc line : Text} {st : Stamp}
    (hst : stampOf line = some st) :
    (recordStamp endRoiPc instructions st).2 = isStop endRoiPc seen line := by
  apply Bool.eq_iff_iff.mpr
  rw [isStop_iff hst]
  unfold recordStamp
  by_cases hfetch : st.isFetch = true
  · rw [if_pos hfetch]
    have hne : st.stage ≠ "retire".toList := by
      rw [Stamp.isFetch, decide_eq_true_eq] at hfetch
      rw [hfetch]
      decide
    exact ⟨fun h => absurd h Bool.false_ne_true, fun h => absurd h.1 hne⟩
  · rw [if_neg hfetch]
    cases hinstr : instructions.items.get? st.seqnum with
    | none =>
      refine ⟨fun h => absurd h Bool.false_ne_true, ?_⟩
      rintro ⟨-, f, hf, hseq, -⟩
      rw [(get?_of_holds h).mpr ⟨f, hf, hseq, rfl⟩] at hinstr
      cases hinstr
    | some instr =>
      obtain ⟨f₀, hf₀, hseq₀, rfl⟩ := (get?_of_holds h).mp hinstr
      simp only [Bool.and_eq_true, decide_eq_true_eq]
      apply and_congr_right
      intro _
      constructor
      · intro hpc
        exact ⟨f₀, hf₀, hseq₀, hpc⟩
      · rintro ⟨f, hf, hseq, hpc⟩
        have hsame := (get?_of_holds h).mpr ⟨f, hf, hseq, rfl⟩
        rw [hinstr] at hsame
        rw [Option.some.inj hsame]
        exact hpc

/-! ## The run -/

theorem stamps_concat (lines : List Text) (line : Text) :
    stamps (lines ++ [line]) = stamps lines ++ (stampOf line).toList := by
  rw [stamps, List.filterMap_append, ← stamps]
  cases h : stampOf line <;> simp [h]

theorem fetchedOnce_of_sublist {lines lines' : List Text} (h : FetchedOnce lines)
    (hsub : lines'.Sublist lines) : FetchedOnce lines' :=
  h.sublist (((hsub.filterMap stampOf).filter Stamp.isFetch).map Stamp.seqnum)

/-- What the timestamp part of the body does to a line inside the region. -/
theorem timestampLine_inside {r : Region} {seen : List Text} (hroi : r.beginRoi = true)
    (h : Holds r.instructions (stamps seen)) {line : Text}
    (honce : FetchedOnce (seen ++ [line])) (beginRoiPc endRoiPc : Text) :
    (timestampLine beginRoiPc endRoiPc r line).2 = isStop endRoiPc seen line ∧
      (timestampLine beginRoiPc endRoiPc r line).1.beginRoi = true ∧
      Holds (timestampLine beginRoiPc endRoiPc r line).1.instructions
        (stamps (seen ++ [line])) := by
  unfold FetchedOnce at honce
  rw [stamps_concat] at honce ⊢
  rw [timestampLine_eq]
  cases hst : stampOf line with
  | none =>
    refine ⟨?_, hroi, ?_⟩
    · simp [isStop, hst]
    · simpa [hst] using h
  | some st =>
    rw [hst] at honce
    simp only [hroi, Bool.true_or, if_true]
    exact ⟨recordStamp_stop h hst, trivial, holds_recordStamp h endRoiPc honce⟩

/-- **The region.** From its begin on, the loop enters the `elif` chain with the lines up to
the stopping point, and it ends with the instructions of their timestamps. -/
theorem traceLoop_inside {beginRoiPc endRoiPc : Text} {r : Region} {s : Sampler}
    {seen lines : List Text} {out : Region × Sampler} (hroi : r.beginRoi = true)
    (h : Holds r.instructions (stamps seen)) (honce : FetchedOnce (seen ++ lines))
    (hout : traceLoop beginRoiPc endRoiPc r s lines = .ok out) :
    (untilStop endRoiPc seen lines).1.foldlM chainLine s = .ok out.2 ∧
      Holds out.1.instructions (stamps (seen ++ (untilStop endRoiPc seen lines).1 ++
        (untilStop endRoiPc seen lines).2.toList)) := by
  induction lines generalizing r s seen with
  | nil =>
    cases hout
    exact ⟨rfl, by simpa [untilStop] using h⟩
  | cons line lines ih =>
    have hline : FetchedOnce (seen ++ [line]) := by
      apply fetchedOnce_of_sublist honce
      simp
    obtain ⟨hstop, hroi', h'⟩ := timestampLine_inside hroi h hline beginRoiPc endRoiPc
    unfold traceLoop at hout
    unfold untilStop
    dsimp only at hout ⊢
    rw [hstop, hroi'] at hout
    by_cases hs : isStop endRoiPc seen line = true
    · rw [if_pos hs] at hout
      rw [if_pos hs]
      cases hout
      exact ⟨rfl, by simpa using h'⟩
    · rw [if_neg hs, Bool.not_true, if_neg Bool.false_ne_true] at hout
      rw [if_neg hs]
      split at hout
      · cases hout
      · next s' hs' =>
        obtain ⟨hfold, hheld⟩ := ih hroi' h' (by simpa using honce) hout
        exact ⟨foldlM_cons_eq_ok_iff.mpr ⟨s', hs', hfold⟩, by simpa using hheld⟩

theorem timestampLine_before {beginRoiPc line : Text}
    (hline : (stampOf line).any (Stamp.isFetchAt beginRoiPc) = false) (endRoiPc : Text) :
    timestampLine beginRoiPc endRoiPc {} line = ({}, false) := by
  rw [timestampLine_eq]
  cases hst : stampOf line with
  | none => rfl
  | some st =>
    rw [hst, Option.any_some] at hline
    simp [hline]

theorem timestampLine_begin {beginRoiPc line : Text}
    (hline : (stampOf line).any (Stamp.isFetchAt beginRoiPc) = true) (endRoiPc : Text) :
    timestampLine beginRoiPc endRoiPc {} line =
      timestampLine beginRoiPc endRoiPc { beginRoi := true } line := by
  rw [timestampLine_eq, timestampLine_eq]
  cases hst : stampOf line with
  | none =>
    rw [hst] at hline
    cases hline
  | some st =>
    rw [hst, Option.any_some] at hline
    simp [hline]

/-- Nothing before the first fetch of the begin address has an effect. From there on the
region has begun. -/
theorem traceLoop_fromBegin (beginRoiPc endRoiPc : Text) (s : Sampler) (lines : List Text) :
    traceLoop beginRoiPc endRoiPc {} s lines =
      traceLoop beginRoiPc endRoiPc {} s (fromBegin beginRoiPc lines) := by
  induction lines with
  | nil => rfl
  | cons line lines ih =>
    cases hline : (stampOf line).any (Stamp.isFetchAt beginRoiPc) with
    | true => rw [fromBegin, List.dropWhile_cons_of_neg (by simp [hline])]
    | false =>
      rw [fromBegin, List.dropWhile_cons_of_pos (by simp [hline]), ← fromBegin, ← ih, traceLoop,
        timestampLine_before hline]
      rfl

/-- The region starts at its first line, or there is none. -/
theorem fromBegin_cases (beginRoiPc : Text) (lines : List Text) :
    fromBegin beginRoiPc lines = [] ∨ ∃ line rest, fromBegin beginRoiPc lines = line :: rest ∧
      (stampOf line).any (Stamp.isFetchAt beginRoiPc) = true := by
  cases h : fromBegin beginRoiPc lines with
  | nil => exact Or.inl rfl
  | cons line rest =>
    refine Or.inr ⟨line, rest, rfl, ?_⟩
    have hhead := List.head?_dropWhile_not
      (fun line => !(stampOf line).any (Stamp.isFetchAt beginRoiPc)) lines
    rw [← fromBegin, h] at hhead
    simpa using hhead

theorem holds_empty : Holds (Region.mk .empty true).instructions (stamps []) := rfl

theorem fetchedOnce_fromBegin {lines : List Text} (h : FetchedOnce lines) (beginRoiPc : Text) :
    FetchedOnce ([] ++ fromBegin beginRoiPc lines) :=
  fetchedOnce_of_sublist h (List.dropWhile_sublist _)

/-- A run from the start reads the region. -/
theorem traceLoop_region {beginRoiPc endRoiPc : Text} {lines : List Text} {s : Sampler}
    {out : Region × Sampler} (honce : FetchedOnce lines)
    (h : traceLoop beginRoiPc endRoiPc {} s lines = .ok out) :
    (region beginRoiPc endRoiPc lines).foldlM chainLine s = .ok out.2 ∧
      Holds out.1.instructions (regionStamps beginRoiPc endRoiPc lines) := by
  have honce := fetchedOnce_fromBegin honce beginRoiPc
  rw [traceLoop_fromBegin] at h
  unfold region regionStamps
  rcases fromBegin_cases beginRoiPc lines with hnone | ⟨line, rest, heq, hline⟩
  · rw [hnone] at h ⊢
    cases h
    exact ⟨rfl, rfl⟩
  · rw [heq] at honce h ⊢
    have hbegun : traceLoop beginRoiPc endRoiPc {} s (line :: rest) =
        traceLoop beginRoiPc endRoiPc { beginRoi := true } s (line :: rest) := by
      rw [traceLoop, traceLoop, timestampLine_begin hline]
    rw [hbegun] at h
    obtain ⟨hfold, hheld⟩ := traceLoop_inside rfl holds_empty honce h
    rw [List.nil_append] at hheld
    exact ⟨hfold, hheld⟩

/-! ## The states -/

/-- The branch of a line in the cycle it is logged in. A TLB miss is never entered. -/
def recordBody (cur : UArch) (line : Text) : Except PyException UArch :=
  match classify line with
  | none => .ok cur
  | some (kind, m) =>
    if kind = .cycle ∨ kind = .dtlb then .ok cur else recordLine kind m none cur

/-- The state of a segment, built from the lines of the segment alone. -/
def Segment.state (g : Segment) : Except PyException UArch := do
  let cur ← g.body.foldlM recordBody { cycleBegin := g.cycleBegin }
  pure { cur with cycleEnd := some g.cycleEnd }

/-- The current cycle is built from the lines since the last marker. -/
structure Builds (s : Sampler) (opened : Option (Nat × List Text)) : Prop where
  cur : s.curCycle.map Except.ok =
    opened.map fun o => o.2.foldlM recordBody { cycleBegin := o.1 }
  valid : s.valid ≠ some ['T']

/-- Only the branch of TLB misses reads `valid`. -/
theorem recordLine_valid {kind : LineKind} (hkind : kind ≠ .dtlb) (m : Match)
    (valid : Option Text) (cur : UArch) :
    recordLine kind m valid cur = recordLine kind m none cur := by
  cases kind with
  | dtlb => exact absurd rfl hkind
  | _ => rfl

theorem recordBody_of_recordLine {line : Text} {kind : LineKind} {m : Match}
    {valid : Option Text} {cur cur' : UArch} (hclass : classify line = some (kind, m))
    (hkind : kind ≠ .cycle) (hT : valid ≠ some ['T'])
    (h : recordLine kind m valid cur = .ok cur') : recordBody cur line = .ok cur' := by
  unfold recordBody
  rw [hclass]
  dsimp only
  by_cases hdtlb : kind = .dtlb
  · subst hdtlb
    rw [recordLine_dtlb hT] at h
    rw [if_pos (Or.inr rfl)]
    split at h <;> cases h
    rfl
  · rw [if_neg (not_or.mpr ⟨hkind, hdtlb⟩), ← recordLine_valid hdtlb m valid, h]

theorem builds_marker {s s' : Sampler} {line : Text} {opened : Option (Nat × List Text)}
    {n : Nat} (hbuilds : Builds s opened) (hmarker : markerOf line = some n)
    (h : chainLine s line = .ok s') :
    s'.states.map Except.ok = s.states.map Except.ok ++
        (opened.map fun o => (Segment.mk o.1 n o.2).state).toList ∧
      Builds s' (some (n, [])) := by
  obtain rfl := chainLine_marker_eq hmarker h
  refine ⟨?_, rfl, hbuilds.valid⟩
  rw [List.map_append]
  congr 1
  have hcur := hbuilds.cur
  cases hs : s.curCycle with
  | none =>
    rw [hs] at hcur
    cases opened with
    | none => rfl
    | some o => cases hcur
  | some cur =>
    rw [hs] at hcur
    cases opened with
    | none => cases hcur
    | some o =>
      have hbody : o.2.foldlM recordBody { cycleBegin := o.1 } = .ok cur :=
        (Option.some.inj hcur).symm
      simp only [Segment.state, Option.map_some, Option.toList_some, List.map_singleton]
      rw [hbody]
      rfl

theorem builds_body {s s' : Sampler} {line : Text} {opened : Option (Nat × List Text)}
    (hbuilds : Builds s opened) (hmarker : markerOf line = none)
    (h : chainLine s line = .ok s') :
    s'.states = s.states ∧ Builds s' (opened.map fun o => (o.1, o.2 ++ [line])) := by
  have hcur := hbuilds.cur
  rcases chainLine_body_cases hmarker h with
    ⟨rfl, hidle⟩ | ⟨kind, m, cur, cur', hclass, hkind, hs, hrec, rfl⟩
  · refine ⟨rfl, ?_, hbuilds.valid⟩
    cases opened with
    | none => exact hcur
    | some o =>
      rcases hidle with hnone | hclass
      · rw [hnone] at hcur
        cases hcur
      · have hsame : ∀ cur, recordBody cur line = .ok cur := by
          intro cur
          unfold recordBody
          rw [hclass]
        rw [hcur]
        simp only [Option.map_some, List.foldlM_append, List.foldlM_cons, List.foldlM_nil, hsame]
        exact congrArg some (bind_pure _).symm
  · refine ⟨rfl, ?_, or_assignedValid_ne_T hclass hbuilds.valid⟩
    cases opened with
    | none =>
      rw [hs] at hcur
      cases hcur
    | some o =>
      rw [hs] at hcur
      have hbody : o.2.foldlM recordBody { cycleBegin := o.1 } = .ok cur :=
        (Option.some.inj hcur).symm
      have hline := recordBody_of_recordLine hclass hkind hbuilds.valid hrec
      simp [List.foldlM_append, hbody, ok_bind, hline]

/-- **The run.** A loop that returns has completed the states of the segments. -/
theorem chainLines_segments {s s' : Sampler} {opened : Option (Nat × List Text)}
    {lines : List Text} (hbuilds : Builds s opened) (h : lines.foldlM chainLine s = .ok s') :
    s'.states.map Except.ok =
      s.states.map Except.ok ++ (segments opened lines).map Segment.state :=
  chainLines_rule builds_marker builds_body hbuilds h

/-! ## The markers -/

/-- The segments lie between each marker and the next. -/
theorem segments_markers (opened : Option (Nat × List Text)) (lines : List Text) :
    (segments opened lines).map (fun g => (g.cycleBegin, g.cycleEnd)) =
      ((opened.map Prod.fst).toList ++ lines.filterMap markerOf).zip
        ((opened.map Prod.fst).toList ++ lines.filterMap markerOf).tail := by
  induction lines generalizing opened with
  | nil => cases opened <;> rfl
  | cons line lines ih =>
    unfold segments
    cases hmarker : markerOf line with
    | some n =>
      dsimp only
      rw [List.map_append, ih, List.filterMap_cons_some hmarker]
      cases opened <;> rfl
    | none =>
      dsimp only
      rw [ih, List.filterMap_cons_none hmarker]
      cases opened <;> rfl

theorem map_fst_zip_tail {α : Type} (l : List α) : (l.zip l.tail).map Prod.fst = l.dropLast := by
  induction l with
  | nil => rfl
  | cons a l ih =>
    cases l with
    | nil => rfl
    | cons b l => exact congrArg (a :: ·) ih

theorem map_snd_zip_tail {α : Type} (l : List α) : (l.zip l.tail).map Prod.snd = l.tail := by
  apply List.map_snd_zip
  rw [List.length_tail]
  omega

/-- The lines of a segment are those between its two markers. -/
theorem segments_between {opened : Option (Nat × List Text)} {lines : List Text} {g : Segment}
    (hg : g ∈ segments opened lines) :
    (∃ o body line post, opened = some o ∧ lines = body ++ line :: post ∧
      (∀ l ∈ body, markerOf l = none) ∧ markerOf line = some g.cycleEnd ∧
      g.cycleBegin = o.1 ∧ g.body = o.2 ++ body) ∨
    ∃ pre line line' post, lines = pre ++ line :: (g.body ++ line' :: post) ∧
      markerOf line = some g.cycleBegin ∧ (∀ l ∈ g.body, markerOf l = none) ∧
      markerOf line' = some g.cycleEnd := by
  induction lines generalizing opened with
  | nil => cases hg
  | cons line lines ih =>
    unfold segments at hg
    cases hmarker : markerOf line with
    | some n =>
      rw [hmarker] at hg
      rcases List.mem_append.mp hg with hg | hg
      · left
        cases opened with
        | none => cases hg
        | some o =>
          obtain rfl : g = ⟨o.1, n, o.2⟩ := by simpa using hg
          exact ⟨o, [], line, lines, rfl, rfl, by simp, hmarker, rfl, by simp⟩
      · right
        rcases ih hg with ⟨o, body, line', post, ho, rfl, hbody, hend, hbegin, hg'⟩ |
          ⟨pre, line₁, line', post, rfl, hbegin, hbody, hend⟩
        · cases ho
          rw [List.nil_append] at hg'
          rw [← hg'] at hbody
          refine ⟨[], line, line', post, by rw [hg']; rfl, ?_, hbody, hend⟩
          rw [hmarker, hbegin]
        · exact ⟨line :: pre, line₁, line', post, rfl, hbegin, hbody, hend⟩
    | none =>
      rw [hmarker] at hg
      rcases ih hg with ⟨o, body, line', post, ho, rfl, hbody, hend, hbegin, hg'⟩ |
        ⟨pre, line₁, line', post, rfl, hbegin, hbody, hend⟩
      · left
        cases opened with
        | none => cases ho
        | some o' =>
          cases ho
          refine ⟨o', line :: body, line', post, rfl, rfl, ?_, hend, hbegin, by simp [hg']⟩
          exact List.forall_mem_cons.mpr ⟨hmarker, hbody⟩
      · right
        exact ⟨line :: pre, line₁, line', post, rfl, hbegin, hbody, hend⟩

/-! ## The result -/

/-- What the parser returns for a trace. -/
structure Segmented (beginRoiPc endRoiPc : Text) (lines : List Text)
    (instructions : InstrDict) (states : List UArch) : Prop where
  /-- The lines before the region have no effect. -/
  before : getTraceData beginRoiPc endRoiPc (fromBegin beginRoiPc lines) =
    .ok (instructions, states)
  /-- A segment has the lines between two markers, -/
  between : ∀ g ∈ segments none (region beginRoiPc endRoiPc lines),
    ∃ pre line line' post,
      region beginRoiPc endRoiPc lines = pre ++ line :: (g.body ++ line' :: post) ∧
      markerOf line = some g.cycleBegin ∧ (∀ l ∈ g.body, markerOf l = none) ∧
      markerOf line' = some g.cycleEnd
  /-- and each state is built from the lines of its segment. -/
  completed : states.map Except.ok =
    (segments none (region beginRoiPc endRoiPc lines)).map Segment.state
  /-- A state begins at each marker of the region but the last, -/
  cycleBegins : states.map UArch.cycleBegin =
    ((region beginRoiPc endRoiPc lines).filterMap markerOf).dropLast
  /-- and ends at the next one. -/
  cycleEnds : states.map UArch.cycleEnd =
    ((region beginRoiPc endRoiPc lines).filterMap markerOf).tail.map some
  /-- The instructions are those fetched in the region. -/
  fetched : Holds instructions (regionStamps beginRoiPc endRoiPc lines)

/-- **Segmentation.** On a trace that fetches no sequence number twice, the parser returns
the segments of the region as states and the instructions of the region. -/
theorem getTraceData_segmented {beginRoiPc endRoiPc : Text} {lines : List Text}
    {instructions : InstrDict} {states : List UArch} (honce : FetchedOnce lines)
    (h : getTraceData beginRoiPc endRoiPc lines = .ok (instructions, states)) :
    Segmented beginRoiPc endRoiPc lines instructions states := by
  have hbefore : getTraceData beginRoiPc endRoiPc (fromBegin beginRoiPc lines) =
      .ok (instructions, states) := by
    rw [getTraceData, ← traceLoop_fromBegin, ← getTraceData, h]
  unfold getTraceData at h
  obtain ⟨⟨r, s⟩, hrun, hout⟩ := bind_eq_ok_iff.mp h
  cases hout
  obtain ⟨hfold, hheld⟩ := traceLoop_region honce hrun
  have htracks : Tracks {} none := ⟨rfl, by simp⟩
  have hbuilds : Builds {} none := ⟨rfl, by simp⟩
  have hmarkers := segments_markers none (region beginRoiPc endRoiPc lines)
  rw [Option.map_none, Option.toList_none, List.nil_append] at hmarkers
  -- a state has the markers of its segment
  have hends : s.states.map (fun u => (u.cycleBegin, u.cycleEnd)) =
      (segments none (region beginRoiPc endRoiPc lines)).map
        fun g => (g.cycleBegin, some g.cycleEnd) := by
    have hmisses := congrArg (List.map fun u => (u.cycleBegin, u.cycleEnd))
      (chainLines_states htracks hfold)
    simp only [List.map_nil, List.nil_append, List.map_map] at hmisses
    exact hmisses
  constructor
  · exact hbefore
  · intro g hg
    rcases segments_between hg with ⟨o, _, _, _, ho, -⟩ | hbetween
    · cases ho
    · exact hbetween
  · simpa using chainLines_segments hbuilds hfold
  · have hbegins := congrArg (List.map Prod.fst) hends
    rw [List.map_map, List.map_map] at hbegins
    rw [← map_fst_zip_tail, ← hmarkers, List.map_map]
    exact hbegins
  · have hnexts := congrArg (List.map Prod.snd) hends
    rw [List.map_map, List.map_map] at hnexts
    rw [← map_snd_zip_tail, ← hmarkers, List.map_map, List.map_map]
    exact hnexts
  · exact hheld

/-- A region that starts within a cycle and ends with a retirement. Its one cycle has lines of a
queue, of the reorder buffer, of execution requests and of the prefetcher. -/
def segmentTrace : List Text :=
  ["3; O3PipeView:fetch:   1:0x8:0:  3:nop", "Cycle= 1",
    "7; O3PipeView:fetch:   1:0x10:0:  7:nop", "LineBufferEntry [ 0] = 0", "Cycle= 2",
    "7; O3PipeView:decode: 2", "3; O3PipeView:retire: 2",
    "StoreQueueEntry[0]: PC:4 (H)(C)(E) Address:3 (V), TLBMiss:F, Data:5, Committed:T, " ++
      "Succeeded:T [SN:5]",
    "ROB[30]: H P ((V)(-)(-) 2 [ld] E (d:X p1, bm:0 sdt:0) [SN:3]",
    "ROB[31]: T P ((-)(-)(-) 4 [nop] - (d:- p0, bm:0 sdt:0) [SN:4]",
    "ALUReq: PC:2", "MulReq: PC:4", "MulRes: PC:4", "Prefetcher: Address:5 Data:7"].map
      String.toList ++
  List.replicate 16 "LineBufferEntry [ 0] = f".toList ++
  ["9; O3PipeView:fetch:   2:0x99:0:  9:ret", "Cycle= 3", "9; O3PipeView:retire: 3",
    "7; O3PipeView:retire: 4"].map String.toList

theorem getTraceData_segmentTrace : ∃ instructions states,
    getTraceData "0x10".toList "0x99".toList segmentTrace = .ok (instructions, states) ∧
      Segmented "0x10".toList "0x99".toList segmentTrace instructions states := by
  have hrun : (getTraceData "0x10".toList "0x99".toList segmentTrace).toOption.isSome = true := by
    decide +kernel
  have honce : FetchedOnce segmentTrace := by
    unfold FetchedOnce
    decide +kernel
  cases h : getTraceData "0x10".toList "0x99".toList segmentTrace with
  | error e =>
    rw [h] at hrun
    cases hrun
  | ok out =>
    obtain ⟨instructions, states⟩ := out
    exact ⟨instructions, states, rfl, getTraceData_segmented honce h⟩

end MicroSampler.Scripts
