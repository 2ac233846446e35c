import MicroSampler.Library.Dict
import MicroSampler.Scripts.Microarchitecture
import Mathlib.Data.List.ModifyLast

/-!
# Extraction of the iterations

`get_iterations` of `Parser.py` scans the instructions of the region in fetch order. A
retired instruction at `begin_pc` opens an iteration when the instruction before it is
the call site, a retired instruction at a terminal address closes it. Instructions that
were squashed are kept in the open iteration and also count as the instruction before,
so the result depends on them exactly where one of them stands between a call site and
its target.
-/

namespace MicroSampler.Scripts

/-- The timing record of an instruction; a stage not reached is zero. -/
structure Instr where
  seqnum : Nat
  pc : Option Text
  inst : Option Text
  fetch : Nat
  decode : Nat := 0
  rename : Nat := 0
  dispatch : Nat := 0
  issue : Nat := 0
  complete : Nat := 0
  retire : Nat := 0
  deriving DecidableEq

def Instr.retired (instr : Instr) : Bool := 0 < instr.retire

/-- The ordered dictionary from sequence numbers to instructions. -/
structure InstrDict where
  items : Dict Nat Instr
  keyed : ∀ e ∈ items.entries, e.2.seqnum = e.1

namespace InstrDict

/-- The instructions in fetch order. -/
def instrs (d : InstrDict) : List Instr := d.items.values

theorem nodup_instrs (d : InstrDict) : d.instrs.Nodup := by
  have hkeys : d.instrs.map Instr.seqnum = d.items.keys := by
    rw [instrs, Dict.values, Dict.keys, List.map_map]
    exact List.map_congr_left d.keyed
  exact List.Nodup.of_map Instr.seqnum (hkeys ▸ d.items.nodup_keys)

/-- The dictionary without the squashed instructions. -/
def committed (d : InstrDict) : InstrDict where
  items := d.items.filterValues Instr.retired
  keyed e he := d.keyed e (List.mem_of_mem_filter he)

theorem instrs_committed (d : InstrDict) :
    d.committed.instrs = d.instrs.filter Instr.retired :=
  Dict.values_filterValues d.items Instr.retired

end InstrDict

/-! ## The scan -/

/-- The variables of `get_iterations`. -/
structure Scan where
  iterations : List (List Instr) := []
  roi : Bool := false
  lastInstPc : Option Text := some []

/-- `iterations[-1].append(instr)`; `roi` is only set together with a new iteration. -/
def appendLast (iterations : List (List Instr)) (instr : Instr) : List (List Instr) :=
  iterations.modifyLast fun it => it ++ [instr]

section

variable (lookbehindPc beginPc : Text) (terminalPcs : Text → Bool)

def Instr.isBegin (instr : Instr) : Bool := instr.pc = some beginPc && instr.retired

def Instr.isTerminal (instr : Instr) : Bool := instr.pc.any terminalPcs && instr.retired

/-- The body of the loop up to the second test of `roi`. -/
def scanMark (s : Scan) (instr : Instr) : Scan :=
  if instr.isBegin beginPc then
    if s.lastInstPc = some lookbehindPc then
      { s with roi := true, iterations := s.iterations ++ [[]] }
    else s
  else if instr.isTerminal terminalPcs then
    if s.roi then { s with iterations := appendLast s.iterations instr, roi := false } else s
  else s

def scanInstr (s : Scan) (instr : Instr) : Scan :=
  let s := scanMark lookbehindPc beginPc terminalPcs s instr
  { s with
    iterations := if s.roi then appendLast s.iterations instr else s.iterations
    lastInstPc := instr.pc }

def scanInstrs (instrs : List Instr) : Scan :=
  instrs.foldl (scanInstr lookbehindPc beginPc terminalPcs) {}

/-- `get_iterations`. -/
def getIterations (instrDict : InstrDict) : List (List Instr) :=
  (scanInstrs lookbehindPc beginPc terminalPcs instrDict.instrs).iterations

/-- The address that `last_inst_pc` holds after a sequence of instructions. -/
def lastPc (instrs : List Instr) : Option Text :=
  (instrs.getLast?.map Instr.pc).getD (some [])

/-! ## Where iterations start -/

variable {lookbehindPc beginPc : Text} {terminalPcs : Text → Bool}

/-- What an instruction does to the scan: it opens an iteration, or it is recorded in the
open one and may close it, or it only becomes the instruction before. -/
theorem scanInstr_eq (s : Scan) (instr : Instr) :
    scanInstr lookbehindPc beginPc terminalPcs s instr =
      if instr.isBegin beginPc = true ∧ s.lastInstPc = some lookbehindPc then
        ⟨s.iterations ++ [[instr]], true, instr.pc⟩
      else if s.roi = true then
        ⟨appendLast s.iterations instr,
          instr.isBegin beginPc || !instr.isTerminal terminalPcs, instr.pc⟩
      else ⟨s.iterations, false, instr.pc⟩ := by
  have hnew : appendLast (s.iterations ++ [[]]) instr = s.iterations ++ [[instr]] :=
    List.modifyLast_concat _ _ _
  unfold scanInstr scanMark
  cases instr.isBegin beginPc with
  | true =>
    by_cases hcall : s.lastInstPc = some lookbehindPc
    · simp [hcall, hnew]
    · cases hroi : s.roi <;> simp [hcall, hroi]
  | false =>
    cases instr.isTerminal terminalPcs <;> cases hroi : s.roi <;> simp [hroi]

theorem scanInstrs_concat (l : List Instr) (instr : Instr) :
    scanInstrs lookbehindPc beginPc terminalPcs (l ++ [instr]) =
      scanInstr lookbehindPc beginPc terminalPcs
        (scanInstrs lookbehindPc beginPc terminalPcs l) instr := by
  rw [scanInstrs, List.foldl_concat, ← scanInstrs]

theorem lastPc_concat (l : List Instr) (instr : Instr) : lastPc (l ++ [instr]) = instr.pc := by
  simp [lastPc]

theorem lastInstPc_scanInstrs (l : List Instr) :
    (scanInstrs lookbehindPc beginPc terminalPcs l).lastInstPc = lastPc l := by
  induction l using List.reverseRecOn with
  | nil => rfl
  | append_singleton l instr _ => rw [scanInstrs_concat, lastPc_concat, scanInstr]

theorem appendLast_concat (its : List (List Instr)) (it : List Instr) (instr : Instr) :
    appendLast (its ++ [it]) instr = its ++ [it ++ [instr]] :=
  List.modifyLast_concat _ _ _

@[simp] theorem appendLast_nil (instr : Instr) : appendLast [] instr = [] := rfl

/-- Appending to the open iteration keeps the first instructions. -/
theorem map_head?_appendLast {its : List (List Instr)} (h : ∀ it ∈ its, it ≠ [])
    (instr : Instr) : (appendLast its instr).map List.head? = its.map List.head? := by
  rcases List.eq_nil_or_concat' its with rfl | ⟨its, it, rfl⟩
  · rfl
  · rw [appendLast_concat, List.map_append, List.map_append, List.map_singleton,
      List.map_singleton, List.head?_append_of_ne_nil _ (h it (by simp))]

theorem appendLast_ne_nil {its : List (List Instr)} (h : ∀ it ∈ its, it ≠ []) (instr : Instr) :
    ∀ it ∈ appendLast its instr, it ≠ [] := by
  rcases List.eq_nil_or_concat' its with rfl | ⟨its, it, rfl⟩
  · simp
  · rw [appendLast_concat]
    intro it' hit'
    rcases List.mem_append.mp hit' with hit' | hit'
    · exact h it' (List.mem_append_left _ hit')
    · rw [List.mem_singleton.mp hit']
      simp

variable (lookbehindPc beginPc) in
/-- An instruction that opens an iteration after the instructions `pre`. -/
def Opens (pre : List Instr) (instr : Instr) : Prop :=
  instr.isBegin beginPc = true ∧ lastPc pre = some lookbehindPc

instance (pre : List Instr) (instr : Instr) : Decidable (Opens lookbehindPc beginPc pre instr) :=
  inferInstanceAs (Decidable (_ ∧ _))

theorem scanInstrs_concat_eq (l : List Instr) (instr : Instr) :
    scanInstrs lookbehindPc beginPc terminalPcs (l ++ [instr]) =
      if Opens lookbehindPc beginPc l instr then
        ⟨(scanInstrs lookbehindPc beginPc terminalPcs l).iterations ++ [[instr]], true, instr.pc⟩
      else if (scanInstrs lookbehindPc beginPc terminalPcs l).roi = true then
        ⟨appendLast (scanInstrs lookbehindPc beginPc terminalPcs l).iterations instr,
          instr.isBegin beginPc || !instr.isTerminal terminalPcs, instr.pc⟩
      else ⟨(scanInstrs lookbehindPc beginPc terminalPcs l).iterations, false, instr.pc⟩ := by
  rw [scanInstrs_concat, scanInstr_eq, lastInstPc_scanInstrs]
  rfl

/-- One step: an opening instruction starts an iteration, every other one leaves the first
instructions of the iterations as they are. -/
theorem scanInstrs_heads_concat {l : List Instr} {instr : Instr}
    (h : ∀ it ∈ (scanInstrs lookbehindPc beginPc terminalPcs l).iterations, it ≠ []) :
    (∀ it ∈ (scanInstrs lookbehindPc beginPc terminalPcs (l ++ [instr])).iterations, it ≠ []) ∧
    (scanInstrs lookbehindPc beginPc terminalPcs (l ++ [instr])).iterations.map List.head? =
      (scanInstrs lookbehindPc beginPc terminalPcs l).iterations.map List.head? ++
        if Opens lookbehindPc beginPc l instr then [some instr] else [] := by
  rw [scanInstrs_concat_eq]
  by_cases hopens : Opens lookbehindPc beginPc l instr
  · rw [if_pos hopens, if_pos hopens, List.map_append]
    refine ⟨?_, rfl⟩
    intro it hit
    rcases List.mem_append.mp hit with hit | hit
    · exact h it hit
    · rw [List.mem_singleton.mp hit]
      exact List.cons_ne_nil _ _
  · rw [if_neg hopens, if_neg hopens, List.append_nil]
    split
    · exact ⟨appendLast_ne_nil h instr, map_head?_appendLast h instr⟩
    · exact ⟨h, rfl⟩

theorem scanInstrs_ne_nil (l : List Instr) :
    ∀ it ∈ (scanInstrs lookbehindPc beginPc terminalPcs l).iterations, it ≠ [] := by
  induction l using List.reverseRecOn with
  | nil => exact fun it hit => absurd hit List.not_mem_nil
  | append_singleton l instr ih => exact (scanInstrs_heads_concat ih).1

/-- The first instructions of the iterations are the opening instructions, in order. -/
theorem mem_heads_iff {l : List Instr} {instr : Instr} :
    some instr ∈ (scanInstrs lookbehindPc beginPc terminalPcs l).iterations.map List.head? ↔
      ∃ pre post, l = pre ++ instr :: post ∧ Opens lookbehindPc beginPc pre instr := by
  induction l using List.reverseRecOn with
  | nil => simp [scanInstrs]
  | append_singleton l last ih =>
    rw [(scanInstrs_heads_concat (scanInstrs_ne_nil l)).2, List.mem_append, ih]
    constructor
    · rintro (⟨pre, post, rfl, hopens⟩ | hlast)
      · exact ⟨pre, post ++ [last], by simp, hopens⟩
      · split at hlast
        · next hopens =>
          cases List.mem_singleton.mp hlast
          exact ⟨l, [], rfl, hopens⟩
        · cases hlast
    · rintro ⟨pre, post, heq, hopens⟩
      rcases List.eq_nil_or_concat' post with rfl | ⟨post, last', rfl⟩
      · obtain ⟨rfl, hlast⟩ := List.append_inj' heq rfl
        cases hlast
        exact Or.inr (by rw [if_pos hopens]; exact List.mem_singleton_self _)
      · rw [← List.cons_append, ← List.append_assoc] at heq
        obtain ⟨rfl, -⟩ := List.append_inj' heq rfl
        exact Or.inl ⟨pre, post, rfl, hopens⟩

/-! ## Squashed instructions -/

variable (lookbehindPc beginPc) in
/-- Every retired instruction at `begin_pc` follows the call site in fetch order exactly
when it does among the retired instructions. -/
def CallsUndisturbed (l : List Instr) : Prop :=
  ∀ pre instr post, l = pre ++ instr :: post → instr.isBegin beginPc = true →
    (lastPc pre = some lookbehindPc ↔ lastPc (pre.filter Instr.retired) = some lookbehindPc)

theorem filter_appendLast_of_retired {its : List (List Instr)} {instr : Instr}
    (h : instr.retired = true) :
    (appendLast its instr).map (List.filter Instr.retired) =
      appendLast (its.map (List.filter Instr.retired)) instr := by
  rcases List.eq_nil_or_concat' its with rfl | ⟨its, it, rfl⟩
  · rfl
  · simp [appendLast_concat, h]

theorem filter_appendLast_of_squashed {its : List (List Instr)} {instr : Instr}
    (h : instr.retired = false) :
    (appendLast its instr).map (List.filter Instr.retired) =
      its.map (List.filter Instr.retired) := by
  rcases List.eq_nil_or_concat' its with rfl | ⟨its, it, rfl⟩
  · rfl
  · simp [appendLast_concat, h]

/-- With undisturbed calls the scans of the two sequences stay in step. -/
theorem scanInstrs_filter {l : List Instr} (h : CallsUndisturbed lookbehindPc beginPc l) :
    (scanInstrs lookbehindPc beginPc terminalPcs (l.filter Instr.retired)).iterations =
        (scanInstrs lookbehindPc beginPc terminalPcs l).iterations.map
          (List.filter Instr.retired) ∧
      (scanInstrs lookbehindPc beginPc terminalPcs (l.filter Instr.retired)).roi =
        (scanInstrs lookbehindPc beginPc terminalPcs l).roi := by
  induction l using List.reverseRecOn with
  | nil => exact ⟨rfl, rfl⟩
  | append_singleton l instr ih =>
    have hl : CallsUndisturbed lookbehindPc beginPc l := fun pre b post heq =>
      h pre b (post ++ [instr]) (by simp [heq])
    obtain ⟨hiterations, hroi⟩ := ih hl
    have hlast := h l instr [] rfl
    rw [List.filter_append, scanInstrs_concat_eq l]
    cases hretired : instr.retired with
    | false =>
      have hopens : ¬ Opens lookbehindPc beginPc l instr := by
        simp [Opens, Instr.isBegin, hretired]
      rw [List.filter_singleton, hretired, if_neg hopens]
      simp only [cond_false, List.append_nil]
      split
      · next hopen => simp [filter_appendLast_of_squashed hretired, hiterations, hroi, hopen,
          Instr.isTerminal, hretired]
      · next hclosed => simp [hiterations, hroi, hclosed]
    | true =>
      rw [List.filter_singleton, hretired]
      simp only [cond_true]
      rw [scanInstrs_concat_eq, hiterations, hroi]
      by_cases hopens : Opens lookbehindPc beginPc l instr
      · have hopens' : Opens lookbehindPc beginPc (l.filter Instr.retired) instr :=
          ⟨hopens.1, (hlast hopens.1).mp hopens.2⟩
        rw [if_pos hopens, if_pos hopens']
        simp [hretired]
      · have hopens' : ¬ Opens lookbehindPc beginPc (l.filter Instr.retired) instr :=
          fun hb => hopens ⟨hb.1, (hlast hb.1).mpr hb.2⟩
        rw [if_neg hopens, if_neg hopens']
        split
        · exact ⟨(filter_appendLast_of_retired hretired).symm, rfl⟩
        · exact ⟨rfl, rfl⟩

/-- An instruction that occurs once opens an iteration by what stands before it. -/
theorem mem_heads_iff_lastPc {pre post : List Instr} {instr : Instr}
    (hnodup : (pre ++ instr :: post).Nodup) (hbegin : instr.isBegin beginPc = true) :
    some instr ∈ (scanInstrs lookbehindPc beginPc terminalPcs
        (pre ++ instr :: post)).iterations.map List.head? ↔
      lastPc pre = some lookbehindPc := by
  rw [mem_heads_iff]
  refine ⟨?_, fun hcall => ⟨pre, post, rfl, hbegin, hcall⟩⟩
  rintro ⟨pre', post', heq, hopens⟩
  have hpre : instr ∉ pre := fun h =>
    (List.disjoint_of_nodup_append hnodup) h List.mem_cons_self
  have hpost : instr ∉ post := (List.nodup_cons.mp (List.nodup_append.mp hnodup).2.1).1
  rw [((List.append_cons_inj_of_notMem hpre hpost).mp heq).1]
  exact hopens.2

theorem map_head?_map_filter {l : List Instr} :
    ((scanInstrs lookbehindPc beginPc terminalPcs l).iterations.map
        (List.filter Instr.retired)).map List.head? =
      (scanInstrs lookbehindPc beginPc terminalPcs l).iterations.map List.head? := by
  rw [List.map_map]
  apply List.map_congr_left
  intro it hit
  obtain ⟨instr, rest, rfl⟩ := List.exists_cons_of_ne_nil (scanInstrs_ne_nil l it hit)
  have hmem : some instr ∈ (scanInstrs lookbehindPc beginPc terminalPcs l).iterations.map
      List.head? := List.mem_map.mpr ⟨_, hit, rfl⟩
  obtain ⟨_, _, _, hopens⟩ := mem_heads_iff.mp hmem
  have hretired : instr.retired = true := by
    have := hopens.1
    rw [Instr.isBegin, Bool.and_eq_true] at this
    exact this.2
  simp [hretired]

/-- The retired contents of the iterations are those of the committed sequence exactly when
no squashed instruction disturbs a call. -/
theorem getIterations_committed_iff (d : InstrDict) :
    (getIterations lookbehindPc beginPc terminalPcs d).map (List.filter Instr.retired) =
        getIterations lookbehindPc beginPc terminalPcs d.committed ↔
      CallsUndisturbed lookbehindPc beginPc d.instrs := by
  rw [getIterations, getIterations, d.instrs_committed]
  refine ⟨fun h => ?_, fun h => (scanInstrs_filter h).1.symm⟩
  intro pre instr post heq hbegin
  have hretired : instr.retired = true := by
    rw [Instr.isBegin, Bool.and_eq_true] at hbegin
    exact hbegin.2
  have hfilter : d.instrs.filter Instr.retired =
      pre.filter Instr.retired ++ instr :: post.filter Instr.retired := by
    rw [heq, List.filter_append, List.filter_cons_of_pos hretired]
  -- both scans have the same first instructions, and `instr` occurs once in each sequence
  have hheads := congrArg (List.map List.head?) h
  rw [map_head?_map_filter] at hheads
  have hnodup := d.nodup_instrs
  have hnodup' := hnodup.filter Instr.retired
  rw [hfilter] at hheads hnodup'
  rw [heq] at hheads hnodup
  rw [← mem_heads_iff_lastPc hnodup hbegin, hheads, mem_heads_iff_lastPc hnodup' hbegin]

/-- **When iteration extraction is independent of squashed instructions.** The iterations
of a sequence, without their squashed instructions, are those of the committed sequence
exactly when no squashed instruction stands between a retired `begin_pc` and what precedes
it; and of two sequences with the same committed part, one without such a disturbance, the
other has as many iterations with the same retired contents exactly when it has none
either. -/
theorem getIterations_independent_iff (d : InstrDict) :
    ((getIterations lookbehindPc beginPc terminalPcs d).map (List.filter Instr.retired) =
        getIterations lookbehindPc beginPc terminalPcs d.committed ↔
      CallsUndisturbed lookbehindPc beginPc d.instrs) ∧
    ∀ d' : InstrDict, d'.committed.instrs = d.committed.instrs →
      CallsUndisturbed lookbehindPc beginPc d.instrs →
      ((getIterations lookbehindPc beginPc terminalPcs d').length =
            (getIterations lookbehindPc beginPc terminalPcs d).length ∧
          (getIterations lookbehindPc beginPc terminalPcs d').map (List.filter Instr.retired) =
            (getIterations lookbehindPc beginPc terminalPcs d).map (List.filter Instr.retired) ↔
        CallsUndisturbed lookbehindPc beginPc d'.instrs) := by
  refine ⟨getIterations_committed_iff d, ?_⟩
  intro d' hcommitted hd
  have hsame : getIterations lookbehindPc beginPc terminalPcs d'.committed =
      getIterations lookbehindPc beginPc terminalPcs d.committed := by
    rw [getIterations, hcommitted, getIterations]
  have hcontents : (getIterations lookbehindPc beginPc terminalPcs d').map
        (List.filter Instr.retired) =
      (getIterations lookbehindPc beginPc terminalPcs d).map (List.filter Instr.retired) ↔
        CallsUndisturbed lookbehindPc beginPc d'.instrs := by
    rw [(getIterations_committed_iff d).mpr hd, ← hsame, getIterations_committed_iff]
  rw [← hcontents]
  refine ⟨fun h => h.2, fun h => ⟨?_, h⟩⟩
  have hlength := congrArg List.length h
  rwa [List.length_map, List.length_map] at hlength

end

/-- The call site `c`, one squashed instruction, the target `b` and the return `t`. -/
def mispredictedCall : InstrDict where
  items.entries :=
    [(0, { seqnum := 0, pc := some ['c'], inst := none, fetch := 1, retire := 5 }),
      (1, { seqnum := 1, pc := some ['x'], inst := none, fetch := 2 }),
      (2, { seqnum := 2, pc := some ['b'], inst := none, fetch := 6, retire := 9 }),
      (3, { seqnum := 3, pc := some ['t'], inst := none, fetch := 7, retire := 10 })]
  items.nodup := by decide
  keyed := by decide

theorem mispredictedCall_disturbed :
    CallsUndisturbed ['c'] ['b'] mispredictedCall.committed.instrs ∧
      ¬ CallsUndisturbed ['c'] ['b'] mispredictedCall.instrs := by
  have h := @getIterations_independent_iff ['c'] ['b'] (· = ['t']) mispredictedCall.committed
  have hcommitted := h.1.mp (by decide +kernel)
  refine ⟨hcommitted, fun hdisturbed => ?_⟩
  have hlength := ((h.2 mispredictedCall (by decide +kernel) hcommitted).mpr hdisturbed).1
  exact absurd hlength (by decide +kernel)

/-- The wrong-path instruction fetched after the call hides the iteration. -/
theorem mispredictedCall_loses_iteration :
    (getIterations ['c'] ['b'] (· = ['t']) mispredictedCall).length = 0 ∧
      (getIterations ['c'] ['b'] (· = ['t']) mispredictedCall.committed).length = 1 ∧
      ¬ (getIterations ['c'] ['b'] (· = ['t']) mispredictedCall).map (List.filter Instr.retired) =
        getIterations ['c'] ['b'] (· = ['t']) mispredictedCall.committed := by
  decide +kernel

end MicroSampler.Scripts
