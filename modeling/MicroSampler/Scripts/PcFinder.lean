import Mathlib.Data.List.TakeWhile
import MicroSampler.Library.Python
import MicroSampler.Scripts.TracePatterns

/-!
# The addresses of the region of interest

`pc_finder.py` scans a disassembly for the calls of two functions and prints addresses that
the trace parser takes by their position: a call of the first function and where it returns
to, then a call of the second function from the first, its target and where it returns to.
-/

namespace MicroSampler.Scripts

open Python Radix Regex

/-! ## Reading a line -/

/-- `[a-z]` -/
def lowerCase : Regex := .set [('a', 'z')]

/-- `[a-z0-9_]` -/
def nameChar : Regex := .set [('a', 'z'), ('0', '9'), ('_', '_')]

/-- `[a-z0-9\,]` -/
def operandChar : Regex := .set [('a', 'z'), ('0', '9'), (',', ',')]

def dissasmRegex : Regex :=
  cat [group 1 (plus hexDigit), lit ":", plus space, group 2 (plus hexDigit), plus space,
    group 3 (plus lowerCase), plus space, group 4 (plus operandChar),
    opt (group 5 (cat [plus space, lit "<", group 6 (plus nameChar), lit ">"]))]

def jmpAddrRegex : Regex := cat [lit "ra,", group 1 (plus hexDigit)]

def funcDefRegex : Regex :=
  cat [group 1 (plus hexDigit),
    opt (group 2 (cat [plus space, lit "<", group 3 (plus nameChar), lit ">"])), lit ":"]

/-- What the script takes from the line of an instruction. -/
structure Disassembled where
  pc : Text
  encoding : Text
  opcode : Text
  operands : Text
  func : Option Text
  deriving DecidableEq

def disassembled (line : Text) : Option Disassembled :=
  (search dissasmRegex line).map fun m => ⟨m.text 1, m.text 2, m.text 3, m.text 4, m.group 6⟩

/-- `fname`, for a line that is no instruction. -/
def fname (line : Text) : Option Text := (search funcDefRegex line).bind fun m => m.group 3

/-- `re.search(jmpAddrRegex, operands).group(1)`, which raises without a match. -/
def jmpAddr (operands : Text) : Option Text := (search jmpAddrRegex operands).map fun m => m.text 1

/-- `hex(int(pc, 16) + 4)[2:]`. -/
def addFour (pc : Text) : Text := (hex ((intHex pc).getD 0 + 4)).drop 2

/-! ## The scan -/

/-- `func1`, `func2` and whether the fourth argument is `warmup`. -/
structure PcQuery where
  func1 : Text
  func2 : Text
  warmup : Bool

structure PcState where
  markerReached : Bool
  funcdefReached : Bool
  pcLst : List Text
  deriving DecidableEq

inductive PcRound
  | next (s : PcState)
  | found (i : Disassembled)

/-- `addi x0, x1, 0`, which stands between the warm-up and the measured call. -/
def markerEncoding : Text := "00008013".toList

/-- The body of the loop up to a call of the second function. -/
def scanLine (q : PcQuery) (s : PcState) (line : Text) : PcRound :=
  match disassembled line with
  | some i =>
    if i.encoding = markerEncoding then .next { s with markerReached := true }
    else if s.markerReached ∧ i.opcode = "jal".toList then
      if i.func = some q.func1 then .next { s with pcLst := s.pcLst ++ [i.pc, addFour i.pc] }
      else if s.funcdefReached ∧ i.func = some q.func2 then .found i
      else .next s
    else .next s
  | none => if fname line = some q.func1 then .next { s with funcdefReached := true } else .next s

/-- `pc_lst` after the loop, which ends with the call of the second function. -/
def scanLines (q : PcQuery) : PcState → List Text → Option (List Text)
  | s, [] => some s.pcLst
  | s, line :: lines =>
    match scanLine q s line with
    | .next s => scanLines q s lines
    | .found i => (jmpAddr i.operands).map fun addr => s.pcLst ++ [i.pc, addr, addFour i.pc]

/-- The addresses that are printed, with blanks in between. -/
def pcFinder (q : PcQuery) (lines : List Text) : Option (List Text) :=
  (scanLines q ⟨!q.warmup, false, []⟩ lines).map fun pcLst => pcLst.map ("0x00000".toList ++ ·)

/-! ## Calls and headers of a listing -/

/-- The line of a marker. -/
def isMarker (line : Text) : Bool :=
  (disassembled line).any fun i => i.encoding = markerEncoding

/-- The line of a call. -/
def callOf (func : Text) (line : Text) : Option Disassembled :=
  (disassembled line).filter fun i =>
    i.encoding ≠ markerEncoding && i.opcode = "jal".toList && i.func = some func

/-- The line that the script takes for the header of a function. -/
def isFuncdef (func : Text) (line : Text) : Bool :=
  disassembled line = none && fname line = some func

/-- The lines behind the marker, or all of them when none is asked for. -/
def afterMarker (q : PcQuery) (lines : List Text) : List Text :=
  if q.warmup then (lines.dropWhile fun line => !isMarker line).tail else lines

/-- The addresses of the calls of the first function behind the marker. -/
def callSites (q : PcQuery) (lines : List Text) : List Text :=
  (afterMarker q lines).filterMap fun line => (callOf q.func1 line).map Disassembled.pc

def markerReached (q : PcQuery) (lines : List Text) : Bool := !q.warmup || lines.any isMarker

def funcdefReached (q : PcQuery) (lines : List Text) : Bool := lines.any (isFuncdef q.func1)

/-! ## One line -/

/-- What a line does to the state when it does not end the loop. -/
def PcState.advance (q : PcQuery) (s : PcState) (line : Text) : PcState where
  markerReached := s.markerReached || isMarker line
  funcdefReached := s.funcdefReached || isFuncdef q.func1 line
  pcLst := s.pcLst ++ if s.markerReached then
    (callOf q.func1 line).elim [] fun i => [i.pc, addFour i.pc] else []

/-- A call of the second function that the state lets the script see. -/
def Sees (q : PcQuery) (s : PcState) (line : Text) (i : Disassembled) : Prop :=
  s.markerReached = true ∧ s.funcdefReached = true ∧ callOf q.func2 line = some i ∧
    q.func1 ≠ q.func2

/-- A line without an instruction leaves the addresses as they are. -/
theorem scanLine_of_none {q : PcQuery} {s : PcState} {line : Text}
    (h : disassembled line = none) :
    scanLine q s line = .next (s.advance q line) ∧ ∀ i, ¬ Sees q s line i := by
  have hcall (func : Text) : callOf func line = none := by rw [callOf, h, Option.filter_none]
  constructor
  · by_cases hname : fname line = some q.func1 <;>
      simp [scanLine, PcState.advance, isMarker, isFuncdef, h, hname, hcall]
  · rintro i ⟨-, -, hsees, -⟩
    rw [hcall] at hsees
    cases hsees

theorem callOf_of_some {line : Text} {i : Disassembled} (h : disassembled line = some i)
    (func : Text) : callOf func line =
      if i.encoding ≠ markerEncoding ∧ i.opcode = "jal".toList ∧ i.func = some func then some i
      else none := by
  rw [callOf, h, Option.filter_some]
  simp [and_assoc]

/-- The tests of the script on an instruction. -/
theorem sees_iff {q : PcQuery} {s : PcState} {line : Text} {i j : Disassembled}
    (h : disassembled line = some i) :
    Sees q s line j ↔ i.encoding ≠ markerEncoding ∧ s.markerReached = true ∧
      i.opcode = "jal".toList ∧ i.func ≠ some q.func1 ∧ s.funcdefReached = true ∧
      i.func = some q.func2 ∧ i = j := by
  rw [Sees, callOf_of_some h]
  constructor
  · rintro ⟨hmarker, hfuncdef, hcall, hne⟩
    split at hcall
    · next hi =>
      have hother : i.func ≠ some q.func1 := by
        rw [hi.2.2, ne_eq, Option.some.injEq]
        exact hne.symm
      exact ⟨hi.1, hmarker, hi.2.1, hother, hfuncdef, hi.2.2, Option.some.inj hcall⟩
    · cases hcall
  · rintro ⟨hencoding, hmarker, hjal, hother, hfuncdef, hfunc, rfl⟩
    refine ⟨hmarker, hfuncdef, if_pos ⟨hencoding, hjal, hfunc⟩, ?_⟩
    rintro heq
    exact hother (heq ▸ hfunc)

theorem scanLine_of_some {q : PcQuery} {s : PcState} {line : Text} {i : Disassembled}
    (h : disassembled line = some i) :
    (scanLine q s line = .found i ∧ Sees q s line i) ∨
      scanLine q s line = .next (s.advance q line) ∧ ∀ j, ¬ Sees q s line j := by
  have hfuncdef : isFuncdef q.func1 line = false := by simp [isFuncdef, h]
  have hmarker : isMarker line = decide (i.encoding = markerEncoding) := by simp [isMarker, h]
  have hsame (hencoding : i.encoding ≠ markerEncoding)
      (hcall : ¬ (s.markerReached = true ∧ i.opcode = "jal".toList ∧ i.func = some q.func1)) :
      s.advance q line = s := by
    by_cases hreached : s.markerReached = true
    · have hnone : callOf q.func1 line = none := by
        rw [callOf_of_some h, if_neg fun hc => hcall ⟨hreached, hc.2⟩]
      simp [PcState.advance, hfuncdef, hmarker, hencoding, hnone]
    · rw [PcState.advance, hfuncdef, hmarker, decide_eq_false hencoding, Bool.or_false,
        Bool.or_false, if_neg hreached, List.append_nil]
  simp only [sees_iff h, scanLine, h]
  by_cases hencoding : i.encoding = markerEncoding
  · rw [if_pos hencoding]
    refine Or.inr ⟨?_, fun j hj => hj.1 hencoding⟩
    simp [PcState.advance, hfuncdef, hmarker, callOf_of_some h, hencoding]
  rw [if_neg hencoding]
  by_cases hcall : s.markerReached = true ∧ i.opcode = "jal".toList
  · rw [if_pos hcall]
    by_cases hfunc : i.func = some q.func1
    · rw [if_pos hfunc]
      refine Or.inr ⟨?_, fun j hj => hj.2.2.2.1 hfunc⟩
      simp [PcState.advance, hfuncdef, hmarker, callOf_of_some h, hencoding, hcall, hfunc]
    rw [if_neg hfunc, hsame hencoding fun hc => hfunc hc.2.2]
    by_cases hfound : s.funcdefReached = true ∧ i.func = some q.func2
    · rw [if_pos hfound]
      exact Or.inl ⟨rfl, hencoding, hcall.1, hcall.2, hfunc, hfound.1, hfound.2, trivial⟩
    · rw [if_neg hfound]
      exact Or.inr ⟨rfl, fun j hj => hfound ⟨hj.2.2.2.2.1, hj.2.2.2.2.2.1⟩⟩
  · rw [if_neg hcall, hsame hencoding fun hc => hcall ⟨hc.1, hc.2.1⟩]
    exact Or.inr ⟨rfl, fun j hj => hcall ⟨hj.2.1, hj.2.2.1⟩⟩

theorem scanLine_cases (q : PcQuery) (s : PcState) (line : Text) :
    (∃ i, scanLine q s line = .found i ∧ Sees q s line i) ∨
      scanLine q s line = .next (s.advance q line) ∧ ∀ i, ¬ Sees q s line i := by
  cases h : disassembled line with
  | none => exact Or.inr (scanLine_of_none h)
  | some i => exact (scanLine_of_some h).imp_left fun hfound => ⟨i, hfound⟩

/-! ## A run -/

/-- The state before the line behind `pre`, when the loop has come so far. -/
def stateAfter (q : PcQuery) (pre : List Text) : PcState where
  markerReached := markerReached q pre
  funcdefReached := funcdefReached q pre
  pcLst := (callSites q pre).flatMap fun pc => [pc, addFour pc]

theorem afterMarker_append {q : PcQuery} {pre : List Text} (h : markerReached q pre = true)
    (rest : List Text) : afterMarker q (pre ++ rest) = afterMarker q pre ++ rest := by
  unfold afterMarker
  by_cases hwarmup : q.warmup
  · have hany : pre.any isMarker = true := by simpa [markerReached, hwarmup] using h
    obtain ⟨line, hline, hmarker⟩ := List.any_eq_true.mp hany
    have hne : (pre.dropWhile fun line => !isMarker line) ≠ [] := by
      rw [ne_eq, List.dropWhile_eq_nil_iff]
      exact fun hall => absurd hmarker (by simpa using hall line hline)
    rw [if_pos hwarmup, if_pos hwarmup, List.dropWhile_append,
      if_neg (by simpa using hne), List.tail_append_of_ne_nil hne]
  · rw [if_neg hwarmup, if_neg hwarmup]

theorem not_marker_of {q : PcQuery} {pre : List Text} (h : markerReached q pre = false) :
    q.warmup = true ∧ ∀ line ∈ pre, (!isMarker line) = true := by
  simpa [markerReached] using h

/-- Up to the marker and with it there is nothing behind it. -/
theorem afterMarker_concat {q : PcQuery} {pre : List Text} (h : markerReached q pre = false)
    (line : Text) : afterMarker q (pre ++ [line]) = [] := by
  obtain ⟨hwarmup, hpre⟩ := not_marker_of h
  rw [afterMarker, if_pos hwarmup, List.dropWhile_append_of_pos hpre, List.dropWhile_cons]
  split <;> rfl

theorem afterMarker_eq_nil {q : PcQuery} {pre : List Text} (h : markerReached q pre = false) :
    afterMarker q pre = [] := by
  obtain ⟨hwarmup, hpre⟩ := not_marker_of h
  rw [afterMarker, if_pos hwarmup, List.dropWhile_eq_nil_iff.mpr hpre]
  rfl

theorem callSites_append {q : PcQuery} {pre : List Text} (h : markerReached q pre = true)
    (rest : List Text) : callSites q (pre ++ rest) = callSites q pre ++
      rest.filterMap fun line => (callOf q.func1 line).map Disassembled.pc := by
  rw [callSites, afterMarker_append h, List.filterMap_append, callSites]

theorem stateAfter_concat (q : PcQuery) (pre : List Text) (line : Text) :
    stateAfter q (pre ++ [line]) = (stateAfter q pre).advance q line := by
  have hmarker : markerReached q (pre ++ [line]) = (markerReached q pre || isMarker line) := by
    simp [markerReached, Bool.or_assoc]
  have hfuncdef : funcdefReached q (pre ++ [line]) =
      (funcdefReached q pre || isFuncdef q.func1 line) := by
    simp [funcdefReached]
  have hcalls : (callSites q (pre ++ [line])).flatMap (fun pc => [pc, addFour pc]) =
      (callSites q pre).flatMap (fun pc => [pc, addFour pc]) ++
        if markerReached q pre then
          (callOf q.func1 line).elim [] fun i => [i.pc, addFour i.pc] else [] := by
    cases hreached : markerReached q pre with
    | true =>
      rw [callSites_append hreached, List.flatMap_append, if_pos rfl]
      cases hcall : callOf q.func1 line <;> simp [hcall]
    | false =>
      rw [callSites, callSites, afterMarker_concat hreached, afterMarker_eq_nil hreached]
      rfl
  rw [stateAfter, hmarker, hfuncdef, hcalls, PcState.advance, stateAfter]

/-! ## The call that ends the loop -/

/-- The first call of the second function that the script sees: behind the marker and a header
of the first function. -/
structure FoundCall (q : PcQuery) (lines pre : List Text) (line : Text) (post : List Text)
    (i : Disassembled) : Prop where
  split : lines = pre ++ line :: post
  sees : Sees q (stateAfter q pre) line i
  first : ∀ a l b j, pre = a ++ l :: b → ¬ Sees q (stateAfter q a) l j

/-- The loop up to a line, when it has seen no call. -/
theorem scanLines_append {q : PcQuery} {pre : List Text}
    (h : ∀ a l b j, pre = a ++ l :: b → ¬ Sees q (stateAfter q a) l j) (rest : List Text) :
    scanLines q (stateAfter q []) (pre ++ rest) = scanLines q (stateAfter q pre) rest := by
  induction pre using List.reverseRecOn generalizing rest with
  | nil => rfl
  | append_singleton pre line ih =>
    have hpre : ∀ a l b j, pre = a ++ l :: b → ¬ Sees q (stateAfter q a) l j := by
      rintro a l b j rfl
      exact h a l (b ++ [line]) j (by simp)
    rw [List.append_assoc, ih hpre, List.singleton_append]
    rcases scanLine_cases q (stateAfter q pre) line with ⟨i, -, hsees⟩ | ⟨hnext, -⟩
    · exact absurd hsees (h pre line [] i rfl)
    · rw [scanLines, hnext, stateAfter_concat]

theorem stateAfter_nil (q : PcQuery) : stateAfter q [] = ⟨!q.warmup, false, []⟩ := by
  have hafter : afterMarker q [] = [] := by
    rw [afterMarker]
    split <;> rfl
  rw [stateAfter, callSites, hafter]
  simp [markerReached, funcdefReached]

/-- **The run.** The script prints two addresses for each call of the first function in front
of the call it finds, and three for that. -/
theorem pcFinder_of_foundCall {q : PcQuery} {lines pre post : List Text} {line : Text}
    {i : Disassembled} (h : FoundCall q lines pre line post i) :
    pcFinder q lines = (jmpAddr i.operands).map fun addr =>
      (((callSites q pre).flatMap fun pc => [pc, addFour pc]) ++
        [i.pc, addr, addFour i.pc]).map ("0x00000".toList ++ ·) := by
  have hround : scanLine q (stateAfter q pre) line = .found i := by
    rcases scanLine_cases q (stateAfter q pre) line with ⟨j, hfound, hsees⟩ | ⟨-, hnone⟩
    · have hij := Option.some.inj (h.sees.2.2.1.symm.trans hsees.2.2.1)
      rw [hfound, hij]
    · exact absurd h.sees (hnone i)
  rw [pcFinder, ← stateAfter_nil, h.split, scanLines_append h.first, scanLines, hround]
  simp only [Option.map_map]
  rfl

/-- Without such a call the loop ends with the listing. -/
theorem pcFinder_of_not_foundCall {q : PcQuery} {lines : List Text}
    (h : ∀ a l b i, lines = a ++ l :: b → ¬ Sees q (stateAfter q a) l i) :
    pcFinder q lines = some (((callSites q lines).flatMap fun pc => [pc, addFour pc]).map
      ("0x00000".toList ++ ·)) := by
  have hrun := scanLines_append h []
  rw [List.append_nil] at hrun
  rw [pcFinder, ← stateAfter_nil, hrun, scanLines]
  rfl

/-- There is a first call that the script sees, or none at all. -/
theorem foundCall_or_none (q : PcQuery) (lines : List Text) :
    (∃ pre line post i, FoundCall q lines pre line post i) ∨
      ∀ a l b i, lines = a ++ l :: b → ¬ Sees q (stateAfter q a) l i := by
  induction lines using List.reverseRecOn with
  | nil =>
    right
    intro a l b i h
    cases a <;> cases h
  | append_singleton lines line ih =>
    rcases ih with ⟨pre, l, post, i, h⟩ | hnone
    · refine Or.inl ⟨pre, l, post ++ [line], i, ?_, h.sees, h.first⟩
      rw [h.split, List.append_assoc, List.cons_append]
    · by_cases hsees : ∃ i, Sees q (stateAfter q lines) line i
      · obtain ⟨i, hsees⟩ := hsees
        exact Or.inl ⟨lines, line, [], i, rfl, hsees, hnone⟩
      · right
        intro a l b i heq
        rcases List.eq_nil_or_concat b with rfl | ⟨b, x, rfl⟩
        · obtain ⟨rfl, hl⟩ := List.append_inj' heq rfl
          cases hl
          exact fun h => hsees ⟨i, h⟩
        · have heq' : lines ++ [line] = (a ++ l :: b) ++ [x] := by simpa using heq
          obtain ⟨rfl, -⟩ := List.append_inj' heq' rfl
          exact hnone a l b i rfl

/-! ## The roles of the addresses -/

/-- The header of a function: its address and its name. -/
def IsHeader (name line : Text) : Prop :=
  ∃ addr eol, addr ≠ [] ∧ (∀ c ∈ addr, IsHexDigit c) ∧ (eol = [] ∨ eol = ['\n']) ∧
    line = addr ++ " <".toList ++ name ++ ">:".toList ++ eol

/-- The lines behind `pre` are in the body of the function: no other header has followed
its own. -/
def InBody (func : Text) (pre : List Text) : Prop :=
  ∃ a header b, pre = a ++ header :: b ∧ IsHeader func header ∧
    ∀ line ∈ b, ∀ name, ¬ IsHeader name line

/-- The target of a jump, which stands behind the last comma and in front of its label. -/
def Disassembled.target (i : Disassembled) : Text :=
  (i.operands.reverse.takeWhile fun c => c ≠ ',').reverse

/-- The second address is four behind the first. -/
def IsNext (a b : Text) : Prop := ∃ v, intHex a = some v ∧ intHex b = some (v + 4)

/-- What the five addresses stand for, when the call found is `i` behind `pre`. -/
structure InRoles (q : PcQuery) (lines pre : List Text) (i : Disassembled)
    (addresses : List Text) : Prop where
  five : ∃ first next return_, addresses =
    [first, next, i.pc, i.target, return_].map ("0x00000".toList ++ ·) ∧
      (callSites q lines).head? = some first ∧ IsNext first next ∧ IsNext i.pc return_
  body : InBody q.func1 pre

/-- Whenever the script finds a call of the second function, it prints the five addresses in
their roles. -/
def PrintsRoles (q : PcQuery) (lines : List Text) : Prop :=
  ∀ pre line post i, FoundCall q lines pre line post i →
    ∃ addresses, pcFinder q lines = some addresses ∧ InRoles q lines pre i addresses

/-- In front of the call that the script finds the first function is called once behind the
marker, its header is the last one, and the call links `ra` and jumps to its label. -/
def Regular (q : PcQuery) (lines : List Text) : Prop :=
  ∀ pre line post i, FoundCall q lines pre line post i →
    (callSites q pre).length = 1 ∧ InBody q.func1 pre ∧ jmpAddr i.operands = some i.target

/-! ## The printed addresses -/

theorem isHexDigit_of_inRanges {c : Char} (h : inRanges [('0', '9'), ('a', 'f')] c = true) :
    IsHexDigit c := by
  simp only [inRanges, List.any_cons, List.any_nil, Bool.or_false, Bool.or_eq_true,
    Bool.and_eq_true, Nat.ble_eq] at h
  rcases h with h | h
  · rw [IsHexDigit, hexVal?, if_pos ⟨Char.le_def.mpr h.1, Char.le_def.mpr h.2⟩]
    rfl
  · rw [IsHexDigit, hexVal?]
    split
    · rfl
    · rw [if_pos ⟨Char.le_def.mpr h.1, Char.le_def.mpr h.2⟩]
      rfl

/-- The address of an instruction is a hexadecimal number. -/
theorem pc_digits {line : Text} {i : Disassembled} (h : disassembled line = some i) :
    i.pc ≠ [] ∧ ∀ c ∈ i.pc, IsHexDigit c := by
  obtain ⟨m, hm, rfl⟩ := Option.map_eq_some_iff.mp h
  have hgroup := search_captures (n := 1) hm (by decide)
  obtain ⟨a, ha, hlang⟩ := search_group hm hgroup
  have hbody : bodies 1 dissasmRegex = [plus hexDigit] := by rfl
  rw [hbody, List.mem_singleton] at ha
  obtain ⟨hne, hall⟩ := inRanges_of_lang_plus (ha ▸ hlang)
  exact ⟨hne, fun c hc => isHexDigit_of_inRanges (hall c hc)⟩

theorem isNext_addFour {line : Text} {i : Disassembled} (h : disassembled line = some i) :
    IsNext i.pc (addFour i.pc) := by
  obtain ⟨hne, hdigits⟩ := pc_digits h
  obtain ⟨v, hv⟩ := exists_digitsVal hne hdigits
  have hpc : intHex i.pc = some v := (intHex_of_digits hdigits).trans hv
  refine ⟨v, hpc, ?_⟩
  rw [addFour, hpc, Option.getD_some, hex, List.drop_succ_cons, List.drop_succ_cons,
    List.drop_zero, intHex_of_digits fun c hc => isHexDigit_of_mem_toDigits hc,
    digitsVal_toDigits]

theorem exists_of_mem_callSites {q : PcQuery} {lines : List Text} {pc : Text}
    (h : pc ∈ callSites q lines) : ∃ line i, disassembled line = some i ∧ i.pc = pc := by
  obtain ⟨line, -, hline⟩ := List.mem_filterMap.mp h
  obtain ⟨i, hi, rfl⟩ := Option.map_eq_some_iff.mp hline
  exact ⟨line, i, (Option.filter_eq_some_iff.mp hi).1, rfl⟩

theorem prefix_injective : Function.Injective fun s : Text => "0x00000".toList ++ s :=
  fun _ _ h => List.append_cancel_left h

/-- One call of the first function, and a call of the second from its body. -/
theorem FoundCall.printed_inRoles {q : PcQuery} {lines pre post : List Text} {line : Text}
    {i : Disassembled} (h : FoundCall q lines pre line post i)
    (hone : (callSites q pre).length = 1) (hbody : InBody q.func1 pre)
    (haddr : jmpAddr i.operands = some i.target) :
    ∃ addresses, pcFinder q lines = some addresses ∧ InRoles q lines pre i addresses := by
  obtain ⟨c, hc⟩ := List.length_eq_one_iff.mp hone
  have hfirst : (callSites q lines).head? = some c := by
    rw [h.split, callSites_append h.sees.1, hc]
    rfl
  obtain ⟨l, j, hj, rfl⟩ := exists_of_mem_callSites (hc ▸ List.mem_singleton.mpr rfl)
  have hi : disassembled line = some i := (Option.filter_eq_some_iff.mp h.sees.2.2.1).1
  refine ⟨_, by rw [pcFinder_of_foundCall h, haddr]; rfl, ⟨?_, hbody⟩⟩
  refine ⟨j.pc, addFour j.pc, addFour i.pc, ?_, hfirst, isNext_addFour hj, isNext_addFour hi⟩
  rw [hc]
  rfl

/-- **When the addresses are in their roles.** -/
theorem printsRoles_iff (q : PcQuery) (lines : List Text) :
    PrintsRoles q lines ↔ Regular q lines := by
  constructor
  · intro h pre line post i hfound
    obtain ⟨addresses, hprinted, hroles⟩ := h pre line post i hfound
    rw [pcFinder_of_foundCall hfound] at hprinted
    obtain ⟨addr, haddr, heq⟩ := Option.map_eq_some_iff.mp hprinted
    obtain ⟨first, next, return_, hfive, -⟩ := hroles.five
    have hlists := (List.map_injective_iff.mpr prefix_injective) (heq.trans hfive)
    have hone : (callSites q pre).length = 1 := by
      have hlength := congrArg List.length hlists
      simp only [List.length_append, List.length_flatMap, List.length_cons, List.length_nil,
        List.map_const', List.sum_replicate_nat] at hlength
      omega
    obtain ⟨c, hc⟩ := List.length_eq_one_iff.mp hone
    rw [hc] at hlists
    cases hlists
    exact ⟨hone, hroles.body, haddr⟩
  · intro h pre line post i hfound
    obtain ⟨hone, hbody, haddr⟩ := h pre line post i hfound
    exact hfound.printed_inRoles hone hbody haddr

/-- A warm-up call and a measured one, with the marker in between. -/
def warmupListing : List Text :=
  ["c <main>:\n", "c:\t00c000ef\tjal\tra,da <modpow>\n", "d2:\t00008013\tmv\tzero,ra\n",
    "d6:\t004000ef\tjal\tra,da <modpow>\n", "da <modpow>:\n",
    "da:\t004000ef\tjal\tra,de <ccopy>\n"].map String.toList

/-- Without the fourth argument. -/
def warmupQuery : PcQuery := ⟨"modpow".toList, "ccopy".toList, false⟩

/-- Both calls are printed, and the call in the body comes fifth. -/
theorem warmupListing_not_in_roles :
    pcFinder warmupQuery warmupListing = some (["0x00000c", "0x0000010", "0x00000d6", "0x00000da",
      "0x00000da", "0x00000de", "0x00000de"].map String.toList) ∧
      ¬ PrintsRoles warmupQuery warmupListing := by
  have hprinted : pcFinder warmupQuery warmupListing = some (["0x00000c", "0x0000010",
      "0x00000d6", "0x00000da", "0x00000da", "0x00000de", "0x00000de"].map String.toList) := by
    decide +kernel
  refine ⟨hprinted, fun h => ?_⟩
  rcases foundCall_or_none warmupQuery warmupListing with ⟨pre, line, post, i, hfound⟩ | hnone
  · obtain ⟨addresses, haddresses, hroles⟩ := h pre line post i hfound
    obtain ⟨first, next, return_, hfive, -⟩ := hroles.five
    rw [haddresses, hfive] at hprinted
    have hlength := congrArg (Option.map List.length) hprinted
    simp only [Option.map_some, List.length_map, List.length_cons, List.length_nil,
      Option.some.injEq] at hlength
    omega
  · -- the loop would have printed an even number of addresses
    rw [pcFinder_of_not_foundCall hnone] at hprinted
    have hlength := congrArg (Option.map List.length) hprinted
    simp only [Option.map_some, List.length_map, List.length_flatMap, List.length_cons,
      List.length_nil, List.map_const', List.sum_replicate_nat, Option.some.injEq] at hlength
    omega

end MicroSampler.Scripts
