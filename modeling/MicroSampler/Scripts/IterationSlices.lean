import MicroSampler.Scripts.Iterations

/-!
# Iterations are slices

The iterations that `get_iterations` returns are disjoint stretches of the sequence, in
order. A stretch starts at every retired `begin_pc` behind the call site, and it reaches to
the first retired terminal instruction, the next start or the end of the sequence.

The scan starts with the empty text for the address of the instruction before, so with an
empty `lookbehind_pc` the first instruction can start an iteration with nothing before it.
-/

namespace MicroSampler.Scripts

/-- A stretch of positions of a sequence. -/
structure Slice where
  start : Nat
  stop : Nat
  start_lt_stop : start < stop

/-- The instructions of a slice. -/
def Slice.instrs (s : Slice) (l : List Instr) : List Instr := (l.take s.stop).drop s.start

section

variable (lookbehindPc beginPc : Text) (terminalPcs : Text → Bool)

/-- A retired terminal instruction stands at the position. -/
def TerminalAt (l : List Instr) (p : Nat) : Prop :=
  ∃ instr, l[p]? = some instr ∧ instr.isTerminal terminalPcs = true

/-- A retired `begin_pc` stands at the position. -/
def BeginAt (l : List Instr) (p : Nat) : Prop :=
  ∃ instr, l[p]? = some instr ∧ instr.isBegin beginPc = true

/-- The predecessor of the position in the sequence is at the call site. -/
def CalledAt (l : List Instr) (p : Nat) : Prop :=
  ∃ q prev, p = q + 1 ∧ l[q]? = some prev ∧ prev.pc = some lookbehindPc

/-- The slices of a sequence in which a slice starts exactly where `starts` says. -/
structure SlicesOf (starts : Nat → Prop) (l : List Instr) (slices : List Slice) : Prop where
  stop_le : ∀ s ∈ slices, s.stop ≤ l.length
  disjoint : slices.Pairwise fun s t => s.stop ≤ t.start
  start_iff : ∀ p, (∃ s ∈ slices, s.start = p) ↔ starts p
  inner : ∀ s ∈ slices, ∀ p, s.start ≤ p → p + 1 < s.stop → ¬ TerminalAt terminalPcs l p
  ends : ∀ s ∈ slices, TerminalAt terminalPcs l (s.stop - 1) ∨
    (∃ t ∈ slices, t.start = s.stop) ∨ s.stop = l.length

/-- The iterations are slices of the sequence. -/
def SlicedInto (starts : Nat → Prop) (l : List Instr) (iterations : List (List Instr)) : Prop :=
  ∃ slices, SlicesOf terminalPcs starts l slices ∧
    iterations = slices.map fun s => s.instrs l

/-- Where the scan opens an iteration. -/
def OpensAt (l : List Instr) (p : Nat) : Prop :=
  ∃ instr, l[p]? = some instr ∧ Opens lookbehindPc beginPc (l.take p) instr

/-- The invariant of the scan. While an iteration is open, the last slice reaches to the
end of the sequence and has no terminal instruction there; otherwise no slice needs the end
of the sequence to stop. -/
structure Scanned (l : List Instr) (slices : List Slice) : Prop where
  slicesOf : SlicesOf terminalPcs (OpensAt lookbehindPc beginPc l) l slices
  iterations : (scanInstrs lookbehindPc beginPc terminalPcs l).iterations =
    slices.map fun s => s.instrs l
  opened : (scanInstrs lookbehindPc beginPc terminalPcs l).roi = true →
    ∃ init last, slices = init ++ [last] ∧ last.stop = l.length ∧
      ¬ TerminalAt terminalPcs l (l.length - 1)
  closed : (scanInstrs lookbehindPc beginPc terminalPcs l).roi = false →
    ∀ s ∈ slices, TerminalAt terminalPcs l (s.stop - 1) ∨ ∃ t ∈ slices, t.start = s.stop

end

section

variable {lookbehindPc beginPc : Text} {terminalPcs : Text → Bool}

/-! ## One more instruction -/

theorem getElem?_concat {l : List Instr} {instr : Instr} {p : Nat} (hp : p < l.length) :
    (l ++ [instr])[p]? = l[p]? := List.getElem?_append_left hp

theorem terminalAt_concat_of_lt {l : List Instr} {instr : Instr} {p : Nat} (hp : p < l.length) :
    TerminalAt terminalPcs (l ++ [instr]) p ↔ TerminalAt terminalPcs l p := by
  unfold TerminalAt
  rw [getElem?_concat hp]

theorem terminalAt_concat_last {l : List Instr} {instr : Instr} :
    TerminalAt terminalPcs (l ++ [instr]) l.length ↔ instr.isTerminal terminalPcs = true := by
  unfold TerminalAt
  rw [List.getElem?_concat_length]
  simp

theorem opensAt_lt {l : List Instr} {p : Nat} (h : OpensAt lookbehindPc beginPc l p) :
    p < l.length := by
  obtain ⟨instr, hget, -⟩ := h
  exact (List.getElem?_eq_some_iff.mp hget).1

theorem opensAt_concat {l : List Instr} {instr : Instr} {p : Nat} :
    OpensAt lookbehindPc beginPc (l ++ [instr]) p ↔
      OpensAt lookbehindPc beginPc l p ∨ p = l.length ∧ Opens lookbehindPc beginPc l instr := by
  rcases Nat.lt_trichotomy p l.length with hlt | rfl | hgt
  · have hne : p ≠ l.length := Nat.ne_of_lt hlt
    unfold OpensAt
    rw [getElem?_concat hlt, List.take_append_of_le_length (Nat.le_of_lt hlt)]
    simp [hne]
  · have hnot : ¬ OpensAt lookbehindPc beginPc l l.length := fun h =>
      Nat.lt_irrefl _ (opensAt_lt h)
    simp only [hnot, true_and, false_or]
    unfold OpensAt
    rw [List.getElem?_concat_length, List.take_left]
    simp
  · have hnot : ¬ OpensAt lookbehindPc beginPc l p := fun h => by
      have := opensAt_lt h
      omega
    have hnot' : ¬ OpensAt lookbehindPc beginPc (l ++ [instr]) p := fun h => by
      have := opensAt_lt h
      rw [List.length_append, List.length_singleton] at this
      omega
    have hne : p ≠ l.length := Nat.ne_of_gt hgt
    simp [hnot, hnot', hne]

theorem Slice.instrs_concat {s : Slice} {l : List Instr} (hs : s.stop ≤ l.length)
    (instr : Instr) : s.instrs (l ++ [instr]) = s.instrs l := by
  rw [Slice.instrs, List.take_append_of_le_length hs, ← Slice.instrs]

theorem map_instrs_concat {slices : List Slice} {l : List Instr}
    (h : ∀ s ∈ slices, s.stop ≤ l.length) (instr : Instr) :
    (slices.map fun s => s.instrs (l ++ [instr])) = slices.map fun s => s.instrs l := by
  apply List.map_congr_left
  intro s hs
  exact Slice.instrs_concat (h s hs) instr

/-- A slice that reaches to the end of the sequence. -/
theorem Slice.instrs_of_stop_eq {s : Slice} {l : List Instr} (hs : s.stop = l.length) :
    s.instrs l = l.drop s.start := by
  rw [Slice.instrs, hs, List.take_length]

/-! ## The invariant -/

theorem SlicesOf.nil {starts : Nat → Prop} (h : ∀ p, ¬ starts p) :
    SlicesOf terminalPcs starts [] [] where
  stop_le _ hs := absurd hs List.not_mem_nil
  disjoint := .nil
  start_iff p := by simp [h p]
  inner _ hs := absurd hs List.not_mem_nil
  ends _ hs := absurd hs List.not_mem_nil

theorem Scanned.nil : Scanned lookbehindPc beginPc terminalPcs [] [] where
  slicesOf := .nil fun p h => absurd (opensAt_lt h) (Nat.not_lt_zero p)
  iterations := rfl
  opened h := by cases h
  closed _ _ hs := absurd hs List.not_mem_nil

/-- Inside the sequence an instruction behind it changes nothing. -/
theorem SlicesOf.inner_concat {starts : Nat → Prop} {l : List Instr} {slices : List Slice}
    (h : SlicesOf terminalPcs starts l slices) (instr : Instr) {s : Slice} (hs : s ∈ slices)
    {p : Nat} (hstart : s.start ≤ p) (hstop : p + 1 < s.stop) :
    ¬ TerminalAt terminalPcs (l ++ [instr]) p := by
  have hle := h.stop_le s hs
  rw [terminalAt_concat_of_lt (by omega)]
  exact h.inner s hs p hstart hstop

/-- Slices of which the last one reaches to the end of the sequence. -/
theorem SlicesOf.append_last {starts : Nat → Prop} {l : List Instr} {init : List Slice}
    {last : Slice} (hdisjoint : init.Pairwise fun s t => s.stop ≤ t.start)
    (hbefore : ∀ s ∈ init, s.stop ≤ last.start) (hstop : last.stop = l.length)
    (hstarts : ∀ p, (∃ s ∈ init ++ [last], s.start = p) ↔ starts p)
    (hinner : ∀ s ∈ init ++ [last], ∀ p, s.start ≤ p → p + 1 < s.stop →
      ¬ TerminalAt terminalPcs l p)
    (hends : ∀ s ∈ init, TerminalAt terminalPcs l (s.stop - 1) ∨
      ∃ t ∈ init ++ [last], t.start = s.stop) :
    SlicesOf terminalPcs starts l (init ++ [last]) := by
  have hstart := last.start_lt_stop
  refine ⟨?_, ?_, hstarts, hinner, ?_⟩
  · intro s hs
    rcases List.mem_append.mp hs with hs | hs
    · have := hbefore s hs
      omega
    · rw [List.mem_singleton.mp hs]
      exact hstop.le
  · rw [List.pairwise_append]
    refine ⟨hdisjoint, List.pairwise_singleton _ _, ?_⟩
    intro s hs t ht
    rw [List.mem_singleton.mp ht]
    exact hbefore s hs
  · intro s hs
    rcases List.mem_append.mp hs with hs | hs
    · rcases hends s hs with hterm | hnext
      · exact Or.inl hterm
      · exact Or.inr (Or.inl hnext)
    · rw [List.mem_singleton.mp hs]
      exact Or.inr (Or.inr hstop)

theorem not_terminalAt_concat_last {l : List Instr} {instr : Instr}
    (h : instr.isTerminal terminalPcs = false) :
    ¬ TerminalAt terminalPcs (l ++ [instr]) l.length := by
  rw [terminalAt_concat_last, h]
  exact Bool.false_ne_true

/-- An opening instruction starts a slice, where the open one ends if there is one. -/
theorem SlicesOf.start {l : List Instr} {slices : List Slice} {instr : Instr}
    (h : SlicesOf terminalPcs (OpensAt lookbehindPc beginPc l) l slices)
    (hopens : Opens lookbehindPc beginPc l instr) :
    SlicesOf terminalPcs (OpensAt lookbehindPc beginPc (l ++ [instr])) (l ++ [instr])
      (slices ++ [⟨l.length, l.length + 1, Nat.lt_succ_self _⟩]) := by
  refine .append_last h.disjoint h.stop_le (by simp) ?_ ?_ ?_
  · intro p
    rw [opensAt_concat, ← h.start_iff]
    simp only [List.mem_append, List.mem_singleton, or_and_right, exists_or, exists_eq_left,
      hopens, and_true]
    exact or_congr_right eq_comm
  · intro s hs p hstart hend
    rcases List.mem_append.mp hs with hs | hs
    · exact h.inner_concat instr hs hstart hend
    · rw [List.mem_singleton.mp hs] at hstart hend
      dsimp only at hstart hend
      omega
  · intro s hs
    have hle := h.stop_le s hs
    have hlt := s.start_lt_stop
    rw [terminalAt_concat_of_lt (by omega)]
    rcases h.ends s hs with hterm | ⟨t, ht, hnext⟩ | hend
    · exact Or.inl hterm
    · exact Or.inr ⟨t, List.mem_append_left _ ht, hnext⟩
    · exact Or.inr ⟨_, List.mem_append_right _ List.mem_cons_self, hend.symm⟩

theorem Scanned.start {l : List Instr} {slices : List Slice} {instr : Instr}
    (h : Scanned lookbehindPc beginPc terminalPcs l slices)
    (hterminal : instr.isTerminal terminalPcs = false)
    (hopens : Opens lookbehindPc beginPc l instr) :
    Scanned lookbehindPc beginPc terminalPcs (l ++ [instr])
      (slices ++ [⟨l.length, l.length + 1, Nat.lt_succ_self _⟩]) := by
  refine ⟨h.slicesOf.start hopens, ?_, ?_, ?_⟩
  · rw [scanInstrs_concat_eq, if_pos hopens, List.map_append,
      map_instrs_concat h.slicesOf.stop_le, h.iterations, List.map_singleton,
      Slice.instrs_of_stop_eq (by simp), List.drop_left]
  · intro _
    refine ⟨slices, _, rfl, by simp, ?_⟩
    simpa using not_terminalAt_concat_last hterminal
  · intro hroi
    rw [scanInstrs_concat_eq, if_pos hopens] at hroi
    cases hroi

section Extend

variable {l : List Instr} {init : List Slice} {last : Slice} {instr : Instr}

/-- The last slice up to the end of a longer sequence. -/
def Slice.extend (s : Slice) {n : Nat} (h : s.stop ≤ n) : Slice :=
  ⟨s.start, n + 1, by have := s.start_lt_stop; omega⟩

theorem exists_start_extend {n : Nat} (h : last.stop ≤ n) (p : Nat) :
    (∃ t ∈ init ++ [last.extend h], t.start = p) ↔ ∃ t ∈ init ++ [last], t.start = p := by
  simp only [List.mem_append, List.mem_singleton, or_and_right, exists_or, exists_eq_left,
    Slice.extend]

/-- The slices before the last one end as they did. -/
theorem SlicesOf.ends_extend {starts : Nat → Prop}
    (h : SlicesOf terminalPcs starts l (init ++ [last])) (hlast : last.stop ≤ l.length) :
    ∀ s ∈ init, TerminalAt terminalPcs (l ++ [instr]) (s.stop - 1) ∨
      ∃ t ∈ init ++ [last.extend hlast], t.start = s.stop := by
  intro s hs
  have hbefore := (List.pairwise_append.mp h.disjoint).2.2 s hs last List.mem_cons_self
  have hstart := s.start_lt_stop
  have hstop := last.start_lt_stop
  rw [terminalAt_concat_of_lt (by omega), exists_start_extend]
  rcases h.ends s (List.mem_append_left _ hs) with hterm | hnext | hend
  · exact Or.inl hterm
  · exact Or.inr hnext
  · omega

/-- Within an open iteration every other instruction extends the last slice. -/
theorem SlicesOf.extend
    (h : SlicesOf terminalPcs (OpensAt lookbehindPc beginPc l) l (init ++ [last]))
    (hopens : ¬ Opens lookbehindPc beginPc l instr) (hlast : last.stop = l.length)
    (hterminal : ¬ TerminalAt terminalPcs l (l.length - 1)) :
    SlicesOf terminalPcs (OpensAt lookbehindPc beginPc (l ++ [instr])) (l ++ [instr])
      (init ++ [last.extend hlast.le]) := by
  have hpairs := List.pairwise_append.mp h.disjoint
  refine .append_last hpairs.1 (fun s hs => hpairs.2.2 s hs last List.mem_cons_self)
    (by simp [Slice.extend]) ?_ ?_ (h.ends_extend hlast.le)
  · intro p
    rw [exists_start_extend, opensAt_concat, h.start_iff]
    simp [hopens]
  · intro s hs p hstart hend
    rcases List.mem_append.mp hs with hs | hs
    · exact h.inner_concat instr (List.mem_append_left _ hs) hstart hend
    · rw [List.mem_singleton.mp hs] at hstart hend
      dsimp only [Slice.extend] at hstart hend
      by_cases hp : p + 1 < last.stop
      · exact h.inner_concat instr (List.mem_append_right _ List.mem_cons_self) hstart hp
      · rw [terminalAt_concat_of_lt (by omega), show p = l.length - 1 by omega]
        exact hterminal

theorem Scanned.extend (h : Scanned lookbehindPc beginPc terminalPcs l (init ++ [last]))
    (hbegin : instr.isBegin beginPc = true → instr.isTerminal terminalPcs = false)
    (hopens : ¬ Opens lookbehindPc beginPc l instr)
    (hroi : (scanInstrs lookbehindPc beginPc terminalPcs l).roi = true)
    (hlast : last.stop = l.length) (hterminal : ¬ TerminalAt terminalPcs l (l.length - 1)) :
    Scanned lookbehindPc beginPc terminalPcs (l ++ [instr]) (init ++ [last.extend hlast.le]) := by
  have hstop : ∀ s ∈ init, s.stop ≤ l.length := fun s hs =>
    h.slicesOf.stop_le s (List.mem_append_left _ hs)
  have hstart := last.start_lt_stop
  have hroi' : (scanInstrs lookbehindPc beginPc terminalPcs (l ++ [instr])).roi =
      (instr.isBegin beginPc || !instr.isTerminal terminalPcs) := by
    rw [scanInstrs_concat_eq, if_neg hopens, if_pos hroi]
  refine ⟨h.slicesOf.extend hopens hlast hterminal, ?_, ?_, ?_⟩
  · rw [scanInstrs_concat_eq, if_neg hopens, if_pos hroi]
    dsimp only
    rw [h.iterations, List.map_append, List.map_append, List.map_singleton, List.map_singleton,
      appendLast_concat, map_instrs_concat hstop, Slice.instrs_of_stop_eq hlast,
      Slice.instrs_of_stop_eq (by simp [Slice.extend]), Slice.extend,
      List.drop_append_of_le_length (show last.start ≤ l.length by omega)]
  · intro hopen
    refine ⟨init, _, rfl, by simp [Slice.extend], ?_⟩
    have hnot : instr.isTerminal terminalPcs = false := by
      rw [hroi', Bool.or_eq_true, Bool.not_eq_true'] at hopen
      exact hopen.elim hbegin id
    simpa using not_terminalAt_concat_last hnot
  · intro hclosed s hs
    rcases List.mem_append.mp hs with hs | hs
    · exact h.slicesOf.ends_extend hlast.le s hs
    · rw [List.mem_singleton.mp hs]
      left
      rw [hroi', Bool.or_eq_false_iff, Bool.not_eq_false'] at hclosed
      exact terminalAt_concat_last.mpr hclosed.2

end Extend

/-- Outside the iterations every other instruction is in no slice. -/
theorem Scanned.skip {l : List Instr} {slices : List Slice} {instr : Instr}
    (h : Scanned lookbehindPc beginPc terminalPcs l slices)
    (hopens : ¬ Opens lookbehindPc beginPc l instr)
    (hroi : (scanInstrs lookbehindPc beginPc terminalPcs l).roi = false) :
    Scanned lookbehindPc beginPc terminalPcs (l ++ [instr]) slices := by
  have hstop := h.slicesOf.stop_le
  have hends : ∀ s ∈ slices, TerminalAt terminalPcs (l ++ [instr]) (s.stop - 1) ∨
      ∃ t ∈ slices, t.start = s.stop := by
    intro s hs
    have hle := hstop s hs
    have hlt := s.start_lt_stop
    rw [terminalAt_concat_of_lt (by omega)]
    exact h.closed hroi s hs
  refine ⟨⟨?_, h.slicesOf.disjoint, ?_, ?_, ?_⟩, ?_, ?_, ?_⟩
  · intro s hs
    rw [List.length_append]
    exact (hstop s hs).trans (Nat.le_add_right _ _)
  · intro p
    rw [opensAt_concat, h.slicesOf.start_iff]
    simp [hopens]
  · intro s hs p hstart hend
    exact h.slicesOf.inner_concat instr hs hstart hend
  · intro s hs
    rcases hends s hs with hterm | hnext
    · exact Or.inl hterm
    · exact Or.inr (Or.inl hnext)
  · rw [scanInstrs_concat_eq, if_neg hopens, hroi, if_neg Bool.false_ne_true,
      map_instrs_concat hstop, h.iterations]
  · intro hopen
    rw [scanInstrs_concat_eq, if_neg hopens, hroi, if_neg Bool.false_ne_true] at hopen
    cases hopen
  · intro _
    exact hends

/-- **The scan.** -/
theorem exists_scanned (hbegin : terminalPcs beginPc = false) (l : List Instr) :
    ∃ slices, Scanned lookbehindPc beginPc terminalPcs l slices := by
  induction l using List.reverseRecOn with
  | nil => exact ⟨[], .nil⟩
  | append_singleton l instr ih =>
    obtain ⟨slices, h⟩ := ih
    have hterminal : instr.isBegin beginPc = true → instr.isTerminal terminalPcs = false := by
      intro hinstr
      rw [Instr.isBegin, Bool.and_eq_true, decide_eq_true_eq] at hinstr
      rw [Instr.isTerminal, hinstr.1, Option.any_some, hbegin, Bool.false_and]
    by_cases hopens : Opens lookbehindPc beginPc l instr
    · exact ⟨_, h.start (hterminal hopens.1) hopens⟩
    · cases hroi : (scanInstrs lookbehindPc beginPc terminalPcs l).roi with
      | true =>
        obtain ⟨init, last, rfl, hstop, hnot⟩ := h.opened hroi
        exact ⟨_, h.extend hterminal hopens hroi hstop hnot⟩
      | false => exact ⟨slices, h.skip hopens hroi⟩

/-! ## Where slices start -/

/-- The first instruction has the empty text for the address before it. -/
theorem opensAt_iff {l : List Instr} {p : Nat} :
    OpensAt lookbehindPc beginPc l p ↔
      BeginAt beginPc l p ∧ (CalledAt lookbehindPc l p ∨ p = 0 ∧ lookbehindPc = []) := by
  have hcall : ∀ instr, l[p]? = some instr → (lastPc (l.take p) = some lookbehindPc ↔
      CalledAt lookbehindPc l p ∨ p = 0 ∧ lookbehindPc = []) := by
    intro instr hget
    cases p with
    | zero => simp [lastPc, CalledAt, eq_comm]
    | succ q =>
      have hlt := (List.getElem?_eq_some_iff.mp hget).1
      have hprev : l[q]? = some l[q] := List.getElem?_eq_getElem (by omega)
      have hlast : (l.take (q + 1)).getLast? = some l[q] := by
        rw [List.take_add_one, hprev]
        exact List.getLast?_concat
      simp [lastPc, CalledAt, hlast, hprev]
  constructor
  · rintro ⟨instr, hget, hbegin, hlast⟩
    exact ⟨⟨instr, hget, hbegin⟩, (hcall instr hget).mp hlast⟩
  · rintro ⟨⟨instr, hget, hbegin⟩, hbefore⟩
    exact ⟨instr, hget, hbegin, (hcall instr hget).mpr hbefore⟩

/-- **Iterations are slices.** With `begin_pc` not terminal, the iterations are disjoint
slices of the sequence, in order. One starts at every retired `begin_pc` whose predecessor
is at the call site, and at the first instruction when `lookbehind_pc` is empty. A retired
terminal instruction is last in its slice, and a slice that does not end in one ends at the
next start or with the sequence. -/
theorem getIterations_slicedInto (hbegin : terminalPcs beginPc = false) (d : InstrDict) :
    SlicedInto terminalPcs
      (fun p => BeginAt beginPc d.instrs p ∧
        (CalledAt lookbehindPc d.instrs p ∨ p = 0 ∧ lookbehindPc = []))
      d.instrs (getIterations lookbehindPc beginPc terminalPcs d) := by
  obtain ⟨slices, h⟩ := exists_scanned hbegin d.instrs
  have hstarts : OpensAt lookbehindPc beginPc d.instrs = fun p => BeginAt beginPc d.instrs p ∧
      (CalledAt lookbehindPc d.instrs p ∨ p = 0 ∧ lookbehindPc = []) := by
    funext p
    exact propext opensAt_iff
  rw [← hstarts]
  exact ⟨slices, h.slicesOf, h.iterations⟩

end

theorem getIterations_slicedInto_committed :
    SlicedInto (· = ['t'])
      (fun p => BeginAt ['b'] mispredictedCall.committed.instrs p ∧
        (CalledAt ['c'] mispredictedCall.committed.instrs p ∨ p = 0 ∧ ['c'] = []))
      mispredictedCall.committed.instrs
      (getIterations ['c'] ['b'] (· = ['t']) mispredictedCall.committed) :=
  getIterations_slicedInto (by decide) mispredictedCall.committed

/-- One retired instruction at the begin address. -/
def loneBegin : InstrDict where
  items.entries := [(0, { seqnum := 0, pc := some ['b'], inst := none, fetch := 1, retire := 5 })]
  items.nodup := by decide
  keyed := by decide

/-- With an empty `lookbehind_pc` it is an iteration, though nothing stands before it. -/
theorem loneBegin_not_called :
    ¬ SlicedInto (· = ['t'])
      (fun p => BeginAt ['b'] loneBegin.instrs p ∧ CalledAt [] loneBegin.instrs p)
      loneBegin.instrs (getIterations [] ['b'] (· = ['t']) loneBegin) := by
  rintro ⟨slices, h, hiterations⟩
  have hlength := congrArg List.length hiterations
  rw [List.length_map, show (getIterations [] ['b'] (· = ['t']) loneBegin).length = 1 by
    decide +kernel] at hlength
  obtain ⟨s, hs⟩ := List.exists_mem_of_length_pos (hlength ▸ Nat.one_pos)
  obtain ⟨-, q, prev, hstart, -, -⟩ := (h.start_iff s.start).mp ⟨s, hs, rfl⟩
  have hstop := h.stop_le s hs
  have hlt := s.start_lt_stop
  rw [show loneBegin.instrs.length = 1 by decide +kernel] at hstop
  omega

end MicroSampler.Scripts
