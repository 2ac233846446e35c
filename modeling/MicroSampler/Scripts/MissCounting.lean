import MicroSampler.Scripts.TraceParser

/-!
# Counting cache and TLB misses

The lines of the region are cut at the cycle markers. The misses of a state should be
those logged between its two markers. For the data cache they are. A TLB miss is entered
only if `valid` is `'T'`, and every branch that assigns `valid` leaves `'V'` or `'-'`
there: no TLB miss is ever entered, and one logged before the first assignment raises.
-/

namespace MicroSampler.Scripts

open Python Regex Loops

/-! ## What the trace says -/

/-- The lines that reach the `elif` chain: those of the region, up to the line that ends
the loop. -/
def roiLines (beginRoiPc endRoiPc : Text) : Region → List Text → List Text
  | _, [] => []
  | r, line :: lines =>
    let (r, stop) := timestampLine beginRoiPc endRoiPc r line
    if stop then []
    else if !r.beginRoi then roiLines beginRoiPc endRoiPc r lines
    else line :: roiLines beginRoiPc endRoiPc r lines

/-- The number of a cycle marker. -/
def markerOf (line : Text) : Option Nat :=
  match classify line with
  | some (.cycle, m) => some (cycleNumber m)
  | _ => none

/-- The address and physical address of a TLB miss. -/
def dtlbMissOf (line : Text) : Option (Text × Text) :=
  match classify line with
  | some (.dtlb, m) => some (m.text 1, m.text 2)
  | _ => none

/-- The address of a data cache response flagged `V`. -/
def dcacheMissOf (line : Text) : Option Text :=
  match classify line with
  | some (.dcache, m) => if m.text 3 = ['V'] then some (m.text 1) else none
  | _ => none

/-- The lines between two successive cycle markers. -/
structure Segment where
  cycleBegin : Nat
  cycleEnd : Nat
  body : List Text

/-- The segments of a list of lines; `opened` is the last marker before it with the lines
since then. What follows the last marker is no segment. -/
def segments : Option (Nat × List Text) → List Text → List Segment
  | _, [] => []
  | opened, line :: lines =>
    match markerOf line with
    | some n =>
      (opened.map fun o => ⟨o.1, n, o.2⟩).toList ++ segments (some (n, [])) lines
    | none => segments (opened.map fun o => (o.1, o.2 ++ [line])) lines

/-- The markers of a cycle and the misses in it. -/
structure CycleMisses where
  cycleBegin : Nat
  cycleEnd : Option Nat
  dtlb : DTLBMiss
  dcache : DCacheMiss

def UArch.misses (s : UArch) : CycleMisses :=
  ⟨s.cycleBegin, s.cycleEnd, s.dtlbMisses, s.dcacheMisses⟩

def Segment.misses (g : Segment) : CycleMisses :=
  ⟨g.cycleBegin, some g.cycleEnd,
    ⟨(g.body.filterMap dtlbMissOf).map Prod.fst, (g.body.filterMap dtlbMissOf).map Prod.snd⟩,
    ⟨g.body.filterMap dcacheMissOf⟩⟩

/-- Every miss of the region is counted once: the returned states hold the misses of the
segments, and no line of a miss makes the parser raise. -/
def MissesCounted (beginRoiPc endRoiPc : Text) (lines : List Text) : Prop :=
  (∀ instructions states, getTraceData beginRoiPc endRoiPc lines = .ok (instructions, states) →
    states.map UArch.misses =
      (segments none (roiLines beginRoiPc endRoiPc {} lines)).map Segment.misses) ∧
  ∀ e, getTraceData beginRoiPc endRoiPc lines = .error e → e.kind ≠ .dtlb ∧ e.kind ≠ .dcache

/-! ## The loop is a fold over the lines of the region -/

theorem traceLoop_ok {beginRoiPc endRoiPc : Text} {r : Region} {s : Sampler}
    {lines : List Text} {out : Region × Sampler}
    (h : traceLoop beginRoiPc endRoiPc r s lines = .ok out) :
    (roiLines beginRoiPc endRoiPc r lines).foldlM chainLine s = .ok out.2 := by
  induction lines generalizing r s with
  | nil =>
    cases h
    rfl
  | cons line lines ih =>
    unfold traceLoop at h
    unfold roiLines
    dsimp only at h ⊢
    split at h
    · next hstop =>
      cases h
      rw [if_pos hstop]
      rfl
    · next hstop =>
      rw [if_neg hstop]
      split at h
      · next hroi =>
        rw [if_pos hroi]
        exact ih h
      · next hroi =>
        rw [if_neg hroi]
        split at h
        · cases h
        · next s' hs' => exact foldlM_cons_eq_ok_iff.mpr ⟨s', hs', ih h⟩

theorem traceLoop_error {beginRoiPc endRoiPc : Text} {r : Region} {s : Sampler}
    {lines : List Text} {e : TraceError}
    (h : traceLoop beginRoiPc endRoiPc r s lines = .error e) :
    (roiLines beginRoiPc endRoiPc r lines).foldlM chainLine s = .error e := by
  induction lines generalizing r s with
  | nil => cases h
  | cons line lines ih =>
    unfold traceLoop at h
    unfold roiLines
    dsimp only at h ⊢
    split at h
    · cases h
    · next hstop =>
      rw [if_neg hstop]
      split at h
      · next hroi =>
        rw [if_pos hroi]
        exact ih h
      · next hroi =>
        rw [if_neg hroi, List.foldlM_cons]
        split at h
        · next e' he' =>
          cases h
          rw [he']
          rfl
        · next s' hs' =>
          rw [hs']
          exact ih h

/-! ## What a branch does to the misses -/

/-- No branch leaves `'T'` in `valid`. -/
theorem assignedValid_ne_T {line : Text} {kind : LineKind} {m : Match}
    (h : classify line = some (kind, m)) : assignedValid kind m ≠ some ['T'] := by
  obtain ⟨r, hmem, hr⟩ := classify_eq_some h
  -- a flag is one of the characters of its class
  have hflag : ∀ n, (∀ a ∈ bodies n r, a = validity ∨ a = .alt (char 'V') (char '-')) →
      m.group n = some (m.text n) → m.text n ≠ ['T'] := by
    intro n hbodies hgroup htext
    obtain ⟨a, ha, hlang⟩ := search_group hr hgroup
    rw [htext] at hlang
    rcases hbodies a ha with rfl | rfl
    · obtain ⟨c, hc, hin⟩ := lang_set hlang
      cases hc
      exact absurd hin (by decide)
    · cases hlang with
      | altLeft h' | altRight h' =>
        obtain ⟨c, hc, hin⟩ := lang_set h'
        cases hc
        exact absurd hin (by decide)
  have hpresent : ∀ n ∈ kind.groupsRead, m.group n = some (m.text n) :=
    fun n hn => groupsRead_present h hn
  simp only [chain, List.mem_cons, Prod.mk.injEq, List.not_mem_nil, or_false] at hmem
  intro hvalid
  cases kind <;> simp only [assignedValid, Option.some.injEq, reduceCtorEq] at hvalid
  case loadQueue =>
    obtain rfl : r = loadQueueEntry := by simpa using hmem
    exact hflag 5 (fun a ha => Or.inl (List.mem_singleton.mp ha)) (hpresent 5 (by decide)) hvalid
  case storeQueue =>
    obtain rfl : r = storeQueueEntry := by simpa using hmem
    exact hflag 7 (fun a ha => Or.inl (List.mem_singleton.mp ha)) (hpresent 7 (by decide)) hvalid
  case rob =>
    obtain rfl : r = robEntry := by simpa using hmem
    exact hflag 4 (fun a ha => Or.inr (List.mem_singleton.mp ha)) (hpresent 4 (by decide)) hvalid
  case dcache =>
    obtain rfl : r = dcacheStatus := by simpa using hmem
    exact hflag 3 (fun a ha => Or.inl (List.mem_singleton.mp ha)) (hpresent 3 (by decide)) hvalid

/-- Nor does a line of a cycle bring it there. -/
theorem or_assignedValid_ne_T {line : Text} {kind : LineKind} {m : Match} {valid : Option Text}
    (hclass : classify line = some (kind, m)) (hT : valid ≠ some ['T']) :
    (assignedValid kind m).or valid ≠ some ['T'] := by
  have hne := assignedValid_ne_T hclass
  cases hassigned : assignedValid kind m with
  | none => exact hT
  | some v =>
    rw [hassigned] at hne
    exact hne

/-- What a branch leaves of the current cycle as it was. -/
structure Keeps (kind : LineKind) (cur cur' : UArch) : Prop where
  cycleBegin : cur'.cycleBegin = cur.cycleBegin
  cycleEnd : cur'.cycleEnd = cur.cycleEnd
  hwprefetcher : kind ≠ .hwprefetch → cur'.hwprefetcher = cur.hwprefetcher
  executionUnits : kind ≠ .exe → cur'.executionUnits = cur.executionUnits
  dtlbMisses : kind ≠ .dtlb → cur'.dtlbMisses = cur.dtlbMisses
  dcacheMisses : kind ≠ .dcache → cur'.dcacheMisses = cur.dcacheMisses

theorem recordLine_keeps {kind : LineKind} {m : Match} {valid : Option Text} {cur cur' : UArch}
    (h : recordLine kind m valid cur = .ok cur') : Keeps kind cur cur' := by
  cases kind with
  | cycle =>
    cases h
    constructor <;> simp
  | exe =>
    simp only [recordLine, exeLine] at h
    split at h <;> cases h <;> constructor <;> simp
  | dtlb =>
    simp only [recordLine, dtlbLine, bind_eq_ok_iff] at h
    obtain ⟨_, -, h⟩ := h
    split at h <;> cases h <;> constructor <;> simp
  | dcache =>
    simp only [recordLine, dcacheLine] at h
    split at h <;> cases h <;> constructor <;> simp
  | loadQueue =>
    simp only [recordLine, loadQueueLine, bind_eq_ok_iff] at h
    obtain ⟨_, -, _, -, _, -, _, -, _, -, h⟩ := h
    cases h
    constructor <;> simp
  | storeQueue =>
    simp only [recordLine, storeQueueLine, bind_eq_ok_iff] at h
    obtain ⟨_, -, _, -, _, -, _, -, _, -, _, -, h⟩ := h
    cases h
    constructor <;> simp
  | rob =>
    simp only [recordLine, robLine, bind_eq_ok_iff] at h
    obtain ⟨_, -, _, -, _, -, _, -, h⟩ := h
    cases h
    constructor <;> simp
  | rob2 =>
    simp only [recordLine, robLine2, bind_eq_ok_iff] at h
    obtain ⟨_, -, _, -, _, -, _, -, _, -, _, -, h⟩ := h
    cases h
    constructor <;> simp
  | lineFillBuffer | hwprefetch | intRegisterFile | fpRegisterFile =>
    simp only [recordLine, lineFillBufferLine, hwprefetchLine, intRegisterFileLine,
      fpRegisterFileLine, bind_eq_ok_iff] at h
    obtain ⟨_, -, _, -, h⟩ := h
    cases h
    constructor <;> simp

/-- Only the two miss branches touch the misses of the current cycle. -/
theorem recordLine_misses {kind : LineKind} {m : Match} {valid : Option Text}
    {cur cur' : UArch} (h : recordLine kind m valid cur = .ok cur') (hdtlb : kind ≠ .dtlb)
    (hdcache : kind ≠ .dcache) : cur'.misses = cur.misses := by
  have hkeeps := recordLine_keeps h
  simp only [UArch.misses, hkeeps.cycleBegin, hkeeps.cycleEnd, hkeeps.dtlbMisses hdtlb,
    hkeeps.dcacheMisses hdcache]

/-- A branch other than the TLB one that raises is not the data cache one. -/
theorem recordLine_dcache_ok (m : Match) (valid : Option Text) (cur : UArch) :
    ∃ cur', recordLine .dcache m valid cur = .ok cur' := by
  simp only [recordLine, dcacheLine]
  split <;> exact ⟨_, rfl⟩

/-- A TLB miss needs a bound `valid`; unless it is `'T'` nothing is entered. -/
theorem recordLine_dtlb {m : Match} {valid : Option Text} {cur : UArch}
    (hT : valid ≠ some ['T']) :
    recordLine .dtlb m valid cur =
      if valid.isSome then .ok cur else .error .unboundLocalError := by
  cases valid with
  | none => rfl
  | some v =>
    have hv : v ≠ ['T'] := fun h => hT (congrArg some h)
    simp only [recordLine, dtlbLine, orRaise, Option.isSome_some, if_true]
    exact if_neg hv

/-! ## One line -/

/-- The misses a state can have recorded since the marker `o.1`, when `o.2` are the lines
since then. -/
def recordedSince (o : Nat × List Text) : CycleMisses :=
  ⟨o.1, none, {}, ⟨o.2.filterMap dcacheMissOf⟩⟩

/-- The current cycle holds the data cache misses of the lines since the last marker, and
`valid` is never `'T'`. -/
structure Tracks (s : Sampler) (opened : Option (Nat × List Text)) : Prop where
  cur : s.curCycle.map UArch.misses = opened.map recordedSince
  valid : s.valid ≠ some ['T']

def Segment.recorded (g : Segment) : CycleMisses :=
  ⟨g.cycleBegin, some g.cycleEnd, {}, ⟨g.body.filterMap dcacheMissOf⟩⟩

/-- What a cycle marker does: it completes the current cycle and starts the next one. -/
theorem chainLine_marker_eq {s s' : Sampler} {line : Text} {n : Nat}
    (hmarker : markerOf line = some n) (h : chainLine s line = .ok s') :
    s' = { s with
      states := s.states ++ (s.curCycle.map fun cur => { cur with cycleEnd := some n }).toList
      curCycle := some { cycleBegin := n } } := by
  unfold markerOf at hmarker
  split at hmarker
  · next m hclass =>
    cases hmarker
    unfold chainLine at h
    rw [hclass] at h
    simp only [if_true, Sampler.markCycle] at h
    cases hs : s.curCycle with
    | none =>
      rw [hs] at h
      cases h
      simp
    | some cur =>
      rw [hs] at h
      dsimp only at h
      split at h
      · cases h
      · split at h <;> cases h
        rfl
  · cases hmarker

theorem chainLine_marker {s s' : Sampler} {line : Text} {opened : Option (Nat × List Text)}
    {n : Nat} (htracks : Tracks s opened) (hmarker : markerOf line = some n)
    (h : chainLine s line = .ok s') :
    s'.states.map UArch.misses = s.states.map UArch.misses ++
        (opened.map fun o => (Segment.mk o.1 n o.2).recorded).toList ∧
      Tracks s' (some (n, [])) := by
  obtain rfl := chainLine_marker_eq hmarker h
  refine ⟨?_, rfl, htracks.valid⟩
  rw [List.map_append]
  congr 1
  have hcur := htracks.cur
  cases hs : s.curCycle with
  | none =>
    rw [hs] at hcur
    cases opened with
    | none => rfl
    | some o => cases hcur
  | some cur =>
    rw [hs] at hcur
    cases opened with
    | none => cases hcur
    | some o =>
      simp only [Option.map_some, Option.some.injEq, UArch.misses, recordedSince,
        CycleMisses.mk.injEq] at hcur
      obtain ⟨hbegin, -, hdtlb, hdcache⟩ := hcur
      simp [UArch.misses, Segment.recorded, hbegin, hdtlb, hdcache]

/-- What a line that is no marker does: nothing outside a cycle, else its branch. -/
theorem chainLine_body_cases {s s' : Sampler} {line : Text} (hmarker : markerOf line = none)
    (h : chainLine s line = .ok s') :
    (s' = s ∧ (s.curCycle = none ∨ classify line = none)) ∨
    ∃ kind m cur cur', classify line = some (kind, m) ∧ kind ≠ .cycle ∧
      s.curCycle = some cur ∧ recordLine kind m s.valid cur = .ok cur' ∧
      s' = { s with curCycle := some cur', valid := (assignedValid kind m).or s.valid } := by
  unfold chainLine at h
  cases hclass : classify line with
  | none =>
    rw [hclass] at h
    cases h
    exact Or.inl ⟨rfl, Or.inr rfl⟩
  | some e =>
    obtain ⟨kind, m⟩ := e
    have hkind : kind ≠ .cycle := by
      rintro rfl
      simp [markerOf, hclass] at hmarker
    rw [hclass] at h
    dsimp only at h
    rw [if_neg hkind] at h
    cases hcur : s.curCycle with
    | none =>
      rw [hcur] at h
      cases h
      exact Or.inl ⟨rfl, Or.inl rfl⟩
    | some cur =>
      rw [hcur] at h
      dsimp only at h
      cases hrec : recordLine kind m s.valid cur with
      | error e =>
        rw [hrec] at h
        cases h
      | ok cur' =>
        rw [hrec] at h
        cases h
        exact Or.inr ⟨kind, m, cur, cur', rfl, hkind, rfl, hrec, rfl⟩

/-- How the misses of the current cycle change with a line of its body. -/
theorem recordLine_recorded {line : Text} {kind : LineKind} {m : Match} {valid : Option Text}
    {cur cur' : UArch} {o : Nat × List Text} (hclass : classify line = some (kind, m))
    (hvalid : valid ≠ some ['T']) (hcur : cur.misses = recordedSince o)
    (h : recordLine kind m valid cur = .ok cur') :
    cur'.misses = recordedSince (o.1, o.2 ++ [line]) := by
  by_cases hdcache : kind = .dcache
  · subst hdcache
    have hmiss : dcacheMissOf line = if m.text 3 = ['V'] then some (m.text 1) else none := by
      unfold dcacheMissOf
      rw [hclass]
    simp only [recordLine, dcacheLine] at h
    simp only [UArch.misses, recordedSince, CycleMisses.mk.injEq] at hcur ⊢
    obtain ⟨hbegin, hend, hdtlb, hpc⟩ := hcur
    split at h
    · next hV =>
      cases h
      simp [hbegin, hend, hdtlb, hpc, hmiss, hV]
    · next hV =>
      cases h
      simp [hbegin, hend, hdtlb, hpc, hmiss, hV]
  · have hmiss : dcacheMissOf line = none := by
      unfold dcacheMissOf
      rw [hclass]
      cases kind <;> first | rfl | exact absurd rfl hdcache
    have hsame : cur'.misses = cur.misses := by
      by_cases hdtlb : kind = .dtlb
      · subst hdtlb
        rw [recordLine_dtlb hvalid] at h
        split at h <;> cases h
        rfl
      · exact recordLine_misses h hdtlb hdcache
    rw [hsame, hcur]
    simp [recordedSince, hmiss]

theorem chainLine_body {s s' : Sampler} {line : Text} {opened : Option (Nat × List Text)}
    (htracks : Tracks s opened) (hmarker : markerOf line = none)
    (h : chainLine s line = .ok s') :
    s'.states = s.states ∧ Tracks s' (opened.map fun o => (o.1, o.2 ++ [line])) := by
  have hcur := htracks.cur
  rcases chainLine_body_cases hmarker h with
    ⟨rfl, hidle⟩ | ⟨kind, m, cur, cur', hclass, -, hs, hrec, rfl⟩
  · refine ⟨rfl, ?_, htracks.valid⟩
    cases opened with
    | none => exact hcur
    | some o =>
      have hclass : classify line = none := by
        rcases hidle with hnone | hclass
        · rw [hnone] at hcur
          cases hcur
        · exact hclass
      have hmiss : dcacheMissOf line = none := by
        unfold dcacheMissOf
        rw [hclass]
      rw [hcur]
      simp [recordedSince, hmiss]
  · cases opened with
    | none =>
      rw [hs] at hcur
      cases hcur
    | some o =>
      rw [hs] at hcur
      have hmisses := Option.some.inj hcur
      exact ⟨rfl, congrArg some (recordLine_recorded hclass htracks.valid hmisses hrec),
        or_assignedValid_ne_T hclass htracks.valid⟩

/-- **Run rule** of the trace loop. What is known of the open segment, and what a marker makes
of it, gives the states of all the segments that are completed. -/
theorem chainLines_rule {β : Type} {I : Sampler → Option (Nat × List Text) → Prop}
    {view : UArch → β} {record : Segment → β}
    (hclose : ∀ {s s' opened line n}, I s opened → markerOf line = some n →
      chainLine s line = .ok s' →
      s'.states.map view = s.states.map view ++
          (opened.map fun o => record (Segment.mk o.1 n o.2)).toList ∧
        I s' (some (n, [])))
    (hbody : ∀ {s s' opened line}, I s opened → markerOf line = none →
      chainLine s line = .ok s' →
      s'.states = s.states ∧ I s' (opened.map fun o => (o.1, o.2 ++ [line])))
    {s s' : Sampler} {opened : Option (Nat × List Text)} {lines : List Text} (hI : I s opened)
    (h : lines.foldlM chainLine s = .ok s') :
    s'.states.map view = s.states.map view ++ (segments opened lines).map record := by
  induction lines generalizing s opened with
  | nil =>
    cases h
    simp [segments]
  | cons line lines ih =>
    obtain ⟨s₁, hline, hrest⟩ := foldlM_cons_eq_ok_iff.mp h
    unfold segments
    cases hmarker : markerOf line with
    | some n =>
      obtain ⟨hstates, hI₁⟩ := hclose hI hmarker hline
      rw [ih hI₁ hrest, hstates, List.append_assoc, List.map_append]
      cases opened <;> rfl
    | none =>
      obtain ⟨hstates, hI₁⟩ := hbody hI hmarker hline
      rw [ih hI₁ hrest, hstates]

/-- **The run.** A loop that returns has recorded, segment by segment, the data cache
misses of the trace and no TLB miss. -/
theorem chainLines_states {s s' : Sampler} {opened : Option (Nat × List Text)}
    {lines : List Text} (htracks : Tracks s opened) (h : lines.foldlM chainLine s = .ok s') :
    s'.states.map UArch.misses =
      s.states.map UArch.misses ++ (segments opened lines).map Segment.recorded :=
  chainLines_rule chainLine_marker chainLine_body htracks h

/-! ## Where `valid` is bound -/

def IsMarker (line : Text) : Prop := (markerOf line).isSome

/-- The branch of the line assigns `valid`. -/
def AssignsValid (line : Text) : Prop :=
  ∃ kind m, classify line = some (kind, m) ∧ (assignedValid kind m).isSome

/-- A cycle marker stands among the lines. -/
def Opened (lines : List Text) : Prop := ∃ line ∈ lines, IsMarker line

/-- After a cycle marker some line has assigned `valid`. -/
def ValidBound (lines : List Text) : Prop :=
  ∃ pre line post, lines = pre ++ line :: post ∧ AssignsValid line ∧ Opened pre

theorem opened_concat {lines : List Text} {line : Text} :
    Opened (lines ++ [line]) ↔ Opened lines ∨ IsMarker line := by
  simp only [Opened, List.mem_append, List.mem_singleton]
  constructor
  · rintro ⟨l, hl | rfl, hmarker⟩
    · exact Or.inl ⟨l, hl, hmarker⟩
    · exact Or.inr hmarker
  · rintro (⟨l, hl, hmarker⟩ | hmarker)
    · exact ⟨l, Or.inl hl, hmarker⟩
    · exact ⟨line, Or.inr rfl, hmarker⟩

theorem validBound_concat {lines : List Text} {line : Text} :
    ValidBound (lines ++ [line]) ↔ ValidBound lines ∨ AssignsValid line ∧ Opened lines := by
  constructor
  · rintro ⟨pre, l, post, heq, hassigns, hopened⟩
    rcases List.eq_nil_or_concat' post with rfl | ⟨post, last, rfl⟩
    · obtain ⟨rfl, hlast⟩ := List.append_inj' heq rfl
      cases hlast
      exact Or.inr ⟨hassigns, hopened⟩
    · rw [← List.cons_append, ← List.append_assoc] at heq
      obtain ⟨rfl, -⟩ := List.append_inj' heq rfl
      exact Or.inl ⟨pre, l, post, rfl, hassigns, hopened⟩
  · rintro (⟨pre, l, post, rfl, hassigns, hopened⟩ | ⟨hassigns, hopened⟩)
    · exact ⟨pre, l, post ++ [line], by simp, hassigns, hopened⟩
    · exact ⟨lines, line, [], rfl, hassigns, hopened⟩

/-- One line: a marker opens a cycle, an assigning line in a cycle binds `valid`. -/
theorem chainLine_bound {s s' : Sampler} {line : Text} (h : chainLine s line = .ok s')
    (hT : s.valid ≠ some ['T']) :
    (s'.curCycle.isSome ↔ s.curCycle.isSome ∨ IsMarker line) ∧
      (s'.valid.isSome ↔ s.valid.isSome ∨ AssignsValid line ∧ s.curCycle.isSome) ∧
      s'.valid ≠ some ['T'] := by
  cases hmarker : markerOf line with
  | some n =>
    have hnot : ¬ AssignsValid line := by
      rintro ⟨kind, m, hclass, hassigned⟩
      unfold markerOf at hmarker
      rw [hclass] at hmarker
      cases kind with
      | cycle => simp [assignedValid] at hassigned
      | _ => cases hmarker
    have hline : IsMarker line := by simp [IsMarker, hmarker]
    obtain rfl := chainLine_marker_eq hmarker h
    exact ⟨⟨fun _ => Or.inr hline, fun _ => rfl⟩,
      ⟨Or.inl, fun h => h.elim id fun h => absurd h.1 hnot⟩, hT⟩
  | none =>
    have hline : ¬ IsMarker line := by simp [IsMarker, hmarker]
    rcases chainLine_body_cases hmarker h with
      ⟨rfl, hidle⟩ | ⟨kind, m, cur, cur', hclass, -, hs, hrec, rfl⟩
    · refine ⟨⟨Or.inl, fun h => h.elim id fun h => absurd h hline⟩, ⟨Or.inl, ?_⟩, hT⟩
      rintro (hvalid | ⟨⟨kind, m, hclass, -⟩, hopen⟩)
      · exact hvalid
      · rcases hidle with hnone | hidle
        · rw [hnone] at hopen
          cases hopen
        · rw [hidle] at hclass
          cases hclass
    · rw [hs]
      refine ⟨by simp [hline], ?_, ?_⟩
      · cases hassigned : assignedValid kind m with
        | none =>
          simp only [Option.none_or, Option.isSome_some, and_true]
          refine ⟨Or.inl, fun h => h.elim id ?_⟩
          rintro ⟨kind', m', hclass', hassigned'⟩
          rw [hclass] at hclass'
          cases hclass'
          rw [hassigned] at hassigned'
          cases hassigned'
        | some v =>
          simp only [Option.some_or, Option.isSome_some, and_true, true_iff]
          exact Or.inr ⟨kind, m, hclass, by rw [hassigned]; rfl⟩
      · exact or_assignedValid_ne_T hclass hT

theorem chainLines_bound {s : Sampler} {lines : List Text}
    (h : lines.foldlM chainLine {} = .ok s) :
    (s.curCycle.isSome ↔ Opened lines) ∧ (s.valid.isSome ↔ ValidBound lines) ∧
      s.valid ≠ some ['T'] := by
  induction lines using List.reverseRecOn generalizing s with
  | nil =>
    cases h
    refine ⟨by simp [Opened], ?_, by simp⟩
    simp [ValidBound]
  | append_singleton lines line ih =>
    obtain ⟨s₁, hlines, hline⟩ := foldlM_append_eq_ok_iff.mp h
    obtain ⟨hopened, hbound, hT⟩ := ih hlines
    obtain ⟨s₂, hstep, hs⟩ := foldlM_cons_eq_ok_iff.mp hline
    cases hs
    obtain ⟨hopened', hbound', hT'⟩ := chainLine_bound hstep hT
    rw [opened_concat, validBound_concat, hopened', hbound', hopened, hbound]
    exact ⟨Iff.rfl, Iff.rfl, hT'⟩

/-! ## TLB miss lines -/

def IsDtlbMiss (line : Text) : Prop := (dtlbMissOf line).isSome

theorem isDtlbMiss_iff {line : Text} :
    IsDtlbMiss line ↔ ∃ m, classify line = some (.dtlb, m) := by
  unfold IsDtlbMiss dtlbMissOf
  constructor
  · intro h
    split at h
    · next m hclass => exact ⟨m, hclass⟩
    · cases h
  · rintro ⟨m, hclass⟩
    rw [hclass]
    rfl

/-- In a cycle, the line of a TLB miss returns only if `valid` is bound. -/
theorem chainLine_dtlb_ok {s s' : Sampler} {line : Text} (h : chainLine s line = .ok s')
    (hT : s.valid ≠ some ['T']) (hline : IsDtlbMiss line) (hopen : s.curCycle.isSome) :
    s.valid.isSome := by
  obtain ⟨m, hclass⟩ := isDtlbMiss_iff.mp hline
  obtain ⟨cur, hcur⟩ := Option.isSome_iff_exists.mp hopen
  unfold chainLine at h
  rw [hclass] at h
  dsimp only at h
  rw [if_neg (by decide), hcur] at h
  simp only [recordLine_dtlb hT] at h
  split at h
  · next hvalid => exact hvalid
  · cases h

/-- A line of a miss raises only in a cycle, for a TLB miss with `valid` unbound. -/
theorem chainLine_error {s : Sampler} {line : Text} {e : TraceError}
    (h : chainLine s line = .error e) (hT : s.valid ≠ some ['T'])
    (hkind : e.kind = .dtlb ∨ e.kind = .dcache) :
    IsDtlbMiss line ∧ s.curCycle.isSome ∧ ¬ s.valid.isSome := by
  unfold chainLine at h
  cases hclass : classify line with
  | none =>
    rw [hclass] at h
    cases h
  | some c =>
    obtain ⟨kind, m⟩ := c
    rw [hclass] at h
    dsimp only at h
    have hsame : kind = e.kind := by
      generalize (if kind = .cycle then _ else _ : Except PyException Sampler) = x at h
      cases x <;> cases h
      rfl
    have hne : kind ≠ .cycle := by
      rintro rfl
      rw [← hsame] at hkind
      rcases hkind with h | h <;> cases h
    rw [if_neg hne] at h
    cases hcur : s.curCycle with
    | none =>
      rw [hcur] at h
      cases h
    | some cur =>
      rw [hcur] at h
      dsimp only at h
      rcases hkind with hkind | hkind
      · obtain rfl : kind = .dtlb := hsame.trans hkind
        refine ⟨isDtlbMiss_iff.mpr ⟨m, hclass⟩, rfl, fun hvalid => ?_⟩
        rw [recordLine_dtlb hT, if_pos hvalid] at h
        cases h
      · obtain rfl : kind = .dcache := hsame.trans hkind
        obtain ⟨cur', hrec⟩ := recordLine_dcache_ok m s.valid cur
        rw [hrec] at h
        cases h

theorem not_isDtlbMiss_of_isMarker {line : Text} (h : IsMarker line) : ¬ IsDtlbMiss line := by
  rw [isDtlbMiss_iff]
  rintro ⟨m, hclass⟩
  simp [IsMarker, markerOf, hclass] at h

theorem opened_cons {line : Text} {lines : List Text} :
    Opened (line :: lines) ↔ IsMarker line ∨ Opened lines := by
  simp [Opened]

/-- The lines of TLB misses inside segments are those between two markers. -/
theorem segments_dtlb_iff {opened : Option (Nat × List Text)} {lines : List Text} :
    (∃ g ∈ segments opened lines, ∃ line ∈ g.body, IsDtlbMiss line) ↔
      ((∃ o ∈ opened, ∃ line ∈ o.2, IsDtlbMiss line) ∧ Opened lines) ∨
      ∃ pre line post, lines = pre ++ line :: post ∧ IsDtlbMiss line ∧
        (opened.isSome ∨ Opened pre) ∧ Opened post := by
  induction lines generalizing opened with
  | nil => simp [segments, Opened]
  | cons line lines ih =>
    rw [exists_split_cons, opened_cons]
    simp only [opened_cons]
    unfold segments
    cases hmarker : markerOf line with
    | some n =>
      have hline : IsMarker line := by simp [IsMarker, hmarker]
      have hmiss := not_isDtlbMiss_of_isMarker hline
      simp only [List.mem_append, or_and_right, exists_or, ih]
      cases opened <;> simp [hline, hmiss]
    | none =>
      have hline : ¬ IsMarker line := by simp [IsMarker, hmarker]
      have hempty : ¬ Opened [] := by simp [Opened]
      simp only [ih]
      cases opened with
      | none => simp [hline, hempty]
      | some o =>
        simp only [Option.map_some, Option.mem_some_iff, exists_eq_left', List.mem_append,
          List.mem_singleton, or_and_right, exists_or, exists_eq_left, hline, false_or,
          Option.isSome_some, true_or, true_and]
        exact or_assoc

/-- Every line of a TLB miss in a cycle comes after the last cycle marker, and after a line
that assigned `valid`. -/
def DtlbMissesUnseen (lines : List Text) : Prop :=
  ∀ pre line post, lines = pre ++ line :: post → IsDtlbMiss line → Opened pre →
    ¬ Opened post ∧ ValidBound pre

theorem recorded_eq_misses_iff (g : Segment) :
    g.recorded = g.misses ↔ ∀ line ∈ g.body, ¬ IsDtlbMiss line := by
  rw [Segment.recorded, Segment.misses]
  simp only [CycleMisses.mk.injEq, true_and, and_true, DTLBMiss.mk.injEq, List.nil_eq,
    List.map_eq_nil_iff, and_self, List.filterMap_eq_nil_iff]
  simp [IsDtlbMiss]

/-- A run that returns has counted the misses exactly when no segment has a TLB miss. -/
theorem missesCounted_of_ok {beginRoiPc endRoiPc : Text} {lines : List Text} {r : Region}
    {s : Sampler} (hrun : traceLoop beginRoiPc endRoiPc {} {} lines = .ok (r, s)) :
    MissesCounted beginRoiPc endRoiPc lines ↔
      ∀ g ∈ segments none (roiLines beginRoiPc endRoiPc {} lines), ∀ line ∈ g.body,
        ¬ IsDtlbMiss line := by
  have hdata : getTraceData beginRoiPc endRoiPc lines = .ok (r.instructions, s.states) := by
    rw [getTraceData, hrun]
    rfl
  have htracks : Tracks {} none := ⟨rfl, by simp⟩
  have hstates := chainLines_states htracks (traceLoop_ok hrun)
  simp only [List.map_nil, List.nil_append] at hstates
  constructor
  · intro h g hg
    have hmisses := h.1 _ _ hdata
    rw [hstates, List.map_inj_left] at hmisses
    exact (recorded_eq_misses_iff g).mp (hmisses g hg)
  · intro h
    constructor
    · intro instructions states hok
      rw [hdata] at hok
      cases hok
      rw [hstates, List.map_inj_left]
      exact fun g hg => (recorded_eq_misses_iff g).mpr (h g hg)
    · intro e herror
      rw [hdata] at herror
      cases herror

/-- In a run that returns, `valid` was bound at every TLB miss of a cycle. -/
theorem validBound_of_ok {pre post lines : List Text} {line : Text} {s : Sampler}
    (h : lines.foldlM chainLine {} = .ok s) (heq : lines = pre ++ line :: post)
    (hmiss : IsDtlbMiss line) (hopened : Opened pre) : ValidBound pre := by
  rw [heq] at h
  obtain ⟨s₁, hpre, hrest⟩ := foldlM_append_eq_ok_iff.mp h
  obtain ⟨s₂, hline, -⟩ := foldlM_cons_eq_ok_iff.mp hrest
  obtain ⟨hcur, hbound, hT⟩ := chainLines_bound hpre
  exact hbound.mp (chainLine_dtlb_ok hline hT hmiss (hcur.mpr hopened))

/-- **When the misses are counted.** On a trace on which the parser returns, or raises at
the line of a miss, the misses are counted once each exactly when every TLB miss logged
after a cycle marker comes after the last marker, with `valid` bound: no TLB miss is ever
counted. -/
theorem missesCounted_iff {beginRoiPc endRoiPc : Text} {lines : List Text}
    (hdomain : ∀ e, getTraceData beginRoiPc endRoiPc lines = .error e →
      e.kind = .dtlb ∨ e.kind = .dcache) :
    MissesCounted beginRoiPc endRoiPc lines ↔
      DtlbMissesUnseen (roiLines beginRoiPc endRoiPc {} lines) := by
  cases hrun : traceLoop beginRoiPc endRoiPc {} {} lines with
  | error e =>
    have hdata : getTraceData beginRoiPc endRoiPc lines = .error e := by
      rw [getTraceData, hrun]
      rfl
    have hkind := hdomain e hdata
    constructor
    · intro h
      obtain ⟨hdtlb, hdcache⟩ := h.2 e hdata
      rcases hkind with hkind | hkind
      · exact absurd hkind hdtlb
      · exact absurd hkind hdcache
    · intro h
      obtain ⟨pre, line, post, s, heq, hpre, hline⟩ :=
        foldlM_eq_error_iff.mp (traceLoop_error hrun)
      obtain ⟨hopened, hbound, hT⟩ := chainLines_bound hpre
      obtain ⟨hmiss, hcur, hvalid⟩ := chainLine_error hline hT hkind
      exact absurd (hbound.mpr (h pre line post heq hmiss (hopened.mp hcur)).2) hvalid
  | ok out =>
    rw [missesCounted_of_ok hrun]
    constructor
    · intro h pre line post heq hmiss hopened
      refine ⟨fun hpost => ?_, validBound_of_ok (traceLoop_ok hrun) heq hmiss hopened⟩
      obtain ⟨g, hg, line', hline', hmiss'⟩ := segments_dtlb_iff.mpr
        (Or.inr ⟨pre, line, post, heq, hmiss, Or.inr hopened, hpost⟩)
      exact h g hg line' hline' hmiss'
    · intro h g hg line hline hmiss
      rcases segments_dtlb_iff.mp ⟨g, hg, line, hline, hmiss⟩ with
        ⟨⟨o, ho, -⟩, -⟩ | ⟨pre, line', post, heq, hmiss', hopened, hpost⟩
      · cases ho
      · rcases hopened with hnone | hopened
        · cases hnone
        · exact (h pre line' post heq hmiss' hopened).1 hpost

/-- A region with two cycle markers, a data cache miss between them and the given lines
after it. -/
def missTrace (lines : List Text) : List Text :=
  ["7; O3PipeView:fetch:   1:0x10:0:  7:nop", "Cycle= 1",
    "DCacheResp: PC:0x20  Data:0x0  (V)  IsHella:  (-)  Miss:  (V)   Release:   (-)"].map
      String.toList ++ lines ++
  List.replicate 16 "LineBufferEntry [ 0] = 0".toList ++ ["Cycle= 2".toList]

/-- The parser returns one state, with the data cache miss alone. -/
theorem getTraceData_missTrace {lines : List Text}
    (h : lines ∈ [[], ["DTLBMiss: PC:0x20 PhysicalAddress:0x30".toList]]) :
    ∃ out, getTraceData "0x10".toList "0x99".toList (missTrace lines) = .ok out ∧
      out.2.map UArch.dtlbMisses = [{}] := by
  have hall : ∀ lines ∈ [[], ["DTLBMiss: PC:0x20 PhysicalAddress:0x30".toList]],
      (getTraceData "0x10".toList "0x99".toList (missTrace lines)).toOption.map
        (fun out => out.2.map UArch.dtlbMisses) = some [{}] := by decide +kernel
  have hrun := hall lines h
  cases hdata : getTraceData "0x10".toList "0x99".toList (missTrace lines) with
  | error e =>
    rw [hdata] at hrun
    cases hrun
  | ok out =>
    rw [hdata] at hrun
    exact ⟨out, rfl, Option.some.inj hrun⟩

theorem missesCounted_dcache : MissesCounted "0x10".toList "0x99".toList (missTrace []) := by
  obtain ⟨out, hdata, -⟩ := getTraceData_missTrace (List.mem_cons_self)
  refine (missesCounted_iff fun e h => ?_).mpr fun pre line post heq hmiss => ?_
  · rw [hdata] at h
    cases h
  · have hall : ∀ line ∈ roiLines "0x10".toList "0x99".toList {} (missTrace []),
        dtlbMissOf line = none := by decide +kernel
    have hline := hall line (heq ▸ by simp)
    simp [IsDtlbMiss, hline] at hmiss

/-- The logged TLB miss is missing from the returned state. -/
theorem not_missesCounted_dtlb :
    ¬ MissesCounted "0x10".toList "0x99".toList
      (missTrace ["DTLBMiss: PC:0x20 PhysicalAddress:0x30".toList]) := by
  intro h
  obtain ⟨⟨instructions, states⟩, hdata, hnone⟩ :=
    getTraceData_missTrace (List.mem_cons_of_mem _ List.mem_cons_self)
  have hstates := congrArg (List.map CycleMisses.dtlb) (h.1 instructions states hdata)
  rw [List.map_map, show CycleMisses.dtlb ∘ UArch.misses = UArch.dtlbMisses from rfl,
    hnone] at hstates
  revert hstates
  decide +kernel

end MicroSampler.Scripts
