import MicroSampler.Library.Loops
import MicroSampler.Scripts.Iterations
import MicroSampler.Scripts.TracePatterns

/-!
# The trace parser

`get_trace_data` of `Parser.py`. Each line is first taken as an instruction timestamp,
which may open the region of interest or end the loop. Inside the region it then enters
the branch of its kind: a cycle marker closes the state of the cycle before, every other
line adds to the state of the current cycle. The local variable `valid` is the only one
that a branch reads without having assigned it.
-/

namespace MicroSampler.Scripts

open Python Regex Loops

/-! ## Instruction timestamps -/

namespace InstrDict

def empty : InstrDict := ⟨Dict.empty, fun _ he => by cases he⟩

/-- `instructions[instr.seqnum] = instr`. -/
def set (d : InstrDict) (instr : Instr) : InstrDict where
  items := d.items.set instr.seqnum instr
  keyed := by
    intro e he
    have hget := Dict.get?_eq_some_iff.mpr (show (e.1, e.2) ∈ _ from he)
    rw [Dict.get?_set] at hget
    split at hget
    · next h =>
      rw [h, ← Option.some.inj hget]
    · exact d.keyed e (Dict.get?_eq_some_iff.mp hget)

end InstrDict

/-- The instructions seen so far and whether the region has begun. -/
structure Region where
  instructions : InstrDict := .empty
  beginRoi : Bool := false

/-- The stage times of an instruction, by the name of the stage. -/
def Instr.setStage (instr : Instr) (stage : Text) (cycle : Nat) : Instr :=
  if stage = "decode".toList then { instr with decode := cycle }
  else if stage = "rename".toList then { instr with rename := cycle }
  else if stage = "dispatch".toList then { instr with dispatch := cycle }
  else if stage = "issue".toList then { instr with issue := cycle }
  else if stage = "complete".toList then { instr with complete := cycle }
  else if stage = "retire".toList then { instr with retire := cycle }
  else instr

/-- The part of the loop body under `re.search(timestamp, line)`, for a begun region. A
stage of an instruction that was not fetched in the region is ignored. The flag tells
whether the loop ends here. -/
def recordStage (endRoiPc : Text) (instructions : InstrDict) (m : Match) (seqnum cycle : Nat) :
    InstrDict × Bool :=
  let stage := m.text 2
  if stage = "fetch".toList then
    (instructions.set
      { seqnum := seqnum, pc := m.group 5, inst := m.group 7, fetch := cycle }, false)
  else
    match instructions.items.get? seqnum with
    | none => (instructions, false)
    | some instr =>
      (instructions.set { instr.setStage stage cycle with seqnum := seqnum },
        stage = "retire".toList && instr.pc = some endRoiPc)

/-- The timestamp part of the loop body. The two numbers are runs of digits. -/
def timestampLine (beginRoiPc endRoiPc : Text) (r : Region) (line : Text) : Region × Bool :=
  match search timestamp line with
  | none => (r, false)
  | some m =>
    let seqnum := (digitsVal 10 (m.text 1)).getD 0
    let cycle := (digitsVal 10 (m.text 3)).getD 0
    let begins := m.text 2 = "fetch".toList && m.group 5 = some beginRoiPc
    if r.beginRoi || begins then
      let (instructions, stop) := recordStage endRoiPc r.instructions m seqnum cycle
      (⟨instructions, true⟩, stop)
    else (r, false)

/-! ## The branches -/

inductive PyException
  | valueError | assertionError | unboundLocalError | systemExit | queueError
  deriving DecidableEq, Repr

def orRaise {α : Type} (x : Option α) (e : PyException) : Except PyException α :=
  match x with
  | some a => .ok a
  | none => .error e

/-- `int(match.group(n))`. -/
def intGroup (m : Match) (n : Nat) : Except PyException Nat :=
  orRaise (int (m.text n)) .valueError

/-- `int(match.group(n), 16)`. -/
def hexGroup (m : Match) (n : Nat) : Except PyException Nat :=
  orRaise (intHex (m.text n)) .valueError

def loadQueueLine (m : Match) (cur : UArch) : Except PyException UArch := do
  let idx ← intGroup m 1
  let sn ← intGroup m 17
  let pc ← hexGroup m 2
  let address ← hexGroup m 4
  let lq := { cur.lq with
    sn := cur.lq.sn ++ [sn], ptr := cur.lq.ptr ++ [m.text 3], pc := cur.lq.pc ++ [pc],
    address := cur.lq.address ++ [address], valid := cur.lq.valid ++ [m.text 5] }
  let lq ← orRaise (if idx = 7 then lq.setmetaData else some lq) .systemExit
  pure { cur with lq := lq }

def storeQueueLine (m : Match) (cur : UArch) : Except PyException UArch := do
  let idx ← intGroup m 1
  let sn ← intGroup m 9
  let pc ← hexGroup m 2
  let address ← hexGroup m 6
  let data ← hexGroup m 8
  let sq := { cur.sq with
    sn := cur.sq.sn ++ [sn], ptr := cur.sq.ptr ++ [m.text 3], pc := cur.sq.pc ++ [pc],
    address := cur.sq.address ++ [address], data := cur.sq.data ++ [data],
    valid := cur.sq.valid ++ [m.text 7] }
  let sq ← orRaise (if idx = 7 then sq.setmetaData else some sq) .systemExit
  pure { cur with sq := sq }

def robLine (m : Match) (cur : UArch) : Except PyException UArch := do
  let idx ← intGroup m 1
  let sn ← intGroup m 10
  let pc ← hexGroup m 7
  let rob := { cur.rob with
    sn := cur.rob.sn ++ [sn], ptr := cur.rob.ptr ++ [m.text 2], pc := cur.rob.pc ++ [pc],
    inst := cur.rob.inst ++ [m.text 8], valid := cur.rob.valid ++ [m.text 4] }
  let rob ← orRaise (if idx = 31 then rob.setmetaData else some rob) .systemExit
  pure { cur with rob := rob }

/-- Two entries in one line. Here an exception of `setmetaData` is not caught. -/
def robLine2 (m : Match) (cur : UArch) : Except PyException UArch := do
  let idx ← intGroup m 1
  let pc1 ← hexGroup m 6
  let pc2 ← hexGroup m 7
  let sn1 ← intGroup m 10
  let sn2 ← intGroup m 11
  let rob := { cur.rob with
    sn := cur.rob.sn ++ [sn1, sn2], ptr := cur.rob.ptr ++ [m.text 2, [' ']],
    pc := cur.rob.pc ++ [pc1, pc2], inst := cur.rob.inst ++ [m.text 8, m.text 9] }
  let rob ← orRaise (if idx = 15 then rob.setmetaData else some rob) .queueError
  pure { cur with rob := rob }

def lineFillBufferLine (m : Match) (cur : UArch) : Except PyException UArch := do
  let _ ← intGroup m 1
  let data ← hexGroup m 2
  pure { cur with lfb := ⟨cur.lfb.data ++ [data]⟩ }

def hwprefetchLine (m : Match) (cur : UArch) : Except PyException UArch := do
  let address ← hexGroup m 1
  let data ← hexGroup m 2
  pure { cur with hwprefetcher := ⟨some data, some address⟩ }

def intRegisterFileLine (m : Match) (cur : UArch) : Except PyException UArch := do
  let _ ← intGroup m 1
  let data ← hexGroup m 2
  pure { cur with intRegFile := ⟨cur.intRegFile.data ++ [data]⟩ }

def fpRegisterFileLine (m : Match) (cur : UArch) : Except PyException UArch := do
  let _ ← intGroup m 1
  let data ← hexGroup m 2
  pure { cur with fpRegFile := ⟨cur.fpRegFile.data ++ [data]⟩ }

/-- A request is entered under its unit; units of another name are ignored. -/
def ExecutionUnits.request (exe : ExecutionUnits) (funcUnitType pc : Text) : ExecutionUnits :=
  if funcUnitType = "ALU".toList then { exe with alu := exe.alu ++ [pc] }
  else if funcUnitType = "AddrCalc".toList then { exe with addrgen := exe.addrgen ++ [pc] }
  else if funcUnitType = "Mul".toList then { exe with mul := exe.mul ++ [pc] }
  else if funcUnitType = "Div".toList then { exe with div := exe.div ++ [pc] }
  else exe

def exeLine (m : Match) (cur : UArch) : Except PyException UArch :=
  if m.text 2 = "Req".toList then
    .ok { cur with executionUnits := cur.executionUnits.request (m.text 1) (m.text 3) }
  else .ok cur

/-- The branch reads `valid` as an earlier line left it. -/
def dtlbLine (m : Match) (valid : Option Text) (cur : UArch) : Except PyException UArch := do
  let valid ← orRaise valid .unboundLocalError
  if valid = ['T'] then
    pure { cur with dtlbMisses :=
      ⟨cur.dtlbMisses.pc ++ [m.text 1], cur.dtlbMisses.paddr ++ [m.text 2]⟩ }
  else pure cur

def dcacheLine (m : Match) (cur : UArch) : Except PyException UArch :=
  if m.text 3 = ['V'] then
    .ok { cur with dcacheMisses := ⟨cur.dcacheMisses.pc ++ [m.text 1]⟩ }
  else .ok cur

/-! ## The loop -/

/-- The variables of the second part of the loop: `states`, `curCycle` and `valid`. -/
structure Sampler where
  states : List UArch := []
  curCycle : Option UArch := none
  valid : Option Text := none

/-- A cycle marker completes the state of the cycle before and starts a new one. -/
def Sampler.markCycle (s : Sampler) (cycle : Nat) : Except PyException Sampler :=
  match s.curCycle with
  | none => .ok { s with curCycle := some { cycleBegin := cycle } }
  | some cur =>
    if cur.lfb.data.length ≠ 16 then .error .assertionError
    else if cur.rob.occupancy ≠ cur.rob.pc.length then .error .assertionError
    else .ok { s with
      states := s.states ++ [{ cur with cycleEnd := some cycle }]
      curCycle := some { cycleBegin := cycle } }

/-- What a branch assigns to `valid`. -/
def assignedValid (kind : LineKind) (m : Match) : Option Text :=
  match kind with
  | .loadQueue => some (m.text 5)
  | .storeQueue => some (m.text 7)
  | .rob => some (m.text 4)
  | .dcache => some (m.text 3)
  | _ => none

/-- The branch of a line in a cycle; markers have a branch of their own. -/
def recordLine (kind : LineKind) (m : Match) (valid : Option Text) (cur : UArch) :
    Except PyException UArch :=
  match kind with
  | .cycle => .ok cur
  | .loadQueue => loadQueueLine m cur
  | .storeQueue => storeQueueLine m cur
  | .rob => robLine m cur
  | .rob2 => robLine2 m cur
  | .lineFillBuffer => lineFillBufferLine m cur
  | .hwprefetch => hwprefetchLine m cur
  | .intRegisterFile => intRegisterFileLine m cur
  | .fpRegisterFile => fpRegisterFileLine m cur
  | .exe => exeLine m cur
  | .dtlb => dtlbLine m valid cur
  | .dcache => dcacheLine m cur

/-- An exception, with the kind of the line that raised it. -/
structure TraceError where
  kind : LineKind
  exception : PyException
  deriving DecidableEq

/-- The number of a cycle marker, a run of digits. -/
def cycleNumber (m : Match) : Nat := (digitsVal 10 (m.text 1)).getD 0

/-- The `elif` chain. Before the first cycle marker only markers count. -/
def chainLine (s : Sampler) (line : Text) : Except TraceError Sampler :=
  match classify line with
  | none => .ok s
  | some (kind, m) =>
    (if kind = .cycle then s.markCycle (cycleNumber m)
    else
      match s.curCycle with
      | none => .ok s
      | some cur => do
        let cur ← recordLine kind m s.valid cur
        pure { s with curCycle := some cur, valid := (assignedValid kind m).or s.valid }).mapError
      fun e => ⟨kind, e⟩

/-- The loop over the lines of the trace. -/
def traceLoop (beginRoiPc endRoiPc : Text) :
    Region → Sampler → List Text → Except TraceError (Region × Sampler)
  | r, s, [] => .ok (r, s)
  | r, s, line :: lines =>
    let (r, stop) := timestampLine beginRoiPc endRoiPc r line
    if stop then .ok (r, s)
    else if !r.beginRoi then traceLoop beginRoiPc endRoiPc r s lines
    else
      match chainLine s line with
      | .error e => .error e
      | .ok s => traceLoop beginRoiPc endRoiPc r s lines

/-- `get_trace_data`: the instructions of the region and the completed states. -/
def getTraceData (beginRoiPc endRoiPc : Text) (lines : List Text) :
    Except TraceError (InstrDict × List UArch) := do
  let (r, s) ← traceLoop beginRoiPc endRoiPc {} {} lines
  pure (r.instructions, s.states)

end MicroSampler.Scripts
