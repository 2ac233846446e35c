import MicroSampler.Library.Python
import MicroSampler.Library.Tally
import Mathlib.Data.List.Perm.Basic

/-!
# Microarchitectural states

The classes of `Microarchitecture.py`: the sampled contents of the queues, buffers and
execution units in one cycle, and the comparison of two states by one component. Each
comparison looks at the contents as multisets, so it is an equivalence.
-/

namespace MicroSampler.Scripts

open Python

abbrev Text := List Char

/-- `find_index`. -/
def findIndex {α : Type} (lst : List α) (condition : α → Bool) : Option Nat :=
  lst.findIdx? condition

inductive Component
  | LQ | SQ | ROB | LFB | HWPREFETCHER | EXESTATUS
  deriving DecidableEq, Repr

/-- `collections.Counter(x) == collections.Counter(y)`. -/
def compareContent {α : Type} [DecidableEq α] (x y : List α) : Bool :=
  (x ++ y).all fun a => x.count a = y.count a

/-! ## Circular queues -/

structure CircularQueue where
  ptr : List Text := []
  valid : List Text := []
  occupancy : Nat := 0
  head : Int := -1
  tail : Int := -1
  deriving DecidableEq

namespace CircularQueue

/-- `setmetaData`. A queue with a head pointer and no tail pointer raises. -/
def setmetaData (q : CircularQueue) : Option CircularQueue :=
  match q.ptr.findIdx? (· = ['H']) with
  | none => some { q with occupancy := 0, head := -1, tail := -1 }
  | some head => do
    let tail ← q.ptr.findIdx? (· = ['T'])
    some { q with occupancy := Int.natAbs (tail - head), head := head, tail := tail }

/-- `getValidEntries`. -/
def getValidEntries {α : Type} (q : CircularQueue) (lst : List α) : Option (List α) :=
  if q.head > q.tail then (range (q.tail + 1) (q.head + 1)).mapM fun i => index? lst i
  else some (slice lst q.head q.tail)

end CircularQueue

structure LoadQueue extends CircularQueue where
  sn : List Nat := []
  pc : List Nat := []
  address : List Nat := []
  deriving DecidableEq

def LoadQueue.setmetaData (lq : LoadQueue) : Option LoadQueue := do
  let q ← lq.toCircularQueue.setmetaData
  let sn ← q.getValidEntries lq.sn
  let pc ← q.getValidEntries lq.pc
  let address ← q.getValidEntries lq.address
  some { q with sn, pc, address }

/-- `LoadQueue.__eq__`. -/
def LoadQueue.eq (lq lqOther : LoadQueue) : Bool :=
  if lq.occupancy = lqOther.occupancy then
    if compareContent lq.pc lqOther.pc then compareContent lq.address lqOther.address
    else false
  else false

structure StoreQueue extends CircularQueue where
  sn : List Nat := []
  pc : List Nat := []
  address : List Nat := []
  data : List Nat := []
  deriving DecidableEq

def StoreQueue.setmetaData (sq : StoreQueue) : Option StoreQueue := do
  let q ← sq.toCircularQueue.setmetaData
  let sn ← q.getValidEntries sq.sn
  let pc ← q.getValidEntries sq.pc
  let address ← q.getValidEntries sq.address
  let data ← q.getValidEntries sq.data
  some { q with sn, pc, address, data }

/-- `StoreQueue.__eq__`: the data of the stores is not compared. -/
def StoreQueue.eq (sq sqOther : StoreQueue) : Bool :=
  if sq.occupancy = sqOther.occupancy then
    if compareContent sq.pc sqOther.pc then compareContent sq.address sqOther.address
    else false
  else false

structure ROB extends CircularQueue where
  sn : List Nat := []
  pc : List Nat := []
  inst : List Text := []
  deriving DecidableEq

def ROB.setmetaData (rob : ROB) : Option ROB := do
  let q ← rob.toCircularQueue.setmetaData
  let sn ← q.getValidEntries rob.sn
  let pc ← q.getValidEntries rob.pc
  let inst ← q.getValidEntries rob.inst
  some { q with sn, pc, inst }

/-- `ROB.__eq__`. -/
def ROB.eq (rob robOther : ROB) : Bool :=
  if rob.occupancy = robOther.occupancy then compareContent rob.pc robOther.pc else false

/-! ## Buffers and units -/

structure LineFillBuffer where
  data : List Nat := []
  deriving DecidableEq

/-- `LineFillBuffer.__eq__`. -/
def LineFillBuffer.eq (lfb lfbOther : LineFillBuffer) : Bool :=
  compareContent lfb.data lfbOther.data

structure RegisterFile where
  data : List Nat := []
  deriving DecidableEq

/-- The prefetcher fields start as the empty string, which is `none` here. -/
structure Prefetcher where
  data : Option Nat := none
  address : Option Nat := none
  deriving DecidableEq

/-- `Prefetcher.__eq__`. -/
def Prefetcher.eq (prefetch prefetchOther : Prefetcher) : Bool :=
  if prefetch.address = prefetchOther.address then prefetch.data = prefetchOther.data else false

/-- `exeReqs`, one list for each functional unit in the order of the dictionary. -/
structure ExecutionUnits where
  alu : List Text := []
  addrgen : List Text := []
  mul : List Text := []
  div : List Text := []
  deriving DecidableEq

/-- `ExecutionUnits.__eq__`. -/
def ExecutionUnits.eq (exe exeOther : ExecutionUnits) : Bool :=
  if !compareContent exe.alu exeOther.alu then false
  else if !compareContent exe.addrgen exeOther.addrgen then false
  else if !compareContent exe.mul exeOther.mul then false
  else compareContent exe.div exeOther.div

structure DTLBMiss where
  pc : List Text := []
  paddr : List Text := []
  deriving DecidableEq

structure DCacheMiss where
  pc : List Text := []
  deriving DecidableEq

/-! ## The state of a cycle -/

structure UArch where
  cycleBegin : Nat
  cycleEnd : Option Nat := none
  lq : LoadQueue := {}
  sq : StoreQueue := {}
  rob : ROB := {}
  lfb : LineFillBuffer := {}
  hwprefetcher : Prefetcher := {}
  intRegFile : RegisterFile := {}
  fpRegFile : RegisterFile := {}
  executionUnits : ExecutionUnits := {}
  dtlbMisses : DTLBMiss := {}
  dcacheMisses : DCacheMiss := {}
  deriving DecidableEq

/-- `self.compare(comptype, state)`. -/
def UArch.compare (comptype : Component) (self state : UArch) : Bool :=
  match comptype with
  | .LQ => self.lq.eq state.lq
  | .SQ => self.sq.eq state.sq
  | .ROB => self.rob.eq state.rob
  | .LFB => self.lfb.eq state.lfb
  | .HWPREFETCHER => self.hwprefetcher.eq state.hwprefetcher
  | .EXESTATUS => self.executionUnits.eq state.executionUnits

/-! ## Comparisons are equivalences -/

theorem compareContent_iff_perm {α : Type} [DecidableEq α] {x y : List α} :
    compareContent x y = true ↔ x.Perm y := by
  rw [List.perm_iff_count, compareContent, List.all_eq_true]
  constructor
  · intro h a
    by_cases ha : a ∈ x ++ y
    · simpa using h a ha
    · rw [List.mem_append, not_or] at ha
      rw [List.count_eq_zero_of_not_mem ha.1, List.count_eq_zero_of_not_mem ha.2]
  · intro h a _
    simpa using h a

theorem compareContent_isSameness {α : Type} [DecidableEq α] :
    IsSameness (@compareContent α _) where
  refl x := compareContent_iff_perm.mpr (List.Perm.refl x)
  symm h := compareContent_iff_perm.mpr (compareContent_iff_perm.mp h).symm
  trans h h' := compareContent_iff_perm.mpr
    ((compareContent_iff_perm.mp h).trans (compareContent_iff_perm.mp h'))

theorem loadQueue_eq_isSameness : IsSameness LoadQueue.eq := by
  have h := ((IsSameness.decideEq Nat).comap fun lq : LoadQueue => lq.occupancy).and
    ((compareContent_isSameness.comap LoadQueue.pc).and
      (compareContent_isSameness.comap LoadQueue.address))
  refine h.of_eq fun a b => ?_
  simp [LoadQueue.eq]

theorem storeQueue_eq_isSameness : IsSameness StoreQueue.eq := by
  have h := ((IsSameness.decideEq Nat).comap fun sq : StoreQueue => sq.occupancy).and
    ((compareContent_isSameness.comap StoreQueue.pc).and
      (compareContent_isSameness.comap StoreQueue.address))
  refine h.of_eq fun a b => ?_
  simp [StoreQueue.eq]

theorem rob_eq_isSameness : IsSameness ROB.eq := by
  have h := ((IsSameness.decideEq Nat).comap fun rob : ROB => rob.occupancy).and
    (compareContent_isSameness.comap ROB.pc)
  refine h.of_eq fun a b => ?_
  simp [ROB.eq]

theorem prefetcher_eq_isSameness : IsSameness Prefetcher.eq := by
  have h := ((IsSameness.decideEq (Option Nat)).comap Prefetcher.address).and
    ((IsSameness.decideEq (Option Nat)).comap Prefetcher.data)
  refine h.of_eq fun a b => ?_
  simp [Prefetcher.eq]

theorem executionUnits_eq_isSameness : IsSameness ExecutionUnits.eq := by
  have h := (compareContent_isSameness.comap ExecutionUnits.alu).and
    ((compareContent_isSameness.comap ExecutionUnits.addrgen).and
      ((compareContent_isSameness.comap ExecutionUnits.mul).and
        (compareContent_isSameness.comap ExecutionUnits.div)))
  refine h.of_eq fun a b => ?_
  simp [ExecutionUnits.eq]

/-- **Comparing states by a component is an equivalence.** -/
theorem compare_isSameness (component : Component) : IsSameness (UArch.compare component) := by
  cases component with
  | LQ => exact loadQueue_eq_isSameness.comap UArch.lq
  | SQ => exact storeQueue_eq_isSameness.comap UArch.sq
  | ROB => exact rob_eq_isSameness.comap UArch.rob
  | LFB =>
    exact (compareContent_isSameness.comap LineFillBuffer.data).comap UArch.lfb
  | HWPREFETCHER => exact prefetcher_eq_isSameness.comap UArch.hwprefetcher
  | EXESTATUS => exact executionUnits_eq_isSameness.comap UArch.executionUnits

end MicroSampler.Scripts
