import MicroSampler.BearSSL.ConditionalCopy
import MicroSampler.Harness.Main
import MicroSampler.Library.TwoRuns

/-!
# What the hooks of an attack can see

`Harness.main` says what the harness records; here its memory is explicit. The hooks, the
allocator and the copy under test work on one `Visible` state: the memory without the arrays
of the keys and of the durations, the contexts that the hooks get a pointer to, and the
state that the hooks and the allocator keep. A hook may be any function of it, so it may
also use a buffer that was freed, or one that was handed out again.

`calls_agree`: up to the `helper_start` of a trial the calls of the hooks, with all they see,
are those of any other run whose keys have the same earlier bits.
-/

namespace MicroSampler.Hooks

open BearSSL (Byte Word)
open Harness (HeapArray keyBit fillWordsDeterministically bufferSize)
open TwoRuns

/-! ## What is visible -/

abbrev Pointer := BitVec 64

/-- `trial_context_t`. -/
structure TrialContext where
  dest : Pointer
  dummy : Pointer
  data : Pointer
  dataLen : Pointer

/-- `global_context_t`. -/
structure GlobalContext where
  iterations : BitVec 64
  randomSeed : BitVec 32
  state : Pointer

/-- `bench_context_t`. -/
structure BenchContext where
  globalCtx : Pointer
  iteration : BitVec 64
  state : Pointer

/-- All that a hook can reach. `rest` holds the variables of the hooks and the allocator. -/
structure Visible (S : Type) where
  memory : Pointer → Byte
  globalContext : GlobalContext
  runContext : BenchContext
  trialContext : TrialContext
  rest : S

/-- The functions of `skeleton.h`. -/
inductive Hook
  | globalSetup
  | globalTeardown
  | trialSetup
  | trialInnerSetup
  | trialTeardown
  | helperStart
  | helperStop
  deriving DecidableEq

/-- Where the harness is when it calls a hook. -/
inductive Moment
  | globalSetup
  | trialSetup (i : Nat)
  | trialInnerSetup (i ki : Nat)
  | helperStart (i ki : Nat)
  | helperStop (i ki : Nat)
  | trialTeardown (i : Nat)
  | globalTeardown
  deriving DecidableEq

/-- A call of a hook: its arguments, and what it can reach through them. -/
structure Call (S : Type) where
  moment : Moment
  hook : Hook
  arguments : List Pointer
  visible : Visible S

/-- What the harness runs on. A hook that does not return, and the `free` of what is not
allocated, are `none`; `malloc` returns 0 when memory is short. An address that is not
mapped, or lies in an array of the harness, is not `accessible`. The last three are the
addresses of variables of `main`. -/
structure Platform (S : Type) where
  hook : Hook → List Pointer → Visible S → Option (Visible S)
  malloc : BitVec 64 → Visible S → Pointer × Visible S
  free : Pointer → Visible S → Option (Visible S)
  accessible : Visible S → Pointer → Bool
  hasClock : Bool
  globalContext : Pointer
  runContext : Pointer
  trialContext : Pointer

/-- What runs on the visible state. It may end the process. -/
abbrev View (S : Type) := EStateM Unit (Visible S)

variable {S : Type}

def viewed : View S (Visible S) := fun v => .ok v v

/-- The process goes on with another visible state, or ends. -/
def goOn (v' : Option (Visible S)) : View S PUnit := fun v =>
  match v' with
  | some v' => .ok ⟨⟩ v'
  | none => .error () v

/-! ## The parts of a trial -/

/-- Writes the bytes, if the process may. -/
def store (p : Platform S) (a : Pointer) (bytes : List Byte) : View S PUnit := do
  let v ← viewed
  goOn (if (List.range bytes.length).all fun j => p.accessible v (a + BitVec.ofNat 64 j) then
    some { v with memory := fun b => bytes[(b - a).toNat]?.getD (v.memory b) }
  else none)

/-- Reads `n` bytes, if the process may. -/
def load (p : Platform S) (a : Pointer) (n : Nat) : View S (List Byte) := do
  let v ← viewed
  if (List.range n).all fun j => p.accessible v (a + BitVec.ofNat 64 j) then
    return (List.range n).map fun j => v.memory (a + BitVec.ofNat 64 j)
  else throw ()

/-- The bytes of a word, the lowest first. -/
def wordBytes {w : Nat} (x : BitVec w) : List Byte :=
  (List.range (w / 8)).map fun k => (x >>> (8 * k)).setWidth 8

/-- The word of these bytes, the lowest first. -/
def ofWordBytes (w : Nat) (bytes : List Byte) : BitVec w :=
  bytes.foldr (fun b x => x <<< 8 ||| b.setWidth w) 0

def malloc (p : Platform S) (size : BitVec 64) : View S Pointer := do
  let v ← viewed
  let (a, v) := p.malloc size v
  goOn (some v)
  return a

/-- `calloc`: what it returns is zero. -/
def calloc (p : Platform S) (size : BitVec 64) : View S Pointer := do
  let a ← malloc p size
  if a ≠ 0 then store p a (List.replicate size.toNat 0)
  return a

def handleOomError (a : Pointer) : View S PUnit :=
  if a = 0 then throw () else pure ⟨⟩

def free (p : Platform S) (a : Pointer) : View S PUnit := do
  let v ← viewed
  goOn (p.free a v)

/-- `create_default_trial_context`, into the variable of `main`. -/
def createDefaultTrialContext (p : Platform S) (dataSize : Nat) : View S PUnit := do
  let bufferByteSize := BitVec.ofNat 64 dataSize * 4
  let dest ← calloc p bufferByteSize
  let dummy ← calloc p bufferByteSize
  let data ← calloc p bufferByteSize
  let dataLen ← malloc p 8
  handleOomError dest
  handleOomError dummy
  handleOomError data
  store p data ((fillWordsDeterministically dataSize 0x11111111).flatMap wordBytes)
  store p dataLen (wordBytes bufferByteSize)
  let v ← viewed
  goOn (some { v with trialContext := ⟨dest, dummy, data, dataLen⟩ })

/-- `create_global_context`, into the variable of `main`. -/
def createGlobalContext (iterations : BitVec 64) (randomSeed : BitVec 32) : View S PUnit := do
  let v ← viewed
  goOn (some { v with globalContext := ⟨iterations, randomSeed, 0⟩ })

/-- `create_context`, into the variable of `main`. -/
def createContext (p : Platform S) (iteration : BitVec 64) : View S PUnit := do
  let v ← viewed
  goOn (some { v with runContext := ⟨p.globalContext, iteration, 0⟩ })

/-- `destroy_trial_context`. -/
def destroyTrialContext (p : Platform S) (ctx : TrialContext) : View S PUnit := do
  free p ctx.dest
  free p ctx.dummy
  free p ctx.data
  free p ctx.dataLen

def memmove (p : Platform S) (dst src : Pointer) (len : BitVec 64) : View S PUnit := do
  let bytes ← load p src len.toNat
  store p dst bytes

/-- `br_ccopy_v2`. -/
def brCcopyV2 (p : Platform S) (ctl : Word) (dst dummy src : Pointer) (len : BitVec 64) :
    View S PUnit :=
  if ctl ≠ 0 then memmove p dst src len else memmove p dummy src len

/-- The call of the unit under test between the two readings of the clock. -/
def callUut (p : Platform S) (key : Word) (ctx : TrialContext) : View S PUnit := do
  let len ← load p ctx.dataLen 8
  brCcopyV2 p key ctx.dest ctx.dummy ctx.data (ofWordBytes 64 len)

/-! ## The program -/

/-- What no hook can reach: the numbers that `rand` returns one after the other, the readings
of the clock and what the arrays of `main` held before. -/
structure Hidden where
  rand : Nat → Word
  clock : Nat → BitVec 64
  freshDurations : Nat → BitVec 64
  freshKeys : Nat → Word

structure Machine (S : Type) where
  visible : Visible S
  durations : HeapArray 64
  keys : HeapArray 32
  readings : Nat
  calls : List (Call S)

abbrev Program (S : Type) := EStateM Unit (Machine S)

/-- A part of the program that keeps to the visible state. -/
def visibly {α : Type} (x : View S α) : Program S α :=
  zoom Machine.visible (fun v m => { m with visible := v }) x

/-- The function that is called at a moment. -/
def Moment.hook : Moment → Hook
  | globalSetup => .globalSetup
  | trialSetup _ => .trialSetup
  | trialInnerSetup _ _ => .trialInnerSetup
  | helperStart _ _ => .helperStart
  | helperStop _ _ => .helperStop
  | trialTeardown _ => .trialTeardown
  | globalTeardown => .globalTeardown

/-- The arguments of the call. -/
def Platform.arguments (p : Platform S) : Hook → List Pointer
  | .globalSetup | .globalTeardown => [p.globalContext]
  | .trialInnerSetup => [p.runContext, p.trialContext]
  | .trialSetup | .trialTeardown | .helperStart | .helperStop => [p.runContext]

def record (call : Call S) : Program S PUnit := fun m =>
  .ok ⟨⟩ { m with calls := m.calls ++ [call] }

def callHook (p : Platform S) (moment : Moment) : Program S PUnit := do
  let v ← visibly viewed
  let arguments := p.arguments moment.hook
  record ⟨moment, moment.hook, arguments, v⟩
  visibly (goOn (p.hook moment.hook arguments v))

/-- `monotonic_ns`; it ends the process when there is no clock. -/
def monotonicNs (p : Platform S) (h : Hidden) : Program S (BitVec 64) := fun m =>
  if p.hasClock then .ok (h.clock m.readings) { m with readings := m.readings + 1 }
  else .error () m

def readKey (i : BitVec 64) : Program S Word := fun m =>
  match m.keys.get? i with
  | some key => .ok key m
  | none => .error () m

def writeKey (i : BitVec 64) (key : Word) : Program S PUnit := fun m =>
  match m.keys.set? i key with
  | some keys => .ok ⟨⟩ { m with keys := keys }
  | none => .error () m

def writeDuration (i duration : BitVec 64) : Program S PUnit := fun m =>
  match m.durations.set? i duration with
  | some durations => .ok ⟨⟩ { m with durations := durations }
  | none => .error () m

/-- `timed_call_uut`. -/
def timedCallUut (p : Platform S) (h : Hidden) (key : Word) (ctx : TrialContext) :
    Program S (BitVec 64) := do
  let start ← monotonicNs p h
  visibly (callUut p key ctx)
  let stop ← monotonicNs p h
  return stop - start

/-- The body of the loop over the bits of a key. -/
def trial (p : Platform S) (h : Hidden) (i ki : Nat) : Program S PUnit := do
  let key ← readKey (BitVec.ofNat 64 i)
  let bit := keyBit key (BitVec.ofNat 64 ki)
  visibly (createDefaultTrialContext p bufferSize)
  callHook p (.trialInnerSetup i ki)
  callHook p (.helperStart i ki)
  let v ← visibly viewed
  let duration ← timedCallUut p h bit v.trialContext
  writeDuration (BitVec.ofNat 64 i * 32 + BitVec.ofNat 64 ki) duration
  callHook p (.helperStop i ki)
  let v ← visibly viewed
  visibly (destroyTrialContext p v.trialContext)

/-- The body of the loop over the iterations. -/
def iteration (p : Platform S) (h : Hidden) (i : Nat) : Program S PUnit := do
  writeKey (BitVec.ofNat 64 i) (h.rand i)
  visibly (createContext p (BitVec.ofNat 64 i))
  callHook p (.trialSetup i)
  forM (List.range 32) (trial p h i)
  callHook p (.trialTeardown i)

/-- The array behind a pointer that `malloc` returned. -/
def allocated {w : Nat} (fresh : Nat → BitVec w) (a : Pointer) (bytes : BitVec 64) : HeapArray w :=
  HeapArray.malloc fresh (if a = 0 then 0 else bytes)

def install (durations : HeapArray 64) (keys : HeapArray 32) : Program S PUnit := fun m =>
  .ok ⟨⟩ { m with durations := durations, keys := keys }

/-- `main` after the arguments are parsed, without the output. -/
def main (p : Platform S) (h : Hidden) (iterations : BitVec 64) (seed : BitVec 32) :
    Program S PUnit := do
  let durations ← visibly (malloc p (8 * (iterations * 32)))
  let keys ← visibly (malloc p (4 * iterations))
  install (allocated h.freshDurations durations (8 * (iterations * 32)))
    (allocated h.freshKeys keys (4 * iterations))
  visibly (createGlobalContext iterations seed)
  callHook p .globalSetup
  forM (List.range iterations.toNat) (iteration p h)
  callHook p .globalTeardown

/-- The process before `main`. -/
def Machine.initial (h : Hidden) (v : Visible S) : Machine S :=
  ⟨v, HeapArray.malloc h.freshDurations 0, HeapArray.malloc h.freshKeys 0, 0, []⟩

/-- The calls of the hooks in one run of the process. -/
def calls (p : Platform S) (h : Hidden) (iterations : BitVec 64) (seed : BitVec 32)
    (v : Visible S) : List (Call S) :=
  (final (main p h iterations seed (Machine.initial h v))).calls

/-- The calls up to the one at `m`, which is the last of them. -/
def through (m : Moment) : List (Call S) → List (Call S)
  | [] => []
  | c :: cs => if c.moment = m then [c] else c :: through m cs

/-- The runs have handled the same bits before trial `(i, ki)`. -/
def SameBefore (h₁ h₂ : Hidden) (i ki : Nat) : Prop :=
  ∀ j b, b < 32 → j < i ∨ j = i ∧ b < ki →
    keyBit (h₁.rand j) (BitVec.ofNat 64 b) = keyBit (h₂.rand j) (BitVec.ofNat 64 b)

theorem SameBefore.refl (h : Hidden) (i ki : Nat) : SameBefore h h i ki := by
  intro j b _ _
  rfl

/-! ## Calls are only added -/

/-- The calls of the first are the first calls of the second. -/
def Later (m m' : Machine S) : Prop := m.calls <+: m'.calls

theorem Later.refl (m : Machine S) : Later m m := List.prefix_refl _

theorem Later.trans (m₁ m₂ m₃ : Machine S) (h : Later m₁ m₂) (h' : Later m₂ m₃) : Later m₁ m₃ :=
  List.IsPrefix.trans h h'

theorem grows_visibly {α : Type} (x : View S α) : Grows Later (visibly x) := by
  intro m
  unfold visibly zoom
  cases x m.visible <;> exact Later.refl m

theorem grows_bind {α β : Type} {x : Program S α} {f : α → Program S β} (hx : Grows Later x)
    (hf : ∀ a, Grows Later (f a)) : Grows Later (x >>= f) :=
  Grows.bind Later.trans hx hf

theorem grows_record (call : Call S) : Grows Later (record call) := by
  intro m
  exact List.prefix_append m.calls [call]

theorem grows_callHook (p : Platform S) (moment : Moment) : Grows Later (callHook p moment) := by
  apply grows_bind (grows_visibly viewed)
  intro v
  apply grows_bind (grows_record _)
  intro _
  apply grows_visibly

theorem grows_monotonicNs (p : Platform S) (h : Hidden) :
    Grows Later (monotonicNs p h : Program S (BitVec 64)) := by
  intro m
  unfold monotonicNs
  split <;> exact Later.refl m

theorem grows_readKey (i : BitVec 64) : Grows Later (readKey i : Program S Word) := by
  intro m
  unfold readKey
  split <;> exact Later.refl m

theorem grows_writeKey (i : BitVec 64) (key : Word) :
    Grows Later (writeKey i key : Program S PUnit) := by
  intro m
  unfold writeKey
  split <;> exact Later.refl m

theorem grows_writeDuration (i duration : BitVec 64) :
    Grows Later (writeDuration i duration : Program S PUnit) := by
  intro m
  unfold writeDuration
  split <;> exact Later.refl m

theorem grows_timedCallUut (p : Platform S) (h : Hidden) (key : Word) (ctx : TrialContext) :
    Grows Later (timedCallUut p h key ctx) := by
  apply grows_bind (grows_monotonicNs p h)
  intro start
  apply grows_bind (grows_visibly (callUut p key ctx))
  intro _
  apply grows_bind (grows_monotonicNs p h)
  intro stop
  exact Grows.pure Later.refl _

/-! ## A run up to one `helper_start` -/

/-- A trial up to `helper_start`. -/
def approach (p : Platform S) (i ki : Nat) : Program S Word := do
  let key ← readKey (BitVec.ofNat 64 i)
  visibly (createDefaultTrialContext p bufferSize)
  callHook p (.trialInnerSetup i ki)
  callHook p (.helperStart i ki)
  return key

/-- The rest of the trial. -/
def conclude (p : Platform S) (h : Hidden) (i ki : Nat) (key : Word) : Program S PUnit := do
  let v ← visibly viewed
  let duration ← timedCallUut p h (keyBit key (BitVec.ofNat 64 ki)) v.trialContext
  writeDuration (BitVec.ofNat 64 i * 32 + BitVec.ofNat 64 ki) duration
  callHook p (.helperStop i ki)
  let v ← visibly viewed
  visibly (destroyTrialContext p v.trialContext)

/-- An iteration up to the first trial. -/
def prepare (p : Platform S) (h : Hidden) (i : Nat) : Program S PUnit := do
  writeKey (BitVec.ofNat 64 i) (h.rand i)
  visibly (createContext p (BitVec.ofNat 64 i))
  callHook p (.trialSetup i)

/-- A run up to the first iteration. -/
def start (p : Platform S) (h : Hidden) (iterations : BitVec 64) (seed : BitVec 32) :
    Program S PUnit := do
  let durations ← visibly (malloc p (8 * (iterations * 32)))
  let keys ← visibly (malloc p (4 * iterations))
  install (allocated h.freshDurations durations (8 * (iterations * 32)))
    (allocated h.freshKeys keys (4 * iterations))
  visibly (createGlobalContext iterations seed)
  callHook p .globalSetup

/-- A run up to the `helper_start` of trial `(i, ki)`. -/
def upTo (p : Platform S) (h : Hidden) (iterations : BitVec 64) (seed : BitVec 32) (i ki : Nat) :
    Program S Word := do
  start p h iterations seed
  forM (List.range i) (iteration p h)
  prepare p h i
  forM (List.range ki) (trial p h i)
  approach p i ki

/-- The rest of the run. -/
def remainder (p : Platform S) (h : Hidden) (iterations : BitVec 64) (i ki : Nat) (key : Word) :
    Program S PUnit := do
  conclude p h i ki key
  forM (List.range' (ki + 1) (32 - ki - 1)) (trial p h i)
  callHook p (.trialTeardown i)
  forM (List.range' (i + 1) (iterations.toNat - i - 1)) (iteration p h)
  callHook p .globalTeardown

theorem trial_eq (p : Platform S) (h : Hidden) (i ki : Nat) :
    trial p h i ki = approach p i ki >>= conclude p h i ki := by
  simp only [trial, approach, conclude, bind_assoc, pure_bind]

theorem range_split {n i : Nat} (hi : i < n) :
    List.range n = List.range i ++ i :: List.range' (i + 1) (n - i - 1) := by
  rw [← List.range'_succ, List.range_eq_range', List.range_eq_range']
  have h := List.range'_append_1 (s := 0) (m := i) (n := n - i - 1 + 1)
  rw [Nat.zero_add] at h
  rw [h]
  congr 1
  omega

theorem main_eq (p : Platform S) (h : Hidden) {iterations : BitVec 64} (seed : BitVec 32)
    {i ki : Nat} (hi : i < iterations.toNat) (hki : ki < 32) :
    main p h iterations seed =
      upTo p h iterations seed i ki >>= remainder p h iterations i ki := by
  have hiteration : iteration p h i = (do
      prepare p h i
      forM (List.range ki) (trial p h i)
      let key ← approach p i ki
      conclude p h i ki key
      forM (List.range' (ki + 1) (32 - ki - 1)) (trial p h i)
      callHook p (.trialTeardown i)) := by
    unfold iteration prepare
    rw [range_split hki, List.forM_append, List.forM_cons, trial_eq]
    simp only [bind_assoc]
  unfold main upTo start remainder
  rw [range_split hi, List.forM_append, List.forM_cons, hiteration]
  simp only [bind_assoc]

theorem grows_conclude (p : Platform S) (h : Hidden) (i ki : Nat) (key : Word) :
    Grows Later (conclude p h i ki key) := by
  apply grows_bind (grows_visibly viewed)
  intro v
  apply grows_bind (grows_timedCallUut p h _ _)
  intro duration
  apply grows_bind (grows_writeDuration _ _)
  intro _
  apply grows_bind (grows_callHook p _)
  intro _
  apply grows_bind (grows_visibly viewed)
  intro v
  apply grows_visibly

theorem grows_trial (p : Platform S) (h : Hidden) (i ki : Nat) : Grows Later (trial p h i ki) := by
  rw [trial_eq]
  refine grows_bind ?_ (grows_conclude p h i ki)
  apply grows_bind (grows_readKey _)
  intro key
  apply grows_bind (grows_visibly _)
  intro _
  apply grows_bind (grows_callHook p _)
  intro _
  apply grows_bind (grows_callHook p _)
  intro _
  exact Grows.pure Later.refl key

theorem grows_iteration (p : Platform S) (h : Hidden) (i : Nat) :
    Grows Later (iteration p h i) := by
  apply grows_bind (grows_writeKey _ _)
  intro _
  apply grows_bind (grows_visibly _)
  intro _
  apply grows_bind (grows_callHook p _)
  intro _
  apply grows_bind (Grows.forM Later.refl Later.trans (grows_trial p h i) _)
  intro _
  apply grows_callHook

theorem grows_remainder (p : Platform S) (h : Hidden) (iterations : BitVec 64) (i ki : Nat)
    (key : Word) : Grows Later (remainder p h iterations i ki key) := by
  apply grows_bind (grows_conclude p h i ki key)
  intro _
  apply grows_bind (Grows.forM Later.refl Later.trans (grows_trial p h i) _)
  intro _
  apply grows_bind (grows_callHook p _)
  intro _
  apply grows_bind (Grows.forM Later.refl Later.trans (grows_iteration p h) _)
  intro _
  apply grows_callHook

/-! ## Two runs with the same earlier bits -/

/-- All that the hooks can tell apart is equal, and so are the sizes of the arrays. -/
structure Alike (m₁ m₂ : Machine S) : Prop where
  visible : m₁.visible = m₂.visible
  calls : m₁.calls = m₂.calls
  durations : m₁.durations.cells.length = m₂.durations.cells.length
  keys : m₁.keys.cells.length = m₂.keys.cells.length

/-- Each run has drawn its own key of iteration `i`. -/
structure Drawn (h₁ h₂ : Hidden) (i : Nat) (m₁ m₂ : Machine S) : Prop extends Alike m₁ m₂ where
  left : m₁.keys.get? (BitVec.ofNat 64 i) = some (h₁.rand i)
  right : m₂.keys.get? (BitVec.ofNat 64 i) = some (h₂.rand i)

/-- A relation that neither the hidden readings of the clock nor a common step of the visible
state and of the calls can break. -/
structure Blind (R : Machine S → Machine S → Prop) : Prop where
  alike : ∀ m₁ m₂, R m₁ m₂ → Alike m₁ m₂
  visible : ∀ m₁ m₂ v, R m₁ m₂ → R { m₁ with visible := v } { m₂ with visible := v }
  calls : ∀ m₁ m₂ call, R m₁ m₂ →
    R { m₁ with calls := m₁.calls ++ [call] } { m₂ with calls := m₂.calls ++ [call] }
  readings : ∀ m₁ m₂ n₁ n₂, R m₁ m₂ → R { m₁ with readings := n₁ } { m₂ with readings := n₂ }
  durations : ∀ m₁ m₂ d₁ d₂, d₁.cells.length = d₂.cells.length → R m₁ m₂ →
    R { m₁ with durations := d₁ } { m₂ with durations := d₂ }

theorem blind_alike : Blind (Alike (S := S)) where
  alike _ _ h := h
  visible _ _ _ h := ⟨rfl, h.calls, h.durations, h.keys⟩
  calls _ _ call h := ⟨h.visible, congrArg (· ++ [call]) h.calls, h.durations, h.keys⟩
  readings _ _ _ _ h := ⟨h.visible, h.calls, h.durations, h.keys⟩
  durations _ _ _ _ hd h := ⟨h.visible, h.calls, hd, h.keys⟩

theorem blind_drawn (h₁ h₂ : Hidden) (i : Nat) : Blind (Drawn (S := S) h₁ h₂ i) where
  alike _ _ h := h.toAlike
  visible _ _ v h := ⟨blind_alike.visible _ _ v h.toAlike, h.left, h.right⟩
  calls _ _ call h := ⟨blind_alike.calls _ _ call h.toAlike, h.left, h.right⟩
  readings _ _ n₁ n₂ h := ⟨blind_alike.readings _ _ n₁ n₂ h.toAlike, h.left, h.right⟩
  durations _ _ _ _ hd h := ⟨blind_alike.durations _ _ _ _ hd h.toAlike, h.left, h.right⟩

/-- Two runs that stop together have made the same calls. -/
def SameCalls (m₁ m₂ : Machine S) : Prop := m₁.calls = m₂.calls

section Steps

variable {R : Machine S → Machine S → Prop}

theorem coupled_visibly (hR : Blind R) {α : Type} (x : View S α) :
    Coupled R (visibly x) (visibly x) (fun a b m₁ m₂ => a = b ∧ R m₁ m₂) SameCalls := by
  apply Coupled.zoom
  · intro m₁ m₂ hm
    exact (hR.alike m₁ m₂ hm).visible
  · intro m₁ m₂ v hm
    exact hR.visible m₁ m₂ v hm
  · intro m₁ m₂ hm
    exact (hR.alike m₁ m₂ hm).calls

theorem coupled_record (hR : Blind R) (call : Call S) :
    Coupled R (record call) (record call) (fun _ _ => R) SameCalls := by
  intro m₁ m₂ hm
  exact Paired.ok (hR.calls m₁ m₂ call hm)

theorem coupled_callHook (hR : Blind R) (p : Platform S) (moment : Moment) :
    Coupled R (callHook p moment) (callHook p moment) (fun _ _ => R) SameCalls := by
  apply (coupled_visibly hR viewed).bind_same
  intro v
  apply (coupled_record hR _).bind
  intro _ _
  apply (coupled_visibly hR _).mono (fun _ _ h => h)
  exact fun _ _ _ _ h => h.2

theorem coupled_monotonicNs (hR : Blind R) (p : Platform S) (h₁ h₂ : Hidden) :
    Coupled R (monotonicNs p h₁) (monotonicNs p h₂) (fun _ _ => R) SameCalls := by
  intro m₁ m₂ hm
  unfold monotonicNs
  by_cases hclock : p.hasClock
  · rw [if_pos hclock, if_pos hclock]
    exact Paired.ok (hR.readings m₁ m₂ _ _ hm)
  · rw [if_neg hclock, if_neg hclock]
    exact Paired.error (hR.alike m₁ m₂ hm).calls

/-- The copy works on the visible state, with one and the same bit. -/
theorem coupled_timedCallUut (hR : Blind R) (p : Platform S) (h₁ h₂ : Hidden) (key : Word)
    (ctx : TrialContext) :
    Coupled R (timedCallUut p h₁ key ctx) (timedCallUut p h₂ key ctx) (fun _ _ => R)
      SameCalls := by
  apply (coupled_monotonicNs hR p h₁ h₂).bind
  intro start₁ start₂
  apply (coupled_visibly hR _).bind_same
  intro _
  apply (coupled_monotonicNs hR p h₁ h₂).bind
  intro stop₁ stop₂
  exact Coupled.pure fun _ _ h => h

/-- Writes at one index of two arrays of one size. -/
theorem set?_cases {w : Nat} {a b : HeapArray w} (h : a.cells.length = b.cells.length)
    (i : BitVec 64) (x y : BitVec w) :
    (∃ a' b', a.set? i x = some a' ∧ b.set? i y = some b' ∧
      a'.cells.length = b'.cells.length ∧ a'.get? i = some x ∧ b'.get? i = some y) ∨
    (a.set? i x = none ∧ b.set? i y = none) := by
  unfold HeapArray.set? HeapArray.get?
  by_cases hi : i.toNat < a.cells.length
  · have hi' : i.toNat < b.cells.length := h ▸ hi
    left
    refine ⟨_, _, if_pos hi, if_pos hi', ?_, ?_, ?_⟩
    · simpa only [List.length_set] using h
    · exact List.getElem?_set_self hi
    · exact List.getElem?_set_self hi'
  · right
    exact ⟨if_neg hi, if_neg (h ▸ hi)⟩

theorem coupled_writeDuration (hR : Blind R) (i d₁ d₂ : BitVec 64) :
    Coupled R (writeDuration i d₁) (writeDuration i d₂) (fun _ _ => R) SameCalls := by
  intro m₁ m₂ hm
  have hlength := (hR.alike m₁ m₂ hm).durations
  unfold writeDuration
  rcases set?_cases hlength i d₁ d₂ with ⟨a, b, ha, hb, hab, -, -⟩ | ⟨ha, hb⟩
  · rw [ha, hb]
    exact Paired.ok (hR.durations m₁ m₂ a b hab hm)
  · rw [ha, hb]
    exact Paired.error (hR.alike m₁ m₂ hm).calls

end Steps

theorem coupled_writeKey (h₁ h₂ : Hidden) (i : Nat) :
    Coupled Alike (writeKey (S := S) (BitVec.ofNat 64 i) (h₁.rand i))
      (writeKey (BitVec.ofNat 64 i) (h₂.rand i)) (fun _ _ => Drawn h₁ h₂ i) SameCalls := by
  intro m₁ m₂ hm
  unfold writeKey
  rcases set?_cases hm.keys (BitVec.ofNat 64 i) (h₁.rand i) (h₂.rand i) with
    ⟨a, b, ha, hb, hab, hleft, hright⟩ | ⟨ha, hb⟩
  · rw [ha, hb]
    exact Paired.ok ⟨⟨hm.visible, hm.calls, hm.durations, hab⟩, hleft, hright⟩
  · rw [ha, hb]
    exact Paired.error hm.calls

theorem coupled_readKey (h₁ h₂ : Hidden) (i : Nat) :
    Coupled (Drawn (S := S) h₁ h₂ i) (readKey (BitVec.ofNat 64 i)) (readKey (BitVec.ofNat 64 i))
      (fun key₁ key₂ m₁ m₂ => (key₁ = h₁.rand i ∧ key₂ = h₂.rand i) ∧ Drawn h₁ h₂ i m₁ m₂)
      SameCalls := by
  intro m₁ m₂ hm
  unfold readKey
  rw [hm.left, hm.right]
  exact Paired.ok ⟨⟨rfl, rfl⟩, hm⟩

/-- The call at `moment` has been made. -/
def Reached (moment : Moment) (m : Machine S) : Prop := ∃ c ∈ m.calls, c.moment = moment

theorem reached_of_callHook {p : Platform S} {moment : Moment} {m m' : Machine S} {u : PUnit}
    (h : callHook p moment m = .ok u m') : Reached moment m' := by
  have hgrows := grows_visibly (goOn (p.hook moment.hook (p.arguments moment.hook) m.visible))
    { m with calls := m.calls ++ [⟨moment, moment.hook, p.arguments moment.hook, m.visible⟩] }
  change visibly (goOn (p.hook moment.hook (p.arguments moment.hook) m.visible)) _ = _ at h
  rw [h] at hgrows
  exact ⟨_, hgrows.subset (List.mem_append_right _ (List.mem_singleton_self _)), rfl⟩

/-- Up to `helper_start` no bit of the key is used. -/
theorem coupled_approach (p : Platform S) (h₁ h₂ : Hidden) (i ki : Nat) :
    Coupled (Drawn h₁ h₂ i) (approach p i ki) (approach p i ki)
      (fun key₁ key₂ m₁ m₂ => (key₁ = h₁.rand i ∧ key₂ = h₂.rand i) ∧ Drawn h₁ h₂ i m₁ m₂ ∧
        Reached (.helperStart i ki) m₁) SameCalls := by
  have hR := blind_drawn (S := S) h₁ h₂ i
  apply (coupled_readKey h₁ h₂ i).bind
  intro key₁ key₂ m₁ m₂ hkey
  obtain ⟨hkeys, hm⟩ := hkey
  revert m₁ m₂
  apply (coupled_visibly hR _).bind_same
  intro _
  apply (coupled_callHook hR p _).bind
  intro _ _
  apply ((coupled_callHook hR p _).and_left fun _ _ _ h => reached_of_callHook h).bind
  intro _ _
  exact Coupled.pure fun _ _ h => ⟨hkeys, h⟩

theorem coupled_conclude {p : Platform S} {h₁ h₂ : Hidden} {i ki : Nat}
    (hbit : keyBit (h₁.rand i) (BitVec.ofNat 64 ki) = keyBit (h₂.rand i) (BitVec.ofNat 64 ki)) :
    Coupled (Drawn h₁ h₂ i) (conclude p h₁ i ki (h₁.rand i)) (conclude p h₂ i ki (h₂.rand i))
      (fun _ _ => Drawn h₁ h₂ i) SameCalls := by
  have hR := blind_drawn (S := S) h₁ h₂ i
  unfold conclude
  rw [hbit]
  apply (coupled_visibly hR viewed).bind_same
  intro v
  apply (coupled_timedCallUut hR p h₁ h₂ _ _).bind
  intro d₁ d₂
  apply (coupled_writeDuration hR _ d₁ d₂).bind
  intro _ _
  apply (coupled_callHook hR p _).bind
  intro _ _
  apply (coupled_visibly hR viewed).bind_same
  intro v
  apply (coupled_visibly hR _).mono (fun _ _ h => h)
  exact fun _ _ _ _ h => h.2

theorem coupled_trial {p : Platform S} {h₁ h₂ : Hidden} {i ki : Nat}
    (hbit : keyBit (h₁.rand i) (BitVec.ofNat 64 ki) = keyBit (h₂.rand i) (BitVec.ofNat 64 ki)) :
    Coupled (Drawn h₁ h₂ i) (trial p h₁ i ki) (trial p h₂ i ki) (fun _ _ => Drawn h₁ h₂ i)
      SameCalls := by
  rw [trial_eq, trial_eq]
  apply (coupled_approach p h₁ h₂ i ki).bind
  intro key₁ key₂ m₁ m₂ hm
  obtain ⟨⟨rfl, rfl⟩, hm, -⟩ := hm
  exact coupled_conclude hbit m₁ m₂ hm

theorem coupled_prepare (p : Platform S) (h₁ h₂ : Hidden) (i : Nat) :
    Coupled Alike (prepare p h₁ i) (prepare p h₂ i) (fun _ _ => Drawn h₁ h₂ i) SameCalls := by
  have hR := blind_drawn (S := S) h₁ h₂ i
  apply (coupled_writeKey h₁ h₂ i).bind
  intro _ _
  apply (coupled_visibly hR _).bind_same
  intro _
  exact coupled_callHook hR p _

/-- The first `n` trials of an iteration. -/
theorem coupled_trials {p : Platform S} {h₁ h₂ : Hidden} {i n : Nat}
    (hbits : ∀ b < n, keyBit (h₁.rand i) (BitVec.ofNat 64 b) =
      keyBit (h₂.rand i) (BitVec.ofNat 64 b)) :
    Coupled (Drawn h₁ h₂ i) (forM (List.range n) (trial p h₁ i))
      (forM (List.range n) (trial p h₂ i)) (fun _ _ => Drawn h₁ h₂ i) SameCalls := by
  apply Coupled.forM
  intro k hk
  exact coupled_trial (hbits k (List.mem_range.mp hk))

theorem iteration_eq (p : Platform S) (h : Hidden) (i : Nat) :
    iteration p h i = (do
      prepare p h i
      forM (List.range 32) (trial p h i)
      callHook p (.trialTeardown i)) := by
  simp only [iteration, prepare, bind_assoc]

theorem coupled_iteration {p : Platform S} {h₁ h₂ : Hidden} {i : Nat}
    (hbits : ∀ b < 32, keyBit (h₁.rand i) (BitVec.ofNat 64 b) =
      keyBit (h₂.rand i) (BitVec.ofNat 64 b)) :
    Coupled Alike (iteration p h₁ i) (iteration p h₂ i) (fun _ _ => Alike) SameCalls := by
  rw [iteration_eq, iteration_eq]
  apply (coupled_prepare p h₁ h₂ i).bind
  intro _ _
  apply (coupled_trials hbits).bind
  intro _ _
  apply (coupled_callHook (blind_drawn h₁ h₂ i) p _).mono (fun _ _ h => h)
  exact fun _ _ _ _ h => h.toAlike

theorem coupled_start (p : Platform S) (h₁ h₂ : Hidden) (iterations : BitVec 64)
    (seed : BitVec 32) :
    Coupled Alike (start p h₁ iterations seed) (start p h₂ iterations seed) (fun _ _ => Alike)
      SameCalls := by
  have hR := blind_alike (S := S)
  apply (coupled_visibly hR _).bind_same
  intro durations
  apply (coupled_visibly hR _).bind_same
  intro keys
  apply Coupled.bind (Q := fun _ _ => Alike)
  · intro m₁ m₂ hm
    refine Paired.ok ⟨hm.visible, hm.calls, ?_, ?_⟩
    · simp only [allocated, HeapArray.length_malloc]
    · simp only [allocated, HeapArray.length_malloc]
  intro _ _
  apply (coupled_visibly hR _).bind_same
  intro _
  exact coupled_callHook hR p _

theorem coupled_upTo {p : Platform S} {h₁ h₂ : Hidden} (iterations : BitVec 64)
    (seed : BitVec 32) {i ki : Nat} (hki : ki < 32) (hpast : SameBefore h₁ h₂ i ki) :
    Coupled Alike (upTo p h₁ iterations seed i ki) (upTo p h₂ iterations seed i ki)
      (fun _ _ m₁ m₂ => Alike m₁ m₂ ∧ Reached (.helperStart i ki) m₁) SameCalls := by
  apply (coupled_start p h₁ h₂ iterations seed).bind
  intro _ _
  apply Coupled.bind (Q := fun _ _ => Alike)
  · apply Coupled.forM
    intro j hj
    apply coupled_iteration
    intro b hb
    exact hpast j b hb (.inl (List.mem_range.mp hj))
  intro _ _
  apply (coupled_prepare p h₁ h₂ i).bind
  intro _ _
  apply (coupled_trials ?_).bind
  · intro _ _
    apply (coupled_approach p h₁ h₂ i ki).mono (fun _ _ h => h)
    exact fun _ _ _ _ h => ⟨h.2.1.toAlike, h.2.2⟩
  · intro b hb
    exact hpast i b (hb.trans hki) (.inr ⟨rfl, hb⟩)

/-! ## What the hooks see of a trial -/

theorem through_append {moment : Moment} {cs : List (Call S)} (h : ∃ c ∈ cs, c.moment = moment)
    (more : List (Call S)) : through moment (cs ++ more) = through moment cs := by
  induction cs with
  | nil => simp at h
  | cons c cs ih =>
    rw [List.cons_append, through, through]
    by_cases hc : c.moment = moment
    · rw [if_pos hc, if_pos hc]
    · rw [if_neg hc, if_neg hc]
      congr 1
      apply ih
      obtain ⟨c', hc', hmoment⟩ := h
      rcases List.mem_cons.mp hc' with rfl | hmem
      · exact absurd hmoment hc
      · exact ⟨c', hmem, hmoment⟩

theorem alike_initial (h₁ h₂ : Hidden) (v : Visible S) :
    Alike (Machine.initial h₁ v) (Machine.initial h₂ v) where
  visible := rfl
  calls := rfl
  durations := by simp only [Machine.initial, HeapArray.length_malloc]
  keys := by simp only [Machine.initial, HeapArray.length_malloc]

theorem through_remainder {p : Platform S} {iterations : BitVec 64} {i ki : Nat} {m : Machine S}
    (hm : Reached (.helperStart i ki) m) (h : Hidden) (key : Word) :
    through (.helperStart i ki) (final (remainder p h iterations i ki key m)).calls =
      through (.helperStart i ki) m.calls := by
  obtain ⟨more, hmore⟩ := grows_remainder p h iterations i ki key m
  rw [← hmore]
  exact through_append hm more

/-- **The hooks cannot see the class of the trial they prepare.** Two runs that differ in what
is hidden, and have handled the same bits before trial `(i, ki)`, call the same hooks with the
same arguments on the same memory up to the `helper_start` of this trial. -/
theorem calls_agree (p : Platform S) {h₁ h₂ : Hidden} (iterations : BitVec 64)
    (seed : BitVec 32) (v : Visible S) {i ki : Nat} (hi : i < iterations.toNat) (hki : ki < 32)
    (hpast : SameBefore h₁ h₂ i ki) :
    through (.helperStart i ki) (calls p h₁ iterations seed v) =
      through (.helperStart i ki) (calls p h₂ iterations seed v) := by
  unfold calls
  rw [main_eq p h₁ seed hi hki, main_eq p h₂ seed hi hki]
  have hboth := coupled_upTo (p := p) iterations seed hki hpast
  apply hboth.final_bind (alike_initial h₁ h₂ v)
    (P := fun m₁ m₂ : Machine S =>
      through (.helperStart i ki) m₁.calls = through (.helperStart i ki) m₂.calls)
  · intro m₁ m₂ hm
    exact congrArg _ hm
  · intro key₁ key₂ m₁ m₂ hm
    obtain ⟨halike, hreached⟩ := hm
    have hreached₂ : Reached (.helperStart i ki) m₂ := by
      unfold Reached
      rw [← halike.calls]
      exact hreached
    rw [through_remainder hreached h₁ key₁, through_remainder hreached₂ h₂ key₂, halike.calls]

/-- Addresses are handed out one after the other, and the hooks count their calls. -/
def bumpPlatform : Platform (Pointer × Nat) where
  hook _ _ v := some { v with rest := (v.rest.1, v.rest.2 + 1) }
  malloc size v := (v.rest.1, { v with rest := (v.rest.1 + size, v.rest.2) })
  free _ v := some v
  accessible _ a := a ≠ 0
  hasClock := true
  globalContext := 0x7fff0000
  runContext := 0x7fff0100
  trialContext := 0x7fff0200

/-- All bits of the keys are zero but bit `b` of the second key. -/
def hiddenWithBit (b : Nat) : Hidden where
  rand n := if n = 1 then 1 <<< b else 0
  clock n := BitVec.ofNat 64 n
  freshDurations _ := 0
  freshKeys _ := 0

/-- The runs differ from bit 3 of the second key on. -/
theorem calls_agree_bump :
    through (.helperStart 1 3) (calls bumpPlatform (hiddenWithBit 3) 2 7
      ⟨fun _ => 0, ⟨0, 0, 0⟩, ⟨0, 0, 0⟩, ⟨0, 0, 0, 0⟩, (0x1000, 0)⟩) =
    through (.helperStart 1 3) (calls bumpPlatform (hiddenWithBit 5) 2 7
      ⟨fun _ => 0, ⟨0, 0, 0⟩, ⟨0, 0, 0⟩, ⟨0, 0, 0, 0⟩, (0x1000, 0)⟩) := by
  apply calls_agree bumpPlatform 2 7 _ (by decide) (by decide)
  intro j b _ hpast
  rcases hpast with hj | ⟨rfl, hb⟩
  · have hzero : j = 0 := by omega
    subst hzero
    rfl
  · have hbits : ∀ c < 3, keyBit ((hiddenWithBit 3).rand 1) (BitVec.ofNat 64 c) =
        keyBit ((hiddenWithBit 5).rand 1) (BitVec.ofNat 64 c) := by decide
    exact hbits b hb

/-- A run that comes to its end has made the `helper_start` call of every trial. -/
theorem helperStart_mem_of_finished {p : Platform S} {h : Hidden} {iterations : BitVec 64}
    {seed : BitVec 32} {v : Visible S} {u : PUnit} {m : Machine S}
    (hrun : main p h iterations seed (Machine.initial h v) = .ok u m) {i ki : Nat}
    (hi : i < iterations.toNat) (hki : ki < 32) :
    ∃ c ∈ calls p h iterations seed v, c.moment = .helperStart i ki := by
  have hself := coupled_upTo (p := p) iterations seed hki (SameBefore.refl h i ki) _ _
    (alike_initial h h v)
  have hfinal : calls p h iterations seed v = m.calls := by
    unfold calls
    rw [hrun]
    rfl
  rw [main_eq p h seed hi hki] at hrun
  obtain ⟨key, m', hupTo, hremainder⟩ := bind_eq_ok hrun
  have hlater := grows_remainder p h iterations i ki key m'
  rw [hupTo] at hself
  rw [hremainder] at hlater
  rw [hfinal]
  cases hself with
  | ok hm =>
    obtain ⟨c, hc, hmoment⟩ := hm.2
    exact ⟨c, hlater.subset hc, hmoment⟩

end MicroSampler.Hooks
