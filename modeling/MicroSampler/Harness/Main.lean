import MicroSampler.Harness.Output

/-!
# The measuring loop of the timing harness

`main` draws a key for each iteration and times one call of the unit under test for each of
its 32 bits. The code under test, the attack and the C library are a `Client` over a world
of its own; each of its calls may end the process. The machine keeps, beside the two arrays
of the program, the calls of `timed_call_uut` in the order they were made.

`main_calls`: the class that the output recomputes from the key array is the control bit
that the unit under test was called with, in the very trial whose duration stands beside it.
-/

namespace MicroSampler.Harness

open Json Loops

/-! ## The program -/

/-- `trial_context_t`. -/
structure TrialContext where
  dest : List (BitVec 32)
  dummy : List (BitVec 32)
  data : List (BitVec 32)
  dataLen : BitVec 64

/-- What the harness calls. A call that does not return is `none`. -/
structure Client (W : Type) where
  srand : BitVec 32 → W → W
  rand : W → BitVec 32 × W
  calloc : W → Option W
  globalSetup : GlobalContext → W → Option W
  globalTeardown : GlobalContext → W → Option W
  trialSetup : GlobalContext → BitVec 64 → W → Option W
  trialInnerSetup : GlobalContext → BitVec 64 → TrialContext → W → Option (TrialContext × W)
  trialTeardown : GlobalContext → BitVec 64 → W → Option W
  helperStart : GlobalContext → BitVec 64 → W → Option W
  helperStop : GlobalContext → BitVec 64 → W → Option W
  timedCallUut : BitVec 32 → TrialContext → W → Option (BitVec 64 × W)
  freshDurations : Nat → BitVec 64
  freshKeys : Nat → BitVec 32

/-- `fill_words_deterministically`: the words of a linear congruential generator. -/
def fillWordsDeterministically : Nat → BitVec 32 → List (BitVec 32)
  | 0, _ => []
  | n + 1, v =>
    let v := v * 1664525 + 1013904223
    v :: fillWordsDeterministically n v

/-- `create_default_trial_context`; it ends the process when memory is short. -/
def createDefaultTrialContext {W : Type} (client : Client W) (dataSize : Nat) (w : W) :
    Option (TrialContext × W) := do
  let w ← client.calloc w
  pure ({ dest := List.replicate dataSize 0
          dummy := List.replicate dataSize 0
          data := fillWordsDeterministically dataSize 0x11111111
          dataLen := BitVec.ofNat 64 dataSize * 4 }, w)

def bufferSize : Nat := 1024

/-- One call of `timed_call_uut`: the control bit it got and the duration it returned. -/
structure Call where
  control : BitVec 32
  duration : BitVec 64
  deriving DecidableEq

structure Machine (W : Type) where
  world : W
  durations : HeapArray 64
  keys : HeapArray 32
  calls : List Call

/-- The body of the loop over the bits of a key. -/
def trial {W : Type} (client : Client W) (ctx : GlobalContext) (i : BitVec 64) (m : Machine W)
    (k : Nat) : Option (Machine W) := do
  let ki := BitVec.ofNat 64 k
  let key ← m.keys.get? i
  let bit := keyBit key ki
  let (trialContext, w) ← createDefaultTrialContext client bufferSize m.world
  let (trialContext, w) ← client.trialInnerSetup ctx i trialContext w
  let w ← client.helperStart ctx i w
  let (duration, w) ← client.timedCallUut bit trialContext w
  let durations ← m.durations.set? (i * 32 + ki) duration
  let w ← client.helperStop ctx i w
  pure ⟨w, durations, m.keys, m.calls ++ [⟨bit, duration⟩]⟩

/-- The body of the loop over the iterations. -/
def iteration {W : Type} (client : Client W) (ctx : GlobalContext) (m : Machine W) (n : Nat) :
    Option (Machine W) := do
  let i := BitVec.ofNat 64 n
  let (key, w) := client.rand m.world
  let keys ← m.keys.set? i key
  let w ← client.trialSetup ctx i w
  let m ← (List.range 32).foldlM (trial client ctx i) ⟨w, m.durations, keys, m.calls⟩
  let w ← client.trialTeardown ctx i m.world
  pure { m with world := w }

/-- A number read by `sscanf`: blanks, a sign and digits; past 64 bits the largest word. -/
def scanUnsigned (s : List Char) : Option (BitVec 64) :=
  let s := s.dropWhile fun c => c = ' ' || ('\t' ≤ c && c ≤ '\r')
  let negative : Bool := s.head? = some '-'
  let body := if negative || s.head? = some '+' then s.tail else s
  let ds := body.takeWhile Char.isDigit
  if ds = [] then none
  else
    let n := Nat.ofDigitChars 10 ds 0
    if 2 ^ 64 ≤ n then some (BitVec.allOnes 64)
    else if negative then some (-BitVec.ofNat 64 n)
    else some (BitVec.ofNat 64 n)

/-- The arguments behind the program name: the iterations and the seed. What is not there
or is no number leaves the default. -/
def parseArguments (now : BitVec 32) (argv : List (List Char)) : GlobalContext where
  iterations := ((argv[0]?).bind scanUnsigned).getD 1
  randomSeed := (((argv[1]?).bind scanUnsigned).map (BitVec.setWidth 32)).getD now

/-- The loop nest on fresh arrays of `sizeof(uint64_t) * iterations * 32` and
`sizeof(uint32_t) * iterations` bytes. -/
def measure {W : Type} (client : Client W) (ctx : GlobalContext) (w : W) :
    Option (Machine W) := do
  let w := client.srand ctx.randomSeed w
  let durations := HeapArray.malloc client.freshDurations (8 * (ctx.iterations * 32))
  let keys := HeapArray.malloc client.freshKeys (4 * ctx.iterations)
  let w ← client.globalSetup ctx w
  let m ← (List.range ctx.iterations.toNat).foldlM (iteration client ctx) ⟨w, durations, keys, []⟩
  let w ← client.globalTeardown ctx m.world
  pure { m with world := w }

/-- `main`: the calls it made and what it printed. -/
def main {W : Type} (client : Client W) (now : BitVec 32) (argv : List (List Char)) (w : W) :
    Option (List Call × List Char) := do
  let ctx := parseArguments now argv
  let m ← measure client ctx w
  let text ← generateJsonOutput ctx m.durations m.keys
  pure (m.calls, text)

/-! ## What a trial records -/

/-- The first `c` trials stand in the machine: trial `j` was called with bit `j % 32` of key
`j / 32`, and its duration is at index `j`. -/
structure Recorded {W : Type} (m : Machine W) (c : Nat) : Prop where
  length_calls : m.calls.length = c
  call : ∀ j < c, ∃ key duration, m.keys.cells[j / 32]? = some key ∧
    m.durations.cells[j]? = some duration ∧
    m.calls[j]? = some ⟨key >>> (j % 32) &&& 1, duration⟩

namespace Recorded

variable {W : Type} {m : Machine W} {c : Nat}

theorem le_length (h : Recorded m c) : c ≤ m.durations.cells.length := by
  rcases Nat.eq_zero_or_pos c with rfl | hc
  · exact Nat.zero_le _
  · obtain ⟨-, d, -, hd, -⟩ := h.call (c - 1) (by omega)
    obtain ⟨hlt, -⟩ := List.getElem?_eq_some_iff.mp hd
    omega

theorem lt_size (h : Recorded m c) : c < 2 ^ 61 := by
  have h1 := h.le_length
  have h2 := m.durations.size_lt
  omega

theorem le_keys {n : Nat} (h : Recorded m (n * 32)) : n ≤ m.keys.cells.length := by
  rcases Nat.eq_zero_or_pos n with rfl | hn
  · exact Nat.zero_le _
  · obtain ⟨key, -, hkey, -, -⟩ := h.call (n * 32 - 1) (by omega)
    obtain ⟨hlt, -⟩ := List.getElem?_eq_some_iff.mp hkey
    omega

end Recorded

theorem set?_eq_some_iff {w : Nat} {a b : HeapArray w} {i : BitVec 64} {v : BitVec w} :
    a.set? i v = some b ↔ i.toNat < a.cells.length ∧ b.cells = a.cells.set i.toNat v := by
  cases b with
  | mk cells size_lt =>
    unfold HeapArray.set?
    split
    · rename_i hlt
      simp [hlt, eq_comm]
    · rename_i hlt
      simp [hlt]

/-- What one trial does: it times one call, with a bit of the stored key, and stores the
duration. -/
theorem trial_cases {W : Type} {client : Client W} {ctx : GlobalContext} {i : BitVec 64}
    {m m' : Machine W} {k : Nat} (h : trial client ctx i m k = some m') :
    ∃ key duration, m.keys.get? i = some key ∧ m'.keys = m.keys ∧
      m.durations.set? (i * 32 + BitVec.ofNat 64 k) duration = some m'.durations ∧
      m'.calls = m.calls ++ [⟨keyBit key (BitVec.ofNat 64 k), duration⟩] := by
  simp only [trial, Option.bind_eq_bind, Option.bind_eq_some_iff, Option.pure_def,
    Option.some.injEq] at h
  obtain ⟨key, hkey, -, -, -, -, -, -, timed, -, durations, hset, -, -, rfl⟩ := h
  exact ⟨key, timed.1, hkey, rfl, hset, rfl⟩

theorem Recorded.trial {W : Type} {client : Client W} {ctx : GlobalContext} {m m' : Machine W}
    {n k : Nat} (hk : k < 32) (hm : Recorded m (n * 32 + k))
    (h : trial client ctx (BitVec.ofNat 64 n) m k = some m') :
    Recorded m' (n * 32 + k + 1) ∧ m'.keys = m.keys := by
  obtain ⟨key, duration, hkey, hkeys, hset, hcalls⟩ := trial_cases h
  have hsize := hm.lt_size
  have hn : (BitVec.ofNat 64 n).toNat = n := by
    rw [BitVec.toNat_ofNat, Nat.mod_eq_of_lt (by omega)]
  have hki : (BitVec.ofNat 64 k).toNat = k := Run.toNat_bit hk
  have h32 : (32 : BitVec 64).toNat = 32 := rfl
  have hindex : (BitVec.ofNat 64 n * 32 + BitVec.ofNat 64 k).toNat = n * 32 + k := by
    rw [BitVec.toNat_add, BitVec.toNat_mul, hn, hki, h32]
    omega
  obtain ⟨hlt, hcells⟩ := set?_eq_some_iff.mp hset
  rw [hindex] at hlt hcells
  rw [HeapArray.get?, hn] at hkey
  refine ⟨⟨by rw [hcalls, List.length_append, hm.length_calls]; rfl, fun j hj => ?_⟩, hkeys⟩
  rcases Nat.lt_succ_iff_lt_or_eq.mp hj with hj | rfl
  · obtain ⟨key', duration', hk', hd', hc'⟩ := hm.call j hj
    refine ⟨key', duration', by rw [hkeys]; exact hk', ?_, ?_⟩
    · rw [hcells, List.getElem?_set_ne (by omega)]
      exact hd'
    · rw [hcalls, List.getElem?_append_left (by rw [hm.length_calls]; exact hj)]
      exact hc'
  · have hdiv : (n * 32 + k) / 32 = n := by omega
    have hmod : (n * 32 + k) % 32 = k := by omega
    refine ⟨key, duration, by rw [hkeys, hdiv]; exact hkey, ?_, ?_⟩
    · rw [hcells, List.getElem?_set_self hlt]
    · rw [hcalls, ← hm.length_calls, List.getElem?_concat_length, hm.length_calls, hmod, keyBit,
        hki]

/-- A key is stored behind those that are in use. -/
theorem Recorded.set_key {W : Type} {m : Machine W} {n : Nat} (hm : Recorded m (n * 32))
    {key : BitVec 32} {keys : HeapArray 32} (h : m.keys.set? (BitVec.ofNat 64 n) key = some keys)
    (w : W) : Recorded ⟨w, m.durations, keys, m.calls⟩ (n * 32) := by
  have hsize := hm.lt_size
  have hn : (BitVec.ofNat 64 n).toNat = n := by
    rw [BitVec.toNat_ofNat, Nat.mod_eq_of_lt (by omega)]
  obtain ⟨-, hcells⟩ := set?_eq_some_iff.mp h
  rw [hn] at hcells
  refine ⟨hm.length_calls, fun j hj => ?_⟩
  obtain ⟨key', duration, hk, hd, hc⟩ := hm.call j hj
  refine ⟨key', duration, ?_, hd, hc⟩
  rw [hcells, List.getElem?_set_ne (by omega)]
  exact hk

theorem Recorded.iteration {W : Type} {client : Client W} {ctx : GlobalContext}
    {m m' : Machine W} {n : Nat} (hm : Recorded m (n * 32))
    (h : iteration client ctx m n = some m') : Recorded m' ((n + 1) * 32) := by
  simp only [Harness.iteration, Option.bind_eq_bind, Option.bind_eq_some_iff, Option.pure_def,
    Option.some.injEq] at h
  obtain ⟨keys, hkeys, w, -, m₁, hloop, w', -, rfl⟩ := h
  have hrun : Recorded m₁ (n * 32 + 32) := by
    refine of_foldlM_range (fun k m => Recorded m (n * 32 + k)) (hm.set_key hkeys w) ?_ hloop
    intro k m m' hk hm h
    exact (hm.trial hk h).1
  have hend : Recorded m₁ ((n + 1) * 32) := by
    rw [Nat.succ_mul]
    exact hrun
  exact ⟨hend.length_calls, hend.call⟩

theorem Recorded.measure {W : Type} {client : Client W} {ctx : GlobalContext} {w : W}
    {m : Machine W} (h : measure client ctx w = some m) :
    Recorded m (ctx.iterations.toNat * 32) := by
  simp only [Harness.measure, Option.bind_eq_bind, Option.bind_eq_some_iff, Option.pure_def,
    Option.some.injEq] at h
  obtain ⟨w₁, -, m₁, hloop, w', -, rfl⟩ := h
  have hstart : ∀ (durations : HeapArray 64) (keys : HeapArray 32),
      Recorded ⟨w₁, durations, keys, []⟩ (0 * 32) := fun _ _ =>
    ⟨rfl, fun j hj => absurd hj (by omega)⟩
  have hrun : Recorded m₁ (ctx.iterations.toNat * 32) :=
    of_foldlM_range (fun n m => Recorded m (n * 32)) (hstart _ _)
      (fun n m m' _ hm h => hm.iteration h) hloop
  exact ⟨hrun.length_calls, hrun.call⟩

/-- **Class, control bit and duration belong together.** The text that `main` prints is the
output of a run in which the class of bit `ki` of iteration `i` is the control bit of trial
`i * 32 + ki`, and the duration beside it is what that trial returned. -/
theorem main_calls {W : Type} {client : Client W} {now : BitVec 32} {argv : List (List Char)}
    {w : W} {calls : List Call} {text : List Char}
    (h : main client now argv w = some (calls, text)) :
    ∃ r : Run, r.ctx = parseArguments now argv ∧ r.output = some text ∧
      calls.length = r.size * 32 ∧
      ∀ i < r.size, ∀ ki < 32, calls[i * 32 + ki]? = some ⟨r.cls i ki, r.duration i ki⟩ := by
  simp only [main, Option.bind_eq_bind, Option.bind_eq_some_iff, Option.pure_def,
    Option.some.injEq, Prod.mk.injEq] at h
  obtain ⟨m, hm, text, htext, rfl, rfl⟩ := h
  have hrec := Recorded.measure hm
  refine ⟨⟨parseArguments now argv, m.durations, m.keys, hrec.le_length, hrec.le_keys⟩, rfl, htext,
    hrec.length_calls, fun i hi ki hki => ?_⟩
  have hi' : i < (parseArguments now argv).iterations.toNat := hi
  obtain ⟨key, duration, hkey, hduration, hcall⟩ := hrec.call (i * 32 + ki) (by omega)
  have hdiv : (i * 32 + ki) / 32 = i := by omega
  have hmod : (i * 32 + ki) % 32 = ki := by omega
  rw [hdiv] at hkey
  rw [hmod] at hcall
  rw [hcall, Run.cls, Run.key, Run.duration, hkey, hduration]
  rfl

/-! ## The program prints an output -/

/-- Every call of the client returns. -/
structure Client.Returns {W : Type} (client : Client W) : Prop where
  calloc : ∀ w, ∃ w', client.calloc w = some w'
  globalSetup : ∀ ctx w, ∃ w', client.globalSetup ctx w = some w'
  globalTeardown : ∀ ctx w, ∃ w', client.globalTeardown ctx w = some w'
  trialSetup : ∀ ctx i w, ∃ w', client.trialSetup ctx i w = some w'
  trialInnerSetup : ∀ ctx i t w, ∃ r, client.trialInnerSetup ctx i t w = some r
  trialTeardown : ∀ ctx i w, ∃ w', client.trialTeardown ctx i w = some w'
  helperStart : ∀ ctx i w, ∃ w', client.helperStart ctx i w = some w'
  helperStop : ∀ ctx i w, ∃ w', client.helperStop ctx i w = some w'
  timedCallUut : ∀ bit t w, ∃ r, client.timedCallUut bit t w = some r

/-- The arrays have room for `n` iterations. -/
def Room {W : Type} (n : Nat) (m : Machine W) : Prop :=
  m.keys.cells.length = n ∧ m.durations.cells.length = n * 32

theorem exists_set? {w : Nat} {a : HeapArray w} {i : BitVec 64} (h : i.toNat < a.cells.length)
    (v : BitVec w) : ∃ b, a.set? i v = some b ∧ b.cells.length = a.cells.length := by
  refine ⟨_, if_pos h, ?_⟩
  exact List.length_set

theorem exists_trial {W : Type} {client : Client W} (hc : client.Returns) (ctx : GlobalContext)
    {n i k : Nat} (hn : n < 2 ^ 56) (hi : i < n) (hk : k < 32) {m : Machine W} (hm : Room n m) :
    ∃ m', trial client ctx (BitVec.ofNat 64 i) m k = some m' ∧ Room n m' := by
  have hi' : (BitVec.ofNat 64 i).toNat = i := by
    rw [BitVec.toNat_ofNat, Nat.mod_eq_of_lt (by omega)]
  have h32 : (32 : BitVec 64).toNat = 32 := rfl
  have hindex : (BitVec.ofNat 64 i * 32 + BitVec.ofNat 64 k).toNat = i * 32 + k := by
    rw [BitVec.toNat_add, BitVec.toNat_mul, hi', Run.toNat_bit hk, h32]
    omega
  have hkey : ∃ key, m.keys.get? (BitVec.ofNat 64 i) = some key :=
    ⟨_, List.getElem?_eq_getElem (by rw [hi', hm.1]; exact hi)⟩
  obtain ⟨key, hkey⟩ := hkey
  obtain ⟨w₁, h₁⟩ := hc.calloc m.world
  obtain ⟨⟨t, w₂⟩, h₂⟩ := hc.trialInnerSetup ctx (BitVec.ofNat 64 i)
    { dest := List.replicate bufferSize 0
      dummy := List.replicate bufferSize 0
      data := fillWordsDeterministically bufferSize 0x11111111
      dataLen := BitVec.ofNat 64 bufferSize * 4 } w₁
  obtain ⟨w₃, h₃⟩ := hc.helperStart ctx (BitVec.ofNat 64 i) w₂
  obtain ⟨⟨duration, w₄⟩, h₄⟩ := hc.timedCallUut (keyBit key (BitVec.ofNat 64 k)) t w₃
  obtain ⟨durations, h₅, hlen⟩ := exists_set? (a := m.durations)
    (i := BitVec.ofNat 64 i * 32 + BitVec.ofNat 64 k) (by rw [hindex, hm.2]; omega) duration
  obtain ⟨w₆, h₆⟩ := hc.helperStop ctx (BitVec.ofNat 64 i) w₄
  refine ⟨⟨w₆, durations, m.keys, m.calls ++ [⟨keyBit key (BitVec.ofNat 64 k), duration⟩]⟩, ?_,
    hm.1, hlen.trans hm.2⟩
  simp only [trial, createDefaultTrialContext, hkey, h₁, h₂, h₃, h₄, h₅, h₆, Option.bind_eq_bind,
    Option.bind_some, Option.pure_def]

theorem exists_iteration {W : Type} {client : Client W} (hc : client.Returns)
    (ctx : GlobalContext) {n i : Nat} (hn : n < 2 ^ 56) (hi : i < n) {m : Machine W}
    (hm : Room n m) : ∃ m', iteration client ctx m i = some m' ∧ Room n m' := by
  have hi' : (BitVec.ofNat 64 i).toNat = i := by
    rw [BitVec.toNat_ofNat, Nat.mod_eq_of_lt (by omega)]
  obtain ⟨keys, h₁, hlen⟩ := exists_set? (a := m.keys) (i := BitVec.ofNat 64 i)
    (by rw [hi', hm.1]; exact hi) (client.rand m.world).1
  obtain ⟨w₂, h₂⟩ := hc.trialSetup ctx (BitVec.ofNat 64 i) (client.rand m.world).2
  obtain ⟨m₃, h₃, hroom⟩ := exists_foldlM_range (fun _ m => Room n m)
    (s := (⟨w₂, m.durations, keys, m.calls⟩ : Machine W)) ⟨hlen.trans hm.1, hm.2⟩
    (fun k hk m hm => exists_trial hc ctx hn hi hk hm)
  obtain ⟨w₄, h₄⟩ := hc.trialTeardown ctx (BitVec.ofNat 64 i) m₃.world
  refine ⟨{ m₃ with world := w₄ }, ?_, hroom⟩
  simp only [iteration, h₁, h₂, h₃, h₄, Option.bind_eq_bind, Option.bind_some, Option.pure_def]

/-- **The harness prints.** When every call returns, a run whose arrays fit the address space
ends with an output. -/
theorem exists_main {W : Type} {client : Client W} (hc : client.Returns) (now : BitVec 32)
    (argv : List (List Char)) (w : W)
    (hn : (parseArguments now argv).iterations.toNat < 2 ^ 56) :
    ∃ calls text, main client now argv w = some (calls, text) := by
  generalize hctx : parseArguments now argv = ctx at hn
  have h8 : (8 : BitVec 64).toNat = 8 := rfl
  have h4 : (4 : BitVec 64).toNat = 4 := rfl
  have h32 : (32 : BitVec 64).toNat = 32 := rfl
  obtain ⟨w₁, h₁⟩ := hc.globalSetup ctx (client.srand ctx.randomSeed w)
  have hroom : Room ctx.iterations.toNat
      (⟨w₁, HeapArray.malloc client.freshDurations (8 * (ctx.iterations * 32)),
        HeapArray.malloc client.freshKeys (4 * ctx.iterations), []⟩ : Machine W) := by
    constructor
    · rw [HeapArray.length_malloc, BitVec.toNat_mul, h4]
      omega
    · rw [HeapArray.length_malloc, BitVec.toNat_mul, BitVec.toNat_mul, h8, h32]
      omega
  obtain ⟨m₂, h₂, -⟩ := exists_foldlM_range (fun _ m => Room ctx.iterations.toNat m) hroom
    (fun i hi m hm => exists_iteration hc ctx hn hi hm)
  obtain ⟨w₃, h₃⟩ := hc.globalTeardown ctx m₂.world
  have hmeasure : measure client ctx w = some { m₂ with world := w₃ } := by
    simp only [measure, h₁, h₂, h₃, Option.bind_eq_bind, Option.bind_some, Option.pure_def]
  have hrec := Recorded.measure hmeasure
  obtain ⟨text, htext, -⟩ := Run.isText_generateJsonOutput
    ⟨ctx, m₂.durations, m₂.keys, hrec.le_length, hrec.le_keys⟩
  refine ⟨m₂.calls, text, ?_⟩
  have htext' : generateJsonOutput ctx m₂.durations m₂.keys = some text := htext
  simp only [main, hctx, hmeasure, htext', Option.bind_eq_bind, Option.bind_some, Option.pure_def]

end MicroSampler.Harness
