import MicroSampler.Harness.Main
import MicroSampler.Simulation.Context

/-!
# Tabulation of the harness outputs

`CCopyTabulateResults` decodes the output of each execution and makes one row of each trial
in it. `tabulate_outputs`: on the outputs of the harness it gives back, in order, exactly
what the harness measured.
-/

namespace MicroSampler.Simulation

open Json Loops Harness

/-! ## Decoding without a schema -/

/-- The members of an object as a dictionary: a repeated name keeps its first place and its
last value. -/
def dict (members : List (CodePoints × Json)) : Dict CodePoints Json :=
  Dict.empty.update members

/-- `value[name]`. -/
def item (value : Json) (name : CodePoints) : Except Exn Json :=
  match value with
  | .obj members =>
    match (dict members).get? name with
    | some v => .ok v
    | none => .error (.keyError name)
  | _ => .error .typeError

/-- `for x in value`: an array gives its elements, an object its names and a string its
characters. -/
def iter (value : Json) : Except Exn (List Json) :=
  match value with
  | .arr elements => .ok elements
  | .obj members => .ok ((dict members).keys.map .str)
  | .str s => .ok (s.map fun c => .str [c])
  | _ => .error .typeError

/-- `{…, **value}`. -/
def unpack (row : Row) (value : Json) : Except Exn Row :=
  match value with
  | .obj members => .ok (row.update members)
  | _ => .error .typeError

/-- `json.loads(output.stdout)`. -/
def decodeOutput (py : Interpreter) (output : RunResult) : Except Exn Json :=
  match output.stdout with
  | none => .error .typeError
  | some s => py.loads s

/-! ## The rows -/

/-- The columns that do not come from the trial. -/
def baseRow (configuration : RunConfiguration) (seed : Json) (iteration : Nat)
    (innerIteration : Json) : Row where
  entries := [(codes "run_name", .str (configuration.runName.map Char.toNat)),
    (codes "random_seed", seed), (codes "global_iteration", .int iteration),
    (codes "inner_iteration", innerIteration)]
  nodup := by
    simp only [List.map_cons, List.map_nil]
    decide

/-- The rows of one element of `data`. -/
def innerRows (configuration : RunConfiguration) (seed : Json) (iteration : Nat) (row : Json) :
    Except Exn (List Row) := do
  let innerIteration ← item row (codes "iteration")
  let durations ← item row (codes "durations")
  let trials ← iter durations
  trials.mapM (unpack (baseRow configuration seed iteration innerIteration))

/-- The rows of one decoded output. -/
def outputRows (configuration : RunConfiguration) (iteration : Nat) (rawData : Json) :
    Except Exn (List Row) := do
  let seed ← item rawData (codes "seed")
  let data ← item rawData (codes "data")
  let rows ← iter data
  let trials ← rows.mapM (innerRows configuration seed iteration)
  pure trials.flatten

/-- The rows of one global iteration. -/
def globalRows (py : Interpreter) (configuration : RunConfiguration) (results : List RunResult)
    (iteration : Nat) : Except Exn (List Row) := do
  let output ← match results[iteration]? with
    | some output => Except.ok output
    | none => Except.error Exn.indexError
  let rawData ← decodeOutput py output
  outputRows configuration iteration rawData

/-- The table of `CCopyTabulateResults`; `range` of a negative number is empty. -/
def tabulate (py : Interpreter) (configuration : RunConfiguration) (results : List RunResult) :
    Except Exn Table := do
  let rows ← (List.range configuration.globalIterations.toNat).mapM
    (globalRows py configuration results)
  pure rows.flatten

/-! ## The rows of a harness run -/

/-- What a run of the harness says about bit `ki` of iteration `i`. -/
def trialRow (configuration : RunConfiguration) (g : Nat) (r : Run) (i ki : Nat) : Row where
  entries := [(codes "run_name", .str (configuration.runName.map Char.toNat)),
    (codes "random_seed", .int r.ctx.randomSeed.toNat), (codes "global_iteration", .int g),
    (codes "inner_iteration", .int i), (codes "bit", .int ki),
    (codes "class", .int (r.cls i ki).toNat), (codes "key", .int (r.key i).toNat),
    (codes "duration", .int (r.duration i ki).toNat)]
  nodup := by
    simp only [List.map_cons, List.map_nil]
    decide

/-- One row per iteration and bit, in the order of the trials. -/
def runRows (configuration : RunConfiguration) (g : Nat) (r : Run) : Table :=
  (List.range r.size).flatMap fun i =>
    (List.range 32).map fun ki => trialRow configuration g r i ki

/-- One row per global iteration, iteration and bit. -/
def runsRows (configuration : RunConfiguration) (runs : List Run) : Table :=
  runs.zipIdx.flatMap fun run => runRows configuration run.2 run.1

/-! ## The round trip -/

theorem item_obj {members : List (CodePoints × Json)} {name : CodePoints} {v : Json}
    (hnodup : (members.map Prod.fst).Nodup) (hv : (name, v) ∈ members) :
    item (.obj members) name = .ok v := by
  have hentries : (dict members).entries = members := Dict.entries_update hnodup
  have hget : (dict members).get? name = some v := by
    rw [Dict.get?_eq_some_iff, hentries]
    exact hv
  rw [item, hget]

theorem unpack_bitMembers (configuration : RunConfiguration) (g : Nat) (r : Run) (i ki : Nat) :
    unpack (baseRow configuration (.int r.ctx.randomSeed.toNat) g (.int i))
      (.obj (r.bitMembers i ki)) = .ok (trialRow configuration g r i ki) := by
  have hnodup : ((baseRow configuration (.int r.ctx.randomSeed.toNat) g (.int i)).keys ++
      (r.bitMembers i ki).map Prod.fst).Nodup := (trialRow configuration g r i ki).nodup
  rw [unpack]
  exact congrArg Except.ok (Dict.ext (Dict.entries_update hnodup))

theorem innerRows_iteration (configuration : RunConfiguration) (g : Nat) (r : Run) (i : Nat) :
    innerRows configuration (.int r.ctx.randomSeed.toNat) g (.obj (r.iterationMembers i)) =
      .ok ((List.range 32).map fun ki => trialRow configuration g r i ki) := by
  have hnodup : ((r.iterationMembers i).map Prod.fst).Nodup := by
    show [codes "iteration", codes "durations"].Nodup
    decide
  have hiteration : item (.obj (r.iterationMembers i)) (codes "iteration") = .ok (.int i) :=
    item_obj hnodup List.mem_cons_self
  have hdurations : item (.obj (r.iterationMembers i)) (codes "durations") =
      .ok (.arr ((List.range 32).map fun ki => .obj (r.bitMembers i ki))) :=
    item_obj hnodup (List.mem_cons_of_mem _ List.mem_cons_self)
  have htrials : ((List.range 32).map fun ki => Json.obj (r.bitMembers i ki)).mapM
      (unpack (baseRow configuration (.int r.ctx.randomSeed.toNat) g (.int i))) =
        .ok ((List.range 32).map fun ki => trialRow configuration g r i ki) := by
    rw [List.mapM_map]
    exact mapM_eq_pure_map fun ki _ => unpack_bitMembers configuration g r i ki
  have hiter : iter (.arr ((List.range 32).map fun ki => .obj (r.bitMembers i ki))) =
      .ok ((List.range 32).map fun ki => .obj (r.bitMembers i ki)) := rfl
  rw [innerRows, hiteration, ok_bind, hdurations, ok_bind, hiter, ok_bind, htrials]

theorem outputRows_document (configuration : RunConfiguration) (g : Nat) (r : Run) :
    outputRows configuration g r.document = .ok (runRows configuration g r) := by
  have hnodup : ([(codes "iterations", Json.int r.size),
      (codes "seed", .int r.ctx.randomSeed.toNat),
      (codes "data", .arr ((List.range r.size).map fun i => .obj (r.iterationMembers i)))].map
        Prod.fst).Nodup := by
    simp only [List.map_cons, List.map_nil]
    decide
  have hseed : item r.document (codes "seed") = .ok (.int r.ctx.randomSeed.toNat) :=
    item_obj hnodup (List.mem_cons_of_mem _ List.mem_cons_self)
  have hdata : item r.document (codes "data") =
      .ok (.arr ((List.range r.size).map fun i => .obj (r.iterationMembers i))) :=
    item_obj hnodup (List.mem_cons_of_mem _ (List.mem_cons_of_mem _ List.mem_cons_self))
  have hiter : iter (.arr ((List.range r.size).map fun i => .obj (r.iterationMembers i))) =
      .ok ((List.range r.size).map fun i => .obj (r.iterationMembers i)) := rfl
  have hrows : ((List.range r.size).map fun i => Json.obj (r.iterationMembers i)).mapM
      (innerRows configuration (.int r.ctx.randomSeed.toNat) g) =
        .ok ((List.range r.size).map fun i =>
          (List.range 32).map fun ki => trialRow configuration g r i ki) := by
    rw [List.mapM_map]
    refine mapM_eq_pure_map fun i _ => ?_
    rw [Function.comp_apply, innerRows_iteration]
    rfl
  rw [outputRows, hseed, ok_bind, hdata, ok_bind, hiter, ok_bind, hrows, ok_bind, runRows,
    List.flatMap_def]
  rfl

/-- The document of a run is within the limits of every interpreter: its numbers have no more
than 64 bits. -/
theorem within_document (py : Interpreter) (r : Run) : Within py.limits r.document := by
  have hnumber {depth n : Nat} (hn : n < 2 ^ 64) : Within ⟨20, depth⟩ (.int n) := by
    have hten : (n : Int).natAbs < 10 ^ 20 := by
      rw [Int.natAbs_natCast]
      omega
    exact Within.int (digitCount_le (by decide : 0 < 20) hten)
  have hbit (i ki : Nat) (hki : ki < 32) : Within ⟨20, 1⟩ (.obj (r.bitMembers i ki)) := by
    refine Within.obj fun m hm => ?_
    simp only [Run.bitMembers, List.mem_cons, List.not_mem_nil, or_false] at hm
    obtain rfl | rfl | rfl | rfl := hm
    · exact hnumber (by omega)
    · exact hnumber (by have := (r.cls i ki).isLt; omega)
    · exact hnumber (by have := (r.key i).isLt; omega)
    · exact hnumber (r.duration i ki).isLt
  have hiteration (i : Nat) (hi : i < r.size) : Within ⟨20, 3⟩ (.obj (r.iterationMembers i)) := by
    have hsize := r.size_lt
    refine Within.obj fun m hm => ?_
    simp only [Run.iterationMembers, List.mem_cons, List.not_mem_nil, or_false] at hm
    obtain rfl | rfl := hm
    · exact hnumber (by omega)
    · refine Within.arr fun v hv => ?_
      obtain ⟨ki, hki, rfl⟩ := List.mem_map.mp hv
      exact hbit i ki (List.mem_range.mp hki)
  have hdocument : Within ⟨20, 5⟩ r.document := by
    have hsize := r.size_lt
    refine Within.obj fun m hm => ?_
    simp only [List.mem_cons, List.not_mem_nil, or_false] at hm
    obtain rfl | rfl | rfl := hm
    · exact hnumber (by omega)
    · exact hnumber (by have := r.ctx.randomSeed.isLt; omega)
    · refine Within.arr fun v hv => ?_
      obtain ⟨i, hi, rfl⟩ := List.mem_map.mp hv
      exact hiteration i (List.mem_range.mp hi)
  exact hdocument.mono ((by decide : 20 ≤ 640).trans py.digits_ge) py.depth_ge

theorem globalRows_output {py : Interpreter} {configuration : RunConfiguration}
    {results : List RunResult} {g : Nat} {r : Run} {result : RunResult}
    (hr : results[g]? = some result) (ho : result.stdout = r.output) :
    globalRows py configuration results g = .ok (runRows configuration g r) := by
  obtain ⟨text, htext, hdocument⟩ := Run.isText_generateJsonOutput r
  have hloads : py.loads text = .ok r.document :=
    Interpreter.loads_eq_ok_iff.mpr ⟨readText_of_isText hdocument, within_document py r⟩
  have hdecode : decodeOutput py result = .ok r.document := by
    simp only [decodeOutput, ho, htext, hloads]
  simp only [globalRows, hr, hdecode, ok_bind, outputRows_document]

/-- The table of the outputs of the harness is what the harness measured. -/
theorem tabulate_outputs {py : Interpreter} {configuration : RunConfiguration} {runs : List Run}
    {results : List RunResult} (hG : configuration.globalIterations = runs.length)
    (hresults : List.Forall₂ (fun r result => result.stdout = r.output) runs results) :
    tabulate py configuration results = .ok (runsRows configuration runs) := by
  have hrows : (List.range runs.length).mapM (globalRows py configuration results) =
      .ok ((List.range runs.length).map fun g =>
        (runs[g]?.map (runRows configuration g)).getD []) := by
    refine mapM_eq_pure_map fun g hg => ?_
    have hlt := List.mem_range.mp hg
    have hlt' : g < results.length := hresults.length_eq ▸ hlt
    rw [globalRows_output (List.getElem?_eq_getElem hlt')
      (hresults.get hlt hlt'), List.getElem?_eq_getElem hlt]
    rfl
  have hflatten : ((List.range runs.length).map fun g =>
      (runs[g]?.map (runRows configuration g)).getD []) =
        runs.zipIdx.map fun run => runRows configuration run.2 run.1 := by
    refine List.ext_getElem (by simp) fun g hg hg' => ?_
    have hlt : g < runs.length := by simpa using hg
    simp [List.getElem?_eq_getElem hlt]
  rw [tabulate, hG, Int.toNat_natCast, hrows, ok_bind, hflatten, runsRows, List.flatMap_def]
  rfl

/-- **Harness and tabulation are inverse.** Every output is a JSON document. The table of the
outputs of `G` runs has one row per global iteration, iteration and bit, in this order, and
says of each what the run printed. In a run of `main` the class of a row is the control bit
of the trial whose duration the row has. -/
theorem harness_tabulate {py : Interpreter} {configuration : RunConfiguration} {runs : List Run}
    {results : List RunResult} (hG : configuration.globalIterations = runs.length)
    (hresults : List.Forall₂ (fun r result => result.stdout = r.output) runs results) :
    (∀ r ∈ runs, ∃ text, r.output = some text ∧ IsText text r.document) ∧
    tabulate py configuration results = .ok (runsRows configuration runs) ∧
    ∀ (W : Type) (client : Client W) (now : BitVec 32) (argv : List Text) (w : W)
      (calls : List Call) (text : Text), main client now argv w = some (calls, text) →
      ∃ r : Run, r.ctx = parseArguments now argv ∧ r.output = some text ∧
        calls.length = r.size * 32 ∧
        ∀ i < r.size, ∀ ki < 32, calls[i * 32 + ki]? = some ⟨r.cls i ki, r.duration i ki⟩ :=
  ⟨fun r _ => Run.isText_generateJsonOutput r, tabulate_outputs hG hresults,
    fun _ _ _ _ _ _ _ h => main_calls h⟩

/-- A client whose unit under test takes 100 ticks, and one more when the bit is set. -/
def steadyClient : Client (BitVec 32) where
  srand := fun seed _ => seed
  rand := fun w => (w, w + 1)
  calloc := some
  globalSetup := fun _ w => some w
  globalTeardown := fun _ w => some w
  trialSetup := fun _ _ w => some w
  trialInnerSetup := fun _ _ t w => some (t, w)
  trialTeardown := fun _ _ w => some w
  helperStart := fun _ _ w => some w
  helperStop := fun _ _ w => some w
  timedCallUut := fun bit _ w => some (100 + bit.setWidth 64, w)
  freshDurations := fun _ => 0
  freshKeys := fun _ => 0

theorem steadyClient_returns : steadyClient.Returns where
  calloc := fun w => ⟨w, rfl⟩
  globalSetup := fun _ w => ⟨w, rfl⟩
  globalTeardown := fun _ w => ⟨w, rfl⟩
  trialSetup := fun _ _ w => ⟨w, rfl⟩
  trialInnerSetup := fun _ _ t w => ⟨(t, w), rfl⟩
  trialTeardown := fun _ _ w => ⟨w, rfl⟩
  helperStart := fun _ _ w => ⟨w, rfl⟩
  helperStop := fun _ _ w => ⟨w, rfl⟩
  timedCallUut := fun bit _ w => ⟨(100 + bit.setWidth 64, w), rfl⟩

/-- Two iterations of the steady client, with the keys 5 and 6. -/
def steadyRun : Run where
  ctx := ⟨2, 5⟩
  durations := ⟨(List.range 64).map fun j =>
    100 + ((BitVec.ofNat 32 (5 + j / 32) >>> (j % 32)) &&& 1).setWidth 64, by decide⟩
  keys := ⟨[5, 6], by decide⟩
  enough_durations := by decide
  enough_keys := by decide

def steadyConfiguration : RunConfiguration where
  globalIterations := 1
  innerIterations := 2
  runName := "steady".toList
  randomSeed := 5

/-- An execution that printed the output of the steady run. -/
def steadyResult : RunResult where
  stdout := steadyRun.output
  stderr := some []
  outputFiles := some []
  errored := false
  timedout := false
  returnCode := 0

theorem harness_tabulate_steady :
    tabulate Interpreter.default steadyConfiguration [steadyResult] =
      .ok (runsRows steadyConfiguration [steadyRun]) ∧
    (runsRows steadyConfiguration [steadyRun]).length = 64 ∧
    ∃ calls text, main steadyClient 0 ["2".toList, "5".toList] 0 = some (calls, text) ∧
      ∃ r : Run, r.output = some text ∧ calls.length = r.size * 32 := by
  have hG : steadyConfiguration.globalIterations = [steadyRun].length := rfl
  have hresults : List.Forall₂ (fun (r : Run) (result : RunResult) => result.stdout = r.output)
      [steadyRun] [steadyResult] := .cons rfl .nil
  obtain ⟨-, htable, hmain⟩ := @harness_tabulate Interpreter.default _ _ _ hG hresults
  refine ⟨htable, by decide, ?_⟩
  obtain ⟨calls, text, h⟩ := exists_main steadyClient_returns 0 ["2".toList, "5".toList] 0
    (by decide)
  obtain ⟨r, -, hr, hlen, -⟩ := hmain _ _ _ _ _ _ _ h
  exact ⟨calls, text, h, r, hr, hlen⟩

end MicroSampler.Simulation
