import MicroSampler.Library.Python
import MicroSampler.Library.Regex
import MicroSampler.Library.StateQueue
import MicroSampler.Library.Utf8
import MicroSampler.Simulation.Tabulate

/-!
# Deployment of an attack

The seven states that check an attack source, build it, copy the products to the deployment
directory, run the harness once for each global iteration and tabulate the outputs. They
work on the deployment context, which lives on between deployments, and on the files.

`make` and the built harness belong to a `Host`. The harness runs the agent's code in the
deployment directory, and nothing keeps it from the files: an execution leaves any `Disk`.
`Host.KeepsDeployed` names the hosts where the deployed files outlast it. The world keeps the
calls of the programs in order.

`Phase` says for each state of a deployment what has happened since it began. Every round
goes to a later phase or ends the deployment in one of the ways of `Ending` (`Phase.round`),
so every deployment ends (`deploymentLoop_ending`).
-/

namespace MicroSampler.Simulation

open Loops StateQueue Utf8

/-! ## Files and programs -/

/-- `assemblyPath` is `deployment_prefix / assembly_file`. -/
structure HarnessConfig where
  executable : Text
  assemblyPath : Text
  allowedReferences : List Text
  timeout : Int

/-- The files that deployments read and write. `E` is the type of executables. -/
structure Disk (E : Type) where
  uut : Option Text
  attack : Option Text
  wrapper : Option Text
  executable : Option E
  assembly : Option Text
  deployedExecutable : Option E
  deployedAssembly : Option Text

/-- What a deployment writes: the attack, the copy of the unit under test, and the copies of
the products. -/
inductive Target
  | attack | wrapper | executable | assembly

/-- What `make clean harness` ends with, and the products that it leaves. -/
structure BuildOutput (E : Type) where
  returnCode : Int
  stdout : Bytes
  stderr : Bytes
  executable : Option E
  assembly : Option Text

inductive RunOutcome
  | exited (returnCode : Int) (stdout stderr : Bytes)
  | timedOut
  | notStarted

/-- What a deployment runs on; `M` is the state of the machine. `make` is given the attack and
the wrapper as they are on disk, and may not start. -/
structure Host (E M : Type) where
  python : Interpreter
  canWrite : Target → M → Bool
  make : Option Text → Option Text → M → Option (BuildOutput E × M)
  execute : E → List Text → Int → Disk E → M → RunOutcome × Disk E × M

/-- An execution of the harness leaves the deployed files as they are. -/
def Host.KeepsDeployed {E M : Type} (host : Host E M) : Prop :=
  ∀ executable arguments limit disk m,
    (host.execute executable arguments limit disk m).2.1.deployedExecutable =
        disk.deployedExecutable ∧
      (host.execute executable arguments limit disk m).2.1.deployedAssembly = disk.deployedAssembly

inductive HostCall (E : Type)
  | built (attack wrapper : Option Text) (output : BuildOutput E)
  | executed (executable : E) (arguments : List Text) (outcome : RunOutcome)

structure World (E M : Type) where
  disk : Disk E
  machine : M
  calls : List (HostCall E)

/-- What the states of a deployment work on. -/
structure Deployment (E M : Type) where
  context : DeploymentContext
  world : World E M

/-- `CCopyDeploymentState`. -/
inductive DeploymentState
  | verify | write | compile | prepare | runFull | runLoop | tabulate
  deriving DecidableEq

/-! ## The states -/

section States

variable {E M : Type}

abbrev DeploymentEffect (E M : Type) := Effect DeploymentState (Deployment E M) DeploymentError

/-- `append_deployment_state`, as the last thing a state does. -/
def appendDeploymentState (d : Deployment E M) (s : DeploymentState) : DeploymentEffect E M :=
  ⟨d, [s], none⟩

/-- `ctx.stop`. -/
def stopWith (d : Deployment E M) (e : DeploymentError) : DeploymentEffect E M := ⟨d, [], some e⟩

/-- Any character but a line break. -/
def anyChar : Regex := .set [('\x00', '\t'), ('\x0b', Char.ofNat 0x10ffff)]

/-- `#include \"(?P<filename>.*?)\"`. -/
def includeRegex : Regex :=
  Regex.cat [Regex.lit "#include \"", .group 1 (.lazyStar anyChar), Regex.lit "\""]

/-- The loop of `CCopyVerifyLegalCode`: every reference is acceptable. -/
def isLegal (config : HarnessConfig) (implementation : Text) : Bool :=
  (Regex.finditer includeRegex implementation).all fun m => m.text 1 ∈ config.allowedReferences

/-- `CCopyVerifyLegalCode.execute`. -/
def verifyLegalCode (config : HarnessConfig) (d : Deployment E M) :
    Except Exn (DeploymentEffect E M) :=
  match d.context.implementation with
  | none => .error .typeError
  | some implementation =>
    if isLegal config implementation then .ok (appendDeploymentState d .write)
    else .ok (stopWith d (.illegalCode implementation))

/-- A file that is opened for writing. -/
def written (host : Host E M) (target : Target) (m : M) : Except Exn Unit :=
  if host.canWrite target m then .ok () else .error .osError

/-- A file that must be there. -/
def existing {α : Type} : Option α → Except Exn α
  | some file => .ok file
  | none => .error .fileNotFoundError

/-- `shutil.copy`. -/
def copied {α : Type} (host : Host E M) (source : Option α) (target : Target) (m : M) :
    Except Exn α := do
  let file ← existing source
  written host target m
  pure file

/-- `CCopyWriteAttack.execute`. -/
def writeAttack (host : Host E M) (d : Deployment E M) : Except Exn (DeploymentEffect E M) := do
  written host .attack d.world.machine
  match d.context.implementation with
  | none => .error .typeError
  | some implementation =>
    let disk := { d.world.disk with attack := some implementation }
    pure (appendDeploymentState { d with world := { d.world with disk := disk } } .compile)

/-- `decode()` of the output of a program. -/
def decodeStrict (s : Bytes) : Except Exn Text :=
  match decode s with
  | some text => .ok text
  | none => .error .unicodeDecodeError

/-- `sp.run` of `make`. -/
def started {α : Type} : Option α → Except Exn α
  | some result => .ok result
  | none => .error .osError

/-- `CCopyCompileHarness.execute`. -/
def compileHarness (host : Host E M) (d : Deployment E M) : Except Exn (DeploymentEffect E M) := do
  let uut ← copied host d.world.disk.uut .wrapper d.world.machine
  let (output, machine) ← started (host.make d.world.disk.attack (some uut) d.world.machine)
  let disk := { d.world.disk with
    wrapper := some uut, executable := output.executable, assembly := output.assembly }
  let calls := d.world.calls ++ [.built d.world.disk.attack (some uut) output]
  let stdout ← decodeStrict output.stdout
  let stderr ← decodeStrict output.stderr
  let buildStatus : BuildResult := ⟨stdout, stderr, output.returnCode⟩
  let d : Deployment E M :=
    ⟨{ d.context with buildStatus := some buildStatus }, ⟨disk, machine, calls⟩⟩
  if output.returnCode ≠ 0 then pure (stopWith d (.build buildStatus))
  else pure (appendDeploymentState d .prepare)

/-- `CCopyPrepareDeploymentStage.execute`. -/
def prepareDeploymentStage (host : Host E M) (d : Deployment E M) :
    Except Exn (DeploymentEffect E M) := do
  let executable ← copied host d.world.disk.executable .executable d.world.machine
  let assembly ← copied host d.world.disk.assembly .assembly d.world.machine
  let disk := { d.world.disk with
    deployedExecutable := some executable, deployedAssembly := some assembly }
  pure (appendDeploymentState { d with world := { d.world with disk := disk } } .runFull)

/-- `CCopyRunSimulation.execute`. -/
def runSimulation (d : Deployment E M) : Except Exn (DeploymentEffect E M) :=
  .ok (appendDeploymentState
    { d with context := { d.context with results := [], currentGlobalIteration := 0 } } .runLoop)

/-- The command line of the harness. -/
def arguments (config : HarnessConfig) (configuration : RunConfiguration) : List Text :=
  ["./".toList ++ config.executable, (toString configuration.innerIterations).toList,
    (toString configuration.randomSeed).toList]

/-- `commands`, whose numbers are written with `str`. -/
def commands (py : Interpreter) (config : HarnessConfig) (configuration : RunConfiguration) :
    Except Exn (List Text) := do
  let innerIterations ← py.str configuration.innerIterations
  let randomSeed ← py.str configuration.randomSeed
  pure ["./".toList ++ config.executable, innerIterations, randomSeed]

/-- The result of an execution that ended with code 0. -/
def successResult (stdout stderr : Bytes) : RunResult where
  stdout := some (decodeIgnore stdout)
  stderr := some (decodeIgnore stderr)
  outputFiles := some []
  errored := false
  timedout := false
  returnCode := 0

def failureResult (returnCode : Int) (stdout stderr : Bytes) : RunResult where
  stdout := some (decodeIgnore stdout)
  stderr := some (decodeIgnore stderr)
  outputFiles := some []
  errored := true
  timedout := false
  returnCode := returnCode

def timeoutResult : RunResult where
  stdout := none
  stderr := none
  outputFiles := some []
  errored := true
  timedout := true
  returnCode := 0

/-- What follows an execution that went well. -/
def appendResult (configuration : RunConfiguration) (d : Deployment E M) (result : RunResult) :
    DeploymentEffect E M :=
  let iteration := d.context.currentGlobalIteration + 1
  let d := { d with context := { d.context with
    results := d.context.results ++ [result], currentGlobalIteration := iteration } }
  if iteration < configuration.globalIterations then appendDeploymentState d .runLoop
  else appendDeploymentState d .tabulate

/-- `CCopyRunSimulationIteration.execute`. The executable is looked up in the deployment
directory as the executions so far have left it. -/
def runSimulationIteration (config : HarnessConfig) (host : Host E M) (d : Deployment E M) :
    Except Exn (DeploymentEffect E M) := do
  let configuration ← orAttributeError d.context.configuration
  let arguments ← commands host.python config configuration
  let executable ← existing d.world.disk.deployedExecutable
  let (outcome, disk, machine) :=
    host.execute executable arguments config.timeout d.world.disk d.world.machine
  let calls := d.world.calls ++ [.executed executable arguments outcome]
  let d : Deployment E M := { d with world := ⟨disk, machine, calls⟩ }
  match outcome with
  | .notStarted => .error .osError
  | .timedOut => pure (stopWith d (.simulationTimeout timeoutResult config.timeout))
  | .exited returnCode stdout stderr =>
    if returnCode ≠ 0 then
      pure (stopWith d (.simulationFailure (failureResult returnCode stdout stderr)))
    else pure (appendResult configuration d (successResult stdout stderr))

/-- `CCopyTabulateResults.execute`. -/
def tabulateResults (py : Interpreter) (d : Deployment E M) :
    Except Exn (DeploymentEffect E M) := do
  let configuration ← orAttributeError d.context.configuration
  let table ← tabulate py configuration d.context.results
  pure ⟨{ d with context := { d.context with finalTable := some table } }, [], none⟩

/-- The state map of the deployment. -/
def executeDeployment (config : HarnessConfig) (host : Host E M) :
    Execute DeploymentState (Deployment E M) DeploymentError Exn
  | .verify, d => verifyLegalCode config d
  | .write, d => writeAttack host d
  | .compile, d => compileHarness host d
  | .prepare, d => prepareDeploymentStage host d
  | .runFull, d => runSimulation d
  | .runLoop, d => runSimulationIteration config host d
  | .tabulate, d => tabulateResults host.python d

/-- A deployment starts from the initial state with an empty queue otherwise. -/
def deploymentStart (d : Deployment E M) : Config DeploymentState (Deployment E M) := ⟨[.verify], d⟩

/-- `deployment_controller.loop()`, for at most `n` rounds. -/
def deploymentLoop (config : HarnessConfig) (host : Host E M) (n : Nat) (d : Deployment E M) :
    Option (Except Exn (Deployment E M × Option DeploymentError)) :=
  loop (executeDeployment config host) n (deploymentStart d)

end States

/-! ## The course of a deployment -/

section Course

variable {E M : Type}

/-- How often the harness is executed when nothing goes wrong: the loop runs before it
compares. -/
def RunConfiguration.executions (configuration : RunConfiguration) : Nat :=
  max 1 configuration.globalIterations.toNat

/-- The numbers on the command line can be written. -/
def RunConfiguration.Writable (py : Interpreter) (configuration : RunConfiguration) : Prop :=
  py.Writes configuration.innerIterations ∧ py.Writes configuration.randomSeed

theorem commands_eq {py : Interpreter} {config : HarnessConfig} {configuration : RunConfiguration}
    (h : configuration.Writable py) :
    commands py config configuration = .ok (arguments config configuration) := by
  rw [commands, Interpreter.str, Interpreter.str, if_pos h.1, if_pos h.2]
  rfl

theorem commands_eq_error {py : Interpreter} {config : HarnessConfig}
    {configuration : RunConfiguration} (h : ¬ configuration.Writable py) :
    commands py config configuration = .error .valueError := by
  rw [RunConfiguration.Writable, not_and] at h
  rw [commands, Interpreter.str, Interpreter.str]
  by_cases hi : py.Writes configuration.innerIterations
  · rw [if_pos hi, if_neg (h hi)]
    rfl
  · rw [if_neg hi]
    rfl

/-- An execution that ended with code 0. -/
structure Success (E : Type) where
  executable : E
  stdout : Bytes
  stderr : Bytes

/-- The first `n` executions, when all of them end with code 0, and the files and the machine
behind them. -/
def successes (host : Host E M) (arguments : List Text) (limit : Int) :
    Nat → Disk E → M → Option (List (Success E) × Disk E × M)
  | 0, disk, m => some ([], disk, m)
  | n + 1, disk, m => do
    let (outputs, disk, m) ← successes host arguments limit n disk m
    let executable ← disk.deployedExecutable
    match host.execute executable arguments limit disk m with
    | (.exited 0 stdout stderr, disk, m) =>
      some (outputs ++ [⟨executable, stdout, stderr⟩], disk, m)
    | _ => none

/-- The executions are as many as asked for. -/
theorem length_of_successes {host : Host E M} {arguments : List Text} {limit : Int} {n : Nat}
    {disk disk' : Disk E} {m m' : M} {outputs : List (Success E)}
    (hs : successes host arguments limit n disk m = some (outputs, disk', m')) :
    outputs.length = n := by
  induction n generalizing outputs disk' m' with
  | zero =>
    cases hs
    rfl
  | succ n ih =>
    rw [successes, Option.bind_eq_bind, Option.bind_eq_some_iff] at hs
    obtain ⟨⟨before, disk'', m''⟩, hbefore, hs⟩ := hs
    obtain ⟨executable, -, hs⟩ := Option.bind_eq_some_iff.mp hs
    split at hs
    · cases hs
      rw [List.length_append, List.length_singleton, ih hbefore]
    · cases hs

/-- Executions that keep the deployed files all run one executable. -/
theorem kept_of_successes {host : Host E M} (hkeeps : host.KeepsDeployed) {arguments : List Text}
    {limit : Int} {n : Nat} {disk disk' : Disk E} {m m' : M} {outputs : List (Success E)}
    (hs : successes host arguments limit n disk m = some (outputs, disk', m')) :
    (disk'.deployedExecutable = disk.deployedExecutable ∧
      disk'.deployedAssembly = disk.deployedAssembly) ∧
    ∀ o ∈ outputs, disk.deployedExecutable = some o.executable := by
  induction n generalizing outputs disk' m' with
  | zero =>
    cases hs
    exact ⟨⟨rfl, rfl⟩, List.forall_mem_nil _⟩
  | succ n ih =>
    rw [successes, Option.bind_eq_bind, Option.bind_eq_some_iff] at hs
    obtain ⟨⟨before, disk'', m''⟩, hbefore, hs⟩ := hs
    obtain ⟨executable, hx, hs⟩ := Option.bind_eq_some_iff.mp hs
    obtain ⟨⟨hexecutable, hassembly⟩, hall⟩ := ih hbefore
    have hkept := hkeeps executable arguments limit disk'' m''
    split at hs
    · next heq =>
      rw [heq] at hkept
      cases hs
      refine ⟨⟨hkept.1.trans hexecutable, hkept.2.trans hassembly⟩, ?_⟩
      exact List.forall_mem_append.mpr
        ⟨hall, List.forall_mem_singleton.mpr (hexecutable.symm.trans hx)⟩
    · cases hs

/-- The first execution runs the executable that is deployed before it. -/
theorem head_of_successes {host : Host E M} {arguments : List Text} {limit : Int} {n : Nat}
    {disk disk' : Disk E} {m m' : M} {outputs : List (Success E)}
    (hs : successes host arguments limit n disk m = some (outputs, disk', m')) :
    ∀ o ∈ outputs.head?, disk.deployedExecutable = some o.executable := by
  induction n generalizing outputs disk' m' with
  | zero =>
    cases hs
    exact fun _ ho => absurd ho (Option.not_mem_none _)
  | succ n ih =>
    rw [successes, Option.bind_eq_bind, Option.bind_eq_some_iff] at hs
    obtain ⟨⟨before, disk'', m''⟩, hbefore, hs⟩ := hs
    obtain ⟨executable, hx, hs⟩ := Option.bind_eq_some_iff.mp hs
    have hlength := length_of_successes hbefore
    split at hs
    · cases hs
      cases before with
      | nil =>
        obtain rfl : n = 0 := hlength.symm
        cases hbefore
        rintro o ⟨⟩
        exact hx
      | cons first rest =>
        have hfirst := ih hbefore
        exact hfirst
    · cases hs

/-- The results of executions with the given outputs. -/
def resultsOf (outputs : List (Success E)) : List RunResult :=
  outputs.map fun o => successResult o.stdout o.stderr

/-- What a deployment is given: the attack, the run configuration and the world. -/
structure Request (E M : Type) where
  implementation : Text
  configuration : RunConfiguration
  world : World E M

/-- A build of the attack that went well, and the machine behind it. -/
structure Built (config : HarnessConfig) (host : Host E M) (q : Request E M) where
  uut : Text
  output : BuildOutput E
  machine : M
  legal : isLegal config q.implementation = true
  attack_written : host.canWrite .attack q.world.machine = true
  uut_eq : q.world.disk.uut = some uut
  wrapper_written : host.canWrite .wrapper q.world.machine = true
  make_eq : host.make (some q.implementation) (some uut) q.world.machine = some (output, machine)
  stdout : Text
  stderr : Text
  stdout_eq : decode output.stdout = some stdout
  stderr_eq : decode output.stderr = some stderr
  returnCode_eq : output.returnCode = 0

/-- A build whose products are in the deployment directory. -/
structure Staged (config : HarnessConfig) (host : Host E M) (q : Request E M) extends
    Built config host q where
  executable : E
  assembly : Text
  executable_eq : output.executable = some executable
  executable_written : host.canWrite .executable machine = true
  assembly_eq : output.assembly = some assembly
  assembly_written : host.canWrite .assembly machine = true

variable {config : HarnessConfig} {host : Host E M} {q : Request E M}

/-- The files after a build. -/
def Request.builtDisk (q : Request E M) (uut : Text) (output : BuildOutput E) : Disk E :=
  { q.world.disk with
    attack := some q.implementation
    wrapper := some uut
    executable := output.executable
    assembly := output.assembly }

/-- The files after the products of a build have been copied. -/
def Request.stagedDisk (q : Request E M) (uut : Text) (output : BuildOutput E) : Disk E :=
  { q.builtDisk uut output with
    deployedExecutable := output.executable
    deployedAssembly := output.assembly }

/-- The call of `make`. -/
def Built.call (b : Built config host q) : HostCall E :=
  .built (some q.implementation) (some b.uut) b.output

def Built.disk (b : Built config host q) : Disk E := q.builtDisk b.uut b.output

namespace Staged

def disk (s : Staged config host q) : Disk E := q.stagedDisk s.uut s.output

/-- The first `n` executions of the deployed harness. -/
def successes (s : Staged config host q) (n : Nat) :
    Option (List (Success E) × Disk E × M) :=
  Simulation.successes host (arguments config q.configuration) config.timeout n s.disk s.machine

def call (_ : Staged config host q) (executable : E) (outcome : RunOutcome) : HostCall E :=
  .executed executable (arguments config q.configuration) outcome

/-- The calls up to the given outputs. -/
def calls (s : Staged config host q) (outputs : List (Success E)) : List (HostCall E) :=
  q.world.calls ++ s.toBuilt.call :: outputs.map fun o =>
    s.call o.executable (.exited 0 o.stdout o.stderr)

end Staged

/-- Executions of the deployed harness that went well. -/
structure Executed (s : Staged config host q) where
  outputs : List (Success E)
  disk : Disk E
  machine : M
  successes_eq : s.successes outputs.length = some (outputs, disk, machine)

namespace Executed

variable {s : Staged config host q}

/-- Before the first execution. -/
def none (s : Staged config host q) : Executed s := ⟨[], s.disk, s.machine, rfl⟩

def world (x : Executed s) : World E M := ⟨x.disk, x.machine, s.calls x.outputs⟩

/-- The next execution. -/
def next (x : Executed s) (executable : E) : RunOutcome × Disk E × M :=
  host.execute executable (arguments config q.configuration) config.timeout x.disk x.machine

theorem successes_succ (x : Executed s) {executable : E}
    (he : x.disk.deployedExecutable = some executable) {stdout stderr : Bytes} {disk : Disk E}
    {m : M} (hx : x.next executable = (.exited 0 stdout stderr, disk, m)) :
    s.successes (x.outputs ++ [(⟨executable, stdout, stderr⟩ : Success E)]).length =
      some (x.outputs ++ [⟨executable, stdout, stderr⟩], disk, m) := by
  have hs := x.successes_eq
  unfold Staged.successes at hs ⊢
  unfold next at hx
  rw [List.length_append, List.length_singleton, Simulation.successes, hs]
  simp only [Option.bind_eq_bind, Option.bind_some, he, hx]

/-- One more execution that went well. -/
def append (x : Executed s) {executable : E}
    (he : x.disk.deployedExecutable = some executable) {stdout stderr : Bytes} {disk : Disk E}
    {m : M} (hx : x.next executable = (.exited 0 stdout stderr, disk, m)) : Executed s :=
  ⟨x.outputs ++ [⟨executable, stdout, stderr⟩], disk, m, x.successes_succ he hx⟩

/-- The first execution runs the executable that has been built. -/
theorem head_executable (x : Executed s) : ∀ o ∈ x.outputs.head?, o.executable = s.executable := by
  intro o ho
  have hx : s.output.executable = some o.executable := head_of_successes x.successes_eq o ho
  exact Option.some.inj (hx.symm.trans s.executable_eq)

/-- Where executions keep the deployed files, these are the products of the build. -/
theorem kept (x : Executed s) (hkeeps : host.KeepsDeployed) :
    x.disk.deployedExecutable = some s.executable ∧ x.disk.deployedAssembly = some s.assembly ∧
      ∀ o ∈ x.outputs, o.executable = s.executable := by
  obtain ⟨⟨hexecutable, hassembly⟩, hall⟩ := kept_of_successes hkeeps x.successes_eq
  refine ⟨hexecutable.trans s.executable_eq, hassembly.trans s.assembly_eq, fun o ho => ?_⟩
  have hx : s.output.executable = some o.executable := hall o ho
  exact Option.some.inj (hx.symm.trans s.executable_eq)

end Executed

/-- The context holds what the deployment was given. -/
structure Given (q : Request E M) (d : Deployment E M) : Prop where
  implementation : d.context.implementation = some q.implementation
  configuration : d.context.configuration = some q.configuration

/-- The context holds the results of the given outputs. -/
structure Collected (q : Request E M) (d : Deployment E M) (outputs : List (Success E)) :
    Prop extends Given q d where
  results : d.context.results = resultsOf outputs
  iteration : d.context.currentGlobalIteration = outputs.length

/-- What has happened in a deployment when a state is next. -/
inductive Phase (config : HarnessConfig) (host : Host E M) (q : Request E M) :
    Config DeploymentState (Deployment E M) → Prop
  | verify {d : Deployment E M} (hd : Given q d) (hw : d.world = q.world) :
    Phase config host q ⟨[.verify], d⟩
  | write {d : Deployment E M} (hd : Given q d) (hl : isLegal config q.implementation = true)
    (hw : d.world = q.world) : Phase config host q ⟨[.write], d⟩
  | compile {d : Deployment E M} (hd : Given q d) (hl : isLegal config q.implementation = true)
    (ha : host.canWrite .attack q.world.machine = true)
    (hw : d.world =
      { q.world with disk := { q.world.disk with attack := some q.implementation } }) :
    Phase config host q ⟨[.compile], d⟩
  | prepare {d : Deployment E M} (hd : Given q d) (b : Built config host q)
    (hw : d.world = ⟨b.disk, b.machine, q.world.calls ++ [b.call]⟩) :
    Phase config host q ⟨[.prepare], d⟩
  | runFull {d : Deployment E M} (hd : Given q d) (s : Staged config host q)
    (hw : d.world = (Executed.none s).world) : Phase config host q ⟨[.runFull], d⟩
  | runLoop {d : Deployment E M} {s : Staged config host q} (x : Executed s)
    (hd : Collected q d x.outputs) (hn : x.outputs.length < q.configuration.executions)
    (hw : d.world = x.world) : Phase config host q ⟨[.runLoop], d⟩
  | tabulate {d : Deployment E M} {s : Staged config host q} (x : Executed s)
    (hd : Collected q d x.outputs) (hn : x.outputs.length = q.configuration.executions)
    (hc : q.configuration.Writable host.python) (hw : d.world = x.world) :
    Phase config host q ⟨[.tabulate], d⟩
  | finished {d : Deployment E M} {s : Staged config host q} (x : Executed s) {table : Table}
    (hd : Collected q d x.outputs) (hn : x.outputs.length = q.configuration.executions)
    (hc : q.configuration.Writable host.python) (hw : d.world = x.world)
    (ht : Simulation.tabulate host.python q.configuration (resultsOf x.outputs) = .ok table)
    (hf : d.context.finalTable = some table) : Phase config host q ⟨[], d⟩

/-- How a deployment ends. -/
inductive Ending (config : HarnessConfig) (host : Host E M) (q : Request E M) :
    Except Exn (Deployment E M × Option DeploymentError) → Prop
  | illegal {d : Deployment E M} (hl : isLegal config q.implementation = false)
    (hw : d.world = q.world) :
    Ending config host q (.ok (d, some (.illegalCode q.implementation)))
  | attackUnwritten (hl : isLegal config q.implementation = true)
    (ha : host.canWrite .attack q.world.machine = false) :
    Ending config host q (.error .osError)
  | uutUncopied (hl : isLegal config q.implementation = true)
    (hu : q.world.disk.uut = none ∨ host.canWrite .wrapper q.world.machine = false) (e : Exn) :
    Ending config host q (.error e)
  | makeNotStarted (hl : isLegal config q.implementation = true) {uut : Text}
    (hu : q.world.disk.uut = some uut)
    (hm : host.make (some q.implementation) (some uut) q.world.machine = none) :
    Ending config host q (.error .osError)
  | undecodable (hl : isLegal config q.implementation = true) {uut : Text}
    (hu : q.world.disk.uut = some uut) {output : BuildOutput E} {m : M}
    (hm : host.make (some q.implementation) (some uut) q.world.machine = some (output, m))
    (hb : decode output.stdout = none ∨ decode output.stderr = none) :
    Ending config host q (.error .unicodeDecodeError)
  | build {d : Deployment E M} (hl : isLegal config q.implementation = true)
    (ha : host.canWrite .attack q.world.machine = true) {uut : Text}
    (hu : q.world.disk.uut = some uut) (hu' : host.canWrite .wrapper q.world.machine = true)
    {output : BuildOutput E} {m : M}
    (hm : host.make (some q.implementation) (some uut) q.world.machine = some (output, m))
    {stdout stderr : Text} (ho : decode output.stdout = some stdout)
    (he : decode output.stderr = some stderr) (hc : output.returnCode ≠ 0)
    (hcalls : d.world.calls =
      q.world.calls ++ [.built (some q.implementation) (some uut) output])
    (hdep : d.world.disk.deployedExecutable = q.world.disk.deployedExecutable ∧
      d.world.disk.deployedAssembly = q.world.disk.deployedAssembly) :
    Ending config host q (.ok (d, some (.build ⟨stdout, stderr, output.returnCode⟩)))
  | productUncopied (b : Built config host q)
    (hp : (b.output.executable = none ∨ host.canWrite .executable b.machine = false) ∨
      b.output.assembly = none ∨ host.canWrite .assembly b.machine = false) (e : Exn) :
    Ending config host q (.error e)
  | argumentsRefused (s : Staged config host q) (hc : ¬ q.configuration.Writable host.python) :
    Ending config host q (.error .valueError)
  | executableMissing {s : Staged config host q} (x : Executed s)
    (hn : x.outputs.length < q.configuration.executions)
    (hx : x.disk.deployedExecutable = none) : Ending config host q (.error .fileNotFoundError)
  | notStarted {s : Staged config host q} (x : Executed s)
    (hn : x.outputs.length < q.configuration.executions) {executable : E}
    (hx : x.disk.deployedExecutable = some executable)
    (ho : (x.next executable).1 = .notStarted) : Ending config host q (.error .osError)
  | timeout {d : Deployment E M} {s : Staged config host q} (x : Executed s)
    (hc : q.configuration.Writable host.python)
    (hn : x.outputs.length < q.configuration.executions) {executable : E}
    (hx : x.disk.deployedExecutable = some executable) {disk : Disk E} {m : M}
    (ho : x.next executable = (.timedOut, disk, m))
    (hw : d.world = ⟨disk, m, s.calls x.outputs ++ [s.call executable .timedOut]⟩) :
    Ending config host q (.ok (d, some (.simulationTimeout timeoutResult config.timeout)))
  | failure {d : Deployment E M} {s : Staged config host q} (x : Executed s)
    (hc : q.configuration.Writable host.python)
    (hn : x.outputs.length < q.configuration.executions) {executable : E}
    (hx : x.disk.deployedExecutable = some executable) {disk : Disk E} {m : M} {returnCode : Int}
    {stdout stderr : Bytes} (ho : x.next executable = (.exited returnCode stdout stderr, disk, m))
    (hr : returnCode ≠ 0)
    (hw : d.world =
      ⟨disk, m, s.calls x.outputs ++ [s.call executable (.exited returnCode stdout stderr)]⟩) :
    Ending config host q
      (.ok (d, some (.simulationFailure (failureResult returnCode stdout stderr))))
  | untabulated {s : Staged config host q} (x : Executed s) {e : Exn}
    (hn : x.outputs.length = q.configuration.executions)
    (ht : Simulation.tabulate host.python q.configuration (resultsOf x.outputs) = .error e) :
    Ending config host q (.error e)
  | success {d : Deployment E M} {s : Staged config host q} (x : Executed s) {table : Table}
    (hd : Collected q d x.outputs) (hn : x.outputs.length = q.configuration.executions)
    (hc : q.configuration.Writable host.python) (hw : d.world = x.world)
    (ht : Simulation.tabulate host.python q.configuration (resultsOf x.outputs) = .ok table)
    (hf : d.context.finalTable = some table) : Ending config host q (.ok (d, none))

/-! ## One round -/

/-- A bound on the rounds that are left. -/
def rounds (q : Request E M) (c : Config DeploymentState (Deployment E M)) : Nat :=
  match c.queue with
  | .verify :: _ => q.configuration.executions + 7
  | .write :: _ => q.configuration.executions + 6
  | .compile :: _ => q.configuration.executions + 5
  | .prepare :: _ => q.configuration.executions + 4
  | .runFull :: _ => q.configuration.executions + 3
  | .runLoop :: _ => q.configuration.executions - c.context.context.currentGlobalIteration.toNat + 2
  | .tabulate :: _ => 1
  | [] => 0

/-- A round goes to a later phase or ends the deployment. -/
def Progress (config : HarnessConfig) (host : Host E M) (q : Request E M) (left : Nat) :
    Status DeploymentState (Deployment E M) DeploymentError Exn → Prop
  | .running c => Phase config host q c ∧ rounds q c < left
  | .done r => Ending config host q r

theorem copied_cases {α : Type} (host : Host E M) (source : Option α) (target : Target) (m : M) :
    (∃ file, source = some file ∧ host.canWrite target m = true ∧
        copied host source target m = .ok file) ∨
      (source = none ∨ host.canWrite target m = false) ∧
        ∃ e, copied host source target m = .error e := by
  cases source with
  | none => exact .inr ⟨.inl rfl, _, rfl⟩
  | some file =>
    cases hw : host.canWrite target m with
    | true =>
      refine .inl ⟨file, rfl, rfl, ?_⟩
      simp only [copied, existing, ok_bind, written, hw, if_true]
      rfl
    | false =>
      refine .inr ⟨.inr rfl, .osError, ?_⟩
      simp only [copied, existing, ok_bind, written, hw, Bool.false_eq_true, if_false]
      rfl

theorem progress_verify {d : Deployment E M} (hd : Given q d) (hw : d.world = q.world) :
    Progress config host q (q.configuration.executions + 7)
      (step (executeDeployment config host) ⟨[.verify], d⟩) := by
  have hi := hd.implementation
  cases hl : isLegal config q.implementation with
  | true =>
    have h : executeDeployment config host .verify d = .ok (appendDeploymentState d .write) := by
      simp only [executeDeployment, verifyLegalCode, hi, hl, if_true]
    rw [step_singleton_queue h]
    exact ⟨.write hd hl hw, Nat.lt_succ_self _⟩
  | false =>
    have h : executeDeployment config host .verify d =
        .ok (stopWith d (.illegalCode q.implementation)) := by
      simp only [executeDeployment, verifyLegalCode, hi, hl, Bool.false_eq_true, if_false]
    rw [step_singleton_stop h]
    exact .illegal hl hw

theorem progress_write {d : Deployment E M} (hd : Given q d)
    (hl : isLegal config q.implementation = true) (hw : d.world = q.world) :
    Progress config host q (q.configuration.executions + 6)
      (step (executeDeployment config host) ⟨[.write], d⟩) := by
  obtain ⟨context, world⟩ := d
  cases hw
  have hi : context.implementation = some q.implementation := hd.implementation
  cases ha : host.canWrite .attack q.world.machine with
  | false =>
    have h : executeDeployment config host .write ⟨context, q.world⟩ = .error .osError := by
      simp only [executeDeployment, writeAttack, written, ha, Bool.false_eq_true, if_false]
      rfl
    rw [step_singleton_error h]
    exact .attackUnwritten hl ha
  | true =>
    have h : executeDeployment config host .write ⟨context, q.world⟩ =
        .ok (appendDeploymentState ⟨context, { q.world with
          disk := { q.world.disk with attack := some q.implementation } }⟩ .compile) := by
      simp only [executeDeployment, writeAttack, written, ha, hi, if_true, ok_bind]
      rfl
    rw [step_singleton_queue h]
    exact ⟨.compile ⟨hi, hd.configuration⟩ hl ha rfl, Nat.lt_succ_self _⟩

theorem progress_compile {d : Deployment E M} (hd : Given q d)
    (hl : isLegal config q.implementation = true)
    (ha : host.canWrite .attack q.world.machine = true)
    (hw : d.world =
      { q.world with disk := { q.world.disk with attack := some q.implementation } }) :
    Progress config host q (q.configuration.executions + 5)
      (step (executeDeployment config host) ⟨[.compile], d⟩) := by
  obtain ⟨context, world⟩ := d
  cases hw
  have hi : context.implementation = some q.implementation := hd.implementation
  have hc : context.configuration = some q.configuration := hd.configuration
  obtain ⟨uut, hu, hu', hcopied⟩ | ⟨hu, e, hcopied⟩ :=
    copied_cases host q.world.disk.uut .wrapper q.world.machine
  swap
  · rw [step_singleton_error (e := e)]
    · exact .uutUncopied hl hu e
    · simp only [executeDeployment, compileHarness, hcopied]
      rfl
  obtain hm | ⟨⟨output, machine⟩, hm⟩ :=
    (host.make (some q.implementation) (some uut) q.world.machine).eq_none_or_eq_some
  · rw [step_singleton_error (e := .osError)]
    · exact .makeNotStarted hl hu hm
    · simp only [executeDeployment, compileHarness, hcopied, ok_bind, hm, started]
      rfl
  have hstarted : started (host.make (some q.implementation) (some uut) q.world.machine) =
      .ok (output, machine) := by rw [hm, started]
  obtain hb | ⟨stdout, ho⟩ := (decode output.stdout).eq_none_or_eq_some
  · rw [step_singleton_error (e := .unicodeDecodeError)]
    · exact .undecodable hl hu hm (.inl hb)
    · simp only [executeDeployment, compileHarness, hcopied, ok_bind, hstarted, decodeStrict, hb]
      rfl
  obtain hb | ⟨stderr, he⟩ := (decode output.stderr).eq_none_or_eq_some
  · rw [step_singleton_error (e := .unicodeDecodeError)]
    · exact .undecodable hl hu hm (.inr hb)
    · simp only [executeDeployment, compileHarness, hcopied, ok_bind, hstarted, decodeStrict, ho,
        hb]
      rfl
  by_cases h0 : output.returnCode = 0
  · let b : Built config host q :=
      ⟨uut, output, machine, hl, ha, hu, hu', hm, stdout, stderr, ho, he, h0⟩
    have h : executeDeployment config host .compile ⟨context, { q.world with
        disk := { q.world.disk with attack := some q.implementation } }⟩ =
          .ok (appendDeploymentState ⟨{ context with
            buildStatus := some ⟨stdout, stderr, output.returnCode⟩ },
              ⟨b.disk, b.machine, q.world.calls ++ [b.call]⟩⟩ .prepare) := by
      simp only [executeDeployment, compileHarness, hcopied, ok_bind, hstarted, decodeStrict, ho,
        he, h0, ne_eq, not_true_eq_false, if_false]
      rfl
    rw [step_singleton_queue h]
    exact ⟨.prepare ⟨hi, hc⟩ b rfl, Nat.lt_succ_self _⟩
  · have h : executeDeployment config host .compile ⟨context, { q.world with
        disk := { q.world.disk with attack := some q.implementation } }⟩ =
          .ok (stopWith ⟨{ context with
            buildStatus := some ⟨stdout, stderr, output.returnCode⟩ },
              ⟨q.builtDisk uut output, machine,
                q.world.calls ++ [.built (some q.implementation) (some uut) output]⟩⟩
            (.build ⟨stdout, stderr, output.returnCode⟩)) := by
      simp only [executeDeployment, compileHarness, hcopied, ok_bind, hstarted, decodeStrict, ho,
        he, h0, ne_eq, not_false_eq_true, if_true]
      rfl
    rw [step_singleton_stop h]
    exact .build hl ha hu hu' hm ho he h0 rfl ⟨rfl, rfl⟩

theorem progress_prepare {d : Deployment E M} (hd : Given q d) (b : Built config host q)
    (hw : d.world = ⟨b.disk, b.machine, q.world.calls ++ [b.call]⟩) :
    Progress config host q (q.configuration.executions + 4)
      (step (executeDeployment config host) ⟨[.prepare], d⟩) := by
  obtain ⟨context, world⟩ := d
  cases hw
  obtain ⟨executable, hx, hx', hcopied⟩ | ⟨hx, e, hcopied⟩ :=
    copied_cases host b.disk.executable .executable b.machine
  swap
  · rw [step_singleton_error (e := e)]
    · exact .productUncopied b (.inl hx) e
    · simp only [executeDeployment, prepareDeploymentStage, hcopied]
      rfl
  obtain ⟨assembly, ha, ha', hcopied'⟩ | ⟨ha, e, hcopied'⟩ :=
    copied_cases host b.disk.assembly .assembly b.machine
  swap
  · rw [step_singleton_error (e := e)]
    · exact .productUncopied b (.inr ha) e
    · simp only [executeDeployment, prepareDeploymentStage, hcopied, hcopied', ok_bind]
      rfl
  let s : Staged config host q := { b with
    executable := executable, assembly := assembly, executable_eq := hx, assembly_eq := ha
    executable_written := hx', assembly_written := ha' }
  have hdisk : s.disk = { b.disk with
      deployedExecutable := some executable, deployedAssembly := some assembly } := by
    rw [← hx, ← ha]
    rfl
  have h : executeDeployment config host .prepare
      ⟨context, ⟨b.disk, b.machine, q.world.calls ++ [b.call]⟩⟩ =
        .ok (appendDeploymentState ⟨context, (Executed.none s).world⟩ .runFull) := by
    simp only [executeDeployment, prepareDeploymentStage, hcopied, hcopied', ok_bind,
      Executed.world, Executed.none, hdisk]
    rfl
  rw [step_singleton_queue h]
  exact ⟨.runFull ⟨hd.implementation, hd.configuration⟩ s rfl, Nat.lt_succ_self _⟩

theorem progress_runFull {d : Deployment E M} (hd : Given q d) (s : Staged config host q)
    (hw : d.world = (Executed.none s).world) :
    Progress config host q (q.configuration.executions + 3)
      (step (executeDeployment config host) ⟨[.runFull], d⟩) := by
  have hcollected : Collected q { d with context := { d.context with
      results := [], currentGlobalIteration := 0 } } [] :=
    ⟨⟨hd.implementation, hd.configuration⟩, rfl, rfl⟩
  have hpos : 0 < q.configuration.executions := Nat.lt_of_lt_of_le one_pos (le_max_left _ _)
  rw [step_singleton_queue (by rw [executeDeployment, runSimulation, appendDeploymentState])]
  exact ⟨.runLoop (Executed.none s) hcollected hpos hw, Nat.lt_succ_self _⟩

/-- The results and the counter after one more execution. -/
theorem Collected.append {d : Deployment E M} (d' : Deployment E M) {outputs : List (Success E)}
    {o : Success E} (hd : Collected q d outputs)
    (hi : d'.context.implementation = d.context.implementation)
    (hc : d'.context.configuration = d.context.configuration)
    (hr : d'.context.results = d.context.results ++ [successResult o.stdout o.stderr])
    (hn : d'.context.currentGlobalIteration = d.context.currentGlobalIteration + 1) :
    Collected q d' (outputs ++ [o]) where
  implementation := hi.trans hd.implementation
  configuration := hc.trans hd.configuration
  results := by rw [hr, hd.results, resultsOf, resultsOf, List.map_append]; rfl
  iteration := by rw [hn, hd.iteration, List.length_append, List.length_singleton]; rfl

/-- A harness that succeeds is recorded, and runs again until the executions are complete. -/
theorem progress_success {d₀ d : Deployment E M} {s : Staged config host q} (x : Executed s)
    (hc : q.configuration.Writable host.python) (hd : Collected q d x.outputs)
    (hn : x.outputs.length < q.configuration.executions) {executable : E}
    (hx : x.disk.deployedExecutable = some executable) {stdout stderr : Bytes} {disk : Disk E}
    {m : M} (ho : x.next executable = (.exited 0 stdout stderr, disk, m))
    (hw : d.world =
      ⟨disk, m, s.calls x.outputs ++ [s.call executable (.exited 0 stdout stderr)]⟩)
    (h : executeDeployment config host .runLoop d₀ =
      .ok (appendResult q.configuration d (successResult stdout stderr))) :
    Progress config host q (q.configuration.executions - x.outputs.length + 2)
      (step (executeDeployment config host) ⟨[.runLoop], d₀⟩) := by
  let y : Executed s := x.append hx ho
  let d' : Deployment E M := { d with context := { d.context with
    results := d.context.results ++ [successResult stdout stderr]
    currentGlobalIteration := d.context.currentGlobalIteration + 1 } }
  have hd' : Collected q d' y.outputs :=
    @Collected.append _ _ q d d' x.outputs ⟨executable, stdout, stderr⟩ hd rfl rfl rfl rfl
  have hworld : d'.world = y.world := by
    simp only [d', hw, y, Executed.world, Executed.append, Staged.calls, List.map_append,
      List.append_assoc, List.cons_append, List.map_cons, List.map_nil]
  have hlength : y.outputs.length = x.outputs.length + 1 := by
    simp only [y, Executed.append, List.length_append, List.length_singleton]
  have hiteration : d.context.currentGlobalIteration = x.outputs.length := hd.iteration
  by_cases hlt : (x.outputs.length : Int) + 1 < q.configuration.globalIterations
  · rw [appendResult, hiteration, if_pos hlt] at h
    rw [step_singleton_queue h]
    simp only [d', hiteration] at hd' hworld
    refine ⟨.runLoop y hd' ?_ hworld, ?_⟩
    · rw [hlength, RunConfiguration.executions]
      omega
    · simp only [rounds]
      omega
  · rw [appendResult, hiteration, if_neg hlt] at h
    rw [step_singleton_queue h]
    simp only [d', hiteration] at hd' hworld
    refine ⟨.tabulate y hd' ?_ hc hworld, ?_⟩
    · rw [RunConfiguration.executions] at hn ⊢
      rw [hlength]
      omega
    · show 1 < _
      omega

theorem progress_runLoop {d : Deployment E M} {s : Staged config host q} (x : Executed s)
    (hd : Collected q d x.outputs) (hn : x.outputs.length < q.configuration.executions)
    (hw : d.world = x.world) :
    Progress config host q (q.configuration.executions - x.outputs.length + 2)
      (step (executeDeployment config host) ⟨[.runLoop], d⟩) := by
  obtain ⟨context, world⟩ := d
  obtain rfl : world = x.world := hw
  have hconfiguration : orAttributeError context.configuration = .ok q.configuration := by
    have hc : context.configuration = some q.configuration := hd.configuration
    rw [hc, orAttributeError]
  by_cases hc : q.configuration.Writable host.python
  swap
  · rw [step_singleton_error (e := .valueError)]
    · exact .argumentsRefused s hc
    · simp only [executeDeployment, runSimulationIteration, hconfiguration, ok_bind,
        commands_eq_error hc]
      rfl
  have hcommands : commands host.python config q.configuration =
      .ok (arguments config q.configuration) := commands_eq hc
  obtain hx | ⟨executable, hx⟩ := x.disk.deployedExecutable.eq_none_or_eq_some
  · have hexisting : existing x.world.disk.deployedExecutable = .error .fileNotFoundError := by
      rw [Executed.world, hx, existing]
    rw [step_singleton_error (e := .fileNotFoundError)]
    · exact .executableMissing x hn hx
    · simp only [executeDeployment, runSimulationIteration, hconfiguration, ok_bind, hcommands,
        hexisting]
      rfl
  have hexisting : existing x.world.disk.deployedExecutable = .ok executable := by
    rw [Executed.world, hx, existing]
  obtain ⟨⟨outcome, disk, m⟩, ho⟩ : ∃ r, x.next executable = r := ⟨_, rfl⟩
  have ho' : host.execute executable (arguments config q.configuration) config.timeout
      x.world.disk x.world.machine = (outcome, disk, m) := ho
  let d : Deployment E M :=
    ⟨context, ⟨disk, m, s.calls x.outputs ++ [s.call executable outcome]⟩⟩
  have hd' : Collected q d x.outputs :=
    ⟨⟨hd.implementation, hd.configuration⟩, hd.results, hd.iteration⟩
  cases outcome with
  | notStarted =>
    rw [step_singleton_error (e := .osError)]
    · exact .notStarted x hn hx (congrArg Prod.fst ho)
    · simp only [executeDeployment, runSimulationIteration, hconfiguration, ok_bind, hcommands,
        hexisting, ho']
  | timedOut =>
    have h : executeDeployment config host .runLoop ⟨context, x.world⟩ =
        .ok (stopWith d (.simulationTimeout timeoutResult config.timeout)) := by
      simp only [executeDeployment, runSimulationIteration, hconfiguration, ok_bind, hcommands,
        hexisting, ho']
      rfl
    rw [step_singleton_stop h]
    exact .timeout x hc hn hx ho rfl
  | exited returnCode stdout stderr =>
    by_cases h0 : returnCode = 0
    · subst h0
      have h : executeDeployment config host .runLoop ⟨context, x.world⟩ =
          .ok (appendResult q.configuration d (successResult stdout stderr)) := by
        simp only [executeDeployment, runSimulationIteration, hconfiguration, ok_bind, hcommands,
          hexisting, ho', ne_eq, not_true_eq_false, if_false]
        rfl
      exact progress_success x hc hd' hn hx ho rfl h
    · have h : executeDeployment config host .runLoop ⟨context, x.world⟩ =
          .ok (stopWith d (.simulationFailure (failureResult returnCode stdout stderr))) := by
        simp only [executeDeployment, runSimulationIteration, hconfiguration, ok_bind, hcommands,
          hexisting, ho', h0, ne_eq, not_false_eq_true, if_true]
        rfl
      rw [step_singleton_stop h]
      exact .failure x hc hn hx ho h0 rfl

theorem progress_tabulate {d : Deployment E M} {s : Staged config host q} (x : Executed s)
    (hd : Collected q d x.outputs) (hn : x.outputs.length = q.configuration.executions)
    (hc : q.configuration.Writable host.python) (hw : d.world = x.world) :
    Progress config host q 1 (step (executeDeployment config host) ⟨[.tabulate], d⟩) := by
  have hconfiguration := hd.configuration
  have hr := hd.results
  cases ht : tabulate host.python q.configuration (resultsOf x.outputs) with
  | error e =>
    rw [step_singleton_error (e := e)]
    · exact .untabulated x hn ht
    · simp only [executeDeployment, tabulateResults, hconfiguration, hr, orAttributeError, ok_bind,
        ht]
      rfl
  | ok table =>
    have h : executeDeployment config host .tabulate d = .ok ⟨{ d with
        context := { d.context with finalTable := some table } }, [], none⟩ := by
      simp only [executeDeployment, tabulateResults, hconfiguration, orAttributeError, ok_bind]
      rw [hr, ht]
      rfl
    rw [step_singleton_queue h]
    exact ⟨.finished x ⟨⟨hd.implementation, hconfiguration⟩, hr, hd.iteration⟩ hn hc hw ht rfl,
      one_pos⟩

/-- **Round.** From every phase a round goes to a later phase or ends the deployment. -/
theorem Phase.round {c : Config DeploymentState (Deployment E M)} (h : Phase config host q c) :
    Progress config host q (rounds q c) (step (executeDeployment config host) c) := by
  cases h with
  | verify hd hw => exact progress_verify hd hw
  | write hd hl hw => exact progress_write hd hl hw
  | compile hd hl ha hw => exact progress_compile hd hl ha hw
  | prepare hd b hw => exact progress_prepare hd b hw
  | runFull hd s hw => exact progress_runFull hd s hw
  | runLoop x hd hn hw =>
    have h := progress_runLoop x hd hn hw
    have hiteration := hd.iteration
    simpa only [rounds, hiteration, Int.toNat_natCast] using h
  | tabulate x hd hn hc hw => exact progress_tabulate x hd hn hc hw
  | finished x hd hn hc hw ht hf => exact .success x hd hn hc hw ht hf

theorem Phase.step {a b : Config DeploymentState (Deployment E M)} (h : Phase config host q a)
    (hstep : StateQueue.step (executeDeployment config host) a = .running b) :
    Phase config host q b ∧ rounds q b < rounds q a := by
  have hround := h.round
  rwa [hstep] at hround

theorem Phase.done {c : Config DeploymentState (Deployment E M)} (h : Phase config host q c)
    {r : Except Exn (Deployment E M × Option DeploymentError)}
    (hstep : StateQueue.step (executeDeployment config host) c = .done r) :
    Ending config host q r := by
  have hround := h.round
  rwa [hstep] at hround

/-- Every configuration of a deployment is in a phase. -/
theorem phase_of_steps {d : Deployment E M} (hd : Given q d) (hw : d.world = q.world)
    {c : Config DeploymentState (Deployment E M)}
    (h : Steps (executeDeployment config host) (deploymentStart d) c) : Phase config host q c :=
  steps_invariant (fun _ _ ha hstep => (ha.step hstep).1) (.verify hd hw) h

/-- **Endings.** A deployment ends, whatever the context held before, and in one of the ways
of `Ending`. -/
theorem deploymentLoop_ending {d : Deployment E M} (hd : Given q d) (hw : d.world = q.world) :
    ∃ r, Ending config host q r ∧
      ∀ n, q.configuration.executions + 8 ≤ n → deploymentLoop config host n d = some r := by
  have hstart : Phase config host q (deploymentStart d) := .verify hd hw
  obtain ⟨r, hr⟩ := exists_loop (rounds q) (fun _ _ ha hstep => ha.step hstep) hstart
    (Nat.lt_succ_self _)
  obtain ⟨c, hc, hdone⟩ := loop_eq_some_iff.mp ⟨_, hr⟩
  refine ⟨r, (phase_of_steps hd hw hc).done hdone, fun n hn => ?_⟩
  obtain ⟨k, rfl⟩ := Nat.exists_eq_add_of_le hn
  exact loop_add hr k

/-- Whatever the loop returns is an ending. -/
theorem ending_of_deploymentLoop {d : Deployment E M} (hd : Given q d) (hw : d.world = q.world)
    {n : Nat} {r : Except Exn (Deployment E M × Option DeploymentError)}
    (h : deploymentLoop config host n d = some r) : Ending config host q r := by
  obtain ⟨c, hc, hdone⟩ := loop_eq_some_iff.mp ⟨n, h⟩
  exact (phase_of_steps hd hw hc).done hdone

end Course

end MicroSampler.Simulation
