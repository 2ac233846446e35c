import MicroSampler.Library.Dict
import MicroSampler.Library.JsonLimits

/-!
# The deployment context

The records that a deployment of an attack reads and writes, the errors it ends with, and
the exceptions of Python that nothing in it catches.
-/

namespace MicroSampler.Simulation

abbrev Text := List Char

/-- A row of a table: the cells by column name. -/
abbrev Row := Dict CodePoints Json

/-- `pd.DataFrame` of a list of rows. -/
abbrev Table := List Row

structure RunConfiguration where
  globalIterations : Int
  innerIterations : Int
  runName : Text
  randomSeed : Int

structure RunResult where
  stdout : Option Text
  stderr : Option Text
  outputFiles : Option (List Text)
  errored : Bool
  timedout : Bool
  returnCode : Int

structure BuildResult where
  stdout : Text
  stderr : Text
  returnCode : Int

/-- What a deployment can be stopped with. -/
inductive DeploymentError
  | illegalCode (source : Text)
  | build (result : BuildResult)
  | simulationTimeout (result : RunResult) (limit : Int)
  | simulationFailure (result : RunResult)

/-- The exceptions that end the program. -/
inductive Exn
  | keyError (key : CodePoints)
  | indexError
  | typeError
  | attributeError
  | valueError
  | zeroDivisionError
  | jsonDecodeError
  | unicodeDecodeError
  | fileNotFoundError
  | osError
  | recursionError
  | missingAttackAssembly
  | library

/-- `CCopyDeploymentContext`. -/
structure DeploymentContext where
  implementation : Option Text
  configuration : Option RunConfiguration
  buildStatus : Option BuildResult
  results : List RunResult
  currentGlobalIteration : Int
  finalTable : Option Table

/-- The context as it is created. -/
def DeploymentContext.initial : DeploymentContext where
  implementation := none
  configuration := none
  buildStatus := none
  results := []
  currentGlobalIteration := 0
  finalTable := none

/-! ## The interpreter -/

/-- The limits of the interpreter that runs the deployments. The limit of digits cannot be set
below 640; five is the nesting of the documents that the harness prints. -/
structure Interpreter where
  limits : Json.Limits
  digits_ge : 640 ≤ limits.digits
  depth_ge : 5 ≤ limits.depth

/-- The digits of the number can be written and read. -/
def Interpreter.Writes (py : Interpreter) (n : Int) : Prop := Json.digitCount n ≤ py.limits.digits

instance (py : Interpreter) (n : Int) : Decidable (py.Writes n) :=
  inferInstanceAs (Decidable (_ ≤ _))

/-- `str(n)`. -/
def Interpreter.str (py : Interpreter) (n : Int) : Except Exn Text :=
  if py.Writes n then .ok (toString n).toList else .error .valueError

/-- `json.loads`. -/
def Interpreter.loads (py : Interpreter) (s : Text) : Except Exn Json :=
  match Json.loads py.limits s with
  | .ok v => .ok v
  | .error .grammar => .error .jsonDecodeError
  | .error .digits => .error .valueError
  | .error .depth => .error .recursionError

/-- The default limit of digits, and one of nesting. -/
def Interpreter.default : Interpreter := ⟨⟨4300, 900⟩, by decide, by decide⟩

theorem Interpreter.loads_eq_ok_iff {py : Interpreter} {s : Text} {v : Json} :
    py.loads s = .ok v ↔ Json.readText s = some v ∧ Json.Within py.limits v := by
  rw [← Json.loads_eq_ok_iff, loads]
  cases Json.loads py.limits s with
  | ok w => simp only [Except.ok.injEq]
  | error fault => cases fault <;> simp only [reduceCtorEq]

/-- An attribute of a value that may be `None`. -/
def orAttributeError {α : Type} : Option α → Except Exn α
  | some a => .ok a
  | none => .error .attributeError

end MicroSampler.Simulation
