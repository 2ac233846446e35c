import MicroSampler.Statistics.Analysis

/-!
# The context of the governor

The answers of the agents, the context that the states of the governor share, and the
events that they log.
-/

namespace MicroSampler.Agents

open Simulation Statistics

/-! ## The answers -/

structure Hypothesis where
  hypothesis : Text
  previousImplementationBugs : List Text
  runConfiguration : RunConfiguration

structure Implementation where
  attackCode : Text
  changes : Option (List Text)

structure Summarization where
  description : Text
  suggestion : Text
  failureReason : Text
  bugs : List Text

/-! ## The context -/

/-- `LoopState`. -/
inductive LoopState
  | hypothesis | codeGen | simulation | analysis | summarization | conclusion
  deriving DecidableEq

/-- `GovernorContext`. -/
structure GovernorContext (F : Type) where
  iteration : Nat
  currentSummarization : Option Summarization
  currentHypothesis : Option Hypothesis
  currentImplementation : Option Implementation
  currentStats : Option (StatisticalAnalysisResults F)
  currentResults : Option Table
  simulationFeedback : Option Text

/-- The context as it is created. -/
def GovernorContext.initial (F : Type) : GovernorContext F where
  iteration := 1
  currentSummarization := none
  currentHypothesis := none
  currentImplementation := none
  currentStats := none
  currentResults := none
  simulationFeedback := none

/-- `str(error)`. -/
def message : DeploymentError → Text
  | .illegalCode _ => ("illegal code: the attack code you wrote does not pass preliminary " ++
      "validation,         you may have unallowed local references.").toList
  | .build result => "build failed with code: ".toList ++ (toString result.returnCode).toList
  | .simulationTimeout _ limit => "simulation timed out, run exceeded ".toList ++
      (toString limit).toList ++ " seconds".toList
  | .simulationFailure result =>
    "simulation failed with code: ".toList ++ (toString result.returnCode).toList

/-! ## The events -/

/-- `ReportEvent` and its subclasses, each with its iteration and its payload. -/
inductive Event (F : Type)
  | toolCall (iteration : Nat) (name : Text)
  | hypothesis (iteration : Nat) (payload : Option Hypothesis)
  | implementation (iteration : Nat) (payload : Option Implementation)
  | implementationError (iteration : Nat) (payload : DeploymentError)
  | simulationDeployment (iteration : Nat)
  | simulationError (iteration : Nat) (payload : DeploymentError)
  | analysis (iteration : Nat) (payload : StatisticalAnalysisResults F)
  | summarization (iteration : Nat) (payload : Option Summarization)
  | conclusion (iteration : Nat) (payload : Option (StatisticalAnalysisResults F))

namespace Event

variable {F : Type}

def iteration : Event F → Nat
  | toolCall i _ | hypothesis i _ | implementation i _ | implementationError i _
  | simulationDeployment i | simulationError i _ | analysis i _ | summarization i _
  | conclusion i _ => i

def isToolCall : Event F → Bool
  | toolCall _ _ => true
  | _ => false

end Event

end MicroSampler.Agents
