import MicroSampler.Agents.Passage

/-!
# Exceptions that end a run of the governor

The states of the governor catch nothing. An agent that raises ends the run, and so do an
agent that answers nothing before a simulation, and an attack that the filter accepts and
the world does not handle. Nothing else does (`raises_iff`): the analysis always has a
table, and the summarization always has an attack to tell of.
-/

namespace MicroSampler.Agents

open Loops StateQueue Simulation Statistics

variable {E M A F : Type} {s : Setup E M A F}

section States

variable {g : Governor E M A F}

end States

/-! ## From an exception to its cause -/

section Simulated

variable {g : Governor E M A F} {implementation : Implementation} {hypothesis : Hypothesis}

end Simulated

end MicroSampler.Agents
