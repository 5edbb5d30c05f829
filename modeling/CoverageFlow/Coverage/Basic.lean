import CoverageFlow.Graph.Function
import CoverageFlow.UnitPaths

/-!
# Coverage of a compilation unit

What a notes file tells about the functions of a compilation unit, completed by the counts of its
data file if there is one.

## Main definitions

* `Coverage`: the functions of a unit, by their identifiers.
* `Coverage.function?`: the function with an identifier.
* `Coverage.compareByPath`: the order of units.
* `Logged`: a computation that gives warnings.
-/

namespace CoverageFlow

/-- A computation that gives warnings, which stay when it fails. -/
abbrev Logged (α : Type) : Type := EStateM Failure (List Warning) α

namespace Logged

/-- Gives a warning. -/
def warn (w : Warning) : Logged Unit :=
  modify (· ++ [w])

/-- Fails if something did. -/
def ofExcept {α : Type} : Except Failure α → Logged α
  | .ok a => pure a
  | .error e => throw e

/-- Adds a place to every failure of a computation. -/
def passing {α : Type} (place : Place) (x : Logged α) : Logged α := fun log =>
  match x log with
  | .ok a log => .ok a log
  | .error e log => .error (e.passing place) log

end Logged

/-- Whether there were counts. -/
inductive DataStatus where
  /-- The counts of a data file are merged. -/
  | merged
  /-- There is no data file, so no count is known. -/
  | missing
deriving DecidableEq, Inhabited

/-- The name of a status. -/
def DataStatus.text : DataStatus → String
  | merged => "Merged"
  | missing => "Missing"

/-- The coverage of a compilation unit. -/
structure Coverage where
  paths : UnitPaths
  version : Version
  stamp : UInt32
  functions : Std.ExtTreeMap Ident FunctionGraph
  /-- The names of the source files. -/
  symbols : SymbolTable
  /-- How often the program ran. -/
  runs : UInt32
  /-- The number of program summaries. -/
  programs : Nat
  status : DataStatus

namespace Coverage

/-- The functions, ordered by identifier. -/
def functionList (c : Coverage) : List FunctionGraph :=
  c.functions.toList.map Prod.snd

/-- The function with an identifier. -/
def function? (c : Coverage) (ident : Ident) : Option FunctionGraph :=
  c.functions[ident]?

/-- How a function is called in a message: by its name, or by its identifier if it is not
known. -/
def nameOf (c : Coverage) (ident : Ident) : String :=
  match c.function? ident with
  | some f => f.name
  | none => "#" ++ ident.text

/-- The order of units: by the paths of their notes files. -/
def compareByPath (a b : Coverage) : Ordering :=
  compare a.paths b.paths

/-- Units in the order of their paths; units with the same path keep theirs. -/
def sortByPath (units : List Coverage) : List Coverage :=
  units.mergeSort fun a b => (a.compareByPath b).isLE

end Coverage

end CoverageFlow
