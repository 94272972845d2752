import ChunkTree.Fault

/-!
# Severities

How much a log entry matters.
-/

namespace ChunkTree

/-- The severities, the least first. -/
inductive Severity where
  | trace
  | debug
  | info
  | warning
  | error
  | fatal
deriving DecidableEq

namespace Severity

/-- The name of a severity. -/
def name : Severity → String
  | trace => "trace"
  | debug => "debug"
  | info => "info"
  | warning => "warning"
  | error => "error"
  | fatal => "fatal"

/-- The severity of a name, which has to be spelled exactly so. -/
def named (name : String) : Except Fault Severity :=
  match name with
  | "trace" => .ok trace
  | "debug" => .ok debug
  | "info" => .ok info
  | "warning" => .ok warning
  | "error" => .ok error
  | "fatal" => .ok fatal
  | _ => .error (.unknownSeverity name)

@[simp]
theorem named_name (severity : Severity) : named severity.name = .ok severity := by
  cases severity <;> rfl

end Severity

end ChunkTree
