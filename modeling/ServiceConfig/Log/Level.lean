import ServiceConfig.Text.Ascii

/-! # Log levels

Levels are ordered from the least to the most severe; names that are not known rank last.
-/

namespace ServiceConfig.Log

inductive Level
  | debug
  | notice
  | warning
  | error
  | unknown
  deriving DecidableEq, Repr

namespace Level

def name : Level → String
  | .debug => "debug"
  | .notice => "notice"
  | .warning => "warning"
  | .error => "error"
  | .unknown => "unknown"

/-- The name that stands in diagnostics of the program itself. -/
def title : Level → String
  | .debug => "Debug"
  | .notice => "Notice"
  | .warning => "Warn"
  | .error => "Error"
  | .unknown => "Unknown"

/-- The name under which events of a level are forwarded to the trace. -/
def traceName : Level → String
  | .debug => "debug"
  | .notice => "info"
  | .warning => "warn"
  | .error => "error"
  | .unknown => "trace"

/-- Every text names a level. The two middle levels are known by how they begin, so that "warn" and
"warning" both are names. -/
def ofText (text : String) : Level :=
  if Ascii.equalFold text "debug" then .debug
  else if Ascii.equalFold text "notice" then .notice
  else if Ascii.startsWithFold text "warn" then .warning
  else if Ascii.startsWithFold text "err" then .error
  else .unknown

def rank : Level → Nat
  | .debug => 0
  | .notice => 1
  | .warning => 2
  | .error => 3
  | .unknown => 4

instance : Ord Level := ⟨fun first second => compare first.rank second.rank⟩

end Level

end ServiceConfig.Log
