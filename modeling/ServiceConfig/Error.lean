import ServiceConfig.Files
import ServiceConfig.Grammar.Fault
import ServiceConfig.Text.Quoted

/-! # Failures of a configuration

What can go wrong while a configuration is read or a value in it is interpreted, each with the text
that reports it.
-/

namespace ServiceConfig

inductive ConfigError
  | file (path : String) (fault : FileFault)
  | text (origin : String) (complaint : Grammar.Complaint)
  | includeDepth (path : String)
  | invalidValue (name value : String)
  deriving DecidableEq, Repr

def ConfigError.message : ConfigError → String
  | .file path fault => path ++ ": " ++ fault.message
  | .text origin complaint =>
    origin ++ ":" ++ toString complaint.line ++ " " ++ complaint.fault.message
  | .includeDepth path => path ++ ": includes nested too deeply"
  | .invalidValue name value => "invalid value for " ++ name ++ ": " ++ Text.quoted value

/-- The short label of an error. -/
def ConfigError.kind : ConfigError → String
  | .file _ _ => "io"
  | .text _ _ => "syntax"
  | .includeDepth _ => "include_depth"
  | .invalidValue _ _ => "invalid_value"

end ServiceConfig
