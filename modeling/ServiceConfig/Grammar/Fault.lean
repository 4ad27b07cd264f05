/-! # Faults of a text

What can be wrong with a text, and the line on which it is wrong.
-/

namespace ServiceConfig.Grammar

inductive Fault
  | unterminated
  | prematureEnd
  | unfinished
  | unclosedBraces
  | unexpectedBrace
  | missingSemicolon
  | trailingGarbage
  | nestedTooDeeply
  deriving DecidableEq, Repr

def Fault.message : Fault → String
  | .unterminated => "unterminated string or comment beginning here"
  | .prematureEnd => "file terminated prematurely"
  | .unfinished => "syntax error"
  | .unclosedBraces => "syntax error (unclosed braces)"
  | .unexpectedBrace => "unexpected closing brace ('\x7d')"
  | .missingSemicolon => "missing semicolon (';')"
  | .trailingGarbage => "garbage between closing brace ('\x7d') and semicolon (';')"
  | .nestedTooDeeply => "sections nested too deeply"

/-- A fault and the line it is reported for. -/
structure Complaint where
  line : Nat
  fault : Fault
  deriving DecidableEq, Repr

end ServiceConfig.Grammar
