import ServiceConfig.Error
import ServiceConfig.Log.Level
import ServiceConfig.Text.Number
import ServiceConfig.Tree.Search

/-! # Typed values

A typed lookup interprets the value of the first leaf that matches. Without such a leaf there is
nothing to interpret; a value that cannot be interpreted is an error that repeats it.
-/

namespace ServiceConfig

/-- Exactly one character. -/
def Text.readChar? (text : String) : Option Char :=
  match text.toList with
  | [char] => some char
  | _ => none

def Text.readTruth? (text : String) : Option Bool :=
  if text = "true" then some true else if text = "false" then some false else none

/-- The words for a switch that is on or off, in any case. -/
def Text.readSwitch? (text : String) : Option Bool :=
  if ["yes", "on", "true", "1"].any (Ascii.equalFold · text) then some true
  else if ["no", "off", "false", "0"].any (Ascii.equalFold · text) then some false
  else none

namespace Tree

def findParsed {α : Type} (tree : Tree) (list : ListId) (query : Query)
    (read? : String → Option α) : Except ConfigError (Option α) :=
  match tree.findValue? list query with
  | none => .ok none
  | some value =>
    match read? value with
    | some parsed => .ok (some parsed)
    | none => .error (.invalidValue query.name value)

def findBool (tree : Tree) (list : ListId) (query : Query) : Except ConfigError (Option Bool) :=
  tree.findParsed list query Text.readSwitch?

end Tree

end ServiceConfig
