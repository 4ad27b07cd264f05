import ServiceConfig.Grammar.Comment
import ServiceConfig.Grammar.Statement

/-! # Scripts

A script is what a text says: its statements in order, each with the line it begins on, up to the
end of the text or the first fault. Blocks are not nested here but opened and closed in sequence;
the scanner keeps the lines of the blocks that are still open.
-/

namespace ServiceConfig.Grammar

open Ascii

structure Statement where
  line : Nat
  event : Event
  deriving DecidableEq, Repr

structure Script where
  statements : List Statement
  complaint? : Option Complaint
  deriving DecidableEq, Repr

namespace Script

def finished : Script := ⟨[], none⟩
def failed (line : Nat) (fault : Fault) : Script := ⟨[], some ⟨line, fault⟩⟩

def cons (statement : Statement) (script : Script) : Script :=
  ⟨statement :: script.statements, script.complaint?⟩

/-- The lines of the blocks that are open after a statement. -/
def openLines (statement : Statement) (lines : List Nat) : List Nat :=
  match statement.event with
  | .opening _ _ => statement.line :: lines
  | .leaf _ _ | .closing => lines

/-- Reads statements from a place where the blocks begun on `lines`, innermost first, are open. -/
def scan (cursor : Cursor) (lines : List Nat) : Script :=
  let start := cursor.skipBlanks
  match _text : start.rest with
  | [] =>
    match lines with
    | [] => finished
    | opened :: _ => failed opened .unclosedBraces
  | byte :: rest =>
    if byte = closeBrace then
      match lines with
      | [] => failed start.line .unexpectedBrace
      | _ :: outer =>
        match _ended : Cursor.blockEnd ⟨rest, start.line⟩ with
        | .error complaint => ⟨[], some complaint⟩
        | .ok next => cons ⟨start.line, .closing⟩ (scan next outer)
    else
      match _read : start.statement with
      | .error complaint => ⟨[], some complaint⟩
      | .ok (event, next) =>
        cons ⟨start.line, event⟩ (scan next (openLines ⟨start.line, event⟩ lines))
termination_by cursor.rest.length
decreasing_by
  · have short := cursor.skip_length_le isBlank
    have shorter := Cursor.blockEnd_length_lt _ended
    have whole := congrArg List.length _text
    simp only [start, Cursor.skipBlanks, List.length_cons] at whole shorter
    omega
  · have short := cursor.skip_length_le isBlank
    have shorter := Cursor.statement_length_lt _read
    simp only [start, Cursor.skipBlanks] at shorter
    omega

/-- What a text says once its comments are removed. A string or comment that never ends is the
text's only complaint. -/
def ofText (text : List UInt8) : Script :=
  match strip text with
  | .error began => failed began .unterminated
  | .ok source => scan ⟨source, 1⟩ []

end Script

end ServiceConfig.Grammar
