import ServiceConfig.Grammar.Event
import ServiceConfig.Grammar.Fault
import ServiceConfig.Grammar.Value
import ServiceConfig.Text.Utf8

/-! # Statements

A statement is `name value;` or `name value { … };`. Its head, up to the `;` or `{`, is read by
`Cursor.statement`; what the braces hold is a matter of the whole script. The name is missing when
the statement begins with a quote or a brace, and also when a lone word stands before the `;`: that
word is the value.
-/

namespace ServiceConfig.Grammar

open Ascii

/-- What is left of a text, and the number of the line on which it begins. -/
structure Cursor where
  rest : List UInt8
  line : Nat
  deriving DecidableEq, Repr

namespace Cursor

/-- Passes the leading bytes of a class. -/
def skip (cursor : Cursor) (inClass : UInt8 → Bool) : Cursor :=
  ⟨cursor.rest.dropWhile inClass, cursor.line + newlines (cursor.rest.takeWhile inClass)⟩

def skipBlanks (cursor : Cursor) : Cursor := cursor.skip isBlank

end Cursor

/-- A word runs to the next blank, brace or semicolon; quotes may be part of it. -/
def isWordByte (byte : UInt8) : Bool := !isBlank byte && !isDelimiter byte

/-- The bytes of a statement's name, and the place where its value begins. -/
def Cursor.name (start : Cursor) : Except Complaint (List UInt8 × Cursor) :=
  if start.rest.head? = some quote ∨ start.rest.head? = some openBrace then .ok ([], start)
  else
    let wordEnd := start.skip isWordByte
    if wordEnd.rest = [] then .error ⟨start.line, .prematureEnd⟩
    else
      let valueStart := wordEnd.skipBlanks
      if valueStart.rest.head? = some semicolon then .ok ([], start)
      else .ok (start.rest.takeWhile isWordByte, valueStart)

/-- The head of the statement at a byte that is neither blank nor a closing brace, and the place
after its `;` or `{`. -/
def Cursor.statement (start : Cursor) : Except Complaint (Event × Cursor) :=
  match start.name with
  | .error complaint => .error complaint
  | .ok (nameBytes, valueStart) =>
    let (raw, after) := splitValue valueStart.rest
    let line := valueStart.line + newlines raw
    match after with
    | [] => .error ⟨start.line, .unfinished⟩
    | delimiter :: rest =>
      let name := Utf8.decodeLenient nameBytes
      let value := Utf8.decodeLenient (expand raw)
      if delimiter = closeBrace then .error ⟨line, .missingSemicolon⟩
      else if delimiter = semicolon then .ok (.ofLeaf name value, ⟨rest, line⟩)
      else .ok (.ofOpening name value, ⟨rest, line⟩)

/-- After the `}` of a block only blanks may stand before its `;`. -/
def Cursor.blockEnd (afterBrace : Cursor) : Except Complaint Cursor :=
  let next := afterBrace.skipBlanks
  match next.rest with
  | [] => .error ⟨next.line, .missingSemicolon⟩
  | byte :: rest =>
    if byte = semicolon then .ok ⟨rest, next.line⟩ else .error ⟨next.line, .trailingGarbage⟩

theorem splitValueFrom_append (quoting : Quoting) (text : List UInt8) :
    (splitValueFrom quoting text).1 ++ (splitValueFrom quoting text).2 = text := by
  induction text generalizing quoting with
  | nil => rfl
  | cons byte rest ih =>
    rw [splitValueFrom]
    split
    · rfl
    · simp [ih]

theorem splitValue_append (text : List UInt8) :
    (splitValue text).1 ++ (splitValue text).2 = text := splitValueFrom_append .outside text

theorem Cursor.skip_length_le (cursor : Cursor) (inClass : UInt8 → Bool) :
    (cursor.skip inClass).rest.length ≤ cursor.rest.length :=
  (List.dropWhile_sublist _).length_le

theorem Cursor.name_length_le {start valueStart : Cursor} {nameBytes : List UInt8}
    (named : start.name = .ok (nameBytes, valueStart)) :
    valueStart.rest.length ≤ start.rest.length := by
  unfold Cursor.name at named
  split at named
  · cases named
    exact Nat.le_refl _
  · dsimp only at named
    split at named
    · cases named
    · split at named
      · cases named
        exact Nat.le_refl _
      · cases named
        exact Nat.le_trans (Cursor.skip_length_le _ _) (Cursor.skip_length_le _ _)

theorem Cursor.statement_length_lt {start next : Cursor} {event : Event}
    (read : start.statement = .ok (event, next)) : next.rest.length < start.rest.length := by
  unfold Cursor.statement at read
  split at read
  · cases read
  next nameBytes valueStart named =>
    have short := Cursor.name_length_le named
    have whole := congrArg List.length (splitValue_append valueStart.rest)
    revert read whole
    rcases splitValue valueStart.rest with ⟨raw, after⟩
    intro read whole
    simp only [List.length_append] at whole
    cases after with
    | nil => cases read
    | cons delimiter rest =>
      simp only [List.length_cons] at whole
      dsimp only at read
      split at read
      · cases read
      · split at read <;> cases read <;> dsimp only <;> omega

theorem Cursor.blockEnd_length_lt {afterBrace next : Cursor}
    (ended : afterBrace.blockEnd = .ok next) : next.rest.length < afterBrace.rest.length := by
  have short := Cursor.skip_length_le afterBrace isBlank
  unfold Cursor.blockEnd Cursor.skipBlanks at ended
  dsimp only at ended
  split at ended
  · cases ended
  next byte rest shape =>
    split at ended
    · cases ended
      rw [shape, List.length_cons] at short
      exact short
    · cases ended

end ServiceConfig.Grammar
