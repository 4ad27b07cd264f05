import ServiceConfig.Proofs.Grammar.Comment

/-! # Scanning

One step of the scanner at a time: how far it passes bytes of a class, what it reads once the name
of a statement is known, and how a script begins.
-/

namespace ServiceConfig.Grammar

open Ascii

theorem isBlank_of_isDelimiter {byte : UInt8} (delimits : isDelimiter byte = true) :
    isBlank byte = false := by
  simp only [isDelimiter, Bool.or_eq_true, beq_iff_eq] at delimits
  rcases delimits with (rfl | rfl) | rfl <;> rfl

/-- A run of bytes of one class, up to the first byte that is not of it. -/
theorem takeWhile_append_stop {inClass : UInt8 → Bool} {passed rest : List UInt8}
    (passes : ∀ byte ∈ passed, inClass byte = true)
    (stops : ∀ byte, rest.head? = some byte → inClass byte = false) :
    (passed ++ rest).takeWhile inClass = passed ∧ (passed ++ rest).dropWhile inClass = rest := by
  rw [List.takeWhile_append_of_pos passes, List.dropWhile_append_of_pos passes]
  cases rest with
  | nil => exact ⟨List.append_nil passed, rfl⟩
  | cons byte rest => simp [stops byte rfl]

theorem Cursor.skip_append {inClass : UInt8 → Bool} {passed rest : List UInt8}
    (passes : ∀ byte ∈ passed, inClass byte = true)
    (stops : ∀ byte, rest.head? = some byte → inClass byte = false) (line : Nat) :
    Cursor.skip ⟨passed ++ rest, line⟩ inClass = ⟨rest, line + newlines passed⟩ := by
  obtain ⟨taken, dropped⟩ := takeWhile_append_stop passes stops
  simp only [Cursor.skip, taken, dropped]

theorem Cursor.statement_of_name {start : Cursor} {nameBytes raw rest : List UInt8}
    {delimiter : UInt8} {line : Nat}
    (named : start.name = .ok (nameBytes, ⟨raw ++ delimiter :: rest, line⟩))
    (splits : splitValue (raw ++ delimiter :: rest) = (raw, delimiter :: rest))
    (continues : delimiter ≠ closeBrace) :
    start.statement = .ok (
      if delimiter = semicolon then
        .ofLeaf (Utf8.decodeLenient nameBytes) (Utf8.decodeLenient (expand raw))
      else .ofOpening (Utf8.decodeLenient nameBytes) (Utf8.decodeLenient (expand raw)),
      ⟨rest, line + newlines raw⟩) := by
  rw [Cursor.statement, named]
  dsimp only
  rw [splits]
  dsimp only
  rw [if_neg continues]
  split_ifs <;> rfl

namespace Script

/-- A script with more statements in front. -/
def prepend (front : List Statement) (script : Script) : Script :=
  ⟨front ++ script.statements, script.complaint?⟩

theorem prepend_prepend (front more : List Statement) (script : Script) :
    prepend front (prepend more script) = prepend (front ++ more) script := by
  simp only [prepend, List.append_assoc]

/-- One turn of the scanner. -/
theorem scan_eq (cursor : Cursor) (lines : List Nat) :
    scan cursor lines =
      match cursor.skipBlanks.rest, lines with
      | [], [] => finished
      | [], opened :: _ => failed opened .unclosedBraces
      | byte :: rest, lines =>
        if byte = closeBrace then
          match lines with
          | [] => failed cursor.skipBlanks.line .unexpectedBrace
          | _ :: outer =>
            match Cursor.blockEnd ⟨rest, cursor.skipBlanks.line⟩ with
            | .error complaint => ⟨[], some complaint⟩
            | .ok next => cons ⟨cursor.skipBlanks.line, .closing⟩ (scan next outer)
        else
          match cursor.skipBlanks.statement with
          | .error complaint => ⟨[], some complaint⟩
          | .ok (event, next) =>
            cons ⟨cursor.skipBlanks.line, event⟩
              (scan next (openLines ⟨cursor.skipBlanks.line, event⟩ lines)) := by
  rw [scan.eq_def]
  dsimp only
  split
  next ended => simp only [ended]; cases lines <;> rfl
  next byte rest starts =>
    simp only [starts]
    split_ifs
    · cases lines with
      | nil => rfl
      | cons opened outer =>
        dsimp only
        split
        next complaint failed => simp only [failed]
        next next ended => simp only [ended]
    · split
      next complaint failed => simp only [failed]
      next event next read => simp only [read]

theorem scan_statement {cursor next : Cursor} {byte : UInt8} {rest : List UInt8} {event : Event}
    (starts : cursor.skipBlanks.rest = byte :: rest) (opens : byte ≠ closeBrace)
    (read : cursor.skipBlanks.statement = .ok (event, next)) (lines : List Nat) :
    scan cursor lines = prepend [⟨cursor.skipBlanks.line, event⟩]
      (scan next (openLines ⟨cursor.skipBlanks.line, event⟩ lines)) := by
  simp only [scan_eq cursor, starts, if_neg opens, read]
  rfl

theorem scan_closing {cursor next : Cursor} {rest : List UInt8}
    (starts : cursor.skipBlanks.rest = closeBrace :: rest)
    (ended : Cursor.blockEnd ⟨rest, cursor.skipBlanks.line⟩ = .ok next) (line : Nat)
    (lines : List Nat) :
    scan cursor (line :: lines) =
      prepend [⟨cursor.skipBlanks.line, .closing⟩] (scan next lines) := by
  simp only [scan_eq cursor, starts, if_true, ended]
  rfl

theorem scan_end {cursor : Cursor} (ended : cursor.skipBlanks.rest = []) :
    scan cursor [] = finished := by
  simp only [scan_eq cursor, ended]

end Script

end ServiceConfig.Grammar
