import ServiceConfig.Text.Ascii

/-! # Comments

A text may hold comments: `# …` and `// …` to the end of the line, and `/* … */`. `strip` removes
them and keeps every newline, so that line numbers survive. Inside double quotes a comment marker is
ordinary text; outside comments a backslash protects the byte after it.

The stripper is a machine that sees one byte at a time. A slash in ordinary text is held back until
the next byte tells whether it opens a comment.
-/

namespace ServiceConfig.Grammar

open Ascii

/-- Where the stripper is. Quoted text and block comments remember the line they began on. -/
inductive Mode
  | plain
  | held
  | plainEscape
  | quoted (began : Nat)
  | quotedEscape (began : Nat)
  | lineComment
  | block (began : Nat)
  | blockStar (began : Nat)
  deriving DecidableEq, Repr

structure Stripper where
  mode : Mode
  line : Nat
  deriving DecidableEq, Repr

namespace Stripper

def initial : Stripper := ⟨.plain, 1⟩

/-- Reading `byte` in ordinary text on `line`: the mode it leads to and the bytes kept. -/
def plainStep (line : Nat) (byte : UInt8) : Mode × List UInt8 :=
  if byte = quote then (.quoted line, [byte])
  else if byte = backslash then (.plainEscape, [byte])
  else if byte = hash then (.lineComment, [])
  else if byte = slash then (.held, [])
  else (.plain, [byte])

def stepMode (mode : Mode) (line : Nat) (byte : UInt8) : Mode × List UInt8 :=
  match mode with
  | .plain => plainStep line byte
  | .held =>
    if byte = slash then (.lineComment, [])
    else if byte = star then (.block line, [])
    else
      let (next, kept) := plainStep line byte
      (next, slash :: kept)
  | .plainEscape => (.plain, [byte])
  | .quoted began =>
    if byte = quote then (.plain, [byte])
    else if byte = backslash then (.quotedEscape began, [byte])
    else (.quoted began, [byte])
  | .quotedEscape began => (.quoted began, [byte])
  | .lineComment => if byte = newline then (.plain, [byte]) else (.lineComment, [])
  | .block began =>
    if byte = newline then (.block began, [byte])
    else if byte = star then (.blockStar began, [])
    else (.block began, [])
  | .blockStar began =>
    if byte = newline then (.block began, [byte])
    else if byte = slash then (.plain, [])
    else if byte = star then (.blockStar began, [])
    else (.block began, [])

/-- One byte: the next state and the bytes kept. -/
def step (state : Stripper) (byte : UInt8) : Stripper × List UInt8 :=
  let (mode, kept) := stepMode state.mode state.line byte
  (⟨mode, if byte = newline then state.line + 1 else state.line⟩, kept)

/-- A run of bytes: the state after it and all bytes kept. -/
def run (state : Stripper) : List UInt8 → Stripper × List UInt8
  | [] => (state, [])
  | byte :: rest =>
    let (next, kept) := state.step byte
    let (last, more) := next.run rest
    (last, kept ++ more)

/-- What the end of the text leaves behind: a slash held back, or an unterminated string or
comment with the line it began on. -/
def finish (state : Stripper) : Except Nat (List UInt8) :=
  match state.mode with
  | .quoted began | .quotedEscape began | .block began | .blockStar began => .error began
  | .held => .ok [slash]
  | .plain | .plainEscape | .lineComment => .ok []

end Stripper

/-- The text without its comments, or the line on which an unterminated string or comment begins. -/
def strip (text : List UInt8) : Except Nat (List UInt8) :=
  let (last, kept) := Stripper.initial.run text
  last.finish.map (kept ++ ·)

end ServiceConfig.Grammar
