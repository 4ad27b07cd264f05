import ServiceConfig.Error
import ServiceConfig.Grammar.Script
import ServiceConfig.Path

/-! # Documents

A document is what a text says once its includes are resolved: the leaf `$INCLUDE path;` stands for
everything that the file at `path` says. Relative paths are looked up next to the including file.
Includes nest at most `maxIncludes` deep, and blocks at most `maxBlocks` deep, counted through
included files, so that every run ends.
-/

namespace ServiceConfig.Document

open Grammar

def maxIncludes : Nat := 16
def maxBlocks : Nat := 128

def includeName : String := "$INCLUDE"

/-- Resolves a script's statements at a place inside `depth` blocks. `splice` gives what a target
says when it is included inside so many blocks. The script's own complaint comes after everything
it said before. -/
def resolve (splice : String → Nat → Except ConfigError (List Event)) (origin : String)
    (complaint? : Option Complaint) (depth : Nat) :
    List Statement → Except ConfigError (List Event)
  | [] =>
    match complaint? with
    | none => .ok []
    | some complaint => .error (.text origin complaint)
  | statement :: rest =>
    match statement.event with
    | .leaf name value =>
      if name = includeName then do
        let spliced ← splice value depth
        let later ← resolve splice origin complaint? depth rest
        return spliced ++ later
      else do
        let later ← resolve splice origin complaint? depth rest
        return .leaf name value :: later
    | .opening name value? =>
      if depth < maxBlocks then do
        let later ← resolve splice origin complaint? (depth + 1) rest
        return .opening name value? :: later
      else .error (.text origin ⟨statement.line, .nestedTooDeeply⟩)
    | .closing => do
      let later ← resolve splice origin complaint? (depth - 1) rest
      return .closing :: later

/-- What a text says inside `depth` blocks. -/
def ofText (splice : String → Nat → Except ConfigError (List Event)) (origin : String)
    (text : List UInt8) (depth : Nat) : Except ConfigError (List Event) :=
  let script := Script.ofText text
  resolve splice origin script.complaint? depth script.statements

/-- The text of a file, which has to be valid UTF-8. -/
def readText (files : Files) (path : String) : Except ConfigError (List UInt8) :=
  match files path with
  | .error fault => .error (.file path fault)
  | .ok bytes => if Utf8.isValid bytes then .ok bytes else .error (.file path .notUtf8)

/-- What the file at `path` says inside `depth` blocks, with room for so many more files inside one
another, itself included. -/
def ofFile (files : Files) : (room : Nat) → (path : String) → (depth : Nat) →
    Except ConfigError (List Event)
  | 0, path, _ => .error (.includeDepth path)
  | room + 1, path, depth => do
    let text ← readText files path
    ofText (fun target inner => ofFile files room (Path.resolve (Path.parent? path) target) inner)
      path text depth

/-- A text that is not in a file; its includes are looked up as they are written. -/
def parse (files : Files) (origin : String) (text : List UInt8) : Except ConfigError (List Event) :=
  ofText (ofFile files maxIncludes) origin text 0

def read (files : Files) (path : String) : Except ConfigError (List Event) :=
  ofFile files (maxIncludes + 1) path 0

end ServiceConfig.Document
