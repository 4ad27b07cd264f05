import ServiceConfig.Trace
import ServiceConfig.Tree.Load

/-! # The trail of a document

Reading a file traces each include before the file that it names is read, and the tree when it is
built. Nothing is traced behind the first failure.
-/

namespace ServiceConfig

open Grammar

namespace Document

/-- What is traced while a script's statements are resolved at a place inside `depth` blocks, where
`splice` gives what a target says and `included` what is traced of it on a line. -/
def resolveTrail (splice : String → Nat → Except ConfigError (List Event))
    (included : Nat → String → Nat → List Record) (depth : Nat) : List Statement → List Record
  | [] => []
  | statement :: rest =>
    match statement.event with
    | .leaf name value =>
      if name = includeName then
        let later :=
          match splice value depth with
          | .error _ => []
          | .ok _ => resolveTrail splice included depth rest
        included statement.line value depth ++ later
      else resolveTrail splice included depth rest
    | .opening _ _ =>
      if depth < maxBlocks then resolveTrail splice included (depth + 1) rest else []
    | .closing => resolveTrail splice included (depth - 1) rest

/-- What is traced while the file at `path` is read as `ofFile` reads it. -/
def fileTrail (files : Files) : (room : Nat) → (path : String) → (depth : Nat) → List Record
  | 0, _, _ => []
  | room + 1, path, depth =>
    match readText files path with
    | .error _ => []
    | .ok text =>
      let resolved := Path.resolve (Path.parent? path)
      resolveTrail (fun target inner => ofFile files room (resolved target) inner)
        (fun line target inner =>
          .including path line (resolved target) :: fileTrail files room (resolved target) inner)
        depth (Script.ofText text).statements

end Document

/-- What is traced while the tree of a file is read. -/
def Tree.readTrail (files : Files) (path : String) : List Record :=
  let built :=
    match Tree.read files path with
    | .error _ => []
    | .ok tree => [.read path tree.size]
  Document.fileTrail files (Document.maxIncludes + 1) path 0 ++ built

end ServiceConfig
