/-! # Events

A document is a sequence of leaves and of blocks that are opened and closed.
-/

namespace ServiceConfig.Grammar

inductive Event
  | leaf (name value : String)
  | opening (name : String) (value? : Option String)
  | closing
  deriving DecidableEq, Repr

/-- A leaf without a value is nameless, and its name is the value. -/
def Event.ofLeaf (name value : String) : Event :=
  if value.isEmpty then .leaf "" name else .leaf name value

/-- The opening of a block, without a value if the text there stands for none. -/
def Event.ofOpening (name value : String) : Event :=
  .opening name (if value.isEmpty then none else some value)

end ServiceConfig.Grammar
