import ServiceConfig.Arena
import ServiceConfig.Grammar.Event

/-! # Configuration trees

A tree holds leaves, which have a value, and blocks, which own a list of further entries. Entries
and lists live in two arenas and refer to each other by number: an entry names the list it stands
in, a block its children, and a list the block that owns it. Lists grow at the end or are emptied as
a whole, so the position of an entry never changes. What was destroyed stays unresolvable.
-/

namespace ServiceConfig

structure EntryId where
  number : Nat
  deriving DecidableEq, Repr

structure ListId where
  number : Nat
  deriving DecidableEq, Repr

inductive Kind
  | block
  | leaf
  deriving DecidableEq, Repr

structure Entry where
  name : String
  value? : Option String
  children? : Option ListId
  parent : ListId
  position : Nat
  deriving DecidableEq, Repr

def Entry.isBlock (entry : Entry) : Bool := entry.children?.isSome
def Entry.kind (entry : Entry) : Kind := if entry.isBlock then .block else .leaf

/-- A list of entries; the root list is the only one without an owner. -/
structure Siblings where
  entries : Array EntryId
  owner? : Option EntryId
  deriving DecidableEq, Repr

structure Tree where
  entries : Arena Entry
  lists : Arena Siblings
  deriving Repr

namespace Tree

def root : ListId := ⟨0⟩

def empty : Tree := ⟨.empty, Arena.empty.add ⟨#[], none⟩⟩

def entry? (tree : Tree) (id : EntryId) : Option Entry := tree.entries.get? id.number
def list? (tree : Tree) (id : ListId) : Option Siblings := tree.lists.get? id.number

/-- The number of live entries at all depths. -/
def size (tree : Tree) : Nat := tree.entries.liveCount

def nextEntry (tree : Tree) : EntryId := ⟨tree.entries.next⟩
def nextList (tree : Tree) : ListId := ⟨tree.lists.next⟩

/-- Adds an entry under the next number at the end of `list`, whose entries are `siblings`. -/
def append (tree : Tree) (list : ListId) (siblings : Siblings) (name : String)
    (value? : Option String) (children? : Option ListId) : Tree where
  entries := tree.entries.add ⟨name, value?, children?, list, siblings.entries.size⟩
  lists := tree.lists.update list.number fun old =>
    { old with entries := old.entries.push tree.nextEntry }

/-- Appends a leaf to a list, which has to be live. -/
def pushLeaf? (tree : Tree) (list : ListId) (name value : String) : Option (EntryId × Tree) :=
  (tree.list? list).map fun siblings =>
    (tree.nextEntry, tree.append list siblings name (some value) none)

/-- Appends a block to a list, which has to be live, and gives the block a list of its own. -/
def pushBlock? (tree : Tree) (list : ListId) (name : String) (value? : Option String) :
    Option (EntryId × ListId × Tree) :=
  (tree.list? list).map fun siblings =>
    let grown := tree.append list siblings name value? (some tree.nextList)
    (tree.nextEntry, tree.nextList,
      { grown with lists := grown.lists.add ⟨#[], some tree.nextEntry⟩ })

/-- Destroys the pending entries and all that they own, and counts them. -/
def destroyAll (tree : Tree) (pending : List EntryId) : Tree × Nat :=
  match pending with
  | [] => (tree, 0)
  | id :: later =>
    match _found : tree.entry? id with
    | none => tree.destroyAll later
    | some entry =>
      let entries := tree.entries.release id.number
      let (rest, freed) :=
        match entry.children? with
        | none => destroyAll ⟨entries, tree.lists⟩ later
        | some children =>
          let below := (tree.list? children).elim [] (·.entries.toList)
          destroyAll ⟨entries, tree.lists.release children.number⟩ (below ++ later)
      (rest, freed + 1)
termination_by (tree.entries.liveCount, pending.length)
decreasing_by
  · exact Prod.Lex.right _ (Nat.lt_succ_self _)
  all_goals
    have fewer := Arena.liveCount_release _found
    exact Prod.Lex.left _ _ (Nat.lt_of_succ_le (Nat.le_of_eq fewer))

/-- Destroys everything below a list, which stays live and empty, and counts the entries. -/
def clear (tree : Tree) (list : ListId) : Tree × Nat :=
  match tree.list? list with
  | none => (tree, 0)
  | some siblings =>
    let emptied := tree.lists.update list.number ({ · with entries := #[] })
    destroyAll ⟨tree.entries, emptied⟩ siblings.entries.toList

/-- Grows a tree by what a document says, at the end of `current`; `outer` are the lists around it,
innermost first. -/
def grow (tree : Tree) (current : ListId) (outer : List ListId) : List Grammar.Event → Tree
  | [] => tree
  | .leaf name value :: rest =>
    match tree.pushLeaf? current name value with
    | none => tree
    | some (_, grown) => grown.grow current outer rest
  | .opening name value? :: rest =>
    match tree.pushBlock? current name value? with
    | none => tree
    | some (_, children, grown) => grown.grow children (current :: outer) rest
  | .closing :: rest =>
    match outer with
    | [] => tree
    | list :: lists => tree.grow list lists rest

/-- The tree of a document: entries and lists get their numbers in document order. -/
def ofEvents (events : List Grammar.Event) : Tree := empty.grow root [] events

end Tree

end ServiceConfig
