import ServiceConfig.Tree.Query

/-! # Searching a tree

A search visits entries in document order: an entry, then, if the query is recursive, what is below
it, then its next sibling. It keeps no stack and finds its way by the links of the tree alone, so it
can be resumed from any entry. A block is older than all entries below it, and so has a smaller
number: this is why the climb to an owner ends.
-/

namespace ServiceConfig.Tree

/-- The block that owns the list of an entry. It is older than the entry in every tree that can be
reached, so that the test hides nothing there (`Represents.owner?_eq`); it only shows that the climb
ends. -/
def owner? (tree : Tree) (id : EntryId) (entry : Entry) :
    Option { owner : EntryId // owner.number < id.number } :=
  match (tree.list? entry.parent).bind (·.owner?) with
  | none => none
  | some owner => if older : owner.number < id.number then some ⟨owner, older⟩ else none

/-- Whether an entry stands in `scope`, or anywhere below it if `deep`. -/
def isWithin (tree : Tree) (scope : ListId) (deep : Bool) (id : EntryId) : Bool :=
  match tree.entry? id with
  | none => false
  | some entry =>
    if entry.parent = scope then true
    else if deep then
      match tree.owner? id entry with
      | none => false
      | some ⟨owner, _⟩ => tree.isWithin scope deep owner
    else false
termination_by id.number

/-- The entry that follows everything below `id` in `scope`: the next sibling, or else the one that
follows its owner. -/
def following? (tree : Tree) (scope : ListId) (deep : Bool) (id : EntryId) : Option EntryId :=
  match tree.entry? id with
  | none => none
  | some entry =>
    match (tree.list? entry.parent).bind (·.entries[entry.position + 1]?) with
    | some sibling => some sibling
    | none =>
      if deep && entry.parent ≠ scope then
        match tree.owner? id entry with
        | none => none
        | some ⟨owner, _⟩ => tree.following? scope deep owner
      else none
termination_by id.number

def firstOf? (tree : Tree) (list : ListId) : Option EntryId :=
  (tree.list? list).bind (·.entries[0]?)

/-- The entry after `id` in document order that is still in `scope`. -/
def successor? (tree : Tree) (scope : ListId) (deep : Bool) (id : EntryId) : Option EntryId :=
  let below := if deep then ((tree.entry? id).bind (·.children?)).bind tree.firstOf? else none
  below <|> tree.following? scope deep id

/-- Looks for a match from `id` on, through at most `steps` entries. -/
def search (tree : Tree) (scope : ListId) (query : Query) : (steps : Nat) → EntryId → Option EntryId
  | 0, _ => none
  | steps + 1, id =>
    match tree.entry? id with
    | none => none
    | some entry =>
      if query.matchesEntry entry then some id
      else (tree.successor? scope query.recursive id).bind (tree.search scope query steps)

/-- The first match below `list` after `previous?`, or the first of all. A search meets no entry
twice, so it takes no more steps than numbers were handed out. -/
def findNext? (tree : Tree) (list : ListId) (query : Query) (previous? : Option EntryId) :
    Option EntryId :=
  let start := match previous? with
    | none => tree.firstOf? list
    | some previous =>
      if tree.isWithin list query.recursive previous then
        tree.successor? list query.recursive previous
      else none
  start.bind (tree.search list query tree.entries.next)

def find? (tree : Tree) (list : ListId) (query : Query) : Option EntryId :=
  tree.findNext? list query none

/-- Calls `next?` on its own results until it has no more, at most `steps` times. -/
def enumerate {α : Type} (next? : Option α → Option α) : (steps : Nat) → Option α → List α
  | 0, _ => []
  | steps + 1, previous? =>
    match next? previous? with
    | none => []
    | some found => found :: enumerate next? steps (some found)

/-- All matches, in document order. -/
def matching (tree : Tree) (list : ListId) (query : Query) : List EntryId :=
  enumerate (tree.findNext? list query) tree.entries.next none

/-- The next leaf that matches, with its value. -/
def findLeafNext? (tree : Tree) (list : ListId) (query : Query) (previous? : Option EntryId) :
    Option (EntryId × String) := do
  let id ← tree.findNext? list (query.ofKind .leaf) previous?
  let entry ← tree.entry? id
  let value ← entry.value?
  return (id, value)

/-- The value of the first leaf that matches; blocks of the same name do not count. -/
def findValue? (tree : Tree) (list : ListId) (query : Query) : Option String :=
  (tree.findLeafNext? list query none).map (·.2)

/-- All leaves that match, with their values. -/
def matchingLeaves (tree : Tree) (list : ListId) (query : Query) : List (EntryId × String) :=
  enumerate (fun previous? => tree.findLeafNext? list query (previous?.map (·.1)))
    tree.entries.next none

/-- The children of the next block that matches, after the block that owns `previous?`. -/
def findListNext? (tree : Tree) (list : ListId) (query : Query) (previous? : Option ListId) :
    Option ListId := do
  let after? ← match previous? with
    | none => pure none
    | some previous => do
      let siblings ← tree.list? previous
      let owner ← siblings.owner?
      pure (some owner)
  let id ← tree.findNext? list (query.ofKind .block) after?
  let entry ← tree.entry? id
  entry.children?

def findList? (tree : Tree) (list : ListId) (query : Query) : Option ListId :=
  tree.findListNext? list query none

end ServiceConfig.Tree
