import ServiceConfig.Tree.Basic

/-! # Outlines

The outline of a list is everything below it in document order, each entry with its depth. It is
what a tree prints as. A block's children have a greater list number than the list the block stands
in, which bounds the recursion.
-/

namespace ServiceConfig

structure Row where
  depth : Nat
  id : EntryId
  entry : Entry
  deriving DecidableEq, Repr

namespace Tree

/-- The rows below a list, whose own entries are at `depth`. Children are newer than the list that
their block stands in in every tree that can be reached, so that the test cuts nothing there
(`Represents.rowsFrom_eq`); it only shows that the descent ends. -/
def rowsFrom (tree : Tree) (depth : Nat) (list : ListId) : List Row :=
  match tree.list? list with
  | none => []
  | some siblings =>
    siblings.entries.toList.flatMap fun id =>
      match tree.entry? id with
      | none => []
      | some entry =>
        ⟨depth, id, entry⟩ ::
          match entry.children? with
          | none => []
          | some children =>
            if _nested : list.number < children.number ∧ children.number < tree.lists.next then
              tree.rowsFrom (depth + 1) children
            else []
termination_by tree.lists.next - list.number
decreasing_by omega

def rows (tree : Tree) (list : ListId) : List Row := tree.rowsFrom 0 list

end Tree

/-- What is between the brackets of a block's line. -/
def Entry.header (entry : Entry) : String :=
  match entry.value? with
  | none => entry.name
  | some value => entry.name ++ " " ++ value

/-- One line of the printed tree, with a bar for each block around it. Values are not escaped. -/
def Row.line (row : Row) : String :=
  String.join (List.replicate row.depth "| ") ++
    (if row.entry.isBlock then "->[" ++ row.entry.header ++ "]\n"
    else "-> " ++ row.entry.name ++ " = '" ++ row.entry.value?.getD "" ++ "'\n")

/-- The printed form of everything below a list. -/
def Tree.display (tree : Tree) (list : ListId) : String :=
  String.join ((tree.rows list).map Row.line)

end ServiceConfig
