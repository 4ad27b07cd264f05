import ServiceConfig.Proofs.Grammar.Printed
import ServiceConfig.Proofs.Tree.WellFormed

/-! # Trees of forests

A tree that grows by the events of a forest gets the forest at the end of its innermost opened list.
So the tree of a document that says a forest holds this forest and nothing else, and its rows are
the listing of the forest.
-/

namespace ServiceConfig

open Grammar

/-- What a row shows of its entry. -/
def Row.shown (row : Row) : Nat × String × Option String × Kind :=
  (row.depth, row.entry.name, row.entry.value?, row.entry.kind)

/-- The rows of a forest in document order. -/
def Grammar.Forest.listing (depth : Nat) : Forest → List (Nat × String × Option String × Kind)
  | .nil => []
  | .leaf name value rest => (depth, name, some value, .leaf) :: rest.listing depth
  | .block name value? below rest =>
    (depth, name, value?, .block) :: (below.listing (depth + 1) ++ rest.listing depth)

/-- The forest that a shape stands for. -/
def Shape.forest : Shape → Forest
  | .nil => .nil
  | .leaf _ entry rest => .leaf entry.name (entry.value?.getD "") rest.forest
  | .block _ entry _ below rest => .block entry.name entry.value? below.forest rest.forest

namespace Tree

open Shape

variable {tree : Tree}

/-- The entries that a list holds show the listing of the forest. -/
theorem Holds.listing {list : ListId} {owner? : Option EntryId} {position : Nat} {shape : Shape}
    (holds : tree.Holds list owner? position shape) (depth : Nat) :
    (shape.rows depth).map Row.shown = shape.forest.listing depth := by
  induction holds generalizing depth with
  | nil => rfl
  | @leaf _ _ _ id entry rest placed childless valued _ ih =>
    obtain ⟨value, value_eq⟩ := Option.isSome_iff_exists.mp valued
    have shown : Row.shown ⟨depth, id, entry⟩ =
        (depth, entry.name, some (entry.value?.getD ""), .leaf) := by
      simp [Row.shown, value_eq, Entry.kind, Entry.isBlock, childless]
    rw [Shape.rows, List.map_cons, ih, shown]
    rfl
  | @block _ _ _ id entry children below rest placed owns _ _ _ _ ihBelow ih =>
    have shown : Row.shown ⟨depth, id, entry⟩ = (depth, entry.name, entry.value?, .block) := by
      simp [Row.shown, Entry.kind, Entry.isBlock, owns]
    rw [Shape.rows, List.map_cons, List.map_append, ihBelow, ih, shown]
    rfl

/-- The lists around the innermost opened one, as a tree that grows keeps them. -/
def outers : List Frame → List ListId
  | [] => []
  | _ :: frames => focus frames :: outers frames

/-- A block that is pushed can be opened: its list, still empty, becomes the innermost one, and once
filled it closes to one more entry of the list around it. -/
theorem Represents.openBlock {frames : List Frame} {shape : Shape}
    (represents : tree.Represents (fill frames shape)) (name : String) (value? : Option String) :
    ∃ (pushed : Tree) (frame : Frame),
      tree.pushBlock? (focus frames) name value? = some (frame.id, frame.children, pushed) ∧
      pushed.Represents (fill (frame :: frames) .nil) ∧ frame.entry.name = name ∧
      frame.entry.value? = value? ∧ ∀ below, frame.fill below =
        shape ++ .block frame.id frame.entry frame.children below .nil := by
  obtain ⟨pushed, push, represents⟩ := represents.pushBlock name value?
  exact ⟨pushed, ⟨shape, tree.nextEntry, appended frames shape name value? (some tree.nextList),
    tree.nextList, .nil⟩, push, represents, rfl, rfl, fun below => rfl⟩

/-- Growing a tree by the events of a forest appends the forest to the innermost opened list. -/
theorem Represents.grow_forest (forest : Forest) {tree : Tree} {frames : List Frame}
    {shape : Shape} (represents : tree.Represents (fill frames shape)) (more : List Event) :
    ∃ (grown : Tree) (added : Shape),
      tree.grow (focus frames) (outers frames) (forest.events ++ more) =
        grown.grow (focus frames) (outers frames) more ∧
      grown.Represents (fill frames (shape ++ added)) ∧ added.forest = forest := by
  induction forest generalizing tree frames shape more with
  | nil => exact ⟨tree, .nil, rfl, by rwa [append_nil], rfl⟩
  | leaf name value rest ih =>
    obtain ⟨pushed, push, represents⟩ := represents.pushLeaf name value
    obtain ⟨grown, added, grew, represents, same⟩ := ih represents more
    refine ⟨grown, .leaf tree.nextEntry (appended frames shape name (some value) none) added, ?_,
      ?_, ?_⟩
    · rw [Forest.events, List.cons_append, Tree.grow, push]
      exact grew
    · rwa [append_assoc] at represents
    · rw [Shape.forest, same]
      rfl
  | block name value? below rest ihBelow ih =>
    obtain ⟨pushed, frame, push, opened, name_eq, value_eq, closes⟩ :=
      represents.openBlock name value?
    obtain ⟨inner, addedBelow, grewBelow, closed, sameBelow⟩ :=
      ihBelow opened (.closing :: (rest.events ++ more))
    have closed : inner.Represents (fill frames (frame.fill addedBelow)) := closed
    obtain ⟨grown, added, grew, represents, same⟩ := ih closed more
    refine ⟨grown, .block frame.id frame.entry frame.children addedBelow added, ?_, ?_, ?_⟩
    · rw [Forest.events_block_append, Tree.grow, push]
      exact grewBelow.trans grew
    · rwa [closes, append_assoc] at represents
    · rw [Shape.forest, sameBelow, same, name_eq, value_eq]

/-- The tree of a forest's events holds the forest. -/
theorem represents_ofEvents (forest : Forest) :
    ∃ shape : Shape, (ofEvents forest.events).Represents shape ∧ shape.forest = forest := by
  have start : empty.Represents (fill [] .nil) := represents_empty
  obtain ⟨tree, added, grew, represents, same⟩ := start.grow_forest forest []
  rw [List.append_nil] at grew
  have grew : ofEvents forest.events = tree := grew
  exact ⟨added, grew ▸ represents, same⟩

theorem rows_ofEvents (forest : Forest) :
    ((ofEvents forest.events).rows root).map Row.shown = forest.listing 0 := by
  obtain ⟨shape, represents, rfl⟩ := represents_ofEvents forest
  rw [rows, represents.lists.rowsFrom]
  exact represents.lists.holds.listing 0

end Tree

end ServiceConfig
