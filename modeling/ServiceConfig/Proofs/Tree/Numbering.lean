import ServiceConfig.Proofs.Document.Content
import ServiceConfig.Proofs.Tree.Bounds

/-! # What a loaded tree is like

A tree that grows by a document gets each entry behind all others, in the innermost of the blocks
that are the last ones of their lists. So numbers are handed out in document order, whatever file an
entry was read from, and this goes for the lists of blocks as well. What an entry holds is what the
document said of it.
-/

namespace ServiceConfig

open Grammar

/-- An entry by itself as it can be read. -/
structure Entry.Regular (entry : Entry) : Prop where
  name : IsWord entry.name
  leaf : entry.kind = .leaf → entry.name ≠ Document.includeName ∧
    ∃ value, entry.value? = some value ∧ (entry.name ≠ "" → value ≠ "")
  block : entry.kind = .block → entry.value? ≠ some ""

/-- Whether a name, a value and a kind are those of the entry that an event gives. -/
def Grammar.Event.IsShown : Event → String × Option String × Kind → Prop
  | .leaf name value, shown => shown = (name, some value, .leaf)
  | .opening name value?, shown => shown = (name, value?, .block)
  | .closing, _ => False

/-- Each row of a forest shows one of its events. -/
theorem Grammar.Forest.shown_of_listing {forest : Forest} {depth : Nat}
    {shown : Nat × String × Option String × Kind} (member : shown ∈ forest.listing depth) :
    ∃ event ∈ forest.events, event.IsShown shown.2 := by
  induction forest generalizing depth with
  | nil => cases member
  | leaf name value rest ih =>
    rw [Forest.events]
    rcases List.mem_cons.mp member with rfl | later
    · exact ⟨_, List.mem_cons_self .., rfl⟩
    · obtain ⟨event, said, isShown⟩ := ih later
      exact ⟨event, List.mem_cons_of_mem _ said, isShown⟩
  | block name value? below rest ihBelow ih =>
    rw [Forest.events]
    rcases List.mem_cons.mp member with rfl | later
    · exact ⟨_, List.mem_cons_self .., rfl⟩
    · rcases List.mem_append.mp later with inside | behind
      · obtain ⟨event, said, isShown⟩ := ihBelow inside
        exact ⟨event, List.mem_cons_of_mem _ (List.mem_append_left _ said), isShown⟩
      · obtain ⟨event, said, isShown⟩ := ih behind
        have later := List.mem_append_right below.events (List.mem_cons_of_mem Event.closing said)
        exact ⟨event, List.mem_cons_of_mem _ later, isShown⟩

namespace Shape

variable {frames : List Frame}

/-- If nothing is behind the opened blocks, what is in the innermost list comes last. -/
theorem ids_fill_last (last : ∀ frame ∈ frames, frame.rest = .nil) (shape : Shape) :
    (fill frames shape).ids = (fill frames .nil).ids ++ shape.ids := by
  have nothing : idsAfter frames = [] := by
    induction frames with
    | nil => rfl
    | cons frame frames ih =>
      obtain ⟨here, last⟩ := List.forall_mem_cons.mp last
      rw [idsAfter, here, ih last]
      rfl
  simp [ids_fill_eq, nothing, ids]

private theorem lists_fill_last (last : ∀ frame ∈ frames, frame.rest = .nil) (shape : Shape) :
    (fill frames shape).lists = (fill frames .nil).lists ++ shape.lists := by
  induction frames generalizing shape with
  | nil => rfl
  | cons frame frames ih =>
    obtain ⟨here, last⟩ := List.forall_mem_cons.mp last
    rw [fill_cons, ih last, fill_cons, ih last (frame.fill .nil)]
    simp [Frame.fill, here, lists]

end Shape

namespace Tree

open Shape Document

variable {tree grown : Tree} {frames : List Frame} {shape : Shape}

/-- The numbers handed out so far are those of the shape, in document order. -/
structure Numbers (tree : Tree) (shape : Shape) : Prop where
  ids : shape.ids.map EntryId.number = List.range tree.nextEntry.number
  lists : (root :: shape.lists).map ListId.number = List.range tree.nextList.number

/-- One more entry at the end of the innermost list, with a list of its own if it is a block. -/
theorem Numbers.push {added : Shape} (numbers : tree.Numbers (fill frames shape))
    (last : ∀ frame ∈ frames, frame.rest = .nil) (ids : added.ids = [tree.nextEntry])
    (nextEntry : grown.nextEntry.number = tree.nextEntry.number + 1)
    (lists : added.lists = [] ∧ grown.nextList = tree.nextList ∨
      added.lists = [tree.nextList] ∧ grown.nextList.number = tree.nextList.number + 1) :
    grown.Numbers (fill frames (shape ++ added)) := by
  constructor
  · rw [ids_fill_last last, ids_append, ← List.append_assoc, ← ids_fill_last last, List.map_append,
      numbers.ids, ids, nextEntry, List.range_succ]
    rfl
  · rw [lists_fill_last last, lists_append, ← List.append_assoc, ← lists_fill_last last,
      ← List.cons_append, List.map_append, numbers.lists]
    rcases lists with ⟨none, same⟩ | ⟨one, next⟩
    · rw [none, same, List.map_nil, List.append_nil]
    · rw [one, next, List.range_succ]
      rfl

/-- By the events of a document a tree grows at its end, and numbers stay in document order. -/
theorem Represents.grow_numbers (represents : tree.Represents (fill frames shape))
    (numbers : tree.Numbers (fill frames shape)) (last : ∀ frame ∈ frames, frame.rest = .nil)
    (events : List Event) :
    let grown := tree.grow (focus frames) (outers frames) events
    ∃ whole, grown.Represents whole ∧ grown.Numbers whole := by
  induction events generalizing tree frames shape with
  | nil => exact ⟨_, represents, numbers⟩
  | cons event rest ih =>
    cases event with
    | leaf name value =>
      obtain ⟨pushed, push, represents⟩ := represents.pushLeaf name value
      obtain ⟨nextEntry, nextList⟩ := nextEntry_pushLeaf? push
      rw [Tree.grow, push]
      exact ih represents (numbers.push last rfl nextEntry (.inl ⟨rfl, nextList⟩)) last
    | opening name value? =>
      obtain ⟨pushed, push, represents⟩ := represents.pushBlock name value?
      obtain ⟨nextEntry, nextList⟩ := nextEntry_pushBlock? push
      let frame : Frame := ⟨shape, tree.nextEntry,
        appended frames shape name value? (some tree.nextList), tree.nextList, .nil⟩
      let block : Shape := .block frame.id frame.entry frame.children .nil .nil
      have pushedNumbers : pushed.Numbers (fill frames (shape ++ block)) :=
        numbers.push last rfl nextEntry (.inr ⟨rfl, nextList⟩)
      have opened : pushed.Represents (fill (frame :: frames) .nil) := represents
      rw [Tree.grow, push]
      exact ih opened pushedNumbers (List.forall_mem_cons.mpr ⟨rfl, last⟩)
    | closing =>
      cases frames with
      | nil => exact ⟨_, represents, numbers⟩
      | cons frame frames => exact ih represents numbers (List.forall_mem_cons.mp last).2

theorem numbers_ofEvents (events : List Event) :
    ∃ shape, (ofEvents events).Represents shape ∧ (ofEvents events).Numbers shape := by
  have start : empty.Represents (fill [] .nil) := represents_empty
  exact start.grow_numbers ⟨rfl, rfl⟩ nofun events

variable {files : Files} {source : Source}

theorem row_regular (built : source.load files = .ok tree) {row : Row}
    (member : row ∈ tree.rows root) : row.entry.Regular := by
  obtain ⟨forest, said, -, rfl⟩ := exists_forest built
  have regular : ∀ event ∈ forest.events, event.Regular ∧ IsResolved event := by
    cases source with
    | text => exact regular_of_parse said
    | file => exact regular_of_ofFile said
  have shown := List.mem_map_of_mem (f := Row.shown) member
  rw [rows_ofEvents] at shown
  obtain ⟨depth, id, entry⟩ := row
  obtain ⟨event, said, isShown⟩ := Forest.shown_of_listing shown
  obtain ⟨regular, resolved⟩ := regular event said
  cases event with
  | leaf name value =>
    obtain ⟨rfl, valued⟩ := Prod.mk.inj isShown
    obtain ⟨valued, kind⟩ := Prod.mk.inj valued
    obtain ⟨isWord, nonempty⟩ := regular
    refine ⟨isWord, fun _ => ⟨?_, value, valued, nonempty⟩, fun block => ?_⟩
    · exact fun named => resolved value (congrArg (Event.leaf · value) named)
    · exact absurd (kind.symm.trans block) (by decide)
  | opening name value? =>
    obtain ⟨rfl, valued⟩ := Prod.mk.inj isShown
    obtain ⟨rfl, block⟩ := Prod.mk.inj valued
    obtain ⟨isWord, nonempty⟩ := regular
    exact ⟨isWord, fun leaf => absurd (block.symm.trans leaf) (by decide), fun _ => nonempty⟩
  | closing => exact isShown.elim

/-- In a tree that was read, from whatever files, every entry is regular and has its row, with no
more than 128 blocks on the way there. The numbers of the rows, and those of the lists they own, are
all the numbers that were ever handed out, in document order. -/
theorem load_regular (built : source.load files = .ok tree) :
    (∀ id entry, tree.entry? id = some entry → entry.Regular ∧
      ∃ depth, ⟨depth, id, entry⟩ ∈ tree.rows root ∧
        depth + (if entry.kind = .block then 1 else 0) ≤ 128) ∧
    (tree.rows root).map (·.id.number) = List.range tree.nextEntry.number ∧
    (root :: (tree.rows root).filterMap (·.entry.children?)).map ListId.number =
      List.range tree.nextList.number := by
  obtain ⟨shape, represents, numbers⟩ : ∃ shape, tree.Represents shape ∧ tree.Numbers shape := by
    obtain ⟨forest, -, -, rfl⟩ := exists_forest built
    exact numbers_ofEvents forest.events
  refine ⟨fun id entry live => ?_, ?_, ?_⟩
  · obtain ⟨depth, member⟩ := represents.exists_row live
    exact ⟨row_regular built member, depth, member, row_within built member⟩
  · rw [represents.rows_eq, ← numbers.ids, ← Shape.rows_ids shape 0, List.map_map]
    rfl
  · rw [represents.rows_eq, represents.lists.holds.rows_lists, numbers.lists]

/-- A text that includes a file with a block, and then has a word without a value. -/
theorem load_regular_included :
    let files : Files := fun path =>
      if path = "b" then .ok (Utf8.encode "s \"x\" \x7b lone; \x7d;") else .error .notFound
    ∃ tree, Source.load files (.text "t" (Utf8.encode "$INCLUDE b; w \"\";")) = .ok tree ∧
      (tree.rows root).map Row.shown =
        [(0, "s", some "x", .block), (1, "", some "lone", .leaf), (0, "", some "w", .leaf)] ∧
      (∀ id entry, tree.entry? id = some entry → entry.Regular ∧
        ∃ depth, ⟨depth, id, entry⟩ ∈ tree.rows root ∧
          depth + (if entry.kind = .block then 1 else 0) ≤ 128) ∧
      (tree.rows root).map (·.id.number) = List.range tree.nextEntry.number ∧
      (root :: (tree.rows root).filterMap (·.entry.children?)).map ListId.number =
        List.range tree.nextList.number := by
  intro files
  have scripted : Script.ofText (Utf8.encode "$INCLUDE b; w \"\";") =
      ⟨[⟨1, .leaf "$INCLUDE" "b"⟩, ⟨1, .leaf "" "w"⟩], none⟩ := by cbv
  have scriptedInside : Script.ofText (Utf8.encode "s \"x\" \x7b lone; \x7d;") =
      ⟨[⟨1, .opening "s" (some "x")⟩, ⟨1, .leaf "" "lone"⟩, ⟨1, .closing⟩], none⟩ := by cbv
  have read : readText files "b" = .ok (Utf8.encode "s \"x\" \x7b lone; \x7d;") := by cbv
  let forest : Forest := .block "s" (some "x") (.leaf "" "lone" .nil) (.leaf "" "w" .nil)
  have inside : ofFile files maxIncludes "b" 0 =
      .ok [.opening "s" (some "x"), .leaf "" "lone", .closing] := by
    rw [maxIncludes, ofFile, read]
    show ofText _ _ (Utf8.encode _) 0 = _
    rw [ofText, scriptedInside]
    rfl
  have built : Source.load files (.text "t" (Utf8.encode "$INCLUDE b; w \"\";")) =
      .ok (ofEvents forest.events) := by
    rw [Source.load, Tree.parse, Document.parse, ofText, scripted]
    dsimp only
    rw [resolve_include rfl, inside]
    rfl
  exact ⟨_, built, rows_ofEvents forest, load_regular built⟩

end Tree

end ServiceConfig
