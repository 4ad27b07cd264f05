import Mathlib
import ServiceConfig.Proofs.Tree.Change

/-! # Well-formed trees

What entries and lists say of each other agrees, wherever it is said twice: an entry's parent and
position with the entries of the list, a block's children with the owner of the list. Every climb
ends at the root list. All this can be read off the shape of a tree, and reachable trees have one.
-/

namespace ServiceConfig.Tree

open Shape

variable {tree : Tree} {frames : List Frame} {shape : Shape}

/-- The list that holds the block that owns a list. -/
def above? (tree : Tree) (list : ListId) : Option ListId := do
  let siblings ← tree.list? list
  let owner ← siblings.owner?
  let entry ← tree.entry? owner
  return entry.parent

structure WellFormed (tree : Tree) : Prop where
  root_live : ∃ entries, tree.list? root = some ⟨entries, none⟩
  occurs_iff : ∀ {list siblings}, tree.list? list = some siblings → ∀ {position : Nat} {id},
    siblings.entries[position]? = some id ↔
      ∃ entry, tree.entry? id = some entry ∧ entry.parent = list ∧ entry.position = position
  occurs_once : ∀ {id}, (tree.entry? id).isSome → ∃! place : ListId × Nat,
    ∃ siblings, tree.list? place.1 = some siblings ∧ siblings.entries[place.2]? = some id
  children_owned : ∀ {id entry children}, tree.entry? id = some entry →
    entry.children? = some children →
      ∃ siblings, tree.list? children = some siblings ∧ siblings.owner? = some id
  list_owned : ∀ {list}, (tree.list? list).isSome → list ≠ root →
    ∃! id, ∃ entry, tree.entry? id = some entry ∧ entry.children? = some list
  leaf_valued : ∀ {id entry}, tree.entry? id = some entry → entry.children? = none →
    entry.value?.isSome
  climbs : ∀ {id entry}, tree.entry? id = some entry →
    Relation.ReflTransGen (fun list above => tree.above? list = some above) entry.parent root
  size_rows : tree.size = (tree.rows root).length

theorem Holds.at {list : ListId} {owner? : Option EntryId} {position offset : Nat} {id : EntryId}
    (holds : tree.Holds list owner? position shape) (found : shape.top[offset]? = some id) :
    ∃ entry, tree.Placed list owner? (position + offset) id entry ∧
      (entry.children? = none → entry.value?.isSome) ∧
      ∀ children ∈ entry.children?, ∃ below, tree.Lists children (some id) below := by
  induction holds generalizing offset with
  | nil => cases found
  | @leaf list owner? position _ entry rest placed childless valued _ ih =>
    cases offset with
    | zero =>
      obtain rfl := Option.some.inj found
      exact ⟨entry, placed, fun _ => valued, by simp [childless]⟩
    | succ offset =>
      rw [← Nat.add_assoc, Nat.add_right_comm]
      exact ih found
  | @block list owner? position _ entry children below rest placed owns _ listed inside _ _ ih =>
    cases offset with
    | zero =>
      obtain rfl := Option.some.inj found
      refine ⟨entry, placed, by simp [owns], fun other same => ⟨below, ?_⟩⟩
      obtain rfl : children = other := Option.some.inj (owns.symm.trans same)
      exact ⟨listed, inside⟩
    | succ offset =>
      rw [← Nat.add_assoc, Nat.add_right_comm]
      exact ih found

/-- Where a live entry stands is where it says it stands. -/
theorem Represents.standing (represents : tree.Represents shape) {id : EntryId} {entry : Entry}
    (live : tree.entry? id = some entry) :
    ∃ frames below, fill frames below = shape ∧ entry.parent = focus frames ∧
      below.top[entry.position]? = some id ∧ (entry.children? = none → entry.value?.isSome) ∧
      ∀ children ∈ entry.children?, ∃ inner, tree.Lists children (some id) inner := by
  have member := represents.entry_mem (by rw [live, Option.isSome_some])
  obtain ⟨frames, below, rfl, standing⟩ := exists_fill_of_mem_ids member [] .nil
  obtain ⟨offset, found⟩ := List.getElem?_of_mem standing
  obtain ⟨other, placed, valued, owns⟩ :=
    (lists_fill_iff.mp represents.lists).2.holds.at found
  obtain rfl : entry = other := Option.some.inj (live.symm.trans placed.live)
  refine ⟨frames, below, rfl, placed.parent, ?_, valued, owns⟩
  rw [placed.position, Nat.zero_add]
  exact found

theorem Represents.listed (represents : tree.Represents (fill frames shape)) :
    tree.list? (focus frames) = some ⟨shape.top.toArray, Shape.owner? frames⟩ :=
  represents.inner.listed

/-- The frames around a list are the climb from it to the root. -/
theorem Surrounds.climbs (surrounds : tree.Surrounds frames) {entries : Array EntryId}
    (listed : tree.list? (focus frames) = some ⟨entries, Shape.owner? frames⟩) :
    Relation.ReflTransGen (fun list above => tree.above? list = some above)
      (focus frames) root := by
  induction surrounds generalizing entries with
  | nil => exact .refl
  | cons outer _ placed _ _ _ _ ih =>
    refine .head ?_ (ih outer)
    simp only [above?, listed, Shape.owner?, Option.bind_eq_bind, Option.bind_some, placed.live,
      placed.parent, Option.pure_def]

/-- The rows of one entry and of all below it. -/
def rowsAt (tree : Tree) (depth : Nat) (list : ListId) (id : EntryId) : List Row :=
  match tree.entry? id with
  | none => []
  | some entry =>
    ⟨depth, id, entry⟩ ::
      match entry.children? with
      | none => []
      | some children =>
        if list.number < children.number ∧ children.number < tree.lists.next then
          tree.rowsFrom (depth + 1) children
        else []

private theorem rowsFrom_listed {list : ListId} {siblings : Siblings}
    (listed : tree.list? list = some siblings) (depth : Nat) :
    tree.rowsFrom depth list = siblings.entries.toList.flatMap (tree.rowsAt depth list) := by
  rw [rowsFrom, listed]
  rfl

theorem Holds.rows {list : ListId} {owner? : Option EntryId} {position : Nat}
    (holds : tree.Holds list owner? position shape) (depth : Nat) :
    shape.top.flatMap (tree.rowsAt depth list) = shape.rows depth := by
  induction holds generalizing depth with
  | nil => rfl
  | leaf placed childless _ _ ih =>
    simp only [top, List.flatMap_cons, rowsAt, placed.live, childless, ih, Shape.rows,
      List.singleton_append]
  | block placed owns newer listed _ _ ihInside ihLater =>
    have bound := Arena.lt_next_of_get? listed
    simp only [top, List.flatMap_cons, rowsAt, placed.live, owns, newer, bound, and_self, if_true,
      rowsFrom_listed listed, ihInside, ihLater, Shape.rows, List.cons_append]

theorem Lists.rowsFrom {list : ListId} {owner? : Option EntryId}
    (lists : tree.Lists list owner? shape) (depth : Nat) :
    tree.rowsFrom depth list = shape.rows depth := by
  rw [rowsFrom_listed lists.listed, lists.holds.rows]

/-- The lists that the rows of a shape own are its lists. -/
theorem Holds.rows_lists {list : ListId} {owner? : Option EntryId} {position : Nat}
    (holds : tree.Holds list owner? position shape) (depth : Nat) :
    (shape.rows depth).filterMap (·.entry.children?) = shape.lists := by
  induction holds generalizing depth with
  | nil => rfl
  | leaf placed childless _ _ ih =>
    simp only [Shape.rows, List.filterMap_cons, childless, ih, Shape.lists]
  | block placed owns _ _ _ _ ihInside ihLater =>
    simp only [Shape.rows, List.filterMap_cons, owns, List.filterMap_append, ihInside, ihLater,
      Shape.lists]

/-- A row shows an entry as it is found in the tree. -/
theorem Holds.rows_live {list : ListId} {owner? : Option EntryId} {position : Nat}
    (holds : tree.Holds list owner? position shape) (depth : Nat) :
    ∀ row ∈ shape.rows depth, tree.entry? row.id = some row.entry := by
  induction holds generalizing depth with
  | nil => exact nofun
  | leaf placed _ _ _ ih => exact List.forall_mem_cons.mpr ⟨placed.live, ih depth⟩
  | block placed _ _ _ _ _ ihInside ihLater =>
    refine List.forall_mem_cons.mpr ⟨placed.live, ?_⟩
    exact List.forall_mem_append.mpr ⟨ihInside (depth + 1), ihLater depth⟩

theorem Represents.rows_eq (represents : tree.Represents shape) :
    tree.rows root = shape.rows 0 := by
  rw [rows, represents.lists.rowsFrom]

/-- A row shows its entry. -/
theorem Represents.rows_live (represents : tree.Represents shape) (list : ListId) :
    ∀ row ∈ tree.rows list, tree.entry? row.id = some row.entry := by
  cases listed : tree.list? list with
  | none =>
    rw [rows, rowsFrom, listed]
    exact nofun
  | some siblings =>
    obtain ⟨_, below, lists, -⟩ := represents.opened listed
    rw [rows, lists.rowsFrom]
    exact lists.holds.rows_live 0

/-- Every entry has its row. -/
theorem Represents.exists_row (represents : tree.Represents shape) {id : EntryId} {entry : Entry}
    (live : tree.entry? id = some entry) : ∃ depth, ⟨depth, id, entry⟩ ∈ tree.rows root := by
  have member : id ∈ shape.ids := represents.entry_mem (by rw [live, Option.isSome_some])
  rw [← Shape.rows_ids shape 0, ← represents.rows_eq] at member
  obtain ⟨⟨depth, _, other⟩, inside, rfl⟩ := List.mem_map.mp member
  obtain rfl : entry = other :=
    Option.some.inj (live.symm.trans (represents.rows_live root _ inside))
  exact ⟨depth, inside⟩

theorem Holds.children_newer {list : ListId} {owner? : Option EntryId} {position : Nat}
    (holds : tree.Holds list owner? position shape) {id : EntryId} {entry : Entry}
    {children : ListId} (standing : id ∈ shape.top) (live : tree.entry? id = some entry)
    (owns : entry.children? = some children) : list.number < children.number := by
  induction holds with
  | nil => cases standing
  | leaf placed childless _ _ ih =>
    rcases List.mem_cons.mp standing with rfl | later
    · obtain rfl := Option.some.inj (live.symm.trans placed.live)
      cases owns.symm.trans childless
    · exact ih later
  | block placed same newer _ _ _ _ ih =>
    rcases List.mem_cons.mp standing with rfl | later
    · obtain rfl := Option.some.inj (live.symm.trans placed.live)
      obtain rfl := Option.some.inj (owns.symm.trans same)
      exact newer
    · exact ih later

theorem Represents.size (represents : tree.Represents shape) :
    tree.size = shape.ids.length := by
  have nodup : (shape.ids.map EntryId.number).Nodup :=
    represents.ids_nodup.map fun one other same => congrArg EntryId.mk same
  rw [Tree.size, Arena.liveCount_eq_length nodup, List.length_map]
  intro number
  constructor
  · intro member
    obtain ⟨id, inside, rfl⟩ := List.mem_map.mp member
    exact represents.lists.holds.live id inside
  · intro live
    have inside : ⟨number⟩ ∈ shape.ids := represents.entry_mem live
    exact List.mem_map.mpr ⟨_, inside, rfl⟩

theorem Represents.parent_listed (represents : tree.Represents shape) {id : EntryId}
    {entry : Entry} (live : tree.entry? id = some entry) :
    ∃ siblings, tree.list? entry.parent = some siblings ∧
      siblings.entries[entry.position]? = some id := by
  obtain ⟨frames, below, rfl, parent, found, _⟩ := represents.standing live
  exact ⟨_, parent ▸ represents.listed, by rwa [List.getElem?_toArray]⟩

theorem Represents.occurs_iff (represents : tree.Represents shape) {list : ListId}
    {siblings : Siblings} (listed : tree.list? list = some siblings) {position : Nat}
    {id : EntryId} : siblings.entries[position]? = some id ↔
      ∃ entry, tree.entry? id = some entry ∧ entry.parent = list ∧ entry.position = position := by
  constructor
  · intro found
    obtain ⟨frames, below, rfl, rfl⟩ := represents.exists_fill listed
    obtain rfl := Option.some.inj (represents.listed.symm.trans listed)
    rw [List.getElem?_toArray] at found
    obtain ⟨entry, placed, _⟩ := represents.inner.holds.at found
    exact ⟨entry, placed.live, placed.parent, by rw [placed.position, Nat.zero_add]⟩
  · rintro ⟨entry, live, rfl, rfl⟩
    obtain ⟨other, parent, found⟩ := represents.parent_listed live
    obtain rfl := Option.some.inj (parent.symm.trans listed)
    exact found

theorem Represents.occurs_once (represents : tree.Represents shape) {id : EntryId}
    (live : (tree.entry? id).isSome) : ∃! place : ListId × Nat,
      ∃ siblings, tree.list? place.1 = some siblings ∧
        siblings.entries[place.2]? = some id := by
  obtain ⟨entry, live⟩ := Option.isSome_iff_exists.mp live
  refine ⟨(entry.parent, entry.position), represents.parent_listed live, ?_⟩
  rintro ⟨list, position⟩ ⟨siblings, listed, occurs⟩
  obtain ⟨other, found, rfl, rfl⟩ := (represents.occurs_iff listed).mp occurs
  obtain rfl : entry = other := Option.some.inj (live.symm.trans found)
  rfl

theorem Represents.children_owned (represents : tree.Represents shape) {id : EntryId}
    {entry : Entry} {children : ListId} (live : tree.entry? id = some entry)
    (owns : entry.children? = some children) :
    ∃ siblings, tree.list? children = some siblings ∧ siblings.owner? = some id := by
  obtain ⟨_, _, _, _, _, _, inside⟩ := represents.standing live
  obtain ⟨inner, lists⟩ := inside children owns
  exact ⟨_, lists.listed, rfl⟩

/-- The rows below a list by the links alone: children are newer than the list that their block
stands in, so that the numbers never cut the rows short. -/
theorem Represents.rowsFrom_eq (represents : tree.Represents shape) (depth : Nat) (list : ListId) :
    tree.rowsFrom depth list =
      match tree.list? list with
      | none => []
      | some siblings =>
        siblings.entries.toList.flatMap fun id =>
          match tree.entry? id with
          | none => []
          | some entry =>
            ⟨depth, id, entry⟩ :: entry.children?.elim [] (tree.rowsFrom (depth + 1)) := by
  cases listed : tree.list? list with
  | none => rw [rowsFrom, listed]
  | some siblings =>
    obtain ⟨owner?, below, lists, -⟩ := represents.opened listed
    obtain rfl := Option.some.inj (listed.symm.trans lists.listed)
    rw [rowsFrom_listed listed]
    refine List.flatMap_congr fun id standing => ?_
    rw [rowsAt]
    cases live : tree.entry? id with
    | none => rfl
    | some entry =>
      cases owns : entry.children? with
      | none => simp [owns]
      | some children =>
        have newer := lists.holds.children_newer standing live owns
        obtain ⟨inner, inside, -⟩ := represents.children_owned live owns
        have bound := Arena.lt_next_of_get? inside
        simp [owns, newer, bound]

/-- What a list names as its owner is a block whose children it is. -/
theorem Represents.owner_owns (represents : tree.Represents shape) {list : ListId}
    {siblings : Siblings} {owner : EntryId} (listed : tree.list? list = some siblings)
    (owned : siblings.owner? = some owner) :
    ∃ entry, tree.entry? owner = some entry ∧ entry.children? = some list := by
  obtain ⟨frames, below, rfl, rfl⟩ := represents.exists_fill listed
  obtain rfl := Option.some.inj (represents.listed.symm.trans listed)
  obtain ⟨surrounds, _⟩ := lists_fill_iff.mp represents.lists
  cases surrounds with
  | nil => cases owned
  | @cons frame frames _ _ placed owns _ _ _ =>
    obtain rfl := Option.some.inj owned
    exact ⟨frame.entry, placed.live, owns⟩

theorem Represents.list_owned (represents : tree.Represents shape) {list : ListId}
    (live : (tree.list? list).isSome) (inner : list ≠ root) :
    ∃! id, ∃ entry, tree.entry? id = some entry ∧ entry.children? = some list := by
  obtain ⟨siblings, listed⟩ := Option.isSome_iff_exists.mp live
  obtain ⟨frames, below, rfl, rfl⟩ := represents.exists_fill listed
  obtain rfl := Option.some.inj (represents.listed.symm.trans listed)
  cases frames with
  | nil => exact absurd rfl inner
  | cons frame frames =>
    refine ⟨frame.id, represents.owner_owns listed rfl, ?_⟩
    rintro id ⟨entry, found, owns⟩
    obtain ⟨siblings, listedToo, owner⟩ := represents.children_owned found owns
    obtain rfl := Option.some.inj (listed.symm.trans listedToo)
    exact (Option.some.inj owner).symm

theorem Represents.wellFormed (represents : tree.Represents shape) : tree.WellFormed where
  root_live := ⟨_, represents.lists.listed⟩
  occurs_iff listed _ _ := represents.occurs_iff listed
  occurs_once := represents.occurs_once
  children_owned := represents.children_owned
  list_owned := represents.list_owned
  leaf_valued live := by
    obtain ⟨_, _, _, _, _, valued, _⟩ := represents.standing live
    exact valued
  climbs live := by
    obtain ⟨frames, below, rfl, parent, _⟩ := represents.standing live
    rw [parent]
    exact (lists_fill_iff.mp represents.lists).1.climbs represents.listed
  size_rows := by
    rw [represents.size, Tree.rows, represents.lists.rowsFrom, ← rows_ids shape 0, List.length_map]

/-- Whatever is done to a tree, its links agree; and what cannot be appended changes nothing. -/
theorem reachable_wellFormed (reachable : tree.Reachable) :
    tree.WellFormed ∧
      ∀ list, tree.list? list = none → ∀ name value value?,
        tree.pushLeaf? list name value = none ∧ tree.pushBlock? list name value? = none ∧
          tree.change (.pushLeaf list name value) = tree ∧
          tree.change (.pushBlock list name value?) = tree := by
  obtain ⟨shape, represents⟩ := reachable.represents
  refine ⟨represents.wellFormed, fun list stale name value value? => ?_⟩
  have noLeaf := pushLeaf?_stale stale name value
  have noBlock := pushBlock?_stale stale name value?
  refine ⟨noLeaf, noBlock, ?_, ?_⟩
  · rw [Tree.change, noLeaf, Option.elim_none]
  · rw [Tree.change, noBlock, Option.elim_none]

/-- The children list of a block that was destroyed takes no leaf. -/
theorem reachable_wellFormed_destroyed :
    let tree := ((empty.change (.pushBlock root "service" (some "a"))).change (.clear root)).change
      (.pushLeaf root "retries" "3")
    tree.Reachable ∧ tree.WellFormed ∧ tree.list? ⟨1⟩ = none ∧
      tree.change (.pushLeaf ⟨1⟩ "limit" "5") = tree := by
  intro tree
  have reachable : tree.Reachable := .changed (.changed (.changed .empty _) _) _
  have stale : tree.list? ⟨1⟩ = none := by
    subst tree
    cbv
  obtain ⟨wellFormed, unchanged⟩ := reachable_wellFormed reachable
  obtain ⟨_, _, noLeaf, _⟩ := unchanged ⟨1⟩ stale "limit" "5" none
  exact ⟨reachable, wellFormed, stale, noLeaf⟩

end ServiceConfig.Tree
