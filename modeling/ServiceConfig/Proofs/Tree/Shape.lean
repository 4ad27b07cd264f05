import Mathlib.Data.List.Nodup
import ServiceConfig.Tree.Outline

/-! # Shapes of trees

The links of a tree spell out a shape: the entries of a list, each block with what is below it. A
list holds a shape if the entries are found where the shape has them, with their parent, position
and children as they should be. Numbers grow from a block to what it holds, which is why no walk
along the links goes on forever.
-/

namespace ServiceConfig

/-- The entries of a list from some position on, each block with what its children hold. -/
inductive Shape
  | nil
  | leaf (id : EntryId) (entry : Entry) (rest : Shape)
  | block (id : EntryId) (entry : Entry) (children : ListId) (below rest : Shape)

namespace Shape

def append : Shape → Shape → Shape
  | .nil, more => more
  | .leaf id entry rest, more => .leaf id entry (rest.append more)
  | .block id entry children below rest, more => .block id entry children below (rest.append more)

instance : Append Shape := ⟨append⟩

/-- The entries of the list itself. -/
def top : Shape → List EntryId
  | .nil => []
  | .leaf id _ rest => id :: rest.top
  | .block id _ _ _ rest => id :: rest.top

/-- All entries, in document order. -/
def ids : Shape → List EntryId
  | .nil => []
  | .leaf id _ rest => id :: rest.ids
  | .block id _ _ below rest => id :: (below.ids ++ rest.ids)

/-- The children lists of all blocks, in document order. -/
def lists : Shape → List ListId
  | .nil => []
  | .leaf _ _ rest => rest.lists
  | .block _ _ children below rest => children :: (below.lists ++ rest.lists)

def rows (depth : Nat) : Shape → List Row
  | .nil => []
  | .leaf id entry rest => ⟨depth, id, entry⟩ :: rest.rows depth
  | .block id entry _ below rest =>
    ⟨depth, id, entry⟩ :: (below.rows (depth + 1) ++ rest.rows depth)

variable (id : EntryId) (entry : Entry) (children : ListId) (below rest front back shape : Shape)

@[simp]
theorem nil_append : .nil ++ shape = shape := rfl

@[simp]
theorem leaf_append : .leaf id entry rest ++ shape = .leaf id entry (rest ++ shape) := rfl

@[simp]
theorem block_append :
    .block id entry children below rest ++ shape = .block id entry children below (rest ++ shape) :=
  rfl

@[simp]
theorem append_nil : shape ++ .nil = shape := by
  induction shape with
  | nil => rfl
  | leaf id entry rest ih => rw [leaf_append, ih]
  | block id entry children below rest _ ih => rw [block_append, ih]

theorem append_assoc : front ++ back ++ shape = front ++ (back ++ shape) := by
  induction front with
  | nil => rfl
  | leaf id entry rest ih => simp only [leaf_append, ih]
  | block id entry children below rest _ ih => simp only [block_append, ih]

@[simp]
theorem top_append : (front ++ back).top = front.top ++ back.top := by
  induction front with
  | nil => rfl
  | leaf id entry rest ih => simp only [leaf_append, top, ih, List.cons_append]
  | block id entry children below rest _ ih => simp only [block_append, top, ih, List.cons_append]

@[simp]
theorem ids_append : (front ++ back).ids = front.ids ++ back.ids := by
  induction front with
  | nil => rfl
  | leaf id entry rest ih => simp only [leaf_append, ids, ih, List.cons_append]
  | block id entry children below rest _ ih =>
    simp only [block_append, ids, ih, List.cons_append, List.append_assoc]

@[simp]
theorem lists_append : (front ++ back).lists = front.lists ++ back.lists := by
  induction front with
  | nil => rfl
  | leaf id entry rest ih => simp only [leaf_append, lists, ih]
  | block id entry children below rest _ ih =>
    simp only [block_append, lists, ih, List.cons_append, List.append_assoc]

theorem rows_ids (depth : Nat) : (shape.rows depth).map Row.id = shape.ids := by
  induction shape generalizing depth with
  | nil => rfl
  | leaf id entry rest ih => simp only [rows, ids, List.map_cons, ih]
  | block id entry children below rest ihBelow ih =>
    simp only [rows, ids, List.map_cons, List.map_append, ihBelow, ih]

theorem top_sublist_ids : shape.top.Sublist shape.ids := by
  induction shape with
  | nil => exact .slnil
  | leaf id entry rest ih => exact .cons_cons id ih
  | block id entry children below rest _ ih =>
    exact .cons_cons id (ih.trans (List.sublist_append_right ..))

/-- What comes first in document order is the first entry of the list. -/
theorem head?_ids : shape.ids.head? = shape.top.head? := by cases shape <;> rfl

end Shape

namespace Tree

/-- An entry stands at a position of a list and is younger than the block that owns the list. -/
structure Placed (tree : Tree) (list : ListId) (owner? : Option EntryId) (position : Nat)
    (id : EntryId) (entry : Entry) : Prop where
  live : tree.entry? id = some entry
  parent : entry.parent = list
  position : entry.position = position
  younger : ∀ owner ∈ owner?, owner.number < id.number

/-- From `position` on, the entries found in a list and below it have this shape. -/
inductive Holds (tree : Tree) : ListId → Option EntryId → Nat → Shape → Prop
  | nil {list : ListId} {owner? : Option EntryId} {position : Nat} :
    Holds tree list owner? position .nil
  | leaf {list : ListId} {owner? : Option EntryId} {position : Nat} {id : EntryId} {entry : Entry}
      {rest : Shape} (placed : tree.Placed list owner? position id entry)
      (childless : entry.children? = none) (valued : entry.value?.isSome)
      (later : Holds tree list owner? (position + 1) rest) :
    Holds tree list owner? position (.leaf id entry rest)
  | block {list : ListId} {owner? : Option EntryId} {position : Nat} {id : EntryId} {entry : Entry}
      {children : ListId} {below rest : Shape} (placed : tree.Placed list owner? position id entry)
      (owns : entry.children? = some children) (newer : list.number < children.number)
      (listed : tree.list? children = some ⟨below.top.toArray, some id⟩)
      (inside : Holds tree children (some id) 0 below)
      (later : Holds tree list owner? (position + 1) rest) :
    Holds tree list owner? position (.block id entry children below rest)

/-- A live list has this owner, these entries, and this shape below it. -/
structure Lists (tree : Tree) (list : ListId) (owner? : Option EntryId) (shape : Shape) : Prop where
  listed : tree.list? list = some ⟨shape.top.toArray, owner?⟩
  holds : tree.Holds list owner? 0 shape

variable {tree other : Tree} {list : ListId} {owner? : Option EntryId} {position : Nat}
  {shape front back : Shape}

theorem Placed.congr {id : EntryId} {entry : Entry}
    (placed : tree.Placed list owner? position id entry) (same : other.entry? id = tree.entry? id) :
    other.Placed list owner? position id entry :=
  { placed with live := same.trans placed.live }

/-- Only the entries of a shape and the children lists of its blocks decide whether it is held. -/
theorem Holds.congr (holds : tree.Holds list owner? position shape)
    (entries : ∀ id ∈ shape.ids, other.entry? id = tree.entry? id)
    (lists : ∀ list ∈ shape.lists, other.list? list = tree.list? list) :
    other.Holds list owner? position shape := by
  induction holds with
  | nil => exact .nil
  | leaf placed childless valued _ ih =>
    refine .leaf (placed.congr (entries _ (List.mem_cons_self ..))) childless valued (ih ?_ lists)
    exact fun id member => entries id (List.mem_cons_of_mem _ member)
  | block placed owns newer listed _ _ ihInside ihLater =>
    simp only [Shape.ids, Shape.lists, List.mem_cons, List.mem_append] at entries lists
    refine .block (placed.congr (entries _ (.inl rfl))) owns newer
      ((lists _ (.inl rfl)).trans listed) (ihInside ?_ ?_) (ihLater ?_ ?_)
    · exact fun id member => entries id (.inr (.inl member))
    · exact fun list member => lists list (.inr (.inl member))
    · exact fun id member => entries id (.inr (.inr member))
    · exact fun list member => lists list (.inr (.inr member))

theorem holds_append :
    tree.Holds list owner? position (front ++ back) ↔
      tree.Holds list owner? position front ∧
        tree.Holds list owner? (position + front.top.length) back := by
  induction front generalizing position with
  | nil => exact ⟨fun holds => ⟨.nil, holds⟩, And.right⟩
  | leaf id entry rest ih =>
    have step : position + (rest.top.length + 1) = position + 1 + rest.top.length := by omega
    simp only [Shape.leaf_append, Shape.top, List.length_cons, step]
    constructor
    · rintro (_ | ⟨placed, childless, valued, later⟩)
      obtain ⟨first, second⟩ := ih.mp later
      exact ⟨.leaf placed childless valued first, second⟩
    · rintro ⟨_ | ⟨placed, childless, valued, later⟩, second⟩
      exact .leaf placed childless valued (ih.mpr ⟨later, second⟩)
  | block id entry children below rest _ ih =>
    have step : position + (rest.top.length + 1) = position + 1 + rest.top.length := by omega
    simp only [Shape.block_append, Shape.top, List.length_cons, step]
    constructor
    · rintro (_ | _ | ⟨placed, owns, newer, listed, inside, later⟩)
      obtain ⟨first, second⟩ := ih.mp later
      exact ⟨.block placed owns newer listed inside first, second⟩
    · rintro ⟨_ | _ | ⟨placed, owns, newer, listed, inside, later⟩, second⟩
      exact .block placed owns newer listed inside (ih.mpr ⟨later, second⟩)

theorem Holds.live (holds : tree.Holds list owner? position shape) :
    ∀ id ∈ shape.ids, (tree.entry? id).isSome := by
  induction holds with
  | nil => simp [Shape.ids]
  | leaf placed _ _ _ ih =>
    intro id member
    rcases List.mem_cons.mp member with rfl | later
    · rw [placed.live, Option.isSome_some]
    · exact ih id later
  | block placed _ _ _ _ _ ihInside ihLater =>
    intro id member
    rcases List.mem_cons.mp member with rfl | member
    · rw [placed.live, Option.isSome_some]
    · exact (List.mem_append.mp member).elim (ihInside id) (ihLater id)

theorem Holds.live_lists (holds : tree.Holds list owner? position shape) :
    ∀ children ∈ shape.lists, (tree.list? children).isSome := by
  induction holds with
  | nil => simp [Shape.lists]
  | leaf _ _ _ _ ih => exact ih
  | block _ _ _ listed _ _ ihInside ihLater =>
    intro children member
    rcases List.mem_cons.mp member with rfl | member
    · rw [listed, Option.isSome_some]
    · exact (List.mem_append.mp member).elim (ihInside children) (ihLater children)

/-- All lists below another are newer than it. -/
theorem Holds.newer (holds : tree.Holds list owner? position shape) :
    ∀ children ∈ shape.lists, list.number < children.number := by
  induction holds with
  | nil => simp [Shape.lists]
  | leaf _ _ _ _ ih => exact ih
  | block _ _ newer _ _ _ ihInside ihLater =>
    intro children member
    rcases List.mem_cons.mp member with rfl | member
    · exact newer
    · rcases List.mem_append.mp member with inside | later
      · exact Nat.lt_trans newer (ihInside children inside)
      · exact ihLater children later

end Tree

end ServiceConfig
