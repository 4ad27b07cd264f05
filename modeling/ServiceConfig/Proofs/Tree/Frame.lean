import ServiceConfig.Proofs.Tree.Shape

/-! # Places in a shape

The way from the root down to a list is a stack of frames, innermost first; each frame is a list
with one of its blocks opened. Filling the frames with the shape of the innermost list gives the
whole shape back, so an operation on one list only exchanges what the frames are filled with.
`Represents.refill` says what such an exchange has to leave alone for the tree to keep a shape.
-/

namespace ServiceConfig

/-- A list with one of its blocks opened. -/
structure Frame where
  front : Shape
  id : EntryId
  entry : Entry
  children : ListId
  rest : Shape

def Frame.fill (frame : Frame) (below : Shape) : Shape :=
  frame.front ++ .block frame.id frame.entry frame.children below frame.rest

namespace Shape

/-- The whole shape whose innermost opened list has the shape given. -/
def fill (frames : List Frame) (shape : Shape) : Shape :=
  frames.foldl (fun below frame => frame.fill below) shape

/-- The innermost opened list. -/
def focus : List Frame → ListId
  | [] => Tree.root
  | frame :: _ => frame.children

def owner? : List Frame → Option EntryId
  | [] => none
  | frame :: _ => some frame.id

/-- The entries around the innermost opened list. -/
def idsAround (frames : List Frame) : List EntryId :=
  frames.flatMap fun frame => frame.front.ids ++ frame.id :: frame.rest.ids

/-- The lists around the innermost opened list. -/
def listsAround : List Frame → List ListId
  | [] => []
  | frame :: frames => focus frames :: (frame.front.lists ++ frame.rest.lists ++ listsAround frames)

@[simp]
theorem fill_nil (shape : Shape) : fill [] shape = shape := rfl

@[simp]
theorem fill_cons (frame : Frame) (frames : List Frame) (shape : Shape) :
    fill (frame :: frames) shape = fill frames (frame.fill shape) := rfl

private theorem ids_fill (frames : List Frame) (shape : Shape) :
    (fill frames shape).ids.Perm (shape.ids ++ idsAround frames) := by
  induction frames generalizing shape with
  | nil => simp [idsAround]
  | cons frame frames ih =>
    apply (ih (frame.fill shape)).trans
    apply List.perm_iff_count.mpr
    intro id
    simp only [Frame.fill, ids_append, ids, idsAround, List.flatMap_cons, List.count_append,
      List.count_cons]
    omega

/-- The entries in front of the innermost opened list, in document order. -/
def idsBefore : List Frame → List EntryId
  | [] => []
  | frame :: frames => idsBefore frames ++ (frame.front.ids ++ [frame.id])

/-- The entries behind the innermost opened list, in document order. -/
def idsAfter : List Frame → List EntryId
  | [] => []
  | frame :: frames => frame.rest.ids ++ idsAfter frames

/-- In document order what is below a list is one segment. -/
theorem ids_fill_eq (frames : List Frame) (shape : Shape) :
    (fill frames shape).ids = idsBefore frames ++ shape.ids ++ idsAfter frames := by
  induction frames generalizing shape with
  | nil => simp [idsBefore, idsAfter]
  | cons frame frames ih =>
    rw [fill_cons, ih]
    simp [Frame.fill, ids, idsBefore, idsAfter]

/-- The segment of a list stands behind the owner of the list. -/
theorem getLast?_idsBefore (frames : List Frame) :
    (idsBefore frames).getLast? = owner? frames := by
  cases frames with
  | nil => rfl
  | cons frame frames => simp [idsBefore, owner?]

private theorem lists_fill (frames : List Frame) (shape : Shape) :
    (Tree.root :: (fill frames shape).lists).Perm
      (focus frames :: (shape.lists ++ listsAround frames)) := by
  induction frames generalizing shape with
  | nil => simp [focus, listsAround]
  | cons frame frames ih =>
    apply (ih (frame.fill shape)).trans
    apply List.perm_iff_count.mpr
    intro list
    simp only [Frame.fill, lists_append, lists, listsAround, focus, List.count_append,
      List.count_cons]
    omega

/-- Every list of a shape can be reached by opening blocks. -/
theorem exists_fill_of_mem_lists {shape : Shape} {list : ListId} (member : list ∈ shape.lists)
    (frames : List Frame) (front : Shape) :
    ∃ inner below, fill inner below = fill frames (front ++ shape) ∧ focus inner = list := by
  induction shape generalizing frames front with
  | nil => cases member
  | leaf id entry rest ih =>
    obtain ⟨inner, below, same, focused⟩ := ih member frames (front ++ .leaf id entry .nil)
    exact ⟨inner, below, by simpa [append_assoc] using same, focused⟩
  | block id entry children below rest ihBelow ihRest =>
    rcases List.mem_cons.mp member with rfl | member
    · exact ⟨⟨front, id, entry, list, rest⟩ :: frames, below, rfl, rfl⟩
    · rcases List.mem_append.mp member with inside | later
      · exact ihBelow inside (⟨front, id, entry, children, rest⟩ :: frames) .nil
      · obtain ⟨inner, shape, same, focused⟩ :=
          ihRest later frames (front ++ .block id entry children below .nil)
        exact ⟨inner, shape, by simpa [append_assoc] using same, focused⟩

/-- Every entry of a shape stands in a list that can be reached by opening blocks. -/
theorem exists_fill_of_mem_ids {shape : Shape} {id : EntryId} (member : id ∈ shape.ids)
    (frames : List Frame) (front : Shape) :
    ∃ inner below, fill inner below = fill frames (front ++ shape) ∧ id ∈ below.top := by
  induction shape generalizing frames front with
  | nil => cases member
  | leaf other entry rest ih =>
    rcases List.mem_cons.mp member with rfl | later
    · exact ⟨frames, front ++ .leaf id entry rest, rfl, by simp [top]⟩
    · obtain ⟨inner, below, same, standing⟩ := ih later frames (front ++ .leaf other entry .nil)
      exact ⟨inner, below, by simpa [append_assoc] using same, standing⟩
  | block other entry children below rest ihBelow ihRest =>
    rcases List.mem_cons.mp member with rfl | member
    · exact ⟨frames, front ++ .block id entry children below rest, rfl, by simp [top]⟩
    · rcases List.mem_append.mp member with inside | later
      · exact ihBelow inside (⟨front, other, entry, children, rest⟩ :: frames) .nil
      · obtain ⟨inner, shape, same, standing⟩ :=
          ihRest later frames (front ++ .block other entry children below .nil)
        exact ⟨inner, shape, by simpa [append_assoc] using same, standing⟩

theorem exists_fill {shape : Shape} {list : ListId} (member : list ∈ Tree.root :: shape.lists) :
    ∃ frames below, fill frames below = shape ∧ focus frames = list := by
  rcases List.mem_cons.mp member with rfl | member
  · exact ⟨[], shape, rfl, rfl⟩
  · exact exists_fill_of_mem_lists member [] .nil

end Shape

namespace Tree

open Shape

variable {tree other : Tree}

/-- The lists around the innermost opened one are as the frames have them. -/
inductive Surrounds (tree : Tree) : List Frame → Prop
  | nil : Surrounds tree []
  | cons {frame : Frame} {frames : List Frame}
      (listed : tree.list? (focus frames) =
        some ⟨(frame.front.top ++ frame.id :: frame.rest.top).toArray, owner? frames⟩)
      (before : tree.Holds (focus frames) (owner? frames) 0 frame.front)
      (placed : tree.Placed (focus frames) (owner? frames) frame.front.top.length
        frame.id frame.entry)
      (owns : frame.entry.children? = some frame.children)
      (newer : (focus frames).number < frame.children.number)
      (later : tree.Holds (focus frames) (owner? frames) (frame.front.top.length + 1) frame.rest)
      (outside : Surrounds tree frames) : Surrounds tree (frame :: frames)

/-- A filled shape is held if the innermost list is as given and the frames surround it. -/
theorem lists_fill_iff {frames : List Frame} {shape : Shape} :
    tree.Lists root none (fill frames shape) ↔
      tree.Surrounds frames ∧ tree.Lists (focus frames) (owner? frames) shape := by
  induction frames generalizing shape with
  | nil => exact ⟨fun lists => ⟨.nil, lists⟩, And.right⟩
  | cons frame frames ih =>
    rw [fill_cons, ih]
    constructor
    · rintro ⟨outside, listed, holds⟩
      rw [Frame.fill, holds_append, Nat.zero_add] at holds
      obtain ⟨before, _ | _ | ⟨placed, owns, newer, inner, inside, later⟩⟩ := holds
      rw [Frame.fill, top_append] at listed
      exact ⟨.cons listed before placed owns newer later outside, inner, inside⟩
    · rintro ⟨_ | ⟨listed, before, placed, owns, newer, later, outside⟩, inner, inside⟩
      refine ⟨outside, ?_, ?_⟩
      · rw [Frame.fill, top_append]
        exact listed
      · rw [Frame.fill, holds_append, Nat.zero_add]
        exact ⟨before, .block placed owns newer inner inside later⟩

theorem Surrounds.congr {frames : List Frame} (surrounds : tree.Surrounds frames)
    (entries : ∀ id ∈ idsAround frames, other.entry? id = tree.entry? id)
    (lists : ∀ list ∈ listsAround frames, other.list? list = tree.list? list) :
    other.Surrounds frames := by
  induction surrounds with
  | nil => exact .nil
  | @cons frame frames listed before placed owns newer later _ ih =>
    simp only [idsAround, listsAround, List.flatMap_cons, List.mem_cons, List.mem_append]
      at entries lists
    refine .cons ((lists _ (.inl rfl)).trans listed) (before.congr ?_ ?_)
      (placed.congr (entries _ (.inl (.inr (.inl rfl))))) owns newer (later.congr ?_ ?_) (ih ?_ ?_)
    · exact fun id member => entries id (.inl (.inl member))
    · exact fun list member => lists list (.inr (.inl (.inl member)))
    · exact fun id member => entries id (.inl (.inr (.inr member)))
    · exact fun list member => lists list (.inr (.inl (.inr member)))
    · exact fun id member => entries id (.inr member)
    · exact fun list member => lists list (.inr (.inr member))

theorem Surrounds.live {frames : List Frame} (surrounds : tree.Surrounds frames) :
    ∀ id ∈ idsAround frames, (tree.entry? id).isSome := by
  induction surrounds with
  | nil => simp [idsAround]
  | cons _ before placed _ _ later _ ih =>
    intro id member
    simp only [idsAround, List.flatMap_cons, List.mem_append, List.mem_cons] at member
    rcases member with (member | rfl | member) | member
    · exact before.live id member
    · rw [placed.live, Option.isSome_some]
    · exact later.live id member
    · exact ih id member

theorem Surrounds.live_lists {frames : List Frame} (surrounds : tree.Surrounds frames) :
    ∀ list ∈ listsAround frames, (tree.list? list).isSome := by
  induction surrounds with
  | nil => simp [listsAround]
  | cons listed before _ _ _ later _ ih =>
    intro list member
    simp only [listsAround, List.mem_append, List.mem_cons] at member
    rcases member with rfl | (member | member) | member
    · rw [listed, Option.isSome_some]
    · exact before.live_lists list member
    · exact later.live_lists list member
    · exact ih list member

theorem Surrounds.live_owner {frames : List Frame} (surrounds : tree.Surrounds frames) :
    ∀ owner ∈ owner? frames, (tree.entry? owner).isSome := by
  cases surrounds with
  | nil => simp [owner?]
  | cons _ _ placed =>
    intro owner owns
    obtain rfl := Option.some.inj owns
    rw [placed.live, Option.isSome_some]

/-- All that lives in a tree is in its shape, each entry and each list once. -/
structure Represents (tree : Tree) (shape : Shape) : Prop where
  lists : tree.Lists root none shape
  ids_nodup : shape.ids.Nodup
  lists_nodup : (root :: shape.lists).Nodup
  entry_mem : ∀ {id}, (tree.entry? id).isSome → id ∈ shape.ids
  list_mem : ∀ {list}, (tree.list? list).isSome → list ∈ root :: shape.lists

theorem Represents.exists_fill {shape : Shape} (represents : tree.Represents shape)
    {list : ListId} {siblings : Siblings} (live : tree.list? list = some siblings) :
    ∃ frames below, fill frames below = shape ∧ focus frames = list :=
  Shape.exists_fill (represents.list_mem (by rw [live, Option.isSome_some]))

theorem Represents.stale_or_fill {shape : Shape} (represents : tree.Represents shape)
    (list : ListId) :
    tree.list? list = none ∨ ∃ frames below, fill frames below = shape ∧ focus frames = list := by
  cases live : tree.list? list with
  | none => exact .inl rfl
  | some siblings => exact .inr (represents.exists_fill live)

/-- Below every live list there is a part of the shape. -/
theorem Represents.opened {shape : Shape} (represents : tree.Represents shape) {list : ListId}
    {siblings : Siblings} (live : tree.list? list = some siblings) :
    ∃ owner? below, tree.Lists list owner? below ∧ below.ids.Nodup := by
  obtain ⟨frames, below, rfl, rfl⟩ := represents.exists_fill live
  have nodup := (ids_fill frames below).nodup_iff.mp represents.ids_nodup
  exact ⟨_, below, (lists_fill_iff.mp represents.lists).2, (List.nodup_append.mp nodup).1⟩

/-- All that is live is a member, once. -/
structure Keeps {α : Type} (live : α → Prop) (members : List α) : Prop where
  nodup : members.Nodup
  mem : ∀ {item}, live item → item ∈ members

/-- Some of the members can be exchanged for others: what is new must not have been live, and what
goes must no longer be live. The members around are then none of those exchanged. -/
theorem Keeps.exchange {α : Type} {before after : α → Prop} {old new around : List α}
    (keeps : Keeps before (old ++ around)) (live : ∀ item ∈ around, before item)
    (nodup : new.Nodup) (same : ∀ item, item ∉ old → item ∉ new → after item → before item)
    (fresh : ∀ item ∈ new, item ∈ old ∨ ¬ before item)
    (gone : ∀ item ∈ old, item ∉ new → ¬ after item) :
    Keeps after (new ++ around) ∧ ∀ item ∈ around, item ∉ old ∧ item ∉ new := by
  obtain ⟨_, aroundNodup, parted⟩ := List.nodup_append.mp keeps.nodup
  have apart : ∀ item ∈ around, item ∉ old ∧ item ∉ new := by
    intro item inAround
    have notOld : item ∉ old := fun inOld => parted item inOld item inAround rfl
    refine ⟨notOld, ?_⟩
    intro inNew
    exact (fresh item inNew).elim notOld fun dead => dead (live item inAround)
  refine ⟨⟨?_, ?_⟩, apart⟩
  · apply List.nodup_append.mpr
    refine ⟨nodup, aroundNodup, ?_⟩
    rintro item inNew _ inAround rfl
    exact (apart item inAround).2 inNew
  · intro item alive
    rw [List.mem_append]
    by_cases inNew : item ∈ new
    · exact .inl inNew
    · have notOld : item ∉ old := fun inOld => gone item inOld inNew alive
      have member := keeps.mem (same item notOld inNew alive)
      exact .inr ((List.mem_append.mp member).resolve_left notOld)

theorem Represents.keeps_ids {frames : List Frame} {shape : Shape}
    (represents : tree.Represents (fill frames shape)) :
    Keeps (fun id => (tree.entry? id).isSome) (shape.ids ++ idsAround frames) where
  nodup := (ids_fill frames shape).nodup_iff.mp represents.ids_nodup
  mem live := (ids_fill frames shape).mem_iff.mp (represents.entry_mem live)

theorem Represents.keeps_lists {frames : List Frame} {shape : Shape}
    (represents : tree.Represents (fill frames shape)) :
    Keeps (fun list => (tree.list? list).isSome)
      (focus frames :: shape.lists ++ listsAround frames) where
  nodup := (lists_fill frames shape).nodup_iff.mp represents.lists_nodup
  mem live := (lists_fill frames shape).mem_iff.mp (represents.list_mem live)

/-- What one list holds can be exchanged: nothing around it may change, what is new must not have
been live before, and what is no longer held must be released. -/
theorem Represents.refill {frames : List Frame} {old new : Shape}
    (represents : tree.Represents (fill frames old))
    (entries : ∀ id, id ∉ old.ids → id ∉ new.ids → other.entry? id = tree.entry? id)
    (lists : ∀ list, list ∉ focus frames :: old.lists → list ∉ focus frames :: new.lists →
      other.list? list = tree.list? list)
    (inner : other.Lists (focus frames) (owner? frames) new)
    (ids_nodup : new.ids.Nodup) (lists_nodup : (focus frames :: new.lists).Nodup)
    (ids_new : ∀ id ∈ new.ids, id ∈ old.ids ∨ tree.entry? id = none)
    (lists_new : ∀ list ∈ new.lists, list ∈ old.lists ∨ tree.list? list = none)
    (ids_gone : ∀ id ∈ old.ids, id ∉ new.ids → other.entry? id = none)
    (lists_gone : ∀ list ∈ old.lists, list ∉ focus frames :: new.lists →
      other.list? list = none) :
    other.Represents (fill frames new) := by
  obtain ⟨surrounds, -⟩ := lists_fill_iff.mp represents.lists
  obtain ⟨keptIds, idsApart⟩ : Keeps (fun id => (other.entry? id).isSome)
      (new.ids ++ idsAround frames) ∧ ∀ id ∈ idsAround frames, id ∉ old.ids ∧ id ∉ new.ids := by
    apply represents.keeps_ids.exchange surrounds.live ids_nodup
    · exact fun id notOld notNew live => entries id notOld notNew ▸ live
    · exact fun id inNew => (ids_new id inNew).imp_right fun dead => by simp [dead]
    · exact fun id inOld notNew => by simp [ids_gone id inOld notNew]
  obtain ⟨keptLists, listsApart⟩ : Keeps (fun list => (other.list? list).isSome)
      (focus frames :: new.lists ++ listsAround frames) ∧ ∀ list ∈ listsAround frames,
        list ∉ focus frames :: old.lists ∧ list ∉ focus frames :: new.lists := by
    apply represents.keeps_lists.exchange surrounds.live_lists lists_nodup
    · exact fun list notOld notNew live => lists list notOld notNew ▸ live
    · intro list inNew
      rcases List.mem_cons.mp inNew with rfl | inNew
      · exact .inl (List.mem_cons_self ..)
      · exact (lists_new list inNew).imp (List.mem_cons_of_mem _) fun dead => by simp [dead]
    · intro list inOld notNew
      have inLists := (List.mem_cons.mp inOld).resolve_left (mt (· ▸ List.mem_cons_self ..) notNew)
      simp [lists_gone list inLists notNew]
  constructor
  · refine lists_fill_iff.mpr ⟨surrounds.congr ?_ ?_, inner⟩
    · exact fun id around => entries id (idsApart id around).1 (idsApart id around).2
    · exact fun list around => lists list (listsApart list around).1 (listsApart list around).2
  · exact (ids_fill frames new).nodup_iff.mpr keptIds.nodup
  · exact (lists_fill frames new).nodup_iff.mpr keptLists.nodup
  · exact fun live => (ids_fill frames new).mem_iff.mpr (keptIds.mem live)
  · exact fun live => (lists_fill frames new).mem_iff.mpr (keptLists.mem live)

end Tree

end ServiceConfig
