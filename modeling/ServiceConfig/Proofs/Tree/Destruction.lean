import ServiceConfig.Proofs.Tree.Search

/-! # What clearing a list destroys

Clearing a list destroys the entries below it and the lists of the blocks among them, and nothing
else: in document order one segment is cut out, and what is outside of it does not notice. Numbers
are not handed out twice, so whatever was destroyed stays stale for good.
-/

namespace ServiceConfig.Tree

open Shape

variable {tree : Tree} {frames : List Frame} {shape : Shape}

/-- No number handed out by the old tree that is stale there is live in the new one. -/
structure Precedes (old new : Tree) : Prop where
  nextEntry : old.nextEntry.number ≤ new.nextEntry.number
  nextList : old.nextList.number ≤ new.nextList.number
  stale : ∀ {id}, id.number < old.nextEntry.number → old.entry? id = none → new.entry? id = none
  stale_list : ∀ {list}, list.number < old.nextList.number → old.list? list = none →
    new.list? list = none

theorem Precedes.refl (tree : Tree) : tree.Precedes tree where
  nextEntry := Nat.le_refl _
  nextList := Nat.le_refl _
  stale _ dead := dead
  stale_list _ dead := dead

theorem Precedes.trans {first second third : Tree} (former : first.Precedes second)
    (latter : second.Precedes third) : first.Precedes third where
  nextEntry := Nat.le_trans former.nextEntry latter.nextEntry
  nextList := Nat.le_trans former.nextList latter.nextList
  stale old dead :=
    latter.stale (Nat.lt_of_lt_of_le old former.nextEntry) (former.stale old dead)
  stale_list old dead :=
    latter.stale_list (Nat.lt_of_lt_of_le old former.nextList) (former.stale_list old dead)

private theorem precedes_append (tree : Tree) (list : ListId) (siblings : Siblings) (name : String)
    (value? : Option String) (children? : Option ListId) :
    tree.Precedes (tree.append list siblings name value? children?) where
  nextEntry := Nat.le_of_lt (Nat.lt_of_lt_of_eq (Nat.lt_succ_self _) (Arena.next_add ..).symm)
  nextList := Nat.le_of_eq (congrArg ListId.number (nextList_append ..)).symm
  stale {id} old dead := by
    have apart : id ≠ tree.nextEntry := fun same => Nat.lt_irrefl _ (same ▸ old)
    rw [entry?_append, if_neg apart, dead]
  stale_list {other} _ dead := by
    rw [list?_append]
    split
    next same => rw [← same, dead, Option.map_none]
    next => exact dead

private theorem precedes_addList (tree : Tree) (siblings : Siblings) :
    tree.Precedes { tree with lists := tree.lists.add siblings } where
  nextEntry := Nat.le_refl _
  nextList := Nat.le_of_lt (Nat.lt_of_lt_of_eq (Nat.lt_succ_self _) (Arena.next_add ..).symm)
  stale _ dead := dead
  stale_list {list} old dead := by
    have apart : list ≠ tree.nextList := fun same => Nat.lt_irrefl _ (same ▸ old)
    rw [list?_addList, if_neg apart, dead]

private theorem precedes_release (tree : Tree) (id : EntryId) :
    tree.Precedes ⟨tree.entries.release id.number, tree.lists⟩ where
  nextEntry := Nat.le_of_eq (Arena.next_release ..).symm
  nextList := Nat.le_refl _
  stale _ dead := by rw [entry?_release, dead, ite_self]
  stale_list _ dead := dead

private theorem precedes_releaseList (tree : Tree) (list : ListId) :
    tree.Precedes ⟨tree.entries, tree.lists.release list.number⟩ where
  nextEntry := Nat.le_refl _
  nextList := Nat.le_of_eq (Arena.next_release ..).symm
  stale _ dead := dead
  stale_list _ dead := by rw [list?_release, dead, ite_self]

private theorem precedes_emptied (tree : Tree) (list : ListId) :
    tree.Precedes (tree.emptied list) where
  nextEntry := Nat.le_refl _
  nextList := Nat.le_of_eq (Arena.next_update ..).symm
  stale _ dead := dead
  stale_list _ dead := by rw [emptied, list?_update, dead, Option.map_none, ite_self]

private theorem precedes_destroyAll (tree : Tree) (pending : List EntryId) :
    tree.Precedes (tree.destroyAll pending).1 := by
  fun_induction destroyAll tree pending with
  | case1 tree => exact .refl tree
  | case2 _ _ _ _ ih => exact ih
  | case3 tree id later entry _ entries rest freed gone ihLeaf ihBlock =>
    have released := tree.precedes_release id
    rw [← congrArg Prod.fst gone]
    cases entry.children? with
    | none => exact released.trans ihLeaf
    | some children =>
      exact (released.trans (precedes_releaseList _ children)).trans (ihBlock children)

private theorem precedes_change (tree : Tree) (change : Change) :
    tree.Precedes (tree.change change) := by
  cases change with
  | pushLeaf list name value =>
    rw [Tree.change, pushLeaf?]
    cases tree.list? list with
    | none => exact .refl tree
    | some siblings => exact precedes_append ..
  | pushBlock list name value? =>
    rw [Tree.change, pushBlock?]
    cases tree.list? list with
    | none => exact .refl tree
    | some siblings => exact (precedes_append ..).trans (precedes_addList ..)
  | clear list =>
    rw [Tree.change, Tree.clear]
    cases tree.list? list with
    | none => exact .refl tree
    | some siblings => exact (tree.precedes_emptied list).trans (precedes_destroyAll ..)

/-- No run of changes brings anything back. -/
theorem precedes_run (tree : Tree) (changes : List Change) :
    tree.Precedes (changes.foldl change tree) := by
  induction changes generalizing tree with
  | nil => exact .refl tree
  | cons change rest ih => exact (tree.precedes_change change).trans (ih _)

/-- A list of a block that is below another list. -/
def OwnedBelow (tree : Tree) (list inner : ListId) : Prop :=
  ∃ id entry, tree.Below list id ∧ tree.entry? id = some entry ∧ entry.children? = some inner

theorem Holds.mem_lists_iff {list : ListId} {owner? : Option EntryId} {position : Nat}
    (holds : tree.Holds list owner? position shape) (inner : ListId) :
    inner ∈ shape.lists ↔
      ∃ id ∈ shape.ids, ∃ entry, tree.entry? id = some entry ∧ entry.children? = some inner := by
  rw [← holds.rows_lists 0, List.mem_filterMap, ← rows_ids shape 0]
  constructor
  · rintro ⟨row, member, owns⟩
    exact ⟨row.id, List.mem_map_of_mem member, row.entry, holds.rows_live 0 row member, owns⟩
  · rintro ⟨id, member, entry, live, owns⟩
    obtain ⟨row, shown, rfl⟩ := List.mem_map.mp member
    obtain rfl : row.entry = entry :=
      Option.some.inj ((holds.rows_live 0 row shown).symm.trans live)
    exact ⟨row, shown, owns⟩

theorem Represents.mem_ids_iff (represents : tree.Represents (fill frames shape)) (id : EntryId) :
    id ∈ shape.ids ↔ tree.Below (focus frames) id := by
  rw [← represents.mem_preorder_iff, represents.inner.preorder]

theorem Represents.mem_lists_iff (represents : tree.Represents (fill frames shape))
    (inner : ListId) : inner ∈ shape.lists ↔ tree.OwnedBelow (focus frames) inner := by
  rw [represents.inner.holds.mem_lists_iff]
  constructor
  · rintro ⟨id, member, entry, live, owns⟩
    exact ⟨id, entry, (represents.mem_ids_iff id).mp member, live, owns⟩
  · rintro ⟨id, entry, below, live, owns⟩
    exact ⟨id, (represents.mem_ids_iff id).mpr below, entry, live, owns⟩

/-- What becomes of a tree in which a list is cleared, and how many entries that frees. -/
structure Clears (tree : Tree) (list : ListId) (siblings : Siblings) (after : Tree) (freed : Nat) :
    Prop where
  below : (tree.preorder list).Nodup ∧ ∀ id, id ∈ tree.preorder list ↔ tree.Below list id
  counted : freed = (tree.preorder list).length
  size : after.size + freed = tree.size
  emptied : after.list? list = some { siblings with entries := #[] }
  stale : ∀ id, tree.Below list id → (tree.entry? id).isSome ∧ after.entry? id = none
  stale_list : ∀ inner, tree.OwnedBelow list inner →
    (tree.list? inner).isSome ∧ after.list? inner = none
  kept : ∀ id, ¬ tree.Below list id → after.entry? id = tree.entry? id
  kept_list : ∀ other, other ≠ list → ¬ tree.OwnedBelow list other →
    after.list? other = tree.list? other
  cut : ∃ front back, front.getLast? = siblings.owner? ∧
    tree.preorder root = front ++ tree.preorder list ++ back ∧
    after.preorder root = front ++ back
  forever : ∀ changes : List Change,
    (∀ id, tree.Below list id → Tree.entry? (changes.foldl change after) id = none) ∧
    ∀ inner, tree.OwnedBelow list inner → (changes.foldl change after).list? inner = none
  again : (after.clear list).2 = 0

theorem Represents.clears (represents : tree.Represents (fill frames shape)) :
    tree.Clears (focus frames) ⟨shape.top.toArray, Shape.owner? frames⟩
      (tree.clear (focus frames)).1 (tree.clear (focus frames)).2 := by
  have inner := represents.inner
  have cleared := represents.clear
  have order := inner.preorder
  have freed : (tree.clear (focus frames)).2 = shape.ids.length := by rw [represents.clear_eq]
  have precedes := tree.precedes_change (.clear (focus frames))
  have stale : ∀ id, tree.Below (focus frames) id →
      (tree.entry? id).isSome ∧ Tree.entry? (tree.clear (focus frames)).1 id = none := by
    intro id below
    have member := (represents.mem_ids_iff id).mpr below
    exact ⟨inner.holds.live id member, by rw [represents.entry?_clear, if_pos member]⟩
  have stale_list : ∀ list, tree.OwnedBelow (focus frames) list →
      (tree.list? list).isSome ∧ (tree.clear (focus frames)).1.list? list = none := by
    intro list below
    have member := (represents.mem_lists_iff list).mpr below
    exact ⟨inner.holds.live_lists list member, by rw [represents.list?_clear, if_pos member]⟩
  constructor
  case below =>
    refine ⟨?_, represents.mem_preorder_iff (focus frames)⟩
    rw [order]
    exact represents.keeps_ids.nodup.of_append_left
  case counted => rw [freed, order]
  case size =>
    rw [cleared.size, represents.size, freed, ids_fill_eq, ids_fill_eq]
    simp only [ids, List.length_append, List.length_nil]
    omega
  case emptied =>
    rw [represents.list?_clear, if_neg inner.holds.focus_notMem, if_pos rfl]
  case stale => exact stale
  case stale_list => exact stale_list
  case kept =>
    intro id outside
    rw [represents.entry?_clear, if_neg (mt (represents.mem_ids_iff id).mp outside)]
  case kept_list =>
    intro other apart outside
    rw [represents.list?_clear, if_neg (mt (represents.mem_lists_iff other).mp outside),
      if_neg apart]
  case cut =>
    refine ⟨idsBefore frames, idsAfter frames, getLast?_idsBefore frames, ?_, ?_⟩
    · rw [represents.lists.preorder, order, ids_fill_eq]
    · rw [cleared.lists.preorder, ids_fill_eq, ids, List.append_nil]
  case forever =>
    intro changes
    have later := precedes_run (tree.clear (focus frames)).1 changes
    refine ⟨fun id below => ?_, fun list below => ?_⟩
    · obtain ⟨live, dead⟩ := stale id below
      exact later.stale (Nat.lt_of_lt_of_le (lt_nextEntry live) precedes.nextEntry) dead
    · obtain ⟨live, dead⟩ := stale_list list below
      exact later.stale_list (Nat.lt_of_lt_of_le (lt_nextList live) precedes.nextList) dead
  case again => rw [cleared.clear_eq, ids, List.length_nil]

/-- Clearing a list frees what is below it, each entry once, and leaves everything else alone. A
list that is stale cannot be cleared. -/
theorem clear_frees_below (reachable : tree.Reachable) (list : ListId) :
    (tree.list? list = none → tree.clear list = (tree, 0)) ∧
      ∀ siblings, tree.list? list = some siblings →
        tree.Clears list siblings (tree.clear list).1 (tree.clear list).2 := by
  obtain ⟨shape, represents⟩ := reachable.represents
  refine ⟨clear_stale, fun siblings listed => ?_⟩
  obtain ⟨frames, below, rfl, rfl⟩ := represents.exists_fill listed
  obtain rfl := Option.some.inj (represents.listed.symm.trans listed)
  exact represents.clears

/-- A block with a block in it, between two entries that stay. -/
theorem clear_frees_below_nested :
    let tree := ((((empty.change (.pushBlock root "service" none)).change
      (.pushBlock ⟨1⟩ "limits" (some "a"))).change (.pushLeaf ⟨2⟩ "rate" "5")).change
      (.pushLeaf ⟨1⟩ "port" "80")).change (.pushLeaf root "port" "81")
    let after := (tree.clear ⟨1⟩).1
    tree.Reachable ∧ tree.list? ⟨1⟩ = some ⟨#[⟨1⟩, ⟨3⟩], some ⟨0⟩⟩ ∧
      tree.preorder ⟨1⟩ = [⟨1⟩, ⟨2⟩, ⟨3⟩] ∧ (tree.clear ⟨1⟩).2 = 3 ∧
      after.list? ⟨1⟩ = some ⟨#[], some ⟨0⟩⟩ ∧ after.entry? ⟨4⟩ = tree.entry? ⟨4⟩ ∧
      Tree.entry? (after.change (.pushLeaf root "rate" "6")) ⟨2⟩ = none := by
  intro tree after
  have reachable : tree.Reachable :=
    .changed (.changed (.changed (.changed (.changed .empty _) _) _) _) _
  have listed : tree.list? ⟨1⟩ = some ⟨#[⟨1⟩, ⟨3⟩], some ⟨0⟩⟩ := by
    subst tree
    cbv
  have order : tree.preorder ⟨1⟩ = [⟨1⟩, ⟨2⟩, ⟨3⟩] := by
    subst tree
    cbv
  have clears := (clear_frees_below reachable ⟨1⟩).2 _ listed
  have below := clears.below.2
  rw [order] at below
  refine ⟨reachable, listed, order, ?_, clears.emptied, ?_, ?_⟩
  · rw [clears.counted, order]
    rfl
  · exact clears.kept ⟨4⟩ (mt (below ⟨4⟩).mpr (by decide))
  · exact (clears.forever [.pushLeaf root "rate" "6"]).1 ⟨2⟩ ((below ⟨2⟩).mp (by decide))

end ServiceConfig.Tree
