import ServiceConfig.Proofs.Arena
import ServiceConfig.Proofs.Tree.Frame
import ServiceConfig.Tree.Load

/-! # Trees that change

Entries are appended to a list or all that is below a list is destroyed. On the shape of a tree an
entry appended is one more at the end of the list, and destruction leaves the list with nothing.
Hence every tree that was ever built by parsing and by changes has a shape.
-/

namespace ServiceConfig.Tree

open Shape

variable {tree : Tree} {frames : List Frame} {shape : Shape}

/-- What can be done to a tree. An entry cannot be appended to a list that is not live; the attempt
leaves the tree as it was. -/
inductive Change
  | pushLeaf (list : ListId) (name value : String)
  | pushBlock (list : ListId) (name : String) (value? : Option String)
  | clear (list : ListId)
  deriving DecidableEq, Repr

def change (tree : Tree) : Change → Tree
  | .pushLeaf list name value => (tree.pushLeaf? list name value).elim tree (·.2)
  | .pushBlock list name value? => (tree.pushBlock? list name value?).elim tree (·.2.2)
  | .clear list => (tree.clear list).1

/-- The trees that come from nothing or from a document by changes. -/
inductive Reachable : Tree → Prop
  | empty : Reachable .empty
  | parsed {files : Files} {origin : String} {text : List UInt8} {tree : Tree}
      (accepted : Tree.parse files origin text = .ok tree) : Reachable tree
  | read {files : Files} {path : String} {tree : Tree}
      (accepted : Tree.read files path = .ok tree) : Reachable tree
  | changed {tree : Tree} (reachable : Reachable tree) (change : Change) :
      Reachable (tree.change change)

theorem entry?_append (tree : Tree) (list : ListId) (siblings : Siblings) (name : String)
    (value? : Option String) (children? : Option ListId) (id : EntryId) :
    Tree.entry? (tree.append list siblings name value? children?) id =
      if id = tree.nextEntry then some ⟨name, value?, children?, list, siblings.entries.size⟩
      else tree.entry? id := by
  obtain ⟨number⟩ := id
  simp only [append, entry?, Arena.get?_add, nextEntry, EntryId.mk.injEq]

theorem list?_update (tree : Tree) (entries : Arena Entry) (changed : ListId)
    (change : Siblings → Siblings) (list : ListId) :
    Tree.list? ⟨entries, tree.lists.update changed.number change⟩ list =
      if list = changed then (tree.list? list).map change else tree.list? list := by
  obtain ⟨number⟩ := list
  obtain ⟨changed⟩ := changed
  simp only [list?, Arena.get?_update, ListId.mk.injEq]

theorem list?_append (tree : Tree) (list : ListId) (siblings : Siblings) (name : String)
    (value? : Option String) (children? : Option ListId) (other : ListId) :
    (tree.append list siblings name value? children?).list? other =
      if other = list then
        (tree.list? list).map fun old => { old with entries := old.entries.push tree.nextEntry }
      else tree.list? other := by
  rw [append, list?_update]
  split
  next same => rw [same]
  next => rfl

theorem nextEntry_dead (tree : Tree) : tree.entry? tree.nextEntry = none :=
  Arena.get?_eq_none_of_next_le (Nat.le_refl _)

theorem nextList_dead (tree : Tree) : tree.list? tree.nextList = none :=
  Arena.get?_eq_none_of_next_le (Nat.le_refl _)

theorem lt_nextEntry {id : EntryId} (live : (tree.entry? id).isSome) :
    id.number < tree.nextEntry.number := by
  obtain ⟨entry, found⟩ := Option.isSome_iff_exists.mp live
  exact Arena.lt_next_of_get? found

theorem lt_nextList {list : ListId} (live : (tree.list? list).isSome) :
    list.number < tree.nextList.number := by
  obtain ⟨siblings, found⟩ := Option.isSome_iff_exists.mp live
  exact Arena.lt_next_of_get? found

theorem Holds.nextEntry_notMem {list : ListId} {owner? : Option EntryId} {position : Nat}
    (holds : tree.Holds list owner? position shape) : tree.nextEntry ∉ shape.ids := by
  intro member
  have live := holds.live _ member
  rw [nextEntry_dead] at live
  cases live

theorem Holds.nextList_notMem {list : ListId} {owner? : Option EntryId} {position : Nat}
    (holds : tree.Holds list owner? position shape) : tree.nextList ∉ shape.lists := by
  intro member
  have live := holds.live_lists _ member
  rw [nextList_dead] at live
  cases live

theorem Holds.focus_notMem {list : ListId} {owner? : Option EntryId} {position : Nat}
    (holds : tree.Holds list owner? position shape) : list ∉ shape.lists :=
  fun member => Nat.lt_irrefl _ (holds.newer list member)

/-- The entry that an append to the innermost opened list makes. -/
def appended (frames : List Frame) (shape : Shape) (name : String) (value? : Option String)
    (children? : Option ListId) : Entry :=
  ⟨name, value?, children?, focus frames, shape.top.length⟩

theorem Represents.inner (represents : tree.Represents (fill frames shape)) :
    tree.Lists (focus frames) (owner? frames) shape := (lists_fill_iff.mp represents.lists).2

/-- A new entry stands at the end of its list, younger than all others. -/
theorem Represents.placed_append (represents : tree.Represents (fill frames shape))
    (siblings : Siblings) (sized : siblings.entries.size = shape.top.length) (name : String)
    (value? : Option String) (children? : Option ListId) :
    (tree.append (focus frames) siblings name value? children?).Placed (focus frames)
      (owner? frames) (0 + shape.top.length) tree.nextEntry
      (appended frames shape name value? children?) where
  live := by rw [entry?_append, if_pos rfl, sized, appended]
  parent := rfl
  position := by rw [Nat.zero_add, appended]
  younger owner owns :=
    lt_nextEntry ((lists_fill_iff.mp represents.lists).1.live_owner owner owns)

/-- What a list held before an append to it, it still holds. -/
theorem Represents.holds_append (represents : tree.Represents (fill frames shape))
    (siblings : Siblings) (name : String) (value? : Option String) (children? : Option ListId) :
    (tree.append (focus frames) siblings name value? children?).Holds (focus frames)
      (owner? frames) 0 shape := by
  have holds := represents.inner.holds
  apply holds.congr
  · intro id member
    rw [entry?_append, if_neg (ne_of_mem_of_not_mem member holds.nextEntry_notMem)]
  · intro list member
    rw [list?_append, if_neg (ne_of_mem_of_not_mem member holds.focus_notMem)]

theorem Represents.listed_append (represents : tree.Represents (fill frames shape))
    (siblings : Siblings) (name : String) (value? : Option String) (children? : Option ListId) :
    (tree.append (focus frames) siblings name value? children?).list? (focus frames) =
      some ⟨(shape.top ++ [tree.nextEntry]).toArray, owner? frames⟩ := by
  rw [list?_append, if_pos rfl, represents.inner.listed, Option.map_some, List.push_toArray]

/-- Fresh entries at the end of one list, and nothing else changed. -/
theorem Represents.extend {other : Tree} {added : Shape}
    (represents : tree.Represents (fill frames shape))
    (entries : ∀ id, id ∉ added.ids → other.entry? id = tree.entry? id)
    (lists : ∀ list, list ≠ focus frames → list ∉ added.lists →
      other.list? list = tree.list? list)
    (inner : other.Lists (focus frames) (owner? frames) (shape ++ added))
    (ids_nodup : added.ids.Nodup) (lists_nodup : added.lists.Nodup)
    (ids_dead : ∀ id ∈ added.ids, tree.entry? id = none)
    (lists_dead : ∀ list ∈ added.lists, tree.list? list = none) :
    other.Represents (fill frames (shape ++ added)) := by
  have holds := represents.inner.holds
  have listed := represents.inner.listed
  have oldIds := represents.keeps_ids.nodup.of_append_left
  have oldLists := represents.keeps_lists.nodup.of_append_left
  apply represents.refill _ _ inner
  · rw [ids_append]
    apply List.nodup_append.mpr
    refine ⟨oldIds, ids_nodup, ?_⟩
    intro id old id' new same
    have live := holds.live id old
    rw [same, ids_dead id' new] at live
    cases live
  · rw [lists_append, ← List.cons_append]
    apply List.nodup_append.mpr
    refine ⟨oldLists, lists_nodup, ?_⟩
    intro list old list' new same
    rcases List.mem_cons.mp old with rfl | old
    · rw [same, lists_dead list' new] at listed
      cases listed
    · have live := holds.live_lists list old
      rw [same, lists_dead list' new] at live
      cases live
  · intro id member
    rw [ids_append] at member
    exact (List.mem_append.mp member).imp_right (ids_dead id)
  · intro list member
    rw [lists_append] at member
    exact (List.mem_append.mp member).imp_right (lists_dead list)
  · exact fun id old gone => absurd (by simp [old]) gone
  · exact fun list old gone => absurd (by simp [old]) gone
  · intro id _ notNew
    exact entries id fun member => notNew (by simp [member])
  · intro list notOld notNew
    exact lists list (fun same => notOld (by simp [same])) fun member => notNew (by simp [member])

theorem Represents.pushLeaf (represents : tree.Represents (fill frames shape))
    (name value : String) :
    ∃ grown, tree.pushLeaf? (focus frames) name value = some (tree.nextEntry, grown) ∧
      grown.Represents (fill frames (shape ++ .leaf tree.nextEntry
        (appended frames shape name (some value) none) .nil)) := by
  have inner := represents.inner
  refine ⟨_, by rw [pushLeaf?, inner.listed, Option.map_some], ?_⟩
  refine represents.extend ?_ ?_ ⟨?_, ?_⟩ ?_ ?_ ?_ ?_
  · intro id old
    rw [entry?_append, if_neg fun same => old (by simp [ids, same])]
  · intro list apart _
    rw [list?_append, if_neg apart]
  · rw [represents.listed_append, top_append]
    rfl
  · apply Tree.holds_append.mpr
    refine ⟨represents.holds_append .., .leaf ?_ rfl rfl .nil⟩
    exact represents.placed_append _ List.size_toArray ..
  · simp [ids]
  · simp [Shape.lists]
  · simp [ids, nextEntry_dead]
  · simp [Shape.lists]

theorem list?_addList (tree : Tree) (siblings : Siblings) (list : ListId) :
    Tree.list? { tree with lists := tree.lists.add siblings } list =
      if list = tree.nextList then some siblings else tree.list? list := by
  obtain ⟨number⟩ := list
  simp only [list?, Arena.get?_add, nextList, ListId.mk.injEq]

theorem nextList_append (tree : Tree) (list : ListId) (siblings : Siblings) (name : String)
    (value? : Option String) (children? : Option ListId) :
    (tree.append list siblings name value? children?).nextList = tree.nextList := by
  simp only [nextList, append, Arena.next_update]

theorem Represents.pushBlock (represents : tree.Represents (fill frames shape))
    (name : String) (value? : Option String) :
    ∃ grown, tree.pushBlock? (focus frames) name value? =
        some (tree.nextEntry, tree.nextList, grown) ∧
      grown.Represents (fill frames (shape ++ .block tree.nextEntry
        (appended frames shape name value? (some tree.nextList)) tree.nextList .nil .nil)) := by
  have inner := represents.inner
  have focusOld : focus frames ≠ tree.nextList := by
    intro same
    have dead := tree.nextList_dead
    rw [← same, inner.listed] at dead
    cases dead
  refine ⟨_, by rw [pushBlock?, inner.listed, Option.map_some], ?_⟩
  refine represents.extend ?_ ?_ ⟨?_, ?_⟩ ?_ ?_ ?_ ?_
  · intro id old
    exact (entry?_append ..).trans (if_neg fun same => old (by simp [ids, same]))
  · intro list apart old
    rw [list?_addList, nextList_append, if_neg fun same => old (by simp [Shape.lists, same]),
      list?_append, if_neg apart]
  · rw [list?_addList, nextList_append, if_neg focusOld, represents.listed_append, top_append]
    rfl
  · apply Tree.holds_append.mpr
    refine ⟨?_, .block ?_ rfl ?_ ?_ .nil .nil⟩
    · apply (represents.holds_append _ name value? (some tree.nextList)).congr
      · intro _ _
        rfl
      · intro list member
        rw [list?_addList, nextList_append,
          if_neg (ne_of_mem_of_not_mem member inner.holds.nextList_notMem)]
    · exact (represents.placed_append _ List.size_toArray name value? _).congr rfl
    · exact lt_nextList (by rw [inner.listed, Option.isSome_some])
    · rw [list?_addList, nextList_append, if_pos rfl]
      rfl
  · simp [ids]
  · simp [Shape.lists]
  · simp [ids, nextEntry_dead]
  · simp [Shape.lists, nextList_dead]

theorem nextEntry_pushLeaf? {list : ListId} {name value : String} {id : EntryId}
    (pushed : tree.pushLeaf? list name value = some (id, grown)) :
    grown.nextEntry.number = tree.nextEntry.number + 1 ∧ grown.nextList = tree.nextList := by
  obtain ⟨siblings, -, same⟩ := Option.map_eq_some_iff.mp pushed
  obtain ⟨-, rfl⟩ := Prod.mk.inj same
  exact ⟨Arena.next_add .., nextList_append ..⟩

theorem nextEntry_pushBlock? {list children : ListId} {name : String} {value? : Option String}
    {id : EntryId} (pushed : tree.pushBlock? list name value? = some (id, children, grown)) :
    grown.nextEntry.number = tree.nextEntry.number + 1 ∧
      grown.nextList.number = tree.nextList.number + 1 := by
  obtain ⟨siblings, -, same⟩ := Option.map_eq_some_iff.mp pushed
  obtain ⟨-, same⟩ := Prod.mk.inj same
  obtain ⟨-, rfl⟩ := Prod.mk.inj same
  refine ⟨Arena.next_add .., (Arena.next_add ..).trans ?_⟩
  exact congrArg (ListId.number · + 1) (nextList_append ..)

/-- The tree without the entries of a shape and the children lists of its blocks. -/
def fell (tree : Tree) : Shape → Tree
  | .nil => tree
  | .leaf id _ rest => fell ⟨tree.entries.release id.number, tree.lists⟩ rest
  | .block id _ children below rest =>
    (fell ⟨tree.entries.release id.number, tree.lists.release children.number⟩ below).fell rest

theorem entry?_release (tree : Tree) (lists : Arena Siblings) (released id : EntryId) :
    Tree.entry? ⟨tree.entries.release released.number, lists⟩ id =
      if id = released then none else tree.entry? id := by
  obtain ⟨number⟩ := id
  obtain ⟨released⟩ := released
  simp only [Arena.get?_release, entry?, EntryId.mk.injEq]

theorem list?_release (tree : Tree) (entries : Arena Entry) (released list : ListId) :
    Tree.list? ⟨entries, tree.lists.release released.number⟩ list =
      if list = released then none else tree.list? list := by
  obtain ⟨number⟩ := list
  obtain ⟨released⟩ := released
  simp only [list?, Arena.get?_release, ListId.mk.injEq]

private theorem entry?_fell (tree : Tree) (shape : Shape) (id : EntryId) :
    Tree.entry? (tree.fell shape) id = if id ∈ shape.ids then none else tree.entry? id := by
  induction shape generalizing tree with
  | nil => simp [fell, ids]
  | leaf released entry rest ih =>
    rw [fell, ih, entry?_release]
    by_cases same : id = released <;> simp [ids, same]
  | block released entry children below rest ihBelow ih =>
    rw [fell, ih, ihBelow, entry?_release]
    by_cases same : id = released
    · simp [ids, same]
    · by_cases inBelow : id ∈ below.ids <;> simp [ids, same, inBelow]

private theorem list?_fell (tree : Tree) (shape : Shape) (list : ListId) :
    (tree.fell shape).list? list = if list ∈ shape.lists then none else tree.list? list := by
  induction shape generalizing tree with
  | nil => simp [fell, Shape.lists]
  | leaf released entry rest ih =>
    rw [fell, ih]
    rfl
  | block released entry children below rest ihBelow ih =>
    rw [fell, ih, ihBelow, list?_release]
    by_cases same : list = children
    · simp [Shape.lists, same]
    · by_cases inBelow : list ∈ below.lists <;> simp [Shape.lists, same, inBelow]

private theorem destroyAll_nil (tree : Tree) : tree.destroyAll [] = (tree, 0) := by rw [destroyAll]

private theorem destroyAll_leaf {id : EntryId} {entry : Entry} (found : tree.entry? id = some entry)
    (childless : entry.children? = none) (later : List EntryId) :
    tree.destroyAll (id :: later) =
      let rest := destroyAll ⟨tree.entries.release id.number, tree.lists⟩ later
      (rest.1, rest.2 + 1) := by
  rw [destroyAll]
  split
  next missing => rw [found] at missing; cases missing
  next other same =>
    obtain rfl : entry = other := Option.some.inj (found.symm.trans same)
    rw [childless]

private theorem destroyAll_block {id : EntryId} {entry : Entry} {children : ListId}
    {siblings : Siblings}
    (found : tree.entry? id = some entry) (owns : entry.children? = some children)
    (listed : tree.list? children = some siblings) (later : List EntryId) :
    tree.destroyAll (id :: later) =
      let rest := destroyAll ⟨tree.entries.release id.number, tree.lists.release children.number⟩
        (siblings.entries.toList ++ later)
      (rest.1, rest.2 + 1) := by
  rw [destroyAll]
  split
  next missing => rw [found] at missing; cases missing
  next other same =>
    obtain rfl : entry = other := Option.some.inj (found.symm.trans same)
    rw [owns]
    dsimp only
    rw [listed, Option.elim_some]

/-- Destroying the entries of a list frees exactly what is there and below. -/
theorem Holds.destroyAll {list : ListId} {owner? : Option EntryId} {position : Nat}
    (holds : tree.Holds list owner? position shape) (ids_nodup : shape.ids.Nodup)
    (lists_nodup : shape.lists.Nodup) (later : List EntryId) :
    tree.destroyAll (shape.top ++ later) =
      (((tree.fell shape).destroyAll later).1,
        ((tree.fell shape).destroyAll later).2 + shape.ids.length) := by
  induction shape generalizing tree list owner? position later with
  | nil => rfl
  | leaf id entry rest ih =>
    obtain _ | ⟨placed, childless, _, after⟩ := holds
    obtain ⟨fresh, ids_nodup⟩ := List.nodup_cons.mp ids_nodup
    have kept : Holds ⟨tree.entries.release id.number, tree.lists⟩ list owner? (position + 1)
        rest := by
      apply after.congr
      · intro other member
        rw [entry?_release, if_neg (ne_of_mem_of_not_mem member fresh)]
      · intro _ _
        rfl
    rw [Shape.top, List.cons_append, destroyAll_leaf placed.live childless,
      ih kept ids_nodup lists_nodup]
    simp only [fell, ids, List.length_cons, Nat.add_assoc]
  | block id entry children below rest ihBelow ih =>
    obtain _ | _ | ⟨placed, owns, _, listed, inside, after⟩ := holds
    obtain ⟨fresh, ids_nodup⟩ := List.nodup_cons.mp ids_nodup
    obtain ⟨idsBelow, idsRest, idsApart⟩ := List.nodup_append.mp ids_nodup
    obtain ⟨freshList, lists_nodup⟩ := List.nodup_cons.mp lists_nodup
    obtain ⟨listsBelow, listsRest, listsApart⟩ := List.nodup_append.mp lists_nodup
    rw [List.mem_append, not_or] at fresh freshList
    let opened : Tree := ⟨tree.entries.release id.number, tree.lists.release children.number⟩
    have keptBelow : opened.Holds children (some id) 0 below := by
      apply inside.congr
      · intro other member
        rw [entry?_release, if_neg (ne_of_mem_of_not_mem member fresh.1)]
      · intro other member
        rw [list?_release, if_neg (ne_of_mem_of_not_mem member freshList.1)]
    have keptRest : (opened.fell below).Holds list owner? (position + 1) rest := by
      apply after.congr
      · intro other member
        rw [entry?_fell, if_neg fun both => idsApart other both other member rfl, entry?_release,
          if_neg (ne_of_mem_of_not_mem member fresh.2)]
      · intro other member
        rw [list?_fell, if_neg fun both => listsApart other both other member rfl, list?_release,
          if_neg (ne_of_mem_of_not_mem member freshList.2)]
    rw [Shape.top, List.cons_append, destroyAll_block placed.live owns listed]
    simp only [fell, ids, List.length_cons, List.length_append]
    have belowGone := ihBelow keptBelow idsBelow listsBelow (rest.top ++ later)
    have restGone := ih keptRest idsRest listsRest later
    rw [belowGone, restGone]
    simp only [opened, Prod.mk.injEq, true_and]
    omega

/-- The tree with nothing left in a list itself; what was below it is still there. -/
def emptied (tree : Tree) (list : ListId) : Tree :=
  ⟨tree.entries, tree.lists.update list.number ({ · with entries := #[] })⟩

theorem Represents.list?_emptied (represents : tree.Represents (fill frames shape))
    (list : ListId) :
    (tree.emptied (focus frames)).list? list =
      if list = focus frames then some ⟨#[], owner? frames⟩ else tree.list? list := by
  rw [emptied, list?_update]
  split
  next focused => rw [focused, represents.inner.listed, Option.map_some]
  next => rfl

/-- Clearing a list fells what is below it. -/
theorem Represents.clear_eq (represents : tree.Represents (fill frames shape)) :
    tree.clear (focus frames) = ((tree.emptied (focus frames)).fell shape, shape.ids.length) := by
  have inner := represents.inner
  have idsOld := represents.keeps_ids.nodup.of_append_left
  have listsOld := represents.keeps_lists.nodup.of_append_left.of_cons
  have kept : (tree.emptied (focus frames)).Holds (focus frames) (owner? frames) 0 shape := by
    apply inner.holds.congr
    · intro _ _
      rfl
    · intro list member
      rw [represents.list?_emptied, if_neg (ne_of_mem_of_not_mem member inner.holds.focus_notMem)]
  have destroyed := kept.destroyAll idsOld listsOld []
  rw [List.append_nil, destroyAll_nil, Nat.zero_add] at destroyed
  rw [Tree.clear, inner.listed]
  exact destroyed

theorem Represents.entry?_clear (represents : tree.Represents (fill frames shape)) (id : EntryId) :
    Tree.entry? (tree.clear (focus frames)).1 id =
      if id ∈ shape.ids then none else tree.entry? id := by
  rw [represents.clear_eq]
  exact entry?_fell ..

theorem Represents.list?_clear (represents : tree.Represents (fill frames shape)) (list : ListId) :
    (tree.clear (focus frames)).1.list? list =
      if list ∈ shape.lists then none
      else if list = focus frames then some ⟨#[], owner? frames⟩ else tree.list? list := by
  rw [represents.clear_eq, list?_fell, represents.list?_emptied]

theorem Represents.clear (represents : tree.Represents (fill frames shape)) :
    (tree.clear (focus frames)).1.Represents (fill frames .nil) := by
  have inner := represents.inner
  apply represents.refill _ _ ⟨_, .nil⟩ List.nodup_nil (List.nodup_singleton _)
  · simp [ids]
  · simp [Shape.lists]
  · intro id old _
    rw [represents.entry?_clear, if_pos old]
  · intro list old _
    rw [represents.list?_clear, if_pos old]
  · intro id old _
    rw [represents.entry?_clear, if_neg old]
  · intro list old _
    obtain ⟨apart, old⟩ := not_or.mp (mt List.mem_cons.mpr old)
    rw [represents.list?_clear, if_neg old, if_neg apart]
  · rw [represents.list?_clear, if_neg inner.holds.focus_notMem, if_pos rfl]
    rfl

theorem represents_empty : empty.Represents .nil where
  lists := ⟨rfl, .nil⟩
  ids_nodup := List.nodup_nil
  lists_nodup := List.nodup_singleton _
  entry_mem live := by cases live
  list_mem := by
    rintro ⟨number⟩ live
    rw [list?, empty, Arena.get?_add] at live
    split at live
    next first =>
      exact List.mem_singleton.mpr (congrArg ListId.mk first)
    next => cases live

theorem pushLeaf?_stale {list : ListId} (stale : tree.list? list = none) (name value : String) :
    tree.pushLeaf? list name value = none := by rw [pushLeaf?, stale, Option.map_none]

theorem pushBlock?_stale {list : ListId} (stale : tree.list? list = none) (name : String)
    (value? : Option String) : tree.pushBlock? list name value? = none := by
  rw [pushBlock?, stale, Option.map_none]

theorem clear_stale {list : ListId} (stale : tree.list? list = none) :
    tree.clear list = (tree, 0) := by rw [clear, stale]

theorem Represents.change (represents : tree.Represents shape) (change : Change) :
    ∃ after, (tree.change change).Represents after := by
  cases change with
  | pushLeaf list name value =>
    rw [Tree.change]
    rcases represents.stale_or_fill list with stale | ⟨frames, below, rfl, rfl⟩
    · exact ⟨shape, by rwa [pushLeaf?_stale stale, Option.elim_none]⟩
    · obtain ⟨grown, pushed, represents⟩ := represents.pushLeaf name value
      exact ⟨_, by rwa [pushed, Option.elim_some]⟩
  | pushBlock list name value? =>
    rw [Tree.change]
    rcases represents.stale_or_fill list with stale | ⟨frames, below, rfl, rfl⟩
    · exact ⟨shape, by rwa [pushBlock?_stale stale, Option.elim_none]⟩
    · obtain ⟨grown, pushed, represents⟩ := represents.pushBlock name value?
      exact ⟨_, by rwa [pushed, Option.elim_some]⟩
  | clear list =>
    rw [Tree.change]
    rcases represents.stale_or_fill list with stale | ⟨frames, below, rfl, rfl⟩
    · exact ⟨shape, by rwa [clear_stale stale]⟩
    · exact ⟨_, represents.clear⟩

/-- Growing a tree by a document is a run of pushes. -/
theorem Represents.grow (represents : tree.Represents shape) (current : ListId)
    (outer : List ListId) (events : List Grammar.Event) :
    ∃ after, (tree.grow current outer events).Represents after := by
  induction events generalizing tree shape current outer with
  | nil => exact ⟨shape, represents⟩
  | cons event rest ih =>
    cases event with
    | leaf name value =>
      obtain ⟨after, pushed⟩ := represents.change (.pushLeaf current name value)
      rw [Tree.change] at pushed
      rw [Tree.grow]
      split
      · exact ⟨shape, represents⟩
      next grown found =>
        rw [found] at pushed
        exact ih pushed current outer
    | opening name value? =>
      obtain ⟨after, pushed⟩ := represents.change (.pushBlock current name value?)
      rw [Tree.change] at pushed
      rw [Tree.grow]
      split
      · exact ⟨shape, represents⟩
      next children grown found =>
        rw [found] at pushed
        exact ih pushed children (current :: outer)
    | closing =>
      cases outer with
      | nil => exact ⟨shape, represents⟩
      | cons list lists => exact ih represents list lists

private theorem ok_of_map {ε α β : Type} {result : Except ε α} {convert : α → β} {value : β}
    (mapped : result.map convert = .ok value) : ∃ source, convert source = value := by
  cases result with
  | error => cases mapped
  | ok source => exact ⟨source, Except.ok.inj mapped⟩

theorem Reachable.represents (reachable : tree.Reachable) : ∃ shape, tree.Represents shape := by
  induction reachable with
  | empty => exact ⟨.nil, represents_empty⟩
  | parsed accepted =>
    obtain ⟨events, rfl⟩ := ok_of_map accepted
    exact represents_empty.grow root [] events
  | read accepted =>
    obtain ⟨events, rfl⟩ := ok_of_map accepted
    exact represents_empty.grow root [] events
  | changed _ change ih =>
    obtain ⟨shape, represents⟩ := ih
    exact represents.change change

end ServiceConfig.Tree
