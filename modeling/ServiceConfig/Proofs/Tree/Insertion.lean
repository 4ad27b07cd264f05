import ServiceConfig.Proofs.Tree.Destruction

/-! # What an appended entry changes

An entry that is appended to a list comes, in document order, behind everything below the list, and
nothing else moves. The order below any list is the order of the whole tree, filtered by what stands
below that list. So all these orders stay what they were but for the new entry, and so do matches;
and a search that stood at an old entry finds from there on what it would have found, each match
once, and perhaps the new entry in between.
-/

namespace ServiceConfig.Tree

open Shape

variable {tree grown : Tree} {frames : List Frame} {shape added : Shape} {list : ListId}
  {siblings : Siblings} {id : EntryId} {entry : Entry}

/-- A part of a list is what a test leaves of it that only the members of the part pass. -/
private theorem filter_eq_of_sublist {α : Type} {items part : List α} {test : α → Bool}
    (sublist : part.Sublist items) (nodup : items.Nodup)
    (passes : ∀ item ∈ items, test item = true ↔ item ∈ part) : items.filter test = part := by
  have all : part.filter test = part :=
    List.filter_eq_self.mpr fun item member => (passes item (sublist.subset member)).mpr member
  have within : part.Sublist (items.filter test) := all ▸ sublist.filter test
  have same : part.Perm (items.filter test) := by
    refine (List.perm_ext_iff_of_nodup (nodup.sublist sublist) (nodup.filter test)).mpr ?_
    intro item
    rw [List.mem_filter]
    constructor
    · exact fun member => ⟨sublist.subset member, (passes item (sublist.subset member)).mpr member⟩
    · exact fun ⟨member, passed⟩ => (passes item member).mp passed
  exact (within.eq_of_length same.length_eq).symm

/-- The order below a list is the order of the whole tree, as far as it is below the list. -/
theorem Represents.scope_eq_filter (represents : tree.Represents shape) (list : ListId)
    (deep : Bool) :
    tree.scope list deep = (tree.preorder root).filter (tree.isWithin list deep) := by
  have sublist : (tree.scope list deep).Sublist (tree.preorder root) := by
    rw [represents.lists.preorder]
    rcases represents.stale_or_fill list with stale | ⟨frames, below, rfl, rfl⟩
    · rw [scope_stale stale]
      exact List.nil_sublist _
    · rw [represents.inner.scope, ids_fill_eq]
      have segment := (List.sublist_append_right (idsBefore frames) below.ids).trans
        (List.sublist_append_left _ (idsAfter frames))
      split
      · exact segment
      · exact below.top_sublist_ids.trans segment
  have nodup : (tree.preorder root).Nodup := by
    rw [represents.lists.preorder]
    exact represents.ids_nodup
  refine (filter_eq_of_sublist sublist nodup ?_).symm
  exact fun id _ => represents.isWithin_iff list deep id

/-- Where the entries and owners are the same, an entry climbs to the same lists. -/
theorem Represents.isWithin_eq (represents : tree.Represents shape)
    (entries : ∀ id, (tree.entry? id).isSome → grown.entry? id = tree.entry? id)
    (owners : ∀ list siblings, tree.list? list = some siblings →
      (grown.list? list).bind (·.owner?) = siblings.owner?)
    (live : (tree.entry? id).isSome) (scope : ListId) (deep : Bool) :
    grown.isWithin scope deep id = tree.isWithin scope deep id := by
  -- an entry's owner is older than the entry, so the climb is an induction on its number
  induction number : id.number using Nat.strong_induction_on generalizing id with
  | _ number ih =>
    obtain ⟨entry, found⟩ := Option.isSome_iff_exists.mp live
    obtain ⟨siblings, listed, -⟩ := represents.parent_listed found
    have owned : grown.owner? id entry = tree.owner? id entry := by
      unfold Tree.owner?
      rw [owners _ _ listed, listed, Option.bind_some]
    rw [isWithin, isWithin]
    simp only [entries id live, found, owned]
    cases climbs : tree.owner? id entry with
    | none => rfl
    | some owner =>
      obtain ⟨owner, older⟩ := owner
      have ownedBy := owner?_eq_some climbs
      rw [listed, Option.bind_some] at ownedBy
      obtain ⟨block, ownerLive, -⟩ := represents.owner_owns listed ownedBy
      have same := ih owner.number (number ▸ older) (by rw [ownerLive, Option.isSome_some]) rfl
      simp only [same]

theorem ne_nextEntry (live : (tree.entry? id).isSome) : id ≠ tree.nextEntry := by
  rintro rfl
  rw [nextEntry_dead] at live
  cases live

/-- What becomes of a tree in which a list gains an entry at its end. -/
structure Gains (tree : Tree) (list : ListId) (siblings : Siblings) (id : EntryId) (entry : Entry)
    (grown : Tree) : Prop where
  fresh : ∀ (earlier : Tree) (changes : List Change), changes.foldl change earlier = tree →
    earlier.entry? id = none ∧ ∀ children ∈ entry.children?, earlier.list? children = none
  gained : grown.entry? id = some entry
  kept : ∀ other, other ≠ id → grown.entry? other = tree.entry? other
  listed : grown.list? list = some { siblings with entries := siblings.entries.push id }
  children : ∀ children ∈ entry.children?, grown.list? children = some ⟨#[], some id⟩
  kept_list : ∀ other, other ≠ list → other ∉ entry.children? →
    grown.list? other = tree.list? other
  size : grown.size = tree.size + 1
  below : ∀ other, other ∈ tree.preorder list ↔ tree.Below list other
  inserted : ∃ front back, tree.preorder root = front ++ back ∧
    grown.preorder root = front ++ id :: back ∧
    front.getLast? = (tree.preorder list).getLast?.or siblings.owner? ∧
    (list = root → back = [])
  matching : ∀ other query,
    (grown.matching other query).filter (· ≠ id) = tree.matching other query
  resumed : ∀ other query before previous later,
    tree.scope other query.recursive = before ++ previous :: later →
      ∃ found, Yields (grown.findNext? other query) (some previous) found ∧ found.Nodup ∧
        found.filter (· ≠ id) = later.filter (tree.fits query)
  outside : ∀ other query previous, previous ≠ id →
    previous ∉ tree.scope other query.recursive →
      grown.findNext? other query (some previous) = none

section

variable (represents : tree.Represents (fill frames shape))
  (grows : grown.Represents (fill frames (shape ++ added))) (one : added.ids = [tree.nextEntry])
  (kept : ∀ other, other ≠ tree.nextEntry → grown.entry? other = tree.entry? other)
  (owners : ∀ list siblings, tree.list? list = some siblings →
    (grown.list? list).bind (·.owner?) = siblings.owner?)

include represents grows one

/-- The new entry stands behind what was below its list. -/
theorem Represents.preorder_gained :
    tree.preorder root = idsBefore frames ++ shape.ids ++ idsAfter frames ∧
      grown.preorder root =
        idsBefore frames ++ shape.ids ++ tree.nextEntry :: idsAfter frames := by
  rw [represents.lists.preorder, grows.lists.preorder, ids_fill_eq, ids_fill_eq, ids_append, one]
  simp

include kept owners

/-- Without the new entry, the order below any list is what it was. -/
theorem Represents.scope_gained (other : ListId) (deep : Bool) :
    (grown.scope other deep).filter (· ≠ tree.nextEntry) = tree.scope other deep := by
  obtain ⟨old, new⟩ := represents.preorder_gained grows one
  have live : ∀ id ∈ tree.preorder root, (tree.entry? id).isSome := by
    rw [represents.lists.preorder]
    exact represents.lists.holds.live
  have whole : (grown.preorder root).filter (· ≠ tree.nextEntry) = tree.preorder root := by
    have all := List.filter_eq_self.mpr fun id member =>
      decide_eq_true (ne_nextEntry (live id member))
    rw [old, List.filter_append] at all
    rw [new, old, List.filter_append, List.filter_cons_of_neg (by simp), all]
  rw [grows.scope_eq_filter, List.filter_comm, whole, represents.scope_eq_filter]
  refine List.filter_congr fun id member => ?_
  exact represents.isWithin_eq (fun id alive => kept id (ne_nextEntry alive)) owners
    (live id member) other deep

/-- The old matches are found in their old order. -/
theorem Represents.matching_gained (other : ListId) (query : Query) :
    (grown.matching other query).filter (· ≠ tree.nextEntry) = tree.matching other query := by
  rw [represents.matching_eq, grows.matching_eq, List.filter_comm,
    represents.scope_gained grows one kept owners]
  refine List.filter_congr fun id member => ?_
  rw [fits, kept id (ne_nextEntry (represents.scope_live member)), fits]

/-- From an old entry on, the later old matches are found, each once. -/
theorem Represents.resumed_gained {other : ListId} {query : Query} {before later : List EntryId}
    {previous : EntryId} (split : tree.scope other query.recursive = before ++ previous :: later) :
    ∃ found, Yields (grown.findNext? other query) (some previous) found ∧ found.Nodup ∧
      found.filter (· ≠ tree.nextEntry) = later.filter (tree.fits query) := by
  have whole := represents.scope_gained grows one kept owners other query.recursive
  rw [split] at whole
  obtain ⟨front, back, parted, rest⟩ := filter_eq_append_cons whole
  refine ⟨back.filter (grown.fits query), grows.yields_after query parted, ?_, ?_⟩
  · have nodup := grows.scope_nodup other query.recursive
    rw [parted] at nodup
    exact (nodup.of_append_right.of_cons).filter _
  · rw [List.filter_comm, rest]
    refine List.filter_congr fun id member => ?_
    have inScope : id ∈ tree.scope other query.recursive := by
      rw [split]
      exact List.mem_append_right before (List.mem_cons_of_mem previous member)
    have live := represents.scope_live inScope
    rw [fits, kept id (ne_nextEntry live), fits]

theorem Represents.outside_gained {other : ListId} {query : Query} {previous : EntryId}
    (apart : previous ≠ tree.nextEntry) (outside : previous ∉ tree.scope other query.recursive) :
    grown.findNext? other query (some previous) = none := by
  rw [← represents.scope_gained grows one kept owners, List.mem_filter] at outside
  exact grows.findNext?_outside query fun member => outside ⟨member, decide_eq_true apart⟩

end

/-- The list of a block is not the root list. -/
theorem Surrounds.focus_ne_root {frame : Frame} (surrounds : tree.Surrounds (frame :: frames)) :
    focus (frame :: frames) ≠ root := by
  obtain _ | ⟨-, -, -, -, newer, -, -⟩ := surrounds
  intro same
  have first : frame.children.number = 0 := congrArg ListId.number same
  omega

/-- Whatever is appended, if it is a new entry and at most has a new list of its own, the tree gains
this entry and nothing else. -/
theorem Represents.gains (represents : tree.Represents (fill frames shape))
    (grows : grown.Represents (fill frames (shape ++ added))) (one : added.ids = [tree.nextEntry])
    (gained : grown.entry? tree.nextEntry = some entry)
    (kept : ∀ other, other ≠ tree.nextEntry → grown.entry? other = tree.entry? other)
    (listed : grown.list? (focus frames) =
      some ⟨(shape.top ++ [tree.nextEntry]).toArray, Shape.owner? frames⟩)
    (newest : ∀ children ∈ entry.children?, children = tree.nextList)
    (children : ∀ children ∈ entry.children?,
      grown.list? children = some ⟨#[], some tree.nextEntry⟩)
    (kept_list : ∀ other, other ≠ focus frames → other ∉ entry.children? →
      grown.list? other = tree.list? other) :
    tree.Gains (focus frames) ⟨shape.top.toArray, Shape.owner? frames⟩ tree.nextEntry entry
      grown := by
  have owners : ∀ list siblings, tree.list? list = some siblings →
      (grown.list? list).bind (·.owner?) = siblings.owner? := by
    intro list siblings found
    by_cases focused : list = focus frames
    · subst focused
      obtain rfl := Option.some.inj (represents.listed.symm.trans found)
      rw [listed, Option.bind_some]
    · have old : list ∉ entry.children? := by
        intro fresh
        rw [newest list fresh, nextList_dead] at found
        cases found
      rw [kept_list list focused old, found, Option.bind_some]
  constructor
  case fresh =>
    rintro earlier changes rfl
    have precedes := precedes_run earlier changes
    refine ⟨Arena.get?_eq_none_of_next_le precedes.nextEntry, fun children owns => ?_⟩
    rw [newest children owns]
    exact Arena.get?_eq_none_of_next_le precedes.nextList
  case gained => exact gained
  case kept => exact kept
  case listed => rw [listed, List.push_toArray]
  case children => exact children
  case kept_list => exact kept_list
  case size =>
    rw [grows.size, represents.size, ids_fill_eq, ids_fill_eq, ids_append, one]
    simp only [List.length_append, List.length_singleton]
    omega
  case below => exact represents.mem_preorder_iff (focus frames)
  case inserted =>
    obtain ⟨old, new⟩ := represents.preorder_gained grows one
    refine ⟨idsBefore frames ++ shape.ids, idsAfter frames, old, new, ?_, ?_⟩
    · rw [List.getLast?_append, represents.inner.preorder, getLast?_idsBefore]
    · cases frames with
      | nil => exact fun _ => rfl
      | cons frame frames =>
        obtain ⟨surrounds, -⟩ := lists_fill_iff.mp represents.lists
        exact fun focused => absurd focused surrounds.focus_ne_root
  case matching => exact represents.matching_gained grows one kept owners
  case resumed =>
    intro other query before previous later split
    exact represents.resumed_gained grows one kept owners split
  case outside =>
    intro other query previous apart outside
    exact represents.outside_gained grows one kept owners apart outside

theorem Represents.gains_leaf (represents : tree.Represents (fill frames shape))
    (name value : String) :
    ∃ grown, tree.pushLeaf? (focus frames) name value = some (tree.nextEntry, grown) ∧
      tree.Gains (focus frames) ⟨shape.top.toArray, Shape.owner? frames⟩ tree.nextEntry
        (appended frames shape name (some value) none) grown := by
  obtain ⟨grown, pushed, grows⟩ := represents.pushLeaf name value
  have made := pushed
  rw [pushLeaf?, represents.listed, Option.map_some] at made
  obtain ⟨-, rfl⟩ := Prod.mk.inj (Option.some.inj made)
  refine ⟨_, pushed, represents.gains grows rfl ?_ ?_ ?_ ?_ ?_ ?_⟩
  · rw [entry?_append, if_pos rfl, List.size_toArray, appended]
  · intro other apart
    rw [entry?_append, if_neg apart]
  · exact represents.listed_append ..
  · intro children fresh
    cases fresh
  · intro children fresh
    cases fresh
  · intro other apart _
    rw [list?_append, if_neg apart]

theorem Represents.gains_block (represents : tree.Represents (fill frames shape)) (name : String)
    (value? : Option String) :
    ∃ grown, tree.pushBlock? (focus frames) name value? =
        some (tree.nextEntry, tree.nextList, grown) ∧
      tree.Gains (focus frames) ⟨shape.top.toArray, Shape.owner? frames⟩ tree.nextEntry
        (appended frames shape name value? (some tree.nextList)) grown := by
  obtain ⟨grown, pushed, grows⟩ := represents.pushBlock name value?
  have made := pushed
  rw [pushBlock?, represents.listed, Option.map_some] at made
  obtain ⟨-, made⟩ := Prod.mk.inj (Option.some.inj made)
  obtain ⟨-, rfl⟩ := Prod.mk.inj made
  have focusOld : focus frames ≠ tree.nextList := by
    intro same
    have dead := tree.nextList_dead
    rw [← same, represents.listed] at dead
    cases dead
  refine ⟨_, pushed, represents.gains grows rfl ?_ ?_ ?_ ?_ ?_ ?_⟩
  · exact (entry?_append ..).trans (by rw [if_pos rfl, List.size_toArray, appended])
  · exact fun other apart => (entry?_append ..).trans (if_neg apart)
  · rw [list?_addList, nextList_append, if_neg focusOld, represents.listed_append]
  · exact fun children owns => (Option.some.inj owns).symm
  · intro children owns
    rw [list?_addList, nextList_append, if_pos (Option.some.inj owns).symm]
  · intro other apart old
    have old : other ≠ tree.nextList := fun same => old (congrArg some same.symm)
    rw [list?_addList, nextList_append, if_neg old, list?_append, if_neg apart]

/-- A leaf or a block that is appended to a live list of a reachable tree comes behind everything
below that list, under numbers that were never live, and moves nothing else. -/
theorem push_gains (reachable : tree.Reachable) (listed : tree.list? list = some siblings)
    (name value : String) (value? : Option String) :
    (∃ id grown, tree.pushLeaf? list name value = some (id, grown) ∧
      tree.Gains list siblings id ⟨name, some value, none, list, siblings.entries.size⟩ grown) ∧
    ∃ id children grown, tree.pushBlock? list name value? = some (id, children, grown) ∧
      tree.Gains list siblings id ⟨name, value?, some children, list, siblings.entries.size⟩
        grown := by
  obtain ⟨shape, represents⟩ := reachable.represents
  obtain ⟨frames, below, rfl, rfl⟩ := represents.exists_fill listed
  obtain rfl := Option.some.inj (represents.listed.symm.trans listed)
  obtain ⟨leafed, pushedLeaf, gainsLeaf⟩ := represents.gains_leaf name value
  obtain ⟨blocked, pushedBlock, gainsBlock⟩ := represents.gains_block name value?
  rw [List.size_toArray]
  exact ⟨⟨_, leafed, pushedLeaf, gainsLeaf⟩, _, _, blocked, pushedBlock, gainsBlock⟩

/-- A leaf appended in front of an entry that a search is still to find. -/
theorem push_gains_nested :
    let tree := ((((empty.change (.pushBlock root "a" none)).change
      (.pushLeaf ⟨1⟩ "a" "1")).change (.pushBlock ⟨1⟩ "b" (some "x"))).change
      (.pushLeaf ⟨2⟩ "A" "2")).change (.pushLeaf root "a" "3")
    let query : Query := { name := "a", recursive := true }
    tree.Reachable ∧ tree.list? ⟨1⟩ = some ⟨#[⟨1⟩, ⟨2⟩], some ⟨0⟩⟩ ∧
      tree.preorder root = [⟨0⟩, ⟨1⟩, ⟨2⟩, ⟨3⟩, ⟨4⟩] ∧
      ∃ id grown, tree.pushLeaf? ⟨1⟩ "a" "4" = some (id, grown) ∧ tree.entry? id = none ∧
        grown.list? ⟨1⟩ = some ⟨#[⟨1⟩, ⟨2⟩, id], some ⟨0⟩⟩ ∧
        (∃ front back, tree.preorder root = front ++ back ∧
          grown.preorder root = front ++ id :: back ∧ front.getLast? = some ⟨3⟩) ∧
        ∃ found, Yields (grown.findNext? root query) (some ⟨1⟩) found ∧
          found.filter (· ≠ id) = [⟨3⟩, ⟨4⟩] := by
  intro tree query
  have reachable : tree.Reachable :=
    .changed (.changed (.changed (.changed (.changed .empty _) _) _) _) _
  have listed : tree.list? ⟨1⟩ = some ⟨#[⟨1⟩, ⟨2⟩], some ⟨0⟩⟩ := by
    subst tree
    cbv
  have order : tree.preorder root = [⟨0⟩, ⟨1⟩, ⟨2⟩, ⟨3⟩, ⟨4⟩] := by
    subst tree
    cbv
  have inside : tree.preorder ⟨1⟩ = [⟨1⟩, ⟨2⟩, ⟨3⟩] := by
    subst tree
    cbv
  have fitting : [⟨2⟩, ⟨3⟩, ⟨4⟩].filter (tree.fits query) = [⟨3⟩, ⟨4⟩] := by
    subst tree query
    cbv
  obtain ⟨⟨id, grown, pushed, gains⟩, -⟩ := push_gains reachable listed "a" "4" none
  obtain ⟨front, back, old, new, last, -⟩ := gains.inserted
  obtain ⟨found, yields, -, same⟩ := gains.resumed root query [⟨0⟩] ⟨1⟩ _ order
  rw [inside] at last
  rw [fitting] at same
  exact ⟨reachable, listed, order, id, grown, pushed, (gains.fresh tree [] rfl).1, gains.listed,
    ⟨front, back, old, new, last⟩, found, yields, same⟩

end ServiceConfig.Tree
