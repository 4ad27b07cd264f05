import ServiceConfig.Proofs.Tree.WellFormed
import ServiceConfig.Tree.Search

/-! # Searches as filters of the document order

A search finds its way by the links of the tree alone, and yet it goes through everything below its
list in document order. Each step is one place further in that order, since an entry that ends its
list is followed by whatever follows the block around it. So the matches are the order filtered by
the query, and a search resumed at an entry goes on with what stands after it.
-/

namespace ServiceConfig.Tree

open Shape

variable {tree : Tree} {frames : List Frame} {shape : Shape} {list : ListId}
  {siblings : Siblings} {position : Nat} {id : EntryId} {entry : Entry}

/-- Everything below a list in document order. -/
def preorder (tree : Tree) (list : ListId) : List EntryId := (tree.rows list).map Row.id

/-- What a search below a list goes through. -/
def scope (tree : Tree) (list : ListId) (deep : Bool) : List EntryId :=
  if deep then tree.preorder list else (tree.list? list).elim [] (·.entries.toList)

/-- Whether an entry is one that the query asks for. -/
def fits (tree : Tree) (query : Query) (id : EntryId) : Bool :=
  (tree.entry? id).any query.matchesEntry

theorem Lists.preorder {owner? : Option EntryId} (lists : tree.Lists list owner? shape) :
    tree.preorder list = shape.ids := by
  rw [Tree.preorder, rows, lists.rowsFrom, rows_ids]

private theorem preorder_stale (stale : tree.list? list = none) : tree.preorder list = [] := by
  rw [preorder, rows, rowsFrom, stale, List.map_nil]

theorem Lists.scope {owner? : Option EntryId} (lists : tree.Lists list owner? shape)
    (deep : Bool) : tree.scope list deep = if deep then shape.ids else shape.top := by
  rw [Tree.scope, lists.preorder, lists.listed, Option.elim_some]

theorem scope_stale (stale : tree.list? list = none) (deep : Bool) : tree.scope list deep = [] := by
  rw [scope, preorder_stale stale, stale, Option.elim_none, ite_self]

theorem Holds.ids_eq {owner? : Option EntryId} (holds : tree.Holds list owner? position shape) :
    shape.top.flatMap (fun id =>
      id :: ((tree.entry? id).bind (·.children?)).elim [] tree.preorder) = shape.ids := by
  induction holds with
  | nil => rfl
  | leaf placed childless _ _ ih =>
    simp only [top, List.flatMap_cons, placed.live, Option.bind_some, childless, Option.elim_none,
      ih, ids, List.singleton_append]
  | block placed owns _ listed inside _ _ ih =>
    have lists : tree.Lists _ _ _ := ⟨listed, inside⟩
    simp only [top, List.flatMap_cons, placed.live, Option.bind_some, owns, Option.elim_some,
      lists.preorder, ih, ids, List.cons_append]

/-- Document order: an entry, what is below it, its next sibling. -/
theorem Represents.preorder_eq (represents : tree.Represents shape) (list : ListId) :
    tree.preorder list = (tree.list? list).elim [] fun siblings =>
      siblings.entries.toList.flatMap fun id =>
        id :: ((tree.entry? id).bind (·.children?)).elim [] tree.preorder := by
  cases listed : tree.list? list with
  | none => rw [preorder_stale listed, Option.elim_none]
  | some siblings =>
    obtain ⟨_, below, lists, -⟩ := represents.opened listed
    obtain rfl := Option.some.inj (lists.listed.symm.trans listed)
    rw [lists.preorder, Option.elim_some, lists.holds.ids_eq]

theorem following?_sibling {owner? : Option EntryId} {sibling : EntryId}
    (placed : tree.Placed list owner? position id entry)
    (listed : tree.list? list = some siblings)
    (next : siblings.entries[position + 1]? = some sibling) (scope : ListId) (deep : Bool) :
    tree.following? scope deep id = some sibling := by
  unfold following?
  simp only [placed.live, placed.parent, listed, placed.position, Option.bind_some, next]

/-- A search does not leave the list that it started from. -/
theorem following?_end {owner? : Option EntryId}
    (placed : tree.Placed list owner? position id entry)
    (listed : tree.list? list = some siblings) (last : siblings.entries[position + 1]? = none)
    (deep : Bool) : tree.following? list deep id = none := by
  unfold following?
  simp [placed.live, placed.parent, listed, placed.position, last]

private theorem following?_shallow {owner? : Option EntryId}
    (placed : tree.Placed list owner? position id entry) (listed : tree.list? list = some siblings)
    (scope : ListId) :
    tree.following? scope false id = siblings.entries[position + 1]? := by
  cases next : siblings.entries[position + 1]? with
  | some sibling => exact following?_sibling placed listed next scope false
  | none =>
    unfold following?
    simp [placed.live, placed.parent, listed, placed.position, next]

private theorem owner?_placed {owner : EntryId}
    (placed : tree.Placed list (some owner) position id entry)
    {entries : Array EntryId} (listed : tree.list? list = some ⟨entries, some owner⟩) :
    tree.owner? id entry = some ⟨owner, placed.younger owner rfl⟩ := by
  unfold Tree.owner?
  simp [placed.parent, listed, placed.younger owner rfl]

/-- The owner of an entry's list by the links alone: it is older than the entry, so that the numbers
never hide it. -/
theorem Represents.owner?_eq (represents : tree.Represents shape)
    (live : tree.entry? id = some entry) :
    (tree.owner? id entry).map Subtype.val = (tree.list? entry.parent).bind (·.owner?) := by
  obtain ⟨siblings, listed, found⟩ := represents.parent_listed live
  obtain ⟨owner?, below, lists, -⟩ := represents.opened listed
  have standing : below.top[entry.position]? = some id := by
    obtain rfl := Option.some.inj (listed.symm.trans lists.listed)
    rwa [List.getElem?_toArray] at found
  obtain ⟨other, placed, -, -⟩ := lists.holds.at standing
  obtain rfl := Option.some.inj (live.symm.trans placed.live)
  cases owner? with
  | none =>
    rw [owner?, lists.listed]
    rfl
  | some owner =>
    rw [lists.listed]
    have owned : tree.Placed entry.parent (some owner) (0 + entry.position) id entry := placed
    rw [owner?_placed owned lists.listed]
    rfl

/-- The last entry of an inner list is followed by what follows the block around it. -/
theorem following?_climb {owner : EntryId} {entries : Array EntryId}
    (placed : tree.Placed list (some owner) position id entry)
    (listed : tree.list? list = some ⟨entries, some owner⟩)
    (last : entries[position + 1]? = none) {scope : ListId} (inner : list ≠ scope) :
    tree.following? scope true id = tree.following? scope true owner := by
  have owned := owner?_placed placed listed
  rw [following?]
  simp [placed.live, placed.parent, listed, placed.position, last, inner, owned]

/-- An entry with the shape `rest` after it is followed by the first entry there, and else by what
follows the list. -/
theorem Placed.following? {owner? : Option EntryId} {entries : Array EntryId} {rest : Shape}
    {scope : ListId} {outer : Option EntryId}
    (placed : tree.Placed list owner? position id entry)
    (listed : tree.list? list = some ⟨entries, owner?⟩)
    (ahead : ∀ offset, entries[position + 1 + offset]? = rest.top[offset]?)
    (last : entries[position + 1]? = none → tree.following? scope true id = outer) :
    tree.following? scope true id = rest.ids.head?.or outer := by
  rw [head?_ids, List.head?_eq_getElem?, ← ahead 0, Nat.add_zero]
  cases next : entries[position + 1]? with
  | none => rw [Option.none_or, last next]
  | some sibling => rw [Option.some_or, following?_sibling placed listed next]

private theorem append_eq_append_cons {α : Type} {front back before after : List α} {item : α}
    (same : front ++ back = before ++ item :: after) :
    (∃ middle, front = before ++ item :: middle ∧ after = middle ++ back) ∨
      ∃ middle, before = front ++ middle ∧ back = middle ++ item :: after := by
  rcases List.append_eq_append_iff.mp same with ⟨middle, rfl, rest⟩ | ⟨middle, rfl, rest⟩
  · exact .inr ⟨middle, rfl, rest⟩
  · cases middle with
    | nil => exact .inr ⟨[], by simp, rest.symm⟩
    | cons first middle =>
      obtain ⟨rfl, rfl⟩ := List.cons.inj rest
      exact .inl ⟨middle, rfl, rfl⟩

/-- The successor of an entry is the next one in document order; after the last one of a list it is
whatever follows the list. -/
theorem Holds.successor? {owner? : Option EntryId} {entries : Array EntryId} {scope : ListId}
    {outer : Option EntryId} (holds : tree.Holds list owner? position shape)
    (listed : tree.list? list = some ⟨entries, owner?⟩)
    (ahead : ∀ offset, entries[position + offset]? = shape.top[offset]?)
    (inScope : scope.number ≤ list.number)
    (last : ∀ {position id entry}, tree.Placed list owner? position id entry →
      entries[position + 1]? = none → tree.following? scope true id = outer)
    {before after : List EntryId} (split : shape.ids = before ++ id :: after) :
    tree.successor? scope true id = after.head?.or outer := by
  induction holds generalizing entries outer before id after with
  | nil => simp [ids] at split
  | @leaf list owner? position first entry rest placed childless _ later ih =>
    have ahead' : ∀ offset, entries[position + 1 + offset]? = rest.top[offset]? := by
      intro offset
      rw [Nat.add_assoc, Nat.add_comm 1, ahead, top, List.getElem?_cons_succ]
    cases before with
    | nil =>
      obtain ⟨rfl, rfl⟩ := List.cons.inj split
      rw [← placed.following? listed ahead' (last placed)]
      simp [Tree.successor?, placed.live, childless]
    | cons _ before => exact ih listed ahead' inScope last (List.cons.inj split).2
  | @block list owner? position first entry children below rest placed owns newer listedBelow inside
      later ihInside ih =>
    have ahead' : ∀ offset, entries[position + 1 + offset]? = rest.top[offset]? := by
      intro offset
      rw [Nat.add_assoc, Nat.add_comm 1, ahead, top, List.getElem?_cons_succ]
    have follow := placed.following? listed ahead' (last placed)
    cases before with
    | nil =>
      obtain ⟨rfl, rfl⟩ := List.cons.inj split
      rw [List.head?_append, Option.or_assoc, ← follow, head?_ids, List.head?_eq_getElem?]
      simp [Tree.successor?, placed.live, owns, firstOf?, listedBelow]
    | cons _ before =>
      obtain ⟨middle, parted, rfl⟩ | ⟨middle, -, parted⟩ :=
        append_eq_append_cons (List.cons.inj split).2
      · rw [List.head?_append, Option.or_assoc, ← follow]
        refine ihInside listedBelow ?_ ?_ ?_ parted
        · intro offset
          rw [Nat.zero_add, List.getElem?_toArray]
        · omega
        · intro position id entry placed ends
          apply following?_climb placed listedBelow ends
          intro same
          rw [same] at newer
          omega
      · exact ih listed ahead' inScope last parted

theorem Lists.successor? {owner? : Option EntryId} (lists : tree.Lists list owner? shape)
    {before after : List EntryId} (split : shape.ids = before ++ id :: after) :
    tree.successor? list true id = after.head? := by
  have ended : after.head?.or none = after.head? := Option.or_none
  rw [← ended]
  refine lists.holds.successor? lists.listed ?_ (Nat.le_refl _) ?_ split
  · intro offset
    rw [Nat.zero_add, List.getElem?_toArray]
  · exact fun placed last => following?_end placed lists.listed last true

theorem Lists.successor?_shallow {owner? : Option EntryId} (lists : tree.Lists list owner? shape)
    {before after : List EntryId} (split : shape.top = before ++ id :: after) :
    tree.successor? list false id = after.head? := by
  have found : shape.top[before.length]? = some id := by simp [split]
  obtain ⟨entry, placed, _⟩ := lists.holds.at found
  rw [Nat.zero_add] at placed
  have next := following?_shallow placed lists.listed list
  rw [List.getElem?_toArray, split, List.getElem?_append_right (Nat.le_add_right _ 1),
    Nat.add_sub_cancel_left, List.getElem?_cons_succ, ← List.head?_eq_getElem?] at next
  simpa [Tree.successor?] using next

/-- What stands in the list of a block of a shape stands in the shape. -/
theorem Holds.below_mem {owner? : Option EntryId} (holds : tree.Holds list owner? position shape)
    {owner : EntryId} {children : ListId} (member : owner ∈ shape.ids)
    (live : tree.entry? owner = some entry) (owns : entry.children? = some children)
    (listed : tree.list? children = some siblings) (inside : id ∈ siblings.entries.toList) :
    id ∈ shape.ids := by
  induction holds with
  | nil => cases member
  | leaf placed childless _ _ ih =>
    rcases List.mem_cons.mp member with rfl | member
    · obtain rfl := Option.some.inj (placed.live.symm.trans live)
      rw [childless] at owns
      cases owns
    · exact List.mem_cons_of_mem _ (ih member)
  | block placed ownsBelow _ listedBelow _ _ ihInside ihLater =>
    refine List.mem_cons_of_mem _ (List.mem_append.mpr ?_)
    rcases List.mem_cons.mp member with rfl | member
    · obtain rfl := Option.some.inj (placed.live.symm.trans live)
      obtain rfl := Option.some.inj (ownsBelow.symm.trans owns)
      obtain rfl := Option.some.inj (listedBelow.symm.trans listed)
      exact .inl ((top_sublist_ids _).subset inside)
    · exact (List.mem_append.mp member).imp ihInside ihLater

/-- The climb from an entry below a list leads to the list. -/
theorem Holds.isWithin {owner? : Option EntryId} {entries : Array EntryId} {scope : ListId}
    (holds : tree.Holds list owner? position shape)
    (listed : tree.list? list = some ⟨entries, owner?⟩)
    (arrives : ∀ {position id entry}, tree.Placed list owner? position id entry →
      tree.isWithin scope true id = true) :
    ∀ id ∈ shape.ids, tree.isWithin scope true id = true := by
  induction holds generalizing entries with
  | nil => simp [ids]
  | leaf placed _ _ _ ih =>
    intro id member
    rcases List.mem_cons.mp member with rfl | member
    · exact arrives placed
    · exact ih listed arrives id member
  | block placed _ _ listedBelow _ _ ihInside ihLater =>
    intro id member
    rcases List.mem_cons.mp member with rfl | member
    · exact arrives placed
    · rcases List.mem_append.mp member with inside | later
      · refine ihInside listedBelow ?_ id inside
        intro position id entry placedBelow
        have owned := owner?_placed placedBelow listedBelow
        rw [Tree.isWithin]
        simp only [placedBelow.live, owned, arrives placed, ite_self, if_true]
      · exact ihLater listed arrives id later

theorem Represents.mem_preorder (represents : tree.Represents shape)
    (listed : tree.list? list = some siblings) (standing : id ∈ siblings.entries.toList) :
    id ∈ tree.preorder list := by
  obtain ⟨_, below, lists, -⟩ := represents.opened listed
  obtain rfl := Option.some.inj (lists.listed.symm.trans listed)
  rw [lists.preorder]
  exact below.top_sublist_ids.subset standing

theorem Represents.mem_preorder_below (represents : tree.Represents shape) {owner : EntryId}
    {children : ListId} (member : owner ∈ tree.preorder list)
    (live : tree.entry? owner = some entry) (owns : entry.children? = some children)
    (listed : tree.list? children = some siblings) (inside : id ∈ siblings.entries.toList) :
    id ∈ tree.preorder list := by
  cases around : tree.list? list with
  | none =>
    rw [preorder_stale around] at member
    cases member
  | some _ =>
    obtain ⟨_, below, lists, -⟩ := represents.opened around
    rw [lists.preorder] at member ⊢
    exact lists.holds.below_mem member live owns listed inside

theorem owner?_eq_some {owner : EntryId} {older : owner.number < id.number}
    (owned : tree.owner? id entry = some ⟨owner, older⟩) :
    (tree.list? entry.parent).bind (·.owner?) = some owner := by
  unfold Tree.owner? at owned
  split at owned
  next => cases owned
  next found =>
    split at owned
    next =>
      obtain rfl := congrArg Subtype.val (Option.some.inj owned)
      exact found
    next => cases owned

/-- An entry stands in a list, or in the children of a block below it. -/
inductive Below (tree : Tree) (list : ListId) : EntryId → Prop
  | standing {id : EntryId} {entry : Entry} (live : tree.entry? id = some entry)
    (parent : entry.parent = list) : Below tree list id
  | inside {owner id : EntryId} {block entry : Entry} (below : Below tree list owner)
    (owned : tree.entry? owner = some block) (live : tree.entry? id = some entry)
    (owns : block.children? = some entry.parent) : Below tree list id

theorem Represents.mem_preorder_of_below (represents : tree.Represents shape)
    (below : tree.Below list id) : id ∈ tree.preorder list := by
  have stands {id : EntryId} {entry : Entry} (live : tree.entry? id = some entry) :
      ∃ siblings, tree.list? entry.parent = some siblings ∧ id ∈ siblings.entries.toList := by
    obtain ⟨siblings, listed, found⟩ := represents.parent_listed live
    exact ⟨siblings, listed, Array.mem_toList_iff.mpr (Array.mem_of_getElem? found)⟩
  induction below with
  | standing live parent =>
    obtain ⟨siblings, listed, standing⟩ := stands live
    exact represents.mem_preorder (parent ▸ listed) standing
  | inside _ owned live owns ih =>
    obtain ⟨siblings, listed, standing⟩ := stands live
    exact represents.mem_preorder_below ih owned owns listed standing

/-- A climb that leads to the list starts from below it. -/
theorem Represents.below_of_isWithin (represents : tree.Represents shape)
    (within : tree.isWithin list true id = true) : tree.Below list id := by
  induction number : id.number using Nat.strong_induction_on generalizing id with
  | _ number ih =>
    rw [isWithin] at within
    split at within
    next => cases within
    next entry live =>
      split at within
      next parent => exact .standing live parent
      next =>
        rw [if_pos rfl] at within
        split at within
        next => cases within
        next owner older owned =>
          have below := ih owner.number (number ▸ older) within rfl
          obtain ⟨siblings, listed, ownedBy⟩ := Option.bind_eq_some_iff.mp (owner?_eq_some owned)
          obtain ⟨block, ownerLive, owns⟩ := represents.owner_owns listed ownedBy
          exact .inside below ownerLive live owns

theorem Represents.isWithin_deep (represents : tree.Represents shape) (list : ListId)
    (id : EntryId) : tree.isWithin list true id = true ↔ id ∈ tree.preorder list := by
  constructor
  · exact fun within => represents.mem_preorder_of_below (represents.below_of_isWithin within)
  · intro member
    cases listed : tree.list? list with
    | none =>
      rw [preorder_stale listed] at member
      cases member
    | some siblings =>
      obtain ⟨_, below, lists, -⟩ := represents.opened listed
      rw [lists.preorder] at member
      apply lists.holds.isWithin lists.listed _ id member
      intro _ _ _ placed
      rw [isWithin]
      simp only [placed.live, placed.parent, if_true]

theorem Represents.mem_preorder_iff (represents : tree.Represents shape) (list : ListId)
    (id : EntryId) : id ∈ tree.preorder list ↔ tree.Below list id := by
  constructor
  · exact fun member => represents.below_of_isWithin ((represents.isWithin_deep list id).mpr member)
  · exact represents.mem_preorder_of_below

theorem Represents.isWithin_shallow (represents : tree.Represents shape) (list : ListId)
    (id : EntryId) : tree.isWithin list false id = true ↔
      ∃ siblings, tree.list? list = some siblings ∧ id ∈ siblings.entries.toList := by
  rw [isWithin]
  constructor
  · intro within
    split at within
    next => cases within
    next entry live =>
      obtain ⟨siblings, listed, found⟩ := represents.parent_listed live
      split at within
      next parent =>
        refine ⟨siblings, parent ▸ listed, ?_⟩
        exact Array.mem_toList_iff.mpr (Array.mem_of_getElem? found)
      next => cases within
  · rintro ⟨siblings, listed, member⟩
    obtain ⟨position, found⟩ := List.getElem?_of_mem member
    rw [Array.getElem?_toList] at found
    obtain ⟨entry, live, parent, -⟩ := (represents.occurs_iff listed).mp found
    simp only [live, parent, if_true]

/-- The test by which a search decides whether it can be resumed at an entry. -/
theorem Represents.isWithin_iff (represents : tree.Represents shape) (list : ListId) (deep : Bool)
    (id : EntryId) : tree.isWithin list deep id = true ↔ id ∈ tree.scope list deep := by
  cases deep with
  | true => rw [represents.isWithin_deep, scope, if_pos rfl]
  | false =>
    rw [represents.isWithin_shallow, scope, if_neg Bool.false_ne_true]
    cases tree.list? list with
    | none => simp
    | some siblings => simp

theorem Represents.scope_nodup (represents : tree.Represents shape) (list : ListId) (deep : Bool) :
    (tree.scope list deep).Nodup := by
  cases listed : tree.list? list with
  | none => exact scope_stale listed deep ▸ List.nodup_nil
  | some siblings =>
    obtain ⟨_, below, lists, nodup⟩ := represents.opened listed
    rw [lists.scope]
    split
    · exact nodup
    · exact nodup.sublist below.top_sublist_ids

theorem Represents.scope_live (represents : tree.Represents shape) {deep : Bool}
    (member : id ∈ tree.scope list deep) : (tree.entry? id).isSome := by
  cases listed : tree.list? list with
  | none =>
    rw [scope_stale listed] at member
    cases member
  | some siblings =>
    obtain ⟨_, below, lists, -⟩ := represents.opened listed
    rw [lists.scope] at member
    split at member
    · exact lists.holds.live id member
    · exact lists.holds.live id (below.top_sublist_ids.subset member)

theorem Represents.firstOf?_eq (represents : tree.Represents shape) (list : ListId) (deep : Bool) :
    tree.firstOf? list = (tree.scope list deep).head? := by
  cases listed : tree.list? list with
  | none => rw [firstOf?, listed, scope_stale listed, Option.bind_none, List.head?_nil]
  | some siblings =>
    obtain ⟨_, below, lists, -⟩ := represents.opened listed
    rw [firstOf?, lists.listed, lists.scope, Option.bind_some, List.getElem?_toArray,
      ← List.head?_eq_getElem?]
    split
    · rw [head?_ids]
    · rfl

theorem Represents.successor?_eq (represents : tree.Represents shape) {deep : Bool}
    {before after : List EntryId} (split : tree.scope list deep = before ++ id :: after) :
    tree.successor? list deep id = after.head? := by
  cases listed : tree.list? list with
  | none =>
    rw [scope_stale listed] at split
    simp at split
  | some siblings =>
    obtain ⟨_, below, lists, -⟩ := represents.opened listed
    rw [lists.scope] at split
    cases deep with
    | true => exact lists.successor? split
    | false => exact lists.successor?_shallow split

/-- A search from the first entry of a rest of the order finds the first match in that rest. -/
theorem Represents.search_eq (represents : tree.Represents shape) (query : Query)
    (before after : List EntryId) (split : tree.scope list query.recursive = before ++ after)
    {steps : Nat} (enough : after.length ≤ steps) :
    after.head?.bind (tree.search list query steps) = (after.filter (tree.fits query)).head? := by
  induction after generalizing before steps with
  | nil => rfl
  | cons id after ih =>
    obtain ⟨steps, rfl⟩ : ∃ fewer, steps = fewer + 1 := ⟨steps - 1, by simp at enough; omega⟩
    obtain ⟨entry, live⟩ : ∃ entry, tree.entry? id = some entry := by
      rw [← Option.isSome_iff_exists]
      exact represents.scope_live (split ▸ List.mem_append_right _ (List.mem_cons_self ..))
    have rest := ih (before ++ [id]) (by simpa using split) (Nat.le_of_succ_le_succ enough)
    simp only [List.head?_cons, Option.bind_some, search, live, represents.successor?_eq split,
      rest]
    by_cases matched : query.matchesEntry entry = true
    · rw [if_pos matched, List.filter_cons_of_pos (by simpa [fits, live] using matched),
        List.head?_cons]
    · rw [if_neg matched, List.filter_cons_of_neg (by simpa [fits, live] using matched)]

theorem Represents.scope_length_le (represents : tree.Represents shape) (list : ListId)
    (deep : Bool) : (tree.scope list deep).length ≤ tree.entries.next := by
  have nodup : ((tree.scope list deep).map EntryId.number).Nodup :=
    (represents.scope_nodup list deep).map fun one other same => congrArg EntryId.mk same
  rw [← List.length_map EntryId.number]
  apply Arena.length_le_next nodup
  intro number member
  obtain ⟨id, inside, rfl⟩ := List.mem_map.mp member
  exact represents.scope_live inside

theorem Represents.findNext?_first (represents : tree.Represents shape) (list : ListId)
    (query : Query) :
    tree.findNext? list query none =
      ((tree.scope list query.recursive).filter (tree.fits query)).head? := by
  have found := represents.search_eq query [] _ (List.nil_append _).symm
    (represents.scope_length_le list query.recursive)
  rw [← found, ← represents.firstOf?_eq]
  rfl

theorem Represents.findNext?_after (represents : tree.Represents shape) (query : Query)
    {before after : List EntryId}
    (split : tree.scope list query.recursive = before ++ id :: after) :
    tree.findNext? list query (some id) = (after.filter (tree.fits query)).head? := by
  have within : tree.isWithin list query.recursive id = true :=
    (represents.isWithin_iff list query.recursive id).mpr (by simp [split])
  have bound := represents.scope_length_le list query.recursive
  rw [split, List.length_append, List.length_cons] at bound
  have enough : after.length ≤ tree.entries.next := by omega
  have found := represents.search_eq query (before ++ [id]) after (by simpa using split) enough
  simp only [findNext?, within, if_true, represents.successor?_eq split, found]

theorem Represents.findNext?_outside (represents : tree.Represents shape) (query : Query)
    (outside : id ∉ tree.scope list query.recursive) :
    tree.findNext? list query (some id) = none := by
  have apart := mt (represents.isWithin_iff list query.recursive id).mp outside
  simp only [findNext?, apart, Bool.false_eq_true, if_false, Option.bind_none]

/-- Called on its own results from `previous?` on, a function gives these items and then nothing. -/
inductive Yields {α : Type} (next? : Option α → Option α) : Option α → List α → Prop
  | done {previous? : Option α} (ended : next? previous? = none) : Yields next? previous? []
  | next {previous? : Option α} {item : α} {items : List α} (found : next? previous? = some item)
    (later : Yields next? (some item) items) : Yields next? previous? (item :: items)

theorem Yields.enumerate {α : Type} {next? : Option α → Option α} {previous? : Option α}
    {items : List α} (yields : Yields next? previous? items) {steps : Nat}
    (enough : items.length ≤ steps) : enumerate next? steps previous? = items := by
  induction yields generalizing steps with
  | done ended =>
    cases steps with
    | zero => rfl
    | succ steps => simp only [Tree.enumerate, ended]
  | next found _ ih =>
    obtain ⟨steps, rfl⟩ : ∃ fewer, steps = fewer + 1 := ⟨steps - 1, by simp at enough; omega⟩
    simp only [Tree.enumerate, found, ih (Nat.le_of_succ_le_succ enough)]

/-- A function that goes from each item of a list to the next one gives the list. -/
theorem yields_of_steps {α : Type} {next? : Option α → Option α} {previous? : Option α}
    {items : List α} (first : next? previous? = items.head?)
    (step : ∀ before item after, items = before ++ item :: after →
      next? (some item) = after.head?) : Yields next? previous? items := by
  induction items generalizing previous? with
  | nil => exact .done first
  | cons item items ih =>
    refine .next first (ih (step [] item items rfl) ?_)
    intro before other after split
    exact step (item :: before) other after (congrArg (item :: ·) split)

/-- What stands after a match is, filtered, what stands after it among the matches. -/
theorem filter_eq_append_cons {α : Type} {test : α → Bool} {items before after : List α}
    {item : α} (split : items.filter test = before ++ item :: after) :
    ∃ front back, items = front ++ item :: back ∧ back.filter test = after := by
  obtain ⟨front, back, rfl, -, rest⟩ := List.filter_eq_append_iff.mp split
  obtain ⟨middle, back, rfl, -, -, rfl⟩ := List.filter_eq_cons_iff.mp rest
  exact ⟨front ++ middle, back, by simp, rfl⟩

/-- A search that has come to a rest of the order goes on with the matches in it. -/
theorem Represents.yields_rest (represents : tree.Represents shape) (query : Query)
    {before after : List EntryId} {previous? : Option EntryId}
    (split : tree.scope list query.recursive = before ++ after)
    (first : tree.findNext? list query previous? = (after.filter (tree.fits query)).head?) :
    Yields (tree.findNext? list query) previous? (after.filter (tree.fits query)) := by
  refine yields_of_steps first ?_
  intro found id later parted
  obtain ⟨front, back, rfl, rfl⟩ := filter_eq_append_cons parted
  rw [← List.append_assoc] at split
  exact represents.findNext?_after query split

theorem Represents.yields_matches (represents : tree.Represents shape) (list : ListId)
    (query : Query) :
    Yields (tree.findNext? list query) none
      ((tree.scope list query.recursive).filter (tree.fits query)) :=
  represents.yields_rest query (List.nil_append _).symm (represents.findNext?_first list query)

theorem Represents.yields_after (represents : tree.Represents shape) (query : Query)
    {before after : List EntryId}
    (split : tree.scope list query.recursive = before ++ id :: after) :
    Yields (tree.findNext? list query) (some id) (after.filter (tree.fits query)) := by
  have behind : tree.scope list query.recursive = before ++ [id] ++ after := by simpa using split
  exact represents.yields_rest query behind (represents.findNext?_after query split)

theorem Represents.matching_eq (represents : tree.Represents shape) (list : ListId)
    (query : Query) :
    tree.matching list query =
      (tree.scope list query.recursive).filter (tree.fits query) := by
  apply (represents.yields_matches list query).enumerate
  exact (List.length_filter_le ..).trans (represents.scope_length_le list query.recursive)

/-- Searches of a reachable tree are filters of the document order: enumerating the matches gives
all of them, and resuming at an entry finds the first match after it, if it is in scope. -/
theorem search_filters_preorder (reachable : tree.Reachable) (list : ListId) (query : Query) :
    let order := tree.scope list query.recursive
    (∀ list, tree.preorder list = (tree.list? list).elim [] fun siblings =>
      siblings.entries.toList.flatMap fun id =>
        id :: ((tree.entry? id).bind (·.children?)).elim [] tree.preorder) ∧
    order.Nodup ∧
    tree.matching list query = order.filter (tree.fits query) ∧
    tree.findNext? list query none = (order.filter (tree.fits query)).head? ∧
    (∀ before previous after, order = before ++ previous :: after →
      tree.findNext? list query (some previous) = (after.filter (tree.fits query)).head?) ∧
    ∀ previous, previous ∉ order → tree.findNext? list query (some previous) = none := by
  obtain ⟨shape, represents⟩ := reachable.represents
  exact ⟨represents.preorder_eq, represents.scope_nodup list query.recursive,
    represents.matching_eq list query, represents.findNext?_first list query,
    fun _ _ _ split => represents.findNext?_after query split,
    fun _ outside => represents.findNext?_outside query outside⟩

/-- A match in a block comes before one that stands after the block. -/
theorem search_filters_preorder_nested :
    let tree := ((empty.change (.pushBlock root "service" (some "a"))).change
      (.pushLeaf ⟨1⟩ "port" "80")).change (.pushLeaf root "port" "81")
    let query : Query := { name := "PORT", recursive := true }
    tree.Reachable ∧ tree.scope root true = [⟨0⟩, ⟨1⟩, ⟨2⟩] ∧
      tree.matching root query = [⟨1⟩, ⟨2⟩] ∧ tree.findNext? root query (some ⟨1⟩) = some ⟨2⟩ := by
  intro tree query
  have reachable : tree.Reachable := .changed (.changed (.changed .empty _) _) _
  have order : tree.scope root true = [⟨0⟩, ⟨1⟩, ⟨2⟩] := by
    subst tree
    cbv
  have fitting : [⟨0⟩, ⟨1⟩, ⟨2⟩].map (tree.fits query) = [false, true, true] := by
    subst tree query
    cbv
  simp only [List.map_cons, List.cons.injEq] at fitting
  obtain ⟨first, second, third, -⟩ := fitting
  obtain ⟨_, _, all, _, resumed, _⟩ := search_filters_preorder reachable root query
  refine ⟨reachable, order, ?_, ?_⟩
  · rw [all, show tree.scope root query.recursive = [⟨0⟩, ⟨1⟩, ⟨2⟩] from order]
    simp [first, second, third]
  · rw [resumed [⟨0⟩] ⟨1⟩ [⟨2⟩] order]
    simp [third]

end ServiceConfig.Tree
