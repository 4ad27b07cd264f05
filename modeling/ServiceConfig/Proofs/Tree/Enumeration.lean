import Mathlib.Data.List.Forall2
import ServiceConfig.Proofs.Tree.Search

/-! # Enumerating leaves and blocks

A search for leaves only or for blocks only is a search of entries whose results are shown
otherwise: a leaf with its value, a block by the list it owns. Each result leads back to the entry
it was shown for, so the enumeration goes on where the search of entries would have gone on. Entries
of the other kind are passed over, wherever they stand.
-/

namespace ServiceConfig.Tree

open Shape

variable {tree : Tree} {shape : Shape} {list : ListId} {query : Query} {kind : Kind}
  {id : EntryId} {entry : Entry}

/-- Whether an entry is of a kind and, apart from that, one that the query asks for. -/
def asks (tree : Tree) (query : Query) (kind : Kind) (id : EntryId) : Bool :=
  (tree.entry? id).any fun entry =>
    { query with kind? := none }.matchesEntry entry && entry.kind = kind

theorem fits_ofKind (tree : Tree) (query : Query) (kind : Kind) :
    tree.fits (query.ofKind kind) = tree.asks query kind := by
  have moved (named kinds valued : Bool) :
      (named && kinds && valued) = (named && true && valued && kinds) := by
    rw [Bool.and_true, Bool.and_right_comm]
  have same : (query.ofKind kind).matchesEntry = fun entry =>
      { query with kind? := none }.matchesEntry entry && entry.kind = kind := by
    funext entry
    have kinds : decide (kind = entry.kind) = decide (entry.kind = kind) :=
      decide_eq_decide.mpr eq_comm
    rw [← kinds]
    exact moved ..
  funext id
  rw [fits, asks, same]

theorem exists_of_asks (asked : tree.asks query kind id = true) :
    ∃ entry, tree.entry? id = some entry ∧ entry.kind = kind := by
  obtain ⟨entry, live, matched⟩ := (Option.any_eq_true ..).mp asked
  exact ⟨entry, live, of_decide_eq_true (Bool.and_eq_true_iff.mp matched).2⟩

theorem Entry.children?_of_leaf (leaf : entry.kind = .leaf) : entry.children? = none := by
  cases owns : entry.children? with
  | none => rfl
  | some children => simp [Entry.kind, Entry.isBlock, owns] at leaf

theorem Entry.children?_of_block (block : entry.kind = .block) :
    ∃ children, entry.children? = some children := by
  cases owns : entry.children? with
  | none => simp [Entry.kind, Entry.isBlock, owns] at block
  | some children => exact ⟨children, rfl⟩

private theorem fits_of_search {scope : ListId} {steps : Nat} {start : EntryId}
    (found : tree.search scope query steps start = some id) : tree.fits query id = true := by
  induction steps generalizing start with
  | zero => cases found
  | succ steps ih =>
    rw [search] at found
    split at found
    next => cases found
    next entry live =>
      split at found
      next matched =>
        obtain rfl := Option.some.inj found
        simpa [fits, live] using matched
      next =>
        obtain ⟨next, -, found⟩ := Option.bind_eq_some_iff.mp found
        exact ih found

/-- A search finds nothing but matches, wherever it is resumed. -/
theorem fits_of_findNext? {previous? : Option EntryId}
    (found : tree.findNext? list query previous? = some id) : tree.fits query id = true := by
  obtain ⟨start, -, found⟩ := Option.bind_eq_some_iff.mp found
  exact fits_of_search found

/-- A leaf is shown with its value. -/
def ShowsLeaf (tree : Tree) (id : EntryId) (leaf : EntryId × String) : Prop :=
  leaf.1 = id ∧ ∃ entry, tree.entry? id = some entry ∧ entry.value? = some leaf.2

/-- A block is shown by the list it owns. -/
def ShowsBlock (tree : Tree) (id : EntryId) (children : ListId) : Prop :=
  ∃ entry, tree.entry? id = some entry ∧ entry.children? = some children

/-- If each item leads on to what is shown for the next one, the items are enumerated as shown. -/
theorem Yields.exists_shown {α β : Type} {Shows : α → β → Prop} {next? : Option α → Option α}
    {shownNext? : Option β → Option β} {previous? : Option α} {shown? : Option β} {items : List α}
    (yields : Yields next? previous? items) (started : Option.Rel Shows previous? shown?)
    (follows : ∀ {previous? shown?}, Option.Rel Shows previous? shown? →
      Option.Rel Shows (next? previous?) (shownNext? shown?)) :
    ∃ shown, List.Forall₂ Shows items shown ∧ Yields shownNext? shown? shown := by
  induction yields generalizing shown? with
  | done ended =>
    have last := follows started
    rw [ended] at last
    generalize here : shownNext? shown? = result at last
    cases last
    exact ⟨[], .nil, .done here⟩
  | next found _ ih =>
    have step := follows started
    rw [found] at step
    generalize here : shownNext? shown? = result at step
    cases step with
    | @some _ first shows =>
      obtain ⟨shown, same, later⟩ := ih (.some shows)
      exact ⟨first :: shown, .cons shows same, .next here later⟩

theorem Represents.shows_leaf (represents : tree.Represents shape) (list : ListId) (query : Query)
    (previous? : Option EntryId) :
    Option.Rel tree.ShowsLeaf (tree.findNext? list (query.ofKind .leaf) previous?)
      (tree.findLeafNext? list query previous?) := by
  unfold findLeafNext?
  cases found : tree.findNext? list (query.ofKind .leaf) previous? with
  | none => exact .none
  | some id =>
    obtain ⟨entry, live, leaf⟩ := exists_of_asks (fits_ofKind .. ▸ fits_of_findNext? found)
    obtain ⟨value, valued⟩ := Option.isSome_iff_exists.mp
      (represents.wellFormed.leaf_valued live (Entry.children?_of_leaf leaf))
    simp only [Option.bind_eq_bind, Option.bind_some, live, valued]
    exact .some ⟨rfl, entry, live, valued⟩

theorem Represents.shows_block (represents : tree.Represents shape) (list : ListId) (query : Query)
    {previous? : Option EntryId} {shown? : Option ListId}
    (same : Option.Rel tree.ShowsBlock previous? shown?) :
    Option.Rel tree.ShowsBlock (tree.findNext? list (query.ofKind .block) previous?)
      (tree.findListNext? list query shown?) := by
  have shown : tree.findListNext? list query shown? =
      (tree.findNext? list (query.ofKind .block) previous?).bind fun id =>
        (tree.entry? id).bind (·.children?) := by
    cases same with
    | none => rfl
    | @some owner children shows =>
      obtain ⟨entry, live, owns⟩ := shows
      obtain ⟨siblings, listed, owned⟩ := represents.children_owned live owns
      simp only [findListNext?, Option.bind_eq_bind, listed, owned, Option.bind_some,
        Option.pure_def]
  rw [shown]
  cases found : tree.findNext? list (query.ofKind .block) previous? with
  | none => exact .none
  | some id =>
    obtain ⟨entry, live, block⟩ := exists_of_asks (fits_ofKind .. ▸ fits_of_findNext? found)
    obtain ⟨children, owns⟩ := Entry.children?_of_block block
    simp only [Option.bind_some, live, owns]
    exact .some ⟨entry, live, owns⟩

/-- No two blocks own the same list. -/
theorem Represents.showsBlock_unique (represents : tree.Represents shape) {first second : EntryId}
    {children : ListId} (former : tree.ShowsBlock first children)
    (latter : tree.ShowsBlock second children) : first = second := by
  obtain ⟨entry, live, owns⟩ := former
  obtain ⟨other, liveToo, ownsToo⟩ := latter
  obtain ⟨siblings, listed, owned⟩ := represents.children_owned live owns
  obtain ⟨same, listedToo, ownedToo⟩ := represents.children_owned liveToo ownsToo
  obtain rfl := Option.some.inj (listed.symm.trans listedToo)
  exact Option.some.inj (owned.symm.trans ownedToo)

/-- Different items are shown differently, so what is shown is different. -/
private theorem nodup_of_forall₂ {α β : Type} {Shows : α → β → Prop} {items : List α}
    {shown : List β} (same : List.Forall₂ Shows items shown) (nodup : items.Nodup)
    (unique : ∀ first second item, Shows first item → Shows second item → first = second) :
    shown.Nodup := by
  induction same with
  | nil => exact List.nodup_nil
  | @cons item first items shown shows same ih =>
    obtain ⟨apart, nodup⟩ := List.nodup_cons.mp nodup
    refine List.nodup_cons.mpr ⟨fun member => apart ?_, ih nodup⟩
    obtain ⟨other, inside, shownToo⟩ : ∃ other ∈ items, Shows other first := by
      obtain ⟨place, bound, found⟩ := List.getElem_of_mem member
      have inside : place < items.length := same.length_eq ▸ bound
      exact ⟨items[place], List.getElem_mem inside, by simpa [found] using same.get inside bound⟩
    exact unique _ _ _ shows shownToo ▸ inside

/-- How the entries of one kind that a query asks for are enumerated. -/
structure EnumeratesKinds (tree : Tree) (list : ListId) (query : Query) : Prop where
  once : (tree.scope list query.recursive).Nodup
  leaves : ∃ leaves,
    List.Forall₂ tree.ShowsLeaf ((tree.scope list query.recursive).filter (tree.asks query .leaf))
      leaves ∧
    Yields (fun previous? => tree.findLeafNext? list query (previous?.map Prod.fst)) none leaves
  blocks : ∃ lists,
    List.Forall₂ tree.ShowsBlock
      ((tree.scope list query.recursive).filter (tree.asks query .block)) lists ∧
    lists.Nodup ∧ Yields (tree.findListNext? list query) none lists
  leaf_after : ∀ before previous after,
    tree.scope list query.recursive = before ++ previous :: after →
      Option.Rel tree.ShowsLeaf (after.find? (tree.asks query .leaf))
        (tree.findLeafNext? list query (some previous))
  block_after : ∀ before previous after children,
    tree.scope list query.recursive = before ++ previous :: after →
      tree.ShowsBlock previous children →
        Option.Rel tree.ShowsBlock (after.find? (tree.asks query .block))
          (tree.findListNext? list query (some children))
  leaf_outside : ∀ previous, previous ∉ tree.scope list query.recursive →
    tree.findLeafNext? list query (some previous) = none
  block_stale : ∀ previous, tree.list? previous = none →
    tree.findListNext? list query (some previous) = none
  block_root : tree.findListNext? list query (some root) = none
  block_outside : ∀ previous siblings owner, tree.list? previous = some siblings →
    siblings.owner? = some owner → owner ∉ tree.scope list query.recursive →
      tree.findListNext? list query (some previous) = none

theorem Represents.enumeratesKinds (represents : tree.Represents shape) (list : ListId)
    (query : Query) : tree.EnumeratesKinds list query where
  once := represents.scope_nodup list query.recursive
  leaves := by
    rw [← fits_ofKind]
    apply (represents.yields_matches list (query.ofKind .leaf)).exists_shown .none
    intro previous? shown? same
    have back : shown?.map Prod.fst = previous? := by
      cases same with
      | none => rfl
      | some shows => exact congrArg some shows.1
    rw [back]
    exact represents.shows_leaf list query previous?
  blocks := by
    obtain ⟨lists, same, yields⟩ :=
      (represents.yields_matches list (query.ofKind .block)).exists_shown .none
        (represents.shows_block list query)
    rw [fits_ofKind] at same
    refine ⟨lists, same, ?_, yields⟩
    have nodup := (represents.scope_nodup list query.recursive).filter (tree.asks query .block)
    exact nodup_of_forall₂ same nodup fun _ _ _ => represents.showsBlock_unique
  leaf_after before previous after split := by
    rw [← fits_ofKind, ← List.head?_filter,
      ← represents.findNext?_after (query.ofKind .leaf) split]
    exact represents.shows_leaf list query (some previous)
  block_after before previous after children split shows := by
    rw [← fits_ofKind, ← List.head?_filter,
      ← represents.findNext?_after (query.ofKind .block) split]
    exact represents.shows_block list query (.some shows)
  leaf_outside previous outside := by
    have nothing := represents.findNext?_outside (query.ofKind .leaf) outside
    simp only [findLeafNext?, Option.bind_eq_bind, nothing, Option.bind_none]
  block_stale previous stale := by
    simp only [findListNext?, Option.bind_eq_bind, stale, Option.bind_none]
  block_root := by
    obtain ⟨entries, listed⟩ := represents.wellFormed.root_live
    simp only [findListNext?, Option.bind_eq_bind, listed, Option.bind_none, Option.bind_some]
  block_outside previous siblings owner listed owned outside := by
    have nothing := represents.findNext?_outside (query.ofKind .block) outside
    simp only [findListNext?, Option.bind_eq_bind, listed, owned, Option.bind_some,
      Option.pure_def, nothing, Option.bind_none]

/-- Leaves and blocks of a reachable tree are enumerated completely, each once and in document
order, whatever stands between them. -/
theorem reachable_enumeratesKinds (reachable : tree.Reachable) (list : ListId) (query : Query) :
    tree.EnumeratesKinds list query := by
  obtain ⟨shape, represents⟩ := reachable.represents
  exact represents.enumeratesKinds list query

/-- Leaves and blocks of one name, nested in each other. -/
theorem reachable_enumeratesKinds_nested :
    let tree := ((((empty.change (.pushBlock root "a" none)).change
      (.pushLeaf ⟨1⟩ "a" "1")).change (.pushBlock ⟨1⟩ "A" (some "x"))).change
      (.pushLeaf ⟨2⟩ "a" "2")).change (.pushLeaf root "b" "3")
    let query : Query := { name := "a", recursive := true }
    tree.Reachable ∧ tree.scope root true = [⟨0⟩, ⟨1⟩, ⟨2⟩, ⟨3⟩, ⟨4⟩] ∧
      (∃ leaves, List.Forall₂ tree.ShowsLeaf [⟨1⟩, ⟨3⟩] leaves ∧
        Yields (fun previous? => tree.findLeafNext? root query (previous?.map Prod.fst)) none
          leaves) ∧
      (∃ lists, List.Forall₂ tree.ShowsBlock [⟨0⟩, ⟨2⟩] lists ∧
        Yields (tree.findListNext? root query) none lists) ∧
      tree.findListNext? root query (some root) = none := by
  intro tree query
  have reachable : tree.Reachable :=
    .changed (.changed (.changed (.changed (.changed .empty _) _) _) _) _
  have order : tree.scope root true = [⟨0⟩, ⟨1⟩, ⟨2⟩, ⟨3⟩, ⟨4⟩] := by
    subst tree
    cbv
  have asked : [⟨0⟩, ⟨1⟩, ⟨2⟩, ⟨3⟩, ⟨4⟩].filter (tree.asks query .leaf) = [⟨1⟩, ⟨3⟩] ∧
      [⟨0⟩, ⟨1⟩, ⟨2⟩, ⟨3⟩, ⟨4⟩].filter (tree.asks query .block) = [⟨0⟩, ⟨2⟩] := by
    subst tree query
    cbv
  have enumerates := reachable_enumeratesKinds reachable root query
  obtain ⟨leaves, shownLeaves, yieldsLeaves⟩ := enumerates.leaves
  obtain ⟨lists, shownLists, -, yieldsLists⟩ := enumerates.blocks
  rw [show tree.scope root query.recursive = _ from order] at shownLeaves shownLists
  rw [asked.1] at shownLeaves
  rw [asked.2] at shownLists
  exact ⟨reachable, order, ⟨leaves, shownLeaves, yieldsLeaves⟩, ⟨lists, shownLists, yieldsLists⟩,
    enumerates.block_root⟩

end ServiceConfig.Tree
