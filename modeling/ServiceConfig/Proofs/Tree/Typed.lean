import ServiceConfig.Proofs.Text.Number
import ServiceConfig.Proofs.Tree.Enumeration
import ServiceConfig.Tree.Typed

/-! # Whole numbers in a tree

A typed lookup reads the value of one leaf, the first in document order that the query asks for.
What stands in front of it does not count, be it a block of the same name, and what stands behind it
does not count either. A whole number is read if the value denotes one that the type has room for;
any other value is reported as it stands, under the name that was asked for.
-/

namespace ServiceConfig.Tree

variable {tree : Tree} {shape : Shape} {list : ListId} {query : Query} {type : Text.IntegerType}
  {id : EntryId}

/-- The value of the first leaf in document order that a query asks for. -/
def leafValue? (tree : Tree) (list : ListId) (query : Query) : Option String :=
  ((tree.scope list query.recursive).find? (tree.asks query .leaf)).bind fun id =>
    (tree.entry? id).bind (·.value?)

theorem Represents.findValue?_eq (represents : tree.Represents shape) (list : ListId)
    (query : Query) : tree.findValue? list query = tree.leafValue? list query := by
  have shown := represents.shows_leaf list query none
  rw [represents.findNext?_first, fits_ofKind, List.head?_filter] at shown
  change Option.Rel tree.ShowsLeaf ((tree.scope list query.recursive).find? _) _ at shown
  rw [findValue?, leafValue?]
  generalize (tree.scope list query.recursive).find? _ = found? at shown ⊢
  generalize tree.findLeafNext? list query none = leaf? at shown ⊢
  cases shown with
  | none => rfl
  | some shows =>
    obtain ⟨rfl, entry, live, valued⟩ := shows
    rw [Option.map_some, Option.bind_some, live, Option.bind_some, valued]

private theorem leafValue?_absent
    (none : ∀ id ∈ tree.scope list query.recursive, tree.asks query .leaf id = false) :
    tree.leafValue? list query = Option.none := by
  rw [leafValue?, List.find?_eq_none.mpr fun id member => Bool.eq_false_iff.mp (none id member),
    Option.bind_none]

theorem Represents.leafValue?_present (represents : tree.Represents shape)
    {before after : List EntryId} (split : tree.scope list query.recursive = before ++ id :: after)
    (passed : ∀ earlier ∈ before, tree.asks query .leaf earlier = false)
    (asked : tree.asks query .leaf id = true) :
    ∃ entry value, tree.entry? id = some entry ∧ entry.value? = some value ∧
      tree.leafValue? list query = some value := by
  obtain ⟨entry, live, leaf⟩ := exists_of_asks asked
  obtain ⟨value, valued⟩ := Option.isSome_iff_exists.mp
    (represents.wellFormed.leaf_valued live (Entry.children?_of_leaf leaf))
  have first : (tree.scope list query.recursive).find? (tree.asks query .leaf) = some id := by
    refine List.find?_eq_some_iff_append.mpr ⟨asked, before, after, split, ?_⟩
    exact fun earlier member => by rw [passed earlier member, Bool.not_false]
  refine ⟨entry, value, live, valued, ?_⟩
  rw [leafValue?, first, Option.bind_some, live, Option.bind_some, valued]

section

variable {α : Type} {read? : String → Option α} {value : String}

private theorem findParsed_absent (absent : tree.findValue? list query = none) :
    tree.findParsed list query read? = .ok none := by
  rw [findParsed, absent]

private theorem findParsed_eq_ok (found : tree.findValue? list query = some value) {parsed : α} :
    tree.findParsed list query read? = .ok (some parsed) ↔ read? value = some parsed := by
  simp only [findParsed, found]
  cases read? value with
  | none => exact ⟨nofun, nofun⟩
  | some other => simp

private theorem findParsed_refused (found : tree.findValue? list query = some value)
    (refused : read? value = none) :
    tree.findParsed list query read? = .error (.invalidValue query.name value) := by
  simp only [findParsed, found, refused]

end

/-- How a whole number is looked up below a list. -/
structure ReadsInteger (tree : Tree) (list : ListId) (query : Query) (type : Text.IntegerType) :
    Prop where
  absent : (∀ id ∈ tree.scope list query.recursive, tree.asks query .leaf id = false) →
    tree.findParsed list query (Text.readInteger? type) = .ok none
  present : ∀ before id after, tree.scope list query.recursive = before ++ id :: after →
    (∀ earlier ∈ before, tree.asks query .leaf earlier = false) →
      tree.asks query .leaf id = true →
        ∃ entry value, tree.entry? id = some entry ∧ entry.value? = some value ∧
          (∀ number, tree.findParsed list query (Text.readInteger? type) = .ok (some number) ↔
            Text.Denotes type value number) ∧
          ((∀ number, ¬ Text.Denotes type value number) →
            tree.findParsed list query (Text.readInteger? type) =
              .error (.invalidValue query.name value))
  alone : ∀ (other : Tree) (place : ListId), other.Reachable →
    other.leafValue? place query = tree.leafValue? list query →
      other.findParsed place query (Text.readInteger? type) =
        tree.findParsed list query (Text.readInteger? type)

/-- A whole number of any type is looked up in the first leaf that the query asks for, exactly. -/
theorem reachable_readsInteger (reachable : tree.Reachable) (list : ListId) (query : Query)
    (type : Text.IntegerType) : tree.ReadsInteger list query type := by
  obtain ⟨shape, represents⟩ := reachable.represents
  have found := represents.findValue?_eq list query
  constructor
  case absent =>
    intro none
    rw [leafValue?_absent none] at found
    exact findParsed_absent found
  case present =>
    intro before id after split passed asked
    obtain ⟨entry, value, live, valued, first⟩ := represents.leafValue?_present split passed asked
    rw [first] at found
    refine ⟨entry, value, live, valued, fun number => ?_, fun refused => ?_⟩
    · exact (findParsed_eq_ok found).trans Text.readInteger?_eq_some
    · exact findParsed_refused found (Text.readInteger?_eq_none.mpr refused)
  case alone =>
    intro other place reachable same
    obtain ⟨shape, represents⟩ := reachable.represents
    unfold findParsed
    rw [found, ← same, ← represents.findValue?_eq]

/-- A number behind a block of its name and in front of a leaf that has none. -/
theorem reachable_readsInteger_byte :
    let tree := (((empty.change (.pushBlock root "port" (some "1"))).change
      (.pushLeaf root "PORT" "+007")).change (.pushLeaf root "port" "x")).change
      (.pushLeaf root "limit" "256")
    let byte : Text.IntegerType := ⟨false, 8⟩
    tree.Reachable ∧
      tree.findParsed root { name := "port" } (Text.readInteger? byte) = .ok (some 7) ∧
      tree.findParsed root { name := "Limit" } (Text.readInteger? byte) =
        .error (.invalidValue "Limit" "256") ∧
      tree.findParsed root { name := "por" } (Text.readInteger? byte) = .ok none := by
  intro tree byte
  have reachable : tree.Reachable := .changed (.changed (.changed (.changed .empty _) _) _) _
  have order : tree.scope root false = [⟨0⟩, ⟨1⟩, ⟨2⟩, ⟨3⟩] := by
    subst tree
    cbv
  have asked : [⟨0⟩, ⟨1⟩].map (tree.asks { name := "port" } .leaf) = [false, true] ∧
      [⟨0⟩, ⟨1⟩, ⟨2⟩, ⟨3⟩].map (tree.asks { name := "Limit" } .leaf) =
        [false, false, false, true] ∧
      [⟨0⟩, ⟨1⟩, ⟨2⟩, ⟨3⟩].map (tree.asks { name := "por" } .leaf) =
        [false, false, false, false] := by
    subst tree
    cbv
  have valued : [⟨1⟩, ⟨3⟩].map (fun id => (tree.entry? id).bind (·.value?)) =
      [some "+007", some "256"] := by
    subst tree
    cbv
  simp only [List.map_cons, List.map_nil, List.cons.injEq, and_true] at asked valued
  obtain ⟨⟨blockPort, leafPort⟩, ⟨blockLimit, leafLimit, laterLimit, limit⟩, none⟩ := asked
  refine ⟨reachable, ?_, ?_, ?_⟩
  · obtain ⟨entry, value, live, found, exact, -⟩ :=
      (reachable_readsInteger reachable root { name := "port" } byte).present [⟨0⟩] ⟨1⟩ [⟨2⟩, ⟨3⟩]
        order (by simp [blockPort]) leafPort
    rw [live, Option.bind_some, found] at valued
    rw [exact, Option.some.inj valued.1]
    exact Text.readInteger?_eq_some.mp (by cbv)
  · obtain ⟨entry, value, live, found, -, refused⟩ :=
      (reachable_readsInteger reachable root { name := "Limit" } byte).present [⟨0⟩, ⟨1⟩, ⟨2⟩] ⟨3⟩
        [] order (by simp [blockLimit, leafLimit, laterLimit]) limit
    rw [live, Option.bind_some, found] at valued
    rw [Option.some.inj valued.2] at refused
    exact refused (Text.readInteger?_eq_none.mp (by cbv))
  · refine (reachable_readsInteger reachable root { name := "por" } byte).absent ?_
    intro id member
    rw [order] at member
    simp only [List.mem_cons, List.not_mem_nil, or_false] at member
    obtain rfl | rfl | rfl | rfl := member <;> simp only [none]

end ServiceConfig.Tree
