import Mathlib
import ServiceConfig.Proofs.Table.Lookup

/-! # How the links of a table hang together

After every run the live links of a table fall apart into the chains of its buckets. Each chain
leads from the head of its bucket to its tail through numbers that all differ, and the last link
leads nowhere. Numbers are handed out in ascending order, so the number of a link tells which
insertion it stems from. A chain that grows at its head holds its numbers in descending order, one
that grows at its tail in ascending order, and taking out links keeps the order of the others.
-/

namespace ServiceConfig

/-- Whether the one of two insertions stands before the other in a chain, by when they were made. -/
def InsertOrder.Precedes : InsertOrder → Nat → Nat → Prop
  | .head, first, second => second < first
  | .tail, first, second => first < second

theorem Chain.Segment.head?_eq_none_iff {Record : Type} {links : Arena (Link Record)}
    {current? : Option Nat} {numbers : List Nat} (segment : Segment links current? numbers none) :
    current? = none ↔ numbers = [] := by
  cases segment with
  | nil => exact iff_of_true rfl rfl
  | cons => exact iff_of_false (Option.some_ne_none _) (List.cons_ne_nil _ _)

namespace Table

open Chain

variable {Record : Type} {table : Table Record} {numbers : List Nat}

/-- The records that a run has put in, oldest first. -/
def Change.insertions (changes : List (Change Record)) : List Record :=
  changes.filterMap fun
    | .insert record => some record
    | .delete _ | .clear => none

/-- The numbers of all chains, bucket by bucket. -/
def linked (table : Table Record) (chains : Nat → List Nat) : List Nat :=
  (List.range table.capacity).flatMap chains

/-- The chains of a table lead through the numbers that `chains` gives for each bucket. A live link
is in the chain that its hash selects and in no other, and the hash is that of its record's key. -/
structure Intact (table : Table Record) (chains : Nat → List Nat) : Prop where
  leads : ∀ bucket < table.capacity,
    Segment table.links (table.chain bucket).bucket.head? (chains bucket) none
  acyclic : ∀ bucket < table.capacity, (chains bucket).Nodup
  last : ∀ bucket < table.capacity,
    (table.chain bucket).bucket.tail? = (chains bucket).getLast?
  ends : ∀ bucket < table.capacity,
    (table.chain bucket).bucket.head? = none ↔ (table.chain bucket).bucket.tail? = none
  placed : ∀ number link, table.links.get? number = some link → ∀ bucket < table.capacity,
    number ∈ chains bucket ↔ link.hash.toNat % table.capacity = bucket
  hashed : ∀ number link, table.links.get? number = some link →
    link.hash = Hash.lookup2 (table.mode.bound (table.keyOf link.record)) table.ignoreCase
  total : ((List.range table.capacity).map fun bucket => (chains bucket).length).sum = table.count

/-- Listing a table goes through each live link once: bucket by bucket through what is left of the
insertions into it, in the order in which they stand. -/
structure Iterates [DecidableEq Record] (table : Table Record) (chains : Nat → List Nat)
    (changes : List (Change Record)) : Prop where
  listed : table.toList = records table.links (table.linked chains)
  once : (table.linked chains).Nodup
  all : ∀ number, number ∈ table.linked chains ↔ (table.links.get? number).isSome
  stems : ∀ number link, table.links.get? number = some link →
    (Change.insertions changes)[number]? = some link.record
  aged : ∀ bucket < table.capacity, (chains bucket).Pairwise table.order.Precedes
  surviving : table.toList = (List.range table.capacity).flatMap fun bucket =>
    (Change.sequence table.order changes).filter (table.home · = bucket)

/-- The part of a sequence that falls into a bucket. -/
def part (table : Table Record) (numbers : List Nat) (bucket : Nat) : List Nat :=
  numbers.filter (table.within bucket)

theorem Represents.mem_part (represents : table.Represents numbers) {number : Nat}
    {link : Link Record} (found : table.links.get? number = some link) (bucket : Nat) :
    number ∈ table.part numbers bucket ↔ link.hash.toNat % table.capacity = bucket := by
  have live : number ∈ numbers := (represents.live number).mpr (by rw [found, Option.isSome_some])
  rw [part, List.mem_filter, and_iff_right live, within, label_of_get? found]
  exact decide_eq_true_iff

theorem Represents.linked_nodup (represents : table.Represents numbers) :
    (table.linked (table.part numbers)).Nodup := by
  refine List.nodup_flatMap.mpr ⟨fun bucket _ => represents.nodup.filter _, ?_⟩
  refine List.nodup_range.imp fun different number here there => different ?_
  exact within_unique (List.mem_filter.mp here).2 (List.mem_filter.mp there).2

theorem Represents.mem_linked (represents : table.Represents numbers) (number : Nat) :
    number ∈ table.linked (table.part numbers) ↔ (table.links.get? number).isSome := by
  rw [linked, List.mem_flatMap, ← represents.live]
  constructor
  · rintro ⟨bucket, -, here⟩
    exact (List.mem_filter.mp here).1
  · intro member
    obtain ⟨link, found⟩ := Option.isSome_iff_exists.mp ((represents.live number).mp member)
    have inside : link.hash.toNat % table.capacity < table.capacity :=
      Nat.mod_lt _ represents.positive
    exact ⟨_, List.mem_range.mpr inside, (represents.mem_part found _).mpr rfl⟩

theorem Represents.intact (represents : table.Represents numbers) :
    table.Intact (table.part numbers) where
  leads bucket inside := (represents.spells bucket inside).linked
  acyclic bucket _ := represents.nodup.filter _
  last bucket inside := (represents.spells bucket inside).tail
  ends bucket inside := by
    have spells := represents.spells bucket inside
    rw [spells.linked.head?_eq_none_iff, spells.tail, List.getLast?_eq_none_iff]
  placed number link found bucket _ := represents.mem_part found bucket
  hashed number link found := represents.hashed (label_of_get? found)
  total := by
    have counted := Arena.liveCount_eq_length represents.linked_nodup represents.mem_linked
    rw [linked, List.length_flatMap] at counted
    exact counted.symm

theorem Represents.chain_records (represents : table.Represents numbers) {bucket : Nat}
    (inside : bucket < table.capacity) :
    (table.chain bucket).toList.map Link.record =
      records table.links (table.part numbers bucket) := by
  rw [(represents.spells bucket inside).toList, records_eq_map]
  rfl

/-- The records of a chain are those of the sequence whose home is its bucket. -/
theorem Represents.records_part (represents : table.Represents numbers) (bucket : Nat) :
    records table.links (table.part numbers bucket) =
      (records table.links numbers).filter (table.home · = bucket) := by
  rw [records, records, part, List.filterMap_filter, List.filter_filterMap]
  apply List.filterMap_congr
  intro number _
  unfold within
  cases labelled : label table.links number with
  | none => rfl
  | some known =>
    obtain ⟨record, hash⟩ := known
    have home : table.bucketOf hash = table.home record := by rw [represents.hashed labelled, home]
    simp [home, Option.filter]

theorem Represents.toList_eq (represents : table.Represents numbers) :
    table.toList = records table.links (table.linked (table.part numbers)) ∧
      table.toList = (List.range table.capacity).flatMap fun bucket =>
        (records table.links numbers).filter (table.home · = bucket) := by
  have chained : table.toList = (List.range table.capacity).flatMap fun bucket =>
      records table.links (table.part numbers bucket) := by
    rw [toList]
    apply List.flatMap_congr
    intro bucket inside
    exact represents.chain_records (List.mem_range.mp inside)
  constructor
  · rw [chained, linked, records, List.filterMap_flatMap]
    rfl
  · rw [chained]
    exact List.flatMap_congr fun bucket _ => represents.records_part bucket

/-- A table stands as a run has left it: it holds the sequence that the run spells out, under the
numbers of the insertions, which are in the order in which they stand. -/
structure Stands [DecidableEq Record] (table : Table Record) (changes : List (Change Record))
    (numbers : List Nat) : Prop where
  represents : table.Represents numbers
  sequence : records table.links numbers = Change.sequence table.order changes
  counted : table.links.next = (Change.insertions changes).length
  stems : ∀ number record hash, label table.links number = some (record, hash) →
    (Change.insertions changes)[number]? = some record
  aged : numbers.Pairwise table.order.Precedes

private theorem insertions_append (changes : List (Change Record)) (change : Change Record) :
    Change.insertions (changes ++ [change]) =
      Change.insertions changes ++ Change.insertions [change] := List.filterMap_append

private theorem sequence_append [DecidableEq Record] (order : InsertOrder)
    (changes : List (Change Record)) (change : Change Record) :
    Change.sequence order (changes ++ [change]) =
      change.onSequence order (Change.sequence order changes) := by
  rw [Change.sequence, List.foldl_append]
  rfl

private theorem order_change [DecidableEq Record] (table : Table Record) (change : Change Record) :
    (table.change change).order = table.order := by
  obtain ⟨buckets, links, settings⟩ := table.change_settings change
  rw [settings]

private theorem next_insert (table : Table Record) (record : Record) :
    (table.insert record).links.next = table.links.next + 1 := by
  unfold insert
  dsimp only
  split
  · simp [withChain, pushHead, chain]
  · unfold pushTail
    dsimp only
    split <;> simp [withChain, chain]

private theorem next_delete [DecidableEq Record] (table : Table Record) (record : Record) :
    (table.delete record).2.links.next = table.links.next := by
  unfold delete
  dsimp only
  split
  · rfl
  · unfold unlink withChain
    dsimp only
    split <;> simp [chain]

/-- A deletion leaves the label of a link as it is, or the link is gone. -/
theorem label_delete [DecidableEq Record] (table : Table Record) (record : Record) (number : Nat) :
    label (table.delete record).2.links number = none ∨
      label (table.delete record).2.links number = label table.links number := by
  unfold delete
  dsimp only
  split
  · exact .inr rfl
  next place _ =>
    have unlinked := label_unlink (table.chain (table.home record)) place number
    split at unlinked
    · exact .inl unlinked
    · exact .inr unlinked

section

variable [DecidableEq Record] {changes : List (Change Record)}

/-- A new link is the youngest, and stands before all others or behind them. -/
theorem Stands.insert (stands : table.Stands changes numbers) (record : Record) :
    (table.insert record).Stands (changes ++ [.insert record]) (table.inserted numbers) where
  represents := stands.represents.insert record
  sequence := by
    have order : (table.insert record).order = table.order := table.order_change (.insert record)
    rw [stands.represents.records_insert, stands.sequence, order, sequence_append]
  counted := by
    rw [next_insert, stands.counted, insertions_append, List.length_append]
    rfl
  stems number known hash labelled := by
    rw [insertions_append]
    rw [label_insert] at labelled
    split at labelled
    next newest =>
      obtain ⟨rfl, -⟩ := Prod.mk.inj (Option.some.inj labelled)
      rw [newest, stands.counted]
      exact List.getElem?_concat_length
    next =>
      have stems := stands.stems number known hash labelled
      have older : number < (Change.insertions changes).length :=
        (List.getElem?_eq_some_iff.mp stems).1
      rw [List.getElem?_append_left older, stems]
  aged := by
    have order : (table.insert record).order = table.order := table.order_change (.insert record)
    have older : ∀ number ∈ numbers, number < table.links.next := by
      intro number member
      obtain ⟨link, found⟩ :=
        Option.isSome_iff_exists.mp ((stands.represents.live number).mp member)
      exact Arena.lt_next_of_get? found
    have aged := stands.aged
    rw [order]
    unfold inserted
    generalize table.order = direction at aged ⊢
    cases direction with
    | head => exact List.pairwise_cons.mpr ⟨older, aged⟩
    | tail =>
      refine List.pairwise_append.mpr ⟨aged, List.pairwise_singleton _ _, ?_⟩
      intro number member newest same
      rw [List.mem_singleton.mp same]
      exact older number member

/-- A deletion takes out one link or none, and the others keep their order. -/
theorem Stands.delete (stands : table.Stands changes numbers) (record : Record) :
    ∃ after, (table.delete record).2.Stands (changes ++ [.delete record]) after := by
  have order : (table.delete record).2.order = table.order := table.order_change (.delete record)
  obtain ⟨after, represents, erased, remains⟩ : ∃ after,
      (table.delete record).2.Represents after ∧
      records (table.delete record).2.links after = (records table.links numbers).erase record ∧
      after.Sublist numbers := by
    by_cases present : record ∈ records table.links numbers
    · obtain ⟨left, after, deleted, represents, erased, remains⟩ :=
        stands.represents.delete_present present
      rw [deleted]
      exact ⟨after, represents, erased, remains⟩
    · rw [stands.represents.delete_absent present, List.erase_of_not_mem present]
      exact ⟨numbers, stands.represents, rfl, .refl numbers⟩
  have insertions :
      Change.insertions (changes ++ [.delete record]) = Change.insertions changes := by
    rw [insertions_append]
    exact List.append_nil _
  refine ⟨after, represents, ?_, ?_, ?_, ?_⟩
  · rw [erased, stands.sequence, order, sequence_append]
    rfl
  · rw [next_delete, stands.counted, insertions]
  · intro number known hash labelled
    rw [insertions]
    rcases table.label_delete record number with gone | kept
    · rw [gone] at labelled
      cases labelled
    · exact stands.stems number known hash (kept.symm.trans labelled)
  · rw [order]
    exact stands.aged.sublist remains

theorem Stands.clear (stands : table.Stands changes numbers) :
    table.clear.Stands (changes ++ [.clear]) [] where
  represents := stands.represents.clear
  sequence := by
    rw [sequence_append]
    rfl
  counted := by
    rw [insertions_append]
    have kept : table.clear.links.next = table.links.next := by
      simp [Table.clear, Arena.next, Arena.releaseAll]
    rw [kept, stands.counted]
    exact congrArg List.length (List.append_nil _).symm
  stems number known hash labelled := by simp [label, Table.clear] at labelled
  aged := .nil

theorem Stands.change (stands : table.Stands changes numbers) (change : Change Record) :
    ∃ after, (table.change change).Stands (changes ++ [change]) after := by
  cases change with
  | insert record => exact ⟨_, stands.insert record⟩
  | delete record => exact stands.delete record
  | clear => exact ⟨_, stands.clear⟩

theorem Stands.run (stands : table.Stands [] numbers) (changes : List (Change Record)) :
    ∃ after, (table.run changes).Stands changes after := by
  induction changes using List.reverseRecOn with
  | nil => exact ⟨numbers, stands⟩
  | append_singleton earlier change ih =>
    obtain ⟨before, stands⟩ := ih
    have later : table.run (earlier ++ [change]) = (table.run earlier).change change :=
      List.foldl_append
    rw [later]
    exact stands.change change

theorem Stands.iterates (stands : table.Stands changes numbers) :
    table.Iterates (table.part numbers) changes where
  listed := stands.represents.toList_eq.1
  once := stands.represents.linked_nodup
  all := stands.represents.mem_linked
  stems number link found := stands.stems number link.record link.hash (label_of_get? found)
  aged bucket _ := stands.aged.filter _
  surviving := by rw [stands.represents.toList_eq.2, stands.sequence]

private theorem stands_create {name : String} {capacity : Nat} {mode : KeyMode} {ignoreCase : Bool}
    {order : InsertOrder} {keyOf : Record → Key} {comparator? : Option Comparator}
    (created : create name capacity mode ignoreCase order keyOf comparator? = .ok table) :
    table.Stands [] [] where
  represents := represents_create created
  sequence := rfl
  counted := by
    obtain ⟨-, rfl⟩ := create_eq created
    rfl
  stems number record hash labelled := by
    obtain ⟨-, rfl⟩ := create_eq created
    simp [label] at labelled
  aged := .nil

private theorem capacity_change (table : Table Record) (change : Change Record) :
    (table.change change).capacity = table.capacity := by
  cases change with
  | insert record =>
    unfold Table.change Table.insert
    dsimp only
    split <;> exact capacity_withChain ..
  | delete record =>
    unfold Table.change Table.delete
    dsimp only
    split
    · rfl
    · exact capacity_withChain ..
  | clear => exact Array.size_replicate

theorem capacity_run (table : Table Record) (changes : List (Change Record)) :
    (table.run changes).capacity = table.capacity := by
  induction changes generalizing table with
  | nil => rfl
  | cons change rest ih => exact (ih (table.change change)).trans (table.capacity_change change)

/-- After every run the links of a table of any capacity hang together, and listing it gives what is
left of the insertions, bucket by bucket: newest first if they were put at the head, oldest first
at the tail. A run exchanges buckets and links and nothing else; lookups do not even that. -/
theorem run_intact (name : String) {capacity : Nat} {mode : KeyMode} (positive : capacity ≠ 0)
    (valid : mode ≠ .fixed 0) (ignoreCase : Bool) (order : InsertOrder) (keyOf : Record → Key)
    (comparator? : Option Comparator) (changes : List (Change Record)) :
    ∃ empty chains,
      create name capacity mode ignoreCase order keyOf comparator? = .ok empty ∧
      (∃ buckets links, buckets.size = capacity ∧
        empty.run changes = { empty with buckets := buckets, links := links }) ∧
      (empty.run changes).Intact chains ∧ (empty.run changes).Iterates chains changes := by
  obtain ⟨empty, created⟩ : ∃ empty : Table Record,
      create name capacity mode ignoreCase order keyOf comparator? = .ok empty :=
    ⟨_, by rw [create, if_neg positive, if_neg valid]⟩
  obtain ⟨numbers, stands⟩ := (stands_create created).run changes
  refine ⟨empty, (empty.run changes).part numbers, created, ?_, stands.represents.intact,
    stands.iterates⟩
  obtain ⟨buckets, links, settings⟩ := empty.run_settings changes
  have size := empty.capacity_run changes
  obtain ⟨-, rfl⟩ := create_eq created
  refine ⟨buckets, links, ?_, settings⟩
  rw [settings] at size
  exact size.trans Array.size_replicate

end

/-- A tail that is taken out, another link put behind what remains, and a record put in twice and
taken out once. -/
theorem run_intact_tail :
    (1 : Nat) ≠ 0 ∧ KeyMode.text 0 ≠ .fixed 0 ∧
      ∃ empty : Table Nat,
        create "clients" 1 (.text 0) false .tail (fun id => [id.toUInt8]) none = .ok empty ∧
        (empty.run [.insert 1, .insert 2, .delete 2, .insert 3, .insert 1, .delete 1]).toList =
          [3, 1] := by
  refine ⟨by decide, by decide, ?_⟩
  obtain ⟨empty, chains, created, -, -, iterates⟩ := run_intact "clients"
    (by decide : (1 : Nat) ≠ 0) (by decide : KeyMode.text 0 ≠ .fixed 0) false .tail
    (fun id => [id.toUInt8]) none
    [.insert 1, .insert 2, .delete 2, .insert 3, .insert 1, .delete 1]
  refine ⟨empty, created, iterates.surviving.trans ?_⟩
  cases created
  decide

end Table

end ServiceConfig
