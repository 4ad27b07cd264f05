import ServiceConfig.Proofs.Table.Integrity
import ServiceConfig.Table.Stats

/-! # How full a table is

The count of a table is taken from its arena, and the other figures about it from its chains. Both
hold the same occurrences, so the figures agree: a chain is as long as there are records that belong
into its bucket, and the lengths of all chains add up to the count. The rest is a matter of these
lengths.
-/

namespace ServiceConfig.Table

open Chain

section

variable {lengths : List Nat}

private theorem isGreatest_foldl_max (nonempty : lengths ≠ []) :
    IsGreatest {length | length ∈ lengths} (lengths.foldl max 0) := by
  have whole : ↑(lengths.foldl max 0) = lengths.maximum := by
    rw [List.foldl_eq_foldr]
    exact List.foldr_max_of_ne_nil nonempty
  exact ⟨List.maximum_mem whole.symm, fun length member => List.le_maximum_of_mem member whole.symm⟩

private theorem length_used (lengths : List Nat) :
    (lengths.filter (· != 0)).length = lengths.length - lengths.countP (· = 0) := by
  have parted : lengths.length = lengths.countP (· = 0) + (lengths.filter (· != 0)).length := by
    rw [List.countP_eq_length_filter]
    exact lengths.length_eq_length_filter_add (· = 0)
  omega

/-- There are no more lengths in use than all of them add up to. -/
private theorem used_le_sum (lengths : List Nat) :
    lengths.length - lengths.countP (· = 0) ≤ lengths.sum := by
  rw [← length_used, ← lengths.sum_filter_bne_zero]
  refine List.length_le_sum_of_one_le _ fun length member => Nat.one_le_iff_ne_zero.mpr ?_
  exact bne_iff_ne.mp (List.mem_filter.mp member).2

private theorem sum_le_used_mul {longest : Nat} (bounded : ∀ length ∈ lengths, length ≤ longest) :
    lengths.sum ≤ (lengths.length - lengths.countP (· = 0)) * longest := by
  rw [← length_used, ← lengths.sum_filter_bne_zero, ← smul_eq_mul]
  exact List.sum_le_card_nsmul _ _ fun length member => bounded length (List.mem_filter.mp member).1

end

variable {Record : Type} {table : Table Record} {numbers : List Nat}

/-- How many records of a sequence belong into a bucket, by the hash of their bounded keys. -/
def share (table : Table Record) (sequence : List Record) (bucket : Nat) : Nat :=
  sequence.countP fun record =>
    (Hash.lookup2 (table.mode.bound (table.keyOf record)) table.ignoreCase).toNat % table.capacity =
      bucket

/-- The figures of a table agree with one another and with the sequence that it holds. -/
structure Agrees (table : Table Record) (sequence : List Record) : Prop where
  entries : table.stats.entries = table.count ∧ table.count = sequence.length
  empty_le : table.stats.emptyBuckets ≤ table.capacity
  empty_iff : table.stats.emptyBuckets = table.capacity ↔ table.count = 0
  longest_iff : table.stats.longestChain = 0 ↔ table.count = 0
  longest : IsGreatest {held | ∃ bucket < table.capacity, table.share sequence bucket = held}
    table.stats.longestChain
  used_le : table.capacity - table.stats.emptyBuckets ≤ table.stats.entries
  entries_le : table.stats.entries ≤
    (table.capacity - table.stats.emptyBuckets) * table.stats.longestChain
  crowded : ∃ bucket < table.capacity,
    table.stats.entries ≤ table.capacity * (table.chain bucket).toList.length

private theorem length_chainLengths (table : Table Record) :
    table.chainLengths.length = table.capacity := by
  rw [chainLengths, List.length_map, List.length_range]

private theorem mem_chainLengths {length : Nat} : length ∈ table.chainLengths ↔
    ∃ bucket < table.capacity, (table.chain bucket).toList.length = length := by
  simp only [chainLengths, List.mem_map, List.mem_range]

theorem Represents.length_chain (represents : table.Represents numbers) {bucket : Nat}
    (inside : bucket < table.capacity) :
    (table.chain bucket).toList.length = table.share (records table.links numbers) bucket := by
  rw [← List.length_map Link.record, represents.chain_records inside, represents.records_part,
    ← List.countP_eq_length_filter]
  rfl

theorem Represents.sum_chainLengths (represents : table.Represents numbers) :
    table.chainLengths.sum = table.count := by
  have listed : table.toList.length = table.chainLengths.sum := by
    rw [toList, List.length_flatMap, chainLengths]
    simp only [List.length_map]
  rw [← listed, represents.toList_perm.length_eq, represents.count_records]

theorem Represents.isGreatest_longest (represents : table.Represents numbers) :
    IsGreatest {length | length ∈ table.chainLengths} table.stats.longestChain :=
  isGreatest_foldl_max (List.ne_nil_of_length_pos (table.length_chainLengths ▸ represents.positive))

theorem Represents.agrees (represents : table.Represents numbers) :
    table.Agrees (records table.links numbers) := by
  have added := represents.sum_chainLengths
  obtain ⟨attained, bounded⟩ := represents.isGreatest_longest
  have empty_le : table.stats.emptyBuckets ≤ table.capacity := by
    rw [← table.length_chainLengths]
    exact List.countP_le_length
  have used_le : table.capacity - table.stats.emptyBuckets ≤ table.count := by
    rw [← table.length_chainLengths, ← added]
    exact used_le_sum _
  have entries_le : table.count ≤
      (table.capacity - table.stats.emptyBuckets) * table.stats.longestChain := by
    rw [← table.length_chainLengths, ← added]
    exact sum_le_used_mul bounded
  have longest_iff : table.stats.longestChain = 0 ↔ table.count = 0 := by
    constructor
    · intro none
      rw [none, Nat.mul_zero] at entries_le
      exact Nat.le_zero.mp entries_le
    · intro none
      rw [none, List.sum_eq_zero_iff] at added
      exact added _ attained
  obtain ⟨crowded, inside, length⟩ := mem_chainLengths.mp attained
  refine ⟨⟨rfl, represents.count_records⟩, empty_le, ?_, longest_iff, ?_, used_le, entries_le,
    crowded, inside, ?_⟩
  · constructor
    · intro unused
      rw [unused, Nat.sub_self, Nat.zero_mul] at entries_le
      exact Nat.le_zero.mp entries_le
    · intro none
      rw [none, Nat.le_zero, Nat.sub_eq_zero_iff_le] at used_le
      exact Nat.le_antisymm empty_le used_le
  · refine ⟨⟨crowded, inside, (represents.length_chain inside).symm.trans length⟩, ?_⟩
    rintro held ⟨bucket, inside, rfl⟩
    exact bounded (mem_chainLengths.mpr ⟨bucket, inside, represents.length_chain inside⟩)
  · rw [length]
    exact entries_le.trans (Nat.mul_le_mul_right _ (Nat.sub_le ..))

/-- After every run the figures of a table of any capacity agree with one another and with the
sequence that the changes spell out. A run exchanges buckets and links and nothing else. -/
theorem run_stats_agree [DecidableEq Record] (name : String) {capacity : Nat} {mode : KeyMode}
    (positive : capacity ≠ 0) (valid : mode ≠ .fixed 0) (ignoreCase : Bool) (order : InsertOrder)
    (keyOf : Record → Key) (comparator? : Option Comparator) (changes : List (Change Record)) :
    ∃ empty, create name capacity mode ignoreCase order keyOf comparator? = .ok empty ∧
      (∃ buckets links,
        empty.run changes = { empty with buckets := buckets, links := links }) ∧
      (empty.run changes).stats.name = name ∧ (empty.run changes).stats.capacity = capacity ∧
      (empty.run changes).Agrees (Change.sequence order changes) := by
  obtain ⟨empty, created⟩ : ∃ empty : Table Record,
      create name capacity mode ignoreCase order keyOf comparator? = .ok empty :=
    ⟨_, by rw [create, if_neg positive, if_neg valid]⟩
  obtain ⟨numbers, represents, sequence⟩ := (refines_create created).run changes
  have agrees := represents.agrees
  have kept := empty.capacity_run changes
  obtain ⟨buckets, links, settings⟩ := empty.run_settings changes
  obtain ⟨-, rfl⟩ := create_eq created
  rw [sequence] at agrees
  refine ⟨_, created, ⟨buckets, links, settings⟩, ?_, kept.trans Array.size_replicate, agrees⟩
  rw [settings]
  rfl

/-- Three buckets: one with two records, of which one was put in twice and taken out once, one with
a single record, and one that is not in use. -/
theorem run_stats_agree_crowded :
    (3 : Nat) ≠ 0 ∧ KeyMode.fixed 1 ≠ .fixed 0 ∧
      ∃ empty : Table Nat,
        create "clients" 3 (.fixed 1) false .head (fun id => [id.toUInt8]) none = .ok empty ∧
        (empty.run [.insert 0, .insert 1, .insert 2, .insert 1, .delete 1]).Agrees [2, 1, 0] ∧
        (empty.run [.insert 0, .insert 1, .insert 2, .insert 1, .delete 1]).stats =
          ⟨"clients", 3, 3, 1, 2⟩ := by
  refine ⟨by decide, by decide, ?_⟩
  obtain ⟨empty, created, -, -, -, agrees⟩ := run_stats_agree "clients"
    (by decide : (3 : Nat) ≠ 0) (by decide : KeyMode.fixed 1 ≠ .fixed 0) false .head
    (fun id => [id.toUInt8]) none [.insert 0, .insert 1, .insert 2, .insert 1, .delete 1]
  refine ⟨empty, created, agrees, ?_⟩
  cases created
  decide

end ServiceConfig.Table
