import Mathlib.Data.List.Perm.Basic
import ServiceConfig.Proofs.Hash
import ServiceConfig.Proofs.Table.Sequence

/-! # Lookups of a table as lookups of its sequence

A lookup walks one chain and compares keys only where the full hashes agree. On the sequence of the
table this is a filter: the bucket adds no condition of its own, since equal hashes fall into one
bucket, and the order of a chain is that of the sequence. With the default comparison the hashes add
no condition either, since equal keys have equal hashes, also up to case.
-/

namespace ServiceConfig

/-- Whether two bounded keys are the same, up to ASCII case where case does not count. -/
def sameKey (ignoreCase : Bool) (stored probe : Key) : Bool :=
  if ignoreCase then Ascii.bytesEqualFold stored probe else stored == probe

/-- Whether the default comparison or the one given instead declares two bounded keys equal. -/
def declaresEqual (ignoreCase : Bool) (compare? : Option (Key → Key → Ordering))
    (stored probe : Key) : Bool :=
  match compare? with
  | none => sameKey ignoreCase stored probe
  | some compare => compare stored probe == .eq

/-- Whether a lookup by `key` is to find a record: their bounded keys have one hash and are declared
equal. -/
def wanted {Record : Type} (mode : KeyMode) (ignoreCase : Bool) (keyOf : Record → Key)
    (compare? : Option (Key → Key → Ordering)) (key : Key) (record : Record) : Bool :=
  let stored := mode.bound (keyOf record)
  let probe := mode.bound key
  Hash.lookup2 stored ignoreCase == Hash.lookup2 probe ignoreCase &&
    declaresEqual ignoreCase compare? stored probe

private theorem lookup2_eq_of_sameKey {ignoreCase : Bool} {stored probe : Key}
    (same : sameKey ignoreCase stored probe = true) :
    Hash.lookup2 stored ignoreCase = Hash.lookup2 probe ignoreCase := by
  cases ignoreCase with
  | false => rw [show stored = probe by simpa [sameKey] using same]
  | true => exact Hash.lookup2_congr_of_fold (by simpa [sameKey, Ascii.bytesEqualFold] using same)

/-- The default comparison makes the test of the hashes redundant. -/
theorem wanted_default {Record : Type} (mode : KeyMode) (ignoreCase : Bool) (keyOf : Record → Key)
    (key : Key) (record : Record) :
    wanted mode ignoreCase keyOf none key record =
      sameKey ignoreCase (mode.bound (keyOf record)) (mode.bound key) := by
  unfold wanted declaresEqual
  dsimp only
  cases same : sameKey ignoreCase (mode.bound (keyOf record)) (mode.bound key) with
  | false => rw [Bool.and_false]
  | true => rw [Bool.and_true, beq_iff_eq, lookup2_eq_of_sameKey same]

namespace Table

open Chain

variable {Record : Type} {table : Table Record} {numbers : List Nat}

/-- The links of a sequence in its order. -/
def occurrencesOf (table : Table Record) (numbers : List Nat) : List (Link Record) :=
  numbers.filterMap table.links.get?

theorem records_eq_map (table : Table Record) (numbers : List Nat) :
    records table.links numbers = (table.occurrencesOf numbers).map Link.record := by
  rw [records, occurrencesOf, List.map_filterMap]
  exact List.filterMap_congr fun number _ => by rw [label, Option.map_map]; rfl

/-- Every occurrence has its record. -/
theorem Represents.count_records (represents : table.Represents numbers) :
    table.count = (records table.links numbers).length := by
  rw [represents.count, records_eq_map, List.length_map, occurrencesOf]
  refine (List.filterMap_length_eq_length.mpr fun number member => ?_).symm
  exact (represents.live number).mp member

theorem Represents.hash_eq (represents : table.Represents numbers) {link : Link Record}
    (member : link ∈ table.occurrencesOf numbers) : link.hash = table.hashOfRecord link.record := by
  obtain ⟨number, -, found⟩ := List.mem_filterMap.mp member
  exact represents.hashed (label_of_get? found)

/-- A chain is the part of the sequence whose hashes fall into its bucket. -/
theorem Represents.chain_toList (represents : table.Represents numbers) {bucket : Nat}
    (inside : bucket < table.capacity) :
    (table.chain bucket).toList =
      (table.occurrencesOf numbers).filter fun link => table.bucketOf link.hash = bucket := by
  rw [(represents.spells bucket inside).toList, occurrencesOf, List.filter_filterMap,
    List.filterMap_filter]
  apply List.filterMap_congr
  intro number _
  change (if table.within bucket number then table.links.get? number else none) = _
  unfold within label
  cases table.links.get? number with
  | none => simp
  | some link =>
    by_cases falls : table.bucketOf link.hash = bucket <;> simp [Option.filter, falls]

/-- The candidates are the records of the sequence whose hash is that of the probe. -/
theorem Represents.candidates (represents : table.Represents numbers) (probe : Key) :
    table.candidates probe =
      (records table.links numbers).filter fun record =>
        table.hashOfRecord record = table.hashOf probe := by
  unfold Table.candidates
  dsimp only
  have inside : table.bucketOf (table.hashOf probe) < table.capacity :=
    Nat.mod_lt _ represents.positive
  rw [represents.chain_toList inside, List.filter_filter, records_eq_map, List.filter_map]
  refine congrArg (List.map Link.record) (List.filter_congr fun link member => ?_)
  rw [Function.comp_apply, ← represents.hash_eq member]
  by_cases same : link.hash = table.hashOf probe <;> simp [same]

private theorem flatMap_filter_perm {α : Type} (place : α → Nat) (bound : Nat) (items : List α) :
    ((List.range bound).flatMap fun here => items.filter (place · = here)).Perm
      (items.filter (place · < bound)) := by
  induction bound with
  | zero => simp
  | succ bound ih =>
    have lower : (items.filter (place · < bound + 1)).filter (place · < bound) =
        items.filter (place · < bound) := by
      rw [List.filter_filter]
      apply List.filter_congr
      intro item _
      rw [← Bool.decide_and, decide_eq_decide]
      omega
    have last : (items.filter (place · < bound + 1)).filter
        (fun item => !decide (place item < bound)) = items.filter (place · = bound) := by
      rw [List.filter_filter]
      apply List.filter_congr
      intro item _
      rw [← decide_not, ← Bool.decide_and, decide_eq_decide]
      omega
    have parted := List.filter_append_perm (fun item => decide (place item < bound))
      (items.filter (place · < bound + 1))
    rw [lower, last] at parted
    rw [List.range_succ, List.flatMap_append, List.flatMap_singleton]
    exact (ih.append_right _).trans parted

/-- The records of all buckets, one after the other, are those of the sequence. -/
theorem Represents.toList_perm (represents : table.Represents numbers) :
    table.toList.Perm (records table.links numbers) := by
  have chains : table.toList = ((List.range table.capacity).flatMap fun bucket =>
      (table.occurrencesOf numbers).filter (table.bucketOf ·.hash = bucket)).map Link.record := by
    rw [toList, List.map_flatMap]
    apply List.flatMap_congr
    intro bucket inside
    rw [represents.chain_toList (List.mem_range.mp inside)]
  have all : (table.occurrencesOf numbers).filter (table.bucketOf ·.hash < table.capacity) =
      table.occurrencesOf numbers :=
    List.filter_eq_self.mpr fun link _ => decide_eq_true (Nat.mod_lt _ represents.positive)
  rw [chains, records_eq_map]
  apply List.Perm.map
  have parted := flatMap_filter_perm (fun link => table.bucketOf link.hash) table.capacity
    (table.occurrencesOf numbers)
  rwa [all] at parted

theorem agree?_eq {compare? : Option (Key → Key → Ordering)}
    (settled : table.comparator? = compare?.map .judge) (stored probe : Key) :
    table.agree? stored probe = some (declaresEqual table.ignoreCase compare? stored probe) := by
  unfold agree?
  cases compare? <;> rw [settled] <;> rfl

theorem search_found? {compare? : Option (Key → Key → Ordering)}
    (settled : table.comparator? = compare?.map .judge) (single : Bool) (probe : Key)
    (sequence : List Record) :
    (table.search single probe sequence).found? =
      let equal := sequence.filter fun record =>
        declaresEqual table.ignoreCase compare? (table.boundKey record) probe
      some (if single then equal.take 1 else equal) := by
  induction sequence with
  | nil => cases single <;> rfl
  | cons record rest ih =>
    dsimp only at ih ⊢
    rw [search]
    dsimp only
    rw [agree?_eq settled, List.filter_cons]
    cases declaresEqual table.ignoreCase compare? (table.boundKey record) probe with
    | false => exact ih
    | true =>
      cases single with
      | true => rfl
      | false =>
        simp only [Bool.false_eq_true, ↓reduceIte] at ih ⊢
        rw [ih, Option.map_some]

theorem Represents.lookupBound {compare? : Option (Key → Key → Ordering)}
    (represents : table.Represents numbers) (settled : table.comparator? = compare?.map .judge)
    (single : Bool) (key : Key) :
    (table.lookupBound single (table.mode.bound key)).found? =
      let found := (records table.links numbers).filter
        (wanted table.mode table.ignoreCase table.keyOf compare? key)
      some (if single then found.take 1 else found) := by
  rw [Table.lookupBound, search_found? settled, represents.candidates, List.filter_filter]
  have same : ∀ record, (declaresEqual table.ignoreCase compare? (table.boundKey record)
      (table.mode.bound key) &&
        decide (table.hashOfRecord record = table.hashOf (table.mode.bound key))) =
      wanted table.mode table.ignoreCase table.keyOf compare? key record := by
    intro record
    rw [Bool.and_comm, ← beq_eq_decide]
    rfl
  simp only [same]

/-- What a table shows is its sequence: the answers to all lookups, to a deletion, the count, and
the records listed. -/
structure Shows [DecidableEq Record] (table : Table Record) (wanted : Key → Record → Bool)
    (sequence : List Record) : Prop where
  findAll : ∀ key, (table.findAll key).found? = some (sequence.filter (wanted key))
  find : ∀ key, (table.find key).found? = some (sequence.filter (wanted key)).head?
  contains : ∀ key, (table.contains key).found? = some !(sequence.filter (wanted key)).isEmpty
  findRecord : ∀ probe, table.findRecord probe = table.find (table.keyOf probe)
  count : table.count = sequence.length
  listed : table.toList.Perm sequence
  deleted : ∀ record, (table.delete record).1 = if record ∈ sequence then some record else none
  untouched : ∀ record, record ∉ sequence → (table.delete record).2 = table

theorem Refines.shows [DecidableEq Record] {compare? : Option (Key → Key → Ordering)}
    {sequence : List Record} (refines : table.Refines sequence)
    (settled : table.comparator? = compare?.map .judge) :
    table.Shows (wanted table.mode table.ignoreCase table.keyOf compare?) sequence := by
  obtain ⟨numbers, represents, rfl⟩ := refines
  have found : ∀ key, (table.find key).found? =
      some ((records table.links numbers).filter
        (wanted table.mode table.ignoreCase table.keyOf compare? key)).head? := by
    intro key
    rw [Table.find, Lookup.map, represents.lookupBound settled]
    simp [List.head?_take]
  refine ⟨represents.lookupBound settled false, found, ?_, fun _ => rfl, ?_, ?_, ?_, ?_⟩
  · intro key
    rw [contains, Lookup.map, found]
    generalize (records table.links numbers).filter _ = matching
    cases matching <;> rfl
  · exact represents.count_records
  · exact represents.toList_perm
  · intro record
    split
    next present =>
      obtain ⟨_, _, deleted, -⟩ := represents.delete_present present
      rw [deleted]
    next absent => rw [represents.delete_absent absent]
  · intro record absent
    rw [represents.delete_absent absent]

/-- After every run a table of any capacity shows the sequence that the changes spell out. -/
theorem run_shows_sequence [DecidableEq Record] (name : String) {capacity : Nat} {mode : KeyMode}
    (positive : capacity ≠ 0) (valid : mode ≠ .fixed 0) (ignoreCase : Bool) (order : InsertOrder)
    (keyOf : Record → Key) (compare? : Option (Key → Key → Ordering))
    (changes : List (Change Record)) :
    ∃ empty, create name capacity mode ignoreCase order keyOf (compare?.map .judge) = .ok empty ∧
      (empty.run changes).Shows (wanted mode ignoreCase keyOf compare?)
        (Change.sequence order changes) ∧
      (compare? = none → ∀ key record, wanted mode ignoreCase keyOf compare? key record =
        sameKey ignoreCase (mode.bound (keyOf record)) (mode.bound key)) := by
  obtain ⟨empty, created⟩ : ∃ empty : Table Record,
      create name capacity mode ignoreCase order keyOf (compare?.map .judge) = .ok empty :=
    ⟨_, by rw [create, if_neg positive, if_neg valid]⟩
  refine ⟨empty, created, ?_, ?_⟩
  · have refines := (refines_create created).run changes
    obtain ⟨buckets, links, settings⟩ := empty.run_settings changes
    rw [create, if_neg positive, if_neg valid] at created
    cases created
    rw [settings] at refines ⊢
    exact refines.shows rfl
  · rintro rfl key record
    exact wanted_default mode ignoreCase keyOf key record

/-- One bucket, keys that differ in case only, and a record put in twice and taken out once. -/
theorem run_shows_sequence_crowded :
    (1 : Nat) ≠ 0 ∧ KeyMode.text 0 ≠ .fixed 0 ∧
      ∃ empty : Table Nat,
        create "clients" 1 (.text 0) true .tail
          (fun id => if id = 2 then [98] else [65 + 32 * id.toUInt8]) none = .ok empty ∧
        ((empty.run [.insert 0, .insert 1, .insert 2, .insert 0, .delete 0]).findAll [97]).found? =
          some [1, 0] := by
  refine ⟨by decide, by decide, ?_⟩
  obtain ⟨empty, created, shown, -⟩ := run_shows_sequence "clients" (by decide : (1 : Nat) ≠ 0)
    (by decide : KeyMode.text 0 ≠ .fixed 0) true .tail
    (fun id => if id = 2 then [98] else [65 + 32 * id.toUInt8]) none
    [.insert 0, .insert 1, .insert 2, .insert 0, .delete 0]
  exact ⟨empty, created, (shown.findAll [97]).trans (by decide)⟩

end Table

end ServiceConfig
