import Mathlib.Data.List.Nodup
import ServiceConfig.Proofs.Table.Chain
import ServiceConfig.Table.Basic

/-! # Tables as sequences

Seen from outside a table is one sequence of occurrences, in which neither the number of buckets
nor the hash shows. `Represents` ties the two together: the numbers of all live links in the order
of the sequence, and each chain spells those of them whose hash falls into its bucket. Every change
keeps it, and changes the sequence as one would expect.
-/

namespace ServiceConfig.Table

open Chain

/-- What a run of a table is made of. Lookups give an answer but no other table. -/
inductive Change (Record : Type)
  | insert (record : Record)
  | delete (record : Record)
  | clear
  deriving DecidableEq, Repr

/-- What a change does to a sequence of occurrences. -/
def Change.onSequence {Record : Type} [DecidableEq Record] (order : InsertOrder)
    (sequence : List Record) : Change Record → List Record
  | .insert record =>
    match order with
    | .head => record :: sequence
    | .tail => sequence ++ [record]
  | .delete record => sequence.erase record
  | .clear => []

/-- The sequence of occurrences after a run that began with none. -/
def Change.sequence {Record : Type} [DecidableEq Record] (order : InsertOrder)
    (changes : List (Change Record)) : List Record := changes.foldl (onSequence order) []

variable {Record : Type} {table : Table Record} {numbers : List Nat}

def change [DecidableEq Record] (table : Table Record) : Change Record → Table Record
  | .insert record => table.insert record
  | .delete record => (table.delete record).2
  | .clear => table.clear

def run [DecidableEq Record] (table : Table Record) (changes : List (Change Record)) :
    Table Record := changes.foldl change table

/-- Whether the hash of a live link falls into a bucket. -/
def within (table : Table Record) (bucket number : Nat) : Bool :=
  (label table.links number).any fun (_, hash) => table.bucketOf hash = bucket

structure Represents (table : Table Record) (numbers : List Nat) : Prop where
  positive : 0 < table.capacity
  nodup : numbers.Nodup
  live : ∀ number, number ∈ numbers ↔ (table.links.get? number).isSome
  hashed : ∀ {number record hash}, label table.links number = some (record, hash) →
    hash = table.hashOfRecord record
  spells : ∀ bucket < table.capacity,
    (table.chain bucket).Spells (numbers.filter (table.within bucket))

theorem Represents.home_lt (represents : table.Represents numbers) (record : Record) :
    table.home record < table.capacity := Nat.mod_lt _ represents.positive

theorem Represents.count (represents : table.Represents numbers) :
    table.count = numbers.length :=
  Arena.liveCount_eq_length represents.nodup represents.live

private theorem within_iff {bucket number : Nat} :
    table.within bucket number = true ↔
      ∃ record hash, label table.links number = some (record, hash) ∧
        table.bucketOf hash = bucket := by
  simp [within, Option.any_eq_true]

theorem within_unique {one other number : Nat} (here : table.within one number = true)
    (there : table.within other number = true) : one = other := by
  obtain ⟨record, hash, labelled, falls⟩ := within_iff.mp here
  obtain ⟨_, _, labelled', falls'⟩ := within_iff.mp there
  rw [labelled] at labelled'
  cases labelled'
  exact falls.symm.trans falls'

@[simp]
theorem capacity_withChain (table : Table Record) (bucket : Nat) (chain : Chain Record) :
    (table.withChain bucket chain).capacity = table.capacity := by
  simp [capacity, withChain]

private theorem chain_withChain (table : Table Record) {bucket : Nat}
    (inside : bucket < table.capacity) (chain : Chain Record) (other : Nat) :
    (table.withChain bucket chain).chain other =
      if other = bucket then chain else ⟨(table.chain other).bucket, chain.links⟩ := by
  unfold capacity at inside
  by_cases same : other = bucket
  · subst same
    simp [withChain, Table.chain, Array.getD_eq_getD_getElem?, inside]
  · simp [withChain, Table.chain, Array.getD_eq_getD_getElem?, same, Ne.symm same]

/-- A bucket can get another chain if the links of all other chains keep what they have. -/
theorem Represents.withChain (represents : table.Represents numbers) {bucket : Nat}
    (inside : bucket < table.capacity) {chain : Chain Record} {after : List Nat}
    (nodup : after.Nodup)
    (live : ∀ number, number ∈ after ↔ (chain.links.get? number).isSome)
    (hashed : ∀ {number record hash}, label chain.links number = some (record, hash) →
      hash = table.hashOfRecord record)
    (spells : chain.Spells (after.filter ((table.withChain bucket chain).within bucket)))
    (others : ∀ other, other ≠ bucket →
      after.filter ((table.withChain bucket chain).within other) =
        numbers.filter (table.within other))
    (frame : ∀ number ∈ numbers, table.within bucket number = false →
      chain.links.get? number = table.links.get? number) :
    (table.withChain bucket chain).Represents after where
  positive := by
    rw [capacity_withChain]
    exact represents.positive
  nodup := nodup
  live := live
  hashed := hashed
  spells other below := by
    rw [capacity_withChain] at below
    rw [chain_withChain table inside]
    split
    next same =>
      rw [same]
      exact spells
    next apart =>
      rw [others other apart]
      have old := represents.spells other below
      refine ⟨old.linked.congr fun number member => ?_, old.tail, old.nodup⟩
      obtain ⟨present, here⟩ := List.mem_filter.mp member
      exact frame number present
        (Bool.eq_false_iff.mpr fun within => apart (within_unique here within))

private theorem within_withChain (table : Table Record) (bucket : Nat) (chain : Chain Record)
    (other number : Nat) :
    (table.withChain bucket chain).within other number =
      (label chain.links number).any fun (_, hash) => table.bucketOf hash = other := by
  simp only [within, bucketOf, capacity_withChain]
  rfl

private theorem filter_within_withChain (bucket : Nat) {chain : Chain Record} {part : List Nat}
    (same : ∀ number ∈ part, label chain.links number = label table.links number) (other : Nat) :
    part.filter ((table.withChain bucket chain).within other) =
      part.filter (table.within other) := by
  apply List.filter_congr
  intro number member
  rw [within_withChain, same number member]
  rfl

theorem Represents.fresh (represents : table.Represents numbers) : table.links.next ∉ numbers := by
  intro member
  have live := (represents.live _).mp member
  rw [Arena.get?_eq_none_of_next_le (Nat.le_refl _)] at live
  cases live

/-- A new number may stand anywhere in the sequence, so long as its chain has it at that place. -/
theorem Represents.add {front back : List Nat} (represents : table.Represents (front ++ back))
    {record : Record} {chain : Chain Record}
    (labels : ∀ number, label chain.links number =
      if number = table.links.next then some (record, table.hashOfRecord record)
      else label table.links number)
    (spells : chain.Spells (front.filter (table.within (table.home record)) ++
      table.links.next :: back.filter (table.within (table.home record))))
    (frame : ∀ number ∈ front ++ back, table.within (table.home record) number = false →
      chain.links.get? number = table.links.get? number) :
    (table.withChain (table.home record) chain).Represents
      (front ++ table.links.next :: back) := by
  have fresh := represents.fresh
  have moved : (front ++ table.links.next :: back).Perm (table.links.next :: (front ++ back)) :=
    List.perm_middle
  have old : ∀ number ∈ front ++ back, label chain.links number = label table.links number := by
    intro number member
    rw [labels, if_neg (ne_of_mem_of_not_mem member fresh)]
  have oldFront := filter_within_withChain (table.home record) fun number member =>
    old number (List.mem_append_left back member)
  have oldBack := filter_within_withChain (table.home record) fun number member =>
    old number (List.mem_append_right front member)
  have new : ∀ other, (table.withChain (table.home record) chain).within other
      table.links.next = decide (table.home record = other) := by
    intro other
    rw [within_withChain, labels, if_pos rfl]
    rfl
  refine represents.withChain (represents.home_lt record) ?_ ?_ ?_ ?_ ?_ frame
  · exact moved.nodup_iff.mpr (List.nodup_cons.mpr ⟨fresh, represents.nodup⟩)
  · intro number
    rw [moved.mem_iff, List.mem_cons, ← isSome_label, labels]
    split
    next same => simp [same]
    next apart => rw [isSome_label, ← represents.live, or_iff_right apart]
  · intro number record' hash' labelled
    rw [labels] at labelled
    split at labelled
    · cases labelled
      rfl
    · exact represents.hashed labelled
  · rw [List.filter_append, List.filter_cons, new, oldFront, oldBack]
    simpa only [decide_true, ↓reduceIte] using spells
  · intro other apart
    rw [List.filter_append, List.filter_cons, new, oldFront, oldBack, List.filter_append]
    simp only [decide_eq_true_eq, if_neg (Ne.symm apart)]

/-- The numbers of a sequence after an insertion. -/
def inserted (table : Table Record) (numbers : List Nat) : List Nat :=
  match table.order with
  | .head => table.links.next :: numbers
  | .tail => numbers ++ [table.links.next]

theorem label_insert (table : Table Record) (record : Record) (number : Nat) :
    label (table.insert record).links number =
      if number = table.links.next then some (record, table.hashOfRecord record)
      else label table.links number := by
  unfold insert
  dsimp only
  split
  · exact label_pushHead ..
  · exact label_pushTail ..

theorem Represents.insert (represents : table.Represents numbers) (record : Record) :
    (table.insert record).Represents (table.inserted numbers) := by
  have spells := represents.spells _ (represents.home_lt record)
  unfold Table.insert inserted
  cases table.order with
  | head =>
    have whole : table.Represents ([] ++ numbers) := represents
    refine whole.add ?_ (spells.pushHead record _) ?_
    · exact label_pushHead _ _ _
    · exact fun number member _ =>
        get?_pushHead _ _ _ (ne_of_mem_of_not_mem member represents.fresh)
  | tail =>
    have whole : table.Represents (numbers ++ []) := (List.append_nil numbers).symm ▸ represents
    refine whole.add ?_ (spells.pushTail record _) ?_
    · exact label_pushTail _ _ _
    · intro number member outside
      rw [List.append_nil] at member
      apply spells.get?_pushTail record _ (ne_of_mem_of_not_mem member represents.fresh)
      intro inside
      exact Bool.eq_false_iff.mp outside (List.mem_filter.mp inside).2

theorem Represents.records_insert [DecidableEq Record] (represents : table.Represents numbers)
    (record : Record) :
    records (table.insert record).links (table.inserted numbers) =
      Change.onSequence table.order (records table.links numbers) (.insert record) := by
  have old : records (table.insert record).links numbers = records table.links numbers := by
    apply records_congr
    intro number member
    rw [label_insert, if_neg (ne_of_mem_of_not_mem member represents.fresh)]
  have new : records (table.insert record).links [table.links.next] = [record] := by
    rw [records, List.filterMap_cons, label_insert, if_pos rfl]
    rfl
  unfold inserted Change.onSequence
  cases table.order with
  | head =>
    dsimp only
    rw [← List.singleton_append, records_append, new, old]
    rfl
  | tail =>
    dsimp only
    rw [records_append, new, old]

/-- All occurrences of a record are in one bucket. -/
theorem Represents.mem_records_filter (represents : table.Represents numbers) {record : Record}
    {part : List Nat} (member : record ∈ records table.links part) :
    record ∈ records table.links
      (part.filter (table.within (table.home record))) := by
  obtain ⟨number, inside, hash, labelled⟩ := mem_records_iff.mp member
  refine mem_records_iff.mpr ⟨number, List.mem_filter.mpr ⟨inside, ?_⟩, hash, labelled⟩
  exact within_iff.mpr ⟨record, hash, labelled, by rw [represents.hashed labelled, home]⟩

theorem Represents.remove {front back : List Nat} {number bucket : Nat}
    (represents : table.Represents (front ++ number :: back))
    (here : table.within bucket number = true) (inside : bucket < table.capacity)
    {chain : Chain Record}
    (labels : ∀ other, label chain.links other =
      if other = number then none else label table.links other)
    (spells : chain.Spells
      (front.filter (table.within bucket) ++ back.filter (table.within bucket)))
    (frame : ∀ other ∈ front ++ number :: back, table.within bucket other = false →
      chain.links.get? other = table.links.get? other) :
    (table.withChain bucket chain).Represents (front ++ back) := by
  have moved : (front ++ number :: back).Perm (number :: (front ++ back)) := List.perm_middle
  obtain ⟨absent, nodup⟩ := List.nodup_cons.mp (moved.nodup_iff.mp represents.nodup)
  have unchanged : ∀ other ∈ front ++ back,
      label chain.links other = label table.links other := by
    intro other member
    rw [labels, if_neg (ne_of_mem_of_not_mem member absent)]
  have kept := filter_within_withChain bucket unchanged
  refine represents.withChain inside nodup ?_ ?_ ?_ ?_ frame
  · intro other
    rw [← isSome_label, labels]
    split
    next same => simp [same, absent]
    next apart =>
      rw [isSome_label, ← represents.live, moved.mem_iff, List.mem_cons, or_iff_right apart]
  · intro other record hash labelled
    rw [labels] at labelled
    split at labelled
    · cases labelled
    · exact represents.hashed labelled
  · rw [kept, List.filter_append]
    exact spells
  · intro other apart
    have elsewhere : table.within other number = false :=
      Bool.eq_false_iff.mpr fun within => apart (within_unique within here)
    rw [kept, List.filter_append, List.filter_append, List.filter_cons, elsewhere]
    rfl

theorem Represents.delete_absent [DecidableEq Record] (represents : table.Represents numbers)
    {record : Record} (absent : record ∉ records table.links numbers) :
    table.delete record = (none, table) := by
  have spells := represents.spells _ (represents.home_lt record)
  rcases spells.find? record with ⟨front, number, back, link, shape, found, same, -⟩ | ⟨-, missed⟩
  · have member : number ∈ front ++ number :: back := by simp
    have member := (List.mem_filter.mp (shape ▸ member)).1
    have labelled := label_of_get? found
    rw [same] at labelled
    exact absurd (mem_records_iff.mpr ⟨number, member, link.hash, labelled⟩) absent
  · unfold Table.delete
    dsimp only
    rw [missed]

theorem Represents.delete_present [DecidableEq Record] (represents : table.Represents numbers)
    {record : Record} (present : record ∈ records table.links numbers) :
    ∃ after remaining, table.delete record = (some record, after) ∧ after.Represents remaining ∧
      records after.links remaining = (records table.links numbers).erase record ∧
      remaining.Sublist numbers := by
  have inside := represents.home_lt record
  have spells := represents.spells _ inside
  rcases spells.find? record with
    ⟨before, number, behind, link, shape, found, same, first, located⟩ | ⟨missed, -⟩
  · have member : number ∈ before ++ number :: behind := by simp
    obtain ⟨member, here⟩ := List.mem_filter.mp (shape ▸ member)
    obtain ⟨front, back, rfl⟩ := List.append_of_mem member
    have apart := (List.nodup_append.mp represents.nodup).2.2
    have notBehind := (List.nodup_cons.mp (List.nodup_append.mp represents.nodup).2.1).1
    have notBefore : number ∉ front := fun both => apart number both number (by simp) rfl
    -- the two ways to split the chain at this number are one
    rw [List.filter_append, List.filter_cons, if_pos here] at shape
    obtain ⟨rfl, -, rfl⟩ := (List.append_cons_inj_of_notMem
      (fun both => notBefore (List.mem_of_mem_filter both))
      (fun both => notBehind (List.mem_of_mem_filter both))).mp shape
    let place : Place Record :=
      ⟨(front.filter (table.within (table.home record))).getLast?, number, link⟩
    have unlinked := label_unlink (table.chain (table.home record)) place
    refine ⟨_, front ++ back, ?_, represents.remove here inside unlinked ?_ ?_, ?_,
      List.Sublist.append_left (List.sublist_cons_self ..) _⟩
    · unfold Table.delete
      dsimp only
      rw [located]
      exact congrArg (fun removed => (some removed, _)) same
    · rw [List.filter_append, List.filter_cons, if_pos here] at spells
      exact spells.unlink found
    · intro other _ outside
      apply get?_unlink
      · intro both
        exact Bool.eq_false_iff.mp outside (both ▸ here)
      · intro last
        exact Bool.eq_false_iff.mp outside (List.mem_filter.mp (List.mem_of_getLast? last)).2
    · have kept : records ((table.chain (table.home record)).unlink place).links (front ++ back) =
          records table.links (front ++ back) := by
        apply records_congr
        intro other remains
        refine (unlinked other).trans (if_neg ?_)
        rintro rfl
        exact (List.mem_append.mp remains).elim notBefore notBehind
      have found : table.links.get? number = some link := found
      have notFirst : record ∉ records table.links front := fun earlier =>
        first (represents.mem_records_filter earlier)
      apply kept.trans
      rw [records_append, records_append, records_cons found, same,
        List.erase_append_right _ notFirst, List.erase_cons_head]
  · exact absurd (represents.mem_records_filter present) missed

private theorem getD_replicate_empty (capacity bucket : Nat) :
    (Array.replicate capacity Bucket.empty).getD bucket .empty = .empty := by
  simp only [Array.getD_eq_getD_getElem?, Array.getElem?_replicate]
  split <;> rfl

theorem Represents.clear (represents : table.Represents numbers) : table.clear.Represents [] where
  positive := by
    unfold capacity Table.clear
    rw [Array.size_replicate]
    exact represents.positive
  nodup := List.nodup_nil
  live number := by simp [Table.clear]
  hashed labelled := by simp [label, Table.clear] at labelled
  spells bucket _ := by
    rw [Table.chain, Table.clear, getD_replicate_empty]
    exact spells_empty _

/-- A change exchanges the buckets and links of a table and nothing else. -/
theorem change_settings [DecidableEq Record] (table : Table Record) (change : Change Record) :
    ∃ buckets links, table.change change = { table with buckets := buckets, links := links } := by
  cases change with
  | insert record =>
    unfold Table.change insert
    dsimp only
    split <;> exact ⟨_, _, rfl⟩
  | delete record =>
    unfold Table.change delete
    dsimp only
    split <;> exact ⟨_, _, rfl⟩
  | clear => exact ⟨_, _, rfl⟩

theorem run_settings [DecidableEq Record] (table : Table Record) (changes : List (Change Record)) :
    ∃ buckets links, table.run changes = { table with buckets := buckets, links := links } := by
  induction changes generalizing table with
  | nil => exact ⟨table.buckets, table.links, rfl⟩
  | cons change rest ih =>
    obtain ⟨buckets, links, first⟩ := table.change_settings change
    obtain ⟨buckets', links', later⟩ := ih (table.change change)
    refine ⟨buckets', links', ?_⟩
    rw [run, List.foldl_cons, ← run, later, first]

/-- A table stands for a sequence of occurrences if some list of its numbers does. -/
def Refines (table : Table Record) (sequence : List Record) : Prop :=
  ∃ numbers, table.Represents numbers ∧ records table.links numbers = sequence

/-- Each change of a table is the same change of its sequence. -/
theorem Refines.change [DecidableEq Record] {sequence : List Record}
    (refines : table.Refines sequence) (change : Change Record) :
    (table.change change).Refines (change.onSequence table.order sequence) := by
  obtain ⟨numbers, represents, rfl⟩ := refines
  cases change with
  | insert record =>
    exact ⟨table.inserted numbers, represents.insert record, represents.records_insert record⟩
  | delete record =>
    by_cases present : record ∈ records table.links numbers
    · obtain ⟨after, remaining, deleted, kept, erased, -⟩ := represents.delete_present present
      refine ⟨remaining, ?_, ?_⟩
      · simpa only [Table.change, deleted] using kept
      · simpa only [Table.change, deleted, Change.onSequence] using erased
    · refine ⟨numbers, ?_, ?_⟩
      · simpa only [Table.change, represents.delete_absent present] using represents
      · simp only [Table.change, represents.delete_absent present, Change.onSequence,
          List.erase_of_not_mem present]
  | clear => exact ⟨[], represents.clear, rfl⟩

theorem Refines.run [DecidableEq Record] {sequence : List Record}
    (refines : table.Refines sequence) (changes : List (Change Record)) :
    (table.run changes).Refines (changes.foldl (Change.onSequence table.order) sequence) := by
  induction changes generalizing table sequence with
  | nil => exact refines
  | cons change rest ih =>
    obtain ⟨_, _, settings⟩ := table.change_settings change
    have order : (table.change change).order = table.order := by rw [settings]
    have later := ih (refines.change change)
    rw [order] at later
    exact later

section

variable {name : String} {capacity : Nat} {mode : KeyMode} {ignoreCase : Bool} {order : InsertOrder}
  {keyOf : Record → Key} {comparator? : Option Comparator}

theorem create_eq
    (created : create name capacity mode ignoreCase order keyOf comparator? = .ok table) :
    capacity ≠ 0 ∧ table = ⟨name, mode, ignoreCase, order, keyOf, comparator?,
      Array.replicate capacity .empty, .empty⟩ := by
  unfold create at created
  split_ifs at created with zero
  exact ⟨zero, (Except.ok.inj created).symm⟩

theorem represents_create
    (created : create name capacity mode ignoreCase order keyOf comparator? = .ok table) :
    table.Represents [] := by
  obtain ⟨positive, rfl⟩ := create_eq created
  refine ⟨?_, List.nodup_nil, ?_, ?_, ?_⟩
  · simpa [Table.capacity] using Nat.pos_of_ne_zero positive
  · simp
  · intro number record hash labelled
    simp [label] at labelled
  · intro bucket inside
    rw [Table.chain, getD_replicate_empty]
    exact spells_empty _

theorem refines_create
    (created : create name capacity mode ignoreCase order keyOf comparator? = .ok table) :
    table.Refines [] := ⟨[], represents_create created, rfl⟩

end

end ServiceConfig.Table
