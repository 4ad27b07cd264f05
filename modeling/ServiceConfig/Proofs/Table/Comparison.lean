import Mathlib.Data.List.Basic
import ServiceConfig.Proofs.Table.Guard
import ServiceConfig.Proofs.Table.Lookup

/-! # When a table calls its comparator

A lookup has keys compared for the records of the sequence whose full hash is that of the key asked
for, in the order of the sequence; the number of buckets plays no part in it. A lookup that one
record answers stops behind the first that is judged equal. If the comparator looks something up in
the table, the first call ends the lookup, and the rest of the run goes on as if the lookup had not
been made. Nothing but lookups calls the comparator.
-/

namespace ServiceConfig.Table

variable {Record : Type}

def Step.change? : Step Record → Option (Change Record)
  | .change made => some made
  | .ask _ | .list | .stats => none

def Step.isLookup : Step Record → Bool
  | .ask _ => true
  | .change _ | .list | .stats => false

/-- The changes among the steps of a run. -/
def changes (steps : List (Step Record)) : List (Change Record) := steps.filterMap Step.change?

/-- The pairs of keys that a question is about: for each record of a sequence whose full hash is
that of the bounded key asked for, its own bounded key and that one, both with their case. -/
def pairs (mode : KeyMode) (ignoreCase : Bool) (keyOf : Record → Key) (sequence : List Record)
    (question : Question Record) : List (Key × Key) :=
  let probe := mode.bound (question.key keyOf)
  let alike := sequence.filter fun record =>
    Hash.lookup2 (mode.bound (keyOf record)) ignoreCase = Hash.lookup2 probe ignoreCase
  alike.map fun record => (mode.bound (keyOf record), probe)

/-- The pairs up to the first that is judged equal, and this one, or all if none is. -/
def upToEqual (compare : Key → Key → Ordering) (pairs : List (Key × Key)) : List (Key × Key) :=
  pairs.take (pairs.findIdx (fun pair => compare pair.1 pair.2 = .eq) + 1)

/-- The table as it would be with another comparator, or with none. -/
def withComparator (table : Table Record) (comparator? : Option Comparator) : Table Record :=
  { table with comparator? := comparator? }

/-- How a run calls the comparator. The pairs that a question is about are given for the steps that
were made before it. -/
structure Consults [DecidableEq Record] (conduct : Key → Key → Conduct Record)
    (comparator : Comparator) (pairs : List (Step Record) → Question Record → List (Key × Key))
    (table : Table Record) (steps : List (Step Record)) : Prop where
  lives : ∀ final count answers, Lives conduct table 0 steps final count answers ↔
    count = 0 ∧ table.perform steps = (final, answers)
  judged : ∀ compare, comparator = .judge compare → ∀ before question after,
    steps = before ++ .ask question :: after →
      ∃ answer, (table.perform steps).2[before.length]? = some answer ∧ answer.found?.isSome ∧
        answer.calls = if question.single then upToEqual compare (pairs before question)
          else pairs before question
  refused : comparator = .reentrant → ∀ before question after,
    steps = before ++ .ask question :: after →
      ∃ answer, (table.perform steps).2[before.length]? = some answer ∧
        (answer.found? = none ↔ pairs before question ≠ []) ∧
        answer.calls = (pairs before question).take 1
  forgotten : ∀ before question after, steps = before ++ .ask question :: after →
    Lives conduct table 0 (before ++ after) (table.perform steps).1 0
      ((table.perform steps).2.eraseIdx before.length)
  silent : ∀ before step after, steps = before ++ step :: after → step.isLookup = false →
    ∃ answer, (table.perform steps).2[before.length]? = some answer ∧ answer.found?.isSome ∧
      answer.calls = []
  indifferent : ∀ other?,
    ((table.withComparator other?).perform steps).1 =
        (table.perform steps).1.withComparator other? ∧
      ∀ before step after, steps = before ++ step :: after → step.isLookup = false →
        ((table.withComparator other?).perform steps).2[before.length]? =
          (table.perform steps).2[before.length]?

section

variable {table : Table Record}

private theorem upToEqual_cons (compare : Key → Key → Ordering) (pair : Key × Key)
    (rest : List (Key × Key)) :
    upToEqual compare (pair :: rest) =
      if compare pair.1 pair.2 = .eq then [pair] else pair :: upToEqual compare rest := by
  rw [upToEqual, List.findIdx_cons]
  by_cases equal : compare pair.1 pair.2 = .eq
  · rw [if_pos equal, decide_eq_true equal]
    rfl
  · rw [if_neg equal, decide_eq_false equal]
    rfl

/-- A judge is called up to the first equal pair, or on all pairs. -/
theorem search_judged {compare : Key → Key → Ordering}
    (settled : table.comparator? = some (.judge compare)) (single : Bool) (probe : Key)
    (records : List Record) :
    let compared := records.map fun record => (table.boundKey record, probe)
    (table.search single probe records).calls =
      if single then upToEqual compare compared else compared := by
  intro compared
  induction records with
  | nil => cases single <;> rfl
  | cons record rest ih =>
    have agrees : table.agree? (table.boundKey record) probe =
        some (compare (table.boundKey record) probe == .eq) := by rw [agree?, settled]
    rw [search, show compared = _ :: rest.map _ from rfl, upToEqual_cons]
    dsimp only
    rw [agrees]
    by_cases equal : compare (table.boundKey record) probe = .eq
    · rw [if_pos equal, equal]
      cases single with
      | true => rfl
      | false => exact congrArg (_ :: ·) ih
    · rw [if_neg equal, beq_eq_false_iff_ne.mpr equal]
      cases single with
      | true => exact congrArg (_ :: ·) ih
      | false => exact congrArg (_ :: ·) ih

/-- A re-entrant comparator is called once, unless there is nothing to compare. -/
theorem search_refused (settled : table.comparator? = some .reentrant) (single : Bool)
    (probe : Key) (records : List Record) :
    table.search single probe records =
      ⟨if records = [] then some [] else none,
        (records.map fun record => (table.boundKey record, probe)).take 1⟩ := by
  cases records with
  | nil => rfl
  | cons record rest =>
    have refuses : table.agree? (table.boundKey record) probe = none := by rw [agree?, settled]
    rw [search]
    dsimp only
    rw [refuses, if_neg (List.cons_ne_nil record rest)]
    rfl

/-- The candidates of a lookup are the records that its question is about. -/
theorem Refines.map_candidates {sequence : List Record} (refines : table.Refines sequence)
    (question : Question Record) :
    (table.candidates (table.probe question)).map
        (fun record => (table.boundKey record, table.probe question)) =
      pairs table.mode table.ignoreCase table.keyOf sequence question := by
  obtain ⟨numbers, represents, rfl⟩ := refines
  rw [represents.candidates]
  rfl

theorem Refines.ask_judged {sequence : List Record} (refines : table.Refines sequence)
    {compare : Key → Key → Ordering} (settled : table.comparator? = some (.judge compare))
    (question : Question Record) :
    let compared := pairs table.mode table.ignoreCase table.keyOf sequence question
    (table.ask question).found?.isSome ∧ (table.ask question).calls =
      if question.single then upToEqual compare compared else compared := by
  intro compared
  have injected : table.comparator? = (some compare).map .judge := settled
  have found := search_found? injected question.single (table.probe question)
    (table.candidates (table.probe question))
  have calls := search_judged settled question.single (table.probe question)
    (table.candidates (table.probe question))
  rw [refines.map_candidates] at calls
  rw [ask_eq, lookupBound]
  refine ⟨?_, calls⟩
  rw [Lookup.map, found]
  rfl

theorem Refines.ask_refused {sequence : List Record} (refines : table.Refines sequence)
    (settled : table.comparator? = some .reentrant) (question : Question Record) :
    let compared := pairs table.mode table.ignoreCase table.keyOf sequence question
    ((table.ask question).found? = none ↔ compared ≠ []) ∧
      (table.ask question).calls = compared.take 1 := by
  intro compared
  have same := refines.map_candidates question
  have searched := search_refused settled question.single (table.probe question)
    (table.candidates (table.probe question))
  have none_iff : compared = [] ↔ table.candidates (table.probe question) = [] := by
    rw [show compared = _ from same.symm, List.map_eq_nil_iff]
  rw [same] at searched
  rw [ask_eq, lookupBound, searched, Ne, none_iff]
  refine ⟨?_, rfl⟩
  rw [Lookup.map]
  dsimp only
  split
  next empty => exact iff_of_false (Option.some_ne_none _) (not_not_intro empty)
  next some => exact iff_of_true rfl some

private theorem insert_withComparator (table : Table Record) (other? : Option Comparator)
    (record : Record) :
    (table.withComparator other?).insert record =
      (table.insert record).withComparator other? := by
  have order : (table.withComparator other?).order = table.order := rfl
  rw [insert, insert, order]
  cases table.order <;> rfl

section

variable [DecidableEq Record]

private theorem perform_append (table : Table Record) (before after : List (Step Record)) :
    table.perform (before ++ after) = (((table.perform before).1.perform after).1,
      (table.perform before).2 ++ ((table.perform before).1.perform after).2) := by
  induction before generalizing table with
  | nil => rfl
  | cons step rest ih =>
    rw [List.cons_append, perform_cons, ih, perform_cons, List.cons_append]

private theorem length_perform (table : Table Record) (steps : List (Step Record)) :
    (table.perform steps).2.length = steps.length := by
  induction steps generalizing table with
  | nil => rfl
  | cons step rest ih => exact congrArg (· + 1) (ih _)

/-- Only changes lead to another table. -/
theorem perform_table (table : Table Record) (steps : List (Step Record)) :
    (table.perform steps).1 = table.run (changes steps) := by
  induction steps generalizing table with
  | nil => rfl
  | cons step rest ih =>
    rw [perform_cons, ih]
    cases step <;> rfl

private theorem perform_getElem? (table : Table Record) (before : List (Step Record))
    (step : Step Record) (after : List (Step Record)) :
    (table.perform (before ++ step :: after)).2[before.length]? =
      some ((table.run (changes before)).step step).2 := by
  rw [perform_append, ← length_perform table before,
    List.getElem?_append_right (Nat.le_refl _), Nat.sub_self, ← perform_table]
  rfl

/-- A run without one of its lookups gives the same answers to all other steps. -/
theorem perform_eraseIdx (table : Table Record) (before : List (Step Record))
    (question : Question Record) (after : List (Step Record)) :
    table.perform (before ++ after) = ((table.perform (before ++ .ask question :: after)).1,
      (table.perform (before ++ .ask question :: after)).2.eraseIdx before.length) := by
  rw [perform_append, perform_append, perform_cons, ← length_perform table before,
    List.eraseIdx_append_of_length_le (Nat.le_refl _), Nat.sub_self]
  rfl

private theorem delete_withComparator (table : Table Record) (other? : Option Comparator)
    (record : Record) :
    (table.withComparator other?).delete record =
      ((table.delete record).1, (table.delete record).2.withComparator other?) := by
  have located : ((table.withComparator other?).chain
      ((table.withComparator other?).home record)).find? record =
        (table.chain (table.home record)).find? record := rfl
  rw [delete, delete, located]
  cases (table.chain (table.home record)).find? record <;> rfl

private theorem step_withComparator (table : Table Record) (other? : Option Comparator)
    (step : Step Record) :
    ((table.withComparator other?).step step).1 = (table.step step).1.withComparator other? ∧
      (step.isLookup = false →
        ((table.withComparator other?).step step).2 = (table.step step).2) := by
  cases step with
  | change change =>
    cases change with
    | insert record => exact ⟨insert_withComparator .., fun _ => rfl⟩
    | delete record =>
      have same := table.delete_withComparator other? record
      refine ⟨congrArg Prod.snd same, fun _ => ?_⟩
      rw [Table.step, Table.step, removed?, removed?, same]
    | clear => exact ⟨rfl, fun _ => rfl⟩
  | ask => exact ⟨rfl, fun other => Bool.noConfusion other⟩
  | list | stats => exact ⟨rfl, fun _ => rfl⟩

/-- Steps other than lookups do not depend on the comparator. -/
theorem run_withComparator (table : Table Record) (other? : Option Comparator)
    (made : List (Change Record)) :
    (table.withComparator other?).run made = (table.run made).withComparator other? := by
  induction made generalizing table with
  | nil => rfl
  | cons change rest ih =>
    have first : (table.withComparator other?).change change =
        (table.change change).withComparator other? :=
      (table.step_withComparator other? (.change change)).1
    rw [run, List.foldl_cons, first]
    exact ih _

theorem Refines.consults {sequence : List Record} (refines : table.Refines sequence)
    {comparator : Comparator} {conduct : Key → Key → Conduct Record}
    (conducts : Conducts conduct comparator) (settled : table.comparator? = some comparator)
    (steps : List (Step Record)) :
    Consults conduct comparator
      (fun before => pairs table.mode table.ignoreCase table.keyOf
        ((changes before).foldl (Change.onSequence table.order) sequence)) table steps where
  lives final count answers := lives_iff conducts settled
  judged compare judge before question after same := by
    subst same judge
    refine ⟨_, table.perform_getElem? before (.ask question) after, ?_⟩
    obtain ⟨buckets, links, settings⟩ := table.run_settings (changes before)
    have reached := refines.run (changes before)
    rw [settings] at reached ⊢
    obtain ⟨found, calls⟩ := reached.ask_judged settled question
    exact ⟨Option.isSome_map.trans found, calls⟩
  refused reentrant before question after same := by
    subst same reentrant
    refine ⟨_, table.perform_getElem? before (.ask question) after, ?_⟩
    obtain ⟨buckets, links, settings⟩ := table.run_settings (changes before)
    have reached := refines.run (changes before)
    rw [settings] at reached ⊢
    obtain ⟨found, calls⟩ := reached.ask_refused settled question
    exact ⟨Option.map_eq_none_iff.trans found, calls⟩
  forgotten before question after same := by
    subst same
    exact (lives_iff conducts settled).mpr ⟨rfl, table.perform_eraseIdx before question after⟩
  silent before step after same other := by
    subst same
    refine ⟨_, table.perform_getElem? before step after, ?_⟩
    cases step with
    | ask => cases other
    | change | list | stats => exact ⟨rfl, rfl⟩
  indifferent other? := by
    constructor
    · rw [perform_table, perform_table, run_withComparator]
    · intro before step after same other
      subst same
      rw [perform_getElem?, perform_getElem?, run_withComparator]
      exact congrArg some ((step_withComparator _ other? step).2 other)

end

end

/-- Whatever the capacity, a run calls the comparator for the records of its sequence that have the
full hash of the key asked for, up to the first that is equal or for all of them; and a comparator
that looks something up in the table ends each lookup that calls it, and nothing else. -/
theorem run_consults [DecidableEq Record] (name : String) {capacity : Nat} {mode : KeyMode}
    (positive : capacity ≠ 0) (valid : mode ≠ .fixed 0) (ignoreCase : Bool) (order : InsertOrder)
    (keyOf : Record → Key) {comparator : Comparator} {conduct : Key → Key → Conduct Record}
    (conducts : Conducts conduct comparator) (steps : List (Step Record)) :
    ∃ empty, create name capacity mode ignoreCase order keyOf (some comparator) = .ok empty ∧
      Consults conduct comparator
        (fun before => pairs mode ignoreCase keyOf (Change.sequence order (changes before)))
        empty steps := by
  obtain ⟨empty, created⟩ : ∃ empty : Table Record,
      create name capacity mode ignoreCase order keyOf (some comparator) = .ok empty :=
    ⟨_, by rw [create, if_neg positive, if_neg valid]⟩
  refine ⟨empty, created, ?_⟩
  have refines := refines_create created
  obtain ⟨-, rfl⟩ := create_eq created
  exact refines.consults conducts rfl steps

/-- One bucket and two keys that differ in case only. A judge that respects case takes the figures
of the table and goes on to the second of them; a comparator that lists the table and then looks
something up ends the lookup that calls it, and the lookup behind that finds nothing to compare. -/
theorem run_consults_crowded :
    let keyOf : Nat → Key := fun id => [65 + 32 * id.toUInt8]
    let compare : Key → Key → Ordering := fun stored probe => if stored = probe then .eq else .lt
    let judging : Key → Key → Conduct Nat := fun stored probe =>
      .looks .stats fun _ => .judges (compare stored probe)
    let asking : Key → Key → Conduct Nat := fun _ _ =>
      .looks .list fun _ => .asks (.contains [120]) fun _ => .judges .eq
    let steps : List (Step Nat) := [.change (.insert 0), .change (.insert 1), .ask (.find [97, 0]),
      .change (.delete 0), .ask (.findAll [98]), .list]
    (1 : Nat) ≠ 0 ∧ KeyMode.text 0 ≠ .fixed 0 ∧
      (∃ empty, create "clients" 1 (.text 0) true .tail keyOf (some (.judge compare)) = .ok empty ∧
        Lives judging empty 0 steps (empty.perform steps).1 0
          [⟨some (.changed none), []⟩, ⟨some (.changed none), []⟩,
            ⟨some (.found (.one (some 1))), [([65], [97]), ([97], [97])]⟩,
            ⟨some (.changed (some 0)), []⟩, ⟨some (.found (.all [])), []⟩,
            ⟨some (.listed [1]), []⟩]) ∧
      ∃ empty, create "clients" 1 (.text 0) true .tail keyOf (some .reentrant) = .ok empty ∧
        Lives asking empty 0 steps (empty.perform steps).1 0
          [⟨some (.changed none), []⟩, ⟨some (.changed none), []⟩, ⟨none, [([65], [97])]⟩,
            ⟨some (.changed (some 0)), []⟩, ⟨some (.found (.all [])), []⟩,
            ⟨some (.listed [1]), []⟩] := by
  intro keyOf compare judging asking steps
  have positive : (1 : Nat) ≠ 0 := by decide
  have valid : KeyMode.text 0 ≠ .fixed 0 := by decide
  refine ⟨positive, valid, ?_, ?_⟩
  · have conducts : Conducts judging (.judge compare) := fun _ _ => .looks fun _ => .judges
    obtain ⟨empty, created, consults⟩ :=
      run_consults "clients" positive valid true .tail keyOf conducts steps
    refine ⟨empty, created, (consults.lives _ _ _).mpr ⟨rfl, Prod.ext rfl ?_⟩⟩
    obtain ⟨-, rfl⟩ := create_eq created
    decide
  · have conducts : Conducts asking .reentrant := fun _ _ => .looks fun _ => .asks
    obtain ⟨empty, created, consults⟩ :=
      run_consults "clients" positive valid true .tail keyOf conducts steps
    refine ⟨empty, created, (consults.lives _ _ _).mpr ⟨rfl, Prod.ext rfl ?_⟩⟩
    obtain ⟨-, rfl⟩ := create_eq created
    decide

end ServiceConfig.Table
