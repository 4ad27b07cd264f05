import Mathlib.Data.List.Basic
import ServiceConfig.Proofs.Table.Sequence
import ServiceConfig.Table.Stats

/-! # Lookups under a guard

In debug builds a table counts the calls that are active inside it and admits only one; other builds
have no guard. A comparator is code that a lookup calls, so that it can put a question to the very
table that is calling it. A lookup is refused then, and the refusal ends the lookup around it as
well; what a table tells without counting the call is told. However a call is left, the count is
lowered. Nothing here knows how the count will move, but every run of a table that counts gives the
answers of one that does not, and leaves the count where it was.
-/

namespace ServiceConfig.Table

variable {Record : Type}

/-- What can be looked up in a table. -/
inductive Question (Record : Type)
  | find (key : Key)
  | findRecord (probe : Record)
  | findAll (key : Key)
  | contains (key : Key)
  deriving DecidableEq, Repr

inductive Finding (Record : Type)
  | one (found? : Option Record)
  | all (found : List Record)
  | present (found : Bool)
  deriving DecidableEq, Repr

namespace Question

def key (keyOf : Record → Key) : Question Record → Key
  | .find key | .findAll key | .contains key => key
  | .findRecord probe => keyOf probe

/-- Whether one record is enough for an answer. -/
def single : Question Record → Bool
  | .findAll _ => false
  | .find _ | .findRecord _ | .contains _ => true

/-- The answer to a question when these records were found. -/
def finding (question : Question Record) (found : List Record) : Finding Record :=
  match question with
  | .find _ | .findRecord _ => .one found.head?
  | .findAll _ => .all found
  | .contains _ => .present found.head?.isSome

end Question

/-- The bounded key that a question asks for. -/
def probe (table : Table Record) (question : Question Record) : Key :=
  table.mode.bound (question.key table.keyOf)

def ask (table : Table Record) : Question Record → Lookup (Finding Record)
  | .find key => (table.find key).map .one
  | .findRecord probe => (table.findRecord probe).map .one
  | .findAll key => (table.findAll key).map .all
  | .contains key => (table.contains key).map .present

theorem ask_eq (table : Table Record) (question : Question Record) :
    table.ask question =
      (table.lookupBound question.single (table.probe question)).map question.finding := by
  cases question <;> simp only [ask, find, findRecord, findAll, contains, Lookup.map,
    Option.map_map] <;> rfl

/-- What can be done with a table. -/
inductive Step (Record : Type)
  | change (change : Change Record)
  | ask (question : Question Record)
  | list
  | stats
  deriving DecidableEq, Repr

inductive Answer (Record : Type)
  | changed (removed? : Option Record)
  | found (finding : Finding Record)
  | listed (records : List Record)
  | stats (stats : TableStats)
  deriving DecidableEq, Repr

/-- The record that a change hands back. -/
def removed? [DecidableEq Record] (table : Table Record) : Change Record → Option Record
  | .delete record => (table.delete record).1
  | .insert _ | .clear => none

/-- A step changes the table or asks for something, never both. -/
def step [DecidableEq Record] (table : Table Record) :
    Step Record → Table Record × Lookup (Answer Record)
  | .change change => (table.change change, ⟨some (.changed (table.removed? change)), []⟩)
  | .ask question => (table, (table.ask question).map .found)
  | .list => (table, ⟨some (.listed table.toList), []⟩)
  | .stats => (table, ⟨some (.stats table.stats), []⟩)

/-- The answers to the steps of a run, and the table at its end. -/
def perform [DecidableEq Record] (table : Table Record) :
    List (Step Record) → Table Record × List (Lookup (Answer Record))
  | [] => (table, [])
  | step :: rest =>
    let (next, answer) := table.step step
    let (last, answers) := next.perform rest
    (last, answer :: answers)

/-- What a table tells without a guard. -/
inductive Glance
  | list
  | stats
  | count
  deriving DecidableEq, Repr

inductive Sight (Record : Type)
  | listed (records : List Record)
  | stats (stats : TableStats)
  | counted (count : Nat)
  deriving DecidableEq, Repr

def glance (table : Table Record) : Glance → Sight Record
  | .list => .listed table.toList
  | .stats => .stats table.stats
  | .count => .counted table.count

/-- What a comparator does when it is called: it judges, or first it asks something of the table
that is calling it, with a guard or without, and goes on by the answer. -/
inductive Conduct (Record : Type)
  | judges (ordering : Ordering)
  | looks (glance : Glance) (next : Sight Record → Conduct Record)
  | asks (question : Question Record) (next : Finding Record → Conduct Record)

/-- How many calls the guard of a debug build admits at the same time. -/
def maxInside : Nat := 1

section

variable (table : Table Record) (conduct : Key → Key → Conduct Record)

mutual

/-- `Asks inside question after lookup`: with so many calls active inside the table, this is what a
question comes to, and so many are active afterwards. -/
inductive Asks : Nat → Question Record → Nat → Lookup (Finding Record) → Prop
  | refused {inside : Nat} {question : Question Record} (full : maxInside ≤ inside) :
    Asks inside question inside ⟨none, []⟩
  | admitted {inside after : Nat} {question : Question Record} {lookup : Lookup (List Record)}
      (room : inside < maxInside)
      (walks : Walks (inside + 1) question.single (table.probe question)
        (table.candidates (table.probe question)) after lookup) :
    Asks inside question (after - 1) (lookup.map question.finding)

/-- The comparator is called for one candidate after the other. -/
inductive Walks : Nat → Bool → Key → List Record → Nat → Lookup (List Record) → Prop
  | nil {inside : Nat} {single : Bool} {probe : Key} :
    Walks inside single probe [] inside ⟨some [], []⟩
  | ended {inside after : Nat} {single : Bool} {probe : Key} {record : Record}
      {rest : List Record} {calls : List (Key × Key)}
      (compares : Acts inside (conduct (table.boundKey record) probe) after ⟨none, calls⟩) :
    Walks inside single probe (record :: rest) after
      ⟨none, (table.boundKey record, probe) :: calls⟩
  | differs {inside between after : Nat} {single : Bool} {probe : Key} {record : Record}
      {rest : List Record} {ordering : Ordering} {calls : List (Key × Key)}
      {later : Lookup (List Record)}
      (compares : Acts inside (conduct (table.boundKey record) probe) between
        ⟨some ordering, calls⟩)
      (unequal : ordering ≠ .eq) (walks : Walks between single probe rest after later) :
    Walks inside single probe (record :: rest) after
      ⟨later.found?, (table.boundKey record, probe) :: calls ++ later.calls⟩
  | first {inside after : Nat} {probe : Key} {record : Record} {rest : List Record}
      {calls : List (Key × Key)}
      (compares : Acts inside (conduct (table.boundKey record) probe) after ⟨some .eq, calls⟩) :
    Walks inside true probe (record :: rest) after
      ⟨some [record], (table.boundKey record, probe) :: calls⟩
  | more {inside between after : Nat} {probe : Key} {record : Record} {rest : List Record}
      {calls : List (Key × Key)} {later : Lookup (List Record)}
      (compares : Acts inside (conduct (table.boundKey record) probe) between ⟨some .eq, calls⟩)
      (walks : Walks between false probe rest after later) :
    Walks inside false probe (record :: rest) after
      ⟨later.found?.map (record :: ·), (table.boundKey record, probe) :: calls ++ later.calls⟩

/-- How a call of the comparator goes on, with the calls that it causes itself. -/
inductive Acts : Nat → Conduct Record → Nat → Lookup Ordering → Prop
  | judges {inside : Nat} {ordering : Ordering} :
    Acts inside (.judges ordering) inside ⟨some ordering, []⟩
  | looks {inside after : Nat} {glance : Glance} {next : Sight Record → Conduct Record}
      {lookup : Lookup Ordering} (acts : Acts inside (next (table.glance glance)) after lookup) :
    Acts inside (.looks glance next) after lookup
  | ended {inside after : Nat} {question : Question Record}
      {next : Finding Record → Conduct Record} {calls : List (Key × Key)}
      (asks : Asks inside question after ⟨none, calls⟩) :
    Acts inside (.asks question next) after ⟨none, calls⟩
  | answered {inside between after : Nat} {question : Question Record}
      {next : Finding Record → Conduct Record} {finding : Finding Record}
      {calls : List (Key × Key)} {later : Lookup Ordering}
      (asks : Asks inside question between ⟨some finding, calls⟩)
      (acts : Acts between (next finding) after later) :
    Acts inside (.asks question next) after ⟨later.found?, calls ++ later.calls⟩

end

end

/-- A run of a table that counts. What changes the table counts as a call inside it; listing the
records and taking the figures does not. -/
inductive Lives [DecidableEq Record] (conduct : Key → Key → Conduct Record) :
    Table Record → Nat → List (Step Record) → Table Record → Nat →
      List (Lookup (Answer Record)) → Prop
  | nil {table : Table Record} {inside : Nat} : Lives conduct table inside [] table inside []
  | refused {table final : Table Record} {inside after : Nat} {change : Change Record}
      {rest : List (Step Record)} {answers : List (Lookup (Answer Record))}
      (full : maxInside ≤ inside) (later : Lives conduct table inside rest final after answers) :
    Lives conduct table inside (.change change :: rest) final after (⟨none, []⟩ :: answers)
  | change {table final : Table Record} {inside after : Nat} {change : Change Record}
      {rest : List (Step Record)} {answers : List (Lookup (Answer Record))}
      (room : inside < maxInside)
      (later : Lives conduct (table.change change) (inside + 1 - 1) rest final after answers) :
    Lives conduct table inside (.change change :: rest) final after
      (⟨some (.changed (table.removed? change)), []⟩ :: answers)
  | ask {table final : Table Record} {inside between after : Nat} {question : Question Record}
      {lookup : Lookup (Finding Record)} {rest : List (Step Record)}
      {answers : List (Lookup (Answer Record))}
      (asks : Asks table conduct inside question between lookup)
      (later : Lives conduct table between rest final after answers) :
    Lives conduct table inside (.ask question :: rest) final after
      (lookup.map .found :: answers)
  | list {table final : Table Record} {inside after : Nat} {rest : List (Step Record)}
      {answers : List (Lookup (Answer Record))}
      (later : Lives conduct table inside rest final after answers) :
    Lives conduct table inside (.list :: rest) final after
      (⟨some (.listed table.toList), []⟩ :: answers)
  | stats {table final : Table Record} {inside after : Nat} {rest : List (Step Record)}
      {answers : List (Lookup (Answer Record))}
      (later : Lives conduct table inside rest final after answers) :
    Lives conduct table inside (.stats :: rest) final after
      (⟨some (.stats table.stats), []⟩ :: answers)

/-- Whatever the table tells, the judgement is the same, and nothing is looked up for it. -/
inductive Conduct.Judges (ordering : Ordering) : Conduct Record → Prop
  | judges : Judges ordering (.judges ordering)
  | looks {glance : Glance} {next : Sight Record → Conduct Record}
      (later : ∀ sight, Judges ordering (next sight)) : Judges ordering (.looks glance next)

/-- Whatever the table tells, something is looked up in it. -/
inductive Conduct.Reenters : Conduct Record → Prop
  | asks {question : Question Record} {next : Finding Record → Conduct Record} :
    Reenters (.asks question next)
  | looks {glance : Glance} {next : Sight Record → Conduct Record}
      (later : ∀ sight, Reenters (next sight)) : Reenters (.looks glance next)

/-- What the code of a comparator may be: a judge never looks anything up in the table that is
calling it, and a re-entrant comparator always does, whatever it would make of an answer. -/
def Conducts (conduct : Key → Key → Conduct Record) : Comparator → Prop
  | .judge compare => ∀ stored probe, (conduct stored probe).Judges (compare stored probe)
  | .reentrant => ∀ stored probe, (conduct stored probe).Reenters

section

variable {table : Table Record} {conduct : Key → Key → Conduct Record} {comparator : Comparator}
  {inside after : Nat} {stored probe : Key}

/-- What a call of the comparator comes to while a lookup is active. -/
def verdict? (comparator : Comparator) (stored probe : Key) : Option Ordering :=
  match comparator with
  | .judge compare => some (compare stored probe)
  | .reentrant => none

private theorem agree?_eq_verdict? (settled : table.comparator? = some comparator)
    (stored probe : Key) :
    table.agree? stored probe = (verdict? comparator stored probe).map (· == .eq) := by
  unfold agree?
  rw [settled]
  cases comparator <;> rfl

/-- A question that is put from inside is refused. -/
theorem asks_full (full : maxInside ≤ inside) {question : Question Record}
    {lookup : Lookup (Finding Record)} :
    Asks table conduct inside question after lookup ↔ after = inside ∧ lookup = ⟨none, []⟩ := by
  constructor
  · intro asks
    cases asks with
    | refused => exact ⟨rfl, rfl⟩
    | admitted room => exact absurd room (Nat.not_lt.mpr full)
  · rintro ⟨rfl, rfl⟩
    exact .refused full

private theorem acts_judges {acting : Conduct Record} {ordering : Ordering}
    (judging : acting.Judges ordering) {lookup : Lookup Ordering} :
    Acts table conduct inside acting after lookup ↔
      after = inside ∧ lookup = ⟨some ordering, []⟩ := by
  induction judging with
  | judges =>
    constructor
    · intro acts
      cases acts
      exact ⟨rfl, rfl⟩
    · rintro ⟨rfl, rfl⟩
      exact .judges
  | looks _ ih =>
    refine Iff.trans ⟨fun acts => ?_, .looks⟩ (ih _)
    cases acts with
    | looks acts => exact acts

/-- The first lookup from inside ends the call of the comparator. -/
theorem acts_reenters (full : maxInside ≤ inside) {acting : Conduct Record}
    (reenters : acting.Reenters) {lookup : Lookup Ordering} :
    Acts table conduct inside acting after lookup ↔ after = inside ∧ lookup = ⟨none, []⟩ := by
  induction reenters with
  | asks =>
    constructor
    · intro acts
      cases acts with
      | ended asks =>
        obtain ⟨rfl, same⟩ := (asks_full full).mp asks
        cases same
        exact ⟨rfl, rfl⟩
      | answered asks => cases ((asks_full full).mp asks).2
    · rintro ⟨rfl, rfl⟩
      exact .ended (.refused full)
  | looks _ ih =>
    refine Iff.trans ⟨fun acts => ?_, .looks⟩ (ih _)
    cases acts with
    | looks acts => exact acts

private theorem acts_full (full : maxInside ≤ inside) (conducts : Conducts conduct comparator)
    {ordering? : Option Ordering} {calls : List (Key × Key)} :
    Acts table conduct inside (conduct stored probe) after ⟨ordering?, calls⟩ ↔
      after = inside ∧ ordering? = verdict? comparator stored probe ∧ calls = [] := by
  rw [← Lookup.mk.injEq]
  cases comparator with
  | judge compare => exact acts_judges (conducts stored probe)
  | reentrant => exact acts_reenters full (conducts stored probe)

/-- The only way to walk the candidates is the search of a table that does not count. -/
theorem Walks.eq_search (full : maxInside ≤ inside) (conducts : Conducts conduct comparator)
    (settled : table.comparator? = some comparator) {single : Bool} {records : List Record}
    {lookup : Lookup (List Record)}
    (walks : Walks table conduct inside single probe records after lookup) :
    after = inside ∧ lookup = table.search single probe records := by
  -- by the candidates: a question from inside is refused, so that no walk is part of another
  induction records generalizing lookup with
  | nil =>
    cases walks
    exact ⟨rfl, rfl⟩
  | cons record rest ih =>
    rw [search]
    dsimp only
    rw [agree?_eq_verdict? settled]
    cases walks with
    | ended compares =>
      obtain ⟨rfl, judged, rfl⟩ := (acts_full full conducts).mp compares
      rw [← judged]
      exact ⟨rfl, rfl⟩
    | @differs _ _ _ _ _ _ _ ordering _ _ compares unequal walks =>
      obtain ⟨rfl, judged, rfl⟩ := (acts_full full conducts).mp compares
      obtain ⟨rfl, rfl⟩ := ih walks
      have apart : (ordering == .eq) = false := beq_eq_false_iff_ne.mpr unequal
      rw [← judged, Option.map_some, apart]
      exact ⟨rfl, rfl⟩
    | first compares =>
      obtain ⟨rfl, judged, rfl⟩ := (acts_full full conducts).mp compares
      rw [← judged]
      exact ⟨rfl, rfl⟩
    | more compares walks =>
      obtain ⟨rfl, judged, rfl⟩ := (acts_full full conducts).mp compares
      obtain ⟨rfl, rfl⟩ := ih walks
      rw [← judged]
      exact ⟨rfl, rfl⟩

private theorem walks_search (full : maxInside ≤ inside) (conducts : Conducts conduct comparator)
    (settled : table.comparator? = some comparator) (single : Bool) (probe : Key)
    (records : List Record) :
    Walks table conduct inside single probe records inside
      (table.search single probe records) := by
  induction records with
  | nil => exact .nil
  | cons record rest ih =>
    have compares : Acts table conduct inside (conduct (table.boundKey record) probe) inside
        ⟨verdict? comparator (table.boundKey record) probe, []⟩ :=
      (acts_full full conducts).mpr ⟨rfl, rfl, rfl⟩
    rw [search]
    dsimp only
    rw [agree?_eq_verdict? settled]
    cases judged : verdict? comparator (table.boundKey record) probe with
    | none =>
      rw [judged] at compares
      exact .ended compares
    | some ordering =>
      rw [judged] at compares
      by_cases equal : ordering = .eq
      · subst equal
        cases single with
        | true => exact .first compares
        | false => exact .more compares ih
      · have apart : (ordering == .eq) = false := beq_eq_false_iff_ne.mpr equal
        rw [Option.map_some, apart]
        exact .differs compares equal ih

/-- A question that is put from outside is admitted, and gives the answer of a table that does not
count. -/
theorem asks_free (conducts : Conducts conduct comparator)
    (settled : table.comparator? = some comparator) {question : Question Record}
    {lookup : Lookup (Finding Record)} :
    Asks table conduct 0 question after lookup ↔ after = 0 ∧ lookup = table.ask question := by
  have full : maxInside ≤ 0 + 1 := Nat.le_refl _
  rw [ask_eq]
  constructor
  · intro asks
    cases asks with
    | refused full => exact absurd full (by decide)
    | admitted room walked =>
      obtain ⟨rfl, rfl⟩ := walked.eq_search full conducts settled
      exact ⟨rfl, rfl⟩
  · rintro ⟨rfl, rfl⟩
    exact .admitted Nat.zero_lt_one (walks_search full conducts settled _ _ _)

theorem perform_cons [DecidableEq Record] (table : Table Record) (step : Step Record)
    (rest : List (Step Record)) :
    table.perform (step :: rest) = (((table.step step).1.perform rest).1,
      (table.step step).2 :: ((table.step step).1.perform rest).2) := rfl

private theorem comparator_change [DecidableEq Record]
    (settled : table.comparator? = some comparator)
    (change : Change Record) : (table.change change).comparator? = some comparator := by
  obtain ⟨_, _, settings⟩ := table.change_settings change
  rw [settings]
  exact settled

/-- A table that counts lives as one that does not, and is left by all calls in the end. -/
theorem lives_iff [DecidableEq Record] (conducts : Conducts conduct comparator)
    (settled : table.comparator? = some comparator) {steps : List (Step Record)}
    {final : Table Record} {answers : List (Lookup (Answer Record))} :
    Lives conduct table 0 steps final after answers ↔
      after = 0 ∧ table.perform steps = (final, answers) := by
  constructor
  · intro lives
    generalize free : 0 = inside at lives
    induction lives with
    | nil =>
      subst free
      exact ⟨rfl, rfl⟩
    | refused full =>
      subst free
      exact absurd full (by decide)
    | change room later ih =>
      subst free
      obtain ⟨rfl, rest⟩ := ih (comparator_change settled _) rfl
      rw [perform_cons, step, rest]
      exact ⟨rfl, rfl⟩
    | ask asks later ih =>
      subst free
      obtain ⟨rfl, rfl⟩ := (asks_free conducts settled).mp asks
      obtain ⟨rfl, rest⟩ := ih settled rfl
      rw [perform_cons, step, rest]
      exact ⟨rfl, rfl⟩
    | list later ih | stats later ih =>
      obtain ⟨rfl, rest⟩ := ih settled free
      rw [perform_cons, step, rest]
      exact ⟨rfl, rfl⟩
  · rintro ⟨rfl, performed⟩
    induction steps generalizing table answers with
    | nil =>
      cases performed
      exact .nil
    | cons step rest ih =>
      cases step with
      | change change =>
        cases performed
        exact .change Nat.zero_lt_one (ih (comparator_change settled change) rfl)
      | ask question =>
        cases performed
        exact .ask ((asks_free conducts settled).mpr ⟨rfl, rfl⟩) (ih settled rfl)
      | list =>
        cases performed
        exact .list (ih settled rfl)
      | stats =>
        cases performed
        exact .stats (ih settled rfl)

end

end ServiceConfig.Table
