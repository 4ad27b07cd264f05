import Mathlib.Data.List.Nodup
import ServiceConfig.Proofs.Arena
import ServiceConfig.Table.Chain

/-! # What chains spell

A chain spells the list of numbers that its links lead through. The steps that change a chain are
stated on that list: a new number goes to one of its ends, or one number is left out. Links outside
the chain keep everything; links in it keep their label, the record and the hash, and may only lead
elsewhere.
-/

namespace ServiceConfig.Chain

variable {Record : Type} {links other : Arena (Link Record)} {chain : Chain Record}

/-- Following the links from `current?` leads through these numbers and then on to `end?`. -/
inductive Segment (links : Arena (Link Record)) : Option Nat → List Nat → Option Nat → Prop
  | nil {current? : Option Nat} : Segment links current? [] current?
  | cons {number : Nat} {link : Link Record} {rest : List Nat} {end? : Option Nat}
      (found : links.get? number = some link) (behind : Segment links link.next? rest end?) :
      Segment links (some number) (number :: rest) end?

theorem Segment.congr {current? end? : Option Nat} {numbers : List Nat}
    (segment : Segment links current? numbers end?)
    (same : ∀ number ∈ numbers, other.get? number = links.get? number) :
    Segment other current? numbers end? := by
  induction segment with
  | nil => exact .nil
  | cons found _ ih =>
    have here := (same _ (List.mem_cons_self ..)).trans found
    exact .cons here (ih fun number member => same number (List.mem_cons_of_mem _ member))

theorem Segment.isSome {current? end? : Option Nat} {numbers : List Nat}
    (segment : Segment links current? numbers end?) :
    ∀ number ∈ numbers, (links.get? number).isSome := by
  induction segment with
  | nil => simp
  | cons found _ ih =>
    intro number member
    rcases List.mem_cons.mp member with rfl | behind
    · rw [found, Option.isSome_some]
    · exact ih number behind

theorem Segment.append {current? middle? end? : Option Nat} {front back : List Nat}
    (first : Segment links current? front middle?) (second : Segment links middle? back end?) :
    Segment links current? (front ++ back) end? := by
  induction first with
  | nil => exact second
  | cons found _ ih => exact .cons found (ih second)

theorem Segment.of_append {current? end? : Option Nat} {front back : List Nat}
    (segment : Segment links current? (front ++ back) end?) :
    ∃ middle?, Segment links current? front middle? ∧ Segment links middle? back end? := by
  induction front generalizing current? with
  | nil => exact ⟨current?, .nil, segment⟩
  | cons number rest ih =>
    cases segment with
    | cons found behind =>
      obtain ⟨middle?, first, second⟩ := ih behind
      exact ⟨middle?, .cons found first, second⟩

/-- Where the last link of a segment leads can be changed without touching the rest of it. -/
theorem Segment.redirect {current? end? : Option Nat} {numbers : List Nat} {last : Nat}
    (segment : Segment links current? numbers end?) (nodup : numbers.Nodup)
    (ends : numbers.getLast? = some last) (target? : Option Nat) :
    Segment (links.update last ({ · with next? := target? })) current? numbers target? := by
  induction segment with
  | nil => simp at ends
  | @cons number link rest _ found behind ih =>
    obtain ⟨fresh, nodup⟩ := List.nodup_cons.mp nodup
    cases rest with
    | nil =>
      obtain rfl : number = last := by simpa using ends
      have changed : (links.update number ({ · with next? := target? })).get? number =
          some { link with next? := target? } := by
        rw [Arena.get?_update, if_pos rfl, found, Option.map_some]
      exact .cons changed .nil
    | cons next rest =>
      rw [List.getLast?_cons_cons] at ends
      have apart : number ≠ last := fun same => fresh (same ▸ List.mem_of_getLast? ends)
      refine .cons ?_ (ih nodup ends)
      rw [Arena.get?_update, if_neg apart, found]

private theorem walk_none (links : Arena (Link Record)) (steps : Nat) :
    walk links steps none = [] := by
  cases steps <;> rfl

theorem Segment.walk {current? : Option Nat} {numbers : List Nat}
    (segment : Segment links current? numbers none) {steps : Nat}
    (enough : numbers.length ≤ steps) :
    Chain.walk links steps current? = numbers.filterMap links.get? := by
  generalize ending : (none : Option Nat) = end? at segment
  induction segment generalizing steps with
  | nil =>
    subst ending
    exact walk_none links steps
  | cons found _ ih =>
    obtain ⟨steps, rfl⟩ : ∃ more, steps = more + 1 := Nat.exists_eq_add_one.mpr (by
      simp only [List.length_cons] at enough
      omega)
    have rest := ih (by simpa using enough) ending
    rw [Chain.walk, Option.bind_some, found, List.filterMap_cons, found]
    exact congrArg (_ :: ·) rest

/-- What a link says about itself, wherever it leads. -/
def label (links : Arena (Link Record)) (number : Nat) : Option (Record × UInt32) :=
  (links.get? number).map fun link => (link.record, link.hash)

theorem label_of_get? {number : Nat} {link : Link Record}
    (found : links.get? number = some link) :
    label links number = some (link.record, link.hash) := by rw [label, found, Option.map_some]

/-- The records that a list of numbers stands for. -/
def records (links : Arena (Link Record)) (numbers : List Nat) : List Record :=
  numbers.filterMap fun number => (label links number).map Prod.fst

theorem mem_records_iff {record : Record} {numbers : List Nat} :
    record ∈ records links numbers ↔
      ∃ number ∈ numbers, ∃ hash, label links number = some (record, hash) := by
  simp [records]

theorem records_append (links : Arena (Link Record)) (front back : List Nat) :
    records links (front ++ back) = records links front ++ records links back :=
  List.filterMap_append

theorem records_cons {number : Nat} {link : Link Record}
    (found : links.get? number = some link) (rest : List Nat) :
    records links (number :: rest) = link.record :: records links rest := by
  rw [records, List.filterMap_cons, label_of_get? found]
  rfl

theorem records_congr {numbers : List Nat}
    (same : ∀ number ∈ numbers, label other number = label links number) :
    records other numbers = records links numbers :=
  List.filterMap_congr fun number member => by rw [same number member]

theorem isSome_label (links : Arena (Link Record)) (number : Nat) :
    (label links number).isSome = (links.get? number).isSome := by
  rw [label, Option.isSome_map]

private theorem label_redirect (links : Arena (Link Record)) (changed : Nat) (target? : Option Nat)
    (number : Nat) :
    label (links.update changed ({ · with next? := target? })) number = label links number := by
  rw [label, label, Arena.get?_update]
  split
  · rw [Option.map_map]
    rfl
  · rfl

/-- A chain spells a list of numbers if its links lead through them from head to tail. -/
structure Spells (chain : Chain Record) (numbers : List Nat) : Prop where
  linked : Segment chain.links chain.bucket.head? numbers none
  tail : chain.bucket.tail? = numbers.getLast?
  nodup : numbers.Nodup

theorem Spells.fresh {numbers : List Nat} (spells : chain.Spells numbers) :
    chain.links.next ∉ numbers := by
  intro member
  have live := spells.linked.isSome _ member
  rw [Arena.get?_eq_none_of_next_le (Nat.le_refl _)] at live
  cases live

theorem Spells.toList {numbers : List Nat} (spells : chain.Spells numbers) :
    chain.toList = numbers.filterMap chain.links.get? :=
  spells.linked.walk (Arena.length_le_next spells.nodup spells.linked.isSome)

theorem spells_empty (links : Arena (Link Record)) : Spells ⟨.empty, links⟩ [] :=
  ⟨.nil, rfl, List.nodup_nil⟩

theorem label_add (links : Arena (Link Record)) (link : Link Record) (number : Nat) :
    label (links.add link) number =
      if number = links.next then some (link.record, link.hash) else label links number := by
  rw [label, label, Arena.get?_add]
  split <;> rfl

theorem label_pushHead (chain : Chain Record) (record : Record) (hash : UInt32) (number : Nat) :
    label (chain.pushHead record hash).links number =
      if number = chain.links.next then some (record, hash) else label chain.links number :=
  label_add ..

theorem get?_pushHead (chain : Chain Record) (record : Record) (hash : UInt32) {number : Nat}
    (old : number ≠ chain.links.next) :
    (chain.pushHead record hash).links.get? number = chain.links.get? number := by
  rw [pushHead, Arena.get?_add, if_neg old]

theorem Spells.pushHead {numbers : List Nat} (spells : chain.Spells numbers) (record : Record)
    (hash : UInt32) : (chain.pushHead record hash).Spells (chain.links.next :: numbers) where
  linked := by
    have added : (chain.pushHead record hash).links.get? chain.links.next =
        some ⟨record, hash, chain.bucket.head?⟩ := by
      rw [Chain.pushHead, Arena.get?_add, if_pos rfl]
    apply Segment.cons added
    apply spells.linked.congr
    intro number member
    exact get?_pushHead _ _ _ (ne_of_mem_of_not_mem member spells.fresh)
  tail := by
    rw [Chain.pushHead, spells.tail]
    cases numbers with
    | nil => rfl
    | cons first rest => simp [List.getLast?_cons]
  nodup := List.nodup_cons.mpr ⟨spells.fresh, spells.nodup⟩

theorem label_pushTail (chain : Chain Record) (record : Record) (hash : UInt32) (number : Nat) :
    label (chain.pushTail record hash).links number =
      if number = chain.links.next then some (record, hash) else label chain.links number := by
  unfold pushTail
  dsimp only
  split
  · exact label_add ..
  · rw [label_redirect]
    exact label_add ..

theorem Spells.get?_pushTail {numbers : List Nat} (spells : chain.Spells numbers)
    (record : Record) (hash : UInt32) {number : Nat} (old : number ≠ chain.links.next)
    (outside : number ∉ numbers) :
    (chain.pushTail record hash).links.get? number = chain.links.get? number := by
  unfold Chain.pushTail
  dsimp only
  split
  · rw [Arena.get?_add, if_neg old]
  next last ends =>
    have inside : last ∈ numbers := List.mem_of_getLast? (spells.tail.symm.trans ends)
    rw [Arena.get?_update, if_neg (ne_of_mem_of_not_mem inside outside).symm, Arena.get?_add,
      if_neg old]

theorem Spells.pushTail {numbers : List Nat} (spells : chain.Spells numbers) (record : Record)
    (hash : UInt32) : (chain.pushTail record hash).Spells (numbers ++ [chain.links.next]) := by
  have kept : Segment (chain.links.add ⟨record, hash, none⟩) chain.bucket.head? numbers none := by
    apply spells.linked.congr
    intro number member
    rw [Arena.get?_add, if_neg (ne_of_mem_of_not_mem member spells.fresh)]
  have added : (chain.links.add ⟨record, hash, none⟩).get? chain.links.next =
      some ⟨record, hash, none⟩ := by rw [Arena.get?_add, if_pos rfl]
  have nodup : (numbers ++ [chain.links.next]).Nodup :=
    List.nodup_append.mpr ⟨spells.nodup, List.nodup_singleton _, fun number member other new =>
      List.mem_singleton.mp new ▸ ne_of_mem_of_not_mem member spells.fresh⟩
  unfold Chain.pushTail
  dsimp only
  split
  next ends =>
    obtain rfl : numbers = [] := List.getLast?_eq_none_iff.mp (spells.tail.symm.trans ends)
    exact ⟨.cons added .nil, rfl, List.nodup_singleton _⟩
  next last ends =>
    have isLast : numbers.getLast? = some last := spells.tail.symm.trans ends
    have apart : chain.links.next ≠ last :=
      (ne_of_mem_of_not_mem (List.mem_of_getLast? isLast) spells.fresh).symm
    have new := (Arena.get?_update (chain.links.add ⟨record, hash, none⟩)
      ({ · with next? := some chain.links.next }) last chain.links.next).trans
        ((if_neg apart).trans added)
    exact ⟨(kept.redirect spells.nodup isLast _).append (.cons new .nil), by simp, nodup⟩

/-- The search stops at the first link of this very record, and knows the one before it. -/
theorem Segment.locate [DecidableEq Record] {current? : Option Nat} {numbers : List Nat}
    (segment : Segment links current? numbers none) (record : Record) (previous? : Option Nat)
    {steps : Nat} (enough : numbers.length ≤ steps) :
    (∃ front number back link, numbers = front ++ number :: back ∧
      links.get? number = some link ∧ link.record = record ∧ record ∉ records links front ∧
      Chain.locate links record steps previous? current? =
        some ⟨front.getLast?.or previous?, number, link⟩) ∨
    (record ∉ records links numbers ∧
      Chain.locate links record steps previous? current? = none) := by
  generalize ending : (none : Option Nat) = end? at segment
  induction segment generalizing steps previous? with
  | nil =>
    subst ending
    exact .inr ⟨List.not_mem_nil, by cases steps <;> rfl⟩
  | @cons number link rest _ found _ ih =>
    obtain ⟨steps, rfl⟩ : ∃ more, steps = more + 1 := Nat.exists_eq_add_one.mpr (by
      simp only [List.length_cons] at enough
      omega)
    have unfolded : Chain.locate links record (steps + 1) previous? (some number) =
        if link.record = record then some ⟨previous?, number, link⟩
        else Chain.locate links record steps (some number) link.next? := by
      simp only [Chain.locate, bind, Option.bind_some, found]
    rw [unfolded]
    by_cases here : link.record = record
    · exact .inl ⟨[], number, rest, link, rfl, found, here, List.not_mem_nil, if_pos here⟩
    · rw [if_neg here]
      rcases ih (some number) (by simpa using enough) ending with
        ⟨front, other, back, place, rfl, live, same, before, located⟩ | ⟨absent, located⟩
      · refine .inl ⟨number :: front, other, back, place, rfl, live, same, ?_, ?_⟩
        · simp only [records_cons found, List.mem_cons, not_or]
          exact ⟨Ne.symm here, before⟩
        · rw [located]
          cases front with
          | nil => rfl
          | cons next more => simp [List.getLast?_cons]
      · refine .inr ⟨?_, located⟩
        simp only [records_cons found, List.mem_cons, not_or]
        exact ⟨Ne.symm here, absent⟩

theorem Spells.find? [DecidableEq Record] {numbers : List Nat} (spells : chain.Spells numbers)
    (record : Record) :
    (∃ front number back link, numbers = front ++ number :: back ∧
      chain.links.get? number = some link ∧ link.record = record ∧
      record ∉ records chain.links front ∧
      chain.find? record = some ⟨front.getLast?, number, link⟩) ∨
    (record ∉ records chain.links numbers ∧ chain.find? record = none) := by
  have enough := Arena.length_le_next spells.nodup spells.linked.isSome
  simpa only [Option.or_none, Chain.find?] using spells.linked.locate record none enough

theorem label_unlink (chain : Chain Record) (place : Place Record) (number : Nat) :
    label (chain.unlink place).links number =
      if number = place.number then none else label chain.links number := by
  unfold unlink
  dsimp only
  rw [label, Arena.get?_release]
  split
  · rfl
  · cases place.previous? with
    | none => rfl
    | some previous => exact label_redirect ..

theorem get?_unlink (chain : Chain Record) (place : Place Record) {number : Nat}
    (apart : number ≠ place.number) (notBefore : place.previous? ≠ some number) :
    (chain.unlink place).links.get? number = chain.links.get? number := by
  unfold unlink
  dsimp only
  rw [Arena.get?_release, if_neg apart]
  cases before : place.previous? with
  | none => rfl
  | some previous =>
    rw [before] at notBefore
    exact (Arena.get?_update ..).trans (if_neg fun same => notBefore (congrArg some same.symm))

theorem Spells.unlink {front back : List Nat} {number : Nat} {link : Link Record}
    (spells : chain.Spells (front ++ number :: back))
    (found : chain.links.get? number = some link) :
    (chain.unlink ⟨front.getLast?, number, link⟩).Spells (front ++ back) := by
  obtain ⟨middle?, before, rest⟩ := spells.linked.of_append
  obtain ⟨frontNodup, restNodup, apart⟩ := List.nodup_append.mp spells.nodup
  obtain ⟨notBehind, backNodup⟩ := List.nodup_cons.mp restNodup
  have notBefore : number ∉ front := fun member =>
    apart number member number (List.mem_cons_self ..) rfl
  have disjoint : ∀ one ∈ front, one ∉ back := fun one inFront inBack =>
    apart one inFront one (List.mem_cons_of_mem _ inBack) rfl
  cases rest with
  | @cons _ found' _ _ same behind =>
    obtain rfl : found' = link := Option.some.inj (same.symm.trans found)
    have keptBack : Segment (chain.unlink ⟨front.getLast?, number, found'⟩).links
        found'.next? back none := by
      apply behind.congr
      intro one member
      apply get?_unlink
      · exact ne_of_mem_of_not_mem member notBehind
      · exact fun last => disjoint one (List.mem_of_getLast? last) member
    refine ⟨?_, ?_, ?_⟩
    · cases ends : front.getLast? with
      | none =>
        obtain rfl : front = [] := List.getLast?_eq_none_iff.mp ends
        rw [ends] at keptBack
        exact keptBack
      | some previous =>
        rw [ends] at keptBack
        refine Segment.append ?_ keptBack
        apply (before.redirect frontNodup ends found'.next?).congr
        intro one member
        unfold Chain.unlink
        dsimp only
        rw [Arena.get?_release, if_neg (ne_of_mem_of_not_mem member notBefore)]
    · rw [Chain.unlink, spells.tail]
      dsimp only
      cases back with
      | nil => simp
      | cons next rest =>
        have last : (front ++ number :: next :: rest).getLast? =
            (front ++ next :: rest).getLast? := by simp [List.getLast?_append]
        have elsewhere : (front ++ next :: rest).getLast? ≠ some number := by
          intro ends
          rw [List.getLast?_append_cons] at ends
          exact notBehind (List.mem_of_getLast? ends)
        rw [last, if_neg elsewhere]
    · exact spells.nodup.sublist (List.Sublist.append_left (List.sublist_cons_self ..) _)

end ServiceConfig.Chain
