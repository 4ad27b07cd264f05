/-! # Arenas

An arena stands for a slot map of a third party. What is used of its documentation: the key of a
value is given when the value is put in, and no other value is ever found under it; a key whose
value was removed, alone or with all others, finds nothing from then on; a change of one value
leaves all others as they are; and the number of values is known. Keys have no order there. Here
they are numbers in the order of creation, none of which is handed out twice, and the order serves
only to show that walks along keys end.
-/

namespace ServiceConfig

structure Arena (α : Type) where
  slots : Array (Option α)
  deriving Repr

namespace Arena

variable {α : Type}

def empty : Arena α := ⟨#[]⟩

/-- The number that the next value gets. -/
def next (arena : Arena α) : Nat := arena.slots.size

def get? (arena : Arena α) (number : Nat) : Option α := arena.slots[number]?.join

/-- Puts in a value under the next number. -/
def add (arena : Arena α) (value : α) : Arena α := ⟨arena.slots.push (some value)⟩

/-- Replaces the value of a number that is live. -/
def update (arena : Arena α) (number : Nat) (change : α → α) : Arena α :=
  ⟨arena.slots.modify number (·.map change)⟩

def release (arena : Arena α) (number : Nat) : Arena α :=
  ⟨arena.slots.modify number fun _ => none⟩

/-- Releases every number; those to come are still new ones. -/
def releaseAll (arena : Arena α) : Arena α := ⟨arena.slots.map fun _ => none⟩

/-- How many numbers are live. -/
def liveCount (arena : Arena α) : Nat := arena.slots.countP Option.isSome

theorem get?_add (arena : Arena α) (value : α) (number : Nat) :
    (arena.add value).get? number =
      if number = arena.next then some value else arena.get? number := by
  by_cases same : number = arena.slots.size <;> simp [add, get?, next, Array.getElem?_push, same]

theorem get?_update (arena : Arena α) (change : α → α) (changed number : Nat) :
    (arena.update changed change).get? number =
      if number = changed then (arena.get? number).map change else arena.get? number := by
  simp only [update, get?, Array.getElem?_modify]
  by_cases same : changed = number
  · subst same
    cases arena.slots[changed]? <;> simp
  · simp [same, Ne.symm same]

theorem get?_release (arena : Arena α) (released number : Nat) :
    (arena.release released).get? number =
      if number = released then none else arena.get? number := by
  simp only [release, get?, Array.getElem?_modify]
  by_cases same : released = number
  · subst same
    cases arena.slots[released]? <;> simp
  · simp [same, Ne.symm same]

@[simp]
theorem get?_releaseAll (arena : Arena α) (number : Nat) :
    arena.releaseAll.get? number = none := by
  simp only [releaseAll, get?, Array.getElem?_map]
  cases arena.slots[number]? <;> rfl

@[simp]
theorem get?_empty (number : Nat) : (empty : Arena α).get? number = none := rfl

theorem lt_next_of_get? {arena : Arena α} {number : Nat} {value : α}
    (found : arena.get? number = some value) : number < arena.next := by
  unfold get? at found
  unfold next
  by_cases inside : number < arena.slots.size
  · exact inside
  · simp [Array.getElem?_eq_none (Nat.le_of_not_lt inside)] at found

@[simp]
theorem next_update (arena : Arena α) (number : Nat) (change : α → α) :
    (arena.update number change).next = arena.next := by
  simp [update, next]

@[simp]
theorem next_release (arena : Arena α) (number : Nat) :
    (arena.release number).next = arena.next := by
  simp [release, next]

@[simp]
theorem next_add (arena : Arena α) (value : α) : (arena.add value).next = arena.next + 1 := by
  simp [add, next]

@[simp]
theorem liveCount_add (arena : Arena α) (value : α) :
    (arena.add value).liveCount = arena.liveCount + 1 := by
  simp [add, liveCount]

/-- Releasing a live number leaves one less. -/
theorem liveCount_release {arena : Arena α} {number : Nat} {value : α}
    (found : arena.get? number = some value) :
    (arena.release number).liveCount + 1 = arena.liveCount := by
  have inside := lt_next_of_get? found
  unfold get? at found
  unfold next at inside
  simp only [Array.getElem?_eq_getElem inside, Option.join_some] at found
  have split : arena.slots.toList =
      arena.slots.toList.take number ++ some value :: arena.slots.toList.drop (number + 1) := by
    rw [← found, ← Array.getElem_toList, List.getElem_cons_drop, List.take_append_drop]
  have changed : (arena.release number).slots.toList =
      arena.slots.toList.take number ++ none :: arena.slots.toList.drop (number + 1) := by
    simp only [release, Array.toList_modify]
    rw [List.modify_eq_take_cons_drop (by simpa using inside)]
  unfold liveCount
  rw [← Array.countP_toList, ← Array.countP_toList, changed]
  conv => rhs; rw [split]
  simp [List.countP_append, Nat.add_assoc]

end Arena

end ServiceConfig
