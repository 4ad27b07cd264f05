import Mathlib.Data.List.Range
import Mathlib.Data.List.Perm.Subperm
import ServiceConfig.Arena

/-! # Counting what lives in an arena

Whoever keeps a list of the live numbers, each of them once, knows how many there are.
-/

namespace ServiceConfig.Arena

variable {α : Type}

theorem get?_eq_none_of_next_le {arena : Arena α} {number : Nat} (fresh : arena.next ≤ number) :
    arena.get? number = none := by
  by_contra live
  obtain ⟨value, found⟩ := Option.ne_none_iff_exists'.mp live
  have bound := lt_next_of_get? found
  omega

private theorem slots_toList (arena : Arena α) :
    arena.slots.toList = (List.range arena.next).map arena.get? := by
  apply List.ext_getElem
  · simp [next]
  · intro number bound _
    simp [get?, Array.getElem?_eq_getElem (by simpa using bound)]

theorem liveCount_eq_length {arena : Arena α} {numbers : List Nat} (nodup : numbers.Nodup)
    (live : ∀ number, number ∈ numbers ↔ (arena.get? number).isSome) :
    arena.liveCount = numbers.length := by
  have counted : arena.liveCount =
      ((List.range arena.next).filter fun number => (arena.get? number).isSome).length := by
    rw [liveCount, ← Array.countP_toList, slots_toList, List.countP_map,
      List.countP_eq_length_filter]
    rfl
  have same : numbers.Perm
      ((List.range arena.next).filter fun number => (arena.get? number).isSome) := by
    rw [List.perm_ext_iff_of_nodup nodup (List.nodup_range.filter _)]
    intro number
    rw [live, List.mem_filter, List.mem_range]
    constructor
    · intro live
      obtain ⟨value, found⟩ := Option.isSome_iff_exists.mp live
      exact ⟨lt_next_of_get? found, live⟩
    · exact And.right
  rw [counted, same.length_eq]

/-- The live numbers of an arena are at most as many as were handed out. -/
theorem length_le_next {arena : Arena α} {numbers : List Nat} (nodup : numbers.Nodup)
    (live : ∀ number ∈ numbers, (arena.get? number).isSome) : numbers.length ≤ arena.next := by
  have inside : numbers ⊆ List.range arena.next := by
    intro number member
    obtain ⟨value, found⟩ := Option.isSome_iff_exists.mp (live number member)
    exact List.mem_range.mpr (lt_next_of_get? found)
  simpa only [List.length_range] using (nodup.subperm inside).length_le

end ServiceConfig.Arena
