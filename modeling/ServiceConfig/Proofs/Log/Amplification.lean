import Mathlib.Algebra.Order.BigOperators.Group.List
import Mathlib.Algebra.Ring.GeomSum
import ServiceConfig.Proofs.Log.Account
import ServiceConfig.Proofs.Log.Erasure

/-! # How many messages one message sets off

Hooks may set each other off in circles, within a level or across levels, and only the bound on
nesting ends this. With the largest number of messages that the hooks of one level log together as
the branching, what a message sets off is a tree of at most ten generations. The tree is complete if
the hooks of every level log that many, nothing is dropped for being a debug message and no hook
fails.
-/

namespace ServiceConfig.Log

def Event.isTraced : Event → Bool
  | .traced _ => true
  | .called .. => false

/-- How many messages of an account are forwarded to the trace. -/
def forwarded (account : List Mark) : Nat := (eventsOf account).countP Event.isTraced

/-- All that the hooks of a message's level log about it when each of them runs once. -/
def Logger.repliesFor (logger : Logger) (message : Message) : List Message :=
  (logger.hooksFor message.level).flatMap (·.replies message)

section

variable {first second : List Mark}

private theorem forwarded_append :
    forwarded (first ++ second) = forwarded first + forwarded second := by
  rw [forwarded, eventsOf_append, List.countP_append, forwarded, forwarded]

private theorem forwarded_flatMap {α : Type} (items : List α) (parts : α → List Mark) :
    forwarded (items.flatMap parts) = (items.map fun item => forwarded (parts item)).sum := by
  induction items with
  | nil => rfl
  | cons item rest ih => rw [List.flatMap_cons, forwarded_append, ih, List.map_cons, List.sum_cons]

/-- The call of a hook is not forwarded itself, but what the hook logs is. -/
theorem forwarded_callAccount (logger : Logger) (log : Message → List Mark) (message : Message)
    (numbered : Hook × Nat) :
    forwarded (logger.callAccount log message numbered) =
      forwarded ((numbered.1.replies message).flatMap log) := by
  rw [Logger.callAccount, List.cons_append, ← List.singleton_append, forwarded_append,
    forwarded_append]
  exact Nat.zero_add _

end

section

variable {logger : Logger} {message : Message} {branching : Nat}

private theorem repliesFor_eq (logger : Logger) (message : Message) :
    logger.repliesFor message =
      (registered logger.hooks message.level).flatMap fun numbered =>
        numbered.1.replies message := by
  rw [Logger.repliesFor, Logger.hooksFor, ← registered_map_fst, List.flatMap_map]

/-- A message that is dispatched is forwarded, and so is what the hooks of its level log. -/
theorem forwarded_accepted (accepted : logger.accepts message.level = true) (room : Nat) :
    forwarded (logger.accountFrom (room + 1) message) =
      ((logger.repliesFor message).map fun reply =>
        forwarded (logger.enter.accountFrom room reply)).sum + 1 := by
  rw [← forwarded_flatMap, repliesFor_eq, List.flatMap_assoc, Logger.accountFrom, if_pos accepted,
    ← List.singleton_append, forwarded_append, forwarded_flatMap, forwarded_flatMap, Nat.add_comm]
  simp only [forwarded_callAccount]
  rfl

/-- In each generation there are at most as many messages as in a complete tree. -/
theorem forwarded_le (most : ∀ message, (logger.repliesFor message).length ≤ branching) (room : Nat)
    (message : Message) :
    forwarded (logger.accountFrom room message) ≤
      ∑ generation ∈ Finset.range room, branching ^ generation := by
  induction room generalizing logger message with
  | zero => exact Nat.zero_le _
  | succ room ih =>
    cases accepted : logger.accepts message.level with
    | false =>
      rw [Logger.accountFrom, accepted]
      exact Nat.zero_le _
    | true =>
      have mostInside : ∀ message, (logger.enter.repliesFor message).length ≤ branching := most
      rw [forwarded_accepted accepted, geom_sum_succ]
      have each := List.sum_le_card_nsmul _ _ (List.forall_mem_map.mpr fun reply
        (_ : reply ∈ logger.repliesFor message) => ih mostInside reply)
      rw [List.length_map, Nat.nsmul_eq_mul] at each
      exact Nat.succ_le_succ (each.trans (Nat.mul_le_mul_right _ (most message)))

/-- The tree is complete if the hooks of each level log equally many messages. -/
theorem forwarded_eq (debug : logger.debug = true)
    (even : ∀ message, (logger.repliesFor message).length = branching) (room : Nat)
    (message : Message) :
    forwarded (logger.accountFrom room message) =
      ∑ generation ∈ Finset.range room, branching ^ generation := by
  induction room generalizing logger message with
  | zero => rfl
  | succ room ih =>
    have accepted : logger.accepts message.level = true := by
      rw [Logger.accepts, debug, Bool.or_true]
    have debugInside : logger.enter.debug = true := debug
    have evenInside : ∀ message, (logger.enter.repliesFor message).length = branching := even
    rw [forwarded_accepted accepted, geom_sum_succ]
    have each := List.sum_eq_card_nsmul _ _ (List.forall_mem_map.mpr fun reply
      (_ : reply ∈ logger.repliesFor message) => ih debugInside evenInside reply)
    rw [each, List.length_map, even, Nat.nsmul_eq_mul]

end

/-- A message that is logged while no other is dispatched sets off at most as many as ten complete
generations hold, where the hooks of a level log no more than `branching` messages together, and
exactly as many if the hooks of all levels log that many, debug messages are dispatched and no hook
fails. -/
theorem log_amplification (logger : Logger) (top : logger.depth = 0) {branching : Nat}
    (most : ∀ called, (logger.repliesFor called).length ≤ branching) (message : Message) :
    (logger.log message).events.countP Event.isTraced ≤
        ∑ generation ∈ Finset.range 10, branching ^ generation ∧
      ((∀ called, (logger.repliesFor called).length = branching) → logger.debug = true →
        (logger.log message).failed = false →
        (logger.log message).events.countP Event.isTraced =
          ∑ generation ∈ Finset.range 10, branching ^ generation) := by
  have room : maxNesting - logger.depth = 10 := by rw [top]; rfl
  have short : logger.log message = cut (logger.accountFrom 10 message) := by
    rw [log_eq_cut, Logger.account, room]
  rw [short]
  constructor
  · calc (cut (logger.accountFrom 10 message)).events.countP Event.isTraced
      _ ≤ forwarded (logger.accountFrom 10 message) := (cut_begins _).sublist.countP_le
      _ ≤ _ := forwarded_le most ..
  · intro even debug passed
    rw [cut_events passed]
    exact forwarded_eq debug even 10 message

/-- At every level a hook logs the message once more and one debug message: of ten generations
nothing is missing. -/
theorem log_amplification_complete :
    let echo (level : Level) : Hook :=
      ⟨level, "e", fun message => [message, { message with level := .debug }], false,
        fun _ => false⟩
    let logger : Logger := ⟨[.debug, .notice, .warning, .error, .unknown].map echo, true, 0⟩
    logger.depth = 0 ∧ (∀ called, (logger.repliesFor called).length = 2) ∧
      (logger.log ⟨.error, "hash", "boom"⟩).events.countP Event.isTraced = 1023 := by
  intro echo logger
  have even : ∀ called, (logger.repliesFor called).length = 2 := by
    rintro ⟨_ | _ | _ | _ | _, source, text⟩ <;> rfl
  have calm : ∀ hook ∈ logger.hooks, ∀ called, hook.fails called = false :=
    List.forall_mem_map.mpr fun level _ called => rfl
  obtain ⟨-, fills⟩ := log_amplification logger rfl (fun called => (even called).le)
    ⟨.error, "hash", "boom"⟩
  exact ⟨rfl, even, fills even rfl (log_passed calm _)⟩

end ServiceConfig.Log
