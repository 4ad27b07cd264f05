import ServiceConfig.Proofs.Log.Run

/-! # Accounts of dispatches

The account of a message tells more than its events: which of the logger's hooks was called, by its
number, and when a hook was done. It is given for hooks that do not fail. An outcome is what is left
of the account when the first failing hook that is done ends everything, and without failing hooks
it is the whole account. In an account each dispatch is closed in itself: the message is traced,
then the hooks registered for its level are called one after the other, and what a hook logs is told
between its call and the moment when it is done.
-/

namespace ServiceConfig.Log

/-- What an account tells: an event, with the hook that was called, or that a hook is done with a
message. -/
inductive Mark
  | traced (message : Message)
  | called (number : Nat) (hook : Hook) (message : Message) (logger? : Option String)
  | done (number : Nat) (hook : Hook) (message : Message)

namespace Mark

/-- What can be observed of a mark. -/
def event? : Mark → Option Event
  | .traced message => some (.traced message)
  | .called _ hook message logger? => some (.called hook.tag message logger?)
  | .done .. => none

/-- Whether a hook fails when it is done. -/
def fails : Mark → Bool
  | .done _ hook message => hook.fails message
  | .traced _ | .called .. => false

def outcome (mark : Mark) : Outcome := ⟨mark.event?.toList, mark.fails⟩

end Mark

/-- The events that an account tells of. -/
def eventsOf (account : List Mark) : List Event := account.filterMap Mark.event?

/-- What is left of an account when the first hook that fails ends everything. -/
def cut : List Mark → Outcome := Outcome.forEach Mark.outcome

/-- The hooks for a level with their numbers, in the order in which they were added. -/
def registered (hooks : List Hook) (level : Level) : List (Hook × Nat) :=
  hooks.zipIdx.filter (·.1.level = level)

namespace Logger

/-- The account of the call of a hook; `log` gives the accounts of what it logs. -/
def callAccount (logger : Logger) (log : Message → List Mark) (message : Message)
    (numbered : Hook × Nat) : List Mark :=
  let shown? := if numbered.1.showsLogger then some logger.describe else none
  .called numbered.2 numbered.1 message shown? ::
    (numbered.1.replies message).flatMap log ++ [.done numbered.2 numbered.1 message]

/-- The account of a message where so many dispatches fit inside one another. -/
def accountFrom : (room : Nat) → Logger → Message → List Mark
  | 0, _, _ => []
  | room + 1, logger, message =>
    if logger.accepts message.level then
      .traced message :: (registered logger.hooks message.level).flatMap
        (logger.enter.callAccount (accountFrom room logger.enter) message)
    else []

def account (logger : Logger) (message : Message) : List Mark :=
  accountFrom (maxNesting - logger.depth) logger message

end Logger

namespace Outcome

variable {α β : Type}

private theorem andThen_assoc (first : Outcome) (second third : Unit → Outcome) :
    (first.andThen second).andThen third =
      first.andThen fun _ => (second ()).andThen third := by
  cases failed : first.failed with
  | true => rw [andThen_failed failed, andThen_failed failed, andThen_failed failed]
  | false =>
    rw [andThen_passed failed, andThen_passed failed]
    cases failedToo : (second ()).failed with
    | true => rw [andThen_failed rfl, andThen_failed failedToo, failedToo]
    | false =>
      rw [andThen_passed rfl, andThen_passed failedToo]
      dsimp only
      rw [List.append_assoc]

private theorem andThen_quiet (first : Outcome) : (first.andThen fun _ => quiet) = first := by
  cases failed : first.failed with
  | true => exact andThen_failed failed
  | false =>
    rw [andThen_passed failed]
    obtain ⟨events, _⟩ := first
    cases failed
    exact congrArg (Outcome.mk · false) (List.append_nil events)

private theorem forEach_append (run : α → Outcome) (front back : List α) :
    forEach run (front ++ back) = (forEach run front).andThen fun _ => forEach run back := by
  induction front with
  | nil => rfl
  | cons item rest ih => rw [List.cons_append, forEach, forEach, ih, andThen_assoc]

private theorem forEach_flatMap (run : α → Outcome) (parts : β → List α) (items : List β) :
    forEach run (items.flatMap parts) = forEach (fun item => forEach run (parts item)) items := by
  induction items with
  | nil => rfl
  | cons item rest ih => rw [List.flatMap_cons, forEach_append, ih, forEach]

private theorem forEach_map (run : α → Outcome) (change : β → α) (items : List β) :
    forEach run (items.map change) = forEach (fun item => run (change item)) items := by
  induction items with
  | nil => rfl
  | cons item rest ih => rw [List.map_cons, forEach, forEach, ih]

end Outcome

section

variable {first second account : List Mark}

theorem eventsOf_append : eventsOf (first ++ second) = eventsOf first ++ eventsOf second :=
  List.filterMap_append

theorem registered_map_fst (hooks : List Hook) (level : Level) :
    (registered hooks level).map Prod.fst = hooks.filter (·.level = level) := by
  have numbered : (hooks.zipIdx.map Prod.fst).filter (·.level = level) =
      (registered hooks level).map Prod.fst := List.filter_map
  rw [← numbered, List.zipIdx_map_fst]

private theorem cut_cons (mark : Mark) :
    cut (mark :: account) = mark.outcome.andThen fun _ => cut account := rfl

private theorem cut_singleton (mark : Mark) : cut [mark] = mark.outcome := Outcome.andThen_quiet _

private theorem cut_append : cut (first ++ second) = (cut first).andThen fun _ => cut second :=
  Outcome.forEach_append ..

/-- An account without failing hooks is left whole. -/
theorem cut_passed (passes : ∀ mark ∈ account, mark.fails = false) :
    cut account = ⟨eventsOf account, false⟩ := by
  induction account with
  | nil => rfl
  | cons mark rest ih =>
    obtain ⟨passed, later⟩ := List.forall_mem_cons.mp passes
    rw [cut_cons, Outcome.andThen_passed passed, ih later]
    cases mark <;> rfl

theorem cut_failed_eq (account : List Mark) : (cut account).failed = account.any Mark.fails := by
  induction account with
  | nil => rfl
  | cons mark rest ih =>
    rw [cut_cons, List.any_cons]
    cases fails : mark.fails with
    | true =>
      have failed : mark.outcome.failed = true := fails
      rw [Outcome.andThen_failed failed, failed, Bool.true_or]
    | false =>
      have passed : mark.outcome.failed = false := fails
      rw [Outcome.andThen_passed passed, Bool.false_or]
      exact ih

/-- An account that is not cut short is told as a whole. -/
theorem cut_events (passed : (cut account).failed = false) :
    (cut account).events = eventsOf account := by
  rw [cut_failed_eq] at passed
  have passes : ∀ mark ∈ account, mark.fails = false := fun mark member =>
    Bool.eq_false_iff.mpr (List.any_eq_false.mp passed mark member)
  exact congrArg Outcome.events (cut_passed passes)

/-- What is left of an account is how it begins. -/
theorem cut_begins (account : List Mark) : (cut account).events <+: eventsOf account := by
  induction account with
  | nil => exact List.prefix_refl []
  | cons mark rest ih =>
    have told : eventsOf (mark :: rest) = mark.outcome.events ++ eventsOf rest := by
      cases mark <;> rfl
    rw [told, cut_cons]
    cases failed : mark.outcome.failed with
    | true =>
      rw [Outcome.andThen_failed failed]
      exact List.prefix_append _ _
    | false =>
      rw [Outcome.andThen_passed failed]
      exact (List.prefix_append_right_inj _).mpr ih

/-- A hook that fails ends the account, if none has failed before. -/
theorem cut_failed {number : Nat} {hook : Hook} {message : Message}
    (passes : ∀ mark ∈ first, mark.fails = false) (fails : hook.fails message = true) :
    cut (first ++ .done number hook message :: second) = ⟨eventsOf first, true⟩ := by
  have stops : (Mark.outcome (.done number hook message)).failed = true := fails
  rw [cut_append, cut_passed passes, Outcome.andThen_passed rfl, cut_cons,
    Outcome.andThen_failed stops, stops]
  exact congrArg (Outcome.mk · true) (List.append_nil _)

/-- A hook that is called logs its replies up to one that fails, and then may fail itself. -/
theorem cut_call (logger : Logger) (log : Message → List Mark) (message : Message)
    (numbered : Hook × Nat) :
    cut (logger.callAccount log message numbered) =
      logger.call (fun message => cut (log message)) message numbered.1 := by
  have replied : cut ((numbered.1.replies message).flatMap log) =
      Outcome.forEach (fun reply => cut (log reply)) (numbered.1.replies message) :=
    Outcome.forEach_flatMap ..
  have finishes : (Mark.done numbered.2 numbered.1 message).outcome =
      ⟨[], numbered.1.fails message⟩ := rfl
  rw [call_eq, ← replied, Logger.callAccount]
  dsimp only
  rw [List.cons_append, cut_cons, Outcome.andThen_passed rfl, cut_append, cut_singleton,
    finishes]
  cases failed : (cut ((numbered.1.replies message).flatMap log)).failed with
  | true =>
    rw [Outcome.andThen_failed failed, failed]
    rfl
  | false =>
    rw [Outcome.andThen_passed failed, List.append_nil]
    rfl

/-- Every outcome is the account of the message, up to the first hook that fails. -/
theorem dispatch_eq_cut (room : Nat) (logger : Logger) (message : Message) :
    logger.dispatch room message = cut (logger.accountFrom room message) := by
  induction room generalizing logger message with
  | zero => rfl
  | succ room ih =>
    rw [Logger.dispatch, Logger.accountFrom]
    split
    · have logs : logger.enter.dispatch room =
          fun message => cut (logger.enter.accountFrom room message) := funext (ih logger.enter)
      rw [cut_cons, cut, Outcome.forEach_flatMap, ← cut, Logger.hooksFor, ← registered_map_fst,
        Outcome.forEach_map, logs]
      simp only [cut_call]
      rfl
    · rfl

theorem log_eq_cut (logger : Logger) (message : Message) :
    logger.log message = cut (logger.account message) := dispatch_eq_cut ..

end

/-- The call of a hook with what is told until the hook is done: which of its replies are
dispatched, and the account of these. -/
structure Call where
  number : Nat
  hook : Hook
  shown? : Option String
  replied : List Message
  logged : List Mark

def Call.marks (call : Call) (message : Message) : List Mark :=
  .called call.number call.hook message call.shown? :: call.logged ++
    [.done call.number call.hook message]

/-- These messages are dispatched one after the other, and this is the account of it. The message is
traced first. Then each hook that is registered for its level is called with it, in the order in
which they were added, and all that a hook logs is told before it is done. -/
inductive Orderly (hooks : List Hook) : List Message → List Mark → Prop
  | nil : Orderly hooks [] []
  | dispatch {message : Message} {calls : List Call} {messages : List Message} {later : List Mark}
      (serves : calls.map (fun call => (call.hook, call.number)) = registered hooks message.level)
      (replies : ∀ call ∈ calls, call.replied.Sublist (call.hook.replies message))
      (inside : ∀ call ∈ calls, Orderly hooks call.replied call.logged)
      (continues : Orderly hooks messages later) :
    Orderly hooks (message :: messages)
      (.traced message :: calls.flatMap (·.marks message) ++ later)

section

variable {hooks : List Hook} {messages later : List Message} {first second account : List Mark}

/-- Where in the account of a dispatch a hook is called: by the dispatch itself, inside one of its
calls, or behind it. -/
theorem called_mem_dispatch {message other : Message} {calls : List Call} {later : List Mark}
    {number : Nat} {hook : Hook} {shown? : Option String} :
    .called number hook other shown? ∈
        .traced message :: calls.flatMap (·.marks message) ++ later ↔
      (∃ call ∈ calls, call.number = number ∧ call.hook = hook ∧ message = other ∧
          call.shown? = shown? ∨ .called number hook other shown? ∈ call.logged) ∨
        .called number hook other shown? ∈ later := by
  simp [Call.marks, eq_comm]

theorem Orderly.append (orderly : Orderly hooks messages first)
    (continues : Orderly hooks later second) :
    Orderly hooks (messages ++ later) (first ++ second) := by
  induction orderly with
  | nil => exact continues
  | dispatch serves replies inside _ _ ih =>
    rw [List.cons_append, List.append_assoc]
    exact .dispatch serves replies inside ih

/-- Messages of which some are dropped are dispatched one after the other if each of them is. -/
theorem Orderly.flatMap {log : Message → List Mark} {admits : Message → Bool}
    (orderly : ∀ message, Orderly hooks ([message].filter admits) (log message))
    (messages : List Message) : Orderly hooks (messages.filter admits) (messages.flatMap log) := by
  induction messages with
  | nil => exact .nil
  | cons message rest ih =>
    have both := (orderly message).append ih
    rwa [← List.filter_append] at both

/-- Whether a message is dispatched where so many dispatches fit inside one another. -/
def Logger.admits (room : Nat) (logger : Logger) (message : Message) : Bool :=
  logger.accepts message.level && room ≠ 0

private theorem orderly_accountFrom (room : Nat) (logger : Logger) (message : Message) :
    Orderly logger.hooks ([message].filter (logger.admits room))
      (logger.accountFrom room message) := by
  induction room generalizing logger message with
  | zero =>
    have dropped : logger.admits 0 message = false := Bool.and_false _
    rw [List.filter_cons, dropped]
    exact .nil
  | succ room ih =>
    have admits : logger.admits (room + 1) message = logger.accepts message.level :=
      Bool.and_true _
    rw [Logger.accountFrom, List.filter_cons, admits]
    split
    · let called (numbered : Hook × Nat) : Call :=
        ⟨numbered.2, numbered.1,
          if numbered.1.showsLogger then some logger.enter.describe else none,
          (numbered.1.replies message).filter (logger.enter.admits room),
          (numbered.1.replies message).flatMap (logger.enter.accountFrom room)⟩
      let calls := (registered logger.hooks message.level).map called
      have dispatched : Orderly logger.hooks [message]
          (.traced message :: calls.flatMap (·.marks message) ++ []) := by
        refine .dispatch ?_ ?_ ?_ .nil
        · rw [List.map_map]
          exact List.map_id _
        · exact List.forall_mem_map.mpr fun numbered _ => List.filter_sublist
        · exact List.forall_mem_map.mpr fun numbered _ =>
            .flatMap (ih logger.enter) (numbered.1.replies message)
      rw [List.flatMap_map, List.append_nil] at dispatched
      exact dispatched
    · exact .nil

theorem orderly_account (logger : Logger) (message : Message) :
    ∃ messages, messages.Sublist [message] ∧
      Orderly logger.hooks messages (logger.account message) :=
  ⟨_, List.filter_sublist, orderly_accountFrom ..⟩

end

end ServiceConfig.Log
