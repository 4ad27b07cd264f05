import Mathlib.Data.List.Basic
import ServiceConfig.Proofs.Log.Account

/-! # A failing hook cuts an account short

The account of a message is the same whether or not hooks fail, and a logger whose hooks have been
calmed tells all of it. With failing hooks the events end with what was logged by the first of them
to be done: that one is the innermost, since a hook is done only after all that it has set off. From
then on all dispatches are left, and no further hook is called.
-/

namespace ServiceConfig.Log

/-- The hook as it would be if it never failed. -/
def Hook.calm (hook : Hook) : Hook := { hook with fails := fun _ => false }

def Logger.calm (logger : Logger) : Logger := { logger with hooks := logger.hooks.map Hook.calm }

def Mark.calm : Mark → Mark
  | .traced message => .traced message
  | .called number hook message shown? => .called number hook.calm message shown?
  | .done number hook message => .done number hook.calm message

/-- An account and the part of it that ends with what was logged by the first failing hook to be
done. Up to there no hook has failed. -/
inductive FirstFailure (hooks : List Hook) : List Mark → List Mark → Prop
  | intro {before logged after : List Mark} {number : Nat} {hook : Hook} {message : Message}
      {shown? : Option String} {replied : List Message}
      (fails : hook.fails message = true) (first : ∀ mark ∈ before ++ logged, mark.fails = false)
      (inside : Orderly hooks replied logged) :
    FirstFailure hooks
      (before ++ .called number hook message shown? :: logged ++
        .done number hook message :: after)
      (before ++ .called number hook message shown? :: logged)

section

variable {account : List Mark}

private theorem registered_calm (hooks : List Hook) (level : Level) :
    registered (hooks.map Hook.calm) level =
      (registered hooks level).map (Prod.map Hook.calm id) := by
  rw [registered, registered, List.zipIdx_map, List.filter_map]
  rfl

private theorem describe_calm (logger : Logger) : logger.calm.describe = logger.describe := by
  unfold Logger.describe
  rw [show logger.calm.hooks.length = logger.hooks.length from List.length_map _]
  rfl

private theorem callAccount_calm (logger : Logger) (log : Message → List Mark) (message : Message)
    (numbered : Hook × Nat) :
    logger.calm.callAccount (fun message => (log message).map Mark.calm) message
        (Prod.map Hook.calm id numbered) =
      (logger.callAccount log message numbered).map Mark.calm := by
  unfold Logger.callAccount
  rw [describe_calm, List.map_append, List.map_cons, List.map_flatMap]
  rfl

private theorem accountFrom_calm (room : Nat) (logger : Logger) (message : Message) :
    logger.calm.accountFrom room message = (logger.accountFrom room message).map Mark.calm := by
  induction room generalizing logger message with
  | zero => rfl
  | succ room ih =>
    have accepts : logger.calm.accepts message.level = logger.accepts message.level := rfl
    rw [Logger.accountFrom, Logger.accountFrom, accepts]
    split
    · have logs : logger.calm.enter.accountFrom room =
          fun message => (logger.enter.accountFrom room message).map Mark.calm :=
        funext (ih logger.enter)
      have hooks : logger.calm.hooks = logger.hooks.map Hook.calm := rfl
      rw [logs, hooks, registered_calm, List.flatMap_map, List.map_cons, List.map_flatMap]
      simp only [← callAccount_calm]
      rfl
    · rfl

private theorem eventsOf_calm (account : List Mark) :
    eventsOf (account.map Mark.calm) = eventsOf account := by
  have same : Mark.event? ∘ Mark.calm = Mark.event? := funext fun mark => by cases mark <;> rfl
  rw [eventsOf, List.filterMap_map, same, eventsOf]

/-- A logger whose hooks have been calmed tells the whole account. -/
theorem log_calm (logger : Logger) (message : Message) :
    logger.calm.log message = ⟨eventsOf (logger.account message), false⟩ := by
  have calmed : logger.calm.account message = (logger.account message).map Mark.calm :=
    accountFrom_calm ..
  have passes : ∀ mark ∈ logger.calm.account message, mark.fails = false := by
    rw [calmed]
    refine List.forall_mem_map.mpr fun mark _ => ?_
    cases mark <;> rfl
  rw [log_eq_cut, cut_passed passes, calmed, eventsOf_calm]

end

/-- Each hook that is done in this account was called in it, and what lies between is the account of
messages that are dispatched one after the other. -/
def Closed (hooks : List Hook) (account : List Mark) : Prop :=
  ∀ front number hook message back, account = front ++ .done number hook message :: back →
    ∃ before shown? replied logged,
      front = before ++ .called number hook message shown? :: logged ∧ Orderly hooks replied logged

namespace Closed

variable {hooks : List Hook} {first second : List Mark}

theorem nil : Closed hooks [] := by
  intro front number hook message back same
  cases front <;> cases same

theorem append (closed : Closed hooks first) (closedToo : Closed hooks second) :
    Closed hooks (first ++ second) := by
  intro front number hook message back same
  rcases List.append_eq_append_iff.mp same with ⟨middle, rfl, later⟩ | ⟨middle, rfl, later⟩
  · obtain ⟨before, shown?, replied, logged, rfl, inside⟩ :=
      closedToo middle number hook message back later
    exact ⟨first ++ before, shown?, replied, logged, (List.append_assoc ..).symm, inside⟩
  · cases middle with
    | nil =>
      obtain ⟨before, shown?, replied, logged, empty, inside⟩ :=
        closedToo [] number hook message back later.symm
      cases before <;> cases empty
    | cons mark rest =>
      obtain ⟨rfl, rfl⟩ := List.cons.inj later
      exact closed front number hook message rest rfl

theorem flatMap {α : Type} {items : List α} {parts : α → List Mark}
    (closed : ∀ item ∈ items, Closed hooks (parts item)) : Closed hooks (items.flatMap parts) := by
  induction items with
  | nil => exact nil
  | cons item rest ih =>
    obtain ⟨first, later⟩ := List.forall_mem_cons.mp closed
    exact first.append (ih later)

theorem traced (message : Message) : Closed hooks [.traced message] := by
  rintro (_ | ⟨mark, _ | ⟨other, front⟩⟩) number hook message back same <;> cases same

/-- A hook is done behind all that it has logged. -/
theorem call {call : Call} (closed : Closed hooks call.logged)
    (inside : Orderly hooks call.replied call.logged) (message : Message) :
    Closed hooks (call.marks message) := by
  rintro (_ | ⟨mark, front⟩) number hook other back same
  · cases same
  obtain ⟨rfl, behind⟩ := List.cons.inj same
  rcases List.eq_nil_or_concat' back with rfl | ⟨back, last, rfl⟩
  · -- the hook is the one that was called
    obtain ⟨rfl, itself⟩ := List.append_inj' behind rfl
    cases itself
    exact ⟨[], call.shown?, call.replied, call.logged, rfl, inside⟩
  · have behind : call.logged ++ [.done call.number call.hook message] =
        front ++ .done number hook other :: back ++ [last] :=
      behind.trans (List.append_assoc front (.done number hook other :: back) [last]).symm
    obtain ⟨split, -⟩ := List.append_inj' behind rfl
    obtain ⟨before, shown?, replied, logged, rfl, orderly⟩ :=
      closed front number hook other back split
    exact ⟨_ :: before, shown?, replied, logged, rfl, orderly⟩

end Closed

theorem Orderly.closed {hooks : List Hook} {messages : List Message} {account : List Mark}
    (orderly : Orderly hooks messages account) : Closed hooks account := by
  induction orderly with
  | nil => exact .nil
  | dispatch serves replies inside _ closed ih =>
    refine ((Closed.traced _).append (.flatMap fun call member => ?_)).append ih
    exact (closed call member).call (inside call member) _

theorem Call.done_mem (call : Call) (message : Message) :
    .done call.number call.hook message ∈ call.marks message :=
  List.mem_append_right _ (List.mem_singleton_self _)

/-- A hook that is called is done in the end. -/
theorem Orderly.done_of_called {hooks : List Hook} {messages : List Message}
    {account : List Mark} (orderly : Orderly hooks messages account) {number : Nat} {hook : Hook}
    {message : Message} {shown? : Option String}
    (called : .called number hook message shown? ∈ account) :
    .done number hook message ∈ account := by
  induction orderly with
  | nil => cases called
  | dispatch serves replies inside _ finishes ih =>
    rcases called_mem_dispatch.mp called with ⟨call, member, itself | nested⟩ | behind
    · obtain ⟨rfl, rfl, rfl, -⟩ := itself
      apply List.mem_append_left
      exact List.mem_cons_of_mem _ (List.mem_flatMap.mpr ⟨call, member, call.done_mem _⟩)
    · have finished : .done number hook message ∈ call.logged := finishes call member nested
      apply List.mem_append_left
      refine List.mem_cons_of_mem _ (List.mem_flatMap.mpr ⟨call, member, ?_⟩)
      exact List.mem_append_left _ (List.mem_cons_of_mem _ finished)
    · exact List.mem_append_right _ (ih behind)

theorem Moment.step_failing {one next : Moment} (goes : one.step = some next)
    (failing : one.failing = true) : next.failing = true ∧ next.told = one.told := by
  obtain ⟨logger, _ | ⟨dispatch, outer⟩, _, told⟩ := one
  · cases goes
  · cases failing
    obtain rfl := Option.some.inj goes
    exact ⟨rfl, rfl⟩

/-- From the moment when a hook has failed nothing more is told. -/
theorem Reaches.told_failing {one next : Moment} (reaches : Reaches one next)
    (failing : one.failing = true) : next.failing = true ∧ next.told = one.told := by
  induction reaches with
  | refl => exact ⟨failing, rfl⟩
  | tail _ goes ih =>
    obtain ⟨still, same⟩ := Moment.step_failing goes ih.1
    exact ⟨still, same.trans ih.2⟩

private theorem told_failing {logger : Logger} {message : Message} {moment : Moment}
    (reaches : Reaches (.start logger message) moment) (failing : moment.failing = true) :
    moment.told.map Emission.event = (logger.log message).events := by
  obtain ⟨told, ends, spells⟩ := ends_log logger message
  have same : told = moment.told := ((ends.reaches reaches).told_failing failing).2
  rw [← same, spells.events]

section

variable {hooks : List Hook} {messages : List Message} {account : List Mark}

/-- In an account in which a hook fails there is a first one to be done. -/
theorem Orderly.exists_firstFailure (orderly : Orderly hooks messages account)
    (failed : account.any Mark.fails = true) :
    ∃ told, FirstFailure hooks account told ∧ told <+: account ∧
      cut account = ⟨eventsOf told, true⟩ := by
  obtain ⟨mark, found⟩ := Option.isSome_iff_exists.mp
    (List.find?_isSome.mpr (List.any_eq_true.mp failed))
  obtain ⟨fails, front, back, rfl, first⟩ := List.find?_eq_some_iff_append.mp found
  have passes : ∀ mark ∈ front, mark.fails = false := fun mark member =>
    (Bool.not_eq_true' _).mp (first mark member)
  cases mark with
  | traced | called => cases fails
  | done number hook message =>
    obtain ⟨before, shown?, replied, logged, rfl, inside⟩ :=
      orderly.closed front number hook message back rfl
    refine ⟨_, .intro fails (fun mark member => passes mark ?_) inside, List.prefix_append _ _,
      cut_failed passes fails⟩
    rcases List.mem_append.mp member with earlier | nested
    · exact List.mem_append_left _ earlier
    · exact List.mem_append_right _ (List.mem_cons_of_mem _ nested)

theorem FirstFailure.exists_called {told : List Mark} (first : FirstFailure hooks account told) :
    ∃ number hook message shown?, .called number hook message shown? ∈ account ∧
      hook.fails message = true := by
  obtain @⟨before, logged, after, number, hook, message, shown?, replied, fails, -, -⟩ := first
  refine ⟨number, hook, message, shown?, ?_, fails⟩
  exact List.mem_append_left _ (List.mem_append_right _ (List.mem_cons_self ..))

/-- A hook that fails is done by failing if it is called at all. -/
theorem Orderly.any_fails_iff (orderly : Orderly hooks messages account) :
    account.any Mark.fails = true ↔
      ∃ number hook message shown?, .called number hook message shown? ∈ account ∧
        hook.fails message = true := by
  constructor
  · intro failed
    obtain ⟨told, first, -, -⟩ := orderly.exists_firstFailure failed
    exact first.exists_called
  · rintro ⟨number, hook, message, shown?, called, fails⟩
    exact List.any_eq_true.mpr ⟨_, orderly.done_of_called called, fails⟩

end

/-- Removing the failures from all hooks leaves a logger that tells the whole account of a message.
A message fails exactly when a hook that fails is called in it. Then its events end with what was
logged by the first of these hooks to be done, and from the moment of the failure on nothing more
is told; otherwise the events are those of the whole account. -/
theorem log_truncated (logger : Logger) (message : Message) :
    let account := logger.account message
    let whole := (logger.calm.log message).events
    let outcome := logger.log message
    (eventsOf account = whole ∧
      ∃ messages, messages.Sublist [message] ∧ Orderly logger.hooks messages account) ∧
    (outcome.failed = true ↔
      ∃ number hook called shown?, .called number hook called shown? ∈ account ∧
        hook.fails called = true) ∧
    (outcome.failed = false → outcome.events = whole) ∧
    (outcome.failed = true →
      outcome.events <+: whole ∧
      (∃ told, FirstFailure logger.hooks account told ∧ outcome.events = eventsOf told) ∧
      ∀ moment, Reaches (.start logger message) moment → moment.failing = true →
        moment.told.map Emission.event = outcome.events) := by
  intro account whole outcome
  have all : whole = eventsOf account := congrArg Outcome.events (log_calm logger message)
  obtain ⟨messages, dispatched, orderly⟩ := orderly_account logger message
  have short : outcome = cut account := log_eq_cut logger message
  refine ⟨⟨all.symm, messages, dispatched, orderly⟩, ?_⟩
  cases failed : account.any Mark.fails with
  | true =>
    obtain ⟨told, first, start, left⟩ := orderly.exists_firstFailure failed
    rw [short, left, all]
    refine ⟨iff_of_true rfl (orderly.any_fails_iff.mp failed), nofun, fun _ => ⟨?_, ?_, ?_⟩⟩
    · exact start.filterMap Mark.event?
    · exact ⟨told, first, rfl⟩
    · intro moment reaches failing
      rw [told_failing reaches failing, show logger.log message = _ from short, left]
  | false =>
    have passed : (cut account).failed = false := (cut_failed_eq account).trans failed
    rw [short, passed, cut_events passed, all]
    refine ⟨iff_of_false Bool.false_ne_true fun called => ?_, fun _ => rfl, nofun⟩
    exact Bool.false_ne_true (failed.symm.trans (orderly.any_fails_iff.mpr called))

/-- Two failing hooks inside one another: the inner one is the first to be done, so that the hook
behind it is not called, nor what the outer one would have logged next. -/
theorem log_truncated_nested :
    let relay : Hook :=
      ⟨.error, "r",
        fun message => [{ message with level := .notice }, { message with level := .warning }],
        false, fun _ => true⟩
    let noisy : Hook :=
      ⟨.notice, "n", fun message => [{ message with level := .debug, text := "noise" }], false,
        fun message => message.source = "hash"⟩
    let logger : Logger := ⟨[relay, noisy, .recorder .notice "l"], true, 0⟩
    let message : Message := ⟨.error, "hash", "boom"⟩
    let notice : Message := ⟨.notice, "hash", "boom"⟩
    (logger.log message).events =
        [.traced message, .called "r" message none, .traced notice, .called "n" notice none,
          .traced ⟨.debug, "hash", "noise"⟩] ∧
      (logger.calm.log message).events = (logger.log message).events ++
        [.called "l" notice none, .traced ⟨.warning, "hash", "boom"⟩] ∧
      (logger.log message).failed = true ∧
      ∃ told, FirstFailure logger.hooks (logger.account message) told ∧
        (logger.log message).events = eventsOf told := by
  intro relay noisy logger message notice
  obtain ⟨-, -, -, truncated⟩ := log_truncated logger message
  have failed : (logger.log message).failed = true := by decide
  exact ⟨by decide, by decide, failed, (truncated failed).2.1⟩

end ServiceConfig.Log
