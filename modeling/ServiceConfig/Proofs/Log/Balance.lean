import Mathlib.Logic.Function.Iterate
import ServiceConfig.Proofs.Log.Run

/-! # The count of a logger

At every moment of a run the count of the logger is the number of dispatches that are active, and it
never exceeds the bound. Hooks are only called in between, and what they see of the logger shows
this number. After a step nothing is active, so the count is zero again, and the logger cannot be
told from one that has never dispatched anything.
-/

namespace ServiceConfig.Log

/-- An emission inside at least one dispatch and at most ten. A hook that shows its logger shows how
many there are. -/
def Emission.Counted (logger : Logger) (emission : Emission) : Prop :=
  (1 ≤ emission.around.length ∧ emission.around.length ≤ 10) ∧
    ∀ tag message text, emission.event = .called tag message (some text) →
      text = Logger.describe { logger with depth := emission.around.length }

/-- A moment in the life of this logger that counts as many dispatches as are active. -/
structure Balanced (logger : Logger) (moment : Moment) : Prop where
  counts : moment.logger = { logger with depth := moment.active.length }
  bounded : moment.active.length ≤ maxNesting
  told : ∀ emission ∈ moment.told, emission.Counted logger

namespace Balanced

variable {logger : Logger} {moment next : Moment}

theorem depth (balanced : Balanced logger moment) :
    moment.logger.depth = moment.active.length := congrArg Logger.depth balanced.counts

/-- What is emitted inside the active dispatches is counted, if it tells the logger as it is. -/
theorem emit (balanced : Balanced logger moment) (inside : moment.active ≠ []) {event : Event}
    (shows : ∀ tag message text, event = .called tag message (some text) →
      text = moment.logger.describe) : Balanced logger (moment.emit event) := by
  refine ⟨balanced.counts, balanced.bounded, ?_⟩
  refine List.forall_mem_append.mpr ⟨balanced.told, List.forall_mem_singleton.mpr ?_⟩
  have length : (messages moment.active).length = moment.active.length := List.length_map ..
  refine ⟨⟨?_, ?_⟩, ?_⟩
  · exact length ▸ List.length_pos_iff.mpr inside
  · exact length ▸ balanced.bounded
  · intro tag message text called
    rw [shows tag message text called, balanced.counts]
    exact congrArg (fun depth => Logger.describe { logger with depth }) length.symm

/-- What the innermost dispatch has still to do does not matter. -/
theorem exchange {dispatch other : Active} {outer : List Active}
    (balanced : Balanced logger moment) (active : moment.active = dispatch :: outer)
    (failing : Bool) : Balanced logger ⟨moment.logger, other :: outer, failing, moment.told⟩ := by
  obtain ⟨counts, bounded, told⟩ := balanced
  rw [active] at counts bounded
  exact ⟨counts, bounded, told⟩

/-- A message that is dispatched raises the count with the number of active dispatches. -/
theorem log (balanced : Balanced logger moment) (message : Message) :
    Balanced logger (moment.log message) := by
  by_cases dispatched :
      moment.logger.accepts message.level ∧ moment.logger.depth < maxNesting
  · rw [Moment.log, if_pos dispatched]
    have entered : Balanced logger ⟨moment.logger.enter,
        ⟨message, none, moment.logger.hooksFor message.level⟩ :: moment.active,
        moment.failing, moment.told⟩ := by
      have room : moment.active.length < maxNesting := balanced.depth ▸ dispatched.2
      refine ⟨?_, room, balanced.told⟩
      rw [Logger.enter, balanced.counts]
      rfl
    refine entered.emit (List.cons_ne_nil _ _) ?_
    rintro tag called text ⟨⟩
  · rwa [log_dropped dispatched]

/-- Leaving a dispatch, with or without a failure, lowers both. -/
theorem leave {dispatch : Active} {outer : List Active} (balanced : Balanced logger moment)
    (active : moment.active = dispatch :: outer) (failing : Bool) :
    Balanced logger ⟨moment.logger.leave, outer, failing, moment.told⟩ := by
  have bounded := balanced.bounded
  rw [active, List.length_cons] at bounded
  refine ⟨?_, Nat.le_of_succ_le bounded, balanced.told⟩
  rw [Logger.leave, balanced.counts, active]
  rfl

theorem step (balanced : Balanced logger moment) (goes : moment.step = some next) :
    Balanced logger next := by
  obtain ⟨current, _ | ⟨⟨message, running?, waiting⟩, outer⟩, failing, told⟩ := moment
  · cases goes
  cases failing with
  | true =>
    obtain rfl := Option.some.inj goes
    exact balanced.leave rfl true
  | false =>
    match running?, waiting with
    | some (hook, reply :: rest), waiting =>
      obtain rfl := Option.some.inj goes
      have running : Balanced logger ⟨current, ⟨message, some (hook, rest), waiting⟩ :: outer,
        false, told⟩ := balanced.exchange rfl false
      exact running.log reply
    | some (hook, []), waiting =>
      obtain rfl := Option.some.inj goes
      exact balanced.exchange rfl (hook.fails message)
    | none, hook :: rest =>
      obtain rfl := Option.some.inj goes
      have calling : Balanced logger ⟨current,
          ⟨message, some (hook, hook.replies message), rest⟩ :: outer, false, told⟩ :=
        balanced.exchange rfl false
      refine calling.emit (List.cons_ne_nil _ _) ?_
      intro tag called text same
      obtain ⟨-, -, shown⟩ := Event.called.inj same
      split at shown
      · exact (Option.some.inj shown).symm
      · cases shown
    | none, [] =>
      obtain rfl := Option.some.inj goes
      exact balanced.leave rfl false

end Balanced

/-- In a run from a logger that is inside no dispatch, the count is right at all moments. -/
theorem Reaches.balanced {logger : Logger} {message : Message} {moment : Moment}
    (reaches : Reaches (.start logger message) moment) (fresh : logger.depth = 0) :
    Balanced logger moment := by
  have idle : Balanced logger ⟨logger, [], false, []⟩ := by
    refine ⟨?_, Nat.zero_le _, nofun⟩
    rw [List.length_nil, ← fresh]
  exact reaches.invariant (idle.log message) fun _ _ balanced goes => balanced.step goes

/-- Any number of steps, or as many as there are, lead on. -/
theorem reaches_iterate (steps : Nat) (first : Moment) :
    Reaches first ((fun moment : Moment => moment.step.getD moment)^[steps] first) := by
  induction steps with
  | zero => exact .refl
  | succ steps ih =>
    rw [Function.iterate_succ_apply']
    refine ih.trans ?_
    generalize (fun moment : Moment => moment.step.getD moment)^[steps] first = moment
    cases goes : moment.step with
    | none => exact .refl
    | some next => exact .single goes

private theorem run_depth (logger : Logger) (steps : List Step) :
    (logger.run steps).1.depth = logger.depth := by
  induction steps generalizing logger with
  | nil => rfl
  | cons step rest ih => cases step <;> exact ih _

/-- After any steps, however hooks have failed in them, a logger that counts is like a new one with
its hooks and its switch. Each further message is worked off to the end, and then this holds again.
On the way the count is the number of active dispatches, no more than ten, hooks see this number,
and what is logged inside ten dispatches is dropped without a trace. -/
theorem run_depth_balanced (steps : List Step) :
    let logger := (Logger.empty.run steps).1
    Lives .empty steps logger (Logger.empty.run steps).2 ∧
    logger = ⟨logger.hooks, logger.debug, 0⟩ ∧
    ∀ message,
      (∃ last, Ends (.start logger message) last ∧ last.active = [] ∧ last.logger = logger ∧
        last.outcome = logger.log message) ∧
      ∀ moment, Reaches (.start logger message) moment →
        moment.logger.depth = moment.active.length ∧ moment.active.length ≤ 10 ∧
        (moment.active.length = 10 → ∀ nested, moment.log nested = moment) ∧
        ∀ emission ∈ moment.told, emission.Counted logger := by
  intro logger
  have fresh : logger.depth = 0 := run_depth .empty steps
  refine ⟨lives_iff.mpr rfl, ?_, fun message => ⟨?_, fun moment reaches => ?_⟩⟩
  · rw [← fresh]
  · obtain ⟨told, ends, spells⟩ := ends_log logger message
    refine ⟨_, ends, rfl, rfl, ?_⟩
    rw [Moment.outcome, spells.events]
  · have balanced := reaches.balanced fresh
    refine ⟨balanced.depth, balanced.bounded, fun full nested => log_dropped ?_, balanced.told⟩
    rintro ⟨-, room⟩
    rw [balanced.depth, full] at room
    exact Nat.lt_irrefl _ room

/-- A hook that logs again what it is called with, and fails: at the tenth dispatch inside one
another nothing more is logged, then all are left at once, and the next message gets as far. -/
theorem run_depth_balanced_failing :
    let hook : Hook := ⟨.warning, "w", fun message => [message], true, fun _ => true⟩
    let message : Message := ⟨.warning, "loop", "again"⟩
    let logger := (Logger.empty.run [.addHook hook, .log message]).1
    let full := (fun moment : Moment => moment.step.getD moment)^[19] (.start logger message)
    logger = ⟨[hook], false, 0⟩ ∧ (logger.log message).failed = true ∧
      Reaches (.start logger message) full ∧ full.active.length = 10 ∧ full.log message = full ∧
      (∃ emission ∈ full.told, emission.around.length = 10 ∧ emission.event =
        .called "w" message (some "Logger \x7b hooks: 1, depth: 10, debug: false \x7d")) ∧
      ∀ emission ∈ full.told, emission.Counted logger := by
  intro hook message logger full
  obtain ⟨-, fresh, works⟩ := run_depth_balanced [.addHook hook, .log message]
  have reaches : Reaches (.start logger message) full := reaches_iterate 19 _
  have deep : full.active.length = 10 := by decide
  obtain ⟨-, -, dropped, told⟩ := (works message).2 full reaches
  exact ⟨fresh, by decide, reaches, deep, dropped deep message, by decide, told⟩

end ServiceConfig.Log
