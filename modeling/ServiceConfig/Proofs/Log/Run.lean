import Mathlib.Logic.Relation
import ServiceConfig.Log.Logger

/-! # Dispatches as a run

A logger at work goes from moment to moment. At each moment some dispatches are active inside one
another, and the logger counts them: the count is raised when a dispatch begins and lowered when it
is left, also when it is left because a hook has failed. Nothing here knows how the count will move,
but every run ends with the outcome that `Logger.log` gives, and with the count where it was.
-/

namespace ServiceConfig.Log

/-- An event with the messages of the dispatches that were active then, innermost first. -/
structure Emission where
  around : List Message
  event : Event
  deriving DecidableEq, Repr

/-- A dispatch that is active: its message, the hook that is running with the replies that it has
still to log, and the hooks that are still to be called. -/
structure Active where
  message : Message
  running? : Option (Hook × List Message)
  waiting : List Hook

/-- The logger, whose depth is the count, the active dispatches, innermost first, whether they are
being left because a hook has failed, and what has been emitted so far. -/
structure Moment where
  logger : Logger
  active : List Active
  failing : Bool
  told : List Emission

def messages (active : List Active) : List Message := active.map Active.message

/-- The logger as it is when the innermost dispatch has been left. -/
def Logger.leave (logger : Logger) : Logger := { logger with depth := logger.depth - 1 }

namespace Moment

def emit (moment : Moment) (event : Event) : Moment :=
  { moment with told := moment.told ++ [⟨messages moment.active, event⟩] }

/-- Logs a message: it is dropped, or one more dispatch begins. -/
def log (moment : Moment) (message : Message) : Moment :=
  if moment.logger.accepts message.level ∧ moment.logger.depth < maxNesting then
    emit ⟨moment.logger.enter,
      ⟨message, none, moment.logger.hooksFor message.level⟩ :: moment.active,
      moment.failing, moment.told⟩ (.traced message)
  else moment

/-- One step of the innermost dispatch, or none if no dispatch is active. -/
def step (moment : Moment) : Option Moment :=
  match moment.active with
  | [] => none
  | dispatch :: outer =>
    if moment.failing then some { moment with logger := moment.logger.leave, active := outer }
    else match dispatch.running?, dispatch.waiting with
    | some (hook, reply :: rest), _ =>
      some (log { moment with active := { dispatch with running? := some (hook, rest) } :: outer }
        reply)
    | some (hook, []), _ =>
      some { moment with
        active := { dispatch with running? := none } :: outer,
        failing := hook.fails dispatch.message }
    | none, hook :: rest =>
      some (emit { moment with
          active := { dispatch with
            running? := some (hook, hook.replies dispatch.message), waiting := rest } :: outer }
        (.called hook.tag dispatch.message
          (if hook.showsLogger then some moment.logger.describe else none)))
    | none, [] => some { moment with logger := moment.logger.leave, active := outer }

/-- What a logger does first with a message. -/
def start (logger : Logger) (message : Message) : Moment := log ⟨logger, [], false, []⟩ message

def outcome (moment : Moment) : Outcome := ⟨moment.told.map Emission.event, moment.failing⟩

end Moment

/-- A run leads from one moment to another. -/
def Reaches : Moment → Moment → Prop := Relation.ReflTransGen fun one next => one.step = some next

/-- A run that begins with one moment ends with another. -/
def Ends (first last : Moment) : Prop := Reaches first last ∧ last.step = none

/-- An end leads nowhere but to itself. -/
theorem Reaches.eq_of_ended {last other : Moment} (reaches : Reaches last other)
    (ended : last.step = none) : last = other := by
  rcases reaches.cases_head with same | ⟨next, goes, -⟩
  · exact same
  · rw [ended] at goes
    cases goes

/-- Every moment of a run leads to its end. -/
theorem Ends.reaches {first last moment : Moment} (ends : Ends first last)
    (reaches : Reaches first moment) : Reaches moment last := by
  have steps : Relator.RightUnique fun one next : Moment => one.step = some next :=
    fun _ _ _ here there => Option.some.inj (here.symm.trans there)
  rcases reaches.total_of_right_unique steps ends.1 with onwards | beyond
  · exact onwards
  · rw [Reaches.eq_of_ended beyond ends.2]
    exact .refl

/-- A run has one end. -/
theorem Ends.unique {first last other : Moment} (ends : Ends first last)
    (endsToo : Ends first other) : last = other :=
  (endsToo.reaches ends.1).eq_of_ended ends.2

/-- What holds at the first moment and is kept by each step holds at all moments. -/
theorem Reaches.invariant {first moment : Moment} (reaches : Reaches first moment)
    {holds : Moment → Prop} (begins : holds first)
    (keeps : ∀ one next, holds one → one.step = some next → holds next) : holds moment := by
  induction reaches with
  | refl => exact begins
  | tail _ goes ih => exact keeps _ _ ih goes

section

variable {logger : Logger} {message reply : Message} {hook : Hook} {rest : List Message}
  {waiting : List Hook} {dispatch : Active} {outer active : List Active} {failing : Bool}
  {told : List Emission}

theorem log_dispatched (accepted : logger.accepts message.level)
    (room : logger.depth < maxNesting) :
    Moment.log ⟨logger, active, failing, told⟩ message =
      ⟨logger.enter, ⟨message, none, logger.hooksFor message.level⟩ :: active, failing,
        told ++ [⟨message :: messages active, .traced message⟩]⟩ :=
  if_pos ⟨accepted, room⟩

theorem log_dropped {moment : Moment}
    (dropped : ¬ (moment.logger.accepts message.level ∧ moment.logger.depth < maxNesting)) :
    moment.log message = moment :=
  if_neg dropped

private theorem reaches_unwind : Reaches ⟨logger, dispatch :: outer, true, told⟩
    ⟨logger.leave, outer, true, told⟩ := .single rfl

theorem reaches_leave : Reaches ⟨logger, ⟨message, none, []⟩ :: outer, false, told⟩
    ⟨logger.leave, outer, false, told⟩ := .single rfl

theorem reaches_call :
    Reaches ⟨logger, ⟨message, none, hook :: waiting⟩ :: outer, false, told⟩
      ⟨logger, ⟨message, some (hook, hook.replies message), waiting⟩ :: outer, false,
        told ++ [⟨message :: messages outer, .called hook.tag message
          (if hook.showsLogger then some logger.describe else none)⟩]⟩ := .single rfl

theorem reaches_return :
    Reaches ⟨logger, ⟨message, some (hook, []), waiting⟩ :: outer, false, told⟩
      ⟨logger, ⟨message, none, waiting⟩ :: outer, hook.fails message, told⟩ := .single rfl

theorem reaches_reply :
    Reaches ⟨logger, ⟨message, some (hook, reply :: rest), waiting⟩ :: outer, false, told⟩
      (Moment.log ⟨logger, ⟨message, some (hook, rest), waiting⟩ :: outer, false, told⟩ reply) :=
  .single rfl

end

namespace Outcome

variable {first : Outcome} {next : Unit → Outcome}

theorem andThen_failed (failed : first.failed = true) : first.andThen next = first := if_pos failed

theorem andThen_passed (passed : first.failed = false) :
    first.andThen next = ⟨first.events ++ (next ()).events, (next ()).failed⟩ := by
  rw [andThen, if_neg (by rw [passed]; exact Bool.false_ne_true)]

end Outcome

/-- These emissions are the events of an outcome, all of them inside the dispatches given. -/
structure Spells (around : List Message) (outcome : Outcome) (more : List Emission) : Prop where
  events : more.map Emission.event = outcome.events
  inside : ∀ emission ∈ more, around <:+ emission.around

namespace Spells

variable {around inner : List Message} {first second : Outcome} {more later : List Emission}

theorem quiet : Spells around .quiet [] := ⟨rfl, nofun⟩

theorem cons (event : Event) (spells : Spells around first more) (failed : Bool) :
    Spells around ⟨event :: first.events, failed⟩ (⟨around, event⟩ :: more) :=
  ⟨congrArg (event :: ·) spells.events,
    List.forall_mem_cons.mpr ⟨List.suffix_refl around, spells.inside⟩⟩

private theorem outwards (spells : Spells inner first more) (suffix : around <:+ inner) :
    Spells around first more :=
  ⟨spells.events, fun emission member => suffix.trans (spells.inside emission member)⟩

theorem andThen {next : Unit → Outcome} (spells : Spells around first more)
    (passed : first.failed = false) (continues : Spells around (next ()) later) :
    Spells around (first.andThen next) (more ++ later) := by
  rw [Outcome.andThen_passed passed]
  refine ⟨?_, List.forall_mem_append.mpr ⟨spells.inside, continues.inside⟩⟩
  rw [List.map_append, spells.events, continues.events]

end Spells

/-- From where these dispatches are active, a message is worked off with this outcome, and then the
logger and the dispatches are as before. -/
def WorksOff (logger : Logger) (log : Message → Outcome) : Prop :=
  ∀ message active told, ∃ more,
    Reaches (Moment.log ⟨logger, active, false, told⟩ message)
      ⟨logger, active, (log message).failed, told ++ more⟩ ∧
    Spells (message :: messages active) (log message) more

section

variable {logger : Logger} {log : Message → Outcome}

/-- A hook logs its replies one after the other, up to one that fails. -/
theorem WorksOff.replies (works : WorksOff logger log) (message : Message) (hook : Hook)
    (waiting : List Hook) (outer : List Active) (replies : List Message) (told : List Emission) :
    let outcome := Outcome.forEach log replies
    ∃ left more,
      Reaches ⟨logger, ⟨message, some (hook, replies), waiting⟩ :: outer, false, told⟩
        ⟨logger, ⟨message, some (hook, left), waiting⟩ :: outer, outcome.failed, told ++ more⟩ ∧
      Spells (message :: messages outer) outcome more ∧ (outcome.failed = false → left = []) := by
  induction replies generalizing told with
  | nil =>
    refine ⟨[], [], ?_, .quiet, fun _ => rfl⟩
    rw [List.append_nil]
    exact .refl
  | cons reply rest ih =>
    dsimp only [Outcome.forEach]
    obtain ⟨first, logs, spells⟩ :=
      works reply (⟨message, some (hook, rest), waiting⟩ :: outer) told
    have spells : Spells (message :: messages outer) (log reply) first :=
      spells.outwards (List.suffix_cons _ _)
    cases failed : (log reply).failed with
    | true =>
      rw [failed] at logs
      rw [Outcome.andThen_failed failed, failed]
      exact ⟨rest, first, reaches_reply.trans logs, spells, nofun⟩
    | false =>
      rw [failed] at logs
      obtain ⟨left, more, continues, spellsMore, finished⟩ := ih (told ++ first)
      refine ⟨left, first ++ more, ?_, spells.andThen failed spellsMore, ?_⟩
      · rw [Outcome.andThen_passed failed, ← List.append_assoc]
        exact (reaches_reply.trans logs).trans continues
      · rw [Outcome.andThen_passed failed]
        exact finished

theorem call_eq (logger : Logger) (log : Message → Outcome) (message : Message) (hook : Hook) :
    logger.call log message hook =
      let replied := Outcome.forEach log (hook.replies message)
      ⟨.called hook.tag message (if hook.showsLogger then some logger.describe else none) ::
        replied.events, replied.failed || hook.fails message⟩ := by
  unfold Logger.call
  cases fails : hook.fails message <;> simp [Outcome.andThen_passed]

/-- A hook is called and logs its replies; it fails if one of them does, or else if it is made
to. -/
theorem WorksOff.call (works : WorksOff logger log) (message : Message) (hook : Hook)
    (waiting : List Hook) (outer : List Active) (told : List Emission) :
    let outcome := logger.call log message hook
    ∃ running? more,
      Reaches ⟨logger, ⟨message, none, hook :: waiting⟩ :: outer, false, told⟩
        ⟨logger, ⟨message, running?, waiting⟩ :: outer, outcome.failed, told ++ more⟩ ∧
      Spells (message :: messages outer) outcome more ∧
      (outcome.failed = false → running? = none) := by
  obtain ⟨left, more, replies, spells, finished⟩ :=
    works.replies message hook waiting outer (hook.replies message)
      (told ++ [⟨message :: messages outer, _⟩])
  have calls := reaches_call.trans replies
  rw [List.append_assoc, List.singleton_append] at calls
  rw [call_eq]
  dsimp only
  cases failed : (Outcome.forEach log (hook.replies message)).failed with
  | true =>
    rw [failed] at calls
    exact ⟨_, _, calls, spells.cons _ _, nofun⟩
  | false =>
    obtain rfl := finished failed
    rw [failed] at calls
    exact ⟨none, _, calls.trans reaches_return, spells.cons _ _, fun _ => rfl⟩

/-- A dispatch calls its hooks one after the other, up to one that fails, and then is left. -/
theorem WorksOff.hooks (works : WorksOff logger log) (message : Message) (outer : List Active)
    (hooks : List Hook) (told : List Emission) :
    let outcome := Outcome.forEach (logger.call log message) hooks
    ∃ more,
      Reaches ⟨logger, ⟨message, none, hooks⟩ :: outer, false, told⟩
        ⟨logger.leave, outer, outcome.failed, told ++ more⟩ ∧
      Spells (message :: messages outer) outcome more := by
  induction hooks generalizing told with
  | nil =>
    refine ⟨[], ?_, .quiet⟩
    rw [List.append_nil]
    exact reaches_leave
  | cons hook rest ih =>
    dsimp only [Outcome.forEach]
    obtain ⟨running?, first, calls, spells, finished⟩ := works.call message hook rest outer told
    cases failed : (logger.call log message hook).failed with
    | true =>
      rw [failed] at calls
      rw [Outcome.andThen_failed failed, failed]
      exact ⟨first, calls.trans reaches_unwind, spells⟩
    | false =>
      obtain rfl := finished failed
      rw [failed] at calls
      obtain ⟨more, continues, spellsMore⟩ := ih (told ++ first)
      refine ⟨first ++ more, ?_, spells.andThen failed spellsMore⟩
      rw [Outcome.andThen_passed failed, ← List.append_assoc]
      exact calls.trans continues

end

/-- A message that is dropped is worked off at once. -/
theorem reaches_dropped {logger : Logger} {message : Message}
    (dropped : ¬ (logger.accepts message.level ∧ logger.depth < maxNesting))
    (active : List Active) (told : List Emission) :
    ∃ more,
      Reaches (Moment.log ⟨logger, active, false, told⟩ message)
        ⟨logger, active, Outcome.quiet.failed, told ++ more⟩ ∧
      Spells (message :: messages active) .quiet more := by
  refine ⟨[], ?_, .quiet⟩
  rw [log_dropped dropped, List.append_nil]
  exact .refl

/-- A message that is logged is worked off as `dispatch` has it, if it has the room that is left. -/
theorem worksOff_dispatch {room : Nat} {logger : Logger} (left : room = maxNesting - logger.depth) :
    WorksOff logger (logger.dispatch room) := by
  induction room generalizing logger with
  | zero =>
    intro message active told
    have full : maxNesting ≤ logger.depth := Nat.sub_eq_zero_iff_le.mp left.symm
    exact reaches_dropped (fun ⟨_, room⟩ => Nat.not_lt.mpr full room) active told
  | succ room ih =>
    intro message active told
    have space : logger.depth < maxNesting := Nat.lt_of_sub_pos (left ▸ Nat.succ_pos room)
    by_cases accepted : logger.accepts message.level
    · have inner : room = maxNesting - logger.enter.depth :=
        show room = maxNesting - (logger.depth + 1) by omega
      obtain ⟨more, works, spells⟩ := (ih inner).hooks message active
        (logger.hooksFor message.level) (told ++ [⟨message :: messages active, .traced message⟩])
      rw [List.append_assoc, List.singleton_append] at works
      rw [Logger.dispatch, if_pos accepted, log_dispatched accepted space,
        Outcome.andThen_passed rfl]
      exact ⟨_, works, spells.cons _ _⟩
    · rw [Logger.dispatch, if_neg accepted]
      exact reaches_dropped (fun both => accepted both.1) active told

/-- The run of a message ends with the outcome of the message. The logger is then as before, its
count included, and so it is if a hook has failed. -/
theorem ends_log (logger : Logger) (message : Message) :
    ∃ told, Ends (.start logger message) ⟨logger, [], (logger.log message).failed, told⟩ ∧
      Spells [message] (logger.log message) told := by
  obtain ⟨told, reaches, spells⟩ := worksOff_dispatch rfl message [] []
  exact ⟨told, ⟨reaches, rfl⟩, spells⟩

/-- Whatever run of a message ends, it ends with the outcome of the message. -/
theorem Ends.outcome_eq {logger : Logger} {message : Message} {last : Moment}
    (ends : Ends (.start logger message) last) : last.outcome = logger.log message := by
  obtain ⟨told, endsToo, spells⟩ := ends_log logger message
  obtain rfl := ends.unique endsToo
  rw [Moment.outcome, spells.events]

/-- What becomes of a logger that takes steps, and their outcomes. Each message is worked off from
the count at which the steps before it have left the logger. -/
inductive Lives : Logger → List Step → Logger → List Outcome → Prop
  | nil {logger : Logger} : Lives logger [] logger []
  | log {logger final : Logger} {message : Message} {last : Moment} {rest : List Step}
      {outcomes : List Outcome} (ends : Ends (.start logger message) last)
      (later : Lives last.logger rest final outcomes) :
    Lives logger (.log message :: rest) final (last.outcome :: outcomes)
  | setDebug {logger final : Logger} {on : Bool} {rest : List Step} {outcomes : List Outcome}
      (later : Lives (logger.setDebug on) rest final outcomes) :
    Lives logger (.setDebug on :: rest) final (.quiet :: outcomes)
  | addHook {logger final : Logger} {hook : Hook} {rest : List Step} {outcomes : List Outcome}
      (later : Lives (logger.addHook hook) rest final outcomes) :
    Lives logger (.addHook hook :: rest) final (.quiet :: outcomes)

/-- The life of a logger that counts is the run of one that does not. -/
theorem lives_iff {logger final : Logger} {steps : List Step} {outcomes : List Outcome} :
    Lives logger steps final outcomes ↔ logger.run steps = (final, outcomes) := by
  constructor
  · intro lives
    induction lives with
    | nil => rfl
    | @log logger final message last rest outcomes ends later ih =>
      have outcome := ends.outcome_eq
      obtain ⟨told, endsToo, -⟩ := ends_log logger message
      obtain rfl := ends.unique endsToo
      rw [Logger.run, Logger.step]
      dsimp only
      rw [ih, outcome]
    | setDebug later ih | addHook later ih =>
      rw [Logger.run, Logger.step]
      dsimp only
      rw [ih]
  · intro run
    induction steps generalizing logger outcomes with
    | nil =>
      cases run
      exact .nil
    | cons step rest ih =>
      cases step with
      | log message =>
        cases run
        obtain ⟨told, ends, -⟩ := ends_log logger message
        have later : Lives logger rest (logger.run rest).1 (logger.run rest).2 := ih rfl
        have lives := Lives.log ends later
        rwa [ends.outcome_eq] at lives
      | setDebug on =>
        cases run
        exact .setDebug (ih rfl)
      | addHook hook =>
        cases run
        exact .addHook (ih rfl)

end ServiceConfig.Log
