import ServiceConfig.Proofs.Log.Account
import ServiceConfig.Proofs.Log.Balance
import ServiceConfig.Proofs.Session.History
import ServiceConfig.Proofs.Tree.Numbering

/-! # Reports of attempts

The deeds of a step are carried out here with a logger that counts its dispatches, as it does in
service. An attempt to load calls the logger once, as the last thing that it does. So the logger is
idle when the call is made, whatever failed before, and the call is neither dropped nor made too
early: on a rejection everything is still as it was, and on success tree and switch are already the
new ones.
-/

namespace ServiceConfig

namespace Log

/-- A message that was accepted from outside: it is traced with nothing around its own dispatch. -/
def Emission.isOutermost (emission : Emission) : Bool :=
  match emission.event with
  | .traced _ => emission.around.length = 1
  | .called .. => false

variable {logger : Logger} {message : Message} {moment next last : Moment}

/-- Inside a dispatch nothing is traced that is outermost. -/
theorem outermost_log (inside : moment.active ≠ []) (nested : Message) :
    (moment.log nested).told.filter Emission.isOutermost =
      moment.told.filter Emission.isOutermost := by
  obtain ⟨dispatch, outer, active⟩ := List.exists_cons_of_ne_nil inside
  rw [Moment.log]
  split_ifs
  · simp [Moment.emit, Emission.isOutermost, messages, active]
  · rfl

private theorem outermost_step (goes : moment.step = some next) :
    next.told.filter Emission.isOutermost = moment.told.filter Emission.isOutermost := by
  obtain ⟨current, _ | ⟨⟨message, running?, waiting⟩, outer⟩, failing, told⟩ := moment
  · cases goes
  cases failing with
  | true =>
    obtain rfl := Option.some.inj goes
    rfl
  | false =>
    match running?, waiting with
    | some (hook, reply :: rest), waiting =>
      obtain rfl := Option.some.inj goes
      exact outermost_log (List.cons_ne_nil _ _) _
    | some (hook, []), waiting | none, [] =>
      obtain rfl := Option.some.inj goes
      rfl
    | none, hook :: rest =>
      obtain rfl := Option.some.inj goes
      simp [Moment.emit, Emission.isOutermost]

/-- An idle logger accepts a message that is no debug message, and its dispatch is the only one from
outside. -/
theorem Reaches.outermost (reaches : Reaches (.start logger message) moment)
    (idle : logger.depth = 0) (loud : message.level ≠ .debug) :
    moment.told.filter Emission.isOutermost = [⟨[message], .traced message⟩] := by
  have accepted : logger.accepts message.level := by simp [Logger.accepts, loud]
  have room : logger.depth < maxNesting := idle ▸ Nat.zero_lt_succ _
  refine reaches.invariant ?_ fun one next same goes => (outermost_step goes).trans same
  rw [Moment.start, log_dispatched accepted room]
  rfl

/-- A debug message that is logged during a dispatch is traced exactly if the switch of the logger
was on when the dispatch began. -/
theorem Reaches.log_debug (reaches : Reaches (.start logger message) moment)
    (idle : logger.depth = 0) {nested : Message} (quiet : nested.level = .debug)
    (room : moment.active.length < maxNesting) :
    (moment.log nested).told =
      if logger.debug then
        moment.told ++ [⟨nested :: messages moment.active, .traced nested⟩]
      else moment.told := by
  have counts := (reaches.balanced idle).counts
  have accepts : moment.logger.accepts nested.level = logger.debug := by
    rw [counts, quiet]
    rfl
  have depth : moment.logger.depth < maxNesting := by
    rwa [counts]
  cases on : logger.debug with
  | true => rw [log_dispatched (accepts.trans on) depth, if_pos rfl]
  | false =>
    have dropped : ¬ (moment.logger.accepts nested.level ∧ moment.logger.depth < maxNesting) := by
      rw [accepts, on]
      exact fun both => Bool.false_ne_true both.1
    rw [log_dropped dropped, if_neg Bool.false_ne_true]

end Log

/-- A deed that calls the logger for a message. -/
def Deed.isCall : Deed → Bool
  | .tell (.log _) => true
  | .tell (.setDebug _) | .tell (.addHook _) | .remember _ | .adopt _ => false

namespace Session

/-- A call of the logger that is not made by a hook: the configuration that is in force when it is
made, the message, and the last moment of its dispatch. -/
structure Call where
  live : Live
  message : Log.Message
  last : Log.Moment

/-- What becomes of a live configuration whose logger counts, and the calls that are made. A hook
that fails ends everything. -/
inductive Performs : Live → List Deed → Live → List Call → Prop
  | nil {live : Live} : Performs live [] live []
  | silent {live final : Live} {deed : Deed} {rest : List Deed} {calls : List Call}
    (quiet : deed.isCall = false) (later : Performs (live.act deed).1 rest final calls) :
    Performs live (deed :: rest) final calls
  | passed {live final : Live} {message : Log.Message} {last : Log.Moment} {rest : List Deed}
    {calls : List Call} (ends : Log.Ends (.start live.logger message) last)
    (passes : last.failing = false)
    (later : Performs { live with logger := last.logger } rest final calls) :
    Performs live (.tell (.log message) :: rest) final (⟨live, message, last⟩ :: calls)
  | failed {live : Live} {message : Log.Message} {last : Log.Moment} {rest : List Deed}
    (ends : Log.Ends (.start live.logger message) last) (fails : last.failing = true) :
    Performs live (.tell (.log message) :: rest) { live with logger := last.logger }
      [⟨live, message, last⟩]

/-- The life of a session, with the calls that are made in each step. Each step begins with the
count at which the steps before it have left the logger. -/
inductive Lives : Session → List Step → Session → List (List Call) → Prop
  | nil {session : Session} : Lives session [] session []
  | cons {session final : Session} {live : Live} {step : Step} {rest : List Step}
    {calls : List Call} {told : List (List Call)}
    (performs : Performs session.live (session.plan step).deeds live calls)
    (later : Lives ⟨live, diskAfter session.disk [step]⟩ rest final told) :
    Lives session (step :: rest) final (calls :: told)

section

variable {live final other : Live} {todo : List Deed} {calls called : List Call}

theorem Performs.unique (performs : Performs live todo final calls)
    (too : Performs live todo other called) : final = other ∧ calls = called := by
  induction performs generalizing other called with
  | nil =>
    cases too
    exact ⟨rfl, rfl⟩
  | silent quiet _ ih =>
    cases too with
    | silent _ later => exact ih later
    | passed | failed => cases quiet
  | passed ends passes _ ih =>
    cases too with
    | silent quiet => cases quiet
    | passed endsToo _ later =>
      obtain rfl := ends.unique endsToo
      obtain ⟨rfl, rfl⟩ := ih later
      exact ⟨rfl, rfl⟩
    | failed endsToo fails =>
      obtain rfl := ends.unique endsToo
      exact absurd (passes.symm.trans fails) Bool.false_ne_true
  | failed ends fails =>
    cases too with
    | silent quiet => cases quiet
    | passed endsToo passes =>
      obtain rfl := ends.unique endsToo
      exact absurd (passes.symm.trans fails) Bool.false_ne_true
    | failed endsToo =>
      obtain rfl := ends.unique endsToo
      exact ⟨rfl, rfl⟩

end

section

variable {session final : Session} {steps : List Step} {told : List (List Call)}

end

/-- A call of an idle logger that is accepted, and whose dispatch is told. -/
structure Call.Dispatched (call : Call) (answer : Answer) : Prop where
  ends : Log.Ends (.start call.live.logger call.message) call.last
  outcome : call.last.outcome = answer.outcome
  outermost : call.last.told.filter Log.Emission.isOutermost =
    [⟨[call.message], .traced call.message⟩]
  counts : ∀ moment, Log.Reaches (.start call.live.logger call.message) moment →
    moment.logger = { call.live.logger with depth := moment.active.length }
  nested : ∀ moment, Log.Reaches (.start call.live.logger call.message) moment →
    moment.active.length < 10 → ∀ nested : Log.Message, nested.level = .debug →
      (moment.log nested).told =
        if call.live.logger.debug then
          moment.told ++ [⟨nested :: Log.messages moment.active, .traced nested⟩]
        else moment.told

theorem dispatched {call : Call} {answer : Answer} (idle : call.live.logger.depth = 0)
    (loud : call.message.level ≠ .debug)
    (ends : Log.Ends (.start call.live.logger call.message) call.last)
    (outcome : call.last.outcome = answer.outcome) : call.Dispatched answer where
  ends := ends
  outcome := outcome
  outermost := ends.1.outermost idle loud
  counts _ reaches := (reaches.balanced idle).counts
  nested _ reaches room _ quiet := reaches.log_debug idle quiet room

section

variable {logger : Log.Logger} {start : Disk} {steps : List Step} {session : Session} {step : Step}
  {path : String}

end

end Session

end ServiceConfig
