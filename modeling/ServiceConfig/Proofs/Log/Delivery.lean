import Mathlib.Data.List.Count
import Mathlib.Data.List.Nodup
import ServiceConfig.Proofs.Log.Account

/-! # What hooks are called with

In a run in which no hook fails the outcome of each step is its whole account. So within each
dispatch the message is traced and then every hook of its level is called once with that message, in
the order in which the hooks were added, and what a hook logs is told before the next one is called.
Counting over any part of a run, each hook that was there when the part began has been called as
often as messages of its level were traced.
-/

namespace ServiceConfig.Log

namespace Mark

/-- Whether the hook with a number is called. -/
def calls (number : Nat) : Mark → Bool
  | .called other .. => other = number
  | .traced _ | .done .. => false

/-- Whether a message of a level is traced. -/
def traces (level : Level) : Mark → Bool
  | .traced message => message.level = level
  | .called .. | .done .. => false

section

variable {number other : Nat} {hook : Hook} {message : Message} {shown? : Option String}
  {level : Level}

@[simp]
theorem calls_called : (called other hook message shown?).calls number = decide (other = number) :=
  rfl

@[simp]
theorem calls_traced : (traced message).calls number = false := rfl

@[simp]
theorem calls_done : (done other hook message).calls number = false := rfl

@[simp]
theorem traces_called : (called other hook message shown?).traces level = false := rfl

@[simp]
theorem traces_traced : (traced message).traces level = decide (message.level = level) := rfl

@[simp]
theorem traces_done : (done other hook message).traces level = false := rfl

end

end Mark

def Event.traces (level : Level) : Event → Bool
  | .traced message => message.level = level
  | .called .. => false

namespace Logger

def stepAccount (logger : Logger) : Step → List Mark
  | .log message => logger.account message
  | .setDebug _ | .addHook _ => []

/-- The accounts of the steps of a run. -/
def accounts (logger : Logger) : List Step → List (List Mark)
  | [] => []
  | step :: rest => logger.stepAccount step :: (logger.step step).1.accounts rest

end Logger

/-- A run tells what its accounts tell. In the accounts each dispatch is orderly, a hook is called
only with messages of its level, and from any step on a hook that has been added by then is called
as often as messages of its level are traced. -/
structure Delivers (logger : Logger) (steps : List Step) (accounts : List (List Mark)) : Prop where
  told : (logger.run steps).2.map Outcome.events = accounts.map eventsOf
  orderly : ∀ before message after, steps = before ++ .log message :: after →
    ∃ account replied, accounts[before.length]? = some account ∧ replied.Sublist [message] ∧
      Orderly (logger.run before).1.hooks replied account
  suits : ∀ account ∈ accounts, ∀ number hook message shown?,
    .called number hook message shown? ∈ account → hook.level = message.level
  once : ∀ before after, steps = before ++ after →
    ∀ number hook, (logger.run before).1.hooks[number]? = some hook →
      (accounts.drop before.length).flatten.countP (·.calls number) =
        (((logger.run steps).2.drop before.length).flatMap Outcome.events).countP
          (·.traces hook.level)

section

variable {hooks : List Hook} {messages : List Message} {account : List Mark} {number : Nat}
  {hook : Hook}

private theorem countP_eventsOf (account : List Mark) (level : Level) :
    (eventsOf account).countP (·.traces level) = account.countP (·.traces level) := by
  rw [eventsOf, List.countP_filterMap]
  exact List.countP_congr fun mark _ => by cases mark <;> rfl

/-- Among the hooks registered for a level each hook of this level stands once. -/
private theorem countP_registered (found : hooks[number]? = some hook) (level : Level) :
    (registered hooks level).countP (·.2 = number) = if level = hook.level then 1 else 0 := by
  classical
  have member : (hook, number) ∈ hooks.zipIdx := List.mem_zipIdx_iff_getElem?.mpr found
  have distinct : hooks.zipIdx.Nodup := by
    apply List.Nodup.of_map Prod.snd
    rw [List.zipIdx_map_snd]
    exact List.nodup_range'
  rw [registered, List.countP_filter]
  split
  next same =>
    rw [← List.count_eq_one_of_mem distinct member, List.count]
    refine List.countP_congr fun numbered inside => ?_
    have other : hooks[numbered.2]? = some numbered.1 := List.mem_zipIdx_iff_getElem?.mp inside
    simp only [Bool.and_eq_true, decide_eq_true_eq, beq_iff_eq]
    constructor
    · rintro ⟨rfl, -⟩
      exact Prod.ext (Option.some.inj (other.symm.trans found)) rfl
    · rintro rfl
      exact ⟨rfl, same.symm⟩
  next differs =>
    refine List.countP_eq_zero.mpr fun numbered inside both => ?_
    have other : hooks[numbered.2]? = some numbered.1 := List.mem_zipIdx_iff_getElem?.mp inside
    simp only [Bool.and_eq_true, decide_eq_true_eq] at both
    obtain ⟨rfl, rfl⟩ := both
    exact differs (congrArg Hook.level (Option.some.inj (other.symm.trans found)))

/-- The calls of one dispatch are those of its own hooks and those that are told in between. -/
private theorem countP_calls {level : Level} {message : Message} {calls : List Call}
    (inside : ∀ call ∈ calls,
      call.logged.countP (·.calls number) = call.logged.countP (·.traces level)) :
    (calls.flatMap (·.marks message)).countP (·.calls number) =
      calls.countP (·.number = number) +
        (calls.flatMap (·.marks message)).countP (·.traces level) := by
  induction calls with
  | nil => rfl
  | cons call rest ih =>
    obtain ⟨first, later⟩ := List.forall_mem_cons.mp inside
    have behind := ih later
    have nested : (call.marks message).countP (·.calls number) =
        (if call.number = number then 1 else 0) + (call.marks message).countP (·.traces level) := by
      simp [Call.marks, List.countP_cons, first, Nat.add_comm]
    rw [List.flatMap_cons, List.countP_append, List.countP_append, List.countP_cons, nested, behind]
    simp only [decide_eq_true_eq]
    omega

/-- A hook is called once for each message of its level that is traced. -/
theorem Orderly.once (orderly : Orderly hooks messages account)
    (found : hooks[number]? = some hook) :
    account.countP (·.calls number) = account.countP (·.traces hook.level) := by
  induction orderly with
  | nil => rfl
  | @dispatch message calls messages later serves replies inside _ ih ihLater =>
    have own : calls.countP (·.number = number) = if message.level = hook.level then 1 else 0 := by
      rw [← countP_registered found, ← serves, List.countP_map]
      rfl
    rw [List.countP_append, List.countP_append, List.countP_cons, List.countP_cons,
      countP_calls ih, own, ihLater]
    simp only [Mark.calls_traced, Mark.traces_traced, decide_eq_true_eq, Bool.false_eq_true,
      if_false]
    omega

theorem Orderly.suits (orderly : Orderly hooks messages account) {message : Message}
    {shown? : Option String} (called : .called number hook message shown? ∈ account) :
    hook.level = message.level := by
  induction orderly with
  | nil => cases called
  | dispatch serves replies inside _ ih ihLater =>
    rcases called_mem_dispatch.mp called with ⟨call, member, itself | nested⟩ | behind
    · obtain ⟨-, rfl, rfl, -⟩ := itself
      have own : (call.hook, call.number) ∈ registered hooks _ :=
        serves ▸ List.mem_map_of_mem member
      exact of_decide_eq_true (List.mem_filter.mp own).2
    · exact ih call member nested
    · exact ihLater behind

end

namespace Logger

variable {logger : Logger} {number : Nat} {hook : Hook}

theorem run_cons (logger : Logger) (step : Step) (rest : List Step) :
    logger.run (step :: rest) = (((logger.step step).1.run rest).1,
      (logger.step step).2 :: ((logger.step step).1.run rest).2) := rfl

theorem run_append (logger : Logger) (before after : List Step) :
    logger.run (before ++ after) =
      (((logger.run before).1.run after).1,
        (logger.run before).2 ++ ((logger.run before).1.run after).2) := by
  induction before generalizing logger with
  | nil => rfl
  | cons step rest ih =>
    rw [List.cons_append, run_cons, ih, run_cons, List.cons_append]

private theorem length_run (logger : Logger) (steps : List Step) :
    (logger.run steps).2.length = steps.length := by
  induction steps generalizing logger with
  | nil => rfl
  | cons step rest ih => exact congrArg (· + 1) (ih _)

private theorem accounts_append (logger : Logger) (before after : List Step) :
    logger.accounts (before ++ after) =
      logger.accounts before ++ (logger.run before).1.accounts after := by
  induction before generalizing logger with
  | nil => rfl
  | cons step rest ih => exact congrArg (logger.stepAccount step :: ·) (ih _)

private theorem length_accounts (logger : Logger) (steps : List Step) :
    (logger.accounts steps).length = steps.length := by
  induction steps generalizing logger with
  | nil => rfl
  | cons step rest ih => exact congrArg (· + 1) (ih _)

private theorem orderly_stepAccount (logger : Logger) (step : Step) :
    ∃ messages, Orderly logger.hooks messages (logger.stepAccount step) := by
  cases step with
  | log message =>
    obtain ⟨messages, -, orderly⟩ := orderly_account logger message
    exact ⟨messages, orderly⟩
  | setDebug | addHook => exact ⟨[], .nil⟩

/-- A hook keeps its number in all later steps. -/
theorem step_hooks (found : logger.hooks[number]? = some hook) (step : Step) :
    (logger.step step).1.hooks[number]? = some hook := by
  cases step with
  | log | setDebug => exact found
  | addHook added =>
    obtain ⟨inside, -⟩ := List.getElem?_eq_some_iff.mp found
    exact (List.getElem?_append_left inside).trans found

private theorem accounts_once (found : logger.hooks[number]? = some hook) (steps : List Step) :
    (logger.accounts steps).flatten.countP (·.calls number) =
      (logger.accounts steps).flatten.countP (·.traces hook.level) := by
  induction steps generalizing logger with
  | nil => rfl
  | cons step rest ih =>
    obtain ⟨messages, orderly⟩ := logger.orderly_stepAccount step
    rw [accounts, List.flatten_cons, List.countP_append, List.countP_append, orderly.once found,
      ih (step_hooks found step)]

private theorem accounts_suits {account : List Mark} {steps : List Step}
    (member : account ∈ logger.accounts steps) {message : Message} {shown? : Option String}
    (called : .called number hook message shown? ∈ account) : hook.level = message.level := by
  induction steps generalizing logger with
  | nil => cases member
  | cons step rest ih =>
    rcases List.mem_cons.mp member with rfl | later
    · obtain ⟨messages, orderly⟩ := logger.orderly_stepAccount step
      exact orderly.suits called
    · exact ih later

/-- A step in which no hook fails tells its whole account. -/
theorem step_told {step : Step} (passed : (logger.step step).2.failed = false) :
    (logger.step step).2.events = eventsOf (logger.stepAccount step) := by
  cases step with
  | log message =>
    have short : logger.log message = cut (logger.account message) := log_eq_cut ..
    change (logger.log message).failed = false at passed
    change (logger.log message).events = eventsOf (logger.account message)
    rw [short] at passed ⊢
    exact cut_events passed
  | setDebug | addHook => rfl

private theorem run_told {steps : List Step}
    (passes : ∀ outcome ∈ (logger.run steps).2, outcome.failed = false) :
    (logger.run steps).2.map Outcome.events = (logger.accounts steps).map eventsOf := by
  induction steps generalizing logger with
  | nil => rfl
  | cons step rest ih =>
    obtain ⟨passed, later⟩ := List.forall_mem_cons.mp passes
    exact congrArg₂ List.cons (step_told passed) (ih later)

end Logger

/-- Every run in which no hook fails delivers each message to all hooks of its level. -/
theorem run_delivers (logger : Logger) (steps : List Step)
    (passes : ∀ outcome ∈ (logger.run steps).2, outcome.failed = false) :
    Delivers logger steps (logger.accounts steps) where
  told := Logger.run_told passes
  orderly before message after same := by
    obtain ⟨messages, dispatched, orderly⟩ := orderly_account (logger.run before).1 message
    refine ⟨_, messages, ?_, dispatched, orderly⟩
    rw [same, Logger.accounts_append,
      List.getElem?_append_right (Nat.le_of_eq (Logger.length_accounts ..)),
      Logger.length_accounts, Nat.sub_self]
    rfl
  suits account member number hook message shown? called :=
    Logger.accounts_suits member called
  once before after same number hook found := by
    subst same
    rw [Logger.run_append] at passes
    have told := Logger.run_told fun outcome member =>
      passes outcome (List.mem_append_right _ member)
    have accounts : (logger.accounts (before ++ after)).drop before.length =
        (logger.run before).1.accounts after := by
      rw [Logger.accounts_append, List.drop_left' (Logger.length_accounts ..)]
    have outcomes : (logger.run (before ++ after)).2.drop before.length =
        ((logger.run before).1.run after).2 := by
      rw [Logger.run_append]
      exact List.drop_left' (Logger.length_run ..)
    have events : ((logger.run before).1.run after).2.flatMap Outcome.events =
        eventsOf ((logger.run before).1.accounts after).flatten := by
      rw [List.flatMap_def, told]
      exact List.filterMap_flatten.symm
    rw [accounts, outcomes, events, countP_eventsOf, Logger.accounts_once found]

/-- A hook that is added between two errors sees the notice that the second error sets off and the
one that is logged directly, but not the first. -/
theorem run_delivers_added :
    let relay : Hook :=
      ⟨.error, "r", fun message => [{ message with level := .notice, source := "relay" }], false,
        fun _ => false⟩
    let late : Hook := .recorder .notice "l"
    let logger : Logger := ⟨[relay, .recorder .notice "n"], false, 0⟩
    let error : Message := ⟨.error, "hash", "boom"⟩
    let relayed : Message := ⟨.notice, "relay", "boom"⟩
    let direct : Message := ⟨.notice, "hash", "so"⟩
    let steps : List Step := [.log error, .addHook late, .log error, .log direct]
    (∀ outcome ∈ (logger.run steps).2, outcome.failed = false) ∧
      Delivers logger steps (logger.accounts steps) ∧
      ((logger.accounts steps).drop 2).flatten.countP (·.calls 2) = 2 ∧
      (logger.run steps).2.map Outcome.events =
        [[.traced error, .called "r" error none, .traced relayed, .called "n" relayed none], [],
          [.traced error, .called "r" error none, .traced relayed, .called "n" relayed none,
            .called "l" relayed none],
          [.traced direct, .called "n" direct none, .called "l" direct none]] := by
  intro relay late logger error relayed direct steps
  have passes : ∀ outcome ∈ (logger.run steps).2, outcome.failed = false := by decide
  have delivers := run_delivers logger steps passes
  have found : (logger.run (steps.take 2)).1.hooks[2]? = some late := rfl
  refine ⟨passes, delivers, ?_, by decide⟩
  exact (delivers.once (steps.take 2) (steps.drop 2) rfl 2 late found).trans (by decide)

end ServiceConfig.Log
