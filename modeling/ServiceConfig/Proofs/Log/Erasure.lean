import ServiceConfig.Proofs.Log.Run

/-! # Debug messages can be erased

Turning the debug switch off takes from a run the debug messages and what was emitted during their
dispatches, and nothing else. Both runs go side by side: outside the dispatches of debug messages
the same dispatches are active in both, so the bound cuts them at the same places, and a debug
message that only one of them dispatches is worked off there with the count as it was.
-/

namespace ServiceConfig.Log

/-- An event apart from what a hook has shown of its logger. -/
def Event.plain : Event → Event
  | .traced message => .traced message
  | .called tag message _ => .called tag message none

/-- Whether no debug message was being dispatched at an emission. -/
def Emission.outsideDebug (emission : Emission) : Bool :=
  emission.around.all fun message => message.level ≠ .debug

/-- What is left of a run when each debug message is deleted together with everything that was
emitted during its dispatch. -/
def withoutDebug (told : List Emission) : List Event :=
  (told.filter Emission.outsideDebug).map (·.event.plain)

section

variable {told more : List Emission} {emission : Emission}

private theorem withoutDebug_append :
    withoutDebug (told ++ more) = withoutDebug told ++ withoutDebug more := by
  simp only [withoutDebug, List.filter_append, List.map_append]

private theorem withoutDebug_inside {message : Message} {outer : List Message}
    (debug : message.level = .debug)
    (inside : ∀ emission ∈ more, message :: outer <:+ emission.around) :
    withoutDebug more = [] := by
  have erased : more.filter Emission.outsideDebug = [] := by
    refine List.filter_eq_nil_iff.mpr fun emission member outside => ?_
    have around := (inside emission member).mem (List.mem_cons_self ..)
    exact of_decide_eq_true (List.all_eq_true.mp outside message around) debug
  rw [withoutDebug, erased, List.map_nil]

end

theorem Outcome.forEach_passed {α : Type} {run : α → Outcome} {items : List α}
    (passes : ∀ item ∈ items, (run item).failed = false) :
    (Outcome.forEach run items).failed = false := by
  induction items with
  | nil => rfl
  | cons item rest ih =>
    obtain ⟨first, later⟩ := List.forall_mem_cons.mp passes
    rw [Outcome.forEach, Outcome.andThen_passed first]
    exact ih later

/-- Without a failing hook no dispatch fails. -/
theorem dispatch_passed {logger : Logger}
    (calm : ∀ hook ∈ logger.hooks, ∀ message, hook.fails message = false) (room : Nat)
    (message : Message) : (logger.dispatch room message).failed = false := by
  induction room generalizing logger message with
  | zero => rfl
  | succ room ih =>
    rw [Logger.dispatch]
    split
    · rw [Outcome.andThen_passed rfl]
      refine Outcome.forEach_passed fun hook member => ?_
      have passes : hook.fails message = false := calm hook (List.mem_filter.mp member).1 message
      rw [call_eq]
      dsimp only
      rw [passes, Bool.or_false]
      have inside : ∀ hook ∈ logger.enter.hooks, ∀ message, hook.fails message = false := calm
      exact Outcome.forEach_passed fun reply _ => ih inside reply
    · rfl

theorem log_passed {logger : Logger}
    (calm : ∀ hook ∈ logger.hooks, ∀ message, hook.fails message = false) (message : Message) :
    (logger.log message).failed = false :=
  dispatch_passed calm _ message

/-- A dispatch of a message that is no debug message, whose hooks do not fail. -/
structure Active.Quiet (dispatch : Active) : Prop where
  level : dispatch.message.level ≠ .debug
  running : ∀ hook replies, dispatch.running? = some (hook, replies) →
    ∀ message, hook.fails message = false
  waiting : ∀ hook ∈ dispatch.waiting, ∀ message, hook.fails message = false

/-- The moments of two runs that differ in the switch, and in what has to be erased. -/
inductive Shadows : Moment → Moment → Prop
  | intro {logger : Logger} {active : List Active} {on off : List Emission}
      (silent : logger.debug = false)
      (calm : ∀ hook ∈ logger.hooks, ∀ message, hook.fails message = false)
      (quiet : ∀ dispatch ∈ active, dispatch.Quiet)
      (same : withoutDebug on = off.map (·.event.plain)) :
    Shadows ⟨logger.setDebug true, active, false, on⟩ ⟨logger, active, false, off⟩

private theorem withoutDebug_quiet {active : List Active}
    (quiet : ∀ dispatch ∈ active, dispatch.Quiet)
    (event : Event) : withoutDebug [⟨messages active, event⟩] = [event.plain] := by
  have outside : Emission.outsideDebug ⟨messages active, event⟩ = true := by
    refine List.all_eq_true.mpr fun message member => ?_
    obtain ⟨dispatch, inside, rfl⟩ := List.mem_map.mp member
    exact decide_eq_true (quiet dispatch inside).level
  rw [withoutDebug, List.filter_cons_of_pos outside]
  rfl

namespace Shadows

variable {on off next : Moment}

/-- What both runs emit stays. -/
theorem emit (shadows : Shadows on off) {shown hidden : Event} (same : shown.plain = hidden.plain) :
    Shadows (on.emit shown) (off.emit hidden) := by
  obtain ⟨silent, calm, quiet, told⟩ := shadows
  refine .intro silent calm quiet ?_
  rw [withoutDebug_append, told, List.map_append, withoutDebug_quiet quiet, same]
  rfl

/-- A message that both runs log. If it is a debug message, the one drops it and the other comes
back from its dispatch. -/
theorem log (shadows : Shadows on off) (message : Message) :
    ∃ reached, Reaches (on.log message) reached ∧ Shadows reached (off.log message) := by
  obtain @⟨logger, active, on, off, silent, calm, quiet, told⟩ := shadows
  by_cases debug : message.level = .debug
  · have dropped : ¬ logger.accepts message.level = true := by
      rw [Logger.accepts, debug, silent]
      exact Bool.false_ne_true
    have works : WorksOff (logger.setDebug true) (logger.setDebug true).log := worksOff_dispatch rfl
    obtain ⟨more, reaches, spells⟩ := works message active on
    have calmToo : ∀ hook ∈ (logger.setDebug true).hooks, ∀ message, hook.fails message = false :=
      calm
    rw [log_passed calmToo] at reaches
    refine ⟨_, reaches, ?_⟩
    rw [log_dropped fun both => dropped both.1]
    refine .intro silent calm quiet ?_
    rw [withoutDebug_append, withoutDebug_inside debug spells.inside, List.append_nil, told]
  · have accepted (logger : Logger) : logger.accepts message.level = true := by
      rw [Logger.accepts, decide_eq_true debug, Bool.true_or]
    refine ⟨_, .refl, ?_⟩
    by_cases room : logger.depth < maxNesting
    · have entered : Shadows
          ⟨logger.enter.setDebug true, ⟨message, none, logger.hooksFor message.level⟩ :: active,
            false, on⟩
          ⟨logger.enter, ⟨message, none, logger.hooksFor message.level⟩ :: active, false, off⟩ := by
        refine .intro silent calm (List.forall_mem_cons.mpr ⟨⟨debug, nofun, ?_⟩, quiet⟩) told
        exact fun hook member => calm hook (List.mem_filter.mp member).1
      have shown : (logger.setDebug true).depth < maxNesting := room
      rw [log_dispatched (accepted _) shown, log_dispatched (accepted _) room]
      exact entered.emit rfl
    · rw [log_dropped fun both => room both.2, log_dropped fun both => room both.2]
      exact .intro silent calm quiet told

/-- Each step of the silent run is one of the other run, or one and the dispatch of a debug
message. -/
theorem step (shadows : Shadows on off) (goes : off.step = some next) :
    ∃ reached, Reaches on reached ∧ Shadows reached next := by
  obtain @⟨logger, _ | ⟨⟨message, running?, waiting⟩, outer⟩, on, off, silent, calm, quiet, told⟩ :=
    shadows
  · cases goes
  obtain ⟨⟨level, running, waits⟩, outside⟩ := List.forall_mem_cons.mp quiet
  match running?, waiting with
  | some (hook, reply :: rest), waiting =>
    obtain rfl := Option.some.inj goes
    have logging : Shadows
        ⟨logger.setDebug true, ⟨message, some (hook, rest), waiting⟩ :: outer, false, on⟩
        ⟨logger, ⟨message, some (hook, rest), waiting⟩ :: outer, false, off⟩ := by
      refine .intro silent calm (List.forall_mem_cons.mpr ⟨⟨level, ?_, waits⟩, outside⟩) told
      rintro _ _ ⟨⟩
      exact running hook _ rfl
    obtain ⟨reached, reaches, shadows⟩ := logging.log reply
    exact ⟨reached, reaches_reply.trans reaches, shadows⟩
  | some (hook, []), waiting =>
    obtain rfl := Option.some.inj goes
    have returned : Shadows
        ⟨logger.setDebug true, ⟨message, none, waiting⟩ :: outer, false, on⟩
        ⟨logger, ⟨message, none, waiting⟩ :: outer, false, off⟩ :=
      .intro silent calm (List.forall_mem_cons.mpr ⟨⟨level, nofun, waits⟩, outside⟩) told
    refine ⟨_, reaches_return, ?_⟩
    rw [running hook [] rfl message]
    exact returned
  | none, hook :: rest =>
    obtain rfl := Option.some.inj goes
    obtain ⟨passes, waits⟩ := List.forall_mem_cons.mp waits
    have called : Shadows
        ⟨logger.setDebug true, ⟨message, some (hook, hook.replies message), rest⟩ :: outer, false,
          on⟩
        ⟨logger, ⟨message, some (hook, hook.replies message), rest⟩ :: outer, false, off⟩ := by
      refine .intro silent calm (List.forall_mem_cons.mpr ⟨⟨level, ?_, waits⟩, outside⟩) told
      rintro _ _ ⟨⟩
      exact passes
    exact ⟨_, reaches_call, called.emit rfl⟩
  | none, [] =>
    obtain rfl := Option.some.inj goes
    have left : Shadows ⟨logger.leave.setDebug true, outer, false, on⟩
        ⟨logger.leave, outer, false, off⟩ := .intro silent calm outside told
    exact ⟨_, reaches_leave, left⟩

/-- So where the silent run gets to, the other one gets to. -/
theorem run {last : Moment} (reaches : Reaches off last) (shadows : Shadows on off) :
    ∃ reached, Reaches on reached ∧ Shadows reached last := by
  induction reaches with
  | refl => exact ⟨on, .refl, shadows⟩
  | tail _ goes ih =>
    obtain ⟨between, reaches, shadows⟩ := ih
    obtain ⟨reached, continues, shadows⟩ := shadows.step goes
    exact ⟨reached, reaches.trans continues, shadows⟩

theorem told (shadows : Shadows on off) :
    withoutDebug on.told = off.told.map (·.event.plain) := by
  obtain ⟨-, -, -, same⟩ := shadows
  exact same

/-- Both runs are at their ends, or neither is. -/
theorem ended (shadows : Shadows on off) (idle : off.active = []) : on.step = none := by
  obtain ⟨-, -, -, -⟩ := shadows
  dsimp only at idle
  rw [idle]
  rfl

end Shadows

/-- With hooks that do not fail, the events of a message without debugging are those with debugging,
less each debug message and everything emitted during its dispatch, what hooks have shown of the
logger aside. -/
theorem debug_erasable (logger : Logger)
    (calm : ∀ hook ∈ logger.hooks, ∀ message, hook.fails message = false) (message : Message) :
    ∃ last, Ends (.start (logger.setDebug true) message) last ∧
      last.told.map Emission.event = ((logger.setDebug true).log message).events ∧
      ((logger.setDebug false).log message).events.map Event.plain = withoutDebug last.told := by
  have idle : Shadows ⟨(logger.setDebug false).setDebug true, [], false, []⟩
      ⟨logger.setDebug false, [], false, []⟩ := .intro rfl calm (List.forall_mem_nil _) rfl
  obtain ⟨begun, begins, shadows⟩ := idle.log message
  obtain ⟨off, endsOff, spellsOff⟩ := ends_log (logger.setDebug false) message
  obtain ⟨last, continues, shadows⟩ := shadows.run endsOff.1
  have ends : Ends (.start (logger.setDebug true) message) last :=
    ⟨begins.trans continues, shadows.ended rfl⟩
  refine ⟨last, ends, ?_, ?_⟩
  · obtain ⟨on, endsOn, spellsOn⟩ := ends_log (logger.setDebug true) message
    rw [ends.unique endsOn]
    exact spellsOn.events
  · rw [shadows.told, ← spellsOff.events, List.map_map]
    rfl

/-- Each notice is repeated as a debug message, which raises a warning, and as a notice. With
debugging there are nine debug messages and eight warnings; without it only the ten notices are
left. -/
theorem debug_erasable_repeating :
    let repeating : Hook :=
      ⟨.notice, "n", fun message => [{ message with level := .debug }, message], true,
        fun _ => false⟩
    let alarming : Hook :=
      ⟨.debug, "d", fun message => [{ message with level := .warning, text := "late" }], false,
        fun _ => false⟩
    let logger : Logger := ⟨[repeating, alarming], false, 0⟩
    let message : Message := ⟨.notice, "loop", "again"⟩
    ((logger.setDebug true).log message).events.length = 46 ∧
      ((logger.setDebug false).log message).events.map Event.plain =
        (List.replicate 10 [.traced message, .called "n" message none]).flatten ∧
      ∃ last, Ends (.start (logger.setDebug true) message) last ∧
        last.told.map Emission.event = ((logger.setDebug true).log message).events ∧
        ((logger.setDebug false).log message).events.map Event.plain = withoutDebug last.told := by
  intro repeating alarming logger message
  have calm : ∀ hook ∈ logger.hooks, ∀ message, hook.fails message = false :=
    List.forall_mem_cons.mpr ⟨fun _ => rfl, List.forall_mem_singleton.mpr fun _ => rfl⟩
  exact ⟨by decide, by decide, debug_erasable logger calm message⟩

end ServiceConfig.Log
