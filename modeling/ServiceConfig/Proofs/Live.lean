import ServiceConfig.Live

/-! # What plans come to

Only a message can end a plan early, and an attempt logs its message last. So an attempt is carried
out whole, whatever the hooks do with the message: they decide only whether anything is returned.
-/

namespace ServiceConfig.Live

/-- The configuration after an attempt that was accepted. -/
def accept (live : Live) (tree : Tree) (debug? : Option Bool) : Live :=
  { live with tree? := some tree, logger := debug?.elim live.logger live.logger.setDebug }

variable {live : Live} {files : Files} {path : String}

private theorem perform_quiet {deed : Deed} (quiet : (live.act deed).2 = .quiet)
    (rest : List Deed) :
    live.perform (deed :: rest) = (live.act deed).1.perform rest := by
  rw [perform]
  simp only [quiet]
  rfl

theorem perform_of_failed {message : Log.Message} (failed : (live.logger.log message).failed = true)
    (rest : List Deed) :
    live.perform (.tell (.log message) :: rest) = (live, live.logger.log message) :=
  if_pos failed

theorem perform_of_passed {message : Log.Message}
    (passed : (live.logger.log message).failed = false) (rest : List Deed) :
    live.perform (.tell (.log message) :: rest) =
      let later := live.perform rest
      (later.1, ⟨(live.logger.log message).events ++ later.2.events, later.2.failed⟩) :=
  if_neg (Bool.eq_false_iff.mp passed)

private theorem perform_log (live : Live) (message : Log.Message) :
    live.perform [.tell (.log message)] = (live, live.logger.log message) := by
  cases failed : (live.logger.log message).failed with
  | true => exact perform_of_failed failed []
  | false =>
    rw [perform_of_passed failed]
    simp [perform, Log.Outcome.quiet, ← failed]

private theorem perform_switches (live : Live) (debug? : Option Bool) (rest : List Deed) :
    live.perform (debug?.toList.map (fun on => .tell (.setDebug on)) ++ rest) =
      { live with logger := debug?.elim live.logger live.logger.setDebug }.perform rest := by
  cases debug? with
  | none => rfl
  | some on => exact perform_quiet rfl rest

theorem carryOut_logging (live : Live) (message : Log.Message) :
    live.carryOut (.logging (.log message)) = ⟨live, [], live.logger.log message, none⟩ := by
  rw [carryOut, Plan.logging]
  simp only [perform_log, ite_self]

theorem carryOut_load (live : Live) (files : Files) (path : String) :
    live.carryOut (.load files path) =
      { live with path? := some path }.carryOut (.attempt files path) := rfl

theorem carryOut_rejected {error : ConfigError} (rejected : candidate files path = .error error)
    (live : Live) :
    live.carryOut (.attempt files path) =
      let outcome := live.logger.log ⟨.error, source, error.message⟩
      ⟨live, Plan.trailOf files path, outcome, if outcome.failed then none else some error⟩ := by
  rw [carryOut, Plan.attempt, rejected]
  simp only [perform_log]

theorem carryOut_accepted {tree : Tree} {debug? : Option Bool}
    (accepted : candidate files path = .ok (tree, debug?)) (live : Live) :
    live.carryOut (.attempt files path) =
      ⟨live.accept tree debug?, Plan.trailOf files path,
        (live.accept tree debug?).logger.log ⟨.notice, source, loadedMessage path tree⟩, none⟩ := by
  have adopted (rest : List Deed) : live.perform (.adopt tree :: rest) =
      { live with tree? := some tree }.perform rest := perform_quiet rfl rest
  rw [carryOut, Plan.attempt, accepted]
  simp only [List.cons_append, adopted, perform_switches, perform_log, ite_self]
  rfl

end ServiceConfig.Live
