import Mathlib
import ServiceConfig.Proofs.Live
import ServiceConfig.Session

/-! # What a session remembers

After any run the live configuration is told by the steps of the run alone. The path is that of the
last load. The tree is that of the last attempt whose tree and debug switch could be read from the
files of that moment. The debug switch is what such an attempt found or a step has set, whichever
came last. How the hooks received the messages about it plays no part, not even if one failed.
-/

namespace ServiceConfig.Session

section

variable {α : Type} (tells : List Step → Step → Option α)

/-- Goes back from the last step, which comes first here, to one that tells something. -/
def latestBack? : List Step → Option α
  | [] => none
  | step :: earlier => (tells earlier.reverse step).or (latestBack? earlier)

/-- What the last step tells that tells something, where each step is seen with the steps before
it. -/
def latest? (steps : List Step) : Option α := latestBack? tells steps.reverse

private theorem latest?_append (steps : List Step) (step : Step) :
    latest? tells (steps ++ [step]) = (tells steps step).or (latest? tells steps) := by
  rw [latest?, List.reverse_append, List.reverse_singleton, List.singleton_append, latestBack?,
    List.reverse_reverse, latest?]

end

def diskAfter (disk : Disk) (steps : List Step) : Disk :=
  steps.foldl (fun disk step =>
    match step with
    | .write path bytes => disk.write path bytes
    | .remove path => disk.remove path
    | .load _ | .reload | .log _ => disk) disk

def loaded? (_before : List Step) : Step → Option String
  | .load path => some path
  | .reload | .write _ _ | .remove _ | .log _ => none

/-- The path that a step attempts to read, if any. -/
def attempted? (before : List Step) : Step → Option String
  | .load path => some path
  | .reload => latest? loaded? before
  | .write _ _ | .remove _ | .log _ => none

/-- What an attempt comes to: the tree of the file and the debug switch at its top level, or the
error of the one that cannot be read. -/
def verdict (files : Files) (path : String) : Except ConfigError (Tree × Option Bool) :=
  match Tree.read files path with
  | .error error => .error error
  | .ok tree => (tree.findBool Tree.root { name := "debug" }).map (tree, ·)

/-- What the attempt of a step comes to, on the files as the steps before it have left them. -/
def attempt? (disk : Disk) (before : List Step) (step : Step) :
    Option (Except ConfigError (Tree × Option Bool)) :=
  (attempted? before step).map (verdict (diskAfter disk before).read)

/-- The tree that a step installs. -/
def installed? (disk : Disk) (before : List Step) (step : Step) : Option Tree :=
  match attempt? disk before step with
  | some (.ok (tree, _)) => some tree
  | some (.error _) | none => none

/-- What a step sets the debug switch to, by itself or by the tree that it installs. -/
def switched? (disk : Disk) (before : List Step) (step : Step) : Option Bool :=
  match step with
  | .log (.setDebug on) => some on
  | step =>
    match attempt? disk before step with
    | some (.ok (_, debug?)) => debug?
    | some (.error _) | none => none

theorem candidate_eq_verdict (files : Files) (path : String) :
    Live.candidate files path = verdict files path := by
  unfold Live.candidate verdict
  cases Tree.read files path with
  | error error => rfl
  | ok tree => cases tree.findBool Tree.root { name := "debug" } <;> rfl

/-- An attempt on a path by the live configuration of a session. -/
def attempting (session : Session) (files : Files) (path : String) : Session × Answer :=
  let live : Live := { session.live with path? := some path }
  let report := live.carryOut (.attempt files path)
  (⟨report.live, session.disk⟩, ⟨report.outcome, report.error?⟩)

theorem attempting_rejected {files : Files} {path : String} {error : ConfigError}
    (rejected : verdict files path = .error error) (session : Session) :
    let live : Live := { session.live with path? := some path }
    let outcome := live.logger.log ⟨.error, Live.source, error.message⟩
    session.attempting files path =
      (⟨live, session.disk⟩, ⟨outcome, if outcome.failed then none else some error⟩) := by
  have rejected := (candidate_eq_verdict files path).trans rejected
  rw [attempting, Live.carryOut_rejected rejected]

theorem attempting_accepted {files : Files} {path : String} {tree : Tree} {debug? : Option Bool}
    (accepted : verdict files path = .ok (tree, debug?)) (session : Session) :
    let live : Live := { session.live with path? := some path }.accept tree debug?
    session.attempting files path =
      (⟨live, session.disk⟩,
        ⟨live.logger.log ⟨.notice, Live.source, Live.loadedMessage path tree⟩, none⟩) := by
  have accepted := (candidate_eq_verdict files path).trans accepted
  rw [attempting, Live.carryOut_accepted accepted]

private theorem diskAfter_append (start : Disk) (steps : List Step) (step : Step) :
    diskAfter start (steps ++ [step]) = diskAfter (diskAfter start steps) [step] :=
  List.foldl_append

/-- A session stands as the steps before it tell. -/
structure Follows (logger : Log.Logger) (start : Disk) (steps : List Step) (session : Session) :
    Prop where
  disk : session.disk = diskAfter start steps
  path : session.live.path? = latest? loaded? steps
  tree : session.live.tree? = latest? (installed? start) steps
  debug : session.live.logger.debug = (latest? (switched? start) steps).getD logger.debug

section

variable {logger : Log.Logger} {start : Disk} {steps : List Step} {session : Session} {step : Step}
  {path : String}

/-- A step that attempts a path reads it from the disk as it is, and remembers it. -/
theorem Follows.attempt (follows : Follows logger start steps session)
    (attempted : attempted? steps step = some path) :
    session.step step = session.attempting (diskAfter start steps).read path := by
  rw [← follows.disk]
  cases step with
  | load target =>
    obtain rfl := Option.some.inj attempted
    rfl
  | reload =>
    have remembered : session.live.path? = some path := follows.path.trans attempted
    have same : { session.live with path? := some path } = session.live := by
      rw [← remembered]
    rw [Session.step, plan, remembered, attempting, same]
    rfl
  | write | remove | log => cases attempted

private theorem diskAfter_attempt (attempted : attempted? steps step = some path) :
    diskAfter start (steps ++ [step]) = diskAfter start steps := by
  rw [diskAfter_append]
  cases step with
  | load | reload => rfl
  | write | remove | log => cases attempted

private theorem latest?_loaded (attempted : attempted? steps step = some path) :
    latest? loaded? (steps ++ [step]) = some path := by
  rw [latest?_append]
  cases step with
  | load target => exact attempted
  | reload => exact attempted
  | write | remove | log => cases attempted

private theorem attempt?_of_attempted (start : Disk)
    (attempted : attempted? steps step = some path) :
    attempt? start steps step = some (verdict (diskAfter start steps).read path) := by
  rw [attempt?, attempted, Option.map_some]

private theorem switched?_of_attempted (start : Disk)
    (attempted : attempted? steps step = some path) :
    switched? start steps step =
      match verdict (diskAfter start steps).read path with
      | .ok (_, debug?) => debug?
      | .error _ => none := by
  have opened : switched? start steps step =
      match attempt? start steps step with
      | some (.ok (_, debug?)) => debug?
      | some (.error _) | none => none := by
    cases step with
    | load | reload => rfl
    | write | remove | log => cases attempted
  rw [opened, attempt?_of_attempted start attempted]
  cases verdict (diskAfter start steps).read path <;> rfl

theorem Follows.step_attempt (follows : Follows logger start steps session)
    (attempted : attempted? steps step = some path) :
    Follows logger start (steps ++ [step]) (session.step step).1 := by
  -- path, tree and switch are what they were or what the attempt says, by its verdict
  have switched := switched?_of_attempted start attempted
  have attempt := attempt?_of_attempted start attempted
  rw [follows.attempt attempted]
  cases judged : verdict (diskAfter start steps).read path with
  | error error =>
    rw [judged] at switched attempt
    rw [attempting_rejected judged]
    refine ⟨?_, (latest?_loaded attempted).symm, ?_, ?_⟩
    · exact follows.disk.trans (diskAfter_attempt attempted).symm
    · rw [latest?_append, installed?, attempt]
      exact follows.tree
    · rw [latest?_append, switched]
      exact follows.debug
  | ok accepted =>
    obtain ⟨tree, debug?⟩ := accepted
    rw [judged] at switched attempt
    rw [attempting_accepted judged]
    refine ⟨?_, (latest?_loaded attempted).symm, ?_, ?_⟩
    · exact follows.disk.trans (diskAfter_attempt attempted).symm
    · rw [latest?_append, installed?, attempt]
      rfl
    · rw [latest?_append, switched]
      cases debug? with
      | none => exact follows.debug
      | some on => rfl

/-- A step that attempts nothing writes or removes a file, sets the switch, or changes nothing. -/
theorem Follows.step_quiet (follows : Follows logger start steps session)
    (quiet : attempted? steps step = none) :
    Follows logger start (steps ++ [step]) (session.step step).1 := by
  have path : session.live.path? = latest? loaded? (steps ++ [step]) := by
    rw [latest?_append]
    cases step with
    | load target => cases quiet
    | reload | write | remove | log => exact follows.path
  have tree : session.live.tree? = latest? (installed? start) (steps ++ [step]) := by
    rw [latest?_append, installed?, attempt?, quiet]
    exact follows.tree
  have debug (kept : switched? start steps step = none) :
      session.live.logger.debug =
        (latest? (switched? start) (steps ++ [step])).getD logger.debug := by
    rw [latest?_append, kept]
    exact follows.debug
  cases step with
  | load target => cases quiet
  | reload =>
    have remembered : session.live.path? = none := follows.path.trans quiet
    have silent : switched? start steps .reload = none := by
      rw [switched?.eq_def]
      simp only [attempt?, quiet, Option.map_none]
    have disk : session.disk = diskAfter start (steps ++ [.reload]) := by
      rw [diskAfter_append]
      exact follows.disk
    rw [Session.step, plan, remembered]
    exact ⟨disk, path, tree, debug silent⟩
  | write | remove =>
    refine ⟨?_, path, tree, debug rfl⟩
    rw [diskAfter_append, ← follows.disk]
    rfl
  | log step =>
    have disk : session.disk = diskAfter start (steps ++ [.log step]) := by
      rw [diskAfter_append]
      exact follows.disk
    cases step with
    | log message =>
      rw [Session.step, plan, Live.carryOut_logging]
      exact ⟨disk, path, tree, debug rfl⟩
    | addHook => exact ⟨disk, path, tree, debug rfl⟩
    | setDebug on => exact ⟨disk, path, tree, by rw [latest?_append]; rfl⟩

theorem Follows.next (follows : Follows logger start steps session) (step : Step) :
    Follows logger start (steps ++ [step]) (session.step step).1 := by
  cases attempted : attempted? steps step with
  | none => exact follows.step_quiet attempted
  | some path => exact follows.step_attempt attempted

end

theorem run_append (session : Session) (steps : List Step) (step : Step) :
    (session.run (steps ++ [step])).1 = ((session.run steps).1.step step).1 := by
  induction steps generalizing session with
  | nil => rfl
  | cons first rest ih =>
    rw [List.cons_append, run, run]
    exact ih (session.step first).1

end ServiceConfig.Session
