import Mathlib.Data.List.Chain
import ServiceConfig.Proofs.Document.Resolution

/-! # Reading as a run

Reading goes from moment to moment. At each moment some texts are open inside one another, each
with the statements that it still has to say. An include opens a text inside the innermost one, and
a text without further statements is closed. `Document.parse` and `Document.read` give what such a
run ends with, and every run ends. While a run goes on, the texts that are open stand in a chain of
includes. If it ends well, each of these texts could be read with less room than the one around it,
so that none of them is open twice.
-/

namespace ServiceConfig.Document

open Grammar

/-- A text that is open: the file it was read from, if any, the name it goes by, what it says as a
whole, what of that is still to come, and the number of blocks open there. -/
structure Opened where
  file? : Option String
  origin : String
  script : Script
  rest : List Statement
  depth : Nat

def Opened.ofText (file? : Option String) (origin : String) (text : List UInt8) (depth : Nat) :
    Opened := ⟨file?, origin, Script.ofText text, (Script.ofText text).statements, depth⟩

/-- Where the targets of a text are looked up. -/
def Opened.directory? (text : Opened) : Option String := text.file?.bind Path.parent?

/-- The texts that are open, innermost first, and what has been said so far. -/
structure Moment where
  opened : List Opened
  said : List Event

/-- The files that are open. -/
def Moment.paths (moment : Moment) : List String := moment.opened.filterMap Opened.file?

/-- The texts that are open inside the one the run began with. -/
def Moment.included (moment : Moment) : List Opened := moment.opened.dropLast

inductive Progress
  | goes (moment : Moment)
  | ends (outcome : Except ConfigError (List Event))

/-- Opens a file inside the texts that are open already. -/
def openFile (files : Files) (path : String) (depth : Nat) (around : List Opened)
    (said : List Event) : Progress :=
  if maxIncludes < around.length then .ends (.error (.includeDepth path))
  else
    match readText files path with
    | .error error => .ends (.error error)
    | .ok text => .goes ⟨.ofText (some path) path text depth :: around, said⟩

/-- One step: the next statement of the innermost text, or the end of this text. -/
def Moment.step (files : Files) (moment : Moment) : Progress :=
  match moment.opened with
  | [] => .ends (.ok moment.said)
  | text :: around =>
    match text.rest with
    | [] =>
      match text.script.complaint? with
      | none => .goes ⟨around, moment.said⟩
      | some complaint => .ends (.error (.text text.origin complaint))
    | statement :: rest =>
      match statement.event with
      | .leaf name value =>
        if name = includeName then
          openFile files (Path.resolve text.directory? value) text.depth
            ({ text with rest } :: around) moment.said
        else .goes ⟨{ text with rest } :: around, moment.said ++ [.leaf name value]⟩
      | .opening name value? =>
        if text.depth < maxBlocks then
          .goes ⟨{ text with rest, depth := text.depth + 1 } :: around,
            moment.said ++ [.opening name value?]⟩
        else .ends (.error (.text text.origin ⟨statement.line, .nestedTooDeeply⟩))
      | .closing =>
        .goes ⟨{ text with rest, depth := text.depth - 1 } :: around, moment.said ++ [.closing]⟩

/-- A run that begins like this ends, after finitely many steps, with this outcome. -/
inductive Ends (files : Files) : Progress → Except ConfigError (List Event) → Prop
  | now {outcome : Except ConfigError (List Event)} : Ends files (.ends outcome) outcome
  | later {moment : Moment} {outcome : Except ConfigError (List Event)}
      (rest : Ends files (moment.step files) outcome) : Ends files (.goes moment) outcome

/-- The moments of a run that begins like this. -/
inductive Passes (files : Files) : Progress → Moment → Prop
  | here {moment : Moment} : Passes files (.goes moment) moment
  | later {moment other : Moment} (rest : Passes files (moment.step files) other) :
    Passes files (.goes moment) other

/-- A run has one outcome. -/
theorem Ends.unique {files : Files} {progress : Progress}
    {outcome other : Except ConfigError (List Event)} (first : Ends files progress outcome)
    (second : Ends files progress other) : outcome = other := by
  induction first with
  | now => cases second; rfl
  | later _ ih =>
    cases second with
    | later rest => exact ih rest

/-- What holds at the first moment and is kept by each step holds at all moments. -/
theorem Passes.invariant {files : Files} (holds : Moment → Prop) {progress : Progress}
    {moment : Moment} (passes : Passes files progress moment)
    (begins : ∀ first, progress = .goes first → holds first)
    (keeps : ∀ one next, holds one → one.step files = .goes next → holds next) :
    holds moment := by
  induction passes with
  | here => exact begins _ rfl
  | later _ ih => exact ih fun next same => keeps _ _ (begins _ rfl) same

/-- What a run begins with: a text, or the file at a path. -/
inductive Source
  | text (origin : String) (bytes : List UInt8)
  | file (path : String)

def Source.start (files : Files) : Source → Progress
  | .text origin bytes => .goes ⟨[.ofText none origin bytes 0], []⟩
  | .file path => openFile files path 0 [] []

/-- What a source says. -/
def Source.document (files : Files) : Source → Except ConfigError (List Event)
  | .text origin bytes => parse files origin bytes
  | .file path => read files path

section

variable {files : Files} {text : Opened} {around : List Opened} {said : List Event}
  {statement : Statement} {rest : List Statement}

theorem step_end (behind : text.rest = []) (silent : text.script.complaint? = none) :
    Moment.step files ⟨text :: around, said⟩ = .goes ⟨around, said⟩ := by
  simp only [Moment.step, behind, silent]

theorem step_complaint {complaint : Complaint} (behind : text.rest = [])
    (own : text.script.complaint? = some complaint) :
    Moment.step files ⟨text :: around, said⟩ = .ends (.error (.text text.origin complaint)) := by
  simp only [Moment.step, behind, own]

theorem step_include {target : String} (behind : text.rest = statement :: rest)
    (event : statement.event = .leaf includeName target) :
    Moment.step files ⟨text :: around, said⟩ =
      openFile files (Path.resolve text.directory? target) text.depth
        ({ text with rest } :: around) said := by
  simp only [Moment.step, behind, event, if_true]

theorem step_leaf {name value : String} (behind : text.rest = statement :: rest)
    (event : statement.event = .leaf name value) (named : name ≠ includeName) :
    Moment.step files ⟨text :: around, said⟩ =
      .goes ⟨{ text with rest } :: around, said ++ [.leaf name value]⟩ := by
  simp only [Moment.step, behind, event, if_neg named]

theorem step_opening {name : String} {value? : Option String}
    (behind : text.rest = statement :: rest)
    (event : statement.event = .opening name value?) (room : text.depth < maxBlocks) :
    Moment.step files ⟨text :: around, said⟩ =
      .goes ⟨{ text with rest, depth := text.depth + 1 } :: around,
        said ++ [.opening name value?]⟩ := by
  simp only [Moment.step, behind, event, if_pos room]

theorem step_tooDeep {name : String} {value? : Option String}
    (behind : text.rest = statement :: rest)
    (event : statement.event = .opening name value?) (full : ¬ text.depth < maxBlocks) :
    Moment.step files ⟨text :: around, said⟩ =
      .ends (.error (.text text.origin ⟨statement.line, .nestedTooDeeply⟩)) := by
  simp only [Moment.step, behind, event, if_neg full]

theorem step_closing (behind : text.rest = statement :: rest) (event : statement.event = .closing) :
    Moment.step files ⟨text :: around, said⟩ =
      .goes ⟨{ text with rest, depth := text.depth - 1 } :: around, said ++ [.closing]⟩ := by
  simp only [Moment.step, behind, event]

end

section

variable {files : Files} {outcome : Except ConfigError (List Event)}

/-- How a run goes on behind a text or a file that comes to this result. -/
def resume (around : List Opened) (said : List Event) :
    Except ConfigError (List Event) → Progress
  | .ok events => .goes ⟨around, said ++ events⟩
  | .error error => .ends (.error error)

theorem resume_map_append (around : List Opened) (said events : List Event)
    (result : Except ConfigError (List Event)) :
    resume around said (result.map (events ++ ·)) = resume around (said ++ events) result := by
  cases result with
  | error => rfl
  | ok later => simp only [Except.map, resume, List.append_assoc]

/-- What a text still says when its includes have so much room. -/
def Opened.remaining (files : Files) (room : Nat) (text : Opened) :
    Except ConfigError (List Event) :=
  resolve (fun target inner => ofFile files room (Path.resolve text.directory? target) inner)
    text.origin text.script.complaint? text.depth text.rest

/-- An open text is worked off, if the files that it includes are. -/
theorem ends_of_remaining {room : Nat} {around : List Opened} {text : Opened} {said : List Event}
    (opens : ∀ path inner (text : Opened) said,
      Ends files (resume (text :: around) said (ofFile files room path inner)) outcome →
      Ends files (openFile files path inner (text :: around) said) outcome)
    (ends : Ends files (resume around said (text.remaining files room)) outcome) :
    Ends files (.goes ⟨text :: around, said⟩) outcome := by
  generalize behind : text.rest = statements
  apply Ends.later
  induction statements generalizing text said with
  | nil =>
    cases complaint : text.script.complaint? with
    | none =>
      rw [step_end behind complaint]
      simpa only [Opened.remaining, behind, complaint, resolve, resume, List.append_nil] using ends
    | some own =>
      rw [step_complaint behind complaint]
      simpa only [Opened.remaining, behind, complaint, resolve, resume] using ends
  | cons statement rest ih =>
    have goes {depth : Nat} {event : Event}
        (ends : Ends files (resume around said (({ text with rest, depth } : Opened).remaining files
          room |>.map (event :: ·))) outcome) :
        Ends files (.goes ⟨{ text with rest, depth } :: around, said ++ [event]⟩) outcome := by
      have moved := resume_map_append around said [event]
        (({ text with rest, depth } : Opened).remaining files room)
      exact .later (ih (moved ▸ ends) rfl)
    rw [Opened.remaining, behind] at ends
    cases event : statement.event with
    | leaf name value =>
      by_cases named : name = includeName
      · rw [named] at event
        rw [step_include behind event]
        rw [resolve_include event] at ends
        apply opens
        cases said : ofFile files room (Path.resolve text.directory? value) text.depth with
        | error error =>
          rw [said] at ends
          exact ends
        | ok spliced =>
          rw [said] at ends
          simp only [Except.bind, resume_map_append] at ends
          exact .later (ih ends rfl)
      · rw [step_leaf behind event named]
        rw [resolve_leaf event named] at ends
        exact goes ends
    | opening name value? =>
      by_cases room : text.depth < maxBlocks
      · rw [step_opening behind event room]
        rw [resolve_opening event room] at ends
        exact goes ends
      · rw [step_tooDeep behind event room]
        rw [resolve_tooDeep event room] at ends
        exact ends
    | closing =>
      rw [step_closing behind event]
      rw [resolve_closing event] at ends
      exact goes ends

/-- A file is worked off, if it has the room that the texts around it leave. -/
theorem ends_of_ofFile {room : Nat} {path : String} {depth : Nat} {around : List Opened}
    {said : List Event} (left : room + around.length = maxIncludes + 1)
    (ends : Ends files (resume around said (ofFile files room path depth)) outcome) :
    Ends files (openFile files path depth around said) outcome := by
  induction room generalizing path depth around said with
  | zero =>
    rw [openFile, if_pos (by omega)]
    exact ends
  | succ room ih =>
    rw [openFile, if_neg (by omega)]
    rw [ofFile] at ends
    cases read : readText files path with
    | error error =>
      rw [read] at ends
      exact ends
    | ok text =>
      rw [read] at ends
      apply ends_of_remaining (fun path inner outer said => ih (by rw [List.length_cons]; omega))
      exact ends

/-- Every run ends, with what its source says. -/
theorem ends_document (files : Files) (source : Source) :
    Ends files (source.start files) (source.document files) := by
  have ended (result : Except ConfigError (List Event)) :
      Ends files (resume [] [] result) result := by
    cases result with
    | error error => exact .now
    | ok events => exact .later .now
  cases source with
  | text origin bytes =>
    exact ends_of_remaining (fun path inner outer said => ends_of_ofFile rfl) (ended _)
  | file path => exact ends_of_ofFile rfl (ended _)

end

/-- A step that does not end the run closes a text, works off a statement, or opens a file that the
innermost text includes. -/
theorem opened_of_step {files : Files} {moment next : Moment}
    (goes : moment.step files = .goes next) :
    ∃ text around, moment.opened = text :: around ∧
      (next.opened = around ∨
        (∃ statement rest depth, text.rest = statement :: rest ∧
          next.opened = { text with rest, depth } :: around) ∨
        ∃ statement rest target bytes, text.rest = statement :: rest ∧
          statement.event = .leaf includeName target ∧ around.length < maxIncludes ∧
          readText files (Path.resolve text.directory? target) = .ok bytes ∧
          next.opened =
            .ofText (some (Path.resolve text.directory? target))
              (Path.resolve text.directory? target) bytes text.depth ::
            { text with rest } :: around) := by
  obtain ⟨_ | ⟨text, around⟩, said⟩ := moment
  · cases goes
  refine ⟨text, around, rfl, ?_⟩
  cases behind : text.rest with
  | nil =>
    cases complaint : text.script.complaint? with
    | none =>
      rw [step_end behind complaint] at goes
      cases goes
      exact .inl rfl
    | some own =>
      rw [step_complaint behind complaint] at goes
      cases goes
  | cons statement rest =>
    cases event : statement.event with
    | leaf name value =>
      by_cases named : name = includeName
      · rw [named] at event
        rw [step_include behind event, openFile] at goes
        split_ifs at goes with full
        split at goes
        · cases goes
        next bytes read =>
          cases goes
          exact .inr (.inr ⟨statement, rest, value, bytes, rfl, event, not_lt.mp full, read, rfl⟩)
      · rw [step_leaf behind event named] at goes
        cases goes
        exact .inr (.inl ⟨statement, rest, text.depth, rfl, rfl⟩)
    | opening name value? =>
      by_cases room : text.depth < maxBlocks
      · rw [step_opening behind event room] at goes
        cases goes
        exact .inr (.inl ⟨statement, rest, text.depth + 1, rfl, rfl⟩)
      · rw [step_tooDeep behind event room] at goes
        cases goes
    | closing =>
      rw [step_closing behind event] at goes
      cases goes
      exact .inr (.inl ⟨statement, rest, text.depth - 1, rfl, rfl⟩)

/-- A run begins with one text, and its source says what this text says. -/
theorem opened_of_start {files : Files} {source : Source} {first : Moment}
    (starts : source.start files = .goes first) :
    ∃ file? origin bytes, first.opened = [.ofText file? origin bytes 0] ∧
      (∀ path, file? = some path → readText files path = .ok bytes) ∧
      source.document files = (Opened.ofText file? origin bytes 0).remaining files maxIncludes := by
  cases source with
  | text origin bytes =>
    cases starts
    exact ⟨none, origin, bytes, rfl, nofun, rfl⟩
  | file path =>
    rw [Source.start, openFile, List.length_nil, if_neg (Nat.not_lt_zero maxIncludes)] at starts
    split at starts
    · cases starts
    next bytes read =>
      cases starts
      refine ⟨some path, path, bytes, rfl, ?_, ?_⟩
      · rintro _ ⟨⟩
        exact read
      · rw [Source.document, Document.read, ofFile, read]
        rfl

/-- No more files are ever open inside one another than includes may nest. -/
theorem included_length_le {files : Files} {source : Source} {moment : Moment}
    (passes : Passes files (source.start files) moment) :
    moment.included.length ≤ maxIncludes := by
  rw [Moment.included, List.length_dropLast, Nat.sub_le_iff_le_add]
  refine passes.invariant (fun moment => moment.opened.length ≤ maxIncludes + 1) ?_ ?_
  · intro first starts
    obtain ⟨_, _, _, opened, -, -⟩ := opened_of_start starts
    rw [opened]
    exact Nat.le_add_left 1 maxIncludes
  · intro moment next few goes
    obtain ⟨text, around, opened, closed | ⟨_, _, _, -, same⟩ |
      ⟨_, _, _, _, -, -, room, -, more⟩⟩ := opened_of_step goes
    all_goals rw [opened, List.length_cons] at few
    · rw [closed]
      omega
    · rwa [same]
    · rw [more]
      exact Nat.succ_le_succ room

/-- A text that can be worked off when its includes have so much room. -/
def Opened.Settles (files : Files) (room : Nat) (text : Opened) : Prop :=
  ∃ origin depth events,
    resolve (fun target inner => ofFile files room (Path.resolve text.directory? target) inner)
      origin text.script.complaint? depth text.script.statements = .ok events

/-- Of statements that can be resolved, every include succeeds. -/
theorem spliced_of_resolve {splice : String → Nat → Except ConfigError (List Event)}
    {origin target : String} {complaint? : Option Complaint} {depth : Nat}
    {statements : List Statement} {statement : Statement} {events : List Event}
    (resolved : resolve splice origin complaint? depth statements = .ok events)
    (member : statement ∈ statements) (event : statement.event = .leaf includeName target) :
    ∃ inner spliced, splice target inner = .ok spliced := by
  induction member generalizing depth events with
  | head =>
    rw [resolve_include event] at resolved
    obtain ⟨spliced, here, -⟩ := bind_eq_ok.mp resolved
    exact ⟨depth, spliced, here⟩
  | tail _ _ ih =>
    obtain ⟨_, _, resolved⟩ := resolve_rest resolved
    exact ih resolved

/-- A file that a text includes settles with less room than the text. -/
theorem settles_included {files : Files} {room : Nat} {text : Opened} {statement : Statement}
    {target : String} {bytes : List UInt8} (settles : text.Settles files room)
    (member : statement ∈ text.script.statements)
    (event : statement.event = .leaf includeName target)
    (read : readText files (Path.resolve text.directory? target) = .ok bytes) (depth : Nat) :
    ∃ less < room, (Opened.ofText (some (Path.resolve text.directory? target))
      (Path.resolve text.directory? target) bytes depth).Settles files less := by
  obtain ⟨origin, outside, events, resolved⟩ := settles
  obtain ⟨inner, spliced, said⟩ := spliced_of_resolve resolved member event
  cases room with
  | zero => cases said
  | succ less =>
    rw [ofFile, read] at said
    exact ⟨less, Nat.lt_succ_self less, _, inner, spliced, said⟩

/-- What is known of the texts that are open in a run that ends well. -/
structure Settled (files : Files) (opened : List Opened) : Prop where
  behind : ∀ text ∈ opened, text.rest <:+ text.script.statements
  loaded : ∀ text ∈ opened, ∀ path, text.file? = some path →
    ∃ bytes, readText files path = .ok bytes ∧ text.script = Script.ofText bytes
  settles : ∀ text ∈ opened, ∃ room, text.Settles files room
  shrinks : opened.Pairwise fun inner outer =>
    ∀ room, outer.Settles files room → ∃ less < room, inner.Settles files less

namespace Settled

variable {files : Files} {text : Opened} {around : List Opened}

theorem closed (settled : Settled files (text :: around)) : Settled files around where
  behind _ member := settled.behind _ (List.mem_cons_of_mem _ member)
  loaded _ member := settled.loaded _ (List.mem_cons_of_mem _ member)
  settles _ member := settled.settles _ (List.mem_cons_of_mem _ member)
  shrinks := settled.shrinks.of_cons

theorem advanced {statement : Statement} {rest : List Statement}
    (settled : Settled files (text :: around)) (behind : text.rest = statement :: rest)
    (depth : Nat) :
    Settled files ({ text with rest, depth } :: around) where
  behind := List.forall_mem_cons.mpr
    ⟨(behind ▸ List.suffix_cons statement rest : rest <:+ text.rest).trans
      (settled.behind text (List.mem_cons_self ..)), settled.closed.behind⟩
  loaded := List.forall_mem_cons.mpr (List.forall_mem_cons.mp settled.loaded)
  settles := List.forall_mem_cons.mpr (List.forall_mem_cons.mp settled.settles)
  shrinks := List.pairwise_cons.mpr (List.pairwise_cons.mp settled.shrinks)

theorem entered {statement : Statement} {target : String} {bytes : List UInt8} {depth : Nat}
    (settled : Settled files (text :: around)) (member : statement ∈ text.script.statements)
    (event : statement.event = .leaf includeName target)
    (read : readText files (Path.resolve text.directory? target) = .ok bytes) :
    Settled files (.ofText (some (Path.resolve text.directory? target))
      (Path.resolve text.directory? target) bytes depth :: text :: around) := by
  have smaller {room : Nat} (settles : text.Settles files room) :=
    settles_included settles member event read depth
  obtain ⟨shrinks, -⟩ := List.pairwise_cons.mp settled.shrinks
  obtain ⟨settles, -⟩ := List.forall_mem_cons.mp settled.settles
  refine ⟨List.forall_mem_cons.mpr ⟨List.suffix_rfl, settled.behind⟩,
    List.forall_mem_cons.mpr ⟨?_, settled.loaded⟩, List.forall_mem_cons.mpr ⟨?_, settled.settles⟩,
    List.pairwise_cons.mpr ⟨List.forall_mem_cons.mpr ⟨fun room => smaller, ?_⟩, settled.shrinks⟩⟩
  · rintro _ ⟨⟩
    exact ⟨bytes, read, rfl⟩
  · obtain ⟨room, settles⟩ := settles
    obtain ⟨less, -, inside⟩ := smaller settles
    exact ⟨less, inside⟩
  · intro outer opened room settles
    obtain ⟨between, below, middle⟩ := shrinks outer opened room settles
    obtain ⟨less, deeper, inside⟩ := smaller middle
    exact ⟨less, deeper.trans below, inside⟩

/-- Files that are open inside one another are different files, since each settles with less room
than the one around it. -/
theorem paths_nodup {moment : Moment} (settled : Settled files moment.opened) :
    moment.paths.Nodup := by
  refine List.pairwise_filterMap.mpr (settled.shrinks.imp_of_mem ?_)
  rintro inner outer innerOpen outerOpen shrinks path inside _ outside rfl
  obtain ⟨bytes, read, script⟩ := settled.loaded inner innerOpen path inside
  obtain ⟨_, readAgain, same⟩ := settled.loaded outer outerOpen path outside
  obtain rfl := Except.ok.inj (read.symm.trans readAgain)
  have same (room : Nat) : inner.Settles files room ↔ outer.Settles files room := by
    rw [Opened.Settles, Opened.Settles, Opened.directory?, Opened.directory?, inside, outside,
      script, same]
  obtain ⟨room, settles⟩ := settled.settles outer outerOpen
  induction room using Nat.strong_induction_on with
  | _ room ih =>
    obtain ⟨less, below, settles⟩ := shrinks room settles
    exact ih less below ((same less).mp settles)

end Settled

/-- In a run that ends well, all texts that are ever open are settled. -/
theorem settled_of_passes {files : Files} {source : Source} {events : List Event}
    {moment : Moment} (said : source.document files = .ok events)
    (passes : Passes files (source.start files) moment) :
    Settled files moment.opened := by
  refine passes.invariant (fun moment => Settled files moment.opened) ?_ ?_
  · intro first starts
    obtain ⟨file?, origin, bytes, opened, read, same⟩ := opened_of_start starts
    have settles : (Opened.ofText file? origin bytes 0).Settles files maxIncludes :=
      ⟨origin, 0, events, same.symm.trans said⟩
    rw [opened]
    refine ⟨List.forall_mem_singleton.mpr List.suffix_rfl, List.forall_mem_singleton.mpr ?_,
      List.forall_mem_singleton.mpr ⟨maxIncludes, settles⟩, List.pairwise_singleton _ _⟩
    exact fun path file => ⟨bytes, read path file, rfl⟩
  · intro moment next settled goes
    obtain ⟨text, around, opened, cases⟩ := opened_of_step goes
    rw [opened] at settled
    rcases cases with closed | ⟨statement, rest, depth, behind, same⟩ |
      ⟨statement, rest, target, bytes, behind, event, -, read, more⟩
    · exact closed ▸ settled.closed
    · exact same ▸ settled.advanced behind depth
    · have member : statement ∈ text.script.statements :=
        (settled.behind text (List.mem_cons_self ..)).mem (behind ▸ List.mem_cons_self ..)
      exact more ▸ (settled.advanced behind text.depth).entered member event read

end ServiceConfig.Document
