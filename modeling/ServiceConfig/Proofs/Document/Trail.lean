import ServiceConfig.Proofs.Document.Run
import ServiceConfig.Trail

/-! # The trail of a run

A run traces an include at the moment at which its statement comes up, before the file is opened.
What it traces from its first moment to its last is the trail that is told beforehand, statement by
statement and file by file.
-/

namespace ServiceConfig.Document

open Grammar

/-- What is traced at a moment: the include that comes up there, if any. -/
def Moment.record? (moment : Moment) : Option Record :=
  match moment.opened with
  | [] => none
  | text :: _ =>
    match text.rest with
    | [] => none
    | statement :: _ =>
      match statement.event with
      | .leaf name value =>
        if name = includeName then
          some (.including text.origin statement.line (Path.resolve text.directory? value))
        else none
      | .opening _ _ | .closing => none

/-- A run that begins like this traces these records until it ends. -/
inductive Traces (files : Files) : Progress → List Record → Prop
  | ended {outcome : Except ConfigError (List Event)} : Traces files (.ends outcome) []
  | silent {moment : Moment} {records : List Record} (quiet : moment.record? = none)
      (later : Traces files (moment.step files) records) : Traces files (.goes moment) records
  | traced {moment : Moment} {record : Record} {records : List Record}
      (own : moment.record? = some record) (later : Traces files (moment.step files) records) :
    Traces files (.goes moment) (record :: records)

/-- A run traces one trail. -/
theorem Traces.unique {files : Files} {progress : Progress} {records others : List Record}
    (first : Traces files progress records) (second : Traces files progress others) :
    records = others := by
  induction first generalizing others with
  | ended => cases second; rfl
  | silent quiet _ ih =>
    cases second with
    | silent _ later => exact ih later
    | traced own => cases quiet.symm.trans own
  | traced own _ ih =>
    cases second with
    | silent quiet => cases quiet.symm.trans own
    | traced same later =>
      obtain rfl := Option.some.inj (own.symm.trans same)
      rw [ih later]

section

variable {files : Files} {records : List Record}

/-- What is still traced of a text when its includes have so much room. -/
def Opened.trail (files : Files) (room : Nat) (text : Opened) : List Record :=
  let resolved := Path.resolve text.directory?
  resolveTrail (fun target inner => ofFile files room (resolved target) inner)
    (fun line target inner =>
      .including text.origin line (resolved target) :: fileTrail files room (resolved target) inner)
    text.depth text.rest

/-- The trail of an open text is traced, if those of the files that it includes are. -/
private theorem traces_of_trail {room : Nat} {around : List Opened} {text : Opened}
    {said : List Event}
    (opens : ∀ path inner (text : Opened) said records,
      Traces files (resume (text :: around) said (ofFile files room path inner)) records →
      Traces files (openFile files path inner (text :: around) said)
        (fileTrail files room path inner ++ records))
    (traces : Traces files (resume around said (text.remaining files room)) records) :
    Traces files (.goes ⟨text :: around, said⟩) (text.trail files room ++ records) := by
  generalize behind : text.rest = statements
  induction statements generalizing text said with
  | nil =>
    have quiet : Moment.record? ⟨text :: around, said⟩ = none := by
      simp only [Moment.record?, behind]
    have trail : text.trail files room = [] := by
      simp only [Opened.trail, behind, resolveTrail]
    rw [trail]
    refine .silent quiet ?_
    cases complaint : text.script.complaint? with
    | none =>
      rw [step_end behind complaint]
      simpa only [Opened.remaining, behind, complaint, resolve, resume, List.append_nil,
        List.nil_append] using traces
    | some own =>
      rw [step_complaint behind complaint]
      simpa only [Opened.remaining, behind, complaint, resolve, resume, List.nil_append]
        using traces
  | cons statement rest ih =>
    have goes {depth : Nat} {event : Event}
        (traces : Traces files (resume around said (({ text with rest, depth } : Opened).remaining
          files room |>.map (event :: ·))) records) :
        Traces files (.goes ⟨{ text with rest, depth } :: around, said ++ [event]⟩)
          (({ text with rest, depth } : Opened).trail files room ++ records) := by
      have moved := resume_map_append around said [event]
        (({ text with rest, depth } : Opened).remaining files room)
      exact ih (moved ▸ traces) rfl
    rw [Opened.remaining, behind] at traces
    cases event : statement.event with
    | leaf name value =>
      by_cases named : name = includeName
      · rw [named] at event
        rw [resolve_include event] at traces
        have own : Moment.record? ⟨text :: around, said⟩ =
            some (.including text.origin statement.line (Path.resolve text.directory? value)) := by
          simp only [Moment.record?, behind, event, if_true]
        simp only [Opened.trail, behind, resolveTrail, event, if_true, List.cons_append,
          List.append_assoc]
        refine .traced own ?_
        rw [step_include behind event]
        apply opens
        cases spliced : ofFile files room (Path.resolve text.directory? value) text.depth with
        | error error =>
          rw [spliced] at traces
          exact traces
        | ok events =>
          rw [spliced] at traces
          simp only [Except.bind, resume_map_append] at traces
          exact ih traces rfl
      · rw [resolve_leaf event named] at traces
        have quiet : Moment.record? ⟨text :: around, said⟩ = none := by
          simp only [Moment.record?, behind, event, if_neg named]
        simp only [Opened.trail, behind, resolveTrail, event, if_neg named]
        refine .silent quiet ?_
        rw [step_leaf behind event named]
        exact goes traces
    | opening name value? =>
      have quiet : Moment.record? ⟨text :: around, said⟩ = none := by
        simp only [Moment.record?, behind, event]
      by_cases inside : text.depth < maxBlocks
      · rw [resolve_opening event inside] at traces
        simp only [Opened.trail, behind, resolveTrail, event, if_pos inside]
        refine .silent quiet ?_
        rw [step_opening behind event inside]
        exact goes traces
      · rw [resolve_tooDeep event inside] at traces
        simp only [Opened.trail, behind, resolveTrail, event, if_neg inside]
        refine .silent quiet ?_
        rw [step_tooDeep behind event inside]
        exact traces
    | closing =>
      have quiet : Moment.record? ⟨text :: around, said⟩ = none := by
        simp only [Moment.record?, behind, event]
      rw [resolve_closing event] at traces
      simp only [Opened.trail, behind, resolveTrail, event]
      refine .silent quiet ?_
      rw [step_closing behind event]
      exact goes traces

/-- The trail of a file is traced, if it has the room that the texts around it leave. -/
private theorem traces_openFile {room : Nat} {path : String} {depth : Nat} {around : List Opened}
    {said : List Event} (left : room + around.length = maxIncludes + 1)
    (traces : Traces files (resume around said (ofFile files room path depth)) records) :
    Traces files (openFile files path depth around said)
      (fileTrail files room path depth ++ records) := by
  induction room generalizing path depth around said records with
  | zero =>
    rw [openFile, if_pos (by omega)]
    exact traces
  | succ room ih =>
    rw [openFile, if_neg (by omega)]
    rw [ofFile] at traces
    rw [fileTrail]
    cases read : readText files path with
    | error error =>
      rw [read] at traces
      exact traces
    | ok text =>
      rw [read] at traces
      apply traces_of_trail (fun _ _ _ _ _ => ih (by rw [List.length_cons]; omega))
      exact traces

end

/-- The run that reads a file traces the trail of the file, and nothing else. -/
theorem traces_file {files : Files} {path : String} {records : List Record} :
    Traces files ((Source.file path).start files) records ↔
      records = fileTrail files (maxIncludes + 1) path 0 := by
  have ended : Traces files (resume [] [] (ofFile files (maxIncludes + 1) path 0)) [] := by
    cases ofFile files (maxIncludes + 1) path 0 with
    | error error => exact .ended
    | ok events => exact .silent rfl .ended
  have traces := traces_openFile rfl ended
  rw [List.append_nil] at traces
  constructor
  · intro others
    exact others.unique traces
  · rintro rfl
    exact traces

end ServiceConfig.Document
