import Mathlib
import ServiceConfig.Proofs.Document.Content
import ServiceConfig.Proofs.Document.Run
import ServiceConfig.Proofs.Path
import ServiceConfig.Tree.Load

/-! # Reading below another directory

Files that are all found below a directory, at the paths they had before, are read with the same
result: every include is looked up below the directory again. Both runs go side by side. At each
moment the same statements are still to come from the texts that are open, and of two files that
correspond the one is looked up below the directory where the other is looked up without it, or
with `./` in its place.
-/

namespace ServiceConfig

open Grammar

/-- An error apart from the names of files and texts. -/
def ConfigError.unnamed : ConfigError → ConfigError
  | .file _ fault => .file "" fault
  | .text _ complaint => .text "" complaint
  | .includeDepth _ => .includeDepth ""
  | .invalidValue name value => .invalidValue name value

namespace Document

/-- The target of the include that comes next, if one does. -/
def Moment.target? (moment : Moment) : Option String :=
  (moment.opened.head?.bind (·.rest.head?)).bind fun statement =>
    match statement.event with
    | .leaf name target => if name = includeName then some target else none
    | .opening _ _ | .closing => none

/-- Below a directory of `moved` there is what `files` has. A leading `./` makes no difference to a
path, and a path that names nothing is no file. The empty path is no path below the directory,
unless it is the one to `start` with. -/
structure Relocated (files moved : Files) (directory start : String) : Prop where
  named : Path.EndsInName directory
  below : ∀ path, Path.IsBelow path → path = start ∨ path ≠ "" →
    moved (directory ++ "/" ++ path) = files path
  dotted : ∀ path, Path.IsBelow path → path ≠ "" → files ("./" ++ path) = files path
  nameless : ∀ path bytes, Path.names path = [] → files path ≠ .ok bytes

/-- A path as it is looked up below the directory, and as it is looked up without it. -/
def Shifted (directory start path other : String) : Prop :=
  ∃ inner, Path.IsBelow inner ∧ (inner = start ∨ inner ≠ "") ∧ other = directory ++ "/" ++ inner ∧
    (path = inner ∨ inner ≠ "" ∧ path = "./" ++ inner)

section

variable {files moved : Files} {directory start path other : String}

theorem Relocated.lookup (relocated : Relocated files moved directory start)
    (shifted : Shifted directory start path other) : moved other = files path := by
  obtain ⟨inner, below, known, rfl, rfl | ⟨nonempty, rfl⟩⟩ := shifted
  · exact relocated.below path below known
  · rw [relocated.below inner below known, relocated.dotted inner below nonempty]

/-- The target of an include is shifted as the file is that includes it. -/
theorem Shifted.resolve (shifted : Shifted directory start path other)
    (place : Path.IsPlace directory) (named : Path.names path ≠ []) {target : String}
    (below : Path.IsBelow target) (nonempty : target ≠ "") :
    Shifted directory start (Path.resolve (Path.parent? path) target)
      (Path.resolve (Path.parent? other) target) := by
  obtain ⟨inner, inside, -, rfl, same⟩ := shifted
  have under_ne : Path.under (Path.stem inner) target ≠ "" := by
    rw [Path.under]
    split_ifs
    · exact nonempty
    · simp
  have leads : Path.dropIdle inner.toList.reverse ≠ [] := by
    intro dropped
    have none := Path.names_eq_nil dropped
    rcases same with rfl | ⟨-, rfl⟩
    · exact named none
    · exact named ((Path.names_here inner).trans none)
  refine ⟨Path.under (Path.stem inner) target, inside.under below, .inr under_ne,
    Path.resolve_place place leads below.relative, ?_⟩
  rcases same with rfl | ⟨-, rfl⟩
  · exact (Path.resolve_relative inside.relative leads below.relative).imp_right (⟨under_ne, ·⟩)
  · exact .inr ⟨under_ne, Path.resolve_here leads below.relative⟩

/-- Texts that are read from corresponding files, and have the same still to say. -/
structure Twin (directory start : String) (text other : Opened) : Prop where
  script : other.script = text.script
  rest : other.rest = text.rest
  depth : other.depth = text.depth
  regular : ∀ statement ∈ text.rest, statement.event.Regular
  shifted : ∃ path ∈ text.file?, ∃ otherPath ∈ other.file?,
    Shifted directory start path otherPath ∧ Path.names path ≠ []

/-- Two runs that are at corresponding moments, or at ends that differ in names only. -/
inductive Alike (directory start : String) : Progress → Progress → Prop
  | goes {opened others : List Opened} (twins : List.Forall₂ (Twin directory start) opened others)
      (said : List Event) : Alike directory start (.goes ⟨opened, said⟩) (.goes ⟨others, said⟩)
  | ends {outcome result : Except ConfigError (List Event)}
      (same : result.mapError ConfigError.unnamed = outcome.mapError ConfigError.unnamed) :
    Alike directory start (.ends outcome) (.ends result)

theorem Alike.openFile (relocated : Relocated files moved directory start)
    (shifted : Shifted directory start path other) {opened others : List Opened}
    (twins : List.Forall₂ (Twin directory start) opened others) {depth otherDepth : Nat}
    (same : otherDepth = depth) (said : List Event) :
    Alike directory start (openFile files path depth opened said)
      (openFile moved other otherDepth others said) := by
  rw [Document.openFile, Document.openFile, ← twins.length_eq, readText, readText,
    relocated.lookup shifted]
  split_ifs with full
  · exact .ends rfl
  · cases read : files path with
    | error fault => exact .ends rfl
    | ok bytes =>
      dsimp only
      split_ifs with valid
      · have named : Path.names path ≠ [] := fun none => relocated.nameless path bytes none read
        have twin : Twin directory start (.ofText (some path) path bytes depth)
            (.ofText (some other) other bytes otherDepth) :=
          ⟨rfl, rfl, same, Script.ofText_regular bytes, path, rfl, other, rfl, shifted, named⟩
        exact .goes (.cons twin twins) said
      · exact .ends rfl

/-- Runs at corresponding moments take corresponding steps. -/
theorem Alike.step (relocated : Relocated files moved directory start)
    {opened others : List Opened} (twins : List.Forall₂ (Twin directory start) opened others)
    (said : List Event)
    (targets : ∀ target ∈ Moment.target? ⟨opened, said⟩, Path.IsBelow target) :
    Alike directory start (Moment.step files ⟨opened, said⟩)
      (Moment.step moved ⟨others, said⟩) := by
  cases twins with
  | nil => exact .ends rfl
  | @cons text other around othersAround twin twins =>
    cases behind : text.rest with
    | nil =>
      have behindToo : other.rest = [] := twin.rest.trans behind
      cases complaint : text.script.complaint? with
      | none =>
        rw [step_end behind complaint, step_end behindToo (twin.script ▸ complaint)]
        exact .goes twins said
      | some own =>
        rw [step_complaint behind complaint, step_complaint behindToo (twin.script ▸ complaint)]
        exact .ends rfl
    | cons statement rest =>
      have behindToo : other.rest = statement :: rest := twin.rest.trans behind
      obtain ⟨regular, later⟩ := List.forall_mem_cons.mp (behind ▸ twin.regular)
      have advanced {depth otherDepth : Nat} (same : otherDepth = depth) :
          List.Forall₂ (Twin directory start) ({ text with rest, depth } :: around)
            ({ other with rest, depth := otherDepth } :: othersAround) :=
        .cons ⟨twin.script, rfl, same, later, twin.shifted⟩ twins
      cases event : statement.event with
      | leaf name value =>
        by_cases named : name = includeName
        · rw [named] at event
          rw [event] at regular
          have below : Path.IsBelow value := by
            refine targets value ?_
            simp [Moment.target?, behind, event]
          obtain ⟨path, file, otherPath, otherFile, shifted, leads⟩ := twin.shifted
          have place := Path.isPlace_of_endsInName relocated.named
          have shifted := shifted.resolve place leads below (regular.2 (by decide))
          have beside : text.directory? = Path.parent? path := by rw [Opened.directory?, file]; rfl
          have besideToo : other.directory? = Path.parent? otherPath := by
            rw [Opened.directory?, otherFile]
            rfl
          rw [step_include behind event, step_include behindToo event, beside, besideToo]
          exact .openFile relocated shifted (advanced twin.depth) twin.depth said
        · rw [step_leaf behind event named, step_leaf behindToo event named]
          exact .goes (advanced twin.depth) _
      | opening name value? =>
        by_cases room : text.depth < maxBlocks
        · have roomToo : other.depth < maxBlocks := by rwa [twin.depth]
          have deeper : other.depth + 1 = text.depth + 1 := congrArg (· + 1) twin.depth
          rw [step_opening behind event room, step_opening behindToo event roomToo]
          exact .goes (advanced deeper) _
        · have fullToo : ¬ other.depth < maxBlocks := by rwa [twin.depth]
          rw [step_tooDeep behind event room, step_tooDeep behindToo event fullToo]
          exact .ends rfl
      | closing =>
        rw [step_closing behind event, step_closing behindToo event]
        have outside : other.depth - 1 = text.depth - 1 := congrArg (· - 1) twin.depth
        exact .goes (advanced outside) _

/-- So if the one run ends, the other does, and the outcomes differ in names only. -/
theorem Ends.alike (relocated : Relocated files moved directory start)
    {progress progressToo : Progress} {outcome : Except ConfigError (List Event)}
    (ends : Ends files progress outcome) (alike : Alike directory start progress progressToo)
    (targets : ∀ moment, Passes files progress moment →
      ∀ target ∈ moment.target?, Path.IsBelow target) :
    ∃ result, Ends moved progressToo result ∧
      result.mapError ConfigError.unnamed = outcome.mapError ConfigError.unnamed := by
  induction ends generalizing progressToo with
  | now =>
    cases alike with
    | ends same => exact ⟨_, .now, same⟩
  | later rest ih =>
    cases alike with
    | goes twins said =>
      have next := Alike.step relocated twins said (targets _ .here)
      obtain ⟨result, ends, same⟩ := ih next fun moment passes => targets moment (.later passes)
      exact ⟨result, .later ends, same⟩

/-- A statement that leads to a place below where it is looked up, if it is an include. -/
def IncludesBelow (statement : Statement) : Prop :=
  ∀ target, statement.event = .leaf includeName target → Path.IsBelow target

/-- All that is still to come in the texts that are open includes files below. -/
def Moment.IncludesBelow (moment : Moment) : Prop :=
  ∀ text ∈ moment.opened, ∀ statement ∈ text.rest, Document.IncludesBelow statement

private theorem files_of_readText {bytes : List UInt8} (read : readText files path = .ok bytes) :
    files path = .ok bytes := by
  rw [readText] at read
  split at read
  · cases read
  next found =>
    split_ifs at read
    rw [found, Except.ok.inj read]

theorem Moment.IncludesBelow.target {moment : Moment} (below : moment.IncludesBelow) :
    ∀ target ∈ moment.target?, Path.IsBelow target := by
  intro target next
  obtain ⟨statement, first, follows⟩ := Option.bind_eq_some_iff.mp next
  obtain ⟨text, innermost, comes⟩ := Option.bind_eq_some_iff.mp first
  refine below text (List.mem_of_head? innermost) statement (List.mem_of_head? comes) target ?_
  split at follows
  next name value event =>
    split_ifs at follows with named
    cases follows
    rw [event, named]
  all_goals cases follows

theorem Moment.IncludesBelow.step {moment next : Moment} (below : moment.IncludesBelow)
    (within : ∀ path bytes, files path = .ok bytes →
      ∀ statement ∈ (Script.ofText bytes).statements, Document.IncludesBelow statement)
    (goes : moment.step files = .goes next) : next.IncludesBelow := by
  obtain ⟨text, around, opened, cases⟩ := opened_of_step goes
  rw [Moment.IncludesBelow, opened] at below
  obtain ⟨here, outside⟩ := List.forall_mem_cons.mp below
  rw [Moment.IncludesBelow]
  rcases cases with closed | ⟨statement, rest, depth, behind, same⟩ |
    ⟨statement, rest, target, bytes, behind, event, -, read, more⟩
  · rwa [closed]
  · rw [behind] at here
    rw [same]
    exact List.forall_mem_cons.mpr ⟨(List.forall_mem_cons.mp here).2, outside⟩
  · rw [behind] at here
    rw [more]
    refine List.forall_mem_cons.mpr ⟨within _ bytes (files_of_readText read), ?_⟩
    exact List.forall_mem_cons.mpr ⟨(List.forall_mem_cons.mp here).2, outside⟩

/-- Where no file has an include that leads elsewhere, no include of a run does. -/
theorem isBelow_of_files {moment : Moment}
    (within : ∀ path bytes, files path = .ok bytes →
      ∀ statement ∈ (Script.ofText bytes).statements, IncludesBelow statement)
    (passes : Passes files (Source.start files (.file path)) moment) :
    ∀ target ∈ moment.target?, Path.IsBelow target := by
  suffices below : moment.IncludesBelow from below.target
  refine passes.invariant Moment.IncludesBelow ?_ fun _ _ below goes => below.step within goes
  intro first starts
  rw [Source.start, openFile, List.length_nil, if_neg (Nat.not_lt_zero maxIncludes)] at starts
  split at starts
  · cases starts
  next bytes read =>
    cases starts
    exact List.forall_mem_singleton.mpr (within path bytes (files_of_readText read))

end

end Document

namespace Tree

open Document

variable {files moved : Files} {directory path : String}

/-- A file that is read below a directory gives the tree that it gives without the directory, and if
it cannot be read, the same error apart from the names of files, if all that was found without the
directory is found below it, and if neither the path nor the target of any include on the way is
absolute or has a `..` component. -/
theorem read_relocated (relocated : Relocated files moved directory path)
    (below : Path.IsBelow path)
    (targets : ∀ moment, Passes files (Source.start files (.file path)) moment →
      ∀ target ∈ moment.target?, Path.IsBelow target) :
    (Tree.read moved (directory ++ "/" ++ path)).mapError ConfigError.unnamed =
      (Tree.read files path).mapError ConfigError.unnamed := by
  have shifted : Shifted directory path path (directory ++ "/" ++ path) :=
    ⟨path, below, .inl rfl, rfl, .inl rfl⟩
  have alike : Alike directory path (Source.start files (.file path))
      (Source.start moved (.file (directory ++ "/" ++ path))) :=
    .openFile relocated shifted .nil rfl []
  obtain ⟨result, ends, same⟩ := (ends_document files (.file path)).alike relocated alike targets
  rw [ends.unique (ends_document moved _)] at same
  rw [Tree.read, Tree.read, map_mapError, map_mapError]
  exact congrArg (Except.map ofEvents) same

/-- A file that includes one in a directory, which includes another one next to it. -/
theorem read_relocated_nested :
    let table (names : List (List Char)) : Except FileFault (List UInt8) :=
      if names = [['m']] then .ok (Utf8.encode "$INCLUDE sub/a;")
      else if names = [['s', 'u', 'b'], ['a']] then .ok (Utf8.encode "$INCLUDE ./b; c 1;")
      else if names = [['s', 'u', 'b'], ['b']] then .ok (Utf8.encode "d 2;")
      else .error .notFound
    let files : Files := fun path => table (Path.names path)
    let moved : Files := fun path =>
      match Path.names path with
      | ['e', 't', 'c'] :: names => table names
      | _ => .error .notFound
    Relocated files moved "etc" "./m" ∧
      Tree.read files "./m" = .ok (ofEvents [.leaf "d" "2", .leaf "c" "1"]) ∧
      (Tree.read moved ("etc" ++ "/" ++ "./m")).mapError ConfigError.unnamed =
        (Tree.read files "./m").mapError ConfigError.unnamed := by
  intro table files moved
  have relocated : Relocated files moved "etc" "./m" := by
    refine ⟨⟨['e', 't', 'c'], by decide, by decide⟩, fun path _ _ => ?_, fun path _ _ => ?_, ?_⟩
    · have names : Path.names ("etc" ++ "/" ++ path) = ['e', 't', 'c'] :: Path.names path :=
        Path.names_append "etc" path
      simp only [moved, names, files]
    · simp only [files, Path.names_here]
    · intro path bytes none found
      simp [files, table, none] at found
  have read : Document.read files "./m" = .ok [.leaf "d" "2", .leaf "c" "1"] := by
    subst files table
    cbv
  refine ⟨relocated, by rw [Tree.read, read]; rfl, ?_⟩
  refine read_relocated relocated ⟨by decide, by decide⟩ fun moment passes => ?_
  refine isBelow_of_files ?_ passes
  intro path bytes found
  have first : (Script.ofText (Utf8.encode "$INCLUDE sub/a;")).statements =
      [⟨1, .leaf "$INCLUDE" "sub/a"⟩] := by cbv
  have second : (Script.ofText (Utf8.encode "$INCLUDE ./b; c 1;")).statements =
      [⟨1, .leaf "$INCLUDE" "./b"⟩, ⟨1, .leaf "c" "1"⟩] := by cbv
  have third : (Script.ofText (Utf8.encode "d 2;")).statements = [⟨1, .leaf "d" "2"⟩] := by cbv
  simp only [files, table] at found
  split_ifs at found
  all_goals obtain rfl := Except.ok.inj found
  · rw [first]
    refine List.forall_mem_singleton.mpr fun target event => ?_
    obtain ⟨-, rfl⟩ := Event.leaf.inj event
    exact ⟨by decide, by decide⟩
  · rw [second]
    refine List.forall_mem_cons.mpr ⟨fun target event => ?_, List.forall_mem_singleton.mpr ?_⟩
    · obtain ⟨-, rfl⟩ := Event.leaf.inj event
      exact ⟨by decide, by decide⟩
    · exact fun target event => absurd (Event.leaf.inj event).1 (by decide)
  · rw [third]
    refine List.forall_mem_singleton.mpr fun target event => ?_
    exact absurd (Event.leaf.inj event).1 (by decide)

end Tree

end ServiceConfig
