import Mathlib.Data.List.Basic
import ServiceConfig.Dump.Command

/-! # Well-formed command lines

A command line is written part by part: a file, a name to find in either spelling, a flag, or two
dashes and then files only. What the parts come to does not depend on their order. A command line is
well-formed if it can be written so, with one file and no option twice.
-/

namespace ServiceConfig.Dump

/-- What one argument, or an option with its value, asks for. -/
inductive Part
  | file (path : String)
  | find (name : String)
  | valuesOnly
  | caseSensitive
  deriving DecidableEq

def Part.file? : Part → Option String
  | .file path => some path
  | _ => none

def Part.name? : Part → Option String
  | .find name => some name
  | _ => none

/-- How parts are written as arguments. -/
inductive Written : List String → List Part → Prop
  | nothing : Written [] []
  | onlyFiles (paths : List String) : Written ("--" :: paths) (paths.map .file)
  | file {path : String} {rest : List String} {parts : List Part}
    (plain : looksLikeOption path = false) (later : Written rest parts) :
    Written (path :: rest) (.file path :: parts)
  | joined {name : String} {rest : List String} {parts : List Part} (later : Written rest parts) :
    Written (("--find=" ++ name) :: rest) (.find name :: parts)
  | separate {name : String} {rest : List String} {parts : List Part}
    (plain : looksLikeOption name = false) (later : Written rest parts) :
    Written ("--find" :: name :: rest) (.find name :: parts)
  | valuesOnly {rest : List String} {parts : List Part} (later : Written rest parts) :
    Written ("--entry" :: rest) (.valuesOnly :: parts)
  | caseSensitive {rest : List String} {parts : List Part} (later : Written rest parts) :
    Written ("--case-sensitive" :: rest) (.caseSensitive :: parts)

def Given.take? (given : Given) : Part → Option Given
  | .file path => given.setFile? path
  | .find name => given.setFind? name
  | .valuesOnly => given.setFlag? "--entry" none
  | .caseSensitive => given.setFlag? "--case-sensitive" none

variable {given result : Given} {arguments rest : List String} {parts : List Part}

private theorem splitJoined_join (name : String) :
    splitJoined ("--find=" ++ name) = ("--find", some name) := by
  simp [splitJoined, String.toList_append]

private theorem looksLikeOption_join (name : String) :
    looksLikeOption ("--find=" ++ name) = true := by
  simp [looksLikeOption, String.toList_append]

private theorem join_ne_end (name : String) : "--find=" ++ name ≠ "--" := by
  intro same
  have chars := congrArg String.toList same
  simp [String.toList_append] at chars

/-- An argument is its option and what is joined to it. -/
theorem splitJoined_eq {argument option : String} {joined? : Option String}
    (split : splitJoined argument = (option, joined?)) :
    argument = option ++ joined?.elim "" ("=" ++ ·) := by
  apply String.toList_inj.mp
  unfold splitJoined at split
  have whole : argument.toList.takeWhile (· ≠ '=') ++ argument.toList.dropWhile (· ≠ '=') =
      argument.toList := List.takeWhile_append_dropWhile
  rw [← whole]
  cases later : argument.toList.dropWhile (· ≠ '=') with
  | nil =>
    simp only [later, Prod.mk.injEq] at split
    obtain ⟨rfl, rfl⟩ := split
    simp
  | cons mark value =>
    have marked : mark = '=' := by
      have stopped := List.head?_dropWhile_not (fun char => decide (char ≠ '=')) argument.toList
      rw [later] at stopped
      simpa using stopped
    simp only [later, Prod.mk.injEq] at split
    obtain ⟨rfl, rfl⟩ := split
    simp [marked]

/-- Arguments are read as the parts that they write. -/
theorem Written.read (written : Written arguments parts) (given : Given) :
    given.read? arguments = parts.foldlM Given.take? given := by
  induction written generalizing given with
  | nothing => rfl
  | onlyFiles paths =>
    rw [Given.read?.eq_def, List.foldlM_map]
    rfl
  | @file path rest parts plain _ ih =>
    have other : path ≠ "--" := by
      rintro rfl
      exact absurd plain (by decide)
    rw [Given.read?.eq_def]
    simp only [other, if_false, plain, Bool.false_eq_true, List.foldlM_cons, ih]
    rfl
  | @joined name rest parts _ ih =>
    rw [Given.read?.eq_def]
    simp only [join_ne_end, if_false, looksLikeOption_join, if_true, splitJoined_join,
      List.foldlM_cons, ih]
    rfl
  | separate plain _ ih =>
    have option : looksLikeOption "--find" = true := by decide
    have split : splitJoined "--find" = ("--find", none) := by decide
    rw [Given.read?.eq_def]
    simp [option, split, plain, ih, Given.take?]
  | valuesOnly _ ih =>
    have option : looksLikeOption "--entry" = true := by decide
    have split : splitJoined "--entry" = ("--entry", none) := by decide
    rw [Given.read?.eq_def]
    simp [option, split, ih, Given.take?]
  | caseSensitive _ ih =>
    have option : looksLikeOption "--case-sensitive" = true := by decide
    have split : splitJoined "--case-sensitive" = ("--case-sensitive", none) := by decide
    rw [Given.read?.eq_def]
    simp [option, split, ih, Given.take?]

private theorem setFlag_plain {option : String} {joined? : Option String}
    (set : given.setFlag? option joined? = some result) : joined? = none := by
  cases joined? with
  | none => rfl
  | some value => cases set

/-- Whatever the command can read is written in parts. -/
theorem exists_written (accepted : given.read? arguments = some result) :
    ∃ parts, Written arguments parts := by
  fun_induction Given.read? given arguments with
  | case1 => exact ⟨[], .nothing⟩
  | case2 _ paths => exact ⟨paths.map .file, .onlyFiles paths⟩
  | case3 given argument rest _ _ name split ih =>
    obtain ⟨next, -, accepted⟩ := Option.bind_eq_some_iff.mp accepted
    obtain ⟨parts, written⟩ := ih next accepted
    obtain rfl := splitJoined_eq split
    exact ⟨_, .joined written⟩
  | case4 => cases accepted
  | case5 => cases accepted
  | case6 given argument _ _ split name rest plain ih =>
    obtain ⟨next, -, accepted⟩ := Option.bind_eq_some_iff.mp accepted
    obtain ⟨parts, written⟩ := ih next accepted
    obtain rfl := splitJoined_eq split
    exact ⟨_, .separate (eq_false_of_ne_true plain) written⟩
  | case7 given argument rest _ _ option joined? _ _ split known ih =>
    obtain ⟨next, set, accepted⟩ := Option.bind_eq_some_iff.mp accepted
    obtain ⟨parts, written⟩ := ih next accepted
    obtain rfl := setFlag_plain set
    obtain rfl := splitJoined_eq split
    simp only [Bool.or_eq_true, decide_eq_true_eq] at known
    rcases known with rfl | rfl
    · exact ⟨_, .valuesOnly written⟩
    · exact ⟨_, .caseSensitive written⟩
  | case8 => cases accepted
  | case9 given path rest _ plain ih =>
    obtain ⟨next, -, accepted⟩ := Option.bind_eq_some_iff.mp accepted
    obtain ⟨parts, written⟩ := ih next accepted
    exact ⟨_, .file (eq_false_of_ne_true plain) written⟩

/-- Whether a part sets what is not set yet. -/
def Given.Free (given : Given) : Part → Prop
  | .file path => given.file? = none ∧ path ≠ ""
  | .find _ => given.find? = none
  | .valuesOnly => given.valuesOnly = false
  | .caseSensitive => given.caseSensitive = false

def Given.after (given : Given) : Part → Given
  | .file path => { given with file? := some path }
  | .find name => { given with find? := some name }
  | .valuesOnly => { given with valuesOnly := true }
  | .caseSensitive => { given with caseSensitive := true }

private theorem take?_eq (given : Given) (part : Part) :
    (given.Free part ∧ given.take? part = some (given.after part)) ∨
      (¬given.Free part ∧ given.take? part = none) := by
  cases part with
  | file path =>
    by_cases filled : path = ""
    · cases file : given.file? <;> simp [Given.Free, Given.take?, Given.setFile?, file, filled]
    · cases file : given.file? <;>
        simp [Given.Free, Given.take?, Given.after, Given.setFile?, file, filled]
  | find name =>
    cases find : given.find? <;> simp [Given.Free, Given.take?, Given.after, Given.setFind?, find]
  | valuesOnly =>
    cases set : given.valuesOnly <;>
      simp [Given.Free, Given.take?, Given.after, Given.setFlag?, set]
  | caseSensitive =>
    cases set : given.caseSensitive <;>
      simp [Given.Free, Given.take?, Given.after, Given.setFlag?, set]

/-- The parts fill in what was not given before, each place once. -/
structure Given.Completed (given : Given) (parts : List Part) (result : Given) : Prop where
  file : given.file?.toList ++ parts.filterMap Part.file? = result.file?.toList
  named : "" ∉ parts.filterMap Part.file?
  find : given.find?.toList ++ parts.filterMap Part.name? = result.find?.toList
  valuesOnly : given.valuesOnly.toNat + parts.count .valuesOnly = result.valuesOnly.toNat
  caseSensitive :
    given.caseSensitive.toNat + parts.count .caseSensitive = result.caseSensitive.toNat

private theorem toList_append_cons {α : Type} {first? last? : Option α} {item : α}
    {items : List α} :
    first?.toList ++ item :: items = last?.toList ↔
      first? = none ∧ (some item).toList ++ items = last?.toList := by
  cases first? <;> cases last? <;> simp

private theorem toNat_add_succ {first last : Bool} {count : Nat} :
    first.toNat + (count + 1) = last.toNat ↔ first = false ∧ true.toNat + count = last.toNat := by
  cases first <;> cases last <;> simp [Nat.add_comm]

theorem toList_eq {α : Type} {first? last? : Option α} :
    first?.toList = last?.toList ↔ first? = last? := by
  cases first? <;> cases last? <;> simp

private theorem toNat_eq {first last : Bool} : first.toNat = last.toNat ↔ first = last := by
  cases first <;> cases last <;> simp

private theorem completed_nil : given.Completed [] result ↔ given = result := by
  constructor
  · rintro ⟨file, -, find, valuesOnly, caseSensitive⟩
    cases given
    cases result
    simp_all [toList_eq, toNat_eq]
  · rintro rfl
    exact ⟨List.append_nil _, List.not_mem_nil, List.append_nil _, rfl, rfl⟩

private theorem completed_cons {part : Part} : given.Completed (part :: parts) result ↔
    given.Free part ∧ (given.after part).Completed parts result := by
  cases part with
  | file path =>
    constructor
    · rintro ⟨file, named, find, valuesOnly, caseSensitive⟩
      obtain ⟨free, file⟩ := toList_append_cons.mp file
      obtain ⟨filled, named⟩ := List.ne_and_not_mem_of_not_mem_cons named
      exact ⟨⟨free, filled.symm⟩, file, named, find, valuesOnly, caseSensitive⟩
    · rintro ⟨⟨free, filled⟩, file, named, find, valuesOnly, caseSensitive⟩
      exact ⟨toList_append_cons.mpr ⟨free, file⟩,
        List.not_mem_cons_of_ne_of_not_mem filled.symm named, find, valuesOnly, caseSensitive⟩
  | find name =>
    constructor
    · rintro ⟨file, named, find, valuesOnly, caseSensitive⟩
      obtain ⟨free, find⟩ := toList_append_cons.mp find
      exact ⟨free, file, named, find, valuesOnly, caseSensitive⟩
    · rintro ⟨free, file, named, find, valuesOnly, caseSensitive⟩
      exact ⟨file, named, toList_append_cons.mpr ⟨free, find⟩, valuesOnly, caseSensitive⟩
  | valuesOnly =>
    constructor
    · rintro ⟨file, named, find, valuesOnly, caseSensitive⟩
      rw [List.count_cons_self] at valuesOnly
      obtain ⟨free, valuesOnly⟩ := toNat_add_succ.mp valuesOnly
      exact ⟨free, file, named, find, valuesOnly, caseSensitive⟩
    · rintro ⟨free, file, named, find, valuesOnly, caseSensitive⟩
      refine ⟨file, named, find, ?_, caseSensitive⟩
      rw [List.count_cons_self]
      exact toNat_add_succ.mpr ⟨free, valuesOnly⟩
  | caseSensitive =>
    constructor
    · rintro ⟨file, named, find, valuesOnly, caseSensitive⟩
      rw [List.count_cons_self] at caseSensitive
      obtain ⟨free, caseSensitive⟩ := toNat_add_succ.mp caseSensitive
      exact ⟨free, file, named, find, valuesOnly, caseSensitive⟩
    · rintro ⟨free, file, named, find, valuesOnly, caseSensitive⟩
      refine ⟨file, named, find, valuesOnly, ?_⟩
      rw [List.count_cons_self]
      exact toNat_add_succ.mpr ⟨free, caseSensitive⟩

private theorem foldlM_take?_iff :
    parts.foldlM Given.take? given = some result ↔ given.Completed parts result := by
  induction parts generalizing given with
  | nil => exact (Option.some.injEq ..).to_iff.trans completed_nil.symm
  | cons part parts ih =>
    rw [List.foldlM_cons, completed_cons]
    obtain ⟨free, taken⟩ | ⟨occupied, refused⟩ := take?_eq given part
    · rw [taken, and_iff_right free]
      exact ih
    · rw [refused]
      exact ⟨nofun, fun completed => absurd completed.1 occupied⟩

variable {options : Options}

/-- The parts of a command line for these options: one file, and each option at most once. -/
structure Requests (parts : List Part) (options : Options) : Prop where
  file : parts.filterMap Part.file? = [options.file]
  named : options.file ≠ ""
  find : parts.filterMap Part.name? = options.find?.toList
  valuesOnly : parts.count .valuesOnly = options.valuesOnly.toNat
  caseSensitive : parts.count .caseSensitive = options.caseSensitive.toNat
  needsFind : options.valuesOnly = true → options.find?.isSome

def WellFormed (arguments : List String) (options : Options) : Prop :=
  ∃ parts, Written arguments parts ∧ Requests parts options

/-- What has been given once the options are known. -/
def Options.asGiven (options : Options) : Given :=
  ⟨some options.file, options.find?, options.caseSensitive, options.valuesOnly⟩

private theorem finish?_eq_some : given.finish? = some options ↔
    given = options.asGiven ∧ (options.valuesOnly = true → options.find?.isSome) := by
  constructor
  · intro finished
    unfold Given.finish? at finished
    split at finished
    next => cases finished
    next file filled =>
      split at finished
      next => cases finished
      next enough =>
        obtain rfl := Option.some.inj finished
        refine ⟨?_, fun valuesOnly => ?_⟩
        · rw [Options.asGiven, ← filled]
        · cases find : given.find? with
          | none => simp_all
          | some => rfl
  · rintro ⟨rfl, needsFind⟩
    have enough : (options.valuesOnly && options.find?.isNone) = false := by
      cases find : options.find? <;> simp_all
    simp only [Given.finish?, Options.asGiven, enough, Bool.false_eq_true, if_false]

private theorem requests_iff : Requests parts options ↔
    Given.nothing.Completed parts options.asGiven ∧
      (options.valuesOnly = true → options.find?.isSome) := by
  constructor
  · rintro ⟨file, named, find, valuesOnly, caseSensitive, needsFind⟩
    refine ⟨⟨file, ?_, find, ?_, ?_⟩, needsFind⟩
    · rw [file]
      simpa using named.symm
    · exact (Nat.zero_add _).trans valuesOnly
    · exact (Nat.zero_add _).trans caseSensitive
  · rintro ⟨⟨file, named, find, valuesOnly, caseSensitive⟩, needsFind⟩
    have file : parts.filterMap Part.file? = [options.file] := file
    refine ⟨file, ?_, find, ?_, ?_, needsFind⟩
    · rw [file] at named
      exact fun empty => named (by simp [empty])
    · exact (Nat.zero_add _).symm.trans valuesOnly
    · exact (Nat.zero_add _).symm.trans caseSensitive

/-- Exactly the well-formed command lines are read. -/
theorem ofArguments?_eq_some :
    Options.ofArguments? arguments = some options ↔ WellFormed arguments options := by
  refine Option.bind_eq_some_iff.trans ⟨?_, ?_⟩
  · rintro ⟨given, reading, finished⟩
    obtain ⟨rfl, needsFind⟩ := finish?_eq_some.mp finished
    obtain ⟨parts, written⟩ := exists_written reading
    have completed := foldlM_take?_iff.mp (written.read _ ▸ reading)
    exact ⟨parts, written, requests_iff.mpr ⟨completed, needsFind⟩⟩
  · rintro ⟨parts, written, requests⟩
    obtain ⟨completed, needsFind⟩ := requests_iff.mp requests
    exact ⟨_, (written.read _).trans (foldlM_take?_iff.mpr completed),
      finish?_eq_some.mpr ⟨rfl, needsFind⟩⟩

/-- What is documented of a parser of the command's arguments: it reads the options of every
well-formed command line. What it makes of other lines is left open. -/
structure ArgumentParser.Documented (parser : ArgumentParser) : Prop where
  accepts : ∀ arguments options, WellFormed arguments options → parser arguments = .ok options

theorem parser_documented : parser.Documented where
  accepts arguments options wellFormed := by
    rw [parser, ofArguments?_eq_some.mpr wellFormed]

end ServiceConfig.Dump
