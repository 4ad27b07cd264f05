import ServiceConfig.Proofs.Dump.Arguments
import ServiceConfig.Proofs.Live
import ServiceConfig.Proofs.Trail
import ServiceConfig.Proofs.Tree.Enumeration

/-! # What a dump prints

A file that is refused gives one line on the error stream, behind what the subscriber prints there.
The tree of any other file is printed whole, or searched for a name, and then everything of that
name is printed in document order: of leaves the values only, or each entry for itself, a block with
all that is in it. The two searches go different ways through the tree and come to the same entries.
-/

namespace ServiceConfig

variable {files : Files} {tree : Tree} {shape : Shape} {query : Query}

namespace Dump

/-- The first leaf among the entries at the top that has this name, in any case. -/
def topLeaf? (tree : Tree) (name : String) : Option Entry :=
  ((tree.scope Tree.root false).filterMap tree.entry?).find? fun entry =>
    entry.kind = .leaf ∧ Ascii.equalFold entry.name name

/-- Why a file is not dumped: it cannot be read, or what it says of debugging is not a switch. -/
inductive Refused (files : Files) (file : String) : ConfigError → Prop
  | unread {error : ConfigError} (failed : Tree.read files file = .error error) :
    Refused files file error
  | debug {tree : Tree} {entry : Entry} {value : String} (read : Tree.read files file = .ok tree)
    (found : topLeaf? tree "debug" = some entry) (valued : entry.value? = some value)
    (unclear : Text.readSwitch? value = none) :
    Refused files file (.invalidValue "debug" value)

def named (options : Options) (name : String) (entry : Entry) : Bool :=
  if options.caseSensitive then entry.name == name else Ascii.equalFold entry.name name

/-- Everything of a name, at any depth and in document order. -/
def rowsOf (options : Options) (tree : Tree) (name : String) : List Row :=
  (tree.rows Tree.root).filter (named options name ·.entry)

/-- How an entry is printed for itself, under its own name: a leaf on a line, a block as a line and
what is in it. -/
inductive Printed (tree : Tree) (entry : Entry) : String → Prop
  | leaf {value : String} (childless : entry.children? = none)
    (valued : entry.value? = some value) :
    Printed tree entry (entry.name ++ " = " ++ value ++ "\n")
  | block {children : ListId} (owns : entry.children? = some children)
    (bare : entry.value? = none) :
    Printed tree entry ("[" ++ entry.name ++ "]\n" ++ tree.display children)
  | valuedBlock {children : ListId} {value : String} (owns : entry.children? = some children)
    (valued : entry.value? = some value) :
    Printed tree entry ("[" ++ entry.name ++ " " ++ value ++ "]\n" ++ tree.display children)

/-- What is printed of a tree. -/
structure Shows (options : Options) (tree : Tree) (stdout : String) : Prop where
  whole : options.find? = none → stdout = tree.display Tree.root
  values : ∀ name, options.find? = some name → options.valuesOnly = true →
    ∃ values, stdout = String.join (values.map (· ++ "\n")) ∧
      List.Forall₂ (fun row value => row.entry.value? = some value)
        ((rowsOf options tree name).filter (·.entry.kind = .leaf)) values
  entries : ∀ name, options.find? = some name → options.valuesOnly = false →
    ∃ parts, stdout = String.join parts ∧
      List.Forall₂ (fun row part => Printed tree row.entry part) (rowsOf options tree name) parts
  once : ((tree.rows Tree.root).map Row.id).Nodup
  again : ∀ name, ∀ outer ∈ rowsOf options tree name, ∀ children ∈ outer.entry.children?,
    ∀ inner ∈ tree.rows children, named options name inner.entry = true →
      ∃ row ∈ rowsOf options tree name, row.id = inner.id ∧ row.entry = inner.entry

/-- What a command comes to if `traces message` stands on the error stream when its load has logged
this message. A file that is refused gives one line there and no output; of any other file the tree
is shown. -/
structure Prints (files : Files) (options : Options) (traces : Log.Message → String)
    (output : Output) : Prop where
  refused : ∀ error, Refused files options.file error →
    output = ⟨1, "", traces ⟨.error, "conf", error.message⟩ ++
      ("confdump: " ++ error.message ++ "\n")⟩
  shown : (∀ error, ¬Refused files options.file error) →
    ∃ tree stdout, Tree.read files options.file = .ok tree ∧
      output = ⟨0, stdout, traces ⟨.notice, "conf", Live.loadedMessage options.file tree⟩⟩ ∧
      Shows options tree stdout

theorem findValue?_eq (represents : tree.Represents shape) (name : String) :
    tree.findValue? Tree.root { name := name } = (topLeaf? tree name).bind (·.value?) := by
  have asked : tree.fits (Query.ofKind { name := name } .leaf) = fun id =>
      (tree.entry? id).any fun entry =>
        entry.kind = .leaf ∧ Ascii.equalFold entry.name name := by
    have same : (Query.ofKind { name := name } .leaf).matchesEntry = fun entry =>
        decide (entry.kind = .leaf ∧ Ascii.equalFold entry.name name) := by
      funext entry
      simp [Query.matchesEntry, Query.ofKind, Query.same, Bool.and_comm, @eq_comm _ Kind.leaf]
    funext id
    rw [Tree.fits, same]
  have shown := represents.shows_leaf Tree.root { name := name } none
  rw [represents.findNext?_first, List.head?_filter, asked] at shown
  rw [Tree.findValue?, topLeaf?, List.find?_filterMap]
  change Option.Rel tree.ShowsLeaf ((tree.scope Tree.root false).find? _) _ at shown
  generalize (tree.scope Tree.root false).find? _ = found? at shown ⊢
  generalize tree.findLeafNext? Tree.root _ none = leaf? at shown ⊢
  cases shown with
  | none => rfl
  | some shows =>
    obtain ⟨rfl, entry, live, valued⟩ := shows
    simp only [Option.map_some, Option.bind_some, live, valued]

private theorem findParsed_eq_error {α : Type} {list : ListId} {read? : String → Option α}
    {error : ConfigError} : tree.findParsed list query read? = .error error ↔
      ∃ value, tree.findValue? list query = some value ∧ read? value = none ∧
        .invalidValue query.name value = error := by
  unfold Tree.findParsed
  cases tree.findValue? list query with
  | none => simp
  | some value => cases parsed : read? value <;> simp [parsed]

private theorem findBool_eq_error (represents : tree.Represents shape) {error : ConfigError} :
    tree.findBool Tree.root { name := "debug" } = .error error ↔
      ∃ entry value, topLeaf? tree "debug" = some entry ∧ entry.value? = some value ∧
        Text.readSwitch? value = none ∧ .invalidValue "debug" value = error := by
  rw [Tree.findBool, findParsed_eq_error, findValue?_eq represents]
  constructor
  · rintro ⟨value, found, unclear, same⟩
    obtain ⟨entry, found, valued⟩ := Option.bind_eq_some_iff.mp found
    exact ⟨entry, value, found, valued, unclear, same⟩
  · rintro ⟨entry, value, found, valued, unclear, same⟩
    exact ⟨value, Option.bind_eq_some_iff.mpr ⟨entry, found, valued⟩, unclear, same⟩

private theorem candidate_of_ok {file : String} (read : Tree.read files file = .ok tree) :
    Live.candidate files file =
      (tree.findBool Tree.root { name := "debug" }).map (tree, ·) := by
  rw [Live.candidate, read]
  rfl

private theorem candidate_of_refused {file : String} {error : ConfigError}
    (refused : Refused files file error) : Live.candidate files file = .error error := by
  cases refused with
  | unread failed =>
    rw [Live.candidate, failed]
    rfl
  | debug read top valued unclear =>
    obtain ⟨shape, represents⟩ := (Tree.Reachable.read read).represents
    have failed := (findBool_eq_error represents).mpr ⟨_, _, top, valued, unclear, rfl⟩
    rw [candidate_of_ok read, failed]
    rfl

private theorem exists_candidate {file : String} (admitted : ∀ error, ¬Refused files file error) :
    ∃ tree debug?, Tree.read files file = .ok tree ∧
      Live.candidate files file = .ok (tree, debug?) := by
  cases read : Tree.read files file with
  | error error => exact absurd (.unread read) (admitted error)
  | ok tree =>
    obtain ⟨shape, represents⟩ := (Tree.Reachable.read read).represents
    cases found : tree.findBool Tree.root { name := "debug" } with
    | error error =>
      obtain ⟨entry, value, top, valued, unclear, -⟩ := (findBool_eq_error represents).mp found
      exact absurd (.debug read top valued unclear) (admitted _)
    | ok debug? => exact ⟨tree, debug?, rfl, by rw [candidate_of_ok read, found]; rfl⟩

variable {options : Options} {name : String}

private theorem matchesEntry_query : (options.query name).matchesEntry = named options name := by
  funext entry
  exact (Bool.and_true _).trans (Bool.and_true _)

/-- Entries are told by the rows that show them. -/
private theorem filter_ids {rows : List Row}
    (live : ∀ row ∈ rows, tree.entry? row.id = some row.entry) (test : Entry → Bool) :
    (rows.map Row.id).filter (fun id => (tree.entry? id).any test) =
      (rows.filter (test ·.entry)).map Row.id := by
  rw [List.filter_map]
  congr 1
  exact List.filter_congr fun row member => by simp [live row member]

private theorem filterMap_entry {rows : List Row}
    (live : ∀ row ∈ rows, tree.entry? row.id = some row.entry) :
    (rows.map Row.id).filterMap tree.entry? = rows.map Row.entry := by
  rw [List.filterMap_map, ← List.filterMap_eq_map]
  exact List.filterMap_congr live

private theorem rowsOf_live (represents : tree.Represents shape) :
    ∀ row ∈ rowsOf options tree name, tree.entry? row.id = some row.entry := fun row member =>
  represents.rows_live Tree.root row (List.mem_filter.mp member).1

private theorem scope_query : tree.scope Tree.root (options.query name).recursive =
    (tree.rows Tree.root).map Row.id := rfl

theorem matching_eq (represents : tree.Represents shape) :
    tree.matching Tree.root (options.query name) = (rowsOf options tree name).map Row.id := by
  have asked : tree.fits (options.query name) =
      fun id => (tree.entry? id).any (named options name) := by
    funext id
    rw [Tree.fits, matchesEntry_query]
  rw [represents.matching_eq, scope_query, asked, filter_ids (represents.rows_live Tree.root),
    rowsOf]

private theorem filter_asks (represents : tree.Represents shape) :
    (tree.scope Tree.root (options.query name).recursive).filter
        (tree.asks (options.query name) .leaf) =
      ((rowsOf options tree name).filter (·.entry.kind = .leaf)).map Row.id := by
  have asked : tree.asks (options.query name) .leaf =
      fun id => (tree.entry? id).any fun entry =>
        named options name entry && entry.kind = .leaf := by
    funext id
    rw [Tree.asks, ← matchesEntry_query]
    rfl
  rw [scope_query, asked, filter_ids (represents.rows_live Tree.root), rowsOf, List.filter_filter]
  simp only [Bool.and_comm]

private theorem matchingLeaves_eq (represents : tree.Represents shape) :
    List.Forall₂ (fun row leaf => row.entry.value? = some leaf.2)
      ((rowsOf options tree name).filter (·.entry.kind = .leaf))
      (tree.matchingLeaves Tree.root (options.query name)) := by
  obtain ⟨leaves, shown, yields⟩ :=
    (represents.enumeratesKinds Tree.root (options.query name)).leaves
  have enough : leaves.length ≤ tree.entries.next := by
    rw [← shown.length_eq]
    exact (List.length_filter_le ..).trans (represents.scope_length_le ..)
  have all : tree.matchingLeaves Tree.root (options.query name) = leaves := yields.enumerate enough
  rw [filter_asks represents, List.forall₂_map_left_iff] at shown
  have live : ∀ row ∈ (rowsOf options tree name).filter (·.entry.kind = .leaf),
      tree.entry? row.id = some row.entry := fun row member =>
    rowsOf_live represents row (List.mem_filter.mp member).1
  rw [all]
  refine ((List.forall₂_and_left _ _).mpr ⟨live, shown⟩).imp ?_
  rintro row leaf ⟨live, -, entry, liveToo, valued⟩
  obtain rfl := Option.some.inj (live.symm.trans liveToo)
  exact valued

private theorem printed_entryText (represents : tree.Represents shape) {id : EntryId}
    {entry : Entry} (live : tree.entry? id = some entry) : Printed tree entry (entryText tree entry) := by
  unfold entryText
  cases owns : entry.children? with
  | none =>
    obtain ⟨value, valued⟩ := Option.isSome_iff_exists.mp
      (represents.wellFormed.leaf_valued live owns)
    simp only [valued, Option.getD_some]
    exact .leaf owns valued
  | some children =>
    unfold Entry.header
    cases valued : entry.value? with
    | none => exact .block owns valued
    | some value => exact .valuedBlock owns valued

private theorem shows_text (represents : tree.Represents shape) (options : Options) :
    Shows options tree (text options tree) where
  whole absent := by rw [text, absent]
  values name asked valuesOnly := by
    refine ⟨(tree.matchingLeaves Tree.root (options.query name)).map Prod.snd, ?_, ?_⟩
    · simp [text, asked, valuesOnly, Function.comp_def]
    · exact List.forall₂_map_right_iff.mpr (matchingLeaves_eq represents)
  entries name asked whole := by
    have live : ∀ row ∈ rowsOf options tree name, tree.entry? row.id = some row.entry :=
      rowsOf_live represents
    refine ⟨(rowsOf options tree name).map (entryText tree ·.entry), ?_, ?_⟩
    · simp only [text, asked, whole, Bool.false_eq_true, if_false, matching_eq represents,
        filterMap_entry live, List.map_map, Function.comp_def]
    · exact List.forall₂_map_right_iff.mpr <| List.forall₂_same.mpr fun row member =>
        printed_entryText represents (live row member)
  once := represents.scope_nodup Tree.root true
  again name outer _ children _ inner member asked := by
    obtain ⟨depth, shown⟩ :=
      represents.exists_row (represents.rows_live children inner member)
    exact ⟨_, List.mem_filter.mpr ⟨shown, asked⟩, rfl, rfl⟩

example : text ⟨"f", some "a", false, false⟩
    (Tree.ofEvents [.opening "a" none, .leaf "a" "1", .leaf "A" "2", .closing]) =
      "[a]\n-> a = '1'\n-> A = '2'\na = 1\nA = 2\n" := by cbv

variable {subscriber : Subscriber}

/-- Each event of a load is printed behind the trail. -/
private theorem errorText_cons (live : Live) (trail : List Record) (message : Log.Message)
    (later : List Log.Event) (failed : Bool) (error? : Option ConfigError) :
    errorText subscriber ⟨live, trail, ⟨.traced message :: later, failed⟩, error?⟩ =
      subscriber.text (trail ++ [message.record]) ++
        String.join (later.mapIdx fun number event =>
          eventText subscriber (trail.length + (number + 1)) event) := by
  rw [errorText, Subscriber.text_append, List.mapIdx_cons, String.join_cons, String.append_assoc]
  rfl

private theorem errorText_rejected (live : Live) (trail : List Record) (text : String)
    (error? : Option ConfigError) :
    errorText subscriber ⟨live, trail, logger.log ⟨.error, Live.source, text⟩, error?⟩ =
      subscriber.text (trail ++ [Log.Message.record ⟨.error, Live.source, text⟩]) ++
        ("confdump: " ++ text ++ "\n") := by
  have outcome : logger.log ⟨.error, Live.source, text⟩ =
      ⟨[.traced ⟨.error, Live.source, text⟩,
        .called programName ⟨.error, Live.source, text⟩ none], false⟩ := rfl
  rw [outcome, errorText_cons]
  simp [eventText, programName]

private theorem errorText_accepted (live : Live) (trail : List Record) (debug? : Option Bool)
    (text : String) (error? : Option ConfigError) :
    errorText subscriber ⟨live, trail,
        (debug?.elim logger logger.setDebug).log ⟨.notice, Live.source, text⟩, error?⟩ =
      subscriber.text (trail ++ [Log.Message.record ⟨.notice, Live.source, text⟩]) := by
  have outcome : (debug?.elim logger logger.setDebug).log ⟨.notice, Live.source, text⟩ =
      ⟨[.traced ⟨.notice, Live.source, text⟩], false⟩ := by
    cases debug? <;> rfl
  rw [outcome, errorText_cons, List.mapIdx_nil, String.join_nil, String.append_empty]

variable {parser : ArgumentParser} {arguments : List String}

private theorem dump_refused {error : ConfigError} (refused : Refused files options.file error)
    (subscriber : Subscriber) :
    (dump subscriber files options).behind subscriber.start =
      ⟨1, "", subscriber.printed files options.file ⟨.error, Live.source, error.message⟩ ++
        ("confdump: " ++ error.message ++ "\n")⟩ := by
  rw [dump, Live.carryOut_load, Live.carryOut_rejected (candidate_of_refused refused)]
  refine congrArg (Output.mk 1 "") ?_
  rw [Subscriber.printed, String.append_assoc]
  exact congrArg _ (errorText_rejected ..)

private theorem dump_accepted {debug? : Option Bool}
    (accepted : Live.candidate files options.file = .ok (tree, debug?)) (subscriber : Subscriber) :
    (dump subscriber files options).behind subscriber.start =
      ⟨0, text options tree, subscriber.printed files options.file
        ⟨.notice, Live.source, Live.loadedMessage options.file tree⟩⟩ := by
  rw [dump, Live.carryOut_load, Live.carryOut_accepted accepted]
  refine congrArg (Output.mk 0 (text options tree)) ?_
  rw [Subscriber.printed]
  exact congrArg _ (errorText_accepted ..)

/-- A well-formed command line prints one line for a file that is refused, and else what it asks for
of the tree, in document order and each entry once. What the subscriber prints stands before that:
nothing if its filter is off, and a line for the same error if no filter is set. -/
theorem run_prints (documented : parser.Documented) (wellFormed : WellFormed arguments options)
    (subscriber : Subscriber) :
    let output := run parser subscriber files arguments
    Prints files options (subscriber.printed files options.file) output ∧
    (subscriber.Off → Prints files options (fun _ => "") output) ∧
    (subscriber.ErrorsOnly →
      Prints files options (fun message =>
        if message.level = .error then
          subscriber.line (Plan.trailOf files options.file).length message.record
        else "") output) := by
  intro output
  have printed : output = (dump subscriber files options).behind subscriber.start := by
    simp only [output, run, documented.accepts arguments options wellFormed]
  have prints : Prints files options (subscriber.printed files options.file) output := by
    rw [printed]
    refine ⟨fun error refused => dump_refused refused subscriber, fun admitted => ?_⟩
    obtain ⟨tree, debug?, read, accepted⟩ := exists_candidate admitted
    obtain ⟨shape, represents⟩ := (Tree.Reachable.read read).represents
    exact ⟨tree, text options tree, read, dump_accepted accepted subscriber,
      shows_text represents options⟩
  refine ⟨prints, fun off => ?_, fun only => ?_⟩
  · rwa [funext (off.printed files options.file)] at prints
  · rwa [funext (only.printed files options.file)] at prints

/-- A name that a block has, and two leaves in it, where nothing is traced; and a file that does not
exist, where errors are. -/
theorem run_prints_nested :
    let files : Files := fun path =>
      if path = "f" then .ok (Utf8.encode "a \x7b a 1; A 2; \x7d;") else .error .notFound
    let options : Options := ⟨"f", some "a", false, false⟩
    let tree := Tree.ofEvents [.opening "a" none, .leaf "a" "1", .leaf "A" "2", .closing]
    let errors : Subscriber :=
      ⟨"", fun record => record.level = .error, fun _ record => "ERROR " ++ record.text ++ "\n"⟩
    Dump.parser.Documented ∧ Subscriber.silent.Off ∧ errors.ErrorsOnly ∧
      WellFormed ["f", "--find", "a"] options ∧ (∀ error, ¬Refused files "f" error) ∧
      (rowsOf options tree "a").map Row.id = [⟨0⟩, ⟨1⟩, ⟨2⟩] ∧
      (∃ parts, run Dump.parser .silent files ["f", "--find", "a"] = ⟨0, String.join parts, ""⟩ ∧
        List.Forall₂ (fun row part => Printed tree row.entry part) (rowsOf options tree "a")
          parts) ∧
      WellFormed ["g"] ⟨"g", none, false, false⟩ ∧ Refused files "g" (.file "g" .notFound) ∧
      run Dump.parser errors files ["g"] =
        ⟨1, "", "ERROR g: No such file or directory (os error 2)\n" ++
          "confdump: g: No such file or directory (os error 2)\n"⟩ := by
  intro files options tree errors
  have only : errors.ErrorsOnly := ⟨rfl, fun _ => rfl⟩
  have wellFormed : WellFormed ["f", "--find", "a"] options :=
    ⟨[.file "f", .find "a"], .file rfl (.separate rfl .nothing), rfl, by decide, rfl, rfl, rfl,
      nofun⟩
  have alone : WellFormed ["g"] ⟨"g", none, false, false⟩ :=
    ⟨[.file "g"], .file rfl .nothing, rfl, by decide, rfl, rfl, rfl, nofun⟩
  have read : Tree.read files "f" = .ok tree := by
    subst tree
    cbv
  have silent : topLeaf? tree "debug" = none := by
    subst tree
    cbv
  have admitted : ∀ error, ¬Refused files "f" error := by
    rintro error (failed | ⟨readToo, top, -, -⟩)
    · rw [read] at failed
      cases failed
    · obtain rfl := Except.ok.inj (read.symm.trans readToo)
      rw [silent] at top
      cases top
  have refused : Refused files "g" (.file "g" .notFound) := .unread rfl
  have order : (rowsOf options tree "a").map Row.id = [⟨0⟩, ⟨1⟩, ⟨2⟩] := by
    subst options tree
    cbv
  obtain ⟨-, quiet, -⟩ := run_prints parser_documented wellFormed .silent
  obtain ⟨_, _, readToo, printed, shows⟩ := (quiet Subscriber.silent_off).shown admitted
  obtain rfl := Except.ok.inj (read.symm.trans readToo)
  obtain ⟨parts, rfl, described⟩ := shows.entries "a" rfl rfl
  obtain ⟨-, -, traced⟩ := run_prints parser_documented alone errors
  exact ⟨parser_documented, Subscriber.silent_off, only, wellFormed, admitted, order,
    ⟨parts, printed, described⟩, alone, refused, (traced only).refused _ refused⟩

end Dump

end ServiceConfig
