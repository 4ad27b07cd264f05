import ServiceConfig.Proofs.Document.Nesting
import ServiceConfig.Proofs.Tree.Growth

/-! # Splicing includes

An include stands for the tree that its target yields on its own: the entries of that tree are
appended, with all that is below them, to the list in which the include stands. `Assembles` says so
statement by statement, with no count of how deep blocks or files are nested. A text that is not
refused for its depth comes to exactly what its statements assemble.
-/

namespace ServiceConfig

open Grammar Ascii

namespace Tree

/-- Appending entries of `source`, with all that is below them, to the list `onto` of a tree leads
to another tree. -/
inductive Grafts (source : Tree) : List EntryId → Tree → ListId → Tree → Prop
  | nil {tree : Tree} {onto : ListId} : Grafts source [] tree onto tree
  | leaf {id copy : EntryId} {ids : List EntryId} {entry : Entry} {value : String}
      {tree pushed grown : Tree} {onto : ListId} (found : source.entry? id = some entry)
      (childless : entry.children? = none) (valued : entry.value? = some value)
      (push : tree.pushLeaf? onto entry.name value = some (copy, pushed))
      (later : Grafts source ids pushed onto grown) :
    Grafts source (id :: ids) tree onto grown
  | block {id copy : EntryId} {ids : List EntryId} {entry : Entry} {children below : ListId}
      {siblings : Siblings} {tree pushed filled grown : Tree} {onto : ListId}
      (found : source.entry? id = some entry) (owns : entry.children? = some children)
      (listed : source.list? children = some siblings)
      (push : tree.pushBlock? onto entry.name entry.value? = some (copy, below, pushed))
      (inside : Grafts source siblings.entries.toList pushed below filled)
      (later : Grafts source ids filled onto grown) :
    Grafts source (id :: ids) tree onto grown

/-- Processing statements from left to right leads from a tree to an outcome. `current` is the list
that entries are appended to, `outer` are the lists around it, innermost first, and targets are
looked up in a directory, if there is one. -/
inductive Assembles (files : Files) (directory? : Option String) (origin : String)
    (complaint? : Option Complaint) :
    Tree → ListId → List ListId → List Statement → Except ConfigError Tree → Prop
  | done {tree : Tree} {current : ListId} {outer : List ListId} (silent : complaint? = none) :
    Assembles files directory? origin complaint? tree current outer [] (.ok tree)
  | complains {tree : Tree} {current : ListId} {outer : List ListId} {complaint : Complaint}
      (own : complaint? = some complaint) :
    Assembles files directory? origin complaint? tree current outer []
      (.error (.text origin complaint))
  | leaf {tree pushed : Tree} {current : ListId} {outer : List ListId} {statement : Statement}
      {rest : List Statement} {outcome : Except ConfigError Tree} {name value : String}
      {id : EntryId} (event : statement.event = .leaf name value)
      (named : name ≠ Document.includeName)
      (push : tree.pushLeaf? current name value = some (id, pushed))
      (later : Assembles files directory? origin complaint? pushed current outer rest outcome) :
    Assembles files directory? origin complaint? tree current outer (statement :: rest) outcome
  | opening {tree pushed : Tree} {current children : ListId} {outer : List ListId}
      {statement : Statement} {rest : List Statement} {outcome : Except ConfigError Tree}
      {name : String} {value? : Option String} {id : EntryId}
      (event : statement.event = .opening name value?)
      (push : tree.pushBlock? current name value? = some (id, children, pushed))
      (later : Assembles files directory? origin complaint? pushed children (current :: outer) rest
        outcome) :
    Assembles files directory? origin complaint? tree current outer (statement :: rest) outcome
  | closing {tree : Tree} {current list : ListId} {outer : List ListId} {statement : Statement}
      {rest : List Statement} {outcome : Except ConfigError Tree}
      (event : statement.event = .closing)
      (later : Assembles files directory? origin complaint? tree list outer rest outcome) :
    Assembles files directory? origin complaint? tree current (list :: outer) (statement :: rest)
      outcome
  | splices {tree source grown : Tree} {current : ListId} {outer : List ListId}
      {statement : Statement} {rest : List Statement} {outcome : Except ConfigError Tree}
      {target : String} {top : Siblings}
      (event : statement.event = .leaf Document.includeName target)
      (read : Tree.read files (Path.resolve directory? target) = .ok source)
      (listed : source.list? root = some top)
      (grafts : Grafts source top.entries.toList tree current grown)
      (later : Assembles files directory? origin complaint? grown current outer rest outcome) :
    Assembles files directory? origin complaint? tree current outer (statement :: rest) outcome
  | fails {tree : Tree} {current : ListId} {outer : List ListId} {statement : Statement}
      {rest : List Statement} {target : String} {error : ConfigError}
      (event : statement.event = .leaf Document.includeName target)
      (read : Tree.read files (Path.resolve directory? target) = .error error) :
    Assembles files directory? origin complaint? tree current outer (statement :: rest)
      (.error error)

/-- What the statements of a text assemble, from the empty tree on. -/
def AssemblesText (files : Files) (directory? : Option String) (origin : String)
    (text : List UInt8) : Except ConfigError Tree → Prop :=
  Assembles files directory? origin (Script.ofText text).complaint? empty root []
    (Script.ofText text).statements

theorem Grafts.unique {source tree grown other : Tree} {ids : List EntryId} {onto : ListId}
    (first : Grafts source ids tree onto grown) (second : Grafts source ids tree onto other) :
    grown = other := by
  induction first generalizing other with
  | nil => cases second; rfl
  | leaf found childless valued push _ ih =>
    cases second with
    | leaf found' _ valued' push' later =>
      obtain rfl := Option.some.inj (found.symm.trans found')
      obtain rfl := Option.some.inj (valued.symm.trans valued')
      obtain ⟨-, rfl⟩ := Prod.mk.inj (Option.some.inj (push.symm.trans push'))
      exact ih later
    | block found' owns =>
      obtain rfl := Option.some.inj (found.symm.trans found')
      cases childless.symm.trans owns
  | block found owns listed push _ _ ihInside ih =>
    cases second with
    | leaf found' childless =>
      obtain rfl := Option.some.inj (found.symm.trans found')
      cases childless.symm.trans owns
    | block found' owns' listed' push' inside later =>
      obtain rfl := Option.some.inj (found.symm.trans found')
      obtain rfl := Option.some.inj (owns.symm.trans owns')
      obtain rfl := Option.some.inj (listed.symm.trans listed')
      obtain ⟨-, same⟩ := Prod.mk.inj (Option.some.inj (push.symm.trans push'))
      obtain ⟨rfl, rfl⟩ := Prod.mk.inj same
      obtain rfl := ihInside inside
      exact ih later

section

variable {files : Files} {directory? : Option String} {origin : String}
  {complaint? : Option Complaint}

theorem Assembles.unique {tree : Tree} {current : ListId} {outer : List ListId}
    {statements : List Statement} {outcome other : Except ConfigError Tree}
    (first : Assembles files directory? origin complaint? tree current outer statements outcome)
    (second : Assembles files directory? origin complaint? tree current outer statements other) :
    outcome = other := by
  induction first with
  | done silent =>
    cases second with
    | done => rfl
    | complains own => cases silent.symm.trans own
  | complains own =>
    cases second with
    | done silent => cases silent.symm.trans own
    | complains own' =>
      obtain rfl := Option.some.inj (own.symm.trans own')
      rfl
  | leaf event named push _ ih =>
    cases second with
    | leaf event' _ push' later =>
      obtain ⟨rfl, rfl⟩ := Event.leaf.inj (event.symm.trans event')
      obtain ⟨-, rfl⟩ := Prod.mk.inj (Option.some.inj (push.symm.trans push'))
      exact ih later
    | opening event' | closing event' => cases event.symm.trans event'
    | splices event' | fails event' =>
      exact absurd (Event.leaf.inj (event.symm.trans event')).1 named
  | opening event push _ ih =>
    cases second with
    | opening event' push' later =>
      obtain ⟨rfl, rfl⟩ := Event.opening.inj (event.symm.trans event')
      obtain ⟨-, same⟩ := Prod.mk.inj (Option.some.inj (push.symm.trans push'))
      obtain ⟨rfl, rfl⟩ := Prod.mk.inj same
      exact ih later
    | leaf event' | closing event' | splices event' | fails event' =>
      cases event.symm.trans event'
  | closing event _ ih =>
    cases second with
    | closing _ later => exact ih later
    | leaf event' | opening event' | splices event' | fails event' =>
      cases event.symm.trans event'
  | splices event read listed grafts _ ih =>
    cases second with
    | splices event' read' listed' grafts' later =>
      obtain ⟨-, rfl⟩ := Event.leaf.inj (event.symm.trans event')
      obtain rfl := Except.ok.inj (read.symm.trans read')
      obtain rfl := Option.some.inj (listed.symm.trans listed')
      obtain rfl := grafts.unique grafts'
      exact ih later
    | fails event' failed =>
      obtain ⟨-, rfl⟩ := Event.leaf.inj (event.symm.trans event')
      cases read.symm.trans failed
    | leaf event' named => exact absurd (Event.leaf.inj (event'.symm.trans event)).1 named
    | opening event' | closing event' => cases event.symm.trans event'
  | fails event read =>
    cases second with
    | fails event' read' =>
      obtain ⟨-, rfl⟩ := Event.leaf.inj (event.symm.trans event')
      exact congrArg Except.error (Except.error.inj (read.symm.trans read'))
    | splices event' found =>
      obtain ⟨-, rfl⟩ := Event.leaf.inj (event.symm.trans event')
      cases read.symm.trans found
    | leaf event' named => exact absurd (Event.leaf.inj (event'.symm.trans event)).1 named
    | opening event' | closing event' => cases event.symm.trans event'

end

section

open Shape

/-- Entries can be grafted onto the innermost opened list, which then is as it would be if the tree
had grown by what the entries stand for. -/
theorem Holds.grafts {source : Tree} {list : ListId} {owner? : Option EntryId} {position : Nat}
    {top : Shape} (holds : source.Holds list owner? position top) {tree : Tree}
    {frames : List Frame} {shape : Shape} (represents : tree.Represents (fill frames shape)) :
    ∃ grown more, Grafts source top.top tree (focus frames) grown ∧
      grown.Represents (fill frames more) ∧ ∀ later,
        tree.grow (focus frames) (outers frames) (top.forest.events ++ later) =
          grown.grow (focus frames) (outers frames) later := by
  induction holds generalizing tree frames shape with
  | nil => exact ⟨tree, shape, .nil, represents, fun later => rfl⟩
  | @leaf list owner? position id entry rest placed childless valued _ ih =>
    obtain ⟨value, value_eq⟩ := Option.isSome_iff_exists.mp valued
    obtain ⟨pushed, push, represents⟩ := represents.pushLeaf entry.name value
    obtain ⟨grown, more, grafts, represents, grew⟩ := ih represents
    refine ⟨grown, more, .leaf placed.live childless value_eq push grafts, represents, ?_⟩
    intro later
    rw [Shape.forest, value_eq, Option.getD_some, Forest.events, List.cons_append, Tree.grow, push]
    exact grew later
  | @block list owner? position id entry children below rest placed owns _ listed _ _ ihBelow ih =>
    obtain ⟨pushed, frame, push, opened, -⟩ := represents.openBlock entry.name entry.value?
    -- what is below goes into the new block, which then is an entry of the list like any other
    obtain ⟨filled, inner, inside, closed, grewBelow⟩ := ihBelow opened
    have closed : filled.Represents (fill frames (frame.fill inner)) := closed
    obtain ⟨grown, more, grafts, represents, grew⟩ := ih closed
    refine ⟨grown, more, .block placed.live owns listed push inside grafts, represents, ?_⟩
    intro later
    rw [Shape.forest, Forest.events_block_append, Tree.grow, push]
    exact (grewBelow _).trans (grew later)

/-- The tree of a forest's events can be grafted, and grows a tree by these events. -/
theorem grafts_ofEvents (forest : Forest) {tree : Tree} {frames : List Frame} {shape : Shape}
    (represents : tree.Represents (fill frames shape)) :
    ∃ top grown more, (ofEvents forest.events).list? root = some top ∧
      Grafts (ofEvents forest.events) top.entries.toList tree (focus frames) grown ∧
      grown.Represents (fill frames more) ∧ ∀ later,
        tree.grow (focus frames) (outers frames) (forest.events ++ later) =
          grown.grow (focus frames) (outers frames) later := by
  obtain ⟨held, source, rfl⟩ := represents_ofEvents forest
  obtain ⟨grown, more, grafts, represents, grew⟩ := source.lists.holds.grafts represents
  exact ⟨_, grown, more, source.lists.listed, grafts, represents, grew⟩

end

section

open Shape

variable {files : Files} {directory? : Option String} {origin : String}
  {complaint? : Option Complaint} {splice : String → Nat → Except ConfigError (List Event)}
  {depth : Nat}

/-- Growing by what statements resolve to is assembling them, if that is not refused for the depth.
The innermost opened list is the current one. -/
theorem assembles_resolve {statements : List Statement}
    (splices : ∀ target inner, Shallow (splice target inner) →
      splice target inner = Document.read files (Path.resolve directory? target))
    {tree : Tree} {frames : List Frame} {shape : Shape}
    (represents : tree.Represents (fill frames shape)) (nests : Nests frames.length statements)
    (shallow : Shallow (Document.resolve splice origin complaint? depth statements)) :
    Assembles files directory? origin complaint? tree (focus frames) (outers frames) statements
      ((Document.resolve splice origin complaint? depth statements).map
        (tree.grow (focus frames) (outers frames))) := by
  induction statements generalizing tree frames shape depth with
  | nil =>
    cases complaint? with
    | none => exact .done rfl
    | some complaint => exact .complains rfl
  | cons statement rest ih =>
    cases event : statement.event with
    | leaf name value =>
      have nests : Nests frames.length rest := by simpa [Nests, event] using nests
      by_cases named : name = Document.includeName
      · rw [named] at event
        rw [Document.resolve_include event] at shallow ⊢
        cases said : splice value depth with
        | error error =>
          rw [said] at shallow
          have alone := splices value depth (by rw [said]; exact shallow)
          refine .fails event ?_
          rw [Tree.read, ← alone, said]
          rfl
        | ok spliced =>
          rw [said] at shallow
          have alone := splices value depth (by rw [said]; exact shallow_ok spliced)
          rw [said] at alone
          -- the events grow the tree here, and they grow the tree that the target is on its own
          obtain ⟨forest, rfl, -⟩ := Document.fits_ofFile (Nat.zero_le _) alone.symm
          obtain ⟨top, grown, more, listed, grafts, represents, grew⟩ :=
            grafts_ofEvents forest represents
          refine .splices event (by rw [Tree.read, ← alone]; rfl) listed grafts ?_
          have later := ih represents nests (shallow_map.mp shallow)
          rw [Except.bind, Document.map_map]
          simpa only [grew] using later
      · rw [Document.resolve_leaf event named] at shallow ⊢
        obtain ⟨pushed, push, represents⟩ := represents.pushLeaf name value
        refine .leaf event named push ?_
        have later := ih represents nests (shallow_map.mp shallow)
        rw [Document.map_map]
        simpa only [Tree.grow, push] using later
    | opening name value? =>
      have nests : Nests (frames.length + 1) rest := by simpa [Nests, event] using nests
      by_cases room : depth < Document.maxBlocks
      · rw [Document.resolve_opening event room] at shallow ⊢
        obtain ⟨pushed, frame, push, opened, -⟩ := represents.openBlock name value?
        refine .opening event push ?_
        have later := ih opened nests (shallow_map.mp shallow)
        rw [Document.map_map]
        simp only [Tree.grow, push]
        exact later
      · rw [Document.resolve_tooDeep event room] at shallow
        exact absurd rfl (shallow _ rfl)
    | closing =>
      obtain ⟨outside, length, nests⟩ : ∃ outside, frames.length = outside + 1 ∧
        Nests outside rest := by simpa [Nests, event] using nests
      obtain ⟨frame, frames, rfl⟩ := List.exists_cons_of_length_eq_add_one length
      obtain rfl := Nat.succ.inj length
      rw [Document.resolve_closing event] at shallow ⊢
      have closed : tree.Represents (fill frames (frame.fill shape)) := represents
      have later := ih closed nests (shallow_map.mp shallow)
      rw [Document.map_map]
      exact .closing event later

private theorem assembles_ofText {text : List UInt8}
    (splices : ∀ target inner, Shallow (splice target inner) →
      splice target inner = Document.read files (Path.resolve directory? target))
    (shallow : Shallow (Document.ofText splice origin text 0)) :
    AssemblesText files directory? origin text
      ((Document.ofText splice origin text 0).map ofEvents) := by
  have start : empty.Represents (fill [] .nil) := represents_empty
  exact assembles_resolve splices start (Script.ofText_nests text) shallow

private theorem assembles_parse {text : List UInt8}
    (shallow : Shallow (Tree.parse files origin text)) :
    AssemblesText files none origin text (Tree.parse files origin text) :=
  assembles_ofText (fun _ _ => Document.ofFile_eq_read (Nat.le_succ _)) (shallow_map.mp shallow)

private theorem read_of_readText {path : String} {text : List UInt8}
    (read : Document.readText files path = .ok text) :
    Tree.read files path =
      (Document.ofText (fun target inner => Document.ofFile files Document.maxIncludes
        (Path.resolve (Path.parent? path) target) inner) path text 0).map ofEvents := by
  rw [Tree.read, Document.read, Document.ofFile, read]
  rfl

private theorem assembles_read {path : String} {text : List UInt8}
    (read : Document.readText files path = .ok text) (shallow : Shallow (Tree.read files path)) :
    AssemblesText files (Path.parent? path) path text (Tree.read files path) := by
  rw [read_of_readText read] at shallow ⊢
  exact assembles_ofText (fun _ _ => Document.ofFile_eq_read (Nat.le_succ _))
    (shallow_map.mp shallow)

end

/-- Includes are spliced. A text, or the text of a file, that is not refused for its depth comes to
what its statements assemble when each include stands for the tree of its target alone; this is its
only outcome. And what a file says inside other files and blocks is what it says on its own, if it
is not refused for its depth. -/
theorem splices_includes (files : Files) :
    (∀ origin text, Shallow (Tree.parse files origin text) → ∀ outcome,
      AssemblesText files none origin text outcome ↔ Tree.parse files origin text = outcome) ∧
    (∀ path text, Document.readText files path = .ok text → Shallow (Tree.read files path) →
      ∀ outcome, AssemblesText files (Path.parent? path) path text outcome ↔
        Tree.read files path = outcome) ∧
    (∀ path error, Document.readText files path = .error error →
      Tree.read files path = .error error) ∧
    ∀ room path depth, room ≤ Document.maxIncludes + 1 →
      Shallow (Document.ofFile files room path depth) →
      Document.ofFile files room path depth = Document.read files path := by
  refine ⟨?_, ?_, ?_, fun room path depth few => Document.ofFile_eq_read few⟩
  · intro origin text shallow outcome
    have assembles := assembles_parse shallow
    exact ⟨assembles.unique, fun same => same ▸ assembles⟩
  · intro path text read shallow outcome
    have assembles := assembles_read read shallow
    exact ⟨assembles.unique, fun same => same ▸ assembles⟩
  · intro path error failed
    rw [Tree.read, Document.read, Document.ofFile, failed]
    rfl

/-- The text `a{$INCLUDE b;};` of one file, and what it includes from another file next to it. -/
theorem splices_includes_nested :
    let text : List UInt8 := [97, openBrace, 36, 73, 78, 67, 76, 85, 68, 69, space, 98, semicolon,
      closeBrace, semicolon]
    let included : List UInt8 := [99, space, 49, semicolon]
    let files : Files := fun path =>
      if path = "d/a" then .ok text else if path = "d/b" then .ok included else .error .notFound
    Document.readText files "d/a" = .ok text ∧ Shallow (Tree.read files "d/a") ∧
      ∃ tree, AssemblesText files (some "d") "d/a" text (.ok tree) ∧
        (tree.rows root).map Row.shown = [(0, "a", none, .block), (1, "c", some "1", .leaf)] := by
  intro text included files
  have said : Script.ofText [97, openBrace, 36, 73, 78, 67, 76, 85, 68, 69, space, 98, semicolon,
      closeBrace, semicolon] =
      ⟨[⟨1, .opening "a" none⟩, ⟨1, .leaf "$INCLUDE" "b"⟩, ⟨1, .closing⟩], none⟩ := by cbv
  have saidInside : Script.ofText [99, space, 49, semicolon] = ⟨[⟨1, .leaf "c" "1"⟩], none⟩ := by
    cbv
  have directory : Path.parent? "d/a" = some "d" := by cbv
  have target : Path.resolve (some "d") "b" = "d/b" := by cbv
  have read : Document.readText files "d/a" = .ok text := by decide
  have readInside : Document.readText files "d/b" = .ok included := by decide
  have inside : Document.ofFile files Document.maxIncludes "d/b" 1 = .ok [.leaf "c" "1"] := by
    rw [Document.maxIncludes, Document.ofFile, readInside]
    show Document.ofText _ _ included 1 = _
    rw [Document.ofText, saidInside]
    rfl
  let forest : Forest := .block "a" none (.leaf "c" "1" .nil) .nil
  have whole : Tree.read files "d/a" = .ok (ofEvents forest.events) := by
    rw [read_of_readText read, directory, Document.ofText, said]
    dsimp only
    rw [Document.resolve_opening rfl (by decide), Document.resolve_include rfl, target, inside]
    rfl
  have shallow : Shallow (Tree.read files "d/a") := by
    rw [whole]
    exact shallow_ok _
  have assembles := ((splices_includes files).2.1 "d/a" text read shallow _).mpr whole
  rw [directory] at assembles
  exact ⟨read, shallow, _, assembles, rows_ofEvents forest⟩

end Tree

end ServiceConfig
