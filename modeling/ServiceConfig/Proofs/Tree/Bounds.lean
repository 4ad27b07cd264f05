import ServiceConfig.Proofs.Document.Run
import ServiceConfig.Proofs.Tree.Growth

/-! # Bounds of reading

Reading ends for every file system. A tree is only ever built by a run in which few files are open
inside one another, each of them once, and its entries stand inside few blocks. So a file that is
reached again while it is open spoils the run.
-/

namespace ServiceConfig

open Grammar

/-- The blocks on the way to an entry of a forest, the entry itself included if it is one, are no
more than the height of the forest. -/
theorem Grammar.Forest.listing_within {forest : Forest} {depth : Nat}
    {shown : Nat × String × Option String × Kind} (member : shown ∈ forest.listing depth) :
    shown.1 + (if shown.2.2.2 = .block then 1 else 0) ≤ depth + forest.height := by
  induction forest generalizing depth with
  | nil => cases member
  | leaf name value rest ih =>
    rcases List.mem_cons.mp member with rfl | later
    · exact Nat.le_add_right _ _
    · exact ih later
  | block name value? below rest ihBelow ih =>
    rw [Forest.height]
    rcases List.mem_cons.mp member with rfl | later
    · dsimp only
      rw [if_pos rfl]
      omega
    · rcases List.mem_append.mp later with inside | behind
      · have deep := ihBelow inside
        omega
      · have deep := ih behind
        omega

/-- The tree of what a source says. -/
def Document.Source.load (files : Files) : Document.Source → Except ConfigError Tree
  | .text origin bytes => Tree.parse files origin bytes
  | .file path => Tree.read files path

namespace Tree

open Document Ascii

variable {files : Files} {source : Source} {tree : Tree}

private theorem load_eq (files : Files) (source : Source) :
    source.load files = (source.document files).map ofEvents := by
  cases source <;> rfl

/-- A tree that is loaded is the tree of a forest that fits. -/
theorem exists_forest (built : source.load files = .ok tree) :
    ∃ forest : Forest, source.document files = .ok forest.events ∧
      0 + forest.height ≤ maxBlocks ∧ ofEvents forest.events = tree := by
  rw [load_eq] at built
  obtain ⟨events, said, rfl⟩ := map_eq_ok.mp built
  have fits : Fits 0 events := by
    cases source with
    | text => exact fits_parse said
    | file => exact fits_ofFile (Nat.zero_le _) said
  obtain ⟨forest, rfl, low⟩ := fits
  exact ⟨forest, said, low, rfl⟩

theorem row_within (built : source.load files = .ok tree) {row : Row}
    (member : row ∈ tree.rows root) :
    row.depth + (if row.entry.kind = .block then 1 else 0) ≤ maxBlocks := by
  obtain ⟨forest, said, low, rfl⟩ := exists_forest built
  have shown := List.mem_map_of_mem (f := Row.shown) member
  rw [rows_ofEvents] at shown
  exact (Forest.listing_within shown).trans low

private theorem row_depth_le (built : source.load files = .ok tree) {row : Row}
    (member : row ∈ tree.rows root) : row.depth ≤ maxBlocks :=
  (Nat.le_add_right _ _).trans (row_within built member)

/-- Reading ends, whatever files there are, and its outcome is the one of its run. In a run that
builds a tree, includes nest at most `maxIncludes` deep and no file is open twice at any moment, and
no entry of the tree stands inside more than `maxBlocks` blocks. So a run in which a file is reached
again while it is open ends in an error. -/
theorem includes_bounded (files : Files) (source : Source) :
    (∃ outcome, Ends files (source.start files) outcome ∧
      source.load files = outcome.map ofEvents) ∧
    (∀ tree, source.load files = .ok tree →
      (∀ moment, Passes files (source.start files) moment →
        moment.included.length ≤ maxIncludes ∧ moment.paths.Nodup) ∧
      ∀ row ∈ tree.rows root, row.depth ≤ maxBlocks) ∧
    ((∃ moment, Passes files (source.start files) moment ∧ ¬ moment.paths.Nodup) →
      ∃ error, source.load files = .error error) := by
  have once {tree : Tree} (built : source.load files = .ok tree) {moment : Moment}
      (passes : Passes files (source.start files) moment) : moment.paths.Nodup := by
    obtain ⟨events, said, -⟩ := map_eq_ok.mp ((load_eq files source).symm.trans built)
    exact (settled_of_passes said passes).paths_nodup
  refine ⟨⟨_, ends_document files source, load_eq files source⟩, ?_, ?_⟩
  · intro tree built
    refine ⟨fun moment passes => ⟨included_length_le passes, once built passes⟩, ?_⟩
    exact fun row member => row_depth_le built member
  · rintro ⟨moment, passes, again⟩
    cases built : source.load files with
    | error error => exact ⟨error, rfl⟩
    | ok tree => exact absurd (once built passes) again

/-- A file `a` that includes a file `b` gives a tree; a file `z` that includes itself gives none. -/
theorem includes_bounded_cycle :
    let includes (target : UInt8) : List UInt8 :=
      [36, 73, 78, 67, 76, 85, 68, 69, space, target, semicolon]
    let files : Files := fun path =>
      if path = "a" then .ok (includes 98) else if path = "b" then .ok [99, space, 49, semicolon]
      else if path = "z" then .ok (includes 122) else .error .notFound
    (∃ tree, Source.load files (.file "a") = .ok tree ∧
      (∀ moment, Passes files (Source.start files (.file "a")) moment →
        moment.included.length ≤ maxIncludes ∧ moment.paths.Nodup) ∧
      ∀ row ∈ tree.rows root, row.depth ≤ maxBlocks) ∧
    (∃ moment, Passes files (Source.start files (.file "z")) moment ∧ moment.paths = ["z", "z"]) ∧
    ∃ error, Source.load files (.file "z") = .error error := by
  intro includes files
  have scripted : Script.ofText [36, 73, 78, 67, 76, 85, 68, 69, space, 98, semicolon] =
      ⟨[⟨1, .leaf "$INCLUDE" "b"⟩], none⟩ := by cbv
  have scriptedInside : Script.ofText [99, space, 49, semicolon] =
      ⟨[⟨1, .leaf "c" "1"⟩], none⟩ := by cbv
  have scriptedAgain : Script.ofText [36, 73, 78, 67, 76, 85, 68, 69, space, 122, semicolon] =
      ⟨[⟨1, .leaf "$INCLUDE" "z"⟩], none⟩ := by cbv
  have target : Path.resolve (Path.parent? "a") "b" = "b" := by cbv
  have targetAgain : Path.resolve (Path.parent? "z") "z" = "z" := by cbv
  have read : readText files "a" = .ok (includes 98) := by decide
  have readInside : readText files "b" = .ok [99, space, 49, semicolon] := by decide
  have readAgain : readText files "z" = .ok (includes 122) := by decide
  have inside : ofFile files maxIncludes "b" 0 = .ok [.leaf "c" "1"] := by
    rw [maxIncludes, ofFile, readInside]
    show ofText _ _ [99, space, 49, semicolon] 0 = _
    rw [ofText, scriptedInside]
    rfl
  have built : Source.load files (.file "a") = .ok (ofEvents [.leaf "c" "1"]) := by
    rw [Source.load, Tree.read, Document.read, ofFile, read]
    show (ofText _ _ (includes 98) 0).map ofEvents = _
    rw [ofText, scripted]
    dsimp only
    rw [resolve_include rfl, target, inside]
    rfl
  let outer : Opened := .ofText (some "z") "z" (includes 122) 0
  have starts : Source.start files (.file "z") = .goes ⟨[outer], []⟩ := by
    rw [Source.start, openFile, if_neg (by decide), readAgain]
  let twice : Moment := ⟨[outer, { outer with rest := [] }], []⟩
  have opens : Moment.step files ⟨[outer], []⟩ = .goes twice := by
    rw [step_include (congrArg Script.statements scriptedAgain) rfl]
    show openFile files (Path.resolve (Path.parent? "z") "z") 0 _ _ = _
    rw [targetAgain, openFile, if_neg (by decide), readAgain]
  have passes : Passes files (Source.start files (.file "z")) twice := by
    rw [starts]
    refine .later ?_
    rw [opens]
    exact .here
  have again : ¬ twice.paths.Nodup := by
    show ¬ ["z", "z"].Nodup
    decide
  exact ⟨⟨_, built, (includes_bounded files (.file "a")).2.1 _ built⟩, ⟨_, passes, rfl⟩,
    (includes_bounded files (.file "z")).2.2 ⟨_, passes, again⟩⟩

end Tree

end ServiceConfig
