import ServiceConfig.Proofs.Document.Resolution
import ServiceConfig.Proofs.Grammar.Seam
import ServiceConfig.Proofs.Tree.Growth

/-! # Concatenating texts

An accepted text, a newline and another text are accepted together exactly if the second text is
accepted alone, and then the tree shows the entries of both, one after the other. What the second
text itself is blamed for is reported on a later line; the failures of its includes stay the same.
-/

namespace ServiceConfig

open Grammar Ascii

theorem Grammar.Forest.listing_append (forest more : Forest) (depth : Nat) :
    (forest ++ more).listing depth = forest.listing depth ++ more.listing depth := by
  induction forest generalizing depth with
  | nil => rfl
  | leaf name value rest ih => rw [leaf_append, listing, listing, ih, List.cons_append]
  | block name value? below rest _ ih =>
    rw [block_append, listing, listing, ih, List.cons_append, List.append_assoc]

namespace Document

variable {splice : String → Nat → Except ConfigError (List Event)} {origin : String}
  {complaint? : Option Complaint} {depth : Nat}

/-- What the same fault is on a later line. Only what a text itself is blamed for has a line in
it. -/
def laterFault (lines : Nat) : Complaint ⊕ ConfigError → Complaint ⊕ ConfigError :=
  Sum.map (·.later lines) id

private theorem outcome_later (lines : Nat) (statements : List Statement) :
    outcome splice (complaint?.map (·.later lines)) depth (statements.map (·.later lines)) =
      (outcome splice complaint? depth statements).mapError (laterFault lines) := by
  induction statements generalizing depth with
  | nil => cases complaint? <;> rfl
  | cons statement rest ih =>
    have same : (statement.later lines).event = statement.event := rfl
    rw [List.map_cons, outcome, outcome, same]
    cases statement.event with
    | leaf name value =>
      dsimp only
      split_ifs
      · cases splice value depth with
        | error error => rfl
        | ok spliced => simp only [ih, map_mapError]
      · rw [ih, map_mapError]
    | opening name value? =>
      dsimp only
      split_ifs
      · rw [ih, map_mapError]
      · rfl
    | closing =>
      dsimp only
      rw [ih, map_mapError]

/-- Behind an accepted text and a newline, another text comes to what it comes to alone. -/
theorem ofText_seam {first : List UInt8} {events : List Event}
    (said : ofText splice origin first depth = .ok events) (second : List UInt8) :
    ofText splice origin (first ++ newline :: second) depth =
      (((outcomeOf splice second depth).mapError (laterFault (newlines first + 1))).mapError
        (blame origin)).map (events ++ ·) := by
  rw [ofText] at said
  have accepted := complaint_eq_none said
  obtain ⟨source, forest, stripped, reads, -⟩ := Script.exists_reads_ofText accepted
  obtain ⟨front, spelt, alone, behind⟩ := Script.ofText_seam stripped reads
  rw [alone] at said
  rw [ofText, behind, outcomeOf, ← outcome_later, ← resolve_eq_outcome]
  cases unended : strip second with
  | error began =>
    rw [Script.ofText, unended]
    rfl
  | ok rest =>
    dsimp only [Script.prepend, Script.later]
    rw [resolve_append spelt, said]
    rfl

end Document

namespace Tree

variable {files : Files} {origin : String}

/-- The text itself is to blame: whatever its name, the complaint is reported under this name. -/
def Blames (files : Files) (text : List UInt8) (complaint : Complaint) : Prop :=
  ∀ origin, Tree.parse files origin text = .error (.text origin complaint)

/-- What a text comes to at the top level. -/
def outcomeOf (files : Files) (text : List UInt8) :
    Except (Complaint ⊕ ConfigError) (List Event) :=
  Document.outcomeOf (Document.ofFile files Document.maxIncludes) text 0

private theorem parse_eq_outcomeOf (files : Files) (origin : String) (text : List UInt8) :
    Tree.parse files origin text =
      ((outcomeOf files text).mapError (Document.blame origin)).map ofEvents := by
  rw [Tree.parse, Document.parse, Document.ofText_eq_outcomeOf, outcomeOf]

/-- The text is to blame for exactly the complaints that are its own. -/
theorem blames_iff {text : List UInt8} {complaint : Complaint} :
    Blames files text complaint ↔ outcomeOf files text = .error (.inl complaint) := by
  refine Iff.trans (forall_congr' fun origin => ?_) Document.own_iff
  rw [Tree.parse, Document.parse]
  cases Document.ofText (Document.ofFile files Document.maxIncludes) origin text 0 with
  | error error =>
    exact ⟨fun same => congrArg Except.error (Except.error.inj same),
      fun same => congrArg Except.error (Except.error.inj same)⟩
  | ok events => exact ⟨nofun, nofun⟩

private theorem exists_forest_outcomeOf {text : List UInt8} {events : List Event}
    (outcome : outcomeOf files text = .ok events) : ∃ forest : Forest, forest.events = events := by
  have said : Document.parse files "" text = .ok events := by
    rw [Document.parse, Document.ofText_eq_outcomeOf]
    exact congrArg (·.mapError (Document.blame "")) outcome
  obtain ⟨forest, events, -⟩ := Document.fits_parse said
  exact ⟨forest, events⟩

/-- Behind an accepted text, which says a forest, the events of another text are appended. -/
theorem parse_seam {first : List UInt8} {tree : Tree}
    (parsed : Tree.parse files origin first = .ok tree) :
    ∃ forest : Forest, tree = ofEvents forest.events ∧ ∀ second,
      Tree.parse files origin (first ++ newline :: second) =
        (((outcomeOf files second).mapError (Document.laterFault (newlines first + 1))).mapError
          (Document.blame origin)).map (ofEvents <| forest.events ++ ·) := by
  rw [Tree.parse] at parsed
  obtain ⟨events, said, rfl⟩ := Document.map_eq_ok.mp parsed
  obtain ⟨forest, rfl, -⟩ := Document.fits_parse said
  refine ⟨forest, rfl, fun second => ?_⟩
  rw [Tree.parse, Document.parse, Document.ofText_seam said, outcomeOf]
  cases Document.outcomeOf (Document.ofFile files Document.maxIncludes) second 0 <;> rfl

/-- Concatenation with a newline in between, behind an accepted text. The whole is accepted exactly
if the second text is, and lists what both texts list. A complaint the second text is to blame for
is the complaint of the whole, as many lines later as the first text is long; any other error stays
the same. -/
theorem parse_concat {first : List UInt8} {tree : Tree}
    (parsed : Tree.parse files origin first = .ok tree) (second : List UInt8) :
    let whole := first ++ newline :: second
    ((∃ joined, Tree.parse files origin whole = .ok joined) ↔
      ∃ later, Tree.parse files origin second = .ok later) ∧
    (∀ joined later, Tree.parse files origin whole = .ok joined →
      Tree.parse files origin second = .ok later →
      (joined.rows root).map Row.shown =
        (tree.rows root).map Row.shown ++ (later.rows root).map Row.shown) ∧
    (∀ complaint, Blames files second complaint →
      Tree.parse files origin whole =
        .error (.text origin ⟨complaint.line + 1 + newlines first, complaint.fault⟩)) ∧
    ∀ error, Tree.parse files origin second = .error error →
      (¬ ∃ complaint, Blames files second complaint) →
      Tree.parse files origin whole = .error error := by
  intro whole
  obtain ⟨forest, rfl, seam⟩ := parse_seam parsed
  have joins := seam second
  have alone := parse_eq_outcomeOf files origin second
  simp only [blames_iff]
  cases outcome : outcomeOf files second with
  | ok events =>
    obtain ⟨more, rfl⟩ := exists_forest_outcomeOf outcome
    rw [outcome] at joins alone
    refine ⟨⟨fun _ => ⟨_, alone⟩, fun _ => ⟨_, joins⟩⟩, ?_, nofun, ?_⟩
    · intro joined later whole_eq second_eq
      obtain rfl := Except.ok.inj (joins.symm.trans whole_eq)
      obtain rfl := Except.ok.inj (alone.symm.trans second_eq)
      dsimp only
      rw [← Forest.events_append, rows_ofEvents, rows_ofEvents, rows_ofEvents,
        Forest.listing_append]
    · intro error failed
      cases alone.symm.trans failed
  | error failure =>
    rw [outcome] at joins alone
    have rejected {text : List UInt8} {error : ConfigError}
        (failed : Tree.parse files origin text = .error error) :
        ¬ ∃ tree, Tree.parse files origin text = .ok tree := by
      rw [failed]
      rintro ⟨tree, ⟨⟩⟩
    refine ⟨iff_of_false (rejected joins) (rejected alone), ?_, ?_, ?_⟩
    · intro joined later whole_eq
      exact absurd ⟨joined, whole_eq⟩ (rejected joins)
    · rintro complaint ⟨⟩
      refine joins.trans ?_
      rw [Nat.add_assoc, Nat.add_comm 1]
      rfl
    · intro error failed foreign
      cases failure with
      | inl own => exact absurd ⟨own, rfl⟩ foreign
      | inr other =>
        obtain rfl : other = error := Except.error.inj (alone.symm.trans failed)
        exact joins

/-- The first text ends in a comment, and the second begins on the next line. -/
theorem parse_concat_commented :
    let files : Files := fun _ => .error .notFound
    let first : List UInt8 := [97, space, 49, semicolon, slash, slash]
    let second : List UInt8 := [newline, 98, space, closeBrace]
    Tree.parse files "demo" first = .ok (ofEvents [.leaf "a" "1"]) ∧
      Blames files second ⟨2, .missingSemicolon⟩ ∧
      Tree.parse files "demo" (first ++ newline :: second) =
        .error (.text "demo" ⟨3, .missingSemicolon⟩) := by
  intro files first second
  have said : Script.ofText [97, space, 49, semicolon, slash, slash] =
      ⟨[⟨1, .leaf "a" "1"⟩], none⟩ := by cbv
  have failed : Script.ofText [newline, 98, space, closeBrace] =
      ⟨[], some ⟨2, .missingSemicolon⟩⟩ := by cbv
  have parsed : Tree.parse files "demo" first = .ok (ofEvents [.leaf "a" "1"]) := by
    rw [Tree.parse, Document.parse, Document.ofText, said]
    rfl
  have blamed : Blames files second ⟨2, .missingSemicolon⟩ := by
    rw [blames_iff, outcomeOf, Document.outcomeOf, failed]
    rfl
  exact ⟨parsed, blamed, (parse_concat parsed second).2.2.1 _ blamed⟩

end Tree

end ServiceConfig
