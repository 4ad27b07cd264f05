import ServiceConfig.Proofs.Document.Resolution
import ServiceConfig.Proofs.Tree.Growth

/-! # What is accepted

Without includes a script is accepted exactly if the rules of the notation read it as a forest whose
blocks are not nested too deeply, and what it says is this forest.
-/

namespace ServiceConfig

open Grammar

namespace Document

variable {splice : String → Nat → Except ConfigError (List Event)} {origin : String}

/-- At the top level a script says the events of the forests it reads as, and nothing else. -/
theorem resolve_scan_iff {source : List UInt8} {line : Nat}
    (includeless : ∀ forest, Reads source forest → forest.Includeless) {events : List Event} :
    resolve splice origin (Script.scan ⟨source, line⟩ []).complaint? 0
      (Script.scan ⟨source, line⟩ []).statements = .ok events ↔
        ∃ forest, Reads source forest ∧ forest.height ≤ maxBlocks ∧ forest.events = events := by
  constructor
  · intro resolved
    have accepted := complaint_eq_none resolved
    obtain ⟨forest, reads, said⟩ := Script.exists_reads accepted
    rw [accepted] at resolved
    have nested := height_le_of_resolve (includeless forest reads) (Nat.zero_le _) said resolved
    rw [resolve_forest (includeless forest reads) nested said] at resolved
    rw [Nat.zero_add] at nested
    exact ⟨forest, reads, nested, Except.ok.inj resolved⟩
  · rintro ⟨forest, reads, nested, rfl⟩
    obtain ⟨statements, said, scanned⟩ := Script.scan_eq_of_reads reads line
    rw [scanned]
    exact resolve_forest (includeless forest reads) (by rwa [Nat.zero_add]) said

end Document

namespace Tree

open Ascii

private theorem parse_of_strip {text source : List UInt8} (stripped : strip text = .ok source)
    (files : Files) (origin : String) :
    Tree.parse files origin text =
      (Document.resolve (Document.ofFile files Document.maxIncludes) origin
        (Script.scan ⟨source, 1⟩ []).complaint? 0 (Script.scan ⟨source, 1⟩ []).statements).map
        ofEvents := by
  rw [Tree.parse, Document.parse, Document.ofText, Script.ofText, stripped]

/-- A text that reads as a forest without includes parses to the tree of this forest. -/
theorem parse_of_reads {text source : List UInt8} {forest : Forest}
    (stripped : strip text = .ok source) (reads : Reads source forest)
    (includeless : forest.Includeless) (nested : forest.height ≤ Document.maxBlocks)
    (files : Files) (origin : String) :
    Tree.parse files origin text = .ok (ofEvents forest.events) := by
  obtain ⟨statements, said, scanned⟩ := Script.scan_eq_of_reads reads 1
  rw [parse_of_strip stripped, scanned]
  dsimp only
  rw [Document.resolve_forest includeless (by rwa [Nat.zero_add]) said, Except.map]

/-- A script in which no leaf is an include is accepted if and only if it is a forest by the rules,
with blocks not nested too deeply. The forest is what the script says, and what the tree shows of
every text that is this script once its comments are removed. -/
theorem accepts_iff_reads {source : List UInt8}
    (includeless : ∀ forest, Reads source forest → forest.Includeless) :
    (∀ splice origin events,
      Document.resolve splice origin (Script.scan ⟨source, 1⟩ []).complaint? 0
        (Script.scan ⟨source, 1⟩ []).statements = .ok events ↔
      ∃ forest, Reads source forest ∧ forest.height ≤ Document.maxBlocks ∧
        forest.events = events) ∧
    ∀ files origin text, strip text = .ok source →
      ((∃ tree, Tree.parse files origin text = .ok tree) ↔
        ∃ forest, Reads source forest ∧ forest.height ≤ Document.maxBlocks) ∧
      ∀ forest, Reads source forest → forest.height ≤ Document.maxBlocks →
        ∃ tree, Tree.parse files origin text = .ok tree ∧
          (tree.rows root).map Row.shown = forest.listing 0 := by
  refine ⟨fun splice origin events => Document.resolve_scan_iff includeless, ?_⟩
  intro files origin text stripped
  have accepted : ∀ forest, Reads source forest → forest.height ≤ Document.maxBlocks →
      Tree.parse files origin text = .ok (ofEvents forest.events) := by
    intro forest reads nested
    rw [parse_of_strip stripped,
      (Document.resolve_scan_iff includeless).mpr ⟨forest, reads, nested, rfl⟩, Except.map]
  refine ⟨⟨?_, ?_⟩, ?_⟩
  · rintro ⟨tree, parsed⟩
    rw [parse_of_strip stripped] at parsed
    obtain ⟨events, resolved, -⟩ := Document.map_eq_ok.mp parsed
    obtain ⟨forest, reads, nested, -⟩ := (Document.resolve_scan_iff includeless).mp resolved
    exact ⟨forest, reads, nested⟩
  · rintro ⟨forest, reads, nested⟩
    exact ⟨_, accepted forest reads nested⟩
  · exact fun forest reads nested => ⟨_, accepted forest reads nested, rows_ofEvents forest⟩

/-- A word that ends inside quotes: the semicolon behind it is part of the value of a block. -/
theorem accepts_iff_reads_quotedMark :
    let source : List UInt8 :=
      [97, quote, semicolon, quote, space, openBrace, closeBrace, semicolon]
    let forest : Forest := .block "" (some "a;") .nil .nil
    (∀ forest, Reads source forest → forest.Includeless) ∧ strip source = .ok source ∧
      Reads source forest ∧ forest.height ≤ Document.maxBlocks ∧
      ∃ tree, Tree.parse (fun _ => .error .notFound) "demo" source = .ok tree ∧
        (tree.rows root).map Row.shown = [(0, "", some "a;", .block)] := by
  intro source forest
  have scanned : Script.scan ⟨source, 1⟩ [] =
      ⟨[⟨1, .opening "" (some "a;")⟩, ⟨1, .closing⟩], none⟩ := by cbv
  have includeless : ∀ forest, Reads source forest → forest.Includeless := by
    intro forest reads value
    obtain ⟨statements, said, same⟩ := Script.scan_eq_of_reads reads 1
    obtain ⟨rfl, -⟩ := Script.mk.inj (same.symm.trans scanned)
    rw [← said]
    simp
  have value : RawValue [97, quote, semicolon, quote, space] :=
    .byte (by decide) rfl (.quoted (.byte (by decide) (by decide) .close)
      (.byte (by decide) rfl .nil))
  have opens : StartsWith OpensWord [97, quote, semicolon, quote, space, openBrace] :=
    ⟨97, _, rfl, by decide⟩
  have word : ∀ byte ∈ [97, quote], isWordByte byte = true := by
    rw [List.forall_mem_cons, List.forall_mem_singleton]
    decide
  have head : Head openBrace [] _ _ := .lone value opens word blanks_nil
    (rfl : _ = [97, quote] ++ [] ++ semicolon :: [quote, space, openBrace])
  have reads : Reads source forest :=
    Reads.block blanks_nil head (.nil blanks_nil) blanks_nil (.nil blanks_nil)
  have nested : forest.height ≤ Document.maxBlocks := by decide
  exact ⟨includeless, by decide, reads, nested,
    ((accepts_iff_reads includeless).2 _ "demo" source (by decide)).2 forest reads nested⟩

end Tree

end ServiceConfig
