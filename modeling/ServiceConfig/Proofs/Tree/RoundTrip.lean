import ServiceConfig.Proofs.Document.Resolution
import ServiceConfig.Proofs.Grammar.Printing
import ServiceConfig.Proofs.Tree.Growth

/-! # Printing and reading back

A forest that was printed, however it was laid out, is read back as a tree with the same entries at
the same depths. The scanner gives the events of the forest, no include is resolved and no block is
too deep, and growing a tree by the events appends the shape of the forest to it.
-/

namespace ServiceConfig

open Grammar

theorem Grammar.Forest.Printable.includeless {forest : Forest} (printable : forest.Printable) :
    forest.Includeless := by
  induction forest with
  | nil => exact fun value => List.not_mem_nil
  | leaf name value rest ih =>
    obtain ⟨-, notInclude, -, printable⟩ := printable
    exact Forest.includeless_leaf.mpr ⟨notInclude, ih printable⟩
  | block name value? below rest ihBelow ih =>
    obtain ⟨-, -, printableBelow, printable⟩ := printable
    exact Forest.includeless_block.mpr ⟨ihBelow printableBelow, ih printable⟩

namespace Tree

open Ascii

/-- Whatever the layout of a printed forest, parsing it gives the forest back. -/
theorem parse_printed {forest : Forest} (printable : forest.Printable)
    (nested : forest.height ≤ Document.maxBlocks) {text : List UInt8}
    (spaced : Spaced Layout forest.tokens text) (files : Files) (origin : String) :
    ∃ tree, Tree.parse files origin text = .ok tree ∧
      (tree.rows root).map Row.shown = forest.listing 0 := by
  obtain ⟨statements, said, events⟩ := Forest.ofText printable spaced
  refine ⟨ofEvents forest.events, ?_, rows_ofEvents forest⟩
  rw [Tree.parse, Document.parse, Document.ofText, said]
  dsimp only
  rw [Document.resolve_forest printable.includeless (by rwa [Nat.zero_add]) events, Except.map]

/-- A comment between a name and its brace, a value that is an escaped quote. -/
theorem parse_printed_commented :
    let forest : Forest := .block "a" none (.leaf "b" "\"" .nil) .nil
    let text := Utf8.encode "a /*c*/\x7bb \"\\\"\";\x7d;#d\n"
    forest.Printable ∧ forest.height ≤ Document.maxBlocks ∧ Spaced Layout forest.tokens text ∧
      ∃ tree, Tree.parse (fun _ => .error .notFound) "demo" text = .ok tree ∧
        (tree.rows root).map Row.shown =
          [(0, "a", none, .block), (1, "b", some "\"", .leaf)] := by
  intro forest text
  have printable : forest.Printable := by decide
  have nested : forest.height ≤ Document.maxBlocks := by decide
  have tokens_eq : forest.tokens = [.word "a", .mark openBrace, .word "b", .quoted "\"",
    .mark semicolon, .mark closeBrace, .mark semicolon] := by decide
  have unended : ¬ [Ascii.star, slash] <:+: [99] := by decide
  have comment : Layout [space, slash, Ascii.star, 99, Ascii.star, slash] :=
    .blank rfl (.block unended .nil)
  have remark : Layout [hash, 100, newline] := .hash (by decide : newline ∉ [100]) .nil
  have text_eq : text = [] ++ Token.bytes (.word "a") ++
      ([space, slash, Ascii.star, 99, Ascii.star, slash] ++ Token.bytes (.mark openBrace) ++
      ([] ++ Token.bytes (.word "b") ++ ([space] ++ Token.bytes (.quoted "\"") ++
      ([] ++ Token.bytes (.mark semicolon) ++ ([] ++ Token.bytes (.mark closeBrace) ++
      ([] ++ Token.bytes (.mark semicolon) ++ [hash, 100, newline])))))) := by decide
  have spaced : Spaced Layout forest.tokens text := by
    rw [tokens_eq, text_eq]
    refine .cons .nil trivial (.cons comment trivial (.cons .nil ⟨space, rfl, rfl⟩ ?_))
    refine .cons (.blank rfl .nil) trivial (.cons .nil trivial (.cons .nil trivial ?_))
    exact .cons .nil trivial (.nil remark)
  exact ⟨printable, nested, spaced, parse_printed printable nested spaced _ "demo"⟩

end Tree

end ServiceConfig
