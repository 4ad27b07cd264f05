import Mathlib.Data.List.Infix
import ServiceConfig.Document
import ServiceConfig.Proofs.Text.Utf8

/-! # Printed documents

A forest of leaves and blocks is printed as tokens: words for the names, quoted values, and marks.
How they are laid out is free. Before, between and after the tokens there may be blanks and complete
comments; only a word that a value follows needs a blank of its own, as it would run on otherwise.
-/

namespace ServiceConfig.Grammar

open Ascii

/-- Leaves and blocks in order, each block with what is below it. -/
inductive Forest
  | nil
  | leaf (name value : String) (rest : Forest)
  | block (name : String) (value? : Option String) (below rest : Forest)
  deriving DecidableEq, Repr

namespace Forest

def events : Forest → List Event
  | .nil => []
  | .leaf name value rest => .leaf name value :: rest.events
  | .block name value? below rest =>
    .opening name value? :: below.events ++ .closing :: rest.events

theorem events_block_append (name : String) (value? : Option String) (below rest : Forest)
    (more : List Event) : (block name value? below rest).events ++ more =
      .opening name value? :: (below.events ++ .closing :: (rest.events ++ more)) := by
  simp [events]

/-- How deep blocks are nested in one another. -/
def height : Forest → Nat
  | .nil => 0
  | .leaf _ _ rest => rest.height
  | .block _ _ below rest => max (below.height + 1) rest.height

end Forest

/-- The characters that no name can hold: the blanks, and those that end or begin something. -/
def reserved : List Char :=
  [' ', '\t', '\n', '\x0c', '\r', '\x7b', '\x7d', ';', '"', '#', '\\', '/']

def IsName (name : String) : Prop := ∀ char ∈ name.toList, char ∉ reserved

instance (name : String) : Decidable (IsName name) :=
  decidable_of_iff (name.toList.all (· ∉ reserved) = true) (by simp [IsName])

/-- What a printed forest has to obey to be read back. A leaf with a name needs a value, as a lone
word is a value without a name, and an empty value of a block is none. -/
def Forest.Printable : Forest → Prop
  | .nil => True
  | .leaf name value rest =>
    IsName name ∧ name ≠ Document.includeName ∧ (name ≠ "" → value ≠ "") ∧ rest.Printable
  | .block name value? below rest =>
    IsName name ∧ value? ≠ some "" ∧ below.Printable ∧ rest.Printable

/-- Whether a forest is printable can be computed. -/
def Forest.decidePrintable : (forest : Forest) → Decidable forest.Printable
  | .nil => .isTrue trivial
  | .leaf name value rest =>
    haveI := rest.decidePrintable
    inferInstanceAs (Decidable (IsName name ∧ name ≠ Document.includeName ∧
      (name ≠ "" → value ≠ "") ∧ rest.Printable))
  | .block name value? below rest =>
    haveI := below.decidePrintable
    haveI := rest.decidePrintable
    inferInstanceAs
      (Decidable (IsName name ∧ value? ≠ some "" ∧ below.Printable ∧ rest.Printable))

instance (forest : Forest) : Decidable forest.Printable := forest.decidePrintable

inductive Token
  | word (name : String)
  | quoted (value : String)
  | mark (byte : UInt8)
  deriving DecidableEq, Repr

/-- A backslash before every double quote and every backslash. -/
def escape (text : String) : String :=
  String.ofList (text.toList.flatMap fun char =>
    if char = '"' ∨ char = '\\' then ['\\', char] else [char])

def Token.bytes : Token → List UInt8
  | .word name => Utf8.encode name
  | .quoted value => quote :: Utf8.encode (escape value) ++ [quote]
  | .mark byte => [byte]

/-- An empty name is left out. -/
def nameTokens (name : String) : List Token := if name = "" then [] else [.word name]

def valueTokens (value? : Option String) : List Token := value?.toList.map .quoted

def Forest.tokens : Forest → List Token
  | .nil => []
  | .leaf name value rest =>
    nameTokens name ++ valueTokens (some value) ++ .mark semicolon :: rest.tokens
  | .block name value? below rest =>
    nameTokens name ++ valueTokens value? ++ .mark openBrace ::
      (below.tokens ++ .mark closeBrace :: .mark semicolon :: rest.tokens)

/-- A run of blanks. -/
def Blanks (gap : List UInt8) : Prop := ∀ byte ∈ gap, isBlank byte = true

/-- A run of blanks and complete comments. -/
inductive Layout : List UInt8 → Prop
  | nil : Layout []
  | blank {byte : UInt8} {more : List UInt8} (blank : isBlank byte = true) (later : Layout more) :
    Layout (byte :: more)
  | hash {body more : List UInt8} (oneLine : newline ∉ body) (later : Layout more) :
    Layout (hash :: body ++ newline :: more)
  | slashes {body more : List UInt8} (oneLine : newline ∉ body) (later : Layout more) :
    Layout (slash :: slash :: body ++ newline :: more)
  | block {body more : List UInt8} (unended : ¬ [star, slash] <:+: body) (later : Layout more) :
    Layout (slash :: star :: body ++ star :: slash :: more)

/-- Whether `text` may stand after a token if `following` are the tokens to come. -/
def Token.Separates : Token → List Token → List UInt8 → Prop
  | .word _, .quoted _ :: _, text => ∃ byte, text.head? = some byte ∧ isBlank byte = true
  | _, _, _ => True

/-- Tokens with gaps of a kind around them. -/
inductive Spaced (Gap : List UInt8 → Prop) : List Token → List UInt8 → Prop
  | nil {gap : List UInt8} (after : Gap gap) : Spaced Gap [] gap
  | cons {gap text : List UInt8} {token : Token} {tokens : List Token} (before : Gap gap)
      (separates : token.Separates tokens text) (later : Spaced Gap tokens text) :
    Spaced Gap (token :: tokens) (gap ++ token.bytes ++ text)

theorem ascii_reserved : ∀ char ∈ reserved, char.toNat < 128 := by
  have all : reserved.all (·.toNat < 128) = true := by decide
  simpa using all

/-- No reserved character is among the bytes of a name. -/
theorem IsName.notMem {name : String} (isName : IsName name) (char : Char)
    (kept : char ∈ reserved) {byte : UInt8} (same : byte.toNat = char.toNat) :
    byte ∉ Utf8.encode name := by
  intro member
  obtain ⟨found, inName, inChar⟩ := List.mem_flatMap.mp member
  have ascii : byte.toNat < 128 := same ▸ ascii_reserved char kept
  have found_eq : found = char := Char.toNat_inj.mp ((Utf8.mem_encodeChar inChar ascii).trans same)
  exact isName found inName (found_eq ▸ kept)

/-- A backslash before every byte that is a double quote or a backslash. -/
def escapeBytes (bytes : List UInt8) : List UInt8 :=
  bytes.flatMap fun byte => if byte = quote ∨ byte = backslash then [backslash, byte] else [byte]

private theorem escapeBytes_encodeChar (char : Char) :
    escapeBytes (String.utf8EncodeChar char) =
      Utf8.encodeChars (if char = '"' ∨ char = '\\' then ['\\', char] else [char]) := by
  by_cases special : char = '"' ∨ char = '\\'
  · rcases special with rfl | rfl <;> rfl
  · obtain ⟨notQuote, notBackslash⟩ := not_or.mp special
    have plain : ∀ byte ∈ String.utf8EncodeChar char, ¬ (byte = quote ∨ byte = backslash) := by
      rintro byte member (rfl | rfl)
      · exact notQuote (Char.toNat_inj.mp (Utf8.mem_encodeChar member (by decide)))
      · exact notBackslash (Char.toNat_inj.mp (Utf8.mem_encodeChar member (by decide)))
    have kept : escapeBytes (String.utf8EncodeChar char) =
        (String.utf8EncodeChar char).flatMap ([·]) :=
      List.flatMap_congr fun byte member => if_neg (plain byte member)
    rw [kept, if_neg special, Utf8.encodeChars, List.flatMap_singleton, List.flatMap_singleton']

/-- Escaping the characters of a text is escaping its bytes. -/
theorem encode_escape (text : String) :
    Utf8.encode (escape text) = escapeBytes (Utf8.encode text) := by
  unfold Utf8.encode escape
  rw [String.toList_ofList]
  induction text.toList with
  | nil => rfl
  | cons char chars ih =>
    have step : Utf8.encodeChars (char :: chars) =
        String.utf8EncodeChar char ++ Utf8.encodeChars chars := List.flatMap_cons
    rw [List.flatMap_cons, Utf8.encodeChars, List.flatMap_append, step, escapeBytes,
      List.flatMap_append]
    exact congrArg₂ (· ++ ·) (escapeBytes_encodeChar char).symm ih

end ServiceConfig.Grammar
