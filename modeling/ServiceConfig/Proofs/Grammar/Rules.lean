import ServiceConfig.Proofs.Grammar.Printed

/-! # The rules of the notation

What a script may look like once its comments are removed, as rules about runs of bytes, and the
forest that such a script reads as. The rules do not mention the scanner. A quoted part ends at the
first quote that no backslash protects, a raw value has no delimiter outside its quoted parts, and
the head of a statement is its name and its raw value up to the mark that ends it.
-/

namespace ServiceConfig.Grammar

open Ascii

/-- What follows the opening quote of a quoted part, up to its closing quote. -/
inductive Quotation : List UInt8 → Prop
  | close : Quotation [quote]
  | byte {byte : UInt8} {rest : List UInt8} (notQuote : byte ≠ quote)
    (notBackslash : byte ≠ backslash) (later : Quotation rest) : Quotation (byte :: rest)
  | guarded {byte : UInt8} {rest : List UInt8} (later : Quotation rest) :
    Quotation (backslash :: byte :: rest)

theorem Quotation.of_escapeBytes (bytes : List UInt8) :
    Quotation (escapeBytes bytes ++ [quote]) := by
  induction bytes with
  | nil => exact .close
  | cons byte bytes ih =>
    unfold escapeBytes at ih ⊢
    rw [List.flatMap_cons]
    split_ifs with special
    · exact .guarded ih
    · obtain ⟨notQuote, notBackslash⟩ := not_or.mp special
      exact .byte notQuote notBackslash ih

/-- Quoted parts, and bytes between them that are no delimiters. -/
inductive RawValue : List UInt8 → Prop
  | nil : RawValue []
  | byte {byte : UInt8} {rest : List UInt8} (notQuote : byte ≠ quote)
    (passes : isDelimiter byte = false) (later : RawValue rest) : RawValue (byte :: rest)
  | quoted {part rest : List UInt8} (inside : Quotation part) (later : RawValue rest) :
    RawValue (quote :: part ++ rest)

/-- A run of bytes that has a first byte, which is as described. -/
def StartsWith (described : UInt8 → Prop) (text : List UInt8) : Prop :=
  ∃ byte rest, text = byte :: rest ∧ described byte

/-- The bytes with which a statement begins that is without a name from the outset. -/
def OpensValue (byte : UInt8) : Prop := byte = quote ∨ byte = openBrace

instance (byte : UInt8) : Decidable (OpensValue byte) :=
  inferInstanceAs (Decidable (byte = quote ∨ byte = openBrace))

/-- The bytes with which any other statement begins. -/
def OpensWord (byte : UInt8) : Prop :=
  isBlank byte = false ∧ byte ≠ closeBrace ∧ ¬ OpensValue byte

instance (byte : UInt8) : Decidable (OpensWord byte) :=
  inferInstanceAs (Decidable (isBlank byte = false ∧ byte ≠ closeBrace ∧ ¬ OpensValue byte))

/-- The bytes of a statement's head up to and with the mark that ends it, for a name and a raw
value. A word is a name only if what comes after it, blanks aside, is not a semicolon. -/
inductive Head (mark : UInt8) : (name raw text : List UInt8) → Prop
  | bare {raw : List UInt8} (value : RawValue raw) (opens : StartsWith OpensValue (raw ++ [mark])) :
    Head mark [] raw (raw ++ [mark])
  | lone {word gap rest raw : List UInt8} (value : RawValue raw)
    (opens : StartsWith OpensWord (raw ++ [mark]))
    (isWord : ∀ byte ∈ word, isWordByte byte = true) (blanks : Blanks gap)
    (alone : raw ++ [mark] = word ++ gap ++ semicolon :: rest) :
    Head mark [] raw (raw ++ [mark])
  | named {word gap raw : List UInt8} (value : RawValue raw)
    (opens : StartsWith OpensWord (word ++ gap ++ raw ++ [mark]))
    (isWord : ∀ byte ∈ word, isWordByte byte = true)
    (ends : StartsWith (fun byte => isWordByte byte = false) (gap ++ raw ++ [mark]))
    (blanks : Blanks gap)
    (valued : StartsWith (fun byte => isBlank byte = false ∧ byte ≠ semicolon) (raw ++ [mark])) :
    Head mark word raw (word ++ gap ++ raw ++ [mark])

namespace Forest

/-- A leaf in front of a forest. Without a value it is nameless, and its name is the value. -/
def consLeaf (name value : String) (rest : Forest) : Forest :=
  if value = "" then .leaf "" name rest else .leaf name value rest

/-- A block in front of a forest; an empty value stands for none. -/
def consBlock (name value : String) (below rest : Forest) : Forest :=
  .block name (if value = "" then none else some value) below rest

end Forest

/-- The text a raw value stands for. -/
def valueOf (raw : List UInt8) : String := Utf8.decodeLenient (expand raw)

/-- A script reads as a forest: statements one after the other with blanks around them, where a
brace opens the statements of a block and a brace and a semicolon close it. -/
inductive Reads : List UInt8 → Forest → Prop
  | nil {gap : List UInt8} (blanks : Blanks gap) : Reads gap .nil
  | leaf {gap name raw head text : List UInt8} {rest : Forest} (blanks : Blanks gap)
    (begins : Head semicolon name raw head) (later : Reads text rest) :
    Reads (gap ++ head ++ text) (.consLeaf (Utf8.decodeLenient name) (valueOf raw) rest)
  | block {gap name raw head inner gapEnd text : List UInt8} {below rest : Forest}
    (blanks : Blanks gap) (begins : Head openBrace name raw head) (inside : Reads inner below)
    (blanksEnd : Blanks gapEnd) (later : Reads text rest) :
    Reads (gap ++ head ++ inner ++ closeBrace :: gapEnd ++ semicolon :: text)
      (.consBlock (Utf8.decodeLenient name) (valueOf raw) below rest)

end ServiceConfig.Grammar
