import ServiceConfig.Proofs.Grammar.Characters
import ServiceConfig.Proofs.Grammar.Printing
import ServiceConfig.Proofs.Text.Cut

/-! # Blanks in a value

What a value says is what its parts say, one after the other, as long as no quoted part is cut. How
many blanks stand between two parts and which ones does not matter, only whether there are any, and
blanks at the end count for nothing. The bytes that a value stands for follow these rules whatever
they are. The text that is read of these bytes follows them too, except that a character is lost if
it is cut in two.
-/

namespace ServiceConfig.Grammar

open Ascii

variable {front back other before gap part bytes : List UInt8} {byte : UInt8}

/-- All quoted parts are closed; a backslash inside one protects the byte behind it. -/
inductive Balanced : List UInt8 → Prop
  | nil : Balanced []
  | byte {byte : UInt8} {rest : List UInt8} (notQuote : byte ≠ quote) (later : Balanced rest) :
    Balanced (byte :: rest)
  | quoted {part rest : List UInt8} (inside : Quotation part) (later : Balanced rest) :
    Balanced (quote :: part ++ rest)

/-- The last byte is a blank that stands outside the quoted parts. -/
def EndsBlank (front : List UInt8) : Prop :=
  ∃ before byte, front = before ++ [byte] ∧ isBlank byte = true ∧ Balanced before

private theorem endsBlank_iff :
    EndsBlank front ↔ front.getLast?.any isBlank = true ∧ Balanced front.dropLast := by
  constructor
  · rintro ⟨before, byte, rfl, blank, balanced⟩
    rw [List.getLast?_concat, List.dropLast_concat]
    exact ⟨blank, balanced⟩
  · rintro ⟨last, balanced⟩
    obtain ⟨byte, same, blank⟩ := (Option.any_eq_true ..).mp last
    exact ⟨front.dropLast, byte, (List.dropLast_append_getLast? byte same).symm, blank, balanced⟩

theorem Quotation.foldl (quotation : Quotation part) :
    part.foldl Quoting.step .inside = .outside := by
  induction quotation with
  | close => rfl
  | byte notQuote notBackslash _ ih =>
    rwa [List.foldl_cons, Quoting.step, if_neg notQuote, if_neg notBackslash]
  | guarded _ ih => exact ih

/-- What balances the quotes from a place with this quoting on. -/
def Quoting.Balances : Quoting → List UInt8 → Prop
  | .outside, bytes => Balanced bytes
  | .inside, bytes => ∃ part rest, bytes = part ++ rest ∧ Quotation part ∧ Balanced rest
  | .escaped, bytes =>
    ∃ byte part rest, bytes = byte :: part ++ rest ∧ Quotation part ∧ Balanced rest

theorem Quoting.balances_of_foldl {quoting : Quoting}
    (ends : bytes.foldl Quoting.step quoting = .outside) : quoting.Balances bytes := by
  induction bytes generalizing quoting with
  | nil =>
    obtain rfl : quoting = .outside := ends
    exact Balanced.nil
  | cons byte bytes ih =>
    have later := ih ends
    cases quoting with
    | outside =>
      rw [step] at later
      split_ifs at later with isQuote
      · obtain ⟨part, rest, rfl, quotation, balanced⟩ := later
        exact isQuote ▸ Balanced.quoted quotation balanced
      · exact Balanced.byte isQuote later
    | inside =>
      rw [step] at later
      split_ifs at later with isQuote isBackslash
      · exact ⟨[quote], bytes, isQuote ▸ rfl, .close, later⟩
      · obtain ⟨guarded, part, rest, rfl, quotation, balanced⟩ := later
        exact ⟨backslash :: guarded :: part, rest, isBackslash ▸ rfl, .guarded quotation, balanced⟩
      · obtain ⟨part, rest, rfl, quotation, balanced⟩ := later
        exact ⟨byte :: part, rest, rfl, .byte isQuote isBackslash quotation, balanced⟩
    | escaped =>
      obtain ⟨part, rest, rfl, quotation, balanced⟩ := later
      exact ⟨byte, part, rest, rfl, quotation, balanced⟩

/-- Quotes are balanced exactly if a scan that begins outside of them ends outside of them. -/
theorem balanced_iff : Balanced bytes ↔ bytes.foldl Quoting.step .outside = .outside := by
  constructor
  · intro balanced
    induction balanced with
    | nil => rfl
    | byte notQuote _ ih => rwa [List.foldl_cons, Quoting.step, if_neg notQuote]
    | quoted inside _ ih =>
      have opened : Quoting.outside.step quote = .inside := rfl
      rw [List.foldl_append, List.foldl_cons, opened, inside.foldl, ih]
  · exact Quoting.balances_of_foldl

instance (bytes : List UInt8) : Decidable (Balanced bytes) := decidable_of_iff' _ balanced_iff

instance (front : List UInt8) : Decidable (EndsBlank front) := decidable_of_iff' _ endsBlank_iff

/-- A byte behind balanced quotes stands outside of them. -/
theorem Balanced.of_snoc (balanced : Balanced (before ++ [byte])) (notQuote : byte ≠ quote) :
    Balanced before := by
  rw [balanced_iff, List.foldl_append, List.foldl_cons, List.foldl_nil] at balanced
  rw [balanced_iff]
  generalize before.foldl Quoting.step .outside = quoting at balanced
  cases quoting with
  | outside => rfl
  | inside =>
    rw [Quoting.step, if_neg notQuote] at balanced
    split_ifs at balanced
  | escaped => cases balanced

theorem Balanced.last_visible (balanced : Balanced front) (ends : ¬ EndsBlank front) :
    ∀ byte ∈ front.getLast?, isBlank byte = false := by
  intro byte last
  obtain ⟨before, rfl⟩ := List.getLast?_eq_some_iff.mp last
  refine Bool.eq_false_iff.mpr fun blank => ends ⟨before, byte, rfl, blank, ?_⟩
  exact balanced.of_snoc (ordinary_of_isBlank blank).1

/-- What a quoted part says does not depend on what comes after it. -/
theorem Quotation.expandFrom_append (quotation : Quotation part) (back : List UInt8) :
    expandFrom .inside (part ++ back) = expandFrom .inside part ++ expand back := by
  induction quotation with
  | close => rfl
  | byte notQuote notBackslash _ ih =>
    simp [expandFrom, contribution, Quoting.step, notQuote, notBackslash, ih]
  | guarded _ ih =>
    simp [expandFrom, contribution, Quoting.step, show backslash ≠ quote by decide, ih]

private theorem expand_quoted (inside : Quotation part) (back : List UInt8) :
    expand (quote :: part ++ back) = expand (quote :: part) ++ expand back :=
  inside.expandFrom_append back

theorem expand_cons (notQuote : byte ≠ quote) (back : List UInt8) :
    expand (byte :: back) = contribution .outside byte back ++ expand back := by
  rw [expand, expandFrom, Quoting.step, if_neg notQuote, expand]

/-- A blank outside quotes shows as a space if it is the last of its run and not at the end. -/
theorem contribution_outside_eq (notQuote : byte ≠ quote) (back : List UInt8) :
    contribution .outside byte back =
      if isBlank byte then (if back.head?.all isBlank then [] else [space]) else [byte] := by
  cases back <;> rw [contribution, if_neg notQuote] <;> rfl

theorem expand_blank (blank : isBlank byte = true) (back : List UInt8) :
    expand (byte :: back) = (if back.head?.all isBlank then [] else [space]) ++ expand back := by
  rw [expand_cons (ordinary_of_isBlank blank).1,
    contribution_outside_eq (ordinary_of_isBlank blank).1, if_pos blank]

/-- A run of blanks is worth one of them. -/
theorem expand_blanks (blanks : Blanks gap) (some : gap ≠ []) (back : List UInt8) :
    expand (gap ++ back) = expand (space :: back) := by
  induction gap with
  | nil => exact absurd rfl some
  | cons byte gap ih =>
    have blank := blanks byte (List.mem_cons_self ..)
    rw [List.cons_append, expand_blank blank]
    cases gap with
    | nil => exact (expand_blank rfl back).symm
    | cons next gap =>
      have later : Blanks (next :: gap) := fun other member => blanks other (.tail _ member)
      have silent : (next :: gap ++ back).head?.all isBlank = true :=
        later next (List.mem_cons_self ..)
      rw [if_pos silent, ih later (List.cons_ne_nil next gap)]
      rfl

/-- Behind balanced quotes it matters what comes next says, and whether it begins with a blank. -/
theorem Balanced.expand_congr (balanced : Balanced front)
    (same : back.head?.all isBlank = other.head?.all isBlank) (later : expand back = expand other) :
    expand (front ++ back) = expand (front ++ other) := by
  induction balanced with
  | nil => exact later
  | @byte byte rest notQuote _ ih =>
    have next : (rest ++ back).head?.all isBlank = (rest ++ other).head?.all isBlank := by
      cases rest with
      | nil => exact same
      | cons next rest => rfl
    rw [List.cons_append, List.cons_append, expand_cons notQuote, expand_cons notQuote, ih,
      contribution_outside_eq notQuote, contribution_outside_eq notQuote, next]
  | quoted inside _ ih =>
    rw [List.append_assoc, List.append_assoc, expand_quoted inside, expand_quoted inside, ih]

theorem Balanced.expand_append (balanced : Balanced front)
    (ends : ∀ byte ∈ front.getLast?, isBlank byte = false) (back : List UInt8) :
    expand (front ++ back) = expand front ++ expand back := by
  induction balanced with
  | nil => rfl
  | @byte byte rest notQuote _ ih =>
    rw [List.cons_append, expand_cons notQuote, expand_cons notQuote,
      contribution_outside_eq notQuote, contribution_outside_eq notQuote]
    -- what a byte says depends on the byte behind it, which is in the back only for the last one
    cases rest with
    | nil =>
      have visible := Bool.eq_false_iff.mp (ends byte rfl)
      rw [if_neg visible, if_neg visible]
      rfl
    | cons next rest =>
      have ends : ∀ byte ∈ (next :: rest).getLast?, isBlank byte = false := by
        simpa only [List.getLast?_cons_cons] using ends
      rw [ih ends, List.append_assoc]
      rfl
  | @quoted part rest inside _ ih =>
    have ends : ∀ byte ∈ rest.getLast?, isBlank byte = false := by
      intro byte last
      refine ends byte ?_
      rw [List.getLast?_append, Option.mem_def.mp last]
      rfl
    rw [List.append_assoc, expand_quoted inside, expand_quoted inside, ih ends, List.append_assoc]

theorem Balanced.expand_gap (balanced : Balanced front) {gap other : List UInt8}
    (blanks : Blanks gap) (blanksToo : Blanks other) (some : gap ≠ []) (someToo : other ≠ [])
    (back : List UInt8) :
    expand (front ++ gap ++ back) = expand (front ++ other ++ back) := by
  have first {gap : List UInt8} (blanks : Blanks gap) (some : gap ≠ []) :
      (gap ++ back).head?.all isBlank = true := by
    obtain ⟨byte, gap, rfl⟩ := List.exists_cons_of_ne_nil some
    exact blanks byte (List.mem_cons_self ..)
  rw [List.append_assoc, List.append_assoc]
  refine balanced.expand_congr ?_ ?_
  · rw [first blanks some, first blanksToo someToo]
  · rw [expand_blanks blanks some, expand_blanks blanksToo someToo]

theorem Balanced.expand_trailing (balanced : Balanced front) (blanks : Blanks gap) :
    expand (front ++ gap) = expand front := by
  have same : gap.head?.all isBlank = ([] : List UInt8).head?.all isBlank := by
    cases gap with
    | nil => rfl
    | cons byte gap => exact blanks byte (List.mem_cons_self ..)
  have trimmed := balanced.expand_congr same (expandFrom_blanks blanks)
  rwa [List.append_nil] at trimmed

/-- Behind balanced quotes, blanks outside quotes only count as present or absent, and not at the
end. A value is what its parts say one after the other, and its text is the texts of its parts
unless these cut a character, which no part does that is a text by itself. -/
theorem expand_spacing (balanced : Balanced front) (back : List UInt8) :
    (∀ gap other, Blanks gap → Blanks other → gap ≠ [] → other ≠ [] →
      expand (front ++ gap ++ back) = expand (front ++ other ++ back) ∧
        valueOf (front ++ gap ++ back) = valueOf (front ++ other ++ back) ∧
        expand (front ++ gap) = expand front ∧ valueOf (front ++ gap) = valueOf front) ∧
      (¬ EndsBlank front →
        expand (front ++ back) = expand front ++ expand back ∧
          (valueOf (front ++ back) = valueOf front ++ valueOf back ↔
            ¬ Utf8.Severs (expand front) (expand back)) ∧
          ∀ text : String, front = Utf8.encode text →
            ¬ Utf8.Severs (expand front) (expand back)) := by
  refine ⟨fun gap other blanks blanksToo some someToo => ?_, fun ends => ?_⟩
  · have middle := balanced.expand_gap blanks blanksToo some someToo back
    have trailing := balanced.expand_trailing blanks
    exact ⟨middle, congrArg Utf8.decodeLenient middle, trailing,
      congrArg Utf8.decodeLenient trailing⟩
  · have parts := balanced.expand_append (balanced.last_visible ends) back
    refine ⟨parts, ?_, ?_⟩
    · rw [valueOf, parts]
      exact Utf8.decodeLenient_append_iff
    · rintro text rfl
      obtain ⟨said, same, -⟩ := exists_expand text.toList
      exact Utf8.not_severs_of_isValid (Utf8.isValid_iff.mpr ⟨said, same⟩)

/-- Quoted blanks in front of a quote that stays open. -/
theorem expand_spacing_open :
    let front := Utf8.encode "é \"\\t \""
    let back := Utf8.encode "\"b  "
    Balanced front ∧ ¬ EndsBlank front ∧ ¬ Balanced back ∧
      expand (front ++ back) = Utf8.encode "é \t b  " ∧
      valueOf (front ++ [newline, newline] ++ back) = valueOf (front ++ [tab] ++ back) ∧
      valueOf (front ++ [newline, newline]) = valueOf front ∧
      valueOf (front ++ back) = valueOf front ++ valueOf back := by
  intro front back
  have balanced : Balanced front := by decide
  have ends : ¬ EndsBlank front := by decide
  obtain ⟨spaced, parted⟩ := expand_spacing balanced back
  obtain ⟨-, gaps, -, trailing⟩ := spaced [newline, newline] [tab]
    (blanks_append blanks_newline blanks_newline) (List.forall_mem_singleton.mpr rfl) (by decide)
    (by decide)
  obtain ⟨bytes, text, whole⟩ := parted ends
  refine ⟨balanced, ends, by decide, ?_, gaps, trailing, text.mpr (whole "é \"\\t \"" rfl)⟩
  rw [bytes]
  decide

/-- A value that is cut within its only character. -/
theorem expand_spacing_severed :
    let front : List UInt8 := [0xC3]
    let back : List UInt8 := [0xA9]
    Balanced front ∧ ¬ EndsBlank front ∧ valueOf (front ++ back) = "é" ∧
      valueOf front ++ valueOf back = "\ufffd\ufffd" ∧
      valueOf (front ++ back) ≠ valueOf front ++ valueOf back := by
  intro front back
  have one : valueOf (front ++ back) = "é" := by decide
  have two : valueOf front ++ valueOf back = "\ufffd\ufffd" := by decide
  refine ⟨by decide, by decide, one, two, ?_⟩
  rw [one, two]
  decide

end ServiceConfig.Grammar
