import ServiceConfig.Proofs.Grammar.Spacing

/-! # A value read part by part

A raw value can be read in one loop with another loop inside it for each quoted part, which then has
an end of its own: the closing quote, the end of the value, or a backslash with nothing behind it.
What is read is what the value stands for, and where quotes are balanced every quoted part ends with
its closing quote.
-/

namespace ServiceConfig.Grammar

open Ascii

variable {part rest gap text : List UInt8} {byte : UInt8}

inductive Ending
  | closed
  | unterminated
  | trailing
  deriving DecidableEq, Repr

/-- What a quoted part says behind its opening quote, how it ends, and what comes after it. -/
def readQuoted : List UInt8 → List UInt8 × Ending × List UInt8
  | [] => ([], .unterminated, [])
  | byte :: rest =>
    if byte = backslash then
      match rest with
      | [] => ([backslash], .trailing, [])
      | guarded :: later => (unescape guarded :: (readQuoted later).1, (readQuoted later).2)
    else if byte = quote then ([], .closed, rest)
    else (byte :: (readQuoted rest).1, (readQuoted rest).2)

private theorem readQuoted_quote (rest : List UInt8) :
    readQuoted (quote :: rest) = ([], .closed, rest) := by
  rw [readQuoted.eq_def]
  rfl

private theorem readQuoted_byte (notQuote : byte ≠ quote) (notBackslash : byte ≠ backslash) :
    readQuoted (byte :: rest) = (byte :: (readQuoted rest).1, (readQuoted rest).2) := by
  rw [readQuoted.eq_def]
  dsimp only
  rw [if_neg notBackslash, if_neg notQuote]

private theorem readQuoted_length_le (text : List UInt8) :
    (readQuoted text).2.2.length ≤ text.length := by
  fun_induction readQuoted text with
  | case1 => exact Nat.le_refl _
  | case2 => exact Nat.zero_le _
  | case3 guarded later ih => exact Nat.le_add_right_of_le (Nat.le_add_right_of_le ih)
  | case4 => exact Nat.le_succ _
  | case5 byte rest _ _ ih => exact Nat.le_add_right_of_le ih

/-- What a value says, and how each of its quoted parts ends. -/
def readParts : List UInt8 → List UInt8 × List Ending
  | [] => ([], [])
  | byte :: rest =>
    if byte = quote then
      let part := readQuoted rest
      let later := readParts part.2.2
      (part.1 ++ later.1, part.2.1 :: later.2)
    else if isBlank byte then
      let behind := rest.dropWhile isBlank
      let later := readParts behind
      (if behind = [] then later.1 else space :: later.1, later.2)
    else
      let later := readParts rest
      (byte :: later.1, later.2)
termination_by text => text.length
decreasing_by
  · exact Nat.lt_succ_of_le (readQuoted_length_le rest)
  · exact Nat.lt_succ_of_le (List.dropWhile_sublist _).length_le
  · exact Nat.lt_succ_self _

theorem expandFrom_inside_eq (text : List UInt8) :
    expandFrom .inside text = (readQuoted text).1 ++ expand (readQuoted text).2.2 := by
  fun_induction readQuoted text with
  | case1 => rfl
  | case2 => rfl
  | case3 guarded later ih => rw [List.cons_append, ← ih]; rfl
  | case4 rest => rfl
  | case5 byte rest notBackslash notQuote ih =>
    rw [expandFrom, contribution, if_neg notQuote, if_neg notBackslash, Quoting.step,
      if_neg notQuote, if_neg notBackslash, ih]
    rfl

/-- Read part by part, a value says what it stands for. -/
theorem readParts_eq (raw : List UInt8) : (readParts raw).1 = expand raw := by
  fun_induction readParts raw with
  | case1 => rfl
  | case2 rest part later ih =>
    rw [ih]
    exact (expandFrom_inside_eq rest).symm
  | case3 byte rest notQuote blank behind later ih =>
    have run : expand (byte :: rest) = expand (space :: behind) := by
      have blanks : Blanks (byte :: rest.takeWhile isBlank) :=
        List.forall_mem_cons.mpr ⟨blank, fun _ => List.mem_takeWhile_imp⟩
      have worth := expand_blanks blanks (List.cons_ne_nil byte _) behind
      rwa [List.cons_append, List.takeWhile_append_dropWhile] at worth
    rw [run, ih, expand_blank rfl]
    cases stops : behind with
    | nil => rfl
    | cons next more =>
      have first : (rest.dropWhile isBlank).head? = some next := congrArg List.head? stops
      rw [if_neg (List.cons_ne_nil next more), List.head?_cons, Option.all_some,
        dropWhile_stops first]
      rfl
  | case4 byte rest notQuote visible later ih =>
    rw [ih, expand_cons notQuote, contribution_outside notQuote visible]
    rfl

theorem readQuoted_closed (quotation : Quotation part) (text : List UInt8) :
    (readQuoted (part ++ text)).2 = (.closed, text) := by
  induction quotation with
  | close => exact congrArg Prod.snd (readQuoted_quote text)
  | byte notQuote notBackslash _ ih =>
    rw [List.cons_append, readQuoted_byte notQuote notBackslash, ih]
  | guarded _ ih => exact ih

private theorem exists_part_of_closed (closed : (readQuoted text).2.1 = .closed) :
    ∃ part, Quotation part ∧ text = part ++ (readQuoted text).2.2 := by
  fun_induction readQuoted text with
  | case1 => cases closed
  | case2 => cases closed
  | case3 guarded later ih =>
    obtain ⟨part, quotation, whole⟩ := ih closed
    exact ⟨backslash :: guarded :: part, .guarded quotation,
      congrArg (backslash :: guarded :: ·) whole⟩
  | case4 rest => exact ⟨[quote], .close, rfl⟩
  | case5 byte rest notBackslash notQuote ih =>
    obtain ⟨part, quotation, whole⟩ := ih closed
    exact ⟨byte :: part, .byte notQuote notBackslash quotation, congrArg (byte :: ·) whole⟩

private theorem balanced_cons (notQuote : byte ≠ quote) :
    Balanced (byte :: rest) ↔ Balanced rest := by
  rw [balanced_iff, balanced_iff, List.foldl_cons, Quoting.step, if_neg notQuote]

private theorem balanced_quote :
    Balanced (quote :: rest) ↔
      (readQuoted rest).2.1 = .closed ∧ Balanced (readQuoted rest).2.2 := by
  constructor
  · rintro (_ | ⟨notQuote, -⟩ | ⟨inside, later⟩)
    · exact absurd rfl notQuote
    · have closed := readQuoted_closed inside
      exact ⟨congrArg Prod.fst (closed _), (congrArg Prod.snd (closed _)).symm ▸ later⟩
  · rintro ⟨closed, later⟩
    obtain ⟨part, quotation, whole⟩ := exists_part_of_closed closed
    rw [whole]
    exact .quoted quotation later

private theorem balanced_blanks (blanks : Blanks gap) : Balanced (gap ++ rest) ↔ Balanced rest := by
  induction gap with
  | nil => rfl
  | cons byte gap ih =>
    obtain ⟨blank, blanks⟩ := List.forall_mem_cons.mp blanks
    rw [List.cons_append, balanced_cons (ordinary_of_isBlank blank).1, ih blanks]

/-- Quotes are balanced exactly if every quoted part ends with its closing quote. -/
theorem balanced_iff_closed (raw : List UInt8) :
    Balanced raw ↔ ∀ ending ∈ (readParts raw).2, ending = .closed := by
  fun_induction readParts raw with
  | case1 => exact ⟨nofun, fun _ => .nil⟩
  | case2 rest part later ih => rw [balanced_quote, ih, List.forall_mem_cons]
  | case3 byte rest notQuote blank behind later ih =>
    have run : Balanced (rest.takeWhile isBlank ++ behind) ↔ Balanced behind :=
      balanced_blanks fun _ => List.mem_takeWhile_imp
    rw [List.takeWhile_append_dropWhile] at run
    rw [balanced_cons notQuote, run, ih]
  | case4 byte rest notQuote visible later ih => rw [balanced_cons notQuote, ih]

/-- A raw value is a value up to its mark, so its quotes are balanced. -/
theorem RawValue.balanced {raw : List UInt8} (value : RawValue raw) : Balanced raw := by
  induction value with
  | nil => exact .nil
  | byte notQuote _ _ ih => exact .byte notQuote ih
  | quoted inside _ ih => exact .quoted inside ih

end ServiceConfig.Grammar
