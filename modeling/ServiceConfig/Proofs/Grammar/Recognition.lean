import Mathlib.Data.List.TakeWhile
import ServiceConfig.Proofs.Grammar.Rules
import ServiceConfig.Proofs.Grammar.Script

/-! # Recognition

The scanner accepts exactly the scripts that the rules of the notation allow, and what it says of
one is the forest that the rules give. In one direction each scanner passes what a rule describes,
whatever comes after it; in the other a scan without complaint is taken apart into the rules.
-/

namespace ServiceConfig.Grammar

open Ascii

/-- What completes a raw value from a place with this quoting. -/
def Quoting.Completes : Quoting → List UInt8 → Prop
  | .outside, bytes => RawValue bytes
  | .inside, bytes => ∃ part rest, bytes = part ++ rest ∧ Quotation part ∧ RawValue rest
  | .escaped, bytes =>
    ∃ byte part rest, bytes = byte :: part ++ rest ∧ Quotation part ∧ RawValue rest

theorem Quotation.ne_nil {part : List UInt8} (quotation : Quotation part) : part ≠ [] := by
  cases quotation <;> exact List.cons_ne_nil _ _

theorem Quoting.completes_nil (quoting : Quoting) : quoting.Completes [] ↔ quoting = .outside := by
  cases quoting with
  | outside => exact ⟨fun _ => rfl, fun _ => .nil⟩
  | inside =>
    refine ⟨?_, nofun⟩
    rintro ⟨part, rest, whole, quotation, -⟩
    exact absurd (List.append_eq_nil_iff.mp whole.symm).1 quotation.ne_nil
  | escaped =>
    refine ⟨?_, nofun⟩
    rintro ⟨byte, part, rest, whole, -⟩
    cases whole

/-- A byte that completes a value is a step of the scan, and outside quotes it is no delimiter. -/
theorem Quoting.completes_cons (quoting : Quoting) (byte : UInt8) (bytes : List UInt8) :
    quoting.Completes (byte :: bytes) ↔
      ¬ (quoting = .outside ∧ isDelimiter byte = true) ∧ (quoting.step byte).Completes bytes := by
  cases quoting with
  | outside =>
    constructor
    · rintro (_ | ⟨notQuote, passes, later⟩ | ⟨inside, later⟩)
      · refine ⟨by simp [passes], ?_⟩
        simp only [step, notQuote, if_false]
        exact later
      · exact ⟨by rintro ⟨-, ⟨⟩⟩, _, _, rfl, inside, later⟩
    · rintro ⟨passes, completes⟩
      by_cases isQuote : byte = quote
      · subst isQuote
        obtain ⟨part, rest, rfl, inside, later⟩ := completes
        exact .quoted inside later
      · simp only [step, isQuote, if_false] at completes
        exact .byte isQuote (by simpa using passes) completes
  | inside =>
    constructor
    · rintro ⟨part, rest, whole, _ | ⟨notQuote, notBackslash, inside⟩ | inside, later⟩
      · obtain ⟨rfl, rfl⟩ := List.cons.inj whole
        exact ⟨by simp, later⟩
      · obtain ⟨rfl, rfl⟩ := List.cons.inj whole
        refine ⟨by simp, ?_⟩
        simpa only [step, notQuote, notBackslash, if_false] using ⟨_, _, rfl, inside, later⟩
      · obtain ⟨rfl, rfl⟩ := List.cons.inj whole
        exact ⟨by simp, _, _, _, rfl, inside, later⟩
    · rintro ⟨-, completes⟩
      by_cases isQuote : byte = quote
      · subst isQuote
        exact ⟨[quote], bytes, rfl, .close, completes⟩
      · by_cases isBackslash : byte = backslash
        · subst isBackslash
          obtain ⟨guarded, part, rest, rfl, inside, later⟩ := completes
          exact ⟨backslash :: guarded :: part, rest, rfl, .guarded inside, later⟩
        · simp only [step, isQuote, isBackslash, if_false] at completes
          obtain ⟨part, rest, rfl, inside, later⟩ := completes
          exact ⟨byte :: part, rest, rfl, .byte isQuote isBackslash inside, later⟩
  | escaped =>
    constructor
    · rintro ⟨first, part, rest, whole, inside, later⟩
      obtain ⟨rfl, rfl⟩ := List.cons.inj whole
      exact ⟨by simp, _, _, rfl, inside, later⟩
    · rintro ⟨-, part, rest, rfl, inside, later⟩
      exact ⟨byte, part, rest, rfl, inside, later⟩

theorem Quoting.Completes.split {quoting : Quoting} {raw : List UInt8}
    (completes : quoting.Completes raw) {mark : UInt8} (delimits : isDelimiter mark = true)
    (rest : List UInt8) :
    splitValueFrom quoting (raw ++ mark :: rest) = (raw, mark :: rest) := by
  induction raw generalizing quoting with
  | nil =>
    obtain rfl := quoting.completes_nil.mp completes
    simp [splitValueFrom, delimits]
  | cons byte raw ih =>
    obtain ⟨passes, completes⟩ := (quoting.completes_cons byte raw).mp completes
    rw [List.cons_append, splitValueFrom, if_neg passes, ih completes]

theorem Quoting.completes_of_split {quoting : Quoting} {text raw rest : List UInt8} {mark : UInt8}
    (splits : splitValueFrom quoting text = (raw, mark :: rest)) :
    quoting.Completes raw ∧ isDelimiter mark = true := by
  induction text generalizing quoting raw with
  | nil => cases splits
  | cons byte text ih =>
    rw [splitValueFrom] at splits
    split_ifs at splits with ends
    · obtain ⟨rfl, same⟩ := Prod.mk.inj splits
      obtain ⟨rfl, -⟩ := List.cons.inj same
      exact ⟨quoting.completes_nil.mpr ends.1, ends.2⟩
    · obtain ⟨rfl, later⟩ := Prod.mk.inj splits
      obtain ⟨completes, delimits⟩ := ih (Prod.ext rfl later)
      exact ⟨(quoting.completes_cons byte _).mpr ⟨ends, completes⟩, delimits⟩

/-- A value is split off exactly where a raw value and a delimiter meet. -/
theorem splitValue_eq_iff {text raw rest : List UInt8} {mark : UInt8} :
    splitValue text = (raw, mark :: rest) ↔
      text = raw ++ mark :: rest ∧ RawValue raw ∧ isDelimiter mark = true := by
  constructor
  · intro splits
    have whole := splitValue_append text
    rw [splits] at whole
    exact ⟨whole.symm, Quoting.completes_of_split splits⟩
  · rintro ⟨rfl, value, delimits⟩
    have completes : Quoting.outside.Completes raw := value
    exact completes.split delimits rest

theorem StartsWith.head? {described : UInt8 → Prop} {text : List UInt8}
    (starts : StartsWith described text) (more : List UInt8) :
    ∃ byte, (text ++ more).head? = some byte ∧ described byte := by
  obtain ⟨byte, rest, rfl, is⟩ := starts
  exact ⟨byte, rfl, is⟩

theorem StartsWith.stops {described : UInt8 → Prop} {text : List UInt8} {inClass : UInt8 → Bool}
    (starts : StartsWith described text) (apart : ∀ byte, described byte → inClass byte = false)
    (more : List UInt8) : ∀ byte, (text ++ more).head? = some byte → inClass byte = false := by
  obtain ⟨first, is, described⟩ := starts.head? more
  intro byte same
  obtain rfl := Option.some.inj (is.symm.trans same)
  exact apart first described

theorem newlines_append (first second : List UInt8) :
    newlines (first ++ second) = newlines first + newlines second := List.count_append

theorem newlines_mark {mark : UInt8} (delimits : isDelimiter mark = true) (rest : List UInt8) :
    newlines (mark :: rest) = newlines rest := by
  apply List.count_cons_of_ne
  rintro rfl
  cases delimits

theorem isWordByte_of_isBlank {byte : UInt8} (blank : isBlank byte = true) :
    isWordByte byte = false := by
  rw [isWordByte, blank]
  rfl

/-- Blanks and a semicolon are no part of a word. -/
theorem stops_semicolon {gap : List UInt8} (blanks : Blanks gap) (rest : List UInt8) :
    ∀ byte, (gap ++ semicolon :: rest).head? = some byte → isWordByte byte = false := by
  intro byte first
  cases gap with
  | nil =>
    obtain rfl := Option.some.inj first
    rfl
  | cons blank gap =>
    obtain rfl := Option.some.inj first
    exact isWordByte_of_isBlank (blanks blank (List.mem_cons_self ..))

theorem Cursor.name_bare {text : List UInt8} (opens : StartsWith OpensValue text)
    (more : List UInt8) (line : Nat) :
    Cursor.name ⟨text ++ more, line⟩ = .ok ([], ⟨text ++ more, line⟩) := by
  obtain ⟨first, is, opens⟩ := opens.head? more
  rw [Cursor.name, is, if_pos (opens.imp (congrArg some) (congrArg some))]

/-- A word and the place after the blanks behind it. -/
theorem Cursor.name_word_eq {word gap rest : List UInt8}
    (opens : StartsWith OpensWord (word ++ (gap ++ rest)))
    (isWord : ∀ byte ∈ word, isWordByte byte = true) (blanks : Blanks gap)
    (ends : ∀ byte, (gap ++ rest).head? = some byte → isWordByte byte = false)
    (stops : ∀ byte, rest.head? = some byte → isBlank byte = false)
    (nonempty : rest ≠ []) (line : Nat) :
    Cursor.name ⟨word ++ (gap ++ rest), line⟩ =
      if rest.head? = some semicolon then .ok ([], ⟨word ++ (gap ++ rest), line⟩)
      else .ok (word, ⟨rest, line + newlines (word ++ gap)⟩) := by
  obtain ⟨first, is, -, -, notValue⟩ := opens.head? []
  rw [List.append_nil] at is
  have notBare : ¬ (some first = some quote ∨ some first = some openBrace) :=
    fun bare => notValue (bare.imp Option.some.inj Option.some.inj)
  have notEnd : gap ++ rest ≠ [] := fun empty => nonempty (List.append_eq_nil_iff.mp empty).2
  have skipped := Cursor.skip_append blanks stops (line + newlines word)
  have taken := (takeWhile_append_stop isWord ends).1
  rw [Cursor.name, is, if_neg notBare]
  dsimp only
  rw [Cursor.skip_append isWord ends, if_neg notEnd, Cursor.skipBlanks, skipped, taken,
    newlines_append, Nat.add_assoc]

/-- What a head says, by the mark that ends it. -/
def headEvent (mark : UInt8) (name raw : List UInt8) : Event :=
  if mark = semicolon then .ofLeaf (Utf8.decodeLenient name) (valueOf raw)
  else .ofOpening (Utf8.decodeLenient name) (valueOf raw)

/-- Where a head stands, its name is read, and behind it the raw value up to the mark. -/
theorem Head.name_eq {mark : UInt8} {name raw text : List UInt8} (head : Head mark name raw text)
    (delimits : isDelimiter mark = true) (more : List UInt8) (line : Nat) :
    ∃ valueLine, Cursor.name ⟨text ++ more, line⟩ = .ok (name, ⟨raw ++ mark :: more, valueLine⟩) ∧
      splitValue (raw ++ mark :: more) = (raw, mark :: more) ∧
      valueLine + newlines raw = line + newlines text := by
  have passed (raw : List UInt8) : newlines (raw ++ [mark]) = newlines raw := by
    rw [newlines_append, newlines_mark delimits]
    rfl
  cases head with
  | bare value opens =>
    have named := Cursor.name_bare opens more line
    rw [List.append_assoc, List.singleton_append] at named
    refine ⟨line, ?_, splitValue_eq_iff.mpr ⟨rfl, value, delimits⟩, by rw [passed]⟩
    rw [List.append_assoc, List.singleton_append, named]
  | @lone word gap rest raw value opens isWord blanks alone =>
    have shape : raw ++ mark :: more = word ++ (gap ++ semicolon :: (rest ++ more)) := by
      have whole := congrArg (· ++ more) alone
      simpa using whole
    have named : Cursor.name ⟨raw ++ mark :: more, line⟩ =
        .ok ([], ⟨raw ++ mark :: more, line⟩) := by
      obtain ⟨first, after, starts, opens⟩ := opens
      have opens : StartsWith OpensWord (word ++ (gap ++ semicolon :: (rest ++ more))) :=
        ⟨first, after ++ more, by rw [← shape, ← List.cons_append, ← starts]; simp, opens⟩
      have stops : ∀ byte, (semicolon :: (rest ++ more)).head? = some byte →
          isBlank byte = false := by
        rintro _ ⟨⟩
        rfl
      rw [shape, Cursor.name_word_eq opens isWord blanks (stops_semicolon blanks _) stops
        (List.cons_ne_nil _ _), List.head?_cons, if_pos rfl]
    refine ⟨line, ?_, splitValue_eq_iff.mpr ⟨rfl, value, delimits⟩, by rw [passed]⟩
    rw [List.append_assoc, List.singleton_append, named]
  | @named _ gap raw value opens isWord ends blanks valued =>
    have shape : name ++ gap ++ raw ++ [mark] ++ more = name ++ (gap ++ (raw ++ mark :: more)) := by
      simp
    have opens : StartsWith OpensWord (name ++ (gap ++ (raw ++ mark :: more))) := by
      obtain ⟨first, after, starts, opens⟩ := opens
      exact ⟨first, after ++ more, by rw [← shape, starts, List.cons_append], opens⟩
    have ends : ∀ byte, (gap ++ (raw ++ mark :: more)).head? = some byte →
        isWordByte byte = false := by
      have stops := ends.stops (fun _ => id) more
      simpa using stops
    obtain ⟨first, is, visible, notSemicolon⟩ := valued.head? more
    have is : (raw ++ mark :: more).head? = some first := by simpa using is
    have stops : ∀ byte, (raw ++ mark :: more).head? = some byte → isBlank byte = false := by
      intro byte same
      obtain rfl := Option.some.inj (is.symm.trans same)
      exact visible
    have notSemicolon : ¬ (raw ++ mark :: more).head? = some semicolon := by
      rw [is]
      exact fun same => notSemicolon (Option.some.inj same)
    have named := Cursor.name_word_eq opens isWord blanks ends stops (by simp) line
    rw [if_neg notSemicolon] at named
    refine ⟨_, shape ▸ named, splitValue_eq_iff.mpr ⟨rfl, value, delimits⟩, ?_⟩
    rw [passed, newlines_append (name ++ gap), Nat.add_assoc]

/-- Where a head stands, it is read, whatever comes after it. -/
theorem Head.statement {mark : UInt8} {name raw text : List UInt8} (head : Head mark name raw text)
    (delimits : isDelimiter mark = true) (continues : mark ≠ closeBrace) (more : List UInt8)
    (line : Nat) :
    Cursor.statement ⟨text ++ more, line⟩ =
      .ok (headEvent mark name raw, ⟨more, line + newlines text⟩) := by
  obtain ⟨valueLine, named, splits, lines_eq⟩ := head.name_eq delimits more line
  rw [Cursor.statement_of_name named splits continues, lines_eq]
  rfl

/-- What a run starts with does not depend on what comes after its mark. -/
theorem StartsWith.trim {described : UInt8 → Prop} {text rest : List UInt8} {mark : UInt8}
    (starts : StartsWith described (text ++ mark :: rest)) :
    StartsWith described (text ++ [mark]) := by
  obtain ⟨first, after, whole, is⟩ := starts
  cases text with
  | nil =>
    obtain ⟨rfl, -⟩ := List.cons.inj whole
    exact ⟨mark, [], rfl, is⟩
  | cons byte text =>
    obtain ⟨rfl, -⟩ := List.cons.inj whole
    exact ⟨byte, text ++ [mark], rfl, is⟩

private theorem startsWith_of_head? {described : UInt8 → Prop} {text : List UInt8} {byte : UInt8}
    (first : text.head? = some byte) (is : described byte) : StartsWith described text := by
  obtain ⟨rest, rfl⟩ := List.head?_eq_some_iff.mp first
  exact ⟨byte, rest, rfl, is⟩

theorem dropWhile_stops {inClass : UInt8 → Bool} {text : List UInt8} {byte : UInt8}
    (first : (text.dropWhile inClass).head? = some byte) : inClass byte = false := by
  have stops := List.head?_dropWhile_not inClass text
  rw [first] at stops
  exact Bool.eq_false_iff.mpr (by simpa using stops)

/-- The parts of a text in front of which a name was looked for. -/
theorem Cursor.name_parts {start valueStart : Cursor} {name : List UInt8}
    (named : start.name = .ok (name, valueStart)) (notBare : ¬ StartsWith OpensValue start.rest) :
    ∃ word gap after, start.rest = word ++ (gap ++ after) ∧
      (∀ byte ∈ word, isWordByte byte = true) ∧ Blanks gap ∧
      StartsWith (fun byte => isWordByte byte = false) (gap ++ after) ∧
      (∀ byte, after.head? = some byte → isBlank byte = false) ∧
      (after.head? = some semicolon ∧ name = [] ∧ valueStart = start ∨
        after.head? ≠ some semicolon ∧ name = word ∧ valueStart.rest = after) := by
  have notBare : ¬ (start.rest.head? = some quote ∨ start.rest.head? = some openBrace) := by
    rintro (first | first)
    · exact notBare (startsWith_of_head? first (.inl rfl))
    · exact notBare (startsWith_of_head? first (.inr rfl))
  rw [Cursor.name, if_neg notBare] at named
  dsimp only [Cursor.skip, Cursor.skipBlanks] at named
  let behind := start.rest.dropWhile isWordByte
  refine ⟨start.rest.takeWhile isWordByte, behind.takeWhile isBlank, behind.dropWhile isBlank,
    by rw [List.takeWhile_append_dropWhile, List.takeWhile_append_dropWhile],
    fun _ => List.mem_takeWhile_imp, fun _ => List.mem_takeWhile_imp, ?_,
    fun _ => dropWhile_stops, ?_⟩
  · rw [List.takeWhile_append_dropWhile]
    split_ifs at named with atEnd
    all_goals
      obtain ⟨byte, rest, shape⟩ := List.exists_cons_of_ne_nil atEnd
      have first : behind.head? = some byte := congrArg List.head? shape
      exact startsWith_of_head? first (dropWhile_stops first)
  · split_ifs at named with atEnd alone
    · obtain ⟨rfl, rfl⟩ := Prod.mk.inj (Except.ok.inj named)
      exact .inl ⟨alone, rfl, rfl⟩
    · obtain ⟨rfl, rfl⟩ := Prod.mk.inj (Except.ok.inj named)
      exact .inr ⟨alone, rfl, rfl⟩

/-- Two marks in one text: the first of them stands behind bytes that are none. -/
theorem exists_mark_behind {front raw rest tail : List UInt8} {mark : UInt8}
    (delimits : isDelimiter mark = true) (passes : ∀ byte ∈ front, isDelimiter byte = false)
    (same : raw ++ mark :: rest = front ++ semicolon :: tail) :
    ∃ more, raw ++ [mark] = front ++ semicolon :: more := by
  rcases List.append_eq_append_iff.mp same with ⟨between, rfl, later⟩ | ⟨between, rfl, later⟩
  · cases between with
    | nil =>
      obtain ⟨rfl, -⟩ := List.cons.inj later
      exact ⟨[], by simp⟩
    | cons byte between =>
      obtain ⟨rfl, -⟩ := List.cons.inj later
      rw [passes mark (by simp)] at delimits
      cases delimits
  · cases between with
    | nil =>
      obtain ⟨rfl, -⟩ := List.cons.inj later
      exact ⟨[], by simp⟩
    | cons byte between =>
      obtain ⟨rfl, -⟩ := List.cons.inj later
      exact ⟨between ++ [mark], by simp⟩

private theorem isDelimiter_of_isWordByte {byte : UInt8} (isWord : isWordByte byte = true) :
    isDelimiter byte = false := by
  simp only [isWordByte, Bool.and_eq_true, Bool.not_eq_true'] at isWord
  exact isWord.2

theorem isDelimiter_of_isBlank {byte : UInt8} (blank : isBlank byte = true) :
    isDelimiter byte = false := Bool.eq_false_iff.mpr fun delimits => by
  rw [isBlank_of_isDelimiter delimits] at blank
  cases blank

/-- A statement that was read ends at a mark behind its raw value. -/
theorem Cursor.statement_parts {start next : Cursor} {event : Event}
    (read : start.statement = .ok (event, next)) :
    ∃ name valueStart raw mark, start.name = .ok (name, valueStart) ∧
      valueStart.rest = raw ++ mark :: next.rest ∧ RawValue raw ∧ isDelimiter mark = true ∧
      mark ≠ closeBrace := by
  unfold Cursor.statement at read
  split at read
  · cases read
  next name valueStart named =>
    obtain ⟨raw, after, splits⟩ : ∃ raw after, splitValue valueStart.rest = (raw, after) :=
      ⟨_, _, rfl⟩
    rw [splits] at read
    cases after with
    | nil => cases read
    | cons mark rest =>
      obtain ⟨whole, value, delimits⟩ := splitValue_eq_iff.mp splits
      dsimp only at read
      split_ifs at read with closes
      all_goals
        obtain ⟨-, rfl⟩ := Prod.mk.inj (Except.ok.inj read)
        exact ⟨name, valueStart, raw, mark, named, whole, value, delimits, closes⟩

/-- A name and a raw value up to a mark are a head as the rules have it. -/
theorem Cursor.exists_head_of_name {start valueStart : Cursor} {name raw rest : List UInt8}
    {mark : UInt8} (named : start.name = .ok (name, valueStart))
    (whole : valueStart.rest = raw ++ mark :: rest) (value : RawValue raw)
    (delimits : isDelimiter mark = true)
    (visible : ∀ byte, start.rest.head? = some byte → isBlank byte = false ∧ byte ≠ closeBrace) :
    ∃ text, Head mark name raw (text ++ [mark]) ∧ start.rest = text ++ mark :: rest := by
  by_cases bare : StartsWith OpensValue start.rest
  · have here := Cursor.name_bare bare [] start.line
    rw [List.append_nil] at here
    obtain ⟨rfl, rfl⟩ := Prod.mk.inj (Except.ok.inj (named.symm.trans here))
    have whole : start.rest = raw ++ mark :: rest := whole
    exact ⟨raw, .bare value (whole ▸ bare).trim, whole⟩
  · obtain ⟨word, gap, after, parts, isWord, blanks, ends, stops, read⟩ :=
      Cursor.name_parts named bare
    have opens : StartsWith OpensWord start.rest := by
      obtain ⟨first, rest, shape, -⟩ := ends
      cases begins : start.rest with
      | nil => simp [begins, shape] at parts
      | cons byte text =>
        obtain ⟨seen, notBrace⟩ := visible byte (by rw [begins, List.head?_cons])
        exact ⟨byte, text, rfl, seen, notBrace, fun value => bare ⟨byte, text, begins, value⟩⟩
    rcases read with ⟨alone, rfl, rfl⟩ | ⟨valued, rfl, rfl⟩
    · obtain ⟨tail, rfl⟩ := List.head?_eq_some_iff.mp alone
      rw [whole, ← List.append_assoc] at parts
      have passes : ∀ byte ∈ word ++ gap, isDelimiter byte = false := by
        intro byte member
        rcases List.mem_append.mp member with inWord | inGap
        · exact isDelimiter_of_isWordByte (isWord byte inWord)
        · exact isDelimiter_of_isBlank (blanks byte inGap)
      obtain ⟨more, alone⟩ := exists_mark_behind delimits passes parts
      exact ⟨raw, .lone value (whole ▸ opens).trim isWord blanks alone, whole⟩
    · have shape : start.rest = name ++ gap ++ raw ++ mark :: rest := by
        rw [parts, whole]
        simp
      have shapeEnds : gap ++ valueStart.rest = gap ++ raw ++ mark :: rest := by
        rw [whole, List.append_assoc]
      refine ⟨name ++ gap ++ raw,
        .named value (shape ▸ opens).trim isWord (shapeEnds ▸ ends).trim blanks ?_, shape⟩
      obtain ⟨first, rest, begins⟩ := List.exists_cons_of_ne_nil (l := valueStart.rest)
        (by simp [whole])
      have is : valueStart.rest.head? = some first := by rw [begins, List.head?_cons]
      have starts : StartsWith (fun byte => isBlank byte = false ∧ byte ≠ semicolon)
          valueStart.rest :=
        ⟨first, rest, begins, stops first is, fun same => valued (same ▸ is)⟩
      exact (whole ▸ starts).trim

/-- What was read as a statement begins with a head as the rules have it. -/
theorem Cursor.exists_head {start next : Cursor} {event : Event}
    (read : start.statement = .ok (event, next))
    (visible : ∀ byte, start.rest.head? = some byte → isBlank byte = false ∧ byte ≠ closeBrace) :
    ∃ mark name raw text, Head mark name raw text ∧ start.rest = text ++ next.rest ∧
      isDelimiter mark = true ∧ mark ≠ closeBrace := by
  obtain ⟨name, valueStart, raw, mark, named, whole, value, delimits, continues⟩ :=
    statement_parts read
  obtain ⟨text, head, whole⟩ := exists_head_of_name named whole value delimits visible
  exact ⟨mark, name, raw, text ++ [mark], head, by simp [whole], delimits, continues⟩

theorem Event.ofLeaf_eq (name value : String) :
    ofLeaf name value = if value = "" then .leaf "" name else .leaf name value := by
  simp [ofLeaf]

theorem Forest.events_consLeaf (name value : String) (rest : Forest) :
    (consLeaf name value rest).events = .ofLeaf name value :: rest.events := by
  rw [consLeaf, Event.ofLeaf_eq]
  split_ifs <;> rfl

theorem Forest.events_consBlock (name value : String) (below rest : Forest) (more : List Event) :
    (consBlock name value below rest).events ++ more =
      .ofOpening name value :: (below.events ++ .closing :: (rest.events ++ more)) := by
  rw [consBlock, events_block_append, Event.ofOpening]
  simp

theorem Head.visible {mark : UInt8} {name raw text : List UInt8} (head : Head mark name raw text) :
    StartsWith (fun byte => isBlank byte = false ∧ byte ≠ closeBrace) text := by
  cases head with
  | bare _ opens =>
    obtain ⟨first, rest, whole, rfl | rfl⟩ := opens <;> exact ⟨_, rest, whole, rfl, by decide⟩
  | lone _ opens =>
    obtain ⟨first, rest, whole, seen, notBrace, -⟩ := opens
    exact ⟨first, rest, whole, seen, notBrace⟩
  | named _ opens =>
    obtain ⟨first, rest, whole, seen, notBrace, -⟩ := opens
    exact ⟨first, rest, whole, seen, notBrace⟩

theorem Cursor.skipBlanks_append {gap : List UInt8} (blanks : Blanks gap) (more : List UInt8)
    (line : Nat) :
    Cursor.skipBlanks ⟨gap ++ more, line⟩ = Cursor.skipBlanks ⟨more, line + newlines gap⟩ := by
  simp only [Cursor.skipBlanks, Cursor.skip, List.takeWhile_append_of_pos blanks,
    List.dropWhile_append_of_pos blanks, newlines_append, Nat.add_assoc]

theorem Cursor.skipBlanks_visible {described : UInt8 → Prop} {text : List UInt8}
    (starts : StartsWith described text) (visible : ∀ byte, described byte → isBlank byte = false)
    {gap : List UInt8} (blanks : Blanks gap) (more : List UInt8) (line : Nat) :
    Cursor.skipBlanks ⟨gap ++ (text ++ more), line⟩ = ⟨text ++ more, line + newlines gap⟩ :=
  Cursor.skip_append blanks (starts.stops visible more) line

/-- The blanks that a cursor passes. -/
theorem Cursor.exists_blanks (cursor : Cursor) :
    ∃ gap, Blanks gap ∧ cursor.rest = gap ++ cursor.skipBlanks.rest ∧
      cursor.skipBlanks.line = cursor.line + newlines gap ∧
      ∀ byte, cursor.skipBlanks.rest.head? = some byte → isBlank byte = false :=
  ⟨cursor.rest.takeWhile isBlank, fun _ => List.mem_takeWhile_imp,
    List.takeWhile_append_dropWhile.symm, rfl, fun _ => dropWhile_stops⟩

theorem Cursor.blockEnd_parts {afterBrace next : Cursor} (ended : afterBrace.blockEnd = .ok next) :
    ∃ gap, Blanks gap ∧ afterBrace.rest = gap ++ semicolon :: next.rest := by
  obtain ⟨gap, blanks, whole, -⟩ := afterBrace.exists_blanks
  unfold Cursor.blockEnd at ended
  dsimp only at ended
  split at ended
  · cases ended
  next byte rest shape =>
    split_ifs at ended with marked
    obtain rfl := Except.ok.inj ended
    exact ⟨gap, blanks, by rw [whole, shape, marked]⟩

theorem Cursor.blockEnd_append {gap : List UInt8} (blanks : Blanks gap) (rest : List UInt8)
    (line : Nat) :
    Cursor.blockEnd ⟨gap ++ semicolon :: rest, line⟩ = .ok ⟨rest, line + newlines gap⟩ := by
  rw [Cursor.blockEnd, Cursor.skipBlanks_append blanks]
  rfl

namespace Script

theorem scan_congr {first second : Cursor} (same : first.skipBlanks = second.skipBlanks)
    (lines : List Nat) : scan first lines = scan second lines := by
  rw [scan.eq_def, scan.eq_def second]
  dsimp only
  rw [same]

theorem openLines_ofLeaf (line : Nat) (name value : String) (lines : List Nat) :
    openLines ⟨line, .ofLeaf name value⟩ lines = lines := by
  rw [Event.ofLeaf_eq, openLines]
  split_ifs <;> rfl

theorem scan_head {mark : UInt8} {gap name raw head : List UInt8} (blanks : Blanks gap)
    (begins : Head mark name raw head) (delimits : isDelimiter mark = true)
    (continues : mark ≠ closeBrace) (more : List UInt8) (line : Nat) (lines : List Nat) :
    scan ⟨gap ++ (head ++ more), line⟩ lines =
      prepend [⟨line + newlines gap, headEvent mark name raw⟩]
        (scan ⟨more, line + newlines gap + newlines head⟩
          (openLines ⟨line + newlines gap, headEvent mark name raw⟩ lines)) := by
  have skipped := Cursor.skipBlanks_visible begins.visible (fun _ => And.left) blanks more line
  obtain ⟨first, after, starts, -, opens⟩ := begins.visible
  have read := begins.statement delimits continues more (line + newlines gap)
  rw [← skipped] at read
  rw [scan_statement (by rw [skipped, starts, List.cons_append]) opens read lines, skipped]

theorem scan_braceEnd {gap : List UInt8} (blanks : Blanks gap) (more : List UInt8)
    (line opened : Nat) (lines : List Nat) :
    scan ⟨closeBrace :: (gap ++ semicolon :: more), line⟩ (opened :: lines) =
      prepend [⟨line, .closing⟩] (scan ⟨more, line + newlines gap⟩ lines) :=
  scan_closing rfl (Cursor.blockEnd_append blanks more line) opened lines

/-- The statements of a script are read, whatever comes after it and whatever is open around it. -/
theorem scan_reads {text : List UInt8} {forest : Forest} (reads : Reads text forest) (line : Nat) :
    ∃ front, front.map Statement.event = forest.events ∧ ∀ more lines,
      scan ⟨text ++ more, line⟩ lines =
        prepend front (scan ⟨more, line + newlines text⟩ lines) := by
  induction reads generalizing line with
  | nil blanks =>
    exact ⟨[], rfl, fun more lines => scan_congr (Cursor.skipBlanks_append blanks more line) lines⟩
  | @leaf gap name raw head text rest blanks begins _ ih =>
    obtain ⟨front, events, scanned⟩ := ih (line + newlines gap + newlines head)
    have read : headEvent semicolon name raw = .ofLeaf (Utf8.decodeLenient name) (valueOf raw) :=
      if_pos rfl
    refine ⟨⟨line + newlines gap, headEvent semicolon name raw⟩ :: front, ?_, fun more lines => ?_⟩
    · rw [List.map_cons, events, Forest.events_consLeaf, read]
    · have lines_eq : line + newlines (gap ++ head ++ text) =
          line + newlines gap + newlines head + newlines text := by
        simp only [newlines_append, Nat.add_assoc]
      rw [lines_eq, List.append_assoc, List.append_assoc,
        scan_head blanks begins rfl (by decide), read, openLines_ofLeaf, scanned, prepend_prepend]
      rfl
  | @block gap name raw head inner gapEnd text below rest blanks begins _ blanksEnd _ ihBelow ih =>
    obtain ⟨frontBelow, eventsBelow, scannedBelow⟩ := ihBelow (line + newlines gap + newlines head)
    let closingLine := line + newlines gap + newlines head + newlines inner
    obtain ⟨front, events, scanned⟩ := ih (closingLine + newlines gapEnd)
    have read : headEvent openBrace name raw =
        .ofOpening (Utf8.decodeLenient name) (valueOf raw) := if_neg (by decide)
    refine ⟨⟨line + newlines gap, headEvent openBrace name raw⟩ :: frontBelow ++
      ⟨closingLine, .closing⟩ :: front, ?_, fun more lines => ?_⟩
    · have whole := Forest.events_consBlock (Utf8.decodeLenient name) (valueOf raw) below rest []
      rw [List.append_nil, List.append_nil] at whole
      rw [whole, List.map_append, List.map_cons, List.map_cons, events, eventsBelow, read,
        List.cons_append]
    · have opened : openLines ⟨line + newlines gap, headEvent openBrace name raw⟩ lines =
          (line + newlines gap) :: lines := by
        rw [read]
        rfl
      have shape : gap ++ head ++ inner ++ closeBrace :: gapEnd ++ semicolon :: text ++ more =
          gap ++ (head ++ (inner ++ closeBrace :: (gapEnd ++ semicolon :: (text ++ more)))) := by
        simp
      have lines_eq : line + newlines (gap ++ head ++ inner ++ closeBrace :: gapEnd ++
          semicolon :: text) = closingLine + newlines gapEnd + newlines text := by
        simp only [closingLine, newlines_append, Nat.add_assoc,
          newlines_mark (rfl : isDelimiter closeBrace = true),
          newlines_mark (rfl : isDelimiter semicolon = true)]
      rw [shape, lines_eq, scan_head blanks begins rfl (by decide), opened, scannedBelow,
        scan_braceEnd blanksEnd, scanned, prepend_prepend, prepend_prepend, prepend_prepend,
        List.append_assoc]
      rfl

/-- What is left of a script inside so many blocks: the rest of the statements of each block and its
end, innermost first, and the statements behind all of them. -/
inductive Finishes : (inside : Nat) → List Event → List UInt8 → Prop
  | last {text : List UInt8} {forest : Forest} (reads : Reads text forest) :
    Finishes 0 forest.events text
  | close {inside : Nat} {text gap rest : List UInt8} {forest : Forest} {events : List Event}
    (reads : Reads text forest) (blanks : Blanks gap) (outside : Finishes inside events rest) :
    Finishes (inside + 1) (forest.events ++ .closing :: events)
      (text ++ closeBrace :: (gap ++ semicolon :: rest))

section

variable {inside : Nat} {events : List Event} {gap name raw head text : List UInt8}

theorem Finishes.leaf (blanks : Blanks gap) (begins : Head semicolon name raw head)
    (finishes : Finishes inside events text) :
    Finishes inside (.ofLeaf (Utf8.decodeLenient name) (valueOf raw) :: events)
      (gap ++ head ++ text) := by
  cases finishes with
  | last reads =>
    rw [← Forest.events_consLeaf]
    exact .last (.leaf blanks begins reads)
  | close reads blanksEnd outside =>
    rw [← List.cons_append, ← Forest.events_consLeaf, ← List.append_assoc]
    exact .close (.leaf blanks begins reads) blanksEnd outside

theorem Finishes.opening (blanks : Blanks gap) (begins : Head openBrace name raw head)
    (finishes : Finishes (inside + 1) events text) :
    Finishes inside (.ofOpening (Utf8.decodeLenient name) (valueOf raw) :: events)
      (gap ++ head ++ text) := by
  obtain _ | @⟨_, inner, gapEnd, rest, below, _, inside, blanksEnd, outside⟩ := finishes
  cases outside with
  | @last _ forest reads =>
    have whole := Finishes.last (.block blanks begins inside blanksEnd reads)
    have events := Forest.events_consBlock (Utf8.decodeLenient name) (valueOf raw) below forest []
    rw [List.append_nil, List.append_nil] at events
    rw [events] at whole
    simpa using whole
  | @close _ _ _ _ forest _ reads blanksAfter outside =>
    have whole := Finishes.close (.block blanks begins inside blanksEnd reads) blanksAfter outside
    rw [Forest.events_consBlock] at whole
    simpa using whole

end

/-- A scan without complaint takes the script apart into the rules. -/
theorem scan_finishes (cursor : Cursor) (lines : List Nat)
    (accepted : (scan cursor lines).complaint? = none) :
    Finishes lines.length ((scan cursor lines).statements.map Statement.event) cursor.rest := by
  fun_induction scan cursor lines with
  | case1 cursor start ended =>
    obtain ⟨gap, blanks, whole, -⟩ := cursor.exists_blanks
    rw [whole, show cursor.skipBlanks.rest = [] from ended, List.append_nil]
    exact .last (.nil blanks)
  | case2 | case3 | case4 | case6 => cases accepted
  | case5 cursor start rest opened lines next ended starts ih =>
    obtain ⟨gap, blanks, whole, -⟩ := cursor.exists_blanks
    obtain ⟨gapEnd, blanksEnd, behind⟩ := Cursor.blockEnd_parts ended
    have behind : rest = gapEnd ++ semicolon :: next.rest := behind
    rw [whole, show cursor.skipBlanks.rest = closeBrace :: rest from starts, behind]
    exact .close (.nil blanks) blanksEnd (ih accepted)
  | case7 cursor lines start byte rest starts opens event next read ih =>
    obtain ⟨gap, blanks, whole, -, stops⟩ := cursor.exists_blanks
    have starts : cursor.skipBlanks.rest = byte :: rest := starts
    have visible : ∀ first, cursor.skipBlanks.rest.head? = some first →
        isBlank first = false ∧ first ≠ closeBrace := by
      intro first is
      refine ⟨stops first is, ?_⟩
      rw [starts, List.head?_cons] at is
      rwa [← Option.some.inj is]
    obtain ⟨mark, name, raw, head, begins, parts, delimits, continues⟩ :=
      Cursor.exists_head read visible
    have again := begins.statement delimits continues next.rest start.line
    rw [← parts] at again
    obtain ⟨event_eq, -⟩ := Prod.mk.inj (Except.ok.inj (read.symm.trans again))
    have finishes := ih accepted
    rw [whole, parts, ← List.append_assoc]
    simp only [isDelimiter, Bool.or_eq_true, beq_iff_eq, continues, or_false] at delimits
    rcases delimits with rfl | rfl
    · rw [headEvent, if_pos rfl] at event_eq
      subst event_eq
      rw [openLines_ofLeaf] at finishes ⊢
      exact finishes.leaf blanks begins
    · rw [headEvent, if_neg (by decide)] at event_eq
      subst event_eq
      exact finishes.opening blanks begins

theorem exists_reads {text : List UInt8} {line : Nat}
    (accepted : (scan ⟨text, line⟩ []).complaint? = none) :
    ∃ forest, Reads text forest ∧
      (scan ⟨text, line⟩ []).statements.map Statement.event = forest.events := by
  have finishes := scan_finishes ⟨text, line⟩ [] accepted
  generalize (scan ⟨text, line⟩ []).statements.map Statement.event = events at finishes ⊢
  obtain @⟨_, forest, reads⟩ := finishes
  exact ⟨forest, reads, rfl⟩

/-- What is read before anything else is the whole script when nothing comes after it. -/
theorem scan_alone {text : List UInt8} {line next : Nat} {front : List Statement}
    (scanned : ∀ more lines,
      scan ⟨text ++ more, line⟩ lines = prepend front (scan ⟨more, next⟩ lines)) :
    scan ⟨text, line⟩ [] = ⟨front, none⟩ := by
  have ended : scan ⟨[], next⟩ [] = finished := scan_end rfl
  rw [← List.append_nil text, scanned, ended, prepend, finished, List.append_nil]

theorem scan_eq_of_reads {text : List UInt8} {forest : Forest} (reads : Reads text forest)
    (line : Nat) :
    ∃ statements, statements.map Statement.event = forest.events ∧
      scan ⟨text, line⟩ [] = ⟨statements, none⟩ := by
  obtain ⟨front, events, scanned⟩ := scan_reads reads line
  exact ⟨front, events, scan_alone scanned⟩

/-- A text without complaint is a script that the rules read as a forest. -/
theorem exists_reads_ofText {text : List UInt8} (accepted : (ofText text).complaint? = none) :
    ∃ source forest, strip text = .ok source ∧ Reads source forest ∧
      (ofText text).statements.map Statement.event = forest.events := by
  rw [ofText] at accepted ⊢
  cases stripped : strip text with
  | error began => simp [stripped, failed] at accepted
  | ok source =>
    rw [stripped] at accepted
    obtain ⟨forest, reads, events⟩ := exists_reads accepted
    exact ⟨source, forest, rfl, reads, events⟩

end Script

end ServiceConfig.Grammar
