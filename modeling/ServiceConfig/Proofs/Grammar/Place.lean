import ServiceConfig.Proofs.Grammar.Recognition

/-! # Places in a source

A cursor holds the rest of a source, so it cannot leave it and cannot go back. Here a place is a
number of bytes and a line, and the source stays whole: a place is moved byte by byte, it is set
back when a word turns out to be the value, and it can go past the end. The head of a statement is
read by such moves, two loops one inside the other for the value. It is the head that the cursor
reads, and all that is passed on the way is counted.
-/

namespace ServiceConfig.Grammar

open Ascii

/-- The number of bytes in front, and the number of the line. -/
structure Place where
  position : Nat
  line : Nat
  deriving DecidableEq, Repr

namespace Place

variable (source : List UInt8)

def peek? (place : Place) : Option UInt8 := source[place.position]?

/-- One byte further, or past the end. -/
def bump (place : Place) : Place :=
  ⟨place.position + 1,
    if place.peek? source = some newline then place.line + 1 else place.line⟩

private theorem bump_position (place : Place) : (place.bump source).position = place.position + 1 :=
  rfl

theorem position_lt {source : List UInt8} {place : Place} {byte : UInt8}
    (here : place.peek? source = some byte) : place.position < source.length :=
  (List.getElem?_eq_some_iff.mp here).1

/-- Passes bytes of a class. -/
def skip (inClass : UInt8 → Bool) (place : Place) : Place :=
  match _here : place.peek? source with
  | none => place
  | some byte => if inClass byte then (place.bump source).skip inClass else place
termination_by source.length - place.position
decreasing_by
  have within := position_lt _here
  simp only [bump_position]
  omega

/-- Passes the rest of a quoted part. A backslash takes the next byte with it, or the end. -/
def passQuoted (place : Place) : Place :=
  match _here : place.peek? source with
  | none => place
  | some byte =>
    if byte = backslash then ((place.bump source).bump source).passQuoted
    else if byte = quote then place.bump source
    else (place.bump source).passQuoted
termination_by source.length - place.position
decreasing_by
  all_goals
    have within := position_lt _here
    simp only [bump_position]
    omega

private theorem passQuoted_le (place : Place) :
    place.position ≤ (place.passQuoted source).position := by
  fun_induction passQuoted source place with
  | case1 place => exact Nat.le_refl _
  | case2 place _ ih =>
    simp only [bump_position] at ih
    omega
  | case3 place => exact Nat.le_succ _
  | case4 place byte _ _ _ ih => exact Nat.le_of_succ_le ih

/-- Passes a raw value, up to the mark that ends it or to the end of the source. -/
def passValue (place : Place) : Except Complaint Place :=
  match _here : place.peek? source with
  | none => .ok place
  | some byte =>
    if byte = semicolon ∨ byte = openBrace then .ok place
    else if byte = closeBrace then .error ⟨place.line, .missingSemicolon⟩
    else if byte = quote then ((place.bump source).passQuoted source).passValue
    else (place.bump source).passValue
termination_by source.length - place.position
decreasing_by
  · have within := position_lt _here
    have further := passQuoted_le source (place.bump source)
    simp only [bump_position] at further ⊢
    omega
  · have within := position_lt _here
    simp only [bump_position]
    omega

/-- The bytes between two places. -/
def slice (start stop : Nat) : List UInt8 := (source.drop start).take (stop - start)

/-- The bytes of a statement's name, and the place where its value begins, blanks aside. A lone word
is left to the value: the place is set back. -/
def name (start : Place) : Except Complaint (List UInt8 × Place) :=
  if start.peek? source = some quote ∨ start.peek? source = some openBrace then .ok ([], start)
  else
    let wordEnd := start.skip source isWordByte
    if wordEnd.peek? source = none then .error ⟨start.line, .prematureEnd⟩
    else
      let next := wordEnd.skip source isBlank
      if next.peek? source = some semicolon then .ok ([], start)
      else .ok (slice source start.position wordEnd.position, next)

/-- What is read of a statement up to and with the mark that ends its head. -/
structure HeadRead where
  name : List UInt8
  raw : List UInt8
  mark : UInt8
  next : Place

def head (start : Place) : Except Complaint HeadRead :=
  match start.name source with
  | .error complaint => .error complaint
  | .ok (name, next) =>
    let valueStart := next.skip source isBlank
    match valueStart.passValue source with
    | .error complaint => .error complaint
    | .ok valueEnd =>
      match valueEnd.peek? source with
      | none => .error ⟨start.line, .unfinished⟩
      | some mark =>
        let raw := slice source valueStart.position (min valueEnd.position source.length)
        .ok ⟨name, raw, mark, valueEnd.bump source⟩

variable {source : List UInt8} {place next : Place} {byte : UInt8} {passed rest : List UInt8}

/-- From one place to the next, exactly these bytes are passed. -/
structure Passes (source : List UInt8) (place : Place) (passed : List UInt8) (next : Place) :
    Prop where
  rest : source.drop place.position = passed ++ source.drop next.position
  position : next.position = place.position + passed.length
  line : next.line = place.line + newlines passed

theorem Passes.nil (source : List UInt8) (place : Place) : place.Passes source [] place :=
  ⟨rfl, rfl, rfl⟩

theorem Passes.append {middle : Place} {more : List UInt8}
    (first : place.Passes source passed middle) (second : middle.Passes source more next) :
    place.Passes source (passed ++ more) next where
  rest := by rw [first.rest, second.rest, List.append_assoc]
  position := by rw [second.position, first.position, List.length_append, Nat.add_assoc]
  line := by rw [second.line, first.line, newlines_append, Nat.add_assoc]

/-- The same place, for a scanner that only knows what is left. -/
def cursor (source : List UInt8) (place : Place) : Cursor :=
  ⟨source.drop place.position, place.line⟩

theorem peek?_eq (source : List UInt8) (place : Place) :
    place.peek? source = (place.cursor source).rest.head? := List.head?_drop.symm

theorem Passes.cursor (passes : place.Passes source passed next)
    (whole : source.drop place.position = passed ++ rest) :
    next.cursor source = ⟨rest, place.line + newlines passed⟩ := by
  rw [Place.cursor, passes.line, List.append_cancel_left (passes.rest.symm.trans whole)]

theorem bump_passes (here : place.peek? source = some byte) :
    place.Passes source [byte] (place.bump source) where
  rest := by
    obtain ⟨within, same⟩ := List.getElem?_eq_some_iff.mp here
    rw [List.drop_eq_getElem_cons within, same]
    rfl
  position := rfl
  line := by
    rw [bump, here, newlines, List.count_singleton]
    by_cases ends : byte = newline
    · rw [ends]
      rfl
    · rw [if_neg (fun same => ends (Option.some.inj same)), if_neg (by simpa using ends)]
      rfl

theorem skip_passes (source : List UInt8) (inClass : UInt8 → Bool) (place : Place) :
    place.Passes source ((source.drop place.position).takeWhile inClass)
      (place.skip source inClass) := by
  fun_induction skip source inClass place with
  | case1 place ended =>
    rw [peek?_eq, List.head?_eq_none_iff] at ended
    rw [show source.drop place.position = [] from ended]
    exact .nil source place
  | case2 place byte here within ih =>
    have one := bump_passes here
    rw [one.rest, List.singleton_append, List.takeWhile_cons_of_pos within]
    exact one.append ih
  | case3 place byte here outside =>
    rw [(bump_passes here).rest, List.singleton_append, List.takeWhile_cons_of_neg outside]
    exact .nil source place

theorem skip_cursor (source : List UInt8) (inClass : UInt8 → Bool) (place : Place) :
    (place.skip source inClass).cursor source = (place.cursor source).skip inClass :=
  (skip_passes source inClass place).cursor List.takeWhile_append_dropWhile.symm

/-- Behind its opening quote, a quoted part is closed somewhere in the text. -/
def Closes (text : List UInt8) : Prop := ∃ part rest, Quotation part ∧ text = part ++ rest

private theorem closes_cons (notQuote : byte ≠ quote) (notBackslash : byte ≠ backslash) :
    Closes (byte :: rest) ↔ Closes rest := by
  constructor
  · rintro ⟨part, more, _ | ⟨-, -, later⟩ | later, whole⟩
    · exact absurd (List.cons.inj whole).1 notQuote
    · exact ⟨_, more, later, (List.cons.inj whole).2⟩
    · exact absurd (List.cons.inj whole).1 notBackslash
  · rintro ⟨part, more, later, rfl⟩
    exact ⟨byte :: part, more, .byte notQuote notBackslash later, rfl⟩

private theorem closes_backslash :
    Closes (backslash :: rest) ↔ ∃ guarded more, rest = guarded :: more ∧ Closes more := by
  constructor
  · rintro ⟨part, more, _ | ⟨-, notBackslash, -⟩ | later, whole⟩
    · cases (List.cons.inj whole).1
    · exact absurd (List.cons.inj whole).1.symm notBackslash
    · exact ⟨_, _, (List.cons.inj whole).2, _, more, later, rfl⟩
  · rintro ⟨guarded, _, rfl, part, more, later, rfl⟩
    exact ⟨backslash :: guarded :: part, more, .guarded later, rfl⟩

/-- A quoted part is passed if it is closed; otherwise the source is passed to its end. -/
theorem passQuoted_cases (source : List UInt8) (place : Place) :
    (∃ part, Quotation part ∧ place.Passes source part (place.passQuoted source)) ∨
      source.length ≤ (place.passQuoted source).position ∧
        ¬ Closes (source.drop place.position) := by
  fun_induction passQuoted source place with
  | case1 place ended =>
    have beyond := List.getElem?_eq_none_iff.mp ended
    refine .inr ⟨beyond, ?_⟩
    rintro ⟨part, rest, quotation, whole⟩
    rw [List.drop_eq_nil_of_le beyond] at whole
    exact quotation.ne_nil (List.append_eq_nil_iff.mp whole.symm).1
  | case2 place here ih =>
    have one := bump_passes here
    rw [one.rest, List.singleton_append, closes_backslash]
    -- with nothing behind the backslash the place is one past the end, and nothing can close
    cases there : (place.bump source).peek? source with
    | none =>
      have beyond := List.getElem?_eq_none_iff.mp there
      have further := passQuoted_le source ((place.bump source).bump source)
      rw [List.drop_eq_nil_of_le beyond]
      simp only [bump_position] at beyond further
      exact .inr ⟨by omega, nofun⟩
    | some guarded =>
      have two := bump_passes there
      rcases ih with ⟨part, quotation, passes⟩ | ⟨beyond, endless⟩
      · exact .inl ⟨_, .guarded quotation, one.append (two.append passes)⟩
      · refine .inr ⟨beyond, ?_⟩
        rw [two.rest, List.singleton_append]
        rintro ⟨_, _, whole, closes⟩
        obtain ⟨-, rfl⟩ := List.cons.inj whole
        exact endless closes
  | case3 place here => exact .inl ⟨[quote], .close, bump_passes here⟩
  | case4 place byte here notBackslash notQuote ih =>
    have one := bump_passes here
    rcases ih with ⟨part, quotation, passes⟩ | ⟨beyond, endless⟩
    · exact .inl ⟨byte :: part, .byte notQuote notBackslash quotation, one.append passes⟩
    · rw [one.rest, List.singleton_append, closes_cons notQuote notBackslash]
      exact .inr ⟨beyond, endless⟩

/-- No more than one byte is counted that is not there. -/
theorem passQuoted_within (within : place.position ≤ source.length) :
    (place.passQuoted source).position ≤ source.length + 1 := by
  fun_induction passQuoted source place with
  | case1 place ended => exact Nat.le_succ_of_le within
  | case2 place here ih =>
    by_cases inside : place.position + 2 ≤ source.length
    · exact ih inside
    · have last := position_lt here
      have ended : ((place.bump source).bump source).peek? source = none := by
        refine List.getElem?_eq_none_iff.mpr ?_
        simp only [bump_position]
        omega
      rw [passQuoted.eq_def, ended]
      simp only [bump_position]
      omega
  | case3 place here => exact Nat.succ_le_succ within
  | case4 place byte here _ _ ih => exact ih (position_lt here)

theorem splitValueFrom_cons {quoting : Quoting}
    (goesOn : ¬ (quoting = .outside ∧ isDelimiter byte = true)) (rest : List UInt8) :
    splitValueFrom quoting (byte :: rest) =
      (byte :: (splitValueFrom (quoting.step byte) rest).1,
        (splitValueFrom (quoting.step byte) rest).2) := by
  rw [splitValueFrom, if_neg goesOn]

private theorem splitValue_quoted {part : List UInt8} (quotation : Quotation part)
    (text : List UInt8) :
    splitValueFrom .inside (part ++ text) = (part ++ (splitValue text).1, (splitValue text).2) := by
  induction quotation with
  | close => rfl
  | byte notQuote notBackslash _ ih =>
    rw [List.cons_append, splitValueFrom_cons (by simp), Quoting.step, if_neg notQuote,
      if_neg notBackslash, ih]
    rfl
  | guarded _ ih =>
    have inside : Quoting.inside.step backslash = .escaped := rfl
    rw [List.cons_append, List.cons_append, splitValueFrom_cons (by simp), inside,
      splitValueFrom_cons (by simp), Quoting.step, ih]
    rfl

/-- No mark is found behind a quoted part that is never closed. -/
theorem splitValue_endless {text : List UInt8} (endless : ¬ Closes text) :
    (splitValueFrom .inside text).2 = [] := by
  cases splits : splitValueFrom .inside text with
  | mk raw after =>
    cases after with
    | nil => rfl
    | cons mark rest =>
      obtain ⟨⟨part, more, rfl, quotation, -⟩, -⟩ := Quoting.completes_of_split splits
      have whole := splitValueFrom_append .inside text
      rw [splits, List.append_assoc] at whole
      exact absurd ⟨part, _, quotation, whole.symm⟩ endless

/-- How the loops over a raw value end: at a closing brace, at another mark, or at the end of the
source or past it. -/
inductive Ends (source : List UInt8) (place : Place) : Except Complaint Place → Prop
  | brace {raw rest : List UInt8}
    (splits : splitValue (source.drop place.position) = (raw, closeBrace :: rest)) :
    Ends source place (.error ⟨place.line + newlines raw, .missingSemicolon⟩)
  | mark {raw rest : List UInt8} {mark : UInt8} {valueEnd : Place}
    (splits : splitValue (source.drop place.position) = (raw, mark :: rest))
    (continues : mark ≠ closeBrace) (passes : place.Passes source raw valueEnd)
    (here : valueEnd.peek? source = some mark) : Ends source place (.ok valueEnd)
  | endless {valueEnd : Place} (splits : (splitValue (source.drop place.position)).2 = [])
    (beyond : source.length ≤ valueEnd.position) : Ends source place (.ok valueEnd)

/-- Bytes that are passed in front of a raw value are part of it. -/
theorem Ends.pass {result : Except Complaint Place} (ends : next.Ends source result)
    (passes : place.Passes source passed next)
    (splits : ∀ text, splitValue (passed ++ text) =
      (passed ++ (splitValue text).1, (splitValue text).2)) : place.Ends source result := by
  have whole := splits (source.drop next.position)
  rw [← passes.rest] at whole
  cases ends with
  | @brace raw rest later =>
    rw [later] at whole
    have lines : place.line + newlines (passed ++ raw) = next.line + newlines raw := by
      rw [passes.line, newlines_append, Nat.add_assoc]
    rw [← lines]
    exact .brace whole
  | mark later continues more here =>
    rw [later] at whole
    exact .mark whole continues (passes.append more) here
  | endless later beyond =>
    refine .endless ?_ beyond
    rw [whole, later]

private theorem splitValue_opening {part : List UInt8} (quotation : Quotation part)
    (text : List UInt8) :
    splitValue ([quote] ++ part ++ text) =
      ([quote] ++ part ++ (splitValue text).1, (splitValue text).2) := by
  have inside : Quoting.outside.step quote = .inside := rfl
  rw [List.append_assoc, splitValue, List.singleton_append, splitValueFrom_cons (by decide), inside,
    splitValue_quoted quotation]
  rfl

private theorem splitValue_cons (notQuote : byte ≠ quote) (passes : isDelimiter byte = false)
    (text : List UInt8) :
    splitValue ([byte] ++ text) = ([byte] ++ (splitValue text).1, (splitValue text).2) := by
  rw [splitValue, List.singleton_append, splitValueFrom_cons (by simp [passes]), Quoting.step,
    if_neg notQuote]
  rfl

private theorem passValue_ends (source : List UInt8) (place : Place) :
    place.Ends source (place.passValue source) := by
  fun_induction passValue source place with
  | case1 place ended =>
    have beyond := List.getElem?_eq_none_iff.mp ended
    refine .endless ?_ beyond
    rw [List.drop_eq_nil_of_le beyond]
    rfl
  | case2 place byte here marked =>
    have one := bump_passes here
    have delimits : isDelimiter byte = true := by rcases marked with rfl | rfl <;> rfl
    have splits : splitValue (source.drop place.position) =
        ([], byte :: source.drop (place.bump source).position) := by
      rw [one.rest]
      exact splitValue_eq_iff.mpr ⟨rfl, .nil, delimits⟩
    refine .mark splits ?_ (.nil source place) here
    rcases marked with rfl | rfl <;> decide
  | case3 place here =>
    have one := bump_passes here
    have splits : splitValue (source.drop place.position) =
        ([], closeBrace :: source.drop (place.bump source).position) := by
      rw [one.rest]
      exact splitValue_eq_iff.mpr ⟨rfl, .nil, rfl⟩
    exact .brace splits
  | case4 place here _ _ ih =>
    have one := bump_passes here
    rcases passQuoted_cases source (place.bump source) with
      ⟨part, quotation, passes⟩ | ⟨beyond, endless⟩
    · exact ih.pass (one.append passes) (splitValue_opening quotation)
    -- an endless quoted part takes all the source, so the outer loop stops where it stands
    · have ended : ((place.bump source).passQuoted source).peek? source = none :=
        List.getElem?_eq_none_iff.mpr beyond
      rw [passValue.eq_def, ended]
      refine .endless ?_ beyond
      rw [one.rest]
      exact splitValue_endless endless
  | case5 place byte here unmarked notBrace notQuote ih =>
    have passes : isDelimiter byte = false := by
      simp only [isDelimiter, Bool.or_eq_false_iff, beq_eq_false_iff_ne]
      exact ⟨⟨fun same => unmarked (.inl same), fun same => unmarked (.inr same)⟩, notBrace⟩
    exact ih.pass (bump_passes here) (splitValue_cons notQuote passes)

theorem passValue_le {valueEnd : Place} (passed : place.passValue source = .ok valueEnd) :
    place.position ≤ valueEnd.position := by
  fun_induction passValue source place with
  | case1 | case2 =>
    obtain rfl := Except.ok.inj passed
    exact Nat.le_refl _
  | case3 => cases passed
  | case4 place here _ _ ih =>
    have further := passQuoted_le source (place.bump source)
    have last := ih passed
    rw [bump_position] at further
    omega
  | case5 place byte here _ _ _ ih => exact Nat.le_of_succ_le (ih passed)

/-- The loops over a raw value stop at the end of the source, or one byte behind it. -/
theorem passValue_within {valueEnd : Place} (within : place.position ≤ source.length)
    (passed : place.passValue source = .ok valueEnd) :
    valueEnd.position ≤ source.length + 1 := by
  fun_induction passValue source place with
  | case1 | case2 =>
    obtain rfl := Except.ok.inj passed
    exact Nat.le_succ_of_le within
  | case3 => cases passed
  | case4 place here _ _ ih =>
    by_cases inside : ((place.bump source).passQuoted source).position ≤ source.length
    · exact ih inside passed
    · have ended : ((place.bump source).passQuoted source).peek? source = none :=
        List.getElem?_eq_none_iff.mpr (by omega)
      rw [passValue.eq_def, ended] at passed
      obtain rfl := Except.ok.inj passed
      exact passQuoted_within (position_lt here)
  | case5 place byte here _ _ _ ih => exact ih (position_lt here) passed

theorem slice_passes (passes : place.Passes source passed next) :
    slice source place.position next.position = passed := by
  rw [slice, passes.position, Nat.add_sub_cancel_left, passes.rest, List.take_left]

theorem skip_eq_self {inClass : UInt8 → Bool}
    (stops : ∀ byte, place.peek? source = some byte → inClass byte = false) :
    place.skip source inClass = place := by
  rw [skip.eq_def]
  split
  · rfl
  next byte here => rw [if_neg (Bool.eq_false_iff.mp (stops byte here))]

theorem skip_stops {inClass : UInt8 → Bool}
    (here : (place.skip source inClass).peek? source = some byte) : inClass byte = false := by
  rw [peek?_eq, skip_cursor] at here
  exact dropWhile_stops here

/-- The name that is read, and where its value begins, are what the cursor reads. -/
theorem name_cursor (source : List UInt8) (start : Place) :
    (start.name source).map (fun found => (found.1, found.2.cursor source)) =
      (start.cursor source).name := by
  have word := slice_passes (skip_passes source isWordByte start)
  rw [name, Cursor.name]
  simp only [peek?_eq, skip_cursor, word, Cursor.skipBlanks, List.head?_eq_none_iff]
  split_ifs with bare ended alone
  · rfl
  · rfl
  · exact (if_pos alone).symm
  · simp only [Except.map, skip_cursor]
    exact (if_neg alone).symm

/-- Behind a name stands what comes after its gap; a lone word is not passed. -/
theorem name_passes {start : Place} {name : List UInt8}
    (named : start.name source = .ok (name, next)) :
    ∃ gap, start.Passes source (name ++ gap) next ∧
      (next = start ∨ ∀ byte, next.peek? source = some byte → isBlank byte = false) := by
  rw [Place.name] at named
  dsimp only at named
  split_ifs at named
  · obtain ⟨rfl, rfl⟩ := Prod.mk.inj (Except.ok.inj named)
    exact ⟨[], .nil source start, .inl rfl⟩
  · obtain ⟨rfl, rfl⟩ := Prod.mk.inj (Except.ok.inj named)
    exact ⟨[], .nil source start, .inl rfl⟩
  · obtain ⟨rfl, rfl⟩ := Prod.mk.inj (Except.ok.inj named)
    have word := skip_passes source isWordByte start
    rw [slice_passes word]
    exact ⟨_, word.append (skip_passes source isBlank _), .inr fun _ => skip_stops⟩

/-- A head that was read: a raw value and its mark stand at its end, and all of it is passed. -/
theorem head_passes {start : Place} {read : HeadRead} (found : start.head source = .ok read) :
    ∃ text, start.Passes source (text ++ [read.mark]) read.next ∧ RawValue read.raw ∧
      isDelimiter read.mark = true ∧ read.mark ≠ closeBrace := by
  unfold head at found
  split at found
  · cases found
  next name next named =>
    obtain ⟨gap, passedName, -⟩ := name_passes named
    have passedGap := skip_passes source isBlank next
    have ends := passValue_ends source (next.skip source isBlank)
    dsimp only at found
    generalize (next.skip source isBlank).passValue source = result at ends found
    cases ends with
    | brace => cases found
    | endless splits beyond =>
      dsimp only at found
      rw [peek?, List.getElem?_eq_none_iff.mpr beyond] at found
      cases found
    | @mark raw rest mark valueEnd splits continues passes here =>
      dsimp only at found
      rw [here, Nat.min_eq_left (Nat.le_of_lt (position_lt here)), slice_passes passes] at found
      obtain rfl := Except.ok.inj found
      obtain ⟨-, value, delimits⟩ := splitValue_eq_iff.mp splits
      have whole := (passedName.append (passedGap.append passes)).append (bump_passes here)
      exact ⟨_, whole, value, delimits, continues⟩

/-- The head that is read is the one that the cursor reads, and so is the complaint. -/
theorem head_cursor {start : Place}
    (visible : ∀ byte, start.peek? source = some byte → isBlank byte = false) :
    (start.head source).map
        (fun read => (headEvent read.mark read.name read.raw, read.next.cursor source)) =
      (start.cursor source).statement := by
  have same := name_cursor source start
  unfold head
  cases named : start.name source with
  | error complaint =>
    rw [named] at same
    rw [Cursor.statement, ← same]
    rfl
  | ok found =>
    obtain ⟨name, next⟩ := found
    rw [named] at same
    have same : (start.cursor source).name = .ok (name, next.cursor source) := same.symm
    obtain ⟨-, -, stops⟩ := name_passes named
    have stops : ∀ byte, next.peek? source = some byte → isBlank byte = false := by
      rcases stops with rfl | stops
      · exact visible
      · exact stops
    have ends := passValue_ends source next
    -- blanks are skipped once more in front of the value; the cursor has none to skip there
    dsimp only
    rw [skip_eq_self stops]
    generalize next.passValue source = result at ends ⊢
    cases ends with
    | brace splits =>
      have splits : splitValue (next.cursor source).rest = _ := splits
      rw [Cursor.statement, same]
      dsimp only
      rw [splits]
      rfl
    | endless splits beyond =>
      have splits : (splitValue (next.cursor source).rest).2 = [] := splits
      dsimp only
      rw [peek?, List.getElem?_eq_none_iff.mpr beyond, Cursor.statement, same]
      dsimp only
      rw [splits]
      rfl
    | @mark raw rest mark valueEnd splits continues passes here =>
      obtain ⟨whole, -, delimits⟩ := splitValue_eq_iff.mp splits
      have valued : next.cursor source = ⟨raw ++ mark :: rest, next.line⟩ := by
        rw [cursor, whole]
      have behind : (valueEnd.bump source).cursor source = ⟨rest, next.line + newlines raw⟩ := by
        have marked := (passes.append (bump_passes here)).cursor (by rw [whole, List.append_cons])
        rwa [newlines_append, newlines_mark delimits] at marked
      rw [valued] at same
      rw [whole] at splits
      dsimp only
      rw [here, Cursor.statement_of_name same splits continues,
        Nat.min_eq_left (Nat.le_of_lt (position_lt here)), slice_passes passes]
      simp only [Except.map, behind]
      rfl

end Place

end ServiceConfig.Grammar
