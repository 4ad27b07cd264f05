import ServiceConfig.Proofs.Grammar.Parts
import ServiceConfig.Proofs.Grammar.Place

/-! # Reading a statement makes progress

A statement is read by its head and, if that opens a block, by reading the statements in it and the
end of the block. Every statement ends behind the place where it begins, which is why this recursion
ends. It reads what the scanner of scripts reads, which keeps the open blocks on a list instead. A
place is on the line that its position tells, and so is every place that is come to from it.
-/

namespace ServiceConfig.Grammar

open Ascii

namespace Place

variable {source : List UInt8} {place start next : Place} {byte : UInt8} {read : HeadRead}

theorem Passes.length_le {passed : List UInt8} (passes : place.Passes source passed next) :
    passed.length ≤ source.length - place.position := by
  have lengths := congrArg List.length passes.rest
  rw [List.length_drop, List.length_append] at lengths
  omega

private theorem head_lt (found : start.head source = .ok read) :
    start.position < read.next.position ∧ start.position < source.length := by
  obtain ⟨text, passes, -⟩ := head_passes found
  have forward := passes.position
  have short := passes.length_le
  rw [List.length_append, List.length_singleton] at forward short
  omega

private theorem skip_le (source : List UInt8) (inClass : UInt8 → Bool) (place : Place) :
    place.position ≤ (place.skip source inClass).position := by
  rw [(skip_passes source inClass place).position]
  exact Nat.le_add_right _ _

/-- After the brace that closes a block only blanks may stand before its semicolon. -/
def blockEnd (source : List UInt8) (afterBrace : Place) : Except Complaint Place :=
  let next := afterBrace.skip source isBlank
  match next.peek? source with
  | none => .error ⟨next.line, .missingSemicolon⟩
  | some byte =>
    if byte = semicolon then .ok (next.bump source) else .error ⟨next.line, .trailingGarbage⟩

private theorem blockEnd_lt (ended : place.blockEnd source = .ok next) :
    place.position < next.position := by
  unfold blockEnd at ended
  dsimp only at ended
  split at ended
  · cases ended
  · split at ended
    · obtain rfl := Except.ok.inj ended
      exact Nat.lt_succ_of_le (skip_le source isBlank place)
    · cases ended

mutual

/-- The place behind the statement at a byte that is neither blank nor a closing brace. -/
def statement (source : List UInt8) (start : Place) :
    Except Complaint { next : Place // start.position < next.position } :=
  match found : start.head source with
  | .error complaint => .error complaint
  | .ok read =>
    have further := (head_lt found).1
    if read.mark = semicolon then .ok ⟨read.next, further⟩
    else
      match list source read.next (some start.line) with
      | .error complaint => .error complaint
      | .ok ⟨afterBrace, inside⟩ =>
        match ended : afterBrace.blockEnd source with
        | .error complaint => .error complaint
        | .ok next =>
          have behind := blockEnd_lt ended
          .ok ⟨next, by omega⟩
termination_by 2 * (source.length - start.position)
decreasing_by
  have within := head_lt found
  omega

/-- The place behind a list of statements: the end of the source or, if the list belongs to a block
that begins on this line, the place behind its closing brace. -/
def list (source : List UInt8) (place : Place) (opened? : Option Nat) :
    Except Complaint { next : Place // place.position ≤ next.position } :=
  let start := place.skip source isBlank
  have skipped := skip_le source isBlank place
  match _here : start.peek? source with
  | none =>
    match opened? with
    | none => .ok ⟨start, skipped⟩
    | some opened => .error ⟨opened, .unclosedBraces⟩
  | some byte =>
    if byte = closeBrace then
      match opened? with
      | none => .error ⟨start.line, .unexpectedBrace⟩
      | some _ => .ok ⟨start.bump source, Nat.le_succ_of_le skipped⟩
    else
      match statement source start with
      | .error complaint => .error complaint
      | .ok ⟨next, further⟩ =>
        match list source next opened? with
        | .error complaint => .error complaint
        | .ok ⟨last, later⟩ =>
          .ok ⟨last, Nat.le_trans (Nat.le_of_lt (Nat.lt_of_le_of_lt skipped further)) later⟩
termination_by 2 * (source.length - place.position) + 1
decreasing_by
  · omega
  · have within : (place.skip source isBlank).position < source.length := position_lt _here
    have further : (place.skip source isBlank).position < next.position := further
    omega

end

/-- What a statement comes to, by its head, the list in its block and the end of the block. -/
theorem statement_eq (source : List UInt8) (start : Place) :
    (start.statement source).map Subtype.val =
      match start.head source with
      | .error complaint => .error complaint
      | .ok read =>
        if read.mark = semicolon then .ok read.next
        else
          match (read.next.list source (some start.line)).map Subtype.val with
          | .error complaint => .error complaint
          | .ok afterBrace => afterBrace.blockEnd source := by
  rw [statement]
  split
  next failed =>
    rw [failed]
    rfl
  next read found =>
    simp only [found]
    split_ifs
    · rfl
    · cases read.next.list source (some start.line) with
      | error => rfl
      | ok afterBrace =>
        dsimp only
        split
        next failed => exact failed.symm
        next ended => exact ended.symm

/-- What a list comes to: its end, or its first statement and then the others. -/
theorem list_eq (source : List UInt8) (place : Place) (opened? : Option Nat) :
    (place.list source opened?).map Subtype.val =
      match (place.skip source isBlank).peek? source, opened? with
      | none, none => .ok (place.skip source isBlank)
      | none, some opened => .error ⟨opened, .unclosedBraces⟩
      | some byte, opened? =>
        if byte = closeBrace then
          match opened? with
          | none => .error ⟨(place.skip source isBlank).line, .unexpectedBrace⟩
          | some _ => .ok ((place.skip source isBlank).bump source)
        else
          match ((place.skip source isBlank).statement source).map Subtype.val with
          | .error complaint => .error complaint
          | .ok next => (next.list source opened?).map Subtype.val := by
  rw [list.eq_def]
  dsimp only
  split
  next ended =>
    rw [ended]
    cases opened? <;> rfl
  next byte here =>
    rw [here]
    dsimp only
    split_ifs
    · cases opened? <;> rfl
    · cases (place.skip source isBlank).statement source with
      | error => rfl
      | ok next =>
        obtain ⟨next, further⟩ := next
        dsimp only [Except.map]
        cases next.list source opened? <;> rfl

private theorem statement_lt (read : (start.statement source).map Subtype.val = .ok next) :
    start.position < next.position := by
  cases returned : start.statement source with
  | error complaint =>
    rw [returned] at read
    cases read
  | ok behind =>
    rw [returned] at read
    rw [← Except.ok.inj read]
    exact behind.property

theorem bump_cursor (here : place.peek? source = some byte) (ends : byte ≠ newline)
    {rest : List UInt8} (whole : (place.cursor source).rest = byte :: rest) :
    (place.bump source).cursor source = ⟨rest, place.line⟩ := by
  rw [(bump_passes here).cursor whole, newlines, List.count_singleton, if_neg (by simpa using ends),
    Nat.add_zero]

private theorem exists_rest (here : place.peek? source = some byte) :
    ∃ rest, (place.cursor source).rest = byte :: rest := by
  rw [peek?_eq] at here
  obtain ⟨rest, whole⟩ := List.head?_eq_some_iff.mp here
  exact ⟨rest, whole⟩

private theorem blockEnd_cursor (source : List UInt8) (afterBrace : Place) :
    (afterBrace.blockEnd source).map (·.cursor source) = (afterBrace.cursor source).blockEnd := by
  have skipped := skip_cursor source isBlank afterBrace
  rw [blockEnd, Cursor.blockEnd, Cursor.skipBlanks, ← skipped]
  cases here : (afterBrace.skip source isBlank).peek? source with
  | none =>
    rw [peek?_eq, List.head?_eq_none_iff] at here
    rw [here]
    rfl
  | some byte =>
    obtain ⟨rest, whole⟩ := exists_rest here
    rw [whole]
    dsimp only
    split_ifs with marked
    · rw [Except.map, bump_cursor here (by rw [marked]; decide) whole]
      rfl
    · rfl

private theorem blockEnd_passes (ended : place.blockEnd source = .ok next) :
    ∃ passed, place.Passes source passed next := by
  unfold blockEnd at ended
  dsimp only at ended
  split at ended
  · cases ended
  next byte here =>
    split at ended
    · obtain rfl := Except.ok.inj ended
      exact ⟨_, (skip_passes source isBlank place).append (bump_passes here)⟩
    · cases ended

end Place

namespace Script

/-- What is scanned behind the brace that closes a block. -/
def behindBrace (afterBrace : Cursor) (lines : List Nat) : Script :=
  match afterBrace.blockEnd with
  | .error complaint => ⟨[], some complaint⟩
  | .ok next => cons ⟨afterBrace.line, .closing⟩ (scan next lines)

private theorem scan_brace {cursor : Cursor} {rest : List UInt8}
    (starts : cursor.skipBlanks.rest = closeBrace :: rest) (opened : Nat) (lines : List Nat) :
    scan cursor (opened :: lines) = behindBrace ⟨rest, cursor.skipBlanks.line⟩ lines := by
  simp only [scan_eq cursor, starts, if_true]
  rfl

end Script

namespace Place

open Script

variable {source : List UInt8} {place start next : Place} {byte : UInt8} {read : HeadRead}

private theorem skipBlanks_cursor
    (visible : ∀ byte, start.peek? source = some byte → isBlank byte = false) :
    (start.cursor source).skipBlanks = start.cursor source := by
  rw [Cursor.skipBlanks, ← skip_cursor, skip_eq_self visible]

/-- Blanks in front of a place make no difference to the scanner. -/
theorem scan_skip (source : List UInt8) (place : Place) (lines : List Nat) :
    scan (place.cursor source) lines = scan ((place.skip source isBlank).cursor source) lines := by
  refine scan_congr ?_ lines
  rw [skipBlanks_cursor fun _ => skip_stops, skip_cursor, Cursor.skipBlanks]

/-- From a place on, the scanner says what there is up to the place that was come to, or it has this
complaint, whatever blocks are open. -/
def Agrees (source : List UInt8) (start : Place) : Except Complaint Place → Prop
  | .ok next => (∃ passed, start.Passes source passed next) ∧ ∃ front, front ≠ [] ∧ ∀ lines,
      scan (start.cursor source) lines = prepend front (scan (next.cursor source) lines)
  | .error complaint => ∀ lines, (scan (start.cursor source) lines).complaint? = some complaint

/-- The lines of the open blocks where a list is read: outside of blocks there are none. -/
def openedLines (opened? : Option Nat) (lines : List Nat) : List Nat :=
  match opened? with
  | none => []
  | some opened => opened :: lines

/-- What the scanner says behind a list: nothing, or what it says behind a closing brace. -/
def behindList (opened? : Option Nat) (last : Cursor) (lines : List Nat) : Script :=
  match opened? with
  | none => ⟨[], none⟩
  | some _ => behindBrace last lines

/-- The same for a list, which outside of blocks goes on to the end of the source. -/
def AgreesList (source : List UInt8) (place : Place) (opened? : Option Nat) :
    Except Complaint Place → Prop
  | .ok last => (∃ passed, place.Passes source passed last) ∧
      (opened? = none → source.length ≤ last.position) ∧ ∃ front, ∀ lines,
        scan (place.cursor source) (openedLines opened? lines) =
          prepend front (behindList opened? (last.cursor source) lines)
  | .error complaint => ∀ lines,
      (scan (place.cursor source) (openedLines opened? lines)).complaint? = some complaint

/-- Where a statement is due, the scanner reads its head and goes on behind it. -/
theorem scan_place (here : start.peek? source = some byte)
    (visible : isBlank byte = false) (opens : byte ≠ closeBrace) (lines : List Nat) :
    scan (start.cursor source) lines =
      match start.head source with
      | .error complaint => ⟨[], some complaint⟩
      | .ok read =>
        prepend [⟨start.line, headEvent read.mark read.name read.raw⟩]
          (scan (read.next.cursor source)
            (openLines ⟨start.line, headEvent read.mark read.name read.raw⟩ lines)) := by
  have seen : ∀ other, start.peek? source = some other → isBlank other = false := by
    intro other same
    rwa [← Option.some.inj (here.symm.trans same)]
  obtain ⟨rest, begins⟩ := exists_rest here
  have same := head_cursor seen
  rw [scan_eq, skipBlanks_cursor seen, begins]
  dsimp only
  rw [if_neg opens, ← same]
  cases start.head source with
  | error complaint => rfl
  | ok read => rfl

section

variable {complaint : Complaint} (here : start.peek? source = some byte)
  (visible : isBlank byte = false) (opens : byte ≠ closeBrace)

include here visible opens

private theorem scan_headless (failed : start.head source = .error complaint) (lines : List Nat) :
    scan (start.cursor source) lines = ⟨[], some complaint⟩ := by
  rw [scan_place here visible opens, failed]

private theorem scan_leaf (found : start.head source = .ok read) (ends : read.mark = semicolon)
    (lines : List Nat) :
    scan (start.cursor source) lines =
      prepend [⟨start.line, headEvent read.mark read.name read.raw⟩]
        (scan (read.next.cursor source) lines) := by
  rw [scan_place here visible opens, found]
  dsimp only
  rw [headEvent, if_pos ends, openLines_ofLeaf]

private theorem scan_opening (found : start.head source = .ok read) (begins : read.mark ≠ semicolon)
    (lines : List Nat) :
    scan (start.cursor source) lines =
      prepend [⟨start.line, headEvent read.mark read.name read.raw⟩]
        (scan (read.next.cursor source) (start.line :: lines)) := by
  rw [scan_place here visible opens, found]
  dsimp only
  rw [headEvent, if_neg begins]
  rfl

end

private theorem behindBrace_refused {complaint : Complaint}
    (failed : place.blockEnd source = .error complaint) (lines : List Nat) :
    behindBrace (place.cursor source) lines = ⟨[], some complaint⟩ := by
  rw [behindBrace, ← blockEnd_cursor, failed]
  rfl

private theorem behindBrace_ended (ended : place.blockEnd source = .ok next) (lines : List Nat) :
    behindBrace (place.cursor source) lines =
      prepend [⟨place.line, .closing⟩] (scan (next.cursor source) lines) := by
  rw [behindBrace, ← blockEnd_cursor, ended]
  rfl

-- a statement refers to the list in its block, and a list to its first statement
mutual

private theorem statement_agrees (start : Place) {byte : UInt8}
    (here : start.peek? source = some byte)
    (visible : isBlank byte = false) (opens : byte ≠ closeBrace) :
    start.Agrees source ((start.statement source).map Subtype.val) := by
  rw [statement_eq]
  cases found : start.head source with
  | error complaint =>
    intro lines
    rw [scan_headless here visible opens found]
  | ok read =>
    have within := head_lt found
    obtain ⟨text, passes, -⟩ := head_passes found
    dsimp only
    split_ifs with ends
    · exact ⟨⟨_, passes⟩, _, List.cons_ne_nil _ _, scan_leaf here visible opens found ends⟩
    · have scanned := scan_opening here visible opens found ends
      -- the list puts its line on top of whatever lines are open, so this holds below any of them
      have inside := list_agrees read.next (some start.line)
      generalize (read.next.list source (some start.line)).map Subtype.val = result at inside ⊢
      cases result with
      | error complaint =>
        intro lines
        rw [scanned]
        exact inside lines
      | ok afterBrace =>
        obtain ⟨⟨block, passesBlock⟩, -, front, scannedInside⟩ := inside
        have scannedInside : ∀ lines, scan (read.next.cursor source) (start.line :: lines) =
            prepend front (behindBrace (afterBrace.cursor source) lines) := scannedInside
        dsimp only
        cases ended : afterBrace.blockEnd source with
        | error complaint =>
          intro lines
          rw [scanned, scannedInside, behindBrace_refused ended]
          rfl
        | ok next =>
          obtain ⟨gap, passesEnd⟩ := blockEnd_passes ended
          refine ⟨⟨_, (passes.append passesBlock).append passesEnd⟩,
            ⟨start.line, headEvent read.mark read.name read.raw⟩ ::
              (front ++ [⟨afterBrace.line, .closing⟩]), List.cons_ne_nil _ _, fun lines => ?_⟩
          rw [scanned, scannedInside, behindBrace_ended ended, prepend_prepend, prepend_prepend]
          rfl
termination_by 2 * (source.length - start.position)
decreasing_by all_goals omega

private theorem list_agrees (place : Place) (opened? : Option Nat) :
    place.AgreesList source opened? ((place.list source opened?).map Subtype.val) := by
  have skipped := skip_passes source isBlank place
  have forward := skip_le source isBlank place
  have unmoved : ((place.skip source isBlank).cursor source).skipBlanks =
      (place.skip source isBlank).cursor source := skipBlanks_cursor fun _ => skip_stops
  rw [list_eq]
  cases here : (place.skip source isBlank).peek? source with
  | none =>
    have beyond := List.getElem?_eq_none_iff.mp here
    rw [peek?_eq, List.head?_eq_none_iff] at here
    cases opened? with
    | none =>
      refine ⟨⟨_, skipped⟩, fun _ => beyond, [], fun lines => ?_⟩
      rw [scan_skip, scan_eq, unmoved, here]
      rfl
    | some opened =>
      intro lines
      rw [scan_skip, scan_eq, unmoved, here]
      rfl
  | some byte =>
    have within := position_lt here
    dsimp only
    split_ifs with closes
    · subst closes
      obtain ⟨rest, begins⟩ := exists_rest here
      cases opened? with
      | none =>
        intro lines
        rw [scan_skip, scan_eq, unmoved, begins]
        rfl
      | some opened =>
        have behind := bump_cursor here (by decide) begins
        refine ⟨⟨_, skipped.append (bump_passes here)⟩, nofun, [], fun lines => ?_⟩
        rw [scan_skip, openedLines, scan_brace (by rw [unmoved, begins]), unmoved, behindList,
          behind]
        rfl
    · have first := statement_agrees (place.skip source isBlank) here (skip_stops here) closes
      cases read : ((place.skip source isBlank).statement source).map Subtype.val with
      | error complaint =>
        rw [read] at first
        intro lines
        rw [scan_skip]
        exact first (openedLines opened? lines)
      | ok next =>
        have further := statement_lt read
        have rest := list_agrees next opened?
        rw [read] at first
        obtain ⟨⟨text, passes⟩, front, -, scanned⟩ := first
        dsimp only
        generalize (next.list source opened?).map Subtype.val = result at rest ⊢
        cases result with
        | error complaint =>
          intro lines
          rw [scan_skip, scanned]
          exact rest lines
        | ok last =>
          obtain ⟨⟨more, passesMore⟩, ended, frontMore, scannedMore⟩ := rest
          refine ⟨⟨_, (skipped.append passes).append passesMore⟩, ended, front ++ frontMore,
            fun lines => ?_⟩
          rw [scan_skip, scanned, scannedMore, prepend_prepend]
termination_by 2 * (source.length - place.position) + 1
decreasing_by all_goals omega

end

/-- The place behind so many bytes of a source, on its line. -/
def behind (source : List UInt8) (position : Nat) : Place :=
  ⟨position, 1 + newlines (source.take position)⟩

theorem Passes.within {passed : List UInt8} (passes : place.Passes source passed next)
    (within : place.position ≤ source.length) : next.position ≤ source.length := by
  have short := passes.length_le
  have forward := passes.position
  omega

theorem Passes.line_eq {position : Nat} {passed : List UInt8}
    (passes : (behind source position).Passes source passed next) :
    next.line = 1 + newlines (source.take next.position) := by
  have passed_eq : (source.drop position).take passed.length = passed := by
    rw [show source.drop position = _ from passes.rest, List.take_left]
  rw [passes.line, passes.position, behind, List.take_add, passed_eq, newlines_append,
    Nat.add_assoc]

/-- A whole source is read to its end, or to the complaint that the scanner has. -/
theorem list_whole (source : List UInt8) :
    ((behind source 0).list source none).map Subtype.val =
      match (scan ⟨source, 1⟩ []).complaint? with
      | none => .ok (behind source source.length)
      | some complaint => .error complaint := by
  have agrees : AgreesList source _ none _ := list_agrees (behind source 0) none
  generalize ((behind source 0).list source none).map Subtype.val = result at agrees ⊢
  cases result with
  | error complaint =>
    have refused : (scan ⟨source, 1⟩ []).complaint? = some complaint := agrees []
    rw [refused]
  | ok last =>
    obtain ⟨⟨passed, passes⟩, ended, front, scanned⟩ := agrees
    have accepted : (scan ⟨source, 1⟩ []).complaint? = none :=
      congrArg Script.complaint? (scanned [])
    have position := Nat.le_antisymm (passes.within (Nat.zero_le _)) (ended rfl)
    rw [accepted, behind, ← position, ← passes.line_eq]

private theorem statement_headless {complaint : Complaint}
    (failed : start.head source = .error complaint) :
    start.statement source = .error complaint := by
  have result := statement_eq source start
  rw [failed] at result
  cases returned : start.statement source with
  | error other =>
    rw [returned] at result
    exact congrArg _ (Except.error.inj result)
  | ok next =>
    rw [returned] at result
    cases result

/-- A value that has no mark leaves the statement unfinished. -/
theorem head_unfinished {name : List UInt8} {valueEnd : Place}
    (named : start.name source = .ok (name, next))
    (passed : (next.skip source isBlank).passValue source = .ok valueEnd)
    (beyond : source.length ≤ valueEnd.position) :
    start.head source = .error ⟨start.line, .unfinished⟩ := by
  rw [head, named]
  dsimp only
  rw [passed]
  dsimp only
  rw [peek?, List.getElem?_eq_none_iff.mpr beyond]

/-- How the statement behind so many bytes of a source is read. -/
structure Advances (source : List UInt8) (position : Nat) : Prop where
  returned : ∀ next, (behind source position).statement source = .ok next →
    position < next.val.position ∧ next.val.position ≤ source.length ∧
      next.val.line = 1 + newlines (source.take next.val.position) ∧
      ∃ front, front ≠ [] ∧ ∀ lines,
        scan ((behind source position).cursor source) lines =
          prepend front (scan (next.val.cursor source) lines)
  refused : ∀ complaint, (behind source position).statement source = .error complaint →
    ∀ lines, (scan ((behind source position).cursor source) lines).complaint? = some complaint
  word : position ≤ ((behind source position).skip source isWordByte).position ∧
    ((behind source position).skip source isWordByte).position ≤ source.length
  value : ∀ name next valueEnd, (behind source position).name source = .ok (name, next) →
    (next.skip source isBlank).passValue source = .ok valueEnd →
      (next.skip source isBlank).position ≤ min valueEnd.position source.length ∧
      valueEnd.position ≤ source.length + 1 ∧
      (source.length ≤ valueEnd.position → (behind source position).statement source =
        .error ⟨1 + newlines (source.take position), .unfinished⟩)
  quotes : ∀ (place : Place) (read : HeadRead), place.head source = .ok read →
    Balanced read.raw ∧ (readParts read.raw).1 = expand read.raw ∧
      ∀ ending ∈ (readParts read.raw).2, ending = .closed

/-- A statement that is read ends behind its first byte and within the source, on the line that is
counted there; nothing is ever read past the end, and every quoted part of a value is closed. -/
theorem statement_advances {position : Nat} (here : source[position]? = some byte)
    (visible : isBlank byte = false) (opens : byte ≠ closeBrace) : Advances source position := by
  have inside : position < source.length := (List.getElem?_eq_some_iff.mp here).1
  have inside : (behind source position).position ≤ source.length := Nat.le_of_lt inside
  have agrees := statement_agrees (behind source position) here visible opens
  constructor
  case returned =>
    intro next returned
    rw [returned] at agrees
    obtain ⟨⟨passed, passes⟩, said⟩ := agrees
    exact ⟨next.property, passes.within inside, passes.line_eq, said⟩
  case refused =>
    intro complaint refused
    rw [refused] at agrees
    exact agrees
  case word =>
    exact ⟨skip_le source isWordByte (behind source position),
      (skip_passes source isWordByte _).within inside⟩
  case value =>
    intro name next valueEnd named passed
    obtain ⟨gap, passes, -⟩ := name_passes named
    have within := (passes.append (skip_passes source isBlank next)).within inside
    refine ⟨Nat.le_min.mpr ⟨passValue_le passed, within⟩, passValue_within within passed, ?_⟩
    exact fun beyond => statement_headless (head_unfinished named passed beyond)
  case quotes =>
    intro place read found
    obtain ⟨-, -, value, -⟩ := head_passes found
    have balanced := value.balanced
    exact ⟨balanced, readParts_eq read.raw, (balanced_iff_closed read.raw).mp balanced⟩

/-- A block with a lone word in it, behind a quoted line end. In the other source a backslash
protects the end, and the value is read one byte further. -/
theorem statement_advances_block :
    let source := [120, semicolon, newline, 97, space, quote, newline, quote, space, openBrace, 98,
      newline, semicolon, closeBrace, newline, semicolon]
    let cut := [97, space, quote, 120, backslash]
    (∃ next, (behind source 3).statement source = .ok next ∧ next.val.position = source.length ∧
      next.val.line = 1 + newlines source) ∧
    (behind cut 0).name cut = .ok ([97], ⟨2, 1⟩) ∧
      (⟨2, 1⟩ : Place).passValue cut = .ok ⟨cut.length + 1, 1⟩ ∧
      (behind cut 0).statement cut = .error ⟨1, .unfinished⟩ := by
  intro source cut
  have outer : (behind source 3).head source =
      .ok ⟨[97], [quote, newline, quote, space], openBrace, ⟨10, 3⟩⟩ := by
    subst source
    cbv
  have inner : (⟨10, 3⟩ : Place).head source =
      .ok ⟨[], [98, newline], semicolon, ⟨13, 4⟩⟩ := by
    subst source
    cbv
  have places : (⟨10, 3⟩ : Place).skip source isBlank = ⟨10, 3⟩ ∧
      (⟨13, 4⟩ : Place).skip source isBlank = ⟨13, 4⟩ ∧
      (⟨14, 4⟩ : Place).blockEnd source = .ok ⟨16, 5⟩ := by
    subst source
    cbv
  obtain ⟨word, brace, ended⟩ := places
  have lone : ((⟨10, 3⟩ : Place).statement source).map Subtype.val = .ok ⟨13, 4⟩ := by
    rw [statement_eq, inner]
    rfl
  have inside : ((⟨10, 3⟩ : Place).list source (some 2)).map Subtype.val = .ok ⟨14, 4⟩ := by
    have first : (⟨10, 3⟩ : Place).peek? source = some 98 := rfl
    have second : (⟨13, 4⟩ : Place).peek? source = some closeBrace := rfl
    have rest : ((⟨13, 4⟩ : Place).list source (some 2)).map Subtype.val = .ok ⟨14, 4⟩ := by
      rw [list_eq, brace, second]
      rfl
    rw [list_eq, word, first, lone]
    exact rest
  have read : ((behind source 3).statement source).map Subtype.val = .ok ⟨16, 5⟩ := by
    rw [statement_eq, outer]
    dsimp only
    rw [if_neg (by decide)]
    have opened : (behind source 3).line = 2 := rfl
    rw [opened, inside]
    exact ended
  have named : (behind cut 0).name cut = .ok ([97], ⟨2, 1⟩) := by
    subst cut
    cbv
  have skipped : (⟨2, 1⟩ : Place).skip cut isBlank = ⟨2, 1⟩ := by
    subst cut
    cbv
  have passed : (⟨2, 1⟩ : Place).passValue cut = .ok ⟨6, 1⟩ := by
    subst cut
    cbv
  refine ⟨?_, named, passed, ?_⟩
  · have advances : Advances source 3 := statement_advances rfl rfl (by decide)
    cases returned : (behind source 3).statement source with
    | error =>
      rw [returned] at read
      cases read
    | ok next =>
      rw [returned] at read
      have last := Except.ok.inj read
      obtain ⟨-, -, line, -⟩ := advances.returned next returned
      refine ⟨next, rfl, congrArg position last, ?_⟩
      rw [line, last]
      rfl
  · have advances : Advances cut 0 := statement_advances rfl rfl (by decide)
    obtain ⟨-, -, refused⟩ := advances.value [97] ⟨2, 1⟩ ⟨6, 1⟩ named (by rw [skipped, passed])
    exact refused (by decide)

end Place

end ServiceConfig.Grammar
