import Mathlib
import ServiceConfig.Proofs.Document.Resolution
import ServiceConfig.Proofs.Grammar.Origin

/-! # Where a text is at fault

What a text is blamed for is reported with the line of the place that is meant. For each fault the
rules of the notation tell which place of the script this is: what has been read so far, the blocks
that are open there, and what comes next. A place of the script is a place of the text, comments
and all, on the same line.
-/

namespace ServiceConfig

open Grammar Ascii

namespace Document

/-- Behind `done`, a script inside `depth` blocks has been read up to the end of a leaf or of the
head or the whole of a block. `opened` are the places where the blocks that are open begin,
innermost first. -/
inductive Reached (depth : Nat) : (done : List UInt8) → (opened : List (List UInt8)) → Prop
  | start : Reached depth [] []
  | leaf {done gap name raw head : List UInt8} {opened : List (List UInt8)}
    (reached : Reached depth done opened) (blanks : Blanks gap)
    (begins : Head semicolon name raw head) : Reached depth (done ++ gap ++ head) opened
  | opening {done gap name raw head : List UInt8} {opened : List (List UInt8)}
    (reached : Reached depth done opened) (blanks : Blanks gap)
    (begins : Head openBrace name raw head) (room : depth + opened.length < maxBlocks) :
    Reached depth (done ++ gap ++ head) ((done ++ gap) :: opened)
  | closing {done gap gapEnd begun : List UInt8} {opened : List (List UInt8)}
    (reached : Reached depth done (begun :: opened)) (blanks : Blanks gap)
    (blanksEnd : Blanks gapEnd) :
    Reached depth (done ++ gap ++ closeBrace :: (gapEnd ++ [semicolon])) opened

/-- Behind `place` of a script a statement, a closing brace or the end is due, and `rest` comes. -/
def Due (source : List UInt8) (depth : Nat) (opened : List (List UInt8)) (place rest : List UInt8) :
    Prop :=
  ∃ done gap, Reached depth done opened ∧ Blanks gap ∧ place = done ++ gap ∧
    source = place ++ rest ∧ ∀ byte, rest.head? = some byte → isBlank byte = false

/-- The place of a script inside `depth` blocks that is meant by a fault. -/
inductive Meant (source : List UInt8) (depth : Nat) : Fault → (place : List UInt8) → Prop
  /-- The last statement is a mere word: its first byte. -/
  | prematureEnd {opened : List (List UInt8)} {place word : List UInt8}
    (due : Due source depth opened place word) (opens : StartsWith OpensWord word)
    (isWord : ∀ byte ∈ word, isWordByte byte = true) : Meant source depth .prematureEnd place
  /-- A statement without the mark that ends its head: its first byte. -/
  | unfinished {opened : List (List UInt8)} {place rest : List UInt8}
    (due : Due source depth opened place rest) (opens : StartsWith (· ≠ closeBrace) rest)
    (endless : ∀ mark name raw head, isDelimiter mark = true → Head mark name raw head →
      ¬ head <+: rest) : Meant source depth .unfinished place
  /-- A block in too many others: the first byte of its name or value. -/
  | nestedTooDeeply {opened : List (List UInt8)} {place name raw head more : List UInt8}
    (due : Due source depth opened place (head ++ more)) (begins : Head openBrace name raw head)
    (deep : maxBlocks ≤ depth + opened.length) : Meant source depth .nestedTooDeeply place
  /-- The script ends inside blocks: the first byte of the innermost one. -/
  | unclosedBraces {outer : List (List UInt8)} {place behind : List UInt8}
    (due : Due source depth (place :: outer) behind []) : Meant source depth .unclosedBraces place
  /-- A closing brace outside all blocks: the brace. -/
  | unexpectedBrace {place more : List UInt8}
    (due : Due source depth [] place (closeBrace :: more)) :
    Meant source depth .unexpectedBrace place
  /-- A statement that runs into a closing brace: the brace. -/
  | cutShort {opened : List (List UInt8)} {place name raw text more : List UInt8}
    (due : Due source depth opened place (text ++ closeBrace :: more))
    (begins : Head closeBrace name raw (text ++ [closeBrace])) :
    Meant source depth .missingSemicolon (place ++ text)
  /-- The script ends behind the closing brace of a block: its end. -/
  | unended {outer : List (List UInt8)} {begun place gap : List UInt8}
    (due : Due source depth (begun :: outer) place (closeBrace :: gap)) (blanks : Blanks gap) :
    Meant source depth .missingSemicolon source
  /-- Something else than a semicolon behind the closing brace of a block: its first byte. -/
  | trailingGarbage {outer : List (List UInt8)} {begun place gap more : List UInt8} {byte : UInt8}
    (due : Due source depth (begun :: outer) place (closeBrace :: (gap ++ byte :: more)))
    (blanks : Blanks gap) (visible : isBlank byte = false) (garbage : byte ≠ semicolon) :
    Meant source depth .trailingGarbage (place ++ closeBrace :: gap)

/-- The place of a text inside `depth` blocks that is meant by a fault: where the string or comment
begins that never ends, or where the place of the script stands that is meant. -/
inductive MeantIn (text : List UInt8) (depth : Nat) : Fault → (before : List UInt8) → Prop
  | unterminated {before : List UInt8} (unended : Unended text before) :
    MeantIn text depth .unterminated before
  | script {source place before : List UInt8} {fault : Fault} (stripped : strip text = .ok source)
    (meant : Meant source depth fault place) (stands : Stands text place before) :
    MeantIn text depth fault before

theorem name_failed {start : Cursor} {complaint : Complaint}
    (failed : start.name = .error complaint) :
    complaint = ⟨start.line, .prematureEnd⟩ ∧ ¬ StartsWith OpensValue start.rest ∧
      ∀ byte ∈ start.rest, isWordByte byte = true := by
  rw [Cursor.name] at failed
  split_ifs at failed with bare
  dsimp only at failed
  split_ifs at failed with atEnd
  cases failed
  refine ⟨rfl, ?_, List.dropWhile_eq_nil_iff.mp atEnd⟩
  rintro ⟨first, rest, starts, rfl | rfl⟩
  · exact bare (.inl (by rw [starts]; rfl))
  · exact bare (.inr (by rw [starts]; rfl))

/-- A statement without a mark has no head. -/
theorem Head.not_isPrefix {start valueStart : Cursor} {name bytes raw value head : List UInt8}
    {mark : UInt8} (named : start.name = .ok (bytes, valueStart))
    (endless : splitValue valueStart.rest = (value, [])) (delimits : isDelimiter mark = true)
    (begins : Head mark name raw head) : ¬ head <+: start.rest := by
  rintro ⟨more, whole⟩
  obtain ⟨line, here, splits, -⟩ := begins.name_eq delimits more start.line
  rw [whole, named] at here
  obtain ⟨rfl, rfl⟩ := Prod.mk.inj (Except.ok.inj here)
  rw [endless] at splits
  cases splits

/-- A statement that cannot be read is a mere word, or has no mark at its end, or runs into a
closing brace. -/
theorem statement_failed {start : Cursor} {complaint : Complaint}
    (failed : start.statement = .error complaint)
    (visible : ∀ byte, start.rest.head? = some byte → isBlank byte = false ∧ byte ≠ closeBrace) :
    (complaint = ⟨start.line, .prematureEnd⟩ ∧ ¬ StartsWith OpensValue start.rest ∧
      ∀ byte ∈ start.rest, isWordByte byte = true) ∨
    (complaint = ⟨start.line, .unfinished⟩ ∧
      ∀ mark name raw head, isDelimiter mark = true → Head mark name raw head →
        ¬ head <+: start.rest) ∨
    ∃ name raw text more, Head closeBrace name raw (text ++ [closeBrace]) ∧
      start.rest = text ++ closeBrace :: more ∧
      complaint = ⟨start.line + newlines text, .missingSemicolon⟩ := by
  rw [Cursor.statement] at failed
  cases named : start.name with
  | error own =>
    rw [named] at failed
    cases failed
    exact .inl (name_failed named)
  | ok parts =>
    obtain ⟨name, valueStart⟩ := parts
    rw [named] at failed
    dsimp only at failed
    cases splits : splitValue valueStart.rest with
    | mk raw after =>
      rw [splits] at failed
      cases after with
      | nil =>
        cases failed
        exact .inr (.inl ⟨rfl, fun _ _ _ _ delimits begins =>
          Head.not_isPrefix named splits delimits begins⟩)
      | cons mark more =>
        dsimp only at failed
        split_ifs at failed with closes
        cases failed
        subst closes
        obtain ⟨whole, value, delimits⟩ := splitValue_eq_iff.mp splits
        obtain ⟨text, begins, starts⟩ :=
          Cursor.exists_head_of_name named whole value delimits visible
        obtain ⟨line, here, -, lines_eq⟩ := begins.name_eq delimits more start.line
        rw [List.append_assoc, List.singleton_append, ← starts, named] at here
        obtain ⟨-, rfl⟩ := Prod.mk.inj (Except.ok.inj here)
        refine .inr (.inr ⟨name, raw, text, more, begins, starts, ?_⟩)
        rw [lines_eq, newlines_append]
        rfl

private theorem blockEnd_failed {afterBrace : Cursor} {complaint : Complaint}
    (failed : afterBrace.blockEnd = .error complaint) :
    ∃ gap rest, Blanks gap ∧ afterBrace.rest = gap ++ rest ∧
      (rest = [] ∧ complaint = ⟨afterBrace.line + newlines gap, .missingSemicolon⟩ ∨
        ∃ byte more, rest = byte :: more ∧ isBlank byte = false ∧ byte ≠ semicolon ∧
          complaint = ⟨afterBrace.line + newlines gap, .trailingGarbage⟩) := by
  obtain ⟨gap, blanks, whole, line, visible⟩ := afterBrace.exists_blanks
  refine ⟨gap, _, blanks, whole, ?_⟩
  rw [Cursor.blockEnd] at failed
  split at failed
  next atEnd =>
    cases failed
    exact .inl ⟨atEnd, by rw [line]⟩
  next byte more starts =>
    split_ifs at failed with ended
    cases failed
    exact .inr ⟨byte, more, starts, visible byte (by rw [starts]; rfl), ended, by rw [line]⟩

section

variable {splice : String → Nat → Except ConfigError (List Event)} {complaint? : Option Complaint}
  {depth : Nat} {statement : Statement} {rest : List Statement} {own : Complaint}

private theorem map_eq_error {ε α β : Type} {result : Except ε α} {convert : α → β} {error : ε} :
    result.map convert = .error error ↔ result = .error error := by
  cases result with
  | error => exact ⟨fun same => congrArg _ (Except.error.inj same),
      fun same => congrArg _ (Except.error.inj same)⟩
  | ok => exact ⟨nofun, nofun⟩

private theorem own_leaf {name value : String} (event : statement.event = .leaf name value)
    (failed : outcome splice complaint? depth (statement :: rest) = .error (.inl own)) :
    outcome splice complaint? depth rest = .error (.inl own) := by
  rw [outcome, event] at failed
  dsimp only at failed
  split_ifs at failed
  · split at failed
    · cases failed
    · exact map_eq_error.mp failed
  · exact map_eq_error.mp failed

private theorem own_opening {name : String} {value? : Option String}
    (event : statement.event = .opening name value?)
    (failed : outcome splice complaint? depth (statement :: rest) = .error (.inl own)) :
    maxBlocks ≤ depth ∧ own = ⟨statement.line, .nestedTooDeeply⟩ ∨
      depth < maxBlocks ∧ outcome splice complaint? (depth + 1) rest = .error (.inl own) := by
  rw [outcome, event] at failed
  dsimp only at failed
  split_ifs at failed with room
  · exact .inr ⟨room, map_eq_error.mp failed⟩
  · cases failed
    exact .inl ⟨not_lt.mp room, rfl⟩

private theorem own_closing (event : statement.event = .closing)
    (failed : outcome splice complaint? depth (statement :: rest) = .error (.inl own)) :
    outcome splice complaint? (depth - 1) rest = .error (.inl own) := by
  rw [outcome, event] at failed
  exact map_eq_error.mp failed

end

section

variable {source : List UInt8} {depth : Nat}

theorem Reached.isPrefix {done place : List UInt8} {opened : List (List UInt8)}
    (reached : Reached depth done opened) (member : place ∈ opened) : place <+: done := by
  induction reached with
  | start => cases member
  | leaf _ _ _ ih =>
    rw [List.append_assoc]
    exact (ih member).trans (List.prefix_append _ _)
  | opening _ _ _ _ ih =>
    rcases List.mem_cons.mp member with rfl | member
    · exact List.prefix_append _ _
    · rw [List.append_assoc]
      exact (ih member).trans (List.prefix_append _ _)
  | closing _ _ _ ih =>
    rw [List.append_assoc]
    exact (ih (List.mem_cons_of_mem _ member)).trans (List.prefix_append _ _)

/-- What has been read by the rules, the scanner has read. -/
theorem Reached.scan {done : List UInt8} {opened : List (List UInt8)}
    (reached : Reached depth done opened) (rest : List UInt8) :
    ∃ front, (front = [] → done = []) ∧ Script.scan ⟨done ++ rest, 1⟩ [] =
      Script.prepend front
        (Script.scan ⟨rest, 1 + newlines done⟩ (opened.map (1 + newlines ·))) := by
  induction reached generalizing rest with
  | start => exact ⟨[], fun _ => rfl, rfl⟩
  | @leaf done gap name raw head opened _ blanks begins ih =>
    obtain ⟨front, -, scanned⟩ := ih (gap ++ (head ++ rest))
    let read : Statement := ⟨1 + newlines done + newlines gap, headEvent semicolon name raw⟩
    refine ⟨front ++ [read], by simp, ?_⟩
    rw [List.append_assoc, List.append_assoc, scanned,
      Script.scan_head blanks begins rfl (by decide), Script.prepend_prepend]
    simp only [read, headEvent, if_true, Script.openLines_ofLeaf, newlines_append, Nat.add_assoc]
  | @opening done gap name raw head opened _ blanks begins _ ih =>
    obtain ⟨front, -, scanned⟩ := ih (gap ++ (head ++ rest))
    let read : Statement := ⟨1 + newlines done + newlines gap, headEvent openBrace name raw⟩
    refine ⟨front ++ [read], by simp, ?_⟩
    have behind (line : Nat) (lines : List Nat) :
        Script.openLines ⟨line, headEvent openBrace name raw⟩ lines = line :: lines := by
      rw [headEvent, if_neg (by decide)]
      rfl
    rw [List.append_assoc, List.append_assoc, scanned,
      Script.scan_head blanks begins rfl (by decide), Script.prepend_prepend, behind]
    simp only [read, newlines_append, Nat.add_assoc, List.map_cons]
  | @closing done gap gapEnd begun opened _ blanks blanksEnd ih =>
    obtain ⟨front, -, scanned⟩ := ih (gap ++ closeBrace :: (gapEnd ++ semicolon :: rest))
    refine ⟨front ++ [⟨1 + newlines done + newlines gap, .closing⟩], by simp, ?_⟩
    have shape : done ++ gap ++ closeBrace :: (gapEnd ++ [semicolon]) ++ rest =
        done ++ (gap ++ closeBrace :: (gapEnd ++ semicolon :: rest)) := by simp
    have passed := Cursor.skipBlanks_append blanks (closeBrace :: (gapEnd ++ semicolon :: rest))
      (1 + newlines done)
    rw [shape, scanned, Script.scan_congr passed, List.map_cons, Script.scan_braceEnd blanksEnd,
      Script.prepend_prepend]
    simp only [newlines_append, newlines_mark (rfl : isDelimiter closeBrace = true), Nat.add_assoc]
    rfl

theorem Meant.isPrefix {fault : Fault} {place : List UInt8}
    (meant : Meant source depth fault place) : place <+: source := by
  cases meant with
  | prematureEnd due | unfinished due | nestedTooDeeply due | unexpectedBrace due =>
    obtain ⟨_, _, -, -, -, rfl, -⟩ := due
    exact List.prefix_append _ _
  | unclosedBraces due =>
    obtain ⟨_, _, reached, -, rfl, rfl, -⟩ := due
    rw [List.append_assoc]
    exact (reached.isPrefix (List.mem_cons_self ..)).trans (List.prefix_append _ _)
  | cutShort due =>
    obtain ⟨_, _, -, -, -, rfl, -⟩ := due
    rw [← List.append_assoc]
    exact List.prefix_append _ _
  | unended => exact List.prefix_rfl
  | trailingGarbage due =>
    obtain ⟨_, _, -, -, -, rfl, -⟩ := due
    rw [← List.cons_append, ← List.append_assoc]
    exact List.prefix_append _ _

/-- Behind what has been read, something is due behind the blanks. -/
theorem exists_due {cursor : Cursor} {done : List UInt8} {opened : List (List UInt8)}
    (reached : Reached depth done opened) (whole : source = done ++ cursor.rest)
    (line : cursor.line = 1 + newlines done) :
    ∃ place, Due source depth opened place cursor.skipBlanks.rest ∧
      cursor.skipBlanks.line = 1 + newlines place := by
  obtain ⟨gap, blanks, parts, line_eq, visible⟩ := cursor.exists_blanks
  refine ⟨done ++ gap, ⟨done, gap, reached, blanks, rfl, ?_, visible⟩, ?_⟩
  · rw [whole, parts, List.append_assoc]
  · rw [line_eq, line, newlines_append, Nat.add_assoc]

section

variable {opened : List (List UInt8)} {place begun rest : List UInt8} {start next : Cursor}
  {own : Complaint} {line : Nat}

private theorem meant_of_statement (due : Due source depth opened place start.rest)
    (opens : StartsWith (· ≠ closeBrace) start.rest) (line_eq : start.line = 1 + newlines place)
    (failed : start.statement = .error own) :
    ∃ place, Meant source depth own.fault place ∧ own.line = 1 + newlines place := by
  obtain ⟨first, after, starts, notBrace⟩ := id opens
  have seen : isBlank first = false := by
    obtain ⟨_, _, -, -, -, -, visible⟩ := due
    exact visible first (by rw [starts]; rfl)
  have visible : ∀ byte, start.rest.head? = some byte →
      isBlank byte = false ∧ byte ≠ closeBrace := by
    rw [starts]
    rintro _ ⟨⟩
    exact ⟨seen, notBrace⟩
  rcases statement_failed failed visible with ⟨rfl, bare, isWord⟩ | ⟨rfl, endless⟩ |
    ⟨name, raw, text, more, begins, parts, rfl⟩
  · have opens : StartsWith OpensWord start.rest :=
      ⟨first, after, starts, seen, notBrace, fun value => bare ⟨first, after, starts, value⟩⟩
    exact ⟨place, .prematureEnd due opens isWord, line_eq⟩
  · exact ⟨place, .unfinished due opens endless, line_eq⟩
  · refine ⟨place ++ text, .cutShort (parts ▸ due) begins, ?_⟩
    rw [newlines_append, ← Nat.add_assoc, ← line_eq]

private theorem meant_of_blockEnd
    (due : Due source depth (begun :: opened) place (closeBrace :: rest))
    (line_eq : line = 1 + newlines place) (failed : Cursor.blockEnd ⟨rest, line⟩ = .error own) :
    ∃ place, Meant source depth own.fault place ∧ own.line = 1 + newlines place := by
  obtain ⟨gap, behind, blanks, parts, fault⟩ := blockEnd_failed failed
  have parts : rest = gap ++ behind := parts
  have behind_line : line + newlines gap = 1 + newlines (place ++ closeBrace :: gap) := by
    rw [newlines_append, newlines_mark rfl, ← Nat.add_assoc, ← line_eq]
  rcases fault with ⟨rfl, rfl⟩ | ⟨byte, more, rfl, visible, garbage, rfl⟩
  · rw [List.append_nil] at parts
    subst parts
    obtain ⟨_, _, -, -, -, whole, -⟩ := id due
    exact ⟨source, .unended due blanks, whole ▸ behind_line⟩
  · exact ⟨_, .trailingGarbage (parts ▸ due) blanks visible garbage, behind_line⟩

private theorem due_of_blockEnd
    (due : Due source depth (begun :: opened) place (closeBrace :: rest))
    (line_eq : line = 1 + newlines place) (ended : Cursor.blockEnd ⟨rest, line⟩ = .ok next) :
    ∃ place, Due source depth opened place next.skipBlanks.rest ∧
      next.skipBlanks.line = 1 + newlines place := by
  obtain ⟨done, gap, reached, blanks, rfl, whole, -⟩ := due
  obtain ⟨gapEnd, blanksEnd, parts⟩ := Cursor.blockEnd_parts ended
  have parts : rest = gapEnd ++ semicolon :: next.rest := parts
  have again := Cursor.blockEnd_append blanksEnd next.rest line
  rw [← parts] at again
  have next_line : next.line = line + newlines gapEnd :=
    congrArg Cursor.line (Except.ok.inj (ended.symm.trans again))
  refine exists_due (reached.closing blanks blanksEnd) (by rw [whole, parts]; simp) ?_
  rw [next_line, line_eq, newlines_append (done ++ gap), newlines_mark rfl, newlines_append gapEnd]
  exact Nat.add_assoc ..

private theorem due_of_leaf {name raw head : List UInt8}
    (due : Due source depth opened place (head ++ next.rest))
    (begins : Head semicolon name raw head)
    (line_eq : next.line = 1 + newlines (place ++ head)) :
    ∃ place, Due source depth opened place next.skipBlanks.rest ∧
      next.skipBlanks.line = 1 + newlines place := by
  obtain ⟨done, gap, reached, blanks, rfl, whole, -⟩ := due
  exact exists_due (reached.leaf blanks begins) (by rw [whole, List.append_assoc _ head]) line_eq

private theorem due_of_opening {name raw head : List UInt8}
    (due : Due source depth opened place (head ++ next.rest))
    (begins : Head openBrace name raw head) (room : depth + opened.length < maxBlocks)
    (line_eq : next.line = 1 + newlines (place ++ head)) :
    ∃ inner, Due source depth (place :: opened) inner next.skipBlanks.rest ∧
      next.skipBlanks.line = 1 + newlines inner := by
  obtain ⟨done, gap, reached, blanks, rfl, whole, -⟩ := due
  exact exists_due (reached.opening blanks begins room) (by rw [whole, List.append_assoc _ head])
    line_eq

/-- What a script is blamed for from a place on, it is blamed for on the line of the place meant. -/
theorem meant_of_scan {splice : String → Nat → Except ConfigError (List Event)} (cursor : Cursor)
    (lines : List Nat) (due : Due source depth opened place cursor.skipBlanks.rest)
    (line_eq : cursor.skipBlanks.line = 1 + newlines place)
    (lines_eq : lines = opened.map (1 + newlines ·))
    (failed : outcome splice (Script.scan cursor lines).complaint? (depth + opened.length)
      (Script.scan cursor lines).statements = .error (.inl own)) :
    ∃ place, Meant source depth own.fault place ∧ own.line = 1 + newlines place := by
  fun_induction Script.scan cursor lines generalizing opened place
  case case1 => cases failed
  case case2 cursor start ended begun outer =>
    rw [show cursor.skipBlanks.rest = [] from ended] at due
    cases failed
    obtain ⟨innermost, outside, rfl, same, -⟩ := List.map_eq_cons_iff.mp lines_eq.symm
    exact ⟨innermost, .unclosedBraces due, same.symm⟩
  case case3 cursor start rest starts =>
    rw [show cursor.skipBlanks.rest = closeBrace :: rest from starts] at due
    cases failed
    obtain rfl := List.map_eq_nil_iff.mp lines_eq.symm
    exact ⟨place, .unexpectedBrace due, line_eq⟩
  case case4 cursor start rest begun outer complaint unended starts =>
    rw [show cursor.skipBlanks.rest = closeBrace :: rest from starts] at due
    cases failed
    obtain ⟨innermost, outside, rfl, -, -⟩ := List.map_eq_cons_iff.mp lines_eq.symm
    exact meant_of_blockEnd due line_eq unended
  case case5 cursor start rest begun outer next ended starts ih =>
    rw [show cursor.skipBlanks.rest = closeBrace :: rest from starts] at due
    obtain ⟨innermost, outside, rfl, -, rfl⟩ := List.map_eq_cons_iff.mp lines_eq.symm
    obtain ⟨place, due, line_eq⟩ := due_of_blockEnd due line_eq ended
    exact ih due line_eq rfl (own_closing rfl failed)
  case case6 cursor lines start byte rest starts opens complaint unread =>
    cases failed
    exact meant_of_statement due ⟨byte, rest, starts, opens⟩ line_eq unread
  case case7 cursor lines start byte rest starts opens event next read ih =>
    have visible : ∀ first, cursor.skipBlanks.rest.head? = some first →
        isBlank first = false ∧ first ≠ closeBrace := by
      intro first is
      obtain ⟨_, _, -, -, -, -, visible⟩ := due
      refine ⟨visible first is, ?_⟩
      rw [show cursor.skipBlanks.rest = byte :: rest from starts, List.head?_cons] at is
      rwa [← Option.some.inj is]
    obtain ⟨mark, name, raw, head, begins, parts, delimits, continues⟩ :=
      Cursor.exists_head read visible
    have again := begins.statement delimits continues next.rest start.line
    rw [← parts] at again
    obtain ⟨event_eq, next_eq⟩ := Prod.mk.inj (Except.ok.inj (read.symm.trans again))
    have next_line : next.line = 1 + newlines (place ++ head) := by
      rw [next_eq, newlines_append, ← Nat.add_assoc, ← line_eq]
    rw [parts] at due
    simp only [isDelimiter, Bool.or_eq_true, beq_iff_eq, continues, or_false] at delimits
    rcases delimits with rfl | rfl
    · rw [headEvent, if_pos rfl] at event_eq
      subst event_eq
      rw [Script.openLines_ofLeaf] at ih failed
      obtain ⟨place, due, line_eq⟩ := due_of_leaf due begins next_line
      obtain ⟨leafName, value, leaf⟩ : ∃ leafName value,
          Event.ofLeaf (Utf8.decodeLenient name) (valueOf raw) = .leaf leafName value := by
        rw [Event.ofLeaf_eq]
        split_ifs <;> exact ⟨_, _, rfl⟩
      exact ih due line_eq lines_eq (own_leaf leaf failed)
    · rw [headEvent, if_neg (by decide)] at event_eq
      subst event_eq
      rcases own_opening rfl failed with ⟨deep, rfl⟩ | ⟨room, failed⟩
      · exact ⟨place, .nestedTooDeeply due begins deep, line_eq⟩
      · obtain ⟨inner, due, inner_eq⟩ := due_of_opening due begins room next_line
        exact ih due inner_eq (congrArg₂ List.cons line_eq lines_eq) failed

end

end

/-- What a text itself is blamed for, read on its own or included, is reported with the line of the
place that is meant, counted in the text with its comments. -/
theorem complaint_located {splice : String → Nat → Except ConfigError (List Event)}
    {text : List UInt8} {depth : Nat} {complaint : Complaint}
    (own : ∀ origin, ofText splice origin text depth = .error (.text origin complaint)) :
    (∃ before, before <+: text ∧ MeantIn text depth complaint.fault before ∧
      complaint.line = 1 + newlines before) ∧
    1 ≤ complaint.line ∧ complaint.line ≤ 1 + newlines text := by
  have located : ∃ before, before <+: text ∧ MeantIn text depth complaint.fault before ∧
      complaint.line = 1 + newlines before := by
    have failed := own_iff.mp own
    rw [outcomeOf, Script.ofText] at failed
    cases stripped : strip text with
    | error began =>
      rw [stripped] at failed
      cases failed
      obtain ⟨before, unended, line_eq⟩ := exists_unended stripped
      exact ⟨before, unended.isPrefix, .unterminated unended, line_eq⟩
    | ok source =>
      rw [stripped] at failed
      have whole : source = [] ++ (⟨source, 1⟩ : Cursor).rest := rfl
      obtain ⟨place, due, line_eq⟩ := exists_due .start whole rfl
      obtain ⟨place, meant, line_eq⟩ := meant_of_scan ⟨source, 1⟩ [] due line_eq rfl failed
      obtain ⟨before, stands⟩ := exists_stands stripped meant.isPrefix
      exact ⟨before, stands.isPrefix, .script stripped meant stands,
        line_eq.trans (by rw [stands.newlines])⟩
  refine ⟨located, ?_⟩
  obtain ⟨before, first, -, line_eq⟩ := located
  have few : newlines before ≤ newlines text := first.sublist.count_le newline
  omega

/-- A block `a` with a line end inside a comment, and a word in it that lacks its semicolon. -/
theorem complaint_located_comment :
    let text : List UInt8 := [97, openBrace, slash, star, newline, star, slash, 98, closeBrace]
    let splice : String → Nat → Except ConfigError (List Event) :=
      ofFile (fun _ => .error .notFound) maxIncludes
    (∀ origin, ofText splice origin text 0 = .error (.text origin ⟨2, .missingSemicolon⟩)) ∧
    (∃ before, before <+: text ∧ MeantIn text 0 .missingSemicolon before ∧
      2 = 1 + newlines before) ∧
    1 ≤ 2 ∧ 2 ≤ 1 + newlines text := by
  intro text splice
  have scripted : Script.ofText [97, openBrace, slash, star, newline, star, slash, 98, closeBrace] =
      ⟨[⟨1, .opening "a" none⟩], some ⟨2, .missingSemicolon⟩⟩ := by cbv
  have own : ∀ origin, ofText splice origin text 0 =
      .error (.text origin ⟨2, .missingSemicolon⟩) := by
    intro origin
    rw [ofText, scripted]
    rfl
  exact ⟨own, complaint_located own⟩

end Document

end ServiceConfig
