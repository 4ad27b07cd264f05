import ServiceConfig.Proofs.Grammar.Characters
import ServiceConfig.Proofs.Grammar.Recognition

/-! # Names and values say what the text says

The scanner goes from statement to statement, and each place that it comes to in a valid script lies
between two characters. There a name and a raw value are cut off, again between characters. So both
are valid bytes, and to read them leniently loses nothing: a name is a part of the script, and a
value is drawn from the part behind it.
-/

namespace ServiceConfig.Grammar

open Ascii

/-- A place between two characters of a script. -/
def Cursor.Within (script : List Char) (place : Cursor) : Prop :=
  ∃ before after, script = before ++ after ∧ place.rest = Utf8.encodeChars after

section

variable {script : List Char} {place next : Cursor}

/-- Behind an ASCII byte such a place is left for another one. -/
theorem Cursor.Within.pass (within : place.Within script) (passed : List UInt8)
    (whole : place.rest = passed ++ next.rest)
    (ascii : ∀ byte, passed.getLast? = some byte → byte.toNat < 128) : next.Within script := by
  obtain ⟨before, after, rfl, same⟩ := within
  obtain ⟨first, second, rfl, -, rest⟩ := Utf8.exists_cut (same.symm.trans whole) (.inl ascii)
  exact ⟨before ++ first, second, (List.append_assoc ..).symm, rest⟩

private theorem ascii_concat {mark : UInt8} (ascii : mark.toNat < 128) (front : List UInt8) :
    ∀ byte, (front ++ [mark]).getLast? = some byte → byte.toNat < 128 := by
  intro byte last
  rw [List.getLast?_concat] at last
  rwa [← Option.some.inj last]

theorem Blanks.ascii {gap : List UInt8} (blanks : Blanks gap) :
    ∀ byte, gap.getLast? = some byte → byte.toNat < 128 :=
  fun byte last => ascii_of_isBlank (blanks byte (List.mem_of_getLast? last))

theorem Cursor.Within.skipBlanks (within : place.Within script) :
    place.skipBlanks.Within script := by
  obtain ⟨gap, blanks, whole, -⟩ := place.exists_blanks
  exact within.pass gap whole blanks.ascii

theorem Cursor.Within.blockEnd (within : place.Within script) {rest : List UInt8} {line : Nat}
    (starts : place.rest = closeBrace :: rest) (ended : Cursor.blockEnd ⟨rest, line⟩ = .ok next) :
    next.Within script := by
  obtain ⟨gap, -, whole⟩ := Cursor.blockEnd_parts ended
  have whole : rest = gap ++ semicolon :: next.rest := whole
  refine within.pass (closeBrace :: gap ++ [semicolon]) ?_ (ascii_concat (by decide) _)
  rw [starts, whole, List.append_assoc]
  rfl

theorem Cursor.Within.statement {event : Event} (within : place.Within script)
    (read : place.statement = .ok (event, next))
    (visible : ∀ byte, place.rest.head? = some byte → isBlank byte = false ∧ byte ≠ closeBrace) :
    next.Within script := by
  obtain ⟨name, valueStart, raw, mark, named, whole, value, delimits, -⟩ :=
    Cursor.statement_parts read
  obtain ⟨text, -, whole⟩ := Cursor.exists_head_of_name named whole value delimits visible
  refine within.pass (text ++ [mark]) ?_ (ascii_concat (ascii_of_isDelimiter delimits) _)
  rw [whole, List.append_assoc]
  rfl

end

/-- The scanner comes to a place, with the blocks that begin on these lines open. -/
inductive Script.Visits (source : List UInt8) : Cursor → List Nat → Prop
  | start : Visits source ⟨source, 1⟩ []
  | closed {cursor next : Cursor} {opened : Nat} {outer : List Nat} {rest : List UInt8}
    (visits : Visits source cursor (opened :: outer))
    (starts : cursor.skipBlanks.rest = closeBrace :: rest)
    (ended : Cursor.blockEnd ⟨rest, cursor.skipBlanks.line⟩ = .ok next) : Visits source next outer
  | read {cursor next : Cursor} {lines : List Nat} {byte : UInt8} {rest : List UInt8}
    {event : Event} (visits : Visits source cursor lines)
    (starts : cursor.skipBlanks.rest = byte :: rest) (opens : byte ≠ closeBrace)
    (read : cursor.skipBlanks.statement = .ok (event, next)) :
    Visits source next (openLines ⟨cursor.skipBlanks.line, event⟩ lines)

/-- The scanner looks for a statement at a place. -/
def Script.Heads (source : List UInt8) (place : Cursor) : Prop :=
  ∃ cursor lines byte rest, Visits source cursor lines ∧ place = cursor.skipBlanks ∧
    place.rest = byte :: rest ∧ byte ≠ closeBrace

namespace Script

theorem visible_skipBlanks {cursor : Cursor} {byte : UInt8} {rest : List UInt8}
    (starts : cursor.skipBlanks.rest = byte :: rest) (opens : byte ≠ closeBrace) :
    ∀ first, cursor.skipBlanks.rest.head? = some first →
      isBlank first = false ∧ first ≠ closeBrace := by
  intro first is
  refine ⟨dropWhile_stops is, ?_⟩
  rw [starts, List.head?_cons] at is
  rwa [← Option.some.inj is]

variable {script : List Char}

/-- All places that the scanner comes to lie between characters. -/
theorem Visits.within {cursor : Cursor} {lines : List Nat}
    (visits : Visits (Utf8.encodeChars script) cursor lines) : cursor.Within script := by
  induction visits with
  | start => exact ⟨[], script, rfl, rfl⟩
  | closed _ starts ended ih => exact ih.skipBlanks.blockEnd starts ended
  | read _ starts opens read ih =>
    exact ih.skipBlanks.statement read (visible_skipBlanks starts opens)

theorem Heads.within {place : Cursor} (heads : Heads (Utf8.encodeChars script) place) :
    place.Within script := by
  obtain ⟨cursor, lines, byte, rest, visits, rfl, -⟩ := heads
  exact visits.within.skipBlanks

/-- What is said from a place on was read at such places, but for the ends of blocks. -/
theorem Visits.exists_heads {source : List UInt8} {cursor : Cursor} {lines : List Nat}
    (visits : Visits source cursor lines) {statement : Statement}
    (member : statement ∈ (scan cursor lines).statements) :
    statement.event = .closing ∨
      ∃ place next, Heads source place ∧ place.statement = .ok (statement.event, next) := by
  fun_induction scan cursor lines with
  | case1 | case2 | case3 | case4 | case6 => cases member
  | case5 cursor start rest opened lines next ended starts ih =>
    rcases List.mem_cons.mp member with rfl | later
    · exact .inl rfl
    · exact ih (visits.closed starts ended) later
  | case7 cursor lines start byte rest starts opens event next read ih =>
    rcases List.mem_cons.mp member with rfl | later
    · exact .inr ⟨start, next, ⟨cursor, lines, byte, rest, visits, rfl, starts, opens⟩, read⟩
    · exact ih (visits.read starts opens read) later

end Script

/-- A name is cut off between characters, and so is the gap behind it. -/
theorem Cursor.name_split {start valueStart : Cursor} {name : List UInt8}
    (named : start.name = .ok (name, valueStart)) :
    ∃ gap, start.rest = name ++ (gap ++ valueStart.rest) ∧
      Utf8.Seam name (gap ++ valueStart.rest) ∧ Utf8.Seam gap valueStart.rest := by
  have nothing (back : List UInt8) : Utf8.Seam [] back := .inl nofun
  by_cases bare : StartsWith OpensValue start.rest
  · have here := Cursor.name_bare bare [] start.line
    rw [List.append_nil] at here
    obtain ⟨rfl, rfl⟩ := Prod.mk.inj (Except.ok.inj (named.symm.trans here))
    exact ⟨[], rfl, nothing _, nothing _⟩
  · obtain ⟨word, gap, after, whole, -, blanks, ends, -, read⟩ := Cursor.name_parts named bare
    rcases read with ⟨-, rfl, rfl⟩ | ⟨-, rfl, rfl⟩
    · exact ⟨[], rfl, nothing _, nothing _⟩
    · refine ⟨gap, whole, .inr fun byte first => ?_, .inl blanks.ascii⟩
      obtain ⟨mark, rest, shape, outside⟩ := ends
      rw [shape, List.head?_cons] at first
      rw [← Option.some.inj first]
      exact ascii_of_not_isWordByte outside

private theorem splitValue_seam (text : List UInt8) :
    Utf8.Seam (splitValue text).1 (splitValue text).2 := by
  refine .inr fun byte first => ?_
  obtain ⟨rest, shape⟩ := List.head?_eq_some_iff.mp first
  obtain ⟨-, -, delimits⟩ := splitValue_eq_iff.mp (Prod.ext rfl shape)
  exact ascii_of_isDelimiter delimits

/-- The bytes of a name and of a raw value hold characters of a script, and reading the name and the
value that is built from the raw one loses nothing. -/
structure Faithful (script : List Char) (name raw : List UInt8) : Prop where
  name_valid : Utf8.isValid name = true
  value_valid : Utf8.isValid (expand raw) = true
  name_kept : Utf8.encode (Utf8.decodeLenient name) = name
  value_kept : Utf8.encode (valueOf raw) = expand raw
  drawn : ∃ before gap part after,
    script = before ++ ((Utf8.decodeLenient name).toList ++ (gap ++ (part ++ after))) ∧
      raw = Utf8.encodeChars part ∧ Drawn part (valueOf raw).toList

theorem Cursor.Within.faithful {script : List Char} {start valueStart : Cursor} {name : List UInt8}
    (within : start.Within script) (named : start.name = .ok (name, valueStart)) :
    Faithful script name (splitValue valueStart.rest).1 := by
  obtain ⟨before, after, rfl, same⟩ := within
  obtain ⟨gap, whole, nameSeam, gapSeam⟩ := Cursor.name_split named
  obtain ⟨word, behind, rfl, rfl, gapped⟩ := Utf8.exists_cut (same.symm.trans whole) nameSeam
  obtain ⟨blanks, behind, rfl, rfl, valued⟩ := Utf8.exists_cut gapped.symm gapSeam
  have splits := splitValue_append valueStart.rest
  obtain ⟨part, after, rfl, taken, -⟩ := Utf8.exists_cut (valued.symm.trans splits.symm)
    (splitValue_seam valueStart.rest)
  obtain ⟨said, expanded, drawn⟩ := exists_expand part
  rw [taken]
  have nameValid := Utf8.isValid_encodeChars word
  have valueValid : Utf8.isValid (expand (Utf8.encodeChars part)) = true := by
    rw [expanded]
    exact Utf8.isValid_encodeChars said
  refine ⟨nameValid, valueValid, Utf8.encode_decodeLenient nameValid,
    Utf8.encode_decodeLenient valueValid, before, blanks, part, after, ?_, rfl, ?_⟩
  · rw [Utf8.toList_decodeLenient]
  · rwa [valueOf, expanded, Utf8.toList_decodeLenient]

/-- The texts that an event holds. -/
def Event.texts : Event → List String
  | .leaf name value => [name, value]
  | .opening name value? => name :: value?.toList
  | .closing => []

private theorem mem_texts_headEvent {mark : UInt8} {name raw : List UInt8} {said : String}
    (member : said ∈ (headEvent mark name raw).texts) :
    said = Utf8.decodeLenient name ∨ said = valueOf raw ∨ said = "" := by
  unfold headEvent Event.ofLeaf Event.ofOpening at member
  split_ifs at member <;> simp [Event.texts] at member <;> tauto

theorem Cursor.exists_headEvent {start next : Cursor} {event : Event}
    (read : start.statement = .ok (event, next)) :
    ∃ name valueStart mark, start.name = .ok (name, valueStart) ∧
      event = headEvent mark name (splitValue valueStart.rest).1 := by
  obtain ⟨name, ⟨_, line⟩, raw, mark, named, rfl, value, delimits, continues⟩ :=
    Cursor.statement_parts read
  have splits : splitValue (raw ++ mark :: next.rest) = (raw, mark :: next.rest) :=
    splitValue_eq_iff.mpr ⟨rfl, value, delimits⟩
  have again := Cursor.statement_of_name named splits continues
  obtain ⟨same, -⟩ := Prod.mk.inj (Except.ok.inj (read.symm.trans again))
  exact ⟨name, _, mark, named, by rw [splits]; exact same⟩

section

variable {script : List Char} {name raw : List UInt8}

theorem Faithful.name_part (faithful : Faithful script name raw) :
    (Utf8.decodeLenient name).toList <:+: script := by
  obtain ⟨before, gap, part, after, rfl, -⟩ := faithful.drawn
  exact ⟨before, gap ++ (part ++ after), List.append_assoc ..⟩

theorem Faithful.value_drawn (faithful : Faithful script name raw) :
    ∃ part, part <:+: script ∧ Drawn part (valueOf raw).toList := by
  obtain ⟨before, gap, part, after, rfl, -, drawn⟩ := faithful.drawn
  exact ⟨part, ⟨before ++ ((Utf8.decodeLenient name).toList ++ gap), after, by simp⟩, drawn⟩

end

/-- A valid text without its comments consists of some of its characters, in their order. Wherever
the scanner looks for a statement, the name and the raw value that it finds are cut off between
these characters and are read without loss, and whatever the script says is drawn from it. -/
theorem Script.lossless {text source : List UInt8} (valid : Utf8.isValid text = true)
    (stripped : strip text = .ok source) :
    ∃ script, source = Utf8.encodeChars script ∧
      script.Sublist (Utf8.decodeLenient text).toList ∧
      (∀ place, Heads source place → ∀ name valueStart, place.name = .ok (name, valueStart) →
        Faithful script name (splitValue valueStart.rest).1) ∧
      ∀ statement ∈ (ofText text).statements, ∀ said ∈ statement.event.texts,
        ∃ part, part <:+: script ∧ Drawn part said.toList := by
  obtain ⟨chars, rfl⟩ := Utf8.isValid_iff.mp valid
  obtain ⟨script, rfl, sublist⟩ := strip_chars stripped
  rw [Utf8.toList_decodeLenient, ofText, stripped]
  refine ⟨script, rfl, sublist, fun place heads name valueStart named =>
    heads.within.faithful named, fun statement member said holds => ?_⟩
  rcases Visits.start.exists_heads member with closing | ⟨place, next, heads, read⟩
  · rw [closing] at holds
    cases holds
  · obtain ⟨name, valueStart, mark, named, same⟩ := Cursor.exists_headEvent read
    have faithful := heads.within.faithful named
    rw [same] at holds
    rcases mem_texts_headEvent holds with rfl | rfl | rfl
    · exact ⟨_, faithful.name_part, .refl _⟩
    · exact faithful.value_drawn
    · exact ⟨[], List.nil_infix, .nil⟩

/-- A comment inside a value, blanks that collapse, and a backslash in front of a character of two
bytes. -/
theorem Script.lossless_umlauts :
    let text := Utf8.encode "ä b  /*ö*/ \"\\ü\\n\";"
    let source := Utf8.encode "ä b   \"\\ü\\n\";"
    strip text = .ok source ∧ (ofText text).statements = [⟨1, .leaf "ä" "b ü\n"⟩] ∧
      ∃ script, source = Utf8.encodeChars script ∧
        script.Sublist (Utf8.decodeLenient text).toList ∧
        Faithful script (Utf8.encode "ä") (Utf8.encode "b   \"\\ü\\n\"") ∧
        ∀ said ∈ ["ä", "b ü\n"], ∃ part, part <:+: script ∧ Drawn part said.toList := by
  intro text source
  have valid : Utf8.isValid text = true := by decide
  have stripped : strip text = .ok source := by decide
  have named : Cursor.name ⟨source, 1⟩ =
      .ok (Utf8.encode "ä", ⟨Utf8.encode "b   \"\\ü\\n\";", 1⟩) := by decide
  have splits : splitValue (Utf8.encode "b   \"\\ü\\n\";") =
      (Utf8.encode "b   \"\\ü\\n\"", [semicolon]) := by decide
  have read : (Cursor.skipBlanks ⟨source, 1⟩).statement =
      .ok (.leaf "ä" "b ü\n", ⟨[], 1⟩) := by decide
  have ended : scan ⟨[], 1⟩ [] = finished := scan_end rfl
  have scanned : scan ⟨source, 1⟩ [] = prepend [⟨1, .leaf "ä" "b ü\n"⟩] finished :=
    (scan_statement rfl (by decide) read []).trans (congrArg _ ended)
  have statements : (ofText text).statements = [⟨1, .leaf "ä" "b ü\n"⟩] := by
    rw [ofText, stripped]
    exact congrArg Script.statements scanned
  have heads : Heads source ⟨source, 1⟩ := ⟨_, [], 0xC3, _, .start, rfl, rfl, by decide⟩
  obtain ⟨script, same, sublist, faithful, texts⟩ := Script.lossless valid stripped
  have first := faithful _ heads _ _ named
  rw [splits] at first
  rw [statements] at texts
  exact ⟨stripped, statements, script, same, sublist, first, texts _ (List.mem_cons_self ..)⟩

end ServiceConfig.Grammar
