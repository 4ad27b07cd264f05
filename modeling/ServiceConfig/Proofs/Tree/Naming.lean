import ServiceConfig.Proofs.Grammar.Faithful
import ServiceConfig.Proofs.Grammar.Printing
import ServiceConfig.Proofs.Tree.Acceptance

/-! # Names that are kept

A word in front of a value is the name of the entry. Three kinds of statements have none: those that
begin with a quote or a brace, those that are a lone word, and leaves whose value is written as
empty quotes and nothing else. Such a leaf is read like a lone word.
-/

namespace ServiceConfig

open Ascii Grammar

namespace Grammar

variable {raw : List UInt8}

/-- Quoted parts, and bytes between them that mean nothing but themselves, for the stripper as well
as for the scanner. -/
inductive PlainValue : List UInt8 → Prop
  | nil : PlainValue []
  | byte {byte : UInt8} {rest : List UInt8} (notQuote : byte ≠ quote)
    (notBackslash : byte ≠ backslash) (passes : isDelimiter byte = false) (notHash : byte ≠ hash)
    (uncommented : byte = slash → ¬ OpensComment rest) (later : PlainValue rest) :
    PlainValue (byte :: rest)
  | quoted {part rest : List UInt8} (inside : Quotation part) (later : PlainValue rest) :
    PlainValue (quote :: part ++ rest)

theorem PlainValue.isRaw (plain : PlainValue raw) : RawValue raw := by
  induction plain with
  | nil => exact .nil
  | byte notQuote _ passes _ _ _ ih => exact .byte notQuote passes ih
  | quoted inside _ ih => exact .quoted inside ih

/-- A slash that was held back is put out as soon as no comment follows. -/
theorem run_held {byte : UInt8} (notSlash : byte ≠ slash) (notStar : byte ≠ star)
    (rest : List UInt8) (line : Nat) :
    Stripper.run ⟨.held, line⟩ (byte :: rest) =
      ((Stripper.run ⟨.plain, line⟩ (byte :: rest)).1,
        slash :: (Stripper.run ⟨.plain, line⟩ (byte :: rest)).2) := by
  simp only [Stripper.run, Stripper.step, Stripper.stepMode, notSlash, notStar, if_false,
    List.cons_append]

private theorem cleans_slash {text : List UInt8} (uncommented : ¬ OpensComment text)
    (more : text ≠ []) (cleans : Cleans text text) : Cleans (slash :: text) (slash :: text) := by
  obtain ⟨byte, rest, rfl⟩ := List.exists_cons_of_ne_nil more
  obtain ⟨notSlash, notStar⟩ := not_or.mp uncommented
  intro line
  obtain ⟨after, ran⟩ := cleans line
  have held := run_held (notSlash <| congrArg some ·) (notStar <| congrArg some ·) rest line
  rw [ran] at held
  have kept : Stripper.run ⟨.plain, line⟩ (slash :: byte :: rest) =
      Stripper.run ⟨.held, line⟩ (byte :: rest) := rfl
  exact ⟨after, kept.trans held⟩

/-- The stripper leaves a plain value as it is. The semicolon shows it that no comment begins at the
end. -/
theorem PlainValue.cleans (plain : PlainValue raw) :
    Cleans (raw ++ [semicolon]) (raw ++ [semicolon]) := by
  induction plain with
  | nil =>
    exact cleans_ordinary (List.forall_mem_singleton.mpr (by decide))
  | @byte byte rest notQuote notBackslash _ notHash uncommented _ ih =>
    rw [List.cons_append]
    by_cases isSlash : byte = slash
    · subst isSlash
      refine cleans_slash ?_ (by simp) ih
      have uncommented := uncommented rfl
      cases rest with
      | nil => decide
      | cons next rest => exact uncommented
    · have ordinary : Ordinary byte := ⟨notQuote, notBackslash, notHash, isSlash⟩
      exact (cleans_ordinary (List.forall_mem_singleton.mpr ordinary)).append ih
  | quoted inside _ ih =>
    rw [List.append_assoc]
    exact (cleans_quoted inside).append ih

/-- Empty quotes one after another, with blanks behind the last of them. -/
inductive Hollow : List UInt8 → Prop
  | blanks {gap : List UInt8} (blanks : Blanks gap) : Hollow gap
  | quotes {rest : List UInt8} (later : Hollow rest) : Hollow (quote :: quote :: rest)

theorem Hollow.expand (hollow : Hollow raw) : expand raw = [] := by
  induction hollow with
  | blanks blanks => exact expandFrom_blanks blanks
  | @quotes rest _ ih =>
    have nothing : expandFrom .outside rest = [] := ih
    simp [Grammar.expand, expandFrom, contribution, Quoting.step, nothing]

theorem Hollow.isRaw (hollow : Hollow raw) : RawValue raw := by
  induction hollow with
  | blanks blanks => exact .of_blanks blanks
  | quotes _ ih => exact .quoted .close ih

private theorem hollow_of_expand (value : RawValue raw) (nothing : expand raw = []) :
    Hollow raw := by
  induction value with
  | nil => exact .blanks blanks_nil
  | @byte byte rest notQuote _ _ ih =>
    have here : expand (byte :: rest) = contribution .outside byte rest ++ expand rest := by
      rw [expand, expandFrom, Quoting.step, if_neg notQuote]
      rfl
    rw [here] at nothing
    obtain ⟨silent, later⟩ := List.append_eq_nil_iff.mp nothing
    have blank : isBlank byte = true := by
      by_contra visible
      simp [contribution, notQuote, visible] at silent
    cases ih later with
    | blanks blanks => exact .blanks (List.forall_mem_cons.mpr ⟨blank, blanks⟩)
    | quotes =>
      -- the blanks in front of a quote are one space
      simp [contribution, notQuote, blank, show isBlank quote = false by decide] at silent
  | @quoted part rest inside _ ih =>
    have within : expandFrom .inside (part ++ rest) = [] := nothing
    cases inside with
    | close => exact .quotes (ih within)
    | byte notQuote notBackslash =>
      simp [expandFrom, contribution, notQuote, notBackslash] at within
    | guarded =>
      simp [expandFrom, contribution, Quoting.step, show backslash ≠ quote by decide] at within

private theorem valueOf_eq_empty (value : RawValue raw) : valueOf raw = "" ↔ Hollow raw :=
  Utf8.decodeLenient_eq_empty.trans ⟨hollow_of_expand value, Hollow.expand⟩

/-- An entry begins here that has no name. -/
def Event.Nameless : Event → Prop
  | .leaf name _ | .opening name _ => name = ""
  | .closing => False

/-- How a statement without a name begins: with its value, with a lone word (or with the semicolon
itself), or with a word whose value comes to nothing. -/
inductive Unnamed : List UInt8 → Prop
  | bare {text : List UInt8} (opens : StartsWith OpensValue text) : Unnamed text
  | lone {word gap rest text : List UInt8} (isWord : ∀ byte ∈ word, isWordByte byte = true)
    (blanks : Blanks gap) (whole : text = word ++ (gap ++ semicolon :: rest)) : Unnamed text
  | hollow {word gap raw rest text : List UInt8} (isWord : ∀ byte ∈ word, isWordByte byte = true)
    (blanks : Blanks gap) (apart : gap ≠ []) (opens : StartsWith (· = quote) raw)
    (hollow : Hollow raw) (whole : text = word ++ gap ++ raw ++ semicolon :: rest) : Unnamed text

private theorem nameless_headEvent {mark : UInt8} {name raw : List UInt8} :
    (headEvent mark name raw).Nameless ↔ name = [] ∨ mark = semicolon ∧ valueOf raw = "" := by
  rw [← @Utf8.decodeLenient_eq_empty name, headEvent]
  split_ifs with ends
  · rw [Event.ofLeaf_eq]
    split_ifs with empty <;> simp [Event.Nameless, ends, empty]
  · simp [Event.Nameless, Event.ofOpening, ends]

/-- In front of the blanks behind it a word ends. -/
theorem startsWith_gap {gap : List UInt8} (blanks : Blanks gap) (apart : gap ≠ [])
    (more : List UInt8) : StartsWith (fun byte => isWordByte byte = false) (gap ++ more) := by
  obtain ⟨blank, gap, rfl⟩ := List.exists_cons_of_ne_nil apart
  exact ⟨blank, _, rfl, isWordByte_of_isBlank (blanks blank (List.mem_cons_self ..))⟩

/-- A word, the blanks behind it, and a value that begins with neither a blank nor the semicolon. -/
theorem Head.of_word {word gap : List UInt8} (value : RawValue raw)
    (isWord : ∀ byte ∈ word, isWordByte byte = true) (blanks : Blanks gap) (apart : gap ≠ [])
    (opens : StartsWith OpensWord (word ++ gap ++ raw ++ [semicolon]))
    (valued : StartsWith (fun byte => isBlank byte = false ∧ byte ≠ semicolon) raw) :
    Head semicolon word raw (word ++ gap ++ raw ++ [semicolon]) := by
  obtain ⟨first, rest, rfl, valued⟩ := valued
  refine .named value opens isWord ?_ blanks ⟨first, rest ++ [semicolon], rfl, valued⟩
  rw [List.append_assoc]
  exact startsWith_gap blanks apart _

/-- Where a statement begins, a word is not empty if a value follows it. -/
theorem Head.word_ne_nil {mark : UInt8} {word gap : List UInt8}
    (opens : StartsWith OpensWord (word ++ gap ++ raw ++ [mark]))
    (ends : StartsWith (fun byte => isWordByte byte = false) (gap ++ raw ++ [mark]))
    (blanks : Blanks gap)
    (valued : StartsWith (fun byte => isBlank byte = false ∧ byte ≠ semicolon) (raw ++ [mark])) :
    word ≠ [] := by
  rintro rfl
  obtain ⟨first, rest, shape, seen, notClose, notValue⟩ := opens
  rw [List.nil_append] at shape
  obtain ⟨byte, _, again, ends⟩ := ends
  obtain ⟨rfl, -⟩ := List.cons.inj (shape.symm.trans again)
  have isSemicolon : first = semicolon := by
    have notOpen : first ≠ openBrace := fun same => notValue (.inr same)
    simpa [isWordByte, seen, isDelimiter, notOpen, notClose] using ends
  cases gap with
  | nil =>
    obtain ⟨next, _, valuedShape, -, notSemicolon⟩ := valued
    rw [List.nil_append, valuedShape] at shape
    exact notSemicolon ((List.cons.inj shape).1.trans isSemicolon)
  | cons blank gap =>
    obtain ⟨rfl, -⟩ := List.cons.inj shape
    rw [blanks blank (List.mem_cons_self ..)] at seen
    cases seen

/-- A value that comes to nothing begins with quotes, if it begins with anything but a blank. -/
theorem Hollow.quoted (hollow : Hollow raw)
    (valued : StartsWith (fun byte => isBlank byte = false ∧ byte ≠ semicolon)
      (raw ++ [semicolon])) : StartsWith (· = quote) raw := by
  cases hollow with
  | @quotes rest => exact ⟨quote, _, rfl, rfl⟩
  | blanks blanks =>
    obtain ⟨byte, rest, shape, seen, notSemicolon⟩ := valued
    cases raw with
    | nil => exact absurd (List.cons.inj shape).1.symm notSemicolon
    | cons blank raw =>
      obtain ⟨rfl, -⟩ := List.cons.inj shape
      rw [blanks blank (List.mem_cons_self ..)] at seen
      cases seen

/-- What a head without a name begins with. -/
theorem Head.unnamed {mark : UInt8} {name text : List UInt8} (head : Head mark name raw text)
    (nameless : (headEvent mark name raw).Nameless) (more : List UInt8) :
    Unnamed (text ++ more) := by
  cases head with
  | bare _ opens =>
    obtain ⟨first, rest, shape, opens⟩ := opens
    exact .bare ⟨first, rest ++ more, by rw [shape, List.cons_append], opens⟩
  | @lone word gap rest _ _ _ isWord blanks alone =>
    have whole : raw ++ [mark] ++ more = word ++ (gap ++ semicolon :: (rest ++ more)) := by
      simp [alone]
    exact .lone isWord blanks whole
  | @named _ gap _ value opens isWord ends blanks valued =>
    rcases nameless_headEvent.mp nameless with nothing | ⟨rfl, empty⟩
    · exact absurd nothing (word_ne_nil opens ends blanks valued)
    · have hollow := (valueOf_eq_empty value).mp empty
      have quoted := hollow.quoted valued
      have apart : gap ≠ [] := by
        rintro rfl
        obtain ⟨first, rest, rfl, rfl⟩ := quoted
        obtain ⟨byte, _, shape, ends⟩ := ends
        obtain ⟨rfl, -⟩ := List.cons.inj shape
        cases ends
      exact .hollow isWord blanks apart quoted hollow (List.append_assoc ..)

/-- What was read as a statement is what its head says. -/
theorem Cursor.exists_head_event {start next : Cursor} {event : Event}
    (read : start.statement = .ok (event, next))
    (visible : ∀ byte, start.rest.head? = some byte → isBlank byte = false ∧ byte ≠ closeBrace) :
    ∃ mark name raw text, Head mark name raw text ∧ start.rest = text ++ next.rest ∧
      event = headEvent mark name raw := by
  obtain ⟨mark, name, raw, text, head, whole, delimits, continues⟩ := exists_head read visible
  have again := head.statement delimits continues next.rest start.line
  rw [← whole] at again
  obtain ⟨same, -⟩ := Prod.mk.inj (Except.ok.inj (read.symm.trans again))
  exact ⟨mark, name, raw, text, head, whole, same⟩

private theorem opensWord_of_visible {text : List UInt8} (nonempty : text ≠ [])
    (visible : ∀ byte, text.head? = some byte → isBlank byte = false ∧ byte ≠ closeBrace)
    (notBare : ¬ StartsWith OpensValue text) : StartsWith OpensWord text := by
  obtain ⟨byte, rest, rfl⟩ := List.exists_cons_of_ne_nil nonempty
  obtain ⟨seen, notClose⟩ := visible byte rfl
  exact ⟨byte, rest, rfl, seen, notClose, fun value => notBare ⟨byte, rest, rfl, value⟩⟩

section

variable {start next : Cursor} {event : Event} {word gap rest : List UInt8} {line : Nat}

theorem Cursor.nameless_of_name (read : start.statement = .ok (event, next))
    (here : start.name = .ok ([], start)) : event.Nameless := by
  obtain ⟨name, valueStart, mark, named, same⟩ := exists_headEvent read
  obtain ⟨rfl, -⟩ := Prod.mk.inj (Except.ok.inj (named.symm.trans here))
  exact same ▸ nameless_headEvent.mpr (.inl rfl)

/-- A lone word is not taken for a name. -/
theorem Cursor.name_lone (opens : StartsWith OpensWord (word ++ (gap ++ semicolon :: rest)))
    (isWord : ∀ byte ∈ word, isWordByte byte = true) (blanks : Blanks gap) (line : Nat) :
    Cursor.name ⟨word ++ (gap ++ semicolon :: rest), line⟩ =
      .ok ([], ⟨word ++ (gap ++ semicolon :: rest), line⟩) := by
  have stops : ∀ byte, (semicolon :: rest).head? = some byte → isBlank byte = false := by
    rintro _ ⟨⟩
    rfl
  rw [name_word_eq opens isWord blanks (stops_semicolon blanks rest) stops
    (List.cons_ne_nil _ _), List.head?_cons, if_pos rfl]

/-- A word in front of a value that comes to nothing is first taken for the name, but then it is
itself the value. -/
theorem Cursor.nameless_hollow
    (read : Cursor.statement ⟨word ++ gap ++ raw ++ semicolon :: rest, line⟩ = .ok (event, next))
    (opensWord : StartsWith OpensWord (word ++ gap ++ raw ++ semicolon :: rest))
    (isWord : ∀ byte ∈ word, isWordByte byte = true) (blanks : Blanks gap) (apart : gap ≠ [])
    (opens : StartsWith (· = quote) raw) (hollow : Hollow raw) : event.Nameless := by
  obtain ⟨_, after, rfl, rfl⟩ := opens
  have head := Head.of_word hollow.isRaw isWord blanks apart opensWord.trim
    ⟨quote, after, rfl, rfl, by decide⟩
  have again := head.statement rfl (by decide) rest line
  rw [List.append_assoc, List.singleton_append] at again
  obtain ⟨rfl, -⟩ := Prod.mk.inj (Except.ok.inj (read.symm.trans again))
  exact nameless_headEvent.mpr (.inr ⟨rfl, (valueOf_eq_empty hollow.isRaw).mpr hollow⟩)

/-- A statement is read without a name exactly if it begins in one of three ways. -/
theorem Cursor.nameless_iff (read : start.statement = .ok (event, next))
    (visible : ∀ byte, start.rest.head? = some byte → isBlank byte = false ∧ byte ≠ closeBrace) :
    event.Nameless ↔ Unnamed start.rest := by
  constructor
  · intro nameless
    obtain ⟨mark, name, raw, text, head, whole, rfl⟩ := exists_head_event read visible
    rw [whole]
    exact head.unnamed nameless next.rest
  · intro unnamed
    by_cases bare : StartsWith OpensValue start.rest
    · have here := name_bare bare [] start.line
      rw [List.append_nil] at here
      exact nameless_of_name read here
    · obtain ⟨text, line⟩ := start
      have opensWord (nonempty : text ≠ []) : StartsWith OpensWord text :=
        opensWord_of_visible nonempty visible bare
      cases unnamed with
      | bare opens => exact absurd opens bare
      | lone isWord blanks whole =>
        dsimp only at whole
        subst whole
        exact nameless_of_name read (name_lone (opensWord (by simp)) isWord blanks line)
      | hollow isWord blanks apart opens hollow whole =>
        dsimp only at whole
        subst whole
        exact nameless_hollow read (opensWord (by simp)) isWord blanks apart opens hollow

end

end Grammar

namespace Tree

variable {word : String} {gap raw : List UInt8}

/-- A word and a plain value behind it say one leaf. -/
theorem exists_reads_word (isName : IsName word) (nonempty : word ≠ "") (blanks : Blanks gap)
    (apart : gap ≠ []) (plain : PlainValue raw) (visible : StartsWith (isBlank · = false) raw) :
    ∃ text, text = Utf8.encode word ++ gap ++ raw ++ [semicolon] ∧ strip text = .ok text ∧
      Reads text (.consLeaf word (valueOf raw) .nil) := by
  refine ⟨_, rfl, ?_, ?_⟩
  · have named : Cleans (Utf8.encode word) (Utf8.encode word) :=
      Token.Passes.cleans (show (Token.word word).Passes from isName)
    have spaced : Cleans gap gap :=
      cleans_ordinary fun byte member => ordinary_of_isBlank (blanks byte member)
    have whole := ((named.append spaced).append plain.cleans).strip
    rwa [← List.append_assoc] at whole
  · have valued : StartsWith (fun byte => isBlank byte = false ∧ byte ≠ semicolon) raw := by
      obtain ⟨byte, rest, rfl, seen⟩ := visible
      refine ⟨byte, rest, rfl, seen, ?_⟩
      rintro rfl
      cases plain with
      | byte _ _ passes => cases passes
    have opens := isName.opensWord nonempty (gap ++ raw ++ [semicolon])
    rw [← List.append_assoc, ← List.append_assoc] at opens
    have head := Head.of_word plain.isRaw (fun _ => isName.wordByte) blanks apart opens valued
    have reads := Reads.leaf blanks_nil head (.nil blanks_nil)
    rwa [List.nil_append, List.append_nil, Utf8.decodeLenient_encode] at reads

/-- The text is read as a tree of one leaf, and the word is its name or, where the value comes to
nothing, its value. -/
theorem parse_word (isName : IsName word) (nonempty : word ≠ "")
    (notInclude : word ≠ Document.includeName) (blanks : Blanks gap) (apart : gap ≠ [])
    (plain : PlainValue raw) (visible : StartsWith (isBlank · = false) raw) (files : Files)
    (origin : String) :
    ∃ tree, Tree.parse files origin (Utf8.encode word ++ gap ++ raw ++ [semicolon]) = .ok tree ∧
      (¬ Hollow raw → (tree.rows root).map Row.shown = [(0, word, some (valueOf raw), .leaf)]) ∧
      (Hollow raw → (tree.rows root).map Row.shown = [(0, "", some word, .leaf)]) := by
  obtain ⟨_, rfl, stripped, reads⟩ :=
    exists_reads_word isName nonempty blanks apart plain visible
  by_cases hollow : Hollow raw
  · rw [Forest.consLeaf, if_pos ((valueOf_eq_empty plain.isRaw).mpr hollow)] at reads
    have includeless : (Forest.leaf "" word .nil).Includeless :=
      Forest.includeless_leaf.mpr ⟨by decide, fun _ => List.not_mem_nil⟩
    exact ⟨_, parse_of_reads stripped reads includeless (Nat.zero_le _) files origin,
      (absurd hollow ·), fun _ => rows_ofEvents (.leaf "" word .nil)⟩
  · rw [Forest.consLeaf, if_neg (mt (valueOf_eq_empty plain.isRaw).mp hollow)] at reads
    have includeless : (Forest.leaf word (valueOf raw) .nil).Includeless :=
      Forest.includeless_leaf.mpr ⟨notInclude, fun _ => List.not_mem_nil⟩
    exact ⟨_, parse_of_reads stripped reads includeless (Nat.zero_le _) files origin,
      fun _ => rows_ofEvents (.leaf word (valueOf raw) .nil), (absurd · hollow)⟩

/-- A word in front of a plain value is the name of its leaf, unless the value comes to nothing. No
other statement of any text loses its name: each one without a name begins with its value, is a lone
word, or has a value that comes to nothing. -/
theorem leaf_keeps_name (isName : IsName word) (nonempty : word ≠ "")
    (notInclude : word ≠ Document.includeName) (blanks : Blanks gap) (apart : gap ≠ [])
    (plain : PlainValue raw) (visible : StartsWith (isBlank · = false) raw) :
    (∀ files origin, ∃ tree,
      Tree.parse files origin (Utf8.encode word ++ gap ++ raw ++ [semicolon]) = .ok tree ∧
      (¬ Hollow raw → (tree.rows root).map Row.shown = [(0, word, some (valueOf raw), .leaf)]) ∧
      (Hollow raw → (tree.rows root).map Row.shown = [(0, "", some word, .leaf)])) ∧
    ∀ text source, strip text = .ok source →
      (∀ place event next, Script.Heads source place → place.statement = .ok (event, next) →
        (event.Nameless ↔ Unnamed place.rest)) ∧
      ∀ statement ∈ (Script.ofText text).statements, statement.event.Nameless →
        ∃ place next, Script.Heads source place ∧
          place.statement = .ok (statement.event, next) ∧ Unnamed place.rest := by
  have namelessAt (source : List UInt8) (place : Cursor) (event : Event) (next : Cursor)
      (heads : Script.Heads source place) (read : place.statement = .ok (event, next)) :
      event.Nameless ↔ Unnamed place.rest := by
    obtain ⟨cursor, lines, byte, rest, visits, rfl, starts, opens⟩ := heads
    exact Cursor.nameless_iff read (Script.visible_skipBlanks starts opens)
  refine ⟨parse_word isName nonempty notInclude blanks apart plain visible,
    fun text source stripped => ⟨namelessAt source, fun statement member nameless => ?_⟩⟩
  rw [Script.ofText, stripped] at member
  rcases Script.Visits.start.exists_heads member with closing | ⟨place, next, heads, read⟩
  · rw [closing] at nameless
    exact nameless.elim
  · exact ⟨place, next, heads, read, (namelessAt source place _ next heads read).mp nameless⟩

/-- The value `"" ""` is one blank, so its leaf keeps its name. The leaf `w "";` has lost it. -/
theorem leaf_keeps_name_blank :
    let raw : List UInt8 := [quote, quote, space, quote, quote]
    let other : List UInt8 := [119, space, quote, quote, semicolon]
    IsName "w" ∧ PlainValue raw ∧ StartsWith (isBlank · = false) raw ∧ valueOf raw = " " ∧
    (∃ tree, Tree.parse (fun _ => .error .notFound) "demo"
        (Utf8.encode "w" ++ [space] ++ raw ++ [semicolon]) = .ok tree ∧
      (tree.rows root).map Row.shown = [(0, "w", some " ", .leaf)]) ∧
    strip other = .ok other ∧ Script.Heads other ⟨other, 1⟩ ∧
    Cursor.statement ⟨other, 1⟩ = .ok (.leaf "" "w", ⟨[], 1⟩) ∧ Unnamed other := by
  intro raw other
  have isName : IsName "w" := by decide
  have blanks : Blanks [space] := List.forall_mem_singleton.mpr rfl
  have plain : PlainValue raw := .quoted .close <|
    .byte (by decide) (by decide) rfl (by decide) nofun (.quoted .close .nil)
  have visible : StartsWith (isBlank · = false) raw := ⟨quote, _, rfl, rfl⟩
  have value : valueOf raw = " " := by decide
  have filled : ¬ Hollow raw := by
    rw [← valueOf_eq_empty plain.isRaw, value]
    decide
  have stripped : strip other = .ok other := by decide
  have heads : Script.Heads other ⟨other, 1⟩ := ⟨_, [], 119, _, .start, rfl, rfl, by decide⟩
  have read : Cursor.statement ⟨other, 1⟩ = .ok (.leaf "" "w", ⟨[], 1⟩) := by decide
  obtain ⟨named, nameless⟩ :=
    leaf_keeps_name isName (by decide) (by decide) blanks (by decide) plain visible
  obtain ⟨tree, parsed, kept, -⟩ := named (fun _ => .error .notFound) "demo"
  have unnamed := ((nameless other other stripped).1 _ _ _ heads read).mp rfl
  exact ⟨isName, plain, visible, value, ⟨tree, parsed, value ▸ kept filled⟩, stripped, heads, read,
    unnamed⟩

/-- The text `w "";`. The word is in front of a value, but the leaf has no name, and the word is its
value. -/
theorem leaf_keeps_name_hollow :
    let raw : List UInt8 := [quote, quote]
    IsName "w" ∧ "w" ≠ "" ∧ "w" ≠ Document.includeName ∧ Blanks [space] ∧ PlainValue raw ∧
    StartsWith (isBlank · = false) raw ∧ valueOf raw = "" ∧
    ∃ tree, Tree.parse (fun _ => .error .notFound) "test.conf"
        (Utf8.encode "w" ++ [space] ++ raw ++ [semicolon]) = .ok tree ∧
      (tree.rows root).map Row.shown = [(0, "", some "w", .leaf)] ∧
      (tree.rows root).map Row.shown ≠ [(0, "w", some (valueOf raw), .leaf)] := by
  intro raw
  have isName : IsName "w" := by decide
  have blanks : Blanks [space] := List.forall_mem_singleton.mpr rfl
  have plain : PlainValue raw := .quoted .close .nil
  have visible : StartsWith (isBlank · = false) raw := ⟨quote, _, rfl, rfl⟩
  have hollow : Hollow raw := .quotes (.blanks blanks_nil)
  obtain ⟨tree, parsed, -, lost⟩ := parse_word isName (by decide) (by decide) blanks
    (List.cons_ne_nil _ _) plain visible (fun _ => .error .notFound) "test.conf"
  refine ⟨isName, by decide, by decide, blanks, plain, visible,
    (valueOf_eq_empty plain.isRaw).mpr hollow, tree, parsed, lost hollow, ?_⟩
  rw [lost hollow]
  simp

end Tree

end ServiceConfig
