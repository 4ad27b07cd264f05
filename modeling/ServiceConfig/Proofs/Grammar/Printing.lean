import ServiceConfig.Proofs.Grammar.Recognition

/-! # Printed documents obey the rules

With only blanks between the tokens, a printed forest is a script that the rules read as this
forest: the names are words, the quoted values are raw values that stand for what was printed, and
each statement begins with a head. So whatever the layout, its text says the events of the forest.
-/

namespace ServiceConfig.Grammar

open Ascii

/-- The bytes of a value up to the mark that ends it, which `gap` stands before. -/
def rawValue (value? : Option String) (gap : List UInt8) : List UInt8 :=
  value?.elim [] fun value => Token.bytes (.quoted value) ++ gap

theorem RawValue.of_blanks {gap : List UInt8} (blanks : Blanks gap) : RawValue gap := by
  induction gap with
  | nil => exact .nil
  | cons byte gap ih =>
    have blank := blanks byte (List.mem_cons_self ..)
    obtain ⟨notQuote, -⟩ := ordinary_of_isBlank blank
    have rest := ih fun other member => blanks other (.tail _ member)
    exact .byte notQuote (isDelimiter_of_isBlank blank) rest

private theorem rawValue_isRaw (value? : Option String) {gap : List UInt8} (blanks : Blanks gap) :
    RawValue (rawValue value? gap) := by
  cases value? with
  | none => exact .nil
  | some value =>
    have quoted := RawValue.quoted (.of_escapeBytes (Utf8.encode value)) (.of_blanks blanks)
    simpa [rawValue, Token.bytes, encode_escape] using quoted

private theorem expandFrom_inside (bytes rest : List UInt8) :
    expandFrom .inside (escapeBytes bytes ++ quote :: rest) =
      bytes ++ expandFrom .outside rest := by
  induction bytes with
  | nil => rfl
  | cons byte bytes ih =>
    unfold escapeBytes at ih ⊢
    rw [List.flatMap_cons]
    split_ifs with special
    · have same : unescape byte = byte := by rcases special with rfl | rfl <;> rfl
      simp [expandFrom, contribution, Quoting.step, ih, same, show backslash ≠ quote by decide]
    · obtain ⟨notQuote, notBackslash⟩ := not_or.mp special
      simp [expandFrom, contribution, Quoting.step, ih, notQuote, notBackslash]

theorem expandFrom_blanks {gap : List UInt8} (blanks : Blanks gap) :
    expandFrom .outside gap = [] := by
  induction gap with
  | nil => rfl
  | cons byte gap ih =>
    have blank := blanks byte (List.mem_cons_self ..)
    obtain ⟨notQuote, -⟩ := ordinary_of_isBlank blank
    have rest := ih fun other member => blanks other (.tail _ member)
    simp only [expandFrom, contribution, Quoting.step, notQuote, blank, if_true, if_false, rest,
      List.append_nil]
    cases gap with
    | nil => rfl
    | cons next gap => exact if_pos (blanks next (by simp))

private theorem valueOf_rawValue (value? : Option String) {gap : List UInt8} (blanks : Blanks gap) :
    valueOf (rawValue value? gap) = value?.getD "" := by
  cases value? with
  | none => rfl
  | some value =>
    have read : expand (rawValue (some value) gap) = Utf8.encode value := by
      have inside := expandFrom_inside (Utf8.encode value) gap
      rw [expandFrom_blanks blanks, List.append_nil] at inside
      simpa [rawValue, Token.bytes, encode_escape, expand, expandFrom, contribution, Quoting.step]
        using inside
    rw [valueOf, read, Utf8.decodeLenient_encode, Option.getD_some]

theorem Spaced.uncons {Gap : List UInt8 → Prop} {token : Token} {tokens : List Token}
    {text : List UInt8} (spaced : Spaced Gap (token :: tokens) text) :
    ∃ gap rest, text = gap ++ token.bytes ++ rest ∧ Gap gap ∧ token.Separates tokens rest ∧
      Spaced Gap tokens rest := by
  cases spaced with
  | cons before separates later => exact ⟨_, _, rfl, before, separates, later⟩

/-- A value and the mark behind it, after the blanks before them. -/
theorem Spaced.value {value? : Option String} {delimiter : UInt8} {tokens : List Token}
    {text : List UInt8}
    (spaced : Spaced Blanks (valueTokens value? ++ .mark delimiter :: tokens) text) :
    ∃ before after rest, text = before ++ (rawValue value? after ++ delimiter :: rest) ∧
      Blanks before ∧ Blanks after ∧ Spaced Blanks tokens rest := by
  cases value? with
  | none =>
    obtain ⟨before, rest, rfl, blanks, -, later⟩ := spaced.uncons
    exact ⟨before, [], rest, List.append_assoc .., blanks, blanks_nil, later⟩
  | some value =>
    obtain ⟨before, rest, rfl, blanks, -, later⟩ := spaced.uncons
    obtain ⟨after, rest, rfl, blanksAfter, -, later⟩ := later.uncons
    refine ⟨before, after, rest, ?_, blanks, blanksAfter, later⟩
    simp [rawValue, Token.bytes]

theorem IsName.wordByte {name : String} (isName : IsName name) {byte : UInt8}
    (member : byte ∈ Utf8.encode name) : isWordByte byte = true := by
  have apart : ∀ char ∈ reserved, byte.toNat ≠ char.toNat :=
    fun char kept same => isName.notMem char kept same member
  have blank : isBlank byte = false := by
    simp only [isBlank, Bool.or_eq_false_iff, beq_eq_false_iff_ne]
    refine ⟨⟨⟨⟨?_, ?_⟩, ?_⟩, ?_⟩, ?_⟩ <;> rintro rfl
    · exact apart ' ' (by decide) rfl
    · exact apart '\t' (by decide) rfl
    · exact apart '\n' (by decide) rfl
    · exact apart '\x0c' (by decide) rfl
    · exact apart '\r' (by decide) rfl
  have delimiter : isDelimiter byte = false := by
    simp only [isDelimiter, Bool.or_eq_false_iff, beq_eq_false_iff_ne]
    refine ⟨⟨?_, ?_⟩, ?_⟩ <;> rintro rfl
    · exact apart ';' (by decide) rfl
    · exact apart '\x7b' (by decide) rfl
    · exact apart '\x7d' (by decide) rfl
  rw [Grammar.isWordByte, blank, delimiter]
  rfl

theorem IsName.exists_cons {name : String} (isName : IsName name) (named : name ≠ "") :
    ∃ byte bytes, Utf8.encode name = byte :: bytes ∧ isWordByte byte = true ∧ byte ≠ quote := by
  cases encoded : Utf8.encode name with
  | nil =>
    have decoded := Utf8.decodeLenient_encode name
    rw [encoded] at decoded
    exact absurd decoded.symm named
  | cons byte bytes =>
    have member : byte ∈ Utf8.encode name := encoded ▸ List.mem_cons_self ..
    refine ⟨byte, bytes, rfl, isName.wordByte member, ?_⟩
    rintro rfl
    exact isName.notMem '"' (by decide) rfl member

theorem IsName.opensWord {name : String} (isName : IsName name) (named : name ≠ "")
    (more : List UInt8) : StartsWith OpensWord (Utf8.encode name ++ more) := by
  obtain ⟨byte, bytes, encoded, isWord, notQuote⟩ := isName.exists_cons named
  have visible : isBlank byte = false := (Bool.not_eq_true' _).mp (Bool.and_eq_true_iff.mp isWord).1
  refine ⟨byte, bytes ++ more, by rw [encoded, List.cons_append], visible, ?_, ?_⟩
  · rintro rfl
    cases isWord
  · rintro (isQuote | rfl)
    · exact notQuote isQuote
    · cases isWord

/-- A value begins with its quote, or else the brace of the block stands in its place. -/
theorem rawValue_opens {value? : Option String} {delimiter : UInt8}
    (kind : delimiter = openBrace ∨ delimiter = semicolon ∧ value?.isSome) (gap : List UInt8) :
    StartsWith OpensValue (rawValue value? gap ++ [delimiter]) := by
  cases value? with
  | none =>
    obtain rfl : delimiter = openBrace := by simpa using kind
    exact ⟨openBrace, [], rfl, .inr rfl⟩
  | some value => exact ⟨quote, _, rfl, .inl rfl⟩

/-- The word of a name ends before the gap behind it, or before the brace of the block. -/
theorem Token.Separates.ends {name : String} {value? : Option String} {delimiter : UInt8}
    {tokens : List Token} {between gap after : List UInt8}
    (separates : (Token.word name).Separates (valueTokens value? ++ .mark delimiter :: tokens)
      (between ++ (rawValue value? gap ++ delimiter :: after)))
    (kind : delimiter = openBrace ∨ delimiter = semicolon ∧ value?.isSome)
    (blanks : Blanks between) :
    StartsWith (fun byte => isWordByte byte = false)
      (between ++ rawValue value? gap ++ [delimiter]) := by
  cases between with
  | cons blank between =>
    exact ⟨blank, _, rfl, isWordByte_of_isBlank (blanks blank (List.mem_cons_self ..))⟩
  | nil =>
    cases value? with
    | none =>
      obtain rfl : delimiter = openBrace := by simpa using kind
      exact ⟨openBrace, [], rfl, rfl⟩
    | some value =>
      obtain ⟨_, ⟨⟩, blank⟩ := separates
      cases blank

/-- The head of a statement, from its name to the mark that ends it. The name may be missing, and so
may the value of a block. -/
theorem Spaced.head {name : String} {value? : Option String} {delimiter : UInt8}
    {tokens : List Token} {text : List UInt8} (isName : IsName name)
    (kind : delimiter = openBrace ∨ delimiter = semicolon ∧ value?.isSome)
    (spaced : Spaced Blanks
      (nameTokens name ++ valueTokens value? ++ .mark delimiter :: tokens) text) :
    ∃ before bytes raw head after, text = before ++ head ++ after ∧ Blanks before ∧
      Head delimiter bytes raw head ∧ Utf8.decodeLenient bytes = name ∧
      valueOf raw = value?.getD "" ∧ Spaced Blanks tokens after := by
  by_cases nameless : name = ""
  · subst nameless
    obtain ⟨before, gap, after, rfl, blanks, blanksAfter, later⟩ := spaced.value
    have head := Head.bare (rawValue_isRaw value? blanksAfter) (rawValue_opens kind gap)
    exact ⟨before, [], _, _, after, by simp, blanks, head, rfl,
      valueOf_rawValue value? blanksAfter, later⟩
  · rw [nameTokens, if_neg nameless] at spaced
    obtain ⟨before, text, rfl, blanks, separates, later⟩ := spaced.uncons
    obtain ⟨between, gap, after, rfl, blanksBetween, blanksAfter, later⟩ := later.value
    have opens := isName.opensWord nameless (between ++ rawValue value? gap ++ [delimiter])
    have valued : StartsWith (fun byte => isBlank byte = false ∧ byte ≠ semicolon)
        (rawValue value? gap ++ [delimiter]) := by
      obtain ⟨byte, rest, starts, rfl | rfl⟩ := rawValue_opens kind gap
      · exact ⟨quote, rest, starts, rfl, by decide⟩
      · exact ⟨openBrace, rest, starts, rfl, by decide⟩
    rw [← List.append_assoc, ← List.append_assoc] at opens
    have head := Head.named (rawValue_isRaw value? blanksAfter) opens (fun _ => isName.wordByte)
      (separates.ends kind blanksBetween) blanksBetween valued
    exact ⟨before, _, _, _, after, by simp [Token.bytes], blanks, head,
      Utf8.decodeLenient_encode name, valueOf_rawValue value? blanksAfter, later⟩

theorem Forest.consLeaf_eq {name value : String} (valued : name ≠ "" → value ≠ "") (rest : Forest) :
    consLeaf name value rest = leaf name value rest := by
  unfold consLeaf
  split_ifs with empty
  · have name_eq : name = "" := by
      by_contra named
      exact valued named empty
    rw [name_eq, empty]
  · rfl

theorem Forest.consBlock_eq {name : String} {value? : Option String} (filled : value? ≠ some "")
    (below rest : Forest) :
    consBlock name (value?.getD "") below rest = block name value? below rest := by
  cases value? with
  | none => rfl
  | some value =>
    have nonempty : value ≠ "" := fun empty => filled (congrArg some empty)
    rw [Option.getD_some, consBlock, if_neg nonempty]

theorem Reads.append_blanks {text gap : List UInt8} {forest : Forest} (reads : Reads text forest)
    (blanks : Blanks gap) : Reads (text ++ gap) forest := by
  induction reads with
  | nil before => exact .nil (blanks_append before blanks)
  | @leaf gap name raw head text rest before begins _ ih =>
    have whole := Reads.leaf before begins ih
    rwa [← List.append_assoc] at whole
  | @block gap name raw head inner gapEnd text below rest before begins inside blanksEnd _ _ ih =>
    have whole := Reads.block before begins inside blanksEnd ih
    simpa using whole

/-- A printed forest with only blanks between its tokens reads as this forest. -/
theorem Spaced.reads {forest : Forest} (printable : forest.Printable) {tokens : List Token}
    {text : List UInt8} (spaced : Spaced Blanks (forest.tokens ++ tokens) text) :
    ∃ script after, text = script ++ after ∧ Reads script forest ∧ Spaced Blanks tokens after := by
  induction forest generalizing tokens text with
  | nil => exact ⟨[], text, rfl, .nil blanks_nil, spaced⟩
  | leaf name value rest ih =>
    obtain ⟨isName, -, valued, printable⟩ := printable
    rw [Forest.tokens, List.append_assoc, List.cons_append] at spaced
    obtain ⟨before, bytes, raw, head, after, rfl, blanks, begins, name_eq, value_eq, later⟩ :=
      spaced.head isName (.inr ⟨rfl, rfl⟩)
    obtain ⟨script, rest, rfl, reads, later⟩ := ih printable later
    have whole := Reads.leaf blanks begins reads
    rw [name_eq, value_eq, Option.getD_some, Forest.consLeaf_eq valued] at whole
    exact ⟨_, rest, by simp, whole, later⟩
  | block name value? below rest ihBelow ih =>
    obtain ⟨isName, filled, printableBelow, printable⟩ := printable
    have tokens_eq : (Forest.block name value? below rest).tokens ++ tokens =
        nameTokens name ++ valueTokens value? ++ .mark openBrace :: (below.tokens ++
          .mark closeBrace :: .mark semicolon :: (rest.tokens ++ tokens)) := by
      simp [Forest.tokens]
    rw [tokens_eq] at spaced
    obtain ⟨before, bytes, raw, head, after, rfl, blanks, begins, name_eq, value_eq, later⟩ :=
      spaced.head isName (.inl rfl)
    obtain ⟨inner, after, rfl, inside, later⟩ := ihBelow printableBelow later
    obtain ⟨gap, after, rfl, blanksInside, -, later⟩ := later.uncons
    obtain ⟨gapEnd, after, rfl, blanksEnd, -, later⟩ := later.uncons
    obtain ⟨script, after, rfl, reads, later⟩ := ih printable later
    have whole := Reads.block blanks begins (inside.append_blanks blanksInside) blanksEnd reads
    rw [name_eq, value_eq, Forest.consBlock_eq filled] at whole
    exact ⟨_, after, by simp [Token.bytes], whole, later⟩

/-- What a printed forest says are its events, and nothing is wrong with it. -/
theorem Forest.ofText {forest : Forest} (printable : forest.Printable) {text : List UInt8}
    (spaced : Spaced Layout forest.tokens text) :
    ∃ statements, Script.ofText text = ⟨statements, none⟩ ∧
      statements.map Statement.event = forest.events := by
  obtain ⟨clean, stripped, cleaned⟩ := spaced.strip (forest.passes printable)
  rw [← List.append_nil forest.tokens] at cleaned
  obtain ⟨script, gap, rfl, reads, ended⟩ := cleaned.reads printable
  cases ended with
  | nil blanks =>
    obtain ⟨statements, events, scanned⟩ :=
      Script.scan_eq_of_reads (reads.append_blanks blanks) 1
    refine ⟨statements, ?_, events⟩
    rw [Script.ofText, stripped]
    exact scanned

end ServiceConfig.Grammar
