import ServiceConfig.Proofs.Grammar.Origin
import ServiceConfig.Proofs.Text.Validity

/-! # Names and values of valid texts

The grammar looks at bytes one by one, and only ASCII bytes mean something to it. So what it does to
one byte of a character that is not ASCII, it does to all of them: the stripper keeps or leaves out
the whole character, and a backslash that protects the first byte protects the character. The
scanner cuts next to ASCII bytes only. Hence whatever it takes for a name or a value of a valid text
is valid, and reading it as characters puts in no replacement character.
-/

namespace ServiceConfig.Grammar

open Ascii

section

variable {byte : UInt8}

private theorem ne_of_high {mark : UInt8} (high : 128 ≤ byte.toNat) (ascii : mark.toNat < 128) :
    byte ≠ mark := by
  rintro rfl
  omega

theorem ascii_of_isBlank (blank : isBlank byte = true) : byte.toNat < 128 := by
  simp only [isBlank, Bool.or_eq_true, beq_iff_eq] at blank
  rcases blank with (((rfl | rfl) | rfl) | rfl) | rfl <;> decide

theorem ascii_of_isDelimiter (delimits : isDelimiter byte = true) : byte.toNat < 128 := by
  simp only [isDelimiter, Bool.or_eq_true, beq_iff_eq] at delimits
  rcases delimits with (rfl | rfl) | rfl <;> decide

theorem ascii_of_not_isWordByte (ends : isWordByte byte = false) : byte.toNat < 128 := by
  simp only [isWordByte, Bool.and_eq_false_iff, Bool.not_eq_false'] at ends
  exact ends.elim ascii_of_isBlank ascii_of_isDelimiter

end

/-- Outside comments, ordinary bytes are kept. -/
def Mode.shows : Mode → Bool
  | .lineComment | .block _ | .blockStar _ => false
  | .plain | .held | .plainEscape | .quoted _ | .quotedEscape _ => true

section

variable {byte : UInt8} (mode : Mode)

theorem Mode.keeps_high (high : 128 ≤ byte.toNat) (rest : List UInt8) :
    mode.keeps byte rest = mode.shows := by
  have apart : byte ≠ newline ∧ byte ≠ hash ∧ byte ≠ slash ∧ byte ≠ star := by
    refine ⟨?_, ?_, ?_, ?_⟩ <;> exact ne_of_high high (by decide)
  cases mode <;> simp [keeps, shows, apart]

theorem Mode.shows_stepMode (high : 128 ≤ byte.toNat) (line : Nat) :
    (Stripper.stepMode mode line byte).1.shows = mode.shows := by
  have plain : (Stripper.plainStep line byte).1 = .plain := by
    rw [Stripper.plainStep, if_neg (ne_of_high high (by decide)),
      if_neg (ne_of_high high (by decide)), if_neg (ne_of_high high (by decide)),
      if_neg (ne_of_high high (by decide))]
  have apart : byte ≠ newline ∧ byte ≠ quote ∧ byte ≠ backslash ∧ byte ≠ slash ∧ byte ≠ star := by
    refine ⟨?_, ?_, ?_, ?_, ?_⟩ <;> exact ne_of_high high (by decide)
  cases mode <;> simp [Stripper.stepMode, plain, shows, apart]

end

/-- Bytes of one character are kept or left out together. -/
theorem Stripper.kept_trace_high {bytes : List UInt8} (high : ∀ byte ∈ bytes, 128 ≤ byte.toNat)
    (state : Stripper) (rest : List UInt8) :
    ∃ next : Stripper, kept (state.trace (bytes ++ rest)) =
      (if state.mode.shows then bytes else []) ++ kept (next.trace rest) := by
  induction bytes generalizing state with
  | nil => exact ⟨state, by rw [ite_self]; rfl⟩
  | cons byte bytes ih =>
    have first := high byte (List.mem_cons_self ..)
    obtain ⟨next, later⟩ := ih (fun byte member => high byte (List.mem_cons_of_mem _ member))
      (state.step byte).1
    have shows : (state.step byte).1.mode.shows = state.mode.shows :=
      state.mode.shows_stepMode first state.line
    refine ⟨next, ?_⟩
    rw [List.cons_append, trace, ← List.singleton_append, kept_append, later, shows,
      state.mode.keeps_high first]
    cases state.mode.shows <;> rfl

/-- The characters that are kept are the script. -/
theorem Stripper.exists_kept_chars (state : Stripper) (chars : List Char) :
    ∃ script, kept (state.trace (Utf8.encodeChars chars)) = Utf8.encodeChars script ∧
      script.Sublist chars := by
  induction chars generalizing state with
  | nil => exact ⟨[], rfl, .slnil⟩
  | cons char chars ih =>
    obtain ⟨next, shows, whole⟩ : ∃ (next : Stripper) (shows : Bool),
        kept (state.trace (Utf8.encodeChars (char :: chars))) =
          (if shows then String.utf8EncodeChar char else []) ++
            kept (next.trace (Utf8.encodeChars chars)) := by
      rw [Utf8.encodeChars_cons]
      rcases Utf8.ascii_or_high char with ⟨byte, ascii, rfl⟩ | high
      · refine ⟨(state.step byte).1, state.mode.keeps byte (Utf8.encodeChars chars), ?_⟩
        rw [Utf8.encodeChar_one ascii, List.singleton_append, trace, ← List.singleton_append,
          kept_append]
        cases state.mode.keeps byte (Utf8.encodeChars chars) <;> rfl
      · obtain ⟨next, whole⟩ := state.kept_trace_high high (Utf8.encodeChars chars)
        exact ⟨next, state.mode.shows, whole⟩
    obtain ⟨script, later, sublist⟩ := ih next
    rw [whole, later]
    cases shows with
    | true => exact ⟨char :: script, rfl, sublist.cons_cons char⟩
    | false => exact ⟨script, rfl, sublist.cons char⟩

theorem strip_chars {chars : List Char} {source : List UInt8}
    (stripped : strip (Utf8.encodeChars chars) = .ok source) :
    ∃ script, source = Utf8.encodeChars script ∧ script.Sublist chars := by
  rw [← kept_trace stripped]
  exact Stripper.initial.exists_kept_chars chars

/-- The characters that separate words. -/
def blankChars : List Char := [' ', '\t', '\n', '\x0c', '\r']

/-- The letters behind a backslash, and the control characters that they stand for. -/
def controls : List (Char × Char) :=
  [('a', '\x07'), ('b', '\x08'), ('f', '\x0c'), ('n', '\n'), ('r', '\r'), ('t', '\t'),
    ('v', '\x0b')]

/-- What a value takes from a part of a script: its characters in their order, but for quotes,
backslashes and blanks, where a blank may become a space and an escape a control character. -/
inductive Drawn : (part said : List Char) → Prop
  | nil : Drawn [] []
  | keep (char : Char) {part said : List Char} (later : Drawn part said) :
    Drawn (char :: part) (char :: said)
  | leave {char : Char} {part said : List Char} (passes : char ∈ '"' :: '\\' :: blankChars)
    (later : Drawn part said) : Drawn (char :: part) said
  | collapse {char : Char} {part said : List Char} (blank : char ∈ blankChars)
    (later : Drawn part said) : Drawn (char :: part) (' ' :: said)
  | escape {letter control : Char} {part said : List Char} (known : (letter, control) ∈ controls)
    (later : Drawn part said) : Drawn ('\\' :: letter :: part) (control :: said)

theorem Drawn.refl (chars : List Char) : Drawn chars chars := by
  induction chars with
  | nil => exact .nil
  | cons char chars ih => exact .keep char ih

section

variable {byte : UInt8}

private theorem mem_blankChars (blank : isBlank byte = true) :
    Char.ofNat byte.toNat ∈ blankChars := by
  simp only [isBlank, Bool.or_eq_true, beq_iff_eq] at blank
  rcases blank with (((rfl | rfl) | rfl) | rfl) | rfl <;> decide

/-- A byte behind a backslash stands for itself or for a control character. -/
theorem unescape_eq_or (byte : UInt8) :
    unescape byte = byte ∨ byte.toNat < 128 ∧ (unescape byte).toNat < 128 ∧
      (Char.ofNat byte.toNat, Char.ofNat (unescape byte).toNat) ∈ controls := by
  unfold unescape
  split_ifs
  case neg => exact .inl rfl
  all_goals
    subst byte
    exact .inr (by decide)

theorem contribution_outside (notQuote : byte ≠ quote) (visible : ¬ isBlank byte = true)
    (rest : List UInt8) : contribution .outside byte rest = [byte] := by
  cases rest <;> rw [contribution, if_neg notQuote, if_neg visible]

private theorem contribution_high (high : 128 ≤ byte.toNat) (quoting : Quoting)
    (rest : List UInt8) :
    contribution quoting byte rest = [byte] := by
  cases quoting with
  | outside =>
    refine contribution_outside (ne_of_high high (by decide)) (fun blank => ?_) rest
    have ascii := ascii_of_isBlank blank
    omega
  | inside =>
    rw [contribution, if_neg (ne_of_high high (by decide)), if_neg (ne_of_high high (by decide))]
  | escaped =>
    rcases unescape_eq_or byte with same | ⟨ascii, -⟩
    · exact congrArg ([·]) same
    · omega

theorem Quoting.step_high (high : 128 ≤ byte.toNat) (quoting : Quoting) :
    quoting.step byte ≠ .escaped := by
  cases quoting <;> rw [step]
  · split_ifs <;> decide
  · rw [if_neg (ne_of_high high (by decide)), if_neg (ne_of_high high (by decide))]
    decide
  · decide

end

/-- Bytes of one character that is not ASCII are taken as they are, and none of them is protected
behind it. -/
theorem expandFrom_high {bytes : List UInt8} (high : ∀ byte ∈ bytes, 128 ≤ byte.toNat)
    (nonempty : bytes ≠ []) (quoting : Quoting) (rest : List UInt8) :
    ∃ next, next ≠ .escaped ∧
      expandFrom quoting (bytes ++ rest) = bytes ++ expandFrom next rest := by
  induction bytes generalizing quoting with
  | nil => exact absurd rfl nonempty
  | cons byte bytes ih =>
    have first := high byte (List.mem_cons_self ..)
    rw [List.cons_append, expandFrom, contribution_high first]
    cases bytes with
    | nil => exact ⟨quoting.step byte, quoting.step_high first, rfl⟩
    | cons second bytes =>
      obtain ⟨next, free, later⟩ := ih
        (fun byte member => high byte (List.mem_cons_of_mem _ member)) (List.cons_ne_nil _ _)
        (quoting.step byte)
      exact ⟨next, free, by rw [later]; rfl⟩

/-- The backslash in front of what is read, if it protects its first character. -/
def Quoting.pending : Quoting → List Char
  | .outside | .inside => []
  | .escaped => ['\\']

theorem Quoting.pending_eq_nil {quoting : Quoting} (free : quoting ≠ .escaped) :
    quoting.pending = [] := by
  cases quoting with
  | outside | inside => rfl
  | escaped => exact absurd rfl free

/-- The backslash may be left out. -/
theorem Drawn.pending {part said : List Char} (drawn : Drawn part said) (quoting : Quoting) :
    Drawn (quoting.pending ++ part) said := by
  cases quoting with
  | outside | inside => exact drawn
  | escaped => exact .leave (by decide) drawn

private theorem contribution_blank {byte : UInt8} (blank : isBlank byte = true)
    (rest : List UInt8) :
    contribution .outside byte rest = [] ∨ contribution .outside byte rest = [space] := by
  have notQuote : byte ≠ quote := by
    rintro rfl
    cases blank
  cases rest with
  | nil => exact .inl (by rw [contribution, if_neg notQuote, if_pos blank])
  | cons next rest =>
    rw [contribution, if_neg notQuote, if_pos blank]
    cases isBlank next
    · exact .inr rfl
    · exact .inl rfl

/-- What is said of a part of a value, from a place with this quoting on. -/
def Quoting.Says (quoting : Quoting) (part said : List Char) : Prop :=
  expandFrom quoting (Utf8.encodeChars part) = Utf8.encodeChars said ∧
    Drawn (quoting.pending ++ part) said

section

variable {byte : UInt8} {part said : List Char}

theorem Quoting.Says.of_contribution {quoting : Quoting}
    (later : (quoting.step byte).Says part said) (ascii : byte.toNat < 128) (front : List Char)
    (taken : contribution quoting byte (Utf8.encodeChars part) = Utf8.encodeChars front)
    (drawn : Drawn (quoting.pending ++ Char.ofNat byte.toNat :: part) (front ++ said)) :
    quoting.Says (Char.ofNat byte.toNat :: part) (front ++ said) := by
  refine ⟨?_, drawn⟩
  rw [Utf8.encodeChars_cons, Utf8.encodeChar_one ascii, List.singleton_append, expandFrom, taken,
    later.1, Utf8.encodeChars_append]

private theorem encodeChars_ascii (ascii : byte.toNat < 128) :
    Utf8.encodeChars [Char.ofNat byte.toNat] = [byte] := by
  rw [Utf8.encodeChars_cons, Utf8.encodeChar_one ascii]
  rfl

theorem Quoting.Says.outside (ascii : byte.toNat < 128)
    (later : (Quoting.outside.step byte).Says part said) :
    ∃ more, Quoting.outside.Says (Char.ofNat byte.toNat :: part) more := by
  have drawn : Drawn part said := by
    have free : Quoting.outside.step byte ≠ .escaped := by
      rw [step]
      split_ifs <;> decide
    have drawn := later.2
    rwa [pending_eq_nil free] at drawn
  by_cases isQuote : byte = quote
  · subst isQuote
    exact ⟨_, later.of_contribution ascii [] rfl (.leave (by decide) drawn)⟩
  · by_cases blank : isBlank byte = true
    · have member := mem_blankChars blank
      rcases contribution_blank blank (Utf8.encodeChars part) with none | one
      · have passes := List.mem_cons_of_mem '"' (List.mem_cons_of_mem '\\' member)
        exact ⟨_, later.of_contribution ascii [] none (.leave passes drawn)⟩
      · exact ⟨_, later.of_contribution ascii [' '] one (.collapse member drawn)⟩
    · refine ⟨_, later.of_contribution ascii [Char.ofNat byte.toNat] ?_
        (.keep _ drawn)⟩
      rw [encodeChars_ascii ascii, contribution_outside isQuote blank]

theorem Quoting.Says.inside (ascii : byte.toNat < 128)
    (later : (Quoting.inside.step byte).Says part said) :
    ∃ more, Quoting.inside.Says (Char.ofNat byte.toNat :: part) more := by
  have ⟨expanded, drawn⟩ := later
  by_cases isQuote : byte = quote
  · subst isQuote
    exact ⟨_, later.of_contribution ascii [] rfl (.leave (by decide) drawn)⟩
  · by_cases isBackslash : byte = backslash
    · subst isBackslash
      cases part with
      | nil =>
        -- the value ends behind the backslash
        obtain rfl := Utf8.encodeChars_eq_nil expanded.symm
        exact ⟨_, later.of_contribution ascii ['\\'] rfl (.refl ['\\'])⟩
      | cons char part =>
        refine ⟨_, later.of_contribution ascii [] ?_ drawn⟩
        have filled : (Utf8.encodeChars (char :: part)).isEmpty = false := by
          rw [List.isEmpty_eq_false_iff]
          exact fun empty => List.cons_ne_nil _ _ (Utf8.encodeChars_eq_nil empty)
        rw [contribution, if_neg isQuote, if_pos rfl, filled]
        rfl
    · refine ⟨_, later.of_contribution ascii [Char.ofNat byte.toNat] ?_ (.keep _ ?_)⟩
      · rw [encodeChars_ascii ascii, contribution, if_neg isQuote, if_neg isBackslash]
      · rwa [step, if_neg isQuote, if_neg isBackslash] at drawn

theorem Quoting.Says.escaped (ascii : byte.toNat < 128)
    (later : (Quoting.escaped.step byte).Says part said) :
    ∃ more, Quoting.escaped.Says (Char.ofNat byte.toNat :: part) more := by
  rcases unescape_eq_or byte with same | ⟨-, control, known⟩
  · refine ⟨_, later.of_contribution ascii [Char.ofNat byte.toNat] ?_
      (.leave (by decide) (.keep _ later.2))⟩
    rw [encodeChars_ascii ascii]
    exact congrArg ([·]) same
  · exact ⟨_, later.of_contribution ascii [Char.ofNat (unescape byte).toNat]
      (encodeChars_ascii control).symm (.escape known later.2)⟩

end

/-- Of the characters of a raw value, the value says some in their order. -/
theorem Quoting.exists_says (quoting : Quoting) (part : List Char) :
    ∃ said, quoting.Says part said := by
  induction part generalizing quoting with
  | nil => exact ⟨[], rfl, Drawn.nil.pending quoting⟩
  | cons char part ih =>
    rcases Utf8.ascii_or_high char with ⟨byte, ascii, rfl⟩ | high
    · obtain ⟨said, later⟩ := ih (quoting.step byte)
      cases quoting with
      | outside => exact later.outside ascii
      | inside => exact later.inside ascii
      | escaped => exact later.escaped ascii
    · obtain ⟨next, free, taken⟩ := expandFrom_high high String.utf8EncodeChar_ne_nil quoting
        (Utf8.encodeChars part)
      obtain ⟨said, expanded, drawn⟩ := ih next
      rw [pending_eq_nil free] at drawn
      refine ⟨char :: said, ?_, (drawn.keep char).pending quoting⟩
      rw [Utf8.encodeChars_cons, taken, expanded, Utf8.encodeChars_cons]

theorem exists_expand (part : List Char) :
    ∃ said, expand (Utf8.encodeChars part) = Utf8.encodeChars said ∧ Drawn part said :=
  Quoting.outside.exists_says part

end ServiceConfig.Grammar
