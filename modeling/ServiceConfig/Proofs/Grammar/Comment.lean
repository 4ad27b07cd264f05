import ServiceConfig.Proofs.Grammar.Rules

/-! # Stripping printed documents

Tokens pass the stripper as they are, and of a comment it leaves the line ends, so between tokens
there are only blanks. A printed document without its comments is the same tokens again, with blanks
around them.
-/

namespace ServiceConfig.Grammar

open Ascii

theorem Stripper.run_append (state : Stripper) (first second : List UInt8) :
    state.run (first ++ second) =
      (((state.run first).1.run second).1,
        (state.run first).2 ++ ((state.run first).1.run second).2) := by
  induction first generalizing state with
  | nil => rfl
  | cons byte first ih => simp only [List.cons_append, run, ih, List.append_assoc]

/-- Read from ordinary text and back to ordinary text, `text` leaves `clean`. -/
def Cleans (text clean : List UInt8) : Prop :=
  ∀ line, ∃ after, Stripper.run ⟨.plain, line⟩ text = (⟨.plain, after⟩, clean)

theorem Cleans.append {first second former latter : List UInt8} (cleans : Cleans first former)
    (later : Cleans second latter) : Cleans (first ++ second) (former ++ latter) := by
  intro line
  obtain ⟨middle, ran⟩ := cleans line
  obtain ⟨after, ranLater⟩ := later middle
  exact ⟨after, by rw [Stripper.run_append, ran, ranLater]⟩

theorem Cleans.strip {text clean : List UInt8} (cleans : Cleans text clean) :
    strip text = .ok clean := by
  obtain ⟨after, ran⟩ := cleans 1
  rw [Grammar.strip, Stripper.initial, ran]
  exact congrArg Except.ok (List.append_nil clean)

/-- The bytes that the stripper passes in ordinary text without a change of mode. -/
def Ordinary (byte : UInt8) : Prop :=
  byte ≠ quote ∧ byte ≠ backslash ∧ byte ≠ hash ∧ byte ≠ slash

instance (byte : UInt8) : Decidable (Ordinary byte) :=
  inferInstanceAs (Decidable (byte ≠ quote ∧ byte ≠ backslash ∧ byte ≠ hash ∧ byte ≠ slash))

private theorem run_ordinary {byte : UInt8} (ordinary : Ordinary byte) (line : Nat)
    (rest : List UInt8) :
    ∃ next, Stripper.run ⟨.plain, line⟩ (byte :: rest) =
      ((Stripper.run ⟨.plain, next⟩ rest).1, byte :: (Stripper.run ⟨.plain, next⟩ rest).2) := by
  obtain ⟨notQuote, notBackslash, notHash, notSlash⟩ := ordinary
  refine ⟨if byte = newline then line + 1 else line, ?_⟩
  simp [Stripper.run, Stripper.step, Stripper.stepMode, Stripper.plainStep, notQuote, notBackslash,
    notHash, notSlash]

theorem cleans_ordinary {bytes : List UInt8} (ordinary : ∀ byte ∈ bytes, Ordinary byte) :
    Cleans bytes bytes := by
  induction bytes with
  | nil => exact fun line => ⟨line, rfl⟩
  | cons byte bytes ih =>
    intro line
    obtain ⟨next, ran⟩ := run_ordinary (ordinary byte (List.mem_cons_self ..)) line bytes
    obtain ⟨after, ranRest⟩ := ih (fun other member => ordinary other (.tail _ member)) next
    exact ⟨after, by rw [ran, ranRest]⟩

theorem ordinary_of_isBlank {byte : UInt8} (blank : isBlank byte = true) : Ordinary byte := by
  refine ⟨?_, ?_, ?_, ?_⟩ <;> rintro rfl <;> exact absurd blank (by decide)

/-- Inside quotes everything is kept, up to the quote that is not escaped. -/
theorem run_quotation {part : List UInt8} (quotation : Quotation part) (began line : Nat) :
    ∃ after, Stripper.run ⟨.quoted began, line⟩ part = (⟨.plain, after⟩, part) := by
  induction quotation generalizing line with
  | close => exact ⟨line, rfl⟩
  | @byte byte rest notQuote notBackslash _ ih =>
    obtain ⟨after, ran⟩ := ih (if byte = newline then line + 1 else line)
    refine ⟨after, ?_⟩
    simp [Stripper.run, Stripper.step, Stripper.stepMode, ran, notQuote, notBackslash]
  | @guarded byte rest _ ih =>
    obtain ⟨after, ran⟩ := ih (if byte = newline then line + 1 else line)
    refine ⟨after, ?_⟩
    simp [Stripper.run, Stripper.step, Stripper.stepMode, ran, show backslash ≠ quote by decide,
      show backslash ≠ newline by decide]

theorem cleans_quoted {part : List UInt8} (quotation : Quotation part) :
    Cleans (quote :: part) (quote :: part) := by
  intro line
  obtain ⟨after, ran⟩ := run_quotation quotation line line
  refine ⟨after, ?_⟩
  simp [Stripper.run, Stripper.step, Stripper.stepMode, Stripper.plainStep, ran,
    show quote ≠ newline by decide]

theorem blanks_append {first second : List UInt8} (former : Blanks first) (latter : Blanks second) :
    Blanks (first ++ second) := fun byte member =>
  (List.mem_append.mp member).elim (former byte) (latter byte)

/-- Read in this mode, `text` leads back to ordinary text and leaves only blanks. -/
def Ends (mode : Mode) (text : List UInt8) : Prop :=
  ∀ line, ∃ after kept, Stripper.run ⟨mode, line⟩ text = (⟨.plain, after⟩, kept) ∧ Blanks kept

theorem Ends.step {mode next : Mode} {byte : UInt8} {kept rest : List UInt8} (ends : Ends next rest)
    (stepped : ∀ line, Stripper.stepMode mode line byte = (next, kept)) (blanks : Blanks kept) :
    Ends mode (byte :: rest) := by
  intro line
  obtain ⟨after, more, ran, blanksAfter⟩ := ends (if byte = newline then line + 1 else line)
  refine ⟨after, kept ++ more, ?_, blanks_append blanks blanksAfter⟩
  simp only [Stripper.run, Stripper.step, stepped, ran]

theorem Ends.append {mode : Mode} {text more : List UInt8} (ends : Ends mode text)
    (later : Ends .plain more) : Ends mode (text ++ more) := by
  intro line
  obtain ⟨middle, kept, ran, blanks⟩ := ends line
  obtain ⟨after, keptAfter, ranAfter, blanksAfter⟩ := later middle
  refine ⟨after, kept ++ keptAfter, ?_, blanks_append blanks blanksAfter⟩
  rw [Stripper.run_append, ran, ranAfter]

private theorem ends_nil : Ends .plain [] := fun line => ⟨line, [], rfl, by simp [Blanks]⟩

theorem blanks_nil : Blanks [] := by simp [Blanks]

theorem blanks_newline : Blanks [newline] := by simp [Blanks, isBlank]

/-- The line ends of a text and nothing else. -/
def lineEnds (text : List UInt8) : List UInt8 := text.filter (· = newline)

/-- Read in this mode, `text` leads back to ordinary text and leaves its line ends. -/
def Vanishes (mode : Mode) (text : List UInt8) : Prop :=
  ∀ line, ∃ after, Stripper.run ⟨mode, line⟩ text = (⟨.plain, after⟩, lineEnds text)

private theorem blanks_lineEnds (text : List UInt8) : Blanks (lineEnds text) := by
  intro byte member
  obtain ⟨-, isNewline⟩ := List.mem_filter.mp member
  rw [of_decide_eq_true isNewline]
  rfl

theorem Vanishes.ends {mode : Mode} {text : List UInt8} (vanishes : Vanishes mode text) :
    Ends mode text := by
  intro line
  obtain ⟨after, ran⟩ := vanishes line
  exact ⟨after, lineEnds text, ran, blanks_lineEnds text⟩

private theorem vanishes_nil : Vanishes .plain [] := fun line => ⟨line, rfl⟩

theorem Vanishes.stepOn {mode : Mode} {next : Nat → Mode} {byte : UInt8} {rest : List UInt8}
    (vanishes : ∀ began, Vanishes (next began) rest)
    (stepped : ∀ line, Stripper.stepMode mode line byte = (next line, lineEnds [byte])) :
    Vanishes mode (byte :: rest) := by
  intro line
  obtain ⟨after, ran⟩ := vanishes line (if byte = newline then line + 1 else line)
  refine ⟨after, ?_⟩
  have whole : lineEnds (byte :: rest) = lineEnds [byte] ++ lineEnds rest :=
    List.filter_append [byte] rest
  simp only [Stripper.run, Stripper.step, stepped, ran, whole]

theorem Vanishes.step {mode next : Mode} {byte : UInt8} {rest : List UInt8}
    (vanishes : Vanishes next rest)
    (stepped : ∀ line, Stripper.stepMode mode line byte = (next, lineEnds [byte])) :
    Vanishes mode (byte :: rest) := .stepOn (fun _ => vanishes) stepped

private theorem lineEnds_other {byte : UInt8} (other : byte ≠ newline) : lineEnds [byte] = [] :=
  List.filter_eq_nil_iff.mpr (by simpa using other)

private theorem vanishes_lineComment {body : List UInt8} (oneLine : newline ∉ body) :
    Vanishes .lineComment (body ++ [newline]) := by
  induction body with
  | nil => exact vanishes_nil.step fun _ => rfl
  | cons byte body ih =>
    obtain ⟨notNewline, oneLine⟩ := not_or.mp (mt List.mem_cons.mpr oneLine)
    apply (ih oneLine).step
    intro _
    rw [lineEnds_other (Ne.symm notNewline)]
    exact if_neg (Ne.symm notNewline)

private theorem not_infix_tail {byte : UInt8} {mark bytes : List UInt8}
    (apart : ¬ mark <:+: byte :: bytes) : ¬ mark <:+: bytes :=
  fun within => apart (within.trans (List.suffix_cons byte bytes).isInfix)

/-- A block comment ends at its first end mark. After a star the mark is half read. -/
theorem vanishes_block (body : List UInt8) (began : Nat) :
    (¬ [star, slash] <:+: body → Vanishes (.block began) (body ++ [star, slash])) ∧
      (¬ [star, slash] <:+: star :: body →
        Vanishes (.blockStar began) (body ++ [star, slash])) := by
  induction body with
  | nil =>
    have closed : Vanishes (.blockStar began) [slash] := vanishes_nil.step fun _ => rfl
    exact ⟨fun _ => closed.step fun _ => rfl, fun _ => closed.step fun _ => rfl⟩
  | cons byte body ih =>
    obtain ⟨inBlock, afterStar⟩ := ih
    by_cases isNewline : byte = newline
    · subst isNewline
      refine ⟨fun unended => (inBlock (not_infix_tail unended)).step fun _ => rfl,
        fun unended => ?_⟩
      exact (inBlock (not_infix_tail (not_infix_tail unended))).step fun _ => rfl
    by_cases isStar : byte = star
    · subst isStar
      refine ⟨fun unended => (afterStar unended).step fun _ => rfl, fun unended => ?_⟩
      exact (afterStar (not_infix_tail unended)).step fun _ => rfl
    have none := lineEnds_other isNewline
    refine ⟨fun unended => ?_, fun unended => ?_⟩
    · apply (inBlock (not_infix_tail unended)).step
      simp [Stripper.stepMode, isNewline, isStar, none]
    · have notSlash : byte ≠ slash := by
        rintro rfl
        exact unended ⟨[], body, rfl⟩
      apply (inBlock (not_infix_tail (not_infix_tail unended))).step
      simp [Stripper.stepMode, isNewline, isStar, notSlash, none]

/-- A comment by what it says. -/
inductive Comment
  | block (body : List UInt8)
  | hash (body : List UInt8)
  | slashes (body : List UInt8)
  deriving DecidableEq, Repr

namespace Comment

/-- The comment as it is written, up to its end mark or the end of its line. -/
def text : Comment → List UInt8
  | .block body => slash :: star :: body ++ [star, slash]
  | .hash body => Ascii.hash :: body ++ [newline]
  | .slashes body => slash :: slash :: body ++ [newline]

/-- What a comment says does not end it. -/
def Complete : Comment → Prop
  | .block body => ¬ [star, slash] <:+: body
  | .hash body | .slashes body => newline ∉ body

/-- What is left of a comment. -/
def worth : Comment → List UInt8
  | .block body => lineEnds body
  | .hash _ | .slashes _ => [newline]

end Comment

theorem Comment.Complete.vanishes {comment : Comment} (complete : comment.Complete) :
    Vanishes .plain comment.text := by
  cases comment with
  | block body =>
    have inside : Vanishes .held (star :: (body ++ [star, slash])) :=
      .stepOn (fun began => (vanishes_block body began).1 complete) fun _ => rfl
    exact inside.step fun _ => rfl
  | hash body => exact (vanishes_lineComment complete).step fun _ => rfl
  | slashes body =>
    have inside : Vanishes .held (slash :: (body ++ [newline])) :=
      (vanishes_lineComment complete).step fun _ => rfl
    exact inside.step fun _ => rfl

theorem Comment.Complete.worth_eq {comment : Comment} (complete : comment.Complete) :
    comment.worth = lineEnds comment.text := by
  have oneLine {body : List UInt8} (complete : newline ∉ body) :
      lineEnds (body ++ [newline]) = [newline] := by
    rw [lineEnds, List.filter_append, List.filter_eq_nil_iff.mpr]
    · rfl
    · rintro byte member isNewline
      exact complete (of_decide_eq_true isNewline ▸ member)
  cases comment with
  | block body =>
    have ended : lineEnds (body ++ [star, slash]) = lineEnds body ++ lineEnds [star, slash] :=
      List.filter_append ..
    exact ((List.append_nil _).symm.trans ended.symm)
  | hash body => exact (oneLine complete).symm
  | slashes body => exact (oneLine complete).symm

theorem Layout.ends {gap : List UInt8} (layout : Layout gap) : Ends .plain gap := by
  have commented (comment : Comment) {more : List UInt8} (complete : comment.Complete)
      (later : Ends .plain more) : Ends .plain (comment.text ++ more) :=
    complete.vanishes.ends.append later
  induction layout with
  | nil => exact ends_nil
  | @blank byte more blank _ ih =>
    obtain ⟨notQuote, notBackslash, notHash, notSlash⟩ := ordinary_of_isBlank blank
    have kept : Blanks [byte] := by simp [Blanks, blank]
    apply ih.step _ kept
    intro _
    simp [Stripper.stepMode, Stripper.plainStep, notQuote, notBackslash, notHash, notSlash]
  | @hash body more oneLine _ ih =>
    have ends := commented (.hash body) oneLine ih
    simpa [Comment.text] using ends
  | @slashes body more oneLine _ ih =>
    have ends := commented (.slashes body) oneLine ih
    simpa [Comment.text] using ends
  | @block body more unended _ ih =>
    have ends := commented (.block body) unended ih
    simpa [Comment.text] using ends

/-- The tokens whose bytes pass the stripper as they are. -/
def Token.Passes : Token → Prop
  | .word name => IsName name
  | .quoted _ => True
  | .mark byte => Ordinary byte

theorem Token.Passes.cleans {token : Token} (passes : token.Passes) :
    Cleans token.bytes token.bytes := by
  cases token with
  | word name =>
    refine cleans_ordinary fun byte member => ⟨?_, ?_, ?_, ?_⟩ <;> rintro rfl
    · exact passes.notMem '"' (by decide) rfl member
    · exact passes.notMem '\\' (by decide) rfl member
    · exact passes.notMem '#' (by decide) rfl member
    · exact passes.notMem '/' (by decide) rfl member
  | quoted value =>
    rw [Token.bytes, encode_escape]
    exact cleans_quoted (.of_escapeBytes _)
  | mark byte => exact cleans_ordinary fun other member => List.mem_singleton.mp member ▸ passes

private theorem passes_nameTokens {name : String} (isName : IsName name) :
    ∀ token ∈ nameTokens name, token.Passes := by
  unfold nameTokens
  split
  · exact fun token member => absurd member List.not_mem_nil
  · exact fun token member => List.mem_singleton.mp member ▸ isName

private theorem passes_valueTokens (value? : Option String) :
    ∀ token ∈ valueTokens value?, token.Passes := by
  intro token member
  obtain ⟨value, -, rfl⟩ := List.mem_map.mp member
  trivial

private theorem passes_mark {byte : UInt8} (delimiter : isDelimiter byte = true) :
    Token.Passes (.mark byte) := by
  refine ⟨?_, ?_, ?_, ?_⟩ <;> rintro rfl <;> exact absurd delimiter (by decide)

theorem Forest.passes (forest : Forest) (printable : forest.Printable) :
    ∀ token ∈ forest.tokens, token.Passes := by
  have ended : Token.Passes (.mark semicolon) := passes_mark rfl
  induction forest with
  | nil => exact fun token member => absurd member List.not_mem_nil
  | leaf name value rest ih =>
    obtain ⟨isName, -, -, printable⟩ := printable
    simp only [tokens, List.mem_append, List.mem_cons]
    rintro token ((named | valued) | rfl | later)
    · exact passes_nameTokens isName token named
    · exact passes_valueTokens _ token valued
    · exact ended
    · exact ih printable token later
  | block name value? below rest ihBelow ihRest =>
    obtain ⟨isName, -, printableBelow, printable⟩ := printable
    simp only [tokens, List.mem_append, List.mem_cons]
    rintro token ((named | valued) | rfl | inside | rfl | rfl | later)
    · exact passes_nameTokens isName token named
    · exact passes_valueTokens _ token valued
    · exact passes_mark rfl
    · exact ihBelow printableBelow token inside
    · exact passes_mark rfl
    · exact ended
    · exact ihRest printable token later

/-- A blank at the beginning of a text is still there without the comments. -/
theorem run_starts {byte : UInt8} {text clean : List UInt8} {line : Nat} {last : Stripper}
    (starts : text.head? = some byte) (blank : isBlank byte = true)
    (ran : Stripper.run ⟨.plain, line⟩ text = (last, clean)) : clean.head? = some byte := by
  cases text with
  | nil => cases starts
  | cons first rest =>
    obtain rfl := Option.some.inj starts
    obtain ⟨next, stepped⟩ := run_ordinary (ordinary_of_isBlank blank) line rest
    rw [stepped] at ran
    rw [← (Prod.mk.inj ran).2, List.head?_cons]

theorem Spaced.run {tokens : List Token} {text : List UInt8} (spaced : Spaced Layout tokens text)
    (passes : ∀ token ∈ tokens, token.Passes) (line : Nat) :
    ∃ after clean, Stripper.run ⟨.plain, line⟩ text = (⟨.plain, after⟩, clean) ∧
      Spaced Blanks tokens clean := by
  induction spaced generalizing line with
  | nil gap =>
    obtain ⟨after, kept, ran, blanks⟩ := gap.ends line
    exact ⟨after, kept, ran, .nil blanks⟩
  | @cons gap text token tokens before separates _ ih =>
    obtain ⟨afterGap, kept, ranGap, blanks⟩ := before.ends line
    obtain ⟨afterToken, ranToken⟩ := (passes token (List.mem_cons_self ..)).cleans afterGap
    obtain ⟨after, clean, ran, cleaned⟩ :=
      ih (fun other member => passes other (.tail _ member)) afterToken
    refine ⟨after, kept ++ token.bytes ++ clean, ?_, .cons blanks ?_ cleaned⟩
    · rw [Stripper.run_append, Stripper.run_append, ranGap, ranToken, ran]
    · unfold Token.Separates at separates ⊢
      split
      next =>
        obtain ⟨byte, starts, blank⟩ := separates
        exact ⟨byte, run_starts starts blank ran, blank⟩
      next => trivial

/-- Without its comments a printed document is the same tokens, with only blanks around them. -/
theorem Spaced.strip {tokens : List Token} {text : List UInt8} (spaced : Spaced Layout tokens text)
    (passes : ∀ token ∈ tokens, token.Passes) :
    ∃ clean, strip text = .ok clean ∧ Spaced Blanks tokens clean := by
  obtain ⟨after, clean, ran, cleaned⟩ := spaced.run passes 1
  refine ⟨clean, ?_, cleaned⟩
  rw [Grammar.strip, Stripper.initial, ran]
  exact congrArg Except.ok (List.append_nil clean)

end ServiceConfig.Grammar
