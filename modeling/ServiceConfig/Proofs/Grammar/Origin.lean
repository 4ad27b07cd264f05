import ServiceConfig.Proofs.Grammar.Seam

/-! # Where a script stands in its text

Each byte of a text is kept or left out, and the bytes that are kept are the script. So a place of
the script is a place of the text, in front of a byte that is kept or at the end, and it is on the
same line, since no line end is left out. A string or comment that never ends began where the
stripper says it began.
-/

namespace ServiceConfig.Grammar

open Ascii

/-- A slash in front of these bytes begins a comment. -/
def OpensComment (rest : List UInt8) : Prop := rest.head? = some slash ∨ rest.head? = some star

instance (rest : List UInt8) : Decidable (OpensComment rest) :=
  inferInstanceAs (Decidable (rest.head? = some slash ∨ rest.head? = some star))

/-- Whether a byte is kept that is read in this mode, in front of these bytes. -/
def Mode.keeps (mode : Mode) (byte : UInt8) (rest : List UInt8) : Bool :=
  match mode with
  | .plain => byte ≠ hash ∧ ¬ (byte = slash ∧ OpensComment rest)
  | .held => byte ≠ hash ∧ byte ≠ slash ∧ byte ≠ star
  | .plainEscape | .quoted _ | .quotedEscape _ => true
  | .lineComment | .block _ | .blockStar _ => byte = newline

/-- The bytes of a text, and whether they are kept. -/
def Stripper.trace (state : Stripper) : List UInt8 → List (UInt8 × Bool)
  | [] => []
  | byte :: rest => (byte, state.mode.keeps byte rest) :: (state.step byte).1.trace rest

def trace (text : List UInt8) : List (UInt8 × Bool) := Stripper.initial.trace text

def kept (marked : List (UInt8 × Bool)) : List UInt8 := (marked.filter Prod.snd).map Prod.fst

theorem kept_append (first second : List (UInt8 × Bool)) :
    kept (first ++ second) = kept first ++ kept second := by
  rw [kept, List.filter_append, List.map_append]
  rfl

/-- A slash that is held back is kept if no comment follows. -/
def Stripper.pending (state : Stripper) (rest : List UInt8) : List UInt8 :=
  if state.mode = .held ∧ ¬ OpensComment rest then [slash] else []

/-- One byte: what the stripper puts out and holds back is what it held back and the byte, if that
is kept. -/
theorem Stripper.step_kept (state : Stripper) (byte : UInt8) (rest : List UInt8) :
    (state.step byte).2 ++ (state.step byte).1.pending rest =
      state.pending (byte :: rest) ++ kept [(byte, state.mode.keeps byte rest)] := by
  obtain ⟨mode, line⟩ := state
  have apart : quote ≠ hash ∧ quote ≠ slash ∧ backslash ≠ hash ∧ backslash ≠ slash := by decide
  cases mode <;>
    simp only [step, stepMode, plainStep, pending, Mode.keeps, kept, OpensComment] <;>
    split_ifs <;> simp_all

theorem Stripper.run_kept {state : Stripper} {text last : List UInt8}
    (ended : (state.run text).1.finish = .ok last) :
    (state.run text).2 ++ last = state.pending text ++ kept (state.trace text) := by
  induction text generalizing state with
  | nil =>
    obtain ⟨mode, line⟩ := state
    cases mode <;> cases ended <;> rfl
  | cons byte rest ih =>
    have later : ((state.step byte).1.run rest).2 ++ last =
        (state.step byte).1.pending rest ++ kept ((state.step byte).1.trace rest) := ih ended
    have here := state.step_kept byte rest
    calc (state.step byte).2 ++ ((state.step byte).1.run rest).2 ++ last
        = (state.step byte).2 ++ (state.step byte).1.pending rest ++
            kept ((state.step byte).1.trace rest) := by
          rw [List.append_assoc, later, List.append_assoc]
      _ = state.pending (byte :: rest) ++ kept (state.trace (byte :: rest)) := by
          rw [here, List.append_assoc, ← kept_append]
          rfl

/-- The bytes that are kept are the script. -/
theorem kept_trace {text source : List UInt8} (stripped : strip text = .ok source) :
    kept (trace text) = source := by
  obtain ⟨last, ended, rfl⟩ := strip_eq_ok stripped
  exact (Stripper.run_kept ended).symm

theorem Stripper.map_fst_trace (state : Stripper) (text : List UInt8) :
    (state.trace text).map Prod.fst = text := by
  induction text generalizing state with
  | nil => rfl
  | cons byte rest ih => rw [trace, List.map_cons, ih]

/-- No line end is left out. -/
theorem Mode.keeps_newline (mode : Mode) (rest : List UInt8) : mode.keeps newline rest = true := by
  have apart : newline ≠ hash ∧ newline ≠ slash ∧ newline ≠ star := by decide
  cases mode <;> simp [keeps, apart]

theorem Stripper.snd_of_newline {state : Stripper} {text : List UInt8} {marked : Bool}
    (member : (newline, marked) ∈ state.trace text) : marked = true := by
  induction text generalizing state with
  | nil => cases member
  | cons byte rest ih =>
    rcases List.mem_cons.mp member with here | later
    · obtain ⟨rfl, rfl⟩ := Prod.mk.inj here
      exact state.mode.keeps_newline rest
    · exact ih later

private theorem newlines_kept {marked : List (UInt8 × Bool)}
    (ends : ∀ keeps, (newline, keeps) ∈ marked → keeps = true) :
    newlines (kept marked) = newlines (marked.map Prod.fst) := by
  induction marked with
  | nil => rfl
  | cons first rest ih =>
    obtain ⟨byte, keeps⟩ := first
    have later := ih fun keeps member => ends keeps (List.mem_cons_of_mem _ member)
    rw [← List.singleton_append, kept_append, List.map_append, newlines_append, newlines_append,
      later]
    refine congrArg (· + newlines (rest.map Prod.fst)) ?_
    cases keeps with
    | true => rfl
    | false =>
      refine (List.count_eq_zero.mpr ?_).symm
      rw [List.map_singleton, List.mem_singleton]
      rintro rfl
      exact absurd (ends false (List.mem_cons_self ..)) (by decide)

/-- Behind these bytes of the script is the place behind `before` of the text: in front of the next
byte that is kept, or at the end. -/
def Stands (text done before : List UInt8) : Prop :=
  ∃ front back, trace text = front ++ back ∧ kept front = done ∧ front.map Prod.fst = before ∧
    ∀ byte, back.head? ≠ some (byte, false)

theorem exists_kept_split {marked : List (UInt8 × Bool)} {done : List UInt8}
    (first : done <+: kept marked) :
    ∃ front back, marked = front ++ back ∧ kept front = done ∧
      ∀ byte, back.head? ≠ some (byte, false) := by
  induction marked generalizing done with
  | nil => exact ⟨[], [], rfl, (List.prefix_nil.mp first).symm, nofun⟩
  | cons next rest ih =>
    obtain ⟨byte, keeps⟩ := next
    cases keeps with
    | false =>
      obtain ⟨front, back, rfl, rfl, stands⟩ := ih first
      exact ⟨(byte, false) :: front, back, rfl, rfl, stands⟩
    | true =>
      cases done with
      | nil => exact ⟨[], (byte, true) :: rest, rfl, rfl, nofun⟩
      | cons other done =>
        obtain ⟨rfl, later⟩ := List.cons_prefix_cons.mp first
        obtain ⟨front, back, rfl, rfl, stands⟩ := ih later
        exact ⟨(other, true) :: front, back, rfl, rfl, stands⟩

/-- There is one such place. -/
theorem kept_split_unique {front back former latter : List (UInt8 × Bool)}
    (same : kept front = kept former) (whole : front ++ back = former ++ latter)
    (stands : ∀ byte, back.head? ≠ some (byte, false))
    (standsLatter : ∀ byte, latter.head? ≠ some (byte, false)) :
    front = former ∧ back = latter := by
  -- what one of the places has more in front of it is left out, and begins with a byte that is kept
  have nothing {between rest : List (UInt8 × Bool)} (none : kept between = [])
      (first : ∀ byte, (between ++ rest).head? ≠ some (byte, false)) : between = [] := by
    rcases between with _ | ⟨⟨byte, _ | _⟩, between⟩
    · rfl
    · exact absurd rfl (first byte)
    · cases none
  rcases List.append_eq_append_iff.mp whole with ⟨between, rfl, rfl⟩ | ⟨between, rfl, rfl⟩
  · rw [kept_append, List.self_eq_append_right] at same
    simp [nothing same stands]
  · rw [kept_append, List.append_right_eq_self] at same
    simp [nothing same standsLatter]

/-- Every place of a script is a place of its text. -/
theorem exists_stands {text source done : List UInt8} (stripped : strip text = .ok source)
    (first : done <+: source) : ∃ before, Stands text done before := by
  rw [← kept_trace stripped] at first
  obtain ⟨front, back, whole, same, stands⟩ := exists_kept_split first
  exact ⟨front.map Prod.fst, front, back, whole, same, rfl, stands⟩

section

variable {text done before : List UInt8}

theorem Stands.isPrefix (stands : Stands text done before) : before <+: text := by
  obtain ⟨front, back, whole, -, rfl, -⟩ := stands
  rw [← Stripper.initial.map_fst_trace text]
  exact ⟨back.map Prod.fst, by rw [← List.map_append, ← whole]; rfl⟩

/-- A place of the script and its place of the text are on the same line. -/
theorem Stands.newlines (stands : Stands text done before) : newlines before = newlines done := by
  obtain ⟨front, back, whole, rfl, rfl, -⟩ := stands
  refine (newlines_kept fun keeps member => ?_).symm
  have member : (newline, keeps) ∈ trace text := whole ▸ List.mem_append_left back member
  exact Stripper.snd_of_newline member

end

/-- Where the stripper is, if comments are left aside. -/
inductive Guard
  | outside
  | guarded
  | inside
  | escaped
  deriving DecidableEq, Repr

def Guard.step (guard : Guard) (byte : UInt8) : Guard :=
  match guard with
  | .outside => if byte = quote then .inside else if byte = backslash then .guarded else .outside
  | .guarded => .outside
  | .inside => if byte = quote then .outside else if byte = backslash then .escaped else .inside
  | .escaped => .inside

/-- Where the bytes of a script lead the stripper. -/
def Guard.after (guard : Guard) (bytes : List UInt8) : Guard := bytes.foldl Guard.step guard

theorem Guard.after_append (guard : Guard) (first second : List UInt8) :
    guard.after (first ++ second) = (guard.after first).after second := List.foldl_append

def Mode.guard : Mode → Guard
  | .plain | .held | .lineComment | .block _ | .blockStar _ => .outside
  | .plainEscape => .guarded
  | .quoted _ => .inside
  | .quotedEscape _ => .escaped

/-- Only the bytes that are kept count. -/
theorem Mode.guard_step (mode : Mode) (line : Nat) (byte : UInt8) (rest : List UInt8) :
    (Stripper.stepMode mode line byte).1.guard =
      if mode.keeps byte rest then mode.guard.step byte else mode.guard := by
  have apart : quote ≠ hash ∧ quote ≠ slash ∧ quote ≠ star ∧ newline ≠ quote ∧ backslash ≠ hash ∧
      backslash ≠ slash ∧ backslash ≠ star ∧ newline ≠ backslash := by decide
  cases mode with
  | plainEscape | quotedEscape => rfl
  | quoted =>
    simp only [Stripper.stepMode, guard, keeps, Guard.step, if_true]
    split_ifs <;> rfl
  | _ =>
    simp only [Stripper.stepMode, Stripper.plainStep, guard, keeps, Guard.step]
    split_ifs <;> simp_all

/-- In front of any place of a text, the bytes kept so far tell where the stripper is, and from
there on it keeps what it keeps of the rest. -/
theorem Stripper.trace_split {state : Stripper} {text : List UInt8}
    {front back : List (UInt8 × Bool)} (whole : state.trace text = front ++ back) :
    (state.run (front.map Prod.fst)).1.mode.guard = state.mode.guard.after (kept front) ∧
      (state.run (front.map Prod.fst)).1.trace (back.map Prod.fst) = back := by
  induction front generalizing state text with
  | nil =>
    refine ⟨rfl, ?_⟩
    have whole : state.trace text = back := whole
    rw [← whole, state.map_fst_trace]
    rfl
  | cons first front ih =>
    cases text with
    | nil => cases whole
    | cons byte rest =>
      obtain ⟨rfl, later⟩ := List.cons.inj whole
      obtain ⟨guarded, behind⟩ := ih later
      refine ⟨guarded.trans ?_, behind⟩
      have stepped : (state.step byte).1.mode.guard = _ :=
        state.mode.guard_step state.line byte rest
      rw [stepped, ← List.singleton_append, kept_append, Guard.after_append]
      cases state.mode.keeps byte rest <;> rfl

/-- What the stripper has read here is ordinary text, except for a slash that it may hold back. -/
def Outside (before : List UInt8) : Prop :=
  (Stripper.initial.run before).1.mode = .plain ∨ (Stripper.initial.run before).1.mode = .held

/-- A string or a block comment begins behind `before`, and never ends. -/
def Unended (text before : List UInt8) : Prop :=
  (∃ body, text = before ++ quote :: body ∧ Outside before ∧
    ∀ part, Quotation part → ¬ part <+: body) ∨
  ∃ body, text = before ++ slash :: star :: body ∧
    (Stripper.initial.run before).1.mode = .plain ∧ ¬ [star, slash] <:+: body

theorem Unended.isPrefix {text before : List UInt8} (unended : Unended text before) :
    before <+: text := by
  rcases unended with ⟨body, rfl, -⟩ | ⟨body, rfl, -⟩ <;> exact List.prefix_append before _

theorem Guard.inside_quotation {part : List UInt8} (quotation : Quotation part) :
    Guard.inside.after part = .outside := by
  induction quotation with
  | close => rfl
  | @byte byte rest notQuote notBackslash _ ih =>
    have stays : Guard.inside.step byte = .inside := by
      rw [Guard.step, if_neg notQuote, if_neg notBackslash]
    exact (congrArg (Guard.after · rest) stays).trans ih
  | guarded _ ih => exact ih

/-- A string that began on this line is open behind the text. -/
def StringOpen (text : List UInt8) (began : Nat) (guard : Guard) : Prop :=
  ∃ before body, text = before ++ quote :: body ∧ Outside before ∧ began = 1 + newlines before ∧
    Guard.inside.after body = guard ∧ ∀ part, Quotation part → ¬ part <+: body

/-- A block comment that began on this line, and holds these bytes, is open behind the text. -/
def CommentOpen (text : List UInt8) (began : Nat) (body : List UInt8) : Prop :=
  ∃ before, text = before ++ slash :: star :: body ∧
    (Stripper.initial.run before).1.mode = .plain ∧ began = 1 + newlines before ∧
    ¬ [star, slash] <:+: body

section

variable {text body : List UInt8} {began : Nat} {byte : UInt8}

theorem StringOpen.snoc {guard : Guard} (opened : StringOpen text began guard)
    (stays : guard.step byte ≠ .outside) :
    StringOpen (text ++ [byte]) began (guard.step byte) := by
  obtain ⟨before, body, rfl, outside, same, leads, unended⟩ := opened
  have leads : Guard.inside.after (body ++ [byte]) = guard.step byte := by
    rw [Guard.after_append, leads]
    rfl
  refine ⟨before, body ++ [byte], by simp, outside, same, leads, fun part quotation first => ?_⟩
  rcases List.prefix_concat_iff.mp first with rfl | first
  · exact stays (leads.symm.trans (Guard.inside_quotation quotation))
  · exact unended part quotation first

/-- A comment goes on with a byte that is no slash, or not behind a star. -/
theorem CommentOpen.snoc (opened : CommentOpen text began body)
    (apart : byte = slash → body.getLast? ≠ some star) :
    CommentOpen (text ++ [byte]) began (body ++ [byte]) := by
  obtain ⟨before, rfl, plain, same, unended⟩ := opened
  refine ⟨before, by simp, plain, same, fun within => ?_⟩
  rcases List.infix_concat_iff.mp within with ⟨front, last⟩ | within
  · have last : (front ++ [star]) ++ [slash] = body ++ [byte] := by simpa using last
    obtain ⟨rfl, same⟩ := List.append_inj' last rfl
    obtain ⟨rfl, -⟩ := List.cons.inj same
    exact apart rfl List.getLast?_concat
  · exact unended within

theorem StringOpen.exists_unended {guard : Guard} (opened : StringOpen text began guard) :
    ∃ before, Unended text before ∧ began = 1 + newlines before := by
  obtain ⟨before, body, whole, outside, same, -, unended⟩ := opened
  exact ⟨before, .inl ⟨body, whole, outside, unended⟩, same⟩

theorem CommentOpen.exists_unended (opened : CommentOpen text began body) :
    ∃ before, Unended text before ∧ began = 1 + newlines before := by
  obtain ⟨before, whole, plain, same, unended⟩ := opened
  exact ⟨before, .inr ⟨body, whole, plain, unended⟩, same⟩

/-- What the mode of the stripper says of the text that it has read. Behind a star the mode of a
block comment is another one. -/
def Mode.Tells (text : List UInt8) : Mode → Prop
  | .quoted began => StringOpen text began .inside
  | .quotedEscape began => StringOpen text began .escaped
  | .block began => ∃ body, CommentOpen text began body ∧ body.getLast? ≠ some star
  | .blockStar began => ∃ body, CommentOpen text began body
  | .held => ∃ before, text = before ++ [slash] ∧ (Stripper.initial.run before).1.mode = .plain
  | .plain | .plainEscape | .lineComment => True

private theorem tells_plainStep (outside : Outside text)
    (free : (Stripper.initial.run text).1.mode = .plain ∨ byte ≠ slash) :
    (Stripper.plainStep (1 + newlines text) byte).1.Tells (text ++ [byte]) := by
  rw [Stripper.plainStep]
  split_ifs with isQuote isBackslash isHash isSlash
  · refine ⟨text, [], by rw [isQuote], outside, rfl, rfl, fun part quotation first => ?_⟩
    exact quotation.ne_nil (List.prefix_nil.mp first)
  · trivial
  · trivial
  · exact ⟨text, by rw [isSlash], free.resolve_right (not_not_intro isSlash)⟩
  · trivial

/-- Behind a byte, the mode that it leads to tells the truth. -/
theorem Mode.Tells.step {mode : Mode} (tells : mode.Tells text)
    (read : (Stripper.initial.run text).1.mode = mode) (byte : UInt8) :
    (Stripper.stepMode mode (1 + newlines text) byte).1.Tells (text ++ [byte]) := by
  cases mode with
  | plain => exact tells_plainStep (.inl read) (.inl read)
  | plainEscape => trivial
  | held =>
    rw [Stripper.stepMode]
    split_ifs with isSlash isStar
    · trivial
    · obtain ⟨before, rfl, plain⟩ := tells
      refine ⟨[], ⟨before, by simp [isStar], plain, ?_, by simp⟩, by decide⟩
      rw [newlines_append]
      rfl
    · exact tells_plainStep (.inr read) (.inr isSlash)
  | quoted =>
    rw [Stripper.stepMode]
    split_ifs with isQuote isBackslash
    · trivial
    · subst isBackslash
      exact tells.snoc (by decide)
    · have stays : Guard.inside.step byte = .inside := by
        rw [Guard.step, if_neg isQuote, if_neg isBackslash]
      have opened : StringOpen (text ++ [byte]) _ (Guard.inside.step byte) :=
        tells.snoc (by rw [stays]; decide)
      rwa [stays] at opened
  | quotedEscape => exact tells.snoc Guard.noConfusion
  | lineComment =>
    rw [Stripper.stepMode]
    split_ifs <;> trivial
  | block =>
    obtain ⟨body, opened, last⟩ := tells
    rw [Stripper.stepMode]
    split_ifs with isNewline isStar
    · refine ⟨_, opened.snoc fun _ => last, ?_⟩
      rw [List.getLast?_concat, isNewline]
      decide
    · exact ⟨_, opened.snoc fun _ => last⟩
    · refine ⟨_, opened.snoc fun _ => last, ?_⟩
      rw [List.getLast?_concat]
      exact fun same => isStar (Option.some.inj same)
  | blockStar =>
    obtain ⟨body, opened⟩ := tells
    rw [Stripper.stepMode]
    split_ifs with isNewline isSlash isStar
    · have notSlash : newline ≠ slash := by decide
      refine ⟨_, opened.snoc fun same => absurd (isNewline.symm.trans same) notSlash, ?_⟩
      rw [List.getLast?_concat, isNewline]
      decide
    · trivial
    · exact ⟨_, opened.snoc fun same => absurd same isSlash⟩
    · refine ⟨_, opened.snoc fun same => absurd same isSlash, ?_⟩
      rw [List.getLast?_concat]
      exact fun same => isStar (Option.some.inj same)

end

/-- The mode of the stripper tells the truth about every text. -/
theorem Stripper.tells (text : List UInt8) :
    (Stripper.initial.run text).1.mode.Tells text := by
  induction text using List.reverseRecOn with
  | nil => trivial
  | append_singleton text byte ih =>
    have counted : (Stripper.initial.run text).1.line = 1 + newlines text :=
      (Stripper.initial.run_newlines text).1
    have stepped := ih.step rfl byte
    rw [← counted] at stepped
    rw [Stripper.run_append]
    exact stepped

/-- A text is blamed for a string or a comment that never ends on the line where this begins. -/
theorem exists_unended {text : List UInt8} {began : Nat} (failed : strip text = .error began) :
    ∃ before, Unended text before ∧ began = 1 + newlines before := by
  have tells := Stripper.tells text
  rw [strip] at failed
  generalize Stripper.initial.run text = ran at tells failed
  obtain ⟨⟨mode, line⟩, clean⟩ := ran
  cases mode with
  | plain | held | plainEscape | lineComment => cases failed
  | quoted | quotedEscape =>
    cases failed
    exact StringOpen.exists_unended tells
  | block =>
    cases failed
    obtain ⟨body, opened, -⟩ := tells
    exact opened.exists_unended
  | blockStar =>
    cases failed
    obtain ⟨body, opened⟩ := tells
    exact opened.exists_unended

end ServiceConfig.Grammar
