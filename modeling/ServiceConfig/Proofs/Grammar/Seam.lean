import ServiceConfig.Proofs.Grammar.Recognition

/-! # One text after the other

Behind an accepted text and a newline, another text is read as it is read alone, only on later
lines. The stripper is back in ordinary text after the newline, and the scanner has closed all
blocks, so nothing of the first text reaches into the second. `later` moves what is said about
lines.
-/

namespace ServiceConfig.Grammar

open Ascii

variable {lines : Nat}

def Mode.later (lines : Nat) : Mode → Mode
  | .quoted began => .quoted (began + lines)
  | .quotedEscape began => .quotedEscape (began + lines)
  | .block began => .block (began + lines)
  | .blockStar began => .blockStar (began + lines)
  | mode => mode

def Stripper.later (lines : Nat) (state : Stripper) : Stripper :=
  ⟨state.mode.later lines, state.line + lines⟩

def Cursor.later (lines : Nat) (cursor : Cursor) : Cursor := ⟨cursor.rest, cursor.line + lines⟩

def Complaint.later (lines : Nat) (complaint : Complaint) : Complaint :=
  ⟨complaint.line + lines, complaint.fault⟩

def Statement.later (lines : Nat) (statement : Statement) : Statement :=
  ⟨statement.line + lines, statement.event⟩

def Script.later (lines : Nat) (script : Script) : Script :=
  ⟨script.statements.map (·.later lines), script.complaint?.map (·.later lines)⟩

theorem Stripper.step_later (state : Stripper) (byte : UInt8) :
    (state.later lines).step byte = ((state.step byte).1.later lines, (state.step byte).2) := by
  obtain ⟨mode, line⟩ := state
  have stepped : stepMode (mode.later lines) (line + lines) byte =
      ((stepMode mode line byte).1.later lines, (stepMode mode line byte).2) := by
    cases mode <;> simp only [Mode.later, stepMode, plainStep] <;> split_ifs <;> rfl
  simp only [step, later, stepped]
  split_ifs
  · rw [Nat.add_right_comm]
  · rfl

theorem Stripper.run_later (state : Stripper) (text : List UInt8) :
    (state.later lines).run text = ((state.run text).1.later lines, (state.run text).2) := by
  induction text generalizing state with
  | nil => rfl
  | cons byte rest ih => simp only [run, step_later, ih]

theorem Stripper.stepMode_newlines (mode : Mode) (line : Nat) (byte : UInt8) :
    newlines (stepMode mode line byte).2 = newlines [byte] := by
  by_cases isNewline : byte = newline
  · subst isNewline
    cases mode <;> rfl
  · have passed : newlines [byte] = 0 := List.count_eq_zero.mpr (by simpa using Ne.symm isNewline)
    have held (rest : List UInt8) : newlines (slash :: rest) = newlines rest :=
      List.count_cons_of_ne (by decide)
    rw [passed]
    cases mode with
    | plainEscape | quotedEscape => exact passed
    | _ =>
      simp only [stepMode, plainStep]
      split_ifs <;> simp only [held, passed] <;> rfl

/-- Every newline is kept, and counted. -/
theorem Stripper.run_newlines (state : Stripper) (text : List UInt8) :
    (state.run text).1.line = state.line + newlines text ∧
      newlines (state.run text).2 = newlines text := by
  induction text generalizing state with
  | nil => exact ⟨rfl, rfl⟩
  | cons byte rest ih =>
    obtain ⟨counted, kept⟩ := ih (state.step byte).1
    have whole : newlines (byte :: rest) = newlines [byte] + newlines rest :=
      newlines_append [byte] rest
    have line : (state.step byte).1.line = state.line + newlines [byte] := by
      simp only [step, newlines, List.count_singleton, beq_iff_eq]
      split_ifs <;> rfl
    constructor
    · rw [run, counted, line, whole, Nat.add_assoc]
    · rw [run, newlines_append, kept, whole]
      exact congrArg (· + newlines rest) (stepMode_newlines ..)

/-- Where a text may end, a newline leads back to ordinary text, after what the end would leave. -/
theorem Stripper.step_newline {state : Stripper} {kept : List UInt8}
    (ended : state.finish = .ok kept) :
    state.step newline = (⟨.plain, state.line + 1⟩, kept ++ [newline]) := by
  obtain ⟨mode, line⟩ := state
  cases mode <;> cases ended <;> rfl

theorem Stripper.finish_later (state : Stripper) :
    (state.later lines).finish = state.finish.mapError (· + lines) := by
  obtain ⟨mode, line⟩ := state
  cases mode <;> rfl

theorem Stripper.finish_newlines {state : Stripper} {kept : List UInt8}
    (ended : state.finish = .ok kept) : newlines kept = 0 := by
  obtain ⟨mode, line⟩ := state
  cases mode <;> cases ended <;> rfl

theorem strip_eq_ok {text source : List UInt8} (stripped : strip text = .ok source) :
    ∃ kept, (Stripper.initial.run text).1.finish = .ok kept ∧
      source = (Stripper.initial.run text).2 ++ kept := by
  rw [strip] at stripped
  cases ended : (Stripper.initial.run text).1.finish with
  | error began => simp only [ended, Except.map] at stripped; cases stripped
  | ok kept =>
    simp only [ended, Except.map] at stripped
    exact ⟨kept, rfl, (Except.ok.inj stripped).symm⟩

/-- The script in a text has all its newlines. -/
theorem newlines_strip {text source : List UInt8} (stripped : strip text = .ok source) :
    newlines source = newlines text := by
  obtain ⟨kept, ended, rfl⟩ := strip_eq_ok stripped
  obtain ⟨-, counted⟩ := Stripper.initial.run_newlines text
  rw [newlines_append, counted, Stripper.finish_newlines ended, Nat.add_zero]

/-- Where ordinary text goes on, what follows is stripped as on its own, only on later lines. -/
theorem strip_append {front clean : List UInt8} {after : Nat}
    (ran : Stripper.initial.run front = (⟨.plain, after⟩, clean)) (back : List UInt8) :
    strip (front ++ back) =
      ((strip back).map (clean ++ ·)).mapError (· + newlines front) := by
  obtain ⟨counted, -⟩ := Stripper.initial.run_newlines front
  rw [ran] at counted
  -- this is the state that every text begins in, on a later line
  have behind : (⟨.plain, after⟩ : Stripper) = Stripper.initial.later (newlines front) :=
    congrArg (Stripper.mk .plain) counted
  rw [strip, strip, Stripper.run_append, ran, behind]
  dsimp only
  rw [Stripper.run_later, Stripper.finish_later]
  cases (Stripper.initial.run back).1.finish with
  | error began => rfl
  | ok last => exact congrArg Except.ok (List.append_assoc ..)

/-- Behind a text that ends, a newline and another text are stripped as on their own. -/
theorem strip_seam {first source : List UInt8} (stripped : strip first = .ok source)
    (second : List UInt8) :
    strip (first ++ newline :: second) =
      ((strip second).map (source ++ newline :: ·)).mapError (· + (newlines first + 1)) := by
  obtain ⟨kept, ended, rfl⟩ := strip_eq_ok stripped
  have ran : Stripper.initial.run (first ++ [newline]) =
      (⟨.plain, (Stripper.initial.run first).1.line + 1⟩,
        (Stripper.initial.run first).2 ++ kept ++ [newline]) := by
    rw [Stripper.run_append, Stripper.run, Stripper.step_newline ended]
    simp [Stripper.run]
  have counted : newlines (first ++ [newline]) = newlines first + 1 := newlines_append ..
  simpa [counted] using strip_append ran second

theorem Cursor.skip_later (cursor : Cursor) (inClass : UInt8 → Bool) :
    (cursor.later lines).skip inClass = (cursor.skip inClass).later lines := by
  simp only [skip, later, Nat.add_right_comm]

/-- What a step of the scanner comes to when it begins on a later line. -/
def laterStep {α : Type} (lines : Nat) (result : Except Complaint (α × Cursor)) :
    Except Complaint (α × Cursor) :=
  match result with
  | .error complaint => .error (complaint.later lines)
  | .ok (read, next) => .ok (read, next.later lines)

/-- The name of a statement, without its cursors. -/
theorem Cursor.name_eq (rest : List UInt8) (line : Nat) :
    Cursor.name ⟨rest, line⟩ =
      if rest.head? = some quote ∨ rest.head? = some openBrace then .ok ([], ⟨rest, line⟩)
      else if rest.dropWhile isWordByte = [] then .error ⟨line, .prematureEnd⟩
      else if ((rest.dropWhile isWordByte).dropWhile isBlank).head? = some semicolon then
        .ok ([], ⟨rest, line⟩)
      else .ok (rest.takeWhile isWordByte, ⟨(rest.dropWhile isWordByte).dropWhile isBlank,
        line + newlines (rest.takeWhile isWordByte) +
          newlines ((rest.dropWhile isWordByte).takeWhile isBlank)⟩) := rfl

theorem Cursor.name_later (start : Cursor) :
    (start.later lines).name = laterStep lines start.name := by
  obtain ⟨rest, line⟩ := start
  rw [later, name_eq, name_eq]
  simp only [Nat.add_right_comm _ lines]
  split_ifs <;> rfl

theorem Cursor.statement_later (start : Cursor) :
    (start.later lines).statement = laterStep lines start.statement := by
  rw [statement, statement, name_later]
  cases start.name with
  | error complaint => rfl
  | ok named =>
    obtain ⟨name, valueStart⟩ := named
    dsimp only [laterStep, later]
    rw [Nat.add_right_comm]
    cases (splitValue valueStart.rest).2 with
    | nil => rfl
    | cons delimiter rest =>
      dsimp only
      split_ifs <;> rfl

theorem Cursor.blockEnd_later (lines : Nat) (afterBrace : Cursor) :
    (afterBrace.later lines).blockEnd =
      (afterBrace.blockEnd.map (·.later lines)).mapError (·.later lines) := by
  simp only [blockEnd, skipBlanks, skip_later]
  simp only [later]
  cases (afterBrace.skip isBlank).rest with
  | nil => rfl
  | cons byte rest =>
    dsimp only
    split_ifs <;> rfl

namespace Script

private theorem openLines_later (statement : Statement) (opened : List Nat) :
    openLines (statement.later lines) (opened.map (· + lines)) =
      (openLines statement opened).map (· + lines) := by
  obtain ⟨line, event⟩ := statement
  cases event <;> rfl

/-- On a later line the scanner says the same, on later lines. -/
theorem scan_later (lines : Nat) (cursor : Cursor) (opened : List Nat) :
    scan (cursor.later lines) (opened.map (· + lines)) = (scan cursor opened).later lines := by
  -- both scans see the same bytes, so they take the same turn in each case
  have skipped (cursor : Cursor) :
      (cursor.later lines).skipBlanks = cursor.skipBlanks.later lines := cursor.skip_later isBlank
  fun_induction scan cursor opened with
  | case1 cursor start ended | case2 cursor start ended opened outer =>
    have ended : (cursor.skipBlanks.later lines).rest = [] := ended
    simp only [scan_eq (cursor.later lines), skipped, ended]
    rfl
  | case3 cursor start rest starts =>
    have starts : (cursor.skipBlanks.later lines).rest = closeBrace :: rest := starts
    simp only [scan_eq (cursor.later lines), skipped, starts, if_true]
    rfl
  | case4 cursor start rest opened outer complaint failed starts =>
    have starts : (cursor.skipBlanks.later lines).rest = closeBrace :: rest := starts
    have failed : Cursor.blockEnd ⟨rest, (cursor.skipBlanks.later lines).line⟩ =
        .error (complaint.later lines) := by
      have moved := Cursor.blockEnd_later lines ⟨rest, start.line⟩
      rwa [failed] at moved
    simp only [scan_eq (cursor.later lines), skipped, starts, if_true, failed]
    rfl
  | case5 cursor start rest opened outer next ended starts ih =>
    have starts : (cursor.skipBlanks.later lines).rest = closeBrace :: rest := starts
    have ended : Cursor.blockEnd ⟨rest, (cursor.skipBlanks.later lines).line⟩ =
        .ok (next.later lines) := by
      have moved := Cursor.blockEnd_later lines ⟨rest, start.line⟩
      rwa [ended] at moved
    simp only [scan_eq (cursor.later lines), skipped, starts, if_true, ended]
    exact congrArg (cons ⟨start.line + lines, .closing⟩) ih
  | case6 cursor opened start byte rest starts opens complaint failed =>
    have starts : (cursor.skipBlanks.later lines).rest = byte :: rest := starts
    have failed : (cursor.skipBlanks.later lines).statement = .error (complaint.later lines) := by
      rw [Cursor.statement_later, failed]
      rfl
    simp only [scan_eq (cursor.later lines), skipped, starts, if_neg opens, failed]
    rfl
  | case7 cursor opened start byte rest starts opens event next read ih =>
    have starts : (cursor.skipBlanks.later lines).rest = byte :: rest := starts
    have read : (cursor.skipBlanks.later lines).statement = .ok (event, next.later lines) := by
      rw [Cursor.statement_later, read]
      rfl
    simp only [scan_eq (cursor.later lines), skipped, starts, if_neg opens, read]
    rw [← openLines_later] at ih
    exact congrArg (cons ⟨start.line + lines, event⟩) ih

/-- Behind an accepted text and a newline, a text says what it says alone, on later lines. A string
or comment of the second text that never ends leaves nothing of the first. -/
theorem ofText_seam {first source : List UInt8} {forest : Forest}
    (stripped : strip first = .ok source) (reads : Reads source forest) :
    ∃ front, front.map Statement.event = forest.events ∧ ofText first = ⟨front, none⟩ ∧
      ∀ second, ofText (first ++ newline :: second) =
        match strip second with
        | .error _ => (ofText second).later (newlines first + 1)
        | .ok _ => prepend front ((ofText second).later (newlines first + 1)) := by
  obtain ⟨front, events, scanned⟩ := scan_reads reads 1
  refine ⟨front, events, ?_, fun second => ?_⟩
  · rw [ofText, stripped]
    exact scan_alone scanned
  · rw [ofText, ofText, strip_seam stripped]
    cases strip second with
    | error began => rfl
    | ok rest =>
      -- all blocks of the first text are closed, so the second is scanned with none open
      have skipped := Cursor.skipBlanks_append blanks_newline rest (1 + newlines source)
      have below : (⟨rest, 1 + newlines source + newlines [newline]⟩ : Cursor) =
          Cursor.later (newlines first + 1) ⟨rest, 1⟩ := by
        rw [newlines_strip stripped, Nat.add_assoc]
        rfl
      have moved := scan_later (newlines first + 1) ⟨rest, 1⟩ []
      rw [List.map_nil, ← below] at moved
      have behind : scan ⟨newline :: rest, 1 + newlines source⟩ [] =
          (scan ⟨rest, 1⟩ []).later (newlines first + 1) := (scan_congr skipped []).trans moved
      have whole := scanned (newline :: rest) []
      rw [behind] at whole
      exact whole

end Script

end ServiceConfig.Grammar
