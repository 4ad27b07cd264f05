import ServiceConfig.Proofs.Grammar.Seam

/-! # What a comment leaves behind

A comment in ordinary text is worth its line ends: without it the text in front of it and the text
behind it are what they are alone, and only these line ends stand between them. What the comment
says does not matter, as long as it does not end the comment; nor does it matter what follows, which
may even have a string or comment that never ends. That is then found on the line where it is.
-/

namespace ServiceConfig.Grammar

open Ascii

/-- A text ends outside strings and comments, and neither behind a backslash that protects the next
byte nor behind a slash that may begin a comment. -/
def Neutral (text : List UInt8) : Prop := (Stripper.initial.run text).1.mode = .plain

instance (text : List UInt8) : Decidable (Neutral text) :=
  inferInstanceAs (Decidable (_ = Mode.plain))

theorem Neutral.exists_run {text : List UInt8} (neutral : Neutral text) :
    ∃ after clean, Stripper.initial.run text = (⟨.plain, after⟩, clean) ∧
      strip text = .ok clean := by
  have ended : (Stripper.initial.run text).1.finish = .ok [] := by
    unfold Stripper.finish
    rw [neutral]
  refine ⟨(Stripper.initial.run text).1.line, (Stripper.initial.run text).2, ?_, ?_⟩
  · rw [← neutral]
  · rw [strip]
    simp only [ended, Except.map, List.append_nil]

/-- In a neutral place a comment is worth exactly its line ends, and what is wrong behind it is
wrong on its own as well, as many lines earlier as there are in front of it. -/
theorem strip_comment {before : List UInt8} (neutral : Neutral before) {comment : Comment}
    (complete : comment.Complete) (after : List UInt8) :
    ∃ clean, strip before = .ok clean ∧
      strip (before ++ comment.text ++ after) =
        match strip after with
        | .ok rest => .ok (clean ++ comment.worth ++ rest)
        | .error line => .error (line + newlines (before ++ comment.text)) := by
  obtain ⟨line, clean, ran, stripped⟩ := neutral.exists_run
  obtain ⟨lineAfter, vanished⟩ := complete.vanishes line
  refine ⟨clean, stripped, ?_⟩
  have commented : Stripper.initial.run (before ++ comment.text) =
      (⟨.plain, lineAfter⟩, clean ++ comment.worth) := by
    rw [Stripper.run_append, ran, vanished, complete.worth_eq]
  rw [strip_append commented]
  cases strip after <;> rfl

/-- A comment full of markers, between a marker in quotes and a string that never ends. -/
theorem strip_comment_crowded :
    let before := Utf8.encode "k \"/*\" \\/"
    let comment := Comment.block (Utf8.encode "/ \"\n# \\ // *")
    let after := Utf8.encode ";\nv \"x"
    Neutral before ∧ comment.Complete ∧ strip before = .ok before ∧ strip after = .error 2 ∧
      strip (before ++ comment.text ++ after) = .error 3 ∧
      strip (before ++ comment.text ++ [semicolon]) = .ok (before ++ [newline, semicolon]) := by
  intro before comment after
  have neutral : Neutral before := by decide
  have complete : comment.Complete := by
    show ¬ [star, slash] <:+: Utf8.encode "/ \"\n# \\ // *"
    decide
  have stripped : strip before = .ok before := by decide
  have endless : strip after = .error 2 := by decide
  obtain ⟨clean, cleaned, failing⟩ := strip_comment neutral complete after
  obtain ⟨_, same, passing⟩ := strip_comment neutral complete [semicolon]
  obtain rfl : before = clean := Except.ok.inj (stripped.symm.trans cleaned)
  obtain rfl := Except.ok.inj (stripped.symm.trans same)
  rw [endless] at failing
  exact ⟨neutral, complete, stripped, endless, failing, passing⟩

end ServiceConfig.Grammar
