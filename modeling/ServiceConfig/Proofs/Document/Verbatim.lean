import ServiceConfig.Proofs.Document.Location
import ServiceConfig.Proofs.Tree.Growth

/-! # What is quoted

The stripper and the scanner of values follow quotes each on its own. For the stripper alone a
backslash outside quotes protects the byte behind it, and a quote inside a name opens a string.
Where neither happens, both take the same bytes for quoted, and every quoted part of a value stands
in the text as it stands in the script, comment markers and all.
-/

namespace ServiceConfig

open Ascii

namespace Grammar

/-- Behind the bytes `done` of the script, the bytes `span` stand in the text without a gap. -/
def Copied (text done span : List UInt8) : Prop :=
  ∃ front back, trace text = front ++ span.map (·, true) ++ back ∧ kept front = done

/-- Inside quotes a byte is kept. -/
theorem Stripper.trace_quoted {state : Stripper} {text more : List UInt8} {byte : UInt8}
    (quoted : state.mode.guard = .inside ∨ state.mode.guard = .escaped)
    (keeps : kept (state.trace text) = byte :: more) :
    ∃ rest, state.trace text = (byte, true) :: (state.step byte).1.trace rest ∧
      kept ((state.step byte).1.trace rest) = more ∧
      (state.step byte).1.mode.guard = state.mode.guard.step byte := by
  cases text with
  | nil => cases keeps
  | cons first rest =>
    have all : state.mode.keeps first rest = true := by
      cases mode : state.mode <;> simp_all [Mode.guard, Mode.keeps]
    rw [trace, all] at keeps ⊢
    obtain ⟨rfl, later⟩ := List.cons.inj keeps
    refine ⟨rest, rfl, later, ?_⟩
    have stepped : (state.step first).1.mode.guard = _ :=
      state.mode.guard_step state.line first rest
    rw [stepped, all, if_pos rfl]

theorem Stripper.trace_quotation {state : Stripper} {text part more : List UInt8}
    (quotation : Quotation part) (inside : state.mode.guard = .inside)
    (keeps : kept (state.trace text) = part ++ more) :
    ∃ back, state.trace text = part.map (·, true) ++ back := by
  induction quotation generalizing state text with
  | close =>
    obtain ⟨rest, whole, -⟩ := trace_quoted (.inl inside) keeps
    exact ⟨_, whole⟩
  | byte notQuote notBackslash _ ih =>
    obtain ⟨rest, whole, later, stepped⟩ := trace_quoted (.inl inside) keeps
    rw [inside, Guard.step, if_neg notQuote, if_neg notBackslash] at stepped
    obtain ⟨back, behind⟩ := ih stepped later
    exact ⟨back, by rw [whole, behind]; rfl⟩
  | guarded _ ih =>
    obtain ⟨rest, whole, later, stepped⟩ := trace_quoted (.inl inside) keeps
    have stepped := stepped.trans (congrArg (Guard.step · backslash) inside)
    obtain ⟨after, wholeAfter, laterAfter, steppedAfter⟩ := trace_quoted (.inr stepped) later
    have steppedAfter := steppedAfter.trans (congrArg (Guard.step · _) stepped)
    obtain ⟨back, behind⟩ := ih steppedAfter laterAfter
    exact ⟨back, by rw [whole, wholeAfter, behind]; rfl⟩

/-- A quoted part of the script is copied if the stripper takes its opening quote for one. -/
theorem copied_of_outside {text source done part rest : List UInt8}
    (stripped : strip text = .ok source) (whole : source = done ++ quote :: (part ++ rest))
    (quotation : Quotation part) (outside : Guard.outside.after done = .outside) :
    Copied text done (quote :: part) := by
  have first : done <+: kept (trace text) := by
    rw [kept_trace stripped, whole]
    exact List.prefix_append done _
  obtain ⟨front, back, split, rfl, stands⟩ := exists_kept_split first
  obtain ⟨guarded, behind⟩ := Stripper.trace_split split
  have keeps : kept back = quote :: (part ++ rest) := by
    rw [← kept_trace stripped, split, kept_append] at whole
    exact List.append_cancel_left whole
  generalize (Stripper.initial.run (front.map Prod.fst)).1 = state at guarded behind
  have guarded : state.mode.guard = .outside := guarded.trans outside
  rcases back with _ | ⟨⟨byte, marked⟩, back⟩
  · cases keeps
  cases marked with
  | false => exact absurd rfl (stands byte)
  | true =>
    obtain ⟨rfl, later⟩ := List.cons.inj keeps
    obtain ⟨here, behind⟩ := List.cons.inj behind
    have all := (Prod.mk.inj here).2
    have stepped : (state.step quote).1.mode.guard = _ :=
      state.mode.guard_step state.line quote (back.map Prod.fst)
    rw [all, if_pos rfl, guarded] at stepped
    rw [← behind] at later
    obtain ⟨more, copied⟩ := Stripper.trace_quotation quotation stepped later
    refine ⟨front, more, ?_, rfl⟩
    rw [split, ← behind, copied]
    simp

namespace Guard

variable {guard : Guard} {bytes : List UInt8}

/-- The stripper is in no string. -/
def Free (guard : Guard) : Prop := guard = .outside ∨ guard = .guarded

theorem Free.step {byte : UInt8} (free : guard.Free) (notQuote : byte ≠ quote) :
    (guard.step byte).Free := by
  rcases free with rfl | rfl
  · rw [Guard.step, if_neg notQuote]
    split_ifs
    · exact .inr rfl
    · exact .inl rfl
  · exact .inl rfl

theorem Free.after (free : guard.Free) (notQuote : quote ∉ bytes) : (guard.after bytes).Free := by
  induction bytes generalizing guard with
  | nil => exact free
  | cons byte bytes ih =>
    obtain ⟨apart, notQuote⟩ := not_or.mp (mt List.mem_cons.mpr notQuote)
    exact ih (free.step (Ne.symm apart)) notQuote

/-- A byte that is neither a quote nor a backslash leads out of the protection of the one before. -/
theorem Free.ordinary {byte : UInt8} (free : guard.Free) (notQuote : byte ≠ quote)
    (notBackslash : byte ≠ backslash) : guard.step byte = .outside := by
  rcases free with rfl | rfl
  · rw [Guard.step, if_neg notQuote, if_neg notBackslash]
  · rfl

theorem Free.mark {mark : UInt8} (free : guard.Free) (delimits : isDelimiter mark = true) :
    guard.after [mark] = .outside := by
  refine free.ordinary ?_ ?_ <;> rintro rfl <;> cases delimits

theorem Free.blanks (free : guard.Free) (blanks : Blanks bytes) (some : bytes ≠ []) :
    guard.after bytes = .outside := by
  induction bytes generalizing guard with
  | nil => exact absurd rfl some
  | cons byte bytes ih =>
    obtain ⟨notQuote, notBackslash, -⟩ := ordinary_of_isBlank (blanks byte (List.mem_cons_self ..))
    have stepped : guard.step byte = .outside := free.ordinary notQuote notBackslash
    by_cases last : bytes = []
    · subst last
      exact stepped
    · rw [← List.singleton_append, after_append]
      exact ih (.inl stepped) (fun byte member => blanks byte (List.mem_cons_of_mem _ member)) last

private theorem outside_blanks (blanks : Blanks bytes) : Guard.outside.after bytes = .outside := by
  by_cases none : bytes = []
  · rw [none]
    rfl
  · exact Free.blanks (.inl rfl) blanks none

/-- A raw value leaves the stripper in no string, if it protects no opening quote. -/
theorem Free.raw {raw : List UInt8} (free : guard.Free) (value : RawValue raw)
    (opens : ∀ front rest, RawValue front → raw = front ++ quote :: rest →
      guard.after front ≠ .guarded) : (guard.after raw).Free := by
  induction value generalizing guard with
  | nil => exact free
  | @byte byte rest notQuote passes _ ih =>
    refine ih (free.step notQuote) fun front more value whole => ?_
    exact opens (byte :: front) more (.byte notQuote passes value) (by rw [whole]; rfl)
  | @quoted part rest inside _ ih =>
    have outside : guard = .outside := free.resolve_right (opens [] _ .nil rfl)
    have passed : guard.after (quote :: part) = .outside := by
      rw [outside]
      exact inside_quotation inside
    rw [after_append, passed]
    refine ih (.inl rfl) fun front more value whole => ?_
    have opened := opens (quote :: part ++ front) more (.quoted inside value) (by simp [whole])
    rwa [after_append, passed] at opened

end Guard

/-- A head ends with its raw value and its mark. -/
theorem Head.exists_lead {mark : UInt8} {name raw text : List UInt8}
    (head : Head mark name raw text) : ∃ lead, text = lead ++ raw ++ [mark] := by
  cases head with
  | bare | lone => exact ⟨[], rfl⟩
  | named => exact ⟨_, rfl⟩

theorem Head.value {mark : UInt8} {name raw text : List UInt8} (head : Head mark name raw text) :
    RawValue raw := by
  cases head with
  | bare value | lone value | named value => exact value

/-- A name without quotes leaves the next byte unprotected, if anything stands in front of the
mark. -/
theorem Head.guard_lead {mark : UInt8} {name raw lead : List UInt8}
    (head : Head mark name raw (lead ++ raw ++ [mark])) (notQuote : quote ∉ name) :
    (Guard.outside.after lead).Free ∧ (raw ≠ [] → Guard.outside.after lead = .outside) := by
  generalize text_eq : lead ++ raw ++ [mark] = text at head
  cases head with
  | bare | lone =>
    have none : lead = [] := by simpa using text_eq
    subst none
    exact ⟨.inl rfl, fun _ => rfl⟩
  | @named _ gap _ value opens isWord ends blanks valued =>
    obtain rfl : lead = name ++ gap := List.append_cancel_right (List.append_cancel_right text_eq)
    have free : (Guard.outside.after name).Free := Guard.Free.after (.inl rfl) notQuote
    rw [Guard.after_append]
    by_cases apart : gap = []
    · subst apart
      refine ⟨free, fun some => ?_⟩
      -- without blanks the name ends at a delimiter, and no value begins with one
      obtain ⟨first, after, starts, notWord⟩ := ends
      obtain ⟨_, _, same, visible, -⟩ := valued
      obtain ⟨rfl, -⟩ := List.cons.inj (same.symm.trans starts)
      cases value with
      | nil => exact absurd rfl some
      | byte _ passes =>
        obtain ⟨rfl, -⟩ := List.cons.inj starts
        rw [isWordByte, visible, passes] at notWord
        cases notWord
      | quoted =>
        obtain ⟨rfl, -⟩ := List.cons.inj starts
        cases notWord
    · have outside := free.blanks blanks apart
      exact ⟨.inl outside, fun _ => outside⟩

/-- A head without quotes in its name and without protected quotes in its value leaves the stripper
in ordinary text, and so does what stands in front of an opening quote. -/
theorem Head.guard {mark : UInt8} {name raw lead : List UInt8}
    (head : Head mark name raw (lead ++ raw ++ [mark])) (delimits : isDelimiter mark = true)
    (notQuote : quote ∉ name)
    (opens : ∀ front rest, RawValue front → raw = front ++ quote :: rest →
      Guard.outside.after front ≠ .guarded) :
    Guard.outside.after (lead ++ raw ++ [mark]) = .outside ∧
      ∀ front rest, RawValue front → raw = front ++ quote :: rest →
        Guard.outside.after (lead ++ front) = .outside := by
  obtain ⟨free, outside⟩ := head.guard_lead notQuote
  constructor
  · by_cases none : raw = []
    · subst none
      rw [List.append_nil, Guard.after_append]
      exact free.mark delimits
    · rw [Guard.after_append, Guard.after_append, outside none]
      exact Guard.Free.mark (Guard.Free.raw (.inl rfl) head.value opens) delimits
  · rintro front rest value rfl
    rw [Guard.after_append, outside (by simp)]
    have free : (Guard.outside.after front).Free := by
      refine Guard.Free.raw (.inl rfl) value fun former more passed whole => ?_
      exact opens former (more ++ quote :: rest) passed (by rw [whole, List.append_assoc]; rfl)
    exact free.resolve_right (opens front rest value rfl)

end Grammar

namespace Document

open Grammar

/-- A statement of a script has this name, and this raw value behind `place`. -/
def Valued (source name place raw : List UInt8) : Prop :=
  ∃ opened before lead mark rest, Due source 0 opened before (lead ++ raw ++ [mark] ++ rest) ∧
    isDelimiter mark = true ∧ mark ≠ closeBrace ∧ Head mark name raw (lead ++ raw ++ [mark]) ∧
    place = before ++ lead

/-- No name has a quote, and no opening quote of a value is protected by a backslash. -/
def Tidy (source : List UInt8) : Prop :=
  ∀ name place raw, Valued source name place raw → quote ∉ name ∧
    ∀ front rest, RawValue front → raw = front ++ quote :: rest →
      Guard.outside.after front ≠ .guarded

section

variable {source done gap rest : List UInt8} {opened : List (List UInt8)}

private theorem due_of_head {mark : UInt8} {name raw head : List UInt8}
    (reached : Reached 0 done opened) (blanks : Blanks gap) (begins : Head mark name raw head)
    (whole : source = done ++ gap ++ head ++ rest) :
    Due source 0 opened (done ++ gap) (head ++ rest) := by
  refine ⟨done, gap, reached, blanks, rfl, by rw [whole, List.append_assoc _ head], ?_⟩
  exact begins.visible.stops (fun _ => And.left) rest

private theorem guard_of_head {mark : UInt8} {name raw head : List UInt8} (tidy : Tidy source)
    (reached : Reached 0 done opened) (blanks : Blanks gap) (begins : Head mark name raw head)
    (delimits : isDelimiter mark = true) (continues : mark ≠ closeBrace)
    (whole : source = done ++ gap ++ head ++ rest) (outside : Guard.outside.after done = .outside) :
    Guard.outside.after (done ++ gap ++ head) = .outside := by
  obtain ⟨lead, rfl⟩ := begins.exists_lead
  have due := due_of_head reached blanks begins whole
  obtain ⟨notQuote, opens⟩ :=
    tidy name _ raw ⟨opened, done ++ gap, lead, mark, rest, due, delimits, continues, begins, rfl⟩
  have outside : Guard.outside.after (done ++ gap) = .outside := by
    rw [Guard.after_append, outside, Guard.outside_blanks blanks]
  rw [Guard.after_append _ (done ++ gap), outside]
  exact (begins.guard delimits notQuote opens).1

/-- In a tidy script the stripper is in ordinary text wherever the scanner begins a statement. -/
theorem Reached.guard (tidy : Tidy source) (reached : Reached 0 done opened)
    (whole : source = done ++ rest) : Guard.outside.after done = .outside := by
  induction reached generalizing rest with
  | start => rfl
  | leaf reached blanks begins ih =>
    have outside := ih (by rw [whole, List.append_assoc, List.append_assoc])
    exact guard_of_head tidy reached blanks begins rfl (by decide) whole outside
  | opening reached blanks begins room ih =>
    have outside := ih (by rw [whole, List.append_assoc, List.append_assoc])
    exact guard_of_head tidy reached blanks begins rfl (by decide) whole outside
  | @closing done gap gapEnd _ _ reached blanks blanksEnd ih =>
    have outside := ih (by rw [whole, List.append_assoc, List.append_assoc])
    have braced : Guard.outside.after (closeBrace :: (gapEnd ++ [semicolon])) =
        (Guard.outside.after gapEnd).after [semicolon] := Guard.after_append ..
    rw [Guard.after_append, Guard.after_append, outside, Guard.outside_blanks blanks, braced,
      Guard.outside_blanks blanksEnd]
    rfl

theorem Due.guard {place : List UInt8} (tidy : Tidy source) (due : Due source 0 opened place rest) :
    Guard.outside.after place = .outside := by
  obtain ⟨done, gap, reached, blanks, rfl, whole, -⟩ := due
  rw [Guard.after_append, reached.guard tidy (by rw [whole, List.append_assoc]),
    Guard.outside_blanks blanks]

end

/-- Every quoted part that the scanner takes from a tidy script for a value stands in the text as
it stands in the script: nothing of it was removed as a comment. -/
theorem quoted_verbatim {files : Files} {origin : String} {text : List UInt8} {tree : Tree}
    (accepted : Tree.parse files origin text = .ok tree)
    (tidy : ∀ source, strip text = .ok source → Tidy source) :
    ∃ source, strip text = .ok source ∧ ∀ name place raw, Valued source name place raw →
      ∀ front part back, RawValue front → Quotation part → raw = front ++ quote :: part ++ back →
        Copied text (place ++ front) (quote :: part) := by
  obtain ⟨events, said, -⟩ := map_eq_ok.mp accepted
  obtain ⟨source, -, stripped, -⟩ := Script.exists_reads_ofText (complaint_eq_none said)
  refine ⟨source, stripped, ?_⟩
  rintro name _ raw ⟨opened, before, lead, mark, rest, due, delimits, continues, head, rfl⟩
    front part back value quotation rfl
  have tidy := tidy source stripped
  obtain ⟨notQuote, opens⟩ := tidy name _ _
    ⟨opened, before, lead, mark, rest, due, delimits, continues, head, rfl⟩
  have outside : Guard.outside.after (before ++ lead ++ front) = .outside := by
    rw [List.append_assoc, Guard.after_append, due.guard tidy]
    exact (head.guard delimits notQuote opens).2 front _ value (List.append_assoc ..)
  have whole : source = before ++ lead ++ front ++ quote :: (part ++ (back ++ mark :: rest)) := by
    obtain ⟨_, _, -, -, -, whole, -⟩ := due
    simpa using whole
  exact copied_of_outside stripped whole quotation outside

/-- The name and the raw value of the only statement of a script. -/
theorem Valued.alone {source name place raw : List UInt8} {statement : Statement}
    (scanned : Script.scan ⟨source, 1⟩ [] = ⟨[statement], none⟩)
    (visible : ∀ byte, source.head? = some byte → isBlank byte = false)
    (valued : Valued source name place raw) :
    ∃ mark rest line, Cursor.name ⟨source, 1⟩ = .ok (name, ⟨raw ++ mark :: rest, line⟩) ∧
      splitValue (raw ++ mark :: rest) = (raw, mark :: rest) := by
  obtain ⟨opened, before, lead, mark, rest, due, delimits, continues, head, rfl⟩ := valued
  obtain ⟨done, gap, reached, blanks, rfl, whole, -⟩ := due
  -- a statement in front of this one would be another one
  obtain ⟨front, start, again⟩ := reached.scan (gap ++ (lead ++ raw ++ [mark] ++ rest))
  rw [← List.append_assoc, ← whole, scanned,
    Script.scan_head blanks head delimits continues, Script.prepend_prepend] at again
  have unread : front = [] := by
    have counted := congrArg (List.length <| Script.statements ·) again
    simp only [Script.prepend, List.length_append, List.length_singleton] at counted
    exact List.eq_nil_of_length_eq_zero (by omega)
  obtain rfl := start unread
  have whole : source = gap ++ (lead ++ raw ++ [mark] ++ rest) := whole
  have apart : gap = [] := by
    cases gap with
    | nil => rfl
    | cons byte gap =>
      have seen := visible byte (by rw [whole]; rfl)
      rw [blanks byte (List.mem_cons_self ..)] at seen
      cases seen
  rw [apart, List.nil_append] at whole
  obtain ⟨line, named, splits, -⟩ := head.name_eq delimits rest 1
  exact ⟨mark, rest, line, whole ▸ named, splits⟩

/-- The text `a "#";`, where the comment marker is quoted. -/
theorem quoted_verbatim_marker :
    let text : List UInt8 := [97, space, quote, hash, quote, semicolon]
    (∃ tree, Tree.parse (fun _ => .error .notFound) "demo" text = .ok tree) ∧
    strip text = .ok text ∧ Tidy text ∧ Valued text [97] [97, space] [quote, hash, quote] ∧
    Copied text [97, space] [quote, hash, quote] := by
  intro text
  have stripped : strip text = .ok text := by decide
  have scripted : Script.ofText [97, space, quote, hash, quote, semicolon] =
      ⟨[⟨1, .leaf "a" "#"⟩], none⟩ := by cbv
  have accepted : Tree.parse (fun _ => .error .notFound) "demo" text =
      .ok (Tree.ofEvents [.leaf "a" "#"]) := by
    rw [Tree.parse, Document.parse, ofText, scripted]
    rfl
  have scanned : Script.scan ⟨text, 1⟩ [] = ⟨[⟨1, .leaf "a" "#"⟩], none⟩ := by
    rw [← scripted, Script.ofText, stripped]
  have visible : ∀ byte, text.head? = some byte → isBlank byte = false := by
    rintro _ ⟨⟩
    rfl
  have marker : Quotation [hash, quote] := .byte (by decide) (by decide) .close
  have tidy : Tidy text := by
    intro name place raw valued
    obtain ⟨mark, rest, line, named, splits⟩ := valued.alone scanned visible
    have read : Cursor.name ⟨text, 1⟩ = .ok ([97], ⟨[quote, hash, quote, semicolon], 1⟩) := by
      decide
    have split : splitValue [quote, hash, quote, semicolon] =
        ([quote, hash, quote], [semicolon]) := by decide
    have unguarded : ∀ front ∈ [quote, hash, quote].inits,
        Guard.outside.after front ≠ .guarded := by decide
    obtain ⟨rfl, value⟩ := Prod.mk.inj (Except.ok.inj (read.symm.trans named))
    have value : [quote, hash, quote, semicolon] = raw ++ mark :: rest := congrArg Cursor.rest value
    rw [← value] at splits
    obtain ⟨rfl, -⟩ := Prod.mk.inj (split.symm.trans splits)
    refine ⟨by decide, fun front rest _ whole => unguarded front ((List.mem_inits _ _).mpr ?_)⟩
    exact ⟨quote :: rest, whole.symm⟩
  have head : Head semicolon [97] [quote, hash, quote]
      ([97] ++ [space] ++ [quote, hash, quote] ++ [semicolon]) :=
    .named (.quoted marker .nil) ⟨97, _, rfl, by decide⟩ (List.forall_mem_singleton.mpr rfl)
      ⟨space, _, rfl, rfl⟩ (List.forall_mem_singleton.mpr rfl) ⟨quote, _, rfl, by decide⟩
  have due : Due text 0 [] [] text := ⟨[], [], .start, blanks_nil, rfl, rfl, visible⟩
  have valued : Valued text [97] [97, space] [quote, hash, quote] :=
    ⟨[], [], [97, space], semicolon, [], due, rfl, by decide, head, rfl⟩
  obtain ⟨source, same, copied⟩ := quoted_verbatim accepted fun source same =>
    Except.ok.inj (stripped.symm.trans same) ▸ tidy
  obtain rfl := Except.ok.inj (stripped.symm.trans same)
  exact ⟨⟨_, accepted⟩, stripped, tidy, valued, copied _ _ _ valued [] _ [] .nil marker rfl⟩

/-- The text `a \"/**/"\"";`. For the stripper the backslash protects the first quote, so that a
comment follows; for the scanner the quote opens a quoted part, and the comment is missing from
it. -/
theorem quoted_verbatim_untidy :
    let text : List UInt8 := [97, space, backslash, quote, slash, star, star, slash, quote,
      backslash, quote, quote, semicolon]
    let source : List UInt8 := [97, space, backslash, quote, quote, backslash, quote, quote,
      semicolon]
    (∃ tree, Tree.parse (fun _ => .error .notFound) "demo" text = .ok tree) ∧
    strip text = .ok source ∧
    Valued source [97] [97, space] [backslash, quote, quote, backslash, quote, quote] ∧
    RawValue [backslash] ∧ Quotation [quote] ∧
    ¬ Copied text [97, space, backslash] [quote, quote] := by
  intro text source
  have stripped : strip text = .ok source := by decide
  have scripted : Script.ofText [97, space, backslash, quote, slash, star, star, slash, quote,
      backslash, quote, quote, semicolon] = ⟨[⟨1, .leaf "a" "\\\\"⟩], none⟩ := by cbv
  have accepted : Tree.parse (fun _ => .error .notFound) "demo" text =
      .ok (Tree.ofEvents [.leaf "a" "\\\\"]) := by
    rw [Tree.parse, Document.parse, ofText, scripted]
    rfl
  have empty : Quotation [quote] := .close
  have protects : RawValue [backslash] := .byte (by decide) rfl .nil
  have value : RawValue [backslash, quote, quote, backslash, quote, quote] :=
    .byte (by decide) rfl (.quoted empty (.byte (by decide) rfl (.quoted empty .nil)))
  have head : Head semicolon [97] [backslash, quote, quote, backslash, quote, quote]
      ([97] ++ [space] ++ [backslash, quote, quote, backslash, quote, quote] ++ [semicolon]) :=
    .named value ⟨97, _, rfl, by decide⟩ (List.forall_mem_singleton.mpr rfl) ⟨space, _, rfl, rfl⟩
      (List.forall_mem_singleton.mpr rfl) ⟨backslash, _, rfl, by decide⟩
  have due : Due source 0 [] [] source := ⟨[], [], .start, blanks_nil, rfl, rfl, by
    rintro _ ⟨⟩
    rfl⟩
  have removed : ¬ Copied text [97, space, backslash] [quote, quote] := by
    rintro ⟨front, back, copied, same⟩
    have traced : trace text = [(97, true), (space, true), (backslash, true)] ++ [(quote, true),
      (slash, false), (star, false), (star, false), (slash, false), (quote, true),
      (backslash, true), (quote, true), (quote, true), (semicolon, true)] := by decide
    have placed : kept [(97, true), (space, true), (backslash, true)] = kept front := same.symm
    rw [List.append_assoc, traced] at copied
    obtain ⟨-, behind⟩ := kept_split_unique placed copied (by simp) (by simp)
    cases behind
  exact ⟨⟨_, accepted⟩, stripped,
    ⟨[], [], [97, space], semicolon, [], due, rfl, by decide, head, rfl⟩, protects, empty, removed⟩

end Document

end ServiceConfig
