import ServiceConfig.Proofs.Text.Lenient
import ServiceConfig.Proofs.Text.Validity

/-! # Reading bytes in two parts

Bytes that may be malformed can be read in two parts and give the same text, unless they were cut
within a character. The decoder shows where that is: it stands in a sequence at the end of the first
part, and the next byte goes on with it. Read as one, the bytes on both sides of such a cut are one
character or one malformed piece; read in two parts they are two malformed pieces.
-/

namespace ServiceConfig.Utf8

variable {pending : Option Partial} {sequence : Partial} {byte : UInt8} {char : Char}
  {front back bytes rest : List UInt8}

/-- The cut is within a character: a part of its encoding stands at the end of the front, and the
first byte of the back goes on with it. -/
def Severs (front back : List UInt8) : Prop :=
  ∃ before part byte rest char, front = before ++ part ∧ part ≠ [] ∧ back = byte :: rest ∧
    part ++ [byte] <+: String.utf8EncodeChar char

theorem start_opened (begins : (start byte).2 = some sequence) :
    start byte = ([], some sequence) ∧ sequence.Long := by
  rcases start_cases byte with ⟨char, ends, -⟩ | ⟨next, goes, long⟩ | malformed
  · rw [ends] at begins
    cases begins
  · rw [goes] at begins ⊢
    cases begins
    exact ⟨rfl, long⟩
  · rw [malformed] at begins
    cases begins

/-- A sequence in progress was begun by the last byte, or went on with it. -/
theorem advance_opened (long : ∀ previous ∈ pending, previous.Long)
    (opened : (advance pending byte).2 = some sequence) :
    sequence.Long ∧ (start byte = ([], some sequence) ∨
      pending.isSome ∧ advance pending byte = ([], some sequence)) := by
  cases pending with
  | none =>
    obtain ⟨begins, long⟩ := start_opened opened
    exact ⟨long, .inl begins⟩
  | some previous =>
    rcases (long previous rfl).advance_cases byte with ⟨char, ends, -⟩ | ⟨next, goes, long⟩ | gives
    · rw [ends] at opened
      cases opened
    · rw [goes] at opened ⊢
      cases opened
      exact ⟨long, .inr ⟨rfl, rfl⟩⟩
    · rw [gives] at opened
      obtain ⟨begins, long⟩ := start_opened opened
      exact ⟨long, .inl begins⟩

/-- A byte that fits goes on with the sequence or completes it. -/
theorem Partial.Long.advance_fits (long : sequence.Long) (fits : Fits sequence.next byte.toNat) :
    (∃ char, advance (some sequence) byte = ([some char], none)) ∨
      ∃ next, advance (some sequence) byte = ([], some next) ∧ next.Long := by
  rcases long.advance_cases byte with ⟨char, ends, -⟩ | goes | gives
  · exact .inl ⟨char, ends⟩
  · exact .inr goes
  · rw [advance] at gives
    simp only [UInt8.le_iff_toNat_le, fits.1, fits.2, decide_true, Bool.and_self,
      if_true] at gives
    split at gives <;> cases gives

/-- A byte that does not fit ends the sequence and begins a new piece. -/
theorem advance_apart (apart : ¬ Fits sequence.next byte.toNat) :
    advance (some sequence) byte = (none :: (start byte).1, (start byte).2) := by
  have apart : ¬ (sequence.next.1.toNat ≤ byte.toNat ∧ byte.toNat ≤ sequence.next.2.toNat) := apart
  rw [advance]
  simp only [UInt8.le_iff_toNat_le, Bool.and_eq_true, decide_eq_true_eq, if_neg apart]

/-- A byte that fits begins nothing itself. -/
theorem Partial.Long.start_fits (long : sequence.Long) (fits : Fits sequence.next byte.toNat) :
    start byte = ([none], none) := by
  have lower := Nat.le_trans long.lower fits.1
  have upper := Nat.le_trans fits.2 long.upper
  rw [start, lead_eq, if_neg (by omega), if_pos (by omega)]

/-- A sequence in progress can be completed behind any byte that fits. -/
theorem exists_completion {bits : Nat} {expected : UInt8 × UInt8} {later : List (UInt8 × UInt8)}
    (continues : ∀ range ∈ later, range = continuation) (fits : Fits expected byte.toNat) :
    ∃ rest char, decodeFrom (some ⟨bits, expected, later⟩) (byte :: rest) = [some char] := by
  have same : UInt8.ofNat byte.toNat = byte := UInt8.ofNat_toNat
  induction later generalizing bits expected byte with
  | nil =>
    rw [← same]
    exact ⟨[], _, decodeFrom_last fits []⟩
  | cons range later ih =>
    obtain ⟨rfl, still⟩ := List.forall_mem_cons.mp continues
    have least : Fits continuation (0x80 : UInt8).toNat := fits_continuation 0
    obtain ⟨rest, char, complete⟩ : ∃ rest char, decodeFrom
        (some ⟨bits * 64 + byte.toNat % 64, continuation, later⟩) (0x80 :: rest) = [some char] :=
      ih still least rfl
    refine ⟨0x80 :: rest, char, ?_⟩
    rw [← same, decodeFrom_next fits, complete]

/-- The pieces that are finished within the bytes, and the sequence in progress behind them. -/
def run (pending : Option Partial) : List UInt8 → List (Option Char) × Option Partial
  | [] => ([], pending)
  | byte :: rest =>
    let (pieces, opened) := advance pending byte
    let (later, last) := run opened rest
    (pieces ++ later, last)

theorem run_cons (pending : Option Partial) (byte : UInt8) (rest : List UInt8) :
    run pending (byte :: rest) =
      ((advance pending byte).1 ++ (run (advance pending byte).2 rest).1,
        (run (advance pending byte).2 rest).2) := rfl

theorem run_append (pending : Option Partial) (front back : List UInt8) :
    run pending (front ++ back) =
      ((run pending front).1 ++ (run (run pending front).2 back).1,
        (run (run pending front).2 back).2) := by
  induction front generalizing pending with
  | nil => rfl
  | cons byte front ih => rw [List.cons_append, run_cons, ih, run_cons, List.append_assoc]

private theorem run_snoc (pending : Option Partial) (front : List UInt8) (byte : UInt8) :
    run pending (front ++ [byte]) =
      ((run pending front).1 ++ (advance (run pending front).2 byte).1,
        (advance (run pending front).2 byte).2) := by
  rw [run_append, run_cons, run, List.append_nil]

private theorem decodeFrom_cons (pending : Option Partial) (byte : UInt8) (rest : List UInt8) :
    decodeFrom pending (byte :: rest) =
      (advance pending byte).1 ++ decodeFrom (advance pending byte).2 rest := rfl

private theorem decodeFrom_append (pending : Option Partial) (front back : List UInt8) :
    decodeFrom pending (front ++ back) =
      (run pending front).1 ++ decodeFrom (run pending front).2 back := by
  induction front generalizing pending with
  | nil => rfl
  | cons byte front ih =>
    rw [List.cons_append, decodeFrom_cons, ih, run_cons, List.append_assoc]

private theorem run_long (bytes : List UInt8) : ∀ sequence ∈ (run none bytes).2, sequence.Long := by
  induction bytes using List.reverseRecOn with
  | nil => exact nothing_long
  | append_singleton front byte ih =>
    intro sequence opened
    rw [run_snoc] at opened
    exact (advance_opened ih opened).1

/-- Bytes that finish no piece leave one open. -/
theorem isSome_run (some : bytes ≠ []) (unfinished : (run pending bytes).1 = []) :
    (run pending bytes).2.isSome := by
  induction bytes generalizing pending with
  | nil => exact absurd rfl some
  | cons byte rest ih =>
    rw [run_cons] at unfinished ⊢
    obtain ⟨first, later⟩ := List.append_eq_nil_iff.mp unfinished
    cases rest with
    | nil => exact isSome_advance first
    | cons next rest => exact ih (List.cons_ne_nil next rest) later

/-- The sequence in progress is all that the bytes are from some place on. -/
theorem exists_part (opened : (run none front).2 = some sequence) :
    ∃ before part, front = before ++ part ∧ part ≠ [] ∧ run none part = ([], some sequence) := by
  -- from the right: the last byte either begins the sequence or goes on with one before it
  induction front using List.reverseRecOn generalizing sequence with
  | nil => cases opened
  | append_singleton front byte ih =>
    rw [run_snoc] at opened
    rcases (advance_opened (run_long front) opened).2 with begins | ⟨live, goes⟩
    · refine ⟨front, [byte], rfl, List.cons_ne_nil byte [], ?_⟩
      rw [run_cons, advance, begins]
      rfl
    · obtain ⟨previous, opened⟩ := Option.isSome_iff_exists.mp live
      obtain ⟨before, part, rfl, -, ran⟩ := ih opened
      refine ⟨before, part ++ [byte], List.append_assoc .., by simp, ?_⟩
      rw [opened] at goes
      rw [run_snoc, ran, goes]
      rfl

/-- A part of a character's encoding is a sequence in progress, and the next byte fits. -/
theorem run_part {part : List UInt8} (some : part ≠ [])
    (cut : part ++ [byte] <+: String.utf8EncodeChar char) :
    ∃ sequence, run none part = ([], Option.some sequence) ∧ Fits sequence.next byte.toNat := by
  obtain ⟨tail, whole⟩ := cut
  have read := decode_encodeChars [char]
  rw [encodeChars, List.flatMap_singleton, ← whole, List.append_assoc, decode,
    decodeFrom_append] at read
  have later : decodeFrom (run none part).2 ([byte] ++ tail) ≠ [] := by
    intro nothing
    cases (decodeFrom_eq_nil nothing).2
  obtain ⟨unfinished, read⟩ : (run none part).1 = [] ∧
      decodeFrom (run none part).2 ([byte] ++ tail) = [Option.some char] := by
    rcases List.append_eq_singleton_iff.mp read with split | ⟨-, nothing⟩
    · exact split
    · exact absurd nothing later
  obtain ⟨sequence, opened⟩ := Option.isSome_iff_exists.mp (isSome_run some unfinished)
  rw [opened] at read
  have completes : Completes (Option.some sequence) ([byte] ++ tail) := by
    rw [Completes, read]
    rfl
  obtain ⟨_, _, same, fits⟩ := completes.exists_fits
  obtain ⟨rfl, -⟩ := List.cons.inj same
  exact ⟨sequence, Prod.ext unfinished opened, fits⟩

/-- A byte that begins a sequence begins it wherever the decoder stands. -/
theorem advance_begins (long : ∀ previous ∈ pending, previous.Long)
    (begins : start byte = ([], some sequence)) : (advance pending byte).2 = some sequence := by
  cases pending with
  | none => rw [advance, begins]
  | some previous =>
    have apart : ¬ Fits previous.next byte.toNat := by
      intro fits
      rw [(long previous rfl).start_fits fits] at begins
      cases begins
    rw [advance_apart apart, begins]

/-- The decoder stands in a sequence that the next byte goes on with. -/
theorem severs_iff : Severs front back ↔
    ∃ sequence byte rest, (run none front).2 = some sequence ∧ back = byte :: rest ∧
      Fits sequence.next byte.toNat := by
  constructor
  · rintro ⟨before, part, byte, rest, char, rfl, some, rfl, cut⟩
    obtain ⟨sequence, ran, fits⟩ := run_part some cut
    refine ⟨sequence, byte, rest, ?_, rfl, fits⟩
    obtain ⟨first, part, rfl⟩ := List.exists_cons_of_ne_nil some
    rw [run_cons] at ran
    obtain ⟨unfinished, last⟩ := Prod.mk.inj ran
    obtain ⟨opened, opens⟩ := Option.isSome_iff_exists.mp
      (isSome_advance (List.append_eq_nil_iff.mp unfinished).1)
    have begins : start first = ([], Option.some opened) := (start_opened opens).1
    rw [run_append, run_cons, advance_begins (run_long before) begins, ← opens, last]
  · rintro ⟨sequence, byte, rest, opened, rfl, fits⟩
    -- the bytes of the sequence can be completed to valid ones, which encode a single character
    obtain ⟨before, part, rfl, some, ran⟩ := exists_part opened
    have long := run_long _ sequence opened
    obtain ⟨tail, char, complete⟩ := @exists_completion _ sequence.bits _ _ long.later fits
    have read : decode (part ++ byte :: tail) = [Option.some char] := by
      rw [decode, decodeFrom_append, ran]
      exact complete
    have valid : isValid (part ++ byte :: tail) = true := by
      rw [isValid, read]
      rfl
    obtain ⟨chars, whole⟩ := isValid_iff.mp valid
    rw [whole, decode_encodeChars] at read
    obtain ⟨same, rfl, -⟩ := List.map_eq_singleton_iff.mp read
    refine ⟨before, part, byte, rest, same, rfl, some, rfl, tail, ?_⟩
    rw [encodeChars, List.flatMap_singleton] at whole
    rw [← whole, List.append_assoc]
    rfl

/-- A sequence in progress accounts for one piece at most. -/
theorem Partial.Long.length_decodeFrom_le (long : sequence.Long) (bytes : List UInt8) :
    (decodeFrom (some sequence) bytes).length ≤ (decode bytes).length + 1 := by
  induction bytes generalizing sequence with
  | nil => exact Nat.le_refl 1
  | cons byte rest ih =>
    by_cases fits : Fits sequence.next byte.toNat
    · rw [decode, decodeFrom_cons, decodeFrom_cons none, advance, long.start_fits fits]
      rcases long.advance_fits fits with ⟨char, ends⟩ | ⟨next, goes, longer⟩
      · rw [ends]
        exact Nat.le_succ _
      · rw [goes]
        exact Nat.le_succ_of_le (ih longer)
    · rw [decodeFrom_cons, advance_apart fits]
      exact Nat.le_refl _

/-- With a byte that fits, it accounts for none. -/
theorem Partial.Long.length_decodeFrom_fits (long : sequence.Long)
    (fits : Fits sequence.next byte.toNat) (rest : List UInt8) :
    (decodeFrom (some sequence) (byte :: rest)).length ≤ (decode (byte :: rest)).length := by
  rw [decode, decodeFrom_cons, decodeFrom_cons none, advance, long.start_fits fits]
  rcases long.advance_fits fits with ⟨char, ends⟩ | ⟨next, goes, longer⟩
  · rw [ends]
    exact Nat.le_refl _
  · rw [goes]
    exact longer.length_decodeFrom_le rest

private theorem decode_append_of_not_severs (whole : ¬ Severs front back) :
    decode (front ++ back) = decode front ++ decode back := by
  have alone := decodeFrom_append none front []
  rw [List.append_nil] at alone
  rw [decode, decodeFrom_append, decode, alone, List.append_assoc]
  congr 1
  cases opened : (run none front).2 with
  | none => rfl
  | some sequence =>
    cases back with
    | nil => rfl
    | cons byte rest =>
      have apart : ¬ Fits sequence.next byte.toNat :=
        fun fits => whole (severs_iff.mpr ⟨sequence, byte, rest, opened, rfl, fits⟩)
      rw [decodeFrom_cons, advance_apart apart]
      rfl

theorem Severs.length_lt (severs : Severs front back) :
    (decode (front ++ back)).length < (decode front).length + (decode back).length := by
  obtain ⟨sequence, byte, rest, opened, rfl, fits⟩ := severs_iff.mp severs
  have long := run_long _ sequence opened
  have alone := decodeFrom_append none front []
  have malformed : decodeFrom (some sequence) [] = [none] := rfl
  have shorter := long.length_decodeFrom_fits fits rest
  rw [List.append_nil, opened, malformed] at alone
  rw [decode, decodeFrom_append, opened, decode, alone, List.length_append, List.length_append,
    List.length_singleton]
  omega

/-- Behind valid bytes the decoder stands in no sequence. -/
theorem not_severs_of_isValid (valid : isValid front = true) : ¬ Severs front back := by
  intro severs
  obtain ⟨sequence, -, -, opened, -⟩ := severs_iff.mp severs
  have alone := decodeFrom_append none front []
  have malformed : decodeFrom (some sequence) [] = [none] := rfl
  rw [List.append_nil, opened, malformed] at alone
  rw [isValid, decode, alone, List.all_append, Bool.and_eq_true] at valid
  cases valid.2

/-- Bytes can be read in two parts exactly if they are not cut within a character. -/
theorem decodeLenient_append_iff : decodeLenient (front ++ back) =
    decodeLenient front ++ decodeLenient back ↔ ¬ Severs front back := by
  constructor
  · intro same severs
    have lengths := congrArg (fun text => text.toList.length) same
    simp only [decodeLenient, String.toList_append, String.toList_ofList, List.length_append,
      List.length_map] at lengths
    have shorter := severs.length_lt
    omega
  · intro whole
    rw [decodeLenient, decode_append_of_not_severs whole, List.map_append, String.ofList_append]
    rfl

end ServiceConfig.Utf8
