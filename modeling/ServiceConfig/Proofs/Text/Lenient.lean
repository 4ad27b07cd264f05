import Mathlib
import ServiceConfig.Proofs.Text.Utf8

/-! # ASCII characters of bytes that may be malformed

However malformed bytes are, an ASCII character that is read from them was a byte of its own. The
narrowed ranges of the decoder see to this: no longer sequence can stand for an ASCII character, and
what is malformed reads as the replacement character.
-/

namespace ServiceConfig.Utf8

/-- The ASCII characters but NUL, which is also what a number reads as that is no character. -/
def IsAscii (char : Char) : Prop := 0 < char.toNat ∧ char.toNat < 0x80

instance (char : Char) : Decidable (IsAscii char) :=
  inferInstanceAs (Decidable (0 < char.toNat ∧ char.toNat < 0x80))

private theorem not_isAscii_ofNat {number : Nat} (beyond : 0x80 ≤ number) :
    ¬ IsAscii (Char.ofNat number) := by
  rw [Char.ofNat]
  split
  · exact fun ascii => absurd (show number < 0x80 from ascii.2) (Nat.not_lt.mpr beyond)
  · exact fun ascii => absurd ascii.1 (Nat.lt_irrefl 0)

/-- A sequence in progress that stands for no ASCII character, however it goes on. -/
structure Partial.Long (sequence : Partial) : Prop where
  lower : 0x80 ≤ sequence.next.1.toNat
  upper : sequence.next.2.toNat ≤ 0xBF
  later : ∀ range ∈ sequence.later, range = continuation
  beyond : 0x80 ≤ (sequence.bits * 64 + (sequence.next.1.toNat - 0x80)) * 64 ^ sequence.later.length

theorem nothing_long : ∀ sequence ∈ (none : Option Partial), sequence.Long := by simp

private theorem long_of_lead {byte : UInt8} {sequence : Partial}
    (read : lead byte = .several sequence) :
    sequence.Long := by
  rw [lead_eq] at read
  -- one case for each row of the table that announces a sequence
  split_ifs at read <;> cases read <;> constructor <;> simp [continuation] <;> omega

/-- What a first byte begins. -/
theorem start_cases (byte : UInt8) :
    (∃ char : Char, start byte = ([some char], none) ∧ char.toNat = byte.toNat) ∨
      (∃ sequence, start byte = ([], some sequence) ∧ sequence.Long) ∨
      start byte = ([none], none) := by
  unfold start
  cases read : lead byte with
  | single char =>
    refine .inl ⟨char, rfl, ?_⟩
    rw [lead_eq] at read
    split_ifs at read with small
    cases read
    have valid : byte.toNat.isValidChar := .inl (by omega)
    rw [Char.ofNat, dif_pos valid]
    rfl
  | several sequence => exact .inr (.inl ⟨sequence, rfl, long_of_lead read⟩)
  | malformed => exact .inr (.inr rfl)

/-- What becomes of a sequence with one byte more: it ends, goes on, or gives way to the byte. -/
theorem Partial.Long.advance_cases {sequence : Partial} (long : sequence.Long) (byte : UInt8) :
    (∃ char, advance (some sequence) byte = ([some char], none) ∧ ¬ IsAscii char) ∨
      (∃ next, advance (some sequence) byte = ([], some next) ∧ next.Long) ∨
      advance (some sequence) byte = (none :: (start byte).1, (start byte).2) := by
  obtain ⟨bits, range, later⟩ := sequence
  obtain ⟨lower, upper, continues, beyond⟩ := long
  dsimp only at lower upper continues beyond
  by_cases fits : range.1 ≤ byte ∧ byte ≤ range.2
  · have grows : bits * 64 + (range.1.toNat - 0x80) ≤ bits * 64 + byte.toNat % 64 := by
      have above := UInt8.le_iff_toNat_le.mp fits.1
      have below := UInt8.le_iff_toNat_le.mp fits.2
      omega
    have beyond := Nat.le_trans beyond (Nat.mul_le_mul_right _ grows)
    simp only [advance, fits.1, fits.2, decide_true, Bool.and_self, if_true]
    cases later with
    | nil =>
      refine .inl ⟨_, rfl, not_isAscii_ofNat ?_⟩
      simpa using beyond
    | cons next later =>
      obtain ⟨rfl, still⟩ := List.forall_mem_cons.mp continues
      rw [List.length_cons, Nat.pow_succ', ← Nat.mul_assoc] at beyond
      exact .inr (.inl ⟨_, rfl, Nat.le_refl _, Nat.le_refl _, still, by simpa [continuation]⟩)
  · refine .inr (.inr ?_)
    simp only [advance]
    rw [if_neg (by simpa using fits)]

section

variable {sequence : Partial} {bytes : List UInt8} {char : Char}

/-- A sequence in progress never reads as an ASCII character itself. -/
theorem Partial.Long.head?_decodeFrom (long : sequence.Long) (ascii : IsAscii char) :
    (decodeFrom (some sequence) bytes).head? ≠ some (some char) := by
  induction bytes generalizing sequence with
  | nil => simp [decodeFrom]
  | cons byte rest ih =>
    rw [decodeFrom]
    rcases long.advance_cases byte with ⟨other, ends, beyond⟩ | ⟨next, goes, long⟩ | gives
    · rw [ends]
      rintro ⟨⟩
      exact beyond ascii
    · rw [goes]
      exact ih long
    · rw [gives]
      rintro ⟨⟩

/-- An ASCII character that comes first stands for the first byte. -/
private theorem head?_of_head?_decode (ascii : IsAscii char)
    (first : (decode bytes).head? = some (some char)) :
    ∃ byte, bytes.head? = some byte ∧ char.toNat = byte.toNat := by
  cases bytes with
  | nil => cases first
  | cons byte rest =>
    rw [decode, decodeFrom, advance] at first
    rcases start_cases byte with ⟨other, single, same⟩ | ⟨sequence, opens, long⟩ | malformed
    · rw [single] at first
      cases first
      exact ⟨byte, rfl, same⟩
    · rw [opens] at first
      exact absurd first (long.head?_decodeFrom ascii)
    · rw [malformed] at first
      cases first

/-- An ASCII character that is read was a byte of its own. -/
private theorem mem_of_mem_decodeFrom {pending : Option Partial}
    (long : ∀ sequence ∈ pending, sequence.Long) (ascii : IsAscii char)
    (member : some char ∈ decodeFrom pending bytes) : ∃ byte ∈ bytes, char.toNat = byte.toNat := by
  induction bytes generalizing pending with
  | nil =>
    rw [decodeFrom] at member
    split at member <;> simp at member
  | cons byte rest ih =>
    have later {opened : Option Partial} (long : ∀ sequence ∈ opened, sequence.Long)
        (member : some char ∈ decodeFrom opened rest) :
        ∃ read ∈ byte :: rest, char.toNat = read.toNat := by
      obtain ⟨other, inside, same⟩ := ih long member
      exact ⟨other, List.mem_cons_of_mem _ inside, same⟩
    -- what a byte begins, be it at the start of a piece or behind a sequence that gives way to it
    have begun (member : some char ∈ (start byte).1 ++ decodeFrom (start byte).2 rest) :
        ∃ read ∈ byte :: rest, char.toNat = read.toNat := by
      rcases start_cases byte with ⟨other, single, same⟩ | ⟨sequence, opens, long⟩ | malformed
      · rw [single] at member
        rcases List.mem_cons.mp member with here | behind
        · cases here
          exact ⟨byte, List.mem_cons_self .., same⟩
        · exact later nothing_long behind
      · rw [opens] at member
        exact later (by simpa using long) member
      · rw [malformed] at member
        exact later nothing_long (by simpa using member)
    rw [decodeFrom] at member
    cases pending with
    | none => exact begun member
    | some sequence =>
      rcases (long sequence rfl).advance_cases byte with
        ⟨other, ends, beyond⟩ | ⟨next, goes, long⟩ | gives
      · rw [ends] at member
        rcases List.mem_cons.mp member with here | behind
        · cases here
          exact absurd ascii beyond
        · exact later nothing_long behind
      · rw [goes] at member
        exact later (by simpa using long) member
      · rw [gives] at member
        exact begun (by simpa using member)

end

variable {bytes : List UInt8} {char : Char}

theorem mem_of_mem_decodeLenient (ascii : IsAscii char)
    (member : char ∈ (decodeLenient bytes).toList) : ∃ byte ∈ bytes, char.toNat = byte.toNat := by
  rw [decodeLenient, String.toList_ofList] at member
  obtain ⟨piece, inside, rfl⟩ := List.mem_map.mp member
  cases piece with
  | none => exact absurd ascii (by decide)
  | some char => exact mem_of_mem_decodeFrom nothing_long ascii inside

theorem head?_of_head?_decodeLenient (ascii : IsAscii char)
    (first : (decodeLenient bytes).toList.head? = some char) :
    ∃ byte, bytes.head? = some byte ∧ char.toNat = byte.toNat := by
  rw [decodeLenient, String.toList_ofList, List.head?_map] at first
  obtain ⟨piece, inside, rfl⟩ := Option.map_eq_some_iff.mp first
  cases piece with
  | none => exact absurd ascii (by decide)
  | some char => exact head?_of_head?_decode ascii inside

end ServiceConfig.Utf8
