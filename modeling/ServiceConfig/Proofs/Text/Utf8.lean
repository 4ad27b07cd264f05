import Mathlib.Tactic.SplitIfs
import ServiceConfig.Text.Utf8

/-! # Decoding what was encoded

Each character is encoded as one piece that the decoder reads back, so the bytes of a text stand for
the text. A byte below 128 is the whole encoding of a character, which is why scanning for ASCII
bytes finds the ASCII characters.
-/

namespace ServiceConfig.Utf8

/-- The table of lead bytes, by number. -/
theorem lead_eq (byte : UInt8) : lead byte =
    if byte.toNat < 0x80 then .single (Char.ofNat byte.toNat)
    else if byte.toNat < 0xC2 then .malformed
    else if byte.toNat < 0xE0 then .several ⟨byte.toNat % 32, continuation, []⟩
    else if byte.toNat = 0xE0 then .several ⟨0, (0xA0, 0xBF), [continuation]⟩
    else if byte.toNat = 0xED then .several ⟨13, (0x80, 0x9F), [continuation]⟩
    else if byte.toNat < 0xF0 then .several ⟨byte.toNat % 16, continuation, [continuation]⟩
    else if byte.toNat = 0xF0 then .several ⟨0, (0x90, 0xBF), [continuation, continuation]⟩
    else if byte.toNat < 0xF4 then
      .several ⟨byte.toNat % 8, continuation, [continuation, continuation]⟩
    else if byte.toNat = 0xF4 then .several ⟨4, (0x80, 0x8F), [continuation, continuation]⟩
    else .malformed := by
  unfold lead
  simp only [UInt8.lt_iff_toNat_lt, ← UInt8.toNat_inj]
  rfl

theorem decodeFrom_single {byte : UInt8} {char : Char} (read : lead byte = .single char)
    (rest : List UInt8) : decodeFrom none (byte :: rest) = some char :: decodeFrom none rest := by
  simp only [decodeFrom, advance, start, read, List.singleton_append]

theorem decodeFrom_several {byte : UInt8} {sequence : Partial}
    (read : lead byte = .several sequence) (rest : List UInt8) :
    decodeFrom none (byte :: rest) = decodeFrom (some sequence) rest := by
  simp only [decodeFrom, advance, start, read, List.nil_append]

/-- Whether a byte with this number may come next where one of a range is expected. -/
def Fits (expected : UInt8 × UInt8) (number : Nat) : Prop :=
  expected.1.toNat ≤ number ∧ number ≤ expected.2.toNat

theorem decodeFrom_next {bits number : Nat} {expected range : UInt8 × UInt8}
    {later : List (UInt8 × UInt8)} (fits : Fits expected number) (rest : List UInt8) :
    decodeFrom (some ⟨bits, expected, range :: later⟩) (UInt8.ofNat number :: rest) =
      decodeFrom (some ⟨bits * 64 + number % 64, range, later⟩) rest := by
  have small : number < 256 := Nat.lt_of_le_of_lt fits.2 expected.2.toNat_lt
  simp [decodeFrom, advance, UInt8.le_iff_toNat_le, UInt8.toNat_ofNat_of_lt' small, fits.1, fits.2]

theorem decodeFrom_last {bits number : Nat} {expected : UInt8 × UInt8}
    (fits : Fits expected number) (rest : List UInt8) :
    decodeFrom (some ⟨bits, expected, []⟩) (UInt8.ofNat number :: rest) =
      some (Char.ofNat (bits * 64 + number % 64)) :: decodeFrom none rest := by
  have small : number < 256 := Nat.lt_of_le_of_lt fits.2 expected.2.toNat_lt
  simp [decodeFrom, advance, UInt8.le_iff_toNat_le, UInt8.toNat_ofNat_of_lt' small, fits.1, fits.2]

theorem fits_continuation (number : Nat) : Fits continuation (number % 64 + 0x80) := by
  constructor
  · exact Nat.le_add_left 128 _
  · change number % 64 + 0x80 ≤ 0xBF
    omega

private theorem lead_two {bits : Nat} (lower : 2 ≤ bits) (upper : bits < 32) :
    lead (UInt8.ofNat (bits + 0xC0)) = .several ⟨bits, continuation, []⟩ := by
  have shown : (bits + 0xC0) % 32 = bits := by omega
  rw [lead_eq, UInt8.toNat_ofNat_of_lt' (by omega : bits + 0xC0 < 256), shown, if_neg (by omega),
    if_neg (by omega), if_pos (by omega)]

/-- Where the second byte of three has to lie. -/
def secondOfThree (bits : Nat) : UInt8 × UInt8 :=
  if bits = 0 then (0xA0, 0xBF) else if bits = 13 then (0x80, 0x9F) else continuation

private theorem lead_three {bits : Nat} (upper : bits < 16) :
    lead (UInt8.ofNat (bits + 0xE0)) =
      .several ⟨bits, secondOfThree bits, [continuation]⟩ := by
  have shown : (bits + 0xE0) % 16 = bits := by omega
  by_cases first : bits = 0
  · subst first
    rfl
  · by_cases surrogates : bits = 13
    · subst surrogates
      rfl
    · rw [secondOfThree, if_neg first, if_neg surrogates, lead_eq,
        UInt8.toNat_ofNat_of_lt' (by omega : bits + 0xE0 < 256), shown, if_neg (by omega),
        if_neg (by omega), if_neg (by omega), if_neg (by omega), if_neg (by omega),
        if_pos (by omega)]

private theorem fits_secondOfThree {bits number : Nat} (overlong : bits = 0 → 32 ≤ number % 64)
    (surrogates : bits = 13 → number % 64 < 32) :
    Fits (secondOfThree bits) (number % 64 + 0x80) := by
  unfold secondOfThree
  split_ifs with first last
  · have lower := overlong first
    exact ⟨show 0xA0 ≤ _ by omega, show _ ≤ 0xBF by omega⟩
  · have upper := surrogates last
    exact ⟨show 0x80 ≤ _ by omega, show _ ≤ 0x9F by omega⟩
  · exact fits_continuation number

/-- Where the second byte of four has to lie. -/
def secondOfFour (bits : Nat) : UInt8 × UInt8 :=
  if bits = 0 then (0x90, 0xBF) else if bits = 4 then (0x80, 0x8F) else continuation

private theorem lead_four {bits : Nat} (upper : bits ≤ 4) :
    lead (UInt8.ofNat (bits + 0xF0)) =
      .several ⟨bits, secondOfFour bits, [continuation, continuation]⟩ := by
  by_cases first : bits = 0
  · subst first
    rfl
  · by_cases last : bits = 4
    · subst last
      rfl
    · have shown : (bits + 0xF0) % 8 = bits := by omega
      rw [secondOfFour, if_neg first, if_neg last, lead_eq,
        UInt8.toNat_ofNat_of_lt' (by omega : bits + 0xF0 < 256), shown, if_neg (by omega),
        if_neg (by omega), if_neg (by omega), if_neg (by omega), if_neg (by omega),
        if_neg (by omega), if_neg (by omega), if_pos (by omega)]

private theorem fits_secondOfFour {bits number : Nat} (overlong : bits = 0 → 16 ≤ number % 64)
    (beyond : bits = 4 → number % 64 < 16) : Fits (secondOfFour bits) (number % 64 + 0x80) := by
  unfold secondOfFour
  split_ifs with first last
  · have lower := overlong first
    exact ⟨show 0x90 ≤ _ by omega, show _ ≤ 0xBF by omega⟩
  · have upper := beyond last
    exact ⟨show 0x80 ≤ _ by omega, show _ ≤ 0x8F by omega⟩
  · exact fits_continuation number

/-- The bytes of a character are read back as that character. -/
theorem decodeFrom_encodeChar (char : Char) (rest : List UInt8) :
    decodeFrom none (String.utf8EncodeChar char ++ rest) = some char :: decodeFrom none rest := by
  obtain ⟨number, same⟩ : ∃ number, char.val.toNat = number := ⟨_, rfl⟩
  have valid : number < 0xD800 ∨ 0xDFFF < number ∧ number < 0x110000 := same ▸ char.valid
  have char_eq : ∀ read, read = number → Char.ofNat read = char := by
    rintro _ rfl
    exact same ▸ Char.ofNat_toNat char
  unfold String.utf8EncodeChar
  simp only [same]
  -- one case for each length of an encoding; the bits read so far are the first ones of `number`
  split_ifs with one two three
  · rw [List.singleton_append, decodeFrom_single _ rest]
    rw [lead_eq, UInt8.toNat_ofNat_of_lt' (by omega : number < 256), if_pos (by omega),
      char_eq number rfl]
  · simp only [List.cons_append, List.nil_append]
    rw [decodeFrom_several (lead_two (by omega) (by omega)),
      decodeFrom_last (fits_continuation _), char_eq]
    omega
  · simp only [List.cons_append, List.nil_append]
    rw [decodeFrom_several (lead_three (by omega)),
      decodeFrom_next (fits_secondOfThree (by omega) (by omega)),
      decodeFrom_last (fits_continuation _), char_eq]
    omega
  · simp only [List.cons_append, List.nil_append]
    rw [decodeFrom_several (lead_four (by omega)),
      decodeFrom_next (fits_secondOfFour (by omega) (by omega)),
      decodeFrom_next (fits_continuation _), decodeFrom_last (fits_continuation _), char_eq]
    omega

theorem decode_encodeChars (chars : List Char) : decode (encodeChars chars) = chars.map some := by
  unfold decode encodeChars
  induction chars with
  | nil => rfl
  | cons char chars ih => rw [List.flatMap_cons, decodeFrom_encodeChar, ih, List.map_cons]

theorem decodeLenient_encode (text : String) : decodeLenient (encode text) = text := by
  rw [decodeLenient, encode, decode_encodeChars, List.map_map]
  exact (congrArg String.ofList (List.map_id _)).trans String.ofList_toList

/-- A byte ends a piece or leaves one open. -/
theorem isSome_advance {pending : Option Partial} {byte : UInt8}
    (unfinished : (advance pending byte).1 = []) : (advance pending byte).2.isSome := by
  have started : (start byte).1 = [] → (start byte).2.isSome := by
    unfold start
    cases lead byte <;> simp
  revert unfinished
  unfold advance
  cases pending with
  | none => exact started
  | some sequence =>
    dsimp only
    split_ifs
    · cases sequence.later <;> simp
    · simp

/-- Bytes that are not there are all that reads as nothing. -/
theorem decodeFrom_eq_nil {pending : Option Partial} {bytes : List UInt8}
    (nothing : decodeFrom pending bytes = []) : pending = none ∧ bytes = [] := by
  induction bytes generalizing pending with
  | nil =>
    cases pending with
    | none => exact ⟨rfl, rfl⟩
    | some sequence => cases nothing
  | cons byte rest ih =>
    have nothing : (advance pending byte).1 ++ decodeFrom (advance pending byte).2 rest = [] :=
      nothing
    obtain ⟨unfinished, later⟩ := List.append_eq_nil_iff.mp nothing
    have opened := isSome_advance unfinished
    rw [(ih later).1] at opened
    cases opened

theorem decodeLenient_eq_empty {bytes : List UInt8} : decodeLenient bytes = "" ↔ bytes = [] := by
  constructor
  · intro nothing
    have nothing := congrArg String.toList nothing
    rw [decodeLenient, String.toList_ofList] at nothing
    exact (decodeFrom_eq_nil (List.map_eq_nil_iff.mp nothing)).2
  · rintro rfl
    rfl

/-- A byte below 128 encodes a character of its own. -/
theorem mem_encodeChar {char : Char} {byte : UInt8} (member : byte ∈ String.utf8EncodeChar char)
    (ascii : byte.toNat < 128) : char.toNat = byte.toNat := by
  unfold String.utf8EncodeChar at member
  dsimp only at member
  split_ifs at member with one two three
  · rw [List.mem_singleton] at member
    rw [member, UInt8.toNat_ofNat_of_lt' (by omega : char.val.toNat < 256)]
    rfl
  all_goals
    simp only [List.mem_cons, List.not_mem_nil, or_false] at member
    rcases member with rfl | rfl | rfl | rfl <;> rw [UInt8.toNat_ofNat'] at ascii <;> omega

end ServiceConfig.Utf8
