import Mathlib.Data.List.Basic
import ServiceConfig.Proofs.Text.Utf8

/-! # Valid bytes

Bytes are valid exactly if they encode characters, and then they read as these characters and as
nothing else. Every byte of a character that is not ASCII is 128 or more. So a text that is cut next
to an ASCII byte is cut between two characters.
-/

namespace ServiceConfig.Utf8

theorem encodeChars_append (first second : List Char) :
    encodeChars (first ++ second) = encodeChars first ++ encodeChars second := List.flatMap_append

theorem encodeChars_cons (char : Char) (chars : List Char) :
    encodeChars (char :: chars) = String.utf8EncodeChar char ++ encodeChars chars :=
  List.flatMap_cons

theorem encodeChars_eq_nil {chars : List Char} (empty : encodeChars chars = []) : chars = [] := by
  cases chars with
  | nil => rfl
  | cons char chars => exact absurd (List.append_eq_nil_iff.mp empty).1 String.utf8EncodeChar_ne_nil

/-- Whether the bytes complete the sequence in progress, if any, and are valid behind it. -/
def Completes (pending : Option Partial) (bytes : List UInt8) : Prop :=
  (decodeFrom pending bytes).all Option.isSome = true

section

variable {bits : Nat} {expected range : UInt8 × UInt8} {later : List (UInt8 × UInt8)}
  {bytes : List UInt8}

/-- A sequence in progress goes on with a byte that fits. -/
theorem Completes.exists_fits (completes : Completes (some ⟨bits, expected, later⟩) bytes) :
    ∃ byte rest, bytes = byte :: rest ∧ Fits expected byte.toNat := by
  cases bytes with
  | nil => cases completes
  | cons byte rest =>
    refine ⟨byte, rest, rfl, ?_⟩
    by_contra apart
    have apart : ¬ (expected.1.toNat ≤ byte.toNat ∧ byte.toNat ≤ expected.2.toNat) := apart
    rw [Completes, decodeFrom, advance] at completes
    simp only [UInt8.le_iff_toNat_le, Bool.and_eq_true, decide_eq_true_eq,
      if_neg apart] at completes
    cases completes

theorem Completes.exists_next
    (completes : Completes (some ⟨bits, expected, range :: later⟩) bytes) :
    ∃ byte rest, bytes = byte :: rest ∧ Fits expected byte.toNat ∧
      Completes (some ⟨bits * 64 + byte.toNat % 64, range, later⟩) rest := by
  obtain ⟨byte, rest, rfl, fits⟩ := completes.exists_fits
  have next : decodeFrom (some ⟨bits, expected, range :: later⟩)
      (UInt8.ofNat byte.toNat :: rest) = _ := decodeFrom_next fits rest
  rw [UInt8.ofNat_toNat] at next
  rw [Completes, next] at completes
  exact ⟨byte, rest, rfl, fits, completes⟩

theorem Completes.exists_last (completes : Completes (some ⟨bits, expected, []⟩) bytes) :
    ∃ byte rest, bytes = byte :: rest ∧ Fits expected byte.toNat ∧ isValid rest = true := by
  obtain ⟨byte, rest, rfl, fits⟩ := completes.exists_fits
  have last : decodeFrom (some ⟨bits, expected, []⟩) (UInt8.ofNat byte.toNat :: rest) = _ :=
    decodeFrom_last fits rest
  rw [UInt8.ofNat_toNat] at last
  rw [Completes, last] at completes
  exact ⟨byte, rest, rfl, fits, completes⟩

end

section

variable {number : Nat} {first second third fourth : UInt8}

private theorem toNat_val_ofNat (valid : number < 0xD800 ∨ 0xDFFF < number ∧ number < 0x110000) :
    (Char.ofNat number).val.toNat = number := by
  have valid : number.isValidChar := valid
  rw [Char.ofNat, dif_pos valid]
  exact UInt32.toNat_ofNatLT ..

private theorem eq_ofNat {byte : UInt8} (same : number = byte.toNat) :
    UInt8.ofNat number = byte := by
  rw [same, UInt8.ofNat_toNat]

theorem encodeChar_one (ascii : first.toNat < 0x80) :
    String.utf8EncodeChar (Char.ofNat first.toNat) = [first] := by
  have value := toNat_val_ofNat (.inl (by omega) : first.toNat < 0xD800 ∨ _)
  simp only [String.utf8EncodeChar, value]
  rw [if_pos (by omega), UInt8.ofNat_toNat]

private theorem encodeChar_two (lower : 0xC2 ≤ first.toNat) (upper : first.toNat < 0xE0)
    (fits : Fits continuation second.toNat) :
    String.utf8EncodeChar (Char.ofNat (first.toNat % 32 * 64 + second.toNat % 64)) =
      [first, second] := by
  obtain ⟨fitsLower, fitsUpper⟩ : 0x80 ≤ second.toNat ∧ second.toNat ≤ 0xBF := fits
  have value := toNat_val_ofNat
    (.inl (by omega) : first.toNat % 32 * 64 + second.toNat % 64 < 0xD800 ∨ _)
  simp only [String.utf8EncodeChar, value]
  rw [if_neg (by omega), if_pos (by omega), eq_ofNat (by omega : _ = first.toNat),
    eq_ofNat (by omega : _ = second.toNat)]

private theorem encodeChar_three (lower : 0xE0 ≤ first.toNat) (upper : first.toNat < 0xF0)
    (fits : Fits continuation second.toNat) (overlong : first.toNat = 0xE0 → 0xA0 ≤ second.toNat)
    (surrogates : first.toNat = 0xED → second.toNat ≤ 0x9F) (last : Fits continuation third.toNat) :
    String.utf8EncodeChar
      (Char.ofNat ((first.toNat % 16 * 64 + second.toNat % 64) * 64 + third.toNat % 64)) =
        [first, second, third] := by
  obtain ⟨fitsLower, fitsUpper⟩ : 0x80 ≤ second.toNat ∧ second.toNat ≤ 0xBF := fits
  obtain ⟨lastLower, lastUpper⟩ : 0x80 ≤ third.toNat ∧ third.toNat ≤ 0xBF := last
  have value := toNat_val_ofNat
    (by omega : (first.toNat % 16 * 64 + second.toNat % 64) * 64 + third.toNat % 64 < 0xD800 ∨ _)
  simp only [String.utf8EncodeChar, value]
  rw [if_neg (by omega), if_neg (by omega), if_pos (by omega),
    eq_ofNat (by omega : _ = first.toNat), eq_ofNat (by omega : _ = second.toNat),
    eq_ofNat (by omega : _ = third.toNat)]

private theorem encodeChar_four (lower : 0xF0 ≤ first.toNat) (upper : first.toNat ≤ 0xF4)
    (fits : Fits continuation second.toNat) (overlong : first.toNat = 0xF0 → 0x90 ≤ second.toNat)
    (beyond : first.toNat = 0xF4 → second.toNat ≤ 0x8F) (next : Fits continuation third.toNat)
    (last : Fits continuation fourth.toNat) :
    String.utf8EncodeChar (Char.ofNat (((first.toNat % 8 * 64 + second.toNat % 64) * 64 +
      third.toNat % 64) * 64 + fourth.toNat % 64)) = [first, second, third, fourth] := by
  obtain ⟨fitsLower, fitsUpper⟩ : 0x80 ≤ second.toNat ∧ second.toNat ≤ 0xBF := fits
  obtain ⟨nextLower, nextUpper⟩ : 0x80 ≤ third.toNat ∧ third.toNat ≤ 0xBF := next
  obtain ⟨lastLower, lastUpper⟩ : 0x80 ≤ fourth.toNat ∧ fourth.toNat ≤ 0xBF := last
  have value := toNat_val_ofNat (by omega : ((first.toNat % 8 * 64 + second.toNat % 64) * 64 +
    third.toNat % 64) * 64 + fourth.toNat % 64 < 0xD800 ∨ _)
  simp only [String.utf8EncodeChar, value]
  rw [if_neg (by omega), if_neg (by omega), if_neg (by omega),
    eq_ofNat (by omega : _ = first.toNat), eq_ofNat (by omega : _ = second.toNat),
    eq_ofNat (by omega : _ = third.toNat), eq_ofNat (by omega : _ = fourth.toNat)]

/-- The bytes begin with those of a character, and are valid behind it. -/
def BeginsValid (bytes : List UInt8) : Prop :=
  ∃ char rest, bytes = String.utf8EncodeChar char ++ rest ∧ isValid rest = true

variable {bits : Nat} {range : UInt8 × UInt8} {rest : List UInt8}

private theorem beginsValid_three (lower : 0xE0 ≤ first.toNat) (upper : first.toNat < 0xF0)
    (narrow : ∀ next, Fits range next → 0x80 ≤ next ∧ next ≤ 0xBF ∧
      (first.toNat = 0xE0 → 0xA0 ≤ next) ∧ (first.toNat = 0xED → next ≤ 0x9F))
    (completes : Completes (some ⟨bits, range, [continuation]⟩) rest) :
    BeginsValid (first :: rest) := by
  obtain ⟨second, rest, rfl, fits, completes⟩ := completes.exists_next
  obtain ⟨third, rest, rfl, last, valid⟩ := completes.exists_last
  obtain ⟨fitsLower, fitsUpper, overlong, surrogates⟩ := narrow _ fits
  have encoded := encodeChar_three lower upper ⟨fitsLower, fitsUpper⟩ overlong surrogates last
  exact ⟨_, rest, by rw [encoded]; rfl, valid⟩

private theorem beginsValid_four (lower : 0xF0 ≤ first.toNat) (upper : first.toNat ≤ 0xF4)
    (narrow : ∀ next, Fits range next → 0x80 ≤ next ∧ next ≤ 0xBF ∧
      (first.toNat = 0xF0 → 0x90 ≤ next) ∧ (first.toNat = 0xF4 → next ≤ 0x8F))
    (completes : Completes (some ⟨bits, range, [continuation, continuation]⟩) rest) :
    BeginsValid (first :: rest) := by
  obtain ⟨second, rest, rfl, fits, completes⟩ := completes.exists_next
  obtain ⟨third, rest, rfl, next, completes⟩ := completes.exists_next
  obtain ⟨fourth, rest, rfl, last, valid⟩ := completes.exists_last
  obtain ⟨fitsLower, fitsUpper, overlong, beyond⟩ := narrow _ fits
  have encoded := encodeChar_four lower upper ⟨fitsLower, fitsUpper⟩ overlong beyond next last
  exact ⟨_, rest, by rw [encoded]; rfl, valid⟩

private theorem beginsValid (valid : isValid (first :: rest) = true) :
    BeginsValid (first :: rest) := by
  have several {sequence : Partial} (read : lead first = .several sequence) :
      Completes (some sequence) rest := by
    rw [isValid, decode, decodeFrom_several read] at valid
    exact valid
  have begins : lead first ≠ .malformed := by
    intro read
    rw [isValid, decode, decodeFrom, advance, start, read] at valid
    cases valid
  have read := lead_eq first
  -- one case for each row of the table; four of them narrow the range of the second byte
  split_ifs at read with ascii apart two overlong surrogates three least four most
  · rw [isValid, decode, decodeFrom_single read] at valid
    exact ⟨_, rest, by rw [encodeChar_one ascii]; rfl, valid⟩
  · exact absurd read begins
  · obtain ⟨second, rest, rfl, fits, valid⟩ := (several read).exists_last
    have encoded := encodeChar_two (by omega) two fits
    exact ⟨_, rest, by rw [encoded]; rfl, valid⟩
  · refine beginsValid_three (by omega) (by omega) (fun next fits => ?_) (several read)
    have fits : 0xA0 ≤ next ∧ next ≤ 0xBF := fits
    omega
  · refine beginsValid_three (by omega) (by omega) (fun next fits => ?_) (several read)
    have fits : 0x80 ≤ next ∧ next ≤ 0x9F := fits
    omega
  · refine beginsValid_three (by omega) (by omega) (fun next fits => ?_) (several read)
    have fits : 0x80 ≤ next ∧ next ≤ 0xBF := fits
    omega
  · refine beginsValid_four (by omega) (by omega) (fun next fits => ?_) (several read)
    have fits : 0x90 ≤ next ∧ next ≤ 0xBF := fits
    omega
  · refine beginsValid_four (by omega) (by omega) (fun next fits => ?_) (several read)
    have fits : 0x80 ≤ next ∧ next ≤ 0xBF := fits
    omega
  · refine beginsValid_four (by omega) (by omega) (fun next fits => ?_) (several read)
    have fits : 0x80 ≤ next ∧ next ≤ 0x8F := fits
    omega
  · exact absurd read begins

end

/-- The characters are split off one by one, from the front. -/
theorem exists_encodeChars (bytes : List UInt8) (valid : isValid bytes = true) :
    ∃ chars, bytes = encodeChars chars := by
  match bytes with
  | [] => exact ⟨[], rfl⟩
  | first :: later =>
    obtain ⟨char, rest, whole, valid⟩ := beginsValid valid
    have shorter : rest.length < (first :: later).length := by
      rw [whole, List.length_append]
      have nonempty : 0 < (String.utf8EncodeChar char).length :=
        List.length_pos_of_ne_nil String.utf8EncodeChar_ne_nil
      omega
    obtain ⟨chars, rfl⟩ := exists_encodeChars rest valid
    exact ⟨char :: chars, by rw [whole, encodeChars_cons]⟩
termination_by bytes.length
decreasing_by exact shorter

theorem isValid_encodeChars (chars : List Char) : isValid (encodeChars chars) = true := by
  rw [isValid, decode_encodeChars, List.all_map]
  exact List.all_eq_true.mpr fun _ _ => rfl

theorem isValid_iff {bytes : List UInt8} :
    isValid bytes = true ↔ ∃ chars, bytes = encodeChars chars := by
  constructor
  · exact exists_encodeChars bytes
  · rintro ⟨chars, rfl⟩
    exact isValid_encodeChars chars

theorem toList_decodeLenient (chars : List Char) :
    (decodeLenient (encodeChars chars)).toList = chars := by
  rw [decodeLenient, decode_encodeChars, List.map_map, String.toList_ofList]
  exact List.map_id _

/-- Reading valid bytes leniently changes nothing. -/
theorem encode_decodeLenient {bytes : List UInt8} (valid : isValid bytes = true) :
    encode (decodeLenient bytes) = bytes := by
  obtain ⟨chars, rfl⟩ := isValid_iff.mp valid
  rw [encode, toList_decodeLenient]

/-- A character is one ASCII byte, or none of its bytes is one. -/
theorem ascii_or_high (char : Char) :
    (∃ byte : UInt8, byte.toNat < 128 ∧ char = Char.ofNat byte.toNat) ∨
      ∀ byte ∈ String.utf8EncodeChar char, 128 ≤ byte.toNat := by
  by_cases ascii : char.toNat < 128
  · have same := UInt8.toNat_ofNat_of_lt' (by omega : char.toNat < 256)
    exact .inl ⟨UInt8.ofNat char.toNat, by rwa [same], by rw [same, Char.ofNat_toNat]⟩
  · refine .inr fun byte member => ?_
    by_contra low
    have same := mem_encodeChar member (by omega)
    omega

/-- The byte on one side of a cut, if there is one, is ASCII. -/
def Seam (front back : List UInt8) : Prop :=
  (∀ byte, front.getLast? = some byte → byte.toNat < 128) ∨
    ∀ byte, back.head? = some byte → byte.toNat < 128

theorem Seam.of_append {front between back : List UInt8} (seam : Seam (front ++ between) back) :
    Seam between back := by
  refine seam.imp_left fun last byte same => last byte ?_
  rw [List.getLast?_append, same, Option.some_or]

/-- There is no such cut within a character. -/
theorem Seam.outside {char : Char} {front between : List UInt8}
    (whole : String.utf8EncodeChar char = front ++ between) (seam : Seam front between) :
    front = [] ∨ between = [] := by
  rcases ascii_or_high char with ⟨byte, ascii, rfl⟩ | high
  · rw [encodeChar_one ascii] at whole
    exact (List.append_eq_singleton_iff.mp whole.symm).imp And.left And.right
  · rw [whole] at high
    rcases seam with last | first
    · refine .inl (List.getLast?_eq_none_iff.mp (Option.eq_none_iff_forall_ne_some.mpr ?_))
      intro byte same
      have low := last byte same
      have above := high byte (List.mem_append_left _ (List.mem_of_getLast? same))
      omega
    · refine .inr (List.head?_eq_none_iff.mp (Option.eq_none_iff_forall_ne_some.mpr ?_))
      intro byte same
      have low := first byte same
      have above := high byte (List.mem_append_right _ (List.mem_of_head? same))
      omega

/-- A cut next to an ASCII byte is a cut between two characters. -/
theorem exists_cut {chars : List Char} {front back : List UInt8}
    (whole : encodeChars chars = front ++ back) (seam : Seam front back) :
    ∃ first second, chars = first ++ second ∧ front = encodeChars first ∧
      back = encodeChars second := by
  induction chars generalizing front with
  | nil =>
    obtain ⟨rfl, rfl⟩ := List.append_eq_nil_iff.mp whole.symm
    exact ⟨[], [], rfl, rfl, rfl⟩
  | cons char chars ih =>
    rw [encodeChars_cons] at whole
    rcases List.append_eq_append_iff.mp whole with ⟨between, rfl, later⟩ | ⟨between, here, rfl⟩
    · obtain ⟨first, second, rfl, rfl, rfl⟩ := ih later seam.of_append
      exact ⟨char :: first, second, rfl, rfl, rfl⟩
    · have inside : Seam front between := by
        refine seam.imp_right fun ascii byte same => ascii byte ?_
        rw [List.head?_append, same, Option.some_or]
      rcases inside.outside here with rfl | rfl
      · exact ⟨[], char :: chars, rfl, rfl, by rw [encodeChars_cons, here]; rfl⟩
      · rw [List.append_nil] at here
        refine ⟨[char], chars, rfl, ?_, rfl⟩
        rw [← here]
        exact (List.append_nil _).symm

end ServiceConfig.Utf8
