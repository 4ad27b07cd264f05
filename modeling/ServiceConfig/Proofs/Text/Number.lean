import Mathlib.Data.Nat.Digits.Defs
import ServiceConfig.Text.Number

/-! # Numerals and what they denote

A numeral is at least one digit, with a sign in front or without one. It denotes a number by the
places of its digits, however many there are, and a type has room for some of these numbers. The
reader goes through the digits from the left and multiplies at each step; it reads exactly the
numerals whose number has room.
-/

namespace ServiceConfig.Text

variable {char : Char} {chars digits : List Char} {signed : Bool} {type : IntegerType}
  {before number : Nat} {text : String} {value : Int}

def IsDigit (char : Char) : Prop := '0' ≤ char ∧ char ≤ '9'

/-- What digits denote: a digit counts ten times what the next one counts, and the last one for
itself. -/
def worth (digits : List Char) : Nat :=
  Nat.ofDigits 10 (digits.reverse.map fun digit => digit.toNat - '0'.toNat)

structure Digits (chars : List Char) : Prop where
  some : chars ≠ []
  all : ∀ char ∈ chars, IsDigit char

/-- The written form of a number; only signed types have numerals with a minus. -/
inductive Numeral (signed : Bool) : List Char → Int → Prop
  | plain {digits : List Char} (wellFormed : Digits digits) : Numeral signed digits (worth digits)
  | plus {digits : List Char} (wellFormed : Digits digits) :
    Numeral signed ('+' :: digits) (worth digits)
  | minus {digits : List Char} (admitted : signed = true) (wellFormed : Digits digits) :
    Numeral signed ('-' :: digits) (-worth digits)

/-- Whether a type has room for a number: one bit of a signed type tells the sign. -/
def IntegerType.Holds (type : IntegerType) (value : Int) : Prop :=
  if type.signed then -2 ^ (type.bits - 1) ≤ value ∧ value < 2 ^ (type.bits - 1)
  else 0 ≤ value ∧ value < 2 ^ type.bits

/-- The number of a type that a text is a numeral of. -/
def Denotes (type : IntegerType) (text : String) (value : Int) : Prop :=
  Numeral type.signed text.toList value ∧ type.Holds value

theorem digit?_of_isDigit (digit : IsDigit char) :
    digit? char = some (char.toNat - '0'.toNat) := if_pos digit

private theorem digit?_eq_none (apart : ¬ IsDigit char) : digit? char = none := if_neg apart

private theorem worth_nil : worth [] = 0 := rfl

private theorem worth_cons (char : Char) (digits : List Char) :
    worth (char :: digits) = (char.toNat - '0'.toNat) * 10 ^ digits.length + worth digits := by
  rw [worth, List.reverse_cons, List.map_append, Nat.ofDigits_append, List.length_map,
    List.length_reverse, List.map_singleton, Nat.ofDigits_singleton, Nat.mul_comm, Nat.add_comm,
    worth]

/-- Zeros in front do not count. -/
private theorem worth_zeros (count : Nat) (digits : List Char) :
    worth (List.replicate count '0' ++ digits) = worth digits := by
  induction count with
  | zero => rfl
  | succ count ih =>
    rw [List.replicate_succ, List.cons_append, worth_cons, Nat.sub_self, Nat.zero_mul, ih,
      Nat.zero_add]

private theorem digitsFrom?_eq_some : digitsFrom? before chars = some number ↔
    (∀ char ∈ chars, IsDigit char) ∧ before * 10 ^ chars.length + worth chars = number := by
  -- the number read so far is general, since each step multiplies it and adds a digit
  induction chars generalizing before with
  | nil => simp [digitsFrom?, worth_nil]
  | cons char rest ih =>
    by_cases digit : IsDigit char
    · have split : (before * 10 + (char.toNat - '0'.toNat)) * 10 ^ rest.length + worth rest =
          before * 10 ^ (char :: rest).length + worth (char :: rest) := by
        rw [worth_cons, List.length_cons, Nat.add_mul, pow_succ']
        ring
      rw [digitsFrom?, digit?_of_isDigit digit, Option.bind_some, ih, ← split, List.forall_mem_cons]
      exact ⟨fun ⟨all, same⟩ => ⟨⟨digit, all⟩, same⟩, fun ⟨⟨_, all⟩, same⟩ => ⟨all, same⟩⟩
    · rw [digitsFrom?, digit?_eq_none digit, Option.bind_none, List.forall_mem_cons]
      exact ⟨nofun, fun ⟨⟨first, _⟩, _⟩ => absurd first digit⟩

private theorem magnitude?_eq_some :
    magnitude? chars = some number ↔ Digits chars ∧ worth chars = number := by
  rw [magnitude?]
  cases chars with
  | nil => exact ⟨nofun, fun ⟨wellFormed, _⟩ => absurd rfl wellFormed.some⟩
  | cons char rest =>
    rw [List.isEmpty_cons, if_neg Bool.false_ne_true, digitsFrom?_eq_some, Nat.zero_mul,
      Nat.zero_add]
    exact and_congr_left fun _ =>
      ⟨fun all => ⟨List.cons_ne_nil char rest, all⟩, fun wellFormed => wellFormed.all⟩

theorem Digits.head_ne {sign : Char} (wellFormed : Digits (char :: digits))
    (apart : ¬ IsDigit sign) : char ≠ sign := by
  rintro rfl
  exact apart (wellFormed.all char (List.mem_cons_self ..))

private theorem plus_not_digit : ¬ IsDigit '+' := by
  unfold IsDigit
  decide

private theorem minus_not_digit : ¬ IsDigit '-' := by
  unfold IsDigit
  decide

private theorem integer?_of_numeral (numeral : Numeral signed chars value) :
    integer? signed chars = some value := by
  cases numeral with
  | plus wellFormed =>
    rw [integer?, magnitude?_eq_some.mpr ⟨wellFormed, rfl⟩]
    rfl
  | minus admitted wellFormed =>
    rw [integer?, if_pos admitted, magnitude?_eq_some.mpr ⟨wellFormed, rfl⟩]
    rfl
  | plain wellFormed =>
    rw [integer?, magnitude?_eq_some.mpr ⟨wellFormed, rfl⟩]
    · rfl
    · rintro digits rfl
      exact wellFormed.head_ne plus_not_digit rfl
    · rintro digits rfl
      exact wellFormed.head_ne minus_not_digit rfl

private theorem numeral_of_integer? (read : integer? signed chars = some value) :
    Numeral signed chars value := by
  unfold integer? at read
  split at read
  next digits =>
    obtain ⟨size, found, rfl⟩ := Option.map_eq_some_iff.mp read
    obtain ⟨wellFormed, rfl⟩ := magnitude?_eq_some.mp found
    exact .plus wellFormed
  next digits =>
    split at read
    next admitted =>
      obtain ⟨size, found, rfl⟩ := Option.map_eq_some_iff.mp read
      obtain ⟨wellFormed, rfl⟩ := magnitude?_eq_some.mp found
      exact .minus admitted wellFormed
    next => cases read
  next =>
    obtain ⟨size, found, rfl⟩ := Option.map_eq_some_iff.mp read
    obtain ⟨wellFormed, rfl⟩ := magnitude?_eq_some.mp found
    exact .plain wellFormed

private theorem contains_iff : type.contains value = true ↔ type.Holds value := by
  rw [IntegerType.contains, IntegerType.Holds, Bool.and_eq_true, decide_eq_true_iff,
    decide_eq_true_iff, IntegerType.least, IntegerType.greatest, IntegerType.sizeBits]
  have size (bits : Nat) : Int.pow 2 bits = 2 ^ bits := rfl
  split
  · rw [size]
    omega
  · rw [size]
    omega

example : IntegerType.Holds ⟨true, 64⟩ 9223372036854775807 ∧
    ¬ IntegerType.Holds ⟨true, 64⟩ 9223372036854775808 ∧ IntegerType.Holds ⟨true, 8⟩ (-128) ∧
    ¬ IntegerType.Holds ⟨false, 16⟩ (-1) := by
  simp only [← contains_iff]
  decide

/-- The reader reads a numeral, whatever its length, as the number it denotes, and reads nothing
else. -/
theorem readInteger?_eq_some : readInteger? type text = some value ↔ Denotes type text value := by
  rw [readInteger?, Option.filter_eq_some_iff, contains_iff, Denotes]
  exact and_congr_left fun _ => ⟨numeral_of_integer?, integer?_of_numeral⟩

theorem readInteger?_eq_none :
    readInteger? type text = none ↔ ∀ value, ¬ Denotes type text value := by
  rw [Option.eq_none_iff_forall_ne_some]
  exact forall_congr' fun value => not_congr readInteger?_eq_some

/-- Zeros in front of the digits change nothing. -/
theorem readInteger?_zeros (wellFormed : Digits digits) (count : Nat) (type : IntegerType) :
    readInteger? type (String.ofList (List.replicate count '0' ++ digits)) =
      readInteger? type (String.ofList digits) := by
  have padded : Digits (List.replicate count '0' ++ digits) := by
    refine ⟨List.append_ne_nil_of_right_ne_nil _ wellFormed.some, fun char member => ?_⟩
    rcases List.mem_append.mp member with zero | digit
    · rw [List.eq_of_mem_replicate zero]
      exact ⟨by decide, by decide⟩
    · exact wellFormed.all char digit
  rw [readInteger?, readInteger?, String.toList_ofList, String.toList_ofList,
    integer?_of_numeral (.plain padded), integer?_of_numeral (.plain wellFormed), worth_zeros]

end ServiceConfig.Text
