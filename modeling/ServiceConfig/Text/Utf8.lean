/-! # UTF-8

`decode` cuts bytes into characters; a malformed piece (the longest run that begins a well-formed
sequence, or a single byte that begins none) is `none`. A text is valid when no piece is malformed,
and reading it leniently puts the replacement character for each malformed piece.
-/

namespace ServiceConfig.Utf8

def encodeChars (chars : List Char) : List UInt8 := chars.flatMap String.utf8EncodeChar
def encode (text : String) : List UInt8 := encodeChars text.toList

/-- A sequence in progress: the bits read and the ranges that the bytes to come must lie in. -/
structure Partial where
  bits : Nat
  next : UInt8 × UInt8
  later : List (UInt8 × UInt8)

def continuation : UInt8 × UInt8 := (0x80, 0xBF)

/-- What a first byte announces: a character, a longer sequence, or nothing well-formed. The
narrowed second ranges exclude overlong forms, surrogates and numbers above `0x10FFFF`. -/
inductive Lead
  | single (char : Char)
  | several (sequence : Partial)
  | malformed

def lead (byte : UInt8) : Lead :=
  if byte < 0x80 then .single (Char.ofNat byte.toNat)
  else if byte < 0xC2 then .malformed
  else if byte < 0xE0 then .several ⟨byte.toNat % 32, continuation, []⟩
  else if byte = 0xE0 then .several ⟨0, (0xA0, 0xBF), [continuation]⟩
  else if byte = 0xED then .several ⟨13, (0x80, 0x9F), [continuation]⟩
  else if byte < 0xF0 then .several ⟨byte.toNat % 16, continuation, [continuation]⟩
  else if byte = 0xF0 then .several ⟨0, (0x90, 0xBF), [continuation, continuation]⟩
  else if byte < 0xF4 then .several ⟨byte.toNat % 8, continuation, [continuation, continuation]⟩
  else if byte = 0xF4 then .several ⟨4, (0x80, 0x8F), [continuation, continuation]⟩
  else .malformed

/-- Begin a piece at `byte`: the pieces finished by it and the sequence it opens. -/
def start (byte : UInt8) : List (Option Char) × Option Partial :=
  match lead byte with
  | .single char => ([some char], none)
  | .several sequence => ([], some sequence)
  | .malformed => ([none], none)

/-- One byte further: a byte outside the expected range ends the sequence and begins a new piece. -/
def advance (pending : Option Partial) (byte : UInt8) : List (Option Char) × Option Partial :=
  match pending with
  | none => start byte
  | some sequence =>
    if sequence.next.1 ≤ byte && byte ≤ sequence.next.2 then
      let bits := sequence.bits * 64 + byte.toNat % 64
      match sequence.later with
      | [] => ([some (Char.ofNat bits)], none)
      | range :: ranges => ([], some ⟨bits, range, ranges⟩)
    else
      let (pieces, opened) := start byte
      (none :: pieces, opened)

def decodeFrom (pending : Option Partial) : List UInt8 → List (Option Char)
  | [] => if pending.isSome then [none] else []
  | byte :: rest =>
    let (pieces, opened) := advance pending byte
    pieces ++ decodeFrom opened rest

def decode (bytes : List UInt8) : List (Option Char) := decodeFrom none bytes

def isValid (bytes : List UInt8) : Bool := (decode bytes).all Option.isSome

/-- Every malformed piece reads as one replacement character. -/
def decodeLenient (bytes : List UInt8) : String :=
  String.ofList ((decode bytes).map (·.getD '\ufffd'))

end ServiceConfig.Utf8
