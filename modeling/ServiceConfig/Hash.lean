import ServiceConfig.Text.Ascii

/-! # A 32-bit hash of byte strings

The hash works on three words. Each full block of twelve bytes adds one little-endian word to each
of them, and the words are mixed. At last the length and the remaining bytes are added; the low byte
of the third word is left to the length. Folding hashes a key as if it were in lower case.
-/

namespace ServiceConfig.Hash

structure State where
  a : UInt32
  b : UInt32
  c : UInt32
  deriving DecidableEq, Repr

def goldenRatio : UInt32 := 0x9E3779B9
def seed : UInt32 := 0xB33FF00D

def initial : State := ⟨goldenRatio, goldenRatio, seed⟩

/-- One round of the mixer, with its three shifts. -/
def State.round (state : State) (right left last : UInt32) : State :=
  let a := (state.a - state.b - state.c) ^^^ (state.c >>> right)
  let b := (state.b - state.c - a) ^^^ (a <<< left)
  let c := (state.c - a - b) ^^^ (b >>> last)
  ⟨a, b, c⟩

/-- Three rounds, each of which can be undone. -/
def State.mix (state : State) : State :=
  ((state.round 13 8 13).round 12 16 5).round 3 10 15

def octet (fold : Bool) (byte : UInt8) : UInt32 :=
  if fold then (Ascii.lowerByte byte).toUInt32 else byte.toUInt32

/-- The little-endian word of up to four bytes. -/
def word (fold : Bool) : List UInt8 → UInt32
  | [] => 0
  | byte :: rest => octet fold byte + (word fold rest <<< 8)

def blockLength : Nat := 12

/-- Adds three words, the first bytes to the first; the third word is shifted by `shift`. -/
def State.add (state : State) (fold : Bool) (bytes : List UInt8) (shift : UInt32) : State where
  a := state.a + word fold (bytes.take 4)
  b := state.b + word fold ((bytes.drop 4).take 4)
  c := state.c + (word fold ((bytes.drop 8).take 4) <<< shift)

/-- The state after so many full blocks of a key, and the bytes that remain. -/
def absorb (fold : Bool) : (blocks : Nat) → State → List UInt8 → State × List UInt8
  | 0, state, key => (state, key)
  | blocks + 1, state, key =>
    absorb fold blocks (state.add fold (key.take blockLength) 0).mix (key.drop blockLength)

/-- The state after the whole key. -/
def finalState (fold : Bool) (key : List UInt8) : State :=
  let (state, tail) := absorb fold (key.length / blockLength) initial key
  let counted : State := { state with c := state.c + UInt32.ofNat key.length }
  (counted.add fold tail 8).mix

def lookup2 (key : List UInt8) (fold : Bool) : UInt32 := (finalState fold key).c

end ServiceConfig.Hash
