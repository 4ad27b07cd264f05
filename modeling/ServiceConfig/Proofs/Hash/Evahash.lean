import Mathlib.Tactic.IntervalCases
import ServiceConfig.Proofs.Hash

/-! # The hash in its published form

The hash was published as a loop over twelve bytes at a time, in which each byte is shifted to its
place, and a switch over the bytes that are left, whose cases fall through. Taking whole words from
a block and from the rest comes to the same, since a word is the sum of its shifted bytes and a case
of the switch adds one byte more to one of the three words.
-/

namespace ServiceConfig.Hash

namespace Evahash

/-- The mixer, one assignment after the other. -/
def mix : State → State
  | ⟨a, b, c⟩ =>
    let a := a - b; let a := a - c; let a := a ^^^ (c >>> 13)
    let b := b - c; let b := b - a; let b := b ^^^ (a <<< 8)
    let c := c - a; let c := c - b; let c := c ^^^ (b >>> 13)
    let a := a - b; let a := a - c; let a := a ^^^ (c >>> 12)
    let b := b - c; let b := b - a; let b := b ^^^ (a <<< 16)
    let c := c - a; let c := c - b; let c := c ^^^ (b >>> 5)
    let a := a - b; let a := a - c; let a := a ^^^ (c >>> 3)
    let b := b - c; let b := b - a; let b := b ^^^ (a <<< 10)
    let c := c - a; let c := c - b; let c := c ^^^ (b >>> 15)
    ⟨a, b, c⟩

/-- The byte of a key at a place, as a word. -/
def byteAt (key : List UInt8) (place : Nat) : UInt32 := (key.getD place 0).toUInt32

/-- Adds a block of twelve bytes. -/
def addBlock (key : List UInt8) : State → State
  | ⟨a, b, c⟩ =>
    ⟨a + (byteAt key 0 + (byteAt key 1 <<< 8) + (byteAt key 2 <<< 16) + (byteAt key 3 <<< 24)),
      b + (byteAt key 4 + (byteAt key 5 <<< 8) + (byteAt key 6 <<< 16) + (byteAt key 7 <<< 24)),
      c + (byteAt key 8 + (byteAt key 9 <<< 8) + (byteAt key 10 <<< 16) + (byteAt key 11 <<< 24))⟩

/-- The loop: as long as there are twelve bytes, they are added and mixed in. What remains is the
state and the rest of the key. -/
def loop (state : State) (key : List UInt8) : State × List UInt8 :=
  if 12 ≤ key.length then loop (mix (addBlock key state)) (key.drop 12) else (state, key)
termination_by key.length
decreasing_by
  rw [List.length_drop]
  omega

/-- One case of the switch over the number of bytes that are left. The first byte of `c` is reserved
for the length. -/
def switchCase (key : List UInt8) : Nat → State → State
  | 11, ⟨a, b, c⟩ => ⟨a, b, c + (byteAt key 10 <<< 24)⟩
  | 10, ⟨a, b, c⟩ => ⟨a, b, c + (byteAt key 9 <<< 16)⟩
  | 9, ⟨a, b, c⟩ => ⟨a, b, c + (byteAt key 8 <<< 8)⟩
  | 8, ⟨a, b, c⟩ => ⟨a, b + (byteAt key 7 <<< 24), c⟩
  | 7, ⟨a, b, c⟩ => ⟨a, b + (byteAt key 6 <<< 16), c⟩
  | 6, ⟨a, b, c⟩ => ⟨a, b + (byteAt key 5 <<< 8), c⟩
  | 5, ⟨a, b, c⟩ => ⟨a, b + byteAt key 4, c⟩
  | 4, ⟨a, b, c⟩ => ⟨a + (byteAt key 3 <<< 24), b, c⟩
  | 3, ⟨a, b, c⟩ => ⟨a + (byteAt key 2 <<< 16), b, c⟩
  | 2, ⟨a, b, c⟩ => ⟨a + (byteAt key 1 <<< 8), b, c⟩
  | 1, ⟨a, b, c⟩ => ⟨a + byteAt key 0, b, c⟩
  | _, state => state

/-- A case and all below it, into which it falls through. -/
def fallThrough (key : List UInt8) : Nat → State → State
  | 0, state => state
  | label + 1, state => fallThrough key label (switchCase key (label + 1) state)

/-- The hash of a key that continues the hash `initval`. -/
def hash (key : List UInt8) (initval : UInt32) : UInt32 :=
  let (⟨a, b, c⟩, rest) := loop ⟨0x9E3779B9, 0x9E3779B9, initval⟩ key
  let counted : State := ⟨a, b, c + UInt32.ofNat key.length⟩
  (mix (fallThrough rest rest.length counted)).c

end Evahash

private theorem add_shiftLeft (first second shift : UInt32) :
    (first + second) <<< shift = (first <<< shift) + (second <<< shift) := by
  apply UInt32.toBitVec_inj.mp
  simp only [UInt32.toBitVec_shiftLeft, UInt32.toBitVec_add]
  exact BitVec.shiftLeft_add_distrib

private theorem mix_eq (state : State) : state.mix = Evahash.mix state := rfl

private theorem byteAt_drop (key : List UInt8) (skipped place : Nat) :
    Evahash.byteAt (key.drop skipped) place = Evahash.byteAt key (skipped + place) := by
  rw [Evahash.byteAt, Evahash.byteAt, List.getD_eq_getElem?_getD, List.getD_eq_getElem?_getD,
    List.getElem?_drop]

/-- One byte more at the end of a word is added in its place. -/
private theorem word_take_succ (bytes : List UInt8) {count : Nat} (room : count < 4) :
    word false (bytes.take (count + 1)) =
      word false (bytes.take count) +
        (Evahash.byteAt bytes count <<< UInt32.ofNat (8 * count)) := by
  induction bytes generalizing count with
  | nil => simp [Evahash.byteAt, word]
  | cons byte rest ih =>
    cases count with
    | zero => simp [Evahash.byteAt, word, octet]
    | succ count =>
      have apart (word : UInt32) : word <<< UInt32.ofNat (8 * count) <<< 8 =
          word <<< UInt32.ofNat (8 * (count + 1)) := by
        have room : count < 3 := by omega
        interval_cases count <;>
          exact (UInt32.shiftLeft_add (by decide) (by decide) (by decide)).symm
      rw [List.take_succ_cons, word, ih (by omega), add_shiftLeft, apart, ← UInt32.add_assoc]
      rfl

/-- A word of four bytes, wherever they stand in the key. -/
private theorem word_four (key : List UInt8) (place : Nat) :
    word false ((key.drop place).take 4) = Evahash.byteAt key place +
      (Evahash.byteAt key (place + 1) <<< 8) + (Evahash.byteAt key (place + 2) <<< 16) +
      (Evahash.byteAt key (place + 3) <<< 24) := by
  rw [word_take_succ _ (by decide), word_take_succ _ (by decide), word_take_succ _ (by decide),
    word_take_succ _ (by decide)]
  simp only [byteAt_drop]
  simp [word]

/-- What the first bytes of a key add to each of the words. -/
private theorem add_take (state : State) (key : List UInt8) (count : Nat) (shift : UInt32) :
    state.add false (key.take count) shift =
      ⟨state.a + word false (key.take (min 4 count)),
        state.b + word false ((key.drop 4).take (min 4 (count - 4))),
        state.c + (word false ((key.drop 8).take (min 4 (count - 8))) <<< shift)⟩ := by
  simp only [State.add, List.take_take, List.drop_take]

private theorem addBlock_eq (state : State) (key : List UInt8) :
    state.add false (key.take blockLength) 0 = Evahash.addBlock key state := by
  have first := word_four key 0
  rw [List.drop_zero] at first
  have full : min 4 12 = 4 ∧ min 4 (12 - 4) = 4 ∧ min 4 (12 - 8) = 4 := by decide
  rw [blockLength, add_take, full.1, full.2.1, full.2.2, first, word_four key 4, word_four key 8,
    UInt32.shiftLeft_zero]
  rfl

/-- Each case shifts its byte to the next free place of one of the words; of the third word the
lowest place is taken. -/
theorem switchCase_eq (key : List UInt8) {count : Nat} (room : count < 11) (state : State) :
    Evahash.switchCase key (count + 1) state =
      let byte := Evahash.byteAt key count
      if count < 4 then { state with a := state.a + (byte <<< UInt32.ofNat (8 * count)) }
      else if count < 8 then { state with b := state.b + (byte <<< UInt32.ofNat (8 * (count - 4))) }
      else { state with c := state.c + (byte <<< UInt32.ofNat (8 * (count - 8)) <<< 8) } := by
  have twice (byte : UInt32) : byte <<< 8 <<< 8 = byte <<< 16 ∧ byte <<< 16 <<< 8 = byte <<< 24 :=
    ⟨(UInt32.shiftLeft_add (by decide) (by decide) (by decide)).symm,
      (UInt32.shiftLeft_add (by decide) (by decide) (by decide)).symm⟩
  interval_cases count <;> simp [Evahash.switchCase, twice]

private theorem add_swap (first second third : UInt32) :
    first + second + third = first + (third + second) := by
  rw [UInt32.add_assoc, UInt32.add_comm second]

/-- A case of the switch, and the bytes below it as words, are the bytes up to it as words. -/
theorem switchCase_add (state : State) (key : List UInt8) {count : Nat} (room : count < 11) :
    (Evahash.switchCase key (count + 1) state).add false (key.take count) 8 =
      state.add false (key.take (count + 1)) 8 := by
  rw [switchCase_eq key room, add_take, add_take]
  dsimp only
  split_ifs with first second
  · have grows := word_take_succ key first
    have within : min 4 count = count ∧ min 4 (count + 1) = count + 1 := by omega
    have none : count - 4 = 0 ∧ count + 1 - 4 = 0 ∧ count - 8 = 0 ∧ count + 1 - 8 = 0 := by omega
    simp only [within, none, grows, add_swap]
  · obtain ⟨place, rfl⟩ : ∃ place, count = place + 4 := ⟨count - 4, by omega⟩
    have grows := word_take_succ (key.drop 4) (by omega : place < 4)
    have within : min 4 (place + 4) = 4 ∧ min 4 (place + 4 + 1) = 4 ∧ min 4 place = place ∧
        min 4 (place + 1) = place + 1 := by omega
    have shifted : place + 4 - 4 = place ∧ place + 4 + 1 - 4 = place + 1 ∧ place + 4 - 8 = 0 ∧
        place + 4 + 1 - 8 = 0 := by omega
    rw [byteAt_drop, Nat.add_comm 4] at grows
    simp only [shifted, within, grows, add_swap]
  · obtain ⟨place, rfl⟩ : ∃ place, count = place + 8 := ⟨count - 8, by omega⟩
    have grows := word_take_succ (key.drop 8) (by omega : place < 4)
    have within : min 4 (place + 8) = 4 ∧ min 4 (place + 8 + 1) = 4 ∧ min 4 (place + 4) = 4 ∧
        min 4 (place + 5) = 4 ∧ min 4 place = place ∧ min 4 (place + 1) = place + 1 := by omega
    have shifted : place + 8 - 4 = place + 4 ∧ place + 8 + 1 - 4 = place + 5 ∧
        place + 8 - 8 = place ∧ place + 8 + 1 - 8 = place + 1 := by omega
    rw [byteAt_drop, Nat.add_comm 8] at grows
    simp only [shifted, within, grows, add_shiftLeft, add_swap]

private theorem fallThrough_eq (key : List UInt8) {count : Nat} (room : count ≤ 11)
    (state : State) :
    Evahash.fallThrough key count state = state.add false (key.take count) 8 := by
  induction count generalizing state with
  | zero => simp [Evahash.fallThrough, State.add, word]
  | succ count ih =>
    rw [Evahash.fallThrough, ih (by omega), switchCase_add state key (by omega)]

/-- The loop takes in the full blocks of a key. -/
theorem loop_eq (state : State) (key : List UInt8) :
    Evahash.loop state key = absorb false (key.length / blockLength) state key := by
  fun_induction Evahash.loop state key with
  | case1 state key more ih =>
    have blocks : key.length / blockLength = (key.drop 12).length / blockLength + 1 := by
      rw [List.length_drop, blockLength]
      omega
    rw [ih, blocks, absorb, addBlock_eq, mix_eq]
    rfl
  | case2 state key less =>
    have none : key.length / blockLength = 0 := Nat.div_eq_of_lt (by simpa [blockLength] using less)
    rw [none]
    rfl

/-- The switch takes in the bytes that are left. -/
theorem finish_eq (state : State) (length : Nat) {rest : List UInt8} (short : rest.length ≤ 11) :
    state.finish length rest = Evahash.mix (Evahash.fallThrough rest rest.length
      ⟨state.a, state.b, state.c + UInt32.ofNat length⟩) := by
  rw [State.finish, fallThrough_eq rest short, List.take_length, mix_eq]

/-- The hash is the published one, begun with a seed of its own, of the key in lower case if it is
folded. -/
theorem lookup2_eq_evahash (key : List UInt8) (fold : Bool) :
    lookup2 key fold = Evahash.hash (if fold then key.map Ascii.lowerByte else key) 0xB33FF00D := by
  change _ = Evahash.hash (folded fold key) _
  rw [lookup2, finalState_folded]
  generalize folded fold key = key
  let rest := key.drop (blockLength * (key.length / blockLength))
  have short : rest.length ≤ 11 := by
    rw [List.length_drop, blockLength]
    omega
  have looped : Evahash.loop ⟨0x9E3779B9, 0x9E3779B9, 0xB33FF00D⟩ key =
      ((absorb false (key.length / blockLength) initial key).1, rest) := by
    rw [loop_eq]
    exact Prod.ext rfl (absorb_snd ..)
  rw [finalState_eq, State.conclude, finish_eq _ _ short, Evahash.hash, looped]

end ServiceConfig.Hash
