import Mathlib.Algebra.Group.Nat.Defs
import Mathlib.Logic.Function.Basic
import ServiceConfig.Proofs.Hash

/-! # What the hash still knows of a key

Mixing can be undone, and a word holds its bytes. So nothing is lost as long as the state is not cut
down to one word: keys that differ within a single block, or within the bytes behind the last one,
end in different states, and so do any two keys without a full block, whose lengths show in the byte
that is left to them.
-/

namespace ServiceConfig.Hash

/-- Undoes a round, from the last of its assignments to the first. -/
def State.unround (state : State) (right left last : UInt32) : State :=
  let c := (state.c ^^^ (state.b >>> last)) + state.b + state.a
  let b := (state.b ^^^ (state.a <<< left)) + state.a + c
  let a := (state.a ^^^ (c >>> right)) + c + b
  ⟨a, b, c⟩

private theorem unround_round (state : State) (right left last : UInt32) :
    (state.round right left last).unround right left last = state := by
  have undo (word other : UInt32) : word ^^^ other ^^^ other = word := by
    rw [UInt32.xor_assoc, UInt32.xor_self, UInt32.xor_zero]
  simp only [State.round, State.unround, undo, UInt32.sub_add_cancel]

private theorem round_injective (right left last : UInt32) :
    Function.Injective fun state : State => state.round right left last := by
  have undoes : Function.LeftInverse (fun state : State => state.unround right left last)
      fun state : State => state.round right left last :=
    fun state => unround_round state right left last
  exact undoes.injective

private theorem mix_injective : Function.Injective State.mix :=
  (round_injective 3 10 15).comp ((round_injective 12 16 5).comp (round_injective 13 8 13))

private theorem toNat_word_of_lt (byte : UInt8) {rest : List UInt8}
    (small : (word false rest).toNat < 256 ^ 3) :
    (word false (byte :: rest)).toNat = byte.toNat + 256 * (word false rest).toNat := by
  have bound := byte.toNat_lt
  have shifted : (word false rest <<< 8).toNat = 256 * (word false rest).toNat := by
    have places : (8 : UInt32).toNat % 32 = 8 := by decide
    rw [UInt32.toNat_shiftLeft, places, Nat.shiftLeft_eq]
    omega
  rw [word, octet, UInt32.toNat_add, shifted]
  simp only [Bool.false_eq_true, if_false, UInt8.toNat_toUInt32]
  omega

private theorem toNat_word_lt {bytes : List UInt8} (short : bytes.length ≤ 4) :
    (word false bytes).toNat < 256 ^ bytes.length := by
  induction bytes with
  | nil => decide
  | cons byte rest ih =>
    rw [List.length_cons] at short ⊢
    have below := ih (by omega)
    have room : 256 ^ rest.length ≤ 256 ^ 3 := Nat.pow_le_pow_right (by decide) (by omega)
    have bound := byte.toNat_lt
    rw [toNat_word_of_lt byte (by omega), Nat.pow_succ]
    omega

private theorem word_cons_inj {first second : UInt8} {rest more : List UInt8}
    (short : rest.length ≤ 3) (shortMore : more.length ≤ 3)
    (same : word false (first :: rest) = word false (second :: more)) :
    first = second ∧ word false rest = word false more := by
  have small {bytes : List UInt8} (short : bytes.length ≤ 3) :
      (word false bytes).toNat < 256 ^ 3 :=
    Nat.lt_of_lt_of_le (toNat_word_lt (by omega)) (Nat.pow_le_pow_right (by decide) short)
  have numbers := congrArg UInt32.toNat same
  rw [toNat_word_of_lt first (small short), toNat_word_of_lt second (small shortMore)] at numbers
  have lower := first.toNat_lt
  have lowerSecond := second.toNat_lt
  refine ⟨UInt8.toNat_inj.mp ?_, UInt32.toNat_inj.mp ?_⟩ <;> omega

/-- A word holds its bytes. -/
private theorem word_inj {first second : List UInt8} (length : first.length = second.length)
    (short : first.length ≤ 4) (same : word false first = word false second) : first = second := by
  induction first generalizing second with
  | nil => exact (List.eq_nil_of_length_eq_zero length.symm).symm
  | cons byte rest ih =>
    cases second with
    | nil => cases length
    | cons other more =>
      simp only [List.length_cons] at length short
      obtain ⟨rfl, later⟩ := word_cons_inj (by omega) (by omega) same
      rw [ih (by omega) (by omega) later]

section

variable {state : State} {first second : List UInt8}

/-- What adding bytes tells of them, word by word. -/
private theorem words_of_add {shift : UInt32}
    (same : state.add false first shift = state.add false second shift) :
    word false (first.take 4) = word false (second.take 4) ∧
      word false ((first.drop 4).take 4) = word false ((second.drop 4).take 4) ∧
      word false ((first.drop 8).take 4) <<< shift =
        word false ((second.drop 8).take 4) <<< shift := by
  obtain ⟨a, b, c⟩ := State.mk.inj same
  exact ⟨UInt32.add_right_inj _ |>.mp a, UInt32.add_right_inj _ |>.mp b,
    UInt32.add_right_inj _ |>.mp c⟩

/-- Three words are up to twelve bytes. -/
private theorem eq_of_words (length : first.length = second.length)
    (short : first.length ≤ blockLength)
    (low : word false (first.take 4) = word false (second.take 4))
    (middle : word false ((first.drop 4).take 4) = word false ((second.drop 4).take 4))
    (high : word false ((first.drop 8).take 4) = word false ((second.drop 8).take 4)) :
    first = second := by
  have parts (bytes : List UInt8) (short : bytes.length ≤ 12) :
      bytes = bytes.take 4 ++ ((bytes.drop 4).take 4 ++ (bytes.drop 8).take 4) := by
    have last : (bytes.drop 8).take 4 = (bytes.drop 4).drop 4 := by
      rw [List.drop_drop, List.take_of_length_le]
      rw [List.length_drop]
      omega
    rw [last, List.take_append_drop, List.take_append_drop]
  rw [blockLength] at short
  have low := word_inj (by simp [length]) (List.length_take_le ..) low
  have middle := word_inj (by simp [length]) (List.length_take_le ..) middle
  have high := word_inj (by simp [length]) (List.length_take_le ..) high
  rw [parts first short, parts second (length ▸ short), low, middle, high]

/-- A full block shows in the words it is added to. -/
theorem add_block_inj (length : first.length = second.length) (short : first.length ≤ blockLength)
    (same : state.add false first 0 = state.add false second 0) : first = second := by
  obtain ⟨low, middle, high⟩ := words_of_add same
  rw [UInt32.shiftLeft_zero, UInt32.shiftLeft_zero] at high
  exact eq_of_words length short low middle high

private theorem add_injective (bytes : List UInt8) (shift : UInt32) :
    Function.Injective fun state : State => state.add false bytes shift := by
  rintro ⟨a, b, c⟩ ⟨_, _, _⟩ same
  obtain ⟨sameA, sameB, sameC⟩ := State.mk.inj same
  rw [State.mk.injEq]
  exact ⟨(UInt32.add_left_inj _).mp sameA, (UInt32.add_left_inj _).mp sameB,
    (UInt32.add_left_inj _).mp sameC⟩

end

theorem finish_injective (length : Nat) (rest : List UInt8) :
    Function.Injective fun state : State => state.finish length rest := by
  rintro ⟨a, b, c⟩ ⟨_, _, _⟩ same
  obtain ⟨rfl, rfl, sameC⟩ := State.mk.inj (add_injective rest 8 (mix_injective same))
  rw [State.mk.injEq]
  exact ⟨rfl, rfl, (UInt32.add_left_inj _).mp sameC⟩

section

variable {state : State} {first second : List UInt8}

/-- Without a full block there are at most three bytes for the third word, beside the byte that is
left to the length. -/
theorem behind_length {bytes : List UInt8} (short : bytes.length < blockLength) :
    ((bytes.drop 8).take 4).length ≤ 3 := by
  rw [blockLength] at short
  rw [List.length_take, List.length_drop]
  omega

/-- With one length, the bytes that are left show in the last step. -/
theorem finish_inj {count : Nat} (length : first.length = second.length)
    (short : first.length < blockLength)
    (same : state.finish count first = state.finish count second) : first = second := by
  obtain ⟨low, middle, high⟩ := words_of_add (mix_injective same)
  have high := congrArg ((0 : UInt8).toUInt32 + ·) high
  have high := (word_cons_inj (behind_length short) (behind_length (length ▸ short)) high).2
  exact eq_of_words length (Nat.le_of_lt short) low middle high

/-- The length of a key without a full block shows in the byte that is left to it. -/
theorem length_eq_of_finish (short : first.length < blockLength)
    (shortSecond : second.length < blockLength)
    (same : state.finish first.length first = state.finish second.length second) :
    first.length = second.length := by
  have same := (State.mk.inj (mix_injective same)).2.2
  rw [UInt32.add_assoc, UInt32.add_assoc, UInt32.add_right_inj] at same
  have byte : ∀ length < blockLength, UInt32.ofNat length = (UInt8.ofNat length).toUInt32 := by
    decide
  rw [byte _ short, byte _ shortSecond] at same
  have same := (word_cons_inj (behind_length short) (behind_length shortSecond) same).1
  have numbers := congrArg UInt8.toNat same
  rw [blockLength] at short shortSecond
  rwa [UInt8.toNat_ofNat_of_lt' (by omega : first.length < 256),
    UInt8.toNat_ofNat_of_lt' (by omega : second.length < 256)] at numbers

end

theorem absorb_injective (blocks : Nat) (key : List UInt8) :
    Function.Injective fun state : State => (absorb false blocks state key).1 := by
  induction blocks generalizing key with
  | zero => exact fun _ _ => id
  | succ blocks ih =>
    exact fun _ _ same => add_injective _ 0 (mix_injective (ih (key.drop blockLength) same))

/-- Blocks in front are taken in before what comes behind them. -/
theorem absorb_append {blocks : Nat} {front : List UInt8}
    (aligned : front.length = blockLength * blocks) (more : Nat) (state : State)
    (rest : List UInt8) :
    absorb false (blocks + more) state (front ++ rest) =
      absorb false more (absorb false blocks state front).1 rest := by
  induction blocks generalizing state front with
  | zero =>
    obtain rfl := List.eq_nil_of_length_eq_zero aligned
    rw [Nat.zero_add]
    rfl
  | succ blocks ih =>
    rw [Nat.mul_succ] at aligned
    have whole : (front.drop blockLength).length = blockLength * blocks := by
      rw [List.length_drop]
      omega
    rw [Nat.succ_add, absorb, absorb, List.take_append_of_le_length (by omega),
      List.drop_append_of_le_length (by omega), ih whole]

private theorem conclude_injective (length : Nat) (rest : List UInt8) :
    Function.Injective fun state : State => state.conclude length rest :=
  (finish_injective length _).comp (absorb_injective _ rest)

private theorem conclude_append {blocks : Nat} {front : List UInt8}
    (aligned : front.length = blockLength * blocks) (state : State) (length : Nat)
    (rest : List UInt8) :
    state.conclude length (front ++ rest) =
      (absorb false blocks state front).1.conclude length rest := by
  have counted : (front ++ rest).length / blockLength = blocks + rest.length / blockLength := by
    rw [List.length_append, aligned, Nat.mul_add_div (by decide)]
  rw [State.conclude, counted, absorb_append aligned, Nat.mul_add, ← aligned,
    List.drop_length_add_append]
  rfl

private theorem conclude_short {rest : List UInt8} (short : rest.length < blockLength)
    (state : State) (length : Nat) : state.conclude length rest = state.finish length rest := by
  rw [State.conclude, Nat.div_eq_of_lt short, Nat.mul_zero, List.drop_zero]
  rfl

section

variable {front first second back : List UInt8}

/-- Keys that differ within one block end in different states. -/
theorem finalState_block_inj (aligned : blockLength ∣ front.length)
    (full : first.length = blockLength) (length : first.length = second.length)
    (same : finalState false (front ++ (first ++ back)) =
      finalState false (front ++ (second ++ back))) : first = second := by
  obtain ⟨blocks, aligned⟩ := aligned
  have block {bytes : List UInt8} (full : bytes.length = blockLength) :
      bytes.length = blockLength * 1 := by rw [full, Nat.mul_one]
  have counted : (front ++ (first ++ back)).length = (front ++ (second ++ back)).length := by
    simp only [List.length_append, length]
  rw [finalState_eq, finalState_eq, counted] at same
  rw [conclude_append aligned, conclude_append aligned, conclude_append (block full),
    conclude_append (block (length ▸ full))] at same
  have mixed := mix_injective (conclude_injective _ back same)
  rw [List.take_of_length_le (Nat.le_of_eq full),
    List.take_of_length_le (Nat.le_of_eq (length ▸ full))] at mixed
  exact add_block_inj length (Nat.le_of_eq full) mixed

/-- Keys that differ behind the last block end in different states. -/
theorem finalState_rest_inj (aligned : blockLength ∣ front.length)
    (short : first.length < blockLength) (length : first.length = second.length)
    (same : finalState false (front ++ first) = finalState false (front ++ second)) :
    first = second := by
  obtain ⟨blocks, aligned⟩ := aligned
  have counted : (front ++ first).length = (front ++ second).length := by
    simp only [List.length_append, length]
  rw [finalState_eq, finalState_eq, counted] at same
  rw [conclude_append aligned, conclude_append aligned, conclude_short short,
    conclude_short (length ▸ short)] at same
  exact finish_inj length short same

/-- So do keys without a full block, whatever their lengths. -/
theorem finalState_short_inj (short : first.length < blockLength)
    (shortSecond : second.length < blockLength)
    (same : finalState false first = finalState false second) : first = second := by
  rw [finalState_eq, finalState_eq] at same
  rw [conclude_short short, conclude_short shortSecond] at same
  have length := length_eq_of_finish short shortSecond same
  rw [length] at same
  exact finish_inj length short same

end

/-- Keys of one length that differ in no two blocks; the bytes behind the last full block count as
one of them. -/
def DifferInBlock (first second : List UInt8) : Prop :=
  first.length = second.length ∧
    ∃ block, ∀ place, first[place]? ≠ second[place]? → place / blockLength = block

/-- What such keys have in common stands in front of one block and behind it. -/
theorem DifferInBlock.exists_split {first second : List UInt8}
    (confined : DifferInBlock first second) (differ : first ≠ second) :
    ∃ front here there back, first = front ++ (here ++ back) ∧ second = front ++ (there ++ back) ∧
      blockLength ∣ front.length ∧ here.length = there.length ∧
      (here.length = blockLength ∨ here.length < blockLength ∧ back = []) := by
  obtain ⟨length, block, inside⟩ := confined
  rw [blockLength] at inside ⊢
  have begins : 12 * block ≤ first.length := by
    by_contra beyond
    refine differ (List.ext_getElem? fun place => ?_)
    by_contra apart
    have here := inside place apart
    rw [List.getElem?_eq_none (by omega), List.getElem?_eq_none (by omega)] at apart
    exact apart rfl
  have front : first.take (12 * block) = second.take (12 * block) := by
    apply List.ext_getElem?
    intro place
    rw [List.getElem?_take, List.getElem?_take]
    split_ifs with before
    · by_contra apart
      have here := inside place apart
      omega
    · rfl
  have back : first.drop (12 * block + 12) = second.drop (12 * block + 12) := by
    apply List.ext_getElem?
    intro place
    rw [List.getElem?_drop, List.getElem?_drop]
    by_contra apart
    have here := inside _ apart
    omega
  have parts (key : List UInt8) : key = key.take (12 * block) ++
      ((key.drop (12 * block)).take 12 ++ key.drop (12 * block + 12)) := by
    rw [← List.drop_drop, List.take_append_drop, List.take_append_drop]
  refine ⟨first.take (12 * block), (first.drop (12 * block)).take 12,
    (second.drop (12 * block)).take 12, first.drop (12 * block + 12), parts first, ?_, ?_, ?_, ?_⟩
  · rw [front, back]
    exact parts second
  · rw [List.length_take_of_le begins]
    exact Nat.dvd_mul_right 12 block
  · simp only [List.length_take, List.length_drop, length]
  · rw [List.length_take, List.length_drop, List.drop_eq_nil_iff]
    omega

/-- Keys end in different states, with all three words, if what is hashed of them differs within one
block, or within the bytes behind the last one, or if neither of them fills a block. -/
theorem finalState_separates {fold : Bool} {first second : List UInt8}
    (differ : folded fold first ≠ folded fold second)
    (confined : DifferInBlock (folded fold first) (folded fold second) ∨
      first.length < blockLength ∧ second.length < blockLength) :
    finalState fold first ≠ finalState fold second := by
  rw [finalState_folded, finalState_folded fold second]
  rw [← length_folded fold first, ← length_folded fold second] at confined
  generalize folded fold first = first at differ confined ⊢
  generalize folded fold second = second at differ confined ⊢
  intro same
  rcases confined with confined | ⟨short, shortSecond⟩
  · obtain ⟨front, here, there, back, rfl, rfl, aligned, length, full | ⟨short, rfl⟩⟩ :=
      confined.exists_split differ
    · exact differ (by rw [finalState_block_inj aligned full length same])
    · rw [List.append_nil, List.append_nil] at same differ
      exact differ (by rw [finalState_rest_inj aligned short length same])
  · exact differ (finalState_short_inj short shortSecond same)

/-- Folded keys of two full blocks and two bytes more. The letters that differ in case only do not
count; the last byte of the second block does. -/
theorem finalState_separates_folded :
    let first : List UInt8 := [65, 98, 99, 100, 101, 102, 103, 104, 105, 106, 107, 108,
      109, 110, 111, 112, 113, 114, 115, 116, 117, 118, 119, 120, 121, 122]
    let second : List UInt8 := [97, 66, 99, 100, 101, 102, 103, 104, 105, 106, 107, 108,
      109, 110, 111, 112, 113, 114, 115, 116, 117, 118, 119, 95, 89, 122]
    folded true first ≠ folded true second ∧
      DifferInBlock (folded true first) (folded true second) ∧
      finalState true first ≠ finalState true second := by
  intro first second
  have differ : folded true first ≠ folded true second := by decide
  have confined : DifferInBlock (folded true first) (folded true second) := by
    refine ⟨rfl, 1, fun place apart => ?_⟩
    have within : place < 26 := by
      by_contra beyond
      rw [List.getElem?_eq_none (Nat.not_lt.mp beyond),
        List.getElem?_eq_none (Nat.not_lt.mp beyond)] at apart
      exact apart rfl
    have all : ∀ place < 26, (folded true first)[place]? ≠ (folded true second)[place]? →
        place / blockLength = 1 := by decide
    exact all place within apart
  exact ⟨differ, confined, finalState_separates differ (.inl confined)⟩

end ServiceConfig.Hash
