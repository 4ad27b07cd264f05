import Mathlib.Data.List.Forall2
import ServiceConfig.Hash

/-! # Hashing and letter case

Folding acts on each byte by itself, before any arithmetic. So a folded key hashes like its
lower-case form, and keys that agree up to case have one folded hash. What else can be said of the
hash can be said without folding, of the full blocks first and then of the bytes that are left.
-/

namespace ServiceConfig.Hash

private theorem octet_fold (byte : UInt8) : octet true byte = octet false (Ascii.lowerByte byte) :=
  rfl

private theorem word_fold (bytes : List UInt8) :
    word true bytes = word false (bytes.map Ascii.lowerByte) := by
  induction bytes with
  | nil => rfl
  | cons byte rest ih => rw [List.map_cons, word, word, octet_fold, ih]

theorem State.add_fold (state : State) (bytes : List UInt8) (shift : UInt32) :
    state.add true bytes shift = state.add false (bytes.map Ascii.lowerByte) shift := by
  simp only [State.add, word_fold, List.map_take, List.map_drop]

private theorem absorb_fold (blocks : Nat) (state : State) (key : List UInt8) :
    absorb false blocks state (key.map Ascii.lowerByte) =
      ((absorb true blocks state key).1, (absorb true blocks state key).2.map Ascii.lowerByte) := by
  induction blocks generalizing state key with
  | zero => rfl
  | succ blocks ih =>
    rw [absorb, absorb, State.add_fold, List.map_take, ← List.map_drop, ih]

private theorem finalState_fold (key : List UInt8) :
    finalState true key = finalState false (key.map Ascii.lowerByte) := by
  simp only [finalState, List.length_map, absorb_fold, State.add_fold]

/-- The bytes of a key that are hashed. -/
def folded (fold : Bool) (key : List UInt8) : List UInt8 :=
  if fold then key.map Ascii.lowerByte else key

theorem length_folded (fold : Bool) (key : List UInt8) :
    (folded fold key).length = key.length := by
  cases fold with
  | false => rfl
  | true => exact List.length_map _

theorem finalState_folded (fold : Bool) (key : List UInt8) :
    finalState fold key = finalState false (folded fold key) := by
  cases fold with
  | false => rfl
  | true => exact finalState_fold key

/-- Keys that agree up to ASCII case have the same folded hash. -/
theorem lookup2_congr_of_fold {first second : List UInt8}
    (same : first.map Ascii.lowerByte = second.map Ascii.lowerByte) :
    lookup2 first true = lookup2 second true := by
  simp only [lookup2, finalState_fold, same]

def IsCapital (byte : UInt8) : Prop := 65 ≤ byte ∧ byte ≤ 90

instance (byte : UInt8) : Decidable (IsCapital byte) :=
  inferInstanceAs (Decidable (65 ≤ byte ∧ byte ≤ 90))

/-- One byte, or one letter of the alphabet in its two cases. -/
inductive SameLetter : UInt8 → UInt8 → Prop
  | same (byte : UInt8) : SameLetter byte byte
  | lower {capital : UInt8} (isCapital : IsCapital capital) : SameLetter capital (capital + 32)
  | upper {capital : UInt8} (isCapital : IsCapital capital) : SameLetter (capital + 32) capital

private theorem lowerByte_capital {byte : UInt8} (isCapital : IsCapital byte) :
    Ascii.lowerByte byte = byte + 32 := by
  rw [Ascii.lowerByte, if_pos (by simpa [IsCapital] using isCapital)]

private theorem lowerByte_other {byte : UInt8} (other : ¬ IsCapital byte) :
    Ascii.lowerByte byte = byte := by
  rw [Ascii.lowerByte, if_neg (by simpa [IsCapital] using other)]

private theorem not_isCapital_lower {capital : UInt8} (isCapital : IsCapital capital) :
    ¬ IsCapital (capital + 32) := by
  simp only [IsCapital, UInt8.le_iff_toNat_le, UInt8.toNat_add, UInt8.reduceToNat] at isCapital ⊢
  omega

theorem SameLetter.lowerByte_eq {first second : UInt8} (same : SameLetter first second) :
    Ascii.lowerByte first = Ascii.lowerByte second := by
  cases same with
  | same => rfl
  | lower isCapital | upper isCapital =>
    rw [lowerByte_capital isCapital, lowerByte_other (not_isCapital_lower isCapital)]

private theorem lower_of_sameLetter {first second : List UInt8}
    (same : List.Forall₂ SameLetter first second) :
    first.map Ascii.lowerByte = second.map Ascii.lowerByte := by
  induction same with
  | nil => rfl
  | cons here _ ih => rw [List.map_cons, List.map_cons, here.lowerByte_eq, ih]

/-- Folding a key is putting its letters into lower case. So a folded hash is the same for all ways
to write the letters of a key, and any byte that is no capital letter is hashed as it is. -/
theorem lookup2_folded (key : List UInt8) :
    lookup2 key true = lookup2 (key.map Ascii.lowerByte) false ∧
    (∀ other, List.Forall₂ SameLetter key other → lookup2 key true = lookup2 other true) ∧
    ∀ front byte back, key = front ++ byte :: back → ¬ IsCapital byte →
      lookup2 key true =
        lookup2 (front.map Ascii.lowerByte ++ byte :: back.map Ascii.lowerByte) false := by
  have folds : lookup2 key true = lookup2 (key.map Ascii.lowerByte) false := by
    rw [lookup2, finalState_fold, lookup2]
  refine ⟨folds, fun other same => lookup2_congr_of_fold (lower_of_sameLetter same), ?_⟩
  rintro front byte back rfl other
  rw [folds, List.map_append, List.map_cons, lowerByte_other other]

/-- `KÄSE UND BROT` and `käse und brot`, but for the letter that is not ASCII. -/
theorem lookup2_folded_umlaut :
    let upper : List UInt8 := [75, 195, 132, 83, 69, 32, 85, 78, 68, 32, 66, 82, 79, 84]
    let lower : List UInt8 := [107, 195, 132, 115, 101, 32, 117, 110, 100, 32, 98, 114, 111, 116]
    List.Forall₂ SameLetter upper lower ∧ ¬ IsCapital 195 ∧
      lookup2 upper true = lookup2 lower true ∧ lookup2 upper true = lookup2 lower false := by
  intro upper lower
  have same : List.Forall₂ SameLetter upper lower := by
    have capital (letter : UInt8) (isCapital : IsCapital letter) :
        SameLetter letter (letter + 32) := .lower isCapital
    refine .cons (capital 75 (by decide)) (.cons (.same 195) (.cons (.same 132) ?_))
    refine .cons (capital 83 (by decide)) (.cons (capital 69 (by decide)) (.cons (.same 32) ?_))
    refine .cons (capital 85 (by decide)) (.cons (capital 78 (by decide)) ?_)
    refine .cons (capital 68 (by decide)) (.cons (.same 32) (.cons (capital 66 (by decide)) ?_))
    exact .cons (capital 82 (by decide)) (.cons (capital 79 (by decide))
      (.cons (capital 84 (by decide)) .nil))
  have other : ¬ IsCapital 195 := by decide
  obtain ⟨-, folds, keeps⟩ := lookup2_folded upper
  exact ⟨same, other, folds lower same, keeps [75] 195 (upper.drop 2) rfl other⟩

/-- What remains behind full blocks. -/
theorem absorb_snd (fold : Bool) (blocks : Nat) (state : State) (key : List UInt8) :
    (absorb fold blocks state key).2 = key.drop (blockLength * blocks) := by
  induction blocks generalizing state key with
  | zero => rfl
  | succ blocks ih => rw [absorb, ih, List.drop_drop, Nat.mul_succ, Nat.add_comm]

/-- The last step takes in the length and the bytes that are left. -/
def State.finish (state : State) (length : Nat) (rest : List UInt8) : State :=
  (State.add ⟨state.a, state.b, state.c + UInt32.ofNat length⟩ false rest 8).mix

/-- What becomes of a state by the rest of a key, which has so many bytes in all. -/
def State.conclude (state : State) (length : Nat) (rest : List UInt8) : State :=
  (absorb false (rest.length / blockLength) state rest).1.finish length
    (rest.drop (blockLength * (rest.length / blockLength)))

theorem finalState_eq (key : List UInt8) :
    finalState false key = initial.conclude key.length key := by
  rw [finalState, State.conclude, ← absorb_snd false (key.length / blockLength) initial key]
  rfl

end ServiceConfig.Hash
