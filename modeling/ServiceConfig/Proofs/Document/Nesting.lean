import ServiceConfig.Proofs.Document.Resolution

/-! # Nesting

How deep a text stands inside blocks and files decides one thing only: whether it is refused for its
depth. Whatever else comes of it, comes of it at any lesser depth too. A text never closes more
blocks than it has opened, also when a complaint cuts it short.
-/

namespace ServiceConfig

open Grammar

/-- The errors about includes or blocks that are nested too deeply. -/
def ConfigError.IsDepth : ConfigError → Prop
  | .includeDepth _ => True
  | .text _ complaint => complaint.fault = .nestedTooDeeply
  | .file _ _ | .invalidValue _ _ => False

/-- A result that is not refused for its depth. -/
def Shallow {α : Type} (result : Except ConfigError α) : Prop :=
  ∀ error, result = .error error → ¬ error.IsDepth

theorem shallow_ok {α : Type} (value : α) : Shallow (.ok value : Except ConfigError α) := nofun

private theorem shallow_error {α : Type} (error : ConfigError) :
    Shallow (.error error : Except ConfigError α) ↔ ¬ error.IsDepth := by
  refine ⟨fun shallow => shallow error rfl, ?_⟩
  rintro apart _ ⟨⟩
  exact apart

theorem shallow_map {α β : Type} {result : Except ConfigError α} {convert : α → β} :
    Shallow (result.map convert) ↔ Shallow result := by
  cases result with
  | error error => exact (shallow_error error).trans (shallow_error error).symm
  | ok value => exact iff_of_true (shallow_ok _) (shallow_ok value)

namespace Grammar

/-- The blocks that statements close are open before them or opened by them. -/
def Nests : Nat → List Statement → Prop
  | _, [] => True
  | inside, statement :: rest =>
    match statement.event with
    | .leaf _ _ => Nests inside rest
    | .opening _ _ => Nests (inside + 1) rest
    | .closing => ∃ outside, inside = outside + 1 ∧ Nests outside rest

/-- The head of a statement never closes a block. -/
theorem Cursor.statement_ne_closing {start next : Cursor} {event : Event}
    (read : start.statement = .ok (event, next)) : event ≠ .closing := by
  unfold Cursor.statement at read
  split at read
  · cases read
  next name valueStart named =>
    dsimp only at read
    split at read
    · cases read
    next mark rest behind =>
      split_ifs at read
      · obtain ⟨rfl, -⟩ := Prod.mk.inj (Except.ok.inj read)
        rw [Event.ofLeaf_eq]
        split_ifs <;> nofun
      · obtain ⟨rfl, -⟩ := Prod.mk.inj (Except.ok.inj read)
        nofun

theorem Script.scan_nests (cursor : Cursor) (lines : List Nat) :
    Nests lines.length (scan cursor lines).statements := by
  fun_induction scan cursor lines with
  | case1 | case2 | case3 | case4 | case6 => trivial
  | case5 cursor start rest opened outer next ended starts ih => exact ⟨outer.length, rfl, ih⟩
  | case7 cursor lines start byte rest starts opens event next read ih =>
    cases event with
    | leaf | opening => exact ih
    | closing => exact absurd rfl (Cursor.statement_ne_closing read)

theorem Script.ofText_nests (text : List UInt8) : Nests 0 (ofText text).statements := by
  rw [ofText]
  cases strip text with
  | error began => trivial
  | ok source => exact scan_nests ⟨source, 1⟩ []

end Grammar

namespace Document

variable {splice other : String → Nat → Except ConfigError (List Event)} {origin : String}
  {complaint? : Option Complaint} {depth lower : Nat}

/-- Inside fewer blocks, and with includes that do at least as well, the result is the same. -/
theorem resolve_lower {statements : List Statement}
    (splices : ∀ target {inner fewer}, fewer ≤ inner → Shallow (splice target inner) →
      other target fewer = splice target inner) (shallower : lower ≤ depth)
    (shallow : Shallow (resolve splice origin complaint? depth statements)) :
    resolve other origin complaint? lower statements =
      resolve splice origin complaint? depth statements := by
  induction statements generalizing depth lower with
  | nil => rfl
  | cons statement rest ih =>
    cases event : statement.event with
    | leaf name value =>
      by_cases named : name = includeName
      · rw [named] at event
        rw [resolve_include event] at shallow ⊢
        rw [resolve_include event]
        cases said : splice value depth with
        | error error =>
          rw [said] at shallow
          rw [splices value shallower (by rw [said]; exact shallow), said]
          rfl
        | ok spliced =>
          rw [said] at shallow
          rw [splices value shallower (by rw [said]; exact shallow_ok spliced), said]
          exact congrArg (Except.map (spliced ++ ·)) (ih shallower (shallow_map.mp shallow))
      · rw [resolve_leaf event named] at shallow ⊢
        rw [resolve_leaf event named, ih shallower (shallow_map.mp shallow)]
    | opening name value? =>
      -- the only place where the depth decides, and what fits here fits at a lesser depth
      by_cases room : depth < maxBlocks
      · rw [resolve_opening event room] at shallow ⊢
        rw [resolve_opening event (Nat.lt_of_le_of_lt shallower room),
          ih (Nat.succ_le_succ shallower) (shallow_map.mp shallow)]
      · rw [resolve_tooDeep event room] at shallow
        exact absurd rfl (shallow _ rfl)
    | closing =>
      rw [resolve_closing event] at shallow ⊢
      rw [resolve_closing event, ih (Nat.sub_le_sub_right shallower 1) (shallow_map.mp shallow)]

/-- With more room for includes and inside fewer blocks, a file says the same. -/
theorem ofFile_lower {files : Files} {room more : Nat} {path : String} (roomier : room ≤ more)
    (shallower : lower ≤ depth) (shallow : Shallow (ofFile files room path depth)) :
    ofFile files more path lower = ofFile files room path depth := by
  induction room generalizing more path depth lower with
  | zero => exact absurd trivial (shallow _ rfl)
  | succ room ih =>
    obtain ⟨more, rfl⟩ := Nat.exists_eq_add_of_lt roomier
    rw [ofFile] at shallow ⊢
    rw [ofFile]
    cases read : readText files path with
    | error error => rfl
    | ok text =>
      rw [read] at shallow
      exact resolve_lower (fun target _ _ fewer => ih (Nat.le_of_succ_le_succ roomier) fewer)
        shallower shallow

/-- So a file that is included says what it says on its own, if it is not refused for its depth. -/
theorem ofFile_eq_read {files : Files} {room : Nat} {path : String} (few : room ≤ maxIncludes + 1)
    (shallow : Shallow (ofFile files room path depth)) :
    ofFile files room path depth = read files path :=
  (ofFile_lower few (Nat.zero_le depth) shallow).symm

end Document

end ServiceConfig
