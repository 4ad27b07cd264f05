import ServiceConfig.Proofs.Grammar.Recognition

/-! # Resolving statements

Statements that spell out a forest are resolved on their own, and what comes after them is resolved
at the same depth: this is `resolve_append`, from which the rest follows. Without includes the
events stay as they are and only the height of the forest decides; with includes that say forests
the result is a forest again.
-/

namespace ServiceConfig

open Grammar

namespace Grammar.Forest

def append : Forest → Forest → Forest
  | .nil, more => more
  | .leaf name value rest, more => .leaf name value (rest.append more)
  | .block name value? below rest, more => .block name value? below (rest.append more)

instance : Append Forest := ⟨append⟩

@[simp]
theorem nil_append (more : Forest) : .nil ++ more = more := rfl

@[simp]
theorem leaf_append (name value : String) (rest more : Forest) :
    .leaf name value rest ++ more = .leaf name value (rest ++ more) := rfl

@[simp]
theorem block_append (name : String) (value? : Option String) (below rest more : Forest) :
    .block name value? below rest ++ more = .block name value? below (rest ++ more) := rfl

theorem events_append (forest more : Forest) :
    (forest ++ more).events = forest.events ++ more.events := by
  induction forest with
  | nil => rfl
  | leaf name value rest ih => rw [leaf_append, events, events, ih, List.cons_append]
  | block name value? below rest _ ih =>
    rw [block_append, events, ih, events_block_append]
    rfl

private theorem height_append (forest more : Forest) :
    (forest ++ more).height = max forest.height more.height := by
  induction forest with
  | nil => exact (Nat.zero_max _).symm
  | leaf name value rest ih => rw [leaf_append, height, height, ih]
  | block name value? below rest _ ih => rw [block_append, height, height, ih, Nat.max_assoc]

/-- No leaf is an include. -/
def Includeless (forest : Forest) : Prop :=
  ∀ value, Event.leaf Document.includeName value ∉ forest.events

theorem includeless_leaf {name value : String} {rest : Forest} :
    (leaf name value rest).Includeless ↔ name ≠ Document.includeName ∧ rest.Includeless := by
  constructor
  · intro includeless
    refine ⟨?_, fun other member => includeless other (List.mem_cons_of_mem _ member)⟩
    rintro rfl
    exact includeless value (List.mem_cons_self ..)
  · rintro ⟨named, includeless⟩ other member
    rcases List.mem_cons.mp member with same | later
    · exact named (Event.leaf.inj same).1.symm
    · exact includeless other later

theorem includeless_block {name : String} {value? : Option String} {below rest : Forest} :
    (block name value? below rest).Includeless ↔ below.Includeless ∧ rest.Includeless := by
  simp [Includeless, events, forall_and]

end Grammar.Forest

namespace Document

variable {splice : String → Nat → Except ConfigError (List Event)} {origin : String}
  {complaint? : Option Complaint} {depth : Nat} {statement : Statement}
  {front back rest : List Statement}

theorem map_eq_ok {α β : Type} {result : Except ConfigError α} {convert : α → β} {value : β} :
    result.map convert = .ok value ↔ ∃ source, result = .ok source ∧ convert source = value := by
  cases result with
  | error => exact ⟨nofun, nofun⟩
  | ok source => exact ⟨fun same => ⟨source, rfl, Except.ok.inj same⟩, fun ⟨_, same, converted⟩ =>
      congrArg Except.ok (Except.ok.inj same ▸ converted)⟩

theorem bind_eq_ok {α β : Type} {result : Except ConfigError α}
    {next : α → Except ConfigError β} {value : β} :
    result.bind next = .ok value ↔ ∃ source, result = .ok source ∧ next source = .ok value := by
  cases result with
  | error => exact ⟨nofun, nofun⟩
  | ok source => exact ⟨fun same => ⟨source, rfl, same⟩, fun ⟨_, same, continued⟩ =>
      (Except.ok.inj same ▸ continued : next source = .ok value)⟩

theorem map_map {ε α β γ : Type} (result : Except ε α) (first : α → β) (second : β → γ) :
    (result.map first).map second = result.map (second <| first ·) := by
  cases result <;> rfl

theorem map_mapError {ε δ α β : Type} (result : Except ε α) (convert : α → β)
    (relabel : ε → δ) :
    (result.map convert).mapError relabel = (result.mapError relabel).map convert := by
  cases result <;> rfl

theorem resolve_include {target : String} (event : statement.event = .leaf includeName target) :
    resolve splice origin complaint? depth (statement :: rest) =
      (splice target depth).bind fun spliced =>
        (resolve splice origin complaint? depth rest).map (spliced ++ ·) := by
  rw [resolve, event]
  dsimp only
  rw [if_pos rfl]
  cases splice target depth with
  | error => rfl
  | ok => cases resolve splice origin complaint? depth rest <;> rfl

theorem resolve_leaf {name value : String} (event : statement.event = .leaf name value)
    (named : name ≠ includeName) :
    resolve splice origin complaint? depth (statement :: rest) =
      (resolve splice origin complaint? depth rest).map (.leaf name value :: ·) := by
  rw [resolve, event]
  dsimp only
  rw [if_neg named]
  cases resolve splice origin complaint? depth rest <;> rfl

theorem resolve_opening {name : String} {value? : Option String}
    (event : statement.event = .opening name value?) (room : depth < maxBlocks) :
    resolve splice origin complaint? depth (statement :: rest) =
      (resolve splice origin complaint? (depth + 1) rest).map (.opening name value? :: ·) := by
  rw [resolve, event]
  dsimp only
  rw [if_pos room]
  cases resolve splice origin complaint? (depth + 1) rest <;> rfl

theorem resolve_tooDeep {name : String} {value? : Option String}
    (event : statement.event = .opening name value?) (full : ¬ depth < maxBlocks) :
    resolve splice origin complaint? depth (statement :: rest) =
      .error (.text origin ⟨statement.line, .nestedTooDeeply⟩) := by
  rw [resolve, event]
  dsimp only
  rw [if_neg full]

theorem resolve_closing (event : statement.event = .closing) :
    resolve splice origin complaint? depth (statement :: rest) =
      (resolve splice origin complaint? (depth - 1) rest).map (.closing :: ·) := by
  rw [resolve, event]
  cases resolve splice origin complaint? (depth - 1) rest <;> rfl

/-- Where statements can be resolved, so can all but the first. -/
theorem resolve_rest {events : List Event}
    (resolved : resolve splice origin complaint? depth (statement :: rest) = .ok events) :
    ∃ inner later, resolve splice origin complaint? inner rest = .ok later := by
  cases event : statement.event with
  | leaf name value =>
    by_cases named : name = includeName
    · rw [named] at event
      rw [resolve_include event] at resolved
      obtain ⟨_, -, resolved⟩ := bind_eq_ok.mp resolved
      obtain ⟨later, resolved, -⟩ := map_eq_ok.mp resolved
      exact ⟨depth, later, resolved⟩
    · rw [resolve_leaf event named] at resolved
      obtain ⟨later, resolved, -⟩ := map_eq_ok.mp resolved
      exact ⟨depth, later, resolved⟩
  | opening name value? =>
    by_cases room : depth < maxBlocks
    · rw [resolve_opening event room] at resolved
      obtain ⟨later, resolved, -⟩ := map_eq_ok.mp resolved
      exact ⟨depth + 1, later, resolved⟩
    · rw [resolve_tooDeep event room] at resolved
      cases resolved
  | closing =>
    rw [resolve_closing event] at resolved
    obtain ⟨later, resolved, -⟩ := map_eq_ok.mp resolved
    exact ⟨depth - 1, later, resolved⟩

/-- A script with a complaint cannot be resolved. -/
theorem complaint_eq_none {statements : List Statement} {events : List Event}
    (resolved : resolve splice origin complaint? depth statements = .ok events) :
    complaint? = none := by
  induction statements generalizing depth events with
  | nil =>
    cases complaint? with
    | none => rfl
    | some => cases resolved
  | cons statement rest ih =>
    obtain ⟨_, _, resolved⟩ := resolve_rest resolved
    exact ih resolved

/-- The statements of a block, of what is below it and of what comes after it. -/
theorem exists_of_block {name : String} {value? : Option String} {below more : Forest}
    (said : front.map Statement.event = (Forest.block name value? below more).events) :
    ∃ first inner last back, front = first :: (inner ++ last :: back) ∧
      first.event = .opening name value? ∧ inner.map Statement.event = below.events ∧
      last.event = .closing ∧ back.map Statement.event = more.events := by
  obtain ⟨first, front, rfl, opening, said⟩ := List.map_eq_cons_iff.mp said
  obtain ⟨inner, front, rfl, saidBelow, said⟩ := List.map_eq_append_iff.mp said
  obtain ⟨last, back, rfl, closing, said⟩ := List.map_eq_cons_iff.mp said
  exact ⟨first, inner, last, back, rfl, opening, saidBelow, closing, said⟩

theorem resolve_append {forest : Forest} (said : front.map Statement.event = forest.events) :
    resolve splice origin complaint? depth (front ++ back) =
      (resolve splice origin none depth front).bind fun events =>
        (resolve splice origin complaint? depth back).map (events ++ ·) := by
  induction forest generalizing complaint? depth front back with
  | nil =>
    obtain rfl := List.map_eq_nil_iff.mp said
    rw [List.nil_append]
    cases resolve splice origin complaint? depth back <;> rfl
  | leaf name value rest ih =>
    obtain ⟨first, front, rfl, event, said⟩ := List.map_eq_cons_iff.mp said
    rw [List.cons_append]
    by_cases named : name = includeName
    · rw [named] at event
      rw [resolve_include event, resolve_include event, ih said]
      cases splice value depth with
      | error => rfl
      | ok spliced =>
        cases resolve splice origin none depth front with
        | error => rfl
        | ok events =>
          cases resolve splice origin complaint? depth back with
          | error => rfl
          | ok later => exact congrArg Except.ok (List.append_assoc ..).symm
    · rw [resolve_leaf event named, resolve_leaf event named, ih said]
      cases resolve splice origin none depth front with
      | error => rfl
      | ok events => cases resolve splice origin complaint? depth back <;> rfl
  | block name value? below rest ihBelow ih =>
    obtain ⟨first, inner, last, front, rfl, event, saidBelow, closing, said⟩ := exists_of_block said
    rw [List.cons_append, List.append_assoc, List.cons_append]
    by_cases room : depth < maxBlocks
    · rw [resolve_opening event room, resolve_opening event room, ihBelow saidBelow,
        ihBelow saidBelow, resolve_closing closing, resolve_closing closing, Nat.add_sub_cancel,
        ih said]
      cases resolve splice origin none (depth + 1) inner with
      | error => rfl
      | ok inside =>
        cases resolve splice origin none depth front with
        | error => rfl
        | ok events =>
          cases resolve splice origin complaint? depth back with
          | error => rfl
          | ok later => exact congrArg Except.ok (by simp)
    · rw [resolve_tooDeep event room, resolve_tooDeep event room]
      rfl

/-- A block is resolved one level deeper, and what comes after it where the block began. -/
theorem resolve_block {first last : Statement} {inner : List Statement} {name : String}
    {value? : Option String} {below : Forest} (opening : first.event = .opening name value?)
    (saidBelow : inner.map Statement.event = below.events) (closing : last.event = .closing)
    (room : depth < maxBlocks) :
    resolve splice origin complaint? depth (first :: (inner ++ last :: back)) =
      (resolve splice origin none (depth + 1) inner).bind fun inside =>
        (resolve splice origin complaint? depth back).map fun later =>
          .opening name value? :: (inside ++ .closing :: later) := by
  rw [resolve_opening opening room, resolve_append saidBelow, resolve_closing closing,
    Nat.add_sub_cancel]
  cases resolve splice origin none (depth + 1) inner with
  | error => rfl
  | ok inside => cases resolve splice origin complaint? depth back <;> rfl

/-- Without includes the events stay as they are, if no block is too deep. -/
theorem resolve_forest {forest : Forest} (includeless : forest.Includeless)
    (nested : depth + forest.height ≤ maxBlocks)
    (said : front.map Statement.event = forest.events) :
    resolve splice origin none depth front = .ok forest.events := by
  induction forest generalizing depth front with
  | nil =>
    obtain rfl := List.map_eq_nil_iff.mp said
    rfl
  | leaf name value rest ih =>
    obtain ⟨first, front, rfl, event, said⟩ := List.map_eq_cons_iff.mp said
    obtain ⟨named, includeless⟩ := Forest.includeless_leaf.mp includeless
    rw [resolve_leaf event named, ih includeless nested said]
    rfl
  | block name value? below rest ihBelow ih =>
    obtain ⟨first, inner, last, front, rfl, event, saidBelow, closing, said⟩ := exists_of_block said
    obtain ⟨includelessBelow, includeless⟩ := Forest.includeless_block.mp includeless
    rw [Forest.height] at nested
    rw [resolve_block event saidBelow closing (by omega),
      ihBelow includelessBelow (by omega) saidBelow, ih includeless (by omega) said]
    rfl

/-- What can be resolved without includes is not nested too deeply. -/
theorem height_le_of_resolve {forest : Forest} (includeless : forest.Includeless)
    (inside : depth ≤ maxBlocks) (said : front.map Statement.event = forest.events)
    {events : List Event} (resolved : resolve splice origin none depth front = .ok events) :
    depth + forest.height ≤ maxBlocks := by
  induction forest generalizing depth front events with
  | nil => exact inside
  | leaf name value rest ih =>
    obtain ⟨first, front, rfl, event, said⟩ := List.map_eq_cons_iff.mp said
    obtain ⟨named, includeless⟩ := Forest.includeless_leaf.mp includeless
    rw [resolve_leaf event named] at resolved
    obtain ⟨later, resolved, -⟩ := map_eq_ok.mp resolved
    exact ih includeless inside said resolved
  | block name value? below rest ihBelow ih =>
    obtain ⟨first, inner, last, front, rfl, event, saidBelow, closing, said⟩ := exists_of_block said
    obtain ⟨includelessBelow, includeless⟩ := Forest.includeless_block.mp includeless
    by_cases room : depth < maxBlocks
    · rw [resolve_block event saidBelow closing room] at resolved
      obtain ⟨eventsBelow, resolvedBelow, behind⟩ := bind_eq_ok.mp resolved
      obtain ⟨later, resolvedLater, -⟩ := map_eq_ok.mp behind
      have below := ihBelow includelessBelow room saidBelow resolvedBelow
      have behind := ih includeless inside said resolvedLater
      rw [Forest.height]
      omega
    · rw [resolve_tooDeep event room] at resolved
      cases resolved

/-- Events that spell out a forest, with blocks that fit inside so many others. -/
def Fits (depth : Nat) (events : List Event) : Prop :=
  ∃ forest : Forest, forest.events = events ∧ depth + forest.height ≤ maxBlocks

/-- If includes say forests that fit where they stand, so does what includes them. -/
theorem fits_of_resolve {forest : Forest}
    (spliced : ∀ target inner events, inner ≤ maxBlocks → splice target inner = .ok events →
      Fits inner events)
    (inside : depth ≤ maxBlocks) (said : front.map Statement.event = forest.events)
    {events : List Event} (resolved : resolve splice origin none depth front = .ok events) :
    Fits depth events := by
  induction forest generalizing depth front events with
  | nil =>
    obtain rfl := List.map_eq_nil_iff.mp said
    exact ⟨.nil, Except.ok.inj resolved, inside⟩
  | leaf name value rest ih =>
    obtain ⟨first, front, rfl, event, said⟩ := List.map_eq_cons_iff.mp said
    by_cases named : name = includeName
    · rw [named] at event
      rw [resolve_include event] at resolved
      obtain ⟨included, here, whole⟩ := bind_eq_ok.mp resolved
      obtain ⟨later, resolvedLater, rfl⟩ := map_eq_ok.mp whole
      obtain ⟨forest, rfl, low⟩ := spliced _ _ _ inside here
      obtain ⟨more, rfl, lowMore⟩ := ih inside said resolvedLater
      refine ⟨forest ++ more, Forest.events_append forest more, ?_⟩
      rw [Forest.height_append]
      omega
    · rw [resolve_leaf event named] at resolved
      obtain ⟨later, resolvedLater, rfl⟩ := map_eq_ok.mp resolved
      obtain ⟨more, rfl, low⟩ := ih inside said resolvedLater
      exact ⟨.leaf name value more, rfl, low⟩
  | block name value? below rest ihBelow ih =>
    obtain ⟨first, inner, last, front, rfl, event, saidBelow, closing, said⟩ := exists_of_block said
    by_cases room : depth < maxBlocks
    · rw [resolve_block event saidBelow closing room] at resolved
      obtain ⟨eventsBelow, resolvedBelow, behind⟩ := bind_eq_ok.mp resolved
      obtain ⟨later, resolvedLater, rfl⟩ := map_eq_ok.mp behind
      obtain ⟨below, rfl, lowBelow⟩ := ihBelow room saidBelow resolvedBelow
      obtain ⟨more, rfl, low⟩ := ih inside said resolvedLater
      refine ⟨.block name value? below more, rfl, ?_⟩
      rw [Forest.height]
      omega
    · rw [resolve_tooDeep event room] at resolved
      cases resolved

private theorem fits_ofText {text : List UInt8}
    (spliced : ∀ target inner events, inner ≤ maxBlocks → splice target inner = .ok events →
      Fits inner events)
    (inside : depth ≤ maxBlocks) {events : List Event}
    (said : ofText splice origin text depth = .ok events) : Fits depth events := by
  rw [ofText] at said
  have accepted := complaint_eq_none said
  obtain ⟨-, forest, -, -, front⟩ := Script.exists_reads_ofText accepted
  rw [accepted] at said
  exact fits_of_resolve spliced inside front said

/-- Whatever a file says is a forest that fits where the file is included. -/
theorem fits_ofFile {files : Files} {room : Nat} {path : String} (inside : depth ≤ maxBlocks)
    {events : List Event} (said : ofFile files room path depth = .ok events) :
    Fits depth events := by
  induction room generalizing path depth events with
  | zero => cases said
  | succ room ih =>
    rw [ofFile] at said
    obtain ⟨text, -, said⟩ := bind_eq_ok.mp said
    exact fits_ofText (fun _ _ _ deeper => ih deeper) inside said

theorem fits_parse {files : Files} {text : List UInt8} {events : List Event}
    (said : parse files origin text = .ok events) : Fits 0 events :=
  fits_ofText (fun _ _ _ inside => fits_ofFile inside) (Nat.zero_le _) said

/-- What a script comes to, with its own complaint kept apart from the failures of its includes. -/
def outcome (splice : String → Nat → Except ConfigError (List Event))
    (complaint? : Option Complaint) (depth : Nat) :
    List Statement → Except (Complaint ⊕ ConfigError) (List Event)
  | [] =>
    match complaint? with
    | none => .ok []
    | some complaint => .error (.inl complaint)
  | statement :: rest =>
    match statement.event with
    | .leaf name value =>
      if name = includeName then
        match splice value depth with
        | .error error => .error (.inr error)
        | .ok spliced => (outcome splice complaint? depth rest).map (spliced ++ ·)
      else (outcome splice complaint? depth rest).map (.leaf name value :: ·)
    | .opening name value? =>
      if depth < maxBlocks then
        (outcome splice complaint? (depth + 1) rest).map (.opening name value? :: ·)
      else .error (.inl ⟨statement.line, .nestedTooDeeply⟩)
    | .closing => (outcome splice complaint? (depth - 1) rest).map (.closing :: ·)

/-- The error that is reported for a text of this name. -/
def blame (origin : String) : Complaint ⊕ ConfigError → ConfigError
  | .inl complaint => .text origin complaint
  | .inr error => error

/-- The name of a text matters to its own complaint only. -/
theorem resolve_eq_outcome (statements : List Statement) :
    resolve splice origin complaint? depth statements =
      (outcome splice complaint? depth statements).mapError (blame origin) := by
  induction statements generalizing depth with
  | nil => cases complaint? <;> rfl
  | cons statement rest ih =>
    rw [outcome]
    cases event : statement.event with
    | leaf name value =>
      by_cases named : name = includeName
      · rw [named] at event
        simp only [resolve_include event, named, if_true, ih]
        cases splice value depth with
        | error error => rfl
        | ok spliced => exact (map_mapError ..).symm
      · simp only [resolve_leaf event named, named, if_false, ih, map_mapError]
    | opening name value? =>
      by_cases room : depth < maxBlocks
      · simp only [resolve_opening event room, room, if_true, ih, map_mapError]
      · simp only [resolve_tooDeep event room, room, if_false]
        rfl
    | closing => simp only [resolve_closing event, ih, map_mapError]

def outcomeOf (splice : String → Nat → Except ConfigError (List Event)) (text : List UInt8)
    (depth : Nat) : Except (Complaint ⊕ ConfigError) (List Event) :=
  outcome splice (Script.ofText text).complaint? depth (Script.ofText text).statements

theorem ofText_eq_outcomeOf (text : List UInt8) :
    ofText splice origin text depth = (outcomeOf splice text depth).mapError (blame origin) :=
  resolve_eq_outcome _

/-- A complaint is the text's own if it is reported under whatever name the text has. -/
theorem own_iff {text : List UInt8} {complaint : Complaint} :
    (∀ origin, ofText splice origin text depth = .error (.text origin complaint)) ↔
      outcomeOf splice text depth = .error (.inl complaint) := by
  simp only [ofText_eq_outcomeOf]
  constructor
  · intro blamed
    cases outcome : outcomeOf splice text depth with
    | ok events =>
      rw [outcome] at blamed
      cases blamed ""
    | error failure =>
      rw [outcome] at blamed
      cases failure with
      | inl own =>
        obtain ⟨-, same⟩ := ConfigError.text.inj (Except.error.inj (blamed ""))
        rw [same]
      | inr error =>
        -- the error of an include does not know the name of the text
        have first : error = .text "" complaint := Except.error.inj (blamed "")
        have other : error = .text "other" complaint := Except.error.inj (blamed "other")
        obtain ⟨same, -⟩ := ConfigError.text.inj (first.symm.trans other)
        exact absurd same (by decide)
  · intro own origin
    rw [own]
    rfl

end Document

end ServiceConfig
