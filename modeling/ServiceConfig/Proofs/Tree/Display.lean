import ServiceConfig.Proofs.Tree.Numbering

/-! # Reading a printed tree back

A printed tree escapes nothing, but there is no blank in a name. So a line can be read from its
start: the bars, the arrow, the name up to the first blank. What is left is the value with what is
put around it, whatever the value is made of. Only a newline in a value could be taken for the end
of its line.
-/

namespace ServiceConfig

/-- The bars of as many blocks. -/
def bars (depth : Nat) : List Char := (List.replicate depth ['|', ' ']).flatten

/-- The line for what a row shows, without its end. -/
def lineOf : Nat × String × Option String × Kind → List Char
  | (depth, name, value?, .leaf) => bars depth ++
    '-' :: '>' :: ' ' :: (name.toList ++ (" = '".toList ++ (value?.getD "").toList ++ ['\'']))
  | (depth, name, none, .block) => bars depth ++ '-' :: '>' :: '[' :: (name.toList ++ [']'])
  | (depth, name, some value, .block) => bars depth ++
    '-' :: '>' :: '[' :: (name.toList ++ ' ' :: value.toList ++ [']'])

/-- What a line says, if there are bars of `depth` blocks before it. -/
def readLine? (depth : Nat) : List Char → Option (Nat × String × Option String × Kind)
  | '|' :: ' ' :: rest => readLine? (depth + 1) rest
  | '-' :: '>' :: ' ' :: rest =>
    let name := rest.takeWhile (· ≠ ' ')
    let value := (rest.drop (name.length + " = '".length)).dropLast
    some (depth, .ofList name, some (.ofList value), .leaf)
  | '-' :: '>' :: '[' :: rest =>
    let name := rest.dropLast.takeWhile (· ≠ ' ')
    let value? := (rest.dropLast.drop name.length).tail?
    some (depth, .ofList name, value?.map .ofList, .block)
  | _ => none

/-- What the lines of a printed tree say, one after another. -/
def readDisplay (text : String) : List (Nat × String × Option String × Kind) :=
  (text.toList.splitOn '\n').filterMap (readLine? 0)

/-- What can be read back from its line: the name is of one piece, and so is the line. -/
structure Legible (shown : Nat × String × Option String × Kind) : Prop where
  name : ∀ char ∈ shown.2.1.toList, char ≠ ' ' ∧ char ≠ '\n'
  value : ∀ value ∈ shown.2.2.1, '\n' ∉ value.toList
  leaf : shown.2.2.2 = .leaf → shown.2.2.1.isSome

private theorem toList_line (row : Row) : row.line.toList = lineOf row.shown ++ ['\n'] := by
  obtain ⟨depth, id, entry⟩ := row
  have joined : (String.join (List.replicate depth "| ")).toList = bars depth := by
    rw [String.toList_join, List.flatMap_replicate]
    rfl
  by_cases block : entry.isBlock
  · cases valued : entry.value? <;>
      simp [Row.line, Row.shown, Entry.kind, Entry.header, lineOf, block, valued, joined]
  · simp [Row.line, Row.shown, Entry.kind, lineOf, block, joined]

private theorem toList_display (rows : List Row) : (String.join (rows.map Row.line)).toList =
    (rows.map Row.shown).flatMap fun shown => lineOf shown ++ ['\n'] := by
  rw [String.toList_join, List.flatMap_map, List.flatMap_map]
  exact List.flatMap_congr fun row _ => toList_line row

section Line

variable {depth : Nat} {name : String}

private theorem readLine?_bars (outer depth : Nat) (rest : List Char) :
    readLine? outer (bars depth ++ rest) = readLine? (outer + depth) rest := by
  induction depth generalizing outer with
  | zero => rfl
  | succ depth ih =>
    have bars_succ : bars (depth + 1) = '|' :: ' ' :: bars depth := rfl
    rw [bars_succ, List.cons_append, List.cons_append, readLine?, ih, Nat.add_right_comm,
      Nat.add_assoc]

/-- A name ends where the first blank is, or with the text. -/
private theorem takeWhile_name (unbroken : ∀ char ∈ name.toList, char ≠ ' ') {rest : List Char}
    (behind : ∀ char ∈ rest.head?, char = ' ') :
    (name.toList ++ rest).takeWhile (· ≠ ' ') = name.toList := by
  have inside : ∀ char ∈ name.toList, decide (char ≠ ' ') = true := by simpa using unbroken
  rw [List.takeWhile_append_of_pos inside]
  cases rest with
  | nil => exact List.append_nil _
  | cons char rest =>
    obtain rfl := behind char rfl
    simp

/-- A line says what it was printed for. -/
theorem readLine?_lineOf {shown : Nat × String × Option String × Kind} (legible : Legible shown) :
    readLine? 0 (lineOf shown) = some shown := by
  obtain ⟨depth, name, value?, kind⟩ := shown
  have unbroken : ∀ char ∈ name.toList, char ≠ ' ' := fun char member =>
    (legible.name char member).1
  cases kind with
  | leaf =>
    obtain ⟨value, rfl⟩ := Option.isSome_iff_exists.mp (legible.leaf rfl)
    have width : " = '".length = 4 := rfl
    rw [lineOf, readLine?_bars, readLine?, takeWhile_name unbroken (by simp)]
    simp [width]
  | block =>
    cases value? with
    | none =>
      have named : name.toList.takeWhile (· ≠ ' ') = name.toList := by
        have alone := takeWhile_name unbroken (nofun : ∀ char ∈ [].head?, char = ' ')
        rwa [List.append_nil] at alone
      rw [lineOf, readLine?_bars, readLine?, List.dropLast_concat, named]
      simp
    | some value =>
      rw [lineOf, readLine?_bars, readLine?, List.dropLast_concat,
        takeWhile_name unbroken (by simp)]
      simp

private theorem newline_notMem_lineOf {shown : Nat × String × Option String × Kind}
    (legible : Legible shown) : '\n' ∉ lineOf shown := by
  obtain ⟨depth, name, value?, kind⟩ := shown
  have name_flat : '\n' ∉ name.toList := fun member => (legible.name _ member).2 rfl
  have bars_flat : '\n' ∉ bars depth := by simp [bars]
  have value_flat : ∀ value ∈ value?, '\n' ∉ value.toList := legible.value
  cases kind <;> cases value? <;> simp_all [lineOf]

end Line

/-- From the printed lines one reads what they were printed for, and nothing else. -/
theorem readDisplay_lines {listing : List (Nat × String × Option String × Kind)}
    (legible : ∀ shown ∈ listing, Legible shown) :
    readDisplay (.ofList (listing.flatMap fun shown => lineOf shown ++ ['\n'])) = listing := by
  rw [readDisplay, String.toList_ofList]
  induction listing with
  | nil => rfl
  | cons shown listing ih =>
    obtain ⟨here, legible⟩ := List.forall_mem_cons.mp legible
    rw [List.flatMap_cons, List.append_assoc, List.singleton_append,
      List.splitOn_append_cons_self_of_not_mem (newline_notMem_lineOf here),
      List.filterMap_cons_some (readLine?_lineOf here), ih legible]

namespace Tree

open Document Grammar

variable {files others : Files} {source another : Source} {tree other : Tree}

private theorem legible_row (built : source.load files = .ok tree) {row : Row}
    (member : row ∈ tree.rows root) (flat : ∀ value ∈ row.entry.value?, '\n' ∉ value.toList) :
    Legible row.shown := by
  have regular := row_regular built member
  refine ⟨fun char inside => ⟨?_, ?_⟩, flat, fun leaf => ?_⟩
  · rintro rfl
    exact regular.name.unbroken _ inside (by decide)
  · rintro rfl
    exact regular.name.unbroken _ inside (by decide)
  · obtain ⟨-, value, valued, -⟩ := regular.leaf leaf
    exact Option.isSome_iff_exists.mpr ⟨value, valued⟩

private theorem readDisplay_display (built : source.load files = .ok tree)
    (flat : ∀ row ∈ tree.rows root, ∀ value ∈ row.entry.value?, '\n' ∉ value.toList) :
    readDisplay (tree.display root) = (tree.rows root).map Row.shown := by
  have legible : ∀ shown ∈ (tree.rows root).map Row.shown, Legible shown := by
    intro shown said
    obtain ⟨row, member, rfl⟩ := List.mem_map.mp said
    exact legible_row built member (flat row member)
  have read := readDisplay_lines legible
  rwa [← toList_display, String.ofList_toList] at read

/-- Two trees that were read, from whatever files, print the same if and only if they show the same
entries at the same depths, and what they show can be read back from the print. -/
theorem display_unambiguous (built : source.load files = .ok tree)
    (flat : ∀ row ∈ tree.rows root, ∀ value ∈ row.entry.value?, '\n' ∉ value.toList)
    (otherBuilt : another.load others = .ok other)
    (otherFlat : ∀ row ∈ other.rows root, ∀ value ∈ row.entry.value?, '\n' ∉ value.toList) :
    readDisplay (tree.display root) = (tree.rows root).map Row.shown ∧
    readDisplay (other.display root) = (other.rows root).map Row.shown ∧
    (tree.display root = other.display root ↔
      (tree.rows root).map Row.shown = (other.rows root).map Row.shown) := by
  have read := readDisplay_display built flat
  have otherRead := readDisplay_display otherBuilt otherFlat
  refine ⟨read, otherRead, fun same => ?_, fun same => ?_⟩
  · rw [← read, ← otherRead, same]
  · rw [← String.toList_inj, display, display, toList_display, toList_display, same]

/-- One configuration spelled in two ways, with values that look like arrows and bars. -/
theorem display_unambiguous_arrows :
    let files : Files := fun _ => .error .notFound
    let text := Utf8.encode "s \"| ]\" \x7b -> =';\x7d;"
    let another := Utf8.encode "s | ]\x7b-> \"='\";\x7d;"
    let listing := [(0, "s", some "| ]", .block), (1, "->", some "='", .leaf)]
    ∃ tree other, Source.load files (.text "t" text) = .ok tree ∧
      Source.load files (.text "u" another) = .ok other ∧
      (tree.rows root).map Row.shown = listing ∧ (other.rows root).map Row.shown = listing ∧
      readDisplay (tree.display root) = (tree.rows root).map Row.shown ∧
      readDisplay (other.display root) = (other.rows root).map Row.shown ∧
      (tree.display root = other.display root ↔
        (tree.rows root).map Row.shown = (other.rows root).map Row.shown) := by
  intro files text another listing
  let forest : Forest := .block "s" (some "| ]") (.leaf "->" "='" .nil) .nil
  have scripted : Script.ofText (Utf8.encode "s \"| ]\" \x7b -> =';\x7d;") =
      ⟨[⟨1, .opening "s" (some "| ]")⟩, ⟨1, .leaf "->" "='"⟩, ⟨1, .closing⟩], none⟩ := by cbv
  have respelled : Script.ofText (Utf8.encode "s | ]\x7b-> \"='\";\x7d;") =
      ⟨[⟨1, .opening "s" (some "| ]")⟩, ⟨1, .leaf "->" "='"⟩, ⟨1, .closing⟩], none⟩ := by cbv
  have built : Source.load files (.text "t" text) = .ok (ofEvents forest.events) := by
    rw [Source.load, Tree.parse, Document.parse, ofText, scripted]
    rfl
  have rebuilt : Source.load files (.text "u" another) = .ok (ofEvents forest.events) := by
    rw [Source.load, Tree.parse, Document.parse, ofText, respelled]
    rfl
  have listed : ((ofEvents forest.events).rows root).map Row.shown = listing :=
    rows_ofEvents forest
  have flat : ∀ row ∈ (ofEvents forest.events).rows root, ∀ value ∈ row.entry.value?,
      '\n' ∉ value.toList := by
    have flatListing : ∀ shown ∈ listing, ∀ value ∈ shown.2.2.1, '\n' ∉ value.toList := by decide
    intro row member
    exact flatListing row.shown (listed ▸ List.mem_map_of_mem member)
  exact ⟨_, _, built, rebuilt, listed, listed, display_unambiguous built flat rebuilt flat⟩

end Tree

end ServiceConfig
