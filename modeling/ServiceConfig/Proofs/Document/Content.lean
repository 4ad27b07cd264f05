import ServiceConfig.Proofs.Document.Resolution
import ServiceConfig.Proofs.Text.Lenient

/-! # What a document can say

Whatever bytes a text is made of, a name in it is one word, or none at all. A leaf has lost its name
if it has no value, and an empty value of a block is none. Includes are all resolved, so no leaf is
left of them, and what they are replaced by has been read from texts in the same way.
-/

namespace ServiceConfig

open Grammar Ascii

namespace Grammar

/-- The characters at which a word ends. -/
def breaks : List Char := [' ', '\t', '\n', '\x0c', '\r', '\x7b', '\x7d', ';']

/-- A name as it can be read: nothing breaks it, and it does not begin as a quoted part does. -/
structure IsWord (name : String) : Prop where
  unbroken : ∀ char ∈ name.toList, char ∉ breaks
  unquoted : name.toList.head? ≠ some '"'

private theorem isWord_empty : IsWord "" := ⟨nofun, nofun⟩

/-- A byte that stands for one of these characters is in no word. -/
private theorem isWordByte_of_mem_breaks {char : Char} (member : char ∈ breaks) :
    Utf8.IsAscii char ∧ isWordByte (UInt8.ofNat char.toNat) = false := by
  simp only [breaks, List.mem_cons, List.not_mem_nil, or_false] at member
  rcases member with rfl | rfl | rfl | rfl | rfl | rfl | rfl | rfl <;> exact ⟨by decide, rfl⟩

private theorem isWord_decode {word : List UInt8} (isWord : ∀ byte ∈ word, isWordByte byte = true)
    (unquoted : word.head? ≠ some quote) : IsWord (Utf8.decodeLenient word) := by
  constructor
  · intro char member breaking
    obtain ⟨ascii, outside⟩ := isWordByte_of_mem_breaks breaking
    obtain ⟨byte, inside, same⟩ := Utf8.mem_of_mem_decodeLenient ascii member
    rw [same, UInt8.ofNat_toNat, isWord byte inside] at outside
    cases outside
  · intro first
    obtain ⟨byte, starts, same⟩ := Utf8.head?_of_head?_decodeLenient (by decide) first
    obtain rfl : quote = byte := UInt8.toNat_inj.mp same
    exact unquoted starts

/-- What is read as a name is a word. -/
theorem Cursor.isWord_name {start valueStart : Cursor} {name : List UInt8}
    (named : start.name = .ok (name, valueStart)) : IsWord (Utf8.decodeLenient name) := by
  rw [Cursor.name] at named
  dsimp only at named
  split_ifs at named with bare _ _
  · obtain ⟨rfl, -⟩ := Prod.mk.inj (Except.ok.inj named)
    exact isWord_empty
  · obtain ⟨rfl, -⟩ := Prod.mk.inj (Except.ok.inj named)
    exact isWord_empty
  · obtain ⟨rfl, -⟩ := Prod.mk.inj (Except.ok.inj named)
    refine isWord_decode (fun _ => List.mem_takeWhile_imp) fun first => bare (.inl ?_)
    cases whole : start.rest with
    | nil =>
      rw [whole] at first
      cases first
    | cons byte rest =>
      rw [whole, List.takeWhile_cons] at first
      split at first
      · exact first
      · cases first

/-- What can be said of an entry. Without a value a leaf has no name, and a block has no empty
value. -/
def Event.Regular : Event → Prop
  | .leaf name value => IsWord name ∧ (name ≠ "" → value ≠ "")
  | .opening name value? => IsWord name ∧ value? ≠ some ""
  | .closing => True

theorem Event.regular_ofLeaf {name : String} (isWord : IsWord name) (value : String) :
    (ofLeaf name value).Regular := by
  rw [Event.ofLeaf_eq]
  split_ifs with empty
  · exact ⟨isWord_empty, fun named => absurd rfl named⟩
  · exact ⟨isWord, fun _ => empty⟩

theorem Event.regular_ofOpening {name : String} (isWord : IsWord name) (value : String) :
    (ofOpening name value).Regular := by
  rw [ofOpening]
  refine ⟨isWord, ?_⟩
  split_ifs with empty
  · exact (Option.some_ne_none _).symm
  · rintro ⟨⟩
    exact empty rfl

theorem Cursor.statement_regular {start next : Cursor} {event : Event}
    (read : start.statement = .ok (event, next)) : event.Regular := by
  unfold Cursor.statement at read
  split at read
  · cases read
  next name valueStart named =>
    have isWord := Cursor.isWord_name named
    dsimp only at read
    split at read
    · cases read
    · split_ifs at read
      · obtain ⟨rfl, -⟩ := Prod.mk.inj (Except.ok.inj read)
        exact Event.regular_ofLeaf isWord _
      · obtain ⟨rfl, -⟩ := Prod.mk.inj (Except.ok.inj read)
        exact Event.regular_ofOpening isWord _

theorem Script.scan_regular (cursor : Cursor) (lines : List Nat) :
    ∀ statement ∈ (scan cursor lines).statements, statement.event.Regular := by
  fun_induction scan cursor lines with
  | case1 | case2 | case3 | case4 | case6 => exact List.forall_mem_nil _
  | case5 cursor start rest opened outer next ended starts ih =>
    exact List.forall_mem_cons.mpr ⟨trivial, ih⟩
  | case7 cursor lines start byte rest starts opens event next read ih =>
    exact List.forall_mem_cons.mpr ⟨Cursor.statement_regular read, ih⟩

theorem Script.ofText_regular (text : List UInt8) :
    ∀ statement ∈ (ofText text).statements, statement.event.Regular := by
  rw [ofText]
  cases strip text with
  | error began => exact List.forall_mem_nil _
  | ok source => exact scan_regular ⟨source, 1⟩ []

end Grammar

namespace Document

/-- An event that is no include. -/
def IsResolved (event : Event) : Prop := ∀ target, event ≠ .leaf includeName target

variable {splice : String → Nat → Except ConfigError (List Event)} {origin : String}
  {complaint? : Option Complaint} {depth : Nat} {events : List Event}

/-- What holds of all statements but includes, and of all that includes say, holds of the result. -/
theorem forall_of_resolve {holds : Event → Prop} {statements : List Statement}
    (own : ∀ statement ∈ statements, IsResolved statement.event → holds statement.event)
    (spliced : ∀ target inner said, splice target inner = .ok said → ∀ event ∈ said, holds event)
    (resolved : resolve splice origin complaint? depth statements = .ok events) :
    ∀ event ∈ events, holds event := by
  induction statements generalizing depth events with
  | nil =>
    obtain rfl := complaint_eq_none resolved
    cases resolved
    exact List.forall_mem_nil _
  | cons statement rest ih =>
    obtain ⟨first, later⟩ := List.forall_mem_cons.mp own
    cases event : statement.event with
    | leaf name value =>
      by_cases named : name = includeName
      · rw [named] at event
        rw [resolve_include event] at resolved
        obtain ⟨said, here, resolved⟩ := bind_eq_ok.mp resolved
        obtain ⟨behind, continues, rfl⟩ := map_eq_ok.mp resolved
        exact List.forall_mem_append.mpr ⟨spliced _ _ _ here, ih later continues⟩
      · rw [resolve_leaf event named] at resolved
        obtain ⟨behind, continues, rfl⟩ := map_eq_ok.mp resolved
        rw [event] at first
        refine List.forall_mem_cons.mpr ⟨first ?_, ih later continues⟩
        exact fun target same => named (Event.leaf.inj same).1
    | opening name value? =>
      by_cases room : depth < maxBlocks
      · rw [resolve_opening event room] at resolved
        obtain ⟨behind, continues, rfl⟩ := map_eq_ok.mp resolved
        rw [event] at first
        exact List.forall_mem_cons.mpr ⟨first nofun, ih later continues⟩
      · rw [resolve_tooDeep event room] at resolved
        cases resolved
    | closing =>
      rw [resolve_closing event] at resolved
      obtain ⟨behind, continues, rfl⟩ := map_eq_ok.mp resolved
      rw [event] at first
      exact List.forall_mem_cons.mpr ⟨first nofun, ih later continues⟩

private theorem regular_of_ofText {text : List UInt8}
    (spliced : ∀ target inner said, splice target inner = .ok said →
      ∀ event ∈ said, event.Regular ∧ IsResolved event)
    (said : ofText splice origin text depth = .ok events) :
    ∀ event ∈ events, event.Regular ∧ IsResolved event := by
  refine forall_of_resolve ?_ spliced said
  exact fun statement member resolved => ⟨Script.ofText_regular text statement member, resolved⟩

theorem regular_of_ofFile {files : Files} {room : Nat} {path : String}
    (said : ofFile files room path depth = .ok events) :
    ∀ event ∈ events, event.Regular ∧ IsResolved event := by
  induction room generalizing path depth events with
  | zero => cases said
  | succ room ih =>
    rw [ofFile] at said
    obtain ⟨text, -, said⟩ := bind_eq_ok.mp said
    exact regular_of_ofText (fun _ _ _ here => ih here) said

theorem regular_of_parse {files : Files} {text : List UInt8}
    (said : parse files origin text = .ok events) :
    ∀ event ∈ events, event.Regular ∧ IsResolved event :=
  regular_of_ofText (fun _ _ _ here => regular_of_ofFile here) said

end Document

end ServiceConfig
