import Mathlib.Data.List.Basic
import Mathlib.Data.List.TakeWhile
import Mathlib.Tactic.SplitIfs
import ServiceConfig.Path

/-! # Paths below a directory

The components of a path that are empty or `.` lead nowhere, and a path may have any number of them.
The parent of a path and a target joined to it only depend on how the path ends, so a target that is
looked up next to a file below a directory is looked up below this directory again, at the place
where it would be looked up without the directory in front.
-/

namespace ServiceConfig.Path

/-- The components of a path, an empty one for each separator that separates nothing. -/
def parts (path : List Char) : List (List Char) := path.splitOnP (· == separator)

/-- The components that lead nowhere. -/
def idle : List (List Char) := [[], ['.']]

/-- The components of a path that lead somewhere. -/
def names (path : String) : List (List Char) := (parts path.toList).filter (· ∉ idle)

/-- A relative path without a `..` component, which leads to places below where it starts. -/
structure IsBelow (path : String) : Prop where
  relative : isAbsolute path = false
  descends : ['.', '.'] ∉ parts path.toList

/-- A path that ends in a component that leads somewhere, as the name of a directory does. -/
def EndsInName (path : String) : Prop :=
  ∃ name, (parts path.toList).getLast? = some name ∧ name ∉ idle

private theorem parts_append (front back : List Char) :
    parts (front ++ '/' :: back) = parts front ++ parts back :=
  List.splitOnP_append_cons front back rfl

private theorem toList_append_slash (directory path : String) :
    (directory ++ "/" ++ path).toList = directory.toList ++ '/' :: path.toList := by
  simp

/-- A path as it is seen from the current directory, and with this directory in front. -/
private theorem here_append (path : String) : "." ++ "/" ++ path = "./" ++ path :=
  congrArg (· ++ path) (by decide : "." ++ "/" = "./")

theorem names_append (directory path : String) :
    names (directory ++ "/" ++ path) = names directory ++ names path := by
  rw [names, toList_append_slash, parts_append, List.filter_append]
  rfl

theorem names_here (path : String) : names ("./" ++ path) = names path := by
  rw [← here_append, names_append]
  rfl

private theorem dotted_of_append {front back more : List Char} (nonempty : front ≠ [])
    (same : front ++ '/' :: back = '.' :: '/' :: more) :
    front = ['.'] ∨ ∃ rest, front = '.' :: '/' :: rest := by
  match front with
  | [first] =>
    cases same
    exact .inl rfl
  | first :: next :: rest =>
    cases same
    exact .inr ⟨rest, rfl⟩

private theorem dropIdle_append (front back : List Char) :
    dropIdle (front ++ '/' :: back) =
      if dropIdle front = [] then dropIdle back else dropIdle front ++ '/' :: back := by
  fun_induction dropIdle front with
  | case1 rest ih => rw [List.cons_append, dropIdle, ih]
  | case2 rest ih => rw [List.cons_append, List.cons_append, dropIdle, ih]
  | case3 => rfl
  | case4 other notSlash notDotted notDot =>
    by_cases empty : other = []
    · rw [empty]
      rfl
    · have kept : dropIdle (other ++ '/' :: back) = other ++ '/' :: back := by
        obtain ⟨first, rest, rfl⟩ := List.exists_cons_of_ne_nil empty
        rw [dropIdle]
        · rintro more ⟨⟩
          exact notSlash rest rfl
        · intro more same
          exact (dotted_of_append empty same).elim notDot fun ⟨rest, same⟩ => notDotted rest same
        · simp
      rw [kept, if_neg empty]

/-- A component that leads somewhere is kept. -/
private theorem dropIdle_name {name : List Char} (slashless : '/' ∉ name) (leads : name ∉ idle) :
    dropIdle name.reverse = name.reverse := by
  rw [dropIdle]
  · intro rest same
    exact slashless (List.mem_reverse.mp (same ▸ List.mem_cons_self ..))
  · intro rest same
    exact slashless (List.mem_reverse.mp (same ▸ List.mem_cons_of_mem _ (List.mem_cons_self ..)))
  · intro same
    exact leads (by simpa [idle] using .inr (List.reverse_eq_iff.mp same))

private theorem head?_dropIdle (reversed : List Char) : (dropIdle reversed).head? ≠ some '/' := by
  fun_induction dropIdle reversed with
  | case1 rest ih => exact ih
  | case2 rest ih => exact ih
  | case3 => nofun
  | case4 other notSlash notDotted notDot =>
    cases other with
    | nil => nofun
    | cons first rest =>
      rintro ⟨⟩
      exact notSlash rest rfl

/-- What is dropped is nothing, or everything, or ends with a separator. -/
private theorem dropIdle_suffix (reversed : List Char) :
    dropIdle reversed = reversed ∨ dropIdle reversed = [] ∨
      ∃ front, reversed = front ++ '/' :: dropIdle reversed := by
  have extend {rest : List Char} (dropped : List Char)
      (ih : dropIdle rest = rest ∨ dropIdle rest = [] ∨
        ∃ front, rest = front ++ '/' :: dropIdle rest) :
      dropIdle rest = [] ∨ ∃ front, dropped ++ '/' :: rest = front ++ '/' :: dropIdle rest := by
    rcases ih with whole | none | ⟨front, split⟩
    · exact .inr ⟨dropped, by rw [whole]⟩
    · exact .inl none
    · exact .inr ⟨dropped ++ '/' :: front, by rw [List.append_assoc, List.cons_append, ← split]⟩
  fun_induction dropIdle reversed with
  | case1 rest ih => exact .inr (extend [] ih)
  | case2 rest ih => exact .inr (extend ['.'] ih)
  | case3 => exact .inr (.inl rfl)
  | case4 => exact .inl rfl

/-- Where everything is dropped, no component leads anywhere. -/
theorem names_eq_nil {path : String} (dropped : dropIdle path.toList.reverse = []) :
    names path = [] := by
  have idles (reversed : List Char) (dropped : dropIdle reversed = []) :
      ∀ part ∈ parts reversed.reverse, part ∈ idle := by
    fun_induction dropIdle reversed with
    | case1 rest ih =>
      rw [List.reverse_cons, parts_append]
      exact List.forall_mem_append.mpr ⟨ih dropped, by decide⟩
    | case2 rest ih =>
      rw [List.reverse_cons, List.reverse_cons, List.append_assoc, List.singleton_append,
        parts_append]
      exact List.forall_mem_append.mpr ⟨ih dropped, by decide⟩
    | case3 => decide
    | case4 =>
      rw [dropped]
      decide
  have all := idles _ dropped
  rw [List.reverse_reverse] at all
  exact List.filter_eq_nil_iff.mpr fun part member => by simpa using all part member

/-- What is left of a reversed path without its last component and the idle ones. -/
def base (reversed : List Char) : List Char := dropIdle (lastComponent (dropIdle reversed)).2

/-- The directory part of a path as it is written, empty if the path is a name. -/
def stem (path : String) : String := String.ofList (base path.toList.reverse).reverse

private theorem ne_separator {component : List Char} (slashless : '/' ∉ component) :
    ∀ char ∈ component, decide (char ≠ separator) = true := by
  rintro char member
  refine decide_eq_true ?_
  rintro rfl
  exact slashless member

private theorem lastComponent_alone {component : List Char} (slashless : '/' ∉ component) :
    lastComponent component = (component, []) := by
  have passes := ne_separator slashless
  rw [lastComponent, List.takeWhile_eq_self_iff.mpr passes, List.dropWhile_eq_nil_iff.mpr passes]
  rfl

private theorem lastComponent_slash {component : List Char} (slashless : '/' ∉ component)
    (rest : List Char) : lastComponent (component ++ '/' :: rest) = (component, rest) := by
  have passes := ne_separator slashless
  rw [lastComponent, List.takeWhile_append_of_pos passes, List.dropWhile_append_of_pos passes]
  simp [separator]

/-- The directory part behind others is the same as without them. -/
private theorem base_append {front : List Char} (named : dropIdle front ≠ []) (back : List Char) :
    base (front ++ '/' :: back) =
      if base front = [] then dropIdle back else base front ++ '/' :: back := by
  rw [base, dropIdle_append, if_neg named, base]
  by_cases within : '/' ∈ dropIdle front
  · obtain ⟨component, rest, split, slashless⟩ := List.eq_append_cons_of_mem within
    rw [split, List.append_assoc, List.cons_append, lastComponent_slash slashless,
      lastComponent_slash slashless, dropIdle_append]
  · rw [lastComponent_slash within, lastComponent_alone within]
    rfl

/-- The directory part is what a path begins with, up to a separator. -/
theorem exists_base {reversed : List Char} (nested : base reversed ≠ []) :
    ∃ front, reversed = front ++ '/' :: base reversed := by
  have inside : ∃ front, dropIdle reversed = front ++ '/' :: base reversed := by
    by_cases within : '/' ∈ dropIdle reversed
    · obtain ⟨component, rest, split, slashless⟩ := List.eq_append_cons_of_mem within
      have same : base reversed = dropIdle rest := by
        rw [base, split, lastComponent_slash slashless]
      rw [same] at nested ⊢
      rcases dropIdle_suffix rest with whole | none | ⟨front, behind⟩
      · exact ⟨component, by rw [split, whole]⟩
      · exact absurd none nested
      · refine ⟨component ++ '/' :: front, ?_⟩
        rw [split, List.append_assoc, List.cons_append, ← behind]
    · rw [base, lastComponent_alone within] at nested
      exact absurd rfl nested
  obtain ⟨front, split⟩ := inside
  rcases dropIdle_suffix reversed with whole | none | ⟨before, dropped⟩
  · exact ⟨front, whole.symm.trans split⟩
  · rw [none] at split
    cases front <;> cases split
  · refine ⟨before ++ '/' :: front, ?_⟩
    rw [List.append_assoc, List.cons_append, ← split, ← dropped]

private theorem splitAnchor_join (path : List Char) :
    (splitAnchor path).1 ++ (splitAnchor path).2 = path := by
  fun_cases splitAnchor path <;> rfl

private theorem parent?_of_named {path : String}
    (named : dropIdle (splitAnchor path.toList).2.reverse ≠ []) :
    parent? path = some (String.ofList
      ((splitAnchor path.toList).1 ++ (base (splitAnchor path.toList).2.reverse).reverse)) := by
  rw [parent?]
  dsimp only
  split
  next none => exact absurd none named
  next => rfl

/-- A text in front of which nothing is dropped: the current directory, or the name of another. -/
structure IsPlace (directory : String) : Prop where
  nonempty : directory ≠ ""
  kept : dropIdle (splitAnchor directory.toList).2.reverse =
    (splitAnchor directory.toList).2.reverse
  unslashed : directory.toList.getLast? ≠ some '/'

private theorem splitAnchor_append {directory : List Char} (nonempty : directory ≠ [])
    (path : List Char) :
    splitAnchor (directory ++ '/' :: path) =
      ((splitAnchor directory).1, (splitAnchor directory).2 ++ '/' :: path) := by
  fun_cases splitAnchor directory with
  | case1 body => rfl
  | case2 => rfl
  | case3 body => rfl
  | case4 _ notSlash notDot notDotted =>
    obtain ⟨first, rest, rfl⟩ := List.exists_cons_of_ne_nil nonempty
    rw [splitAnchor]
    · rintro body ⟨⟩
      exact notSlash rest rfl
    · simp
    · intro body same
      exact (dotted_of_append nonempty same).elim notDot fun ⟨rest, same⟩ => notDotted rest same

private theorem isPlace_here : IsPlace "." := ⟨by decide, by decide, by decide⟩

/-- What ends in a name is the name, or it has a separator in front of the name. -/
theorem EndsInName.split {path : String} (named : EndsInName path) :
    ∃ name, '/' ∉ name ∧ name ∉ idle ∧
      (path.toList = name ∨ ∃ front, path.toList = front ++ '/' :: name) := by
  obtain ⟨name, last, leads⟩ := named
  have alone {component : List Char} (slashless : '/' ∉ component) :
      parts component = [component] := by
    refine List.splitOnP_eq_singleton fun char member => ?_
    exact beq_false_of_ne (of_decide_eq_true (ne_separator slashless char member))
  by_cases within : '/' ∈ path.toList.reverse
  · obtain ⟨component, rest, split, slashless⟩ := List.eq_append_cons_of_mem within
    have slashless : '/' ∉ component.reverse := fun member => slashless (List.mem_reverse.mp member)
    have split : path.toList = rest.reverse ++ '/' :: component.reverse := by
      rw [← List.reverse_reverse path.toList, split]
      simp
    rw [split, parts_append, alone slashless, List.getLast?_concat] at last
    obtain rfl := Option.some.inj last
    exact ⟨_, slashless, leads, .inr ⟨_, split⟩⟩
  · have slashless : '/' ∉ path.toList := fun member => within (List.mem_reverse.mpr member)
    rw [alone slashless] at last
    obtain rfl := Option.some.inj last
    exact ⟨_, slashless, leads, .inl rfl⟩

theorem isPlace_of_endsInName {directory : String} (named : EndsInName directory) :
    IsPlace directory := by
  obtain ⟨name, slashless, leads, split⟩ := named.split
  have nonempty : name ≠ [] := fun empty => leads (empty ▸ List.mem_cons_self ..)
  have unslashed : name.getLast? ≠ some '/' := fun last => slashless (List.mem_of_getLast? last)
  have kept := dropIdle_name slashless leads
  -- also behind its first character, if that is no part of a name, the text ends in the name
  have body : (splitAnchor directory.toList).2 = name ∨
      ∃ front, (splitAnchor directory.toList).2 = front ++ '/' :: name := by
    rcases split with whole | ⟨front, split⟩
    · rw [whole]
      fun_cases splitAnchor name with
      | case1 body => exact absurd (List.mem_cons_self ..) slashless
      | case2 => exact absurd (by decide) leads
      | case3 body => exact absurd (by simp) slashless
      | case4 => exact .inl rfl
    · rw [split]
      by_cases empty : front = []
      · rw [empty]
        exact .inl rfl
      · rw [splitAnchor_append empty]
        exact .inr ⟨_, rfl⟩
  refine ⟨?_, ?_, ?_⟩
  · rintro rfl
    rcases split with whole | ⟨front, split⟩
    · exact nonempty whole.symm
    · cases front <;> cases split
  · rcases body with whole | ⟨front, split⟩
    · rw [whole, kept]
    · rw [split, List.reverse_append, List.reverse_cons, List.append_assoc, List.singleton_append,
        dropIdle_append, kept, if_neg (List.reverse_ne_nil_iff.mpr nonempty)]
  · rcases split with whole | ⟨front, split⟩
    · rwa [whole]
    · rwa [split, List.append_cons, List.getLast?_append_of_ne_nil _ nonempty]

/-- A target as it is seen from a directory part. -/
def under (stem target : String) : String := if stem = "" then target else stem ++ "/" ++ target

private theorem stem_eq_empty {path : String} : stem path = "" ↔ base path.toList.reverse = [] := by
  rw [stem, ← String.toList_inj, String.toList_ofList]
  simp

private theorem toList_stem (path : String) :
    (stem path).toList = (base path.toList.reverse).reverse :=
  String.toList_ofList

private theorem stem_unslashed {path : String} : (stem path).toList.getLast? ≠ some '/' := by
  rw [toList_stem, List.getLast?_reverse]
  exact head?_dropIdle _

/-- The parent of a path below a place. -/
theorem parent?_place {directory path : String} (place : IsPlace directory)
    (named : dropIdle path.toList.reverse ≠ []) :
    parent? (directory ++ "/" ++ path) =
      some (if stem path = "" then directory else directory ++ "/" ++ stem path) := by
  have nonempty : directory.toList ≠ [] := by simpa using place.nonempty
  have split : splitAnchor (directory ++ "/" ++ path).toList =
      ((splitAnchor directory.toList).1,
        (splitAnchor directory.toList).2 ++ '/' :: path.toList) := by
    rw [toList_append_slash, splitAnchor_append nonempty]
  have reversed : ((splitAnchor directory.toList).2 ++ '/' :: path.toList).reverse =
      path.toList.reverse ++ '/' :: (splitAnchor directory.toList).2.reverse := by simp
  have namedToo : dropIdle (splitAnchor (directory ++ "/" ++ path).toList).2.reverse ≠ [] := by
    rw [split, reversed, dropIdle_append, if_neg named]
    simp
  rw [parent?_of_named namedToo, split, reversed, base_append named, place.kept]
  refine congrArg some ?_
  by_cases flat : stem path = ""
  · rw [if_pos flat, if_pos (stem_eq_empty.mp flat), List.reverse_reverse, splitAnchor_join,
      String.ofList_toList]
  · rw [if_neg flat, if_neg fun empty => flat (stem_eq_empty.mpr empty), ← String.toList_inj,
      String.toList_ofList, toList_append_slash, toList_stem, List.reverse_append,
      List.reverse_cons, List.reverse_reverse, List.append_assoc, List.singleton_append,
      ← List.append_assoc, splitAnchor_join]

/-- The parent of a relative path is its directory part; the current directory may go without
saying. -/
theorem parent?_relative {path : String} (relative : isAbsolute path = false)
    (named : dropIdle path.toList.reverse ≠ []) :
    parent? path = some (stem path) ∨ stem path = "" ∧ parent? path = some "." := by
  by_cases dotted : ∃ rest, path.toList = '.' :: '/' :: rest
  · obtain ⟨rest, dotted⟩ := dotted
    have reversed : path.toList.reverse = rest.reverse ++ '/' :: ['.'] := by simp [dotted]
    obtain ⟨rest, rfl⟩ : ∃ text : String, text.toList = rest := ⟨_, String.toList_ofList⟩
    obtain rfl : path = "." ++ "/" ++ rest := by
      rw [← String.toList_inj, toList_append_slash]
      exact dotted
    have inside : dropIdle rest.toList.reverse ≠ [] := by
      intro none
      rw [reversed, dropIdle_append, if_pos none] at named
      exact named rfl
    rw [parent?_place isPlace_here inside]
    have split : (stem ("." ++ "/" ++ rest)).toList =
        if stem rest = "" then [] else ("." ++ "/" ++ stem rest).toList := by
      rw [toList_stem, reversed, base_append inside]
      split_ifs with flat nested nested
      · rfl
      · exact absurd (stem_eq_empty.mpr flat) nested
      · exact absurd (stem_eq_empty.mp nested) flat
      · simp [toList_stem]
    by_cases flat : stem rest = ""
    · rw [if_pos flat] at split ⊢
      exact .inr ⟨String.toList_eq_nil_iff.mp split, rfl⟩
    · rw [if_neg flat] at split ⊢
      exact .inl (congrArg some (String.toList_inj.mp split).symm)
  · have whole : splitAnchor path.toList = ([], path.toList) := by
      rw [splitAnchor]
      · intro body rooted
        rw [isAbsolute, rooted] at relative
        cases relative
      · intro alone
        exact named (by rw [alone]; rfl)
      · exact fun body same => dotted ⟨body, same⟩
    left
    rw [parent?_of_named (by rwa [whole]), whole]
    rfl

private theorem join_unslashed {directory : String} (nonempty : directory ≠ "")
    (unslashed : directory.toList.getLast? ≠ some '/') (target : String) :
    join directory target = directory ++ "/" ++ target := by
  rw [join, if_neg]
  simp [nonempty, unslashed, separator]

private theorem resolve_some {target : String} (relative : isAbsolute target = false)
    (directory : String) : resolve (some directory) target = join directory target :=
  if_neg (by rw [relative]; exact Bool.false_ne_true)

/-- A relative target of a file below a place is looked up below this place. -/
theorem resolve_place {directory path target : String} (place : IsPlace directory)
    (named : dropIdle path.toList.reverse ≠ []) (relative : isAbsolute target = false) :
    resolve (parent? (directory ++ "/" ++ path)) target =
      directory ++ "/" ++ under (stem path) target := by
  rw [parent?_place place named, resolve_some relative, under]
  by_cases flat : stem path = ""
  · rw [if_pos flat, if_pos flat, join_unslashed place.nonempty place.unslashed]
  · have nonempty : (stem path).toList ≠ [] := fun empty => flat (String.toList_eq_nil_iff.mp empty)
    have unslashed : (directory ++ "/" ++ stem path).toList.getLast? ≠ some '/' := by
      rw [toList_append_slash, List.append_cons, List.getLast?_append_of_ne_nil _ nonempty]
      exact stem_unslashed
    rw [if_neg flat, if_neg flat, join_unslashed (by simp) unslashed]
    simp only [String.append_assoc]

theorem resolve_here {path target : String} (named : dropIdle path.toList.reverse ≠ [])
    (relative : isAbsolute target = false) :
    resolve (parent? ("./" ++ path)) target = "./" ++ under (stem path) target := by
  rw [← here_append, ← here_append, resolve_place isPlace_here named relative]

/-- Without the place in front it is looked up at the same place, up to a leading `.`. -/
theorem resolve_relative {path target : String} (below : isAbsolute path = false)
    (named : dropIdle path.toList.reverse ≠ []) (relative : isAbsolute target = false) :
    resolve (parent? path) target = under (stem path) target ∨
      resolve (parent? path) target = "./" ++ under (stem path) target := by
  rw [under, ← here_append]
  rcases parent?_relative below named with parent | ⟨flat, parent⟩
  · rw [parent, resolve_some relative]
    by_cases flat : stem path = ""
    · rw [if_pos flat, flat, join]
      exact .inl (String.empty_append ..)
    · rw [if_neg flat, join_unslashed flat stem_unslashed]
      exact .inl rfl
  · rw [parent, resolve_some relative, if_pos flat]
    exact .inr (join_unslashed (by decide) (by decide) target)

theorem IsBelow.under {path target : String} (below : IsBelow path) (further : IsBelow target) :
    IsBelow (under (stem path) target) := by
  rw [Path.under]
  split_ifs with flat
  · exact further
  · obtain ⟨front, split⟩ := exists_base fun empty => flat (stem_eq_empty.mpr empty)
    have split : path.toList = (stem path).toList ++ '/' :: front.reverse := by
      have forwards := congrArg List.reverse split
      rwa [List.reverse_reverse, List.reverse_append, List.reverse_cons, List.append_assoc,
        List.singleton_append, ← toList_stem] at forwards
    have nonempty : (stem path).toList ≠ [] := fun empty => flat (String.toList_eq_nil_iff.mp empty)
    constructor
    · have relative := below.relative
      rw [isAbsolute, split, List.head?_append_of_ne_nil _ nonempty] at relative
      rwa [isAbsolute, toList_append_slash, List.head?_append_of_ne_nil _ nonempty]
    · have descends := below.descends
      rw [split, parts_append, List.mem_append] at descends
      rw [toList_append_slash, parts_append, List.mem_append]
      rintro (inside | behind)
      · exact descends (.inl inside)
      · exact further.descends behind

end ServiceConfig.Path
