import Mathlib.Data.List.Induction
import ServiceConfig.Live

/-! # What a subscriber prints of a load

All that the library traces by itself is below an error. So a filter that admits errors only, as the
one that is in force where none is set, leaves of a load at most the message of its logger; a filter
that is off leaves nothing.
-/

namespace ServiceConfig

namespace Subscriber

/-- The filter is off, and nothing is said of that. -/
structure Off (subscriber : Subscriber) : Prop where
  start : subscriber.start = ""
  admits : ∀ record, subscriber.admits record = false

/-- No filter is set, so errors are admitted and nothing else. -/
structure ErrorsOnly (subscriber : Subscriber) : Prop where
  start : subscriber.start = ""
  admits : ∀ record, subscriber.admits record = decide (record.level = .error)

/-- What is printed from the start until a load has logged its message. -/
def printed (subscriber : Subscriber) (files : Files) (path : String) (message : Log.Message) :
    String :=
  subscriber.start ++ subscriber.text (Plan.trailOf files path ++ [message.record])

theorem silent_off : silent.Off := ⟨rfl, fun _ => rfl⟩

end Subscriber

section

variable {record : Record} {files : Files} {path : String}

theorem Document.mem_resolveTrail {splice : String → Nat → Except ConfigError (List Grammar.Event)}
    {included : Nat → String → Nat → List Record} {depth : Nat}
    {statements : List Grammar.Statement}
    (traced : record ∈ resolveTrail splice included depth statements) :
    ∃ line target inner, record ∈ included line target inner := by
  fun_induction resolveTrail splice included depth statements with
  | case1 => cases traced
  | case2 depth statement rest value later _ ih =>
    rcases List.mem_append.mp traced with own | behind
    · exact ⟨_, _, _, own⟩
    · simp only [later] at behind
      split at behind
      next => cases behind
      next => exact ih behind
  | case3 depth statement rest name value _ _ ih => exact ih traced
  | case4 depth statement rest name value? _ _ ih => exact ih traced
  | case5 => cases traced
  | case6 depth statement rest _ ih => exact ih traced

theorem Document.level_fileTrail {room depth : Nat}
    (traced : record ∈ fileTrail files room path depth) : record.level = .debug := by
  induction room generalizing path depth with
  | zero => cases traced
  | succ room ih =>
    rw [fileTrail] at traced
    split at traced
    next => cases traced
    next text _ =>
      obtain ⟨line, target, inner, own⟩ := mem_resolveTrail traced
      rcases List.mem_cons.mp own with rfl | nested
      · rfl
      · exact ih nested

theorem Plan.level_trailOf (traced : record ∈ trailOf files path) : record.level ≠ .error := by
  rw [trailOf, Tree.readTrail, List.append_assoc] at traced
  rcases List.mem_append.mp traced with reading | ending
  · rw [Document.level_fileTrail reading]
    decide
  · cases read : Tree.read files path with
    | error error =>
      simp only [read, List.nil_append] at ending
      obtain rfl := List.mem_singleton.mp ending
      simp [Record.rejected]
    | ok tree =>
      simp only [read, List.append_nil] at ending
      obtain rfl := List.mem_singleton.mp ending
      simp [Record.read]

end

namespace Subscriber

variable {subscriber : Subscriber} {records : List Record}

theorem text_append (subscriber : Subscriber) (records : List Record) (last : Record) :
    subscriber.text (records ++ [last]) =
      subscriber.text records ++ subscriber.print records.length last := by
  rw [text, List.mapIdx_append, String.join_append]
  simp [text]

private theorem text_eq_empty (none : ∀ record ∈ records, subscriber.admits record = false) :
    subscriber.text records = "" := by
  induction records using List.reverseRecOn with
  | nil => rfl
  | append_singleton records last ih =>
    obtain ⟨earlier, own⟩ := List.forall_mem_append.mp none
    rw [text_append, ih earlier, print, own last (List.mem_singleton_self last)]
    rfl

variable {files : Files} {path : String}

theorem Off.printed (off : subscriber.Off) (files : Files) (path : String)
    (message : Log.Message) : subscriber.printed files path message = "" := by
  rw [Subscriber.printed, off.start, text_eq_empty fun record _ => off.admits record]
  rfl

theorem ErrorsOnly.printed (only : subscriber.ErrorsOnly) (files : Files) (path : String)
    (message : Log.Message) :
    subscriber.printed files path message =
      if message.level = .error then
        subscriber.line (Plan.trailOf files path).length message.record
      else "" := by
  have below : ∀ record ∈ Plan.trailOf files path, subscriber.admits record = false :=
    fun record traced => by rw [only.admits, decide_eq_false (Plan.level_trailOf traced)]
  have own : subscriber.admits message.record = decide (message.level = .error) := only.admits _
  rw [Subscriber.printed, only.start, text_append, text_eq_empty below, print, own]
  simp only [decide_eq_true_eq, String.empty_append]

end Subscriber

end ServiceConfig
