import ServiceConfig.Log.Logger

/-! # The trace

A program has at most one subscriber for what it traces: every message of its logger, and a few
records about what the library does. The subscriber is not part of the library. It chooses what it
prints, on the error stream, and each line tells the time.
-/

namespace ServiceConfig

/-- What is handed to the subscriber: a text and the values that go with it, by name. -/
structure Record where
  level : Log.Level
  text : String
  fields : List (String × String)
  deriving DecidableEq, Repr

def Log.Message.record (message : Message) : Record :=
  ⟨message.level, message.text, [("module", message.source)]⟩

namespace Record

/-- A file is about to be included on a line of another. -/
def including (origin : String) (line : Nat) (path : String) : Record :=
  ⟨.debug, "including file", [("origin", origin), ("line", toString line), ("include", path)]⟩

def read (path : String) (entries : Nat) : Record :=
  ⟨.debug, "read configuration", [("path", path), ("entries", toString entries)]⟩

def rejected (path kind : String) : Record :=
  ⟨.warning, "configuration rejected", [("path", path), ("kind", kind)]⟩

end Record

/-- A subscriber, with what it prints about itself when it is installed and its line for each record
that it admits. The number of the record stands for the time. -/
structure Subscriber where
  start : String
  admits : Record → Bool
  line : Nat → Record → String

namespace Subscriber

/-- A subscriber that prints nothing. -/
def silent : Subscriber := ⟨"", fun _ => false, fun _ _ => ""⟩

def print (subscriber : Subscriber) (time : Nat) (record : Record) : String :=
  if subscriber.admits record then subscriber.line time record else ""

/-- What is printed of the first records of a program. -/
def text (subscriber : Subscriber) (records : List Record) : String :=
  String.join (records.mapIdx subscriber.print)

end Subscriber

end ServiceConfig
