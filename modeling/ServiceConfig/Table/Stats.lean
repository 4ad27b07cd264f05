import ServiceConfig.Table.Basic

/-! # Figures about a table

How full a table is, and the one-line texts that describe it.
-/

namespace ServiceConfig

structure TableStats where
  name : String
  capacity : Nat
  entries : Nat
  emptyBuckets : Nat
  longestChain : Nat
  deriving DecidableEq, Repr

def TableStats.describe (stats : TableStats) : String :=
  stats.name ++ ": " ++ toString stats.entries ++ " entries in " ++ toString stats.capacity ++
    " buckets (" ++ toString stats.emptyBuckets ++ " empty, longest chain " ++
    toString stats.longestChain ++ ")"

namespace Table

variable {Record : Type}

/-- The lengths of all chains, bucket by bucket. -/
def chainLengths (table : Table Record) : List Nat :=
  (List.range table.capacity).map fun bucket => (table.chain bucket).toList.length

def stats (table : Table Record) : TableStats where
  name := table.name
  capacity := table.capacity
  entries := table.count
  emptyBuckets := table.chainLengths.countP (· = 0)
  longestChain := table.chainLengths.foldl max 0

/-- How often a table holds a record. -/
def occurrences [DecidableEq Record] (table : Table Record) (record : Record) : Nat :=
  table.toList.count record

end Table

def KeyMode.describe : KeyMode → String
  | .fixed length => "Fixed(" ++ toString length ++ ")"
  | .text maxLength => "Str \x7b max_len: " ++ toString maxLength ++ " \x7d"

def InsertOrder.describe : InsertOrder → String
  | .head => "Head"
  | .tail => "Tail"

def Table.describe {Record : Type} (table : Table Record) : String :=
  "HashTable \x7b name: " ++ Text.quoted table.name ++ ", capacity: " ++ toString table.capacity ++
    ", entries: " ++ toString table.count ++ ", mode: " ++ table.mode.describe ++
    ", flags: HashFlags \x7b nocase: " ++ toString table.ignoreCase ++ ", order: " ++
    table.order.describe ++ " \x7d, .. \x7d"

end ServiceConfig
