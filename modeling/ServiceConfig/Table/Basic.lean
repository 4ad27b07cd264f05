import ServiceConfig.Hash
import ServiceConfig.Table.Chain
import ServiceConfig.Text.Quoted

/-! # Keyed tables

A table indexes records that belong to someone else by a key that each record carries. It has a
fixed number of buckets; a record goes into the bucket that the hash of its bounded key names, in
front of the others or behind them. Keys may repeat, and so may records: a record is deleted by
identity, one occurrence at a time. The links of all chains live in one arena.

A link keeps the full hash of its key, so that a lookup compares keys only where the hashes agree.
-/

namespace ServiceConfig

abbrev Key := List UInt8

/-- Which part of a record's bytes is its key: so many bytes at the start, or the text up to the
first zero byte, cut to a length unless that is zero. -/
inductive KeyMode
  | fixed (length : Nat)
  | text (maxLength : Nat)
  deriving DecidableEq, Repr

def KeyMode.bound (mode : KeyMode) (key : Key) : Key :=
  match mode with
  | .fixed length => key.take length
  | .text maxLength =>
    let text := key.takeWhile (· ≠ 0)
    if maxLength = 0 then text else text.take maxLength

/-- Where a new link goes in its chain. -/
inductive InsertOrder
  | head
  | tail
  deriving DecidableEq, Repr

/-- How keys are compared when not simply for equality. A re-entrant comparator looks something up
in the very table that is calling it, which the guard of a debug build refuses. -/
inductive Comparator
  | judge (compare : Key → Key → Ordering)
  | reentrant

structure Table (Record : Type) where
  name : String
  mode : KeyMode
  ignoreCase : Bool
  order : InsertOrder
  keyOf : Record → Key
  comparator? : Option Comparator
  buckets : Array Bucket
  links : Arena (Link Record)

inductive TableError
  | zeroCapacity
  | zeroKeyLength
  deriving DecidableEq, Repr

def TableError.message : TableError → String
  | .zeroCapacity => "hash table capacity must be non-zero"
  | .zeroKeyLength => "fixed-length keys must have a non-zero length"

namespace Table

variable {Record : Type}

/-- An empty table, unless it would have no buckets or keys of no length. -/
def create (name : String) (capacity : Nat) (mode : KeyMode) (ignoreCase : Bool)
    (order : InsertOrder) (keyOf : Record → Key) (comparator? : Option Comparator) :
    Except TableError (Table Record) :=
  if capacity = 0 then .error .zeroCapacity
  else if mode = .fixed 0 then .error .zeroKeyLength
  else .ok ⟨name, mode, ignoreCase, order, keyOf, comparator?, Array.replicate capacity .empty,
    .empty⟩

def capacity (table : Table Record) : Nat := table.buckets.size

/-- The number of occurrences in the table. -/
def count (table : Table Record) : Nat := table.links.liveCount

def boundKey (table : Table Record) (record : Record) : Key :=
  table.mode.bound (table.keyOf record)
def hashOf (table : Table Record) (key : Key) : UInt32 := Hash.lookup2 key table.ignoreCase
def bucketOf (table : Table Record) (hash : UInt32) : Nat := hash.toNat % table.capacity

def hashOfRecord (table : Table Record) (record : Record) : UInt32 :=
  table.hashOf (table.boundKey record)

/-- The bucket that all occurrences of a record belong to. -/
def home (table : Table Record) (record : Record) : Nat :=
  table.bucketOf (table.hashOfRecord record)

def chain (table : Table Record) (bucket : Nat) : Chain Record :=
  ⟨table.buckets.getD bucket .empty, table.links⟩

/-- Puts a chain in the place of the one that a bucket had. -/
def withChain (table : Table Record) (bucket : Nat) (chain : Chain Record) : Table Record :=
  { table with buckets := table.buckets.setIfInBounds bucket chain.bucket, links := chain.links }

/-- Adds an occurrence of a record. -/
def insert (table : Table Record) (record : Record) : Table Record :=
  let hash := table.hashOfRecord record
  let chain := table.chain (table.home record)
  match table.order with
  | .head => table.withChain (table.home record) (chain.pushHead record hash)
  | .tail => table.withChain (table.home record) (chain.pushTail record hash)

/-- Removes the first occurrence of this very record, if there is one. -/
def delete [DecidableEq Record] (table : Table Record) (record : Record) :
    Option Record × Table Record :=
  let chain := table.chain (table.home record)
  match chain.find? record with
  | none => (none, table)
  | some place =>
    (some place.link.record, table.withChain (table.home record) (chain.unlink place))

def clear (table : Table Record) : Table Record :=
  { table with
    buckets := Array.replicate table.capacity .empty
    links := table.links.releaseAll }

/-- All records, bucket by bucket, each chain from its head. -/
def toList (table : Table Record) : List Record :=
  (List.range table.capacity).flatMap fun bucket => (table.chain bucket).toList.map Link.record

/-- What a lookup found, unless it was refused, and the pairs of stored key and probe that it
compared. -/
structure Lookup (α : Type) where
  found? : Option α
  calls : List (Key × Key)
  deriving DecidableEq, Repr

def Lookup.map {α β : Type} (lookup : Lookup α) (change : α → β) : Lookup β :=
  ⟨lookup.found?.map change, lookup.calls⟩

/-- Whether a stored key and a probe agree; a re-entrant comparator gives no answer, since the table
is in use by the lookup that asks. -/
def agree? (table : Table Record) (stored probe : Key) : Option Bool :=
  match table.comparator? with
  | some (.judge compare) => some (compare stored probe == .eq)
  | some .reentrant => none
  | none => some (if table.ignoreCase then Ascii.bytesEqualFold stored probe else stored == probe)

/-- The records of a chain that agree with the probe, only the first of them if `single`. -/
def search (table : Table Record) (single : Bool) (probe : Key) :
    List Record → Lookup (List Record)
  | [] => ⟨some [], []⟩
  | record :: rest =>
    let stored := table.boundKey record
    match table.agree? stored probe with
    | none => ⟨none, [(stored, probe)]⟩
    | some false =>
      let later := table.search single probe rest
      ⟨later.found?, (stored, probe) :: later.calls⟩
    | some true =>
      if single then ⟨some [record], [(stored, probe)]⟩
      else
        let later := table.search single probe rest
        ⟨later.found?.map (record :: ·), (stored, probe) :: later.calls⟩

/-- The records whose stored hash is that of the probe, in chain order. -/
def candidates (table : Table Record) (probe : Key) : List Record :=
  let hash := table.hashOf probe
  ((table.chain (table.bucketOf hash)).toList.filter (·.hash = hash)).map Link.record

def lookupBound (table : Table Record) (single : Bool) (probe : Key) : Lookup (List Record) :=
  table.search single probe (table.candidates probe)

/-- The first record with this key. -/
def find (table : Table Record) (key : Key) : Lookup (Option Record) :=
  (table.lookupBound true (table.mode.bound key)).map List.head?

/-- The first record with the same key as another. -/
def findRecord (table : Table Record) (probe : Record) : Lookup (Option Record) :=
  (table.lookupBound true (table.boundKey probe)).map List.head?

/-- All records with this key. -/
def findAll (table : Table Record) (key : Key) : Lookup (List Record) :=
  table.lookupBound false (table.mode.bound key)

def contains (table : Table Record) (key : Key) : Lookup Bool := (table.find key).map Option.isSome

end Table

end ServiceConfig
