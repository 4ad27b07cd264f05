import ServiceConfig.Arena

/-! # Chains

A chain is a run of links in an arena, each of which names the one behind it; the last names none.
A bucket knows both ends of its chain, so that a link can be put at either end at once. To take a
link out, the chain is walked from its head to the link and the one before it.
-/

namespace ServiceConfig

structure Link (Record : Type) where
  record : Record
  hash : UInt32
  next? : Option Nat
  deriving DecidableEq, Repr

/-- The ends of a chain; an empty chain has none. -/
structure Bucket where
  head? : Option Nat
  tail? : Option Nat
  deriving DecidableEq, Repr

def Bucket.empty : Bucket := ⟨none, none⟩

/-- Where a link stands in its chain: the number before it, its own number, and the link. -/
structure Place (Record : Type) where
  previous? : Option Nat
  number : Nat
  link : Link Record
  deriving DecidableEq, Repr

/-- A bucket with the arena that the links of its chain live in. -/
structure Chain (Record : Type) where
  bucket : Bucket
  links : Arena (Link Record)

namespace Chain

variable {Record : Type}

/-- The links from `current?` on, at most `steps` of them. -/
def walk (links : Arena (Link Record)) : (steps : Nat) → (current? : Option Nat) →
    List (Link Record)
  | 0, _ => []
  | steps + 1, current? =>
    match current?.bind links.get? with
    | none => []
    | some link => link :: walk links steps link.next?

/-- All links of a chain from its head. A chain has no more links than numbers were handed out. -/
def toList (chain : Chain Record) : List (Link Record) :=
  walk chain.links chain.links.next chain.bucket.head?

/-- Puts a new link before all others. -/
def pushHead (chain : Chain Record) (record : Record) (hash : UInt32) : Chain Record where
  bucket := ⟨some chain.links.next, chain.bucket.tail?.or (some chain.links.next)⟩
  links := chain.links.add ⟨record, hash, chain.bucket.head?⟩

/-- Puts a new link behind all others. -/
def pushTail (chain : Chain Record) (record : Record) (hash : UInt32) : Chain Record :=
  let added := chain.links.next
  let links := chain.links.add ⟨record, hash, none⟩
  match chain.bucket.tail? with
  | none => ⟨⟨some added, some added⟩, links⟩
  | some last =>
    ⟨⟨chain.bucket.head?, some added⟩, links.update last ({ · with next? := some added })⟩

/-- The first place from `current?` on, within so many steps, that holds this very record. -/
def locate [DecidableEq Record] (links : Arena (Link Record)) (record : Record) :
    (steps : Nat) → (previous? current? : Option Nat) → Option (Place Record)
  | 0, _, _ => none
  | steps + 1, previous?, current? => do
    let number ← current?
    let link ← links.get? number
    if link.record = record then some ⟨previous?, number, link⟩
    else locate links record steps (some number) link.next?

def find? [DecidableEq Record] (chain : Chain Record) (record : Record) : Option (Place Record) :=
  locate chain.links record chain.links.next none chain.bucket.head?

/-- Takes out the link at a place: the chain is closed around it before its number is released. -/
def unlink (chain : Chain Record) (place : Place Record) : Chain Record where
  bucket :=
    ⟨if place.previous?.isNone then place.link.next? else chain.bucket.head?,
      if chain.bucket.tail? = some place.number then place.previous? else chain.bucket.tail?⟩
  links :=
    let closed := match place.previous? with
      | none => chain.links
      | some previous => chain.links.update previous ({ · with next? := place.link.next? })
    closed.release place.number

end Chain

end ServiceConfig
