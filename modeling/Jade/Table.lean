import Jade.Fault

/-!
# Ordered tables

A table that remembers the order of its keys and offers list operations on them. It is held as an
association list in order of insertion together with a list of keys in the order shown, because the
operations on order change only the latter.

Operations that take a key first ask whether the value may be a key at all. An operation that fails
may have done part of its work, so the outcome gives the fault and the table together.
-/

namespace Jade

/-- What keys need: a test whether two of them are the same, and whether a value may be a key. -/
class TableKey (κ : Type) where
  /-- Whether two keys are the same. -/
  same : κ → κ → Bool
  /-- Whether the value may be a key. -/
  usable : κ → Bool := fun _ => true

-- outside tables, a test that a type has already is preferred
instance (priority := low) {κ : Type} [TableKey κ] : BEq κ := ⟨TableKey.same⟩

instance : TableKey String where
  same := (· == ·)

/-- A table with the order of its keys. -/
structure Table (κ ν : Type) where
  /-- The keys in the order shown. -/
  keys : List κ := []
  /-- The pairs in the order in which their keys were first set. -/
  entries : List (κ × ν) := []
  deriving Repr, Inhabited, DecidableEq

namespace Table

variable {κ ν : Type}

def empty : Table κ ν := {}

section Core

variable [BEq κ]

/-- The value stored under a key in an association list. -/
def lookupIn (k : κ) : List (κ × ν) → Option ν
  | [] => none
  | (k', v) :: rest => if k' == k then some v else lookupIn k rest

/-- Store a value: in the place of the key if there is one, else at the end. -/
def storeIn (k : κ) (v : ν) : List (κ × ν) → List (κ × ν)
  | [] => [(k, v)]
  | (k', v') :: rest => if k' == k then (k', v) :: rest else (k', v') :: storeIn k v rest

/-- Remove the pair of a key from an association list. -/
def dropIn (k : κ) : List (κ × ν) → List (κ × ν)
  | [] => []
  | (k', v') :: rest => if k' == k then rest else (k', v') :: dropIn k rest

def get? (t : Table κ ν) (k : κ) : Option ν := lookupIn k t.entries

def contains (t : Table κ ν) (k : κ) : Bool := (t.get? k).isSome

def set (t : Table κ ν) (k : κ) (v : ν) : Table κ ν where
  keys := if t.contains k then t.keys else t.keys ++ [k]
  entries := storeIn k v t.entries

/-- The pairs in the order of the keys; a key with no value has none. -/
def items (t : Table κ ν) : List (κ × Option ν) := t.keys.map fun k => (k, t.get? k)

def values (t : Table κ ν) : List (Option ν) := t.keys.map t.get?

/-- A table from pairs, set one after the other. -/
def ofPairs (pairs : List (κ × ν)) : Table κ ν :=
  pairs.foldl (fun t (k, v) => t.set k v) empty

/-- The pairs in the order of the keys, where a key with no value is left out. -/
def toList (t : Table κ ν) : List (κ × ν) :=
  t.keys.filterMap fun k => (t.get? k).map fun v => (k, v)

def size (t : Table κ ν) : Nat := t.entries.length

end Core

section Checked

variable [TableKey κ]

/-- Do something with a value that has to be a key. -/
def withKey {α : Type} (t : Table κ ν) (k : κ) (f : Except Fault α × Table κ ν) :
    Except Fault α × Table κ ν :=
  if TableKey.usable k then f else (.error .wrongType, t)

def put (t : Table κ ν) (k : κ) (v : ν) : Except Fault Unit × Table κ ν :=
  t.withKey k (.ok (), t.set k v)

/-- The value under a key that has to be there. -/
def fetch (t : Table κ ν) (k : κ) : Except Fault ν :=
  if TableKey.usable k then
    match t.get? k with
    | some v => .ok v
    | none => .error .noSuchKey
  else .error .wrongType

def fetchOr (t : Table κ ν) (k : κ) (default : ν) : Except Fault ν :=
  if TableKey.usable k then .ok ((t.get? k).getD default) else .error .wrongType

/-- Whether there is a value under what has to be a key. -/
def has (t : Table κ ν) (k : κ) : Except Fault Bool :=
  if TableKey.usable k then .ok (t.contains k) else .error .wrongType

/-- Take a key out of the order; it has to be there. -/
def forgetKey (t : Table κ ν) (k : κ) : Except Fault Unit × Table κ ν :=
  if t.keys.any (· == k) then (.ok (), { t with keys := t.keys.eraseP (· == k) })
  else (.error .badValue, t)

/-- Remove a pair, first its value and then its key. -/
def erase (t : Table κ ν) (k : κ) : Except Fault Unit × Table κ ν :=
  match t.fetch k with
  | .error e => (.error e, t)
  | .ok _ => ({ t with entries := dropIn k t.entries } : Table κ ν).forgetKey k

/-- Take the value of a key that has to be there; the key keeps its place in the order. -/
def pop (t : Table κ ν) (k : κ) : Except Fault ν × Table κ ν :=
  match t.fetch k with
  | .error e => (.error e, t)
  | .ok v => (.ok v, { t with entries := dropIn k t.entries })

/-- Take the value of a key and the key with it, or give the default. -/
def popOr (t : Table κ ν) (k : κ) (default : ν) : Except Fault ν × Table κ ν :=
  match t.has k with
  | .error e => (.error e, t)
  | .ok false => (.ok default, t)
  | .ok true =>
    match t.forgetKey k with
    | (.error e, t') => (.error e, t')
    | (.ok _, t') =>
      ((t'.get? k).elim (.ok default) .ok, { t' with entries := dropIn k t'.entries })

/-- Take a key out of the order. The value stays, and the call itself always fails. -/
def popItem (t : Table κ ν) (k : κ) : Except Fault Unit × Table κ ν :=
  match t.forgetKey k with
  | (.error e, t') => (.error e, t')
  | (.ok _, t') => (.error .wrongType, t')

def setDefault (t : Table κ ν) (k : κ) (v : ν) : Except Fault Unit × Table κ ν :=
  match t.has k with
  | .error e => (.error e, t)
  | .ok true => (.ok (), t)
  | .ok false => (.ok (), t.set k v)

def indexOf (t : Table κ ν) (k : κ) : Except Fault Nat :=
  match t.keys.findIdx? (· == k) with
  | some i => .ok i
  | none => .error .badValue

/-- The pair at a place of the order, counted from the end if negative. -/
def pairAt (t : Table κ ν) (i : Int) : Except Fault (κ × ν) :=
  let j := if i < 0 then i + t.keys.length else i
  if j < 0 then .error .noSuchPosition
  else match t.keys[j.toNat]? with
    | none => .error .noSuchPosition
    | some k => (t.fetch k).map fun v => (k, v)

/-- Store pairs one after the other; the first that is no pair ends the work. -/
def update (t : Table κ ν) : List (Except Fault (κ × ν)) → Except Fault Unit × Table κ ν
  | [] => (.ok (), t)
  | .error e :: _ => (.error e, t)
  | .ok (k, v) :: rest =>
    match t.put k v with
    | (.error e, t') => (.error e, t')
    | (.ok _, t') => t'.update rest

def ofKeys (keys : List κ) (v : ν) : Except Fault Unit × Table κ ν :=
  empty.update (keys.map fun k => .ok (k, v))

/-- A new table set from the pairs in order, where a key with no value gets the default. -/
def copy (t : Table κ ν) (default : ν) : Table κ ν :=
  ofPairs (t.items.map fun (k, v) => (k, v.getD default))

/-- A table set from copies of the pairs in order, with the list of keys as it is. -/
def deepCopy (t : Table κ ν) (copied : κ → κ) (default : ν) : Table κ ν :=
  { ofPairs (t.items.map fun (k, v) => (copied k, v.getD default)) with keys := t.keys }

/-- All pairs by key, in the order of the keys; every key has to have a value. -/
def snapshot (t : Table κ ν) : Except Fault (List (κ × ν)) := do
  let pairs ← t.keys.mapM fun k => do return (k, ← t.fetch k)
  return pairs.foldl (fun acc (k, v) => storeIn k v acc) []

end Checked

def reverse (t : Table κ ν) : Table κ ν := { t with keys := t.keys.reverse }

end Table

end Jade
