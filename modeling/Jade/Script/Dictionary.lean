import Jade.Script.Object
import Jade.Value.Table

/-!
# Dictionaries

An ordered table whose values are objects, so that a list may be the value of several keys and grow
under all of them. Everything that can be done with a dictionary is a command, which has an answer
and leaves a dictionary behind even if it fails. The key of a command is any object, perhaps one
that the dictionary holds.
-/

namespace Jade.Script

/-- A table whose values are objects, with the store that they live in. -/
structure Dictionary where
  marked : Table Key Object := {}
  store : Store := {}
  deriving Inhabited

/-- What can be done with a dictionary. -/
inductive Command where
  /-- Begin anew with the pairs of the sources, of which there may be at most one. -/
  | fill (sources : List Value)
  /-- Set the pairs of the sources, of which there may be at most one. -/
  | update (sources : List Value)
  /-- Set pairs that are given as arguments by name. -/
  | updateNamed (named : List (String × Value))
  /-- Begin anew with a copy. -/
  | copy
  /-- Begin anew with a copy that keeps the list of keys as it is. -/
  | deepCopy
  /-- Copy twice with one memo, and tell whether both copies are one object. -/
  | copyTwice
  /-- Begin anew with keys that all have one value. -/
  | ofKeys (keys value : Value)
  /-- Add to the list under a key. -/
  | append (key : Key) (value : Value)
  /-- Bring the keys into the order of what is measured of them. -/
  | sort (falling : Bool) (measure : Value → Except Fault Value := .ok)
  /-- Turn the order around. -/
  | reverse
  /-- Remove everything. -/
  | clear
  /-- The keys. -/
  | keys
  /-- The keys in the opposite order. -/
  | keysReversed
  /-- The values. -/
  | values
  /-- The pairs. -/
  | items
  /-- The number of pairs. -/
  | size
  /-- The dictionary as text. -/
  | describe
  /-- Whether a key has a value. -/
  | contains (key : Key)
  /-- The value of a key. -/
  | get (key : Key)
  /-- The value of a key, or a default. -/
  | getOr (key : Key) (default : Value)
  /-- Set the value of a key. -/
  | set (key : Key) (value : Value)
  /-- Remove a pair. -/
  | erase (key : Key)
  /-- Take the value of a key. -/
  | pop (key : Key)
  /-- Take the value of a key, or give a default. -/
  | popOr (key : Key) (default : Value)
  /-- Take a key out of the order. -/
  | popItem (key : Key)
  /-- Set the value of a key that has none. -/
  | setDefault (key : Key) (value : Value)
  /-- The place of a key. -/
  | index (key : Key)
  /-- The pair at a place. -/
  | pairAt (place : Value)
  /-- Whether the dictionary equals a value. -/
  | equals (other : Value)
  /-- Whether the dictionary differs from a value. -/
  | differs (other : Value)
  /-- How the dictionary compares with a value. -/
  | order (other : Value)
  /-- All pairs by key. -/
  | snapshot
  /-- Take over a list of keys. -/
  | restore (keys pairs : Value)

namespace Dictionary

def table (d : Dictionary) : Table Value Object := d.marked.unmarked

def shown (d : Dictionary) : Table Key Value := d.marked.mapValues d.store.snapshot

/-- The table with values for its keys and in place of objects. -/
def plain (d : Dictionary) : Table Value Value := d.shown.unmarked

/-- A value as a key, which is an object that the table does not hold. -/
def key (d : Dictionary) (v : Value) : Key := ⟨v, d.marked.fresh⟩

/-- The answer to a comparison that does not apply. -/
def undecided : Value := .thing "NotImplemented" "NotImplemented"

/-- Pairs of values as pairs of keys and objects, where the marks of the keys begin with the given
one. -/
def loadEntries (s : Store) (mark : Nat) :
    List (Except Fault (Value × Value)) → List (Except Fault (Key × Object)) × Store
  | [] => ([], s)
  | .error f :: rest =>
    let (loaded, s) := loadEntries s mark rest
    (.error f :: loaded, s)
  | .ok (k, v) :: rest =>
    let (o, s) := s.load v
    let (loaded, s) := loadEntries s (mark + 1) rest
    (.ok (⟨k, mark⟩, o) :: loaded, s)

def update (d : Dictionary) (sources : List Value) : Except Fault Unit × Dictionary :=
  match sources with
  | [] => (.ok (), d)
  | [v] =>
    match v.entries with
    | .error f => (.error f, d)
    | .ok entries =>
      let (loaded, store) := loadEntries d.store d.marked.fresh entries
      let (result, marked) := d.marked.update loaded
      (result, { marked, store })
  | _ => (.error .wrongType, d)

/-- The copy of an object: the one in the memo if there is one, else a new object, which goes into
the memo. -/
def noted (memo : List (Nat × Nat)) (self new : Nat) : Nat × List (Nat × Nat) :=
  match memo.lookup self with
  | some copy => (copy, memo)
  | none => (new, (self, new) :: memo)

/-- Whether two copies with one memo are one object. -/
def copiesAreOne (self new new' : Nat) : Bool :=
  let (copy, memo) := noted [] self new
  copy == (noted memo self new').1

/-- An outcome that says only whether the work was done. -/
def done (store : Store) (r : Except Fault Unit × Table Key Object) :
    Except Fault Value × Dictionary :=
  (r.1.map fun _ => .none, { marked := r.2, store })

def found (store : Store) (r : Except Fault Object × Table Key Object) :
    Except Fault Value × Dictionary :=
  (r.1.map store.snapshot, { marked := r.2, store })

/-- The pair at a place, which has to be an integer. -/
def pairAt (d : Dictionary) (place : Value) : Except Fault Value := do
  let i : Int ← match place with
    | .int i => pure i
    | .bool b => pure (if b then 1 else 0)
    | _ => throw .wrongType
  let (k, v) ← d.shown.pairAt i
  return .tuple [k.value, v]

/-- The answer to a command that changes nothing. -/
def answer (d : Dictionary) : Command → Except Fault Value
  | .keys => .ok (.list d.table.keys)
  | .keysReversed => .ok (.list d.table.keys.reverse)
  | .values => .ok (.list (d.shown.itemPairs.map Prod.snd))
  | .items => .ok (.list d.shown.itemValues)
  | .size => .ok (.int d.marked.size)
  | .describe => .ok (.text d.shown.describe)
  | .contains k => (d.marked.has k).map .bool
  | .get k => d.shown.fetch k
  | .getOr k v => d.shown.fetchOr k v
  | .index k => (d.marked.indexOf k).map fun (i : Nat) => .int i
  | .pairAt place => d.pairAt place
  | .equals v => .ok ((d.shown.equals? v).elim undecided .bool)
  | .differs v => .ok (.bool ((d.shown.equals? v).elim false (!·)))
  | .order v => (d.shown.order v).map fun _ => undecided
  | .copyTwice => .ok (.bool (copiesAreOne 0 1 2))
  | .updateNamed named => if named.isEmpty then .ok .none else .error .noSuchMember
  | .snapshot => d.shown.snapshot.map fun pairs => .dict (pairs.map fun (k, v) => (k.value, v))
  | _ => .ok .none

/-- The answer to a command and the dictionary after it. -/
def perform (d : Dictionary) (c : Command) : Except Fault Value × Dictionary :=
  match c with
  | .fill sources =>
    match update {} sources with
    | (.ok _, d) => (.ok .none, d)
    | (.error f, _) => (.error f, {})
  | .update sources =>
    let (result, d) := d.update sources
    (result.map fun _ => .none, d)
  | .copy => (.ok .none, { d with marked := d.marked.copy .none })
  | .deepCopy =>
    (.ok .none, { d with marked := d.marked.deepCopy (Key.copied d.marked.fresh) .none })
  | .ofKeys keys v =>
    match keys.members with
    | .error f => (.error f, d)
    | .ok ks =>
      let (o, store) := d.store.load v
      match Table.ofKeys (Key.ofValues 0 ks) o with
      | (.ok _, marked) => (.ok .none, { marked, store })
      | (.error f, _) => (.error f, d)
  | .append k v =>
    match d.marked.fetch k with
    | .error f => (.error f, d)
    | .ok (.list place) =>
      let (o, store) := d.store.load v
      (.ok .none, { d with store := store.set place (store.get place ++ [o]) })
    | .ok _ => (.error .noSuchMember, d)
  | .sort falling measure =>
    done d.store (d.marked.sortKeys (fun k => measure k.value) falling)
  | .reverse => (.ok .none, { d with marked := d.marked.reverse })
  | .clear => (.ok .none, { d with marked := {} })
  | .set k v =>
    let (o, store) := d.store.load v
    done store (d.marked.put k o)
  | .erase k => done d.store (d.marked.erase k)
  | .pop k => found d.store (d.marked.pop k)
  | .popOr k v =>
    let (o, store) := d.store.load v
    found store (d.marked.popOr k o)
  | .popItem k => done d.store (d.marked.popItem k)
  | .setDefault k v =>
    let (o, store) := d.store.load v
    done store (d.marked.setDefault k o)
  | .restore (.list keys) pairs =>
    done d.store (d.marked.restore (Key.ofValues d.marked.fresh keys) pairs)
  | .restore _ _ => (.error .wrongType, d)
  | c => (d.answer c, d)

end Dictionary

end Jade.Script
