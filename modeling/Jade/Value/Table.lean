import Jade.Markup
import Jade.Sort
import Jade.Table

/-!
# Tables of values

Ordered tables whose keys are values. Keys are the same if they stand for the same thing, as numbers
of any type for one number, and only what never changes can be a key. Some things are equal to
nothing, not even to themselves. As keys they are told apart by which object they are, so every key
has a mark.
-/

namespace Jade

/-! ## Keys -/

/-- A part of what a key stands for. -/
inductive KeyPart where
  /-- Nothing. -/
  | absent
  /-- A number, or an infinity, which is told by whether it is negative. -/
  | number (n : Bool ⊕ Rat)
  /-- A text. -/
  | text (s : String)
  /-- Bytes. -/
  | bytes (bs : List UInt8)
  /-- A name that is not known. -/
  | undefined
  /-- So many integers, with the first one and the step between them if that shows. -/
  | range (size : Nat) (start : Option (Int × Option Int))
  /-- Something known by its kind and the text that shows it. -/
  | thing (kind shown : String)
  /-- A tuple of so many members, which follow. -/
  | tuple (size : Nat)
  deriving DecidableEq

/-- The exact number of a word, or an infinity. -/
def Binary64.point? (x : Binary64) : Option (Bool ⊕ Rat) :=
  match x.decode with
  | .nan => none
  | .infinite negative => some (.inl negative)
  | .finite .. => x.toRatio?.map fun r => .inr (mkRat r.1 r.2)

namespace Value

mutual

/-- What a value that may be a key stands for; nothing if it is equal to nothing. -/
def keyParts? : Value → Option (List KeyPart)
  | .none => some [.absent]
  | .bool b => some [.number (.inr (if b then 1 else 0))]
  | .int n => some [.number (.inr n)]
  | .float x => x.point?.map fun n => [.number n]
  | .text s => some [.text s]
  | .bytes bs => some [.bytes bs]
  | .undefined _ => some [.undefined]
  | .range a b c =>
    let n := rangeSize a b c
    some [.range n (if n = 0 then Option.none else some (a, if n = 1 then Option.none else some c))]
  | .thing k s => some [.thing k s]
  | .tuple vs => (keyPartsAll? vs).map (.tuple vs.length :: ·)
  | _ => Option.none

/-- What several values stand for, one after the other. -/
def keyPartsAll? : List Value → Option (List KeyPart)
  | [] => some []
  | v :: vs => do return (← v.keyParts?) ++ (← keyPartsAll? vs)

end

mutual

/-- Whether a copy of the value is another object that is not equal to it. -/
def renewed : Value → Bool
  | .html _ | .counter _ | .stream _ => true
  | .tuple vs => renewedAny vs
  | _ => false

/-- Whether a copy of one of the values is not equal to it. -/
def renewedAny : List Value → Bool
  | [] => false
  | v :: vs => v.renewed || renewedAny vs

end

end Value

/-- A value as the key of a table. -/
structure Key where
  value : Value
  mark : Nat
  deriving Repr, Inhabited

namespace Key

/-- What a key stands for, or the object that it is. -/
def identity (k : Key) : List KeyPart ⊕ Nat := k.value.keyParts?.elim (.inr k.mark) .inl

/-- Whether two keys are the same. Values that may be no keys are compared as values. -/
def same (a b : Key) : Bool :=
  if a.value.mayBeKey && b.value.mayBeKey then a.identity = b.identity else a.value.same b.value

instance : TableKey Key where
  same := same
  usable k := k.value.mayBeKey

/-- Values as keys, each an object of its own; their marks begin with the given one. -/
def ofValues (mark : Nat) (vs : List Value) : List Key := vs.mapIdx fun i v => ⟨v, mark + i⟩

/-- A key in a copy of all that a table holds, where marks from `fresh` on are new. -/
def copied (fresh : Nat) (k : Key) : Key :=
  if k.value.renewed then { k with mark := fresh + k.mark } else k

end Key

/-- The pairs that a table can be filled from: those of another table, or members that have to be
pairs themselves. -/
def Value.entries : Value → Except Fault (List (Except Fault (Value × Value)))
  | .dict ps | .ordered ps => .ok (ps.map .ok)
  | v => do return (← v.members).map asPair

namespace Table

variable {κ ν μ : Type}

def mapValues (f : ν → μ) (t : Table κ ν) : Table κ μ where
  keys := t.keys
  entries := t.entries.map fun (k, v) => (k, f v)

/-- Bring the keys into the order of what is measured of them. All of them are measured first; if
a comparison fails later on, they may have been moved. -/
def sortKeys (measure : κ → Except Fault Value) (falling : Bool) (t : Table κ ν) :
    Except Fault Unit × Table κ ν :=
  match t.keys.mapM fun k => do return (← measure k, k) with
  | .error f => (.error f, t)
  | .ok measured =>
    let (result, measured) := sortWithDir (fun a b => a.1.holds .lt b.1) falling measured
    (result, { t with keys := measured.map Prod.snd })

/-- Take over a list of keys; the pairs stay, and what is given for them has to be a table. -/
def restore (t : Table κ ν) (keys : List κ) (pairs : Value) : Except Fault Unit × Table κ ν :=
  let t := { t with keys }
  match pairs with
  | .dict _ | .ordered _ => (.ok (), t)
  | _ => (.error .wrongType, t)

def fresh (t : Table Key ν) : Nat :=
  (t.keys ++ t.entries.map Prod.fst).foldr (fun k n => max (k.mark + 1) n) 0

def unmarked (t : Table Key ν) : Table Value ν where
  keys := t.keys.map Key.value
  entries := t.entries.map fun (k, v) => (k.value, v)

/-- The pairs in the order of the keys, where a key with no value has none. -/
def itemPairs (t : Table Key Value) : List (Value × Value) :=
  t.items.map fun (k, v) => (k.value, v.getD .none)

/-- The pairs in the order of the keys as tuples. -/
def itemValues (t : Table Key Value) : List Value :=
  t.itemPairs.map fun (k, v) => .tuple [k, v]

/-- Whether a table equals another value: pair by pair, and in the same order if the other has an
order too. There is no answer for other values. -/
def equals? (t : Table Key Value) : Value → Option Bool
  | .ordered ps =>
    let other : Table Key Value := ofPairs (ps.mapIdx fun i (k, v) => (⟨k, i⟩, v))
    some ((Value.dict t.unmarked.entries).same (.dict other.unmarked.entries) &&
      (Value.list t.itemValues).same (.list other.itemValues))
  | .dict ps => some ((Value.dict t.unmarked.entries).same (.dict ps))
  | _ => none

/-- The order of a table and another value is never known: tables have none. -/
def order (_ : Table Key Value) : Value → Except Fault (Option Ordering)
  | .ordered _ => .error (.unbound "cmp")
  | .dict _ => .error .noSuchMember
  | _ => .ok none

def describe (t : Table Key Value) : String :=
  "odict.odict(" ++ (Value.list t.itemValues).inside ++ ")"

end Table

end Jade
