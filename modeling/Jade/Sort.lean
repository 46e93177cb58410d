/-!
# Sorting with a comparison that may fail

A stable sort by insertion. The longest run at the start that is already in order is kept, a run in
strictly falling order is turned round, and each further element is put in place by halving. When a
comparison fails the elements are left as they stand at that moment, so the outcome gives both the
list and the fault.
-/

namespace Jade

variable {α ε : Type}

/-- How many elements at the start of `x :: xs` stay in order, where `falling` says which order:
strictly falling, or never falling. -/
def runLength (lt : α → α → Except ε Bool) (falling : Bool) (x : α) : List α → Except ε Nat
  | [] => .ok 1
  | y :: ys => do
    if (← lt y x) == falling then return (← runLength lt falling y ys) + 1 else return 1

/-- The elements with the run at their start in rising order, and the length of that run. -/
def headRun (lt : α → α → Except ε Bool) : List α → Except ε (Nat × List α)
  | [] => .ok (0, [])
  | [x] => .ok (1, [x])
  | x :: y :: ys => do
    let falling ← lt y x
    let n := (← runLength lt falling y ys) + 1
    let xs := x :: y :: ys
    return (n, if falling then (xs.take n).reverse ++ xs.drop n else xs)

/-- The place for `pivot` between `lo` and `hi` in a sorted list, found by halving. -/
def insertionPlace (lt : α → α → Except ε Bool) (pivot : α) (front : List α) :
    Nat → Nat → Nat → Except ε Nat
  | 0, lo, _ => .ok lo
  | fuel + 1, lo, hi =>
    if lo < hi then
      let mid := lo + (hi - lo) / 2
      match front[mid]? with
      | none => .ok lo
      | some x => do
        if ← lt pivot x then insertionPlace lt pivot front fuel lo mid
        else insertionPlace lt pivot front fuel (mid + 1) hi
    else .ok lo

/-- Put the elements of the second list into the first, one after the other. -/
def insertAll (lt : α → α → Except ε Bool) (front : List α) : List α → Except ε Unit × List α
  | [] => (.ok (), front)
  | x :: rest =>
    match insertionPlace lt x front (front.length + 1) 0 front.length with
    | .ok i => insertAll lt (front.take i ++ x :: front.drop i) rest
    | .error e => (.error e, front ++ x :: rest)

def sortWith (lt : α → α → Except ε Bool) (xs : List α) : Except ε Unit × List α :=
  match headRun lt xs with
  | .ok (n, ys) => insertAll lt (ys.take n) (ys.drop n)
  | .error e => (.error e, xs)

/-- Sort in rising order, or in falling order with equal elements still in their order. -/
def sortWithDir (lt : α → α → Except ε Bool) (falling : Bool) (xs : List α) :
    Except ε Unit × List α :=
  if falling then
    let (result, ys) := sortWith lt xs.reverse
    (result, ys.reverse)
  else sortWith lt xs

/-- The sorted list, or the fault of a comparison. -/
def sorted (lt : α → α → Except ε Bool) (falling : Bool) (xs : List α) : Except ε (List α) :=
  match sortWithDir lt falling xs with
  | (.ok _, ys) => .ok ys
  | (.error e, _) => .error e

end Jade
