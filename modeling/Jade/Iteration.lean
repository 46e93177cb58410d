import Jade.Value

/-!
# Loops over values

A loop has one or more variables. A table is run through as it is. Otherwise the first member
decides for all: if members are sequences and there is one variable more than the first of them has
members, every member is extended by its index; if members are no sequences and there are two
variables, every member is paired with its index; in all other cases members stand for themselves.
-/

namespace Jade

/-- How members and indices are combined. -/
inductive Numbering where
  /-- Members stand for themselves. -/
  | plain
  /-- The index is the last of a member's own members. -/
  | extended
  /-- A member and its index are a pair. -/
  | paired
  deriving DecidableEq, Repr, Inhabited

/-- The number of members as a loop counts it: one for a text and for what has none. -/
def cardinality (v : Value) : Nat := if v.isText then 1 else v.size?.getD 1

/-- The choice that the first member makes for all. -/
def numberingOf (head : Value) (keys : Int) : Numbering :=
  if head.isIterable then
    if keys = cardinality head + 1 then .extended else .plain
  else if keys = 2 then .paired else .plain

def Numbering.apply (n : Numbering) (index : Nat) (v : Value) : Except Fault Value :=
  match n with
  | .plain => .ok v
  | .extended => do return .tuple ((← v.members) ++ [.int index])
  | .paired => .ok (.tuple [v, .int index])

/-- What a loop runs through. -/
inductive Iteration where
  /-- A table, by its keys. -/
  | table (v : Value)
  /-- Nothing. -/
  | empty
  /-- Members; one that cannot be extended is a fault when its turn comes. -/
  | members (vs : List (Except Fault Value))

/-- All that a loop with so many variables runs through. -/
def iteration (v : Value) (keys : Int) : Except Fault Iteration := do
  if v.isMapping then return .table v
  match ← v.members with
  | [] => return .empty
  | vs@(head :: _) => return .members (vs.mapIdx (numberingOf head keys).apply)

end Jade
