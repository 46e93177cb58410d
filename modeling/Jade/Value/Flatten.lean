import Jade.Value

/-!
# Flattening in place

Nested lists and tuples are spliced into the row of values that holds them, while an index moves
over the row. A sequence at the index makes room for its members, and the first of them is looked at
next; an empty one is taken out, with a step back that the step forward after it undoes. So at the
front of the row the index is below zero for a moment.

What a step does is said a second time by rules (`Flattening.Step`), in which the row is cut at the
index. From them it is seen that every step leaves less to do, whatever the row and the index are.

## Main results

* `Jade.Flattening.step_sound` : every step follows a rule
* `Jade.Flattening.Step.work_lt` : there is less to do after each step
-/

namespace Jade

def Value.nested? : Value → Option (List Value)
  | .list vs | .tuple vs => some vs
  | _ => .none

/-- What is done next: see whether a value is left, look at it, or go on to the next one. -/
inductive Flattening.Phase where
  | test
  | look
  | advance
  deriving Repr, DecidableEq

/-- A row of values with an index that moves over it. -/
structure Flattening where
  items : List Value
  index : Int := 0
  phase : Flattening.Phase := .test
  deriving Repr

namespace Flattening

def item (s : Flattening) : Except Fault Value :=
  if s.index < 0 then .error .noSuchPosition
  else match s.items[s.index.toNat]? with
    | none => .error .noSuchPosition
    | some v => .ok v

/-- The row with other values in the place of the one at the index. -/
def splice (s : Flattening) (vs : List Value) : List Value :=
  s.items.take s.index.toNat ++ vs ++ s.items.drop (s.index.toNat + 1)

def step (s : Flattening) : Except Fault (Option Flattening) :=
  match s.phase with
  | .test => .ok (if s.index < s.items.length then some { s with phase := .look } else none)
  | .look => do
    match (← s.item).nested? with
    | none => return some { s with phase := .advance }
    | some [] => return some { items := s.splice [], index := s.index - 1, phase := .advance }
    | some vs => return some { s with items := s.splice vs }
  | .advance => .ok (some { s with index := s.index + 1, phase := .test })

/-! ## The rules of a step -/

/-- What a step does to a row that is cut at the index. -/
inductive Step : Flattening → Flattening → Prop
  | test {items : List Value} {index : Int} (h : index < items.length) :
    Step ⟨items, index, .test⟩ ⟨items, index, .look⟩
  | leaf {front back : List Value} {v : Value} (h : v.nested? = none) :
    Step ⟨front ++ v :: back, front.length, .look⟩ ⟨front ++ v :: back, front.length, .advance⟩
  | empty {front back : List Value} {v : Value} (h : v.nested? = some []) :
    Step ⟨front ++ v :: back, front.length, .look⟩ ⟨front ++ back, front.length - 1, .advance⟩
  | spread {front back vs : List Value} {v : Value} (h : v.nested? = some vs) (hvs : vs ≠ []) :
    Step ⟨front ++ v :: back, front.length, .look⟩ ⟨front ++ vs ++ back, front.length, .look⟩
  | advance {items : List Value} {index : Int} :
    Step ⟨items, index, .advance⟩ ⟨items, index + 1, .test⟩

theorem item_eq_ok {s : Flattening} {v : Value} (h : s.item = .ok v) :
    ∃ front back, s.items = front ++ v :: back ∧ s.index = front.length := by
  unfold item at h
  split at h
  · cases h
  · next hindex =>
    split at h
    · cases h
    · next w hw =>
      cases h
      obtain ⟨hlt, hget⟩ := List.getElem?_eq_some_iff.1 hw
      refine ⟨s.items.take s.index.toNat, s.items.drop (s.index.toNat + 1), ?_, ?_⟩
      · rw [← hget, List.getElem_cons_drop, List.take_append_drop]
      · rw [List.length_take]
        omega

theorem splice_cut (front back vs : List Value) (v : Value) (phase : Phase) :
    splice ⟨front ++ v :: back, front.length, phase⟩ vs = front ++ vs ++ back := by
  simp [splice, List.drop_append]

/-- **Every step follows a rule.** -/
theorem step_sound {s s' : Flattening} (h : s.step = .ok (some s')) : Step s s' := by
  obtain ⟨items, index, phase⟩ := s
  cases phase with
  | test =>
    simp only [step, Except.ok.injEq] at h
    split at h
    · next hindex =>
      cases h
      exact .test hindex
    · cases h
  | look =>
    cases hitem : item ⟨items, index, .look⟩ with
    | error fault =>
      simp only [step, hitem] at h
      cases h
    | ok v =>
      obtain ⟨front, back, hitems, hindex⟩ := item_eq_ok hitem
      dsimp only at hitems hindex
      subst hitems hindex
      simp only [step, hitem, splice_cut] at h
      cases hv : v.nested? with
      | none =>
        simp only [bind, Except.bind, hv] at h
        cases h
        exact .leaf hv
      | some vs =>
        cases vs with
        | nil =>
          simp only [bind, Except.bind, hv, List.append_nil] at h
          cases h
          exact .empty hv
        | cons w ws =>
          simp only [bind, Except.bind, hv] at h
          cases h
          exact .spread hv (List.cons_ne_nil w ws)
  | advance =>
    simp only [step, Except.ok.injEq, Option.some.injEq] at h
    subst h
    exact .advance

end Flattening

/-! ## Fewer values to look at -/

mutual

/-- How many values are looked at before all of a value is spliced in. -/
def Value.weight : Value → Nat
  | .list vs | .tuple vs => weights vs + 1
  | _ => 1

/-- How many values are looked at before all of a row is spliced in. -/
def weights : List Value → Nat
  | [] => 0
  | v :: vs => v.weight + weights vs

end

theorem weights_append (vs ws : List Value) : weights (vs ++ ws) = weights vs + weights ws := by
  induction vs with
  | nil => simp [weights]
  | cons v vs ih => simp [weights, ih, Nat.add_assoc]

theorem Value.weight_of_nested? {v : Value} {vs : List Value} (h : v.nested? = some vs) :
    v.weight = weights vs + 1 := by
  unfold nested? at h
  split at h
  all_goals cases h
  all_goals rw [weight]

theorem Value.one_le_weight (v : Value) : 1 ≤ v.weight := by
  unfold weight
  split <;> omega

namespace Flattening

/-- A bound for the steps that are left: three for each value, less those already made for the one
that is looked at. -/
def work (s : Flattening) : Nat :=
  match s.phase with
  | .test => 3 * weights (s.items.drop s.index.toNat) + 1
  | .look => 3 * weights (s.items.drop s.index.toNat)
  | .advance => 3 * weights (s.items.drop (s.index + 1).toNat) + 2

/-- **There is less to do** after each step. -/
theorem Step.work_lt {s s' : Flattening} (h : Step s s') : s'.work < s.work := by
  cases h with
  | test _ | advance => simp only [work]; omega
  | @leaf front back v _ =>
    have hdrop : (front ++ v :: back).drop (front.length + 1 : Int).toNat = back := by
      rw [show (front.length + 1 : Int).toNat = front.length + 1 by omega]
      simp [List.drop_append]
    have hweight := v.one_le_weight
    simp only [work, hdrop, Int.toNat_natCast, List.drop_left, weights]
    omega
  | @empty front back v hv =>
    have hdrop : (front ++ back).drop (front.length - 1 + 1 : Int).toNat = back := by
      rw [show (front.length - 1 + 1 : Int).toNat = front.length by omega, List.drop_left]
    have hweight := v.one_le_weight
    simp only [work, hdrop, Int.toNat_natCast, List.drop_left, weights]
    omega
  | spread hv _ =>
    simp only [work, Int.toNat_natCast, List.append_assoc, List.drop_left, weights_append, weights,
      Value.weight_of_nested? hv]
    omega

def run (s : Flattening) : Except Fault (List Value) :=
  match _h : s.step with
  | .error fault => .error fault
  | .ok none => .ok s.items
  | .ok (some s') => s'.run
termination_by s.work
decreasing_by exact (step_sound _h).work_lt

end Flattening

end Jade
