import Jade.Markup
import Mathlib.Logic.Relation

/-!
# What flattening gives

A row of values is flattened in place, by an index that moves over a row which grows and shrinks
under it. At every moment the values in front of the index are neither lists nor tuples, and the row
holds what it held at first. The index may be below zero, but only between the removal of an empty
sequence and the step forward after it; whenever a value is looked at, the index is inside the row.
So flattening always comes to an end, with what the row held from left to right.

## Main results

* `Jade.Flattening.Holds.step` : a step keeps what is true at every moment
* `Jade.flattenItems_eq` : values are flattened to what they hold
* `Jade.flatten_nested` : flattening is exact, and no index is out of range
-/

namespace Jade

/-! ## What values hold -/

mutual

/-- What a value holds: the leaves of a sequence from left to right, or the value itself. -/
def leaves : Value → List Value
  | .list vs | .tuple vs => leavesAll vs
  | v => [v]

/-- What values hold. -/
def leavesAll : List Value → List Value
  | [] => []
  | v :: vs => leaves v ++ leavesAll vs

end

theorem leavesAll_append (vs ws : List Value) :
    leavesAll (vs ++ ws) = leavesAll vs ++ leavesAll ws := by
  induction vs with
  | nil => simp [leavesAll]
  | cons v vs ih => rw [List.cons_append, leavesAll, leavesAll, ih, List.append_assoc]

theorem leaves_of_nested? {v : Value} {vs : List Value} (h : v.nested? = some vs) :
    leaves v = leavesAll vs := by
  unfold Value.nested? at h
  split at h
  all_goals cases h
  all_goals rw [leaves]

theorem leaves_of_nested?_eq_none {v : Value} (h : v.nested? = none) : leaves v = [v] := by
  cases v with
  | list vs | tuple vs => cases h
  | _ => rfl

theorem leavesAll_of_flat {vs : List Value} (h : ∀ v ∈ vs, v.nested? = none) :
    leavesAll vs = vs := by
  induction vs with
  | nil => rfl
  | cons v vs ih =>
    rw [List.forall_mem_cons] at h
    rw [leavesAll, leaves_of_nested?_eq_none h.1, ih h.2, List.singleton_append]

namespace Flattening

variable {vs : List Value} {s : Flattening}

/-! ## At every moment -/

/-- How many values in front of the row are not looked at any more. -/
def settled (s : Flattening) : Int :=
  match s.phase with
  | .advance => s.index + 1
  | _ => s.index

/-- What is true of a row at every moment, if it held `vs` at first. -/
structure Holds (vs : List Value) (s : Flattening) : Prop where
  kept : leavesAll s.items = vs
  nonneg : 0 ≤ s.settled
  flat : ∀ v ∈ s.items.take s.settled.toNat, v.nested? = none
  inside : s.phase = .look → s.index < s.items.length

theorem holds_start (vs : List Value) : Holds (leavesAll vs) { items := vs } where
  kept := rfl
  nonneg := Int.le_refl 0
  flat v hv := by cases hv
  inside h := by cases h

/-- **A step keeps** what is true at every moment. -/
theorem Holds.step {s' : Flattening} (hs : Holds vs s) (h : Step s s') : Holds vs s' := by
  obtain ⟨hkept, hnonneg, hflat, -⟩ := hs
  cases h with
  | test h => exact ⟨hkept, hnonneg, hflat, fun _ => h⟩
  | advance => exact ⟨hkept, hnonneg, hflat, by simp⟩
  | @leaf front back v hv =>
    simp only [settled, Int.toNat_natCast, List.take_left] at hflat
    have htake : (front ++ v :: back).take (front.length + 1 : Int).toNat = front ++ [v] := by
      rw [show (front.length + 1 : Int).toNat = front.length + 1 by omega]
      simp [List.take_append, List.take_of_length_le]
    refine ⟨hkept, by simp only [settled]; omega, fun w hw => ?_, by simp⟩
    simp only [settled, htake, List.mem_append, List.mem_singleton] at hw
    exact hw.elim (hflat w) fun h => h ▸ hv
  | @empty front back v hv =>
    simp only [settled, Int.toNat_natCast, List.take_left] at hflat
    have hindex : (front.length - 1 + 1 : Int).toNat = front.length := by omega
    refine ⟨?_, by simp only [settled]; omega, fun w hw => ?_, by simp⟩
    · simpa only [leavesAll_append, leavesAll, leaves_of_nested? hv, List.nil_append] using hkept
    · simp only [settled, hindex, List.take_left] at hw
      exact hflat w hw
  | @spread front back ws v hv hws =>
    simp only [settled, Int.toNat_natCast, List.take_left] at hflat
    refine ⟨?_, hnonneg, fun w hw => ?_, fun _ => ?_⟩
    · simpa only [leavesAll_append, leavesAll, leaves_of_nested? hv, List.append_assoc] using hkept
    · simp only [settled, Int.toNat_natCast, List.append_assoc, List.take_left] at hw
      exact hflat w hw
    · have hpos : 0 < ws.length := List.length_pos_iff.2 hws
      simp only [List.length_append]
      omega

/-- A value is looked at only where there is one, so no step is a fault. -/
theorem Holds.step_ne_error (hs : Holds vs s) (fault : Fault) : s.step ≠ .error fault := by
  obtain ⟨items, index, phase⟩ := s
  cases phase with
  | test | advance => simp [Flattening.step]
  | look =>
    have hnonneg : 0 ≤ index := hs.nonneg
    have hinside : index < items.length := hs.inside rfl
    have hget : items[index.toNat]? = some (items[index.toNat]) :=
      List.getElem?_eq_getElem (by omega)
    have hitem : item ⟨items, index, .look⟩ = .ok items[index.toNat] := by
      simp only [item, if_neg (Int.not_lt.2 hnonneg), hget]
    simp only [Flattening.step, hitem, bind, Except.bind]
    split <;> simp [pure, Except.pure]

theorem Holds.flat_of_step (hs : Holds vs s) (h : s.step = .ok none) :
    ∀ v ∈ s.items, v.nested? = none := by
  obtain ⟨items, index, phase⟩ := s
  cases phase with
  | test =>
    have hend : ¬ index < items.length := by simpa [Flattening.step] using h
    have hall : items.take index.toNat = items := List.take_of_length_le (by omega)
    exact fun v hv => hs.flat v (hall.symm ▸ hv)
  | look =>
    cases hitem : item ⟨items, index, .look⟩ with
    | error fault => simp [Flattening.step, hitem, bind, Except.bind] at h
    | ok v =>
      simp only [Flattening.step, hitem, bind, Except.bind] at h
      split at h <;> simp [pure, Except.pure] at h
  | advance => simp [Flattening.step] at h

theorem Holds.run (hs : Holds vs s) : s.run = .ok vs ∧ ∀ v ∈ vs, v.nested? = none := by
  fun_induction Flattening.run s with
  | case1 s fault h => exact absurd h (hs.step_ne_error fault)
  | case2 s h =>
    have hflat := hs.flat_of_step h
    have hitems : s.items = vs := (leavesAll_of_flat hflat).symm.trans hs.kept
    exact ⟨congrArg Except.ok hitems, hitems ▸ hflat⟩
  | case3 s s' h ih => exact ih (hs.step (step_sound h))

/-- What is true at every moment is so after any number of steps. -/
theorem Holds.reaches {s' : Flattening} (hs : Holds vs s)
    (h : Relation.ReflTransGen (fun s s' => s.step = .ok (some s')) s s') : Holds vs s' := by
  induction h with
  | refl => exact hs
  | tail _ hstep ih => exact ih.step (step_sound hstep)

end Flattening

/-! ## All steps -/

/-- **Values are flattened** to what they hold. -/
theorem flattenItems_eq (vs : List Value) : flattenItems vs = .ok (leavesAll vs) :=
  (Flattening.holds_start vs).run.1

/-- **Flattening is exact.** A list or a tuple, however nested and with empty ones anywhere, is
flattened to one of the same type that holds the leaves from left to right, none of them a list or a
tuple. On the way a value is looked at only where the row has one. -/
theorem flatten_nested (vs : List Value) :
    flatten (.list vs) = .ok (.list (leavesAll vs)) ∧
      flatten (.tuple vs) = .ok (.tuple (leavesAll vs)) ∧
      (∀ v ∈ leavesAll vs, v.nested? = none) ∧
      ∀ s : Flattening,
        Relation.ReflTransGen (fun s s' : Flattening => s.step = .ok (some s')) { items := vs } s →
          s.phase = .look → 0 ≤ s.index ∧ s.index < s.items.length := by
  have hflat : flattenItems vs = .ok (leavesAll vs) := flattenItems_eq vs
  refine ⟨?_, ?_, (Flattening.holds_start vs).run.2, fun s hs hlook => ?_⟩
  · simp [flatten, Value.members, Value.members?, hflat, bind, Except.bind, pure, Except.pure]
  · simp [flatten, Value.members, Value.members?, hflat, bind, Except.bind, pure, Except.pure]
  · have hholds := (Flattening.holds_start vs).reaches hs
    have hnonneg : 0 ≤ s.index := by simpa only [Flattening.settled, hlook] using hholds.nonneg
    exact ⟨hnonneg, hholds.inside hlook⟩

/-- The class of a tag that is a sequence: what it holds, with blanks between. -/
theorem classValue_eq (v : Value) :
    classValue v = pure (match v.nested? with
      | some vs => .text (joinWith " " ((leavesAll vs).map Value.display))
      | none => v) := by
  unfold classValue
  cases v.nested? with
  | none => rfl
  | some vs =>
    simp only [flattenItems_eq]
    rfl

end Jade
