import Jade.Node.Attributes
import Mathlib.Data.List.SplitBy

/-!
# Removing attributes

Attributes are removed from the list that is walked through. The walk goes on by place, and after a
removal the next attribute stands where the walk has just been. So of neighbours with the name the
first, the third and so on are visited, and for each visit one attribute goes. Of several equal ones
it is the first, which is never one that the walk has still to come to.

All attributes with a name are removed if and only if no two of them are neighbours.

## Main results

* `Jade.Tag.leaves_removeFrom`, `Jade.Tag.passedOver_eq_halvedRuns` : what a walk does to a list
* `Jade.Tag.removeAttribute_removes_iff` : when all attributes with a name are removed
-/

namespace Jade.Tag

/-- A tag with more attributes, set one after the other. -/
def setAll (t : Tag) (calls : List Attribute) : Tag :=
  calls.foldl (fun t a => t.setAttribute a.name a.val a.fixed) t

theorem entries_setAll (t : Tag) (calls : List Attribute) :
    (t.setAll calls).entries = t.entries ++ calls := by
  induction calls generalizing t with
  | nil => exact (List.append_nil _).symm
  | cons a calls ih =>
    have hstep := ih (t.setAttribute a.name a.val a.fixed)
    rwa [setAttribute, List.append_assoc] at hstep

/-- How many attributes have a name. -/
def countNamed (name : String) (entries : List Attribute) : Nat :=
  entries.countP (·.name == name)

/-- When some attributes with a name are removed from a list, `k` of them are left. -/
structure Leaves (name : String) (k : Nat) (former left : List Attribute) : Prop where
  sublist : left.Sublist former
  others : left.filter (·.name != name) = former.filter (·.name != name)
  count : countNamed name left = k

/-- How many attributes with a name a walk leaves: it passes over the one after each that it
removes. -/
def passedOver (name : String) : List Attribute → Nat
  | a :: b :: rest =>
    if a.name = name then countNamed name [b] + passedOver name rest
    else passedOver name (b :: rest)
  | _ => 0

/-- Half of each run of neighbours with a name, rounded down, and all this together. Others are runs
of their own. -/
def halvedRuns (name : String) (entries : List Attribute) : Nat :=
  (entries.splitBy fun a b => a.name == name && b.name == name).foldr (·.length / 2 + ·) 0

/-- No two attributes with a name are neighbours. -/
def Apart (name : String) (entries : List Attribute) : Prop :=
  entries.IsChain fun a b => ¬(a.name = name ∧ b.name = name)

variable {name : String} {k : Nat} {former left : List Attribute}

namespace Leaves

theorem refl (former : List Attribute) : Leaves name (countNamed name former) former former :=
  ⟨.refl _, rfl, rfl⟩

theorem trans {m : Nat} {between : List Attribute} (h : Leaves name m former between)
    (h' : Leaves name k between left) : Leaves name k former left :=
  ⟨h'.sublist.trans h.sublist, h'.others.trans h.others, h'.count⟩

theorem eq_filter_iff (h : Leaves name k former left) :
    left = former.filter (·.name != name) ↔ k = 0 := by
  rw [← h.count, ← h.others, eq_comm, List.filter_eq_self, countNamed, List.countP_eq_zero]
  simp

end Leaves

/-! ## The walk -/

/-- A removal takes one attribute with the name, and none after the place of the visit. -/
theorem leaves_removeAt {a : Attribute} (ha : a.name = name) (seen rest : List Attribute) :
    ∃ seen' : List Attribute, seen'.length = seen.length ∧
      countNamed name seen' = countNamed name seen ∧
      removeAt seen.length a (seen ++ a :: rest) = seen' ++ rest ∧
      Leaves name (countNamed name (seen' ++ rest)) (seen ++ a :: rest) (seen' ++ rest) := by
  rw [removeAt, List.take_left]
  rcases Nat.lt_or_eq_of_le (List.findIdx_le_length : seen.findIdx a.same ≤ _) with h | h
  · -- an equal attribute goes that was passed before, and `a` moves to the place before
    obtain ⟨before, e, after, hseen, hplace, he⟩ : ∃ before e after, seen = before ++ e :: after ∧
        seen.findIdx a.same = before.length ∧ e.name = name := by
      have hsame : a.same seen[seen.findIdx a.same] = true := List.findIdx_getElem
      simp only [Attribute.same, Bool.and_eq_true, beq_iff_eq] at hsame
      refine ⟨seen.take (seen.findIdx a.same), _, seen.drop (seen.findIdx a.same + 1), ?_, ?_,
        hsame.1.1.symm.trans ha⟩
      · rw [List.getElem_cons_drop, List.take_append_drop]
      · rw [List.length_take, Nat.min_eq_left h.le]
    rw [hplace]
    subst hseen
    refine ⟨before ++ after ++ [a], by simp, by simp [countNamed, he, ha], ?_, ?_, ?_, rfl⟩
    · rw [List.append_assoc, List.eraseIdx_append_of_length_le (Nat.le_refl _)]
      simp
    · simp
    · simp [he]
  · rw [h, List.eraseIdx_append_of_length_le (Nat.le_refl _), Nat.sub_self, List.eraseIdx_cons_zero]
    refine ⟨seen, rfl, rfl, rfl, (List.sublist_cons_self a rest).append_left seen, ?_, rfl⟩
    simp [ha]

theorem removeFrom_of_length_le {i : Nat} {entries : List Attribute} (h : entries.length ≤ i)
    (fuel : Nat) : removeFrom name fuel i entries = entries := by
  cases fuel with
  | zero => rfl
  | succ fuel => rw [removeFrom, List.getElem?_eq_none h]

/-- **A walk** leaves as many attributes with the name as it passes over. -/
theorem leaves_removeFrom {fuel : Nat} (seen rest : List Attribute) (h : rest.length ≤ fuel) :
    Leaves name (countNamed name seen + passedOver name rest) (seen ++ rest)
      (removeFrom name fuel seen.length (seen ++ rest)) := by
  induction fuel generalizing seen rest with
  | zero =>
    obtain rfl := List.length_eq_zero_iff.1 (Nat.le_zero.1 h)
    rw [List.append_nil]
    exact .refl _
  | succ fuel ih =>
    match rest with
    | [] =>
      rw [List.append_nil, removeFrom_of_length_le (Nat.le_refl _)]
      exact .refl _
    | a :: rest =>
      have hrest : rest.length ≤ fuel := Nat.le_of_succ_le_succ h
      have hvisit : (seen ++ a :: rest)[seen.length]? = some a := by simp
      simp only [removeFrom, hvisit, beq_iff_eq]
      by_cases ha : a.name = name
      · obtain ⟨seen', hlength, hcount, heq, hleaves⟩ := leaves_removeAt ha seen rest
        rw [if_pos ha, heq, ← hlength, ← hcount]
        refine hleaves.trans ?_
        -- the attribute after the removed one is passed over
        match rest with
        | [] =>
          rw [removeFrom_of_length_le (by simp), List.append_nil]
          exact .refl _
        | b :: rest =>
          have hnext := ih (seen' ++ [b]) rest (Nat.le_of_succ_le hrest)
          simpa [passedOver, countNamed, ha, Nat.add_assoc] using hnext
      · have hnext := ih (seen ++ [a]) rest hrest
        rw [if_neg ha]
        cases rest <;> simpa [passedOver, countNamed, ha] using hnext

theorem passedOver_cons_of_ne {a : Attribute} (ha : a.name ≠ name) (rest : List Attribute) :
    passedOver name (a :: rest) = passedOver name rest := by
  cases rest with
  | nil => rfl
  | cons b rest => rw [passedOver, if_neg ha]

/-- Of a run a walk passes over every second one, and it comes to what follows in any case. -/
theorem passedOver_run (rest : List Attribute) : ∀ {run : List Attribute}, run ≠ [] →
    run.IsChain (fun a b => a.name = name ∧ b.name = name) →
    (∀ a ∈ run.getLast?, ∀ b ∈ rest.head?, ¬(a.name = name ∧ b.name = name)) →
    passedOver name (run ++ rest) = run.length / 2 + passedOver name rest
  | [], hne, _, _ => absurd rfl hne
  | [a], _, _, hend => by
    by_cases ha : a.name = name
    · match rest with
      | [] => simp [passedOver]
      | b :: rest =>
        have hb : b.name ≠ name := fun hb => hend a rfl b rfl ⟨ha, hb⟩
        rw [passedOver_cons_of_ne hb]
        simp [passedOver, ha, hb, countNamed]
    · simp [passedOver_cons_of_ne ha]
  | a :: b :: run, _, hrun, hend => by
    obtain ⟨⟨ha, hb⟩, hrest⟩ := List.isChain_cons_cons.mp hrun
    have hstep : passedOver name (a :: b :: run ++ rest) = 1 + passedOver name (run ++ rest) := by
      simp [passedOver, ha, hb, countNamed]
    rw [hstep, List.length_cons, List.length_cons]
    by_cases hne : run = []
    · subst hne
      rfl
    · rw [passedOver_run rest hne hrest.tail
        (by rwa [List.getLast?_cons_cons, List.getLast?_cons_of_ne_nil hne] at hend)]
      omega

/-- **A walk passes over half of each run**, rounded down. -/
theorem passedOver_eq_halvedRuns (name : String) (entries : List Attribute) :
    passedOver name entries = halvedRuns name entries := by
  obtain ⟨hflat, hne, hchain, hends⟩ := List.splitBy_eq_iff.mp
    (Eq.refl (entries.splitBy fun a b => a.name == name && b.name == name))
  rw [halvedRuns]
  generalize (entries.splitBy fun a b => a.name == name && b.name == name) = runs at *
  subst hflat
  induction runs with
  | nil => simp [passedOver]
  | cons run runs ih =>
    rw [List.mem_cons, not_or, eq_comm] at hne
    have hrun : run.IsChain fun a b => a.name = name ∧ b.name = name := by
      simpa using hchain run (.head _)
    have hend : ∀ a ∈ run.getLast?, ∀ b ∈ runs.flatten.head?, ¬(a.name = name ∧ b.name = name) := by
      intro a ha b hb
      match runs with
      | [] => cases hb
      | [] :: runs => exact absurd (.head _) hne.2
      | (c :: next) :: runs =>
        obtain ⟨hlast, _, hapart⟩ := (List.isChain_cons_cons.mp hends).1
        obtain rfl : c = b := Option.some.inj hb
        rw [List.getLast?_eq_some_getLast hlast] at ha
        obtain rfl := Option.some.inj ha
        simpa using hapart
    rw [List.flatten_cons, List.foldr_cons, passedOver_run _ hne.1 hrun hend,
      ih hne.2 (fun m hm => hchain m (.tail _ hm)) hends.tail]

/-- A walk passes over none with the name exactly if no two of them are neighbours. -/
theorem passedOver_eq_zero_iff (entries : List Attribute) :
    passedOver name entries = 0 ↔ Apart name entries := by
  fun_induction passedOver name entries with
  | case1 a b rest ha ih =>
    cases rest <;> simp_all [Apart, countNamed]
  | case2 a b rest ha ih => simp_all [Apart]
  | case3 entries h =>
    match entries with
    | [] => simp [Apart]
    | [a] => simp [Apart]
    | a :: b :: rest => exact absurd rfl (h a b rest)

/-- **Removing removes all attributes with a name if and only if no two of them are neighbours.** In
every case the others stay in their order, and as many with the name are left as the walk passes
over, which is half of each run of neighbours, rounded down. -/
theorem removeAttribute_removes_iff (tag : Tag) (calls : List Attribute) (name : String) :
    let former := tag.entries ++ calls
    let t := (tag.setAll calls).removeAttribute name
    Leaves name (passedOver name former) former t.entries ∧
      passedOver name former = halvedRuns name former ∧
      (t.entries = former.filter (·.name != name) ↔ Apart name former) ∧
      (t.getAttribute name = none ↔ Apart name former) := by
  intro former t
  have hformer : (tag.setAll calls).entries = former := entries_setAll tag calls
  have hleaves : Leaves name (passedOver name former) former t.entries := by
    have hwalk : Leaves name (0 + _) former (removeFrom name former.length 0 former) :=
      leaves_removeFrom [] former (Nat.le_refl _)
    rw [Nat.zero_add] at hwalk
    rwa [← hformer] at hwalk ⊢
  rw [← passedOver_eq_zero_iff]
  refine ⟨hleaves, passedOver_eq_halvedRuns name former, hleaves.eq_filter_iff, ?_⟩
  rw [← hleaves.count, countNamed, List.countP_eq_zero, getAttribute, Option.map_eq_none_iff,
    List.find?_eq_none]

/-- Of two classes that are neighbours the second is left. -/
theorem removeAttribute_neighbour_left :
    let former : List Attribute := [⟨"class", .text "a", true⟩, ⟨"class", .text "b", true⟩]
    let t := (({ name := "p" } : Tag).setAll former).removeAttribute "class"
    t.entries = [⟨"class", .text "b", true⟩] ∧ former.filter (·.name != "class") = [] ∧
      t.getAttribute "class" = some (.text "b") :=
  ⟨rfl, rfl, rfl⟩

end Jade.Tag
