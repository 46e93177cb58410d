import Jade.Proofs.Script.Operations

/-!
# Functions at other places

Builtin functions and the operations of objects do the same at other places.

## Main results

* `Jade.Script.sorted_map` : sorting what a function gives, where the order does not depend on it
* `Jade.Script.moves_callBuiltin`, `moves_callMethod` : functions by name and operations of objects
* `Jade.Script.moves_callObject` : calls
-/

namespace Jade.Script

variable {α β : Type} {m : Motion}

/-! ## Sorting -/

section Sorting

variable {lt : α → α → Except Fault Bool} {lt' : β → β → Except Fault Bool} {f : α → β}
  (h : ∀ a b, lt' (f a) (f b) = lt a b)

include h

theorem runLength_map (falling : Bool) (xs : List α) :
    ∀ x, runLength lt' falling (f x) (xs.map f) = runLength lt falling x xs := by
  induction xs with
  | nil => exact fun _ => rfl
  | cons y ys ih =>
    intro x
    rw [List.map_cons, runLength, runLength, h, ih]

theorem headRun_map (xs : List α) :
    headRun lt' (xs.map f) = (headRun lt xs).map (Prod.map id (List.map f)) := by
  rcases xs with _ | ⟨x, _ | ⟨y, ys⟩⟩
  · rfl
  · rfl
  · simp only [List.map_cons, headRun, h, runLength_map h]
    rcases lt y x with e | falling
    · rfl
    · rcases hn : runLength lt falling y ys with e | n
      · simp [hn, bind, Except.bind, Except.map]
      · cases falling with
        | false => simp [hn, bind, Except.bind, Except.map, pure, Except.pure]
        | true =>
          simp [hn, bind, Except.bind, Except.map, pure, Except.pure, List.map_drop, List.map_take]

theorem insertionPlace_map (pivot : α) (front : List α)
    (fuel : Nat) : ∀ lo hi, insertionPlace lt' (f pivot) (front.map f) fuel lo hi =
      insertionPlace lt pivot front fuel lo hi := by
  induction fuel with
  | zero => exact fun _ _ => rfl
  | succ fuel ih =>
    intro lo hi
    simp only [insertionPlace, List.getElem?_map, ih]
    rcases front[lo + (hi - lo) / 2]? with _ | x
    · rfl
    · simp only [Option.map_some, h]

theorem insertAll_map (rest : List α) :
    ∀ front, insertAll lt' (front.map f) (rest.map f) =
      Prod.map id (List.map f) (insertAll lt front rest) := by
  induction rest with
  | nil => exact fun _ => rfl
  | cons x rest ih =>
    intro front
    simp only [List.map_cons, insertAll, List.length_map, insertionPlace_map h]
    rcases insertionPlace lt x front (front.length + 1) 0 front.length with e | i
    · simp
    · dsimp only
      rw [← ih]
      simp

theorem sortWith_map (xs : List α) :
    sortWith lt' (xs.map f) = Prod.map id (List.map f) (sortWith lt xs) := by
  rw [sortWith, sortWith, headRun_map h]
  rcases headRun lt xs with e | ⟨n, ys⟩
  · rfl
  · simp only [Except.map, Prod.map_apply, id, ← List.map_take, ← List.map_drop]
    exact insertAll_map h _ _

theorem sorted_map (falling : Bool) (xs : List α) :
    sorted lt' falling (xs.map f) = (sorted lt falling xs).map (List.map f) := by
  cases falling with
  | false =>
    simp only [sorted, sortWithDir, sortWith_map h, Bool.false_eq_true, if_false]
    rcases sortWith lt xs with ⟨e | _, ys⟩
    · rfl
    · rfl
  | true =>
    simp only [sorted, sortWithDir, ← List.map_reverse, sortWith_map h, if_true]
    rcases sortWith lt xs.reverse with ⟨e | _, ys⟩
    · rfl
    · simp only [Prod.map_apply, id, Except.map, List.map_reverse]

end Sorting

/-! ## Arguments by name -/

theorem moves_noNamed (named : Named) :
    Moves m id (noNamed named) (noNamed (named.map m.moveNamed)) := by
  rw [noNamed, noNamed, List.isEmpty_map]
  exact moves_unless _ (moves_throw _)

theorem moves_onlyNamed (known : List String) (named : Named) :
    Moves m id (onlyNamed known named) (onlyNamed known (named.map m.moveNamed)) := by
  rw [onlyNamed, onlyNamed, List.all_map]
  exact moves_unless _ (moves_throw _)

theorem lookup_moveNamed (name : String) (named : Named) :
    (named.map m.moveNamed).lookup name = (named.lookup name).map m.move := by
  induction named with
  | nil => rfl
  | cons p named ih =>
    obtain ⟨k, o⟩ := p
    rw [List.map_cons, Motion.moveNamed, List.lookup_cons, List.lookup_cons, ih]
    cases name == k with
    | false => rfl
    | true => rfl

theorem getD_lookup_moveNamed {o : Object} (h : m.move o = o) (name : String) (named : Named) :
    ((named.map m.moveNamed).lookup name).getD o = m.move ((named.lookup name).getD o) := by
  rw [lookup_moveNamed]
  cases named.lookup name with
  | none => exact h.symm
  | some o' => rfl

/-! ## Plain functions -/

theorem toInt_move (o : Object) : toInt (m.move o) = toInt o := by
  cases o <;> rfl

theorem callInt_move (args : List Object) :
    callInt (args.map m.move) = (callInt args).map m.move := by
  rcases args with _ | ⟨o, _ | ⟨base, _ | ⟨o', rest⟩⟩⟩
  · rfl
  · simp only [List.map_cons, List.map_nil, callInt, toInt_move]
    rcases toInt o with e | n
    · rfl
    · rfl
  · simp only [List.map_cons, List.map_nil, callInt, m.int?_move]
    rcases base.int? with _ | b
    · rfl
    · dsimp only
      split
      · cases o with
        | text s =>
          rw [Motion.move]
          dsimp only
          split
          · rfl
          · rfl
        | _ => rfl
      · rfl
  · rfl

theorem callRange_move (args : List Object) :
    callRange (args.map m.move) = (callRange args).map m.move := by
  have hints : (args.map m.move).map Object.int? = args.map Object.int? := by
    rw [List.map_map]
    exact List.map_congr_left fun o _ => m.int?_move o
  rw [callRange, callRange, hints]
  split
  · rfl
  · rfl
  · split
    · rfl
    · rfl
  · rfl

theorem moves_sizeOf (o : Object) : Moves m id (sizeOf? o) (sizeOf? (m.move o)) := by
  refine (moves_snapshot o).next fun v => ?_
  rcases v.size? with _ | n
  · exact moves_throw _
  · exact moves_pure n

theorem moves_addAll (os : List Object) : ∀ acc : Object,
    Moves m m.move (addAll acc os) (addAll (m.move acc) (os.map m.move)) := by
  induction os with
  | nil => exact moves_pure
  | cons o os ih => exact fun acc => (moves_arithmetic .add acc o).bind ih

theorem numbered_move (os : List Object) : ∀ start : Int,
    numbered start (os.map m.move) = (numbered start os).map m.move := by
  induction os with
  | nil => exact fun _ => rfl
  | cons o os ih =>
    intro start
    rw [List.map_cons, numbered, numbered, List.map_cons, ih, m.move_tuple]
    rfl

theorem zipLists_move (fuel : Nat) : ∀ lists : List (List Object),
    zipLists (lists.map (List.map m.move)) fuel = (zipLists lists fuel).map m.move := by
  induction fuel with
  | zero => exact fun _ => rfl
  | succ fuel ih =>
    intro lists
    have hany : (lists.map (List.map m.move)).any List.isEmpty = lists.any List.isEmpty := by
      rw [List.any_map]
      congr 1
      funext xs
      exact List.isEmpty_map
    have htails : (lists.map (List.map m.move)).map List.tail =
        (lists.map List.tail).map (List.map m.move) := by
      rw [List.map_map, List.map_map]
      exact List.map_congr_left fun xs _ => List.map_tail.symm
    have hheads : (lists.map (List.map m.move)).filterMap List.head? =
        (lists.filterMap List.head?).map m.move := by
      rw [List.filterMap_map, List.map_filterMap]
      exact List.filterMap_congr fun xs _ => List.head?_map
    rw [zipLists, zipLists, List.isEmpty_map, hany, htails, hheads, ih]
    split
    · rfl
    · rw [List.map_cons, m.move_tuple]

theorem moves_membersOfAll (os : List Object) :
    Moves m (List.map (List.map m.move)) (membersOfAll os) (membersOfAll (os.map m.move)) := by
  induction os with
  | nil => exact moves_pure []
  | cons o os ih =>
    exact (moves_members o).bind fun xs => ih.bind fun rest => moves_pure (xs :: rest)

theorem namedPairs_move (named : Named) :
    namedPairs (named.map m.moveNamed) = (namedPairs named).map m.move := by
  rw [namedPairs, namedPairs, List.map_map, List.map_map]
  exact List.map_congr_left fun p _ => (m.move_ofPair (.text p.1, p.2)).symm

theorem moves_callDict (args : List Object) (named : Named) :
    Moves m m.move (callDict args named)
      (callDict (args.map m.move) (named.map m.moveNamed)) := by
  rcases args with _ | ⟨o, _ | ⟨o', os⟩⟩
  · have h := moves_tableOf (m := m) (namedPairs named)
    rwa [← namedPairs_move] at h
  · refine (moves_pairsIn o).bind fun os => ?_
    rw [namedPairs_move, ← List.map_append]
    exact moves_tableOf _
  · exact moves_throw _

theorem moves_displayText (o : Object) : Moves m id (displayText o) (displayText (m.move o)) :=
  (moves_snapshot o).next fun v => moves_pure v.display

theorem moves_callStr (args : List Object) :
    Moves m m.move (callStr args) (callStr (args.map m.move)) := by
  rcases args with _ | ⟨o, _ | ⟨encoding, rest⟩⟩
  · exact moves_pure (Object.text "")
  · cases o <;> exact (moves_displayText _).next fun t => moves_pure (Object.text t)
  · cases o with
    | bytes bs =>
      rw [List.map_cons, Motion.move, List.map_cons]
      unfold callStr
      dsimp only
      split
      · exact moves_pure _
      · exact moves_throw _
    | _ => exact moves_throw _

/-- The names of the functions that take no other function. -/
def plainFunctions : List String :=
  ["len", "str", "int", "list", "tuple", "bool", "repr", "abs", "range", "sum", "enumerate", "zip",
   "dict"]

theorem callPlain_of_not_mem {name : String} (h : name ∉ plainFunctions) (args : List Object)
    (named : Named) : callPlain name args named = throw .wrongType := by
  unfold callPlain
  split
  case h_19 => rfl
  all_goals exact absurd (by decide) h

theorem moves_plain {act act' : Eval Object} (named : Named) (h : Moves m m.move act act') :
    Moves m m.move (noNamed named >>= fun _ => act)
      (noNamed (named.map m.moveNamed) >>= fun _ => act') :=
  (moves_noNamed named).next fun _ => h

theorem moves_enumerate (o start : Object) :
    Moves m m.move
      (match start.int? with
        | some n => do Eval.newStream "enumerate" (numbered n (← members o))
        | none => throw .wrongType)
      (match (m.move start).int? with
        | some n => do Eval.newStream "enumerate" (numbered n (← members (m.move o)))
        | none => throw .wrongType) := by
  rw [m.int?_move]
  rcases start.int? with _ | n
  · exact moves_throw _
  · refine (moves_members o).bind fun os => ?_
    rw [numbered_move]
    exact moves_newStream "enumerate" (numbered n os)

theorem moves_zip (args : List Object) :
    Moves m m.move
      (do
        let lists ← membersOfAll args
        Eval.newStream "zip" (zipLists lists ((lists.map List.length).foldl max 0)))
      (do
        let lists ← membersOfAll (args.map m.move)
        Eval.newStream "zip" (zipLists lists ((lists.map List.length).foldl max 0))) := by
  refine (moves_membersOfAll args).bind fun lists => ?_
  have hlengths : (lists.map (List.map m.move)).map List.length = lists.map List.length := by
    rw [List.map_map]
    exact List.map_congr_left fun xs _ => List.length_map m.move
  rw [hlengths, zipLists_move]
  exact moves_newStream "zip" _

theorem moves_callPlain (name : String) (args : List Object) (named : Named) :
    Moves m m.move (callPlain name args named)
      (callPlain name (args.map m.move) (named.map m.moveNamed)) := by
  by_cases hname : name ∈ plainFunctions
  · simp only [plainFunctions, List.mem_cons, List.not_mem_nil, or_false] at hname
    rcases hname with rfl | rfl | rfl | rfl | rfl | rfl | rfl | rfl | rfl | rfl | rfl | rfl | rfl
    · -- the number of members
      rcases args with _ | ⟨o, _ | ⟨o', os⟩⟩
      · exact moves_throw _
      · exact moves_plain named ((moves_sizeOf o).next fun n => moves_pure (Object.int n))
      · exact moves_throw _
    · exact moves_plain named (moves_callStr args)
    · exact moves_plain named (moves_except (callInt_move args))
    · -- lists
      rcases args with _ | ⟨o, _ | ⟨o', os⟩⟩
      · exact moves_plain named (moves_newList [])
      · exact moves_plain named ((moves_members o).bind moves_newList)
      · exact moves_throw _
    · -- tuples
      rcases args with _ | ⟨o, _ | ⟨o', os⟩⟩
      · exact moves_plain named (moves_return (m.move_tuple []))
      · exact moves_plain named ((moves_members o).bind fun os => moves_return (m.move_tuple os))
      · exact moves_throw _
    · -- truth values
      rcases args with _ | ⟨o, _ | ⟨o', os⟩⟩
      · exact moves_plain named (moves_pure (Object.bool false))
      · exact moves_plain named ((moves_truthy o).next fun b => moves_pure (Object.bool b))
      · exact moves_throw _
    · -- how an object is shown inside others
      rcases args with _ | ⟨o, _ | ⟨o', os⟩⟩
      · exact moves_throw _
      · exact moves_plain named ((moves_snapshot o).next fun v => moves_pure (Object.text v.inside))
      · exact moves_throw _
    · -- the amount of a number
      rcases args with _ | ⟨o, _ | ⟨o', os⟩⟩
      · exact moves_throw _
      · refine moves_plain named ?_
        rw [m.number?_move]
        rcases o.number? with _ | (n | x)
        · exact moves_throw _
        · exact moves_pure _
        · exact moves_pure _
      · exact moves_throw _
    · exact moves_plain named (moves_except (callRange_move args))
    · -- sums
      rcases args with _ | ⟨o, _ | ⟨start, _ | ⟨o', os⟩⟩⟩
      · exact moves_throw _
      · refine (moves_onlyNamed ["start"] named).next fun _ => (moves_members o).bind fun os => ?_
        rw [getD_lookup_moveNamed rfl]
        exact moves_addAll os _
      · refine moves_plain named ?_
        cases start with
        | text | bytes => exact moves_throw _
        | _ => exact (moves_members o).bind fun os => moves_addAll os _
      · exact moves_throw _
    · -- objects with their numbers
      rcases args with _ | ⟨o, _ | ⟨start, _ | ⟨o', os⟩⟩⟩
      · exact moves_throw _
      · refine (moves_onlyNamed ["start"] named).next fun _ => ?_
        rw [getD_lookup_moveNamed rfl]
        exact moves_enumerate o _
      · exact moves_plain named (moves_enumerate o start)
      · exact moves_throw _
    · exact (moves_onlyNamed ["strict"] named).next fun _ => moves_zip args
    · exact moves_callDict args named
  · rw [callPlain_of_not_mem hname, callPlain_of_not_mem hname]
    exact moves_throw _

/-! ## Order -/

/-- An object with the value that decides its place in the order. -/
def Motion.moveKeyed (m : Motion) (p : Value × Object) : Value × Object := (p.1, m.move p.2)

theorem moves_sortKeys (key : Object) (os : List Object) :
    Moves m (List.map m.moveKeyed) (sortKeys key os) (sortKeys (m.move key) (os.map m.move)) := by
  induction os with
  | nil => exact moves_pure []
  | cons o os ih =>
    rw [List.map_cons]
    unfold sortKeys
    extract_lets rest rest'
    have hrest (k : Object) : Moves m (List.map m.moveKeyed) (rest k) (rest' (m.move k)) :=
      (moves_snapshot k).next fun v => ih.bind fun keyed => moves_pure ((v, o) :: keyed)
    clear_value rest rest'
    cases key with
    | none => exact (moves_pure o).bind hrest
    | builtin name => exact (moves_callPlain name [o] []).bind hrest
    | _ => exact (moves_throw _).bind hrest

theorem moves_sortedMembers (o : Object) (named : Named) :
    Moves m m.move (sortedMembers o named)
      (sortedMembers (m.move o) (named.map m.moveNamed)) := by
  refine (moves_onlyNamed ["key", "reverse"] named).next fun _ => ?_
  refine (moves_members o).bind fun os => ?_
  rw [getD_lookup_moveNamed rfl]
  refine (moves_sortKeys _ os).bind fun keyed => ?_
  extract_lets rest rest'
  have hrest (falling : Bool) : Moves m m.move (rest falling) (rest' falling) := by
    refine (moves_except (sorted_map (fun _ _ => rfl) falling keyed)).bind fun done => ?_
    have hdone : (done.map m.moveKeyed).map Prod.snd = (done.map Prod.snd).map m.move := by
      rw [List.map_map, List.map_map]
      rfl
    rw [hdone]
    exact moves_newList _
  clear_value rest rest'
  rw [lookup_moveNamed]
  rcases named.lookup "reverse" with _ | r
  · exact (moves_pure false).next hrest
  · exact (moves_truthy r).next hrest

theorem extreme_moveKeyed (op : Value.Comparison) (xs : List (Value × Object)) :
    ∀ best : Value × Object, extreme op (m.moveKeyed best) (xs.map m.moveKeyed) =
      (extreme op best xs).map m.move := by
  induction xs with
  | nil => exact fun _ => rfl
  | cons x xs ih =>
    intro best
    rw [List.map_cons, extreme, extreme, ih, ih]
    simp only [Motion.moveKeyed]
    rcases Value.holds op x.1 best.1 with e | b
    · rfl
    · cases b with
      | false => rfl
      | true => rfl

theorem moves_callExtreme (op : Value.Comparison) (args : List Object) (named : Named) :
    Moves m m.move (callExtreme op args named)
      (callExtreme op (args.map m.move) (named.map m.moveNamed)) := by
  refine (moves_onlyNamed ["key", "default"] named).next fun _ => ?_
  extract_lets rest rest'
  have hrest (os : List Object) : Moves m m.move (rest os) (rest' (os.map m.move)) := by
    simp only [rest, rest']
    rw [getD_lookup_moveNamed rfl, lookup_moveNamed]
    refine (moves_sortKeys _ os).bind fun keyed => ?_
    cases keyed with
    | nil =>
      rcases named.lookup "default" with _ | o
      · exact moves_throw _
      · exact moves_pure o
    | cons x xs => exact moves_except (extreme_moveKeyed op xs x)
  clear_value rest rest'
  rcases args with _ | ⟨o, _ | ⟨o', os⟩⟩
  · exact (moves_throw _).bind hrest
  · exact (moves_members o).bind hrest
  · rw [lookup_moveNamed, Option.isSome_map]
    exact moves_ite ((moves_throw _).bind hrest) ((moves_pure (o :: o' :: os)).bind hrest)

theorem callBuiltin_of_not_mem {name : String} (h : name ∉ ["sorted", "min", "max"])
    (args : List Object) (named : Named) :
    callBuiltin name args named = callPlain name args named := by
  unfold callBuiltin
  split
  case h_4 => rfl
  all_goals exact absurd (by decide) h

theorem moves_callBuiltin (name : String) (args : List Object) (named : Named) :
    Moves m m.move (callBuiltin name args named)
      (callBuiltin name (args.map m.move) (named.map m.moveNamed)) := by
  by_cases hname : name ∈ ["sorted", "min", "max"]
  · simp only [List.mem_cons, List.not_mem_nil, or_false] at hname
    rcases hname with rfl | rfl | rfl
    · rcases args with _ | ⟨o, _ | ⟨o', os⟩⟩
      · exact moves_callPlain "sorted" [] named
      · exact moves_sortedMembers o named
      · exact moves_callPlain "sorted" (o :: o' :: os) named
    · exact moves_callExtreme .lt args named
    · exact moves_callExtreme .gt args named
  · rw [callBuiltin_of_not_mem hname, callBuiltin_of_not_mem hname]
    exact moves_callPlain name args named

/-! ## Operations of objects -/

theorem memberOf_move (o : Object) (name : String) :
    memberOf (m.move o) name = (memberOf o name).map m.move := by
  cases o with
  | text | dict | list =>
    unfold memberOf
    dsimp only [Motion.move]
    split
    · rfl
    · rfl
  | _ => rfl

theorem allTexts_move (os : List Object) : allTexts (os.map m.move) = allTexts os := by
  induction os with
  | nil => rfl
  | cons o os ih =>
    cases o with
    | text s =>
      rw [List.map_cons, Motion.move, allTexts, allTexts, ih]
    | _ => rfl

theorem splitText_move (s : String) (sep : Object) (cuts : Int) :
    splitText s (m.move sep) cuts = splitText s sep cuts := by
  cases sep <;> rfl

theorem argument_move {o : Object} (h : m.move o = o) (args : List Object) (named : Named) (i : Nat)
    (name : String) : argument (args.map m.move) (named.map m.moveNamed) i name o =
      m.move (argument args named i name o) := by
  rw [argument, argument, List.getElem?_map, getD_lookup_moveNamed h]
  cases args[i]? <;> rfl

theorem moves_split (s : String) (args : List Object) (named : Named) :
    Moves m m.move (callText s "split" args named)
      (callText s "split" (args.map m.move) (named.map m.moveNamed)) := by
  refine (moves_onlyNamed ["sep", "maxsplit"] named).next fun _ => ?_
  rw [List.length_map, argument_move rfl, m.int?_move, argument_move rfl]
  extract_lets rest rest'
  have hrest (u : Unit) : Moves m m.move (rest u) (rest' u) := by
    simp only [rest, rest', splitText_move]
    rcases (argument args named 1 "maxsplit" (.int (-1))).int? with _ | cuts
    · exact moves_throw _
    · refine (moves_except_self _).next fun pieces => ?_
      have htexts : (pieces.map Object.text).map m.move = pieces.map Object.text := by
        rw [List.map_map]
        rfl
      have hlist := moves_newList (m := m) (pieces.map Object.text)
      rwa [htexts] at hlist
  exact moves_ite ((moves_throw _).next hrest) (hrest ())

/-- The names of the operations of texts. -/
def textOperations : List String := ["upper", "strip", "split", "join"]

theorem callText_of_not_mem {name : String} (h : name ∉ textOperations) (s : String)
    (args : List Object) (named : Named) : callText s name args named = throw .wrongType := by
  unfold callText
  split
  case h_7 => rfl
  all_goals exact absurd (by decide) h

theorem moves_callText (s name : String) (args : List Object) (named : Named) :
    Moves m m.move (callText s name args named)
      (callText s name (args.map m.move) (named.map m.moveNamed)) := by
  by_cases hname : name ∈ textOperations
  · simp only [textOperations, List.mem_cons, List.not_mem_nil, or_false] at hname
    rcases hname with rfl | rfl | rfl | rfl
    · cases args with
      | nil => exact moves_plain named (moves_pure _)
      | cons o os => exact moves_throw _
    · rcases args with _ | ⟨o, _ | ⟨o', os⟩⟩
      · exact moves_plain named (moves_pure _)
      · cases o with
        | none => exact moves_plain named (moves_pure _)
        | text chars => exact moves_plain named (moves_pure _)
        | _ => exact moves_throw _
      · cases o <;> exact moves_throw _
    · exact moves_split s args named
    · rcases args with _ | ⟨o, _ | ⟨o', os⟩⟩
      · exact moves_throw _
      · refine moves_plain named ((moves_members o).bind fun os => ?_)
        rw [allTexts_move]
        exact (moves_except_self _).next fun ts => moves_pure _
      · exact moves_throw _
  · rw [callText_of_not_mem hname, callText_of_not_mem hname]
    exact moves_throw _

theorem moves_getOr (p : Nat) (k o : Object) :
    Moves m m.move (getOr p k o) (getOr (m.place p) (m.move k) (m.move o)) := by
  refine (moves_requireKey k).next fun _ => (moves_table p).bind fun ps =>
    (moves_lookupKey k ps).bind fun found => moves_return ?_
  cases found with
  | none => rfl
  | some o' => rfl

theorem moves_setDefault (p : Nat) (k o : Object) :
    Moves m m.move (setDefault p k o) (setDefault (m.place p) (m.move k) (m.move o)) := by
  refine (moves_requireKey k).next fun _ => (moves_table p).bind fun ps =>
    (moves_lookupKey k ps).bind fun found => ?_
  cases found with
  | none => exact (moves_put p k o).next fun _ => moves_pure o
  | some v => exact moves_pure v

/-- The names of the operations of tables. -/
def tableOperations : List String := ["get", "items", "update", "setdefault", "copy"]

theorem callTable_of_not_mem {name : String} (h : name ∉ tableOperations) (p : Nat)
    (args : List Object) (named : Named) : callTable p name args named = throw .wrongType := by
  unfold callTable
  split
  case h_9 => rfl
  all_goals exact absurd (by decide) h

theorem moves_callTable (p : Nat) (name : String) (args : List Object) (named : Named) :
    Moves m m.move (callTable p name args named)
      (callTable (m.place p) name (args.map m.move) (named.map m.moveNamed)) := by
  have hupdate (os : List Object) : Moves m m.move (do putAll p os; return .none)
      (do putAll (m.place p) (os.map m.move); return .none) :=
    (moves_putAll p os).next fun _ => moves_pure Object.none
  by_cases hname : name ∈ tableOperations
  · simp only [tableOperations, List.mem_cons, List.not_mem_nil, or_false] at hname
    rcases hname with rfl | rfl | rfl | rfl | rfl
    · rcases args with _ | ⟨k, _ | ⟨o, _ | ⟨o', os⟩⟩⟩
      · exact moves_throw _
      · exact moves_plain named (moves_getOr p k .none)
      · exact moves_plain named (moves_getOr p k o)
      · exact moves_throw _
    · cases args with
      | nil => exact moves_plain named (moves_pure (Object.pairs p))
      | cons o os => exact moves_throw _
    · rcases args with _ | ⟨o, _ | ⟨o', os⟩⟩
      · have h := hupdate (namedPairs named)
        rwa [← namedPairs_move] at h
      · refine (moves_pairsIn o).bind fun os => ?_
        rw [namedPairs_move, ← List.map_append]
        exact hupdate _
      · exact moves_throw _
    · rcases args with _ | ⟨k, _ | ⟨o, _ | ⟨o', os⟩⟩⟩
      · exact moves_throw _
      · exact moves_plain named (moves_setDefault p k .none)
      · exact moves_plain named (moves_setDefault p k o)
      · exact moves_throw _
    · cases args with
      | nil =>
        exact moves_plain named ((moves_cell p).bind fun os => (moves_alloc os).bind fun q =>
          moves_pure (Object.dict q))
      | cons o os => exact moves_throw _
  · rw [callTable_of_not_mem hname, callTable_of_not_mem hname]
    exact moves_throw _

theorem moves_replace (p : Nat) (os : List Object) :
    Moves m m.move (do Eval.setCell p os; return .none)
      (do Eval.setCell (m.place p) (os.map m.move); return .none) :=
  (moves_setCell p os).next fun _ => moves_pure Object.none

theorem moves_popAt (p : Nat) (i : Int) :
    Moves m m.move (popAt p i) (popAt (m.place p) i) := by
  refine (moves_cell p).bind fun os => (moves_except (elementAt_map m.move os i)).bind fun o => ?_
  rw [List.length_map]
  refine (moves_except_self (indexIn os.length i)).next fun j => ?_
  rw [List.eraseIdx_map]
  exact (moves_setCell p _).next fun _ => moves_pure o

/-- The names of the operations of lists. -/
def listOperations : List String := ["append", "extend", "insert", "pop", "clear", "copy"]

theorem callList_of_not_mem {name : String} (h : name ∉ listOperations) (p : Nat)
    (args : List Object) : callList p name args = throw .wrongType := by
  unfold callList
  split
  case h_8 => rfl
  all_goals exact absurd (by decide) h

theorem moves_callList (p : Nat) (name : String) (args : List Object) :
    Moves m m.move (callList p name args) (callList (m.place p) name (args.map m.move)) := by
  by_cases hname : name ∈ listOperations
  · simp only [listOperations, List.mem_cons, List.not_mem_nil, or_false] at hname
    rcases hname with rfl | rfl | rfl | rfl | rfl | rfl
    · rcases args with _ | ⟨o, _ | ⟨o', os⟩⟩
      · exact moves_throw _
      · refine (moves_cell p).bind fun os => ?_
        have happend : os.map m.move ++ [m.move o] = (os ++ [o]).map m.move := by
          rw [List.map_append, List.map_singleton]
        rw [happend]
        exact moves_replace p _
      · exact moves_throw _
    · rcases args with _ | ⟨o, _ | ⟨o', os⟩⟩
      · exact moves_throw _
      · refine (moves_members o).bind fun xs => (moves_cell p).bind fun os => ?_
        rw [← List.map_append]
        exact moves_replace p _
      · exact moves_throw _
    · rcases args with _ | ⟨i, _ | ⟨o, _ | ⟨o', os⟩⟩⟩
      · exact moves_throw _
      · exact moves_throw _
      · simp only [List.map_cons, List.map_nil, callList, m.int?_move]
        rcases i.int? with _ | n
        · exact moves_throw _
        · refine (moves_cell p).bind fun os => ?_
          rw [List.length_map, ← List.map_insertIdx]
          exact moves_replace p _
      · exact moves_throw _
    · rcases args with _ | ⟨i, _ | ⟨o', os⟩⟩
      · exact moves_popAt p (-1)
      · simp only [List.map_cons, List.map_nil, callList, m.int?_move]
        rcases i.int? with _ | n
        · exact moves_throw _
        · exact moves_popAt p n
      · exact moves_throw _
    · cases args with
      | nil => exact moves_replace p []
      | cons o os => exact moves_throw _
    · cases args with
      | nil => exact (moves_cell p).bind moves_newList
      | cons o os => exact moves_throw _
  · rw [callList_of_not_mem hname, callList_of_not_mem hname]
    exact moves_throw _

theorem moves_callMethod (self : Object) (name : String) (args : List Object) (named : Named) :
    Moves m m.move (callMethod self name args named)
      (callMethod (m.move self) name (args.map m.move) (named.map m.moveNamed)) := by
  cases self with
  | text s => exact moves_callText s name args named
  | dict p => exact moves_callTable p name args named
  | list p => exact moves_plain named (moves_callList p name args)
  | _ => exact moves_throw _

theorem moves_callObject (f : Object) (args : List Object) (named : Named) :
    Moves m m.move (callObject f args named)
      (callObject (m.move f) (args.map m.move) (named.map m.moveNamed)) := by
  cases f with
  | builtin name => exact moves_callBuiltin name args named
  | method self name => exact moves_callMethod self name args named
  | _ => exact moves_throw _

end Jade.Script
