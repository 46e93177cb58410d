import Jade.Proofs.Script.Motion

/-!
# Operators at other places

Operators do the same at other places. None of them looks at a place but to ask whether two are the
same, and a motion does not change that.

## Main results

* `Jade.Script.moves_arithmetic`, `moves_compareObjects`, `moves_indexObject`, `moves_sliceObject` :
  the operators
* `Jade.Script.moves_formatText` : texts with values put in
-/

namespace Jade.Script

variable {α β : Type} {m : Motion}

theorem moves_return {f : α → β} {a : α} {b : β} (h : f a = b) :
    Moves m f (pure a) (pure b) :=
  h ▸ moves_pure a

/-- What does not look at the store and gives nothing that has a place. -/
theorem moves_except_self (x : Except Fault α) : Moves m id (liftM x) (liftM x) := by
  refine moves_except ?_
  rw [Except.map_id, id]

/-! ## Numbers -/

@[simp] theorem Motion.number?_move (m : Motion) (o : Object) :
    (m.move o).number? = o.number? := by
  cases o <;> rfl

@[simp] theorem Motion.int?_move (m : Motion) (o : Object) : (m.move o).int? = o.int? := by
  cases o <;> rfl

theorem Motion.move_of_number {o : Object} {a : Value.Number} (h : o.number? = some a) :
    m.move o = o := by
  cases o with
  | bool | int | float => rfl
  | none | text | bytes | list | tuple | dict | range | pairs | stream | builtin | method
    | foreign => cases h

/-- A result without a place. -/
def Motion.Fixes (m : Motion) (x : Except Fault Object) : Prop := x.map m.move = x

theorem Motion.Fixes.ite {c : Prop} [Decidable c] {x y : Except Fault Object} (hx : m.Fixes x)
    (hy : m.Fixes y) : m.Fixes (if c then x else y) := by
  split
  · exact hx
  · exact hy

theorem Motion.fixes_bind {x : Except Fault α} {k : α → Except Fault Object}
    (h : ∀ a, m.Fixes (k a)) : m.Fixes (x >>= k) := by
  rcases x with e | a
  · rfl
  · exact h a

theorem fixes_powInts (a b : Int) : m.Fixes (powInts a b) :=
  .ite rfl (.ite rfl (.ite rfl (m.fixes_bind fun _ => m.fixes_bind fun _ => rfl)))

theorem fixes_intArithmetic (op : BinaryOp) (a b : Int) : m.Fixes (intArithmetic op a b) := by
  cases op with
  | add | sub | mul | bitOr | bitAnd | bitXor => rfl
  | pow => exact fixes_powInts a b
  | div => exact m.fixes_bind fun _ => rfl
  | floorDiv | mod => exact .ite rfl rfl
  | shiftLeft | shiftRight => exact .ite rfl (.ite rfl rfl)

theorem fixes_floatArithmetic (op : BinaryOp) (x y : Binary64) :
    m.Fixes (floatArithmetic op x y) := by
  cases op with
  | add | sub | mul | pow | bitOr | bitAnd | bitXor | shiftLeft | shiftRight => rfl
  | div | floorDiv | mod => exact .ite rfl rfl

theorem fixes_numberArithmetic (op : BinaryOp) (a b : Value.Number) :
    m.Fixes (numberArithmetic op a b) := by
  have hmixed (a b : Value.Number) :
      m.Fixes (do floatArithmetic op (← toBinary a) (← toBinary b)) :=
    m.fixes_bind fun x => m.fixes_bind fun y => fixes_floatArithmetic op x y
  cases a with
  | int a =>
    cases b with
    | int b => exact fixes_intArithmetic op a b
    | float y => exact hmixed (.int a) (.float y)
  | float x => exact hmixed (.float x) b

theorem unaryArithmetic_move (op : UnaryOp) (o : Object) :
    unaryArithmetic op (m.move o) = (unaryArithmetic op o).map m.move := by
  unfold unaryArithmetic
  rw [m.number?_move]
  rcases o.number? with _ | (n | x)
  · rfl
  · cases op <;> rfl
  · cases op <;> rfl

/-! ## Sequences -/

theorem moves_members (o : Object) :
    Moves m (List.map m.move) (members o) (members (m.move o)) := by
  cases o with
  | text s =>
    refine moves_return ?_
    rw [List.map_map]
    rfl
  | bytes bs =>
    refine moves_return ?_
    rw [List.map_map]
    rfl
  | list p => exact moves_cell p
  | tuple os =>
    rw [m.move_tuple]
    exact moves_pure os
  | dict p =>
    refine (moves_table p).bind fun ps => moves_return ?_
    rw [List.map_map, List.map_map]
    rfl
  | range a b c =>
    rw [Motion.move, members]
    split
    · exact moves_throw _
    · refine moves_return ?_
      rw [List.map_map]
      rfl
  | pairs p => exact moves_cell p
  | stream kind p =>
    exact (moves_cell p).bind fun os => (moves_setCell p []).bind fun _ => moves_pure os
  | none | bool | int | float | builtin | method | foreign => exact moves_throw _

theorem moves_firstMembers (n : Nat) (o : Object) :
    Moves m (List.map m.move) (firstMembers n o) (firstMembers n (m.move o)) := by
  have hplain (o : Object) : Moves m (List.map m.move)
      (do return (← members o).take n) (do return (← members (m.move o)).take n) :=
    (moves_members o).bind fun os => moves_return List.map_take
  cases o with
  | stream kind p =>
    refine (moves_cell p).bind fun os => ?_
    rw [← List.map_drop, ← List.map_take]
    exact (moves_setCell p _).bind fun _ => moves_pure _
  | tuple os =>
    have h := hplain (.tuple os)
    rw [m.move_tuple] at h ⊢
    exact h
  | _ => exact hplain _

/-- The first members are those of all members; only what is left of a stream differs, if there is
anything left. -/
theorem run_firstMembers (n : Nat) (o : Object) (s : Store) :
    ∃ s', (firstMembers n o).run.run s = (((members o).run.run s).1.map (List.take n), s') ∧
      (((members o).run.run s).1 = .ok [] → s' = ((members o).run.run s).2) := by
  have hplain (o : Object) : ∃ s', (do return (← members o).take n : Eval (List Object)).run.run s =
      (((members o).run.run s).1.map (List.take n), s') ∧
        (((members o).run.run s).1 = .ok [] → s' = ((members o).run.run s).2) := by
    refine ⟨((members o).run.run s).2, ?_, fun _ => rfl⟩
    rw [Reader.run_bind]
    rcases (members o).run.run s with ⟨f | os, s'⟩ <;> rfl
  cases o with
  | stream kind place =>
    refine ⟨_, rfl, fun hempty => ?_⟩
    have hget : s.get place = [] := Except.ok.inj hempty
    show s.set place ((s.get place).drop n) = s.set place []
    rw [hget, List.drop_nil]
  | _ => exact hplain _

theorem moves_truthy (o : Object) : Moves m id (truthy o) (truthy (m.move o)) :=
  (moves_snapshot o).bind fun v => moves_pure v.truthy

theorem moves_unless {act : Eval Unit} (b : Bool) (h : Moves m id act act) :
    Moves m id (unless b do act) (unless b do act) := by
  cases b with
  | false => exact h
  | true => exact moves_pure ()

theorem moves_requireKey (o : Object) : Moves m id (requireKey o) (requireKey (m.move o)) :=
  (moves_snapshot o).bind fun v => moves_unless v.mayBeKey (moves_throw _)

theorem moves_equal (a b : Object) : Moves m id (equal a b) (equal (m.move a) (m.move b)) :=
  (moves_snapshot a).bind fun v => (moves_snapshot b).bind fun w => moves_pure (v.same w)

theorem moves_lookupKey (k : Object) (ps : List (Object × Object)) :
    Moves m (Option.map m.move) (lookupKey k ps) (lookupKey (m.move k) (ps.map m.movePair)) := by
  induction ps with
  | nil => exact moves_pure none
  | cons p ps ih =>
    refine (moves_equal p.1 k).bind fun b => ?_
    cases b with
    | false => exact ih
    | true => exact moves_pure (some p.2)

theorem moves_storeKey (k v : Object) (ps : List (Object × Object)) :
    Moves m (List.map m.movePair) (storeKey k v ps)
      (storeKey (m.move k) (m.move v) (ps.map m.movePair)) := by
  induction ps with
  | nil => exact moves_pure [(k, v)]
  | cons p ps ih =>
    refine (moves_equal p.1 k).bind fun b => ?_
    cases b with
    | false => exact ih.bind fun qs => moves_pure (p :: qs)
    | true => exact moves_pure ((p.1, v) :: ps)

theorem moves_put (p : Nat) (k v : Object) :
    Moves m id (put p k v) (put (m.place p) (m.move k) (m.move v)) :=
  (moves_requireKey k).bind fun _ => (moves_table p).bind fun ps =>
    (moves_storeKey k v ps).bind fun ps => moves_setTable p ps

theorem moves_pairMembers (o : Object) :
    Moves m m.movePair (pairMembers o) (pairMembers (m.move o)) := by
  refine (moves_members o).bind fun xs => ?_
  rcases xs with _ | ⟨k, _ | ⟨v, _ | ⟨x, xs⟩⟩⟩
  · exact moves_throw _
  · exact moves_throw _
  · exact moves_pure (k, v)
  · exact moves_throw _

theorem moves_putAll (p : Nat) (os : List Object) :
    Moves m id (putAll p os) (putAll (m.place p) (os.map m.move)) := by
  induction os with
  | nil => exact moves_pure ()
  | cons o os ih =>
    exact (moves_pairMembers o).bind fun (k, v) => (moves_put p k v).bind fun _ => ih

theorem moves_tableOf (os : List Object) :
    Moves m m.move (tableOf os) (tableOf (os.map m.move)) :=
  (moves_alloc []).bind fun p => (moves_putAll p os).bind fun _ => moves_pure (Object.dict p)

theorem moves_pairsIn (o : Object) :
    Moves m (List.map m.move) (pairsIn o) (pairsIn (m.move o)) := by
  cases o with
  | dict p => exact moves_cell p
  | tuple os =>
    have h := moves_members (m := m) (.tuple os)
    rw [m.move_tuple] at h ⊢
    exact h
  | _ => exact moves_members _

theorem moves_repeatList (f : α → β) (n : Int) (xs : List α) :
    Moves m (List.map f) (repeatList n xs) (repeatList n (xs.map f)) := by
  rw [repeatList, repeatList, List.isEmpty_map, List.length_map]
  split
  · exact moves_pure []
  · split
    · exact moves_throw _
    · refine moves_return ?_
      rw [List.map_flatten, List.map_replicate]

theorem moves_repeatList_self (n : Int) (xs : List α) :
    Moves m id (repeatList n xs) (repeatList n xs) := by
  have h := moves_repeatList (m := m) id n xs
  rwa [List.map_id_fun, id] at h

theorem moves_repeatObject (o : Object) (n : Int) :
    Moves m m.move (repeatObject o n) (repeatObject (m.move o) n) := by
  cases o with
  | text s => exact (moves_repeatList_self n s.toList).bind fun cs => moves_pure _
  | bytes bs => exact (moves_repeatList_self n bs).bind fun bs => moves_pure _
  | list p =>
    exact (moves_cell p).bind fun os =>
      (moves_repeatList m.move n os).bind fun os => moves_newList os
  | tuple os =>
    rw [m.move_tuple]
    exact (moves_repeatList m.move n os).bind fun os => moves_return (m.move_tuple os)
  | none | bool | int | float | dict | range | pairs | stream | builtin | method | foreign =>
    exact moves_throw _

theorem moves_arithmetic_of_not {l r : Object} (op : BinaryOp)
    (h : ∀ a b, l.number? = some a → r.number? = some b → False) :
    Moves m m.move (arithmetic op l r) (arithmetic op (m.move l) (m.move r)) := by
  unfold arithmetic
  rw [m.number?_move, m.number?_move]
  split
  · next a b ha hb => exact (h a b ha hb).elim
  · cases op with
    | add =>
      cases l with
      | text a =>
        cases r with
        | text b => exact moves_pure _
        | _ => exact moves_throw _
      | bytes a =>
        cases r with
        | bytes b => exact moves_pure _
        | _ => exact moves_throw _
      | list a =>
        cases r with
        | list b =>
          refine (moves_cell a).bind fun as => (moves_cell b).bind fun bs => ?_
          rw [← List.map_append]
          exact moves_newList (as ++ bs)
        | _ => exact moves_throw _
      | tuple a =>
        cases r with
        | tuple b =>
          rw [m.move_tuple, m.move_tuple]
          refine moves_return ?_
          rw [m.move_tuple, List.map_append]
        | _ => exact moves_throw _
      | _ => exact moves_throw _
    | bitOr =>
      cases l with
      | dict a =>
        cases r with
        | dict b =>
          refine (moves_cell a).bind fun as => (moves_cell b).bind fun bs => ?_
          rw [← List.map_append]
          exact moves_tableOf (as ++ bs)
        | _ => exact moves_throw _
      | _ => exact moves_throw _
    | mul =>
      dsimp only
      rw [m.int?_move, m.int?_move]
      rcases l.int? with _ | n
      · rcases r.int? with _ | k
        · exact moves_throw _
        · exact moves_repeatObject l k
      · rcases r.int? with _ | k
        · exact moves_repeatObject r n
        · exact moves_throw _
    | _ => exact moves_throw _

theorem moves_arithmetic (op : BinaryOp) (l r : Object) :
    Moves m m.move (arithmetic op l r) (arithmetic op (m.move l) (m.move r)) := by
  by_cases hnumbers : l.number?.isSome ∧ r.number?.isSome
  · obtain ⟨a, ha⟩ := Option.isSome_iff_exists.mp hnumbers.1
    obtain ⟨b, hb⟩ := Option.isSome_iff_exists.mp hnumbers.2
    rw [Motion.move_of_number ha, Motion.move_of_number hb]
    unfold arithmetic
    rw [ha, hb]
    dsimp only
    split
    · exact moves_pure _
    · exact moves_pure _
    · exact moves_pure _
    · exact moves_except (fixes_numberArithmetic op a b).symm
  · exact moves_arithmetic_of_not op fun a b ha hb => hnumbers ⟨ha ▸ rfl, hb ▸ rfl⟩

/-! ## Comparisons -/

theorem moves_anyEqual (o : Object) (xs : List Object) :
    Moves m id (anyEqual o xs) (anyEqual (m.move o) (xs.map m.move)) := by
  induction xs with
  | nil => exact moves_pure false
  | cons x xs ih =>
    refine (moves_equal x o).bind fun b => ?_
    cases b with
    | false => exact ih
    | true => exact moves_pure true

theorem moves_anyMember (container o : Object) :
    Moves m id (members container >>= anyEqual o)
      (members (m.move container) >>= anyEqual (m.move o)) :=
  (moves_members container).bind fun xs => moves_anyEqual o xs

theorem moves_contains (container o : Object) :
    Moves m id (contains container o) (contains (m.move container) (m.move o)) := by
  cases container with
  | text s =>
    cases o with
    | text part => exact moves_pure _
    | _ => exact moves_throw _
  | bytes bs =>
    cases o with
    | bytes part => exact moves_pure _
    | bool b => exact moves_ite (moves_pure _) (moves_throw _)
    | int n => exact moves_ite (moves_pure _) (moves_throw _)
    | _ => exact moves_throw _
  | dict p =>
    refine (moves_requireKey o).bind fun _ => (moves_table p).bind fun ps =>
      (moves_lookupKey o ps).bind fun found => moves_return ?_
    rw [Option.isSome_map, id]
  | range a b c =>
    cases o with
    | int n => exact moves_pure _
    | _ => exact moves_anyMember _ _
  | _ => exact moves_anyMember _ _

theorem Motion.place_beq (m : Motion) (p q : Nat) : (m.place p == m.place q) = (p == q) := by
  rw [Bool.eq_iff_iff, beq_iff_eq, beq_iff_eq, m.place_inj]

theorem identical_move (l r : Object) : identical (m.move l) (m.move r) = identical l r := by
  cases l with
  | list p =>
    cases r with
    | list q => exact m.place_beq p q
    | _ => rfl
  | dict p =>
    cases r with
    | dict q => exact m.place_beq p q
    | _ => rfl
  | stream kind p =>
    cases r with
    | stream kind' q => exact m.place_beq p q
    | _ => rfl
  | tuple os =>
    cases r with
    | tuple os' =>
      cases os with
      | nil =>
        cases os' with
        | nil => rfl
        | cons => rfl
      | cons => rfl
    | _ => cases os <;> rfl
  | _ => cases r <;> rfl

theorem moves_compareObjects (op : CompareOp) (l r : Object) :
    Moves m id (compareObjects op l r) (compareObjects op (m.move l) (m.move r)) := by
  have hordered (c : Value.Comparison) : Moves m id
      (do (Value.holds c (← Eval.snapshot l) (← Eval.snapshot r) : Except Fault _))
      (do (Value.holds c (← Eval.snapshot (m.move l)) (← Eval.snapshot (m.move r)) :
        Except Fault _)) := by
    exact (moves_snapshot l).bind fun v =>
      (moves_snapshot r).bind fun w => moves_except_self (Value.holds c v w)
  cases op with
  | eq => exact moves_equal l r
  | ne => exact (moves_equal l r).bind fun b => moves_pure (!b)
  | lt => exact hordered .lt
  | le => exact hordered .le
  | gt => exact hordered .gt
  | ge => exact hordered .ge
  | within => exact moves_contains r l
  | notWithin => exact (moves_contains r l).bind fun b => moves_pure (!b)
  | same => exact moves_return (identical_move l r).symm
  | notSame =>
    refine moves_return ?_
    rw [identical_move, id]

/-! ## Parts -/

theorem elementAt_map (f : α → β) (xs : List α) (i : Int) :
    elementAt (xs.map f) i = (elementAt xs i).map f := by
  simp only [elementAt, List.length_map, List.getElem?_map]
  generalize (if i < 0 then i + xs.length else i) = j
  split
  · rfl
  · rcases xs[j.toNat]? with _ | x
    · rfl
    · rfl

theorem moves_indexObject (o i : Object) :
    Moves m m.move (indexObject o i) (indexObject (m.move o) (m.move i)) := by
  unfold indexObject
  rw [m.int?_move]
  cases o with
  | dict p =>
    refine (moves_requireKey i).bind fun _ => (moves_table p).bind fun ps =>
      (moves_lookupKey i ps).bind fun found => ?_
    cases found with
    | none => exact moves_throw _
    | some v => exact moves_pure v
  | text s =>
    rcases i.int? with _ | n
    · exact moves_throw _
    · exact (moves_except_self (elementAt s.toList n)).bind fun c => moves_pure _
  | bytes bs =>
    rcases i.int? with _ | n
    · exact moves_throw _
    · exact (moves_except_self (elementAt bs n)).bind fun b => moves_pure _
  | list p =>
    rcases i.int? with _ | n
    · exact moves_throw _
    · exact (moves_cell p).bind fun os => moves_except (elementAt_map m.move os n)
  | tuple os =>
    rw [m.move_tuple]
    rcases i.int? with _ | n
    · exact moves_throw _
    · exact moves_except (elementAt_map m.move os n)
  | range a b c =>
    rcases i.int? with _ | n
    · exact moves_throw _
    · exact moves_ite (moves_pure _) (moves_throw _)
  | none | bool | int | float | pairs | stream | builtin | method | foreign => exact moves_throw _

theorem moves_setItem (o i v : Object) :
    Moves m id (setItem o i v) (setItem (m.move o) (m.move i) (m.move v)) := by
  unfold setItem
  rw [m.int?_move]
  cases o with
  | dict p => exact moves_put p i v
  | list p =>
    rcases i.int? with _ | n
    · exact moves_throw _
    · refine (moves_cell p).bind fun os => ?_
      rw [List.length_map]
      refine (moves_except_self (indexIn os.length n)).next fun j => ?_
      rw [← List.map_set]
      exact moves_setCell p (os.set j v)
  | _ => exact moves_throw _

theorem pick_map (f : α → β) (xs : List α) (a b step : Int) :
    pick (xs.map f) a b step = (pick xs a b step).map f := by
  rw [pick, pick, List.map_filterMap]
  refine List.filterMap_congr fun i _ => ?_
  rw [List.getElem?_map]

@[simp] theorem sliceBound?_move (o : Object) : sliceBound? (m.move o) = sliceBound? o := by
  cases o <;> rfl

theorem moves_sliceObject (o start stop step : Object) :
    Moves m m.move (sliceObject o start stop step)
      (sliceObject (m.move o) (m.move start) (m.move stop) (m.move step)) := by
  unfold sliceObject
  extract_lets bounds bounds'
  have hsame : bounds' = bounds := by
    funext size
    simp only [bounds', bounds, sliceBound?_move]
  rw [hsame]
  have hbounds (size : Nat) : Moves m id (bounds size) (bounds size) := by
    refine (moves_except_self _).next fun step => (moves_except_self _).next fun start =>
      (moves_except_self _).next fun stop => ?_
    exact moves_ite ((moves_throw _).next fun _ => moves_pure _) (moves_pure _)
  cases o with
  | text s => exact (hbounds s.length).next fun r => moves_pure _
  | bytes bs => exact (hbounds bs.length).next fun r => moves_pure _
  | list p =>
    refine (moves_cell p).bind fun os => ?_
    rw [List.length_map]
    refine (hbounds os.length).next fun (a, b, step) => ?_
    dsimp only
    rw [pick_map]
    exact moves_newList _
  | tuple os =>
    rw [m.move_tuple]
    dsimp only
    rw [List.length_map]
    refine (hbounds os.length).next fun (a, b, step) => moves_return ?_
    rw [m.move_tuple, pick_map]
  | range a b c => exact (hbounds (Value.rangeSize a b c)).next fun r => moves_pure _
  | none | bool | int | float | dict | pairs | stream | builtin | method | foreign =>
    exact moves_throw _

/-! ## Texts with values put in -/

theorem formatInt_move (cut : Bool) (o : Object) : formatInt cut (m.move o) = formatInt cut o := by
  rw [formatInt, formatInt, m.number?_move]

theorem moves_writeValue (p : Placeholder) (width : Nat) (precision : Option Nat) (o : Object) :
    Moves m id (writeValue p width precision o) (writeValue p width precision (m.move o)) := by
  unfold writeValue
  simp only [formatInt_move, m.number?_move, m.int?_move]
  split
  iterate 3 exact (moves_snapshot o).next fun v => moves_pure _
  iterate 6 exact (moves_except_self _).next fun n => moves_pure _
  iterate 6
    rcases o.number? with _ | n
    · exact moves_throw _
    · exact (moves_except_self _).next fun x => moves_pure _
  · cases o with
    | text s => exact moves_ite (moves_pure _) (moves_throw _)
    | bool b => exact moves_ite (moves_pure _) (moves_throw _)
    | int n => exact moves_ite (moves_pure _) (moves_throw _)
    | _ => exact moves_throw _
  · exact moves_throw _

/-- The values that are left, with their places moved. -/
def Motion.moveArgs (m : Motion) (a : FormatArgs) : FormatArgs :=
  { left := a.left.map m.move, table := a.table.map m.move }

theorem next_moveArgs (a : FormatArgs) :
    (m.moveArgs a).next = a.next.map (Prod.map m.move m.moveArgs) := by
  obtain ⟨left, table⟩ := a
  cases left with
  | nil => rfl
  | cons o left => rfl

theorem takeExtent_moveArgs (a : FormatArgs) (e : Extent) :
    takeExtent (m.moveArgs a) e = (takeExtent a e).map (Prod.map id m.moveArgs) := by
  cases e with
  | none | given => rfl
  | fromArgs =>
    rw [takeExtent, takeExtent, next_moveArgs]
    rcases a.next with e | ⟨o, a⟩
    · rfl
    · cases o <;> rfl

theorem moves_writePlace (a : FormatArgs) (p : Placeholder) :
    Moves m (Prod.map id m.moveArgs) (writePlace a p) (writePlace (m.moveArgs a) p) := by
  unfold writePlace
  extract_lets rest rest'
  have hrest (named : Option Object) :
      Moves m (Prod.map id m.moveArgs) (rest named) (rest' (named.map m.move)) := by
    have hleft : (if (named.map m.move).isSome then { m.moveArgs a with left := [] }
        else m.moveArgs a) = m.moveArgs (if named.isSome then { a with left := [] } else a) := by
      cases named <;> rfl
    simp only [rest, rest']
    rw [hleft]
    refine (moves_except (takeExtent_moveArgs _ p.width)).bind fun (width, a) => ?_
    refine (moves_except (takeExtent_moveArgs a p.precision)).bind fun (precision, a) => ?_
    refine moves_ite (moves_pure ("%", a)) ?_
    cases named with
    | none =>
      exact (moves_except (next_moveArgs a)).bind fun (o, a) =>
        (moves_writeValue _ _ _ o).next fun t => moves_pure (t, a)
    | some o => exact (moves_writeValue _ _ _ o).next fun t => moves_pure (t, a)
  clear_value rest rest'
  rcases p.key with _ | key
  · exact (moves_pure none).bind hrest
  · rw [Motion.moveArgs]
    rcases a.table with _ | table
    · exact (moves_throw _).bind hrest
    · have hfound : Moves m (Option.map m.move) (some <$> indexObject table (.text key))
          (some <$> indexObject (m.move table) (.text key)) :=
        (moves_indexObject table (.text key)).map fun _ => rfl
      exact hfound.bind hrest

theorem moves_writePieces (pieces : List (Except Fault FormatPiece)) :
    ∀ (a : FormatArgs) (acc : String),
      Moves m (Prod.map id m.moveArgs) (writePieces a acc pieces)
        (writePieces (m.moveArgs a) acc pieces) := by
  induction pieces with
  | nil => exact fun a acc => moves_pure (acc, a)
  | cons piece pieces ih =>
    intro a acc
    cases piece with
    | error e => exact moves_throw e
    | ok piece =>
      cases piece with
      | char c => exact ih a (acc.push c)
      | place p => exact (moves_writePlace a p).bind fun (t, a) => ih a (acc ++ t)

theorem moves_formatText (s : String) (arg : Object) :
    Moves m m.move (formatText s arg) (formatText s (m.move arg)) := by
  have hleft (r : String × FormatArgs) :
      Moves m m.move
        (do
          if !r.2.left.isEmpty && r.2.table.isNone then throw .wrongType
          return .text r.1)
        (do
          if !(m.moveArgs r.2).left.isEmpty && (m.moveArgs r.2).table.isNone then throw .wrongType
          return .text r.1) := by
    simp only [Motion.moveArgs, List.isEmpty_map, Option.isNone_map]
    exact moves_ite ((moves_throw _).next fun _ => moves_pure _) (moves_pure _)
  cases arg with
  | tuple os =>
    rw [m.move_tuple]
    exact (moves_writePieces _ { left := os, table := none } "").bind hleft
  | _ => exact (moves_writePieces _ { left := [_], table := _ } "").bind hleft

end Jade.Script
