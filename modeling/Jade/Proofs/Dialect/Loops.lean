import Jade.Compile
import Jade.Proofs.Dialect.Moved
import Jade.Proofs.Reader.Outcome
import Jade.Proofs.Source.Observation

/-!
# Loops lose nothing

A loop looks at the first member of what it runs through and decides by it how members and indices
are combined. All members are handed out in order, the first one too, whether they are known
beforehand, are looked up again for every turn, or are used up by the loop. If the object of a loop
is not changed behind the loop's back, then its body is written once for each member in order.

With several variables the item of a turn has to have members itself, which are bound to them. An
item without members ends the loop with a fault.

## Main results

* `Jade.items_iteration` : the items of an iteration
* `Jade.Emit.run_next`, `Jade.Emit.run_loopFrom` : one member, and all that are left
* `Jade.Emit.loops_in_order` : iterations, and loops of a page
-/

namespace Jade

/-! ## Iterations -/

/-- What is handed out, one after the other. -/
def Iteration.items : Iteration → List (Except Fault Value)
  | .table v => (v.members?.getD []).map .ok
  | .empty => []
  | .members vs => vs

/-- The item for a member with its index, in a loop with so many variables whose first member is
`head`. -/
def handedOut (head : Value) (keys : Int) (i : Nat) (x : Value) : Value :=
  if head.isIterable then
    if keys = cardinality head + 1 then .tuple (x.members?.getD [] ++ [.int i]) else x
  else if keys = 2 then .tuple [x, .int i] else x

/-- The item that the rules of an iteration promise: members that have no members themselves come
with their index unless the loop has one variable. -/
def promised (head : Value) (keys : Int) (i : Nat) (x : Value) : Value :=
  if head.isIterable then handedOut head keys i x
  else if keys = 1 then x else .tuple [x, .int i]

theorem handedOut_eq_promised_iff (head : Value) (keys : Int) (i : Nat) (x : Value) :
    handedOut head keys i x = promised head keys i x ↔
      head.isIterable = true ∨ keys = 1 ∨ keys = 2 := by
  have hpair : x ≠ .tuple [x, .int i] := fun h => by
    have hsize := congrArg sizeOf h
    simp at hsize
    omega
  rw [promised]
  by_cases hhead : head.isIterable = true
  · simp [hhead]
  · rw [handedOut, if_neg hhead, if_neg hhead]
    by_cases htwo : keys = 2
    · simp [htwo]
    · by_cases hone : keys = 1
      · simp [hone]
      · simp [hhead, htwo, hone, hpair]

/-- An iteration keeps the promise unless its members have no members themselves and the loop has
neither one variable nor two. -/
theorem mapIdx_handedOut_eq_promised_iff (xs : List Value) (keys : Int) :
    (xs.mapIdx fun i x => (.ok (handedOut (xs.headD x) keys i x) : Except Fault Value)) =
        (xs.mapIdx fun i x => .ok (promised (xs.headD x) keys i x)) ↔
      ∀ head ∈ xs.head?, head.isIterable = true ∨ keys = 1 ∨ keys = 2 := by
  rcases xs with _ | ⟨head, tail⟩
  · simp
  · constructor
    · intro h head' hhead'
      obtain rfl : head = head' := Option.some.inj hhead'
      rw [List.mapIdx_cons, List.mapIdx_cons, List.cons.injEq] at h
      exact (handedOut_eq_promised_iff _ _ _ _).mp (Except.ok.inj h.1)
    · intro h
      refine congrArg (fun f => List.mapIdx f _) (funext fun i => funext fun x => ?_)
      exact congrArg _ ((handedOut_eq_promised_iff _ _ _ _).mpr (h head rfl))

theorem apply_numberingOf {head x : Value} (h : head.isIterable = true → x.members?.isSome = true)
    (keys : Int) (i : Nat) : (numberingOf head keys).apply i x = .ok (handedOut head keys i x) := by
  rw [numberingOf, handedOut]
  split
  · next hhead =>
    obtain ⟨ys, hys⟩ := Option.isSome_iff_exists.mp (h hhead)
    split
    · simp only [Numbering.apply, Value.members, hys, Option.getD_some]
      rfl
    · rfl
  · split <;> rfl

/-- **The items of an iteration.** Nothing is lost, and nothing comes out of order. -/
theorem items_iteration {v : Value} {xs : List Value} (hv : v.isMapping = false)
    (hxs : v.members? = some xs)
    (hall : ∀ head ∈ xs.head?, head.isIterable = true → ∀ x ∈ xs, x.members?.isSome = true)
    (keys : Int) : ∃ it, iteration v keys = .ok it ∧
      it.items = xs.mapIdx fun i x => .ok (handedOut (xs.headD x) keys i x) := by
  have hmembers : v.members = .ok xs := by rw [Value.members, hxs]
  cases xs with
  | nil =>
    refine ⟨.empty, ?_, rfl⟩
    rw [iteration, hv, hmembers]
    rfl
  | cons head xs =>
    refine ⟨.members ((head :: xs).mapIdx (numberingOf head keys).apply), ?_, ?_⟩
    · rw [iteration, hv, hmembers]
      rfl
    · refine List.mapIdx_eq_mapIdx_iff.mpr fun i hi => ?_
      exact apply_numberingOf (fun hhead => hall head rfl hhead _ (List.getElem_mem hi)) keys i

namespace Emit

open Script (Object Store)

/-! ## Members one by one -/

/-- The store once `rest` is left of an object: a stream is used up. -/
def drawn : Object → List Object → Store → Store
  | .stream _ place, rest, s => s.set place rest
  | _, _, s => s

/-- The members of an object are `os`, and as many as `i` of them have been taken. -/
def Holds (o : Object) (os : List Object) (i : Nat) (s : Store) : Prop :=
  match o with
  | .list place | .pairs place => s.get place = os
  | .stream _ place => s.get place = os.drop i
  | _ => (Script.members o).run.run s = (.ok os, s)

/-- What is left of a loop after some turns. -/
def cursorAt (o : Object) (os : List Object) (i : Nat) : Cursor :=
  match o with
  | .list place => .list place i
  | .pairs place => .table false place os.length i
  | .stream _ place => .stream place
  | _ => .fixed (os.drop i)

variable {o : Object} {os : List Object} {i : Nat} {s : Store} {e : Emitter} {n : Numbering}
  {act : Object → Emit Unit}

theorem drop_eq_cons {α : Type} {xs : List α} {x : α} (h : xs[i]? = some x) :
    xs.drop i = x :: xs.drop (i + 1) := by
  obtain ⟨hi, rfl⟩ := List.getElem?_eq_some_iff.mp h
  exact List.drop_eq_getElem_cons hi

theorem run_next_stream (place : Nat) (s : Store) :
    (next (.stream place)).run.run s = match s.get place with
      | [] => (.ok none, s)
      | x :: rest => (.ok (some (x, .stream place)), s.set place rest) := by
  rw [next_stream, Reader.run_bind]
  show (match s.get place with | [] => _ | _ :: _ => _ : Script.Eval _).run.run s = _
  cases s.get place <;> rfl

/-- **The next member.** -/
theorem run_next (h : Holds o os i s) :
    (next (cursorAt o os i)).run.run s = match os[i]? with
      | none => (.ok none, s)
      | some x => (.ok (some (x, cursorAt o os (i + 1))), drawn o (os.drop (i + 1)) s) := by
  cases o with
  | list place =>
    show (Except.ok ((s.get place)[i]?.map fun x => (x, Cursor.list place (i + 1))), s) = _
    rw [show s.get place = os from h]
    cases os[i]? <;> rfl
  | pairs place =>
    show (next (.table false place os.length i)).run.run s = _
    rw [next_table, Reader.run_bind]
    show (if (s.get place).length = os.length then _ else _ : Script.Eval _).run.run s = _
    rw [show s.get place = os from h, if_pos rfl]
    cases os[i]? <;> rfl
  | stream kind place =>
    show (next (.stream place)).run.run s = _
    rw [run_next_stream, show s.get place = os.drop i from h]
    cases hx : os[i]? with
    | none => rw [List.drop_eq_nil_of_le (List.getElem?_eq_none_iff.mp hx)]
    | some x => rw [drop_eq_cons hx]; rfl
  | _ =>
    show (next (.fixed (os.drop i))).run.run s = _
    cases hx : os[i]? with
    | none => rw [List.drop_eq_nil_of_le (List.getElem?_eq_none_iff.mp hx)]; rfl
    | some x => rw [drop_eq_cons hx]; rfl

/-! ## All members -/

/-- One turn of a loop: a member is taken, and something is done with its item. -/
def turn (o : Object) (os : List Object) (n : Numbering) (act : Object → Emit Unit) (i : Nat)
    (x : Object) : Emit Unit := do
  script (modify (drawn o (os.drop (i + 1))))
  act (← script (numbered n i x))

/-- The turns of a loop. -/
def turns (o : Object) (os : List Object) (n : Numbering) (act : Object → Emit Unit) :
    List (Emit Unit) := os.mapIdx (turn o os n act)

theorem turns_drop {x : Object} (hx : os[i]? = some x) :
    (turns o os n act).drop i = turn o os n act i x :: (turns o os n act).drop (i + 1) := by
  refine drop_eq_cons ?_
  rw [turns, List.getElem?_mapIdx, hx]
  rfl

/-- The object is as the loop expects it after each of the turns. -/
def Undisturbed (o : Object) (os : List Object) (i : Nat) (acts : List (Emit Unit)) (e : Emitter) :
    Prop :=
  ∀ j e', (Forms.all (acts.take j)).run.run e = (.ok (), e') → Holds o os (i + j) e'.page.store

theorem Undisturbed.holds {acts : List (Emit Unit)} (h : Undisturbed o os i acts e) :
    Holds o os i e.page.store := h 0 e rfl

theorem Undisturbed.rest {acts : List (Emit Unit)} {t : Emit Unit} {e' : Emitter}
    (h : Undisturbed o os i (t :: acts) e) (ht : t.run.run e = (.ok (), e')) :
    Undisturbed o os (i + 1) acts e' := by
  intro j e'' hrun
  rw [Nat.add_right_comm]
  refine h (j + 1) e'' ?_
  rw [List.take_succ_cons, Forms.all, Reader.run_bind, ht]
  exact hrun

theorem run_turn (x : Object) :
    (turn o os n act i x).run.run e = (script (numbered n i x) >>= act).run.run
      { e with page := { e.page with store := drawn o (os.drop (i + 1)) e.page.store } } := by
  rw [turn, Reader.run_bind, run_script]
  rfl

/-- **All members that are left.** -/
theorem run_loopFrom {fuel : Nat} (hfuel : os.length - i < fuel)
    (h : Undisturbed o os i ((turns o os n act).drop i) e) :
    (loopFrom n act fuel i (cursorAt o os i)).run.run e =
      (Forms.all ((turns o os n act).drop i)).run.run e := by
  induction fuel generalizing i e with
  | zero => cases hfuel
  | succ fuel ih =>
    rw [loopFrom, Reader.run_bind, run_script, run_next h.holds]
    cases hx : os[i]? with
    | none =>
      have hi : (turns o os n act).length ≤ i := by
        rw [turns, List.length_mapIdx]
        exact List.getElem?_eq_none_iff.mp hx
      rw [List.drop_eq_nil_of_le hi]
      rfl
    | some x =>
      have hi : i < os.length := (List.getElem?_eq_some_iff.mp hx).1
      rw [turns_drop hx] at h ⊢
      rw [Forms.all, Reader.run_bind, run_turn]
      show (do let y ← script (numbered n i x); act y; loopFrom n act fuel (i + 1) _ :
        Emit Unit).run.run _ = _
      rw [← bind_assoc, Reader.run_bind]
      rcases hrun : (script (numbered n i x) >>= act).run.run _ with ⟨f | u, e₁⟩
      · rfl
      · exact ih (by omega) (h.rest ((run_turn x).trans hrun))

/-! ## Whole loops -/

/-- The first member as it is when the loop decides by it. -/
def headValue (s : Store) : Object → Value
  | .stream _ _ => .stream []
  | o => s.snapshot o

/-- How members and indices are combined in a loop with so many variables. -/
def numberingFor (o : Object) (os : List Object) (keys : Nat) (s : Store) : Numbering :=
  match os with
  | [] => .plain
  | head :: rest => numberingOf (headValue (drawn o rest s) head) keys

theorem Holds.drawn {x : Object} (h : Holds o os i s) (hx : os[i]? = some x) :
    Holds o os (i + 1) (drawn o (os.drop (i + 1)) s) := by
  cases o with
  | stream kind place =>
    have hget : s.get place = os.drop i := h
    have hplace : place < s.cells.size := by
      by_contra hout
      rw [drop_eq_cons hx, Store.get, Array.getD_eq_getD_getElem?,
        Array.getElem?_eq_none (Nat.not_lt.mp hout)] at hget
      cases hget
    show (s.set place (os.drop (i + 1))).get place = _
    rw [Store.get_set, if_pos ⟨rfl, hplace⟩]
  | _ => exact h

theorem run_left (h : Holds o os i s) :
    (left (cursorAt o os i)).run.run s = (.ok (os.length - i), s) := by
  cases o with
  | list place =>
    show (Except.ok ((s.get place).length - i), s) = _
    rw [show s.get place = os from h]
  | pairs place => rfl
  | stream kind place =>
    show (Except.ok (s.get place).length, s) = _
    rw [show s.get place = os.drop i from h, List.length_drop]
  | _ =>
    show (Except.ok (os.drop i).length, s) = _
    rw [List.length_drop]

theorem run_head (head : Object) (k : Value → Emit Unit) (e : Emitter) :
    (match head with
      | .stream _ _ => pure (.stream []) >>= k
      | _ => script (Script.Eval.snapshot head) >>= k : Emit Unit).run.run e =
      (k (headValue e.page.store head)).run.run e := by
  cases head <;> rfl

theorem run_loopStart {keys : Nat}
    (hn : ∀ head ∈ os[0]?, numberingOf (headValue (drawn o (os.drop 1) e.page.store) head) keys = n)
    (h : Undisturbed o os 0 (turns o os n act) e) :
    (loopStart keys act (cursorAt o os 0)).run.run e =
      (Forms.all (turns o os n act)).run.run e := by
  rw [loopStart, Reader.run_bind, run_script, run_next h.holds]
  cases hx : os[0]? with
  | none =>
    rw [List.eq_nil_of_length_eq_zero (Nat.le_zero.mp (List.getElem?_eq_none_iff.mp hx))]
    rfl
  | some head =>
    have hturns : turns o os n act = turn o os n act 0 head :: (turns o os n act).drop 1 :=
      turns_drop hx
    have hleft := run_left (h.holds.drawn hx)
    rw [hturns] at h ⊢
    rw [Forms.all, Reader.run_bind, run_turn]
    refine (run_head head _ _).trans ?_
    dsimp only
    rw [show numberingOf (headValue (drawn o (os.drop (0 + 1)) e.page.store) head) keys = n from
      hn head hx, Reader.run_bind, run_script, hleft]
    dsimp only
    rw [← bind_assoc, Reader.run_bind]
    rcases hrun : (script (numbered n 0 head) >>= act).run.run _ with ⟨f | u, e₁⟩
    · rfl
    · have hfuel : os.length - 1 < loopLimit + (os.length - 1) := Nat.lt_add_of_pos_left (by decide)
      exact run_loopFrom hfuel (h.rest ((run_turn head).trans hrun))

/-- **A loop** takes its turns one after the other. -/
theorem run_loop {keys : Nat} (ho : ∀ place, o ≠ .dict place)
    (h : Undisturbed o os 0 (turns o os (numberingFor o os keys e.page.store) act) e) :
    (loop o keys act).run.run e =
      (Forms.all (turns o os (numberingFor o os keys e.page.store) act)).run.run e := by
  have hn : ∀ head ∈ os[0]?, numberingOf (headValue (drawn o (os.drop 1) e.page.store) head) keys =
      numberingFor o os keys e.page.store := by
    cases os with
    | nil => exact nofun
    | cons x xs => exact fun head hhead => by rw [← Option.some.inj hhead]; rfl
  have hstart := run_loopStart hn h
  cases o with
  | dict place => exact absurd rfl (ho place)
  | list | stream => exact hstart
  | pairs place =>
    refine Eq.trans ?_ hstart
    have hget : e.page.store.get place = os := h.holds
    show (loopStart keys act (.table false place (e.page.store.get place).length 0)).run.run e = _
    rw [hget]
    rfl
  | _ =>
    refine Eq.trans ?_ hstart
    show (do loopStart keys act (.fixed (← script (Script.members _))) : Emit Unit).run.run e = _
    rw [Reader.run_bind, run_script, h.holds]
    rfl

theorem bindings_ok_iff {keys : List String} (hkeys : keys ≠ []) :
    (∃ names, ((bindings keys o).run.run s).1 = .ok names) ↔
      keys.length = 1 ∨ ∃ ms, ((Script.members o).run.run s).1 = .ok ms := by
  match keys with
  | [] => exact absurd rfl hkeys
  | [k] => exact ⟨fun _ => .inl rfl, fun _ => ⟨_, rfl⟩⟩
  | k :: k' :: ks =>
    show (∃ names, ((do return (k :: k' :: ks).zip (← Script.firstMembers _ o) :
      Script.Eval (List (String × Object))).run.run s).1 = .ok names) ↔ _
    obtain ⟨s', hrun, -⟩ := Script.run_firstMembers (k :: k' :: ks).length o s
    rw [Reader.run_bind, hrun]
    rcases ((Script.members o).run.run s).1 with f | ms
    · simp [Except.map]
    · exact ⟨fun _ => .inr ⟨ms, rfl⟩, fun _ => ⟨_, rfl⟩⟩

/-- **Loops lose nothing.** An iteration hands out its members in order, each with its index where
the number of variables asks for it: this is what its rules promise unless the members have no
members themselves and there are neither one nor two variables. A loop of a page takes one turn for
each member, in order, as long as its object is not disturbed. A turn binds the variables of the
loop to the item and then writes the body once; and it can bind them if there is one variable or
the item has members. -/
theorem loops_in_order {v : Value} {xs : List Value} (keys : Int) (hv : v.isMapping = false)
    (hxs : v.members? = some xs)
    (hall : ∀ head ∈ xs.head?, head.isIterable = true → ∀ x ∈ xs, x.members?.isSome = true) :
    (∃ it, iteration v keys = .ok it ∧
      it.items = (xs.mapIdx fun i x => .ok (handedOut (xs.headD x) keys i x)) ∧
      (it.items = (xs.mapIdx fun i x => .ok (promised (xs.headD x) keys i x)) ↔
        ∀ head ∈ xs.head?, head.isIterable = true ∨ keys = 1 ∨ keys = 2)) ∧
    ∀ (subject : String) (keys : List String) (body : Emit Unit) (e e₁ : Emitter) (o : Object)
      (os : List Object), (evaluate subject).run.run e = (.ok o, e₁) → (∀ place, o ≠ .dict place) →
      let acts := turns o os (numberingFor o os keys.length e₁.page.store) fun item => do
        inScope (← script (bindings keys item)) body
      Undisturbed o os 0 acts e₁ →
      (Forms.pageEach subject keys body).run.run e = (Forms.all acts).run.run e₁ ∧
      (keys ≠ [] → ∀ item s, (∃ names, ((bindings keys item).run.run s).1 = .ok names) ↔
        keys.length = 1 ∨ ∃ ms, ((Script.members item).run.run s).1 = .ok ms) := by
  constructor
  · obtain ⟨it, hit, hitems⟩ := items_iteration hv hxs hall keys
    refine ⟨it, hit, hitems, ?_⟩
    rw [hitems]
    exact mapIdx_handedOut_eq_promised_iff xs keys
  · intro subject keys body e e₁ o os hsubject ho acts hkept
    refine ⟨?_, fun hkeys item s => bindings_ok_iff hkeys⟩
    rw [Forms.pageEach, Reader.run_bind, hsubject]
    exact run_loop ho hkept

/-- Members of a stream with their indices, and a loop over a text with two variables. -/
theorem loops_in_order_indices :
    (∃ it, iteration (.stream [.int 5, .text "b"]) 2 = .ok it ∧
      it.items = [.ok (.tuple [.int 5, .int 0]), .ok (.tuple [.text "b", .int 1])]) ∧
    ((Forms.pageEach "'ab'" ["x", "i"] (push "p")).run.run {}).2.pieces.length = 2 := by
  obtain ⟨⟨it, hit, hitems, -⟩, hpage⟩ :=
    loops_in_order (v := .stream [.int 5, .text "b"]) 2 rfl rfl
      fun head hhead h => by rw [← Option.some.inj hhead] at h; cases h
  refine ⟨⟨it, hit, hitems⟩, ?_⟩
  have hsubject : (evaluate "'ab'").run.run {} = (.ok (.text "ab"), {}) := by rfl
  have hmembers (s : Store) : (Script.members (.text "ab")).run.run s =
      (.ok [.text "a", .text "b"], s) := by rfl
  obtain ⟨hrun, -⟩ := hpage "'ab'" ["x", "i"] (push "p") {} {} (.text "ab")
    [.text "a", .text "b"] hsubject nofun fun _ e' _ => hmembers e'.page.store
  rw [hrun]
  decide +kernel

/-- **An item without members** cannot be bound to several variables, and **a list that grows**
while the loop runs through it has more turns than it had members. -/
theorem page_turns_differ :
    iteration (.list [.int 1, .int 2]) 3 = .ok (.members [.ok (.int 1), .ok (.int 2)]) ∧
      (({} : Session).process .page {} (.ofText "for a, b, c in [1, 2]\n  p") none).1 =
        .error .wrongType ∧
      (({} : Session).process .page {}
        (.ofText "for x in [[1]]\n  for y in x\n    p= x.append(2) if len(x) < 3 else 0") none).1 =
        .ok "<p>None</p>\n<p>None</p>\n<p>0</p>" :=
  ⟨rfl, Reader.eq_error_of_fault? (by decide +kernel), eq_ok_of_toOption (by decide +kernel)⟩

end Emit

end Jade
