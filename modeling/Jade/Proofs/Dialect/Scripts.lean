import Jade.Proofs.Emitter.Walk
import Jade.Proofs.Script.Evaluation

/-!
# Scripts of a page

Loops and conditionals of a page take the course that scripts prescribe. So a judgement of the walk
holds of them if it goes over from scripts to what follows them. The two runs may have their lists
and streams at other places: then the same holds of the results of the scripts, and of what is left
of a loop (`Emit.Cursor.move`).

## Main results

* `Jade.Emit.IsScripted.loop`, `Jade.Emit.IsScripted.pageEach` : loops
* `Jade.Emit.IsScripted.pageConditional` : conditionals
-/

namespace Jade

open Script (Motion)

namespace Emit

variable {γ : Type} {m : Motion}

/-! ## Places of loops -/

/-- What is left of a loop, with its places moved. -/
def Cursor.move (m : Motion) : Cursor → Cursor
  | .list place index => .list (m.place place) index
  | .stream place => .stream (m.place place)
  | .table keys place size index => .table keys (m.place place) size index
  | .fixed os => .fixed (os.map m.move)

/-- A member and what is left of a loop after it, with their places moved. -/
def moveTaken (m : Motion) (p : Script.Object × Cursor) : Script.Object × Cursor :=
  (m.move p.1, p.2.move m)

theorem next_stream (place : Nat) : next (.stream place) = (do
    match ← Script.Eval.cell place with
    | [] => return none
    | o :: os =>
      Script.Eval.setCell place os
      return some (o, .stream place)) :=
  rfl

theorem next_table (keys : Bool) (place size index : Nat) :
    next (.table keys place size index) = (do
      let os ← Script.Eval.cell place
      if os.length = size then
        return os[index]?.map fun o =>
          (if keys then (o.pair?.map Prod.fst).getD o else o, .table keys place size (index + 1))
      else throw .changed) :=
  rfl

theorem moves_next (c : Cursor) :
    Script.Moves m (Option.map (moveTaken m)) (next c) (next (c.move m)) := by
  cases c with
  | list place index =>
    intro s s' h
    refine ⟨congrArg Except.ok ?_, h⟩
    show ((s'.get (m.place place))[index]?).map _ = _
    rw [h.get, List.getElem?_map]
    cases (s.get place)[index]? <;> rfl
  | stream place =>
    rw [Cursor.move, next_stream, next_stream]
    refine (Script.moves_cell place).bind fun os => ?_
    cases os with
    | nil => exact Script.moves_pure none
    | cons o os =>
      exact (Script.moves_setCell place os).next fun _ =>
        Script.moves_pure (some (o, Cursor.stream place))
  | table keys place size index =>
    rw [Cursor.move, next_table, next_table]
    refine (Script.moves_cell place).bind fun os => ?_
    rw [List.length_map, List.getElem?_map]
    refine Script.moves_ite (Script.moves_return ?_) (Script.moves_throw _)
    rcases os[index]? with _ | o
    · rfl
    · have hkey : ((m.move o).pair?.map Prod.fst).getD (m.move o) =
          m.move ((o.pair?.map Prod.fst).getD o) := by
        rw [m.pair?_move]
        cases o.pair? <;> rfl
      cases keys with
      | false => rfl
      | true => exact congrArg (fun o => some (o, Cursor.table ..)) hkey.symm
  | fixed os =>
    cases os with
    | nil => exact Script.moves_pure none
    | cons o os => exact Script.moves_pure (some (o, Cursor.fixed os))

theorem moves_left (c : Cursor) : Script.Moves m id (left c) (left (c.move m)) := by
  cases c with
  | list place index =>
    intro s s' h
    refine ⟨congrArg Except.ok ?_, h⟩
    show (s'.get (m.place place)).length - index = _
    rw [h.get, List.length_map]
    rfl
  | stream place =>
    intro s s' h
    refine ⟨congrArg Except.ok ?_, h⟩
    show (s'.get (m.place place)).length = _
    rw [h.get, List.length_map]
    rfl
  | table => exact Script.moves_pure _
  | fixed os => exact Script.moves_return (List.length_map _).symm

theorem moves_numbered (n : Numbering) (index : Nat) (o : Script.Object) :
    Script.Moves m m.move (numbered n index o) (numbered n index (m.move o)) := by
  cases n with
  | plain => exact Script.moves_pure o
  | extended =>
    refine (Script.moves_members o).bind fun os => Script.moves_return ?_
    rw [m.move_tuple, List.map_append]
    rfl
  | paired => exact Script.moves_return (m.move_tuple [o, .int index])

theorem zip_moveNamed (keys : List String) (os : List Script.Object) :
    keys.zip (os.map m.move) = (keys.zip os).map m.moveNamed :=
  List.zip_map_right ..

theorem moves_bindings (keys : List String) (o : Script.Object) :
    Script.Moves m (List.map m.moveNamed) (bindings keys o) (bindings keys (m.move o)) := by
  rcases keys with _ | ⟨k, _ | ⟨k', keys⟩⟩
  · exact Script.moves_throw _
  · exact Script.moves_pure [(k, o)]
  · exact (Script.moves_firstMembers _ o).bind fun os =>
      Script.moves_return (zip_moveNamed _ os).symm

/-! ## Judgements -/

/-- A judgement that goes over from scripts to what follows them, if the places of the second run
are moved. Not all expressions need be admitted. -/
structure IsScripted (m : Motion) (admits : String → Prop) (T : Judgement) : Prop
    extends IsNoting T fun _ => True where
  script : ∀ {α β γ : Type} {f : α → β} {act : Script.Eval α} {act' : Script.Eval β}
    {k : α → Emit γ} {k' : β → Emit γ}, Script.Moves m f act act' → (∀ a, T γ (k a) (k' (f a))) →
    T γ (Emit.script act >>= k) (Emit.script act' >>= k')
  evaluate : ∀ {γ : Type} {expr : String} {k k' : Script.Object → Emit γ},
    admits expr → (∀ o, T γ (k o) (k' (m.move o))) →
    T γ (Emit.evaluate expr >>= k) (Emit.evaluate expr >>= k')

namespace IsScripted

variable {admits : String → Prop} {T : Judgement} (hT : IsScripted m admits T)

include hT

section Loops

variable {act act' : Script.Object → Emit Unit} (hact : ∀ o, T Unit (act o) (act' (m.move o)))

include hact

/-- What is left of a loop, by induction on the bound of its members. -/
theorem loopFrom (n : Numbering) (fuel : Nat) : ∀ (index : Nat) (c : Cursor),
    T Unit (loopFrom n act fuel index c) (loopFrom n act' fuel index (c.move m)) := by
  induction fuel with
  | zero => exact fun _ _ => hT.fail trivial
  | succ fuel ih =>
    intro index c
    rw [Emit.loopFrom, Emit.loopFrom]
    refine hT.script (moves_next c) fun found => ?_
    cases found with
    | none => exact hT.pure _
    | some found =>
      refine hT.script (moves_numbered n index found.1) fun o => ?_
      exact hT.bind (hact o) fun _ => ih (index + 1) found.2

theorem loopStart (keys : Nat) (c : Cursor) :
    T Unit (loopStart keys act c) (loopStart keys act' (c.move m)) := by
  refine hT.script (moves_next c) fun found => ?_
  rcases found with _ | ⟨head, c⟩
  · exact hT.pure _
  · have hfirst (n : Numbering) : T Unit
        (do
          let turns ← Emit.script (left c)
          act (← Emit.script (numbered n 0 head))
          Emit.loopFrom n act (loopLimit + turns) 1 c)
        (do
          let turns ← Emit.script (left (c.move m))
          act' (← Emit.script (numbered n 0 (m.move head)))
          Emit.loopFrom n act' (loopLimit + turns) 1 (c.move m)) :=
      hT.script (moves_left c) fun turns => hT.script (moves_numbered n 0 head) fun o =>
        hT.bind (hact o) fun _ => hT.loopFrom hact n (loopLimit + turns) 1 c
    cases head with
    | stream => exact hfirst _
    | _ => exact hT.script (Script.moves_snapshot _) fun first => hfirst _

theorem loop (o : Script.Object) (keys : Nat) :
    T Unit (loop o keys act) (loop (m.move o) keys act') := by
  cases o with
  | dict place =>
    refine hT.script (Script.moves_cell place) fun os => ?_
    rw [List.length_map]
    exact hT.loopFrom hact .plain _ 0 (.table true place os.length 0)
  | pairs place =>
    refine hT.script (Script.moves_cell place) fun os => ?_
    rw [List.length_map]
    exact hT.loopStart hact keys (.table false place os.length 0)
  | list place => exact hT.loopStart hact keys (.list place 0)
  | stream kind place => exact hT.loopStart hact keys (.stream place)
  | _ => exact hT.script (Script.moves_members _) fun os => hT.loopStart hact keys (.fixed os)

end Loops

/-- **A loop** of a page, if the judgement holds of its body in a scope. -/
theorem pageEach {subject : String} (hsubject : admits subject)
    (keys : List String) (body body' : Emit Unit)
    (hbody : ∀ ns, T Unit (inScope ns body) (inScope (ns.map m.moveNamed) body')) :
    T Unit (Forms.pageEach subject keys body) (Forms.pageEach subject keys body') :=
  hT.evaluate hsubject fun o =>
    hT.loop (fun o => hT.script (moves_bindings keys o) hbody) o keys.length

theorem chosen {k k' : Bool → Emit γ} (word : String) (o : Script.Object)
    (h : ∀ b, T γ (k b) (k' b)) :
    T γ (Forms.chosen word o >>= k) (Forms.chosen word (m.move o) >>= k') := by
  unfold Forms.chosen
  split
  · exact hT.script (Script.moves_truthy o) h
  · exact hT.script (Script.moves_truthy o) h
  · rw [bind_assoc, bind_assoc]
    exact hT.script (Script.moves_truthy o) fun b => h !b
  · exact hT.bind (hT.pure _) h
  · exact hT.bind (hT.fail trivial) h

/-- **A conditional** of a page. -/
theorem pageConditional (word : String) {sentence : String}
    (hsentence : admits sentence) {body body' : Option (Emit Unit)}
    {next next' : List (Emit Unit)} (hbody : Option.Rel (T Unit) body body')
    (hnext : T Unit (Forms.all next) (Forms.all next')) :
    T Unit (Forms.pageConditional word sentence body next)
      (Forms.pageConditional word sentence body' next') := by
  have hafter {act act' : Emit Unit} (h : T Unit act act') (o : Script.Object) : T Unit
      (do if ← Forms.chosen word o then act else Forms.all next)
      (do if ← Forms.chosen word (m.move o) then act' else Forms.all next') :=
    hT.chosen word o fun _ => hT.ite h hnext
  unfold Forms.pageConditional
  cases hbody with
  | none =>
    have hfault : T Unit (do Emit.before false; throw .noSuchMember)
        (do Emit.before false; throw .noSuchMember) :=
      hT.bind (hT.before false) fun _ => hT.fail trivial
    exact hT.ite (hafter hfault (.bool false)) (hT.evaluate hsentence (hafter hfault))
  | some h => exact hT.ite (hafter h (.bool false)) (hT.evaluate hsentence (hafter h))

end IsScripted

end Emit

end Jade
