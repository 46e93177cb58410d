import Jade.Proofs.Dialect.Directives
import Jade.Proofs.Dialect.Hosts
import Jade.Proofs.Emitter.Labels

/-!
# Callers in Jinja templates

Within a mixin, a named block stands for the block of the caller. In the outermost mixin the caller
is known to Jinja by itself; further inside it is a variable with the number of mixins around. A
call with a block sets the variable of its depth right before it begins. But definitions count for
the depth as well, and set nothing.

So the pieces of a template that open and close mixins, and those that stand for a caller, are
labelled here. Played back, they show which mixins are open where a caller is referred to: as many
as its number says. Its variable was set by one of them, a call with no definition inside of it
before the reference, exactly if the innermost one is a call.

## Main results

* `Jade.Forms.alike_jinjaCallers` : labels change nothing else
* `Jade.CallerMark.isBound_iff` : which callers have their variables set
* `Jade.Session.jinja_callers_bound_iff` : whole templates
-/

namespace Jade

/-- What a piece of a template has to do with callers. -/
inductive CallerMark where
  /-- It opens a call with a block or the definition of a mixin, at a depth of mixins. -/
  | opens (call : Bool) (depth : Int)
  /-- It closes a call or a definition. -/
  | closes (call : Bool)
  /-- It stands for the block of the caller with a number. -/
  | refers (depth : Int)
  deriving DecidableEq

namespace CallerMark

instance labelling : Labelling CallerMark where
  value
    | .opens call depth => .tuple [.bool call, .int depth]
    | .closes call => .bool call
    | .refers depth => .int depth
  read
    | .tuple [.bool call, .int depth] => some (.opens call depth)
    | .bool call => some (.closes call)
    | .int depth => some (.refers depth)
    | _ => none
  read_value m := by cases m <;> rfl

/-! ## Playing marks back -/

/-- The open mixins after a piece, if it fits to those before. They stand with their depths, the
innermost first. -/
def step (st : List (Bool × Int)) : CallerMark → Option (List (Bool × Int))
  | .opens call depth => if depth = st.length + 1 then some ((call, depth) :: st) else none
  | .closes call =>
    match st with
    | [] => none
    | m :: st => if m.1 = call then some st else none
  | .refers depth => if depth = st.length then some st else none

/-- The open mixins after some pieces. -/
def replay (st : List (Bool × Int)) (ms : List CallerMark) : Option (List (Bool × Int)) :=
  ms.foldlM step st

theorem replay_append (st : List (Bool × Int)) (ms ms' : List CallerMark) :
    replay st (ms ++ ms') = (replay st ms).bind (replay · ms') :=
  List.foldlM_append ..

/-- At a depth of mixins, the pieces open and close mixins in turn. -/
def Nested (d : Int) (ms : List CallerMark) : Prop :=
  ∀ st : List (Bool × Int), st.length = d → replay st ms = some st

instance isTrace_nested : Emitter.IsTrace Nested where
  nil d st _ := rfl
  append h h' st hst := by
    rw [replay_append, h st hst]
    exact h' st hst

theorem nested_refers (d : Int) : Nested d [.refers d] := by
  intro st hst
  simp [replay, step, hst]

/-- A call or a definition around pieces that are one level deeper. -/
theorem Nested.around {d : Int} {ms : List CallerMark} (call : Bool) (h : Nested (d + 1) ms) :
    Nested d (.opens call (d + 1) :: (ms ++ [.closes call])) := by
  intro st hst
  have hopen : step st (.opens call (d + 1)) = some ((call, d + 1) :: st) := by
    simp [step, hst]
  have hinner : replay ((call, d + 1) :: st) ms = some ((call, d + 1) :: st) := by
    refine h _ ?_
    rw [List.length_cons]
    omega
  rw [replay, List.foldlM_cons, hopen]
  show replay _ (ms ++ _) = _
  rw [replay_append, hinner]
  simp [replay, step]

/-! ## Callers whose variables are set -/

/-- The open mixins stand with their own depths. -/
def Stacked : List (Bool × Int) → Prop
  | [] => True
  | m :: st => m.2 = st.length + 1 ∧ Stacked st

theorem stacked_nil : Stacked [] := trivial

theorem Stacked.of_step {st st' : List (Bool × Int)} {m : CallerMark} (h : Stacked st)
    (hstep : step st m = some st') : Stacked st' := by
  cases m with
  | opens call depth =>
    obtain ⟨hdepth, rfl⟩ : depth = st.length + 1 ∧ (call, depth) :: st = st' := by
      simpa [step] using hstep
    exact ⟨hdepth, h⟩
  | closes call =>
    cases st with
    | nil => simp [step] at hstep
    | cons m st =>
      obtain ⟨-, rfl⟩ : m.1 = call ∧ st = st' := by simpa [step] using hstep
      exact h.2
  | refers depth =>
    obtain ⟨-, rfl⟩ : depth = st.length ∧ st = st' := by simpa [step] using hstep
    exact h

theorem Stacked.of_replay {ms : List CallerMark} {st st' : List (Bool × Int)} (h : Stacked st)
    (hreplay : replay st ms = some st') : Stacked st' := by
  induction ms generalizing st with
  | nil =>
    obtain rfl : st = st' := Option.some.inj hreplay
    exact h
  | cons m ms ih =>
    rw [replay, List.foldlM_cons] at hreplay
    obtain ⟨st₁, hstep, hrest⟩ := Option.bind_eq_some_iff.mp hreplay
    exact ih (h.of_step hstep) hrest

theorem Stacked.right {inner outer : List (Bool × Int)} (h : Stacked (inner ++ outer)) :
    Stacked outer := by
  induction inner with
  | nil => exact h
  | cons m inner ih => exact ih h.2

/-- One of the open mixins is a call at this depth, and there is no definition inside of it. -/
def IsBound (depth : Int) (st : List (Bool × Int)) : Prop :=
  ∃ inner outer, st = inner ++ (true, depth) :: outer ∧ ∀ m ∈ inner, m.1 = true

/-- **The variable of a caller** that has as many mixins around it as its number says is set exactly
if the innermost one is a call. -/
theorem isBound_iff {st : List (Bool × Int)} (h : Stacked st) :
    IsBound st.length st ↔ ∃ outer, st = (true, (st.length : Int)) :: outer := by
  constructor
  · rintro ⟨inner, outer, hst, -⟩
    -- mixins further out have smaller depths
    have hdepth : (st.length : Int) = outer.length + 1 := by
      rw [hst] at h
      exact h.right.1
    have hlength : st.length = inner.length + (outer.length + 1) := by
      rw [hst, List.length_append, List.length_cons]
    obtain rfl : inner = [] := List.length_eq_zero_iff.mp (by omega)
    exact ⟨outer, hst⟩
  · rintro ⟨outer, hst⟩
    exact ⟨[], outer, hst, by simp⟩

end CallerMark

/-! ## The dialect with labels -/

namespace Forms

open Emit

/-- What opens a call with a block. Within other mixins it keeps the caller first. -/
def callStart (applied : String) (depth : Int) : String :=
  (if 1 < depth then statement ("set __pyjade_caller_" ++ toString depth ++ "=caller") else "") ++
    statement ("call " ++ applied)

/-- The Jinja dialect with labels on what has to do with callers. -/
def jinjaCallers (s : Setup) : Forms :=
  { jinja s with
    namedBlock := fun name mode body => do
      let depth := (← get).mixing
      if 0 < depth then label (CallerMark.refers depth) (callerBlock s depth)
      else
        blockForm (statement ("block " ++ name)) (statement "endblock")
          (s.variableStart ++ "super()" ++ s.variableEnd) "append" "prepend" mode body
    mixin := fun name args call content => deeper do
      let applied := name ++ "(" ++ args ++ ")"
      if !call then
        let depth := (← get).mixing
        label (CallerMark.opens false depth) (statement ("macro " ++ applied))
        needed content
        label (CallerMark.closes false) (statement "endmacro")
      else match content with
        | some (_, body) =>
          let depth := (← get).mixing
          label (CallerMark.opens true depth) (callStart applied depth)
          body
          label (CallerMark.closes true) (statement "endcall")
        | none => put (s.variableStart ++ applied ++ s.variableEnd) }

/-- The pieces that open a call are one piece when they are labelled. -/
theorem agree_callStart (applied : String) (depth : Int) {body body' : Emit Unit}
    (h : Agree Emitter.Unlabels body body') :
    Agree Emitter.Unlabels (do
      if 1 < depth then
        put (statement ("set __pyjade_caller_" ++ toString depth ++ "=caller"))
      between (statement ("call " ++ applied)) (statement "endcall") body) (do
      label (CallerMark.opens true depth) (callStart applied depth)
      body'
      label (CallerMark.closes true) (statement "endcall")) := by
  have hbody := h.bind fun _ => (spells_put (statement "endcall")).agree_label
    (CallerMark.closes true)
  unfold between callStart
  by_cases hdepth : 1 < depth
  · rw [if_pos hdepth, if_pos hdepth, ← bind_assoc]
    exact (((spells_put _).bind (spells_put _)).agree_label _).bind fun _ => hbody
  · rw [if_neg hdepth, if_neg hdepth, String.empty_append]
    exact ((spells_put _).agree_label _).bind fun _ => hbody

/-- **Labels** change nothing but the output, and there nothing but labels. -/
theorem alike_jinjaCallers (s : Setup) : (jinja s).Alike Emitter.Unlabels (jinjaCallers s) :=
  have hR := Emitter.isBond_unlabels
  { matches_jinja hR.nested s s.pretty with
    namedBlock := fun _ _ _ _ h => agree_get hR fun e out =>
      .ite ((spells_put _).agree_label _) (hR.wide.blockForm _ _ _ _ _ _ h)
    mixin := by
      intro name args call content content' _ h
      refine agree_deeper hR (.ite ?_ ?_)
      · refine agree_get_right fun e => ((spells_put _).agree_label _).bind fun _ => ?_
        exact Agree.bind (hR.wide.needed (.inl fun _ => trivial) h) fun _ =>
          (spells_put _).agree_label _
      · cases h with
        | none => exact agree_put hR _
        | some h =>
          refine agree_get hR fun e out => ?_
          exact agree_callStart _ e.mixing h.2 }

theorem respects_jinjaCallers (s : Setup) :
    (jinjaCallers s).Respects (Emitter.Labels CallerMark.Nested) :=
  have hT := (stepwise_movement (I := Emitter.Labels CallerMark.Nested)).toIsSteady
  { matches_plain hT (fun _ => trivial) s s.pretty with
    namedBlock := fun name mode body _ h => moves_labels.mpr fun d => adds_get fun e he => by
      subst he
      exact .ite (adds_label trivial (CallerMark.nested_refers _))
        (moves_labels.mp (hT.blockForm _ _ _ _ _ _ h) _)
    mixin := by
      intro name args call content _ _ h
      refine moves_labels.mpr fun d => adds_deeper (.ite ?_ ?_)
      · refine adds_get fun e he => ?_
        rw [he]
        have hneeded := moves_labels.mp (hT.needed (.inl fun _ => trivial) h)
        exact adds_between trivial trivial (hneeded _) (.around false)
      · cases h with
        | none => exact moves_modify fun e => Emitter.adds_put (Emitter.IsTrace.nil d) e _
        | some h =>
          refine adds_get fun e he => ?_
          rw [he]
          exact adds_between trivial trivial (moves_labels.mp h.2 _) (.around true)
    each := fun _ _ _ _ h => hT.eachForm _ _ h }

end Forms

namespace Session

open CallerMark

/-- **Callers whose variables are set.** Suppose a tree comes out as a Jinja template. With labels,
its pieces open and close mixins in turn. Where one of them stands for the block of a caller, the
number of the caller is the number of mixins that are open; and a call that set the variable with
this number is among them, with no definition inside of it, exactly if the innermost one is a
call. -/
theorem jinja_callers_bound_iff (s : Session) (o : Options) (root : Node) (out : String)
    (h : (s.write .jinja o root).1 = .ok out) :
    let w := (s.start .jinja o).1
    ∃ e, (Emit.template w.setup (.jinjaCallers w.setup) root).run.run w.emitter = (.ok (), e) ∧
      e.glyphs.flatMap Glyph.plain = glyphsOf out ∧
      replay [] (labels e.glyphs) = some [] ∧
      ∀ before (depth : Int) after, labels e.glyphs = before ++ .refers depth :: after →
        ∃ st, replay [] before = some st ∧ (st.length : Int) = depth ∧
          (IsBound depth st ↔ ∃ outer, st = (true, depth) :: outer) := by
  intro w
  obtain ⟨e, hrun, hplain, -, hnested⟩ :=
    write_labels (d := .jinja) (Forms.alike_jinjaCallers w.setup)
    (Forms.respects_jinjaCallers w.setup) h
  have hreplay := hnested [] rfl
  refine ⟨e, hrun, hplain, hreplay, fun before depth after hlabels => ?_⟩
  rw [hlabels, replay_append] at hreplay
  obtain ⟨st, hbefore, hafter⟩ := Option.bind_eq_some_iff.mp hreplay
  have hdepth : depth = st.length := by
    rw [replay, List.foldlM_cons] at hafter
    obtain ⟨_, hstep, -⟩ := Option.bind_eq_some_iff.mp hafter
    simp only [step, Option.ite_none_right_eq_some] at hstep
    exact hstep.1
  subst hdepth
  exact ⟨st, hbefore, rfl, isBound_iff (stacked_nil.of_replay hbefore)⟩

/-- A call with a block within a mixin. -/
theorem jinja_callers_bound_iff_call :
    let w := (({} : Session).start .jinja {}).1
    ∃ root out e, parse (.ofText "mixin a()\n  +b()\n    block\n") none = .ok root ∧
      (({} : Session).write .jinja {} root).1 = .ok out ∧
      (Emit.template w.setup (.jinjaCallers w.setup) root).run.run w.emitter = (.ok (), e) ∧
      e.glyphs.flatMap Glyph.plain = glyphsOf out ∧
      labels e.glyphs = [opens false 1, opens true 2, refers 2, .closes true, .closes false] ∧
      ∃ st, replay [] [opens false 1, opens true 2] = some st ∧ IsBound 2 st := by
  intro w
  obtain ⟨root, out, hparse, hout, hmarks⟩ := exists_labels .jinja .jinjaCallers
    "mixin a()\n  +b()\n    block\n"
    [opens false 1, opens true 2, refers 2, .closes true, .closes false] (by decide +kernel)
  obtain ⟨e, hrun, hplain, -, hrefers⟩ := jinja_callers_bound_iff {} {} root out hout
  obtain ⟨st, hst, -, hbound⟩ := hrefers [opens false 1, opens true 2] 2 _ (hmarks e hrun)
  have hopen : replay [] [opens false 1, opens true 2] = some [(true, 2), (false, 1)] := by decide
  obtain rfl := Option.some.inj (hopen.symm.trans hst)
  exact ⟨root, out, e, hparse, hout, hrun, hplain, hmarks e hrun, _, hst, hbound.mpr ⟨_, rfl⟩⟩

/-- Within two definitions, a named block stands for a second caller, which no call has kept. -/
theorem jinja_caller_unbound :
    let w := (({} : Session).start .jinja {}).1
    ∃ root out e, parse (.ofText "mixin a()\n  mixin b()\n    block\n") none = .ok root ∧
      (({} : Session).write .jinja {} root).1 = .ok out ∧
      (Emit.template w.setup (.jinjaCallers w.setup) root).run.run w.emitter = (.ok (), e) ∧
      e.glyphs.flatMap Glyph.plain = glyphsOf out ∧
      labels e.glyphs = [opens false 1, opens false 2, refers 2, .closes false, .closes false] ∧
      ∃ st, replay [] [opens false 1, opens false 2] = some st ∧ ¬ IsBound 2 st := by
  intro w
  obtain ⟨root, out, hparse, hout, hmarks⟩ := exists_labels .jinja .jinjaCallers
    "mixin a()\n  mixin b()\n    block\n"
    [opens false 1, opens false 2, refers 2, .closes false, .closes false] (by decide +kernel)
  obtain ⟨e, hrun, hplain, -⟩ := write_labels (d := .jinja) (Forms.alike_jinjaCallers w.setup)
    (Forms.respects_jinjaCallers w.setup) hout
  have hopen : replay [] [opens false 1, opens false 2] = some [(false, 2), (false, 1)] := by
    decide
  refine ⟨root, out, e, hparse, hout, hrun, hplain, hmarks e hrun, _, hopen, fun hbound => ?_⟩
  obtain ⟨outer, hst⟩ := (isBound_iff (stacked_nil.of_replay hopen)).mp hbound
  simp at hst

end Session

end Jade
