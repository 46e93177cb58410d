import Jade.Proofs.Dialect.Alike
import Jade.Proofs.Emitter.Output
import Jade.Proofs.Reader.Outcome

/-!
# The calls that write

A template is written by calls of two kinds. A text may join the piece before it, which is then
replaced by a longer one, or it may be a piece of its own. This is not seen from outside: whatever
calls are made, in any order, each of them adds its text to what the pieces together are.

What an action has done on its way is not seen in the state in which it ends. So `Emit.Run` follows
it step by step: all that it does is to give back a value or a fault, to look at the state, to
change it aside from the output, and to make calls. A call with a text is no change aside from the
output, so it cannot be passed over. Every dialect of templates consists of such steps, and so does
the walk.

## Main results

* `Jade.Emit.glyphs_calls` : what any calls add to the output
* `Jade.Emit.Run.run_eq` : these are the calls of the action
* `Jade.Emit.Run.glyphs` : what has been written after each of them
* `Jade.output_of_calls` : whole templates
-/

namespace Jade

namespace Emit

open Emitter (IsAside)

variable {α β : Type} {e e' : Emitter}

/-- A call that writes. -/
inductive Call where
  /-- A text that may join the piece before it. -/
  | put (s : String)
  /-- A text as a piece of its own. -/
  | push (s : String)

namespace Call

def text : Call → String
  | put s | push s => s

def act : Call → Emit Unit
  | put s => Emit.put s
  | push s => Emit.push s

/-- What the call makes of the state. -/
def make : Call → Emitter → Emitter
  | put s => Emitter.put s
  | push s => Emitter.push (.text s)

theorem glyphs_make (c : Call) (e : Emitter) :
    (c.make e).glyphs = e.glyphs ++ glyphsOf c.text := by
  cases c with
  | put s => exact e.glyphs_put s
  | push s => exact e.glyphs_push (.text s)

theorem run_act (c : Call) (e : Emitter) : c.act.run.run e = (.ok (), c.make e) := by
  cases c <;> rfl

end Call

/-- Calls one after the other. -/
def calls (cs : List Call) : Emit Unit := cs.forM Call.act

/-- **Any calls** succeed, and add their texts to the output in their order. -/
theorem glyphs_calls (cs : List Call) (e : Emitter) :
    ∃ e', (calls cs).run.run e = (.ok (), e') ∧
      e'.glyphs = e.glyphs ++ cs.flatMap (glyphsOf ·.text) := by
  induction cs generalizing e with
  | nil => exact ⟨e, rfl, (List.append_nil _).symm⟩
  | cons c cs ih =>
    obtain ⟨e', hrun, hglyphs⟩ := ih (c.make e)
    refine ⟨e', ?_, ?_⟩
    · show (c.act >>= fun _ => calls cs : Emit Unit).run.run e = _
      rw [Reader.run_bind, c.run_act]
      exact hrun
    · rw [hglyphs, c.glyphs_make, List.append_assoc, List.flatMap_cons]

/-- A call and the state after it. -/
abbrev Moment := Call × Emitter

/-- The calls that an action makes from a state on, its outcome, and the state in which it ends. -/
inductive Run : {α : Type} → Emit α → Emitter → List Moment → Except Fault α → Emitter → Prop
  | pure {α : Type} (a : α) (e : Emitter) : Run (pure a) e [] (.ok a) e
  | throw {α : Type} (f : Fault) (e : Emitter) : Run (throw f : Emit α) e [] (.error f) e
  | get (e : Emitter) : Run get e [] (.ok e) e
  | aside {g : Emitter → Emitter} (hg : IsAside g) (e : Emitter) :
      Run (modify g) e [] (.ok ()) (g e)
  | call (c : Call) (e : Emitter) : Run c.act e [(c, c.make e)] (.ok ()) (c.make e)
  | next {α β : Type} {act : Emit α} {k : α → Emit β} {e e₁ e₂ : Emitter}
      {ms ms' : List Moment} {a : α} {r : Except Fault β} :
      Run act e ms (.ok a) e₁ → Run (k a) e₁ ms' r e₂ → Run (act >>= k) e (ms ++ ms') r e₂
  | stop {α β : Type} {act : Emit α} {k : α → Emit β} {e e₁ : Emitter}
      {ms : List Moment} {f : Fault} :
      Run act e ms (.error f) e₁ → Run (act >>= k) e ms (.error f) e₁

namespace Run

variable {act : Emit α} {ms : List Moment} {r : Except Fault α}

/-- **The calls are those of the action.** -/
theorem run_eq (h : Run act e ms r e') : act.run.run e = (r, e') := by
  induction h with
  | pure | throw | get | aside => rfl
  | call c e => exact c.run_act e
  | next _ _ ih ih' => rw [Reader.run_bind, ih, ← ih']
  | stop _ ih => rw [Reader.run_bind, ih]

/-- **What has been written** after each call, and in the end. -/
theorem glyphs (h : Run act e ms r e') :
    e'.glyphs = e.glyphs ++ ms.flatMap (fun m => glyphsOf m.1.text) ∧
      ∀ i m, ms[i]? = some m →
        m.2.glyphs = e.glyphs ++ (ms.take (i + 1)).flatMap fun m => glyphsOf m.1.text := by
  induction h with
  | pure | throw | get => simp
  | aside hg e => simp [Emitter.glyphs_aside hg]
  | call c e =>
    refine ⟨by simp [Call.glyphs_make], fun i m hm => ?_⟩
    cases i with
    | zero =>
      cases hm
      simp [Call.glyphs_make]
    | succ i => cases hm
  | stop _ ih => exact ih
  | @next _ _ _ _ _ _ _ ms ms' _ _ _ _ ih ih' =>
    obtain ⟨hend, hcalls⟩ := ih
    obtain ⟨hend', hcalls'⟩ := ih'
    refine ⟨by rw [hend', hend, List.flatMap_append, List.append_assoc], fun i m hm => ?_⟩
    rcases Nat.lt_or_ge i ms.length with hi | hi
    · rw [List.getElem?_append_left hi] at hm
      rw [hcalls i m hm, List.take_append_of_le_length hi]
    · have htake : (ms ++ ms').take (i + 1) = ms ++ ms'.take (i - ms.length + 1) := by
        rw [List.take_append, List.take_of_length_le (Nat.le_add_right_of_le hi),
          Nat.sub_add_comm hi]
      rw [List.getElem?_append_right hi] at hm
      rw [hcalls' _ m hm, hend, htake, List.flatMap_append, List.append_assoc]

end Run

/-! ## Templates -/

/-- The first of two actions consists of such steps. -/
def Traced : Judgement := fun _ act _ => ∀ e, ∃ ms r e', Run act e ms r e'

theorem traced_modify {g : Emitter → Emitter} (hg : IsAside g) :
    Traced Unit (modify g) (modify g) := fun e => ⟨_, _, _, .aside hg e⟩

theorem Traced.bind {act act' : Emit α} {k k' : α → Emit β} (h : Traced α act act')
    (hk : ∀ a, Traced β (k a) (k' a)) : Traced β (act >>= k) (act' >>= k') := by
  intro e
  obtain ⟨ms, r, e₁, hact⟩ := h e
  cases r with
  | error f => exact ⟨_, _, _, .stop hact⟩
  | ok a =>
    obtain ⟨_, _, _, hrest⟩ := hk a e₁
    exact ⟨_, _, _, .next hact hrest⟩

theorem traced_get {k k' : Emitter → Emit β} (h : ∀ e, Traced β (k e) (k' e)) :
    Traced β (get >>= k) (get >>= k') := by
  intro e
  obtain ⟨_, _, _, hrest⟩ := h e e
  exact ⟨_, _, _, .next (.get e) hrest⟩

theorem walked_traced : IsWalked Traced fun _ => True where
  pure a e := ⟨_, _, _, .pure a e⟩
  fail _ e := ⟨_, _, _, .throw _ e⟩
  bind := Traced.bind
  look h := traced_get fun e => h e e
  put s e := ⟨_, _, _, .call (.put s) e⟩
  push s e := ⟨_, _, _, .call (.push s) e⟩
  note _ _ _ := traced_modify fun _ _ => rfl
  shift _ := traced_modify fun _ _ => rfl
  setDoctype _ _ := traced_modify fun _ _ => rfl

theorem wide_traced : IsWide Traced fun _ => True :=
  { walked_traced with
    get := fun h => traced_get fun e => h e e.toBuffer
    count := fun _ => traced_modify fun _ _ => rfl }

theorem nested_traced : IsNested Traced Traced fun _ => True :=
  { wide_traced with
    inner := wide_traced
    deeper := fun h => (traced_modify fun _ _ => rfl).bind fun _ =>
      h.bind fun _ => traced_modify fun _ _ => rfl }

theorem traced_visit (s : Setup) {d : Dialect} (hd : d ≠ .page) (root : Node) :
    Traced Unit (visit s (d.forms s) root) (visit s (d.forms s) root) := by
  have hforms := Dialect.matches_forms nested_traced (fun _ => trivial) s s.pretty hd
  rw [ite_self] at hforms
  refine walked_traced.visit (walked_traced.follows (walked_traced.lays s) fun m _ => ?_)
  have hm : m.IsAllowed s.filters fun _ => True := .inl fun _ => trivial
  exact ⟨hm, hforms.matchesAt hm⟩

end Emit

/-- **Output is what was written, call by call.** Whatever calls are made, and from whatever state
on, they add their texts to the output in their order; so nothing that was written is ever lost,
repeated or changed. Take any dialect of templates and any tree. The template is written by such
calls, of which the first writes the opening of the dialect. After each of them the output is the
texts of all calls so far, and unless there is a fault, the texts of all calls come out. -/
theorem output_of_calls (s : Session) {d : Dialect} (hd : d ≠ .page) (o : Options) (root : Node) :
    let c := (s.start d o).1
    (∀ (cs : List Emit.Call) (e : Emitter) (before : String), e.result = .ok before →
      ∃ e', (Emit.calls cs).run.run e = (.ok (), e') ∧
        e'.result = .ok (before ++ String.join (cs.map (·.text)))) ∧
    ∃ (ms : List Emit.Moment) (r : Except Fault Unit) (e : Emitter),
      Emit.Run (Emit.template c.setup (d.forms c.setup) root) c.emitter ms r e ∧
      ms.head?.map Prod.fst = some (.push (d.forms c.setup).opening) ∧
      (∀ (i : Nat) (m : Emit.Moment), ms[i]? = some m →
        m.2.result = .ok (String.join ((ms.take (i + 1)).map (·.1.text)))) ∧
      (s.write d o root).1 = r.map fun _ => String.join (ms.map (·.1.text)) := by
  intro c
  refine ⟨fun cs e before hbefore => ?_, ?_⟩
  · obtain ⟨e', hrun, hglyphs⟩ := Emit.glyphs_calls cs e
    refine ⟨e', hrun, Emitter.result_eq_ok_iff.mpr ?_⟩
    rw [hglyphs, Emitter.result_eq_ok_iff.mp hbefore, glyphsOf_append, glyphsOf_join,
      List.flatMap_map]
  obtain ⟨ms, r, e, hvisit⟩ := Emit.traced_visit c.setup hd root
    (Emit.Call.make (.push (d.forms c.setup).opening) c.emitter)
  have hrun : Emit.Run (Emit.template c.setup (d.forms c.setup) root) c.emitter _ r e :=
    .next (.call (.push (d.forms c.setup).opening) c.emitter) hvisit
  obtain ⟨hend, hcalls⟩ := hrun.glyphs
  have hempty : c.emitter.glyphs = [] := s.glyphs_start d o
  simp only [hempty, List.nil_append] at hend hcalls
  refine ⟨_, r, e, hrun, rfl, fun i m hm => ?_, ?_⟩
  · rw [Emitter.result_eq_ok_iff, hcalls i m hm, glyphsOf_join, List.flatMap_map]
  · have hwrite : (s.write d o root).1 =
        ((Emit.written (Emit.template c.setup (d.forms c.setup) root)).run.run c.emitter).1 := rfl
    rw [hwrite, Emit.run_written, hrun.run_eq]
    cases r with
    | error f => rfl
    | ok _ =>
      rw [← List.flatMap_map, ← glyphsOf_join] at hend
      exact Emitter.result_eq_ok_iff.mpr hend

/-- A tag whose code is a piece of its own, between texts that join others. -/
theorem output_of_calls_code :
    let c := (({} : Session).start .jinja {}).1
    let out := "\n<p>\x7b\x7ba|escape\x7d\x7db</p>"
    ∃ root ms e, parse (.ofText "p= a\n  | b") none = .ok root ∧
      (({} : Session).write .jinja {} root).1 = .ok out ∧
      Emit.Run (Emit.template c.setup (Dialect.forms .jinja c.setup) root) c.emitter ms (.ok ()) e ∧
      String.join (ms.map (·.1.text)) = out := by
  intro c out
  have hpage : (parse (.ofText "p= a\n  | b") none).toOption.map
      (fun root => (({} : Session).write .jinja {} root).1) = some (.ok out) := by
    decide +kernel
  obtain ⟨root, hparse, hwrite⟩ := Reader.exists_ok_of_map hpage
  have hd : Dialect.jinja ≠ .page := nofun
  obtain ⟨-, ms, r, e, hrun, -, -, hout⟩ := output_of_calls {} hd {} root
  rw [hwrite] at hout
  cases r with
  | error f => cases hout
  | ok _ => exact ⟨root, ms, e, hparse, hwrite, hrun, (Except.ok.inj hout).symm⟩

end Jade
