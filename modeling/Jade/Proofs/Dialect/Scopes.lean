import Jade.Proofs.Dialect.Moved
import Jade.Proofs.Emitter.Depth
import Jade.Proofs.Source.Observation

/-!
# Scopes of a page are left as they were entered

A loop and the call of a mixin open a scope: the local names are copied, further ones are added, and
statements inside of it bind names in the copy. When the scope is left, the names around it are
local again, whatever it holds: other loops and calls, definitions of mixins, statements or
assignments, which bind global names only.

Scopes are entered and left in turn, so the names around the innermost scope are a stack
(`Page.stack`). A loop or a call that comes to its end leaves the stack as it was, and while it runs
the stack below it is not changed (`Emit.Shields`): a fault may leave scopes open, but those that
were there before are still there.

All this is about the tables in which names are kept. Once a script has got hold of such a table, it
is again the local one after the scope, but what it holds may have been changed inside of the scope.

## Main results

* `Jade.Forms.saves_page` : the stack below a scope, whatever is in it
* `Jade.Forms.exists_guards` : the stack during and after a scope
* `Jade.Emit.scopes_restored` : loops and calls
-/

namespace Jade

/-- The local names of all scopes, the innermost first. -/
def Page.stack (p : Page) : List Script.Frame := p.locals :: p.outer

/-- Whether the construct of the node opens a scope: it is a loop or calls a mixin. -/
def Node.opensScope : Node → Bool
  | .each .. | .mixin _ _ none _ => true
  | _ => false

namespace Page

/-! ## Scopes around others -/

/-- Some scopes are around the innermost one. -/
def Saves (base : List Script.Frame) (p : Page) : Prop := base <:+ p.outer

variable {base : List Script.Frame}

theorem isKept_saves : IsKept (Saves base) where
  store _ h := h
  enter _ h := h.trans (List.suffix_cons _ _)
  back _ hp := hp

/-- Statements bind names in the innermost scope, and assignments and definitions in none. -/
theorem allows_saves (n : Node) : Allows (Saves base) n := by
  refine ⟨fun p hp _ => hp, ?_⟩
  unfold Changes
  split
  · exact fun p o hp => hp
  · exact fun p hp => hp
  · intro p hp
    rw [Saves, outer_afterRun]
    exact hp
  · trivial

theorem allowsMixins_saves : AllowsMixins .all (Saves base) :=
  fun _ _ _ _ _ _ n _ => ⟨allows_saves n, n.within_all⟩

theorem isKept_stack : IsKept fun p => base <:+ p.stack where
  store _ h := h
  enter _ h := h.trans (List.suffix_cons _ _)
  back _ hp := hp

/-- In a new scope, all scopes so far are around the innermost one. -/
theorem shelters_saves : Shelters (fun p => base <:+ p.stack) (Saves base) where
  enter _ h := h
  fault h := h.trans (List.suffix_cons _ _)
  back _ hp := hp

/-- The page after a script of the node. The scopes are as before, but the local names may have been
put into a table for the script to get hold of. -/
structure Readied (n : Node) (p q : Page) : Prop where
  outer : q.outer = p.outer
  shared : ∀ place, p.locals = .shared place → q.locals = .shared place
  own : p.held = false → n.mayHold = false → q = p

theorem readied_self (n : Node) (p : Page) : Readied n p p := ⟨rfl, fun _ h => h, fun _ _ => rfl⟩

theorem readied_ready {n : Node} {source : String} (h : source ∈ n.expressions) (p : Page) :
    Readied n p (p.ready source) where
  outer := p.outer_ready source
  shared place hplace := by
    unfold ready
    split
    · simp only [share, hplace, Script.Frame.share]
    · exact hplace
  own hheld hhold := by
    refine ready_of_not fun hready => ?_
    rcases hready with hready | hready
    · exact Bool.eq_false_iff.mp hhold (Node.mayHold_of_expression h hready)
    · exact Bool.eq_false_iff.mp hheld hready

end Page

namespace Emit

/-! ## Scopes that are left -/

variable {α : Type}

theorem run_before (isTag : Bool) (e : Emitter) :
    ∃ e', (before isTag).run.run e = (.ok (), e') ∧ e'.page = e.page := by
  rw [before, Reader.run_bind, run_get]
  dsimp only
  split
  · exact ⟨_, rfl, rfl⟩
  · exact ⟨_, rfl, rfl⟩

/-- If the action succeeds, it leaves the scopes as they were. -/
abbrev Restores (act : Emit α) : Prop := Keeps (fun e => e.page.stack) act

/-- The scopes are as before if the action comes to its end, and in any case they are still
there. -/
structure Shields (act : Emit α) : Prop where
  restores : Restores act
  saves : ∀ base, Agree (Emitter.Moved .still .all fun p => base <:+ p.stack) act act

theorem shields_throw (f : Fault) : Shields (throw f : Emit α) :=
  ⟨moves_throw f, fun _ => agree_throw f⟩

theorem restores_script (act : Script.Eval α) : Restores (script act) := by
  refine moves_of_ok fun e a e' hrun => ?_
  rw [run_script] at hrun
  obtain ⟨-, rfl⟩ := Prod.mk.inj hrun
  rfl

theorem saves_script (act : Script.Eval α) (base : List Script.Frame) :
    Agree (Emitter.Moved .still .all fun p => base <:+ p.stack) (script act) (script act) := by
  refine conveys_id.mp (conveys_script Page.isKept_stack fun s s' h => ?_)
  rw [h.eq_of_still, Except.map_id]
  exact ⟨rfl, .still _⟩

/-- Scripts that only read names change nothing but the store. An expression may get hold of a
scope, so it is not admitted. -/
theorem scripted_restores : IsScripted .still (fun _ => False)
    (Movement (Emitter.Same fun e => e.page.stack) fun _ => True) :=
  have hview : Emitter.IsBackground fun e => e.page.stack := fun _ _ _ _ _ _ _ => rfl
  have := hview.isStride
  { stepwise_movement with
    script := fun _ hk => (restores_script _).bind hk
    evaluate := False.elim }

theorem shields_script (act : Script.Eval α) {k : α → Emit Unit} (h : ∀ a, Shields (k a)) :
    Shields (script act >>= k) where
  restores := (restores_script act).bind fun a => (h a).restores
  saves base := (saves_script act base).bind fun a => (h a).saves base

/-- A loop shields the scopes if each of its turns does. -/
theorem shields_loop (o : Script.Object) (keys : Nat) {act : Script.Object → Emit Unit}
    (h : ∀ o, Shields (act o)) : Shields (loop o keys act) where
  restores := @IsScripted.loop _ _ _ scripted_restores act act (fun o => (h o).restores) o keys
  saves base := by
    have hact (o : Script.Object) : Agree (Emitter.Moved .still .all fun p => base <:+ p.stack)
        (act o) (act (Script.Motion.still.move o)) := by
      rw [Script.Motion.move_still]
      exact (h o).saves base
    have hloop := @IsScripted.loop _ _ _ (scripted_moved Page.isKept_stack) act act hact o keys
    rwa [Script.Motion.move_still] at hloop

/-- A scope that is left brings back what was there before, whatever was done in it. -/
theorem shields_inScope (names : List (String × Script.Object)) {act : Emit Unit}
    (h : ∀ base, Agree (Emitter.Moved .still .all (Page.Saves base)) act act) :
    Shields (inScope names act) where
  restores := by
    refine moves_of_ok fun e a e' hrun => ?_
    rw [run_inScope] at hrun
    split at hrun
    · cases hrun
    · cases hrun
      rfl
  saves base := by
    have hscope := agree_moved_inScope (m := .still) (F := .all) Page.shelters_saves names (h base)
    rwa [Script.Motion.moveNamed_still, List.map_id] at hscope

end Emit

namespace Forms

open Emit

variable {base : List Script.Frame}

/-- **Whatever a page holds** saves the scopes around the innermost one, also if it ends by a
fault. -/
theorem saves_page (s : Setup) (depth : Nat) (n : Node) :
    Follows (fun _ => Agree (Emitter.Moved .still .all (Page.Saves base))) (fun _ => True)
      (.walk s (page s depth)) (.walk s (page s depth)) n :=
  have hT := (Emitter.isTie_moved .still .all (Page.Saves base)).walked
  hT.follows (hT.lays s) fun m _ => ⟨.inl fun _ => trivial, alikeAt_page Page.isKept_saves s
    Page.allowsMixins_saves depth (Page.allows_saves m) m.within_all⟩

/-- A page writes what mixins hold in a way that saves the scopes around the innermost one. -/
theorem exists_pageWith (s : Setup) (depth : Nat) : ∃ render, page s depth = pageWith s render ∧
    ∀ n base, Agree (Emitter.Moved .still .all (Page.Saves base)) (render n) (render n) := by
  cases depth with
  | zero => exact ⟨_, rfl, fun _ _ => agree_throw _⟩
  | succ depth => exact ⟨_, rfl, fun n _ => (saves_page s depth n).2 (.inl fun _ => trivial)⟩

theorem node_each (s : Setup) (render : Node → Emit Unit) (subject : String) (keys : List String)
    (content : Option Node) (line : Option Nat) :
    node s (pageWith s render) (.each subject keys content line) =
      pageEach subject keys (required s (pageWith s render) content) := by
  rw [node, pageWith]

theorem node_call (s : Setup) (render : Node → Emit Unit) (name args : String) (call : Bool) :
    node s (pageWith s render) (.mixin name args none call) = callMixin render name args := by
  rw [node, Emit.inner, pageWith]

/-- A loop or a call is a script of its own and then an action that shields the scopes. The script
may have to get hold of the innermost one. -/
theorem exists_guards (s : Setup) (depth : Nat) {n : Node} (hn : n.opensScope = true)
    (e : Emitter) : ∃ p store, e.page.Readied n p ∧ ∃ act : Emit Unit, Shields act ∧
      (node s (page s depth) n).run.run e = act.run.run { e with page := { p with store } } := by
  obtain ⟨render, hpage, hrender⟩ := exists_pageWith s depth
  cases n with
  | each subject keys content line =>
    have hbody (base : List Script.Frame) := (Emitter.isTie_moved .still .all
      (Page.Saves base)).walked.required (fun n (_ : n ∈ content.toList) => saves_page s depth n)
        (.inl fun _ => trivial)
    simp only [← required_eq, hpage] at hbody
    obtain ⟨o, store, hrun⟩ := run_evaluate subject e
    refine ⟨_, store, Page.readied_ready (.head _) _, _, shields_loop o keys.length fun o =>
      shields_script (bindings keys o) fun names => shields_inScope names hbody, ?_⟩
    rw [hpage, node_each, pageEach, Reader.run_bind, hrun]
  | mixin name args content call =>
    cases content with
    | some content => cases hn
    | none =>
      rw [hpage, node_call, callMixin, Reader.run_bind, run_get]
      dsimp only
      cases e.page.mixins.get? name with
      | none => exact ⟨_, e.page.store, Page.readied_self _ _, _, shields_throw _, rfl⟩
      | some mixin =>
        dsimp only
        by_cases hargs : args.isEmpty = true
        · refine ⟨_, e.page.store, Page.readied_self _ _, _,
            shields_inScope (mixin.params.zip []) (hrender mixin.content), ?_⟩
          rw [if_pos hargs]
          rfl
        · obtain ⟨o, store, hrun⟩ := run_evaluate args e
          refine ⟨_, store, Page.readied_ready (.head _) _, _,
            shields_script (Script.firstMembers mixin.params.length o) fun os =>
              shields_inScope (mixin.params.zip os) (hrender mixin.content), ?_⟩
          rw [if_neg hargs, Reader.run_bind, hrun]
  | _ => cases hn

end Forms

namespace Emit

open Forms

/-- **Scopes are restored.** Take a loop or the call of a mixin, with anything in it, in any state
of a page. If it comes to its end, then the scopes around the innermost one are those that there
were before. The local names are in the same table as before, if they have been in one; and if no
script has had hold of a scope so far and that of the construct itself does not get it, then they
are the same names with the same objects. And however the construct ends, all these scopes are
still there. -/
theorem scopes_restored (s : Setup) (depth : Nat) {n : Node} (hn : n.opensScope = true)
    (e : Emitter) :
    let out := (visit s (page s depth) n).run.run e
    (out.1 = .ok () → out.2.page.outer = e.page.outer ∧
      (∀ place, e.page.locals = .shared place → out.2.page.locals = .shared place) ∧
      ∀ names, e.page.locals = .own names → e.page.held = false → n.mayHold = false →
        out.2.page.locals = .own names) ∧
    e.page.outer <:+ out.2.page.outer ∧
    (e.page.held = false → n.mayHold = false → e.page.stack <:+ out.2.page.stack) := by
  intro out
  obtain ⟨e₁, hbefore, hpage⟩ := run_before (isTag n) e
  obtain ⟨p, store, hready, act, hact, hnode⟩ := exists_guards s depth hn e₁
  rw [hpage] at hready
  have hrun : out = act.run.run { e₁ with page := { p with store } } := by
    rw [← hnode]
    show (visit s (page s depth) n).run.run e = _
    rw [visit, Reader.run_bind, hbefore]
  have hsaved : p.stack <:+ out.2.page.stack := by
    rw [hrun]
    exact (hact.saves p.stack).kept (List.suffix_refl _)
  refine ⟨fun hok => ?_, ?_, fun hheld hhold => hready.own hheld hhold ▸ hsaved⟩
  · have hstack : out.2.page.stack = p.stack :=
      hact.restores _ () out.2 (hrun.symm.trans (Prod.ext hok rfl))
    obtain ⟨hlocals, houter⟩ := List.cons.inj hstack
    refine ⟨houter.trans hready.outer, fun place h => hlocals.trans (hready.shared place h), ?_⟩
    intro names h hheld hhold
    rw [hlocals, hready.own hheld hhold, h]
  · rw [← hready.outer]
    rcases List.suffix_cons_iff.mp hsaved with heq | hbelow
    · exact (List.cons.inj heq).2 ▸ List.suffix_refl _
    · exact (List.suffix_cons _ _).trans hbelow

/-- A loop whose statement binds a name that is bound outside, too. -/
theorem scopes_restored_shadowed :
    let n : Node := .each "[1, 2]" ["i"]
      (some (.block [.code " x = i" false false none none] none false)) none
    let e : Emitter := { page := { locals := .own (.ofPairs [("x", .int 7)]) } }
    ((visit {} (page {} 1) n).run.run e).1.toOption = some () ∧
      ((visit {} (page {} 1) n).run.run e).2.page.locals = e.page.locals := by
  intro n e
  have hsome : ((visit {} (page {} 1) n).run.run e).1.toOption = some () := by decide +kernel
  have hhold : n.mayHold = false := by decide +kernel
  have hrestored := (scopes_restored {} 1 (n := n) rfl e).1 (eq_ok_of_toOption hsome)
  exact ⟨hsome, hrestored.2.2 _ rfl rfl hhold⟩

/-- A statement of a loop binds a name outside of it, in a table that was got hold of before. -/
theorem scopes_leak :
    let shown (loop : String) :=
      (({} : Session).process .page {} (.ofText (loop ++ "\n= leak")) none).1.toOption
    shown "each i in [1]\n  - leak = 1" = some "None" ∧
      shown "x = locals()\neach i in [1]\n  - x['leak'] = 1" = some "1" := by
  decide +kernel

end Emit

end Jade
