import Jade.Proofs.Dialect.Alike

/-!
# Pages at other places

Two pages that differ in the places of their lists, tables and streams are rendered alike. They may
also differ in names and mixins that are not in focus, if all constructs of the template keep to the
focus and no script gets hold of a scope, where it would see all names. What is around a scope is
not compared: it is only looked at when a template is done.

The same walk through a template shows what it leaves as it is. So the relation of two runs takes a
property of pages along. Scripts that bind nothing change the store only, and a scope that is left
brings back the names that were there before; a property that allows for this is *kept* by all but
a few constructs, and these are asked for it one by one (`Page.Allows`).

## Main results

* `Jade.Emit.Agree.kept` : what one run keeps
* `Jade.Forms.alikeAt_page` : the forms of a page on a node, by induction on the depth of calls
* `Jade.Forms.agree_pageTemplate` : a whole template
-/

namespace Jade

open Script (Motion)

/-! ## What is looked up -/

/-- What is looked up. -/
structure Focus where
  names : String → Prop
  calls : String → Prop
  holds : Prop := False

/-- The focus that leaves nothing out. -/
def Focus.all : Focus := ⟨fun _ => True, fun _ => True, True⟩

namespace Node

/-- The expressions that the construct of the node evaluates. -/
def expressions : Node → List String
  | .tag head _ beside _ _ =>
    (head.attributes.toOption.getD []).filterMap Attribute.expression? ++
      ((beside.bind fun n => (Emit.tagText n).toOption).map markedExpressions).getD []
  | .text parts _ => markedExpressions (String.join parts)
  | .string parts _ => markedExpressions (String.join parts)
  | .filter _ _ content _ => ((Emit.blockText content).toOption.map markedExpressions).getD []
  | .code source true _ _ _ => [localised (stripStart source)]
  | .each subject _ _ _ => [subject]
  | .conditional _ sentence _ _ _ => [sentence]
  | .assignment _ value => [value]
  | .mixin _ args none _ => [args]
  | _ => []

/-- The statements that the construct of the node runs. -/
def statements? : Node → Option String
  | .code source false _ none _ => some (stripStart source)
  | _ => none

/-- The names that the construct of the node looks up. -/
def names (n : Node) : List String :=
  n.expressions.flatMap Script.namesIn ++ (n.statements?.map Script.namesInStatements).getD []

/-- Whether a script of the construct of the node may get hold of a scope. -/
def mayHold (n : Node) : Bool := (n.expressions ++ n.statements?.toList).any Script.mayHold

/-- The mixins that the construct of the node calls. -/
def calls : Node → List String
  | .mixin name _ none _ => [name]
  | _ => []

/-- The construct of the node looks up nothing but what is in focus. -/
structure Within (F : Focus) (n : Node) : Prop where
  names : ∀ k ∈ n.names, F.names k
  calls : ∀ name ∈ n.calls, F.calls name
  holds : n.mayHold = true → F.holds

instance decidableWithin (F : Focus) [DecidablePred F.names] [DecidablePred F.calls]
    [Decidable F.holds] (n : Node) : Decidable (n.Within F) :=
  decidable_of_iff ((∀ k ∈ n.names, F.names k) ∧ (∀ name ∈ n.calls, F.calls name) ∧
      (n.mayHold = true → F.holds))
    ⟨fun h => ⟨h.1, h.2.1, h.2.2⟩, fun h => ⟨h.names, h.calls, h.holds⟩⟩

theorem within_all (n : Node) : n.Within .all :=
  ⟨fun _ _ => trivial, fun _ _ => trivial, fun _ => trivial⟩

theorem Within.expression {F : Focus} {n : Node} (h : n.Within F) {expr : String}
    (hexpr : expr ∈ n.expressions) : ∀ k ∈ Script.namesIn expr, F.names k := fun k hk =>
  h.names k (List.mem_append_left _ (List.mem_flatMap.mpr ⟨expr, hexpr, hk⟩))

theorem Within.statements {F : Focus} {n : Node} (h : n.Within F) {source : String}
    (hsource : n.statements? = some source) :
    ∀ k ∈ Script.namesInStatements source, F.names k := by
  intro k hk
  refine h.names k (List.mem_append_right _ ?_)
  rw [hsource]
  exact hk

theorem mayHold_of_expression {n : Node} {expr : String} (hexpr : expr ∈ n.expressions)
    (h : Script.mayHold expr = true) : n.mayHold = true :=
  List.any_eq_true.mpr ⟨expr, List.mem_append_left _ hexpr, h⟩

theorem mayHold_of_statements {n : Node} {source : String} (hsource : n.statements? = some source)
    (h : Script.mayHold source = true) : n.mayHold = true := by
  refine List.any_eq_true.mpr ⟨source, List.mem_append_right _ ?_, h⟩
  rw [hsource]
  exact .head _

end Node

/-! ## Pages -/

namespace Page

/-- A page that is the same in focus, with its places moved. If scripts may get hold of scopes, then
it is the very same. -/
structure Moved (m : Motion) (F : Focus) (p p' : Page) : Prop where
  store : m.Relates p.store p'.store
  globals : m.MatchesFrame F.names p.globals p'.globals
  locals : m.MatchesFrame F.names p.locals p'.locals
  mixins : ∀ name, F.calls name → p'.mixins.get? name = p.mixins.get? name
  apart : F.holds ∨ ∃ names, p.globals = .own names
  same : F.holds → m = .still ∧ p'.globals = p.globals ∧ p'.locals = p.locals

/-- The page in a new scope that has further names. -/
def enter (p : Page) (names : List (String × Script.Object)) : Page :=
  let (locals, store) := p.locals.copy p.store names
  { p with locals, outer := p.locals :: p.outer, store }

/-- The page in the scope that another one was in. -/
def back (p before : Page) : Page :=
  { p with locals := before.locals, outer := before.outer }

/-- The page after an assignment. -/
def assign (p : Page) (name : String) (o : Script.Object) : Page :=
  let (globals, store) := p.globals.set p.store name o
  { p with globals, store }

/-- The page after statements. -/
def afterRun (p : Page) (source : String) : Page :=
  let ran := (Script.runText source).run.run ((p.ready source).scope, (p.ready source).store)
  { p.ready source with locals := ran.2.1.locals, store := ran.2.2 }

theorem held_eq_false_iff {p : Page} : p.held = false ↔ ∃ names, p.globals = .own names := by
  unfold held
  cases p.globals with
  | own names => exact ⟨fun _ => ⟨names, rfl⟩, fun _ => rfl⟩
  | shared place => exact ⟨nofun, nofun⟩

theorem ready_of_held {p : Page} {source : String}
    (h : Script.mayHold source = true ∨ p.held = true) : p.ready source = p.share :=
  if_pos (Bool.or_eq_true_iff.mpr h.symm)

/-- Names that no script can have got hold of stay where they are. -/
theorem ready_of_not {p : Page} {source : String}
    (h : ¬ (Script.mayHold source = true ∨ p.held = true)) : p.ready source = p :=
  if_neg fun hor => h (Bool.or_eq_true_iff.mp hor).symm

@[simp] theorem outer_ready (p : Page) (source : String) : (p.ready source).outer = p.outer := by
  rw [ready]
  split <;> rfl

@[simp] theorem mixins_ready (p : Page) (source : String) :
    (p.ready source).mixins = p.mixins := by
  rw [ready]
  split <;> rfl

@[simp] theorem outer_afterRun (p : Page) (source : String) :
    (p.afterRun source).outer = p.outer :=
  p.outer_ready source

@[simp] theorem mixins_afterRun (p : Page) (source : String) :
    (p.afterRun source).mixins = p.mixins :=
  p.mixins_ready source

/-- A property that scripts which bind nothing and scopes keep. -/
structure IsKept (K : Page → Prop) : Prop where
  store : ∀ {p : Page} (store : Script.Store), K p → K { p with store }
  enter : ∀ {p : Page} (names : List (String × Script.Object)), K p → K (p.enter names)
  back : ∀ {p q : Page}, K q → K p → K (q.back p)

/-- Outside of a scope one property holds, and inside of it another one. A scope that is entered
leads from the first to the second, and it leads back when it is left, or when it ends by a
fault. -/
structure Shelters (K K' : Page → Prop) : Prop where
  enter : ∀ {p : Page} (names : List (String × Script.Object)), K p → K' (p.enter names)
  fault : ∀ {p : Page}, K' p → K p
  back : ∀ {p q : Page}, K' q → K p → K (q.back p)

theorem IsKept.shelters {K : Page → Prop} (h : IsKept K) : Shelters K K := ⟨h.enter, id, h.back⟩

/-- The construct of the node keeps the property when it changes what has been defined: it is an
assignment, the definition of a mixin or a statement that is run. -/
def Changes (K : Page → Prop) : Node → Prop
  | .assignment name _ => ∀ p : Page, ∀ o, K p → K (p.assign name o)
  | .mixin name args (some content) _ => ∀ p : Page, K p →
    K { p with mixins := p.mixins.set name { params := Forms.paramNames args, content } }
  | .code source false _ none _ => ∀ p : Page, K p → K (p.afterRun (stripStart source))
  | _ => True

/-- The construct of the node keeps the property. -/
structure Allows (K : Page → Prop) (n : Node) : Prop where
  share : ∀ p : Page, K p → n.mayHold = true ∨ p.held = true → K p.share
  change : Changes K n

/-- All nodes of the mixins with some names are of one kind. -/
def MixinsHold (U : String → Prop) (P : Node → Prop) (p : Page) : Prop :=
  ∀ name mixin, U name → p.mixins.get? name = some mixin → ∀ n ∈ mixin.content.walk, P n

/-- What mixins in focus hold keeps the property and keeps to the focus. -/
def AllowsMixins (F : Focus) (K : Page → Prop) : Prop :=
  ∀ p : Page, K p → p.MixinsHold F.calls fun n => Allows K n ∧ n.Within F

namespace Moved

variable {m : Motion} {F : Focus} {p p' : Page}

theorem eqs (h : p.Moved m F p') (hF : F.holds) :
    m = .still ∧ p'.store = p.store ∧ p'.globals = p.globals ∧ p'.locals = p.locals := by
  obtain ⟨rfl, hglobals, hlocals⟩ := h.same hF
  exact ⟨rfl, h.store.eq_of_still, hglobals, hlocals⟩

theorem of_eqs (hF : F.holds) (hstore : p'.store = p.store) (hglobals : p'.globals = p.globals)
    (hlocals : p'.locals = p.locals)
    (hmixins : ∀ name, F.calls name → p'.mixins.get? name = p.mixins.get? name) :
    p.Moved .still F p' where
  store := by
    rw [hstore]
    exact .still p.store
  globals := by
    rw [hglobals]
    exact Motion.matchesFrame_still p.globals
  locals := by
    rw [hlocals]
    exact Motion.matchesFrame_still p.locals
  mixins := hmixins
  apart := .inl hF
  same _ := ⟨rfl, hglobals, hlocals⟩

theorem still (p : Page) : p.Moved .still .all p :=
  of_eqs trivial rfl rfl rfl fun _ _ => rfl

theorem scope (h : p.Moved m F p') : m.MatchesScope F.names p.scope p'.scope :=
  ⟨h.locals, h.globals⟩

theorem withStore (h : p.Moved m F p') {s s' : Script.Store} (hs : m.Relates s s') :
    Moved m F { p with store := s } { p' with store := s' } :=
  { h with store := hs }

theorem held (h : p.Moved m F p') : p'.held = p.held := by
  have hglobals := h.globals
  unfold Page.held
  generalize p.globals = f, p'.globals = f' at hglobals
  cases hglobals with
  | own => rfl
  | shared => rfl

theorem share (h : p.Moved m F p') (hF : F.holds) : p.share.Moved m F p'.share := by
  obtain ⟨rfl, hstore, hglobals, hlocals⟩ := h.eqs hF
  refine of_eqs hF ?_ ?_ ?_ h.mixins <;> simp only [Page.share, hstore, hglobals, hlocals]

theorem ready (h : p.Moved m F p') {source : String}
    (hF : Script.mayHold source = true → F.holds) :
    (p.ready source).Moved m F (p'.ready source) := by
  by_cases hheld : Script.mayHold source = true ∨ p.held = true
  · have hholds : F.holds := by
      rcases hheld with hsource | hp
      · exact hF hsource
      · exact h.apart.resolve_right fun hown =>
          Bool.eq_false_iff.mp (held_eq_false_iff.mpr hown) hp
    rw [ready_of_held hheld, ready_of_held (h.held ▸ hheld)]
    exact h.share hholds
  · rw [ready_of_not hheld, ready_of_not (h.held ▸ hheld)]
    exact h

theorem enter (h : p.Moved m F p') (names : List (String × Script.Object)) :
    Moved m F (p.enter names) (p'.enter (names.map m.moveNamed)) := by
  obtain ⟨hlocals, hstore⟩ := h.locals.copy h.store names
  refine ⟨hstore, h.globals, hlocals, h.mixins, h.apart, fun hF => ?_⟩
  obtain ⟨rfl, hs, hglobals, hl⟩ := h.eqs hF
  refine ⟨rfl, hglobals, ?_⟩
  simp only [Page.enter, hs, hl, Motion.moveNamed_still, List.map_id]

theorem back {q q' : Page} (h : p.Moved m F p') (hq : q.Moved m F q') :
    Moved m F (q.back p) (q'.back p') :=
  { hq with
    locals := h.locals
    same := fun hF => ⟨(hq.same hF).1, (hq.same hF).2.1, (h.same hF).2.2⟩ }

theorem assign (h : p.Moved m F p') (name : String) (o : Script.Object) :
    Moved m F (p.assign name o) (p'.assign name (m.move o)) := by
  obtain ⟨hglobals, hstore⟩ := h.globals.set h.store name o
  refine ⟨hstore, hglobals, h.locals, h.mixins, ?_, fun hF => ?_⟩
  · refine h.apart.imp_right fun ⟨names, hown⟩ => ⟨names.set name o, ?_⟩
    simp only [Page.assign, hown, Script.Frame.set]
  · obtain ⟨rfl, hs, hg, hl⟩ := h.eqs hF
    refine ⟨rfl, ?_, hl⟩
    simp only [Page.assign, hs, hg, Motion.move_still, id]

theorem afterRun (h : p.Moved m F p') {source : String}
    (hsource : ∀ k ∈ Script.namesInStatements source, F.names k)
    (hF : Script.mayHold source = true → F.holds) :
    Moved m F (p.afterRun source) (p'.afterRun source) := by
  have hready := h.ready hF
  obtain ⟨-, hscope, hstore⟩ :=
    Script.executes_runText hsource _ _ _ _ hready.scope hready.store
  refine ⟨hstore, hready.globals, hscope.locals, hready.mixins, hready.apart, fun hF => ?_⟩
  obtain ⟨rfl, hs, hg, hl⟩ := hready.eqs hF
  refine ⟨rfl, hg, ?_⟩
  simp only [Page.afterRun, Page.scope, hs, hg, hl]

end Moved

end Page

/-! ## Emitters -/

/-- Emitters that differ in their pages only, and these are the same in focus but for their places.
The page on the left has the property. -/
def Emitter.Moved (m : Motion) (F : Focus) (K : Page → Prop) (e e' : Emitter) : Prop :=
  ∃ page, e' = { e with page } ∧ e.page.Moved m F page ∧ K e.page

/-- An expression keeps to the focus, and the property is kept if it may get hold of a scope. -/
structure Focus.Admits (F : Focus) (K : Page → Prop) (expr : String) : Prop where
  names : ∀ k ∈ Script.namesIn expr, F.names k
  holds : Script.mayHold expr = true → F.holds
  share : ∀ p : Page, K p → Script.mayHold expr = true ∨ p.held = true → K p.share

theorem Node.Within.admits {F : Focus} {K : Page → Prop} {n : Node} (h : n.Within F)
    (hn : Page.Allows K n) {expr : String} (hexpr : expr ∈ n.expressions) : F.Admits K expr :=
  ⟨h.expression hexpr, fun hold => h.holds (mayHold_of_expression hexpr hold),
    fun p hp hold => hn.share p hp (hold.imp_left (mayHold_of_expression hexpr))⟩

open Emitter (IsTie TakesValues)

theorem Emitter.isTie_moved (m : Motion) (F : Focus) (K : Page → Prop) :
    IsTie (Emitter.Moved m F K) where
  view h := by
    obtain ⟨page, rfl, -, -⟩ := h
    rfl
  put s h := by
    obtain ⟨page, rfl, hpage, hkept⟩ := h
    exact ⟨page, rfl, hpage, hkept⟩
  push s h := by
    obtain ⟨page, rfl, hpage, hkept⟩ := h
    exact ⟨page, rfl, hpage, hkept⟩
  withView v h := by
    obtain ⟨page, rfl, hpage, hkept⟩ := h
    exact ⟨page, rfl, hpage, hkept⟩

instance Emitter.takesValues_moved (m : Motion) (F : Focus) (K : Page → Prop) :
    TakesValues (Emitter.Moved m F K) where
  push v h := by
    obtain ⟨page, rfl, hpage, hkept⟩ := h
    exact ⟨page, rfl, hpage, hkept⟩

namespace Emit

variable {α β : Type} {m : Motion} {F : Focus} {K : Page → Prop}

/-- Two runs that are one: what relates them then says what one run keeps. -/
theorem Agree.kept {act : Emit α} (h : Agree (Emitter.Moved .still .all K) act act) {e : Emitter}
    (he : K e.page) : K (act.run.run e).2.page := by
  obtain ⟨-, -, -, -, hkept⟩ := h e e ⟨e.page, rfl, .still e.page, he⟩
  exact hkept

section Actions

variable (hK : Page.IsKept K)

include hK

theorem conveys_script {f : α → β} {act : Script.Eval α} {act' : Script.Eval β}
    (h : Script.Moves m f act act') :
    Conveys (Emitter.Moved m F K) f (script act) (script act') := by
  rintro e e' ⟨page, rfl, hpage, hkept⟩
  obtain ⟨hresult, hstore⟩ := h e.page.store page.store hpage.store
  rw [run_script, run_script]
  exact ⟨hresult, _, rfl, hpage.withStore hstore, hK.store _ hkept⟩

theorem conveys_evaluate {expr : String} (hexpr : F.Admits K expr) :
    Conveys (Emitter.Moved m F K) m.move (evaluate expr) (evaluate expr) := by
  rintro e e' ⟨page, rfl, hpage, hkept⟩
  have hready := hpage.ready hexpr.holds
  have hkept' : K (e.page.ready expr) := by
    by_cases hheld : Script.mayHold expr = true ∨ e.page.held = true
    · rw [Page.ready_of_held hheld]
      exact hexpr.share _ hkept hheld
    · rwa [Page.ready_of_not hheld]
  obtain ⟨r, e₁, e₁', hrun, hrun', hstate⟩ := (conveys_script hK
    (Script.moves_evalText hready.scope hexpr.names)).runs
      (e := { e with page := e.page.ready expr }) ⟨_, rfl, hready, hkept'⟩
  rw [run_evaluate_eq, run_evaluate_eq]
  dsimp only
  rw [Reader.run_tryCatch, Reader.run_tryCatch, hrun, hrun']
  cases r with
  | error f => exact ⟨rfl, hstate⟩
  | ok o => exact ⟨rfl, hstate⟩

theorem scripted_moved : IsScripted m (F.Admits K) fun _ => Agree (Emitter.Moved m F K) where
  toIsNoting := (Emitter.isTie_moved m F K).walked.toIsNoting
  script h hk := (conveys_script hK h).bind hk
  evaluate hexpr hk := (conveys_evaluate hK hexpr).bind hk

theorem agree_moved_valueOf {expr : String} (hexpr : F.Admits K expr) :
    Agree (Emitter.Moved m F K) (valueOf expr) (valueOf expr) :=
  (conveys_evaluate hK hexpr).bind fun o =>
    conveys_id.mp (conveys_script hK (Script.moves_snapshot o))

omit hK in
theorem run_inScope (names : List (String × Script.Object)) (act : Emit Unit) (e : Emitter) :
    (inScope names act).run.run e = match act.run.run { e with page := e.page.enter names } with
      | (.error f, e₁) => (.error f, e₁)
      | (.ok _, e₁) => (.ok (), { e₁ with page := e₁.page.back e.page }) := by
  show (do act; modify fun e₁ => { e₁ with page := e₁.page.back e.page } : Emit Unit).run.run
    { e with page := e.page.enter names } = _
  rw [Reader.run_bind]
  rcases act.run.run { e with page := e.page.enter names } with ⟨f | u, e₁⟩
  · rfl
  · rfl

omit hK in
theorem agree_moved_inScope {K' : Page → Prop} (hscope : Page.Shelters K K')
    (names : List (String × Script.Object)) {act act' : Emit Unit}
    (h : Agree (Emitter.Moved m F K') act act') :
    Agree (Emitter.Moved m F K) (inScope names act) (inScope (names.map m.moveNamed) act') := by
  rintro e e' ⟨page, rfl, hpage, hkept⟩
  have hinside : Emitter.Moved m F K' { e with page := e.page.enter names }
      { e with page := page.enter (names.map m.moveNamed) } :=
    ⟨_, rfl, hpage.enter names, hscope.enter names hkept⟩
  obtain ⟨r, e₁, _, hrun, hrun', page₁, rfl, hpage₁, hkept₁⟩ := (conveys_id.mpr h).runs hinside
  rw [run_inScope, run_inScope, hrun, hrun']
  cases r with
  | error f => exact ⟨rfl, page₁, rfl, hpage₁, hscope.fault hkept₁⟩
  | ok u => exact ⟨rfl, _, rfl, hpage.back hpage₁, hscope.back hkept₁ hkept⟩

end Actions

end Emit

/-! ## Forms -/

namespace Forms

open Emit

variable {m : Motion} {F : Focus} {K : Page → Prop} (hK : Page.IsKept K)

include hK

omit hK in
theorem run_execute (source : String) (e : Emitter) :
    (execute source).run.run e =
      (((Script.runText source).run.run
        ((e.page.ready source).scope, (e.page.ready source).store)).1,
        { e with page := e.page.afterRun source }) :=
  rfl

omit hK in
theorem agree_moved_execute {source : String}
    (hsource : ∀ k ∈ Script.namesInStatements source, F.names k)
    (hF : Script.mayHold source = true → F.holds) (h : ∀ p : Page, K p → K (p.afterRun source)) :
    Agree (Emitter.Moved m F K) (execute source) (execute source) := by
  rintro e e' ⟨page, rfl, hpage, hkept⟩
  have hready := hpage.ready hF
  obtain ⟨hresult, -⟩ :=
    Script.executes_runText hsource _ _ _ _ hready.scope hready.store
  rw [run_execute, run_execute]
  rw [Except.map_id, id] at hresult
  exact ⟨hresult.symm, _, rfl, hpage.afterRun hsource hF, h _ hkept⟩

/-- A call writes what a mixin holds, so this has to be alike for the mixins that pages with the
property have. -/
theorem agree_moved_callMixin {K' : Page → Prop} (hscope : Page.Shelters K K')
    {render : Node → Emit Unit} {name args : String}
    (h : ∀ p, K p → ∀ mixin, p.mixins.get? name = some mixin →
      Agree (Emitter.Moved m F K') (render mixin.content) (render mixin.content))
    (hname : F.calls name) (hargs : F.Admits K args) :
    Agree (Emitter.Moved m F K) (callMixin render name args) (callMixin render name args) := by
  rintro e e' ⟨page, rfl, hpage, hkept⟩
  have hmoved : Emitter.Moved m F K e { e with page } := ⟨page, rfl, hpage, hkept⟩
  rw [callMixin, Reader.run_bind, Reader.run_bind, run_get, run_get]
  dsimp only
  rw [hpage.mixins name hname]
  cases hmixin : e.page.mixins.get? name with
  | none => exact ⟨rfl, hmoved⟩
  | some mixin =>
    have hinside (values : List Script.Object) : Agree (Emitter.Moved m F K)
        (inScope (mixin.params.zip values) (render mixin.content))
        (inScope (mixin.params.zip (values.map m.move)) (render mixin.content)) := by
      rw [zip_moveNamed]
      exact agree_moved_inScope hscope _ (h e.page hkept mixin hmixin)
    refine Agree.ite (hinside []) ?_ e { e with page } hmoved
    exact (conveys_evaluate hK hargs).bind fun o =>
      (conveys_script hK (Script.moves_firstMembers _ o)).bind hinside

/-- The forms of a page on a node that keeps the property and keeps to the focus, if what mixins
hold is written alike. -/
theorem alikeAt_pageWith (s : Setup) {render : Node → Emit Unit}
    (h : ∀ p, K p → ∀ name mixin, F.calls name → p.mixins.get? name = some mixin →
      Agree (Emitter.Moved m F K) (render mixin.content) (render mixin.content))
    {n : Node} (hn : Page.Allows K n) (hF : n.Within F) :
    (pageWith s render).AlikeAt (Emitter.Moved m F K) (pageWith s render) n := by
  have hR := Emitter.isTie_moved m F K
  have hvalue {expr : String} (hexpr : expr ∈ n.expressions) :
      Agree (Emitter.Moved m F K) (valueOf expr) (valueOf expr) :=
    agree_moved_valueOf hK (hF.admits hn hexpr)
  cases n with
  | tag head code text content line =>
    constructor
    · intro attrs hattrs
      refine agree_pageAttributes hR _ fun a ha expr hexpr => hvalue (List.mem_append_left _ ?_)
      rw [hattrs]
      exact List.mem_filterMap.mpr ⟨a, ha, hexpr⟩
    · intro n t htext ht
      refine agree_pageText hR fun expr hexpr => hvalue (List.mem_append_right _ ?_)
      rw [htext, Option.bind_some, ht]
      exact hexpr
  | text parts => exact agree_pageText hR fun expr hexpr => hvalue hexpr
  | string parts => exact agree_pageText hR fun expr hexpr => hvalue hexpr
  | filter name attrs content =>
    intro t ht
    refine agree_pageText hR fun expr hexpr => hvalue ?_
    rw [Node.expressions, ht]
    exact hexpr
  | codeBlock name mode =>
    exact fun _ _ hbody => (alike_plain hR s s.pretty).namedBlock name mode hbody
  | mixin name args content call =>
    intro inner inner' hinner hfst
    cases hinner with
    | none =>
      subst hfst
      exact agree_moved_callMixin hK hK.shelters
        (fun p hp mixin => h p hp name mixin (hF.calls name (.head _))) (hF.calls name (.head _))
        (hF.admits hn (.head _))
    | @some c c' hc =>
      obtain ⟨n, act⟩ := c
      obtain ⟨n', act'⟩ := c'
      obtain rfl : n = n' := hc.1
      subst hfst
      rintro e e' ⟨page, rfl, hpage, hkept⟩
      refine ⟨rfl, _, rfl, { hpage with mixins := fun k hk => ?_ }, hn.change _ hkept⟩
      show (page.mixins.set name _).get? k = (e.page.mixins.set name _).get? k
      rw [Table.get?_set, Table.get?_set, hpage.mixins k hk]
  | assignment name value =>
    refine (conveys_evaluate hK (hF.admits hn (.head _))).bind fun o => ?_
    rintro e e' ⟨page, rfl, hpage, hkept⟩
    exact ⟨rfl, _, rfl, hpage.assign name o, hn.change _ o hkept⟩
  | parent path => exact agree_throw _
  | inclusion path => exact agree_throw _
  | code source buffer escape content =>
    intro body body' hbody hsome
    refine agree_codeBy hR agree_pushValue source buffer escape hbody (fun hbuffer => ?_)
      fun hbuffer hnone => ?_
    · subst hbuffer
      exact hvalue (.head _)
    · subst hbuffer hnone
      cases content with
      | none =>
        exact agree_moved_execute (hF.statements rfl)
          (fun h => hF.holds (Node.mayHold_of_statements rfl h)) hn.change
      | some content => cases hsome
  | each subject keys =>
    exact fun _ _ hbody =>
      (scripted_moved hK).pageEach (hF.admits hn (.head _)) keys _ _
        fun names => agree_moved_inScope hK.shelters names hbody
  | conditional word sentence =>
    exact fun _ _ _ _ hbody hnext =>
      (scripted_moved hK).pageConditional word (hF.admits hn (.head _)) hbody (hR.walked.all hnext)
  | _ => trivial

/-- **The forms of a page** on a node that keeps the property and keeps to the focus. What a mixin
holds is written again where it is called, so the induction is on how deeply mixins may call each
other. -/
theorem alikeAt_page (s : Setup) (hmixins : Page.AllowsMixins F K) (depth : Nat) :
    ∀ {n : Node}, Page.Allows K n → n.Within F →
      (page s depth).AlikeAt (Emitter.Moved m F K) (page s depth) n := by
  induction depth with
  | zero => exact fun hn hF => alikeAt_pageWith hK s (fun _ _ _ _ _ _ => agree_throw _) hn hF
  | succ depth ih =>
    intro n hn hF
    refine alikeAt_pageWith hK s (fun p hp name mixin hname hmixin => ?_) hn hF
    refine (follows_of_alikeAt (Emitter.isTie_moved m F K) (.inl rfl) fun c hc => ?_).2
    obtain ⟨hallows, hwithin⟩ := hmixins p hp name mixin hname hmixin c hc
    exact ih hallows hwithin

/-- **A template on two pages** that are the same in focus, but for their places: if all its
constructs keep to the focus, then it has the same outcome; and if all its constructs and those of
the mixins keep the property, then so does the template. -/
theorem agree_pageTemplate (s : Setup) (hmixins : Page.AllowsMixins F K) {root : Node}
    (hroot : ∀ n ∈ root.walk, Page.Allows K n ∧ n.Within F) (depth : Nat) :
    Agree (Emitter.Moved m F K) (template s (page s depth) root) (template s (page s depth) root) :=
  agree_template_of_alikeAt (Emitter.isTie_moved m F K) (.inl rfl) rfl fun n hn =>
    alikeAt_page hK s hmixins depth (hroot n hn).1 (hroot n hn).2

end Forms

end Jade
