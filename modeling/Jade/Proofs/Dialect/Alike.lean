import Jade.Proofs.Dialect.Scripts

/-!
# Dialects do not read the output

No dialect reads what was written so far, and none depends on the layout that a setup asks for. So
the forms of every dialect are alike for two setups that differ in their layout at most, whatever
bond the runs are held together by. A page is the exception that needs an argument: it runs scripts
and writes the content of mixins, which is laid out again. Scripts work on what the page has
defined, which is not part of the output, and mixins are covered by induction on the depth of calls.

## Main results

* `Jade.Emit.IsSteady.attributeList`, `Jade.Emit.IsSteady.codeForm` : shapes that dialects share
* `Jade.Dialect.matches_forms` : dialects of templates pass on a judgement
* `Jade.Forms.alike_page` : pages
* `Jade.Dialect.alike_forms` : every dialect
-/

namespace Jade

open Emit
open Emitter (IsBond IsTie TakesValues Spares)

/-! ## Common shapes -/

namespace Emit.IsSteady

open Forms

variable {T : Judgement} {fault : Fault → Prop} {s : Setup} {p : Bool} (hT : IsSteady T fault)
  {body body' : Option (Emit Unit)}

include hT

theorem mapM {α γ : Type} {k k' : γ → Emit α} {cs : List γ} (h : ∀ c ∈ cs, T α (k c) (k' c)) :
    T (List α) (cs.mapM k) (cs.mapM k') := by
  induction cs with
  | nil => exact hT.pure _
  | cons c cs ih =>
    rw [List.mapM_cons, List.mapM_cons]
    refine hT.bind (h c (List.mem_cons_self ..)) fun a => ?_
    exact hT.bind (ih fun d hd => h d (List.mem_cons_of_mem _ hd)) fun as => hT.pure _

theorem computedAttributes (call : String → String) (attrs : List Attribute) :
    T Unit (computedAttributes call attrs) (computedAttributes call attrs) :=
  hT.look fun _ _ => hT.ite (hT.pure _) (hT.push _)

theorem givenAttribute (output : String → String) (a : Attribute) :
    T Unit (givenAttribute s output a) (givenAttribute s output a) := by
  unfold Forms.givenAttribute
  split
  · exact hT.ite (hT.push _) (hT.push _)
  · exact hT.look fun e e' => hT.ite (hT.push _) (hT.push _)
  · exact hT.pure _

/-- Attributes one after the other, by induction on those that are left. Only some of them are
computed, and all of these are among `given`. -/
theorem attributeRun (output : String → String) {computed : List Attribute → Emit Unit}
    {given : List Attribute}
    (hcomputed : ∀ attrs, attrs ⊆ given → T Unit (computed attrs) (computed attrs))
    {waiting attrs : List Attribute} (hwaiting : waiting ⊆ given) (hattrs : attrs ⊆ given) :
    T Unit (attributeRun s output computed waiting attrs)
      (attributeRun { s with pretty := p } output computed waiting attrs) := by
  induction attrs generalizing waiting with
  | nil =>
    rw [Forms.attributeRun, Forms.attributeRun]
    exact hT.ite (hT.pure _) (hcomputed _ hwaiting)
  | cons a attrs ih =>
    obtain ⟨ha, hattrs⟩ := List.cons_subset.mp hattrs
    have hgiven : ∀ _ : Unit, T Unit
        (do Forms.givenAttribute s output a; Forms.attributeRun s output computed [] attrs)
        (do
          Forms.givenAttribute s output a
          Forms.attributeRun { s with pretty := p } output computed [] attrs) :=
      fun _ => hT.bind (hT.givenAttribute output a) fun _ => ih (List.nil_subset _) hattrs
    have hlonger : waiting ++ [a] ⊆ given :=
      List.append_subset.mpr ⟨hwaiting, List.cons_subset.mpr ⟨ha, List.nil_subset _⟩⟩
    rw [Forms.attributeRun, Forms.attributeRun]
    exact hT.ite (hT.whenNot (hcomputed _ hwaiting) hgiven) (ih hlonger hattrs)

theorem attributeList (output : String → String) {computed : List Attribute → Emit Unit}
    {attrs : List Attribute}
    (hcomputed : ∀ attrs', attrs' ⊆ attrs → T Unit (computed attrs') (computed attrs')) :
    T Unit (attributeList s output computed attrs)
      (attributeList { s with pretty := p } output computed attrs) :=
  hT.attributeRun output hcomputed (List.nil_subset _) (List.Subset.refl _)

theorem codeForm (value : String → Bool → String) (statement close : String → String)
    (source : String) (buffer escape : Bool) (hbody : Option.Rel (T Unit) body body') :
    T Unit (codeForm s value statement close source buffer escape body)
      (codeForm { s with pretty := p } value statement close source buffer escape body') := by
  unfold Forms.codeForm
  extract_lets word inside inside'
  have hinside : ∀ r, T Unit (inside r) (inside' r) := by
    intro r
    cases hbody with
    | none => exact hT.pure _
    | some h =>
      refine hT.bind h fun _ => hT.ite (hT.pure _) ?_
      exact hT.ite (hT.push _) (hT.pure _)
  exact hT.ite (hT.bind (hT.push _) hinside) (hT.bind (hT.push _) hinside)

theorem all {acts acts' : List (Emit Unit)} (h : List.Forall₂ (T Unit) acts acts') :
    T Unit (all acts) (all acts') := by
  induction h with
  | nil => exact hT.pure _
  | cons h _ ih => exact hT.bind h fun _ => ih

theorem conditionalForm {head : String → String → Option String} (statement : String → String)
    (close word sentence : String) {next next' : List (Emit Unit)}
    (hhead : head word sentence = none → fault .noSuchKey) (hbody : Option.Rel (T Unit) body body')
    (hnext : List.Forall₂ (T Unit) next next') :
    T Unit (conditionalForm head statement close word sentence body next)
      (conditionalForm head statement close word sentence body' next') := by
  have hclose : ∀ _ : Unit, T Unit
      (do if word == "if" || word == "unless" then Emit.push close)
      (do if word == "if" || word == "unless" then Emit.push close) :=
    fun _ => hT.ite (hT.push _) (hT.pure _)
  unfold Forms.conditionalForm
  split
  · next hnone => exact hT.fail (hhead hnone)
  · refine hT.bind (hT.push _) fun _ => ?_
    cases hbody with
    | none => exact hclose ()
    | some h => exact hT.bind h fun _ => hT.bind (hT.all hnext) hclose

theorem between (start stop : String) {body body' : Emit Unit} (h : T Unit body body') :
    T Unit (between start stop body) (between start stop body') :=
  hT.bind (hT.put _) fun _ => hT.bind h fun _ => hT.put _

theorem eachForm (start stop : String) {body body' : Emit Unit} (h : T Unit body body') :
    T Unit (eachForm start stop body) (eachForm start stop body') :=
  hT.bind (hT.push _) fun _ => hT.bind h fun _ => hT.push _

theorem blockForm (start stop super early late mode : String) {body body' : Emit Unit}
    (h : T Unit body body') : T Unit (blockForm start stop super early late mode body)
      (blockForm start stop super early late mode body') := by
  unfold Forms.blockForm
  refine hT.bind (hT.put _) fun _ => hT.when (hT.put _) fun _ => hT.bind h fun _ => ?_
  exact hT.when (hT.put _) fun _ => hT.put _

theorem needed {content content' : Option (Node × Emit Unit)}
    (hc : (∀ e, fault e) ∨ content.isSome = true)
    (h : Option.Rel (SameInner T) content content') :
    T Unit (needed content) (needed content') := by
  cases h with
  | none => exact hT.fail (hc.resolve_right Bool.false_ne_true _)
  | some h => exact h.2

theorem writeParams (hall : ∀ e, fault e) (params : List (String × Value))
    (classes : List Value) : T Unit (writeParams params classes) (writeParams params classes) := by
  refine hT.look fun e e' => hT.ite (hT.pure _) ?_
  exact hT.bind (hT.mapM fun _ _ => hT.except fun _ _ => hall _) fun parts => hT.push _

theorem scriptCode (source : String) (buffer escape : Bool)
    (hbody : Option.Rel (T Unit) body body') :
    T Unit (scriptCode s source buffer escape body)
      (scriptCode { s with pretty := p } source buffer escape body') := by
  unfold Forms.scriptCode
  extract_lets inside inside'
  have hinside : ∀ r, T Unit (inside r) (inside' r) := by
    intro r
    cases hbody with
    | none => exact hT.ite (hT.pure _) (hT.push _)
    | some h =>
      refine hT.bind (hT.push _) fun _ => hT.bind h fun _ => ?_
      exact hT.ite (hT.push _) (hT.pure _)
  exact hT.ite (hT.bind (hT.push _) hinside) (hT.bind (hT.push _) hinside)

end Emit.IsSteady

theorem Emit.IsWide.scriptEach {T : Judgement} {fault : Fault → Prop} (hT : IsWide T fault)
    (hfault : fault .noSuchMember) (subject : String) (keys : List String)
    {body body' : Emit Unit} (h : T Unit body body') :
    T Unit (Forms.scriptEach subject keys body) (Forms.scriptEach subject keys body') := by
  unfold Forms.scriptEach
  refine hT.get fun e out => ?_
  dsimp only [Emitter.withOutput]
  cases e.counter with
  | none => exact hT.fail hfault
  | some n =>
    refine hT.bind (hT.count _) fun _ => hT.bind (hT.push _) fun _ => ?_
    have hend : ∀ _ : Unit, T Unit (do push " %>"; body; push "<% \x7d %>")
        (do push " %>"; body'; push "<% \x7d %>") := fun _ =>
      hT.bind (hT.push _) fun _ => hT.bind h fun _ => hT.push _
    split
    · exact hend ()
    · exact hT.bind (hT.push _) hend
    · refine hT.bind (hT.all (List.forall₂_same.mpr fun act hact => ?_)) hend
      obtain ⟨j, hj, rfl⟩ := List.mem_mapIdx.mp hact
      exact hT.push _

namespace Forms

/-! ## Dialects of templates

The arguments of shared shapes are written out: they differ in the setups of the two runs, and only
their values are the same. -/

section Templates

variable {T T' : Judgement} {fault : Fault → Prop}

theorem matches_plain (hT : IsSteady T fault) (hall : ∀ e, fault e) (s : Setup) (p : Bool) :
    (plain s).Matches T T fault (plain { s with pretty := p }) where
  opening := rfl
  interpolate _ _ := hT.pure _
  attributes _ := hT.attributeList _ fun attrs _ => hT.computedAttributes _ attrs
  namedBlock _ _ _ _ h := hT.blockForm _ _ _ _ _ _ h
  mixin _ _ _ _ _ _ h := by
    cases h with
    | none => exact hT.fail (hall _)
    | some h => exact hT.between _ _ h.2
  assignment _ _ := hT.put _
  parent _ := hT.put _
  inclusion _ := hT.put _
  code source buffer escape _ _ h := hT.codeForm (plain s).output statement
    (fun word => statement ("end" ++ word)) source buffer escape h
  each _ _ _ _ h := hT.eachForm _ _ h
  conditional word sentence _ _ _ _ _ h h' :=
    hT.conditionalForm _ _ word sentence (fun _ => hall _) h h'

/-- Among the words of conditionals, only `else if` may lack a head. -/
theorem conditionHead_ne_none {word sentence : String}
    (hword : (∀ e, fault e) ∨
      word ∈ Rules.conditionalWords ∧ (word = "else if" → fault .noSuchKey))
    (hhead : conditionHead word sentence = none) : fault .noSuchKey := by
  rcases hword with hall | ⟨hword, helse⟩
  · exact hall _
  simp only [Rules.conditionalWords, List.mem_cons, List.not_mem_nil, or_false] at hword
  rcases hword with rfl | rfl | rfl | rfl | rfl
  · exact absurd hhead (by simp [conditionHead])
  · exact absurd hhead (by simp [conditionHead])
  · exact helse rfl
  · exact absurd hhead (by simp [conditionHead])
  · exact absurd hhead (by simp [conditionHead])

theorem matches_jinja (hT : IsNested T T' fault) (s : Setup) (p : Bool) :
    (jinja s).Matches T T' fault (jinja { s with pretty := p }) where
  opening := rfl
  interpolate _ _ := hT.pure _
  attributes _ := hT.attributeList _ fun attrs _ => hT.computedAttributes _ attrs
  namedBlock _ _ _ _ h := hT.get fun e out => hT.ite (hT.put _) (hT.blockForm _ _ _ _ _ _ h)
  mixin name args call content content' hcall h := by
    have hT' := hT.inner
    refine hT.deeper ?_
    cases call with
    | false => exact hT'.between _ _ (hT'.needed hcall h)
    | true =>
      cases h with
      | none => exact hT'.put _
      | some h => exact hT'.get fun e out => hT'.when (hT'.put _) fun _ => hT'.between _ _ h.2
  assignment _ _ := hT.put _
  parent _ := hT.put _
  inclusion _ := hT.put _
  code source buffer escape _ _ h := hT.codeForm (plain s).output statement
    (fun word => statement ("end" ++ word)) source buffer escape h
  each _ _ _ _ h := hT.eachForm _ _ h
  conditional word sentence _ _ _ _ hword h h' :=
    hT.conditionalForm _ _ word sentence (conditionHead_ne_none hword) h h'

theorem matches_django (hT : IsNested T T' fault) (hall : ∀ e, fault e) (s : Setup) (p : Bool) :
    (django s).Matches T T' fault (django { s with pretty := p }) :=
  { matches_plain hT.toIsSteady hall s p with
    attributes := fun _ => hT.attributeList _ fun attrs _ => hT.computedAttributes _ attrs
    namedBlock := fun _ _ _ _ h => hT.blockForm _ _ _ _ _ _ h
    mixin := by
      intro name args call content content' _ h
      have hT' := hT.inner
      refine hT.deeper (hT'.ite (hT'.between _ _ (hT'.needed (.inl hall) h)) ?_)
      cases h with
      | none => exact hT'.put _
      | some h => exact hT'.fail (hall _)
    assignment := fun _ _ => hT.put _
    code := fun source buffer escape _ _ h => hT.codeForm
      (fun expr escape =>
        doubleBraces (localised expr ++ (if escape then "|force_escape" else "")))
      statement (fun word => statement ("end" ++ word)) source buffer escape h }

theorem matches_mako (hT : IsNested T T' fault) (hall : ∀ e, fault e) (s : Setup) (p : Bool) :
    (mako s).Matches T T' fault (mako { s with pretty := p }) :=
  { matches_plain hT.toIsSteady hall s p with
    opening := rfl
    interpolate := fun _ _ => hT.pure _
    attributes := fun _ => hT.attributeList _ fun attrs _ => hT.computedAttributes _ attrs
    namedBlock := fun _ _ _ _ h => hT.get fun e out =>
      hT.ite (hT.put _) (hT.blockForm _ _ _ _ _ _ h)
    mixin := by
      intro name args call content content' _ h
      have hT' := hT.inner
      refine hT.deeper (hT'.ite (hT'.between _ _ (hT'.needed (.inl hall) h)) ?_)
      cases h with
      | none => exact hT'.put _
      | some h => exact hT'.between _ _ h.2
    assignment := fun _ _ => hT.put _
    parent := fun _ => hT.put _
    inclusion := fun _ => hT.put _
    code := fun source buffer escape _ _ h =>
      hT.codeForm (fun expr escape => (mako s).output (localised expr) escape)
        (fun source => "<% " ++ source ++ " %>") (fun word => "</%" ++ word ++ ">")
        source buffer escape h
    each := fun _ _ _ _ h => hT.eachForm _ _ h
    conditional := fun word sentence _ _ _ _ _ h h' =>
      hT.conditionalForm _ _ word sentence (fun _ => hall _) h h' }

theorem matches_tornado (hT : IsSteady T fault) (hall : ∀ e, fault e) (s : Setup) (p : Bool) :
    (tornado s).Matches T T fault (tornado { s with pretty := p }) :=
  { matches_plain hT hall s p with
    opening := rfl
    interpolate := fun _ _ => hT.pure _
    attributes := fun _ => hT.attributeList _ fun attrs _ => hT.computedAttributes _ attrs
    namedBlock := fun _ _ _ _ h => hT.blockForm _ _ _ _ _ _ h
    mixin := fun _ _ _ _ _ _ _ => hT.fail (hall _)
    code := fun source buffer escape _ _ h => hT.codeForm
      (fun expr escape =>
        if escape then escapeCall (localised expr) else doubleBraces (localised expr))
      statement (fun word => statement ("end" ++ word)) source buffer escape h
    each := fun _ _ _ _ h => hT.eachForm _ _ h
    conditional := fun word sentence _ _ _ _ _ h h' =>
      hT.conditionalForm _ _ word sentence (fun _ => hall _) h h' }

theorem matches_underscore (hT : IsWide T fault) (hall : ∀ e, fault e) (s : Setup) (p : Bool) :
    (underscore s).Matches T T fault (underscore { s with pretty := p }) :=
  { matches_plain hT.toIsSteady hall s p with
    interpolate := fun _ _ => hT.pure _
    attributes := fun _ => hT.writeParams hall _ _
    assignment := fun _ _ => hT.put _
    code := fun source buffer escape _ _ h => hT.scriptCode source buffer escape h
    each := fun subject keys _ _ h => hT.scriptEach (hall _) subject keys h
    conditional := fun word sentence _ _ _ _ _ h h' =>
      hT.conditionalForm _ _ word sentence (fun _ => hall _) h h' }

theorem alike_plain {R : Emitter → Emitter → Prop} (hR : IsTie R) (s : Setup) (p : Bool) :
    (plain s).Alike R (plain { s with pretty := p }) :=
  matches_plain hR.walked.toIsSteady (fun _ => trivial) s p

end Templates

/-! ## Pages

Where the values of expressions agree, so does all that is written of them. -/

end Forms

/-- The expression of an attribute that is to be computed. -/
def Attribute.expression? (a : Attribute) : Option String :=
  if a.fixed then none
  else match a.val with
    | .text expr => some expr
    | _ => none

/-- The expression of a marker. -/
def Segment.expression? : Segment → Option String
  | .plain _ => none
  | .marker _ expr => some (String.ofList expr)

/-- The expressions of the markers in a text. -/
def markedExpressions (text : String) : List String :=
  (segments text.toList).filterMap Segment.expression?

namespace Forms

variable {R : Emitter → Emitter → Prop} {s : Setup} {p : Bool}

section Values

/-- Code of a page, where unescaped values are written by some action. -/
def codeBy (write : Value → Emit Unit) (source : String) (buffer escape : Bool)
    (body : Option (Emit Unit)) : Emit Unit := do
  if buffer then
    let v ← valueOf (localised (stripStart source))
    if escape then push (escapeMarkup v.display) else write v
  match body with
  | some body => body
  | none => unless buffer do execute (stripStart source)

theorem agree_attributeValue {a : Attribute}
    (h : ∀ expr ∈ a.expression?, Agree R (valueOf expr) (valueOf expr)) :
    Agree R (attributeValue valueOf a) (attributeValue valueOf a) := by
  rw [Attribute.expression?] at h
  unfold attributeValue
  split
  · exact agree_pure _
  · next hfixed =>
    rw [if_neg hfixed] at h
    split
    · next expr hval =>
      rw [hval] at h
      exact h expr rfl
    · exact agree_pure _

theorem agree_pageParams {attrs : List Attribute}
    (h : ∀ a ∈ attrs, ∀ expr ∈ a.expression?, Agree R (valueOf expr) (valueOf expr)) :
    Agree R (pageParams attrs) (pageParams attrs) := by
  induction attrs with
  | nil => exact agree_pure _
  | cons a attrs ih =>
    rw [List.forall_mem_cons] at h
    replace ih := ih h.2
    rw [pageParams]
    refine (agree_attributeValue h.1).bind fun v => ?_
    refine .ite (ih.bind fun _ => agree_pure _) (.ite (ih.bind fun _ => agree_pure _) (.ite ih ?_))
    exact (agree_lift _).bind fun _ => ih.bind fun _ => agree_pure _

variable (hR : IsTie R)

include hR

theorem agree_pageText {text : String}
    (h : ∀ expr ∈ markedExpressions text, Agree R (valueOf expr) (valueOf expr)) :
    Agree R (fillM (fun expr => do return (← valueOf expr).display) text)
      (fillM (fun expr => do return (← valueOf expr).display) text) := by
  refine Agree.bind (hR.walked.mapM fun part hpart => ?_) fun _ => agree_pure _
  cases part with
  | plain c => exact agree_pure _
  | marker mark expr =>
    exact (h _ (List.mem_filterMap.mpr ⟨_, hpart, rfl⟩)).bind fun _ => agree_pure _

theorem agree_pageAttributes (output : String → String) {attrs : List Attribute}
    (h : ∀ a ∈ attrs, ∀ expr ∈ a.expression?, Agree R (valueOf expr) (valueOf expr)) :
    Agree R (attributeList s output pageAttributes attrs)
      (attributeList { s with pretty := p } output pageAttributes attrs) :=
  hR.walked.attributeList output fun _ hsubset =>
    (agree_pageParams fun a ha => h a (hsubset ha)).bind fun _ =>
      hR.walked.writeParams (fun _ => trivial) _ _

theorem agree_codeBy {write write' : Value → Emit Unit}
    (hwrite : ∀ v, Agree R (write v) (write' v)) (source : String) (buffer escape : Bool)
    {body body' : Option (Emit Unit)} (hbody : Option.Rel (Agree R) body body')
    (hvalue : buffer = true → Agree R (valueOf (localised (stripStart source)))
      (valueOf (localised (stripStart source))))
    (hrun : buffer = false → body = none →
      Agree R (execute (stripStart source)) (execute (stripStart source))) :
    Agree R (codeBy write source buffer escape body)
      (codeBy write' source buffer escape body') := by
  unfold codeBy
  extract_lets inside inside'
  have hinside : ∀ r, Agree R (inside r) (inside' r) := by
    intro r
    cases hbody with
    | none =>
      cases buffer with
      | true => exact agree_pure _
      | false => exact hrun rfl rfl
    | some h => exact h
  cases buffer with
  | false => exact hinside ()
  | true =>
    refine (hvalue rfl).bind fun v => ?_
    exact .ite ((agree_append hR _).bind hinside) ((hwrite v).bind hinside)

end Values

/-! Scripts read and change the page only, and take the course that the page prescribes. -/

section Pages

variable (hR : IsBond R) {act act' : Script.Object → Emit Unit} {render render' : Node → Emit Unit}

include hR

theorem agree_onPage {α : Type} (g : Page → Except Fault α × Page) :
    Agree R (do let e ← get; set { e with page := (g e.page).2 }; (g e.page).1 : Emit α)
      (do let e ← get; set { e with page := (g e.page).2 }; (g e.page).1) := by
  intro e e' he
  obtain ⟨out, rfl⟩ := hR.output he
  have hset : R { e with page := (g e.page).2 } { e.withOutput out with page := (g e.page).2 } :=
    hR.aside (g := fun e => { e with page := (g e.page).2 }) (fun _ _ => rfl) he
  exact agree_lift (g e.page).1 _ _ hset

theorem agree_script {α : Type} (act : Script.Eval α) : Agree R (script act) (script act) :=
  agree_onPage hR fun page =>
    ((act.run.run page.store).1, { page with store := (act.run.run page.store).2 })

theorem agree_execute (source : String) : Agree R (execute source) (execute source) :=
  (agree_modify hR fun _ _ => rfl).bind fun _ => agree_onPage hR fun page =>
    let ran := (Script.runText source).run.run (page.scope, page.store)
    (ran.1, { page with locals := ran.2.1.locals, store := ran.2.2 })

theorem agree_evaluate (expr : String) : Agree R (evaluate expr) (evaluate expr) :=
  (agree_modify hR fun _ _ => rfl).bind fun _ =>
    agree_get hR fun _ _ => (agree_script hR _).tryCatch fun _ => agree_pure _

theorem agree_valueOf (expr : String) : Agree R (valueOf expr) (valueOf expr) :=
  (agree_evaluate hR expr).bind fun _ => agree_script hR _

theorem agree_inScope (names : List (String × Script.Object)) {act act' : Emit Unit}
    (h : Agree R act act') : Agree R (inScope names act) (inScope names act') := by
  refine agree_get hR fun e out => ?_
  refine Agree.bind (agree_modify hR fun _ _ => rfl) fun _ => h.bind fun _ => ?_
  exact agree_modify hR fun _ _ => rfl

theorem scripted_bond : IsScripted .still (fun _ => True) fun _ => Agree R where
  toIsNoting := hR.isTie.walked.toIsNoting
  script {α β γ f act act' k k'} h hk := by
    have hconveys : Conveys R f (script act) (script act') := by
      intro e e' he
      obtain ⟨out, rfl⟩ := hR.output he
      obtain ⟨hresult, hstore⟩ := h e.page.store e.page.store (.still _)
      rw [run_script, run_script]
      dsimp only [Emitter.withOutput]
      rw [hstore.eq_of_still]
      exact ⟨hresult, hR.aside (g := fun e => { e with page := { e.page with store := _ } })
        (fun _ _ => rfl) he⟩
    exact hconveys.bind hk
  evaluate _ hk := (agree_evaluate hR _).bind fun o => by simpa using hk o

theorem agree_callMixin (h : ∀ n, Agree R (render n) (render' n)) (name args : String) :
    Agree R (callMixin render name args) (callMixin render' name args) := by
  unfold callMixin
  refine agree_get hR fun e out => ?_
  dsimp only [Emitter.withOutput]
  cases e.page.mixins.get? name with
  | none => exact agree_throw _
  | some m =>
    have hscope : ∀ values, Agree R (inScope (m.params.zip values) (render m.content))
        (inScope (m.params.zip values) (render' m.content)) := fun values =>
      agree_inScope hR _ (h m.content)
    refine .ite ((agree_pure _).bind hscope) ?_
    exact (agree_evaluate hR _).bind fun _ => (agree_script hR _).bind hscope

/-- Pages whose mixins and unescaped values are written alike. -/
theorem alike_codeBy (s : Setup) (p : Bool) {write write' : Value → Emit Unit}
    (h : ∀ n, Agree R (render n) (render' n)) (hwrite : ∀ v, Agree R (write v) (write' v)) :
    Alike R { pageWith s render with code := codeBy write }
      { pageWith { s with pretty := p } render' with code := codeBy write' } :=
  { alike_plain hR.isTie s p with
    interpolate := fun _ _ => agree_pageText hR.isTie fun _ _ => agree_valueOf hR _
    attributes := fun _ => agree_pageAttributes hR.isTie _ fun _ _ _ _ => agree_valueOf hR _
    mixin := by
      intro name args call content content' _ hcontent
      cases hcontent with
      | none => exact agree_callMixin hR h name args
      | @some c c' hc =>
        obtain ⟨n, act⟩ := c
        obtain ⟨n', act'⟩ := c'
        obtain rfl : n = n' := hc.1
        exact agree_modify hR fun _ _ => rfl
    assignment := fun _ _ =>
      (agree_evaluate hR _).bind fun _ => agree_modify hR fun _ _ => rfl
    parent := fun _ => agree_throw _
    inclusion := fun _ => agree_throw _
    code := fun source buffer escape _ _ h =>
      agree_codeBy hR.isTie hwrite source buffer escape h (fun _ => agree_valueOf hR _)
        fun _ _ => agree_execute hR _
    each := fun _ keys _ _ h => (scripted_bond hR).pageEach trivial keys _ _
      fun names => by simpa using agree_inScope hR names h
    conditional := fun word _ _ _ _ _ _ h h' => (scripted_bond hR).pageConditional word
      trivial h (hR.nested.all h') }

theorem alike_pageWith [TakesValues R] (s : Setup) (p : Bool)
    (h : ∀ n, Agree R (render n) (render' n)) :
    (pageWith s render).Alike R (pageWith { s with pretty := p } render') :=
  alike_codeBy hR s p h agree_pushValue

/-- **Pages.** What a mixin holds is written again where it is called, so the induction is on how
deeply mixins may call each other. -/
theorem alike_page [TakesValues R] (hp : Spares R s p) (depth : Nat) :
    (page s depth).Alike R (page { s with pretty := p } depth) := by
  induction depth with
  | zero => exact alike_pageWith hR s p fun _ => agree_throw _
  | succ depth ih => exact alike_pageWith hR s p fun n => (follows_node hR hp ih n).2

end Pages

end Forms

namespace Dialect

/-- Whether the dialect counts the mixins around what it writes. -/
def countsMixins : Dialect → Bool
  | jinja | mako | django => true
  | _ => false

/-- **Every dialect of templates** passes on a judgement for two setups that differ in their layout
at most, in mixins another one if it counts them. -/
theorem matches_forms {T T' : Emit.Judgement} {fault : Fault → Prop}
    (hT : Emit.IsNested T T' fault) (hall : ∀ e, fault e) (s : Setup) (p : Bool) {d : Dialect}
    (hd : d ≠ page) :
    (d.forms s).Matches T (if d.countsMixins then T' else T) fault
      (d.forms { s with pretty := p }) := by
  cases d with
  | plain => exact Forms.matches_plain hT.toIsSteady hall s p
  | jinja => exact Forms.matches_jinja hT s p
  | mako => exact Forms.matches_mako hT hall s p
  | tornado => exact Forms.matches_tornado hT.toIsSteady hall s p
  | underscore => exact Forms.matches_underscore hT.toIsWide hall s p
  | django => exact Forms.matches_django hT hall s p
  | page => exact absurd rfl hd

/-- **Every dialect** is alike for two setups that differ in their layout at most. -/
theorem alike_forms {R : Emitter → Emitter → Prop} [TakesValues R] (hR : IsBond R) {s : Setup}
    {p : Bool} (hp : Spares R s p) (d : Dialect) :
    (d.forms s).Alike R (d.forms { s with pretty := p }) := by
  by_cases hd : d = page
  · subst hd
    exact Forms.alike_page hR hp Forms.callLimit
  · have hforms := matches_forms hR.nested (fun _ => trivial) s p hd
    rwa [ite_self] at hforms

end Dialect

end Jade
