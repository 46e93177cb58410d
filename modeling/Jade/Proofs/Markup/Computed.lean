import Jade.Compile
import Jade.Proofs.Markup.Rendered

/-!
# Computed attributes

The values of attributes may be computed while a page is written. A page then decides on its own
which attributes it leaves out, which it writes by their name alone, and what it escapes; the
function that writes the attributes of a rendered template decides the same once more. The two were
written apart from each other. A page takes zero for false, writes a true value as a text, shortens
an attribute whose text is its name, and neither escapes classes nor looks at what they are. Here is
what both of them write, and a condition on each attribute for both to write the same.

## Main results

* `Jade.ComputedAttribute.run_pageAttributes` : computed attributes in a page
* `Jade.ComputedAttribute.writeAttributes_computed` : the same attributes in a rendered template
-/

namespace Jade

/-! ## Computed values -/

/-- A value that is no container. -/
inductive Scalar where
  | text (s : String)
  | int (n : Int)
  | bool (b : Bool)
  | none

/-- The value itself. -/
def Scalar.value : Scalar → Value
  | text s => .text s
  | int n => .int n
  | bool b => .bool b
  | none => .none

/-- The value of a class: one value, or a list of texts. -/
inductive ClassValue where
  | one (v : Scalar)
  | several (ss : List String)

namespace ClassValue

/-- The value itself. -/
def value : ClassValue → Value
  | one v => v.value
  | several ss => .list (ss.map .text)

/-- Whether the value is neither absent nor false. -/
def present : ClassValue → Bool
  | one .none | one (.bool false) => false
  | _ => true

/-- The texts that the value adds to the classes. -/
def texts : ClassValue → List String
  | one v => [v.value.display]
  | several ss => ss

end ClassValue

/-- An attribute that is no class, with the value that was computed. -/
structure ComputedNamed where
  name : String
  ne_class : name ≠ "class"
  value : Scalar

/-- An attribute with the value that was computed. -/
inductive ComputedAttribute where
  | named (a : ComputedNamed)
  | ofClass (v : ClassValue)

namespace ComputedAttribute

/-- The name. -/
def name : ComputedAttribute → String
  | named a => a.name
  | ofClass _ => "class"

/-- The value. -/
def value : ComputedAttribute → Value
  | named a => a.value.value
  | ofClass v => v.value

/-- The attribute as it is read, with its expression. -/
def asRead (expr : String) (c : ComputedAttribute) : Attribute :=
  { name := c.name, val := .text expr, fixed := false }

/-- The attributes that are no classes. -/
def others (cs : List ComputedAttribute) : List ComputedNamed :=
  cs.filterMap fun
    | named a => some a
    | ofClass _ => none

/-- The classes. -/
def classes (cs : List ComputedAttribute) : List ClassValue :=
  cs.filterMap fun
    | named _ => none
    | ofClass v => some v

/-- The members of all classes, where lists are spliced in. -/
def classItems (vs : List ClassValue) : List Value := vs.flatMap fun v => Forms.classMembers v.value

/-- The names and values: all but the classes in order, then the classes as one list, unless all of
them are absent or false. -/
def pairs (cs : List ComputedAttribute) : List (Value × Value) :=
  (others cs).map (fun a => (.text a.name, a.value.value)) ++
    if (classes cs).any ClassValue.present then [(.text "class", .list (classItems (classes cs)))]
    else []

end ComputedAttribute

/-! ## What is shown of an attribute -/

/-- The text of all classes. -/
def ClassValue.joined (vs : List ClassValue) : String := joinWith " " (vs.flatMap texts)

/-- A name, with a value or without one. -/
def assigned (name : String) (value : Option String) : String :=
  name ++ value.elim "" fun t => "=\"" ++ t ++ "\""

/-- A text that is left out in the short form if it is the name. -/
def unlessName (terse : Bool) (name t : String) : Option String :=
  if terse && name == t then none else some t

namespace ComputedNamed

/-- Whether a page shows an attribute, and with which value. -/
def inPage (terse : Bool) (a : ComputedNamed) : Option (Option String) :=
  match a.value with
  | .text s => some (unlessName terse a.name (escapeText s))
  | .int n => if n = 0 then none else some (unlessName terse a.name (toString n))
  | .bool true => some (if terse then none else some "True")
  | .bool false | .none => none

/-- Whether a rendered template shows an attribute, and with which value. -/
def inTemplate (terse : Bool) (a : ComputedNamed) : Option (Option String) :=
  match a.value with
  | .text s => some (some (escapeText s))
  | .int n => some (some (toString n))
  | .bool true => some (if terse then none else some (escapeText a.name))
  | .bool false | .none => none

/-- The condition on an attribute for both to show the same: it is not zero, the short form would
not leave its text out, and if it is true then the short form is asked for or its name is the text
of this value. -/
def Settled (terse : Bool) (a : ComputedNamed) : Prop :=
  match a.value with
  | .text s => terse = true → a.name ≠ escapeText s
  | .int n => n ≠ 0 ∧ (terse = true → a.name ≠ toString n)
  | .bool true => terse = true ∨ a.name = "True"
  | .bool false | .none => True

end ComputedNamed

namespace ClassValue

/-- Whether a page shows classes, and with which value. -/
def inPage (terse : Bool) (vs : List ClassValue) : Option (Option String) :=
  if (vs.flatMap texts).isEmpty then none else some (unlessName terse "class" (joined vs))

/-- Whether a rendered template shows classes, and with which value. -/
def inTemplate (vs : List ClassValue) : Option (Option String) :=
  if vs.any present then some (some (escapeText (joined vs))) else none

/-- The condition on classes for both to show the same: unless there are no classes at all, one of
them is present, they have texts, and in these there is nothing to escape and nothing to shorten. -/
def AllSettled (terse : Bool) (vs : List ClassValue) : Prop :=
  vs = [] ∨ vs.any present = true ∧ vs.flatMap texts ≠ [] ∧ IsClean (joined vs) ∧
    (terse = true → joined vs ≠ "class")

end ClassValue

/-- All attributes that are shown, each after a blank. -/
def shownText (shown : List (String × Option (Option String))) : String :=
  String.join (shown.map fun p => spaced (p.2.map (assigned p.1)))

namespace ComputedAttribute

/-- What a page shows of attributes. -/
def inPage (terse : Bool) (cs : List ComputedAttribute) : List (String × Option (Option String)) :=
  (others cs).map (fun a => (a.name, a.inPage terse)) ++
    [("class", ClassValue.inPage terse (classes cs))]

/-- What a rendered template shows of attributes. -/
def inTemplate (terse : Bool) (cs : List ComputedAttribute) :
    List (String × Option (Option String)) :=
  (others cs).map (fun a => (a.name, a.inTemplate terse)) ++
    [("class", ClassValue.inTemplate (classes cs))]

end ComputedAttribute

/-! ## Computed attributes in a page -/

theorem toString_int_isClean (n : Int) : IsClean (toString n) := by
  cases n with
  | ofNat n => exact isClean_toString n
  | negSucc n =>
    intro c hc
    have hcons : (toString (Int.negSucc n)).toList = '-' :: (toString (n + 1)).toList := by
      show ("-" ++ toString (n + 1)).toList = _
      rw [String.toList_append]
      rfl
    rw [hcons, List.mem_cons] at hc
    rcases hc with rfl | hc
    · decide
    · exact isClean_toString (n + 1) c hc

theorem escapeText_toString_int (n : Int) : escapeText (toString n) = toString n :=
  escapeText_of_isClean (toString_int_isClean n)

/-- The value of an attribute in a page, unless it is left out there. -/
def ComputedNamed.kept (a : ComputedNamed) : Option Value :=
  match a.value with
  | .text s => some (.text (escapeText s))
  | .int n => if n = 0 then none else some (.text (toString n))
  | .bool true => some (.bool true)
  | .bool false | .none => none

theorem Emit.run_valueOf (expr : String) (e : Emitter) : ∃ v page,
    (Emit.valueOf expr).run.run e = (.ok v, { e with page }) := by
  obtain ⟨o, store, ho⟩ := Emit.run_evaluate expr e
  rw [Emit.valueOf, Reader.run_bind, ho]
  exact ⟨_, _, rfl⟩

theorem Emit.run_mapM_valueOf {expr : String} {exprs : List String} {vs : List Value}
    {e e' : Emitter} (h : ((expr :: exprs).mapM Emit.valueOf).run.run e = (.ok vs, e')) :
    ∃ v vs' page, vs = v :: vs' ∧
      (Emit.valueOf expr).run.run e = (.ok v, { e with page }) ∧
      (exprs.mapM Emit.valueOf).run.run { e with page } =
        (.ok vs', e') := by
  obtain ⟨v, page, hv⟩ := Emit.run_valueOf expr e
  rw [List.mapM_cons] at h
  obtain ⟨v', e₁, hfirst, h⟩ := Reader.run_bind_eq_ok h
  cases hv.symm.trans hfirst
  obtain ⟨vs', e₂, hvs, h⟩ := Reader.run_bind_eq_ok h
  cases h
  exact ⟨v, vs', page, rfl, hv, hvs⟩

theorem Emit.eq_of_mapM_valueOf {exprs : List String} {vs : List Value} {e e' : Emitter}
    (h : (exprs.mapM Emit.valueOf).run.run e = (.ok vs, e')) :
    ∃ page, e' = { e with page } := by
  induction exprs generalizing e vs with
  | nil =>
    cases h
    exact ⟨_, rfl⟩
  | cons expr exprs ih =>
    obtain ⟨v, vs', page, -, -, hrest⟩ := Emit.run_mapM_valueOf h
    obtain ⟨page', rfl⟩ := ih hrest
    exact ⟨page', rfl⟩

namespace ComputedAttribute

/-- The attributes that a page keeps. -/
def params (cs : List ComputedAttribute) : List (String × Value) :=
  (others cs).filterMap fun a => a.kept.map (a.name, ·)

theorem same_false (v : Scalar) : v.value.same (.bool false) = match v with
    | .int n => n == 0
    | .bool b => !b
    | .text _ | .none => false := by
  cases v with
  | int n =>
    simp only [Scalar.value, Value.same, Value.sameLeaf, Value.number?, Value.Number.compare?]
    rw [Bool.eq_iff_iff]
    simp
  | bool b =>
    cases b <;> simp [Scalar.value, Value.same, Value.sameLeaf, Value.number?,
      Value.Number.compare?]
  | text s => simp [Scalar.value, Value.same, Value.sameLeaf, Value.number?]
  | none => simp [Scalar.value, Value.same, Value.sameLeaf, Value.number?]

theorem run_pageParams_named (a : ComputedNamed) {expr : String} {attrs : List Attribute}
    {params : List (String × Value)} {items : List Value} {e e₁ e' : Emitter}
    (hv : (Emit.valueOf expr).run.run e = (.ok a.value.value, e₁))
    (hrest : (Forms.pageParams attrs).run.run e₁ = (.ok (params, items), e')) :
    (Forms.pageParams ((named a).asRead expr :: attrs)).run.run e =
      (.ok ((a.kept.map (a.name, ·)).toList ++ params, items), e') := by
  have hvalue : (Forms.attributeValue Emit.valueOf ((named a).asRead expr)).run.run e =
      (.ok a.value.value, e₁) := hv
  have hname : (((named a).asRead expr).name == "class") = false := beq_false_of_ne a.ne_class
  rw [Forms.pageParams, Reader.run_bind, hvalue]
  rcases a with ⟨name, hclass, v⟩
  have hkeep : ∀ w : Value, (do
      let r ← Forms.pageParams attrs
      return ((name, w) :: r.1, r.2) : Emit _).run.run e₁ =
      (.ok ((name, w) :: params, items), e') := by
    intro w
    rw [Reader.run_bind, hrest]
    rfl
  simp only [hname, same_false]
  cases v with
  | text s => exact hkeep _
  | int n =>
    by_cases hn : n = 0
    · subst hn
      exact hrest
    · have hescape : escape (.int n) = .ok (toString n) :=
        congrArg Except.ok (escapeText_toString_int n)
      have hzero : (n == 0) = false := beq_false_of_ne hn
      simp only [Scalar.value, hzero, hescape, ComputedNamed.kept, if_neg hn]
      exact hkeep _
  | bool b =>
    cases b with
    | false => exact hrest
    | true => exact hkeep _
  | none => exact hrest

theorem run_pageParams (xs : List (String × ComputedAttribute)) {e e' : Emitter}
    (h : ((xs.map Prod.fst).mapM Emit.valueOf).run.run e = (.ok (xs.map (·.2.value)), e')) :
    (Forms.pageParams (xs.map fun x => x.2.asRead x.1)).run.run e =
      (.ok (params (xs.map Prod.snd), classItems (classes (xs.map Prod.snd))), e') := by
  induction xs generalizing e with
  | nil =>
    cases h
    rfl
  | cons x xs ih =>
    obtain ⟨expr, c⟩ := x
    obtain ⟨v, vs, page, hvs, hv, hrest⟩ := Emit.run_mapM_valueOf h
    cases hvs
    have hrest := ih hrest
    cases c with
    | named a =>
      rw [List.map_cons, run_pageParams_named a hv hrest]
      cases hkept : a.kept <;> simp [params, others, classes, hkept]
    | ofClass v =>
      have hvalue : (Forms.attributeValue Emit.valueOf ((ofClass v).asRead expr)).run.run e =
          (.ok v.value, { e with page }) := hv
      rw [List.map_cons, Forms.pageParams, Reader.run_bind, hvalue]
      show (do
        let r ← Forms.pageParams (xs.map fun x => x.2.asRead x.1)
        return (r.1, Forms.classMembers v.value ++ r.2) : Emit _).run.run _ = _
      rw [Reader.run_bind, hrest]
      rfl

end ComputedAttribute

/-- The texts of the attributes that are shown. -/
def shownParts (shown : List (String × Option (Option String))) : List String :=
  shown.filterMap fun p => p.2.map (assigned p.1)

theorem shownParts_append (shown shown' : List (String × Option (Option String))) :
    shownParts (shown ++ shown') = shownParts shown ++ shownParts shown' :=
  List.filterMap_append

theorem join_shownParts (shown : List (String × Option (Option String))) :
    String.join ((shownParts shown).map (" " ++ ·)) = shownText shown := by
  have h := LiteralAttribute.join_filterMap (shown.map fun p => p.2.map (assigned p.1))
  rw [LiteralAttribute.joinWith_cons, String.empty_append, List.filterMap_map, List.map_map] at h
  exact h

/-- An attribute is written as some text. -/
abbrev WritesParam (terse : Bool) (kv : String × Value) (part : String) : Prop :=
  writeParam (.text kv.1) kv.2 terse = .ok (.text part)

theorem Forms.run_writeParams {params : List (String × Value)} {items : List Value}
    {parts : List String} {e : Emitter}
    (h : List.Forall₂ (WritesParam e.terse) (params ++ if items.isEmpty then []
      else [("class", .text (joinWith " " (items.map Value.display)))]) parts) :
    ∃ e', (Forms.writeParams params items).run.run e = (.ok (), e') ∧ e'.page = e.page ∧
      e'.glyphs = e.glyphs ++ glyphsOf (String.join (parts.map (" " ++ ·))) := by
  have hmapM : ∀ {ps : List (String × Value)} {parts : List String} (e' : Emitter),
      List.Forall₂ (WritesParam e.terse) ps parts →
      (ps.mapM fun kv => (writeParam (.text kv.1) kv.2 e.terse : Emit Value)).run.run e' =
        (.ok (parts.map Value.text), e') := by
    intro ps parts e' h
    induction h with
    | nil => rfl
    | cons hpart _ ih =>
      rw [List.mapM_cons, Reader.run_bind, hpart]
      show (do
        let parts ← List.mapM _ _
        return _ :: parts : Emit _).run.run e' = _
      rw [Reader.run_bind, ih]
      rfl
  unfold Forms.writeParams
  generalize params ++ (if items.isEmpty then []
    else [("class", .text (joinWith " " (items.map Value.display)))]) = ps at h ⊢
  cases h with
  | nil => exact ⟨e, rfl, rfl, by simp [glyphsOf]⟩
  | @cons kv part ps parts hpart hparts =>
    have hall := hmapM e (.cons hpart hparts)
    refine ⟨e.push (.text (" " ++ joinWith " " (part :: parts))), ?_, rfl, ?_⟩
    · show (do
        let parts ← (kv :: ps).mapM fun kv => (writeParam (.text kv.1) kv.2 e.terse : Emit Value)
        Emit.push (" " ++ joinWith " " (parts.map Value.display)) : Emit Unit).run.run e = _
      rw [Reader.run_bind, hall]
      have hdisplay : ((part :: parts).map Value.text).map Value.display = part :: parts := by
        rw [List.map_map]
        exact List.map_id _
      dsimp only
      rw [hdisplay]
      rfl
    · rw [Emitter.glyphs_push, LiteralAttribute.joinWith_cons, List.map_cons, String.join_cons,
        ← String.append_assoc]
      rfl

theorem writeParam_text (terse : Bool) (name t : String) :
    writeParam (.text name) (.text t) terse =
      .ok (.text (assigned name (unlessName terse name t))) := by
  have hsame : (Value.text name).same (.text t) = (name == t) := by
    simp [Value.same, Value.sameLeaf, Value.number?]
  have hbool : (Value.text t).isBool true = false := rfl
  unfold writeParam unlessName
  rw [hsame, hbool, Bool.or_false]
  split
  · simp [assigned]
  · simp [assigned, Value.display, String.append_assoc]

theorem writeParam_true (terse : Bool) (name : String) :
    writeParam (.text name) (.bool true) terse =
      .ok (.text (assigned name (if terse then none else some "True"))) := by
  cases terse with
  | false => simp [writeParam, assigned, Value.display, Value.inside, String.append_assoc]
  | true => simp [writeParam, assigned, Value.isBool]

namespace ComputedAttribute

theorem writeParam_kept (terse : Bool) (a : ComputedNamed) :
    Option.Rel (WritesParam terse) (a.kept.map (a.name, ·))
      ((a.inPage terse).map (assigned a.name)) := by
  rcases a with ⟨name, hname, v⟩
  cases v with
  | text s => exact .some (writeParam_text ..)
  | int n =>
    by_cases hn : n = 0
    · subst hn
      exact .none
    · simp only [ComputedNamed.kept, ComputedNamed.inPage, if_neg hn]
      exact .some (writeParam_text ..)
  | bool b =>
    cases b with
    | false => exact .none
    | true => exact .some (writeParam_true ..)
  | none => exact .none

theorem display_classItems (vs : List ClassValue) :
    (classItems vs).map Value.display = vs.flatMap ClassValue.texts := by
  rw [classItems, List.map_flatMap]
  refine List.flatMap_congr fun v _ => ?_
  cases v with
  | one v => cases v <;> rfl
  | several ss =>
    show (ss.map Value.text).map Value.display = ss
    rw [List.map_map]
    exact List.map_id _

theorem isEmpty_classItems (vs : List ClassValue) :
    (classItems vs).isEmpty = (vs.flatMap ClassValue.texts).isEmpty := by
  rw [← display_classItems, List.isEmpty_map]

/-- **Computed attributes in a page.** -/
theorem run_pageAttributes (xs : List (String × ComputedAttribute)) {e e₁ : Emitter}
    (h : ((xs.map Prod.fst).mapM Emit.valueOf).run.run e = (.ok (xs.map (·.2.value)), e₁)) :
    ∃ e', (Forms.pageAttributes (xs.map fun x => x.2.asRead x.1)).run.run e = (.ok (), e') ∧
      e'.page = e₁.page ∧
      e'.glyphs = e.glyphs ++ glyphsOf (shownText (inPage e.terse (xs.map Prod.snd))) := by
  obtain ⟨page, rfl⟩ := Emit.eq_of_mapM_valueOf h
  have hothers : List.Forall₂ (WritesParam e.terse) (params (xs.map Prod.snd))
      (shownParts ((others (xs.map Prod.snd)).map fun a => (a.name, a.inPage e.terse))) := by
    rw [shownParts, List.filterMap_map]
    refine List.rel_filterMap (R := Eq) (fun a b hab => ?_) (List.forall₂_refl _)
    subst hab
    exact writeParam_kept e.terse a
  have hclasses : List.Forall₂ (WritesParam e.terse)
      (if (classItems (classes (xs.map Prod.snd))).isEmpty then []
        else [("class", .text (joinWith " " ((classItems (classes (xs.map Prod.snd))).map
          Value.display)))])
      (shownParts [("class", ClassValue.inPage e.terse (classes (xs.map Prod.snd)))]) := by
    rw [isEmpty_classItems, display_classItems]
    unfold ClassValue.inPage
    split
    · exact .nil
    · exact .cons (writeParam_text ..) .nil
  obtain ⟨e', hrun, hpage, hglyphs⟩ :=
    Forms.run_writeParams (e := { e with page })
      (List.rel_append hothers hclasses)
  refine ⟨e', ?_, hpage, ?_⟩
  · rw [Forms.pageAttributes, Reader.run_bind, run_pageParams xs h]
    exact hrun
  · rw [hglyphs]
    show _ = e.glyphs ++ glyphsOf (shownText (_ ++ _))
    rw [← join_shownParts, shownParts_append]
    rfl

/-! ## Computed attributes in a rendered template -/

theorem writeAttribute_named (terse : Bool) (a : ComputedNamed) :
    writeAttribute terse false (.text a.name) a.value.value =
      .ok ((a.inTemplate terse).map (assigned a.name)) := by
  have hclass : (Value.text a.name).same (.text "class") = false := by
    simp [Value.same, Value.sameLeaf, Value.number?, a.ne_class]
  rcases a with ⟨name, hname, v⟩
  cases v with
  | text s =>
    simp only [Scalar.value, writeAttribute, hclass, ComputedNamed.inTemplate]
    simp [escape, Value.display, assigned, String.append_assoc]
  | int n =>
    have hescape : escape (.int n) = .ok (toString n) :=
      congrArg Except.ok (escapeText_toString_int n)
    simp only [Scalar.value, writeAttribute, hclass, ComputedNamed.inTemplate]
    simp [hescape, Value.display, assigned, String.append_assoc]
  | bool b =>
    cases b with
    | false => rfl
    | true =>
      cases terse <;> simp [Scalar.value, writeAttribute, ComputedNamed.inTemplate, placeText,
        escape, Value.display, assigned, String.append_assoc]
  | none => rfl

theorem leavesAll_classItems (vs : List ClassValue) :
    leavesAll (classItems vs) = classItems vs := by
  refine leavesAll_of_flat fun v hv => ?_
  obtain ⟨c, -, hc⟩ := List.mem_flatMap.mp hv
  cases c with
  | one w =>
    cases w <;> (rw [List.mem_singleton.mp hc]; rfl)
  | several ss =>
    obtain ⟨s, -, rfl⟩ := List.mem_map.mp hc
    rfl

theorem writeAttribute_classItems (terse : Bool) (vs : List ClassValue) :
    writeAttribute terse false (.text "class") (.list (classItems vs)) =
      .ok (some (assigned "class" (some (escapeText (ClassValue.joined vs))))) := by
  have hclass : (Value.text "class").same (.text "class") = true := by
    simp [Value.same, Value.sameLeaf, Value.number?]
  simp only [writeAttribute, hclass, if_true, classValue_eq, Value.nested?, leavesAll_classItems,
    display_classItems]
  simp [escape, Value.display, assigned, ClassValue.joined, ← String.toList_inj]

/-- **Computed attributes in a rendered template.** -/
theorem writeAttributes_computed (terse : Bool) (cs : List ComputedAttribute) :
    writeAttributes (.list ((pairs cs).map .pair)) terse =
      .ok (shownText (inTemplate terse cs)) := by
  have hothers : List.Forall₂ (fun kv part => writeAttribute terse false kv.1 kv.2 = .ok part)
      ((others cs).map fun a => (.text a.name, a.value.value))
      ((others cs).map fun a => (a.inTemplate terse).map (assigned a.name)) := by
    rw [List.forall₂_map_left_iff, List.forall₂_map_right_iff, List.forall₂_same]
    exact fun a _ => writeAttribute_named terse a
  by_cases hpresent : (classes cs).any ClassValue.present = true
  · have hclasses : List.Forall₂ (fun kv part => writeAttribute terse false kv.1 kv.2 = .ok part)
        [(.text "class", .list (classItems (classes cs)))]
        [some (assigned "class" (some (escapeText (ClassValue.joined (classes cs)))))] :=
      .cons (writeAttribute_classItems terse (classes cs)) .nil
    have hpairs : pairs cs = (others cs).map (fun a => (.text a.name, a.value.value)) ++
        [(.text "class", .list (classItems (classes cs)))] := by
      rw [pairs, if_pos hpresent]
    rw [hpairs, LiteralAttribute.writeAttributes_list (List.rel_append hothers hclasses),
      shownText, inTemplate,
      ClassValue.inTemplate, if_pos hpresent, List.map_append, List.map_append, List.map_map,
      List.map_map]
    rfl
  · have hpairs : pairs cs = (others cs).map (fun a => (.text a.name, a.value.value)) := by
      rw [pairs, if_neg hpresent, List.append_nil]
    rw [hpairs, LiteralAttribute.writeAttributes_list hothers, shownText, inTemplate,
      ClassValue.inTemplate, if_neg hpresent, List.map_append, String.join_append, List.map_map,
      List.map_map]
    simp [spaced, Function.comp_def]

end ComputedAttribute

/-! ## Where both show the same -/

theorem escapeText_eq_self_iff {s : String} : escapeText s = s ↔ IsClean s :=
  ⟨fun h => (length_escapeText s).2 (congrArg String.length h), escapeText_of_isClean⟩

theorem escapeText_eq_iff_of_isClean {s t : String} (ht : IsClean t) :
    escapeText s = t ↔ s = t := by
  constructor
  · rintro rfl
    have hs : IsClean s := by
      intro c hc hmem
      have hamp : '&' ∈ escapeChar c := by
        simp only [markupChars, List.mem_cons, List.not_mem_nil, or_false] at hmem
        rcases hmem with rfl | rfl | rfl | rfl | rfl <;> decide
      refine ht '&' ?_ (by decide)
      rw [toList_escapeText]
      exact List.mem_flatMap.mpr ⟨c, hc, hamp⟩
    exact (escapeText_of_isClean hs).symm
  · rintro rfl
    exact escapeText_of_isClean ht

theorem unlessName_eq_some_iff {terse : Bool} {name t u : String} :
    unlessName terse name t = some u ↔ t = u ∧ (terse = true → name ≠ t) := by
  unfold unlessName
  cases terse with
  | false => simp
  | true => by_cases h : name = t <;> simp [h]

theorem ComputedNamed.inPage_eq_iff {terse : Bool} {a : ComputedNamed} :
    a.inPage terse = a.inTemplate terse ↔ a.Settled terse := by
  rcases a with ⟨name, hname, v⟩
  cases v with
  | text s =>
    simp only [inPage, inTemplate, Settled, Option.some.injEq, unlessName_eq_some_iff]
    simp
  | int n =>
    by_cases hn : n = 0
    · simp [inPage, inTemplate, Settled, hn]
    · simp only [inPage, inTemplate, Settled, if_neg hn, Option.some.injEq,
        unlessName_eq_some_iff]
      simp [hn]
  | bool b =>
    cases b with
    | false => simp [inPage, inTemplate, Settled]
    | true =>
      have htrue : "True" = escapeText name ↔ name = "True" := by
        rw [eq_comm, escapeText_eq_iff_of_isClean (by decide)]
      cases terse <;> simp [inPage, inTemplate, Settled, htrue]
  | none => simp [inPage, inTemplate, Settled]

/-- Classes without any text are lists, so one of them is present. -/
theorem ClassValue.any_present {vs : List ClassValue} (hne : vs ≠ [])
    (h : vs.flatMap texts = []) : vs.any present = true := by
  cases vs with
  | nil => exact absurd rfl hne
  | cons v vs =>
    rw [List.flatMap_cons, List.append_eq_nil_iff] at h
    cases v with
    | one v => exact absurd h.1 (List.cons_ne_nil _ _)
    | several ss => rfl

theorem ClassValue.inPage_eq_iff {terse : Bool} {vs : List ClassValue} :
    inPage terse vs = inTemplate vs ↔ AllSettled terse vs := by
  by_cases hnil : vs = []
  · subst hnil
    exact ⟨fun _ => .inl rfl, fun _ => rfl⟩
  unfold inPage inTemplate AllSettled
  by_cases htexts : vs.flatMap texts = []
  · rw [if_pos (any_present hnil htexts)]
    simp [htexts, hnil]
  · by_cases hpresent : vs.any present = true
    · have hpage : (vs.flatMap texts).isEmpty = false := by simpa using htexts
      rw [hpage, if_neg Bool.false_ne_true, if_pos hpresent, Option.some.injEq,
        unlessName_eq_some_iff, eq_comm, escapeText_eq_self_iff]
      simp only [hnil, hpresent, htexts, false_or, true_and, ne_eq, not_false_eq_true,
        eq_comm (a := "class")]
    · have hpage : (vs.flatMap texts).isEmpty = false := by simpa using htexts
      rw [hpage, if_neg Bool.false_ne_true, if_neg hpresent]
      simp [hnil, hpresent]

end Jade
