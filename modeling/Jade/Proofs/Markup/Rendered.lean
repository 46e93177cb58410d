import Jade.Proofs.Markup.Flattening
import Jade.Proofs.Markup.Literals

/-!
# Compiled and rendered attributes

A tag whose attributes are all literals can be written in two ways: into the template when it is
compiled, or by the function that writes attributes when a page is rendered. The two ways do not
share any code. They agree but for one thing: an attribute that is true is written as its name twice
unless the short form is asked for, and only the second way escapes the name there.

## Main results

* `Jade.LiteralAttribute.writeAttributes_pairs` : literal attributes when a page is rendered
* `Jade.Dialect.attributes_agree_iff` : when both ways agree
-/

namespace Jade

namespace LiteralAttribute

variable {a : NamedLiteral}

/-! ## Rendered attributes -/

theorem joinWith_cons (p : String) (ps : List String) :
    joinWith " " (p :: ps) = p ++ String.join (ps.map (" " ++ ·)) := by
  induction ps generalizing p with
  | nil => simp [joinWith]
  | cons q ps ih =>
    rw [joinWith, String.intercalate_cons_cons]
    show p ++ " " ++ joinWith " " (q :: ps) = _
    rw [ih q, List.map_cons, String.join_cons]
    simp [String.append_assoc]

theorem writeAttribute_named (terse : Bool) (a : NamedLiteral) :
    writeAttribute terse false (.text a.name) a.value.denoted = .ok (a.shown terse escapeText) := by
  have hclass : (Value.text a.name).same (.text "class") = false := by
    simp [Value.same, Value.sameLeaf, Value.number?, a.ne_class]
  rcases a with ⟨name, hname, v⟩
  cases v with
  | text t =>
    simp only [Literal.denoted, writeAttribute, hclass, NamedLiteral.shown]
    simp [escape, Value.display, escapeText_of_isClean t.isClean_content]
  | number n =>
    have hdisplay : escapeText (Value.int n).display = toString n := by
      show escapeText (toString n) = toString n
      exact escapeText_of_isClean (isClean_toString n)
    simp only [Literal.denoted, writeAttribute, hclass, NamedLiteral.shown]
    rw [← hdisplay]
    rfl
  | unset => cases terse <;> rfl
  | word w =>
    rcases w with _ | _ | _
    · rfl
    · rfl
    · cases terse <;> rfl

theorem isClean_joinWith {ss : List String} (h : ∀ s ∈ ss, IsClean s) :
    IsClean (joinWith " " ss) := by
  cases ss with
  | nil => exact fun c hc => absurd hc (by simp [joinWith])
  | cons s ss =>
    intro c hc
    rw [joinWith_cons, String.toList_append, String.toList_join, List.mem_append,
      List.mem_flatMap] at hc
    rcases hc with hc | ⟨p, hp, hc⟩
    · exact h s (List.mem_cons_self ..) c hc
    · obtain ⟨s', hs', rfl⟩ := List.mem_map.mp hp
      rw [String.toList_append, List.mem_append] at hc
      rcases hc with hc | hc
      · obtain rfl : c = ' ' := by simpa using hc
        decide
      · exact h s' (List.mem_cons_of_mem _ hs') c hc

theorem writeAttribute_class (terse : Bool) (ts : List TextLiteral) :
    writeAttribute terse false (.text "class") (.tuple (ts.map fun t => .text t.content)) =
      .ok (some ("class=\"" ++ joinWith " " (ts.map TextLiteral.content) ++ "\"")) := by
  have hleaves : (leavesAll (ts.map fun t => .text t.content)).map Value.display =
      ts.map TextLiteral.content := by
    induction ts with
    | nil => rfl
    | cons t ts ih =>
      rw [List.map_cons, leavesAll, List.map_append, ih]
      rfl
  have hclean : escapeText (joinWith " " (ts.map TextLiteral.content)) =
      joinWith " " (ts.map TextLiteral.content) := by
    refine escapeText_of_isClean (isClean_joinWith fun s hs => ?_)
    obtain ⟨t, -, rfl⟩ := List.mem_map.mp hs
    exact t.isClean_content
  have hclass : (Value.text "class").same (.text "class") = true := by
    simp [Value.same, Value.sameLeaf, Value.number?]
  simp only [writeAttribute, hclass, if_true, classValue_eq, Value.nested?, hleaves]
  simp [escape, Value.display, hclean]

theorem join_filterMap (ps : List (Option String)) :
    joinWith " " ("" :: ps.filterMap id) = String.join (ps.map spaced) := by
  rw [joinWith_cons, String.empty_append]
  induction ps with
  | nil => rfl
  | cons p ps ih =>
    cases p with
    | none =>
      rw [List.filterMap_cons_none rfl, ih, List.map_cons, String.join_cons]
      exact (String.empty_append).symm
    | some p =>
      have hcons : (some p :: ps).filterMap id = p :: ps.filterMap id := rfl
      rw [hcons, List.map_cons, String.join_cons, ih, List.map_cons, String.join_cons]
      rfl

/-- Attributes when a page is rendered, from what is shown of each. -/
theorem writeAttributes_list {terse skip : Bool} {kvs : List (Value × Value)}
    {parts : List (Option String)}
    (h : List.Forall₂ (fun kv part => writeAttribute terse skip kv.1 kv.2 = .ok part) kvs parts) :
    writeAttributes (.list (kvs.map .pair)) terse skip = .ok (String.join (parts.map spaced)) := by
  have hmapM : ∀ {f : Value → Except Fault (Option String)},
      (∀ kv, f (.pair kv) = writeAttribute terse skip kv.1 kv.2) →
      (kvs.map .pair).mapM f = .ok parts := by
    intro f hf
    induction h with
    | nil => rfl
    | cons hpart _ ih =>
      rw [List.map_cons, List.mapM_cons, hf, hpart, ih]
      rfl
  unfold writeAttributes
  rw [← join_filterMap]
  cases kvs with
  | nil =>
    cases h
    rfl
  | cons kv kvs =>
    have htruthy : (Value.list ((kv :: kvs).map .pair)).truthy = true := rfl
    have hmembers : (Value.list ((kv :: kvs).map .pair)).members =
        .ok ((kv :: kvs).map .pair) := rfl
    rw [if_pos htruthy, hmembers]
    show (List.mapM _ _ >>= _ : Except Fault String) = _
    rw [hmapM fun _ => rfl]
    rfl

/-- **Rendered attributes.** -/
theorem writeAttributes_pairs (terse : Bool) (ls : List LiteralAttribute) :
    writeAttributes (.list ((pairs ls).map .pair)) terse = .ok (written terse escapeText ls) := by
  have hothers : List.Forall₂ (fun kv part => writeAttribute terse false kv.1 kv.2 = .ok part)
      ((others ls).map fun a => (.text a.name, a.value.denoted))
      ((others ls).map fun a => a.shown terse escapeText) := by
    rw [List.forall₂_map_left_iff, List.forall₂_map_right_iff, List.forall₂_same]
    exact fun a _ => writeAttribute_named terse a
  have hall : List.Forall₂ (fun kv part => writeAttribute terse false kv.1 kv.2 = .ok part)
      (pairs ls) ((others ls).map (fun a => a.shown terse escapeText) ++
        (shownClasses (classes ls)).toList.map some) := by
    refine List.rel_append hothers ?_
    unfold shownClasses
    split
    · exact .nil
    · exact .cons (writeAttribute_class terse _) .nil
  have hspaced : String.join (((shownClasses (classes ls)).toList.map some).map spaced) =
      spaced (shownClasses (classes ls)) := by
    cases shownClasses (classes ls) with
    | none => rfl
    | some text => simp [spaced]
  rw [writeAttributes_list hall, List.map_append, String.join_append, hspaced, List.map_map]
  rfl

/-! ## When both ways agree -/

theorem shown_of_isTrue (terse : Bool) (again : String → String) (h : a.value.isTrue = true) :
    a.shown terse again =
      some (if terse then a.name else a.name ++ "=\"" ++ again a.name ++ "\"") := by
  rcases a with ⟨name, hname, v⟩
  cases v with
  | unset => rfl
  | word w =>
    rcases w with _ | _ | _
    · exact absurd h Bool.false_ne_true
    · exact absurd h Bool.false_ne_true
    · rfl
  | _ => exact absurd h Bool.false_ne_true

theorem shown_of_isTrue_eq_false (terse : Bool) (again : String → String)
    (h : a.value.isTrue = false) : a.shown terse again = a.shown terse id := by
  rcases a with ⟨name, hname, v⟩
  cases v with
  | unset => exact absurd h.symm Bool.false_ne_true
  | word w =>
    rcases w with _ | _ | _
    · rfl
    · rfl
    · exact absurd h.symm Bool.false_ne_true
  | _ => rfl

/-- Whether it makes no difference if the name of an attribute is escaped. -/
def Indifferent (terse : Bool) (a : NamedLiteral) : Prop :=
  terse = true ∨ (a.value.isTrue = true → IsClean a.name)

theorem shown_of_indifferent {terse : Bool} (h : Indifferent terse a) {again : String → String}
    (hagain : IsClean a.name → again a.name = a.name) : a.shown terse id = a.shown terse again := by
  cases htrue : a.value.isTrue with
  | false => exact (shown_of_isTrue_eq_false terse again htrue).symm
  | true =>
    rw [shown_of_isTrue terse id htrue, shown_of_isTrue terse again htrue]
    rcases h with rfl | hclean
    · rfl
    · rw [hagain (hclean htrue)]
      rfl

/-- A name that is longer if it is written again makes what is shown longer, unless it makes no
difference. -/
theorem length_spaced_shown (terse : Bool) (a : NamedLiteral) {again : String → String}
    (hle : a.name.length ≤ (again a.name).length)
    (hclean : (again a.name).length = a.name.length → IsClean a.name) :
    (spaced (a.shown terse id)).length ≤ (spaced (a.shown terse again)).length ∧
      ((spaced (a.shown terse again)).length = (spaced (a.shown terse id)).length →
        Indifferent terse a) := by
  cases htrue : a.value.isTrue with
  | false =>
    rw [shown_of_isTrue_eq_false terse again htrue]
    exact ⟨le_rfl, fun _ => .inr fun h => absurd (htrue.symm.trans h) Bool.false_ne_true⟩
  | true =>
    rw [shown_of_isTrue terse id htrue, shown_of_isTrue terse again htrue]
    cases terse with
    | true => exact ⟨le_rfl, fun _ => .inl rfl⟩
    | false =>
      simp only [spaced, Option.elim_some, Bool.false_eq_true, if_false, String.length_append, id]
      exact ⟨by omega, fun h => .inr fun _ => hclean (by omega)⟩

theorem length_join_shown (terse : Bool) (as : List NamedLiteral) :
    (String.join (as.map fun a => spaced (a.shown terse id))).length ≤
        (String.join (as.map fun a => spaced (a.shown terse escapeText))).length ∧
      ((String.join (as.map fun a => spaced (a.shown terse escapeText))).length =
          (String.join (as.map fun a => spaced (a.shown terse id))).length →
        ∀ a ∈ as, Indifferent terse a) := by
  induction as with
  | nil => simp
  | cons a as ih =>
    obtain ⟨hlonger, hclean⟩ := length_escapeText a.name
    obtain ⟨hle, hsame⟩ := length_spaced_shown terse a hlonger hclean
    simp only [List.map_cons, String.join_cons, String.length_append, List.forall_mem_cons]
    exact ⟨by omega, fun h => ⟨hsame (by omega), ih.2 (by omega)⟩⟩

/-- **When escaping makes no difference.** -/
theorem written_eq_iff (terse : Bool) (ls : List LiteralAttribute) :
    written terse id ls = written terse escapeText ls ↔ ∀ a ∈ others ls, Indifferent terse a := by
  constructor
  · intro h
    have hlength := congrArg String.length h
    rw [written, written, String.length_append, String.length_append] at hlength
    exact (length_join_shown terse (others ls)).2 (by omega)
  · intro h
    rw [written, written]
    refine congrArg (· ++ _) (congrArg _ (List.map_congr_left fun a ha => ?_))
    rw [shown_of_indifferent (h a ha) escapeText_of_isClean]

end LiteralAttribute

open LiteralAttribute in
/-- **Literal attributes agree**, but for names that would have to be escaped. In every dialect that
shares this way to write attributes, a tag whose attributes are all literals is written without a
fault, and so are the same names and values when a page is rendered. Both texts are the same if and
only if the short form is asked for or no attribute that is true has a name with a character that
has a meaning in markup. -/
theorem Dialect.attributes_agree_iff (d : Dialect)
    (hd : d ∈ [Dialect.plain, .jinja, .mako, .tornado, .django]) (s : Setup) (head : Tag)
    (ls : List LiteralAttribute) (e : Emitter) :
    ∃ text text' e',
      (do
        let attrs ← (Tag.attributes { head with entries := ls.map asRead } : Except Fault _)
        (d.forms s).attributes attrs : Emit Unit).run.run e = (.ok (), e') ∧
      e'.glyphs = e.glyphs ++ glyphsOf text ∧
      writeAttributes (.list ((pairs ls).map .pair)) e.terse = .ok text' ∧
      (text = text' ↔
        e.terse = true ∨ ∀ a ∈ others ls, a.value.isTrue = true → IsClean a.name) := by
  obtain ⟨output, computed, hforms⟩ : ∃ output computed,
      (d.forms s).attributes = Forms.attributeList s output computed := by
    simp only [List.mem_cons, List.not_mem_nil, or_false] at hd
    rcases hd with rfl | rfl | rfl | rfl | rfl <;> exact ⟨_, _, rfl⟩
  obtain ⟨e', hrun, hglyphs⟩ := run_attributes head ls s output computed e
  refine ⟨_, _, e', ?_, hglyphs, writeAttributes_pairs e.terse ls, ?_⟩
  · rw [hforms]
    exact hrun
  · rw [written_eq_iff]
    cases e.terse <;> simp [Indifferent]

/-- Classes of two kinds, a quoted text, a numeral, a word, and an attribute without a value. -/
theorem Dialect.attributes_agree_iff_page :
    let href : NamedLiteral := ⟨"href", by decide, .text (.quoted false ⟨"/a b", by decide⟩)⟩
    let size : NamedLiteral := ⟨"size", by decide, .number 12⟩
    let hidden : NamedLiteral := ⟨"hidden", by decide, .word (some false)⟩
    let checked : NamedLiteral := ⟨"checked", by decide, .unset⟩
    let ls : List LiteralAttribute :=
      [.ofClass (.shorthand ⟨"b", by decide⟩ (by decide)), .named href, .named size, .named hidden,
        .ofClass (.quoted true ⟨"c d", by decide⟩), .named checked]
    ∃ text e',
      (do
        let attrs ← (Tag.attributes { name := "a", entries := ls.map LiteralAttribute.asRead } :
          Except Fault _)
        (Dialect.jinja.forms {}).attributes attrs : Emit Unit).run.run {} = (.ok (), e') ∧
      e'.glyphs = glyphsOf text ∧
      writeAttributes (.list ((LiteralAttribute.pairs ls).map .pair)) = .ok text ∧
      text = " href=\"/a b\" size=\"12\" checked=\"checked\" class=\"b c d\"" := by
  intro href size hidden checked ls
  obtain ⟨text, text', e', hrun, hglyphs, hwrite, hiff⟩ :=
    Dialect.attributes_agree_iff .jinja (by decide) {} { name := "a" } ls {}
  have hclean : ∀ a ∈ LiteralAttribute.others ls, a.value.isTrue = true → IsClean a.name := by
    intro a ha htrue
    simp only [LiteralAttribute.others, ls, List.filterMap_cons, List.filterMap_nil, List.mem_cons,
      List.not_mem_nil, or_false] at ha
    rcases ha with rfl | rfl | rfl | rfl
    · exact absurd htrue Bool.false_ne_true
    · exact absurd htrue Bool.false_ne_true
    · exact absurd htrue Bool.false_ne_true
    · decide
  obtain rfl := hiff.mpr (.inr hclean)
  refine ⟨text, e', hrun, hglyphs, hwrite, ?_⟩
  have hvalue : (writeAttributes (.list ((LiteralAttribute.pairs ls).map .pair))).toOption =
      some " href=\"/a b\" size=\"12\" checked=\"checked\" class=\"b c d\"" := by
    decide +kernel
  have htext : (writeAttributes (.list ((LiteralAttribute.pairs ls).map .pair))).toOption =
      some text := congrArg Except.toOption hwrite
  exact Option.some.inj (htext.symm.trans hvalue)

/-- A template and the same attribute in a rendered page: the name is escaped only there. -/
theorem Dialect.attributes_disagree :
    (({} : Session).process .plain {} (.ofText "p(a&b)") none).1.toOption =
        some "<p a&b=\"a&b\"></p>" ∧
      (writeAttributes (.list [.pair (.text "a&b", .bool true)])).toOption =
        some " a&b=\"a&amp;b\"" := by
  decide +kernel

end Jade
