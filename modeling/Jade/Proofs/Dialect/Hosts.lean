import Jade.Proofs.Dialect.Alike
import Jade.Proofs.Emitter.Fills

/-!
# Dialects write content once

In the plain, the Jinja and the Django dialect, a construct writes its content once or not at all,
and the depth of mixins is the same after it as before. So a text in the content of a construct is
found once in what the construct writes. Only Jinja leaves out content by itself: that of a named
block within a mixin, which stands for the block of the caller there.

## Main results

* `Jade.Forms.sound_plain`, `Jade.Forms.sound_jinja`, `Jade.Forms.sound_django` : the dialects
-/

namespace Jade.Forms

open Emit

/-! ## The depth of mixins -/

theorem isLevel_plain (s : Setup) : (plain s).IsLevel :=
  matches_plain stepwise_movement.toIsSteady (fun _ => trivial) s s.pretty

theorem isLevel_jinja (s : Setup) : (jinja s).IsLevel :=
  matches_jinja (nested_movement level_deeper) s s.pretty

theorem isLevel_django (s : Setup) : (django s).IsLevel :=
  matches_django (nested_movement level_deeper) (fun _ => trivial) s s.pretty

/-! ## Content -/

section Content

variable {ι : Type} {inMixin hidden : Bool} {text : ι → String} {body : ι → Emit Unit}

theorem fills_between (start stop : String) (h : Fills inMixin hidden text body) :
    Fills inMixin hidden text fun i => between start stop (body i) :=
  .after (moves_put _) fun _ => h.followed (unread_put _)

theorem fills_eachForm (start stop : String) (h : Fills inMixin hidden text body) :
    Fills inMixin hidden text fun i => eachForm start stop (body i) :=
  .after (moves_push _) fun _ => h.followed (unread_push _)

theorem fills_blockForm (start stop super early late mode : String)
    (h : Fills inMixin hidden text body) :
    Fills inMixin hidden text fun i => blockForm start stop super early late mode (body i) := by
  have hend : Fills inMixin hidden text (fun i => do
      body i
      if mode == late then do put super; put stop else put stop) :=
    h.followed (((unread_put _).bind (unread_put _)).ite (unread_put _))
  unfold blockForm
  refine .after (moves_put _) fun _ => .ite (fun _ => ?_) fun _ => hend
  exact .after (moves_put _) fun _ => hend

theorem fills_codeForm (s : Setup) (value : String → Bool → String)
    (statement close : String → String) (source : String) (buffer escape : Bool)
    (h : Fills inMixin hidden text body) :
    Fills inMixin hidden text fun i =>
      codeForm s value statement close source buffer escape (some (body i)) := by
  have hend : Unread (do
      unless buffer do
        if s.autoclose.contains (codeWord source) then push (close (codeWord source))) :=
    unread_pure.ite ((unread_push _).ite unread_pure)
  unfold codeForm
  refine .ite (fun _ => ?_) fun _ => ?_
  · exact .after (moves_push _) fun _ => h.followed hend
  · exact .after (moves_push _) fun _ => h.followed hend

theorem all_append (as bs : List (Emit Unit)) : all (as ++ bs) = (do all as; all bs) := by
  induction as with
  | nil => rw [List.nil_append, all, pure_bind]
  | cons a as ih =>
    rw [List.cons_append, all, ih, all]
    simp only [bind_assoc]

theorem unread_all {acts : List (Emit Unit)} (h : ∀ act ∈ acts, Unread act) :
    Unread (all acts) := by
  induction acts with
  | nil => exact unread_pure
  | cons act acts ih =>
    obtain ⟨hact, hacts⟩ := List.forall_mem_cons.mp h
    exact hact.bind (ih hacts)

theorem fills_branch (head : String → String → Option String) (statement : String → String)
    (close word sentence : String) {next : List (Emit Unit)} (h : Fills inMixin hidden text body)
    (hnext : ∀ act ∈ next, Unread act) :
    Fills inMixin hidden text fun i =>
      conditionalForm head statement close word sentence (some (body i)) next := by
  have hend : Unread (do
      all next
      if word == "if" || word == "unless" then push close) :=
    (unread_all hnext).bind ((unread_push _).ite unread_pure)
  unfold conditionalForm
  cases head word sentence with
  | none => exact fills_throw _
  | some h' => exact .after (moves_push _) fun _ => h.followed hend

/-- Alternatives of a conditional without content are left out. -/
theorem fills_alternative (head : String → String → Option String) (statement : String → String)
    (close word sentence : String) {first : Option (Emit Unit)} {before after : List (Emit Unit)}
    (h : Fills inMixin hidden text body) (hfirst : ∀ act ∈ first, Level act)
    (hbefore : ∀ act ∈ before, Level act) (hafter : ∀ act ∈ after, Unread act) :
    Fills inMixin (first.isNone || hidden) text fun i =>
      conditionalForm head statement close word sentence first (before ++ body i :: after) := by
  have hend : Unread (do
      all after
      if word == "if" || word == "unless" then push close) :=
    (unread_all hafter).bind ((unread_push _).ite unread_pure)
  unfold conditionalForm
  cases head word sentence with
  | none => exact fills_throw _
  | some h' =>
    refine .after (moves_push _) fun _ => ?_
    cases first with
    | none => exact fills_hidden rfl _
    | some act =>
      simp only [all_append, all, bind_assoc]
      have hall : Level (all before) := stepwise_movement.all (List.forall₂_same.mpr hbefore)
      refine .after (hfirst act rfl) fun _ => .after hall fun _ => ?_
      exact h.followed hend

/-! ## Dialects -/

theorem hosts_plain (s : Setup) (text : ι → String) : (plain s).Hosts text false where
  namedBlock _ _ _ _ _ h := fills_blockForm _ _ _ _ _ _ h
  mixin _ _ _ _ _ _ _ h := fills_between _ _ h.anywhere
  code source buffer escape _ _ _ h := fills_codeForm s (plain s).output statement
    (fun word => statement ("end" ++ word)) source buffer escape h
  each _ _ _ _ _ h := fills_eachForm _ _ h
  branch word sentence _ _ _ _ h hnext := fills_branch _ _ _ word sentence h hnext
  alternative word sentence _ _ _ _ _ _ h hfirst hbefore hafter :=
    fills_alternative _ _ _ word sentence h hfirst hbefore hafter

theorem hosts_jinja (s : Setup) (text : ι → String) : (jinja s).Hosts text true :=
  { hosts_plain s text with
    namedBlock := by
      intro name mode inMixin hidden body h
      refine fills_get fun e he => .ite (fun hdepth => fills_hidden ?_ _) fun _ => ?_
      · cases inMixin with
        | true => rfl
        | false =>
          -- the block of a caller is only written at a depth of mixins above zero
          rw [he rfl] at hdepth
          cases hdepth
      · refine (fills_blockForm _ _ _ _ _ mode h).mono fun hhidden => ?_
        rw [hhidden, Bool.or_true]
    mixin := by
      intro name args call inMixin hidden ns body h
      refine fills_deeper (.ite (fun _ => fills_between _ _ h) fun _ => ?_)
      have hcall := fills_between (statement ("call " ++ (name ++ "(" ++ args ++ ")")))
        (statement "endcall") h
      exact .after moves_get fun e => .ite (fun _ => .after (moves_put _) fun _ => hcall)
        fun _ => hcall
    each := fun _ _ _ _ _ h => fills_eachForm _ _ h }

theorem hosts_django (s : Setup) (text : ι → String) : (django s).Hosts text false :=
  { hosts_plain s text with
    namedBlock := fun _ _ _ _ _ h => fills_blockForm _ _ _ _ _ _ h
    mixin := by
      intro name args call inMixin hidden ns body h
      refine fills_deeper (.ite (fun _ => fills_between _ _ h) fun _ => ?_)
      exact fills_throw _
    code := fun source buffer escape _ _ _ h => fills_codeForm s
      (fun expr escape =>
        doubleBraces (localised expr ++ (if escape then "|force_escape" else "")))
      statement (fun word => statement ("end" ++ word)) source buffer escape h }

end Content

variable {ι : Type} (s : Setup) (text : ι → String)

theorem sound_plain : Sound text false (plain s) :=
  ⟨fun hR => alike_plain hR.isTie s s.pretty, isLevel_plain s, hosts_plain s text⟩

theorem sound_jinja : Sound text true (jinja s) :=
  ⟨fun hR => matches_jinja hR.nested s s.pretty, isLevel_jinja s, hosts_jinja s text⟩

theorem sound_django : Sound text false (django s) :=
  ⟨fun hR => matches_django hR.nested (fun _ => trivial) s s.pretty, isLevel_django s,
    hosts_django s text⟩

end Jade.Forms
