import Jade.Macro
import Jade.Proofs.Table
import Mathlib.Data.List.Induction

/-!
# Parameters of macros

Using a macro binds its parameters in the context of the page, one after the other, and an argument
is looked up when its parameter is bound. So an argument may find the new value of a parameter in
place of the value that the caller gave to this name. Parameters with different names get the values
that their arguments had before the call if and only if no such look-up makes a difference, whatever
arguments the engine of the page allows. If they are variables and fixed values, this can be told
from the context before the call.

## Main results

* `Jade.TagEngine.bindAll_eq_given_iff` : when all parameters get the values of the caller
* `Jade.TagEngine.bindAll_eq_given_iff_of_isPlain` : the same for variables and fixed values
* `Jade.MacroTag.render_call_binds` : what the body of a macro finds under each name
-/

namespace Jade

open Script

namespace TagEngine

/-- What a parameter is to be bound to: what its argument stands for, or an empty text if the
argument is missing. -/
def given (g : TagEngine) (c : Context) : Option String → Object
  | some arg => g.resolve c arg
  | none => .text ""

/-- What the argument stands for may change when the variable is set. -/
def Reads (g : TagEngine) (arg : Option String) (name : String) : Prop :=
  ∃ c o, g.given (Context.set c name o) arg ≠ g.given c arg

/-- The argument stands for the variable of this name. -/
structure IsVariable (g : TagEngine) (arg : Option String) (name : String) : Prop where
  given_eq : ∀ {c : Context} {o}, c.names.get? name = some o → g.given c arg = o
  not_reads : ∀ {other}, other ≠ name → ¬ g.Reads arg other

/-- The argument stands for a variable, or it is the same in all contexts. -/
def IsPlain (g : TagEngine) (arg : Option String) : Prop :=
  (∃ name, g.IsVariable arg name) ∨ ∀ name, ¬ g.Reads arg name

/-- Parameters bound one after the other, each to what its argument stands for by then. -/
def bindAll (g : TagEngine) (c : Context) (bs : List (String × Option String)) : Context :=
  bs.foldl (fun c b => c.set b.1 (g.given c b.2)) c

variable {g : TagEngine} {c : Context} {bs : List (String × Option String)} {arg : Option String}
  {name : String}

theorem given_set_of_not_reads (h : ¬ g.Reads arg name) (o : Object) :
    g.given (c.set name o) arg = g.given c arg := by
  by_contra hne
  exact h ⟨c, o, hne⟩

theorem bindAll_concat (b : String × Option String) :
    g.bindAll c (bs ++ [b]) = (g.bindAll c bs).set b.1 (g.given (g.bindAll c bs) b.2) := by
  rw [bindAll, List.foldl_append]
  rfl

theorem get?_bindAll_concat (b : String × Option String) :
    (g.bindAll c (bs ++ [b])).names.get? name =
      if b.1 = name then some (g.given (g.bindAll c bs) b.2)
      else (g.bindAll c bs).names.get? name := by
  rw [bindAll_concat, Context.set, Table.get?_set]
  simp only [beq_iff_eq]

theorem store_bindAll : (g.bindAll c bs).store = c.store := by
  induction bs using List.reverseRecOn with
  | nil => rfl
  | append_singleton bs b ih => rw [bindAll_concat, Context.set, ih]

theorem get?_bindAll_of_not_mem (h : name ∉ bs.map Prod.fst) :
    (g.bindAll c bs).names.get? name = c.names.get? name := by
  induction bs using List.reverseRecOn with
  | nil => rfl
  | append_singleton bs b ih =>
    simp only [List.map_append, List.map_cons, List.map_nil, List.mem_append, List.mem_singleton,
      not_or] at h
    rw [get?_bindAll_concat, if_neg (Ne.symm h.2), ih h.1]

/-- A parameter is bound to what its argument was after the parameters before it had been bound; of
parameters with one name the last one counts. -/
theorem get?_bindAll_append_cons {earlier later : List (String × Option String)}
    (h : name ∉ later.map Prod.fst) :
    (g.bindAll c (earlier ++ (name, arg) :: later)).names.get? name =
      some (g.given (g.bindAll c earlier) arg) := by
  have hsplit : g.bindAll c (earlier ++ (name, arg) :: later) =
      g.bindAll (g.bindAll c (earlier ++ [(name, arg)])) later := by
    rw [bindAll, bindAll, bindAll, ← List.foldl_append, List.append_assoc, List.singleton_append]
  rw [hsplit, get?_bindAll_of_not_mem h, get?_bindAll_concat, if_pos rfl]

/-- An argument that depends on none of the parameters keeps its value. -/
theorem given_bindAll_of_not_reads (h : ∀ b ∈ bs, ¬ g.Reads arg b.1) :
    g.given (g.bindAll c bs) arg = g.given c arg := by
  induction bs using List.reverseRecOn with
  | nil => rfl
  | append_singleton bs b ih =>
    have hearlier : ∀ b' ∈ bs, ¬ g.Reads arg b'.1 := fun b' hb' => h b' (List.mem_append_left _ hb')
    rw [bindAll_concat, given_set_of_not_reads (h b (by simp)), ih hearlier]

/-- **Parameters with different names** all get the values that their arguments have in the context
of the caller if and only if each argument still has this value after the parameters before it have
been bound. -/
theorem bindAll_eq_given_iff (hnodup : (bs.map Prod.fst).Nodup) :
    (∀ b ∈ bs, (g.bindAll c bs).names.get? b.1 = some (g.given c b.2)) ↔
      ∀ earlier b later, bs = earlier ++ b :: later →
        g.given (g.bindAll c earlier) b.2 = g.given c b.2 := by
  have hbound : ∀ earlier b later, bs = earlier ++ b :: later →
      (g.bindAll c bs).names.get? b.1 = some (g.given (g.bindAll c earlier) b.2) := by
    rintro earlier ⟨name, arg⟩ later rfl
    refine get?_bindAll_append_cons fun hmem => ?_
    rw [List.map_append, List.map_cons] at hnodup
    exact (List.nodup_cons.mp (List.nodup_append.mp hnodup).2.1).1 hmem
  constructor
  · intro h earlier b later hsplit
    have hb : b ∈ bs := by simp [hsplit]
    exact Option.some.inj ((hbound earlier b later hsplit).symm.trans (h b hb))
  · intro h b hb
    obtain ⟨earlier, later, hsplit⟩ := List.append_of_mem hb
    rw [hbound earlier b later hsplit, h earlier b later hsplit]

theorem given_bindAll_of_pairwise (h : bs.Pairwise fun b b' => ¬ g.Reads b'.2 b.1)
    {earlier later : List (String × Option String)} {b : String × Option String}
    (hsplit : bs = earlier ++ b :: later) : g.given (g.bindAll c earlier) b.2 = g.given c b.2 := by
  subst hsplit
  exact given_bindAll_of_not_reads fun b' hb' =>
    (List.pairwise_append.mp h).2.2 b' hb' b List.mem_cons_self

/-- After parameters have got the values of the caller, a plain argument has its value of the caller
unless it is a parameter whose value differs from it. -/
theorem IsPlain.given_bindAll_eq_iff (harg : g.IsPlain arg)
    (h : ∀ b ∈ bs, (g.bindAll c bs).names.get? b.1 = some (g.given c b.2)) :
    g.given (g.bindAll c bs) arg = g.given c arg ↔
      ∀ b ∈ bs, g.IsVariable arg b.1 → g.given c b.2 = g.given c arg := by
  have hread : ∀ b ∈ bs, g.IsVariable arg b.1 → g.given (g.bindAll c bs) arg = g.given c b.2 :=
    fun b hb hvariable => hvariable.given_eq (h b hb)
  constructor
  · intro heq b hb hvariable
    rw [← hread b hb hvariable, heq]
  · intro hall
    by_cases hex : ∃ b ∈ bs, g.IsVariable arg b.1
    · obtain ⟨b, hb, hvariable⟩ := hex
      rw [hread b hb hvariable, hall b hb hvariable]
    · refine given_bindAll_of_not_reads fun b hb => ?_
      obtain ⟨name, hvariable⟩ | hfixed := harg
      · refine hvariable.not_reads ?_
        rintro rfl
        exact hex ⟨b, hb, hvariable⟩
      · exact hfixed b.1

/-- **Variables and fixed values**: all parameters get the values of the caller if and only if an
argument that is an earlier parameter has the value of that parameter's argument before the call. -/
theorem bindAll_eq_given_iff_of_isPlain (hnodup : (bs.map Prod.fst).Nodup)
    (hplain : ∀ b ∈ bs, g.IsPlain b.2) :
    (∀ b ∈ bs, (g.bindAll c bs).names.get? b.1 = some (g.given c b.2)) ↔
      bs.Pairwise fun b b' => g.IsVariable b'.2 b.1 → g.given c b.2 = g.given c b'.2 := by
  -- the last parameter is taken off, because its argument is looked up after all others are bound
  induction bs using List.reverseRecOn with
  | nil => simp
  | append_singleton bs b ih =>
    simp only [List.map_append, List.map_cons, List.map_nil, List.nodup_append,
      List.mem_singleton] at hnodup
    obtain ⟨hnodup, -, hnew⟩ := hnodup
    have hne : ∀ b' ∈ bs, b.1 ≠ b'.1 := fun b' hb' =>
      Ne.symm (hnew b'.1 (List.mem_map_of_mem hb') b.1 rfl)
    have hold : ∀ b' ∈ bs,
        (g.bindAll c (bs ++ [b])).names.get? b'.1 = (g.bindAll c bs).names.get? b'.1 := by
      intro b' hb'
      rw [get?_bindAll_concat, if_neg (hne b' hb')]
    have hlast : (g.bindAll c (bs ++ [b])).names.get? b.1 =
        some (g.given (g.bindAll c bs) b.2) := by
      rw [get?_bindAll_concat, if_pos rfl]
    rw [List.pairwise_append,
      ← ih hnodup fun b' hb' => hplain b' (List.mem_append_left _ hb')]
    simp only [List.forall_mem_append, List.forall_mem_singleton, List.pairwise_singleton,
      true_and]
    rw [forall₂_congr fun b' hb' => by rw [hold b' hb'], hlast, Option.some.injEq]
    exact and_congr_right fun hbound => (hplain b (by simp)).given_bindAll_eq_iff hbound

end TagEngine

/-! ## Calls -/

/-- The parameters of a call with their arguments, in the order in which they are bound: first those
by place, whose arguments may be missing, then those by name with what is given for them or else
their defaults. -/
def Macro.bindings (m : Macro) (args : List String) (named : Table String String) :
    List (String × Option String) :=
  (m.params.mapIdx fun i p => (p, args[i]?)) ++
    m.defaults.entries.map fun d => (d.1, some ((named.get? d.1).getD d.2))

namespace MacroTag

theorem setParams_eq_bindAll (g : TagEngine) (c : Context) (params args : List String) :
    setParams g c params args = g.bindAll c (params.mapIdx fun i p => (p, args[i]?)) := by
  induction params generalizing c args with
  | nil => rfl
  | cons p params ih =>
    cases args with
    | nil =>
      rw [setParams, ih, List.mapIdx_cons]
      rfl
    | cons a args =>
      rw [setParams, ih, List.mapIdx_cons]
      simp only [List.getElem?_cons_succ]
      rfl

theorem setNamed_eq_bindAll (g : TagEngine) (named : Table String String) (c : Context)
    (defaults : List (String × String)) :
    setNamed g named c defaults =
      g.bindAll c (defaults.map fun d => (d.1, some ((named.get? d.1).getD d.2))) := by
  induction defaults generalizing c with
  | nil => rfl
  | cons d defaults ih =>
    rw [setNamed, ih]
    rfl

theorem render_call (g : TagEngine) (c : Context) (m : Macro) (args : List String)
    (named : Table String String) :
    (MacroTag.call m args named).render g c =
      (.ok (m.body (g.bindAll c (m.bindings args named))),
        g.bindAll c (m.bindings args named)) := by
  rw [render, setParams_eq_bindAll, setNamed_eq_bindAll, Macro.bindings, TagEngine.bindAll,
    TagEngine.bindAll, TagEngine.bindAll, List.foldl_append]

/-- **Arguments of a call.** Take any engine. The body of a macro is always rendered, in a context
with these names: a parameter has what its argument stood for after the parameters before it had
been bound, and all other names are as before the call. Suppose the parameters have different names.
Then all of them have what their arguments stood for before the call if and only if binding the
parameters before it makes no difference to any argument; so it is if no argument depends on an
earlier parameter. If all arguments are variables or fixed, this means that an argument that is an
earlier parameter has the value of that parameter's argument anyway. -/
theorem render_call_binds (g : TagEngine) (c : Context) (m : Macro) (args : List String)
    (named : Table String String) :
    let bs := m.bindings args named
    ∃ inner : Context,
      (MacroTag.call m args named).render g c = (.ok (m.body inner), inner) ∧
      inner.store = c.store ∧
      (∀ name, name ∉ bs.map Prod.fst → inner.names.get? name = c.names.get? name) ∧
      (∀ earlier name arg later, bs = earlier ++ (name, arg) :: later → name ∉ later.map Prod.fst →
        inner.names.get? name = some (g.given (g.bindAll c earlier) arg)) ∧
      ((bs.map Prod.fst).Nodup →
        let kept := ∀ b ∈ bs, inner.names.get? b.1 = some (g.given c b.2)
        (kept ↔ ∀ earlier b later, bs = earlier ++ b :: later →
          g.given (g.bindAll c earlier) b.2 = g.given c b.2) ∧
        ((bs.Pairwise fun b b' => ¬ g.Reads b'.2 b.1) → kept) ∧
        ((∀ b ∈ bs, g.IsPlain b.2) →
          (kept ↔ bs.Pairwise fun b b' =>
            g.IsVariable b'.2 b.1 → g.given c b.2 = g.given c b'.2))) := by
  intro bs
  refine ⟨g.bindAll c bs, render_call g c m args named, TagEngine.store_bindAll,
    fun name => TagEngine.get?_bindAll_of_not_mem, ?_, fun hnodup => ?_⟩
  · intro earlier name arg later hsplit hlast
    rw [hsplit]
    exact TagEngine.get?_bindAll_append_cons hlast
  · have hiff := TagEngine.bindAll_eq_given_iff (g := g) (c := c) hnodup
    refine ⟨hiff, fun hfree => hiff.mpr fun _ _ _ => TagEngine.given_bindAll_of_pairwise hfree, ?_⟩
    exact TagEngine.bindAll_eq_given_iff_of_isPlain hnodup

/-- A missing argument, and a parameter by name whose argument is an earlier parameter that has been
given the value it had before. -/
theorem render_call_binds_same :
    let c := ({} : Context).set "a" (.text "x")
    let m : Macro := { name := "m", params := ["a", "b"], defaults := .ofPairs [("k", "5")]
                       body := Context.listing }
    let named : Table String String := .ofPairs [("k", "a")]
    let bs := m.bindings ["'x'"] named
    let g := TagEngine.simple []
    (bs.map Prod.fst).Nodup ∧ (∀ b ∈ bs, g.IsPlain b.2) ∧
      ∀ b ∈ bs, ((MacroTag.call m ["'x'"] named).render g c).2.names.get? b.1 =
        some (g.given c b.2) := by
  intro c m named bs g
  have hbs : bs = [("a", some "'x'"), ("b", none), ("k", some "a")] := rfl
  have hnodup : (bs.map Prod.fst).Nodup := by
    rw [hbs]
    decide
  have hvariable : g.IsVariable (some "a") "a" := by
    have hgiven (c : Context) :
        g.given c (some "a") = (c.names.get? "a").getD (.text "") := rfl
    constructor
    · intro c o hname
      rw [hgiven, hname, Option.getD_some]
    · rintro other hother ⟨c, o, hreads⟩
      refine hreads ?_
      rw [hgiven, hgiven, Context.set, Table.get?_set_of_ne _ hother]
  have hplain : ∀ b ∈ bs, g.IsPlain b.2 := by
    simp only [hbs, List.forall_mem_cons, List.not_mem_nil, false_implies, implies_true, and_true]
    exact ⟨.inr fun _ ⟨_, _, hreads⟩ => hreads rfl, .inr fun _ ⟨_, _, hreads⟩ => hreads rfl,
      .inl ⟨"a", hvariable⟩⟩
  obtain ⟨inner, hrender, -, -, -, hkept⟩ :=
    render_call_binds g c m ["'x'"] named
  refine ⟨hnodup, hplain, ?_⟩
  rw [hrender, (hkept hnodup).2.2 hplain]
  have hnone : ¬ g.IsVariable none "a" := fun h => by
    have hempty : Object.text "" = .int 1 := h.given_eq (c := ({} : Context).set "a" (.int 1)) rfl
    cases hempty
  have hother : ¬ g.IsVariable (some "a") "b" := fun h => by
    have hempty : Object.text "" = .int 1 := h.given_eq (c := ({} : Context).set "b" (.int 1)) rfl
    cases hempty
  have hsame : g.given c (some "'x'") = g.given c (some "a") := rfl
  have hpairs : [("a", some "'x'"), ("b", none), ("k", some "a")].Pairwise fun b b' =>
      g.IsVariable b'.2 b.1 → g.given c b.2 = g.given c b'.2 := by
    simp [hnone, hother, hsame]
  exact hpairs

/-- Two variables that are given for each other are not exchanged: the second one finds the new
value of the first. -/
theorem render_call_exchange :
    let c := (({} : Context).set "a" (.int 1)).set "b" (.int 2)
    let m : Macro := { name := "m", params := ["a", "b"], defaults := {}, body := Context.listing }
    ¬ ∀ b ∈ m.bindings ["b", "a"] {},
      ((MacroTag.call m ["b", "a"] {}).render (.simple []) c).2.names.get? b.1 =
        some ((TagEngine.simple []).given c b.2) := by
  intro c m h
  have hbound := h ("b", some "a") (by simp [m, Macro.bindings])
  have hfound : ((MacroTag.call m ["b", "a"] {}).render (.simple []) c).2.names.get? "b" =
    some (.int 2) := rfl
  have hgiven : (TagEngine.simple []).given c (some "a") = .int 1 := rfl
  rw [hfound, hgiven] at hbound
  simp at hbound

end MacroTag

end Jade
