import Jade.Reader

/-!
# What reading leads to

Reading a tree is a sequence of actions, each of which may fail. `Reader.Leads` says where an action
leads from a given state: to a result and a state as wanted, or to a fault of a kind that is
allowed. What an action of several steps leads to is found step by step (`Leads.bind`), so that the
facts about a form are put together from the facts about its parts.

## Main results

* `Jade.Reader.Leads.bind` : one action after the other
* `Jade.Reader.Leads.mono` : less is wanted
-/

namespace Jade

namespace Reader

variable {α β : Type} {fault : Fault → Reader → Prop} {r : Reader}

/-- From `r`, the action leads to a result and a state as in `post`, or to a fault and a state as in
`fault`. -/
def Leads (fault : Fault → Reader → Prop) (act : Parse α) (post : α → Reader → Prop) (r : Reader) :
    Prop :=
  match act.run.run r with
  | (.ok a, r') => post a r'
  | (.error e, r') => fault e r'

theorem Leads.pure {post : α → Reader → Prop} {a : α} (h : post a r) :
    Leads fault (Pure.pure a) post r := h

theorem Leads.throw {post : α → Reader → Prop} {e : Fault} (h : fault e r) :
    Leads fault (MonadExcept.throw e : Parse α) post r := h

theorem Leads.ok {act : Parse α} {post : α → Reader → Prop} {a : α} (h : Leads fault act post r)
    (hrun : (act.run.run r).1 = .ok a) : post a (act.run.run r).2 := by
  rwa [Leads, show act.run.run r = (.ok a, _) from Prod.ext hrun rfl] at h

theorem Leads.error {act : Parse α} {post : α → Reader → Prop} {e : Fault}
    (h : Leads fault act post r) (hrun : (act.run.run r).1 = .error e) :
    fault e (act.run.run r).2 := by
  rwa [Leads, show act.run.run r = (.error e, _) from Prod.ext hrun rfl] at h

theorem Leads.imp {fault' : Fault → Reader → Prop} {act : Parse α} {post post' : α → Reader → Prop}
    (h : Leads fault act post r) (hpost : ∀ a r', post a r' → post' a r')
    (hfault : ∀ e r', fault e r' → fault' e r') : Leads fault' act post' r := by
  rw [Leads] at h ⊢
  rcases hrun : act.run.run r with ⟨e | a, r'⟩ <;> rw [hrun] at h
  · exact hfault e r' h
  · exact hpost a r' h

theorem Leads.mono {act : Parse α} {post post' : α → Reader → Prop} (h : Leads fault act post r)
    (hpost : ∀ a r', post a r' → post' a r') : Leads fault act post' r :=
  h.imp hpost fun _ _ he => he

theorem run_bind {σ : Type} (act : ExceptT Fault (StateM σ) α) (f : α → ExceptT Fault (StateM σ) β)
    (r : σ) :
    (act >>= f).run.run r =
      match act.run.run r with
      | (.ok a, r') => (f a).run.run r'
      | (.error e, r') => (.error e, r') := by
  show (ExceptT.bindCont f (act.run.run r).1).run (act.run.run r).2 = _
  rcases act.run.run r with ⟨_ | a, r'⟩ <;> rfl

theorem run_bind_eq_ok {σ : Type} {act : ExceptT Fault (StateM σ) α}
    {f : α → ExceptT Fault (StateM σ) β} {r r' : σ} {b : β}
    (h : (act >>= f).run.run r = (.ok b, r')) :
    ∃ a r₁, act.run.run r = (.ok a, r₁) ∧ (f a).run.run r₁ = (.ok b, r') := by
  rw [run_bind] at h
  rcases hact : act.run.run r with ⟨g | a, r₁⟩
  · rw [hact] at h
    cases h
  · rw [hact] at h
    exact ⟨a, r₁, rfl, h⟩

theorem run_tryCatch {σ : Type} (act : ExceptT Fault (StateM σ) α)
    (f : Fault → ExceptT Fault (StateM σ) α) (r : σ) :
    (tryCatch act f).run.run r =
      match act.run.run r with
      | (.ok a, r') => (.ok a, r')
      | (.error e, r') => (f e).run.run r' := by
  show (ExceptT.tryCatch act f).run.run r = _
  unfold ExceptT.tryCatch
  show (act.run >>= fun _ => _ : StateM σ _).run r = _
  rw [StateT.run_bind]
  rcases act.run.run r with ⟨_ | a, r'⟩ <;> rfl

/-- **One action after the other.** -/
theorem Leads.bind {act : Parse α} {f : α → Parse β} {p : α → Reader → Prop}
    {q : β → Reader → Prop} (h : Leads fault act p r)
    (hf : ∀ a r', p a r' → Leads fault (f a) q r') : Leads fault (act >>= f) q r := by
  rw [Leads] at h
  rw [Leads, run_bind]
  rcases hrun : act.run.run r with ⟨e | a, r'⟩
  · rwa [hrun] at h
  · rw [hrun] at h
    exact hf a r' h

theorem Leads.get {f : Reader → Parse β} {post : β → Reader → Prop}
    (h : Leads fault (f r) post r) : Leads fault (MonadState.get >>= f) post r :=
  h

theorem leads_lineNow {f : Nat → Parse β} {post : β → Reader → Prop}
    (h : Leads fault (f r.source.line) post r) : Leads fault (lineNow >>= f) post r :=
  h

theorem leads_budget {f : Nat → Parse β} {post : β → Reader → Prop}
    (h : Leads fault (f (r.source.size + 1)) post r) : Leads fault (budget >>= f) post r :=
  h

theorem Leads.modify {g : Reader → Reader} {post : Unit → Reader → Prop} (h : post () (g r)) :
    Leads fault (MonadState.modifyGet fun r => ((), g r) : Parse Unit) post r :=
  h

theorem leads_onSource {g : Source → Except Fault α × Source} {post : α → Reader → Prop}
    (hok : ∀ a s, g r.source = (.ok a, s) → post a { r with source := s })
    (herror : ∀ e s, g r.source = (.error e, s) → fault e { r with source := s }) :
    Leads fault (onSource g) post r := by
  rcases hg : g r.source with ⟨e | a, s⟩
  · rw [Leads, show (onSource g).run.run r = (.error e, { r with source := s }) by
      simp only [onSource, ExceptT.run, ExceptT.mk, StateT.run, hg]]
    exact herror e s hg
  · rw [Leads, show (onSource g).run.run r = (.ok a, { r with source := s }) by
      simp only [onSource, ExceptT.run, ExceptT.mk, StateT.run, hg]]
    exact hok a s hg

/-- If the action gives a result from `r`, the result and the state after it are as in `post`. -/
abbrev Gives (act : Parse α) (post : α → Reader → Prop) (r : Reader) : Prop :=
  Leads (fun _ _ => True) act post r

theorem Leads.gives {act : Parse α} {post : α → Reader → Prop} (h : Leads fault act post r) :
    Gives act post r :=
  h.imp (fun _ _ ha => ha) fun _ _ _ => trivial

end Reader

end Jade
