import Jade.Loader
import Jade.Proofs.Reader.Logic
import Jade.Proofs.Table
import Mathlib.Data.List.Induction

/-!
# What a loader keeps

A loader asks its surroundings for shelves, sources and templates. Their answers may change from one
question to the next and may be faults, so nothing is assumed of them but that they do not touch
what the loader keeps. A call that finds a template under its name takes it and asks nothing. Any
other call asks, and then keeps what it has loaded, or it ends with a fault or with something that
cannot be rendered and leaves what is kept as it was. So a template stays until the loader is reset,
and what is given after that has been loaded after it, whatever happened before.

## Main results

* `Jade.Surroundings.answers_call` : every call
* `Jade.Surroundings.call_consistent` : every history
-/

namespace Jade

namespace Load

variable {σ τ ω α β : Type}

/-- The work leaves what is kept as it was, even if it ends with a fault. -/
def Spares (act : Load σ τ ω α) : Prop := ∀ s, (act.run.run s).2.kept = s.kept

theorem spares_pure (a : α) : Spares (pure a : Load σ τ ω α) := fun _ => rfl

theorem spares_throw (f : Fault) : Spares (throw f : Load σ τ ω α) := fun _ => rfl

theorem spares_ask (question : Ask σ α) : Spares (ask question : Load σ τ ω α) := by
  intro s
  show ((do
    set { s with world := (question.run.run s.world).2 }
    (question.run.run s.world).1 : Load σ τ ω α).run.run s).2.kept = s.kept
  rcases question.run.run s.world with ⟨_ | a, world⟩
  · rfl
  · rfl

theorem Spares.bind {act : Load σ τ ω α} {f : α → Load σ τ ω β} (h : Spares act)
    (hf : ∀ a, Spares (f a)) : Spares (act >>= f) := by
  intro s
  rw [Reader.run_bind]
  have hact := h s
  rcases hrun : act.run.run s with ⟨e | a, s'⟩
  · rwa [hrun] at hact
  · rw [hrun] at hact
    exact (hf a s').trans hact

theorem Spares.get {f : Stock σ τ ω → Load σ τ ω β} (hf : ∀ s, Spares (f s)) :
    Spares (MonadState.get >>= f) :=
  fun s => hf s s

theorem Spares.sparing {p : Fault → Bool} {act : Load σ τ ω α} (h : Spares act) :
    Spares (sparing p act) := by
  intro s
  unfold Load.sparing
  rw [Reader.run_tryCatch, ← bind_pure_comp, Reader.run_bind]
  have hact := h s
  rcases hrun : act.run.run s with ⟨e | a, s'⟩
  · rw [hrun] at hact
    dsimp only
    split
    · exact hact
    · exact hact
  · rwa [hrun] at hact

theorem spares_first (name : String) (question : Shelf σ τ ω → Ask σ α)
    (shelves : List (Shelf σ τ ω)) : Spares (first name question shelves) := by
  induction shelves with
  | nil => exact spares_throw _
  | cons shelf shelves ih =>
    refine (spares_ask _).sparing.bind fun found => ?_
    cases found with
    | some a => exact spares_pure a
    | none => exact ih

end Load

namespace Surroundings

open Load

variable {σ τ ω α : Type} (w : Surroundings σ τ ω)

theorem spares_search (name : String) (question : Shelf σ τ ω → Ask σ α) :
    Spares (w.search name question) := by
  have hfirst : Spares (do first name question (← get).shelves : Load σ τ ω α) :=
    .get fun s => spares_first name question s.shelves
  refine .get fun s => ?_
  dsimp only
  split
  · exact (spares_ask _).bind fun shelves => Spares.bind (fun _ => rfl) fun _ => hfirst
  · exact hfirst

theorem spares_find (name : String) : Spares (w.find name) := w.spares_search name _

theorem spares_source (name : String) : Spares (w.source name) := w.spares_search name _

theorem spares_fetch (name : String) : Spares (w.fetch name) := by
  have hfind : ∀ text : Option String, Spares (do return (text, ← w.find name)) := fun _ =>
    (w.spares_find name).bind fun _ => spares_pure _
  unfold fetch
  split
  · refine (w.spares_source name).sparing.bind fun found => ?_
    rcases found with _ | ⟨text, place⟩
    · exact hfind none
    refine (spares_ask _).sparing.bind fun out => ?_
    cases out with
    | none => exact hfind (some text)
    | some out =>
      have hmake : Spares (do
          let origin ← ask (w.origin place name)
          return (← ask (w.make out origin name), origin) : Load σ τ ω (τ × ω)) :=
        (spares_ask _).bind fun _ => (spares_ask _).bind fun _ => spares_pure _
      refine hmake.sparing.bind fun made => ?_
      cases made with
      | none => exact hfind (some out)
      | some made => exact spares_pure _
  · exact hfind none

theorem spares_retry (name : String) (text : Option String) (origin : ω) :
    Spares (w.retry name text origin) := by
  cases text with
  | none => exact spares_pure none
  | some text =>
    exact Spares.sparing ((spares_ask _).bind fun out => spares_ask (w.make out origin name))

/-! ## One call -/

/-- A call for the template of a name, by a loader that is not being debugged. -/
def call (name : String) (s : Stock σ τ ω) : Except Fault (τ × Option ω) × Stock σ τ ω :=
  (w.load false name).run.run s

/-- What a call may do: it gives what is kept and does nothing else, or nothing is kept under its
name and it asks. Then it keeps what it gives, or it leaves what is kept as it was. -/
inductive Answers (name : String) (s : Stock σ τ ω) :
    Except Fault (τ × Option ω) × Stock σ τ ω → Prop
  | again {t} : s.kept.get? name = some t → Answers name s (.ok (t, none), s)
  | stored {t s'} : s.kept.get? name = none → s'.kept = s.kept.set name t →
    Answers name s (.ok (t, none), s')
  | loose {t o s'} : s.kept.get? name = none → s'.kept = s.kept →
    Answers name s (.ok (t, some o), s')
  | failed {f s'} : s.kept.get? name = none → s'.kept = s.kept → Answers name s (.error f, s')

theorem call_eq (name : String) (s : Stock σ τ ω) :
    w.call name s = match s.kept.get? name with
      | some t => (.ok (t, none), s)
      | none => (w.renew name).run.run s := by
  have hget : (get : Load σ τ ω (Stock σ τ ω)).run.run s = (.ok s, s) := rfl
  unfold call load
  rw [Reader.run_bind, hget]
  dsimp only
  cases s.kept.get? name with
  | some t => rfl
  | none => rfl

/-- **Every call** does one of these. -/
theorem answers_call (name : String) (s : Stock σ τ ω) : Answers name s (w.call name s) := by
  rw [call_eq]
  cases hkept : s.kept.get? name with
  | some t => exact .again hkept
  | none =>
    have hfetch := w.spares_fetch name s
    dsimp only
    unfold renew
    rw [Reader.run_bind]
    rcases hrun : (w.fetch name).run.run s with ⟨f | ⟨text, t, origin⟩, s₁⟩
    all_goals rw [hrun] at hfetch
    · exact .failed hkept hfetch
    replace hfetch : s₁.kept = s.kept := hfetch
    have hkeep : ∀ {t s'}, s'.kept = s.kept →
        Answers name s ((keep name t : Load σ τ ω (τ × Option ω)).run.run s') :=
      fun hs' => .stored hkept (congrArg (Table.set · name _) hs')
    dsimp only
    split
    · exact hkeep hfetch
    · have hretry := w.spares_retry name text origin s₁
      rw [Reader.run_bind]
      rcases hagain : (w.retry name text origin).run.run s₁ with ⟨f | _ | t', s₂⟩
      all_goals
        rw [hagain] at hretry
        replace hretry : s₂.kept = s.kept := Eq.trans hretry hfetch
      · exact .failed hkept hretry
      · exact .loose hkept hretry
      · exact hkeep hretry

/-! ## Histories -/

/-- What happens to a loader. -/
inductive Event (σ : Type) where
  | call (name : String)
  | reset
  | change (g : σ → σ)

/-- A loader that keeps nothing. -/
def reset (s : Stock σ τ ω) : Stock σ τ ω := { s with kept := {} }

def step (s : Stock σ τ ω) : Event σ → Stock σ τ ω
  | .call name => (w.call name s).2
  | .reset => reset s
  | .change g => { s with world := g s.world }

/-- The loader after a history. -/
def after (s : Stock σ τ ω) (history : List (Event σ)) : Stock σ τ ω := history.foldl w.step s

theorem after_concat (s : Stock σ τ ω) (history : List (Event σ)) (e : Event σ) :
    w.after s (history ++ [e]) = w.step (w.after s history) e := by
  rw [after, List.foldl_append]
  rfl

variable {w} {name : String} {t : τ} {s : Stock σ τ ω}

/-- A call that loads nothing to keep leaves what is kept as it was. -/
theorem kept_call (h : ∀ t, (w.call name s).1 ≠ .ok (t, none)) :
    (w.call name s).2.kept = s.kept := by
  have hanswers := w.answers_call name s
  generalize w.call name s = r at hanswers h ⊢
  cases hanswers with
  | again | stored => exact absurd rfl (h _)
  | loose _ hs' => exact hs'
  | failed _ hs' => exact hs'

theorem get?_kept_call (h : (w.call name s).1 = .ok (t, none)) :
    (w.call name s).2.kept.get? name = some t := by
  have hanswers := w.answers_call name s
  generalize w.call name s = r at hanswers h ⊢
  cases hanswers with
  | again hkept =>
    cases h
    exact hkept
  | stored _ hs' =>
    cases h
    rw [hs', Table.get?_set, beq_self_eq_true, if_pos rfl]
  | loose | failed => cases h

theorem get?_kept_call_of_ne {name' : String} (h : name' ≠ name) :
    (w.call name' s).2.kept.get? name = s.kept.get? name := by
  have hanswers := w.answers_call name' s
  generalize w.call name' s = r at hanswers ⊢
  cases hanswers with
  | again => rfl
  | stored _ hs' => rw [hs', Table.get?_set_of_ne _ h]
  | loose _ hs' => rw [hs']
  | failed _ hs' => rw [hs']

/-- **One event.** Under a name is kept what was there before it, or what a call for this name has
just loaded. -/
theorem get?_kept_step (e : Event σ) : (w.step s e).kept.get? name = some t ↔ e ≠ .reset ∧
    (s.kept.get? name = some t ∨
      e = .call name ∧ s.kept.get? name = none ∧
        ((w.renew name).run.run s).1 = .ok (t, none)) := by
  cases e with
  | reset => simp [step, reset, Table.get?, Table.lookupIn]
  | change g => simp [step]
  | call name' =>
    rw [step]
    by_cases hname : name' = name
    · subst hname
      have hanswers := w.answers_call name' s
      rw [call_eq] at hanswers ⊢
      cases hkept : s.kept.get? name' with
      | some t' => simp [hkept]
      | none =>
        rw [hkept] at hanswers
        dsimp only at hanswers ⊢
        generalize (w.renew name').run.run s = r at hanswers ⊢
        cases hanswers with
        | again h => rw [hkept] at h; cases h
        | stored _ hs' => simp [hs', Table.get?_set]
        | loose _ hs' => simp [hs', hkept]
        | failed _ hs' => simp [hs', hkept]
    · rw [get?_kept_call_of_ne hname]
      simp [hname]

theorem get?_kept_after (h : s.kept.get? name = some t) {history : List (Event σ)}
    (hhistory : .reset ∉ history) : (w.after s history).kept.get? name = some t := by
  induction history using List.reverseRecOn with
  | nil => exact h
  | append_singleton history e ih =>
    rw [List.mem_append, List.mem_singleton, not_or] at hhistory
    rw [after_concat, get?_kept_step]
    exact ⟨Ne.symm hhistory.2, .inl (ih hhistory.1)⟩

/-- What is kept was there at the beginning, or a call has loaded it since the last reset. -/
theorem exists_of_get?_kept_after {history : List (Event σ)}
    (h : (w.after s history).kept.get? name = some t) : s.kept.get? name = some t ∨
      ∃ before later, history = before ++ .call name :: later ∧ .reset ∉ later ∧
        (w.after s before).kept.get? name = none ∧
        ((w.renew name).run.run (w.after s before)).1 = .ok (t, none) := by
  induction history using List.reverseRecOn with
  | nil => exact .inl h
  | append_singleton history e ih =>
    rw [after_concat, get?_kept_step] at h
    obtain ⟨he, hold | ⟨rfl, hnone, hloaded⟩⟩ := h
    · refine (ih hold).imp_right ?_
      rintro ⟨before, later, rfl, hlater, hloaded⟩
      refine ⟨before, later ++ [e], by simp, ?_, hloaded⟩
      simp [hlater, Ne.symm he]
    · exact .inr ⟨history, [], rfl, by simp, hnone, hloaded⟩

/-- **Every history.** A call that fails or gives something with its origin leaves what is kept as
it was. After a call has given a template to keep, every call for this name gives it again without
asking anything, whatever the surroundings are by then, until the loader is reset. And whatever is
given after a reset has been loaded after it, by a call for the same name. -/
theorem call_consistent (w : Surroundings σ τ ω) (s : Stock σ τ ω) (name : String) :
    ((∀ t, (w.call name s).1 ≠ .ok (t, none)) → (w.call name s).2.kept = s.kept) ∧
    (∀ t, (w.call name s).1 = .ok (t, none) → ∀ history, .reset ∉ history →
      ∀ (w' : Surroundings σ τ ω) world shelves,
        let s' := { w.after (w.call name s).2 history with world, shelves }
        w'.call name s' = (.ok (t, none), s')) ∧
    ∀ history t o, (w.call name (w.after (reset s) history)).1 = .ok (t, o) →
      ∃ before later, history ++ [.call name] = before ++ .call name :: later ∧ .reset ∉ later ∧
        (w.after (reset s) before).kept.get? name = none ∧
        ((w.renew name).run.run (w.after (reset s) before)).1 = .ok (t, o) := by
  refine ⟨kept_call, ?_, ?_⟩
  · intro t ht history hhistory w' world shelves s'
    have hkept : s'.kept.get? name = some t := get?_kept_after (get?_kept_call ht) hhistory
    rw [call_eq, hkept]
  · intro history t o h
    rw [call_eq] at h
    cases hkept : (w.after (reset s) history).kept.get? name with
    | none =>
      rw [hkept] at h
      exact ⟨history, [], rfl, List.not_mem_nil, hkept, h⟩
    | some t' =>
      rw [hkept] at h
      obtain ⟨rfl, rfl⟩ : t' = t ∧ none = o := by simpa using h
      obtain hold | ⟨before, later, rfl, hlater, hloaded⟩ := exists_of_get?_kept_after hkept
      · exact absurd hold (by simp [reset, Table.get?, Table.lookupIn])
      · exact ⟨before, later ++ [.call name], by simp, by simp [hlater], hloaded⟩

end Surroundings

end Jade
