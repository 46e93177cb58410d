import Jade.Proofs.Table.InStep
import Jade.Script.Dictionary
import Mathlib.Data.List.Induction

/-!
# Dictionaries stay in step

A dictionary holds its keys twice: in their order, and with their values. Commands that change both
leave them in step, whether they succeed or fail. Three commands change only one of them: taking a
value without a default, taking a key out of the order, and taking over a list of keys.

A copy of all that a dictionary holds takes the order as it is, but sets the values under copies of
the keys. The copy of something that is equal to nothing but itself is another key, and that key is
missing in the order.

## Main results

* `Jade.Script.Dictionary.inStep_perform` : one command
* `Jade.Script.Dictionary.commands_in_step` : all of them
-/

namespace Jade

namespace Key

theorem same_iff {a b : Key} (ha : TableKey.usable a = true) (hb : TableKey.usable b = true) :
    TableKey.same a b = true ↔ a.identity = b.identity := by
  have hboth : (a.value.mayBeKey && b.value.mayBeKey) = true := Bool.and_eq_true_iff.mpr ⟨ha, hb⟩
  show a.same b = true ↔ _
  rw [same, if_pos hboth, decide_eq_true_iff]

theorem toldBy_identity : Table.ToldBy identity := same_iff

end Key

namespace Table

variable {ν : Type} {t : Table Key ν} {k : Key}

theorem mark_lt_fresh (h : k ∈ t.keys) : k.mark < t.fresh := by
  have hmax : ∀ ks : List Key, k ∈ ks → k.mark < ks.foldr (fun k n => max (k.mark + 1) n) 0 := by
    intro ks hk
    induction ks with
    | nil => cases hk
    | cons a ks ih =>
      rw [List.foldr_cons]
      rcases List.mem_cons.mp hk with rfl | hk
      · exact Nat.lt_of_lt_of_le (Nat.lt_succ_self _) (Nat.le_max_left _ _)
      · exact Nat.lt_of_lt_of_le (ih hk) (Nat.le_max_right _ _)
  exact hmax _ (List.mem_append_left _ h)

/-- **A copy of all that a table holds** is in step just if none of its keys is renewed. -/
theorem InStep.deepCopy_iff (h : t.InStep) (default : ν) :
    (t.deepCopy (Key.copied t.fresh) default).InStep ↔ ∀ k ∈ t.keys, k.value.renewed = false := by
  constructor
  · intro hcopy k hk
    -- a renewed key has a mark that no key of the table has
    obtain ⟨a, -, ha⟩ := mem_of_inStep_deepCopy hcopy k hk
    have hmark := mark_lt_fresh hk
    rw [Key.copied] at ha
    split at ha
    · rw [← ha] at hmark
      exact absurd hmark (Nat.not_lt.mpr (Nat.le_add_right _ _))
    · next hrenewed => exact ha ▸ Bool.eq_false_iff.mpr hrenewed
  · intro hkeys
    refine h.deepCopy Key.toldBy_identity (fun k hk => ?_) default
    rw [Key.copied, hkeys k hk, if_neg Bool.false_ne_true]

end Table

namespace Script

/-- The command changes the order of a dictionary and its pairs together, or neither. -/
def Command.keepsBoth : Command → Bool
  | .pop _ | .popItem _ | .restore _ _ => false
  | _ => true

namespace Dictionary

/-- The dictionary after commands, whatever their answers are. -/
def after (d : Dictionary) (cs : List Command) : Dictionary :=
  cs.foldl (fun d c => (d.perform c).2) d

theorem after_concat (d : Dictionary) (cs : List Command) (c : Command) :
    d.after (cs ++ [c]) = ((d.after cs).perform c).2 := by
  rw [after, List.foldl_append]
  rfl

variable {d : Dictionary}

theorem inStep_update (h : d.marked.InStep) (sources : List Value) :
    (d.update sources).2.marked.InStep := by
  unfold update
  split
  · exact h
  · split
    · exact h
    · exact h.update _
  · exact h

/-- **One command** leaves a dictionary in step, if it changes both and is no copy that renews a
key. -/
theorem inStep_perform (h : d.marked.InStep) {c : Command} (hc : c.keepsBoth = true)
    (hcopy : c = .deepCopy → ∀ k ∈ d.marked.keys, k.value.renewed = false) :
    (d.perform c).2.marked.InStep := by
  have hid : Table.ToldBy Key.identity := Key.toldBy_identity
  cases c with
  | fill sources =>
    have hfill := inStep_update (d := {}) Table.inStep_empty sources
    unfold perform
    dsimp only
    split
    · next hrun => rwa [hrun] at hfill
    · exact Table.inStep_empty
  | update sources => exact inStep_update h sources
  | copy => exact (h.copy_eq hid .none).1
  | deepCopy => exact (h.deepCopy_iff .none).mpr (hcopy rfl)
  | ofKeys keys v =>
    have hkeys := fun ks o => Table.inStep_empty.update
      ((Key.ofValues 0 ks).map fun k => (.ok (k, o) : Except Fault (Key × Object)))
    unfold perform
    dsimp only
    split
    · exact h
    · next ks _ =>
      split
      · next hrun =>
        have hstep := hkeys ks (d.store.load v).1
        rw [← Table.ofKeys, hrun] at hstep
        exact hstep
      · exact h
  | append k v =>
    unfold perform
    dsimp only
    split <;> exact h
  | sort falling measure => exact h.sortKeys hid _ falling
  | reverse => exact h.reverse hid
  | clear => exact Table.inStep_empty
  | set k v => exact h.put k (d.store.load v).1
  | erase k => exact h.erase hid k
  | popOr k v => exact h.popOr hid k (d.store.load v).1
  | setDefault k v => exact h.setDefault k (d.store.load v).1
  | pop | popItem | restore => cases hc
  | _ => exact h

theorem inStep_after {cs : List Command} (hcs : ∀ c ∈ cs, c.keepsBoth = true)
    (hcopies : ∀ before later, cs = before ++ .deepCopy :: later →
      ∀ k ∈ (after {} before).marked.keys, k.value.renewed = false) :
    (after {} cs).marked.InStep := by
  induction cs using List.reverseRecOn with
  | nil => exact Table.inStep_empty
  | append_singleton cs c ih =>
    rw [List.forall_mem_append, List.forall_mem_singleton] at hcs
    rw [after_concat]
    refine inStep_perform (ih hcs.1 fun before later hbefore => ?_) hcs.2 fun hc => ?_
    · exact hcopies before (later ++ [c]) (by simp [hbefore])
    · exact hcopies cs [] (by rw [hc])

/-- What a dictionary in step shows. -/
structure Ordered (d : Dictionary) : Prop where
  /-- The items are the pairs, each of which is listed once. -/
  listed : d.marked.items.Perm (d.marked.entries.map fun p => (p.1, some p.2))
  /-- A key that has a value keeps its place when it is set. -/
  kept : ∀ k v, d.marked.has k = .ok true →
    (d.perform (.set k v)).2.marked.items = d.marked.items.map fun p =>
      if p.1.same k then (p.1, some (d.store.load v).1) else p
  /-- A key that is removed and set again goes to the end, also if it is set by an equal key. -/
  moved : ∀ k k' v, (d.perform (.erase k)).1 = .ok .none → k'.value.mayBeKey = true →
    k'.identity = k.identity → ((d.perform (.erase k)).2.perform (.set k' v)).2.marked.items =
      (d.marked.items.filter fun p => !p.1.same k) ++ [(k', some (d.store.load v).1)]
  /-- A copy has the same items and the same pairs. -/
  copied : (d.perform .copy).2.marked.items = d.marked.items ∧
    (d.perform .copy).2.marked.entries.Perm d.marked.entries

theorem marked_set {k : Key} (hkey : TableKey.usable k = true) (v : Value) :
    (d.perform (.set k v)).2.marked = d.marked.set k (d.store.load v).1 := by
  simp only [perform, done, Table.put, Table.withKey, hkey, if_true]

theorem ordered_of_inStep (h : d.marked.InStep) : d.Ordered where
  listed := h.items_perm Key.toldBy_identity
  kept k v hhas := by
    rw [Table.has] at hhas
    split at hhas
    · next hk =>
      rw [marked_set hk v]
      exact h.items_set Key.toldBy_identity hk (Except.ok.inj hhas) _
    · cases hhas
  moved k k' v herase hk' hid := by
    cases hv : d.marked.fetch k with
    | error e =>
      simp only [perform, done, Table.erase, hv] at herase
      cases herase
    | ok o =>
      obtain ⟨hk, -⟩ := Table.fetch_eq_ok_iff.mp hv
      have herased : (d.perform (.erase k)).2 = { d with marked := d.marked.without k } := by
        simp only [perform, done, h.erase_eq Key.toldBy_identity hv]
      have hsame (b : Key) (hb : TableKey.usable b = true) :
          TableKey.same b k = TableKey.same b k' := by
        rw [Bool.eq_iff_iff, Key.same_iff hb hk, Key.same_iff hb hk', hid]
      rw [herased, marked_set hk' v]
      exact h.items_set_without Key.toldBy_identity hk' hsame _
  copied :=
    ⟨h.items_copy Key.toldBy_identity .none, (h.copy_eq Key.toldBy_identity .none).2.2⟩

/-- **Dictionaries in step.** Commands that change the order and the pairs together leave them in
step, also where they fail, if and only if no key is renewed by a copy of all that a dictionary
holds; and a dictionary in step lists its pairs in the order in which their keys were set. -/
theorem commands_in_step {cs : List Command} (hcs : ∀ c ∈ cs, c.keepsBoth = true) :
    ((∀ before later, cs = before ++ later → (after {} before).marked.InStep) ↔
      ∀ before later, cs = before ++ .deepCopy :: later →
        ∀ k ∈ (after {} before).marked.keys, k.value.renewed = false) ∧
    ∀ d : Dictionary, d.marked.InStep → d.Ordered := by
  refine ⟨⟨?_, ?_⟩, fun d => ordered_of_inStep⟩
  · rintro hsteps before later rfl
    have hcopy := hsteps (before ++ [.deepCopy]) later (by simp)
    rw [after_concat] at hcopy
    exact ((hsteps before _ rfl).deepCopy_iff .none).mp hcopy
  · rintro hcopies before later rfl
    refine inStep_after (fun c hc => hcs c (List.mem_append_left _ hc)) fun first rest hfirst => ?_
    exact hcopies first (rest ++ later) (by simp [hfirst])

/-- A number is removed by another one that is equal to it, and a stream as the object that was set.
The failures of other commands change nothing, and a copy renews neither a number nor a text. -/
theorem commands_in_step_numbers :
    let cs : List Command := [
      .fill [.list [.tuple [.int 1, .text "a"], .tuple [.text "k", .int 2]]],
      .erase ⟨.bool true, 2⟩, .erase ⟨.int 1, 3⟩, .set ⟨.list [], 4⟩ .none,
      .set ⟨.stream [.int 1], 5⟩ .none, .erase ⟨.stream [.int 1], 6⟩, .erase ⟨.stream [.int 1], 5⟩,
      .set ⟨.int 1, 7⟩ .none, .sort true (fun v => .ok (.text v.display)), .deepCopy,
      .popOr ⟨.text "k", 8⟩ .none]
    (∀ c ∈ cs, c.keepsBoth = true) ∧ (after {} cs).marked.InStep := by
  intro cs
  have hcs : ∀ c ∈ cs, c.keepsBoth = true := by simp [cs, Command.keepsBoth]
  refine ⟨hcs, (commands_in_step hcs).1.mpr (fun before later h => ?_) cs [] (by simp)⟩
  have hsplit : before = cs.take 9 ∧ later = cs.drop 10 := by
    simpa [cs, List.cons_eq_append_iff] using h
  have hkeys : ((after {} (cs.take 9)).marked.keys.all fun k => !k.value.renewed) = true := by
    unfold cs
    decide +kernel
  rw [hsplit.1]
  simpa using hkeys

/-- **A renewed key.** Of a copy with a stream as a key the order holds the stream, and the pair
stands under a copy of the stream. -/
theorem not_inStep_deepCopy_stream :
    let d := after {} [.fill [.list [.tuple [.stream [.int 1], .int 5]]], .deepCopy]
    ¬d.marked.InStep ∧ d.answer .items = .ok (.list [.tuple [.stream [.int 1], .none]]) := by
  intro d
  have hkeys : d.marked.keys.map Key.mark = [0] := by unfold d; decide +kernel
  have hpairs : (d.marked.entries.map Prod.fst).map Key.mark = [1] := by
    unfold d
    decide +kernel
  refine ⟨fun h => ?_, by rfl⟩
  have hperm := h.perm.map Key.mark
  rw [hkeys, hpairs] at hperm
  exact absurd hperm (by decide)

end Dictionary

end Script

end Jade
