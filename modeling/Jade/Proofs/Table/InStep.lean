import Jade.Proofs.Table
import Jade.Value.Table
import Mathlib.Data.List.Nodup

/-!
# The two lists of a table

A table holds its keys twice: in the list that gives their order, and with their values. The lists
are in step if they hold the same keys, none of them twice. Every operation that changes both lists
leaves them in step, also if it fails; only taking a value without its key and a copy that renews
keys can put them out of step.

## Main results

* `Jade.Table.InStep.items_perm` : the items of a table in step are its pairs
* `Jade.Table.InStep.items_set`, `Jade.Table.InStep.items_set_without` : the place of a key that is
  set
* `Jade.Table.InStep.copy_eq` : a copy holds the same pairs
-/

namespace Jade

/-! ## Sorting moves elements -/

section Sorting

variable {α ε : Type} (lt : α → α → Except ε Bool)

theorem headRun_perm {xs ys : List α} {n : Nat} (h : headRun lt xs = .ok (n, ys)) : ys.Perm xs := by
  match xs with
  | [] => cases h; rfl
  | [x] => cases h; rfl
  | x :: y :: xs =>
    simp only [headRun, bind, Except.bind, pure, Except.pure] at h
    split at h
    · cases h
    · split at h
      · cases h
      · cases h
        split
        · exact ((List.reverse_perm _).append_right _).trans (.of_eq (List.take_append_drop ..))
        · rfl

theorem insertAll_perm (front rest : List α) :
    (insertAll lt front rest).2.Perm (front ++ rest) := by
  fun_induction insertAll lt front rest with
  | case1 front => simp
  | case2 front x rest i hi ih =>
    refine ih.trans ?_
    rw [List.append_assoc, List.cons_append]
    refine List.perm_middle.trans ?_
    rw [← List.append_assoc, List.take_append_drop]
    exact List.perm_middle.symm
  | case3 => rfl

/-- What is measured stays beside what it was measured of. -/
theorem map_snd_of_mapM {β : Type} {measure : α → Except ε β} {xs : List α}
    {measured : List (β × α)} (h : (xs.mapM fun x => do return (← measure x, x)) = .ok measured) :
    measured.map Prod.snd = xs := by
  induction xs generalizing measured with
  | nil =>
    cases h
    rfl
  | cons x xs ih =>
    rw [List.mapM_cons] at h
    rcases hx : measure x with e | y
    · rw [hx] at h
      cases h
    rcases hxs : xs.mapM fun x => do return (← measure x, x) with e | rest
    · rw [hx, hxs] at h
      cases h
    · rw [hx, hxs] at h
      cases h
      rw [List.map_cons, ih hxs]

theorem sortWithDir_perm (falling : Bool) (xs : List α) :
    (sortWithDir lt falling xs).2.Perm xs := by
  have hsort (xs : List α) : (sortWith lt xs).2.Perm xs := by
    rw [sortWith]
    split
    · next n ys hrun =>
      refine (insertAll_perm lt _ _).trans ?_
      rw [List.take_append_drop]
      exact headRun_perm lt hrun
    · rfl
  rw [sortWithDir]
  split
  · exact (List.reverse_perm _).trans ((hsort _).trans (List.reverse_perm _))
  · exact hsort xs

end Sorting

namespace Table

variable {κ ν ι : Type}

/-! ## Association lists -/

section Lists

variable [BEq κ]

theorem lookupIn_eq_find? (k : κ) (es : List (κ × ν)) :
    lookupIn k es = (es.find? fun p => p.1 == k).map Prod.snd := by
  induction es with
  | nil => rfl
  | cons p es ih =>
    rw [lookupIn, List.find?_cons, ih]
    cases p.1 == k <;> rfl

theorem contains_eq_any (t : Table κ ν) (k : κ) :
    t.contains k = t.entries.any fun p => p.1 == k := by
  rw [contains, get?, lookupIn_eq_find?, Option.isSome_map, Bool.eq_iff_iff]
  simp

theorem map_fst_storeIn (k : κ) (v : ν) (es : List (κ × ν)) :
    (storeIn k v es).map Prod.fst =
      if es.any fun p => p.1 == k then es.map Prod.fst else es.map Prod.fst ++ [k] := by
  induction es with
  | nil => rfl
  | cons p es ih =>
    rw [storeIn, List.any_cons]
    cases hp : p.1 == k
    · simp only [Bool.false_eq_true, if_false, Bool.false_or, List.map_cons, ih]
      split <;> rfl
    · rfl

theorem storeIn_of_any_eq_false {k : κ} (v : ν) {es : List (κ × ν)}
    (h : (es.any fun p => p.1 == k) = false) : storeIn k v es = es ++ [(k, v)] := by
  induction es with
  | nil => rfl
  | cons p es ih =>
    rw [List.any_cons, Bool.or_eq_false_iff] at h
    rw [storeIn, if_neg (Bool.eq_false_iff.mp h.1), ih h.2, List.cons_append]

theorem mem_storeIn_of_ne {k : κ} (v : ν) {es : List (κ × ν)} {p : κ × ν} (hp : p ∈ es)
    (h : (p.1 == k) = false) : p ∈ storeIn k v es := by
  induction es with
  | nil => cases hp
  | cons q es ih =>
    rw [storeIn]
    rcases List.mem_cons.mp hp with rfl | hp
    · rw [if_neg (Bool.eq_false_iff.mp h)]
      exact List.mem_cons_self
    · split
      · exact List.mem_cons_of_mem _ hp
      · exact List.mem_cons_of_mem _ (ih hp)

theorem exists_mem_storeIn (k : κ) (v : ν) (es : List (κ × ν)) :
    ∃ a, (a, v) ∈ storeIn k v es ∧ ((a == k) = true ∨ a = k) := by
  induction es with
  | nil => exact ⟨k, List.mem_cons_self, .inr rfl⟩
  | cons q es ih =>
    rw [storeIn]
    split
    · next hq => exact ⟨q.1, List.mem_cons_self, .inl hq⟩
    · obtain ⟨a, ha, hak⟩ := ih
      exact ⟨a, List.mem_cons_of_mem _ ha, hak⟩

/-- Where at most one element has a property, that element is found. -/
theorem find?_eq_some_of_mem {α : Type} {p : α → Bool} {l : List α} {a : α}
    (h : l.Pairwise fun a b => ¬(p a = true ∧ p b = true)) (ha : a ∈ l) (hpa : p a = true) :
    l.find? p = some a := by
  induction l with
  | nil => cases ha
  | cons b l ih =>
    obtain ⟨hfirst, hrest⟩ := List.pairwise_cons.mp h
    rw [List.find?_cons]
    rcases List.mem_cons.mp ha with rfl | ha
    · rw [hpa]
    · have hb : p b = false := Bool.eq_false_iff.mpr fun hb => hfirst a ha ⟨hb, hpa⟩
      rw [hb]
      exact ih hrest ha

theorem eraseP_eq_filter {α : Type} {p : α → Bool} {l : List α}
    (h : l.Pairwise fun a b => ¬(p a = true ∧ p b = true)) : l.eraseP p = l.filter (!p ·) := by
  induction l with
  | nil => rfl
  | cons a l ih =>
    obtain ⟨hfirst, hrest⟩ := List.pairwise_cons.mp h
    rw [List.eraseP_cons, List.filter_cons]
    cases hpa : p a
    · simp [ih hrest]
    · have hall : ∀ b ∈ l, (!p b) = true := by
        intro b hb
        rw [Bool.not_eq_true', Bool.eq_false_iff]
        exact fun hpb => hfirst b hb ⟨hpa, hpb⟩
      simp [List.filter_eq_self.mpr hall]

theorem dropIn_eq_eraseP (k : κ) (es : List (κ × ν)) :
    dropIn k es = es.eraseP fun p => p.1 == k := by
  induction es with
  | nil => rfl
  | cons p es ih =>
    rw [dropIn, List.eraseP_cons, ih]
    cases p.1 == k <;> rfl

end Lists

/-! ## Tables in step -/

section Steps

variable [TableKey κ]

/-- The list of keys and the pairs hold the same keys, and none of them twice. -/
structure InStep (t : Table κ ν) : Prop where
  /-- The keys in the order are those that have values. -/
  perm : t.keys.Perm (t.entries.map Prod.fst)
  /-- No two keys are the same. -/
  distinct : t.keys.Pairwise fun a b => TableKey.same a b = false
  /-- All of them may be keys. -/
  usable : ∀ k ∈ t.keys, TableKey.usable k = true

/-- A table without the pair of a key. -/
def without (t : Table κ ν) (k : κ) : Table κ ν where
  keys := t.keys.filter fun a => !TableKey.same a k
  entries := t.entries.filter fun p => !TableKey.same p.1 k

variable {t : Table κ ν} {k : κ}

theorem beq_eq_same (a b : κ) : (a == b) = TableKey.same a b := rfl

theorem inStep_empty : (empty : Table κ ν).InStep := ⟨.nil, .nil, fun _ h => by cases h⟩

theorem keys_set_of_contains (h : t.contains k = true) (v : ν) : (t.set k v).keys = t.keys :=
  if_pos h

theorem keys_set_of_not_contains (h : t.contains k = false) (v : ν) :
    (t.set k v).keys = t.keys ++ [k] := if_neg (Bool.eq_false_iff.mp h)

theorem map_fst_entries_set (v : ν) :
    (t.set k v).entries.map Prod.fst =
      if t.contains k then t.entries.map Prod.fst else t.entries.map Prod.fst ++ [k] := by
  rw [contains_eq_any]
  exact map_fst_storeIn k v t.entries

theorem fetch_eq_ok_iff {v : ν} :
    t.fetch k = .ok v ↔ TableKey.usable k = true ∧ t.get? k = some v := by
  rw [fetch]
  split
  · next hk => cases t.get? k <;> simp [hk]
  · next hk => simp [hk]

theorem contains_of_get? {v : ν} (h : t.get? k = some v) : t.contains k = true := by
  rw [contains, h, Option.isSome_some]

namespace InStep

variable (h : t.InStep)

include h

theorem contains_iff : t.contains k = true ↔ ∃ a ∈ t.keys, TableKey.same a k = true := by
  rw [contains_eq_any, List.any_eq_true]
  constructor
  · rintro ⟨p, hp, hsame⟩
    exact ⟨p.1, h.perm.mem_iff.mpr (List.mem_map_of_mem hp), hsame⟩
  · rintro ⟨a, ha, hsame⟩
    obtain ⟨p, hp, rfl⟩ := List.mem_map.mp (h.perm.mem_iff.mp ha)
    exact ⟨p, hp, hsame⟩

theorem keys_any_iff : t.keys.any (· == k) = t.contains k := by
  rw [Bool.eq_iff_iff, h.contains_iff, List.any_eq_true]
  rfl

theorem set (hk : TableKey.usable k = true) (v : ν) : (t.set k v).InStep := by
  cases hmem : t.contains k with
  | true =>
    have hkeys := keys_set_of_contains hmem v
    refine ⟨?_, hkeys ▸ h.distinct, hkeys ▸ h.usable⟩
    rw [hkeys, map_fst_entries_set, hmem]
    exact h.perm
  | false =>
    have hkeys := keys_set_of_not_contains hmem v
    have hnew : ∀ a ∈ t.keys, TableKey.same a k = false := fun a ha =>
      Bool.eq_false_iff.mpr fun hsame =>
        Bool.eq_false_iff.mp hmem (h.contains_iff.mpr ⟨a, ha, hsame⟩)
    constructor
    · rw [hkeys, map_fst_entries_set, hmem]
      exact h.perm.append_right [k]
    · rw [hkeys, List.pairwise_append]
      refine ⟨h.distinct, List.pairwise_singleton .., fun a ha b hb => ?_⟩
      rw [List.mem_singleton.mp hb]
      exact hnew a ha
    · rw [hkeys, List.forall_mem_append]
      exact ⟨h.usable, by simpa using hk⟩

theorem without (k : κ) : (t.without k).InStep where
  perm := by
    refine (h.perm.filter _).trans (.of_eq ?_)
    rw [List.filter_map]
    rfl
  distinct := h.distinct.filter _
  usable a ha := h.usable a (List.mem_filter.mp ha).1

theorem put (k : κ) (v : ν) : (t.put k v).2.InStep := by
  rw [Table.put, withKey]
  split
  · next hk => exact h.set hk v
  · exact h

theorem update (pairs : List (Except Fault (κ × ν))) : (t.update pairs).2.InStep := by
  induction pairs generalizing t with
  | nil => exact h
  | cons p pairs ih =>
    cases p with
    | error e => exact h
    | ok p =>
      have hput := h.put p.1 p.2
      rw [Table.update]
      rcases hresult : t.put p.1 p.2 with ⟨_ | _, t'⟩
      · rw [hresult] at hput
        exact hput
      · rw [hresult] at hput
        exact ih hput

theorem setDefault (k : κ) (v : ν) : (t.setDefault k v).2.InStep := by
  rw [Table.setDefault, has]
  split
  · exact h
  · exact h
  · next hhas =>
    split at hhas
    · next hk => exact h.set hk v
    · cases hhas

end InStep

/-! ## Keys that are told apart -/

/-- Keys are the same if and only if a function has one value for both. -/
def ToldBy (f : κ → ι) : Prop :=
  ∀ {a b : κ}, TableKey.usable a = true → TableKey.usable b = true →
    (TableKey.same a b = true ↔ f a = f b)

variable {f : κ → ι} (hf : ToldBy f)

include hf

namespace InStep

variable (h : t.InStep)

include h

theorem nodup : (t.keys.map f).Nodup := by
  refine List.pairwise_map.mpr (h.distinct.imp_of_mem ?_)
  intro a b ha hb hsame heq
  rw [(hf (h.usable a ha) (h.usable b hb)).mpr heq] at hsame
  cases hsame

theorem of_perm {keys : List κ} (hkeys : keys.Perm t.keys) :
    ({ t with keys } : Table κ ν).InStep := by
  have husable : ∀ k ∈ keys, TableKey.usable k = true :=
    fun k hk => h.usable k (hkeys.mem_iff.mp hk)
  refine ⟨hkeys.trans h.perm, ?_, husable⟩
  refine (List.pairwise_map.mp ((hkeys.map f).nodup_iff.mpr (h.nodup hf))).imp_of_mem ?_
  intro a b ha hb hne
  exact Bool.eq_false_iff.mpr fun hsame => hne ((hf (husable a ha) (husable b hb)).mp hsame)

theorem reverse : t.reverse.InStep := h.of_perm hf (List.reverse_perm _)

theorem sortKeys (measure : κ → Except Fault Value) (falling : Bool) :
    (t.sortKeys measure falling).2.InStep := by
  unfold Table.sortKeys
  split
  · exact h
  · next measured hmeasured =>
    refine h.of_perm hf ?_
    rw [← map_snd_of_mapM hmeasured]
    exact (sortWithDir_perm _ falling measured).map Prod.snd

theorem atMostOne (hk : TableKey.usable k = true) :
    t.keys.Pairwise fun a b => ¬(TableKey.same a k = true ∧ TableKey.same b k = true) := by
  refine h.distinct.imp_of_mem ?_
  rintro a b ha hb hsame ⟨hak, hbk⟩
  have hfa := (hf (h.usable a ha) hk).mp hak
  have hfb := (hf (h.usable b hb) hk).mp hbk
  rw [(hf (h.usable a ha) (h.usable b hb)).mpr (hfa.trans hfb.symm)] at hsame
  cases hsame

theorem atMostOne_entries (hk : TableKey.usable k = true) :
    t.entries.Pairwise fun p q => ¬(TableKey.same p.1 k = true ∧ TableKey.same q.1 k = true) :=
  List.pairwise_map.mp ((h.perm.pairwise_iff fun h h' => h h'.symm).mp (h.atMostOne hf hk))

theorem filter_eq_without (hk : TableKey.usable k = true) :
    ({ keys := t.keys.eraseP (· == k), entries := dropIn k t.entries } : Table κ ν) =
      t.without k := by
  simp only [dropIn_eq_eraseP, beq_eq_same, Table.without]
  rw [eraseP_eq_filter (h.atMostOne_entries hf hk), eraseP_eq_filter (h.atMostOne hf hk)]

theorem erase_eq {v : ν} (hv : t.fetch k = .ok v) :
    t.erase k = (.ok (), t.without k) := by
  obtain ⟨hk, hget⟩ := fetch_eq_ok_iff.mp hv
  have hany : t.keys.any (· == k) = true := h.keys_any_iff.trans (contains_of_get? hget)
  rw [Table.erase, hv]
  simp only [forgetKey, hany, if_true, h.filter_eq_without hf hk]

theorem erase (k : κ) : (t.erase k).2.InStep := by
  cases hv : t.fetch k with
  | error e =>
    rw [Table.erase, hv]
    exact h
  | ok v =>
    rw [h.erase_eq hf hv]
    exact h.without k

theorem popOr (k : κ) (default : ν) : (t.popOr k default).2.InStep := by
  rw [Table.popOr, has]
  cases hk : TableKey.usable k with
  | false => exact h
  | true =>
    cases hmem : t.contains k with
    | false => exact h
    | true =>
      have hany : t.keys.any (· == k) = true := h.keys_any_iff.trans hmem
      simp only [if_true, forgetKey, hany, h.filter_eq_without hf hk]
      exact h.without k

/-! ## Items -/

/-- The value of a pair is found under every key that is the same as its own. -/
theorem get?_of_mem (hk : TableKey.usable k = true) {p : κ × ν} (hp : p ∈ t.entries)
    (hsame : TableKey.same p.1 k = true) : t.get? k = some p.2 := by
  rw [get?, lookupIn_eq_find?]
  simp only [beq_eq_same]
  rw [find?_eq_some_of_mem (h.atMostOne_entries hf hk) hp hsame, Option.map_some]

theorem get?_of_mem_entries {p : κ × ν} (hp : p ∈ t.entries) :
    t.get? p.1 = some p.2 := by
  have hk := h.usable p.1 (h.perm.mem_iff.mpr (List.mem_map_of_mem hp))
  exact h.get?_of_mem hf hk hp ((hf hk hk).mpr rfl)

/-- **Items.** Each key is listed once, with its value. -/
theorem items_perm : t.items.Perm (t.entries.map fun p => (p.1, some p.2)) := by
  refine (h.perm.map _).trans (.of_eq ?_)
  rw [List.map_map]
  refine List.map_congr_left fun p hp => ?_
  rw [Function.comp_apply, h.get?_of_mem_entries hf hp]

theorem get?_set_of_mem (hk : TableKey.usable k = true) (v : ν) {a : κ} (ha : a ∈ t.keys) :
    (t.set k v).get? a = if TableKey.same a k then some v else t.get? a := by
  have husable := h.usable a ha
  cases hsame : TableKey.same a k with
  | true =>
    obtain ⟨b, hb, hbk⟩ := exists_mem_storeIn k v t.entries
    have hb' : TableKey.usable b = true :=
      (h.set hk v).usable b ((h.set hk v).perm.mem_iff.mpr (List.mem_map_of_mem hb))
    have hfb : f b = f k := hbk.elim (hf hb' hk).mp (congrArg f)
    have hba : TableKey.same b a = true :=
      (hf hb' husable).mpr (hfb.trans ((hf husable hk).mp hsame).symm)
    exact (h.set hk v).get?_of_mem hf husable hb hba
  | false =>
    obtain ⟨p, hp, rfl⟩ := List.mem_map.mp (h.perm.mem_iff.mp ha)
    rw [if_neg Bool.false_ne_true, h.get?_of_mem_entries hf hp]
    exact (h.set hk v).get?_of_mem_entries hf (mem_storeIn_of_ne v hp hsame)

/-- **Setting a key that has a value** keeps its place. -/
theorem items_set (hk : TableKey.usable k = true) (hmem : t.contains k = true) (v : ν) :
    (t.set k v).items = t.items.map fun p => if TableKey.same p.1 k then (p.1, some v) else p := by
  rw [items, items, keys_set_of_contains hmem, List.map_map]
  refine List.map_congr_left fun a ha => ?_
  rw [Function.comp_apply, h.get?_set_of_mem hf hk v ha]
  dsimp only
  split <;> rfl

theorem items_set_of_not_contains (hk : TableKey.usable k = true)
    (hmem : t.contains k = false) (v : ν) : (t.set k v).items = t.items ++ [(k, some v)] := by
  have hentries : (t.set k v).entries = t.entries ++ [(k, v)] :=
    storeIn_of_any_eq_false v ((contains_eq_any t k).symm.trans hmem)
  have hlast : (t.set k v).get? k = some v :=
    (h.set hk v).get?_of_mem_entries hf (p := (k, v)) (by simp [hentries])
  rw [items, items, keys_set_of_not_contains hmem, List.map_append, List.map_singleton, hlast]
  congr 1
  refine List.map_congr_left fun a ha => ?_
  have hsame : TableKey.same a k = false :=
    Bool.eq_false_iff.mpr fun hsame => Bool.eq_false_iff.mp hmem (h.contains_iff.mpr ⟨a, ha, hsame⟩)
  rw [h.get?_set_of_mem hf hk v ha, hsame, if_neg Bool.false_ne_true]

theorem items_without (k : κ) :
    (t.without k).items = t.items.filter fun p => !TableKey.same p.1 k := by
  rw [items, items, List.filter_map]
  refine List.map_congr_left fun a ha => ?_
  obtain ⟨hmem, hsame⟩ := List.mem_filter.mp ha
  obtain ⟨p, hp, rfl⟩ := List.mem_map.mp (h.perm.mem_iff.mp hmem)
  have hleft : p ∈ (t.without k).entries := List.mem_filter.mpr ⟨hp, hsame⟩
  rw [(h.without k).get?_of_mem_entries hf hleft, h.get?_of_mem_entries hf hp]

/-- **Setting a key that was removed** puts it at the end. -/
theorem items_set_without (hk : TableKey.usable k = true) {a : κ}
    (hsame : ∀ b, TableKey.usable b = true → TableKey.same b a = TableKey.same b k) (v : ν) :
    ((t.without a).set k v).items =
      (t.items.filter fun p => !TableKey.same p.1 a) ++ [(k, some v)] := by
  have hmem : (t.without a).contains k = false := by
    rw [contains_eq_any, List.any_eq_false]
    intro p hp
    have husable := (h.without a).usable p.1
      ((h.without a).perm.mem_iff.mpr (List.mem_map_of_mem hp))
    have hleft := (List.mem_filter.mp hp).2
    rw [hsame p.1 husable, Bool.not_eq_true'] at hleft
    exact Bool.eq_false_iff.mp hleft
  rw [(h.without a).items_set_of_not_contains hf hk hmem, h.items_without hf]

/-! ## Copies -/

/-- Tables in step that hold the same pairs have the same values. -/
theorem get?_eq_of_perm {u : Table κ ν} (hu : u.InStep)
    (hperm : u.entries.Perm t.entries) (hk : TableKey.usable k = true) : u.get? k = t.get? k := by
  cases hmem : t.contains k with
  | true =>
    obtain ⟨a, ha, hsame⟩ := h.contains_iff.mp hmem
    obtain ⟨p, hp, rfl⟩ := List.mem_map.mp (h.perm.mem_iff.mp ha)
    rw [h.get?_of_mem hf hk hp hsame, hu.get?_of_mem hf hk (hperm.mem_iff.mpr hp) hsame]
  | false =>
    have hmem' : u.contains k = false := by
      rw [contains_eq_any, hperm.any_eq, ← contains_eq_any, hmem]
    rw [contains, Option.isSome_eq_false_iff, Option.isNone_iff_eq_none] at hmem hmem'
    rw [hmem, hmem']

end InStep

omit hf

theorem ofPairs_eq_storeAll (pairs : List (κ × ν)) : ofPairs pairs = empty.storeAll pairs := rfl

/-- Pairs with different keys stand in a new table as they are. -/
theorem storeAll_of_distinct (pairs : List (κ × ν)) : ∀ t : Table κ ν,
    t.keys = t.entries.map Prod.fst →
    ((t.entries ++ pairs).map Prod.fst).Pairwise (fun a b => TableKey.same a b = false) →
    t.storeAll pairs = { keys := t.keys ++ pairs.map Prod.fst, entries := t.entries ++ pairs } := by
  induction pairs with
  | nil => simp
  | cons p pairs ih =>
    intro t hkeys hdistinct
    have hnew : (t.entries.any fun q => q.1 == p.1) = false := by
      rw [List.any_eq_false]
      intro q hq
      rw [List.map_append, List.map_cons, List.pairwise_append] at hdistinct
      exact Bool.eq_false_iff.mp
        (hdistinct.2.2 q.1 (List.mem_map_of_mem hq) p.1 List.mem_cons_self)
    have hset : t.set p.1 p.2 = { keys := t.keys ++ [p.1], entries := t.entries ++ [p] } := by
      rw [Table.set, contains_eq_any, hnew, storeIn_of_any_eq_false p.2 hnew]
      rfl
    rw [storeAll_cons, hset, ih _ (by simp [hkeys]) (by simpa using hdistinct)]
    simp

theorem mem_entries_storeAll (pairs : List (κ × ν)) : ∀ (t : Table κ ν),
    ∀ a ∈ (t.storeAll pairs).entries.map Prod.fst,
      a ∈ t.entries.map Prod.fst ∨ a ∈ pairs.map Prod.fst := by
  induction pairs with
  | nil => exact fun t a ha => .inl ha
  | cons p pairs ih =>
    intro t a ha
    rw [List.map_cons, List.mem_cons]
    rcases ih (t.set p.1 p.2) a ha with ha | ha
    · rw [map_fst_entries_set] at ha
      split at ha
      · exact .inl ha
      · rw [List.mem_append, List.mem_singleton] at ha
        exact ha.imp_right .inl
    · exact .inr (.inr ha)

theorem copy_eq_storeAll (t : Table κ ν) (default : ν) :
    t.copy default = empty.storeAll (t.keys.map fun k => (k, (t.get? k).getD default)) := by
  rw [copy, ofPairs_eq_storeAll, items, List.map_map]
  rfl

theorem deepCopy_eq_storeAll (t : Table κ ν) (copied : κ → κ) (default : ν) :
    t.deepCopy copied default =
      { empty.storeAll (t.keys.map fun k => (copied k, (t.get? k).getD default)) with
        keys := t.keys } := by
  rw [deepCopy, ofPairs_eq_storeAll, items, List.map_map]
  rfl

/-- Keys that are renewed are missing among the pairs of a deep copy. -/
theorem mem_of_inStep_deepCopy {copied : κ → κ} {default : ν}
    (h : (t.deepCopy copied default).InStep) : ∀ k ∈ t.keys, ∃ a ∈ t.keys, copied a = k := by
  intro k hk
  rw [deepCopy_eq_storeAll] at h
  rcases mem_entries_storeAll _ _ _ (h.perm.mem_iff.mp hk) with hmem | hmem
  · cases hmem
  · simpa using hmem

include hf

/-- **A copy** has the same order and the same pairs. -/
theorem InStep.copy_eq (h : t.InStep) (default : ν) :
    (t.copy default).InStep ∧ (t.copy default).keys = t.keys ∧
      (t.copy default).entries.Perm t.entries := by
  have hpairs : (t.keys.map fun k => (k, (t.get? k).getD default)).map Prod.fst = t.keys := by
    rw [List.map_map]
    exact List.map_id _
  have hcopy : t.copy default =
      { keys := t.keys, entries := t.keys.map fun k => (k, (t.get? k).getD default) } := by
    rw [copy_eq_storeAll,
      storeAll_of_distinct _ empty rfl (by simpa [empty, hpairs] using h.distinct)]
    simp [empty, hpairs]
  have hperm : (t.keys.map fun k => (k, (t.get? k).getD default)).Perm t.entries := by
    refine (h.perm.map _).trans (.of_eq ?_)
    rw [List.map_map]
    refine (List.map_congr_left fun p hp => ?_).trans (List.map_id _)
    rw [Function.comp_apply, h.get?_of_mem_entries hf hp]
    rfl
  rw [hcopy]
  exact ⟨⟨.of_eq hpairs.symm, h.distinct, h.usable⟩, rfl, hperm⟩

theorem InStep.items_copy (h : t.InStep) (default : ν) : (t.copy default).items = t.items := by
  obtain ⟨hcopy, hkeys, hperm⟩ := h.copy_eq hf default
  rw [items, items, hkeys]
  refine List.map_congr_left fun a ha => ?_
  rw [h.get?_eq_of_perm hf hcopy hperm (h.usable a ha)]

theorem InStep.deepCopy (h : t.InStep) {copied : κ → κ} (hcopied : ∀ k ∈ t.keys, copied k = k)
    (default : ν) : (t.deepCopy copied default).InStep := by
  have hpairs : (t.keys.map fun k => (copied k, (t.get? k).getD default)) =
      t.keys.map fun k => (k, (t.get? k).getD default) :=
    List.map_congr_left fun k hk => congrArg (·, _) (hcopied k hk)
  obtain ⟨hcopy, hkeys, -⟩ := h.copy_eq hf default
  rw [deepCopy_eq_storeAll, hpairs, ← copy_eq_storeAll]
  exact hcopy.of_perm hf (.of_eq hkeys.symm)

end Steps

end Table

end Jade
