import Jade.Table

/-!
# Storing in tables

What a table holds after a value is stored, and after a list of pairs is stored one after the other.
The last value of a key wins, while the key keeps the place where it was first stored.

## Main results

* `Jade.Table.get?_set`, `get?_storeAll` : the last value stored under a key is found
* `Jade.Table.items_storeAll` : pairs with new and distinct keys stand at the end, in order
-/

namespace Jade.Table

variable {κ ν : Type} [BEq κ]

/-- The keys in the order are those that have a value. Taking a value out can break this. -/
def Consistent (t : Table κ ν) : Prop := ∀ k, k ∈ t.keys ↔ t.contains k = true

theorem consistent_empty : ({} : Table κ ν).Consistent :=
  fun _ => by simp [contains, get?, lookupIn]

theorem mem_keys_set {t : Table κ ν} (ht : t.Consistent) (k k' : κ) (v : ν) :
    k' ∈ (t.set k v).keys ↔ k' = k ∨ k' ∈ t.keys := by
  rw [set]
  split
  · next hk =>
    rw [or_iff_right_of_imp]
    rintro rfl
    exact (ht _).mpr hk
  · rw [List.mem_append, List.mem_singleton, or_comm]

theorem keys_set_of_not_mem {t : Table κ ν} (ht : t.Consistent) {k : κ} (hk : k ∉ t.keys) (v : ν) :
    (t.set k v).keys = t.keys ++ [k] := by
  rw [ht k] at hk
  exact if_neg hk

/-- Store pairs one after the other. -/
def storeAll (t : Table κ ν) (pairs : List (κ × ν)) : Table κ ν :=
  pairs.foldl (fun t p => t.set p.1 p.2) t

@[simp] theorem storeAll_nil (t : Table κ ν) : t.storeAll [] = t := rfl

@[simp] theorem storeAll_cons (t : Table κ ν) (p : κ × ν) (pairs : List (κ × ν)) :
    t.storeAll (p :: pairs) = (t.set p.1 p.2).storeAll pairs := rfl

variable [LawfulBEq κ]

/-! ## One pair -/

theorem lookupIn_storeIn (k k' : κ) (v : ν) (entries : List (κ × ν)) :
    lookupIn k' (storeIn k v entries) = if k == k' then some v else lookupIn k' entries := by
  induction entries with
  | nil => rfl
  | cons p entries ih =>
    obtain ⟨a, w⟩ := p
    rw [storeIn]
    split
    · next ha =>
      rw [lookupIn, lookupIn, eq_of_beq ha]
      split
      · rfl
      · rfl
    · next ha =>
      rw [lookupIn, lookupIn, ih]
      split
      · next hak =>
        have hk : ¬(k == k') = true := by
          intro hk
          exact ha (by rw [eq_of_beq hak, eq_of_beq hk, beq_self_eq_true])
        rw [if_neg hk]
      · rfl

theorem get?_set (t : Table κ ν) (k k' : κ) (v : ν) :
    (t.set k v).get? k' = if k == k' then some v else t.get? k' :=
  lookupIn_storeIn k k' v t.entries

theorem get?_set_of_ne (t : Table κ ν) {k k' : κ} (h : k ≠ k') (v : ν) :
    (t.set k v).get? k' = t.get? k' := by
  rw [get?_set]
  exact if_neg fun hk => h (eq_of_beq hk)

theorem Consistent.set {t : Table κ ν} (ht : t.Consistent) (k : κ) (v : ν) :
    (t.set k v).Consistent := by
  intro k'
  rw [mem_keys_set ht, ht k', contains, contains, get?_set]
  by_cases hk : k = k'
  · simp [hk]
  · have hk' : k' ≠ k := fun h => hk h.symm
    simp [hk, hk']

theorem items_set_of_not_mem {t : Table κ ν} (ht : t.Consistent) {k : κ} (hk : k ∉ t.keys) (v : ν) :
    (t.set k v).items = t.items ++ [(k, some v)] := by
  have hold : ∀ k' ∈ t.keys, (k', (t.set k v).get? k') = (k', t.get? k') := by
    intro k' hk'
    rw [get?_set_of_ne]
    rintro rfl
    exact hk hk'
  rw [items, items, keys_set_of_not_mem ht hk, List.map_append, List.map_congr_left hold]
  simp [get?_set]

/-! ## Many pairs -/

/-- The last value stored under a key is found, and if there is none, what was there before. -/
theorem get?_storeAll (t : Table κ ν) (pairs : List (κ × ν)) (k : κ) :
    (t.storeAll pairs).get? k =
      ((pairs.reverse.find? fun p => p.1 == k).map Prod.snd).or (t.get? k) := by
  induction pairs generalizing t with
  | nil => rfl
  | cons p pairs ih =>
    rw [storeAll_cons, ih, get?_set, List.reverse_cons, List.find?_append]
    cases pairs.reverse.find? fun p => p.1 == k with
    | some q => rfl
    | none =>
      by_cases hp : (p.1 == k) = true
      · simp [hp]
      · simp [hp]

theorem mem_keys_storeAll {t : Table κ ν} (ht : t.Consistent) (pairs : List (κ × ν)) (k : κ) :
    k ∈ (t.storeAll pairs).keys ↔ k ∈ t.keys ∨ ∃ p ∈ pairs, p.1 = k := by
  induction pairs generalizing t with
  | nil => simp
  | cons p pairs ih =>
    rw [storeAll_cons, ih (ht.set p.1 p.2), mem_keys_set ht, or_comm (a := k = p.1), or_assoc,
      eq_comm (a := k)]
    simp only [List.mem_cons, exists_eq_or_imp]

theorem items_storeAll {t : Table κ ν} (ht : t.Consistent) {pairs : List (κ × ν)}
    (hnodup : (pairs.map Prod.fst).Nodup) (hnew : ∀ p ∈ pairs, p.1 ∉ t.keys) :
    (t.storeAll pairs).items = t.items ++ pairs.map fun p => (p.1, some p.2) := by
  induction pairs generalizing t with
  | nil => simp
  | cons p pairs ih =>
    have hp : p.1 ∉ t.keys := hnew p List.mem_cons_self
    obtain ⟨hfirst, hrest⟩ := List.nodup_cons.mp hnodup
    have hlater : ∀ q ∈ pairs, q.1 ∉ (t.set p.1 p.2).keys := by
      intro q hq
      rw [mem_keys_set ht, not_or]
      refine ⟨fun heq => hfirst ?_, hnew q (List.mem_cons_of_mem _ hq)⟩
      exact List.mem_map.mpr ⟨q, hq, heq⟩
    rw [storeAll_cons, ih (ht.set _ _) hrest hlater, items_set_of_not_mem ht hp]
    simp

theorem mem_of_items_storeAll {pairs shown : List (κ × ν)}
    (h : (({} : Table κ ν).storeAll pairs).items = shown.map fun p => (p.1, some p.2)) {p : κ × ν}
    (hp : p ∈ shown) : p ∈ pairs := by
  have hmem : (p.1, some p.2) ∈ (({} : Table κ ν).storeAll pairs).items := by
    rw [h]
    exact List.mem_map.mpr ⟨p, hp, rfl⟩
  rw [items, List.mem_map] at hmem
  obtain ⟨k, -, hk⟩ := hmem
  obtain ⟨rfl, hget⟩ := Prod.mk.inj hk
  have hempty : ({} : Table κ ν).get? p.1 = none := rfl
  rw [get?_storeAll, hempty, Option.or_none, Option.map_eq_some_iff] at hget
  obtain ⟨q, hfind, hvalue⟩ := hget
  have hkey := List.find?_some hfind
  have hq : q = p := Prod.ext (eq_of_beq hkey) hvalue
  exact hq ▸ List.mem_reverse.mp (List.mem_of_find?_eq_some hfind)

theorem exists_of_items_storeAll {pairs shown : List (κ × ν)}
    (h : (({} : Table κ ν).storeAll pairs).items = shown.map fun p => (p.1, some p.2)) {q : κ × ν}
    (hq : q ∈ pairs) : ∃ p ∈ shown, p.1 = q.1 := by
  have hkey : q.1 ∈ (({} : Table κ ν).storeAll pairs).keys :=
    (mem_keys_storeAll consistent_empty pairs q.1).mpr (Or.inr ⟨q, hq, rfl⟩)
  have hmem : (q.1, (({} : Table κ ν).storeAll pairs).get? q.1) ∈
      (({} : Table κ ν).storeAll pairs).items := List.mem_map.mpr ⟨q.1, hkey, rfl⟩
  rw [h, List.mem_map] at hmem
  obtain ⟨p, hp, heq⟩ := hmem
  exact ⟨p, hp, (Prod.mk.inj heq).1⟩

end Jade.Table
