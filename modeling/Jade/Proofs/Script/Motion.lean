import Mathlib.Data.List.Perm.Subperm
import Jade.Proofs.Reader.Logic
import Jade.Script.Eval

/-!
# Places do not matter

Lists, tables and streams of scripts live at places of a store. Which places these are depends on
all that was put into the store before, needed or not. Scripts can tell places apart, but they
cannot see them: a script that runs on a store with further members in between does the same, only
at places further on.

A motion leaves the places below a base where they are and moves all others by a gap. It is fixed
while scripts run. What is new is put at the end of the store, beyond the base, and so it is moved
by the same gap on its own. This is why nothing has to be said about which places are in use.

## Main results

* `Jade.Script.Motion.Relates.set`, `alloc` : what happens to a store
* `Jade.Script.Motion.Relates.snapshot` : objects at other places have the same values
* `Jade.Script.Moves.bind` : one action after the other
-/

namespace Jade.Script

/-! ## Motions -/

/-- Places below the base stay, and all others are moved by the gap. -/
structure Motion where
  base : Nat
  gap : Nat

namespace Motion

/-- Where a place is moved to. -/
def place (m : Motion) (p : Nat) : Nat := if p < m.base then p else p + m.gap

mutual

/-- An object with its places moved. -/
def move (m : Motion) : Object → Object
  | .list p => .list (m.place p)
  | .stream kind p => .stream kind (m.place p)
  | .tuple os => .tuple (moveAll m os)
  | .dict p => .dict (m.place p)
  | .pairs p => .pairs (m.place p)
  | .method self name => .method (move m self) name
  | .none => .none
  | .bool b => .bool b
  | .int n => .int n
  | .float x => .float x
  | .text t => .text t
  | .bytes bs => .bytes bs
  | .range a b c => .range a b c
  | .builtin name => .builtin name
  | .foreign v => .foreign v

/-- Objects with their places moved. -/
def moveAll (m : Motion) : List Object → List Object
  | [] => []
  | o :: os => move m o :: moveAll m os

end

/-- A pair with its places moved. -/
def movePair (m : Motion) (p : Object × Object) : Object × Object := (m.move p.1, m.move p.2)

/-- A named object with its places moved. -/
def moveNamed (m : Motion) (p : String × Object) : String × Object := (p.1, m.move p.2)

variable (m : Motion)

theorem moveAll_eq (os : List Object) : m.moveAll os = os.map m.move := by
  induction os with
  | nil => rfl
  | cons o os ih => rw [moveAll, ih, List.map_cons]

@[simp] theorem move_tuple (os : List Object) : m.move (.tuple os) = .tuple (os.map m.move) := by
  rw [move, moveAll_eq]

theorem move_ofPair (p : Object × Object) : m.move (.ofPair p) = .ofPair (m.movePair p) :=
  m.move_tuple [p.1, p.2]

theorem map_ofPair (ps : List (Object × Object)) :
    (ps.map Object.ofPair).map m.move = (ps.map m.movePair).map Object.ofPair := by
  rw [List.map_map, List.map_map]
  exact List.map_congr_left fun p _ => m.move_ofPair p

theorem pair?_move (o : Object) : (m.move o).pair? = o.pair?.map m.movePair := by
  cases o with
  | tuple os =>
    rw [move_tuple]
    rcases os with _ | ⟨k, _ | ⟨v, _ | ⟨x, os⟩⟩⟩ <;> rfl
  | _ => rfl

theorem filterMap_pair? (os : List Object) :
    (os.map m.move).filterMap Object.pair? = (os.filterMap Object.pair?).map m.movePair := by
  rw [List.filterMap_map, List.map_filterMap]
  exact List.filterMap_congr fun o _ => m.pair?_move o

theorem place_injective {p q : Nat} (h : m.place p = m.place q) : p = q := by
  rw [place, place] at h
  split at h
  · split at h
    · exact h
    · omega
  · split at h
    · omega
    · omega

theorem place_inj {p q : Nat} : m.place p = m.place q ↔ p = q :=
  ⟨m.place_injective, congrArg m.place⟩

theorem place_of_le {n : Nat} (h : m.base ≤ n) : m.place n = n + m.gap :=
  if_neg (Nat.not_lt.mpr h)

theorem place_lt_iff {n p : Nat} (h : m.base ≤ n) : m.place p < n + m.gap ↔ p < n := by
  rw [place]
  split
  · omega
  · omega

end Motion

/-! ## Objects that stay -/

mutual

/-- The places that an object refers to. -/
def Object.places : Object → List Nat
  | .list p => [p]
  | .stream _ p => [p]
  | .tuple os => placesOfAll os
  | .dict p => [p]
  | .pairs p => [p]
  | .method self _ => self.places
  | _ => []

/-- The places that objects refer to. -/
def Object.placesOfAll : List Object → List Nat
  | [] => []
  | o :: os => o.places ++ placesOfAll os

end

namespace Motion

variable (m : Motion)

mutual

theorem move_eq_self (o : Object) (h : ∀ p ∈ o.places, m.place p = p) : m.move o = o := by
  cases o with
  | list p => rw [move, h p (List.mem_singleton.mpr rfl)]
  | stream kind p => rw [move, h p (List.mem_singleton.mpr rfl)]
  | dict p => rw [move, h p (List.mem_singleton.mpr rfl)]
  | pairs p => rw [move, h p (List.mem_singleton.mpr rfl)]
  | tuple os => rw [move, moveAll_eq_self os h]
  | method self name => rw [move, move_eq_self self h]
  | none | bool | int | float | text | bytes | range | builtin | foreign => rfl

theorem moveAll_eq_self (os : List Object) (h : ∀ p ∈ Object.placesOfAll os, m.place p = p) :
    m.moveAll os = os := by
  cases os with
  | nil => rfl
  | cons o os =>
    rw [Object.placesOfAll, List.forall_mem_append] at h
    rw [moveAll, move_eq_self o h.1, moveAll_eq_self os h.2]

end

/-- The motion that moves nothing. -/
def still : Motion := ⟨0, 0⟩

@[simp] theorem move_still : still.move = id := by
  funext o
  exact move_eq_self still o fun p _ => rfl

@[simp] theorem moveNamed_still : still.moveNamed = id := by
  funext p
  rw [moveNamed, move_still]
  rfl

end Motion

/-! ## Stores -/

namespace Store

theorem get_set (s : Store) (p q : Nat) (items : List Object) :
    (s.set p items).get q = if q = p ∧ p < s.cells.size then items else s.get q := by
  simp only [get, set, Array.getD_eq_getD_getElem?, Array.getElem?_setIfInBounds]
  by_cases hqp : p = q
  · subst hqp
    by_cases hlt : p < s.cells.size
    · simp [hlt]
    · simp [hlt]
  · simp [hqp, Ne.symm hqp]

theorem size_set (s : Store) (p : Nat) (items : List Object) :
    (s.set p items).cells.size = s.cells.size :=
  Array.size_setIfInBounds

theorem get_alloc (s : Store) (q : Nat) (items : List Object) :
    (s.alloc items).2.get q = if q = s.cells.size then items else s.get q := by
  simp only [get, alloc, Array.getD_eq_getD_getElem?, Array.getElem?_push]
  split
  · simp
  · simp

theorem size_alloc (s : Store) (items : List Object) :
    (s.alloc items).2.cells.size = s.cells.size + 1 :=
  Array.size_push _

theorem get_of_le {s : Store} {p : Nat} (h : s.cells.size ≤ p) : s.get p = [] := by
  rw [get, Array.getD_eq_getD_getElem?, Array.getElem?_eq_none h]
  rfl

end Store

/-- A store and the same store with all places moved. Between the base and the moved places there
may be anything. -/
structure Motion.Relates (m : Motion) (s s' : Store) : Prop where
  /-- The second store is longer by the gap. -/
  size : s'.cells.size = s.cells.size + m.gap
  /-- The base is not beyond the end. -/
  base : m.base ≤ s.cells.size
  /-- The members at a place are found where it is moved to. -/
  get : ∀ p, s'.get (m.place p) = (s.get p).map m.move

namespace Motion.Relates

variable {m : Motion} {s s' : Store}

theorem still (s : Store) : Motion.still.Relates s s where
  size := rfl
  base := Nat.zero_le _
  get p := by
    rw [move_still, List.map_id]
    rfl

theorem eq_of_still (h : Motion.still.Relates s s') : s' = s := by
  have hget (p : Nat) : s'.get p = s.get p := by
    have hp := h.get p
    rwa [move_still, List.map_id] at hp
  refine congrArg Store.mk (Array.ext h.size fun p hp hp' => ?_)
  have hcell := hget p
  rwa [Store.get, Store.get, Array.getD_eq_getD_getElem?, Array.getD_eq_getD_getElem?,
    Array.getElem?_eq_getElem hp, Array.getElem?_eq_getElem hp'] at hcell

theorem table (h : m.Relates s s') (p : Nat) :
    s'.table (m.place p) = (s.table p).map m.movePair := by
  rw [Store.table, h.get, m.filterMap_pair?]
  rfl

theorem set (h : m.Relates s s') (p : Nat) (items : List Object) :
    m.Relates (s.set p items) (s'.set (m.place p) (items.map m.move)) where
  size := by rw [Store.size_set, Store.size_set, h.size]
  base := by
    rw [Store.size_set]
    exact h.base
  get := by
    intro q
    simp only [Store.get_set, m.place_inj, h.size, m.place_lt_iff h.base, h.get]
    split
    · rfl
    · rfl

theorem setTable (h : m.Relates s s') (p : Nat) (pairs : List (Object × Object)) :
    m.Relates (s.setTable p pairs) (s'.setTable (m.place p) (pairs.map m.movePair)) := by
  have hset := h.set p (pairs.map Object.ofPair)
  rwa [m.map_ofPair] at hset

theorem alloc (h : m.Relates s s') (items : List Object) :
    (s'.alloc (items.map m.move)).1 = m.place (s.alloc items).1 ∧
      m.Relates (s.alloc items).2 (s'.alloc (items.map m.move)).2 := by
  have hend : m.place s.cells.size = s'.cells.size := by rw [m.place_of_le h.base, h.size]
  refine ⟨hend.symm, ?_, ?_, ?_⟩
  · rw [Store.size_alloc, Store.size_alloc, h.size]
    omega
  · rw [Store.size_alloc]
    have hbase := h.base
    omega
  · intro q
    simp only [Store.get_alloc, ← hend, m.place_inj, h.get]
    split
    · rfl
    · rfl

end Motion.Relates

/-! ## Objects as values -/

namespace Motion

variable (m : Motion) {expand expand' : Shape → Nat → Value}

mutual

theorem snapshotWith_move (h : ∀ shape p, expand' shape (m.place p) = expand shape p) (o : Object) :
    Store.snapshotWith expand' (m.move o) = Store.snapshotWith expand o := by
  cases o with
  | list p => exact h .list p
  | dict p => exact h .dict p
  | pairs p => exact h .pairs p
  | tuple os =>
    rw [move, Store.snapshotWith, Store.snapshotWith, snapshotAll_moveAll h os]
  | none | bool | int | float | text | bytes | range | stream | builtin | method | foreign => rfl

theorem snapshotAll_moveAll (h : ∀ shape p, expand' shape (m.place p) = expand shape p)
    (os : List Object) :
    Store.snapshotAll expand' (m.moveAll os) = Store.snapshotAll expand os := by
  cases os with
  | nil => rfl
  | cons o os =>
    rw [moveAll, Store.snapshotAll, Store.snapshotAll, snapshotWith_move h o,
      snapshotAll_moveAll h os]

end

end Motion

namespace Motion.Relates

variable {m : Motion} {s s' : Store}

/-- Places on a way without a circle are not more than there are in the store. -/
theorem length_path_le {n : Nat} {path : List Nat} (hnodup : path.Nodup)
    (hlt : ∀ q ∈ path, q < n) : path.length ≤ n := by
  have hsub : path ⊆ List.range n := fun q hq => List.mem_range.mpr (hlt q hq)
  have hle := (hnodup.subperm hsub).length_le
  rwa [List.length_range] at hle

theorem contains_map_place (path : List Nat) (p : Nat) :
    (path.map m.place).contains (m.place p) = path.contains p := by
  rw [Bool.eq_iff_iff, List.contains_iff_mem, List.contains_iff_mem, List.mem_map]
  constructor
  · rintro ⟨q, hq, hpq⟩
    rwa [← m.place_injective hpq]
  · intro hp
    exact ⟨p, hp, rfl⟩

/-- What is at a place has the same value at another place. The stores may have different sizes, so
the fuels differ; neither runs out, since no place comes twice on a way. -/
theorem snapshotCell (h : m.Relates s s') :
    ∀ (fuel fuel' : Nat) (path : List Nat) (shape : Shape) (p : Nat), path.Nodup →
      (∀ q ∈ path, q < s.cells.size) →
    s.cells.size < fuel + path.length → s.cells.size < fuel' + path.length →
    s'.snapshotCell fuel' (path.map m.place) shape (m.place p) =
      s.snapshotCell fuel path shape p := by
  intro fuel
  induction fuel with
  | zero =>
    intro fuel' path shape p hnodup hlt hfuel hfuel'
    have hle := length_path_le hnodup hlt
    omega
  | succ fuel ih =>
    intro fuel' path shape p hnodup hlt hfuel hfuel'
    have hle := length_path_le hnodup hlt
    obtain _ | fuel' := fuel'
    · omega
    · rw [Store.snapshotCell, Store.snapshotCell, contains_map_place, h.get]
      split
      · rfl
      · next hnot =>
        have hmem : p ∉ path := by rwa [List.contains_iff_mem] at hnot
        congr 1
        by_cases hp : p < s.cells.size
        · rw [← m.moveAll_eq]
          refine m.snapshotAll_moveAll (fun shape q => ?_) (s.get p)
          exact ih fuel' (p :: path) shape q (List.nodup_cons.mpr ⟨hmem, hnodup⟩)
            (List.forall_mem_cons.mpr ⟨hp, hlt⟩)
            (by rw [List.length_cons]; omega) (by rw [List.length_cons]; omega)
        · rw [Store.get_of_le (Nat.not_lt.mp hp)]
          rfl

theorem snapshot (h : m.Relates s s') (o : Object) : s'.snapshot (m.move o) = s.snapshot o := by
  refine m.snapshotWith_move (fun shape p => ?_) o
  have hsize := h.size
  exact h.snapshotCell _ _ [] shape p List.nodup_nil (nofun)
    (by rw [List.length_nil]; omega) (by rw [List.length_nil]; omega)

/-! ## Values as objects -/

mutual

theorem load (v : Value) {s s' : Store} (h : m.Relates s s') :
    (s'.load v).1 = m.move (s.load v).1 ∧ m.Relates (s.load v).2 (s'.load v).2 := by
  cases v with
  | list vs =>
    obtain ⟨hall, hrel⟩ := loadAll vs h
    obtain ⟨hplace, hrel⟩ := hrel.alloc (s.loadAll vs).1
    simp only [Store.load, hall, hplace]
    exact ⟨rfl, hrel⟩
  | stream vs =>
    obtain ⟨hall, hrel⟩ := loadAll vs h
    obtain ⟨hplace, hrel⟩ := hrel.alloc (s.loadAll vs).1
    simp only [Store.load, hall, hplace]
    exact ⟨rfl, hrel⟩
  | tuple vs =>
    obtain ⟨hall, hrel⟩ := loadAll vs h
    simp only [Store.load, hall, m.move_tuple]
    exact ⟨trivial, hrel⟩
  | dict ps =>
    obtain ⟨hall, hrel⟩ := loadPairs ps h
    obtain ⟨hplace, hrel⟩ := hrel.alloc (s.loadPairs ps).1
    simp only [Store.load, hall, hplace]
    exact ⟨rfl, hrel⟩
  | pairs ps =>
    obtain ⟨hall, hrel⟩ := loadPairs ps h
    obtain ⟨hplace, hrel⟩ := hrel.alloc (s.loadPairs ps).1
    simp only [Store.load, hall, hplace]
    exact ⟨rfl, hrel⟩
  | none | bool | int | float | text | bytes | range | _ => exact ⟨rfl, h⟩

theorem loadAll (vs : List Value) {s s' : Store} (h : m.Relates s s') :
    (s'.loadAll vs).1 = (s.loadAll vs).1.map m.move ∧
      m.Relates (s.loadAll vs).2 (s'.loadAll vs).2 := by
  cases vs with
  | nil => exact ⟨rfl, h⟩
  | cons v vs =>
    obtain ⟨hone, hrel⟩ := load v h
    obtain ⟨hall, hrel⟩ := loadAll vs hrel
    simp only [Store.loadAll, hone, hall, List.map_cons]
    exact ⟨trivial, hrel⟩

theorem loadPairs (ps : List (Value × Value)) {s s' : Store} (h : m.Relates s s') :
    (s'.loadPairs ps).1 = (s.loadPairs ps).1.map m.move ∧
      m.Relates (s.loadPairs ps).2 (s'.loadPairs ps).2 := by
  cases ps with
  | nil => exact ⟨rfl, h⟩
  | cons p ps =>
    obtain ⟨k, v⟩ := p
    obtain ⟨hkey, hrel⟩ := load k h
    obtain ⟨hvalue, hrel⟩ := load v hrel
    obtain ⟨hall, hrel⟩ := loadPairs ps hrel
    simp only [Store.loadPairs, hkey, hvalue, hall, List.map_cons, m.move_ofPair]
    exact ⟨rfl, hrel⟩

end

end Motion.Relates

/-! ## Actions -/

/-- Two actions that do the same from stores that are related, with places moved in the second: they
have the same fault, or results as `f` says, and leave related stores. -/
def Moves {α β : Type} (m : Motion) (f : α → β) (act : Eval α) (act' : Eval β) : Prop :=
  ∀ s s', m.Relates s s' →
    (act'.run.run s').1 = (act.run.run s).1.map f ∧
      m.Relates (act.run.run s).2 (act'.run.run s').2

section Actions

variable {α β γ δ : Type} {m : Motion} {f : α → β} {g : γ → δ}

theorem moves_pure (a : α) : Moves m f (pure a) (pure (f a)) :=
  fun _ _ h => ⟨rfl, h⟩

theorem moves_throw (e : Fault) : Moves m f (throw e) (throw e) :=
  fun _ _ h => ⟨rfl, h⟩

theorem moves_except {x : Except Fault α} {x' : Except Fault β} (h : x' = x.map f) :
    Moves m f (liftM x) (liftM x') := by
  subst h
  cases x with
  | error e => exact moves_throw e
  | ok a => exact moves_pure a

theorem Moves.bind {act : Eval α} {act' : Eval β} {k : α → Eval γ} {k' : β → Eval δ}
    (h : Moves m f act act') (hk : ∀ a, Moves m g (k a) (k' (f a))) :
    Moves m g (act >>= k) (act' >>= k') := by
  intro s s' hs
  obtain ⟨hresult, hstore⟩ := h s s' hs
  rw [Reader.run_bind, Reader.run_bind]
  rcases hrun : act.run.run s with ⟨e | a, t⟩
  · rw [hrun] at hresult hstore
    rcases hrun' : act'.run.run s' with ⟨x', t'⟩
    rw [hrun'] at hresult hstore
    subst hresult
    exact ⟨rfl, hstore⟩
  · rw [hrun] at hresult hstore
    rcases hrun' : act'.run.run s' with ⟨x', t'⟩
    rw [hrun'] at hresult hstore
    subst hresult
    exact hk a t t' hstore

theorem Moves.next {act act' : Eval α} {k : α → Eval γ} {k' : α → Eval δ}
    (h : Moves m id act act') (hk : ∀ a, Moves m g (k a) (k' a)) :
    Moves m g (act >>= k) (act' >>= k') :=
  h.bind hk

theorem moves_ite {c : Prop} [Decidable c] {x y : Eval α} {x' y' : Eval β}
    (hx : Moves m f x x') (hy : Moves m f y y') :
    Moves m f (if c then x else y) (if c then x' else y') := by
  split
  · exact hx
  · exact hy

theorem Moves.map {act : Eval α} {act' : Eval β} {j : α → γ} {j' : β → δ}
    (h : Moves m f act act') (hj : ∀ a, j' (f a) = g (j a)) :
    Moves m g (j <$> act) (j' <$> act') := by
  rw [map_eq_pure_bind, map_eq_pure_bind]
  refine h.bind fun a => ?_
  rw [hj]
  exact moves_pure (j a)

theorem moves_snapshot (o : Object) :
    Moves m id (Eval.snapshot o) (Eval.snapshot (m.move o)) :=
  fun _ _ h => ⟨congrArg Except.ok (h.snapshot o), h⟩

theorem moves_cell (p : Nat) :
    Moves m (List.map m.move) (Eval.cell p) (Eval.cell (m.place p)) :=
  fun _ _ h => ⟨congrArg Except.ok (h.get p), h⟩

theorem moves_setCell (p : Nat) (items : List Object) :
    Moves m id (Eval.setCell p items) (Eval.setCell (m.place p) (items.map m.move)) :=
  fun _ _ h => ⟨rfl, h.set p items⟩

theorem moves_table (p : Nat) :
    Moves m (List.map m.movePair) (Eval.table p) (Eval.table (m.place p)) :=
  fun _ _ h => ⟨congrArg Except.ok (h.table p), h⟩

theorem moves_setTable (p : Nat) (pairs : List (Object × Object)) :
    Moves m id (Eval.setTable p pairs) (Eval.setTable (m.place p) (pairs.map m.movePair)) :=
  fun _ _ h => ⟨rfl, h.setTable p pairs⟩

theorem moves_alloc (items : List Object) :
    Moves m m.place (Eval.alloc items) (Eval.alloc (items.map m.move)) := by
  intro s s' h
  obtain ⟨hplace, hstore⟩ := h.alloc items
  exact ⟨congrArg Except.ok hplace, hstore⟩

theorem moves_newList (items : List Object) :
    Moves m m.move (Eval.newList items) (Eval.newList (items.map m.move)) :=
  (moves_alloc items).bind fun p => moves_pure (Object.list p)

theorem moves_newStream (kind : String) (items : List Object) :
    Moves m m.move (Eval.newStream kind items) (Eval.newStream kind (items.map m.move)) :=
  (moves_alloc items).bind fun p => moves_pure (Object.stream kind p)

end Actions

end Jade.Script
