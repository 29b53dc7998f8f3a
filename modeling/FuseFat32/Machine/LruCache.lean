import Mathlib.Data.List.Basic
import Mathlib.Data.List.Nodup
import Mathlib.Data.Set.Basic

/-!
# The LRU map

`LRUCacheMap` keeps its pairs in a list with the one used last in front, and a hash map from the keys to the positions of the list. The model is the list, and a key is looked up by going through it. What an operation drops from the list is part of its result, because dropping the last reference to an object destroys it.
-/

namespace FuseFat32

/-! ### Lists with distinct keys -/

section DistinctKeys

variable {γ δ : Type} [DecidableEq δ] {f : γ → δ} {l : List γ} {x : γ}

theorem find?_of_distinct (hl : (l.map f).Nodup) (hx : x ∈ l) : l.find? (f · = f x) = some x := by
  cases hfind : l.find? (f · = f x) with
  | none =>
    have hno := List.find?_eq_none.mp hfind x hx
    simp at hno
  | some y =>
    have hy := List.mem_of_find?_eq_some hfind
    have heq : f y = f x := by simpa using List.find?_some hfind
    rw [List.inj_on_of_nodup_map hl hy hx heq]

/-- In a list with distinct keys, taking the key of the last element out takes that element and no other. -/
theorem filter_last_of_distinct (hl : ((l ++ [x]).map f).Nodup) : (l ++ [x]).filter (f · ≠ f x) = l := by
  have hne : ∀ y ∈ l, f y ≠ f x := by
    intro y hy heq
    rw [List.map_append, List.map_singleton, List.nodup_append] at hl
    exact hl.2.2 (f y) (List.mem_map_of_mem hy) (f x) (List.mem_singleton_self _) heq
  rw [List.filter_append, List.filter_eq_self.mpr fun y hy => by simpa using hne y hy]
  simp

theorem perm_of_distinct (hl : (l.map f).Nodup) (hx : x ∈ l) : (x :: l.filter (f · ≠ f x)).Perm l := by
  obtain ⟨as, bs, rfl⟩ := List.append_of_mem hx
  have hne : ∀ y ∈ as ++ bs, f y ≠ f x := by
    have hnodup := (List.perm_middle.map f).nodup_iff.mp hl
    rw [List.map_cons, List.nodup_cons] at hnodup
    exact fun y hy heq => hnodup.1 (heq ▸ List.mem_map_of_mem hy)
  have has : as.filter (f · ≠ f x) = as :=
    List.filter_eq_self.mpr fun y hy => by simpa using hne y (List.mem_append_left _ hy)
  have hbs : bs.filter (f · ≠ f x) = bs :=
    List.filter_eq_self.mpr fun y hy => by simpa using hne y (List.mem_append_right _ hy)
  have hsplit : (as ++ x :: bs).filter (f · ≠ f x) = as ++ bs := by
    rw [List.filter_append, has, List.filter_cons_of_neg (by simp), hbs]
  rw [hsplit]
  exact List.perm_middle.symm

end DistinctKeys

/-! ### The map -/

structure LRUCacheMap (κ α : Type) where
  maxSize : Nat
  /-- `key_value_list_`. -/
  list : List (κ × α)

namespace LRUCacheMap

variable {κ α : Type} [DecidableEq κ] {m : LRUCacheMap κ α} {key : κ} {value : α}

/-- The values that are held. -/
def values (m : LRUCacheMap κ α) : List α := m.list.map Prod.snd

/-- `put`, with the values it has dropped. -/
def put (m : LRUCacheMap κ α) (key : κ) (value : α) : LRUCacheMap κ α × List α :=
  let replaced := (m.list.filter (·.1 = key)).map Prod.snd
  let list := (key, value) :: m.list.filter (·.1 ≠ key)
  if m.maxSize < list.length then
    (⟨m.maxSize, list.dropLast⟩, replaced ++ (list.getLast?.map Prod.snd).toList)
  else (⟨m.maxSize, list⟩, replaced)

/-- `get`: a pair that is found moves to the front. -/
def get (m : LRUCacheMap κ α) (key : κ) : Option α × LRUCacheMap κ α :=
  match m.list.find? (·.1 = key) with
  | some pair => (some pair.2, { m with list := pair :: m.list.filter (·.1 ≠ key) })
  | none => (none, m)

/-- `remove`, with the value it has dropped. -/
def remove (m : LRUCacheMap κ α) (key : κ) : Option α × LRUCacheMap κ α :=
  match m.list.find? (·.1 = key) with
  | some pair => (some pair.2, { m with list := m.list.filter (·.1 ≠ key) })
  | none => (none, m)

/-- `clear`, with the values it has dropped, from the front. -/
def clear (m : LRUCacheMap κ α) : LRUCacheMap κ α × List α := (⟨m.maxSize, []⟩, m.values)

/-- No two pairs have the same key. -/
def KeysNodup (m : LRUCacheMap κ α) : Prop := (m.list.map Prod.fst).Nodup

theorem get_eq_none : (m.get key).1 = none ↔ ∀ pair ∈ m.list, pair.1 ≠ key := by
  rw [get]
  cases hfind : m.list.find? (·.1 = key) with
  | none => simpa using hfind
  | some pair =>
    have hmem := List.mem_of_find?_eq_some hfind
    have hkey := List.find?_some hfind
    simp only [decide_eq_true_eq] at hkey
    simp only [reduceCtorEq, false_iff, not_forall]
    exact ⟨pair, hmem, fun hne => hne hkey⟩

theorem get_of_none (h : (m.get key).1 = none) : (m.get key).2 = m := by
  rw [get] at h ⊢
  split at h
  · exact absurd h (by simp)
  · rfl

/-- A pair that is found was in the list, and the list has the same pairs as before. -/
theorem get_of_some (hk : m.KeysNodup) (h : (m.get key).1 = some value) :
    (key, value) ∈ m.list ∧ (m.get key).2.list.Perm m.list ∧ (m.get key).2.maxSize = m.maxSize := by
  rw [get] at h ⊢
  split at h
  · next pair hfind =>
    obtain rfl := Option.some.inj h
    have hmem := List.mem_of_find?_eq_some hfind
    have hkey : pair.1 = key := by simpa using List.find?_some hfind
    subst hkey
    exact ⟨hmem, perm_of_distinct hk hmem, rfl⟩
  · exact absurd h (by simp)

/-- A new key goes to the front, and at most the last pair is dropped. -/
theorem put_of_absent (h : ∀ pair ∈ m.list, pair.1 ≠ key) (value : α) :
    ∃ dropped, (m.put key value).2 = dropped.map Prod.snd ∧
      (m.put key value).1.list ++ dropped = (key, value) :: m.list ∧
      (m.put key value).1.maxSize = m.maxSize := by
  have hfilter : m.list.filter (fun p => decide (p.1 ≠ key)) = m.list :=
    List.filter_eq_self.mpr fun p hp => by simpa using h p hp
  have hnone : m.list.filter (fun p => decide (p.1 = key)) = [] :=
    List.filter_eq_nil_iff.mpr fun p hp => by simpa using h p hp
  simp only [put, hfilter, hnone, List.map_nil, List.nil_append]
  split
  · have hne : (key, value) :: m.list ≠ [] := List.cons_ne_nil _ _
    refine ⟨[((key, value) :: m.list).getLast hne], ?_, List.dropLast_append_getLast hne, rfl⟩
    rw [List.getLast?_eq_getLast_of_ne_nil hne]
    rfl
  · exact ⟨[], rfl, List.append_nil _, rfl⟩

theorem mem_put_self (hpos : 0 < m.maxSize) (key : κ) (value : α) : (key, value) ∈ (m.put key value).1.list := by
  simp only [put]
  split
  · next hfull =>
    have hne : m.list.filter (·.1 ≠ key) ≠ [] := by
      intro hnil
      rw [hnil, List.length_singleton] at hfull
      omega
    rw [List.dropLast_cons_of_ne_nil hne]
    exact List.mem_cons_self
  · exact List.mem_cons_self

theorem mem_put {pair : κ × α} (h : pair ∈ (m.put key value).1.list) : pair = (key, value) ∨ pair ∈ m.list := by
  have hall : pair ∈ (key, value) :: m.list.filter (·.1 ≠ key) := by
    simp only [put] at h
    split at h
    · exact List.dropLast_subset _ h
    · exact h
  exact (List.mem_cons.mp hall).imp_right List.mem_of_mem_filter

theorem mem_remove {pair : κ × α} (h : pair ∈ (m.remove key).2.list) : pair ∈ m.list ∧ pair.1 ≠ key := by
  rw [remove] at h
  split at h
  · exact ⟨List.mem_of_mem_filter h, by simpa using List.of_mem_filter h⟩
  · next hnone => exact ⟨h, by simpa using List.find?_eq_none.mp hnone pair h⟩

theorem remove_eq : (m.remove key).2 = { m with list := m.list.filter (·.1 ≠ key) } := by
  rw [remove]
  split
  · rfl
  · next hnone =>
    have hall : m.list.filter (·.1 ≠ key) = m.list :=
      List.filter_eq_self.mpr fun pair hpair => by simpa using List.find?_eq_none.mp hnone pair hpair
    rw [hall]

theorem put_keysNodup (hk : m.KeysNodup) : (m.put key value).1.KeysNodup := by
  have hall : (((key, value) :: m.list.filter (·.1 ≠ key)).map Prod.fst).Nodup := by
    rw [List.map_cons, List.nodup_cons]
    refine ⟨fun hmem => ?_, hk.sublist ((List.filter_sublist).map _)⟩
    obtain ⟨p, hp, heq⟩ := List.mem_map.mp hmem
    simpa [heq] using List.of_mem_filter hp
  simp only [put, KeysNodup]
  split
  · exact hall.sublist ((List.dropLast_sublist _).map _)
  · exact hall

theorem length_put_le (hlen : m.list.length ≤ m.maxSize) (key : κ) (value : α) :
    (m.put key value).1.list.length ≤ (m.put key value).1.maxSize := by
  have hfilter := List.length_filter_le (fun p => decide (p.1 ≠ key)) m.list
  simp only [put]
  split
  · simp only [List.length_dropLast, List.length_cons]
    omega
  · next hfits => exact Nat.not_lt.mp hfits

end LRUCacheMap

end FuseFat32
