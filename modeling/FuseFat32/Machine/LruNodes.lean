import FuseFat32.Machine.LruCache
import Mathlib.Data.List.Induction
import Mathlib.Data.List.Nodup

/-!
# The nodes of the LRU map

`LRUCacheMap` as it is stored: a linked list of nodes, and a hash map from the keys to the positions of their nodes. It is compared with the list alone over every sequence of calls. `put` and `remove` erase the hash map's entry of a key first and take the position out of it afterwards, when the iterator no longer points to anything; `freed` is what such a read gives, and `none` when it gives nothing that has a meaning.
-/

namespace FuseFat32

/-- A node of `key_value_list_`. Its position is what an iterator holds. -/
structure LRUNode (κ α : Type) where
  pos : Nat
  key : κ
  value : α

def LRUNode.pair {κ α : Type} (node : LRUNode κ α) : κ × α := (node.key, node.value)

structure LRUNodes (κ α : Type) where
  maxSize : Nat
  /-- `caches_map_`. -/
  cachesMap : List (κ × Nat)
  /-- `key_value_list_`. -/
  keyValueList : List (LRUNode κ α)
  /-- The next position that has not been given to a node. -/
  next : Nat

/-- A call of the map. -/
inductive LRUCall (κ α : Type) where
  | put (key : κ) (value : α)
  | get (key : κ)
  | remove (key : κ)
  | clear

namespace LRUNodes

variable {κ α : Type} [DecidableEq κ]

def empty (maxSize : Nat) : LRUNodes κ α := ⟨maxSize, [], [], 0⟩

/-- `caches_map_.find`. -/
def find (m : LRUNodes κ α) (key : κ) : Option (κ × Nat) := m.cachesMap.find? (·.1 = key)

/-- `it->second` for an entry of the hash map, which may have been erased. -/
def second (freed : κ × Nat → Option Nat) (m : LRUNodes κ α) (it : κ × Nat) : Option Nat :=
  if it ∈ m.cachesMap then some it.2 else freed it

/-- `caches_map_.erase`. -/
def eraseKey (m : LRUNodes κ α) (key : κ) : LRUNodes κ α :=
  { m with cachesMap := m.cachesMap.filter (·.1 ≠ key) }

/-- The node at a position of the list. -/
def node (m : LRUNodes κ α) (pos : Nat) : Option (LRUNode κ α) := m.keyValueList.find? (·.pos = pos)

/-- `key_value_list_.erase`. -/
def eraseAt (m : LRUNodes κ α) (pos : Nat) : Option (LRUNodes κ α) := do
  let _ ← m.node pos
  return { m with keyValueList := m.keyValueList.filter (·.pos ≠ pos) }

/-- `key_value_list_.push_front`, and the entry of the key set to the new node. -/
def pushFront (m : LRUNodes κ α) (key : κ) (value : α) : LRUNodes κ α where
  maxSize := m.maxSize
  cachesMap := (key, m.next) :: m.cachesMap.filter (·.1 ≠ key)
  keyValueList := ⟨m.next, key, value⟩ :: m.keyValueList
  next := m.next + 1

/-- What `put` does to a key that is held. -/
def dropHeld (freed : κ × Nat → Option Nat) (m : LRUNodes κ α) (key : κ) : Option (LRUNodes κ α) :=
  match m.find key with
  | some it => do
    let m := m.eraseKey key
    let pos ← m.second freed it
    m.eraseAt pos
  | none => some m

/-- What `put` does to a map that has grown too large. -/
def evict (m : LRUNodes κ α) : Option (LRUNodes κ α) :=
  if m.maxSize < m.cachesMap.length then do
    let removed_item ← m.keyValueList.getLast?
    (m.eraseKey removed_item.key).eraseAt removed_item.pos
  else some m

def put (freed : κ × Nat → Option Nat) (m : LRUNodes κ α) (key : κ) (value : α) :
    Option (LRUNodes κ α) := do
  let m ← m.dropHeld freed key
  (m.pushFront key value).evict

def get (freed : κ × Nat → Option Nat) (m : LRUNodes κ α) (key : κ) :
    Option (Option α × LRUNodes κ α) :=
  match m.find key with
  | some it => do
    let pos ← m.second freed it
    let node ← m.node pos
    -- `splice` to the front
    return (some node.value, { m with keyValueList := node :: m.keyValueList.filter (·.pos ≠ pos) })
  | none => some (none, m)

def remove (freed : κ × Nat → Option Nat) (m : LRUNodes κ α) (key : κ) :
    Option (Option α × LRUNodes κ α) :=
  match m.find key with
  | some it => do
    let node ← m.node (← m.second freed it)
    let m := m.eraseKey key
    let pos ← m.second freed it
    let m ← m.eraseAt pos
    return (some node.value, m)
  | none => some (none, m)

def clear (m : LRUNodes κ α) : LRUNodes κ α := { m with cachesMap := [], keyValueList := [] }

def call (freed : κ × Nat → Option Nat) (m : LRUNodes κ α) :
    LRUCall κ α → Option (Option α × LRUNodes κ α)
  | .put key value => do return (none, ← m.put freed key value)
  | .get key => m.get freed key
  | .remove key => m.remove freed key
  | .clear => some (none, m.clear)

/-- The answers to a sequence of calls, and the map after it. -/
def calls (freed : κ × Nat → Option Nat) (m : LRUNodes κ α) :
    List (LRUCall κ α) → Option (List (Option α) × LRUNodes κ α)
  | [] => some ([], m)
  | c :: cs => do
    let (answer, m) ← m.call freed c
    let (answers, m) ← m.calls freed cs
    return (answer :: answers, m)

/-- The pairs in the order of iteration. -/
def pairs (m : LRUNodes κ α) : List (κ × α) := m.keyValueList.map LRUNode.pair

end LRUNodes

/-! ### The reference -/

namespace LRUCacheMap

variable {κ α : Type} [DecidableEq κ]

def empty (maxSize : Nat) : LRUCacheMap κ α := ⟨maxSize, []⟩

def keys (m : LRUCacheMap κ α) : List κ := m.list.map Prod.fst

def call (m : LRUCacheMap κ α) : LRUCall κ α → Option α × LRUCacheMap κ α
  | .put key value => (none, (m.put key value).1)
  | .get key => m.get key
  | .remove key => m.remove key
  | .clear => (none, m.clear.1)

def calls (m : LRUCacheMap κ α) : List (LRUCall κ α) → List (Option α) × LRUCacheMap κ α
  | [] => ([], m)
  | c :: cs => ((m.call c).1 :: ((m.call c).2.calls cs).1, ((m.call c).2.calls cs).2)

theorem put_fst (m : LRUCacheMap κ α) (key : κ) (value : α) :
    (m.put key value).1 = { m with
      list := if m.maxSize < ((key, value) :: m.list.filter (·.1 ≠ key)).length
        then ((key, value) :: m.list.filter (·.1 ≠ key)).dropLast
        else (key, value) :: m.list.filter (·.1 ≠ key) } := by
  simp only [put]
  split_ifs <;> rfl

end LRUCacheMap

/-! ### Recency -/

section Recency

variable {κ α : Type} [DecidableEq κ]

/-- The keys of the calls that have put or read a value, the last call first. -/
def uses : List (LRUCall κ α × Option α) → List κ
  | [] => []
  | (.put key _, _) :: past => key :: uses past
  | (.get key, some _) :: past => key :: uses past
  | _ :: past => uses past

/-- Every key once, at its first place. -/
def byRecency : List κ → List κ
  | [] => []
  | key :: keys => key :: (byRecency keys).filter (· ≠ key)

/-- The last value that has been put for a key. -/
def lastPut (key : κ) : List (LRUCall κ α × Option α) → Option α
  | [] => none
  | (.put key' value, _) :: past => if key' = key then some value else lastPut key past
  | _ :: past => lastPut key past

namespace LRUCacheMap

variable {m : LRUCacheMap κ α} {past : List (LRUCall κ α × Option α)} {key : κ} {value : α}

/-- What the list is after the calls `past`: the held keys from the one used last on, with the values put last. -/
structure Recency (past : List (LRUCall κ α × Option α)) (m : LRUCacheMap κ α) : Prop where
  distinct : m.KeysNodup
  size_le : m.list.length ≤ m.maxSize
  order : m.keys.Sublist (byRecency (uses past))
  last : ∀ pair ∈ m.list, lastPut pair.1 past = some pair.2

theorem find?_key {pair : κ × α} (h : m.list.find? (·.1 = key) = some pair) :
    pair ∈ m.list ∧ pair.1 = key :=
  ⟨List.mem_of_find?_eq_some h, by simpa using List.find?_some h⟩

theorem keys_filter (l : List (κ × α)) (key : κ) :
    (l.filter (·.1 ≠ key)).map Prod.fst = (l.map Prod.fst).filter (· ≠ key) := by
  rw [List.filter_map]
  rfl

private theorem keysNodup_cons_filter (h : m.KeysNodup) (pair : κ × α) :
    ((pair :: m.list.filter (·.1 ≠ pair.1)).map Prod.fst).Nodup := by
  rw [List.map_cons, keys_filter, List.nodup_cons]
  exact ⟨by simp, h.filter _⟩

theorem Recency.use (h : m.Recency past) (pair : κ × α) {c : LRUCall κ α} {answer : Option α} {l : List (κ × α)}
    (huses : uses ((c, answer) :: past) = pair.1 :: uses past)
    (hlast : lastPut pair.1 ((c, answer) :: past) = some pair.2)
    (hothers : ∀ key', key' ≠ pair.1 → lastPut key' ((c, answer) :: past) = lastPut key' past)
    (hl : l.Sublist (pair :: m.list.filter (·.1 ≠ pair.1))) (hlen : l.length ≤ m.maxSize) :
    Recency ((c, answer) :: past) { m with list := l } := by
  constructor
  case distinct => exact (keysNodup_cons_filter h.distinct pair).sublist (hl.map _)
  case size_le => exact hlen
  case order =>
    rw [huses, byRecency]
    apply (hl.map Prod.fst).trans
    rw [List.map_cons, keys_filter]
    exact (h.order.filter _).cons_cons _
  case last =>
    intro p hp
    rcases List.mem_cons.mp (hl.subset hp) with rfl | hp
    · exact hlast
    · obtain ⟨hmem, hne⟩ := List.mem_filter.mp hp
      rw [hothers p.1 (by simpa using hne)]
      exact h.last p hmem

theorem Recency.drop (h : m.Recency past) {c : LRUCall κ α} {answer : Option α} {l : List (κ × α)}
    (huses : uses ((c, answer) :: past) = uses past)
    (hothers : ∀ key', lastPut key' ((c, answer) :: past) = lastPut key' past) (hl : l.Sublist m.list) :
    Recency ((c, answer) :: past) { m with list := l } := by
  constructor
  case distinct => exact h.distinct.sublist (hl.map _)
  case size_le => exact hl.length_le.trans h.size_le
  case order => exact huses ▸ (hl.map _).trans h.order
  case last => exact fun p hp => (hothers p.1).trans (h.last p (hl.subset hp))

/-- Every call keeps the order of recency. -/
theorem Recency.call (h : m.Recency past) (c : LRUCall κ α) :
    Recency ((c, (m.call c).1) :: past) (m.call c).2 := by
  cases c with
  | put key value =>
    simp only [LRUCacheMap.call, put_fst]
    refine h.use (key, value) rfl (if_pos rfl) (fun key' hne => if_neg (Ne.symm hne)) ?_ ?_
    · split_ifs
      · exact List.dropLast_sublist _
      · exact List.Sublist.refl _
    · have hle := length_put_le h.size_le key value
      simpa only [put_fst] using hle
  | get key =>
    simp only [LRUCacheMap.call, LRUCacheMap.get]
    cases hfind : m.list.find? (·.1 = key) with
    | none => exact h.drop rfl (fun _ => rfl) (List.Sublist.refl _)
    | some pair =>
      obtain ⟨hmem, rfl⟩ := find?_key hfind
      have hlt : (m.list.filter (·.1 ≠ pair.1)).length < m.list.length :=
        List.length_filter_lt_length_iff_exists.mpr ⟨pair, hmem, by simp⟩
      have hle := h.size_le
      exact h.use pair rfl (h.last pair hmem) (fun _ _ => rfl) (List.Sublist.refl _)
        (by rw [List.length_cons]; omega)
  | remove key =>
    simp only [LRUCacheMap.call, LRUCacheMap.remove]
    cases hfind : m.list.find? (·.1 = key) with
    | none => exact h.drop rfl (fun _ => rfl) (List.Sublist.refl _)
    | some pair => exact h.drop rfl (fun _ => rfl) List.filter_sublist
  | clear => exact h.drop rfl (fun _ => rfl) (List.nil_sublist _)

theorem Recency.calls (cs : List (LRUCall κ α)) : ∀ {m : LRUCacheMap κ α}
    {past : List (LRUCall κ α × Option α)}, m.Recency past →
    Recency ((cs.zip (m.calls cs).1).reverse ++ past) (m.calls cs).2 := by
  induction cs with
  | nil => exact fun h => h
  | cons c cs ih =>
    intro m past h
    have hrest := ih (h.call c)
    simpa only [LRUCacheMap.calls, List.zip_cons_cons, List.reverse_cons, List.append_assoc,
      List.singleton_append] using hrest

/-- What the next call returns and leaves: reads give the value put last, and only a new key in a full map drops a pair, the last one. -/
structure Answers (past : List (LRUCall κ α × Option α)) (m : LRUCacheMap κ α) : Prop where
  get : ∀ key, (m.get key).1 = if key ∈ m.keys then lastPut key past else none
  remove : ∀ key, (m.remove key).1 = if key ∈ m.keys then lastPut key past else none
  put_room : ∀ key value, key ∈ m.keys ∨ m.list.length < m.maxSize →
    (m.put key value).1.list = (key, value) :: m.list.filter (·.1 ≠ key)
  put_full : ∀ key value, key ∉ m.keys → m.list.length = m.maxSize →
    (m.put key value).1.list = (key, value) :: m.list.dropLast

theorem find?_eq_none_iff : m.list.find? (·.1 = key) = none ↔ key ∉ m.keys := by
  rw [List.find?_eq_none, LRUCacheMap.keys, List.mem_map]
  simp only [decide_eq_true_eq, not_exists, not_and]

theorem filter_of_not_mem (hno : key ∉ m.keys) : m.list.filter (·.1 ≠ key) = m.list := by
  rw [List.filter_eq_self]
  intro pair hpair
  have hne : pair.1 ≠ key := fun heq => hno (heq ▸ List.mem_map_of_mem hpair)
  simpa using hne

private theorem length_filter_lt (hkey : key ∈ m.keys) : (m.list.filter (·.1 ≠ key)).length < m.list.length := by
  obtain ⟨pair, hpair, rfl⟩ := List.mem_map.mp hkey
  exact List.length_filter_lt_length_iff_exists.mpr ⟨pair, hpair, by simp⟩

theorem Recency.answers (h : m.Recency past) (hmax : 1 ≤ m.maxSize) : m.Answers past := by
  have hfound : ∀ key, (m.list.find? (·.1 = key)).map Prod.snd
      = if key ∈ m.keys then lastPut key past else none := by
    intro key
    cases hfind : m.list.find? (·.1 = key) with
    | none => rw [if_neg (find?_eq_none_iff.mp hfind), Option.map_none]
    | some pair =>
      obtain ⟨hmem, rfl⟩ := find?_key hfind
      have hkey : pair.1 ∈ m.keys := List.mem_map_of_mem hmem
      rw [if_pos hkey, h.last pair hmem, Option.map_some]
  constructor
  case get =>
    intro key
    rw [← hfound key, LRUCacheMap.get]
    cases m.list.find? (·.1 = key) <;> rfl
  case remove =>
    intro key
    rw [← hfound key, LRUCacheMap.remove]
    cases m.list.find? (·.1 = key) <;> rfl
  case put_room =>
    intro key value hroom
    have hle := List.length_filter_le (fun pair => decide (pair.1 ≠ key)) m.list
    have hfits : ¬ m.maxSize < ((key, value) :: m.list.filter (·.1 ≠ key)).length := by
      have hsize := h.size_le
      rw [List.length_cons]
      rcases hroom with hkey | hroom
      · have hlt := length_filter_lt hkey
        omega
      · omega
    rw [put_fst, if_neg hfits]
  case put_full =>
    intro key value hno hfull
    have hover : m.maxSize < ((key, value) :: m.list).length := by
      rw [List.length_cons]
      omega
    have hne : m.list ≠ [] := List.ne_nil_of_length_pos (by omega)
    rw [put_fst, filter_of_not_mem hno, if_pos hover]
    exact List.dropLast_cons_of_ne_nil hne

end LRUCacheMap

end Recency

/-! ### Hash map and list together -/

namespace LRUNodes

variable {κ α : Type} {freed : κ × Nat → Option Nat} {m m' : LRUNodes κ α} {ref : LRUCacheMap κ α}
  {key : κ} {value : α} {node : LRUNode κ α}

/-- The hash map and the list hold the same pairs, in the order of the reference. -/
structure Implements (m : LRUNodes κ α) (ref : LRUCacheMap κ α) : Prop where
  maxSize : m.maxSize = ref.maxSize
  pairs : m.pairs = ref.list
  map : m.cachesMap.Perm (m.keyValueList.map fun node => (node.key, node.pos))
  keys : (m.keyValueList.map LRUNode.key).Nodup
  positions : (m.keyValueList.map LRUNode.pos).Nodup
  fresh : ∀ node ∈ m.keyValueList, node.pos < m.next

theorem implements_empty (maxSize : Nat) :
    Implements (empty maxSize : LRUNodes κ α) (LRUCacheMap.empty maxSize) :=
  ⟨rfl, rfl, List.Perm.refl _, List.nodup_nil, List.nodup_nil, fun _ hmem => absurd hmem List.not_mem_nil⟩

private theorem implements_clear (h : m.Implements ref) : m.clear.Implements ref.clear.1 := by
  constructor
  case maxSize => exact h.maxSize
  case pairs => rfl
  case map => exact List.Perm.refl _
  case keys => exact List.nodup_nil
  case positions => exact List.nodup_nil
  case fresh => exact fun _ hmem => absurd hmem List.not_mem_nil

theorem map_fst_pair (l : List (LRUNode κ α)) :
    (l.map LRUNode.pair).map Prod.fst = l.map LRUNode.key := by
  rw [List.map_map]
  rfl

theorem Implements.keysNodup (h : m.Implements ref) : ref.KeysNodup := by
  rw [LRUCacheMap.KeysNodup, ← h.pairs, LRUNodes.pairs, map_fst_pair]
  exact h.keys

theorem Implements.length_map (h : m.Implements ref) : m.cachesMap.length = ref.list.length := by
  rw [h.map.length_eq, ← h.pairs, LRUNodes.pairs, List.length_map, List.length_map]

theorem Implements.mem_keys_iff (h : m.Implements ref) :
    key ∈ ref.keys ↔ ∃ node ∈ m.keyValueList, node.key = key := by
  rw [LRUCacheMap.keys, ← h.pairs, LRUNodes.pairs, map_fst_pair, List.mem_map]

variable [DecidableEq κ]

/-- Taking a node out by its position or by its key is the same. -/
theorem Implements.filter_pos (h : m.Implements ref) (hn : node ∈ m.keyValueList) :
    m.keyValueList.filter (·.pos ≠ node.pos) = m.keyValueList.filter (·.key ≠ node.key) := by
  apply List.filter_congr
  intro node' hn'
  have hiff : node'.pos = node.pos ↔ node'.key = node.key := by
    constructor
    · intro hpos
      rw [List.inj_on_of_nodup_map h.positions hn' hn hpos]
    · intro hkey
      rw [List.inj_on_of_nodup_map h.keys hn' hn hkey]
  simp [hiff]

theorem pairs_filter (l : List (LRUNode κ α)) (key : κ) :
    (l.filter (·.key ≠ key)).map LRUNode.pair = (l.map LRUNode.pair).filter (·.1 ≠ key) := by
  rw [List.filter_map]
  rfl

theorem Implements.find_some (h : m.Implements ref) (hn : node ∈ m.keyValueList) :
    m.find node.key = some (node.key, node.pos) ∧ m.node node.pos = some node ∧
      ref.list.find? (·.1 = node.key) = some node.pair := by
  have hmem : (node.key, node.pos) ∈ m.cachesMap := h.map.symm.subset (List.mem_map_of_mem hn)
  have hmapKeys : (m.cachesMap.map Prod.fst).Nodup := by
    rw [(h.map.map Prod.fst).nodup_iff, List.map_map]
    exact h.keys
  have hpair : node.pair ∈ ref.list := h.pairs ▸ List.mem_map_of_mem hn
  exact ⟨find?_of_distinct hmapKeys hmem, find?_of_distinct h.positions hn,
    find?_of_distinct h.keysNodup hpair⟩

theorem Implements.find_none (h : m.Implements ref) (hno : key ∉ ref.keys) :
    m.find key = none ∧ ref.list.find? (·.1 = key) = none := by
  refine ⟨?_, LRUCacheMap.find?_eq_none_iff.mpr hno⟩
  rw [find, List.find?_eq_none]
  intro it hit heq
  obtain ⟨node, hn, rfl⟩ := List.mem_map.mp (h.map.subset hit)
  exact hno (h.mem_keys_iff.mpr ⟨node, hn, of_decide_eq_true heq⟩)

theorem Implements.erase (h : m.Implements ref) (hn : node ∈ m.keyValueList) :
    ∃ m', (m.eraseKey node.key).eraseAt node.pos = some m' ∧
      m'.Implements { ref with list := ref.list.filter (·.1 ≠ node.key) } := by
  have hnode : (m.eraseKey node.key).node node.pos = some node := (h.find_some hn).2.1
  refine ⟨_, by rw [eraseAt, hnode]; rfl, ?_⟩
  have hfilter : (m.eraseKey node.key).keyValueList.filter (·.pos ≠ node.pos)
      = m.keyValueList.filter (·.key ≠ node.key) := h.filter_pos hn
  have hsub := List.filter_sublist (l := m.keyValueList) (p := fun n => decide (n.key ≠ node.key))
  constructor
  case maxSize => exact h.maxSize
  case pairs => simp only [LRUNodes.pairs, hfilter, pairs_filter]; rw [← h.pairs]; rfl
  case map =>
    simp only [hfilter]
    have hperm := h.map.filter (fun it => decide (it.1 ≠ node.key))
    rw [List.filter_map] at hperm
    exact hperm
  case keys => simp only [hfilter]; exact h.keys.sublist (hsub.map _)
  case positions => simp only [hfilter]; exact h.positions.sublist (hsub.map _)
  case fresh =>
    simp only [hfilter]
    exact fun n hmem => h.fresh n (hsub.subset hmem)

theorem Implements.pushFront (h : m.Implements ref) (hno : key ∉ ref.keys) (value : α) :
    (m.pushFront key value).Implements { ref with list := (key, value) :: ref.list } := by
  have hkey : ∀ node ∈ m.keyValueList, node.key ≠ key :=
    fun node hn heq => hno (h.mem_keys_iff.mpr ⟨node, hn, heq⟩)
  have hmap : m.cachesMap.filter (·.1 ≠ key) = m.cachesMap := by
    rw [List.filter_eq_self]
    intro it hit
    obtain ⟨node, hn, rfl⟩ := List.mem_map.mp (h.map.subset hit)
    simpa using hkey node hn
  constructor
  case maxSize => exact h.maxSize
  case pairs => simp only [LRUNodes.pairs, LRUNodes.pushFront, List.map_cons]; rw [← h.pairs]; rfl
  case map =>
    simp only [LRUNodes.pushFront, hmap, List.map_cons]
    exact h.map.cons _
  case keys =>
    simp only [LRUNodes.pushFront, List.map_cons, List.nodup_cons]
    refine ⟨fun hmem => ?_, h.keys⟩
    obtain ⟨node, hn, heq⟩ := List.mem_map.mp hmem
    exact hkey node hn heq
  case positions =>
    simp only [LRUNodes.pushFront, List.map_cons, List.nodup_cons]
    refine ⟨fun hmem => ?_, h.positions⟩
    obtain ⟨node, hn, heq⟩ := List.mem_map.mp hmem
    exact absurd (h.fresh node hn) (by omega)
  case fresh =>
    intro node hmem
    simp only [LRUNodes.pushFront, List.mem_cons] at hmem ⊢
    rcases hmem with rfl | hmem
    · exact Nat.lt_succ_self _
    · exact Nat.lt_succ_of_lt (h.fresh node hmem)

theorem Implements.evict (h : m.Implements ref) :
    ∃ m', m.evict = some m' ∧ m'.Implements { ref with
      list := if ref.maxSize < ref.list.length then ref.list.dropLast else ref.list } := by
  rw [LRUNodes.evict, h.length_map, h.maxSize]
  by_cases hover : ref.maxSize < ref.list.length
  · simp only [if_pos hover]
    cases hlist : m.keyValueList using List.reverseRecOn with
    | nil =>
      have hnil : ref.list = [] := by rw [← h.pairs, LRUNodes.pairs, hlist, List.map_nil]
      simp [hnil] at hover
    | append_singleton init last =>
      have hlast : last ∈ m.keyValueList := by simp [hlist]
      have hpairs : ref.list = init.map LRUNode.pair ++ [last.pair] := by
        rw [← h.pairs, LRUNodes.pairs, hlist, List.map_append, List.map_singleton]
      have hkeys : ((init.map LRUNode.pair ++ [last.pair]).map Prod.fst).Nodup := hpairs ▸ h.keysNodup
      have hdrop : ref.list.filter (·.1 ≠ last.key) = ref.list.dropLast := by
        rw [hpairs, List.dropLast_concat]
        exact filter_last_of_distinct hkeys
      obtain ⟨m', herase, hm'⟩ := h.erase hlast
      rw [List.getLast?_concat, Option.bind_eq_bind, Option.bind_some, herase]
      exact ⟨m', rfl, hdrop ▸ hm'⟩
  · simp only [if_neg hover]
    exact ⟨m, rfl, h⟩

/-- The position of an erased entry is what is left in freed memory. -/
theorem second_eraseKey (freed : κ × Nat → Option Nat) (m : LRUNodes κ α) (it : κ × Nat) :
    (m.eraseKey it.1).second freed it = freed it := by
  rw [second, if_neg]
  simp [eraseKey]

theorem Implements.second (h : m.Implements ref) (hn : node ∈ m.keyValueList) :
    m.second freed (node.key, node.pos) = some node.pos :=
  if_pos (h.map.symm.subset (List.mem_map_of_mem hn))

theorem Implements.put_absent (h : m.Implements ref) (freed : κ × Nat → Option Nat) (hno : key ∉ ref.keys) (value : α) :
    ∃ m', m.put freed key value = some m' ∧ m'.Implements (ref.put key value).1 := by
  have hfilter := LRUCacheMap.filter_of_not_mem hno
  obtain ⟨m', hevict, hm'⟩ := (h.pushFront hno value).evict
  refine ⟨m', ?_, ?_⟩
  · rw [put, dropHeld, (h.find_none hno).1]
    exact hevict
  · rwa [LRUCacheMap.put_fst, hfilter]

/-- What happens to a key that is held rests on what is read of its erased entry. -/
theorem Implements.dropHeld_held (h : m.Implements ref) (hn : node ∈ m.keyValueList) :
    m.dropHeld freed node.key = (freed (node.key, node.pos)).bind (m.eraseKey node.key).eraseAt := by
  rw [dropHeld, (h.find_some hn).1]
  simp only [second_eraseKey freed m (node.key, node.pos), Option.bind_eq_bind]

private theorem Implements.put_held (h : m.Implements ref) (hn : node ∈ m.keyValueList)
    (hfreed : freed (node.key, node.pos) = some node.pos) (value : α) :
    ∃ m', m.put freed node.key value = some m' ∧ m'.Implements (ref.put node.key value).1 := by
  obtain ⟨m₁, herase, hm₁⟩ := h.erase hn
  have hno : node.key ∉ LRUCacheMap.keys { ref with list := ref.list.filter (·.1 ≠ node.key) } := by
    intro hmem
    obtain ⟨pair, hpair, heq⟩ := List.mem_map.mp hmem
    simp [heq] at hpair
  obtain ⟨m', hput, hm'⟩ := hm₁.put_absent freed hno value
  refine ⟨m', ?_, ?_⟩
  · rw [put, h.dropHeld_held hn, hfreed, Option.bind_some, herase]
    rw [put, dropHeld, (hm₁.find_none hno).1] at hput
    exact hput
  · simpa only [LRUCacheMap.put_fst, List.filter_filter, Bool.and_self] using hm'

private theorem Implements.get_held (h : m.Implements ref) (hn : node ∈ m.keyValueList) :
    ∃ m', m.get freed node.key = some ((ref.get node.key).1, m') ∧ m'.Implements (ref.get node.key).2 := by
  obtain ⟨hfind, hnode, href⟩ := h.find_some hn
  have hfilter := h.filter_pos hn
  have hperm : (node :: m.keyValueList.filter (·.key ≠ node.key)).Perm m.keyValueList :=
    perm_of_distinct h.keys hn
  rw [get, hfind]
  simp only [h.second hn, hnode, LRUCacheMap.get, href, Option.bind_eq_bind, Option.bind_some, hfilter]
  refine ⟨_, rfl, ?_⟩
  constructor
  case maxSize => exact h.maxSize
  case pairs =>
    simp only [LRUNodes.pairs, List.map_cons, pairs_filter]
    rw [← h.pairs]
    rfl
  case map => exact h.map.trans (hperm.map _).symm
  case keys => exact (hperm.map _).nodup_iff.mpr h.keys
  case positions => exact (hperm.map _).nodup_iff.mpr h.positions
  case fresh => exact fun n hmem => h.fresh n (hperm.subset hmem)

private theorem Implements.get_absent (h : m.Implements ref) (freed : κ × Nat → Option Nat) (hno : key ∉ ref.keys) :
    m.get freed key = some ((ref.get key).1, m) ∧ (ref.get key).2 = ref := by
  obtain ⟨hfind, href⟩ := h.find_none hno
  rw [get, hfind, LRUCacheMap.get, href]
  exact ⟨rfl, rfl⟩

private theorem Implements.remove_absent (h : m.Implements ref) (freed : κ × Nat → Option Nat) (hno : key ∉ ref.keys) :
    m.remove freed key = some ((ref.remove key).1, m) ∧ (ref.remove key).2 = ref := by
  obtain ⟨hfind, href⟩ := h.find_none hno
  rw [remove, hfind, LRUCacheMap.remove, href]
  exact ⟨rfl, rfl⟩

theorem Implements.remove_eq (h : m.Implements ref) (hn : node ∈ m.keyValueList) :
    m.remove freed node.key = (freed (node.key, node.pos)).bind fun pos =>
      ((m.eraseKey node.key).eraseAt pos).map fun m' => (some node.value, m') := by
  obtain ⟨hfind, hnode, -⟩ := h.find_some hn
  have hfreed := second_eraseKey freed m (node.key, node.pos)
  rw [remove, hfind]
  simp only [h.second hn, hnode, hfreed, Option.bind_eq_bind, Option.bind_some]
  congr 1
  funext pos
  exact Option.map_eq_bind.symm

private theorem Implements.remove_held (h : m.Implements ref) (hn : node ∈ m.keyValueList)
    (hfreed : freed (node.key, node.pos) = some node.pos) :
    ∃ m', m.remove freed node.key = some ((ref.remove node.key).1, m') ∧
      m'.Implements (ref.remove node.key).2 := by
  obtain ⟨m', herase, hm'⟩ := h.erase hn
  rw [h.remove_eq hn, hfreed, Option.bind_some, herase, Option.map_some, LRUCacheMap.remove,
    (h.find_some hn).2.2]
  exact ⟨m', rfl, hm'⟩

end LRUNodes

/-! ### Sequences of calls -/

section Calls

variable {κ α : Type} [DecidableEq κ]

/-- The call puts or removes no key that is held. -/
def LRUCall.Avoids (c : LRUCall κ α) (ref : LRUCacheMap κ α) : Prop :=
  match c with
  | .put key _ => key ∉ ref.keys
  | .remove key => key ∉ ref.keys
  | .get _ => True
  | .clear => True

/-- No call of a sequence puts or removes a key that is held when it is called. -/
def AvoidsHeld (ref : LRUCacheMap κ α) : List (LRUCall κ α) → Prop
  | [] => True
  | c :: cs => c.Avoids ref ∧ AvoidsHeld (ref.call c).2 cs

namespace LRUNodes

variable {freed : κ × Nat → Option Nat} {m : LRUNodes κ α} {ref : LRUCacheMap κ α} {c : LRUCall κ α}

/-- A call does what the reference does if it erases no key that is held, or if freed memory keeps what it held. -/
theorem Implements.call (h : m.Implements ref) (hc : c.Avoids ref ∨ ∀ it, freed it = some it.2) :
    ∃ m', m.call freed c = some ((ref.call c).1, m') ∧ m'.Implements (ref.call c).2 := by
  cases c with
  | put key value =>
    by_cases hkey : key ∈ ref.keys
    · obtain ⟨node, hn, rfl⟩ := h.mem_keys_iff.mp hkey
      obtain ⟨m', hput, hm'⟩ := h.put_held hn (hc.resolve_left (not_not_intro hkey) _) value
      exact ⟨m', by rw [LRUNodes.call, hput]; rfl, hm'⟩
    · obtain ⟨m', hput, hm'⟩ := h.put_absent freed hkey value
      exact ⟨m', by rw [LRUNodes.call, hput]; rfl, hm'⟩
  | get key =>
    by_cases hkey : key ∈ ref.keys
    · obtain ⟨node, hn, rfl⟩ := h.mem_keys_iff.mp hkey
      exact h.get_held hn
    · obtain ⟨hget, hsame⟩ := h.get_absent freed hkey
      exact ⟨m, hget, hsame.symm ▸ h⟩
  | remove key =>
    by_cases hkey : key ∈ ref.keys
    · obtain ⟨node, hn, rfl⟩ := h.mem_keys_iff.mp hkey
      exact h.remove_held hn (hc.resolve_left (not_not_intro hkey) _)
    · obtain ⟨hremove, hsame⟩ := h.remove_absent freed hkey
      exact ⟨m, hremove, hsame.symm ▸ h⟩
  | clear => exact ⟨m.clear, rfl, implements_clear h⟩

/-- A call that erases a key that is held reads what has no meaning any more. -/
theorem Implements.call_undefined (h : m.Implements ref) (hc : ¬ c.Avoids ref) :
    m.call (fun _ => none) c = none := by
  cases c with
  | put key value =>
    obtain ⟨node, hn, rfl⟩ := h.mem_keys_iff.mp (not_not.mp hc)
    rw [LRUNodes.call, LRUNodes.put, h.dropHeld_held hn]
    rfl
  | remove key =>
    obtain ⟨node, hn, rfl⟩ := h.mem_keys_iff.mp (not_not.mp hc)
    rw [LRUNodes.call, h.remove_eq hn]
    rfl
  | get key => exact absurd trivial hc
  | clear => exact absurd trivial hc

theorem Implements.calls (cs : List (LRUCall κ α)) : ∀ {m : LRUNodes κ α} {ref : LRUCacheMap κ α},
    m.Implements ref → AvoidsHeld ref cs ∨ (∀ it, freed it = some it.2) →
    ∃ m', m.calls freed cs = some ((ref.calls cs).1, m') ∧ m'.Implements (ref.calls cs).2 := by
  induction cs with
  | nil => exact fun h _ => ⟨_, rfl, h⟩
  | cons c cs ih =>
    intro m ref h hc
    obtain ⟨m₁, hcall, hm₁⟩ := h.call (hc.imp_left And.left)
    obtain ⟨m₂, hcalls, hm₂⟩ := ih hm₁ (hc.imp_left And.right)
    refine ⟨m₂, ?_, hm₂⟩
    simp only [LRUNodes.calls, hcall, hcalls, Option.bind_eq_bind, Option.bind_some]
    rfl

private theorem Implements.calls_undefined (cs : List (LRUCall κ α)) : ∀ {m : LRUNodes κ α} {ref : LRUCacheMap κ α},
    m.Implements ref → ¬ AvoidsHeld ref cs → m.calls (fun _ => none) cs = none := by
  induction cs with
  | nil => exact fun _ hc => absurd trivial hc
  | cons c cs ih =>
    intro m ref h hc
    by_cases hfirst : c.Avoids ref
    · obtain ⟨m₁, hcall, hm₁⟩ : ∃ m₁, m.call (fun _ => none) c = some ((ref.call c).1, m₁) ∧ m₁.Implements (ref.call c).2 :=
        h.call (Or.inl hfirst)
      have hrest := ih hm₁ fun hrest => hc ⟨hfirst, hrest⟩
      simp only [LRUNodes.calls, hcall, hrest, Option.bind_eq_bind, Option.bind_some, Option.bind_none]
    · rw [LRUNodes.calls, h.call_undefined hfirst]
      rfl

end LRUNodes

/-- A new map answers the calls as the reference does and holds the same pairs in the same order, which is the order of recency, within its size; and what it will answer next is what has been put last. -/
structure Behaves (freed : κ × Nat → Option Nat) (maxSize : Nat) (cs : List (LRUCall κ α)) : Prop where
  implements : ∃ m, (LRUNodes.empty maxSize).calls freed cs
      = some (((LRUCacheMap.empty maxSize).calls cs).1, m) ∧
    m.Implements ((LRUCacheMap.empty maxSize).calls cs).2
  recency : LRUCacheMap.Recency (cs.zip ((LRUCacheMap.empty maxSize).calls cs).1).reverse
    ((LRUCacheMap.empty maxSize).calls cs).2
  answers : LRUCacheMap.Answers (cs.zip ((LRUCacheMap.empty maxSize).calls cs).1).reverse
    ((LRUCacheMap.empty maxSize).calls cs).2

private theorem LRUCacheMap.maxSize_calls (cs : List (LRUCall κ α)) :
    ∀ m : LRUCacheMap κ α, (m.calls cs).2.maxSize = m.maxSize := by
  induction cs with
  | nil => exact fun _ => rfl
  | cons c cs ih =>
    intro m
    have hcall : (m.call c).2.maxSize = m.maxSize := by
      cases c with
      | put key value => rw [LRUCacheMap.call, LRUCacheMap.put_fst]
      | get key => rw [LRUCacheMap.call, LRUCacheMap.get]; split <;> rfl
      | remove key => rw [LRUCacheMap.call, LRUCacheMap.remove]; split <;> rfl
      | clear => rfl
    rw [LRUCacheMap.calls, ih, hcall]

/-- The map is the recency list while no held key is erased by `put` or `remove`, and over every sequence of calls if freed memory keeps what it held. -/
theorem behaves_of {freed : κ × Nat → Option Nat} {maxSize : Nat} (hmax : 1 ≤ maxSize) {cs : List (LRUCall κ α)}
    (hc : AvoidsHeld (LRUCacheMap.empty maxSize) cs ∨ ∀ it, freed it = some it.2) :
    Behaves freed maxSize cs := by
  have hempty : LRUCacheMap.Recency [] (LRUCacheMap.empty maxSize : LRUCacheMap κ α) :=
    ⟨List.nodup_nil, Nat.zero_le _, List.nil_sublist _, fun _ hmem => absurd hmem List.not_mem_nil⟩
  have hrecency := hempty.calls cs
  rw [List.append_nil] at hrecency
  exact ⟨(LRUNodes.implements_empty maxSize).calls cs hc, hrecency,
    hrecency.answers ((LRUCacheMap.maxSize_calls cs _).symm ▸ hmax)⟩

/-- Whatever freed memory holds, the map is the recency list over the sequences that erase no held key by `put` or `remove`, and over no others. -/
theorem behaves_iff {maxSize : Nat} (hmax : 1 ≤ maxSize) (cs : List (LRUCall κ α)) :
    (∀ freed, Behaves freed maxSize cs) ↔ AvoidsHeld (LRUCacheMap.empty maxSize) cs := by
  constructor
  · intro hbehaves
    by_contra hc
    obtain ⟨m, hcalls, -⟩ := (hbehaves fun _ => none).implements
    rw [(LRUNodes.implements_empty maxSize).calls_undefined cs hc] at hcalls
    cases hcalls
  · exact fun hc freed => behaves_of hmax (Or.inl hc)

theorem behaves_iff_one_place :
    (∀ freed, Behaves freed 1 [LRUCall.put 1 5, .put 2 6, .get 2, .clear]) ↔
      AvoidsHeld (LRUCacheMap.empty 1) [LRUCall.put 1 5, .put 2 6, .get 2, .clear] :=
  behaves_iff (by decide) _

/-- A key is put twice: what `put` reads of the erased entry decides. -/
theorem not_behaves_put_twice : ¬ ∀ freed, Behaves freed 3 [LRUCall.put 1 1, .put 1 2] := by
  intro hbehaves
  obtain ⟨m, hcalls, -⟩ := (hbehaves fun _ => none).implements
  have hnone : (LRUNodes.empty 3).calls (fun _ => none) [LRUCall.put 1 1, .put 1 2] = none := rfl
  rw [hnone] at hcalls
  cases hcalls

end Calls

end FuseFat32
