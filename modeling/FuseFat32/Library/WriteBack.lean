import Mathlib.Data.List.Nodup
import Mathlib.Data.Set.Insert
import Mathlib.Logic.Function.Basic

/-!
# Objects in memory and the store they are written back to

Objects are kept in memory under keys. An object that is missing is made of what the store has for its key, and an object that goes is written back. When loading gives what saving has put, and saving one object leaves what the others have, memory and store together are a map from keys to values, and it makes no difference which objects happen to be in memory.
-/

namespace WriteBack

variable {β κ ν α : Type*}

/-- A store that objects are made of and written back to. Both may fail. -/
structure Backing (β κ α : Type*) where
  load : β → κ → Option α
  save : β → α → Option β

/-- What stores and objects say about the values of the keys. -/
structure Reading (β κ ν α : Type*) where
  /-- The store fits the values. -/
  good : β → (κ → ν) → Prop
  /-- The store has the value for the key. -/
  has : β → κ → ν → Prop
  /-- The object has the value of the key. -/
  shows : β → κ → ν → α → Prop
  /-- Nothing that counts sets the two stores apart. -/
  alike : (κ → ν) → β → β → Prop

/-- What the keys other than `k` have, in the store and in memory, stays. -/
structure Undisturbed (R : Reading β κ ν α) (keys : Set κ) (σ : κ → ν) (k : κ) (b b' : β) : Prop where
  has : ∀ j ∈ keys, j ≠ k → R.has b j (σ j) → R.has b' j (σ j)
  shows : ∀ j ∈ keys, j ≠ k → ∀ a, R.shows b j (σ j) a → R.shows b' j (σ j) a

/-- Loading gives what the store has, and saving puts there what the object has. -/
structure Lawful (B : Backing β κ α) (R : Reading β κ ν α) (keys : Set κ) : Prop where
  load : ∀ {b σ k}, R.good b σ → k ∈ keys → R.has b k (σ k) → ∃ a, B.load b k = some a ∧ R.shows b k (σ k) a
  save : ∀ {b σ k a}, R.good b σ → k ∈ keys → R.shows b k (σ k) a → ∃ b', B.save b a = some b' ∧
    R.good b' σ ∧ R.has b' k (σ k) ∧ Undisturbed R keys σ k b b' ∧ R.alike σ b b'
  refl : ∀ σ b, R.alike σ b b
  trans : ∀ {σ b b' b''}, R.alike σ b b' → R.alike σ b' b'' → R.alike σ b b''

/-- The store and the objects in memory have the values: an object where there is one, the store elsewhere. -/
structure Coherent (R : Reading β κ ν α) (keys : Set κ) (b : β) (σ : κ → ν) (resident : List (κ × α)) : Prop where
  good : R.good b σ
  distinct : (resident.map Prod.fst).Nodup
  held : ∀ p ∈ resident, p.1 ∈ keys ∧ R.shows b p.1 (σ p.1) p.2
  absent : ∀ k ∈ keys, (∀ p ∈ resident, p.1 ≠ k) → R.has b k (σ k)

/-- Objects that are written back one after the other. -/
def Backing.saveAll (B : Backing β κ α) : List α → β → Option β
  | [], b => some b
  | a :: as, b => (B.save b a).bind (B.saveAll as)

section coherent

variable {B : Backing β κ α} {R R' : Reading β κ ν α} {keys : Set κ} {b b' : β} {σ σ' : κ → ν} {k : κ} {a a' : α}
  {objects rest rest' : List (κ × α)}

theorem Coherent.perm (h : Coherent R keys b σ rest) (hperm : rest.Perm rest') : Coherent R keys b σ rest' :=
  ⟨h.good, (hperm.map Prod.fst).nodup h.distinct, fun p hp => h.held p (hperm.mem_iff.mpr hp),
    fun k hk hnot => h.absent k hk fun p hp => hnot p (hperm.mem_iff.mp hp)⟩

theorem Coherent.ne_of_cons (h : Coherent R keys b σ ((k, a) :: rest)) : ∀ p ∈ rest, p.1 ≠ k := by
  have hdistinct := h.distinct
  rw [List.map_cons, List.nodup_cons] at hdistinct
  exact fun p hp heq => hdistinct.1 (List.mem_map.mpr ⟨p, hp, heq⟩)

theorem Coherent.shows (h : Coherent R keys b σ rest) (hmem : (k, a) ∈ rest) : k ∈ keys ∧ R.shows b k (σ k) a :=
  h.held _ hmem

theorem Coherent.admit (hB : Lawful B R keys) (h : Coherent R keys b σ rest) (hk : k ∈ keys)
    (hnot : ∀ p ∈ rest, p.1 ≠ k) : ∃ a, B.load b k = some a ∧ Coherent R keys b σ ((k, a) :: rest) := by
  obtain ⟨a, hload, hshows⟩ := hB.load h.good hk (h.absent k hk hnot)
  refine ⟨a, hload, h.good, ?_, fun p hp => ?_, fun j hj hother => ?_⟩
  · rw [List.map_cons, List.nodup_cons]
    refine ⟨fun hmem => ?_, h.distinct⟩
    obtain ⟨p, hp, heq⟩ := List.mem_map.mp hmem
    exact hnot p hp heq
  · rcases List.mem_cons.mp hp with rfl | hp
    · exact ⟨hk, hshows⟩
    · exact h.held p hp
  · exact h.absent j hj fun p hp => hother p (List.mem_cons_of_mem _ hp)

/-- An object that goes is written back, and the store has its value from then on. -/
theorem Coherent.evict (hB : Lawful B R keys) (h : Coherent R keys b σ ((k, a) :: rest)) :
    ∃ b', B.save b a = some b' ∧ R.alike σ b b' ∧ Coherent R keys b' σ rest := by
  obtain ⟨hk, hshows⟩ := h.shows List.mem_cons_self
  obtain ⟨b', hsave, hgood, hhas, hothers, halike⟩ := hB.save h.good hk hshows
  have hne := h.ne_of_cons
  refine ⟨b', hsave, halike, hgood, h.distinct.of_cons, fun p hp => ?_, fun j hj hnot => ?_⟩
  · obtain ⟨hkey, hobj⟩ := h.held p (List.mem_cons_of_mem _ hp)
    exact ⟨hkey, hothers.shows p.1 hkey (hne p hp) p.2 hobj⟩
  · by_cases heq : j = k
    · exact heq ▸ hhas
    · refine hothers.has j hj heq (h.absent j hj fun p hp => ?_)
      rcases List.mem_cons.mp hp with rfl | hp
      · exact fun h => heq h.symm
      · exact hnot p hp

/-- Whichever objects go, the values stay. -/
theorem Coherent.saveAll (hB : Lawful B R keys) : ∀ {objects : List (κ × α)} {b : β},
    Coherent R keys b σ (objects ++ rest) →
    ∃ b', B.saveAll (objects.map Prod.snd) b = some b' ∧ R.alike σ b b' ∧ Coherent R keys b' σ rest := by
  intro objects
  induction objects with
  | nil => exact fun {b} h => ⟨b, rfl, hB.refl σ b, h⟩
  | cons p objects ih =>
    intro b h
    obtain ⟨b₁, hsave, halike, h₁⟩ := h.evict hB
    obtain ⟨b', hrun, halike', h'⟩ := ih h₁
    refine ⟨b', ?_, hB.trans halike halike', h'⟩
    rw [List.map_cons, Backing.saveAll, hsave, Option.bind_some, hrun]

/-- An object in memory gets another value, on another store and by another reading. -/
theorem Coherent.recast (h : Coherent R keys b σ ((k, a) :: rest)) (hgood : R'.good b' σ')
    (hσ : ∀ j ≠ k, σ' j = σ j) (hself : R'.shows b' k (σ' k) a')
    (hhas : ∀ j ∈ keys, j ≠ k → R.has b j (σ j) → R'.has b' j (σ j))
    (hshows : ∀ j ∈ keys, j ≠ k → ∀ a, R.shows b j (σ j) a → R'.shows b' j (σ j) a) :
    Coherent R' keys b' σ' ((k, a') :: rest) := by
  have hne := h.ne_of_cons
  refine ⟨hgood, h.distinct, fun p hp => ?_, fun j hj hnot => ?_⟩
  · rcases List.mem_cons.mp hp with rfl | hp
    · exact ⟨(h.shows List.mem_cons_self).1, hself⟩
    · obtain ⟨hkey, hobj⟩ := h.held p (List.mem_cons_of_mem _ hp)
      rw [hσ _ (hne p hp)]
      exact ⟨hkey, hshows p.1 hkey (hne p hp) p.2 hobj⟩
  · have hjk : j ≠ k := fun heq => hnot (k, a') List.mem_cons_self heq.symm
    rw [hσ j hjk]
    refine hhas j hj hjk (h.absent j hj fun p hp => ?_)
    rcases List.mem_cons.mp hp with rfl | hp
    · exact fun h => hjk h.symm
    · exact hnot p (List.mem_cons_of_mem _ hp)

/-- Work on an object that is in memory gives its key another value. -/
theorem Coherent.update [DecidableEq κ] (h : Coherent R keys b σ ((k, a) :: rest)) {v : ν}
    (hgood : R.good b' (Function.update σ k v)) (hshows : R.shows b' k v a')
    (hothers : Undisturbed R keys σ k b b') :
    Coherent R keys b' (Function.update σ k v) ((k, a') :: rest) :=
  h.recast hgood (fun _ hj => Function.update_of_ne hj ..) (by rwa [Function.update_self]) hothers.has hothers.shows

theorem Coherent.replace [DecidableEq κ] (h : Coherent R keys b σ rest) (hmem : (k, a) ∈ rest) {v : ν}
    (hgood : R.good b' (Function.update σ k v)) (hshows : R.shows b' k v a') (hothers : Undisturbed R keys σ k b b') :
    Coherent R keys b' (Function.update σ k v) (rest.map fun p => (p.1, if p.1 = k then a' else p.2)) := by
  obtain ⟨as, bs, rfl⟩ := List.append_of_mem hmem
  have hfront := h.perm List.perm_middle
  have hsame : (as ++ bs).map (fun p => (p.1, if p.1 = k then a' else p.2)) = as ++ bs := by
    conv_rhs => rw [← List.map_id (as ++ bs)]
    refine List.map_congr_left fun p hp => ?_
    rw [if_neg (hfront.ne_of_cons p hp)]
    rfl
  refine (hfront.update hgood hshows hothers).perm ?_
  have hmiddle : (as ++ (k, a) :: bs).Perm ((k, a) :: (as ++ bs)) := List.perm_middle
  have hperm := hmiddle.map fun p => (p.1, if p.1 = k then a' else p.2)
  rw [List.map_cons, hsame, if_pos rfl] at hperm
  exact hperm.symm

/-! ### Other stores and other keys -/

/-- The objects in memory still show what they did, on another store and by another reading. -/
theorem Coherent.transport (h : Coherent R keys b σ rest) (hgood : R'.good b' σ)
    (hhas : ∀ j ∈ keys, R.has b j (σ j) → R'.has b' j (σ j))
    (hshows : ∀ j ∈ keys, ∀ a, R.shows b j (σ j) a → R'.shows b' j (σ j) a) : Coherent R' keys b' σ rest :=
  ⟨hgood, h.distinct, fun p hp => ⟨(h.held p hp).1, hshows _ (h.held p hp).1 _ (h.held p hp).2⟩,
    fun j hj hnot => hhas j hj (h.absent j hj hnot)⟩

theorem Coherent.discard (h : Coherent R keys b σ ((k, a) :: rest)) (hgood : R'.good b σ)
    (hhas : ∀ j ∈ keys, R.has b j (σ j) → R'.has b j (σ j))
    (hshows : ∀ j ∈ keys, ∀ a, R.shows b j (σ j) a → R'.shows b j (σ j) a) : Coherent R' (keys \ {k}) b σ rest := by
  have hne := h.ne_of_cons
  refine ⟨hgood, h.distinct.of_cons, fun p hp => ?_, fun j hj hnot => hhas j hj.1 (h.absent j hj.1 fun p hp => ?_)⟩
  · obtain ⟨hkey, hobj⟩ := h.held p (List.mem_cons_of_mem _ hp)
    exact ⟨⟨hkey, hne p hp⟩, hshows _ hkey _ hobj⟩
  · rcases List.mem_cons.mp hp with rfl | hp
    · exact fun heq => hj.2 heq.symm
    · exact hnot p hp

theorem Coherent.join (h : Coherent R keys b σ rest) (hk : k ∉ keys) (hσ : ∀ j ∈ keys, σ' j = σ j) (hgood : R'.good b σ')
    (hhas : ∀ j ∈ keys, R.has b j (σ j) → R'.has b j (σ j))
    (hothers : ∀ j ∈ keys, ∀ a, R.shows b j (σ j) a → R'.shows b j (σ j) a)
    (hshows : R'.shows b k (σ' k) a) : Coherent R' (insert k keys) b σ' ((k, a) :: rest) := by
  refine ⟨hgood, ?_, fun p hp => ?_, fun j hj hnot => ?_⟩
  · rw [List.map_cons, List.nodup_cons]
    refine ⟨fun hmem => ?_, h.distinct⟩
    obtain ⟨p, hp, rfl⟩ := List.mem_map.mp hmem
    exact hk (h.held p hp).1
  · rcases List.mem_cons.mp hp with rfl | hp
    · exact ⟨Set.mem_insert _ _, hshows⟩
    · obtain ⟨hkey, hobj⟩ := h.held p hp
      exact ⟨Set.mem_insert_of_mem _ hkey, (hσ _ hkey).symm ▸ hothers _ hkey _ hobj⟩
  · rcases Set.mem_insert_iff.mp hj with rfl | hj
    · exact absurd rfl (hnot _ List.mem_cons_self)
    · rw [hσ j hj]
      exact hhas j hj (h.absent j hj fun p hp => hnot p (List.mem_cons_of_mem _ hp))

end coherent

end WriteBack
