import Mathlib.Data.List.Basic
import Mathlib.Data.Set.Function
import Mathlib.Order.Interval.Set.Defs

/-!
# Runs of positions in a scattered memory

A layout sends logical positions to cells of a memory. Positions below a capacity have cells of their own, but neighbouring positions may lie anywhere. This is about loading a run of positions, about what it means that a memory has stored a run, and about how runs that follow one another are put together.
-/

namespace Layout

variable {κ β : Type*} {loc : Nat → κ} {m m' m'' : κ → β} {p n cap : Nat} {buf : List β}

/-- The contents of `n` positions from `p` on. -/
def load (loc : Nat → κ) (m : κ → β) (p n : Nat) : List β :=
  (List.range n).map fun k => m (loc (p + k))

@[simp] theorem length_load : (load loc m p n).length = n := by simp [load]

@[simp] theorem load_zero : load loc m p 0 = [] := rfl

theorem load_add (p a b : Nat) : load loc m p (a + b) = load loc m p a ++ load loc m (p + a) b := by
  simp [load, List.range_add, Nat.add_assoc]

private theorem getElem?_load {k : Nat} (hk : k < n) : (load loc m p n)[k]? = some (m (loc (p + k))) := by
  simp [load, hk]

theorem load_congr (h : ∀ k < n, m' (loc (p + k)) = m (loc (p + k))) :
    load loc m' p n = load loc m p n :=
  List.map_congr_left fun k hk => h k (List.mem_range.mp hk)

/-- `m'` is `m` after the run `buf` has been stored from position `p` on. -/
structure Stores (loc : Nat → κ) (m m' : κ → β) (p : Nat) (buf : List β) : Prop where
  inside : ∀ k < buf.length, buf[k]? = some (m' (loc (p + k)))
  outside : ∀ x, (∀ k < buf.length, loc (p + k) ≠ x) → m' x = m x

theorem Stores.nil (loc : Nat → κ) (m : κ → β) (p : Nat) : Stores loc m m p [] :=
  ⟨fun k hk => absurd hk (Nat.not_lt_zero k), fun _ _ => rfl⟩

theorem Stores.load_eq (h : Stores loc m m' p buf) : load loc m' p buf.length = buf := by
  refine List.ext_getElem? fun k => ?_
  by_cases hk : k < buf.length
  · rw [getElem?_load hk, h.inside k hk]
  · rw [List.getElem?_eq_none (by simpa using hk), List.getElem?_eq_none (by omega)]

theorem Stores.keeps (h : Stores loc m m' p buf) (hinj : Set.InjOn loc (Set.Iio cap))
    (hcap : p + buf.length ≤ cap) {q : Nat} (hq : q < cap) (hout : q < p ∨ p + buf.length ≤ q) :
    m' (loc q) = m (loc q) := by
  refine h.outside _ fun k hk heq => ?_
  have hsame := hinj (show p + k < cap by omega) hq heq
  omega

theorem Stores.append {buf₁ buf₂ : List β} (h₁ : Stores loc m m' p buf₁)
    (h₂ : Stores loc m' m'' (p + buf₁.length) buf₂) (hinj : Set.InjOn loc (Set.Iio cap))
    (hcap : p + buf₁.length + buf₂.length ≤ cap) : Stores loc m m'' p (buf₁ ++ buf₂) := by
  refine ⟨fun k hk => ?_, fun x hx => ?_⟩
  · rw [List.length_append] at hk
    by_cases hlt : k < buf₁.length
    · rw [List.getElem?_append_left hlt, h₁.inside k hlt,
        h₂.keeps hinj hcap (show p + k < cap by omega) (.inl (by omega))]
    · rw [List.getElem?_append_right (by omega), h₂.inside (k - buf₁.length) (by omega)]
      congr 3
      omega
  · simp only [List.length_append] at hx
    rw [h₂.outside x fun k hk => ?_, h₁.outside x fun k hk => hx k (by omega)]
    rw [Nat.add_assoc]
    exact hx _ (by omega)

end Layout
