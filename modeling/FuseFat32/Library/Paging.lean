import Mathlib.Data.List.Basic

/-!
# Pages of a list

A list is handed out in pages. A page has room for so many units, an item needs some of them, and a page takes items one after the other until the next one does not fit. The reader goes on where the page has ended and stops at an empty page. However the sizes vary, nothing is lost and nothing comes twice, as long as every item fits in a page of its own.
-/

namespace Paging

variable {α : Type*} {need : α → Nat} {rem : Nat} {x : α} {xs : List α}

/-- The items that fit one after the other, and those that are left. -/
def fill (need : α → Nat) : Nat → List α → List α × List α
  | _, [] => ([], [])
  | rem, x :: xs =>
    if rem < need x then ([], x :: xs) else (x :: (fill need (rem - need x) xs).1, (fill need (rem - need x) xs).2)

@[simp] theorem fill_nil : fill need rem [] = ([], []) := rfl

theorem fill_cons_full (h : rem < need x) : fill need rem (x :: xs) = ([], x :: xs) := if_pos h

theorem fill_cons (h : need x ≤ rem) : fill need rem (x :: xs) =
    (x :: (fill need (rem - need x) xs).1, (fill need (rem - need x) xs).2) := if_neg (Nat.not_lt.mpr h)

theorem fill_append (need : α → Nat) : ∀ (xs : List α) (rem : Nat), (fill need rem xs).1 ++ (fill need rem xs).2 = xs := by
  intro xs
  induction xs with
  | nil => exact fun _ => rfl
  | cons x xs ih =>
    intro rem
    rcases Nat.lt_or_ge rem (need x) with h | h
    · rw [fill_cons_full h, List.nil_append]
    · rw [fill_cons h, List.cons_append, ih]

private theorem fill_eq_nil (hfit : ∀ x ∈ xs, need x ≤ rem) : (fill need rem xs).1 = [] ↔ xs = [] := by
  cases xs with
  | nil => exact iff_of_true rfl rfl
  | cons x xs =>
    rw [fill_cons (hfit x List.mem_cons_self)]
    exact iff_of_false (List.cons_ne_nil _ _) (List.cons_ne_nil _ _)

/-- The pages of a reader that stops at an empty page. A call says what the items need in its page and how much room the page has. -/
def pages : List ((α → Nat) × Nat) → List α → List (List α)
  | [], _ => []
  | call :: calls, xs =>
    if (fill call.1 call.2 xs).1 = [] then [[]]
    else (fill call.1 call.2 xs).1 :: pages calls (fill call.1 call.2 xs).2

/-- The pages are a part of the list from its start. Nothing is left behind an empty page, and with more calls than items the last page is empty. -/
theorem pages_spec : ∀ {calls : List ((α → Nat) × Nat)} {xs : List α},
    (∀ call ∈ calls, ∀ x ∈ xs, call.1 x ≤ call.2) → ∃ rest, (pages calls xs).flatten ++ rest = xs ∧
      ((pages calls xs).getLast? = some [] → rest = []) ∧
      (xs.length < calls.length → (pages calls xs).getLast? = some []) := by
  intro calls
  induction calls with
  | nil => exact fun {xs} _ => ⟨xs, rfl, nofun, fun h => absurd h (Nat.not_lt_zero _)⟩
  | cons call calls ih =>
    intro xs hfit
    have hsplit : (fill call.1 call.2 xs).1 ++ (fill call.1 call.2 xs).2 = xs := fill_append _ _ _
    rw [pages]
    by_cases hempty : (fill call.1 call.2 xs).1 = []
    · rw [if_pos hempty, (fill_eq_nil (hfit call List.mem_cons_self)).mp hempty]
      exact ⟨[], rfl, fun _ => rfl, fun _ => rfl⟩
    · rw [if_neg hempty]
      obtain ⟨rest, hrest, hend, hmany⟩ := ih fun c hc x hx =>
        hfit c (List.mem_cons_of_mem _ hc) x (hsplit ▸ List.mem_append_right _ hx)
      have hlen := congrArg List.length hsplit
      rw [List.length_append] at hlen
      have hpos := List.length_pos_iff.mpr hempty
      refine ⟨rest, by rw [List.flatten_cons, List.append_assoc, hrest, hsplit], fun hlast => ?_, fun hlt => ?_⟩
      · rw [List.getLast?_cons] at hlast
        refine hend ?_
        cases hp : (pages calls (fill call.1 call.2 xs).2).getLast? with
        | none =>
          rw [hp, Option.getD_none] at hlast
          exact absurd (Option.some.inj hlast) hempty
        | some page =>
          rw [hp, Option.getD_some] at hlast
          exact hlast
      · rw [List.length_cons] at hlt
        rw [List.getLast?_cons, hmany (by omega), Option.getD_some]

end Paging
