import Mathlib.Data.List.Basic
import Mathlib.Data.List.Infix

/-!
# Lists of blanks and blocks

A list may be laid out as a row of segments, each of them one blank element or one block that takes several places. Blocks have no blanks inside. A run of blanks then lies between the blocks, and a block put in its place leaves all the others where they are. The search for such a run goes through the list once and counts the blanks it has met in a row.
-/

namespace Segments

/-- One blank element, or a block. -/
inductive Segment (α β : Type*) where
  | blank (a : α)
  | block (b : β)

variable {α β : Type*}

/-- The elements of a segment. -/
def Segment.elems (f : β → List α) : Segment α β → List α
  | .blank a => [a]
  | .block b => f b

/-- The elements of a row of segments. -/
def flat (f : β → List α) (segs : List (Segment α β)) : List α := segs.flatMap (Segment.elems f)

/-- The blocks of a row with the places they start at, when the row starts at `n`. -/
def blocks (f : β → List α) : Nat → List (Segment α β) → List (Nat × β)
  | _, [] => []
  | n, .blank _ :: segs => blocks f (n + 1) segs
  | n, .block b :: segs => (n, b) :: blocks f (n + (f b).length) segs

/-- Blocks are not empty and have no blanks inside. -/
def Solid (blank : α → Bool) (f : β → List α) : Prop := ∀ b, f b ≠ [] ∧ ∀ a ∈ f b, blank a = false

/-- The blank segments of a row are blank. -/
def BlankOk (blank : α → Bool) (segs : List (Segment α β)) : Prop := ∀ a, .blank a ∈ segs → blank a = true

section rows

variable {blank : α → Bool} {f : β → List α} {segs segs' : List (Segment α β)} {n k : Nat} {b : β}

@[simp] theorem flat_nil : flat f [] = [] := rfl

@[simp] theorem flat_cons (x : Segment α β) : flat f (x :: segs) = x.elems f ++ flat f segs := rfl

@[simp] theorem flat_append : flat f (segs ++ segs') = flat f segs ++ flat f segs' := List.flatMap_append

@[simp] theorem elems_blank (a : α) : (Segment.blank a : Segment α β).elems f = [a] := rfl

@[simp] theorem elems_block (b : β) : (Segment.block b : Segment α β).elems f = f b := rfl

theorem flat_blanks (as : List α) : flat f (as.map Segment.blank) = as := by
  induction as with
  | nil => rfl
  | cons a as ih => rw [List.map_cons, flat_cons, ih, elems_blank, List.singleton_append]

theorem blocks_blanks (as : List α) : ∀ n, blocks f n (as.map Segment.blank) = [] := by
  induction as with
  | nil => exact fun _ => rfl
  | cons a as ih => exact fun n => ih (n + 1)

theorem blocks_eq_nil : ∀ {segs : List (Segment α β)} {n : Nat}, (∀ b, .block b ∉ segs) → blocks f n segs = [] := by
  intro segs
  induction segs with
  | nil => exact fun _ => rfl
  | cons x segs ih =>
    intro n h
    cases x with
    | blank a => exact ih fun b hb => h b (List.mem_cons_of_mem _ hb)
    | block b => exact absurd List.mem_cons_self (h b)

theorem blocks_append (segs' : List (Segment α β)) : ∀ (segs : List (Segment α β)) (n : Nat),
    blocks f n (segs ++ segs') = blocks f n segs ++ blocks f (n + (flat f segs).length) segs' := by
  intro segs
  induction segs with
  | nil => exact fun n => rfl
  | cons x segs ih =>
    intro n
    cases x with
    | blank a =>
      rw [List.cons_append, blocks, ih, blocks, flat_cons, elems_blank, List.singleton_append,
        List.length_cons, Nat.add_assoc, Nat.add_comm 1]
    | block b =>
      rw [List.cons_append, blocks, ih, blocks, flat_cons, elems_block, List.cons_append,
        List.length_append, Nat.add_assoc]

theorem exists_of_mem_blocks : ∀ {segs : List (Segment α β)} {n m : Nat}, (m, b) ∈ blocks f n segs →
    ∃ xs zs, segs = xs ++ .block b :: zs ∧ m = n + (flat f xs).length := by
  intro segs
  induction segs with
  | nil => exact fun h => absurd h List.not_mem_nil
  | cons x segs ih =>
    intro n m h
    cases x with
    | blank a =>
      obtain ⟨xs, zs, rfl, rfl⟩ := ih h
      refine ⟨.blank a :: xs, zs, rfl, ?_⟩
      rw [flat_cons, elems_blank, List.length_append, List.length_singleton, Nat.add_assoc]
    | block c =>
      rcases List.mem_cons.mp h with heq | h
      · obtain ⟨rfl, rfl⟩ := Prod.mk.inj heq
        exact ⟨[], segs, rfl, rfl⟩
      · obtain ⟨xs, zs, rfl, rfl⟩ := ih h
        refine ⟨.block c :: xs, zs, rfl, ?_⟩
        rw [flat_cons, elems_block, List.length_append, Nat.add_assoc]

theorem blanks_or_first_block : ∀ segs : List (Segment α β), (∃ as : List α, segs = as.map .blank) ∨
    ∃ (as : List α) (b : β) (zs : List (Segment α β)), segs = as.map .blank ++ .block b :: zs := by
  intro segs
  induction segs with
  | nil => exact .inl ⟨[], rfl⟩
  | cons x segs ih =>
    cases x with
    | blank a =>
      rcases ih with ⟨as, rfl⟩ | ⟨as, b, zs, rfl⟩
      · exact .inl ⟨a :: as, rfl⟩
      · exact .inr ⟨a :: as, b, zs, rfl⟩
    | block b => exact .inr ⟨[], b, segs, rfl⟩

theorem blocks_pairwise (f : β → List α) : ∀ (segs : List (Segment α β)) (n : Nat),
    (blocks f n segs).Pairwise (fun p q => p.1 + (f p.2).length ≤ q.1) ∧
      ∀ p ∈ blocks f n segs, n ≤ p.1 ∧ p.1 + (f p.2).length ≤ n + (flat f segs).length := by
  intro segs
  induction segs with
  | nil => exact fun _ => ⟨List.Pairwise.nil, fun p hp => absurd hp List.not_mem_nil⟩
  | cons x segs ih =>
    intro n
    cases x with
    | blank a =>
      obtain ⟨hpair, hin⟩ := ih (n + 1)
      refine ⟨hpair, fun p hp => ?_⟩
      have := hin p hp
      rw [flat_cons, elems_blank, List.length_append, List.length_singleton]
      omega
    | block c =>
      obtain ⟨hpair, hin⟩ := ih (n + (f c).length)
      refine ⟨List.pairwise_cons.mpr ⟨fun p hp => (hin p hp).1, hpair⟩, fun p hp => ?_⟩
      rw [flat_cons, elems_block, List.length_append]
      rcases List.mem_cons.mp hp with rfl | hp
      · dsimp only
        omega
      · have := hin p hp
        omega

theorem length_blocks_le (hne : ∀ b, f b ≠ []) : ∀ {segs : List (Segment α β)} {n : Nat},
    (blocks f n segs).length ≤ (flat f segs).length := by
  intro segs
  induction segs with
  | nil => exact Nat.le_refl 0
  | cons x segs ih =>
    intro n
    cases x with
    | blank a =>
      rw [flat_cons, elems_blank, List.length_append]
      exact (ih (n := n + 1)).trans (Nat.le_add_left _ _)
    | block b =>
      have hpos := List.length_pos_iff.mpr (hne b)
      have hrest := ih (n := n + (f b).length)
      rw [blocks, flat_cons, elems_block, List.length_cons, List.length_append]
      omega

theorem not_blank_iff (hsolid : Solid blank f) : ∀ {segs : List (Segment α β)} {n k : Nat},
    BlankOk blank segs → ∀ a, (flat f segs)[k]? = some a →
    (blank a = false ↔ ∃ p ∈ blocks f n segs, p.1 ≤ n + k ∧ n + k < p.1 + (f p.2).length) := by
  intro segs
  induction segs with
  | nil => exact fun _ a h => absurd h (by simp)
  | cons x segs ih =>
    intro n k hok a ha
    have hrest : BlankOk blank segs := fun a h => hok a (List.mem_cons_of_mem _ h)
    have hin := fun m => (blocks_pairwise f segs m).2
    cases x with
    | blank c =>
      rw [flat_cons, elems_blank, List.singleton_append] at ha
      cases k with
      | zero =>
        obtain rfl : c = a := by simpa using ha
        rw [hok c List.mem_cons_self]
        refine iff_of_false Bool.true_eq_false.mp ?_
        rintro ⟨p, hp, hle, -⟩
        have := (hin (n + 1) p hp).1
        omega
      | succ k =>
        have hiff := ih (n := n + 1) (k := k) hrest a (by simpa using ha)
        rw [show n + 1 + k = n + (k + 1) by omega] at hiff
        exact hiff
    | block c =>
      rw [flat_cons, elems_block] at ha
      by_cases hk : k < (f c).length
      · rw [List.getElem?_append_left hk] at ha
        refine iff_of_true ((hsolid c).2 a (List.mem_of_getElem? ha)) ⟨(n, c), List.mem_cons_self, ?_⟩
        dsimp only
        omega
      · rw [List.getElem?_append_right (Nat.not_lt.mp hk)] at ha
        have hiff := ih (n := n + (f c).length) (k := k - (f c).length) hrest a ha
        rw [show n + (f c).length + (k - (f c).length) = n + k by omega] at hiff
        rw [hiff, blocks]
        constructor
        · exact fun ⟨p, hp, hpk⟩ => ⟨p, List.mem_cons_of_mem _ hp, hpk⟩
        · rintro ⟨p, hp, hpk⟩
          rcases List.mem_cons.mp hp with rfl | hp
          · dsimp only at hpk
            omega
          · exact ⟨p, hp, hpk⟩

theorem flat_set_blank (hsolid : Solid blank f) {a : α} (ha : blank a = true) (a' : α) :
    ∀ {segs : List (Segment α β)} {k : Nat}, (flat f segs)[k]? = some a →
    ∃ segs', flat f segs' = (flat f segs).set k a' ∧ (∀ n, blocks f n segs' = blocks f n segs) ∧
      .blank a ∈ segs ∧ ∀ c, .blank c ∈ segs' → .blank c ∈ segs ∨ c = a' := by
  intro segs
  induction segs with
  | nil => exact fun h => absurd h (by simp)
  | cons x segs ih =>
    intro k hk
    cases x with
    | blank c =>
      rw [flat_cons, elems_blank, List.singleton_append] at hk
      cases k with
      | zero =>
        obtain rfl : c = a := by simpa using hk
        refine ⟨.blank a' :: segs, rfl, fun _ => rfl, List.mem_cons_self, fun b hb => ?_⟩
        rcases List.mem_cons.mp hb with heq | hb
        · exact .inr (Segment.blank.inj heq)
        · exact .inl (List.mem_cons_of_mem _ hb)
      | succ k =>
        obtain ⟨segs', hflat, hblocks, hmem, hold⟩ := ih (k := k) (by simpa using hk)
        refine ⟨.blank c :: segs', ?_, fun n => hblocks (n + 1), List.mem_cons_of_mem _ hmem, fun b hb => ?_⟩
        · rw [flat_cons, hflat]
          rfl
        · rcases List.mem_cons.mp hb with heq | hb
          · exact .inl (heq ▸ List.mem_cons_self)
          · exact (hold b hb).imp_left (List.mem_cons_of_mem _)
    | block b =>
      rw [flat_cons, elems_block] at hk
      -- a block has no blanks inside
      have hlen : (f b).length ≤ k := by
        by_contra hlt
        rw [List.getElem?_append_left (Nat.not_le.mp hlt)] at hk
        have hnot := (hsolid b).2 a (List.mem_of_getElem? hk)
        exact Bool.false_ne_true (hnot.symm.trans ha)
      rw [List.getElem?_append_right hlen] at hk
      obtain ⟨segs', hflat, hblocks, hmem, hold⟩ := ih hk
      refine ⟨.block b :: segs', ?_, fun n => ?_, List.mem_cons_of_mem _ hmem, fun c hc => ?_⟩
      · rw [flat_cons, flat_cons, elems_block, hflat, List.set_append_right _ _ hlen]
      · rw [blocks, blocks, hblocks]
      · rcases List.mem_cons.mp hc with heq | hc
        · cases heq
        · exact (hold c hc).imp_left (List.mem_cons_of_mem _)

/-- A run of blanks lies between the blocks. -/
theorem exists_run (hsolid : Solid blank f) : ∀ {segs : List (Segment α β)} (start k : Nat),
    start + k ≤ (flat f segs).length →
    (∀ i, start ≤ i → i < start + k → ∀ a, (flat f segs)[i]? = some a → blank a = true) →
    0 < k → ∃ (xs : List (Segment α β)) (as : List α) (zs : List (Segment α β)), segs = xs ++ as.map Segment.blank ++ zs ∧ (flat f xs).length = start ∧
      as.length = k := by
  intro segs
  induction segs with
  | nil =>
    intro start k hlen _ hk
    rw [flat_nil, List.length_nil] at hlen
    omega
  | cons x segs ih =>
    intro start k hlen hrun hk
    cases x with
    | blank c =>
      rw [flat_cons, elems_blank, List.singleton_append] at hlen hrun
      rw [List.length_cons] at hlen
      cases start with
      | zero =>
        by_cases hone : k = 1
        · exact ⟨[], [c], segs, rfl, rfl, hone.symm⟩
        · obtain ⟨xs, as, zs, rfl, hxs, has⟩ := ih 0 (k - 1) (by omega)
            (fun i _ hi a ha => hrun (i + 1) (by omega) (by omega) a (by simpa using ha)) (by omega)
          -- the run goes on right behind the first blank
          have hnil : xs = [] := by
            cases xs with
            | nil => rfl
            | cons x xs =>
              have hpos : 0 < (x.elems f).length := by
                cases x with
                | blank a => exact Nat.one_pos
                | block b => exact List.length_pos_iff.mpr (hsolid b).1
              rw [flat_cons, List.length_append] at hxs
              omega
          subst hnil
          exact ⟨[], c :: as, zs, rfl, rfl, by rw [List.length_cons]; omega⟩
      | succ start =>
        obtain ⟨xs, as, zs, rfl, hxs, has⟩ := ih start k (by omega)
          (fun i hi hi' a ha => hrun (i + 1) (by omega) (by omega) a (by simpa using ha)) hk
        refine ⟨.blank c :: xs, as, zs, rfl, ?_, has⟩
        rw [flat_cons, elems_blank, List.singleton_append, List.length_cons, hxs]
    | block c =>
      rw [flat_cons, elems_block] at hlen hrun
      rw [List.length_append] at hlen
      have hpos := List.length_pos_iff.mpr (hsolid c).1
      by_cases hstart : start < (f c).length
      · have hget : (f c ++ flat f segs)[start]? = some (f c)[start] := by
          rw [List.getElem?_append_left hstart, List.getElem?_eq_getElem hstart]
        have := hrun start le_rfl (by omega) _ hget
        rw [(hsolid c).2 _ (List.getElem_mem hstart)] at this
        exact absurd this Bool.false_ne_true
      · obtain ⟨xs, as, zs, rfl, hxs, has⟩ := ih (start - (f c).length) k (by omega)
          (fun i hi hi' a ha => hrun (i + (f c).length) (by omega) (by omega) a (by
            rw [List.getElem?_append_right (by omega), Nat.add_sub_cancel]
            exact ha)) hk
        refine ⟨.block c :: xs, as, zs, rfl, ?_, has⟩
        rw [flat_cons, elems_block, List.length_append, hxs]
        omega

end rows

/-! ### Searching for a run -/

/-- One step of the search: the start and the length of the run of blanks that ends at place `n`. -/
def count (blank : α → Bool) (n : Nat) (a : α) (run : Nat × Nat) : Nat × Nat :=
  if blank a then (if run.2 = 0 then n else run.1, run.2 + 1) else (run.1, 0)

/-- The search for `need` blanks in a row: start and length of the run, and the place where the search has ended. -/
def search (blank : α → Bool) (need : Nat) : List α → Nat → Nat × Nat → Nat × Nat × Nat
  | [], n, run => (run.1, run.2, n)
  | a :: as, n, run =>
    let run := count blank n a run
    if need ≤ run.2 then (run.1, run.2, n + 1) else search blank need as (n + 1) run

/-- The first `n` elements of the list end with a run of `cnt` blanks and not with a longer one. -/
structure EndsRun (blank : α → Bool) (xs : List α) (n start cnt : Nat) : Prop where
  le : cnt ≤ n
  start : 0 < cnt → start + cnt = n
  blanks : ∀ i, n - cnt ≤ i → i < n → ∀ a, xs[i]? = some a → blank a = true
  maximal : n - cnt = 0 ∨ ∃ a, xs[n - cnt - 1]? = some a ∧ blank a = false

/-- A run of `k` blanks at `start` that no blank precedes. -/
structure RunAt (blank : α → Bool) (xs : List α) (start k : Nat) : Prop where
  le : start + k ≤ xs.length
  blanks : ∀ i, start ≤ i → i < start + k → ∀ a, xs[i]? = some a → blank a = true
  maximal : start = 0 ∨ ∃ a, xs[start - 1]? = some a ∧ blank a = false

section search

variable {blank : α → Bool} {xs : List α} {n start cnt need cur : Nat} {a : α}

private theorem endsRun_zero (blank : α → Bool) (xs : List α) (start : Nat) : EndsRun blank xs 0 start 0 :=
  ⟨le_rfl, fun h => absurd h (Nat.lt_irrefl 0), fun _ _ hi => absurd hi (Nat.not_lt_zero _), .inl rfl⟩

theorem EndsRun.count (h : EndsRun blank xs n start cnt) (ha : xs[n]? = some a) :
    EndsRun blank xs (n + 1) (count blank n a (start, cnt)).1 (count blank n a (start, cnt)).2 := by
  have hle := h.le
  rw [Segments.count]
  by_cases hblank : blank a = true
  · rw [if_pos hblank]
    refine ⟨by dsimp only; omega, fun _ => ?_, fun i hlo hi b hb => ?_, ?_⟩
    · dsimp only
      split
      · omega
      · have := h.start (by omega)
        omega
    · dsimp only at hlo
      by_cases hin : i = n
      · subst hin
        rw [ha] at hb
        rwa [← Option.some.inj hb]
      · exact h.blanks i (by omega) (by omega) b hb
    · dsimp only
      rw [Nat.add_sub_add_right]
      exact h.maximal
  · rw [if_neg hblank]
    exact ⟨Nat.zero_le _, fun h => absurd h (Nat.lt_irrefl 0), fun i hlo hi => absurd hlo (by dsimp only; omega),
      .inr ⟨a, ha, Bool.not_eq_true _ ▸ hblank⟩⟩

/-- The search ends at the first run that is long enough, or at the end of the list. -/
theorem search_spec : ∀ (ys : List α) {n start cnt : Nat}, cnt < need →
    EndsRun blank xs n start cnt → ys = xs.drop n → n ≤ xs.length →
    EndsRun blank xs (search blank need ys n (start, cnt)).2.2 (search blank need ys n (start, cnt)).1
        (search blank need ys n (start, cnt)).2.1 ∧
      ((search blank need ys n (start, cnt)).2.1 = need ∧ (search blank need ys n (start, cnt)).2.2 ≤ xs.length ∨
        (search blank need ys n (start, cnt)).2.1 < need ∧
          (search blank need ys n (start, cnt)).2.2 = xs.length) := by
  intro ys
  induction ys with
  | nil =>
    intro n start cnt hneed h hys hn
    have hlen := congrArg List.length hys
    rw [List.length_nil, List.length_drop] at hlen
    exact ⟨h, .inr ⟨hneed, by rw [search]; dsimp only; omega⟩⟩
  | cons a ys ih =>
    intro n start cnt hneed h hys hn
    have hlen := congrArg List.length hys
    rw [List.length_cons, List.length_drop] at hlen
    have ha : xs[n]? = some a := by
      rw [← List.head?_drop, ← hys, List.head?_cons]
    have hrest : ys = xs.drop (n + 1) := by
      rw [← List.tail_drop, ← hys, List.tail_cons]
    have hcount := h.count ha
    have hup : (Segments.count blank n a (start, cnt)).2 ≤ cnt + 1 := by
      rw [Segments.count]
      split
      · exact le_rfl
      · exact Nat.zero_le _
    rw [search]
    split
    · next hdone => exact ⟨hcount, .inl ⟨by dsimp only; omega, by dsimp only; omega⟩⟩
    · next hmore => exact ih (Nat.not_le.mp hmore) hcount hrest (by omega)

/-- What the search has found is a run of the length needed once enough blanks stand behind the list. -/
theorem runAt_of_search (hneed : 0 < need) {zs : List α} (hzs : ∀ a ∈ zs, blank a = true)
    (hsearch : search blank need xs 0 (0, 0) = (start, cnt, cur)) (hlen : need - cnt ≤ zs.length) :
    RunAt blank (xs ++ zs) (if cnt = 0 then cur else start) need := by
  obtain ⟨hends, hor⟩ := search_spec xs hneed (endsRun_zero blank xs 0) rfl (Nat.zero_le _)
  rw [hsearch] at hends hor
  dsimp only at hends hor
  have hle := hends.le
  have hstart : (if cnt = 0 then cur else start) = cur - cnt := by
    split
    · omega
    · have := hends.start (by omega)
      omega
  rw [hstart]
  refine ⟨by rw [List.length_append]; omega, fun i hlo hi a ha => ?_, ?_⟩
  · by_cases hin : i < xs.length
    · rw [List.getElem?_append_left hin] at ha
      exact hends.blanks i hlo (by omega) a ha
    · rw [List.getElem?_append_right (Nat.not_lt.mp hin)] at ha
      exact hzs a (List.mem_of_getElem? ha)
  · rcases hends.maximal with hzero | ⟨a, ha, hnot⟩
    · exact .inl hzero
    · refine .inr ⟨a, ?_, hnot⟩
      rw [List.getElem?_append_left (List.getElem?_eq_some_iff.mp ha).1]
      exact ha

end search

/-! ### A place for a block -/

section place

variable {blank stop : α → Bool} {f : β → List α} {segs xs : List (Segment α β)} {tail as : List α}
  {start k : Nat}

theorem blank_mem_map {a : α} : (Segment.blank a : Segment α β) ∈ as.map Segment.blank ↔ a ∈ as := by
  simp

private theorem not_ends_blank {a : α} (hlen : (flat f (xs ++ [.blank a])).length = start) (hblank : blank a = true)
    {ys : List α} (hmax : start = 0 ∨
      ∃ b, (flat f (xs ++ [.blank a]) ++ ys)[start - 1]? = some b ∧ blank b = false) : False := by
  rw [flat_append, flat_cons, flat_nil, List.append_nil, elems_blank] at hlen hmax
  rw [List.length_append, List.length_singleton] at hlen
  rcases hmax with hzero | ⟨b, hb, hnot⟩
  · omega
  · rw [List.append_assoc, List.getElem?_append_right (by omega), show start - 1 - (flat f xs).length = 0 by omega,
      List.singleton_append, List.getElem?_cons_zero, Option.some.injEq] at hb
    rw [← hb, hblank] at hnot
    exact absurd hnot Bool.true_eq_false.mp

/-- A maximal run of blanks in a row that ends in blanks: what is in front of it has no element of the tail, and what is behind it has a tail again. -/
theorem exists_place (hsolid : Solid blank f)
    (hok : ∀ a, .blank a ∈ segs → blank a = true ∧ stop a = false) (htail : ∀ a ∈ tail, blank a = true)
    (hstop : ∀ a ∈ tail.head?, stop a = true) (h : RunAt blank (flat f segs ++ tail) start k) (hk : 0 < k) :
    ∃ (xs : List (Segment α β)) (as : List α) (zs : List (Segment α β)) (t : List α),
      segs ++ tail.map .blank = xs ++ as.map .blank ++ (zs ++ t.map .blank) ∧ (flat f xs).length = start ∧
      as.length = k ∧ (∀ a, .blank a ∈ xs ++ zs → stop a = false) ∧ (∀ a ∈ t, blank a = true) ∧
      ∀ a ∈ t.head?, stop a = true := by
  have hflat : flat f (segs ++ tail.map .blank) = flat f segs ++ tail := by rw [flat_append, flat_blanks]
  rw [← hflat] at h
  obtain ⟨xs, as, rest, hrow, hxs, has⟩ := exists_run hsolid start k h.le h.blanks hk
  have hmax := h.maximal
  rw [hrow] at hmax
  rcases List.append_eq_append_iff.mp hrow with ⟨extra, hover, hrest⟩ | ⟨zs, hsegs, rfl⟩
  · -- the run reaches into the tail
    have hnew : ∀ x ∈ extra ++ rest, ∃ a ∈ tail, x = .blank a := fun x hx => by
      rw [← hrest] at hx
      obtain ⟨a, ha, rfl⟩ := List.mem_map.mp hx
      exact ⟨a, ha, rfl⟩
    obtain ⟨r, hr, htails⟩ : ∃ r : List α, rest = r.map .blank ∧ ∀ a ∈ r, a ∈ tail := by
      refine ⟨tail.drop extra.length, ?_, fun a ha => List.mem_of_mem_drop ha⟩
      rw [List.map_drop, hrest, List.drop_left]
    have hfront : ∀ a, .blank a ∈ xs → stop a = false := by
      intro a ha
      rcases List.append_eq_append_iff.mp hover with ⟨mid, hmid, -⟩ | ⟨mid, hmid, hmid'⟩
      · exact (hok a (hmid ▸ List.mem_append_left _ ha)).2
      · rcases List.eq_nil_or_concat mid with rfl | ⟨init, x, rfl⟩
        · rw [hmid, List.append_nil] at ha
          exact (hok a ha).2
        · obtain ⟨b, hb, rfl⟩ := hnew x (by rw [hmid']; simp)
          rw [hmid, List.concat_eq_append, ← List.append_assoc] at hxs hmax
          rw [List.append_assoc, flat_append] at hmax
          exact (not_ends_blank hxs (htail b hb) hmax).elim
    refine ⟨xs, as, (r.takeWhile fun a => !stop a).map .blank, r.dropWhile fun a => !stop a, ?_, hxs, has, ?_, ?_, ?_⟩
    · rw [hrow, hr, ← List.map_append, List.takeWhile_append_dropWhile]
    · intro a ha
      rcases List.mem_append.mp ha with ha | ha
      · exact hfront a ha
      · have := List.all_eq_true.mp List.all_takeWhile a (blank_mem_map.mp ha)
        simpa using this
    · exact fun a ha => htail a (htails a ((List.dropWhile_sublist _).mem ha))
    · intro a ha
      have := List.head?_dropWhile_not (fun a => !stop a) r
      rw [Option.mem_def.mp ha] at this
      simpa using this
  · refine ⟨xs, as, zs, tail, hrow, hxs, has, fun a ha => ?_, htail, hstop⟩
    refine (hok a ?_).2
    rw [hsegs]
    rcases List.mem_append.mp ha with ha | ha
    · exact List.mem_append_left _ (List.mem_append_left _ ha)
    · exact List.mem_append_right _ ha

end place

/-! ### Writing to places -/

/-- The list after some of its places have been written, one after the other. -/
def writeAll (xs : List α) (writes : List (Nat × α)) : List α :=
  writes.foldl (fun xs w => xs.set w.1 w.2) xs

section writes

variable {xs ys : List α} {writes : List (Nat × α)} {n start : Nat} {a : α}

@[simp] theorem writeAll_nil : writeAll xs [] = xs := rfl

@[simp] theorem writeAll_cons (w : Nat × α) : writeAll xs (w :: writes) = writeAll (xs.set w.1 w.2) writes := rfl

@[simp] theorem length_writeAll : ∀ {xs : List α}, (writeAll xs writes).length = xs.length := by
  induction writes with
  | nil => exact rfl
  | cons w writes ih =>
    intro xs
    rw [writeAll_cons, ih, List.length_set]

theorem getElem?_writeAll_of_notMem : ∀ {xs : List α}, n ∉ writes.map Prod.fst →
    (writeAll xs writes)[n]? = xs[n]? := by
  induction writes with
  | nil => exact fun _ => rfl
  | cons w writes ih =>
    intro xs hn
    rw [List.map_cons, List.mem_cons, not_or] at hn
    rw [writeAll_cons, ih hn.2, List.getElem?_set_ne (Ne.symm hn.1)]

theorem getElem?_writeAll_of_mem : ∀ {xs : List α}, (writes.map Prod.fst).Nodup → (n, a) ∈ writes →
    n < xs.length → (writeAll xs writes)[n]? = some a := by
  induction writes with
  | nil => exact fun _ h => absurd h List.not_mem_nil
  | cons w writes ih =>
    intro xs hnodup hmem hn
    obtain ⟨hfst, hnodup⟩ := List.nodup_cons.mp hnodup
    rw [writeAll_cons]
    rcases List.mem_cons.mp hmem with heq | hmem
    · obtain rfl := heq
      rw [getElem?_writeAll_of_notMem hfst, List.getElem?_set_self hn]
    · exact ih hnodup hmem (by rwa [List.length_set])

theorem writeAll_run (start : Nat) (ys : List α) (hnodup : (writes.map Prod.fst).Nodup)
    (hplaces : ∀ n, n ∈ writes.map Prod.fst → start ≤ n ∧ n < start + ys.length)
    (hwrites : ∀ i a, ys[i]? = some a → (start + i, a) ∈ writes) (hlen : start + ys.length ≤ xs.length) :
    writeAll xs writes = xs.take start ++ ys ++ xs.drop (start + ys.length) := by
  have htake : (xs.take start).length = start := List.length_take_of_le (by omega)
  apply List.ext_getElem?
  intro n
  by_cases hbefore : n < start
  · rw [getElem?_writeAll_of_notMem fun h => by have := hplaces n h; omega, List.append_assoc,
      List.getElem?_append_left (by omega), List.getElem?_take_of_lt hbefore]
  · rw [List.append_assoc, List.getElem?_append_right (by omega), htake]
    by_cases hin : n < start + ys.length
    · rw [List.getElem?_append_left (by omega)]
      have hget := List.getElem?_eq_getElem (show n - start < ys.length by omega)
      have hmem := hwrites _ _ hget
      rw [Nat.add_sub_cancel' (Nat.not_lt.mp hbefore)] at hmem
      rw [hget, getElem?_writeAll_of_mem hnodup hmem (by omega)]
    · rw [getElem?_writeAll_of_notMem fun h => by have := hplaces n h; omega,
        List.getElem?_append_right (by omega), List.getElem?_drop]
      congr 1
      omega

end writes

end Segments
