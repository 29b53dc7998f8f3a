import Mathlib.Data.List.Nodup
import Mathlib.Data.List.Basic
import Mathlib.Data.List.Lattice
import Mathlib.Order.BooleanAlgebra.Set
import Mathlib.Logic.Function.Basic
import Mathlib.Tactic.Tauto

/-!
# Linked lists in a table

A table gives every cell a successor, and some values are marks at which a list ends. A walk from a cell is the list of the cells met before the first mark. Everything here is about one table function and holds for any type of cells: a walk is determined by its start, it never meets a cell twice, and it survives every change of the table outside its cells. A walk may also overwrite the cells it has passed; `Within` says that such a walk stays among good cells.

The second half is about the owners of a table: a family of heads whose walks are pairwise disjoint. It says what the four ways of changing such a table do to the family: linking up fresh cells, releasing a walk, cutting one short and extending one.
-/

namespace LinkedTable

variable {α : Type*}

/-- Following `next` from `a` meets exactly the cells of `l` and arrives at `b`. -/
def Path (next : α → α) : α → List α → α → Prop
  | a, [], b => a = b
  | a, x :: l, b => x = a ∧ Path next (next x) l b

@[simp] theorem path_nil {next : α → α} {a b : α} : Path next a [] b ↔ a = b := Iff.rfl

@[simp] theorem path_cons {next : α → α} {a x b : α} {l : List α} :
    Path next a (x :: l) b ↔ x = a ∧ Path next (next x) l b := Iff.rfl

private theorem path_congr {next next' : α → α} {l : List α} (h : ∀ x ∈ l, next' x = next x) {a b : α} :
    Path next' a l b ↔ Path next a l b := by
  induction l generalizing a with
  | nil => rfl
  | cons x l ih =>
    rw [path_cons, path_cons, h x List.mem_cons_self]
    exact and_congr_right fun _ => ih fun y hy => h y (List.mem_cons_of_mem x hy)

private theorem Path.iterate {next : α → α} {a b : α} {l : List α} (h : Path next a l b) :
    next^[l.length] a = b := by
  induction l generalizing a with
  | nil => exact h
  | cons x l ih =>
    obtain ⟨rfl, h⟩ := h
    exact ih h

/-- The walk from `a` up to the first mark. -/
def Walk (next : α → α) (stop : α → Prop) (a : α) (l : List α) : Prop :=
  ∃ b, Path next a l b ∧ stop b ∧ ∀ x ∈ l, ¬ stop x

section walk

variable {next next' : α → α} {stop : α → Prop} {a b : α} {l l₁ l₂ : List α}

theorem walk_nil : Walk next stop a [] ↔ stop a := by
  simp [Walk]

theorem walk_cons {x : α} :
    Walk next stop a (x :: l) ↔ x = a ∧ ¬ stop x ∧ Walk next stop (next x) l := by
  simp only [Walk, path_cons, List.forall_mem_cons]
  constructor
  · rintro ⟨b, ⟨hx, hpath⟩, hstop, hlive, hrest⟩
    exact ⟨hx, hlive, b, hpath, hstop, hrest⟩
  · rintro ⟨hx, hlive, b, hpath, hstop, hrest⟩
    exact ⟨b, ⟨hx, hpath⟩, hstop, hlive, hrest⟩

theorem Walk.frame (h : Walk next stop a l) (hl : ∀ x ∈ l, next' x = next x) :
    Walk next' stop a l := by
  obtain ⟨b, hpath, hstop, hlive⟩ := h
  exact ⟨b, (path_congr hl).mpr hpath, hstop, hlive⟩

theorem Walk.unique (h₁ : Walk next stop a l₁) (h₂ : Walk next stop a l₂) : l₁ = l₂ := by
  induction l₁ generalizing a l₂ with
  | nil =>
    cases l₂ with
    | nil => rfl
    | cons y l₂ =>
      obtain ⟨rfl, hy, -⟩ := walk_cons.mp h₂
      exact absurd (walk_nil.mp h₁) hy
  | cons x l₁ ih =>
    obtain ⟨rfl, hx, h₁⟩ := walk_cons.mp h₁
    cases l₂ with
    | nil => exact absurd (walk_nil.mp h₂) hx
    | cons y l₂ =>
      obtain ⟨rfl, -, h₂⟩ := walk_cons.mp h₂
      rw [ih h₁ h₂]

theorem Walk.suffix (h : Walk next stop a (l₁ ++ b :: l₂)) : Walk next stop b (b :: l₂) := by
  induction l₁ generalizing a with
  | nil =>
    obtain ⟨rfl, hb, h⟩ := walk_cons.mp h
    exact walk_cons.mpr ⟨rfl, hb, h⟩
  | cons x l₁ ih => exact ih (walk_cons.mp h).2.2

/-- A walk that ends has no cycle. -/
theorem Walk.nodup (h : Walk next stop a l) : l.Nodup := by
  induction l generalizing a with
  | nil => exact List.nodup_nil
  | cons x l ih =>
    obtain ⟨rfl, hx, htail⟩ := walk_cons.mp h
    refine List.nodup_cons.mpr ⟨fun hmem => ?_, ih htail⟩
    obtain ⟨l₁, l₂, rfl⟩ := List.append_of_mem hmem
    have hagain : Walk next stop x ((x :: l₁) ++ x :: l₂) := h
    have hsame := h.unique hagain.suffix
    have hlen := congrArg List.length hsame
    simp only [List.length_cons, List.length_append] at hlen
    omega

theorem Walk.head_eq (h : Walk next stop a l) (hl : l ≠ []) : ∃ tail, l = a :: tail := by
  obtain ⟨x, tail, rfl⟩ := List.exists_cons_of_ne_nil hl
  exact ⟨tail, by rw [(walk_cons.mp h).1]⟩

theorem Walk.ne_nil (h : Walk next stop a l) (ha : ¬ stop a) : l ≠ [] := by
  rintro rfl
  exact ha (walk_nil.mp h)

theorem Walk.head_mem (h : Walk next stop a l) (ha : ¬ stop a) : a ∈ l := by
  obtain ⟨tail, rfl⟩ := h.head_eq (h.ne_nil ha)
  exact List.mem_cons_self

theorem Walk.next_mem (h : Walk next stop a l) {x : α} (hx : x ∈ l) :
    next x ∈ l ∨ stop (next x) := by
  obtain ⟨l₁, l₂, rfl⟩ := List.append_of_mem hx
  have htail := (walk_cons.mp h.suffix).2.2
  cases l₂ with
  | nil => exact .inr (walk_nil.mp htail)
  | cons y l₂ =>
    obtain ⟨rfl, -, -⟩ := walk_cons.mp htail
    exact .inl (by simp)

theorem Walk.le_length (h : Walk next stop a l) {n : Nat} (hlive : ∀ j < n, ¬ stop (next^[j] a)) :
    n ≤ l.length := by
  obtain ⟨b, hpath, hstop, -⟩ := h
  by_contra hlt
  exact hlive l.length (by omega) (hpath.iterate ▸ hstop)

theorem Walk.splice {r : List α} (h : Walk next stop a (l₁ ++ b :: l₂))
    (hkeep : ∀ x ∈ l₁, next' x = next x) (hr : Walk next' stop (next' b) r) :
    Walk next' stop a (l₁ ++ b :: r) := by
  induction l₁ generalizing a with
  | nil =>
    obtain ⟨rfl, hb, -⟩ := walk_cons.mp h
    exact walk_cons.mpr ⟨rfl, hb, hr⟩
  | cons x l₁ ih =>
    obtain ⟨rfl, hx, h⟩ := walk_cons.mp h
    refine walk_cons.mpr ⟨rfl, hx, ?_⟩
    rw [hkeep x List.mem_cons_self]
    exact ih h fun y hy => hkeep y (List.mem_cons_of_mem x hy)

end walk

/-! ### Changing a table -/

section update

variable [DecidableEq α]

/-- The table in which the cells of `l` form a list that ends in `mark`. -/
def link (next : α → α) (mark : α) : List α → α → α
  | [], x => next x
  | [a], x => if x = a then mark else next x
  | a :: b :: l, x => if x = a then b else link next mark (b :: l) x

/-- The table in which the cells of `l` carry `mark`. -/
def fill (next : α → α) (mark : α) (l : List α) (x : α) : α :=
  if x ∈ l then mark else next x

variable {next : α → α} {stop : α → Prop} {mark : α}

theorem link_of_notMem {l : List α} {x : α} (hx : x ∉ l) : link next mark l x = next x := by
  induction l with
  | nil => rfl
  | cons a l ih =>
    rw [List.mem_cons, not_or] at hx
    cases l with
    | nil => rw [link, if_neg hx.1]
    | cons b l => rw [link, if_neg hx.1, ih hx.2]

/-- A property of the mark, of the cells and of the old values is one of the new values. -/
theorem link_induction {p : α → Prop} {l : List α} (hmark : p mark) (hcells : ∀ x ∈ l, p x)
    (hold : ∀ x, p (next x)) (x : α) : p (link next mark l x) := by
  induction l with
  | nil => exact hold x
  | cons a l ih =>
    have hrest := ih fun y hy => hcells y (List.mem_cons_of_mem a hy)
    cases l with
    | nil =>
      rw [link]
      split
      · exact hmark
      · exact hold x
    | cons b l =>
      rw [link]
      split
      · exact hcells b (by simp)
      · exact hrest

theorem fill_of_mem {l : List α} {x : α} (hx : x ∈ l) : fill next mark l x = mark := if_pos hx

theorem fill_of_notMem {l : List α} {x : α} (hx : x ∉ l) : fill next mark l x = next x := if_neg hx

theorem link_singleton (a : α) : link next mark [a] = Function.update next a mark := by
  funext x
  rw [link, Function.update_apply]

theorem link_update_cons {a b : α} {l : List α} (ha : a ∉ b :: l) :
    link (Function.update next a b) mark (b :: l) = link next mark (a :: b :: l) := by
  have base : ∀ (l : List α) (b : α) (x : α), x ≠ a →
      link (Function.update next a b) mark l x = link next mark l x := by
    intro l
    induction l with
    | nil => exact fun b x hx => Function.update_of_ne hx _ _
    | cons c l ih =>
      intro b x hx
      cases l with
      | nil => simp only [link, Function.update_of_ne hx]
      | cons e l => rw [link, link, ih b x hx]
  funext x
  by_cases hx : x = a
  · subst hx
    rw [link_of_notMem ha, Function.update_self, link, if_pos rfl]
  · rw [base _ _ _ hx, link, if_neg hx]

theorem fill_nil : fill next mark [] = next := by
  funext x
  exact fill_of_notMem List.not_mem_nil

theorem fill_update_cons (a : α) (l : List α) :
    fill (Function.update next a mark) mark l = fill next mark (a :: l) := by
  funext x
  by_cases hxa : x = a
  · subst hxa
    by_cases hxl : x ∈ l <;> simp [fill, hxl]
  · by_cases hxl : x ∈ l <;> simp [fill, hxl, hxa]

/-- Linking up cells makes them the walk from the first of them. -/
theorem walk_link {a : α} {l : List α} (hnodup : (a :: l).Nodup) (hmark : stop mark)
    (hlive : ∀ x ∈ a :: l, ¬ stop x) : Walk (link next mark (a :: l)) stop a (a :: l) := by
  induction l generalizing a with
  | nil =>
    refine walk_cons.mpr ⟨rfl, hlive a List.mem_cons_self, walk_nil.mpr ?_⟩
    simpa [link] using hmark
  | cons b l ih =>
    obtain ⟨ha, htail⟩ := List.nodup_cons.mp hnodup
    refine walk_cons.mpr ⟨rfl, hlive a List.mem_cons_self, ?_⟩
    have hb := ih htail fun x hx => hlive x (List.mem_cons_of_mem a hx)
    rw [show link next mark (a :: b :: l) a = b from if_pos rfl]
    exact hb.frame fun x hx => if_neg (ne_of_mem_of_not_mem hx ha)

theorem Walk.cut {a e : α} {keep drop : List α} (h : Walk next stop a (keep ++ e :: drop))
    (hmark : stop mark) (free : α) :
    Walk (fill (Function.update next e mark) free drop) stop a (keep ++ [e]) := by
  have hnodup := h.nodup
  have hout : ∀ x ∈ keep ++ [e], x ∉ drop := by
    have hsplit : ((keep ++ [e]) ++ drop).Nodup := by simpa using hnodup
    exact fun x hx hdrop => (List.disjoint_of_nodup_append hsplit) hx hdrop
  refine h.splice (fun x hx => ?_) ?_
  · have hne : x ≠ e := by
      rintro rfl
      exact (List.disjoint_of_nodup_append hnodup) hx List.mem_cons_self
    rw [fill_of_notMem (hout x (List.mem_append_left _ hx)), Function.update_of_ne hne]
  · rw [fill_of_notMem (hout e (by simp)), Function.update_self]
    exact walk_nil.mpr hmark

theorem Walk.extend {a e b : α} {keep l : List α} (h : Walk next stop a (keep ++ [e]))
    (hmark : stop mark) (hnodup : (b :: l).Nodup) (hlive : ∀ x ∈ b :: l, ¬ stop x)
    (hfresh : ∀ x ∈ b :: l, x ∉ keep ++ [e]) :
    Walk (Function.update (link next mark (b :: l)) e b) stop a (keep ++ e :: b :: l) := by
  have hne : e ∉ b :: l := fun hmem => hfresh e hmem (by simp)
  refine Walk.splice h (fun x hx => ?_) ?_
  · have hxe : x ≠ e := by
      rintro rfl
      exact (List.disjoint_of_nodup_append h.nodup) hx (by simp)
    rw [Function.update_of_ne hxe, link_of_notMem]
    exact fun hmem => hfresh x hmem (List.mem_append_left _ hx)
  · rw [Function.update_self]
    exact (walk_link hnodup hmark hlive).frame fun x hx =>
      Function.update_of_ne (ne_of_mem_of_not_mem hx hne) _ _

end update

/-! ### Walks that change what they pass -/

section trail

variable [DecidableEq α]

/-- The table after the cell `a` has been left; without a value nothing is written. -/
def leave (next : α → α) (a : α) : Option α → α → α
  | none => next
  | some v => Function.update next a v

/-- The cell that a walk has come to after some rounds, when round `k` leaves `put k` in the cell it has read. -/
def trail (put : Nat → Option α) : (α → α) → Nat → α → Nat → α
  | _, _, a, 0 => a
  | next, k, a, j + 1 => trail put (leave next a (put k)) (k + 1) (next a) j

/-- Every cell that the walk comes to before a mark is good. -/
def Within (stop good : α → Prop) (put : Nat → Option α) (next : α → α) (k : Nat) (a : α) : Prop :=
  ∀ j, (∀ i ≤ j, ¬ stop (trail put next k a i)) → good (trail put next k a j)

variable {stop good : α → Prop} {put : Nat → Option α} {next next' : α → α} {k : Nat} {a : α}

theorem leave_of_ne {x : α} (hx : x ≠ a) (o : Option α) : leave next a o x = next x := by
  cases o with
  | none => rfl
  | some v => exact Function.update_of_ne hx _ _

theorem leave_self (o : Option α) : leave next a o a = o.getD (next a) := by
  cases o with
  | none => rfl
  | some v => exact Function.update_self _ _ _

theorem Within.head (h : Within stop good put next k a) (ha : ¬ stop a) : good a :=
  h 0 fun i hi => by
    obtain rfl := Nat.le_zero.mp hi
    exact ha

theorem Within.tail (h : Within stop good put next k a) (ha : ¬ stop a) :
    Within stop good put (leave next a (put k)) (k + 1) (next a) := by
  intro j hlive
  refine h (j + 1) fun i hi => ?_
  cases i with
  | zero => exact ha
  | succ i => exact hlive i (Nat.le_of_succ_le_succ hi)

theorem Within.congr (h : Within stop good put next k a) (hsame : ∀ x, good x → next' x = next x) :
    Within stop good put next' k a := by
  intro j
  induction j generalizing next next' k a with
  | zero => exact fun hlive => h.head (hlive 0 le_rfl)
  | succ j ih =>
    intro hlive
    have ha : ¬ stop a := hlive 0 (Nat.zero_le _)
    have hnext := hsame a (h.head ha)
    have hleave : ∀ x, good x → leave next' a (put k) x = leave next a (put k) x := by
      intro x hx
      by_cases hxa : x = a
      · rw [hxa, leave_self, leave_self, hnext]
      · rw [leave_of_ne hxa, leave_of_ne hxa, hsame x hx]
    have hlive' : ∀ i ≤ j, ¬ stop (trail put (leave next' a (put k)) (k + 1) (next' a) i) :=
      fun i hi => hlive (i + 1) (Nat.succ_le_succ hi)
    rw [trail]
    rw [hnext] at hlive' ⊢
    exact ih (h.tail ha) hleave hlive'

/-- A walk through good cells never leaves them, whatever it writes. -/
theorem Walk.within {l : List α} (h : Walk next stop a l) (hgood : ∀ x ∈ l, good x)
    (put : Nat → Option α) (k : Nat) : Within stop good put next k a := by
  induction l generalizing next a k with
  | nil => exact fun j hlive => absurd (walk_nil.mp h) (hlive 0 (Nat.zero_le j))
  | cons x l ih =>
    have hxl : x ∉ l := (List.nodup_cons.mp h.nodup).1
    obtain ⟨rfl, -, htail⟩ := walk_cons.mp h
    have hrest := ih (htail.frame fun y hy => leave_of_ne (ne_of_mem_of_not_mem hy hxl) (put k))
      (fun y hy => hgood y (List.mem_cons_of_mem x hy)) (k + 1)
    intro j hlive
    cases j with
    | zero => exact hgood x List.mem_cons_self
    | succ j => exact hrest j fun i hi => hlive (i + 1) (Nat.succ_le_succ hi)

end trail

/-! ### Owners -/

/-- The lists of a table: every head starts a walk through good cells, and two heads share no cell. -/
structure Owners (next : α → α) (stop good : α → Prop) (heads : Set α) : Prop where
  walk : ∀ h ∈ heads, ∃ l, Walk next stop h l ∧ ∀ x ∈ l, good x
  live : ∀ h ∈ heads, ¬ stop h
  disjoint : ∀ h ∈ heads, ∀ h' ∈ heads, h ≠ h' → ∀ l l',
    Walk next stop h l → Walk next stop h' l' → l.Disjoint l'

section owners

variable {next next' : α → α} {stop good : α → Prop} {heads : Set α}

theorem Owners.good_of_mem (ho : Owners next stop good heads) {h : α} (hh : h ∈ heads) {l : List α}
    (hw : Walk next stop h l) {x : α} (hx : x ∈ l) : good x := by
  obtain ⟨l', hw', hgood⟩ := ho.walk h hh
  rw [hw.unique hw'] at hx
  exact hgood x hx

theorem Owners.good_head (ho : Owners next stop good heads) {h : α} (hh : h ∈ heads) : good h := by
  obtain ⟨l, hw, hgood⟩ := ho.walk h hh
  exact hgood h (hw.head_mem (ho.live h hh))

theorem Owners.notMem_of_free (ho : Owners next stop good heads) {free : α} (hgood : ¬ good free)
    (hstop : ¬ stop free) {x : α} (hx : next x = free) {h : α} (hh : h ∈ heads) {l : List α}
    (hw : Walk next stop h l) : x ∉ l := by
  intro hmem
  rcases hw.next_mem hmem with hin | hend
  · exact hgood (hx ▸ ho.good_of_mem hh hw hin)
  · exact hstop (hx ▸ hend)

theorem Owners.mono (ho : Owners next stop good heads) {rest : Set α} (hsub : rest ⊆ heads) :
    Owners next stop good rest where
  walk h hh := ho.walk h (hsub hh)
  live h hh := ho.live h (hsub hh)
  disjoint h hh h' hh' := ho.disjoint h (hsub hh) h' (hsub hh')

theorem Owners.walk_iff (ho : Owners next stop good heads)
    (hframe : ∀ h ∈ heads, ∀ l, Walk next stop h l → ∀ x ∈ l, next' x = next x) {h : α}
    (hh : h ∈ heads) {l : List α} : Walk next' stop h l ↔ Walk next stop h l := by
  obtain ⟨l₀, hw₀, -⟩ := ho.walk h hh
  have hw₀' := hw₀.frame (hframe h hh l₀ hw₀)
  exact ⟨fun hw => hw.unique hw₀' ▸ hw₀, fun hw => hw.unique hw₀ ▸ hw₀'⟩

theorem Owners.frame (ho : Owners next stop good heads)
    (hframe : ∀ h ∈ heads, ∀ l, Walk next stop h l → ∀ x ∈ l, next' x = next x) :
    Owners next' stop good heads where
  walk h hh := by
    obtain ⟨l, hw, hgood⟩ := ho.walk h hh
    exact ⟨l, (ho.walk_iff hframe hh).mpr hw, hgood⟩
  live := ho.live
  disjoint h hh h' hh' hne l l' hw hw' :=
    ho.disjoint h hh h' hh' hne l l' ((ho.walk_iff hframe hh).mp hw) ((ho.walk_iff hframe hh').mp hw')

theorem Owners.add (ho : Owners next stop good heads) {h₀ : α} {l₀ : List α}
    (hw₀ : Walk next stop h₀ l₀) (hgood : ∀ x ∈ l₀, good x) (hlive : ¬ stop h₀)
    (hapart : ∀ h ∈ heads, ∀ l, Walk next stop h l → l.Disjoint l₀) :
    Owners next stop good (insert h₀ heads) where
  walk h hh := by
    rcases hh with rfl | hh
    · exact ⟨l₀, hw₀, hgood⟩
    · exact ho.walk h hh
  live h hh := by
    rcases hh with rfl | hh
    · exact hlive
    · exact ho.live h hh
  disjoint h hh h' hh' hne l l' hw hw' := by
    rcases hh with rfl | hh <;> rcases hh' with rfl | hh'
    · exact absurd rfl hne
    · rw [hw.unique hw₀]
      exact List.disjoint_symm (hapart h' hh' l' hw')
    · rw [hw'.unique hw₀]
      exact hapart h hh l hw
    · exact ho.disjoint h hh h' hh' hne l l' hw hw'

theorem Owners.notMem_of_mem (ho : Owners next stop good heads) {h h' : α} (hh : h ∈ heads)
    (hh' : h' ∈ heads) (hne : h' ≠ h) {l l' : List α} (hw : Walk next stop h l)
    (hw' : Walk next stop h' l') {x : α} (hx : x ∈ l) : x ∉ l' :=
  fun hx' => ho.disjoint h' hh' h hh hne l' l hw' hw hx' hx

/-! The four ways to change the lists of a table. -/

section changes

variable [DecidableEq α] {mark free : α}

/-- Linking up cells that lie on no list makes a new list. -/
theorem Owners.link_fresh (ho : Owners next stop good heads) (hmark : stop mark) {a : α} {l : List α}
    (hnodup : (a :: l).Nodup) (hgood : ∀ x ∈ a :: l, good x) (hlive : ∀ x ∈ a :: l, ¬ stop x)
    (hfresh : ∀ h ∈ heads, ∀ l', Walk next stop h l' → ∀ x ∈ a :: l, x ∉ l') :
    Owners (link next mark (a :: l)) stop good (insert a heads) := by
  have hframe : ∀ h ∈ heads, ∀ l', Walk next stop h l' → ∀ x ∈ l',
      link next mark (a :: l) x = next x :=
    fun h hh l' hw x hx => link_of_notMem fun hmem => hfresh h hh l' hw x hmem hx
  refine (ho.frame hframe).add (walk_link hnodup hmark hlive) hgood (hlive a List.mem_cons_self) ?_
  intro h hh l' hw x hx hmem
  exact hfresh h hh l' ((ho.walk_iff hframe hh).mp hw) x hmem hx

/-- Releasing a list leaves the others. -/
theorem Owners.release (ho : Owners next stop good heads) {h₀ : α} (hh₀ : h₀ ∈ heads) {l : List α}
    (hw₀ : Walk next stop h₀ l) : Owners (fill next free l) stop good (heads \ {h₀}) := by
  refine (ho.mono Set.sdiff_subset).frame fun h hh l' hw x hx => fill_of_notMem fun hmem => ?_
  exact ho.notMem_of_mem hh₀ hh.1 hh.2 hw₀ hw hmem hx

/-- Cutting a list leaves the others. -/
theorem Owners.cut (ho : Owners next stop good heads) (hmark : stop mark) {h₀ e : α}
    (hh₀ : h₀ ∈ heads) {keep drop : List α} (hw₀ : Walk next stop h₀ (keep ++ e :: drop)) :
    Owners (fill (Function.update next e mark) free drop) stop good heads := by
  have hframe : ∀ h ∈ heads \ {h₀}, ∀ l', Walk next stop h l' → ∀ x ∈ l',
      fill (Function.update next e mark) free drop x = next x := by
    intro h hh l' hw x hx
    have hout : x ∉ keep ++ e :: drop := fun hmem =>
      ho.notMem_of_mem hh₀ hh.1 hh.2 hw₀ hw hmem hx
    have hne : x ≠ e := by
      rintro rfl
      exact hout (by simp)
    rw [fill_of_notMem fun hmem => hout (by simp [hmem]), Function.update_of_ne hne]
  have hsub : ∀ x ∈ keep ++ [e], x ∈ keep ++ e :: drop := by
    intro x hx
    simp only [List.mem_append, List.mem_cons, List.not_mem_nil, or_false] at hx ⊢
    tauto
  rw [← Set.insert_sdiff_self_of_mem hh₀]
  refine ((ho.mono Set.sdiff_subset).frame hframe).add (hw₀.cut hmark free)
    (fun x hx => ho.good_of_mem hh₀ hw₀ (hsub x hx)) (ho.live h₀ hh₀) ?_
  intro h hh l' hw x hx hmem
  have hw' := ((ho.mono Set.sdiff_subset).walk_iff hframe hh).mp hw
  exact ho.notMem_of_mem hh₀ hh.1 hh.2 hw₀ hw' (hsub x hmem) hx

/-- Extending a list by cells that lie on no list. -/
theorem Owners.extend (ho : Owners next stop good heads) (hmark : stop mark) {h₀ e b : α}
    (hh₀ : h₀ ∈ heads) {keep l : List α} (hw₀ : Walk next stop h₀ (keep ++ [e]))
    (hnodup : (b :: l).Nodup) (hgood : ∀ x ∈ b :: l, good x) (hlive : ∀ x ∈ b :: l, ¬ stop x)
    (hfresh : ∀ h ∈ heads, ∀ l', Walk next stop h l' → ∀ x ∈ b :: l, x ∉ l') :
    Owners (Function.update (link next mark (b :: l)) e b) stop good heads := by
  have hframe : ∀ h ∈ heads \ {h₀}, ∀ l', Walk next stop h l' → ∀ x ∈ l',
      Function.update (link next mark (b :: l)) e b x = next x := by
    intro h hh l' hw x hx
    have hne : x ≠ e := by
      rintro rfl
      exact ho.notMem_of_mem hh₀ hh.1 hh.2 hw₀ hw (by simp) hx
    rw [Function.update_of_ne hne, link_of_notMem fun hmem => hfresh h hh.1 l' hw x hmem hx]
  rw [← Set.insert_sdiff_self_of_mem hh₀]
  refine ((ho.mono Set.sdiff_subset).frame hframe).add
    (hw₀.extend hmark hnodup hlive (hfresh h₀ hh₀ _ hw₀)) ?_ (ho.live h₀ hh₀) ?_
  · intro x hx
    simp only [List.mem_append, List.mem_cons] at hx
    rcases hx with hx | rfl | hx
    · exact ho.good_of_mem hh₀ hw₀ (List.mem_append_left _ hx)
    · exact ho.good_of_mem hh₀ hw₀ (by simp)
    · exact hgood x (List.mem_cons.mpr hx)
  · intro h hh l' hw x hx hmem
    have hw' := ((ho.mono Set.sdiff_subset).walk_iff hframe hh).mp hw
    simp only [List.mem_append, List.mem_cons] at hmem
    rcases hmem with hmem | rfl | hmem
    · exact ho.notMem_of_mem hh₀ hh.1 hh.2 hw₀ hw' (List.mem_append_left _ hmem) hx
    · exact ho.notMem_of_mem hh₀ hh.1 hh.2 hw₀ hw' (by simp) hx
    · exact hfresh h hh.1 l' hw' x (List.mem_cons.mpr hmem) hx

end changes

end owners

end LinkedTable
