import FuseFat32.Fat.Scan
import Mathlib.Data.List.Perm.Subperm

/-!
# The pointer walks

`readClusChains`, `freeClus` and `resize` follow the table from a cluster to the first end-of-chain value, the last two while they overwrite what they have passed. Each of them is described here by the walk of the table it starts from: releasing a chain fills it with zeros, cutting one marks its new end and releases the rest, growing one links the freshly allocated clusters behind its last cluster.
-/

namespace FuseFat32

open LinkedTable

/-- `isEndOfClusChain` as a proposition. -/
abbrev Eoc (clus : Nat) : Prop := isEndOfClusChain clus = true

theorem eoc_kFat32EocMark : Eoc kFat32EocMark := by decide

theorem not_eoc_zero : ¬ Eoc 0 := by decide

/-- A cluster chain in the data area: it ends, and all its clusters are data clusters. -/
structure BPB.Chain (bpb : BPB) (T : Nat → Nat) (head : Nat) (l : List Nat) : Prop where
  walk : Walk T Eoc head l
  data : ∀ x ∈ l, bpb.DataClus x

/-- The clusters of a file or directory with first cluster `head`: none when that is 0. -/
def BPB.ChainOf (bpb : BPB) (T : Nat → Nat) (head : Nat) (l : List Nat) : Prop :=
  (head = 0 ∧ l = []) ∨ (bpb.DataClus head ∧ bpb.Chain T head l)

theorem not_dataClus_zero (bpb : BPB) : ¬ bpb.DataClus 0 := fun h => absurd h.1 (by decide)

theorem isValidCluster_of_dataClus {bpb : BPB} {n : Nat} (hn : bpb.DataClus n) :
    isValidCluster n = true := by
  have := hn.1
  simp only [isValidCluster, decide_eq_true_eq]
  omega

theorem BPB.Chain.length_le {bpb : BPB} {T : Nat → Nat} {head : Nat} {l : List Nat}
    (hc : bpb.Chain T head l) : l.length ≤ bpb.clusCnt := by
  have hsub : l ⊆ List.range' 2 bpb.clusCnt := by
    intro x hx
    have hdata := hc.data x hx
    rw [List.mem_range'_1]
    exact ⟨hdata.1, by have := hdata.2; omega⟩
  simpa using (hc.walk.nodup.subperm hsub).length_le

theorem BPB.ChainOf.length_le {bpb : BPB} {T : Nat → Nat} {head : Nat} {l : List Nat}
    (hc : bpb.ChainOf T head l) : l.length ≤ bpb.clusCnt := by
  rcases hc with ⟨-, rfl⟩ | ⟨-, hc⟩
  · exact Nat.zero_le _
  · exact hc.length_le

theorem BPB.Chain.lt_walkFuel {bpb : BPB} (hs : bpb.Sound) {T : Nat → Nat} {head : Nat} {l : List Nat}
    (hc : bpb.Chain T head l) : l.length < walkFuel := by
  have hlen := hc.length_le
  have hcnt := hs.clusCnt_le
  simp only [walkFuel]
  omega

theorem BPB.Chain.ne_nil {bpb : BPB} (hs : bpb.Sound) {T : Nat → Nat} {head : Nat} {l : List Nat}
    (hc : bpb.Chain T head l) (hhead : bpb.DataClus head) : l ≠ [] :=
  hc.walk.ne_nil (hs.not_endOfClusChain hhead)

theorem BPB.ChainOf.unique {bpb : BPB} {T : Nat → Nat} {head : Nat} {l l' : List Nat}
    (hc : bpb.ChainOf T head l) (hc' : bpb.ChainOf T head l') : l = l' := by
  rcases hc with ⟨rfl, rfl⟩ | ⟨hdata, hc⟩ <;> rcases hc' with ⟨hzero, rfl⟩ | ⟨hdata', hc'⟩
  · rfl
  · exact absurd hdata' (not_dataClus_zero bpb)
  · exact absurd (hzero ▸ hdata) (not_dataClus_zero bpb)
  · exact hc.walk.unique hc'.walk

theorem BPB.ChainOf.used {bpb : BPB} {T : Nat → Nat} {head : Nat} {l : List Nat}
    (hc : bpb.ChainOf T head l) : ∀ x ∈ l, T x ≠ 0 := by
  rcases hc with ⟨-, rfl⟩ | ⟨-, hc⟩
  · simp
  · intro x hx hzero
    rcases hc.walk.next_mem hx with hmem | hend
    · exact not_dataClus_zero bpb (hzero ▸ hc.data _ hmem)
    · exact not_eoc_zero (hzero ▸ hend)

theorem BPB.ChainOf.data {bpb : BPB} {T : Nat → Nat} {head : Nat} {l : List Nat}
    (hc : bpb.ChainOf T head l) : ∀ x ∈ l, bpb.DataClus x := by
  rcases hc with ⟨-, rfl⟩ | ⟨-, hc⟩
  · simp
  · exact hc.data

theorem BPB.ChainOf.nodup {bpb : BPB} {T : Nat → Nat} {head : Nat} {l : List Nat}
    (hc : bpb.ChainOf T head l) : l.Nodup := by
  rcases hc with ⟨-, rfl⟩ | ⟨-, hc⟩
  · exact List.nodup_nil
  · exact hc.walk.nodup

theorem BPB.ChainOf.congr {bpb : BPB} {T T' : Nat → Nat} {head : Nat} {l : List Nat}
    (hc : bpb.ChainOf T head l) (h : ∀ x ∈ l, T' x = T x) : bpb.ChainOf T' head l := by
  rcases hc with ⟨rfl, rfl⟩ | ⟨hdata, hc⟩
  · exact .inl ⟨rfl, rfl⟩
  · exact .inr ⟨hdata, hc.walk.frame h, hc.data⟩

theorem BPB.ChainOf.headD {bpb : BPB} {T : Nat → Nat} {head : Nat} {l : List Nat}
    (hs : bpb.Sound) (hc : bpb.ChainOf T head l) : l.headD 0 = head := by
  rcases hc with ⟨rfl, rfl⟩ | ⟨hhead, hc⟩
  · rfl
  · obtain ⟨tail, rfl⟩ := hc.walk.head_eq (hc.ne_nil hs hhead)
    rfl

/-- `inc_avail_cnt(1)` as often as clusters are released. -/
def FAT.incTimes (fat : FAT) (k : Nat) : FAT := if k = 0 then fat else fat.incAvailCnt k

/-- `dec_avail_cnt(1)` as often as clusters are dropped. -/
def FAT.decTimes (fat : FAT) (k : Nat) : FAT := if k = 0 then fat else fat.decAvailCnt k

section walks

variable {fat : FAT} {d : Device} {T : Nat → Nat}

theorem FAT.incTimes_incAvailCnt (k : Nat) : (fat.incAvailCnt 1).incTimes k = fat.incTimes (k + 1) := by
  rw [FAT.incTimes, FAT.incTimes, if_neg (Nat.succ_ne_zero k)]
  split
  · next hzero => rw [hzero]
  · rw [FAT.incAvailCnt_incAvailCnt, Nat.add_comm]

theorem FAT.decTimes_decTimes (i j : Nat) : (fat.decTimes i).decTimes j = fat.decTimes (i + j) := by
  simp only [FAT.decTimes, Nat.add_eq_zero_iff]
  by_cases hi : i = 0 <;> by_cases hj : j = 0
  · simp only [hi, hj, and_self, if_true]
  · simp only [hi, hj, if_true, and_false, if_false, Nat.zero_add]
  · simp only [hi, hj, if_true, false_and, if_false, Nat.add_zero]
  · simp only [hi, hj, false_and, if_false, FAT.decAvailCnt_decAvailCnt]

private theorem FAT.decTimes_decAvailCnt (k : Nat) : (fat.decAvailCnt 1).decTimes k = fat.decTimes (k + 1) := by
  rw [Nat.add_comm]
  exact FAT.decTimes_decTimes 1 k

@[simp] theorem FAT.bpb_incTimes (k : Nat) : (fat.incTimes k).bpb = fat.bpb := by
  rw [FAT.incTimes]
  split <;> rfl

@[simp] theorem FAT.bpb_decTimes (k : Nat) : (fat.decTimes k).bpb = fat.bpb := by
  rw [FAT.decTimes]
  split <;> rfl

@[simp] theorem FAT.freeCount_incTimes (k : Nat) : (fat.incTimes k).freeCount = fat.freeCount := by
  rw [FAT.incTimes]
  split <;> rfl

@[simp] theorem FAT.freeCount_decTimes (k : Nat) : (fat.decTimes k).freeCount = fat.freeCount := by
  rw [FAT.decTimes]
  split <;> rfl

@[simp] theorem FAT.represents_incTimes (k : Nat) :
    (fat.incTimes k).Represents d T ↔ fat.Represents d T := by
  rw [FAT.incTimes]
  split
  · exact Iff.rfl
  · exact FAT.represents_incAvailCnt k

@[simp] theorem FAT.represents_decTimes (k : Nat) :
    (fat.decTimes k).Represents d T ↔ fat.Represents d T := by
  rw [FAT.decTimes]
  split
  · exact Iff.rfl
  · exact FAT.represents_decAvailCnt k

/-! ### Reading a chain -/

theorem FAT.Represents.chainLoop (h : fat.Represents d T) {l : List Nat} : ∀ {cur fuel : Nat},
    fat.bpb.Chain T cur l → l.length < fuel → fat.chainLoop d fuel cur = some l := by
  induction l with
  | nil =>
    intro cur fuel hc hfuel
    obtain ⟨fuel, rfl⟩ : ∃ k, fuel = k + 1 := ⟨fuel - 1, by omega⟩
    rw [FAT.chainLoop, if_pos (walk_nil.mp hc.walk)]
  | cons x l ih =>
    intro cur fuel hc hfuel
    obtain ⟨fuel, rfl⟩ : ∃ k, fuel = k + 1 := ⟨fuel - 1, by omega⟩
    obtain ⟨rfl, hx, htail⟩ := walk_cons.mp hc.walk
    rw [FAT.chainLoop, if_neg hx, h.readClusEntry (hc.data x List.mem_cons_self).2]
    simp only [Option.bind_eq_bind, Option.bind_some]
    rw [ih ⟨htail, fun y hy => hc.data y (List.mem_cons_of_mem x hy)⟩ (by simpa using hfuel)]
    rfl

/-- `readClusChains` returns the chain of a live head. -/
theorem FAT.Represents.readClusChains (h : fat.Represents d T) {head : Nat} {l : List Nat}
    (hc : fat.bpb.Chain T head l) (hhead : fat.bpb.DataClus head) :
    fat.readClusChains d head = some l := by
  rw [FAT.readClusChains, if_pos (isValidCluster_of_dataClus hhead)]
  exact h.chainLoop hc (hc.lt_walkFuel h.wellFormed.sound)

private theorem FAT.readClusChains_zero (fat : FAT) (d : Device) : fat.readClusChains d 0 = some [] := rfl

theorem FAT.Represents.readClusChains_of (h : fat.Represents d T) {head : Nat} {l : List Nat}
    (hc : fat.bpb.ChainOf T head l) : fat.readClusChains d head = some l := by
  rcases hc with ⟨rfl, rfl⟩ | ⟨hhead, hc⟩
  · exact fat.readClusChains_zero d
  · exact h.readClusChains hc hhead

/-! ### Releasing a chain -/

theorem FAT.Represents.freeLoop {l : List Nat} : ∀ {fat : FAT} {d : Device} {T : Nat → Nat}
    {cur fuel : Nat}, fat.Represents d T → fat.bpb.Chain T cur l → l.length < fuel →
    ∃ d', FAT.freeLoop fuel fat d cur = some (fat.incTimes l.length, d') ∧
      fat.bpb.OnlyFat d d' ∧ fat.Represents d' (fill T 0 l) := by
  induction l with
  | nil =>
    intro fat d T cur fuel h hc hfuel
    obtain ⟨fuel, rfl⟩ : ∃ k, fuel = k + 1 := ⟨fuel - 1, by omega⟩
    refine ⟨d, ?_, .refl _ d, by rwa [fill_nil]⟩
    rw [FAT.freeLoop, if_pos (walk_nil.mp hc.walk)]
    rfl
  | cons x l ih =>
    intro fat d T cur fuel h hc hfuel
    obtain ⟨fuel, rfl⟩ : ∃ k, fuel = k + 1 := ⟨fuel - 1, by omega⟩
    obtain ⟨rfl, hx, htail⟩ := walk_cons.mp hc.walk
    have hxdata := hc.data x List.mem_cons_self
    have hxl : x ∉ l := (List.nodup_cons.mp hc.walk.nodup).1
    obtain ⟨d₁, hwrite, honly₁, h₁⟩ := h.writeClusEntry hxdata (show 0 < 2 ^ 28 by decide)
    have hc₁ : fat.bpb.Chain (Function.update T x 0) (T x) l :=
      ⟨htail.frame fun y hy => Function.update_of_ne (ne_of_mem_of_not_mem hy hxl) _ _,
        fun y hy => hc.data y (List.mem_cons_of_mem x hy)⟩
    obtain ⟨d', hrun, honly', h'⟩ :=
      ih ((FAT.represents_incAvailCnt 1).mpr h₁) hc₁ (by simpa using hfuel)
    refine ⟨d', ?_, honly₁.trans honly', ?_⟩
    · rw [FAT.freeLoop, if_neg hx, h.readClusEntry hxdata.2]
      simp only [Option.bind_eq_bind, Option.bind_some, hwrite]
      rw [hrun, FAT.incTimes_incAvailCnt]
      rfl
    · rw [← fill_update_cons]
      exact (FAT.represents_incAvailCnt 1).mp h'

theorem FAT.Represents.freeClus (h : fat.Represents d T) {head : Nat} {l : List Nat}
    (hc : fat.bpb.Chain T head l) (hhead : fat.bpb.DataClus head) :
    ∃ d', fat.freeClus d head = some (fat.incTimes l.length, d') ∧
      fat.bpb.OnlyFat d d' ∧ fat.Represents d' (fill T 0 l) := by
  rw [FAT.freeClus, if_pos (isValidCluster_of_dataClus hhead)]
  exact h.freeLoop hc (hc.lt_walkFuel h.wellFormed.sound)

theorem FAT.Represents.freeClus_of (h : fat.Represents d T) {head : Nat} {l : List Nat}
    (hc : fat.bpb.ChainOf T head l) : ∃ d', fat.freeClus d head = some (fat.incTimes l.length, d') ∧
      fat.bpb.OnlyFat d d' ∧ fat.Represents d' (fill T 0 l) := by
  rcases hc with ⟨rfl, rfl⟩ | ⟨hhead, hc⟩
  · exact ⟨d, rfl, .refl _ d, by rwa [fill_nil]⟩
  · exact h.freeClus hc hhead

/-! ### The walk of `resize` -/

theorem FAT.Represents.resizeLoop_drop {clus_num : Nat} {l : List Nat} :
    ∀ {fat : FAT} {d : Device} {T : Nat → Nat} {p cur k fuel : Nat}, fat.Represents d T →
    fat.bpb.Chain T cur l → clus_num ≤ k → l.length < fuel →
    ∃ d', FAT.resizeLoop clus_num fuel fat d p cur k =
        some ((l.getLastD p, k + l.length), fat.decTimes l.length, d') ∧
      fat.bpb.OnlyFat d d' ∧ fat.Represents d' (fill T 0 l) := by
  induction l with
  | nil =>
    intro fat d T p cur k fuel h hc _ hfuel
    obtain ⟨fuel, rfl⟩ : ∃ k, fuel = k + 1 := ⟨fuel - 1, by omega⟩
    refine ⟨d, ?_, .refl _ d, by rwa [fill_nil]⟩
    rw [FAT.resizeLoop, if_pos (walk_nil.mp hc.walk)]
    rfl
  | cons x l ih =>
    intro fat d T p cur k fuel h hc hcnt hfuel
    obtain ⟨fuel, rfl⟩ : ∃ k, fuel = k + 1 := ⟨fuel - 1, by omega⟩
    obtain ⟨rfl, hx, htail⟩ := walk_cons.mp hc.walk
    have hxdata := hc.data x List.mem_cons_self
    have hxl : x ∉ l := (List.nodup_cons.mp hc.walk.nodup).1
    obtain ⟨d₁, hwrite, honly₁, h₁⟩ := h.writeClusEntry hxdata (show 0 < 2 ^ 28 by decide)
    have hc₁ : fat.bpb.Chain (Function.update T x 0) (T x) l :=
      ⟨htail.frame fun y hy => Function.update_of_ne (ne_of_mem_of_not_mem hy hxl) _ _,
        fun y hy => hc.data y (List.mem_cons_of_mem x hy)⟩
    obtain ⟨d', hrun, honly', h'⟩ := ih (p := x) (k := k + 1)
      ((FAT.represents_decAvailCnt 1).mpr h₁) hc₁ (by omega) (by simpa using hfuel)
    refine ⟨d', ?_, honly₁.trans honly', ?_⟩
    · rw [FAT.resizeLoop, if_neg hx, h.readClusEntry hxdata.2]
      simp only [Option.bind_eq_bind, Option.bind_some, hwrite]
      rw [if_pos (by omega), hrun, FAT.decTimes_decAvailCnt, List.getLastD_cons, List.length_cons,
        Nat.add_assoc, Nat.add_comm 1]
    · rw [← fill_update_cons]
      exact (FAT.represents_decAvailCnt 1).mp h'

theorem FAT.Represents.resizeLoop_keep (h : fat.Represents d T) {clus_num : Nat} {l : List Nat} :
    ∀ {p cur k fuel : Nat}, fat.bpb.Chain T cur l → k + l.length < clus_num →
    l.length < fuel →
    FAT.resizeLoop clus_num fuel fat d p cur k =
      some ((l.getLastD p, k + l.length), fat, d) := by
  induction l with
  | nil =>
    intro p cur k fuel hc _ hfuel
    obtain ⟨fuel, rfl⟩ : ∃ k, fuel = k + 1 := ⟨fuel - 1, by omega⟩
    rw [FAT.resizeLoop, if_pos (walk_nil.mp hc.walk)]
    rfl
  | cons x l ih =>
    intro p cur k fuel hc hcnt hfuel
    obtain ⟨fuel, rfl⟩ : ∃ k, fuel = k + 1 := ⟨fuel - 1, by omega⟩
    obtain ⟨rfl, hx, htail⟩ := walk_cons.mp hc.walk
    rw [List.length_cons] at hcnt hfuel
    rw [FAT.resizeLoop, if_neg hx, h.readClusEntry (hc.data x List.mem_cons_self).2]
    simp only [Option.bind_eq_bind, Option.bind_some]
    rw [if_neg (by omega), if_neg (by omega),
      ih ⟨htail, fun y hy => hc.data y (List.mem_cons_of_mem x hy)⟩ (by omega) (by omega),
      List.getLastD_cons, List.length_cons, Nat.add_assoc, Nat.add_comm 1]

/-- A chain at least as long as the new length is marked at its new last cluster and released behind it. -/
theorem FAT.Represents.resizeLoop_cut (h : fat.Represents d T) {clus_num e : Nat}
    {keep drop : List Nat} : ∀ {p cur k fuel : Nat},
    fat.bpb.Chain T cur (keep ++ e :: drop) → k + keep.length + 1 = clus_num →
    (keep ++ e :: drop).length < fuel →
    ∃ d', FAT.resizeLoop clus_num fuel fat d p cur k =
        some ((drop.getLastD e, clus_num + drop.length), fat.decTimes drop.length, d') ∧
      fat.bpb.OnlyFat d d' ∧
      fat.Represents d' (fill (Function.update T e kFat32EocMark) 0 drop) := by
  induction keep with
  | nil =>
    intro p cur k fuel hc hcnt hfuel
    obtain ⟨fuel, rfl⟩ : ∃ k, fuel = k + 1 := ⟨fuel - 1, by omega⟩
    obtain ⟨rfl, he, htail⟩ := walk_cons.mp hc.walk
    have hedata := hc.data e (by simp)
    have hed : e ∉ drop := (List.nodup_cons.mp hc.walk.nodup).1
    obtain ⟨d₁, hwrite, honly₁, h₁⟩ :=
      h.writeClusEntry hedata (show kFat32EocMark < 2 ^ 28 by decide)
    have hc₁ : fat.bpb.Chain (Function.update T e kFat32EocMark) (T e) drop :=
      ⟨htail.frame fun y hy => Function.update_of_ne (ne_of_mem_of_not_mem hy hed) _ _,
        fun y hy => hc.data y (by simp [hy])⟩
    obtain ⟨d', hrun, honly', h'⟩ := h₁.resizeLoop_drop (p := e) (k := k + 1) hc₁
      (show clus_num ≤ k + 1 by simp only [List.length_nil] at hcnt; omega)
      (show drop.length < fuel by simpa using hfuel)
    refine ⟨d', ?_, honly₁.trans honly', h'⟩
    simp only [List.length_nil, Nat.add_zero] at hcnt
    rw [FAT.resizeLoop, if_neg he, h.readClusEntry hedata.2]
    simp only [Option.bind_eq_bind, Option.bind_some, hwrite]
    rw [if_neg (by omega), if_pos hcnt, hrun, hcnt]
  | cons x keep ih =>
    intro p cur k fuel hc hcnt hfuel
    obtain ⟨fuel, rfl⟩ : ∃ k, fuel = k + 1 := ⟨fuel - 1, by omega⟩
    obtain ⟨rfl, hx, htail⟩ := walk_cons.mp hc.walk
    rw [List.length_cons] at hcnt
    rw [FAT.resizeLoop, if_neg hx, h.readClusEntry (hc.data x (by simp)).2]
    simp only [Option.bind_eq_bind, Option.bind_some]
    rw [if_neg (by omega), if_neg (by omega)]
    exact ih ⟨htail, fun y hy => hc.data y (List.mem_cons_of_mem x hy)⟩ (by omega)
      (by simpa using hfuel)

end walks

end FuseFat32
