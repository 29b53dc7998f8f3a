import FuseFat32.Library.Walk
import FuseFat32.Fat.Table

/-!
# The two scans

`availClusCnt` counts the free entries of the scanned range and `allocClus` hands them out in order. Both are described by the list `freeFrom` of free clusters from a position on. The scan of `allocClus` writes the entry of a cluster only when the next one is found, so its step lemma speaks about the table with one link still missing.
-/

namespace FuseFat32

open LinkedTable

/-- The free clusters among `c, ..., c + k - 1`, in order. -/
def freeFrom (T : Nat → Nat) (c k : Nat) : List Nat :=
  (List.range' c k).filter fun n => T n = 0

/-- The free clusters in the range both scans run over. -/
def FAT.freeList (fat : FAT) (T : Nat → Nat) : List Nat := freeFrom T 0 fat.bpb.clusCnt

section freeFrom

variable {T T' : Nat → Nat}

@[simp] theorem freeFrom_zero (c : Nat) : freeFrom T c 0 = [] := rfl

theorem freeFrom_succ (c k : Nat) :
    freeFrom T c (k + 1) = if T c = 0 then c :: freeFrom T (c + 1) k else freeFrom T (c + 1) k := by
  rw [freeFrom, List.range'_succ, List.filter_cons]
  simp [freeFrom]

theorem freeFrom_two (c : Nat) : freeFrom T c 2 = [] ↔ T c ≠ 0 ∧ T (c + 1) ≠ 0 := by
  rw [freeFrom_succ, freeFrom_succ, freeFrom_zero]
  split <;> split <;> simp [*]

theorem freeFrom_append (c a b : Nat) : freeFrom T c (a + b) = freeFrom T c a ++ freeFrom T (c + a) b := by
  rw [freeFrom, ← List.range'_append_1, List.filter_append, freeFrom, freeFrom]

theorem mem_freeFrom {c k n : Nat} : n ∈ freeFrom T c k ↔ (c ≤ n ∧ n < c + k) ∧ T n = 0 := by
  simp [freeFrom, List.mem_range'_1]

theorem nodup_freeFrom (c k : Nat) : (freeFrom T c k).Nodup :=
  List.Nodup.filter _ List.nodup_range'

theorem freeFrom_congr {c k : Nat} (h : ∀ n, c ≤ n → n < c + k → (T' n = 0 ↔ T n = 0)) :
    freeFrom T' c k = freeFrom T c k := by
  refine List.filter_congr fun n hn => ?_
  rw [List.mem_range'_1] at hn
  simp only [h n hn.1 hn.2]

theorem notMem_freeFrom_succ (c k : Nat) : c ∉ freeFrom T (c + 1) k := by
  rw [mem_freeFrom]
  omega

theorem mem_freeList {fat : FAT} {n : Nat} :
    n ∈ fat.freeList T ↔ n < fat.bpb.clusCnt ∧ T n = 0 := by
  simp [FAT.freeList, mem_freeFrom]

theorem nodup_freeList (fat : FAT) : (fat.freeList T).Nodup := nodup_freeFrom _ _

end freeFrom

section scans

variable {fat : FAT} {d : Device} {T : Nat → Nat}

/-! ### Counting -/

theorem FAT.Represents.countLoop (h : fat.Represents d T) (k : Nat) :
    ∀ c cnt, c + k ≤ fat.bpb.clusCnt →
      fat.countLoop d k c cnt = some (cnt + (freeFrom T c k).length) := by
  induction k with
  | zero => simp [FAT.countLoop]
  | succ k ih =>
    intro c cnt hc
    rw [FAT.countLoop, if_pos (h.inTable (by omega)), h.scanEntry (by omega), freeFrom_succ]
    change fat.countLoop d k (c + 1) (if T c = 0 then cnt + 1 else cnt) = _
    rw [ih (c + 1) _ (by omega)]
    split
    · rw [List.length_cons]
      congr 1
      omega
    · rfl

/-- The answer of `availClusCnt`: what is cached, or the number of free clusters. -/
def FAT.avail (fat : FAT) (T : Nat → Nat) : Nat := fat.availCnt.getD (fat.freeList T).length

/-- The object after its count has been asked for. -/
def FAT.counted (fat : FAT) (T : Nat → Nat) : FAT := { fat with availCnt := some (fat.avail T) }

@[simp] theorem FAT.bpb_counted : (fat.counted T).bpb = fat.bpb := rfl

@[simp] theorem FAT.cntOfClus_counted : (fat.counted T).cntOfClus = fat.cntOfClus := rfl

@[simp] theorem FAT.freeCount_counted : (fat.counted T).freeCount = fat.freeCount := rfl

@[simp] theorem FAT.availCnt_counted : (fat.counted T).availCnt = some (fat.avail T) := rfl

@[simp] theorem FAT.represents_counted {T' : Nat → Nat} :
    (fat.counted T).Represents d T' ↔ fat.Represents d T' :=
  ⟨fun h => h.of_static rfl rfl rfl rfl, fun h => h.of_static rfl rfl rfl rfl⟩

theorem FAT.Represents.availClusCnt (h : fat.Represents d T) :
    fat.availClusCnt d = some (fat.avail T, fat.counted T) := by
  rcases hcnt : fat.availCnt with _ | cnt
  · simp only [FAT.availClusCnt, hcnt, h.wellFormed.cntOfClus,
      h.countLoop fat.bpb.clusCnt 0 0 (by omega), Option.bind_eq_bind, Option.bind_some,
      Nat.zero_add, FAT.counted, FAT.avail]
    rfl
  · cases fat
    subst hcnt
    rfl

/-! ### Handing out -/

/-- The cluster taken last, when there is one. -/
def pending (cur_clus : Nat) : List Nat := if cur_clus = 0 then [] else [cur_clus]

/-- The table once the pending cluster points to `c`. -/
def closeLink (T : Nat → Nat) (cur c : Nat) : Nat → Nat :=
  if cur = 0 then T else Function.update T cur c

private theorem closeLink_of_ne {cur c n : Nat} (h : n ≠ cur) : closeLink T cur c n = T n := by
  rw [closeLink]
  split
  · rfl
  · exact Function.update_of_ne h _ _

private theorem link_closeLink {mark cur c : Nat} {l : List Nat} (hcur : cur ∉ c :: l) :
    link (closeLink T cur c) mark (c :: l) = link T mark (pending cur ++ c :: l) := by
  by_cases hzero : cur = 0
  · simp [closeLink, pending, hzero]
  · simp only [closeLink, pending, if_neg hzero, List.cons_append, List.nil_append,
      link_update_cons hcur]

theorem FAT.Represents.linkPre (h : fat.Represents d T) {cur c : Nat}
    (hcur : cur = 0 ∨ fat.bpb.DataClus cur) (hc : c < fat.bpb.clusCnt + 2) :
    ∃ d', fat.linkPre d cur c = some d' ∧ fat.bpb.OnlyFat d d' ∧
      fat.Represents d' (closeLink T cur c) := by
  by_cases hzero : cur = 0
  · refine ⟨d, by simp [FAT.linkPre, hzero], .refl _ d, ?_⟩
    simpa [closeLink, hzero] using h
  · have hval : c < 2 ^ 28 := by
      have := h.wellFormed.sound.clusCnt_le
      omega
    obtain ⟨d', hrun, honly, h'⟩ := h.writeClusEntry (hcur.resolve_left hzero) hval
    refine ⟨d', by simp [FAT.linkPre, hzero, hrun], honly, ?_⟩
    simpa [closeLink, hzero] using h'

theorem freeFrom_closeLink {cur c k : Nat} (hc : c ≠ 0) :
    freeFrom (closeLink T cur c) (c + 1) k = (freeFrom T (c + 1) k).erase cur := by
  rw [(nodup_freeFrom (c + 1) k).erase_eq_filter, freeFrom, freeFrom, List.filter_filter]
  refine List.filter_congr fun n hn => ?_
  rw [List.mem_range'_1] at hn
  by_cases hne : n = cur
  · subst hne
    have hzero : n ≠ 0 := by omega
    simp [closeLink, hzero, hc]
  · simp [closeLink_of_ne hne, hne]

/-- The scan from `c` on takes the first free clusters and links them behind the pending one. The pending cluster may itself lie ahead and still look free, as a hint does, as long as it is not the first to be met: once it carries its link the scan passes it by. -/
theorem FAT.Represents.allocLoop {n k : Nat} : ∀ {fat : FAT} {d : Device} {T : Nat → Nat}
    {c cur num : Nat} {l : List Nat}, fat.Represents d T → c + k ≤ fat.bpb.clusCnt →
    (cur = 0 ∨ fat.bpb.DataClus cur) → (freeFrom T c k).head? ≠ some cur → num < n →
    n - num ≤ ((freeFrom T c k).erase cur).length →
    ∃ d', FAT.allocLoop n k fat d c cur num l =
        some (l ++ ((freeFrom T c k).erase cur).take (n - num), fat.decAvailCnt (n - num), d') ∧
      fat.bpb.OnlyFat d d' ∧ fat.Represents d'
        (link T kFat32EocMark (pending cur ++ ((freeFrom T c k).erase cur).take (n - num))) := by
  induction k with
  | zero =>
    intro fat d T c cur num l _ _ _ _ hnum hlen
    simp only [freeFrom_zero, List.erase_nil, List.length_nil] at hlen
    omega
  | succ k ih =>
    intro fat d T c cur num l h hc hcur hhead hnum hlen
    rw [FAT.allocLoop, if_pos (h.inTable (by omega)), h.scanEntry (by omega)]
    simp only [Option.bind_eq_bind, Option.bind_some]
    rw [freeFrom_succ] at hhead hlen ⊢
    by_cases hfree : T c = 0
    · have hcdata := h.dataClus_of_free (by omega) hfree
      have hczero : c ≠ 0 := by have := hcdata.1; omega
      simp only [if_pos hfree, List.head?_cons, ne_eq, Option.some.injEq] at hhead hlen ⊢
      obtain ⟨d₁, hrun, honly₁, h₁⟩ := h.linkPre hcur (c := c) (by omega)
      rw [List.erase_cons_tail (by simpa using hhead)] at hlen ⊢
      rw [hrun, Option.bind_some]
      have hrest : (freeFrom (closeLink T cur c) (c + 1) k).erase c = (freeFrom T (c + 1) k).erase cur := by
        rw [List.erase_of_not_mem (notMem_freeFrom_succ c k), freeFrom_closeLink hczero]
      have hlink : ∀ m, link (closeLink T cur c) kFat32EocMark
          (c :: ((freeFrom T (c + 1) k).erase cur).take m) =
          link T kFat32EocMark (pending cur ++ c :: ((freeFrom T (c + 1) k).erase cur).take m) := by
        refine fun m => link_closeLink fun hmem => ?_
        rcases List.mem_cons.mp hmem with heq | hin
        · exact hhead heq.symm
        · exact (nodup_freeFrom (c + 1) k).not_mem_erase (List.mem_of_mem_take hin)
      by_cases hlast : num + 1 = n
      · obtain ⟨d', hmark, honly', h'⟩ :=
          ((FAT.represents_decAvailCnt 1).mpr h₁).writeClusEntry hcdata (show kFat32EocMark < 2 ^ 28 by decide)
        have hone : n - num = 1 := by omega
        refine ⟨d', ?_, honly₁.trans honly', ?_⟩
        · simp [hlast, hmark, hone]
        · rw [hone, List.take_succ_cons, List.take_zero]
          have hlink := hlink 0
          rw [List.take_zero, link_singleton] at hlink
          rw [← hlink]
          exact (FAT.represents_decAvailCnt 1).mp h'
      · obtain ⟨m, hm⟩ : ∃ m, n - num = m + 1 := ⟨n - num - 1, by omega⟩
        have hm' : n - (num + 1) = m := by omega
        have hahead : (freeFrom (closeLink T cur c) (c + 1) k).head? ≠ some c := fun hcon =>
          notMem_freeFrom_succ c k (List.mem_of_head? hcon)
        have hleft : n - (num + 1) ≤ ((freeFrom (closeLink T cur c) (c + 1) k).erase c).length := by
          rw [hrest]
          simp only [List.length_cons] at hlen
          omega
        obtain ⟨d', hloop, honly', h'⟩ := ih ((FAT.represents_decAvailCnt 1).mpr h₁)
          (by rw [FAT.bpb_decAvailCnt]; omega) (.inr hcdata) hahead (by omega) hleft
        rw [hrest, hm'] at hloop h'
        refine ⟨d', ?_, honly₁.trans honly', ?_⟩
        · rw [if_neg hlast, hloop, hm, List.take_succ_cons, List.append_assoc,
            FAT.decAvailCnt_decAvailCnt, Nat.add_comm 1 m]
          rfl
        · rw [hm, List.take_succ_cons, ← hlink m]
          rw [FAT.represents_decAvailCnt] at h'
          simpa [pending, hczero] using h'
    · rw [if_neg hfree] at hhead hlen ⊢
      rw [if_neg hfree]
      exact ih h (by omega) hcur hhead hnum hlen

theorem FAT.Represents.allocLoop_stops {n k : Nat} : ∀ {fat : FAT} {d : Device} {T : Nat → Nat}
    {c cur num : Nat} {l : List Nat}, fat.Represents d T → c + k ≤ fat.bpb.clusCnt →
    (cur = 0 ∨ fat.bpb.DataClus cur) → (freeFrom T c k).head? ≠ some cur →
    ((freeFrom T c k).erase cur).length < n - num →
    FAT.allocLoop n k fat d c cur num l = none := by
  induction k with
  | zero => exact fun _ _ _ _ _ => rfl
  | succ k ih =>
    intro fat d T c cur num l h hc hcur hhead hlen
    rw [FAT.allocLoop, if_pos (h.inTable (by omega)), h.scanEntry (by omega)]
    simp only [Option.bind_eq_bind, Option.bind_some]
    rw [freeFrom_succ] at hhead hlen
    by_cases hfree : T c = 0
    · have hcdata := h.dataClus_of_free (by omega) hfree
      have hczero : c ≠ 0 := by have := hcdata.1; omega
      simp only [if_pos hfree, List.head?_cons, ne_eq, Option.some.injEq] at hhead hlen ⊢
      obtain ⟨d₁, hrun, -, h₁⟩ := h.linkPre hcur (c := c) (by omega)
      rw [List.erase_cons_tail (by simpa using hhead), List.length_cons] at hlen
      rw [hrun, Option.bind_some, if_neg (by omega)]
      refine ih ((FAT.represents_decAvailCnt 1).mpr h₁) (by rw [FAT.bpb_decAvailCnt]; omega)
        (.inr hcdata) (fun hcon => notMem_freeFrom_succ c k (List.mem_of_head? hcon)) ?_
      rw [List.erase_of_not_mem (notMem_freeFrom_succ c k), freeFrom_closeLink hczero]
      omega
    · rw [if_neg hfree] at hhead hlen
      rw [if_neg hfree]
      exact ih h (by omega) hcur hhead hlen

/-! ### `allocClus` -/

theorem FAT.Represents.allocClus_none (h : fat.Represents d T) {n : Nat} (hn : fat.avail T < n) :
    fat.allocClus d n = some (none, fat.counted T, d) := by
  simp only [FAT.allocClus, h.availClusCnt, Option.bind_eq_bind, Option.bind_some]
  exact if_pos hn

theorem erase_zero_freeList (h : fat.Represents d T) : (fat.freeList T).erase 0 = fat.freeList T := by
  refine List.erase_of_not_mem fun hmem => ?_
  obtain ⟨hlt, hzero⟩ := mem_freeList.mp hmem
  exact absurd (h.dataClus_of_free (by omega) hzero).1 (by omega)

theorem head_freeList_ne_zero (h : fat.Represents d T) : (fat.freeList T).head? ≠ some 0 := by
  intro hhead
  have hmem := List.mem_of_head? hhead
  rw [← erase_zero_freeList h] at hmem
  exact (nodup_freeList fat).not_mem_erase hmem

theorem FAT.Represents.allocClus_scan (h : fat.Represents d T) {n : Nat}
    (hhint : fat.freeCount = 0xFFFFFFFF) (hn : n ≤ fat.avail T) :
    fat.allocClus d n =
      (FAT.allocLoop n fat.bpb.clusCnt (fat.counted T) d 0 0 0 []).map
        fun r => (some r.1, r.2.1, r.2.2) := by
  simp only [FAT.allocClus, h.availClusCnt, Option.bind_eq_bind, Option.bind_some]
  refine (if_neg (Nat.not_lt.mpr hn)).trans ?_
  simp only [FAT.freeCount_counted, hhint, ne_eq, not_true_eq_false, if_false,
    FAT.cntOfClus_counted, h.wellFormed.cntOfClus]
  cases FAT.allocLoop n fat.bpb.clusCnt (fat.counted T) d 0 0 0 [] <;> rfl

/-- `allocClus` hands out the lowest free clusters as one new chain. -/
theorem FAT.Represents.allocClus_some (h : fat.Represents d T) {n : Nat}
    (hhint : fat.freeCount = 0xFFFFFFFF) (hn : n ≤ fat.avail T) (hpos : 0 < n)
    (hfree : n ≤ (fat.freeList T).length) :
    ∃ d', fat.allocClus d n =
        some (some ((fat.freeList T).take n), (fat.counted T).decAvailCnt n, d') ∧
      fat.bpb.OnlyFat d d' ∧ fat.Represents d' (link T kFat32EocMark ((fat.freeList T).take n)) := by
  have hhead := head_freeList_ne_zero h
  have herase := erase_zero_freeList h
  obtain ⟨d', hloop, honly, h'⟩ := FAT.Represents.allocLoop (c := 0) (k := fat.bpb.clusCnt) (n := n)
    (FAT.represents_counted.mpr h) (by rw [Nat.zero_add]; exact le_rfl) (.inl rfl) hhead hpos
    (by rw [show freeFrom T 0 fat.bpb.clusCnt = fat.freeList T from rfl, herase]; omega)
  rw [show freeFrom T 0 fat.bpb.clusCnt = fat.freeList T from rfl, herase, Nat.sub_zero] at hloop h'
  refine ⟨d', ?_, honly, FAT.represents_counted.mp h'⟩
  rw [h.allocClus_scan hhint hn, hloop]
  rfl

/-- A count above the number of free clusters leads into `assert(false)`. -/
theorem FAT.Represents.allocClus_stops (h : fat.Represents d T) {n : Nat}
    (hhint : fat.freeCount = 0xFFFFFFFF) (hn : n ≤ fat.avail T)
    (hfree : (fat.freeList T).length < n) : fat.allocClus d n = none := by
  rw [h.allocClus_scan hhint hn, FAT.Represents.allocLoop_stops (c := 0) (k := fat.bpb.clusCnt)
    (FAT.represents_counted.mpr h) (by rw [Nat.zero_add]; exact le_rfl) (.inl rfl)
    (head_freeList_ne_zero h)]
  · rfl
  · rw [show freeFrom T 0 fat.bpb.clusCnt = fat.freeList T from rfl, erase_zero_freeList h]
    omega

theorem FAT.Represents.allocClus_cases (h : fat.Represents d T) {n : Nat}
    (hhint : fat.freeCount = 0xFFFFFFFF) (hpos : 0 < n) {result : Option (List Nat)} {fat' : FAT}
    {d' : Device} (hrun : fat.allocClus d n = some (result, fat', d')) :
    (fat.avail T < n ∧ result = none ∧ fat' = fat.counted T ∧ d' = d) ∨
      (n ≤ fat.avail T ∧ n ≤ (fat.freeList T).length ∧ result = some ((fat.freeList T).take n) ∧
        fat' = (fat.counted T).decAvailCnt n ∧ fat.bpb.OnlyFat d d' ∧
        fat.Represents d' (link T kFat32EocMark ((fat.freeList T).take n))) := by
  by_cases hn : fat.avail T < n
  · rw [h.allocClus_none hn] at hrun
    simp only [Option.some.injEq, Prod.mk.injEq] at hrun
    exact .inl ⟨hn, hrun.1.symm, hrun.2.1.symm, hrun.2.2.symm⟩
  · by_cases hfree : (fat.freeList T).length < n
    · rw [h.allocClus_stops hhint (by omega) hfree] at hrun
      exact absurd hrun (by simp)
    · obtain ⟨d₁, hsome, honly, h'⟩ := h.allocClus_some hhint (by omega) hpos (by omega)
      rw [hsome] at hrun
      simp only [Option.some.injEq, Prod.mk.injEq] at hrun
      obtain ⟨hres, hfat, rfl⟩ := hrun
      exact .inr ⟨by omega, by omega, hres.symm, hfat.symm, honly, h'⟩

theorem FAT.Represents.data_take_freeList (h : fat.Represents d T) (n : Nat) :
    ∀ x ∈ (fat.freeList T).take n, fat.bpb.DataClus x ∧ T x = 0 := by
  intro x hx
  obtain ⟨hlt, hzero⟩ := mem_freeList.mp (List.mem_of_mem_take hx)
  exact ⟨h.dataClus_of_free (by omega) hzero, hzero⟩

end scans

end FuseFat32
