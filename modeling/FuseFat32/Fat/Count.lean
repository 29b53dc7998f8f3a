import FuseFat32.Fat.Ownership
import Mathlib.Data.List.Perm.Lattice

/-!
# The cached count of free clusters

`avail_clus_cnt_` is filled by the scan of `availClusCnt` and adjusted at every allocation and release. It is exact when it equals what a new scan would give, and then `allocClus` refuses exactly the requests that the scan could not serve. Two places do not adjust it to this: `resize` counts down when it releases a tail, and `freeClus` counts up also for the last two clusters of the volume, which the scan never looks at. A step that avoids both keeps the count exact, and a step that does not loses it.
-/

namespace FuseFat32

open LinkedTable

/-- What the scan of `availClusCnt` would count now. -/
def FatRun.recount (s : FatRun) : Nat := (s.fat.freeList s.table).length

/-- A cached count is the one a new scan would give. -/
def FatRun.Accurate (s : FatRun) : Prop := ∀ cnt, s.fat.availCnt = some cnt → cnt = s.recount

/-- The count as its clients see it: a cached value is what a new scan returns, and allocations fail exactly when too few clusters are free, without stopping the process. -/
structure FatRun.CountExact (s : FatRun) : Prop where
  cached : ∀ cnt, s.fat.availCnt = some cnt →
    ({ s.fat with availCnt := none }.availClusCnt s.device).map Prod.fst = some cnt
  returns : ∀ n, 0 < n → s.fat.allocClus s.device n ≠ none
  refuses : ∀ n, 0 < n →
    ((∃ fat' d', s.fat.allocClus s.device n = some (none, fat', d')) ↔ s.recount < n)

/-- What a call made while a count is cached has to respect: `freeClus` gets a chain inside the scanned range, and `resize` does not shorten. -/
def FatOp.Counts (op : FatOp) (s : FatRun) : Prop :=
  s.fat.availCnt = none ∨
    match op with
    | .freeClus head => ∀ l, s.fat.bpb.ChainOf s.table head l → ∀ x ∈ l, x < s.fat.bpb.clusCnt
    | .resize head clus_num _ => ∀ l, s.fat.bpb.ChainOf s.table head l → l.length ≤ clus_num
    | _ => True

/-- Some calls in a row, each of which respects this. -/
def FatRun.Counting : FatRun → FatRun → Prop :=
  Relation.ReflTransGen fun s s' => ∃ op, op.Counts s ∧ FatStep op s s'

/-! ### Counting free clusters -/

section lengths

variable {fat : FAT} {T U : Nat → Nat} {l : List Nat}

private theorem length_freeFrom_le (c k : Nat) : (freeFrom T c k).length ≤ k :=
  (List.length_filter_le _ _).trans_eq List.length_range'

theorem length_freeList_release (hl : l.Nodup) (hused : ∀ x ∈ l, T x ≠ 0)
    (hU : ∀ x, U x = 0 ↔ T x = 0 ∨ x ∈ l) :
    (fat.freeList U).length =
      (fat.freeList T).length + (l.filter (· < fat.bpb.clusCnt)).length := by
  rw [← List.length_append]
  refine List.Perm.length_eq ((List.perm_ext_iff_of_nodup (nodup_freeList fat) ?_).mpr fun x => ?_)
  · refine (nodup_freeList fat).append (hl.filter _) fun x hx hx' => ?_
    exact hused x (List.mem_of_mem_filter hx') (mem_freeList.mp hx).2
  · rw [mem_freeList, hU, List.mem_append, mem_freeList, List.mem_filter, decide_eq_true_eq]
    tauto

private theorem length_freeList_take {n : Nat} (hn : n ≤ (fat.freeList T).length)
    (hU : ∀ x, U x = 0 ↔ T x = 0 ∧ x ∉ (fat.freeList T).take n) :
    (fat.freeList U).length + n = (fat.freeList T).length := by
  have hmem : ∀ x ∈ (fat.freeList T).take n, x < fat.bpb.clusCnt ∧ T x = 0 :=
    fun x hx => mem_freeList.mp (List.mem_of_mem_take hx)
  have hall : ((fat.freeList T).take n).filter (· < fat.bpb.clusCnt) = (fat.freeList T).take n :=
    List.filter_eq_self.mpr fun x hx => by simpa using (hmem x hx).1
  rw [length_freeList_release (T := U) (U := T)
    ((nodup_freeList fat).sublist (List.take_sublist n _)) (fun x hx hzero => ((hU x).mp hzero).2 hx)
    fun x => ?_, hall, List.length_take_of_le hn]
  rw [hU]
  have := hmem x
  tauto

end lengths

section exact

variable {s s' : FatRun} {op : FatOp}

theorem FatRun.recount_lt (h : s.Owned) : s.recount < 2 ^ 28 := by
  have hle := length_freeFrom_le (T := s.table) 0 s.fat.bpb.clusCnt
  have hcnt := h.wellFormed.sound.clusCnt_le
  change (freeFrom s.table 0 s.fat.bpb.clusCnt).length < 2 ^ 28
  omega

theorem FatRun.Accurate.avail (hacc : s.Accurate) : s.fat.avail s.table = s.recount := by
  rw [FAT.avail]
  cases hcnt : s.fat.availCnt with
  | none => rfl
  | some cnt => exact hacc cnt hcnt

/-- A cached count is exact for its clients when it is accurate. -/
theorem FatRun.countExact_iff (h : s.Owned) : s.CountExact ↔ s.Accurate := by
  have hrep := h.represents
  have hscan : ({ s.fat with availCnt := none } : FAT).Represents s.device s.table :=
    hrep.of_static rfl rfl rfl rfl
  have hrecount : ({ s.fat with availCnt := none }.availClusCnt s.device).map Prod.fst =
      some s.recount := by
    rw [hscan.availClusCnt]
    rfl
  constructor
  · intro hexact cnt hcnt
    have := hexact.cached cnt hcnt
    rw [hrecount] at this
    exact (Option.some.inj this).symm
  · intro hacc
    have hfull : ∀ n, s.recount < n →
        s.fat.allocClus s.device n = some (none, s.fat.counted s.table, s.device) :=
      fun n hn => hrep.allocClus_none (by rwa [hacc.avail])
    have hserve : ∀ n, 0 < n → n ≤ s.recount → ∃ l fat' d',
        s.fat.allocClus s.device n = some (some l, fat', d') := by
      intro n hpos hn
      obtain ⟨d', hrun, -⟩ := hrep.allocClus_some h.hint (by rwa [hacc.avail]) hpos hn
      exact ⟨_, _, d', hrun⟩
    refine ⟨fun cnt hcnt => ?_, fun n hpos hstop => ?_, fun n hpos => ⟨fun hnone => ?_, fun hn => ?_⟩⟩
    · rw [hrecount, hacc cnt hcnt]
    · by_cases hn : s.recount < n
      · rw [hfull n hn] at hstop
        exact absurd hstop (by simp)
      · obtain ⟨l, fat', d', hrun⟩ := hserve n hpos (by omega)
        rw [hrun] at hstop
        exact absurd hstop (by simp)
    · by_contra hn
      obtain ⟨fat', d', hnone⟩ := hnone
      obtain ⟨l, fat'', d'', hrun⟩ := hserve n hpos (by omega)
      rw [hrun] at hnone
      exact absurd hnone (by simp)
    · exact ⟨_, _, hfull n hn⟩

/-- The scan stops two clusters short of the volume: counting all data clusters gives the same numbers only while neither of the last two is free. -/
theorem FatRun.CountExact.all_data_clusters (hexact : s.CountExact) :
    (∀ n, 0 < n → ((∃ fat' d', s.fat.allocClus s.device n = some (none, fat', d')) ↔
        (freeFrom s.table 0 (s.fat.bpb.clusCnt + 2)).length < n)) ↔
      s.table s.fat.bpb.clusCnt ≠ 0 ∧ s.table (s.fat.bpb.clusCnt + 1) ≠ 0 := by
  have hsplit : (freeFrom s.table 0 (s.fat.bpb.clusCnt + 2)).length =
      s.recount + (freeFrom s.table s.fat.bpb.clusCnt 2).length := by
    rw [freeFrom_append, Nat.zero_add, List.length_append]
    rfl
  have hlast : (freeFrom s.table s.fat.bpb.clusCnt 2).length = 0 ↔
      s.table s.fat.bpb.clusCnt ≠ 0 ∧ s.table (s.fat.bpb.clusCnt + 1) ≠ 0 := by
    rw [List.length_eq_zero_iff, freeFrom_two]
  rw [← hlast]
  constructor
  · intro hall
    have hnext := (hexact.refuses (s.recount + 1) (by omega)).symm.trans (hall _ (by omega))
    omega
  · intro hzero n hpos
    rw [hexact.refuses n hpos]
    omega

/-! ### Steps -/

theorem FatRun.recount_eq (s s' : FatRun) {T' : Nat → Nat} (h' : s'.fat.Represents s'.device T')
    (hbpb : s'.fat.bpb = s.fat.bpb) : s'.recount = (s.fat.freeList T').length := by
  have hsame : s'.fat.freeList s'.table = s'.fat.freeList T' := by
    refine freeFrom_congr fun n _ hn => ?_
    have hentry := h'.entry n (by omega)
    change s'.table n = 0 ↔ T' n = 0
    rw [show s'.table n = T' n from hentry]
  rw [FatRun.recount, hsame, FAT.freeList, FAT.freeList, hbpb]

theorem FatRun.accurate_counted (h : s.Owned) (hacc : s.Accurate) (heads : Set Nat) :
    (FatRun.mk (s.fat.counted s.table) s.device heads).Accurate := by
  intro cnt hcnt
  obtain rfl : s.fat.avail s.table = cnt := by simpa using hcnt
  rw [hacc.avail]
  exact (FatRun.recount_eq s ⟨s.fat.counted s.table, s.device, heads⟩
    (FAT.represents_counted.mpr h.represents) rfl).symm

theorem FatRun.accurate_taken (h : s.Owned) (hacc : s.Accurate) {n : Nat} {T' : Nat → Nat}
    {d' : Device} {heads : Set Nat} (hn : n ≤ s.recount) (h' : s.fat.Represents d' T')
    (hT' : ∀ x, T' x = 0 ↔ s.table x = 0 ∧ x ∉ (s.fat.freeList s.table).take n) :
    (FatRun.mk ((s.fat.counted s.table).decAvailCnt n) d' heads).Accurate := by
  have hrecount := FatRun.recount_eq s
    ⟨(s.fat.counted s.table).decAvailCnt n, d', heads⟩ (by simpa using h') rfl
  have hlen := length_freeList_take hn hT'
  have hlt := FatRun.recount_lt h
  intro cnt hcnt
  obtain rfl : u32Sub (s.fat.avail s.table) n = cnt := by simpa using hcnt
  rw [hacc.avail, hrecount, u32Sub_of_le hn (by omega)]
  change (s.fat.freeList T').length + n = s.recount at hlen
  omega

/-- `freeClus` keeps the count accurate when nothing is cached or the scan sees all it releases. -/
theorem FatRun.accurate_freed (h : s.Owned) (hacc : s.Accurate) {l : List Nat} {T' : Nat → Nat}
    {d' : Device} {heads : Set Nat} (hnodup : l.Nodup) (hused : ∀ x ∈ l, s.table x ≠ 0)
    (hlen : l.length ≤ s.fat.bpb.clusCnt) (h' : s.fat.Represents d' T')
    (hT' : ∀ x, T' x = 0 ↔ s.table x = 0 ∨ x ∈ l) :
    (FatRun.mk (s.fat.incTimes l.length) d' heads).Accurate ↔
      s.fat.availCnt = none ∨ ∀ x ∈ l, x < s.fat.bpb.clusCnt := by
  have hrecount := FatRun.recount_eq s ⟨s.fat.incTimes l.length, d', heads⟩
    (by simpa using h') (by simp)
  rw [length_freeList_release hnodup hused hT'] at hrecount
  have hlt := FatRun.recount_lt h
  have hcnt := h.wellFormed.sound.clusCnt_le
  have hle := List.length_filter_le (fun x => decide (x < s.fat.bpb.clusCnt)) l
  have hall : (l.filter (· < s.fat.bpb.clusCnt)).length = l.length ↔
      ∀ x ∈ l, x < s.fat.bpb.clusCnt := by
    rw [List.length_filter_eq_length_iff]
    simp
  have hcached : (s.fat.incTimes l.length).availCnt = s.fat.availCnt.map fun a => u32 (a + l.length) := by
    rw [FAT.incTimes]
    split
    · next hzero =>
      cases hav : s.fat.availCnt with
      | none => rfl
      | some a =>
        have := hacc a hav
        rw [Option.map_some, hzero, Nat.add_zero, u32_of_lt (by omega)]
    · rfl
  change s.recount < 2 ^ 28 at hlt
  change _ = s.recount + _ at hrecount
  cases hav : s.fat.availCnt with
  | none =>
    refine iff_of_true (fun cnt hcnt => ?_) (.inl rfl)
    rw [hav] at hcached
    exact absurd (hcached.symm.trans hcnt) (by simp)
  | some a =>
    obtain rfl := hacc a hav
    rw [hav, Option.map_some, u32_of_lt (by omega)] at hcached
    simp only [reduceCtorEq, false_or, ← hall]
    constructor
    · intro hnew
      have := (hnew _ hcached).trans hrecount
      omega
    · intro heq cnt hcnt
      obtain rfl : s.recount + l.length = cnt := Option.some.inj (hcached.symm.trans hcnt)
      rw [hrecount, heq]

/-- `resize` keeps the count accurate when nothing is cached or nothing is released. -/
theorem FatRun.accurate_cut (h : s.Owned) (hacc : s.Accurate) {l : List Nat} {k : Nat}
    {T' : Nat → Nat} {d' : Device} {heads : Set Nat} (hnodup : l.Nodup)
    (hused : ∀ x ∈ l, s.table x ≠ 0) (hlen : l.length ≤ s.fat.bpb.clusCnt) (hk : k ≤ l.length)
    (h' : s.fat.Represents d' T') (hT' : ∀ x, T' x = 0 ↔ s.table x = 0 ∨ x ∈ l.drop k) :
    (FatRun.mk (s.fat.decTimes (l.length - k)) d' heads).Accurate ↔
      s.fat.availCnt = none ∨ l.length ≤ k := by
  have hrecount := FatRun.recount_eq s ⟨s.fat.decTimes (l.length - k), d', heads⟩
    (by simpa using h') (by simp)
  rw [length_freeList_release (hnodup.sublist (List.drop_sublist k l))
    (fun x hx => hused x (List.mem_of_mem_drop hx)) hT'] at hrecount
  have hlt := FatRun.recount_lt h
  have hcnt := h.wellFormed.sound.clusCnt_le
  have hle := List.length_filter_le (fun x => decide (x < s.fat.bpb.clusCnt)) (l.drop k)
  rw [List.length_drop] at hle
  change s.recount < 2 ^ 28 at hlt
  change _ = s.recount + _ at hrecount
  by_cases hzero : l.length - k = 0
  · rw [hzero] at hrecount ⊢
    refine iff_of_true (fun cnt hcnt => ?_) (.inr (by omega))
    have := hacc cnt hcnt
    change cnt = FatRun.recount ⟨s.fat.decTimes 0, d', heads⟩
    omega
  · have hcached : (s.fat.decTimes (l.length - k)).availCnt =
        s.fat.availCnt.map fun a => u32Sub a (l.length - k) := by
      rw [FAT.decTimes, if_neg hzero]
      rfl
    cases hav : s.fat.availCnt with
    | none =>
      refine iff_of_true (fun cnt hcnt => ?_) (.inl rfl)
      rw [hav] at hcached
      exact absurd (hcached.symm.trans hcnt) (by simp)
    | some a =>
      obtain rfl := hacc a hav
      rw [hav, Option.map_some] at hcached
      refine iff_of_false (fun hnew => ?_) (by simp; omega)
      have := (hnew _ hcached).trans hrecount
      simp only [u32Sub, u32] at this
      omega

theorem FatStep.accurate_iff (h : s.Owned) (hacc : s.Accurate) (hstep : FatStep op s s') :
    s'.Accurate ↔ op.Counts s := by
  have hrep := h.represents
  cases hstep with
  | availClusCnt hrun =>
    rw [hrep.availClusCnt] at hrun
    simp only [Option.some.injEq, Prod.mk.injEq] at hrun
    obtain ⟨-, rfl⟩ := hrun
    exact iff_of_true (FatRun.accurate_counted h hacc s.heads) (.inr trivial)
  | allocFails hpos hrun =>
    rcases hrep.allocClus_cases h.hint hpos hrun with ⟨-, -, rfl, rfl⟩ | ⟨-, -, hres, -⟩
    · exact iff_of_true (FatRun.accurate_counted h hacc s.heads) (.inr trivial)
    · exact absurd hres (by simp)
  | alloc hpos hrun =>
    rcases hrep.allocClus_cases h.hint hpos hrun with
      ⟨-, hres, -⟩ | ⟨-, hfree, -, rfl, -, h'⟩
    · exact absurd hres (by simp)
    obtain ⟨hne, hnodup, hdata, hzero⟩ := h.fresh hpos hfree
    exact iff_of_true (FatRun.accurate_taken h hacc hfree h' fun x =>
      BPB.ChainOf.growTable_eq_zero h.wellFormed.sound (.inl ⟨rfl, rfl⟩) hne hnodup hdata hzero x)
      (.inr trivial)
  | free hhead hrun =>
    obtain ⟨l, hc⟩ := exists_chainOf h.owners (.inr hhead)
    have hdata := h.owners.good_head hhead
    have hchain := (hc.resolve_left fun hzero => not_dataClus_zero _ (hzero.1 ▸ hdata)).2
    obtain ⟨d₁, hfree, -, h'⟩ := hrep.freeClus hchain hdata
    rw [hfree] at hrun
    simp only [Option.some.injEq, Prod.mk.injEq] at hrun
    obtain ⟨rfl, rfl⟩ := hrun
    rw [FatRun.accurate_freed h hacc hc.nodup hc.used hchain.length_le h' (hc.cutTable_eq_zero (Nat.zero_le _))]
    exact or_congr_right ⟨fun hall l' hc' => hc'.unique hc ▸ hall, fun hall => hall l hc⟩
  | @resize _ fat' d' head clus_num clear ok fst hhead hrun =>
    obtain ⟨l, hc⟩ := exists_chainOf h.owners hhead
    have hcounts : (FatOp.resize head clus_num clear).Counts s ↔
        s.fat.availCnt = none ∨ l.length ≤ clus_num :=
      or_congr_right ⟨fun hall => hall l hc, fun hle l' hc' => hc'.unique hc ▸ hle⟩
    rw [hcounts]
    rcases hrep.resize_cases hc h.hint hrun with ⟨hnum, -, rfl, rfl, h'⟩ |
      ⟨hnum, -, -, rfl, rfl, rfl⟩ | ⟨hnum, -, hfree, -, rfl, rfl, h'⟩
    · exact FatRun.accurate_cut h hacc hc.nodup hc.used hc.length_le hnum h'
        (hc.cutTable_eq_zero hnum)
    · exact iff_of_true (FatRun.accurate_counted h hacc _) (.inr (by omega))
    · obtain ⟨hne, hnodup, hdata, hzero⟩ := h.fresh (by omega) hfree
      exact iff_of_true (FatRun.accurate_taken h hacc hfree h'
        (hc.growTable_eq_zero h.wellFormed.sound hne hnodup hdata hzero)) (.inr (by omega))

end exact

/-! ### Runs -/

theorem FatRun.Counting.keeps {s₀ s : FatRun} (h₀ : s₀.Owned) (hacc : s₀.Accurate)
    (hrun : s₀.Counting s) : s.Owned ∧ s.Accurate := by
  induction hrun with
  | refl => exact ⟨h₀, hacc⟩
  | tail _ hstep ih =>
    obtain ⟨op, hcounts, hstep⟩ := hstep
    exact ⟨(hstep.kept ih.1).owned, (hstep.accurate_iff ih.1 ih.2).mpr hcounts⟩

/-- As long as every call respects the count it is exact, and the first call that does not makes it wrong. Only when the last two clusters, which the scan does not see, are in use does exact also mean that all free clusters are counted. -/
theorem FatRun.count_exact (s₀ s : FatRun) (h₀ : s₀.Owned) (hacc : s₀.Accurate)
    (hrun : s₀.Counting s) :
    s.CountExact ∧
      ((∀ n, 0 < n → ((∃ fat' d', s.fat.allocClus s.device n = some (none, fat', d')) ↔
        (freeFrom s.table 0 (s.fat.bpb.clusCnt + 2)).length < n)) ↔
      s.table s.fat.bpb.clusCnt ≠ 0 ∧ s.table (s.fat.bpb.clusCnt + 1) ≠ 0) ∧
      ∀ op s', FatStep op s s' → (s'.CountExact ↔ op.Counts s) := by
  obtain ⟨howned, hacc'⟩ := hrun.keeps h₀ hacc
  have hexact := (FatRun.countExact_iff howned).mpr hacc'
  refine ⟨hexact, hexact.all_data_clusters, fun op s' hstep => ?_⟩
  rw [FatRun.countExact_iff (hstep.kept howned).owned]
  exact hstep.accurate_iff howned hacc'

theorem smallRun_three : (smallRun (smallTable [2, 3, 4])).Owned ∧
    (smallRun (smallTable [2, 3, 4])).Accurate ∧
    smallBpb.Chain (smallRun (smallTable [2, 3, 4])).table 2 [2, 3, 4] := by
  obtain ⟨howned, hc⟩ := smallRun_root (l := [3, 4]) (by decide) (by decide)
  exact ⟨howned, fun cnt hcnt => absurd hcnt (by simp [smallRun]), hc⟩

theorem FatRun.count_exact_counted : ∃ s₁ s₂ s₃ : FatRun,
    FatStep .availClusCnt (smallRun (smallTable [2, 3, 4])) s₁ ∧ s₁.fat.availCnt = some 1 ∧
      FatStep (.allocClus 1) s₁ s₂ ∧ s₂.fat.availCnt = some 0 ∧
      FatStep (.freeClus 5) s₂ s₃ ∧ s₃.fat.availCnt = some 1 ∧ s₃.CountExact := by
  obtain ⟨howned, hacc, -⟩ := smallRun_three
  set s₀ := smallRun (smallTable [2, 3, 4]) with hs₀
  have hlist : s₀.fat.freeList s₀.table = [5] := by decide +kernel
  have hcount := FatStep.availClusCnt (s := s₀) howned.represents.availClusCnt
  have howned₁ := (hcount.kept howned).owned
  set s₁ : FatRun := { s₀ with fat := s₀.fat.counted s₀.table } with hs₁
  have hcnt₁ : s₁.fat.availCnt = some 1 := by
    change some (s₀.fat.avail s₀.table) = some 1
    rw [hacc.avail, FatRun.recount, hlist]
    rfl
  have hroom : 1 ≤ s₁.fat.avail s₁.table := by rw [FAT.avail, hcnt₁, Option.getD_some]
  obtain ⟨d₂, halloc, -, h₂⟩ := howned₁.represents.allocClus_some howned₁.hint hroom Nat.one_pos
    (by rw [show s₁.fat.freeList s₁.table = [5] from hlist]; decide)
  rw [show s₁.fat.freeList s₁.table = [5] from hlist] at halloc h₂
  have htake := FatStep.alloc Nat.one_pos halloc
  have howned₂ := (htake.kept howned₁).owned
  have h₂' : ((s₁.fat.counted s₁.table).decAvailCnt 1).Represents d₂ (link s₁.table kFat32EocMark [5]) := by
    simpa using h₂
  set s₂ : FatRun := ⟨(s₁.fat.counted s₁.table).decAvailCnt 1, d₂, insert 5 s₁.heads⟩ with hs₂
  have hcnt₂ : s₂.fat.availCnt = some 0 := by
    change some (u32Sub (s₁.fat.avail s₁.table) 1) = some 0
    rw [FAT.avail, hcnt₁, Option.getD_some]
    rfl
  -- the cluster handed out is a chain of its own, inside the range of the scan
  have hgood : ∀ x ∈ [5], smallBpb.DataClus x := by decide
  have hlinked : Walk (link s₁.table kFat32EocMark [5]) Eoc 5 [5] :=
    walk_link (by decide) eoc_kFat32EocMark fun x hx => smallBpb_sound.not_endOfClusChain (hgood x hx)
  have hc : s₂.fat.bpb.Chain s₂.table 5 [5] :=
    ⟨hlinked.frame fun x hx => h₂'.entry x (hgood x hx).2, hgood⟩
  have hhead : s₂.fat.bpb.DataClus 5 := hgood 5 (List.mem_singleton_self 5)
  have hseen : (FatOp.freeClus 5).Counts s₂ := by
    refine .inr fun l hl x hx => ?_
    rw [hl.unique (.inr ⟨hhead, hc⟩), List.mem_singleton] at hx
    rw [hx]
    exact show 5 < smallBpb.clusCnt by decide
  obtain ⟨d₃, hfree, -, -⟩ := howned₂.represents.freeClus hc hhead
  have hgive := FatStep.free (s := s₂) (Set.mem_insert 5 s₁.heads) hfree
  have hrun : (smallRun (smallTable [2, 3, 4])).Counting _ :=
    ((Relation.ReflTransGen.single ⟨_, .inr trivial, hcount⟩).tail ⟨_, .inr trivial, htake⟩).tail
      ⟨_, hseen, hgive⟩
  refine ⟨s₁, s₂, _, hcount, hcnt₁, htake, hcnt₂, hgive, ?_, (FatRun.count_exact _ _ howned hacc hrun).1⟩
  change s₂.fat.availCnt.map (fun a => u32 (a + 1)) = some 1
  rw [hcnt₂]
  rfl

/-- Asking for the count and then shrinking the directory to one cluster makes the cached count wrong. -/
theorem FatRun.not_count_exact_after_shrink :
    ¬ ∀ s₀ s : FatRun, s₀.Owned → s₀.Accurate → s₀.Reaches s → s.CountExact := by
  intro hall
  obtain ⟨howned, hacc, hchain⟩ := smallRun_three
  set s₀ := smallRun (smallTable [2, 3, 4]) with hs₀
  have hcount := FatStep.availClusCnt (s := s₀) howned.represents.availClusCnt
  have hcounted := (hcount.accurate_iff howned hacc).mpr (.inr trivial)
  have howned₁ := (hcount.kept howned).owned
  set s₁ : FatRun := { s₀ with fat := s₀.fat.counted s₀.table } with hs₁
  have hc : s₁.fat.bpb.ChainOf s₁.table 2 [2, 3, 4] := .inr ⟨by decide, hchain⟩
  obtain ⟨d', hcut, -⟩ := howned₁.represents.resize_cut hc (show 1 ≤ 3 by decide) false
  have hshrink := FatStep.resize (s := s₁) (.inr rfl) hcut
  have hreach : s₀.Reaches _ := (Relation.ReflTransGen.single ⟨_, hcount⟩).tail ⟨_, hshrink⟩
  have hexact := hall _ _ howned hacc hreach
  rw [FatRun.countExact_iff (hshrink.kept howned₁).owned, hshrink.accurate_iff howned₁ hcounted] at hexact
  rcases hexact with hnone | hle
  · exact absurd hnone (by simp [hs₁])
  · exact absurd (hle _ hc) (by decide)

end FuseFat32
