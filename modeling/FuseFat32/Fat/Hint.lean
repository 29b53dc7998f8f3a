import FuseFat32.Fat.Chains

/-!
# The allocation hint

A FAT object may be made with a cluster number to hand out first. `allocClus` takes it before its scan starts, writes its entry only when the next cluster is found, and never asks whether it is a free data cluster. The first successful allocation with a hint pending is right exactly when the hint names a free data cluster and the scan does not meet that cluster as the first free one, where it would take it a second time.
-/

namespace FuseFat32

open LinkedTable

/-- What an allocation of `n` clusters should hand out: `n` different free data clusters, linked up as one chain. -/
structure FAT.FreshChain (fat : FAT) (d : Device) (n : Nat) (l : List Nat) (fat' : FAT) (d' : Device) :
    Prop where
  length : l.length = n
  nodup : l.Nodup
  free : ∀ x ∈ l, fat.bpb.DataClus x ∧ fat.entry d x = 0
  chain : fat'.readClusChains d' (l.headD 0) = some l

/-- The hints that do no harm to an allocation of `n` clusters. -/
def FAT.HintUsable (fat : FAT) (T : Nat → Nat) (n hint : Nat) : Prop :=
  hint = 0xFFFFFFFF ∨ (fat.bpb.DataClus hint ∧ T hint = 0 ∧
    (n = 1 ∨ (fat.freeList T).head? ≠ some hint))

section hint

variable {fat : FAT} {d : Device} {T : Nat → Nat} {n : Nat}

@[simp] theorem FAT.bpb_takeHint : fat.takeHint.bpb = fat.bpb := rfl

@[simp] theorem FAT.cntOfClus_takeHint : fat.takeHint.cntOfClus = fat.cntOfClus := rfl

@[simp] theorem FAT.writeClusEntry_takeHint (c v : Nat) :
    fat.takeHint.writeClusEntry d c v = fat.writeClusEntry d c v := rfl

@[simp] theorem FAT.writeClusEntry_counted (c v : Nat) :
    (fat.counted T).writeClusEntry d c v = fat.writeClusEntry d c v := rfl

@[simp] theorem FAT.represents_takeHint {T' : Nat → Nat} :
    fat.takeHint.Represents d T' ↔ fat.Represents d T' :=
  ⟨fun h => h.of_static rfl rfl rfl rfl, fun h => h.of_static rfl rfl rfl rfl⟩

/-! ### The branch of the hint -/

theorem FAT.Represents.allocClus_hint_one (h : fat.Represents d T) (hhint : fat.freeCount ≠ 0xFFFFFFFF)
    (hn : 1 ≤ fat.avail T) : fat.allocClus d 1 =
      (fat.writeClusEntry d fat.freeCount kFat32EocMark).map
        fun d' => (some [fat.freeCount], (fat.counted T).takeHint, d') := by
  simp only [FAT.allocClus, h.availClusCnt, Option.bind_eq_bind, Option.bind_some]
  refine (if_neg (by omega)).trans ?_
  simp only [FAT.freeCount_counted, ne_eq, hhint, not_false_eq_true, if_true,
    FAT.writeClusEntry_takeHint, FAT.writeClusEntry_counted]
  cases fat.writeClusEntry d fat.freeCount kFat32EocMark <;> rfl

theorem FAT.Represents.allocClus_hint_more (h : fat.Represents d T) (hhint : fat.freeCount ≠ 0xFFFFFFFF)
    (hn : n ≤ fat.avail T) (hmore : n ≠ 1) : fat.allocClus d n =
      (FAT.allocLoop n fat.bpb.clusCnt (fat.counted T).takeHint d 0 fat.freeCount 1
        [fat.freeCount]).map fun r => (some r.1, r.2.1, r.2.2) := by
  simp only [FAT.allocClus, h.availClusCnt, Option.bind_eq_bind, Option.bind_some]
  refine (if_neg (by omega)).trans ?_
  simp only [FAT.freeCount_counted, ne_eq, hhint, not_false_eq_true, if_true, hmore.symm, if_false,
    FAT.cntOfClus_takeHint, FAT.cntOfClus_counted, h.wellFormed.cntOfClus]
  cases FAT.allocLoop n fat.bpb.clusCnt (fat.counted T).takeHint d 0 fat.freeCount 1
    [fat.freeCount] <;> rfl

theorem FAT.allocLoop_prefix {k : Nat} : ∀ {fat : FAT} {d : Device} {c cur num : Nat}
    {chain : List Nat} {r : List Nat × FAT × Device},
    FAT.allocLoop n k fat d c cur num chain = some r → chain <+: r.1 := by
  induction k with
  | zero => exact fun hrun => absurd hrun (by simp [FAT.allocLoop])
  | succ k ih =>
    intro fat d c cur num chain r hrun
    rw [FAT.allocLoop] at hrun
    split at hrun
    · simp only [Option.bind_eq_bind, Option.bind_eq_some_iff] at hrun
      obtain ⟨val, -, hrun⟩ := hrun
      split at hrun
      · obtain ⟨d₁, -, hrun⟩ := Option.bind_eq_some_iff.mp hrun
        have happ := List.prefix_append chain [c]
        split at hrun
        · obtain ⟨d₂, -, hrun⟩ := Option.bind_eq_some_iff.mp hrun
          obtain rfl := Option.some.inj hrun
          exact happ
        · exact happ.trans (ih hrun)
      · exact ih hrun
    · exact absurd hrun (by simp)

private theorem FAT.Represents.allocLoop_head {k x : Nat} : ∀ {fat : FAT} {d : Device} {c cur num : Nat}
    {chain : List Nat} {r : List Nat × FAT × Device}, fat.Represents d T → c + k ≤ fat.bpb.clusCnt →
    (freeFrom T c k).head? = some x → FAT.allocLoop n k fat d c cur num chain = some r →
    chain ++ [x] <+: r.1 := by
  induction k with
  | zero => exact fun _ _ hhead => absurd hhead (by simp)
  | succ k ih =>
    intro fat d c cur num chain r h hc hhead hrun
    rw [FAT.allocLoop, if_pos (h.inTable (by omega)), h.scanEntry (by omega)] at hrun
    simp only [Option.bind_eq_bind, Option.bind_some] at hrun
    rw [freeFrom_succ] at hhead
    by_cases hfree : T c = 0
    · rw [if_pos hfree] at hhead hrun
      obtain rfl : c = x := by simpa using hhead
      obtain ⟨d₁, -, hrun⟩ := Option.bind_eq_some_iff.mp hrun
      split at hrun
      · obtain ⟨d₂, -, hrun⟩ := Option.bind_eq_some_iff.mp hrun
        obtain rfl := Option.some.inj hrun
        exact List.prefix_rfl
      · exact FAT.allocLoop_prefix hrun
    · rw [if_neg hfree] at hhead hrun
      exact ih h (by omega) hhead hrun

/-! ### When the hint is usable -/

private theorem FAT.Represents.hint_prefix (h : fat.Represents d T) (hhint : fat.freeCount ≠ 0xFFFFFFFF)
    {l : List Nat} {fat' : FAT} {d' : Device}
    (hrun : fat.allocClus d n = some (some l, fat', d')) : [fat.freeCount] <+: l := by
  have hn : n ≤ fat.avail T := by
    by_contra hlt
    rw [h.allocClus_none (by omega)] at hrun
    exact absurd hrun (by simp)
  by_cases hone : n = 1
  · subst hone
    rw [h.allocClus_hint_one hhint hn, Option.map_eq_some_iff] at hrun
    obtain ⟨d₁, -, heq⟩ := hrun
    obtain ⟨rfl, -⟩ : [fat.freeCount] = l ∧ _ := by simpa using heq
    exact List.prefix_rfl
  · rw [h.allocClus_hint_more hhint hn hone, Option.map_eq_some_iff] at hrun
    obtain ⟨r, hloop, heq⟩ := hrun
    obtain ⟨rfl, -⟩ : r.1 = l ∧ _ := by simpa using heq
    exact FAT.allocLoop_prefix hloop

/-- A hint that is the lowest free cluster is taken twice. -/
theorem FAT.Represents.hint_twice (h : fat.Represents d T) (hhint : fat.freeCount ≠ 0xFFFFFFFF)
    (hmore : n ≠ 1) (hhead : (fat.freeList T).head? = some fat.freeCount) {l : List Nat} {fat' : FAT}
    {d' : Device} (hrun : fat.allocClus d n = some (some l, fat', d')) : ¬ l.Nodup := by
  have hn : n ≤ fat.avail T := by
    by_contra hlt
    rw [h.allocClus_none (by omega)] at hrun
    exact absurd hrun (by simp)
  rw [h.allocClus_hint_more hhint hn hmore, Option.map_eq_some_iff] at hrun
  obtain ⟨r, hloop, heq⟩ := hrun
  obtain ⟨rfl, -⟩ : r.1 = l ∧ _ := by simpa using heq
  have hh : (fat.counted T).takeHint.Represents d T := by simpa using h
  have htwo := hh.allocLoop_head (by simp) hhead hloop
  intro hnodup
  exact absurd (hnodup.sublist htwo.sublist) (by simp)

/-- With enough other free clusters a usable hint leads the new chain. -/
theorem FAT.Represents.allocClus_hint (h : fat.Represents d T) (hhint : fat.freeCount ≠ 0xFFFFFFFF)
    (hn : n ≤ fat.avail T) (hpos : 0 < n) (hdata : fat.bpb.DataClus fat.freeCount)
    (hhead : n = 1 ∨ (fat.freeList T).head? ≠ some fat.freeCount)
    (hlen : n - 1 ≤ ((fat.freeList T).erase fat.freeCount).length) :
    ∃ fat' d', fat.allocClus d n =
        some (some (fat.freeCount :: ((fat.freeList T).erase fat.freeCount).take (n - 1)), fat', d') ∧
      fat'.bpb = fat.bpb ∧ fat'.Represents d' (link T kFat32EocMark
        (fat.freeCount :: ((fat.freeList T).erase fat.freeCount).take (n - 1))) := by
  have hzero : fat.freeCount ≠ 0 := by
    have := hdata.1
    omega
  by_cases hone : n = 1
  · subst hone
    obtain ⟨d₁, hwrite, -, h'⟩ := h.writeClusEntry hdata (show kFat32EocMark < 2 ^ 28 by decide)
    refine ⟨(fat.counted T).takeHint, d₁, ?_, rfl, ?_⟩
    · rw [h.allocClus_hint_one hhint hn, hwrite]
      rfl
    · rw [Nat.sub_self, List.take_zero, link_singleton]
      simpa using h'
  · have hh : (fat.counted T).takeHint.Represents d T := by simpa using h
    have hne : (freeFrom T 0 fat.bpb.clusCnt).head? ≠ some fat.freeCount := hhead.resolve_left hone
    obtain ⟨d₁, hloop, -, h'⟩ := FAT.Represents.allocLoop (c := 0) (l := [fat.freeCount]) hh
      (show 0 + fat.bpb.clusCnt ≤ _ by simp) (.inr hdata) hne (show 1 < n by omega) hlen
    rw [pending, if_neg hzero] at h'
    refine ⟨(fat.counted T).takeHint.decAvailCnt (n - 1), d₁, ?_, rfl, ?_⟩
    swap
    · simpa [FAT.freeList] using h'
    rw [h.allocClus_hint_more hhint hn hone, hloop]
    rfl

theorem FAT.Represents.freshChain_of_hint (h : fat.Represents d T) (hhint : fat.freeCount ≠ 0xFFFFFFFF)
    (hpos : 0 < n) (hdata : fat.bpb.DataClus fat.freeCount)
    (hhead : n = 1 ∨ (fat.freeList T).head? ≠ some fat.freeCount) {l : List Nat} {fat' : FAT}
    {d' : Device} (hrun : fat.allocClus d n = some (some l, fat', d')) :
    l = fat.freeCount :: ((fat.freeList T).erase fat.freeCount).take (n - 1) ∧ l.length = n ∧
      fat'.bpb = fat.bpb ∧ fat'.Represents d' (link T kFat32EocMark l) := by
  have hn : n ≤ fat.avail T := by
    by_contra hlt
    rw [h.allocClus_none (by omega)] at hrun
    exact absurd hrun (by simp)
  by_cases hlen : n - 1 ≤ ((fat.freeList T).erase fat.freeCount).length
  · obtain ⟨fat₁, d₁, halloc, hbpb, h'⟩ := h.allocClus_hint hhint hn hpos hdata hhead hlen
    rw [halloc] at hrun
    simp only [Option.some.injEq, Prod.mk.injEq] at hrun
    obtain ⟨rfl, rfl, rfl⟩ := hrun
    refine ⟨rfl, ?_, hbpb, h'⟩
    rw [List.length_cons, List.length_take_of_le hlen]
    omega
  · have hone : n ≠ 1 := fun hone => hlen (by rw [hone]; exact Nat.zero_le _)
    have hh : (fat.counted T).takeHint.Represents d T := by simpa using h
    rw [h.allocClus_hint_more hhint hn hone, Option.map_eq_some_iff] at hrun
    obtain ⟨r, hloop, -⟩ := hrun
    rw [FAT.Represents.allocLoop_stops (c := 0) (l := [fat.freeCount]) hh
      (show 0 + fat.bpb.clusCnt ≤ _ by simp) (.inr hdata) (hhead.resolve_left hone)
      (show ((freeFrom T 0 fat.bpb.clusCnt).erase fat.freeCount).length < n - 1 by
        change ¬ n - 1 ≤ ((freeFrom T 0 fat.bpb.clusCnt).erase fat.freeCount).length at hlen
        omega)] at hloop
    exact absurd hloop (by simp)

end hint

/-- A successful allocation hands out a fresh chain exactly when the pending hint is usable. -/
theorem FAT.freshChain_iff_hintUsable {fat fat' : FAT} {d d' : Device} {n : Nat} {l : List Nat}
    (hwf : fat.WellFormed d) (hpos : 0 < n)
    (hrun : fat.allocClus d n = some (some l, fat', d')) :
    fat.FreshChain d n l fat' d' ↔ fat.HintUsable (fat.entry d) n fat.freeCount := by
  have h := hwf.represents
  have hchain : ∀ {l : List Nat}, l ≠ [] → l.Nodup →
      (∀ x ∈ l, fat.bpb.DataClus x) → fat'.bpb = fat.bpb →
      fat'.Represents d' (link (fat.entry d) kFat32EocMark l) →
      fat'.readClusChains d' (l.headD 0) = some l := by
    intro l hne hnodup hdata hbpb h'
    obtain ⟨b, new, rfl⟩ := List.exists_cons_of_ne_nil hne
    rw [List.headD_cons]
    refine h'.readClusChains ⟨walk_link hnodup eoc_kFat32EocMark fun x hx =>
      hwf.sound.not_endOfClusChain (hdata x hx), ?_⟩ ?_
    · rw [hbpb]
      exact hdata
    · rw [hbpb]
      exact hdata b List.mem_cons_self
  by_cases hhint : fat.freeCount = 0xFFFFFFFF
  · refine iff_of_true ?_ (.inl hhint)
    rcases h.allocClus_cases hhint hpos hrun with ⟨-, hres, -⟩ | ⟨-, hfree, hres, rfl, -, h'⟩
    · exact absurd hres (by simp)
    obtain rfl := Option.some.inj hres
    have hnew := h.data_take_freeList n
    have hnodup := (nodup_freeList fat).sublist (List.take_sublist n (fat.freeList (fat.entry d)))
    have hlen : ((fat.freeList (fat.entry d)).take n).length = n := List.length_take_of_le hfree
    refine ⟨hlen, hnodup, hnew, hchain ?_ hnodup (fun x hx => (hnew x hx).1) rfl (by simpa using h')⟩
    rw [← List.length_pos_iff, hlen]
    exact hpos
  · have hpre := h.hint_prefix hhint hrun
    have hmem : fat.freeCount ∈ l := hpre.subset List.mem_cons_self
    constructor
    · intro hfresh
      obtain ⟨hdata, hfree⟩ := hfresh.free _ hmem
      refine .inr ⟨hdata, hfree, ?_⟩
      by_contra hcon
      rw [not_or, not_not] at hcon
      exact h.hint_twice hhint hcon.1 hcon.2 hrun hfresh.nodup
    · intro husable
      obtain ⟨hdata, hfree, hhead⟩ := husable.resolve_left hhint
      obtain ⟨rfl, hlen, hbpb, h'⟩ := h.freshChain_of_hint hhint hpos hdata hhead hrun
      have herase : fat.freeCount ∉ (fat.freeList (fat.entry d)).erase fat.freeCount :=
        (nodup_freeList fat).not_mem_erase
      have hnodup : (fat.freeCount :: ((fat.freeList (fat.entry d)).erase fat.freeCount).take
          (n - 1)).Nodup :=
        List.nodup_cons.mpr ⟨fun hin => herase (List.mem_of_mem_take hin),
          ((nodup_freeList fat).erase _).sublist (List.take_sublist _ _)⟩
      have hall : ∀ x ∈ fat.freeCount :: ((fat.freeList (fat.entry d)).erase fat.freeCount).take (n - 1),
          fat.bpb.DataClus x ∧ fat.entry d x = 0 := by
        intro x hx
        rcases List.mem_cons.mp hx with rfl | hx
        · exact ⟨hdata, hfree⟩
        · obtain ⟨hlt, hzero⟩ := mem_freeList.mp (List.mem_of_mem_erase (List.mem_of_mem_take hx))
          exact ⟨h.dataClus_of_free (by omega) hzero, hzero⟩
      exact ⟨hlen, hnodup, hall, hchain (by simp) hnodup (fun x hx => (hall x hx).1)
        hbpb h'⟩

end FuseFat32
