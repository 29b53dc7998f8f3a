import FuseFat32.Fat.Clusters

/-!
# The FAT as a table

`FAT.Represents` says that a FAT object on a device shows a given table. The member functions touch the device only through reads and writes of single entries, and each of these is one lemma here: a read returns the value of the table, a write of a data cluster's entry updates the table at one place. What lies outside the FAT region never changes.
-/

namespace FuseFat32

/-- The object is well formed and its entries are those of `T`. -/
structure FAT.Represents (fat : FAT) (d : Device) (T : Nat → Nat) : Prop where
  wellFormed : fat.WellFormed d
  entry : ∀ n, n < fat.bpb.clusCnt + 2 → fat.entry d n = T n

theorem FAT.WellFormed.represents {fat : FAT} {d : Device} (hwf : fat.WellFormed d) :
    fat.Represents d (fat.entry d) := ⟨hwf, fun _ _ => rfl⟩

/-- The two members that change do not matter for the table. -/
theorem FAT.Represents.of_static {fat fat' : FAT} {d : Device} {T : Nat → Nat}
    (h : fat.Represents d T) (hbpb : fat'.bpb = fat.bpb) (hstart : fat'.startSecNo = fat.startSecNo)
    (hnum : fat'.fatSecNum = fat.fatSecNum) (hcnt : fat'.cntOfClus = fat.cntOfClus) :
    fat'.Represents d T := by
  cases fat'
  subst hbpb hstart hnum hcnt
  exact ⟨⟨h.wellFormed.sound, h.wellFormed.startSecNo, h.wellFormed.fatSecNum,
    h.wellFormed.cntOfClus, h.wellFormed.fits, h.wellFormed.reserved⟩, h.entry⟩

section primitives

variable {fat : FAT} {d d' : Device} {T : Nat → Nat}

@[simp] theorem FAT.bpb_incAvailCnt (no : Nat) : (fat.incAvailCnt no).bpb = fat.bpb := rfl

@[simp] theorem FAT.bpb_decAvailCnt (no : Nat) : (fat.decAvailCnt no).bpb = fat.bpb := rfl

@[simp] theorem FAT.cntOfClus_decAvailCnt (no : Nat) :
    (fat.decAvailCnt no).cntOfClus = fat.cntOfClus := rfl

@[simp] theorem FAT.availCnt_incAvailCnt (no : Nat) :
    (fat.incAvailCnt no).availCnt = fat.availCnt.map fun a => u32 (a + no) := rfl

@[simp] theorem FAT.availCnt_decAvailCnt (no : Nat) :
    (fat.decAvailCnt no).availCnt = fat.availCnt.map fun a => u32Sub a no := rfl

@[simp] theorem FAT.freeCount_incAvailCnt (no : Nat) :
    (fat.incAvailCnt no).freeCount = fat.freeCount := rfl

@[simp] theorem FAT.freeCount_decAvailCnt (no : Nat) :
    (fat.decAvailCnt no).freeCount = fat.freeCount := rfl

@[simp] theorem FAT.represents_incAvailCnt (no : Nat) :
    (fat.incAvailCnt no).Represents d T ↔ fat.Represents d T :=
  ⟨fun h => h.of_static rfl rfl rfl rfl, fun h => h.of_static rfl rfl rfl rfl⟩

@[simp] theorem FAT.represents_decAvailCnt (no : Nat) :
    (fat.decAvailCnt no).Represents d T ↔ fat.Represents d T :=
  ⟨fun h => h.of_static rfl rfl rfl rfl, fun h => h.of_static rfl rfl rfl rfl⟩

theorem FAT.incAvailCnt_incAvailCnt (i j : Nat) :
    (fat.incAvailCnt i).incAvailCnt j = fat.incAvailCnt (i + j) := by
  simp only [FAT.incAvailCnt, Option.map_map]
  congr 2
  funext a
  simp only [Function.comp_apply, u32]
  omega

theorem FAT.decAvailCnt_decAvailCnt (i j : Nat) :
    (fat.decAvailCnt i).decAvailCnt j = fat.decAvailCnt (i + j) := by
  simp only [FAT.decAvailCnt, Option.map_map]
  congr 2
  funext a
  simp only [Function.comp_apply, u32Sub, u32]
  omega

theorem FAT.Represents.dataClus_of_free (h : fat.Represents d T) {n : Nat}
    (hn : n < fat.bpb.clusCnt + 2) (hfree : T n = 0) : fat.bpb.DataClus n := by
  refine ⟨?_, hn⟩
  obtain ⟨h0, h1⟩ := h.wellFormed.reserved
  rw [h.entry 0 (by omega)] at h0
  rw [h.entry 1 (by omega)] at h1
  by_contra hlt
  have : n = 0 ∨ n = 1 := by omega
  rcases this with rfl | rfl <;> contradiction

theorem FAT.readClusEntry_eq (hs : fat.bpb.Sound) (hfits : fat.bpb.totSec32.toNat ≤ d.secCnt) {n : Nat}
    (hn : n < fat.bpb.clusCnt + 2) : fat.readClusEntry d n = some (fat.entry d n) := by
  simp only [FAT.readClusEntry, hs.clusPosOnFAT hn]
  exact FAT.readFatEntry_eq hs hfits hn

theorem FAT.Represents.readClusEntry (h : fat.Represents d T) {n : Nat}
    (hn : n < fat.bpb.clusCnt + 2) : fat.readClusEntry d n = some (T n) := by
  rw [FAT.readClusEntry_eq h.wellFormed.sound h.wellFormed.fits hn, h.entry n hn]

theorem FAT.Represents.scanEntry (h : fat.Represents d T) {n : Nat}
    (hn : n < fat.bpb.clusCnt + 2) : fat.scanEntry d n = some (T n) := by
  have hwf := h.wellFormed
  rw [FAT.scanEntry, hwf.startSecNo]
  exact (FAT.readFatEntry_eq hwf.sound hwf.fits hn).trans (congrArg some (h.entry n hn))

theorem FAT.Represents.inTable (h : fat.Represents d T) {n : Nat} (hn : n < fat.bpb.clusCnt + 2) :
    fat.inTable n = true := by
  have hwf := h.wellFormed
  have hrow := hwf.sound.entry_in_fat hn
  have hcopy := hwf.sound.copy_le hwf.sound.numFats
  have hfirst := hwf.sound.firstDataSector_le
  have htot := fat.bpb.totSec32.toNat_lt
  rw [FAT.inTable, FAT.endSecNo, hwf.startSecNo, hwf.fatSecNum, u32_of_lt (by omega)]
  simpa [entriesPerSec, sectorSize] using hrow

/-- A write updates the table at one place. -/
theorem FAT.Represents.writeClusEntry (h : fat.Represents d T) {n : Nat} (hn : fat.bpb.DataClus n)
    {val : Nat} (hval : val < 2 ^ 28) :
    ∃ d', fat.writeClusEntry d n val = some d' ∧ fat.bpb.OnlyFat d d' ∧
      fat.Represents d' (Function.update T n val) := by
  have hwf := h.wellFormed
  obtain ⟨d', hrun, honly, hentry⟩ := FAT.writeFatEntry_eq hwf.sound hwf.fits hn.2 val
  have htable : ∀ m, m < fat.bpb.clusCnt + 2 → fat.entry d' m = Function.update T n val m := by
    intro m hm
    rw [hentry m hm, Function.update_apply, Nat.mod_eq_of_lt hval, h.entry m hm]
  refine ⟨d', ?_, honly, ⟨⟨hwf.sound, hwf.startSecNo, hwf.fatSecNum, hwf.cntOfClus, ?_, ?_⟩, htable⟩⟩
  · simp only [FAT.writeClusEntry, hwf.sound.clusPosOnFAT hn.2, hrun]
  · rw [honly.secCnt]
    exact hwf.fits
  · rw [hentry 0 (by omega), hentry 1 (by omega), if_neg (by have := hn.1; omega),
      if_neg (by have := hn.1; omega)]
    exact hwf.reserved

/-- Changes outside the FAT do not matter for the table. -/
theorem FAT.Represents.of_data (h : fat.Represents d T) (hcnt : d'.secCnt = d.secCnt)
    (hval : ∀ s, fat.bpb.resvdSecCnt.toNat ≤ s → s < getFirstDataSector fat.bpb →
      d'.value s = d.value s) : fat.Represents d' T := by
  have hwf := h.wellFormed
  have hentry : ∀ n, n < fat.bpb.clusCnt + 2 → fat.entry d' n = fat.entry d n := by
    intro n hn
    have hrow := hwf.sound.entry_in_fat hn
    have hcopy := hwf.sound.copy_le hwf.sound.numFats
    refine fat.entry_congr (hval _ ?_ ?_) <;> rw [hwf.sound.clusPosOnFAT hn] <;> simp only <;> omega
  refine ⟨⟨hwf.sound, hwf.startSecNo, hwf.fatSecNum, hwf.cntOfClus, ?_, ?_⟩, fun n hn => ?_⟩
  · rw [hcnt]
    exact hwf.fits
  · rw [hentry 0 (by omega), hentry 1 (by omega)]
    exact hwf.reserved
  · rw [hentry n hn, h.entry n hn]

end primitives

/-! ### A device for every table -/

/-- A device whose FAT copies hold `T` and whose other sectors hold `data`. -/
def Device.ofTable (bpb : BPB) (T : Nat → Nat) (data : Nat → Nat → UInt8) : Device where
  secCnt := bpb.totSec32.toNat
  value s i :=
    if bpb.resvdSecCnt.toNat ≤ s ∧ s < getFirstDataSector bpb then
      (le32 (T ((s - bpb.resvdSecCnt.toNat) % bpb.fatSz32.toNat * 128 + i / 4))).getD (i % 4) 0
    else data s i
  stored := data

theorem read32_le32 {v : Nat → UInt8} {off w : Nat} (hw : w < 2 ^ 32)
    (h : ∀ k < 4, v (off + k) = (le32 w).getD k 0) : read32 v off = w := by
  have h0 := h 0 (by decide)
  have h1 := h 1 (by decide)
  have h2 := h 2 (by decide)
  have h3 := h 3 (by decide)
  simp only [Nat.add_zero] at h0
  simp only [read32, h0, h1, h2, h3, le32, List.getD_cons_zero, List.getD_cons_succ,
    UInt8.toNat_ofNat']
  omega

theorem FAT.new_eq {bpb : BPB} (hs : bpb.Sound) (free_count : Nat) : FAT.new bpb free_count =
    some ⟨bpb, bpb.resvdSecCnt.toNat, bpb.fatSz32.toNat, bpb.clusCnt, free_count, none⟩ := by
  have hresvd := bpb.resvdSecCnt.toNat_lt
  rw [FAT.new, hs.countOfClusters, getFirstFATSector, Nat.zero_mul, Nat.add_zero,
    u32_of_lt (by omega)]
  rfl

/-- Every table whose reserved entries are in use is the table of some device. -/
theorem FAT.represents_ofTable {fat : FAT} {bpb : BPB} {free_count : Nat} (hs : bpb.Sound)
    (hnew : FAT.new bpb free_count = some fat) {T : Nat → Nat} (hT : ∀ n, T n < 2 ^ 28)
    (h0 : T 0 ≠ 0) (h1 : T 1 ≠ 0) (data : Nat → Nat → UInt8) :
    fat.Represents (Device.ofTable bpb T data) T := by
  obtain rfl := Option.some.inj ((FAT.new_eq hs free_count).symm.trans hnew)
  have hentry : ∀ n, n < bpb.clusCnt + 2 → FAT.entry
      ⟨bpb, bpb.resvdSecCnt.toNat, bpb.fatSz32.toNat, bpb.clusCnt, free_count, none⟩
      (Device.ofTable bpb T data) n = T n := by
    intro n hn
    have hrow := hs.entry_in_fat hn
    have hcopy := hs.copy_le hs.numFats
    have hword := hT n
    rw [FAT.entry]
    simp only [hs.clusPosOnFAT hn]
    rw [readFATClusEntryVal_eq, read32_le32 (w := T n) (by omega), Nat.mod_eq_of_lt hword]
    intro k hk
    have hindex : (bpb.resvdSecCnt.toNat + n / 128 - bpb.resvdSecCnt.toNat) % bpb.fatSz32.toNat *
        128 + (n % 128 * 4 + k) / 4 = n := by
      rw [Nat.add_sub_cancel_left, Nat.mod_eq_of_lt hrow]
      omega
    have hbyte : (n % 128 * 4 + k) % 4 = k := by omega
    simp only [Device.ofTable, hindex, hbyte]
    rw [if_pos (by omega)]
  refine ⟨⟨hs, rfl, rfl, rfl, le_rfl, ?_⟩, hentry⟩
  rw [hentry 0 (by omega), hentry 1 (by omega)]
  exact ⟨h0, h1⟩

end FuseFat32
