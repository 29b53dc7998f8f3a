import FuseFat32.Fat.Hint

/-!
# Mounting

`FAT32fs::from` reads the BPB and the FSInfo sector, and makes the FAT object with FSInfo's `free_count` in the place of the allocation hint. That field is a number of clusters, not the number of a cluster, so the first successful allocation after a mount is right only for the values that happen to be usable hints.
-/

namespace FuseFat32

open LinkedTable

def kFsInfoLeadSig : Nat := 0x41615252

def kStrucSig : Nat := 0x61417272

def kTrailSig : Nat := 0xAA550000

/-- The offset of `free_count` in the FSInfo sector; `nxt_free` follows it. -/
def freeCountOffset : Nat := 488

def assertFSInfo (fs_info : Nat → UInt8) : Exec Unit := do
  assert (read32 fs_info 0 = kFsInfoLeadSig)
  assert (read32 fs_info 484 = kStrucSig)
  assert (read32 fs_info 508 = kTrailSig)

structure FAT32fs where
  bpb : BPB
  fat : FAT
  device : Device

/-- `FAT32fs::from`: both counters of FSInfo are marked invalid once the first has been taken over. -/
def FAT32fs.from (d : Device) : Exec FAT32fs := do
  let fst_sec ← d.readSector 0
  let bpb := BPB.ofSector fst_sec
  let valid ← isValidFat32BPB bpb
  -- `exit(1)`
  assert valid
  let fs_info ← d.readSector bpb.fsInfo.toNat
  assertFSInfo fs_info
  let fat ← FAT.new bpb (read32 fs_info freeCountOffset)
  let d := d.write bpb.fsInfo.toNat freeCountOffset (le32 0xFFFFFFFF)
  let d := d.write bpb.fsInfo.toNat (freeCountOffset + 4) (le32 0xFFFFFFFF)
  return ⟨bpb, fat, d⟩

/-- The `free_count` of the FSInfo sector before the mount. -/
def Device.fsInfoFreeCount (d : Device) : Nat :=
  read32 (d.value (BPB.ofSector (d.value 0)).fsInfo.toNat) freeCountOffset

theorem FAT.freeCount_new {bpb : BPB} {free_count : Nat} {fat : FAT}
    (hnew : FAT.new bpb free_count = some fat) : fat.freeCount = free_count := by
  rw [FAT.new] at hnew
  obtain ⟨cnt, -, hnew⟩ := Option.bind_eq_some_iff.mp hnew
  obtain rfl := Option.some.inj hnew
  rfl

/-- The mounted object carries FSInfo's count as its hint. -/
theorem FAT32fs.from_freeCount {d : Device} {fs : FAT32fs} (hfrom : FAT32fs.from d = some fs) :
    fs.fat.freeCount = d.fsInfoFreeCount := by
  simp only [FAT32fs.from, Option.bind_eq_bind, Option.bind_eq_some_iff] at hfrom
  obtain ⟨v, hv, valid, -, -, -, info, hinfo, -, -, fat, hnew, hfrom⟩ := hfrom
  obtain ⟨-, rfl⟩ := (d.readSector_eq_some _).mp hv
  obtain ⟨-, rfl⟩ := (d.readSector_eq_some _).mp hinfo
  obtain rfl := Option.some.inj hfrom
  exact FAT.freeCount_new hnew

/-- The first successful allocation after a mount hands out a fresh chain exactly when FSInfo's count is a usable hint. The calls before it, failed allocations and releases, leave the hint pending. -/
theorem FAT32fs.first_alloc_iff (d : Device) (fs : FAT32fs) (hfrom : FAT32fs.from d = some fs)
    (fat : FAT) (d₀ : Device) (hhint : fat.freeCount = fs.fat.freeCount) (hwf : fat.WellFormed d₀)
    (n : Nat) (hpos : 0 < n) (l : List Nat) (fat' : FAT) (d' : Device)
    (hrun : fat.allocClus d₀ n = some (some l, fat', d')) :
    fat.FreshChain d₀ n l fat' d' ↔ fat.HintUsable (fat.entry d₀) n d.fsInfoFreeCount := by
  rw [← FAT32fs.from_freeCount hfrom, ← hhint]
  exact FAT.freshChain_iff_hintUsable hwf hpos hrun

/-! A volume with one-sector clusters that the mount accepts. -/

def mountBpb : BPB where
  jmpBoot0 := 0xEB
  jmpBoot2 := 0x90
  bytesPerSec := 512
  secPerClus := 1
  resvdSecCnt := 32
  numFats := 1
  fatSz16 := 0
  totSec32 := 66078
  fatSz32 := 512
  rootClus := 2
  fsInfo := 1

theorem mountBpb_sound : mountBpb.Sound := by
  constructor <;> decide

/-- The bytes of its boot sector that are not zero. -/
def bootBytes : List (Nat × UInt8) :=
  [(0, 0xEB), (2, 0x90), (12, 2), (13, 1), (14, 32), (16, 1), (32, 0x1E), (33, 2), (34, 1), (37, 2),
    (44, 2), (48, 1)]

/-- The signatures of its FSInfo sector. -/
def fsInfoBytes : List (Nat × UInt8) :=
  [(0, 0x52), (1, 0x52), (2, 0x61), (3, 0x41), (484, 0x72), (485, 0x72), (486, 0x41), (487, 0x61),
    (510, 0x55), (511, 0xAA)]

/-- The boot sector and the FSInfo sector with the given count. -/
def mountSectors (free_count : Nat) (s i : Nat) : UInt8 :=
  if s = 0 then (bootBytes.lookup i).getD 0
  else if 488 ≤ i ∧ i < 492 then (le32 free_count).getD (i - 488) 0
  else (fsInfoBytes.lookup i).getD 0

/-- Only the root directory is in use. -/
def mountTable (n : Nat) : Nat := if n < 3 then kFat32EocMark else 0

def mountDevice (free_count : Nat) : Device :=
  Device.ofTable mountBpb mountTable (mountSectors free_count)

private theorem mountDevice_value (free_count : Nat) {s : Nat} (hs : s < 32) :
    (mountDevice free_count).value s = mountSectors free_count s := by
  funext i
  exact if_neg fun h => absurd (show 32 ≤ s from h.1) (by omega)

theorem mountSectors_bpb (free_count : Nat) :
    BPB.ofSector (mountSectors free_count 0) = mountBpb := by
  simp [BPB.ofSector, read16, read32, mountSectors, bootBytes, List.lookup_cons, mountBpb]

theorem mountSectors_fsInfo (free_count : Nat) :
    assertFSInfo (mountSectors free_count 1) = some () := by
  simp [assertFSInfo, read32, mountSectors, fsInfoBytes, List.lookup_cons, kFsInfoLeadSig, kStrucSig,
    kTrailSig]

private theorem mountSectors_freeCount {free_count : Nat} (hcnt : free_count < 2 ^ 32) :
    read32 (mountSectors free_count 1) freeCountOffset = free_count := by
  refine read32_le32 hcnt fun k hk => ?_
  have hcases : k = 0 ∨ k = 1 ∨ k = 2 ∨ k = 3 := by omega
  rcases hcases with rfl | rfl | rfl | rfl <;> rfl

theorem mountBpb_valid : isValidFat32BPB mountBpb = some true := by decide

theorem mountDevice_from {free_count : Nat} (hcnt : free_count < 2 ^ 32) : ∃ fs,
    FAT32fs.from (mountDevice free_count) = some fs ∧ fs.fat.bpb = mountBpb ∧
      fs.fat.freeCount = free_count ∧ fs.fat.availCnt = none ∧
      fs.fat.Represents fs.device mountTable := by
  obtain ⟨fat, hnew⟩ : ∃ fat, FAT.new mountBpb free_count = some fat :=
    ⟨_, FAT.new_eq mountBpb_sound free_count⟩
  have hrep := FAT.represents_ofTable mountBpb_sound hnew (T := mountTable)
    (fun n => by simp only [mountTable]; split <;> decide) (by decide) (by decide)
    (mountSectors free_count)
  have hmembers : fat.bpb = mountBpb ∧ fat.availCnt = none := by
    obtain rfl := Option.some.inj ((FAT.new_eq mountBpb_sound free_count).symm.trans hnew)
    exact ⟨rfl, rfl⟩
  have hsec : ∀ s, s < 32 → (mountDevice free_count).readSector s = some (mountSectors free_count s) := by
    intro s hs
    rw [Device.readSector_of_lt _ _ (show s < 66078 by omega), mountDevice_value free_count hs]
  have hboot : (mountDevice free_count).readSector 0 = some (mountSectors free_count 0) :=
    hsec 0 (by decide)
  have hinfo : (mountDevice free_count).readSector mountBpb.fsInfo.toNat =
      some (mountSectors free_count 1) := hsec 1 (by decide)
  have hrun : FAT32fs.from (mountDevice free_count) = some ⟨mountBpb, fat,
      ((mountDevice free_count).write 1 freeCountOffset (le32 0xFFFFFFFF)).write 1
        (freeCountOffset + 4) (le32 0xFFFFFFFF)⟩ := by
    simp only [FAT32fs.from, hboot, Option.bind_eq_bind, Option.bind_some, mountSectors_bpb,
      mountBpb_valid, assert_true, hinfo, mountSectors_fsInfo, mountSectors_freeCount hcnt, hnew]
    rfl
  refine ⟨_, hrun, hmembers.1, FAT.freeCount_new hnew, hmembers.2, hrep.of_data rfl fun s hlow _ => ?_⟩
  have hne : s ≠ 1 := by
    rw [hmembers.1] at hlow
    change 32 ≤ s at hlow
    omega
  funext i
  rw [Device.value_write_of_ne _ _ _ _ hne, Device.value_write_of_ne _ _ _ _ hne]
  rfl

theorem mountDevice_freeList {fs : FAT32fs} (hbpb : fs.fat.bpb = mountBpb) :
    ∃ rest, fs.fat.freeList mountTable = [3, 4, 5] ++ rest := by
  refine ⟨freeFrom mountTable 6 (mountBpb.clusCnt - 6), ?_⟩
  have hcnt : mountBpb.clusCnt = 6 + (mountBpb.clusCnt - 6) := by decide
  rw [FAT.freeList, hbpb, hcnt, freeFrom_append, ← hcnt]
  rfl

theorem mountDevice_avail {fs : FAT32fs} (hbpb : fs.fat.bpb = mountBpb)
    (hnone : fs.fat.availCnt = none) : 3 ≤ fs.fat.avail mountTable := by
  obtain ⟨rest, hlist⟩ := mountDevice_freeList hbpb
  rw [FAT.avail, hnone, Option.getD_none, hlist, List.length_append]
  exact Nat.le_add_right 3 _

/-- With a count of 5 in FSInfo a chain of two clusters starts there, and it is fresh. -/
theorem FAT32fs.first_alloc_iff_hint : ∃ fs l fat' d',
    FAT32fs.from (mountDevice 5) = some fs ∧
      fs.fat.allocClus fs.device 2 = some (some l, fat', d') ∧ l = [5, 3] ∧
      fs.fat.FreshChain fs.device 2 l fat' d' := by
  obtain ⟨fs, hfrom, hbpb, hhint, hnone, hrep⟩ := mountDevice_from (show 5 < 2 ^ 32 by decide)
  obtain ⟨rest, hlist⟩ := mountDevice_freeList hbpb
  have havail := mountDevice_avail hbpb hnone
  have hdata : fs.fat.bpb.DataClus 5 := by
    rw [hbpb]
    decide
  have herase : (fs.fat.freeList mountTable).erase fs.fat.freeCount = [3, 4] ++ rest := by
    rw [hlist, hhint]
    rfl
  obtain ⟨fat', d', hrun, -⟩ := hrep.allocClus_hint (n := 2) (by rw [hhint]; decide) (by omega) two_pos
    (by rwa [hhint]) (.inr (by simp [hlist, hhint]))
    (by rw [herase, List.length_append]; exact Nat.le_add_right_of_le (by decide))
  have hl : fs.fat.freeCount :: ((fs.fat.freeList mountTable).erase fs.fat.freeCount).take (2 - 1) =
      [5, 3] := by
    rw [herase, hhint]
    rfl
  refine ⟨fs, _, fat', d', hfrom, hrun, hl, ?_⟩
  refine (FAT32fs.first_alloc_iff _ fs hfrom fs.fat fs.device rfl hrep.wellFormed 2 two_pos _ _ _
    hrun).mpr (.inr ?_)
  rw [← FAT32fs.from_freeCount hfrom, hhint]
  have hentry : ∀ n < mountBpb.clusCnt + 2, fs.fat.entry fs.device n = mountTable n := fun n hn =>
    hrep.entry n (by rw [hbpb]; exact hn)
  have hsame : fs.fat.freeList (fs.fat.entry fs.device) = fs.fat.freeList mountTable :=
    freeFrom_congr fun n _ hn => by
      rw [hentry n (by rw [hbpb] at hn; omega)]
  refine ⟨hdata, (hentry 5 (by decide)).trans rfl, .inr ?_⟩
  rw [hsame, hlist]
  simp

/-- With a count of 2 in FSInfo the first cluster handed out is that of the root directory. -/
theorem FAT32fs.first_alloc_not_fresh : ∃ fs l fat' d',
    FAT32fs.from (mountDevice 2) = some fs ∧ fs.fat.WellFormed fs.device ∧
      fs.fat.allocClus fs.device 1 = some (some l, fat', d') ∧
      l.headD 0 = mountBpb.rootClus.toNat ∧ ¬ fs.fat.FreshChain fs.device 1 l fat' d' := by
  obtain ⟨fs, hfrom, hbpb, hhint, hnone, hrep⟩ := mountDevice_from (show 2 < 2 ^ 32 by decide)
  have hroot : fs.fat.bpb.DataClus 2 := by
    rw [hbpb]
    decide
  obtain ⟨d', hwrite, -, -⟩ := hrep.writeClusEntry hroot (show kFat32EocMark < 2 ^ 28 by decide)
  have hroom := mountDevice_avail hbpb hnone
  have hrun := hrep.allocClus_hint_one (by rw [hhint]; decide) (by omega)
  rw [hhint, hwrite, Option.map_some] at hrun
  refine ⟨fs, [2], _, d', hfrom, hrep.wellFormed, hrun, rfl, fun hfresh => ?_⟩
  have hzero := (hfresh.free 2 List.mem_cons_self).2
  rw [hrep.entry 2 hroot.2] at hzero
  exact absurd hzero (by decide)

end FuseFat32
