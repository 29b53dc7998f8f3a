import FuseFat32.Machine.Device

/-!
# The BIOS parameter block

The first sector of the volume fixes where the FAT and the data clusters lie. The computations of `fat32.h` follow, each truncated where the source truncates, and then `BPB.Sound`: the geometry in which none of them wraps and the FAT has an entry for every cluster. A sound geometry is what the rest of the development assumes of a volume, and the lemmas below are all it needs to know about the arithmetic.
-/

namespace FuseFat32

structure BPB where
  jmpBoot0 : UInt8
  jmpBoot2 : UInt8
  bytesPerSec : UInt16
  secPerClus : UInt8
  resvdSecCnt : UInt16
  numFats : UInt8
  fatSz16 : UInt16
  totSec32 : UInt32
  fatSz32 : UInt32
  rootClus : UInt32
  fsInfo : UInt16

/-- The packed structure at the start of a sector. -/
def BPB.ofSector (v : Nat → UInt8) : BPB where
  jmpBoot0 := v 0
  jmpBoot2 := v 2
  bytesPerSec := UInt16.ofNat (read16 v 11)
  secPerClus := v 13
  resvdSecCnt := UInt16.ofNat (read16 v 14)
  numFats := v 16
  fatSz16 := UInt16.ofNat (read16 v 22)
  totSec32 := UInt32.ofNat (read32 v 32)
  fatSz32 := UInt32.ofNat (read32 v 36)
  rootClus := UInt32.ofNat (read32 v 44)
  fsInfo := UInt16.ofNat (read16 v 48)

/-! ### Where things lie -/

def getFirstFATSector (bpb : BPB) (n : Nat) : Nat :=
  u32 (bpb.resvdSecCnt.toNat + n * bpb.fatSz32.toNat)

def getFirstDataSector (bpb : BPB) : Nat :=
  u32 (bpb.resvdSecCnt.toNat + bpb.numFats.toNat * bpb.fatSz32.toNat)

def getFirstSectorOfCluster (bpb : BPB) (n : Nat) : Nat :=
  u32 (u32Sub n 2 * bpb.secPerClus.toNat + getFirstDataSector bpb)

def getDataSecCnt (bpb : BPB) : Nat := u32Sub bpb.totSec32.toNat (getFirstDataSector bpb)

def bytesPerClus (bpb : BPB) : Nat := bpb.secPerClus.toNat * bpb.bytesPerSec.toNat

/-- The division stops the process when a cluster has no sectors. -/
def getCountOfClusters (bpb : BPB) : Exec Nat := do
  assert (bpb.secPerClus.toNat ≠ 0)
  return getDataSecCnt bpb / bpb.secPerClus.toNat

def isValidFat32BPB (bpb : BPB) : Exec Bool := do
  if (bpb.jmpBoot0 ≠ 0xEB ∨ bpb.jmpBoot2 ≠ 0x90) ∧ bpb.jmpBoot0 ≠ 0xE9 then
    return false
  let cnt ← getCountOfClusters bpb
  if cnt < 65525 then
    return false
  return bpb.fatSz16 = 0

structure FATPos where
  fatSecNum : Nat
  fatEntOffset : Nat

def getClusPosOnFAT (bpb : BPB) (n : Nat) : FATPos :=
  let fat_offset := u32 (n * 4)
  ⟨u32 (bpb.resvdSecCnt.toNat + fat_offset / bpb.bytesPerSec.toNat),
    fat_offset % bpb.bytesPerSec.toNat⟩

def isValidCluster (clus_no : Nat) : Bool := clus_no ≠ 0 ∧ clus_no ≠ 1

def isEndOfClusChain (clus_no : Nat) : Bool := clus_no ≥ 0x0FFFFFF8

def kFat32EocMark : Nat := 0x0FFFFFF8

/-! ### Sound geometries -/

/-- The number of data clusters, without truncation. -/
def BPB.clusCnt (bpb : BPB) : Nat :=
  (bpb.totSec32.toNat - (bpb.resvdSecCnt.toNat + bpb.numFats.toNat * bpb.fatSz32.toNat)) /
    bpb.secPerClus.toNat

/-- The regions of the volume follow one another, the FAT has an entry for every cluster, and no cluster number is an end-of-chain mark. -/
structure BPB.Sound (bpb : BPB) : Prop where
  bytesPerSec : bpb.bytesPerSec.toNat = sectorSize
  secPerClus : 0 < bpb.secPerClus.toNat
  numFats : 0 < bpb.numFats.toNat
  regions : bpb.resvdSecCnt.toNat + bpb.numFats.toNat * bpb.fatSz32.toNat ≤ bpb.totSec32.toNat
  fatHolds : (bpb.clusCnt + 2) * 4 ≤ bpb.fatSz32.toNat * sectorSize
  clusCnt_le : bpb.clusCnt ≤ 0x0FFFFFF5

/-- The numbers of the data clusters. -/
def BPB.DataClus (bpb : BPB) (n : Nat) : Prop := 2 ≤ n ∧ n < bpb.clusCnt + 2

instance (bpb : BPB) (n : Nat) : Decidable (bpb.DataClus n) :=
  inferInstanceAs (Decidable (_ ∧ _))

namespace BPB.Sound

variable {bpb : BPB} (hs : bpb.Sound)

include hs

theorem firstDataSector : getFirstDataSector bpb =
    bpb.resvdSecCnt.toNat + bpb.numFats.toNat * bpb.fatSz32.toNat :=
  u32_of_lt (lt_of_le_of_lt hs.regions bpb.totSec32.toNat_lt)

theorem countOfClusters : getCountOfClusters bpb = some bpb.clusCnt := by
  have hpos := hs.secPerClus
  have hdata : getDataSecCnt bpb =
      bpb.totSec32.toNat - (bpb.resvdSecCnt.toNat + bpb.numFats.toNat * bpb.fatSz32.toNat) := by
    rw [getDataSecCnt, hs.firstDataSector, u32Sub_of_le hs.regions bpb.totSec32.toNat_lt]
  simp [getCountOfClusters, hdata, BPB.clusCnt, hpos.ne']

theorem clusters_fit : getFirstDataSector bpb + bpb.clusCnt * bpb.secPerClus.toNat ≤
    bpb.totSec32.toNat := by
  have hdiv := Nat.div_mul_le_self
    (bpb.totSec32.toNat - (bpb.resvdSecCnt.toNat + bpb.numFats.toNat * bpb.fatSz32.toNat))
    bpb.secPerClus.toNat
  have hreg := hs.regions
  rw [hs.firstDataSector, BPB.clusCnt]
  omega

theorem dataClus_lt {n : Nat} (hn : bpb.DataClus n) : n < 0x0FFFFFF7 := by
  have hle := hs.clusCnt_le
  have hlt := hn.2
  omega

theorem not_endOfClusChain {n : Nat} (hn : bpb.DataClus n) : ¬ isEndOfClusChain n = true := by
  have hlt := hs.dataClus_lt hn
  simp only [isEndOfClusChain, ge_iff_le, decide_eq_true_eq, not_le]
  omega

theorem firstSectorOfCluster {n : Nat} (hn : bpb.DataClus n) : getFirstSectorOfCluster bpb n =
    (n - 2) * bpb.secPerClus.toNat + getFirstDataSector bpb := by
  have hlt := hs.dataClus_lt hn
  have hfit := hs.clusters_fit
  have htot := bpb.totSec32.toNat_lt
  have hmul : (n - 2) * bpb.secPerClus.toNat ≤ bpb.clusCnt * bpb.secPerClus.toNat :=
    Nat.mul_le_mul_right _ (by have := hn.2; omega)
  rw [getFirstSectorOfCluster, u32Sub_of_le hn.1 (by omega), u32_of_lt (by omega)]

/-- A sector of a cluster lies in the data region and on the volume. -/
theorem sector_bounds {n j : Nat} (hn : bpb.DataClus n) (hj : j < bpb.secPerClus.toNat) :
    getFirstDataSector bpb ≤ getFirstSectorOfCluster bpb n + j ∧
      getFirstSectorOfCluster bpb n + j < bpb.totSec32.toNat := by
  have hfit := hs.clusters_fit
  have hstep : (n - 2 + 1) * bpb.secPerClus.toNat ≤ bpb.clusCnt * bpb.secPerClus.toNat :=
    Nat.mul_le_mul_right _ (by have := hn.1; have := hn.2; omega)
  rw [Nat.add_mul, Nat.one_mul] at hstep
  rw [hs.firstSectorOfCluster hn]
  omega

/-- Two clusters share no sector. -/
theorem sector_injective {m n i j : Nat} (hm : bpb.DataClus m) (hn : bpb.DataClus n)
    (hi : i < bpb.secPerClus.toNat) (hj : j < bpb.secPerClus.toNat)
    (heq : getFirstSectorOfCluster bpb m + i = getFirstSectorOfCluster bpb n + j) :
    m = n ∧ i = j := by
  rw [hs.firstSectorOfCluster hm, hs.firstSectorOfCluster hn] at heq
  have hflat : i + bpb.secPerClus.toNat * (m - 2) = j + bpb.secPerClus.toNat * (n - 2) := by
    rw [Nat.mul_comm _ (m - 2), Nat.mul_comm _ (n - 2)]
    omega
  have hdiv := congrArg (· / bpb.secPerClus.toNat) hflat
  have hmod := congrArg (· % bpb.secPerClus.toNat) hflat
  simp only [Nat.add_mul_div_left _ _ hs.secPerClus, Nat.div_eq_of_lt hi, Nat.div_eq_of_lt hj,
    Nat.add_mul_mod_self_left, Nat.mod_eq_of_lt hi, Nat.mod_eq_of_lt hj] at hdiv hmod
  have := hm.1
  have := hn.1
  omega

theorem clusPosOnFAT {n : Nat} (hn : n < bpb.clusCnt + 2) : getClusPosOnFAT bpb n =
    ⟨bpb.resvdSecCnt.toNat + n / 128, n % 128 * 4⟩ := by
  have hle := hs.clusCnt_le
  have hresvd := bpb.resvdSecCnt.toNat_lt
  have hbps : bpb.bytesPerSec.toNat = 512 := hs.bytesPerSec
  simp only [getClusPosOnFAT, hbps, u32, FATPos.mk.injEq]
  omega

theorem entry_in_fat {n : Nat} (hn : n < bpb.clusCnt + 2) : n / 128 < bpb.fatSz32.toNat := by
  have hholds := hs.fatHolds
  simp only [sectorSize] at hholds
  omega

theorem copy_le {i : Nat} (hi : i < bpb.numFats.toNat) :
    bpb.resvdSecCnt.toNat + i * bpb.fatSz32.toNat + bpb.fatSz32.toNat ≤ getFirstDataSector bpb := by
  have hstep : (i + 1) * bpb.fatSz32.toNat ≤ bpb.numFats.toNat * bpb.fatSz32.toNat :=
    Nat.mul_le_mul_right _ hi
  rw [Nat.add_mul, Nat.one_mul] at hstep
  rw [hs.firstDataSector]
  omega

theorem firstDataSector_le : getFirstDataSector bpb ≤ bpb.totSec32.toNat := by
  rw [hs.firstDataSector]
  exact hs.regions

end BPB.Sound

end FuseFat32
