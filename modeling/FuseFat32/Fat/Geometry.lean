import FuseFat32.Fat.Clusters

/-!
# What the validation of the BPB promises

`isValidFat32BPB` looks at the jump bytes, at the number of clusters and at one field that has to be zero. The computations behind it divide by the sectors of a cluster, and the ones that come later take the sector size, the number of FATs and the size of the FAT as they are. The driver's own scans work in sectors of `SECTOR_SIZE` and find the entry of a cluster only when the BPB says the same.
-/

namespace FuseFat32

/-! ### Sound computations -/

/-- For cluster `n` no computation wraps, its FAT entry lies in the first copy at the place where the scans read it, and its sectors lie in the data region. -/
structure BPB.ClusSound (bpb : BPB) (n : Nat) : Prop where
  fatOffset : n * 4 < 2 ^ 32
  fatSector : bpb.resvdSecCnt.toNat + n * 4 / bpb.bytesPerSec.toNat < 2 ^ 32
  firstSector : (n - 2) * bpb.secPerClus.toNat + getFirstDataSector bpb < 2 ^ 32
  firstCopy : 0 < bpb.numFats.toNat ∧ getFirstFATSector bpb 0 ≤ (getClusPosOnFAT bpb n).fatSecNum ∧
    (getClusPosOnFAT bpb n).fatSecNum < getFirstFATSector bpb 0 + bpb.fatSz32.toNat
  inSector : (getClusPosOnFAT bpb n).fatEntOffset + 4 ≤ sectorSize
  scanned : getClusPosOnFAT bpb n = ⟨getFirstFATSector bpb 0 + n / entriesPerSec, n % entriesPerSec * 4⟩
  inData : ∀ j < bpb.secPerClus.toNat, getFirstDataSector bpb ≤ getFirstSectorOfCluster bpb n + j ∧
    getFirstSectorOfCluster bpb n + j < bpb.totSec32.toNat

/-- The computations of a driver that counts `cnt` clusters. -/
structure BPB.GeometrySound (bpb : BPB) (cnt : Nat) : Prop where
  fatSectors : bpb.resvdSecCnt.toNat + bpb.numFats.toNat * bpb.fatSz32.toNat < 2 ^ 32
  dataSectors : getFirstDataSector bpb ≤ bpb.totSec32.toNat
  sectorBytes : bpb.bytesPerSec.toNat ≠ 0
  clusters : ∀ n, 2 ≤ n → n ≤ cnt + 1 → bpb.ClusSound n

/-- The validation comes back, and what it accepts has a sound geometry. -/
def BPB.Validated (bpb : BPB) : Prop :=
  ∃ valid, isValidFat32BPB bpb = some valid ∧
    (valid = true → ∃ cnt, getCountOfClusters bpb = some cnt ∧ bpb.GeometrySound cnt)

/-! ### Fields that fit -/

/-- The fields that the validation does not look at. -/
structure BPB.FieldsFit (bpb : BPB) : Prop where
  bytesPerSec : bpb.bytesPerSec.toNat = sectorSize
  numFats : 0 < bpb.numFats.toNat
  regions : bpb.resvdSecCnt.toNat + bpb.numFats.toNat * bpb.fatSz32.toNat ≤ bpb.totSec32.toNat
  fatHolds : (bpb.clusCnt + 2) * 4 ≤ bpb.fatSz32.toNat * sectorSize
  offsets : bpb.clusCnt + 1 < 2 ^ 30

/-- The jump bytes are those of no boot sector. -/
def BPB.BadJump (bpb : BPB) : Prop := (bpb.jmpBoot0 ≠ 0xEB ∨ bpb.jmpBoot2 ≠ 0x90) ∧ bpb.jmpBoot0 ≠ 0xE9

instance (bpb : BPB) : Decidable bpb.BadJump := inferInstanceAs (Decidable (_ ∧ _))

theorem BPB.Sound.fieldsFit {bpb : BPB} (hs : bpb.Sound) : bpb.FieldsFit where
  bytesPerSec := hs.bytesPerSec
  numFats := hs.numFats
  regions := hs.regions
  fatHolds := hs.fatHolds
  offsets := by
    have hle := hs.clusCnt_le
    omega

section geometry

variable {bpb : BPB}

theorem getCountOfClusters_eq (hpos : bpb.secPerClus.toNat ≠ 0) :
    getCountOfClusters bpb = some (getDataSecCnt bpb / bpb.secPerClus.toNat) := by
  simp [getCountOfClusters, hpos]

private theorem isValidFat32BPB_badJump (hjump : bpb.BadJump) : isValidFat32BPB bpb = some false := by
  rw [isValidFat32BPB]
  exact if_pos hjump

/-- Past the jump bytes a cluster without sectors stops the process. -/
theorem isValidFat32BPB_zero (hjump : ¬ bpb.BadJump) (hzero : bpb.secPerClus.toNat = 0) :
    isValidFat32BPB bpb = none := by
  rw [isValidFat32BPB]
  refine (if_neg hjump).trans ?_
  simp [getCountOfClusters, hzero]

private theorem isValidFat32BPB_count (hjump : ¬ bpb.BadJump) (hpos : bpb.secPerClus.toNat ≠ 0) :
    isValidFat32BPB bpb =
      some (decide (65525 ≤ getDataSecCnt bpb / bpb.secPerClus.toNat ∧ bpb.fatSz16 = 0)) := by
  rw [isValidFat32BPB]
  refine (if_neg hjump).trans ?_
  rw [getCountOfClusters_eq hpos]
  simp only [Option.bind_eq_bind, Option.bind_some]
  split
  · next hfew =>
    rw [decide_eq_false fun h => absurd h.1 (by omega)]
    rfl
  · next hmany =>
    have henough : 65525 ≤ getDataSecCnt bpb / bpb.secPerClus.toNat := by omega
    simp only [henough, true_and]
    rfl

theorem getFirstFATSector_zero (bpb : BPB) : getFirstFATSector bpb 0 = bpb.resvdSecCnt.toNat := by
  have hresvd := bpb.resvdSecCnt.toNat_lt
  rw [getFirstFATSector, Nat.zero_mul, Nat.add_zero, u32_of_lt (by omega)]

theorem BPB.FieldsFit.firstDataSector (h : bpb.FieldsFit) : getFirstDataSector bpb =
    bpb.resvdSecCnt.toNat + bpb.numFats.toNat * bpb.fatSz32.toNat :=
  u32_of_lt (lt_of_le_of_lt h.regions bpb.totSec32.toNat_lt)

/-- The count of the driver is the number of clusters. -/
theorem getDataSecCnt_div
    (hregions : bpb.resvdSecCnt.toNat + bpb.numFats.toNat * bpb.fatSz32.toNat ≤ bpb.totSec32.toNat) :
    getDataSecCnt bpb / bpb.secPerClus.toNat = bpb.clusCnt := by
  have htot := bpb.totSec32.toNat_lt
  rw [getDataSecCnt, getFirstDataSector, u32_of_lt (by omega), u32Sub_of_le hregions htot, BPB.clusCnt]

/-! ### Fields that fit give a sound geometry -/

private theorem BPB.FieldsFit.clusSound (h : bpb.FieldsFit) {n : Nat} (hlo : 2 ≤ n) (hhi : n ≤ bpb.clusCnt + 1) :
    bpb.ClusSound n := by
  have hoffsets := h.offsets
  have hholds := h.fatHolds
  have hresvd := bpb.resvdSecCnt.toNat_lt
  have htot := bpb.totSec32.toNat_lt
  have hregions := h.regions
  have hfirst := h.firstDataSector
  have hoff : n * 4 < 2 ^ 32 := by omega
  have hpos := getClusPosOnFAT_eq h.bytesPerSec hoff
  -- the clusters up to `n` fill their part of the data region
  have hdiv := Nat.div_mul_le_self
    (bpb.totSec32.toNat - (bpb.resvdSecCnt.toNat + bpb.numFats.toNat * bpb.fatSz32.toNat))
    bpb.secPerClus.toNat
  have hstep : (n - 2 + 1) * bpb.secPerClus.toNat ≤ bpb.clusCnt * bpb.secPerClus.toNat :=
    Nat.mul_le_mul_right _ (by omega)
  rw [Nat.add_mul, Nat.one_mul] at hstep
  change bpb.clusCnt * bpb.secPerClus.toNat ≤ _ at hdiv
  have hsector : (n - 2) * bpb.secPerClus.toNat + getFirstDataSector bpb < 2 ^ 32 := by omega
  have hcluster : getFirstSectorOfCluster bpb n = (n - 2) * bpb.secPerClus.toNat + getFirstDataSector bpb := by
    rw [getFirstSectorOfCluster, u32Sub_of_le hlo (by omega), u32_of_lt hsector]
  simp only [sectorSize] at hholds
  constructor
  case fatOffset => exact hoff
  case fatSector =>
    rw [h.bytesPerSec, sectorSize]
    omega
  case firstSector => exact hsector
  case firstCopy =>
    rw [hpos, getFirstFATSector_zero]
    dsimp only
    exact ⟨h.numFats, by omega, by omega⟩
  case inSector =>
    rw [hpos]
    simp only [sectorSize]
    omega
  case scanned =>
    rw [hpos, getFirstFATSector_zero]
    rfl
  case inData =>
    intro j hj
    rw [hcluster]
    omega

private theorem BPB.FieldsFit.geometrySound (h : bpb.FieldsFit) : bpb.GeometrySound bpb.clusCnt where
  fatSectors := lt_of_le_of_lt h.regions bpb.totSec32.toNat_lt
  dataSectors := by
    rw [h.firstDataSector]
    exact h.regions
  sectorBytes := by
    rw [h.bytesPerSec]
    decide
  clusters := fun _ hlo hhi => h.clusSound hlo hhi

/-! ### And nothing less does -/

/-- Cluster 128 tells the sector size: its entry is the first one of the second sector. -/
theorem BPB.ClusSound.bytesPerSec (h : bpb.ClusSound 128) : bpb.bytesPerSec.toNat = sectorSize := by
  have hresvd := bpb.resvdSecCnt.toNat_lt
  have hscan := h.scanned
  rw [getFirstFATSector_zero] at hscan
  simp only [getClusPosOnFAT, entriesPerSec, sectorSize, FATPos.mk.injEq] at hscan
  obtain ⟨hsec, hoff⟩ := hscan
  have hfour : u32 (128 * 4) = 512 := rfl
  rw [hfour] at hsec hoff
  have hle := Nat.div_le_self 512 bpb.bytesPerSec.toNat
  rw [u32_of_lt (by omega)] at hsec
  have hone : 512 / bpb.bytesPerSec.toNat = 1 := by omega
  have hsplit := Nat.div_add_mod 512 bpb.bytesPerSec.toNat
  rw [hone, hoff] at hsplit
  simp only [sectorSize]
  omega

theorem BPB.GeometrySound.fieldsFit (hmany : 65525 ≤ bpb.clusCnt) (h : bpb.GeometrySound bpb.clusCnt) :
    bpb.FieldsFit := by
  have hbytes := (h.clusters 128 (by decide) (by omega)).bytesPerSec
  have hlast := h.clusters (bpb.clusCnt + 1) (by omega) le_rfl
  obtain ⟨hfats, -, hend⟩ := hlast.firstCopy
  rw [getClusPosOnFAT_eq hbytes hlast.fatOffset, getFirstFATSector_zero] at hend
  dsimp only at hend
  have hdata := h.dataSectors
  rw [getFirstDataSector, u32_of_lt h.fatSectors] at hdata
  have hoffset := hlast.fatOffset
  refine ⟨hbytes, hfats, hdata, ?_, by omega⟩
  simp only [sectorSize]
  omega

end geometry

/-- What the validation lets through is sound exactly when the fields it does not look at fit. -/
theorem BPB.validated_iff (bpb : BPB) : bpb.Validated ↔
    bpb.BadJump ∨ (bpb.secPerClus.toNat ≠ 0 ∧
      (getDataSecCnt bpb / bpb.secPerClus.toNat < 65525 ∨ bpb.fatSz16 ≠ 0 ∨ bpb.FieldsFit)) := by
  by_cases hjump : bpb.BadJump
  · exact iff_of_true ⟨false, isValidFat32BPB_badJump hjump, by simp⟩ (.inl hjump)
  simp only [hjump, false_or]
  by_cases hzero : bpb.secPerClus.toNat = 0
  · refine iff_of_false ?_ fun h => h.1 hzero
    rintro ⟨valid, hvalid, -⟩
    rw [isValidFat32BPB_zero hjump hzero] at hvalid
    cases hvalid
  simp only [ne_eq, hzero, not_false_eq_true, true_and]
  have hvalid := isValidFat32BPB_count hjump hzero
  have hcount := getCountOfClusters_eq hzero
  constructor
  · rintro ⟨valid, hrun, hsound⟩
    obtain rfl := Option.some.inj (hrun.symm.trans hvalid)
    by_cases hfew : getDataSecCnt bpb / bpb.secPerClus.toNat < 65525
    · exact .inl hfew
    by_cases hsize : bpb.fatSz16 = 0
    · obtain ⟨cnt, hcnt, hgeometry⟩ := hsound (decide_eq_true ⟨by omega, hsize⟩)
      have hdata := hgeometry.dataSectors
      rw [getFirstDataSector, u32_of_lt hgeometry.fatSectors] at hdata
      obtain rfl := Option.some.inj (hcnt.symm.trans hcount)
      rw [getDataSecCnt_div hdata] at hgeometry hfew
      exact .inr (.inr (hgeometry.fieldsFit (by omega)))
    · exact .inr (.inl hsize)
  · intro hcases
    refine ⟨_, hvalid, fun haccepted => ⟨_, hcount, ?_⟩⟩
    obtain ⟨hmany, hsize⟩ := of_decide_eq_true haccepted
    rcases hcases with hfew | hsize' | hfit
    · omega
    · exact absurd hsize hsize'
    · rw [getDataSecCnt_div hfit.regions]
      exact hfit.geometrySound

/-- A volume of 100000 sectors whose FAT is one sector long. -/
def shortFatBpb : BPB where
  jmpBoot0 := 0xE9
  jmpBoot2 := 0
  bytesPerSec := 512
  secPerClus := 1
  resvdSecCnt := 32
  numFats := 2
  fatSz16 := 0
  totSec32 := 100000
  fatSz32 := 1
  rootClus := 2
  fsInfo := 1

/-- It is accepted, and the entry of cluster 128 is in the second copy. -/
theorem BPB.not_validated_shortFat : isValidFat32BPB shortFatBpb = some true ∧ ¬ shortFatBpb.Validated := by
  have haccepted : isValidFat32BPB shortFatBpb = some true := by decide
  refine ⟨haccepted, ?_⟩
  rintro ⟨valid, hvalid, hsound⟩
  obtain rfl := Option.some.inj (haccepted.symm.trans hvalid)
  obtain ⟨cnt, hcnt, hgeometry⟩ := hsound rfl
  have hcount : getCountOfClusters shortFatBpb = some 99966 := by decide
  obtain rfl := Option.some.inj (hcount.symm.trans hcnt)
  exact absurd (hgeometry.clusters 128 (by decide) (by decide)).firstCopy.2.2 (by decide)

end FuseFat32
