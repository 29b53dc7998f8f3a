import FuseFat32.Fat.Bpb

/-!
# Entries of the FAT

An entry is a 32-bit word whose top four bits are reserved. `FAT::readFatEntry` reads the first copy and masks, `FAT::writeFatEntry` writes every copy and keeps the reserved bits. Seen from above the FAT is a table of 28-bit values, `FAT.entry`, and a write changes this table at one place and the device in the FAT region only.
-/

namespace FuseFat32

def readFATClusEntryVal (sec_buff : Nat → UInt8) (fat_ent_offset : Nat) : Nat :=
  read32 sec_buff fat_ent_offset &&& 0x0FFFFFFF

/-- The word that `writeFATClusEntryVal` leaves: the reserved bits of the old one, the value below. -/
def mergeFATClusEntryVal (old fat_clus_entry_val : Nat) : Nat :=
  (old &&& 0xF0000000) ||| (fat_clus_entry_val &&& 0x0FFFFFFF)

def writeFATClusEntryVal (d : Device) (sec_no fat_ent_offset fat_clus_entry_val : Nat) : Device :=
  d.write sec_no fat_ent_offset
    (le32 (mergeFATClusEntryVal (read32 (d.value sec_no) fat_ent_offset) fat_clus_entry_val))

/-- The members of `class FAT`; the device it shares with the file system is passed beside it. -/
structure FAT where
  bpb : BPB
  startSecNo : Nat
  fatSecNum : Nat
  cntOfClus : Nat
  /-- `free_count_`: a cluster number to hand out first, or `0xFFFFFFFF`. -/
  freeCount : Nat
  /-- `avail_clus_cnt_`. -/
  availCnt : Option Nat

/-- The constructor. -/
def FAT.new (bpb : BPB) (free_count : Nat) : Exec FAT := do
  let cnt_of_clus ← getCountOfClusters bpb
  return ⟨bpb, getFirstFATSector bpb 0, bpb.fatSz32.toNat, cnt_of_clus, free_count, none⟩

def FAT.endSecNo (fat : FAT) : Nat := u32 (fat.startSecNo + fat.fatSecNum)

def FAT.readFatEntry (d : Device) (sec_no fat_ent_offset : Nat) : Exec Nat := do
  let sector ← d.readSector sec_no
  return readFATClusEntryVal sector fat_ent_offset

/-- One round of the loop in `writeFatEntry`: copy `i` of the FAT. -/
def FAT.writeFatCopy (fat : FAT) (sec_no fat_ent_offset val : Nat) (d : Device) (i : Nat) :
    Exec Device := do
  let copy := u32 (sec_no + i * fat.bpb.fatSz32.toNat)
  let _ ← d.readSector copy
  return writeFATClusEntryVal d copy fat_ent_offset val

def FAT.writeFatEntry (fat : FAT) (d : Device) (sec_no fat_ent_offset val : Nat) : Exec Device :=
  (List.range fat.bpb.numFats.toNat).foldlM (fat.writeFatCopy sec_no fat_ent_offset val) d

/-- The value of entry `n` in the first copy. -/
def FAT.entry (fat : FAT) (d : Device) (n : Nat) : Nat :=
  readFATClusEntryVal (d.value (getClusPosOnFAT fat.bpb n).fatSecNum)
    (getClusPosOnFAT fat.bpb n).fatEntOffset

/-- A FAT object on a device: sound geometry, a device that holds the volume, and the format's marks in the two reserved entries. -/
structure FAT.WellFormed (fat : FAT) (d : Device) : Prop where
  sound : fat.bpb.Sound
  startSecNo : fat.startSecNo = fat.bpb.resvdSecCnt.toNat
  fatSecNum : fat.fatSecNum = fat.bpb.fatSz32.toNat
  cntOfClus : fat.cntOfClus = fat.bpb.clusCnt
  fits : fat.bpb.totSec32.toNat ≤ d.secCnt
  reserved : fat.entry d 0 ≠ 0 ∧ fat.entry d 1 ≠ 0

/-- Two devices of one size that differ in the FAT region at most. -/
structure BPB.OnlyFat (bpb : BPB) (d d' : Device) : Prop where
  secCnt : d'.secCnt = d.secCnt
  stored : d'.stored = d.stored
  value : ∀ s, s < bpb.resvdSecCnt.toNat ∨ getFirstDataSector bpb ≤ s → d'.value s = d.value s

theorem BPB.OnlyFat.refl (bpb : BPB) (d : Device) : bpb.OnlyFat d d := ⟨rfl, rfl, fun _ _ => rfl⟩

theorem BPB.OnlyFat.trans {bpb : BPB} {d d' d'' : Device} (h : bpb.OnlyFat d d')
    (h' : bpb.OnlyFat d' d'') : bpb.OnlyFat d d'' :=
  ⟨h'.secCnt.trans h.secCnt, h'.stored.trans h.stored,
    fun s hs => (h'.value s hs).trans (h.value s hs)⟩

/-! ### The masks -/

theorem readFATClusEntryVal_eq (v : Nat → UInt8) (off : Nat) :
    readFATClusEntryVal v off = read32 v off % 2 ^ 28 :=
  Nat.and_two_pow_sub_one_eq_mod _ 28

private theorem readFATClusEntryVal_lt (v : Nat → UInt8) (off : Nat) : readFATClusEntryVal v off < 2 ^ 28 := by
  rw [readFATClusEntryVal_eq]
  exact Nat.mod_lt _ (by decide)

private theorem mergeFATClusEntryVal_lt (old val : Nat) : mergeFATClusEntryVal old val < 2 ^ 32 :=
  Nat.or_lt_two_pow (Nat.and_lt_two_pow _ (by decide)) (Nat.and_lt_two_pow _ (by decide))

theorem mergeFATClusEntryVal_and (old val : Nat) :
    mergeFATClusEntryVal old val &&& 0x0FFFFFFF = val % 2 ^ 28 := by
  rw [mergeFATClusEntryVal, Nat.and_or_distrib_right, Nat.and_assoc, Nat.and_assoc,
    show 0xF0000000 &&& 0x0FFFFFFF = 0 by decide,
    show 0x0FFFFFFF &&& 0x0FFFFFFF = 2 ^ 28 - 1 by decide,
    Nat.and_two_pow_sub_one_eq_mod, Nat.and_zero, Nat.zero_or]

theorem FAT.entry_lt (fat : FAT) (d : Device) (n : Nat) : fat.entry d n < 2 ^ 28 :=
  readFATClusEntryVal_lt _ _

theorem FAT.entry_congr (fat : FAT) {d d' : Device}
    (h : d'.value (getClusPosOnFAT fat.bpb n).fatSecNum =
      d.value (getClusPosOnFAT fat.bpb n).fatSecNum) : fat.entry d' n = fat.entry d n := by
  rw [FAT.entry, FAT.entry, h]

/-! ### Where an entry lies in the copies -/

/-- The sector that a write of entry `n` takes in copy `i`. -/
def BPB.copySec (bpb : BPB) (i n : Nat) : Nat :=
  u32 (bpb.resvdSecCnt.toNat + n / 128 + i * bpb.fatSz32.toNat)

/-- No two copies of the FAT share a sector. -/
def BPB.CopiesApart (bpb : BPB) : Prop :=
  ∀ i j r s, i < bpb.numFats.toNat → j < bpb.numFats.toNat → r < bpb.fatSz32.toNat →
    s < bpb.fatSz32.toNat → i ≠ j →
    u32 (bpb.resvdSecCnt.toNat + r + i * bpb.fatSz32.toNat) ≠
      u32 (bpb.resvdSecCnt.toNat + s + j * bpb.fatSz32.toNat)

/-- The FAT has an entry for `n`, at a byte offset that does not wrap. -/
structure BPB.InFat (bpb : BPB) (n : Nat) : Prop where
  copy : 0 < bpb.numFats.toNat
  row : n / 128 < bpb.fatSz32.toNat
  offset : n * 4 < 2 ^ 32

/-- The word of entry `n` in copy `i`, with its reserved bits. -/
def BPB.copyWord (bpb : BPB) (d : Device) (i n : Nat) : Nat :=
  read32 (d.value (bpb.copySec i n)) (n % 128 * 4)

section place

variable {bpb : BPB} {i j n m : Nat}

theorem getClusPosOnFAT_eq (hbytes : bpb.bytesPerSec.toNat = sectorSize) (hn : n * 4 < 2 ^ 32) :
    getClusPosOnFAT bpb n = ⟨bpb.resvdSecCnt.toNat + n / 128, n % 128 * 4⟩ := by
  have hresvd := bpb.resvdSecCnt.toNat_lt
  simp only [getClusPosOnFAT, hbytes, sectorSize, u32, FATPos.mk.injEq]
  omega

theorem BPB.copySec_zero (hn : n * 4 < 2 ^ 32) : bpb.copySec 0 n = bpb.resvdSecCnt.toNat + n / 128 := by
  have hresvd := bpb.resvdSecCnt.toNat_lt
  rw [BPB.copySec, Nat.zero_mul, Nat.add_zero, u32_of_lt (by omega)]

private theorem BPB.row_injective (hn : n / 128 < bpb.fatSz32.toNat) (hm : m / 128 < bpb.fatSz32.toNat)
    (heq : bpb.copySec i m = bpb.copySec i n) : m / 128 = n / 128 := by
  have hsize := bpb.fatSz32.toNat_lt
  simp only [BPB.copySec, u32] at heq
  omega

/-- One word of one sector belongs to one entry of one copy. -/
theorem BPB.CopiesApart.place_injective (happart : bpb.CopiesApart) (hi : i < bpb.numFats.toNat)
    (hj : j < bpb.numFats.toNat) (hn : n / 128 < bpb.fatSz32.toNat) (hm : m / 128 < bpb.fatSz32.toNat)
    (hsec : bpb.copySec i m = bpb.copySec j n) : i = j ∧ m / 128 = n / 128 := by
  by_cases hij : i = j
  · subst hij
    exact ⟨rfl, BPB.row_injective hn hm hsec⟩
  · exact absurd hsec (happart i j _ _ hi hj hm hn hij)

end place

/-! ### Writing one entry -/

/-- The device `d'` is `d` after entry `n` has been written in the copies below `k`. -/
structure BPB.EntryWritten (bpb : BPB) (d : Device) (n val k : Nat) (d' : Device) : Prop where
  secCnt : d'.secCnt = d.secCnt
  stored : d'.stored = d.stored
  word : ∀ i < k, bpb.copyWord d' i n = mergeFATClusEntryVal (bpb.copyWord d i n) val
  frame : ∀ s o, (∀ i < k, s = bpb.copySec i n → o < n % 128 * 4 ∨ n % 128 * 4 + 4 ≤ o) →
    d'.value s o = d.value s o

section write

variable {fat : FAT} {d d' : Device} {n m i k val : Nat}

theorem FAT.writeFatCopy_eq :
    fat.writeFatCopy (fat.bpb.resvdSecCnt.toNat + n / 128) (n % 128 * 4) val d i =
      if fat.bpb.copySec i n < d.secCnt then
        some (writeFATClusEntryVal d (fat.bpb.copySec i n) (n % 128 * 4) val)
      else none := by
  rw [FAT.writeFatCopy, ← BPB.copySec]
  by_cases hsec : fat.bpb.copySec i n < d.secCnt
  · rw [if_pos hsec, d.readSector_of_lt _ hsec]
    rfl
  · rw [if_neg hsec, d.readSector_of_ge _ (by omega)]
    rfl

theorem BPB.copyWord_congr {bpb : BPB} (h : ∀ o, n % 128 * 4 ≤ o → o < n % 128 * 4 + 4 →
    d'.value (bpb.copySec i n) o = d.value (bpb.copySec i n) o) :
    bpb.copyWord d' i n = bpb.copyWord d i n := read32_congr h

theorem BPB.EntryWritten.succ {bpb : BPB} (h : bpb.EntryWritten d n val k d')
    (happart : bpb.CopiesApart) (hn : n / 128 < bpb.fatSz32.toNat) (hk : k < bpb.numFats.toNat) :
    bpb.EntryWritten d n val (k + 1)
      (writeFATClusEntryVal d' (bpb.copySec k n) (n % 128 * 4) val) := by
  have hne : ∀ i < k, bpb.copySec i n ≠ bpb.copySec k n := fun i hi hsec =>
    absurd (happart.place_injective (by omega) hk hn hn hsec).1 (by omega)
  -- the word of copy `k` is the one the loop comes to
  have hold : bpb.copyWord d' k n = bpb.copyWord d k n :=
    BPB.copyWord_congr fun o _ _ => h.frame _ o fun i hi hsec => absurd hsec.symm (hne i hi)
  refine ⟨h.secCnt, h.stored, fun i hi => ?_, fun s o hout => ?_⟩
  · rcases Nat.lt_succ_iff_lt_or_eq.mp hi with hlt | rfl
    · rw [← h.word i hlt]
      exact BPB.copyWord_congr fun o _ _ => d'.value_write_of_ne _ _ _ (hne i hlt) o
    · rw [← hold, BPB.copyWord, writeFATClusEntryVal, Device.read32_write,
        Nat.mod_eq_of_lt (mergeFATClusEntryVal_lt _ _)]
      rfl
  · rw [← h.frame s o fun i hi => hout i (by omega)]
    by_cases hs : s = bpb.copySec k n
    · exact d'.value_write_outside _ _ _ (hout k (by omega) hs) s
    · exact d'.value_write_of_ne _ _ _ hs o

theorem FAT.writeFatCopies (happart : fat.bpb.CopiesApart) (hn : n / 128 < fat.bpb.fatSz32.toNat)
    (hk : k ≤ fat.bpb.numFats.toNat) (hsec : ∀ i < k, fat.bpb.copySec i n < d.secCnt) :
    ∃ d', (List.range k).foldlM
        (fat.writeFatCopy (fat.bpb.resvdSecCnt.toNat + n / 128) (n % 128 * 4) val) d = some d' ∧
      fat.bpb.EntryWritten d n val k d' := by
  induction k with
  | zero => exact ⟨d, rfl, rfl, rfl, fun i hi => absurd hi (Nat.not_lt_zero i), fun _ _ _ => rfl⟩
  | succ k ih =>
    obtain ⟨d₁, hrun, h₁⟩ := ih (by omega) fun i hi => hsec i (by omega)
    refine ⟨_, ?_, h₁.succ happart hn hk⟩
    have hfits : fat.bpb.copySec k n < d₁.secCnt := h₁.secCnt ▸ hsec k (by omega)
    rw [List.range_succ, List.foldlM_append, hrun]
    simp [FAT.writeFatCopy_eq, hfits]

theorem FAT.copySec_lt_of_writeFatCopies (hrun : (List.range k).foldlM
    (fat.writeFatCopy (fat.bpb.resvdSecCnt.toNat + n / 128) (n % 128 * 4) val) d = some d') :
    d'.secCnt = d.secCnt ∧ ∀ i < k, fat.bpb.copySec i n < d.secCnt := by
  induction k generalizing d' with
  | zero =>
    obtain rfl := Option.some.inj hrun
    exact ⟨rfl, fun i hi => absurd hi (Nat.not_lt_zero i)⟩
  | succ k ih =>
    rw [List.range_succ, List.foldlM_append] at hrun
    obtain ⟨d₁, hloop, hlast⟩ := Option.bind_eq_some_iff.mp hrun
    obtain ⟨hcnt, hsec⟩ := ih hloop
    simp only [List.foldlM_cons, List.foldlM_nil, FAT.writeFatCopy_eq] at hlast
    split at hlast
    · next hk =>
      obtain rfl := Option.some.inj hlast
      refine ⟨hcnt, fun i hi => ?_⟩
      rcases Nat.lt_succ_iff_lt_or_eq.mp hi with hlt | rfl
      · exact hsec i hlt
      · exact hcnt ▸ hk
    · cases hlast

section position

variable (hbytes : fat.bpb.bytesPerSec.toNat = sectorSize) (happart : fat.bpb.CopiesApart)

include hbytes

/-- Writing at the position of an entry comes back when the copies lie on the device. -/
theorem FAT.writeFatEntry_pos (hn : fat.bpb.InFat n) :
    fat.writeFatEntry d (getClusPosOnFAT fat.bpb n).fatSecNum (getClusPosOnFAT fat.bpb n).fatEntOffset val =
      (List.range fat.bpb.numFats.toNat).foldlM
        (fat.writeFatCopy (fat.bpb.resvdSecCnt.toNat + n / 128) (n % 128 * 4) val) d := by
  rw [getClusPosOnFAT_eq hbytes hn.offset, FAT.writeFatEntry]

theorem FAT.readFatEntry_pos (hn : fat.bpb.InFat n) :
    FAT.readFatEntry d (getClusPosOnFAT fat.bpb n).fatSecNum (getClusPosOnFAT fat.bpb n).fatEntOffset =
      if fat.bpb.copySec 0 n < d.secCnt then some (fat.bpb.copyWord d 0 n &&& 0x0FFFFFFF) else none := by
  have hpos := getClusPosOnFAT_eq hbytes hn.offset
  rw [← BPB.copySec_zero hn.offset] at hpos
  rw [hpos, FAT.readFatEntry, BPB.copyWord]
  by_cases hsec : fat.bpb.copySec 0 n < d.secCnt
  · rw [if_pos hsec, d.readSector_of_lt _ hsec]
    rfl
  · rw [if_neg hsec, d.readSector_of_ge _ (Nat.not_lt.mp hsec)]
    rfl

include happart

theorem FAT.exists_writeFatEntry (hn : fat.bpb.InFat n)
    (hsec : ∀ i < fat.bpb.numFats.toNat, fat.bpb.copySec i n < d.secCnt) (val : Nat) :
    ∃ d', fat.writeFatEntry d (getClusPosOnFAT fat.bpb n).fatSecNum
        (getClusPosOnFAT fat.bpb n).fatEntOffset val = some d' ∧
      fat.bpb.EntryWritten d n val fat.bpb.numFats.toNat d' := by
  rw [FAT.writeFatEntry_pos hbytes hn]
  exact FAT.writeFatCopies happart hn.row le_rfl hsec

/-- What a write that comes back has done. -/
theorem FAT.entryWritten (hn : fat.bpb.InFat n)
    (hrun : fat.writeFatEntry d (getClusPosOnFAT fat.bpb n).fatSecNum
      (getClusPosOnFAT fat.bpb n).fatEntOffset val = some d') :
    fat.bpb.EntryWritten d n val fat.bpb.numFats.toNat d' := by
  rw [FAT.writeFatEntry_pos hbytes hn] at hrun
  have hsec := (FAT.copySec_lt_of_writeFatCopies hrun).2
  obtain ⟨d₁, hrun₁, h₁⟩ := FAT.writeFatCopies happart hn.row le_rfl hsec
  obtain rfl := Option.some.inj (hrun.symm.trans hrun₁)
  exact h₁

end position

theorem BPB.EntryWritten.copyWord {bpb : BPB} (h : bpb.EntryWritten d n val bpb.numFats.toNat d')
    (happart : bpb.CopiesApart) (hn : n / 128 < bpb.fatSz32.toNat) (hm : m / 128 < bpb.fatSz32.toNat)
    (hi : i < bpb.numFats.toNat) :
    bpb.copyWord d' i m =
      if m = n then mergeFATClusEntryVal (bpb.copyWord d i n) val else bpb.copyWord d i m := by
  split
  · next heq => rw [heq, h.word i hi]
  · next hne =>
    refine BPB.copyWord_congr fun o hlo hhi => h.frame _ o fun j hj hsec => ?_
    have hrow := (happart.place_injective hi hj hn hm hsec).2
    omega

/-! ### In a sound geometry -/

namespace BPB.Sound

variable {bpb : BPB} (hs : bpb.Sound)

include hs

theorem inFat (hn : n < bpb.clusCnt + 2) : bpb.InFat n := by
  have hle := hs.clusCnt_le
  exact ⟨hs.numFats, hs.entry_in_fat hn, by omega⟩

theorem copySec_eq (hi : i < bpb.numFats.toNat) {r : Nat} (hr : r < bpb.fatSz32.toNat) :
    u32 (bpb.resvdSecCnt.toNat + r + i * bpb.fatSz32.toNat) =
      bpb.resvdSecCnt.toNat + r + i * bpb.fatSz32.toNat := by
  have hcopy := hs.copy_le hi
  have hfirst := hs.firstDataSector_le
  have htot := bpb.totSec32.toNat_lt
  exact u32_of_lt (by omega)

theorem copySec_bounds (hi : i < bpb.numFats.toNat) (hn : n / 128 < bpb.fatSz32.toNat) :
    bpb.resvdSecCnt.toNat ≤ bpb.copySec i n ∧ bpb.copySec i n < getFirstDataSector bpb := by
  have hcopy := hs.copy_le hi
  rw [BPB.copySec, hs.copySec_eq hi hn]
  omega

theorem copiesApart : bpb.CopiesApart := by
  intro i j r s hi hj hr hslt hij hsame
  rw [hs.copySec_eq hi hr, hs.copySec_eq hj hslt, Nat.add_assoc, Nat.add_assoc,
    Nat.add_left_cancel_iff] at hsame
  have hpos : 0 < bpb.fatSz32.toNat := Nat.lt_of_le_of_lt (Nat.zero_le _) hr
  have hdiv := congrArg (· / bpb.fatSz32.toNat) hsame
  simp only [Nat.add_mul_div_right _ _ hpos, Nat.div_eq_of_lt hr, Nat.div_eq_of_lt hslt,
    Nat.zero_add] at hdiv
  exact hij hdiv

end BPB.Sound

section sound

variable (hs : fat.bpb.Sound)

include hs

theorem FAT.entry_eq_copyWord (hn : n < fat.bpb.clusCnt + 2) :
    fat.entry d n = fat.bpb.copyWord d 0 n &&& 0x0FFFFFFF := by
  rw [FAT.entry, hs.clusPosOnFAT hn, BPB.copyWord, BPB.copySec_zero (hs.inFat hn).offset]
  rfl

theorem FAT.writeFatEntry_eq (hfits : fat.bpb.totSec32.toNat ≤ d.secCnt)
    (hn : n < fat.bpb.clusCnt + 2) (val : Nat) :
    ∃ d', fat.writeFatEntry d (fat.bpb.resvdSecCnt.toNat + n / 128) (n % 128 * 4) val = some d' ∧
      fat.bpb.OnlyFat d d' ∧ ∀ m, m < fat.bpb.clusCnt + 2 →
        fat.entry d' m = if m = n then val % 2 ^ 28 else fat.entry d m := by
  have hin := hs.inFat hn
  have hfirst := hs.firstDataSector_le
  have hsec : ∀ i < fat.bpb.numFats.toNat, fat.bpb.copySec i n < d.secCnt := fun i hi => by
    have hbounds := hs.copySec_bounds hi hin.row
    omega
  obtain ⟨d', hrun, h⟩ := FAT.writeFatCopies hs.copiesApart hin.row le_rfl hsec
  refine ⟨d', hrun, ⟨h.secCnt, h.stored, fun s hout => funext fun o => ?_⟩, fun m hm => ?_⟩
  · refine h.frame s o fun i hi heq => ?_
    have hbounds := hs.copySec_bounds hi hin.row
    omega
  · rw [FAT.entry_eq_copyWord hs hm, h.copyWord hs.copiesApart hin.row (hs.inFat hm).row hs.numFats]
    split
    · rw [mergeFATClusEntryVal_and]
    · rw [FAT.entry_eq_copyWord hs hm]

theorem FAT.readFatEntry_eq (hfits : fat.bpb.totSec32.toNat ≤ d.secCnt) (hn : n < fat.bpb.clusCnt + 2) :
    FAT.readFatEntry d (fat.bpb.resvdSecCnt.toNat + n / 128) (n % 128 * 4) =
      some (fat.entry d n) := by
  have hrow := hs.entry_in_fat hn
  have hcopy := hs.copy_le (i := 0) hs.numFats
  have hfirst := hs.firstDataSector_le
  rw [FAT.readFatEntry, d.readSector_of_lt _ (by omega), FAT.entry, hs.clusPosOnFAT hn]
  rfl

end sound

end write

end FuseFat32
