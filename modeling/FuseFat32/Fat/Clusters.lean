import FuseFat32.Fat.Entry

/-!
# Allocating, releasing and resizing cluster chains

The member functions of `class FAT` that walk the table. The two scans run over the entries in the order of `cnt_of_clus`, which is `128 * (i - start_sec_no_) + j` throughout the two nested loops, so one counter drives both. The three pointer walks of the source stop only at an end-of-chain value; they get as fuel more steps than there are 28-bit values, so that a walk which runs out of it would never have ended.
-/

namespace FuseFat32

/-- More steps than any walk through the table that ends. -/
def walkFuel : Nat := 2 ^ 29

/-- `SECTOR_SIZE / KFATEntSz`. -/
def entriesPerSec : Nat := sectorSize / 4

def FAT.incAvailCnt (fat : FAT) (no : Nat) : FAT :=
  { fat with availCnt := fat.availCnt.map fun a => u32 (a + no) }

def FAT.decAvailCnt (fat : FAT) (no : Nat) : FAT :=
  { fat with availCnt := fat.availCnt.map fun a => u32Sub a no }

/-- The members once the hint has been used up. -/
def FAT.takeHint (fat : FAT) : FAT := { fat.decAvailCnt 1 with freeCount := 0xFFFFFFFF }

/-- `writeFatEntry` at `getClusPosOnFAT(bpb_, clus)`. -/
def FAT.writeClusEntry (fat : FAT) (d : Device) (clus val : Nat) : Exec Device :=
  let fat_pos := getClusPosOnFAT fat.bpb clus
  fat.writeFatEntry d fat_pos.fatSecNum fat_pos.fatEntOffset val

/-- `readFatEntry` at `getClusPosOnFAT(bpb_, clus)`. -/
def FAT.readClusEntry (fat : FAT) (d : Device) (clus : Nat) : Exec Nat :=
  let fat_pos := getClusPosOnFAT fat.bpb clus
  FAT.readFatEntry d fat_pos.fatSecNum fat_pos.fatEntOffset

/-- `readFatEntry(i, j * KFATEntSz)` for the position of `cnt_of_clus` in the scan. -/
def FAT.scanEntry (fat : FAT) (d : Device) (cnt_of_clus : Nat) : Exec Nat :=
  FAT.readFatEntry d (fat.startSecNo + cnt_of_clus / entriesPerSec)
    (cnt_of_clus % entriesPerSec * 4)

/-- The loop condition `i < end_sec_no()`. -/
def FAT.inTable (fat : FAT) (cnt_of_clus : Nat) : Bool :=
  fat.startSecNo + cnt_of_clus / entriesPerSec < fat.endSecNo

/-! ### `availClusCnt` -/

/-- The scan of `availClusCnt` from `cnt_of_clus` on, with `todo` clusters left. -/
def FAT.countLoop (fat : FAT) (d : Device) : Nat → Nat → Nat → Exec Nat
  | 0, _, avail_clus_cnt => some avail_clus_cnt
  | todo + 1, cnt_of_clus, avail_clus_cnt =>
    if fat.inTable cnt_of_clus then do
      let val ← fat.scanEntry d cnt_of_clus
      fat.countLoop d todo (cnt_of_clus + 1)
        (if val = 0 then avail_clus_cnt + 1 else avail_clus_cnt)
    else some avail_clus_cnt

def FAT.availClusCnt (fat : FAT) (d : Device) : Exec (Nat × FAT) :=
  match fat.availCnt with
  | some cnt => some (cnt, fat)
  | none => do
    let avail_clus_cnt ← fat.countLoop d fat.cntOfClus 0 0
    return (avail_clus_cnt, { fat with availCnt := some avail_clus_cnt })

/-! ### `allocClus` -/

/-- The entry of the cluster taken before is written only now: `if (pre_clus != 0)`. -/
def FAT.linkPre (fat : FAT) (d : Device) (pre_clus cur_clus : Nat) : Exec Device :=
  if pre_clus ≠ 0 then fat.writeClusEntry d pre_clus cur_clus else some d

/-- The scan of `allocClus`: `cur_clus` is the last cluster taken, not yet written. Running off the end is `assert(false)`. -/
def FAT.allocLoop (require_clus_num : Nat) :
    Nat → FAT → Device → (cnt_of_clus cur_clus alloc_num : Nat) → List Nat →
      Exec (List Nat × FAT × Device)
  | 0, _, _, _, _, _, _ => none
  | todo + 1, fat, d, cnt_of_clus, cur_clus, alloc_num, clus_chain =>
    if fat.inTable cnt_of_clus then do
      let val ← fat.scanEntry d cnt_of_clus
      if val = 0 then
        let d ← fat.linkPre d cur_clus cnt_of_clus
        let clus_chain := clus_chain ++ [cnt_of_clus]
        let fat := fat.decAvailCnt 1
        if alloc_num + 1 = require_clus_num then
          let d ← fat.writeClusEntry d cnt_of_clus kFat32EocMark
          return (clus_chain, fat, d)
        else
          FAT.allocLoop require_clus_num todo fat d (cnt_of_clus + 1) cnt_of_clus (alloc_num + 1)
            clus_chain
      else
        FAT.allocLoop require_clus_num todo fat d (cnt_of_clus + 1) cur_clus alloc_num clus_chain
    else none

def FAT.allocClus (fat : FAT) (d : Device) (require_clus_num : Nat) :
    Exec (Option (List Nat) × FAT × Device) := do
  let (avail, fat) ← fat.availClusCnt d
  if avail < require_clus_num then
    return (none, fat, d)
  if fat.freeCount ≠ 0xFFFFFFFF then
    let cur_clus := fat.freeCount
    let fat := fat.takeHint
    if 1 = require_clus_num then
      let d ← fat.writeClusEntry d cur_clus kFat32EocMark
      return (some [cur_clus], fat, d)
    let (clus_chain, fat, d) ←
      FAT.allocLoop require_clus_num fat.cntOfClus fat d 0 cur_clus 1 [cur_clus]
    return (some clus_chain, fat, d)
  let (clus_chain, fat, d) ← FAT.allocLoop require_clus_num fat.cntOfClus fat d 0 0 0 []
  return (some clus_chain, fat, d)

/-! ### `freeClus` and `readClusChains` -/

def FAT.freeLoop : Nat → FAT → Device → Nat → Exec (FAT × Device)
  | 0, _, _, _ => none
  | fuel + 1, fat, d, cur_clus =>
    if isEndOfClusChain cur_clus then some (fat, d)
    else do
      let next ← fat.readClusEntry d cur_clus
      let d ← fat.writeClusEntry d cur_clus 0
      FAT.freeLoop fuel (fat.incAvailCnt 1) d next

def FAT.freeClus (fat : FAT) (d : Device) (fst_clus : Nat) : Exec (FAT × Device) :=
  if isValidCluster fst_clus then FAT.freeLoop walkFuel fat d fst_clus else some (fat, d)

def FAT.chainLoop (fat : FAT) (d : Device) : Nat → Nat → Exec (List Nat)
  | 0, _ => none
  | fuel + 1, cur_clus =>
    if isEndOfClusChain cur_clus then some []
    else do
      let next ← fat.readClusEntry d cur_clus
      let rest ← fat.chainLoop d fuel next
      return cur_clus :: rest

def FAT.readClusChains (fat : FAT) (d : Device) (fst_clus : Nat) : Exec (List Nat) :=
  if isValidCluster fst_clus then fat.chainLoop d walkFuel fst_clus else some []

/-! ### `resize` -/

/-- One sector of `clearClusChain`. -/
def FAT.clearSector (fat : FAT) (d : Device) (i : Nat) : Exec Device := do
  let _ ← d.readSector i
  return d.write i 0 (List.replicate fat.bpb.bytesPerSec.toNat 0)

/-- One cluster of `clearClusChain`. -/
def FAT.clearClus (fat : FAT) (d : Device) (cluster_no : Nat) : Exec Device := do
  assert (isValidCluster cluster_no)
  let fst_sec := getFirstSectorOfCluster fat.bpb cluster_no
  (List.range (u32 (fst_sec + fat.bpb.secPerClus.toNat) - fst_sec)).foldlM
    (fun d j => fat.clearSector d (fst_sec + j)) d

def FAT.clearClusChain (fat : FAT) (d : Device) (clus_chain : List Nat) : Exec Device :=
  clus_chain.foldlM fat.clearClus d

/-- The walk of `resize`: it counts the clusters, releases those past `clus_num` and marks the last one kept. It gives back `pre_clus` and `clus_cnt`. -/
def FAT.resizeLoop (clus_num : Nat) :
    Nat → FAT → Device → (pre_clus cur_clus clus_cnt : Nat) → Exec ((Nat × Nat) × FAT × Device)
  | 0, _, _, _, _, _ => none
  | fuel + 1, fat, d, pre_clus, cur_clus, clus_cnt =>
    if isEndOfClusChain cur_clus then some ((pre_clus, clus_cnt), fat, d)
    else do
      let next ← fat.readClusEntry d cur_clus
      if clus_cnt + 1 > clus_num then
        let d ← fat.writeClusEntry d cur_clus 0
        FAT.resizeLoop clus_num fuel (fat.decAvailCnt 1) d cur_clus next (clus_cnt + 1)
      else if clus_cnt + 1 = clus_num then
        let d ← fat.writeClusEntry d cur_clus kFat32EocMark
        FAT.resizeLoop clus_num fuel fat d cur_clus next (clus_cnt + 1)
      else
        FAT.resizeLoop clus_num fuel fat d cur_clus next (clus_cnt + 1)

/-- The first half of `resize`: the last cluster met and the number of clusters. -/
def FAT.resizeWalk (fat : FAT) (d : Device) (fst_clus clus_num : Nat) :
    Exec ((Nat × Nat) × FAT × Device) :=
  if isValidCluster fst_clus then FAT.resizeLoop clus_num walkFuel fat d fst_clus fst_clus 0
  else some ((fst_clus, 0), fat, d)

/-- `if (clear) clearClusChain(clus_chain)`. -/
def FAT.clearIf (fat : FAT) (d : Device) (clear : Bool) (clus_chain : List Nat) : Exec Device :=
  if clear then fat.clearClusChain d clus_chain else some d

/-- `resize(fst_clus, clus_num, clear)`: the result, the new value of `fst_clus`, and the state after the call. -/
def FAT.resize (fat : FAT) (d : Device) (fst_clus clus_num : Nat) (clear : Bool) :
    Exec (Bool × Nat × FAT × Device) := do
  let ((pre_clus, clus_cnt), fat, d) ← fat.resizeWalk d fst_clus clus_num
  if clus_cnt < clus_num then
    let (result, fat, d) ← fat.allocClus d (clus_num - clus_cnt)
    match result with
    | none => return (false, fst_clus, fat, d)
    | some clus_chain =>
      let d ← fat.clearIf d clear clus_chain
      let alloc_fst_clus := clus_chain.headD 0
      if !isValidCluster fst_clus then
        return (true, alloc_fst_clus, fat, d)
      let d ← fat.writeClusEntry d pre_clus alloc_fst_clus
      return (true, fst_clus, fat, d)
  if clus_num = 0 then
    return (true, 0, fat, d)
  return (true, fst_clus, fat, d)

end FuseFat32
