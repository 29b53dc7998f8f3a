import FuseFat32.Fs.Slots

/-!
# Reading, updating and deleting the entries of a file

`File::fromIno`, `File::sync` and `File::selfDestruct` find the entries of a file from the number of its first entry in the directory. All three walk from there to the short entry. The walks get as fuel more steps than a device has slots.
-/

namespace FuseFat32

/-- More steps than any walk over entries that ends. -/
def slotFuel : Nat := 2 ^ 41

/-- The bytes from a position of a sector on. -/
def Device.bytesAt (d : Device) (x : Nat × Nat) (i : Nat) : UInt8 := d.value x.1 (x.2 + i)

/-- The entry at a slot. -/
def Device.entry (d : Device) (x : Nat × Nat) : LongDirEntry := .ofBytes (d.bytesAt x)

/-- `readSector(sec_no).value()` for the sector of a cursor: the slot the cursor addresses. -/
def Cursor.slot (bpb : BPB) (d : Device) (clus_chain : List Nat) (c : Cursor) : Exec (Nat × Nat) := do
  let sec_no ← c.secNo bpb clus_chain
  let _ ← d.readSector sec_no
  return (sec_no, c.secOff)

/-! ### `fromIno` -/

/-- The constructor of `File` from a short entry. -/
def File.ofEntry (parent_clus fst_entry_num : Nat) (name : List UInt8) (e : ShortDirEntry) : File where
  parentClus := parent_clus
  fstEntryNum := fst_entry_num
  fstClus := readEntryClusNo e
  name := name
  crtTime := e.crtTs2
  accDate := e.lstAccDate
  wrtTime := e.wrtTs
  fileSz_ := e.fileSz.toNat
  isDeleted := false
  clusChain_ := none
  isDir := isDirectory e

/-- What the walk of `fromIno` collects: the long name, the checksum of the first long entry, and the short entry. -/
abbrev GroupData := List UInt8 × Option UInt8 × ShortDirEntry

/-- The walk of `fromIno`; nothing when it meets an empty entry. -/
def File.fromInoLoop (fs : FAT32fs) (clus_chain : List Nat) :
    Nat → Cursor → List UInt8 → Option UInt8 → Exec (Option GroupData)
  | 0, _, _, _ => none
  | fuel + 1, c, long_name_utf16, chk_sum => do
    let x ← c.slot fs.bpb fs.device clus_chain
    let e := fs.device.entry x
    if isEmptyDirEntry e then
      return none
    if !isLongDirEntry e then
      return some (long_name_utf16, chk_sum, castLongDirEntryToShort e)
    assert (chk_sum.all (isValidLongDirEntry e))
    let (more, c) ← iterClusChainEntry fs.bpb clus_chain c
    -- `assert(result.has_value())` behind the loop
    assert more
    File.fromInoLoop fs clus_chain fuel c (readLongEntryName e ++ long_name_utf16)
      (some (chk_sum.getD e.chkSum))

/-- The object `fromIno` makes of what it has collected. -/
def File.ofGroup (cs : Charset) (parent_clus fst_entry_num : Nat) (g : GroupData) : Exec File := do
  let (long_name_utf16, chk_sum, short_dir_entry) := g
  let short_name_gbk ← readShortEntryName short_dir_entry
  match chk_sum with
  | none =>
    let file_name ← cs.gbkToUtf8 short_name_gbk
    return .ofEntry parent_clus fst_entry_num file_name short_dir_entry
  | some chk_sum =>
    let basis_name ← genBasisNameFromShort short_name_gbk
    assert (chkSum basis_name = chk_sum)
    let file_name ← cs.utf16ToUtf8 long_name_utf16
    return .ofEntry parent_clus fst_entry_num file_name short_dir_entry

def File.fromIno (cs : Charset) (fs : FAT32fs) (ino : Nat) : Exec (Option File) := do
  let parent_clus := ino / 2 ^ 32
  let fst_entry_num := ino % 2 ^ 32
  let clus_chain ← fs.fat.readClusChains fs.device parent_clus
  assert (clus_chain ≠ [])
  let result ← File.fromInoLoop fs clus_chain slotFuel
    (.start fs.bpb (u32 (fst_entry_num * kDirEntrySize))) [] none
  match result with
  | none => return none
  | some g =>
    let file ← File.ofGroup cs parent_clus fst_entry_num g
    return some file

/-! ### `sync` -/

/-- The walk of `sync` to the short entry, or to where the chain ends. -/
def File.syncLoop (fs : FAT32fs) (p_clus_chain : List Nat) : Nat → Cursor → Exec (Nat × Nat)
  | 0, _ => none
  | fuel + 1, c => do
    let x ← c.slot fs.bpb fs.device p_clus_chain
    if !isLongDirEntry (fs.device.entry x) then
      return x
    let (more, c) ← iterClusChainEntry fs.bpb p_clus_chain c
    if more then File.syncLoop fs p_clus_chain fuel c else return (x.1, c.secOff)

/-- The short entry with the metadata of the object. -/
def File.updated (f : File) (e : ShortDirEntry) : ShortDirEntry :=
  setFstClusNo { e with
    crtTs2 := f.crtTime
    lstAccDate := f.accDate
    wrtTs := f.wrtTime
    fileSz := if f.isDir then e.fileSz else UInt32.ofNat f.fileSz_ } f.fstClus

@[simp] theorem File.name0_updated (f : File) (e : ShortDirEntry) : (f.updated e).name0 = e.name0 := rfl

/-- The part of `sync` under `sync_meta`. -/
def File.syncMeta (fs : FAT32fs) (f : File) : Exec FAT32fs := do
  let p_clus_chain ← fs.fat.readClusChains fs.device f.parentClus
  let x ← File.syncLoop fs p_clus_chain slotFuel (.start fs.bpb (f.fstEntryNum * kDirEntrySize))
  return { fs with device := fs.device.write x.1 x.2 (f.updated (.ofBytes (fs.device.bytesAt x))).bytes }

/-- The loop of `sync` over the sectors of the file. -/
def File.syncSectors : Nat → FAT32fs → File → Nat → Exec (FAT32fs × File)
  | 0, _, _, _ => none
  | fuel + 1, fs, f, n => do
    let (result, f) ← f.readSector fs n
    match result with
    | none => return (fs, f)
    | some sector => File.syncSectors fuel { fs with device := fs.device.sync sector } f (n + 1)

def File.sync (fs : FAT32fs) (f : File) (sync_meta : Bool) : Exec (FAT32fs × File) :=
  if f.isDeleted then some (fs, f)
  else do
    let fs ← if sync_meta ∧ f.ino ≠ kRootDirIno then f.syncMeta fs else some fs
    File.syncSectors (2 ^ 33) fs f 0

/-! ### `selfDestruct` -/

/-- The walk of `selfDestruct`: every entry up to the short one is marked empty. -/
def File.destroyLoop (bpb : BPB) (p_clus_chain : List Nat) : Nat → Device → Cursor → Exec Device
  | 0, _, _ => none
  | fuel + 1, d, c => do
    let x ← c.slot bpb d p_clus_chain
    let dir_entry := d.entry x
    let d := d.write x.1 x.2 (setDirEntryEmpty dir_entry).bytes
    if !isLongDirEntry dir_entry then
      return d
    let (more, c) ← iterClusChainEntry bpb p_clus_chain c
    if more then File.destroyLoop bpb p_clus_chain fuel d c else return d

/-- `selfDestruct`, up to the removal of the object from the cache of objects. -/
def File.selfDestruct (fs : FAT32fs) (f : File) : Exec (FAT32fs × File) :=
  if f.isDeleted ∨ f.ino = kRootDirIno then some (fs, f)
  else do
    let p_clus_chain ← fs.fat.readClusChains fs.device f.parentClus
    let d ← File.destroyLoop fs.bpb p_clus_chain slotFuel fs.device
      (.start fs.bpb (f.fstEntryNum * kDirEntrySize))
    let (fat, d) ← fs.fat.freeClus d f.fstClus
    return ({ fs with fat := fat, device := d }, { f with isDeleted := true })

/-! ### `readDirEntry` -/

/-- `Directory::readDirEntry`. -/
def File.readDirEntry (fs : FAT32fs) (dir : File) (n : Nat) (now : FatTimeStamp) :
    Exec (Option LongDirEntry × File) := do
  let (buf, dir) ← dir.read fs kDirEntrySize (u32 (kDirEntrySize * n)) now
  return (if buf.length = kDirEntrySize then some (.ofBytes fun i => buf.getD i 0) else none, dir)

/-- Where `readDirEntry(n)` reads: the sector `read` gets from `sector_no`, and the offset in it. -/
def File.entrySlot (fs : FAT32fs) (dir : File) (n : Nat) : Exec (Nat × Nat) := do
  let offset := u32 (kDirEntrySize * n)
  let (result, _) ← dir.sectorNo fs (offset / fs.bpb.bytesPerSec.toNat)
  let sec_no ← result
  return (sec_no, offset % fs.bpb.bytesPerSec.toNat)

end FuseFat32
