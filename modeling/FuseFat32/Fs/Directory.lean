import FuseFat32.Fat.ShortName
import FuseFat32.Fs.OwnSlots
import FuseFat32.Library.Segments

/-!
# Directories

The members of `class Directory`. They go through the entries of the directory one by one, and each of them has a loop of its own: `lookupFileInner` collects the name of a group and compares it, `lookupFileByIndex` looks for the next group, `isLstNonEmptyEntry` for any entry that is not empty, and `crtFileInner` for enough empty entries in a row. The loops are written here as what they do with one entry. Looking at a directory changes the access date and the cached chain of the object, so every member gives the object back.
-/

namespace FuseFat32

structure DirEntryRange where
  start : Nat
  count : Nat
  deriving DecidableEq

/-- A loop over the entries of a directory. `step` sees them one after the other until it has a result, and `done` is for when there are no more. -/
def File.scanEntries {σ ρ : Type} (fs : FAT32fs) (now : FatTimeStamp)
    (step : Nat → LongDirEntry → σ → Exec (σ ⊕ ρ)) (done : Nat → σ → Exec ρ) :
    Nat → File → Nat → σ → Exec (ρ × File)
  | 0, _, _, _ => none
  | fuel + 1, dir, n, s => do
    let (result, dir) ← dir.readDirEntry fs n now
    match result with
    | none =>
      let r ← done n s
      return (r, dir)
    | some dir_entry =>
      match ← step n dir_entry s with
      | .inl s => File.scanEntries fs now step done fuel dir (n + 1) s
      | .inr r => return (r, dir)

/-! ### Looking up a name -/

/-- The variables of the loop of `lookupFileInner`. -/
structure LookupState where
  hasLEntry : Bool
  targetEntryStart : Nat
  targetEntryCnt : Nat
  chkSum : UInt8
  readLongName : List UInt8

def LookupState.init : LookupState := ⟨false, 0, 0, 0, []⟩

/-- The variables when a group is over. -/
def LookupState.reset (s : LookupState) : LookupState :=
  { s with hasLEntry := false, targetEntryCnt := 0, readLongName := [] }

/-- The variables once the entry `n` belongs to the group. -/
def LookupState.count (s : LookupState) (n : Nat) (e : LongDirEntry) : LookupState :=
  if s.targetEntryCnt = 0 then { s with targetEntryStart := n, chkSum := e.chkSum, targetEntryCnt := 1 }
  else { s with targetEntryCnt := s.targetEntryCnt + 1 }

/-- `lookupFileInner` at one entry. -/
def lookupStep (utf16_name gbk_name : List UInt8) (n : Nat) (e : LongDirEntry) (s : LookupState) :
    Exec (LookupState ⊕ Option DirEntryRange) :=
  if isLstEmptyDirEntry e then some (.inr none)
  else if isEmptyDirEntry e then some (.inl s.reset)
  else
    let s := s.count n e
    if !isLongDirEntry e then do
      let read_short_name ← readShortEntryName (castLongDirEntryToShort e)
      if s.targetEntryCnt > 1 then
        let basis_name ← genBasisNameFromShort read_short_name
        assert (chkSum basis_name = s.chkSum)
      if (s.hasLEntry ∧ s.readLongName = utf16_name) ∨ (¬ s.hasLEntry ∧ read_short_name = gbk_name) then
        return .inr (some ⟨s.targetEntryStart, s.targetEntryCnt⟩)
      return .inl s.reset
    else do
      assert (isValidLongDirEntry e s.chkSum)
      return .inl { s with hasLEntry := true, readLongName := readLongEntryName e ++ s.readLongName }

def File.lookupFileInner (cs : Charset) (fs : FAT32fs) (dir : File) (name : List UInt8)
    (now : FatTimeStamp) : Exec (Option DirEntryRange × File) := do
  let utf16_name ← cs.utf8ToUtf16 name
  let gbk_name ← cs.utf8ToGbk (toUpper name)
  File.scanEntries fs now (lookupStep utf16_name gbk_name) (fun _ _ => some none) slotFuel dir 0 .init

/-! ### Listing -/

/-- The loop of `lookupFileByIndex` that skips empty entries. -/
def skipStep (n : Nat) (e : LongDirEntry) (_ : Unit) : Exec (Unit ⊕ Option Nat) :=
  some (if isEmptyDirEntry e then .inl () else .inr (some n))

/-- Its loop that records the entries of a group, the long ones from the last to the first. The result ends with the number of the entry behind the group. -/
def recordStep (n : Nat) (e : LongDirEntry) (l_dir_entries : List LongDirEntry) :
    Exec (List LongDirEntry ⊕ List LongDirEntry × LongDirEntry × Nat) := do
  assert (!isEmptyDirEntry e)
  if !isLongDirEntry e then
    return .inr (l_dir_entries, e, n + 1)
  return .inl (e :: l_dir_entries)

/-- The object `lookupFileByIndex` makes of the entries it has recorded. -/
def File.ofEntries (cs : Charset) (fst_clus entry_start : Nat) (l_dir_entries : List LongDirEntry)
    (s_dir_entry : ShortDirEntry) : Exec File := do
  let short_name ← readShortEntryName s_dir_entry
  if l_dir_entries ≠ [] then
    let basis_name ← genBasisNameFromShort short_name
    assert (l_dir_entries.all (isValidLongDirEntry · (chkSum basis_name)))
    let name ← cs.utf16ToUtf8 (l_dir_entries.flatMap readLongEntryName)
    return .ofEntry fst_clus entry_start name s_dir_entry
  else
    let name ← cs.gbkToUtf8 short_name
    return .ofEntry fst_clus entry_start name s_dir_entry

/-! ### Emptiness -/

/-- `isLstNonEmptyEntry` at one entry. -/
def lstNonEmptyStep (_ : Nat) (e : LongDirEntry) (_ : Unit) : Exec (Unit ⊕ Bool) :=
  some (if !isEmptyDirEntry e then .inr false else if isLstEmptyDirEntry e then .inr true else .inl ())

def File.isLstNonEmptyEntry (fs : FAT32fs) (dir : File) (n : Int) (now : FatTimeStamp) :
    Exec (Bool × File) :=
  File.scanEntries fs now lstNonEmptyStep (fun _ _ => some true) slotFuel dir
    (if n < 0 then 0 else n.toNat + 1) ()

def File.isEmpty (fs : FAT32fs) (dir : File) (now : FatTimeStamp) : Exec (Bool × File) :=
  if dir.ino = kRootDirIno then dir.isLstNonEmptyEntry fs (-1) now
  else dir.isLstNonEmptyEntry fs 1 now

/-! ### Writing entries -/

def File.writeDirEntry (fs : FAT32fs) (dir : File) (n : Nat) (dir_entry : LongDirEntry)
    (now : FatTimeStamp) : Exec (Bool × FAT32fs × File) := do
  let (wrt_sz, fs, dir) ← dir.write fs dir_entry.bytes (u32 (kDirEntrySize * n)) now
  return (decide (wrt_sz = kDirEntrySize), fs, dir)

/-- Entries written one after the other to their numbers, whatever `writeDirEntry` says. -/
def File.writeDirEntries (now : FatTimeStamp) : List (Nat × LongDirEntry) → FAT32fs → File →
    Exec (FAT32fs × File)
  | [], fs, dir => some (fs, dir)
  | (n, e) :: es, fs, dir => do
    let (_, fs, dir) ← dir.writeDirEntry fs n e now
    File.writeDirEntries now es fs dir

/-! ### Creating -/

def kLastLongEntry : Nat := 0x40

def kNameBytePerLongEntry : Nat := 26

/-- Byte `j` of the name part that starts at `off`: the name, one 0x0000 behind it, and 0xFFFF from there on. -/
def longNameByte (name : List UInt8) (off j : Nat) : UInt8 :=
  if off + j / 2 * 2 < name.length then name.getD (off + j) 0
  else if off + j / 2 * 2 = name.length then 0x00 else 0xFF

def mkLongDirEntry (is_lst : Bool) (ord : Nat) (chk_sum : UInt8) (name : List UInt8) (off : Nat) :
    LongDirEntry where
  ord := UInt8.ofNat (if is_lst then kLastLongEntry ||| ord else ord)
  name1 := Vector.ofFn fun i => longNameByte name off i
  attr := kAttrLongName
  type := 0
  chkSum := chk_sum
  name2 := Vector.ofFn fun i => longNameByte name off (10 + i)
  fstClusLow := 0
  name3 := Vector.ofFn fun i => longNameByte name off (22 + i)

/-- The entries `crtFileInner` writes behind entry `start`, in its order: the long ones from the last place to the first, and the short one. -/
def groupEntries (start required : Nat) (chk_sum : UInt8) (utf16_name : List UInt8)
    (s_dir_entry : ShortDirEntry) : List (Nat × LongDirEntry) :=
  (List.range (required - 1)).map (fun i => (start + required - (i + 1) - 1,
      mkLongDirEntry (i + 1 = required - 1) (i + 1) chk_sum utf16_name (kNameBytePerLongEntry * i))) ++
    [(start + required - 1, castShortDirEntryToLong s_dir_entry)]

/-- The loop of `crtFileInner` that looks for empty entries: where a run starts and how long it is, and the number of the entry the loop has ended at. -/
def searchStep (required : Nat) (n : Nat) (e : LongDirEntry) (free : Nat × Nat) :
    Exec (Nat × Nat ⊕ Nat × Nat × Nat) :=
  let free := Segments.count isEmptyDirEntry n e free
  some (if required ≤ free.2 then .inr (free.1, free.2, n + 1) else .inl free)

def File.searchFree (fs : FAT32fs) (dir : File) (required : Nat) (now : FatTimeStamp) :
    Exec ((Nat × Nat × Nat) × File) :=
  File.scanEntries fs now (searchStep required) (fun n free => some (free.1, free.2, n)) slotFuel dir 0 (0, 0)

/-- `crtFileInner` makes the directory longer when the run it has found is too short. -/
def File.allocEntries (fs : FAT32fs) (dir : File) (free_entry_cnt required : Nat) : Exec (Bool × FAT32fs × File) :=
  if free_entry_cnt < required then do
    let (file_sz, dir) ← dir.fileSz fs
    dir.truncate fs (u32 (file_sz + (required - free_entry_cnt) * kDirEntrySize))
  else some (true, fs, dir)

/-- The entries a name needs, the short one included. -/
def requiredEntryNum (utf16_name : List UInt8) : Nat :=
  u32 (u32 ((utf16_name.length + 2 ^ 64 - 1) % 2 ^ 64 / kNameBytePerLongEntry + 1) + 1)

/-- `crtFileInner`, up to `addFileToCache`: the object of the new file, which the caller adds. -/
def File.crtFileInner (cs : Charset) (fs : FAT32fs) (dir : File) (name : List UInt8) (is_dir : Bool)
    (now : FatTimeStamp2) : Exec (Option File × FAT32fs × File) := do
  let utf16_name ← cs.utf8ToUtf16 name
  let required := requiredEntryNum utf16_name
  let ((free_entry_start, free_entry_cnt, cur_entry), dir) ← dir.searchFree fs required now.ts
  let (ok, fs, dir) ← dir.allocEntries fs free_entry_cnt required
  if !ok then
    return (none, fs, dir)
  let start := if free_entry_cnt = 0 then cur_entry else free_entry_start
  let basis_name ← genBasisNameFromLong cs name
  let s_dir_entry := mkShortDirEntry basis_name is_dir now
  let (fs, dir) ← File.writeDirEntries now.ts
    (groupEntries start required (chkSum basis_name) utf16_name s_dir_entry) fs dir
  return (some (.ofEntry dir.fstClus start name s_dir_entry), fs, dir)

/-! ### Deleting -/

/-- `LongDirEntry dir_entry{}`. -/
def zeroDirEntry : LongDirEntry :=
  ⟨0, Vector.replicate 10 0, 0, 0, 0, Vector.replicate 12 0, 0, Vector.replicate 4 0⟩

/-- `delFile`, up to the removal of the object from the cache of objects. -/
def File.delFile (cs : Charset) (fs : FAT32fs) (dir : File) (name : List UInt8) (now : FatTimeStamp) :
    Exec (Option DirEntryRange × FAT32fs × File) := do
  let (result, dir) ← dir.lookupFileInner cs fs name now
  match result with
  | none => return (none, fs, dir)
  | some range =>
    let (fs, dir) ← File.writeDirEntries now
      ((List.range range.count).map fun i => (range.start + i, setDirEntryEmpty zeroDirEntry)) fs dir
    let short_dir_entry_no := range.start + range.count - 1
    let (lst, dir) ← dir.isLstNonEmptyEntry fs short_dir_entry_no now
    if !lst then
      return (some range, fs, dir)
    let (_, fs, dir) ← dir.writeDirEntry fs short_dir_entry_no (setDirEntryLstEmpty zeroDirEntry) now
    let (_, fs, dir) ← dir.truncate fs (u32 ((range.start + 1) * kDirEntrySize))
    return (some range, fs, dir)

end FuseFat32
