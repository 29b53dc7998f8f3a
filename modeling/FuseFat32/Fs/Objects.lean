import FuseFat32.Fs.Directory
import FuseFat32.Machine.LruCache

/-!
# The objects in memory

`FAT32fs` keeps the objects it has made in `cached_lookup_files_`, and the members of `class Directory` that return an object find it there or put it there. An object that the map drops is destroyed, and writes itself back, when nobody holds it. Whoever calls a member of a directory holds that directory, so the map may drop it without harm.
-/

namespace FuseFat32

/-- `cached_lookup_files_`. -/
abbrev FileMap := LRUCacheMap Nat File

/-- The filesystem and its `cached_lookup_files_`. -/
structure Driver where
  fs : FAT32fs
  files : FileMap

/-- `~File`, when what makes the object a directory is gone already. -/
def File.destructor (fs : FAT32fs) (f : File) : Exec (FAT32fs × File) :=
  { f with isDir := false }.sync fs true

/-- Objects that nobody holds any more, one after the other. -/
def FAT32fs.destroyAll : List File → FAT32fs → Exec FAT32fs
  | [], fs => some fs
  | file :: files, fs => do
    let (fs, _) ← file.destructor fs
    FAT32fs.destroyAll files fs

/-! ### The map -/

/-- `put`, with the destructors of the objects that the map drops. The objects with the inode numbers `held` are held by the caller and live on. -/
def Driver.put (s : Driver) (held : List Nat) (ino : Nat) (file : File) : Exec Driver := do
  let (files, dropped) := s.files.put ino file
  let fs ← s.fs.destroyAll (dropped.filter fun f => f.ino ∉ held)
  return ⟨fs, files⟩

/-- `rmFileFromCacheByIno`, with the destructor of the object. -/
def Driver.rmFileFromCacheByIno (s : Driver) (held : List Nat) (ino : Nat) : Exec Driver := do
  let (dropped, files) := s.files.remove ino
  let fs ← s.fs.destroyAll (dropped.toList.filter fun f => f.ino ∉ held)
  return ⟨fs, files⟩

/-- The caller lets go of the object: the map has the same one, or it is destroyed. -/
def Driver.release (s : Driver) (file : File) : Exec Driver :=
  if s.files.list.any (·.1 = file.ino) then
    some ⟨s.fs, { s.files with list := s.files.list.map fun p => (p.1, if p.1 = file.ino then file else p.2) }⟩
  else do
    let (fs, _) ← file.destructor s.fs
    return ⟨fs, s.files⟩

def FAT32fs.getRootDir (fs : FAT32fs) : File where
  parentClus := 0
  fstEntryNum := 0
  fstClus := fs.bpb.rootClus.toNat
  name := [0x2F]
  crtTime := ⟨0, 0, 0⟩
  accDate := 0
  wrtTime := ⟨0, 0⟩
  fileSz_ := 0
  isDeleted := false
  clusChain_ := none
  isDir := true

def Driver.getFileByIno (cs : Charset) (s : Driver) (held : List Nat) (ino : Nat) : Exec (Option File × Driver) :=
  match s.files.get ino with
  | (some file, files) => some (some file, ⟨s.fs, files⟩)
  | (none, files) =>
    if ino = kRootDirIno then some (some s.fs.getRootDir, ⟨s.fs, files⟩)
    else do
      let result ← File.fromIno cs s.fs ino
      match result with
      | none => return (none, ⟨s.fs, files⟩)
      | some file =>
        let s ← Driver.put ⟨s.fs, files⟩ held ino file
        return (some file, s)

def Driver.getExistFile (cs : Charset) (s : Driver) (ino : Nat) : Exec (File × Driver) := do
  let (result, s) ← s.getFileByIno cs [] (if ino = 1 then 0 else ino)
  -- `assert(result.has_value())`
  let file ← result
  return (file, s)

def Driver.getExistDir (cs : Charset) (s : Driver) (ino : Nat) : Exec (File × Driver) := do
  let (result, s) ← s.getFileByIno cs [] (if ino = 1 then 0 else ino)
  -- `assert(result.has_value())`
  let dir ← result
  assert dir.isDir
  return (dir, s)

/-! ### Looking up and listing -/

/-- `lookupFile` of a directory that the caller holds. -/
def Driver.lookupFile (cs : Charset) (s : Driver) (dir : File) (name : List UInt8) (now : FatTimeStamp) :
    Exec (Option File × File × Driver) := do
  let (lookup_result, dir) ← dir.lookupFileInner cs s.fs name now
  match lookup_result with
  | none => return (none, dir, s)
  | some range =>
    let ino := dir.fstClus * 2 ^ 32 + range.start
    let (cached_result, s) ← s.getFileByIno cs [dir.ino] ino
    match cached_result with
    | some file => return (some file, dir, s)
    | none =>
      let (result, dir) ← dir.readDirEntry s.fs (u32 (range.start + range.count - 1)) now
      let lst_dir_entry ← result
      let file := File.ofEntry dir.fstClus range.start name (castLongDirEntryToShort lst_dir_entry)
      let s ← s.put [dir.ino] file.ino file
      return (some file, dir, s)

/-- `lookupFileByIndex(entry_off)`: the next group with its object. `entry_off` moves behind the group. -/
def Driver.lookupFileByIndex (cs : Charset) (s : Driver) (dir : File) (entry_off : Nat) (now : FatTimeStamp) :
    Exec (Option (DirEntryRange × File) × File × Driver) := do
  let (result, dir) ← File.scanEntries s.fs now skipStep (fun _ _ => some none) slotFuel dir entry_off ()
  match result with
  | none => return (none, dir, s)
  | some entry_start =>
    let ((l_dir_entries, s_dir_entry, entry_off), dir) ←
      File.scanEntries s.fs now recordStep (fun _ _ => none) slotFuel dir entry_start []
    let range : DirEntryRange := ⟨entry_start, entry_off - entry_start⟩
    let (cached_result, s) ← s.getFileByIno cs [dir.ino] (dir.fstClus * 2 ^ 32 + entry_start)
    match cached_result with
    | some file => return (some (range, file), dir, s)
    | none =>
      let file ← File.ofEntries cs dir.fstClus entry_start l_dir_entries (castLongDirEntryToShort s_dir_entry)
      let s ← s.put [dir.ino] file.ino file
      return (some (range, file), dir, s)

/-- `lookupFileByIndex` again and again until there is no more file. Each object is let go of before the next one is looked for. -/
def Driver.listFiles (cs : Charset) (now : FatTimeStamp) :
    Nat → Driver → File → Nat → Exec (List (DirEntryRange × File) × File × Driver)
  | 0, _, _, _ => none
  | fuel + 1, s, dir, entry_off => do
    let (result, dir, s) ← s.lookupFileByIndex cs dir entry_off now
    match result with
    | none => return ([], dir, s)
    | some (range, file) =>
      let s ← s.release file
      let (files, dir, s) ← Driver.listFiles cs now fuel s dir (range.start + range.count)
      return ((range, file) :: files, dir, s)

/-! ### Creating and deleting -/

/-- `crtFileInner`, with `addFileToCache`. -/
def Driver.crtFileInner (cs : Charset) (s : Driver) (dir : File) (name : List UInt8) (is_dir : Bool)
    (now : FatTimeStamp2) : Exec (Option File × File × Driver) := do
  let (result, fs, dir) ← dir.crtFileInner cs s.fs name is_dir now
  match result with
  | none => return (none, dir, ⟨fs, s.files⟩)
  | some file =>
    let s ← Driver.put ⟨fs, s.files⟩ [dir.ino] file.ino file
    return (some file, dir, s)

def Driver.crtFile (cs : Charset) (s : Driver) (dir : File) (name : List UInt8) (now : FatTimeStamp2) :
    Exec (Option File × File × Driver) :=
  s.crtFileInner cs dir name false now

/-- `delFile`, with `rmFileFromCacheByIno`. -/
def Driver.delFile (cs : Charset) (s : Driver) (held : List Nat) (dir : File) (name : List UInt8) (now : FatTimeStamp) :
    Exec (Bool × File × Driver) := do
  let (result, fs, dir) ← dir.delFile cs s.fs name now
  match result with
  | none => return (false, dir, ⟨fs, s.files⟩)
  | some range =>
    let s ← Driver.rmFileFromCacheByIno ⟨fs, s.files⟩ held (dir.fstClus * 2 ^ 32 + range.start)
    return (true, dir, s)

/-- `selfDestruct`, with `rmFileFromCacheByIno`. The caller holds the object. -/
def Driver.selfDestruct (s : Driver) (file : File) : Exec (File × Driver) :=
  if file.isDeleted ∨ file.ino = kRootDirIno then some (file, s)
  else do
    let (fs, file) ← file.selfDestruct s.fs
    let s ← Driver.rmFileFromCacheByIno ⟨fs, s.files⟩ [file.ino] file.ino
    return (file, s)

/-- The entry of a new directory for itself or for its parent. -/
def mkDotEntry (dot_basis_name : BasisName) (fat_ts2 : FatTimeStamp2) (fst_clus : Nat) (now : FatTimeStamp2) :
    ShortDirEntry :=
  setFstClusNo { mkShortDirEntry dot_basis_name true now with
    crtTs2 := fat_ts2
    lstAccDate := fat_ts2.ts.date
    wrtTs := fat_ts2.ts } fst_clus

def mkDotShortDirEntry : FatTimeStamp2 → Nat → FatTimeStamp2 → ShortDirEntry := mkDotEntry (.fill [0x2E] [])

def mkDotDotShortDirEntry : FatTimeStamp2 → Nat → FatTimeStamp2 → ShortDirEntry := mkDotEntry (.fill [0x2E, 0x2E] [])

def Driver.crtDir (cs : Charset) (s : Driver) (dir : File) (name : List UInt8) (now : FatTimeStamp2) :
    Exec (Option File × File × Driver) := do
  let (result, dir, s) ← s.crtFileInner cs dir name true now
  match result with
  | none => return (none, dir, s)
  | some dir_obj =>
    let (ok, fs, dir_obj) ← dir_obj.truncate s.fs (bytesPerClus s.fs.bpb)
    if !ok then
      let (deleted, dir, s) ← Driver.delFile cs ⟨fs, s.files⟩ [dir.ino, dir_obj.ino] dir name now.ts
      -- `assert(delFile(name))`
      assert deleted
      -- the last holder lets go of `dir_obj`
      let s ← s.release dir_obj
      return (none, dir, s)
    let dot_entry := mkDotShortDirEntry dir.crtTime dir_obj.fstClus now
    let dot_dot_entry := mkDotDotShortDirEntry dir.crtTime dir.fstClus now
    let (ok, fs, dir_obj) ← dir_obj.writeDirEntry fs 0 (castShortDirEntryToLong dot_entry) now.ts
    assert ok
    let (ok, fs, dir_obj) ← dir_obj.writeDirEntry fs 1 (castShortDirEntryToLong dot_dot_entry) now.ts
    assert ok
    return (some dir_obj, dir, ⟨fs, s.files⟩)

end FuseFat32
