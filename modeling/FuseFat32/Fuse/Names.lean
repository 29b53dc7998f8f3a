import FuseFat32.Fuse.Reshape

/-!
# Requests on names

`fat32_lookup`, `fat32_create`, `fat32_mkdir`, `fat32_unlink` and `fat32_rmdir` name a file by its directory and its name there. The handler holds the object of the directory until it returns, and that of the file too once it has one. Of all this a client sees a namespace: the files that there are, and the names that the directories have for them.
-/

namespace FuseFat32

open LinkedTable Layout WriteBack

/-! ### The handlers -/

/-- The errors of the handlers. -/
inductive NameErrno where
  | enoent | eexist | efbig | einval | eperm | eisdir | enotdir | enotempty
  deriving DecidableEq

inductive NameAnswer where
  | err (errno : NameErrno)
  | entry (ino : Nat) (attr : FileStat)
  | ok
  | answer (answer : Answer)

/-- `fat32_lookup`. -/
def Driver.fat32Lookup (cs : Charset) (s : Driver) (parent : Nat) (name : List UInt8) (now : FatTimeStamp) :
    Exec (NameAnswer × Driver) := do
  let (parent_dir, s) ← s.getExistDir cs parent
  let (result, parent_dir, s) ← s.lookupFile cs parent_dir name now
  match result with
  | some file =>
    let (attr, file) ← readFileStat s.fs file
    let s ← s.release file
    let s ← s.release parent_dir
    return (.entry file.ino attr, s)
  | none =>
    let s ← s.release parent_dir
    return (.err .enoent, s)

/-- The test `(mode & S_IFMT) == flag`. -/
def isFileType (mode flag : Nat) : Bool := mode &&& 0o170000 = flag

/-- `S_IFSOCK`, `S_IFLNK`, `S_IFBLK`, `S_IFDIR`, `S_IFCHR` and `S_IFIFO`. -/
def isIllegalFat32FileType (mode : Nat) : Bool :=
  isFileType mode 0o140000 || isFileType mode 0o120000 || isFileType mode 0o060000 || isFileType mode 0o040000 ||
    isFileType mode 0o020000 || isFileType mode 0o010000

/-- `fat32_create`. -/
def Driver.fat32Create (cs : Charset) (s : Driver) (parent : Nat) (name : List UInt8) (mode : Nat)
    (now : FatTimeStamp2) : Exec (NameAnswer × Driver) :=
  if !isValidName name then some (.err .einval, s)
  else if isIllegalFat32FileType mode then some (.err .eperm, s)
  else do
    let (parent_dir, s) ← s.getExistDir cs parent
    let (found, parent_dir, s) ← s.lookupFile cs parent_dir name now.ts
    match found with
    | some file =>
      -- the result of `lookupFile` is a temporary
      let s ← s.release file
      let s ← s.release parent_dir
      return (.err .eexist, s)
    | none =>
      let (result, parent_dir, s) ← s.crtFile cs parent_dir name now
      match result with
      | none =>
        let s ← s.release parent_dir
        return (.err .efbig, s)
      | some child_file =>
        let (attr, child_file) ← readFileStat s.fs child_file
        let s ← s.release child_file
        let s ← s.release parent_dir
        return (.entry child_file.ino attr, s)

/-- `fat32_mkdir`. -/
def Driver.fat32Mkdir (cs : Charset) (s : Driver) (parent : Nat) (name : List UInt8) (now : FatTimeStamp2) :
    Exec (NameAnswer × Driver) :=
  if !isValidName name then some (.err .einval, s)
  else do
    let (parent_dir, s) ← s.getExistDir cs parent
    let (result, parent_dir, s) ← s.crtDir cs parent_dir name now
    match result with
    | none =>
      let s ← s.release parent_dir
      return (.err .efbig, s)
    | some child_dir =>
      let (attr, child_dir) ← readFileStat s.fs child_dir
      let s ← s.release child_dir
      let s ← s.release parent_dir
      return (.entry child_dir.ino attr, s)

/-- `fat32_unlink`. -/
def Driver.fat32Unlink (cs : Charset) (s : Driver) (parent : Nat) (name : List UInt8) (now : FatTimeStamp) :
    Exec (NameAnswer × Driver) := do
  let (parent_dir, s) ← s.getExistDir cs parent
  let (child_result, parent_dir, s) ← s.lookupFile cs parent_dir name now
  match child_result with
  | none =>
    let s ← s.release parent_dir
    return (.err .enoent, s)
  | some child =>
    if child.isDir then do
      let s ← s.release child
      let s ← s.release parent_dir
      return (.err .eisdir, s)
    else do
      let (result, parent_dir, s) ← s.delFile cs [parent_dir.ino, child.ino] parent_dir name now
      assert result
      let (child, s) ← s.selfDestruct child
      let s ← s.release child
      let s ← s.release parent_dir
      return (.ok, s)

/-- `fat32_rmdir`. -/
def Driver.fat32Rmdir (cs : Charset) (s : Driver) (parent : Nat) (name : List UInt8) (now : FatTimeStamp) :
    Exec (NameAnswer × Driver) := do
  let (parent_dir, s) ← s.getExistDir cs parent
  let (child_result, parent_dir, s) ← s.lookupFile cs parent_dir name now
  match child_result with
  | none =>
    let s ← s.release parent_dir
    return (.err .enoent, s)
  | some child =>
    if !child.isDir then do
      let s ← s.release child
      let s ← s.release parent_dir
      return (.err .enotdir, s)
    else do
      let (empty, sub_dir) ← child.isEmpty s.fs now
      if !empty then do
        let s ← s.release sub_dir
        let s ← s.release parent_dir
        return (.err .enotempty, s)
      else do
        let (result, parent_dir, s) ← s.delFile cs [parent_dir.ino, sub_dir.ino] parent_dir name now
        assert result
        let (sub_dir, s) ← s.selfDestruct sub_dir
        let s ← s.release sub_dir
        let s ← s.release parent_dir
        return (.ok, s)

/-- A request on a name, or one for an inode number. -/
inductive NameRequest where
  | call (call : Call)
  | lookup (parent : Nat) (name : List UInt8) (now : FatTimeStamp)
  | create (parent : Nat) (name : List UInt8) (mode : Nat) (now : FatTimeStamp2)
  | mkdir (parent : Nat) (name : List UInt8) (now : FatTimeStamp2)
  | unlink (parent : Nat) (name : List UInt8) (now : FatTimeStamp)
  | rmdir (parent : Nat) (name : List UInt8) (now : FatTimeStamp)

def Driver.serveName (cs : Charset) (unix2DosTs : Timespec → FatTimeStamp) (s : Driver) :
    NameRequest → Exec (NameAnswer × Driver)
  | .call call => do
    let (answer, s) ← s.serve cs unix2DosTs call
    return (.answer answer, s)
  | .lookup parent name now => s.fat32Lookup cs parent name now
  | .create parent name mode now => s.fat32Create cs parent name mode now
  | .mkdir parent name now => s.fat32Mkdir cs parent name now
  | .unlink parent name now => s.fat32Unlink cs parent name now
  | .rmdir parent name now => s.fat32Rmdir cs parent name now

inductive NameEvent where
  | request (request : NameRequest)
  | restart

def NameEvent.request? : NameEvent → Option NameRequest
  | .request r => some r
  | .restart => none

def Driver.runNames (cs : Charset) (unix2DosTs : Timespec → FatTimeStamp) :
    List NameEvent → Driver → Exec (List NameAnswer × Driver)
  | [], s => some ([], s)
  | .request request :: events, s => do
    let (answer, s) ← s.serveName cs unix2DosTs request
    let (answers, s) ← Driver.runNames cs unix2DosTs events s
    return (answer :: answers, s)
  | .restart :: events, s => do
    let s ← s.flush
    let s ← s.remount
    Driver.runNames cs unix2DosTs events s

/-! ### The namespace that clients see -/

/-- The files by their inode numbers, and the names that directories have for them. The root directory has the number 1. -/
structure Namespace where
  files : Nat → Option FileView
  names : Nat → List UInt8 → Option Nat

/-- The file that `fat32_create` makes. -/
def FileView.created (now : FatTimeStamp2) : FileView := ⟨false, 0, fun _ => 0, now, now.ts.date, now.ts⟩

/-- The directory that `fat32_mkdir` makes. -/
def FileView.createdDir (bpb : BPB) (now : FatTimeStamp2) : FileView :=
  ⟨true, bytesPerClus bpb, fun _ => 0, now, now.ts.date, now.ts⟩

namespace Namespace

variable (ns : Namespace)

/-- Something has been done to what clients see of `ino`, if it is there. -/
def modify (ino : Nat) (change : FileView → FileView) : Namespace :=
  { ns with files := Function.update ns.files ino ((ns.files ino).map change) }

theorem modify_files_self (ino : Nat) (change : FileView → FileView) :
    (ns.modify ino change).files ino = (ns.files ino).map change := Function.update_self ..

theorem modify_files_of_ne {ino j : Nat} (hne : j ≠ ino) (change : FileView → FileView) :
    (ns.modify ino change).files j = ns.files j := Function.update_of_ne hne ..

theorem modify_of_none {ns : Namespace} {ino : Nat} (h : ns.files ino = none) (change : FileView → FileView) :
    ns.modify ino change = ns := by
  rw [modify, h, Option.map_none]
  exact congrArg (Namespace.mk · ns.names) (h ▸ Function.update_eq_self ino ns.files)

theorem modify_files_eq_none {ino j : Nat} {change : FileView → FileView} :
    (ns.modify ino change).files j = none ↔ ns.files j = none := by
  by_cases hj : j = ino
  · rw [hj, ns.modify_files_self, Option.map_eq_none_iff]
  · rw [ns.modify_files_of_ne hj]

theorem modify_modify (ino : Nat) (change change' : FileView → FileView) :
    (ns.modify ino change).modify ino change' = ns.modify ino (change' ∘ change) := by
  refine congrArg (Namespace.mk · ns.names) ?_
  rw [modify_files_self, Option.map_map]
  exact Function.update_idem ..

/-- The directory has been looked through. -/
def Touched (parent : Nat) (ns' : Namespace) : Prop :=
  ∃ acc, ns' = ns.modify parent fun v => { v with accDate := acc }

/-- Entries of the directory have been written. -/
def Worked (parent : Nat) (ns' : Namespace) : Prop :=
  ∃ size acc wrt, ns' = ns.modify parent fun v => { v with size := size, accDate := acc, wrtTime := wrt }

theorem Worked.kept {ns ns' : Namespace} {parent : Nat} (h : ns.Worked parent ns') :
    ns'.names = ns.names ∧ ∀ k, ns'.files k = none ↔ ns.files k = none := by
  obtain ⟨size, acc, wrt, rfl⟩ := h
  exact ⟨rfl, fun k => ns.modify_files_eq_none⟩

theorem Touched.worked {ns ns' : Namespace} {parent : Nat} (h : ns.Touched parent ns') : ns.Worked parent ns' := by
  obtain ⟨acc, rfl⟩ := h
  cases hfile : ns.files parent with
  | none =>
    refine ⟨0, acc, ⟨0, 0⟩, ?_⟩
    rw [modify_of_none hfile, modify_of_none hfile]
  | some v =>
    refine ⟨v.size, acc, v.wrtTime, ?_⟩
    rw [modify, modify, hfile]
    rfl

theorem Worked.files_of_ne {ns ns' : Namespace} {parent k : Nat} (h : ns.Worked parent ns') (hne : k ≠ parent) :
    ns'.files k = ns.files k := by
  obtain ⟨size, acc, wrt, rfl⟩ := h
  exact ns.modify_files_of_ne hne _

theorem Worked.trans {ns ns₁ ns' : Namespace} {parent : Nat} (h : ns.Worked parent ns₁) (h' : ns₁.Worked parent ns') :
    ns.Worked parent ns' := by
  obtain ⟨size, acc, wrt, rfl⟩ := h
  obtain ⟨size', acc', wrt', rfl⟩ := h'
  exact ⟨size', acc', wrt', ns.modify_modify ..⟩

theorem Worked.of_touched {ns ns₁ ns' : Namespace} {parent : Nat} (h : ns.Touched parent ns₁) (h' : ns₁.Worked parent ns') :
    ns.Worked parent ns' := h.worked.trans h'

/-- A new file has come. -/
def added (parent : Nat) (name : List UInt8) (ino : Nat) (v : FileView) : Namespace where
  files := Function.update ns.files ino (some v)
  names := Function.update ns.names parent (Function.update (ns.names parent) name (some ino))

/-- A new directory has come. It has no names yet. -/
def addedDir (parent : Nat) (name : List UInt8) (ino : Nat) (v : FileView) : Namespace :=
  { ns.added parent name ino v with names := Function.update (ns.added parent name ino v).names ino fun _ => none }

/-- A file has gone, with all names that the directory had for it. -/
def removed (parent ino : Nat) : Namespace where
  files := Function.update ns.files ino none
  names := Function.update ns.names parent fun name => if ns.names parent name = some ino then none else ns.names parent name

/-- There is a directory with the inode number. -/
def HasDir (ino : Nat) : Prop := ino = 1 ∨ ∃ v, ns.files ino = some v ∧ v.isDir = true

/-- The directory has a name for a file. A file that no directory has a name for may lie in it too. -/
def Occupied (ino : Nat) : Prop :=
  (∃ name k, ns.names ino name = some k) ∨
    ∃ k v, ns.files k = some v ∧ ∀ parent name, ns.HasDir parent → ns.names parent name ≠ some k

/-- What a request may do, and what it is told. -/
def Step (bpb : BPB) (unix2DosTs : Timespec → FatTimeStamp) (answer : NameAnswer) (ns' : Namespace) : NameRequest → Prop
  | .call call => ∃ v v' a, ns.files call.ino = some v ∧ answer = .answer a ∧
      v.Step bpb unix2DosTs call.ino call.now a v' call.request ∧
      ns' = { ns with files := Function.update ns.files call.ino (some v') }
  | .lookup parent name _ =>
    match ns.names parent name with
    | none => answer = .err .enoent ∧ ns.Touched parent ns'
    | some ino => ∃ v, ns.files ino = some v ∧ answer = .entry ino (v.stat ino) ∧ ns.Touched parent ns'
  | .create parent name mode now =>
    if !isValidName name then answer = .err .einval ∧ ns' = ns
    else if isIllegalFat32FileType mode then answer = .err .eperm ∧ ns' = ns
    else match ns.names parent name with
      | some _ => answer = .err .eexist ∧ ns.Touched parent ns'
      | none => (answer = .err .efbig ∧ ns.Touched parent ns') ∨
          ∃ ino ns₁, ns.files ino = none ∧ answer = .entry ino ((FileView.created now).stat ino) ∧
            ns.Worked parent ns₁ ∧ ns' = ns₁.added parent name ino (.created now)
  | .mkdir parent name now =>
    if !isValidName name then answer = .err .einval ∧ ns' = ns
    else (answer = .err .efbig ∧ ns.Worked parent ns') ∨
      ∃ ino ns₁, ns.files ino = none ∧ answer = .entry ino ((FileView.createdDir bpb now).stat ino) ∧
        ns.Worked parent ns₁ ∧ ns' = ns₁.addedDir parent name ino (.createdDir bpb now)
  | .unlink parent name _ =>
    match ns.names parent name with
    | none => answer = .err .enoent ∧ ns.Touched parent ns'
    | some ino => ∃ v, ns.files ino = some v ∧
        if v.isDir then answer = .err .eisdir ∧ ns.Touched parent ns'
        else ∃ ns₁, answer = .ok ∧ ns.Worked parent ns₁ ∧ ns' = ns₁.removed parent ino
  | .rmdir parent name _ =>
    match ns.names parent name with
    | none => answer = .err .enoent ∧ ns.Touched parent ns'
    | some ino => ∃ v, ns.files ino = some v ∧
        if v.isDir then
          (answer = .err .enotempty ∧ ns.Occupied ino ∧ ∃ ns₁, ns.Touched parent ns₁ ∧ ns₁.Touched ino ns') ∨
            (∀ name, ns.names ino name = none) ∧ ∃ ns₁, answer = .ok ∧ ns.Worked parent ns₁ ∧ ns' = ns₁.removed parent ino
        else answer = .err .enotdir ∧ ns.Touched parent ns'

/-- The answers that a namespace may give to some requests, one after the other. -/
inductive Serves (bpb : BPB) (unix2DosTs : Timespec → FatTimeStamp) :
    Namespace → List NameRequest → List NameAnswer → Namespace → Prop
  | nil (ns : Namespace) : Serves bpb unix2DosTs ns [] [] ns
  | cons {ns ns₁ ns' : Namespace} {request : NameRequest} {requests : List NameRequest} {answer : NameAnswer}
      {answers : List NameAnswer} : ns.Step bpb unix2DosTs answer ns₁ request →
      Serves bpb unix2DosTs ns₁ requests answers ns' →
      Serves bpb unix2DosTs ns (request :: requests) (answer :: answers) ns'

end Namespace

/-! ### What the driver has for a client -/

/-- Every file of the volume is what a client sees of it. -/
def Tree.Views (t : Tree) (fs : FAT32fs) (σ : Nat → File) (ns : Namespace) : Prop :=
  ∀ k ∈ t.inos, ∃ v, ns.files k = some v ∧ t.View fs (σ k) v

/-- The volume is what a client sees as `ns`, with the names of the directories in `table`. -/
structure Tree.Shown (cs : Charset) (t : Tree) (fs : FAT32fs) (σ : Nat → File) (table : Nat → List UInt8 → Option Nat)
    (ns : Namespace) : Prop where
  catalog : t.Catalog cs fs σ table
  views : t.Views fs σ ns
  rest : ∀ k, k ∉ t.inos → ns.files k = none
  root : ns.names 1 = table fs.bpb.rootClus.toNat
  names : ∀ k ∈ t.subdirs, ns.names k = table (σ k).fstClus

/-- The map and the entries together have the namespace. -/
def Driver.Has (cs : Charset) (s : Driver) (ns : Namespace) : Prop :=
  ∃ t σ table, s.Holds cs t σ [] [] ∧ t.Shown cs s.fs σ table ns

/-- What the handlers rely on in a request for an inode number. -/
def Request.Suits (isDir : Bool) : Request → Prop
  | .setattr attr => attr.stCtim.tvNsec < 10 ^ 9 ∧ (attr.size = true → isDir = false ∧ attr.stSize < 2 ^ 32)
  | .read _ offset => isDir = false ∧ offset < 2 ^ 32
  | .write buf off => isDir = false ∧ off + buf.length < 2 ^ 32
  | _ => True

/-- The directory with the chain `l` gets clusters for the name next to those it has, or needs none. -/
def FAT32fs.RoomFor (fs : FAT32fs) (l : List Nat) (u : List UInt8) : Prop :=
  Consecutive (fs.chainAfter l (fs.lengthFor l (requiredEntryNum u))) ∧
    fs.bpb.clusFor (fs.lengthFor l (requiredEntryNum u)) * bytesPerClus fs.bpb < 2 ^ 32

instance (fs : FAT32fs) (l : List Nat) (u : List UInt8) : Decidable (fs.RoomFor l u) := inferInstanceAs (Decidable (_ ∧ _))

/-- The name can be encoded, and the directory has room for it. -/
def Driver.HasRoom (cs : Charset) (s : Driver) (parent : Nat) (name : List UInt8) (is_dir : Bool) (now : FatTimeStamp2) : Prop :=
  ∃ u gbk b, StorableName cs name u gbk b is_dir now ∧
    ∀ dir s₁, s.getExistDir cs parent = some (dir, s₁) → ∀ l, dir.Placed s₁.fs l → s₁.fs.RoomFor l u

/-- What the handlers rely on: the files are there that a request is about, and there is room for a new name. `fat32_mkdir` does not look whether the name is there already. -/
def NameRequest.Fits (cs : Charset) (s : Driver) (ns : Namespace) : NameRequest → Prop
  | .call c => ∃ v, ns.files c.ino = some v ∧ c.request.Suits v.isDir
  | .lookup parent name _ => ns.HasDir parent ∧ isPlainName cs name = true
  | .create parent name _ now => ns.HasDir parent ∧ isPlainName cs name = true ∧ now.tt.toNat ≤ 199 ∧
      (isValidName name = true → ns.names parent name = none → s.HasRoom cs parent name false now)
  | .mkdir parent name now => ns.HasDir parent ∧ isPlainName cs name = true ∧ now.tt.toNat ≤ 199 ∧
      (isValidName name = true → ns.names parent name = none ∧ s.HasRoom cs parent name true now)
  | .unlink parent name _ | .rmdir parent name _ => ns.HasDir parent ∧ isPlainName cs name = true

/-- Every request fits what the requests before it have left. -/
def NameEvent.AllFit (cs : Charset) (unix2DosTs : Timespec → FatTimeStamp) : List NameEvent → Driver → Namespace → Prop
  | [], _, _ => True
  | .request r :: events, s, ns => r.Fits cs s ns ∧ ∀ answer s' ns',
      s.serveName cs unix2DosTs r = some (answer, s') → ns.Step s.fs.bpb unix2DosTs answer ns' r →
      NameEvent.AllFit cs unix2DosTs events s' ns'
  | .restart :: events, s, ns => ∀ s₁ s₂, s.flush = some s₁ → s₁.remount = some s₂ →
      NameEvent.AllFit cs unix2DosTs events s₂ ns

end FuseFat32
