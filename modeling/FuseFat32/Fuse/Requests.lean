import FuseFat32.Fuse.Volume

/-!
# Requests on inode numbers

A request names a file by its inode number. `getExistFile` finds the object in the map or makes it of its entries, and what the map drops for it writes itself back. The handler works on the object, and the map has it as the handler has left it. Of all this a client sees a store that has a file for every inode number.
-/

namespace FuseFat32

open LinkedTable Layout WriteBack

/-! ### The driver -/

inductive Request where
  | getattr
  | setattr (attr : SetAttr)
  | read (size offset : Nat)
  | write (buf : List UInt8) (off : Nat)
  | fsync (datasync : Bool)
  | opendir
  | fsyncdir (datasync : Bool)

inductive Answer where
  | err (errno : Errno)
  | attr (stat : FileStat)
  | buf (bytes : List UInt8)
  | write (count : Nat)
  | ok

/-- What the handlers refuse before they ask for the object. -/
def Request.refusal : Request → Option Errno
  | .setattr attr => if attr.uid || attr.gid then some .eperm else none
  | .read size _ => if 4294967295 ≤ size then some .einval else none
  | _ => none

def SetAttrReply.answer : SetAttrReply → Answer
  | .err errno => .err errno
  | .attr stat => .attr stat

/-- What the handlers do with the object. -/
def Request.handle (unix2DosTs : Timespec → FatTimeStamp) (fs : FAT32fs) (file : File) (now : FatTimeStamp) :
    Request → Exec (Answer × FAT32fs × File)
  | .getattr => do
    let (stat, file) ← readFileStat fs file
    return (.attr stat, fs, file)
  | .setattr attr => do
    let (reply, fs, file) ← fat32Setattr unix2DosTs fs file attr now
    return (reply.answer, fs, file)
  | .read size offset => do
    let (buf, file) ← file.read fs (u32 size) (u32 offset) now
    return (.buf buf, fs, file)
  | .write buf off => do
    let (cnt, fs, file) ← fat32Write fs file buf off now
    return (.write cnt, fs, file)
  | .fsync datasync => do
    let (fs, file) ← file.sync fs datasync
    return (.ok, fs, file)
  | .opendir => some (if file.isDir then .ok else .err .enotdir, fs, file)
  | .fsyncdir datasync =>
    if !file.isDir then some (.err .enotdir, fs, file)
    else do
      let (fs, file) ← file.sync fs datasync
      return (.ok, fs, file)

/-- A request for an inode number, with the time of the clock. -/
structure Call where
  ino : Nat
  now : FatTimeStamp
  request : Request

def Driver.serve (cs : Charset) (unix2DosTs : Timespec → FatTimeStamp) (s : Driver) (call : Call) :
    Exec (Answer × Driver) :=
  match call.request.refusal with
  | some errno => some (.err errno, s)
  | none => do
    let (file, s) ← s.getExistFile cs call.ino
    let (answer, fs, file) ← call.request.handle unix2DosTs s.fs file call.now
    let s ← Driver.release ⟨fs, s.files⟩ file
    return (answer, s)

/-- `CacheManager::clear`: every sector of the cache is written back. -/
def Device.clear (d : Device) : Device := { d with stored := d.value }

/-- `flush`, with the destructors of the objects that the map drops. -/
def Driver.flush (s : Driver) : Exec Driver := do
  let (files, dropped) := s.files.clear
  let fs ← s.fs.destroyAll dropped
  return ⟨{ fs with device := fs.device.clear }, files⟩

/-- The size of `cached_lookup_files_`. -/
def kCachedLookupFiles : Nat := 20

/-- Another process mounts what the backing device has. -/
def Driver.remount (s : Driver) : Exec Driver := do
  let fs ← FAT32fs.from s.fs.device.dropped
  return ⟨fs, ⟨kCachedLookupFiles, []⟩⟩

/-- A process serves calls. It may end with the `flush` of `main`, and then another one goes on. -/
inductive Event where
  | call (call : Call)
  | restart

def Event.call? : Event → Option Call
  | .call c => some c
  | .restart => none

def Driver.run (cs : Charset) (unix2DosTs : Timespec → FatTimeStamp) : List Event → Driver → Exec (List Answer × Driver)
  | [], s => some ([], s)
  | .call call :: events, s => do
    let (answer, s) ← s.serve cs unix2DosTs call
    let (answers, s) ← Driver.run cs unix2DosTs events s
    return (answer :: answers, s)
  | .restart :: events, s => do
    let s ← s.flush
    let s ← s.remount
    Driver.run cs unix2DosTs events s

/-! ### The store that clients see -/

/-- A file or a directory. -/
structure FileView where
  isDir : Bool
  size : Nat
  bytes : Nat → UInt8
  crtTime : FatTimeStamp2
  accDate : UInt16
  wrtTime : FatTimeStamp

namespace FileView

variable (v : FileView)

def stat (ino : Nat) : FileStat := ⟨ino, v.isDir, v.size, ⟨0, v.accDate⟩, v.wrtTime, v.crtTime⟩

def setTimes (unix2DosTs : Timespec → FatTimeStamp) (attr : SetAttr) (now : FatTimeStamp) : FileView :=
  { v with
    crtTime := if attr.ctime then unix2DosTs2 unix2DosTs attr.stCtim else v.crtTime
    accDate := if attr.atime then (if attr.atimeNow then now else unix2DosTs attr.stAtim).date else v.accDate
    wrtTime := if attr.mtime then (if attr.mtimeNow then now else unix2DosTs attr.stMtim) else v.wrtTime }

/-- The size has become `length`. What lies past the old end can be anything. -/
def Resized (length : Nat) (v' : FileView) : Prop :=
  v' = { v with size := length, bytes := v'.bytes } ∧ ∀ p < v.size, p < length → v'.bytes p = v.bytes p

/-- The bytes of `buf` are at `off`. What lies between the old end and `off` can be anything. -/
def Written (buf : List UInt8) (off : Nat) (now : FatTimeStamp) (v' : FileView) : Prop :=
  v' = { v with size := max v.size (off + buf.length), bytes := v'.bytes, wrtTime := now } ∧
    (∀ k < buf.length, buf[k]? = some (v'.bytes (off + k))) ∧
    ∀ p < v.size, p < off ∨ off + buf.length ≤ p → v'.bytes p = v.bytes p

/-- The file would need more clusters for `length` bytes than it has. -/
def Outgrows (bpb : BPB) (length : Nat) : Prop := bpb.clusFor v.size < bpb.clusFor length

/-- What a request may do to the file with the inode number `ino`, and what it is told. -/
def Step (bpb : BPB) (unix2DosTs : Timespec → FatTimeStamp) (ino : Nat) (now : FatTimeStamp) (answer : Answer)
    (v' : FileView) : Request → Prop
  | .getattr => answer = .attr (v.stat ino) ∧ v' = v
  | .setattr attr =>
    if attr.uid || attr.gid then answer = .err .eperm ∧ v' = v
    else if attr.size then
      (answer = .err .efbig ∧ v' = v ∧ v.Outgrows bpb attr.stSize) ∨
        ∃ v₁, v.Resized attr.stSize v₁ ∧ v' = v₁.setTimes unix2DosTs attr now ∧ answer = .attr (v'.stat ino)
    else v' = v.setTimes unix2DosTs attr now ∧ answer = .attr (v'.stat ino)
  | .read size offset =>
    if 4294967295 ≤ size then answer = .err .einval ∧ v' = v
    else answer = .buf ((List.range (min size (v.size - offset))).map fun k => v.bytes (offset + k)) ∧
      v' = if offset < v.size then { v with accDate := now.date } else v
  | .write buf off =>
    (answer = .write 0 ∧ v' = v ∧ v.Outgrows bpb (off + buf.length)) ∨
      (answer = .write buf.length ∧ v.Written buf off now v')
  | .fsync _ => answer = .ok ∧ v' = v
  | .opendir => answer = (if v.isDir then .ok else .err .enotdir) ∧ v' = v
  | .fsyncdir _ => answer = (if v.isDir then .ok else .err .enotdir) ∧ v' = v

end FileView

/-- The answers that a store may give to some requests, one after the other. -/
inductive Store.Serves (bpb : BPB) (unix2DosTs : Timespec → FatTimeStamp) :
    (Nat → FileView) → List Call → List Answer → (Nat → FileView) → Prop
  | nil (store : Nat → FileView) : Serves bpb unix2DosTs store [] [] store
  | cons {store store' : Nat → FileView} {call : Call} {calls : List Call} {answer : Answer} {answers : List Answer}
      {v : FileView} : (store call.ino).Step bpb unix2DosTs call.ino call.now answer v call.request →
      Serves bpb unix2DosTs (Function.update store call.ino v) calls answers store' →
      Serves bpb unix2DosTs store (call :: calls) (answer :: answers) store'

/-! ### What the driver has for a client -/

/-- The object `f` on the volume is what a client sees as `v`. -/
structure Tree.View (t : Tree) (fs : FAT32fs) (f : File) (v : FileView) : Prop where
  isDir : v.isDir = f.isDir
  size : v.size = if f.isDir then u32 ((t.chain f.fstClus).length * bytesPerClus fs.bpb) else f.fileSz_
  bytes : f.isDir = false → ∀ l, fs.bpb.ChainOf fs.table f.fstClus l → ∀ p < f.fileSz_, v.bytes p = fs.content l p
  crtTime : v.crtTime = f.crtTime
  accDate : v.accDate = f.accDate
  wrtTime : v.wrtTime = f.wrtTime

/-- The map and the entries together have the files of the store. -/
def Driver.Shows (cs : Charset) (t : Tree) (s : Driver) (store : Nat → FileView) : Prop :=
  0 < s.files.maxSize ∧ ∃ σ, Coherent (t.reading cs) t.inos s.fs σ s.files.list ∧
    ∀ k ∈ t.inos, t.View s.fs (σ k) (store k)

/-- What the handlers rely on in a request for `ino`: offsets and sizes are those of a file of 32 bits, and only a file is read, written or resized. -/
def Request.Fits (t : Tree) (ino : Nat) : Request → Prop
  | .setattr attr => attr.stCtim.tvNsec < 10 ^ 9 ∧ (attr.size = true → ino ∈ t.files ∧ attr.stSize < 2 ^ 32)
  | .read _ offset => ino ∈ t.files ∧ offset < 2 ^ 32
  | .write buf off => ino ∈ t.files ∧ off + buf.length < 2 ^ 32
  | _ => True

def Call.Valid (t : Tree) (call : Call) : Prop := call.ino ∈ t.inos ∧ call.request.Fits t call.ino

/-! ### What a call on an object leaves -/

/-- A call on the object of `k` has left it as `g'`. The volume has it as `f'`, and everything else is what it was. -/
structure Tree.Served (cs : Charset) (t : Tree) (fs : FAT32fs) (σ : Nat → File) (k : Nat) (fs' : FAT32fs)
    (f' g' : File) : Prop where
  volume : t.Volume cs fs' (Function.update σ k f')
  object : f'.MayCache fs' g'
  undisturbed : Undisturbed (t.reading cs) t.inos σ k fs fs'
  bpb : fs'.bpb = fs.bpb
  tidy : t.Tidy fs fs'
  head : k ∈ t.subdirs → f'.fstClus = (σ k).fstClus
  views : ∀ j ∈ t.inos, j ≠ k → ∀ v, t.View fs (σ j) v → t.View fs' (σ j) v

/-- Clients see the same on `fs'` with the objects `σ'` as on `fs` with `σ`, but for what they see of `k`. -/
structure Tree.Follows (t : Tree) (fs : FAT32fs) (σ : Nat → File) (k : Nat) (fs' : FAT32fs) (σ' : Nat → File) : Prop where
  bpb : fs'.bpb = fs.bpb
  tidy : t.Tidy fs fs'
  heads : ∀ j ∈ t.subdirs, (σ' j).fstClus = (σ j).fstClus
  views : ∀ j ∈ t.inos, j ≠ k → ∀ v, t.View fs (σ j) v → t.View fs' (σ' j) v

section served

variable {cs : Charset} {t : Tree} {fs fs' : FAT32fs} {σ : Nat → File} {k : Nat} {f f' g g' : File} {v : FileView}
  {l l' : List Nat}

theorem Tree.Volume.length_eq (h : t.Volume cs fs σ) (hk : k ∈ t.files) (hl : fs.bpb.ChainOf fs.table (σ k).fstClus l) :
    l.length = fs.bpb.clusFor (σ k).fileSz_ := by
  obtain ⟨l', hl', hlen⟩ := h.files.chain ⟨k, hk⟩ (h.live (.inl hk))
  rw [hl.unique hl'.chain]
  exact hlen

theorem Tree.Volume.size_le (h : t.Volume cs fs σ) (hk : k ∈ t.files) (hl : fs.bpb.ChainOf fs.table (σ k).fstClus l) :
    (σ k).fileSz_ ≤ l.length * bytesPerClus fs.bpb := by
  rw [h.length_eq hk hl]
  exact h.mounted.sound.le_clusFor _

theorem Tree.Volume.kind (h : t.Volume cs fs σ) (hk : k ∈ t.inos) :
    (k ∈ t.files ∧ (σ k).isDir = false) ∨ (k ∈ t.subdirs ∧ (σ k).isDir = true) :=
  hk.imp (fun hk => ⟨hk, h.file hk⟩) fun hk => ⟨hk, (h.subdirs k hk).1⟩

/-- What clients see depends on the bytes of the files only. -/
theorem Tree.Alike.view (h : t.Volume cs fs σ) (ha : t.Alike σ fs fs') (hk : k ∈ t.inos) (hv : t.View fs (σ k) v) :
    t.View fs' (σ k) v := by
  obtain ⟨hbpb, -, hsame⟩ := ha
  refine ⟨hv.isDir, by rw [hv.size, hbpb], fun hdir l hl p hp => ?_, hv.crtTime, hv.accDate, hv.wrtTime⟩
  have hfile : k ∈ t.files := ((h.kind hk).resolve_right fun hsub => absurd (hdir.symm.trans hsub.2) (by decide)).1
  obtain ⟨l₀, hl₀, -⟩ := h.files.chain ⟨k, hfile⟩ (h.live hk)
  obtain ⟨hl', hbytes⟩ := hsame k hfile l₀ hl₀.chain
  rw [hbpb] at hl
  obtain rfl := hl.unique hl'
  rw [hbytes p (hp.trans_le (h.size_le hfile hl₀.chain)), hv.bytes hdir _ hl₀.chain p hp]

theorem Tree.View.retimed (hv : t.View fs f v) (h : f.Retimed f') :
    t.View fs f' { v with crtTime := f'.crtTime, accDate := f'.accDate, wrtTime := f'.wrtTime } := by
  obtain ⟨hfst, hsize⟩ := h.data
  refine ⟨hv.isDir.trans h.kind.1.symm, ?_, fun hdir l hl p hp => ?_, rfl, rfl, rfl⟩
  · rw [h.kind.1, hfst, hsize]
    exact hv.size
  · rw [hfst] at hl
    rw [hsize] at hp
    exact hv.bytes (h.kind.1 ▸ hdir) l hl p hp

theorem Tree.Served.of_retimed (h : t.Volume cs fs σ) (hk : k ∈ t.inos) (hg : (σ k).MayCache fs g) (heq : g.Retimed g')
    (hplaced : g'.Placed fs l) (htenths : g'.crtTime.tt.toNat ≤ 199) : t.Served cs fs σ k fs g'.uncached g' :=
  ⟨h.retimed hk hg.1 heq htenths, ⟨⟨g'.clusChain_, rfl⟩, l, hplaced⟩, ⟨fun _ _ _ hhas => hhas, fun _ _ _ _ ha => ha⟩,
    rfl, .of_eq fun _ _ _ _ => rfl, fun _ => heq.data.1.trans (hg.1.elim fun _ h => h ▸ rfl), fun _ _ _ _ hv => hv⟩

theorem Tree.Served.of_works (h : t.Volume cs fs σ) (hk : k ∈ t.files) (hw : t.Works fs σ k g l fs' g' l') :
    t.Served cs fs σ k fs' g'.uncached g' := by
  have hs := h.mounted.sound
  refine ⟨hw.volume h hk, hw.mayCache, hw.undisturbed h hk, hw.bpb,
    .of_eq fun c hc n hn => hw.entryAt_dir h hk hc (hs.slot_inside hn), fun hsub => absurd (h.subdirs k hsub).1 ?_,
    fun j hj hne v hv => ?_⟩
  · rw [h.file hk]
    decide
  refine ⟨hv.isDir, by rw [hv.size, hw.bpb], fun hdir l₂ hl p hp => ?_, hv.crtTime, hv.accDate, hv.wrtTime⟩
  have hfile : j ∈ t.files := ((h.kind hj).resolve_right fun hsub => absurd (hdir.symm.trans hsub.2) (by decide)).1
  obtain ⟨l₀, hl₀, -⟩ := h.files.chain ⟨j, hfile⟩ (h.live hj)
  have hkept := hw.kept h hk hj hne hl₀.chain
  rw [hw.bpb] at hl
  obtain rfl := hl.unique (hl₀.chain.congr fun x hx => (hkept x hx).1)
  have hcap := hp.trans_le (h.size_le hfile hl₀.chain)
  obtain ⟨hlt, hsec⟩ := BPB.chainSector_eq (hs.sector_lt_of_pos hcap)
  rw [hv.bytes hdir _ hl₀.chain p hp, FAT32fs.content, FAT32fs.content, hw.bpb, BPB.chainLoc, hsec]
  exact (congrFun ((hkept _ (List.getElem_mem hlt)).2 _ (Nat.mod_lt _ hs.secPerClus)) _).symm

theorem Tree.Follows.trans {fs'' : FAT32fs} {σ' σ'' : Nat → File} (h : t.Follows fs σ k fs' σ')
    (h' : t.Follows fs' σ' k fs'' σ'') : t.Follows fs σ k fs'' σ'' :=
  ⟨h'.bpb.trans h.bpb, h.tidy.trans h.bpb h'.tidy, fun j hj => (h'.heads j hj).trans (h.heads j hj),
    fun j hj hne v hv => h'.views j hj hne v (h.views j hj hne v hv)⟩

theorem Tree.Alike.follows (h : t.Volume cs fs σ) (ha : t.Alike σ fs fs') (k : Nat) : t.Follows fs σ k fs' σ :=
  ⟨ha.1, ha.2.1, fun _ _ => rfl, fun _ hj _ _ hv => ha.view h hj hv⟩

theorem Tree.Served.follows (h : t.Served cs fs σ k fs' f' g') : t.Follows fs σ k fs' (Function.update σ k f') := by
  refine ⟨h.bpb, h.tidy, fun j hj => ?_, fun j hj hne v hv => ?_⟩
  · by_cases hjk : j = k
    · subst hjk
      rw [Function.update_self]
      exact h.head hj
    · rw [Function.update_of_ne hjk]
  · rw [Function.update_of_ne hne]
    exact h.views j hj hne v hv

end served

end FuseFat32
