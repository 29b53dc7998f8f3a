import FuseFat32.Fuse.Readdir

/-!
# What `fsync` makes durable

`fat32_fsync` hands its flag on to `sync`, which takes it for the wish to write the metadata. A call with the flag clear, which asks for everything, therefore writes back the sectors of the file and nothing else. The entry of the file, the sectors of its directory and those of the FAT stay in the cache. When the backing device has had all of them before, it has the file after the call, and a mount that finds nothing in the caches shows it under its path.
-/

namespace FuseFat32

open LinkedTable Layout Segments

/-- `fat32_fsync` on the object that `getExistFile` has returned. -/
def fat32Fsync (fs : FAT32fs) (file : File) (datasync : Bool) : Exec (Reply × FAT32fs × File) := do
  let (fs, file) ← file.sync fs datasync
  return (.ok, fs, file)

/-- The requests that look up a path. No component of a path has been looked up before, so none is in the map. -/
def FAT32fs.lookupPath (cs : Charset) (fs : FAT32fs) (now : FatTimeStamp) : File → List (List UInt8) → Exec (Option File)
  | dir, [] => some (some dir)
  | dir, name :: path => do
    -- `getExistDir`
    assert dir.isDir
    let (result, _, _) ← Driver.lookupFile cs ⟨fs, ⟨20, []⟩⟩ dir name now
    match result with
    | none => return none
    | some file => FAT32fs.lookupPath cs fs now file path

/-- The device when the cache of sectors is lost. -/
def Device.dropped (d : Device) : Device := { d with value := d.stored }

def FAT32fs.dropped (fs : FAT32fs) : FAT32fs := { fs with device := fs.device.dropped }

/-- The new object `g` has the metadata of `f`. -/
structure File.SameMeta (f g : File) : Prop where
  isDir : g.isDir = f.isDir
  fstClus : g.fstClus = f.fstClus
  fileSz_ : f.isDir = false → g.fileSz_ = f.fileSz_
  crtTime : g.crtTime = f.crtTime
  accDate : g.accDate = f.accDate
  wrtTime : g.wrtTime = f.wrtTime

/-- The volume `fs'` shows the file `g` with the data and the metadata that `f` has on `fs`. -/
structure File.SameFile (fs : FAT32fs) (f : File) (fs' : FAT32fs) (g : File) : Prop where
  metadata : f.SameMeta g
  size : (g.fileSz fs').map Prod.fst = (f.fileSz fs).map Prod.fst
  chain : (g.readClusChain fs').map Prod.fst = (f.readClusChain fs).map Prod.fst
  content : ∀ size offset now, (g.read fs' size offset now).map Prod.fst = (f.read fs size offset now).map Prod.fst

/-- The backing device alone determines the file: it can be mounted again, and the path leads to the file. -/
def File.Durable (cs : Charset) (fs : FAT32fs) (f : File) (path : List (List UInt8)) : Prop :=
  ∃ fs', FAT32fs.from fs.device.dropped = some fs' ∧ ∀ now, ∃ g,
    fs'.lookupPath cs now fs'.getRootDir path = some (some g) ∧ f.SameFile fs fs' g

/-! ### Volumes that show the same -/

/-- The two volumes have the same links in the clusters `l` and the same bytes in their sectors. -/
structure FAT32fs.Shares (fs fs' : FAT32fs) (l : List Nat) : Prop where
  table : ∀ x ∈ l, fs'.table x = fs.table x
  value : ∀ n < l.length * fs.bpb.secPerClus.toNat,
    fs'.device.value (fs.bpb.chainSector l n) = fs.device.value (fs.bpb.chainSector l n)

/-- The directory has a group with the name where `fromIno` counts its slots, and `file` is made of that group. -/
structure File.Finds (cs : Charset) (fs : FAT32fs) (dir : File) (l : List Nat) (name : List UInt8) (file : File) :
    Prop where
  placed : dir.Placed fs l
  isDir : dir.isDir = true
  group : ∃ segs tail u gbk n g file_name, GroupLayout (fs.dirEntries l) segs tail ∧
    cs.utf8ToUtf16 name = some u ∧ cs.utf8ToGbk (toUpper name) = some gbk ∧
    (blocks EntryGroup.entries 0 segs).find? (fun p => p.2.Named u gbk) = some (n, g) ∧
    fs.bpb.SlotsInOrder l n g.longs.length ∧ g.name cs = some file_name ∧
    file = .ofEntry dir.fstClus n file_name (castLongDirEntryToShort g.short)

/-- The path leads from the directory to the object `f`, by way of directories with the chains `ls`, and every object is made of its entries. -/
inductive FAT32fs.Leads (cs : Charset) (fs : FAT32fs) : File → List (List UInt8) → List (List Nat) → File → Prop
  | nil (f : File) : Leads cs fs f [] [] f
  | cons {dir file f : File} {name : List UInt8} {path : List (List UInt8)} {l : List Nat} {ls : List (List Nat)} :
      dir.Finds cs fs l name file → Leads cs fs file path ls f → Leads cs fs dir (name :: path) (l :: ls) f

private theorem FileMap.get_empty (n k : Nat) : LRUCacheMap.get (⟨n, []⟩ : FileMap) k = (none, ⟨n, []⟩) := rfl

section views

variable {cs : Charset} {fs fs' fs'' : FAT32fs} {dir file f g : File} {l : List Nat} {ls : List (List Nat)}
  {name : List UInt8} {path : List (List UInt8)}

theorem FAT32fs.Shares.trans (h : fs.Shares fs' l) (hbpb : fs'.bpb = fs.bpb) (h' : fs'.Shares fs'' l) :
    fs.Shares fs'' l := by
  refine ⟨fun x hx => (h'.table x hx).trans (h.table x hx), fun n hn => ?_⟩
  have hvalue := h'.value n (by rwa [hbpb])
  rw [hbpb] at hvalue
  exact hvalue.trans (h.value n hn)

theorem FAT32fs.Shares.dirEntries (h : fs.Shares fs' l) (hbpb : fs'.bpb = fs.bpb) (hs : fs.bpb.Sound) :
    fs'.dirEntries l = fs.dirEntries l := by
  rw [FAT32fs.dirEntries, FAT32fs.dirEntries, hbpb]
  refine List.map_congr_left fun k hk => ?_
  have hin : kDirEntrySize * k < l.length * bytesPerClus fs.bpb := by
    have hle : u32 (l.length * bytesPerClus fs.bpb) ≤ l.length * bytesPerClus fs.bpb := Nat.mod_le _ _
    have hmul := hs.dirSlots_mul l
    have hlt := Nat.mul_lt_mul_of_pos_left (List.mem_range.mp hk) (show 0 < kDirEntrySize by decide)
    omega
  rw [FAT32fs.entryAt, FAT32fs.entryAt, hbpb]
  exact Device.entry_congr (h.value _ (hs.sector_lt_of_pos hin))

theorem FAT32fs.Shares.placed (h : fs.Shares fs' l) (hbpb : fs'.bpb = fs.bpb) (hf : f.Placed fs l)
    (hfst : g.fstClus = f.fstClus) (hcache : g.clusChain_ = none ∨ g.clusChain_ = some l) : g.Placed fs' l :=
  ⟨by
    rw [hbpb, hfst]
    exact hf.chain.congr h.table, hcache⟩

theorem File.Finds.shares (hfinds : dir.Finds cs fs l name file) (h : fs.Shares fs' l) (hbpb : fs'.bpb = fs.bpb)
    (hs : fs.bpb.Sound) : dir.Finds cs fs' l name file := by
  refine ⟨h.placed hbpb hfinds.placed rfl hfinds.placed.cache, hfinds.isDir, ?_⟩
  rw [h.dirEntries hbpb hs, hbpb]
  exact hfinds.group

/-- Paths through directories that both have lead to the same objects. -/
theorem FAT32fs.Leads.shares (hleads : fs.Leads cs dir path ls f) (hbpb : fs'.bpb = fs.bpb) (hs : fs.bpb.Sound)
    (h : ∀ l ∈ ls, fs.Shares fs' l) : fs'.Leads cs dir path ls f := by
  induction hleads with
  | nil f => exact .nil f
  | cons hfinds _ ih =>
    exact .cons (hfinds.shares (h _ List.mem_cons_self) hbpb hs) (ih fun l hl => h l (List.mem_cons_of_mem _ hl))

private theorem Driver.getFileByIno_empty (held : List Nat) {ino : Nat} (hroot : ino ≠ kRootDirIno)
    (hino : File.fromIno cs fs ino = some (some file)) :
    (Driver.getFileByIno cs ⟨fs, ⟨20, []⟩⟩ held ino).map Prod.fst = some (some file) := by
  rw [Driver.getFileByIno, FileMap.get_empty]
  simp only [if_neg hroot, hino, Option.bind_eq_bind, Option.bind_some]
  rfl

private theorem Driver.lookupFile_found {s s' : Driver} {now : FatTimeStamp} {range : DirEntryRange} {ino : Nat}
    (hlookup : dir.lookupFileInner cs s.fs name now = some (some range, g)) (hino : ino = g.fstClus * 2 ^ 32 + range.start)
    (hget : s.getFileByIno cs [g.ino] ino = some (some file, s')) :
    s.lookupFile cs dir name now = some (some file, g, s') := by
  subst hino
  rw [Driver.lookupFile, hlookup, Option.bind_eq_bind, Option.bind_some]
  dsimp only
  rw [hget]
  rfl

theorem File.Finds.uncached (hfinds : dir.Finds cs fs l name file) : file.clusChain_ = none := by
  obtain ⟨-, -, -, -, -, -, -, -, -, -, -, -, -, -, -, rfl⟩ := hfinds
  rfl

theorem File.Finds.lookupFile (hfinds : dir.Finds cs fs l name file) (hm : fs.Mounted) (now : FatTimeStamp) :
    (Driver.lookupFile cs ⟨fs, ⟨20, []⟩⟩ dir name now).map Prod.fst = some (some file) := by
  obtain ⟨hf, hdir, segs, tail, u, gbk, n, g, file_name, hlayout, hu, hgbk, hfound, horder, hname, rfl⟩ := hfinds
  obtain ⟨dir', hsame, -, hlookup⟩ := hf.lookupFileInner_eq hm hdir hlayout cs name now
  have hfst : dir'.fstClus = dir.fstClus := by rw [hsame]
  have hmem := List.mem_of_find?_eq_some hfound
  have hroot : dir.fstClus * 2 ^ 32 + n ≠ kRootDirIno := by
    have hlt := (hlayout.liveGroup hmem).1
    rcases hf.chain with ⟨-, rfl⟩ | ⟨hdata, -⟩
    · simp [BPB.dirSlots, u32] at hlt
    · have := hdata.1
      rw [kRootDirIno]
      omega
  have hget := Driver.getFileByIno_empty [dir'.ino] hroot (hlayout.fromIno_inOrder hm hf hmem horder hname)
  obtain ⟨⟨result, s'⟩, hget, rfl⟩ := Option.map_eq_some_iff.mp hget
  rw [hu, hgbk, Option.bind_some, Option.map_some, dirLookup, hfound, Option.map_some] at hlookup
  rw [Driver.lookupFile_found (s := ⟨fs, ⟨20, []⟩⟩) hlookup (by rw [hfst]) hget, Option.map_some]

theorem FAT32fs.Leads.lookupPath (hleads : fs.Leads cs dir path ls f) (hm : fs.Mounted) (now : FatTimeStamp) :
    fs.lookupPath cs now dir path = some (some f) := by
  induction hleads with
  | nil f => rfl
  | cons hfinds _ ih =>
    obtain ⟨⟨result, dir', files'⟩, hrun, rfl⟩ := Option.map_eq_some_iff.mp (hfinds.lookupFile hm now)
    rw [FAT32fs.lookupPath, hfinds.isDir, assert_true, hrun]
    exact ih

theorem FAT32fs.Leads.data (hleads : fs.Leads cs dir path ls f) : ∀ l ∈ ls, ∀ x ∈ l, fs.bpb.DataClus x := by
  induction hleads with
  | nil f => exact fun _ h => absurd h List.not_mem_nil
  | cons hfinds _ ih =>
    intro l hl
    rcases List.mem_cons.mp hl with rfl | hl
    · exact hfinds.placed.chain.data
    · exact ih l hl

theorem FAT32fs.Leads.uncached (hleads : fs.Leads cs dir path ls f) (hdir : dir.clusChain_ = none) :
    f.clusChain_ = none := by
  induction hleads with
  | nil f => exact hdir
  | cons hfinds _ ih => exact ih hfinds.uncached

end views

/-! ### The same file on two volumes -/

section files

variable {fs fs' : FAT32fs} {f g : File} {l : List Nat}

theorem File.Placed.sized (hm : fs.Mounted) (hf : f.Placed fs l)
    (hsize : f.isDir = false → f.fileSz_ ≤ l.length * bytesPerClus fs.bpb) :
    f.Sized fs l (if f.isDir then u32 (l.length * bytesPerClus fs.bpb) else f.fileSz_) := by
  by_cases hdir : f.isDir = true
  · rw [if_pos hdir]
    exact hf.sized_dir hm hdir
  · rw [if_neg hdir]
    exact ⟨⟨f, by rw [File.fileSz, if_neg hdir], rfl, hf⟩, hsize (by simpa using hdir)⟩

private theorem File.SameMeta.sameFile (h : f.SameMeta g) (hm : fs.Mounted) (hm' : fs'.Mounted) (hbpb : fs'.bpb = fs.bpb)
    (hf : f.Placed fs l) (hg : g.Placed fs' l) (hshares : fs.Shares fs' l)
    (hsize : f.isDir = false → f.fileSz_ ≤ l.length * bytesPerClus fs.bpb) : f.SameFile fs fs' g := by
  have hsf := hf.sized hm hsize
  have hsg := hg.sized hm' (fun hdir => by
    rw [h.isDir] at hdir
    rw [h.fileSz_ hdir, hbpb]
    exact hsize hdir)
  have hsz : (if g.isDir then u32 (l.length * bytesPerClus fs'.bpb) else g.fileSz_) =
      if f.isDir then u32 (l.length * bytesPerClus fs.bpb) else f.fileSz_ := by
    rw [h.isDir, hbpb]
    split
    · rfl
    · next hdir => exact h.fileSz_ (by simpa using hdir)
  rw [hsz] at hsg
  refine ⟨h, ?_, ?_, fun size offset now => ?_⟩
  · obtain ⟨f₁, hf₁, -⟩ := hsf.run
    obtain ⟨g₁, hg₁, -⟩ := hsg.run
    rw [hf₁, hg₁]
    rfl
  · rw [hf.readClusChain hm, hg.readClusChain hm']
    rfl
  · obtain ⟨f₁, hf₁, -⟩ := File.Placed.read_eq hm hsf size offset now
    obtain ⟨g₁, hg₁, -⟩ := File.Placed.read_eq hm' hsg size offset now
    rw [hf₁, hg₁, Option.map_some, Option.map_some, hbpb]
    refine congrArg some (load_congr fun k hk => ?_)
    have hpos : offset + k < l.length * bytesPerClus fs.bpb := by
      have := hsf.fits
      omega
    exact congrFun (hshares.value _ (hm.sound.sector_lt_of_pos hpos)) _

end files

/-! ### Sectors that are written back -/

/-- Some sectors have been written back, by `sync` or because the cache has dropped them. -/
structure Device.WrittenBack (d d' : Device) : Prop where
  value : d'.value = d.value
  secCnt : d'.secCnt = d.secCnt
  stored : ∀ s, d'.stored s = d.stored s ∨ d'.stored s = d.value s

/-- Both the backing device and the cache start with the boot sector and the FSInfo sector of the volume, and the backing device has the marks in the reserved entries of the FAT. -/
structure FAT32fs.Bootable (fs : FAT32fs) : Prop where
  valid : isValidFat32BPB fs.bpb = some true
  fsInfo : 0 < fs.bpb.fsInfo.toNat ∧ fs.bpb.fsInfo.toNat < fs.bpb.resvdSecCnt.toNat
  boot : BPB.ofSector (fs.device.stored 0) = fs.bpb ∧ BPB.ofSector (fs.device.value 0) = fs.bpb
  signatures : assertFSInfo (fs.device.stored fs.bpb.fsInfo.toNat) = some () ∧
    assertFSInfo (fs.device.value fs.bpb.fsInfo.toNat) = some ()
  reserved : fs.dropped.table 0 ≠ 0 ∧ fs.dropped.table 1 ≠ 0

section mount

variable {fs : FAT32fs} {d d' d'' : Device} {f : File} {l lf : List Nat}

theorem Device.WrittenBack.trans (h : d.WrittenBack d') (h' : d'.WrittenBack d'') : d.WrittenBack d'' := by
  refine ⟨h'.value.trans h.value, h'.secCnt.trans h.secCnt, fun s => ?_⟩
  rcases h'.stored s with heq | heq
  · rw [heq]
    exact h.stored s
  · rw [heq, h.value]
    exact .inr rfl

theorem BPB.WroteBack.writtenBack {bpb : BPB} (h : bpb.WroteBack lf 0 d d') : d.WrittenBack d' := by
  refine ⟨h.value, h.secCnt, fun s => ?_⟩
  by_cases hin : ∃ n < lf.length * bpb.secPerClus.toNat, bpb.chainSector lf n = s
  · obtain ⟨n, hn, rfl⟩ := hin
    exact .inr (h.synced n (Nat.zero_le n) hn)
  · exact .inl (h.kept s fun n _ hn heq => hin ⟨n, hn, heq⟩)

theorem Device.WrittenBack.table_cases (h : fs.device.WrittenBack d) (x : Nat) :
    FAT32fs.table { fs with device := d.dropped } x = fs.dropped.table x ∨
      FAT32fs.table { fs with device := d.dropped } x = fs.table x :=
  (h.stored (getClusPosOnFAT fs.fat.bpb x).fatSecNum).imp (fs.fat.entry_congr ·) (fs.fat.entry_congr ·)

/-- What the backing device has as clients see it stays so. -/
theorem Device.WrittenBack.shares (h : fs.device.WrittenBack d) (hl : fs.Shares fs.dropped l) :
    fs.Shares { fs with device := d.dropped } l := by
  refine ⟨fun x hx => ?_, fun n hn => ?_⟩
  · rcases h.table_cases x with heq | heq
    · exact heq.trans (hl.table x hx)
    · exact heq
  · rcases h.stored (fs.bpb.chainSector l n) with heq | heq
    · exact heq.trans (hl.value n hn)
    · exact heq

theorem FAT32fs.Mounted.writtenBack (hm : fs.Mounted) (h : fs.device.WrittenBack d) :
    FAT32fs.Mounted { fs with device := d } ∧
      ∀ x, fs.bpb.DataClus x → FAT32fs.table { fs with device := d } x = fs.table x :=
  hm.of_data d h.secCnt fun s _ => congrFun h.value s

theorem FAT32fs.Bootable.writtenBack (hb : fs.Bootable) (hm : fs.Mounted) (h : fs.device.WrittenBack d) :
    FAT32fs.Bootable { fs with device := d } := by
  have hmarks := hm.wellFormed.reserved
  refine ⟨hb.valid, hb.fsInfo, ⟨?_, ?_⟩, ⟨?_, ?_⟩, ?_, ?_⟩
  · change BPB.ofSector (d.stored 0) = _
    rcases h.stored 0 with heq | heq <;> rw [heq]
    exacts [hb.boot.1, hb.boot.2]
  · change BPB.ofSector (d.value 0) = _
    rw [h.value]
    exact hb.boot.2
  · change assertFSInfo (d.stored _) = _
    rcases h.stored fs.bpb.fsInfo.toNat with heq | heq <;> rw [heq]
    exacts [hb.signatures.1, hb.signatures.2]
  · change assertFSInfo (d.value _) = _
    rw [h.value]
    exact hb.signatures.2
  · rcases h.table_cases 0 with heq | heq <;> refine ne_of_eq_of_ne heq ?_
    exacts [hb.reserved.1, hmarks.1]
  · rcases h.table_cases 1 with heq | heq <;> refine ne_of_eq_of_ne heq ?_
    exacts [hb.reserved.2, hmarks.2]

/-! ### The mount -/

theorem assertFSInfo_congr {v v' : Nat → UInt8} (h : ∀ i, i < 488 ∨ 496 ≤ i → v' i = v i) :
    assertFSInfo v' = assertFSInfo v := by
  have hread : ∀ off, off + 4 ≤ 488 ∨ 496 ≤ off → read32 v' off = read32 v off := fun off hoff =>
    read32_congr fun i hlo hhi => h i (by omega)
  rw [assertFSInfo, assertFSInfo, hread 0 (by decide), hread 484 (by decide), hread 508 (by decide)]

theorem FAT32fs.Bootable.dropped (hb : fs.Bootable) (hm : fs.Mounted) : fs.dropped.Mounted :=
  have hwf := hm.wellFormed
  ⟨⟨hwf.sound, hwf.startSecNo, hwf.fatSecNum, hwf.cntOfClus, hwf.fits, hb.reserved⟩, hm.bpb⟩

/-- A bootable volume can be mounted without the caches, and it shows what the backing device has of the clusters. -/
theorem FAT32fs.Bootable.remount (hb : fs.Bootable) (hm : fs.Mounted) : ∃ fs',
    FAT32fs.from fs.device.dropped = some fs' ∧ fs'.Mounted ∧ fs'.bpb = fs.bpb ∧
      ∀ l, (∀ x ∈ l, fs.bpb.DataClus x) → fs.dropped.Shares fs' l := by
  have hs := hm.sound
  have hfits := hm.fits
  have hregions := hs.regions
  have hinfo := hb.fsInfo.2
  have hsig := hb.signatures.1
  set d := fs.device.dropped with hd
  set info := fs.bpb.fsInfo.toNat with hinfoSec
  set d' := (d.write info freeCountOffset (le32 0xFFFFFFFF)).write info (freeCountOffset + 4) (le32 0xFFFFFFFF) with hd'
  have hread : ∀ s < fs.bpb.resvdSecCnt.toNat, d.readSector s = some (fs.device.stored s) := fun s hlt =>
    d.readSector_of_lt s (show s < fs.device.secCnt by omega)
  have hvalue : ∀ s, fs.bpb.resvdSecCnt.toNat ≤ s → d'.value s = d.value s := by
    intro s hlow
    funext i
    rw [hd', Device.value_write_of_ne _ _ _ _ (by omega), Device.value_write_of_ne _ _ _ _ (by omega)]
  let fat : FAT := ⟨fs.bpb, fs.bpb.resvdSecCnt.toNat, fs.bpb.fatSz32.toNat, fs.bpb.clusCnt,
    read32 (fs.device.stored info) freeCountOffset, none⟩
  have hstart : fs.fat.startSecNo = fs.bpb.resvdSecCnt.toNat := hm.bpb ▸ hm.wellFormed.startSecNo
  have hnum : fs.fat.fatSecNum = fs.bpb.fatSz32.toNat := hm.bpb ▸ hm.wellFormed.fatSecNum
  have hcnt : fs.fat.cntOfClus = fs.bpb.clusCnt := hm.bpb ▸ hm.wellFormed.cntOfClus
  have hrep : fat.Represents d fs.dropped.table :=
    (hb.dropped hm).represents.of_static hm.bpb.symm hstart.symm hnum.symm hcnt.symm
  have hrep : fat.Represents d' fs.dropped.table := hrep.of_data rfl fun s hlow _ => hvalue s hlow
  refine ⟨⟨fs.bpb, fat, d'⟩, ?_, ⟨hrep.wellFormed, rfl⟩, rfl, fun l hl => ⟨fun x hx => ?_, fun n hn => ?_⟩⟩
  · simp only [FAT32fs.from, hread 0 (by omega), hb.boot.1, hb.valid, Option.bind_eq_bind, Option.bind_some, assert_true,
      ← hinfoSec, hread info hinfo, hsig, FAT.new_eq hs]
    rfl
  · exact hrep.entry x (hl x hx).2
  · have hbound := (BPB.chainSector_bounds hs hl hn).1
    have hdata : fs.bpb.resvdSecCnt.toNat ≤ getFirstDataSector fs.bpb := by
      rw [hs.firstDataSector]
      omega
    exact hvalue _ (hdata.trans hbound)

/-! ### The call -/

/-- With the flag clear the sectors of the file are written back. -/
theorem fat32Fsync_run (hm : fs.Mounted) (hf : f.Placed fs lf) (hlive : f.isDeleted = false) : ∃ d',
    fat32Fsync fs f false = some (.ok, { fs with device := d' }, f.cached lf) ∧
      fs.bpb.WroteBack lf 0 fs.device d' := by
  obtain ⟨d', hrun, hback⟩ := hf.syncSectors hm
  refine ⟨d', ?_, hback⟩
  simp only [fat32Fsync, File.sync, hlive, Bool.false_eq_true, if_false, false_and, Option.bind_eq_bind, Option.bind_some]
  rw [hrun]
  rfl

end mount

/-- Everything that `fsync` leaves out is on the backing device: the links of the file, and the directories on its path, with an entry that has the metadata of the object. -/
def File.Backed (cs : Charset) (fs : FAT32fs) (f : File) (lf : List Nat) (path : List (List UInt8)) : Prop :=
  (∀ x ∈ lf, fs.dropped.table x = fs.table x) ∧ ∃ ls g,
    fs.Leads cs fs.getRootDir path ls g ∧ (∀ l ∈ ls, fs.Shares fs.dropped l) ∧ f.SameMeta g

/-- What `fsync` leaves out has to be on the backing device before the call. The cache may write back more than the call asks for. -/
theorem fat32Fsync_durable (cs : Charset) (fs : FAT32fs) (f : File) (lf : List Nat) (path : List (List UInt8))
    (hm : fs.Mounted) (hboot : fs.Bootable) (hf : f.Placed fs lf)
    (hsize : f.isDir = false → f.fileSz_ ≤ lf.length * bytesPerClus fs.bpb) (hlive : f.isDeleted = false)
    (hbacked : f.Backed cs fs lf path) (fs' : FAT32fs) (f' : File) (hrun : fat32Fsync fs f false = some (.ok, fs', f'))
    (d : Device) (hmore : fs'.device.WrittenBack d) : File.Durable cs { fs' with device := d } f' path := by
  obtain ⟨hlinks, ls, g, hleads, hdirs, hmeta⟩ := hbacked
  obtain ⟨d₀, hrun', hback⟩ := fat32Fsync_run hm hf hlive
  obtain ⟨rfl, rfl⟩ : FAT32fs.mk fs.bpb fs.fat d₀ = fs' ∧ f.cached lf = f' := by
    simpa using hrun'.symm.trans hrun
  have hs := hm.sound
  have hdata := hf.chain.data
  have hall : fs.device.WrittenBack d := hback.writtenBack.trans hmore
  obtain ⟨hm', htable⟩ := hm.writtenBack hall
  obtain ⟨fs₁, hfrom, hm₁, hbpb, hshows⟩ := (hboot.writtenBack hm hall).remount hm'
  have hdirs₁ : ∀ l ∈ ls, fs.Shares fs₁ l := fun l hl =>
    (hall.shares (hdirs l hl)).trans rfl (hshows l (hleads.data l hl))
  -- the sectors of the file are on the backing device since the call
  have hfile : FAT32fs.Shares { fs with device := d } fs₁ lf := by
    have hsynced : FAT32fs.Shares { fs with device := d } { fs with device := d.dropped } lf := by
      refine ⟨fun x hx => ?_, fun n hn => ?_⟩
      · rw [htable x (hdata x hx)]
        rcases hall.table_cases x with heq | heq
        · exact heq.trans (hlinks x hx)
        · exact heq
      · change d.stored _ = d.value _
        have hsec := hback.synced n (Nat.zero_le n) hn
        rw [hall.value]
        rcases hmore.stored (fs.bpb.chainSector lf n) with heq | heq
        · exact heq.trans hsec
        · exact heq.trans (congrFun hback.value _)
    exact hsynced.trans rfl (hshows lf hdata)
  have hleads₁ : fs₁.Leads cs fs₁.getRootDir path ls g := by
    rw [show fs₁.getRootDir = fs.getRootDir by rw [FAT32fs.getRootDir, FAT32fs.getRootDir, hbpb]]
    exact hleads.shares hbpb hs hdirs₁
  have hf' : (f.cached lf).Placed { fs with device := d } lf := hf.cached.of_data htable
  have hg : g.Placed fs₁ lf := hfile.placed hbpb hf' hmeta.fstClus (.inl (hleads.uncached rfl))
  have hmeta' : (f.cached lf).SameMeta g :=
    ⟨hmeta.isDir, hmeta.fstClus, hmeta.fileSz_, hmeta.crtTime, hmeta.accDate, hmeta.wrtTime⟩
  exact ⟨fs₁, hfrom, fun now => ⟨g, hleads₁.lookupPath hm₁ now,
    hmeta'.sameFile hm' hm₁ hbpb hf' hg hfile hsize⟩⟩

/-! A volume with the file `A`, which has two bytes and the cluster 3. -/

def fsyncEntry : ShortDirEntry := { listedEntry 0 with fstClusLow := 3, fileSz := 2 }

/-- The clusters 2 and 3 are chains of their own. -/
def fsyncTable (n : Nat) : Nat := if n < 4 then kFat32EocMark else 0

def fsyncSectors (s i : Nat) : UInt8 :=
  if s < 32 then mountSectors 0xFFFFFFFF s i else if s = 544 then fsyncEntry.bytes.getD i 0 else 0

/-- Nothing is in the cache yet. -/
def fsyncDevice : Device :=
  let d := Device.ofTable mountBpb fsyncTable fsyncSectors
  { d with stored := d.value }

/-- A byte written in place changes the time of the file, and the backing device does not come to know it. -/
theorem not_fat32Fsync_durable : ∃ fs file fs₁ file₁ fs₂ file₂, FAT32fs.from fsyncDevice = some fs ∧
    fs.lookupPath asciiCharset ⟨0, 0⟩ fs.getRootDir [[0x41]] = some (some file) ∧
    file.write fs [0x42] 0 ⟨1, 33⟩ = some (1, fs₁, file₁) ∧
    fat32Fsync fs₁ file₁ false = some (.ok, fs₂, file₂) ∧ ¬ file₂.Durable asciiCharset fs₂ [[0x41]] := by
  have hrun : ((FAT32fs.from fsyncDevice).bind fun fs =>
      (fs.lookupPath asciiCharset ⟨0, 0⟩ fs.getRootDir [[0x41]]).bind fun result => result.bind fun file =>
      (file.write fs [0x42] 0 ⟨1, 33⟩).bind fun written =>
      (fat32Fsync written.2.1 written.2.2 false).bind fun synced =>
      (FAT32fs.from synced.2.1.device.dropped).bind fun fs' =>
      (fs'.lookupPath asciiCharset ⟨0, 0⟩ fs'.getRootDir [[0x41]]).map fun found =>
        (written.1, synced.1, synced.2.2.wrtTime, found.map File.wrtTime)) =
      some (1, .ok, ⟨1, 33⟩, some ⟨0, 0⟩) := by decide +kernel
  obtain ⟨fs, hfs, hrun⟩ := Option.bind_eq_some_iff.mp hrun
  obtain ⟨result, hresult, hrun⟩ := Option.bind_eq_some_iff.mp hrun
  obtain ⟨file, hfile, hrun⟩ := Option.bind_eq_some_iff.mp hrun
  obtain ⟨⟨cnt, fs₁, file₁⟩, hwrite, hrun⟩ := Option.bind_eq_some_iff.mp hrun
  obtain ⟨⟨reply, fs₂, file₂⟩, hsync, hrun⟩ := Option.bind_eq_some_iff.mp hrun
  obtain ⟨fs', hfrom, hrun⟩ := Option.bind_eq_some_iff.mp hrun
  obtain ⟨found, hfound, heq⟩ := Option.map_eq_some_iff.mp hrun
  obtain ⟨rfl, rfl, htime, hold⟩ : cnt = 1 ∧ reply = .ok ∧ file₂.wrtTime = ⟨1, 33⟩ ∧
      found.map File.wrtTime = some ⟨0, 0⟩ := by simpa using heq
  refine ⟨fs, file, fs₁, file₁, fs₂, file₂, hfs, hresult.trans (congrArg some hfile), hwrite, hsync, ?_⟩
  rintro ⟨fs₃, hfrom', hlookup⟩
  obtain rfl := Option.some.inj (hfrom.symm.trans hfrom')
  obtain ⟨g, hg, hsame⟩ := hlookup ⟨0, 0⟩
  obtain rfl := Option.some.inj (hfound.symm.trans hg)
  have hnew := hsame.metadata.wrtTime
  rw [htime, Option.some.inj hold] at hnew
  exact absurd hnew (by decide)

/-- The same volume with a byte written to the file and nothing else to write back. -/
def fsyncFs : FAT32fs :=
  ⟨mountBpb, ⟨mountBpb, 32, 512, 65534, 0xFFFFFFFF, none⟩, fsyncDevice.write 545 0 [0x42]⟩

def fsyncFile : File := .ofEntry 2 0 [0x41] fsyncEntry

theorem fsyncEntry_isShort : isEmptyDirEntry (castShortDirEntryToLong fsyncEntry) = false ∧
    isLongDirEntry (castShortDirEntryToLong fsyncEntry) = false := by decide +kernel

def fsyncGroup : EntryGroup := .ofShort _ fsyncEntry_isShort.1 fsyncEntry_isShort.2

theorem fsyncFs_mounted : fsyncFs.Mounted ∧ (∀ n < 4, fsyncFs.table n = kFat32EocMark) ∧
    ∀ n < 4, fsyncFs.dropped.table n = kFat32EocMark := by
  have hnew : FAT.new mountBpb 0xFFFFFFFF = some fsyncFs.fat := FAT.new_eq mountBpb_sound _
  have hrep := FAT.represents_ofTable mountBpb_sound hnew (T := fsyncTable)
    (fun n => by simp only [fsyncTable]; split <;> decide) (by decide) (by decide) fsyncSectors
  have hentry : ∀ n < 4, fsyncTable n = kFat32EocMark := fun n hn => if_pos hn
  have hlt : ∀ n < 4, n < fsyncFs.fat.bpb.clusCnt + 2 := fun n hn => hn.trans (by decide)
  have hwritten : fsyncFs.fat.Represents fsyncFs.device fsyncTable := hrep.of_data rfl fun s _ hlow =>
    funext fun i => Device.value_write_of_ne _ _ _ _ (Nat.ne_of_lt (Nat.lt_of_lt_of_le hlow (by decide))) i
  have hdropped : fsyncFs.fat.Represents fsyncFs.dropped.device fsyncTable := hrep.of_data rfl fun _ _ _ => rfl
  exact ⟨⟨hwritten.wellFormed, rfl⟩, fun n hn => (hwritten.entry n (hlt n hn)).trans (hentry n hn),
    fun n hn => (hdropped.entry n (hlt n hn)).trans (hentry n hn)⟩

theorem fsyncFs_bootable : fsyncFs.Bootable := by
  have hsec : ∀ s < 32, fsyncDevice.value s = mountSectors 0xFFFFFFFF s := by
    intro s hs
    funext i
    have hlow : ¬ (32 ≤ s ∧ s < getFirstDataSector mountBpb) := fun h => absurd h.1 (Nat.not_le.mpr hs)
    exact (if_neg hlow).trans (if_pos hs)
  have hstored : ∀ s < 32, fsyncFs.device.stored s = mountSectors 0xFFFFFFFF s := hsec
  have hvalue : ∀ s < 32, fsyncFs.device.value s = mountSectors 0xFFFFFFFF s := fun s hs =>
    (funext fun i => fsyncDevice.value_write_of_ne 545 0 [0x42] (by omega) i).trans (hsec s hs)
  obtain ⟨-, -, hdropped⟩ := fsyncFs_mounted
  refine ⟨mountBpb_valid, by decide, ⟨?_, ?_⟩, ⟨?_, ?_⟩, ?_⟩
  · rw [hstored 0 (by decide)]
    exact mountSectors_bpb _
  · rw [hvalue 0 (by decide)]
    exact mountSectors_bpb _
  · rw [hstored _ (show fsyncFs.bpb.fsInfo.toNat < 32 by decide)]
    exact mountSectors_fsInfo _
  · rw [hvalue _ (show fsyncFs.bpb.fsInfo.toNat < 32 by decide)]
    exact mountSectors_fsInfo _
  · rw [hdropped 0 (by decide), hdropped 1 (by decide)]
    decide

theorem fsyncFs_placed {f : File} (hfst : f.fstClus = 2 ∨ f.fstClus = 3) (hcache : f.clusChain_ = none) :
    f.Placed fsyncFs [f.fstClus] := by
  obtain ⟨-, htable, -⟩ := fsyncFs_mounted
  have hdata : mountBpb.DataClus f.fstClus := by
    rcases hfst with h | h <;> rw [h] <;> decide
  refine ⟨.inr ⟨hdata, walk_cons.mpr ⟨rfl, mountBpb_sound.not_endOfClusChain hdata, walk_nil.mpr ?_⟩, ?_⟩, .inl hcache⟩
  · rw [htable _ (by omega)]
    exact eoc_kFat32EocMark
  · exact List.forall_mem_singleton.mpr hdata

private theorem fsyncFs_finds : fsyncFs.getRootDir.Finds asciiCharset fsyncFs [2] [0x41] fsyncFile := by
  have hlayout : GroupLayout (fsyncFs.dirEntries [2]) [.block fsyncGroup]
      (List.replicate 15 (LongDirEntry.ofBytes fun _ => 0)) := by
    refine ⟨by decide +kernel, ?_, ?_⟩
    · simp
    · simpa using isLstEmpty_zero.1
  have hfound : (blocks EntryGroup.entries 0 [.block fsyncGroup]).find? (fun p => p.2.Named [0x41, 0x00] [0x41]) =
      some (0, fsyncGroup) := List.find?_cons_of_pos (by decide +kernel)
  refine ⟨fsyncFs_placed (.inl rfl) rfl, rfl, _, _, [0x41, 0x00], [0x41], 0, fsyncGroup, [0x41], hlayout, by decide,
    by decide, hfound, .inl (by decide), by decide +kernel, ?_⟩
  rw [fsyncGroup, EntryGroup.ofShort, castLongDirEntryToShort_castShortDirEntryToLong]
  rfl

private theorem fsyncFs_backed : fsyncFile.Backed asciiCharset fsyncFs [3] [[0x41]] := by
  obtain ⟨-, htable, hdropped⟩ := fsyncFs_mounted
  have hlinks : ∀ x < 4, fsyncFs.dropped.table x = fsyncFs.table x := fun x hx => by rw [htable x hx, hdropped x hx]
  refine ⟨fun x hx => hlinks x ?_, [[2]], fsyncFile, .cons fsyncFs_finds (.nil _), fun l hl => ?_,
    ⟨rfl, rfl, fun _ => rfl, rfl, rfl, rfl⟩⟩
  · rw [List.mem_singleton.mp hx]
    decide
  · obtain rfl := List.mem_singleton.mp hl
    refine ⟨fun x hx => hlinks x ?_, fun n hn => ?_⟩
    · rw [List.mem_singleton.mp hx]
      decide
    · obtain rfl : n = 0 := Nat.lt_one_iff.mp hn
      have hsec : fsyncFs.bpb.chainSector [2] 0 ≠ 545 := by decide +kernel
      generalize fsyncFs.bpb.chainSector [2] 0 = s at hsec
      exact funext fun i => (fsyncDevice.value_write_of_ne 545 0 [0x42] hsec i).symm

theorem fat32Fsync_durable_byte : ∃ fs' f', fat32Fsync fsyncFs fsyncFile false = some (.ok, fs', f') ∧
    f'.Durable asciiCharset fs' [[0x41]] := by
  have hm := fsyncFs_mounted.1
  have hf : fsyncFile.Placed fsyncFs [3] := fsyncFs_placed (.inr rfl) rfl
  obtain ⟨d', hrun, -⟩ := fat32Fsync_run hm hf rfl
  exact ⟨_, _, hrun, fat32Fsync_durable asciiCharset fsyncFs fsyncFile [3] [[0x41]] hm fsyncFs_bootable hf
    (fun _ => by decide) rfl fsyncFs_backed _ _ hrun d' ⟨rfl, rfl, fun _ => .inl rfl⟩⟩

end FuseFat32
