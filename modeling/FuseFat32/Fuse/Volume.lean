import FuseFat32.Fs.Holds
import FuseFat32.Fs.Rework
import FuseFat32.Fuse.Fsync

/-!
# The objects of a volume

All files of a volume and all its directories below the root have their objects in the map or in the entries. As long as names and places stay as they are, the two together have one object for every inode number, and no client can tell which of them it comes from.
-/

namespace FuseFat32

open LinkedTable Layout

/-- Where the objects of a volume are written down: the inode numbers of the files and of the directories below the root, the first clusters of all directories with their chains, and the number of long entries of a group. -/
structure Tree where
  files : Set Nat
  subdirs : Set Nat
  dirs : Set Nat
  chain : Nat → List Nat
  longs : Nat → Nat

def Tree.inos (t : Tree) : Set Nat := t.files ∪ t.subdirs

/-- The number of the short entry of a group. -/
def Tree.last (t : Tree) (k : Nat) : Nat := k % 2 ^ 32 + t.longs k

/-- The groups of all of them. -/
def Tree.shelf (t : Tree) : Shelf := ⟨t.inos, t.chain, t.longs⟩

def Tree.Listed (t : Tree) (fs : FAT32fs) (k : Nat) : Prop :=
  fs.GroupOf (k / 2 ^ 32) (t.chain (k / 2 ^ 32)) (k % 2 ^ 32) (t.longs k)

/-- The files with the objects they have. -/
def Tree.run (t : Tree) (fs : FAT32fs) (σ : Nat → File) : FileRun t.files := ⟨fs, fun k => σ k, ∅⟩

/-- The sectors in front of the FAT let the volume be mounted, and FSInfo has no count. -/
structure FAT32fs.Remountable (fs : FAT32fs) : Prop where
  valid : isValidFat32BPB fs.bpb = some true
  fsInfo : 0 < fs.bpb.fsInfo.toNat ∧ fs.bpb.fsInfo.toNat < fs.bpb.resvdSecCnt.toNat
  boot : BPB.ofSector (fs.device.value 0) = fs.bpb
  signatures : assertFSInfo (fs.device.value fs.bpb.fsInfo.toNat) = some ()
  noCount : read32 (fs.device.value fs.bpb.fsInfo.toNat) freeCountOffset = 0xFFFFFFFF

/-- The object of a file of the volume. -/
structure File.Stands (f : File) (k : Nat) : Prop extends f.Sits k where
  /-- What `dos2UnixTs_2` asserts. -/
  tenths : f.crtTime.tt.toNat ≤ 199

/-- The volume has the tree, and the objects `σ` fit its FAT. Of an entry only the name and the kind have to be right. -/
structure Tree.Volume (cs : Charset) (t : Tree) (fs : FAT32fs) (σ : Nat → File) : Prop where
  boot : fs.Remountable
  files : (t.run fs σ).Consistent t.dirs
  dirs : ∀ c ∈ t.dirs, fs.bpb.ChainOf fs.table c (t.chain c)
  listed : ∀ k ∈ t.inos, k / 2 ^ 32 ∈ t.dirs ∧ t.Listed fs k
  apart : ∀ j ∈ t.inos, ∀ k ∈ t.inos, j / 2 ^ 32 = k / 2 ^ 32 → t.last j = t.last k → j = k
  stands : ∀ k ∈ t.inos, (σ k).Stands k
  made : ∀ k ∈ t.inos, ∃ f, File.fromIno cs fs k = some (some f) ∧ f.name = (σ k).name ∧ f.isDir = (σ k).isDir
  subdirs : ∀ k ∈ t.subdirs, (σ k).isDir = true ∧ (σ k).fstClus ∈ t.dirs

theorem FAT32fs.Remountable.congr {fs fs' : FAT32fs} (h : fs.Remountable) (hbpb : fs'.bpb = fs.bpb)
    (hvalue : ∀ s < fs.bpb.resvdSecCnt.toNat, fs'.device.value s = fs.device.value s) : fs'.Remountable := by
  obtain ⟨hpos, hlt⟩ := h.fsInfo
  refine ⟨hbpb.symm ▸ h.valid, hbpb.symm ▸ h.fsInfo, ?_, ?_, ?_⟩
  · rw [hvalue 0 (by omega), hbpb]
    exact h.boot
  · rw [hbpb, hvalue _ hlt]
    exact h.signatures
  · rw [hbpb, hvalue _ hlt]
    exact h.noCount

/-! ### Clusters and slots of a volume -/

section volume

variable {cs : Charset} {t : Tree} {fs fs' : FAT32fs} {σ : Nat → File} {i j k c c' : Nat} {f g : File} {l : List Nat}
  {d' : Device}

theorem Tree.Volume.sane (h : t.Volume cs fs σ) : fs.Sane ((t.run fs σ).heads t.dirs) := h.files.sane

theorem Tree.Volume.mounted (h : t.Volume cs fs σ) : fs.Mounted := h.files.sane.toMounted

theorem Tree.Volume.owners (h : t.Volume cs fs σ) :
    Owners fs.table Eoc fs.bpb.DataClus ((t.run fs σ).heads t.dirs) := by
  have ho := h.sane.owners
  rwa [h.sane.bpb] at ho

theorem Tree.Volume.chain (h : t.Volume cs fs σ) (hc : c ∈ t.dirs) : fs.bpb.Chain fs.table c (t.chain c) := by
  rcases h.dirs c hc with ⟨rfl, -⟩ | ⟨-, hchain⟩
  · exact absurd (.inl hc) (zero_notMem_heads h.owners)
  · exact hchain

private theorem Tree.Volume.disjoint_dirs (h : t.Volume cs fs σ) (hc : c ∈ t.dirs) (hc' : c' ∈ t.dirs) (hne : c ≠ c') :
    ∀ x ∈ t.chain c, x ∉ t.chain c' :=
  fun _ hx => h.owners.notMem_of_mem (.inl hc) (.inl hc') hne.symm (h.chain hc).walk (h.chain hc').walk hx

private theorem Tree.Volume.disjoint_file (h : t.Volume cs fs σ) (hk : k ∈ t.files) (hc : c ∈ t.dirs)
    (hl : fs.bpb.ChainOf fs.table (σ k).fstClus l) : ∀ x ∈ l, x ∉ t.chain c := by
  intro x hx
  rcases hl with ⟨-, rfl⟩ | ⟨hdata, hchain⟩
  · exact absurd hx List.not_mem_nil
  have hpos : (σ k).fstClus ≠ 0 := fun hzero => not_dataClus_zero _ (hzero ▸ hdata)
  have hlive : (σ k).isDeleted = false := (h.stands k (.inl hk)).live
  have hne : (σ k).fstClus ≠ c := fun heq => h.files.notRest ⟨k, hk⟩ hlive (heq.symm ▸ hc)
  exact h.owners.notMem_of_mem (.inr ⟨hpos, ⟨k, hk⟩, hlive, rfl⟩) (.inl hc) hne.symm hchain.walk (h.chain hc).walk hx

theorem Tree.Volume.inside (h : t.Volume cs fs σ) (hk : k ∈ t.inos) (hj : j ≤ t.longs k) :
    kDirEntrySize * (k % 2 ^ 32 + j) < (t.chain (k / 2 ^ 32)).length * bytesPerClus fs.bpb :=
  have hlisted : t.shelf.Listed fs k := (h.listed k hk).2
  hlisted.inside hj

theorem Tree.Volume.slot_ne (h : t.Volume cs fs σ) (hj : j ∈ t.inos) (hk : k ∈ t.inos) (hi : i ≤ t.longs j)
    (hne : j = k → i ≠ t.longs k) : t.shelf.slot fs.bpb j i ≠ t.shelf.shortSlot fs.bpb k := by
  have hs := h.mounted.sound
  obtain ⟨hjdir, hjl⟩ := h.listed j hj
  obtain ⟨hkdir, hkl⟩ := h.listed k hk
  have hjin := h.inside hj hi
  have hkin := h.inside hk le_rfl
  by_cases hdir : j / 2 ^ 32 = k / 2 ^ 32
  · intro heq
    rw [Shelf.shortSlot, Shelf.slot, Shelf.slot, Tree.shelf, hdir] at heq
    have hchain := (h.dirs _ hkdir).nodup
    rw [hdir] at hjin
    have hnum := BPB.slot_inj hs (h.chain hkdir).data hchain hjin hkin heq
    by_cases hlast : i = t.longs j
    · exact hne (h.apart j hj k hk hdir (by rw [Tree.last, Tree.last, ← hlast, hnum])) (by
        rw [hlast, h.apart j hj k hk hdir (by rw [Tree.last, Tree.last, ← hlast, hnum])])
    · -- one group has a long entry there and the other one its short entry
      have hlong := hjl.live.long i (by omega)
      rw [FAT32fs.entryAt, hdir, hnum] at hlong
      exact absurd hlong (by rw [Bool.not_eq_true]; exact hkl.live.short)
  · refine fun heq => BPB.chainSector_disjoint hs (h.chain hjdir).data (h.chain hkdir).data
      (h.disjoint_dirs hjdir hkdir hdir) (hs.sector_lt_of_pos hjin) (hs.sector_lt_of_pos hkin) (congrArg Prod.fst heq)

theorem Tree.Volume.placed (h : t.Volume cs fs σ) (hk : k ∈ t.inos) : ∃ l, (σ k).Placed fs l := by
  rcases hk with hk | hk
  · obtain ⟨l, hl, -⟩ := h.files.chain ⟨k, hk⟩ (h.stands k (.inl hk)).live
    exact ⟨l, hl⟩
  · exact ⟨_, h.dirs _ (h.subdirs k hk).2, .inl (h.stands k (.inr hk)).uncached⟩

theorem Tree.Volume.shelf (h : t.Volume cs fs σ) : t.shelf.Keeps cs fs σ :=
  ⟨h.mounted, fun k hk => (h.listed k hk).2, fun _ hj _ hk _ hi hne => h.slot_ne hj hk hi hne,
    fun k hk => (h.stands k hk).toSits, h.made, fun _ hk => h.placed hk⟩

theorem Tree.Listed.fromIno_congr (hl : t.Listed fs k) (hl' : t.Listed fs' k) (hm : fs.Mounted) (hm' : fs'.Mounted)
    (hent : ∀ j ≤ t.longs k, fs'.entryAt (t.chain (k / 2 ^ 32)) (k % 2 ^ 32 + j) =
      fs.entryAt (t.chain (k / 2 ^ 32)) (k % 2 ^ 32 + j)) :
    File.fromIno cs fs' k = File.fromIno cs fs k :=
  have hlisted : t.shelf.Listed fs k := hl
  hlisted.fromIno_congr hl' hm hm' hent

/-- A volume stays one when an object writes its metadata to its entry. -/
theorem Tree.Volume.set (h : t.Volume cs fs σ) (hk : k ∈ t.inos) {e : ShortDirEntry}
    (hset : fs.device.EntrySet (t.shelf.shortSlot fs.bpb k) (castShortDirEntryToLong e) d')
    (hname : (castLongDirEntryToShort (fs.device.entry (t.shelf.shortSlot fs.bpb k))).SameName e)
    (hself : ∃ f, File.fromIno cs { fs with device := d' } k = some (some f) ∧ f.name = (σ k).name ∧
      f.isDir = (σ k).isDir) : t.Volume cs { fs with device := d' } σ := by
  have hkeeps := h.shelf.set hk hset hname hself
  have honly := h.shelf.onlyData hk hset
  obtain ⟨-, htable⟩ := h.shelf.table hk hset
  have hfirst := h.mounted.sound.firstDataSector
  refine ⟨h.boot.congr rfl fun s hs => honly.value s (by omega), ?_, fun c hc => ?_,
    fun j hj => ⟨(h.listed j hj).1, hkeeps.listed j hj⟩, h.apart, h.stands, hkeeps.made, h.subdirs⟩
  · exact h.files.permuted honly (Equiv.refl _) (fun _ => rfl) (fun _ => ⟨rfl, rfl, rfl, rfl⟩) (fun _ => ⟨rfl, rfl⟩)
      fun _ _ _ hf => hf.cache
  · exact (h.dirs c hc).congr fun x hx => htable x ((h.dirs c hc).data x hx)

end volume

/-! ### The map and the entries -/

/-- The directories have the same entries on both volumes, but for metadata. -/
def Tree.Tidy (t : Tree) (fs fs' : FAT32fs) : Prop :=
  ∀ c ∈ t.dirs, ∀ n < fs.bpb.dirSlots (t.chain c), (fs.entryAt (t.chain c) n).Kept (fs'.entryAt (t.chain c) n)

/-- The directories have the same entries, and the files the same chains and the same bytes on both volumes. -/
def Tree.Alike (t : Tree) (σ : Nat → File) (fs fs' : FAT32fs) : Prop :=
  fs'.bpb = fs.bpb ∧ t.Tidy fs fs' ∧ ∀ k ∈ t.files, ∀ l, fs.bpb.ChainOf fs.table (σ k).fstClus l →
    fs.bpb.ChainOf fs'.table (σ k).fstClus l ∧ ∀ p < l.length * bytesPerClus fs.bpb, fs'.content l p = fs.content l p

/-- What the entries of a volume and the objects in memory say of the objects `σ`. -/
def Tree.reading (cs : Charset) (t : Tree) : WriteBack.Reading FAT32fs Nat File File where
  good := t.Volume cs
  has fs ino f := File.fromIno cs fs ino = some (some f)
  shows fs _ f g := f.MayCache fs g
  alike := t.Alike

section reading

variable {cs : Charset} {t : Tree} {fs fs' fs'' : FAT32fs} {σ : Nat → File} {k : Nat} {f g : File} {d' : Device}

theorem Tree.Tidy.of_eq (h : ∀ c ∈ t.dirs, ∀ n < fs.bpb.dirSlots (t.chain c),
    fs'.entryAt (t.chain c) n = fs.entryAt (t.chain c) n) : t.Tidy fs fs' := fun c hc n hn => .inl (h c hc n hn)

theorem Tree.Tidy.trans (h : t.Tidy fs fs') (hbpb : fs'.bpb = fs.bpb) (h' : t.Tidy fs' fs'') : t.Tidy fs fs'' :=
  fun c hc n hn => (h c hc n hn).trans (h' c hc n (hbpb.symm ▸ hn))

theorem Tree.Alike.refl (t : Tree) (σ : Nat → File) (fs : FAT32fs) : t.Alike σ fs fs :=
  ⟨rfl, .of_eq fun _ _ _ _ => rfl, fun _ _ _ hl => ⟨hl, fun _ _ => rfl⟩⟩

theorem Tree.Alike.trans (h : t.Alike σ fs fs') (h' : t.Alike σ fs' fs'') : t.Alike σ fs fs'' := by
  obtain ⟨hbpb, htidy, hsame⟩ := h
  obtain ⟨hbpb', htidy', hsame'⟩ := h'
  rw [hbpb] at hsame'
  refine ⟨hbpb'.trans hbpb, htidy.trans hbpb htidy', fun k hk l hl => ?_⟩
  obtain ⟨hl', hbytes⟩ := hsame k hk l hl
  obtain ⟨hl'', hbytes'⟩ := hsame' k hk l hl'
  exact ⟨hl'', fun p hp => (hbytes' p hp).trans (hbytes p hp)⟩

theorem BPB.Sound.slot_inside {bpb : BPB} (hs : bpb.Sound) {l : List Nat} {n : Nat} (hn : n < bpb.dirSlots l) :
    kDirEntrySize * n < l.length * bytesPerClus bpb :=
  calc kDirEntrySize * n < kDirEntrySize * bpb.dirSlots l := Nat.mul_lt_mul_of_pos_left hn (by decide)
    _ = u32 (l.length * bytesPerClus bpb) := hs.dirSlots_mul l
    _ ≤ l.length * bytesPerClus bpb := Nat.mod_le _ _

theorem Tree.Volume.alike_of_set (h : t.Volume cs fs σ) (hk : k ∈ t.inos) {e : ShortDirEntry}
    (hset : fs.device.EntrySet (t.shelf.shortSlot fs.bpb k) (castShortDirEntryToLong e) d')
    (hname : (castLongDirEntryToShort (fs.device.entry (t.shelf.shortSlot fs.bpb k))).SameName e) :
    t.Alike σ fs { fs with device := d' } := by
  have hs := h.mounted.sound
  obtain ⟨-, htable⟩ := h.shelf.table hk hset
  have hdir := (h.listed k hk).1
  refine ⟨rfl, fun c _ n _ => (h.shelf.retouched hk hset hname).entry _ (BPB.slot_aligned ..), fun j hj l hl =>
    ⟨hl.congr fun x hx => htable x (hl.data x hx), fun p hp => ?_⟩⟩
  refine congrFun (hset.value_of_ne ?_) _
  exact BPB.chainSector_disjoint hs hl.data (h.chain hdir).data (h.disjoint_file hj hdir hl)
    (hs.sector_lt_of_pos hp) (hs.sector_lt_of_pos (h.inside hk le_rfl))

/-- The map of files is a cache of what the entries have. -/
theorem Tree.lawful (cs : Charset) (t : Tree) : WriteBack.Lawful (File.backing cs) (t.reading cs) t.inos where
  refl := Tree.Alike.refl t
  trans := Tree.Alike.trans
  load := by
    intro fs σ k h hk hhas
    have hload : File.fromIno cs fs k = some (some (σ k)) := hhas
    exact ⟨σ k, congrArg Option.join hload, ⟨_, rfl⟩, Tree.Volume.placed h hk⟩
  save := by
    intro fs σ k g h hk hshows
    have h : t.Volume cs fs σ := h
    have hcache : (σ k).MayCache fs g := hshows
    obtain ⟨d', f', e, hrun, hset, hname, hself⟩ := h.shelf.destructor hk hcache
    obtain ⟨-, htable⟩ := h.shelf.table hk hset
    refine ⟨_, congrArg (Option.map Prod.fst) hrun, h.set hk hset hname ⟨_, hself, rfl, rfl⟩, hself, ⟨fun j hj hne hhas => ?_,
      fun j _ _ a ha => ha.of_table htable⟩, h.alike_of_set hk hset hname⟩
    exact (h.shelf.fromIno_of_set hk hset hname hj hne).trans hhas

end reading

/-! ### Work on a file -/

section work

variable {cs : Charset} {t : Tree} {fs fs' : FAT32fs} {σ : Nat → File} {j k : Nat} {f f' g : File} {l l' l₂ : List Nat}

private theorem Tree.run_update (t : Tree) (fs : FAT32fs) (σ : Nat → File) (k : t.files) (f : File) :
    t.run fs (Function.update σ k f) = ⟨fs, Function.update (fun j : t.files => σ j) k f, ∅⟩ := by
  refine congrArg (FileRun.mk fs · ∅) (funext fun j => ?_)
  by_cases hjk : j = k
  · rw [hjk, Function.update_self, Function.update_self]
  · rw [Function.update_of_ne hjk, Function.update_of_ne fun heq => hjk (Subtype.ext heq)]

theorem Tree.Volume.file (h : t.Volume cs fs σ) (hk : k ∈ t.files) : (σ k).isDir = false := h.files.file ⟨k, hk⟩

theorem Tree.Volume.live (h : t.Volume cs fs σ) (hk : k ∈ t.inos) : (σ k).isDeleted = false := (h.stands k hk).live

theorem Tree.Volume.head (h : t.Volume cs fs σ) (hk : k ∈ t.inos) :
    (σ k).fstClus = 0 ∨ (σ k).fstClus ∈ (t.run fs σ).heads t.dirs := by
  rcases hk with hk | hk
  · exact FileRun.Consistent.mem_heads (s := t.run fs σ) t.dirs (i := ⟨k, hk⟩) (h.live (.inl hk))
  · exact .inr (.inl (h.subdirs k hk).2)

theorem Tree.Volume.head_ne (h : t.Volume cs fs σ) (hk : k ∈ t.files) (hj : j ∈ t.inos) (hne : j ≠ k)
    (hpos : (σ j).fstClus ≠ 0) : (σ j).fstClus ≠ (σ k).fstClus := by
  have hlive := h.live (.inl hk)
  rcases hj with hj | hj
  · exact fun heq => hpos (h.files.apart ⟨j, hj⟩ ⟨k, hk⟩ (h.live (.inl hj)) hlive
      (fun hsame => hne (congrArg Subtype.val hsame)) heq)
  · exact fun heq => h.files.notRest ⟨k, hk⟩ hlive (heq ▸ (h.subdirs j hj).2)

/-- What a call on the object `f` of the file `k` has made of it and of the volume. -/
structure Tree.Works (t : Tree) (fs : FAT32fs) (σ : Nat → File) (k : Nat) (f : File) (l : List Nat) (fs' : FAT32fs)
    (f' : File) (l' : List Nat) : Prop extends
    File.Reworked fs ((t.run fs σ).heads t.dirs) f l fs' f' l' where
  object : ∃ c, f = { σ k with clusChain_ := c }
  start : f.Placed fs l
  size : f'.fileSz_ < 2 ^ 32
  tenths : f'.crtTime.tt.toNat ≤ 199

theorem Tree.Works.fstClus_eq (hw : t.Works fs σ k f l fs' f' l') : f.fstClus = (σ k).fstClus := by
  obtain ⟨c, rfl⟩ := hw.object
  rfl

/-- The object without its cache. -/
def File.uncached (f : File) : File := { f with clusChain_ := none }

/-- Chains that other objects have keep their links and their bytes. -/
theorem Tree.Works.kept (h : t.Volume cs fs σ) (hw : t.Works fs σ k f l fs' f' l') (hk : k ∈ t.files) (hj : j ∈ t.inos)
    (hne : j ≠ k) (hl : fs.bpb.ChainOf fs.table (σ j).fstClus l₂) : ∀ x ∈ l₂, fs'.table x = fs.table x ∧
      ∀ i < fs.bpb.secPerClus.toNat, fs'.device.value (getFirstSectorOfCluster fs.bpb x + i) =
        fs.device.value (getFirstSectorOfCluster fs.bpb x + i) := by
  rcases hl with ⟨-, rfl⟩ | ⟨hdata, hc⟩
  · exact fun x hx => absurd hx List.not_mem_nil
  have hpos : (σ j).fstClus ≠ 0 := fun hzero => not_dataClus_zero _ (hzero ▸ hdata)
  have hmem := (h.head hj).resolve_left hpos
  have hother : (σ j).fstClus ≠ f.fstClus := hw.fstClus_eq ▸ h.head_ne hk hj hne hpos
  exact fun x hx => ⟨hw.others _ hmem hother l₂ hc.walk x hx, hw.bytes _ hmem hother l₂ hc.walk x hx⟩

theorem Tree.Works.kept_dir (h : t.Volume cs fs σ) (hw : t.Works fs σ k f l fs' f' l') (hk : k ∈ t.files) {c : Nat}
    (hc : c ∈ t.dirs) : ∀ x ∈ t.chain c, fs'.table x = fs.table x ∧
      ∀ i < fs.bpb.secPerClus.toNat, fs'.device.value (getFirstSectorOfCluster fs.bpb x + i) =
        fs.device.value (getFirstSectorOfCluster fs.bpb x + i) := by
  have hother : c ≠ f.fstClus := fun heq =>
    h.files.notRest ⟨k, hk⟩ (h.live (.inl hk)) (by rw [heq, hw.fstClus_eq] at hc; exact hc)
  have hchain := (h.chain hc).walk
  exact fun x hx => ⟨hw.others c (.inl hc) hother _ hchain x hx, hw.bytes c (.inl hc) hother _ hchain x hx⟩

theorem Tree.Works.entryAt_dir (h : t.Volume cs fs σ) (hw : t.Works fs σ k f l fs' f' l') (hk : k ∈ t.files) {c n : Nat}
    (hc : c ∈ t.dirs) (hn : kDirEntrySize * n < (t.chain c).length * bytesPerClus fs.bpb) :
    fs'.entryAt (t.chain c) n = fs.entryAt (t.chain c) n := by
  have hs := h.mounted.sound
  rw [hs.bytesPerClus_eq_slots, Nat.mul_left_comm] at hn
  have hin := Nat.lt_of_mul_lt_mul_left hn
  obtain ⟨hlt, -⟩ := hs.slot_eq hin
  refine FAT32fs.entryAt_congr hs hw.bpb hin hin rfl ?_
  rw [List.getD_eq_getElem _ _ hlt]
  exact (hw.kept_dir h hk hc _ (List.getElem_mem hlt)).2

theorem Tree.Works.entryAt_eq (h : t.Volume cs fs σ) (hw : t.Works fs σ k f l fs' f' l') (hk : k ∈ t.files)
    (hj : j ∈ t.inos) {i : Nat} (hi : i ≤ t.longs j) :
    fs'.entryAt (t.chain (j / 2 ^ 32)) (j % 2 ^ 32 + i) = fs.entryAt (t.chain (j / 2 ^ 32)) (j % 2 ^ 32 + i) :=
  hw.entryAt_dir h hk (h.listed j hj).1 (h.inside hj hi)

theorem Tree.Works.listed (h : t.Volume cs fs σ) (hw : t.Works fs σ k f l fs' f' l') (hk : k ∈ t.files)
    (hj : j ∈ t.inos) : t.Listed fs' j := by
  obtain ⟨hdir, hl⟩ := h.listed j hj
  exact hl.congr hw.bpb (hl.chain.congr fun x hx => (hw.kept_dir h hk hdir x hx).1) fun i hi => hw.entryAt_eq h hk hj hi

theorem Tree.Works.fromIno_eq (h : t.Volume cs fs σ) (hw : t.Works fs σ k f l fs' f' l') (hk : k ∈ t.files)
    (hj : j ∈ t.inos) : File.fromIno cs fs' j = File.fromIno cs fs j :=
  (h.listed j hj).2.fromIno_congr (hw.listed h hk hj) h.mounted hw.sane.toMounted fun _ hi => hw.entryAt_eq h hk hj hi

theorem Tree.Works.undisturbed (h : t.Volume cs fs σ) (hw : t.Works fs σ k f l fs' f' l') (hk : k ∈ t.files) :
    WriteBack.Undisturbed (t.reading cs) t.inos σ k fs fs' := by
  refine ⟨fun j hj _ hhas => (hw.fromIno_eq h hk hj).trans hhas, fun j hj hne a ha => ?_⟩
  obtain ⟨⟨c, rfl⟩, l₂, hl⟩ := ha
  refine ⟨⟨c, rfl⟩, l₂, ?_, hl.cache⟩
  rw [hw.bpb]
  exact hl.chain.congr fun x hx => (hw.kept h hk hj hne hl.chain x hx).1

theorem Tree.Works.mayCache (hw : t.Works fs σ k f l fs' f' l') : f'.uncached.MayCache fs' f' :=
  ⟨⟨f'.clusChain_, rfl⟩, l', hw.placed⟩

/-- The volume has the object as the call has left it, and the other objects as they were. -/
theorem Tree.Works.volume (h : t.Volume cs fs σ) (hw : t.Works fs σ k f l fs' f' l') (hk : k ∈ t.files) :
    t.Volume cs fs' (Function.update σ k f'.uncached) := by
  have hs := h.mounted.sound
  have hlive := h.live (.inl hk)
  have hfits : f'.fstClus < 2 ^ 32 := by
    rcases hw.placed.chain with ⟨hzero, -⟩ | ⟨hdata, -⟩
    · omega
    · exact (hw.sane.sound.dataClus_lt hdata).trans (by decide)
  obtain ⟨c, rfl⟩ := hw.object
  obtain ⟨hparent, hentry, hdir, hdel⟩ := hw.same
  have hrun : (t.run fs' (Function.update σ k f'.uncached)).Consistent t.dirs := by
    rw [t.run_update fs' σ ⟨k, hk⟩]
    have hstart : (σ k).Placed fs l := ⟨hw.start.chain, .inl (h.stands k (.inl hk)).uncached⟩
    refine FileRun.Consistent.resettled (i := (⟨k, hk⟩ : t.files)) h.files hlive hstart
      (?_ : File.Resettled _ _ _ _ _ _ l')
    exact ⟨hw.sane, hw.bpb, hw.hint, hw.secCnt, hw.same, ⟨hw.placed.chain, .inl rfl⟩, hw.length, hw.fst, hw.others,
      hw.accounted⟩
  have hstands := h.stands k (.inl hk)
  refine ⟨h.boot.congr hw.bpb hw.reserved, hrun, fun c hc => ?_, fun j hj => ⟨(h.listed j hj).1, hw.listed h hk hj⟩,
    h.apart, (Function.forall_update_iff σ fun j f => j ∈ t.inos → f.Stands j).mpr ⟨fun _ => ?_, fun j _ => h.stands j⟩,
    fun j hj => ?_, fun j hj => ?_⟩
  · rw [hw.bpb]
    exact (h.dirs c hc).congr fun x hx => (hw.kept_dir h hk hc x hx).1
  · exact ⟨⟨hparent.trans hstands.parent, hentry.trans hstands.entry, hdel.trans hlive, rfl, hfits, hw.size⟩, hw.tenths⟩
  · obtain ⟨f₀, hmade, hname, hkind⟩ := h.made j hj
    refine ⟨f₀, (hw.fromIno_eq h hk hj).trans hmade, ?_⟩
    by_cases hjk : j = k
    · subst hjk
      rw [Function.update_self]
      exact ⟨hname.trans hw.named.symm, hkind.trans hdir.symm⟩
    · rw [Function.update_of_ne hjk]
      exact ⟨hname, hkind⟩
  · have hjk : j ≠ k := fun heq => absurd (h.subdirs j hj).1 (by rw [heq, h.file hk]; decide)
    rw [Function.update_of_ne hjk]
    exact h.subdirs j hj

/-- Other times and another cache make no difference to the volume. -/
theorem Tree.Volume.retimed (h : t.Volume cs fs σ) (hk : k ∈ t.inos) (hf : ∃ c, f = { σ k with clusChain_ := c })
    (heq : f.Retimed f') (htenths : f'.crtTime.tt.toNat ≤ 199) : t.Volume cs fs (Function.update σ k f'.uncached) := by
  obtain ⟨c, rfl⟩ := hf
  have hstands := h.stands k hk
  have hsame : ∀ j, (σ j).Retimed (Function.update σ k f'.uncached j) := by
    refine (Function.forall_update_iff σ fun j f => (σ j).Retimed f).mpr ⟨?_, fun _ _ => rfl⟩
    rw [heq]
    rfl
  refine ⟨h.boot, ?_, h.dirs, h.listed, h.apart, fun j hj => ?_, fun j hj => ?_, fun j hj => ?_⟩
  · refine h.files.permuted (.refl _ _) (Equiv.refl _) (fun _ => rfl)
      (fun j => ⟨(hsame j).place.1, (hsame j).place.2, (hsame j).kind.1, (hsame j).kind.2⟩) (fun j => (hsame j).data)
      fun j _ _ _ => .inl ?_
    exact (Function.forall_update_iff σ fun j f => j ∈ t.inos → f.clusChain_ = none).mpr
      ⟨fun _ => rfl, fun j _ hj => (h.stands j hj).uncached⟩ j (.inl j.2)
  · refine (Function.forall_update_iff σ fun j f => j ∈ t.inos → f.Stands j).mpr
      ⟨fun _ => ?_, fun j _ => h.stands j⟩ j hj
    rw [heq]
    exact ⟨⟨hstands.parent, hstands.entry, hstands.live, rfl, hstands.clus, hstands.size⟩, htenths⟩
  · rw [(hsame j).named, (hsame j).kind.1]
    exact h.made j hj
  · rw [(hsame j).kind.1, (hsame j).data.1]
    exact h.subdirs j hj

end work

/-! ### Other volumes with the same data -/

section transport

variable {cs : Charset} {t : Tree} {fs fs' : FAT32fs} {σ : Nat → File} {k : Nat}

/-- Another volume with the same links and the same bytes in the chains has the same objects. -/
theorem Tree.Volume.transport (h : t.Volume cs fs σ) (hm' : fs'.Mounted) (hbpb : fs'.bpb = fs.bpb)
    (hshares : ∀ head ∈ (t.run fs σ).heads t.dirs, ∀ l, Walk fs.table Eoc head l → fs.Shares fs' l) (hhint : fs'.fat.freeCount = 0xFFFFFFFF)
    (hcnt : fs'.device.secCnt = fs.device.secCnt) (hboot : fs'.Remountable) :
    t.Volume cs fs' σ ∧ t.Alike σ fs fs' ∧ ∀ k ∈ t.inos, File.fromIno cs fs' k = File.fromIno cs fs k := by
  have hs := h.mounted.sound
  have hsame : ∀ {head l}, head = 0 ∨ head ∈ (t.run fs σ).heads t.dirs → fs.bpb.ChainOf fs.table head l → fs.Shares fs' l := by
    rintro head l hhead (⟨-, rfl⟩ | ⟨hdata, hc⟩)
    · exact ⟨fun x hx => absurd hx List.not_mem_nil, fun n hn => absurd hn (by simp)⟩
    · exact hshares head (hhead.resolve_left fun hzero => not_dataClus_zero _ (hzero ▸ hdata)) l hc.walk
  have hchain : ∀ {head l}, head = 0 ∨ head ∈ (t.run fs σ).heads t.dirs → fs.bpb.ChainOf fs.table head l →
      fs.bpb.ChainOf fs'.table head l := fun hhead hl => hl.congr (hsame hhead hl).table
  have hdir : ∀ c ∈ t.dirs, ∀ n, kDirEntrySize * n < (t.chain c).length * bytesPerClus fs.bpb →
      fs'.entryAt (t.chain c) n = fs.entryAt (t.chain c) n := by
    intro c hc n hn
    rw [FAT32fs.entryAt, FAT32fs.entryAt, hbpb]
    exact Device.entry_congr ((hsame (.inr (.inl hc)) (h.dirs c hc)).value _ (hs.sector_lt_of_pos hn))
  have hent : ∀ k ∈ t.inos, ∀ i ≤ t.longs k, fs'.entryAt (t.chain (k / 2 ^ 32)) (k % 2 ^ 32 + i) =
      fs.entryAt (t.chain (k / 2 ^ 32)) (k % 2 ^ 32 + i) := fun k hk i hi => hdir _ (h.listed k hk).1 _ (h.inside hk hi)
  have hlisted : ∀ k ∈ t.inos, t.Listed fs' k := fun k hk =>
    (h.listed k hk).2.congr hbpb (hchain (.inr (.inl (h.listed k hk).1)) (h.listed k hk).2.chain) (hent k hk)
  have hmade : ∀ k ∈ t.inos, File.fromIno cs fs' k = File.fromIno cs fs k := fun k hk =>
    (h.listed k hk).2.fromIno_congr (hlisted k hk) h.mounted hm' (hent k hk)
  have howners : Owners fs'.table Eoc fs'.fat.bpb.DataClus ((t.run fs' σ).heads t.dirs) := by
    rw [hm'.bpb, hbpb]
    exact h.owners.frame fun head hhead l hw => (hshares head hhead l hw).table
  refine ⟨⟨hboot, ⟨⟨hm', howners⟩, hhint, ?_, h.files.file, h.files.parent, ?_, fun i hi => ?_, h.files.apart,
    h.files.notRest, fun x hx => absurd hx (Set.notMem_empty x)⟩, fun c hc => hbpb.symm ▸ hchain (.inr (.inl hc)) (h.dirs c hc),
    fun k hk => ⟨(h.listed k hk).1, hlisted k hk⟩, h.apart, h.stands, fun k hk => ?_, h.subdirs⟩,
    ⟨hbpb, .of_eq fun c hc n hn => hdir c hc n (hs.slot_inside hn),
      fun k hk l hl => ⟨hchain (h.head (.inl hk)) hl, fun p hp => ?_⟩⟩, hmade⟩
  · exact (congrArg (· < 2 ^ 32) hcnt).mpr h.files.secCnt
  · intro i
    have hreach := h.files.reach i
    rw [File.EntryReach] at hreach ⊢
    exact (congrArg (fun b => getFirstSectorOfCluster b _ + _ < 2 ^ 32) hbpb).mpr hreach
  · obtain ⟨l, hl, hlen⟩ := h.files.chain i hi
    exact ⟨l, ⟨hbpb.symm ▸ hchain (h.head (.inl i.2)) hl.chain, hl.cache⟩, hbpb.symm ▸ hlen⟩
  · rw [hmade k hk]
    exact h.made k hk
  · rw [FAT32fs.content, FAT32fs.content, hbpb]
    exact congrFun ((hsame (h.head (.inl hk)) hl).value _ (hs.sector_lt_of_pos hp)) _

/-- What the backing device has makes no difference. -/
theorem Tree.Volume.of_value (h : t.Volume cs fs σ) {d : Device} (hcnt : d.secCnt = fs.device.secCnt)
    (hvalue : d.value = fs.device.value) : t.Volume cs { fs with device := d } σ ∧ t.Alike σ fs { fs with device := d } ∧
      ∀ k ∈ t.inos, File.fromIno cs { fs with device := d } k = File.fromIno cs fs k := by
  obtain ⟨hm', htable⟩ := h.mounted.of_data d hcnt fun s _ => congrFun hvalue s
  exact h.transport hm' rfl (fun head hhead l hw => ⟨fun x hx => htable x (h.owners.good_of_mem hhead hw hx),
    fun n _ => congrFun hvalue _⟩) h.files.hint hcnt (h.boot.congr rfl fun s _ => congrFun hvalue s)

end transport

end FuseFat32
