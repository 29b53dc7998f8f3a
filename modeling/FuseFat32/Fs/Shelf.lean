import FuseFat32.Fs.Kept
import FuseFat32.Fs.Objects
import FuseFat32.Library.WriteBack

/-!
# Objects and the entries they are written to

The object of a file comes from the map, which knows what the file is, or from `fromIno`, which goes by the entries. An object that leaves the map writes itself to its entries first. As long as every object has a group of its own where its walks keep to the group, the map and the entries together have one object for every inode number, and which of the two has it cannot be told from outside.
-/

namespace FuseFat32

open LinkedTable

/-- Where some objects are written down: their inode numbers, the chains of directories by their first clusters, and the numbers of long entries of the groups. -/
structure Shelf where
  keys : Set Nat
  chain : Nat → List Nat
  longs : Nat → Nat

/-- The slot of an entry of the group. -/
def Shelf.slot (sh : Shelf) (bpb : BPB) (k j : Nat) : Nat × Nat := bpb.slot (sh.chain (k / 2 ^ 32)) (k % 2 ^ 32 + j)

/-- The slot of its short entry. -/
def Shelf.shortSlot (sh : Shelf) (bpb : BPB) (k : Nat) : Nat × Nat := sh.slot bpb k (sh.longs k)

def Shelf.Listed (sh : Shelf) (fs : FAT32fs) (k : Nat) : Prop :=
  fs.GroupOf (k / 2 ^ 32) (sh.chain (k / 2 ^ 32)) (k % 2 ^ 32) (sh.longs k)

/-- The object that a group with the inode number `k` may have. -/
structure File.Sits (f : File) (k : Nat) : Prop where
  parent : f.parentClus = k / 2 ^ 32
  entry : f.fstEntryNum = k % 2 ^ 32
  live : f.isDeleted = false
  uncached : f.clusChain_ = none
  clus : f.fstClus < 2 ^ 32
  size : f.fileSz_ < 2 ^ 32

/-- The volume has the groups, and the objects `σ` belong to them. Of an entry only the name and the kind have to be right. -/
structure Shelf.Keeps (cs : Charset) (sh : Shelf) (fs : FAT32fs) (σ : Nat → File) : Prop where
  mounted : fs.Mounted
  listed : ∀ k ∈ sh.keys, sh.Listed fs k
  /-- No entry of a group is the short entry of another one. -/
  apart : ∀ j ∈ sh.keys, ∀ k ∈ sh.keys, ∀ i ≤ sh.longs j, (j = k → i ≠ sh.longs k) →
    sh.slot fs.bpb j i ≠ sh.shortSlot fs.bpb k
  sits : ∀ k ∈ sh.keys, (σ k).Sits k
  made : ∀ k ∈ sh.keys, ∃ f, File.fromIno cs fs k = some (some f) ∧ f.name = (σ k).name ∧ f.isDir = (σ k).isDir
  placed : ∀ k ∈ sh.keys, ∃ l, (σ k).Placed fs l

/-- The object is `f`, and it may have cached the chain it has on the volume. -/
def File.MayCache (fs : FAT32fs) (f g : File) : Prop := (∃ c, g = { f with clusChain_ := c }) ∧ ∃ l, g.Placed fs l

/-- Objects have written themselves back: the FAT is the same, and no entry has another name. -/
structure FAT32fs.Retouched (fs fs' : FAT32fs) : Prop where
  bpb : fs'.bpb = fs.bpb
  fat : fs'.fat = fs.fat
  onlyData : fs.bpb.OnlyData fs.device fs'.device
  entry : ∀ x : Nat × Nat, x.2 % kDirEntrySize = 0 → (fs.device.entry x).Kept (fs'.device.entry x)

/-- Objects are made by `fromIno`, and their destructor writes them back. -/
def File.backing (cs : Charset) : WriteBack.Backing FAT32fs Nat File where
  load fs ino := (File.fromIno cs fs ino).join
  save fs f := (f.destructor fs).map Prod.fst

/-- What the entries of a volume and the objects in memory say of the objects `σ`. -/
def Shelf.reading (cs : Charset) (sh : Shelf) : WriteBack.Reading FAT32fs Nat File File where
  good := sh.Keeps cs
  has fs ino f := File.fromIno cs fs ino = some (some f)
  shows fs _ f g := f.MayCache fs g
  alike _ := FAT32fs.Retouched

/-! ### Volumes that have been retouched -/

section retouched

variable {fs fs' fs'' : FAT32fs} {f : File} {l : List Nat} {clus n m : Nat}

theorem FAT32fs.Retouched.refl (fs : FAT32fs) : fs.Retouched fs :=
  ⟨rfl, rfl, .refl _ _, fun _ _ => .inl rfl⟩

theorem FAT32fs.Retouched.trans (h : fs.Retouched fs') (h' : fs'.Retouched fs'') : fs.Retouched fs'' := by
  refine ⟨h'.bpb.trans h.bpb, h'.fat.trans h.fat, h.onlyData.trans ?_, fun x hx => (h.entry x hx).trans (h'.entry x hx)⟩
  have hdata := h'.onlyData
  rwa [h.bpb] at hdata

theorem FAT32fs.Retouched.eq (h : fs.Retouched fs') : fs' = { fs with device := fs'.device } := by
  obtain ⟨hbpb, hfat, -, -⟩ := h
  cases fs'
  cases hbpb
  cases hfat
  rfl

theorem FAT32fs.Retouched.mounted (h : fs.Retouched fs') (hm : fs.Mounted) :
    fs'.Mounted ∧ ∀ x, fs.bpb.DataClus x → fs'.table x = fs.table x := by
  rw [h.eq]
  exact hm.of_data fs'.device h.onlyData.secCnt h.onlyData.value

theorem FAT32fs.Retouched.placed (h : fs.Retouched fs') (hm : fs.Mounted) (hf : f.Placed fs l) : f.Placed fs' l := by
  have htable := (h.mounted hm).2
  rw [h.eq] at htable ⊢
  exact hf.of_data htable

theorem FAT32fs.Retouched.dirEntries (h : fs.Retouched fs') (l : List Nat) :
    List.Forall₂ LongDirEntry.Kept (fs.dirEntries l) (fs'.dirEntries l) := by
  rw [FAT32fs.dirEntries, FAT32fs.dirEntries, h.bpb, List.forall₂_map_left_iff, List.forall₂_map_right_iff,
    List.forall₂_same]
  intro n _
  rw [FAT32fs.entryAt, FAT32fs.entryAt, h.bpb]
  exact h.entry _ (BPB.slot_aligned ..)

theorem FAT32fs.GroupOf.retouch {d' : Device} {s : ShortDirEntry} (h : fs.GroupOf clus l n m) (hm : fs.Mounted)
    (hset : fs.device.EntrySet (fs.bpb.slot l (n + m)) (castShortDirEntryToLong s) d')
    (hname : (castLongDirEntryToShort (fs.entryAt l (n + m))).SameName s) : fs.Retouched { fs with device := d' } := by
  have hbound := BPB.slot_bounds hm.sound h.chain.data (slots_inside h.inside m le_rfl).1
  refine ⟨rfl, rfl, ⟨hset.secCnt, fun s hlow => hset.value_of_ne (by omega)⟩, fun x hx => ?_⟩
  by_cases heq : x = fs.bpb.slot l (n + m)
  · subst heq
    refine .inr ⟨h.live.short, ?_⟩
    rw [hset.entry, castLongDirEntryToShort_castShortDirEntryToLong]
    exact hname
  · exact .inl (hset.entry_of_ne (BPB.slot_aligned ..) hx heq)

end retouched

/-! ### An object that is written back -/

section keeps

variable {cs : Charset} {sh : Shelf} {fs fs' : FAT32fs} {σ : Nat → File} {i j k : Nat} {f g : File} {d' : Device}
  {e : ShortDirEntry}

theorem Shelf.Listed.inside (h : sh.Listed fs k) (hj : j ≤ sh.longs k) :
    kDirEntrySize * (k % 2 ^ 32 + j) < (sh.chain (k / 2 ^ 32)).length * bytesPerClus fs.bpb :=
  (slots_inside (FAT32fs.GroupOf.inside h) j hj).1

theorem Shelf.Listed.fromIno_congr (hl : sh.Listed fs k) (hl' : sh.Listed fs' k) (hm : fs.Mounted) (hm' : fs'.Mounted)
    (hent : ∀ j ≤ sh.longs k, fs'.device.entry (sh.slot fs'.bpb k j) = fs.device.entry (sh.slot fs.bpb k j)) :
    File.fromIno cs fs' k = File.fromIno cs fs k := by
  have hsame := FAT32fs.GroupOf.fromIno_congr hl hl' hm hm' hent cs
  rwa [Nat.div_add_mod'] at hsame

theorem File.Sits.ino_eq (h : f.Sits k) : f.ino = k := by
  rw [File.ino, h.parent, h.entry]
  exact Nat.div_add_mod' k (2 ^ 32)

theorem Shelf.Listed.ne_root (h : sh.Listed fs k) : k ≠ kRootDirIno := by
  have hin := h.inside (Nat.zero_le _)
  rcases FAT32fs.GroupOf.chain h with ⟨-, hnil⟩ | ⟨hdata, -⟩
  · rw [hnil] at hin
    simp at hin
  · have hpos := hdata.1
    rw [kRootDirIno]
    omega

theorem File.MayCache.ino_eq (h : f.MayCache fs g) : g.ino = f.ino := by
  obtain ⟨⟨c, rfl⟩, -⟩ := h
  rfl

theorem File.MayCache.of_table (h : f.MayCache fs g)
    (htable : ∀ x, fs.bpb.DataClus x → FAT32fs.table { fs with device := d' } x = fs.table x) :
    f.MayCache { fs with device := d' } g := by
  obtain ⟨hsame, l, hl⟩ := h
  exact ⟨hsame, l, hl.of_data htable⟩

theorem Shelf.Keeps.onlyData (h : sh.Keeps cs fs σ) (hk : k ∈ sh.keys) {e : LongDirEntry}
    (hset : fs.device.EntrySet (sh.shortSlot fs.bpb k) e d') : fs.bpb.OnlyData fs.device d' := by
  have hl := h.listed k hk
  have hbound := BPB.slot_bounds h.mounted.sound (FAT32fs.GroupOf.chain hl).data (hl.inside le_rfl)
  refine ⟨hset.secCnt, fun s hlow => hset.value_of_ne fun heq => ?_⟩
  rw [heq, Shelf.shortSlot, Shelf.slot] at hlow
  exact absurd hlow (Nat.not_lt.mpr hbound.1)

theorem Shelf.Keeps.table (h : sh.Keeps cs fs σ) (hk : k ∈ sh.keys) {e : LongDirEntry}
    (hset : fs.device.EntrySet (sh.shortSlot fs.bpb k) e d') :
    FAT32fs.Mounted { fs with device := d' } ∧
      ∀ x, fs.bpb.DataClus x → FAT32fs.table { fs with device := d' } x = fs.table x :=
  h.mounted.of_data d' hset.secCnt (h.onlyData hk hset).value

theorem Shelf.Keeps.entry_of_set (h : sh.Keeps cs fs σ) (hk : k ∈ sh.keys) {e : LongDirEntry}
    (hset : fs.device.EntrySet (sh.shortSlot fs.bpb k) e d') (hj : j ∈ sh.keys) (hi : i ≤ sh.longs j)
    (hne : j = k → i ≠ sh.longs k) : d'.entry (sh.slot fs.bpb j i) = fs.device.entry (sh.slot fs.bpb j i) :=
  hset.entry_of_ne (BPB.slot_aligned ..) (BPB.slot_aligned ..) (h.apart j hj k hk i hi hne)

theorem Shelf.Keeps.listed_set (h : sh.Keeps cs fs σ) (hk : k ∈ sh.keys)
    (hset : fs.device.EntrySet (sh.shortSlot fs.bpb k) (castShortDirEntryToLong e) d')
    (hname : (castLongDirEntryToShort (fs.device.entry (sh.shortSlot fs.bpb k))).SameName e) (hj : j ∈ sh.keys) :
    sh.Listed { fs with device := d' } j := by
  have htable := (h.table hk hset).2
  have hl := h.listed j hj
  have hchain := (FAT32fs.GroupOf.chain hl).congr fun x hx => htable x ((FAT32fs.GroupOf.chain hl).data x hx)
  by_cases hjk : j = k
  · subst hjk
    exact FAT32fs.GroupOf.set hl hchain hname hset.entry fun i hi => h.entry_of_set hk hset hk hi.le fun _ => hi.ne
  · exact FAT32fs.GroupOf.congr hl rfl hchain fun i hi => h.entry_of_set hk hset hj hi fun heq => absurd heq hjk

theorem Shelf.Keeps.fromIno_of_set (h : sh.Keeps cs fs σ) (hk : k ∈ sh.keys)
    (hset : fs.device.EntrySet (sh.shortSlot fs.bpb k) (castShortDirEntryToLong e) d')
    (hname : (castLongDirEntryToShort (fs.device.entry (sh.shortSlot fs.bpb k))).SameName e)
    (hj : j ∈ sh.keys) (hne : j ≠ k) : File.fromIno cs { fs with device := d' } j = File.fromIno cs fs j :=
  (h.listed j hj).fromIno_congr (h.listed_set hk hset hname hj) h.mounted (h.table hk hset).1
    fun _ hi => h.entry_of_set hk hset hj hi fun heq => absurd heq hne

theorem Shelf.Keeps.fromIno_set (h : sh.Keeps cs fs σ) (hk : k ∈ sh.keys)
    (hset : fs.device.EntrySet (sh.shortSlot fs.bpb k) (castShortDirEntryToLong e) d')
    (hname : (castLongDirEntryToShort (fs.device.entry (sh.shortSlot fs.bpb k))).SameName e)
    (hmade : File.fromIno cs fs k = some (some f)) :
    File.fromIno cs { fs with device := d' } k = some (some (.ofEntry (k / 2 ^ 32) (k % 2 ^ 32) f.name e)) := by
  have hmade' : File.fromIno cs fs (k / 2 ^ 32 * 2 ^ 32 + k % 2 ^ 32) = some (some f) :=
    (congrArg (File.fromIno cs fs) (Nat.div_add_mod' k (2 ^ 32))).trans hmade
  have hset' := FAT32fs.GroupOf.fromIno_set (h.listed k hk) h.mounted (h.table hk hset).1 (h.listed_set hk hset hname hk)
    hname hset.entry (fun i hi => h.entry_of_set hk hset hk hi.le fun _ => hi.ne) hmade'
  rwa [Nat.div_add_mod'] at hset'

/-- The groups and the objects stay what they are when an object writes its metadata to its entry. -/
theorem Shelf.Keeps.set (h : sh.Keeps cs fs σ) (hk : k ∈ sh.keys)
    (hset : fs.device.EntrySet (sh.shortSlot fs.bpb k) (castShortDirEntryToLong e) d')
    (hname : (castLongDirEntryToShort (fs.device.entry (sh.shortSlot fs.bpb k))).SameName e)
    (hself : ∃ f, File.fromIno cs { fs with device := d' } k = some (some f) ∧ f.name = (σ k).name ∧
      f.isDir = (σ k).isDir) : sh.Keeps cs { fs with device := d' } σ := by
  obtain ⟨hm', htable⟩ := h.table hk hset
  refine ⟨hm', fun j hj => h.listed_set hk hset hname hj, h.apart, h.sits, fun j hj => ?_, fun j hj => ?_⟩
  · by_cases hjk : j = k
    · exact hjk.symm ▸ hself
    · obtain ⟨f, hf, hnamed⟩ := h.made j hj
      exact ⟨f, (h.fromIno_of_set hk hset hname hj hjk).trans hf, hnamed⟩
  · obtain ⟨l, hl⟩ := h.placed j hj
    exact ⟨l, hl.of_data htable⟩

theorem Shelf.Keeps.retouched (h : sh.Keeps cs fs σ) (hk : k ∈ sh.keys)
    (hset : fs.device.EntrySet (sh.shortSlot fs.bpb k) (castShortDirEntryToLong e) d')
    (hname : (castLongDirEntryToShort (fs.device.entry (sh.shortSlot fs.bpb k))).SameName e) :
    fs.Retouched { fs with device := d' } :=
  FAT32fs.GroupOf.retouch (h.listed k hk) h.mounted hset hname

theorem Shelf.Keeps.isDirectory_eq (h : sh.Keeps cs fs σ) (hk : k ∈ sh.keys) :
    isDirectory (castLongDirEntryToShort (fs.entryAt (sh.chain (k / 2 ^ 32)) (k % 2 ^ 32 + sh.longs k))) = (σ k).isDir := by
  obtain ⟨f₀, hmade, -, hdir⟩ := h.made k hk
  have hmade' : File.fromIno cs fs (k / 2 ^ 32 * 2 ^ 32 + k % 2 ^ 32) = some (some f₀) :=
    (congrArg (File.fromIno cs fs) (Nat.div_add_mod' k (2 ^ 32))).trans hmade
  rw [← hdir, FAT32fs.GroupOf.made_eq (h.listed k hk) h.mounted hmade']
  rfl

/-- An object that is destroyed leaves an entry that it can be made of again. -/
theorem Shelf.Keeps.destructor (h : sh.Keeps cs fs σ) (hk : k ∈ sh.keys) (hg : (σ k).MayCache fs g) :
    ∃ d' f' e, g.destructor fs = some ({ fs with device := d' }, f') ∧
      fs.device.EntrySet (sh.shortSlot fs.bpb k) (castShortDirEntryToLong e) d' ∧
      (castLongDirEntryToShort (fs.device.entry (sh.shortSlot fs.bpb k))).SameName e ∧
      File.fromIno cs { fs with device := d' } k = some (some (σ k)) := by
  obtain ⟨⟨c, rfl⟩, l, hplaced⟩ := hg
  obtain ⟨hparent, hentry, hlive, huncached, hclus, hsize⟩ := h.sits k hk
  obtain ⟨f₀, hmade, hname, -⟩ := h.made k hk
  have hplaced' : File.Placed fs { σ k with clusChain_ := c, isDir := false } l := ⟨hplaced.chain, hplaced.cache⟩
  obtain ⟨d', hrun, hset⟩ := FAT32fs.GroupOf.sync (h.listed k hk) h.mounted hplaced' hparent hentry hlive
  refine ⟨d', _, _, hrun, hset, File.sameName_updated _ _, ?_⟩
  have hback := File.ofEntry_updated (h.isDirectory_eq hk) hparent hentry hlive huncached hclus hsize c
  rw [h.fromIno_set hk hset (File.sameName_updated _ _) hmade, hname]
  generalize k / 2 ^ 32 = parent, k % 2 ^ 32 = num at hback ⊢
  exact congrArg (fun f => some (some f)) hback

/-- The map of files is a cache of what the entries have. -/
theorem Shelf.lawful (cs : Charset) (sh : Shelf) : WriteBack.Lawful (File.backing cs) (sh.reading cs) sh.keys where
  refl _ := FAT32fs.Retouched.refl
  trans := FAT32fs.Retouched.trans
  load := by
    intro fs σ k h hk hhas
    have hload : File.fromIno cs fs k = some (some (σ k)) := hhas
    exact ⟨σ k, congrArg Option.join hload, ⟨_, rfl⟩, Shelf.Keeps.placed h k hk⟩
  save := by
    intro fs σ k g h hk hshows
    have h : sh.Keeps cs fs σ := h
    have hcache : (σ k).MayCache fs g := hshows
    obtain ⟨d', f', e, hrun, hset, hname, hself⟩ := h.destructor hk hcache
    have htable := (h.table hk hset).2
    refine ⟨_, congrArg (Option.map Prod.fst) hrun, h.set hk hset hname ⟨_, hself, rfl, rfl⟩, hself, ⟨fun j hj hne hhas => ?_,
      fun j _ _ a ha => ha.of_table htable⟩, h.retouched hk hset hname⟩
    exact (h.fromIno_of_set hk hset hname hj hne).trans hhas

end keeps

end FuseFat32
