import FuseFat32.Fuse.DirRuns
import FuseFat32.Fuse.Serve

/-!
# Names and inode numbers

The entries of a directory give names to inode numbers. An object that writes its metadata back changes its short entry, but not the name there, so the catalog of a volume says the same whichever objects have been dropped from the map. `.` and `..` are groups too; they name no file of the catalog, and nobody asks for them.
-/

namespace FuseFat32

open LinkedTable Layout Segments WriteBack

section kept

variable {cs : Charset} {es es' : List LongDirEntry} {gs gs' : List (Nat × EntryGroup)}

theorem groupNames_congr (h : gs'.map groupKey = gs.map groupKey) : groupNames cs gs' = groupNames cs gs := by
  funext name
  cases hu : cs.utf8ToUtf16 name with
  | none => simp [groupNames, hu]
  | some u =>
    cases hgbk : cs.utf8ToGbk (toUpper name) with
    | none => simp [groupNames, hu, hgbk]
    | some gbk =>
      rw [groupNames_eq hu hgbk, groupNames_eq hu hgbk]
      exact find_named_of_keys h u gbk

theorem GroupRow.kept (h : GroupRow cs es gs) (hes : List.Forall₂ LongDirEntry.Kept es es') :
    ∃ gs', GroupRow cs es' gs' ∧ gs'.map groupKey = gs.map groupKey := by
  obtain ⟨segs, tail, hlay, hempty, hunique, rfl⟩ := h
  obtain ⟨segs', tail', hlay', hempty', hkeys⟩ := hlay.kept hempty hes
  refine ⟨_, ⟨segs', tail', hlay', hempty', fun name u gbk hu hgbk => ?_, rfl⟩, hkeys⟩
  have hold := hunique name u gbk hu hgbk
  simp only [named_iff_key] at hold ⊢
  rw [← List.pairwise_map (R := fun k k' => ¬ (KeyNamed u gbk k ∧ KeyNamed u gbk k'))] at hold ⊢
  rwa [hkeys]

end kept

/-! ### Catalogs -/

/-- The group of `.` or of `..`. -/
def EntryGroup.IsDots (g : EntryGroup) : Prop := g.longs = [] ∧ (g.shortName = [0x2E] ∨ g.shortName = [0x2E, 0x2E])

/-- The name is neither `.` nor `..`. -/
def isPlainName (cs : Charset) (name : List UInt8) : Bool :=
  (cs.utf8ToGbk (toUpper name)).all fun gbk => gbk != [0x2E] && gbk != [0x2E, 0x2E]

/-- The inode numbers that names have in the directory with first cluster `c`. -/
def inoNames (cs : Charset) (c : Nat) (gs : List (Nat × EntryGroup)) (name : List UInt8) : Option Nat :=
  if isPlainName cs name then (groupNames cs gs name).map fun range => c * 2 ^ 32 + range.start else none

/-- The groups of the directory with first cluster `c` are those of its files, and `.` and `..` in front of them. -/
structure Tree.Lists (t : Tree) (c : Nat) (gs : List (Nat × EntryGroup)) : Prop where
  known : ∀ p ∈ gs, (groupIno c p ∈ t.inos ∧ t.longs (groupIno c p) = p.2.longs.length) ∨ p.2.IsDots ∧ p.1 < 2
  plain : ∀ p ∈ gs, groupIno c p ∈ t.inos → ¬ p.2.IsDots
  all : ∀ k ∈ t.inos, k / 2 ^ 32 = c → ∃ p ∈ gs, groupIno c p = k

/-- The directory begins with `.` and `..`. -/
def DotsFirst (gs : List (Nat × EntryGroup)) : Prop := ∀ i < 2, ∃ g, (i, g) ∈ gs ∧ g.IsDots

/-- The directory with first cluster `c` has the names `table`. Its clusters lie next to each other, and its size is a number of 32 bits. The root directory has no `.` and `..`. -/
structure Tree.Page (cs : Charset) (t : Tree) (fs : FAT32fs) (c : Nat) (table : List UInt8 → Option Nat) : Prop where
  size : (t.chain c).length * bytesPerClus fs.bpb < 2 ^ 32
  consecutive : Consecutive (t.chain c)
  names : ∃ gs, GroupRow cs (fs.dirEntries (t.chain c)) gs ∧ t.Lists c gs ∧ (c ≠ fs.bpb.rootClus.toNat → DotsFirst gs) ∧
    table = inoNames cs c gs

/-- No directory has two places in the tree, and the root directory has none. -/
structure Tree.Spread (t : Tree) (fs : FAT32fs) (σ : Nat → File) : Prop where
  root : fs.bpb.rootClus.toNat ∈ t.dirs
  below : ∀ k ∈ t.subdirs, (σ k).fstClus ≠ fs.bpb.rootClus.toNat ∧ (σ k).fstClus ≠ k / 2 ^ 32
  apart : ∀ j ∈ t.subdirs, ∀ k ∈ t.subdirs, (σ j).fstClus = (σ k).fstClus → j = k

/-- Every directory has its names. -/
structure Tree.Catalog (cs : Charset) (t : Tree) (fs : FAT32fs) (σ : Nat → File)
    (table : Nat → List UInt8 → Option Nat) : Prop extends t.Spread fs σ where
  page : ∀ c ∈ t.dirs, t.Page cs fs c (table c)

section catalog

variable {cs : Charset} {t : Tree} {fs fs' : FAT32fs} {σ σ' : Nat → File} {k c : Nat} {l : List Nat}
  {table : Nat → List UInt8 → Option Nat} {gs gs' : List (Nat × EntryGroup)} {p : Nat × EntryGroup}
  {name : List UInt8} {range : DirEntryRange} {dir dir' : File} {result : Option DirEntryRange}

theorem groupIno_div (hp : p.1 < 2 ^ 32) : groupIno c p / 2 ^ 32 = c ∧ groupIno c p % 2 ^ 32 = p.1 := by
  rw [groupIno]
  omega

theorem GroupRow.liveGroup (h : GroupRow cs (fs.dirEntries l) gs) (hp : p ∈ gs) :
    p.1 + p.2.longs.length < fs.bpb.dirSlots l ∧
      (List.range (p.2.longs.length + 1)).map (fun j => fs.entryAt l (p.1 + j)) = p.2.entries ∧
      fs.LiveGroup l p.1 p.2.longs.length := by
  obtain ⟨segs, tail, hlay, -, -, rfl⟩ := h
  exact hlay.liveGroup hp

theorem GroupRow.start_lt (h : GroupRow cs (fs.dirEntries l) gs) (hs : fs.bpb.Sound) (hp : p ∈ gs) : p.1 < 2 ^ 32 := by
  have hin := (h.liveGroup hp).1
  have hlt := hs.dirSlots_lt l
  have hmul : fs.bpb.dirSlots l ≤ kDirEntrySize * fs.bpb.dirSlots l := Nat.le_mul_of_pos_left _ (by decide)
  omega

/-- The walks of the files find a group in clusters that lie next to each other. -/
theorem GroupRow.groupOf (h : GroupRow cs (fs.dirEntries l) gs) (hs : fs.bpb.Sound) (hchain : fs.bpb.ChainOf fs.table c l)
    (hcap : l.length * bytesPerClus fs.bpb < 2 ^ 32) (hseq : Consecutive l) (hp : p ∈ gs) :
    fs.GroupOf c l p.1 p.2.longs.length := by
  obtain ⟨hlt, -, hlive⟩ := h.liveGroup hp
  refine ⟨hchain, ?_, hseq.slotsInOrder hs hcap hlt, hlive⟩
  rw [← hs.dirSlots_mul]
  exact Nat.mul_le_mul_left _ hlt

theorem exists_of_keys (hkeys : gs'.map groupKey = gs.map groupKey) (hp : p ∈ gs') :
    ∃ q ∈ gs, q.1 = p.1 ∧ q.2.longs = p.2.longs ∧ q.2.shortName = p.2.shortName := by
  have hmem : groupKey p ∈ gs.map groupKey := hkeys ▸ List.mem_map_of_mem hp
  obtain ⟨q, hq, hkey⟩ := List.mem_map.mp hmem
  exact ⟨q, hq, by simpa [groupKey] using hkey⟩

theorem Tree.Lists.congr (h : t.Lists c gs) (hkeys : gs'.map groupKey = gs.map groupKey) : t.Lists c gs' := by
  refine ⟨fun p hp => ?_, fun p hp => ?_, fun k hk hdir => ?_⟩
  · obtain ⟨q, hq, hstart, hlongs, hshort⟩ := exists_of_keys hkeys hp
    have hknown := h.known q hq
    rw [groupIno, EntryGroup.IsDots, hstart, hlongs, hshort] at hknown
    exact hknown
  · obtain ⟨q, hq, hstart, hlongs, hshort⟩ := exists_of_keys hkeys hp
    have hplain := h.plain q hq
    rw [groupIno, EntryGroup.IsDots, hstart, hlongs, hshort] at hplain
    exact hplain
  · obtain ⟨q, hq, rfl⟩ := h.all k hk hdir
    obtain ⟨p, hp, hstart, -, -⟩ := exists_of_keys hkeys.symm hq
    exact ⟨p, hp, congrArg (c * 2 ^ 32 + ·) hstart⟩

theorem DotsFirst.mono (h : DotsFirst gs) (hsub : ∀ p ∈ gs, p.2.IsDots → p ∈ gs') : DotsFirst gs' := by
  intro i hi
  obtain ⟨g, hg, hdots⟩ := h i hi
  exact ⟨g, hsub _ hg hdots, hdots⟩

theorem DotsFirst.congr (h : DotsFirst gs) (hkeys : gs'.map groupKey = gs.map groupKey) : DotsFirst gs' := by
  intro i hi
  obtain ⟨g, hg, hdots⟩ := h i hi
  obtain ⟨⟨j, g'⟩, hg', rfl, hlongs, hshort⟩ := exists_of_keys hkeys.symm hg
  refine ⟨g', hg', ?_⟩
  rw [EntryGroup.IsDots, hlongs, hshort]
  exact hdots

theorem Tree.Tidy.dirEntries (h : t.Tidy fs fs') (hbpb : fs'.bpb = fs.bpb) (hc : c ∈ t.dirs) :
    List.Forall₂ LongDirEntry.Kept (fs.dirEntries (t.chain c)) (fs'.dirEntries (t.chain c)) := by
  rw [FAT32fs.dirEntries, FAT32fs.dirEntries, hbpb, List.forall₂_map_left_iff, List.forall₂_map_right_iff,
    List.forall₂_same]
  exact fun n hn => h c hc n (List.mem_range.mp hn)

theorem Tree.Page.congr {names : List UInt8 → Option Nat} (h : t.Page cs fs c names) (hc : c ∈ t.dirs)
    (hbpb : fs'.bpb = fs.bpb) (htidy : t.Tidy fs fs') : t.Page cs fs' c names := by
  obtain ⟨gs, hrow, hlists, hdots, htable⟩ := h.names
  obtain ⟨gs', hrow', hkeys⟩ := hrow.kept (htidy.dirEntries hbpb hc)
  refine ⟨hbpb.symm ▸ h.size, h.consecutive, gs', hrow', hlists.congr hkeys, fun hne => (hdots (hbpb ▸ hne)).congr hkeys, ?_⟩
  rw [htable]
  funext name
  rw [inoNames, inoNames, groupNames_congr hkeys]

theorem Tree.Spread.congr {t' : Tree} (h : t.Spread fs σ) (hbpb : fs'.bpb = fs.bpb) (hroot : fs.bpb.rootClus.toNat ∈ t'.dirs)
    (hsub : t'.subdirs ⊆ t.subdirs) (hfst : ∀ k ∈ t'.subdirs, (σ' k).fstClus = (σ k).fstClus) : t'.Spread fs' σ' := by
  refine ⟨hbpb.symm ▸ hroot, fun k hk => ?_, fun j hj k hk heq => ?_⟩
  · rw [hfst k hk, hbpb]
    exact h.below k (hsub hk)
  · rw [hfst j hj, hfst k hk] at heq
    exact h.apart j (hsub hj) k (hsub hk) heq

/-- Other metadata makes no difference to the catalog. -/
theorem Tree.Catalog.congr (h : t.Catalog cs fs σ table) (hbpb : fs'.bpb = fs.bpb) (htidy : t.Tidy fs fs')
    (hfst : ∀ k ∈ t.subdirs, (σ' k).fstClus = (σ k).fstClus) : t.Catalog cs fs' σ' table :=
  ⟨h.toSpread.congr hbpb h.root subset_rfl hfst, fun c hc => (h.page c hc).congr hc hbpb htidy⟩

theorem Tree.Spread.head_ne_root (h : t.Spread fs σ) (hv : t.Volume cs fs σ) (hk : k ∈ t.inos) :
    (σ k).fstClus ≠ fs.bpb.rootClus.toNat := by
  rcases hk with hk | hk
  · exact fun heq => hv.files.notRest ⟨k, hk⟩ (hv.live (.inl hk)) (heq ▸ h.root)
  · exact (h.below k hk).1

theorem groupNames_plain (hplain : isPlainName cs name = true) (hfound : groupNames cs gs name = some range) :
    ∃ p ∈ gs, range = ⟨p.1, p.2.size⟩ ∧ ¬ p.2.IsDots := by
  obtain ⟨u, gbk, hu, hgbk, p, hfind, rfl⟩ := groupNames_eq_some.mp hfound
  have hp := List.mem_of_find?_eq_some hfind
  have hnamed : p.2.Named u gbk := by simpa using List.find?_some hfind
  refine ⟨p, hp, rfl, fun ⟨hlongs, hdots⟩ => ?_⟩
  rw [EntryGroup.Named, if_pos hlongs] at hnamed
  rw [isPlainName, hgbk, Option.all_some, Bool.and_eq_true, bne_iff_ne, bne_iff_ne, ← hnamed] at hplain
  exact hdots.elim hplain.1 hplain.2

theorem Tree.Lists.found (h : t.Lists c gs) (hplain : isPlainName cs name = true)
    (hfound : groupNames cs gs name = some range) : ∃ p ∈ gs, range = ⟨p.1, p.2.size⟩ ∧ groupIno c p ∈ t.inos ∧
      t.longs (groupIno c p) = p.2.longs.length := by
  obtain ⟨p, hp, hrange, hdots⟩ := groupNames_plain hplain hfound
  exact ⟨p, hp, hrange, (h.known p hp).resolve_right fun hno => hdots hno.1⟩

/-- A lookup in a directory of the catalog returns what the catalog says. -/
theorem Tree.Page.lookup {heads : Set Nat} {now : FatTimeStamp} (h : t.Page cs fs c (table c)) (hm : fs.Mounted)
    (hfst : dir.fstClus = c) (hhead : c ∈ heads) (hplaced : dir.Placed fs (t.chain c)) (hdir : dir.isDir = true)
    (hplain : isPlainName cs name = true) (hrun : dir.lookupFileInner cs fs name now = some (result, dir')) :
    dir.Same dir' ∧ dir'.Placed fs (t.chain c) ∧ table c name = result.map (fun range => c * 2 ^ 32 + range.start) ∧
      ∀ range, result = some range → c * 2 ^ 32 + range.start ∈ t.inos ∧ range.start < 2 ^ 32 := by
  obtain ⟨gs, hrow, hlists, -, htable⟩ := h.names
  have hopen : dir.OpenDir cs fs heads (t.chain c) gs := ⟨hfst ▸ hhead, hplaced, hdir, h.size, hrow⟩
  obtain ⟨hsame, hopen'⟩ := hopen.lookup hm hrun
  have hresult := hopen.lookup_fst hm hrun
  refine ⟨hsame, hopen'.placed, ?_, fun range hrange => ?_⟩
  · rw [htable, inoNames, if_pos hplain, hresult]
  · obtain ⟨p, hp, rfl, hino, -⟩ := hlists.found hplain (hresult.symm.trans hrange)
    exact ⟨hino, hrow.start_lt hm.sound hp⟩

end catalog

end FuseFat32
