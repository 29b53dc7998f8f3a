import FuseFat32.Fs.DirStep
import FuseFat32.Fs.NewGroup

/-!
# Creating a file

`crtFileInner` takes the first run of empty entries that is long enough, on either side of the end marker, and makes the directory longer when there is none. The new group lies between the old ones, and no end marker is left in front of it. A directory that has grown by free clusters shows the old groups and the new one. One that has been given a cluster of its own by a pending hint does not.
-/

namespace FuseFat32

open LinkedTable Layout Segments

/-- A directory is well formed: groups and deleted entries up to the first end marker, and only empty entries from there on. -/
def WellFormedDir (es : List LongDirEntry) : Prop :=
  ∃ segs tail, DirLayout es segs tail ∧ ∀ e ∈ tail, isEmptyDirEntry e = true

/-! ### A new group between the old ones -/

section insert

variable {es tail : List LongDirEntry} {segs : List (Segment LongDirEntry EntryGroup)}

theorem isLstEmpty_zero : isLstEmptyDirEntry (.ofBytes fun _ => 0) = true ∧
    isEmptyDirEntry (.ofBytes fun _ => 0) = true := by decide

private theorem GroupLayout.append_zeros (h : GroupLayout es segs tail) (htail : ∀ e ∈ tail, isEmptyDirEntry e = true)
    (m : Nat) :
    GroupLayout (es ++ List.replicate m (.ofBytes fun _ => 0)) segs (tail ++ List.replicate m (.ofBytes fun _ => 0)) ∧
      ∀ e ∈ tail ++ List.replicate m (.ofBytes fun _ => 0), isEmptyDirEntry e = true := by
  have hzero : ∀ e ∈ List.replicate m (LongDirEntry.ofBytes fun _ => 0), e = .ofBytes fun _ => 0 :=
    fun e he => List.eq_of_mem_replicate he
  refine ⟨⟨by rw [h.flat, List.append_assoc], h.deleted, fun e he => ?_⟩, fun e he => ?_⟩
  · cases tail with
    | nil =>
      rw [hzero e (List.mem_of_mem_head? he)]
      exact isLstEmpty_zero.1
    | cons a tail => exact h.marker e he
  · rcases List.mem_append.mp he with he | he
    · exact htail e he
    · rw [hzero e he]
      exact isLstEmpty_zero.2

/-- A group in the place of a maximal run of empty entries. -/
theorem GroupLayout.insert (h : GroupLayout es segs tail) (htail : ∀ e ∈ tail, isEmptyDirEntry e = true)
    {start : Nat} (g : EntryGroup) (hrun : RunAt isEmptyDirEntry es start g.size) :
    ∃ segs' tail', GroupLayout (es.take start ++ g.entries ++ es.drop (start + g.size)) segs' tail' ∧
      (∀ e ∈ tail', isEmptyDirEntry e = true) ∧
      ∃ front back, blocks EntryGroup.entries 0 segs = front ++ back ∧
        blocks EntryGroup.entries 0 segs' = front ++ (start, g) :: back := by
  have hflat := h.flat
  rw [hflat] at hrun
  obtain ⟨xs, as, zs, t, hrow, hxs, has, hmark, ht, hstop⟩ := exists_place EntryGroup.solid
    (fun e he => isEmpty_of_deleted (h.deleted e he)) htail h.marker
    hrun (Nat.succ_pos _)
  have hall : es = Segments.flat EntryGroup.entries xs ++ as ++ (Segments.flat EntryGroup.entries zs ++ t) := by
    have hboth := congrArg (Segments.flat EntryGroup.entries) hrow
    simp only [flat_append, flat_blanks] at hboth
    rw [hflat, hboth]
  have hblocks : blocks EntryGroup.entries 0 segs = blocks EntryGroup.entries 0 xs ++
      blocks EntryGroup.entries (start + g.size) zs := by
    have hboth := congrArg (blocks EntryGroup.entries 0) hrow
    simp only [blocks_append, blocks_blanks, flat_append, flat_blanks, List.append_nil, hxs, has,
      List.length_append, Nat.zero_add] at hboth
    exact hboth
  refine ⟨xs ++ .block g :: zs, t, ⟨?_, fun e he => ?_, hstop⟩, ht, _, _, hblocks, ?_⟩
  · have htake : es.take start = Segments.flat EntryGroup.entries xs := by
      rw [hall, List.append_assoc, List.take_left' hxs]
    have hdrop : es.drop (start + g.size) = Segments.flat EntryGroup.entries zs ++ t := by
      rw [hall, List.drop_left' (by rw [List.length_append, hxs, has])]
    rw [htake, hdrop]
    simp only [flat_append, flat_cons, elems_block, List.append_assoc]
  · have hblank : .blank e ∈ xs ++ zs := by
      rcases List.mem_append.mp he with he | he
      · exact List.mem_append_left _ he
      · exact List.mem_append_right _ ((List.mem_cons.mp he).resolve_left (by simp))
    have hempty : isEmptyDirEntry e = true := by
      have hin : .blank e ∈ segs ++ tail.map .blank := by
        rw [hrow]
        rcases List.mem_append.mp hblank with he | he
        · exact List.mem_append_left _ (List.mem_append_left _ he)
        · exact List.mem_append_right _ (List.mem_append_left _ he)
      rcases List.mem_append.mp hin with he | he
      · exact (isEmpty_of_deleted (h.deleted e he)).1
      · exact htail e (blank_mem_map.mp he)
    have hnot := hmark e hblank
    simp only [isEmptyDirEntry, isLstEmptyDirEntry, decide_eq_true_eq, decide_eq_false_iff_not] at hempty hnot
    exact hempty.resolve_left hnot
  · rw [blocks_append, blocks, hxs, Nat.zero_add, EntryGroup.length_entries]

/-- A lookup when a group has been put between the others. -/
theorem dirLookup_insert {segs segs' : List (Segment LongDirEntry EntryGroup)} {front back : List (Nat × EntryGroup)}
    {start : Nat} {g : EntryGroup} (u gbk : List UInt8) (h : blocks EntryGroup.entries 0 segs = front ++ back)
    (h' : blocks EntryGroup.entries 0 segs' = front ++ (start, g) :: back) :
    (¬ g.Named u gbk → dirLookup segs' u gbk = dirLookup segs u gbk) ∧
      (g.Named u gbk → dirLookup segs u gbk = none → dirLookup segs' u gbk = some ⟨start, g.size⟩) := by
  constructor
  · intro hnot
    rw [dirLookup, dirLookup, h, h', List.find?_append, List.find?_append, List.find?_cons_of_neg (by simpa using hnot)]
  · intro hnamed hnone
    rw [dirLookup, h, Option.map_eq_none_iff, List.find?_append, Option.or_eq_none_iff] at hnone
    rw [dirLookup, h', List.find?_append, hnone.1, Option.none_or, List.find?_cons_of_pos (by simpa using hnamed)]
    rfl

end insert

/-! ### Finding a place -/

private theorem scanList_searchStep (required : Nat) : ∀ {es : List LongDirEntry} {n : Nat} {free : Nat × Nat},
    scanList (searchStep required) (fun n free => some (free.1, free.2, n)) es n free =
      some (search isEmptyDirEntry required es n free) := by
  intro es
  induction es with
  | nil => exact rfl
  | cons e es ih =>
    intro n free
    rw [search]
    by_cases hdone : required ≤ (Segments.count isEmptyDirEntry n e free).2
    · rw [if_pos hdone]
      exact scanList_stop (by rw [searchStep, if_pos hdone])
    · rw [if_neg hdone, scanList_next (by rw [searchStep, if_neg hdone]), ih]

/-- The entries that are missing for a group of `required` at the end of a directory without a place for it. -/
def missingEntries (es : List LongDirEntry) (required : Nat) : Nat :=
  required - (search isEmptyDirEntry required es 0 (0, 0)).2.1

/-- The entry a group of `required` is to start at. -/
def newPlace (es : List LongDirEntry) (required : Nat) : Nat :=
  let (free_entry_start, free_entry_cnt, cur_entry) := search isEmptyDirEntry required es 0 (0, 0)
  if free_entry_cnt = 0 then cur_entry else free_entry_start

/-- The length of a directory once there is a place for a group. -/
def FAT32fs.lengthFor (fs : FAT32fs) (l : List Nat) (required : Nat) : Nat :=
  l.length * bytesPerClus fs.bpb + missingEntries (fs.dirEntries l) required * kDirEntrySize

/-- The directory stays below 4 GiB, and no hint spoils the clusters it needs. -/
structure FAT32fs.CreateOk (fs : FAT32fs) (l : List Nat) (required : Nat) : Prop where
  small : fs.bpb.clusFor (fs.lengthFor l required) * bytesPerClus fs.bpb < 2 ^ 32
  hint : fs.HintOk l (fs.lengthFor l required)

/-- There is no place for a group of `required`, and fewer clusters are available than the directory would have to get. -/
def FAT32fs.Refuses (fs : FAT32fs) (l : List Nat) (required : Nat) : Prop :=
  fs.lengthFor l required < 2 ^ 32 ∧
    fs.fat.avail fs.table < fs.bpb.clusFor (fs.lengthFor l required) - l.length

section create

variable {fs fs' : FAT32fs} {heads : Set Nat} {dir dir' : File} {l : List Nat} {required : Nat}

theorem FAT32fs.CreateOk.lengthFor_lt (hs : fs.bpb.Sound) (h : fs.CreateOk l required) :
    fs.lengthFor l required < 2 ^ 32 :=
  Nat.lt_of_le_of_lt (hs.le_clusFor _) h.small

theorem FAT32fs.CreateOk.capacity_lt (hs : fs.bpb.Sound) (h : fs.CreateOk l required) :
    l.length * bytesPerClus fs.bpb < 2 ^ 32 :=
  Nat.lt_of_le_of_lt (Nat.le_add_right _ _) (h.lengthFor_lt hs)

theorem File.Placed.searchFree_eq (hm : fs.Mounted) (hf : dir.Placed fs l) (hdir : dir.isDir = true)
    (required : Nat) (now : FatTimeStamp) : ∃ g, dir.Same g ∧ g.Placed fs l ∧
      dir.searchFree fs required now = some (search isEmptyDirEntry required (fs.dirEntries l) 0 (0, 0), g) := by
  obtain ⟨g, hsame, hg, hrun⟩ := hf.scan_from (n := 0) (searchStep required) (fun n free => some (free.1, free.2, n)) hm
    hdir now (by decide) (0, 0)
  refine ⟨g, hsame, hg, ?_⟩
  rw [File.searchFree, hrun, List.drop_zero, scanList_searchStep]
  rfl

/-- Afterwards the directory has a place for the group, behind its end if need be. -/
theorem File.allocEntries_some (hs : fs.Sane heads) (hhead : dir.fstClus ∈ heads) (hf : dir.Placed fs l)
    (hdir : dir.isDir = true) (hok : fs.CreateOk l required) (hpos : 0 < required) {start cnt cur : Nat}
    (hsearch : search isEmptyDirEntry required (fs.dirEntries l) 0 (0, 0) = (start, cnt, cur))
    (hrun : dir.allocEntries fs cnt required = some (true, fs', dir')) :
    ∃ l' m, l' = fs.chainAfter l (fs.lengthFor l required) ∧ fs.DirStep heads dir l fs' dir' l' ∧ (∀ x ∈ l, x ∈ l') ∧
      l'.length * bytesPerClus fs.bpb < 2 ^ 32 ∧
      fs'.dirEntries l' = fs.dirEntries l ++ List.replicate m (.ofBytes fun _ => 0) ∧
      RunAt isEmptyDirEntry (fs'.dirEntries l') (if cnt = 0 then cur else start) required := by
  have hcap := hok.capacity_lt hs.sound
  have hzero : ∀ m, ∀ e ∈ List.replicate m (LongDirEntry.ofBytes fun _ => 0), isEmptyDirEntry e = true :=
    fun m e he => by rw [List.eq_of_mem_replicate he]; exact isLstEmpty_zero.2
  rw [File.allocEntries] at hrun
  split at hrun
  · next hless =>
    obtain ⟨⟨g, hsz, hsame, hg⟩, -⟩ := hf.sized_dir hs.toMounted hdir
    have hlength : l.length * bytesPerClus fs.bpb + (required - cnt) * kDirEntrySize = fs.lengthFor l required := by
      rw [FAT32fs.lengthFor, missingEntries, hsearch]
    rw [u32_of_lt hcap] at hsz
    rw [hsz, Option.bind_eq_bind, Option.bind_some] at hrun
    dsimp only at hrun
    rw [hlength, u32_of_lt (hok.lengthFor_lt hs.sound)] at hrun
    have hread := FAT32fs.DirStep.of_same hs hsame hg
    have hghead : g.fstClus ∈ heads := hread.worked.fstClus ▸ hhead
    have hgdir : g.isDir = true := hread.worked.isDir.trans hdir
    obtain ⟨-, ht⟩ := (File.truncate_some hs (.inr hghead) hg.chain hok.hint hrun).resolve_right
      fun h => absurd h.1 Bool.true_eq_false.mp
    have hne : fs.lengthFor l required ≠ 0 := by
      rw [← hlength]
      simp only [kDirEntrySize]
      omega
    have hent := ht.entries hs hg hgdir hcap hok.small
    have hlen : (fs.chainAfter l (fs.lengthFor l required)).length = fs.bpb.clusFor (fs.lengthFor l required) :=
      ht.resized.length
    -- the directory has at least the entries that are missing
    have hmore : (fs.dirEntries l).length + (required - cnt) ≤
        fs.bpb.clusFor (fs.lengthFor l required) * fs.bpb.slotsPerClus := by
      have hle := hs.sound.le_clusFor (fs.lengthFor l required)
      generalize fs.bpb.clusFor (fs.lengthFor l required) = num at hle ⊢
      rw [← hlength, hs.sound.bytesPerClus_eq_slots] at hle
      rw [FAT32fs.length_dirEntries, hs.sound.dirSlots_eq hcap]
      simp only [kDirEntrySize, Nat.mul_left_comm _ 32] at hle ⊢
      omega
    have hcut : ¬ fs.bpb.clusFor (fs.lengthFor l required) < l.length := fun h => by
      have := Nat.mul_le_mul_right fs.bpb.slotsPerClus h.le
      rw [FAT32fs.length_dirEntries, hs.sound.dirSlots_eq hcap] at hmore
      omega
    rw [resizedEntries, List.take_of_length_le (by omega)] at hent
    refine ⟨_, _, rfl, hread.trans (ht.dirStep hs hghead hg hgdir hne) fun x hx => .inl hx, fun x hx => ?_, by
      rw [hlen]; exact hok.small, hent, ?_⟩
    · rcases Nat.lt_or_ge l.length (fs.bpb.clusFor (fs.lengthFor l required)) with hgrow | hsmall
      · rw [FAT32fs.chainAfter, FAT.chainAfter_grow hgrow]
        exact List.mem_append_left _ hx
      · rw [FAT32fs.chainAfter, FAT.chainAfter_cut hsmall, List.take_of_length_le (by omega)]
        exact hx
    · rw [hent]
      exact runAt_of_search hpos (hzero _) hsearch (by rw [List.length_replicate]; omega)
  · next hfound =>
    obtain ⟨-, rfl, rfl⟩ : true = true ∧ fs = fs' ∧ dir = dir' := by simpa using hrun
    have hsame : fs.chainAfter l (fs.lengthFor l required) = l := by
      rw [FAT32fs.lengthFor, missingEntries, hsearch, Nat.sub_eq_zero_of_le (Nat.not_lt.mp hfound), Nat.zero_mul,
        Nat.add_zero, FAT32fs.chainAfter_self hs.sound]
    refine ⟨l, 0, hsame.symm, .of_same hs rfl hf, fun _ hx => hx, hcap, by
      rw [List.replicate_zero, List.append_nil], ?_⟩
    have hplace := runAt_of_search hpos (hzero 0) hsearch (by rw [List.length_replicate]; omega)
    rwa [List.replicate_zero, List.append_nil] at hplace

end create

/-! ### The new directory -/

/-- A name that can be given to a file: `u` and `gbk` in the two encodings, and its short name `b` is read back. -/
structure NewName (cs : Charset) (name u gbk : List UInt8) (b : BasisName) (is_dir : Bool)
    (now : FatTimeStamp2) : Prop where
  utf16 : cs.utf8ToUtf16 name = some u
  gbk : cs.utf8ToGbk (toUpper name) = some gbk
  long : LongName u
  basis : genBasisNameFromLong cs name = some b
  kept : ShortNameKept b (mkShortDirEntry b is_dir now)

/-- A name that `crtFileInner` can write so that it is read back, whether or not the format allows it. -/
structure StorableName (cs : Charset) (name u gbk : List UInt8) (b : BasisName) (is_dir : Bool)
    (now : FatTimeStamp2) : Prop where
  utf16 : cs.utf8ToUtf16 name = some u
  gbk : cs.utf8ToGbk (toUpper name) = some gbk
  units : UnitName u
  basis : genBasisNameFromLong cs name = some b
  kept : ShortNameKept b (mkShortDirEntry b is_dir now)

theorem NewName.storable {cs : Charset} {name u gbk : List UInt8} {b : BasisName} {is_dir : Bool} {now : FatTimeStamp2}
    (h : NewName cs name u gbk b is_dir now) : StorableName cs name u gbk b is_dir now :=
  ⟨h.utf16, h.gbk, h.long.unitName, h.basis, h.kept⟩

/-- The directory `es'` is `es` with the group `g` at `start`, behind `m` more empty entries. -/
structure GroupAdded (es : List LongDirEntry) (m start : Nat) (g : EntryGroup) (es' : List LongDirEntry) : Prop where
  place : RunAt isEmptyDirEntry (es ++ List.replicate m (LongDirEntry.ofBytes fun _ => 0)) start g.size
  entries : es' = (es ++ List.replicate m (LongDirEntry.ofBytes fun _ => 0)).take start ++ g.entries ++
    (es ++ List.replicate m (LongDirEntry.ofBytes fun _ => 0)).drop (start + g.size)

/-- What creating the file `name` is to do to a directory. -/
structure File.CreatedIn (cs : Charset) (fs : FAT32fs) (dir : File) (l : List Nat) (name : List UInt8)
    (writes : List (Nat × LongDirEntry)) (range : DirEntryRange) (fs' : FAT32fs) (dir' : File)
    (l' : List Nat) : Prop where
  placed : dir'.Placed fs' l'
  found : ∀ now, (dir'.lookupFileInner cs fs' name now).map Prod.fst = some (some range)
  written : ∀ w ∈ writes, (range.start ≤ w.1 ∧ w.1 < range.start + range.count) ∧
    (fs'.dirEntries l')[w.1]? = some w.2
  others : ∀ other ≠ name, ∀ now, (dir'.lookupFileInner cs fs' other now).map Prod.fst =
    (dir.lookupFileInner cs fs other now).map Prod.fst
  live : ∀ (k : Nat) (e : LongDirEntry), (fs.dirEntries l)[k]? = some e → isEmptyDirEntry e = false →
    (fs'.dirEntries l')[k]? = some e
  wellFormed : WellFormedDir (fs'.dirEntries l')
  /-- The clusters added read as empty entries outside the new group. -/
  grown : ∀ (k : Nat) (e : LongDirEntry), (fs.dirEntries l).length ≤ k →
    k < range.start ∨ range.start + range.count ≤ k → (fs'.dirEntries l')[k]? = some e → isEmptyDirEntry e = true

section created

variable {es es' : List LongDirEntry} {m start : Nat} {g : EntryGroup}

theorem GroupAdded.getElem?_outside (h : GroupAdded es m start g es') {k : Nat} (hk : k < start ∨ start + g.size ≤ k) :
    es'[k]? = (es ++ List.replicate m (LongDirEntry.ofBytes fun _ => 0))[k]? := by
  have hle := h.place.le
  rw [h.entries, List.append_assoc]
  rcases hk with hk | hk
  · rw [List.getElem?_append_left (by rw [List.length_take]; omega), List.getElem?_take_of_lt hk]
  · rw [List.getElem?_append_right (by rw [List.length_take]; omega), List.length_take_of_le (by omega),
      List.getElem?_append_right (by rw [EntryGroup.length_entries]; omega), EntryGroup.length_entries,
      List.getElem?_drop]
    congr 1
    omega

theorem GroupAdded.live (h : GroupAdded es m start g es') {k : Nat} {e : LongDirEntry} (hk : es[k]? = some e)
    (he : isEmptyDirEntry e = false) : es'[k]? = some e := by
  have hlt := (List.getElem?_eq_some_iff.mp hk).1
  have hall : (es ++ List.replicate m (LongDirEntry.ofBytes fun _ => 0))[k]? = some e := by
    rw [List.getElem?_append_left hlt, hk]
  rw [h.getElem?_outside ?_, hall]
  by_contra hin
  have := h.place.blanks k (by omega) (by omega) e hall
  rw [he] at this
  exact absurd this Bool.false_ne_true

theorem GroupAdded.grown (h : GroupAdded es m start g es') {k : Nat} {e : LongDirEntry} (hlen : es.length ≤ k)
    (hk : k < start ∨ start + g.size ≤ k) (he : es'[k]? = some e) : isEmptyDirEntry e = true := by
  rw [h.getElem?_outside hk, List.getElem?_append_right hlen] at he
  rw [List.eq_of_mem_replicate (List.mem_of_getElem? he)]
  exact isLstEmpty_zero.2

theorem GroupAdded.layout_blocks (h : GroupAdded es m start g es') {segs : List (Segment LongDirEntry EntryGroup)}
    {tail : List LongDirEntry} (hlay : GroupLayout es segs tail) (htail : ∀ e ∈ tail, isEmptyDirEntry e = true) :
    ∃ segs' tail', GroupLayout es' segs' tail' ∧ (∀ e ∈ tail', isEmptyDirEntry e = true) ∧
      ∃ front back, blocks EntryGroup.entries 0 segs = front ++ back ∧
        blocks EntryGroup.entries 0 segs' = front ++ (start, g) :: back := by
  obtain ⟨hlong, hzeros⟩ := hlay.append_zeros htail m
  obtain ⟨segs', tail', hlay', htail', hblocks⟩ := hlong.insert hzeros g h.place
  rw [← h.entries] at hlay'
  exact ⟨segs', tail', hlay', htail', hblocks⟩

theorem GroupAdded.layout (h : GroupAdded es m start g es') {segs : List (Segment LongDirEntry EntryGroup)}
    {tail : List LongDirEntry} (hlay : DirLayout es segs tail) (htail : ∀ e ∈ tail, isEmptyDirEntry e = true)
    (hfew : g.longs.length ≤ 20) :
    ∃ segs' tail', DirLayout es' segs' tail' ∧ (∀ e ∈ tail', isEmptyDirEntry e = true) ∧ ∀ u gbk,
      (¬ g.Named u gbk → dirLookup segs' u gbk = dirLookup segs u gbk) ∧
      (g.Named u gbk → dirLookup segs u gbk = none → dirLookup segs' u gbk = some ⟨start, g.size⟩) := by
  obtain ⟨segs', tail', hlay', htail', front, back, hblocks, hblocks'⟩ := h.layout_blocks hlay.toGroupLayout htail
  have hold := hlay.few
  rw [hblocks] at hold
  refine ⟨segs', tail', ⟨hlay', ?_⟩, htail', fun u gbk => dirLookup_insert u gbk hblocks hblocks'⟩
  rw [hblocks']
  intro p hp
  rcases List.mem_append.mp hp with hp | hp
  · exact hold p (List.mem_append_left _ hp)
  · rcases List.mem_cons.mp hp with rfl | hp
    · exact hfew
    · exact hold p (List.mem_append_right _ hp)

end created

section created

variable {cs : Charset} {fs fs' : FAT32fs} {heads : Set Nat} {dir dir' file : File} {l : List Nat}
  {name u gbk : List UInt8} {b : BasisName} {is_dir : Bool} {now : FatTimeStamp2}

/-- What `crtFileInner` has done when it returns a file. -/
theorem File.crtFileInner_some (hs : fs.Sane heads) (hhead : dir.fstClus ∈ heads) (hf : dir.Placed fs l)
    (hdir : dir.isDir = true) (hname : StorableName cs name u gbk b is_dir now)
    (hok : fs.CreateOk l (requiredEntryNum u))
    (hrun : dir.crtFileInner cs fs name is_dir now = some (some file, fs', dir')) :
    ∃ l' m start, (l' = fs.chainAfter l (fs.lengthFor l (requiredEntryNum u)) ∧
        start = newPlace (fs.dirEntries l) (requiredEntryNum u) ∧ l'.length * bytesPerClus fs.bpb < 2 ^ 32) ∧
      fs.DirStep heads dir l fs' dir' l' ∧ (∀ x ∈ l, x ∈ l') ∧
      GroupAdded (fs.dirEntries l) m start (newGroup u hname.units b is_dir now hname.kept) (fs'.dirEntries l') ∧
      file = .ofEntry dir.fstClus start name (mkShortDirEntry b is_dir now) := by
  have hsize := newGroup_size hname.units hname.kept
  have hwrites := fun (es : List LongDirEntry) (start : Nat) (hlen : start + requiredEntryNum u ≤ es.length) =>
    writeAll_groupEntries hname.units hname.kept hlen
  have hpos : 0 < requiredEntryNum u := hname.units.required_eq ▸ Nat.succ_pos _
  rw [File.crtFileInner, hname.utf16, Option.bind_eq_bind, Option.bind_some] at hrun
  dsimp only at hrun
  -- the number is not to be computed
  generalize requiredEntryNum u = required at *
  obtain ⟨g, hsame, hg, hsearch⟩ := hf.searchFree_eq hs.toMounted hdir required now.ts
  have hread := FAT32fs.DirStep.of_same hs hsame hg
  rcases hfound : search isEmptyDirEntry required (fs.dirEntries l) 0 (0, 0) with ⟨start, cnt, cur⟩
  rw [hsearch, hfound, Option.bind_eq_bind, Option.bind_some] at hrun
  obtain ⟨⟨ok, fs₁, dir₁⟩, hplace, hrest⟩ := Option.bind_eq_some_iff.mp hrun
  cases ok with
  | false =>
    rw [if_pos (show (!false) = true from rfl)] at hrest
    cases hrest
  | true =>
    obtain ⟨l', m, hchain, hstep, hsub, hcap, hent, hat⟩ := File.allocEntries_some hs (hread.worked.fstClus ▸ hhead) hg
      (hread.worked.isDir.trans hdir) hok hpos hfound hplace
    have hbpb := hstep.bpb
    dsimp only at hrest
    rw [Bool.not_true, if_neg Bool.false_ne_true, hname.basis, Option.bind_eq_bind, Option.bind_some] at hrest
    obtain ⟨⟨fs₂, dir₂⟩, hwrite, hrest⟩ := Option.bind_eq_some_iff.mp hrest
    obtain ⟨hstep', hent'⟩ := File.writeDirEntries_some hstep.sane
      (hstep.worked.fstClus ▸ hread.worked.fstClus ▸ hhead) hstep.placed
      (hstep.worked.isDir.trans (hread.worked.isDir.trans hdir)) (by rwa [hbpb]) (fun w hw => by
        have hle := hat.le
        rw [FAT32fs.length_dirEntries] at hle
        have := groupEntries_places hpos (List.mem_map_of_mem hw)
        omega) hwrite
    have hall := (hread.trans hstep fun x hx => .inl hx).trans hstep' fun x hx => .inr hx
    rw [Option.pure_def, Option.some.injEq, Prod.mk.injEq, Prod.mk.injEq, Option.some.injEq] at hrest
    obtain ⟨rfl, rfl, rfl⟩ := hrest
    rw [hwrites _ _ hat.le] at hent'
    rw [hent] at hat hent'
    have hfst := hall.worked.fstClus
    refine ⟨l', m, if cnt = 0 then cur else start, ⟨hchain, by rw [newPlace, hfound], hcap⟩, hall, hsub, ⟨?_, ?_⟩, ?_⟩
    · rwa [hsize]
    · rwa [hsize]
    · rw [hfst]

/-- When `crtFileInner` returns nothing it has looked at the directory and counted the free clusters. -/
theorem File.crtFileInner_none (hm : fs.Mounted) (hf : dir.Placed fs l) (hdir : dir.isDir = true)
    (hrun : dir.crtFileInner cs fs name is_dir now = some (none, fs', dir')) :
    fs' = { fs with fat := fs.fat.counted fs.table } ∧ dir.Same dir' ∧ dir'.Placed fs l := by
  obtain ⟨u, -, hrun⟩ := Option.bind_eq_some_iff.mp hrun
  dsimp only at hrun
  generalize requiredEntryNum u = required at hrun
  obtain ⟨g, hsame, hg, hsearch⟩ := hf.searchFree_eq hm hdir required now.ts
  obtain ⟨⟨⟨start, cnt, cur⟩, g'⟩, hfound, hrun⟩ := Option.bind_eq_some_iff.mp hrun
  obtain rfl : g = g' := congrArg Prod.snd (Option.some.inj (hsearch.symm.trans hfound))
  obtain ⟨⟨ok, fs₁, dir₁⟩, halloc, hrest⟩ := Option.bind_eq_some_iff.mp hrun
  cases ok with
  | true =>
    dsimp only at hrest
    rw [Bool.not_true, if_neg Bool.false_ne_true] at hrest
    obtain ⟨b, -, hrest⟩ := Option.bind_eq_some_iff.mp hrest
    obtain ⟨⟨fs₂, dir₂⟩, -, hrest⟩ := Option.bind_eq_some_iff.mp hrest
    simp at hrest
  | false =>
    rw [if_pos (show (!false) = true from rfl), Option.pure_def, Option.some.injEq, Prod.mk.injEq,
      Prod.mk.injEq] at hrest
    obtain ⟨-, rfl, rfl⟩ := hrest
    rw [File.allocEntries] at halloc
    split at halloc
    · have hgdir : g.isDir = true := by
        rw [hsame]
        exact hdir
      obtain ⟨⟨g₁, hsz, hsame₁, hg₁⟩, -⟩ := hg.sized_dir hm hgdir
      rw [hsz, Option.bind_eq_bind, Option.bind_some] at halloc
      obtain ⟨-, rfl, rfl⟩ := File.truncate_fails hm hg₁.chain halloc
      exact ⟨rfl, hsame.trans hsame₁, hg₁⟩
    · simp at halloc

/-- Without clusters for the entries `crtFileInner` returns nothing. -/
theorem File.crtFileInner_refused (hm : fs.Mounted) (hf : dir.Placed fs l) (hdir : dir.isDir = true)
    (hu : cs.utf8ToUtf16 name = some u) (hrefuses : fs.Refuses l (requiredEntryNum u)) :
    dir.crtFileInner cs fs name is_dir now ≠ some (some file, fs', dir') := by
  intro hrun
  obtain ⟨hsmall, hfull⟩ := hrefuses
  rw [File.crtFileInner, hu, Option.bind_eq_bind, Option.bind_some] at hrun
  dsimp only at hrun
  generalize requiredEntryNum u = required at *
  obtain ⟨g, hsame, hg, hsearch⟩ := hf.searchFree_eq hm hdir required now.ts
  rcases hfound : search isEmptyDirEntry required (fs.dirEntries l) 0 (0, 0) with ⟨start, cnt, cur⟩
  rw [hsearch, hfound, Option.bind_eq_bind, Option.bind_some] at hrun
  obtain ⟨⟨ok, fs₁, dir₁⟩, halloc, hrest⟩ := Option.bind_eq_some_iff.mp hrun
  have hlength : l.length * bytesPerClus fs.bpb + (required - cnt) * kDirEntrySize = fs.lengthFor l required := by
    rw [FAT32fs.lengthFor, missingEntries, hfound]
  have hgdir : g.isDir = true := hsame.worked.isDir.trans hdir
  obtain ⟨⟨g₁, hsz, hsame₁, hg₁⟩, -⟩ := hg.sized_dir hm hgdir
  have hcap : l.length * bytesPerClus fs.bpb < 2 ^ 32 := by omega
  rw [u32_of_lt hcap] at hsz
  rw [File.allocEntries] at halloc
  split at halloc
  · rw [hsz, Option.bind_eq_bind, Option.bind_some] at halloc
    dsimp only at halloc
    rw [hlength, u32_of_lt hsmall, File.truncate_eq hm.sound] at halloc
    have hnum : l.length < fs.bpb.clusFor (fs.lengthFor l required) := by omega
    rw [hm.represents.resize_full (hm.bpb.symm ▸ hg₁.chain) hnum hfull, Option.bind_some, if_neg Bool.false_ne_true,
      Option.some.injEq, Prod.mk.injEq] at halloc
    obtain rfl := halloc.1
    rw [if_pos (show (!false) = true from rfl)] at hrest
    cases hrest
  · next hroom =>
    -- the directory is long enough
    rw [Nat.sub_eq_zero_of_le (Nat.not_lt.mp hroom), Nat.zero_mul, Nat.add_zero] at hlength
    rw [← hlength, hm.sound.clusFor_mul, Nat.sub_self] at hfull
    exact Nat.not_lt_zero _ hfull

theorem File.Placed.lookup_fst (hm : fs.Mounted) (hf : dir.Placed fs l) (hdir : dir.isDir = true)
    {segs : List (Segment LongDirEntry EntryGroup)} {tail : List LongDirEntry}
    (h : GroupLayout (fs.dirEntries l) segs tail) (cs : Charset) (name : List UInt8) (now : FatTimeStamp) :
    (dir.lookupFileInner cs fs name now).map Prod.fst =
      (cs.utf8ToUtf16 name).bind fun u => (cs.utf8ToGbk (toUpper name)).map fun gbk => dirLookup segs u gbk := by
  obtain ⟨g, -, -, hrun⟩ := hf.lookupFileInner_eq hm hdir h cs name now
  rw [hrun]
  cases cs.utf8ToUtf16 name <;> cases cs.utf8ToGbk (toUpper name) <;> rfl

theorem File.crtFileInner_found (hs : fs.Sane heads) (hhead : dir.fstClus ∈ heads) (hf : dir.Placed fs l)
    (hdir : dir.isDir = true) {segs : List (Segment LongDirEntry EntryGroup)} {tail : List LongDirEntry}
    (hlay : GroupLayout (fs.dirEntries l) segs tail) (htail : ∀ e ∈ tail, isEmptyDirEntry e = true)
    (hname : StorableName cs name u gbk b is_dir now)
    (habsent : (dir.lookupFileInner cs fs name now.ts).map Prod.fst = some none)
    (hok : fs.CreateOk l (requiredEntryNum u))
    (hrun : dir.crtFileInner cs fs name is_dir now = some (some file, fs', dir')) (at_ : FatTimeStamp) :
    (dir'.lookupFileInner cs fs' name at_).map Prod.fst = some (some ⟨file.fstEntryNum, requiredEntryNum u⟩) := by
  have hsize := newGroup_size hname.units hname.kept
  obtain ⟨l', m, start, -, hstep, -, hadded, rfl⟩ := File.crtFileInner_some hs hhead hf hdir hname hok hrun
  obtain ⟨segs', tail', hlay', -, front, back, hblocks, hblocks'⟩ := hadded.layout_blocks hlay htail
  rw [hf.lookup_fst hs.toMounted hdir hlay, hname.utf16, hname.gbk, Option.bind_some, Option.map_some,
    Option.some.injEq] at habsent
  rw [hstep.placed.lookup_fst hstep.sane.toMounted (hstep.worked.isDir.trans hdir) hlay', hname.utf16, hname.gbk,
    Option.bind_some, Option.map_some, (dirLookup_insert u gbk hblocks hblocks').2 (newGroup_named.mpr rfl) habsent, hsize]
  rfl

end created

/-- A file that is created in a well-formed directory is found where it was written, and nothing else changes, when the directory stays small and grows by free clusters only. -/
theorem File.crtFileInner_correct (cs : Charset)
    (hinj : ∀ name other u, cs.utf8ToUtf16 name = some u → cs.utf8ToUtf16 other = some u → name = other)
    (fs : FAT32fs) (heads : Set Nat) (dir : File) (l : List Nat) (hs : fs.Sane heads)
    (hhead : dir.fstClus ∈ heads) (hf : dir.Placed fs l) (hdir : dir.isDir = true)
    (hwf : WellFormedDir (fs.dirEntries l)) (name u gbk : List UInt8) (b : BasisName) (is_dir : Bool)
    (now : FatTimeStamp2) (hname : NewName cs name u gbk b is_dir now)
    (habsent : (dir.lookupFileInner cs fs name now.ts).map Prod.fst = some none)
    (hok : fs.CreateOk l (requiredEntryNum u)) (file : File) (fs' : FAT32fs) (dir' : File)
    (hrun : dir.crtFileInner cs fs name is_dir now = some (some file, fs', dir')) :
    ∃ l', dir.CreatedIn cs fs l name
      (groupEntries file.fstEntryNum (requiredEntryNum u) (chkSum b) u (mkShortDirEntry b is_dir now))
      ⟨file.fstEntryNum, requiredEntryNum u⟩ fs' dir' l' := by
  obtain ⟨segs, tail, hlay, htail⟩ := hwf
  have hstored := hname.storable
  have hfound := File.crtFileInner_found hs hhead hf hdir hlay.toGroupLayout htail hstored habsent hok hrun
  have hpos : 0 < requiredEntryNum u := hstored.units.required_eq ▸ Nat.succ_pos _
  have hsize := newGroup_size hstored.units hname.kept
  obtain ⟨l', m, start, -, hstep, -, hadded, rfl⟩ := File.crtFileInner_some hs hhead hf hdir hstored hok hrun
  obtain ⟨segs', tail', hlay', htail', hlookup⟩ := hadded.layout hlay htail (newGroup_few hname.long)
  have hnew := fun other now => hstep.placed.lookup_fst hstep.sane.toMounted (hstep.worked.isDir.trans hdir)
    hlay'.toGroupLayout cs other now
  have hold := fun other now => hf.lookup_fst hs.toMounted hdir hlay.toGroupLayout cs other now
  have hwrites := writeAll_groupEntries hstored.units hname.kept (hsize ▸ hadded.place.le)
  refine ⟨l', hstep.placed, hfound, fun w hw => ?_, fun other hne at_ => ?_, fun k e hk he => hadded.live hk he,
    ⟨segs', tail', hlay', htail'⟩, fun k e hlen hk he => hadded.grown hlen (by rw [hsize]; exact hk) he⟩
  · have hplace := groupEntries_places hpos (List.mem_map_of_mem hw)
    refine ⟨hplace, ?_⟩
    rw [hadded.entries, hsize]
    rw [← hwrites]
    refine getElem?_writeAll_of_mem (groupEntries_nodup hpos) hw ?_
    have hle := hadded.place.le
    rw [hsize] at hle
    exact Nat.lt_of_lt_of_le hplace.2 hle
  · rw [hnew, hold]
    cases hother : cs.utf8ToUtf16 other with
    | none => rfl
    | some u' =>
      have hnot : ∀ gbk', ¬ (newGroup u hstored.units b is_dir now hname.kept).Named u' gbk' := fun gbk' hnamed => by
        rw [newGroup_named] at hnamed
        exact hne (hinj other name u' hother (hnamed ▸ hname.utf16))
      rw [Option.bind_some, Option.bind_some]
      congr 1
      ext1 gbk'
      exact (hlookup u' gbk').1 (hnot gbk')

/-! A directory of twelve files in the first of two clusters, and the hint the allocation starts with. -/

def listedEntry (i : Nat) : ShortDirEntry :=
  ⟨Vector.ofFn fun j => if j.val = 0 then UInt8.ofNat (0x41 + i) else 0x20, 0x20, 0, ⟨0, 0, 0⟩, 0, 0, ⟨0, 0⟩, 0, 0⟩

def listedFs (hint : Nat) : FAT32fs :=
  ⟨smallBpb, { (smallRun (smallTable [2, 4])).fat with freeCount := hint },
    (List.range 12).foldl (fun d i => d.write 34 (kDirEntrySize * i) (listedEntry i).bytes)
      (smallRun (smallTable [2, 4])).device⟩

theorem listedEntry_isShort (i : Fin 12) : isEmptyDirEntry (castShortDirEntryToLong (listedEntry i)) = false ∧
    isLongDirEntry (castShortDirEntryToLong (listedEntry i)) = false := by
  revert i
  decide +kernel

def listedGroup (i : Fin 12) : EntryGroup := .ofShort _ (listedEntry_isShort i).1 (listedEntry_isShort i).2

theorem Device.value_foldl_write_of_ne {sector s : Nat} (h : s ≠ sector) (offset : Nat → Nat) (buf : Nat → List UInt8)
    (i : Nat) : ∀ (is : List Nat) (d : Device),
    (is.foldl (fun d i => d.write sector (offset i) (buf i)) d).value s i = d.value s i := by
  intro is
  induction is with
  | nil => exact fun _ => rfl
  | cons j is ih => exact fun d => (ih _).trans (Device.value_write_of_ne _ _ _ _ h i)

private theorem Device.secCnt_foldl_write (sector : Nat) (offset : Nat → Nat) (buf : Nat → List UInt8) : ∀ (is : List Nat)
    (d : Device), (is.foldl (fun d i => d.write sector (offset i) (buf i)) d).secCnt = d.secCnt := by
  intro is
  induction is with
  | nil => exact fun _ => rfl
  | cons j is ih => exact fun d => ih _

theorem listedFs_sane (hint : Nat) : (listedFs hint).Sane {2} ∧ rootDir.Placed (listedFs hint) [2, 4] := by
  obtain ⟨hh, hplaced⟩ := scatteredFs_healthy
  -- the entries lie behind the FAT
  obtain ⟨hs, htable⟩ := hh.sane.of_data (listedFs hint).device rfl fun s hlow => funext fun i => by
    have hlt : s < 34 := Nat.lt_of_lt_of_le hlow (by decide)
    exact (Device.value_foldl_write_of_ne (Nat.ne_of_lt hlt) _ _ i _ _).trans
      (Device.value_write_of_ne _ _ _ _ (by omega) i).symm
  obtain ⟨⟨hwf, -⟩, howners⟩ := hs
  have hplaced := hplaced.of_data htable
  exact ⟨⟨⟨⟨hwf.sound, hwf.startSecNo, hwf.fatSecNum, hwf.cntOfClus, hwf.fits, hwf.reserved⟩, rfl⟩, howners⟩,
    hplaced.chain, hplaced.cache⟩

/-- A root directory in cluster 2 with the entries `buf i` at the places `is`, and a chain `l`. -/
def filedFs (l : List Nat) (is : List Nat) (buf : Nat → List UInt8) : FAT32fs :=
  ⟨smallBpb, (smallRun (link (smallTable [2]) kFat32EocMark l)).fat,
    is.foldl (fun d i => d.write 34 (kDirEntrySize * i) (buf i))
      (smallRun (link (smallTable [2]) kFat32EocMark l)).device⟩

theorem filedFs_sane {l : List Nat} (hnodup : (3 :: l).Nodup) (hdata : ∀ x ∈ 3 :: l, 3 ≤ x ∧ x < 8)
    (is : List Nat) (buf : Nat → List UInt8) :
    (filedFs (3 :: l) is buf).Sane {3, 2} ∧ rootDir.Placed (filedFs (3 :: l) is buf) [2] ∧
      Walk (filedFs (3 :: l) is buf).table Eoc 3 (3 :: l) := by
  have hT : ∀ n, link (smallTable [2]) kFat32EocMark (3 :: l) n < 2 ^ 28 := fun n =>
    link_induction (p := fun v => v < 2 ^ 28) (by decide)
      (fun x hx => Nat.lt_trans (hdata x hx).2 (by decide)) (smallTable_lt (by decide)) n
  have hgood : ∀ x ∈ 3 :: l, smallBpb.DataClus x := fun x hx => by
    have := hdata x hx
    have hcnt : smallBpb.clusCnt = 6 := by decide
    exact ⟨by omega, by omega⟩
  have hlive : ∀ x ∈ 3 :: l, ¬ Eoc x := fun x hx => smallBpb_sound.not_endOfClusChain (hgood x hx)
  have hout : ∀ x < 3, x ∉ 3 :: l := fun x hlt hx => absurd (hdata x hx).1 (Nat.not_le.mpr hlt)
  have hroot : Walk (smallTable [2]) Eoc 2 [2] := walk_cons.mpr ⟨rfl, by decide, walk_nil.mpr (by decide)⟩
  have hone : Owners (smallTable [2]) Eoc smallBpb.DataClus {2} := by
    refine ⟨?_, ?_, ?_⟩
    · rintro head rfl
      exact ⟨[2], hroot, by decide⟩
    · rintro head rfl
      decide
    · rintro head rfl other rfl hne
      exact absurd rfl hne
  have heoc : Eoc kFat32EocMark := by decide
  have htwo := hone.link_fresh heoc hnodup hgood hlive fun h hh l' hw x hx hmem => by
    obtain rfl : h = 2 := hh
    rw [hw.unique hroot, List.mem_singleton] at hmem
    exact hout x (by omega) hx
  have hrep := smallRun_represents hT (by rw [link_of_notMem (hout 0 (by decide))]; decide)
    (by rw [link_of_notMem (hout 1 (by decide))]; decide)
  have hentry : ∀ x, smallBpb.DataClus x →
      (smallRun (link (smallTable [2]) kFat32EocMark (3 :: l))).table x = link (smallTable [2]) kFat32EocMark (3 :: l) x :=
    fun x hx => hrep.entry x hx.2
  have hs : FAT32fs.Sane ⟨smallBpb, (smallRun (link (smallTable [2]) kFat32EocMark (3 :: l))).fat,
      (smallRun (link (smallTable [2]) kFat32EocMark (3 :: l))).device⟩ {3, 2} :=
    ⟨⟨hrep.wellFormed, rfl⟩, htwo.frame fun h hh l' hw x hx => hentry x (htwo.good_of_mem hh hw hx)⟩
  -- the entries lie behind the FAT
  have hdir : getFirstDataSector smallBpb ≤ 34 := by decide
  obtain ⟨hs', htable⟩ := hs.of_data (filedFs (3 :: l) is buf).device (Device.secCnt_foldl_write _ _ _ _ _) fun s hlow =>
    funext fun i => Device.value_foldl_write_of_ne (Nat.ne_of_lt (Nat.lt_of_lt_of_le hlow hdir)) _ _ i _ _
  have hdata2 : smallBpb.DataClus 2 := by decide
  have hkept : ∀ x, smallBpb.DataClus x → (filedFs (3 :: l) is buf).table x = link (smallTable [2]) kFat32EocMark (3 :: l) x :=
    fun x hx => (htable x hx).trans (hentry x hx)
  refine ⟨hs', ⟨.inr ⟨hdata2, ?_, fun x hx => List.mem_singleton.mp hx ▸ hdata2⟩, .inl rfl⟩, ?_⟩
  · refine hroot.frame fun x hx => ?_
    obtain rfl := List.mem_singleton.mp hx
    rw [hkept 2 hdata2, link_of_notMem (hout 2 (by decide))]
  · exact (walk_link hnodup heoc hlive).frame fun x hx => hkept x (hgood x hx)

/-- The entries of the twelve files. -/
def listedSegs : List (Segment LongDirEntry EntryGroup) := (List.finRange 12).map fun i => .block (listedGroup i)

theorem listedFs_layout (hint : Nat) : DirLayout ((listedFs hint).dirEntries [2, 4]) listedSegs
    (List.replicate 20 (LongDirEntry.ofBytes fun _ => 0)) := by
  have hflat : (listedFs 0).dirEntries [2, 4] = Segments.flat EntryGroup.entries listedSegs ++
      List.replicate 20 (LongDirEntry.ofBytes fun _ => 0) := by decide +kernel
  refine .of_short ⟨hflat, fun e he => ?_, fun e he => ?_⟩ fun g hg => ?_
  · obtain ⟨i, -, hi⟩ := List.mem_map.mp he
    cases hi
  · rw [List.eq_of_mem_replicate (List.mem_of_mem_head? he)]
    exact isLstEmpty_zero.1
  · obtain ⟨i, -, hi⟩ := List.mem_map.mp hg
    cases hi
    rfl

theorem blocks_listedSegs : blocks EntryGroup.entries 0 listedSegs =
    (List.finRange 12).map fun i => (i.val, listedGroup i) := rfl

theorem mem_blocks_listedSegs {p : Nat × EntryGroup} (hp : p ∈ blocks EntryGroup.entries 0 listedSegs) :
    ∃ i : Fin 12, (i.val, listedGroup i) = p := by
  rw [blocks_listedSegs] at hp
  obtain ⟨i, -, hi⟩ := List.mem_map.mp hp
  exact ⟨i, hi⟩

theorem listedFs_wellFormed (hint : Nat) : WellFormedDir ((listedFs hint).dirEntries [2, 4]) := by
  refine ⟨_, _, listedFs_layout hint, fun e he => ?_⟩
  rw [List.eq_of_mem_replicate he]
  exact isLstEmpty_zero.2

/-- A name of 255 letters. -/
def longestName : List UInt8 := List.replicate 255 0x62

theorem longestName_new : NewName asciiCharset longestName (longestName.flatMap fun c => [c, 0x00])
    (toUpper longestName) (.fill (List.replicate 8 0x42) []) false ⟨0, ⟨0, 0⟩⟩ :=
  ⟨by decide +kernel, by decide +kernel, ⟨by decide +kernel, by decide +kernel, by decide +kernel⟩,
    by decide +kernel, ⟨by decide +kernel, by decide +kernel, by decide +kernel⟩⟩

theorem longestName_absent {hint : Nat} (h : hint = 2 ∨ hint = 0xFFFFFFFF) :
    (rootDir.lookupFileInner asciiCharset (listedFs hint) longestName ⟨0, 0⟩).map Prod.fst = some none := by
  rcases h with rfl | rfl <;> decide +kernel

theorem asciiCharset_utf16_injective (name other u : List UInt8) (h : asciiCharset.utf8ToUtf16 name = some u)
    (h' : asciiCharset.utf8ToUtf16 other = some u) : name = other := by
  simp only [asciiCharset] at h h'
  split_ifs at h h'
  have hsame := (Option.some.inj h).trans (Option.some.inj h').symm
  clear h h'
  induction name generalizing other with
  | nil => cases other <;> simp_all
  | cons c name ih =>
    cases other with
    | nil => simp at hsame
    | cons c' other =>
      simp only [List.flatMap_cons, List.cons_append, List.cons.injEq, true_and, List.nil_append] at hsame
      rw [hsame.1, ih _ _ _ hsame.2] <;> simp_all

theorem File.crtFileInner_correct_longest_name : ∃ file fs' dir' l',
    rootDir.crtFileInner asciiCharset (listedFs 0xFFFFFFFF) longestName false ⟨0, ⟨0, 0⟩⟩ =
      some (some file, fs', dir') ∧
    rootDir.CreatedIn asciiCharset (listedFs 0xFFFFFFFF) [2, 4] longestName
      (groupEntries file.fstEntryNum 21 (chkSum (.fill (List.replicate 8 0x42) []))
        (longestName.flatMap fun c => [c, 0x00])
        (mkShortDirEntry (.fill (List.replicate 8 0x42) []) false ⟨0, ⟨0, 0⟩⟩))
      ⟨file.fstEntryNum, 21⟩ fs' dir' l' := by
  have hsome : ((rootDir.crtFileInner asciiCharset (listedFs 0xFFFFFFFF) longestName false ⟨0, ⟨0, 0⟩⟩).bind
      Prod.fst).isSome = true := by decide +kernel
  obtain ⟨file, hfile⟩ := Option.isSome_iff_exists.mp hsome
  obtain ⟨⟨_, fs', dir'⟩, hrun, rfl⟩ := Option.bind_eq_some_iff.mp hfile
  have hrequired : requiredEntryNum (longestName.flatMap fun c => [c, 0x00]) = 21 := by decide +kernel
  obtain ⟨l', hcreated⟩ := File.crtFileInner_correct asciiCharset asciiCharset_utf16_injective (listedFs 0xFFFFFFFF) {2}
    rootDir [2, 4] (listedFs_sane _).1 (Set.mem_singleton 2) (listedFs_sane _).2 rfl (listedFs_wellFormed _) _ _ _ _
    false ⟨0, ⟨0, 0⟩⟩ longestName_new (longestName_absent (.inr rfl))
    ⟨by rw [hrequired]; decide +kernel, fun _ => .inl rfl⟩ file fs' dir' hrun
  rw [hrequired] at hcreated
  exact ⟨file, fs', dir', l', hrun, hcreated⟩

/-- The free count of the volume is 2, the allocation starts with cluster 2, and the names in it are lost with the new one. -/
theorem File.not_crtFileInner_correct_hint : (listedFs 2).Sane {2} ∧ rootDir.Placed (listedFs 2) [2, 4] ∧
    WellFormedDir ((listedFs 2).dirEntries [2, 4]) ∧
    NewName asciiCharset longestName (longestName.flatMap fun c => [c, 0x00]) (toUpper longestName)
      (.fill (List.replicate 8 0x42) []) false ⟨0, ⟨0, 0⟩⟩ ∧
    (rootDir.lookupFileInner asciiCharset (listedFs 2) longestName ⟨0, 0⟩).map Prod.fst = some none ∧
    ∃ file fs' dir', rootDir.crtFileInner asciiCharset (listedFs 2) longestName false ⟨0, ⟨0, 0⟩⟩ =
        some (some file, fs', dir') ∧
      ∀ writes range l', ¬ rootDir.CreatedIn asciiCharset (listedFs 2) [2, 4] longestName writes range fs' dir' l' := by
  have hlost : ((rootDir.crtFileInner asciiCharset (listedFs 2) longestName false ⟨0, ⟨0, 0⟩⟩).bind fun r =>
      r.1.bind fun _ => (r.2.2.lookupFileInner asciiCharset r.2.1 longestName ⟨0, 0⟩).map Prod.fst) =
        some none := by decide +kernel
  obtain ⟨⟨result, fs', dir'⟩, hrun, hlost⟩ := Option.bind_eq_some_iff.mp hlost
  obtain ⟨file, rfl, hlost⟩ := Option.bind_eq_some_iff.mp hlost
  refine ⟨(listedFs_sane 2).1, (listedFs_sane 2).2, listedFs_wellFormed 2, longestName_new,
    longestName_absent (.inl rfl),
    file, fs', dir', hrun, fun writes range l' hcreated => ?_⟩
  have hfound := hcreated.found ⟨0, 0⟩
  rw [hlost] at hfound
  cases hfound

end FuseFat32
