import FuseFat32.Fs.DirWork
import FuseFat32.Fs.Dropped
import FuseFat32.Fs.Listing

/-!
# Creating that comes to nothing

`crtFile` gives up when the directory cannot grow. `crtDir` may also find no cluster for the new directory, when its name has been written already. It removes the name again, and the object it has made writes its times to the first entry of the group once more when it is destroyed. The directory shows what it showed before, as long as that entry is where the object looks for it.
-/

namespace FuseFat32

open LinkedTable Segments

/-! ### What is left behind -/

/-- What a listing shows of a directory: where the groups are, and their names. -/
def Driver.listing (cs : Charset) (s : Driver) (dir : File) (now : FatTimeStamp) :
    Exec (List (DirEntryRange × List UInt8)) :=
  (s.listFiles cs now slotFuel dir 0).map fun r => r.1.map fun x => (x.1, x.2.name)

/-- The files of the directory can be listed: their names are convertible, and their first clusters are 0 or among `heads`. -/
structure File.Browsable (cs : Charset) (heads : Set Nat) (dir : File)
    (segs : List (Segment LongDirEntry EntryGroup)) : Prop where
  names : ∀ p ∈ blocks EntryGroup.entries 0 segs, (p.2.name cs).isSome = true
  owned : ∀ p ∈ blocks EntryGroup.entries 0 segs, p.2.short.FirstIn heads
  /-- None of them is the directory itself. -/
  self : ∀ p ∈ blocks EntryGroup.entries 0 segs, groupIno dir.fstClus p ≠ dir.ino

/-- No byte of the device has changed, the chain of the directory is the one it was, and so is the map. -/
structure Driver.Untouched (s : Driver) (dir : File) (l : List Nat) (s' : Driver) (dir' : File) : Prop where
  device : s'.fs.device = s.fs.device
  bpb : s'.fs.bpb = s.fs.bpb
  /-- The free clusters may have been counted. -/
  fat : s'.fs.fat = s.fs.fat.counted s.fs.table
  dir : dir.Same dir'
  placed : dir'.Placed s'.fs l
  files : s'.files = s.files

/-- The directory shows what it showed, the other files have what they had, and the map has no new object. The map may have dropped objects for the new one: `fs₁` is the volume once they have been destroyed. -/
structure Driver.Undone (cs : Charset) (s : Driver) (heads : Set Nat) (dir : File) (l : List Nat)
    (segs : List (Segment LongDirEntry EntryGroup)) (name : List UInt8) (now : FatTimeStamp2) (fs₁ : FAT32fs)
    (s' : Driver) (dir' : File) (l' : List Nat) : Prop where
  dropped : ∃ files, (∀ f ∈ files, ∃ k, (k, f) ∈ s.files.list) ∧ s.fs.destroyAll files = some fs₁
  retouched : s.fs.Retouched fs₁
  sane : s'.fs.Sane heads
  worked : dir.Worked dir'
  placed : dir'.Placed s'.fs l'
  wellFormed : ∃ segs' tail', GroupLayout (s'.fs.dirEntries l') segs' tail' ∧ ∀ e ∈ tail', isEmptyDirEntry e = true
  lookups : ∀ other now, (dir'.lookupFileInner cs s'.fs other now).map Prod.fst =
    (dir.lookupFileInner cs s.fs other now).map Prod.fst
  listing : dir.Browsable cs heads segs → ∀ (t t' : Driver), t.fs = s.fs → t.Belongs cs heads → t'.fs = s'.fs →
    t'.Belongs cs heads → ∀ now, t'.listing cs dir' now = t.listing cs dir now
  live : ∀ (k : Nat) (e : LongDirEntry), isEmptyDirEntry e = false →
    ((s'.fs.dirEntries l')[k]? = some e ↔ (fs₁.dirEntries l)[k]? = some e)
  others : fs₁.KeepsOthers heads dir.fstClus s'.fs
  files : ∀ pair ∈ s'.files.list, pair ∈ s.files.list
  /-- The object for the new name is not among them. -/
  gone : ∀ file fs₂ dir₂, dir.crtFileInner cs s.fs name true now = some (some file, fs₂, dir₂) →
    ∀ pair ∈ s'.files.list, pair.1 ≠ file.ino

/-- A group of `required` entries can be put in the directory with chain `l` and taken out again: when it is to start in a cluster that is still to come, that cluster lies where a count of sectors from the first one expects it. -/
structure FAT32fs.UndoOk (fs : FAT32fs) (l : List Nat) (required : Nat) : Prop extends fs.CreateOk l required where
  inOrder : fs.bpb.dirSlots l ≤ newPlace (fs.dirEntries l) required →
    fs.bpb.SlotsInOrder (fs.chainAfter l (fs.lengthFor l required)) (newPlace (fs.dirEntries l) required) 0

/-! ### Calls that return nothing -/

section calls

variable {cs : Charset} {s s' : Driver} {held : List Nat} {dir dir' file : File} {name : List UInt8} {is_dir : Bool}
  {now : FatTimeStamp2}

theorem Driver.crtFileInner_none (hrun : s.crtFileInner cs dir name is_dir now = some (none, dir', s')) :
    ∃ fs', dir.crtFileInner cs s.fs name is_dir now = some (none, fs', dir') ∧ s' = ⟨fs', s.files⟩ := by
  obtain ⟨⟨result, fs₁, dir₁⟩, hinner, hrest⟩ := Option.bind_eq_some_iff.mp hrun
  cases result with
  | none =>
    obtain ⟨rfl, rfl⟩ := by simpa using hrest
    exact ⟨fs₁, hinner, rfl⟩
  | some file =>
    obtain ⟨s₁, -, hrest⟩ := Option.bind_eq_some_iff.mp hrest
    simp at hrest

theorem Driver.crtFileInner_some (hrun : s.crtFileInner cs dir name is_dir now = some (some file, dir', s')) :
    ∃ fs₁ fs₂, dir.crtFileInner cs s.fs name is_dir now = some (some file, fs₁, dir') ∧
      fs₁.destroyAll ((s.files.put file.ino file).2.filter fun f => f.ino ∉ [dir'.ino]) = some fs₂ ∧
      s' = ⟨fs₂, (s.files.put file.ino file).1⟩ := by
  obtain ⟨⟨result, fs₁, dir₁⟩, hinner, hrest⟩ := Option.bind_eq_some_iff.mp hrun
  cases result with
  | none => simp at hrest
  | some file₁ =>
    obtain ⟨s₁, hput, hrest⟩ := Option.bind_eq_some_iff.mp hrest
    obtain ⟨rfl, rfl, rfl⟩ := by simpa using hrest
    obtain ⟨fs₂, hdestroy, hs⟩ := Option.bind_eq_some_iff.mp hput
    exact ⟨fs₁, fs₂, hinner, hdestroy, (Option.some.inj hs).symm⟩

theorem Driver.delFile_true {now : FatTimeStamp} (hrun : s.delFile cs held dir name now = some (true, dir', s')) :
    ∃ range fs₁, dir.delFile cs s.fs name now = some (some range, fs₁, dir') ∧
      Driver.rmFileFromCacheByIno ⟨fs₁, s.files⟩ held (dir'.fstClus * 2 ^ 32 + range.start) = some s' := by
  obtain ⟨⟨result, fs₁, dir₁⟩, hinner, hrest⟩ := Option.bind_eq_some_iff.mp hrun
  cases result with
  | none => simp at hrest
  | some range =>
    obtain ⟨s₁, hrm, hrest⟩ := Option.bind_eq_some_iff.mp hrest
    obtain ⟨rfl, rfl⟩ := by simpa using hrest
    exact ⟨range, fs₁, hinner, hrm⟩

/-- `crtDir` has no place for the name, or no cluster for the directory. -/
theorem Driver.crtDir_none (hrun : s.crtDir cs dir name now = some (none, dir', s')) :
    s.crtFileInner cs dir name true now = some (none, dir', s') ∨
      ∃ file dir₁ s₁ fs₂ file' s₃, s.crtFileInner cs dir name true now = some (some file, dir₁, s₁) ∧
        file.truncate s₁.fs (bytesPerClus s₁.fs.bpb) = some (false, fs₂, file') ∧
        Driver.delFile cs ⟨fs₂, s₁.files⟩ [dir₁.ino, file'.ino] dir₁ name now.ts = some (true, dir', s₃) ∧
        s₃.release file' = some s' := by
  obtain ⟨⟨result, dir₁, s₁⟩, hcreate, hrest⟩ := Option.bind_eq_some_iff.mp hrun
  cases result with
  | none =>
    obtain ⟨rfl, rfl⟩ := by simpa using hrest
    exact .inl hcreate
  | some file =>
    obtain ⟨⟨ok, fs₂, file'⟩, htrunc, hrest⟩ := Option.bind_eq_some_iff.mp hrest
    cases ok with
    | false =>
      obtain ⟨⟨deleted, dir₂, s₃⟩, hdel, hrest⟩ := Option.bind_eq_some_iff.mp hrest
      cases deleted with
      | false => cases hrest
      | true =>
        obtain ⟨-, -, hrest⟩ := Option.bind_eq_some_iff.mp hrest
        obtain ⟨s₄, hrelease, hrest⟩ := Option.bind_eq_some_iff.mp hrest
        obtain ⟨rfl, rfl⟩ := by simpa using hrest
        exact .inr ⟨file, dir₁, s₁, fs₂, file', s₃, hcreate, htrunc, hdel, hrelease⟩
    | true =>
      obtain ⟨⟨ok, fs₃, file₃⟩, -, hrest⟩ := Option.bind_eq_some_iff.mp hrest
      obtain ⟨-, -, hrest⟩ := Option.bind_eq_some_iff.mp hrest
      obtain ⟨⟨ok, fs₄, file₄⟩, -, hrest⟩ := Option.bind_eq_some_iff.mp hrest
      obtain ⟨-, -, hrest⟩ := Option.bind_eq_some_iff.mp hrest
      simp at hrest

end calls

/-! ### Layouts with the same groups -/

section layouts

variable {cs : Charset} {es es' tail tail' : List LongDirEntry} {segs segs' : List (Segment LongDirEntry EntryGroup)}
  {k : Nat} {e e' : LongDirEntry}

/-- What an empty entry holds behind its first byte is of no account. -/
theorem GroupLayout.set_blank (h : GroupLayout es segs tail) (hk : es[k]? = some e) (he : isEmptyDirEntry e = true)
    (hord : e'.ord = e.ord) : ∃ segs' tail', GroupLayout (es.set k e') segs' tail' ∧
      blocks EntryGroup.entries 0 segs' = blocks EntryGroup.entries 0 segs ∧ ∀ x ∈ tail', x ∈ tail ∨ x = e' := by
  have hflat := h.flat
  rw [hflat] at hk
  rw [hflat]
  by_cases hin : k < (Segments.flat EntryGroup.entries segs).length
  · rw [List.getElem?_append_left hin] at hk
    obtain ⟨segs', hsame, hblocks, hmem, hold⟩ := flat_set_blank EntryGroup.solid he e' hk
    refine ⟨segs', tail, ⟨?_, fun x hx => ?_, h.marker⟩, hblocks 0, fun x hx => .inl hx⟩
    · rw [List.set_append_left _ _ hin, hsame]
    · rcases hold x hx with hx | rfl
      · exact h.deleted x hx
      · exact hord.trans (h.deleted e hmem)
  · have hin := Nat.not_lt.mp hin
    rw [List.getElem?_append_right hin] at hk
    refine ⟨segs, tail.set (k - (Segments.flat EntryGroup.entries segs).length) e', ⟨?_, h.deleted, fun x hx => ?_⟩, rfl,
      fun x hx => List.mem_or_eq_of_mem_set hx⟩
    · rw [List.set_append_right _ _ hin]
    · -- the marker stays a marker
      generalize k - (Segments.flat EntryGroup.entries segs).length = j at hk hx
      have hmarker := h.marker
      cases tail with
      | nil => cases hx
      | cons a tail =>
        have ha := hmarker a rfl
        cases j with
        | zero =>
          obtain rfl : a = e := by simpa using hk
          obtain rfl : e' = x := by simpa using hx
          simp only [isLstEmptyDirEntry, decide_eq_true_eq] at ha ⊢
          rw [hord, ha]
        | succ j =>
          obtain rfl : a = x := by simpa using hx
          exact ha

private theorem GroupLayout.exists_group (h : GroupLayout es segs tail) (htail : ∀ e ∈ tail, isEmptyDirEntry e = true)
    (he : isEmptyDirEntry e = false) (hk : es[k]? = some e) :
    ∃ p ∈ blocks EntryGroup.entries 0 segs, p.1 ≤ k ∧ k < p.1 + p.2.size := by
  rcases Nat.lt_or_ge k (Segments.flat EntryGroup.entries segs).length with hin | hout
  · exact (h.live_iff hin hk).mp he
  · rw [h.flat, List.getElem?_append_right hout] at hk
    rw [htail e (List.mem_of_getElem? hk)] at he
    cases he

theorem GroupLayout.live_of_blocks (h : GroupLayout es segs tail) (htail : ∀ e ∈ tail, isEmptyDirEntry e = true)
    (h' : GroupLayout es' segs' tail') (hblocks : blocks EntryGroup.entries 0 segs' = blocks EntryGroup.entries 0 segs)
    (he : isEmptyDirEntry e = false) (hk : es[k]? = some e) : es'[k]? = some e := by
  obtain ⟨⟨p, g⟩, hp, hlow, hhigh⟩ := h.exists_group htail he hk
  obtain ⟨i, rfl⟩ := Nat.exists_eq_add_of_le hlow
  have hi : i < g.size := Nat.lt_of_add_lt_add_left hhigh
  rw [h'.getElem?_block (hblocks.symm ▸ hp) hi, ← h.getElem?_block hp hi, hk]

end layouts

/-! ### The object that has been abandoned -/

section abandoned

variable {cs : Charset} {fs fs₁ fs' : FAT32fs} {heads : Set Nat} {dir dir' f : File} {l l' lf : List Nat} {n : Nat}
  {required : Nat} {now : FatTimeStamp2}

private theorem FAT32fs.UndoOk.place_inOrder (h : fs.UndoOk l required) (hs : fs.bpb.Sound) (hseq : Consecutive l) :
    fs.bpb.SlotsInOrder (fs.chainAfter l (fs.lengthFor l required)) (newPlace (fs.dirEntries l) required) 0 := by
  rcases Nat.lt_or_ge (newPlace (fs.dirEntries l) required) (fs.bpb.dirSlots l) with hold | hnew
  · have hcap := h.capacity_lt hs
    exact (BPB.slotsInOrder_prefix (fs.prefix_chainAfter hs l required) (hs.slot_clus_lt hcap hold)).mp
      (hseq.slotsInOrder hs hcap hold)
  · exact h.inOrder hnew

/-- An object whose group has been removed writes its metadata to the entry that is left in the place of the first one, and leaves the first byte of it. -/
theorem File.sync_abandoned (hs : fs.Sane heads) (hf : dir.Placed fs l) (hcap : l.length * bytesPerClus fs.bpb < 2 ^ 32)
    (hn : n < fs.bpb.dirSlots l) (horder : fs.bpb.SlotsInOrder l n 0) (hshort : isLongDirEntry (fs.entryAt l n) = false)
    (hplaced : f.Placed fs lf) (hparent : f.parentClus = dir.fstClus) (hnum : f.fstEntryNum = n)
    (hdel : f.isDeleted = false) : ∃ fs' f' e, f.destructor fs = some (fs', f') ∧ e.ord = (fs.entryAt l n).ord ∧
      fs.DirStep heads dir l fs' dir l ∧ fs.Beside fs' ∧ fs'.dirEntries l = (fs.dirEntries l).set n e := by
  have hm := hs.toMounted
  have hin : kDirEntrySize * (n + 0 + 1) ≤ u32 (l.length * bytesPerClus fs.bpb) := by
    rw [← hs.sound.dirSlots_mul l]
    exact Nat.mul_le_mul_left _ hn
  have hslots := ((slots_order_iff hm hf hin).mpr horder).trans (entrySlots_eq hm hf hin)
  have hgroup : GroupAt fs.device ((List.range (0 + 1)).map fun j => fs.bpb.slot l (n + j)) :=
    groupAt_map.mpr ⟨fun j hj => absurd hj (Nat.not_lt_zero j), hshort⟩
  obtain ⟨d', f', hrun, hcnt, hentry, hkept⟩ := File.sync_updates (f := { f with isDir := false }) hm hf hin hslots hgroup ⟨hplaced.chain, hplaced.cache⟩ hparent hnum hdel
  rw [Nat.add_zero] at hentry hkept
  obtain ⟨hstep, hent⟩ := hf.stored_entry hs hcap hn hcnt (BPB.stores_entry hentry hkept)
  have hlow := (BPB.slot_bounds hs.sound hf.chain.data (slots_inside hin 0 le_rfl).1).1
  refine ⟨_, f', _, hrun, ?_, hstep, .of_data hs.sound hcnt fun s hs => funext fun i => hkept s i fun k _ heq => ?_, hent⟩
  · rw [ord_castShortDirEntryToLong, ← ord_castLongDirEntryToShort, File.name0_updated]
  · exact absurd (congrArg Prod.fst heq) (hs.trans_le hlow).ne

theorem readEntryClusNo_mkShortDirEntry (b : BasisName) (is_dir : Bool) (now : FatTimeStamp2) :
    readEntryClusNo (mkShortDirEntry b is_dir now) = 0 := by
  simp [readEntryClusNo, mkShortDirEntry, setFstClusNo]

theorem File.ofEntry_new_placed (fs : FAT32fs) (parent_clus n : Nat) (name : List UInt8) (b : BasisName) (is_dir : Bool)
    (now : FatTimeStamp2) : (File.ofEntry parent_clus n name (mkShortDirEntry b is_dir now)).Placed fs [] :=
  ⟨.inl ⟨readEntryClusNo_mkShortDirEntry b is_dir now, rfl⟩, .inl rfl⟩

theorem FAT32fs.DirStep.counted (hs : fs.Sane heads) (hf : dir.Placed fs l) :
    fs.DirStep heads dir l { fs with fat := fs.fat.counted fs.table } dir l :=
  ⟨rfl, rfl, ⟨⟨(FAT.represents_counted.mpr hs.represents).wellFormed, hs.bpb⟩, hs.owners⟩, ⟨hf.chain, hf.cache⟩,
    fun _ _ _ _ _ _ _ => rfl, fun _ _ _ _ => Iff.rfl, fun _ _ _ _ _ _ => rfl⟩

end abandoned

/-! ### Browsing -/

section browsing

variable {cs : Charset} {heads : Set Nat} {fs fs₁ fs' : FAT32fs} {s t : Driver} {dir dir' : File} {l : List Nat}
  {segs segs' : List (Segment LongDirEntry EntryGroup)} {tail tail' : List LongDirEntry} {p q : Nat × EntryGroup}

theorem EntryGroup.name_of_key (h : groupKey q = groupKey p) : q.2.name cs = p.2.name cs := by
  have hlongs : q.2.longs = p.2.longs := congrArg (fun key => key.2.1) h
  have hshort : q.2.shortName = p.2.shortName := congrArg (fun key => key.2.2) h
  rw [EntryGroup.name, EntryGroup.name, EntryGroup.longName, EntryGroup.longName, hlongs, hshort]

/-- What a listing is to show of a group. -/
def EntryGroup.shown (cs : Charset) (p : Nat × EntryGroup) : DirEntryRange × List UInt8 :=
  (groupRange p, (p.2.name cs).getD [])

private theorem EntryGroup.shown_of_keys {gs gs' : List (Nat × EntryGroup)} (h : gs'.map groupKey = gs.map groupKey) :
    gs'.map (EntryGroup.shown cs) = gs.map (EntryGroup.shown cs) := by
  have hpairs : List.Forall₂ (fun q p => groupKey q = groupKey p) gs' gs := by
    rw [← List.forall₂_map_left_iff (f := groupKey) (R := fun key p => key = groupKey p), h, List.forall₂_map_left_iff,
      List.forall₂_same]
    exact fun _ _ => rfl
  rw [← List.forall₂_eq_eq_eq, List.forall₂_map_left_iff, List.forall₂_map_right_iff]
  refine hpairs.imp fun q p hkey => ?_
  have hstart : q.1 = p.1 := congrArg (fun key : Nat × List LongDirEntry × List UInt8 => key.1) hkey
  have hlongs : q.2.longs = p.2.longs := congrArg (fun key => key.2.1) hkey
  rw [EntryGroup.shown, EntryGroup.shown, groupRange, groupRange, EntryGroup.name_of_key hkey, EntryGroup.size,
    EntryGroup.size, hstart, hlongs]

/-- The listing shows the groups, whatever the map has. -/
theorem File.Browsable.listing (h : dir.Browsable cs heads segs) (hb : t.Belongs cs heads) (hs : t.fs.Sane heads)
    (hf : dir.Placed t.fs l) (hdir : dir.isDir = true) (hhead : dir.fstClus ∈ heads)
    (hlay : GroupLayout (t.fs.dirEntries l) segs tail) (htail : ∀ e ∈ tail, isEmptyDirEntry e = true)
    (horder : ∀ p ∈ blocks EntryGroup.entries 0 segs, t.fs.bpb.SlotsInOrder l p.1 p.2.longs.length)
    (now : FatTimeStamp) :
    t.listing cs dir now = some ((blocks EntryGroup.entries 0 segs).map (EntryGroup.shown cs)) := by
  have howners := hs.owners
  rw [hs.bpb] at howners
  obtain ⟨files, dir', t', hrun, hfiles⟩ := hb.listFiles hs hf hdir hhead hlay htail
    ⟨horder, fun p hp => exists_chainOf howners (h.owned p hp)⟩ h.names h.self now
  have hshown := congrArg (List.map fun x : DirEntryRange × Option (List UInt8) => (x.1, x.2.getD [])) hfiles
  rw [List.map_map, List.map_map] at hshown
  rw [Driver.listing, hrun]
  exact congrArg some hshown

theorem File.Worked.ino (h : dir.Worked dir') : dir'.ino = dir.ino := by rw [h, File.ino, File.ino]

theorem File.Browsable.retouched (h : dir.Browsable cs heads segs) (hworked : dir.Worked dir')
    (hlay : GroupLayout (fs.dirEntries l) segs tail) (hr : FAT32fs.RetouchedBy heads fs fs₁)
    (hlay' : GroupLayout (fs₁.dirEntries l) segs' tail')
    (hkeys : (blocks EntryGroup.entries 0 segs').map groupKey = (blocks EntryGroup.entries 0 segs).map groupKey) :
    dir'.Browsable cs heads segs' := by
  have hold : ∀ p ∈ blocks EntryGroup.entries 0 segs', ∃ q ∈ blocks EntryGroup.entries 0 segs, groupKey q = groupKey p := by
    intro p hp
    have hmem : groupKey p ∈ (blocks EntryGroup.entries 0 segs).map groupKey := hkeys ▸ List.mem_map_of_mem hp
    exact List.mem_map.mp hmem
  have hshort : ∀ {fs : FAT32fs} {segs tail} {p : Nat × EntryGroup}, GroupLayout (fs.dirEntries l) segs tail →
      p ∈ blocks EntryGroup.entries 0 segs → fs.entryAt l (p.1 + p.2.longs.length) = p.2.short := by
    intro fs segs tail p hlay hp
    obtain ⟨-, hentries, -⟩ := hlay.liveGroup hp
    have hlast := congrArg List.getLast? hentries
    simpa [List.range_succ, EntryGroup.entries] using hlast
  refine ⟨fun p hp => ?_, fun p hp => ?_, fun p hp => ?_⟩
  · obtain ⟨q, hq, hkey⟩ := hold p hp
    rw [← EntryGroup.name_of_key hkey]
    exact h.names q hq
  · obtain ⟨q, hq, hkey⟩ := hold p hp
    have hstart : q.1 = p.1 := congrArg (fun key : Nat × List LongDirEntry × List UInt8 => key.1) hkey
    have hlongs : q.2.longs = p.2.longs := congrArg (fun key => key.2.1) hkey
    have hentry := hr.first (fs.bpb.slot l (p.1 + p.2.longs.length)) (BPB.slot_aligned ..)
    have hnew := hshort hlay' hp
    have hwas := hshort hlay hq
    rw [FAT32fs.entryAt, hr.bpb] at hnew
    rw [FAT32fs.entryAt, hstart, hlongs] at hwas
    rw [hnew, hwas] at hentry
    rcases hentry with hsame | hfirst
    · rw [hsame]
      exact h.owned q hq
    · exact hfirst
  · obtain ⟨q, hq, hkey⟩ := hold p hp
    have hstart : q.1 = p.1 := congrArg (fun key : Nat × List LongDirEntry × List UInt8 => key.1) hkey
    have hne := h.self q hq
    rwa [groupIno, hstart, ← hworked.fstClus, ← hworked.ino] at hne

end browsing

/-! ### Nothing is left of the new name -/

section undone

variable {cs : Charset} {files files' : FileMap} {fs fs₁ fs₂ fs₃ fs' : FAT32fs} {heads : Set Nat}
  {dir dir₁ dir' file file' f' : File} {l l₁ : List Nat} {name u gbk : List UInt8} {b : BasisName} {now : FatTimeStamp2} {range : DirEntryRange}
  {segs xs zs : List (Segment LongDirEntry EntryGroup)} {tail : List LongDirEntry} {front back : List (Nat × EntryGroup)} {start pad : Nat}
  {g g' : EntryGroup}

private theorem blocks_split (h : blocks EntryGroup.entries 0 (xs ++ .block g :: zs) = front ++ (start, g') :: back)
    (hstart : (Segments.flat EntryGroup.entries xs).length = start) : g = g' ∧
      blocks EntryGroup.entries 0 xs = front ∧
      blocks EntryGroup.entries ((Segments.flat EntryGroup.entries xs).length + g.size) zs = back := by
  have hsplit : blocks EntryGroup.entries 0 (xs ++ .block g :: zs) = blocks EntryGroup.entries 0 xs ++
      (start, g) :: blocks EntryGroup.entries ((Segments.flat EntryGroup.entries xs).length + g.size) zs := by
    rw [blocks_append, blocks, Nat.zero_add, EntryGroup.length_entries, hstart]
  have hpair := (blocks_pairwise EntryGroup.entries (xs ++ .block g :: zs) 0).1
  rw [hsplit, List.pairwise_append, List.pairwise_cons] at hpair
  obtain ⟨-, ⟨hback, -⟩, hfront⟩ := hpair
  rw [hsplit] at h
  have hall := (List.append_cons_inj_of_notMem (fun hmem => ?_) (fun hmem => ?_)).mp h
  · exact ⟨congrArg Prod.snd hall.2.1, hall.1, hall.2.2⟩
  · have := hfront _ hmem _ List.mem_cons_self
    rw [EntryGroup.length_entries] at this
    have hpos : 0 < g'.size := Nat.succ_pos _
    dsimp only at this
    omega
  · have := hback _ hmem
    rw [EntryGroup.length_entries] at this
    have hpos : 0 < g.size := Nat.succ_pos _
    dsimp only at this
    omega

theorem GroupGone.first {es tail : List LongDirEntry} (h : GroupGone xs g zs tail es) : ∃ e,
    es[(Segments.flat EntryGroup.entries xs).length]? = some e ∧ isLongDirEntry e = false ∧ isEmptyDirEntry e = true := by
  obtain ⟨e, rest, rfl, hshort, -, hor⟩ := h
  refine ⟨e, by rw [List.getElem?_append_right le_rfl, Nat.sub_self, List.getElem?_cons_zero], hshort, ?_⟩
  rcases hor with ⟨rfl, -⟩ | ⟨-, hempty, -⟩
  · exact isEmpty_deletedEntry
  · exact hempty

/-- The directory when the new name has been removed from it, and nobody else notices. -/
structure FAT32fs.Removed (fs : FAT32fs) (heads : Set Nat) (dir : File) (segs : List (Segment LongDirEntry EntryGroup))
    (l₁ : List Nat) (fs' : FAT32fs) (dir' : File) (l' : List Nat) : Prop where
  bpb : fs'.bpb = fs.bpb
  sane : fs'.Sane heads
  worked : dir.Worked dir'
  placed : dir'.Placed fs' l'
  pre : l' <+: l₁
  layout : ∃ segs' tail', GroupLayout (fs'.dirEntries l') segs' tail' ∧ (∀ e ∈ tail', isEmptyDirEntry e = true) ∧
    blocks EntryGroup.entries 0 segs' = blocks EntryGroup.entries 0 segs
  others : fs.KeepsOthers heads dir.fstClus fs'

/-- The entry a group started at is still there, and its content is of no account. -/
structure FAT32fs.LeftBehind (fs : FAT32fs) (l : List Nat) (start : Nat) : Prop where
  inside : start < fs.bpb.dirSlots l
  short : isLongDirEntry (fs.entryAt l start) = false
  blank : isEmptyDirEntry (fs.entryAt l start) = true

/-- `delFile` removes the group that has been added. -/
theorem FAT32fs.Grown.delFile (hname : StorableName cs name u gbk b true now)
    (h : fs.Grown heads dir l pad start (newGroup u hname.units b true now hname.kept) fs₁ dir₁ l₁) (hs : fs.Sane heads)
    (hhead : dir.fstClus ∈ heads) (hf : dir.Placed fs l) (hdir : dir.isDir = true)
    (hlay : GroupLayout (fs.dirEntries l) segs tail) (htail : ∀ e ∈ tail, isEmptyDirEntry e = true)
    (habsent : dirLookup segs u gbk = none)
    (hdel : dir₁.delFile cs { fs₁ with fat := fs₁.fat.counted fs₁.table } name now.ts = some (some range, fs₃, dir')) :
    range.start = start ∧ ∃ l', fs.Removed heads dir segs l₁ fs₃ dir' l' ∧ fs₃.LeftBehind l' start := by
  have hstep₁ := h.step
  obtain ⟨segs₁, tail₁, hlay₁, htail₁, front, back, hblocks, hblocks₁⟩ := h.added.layout_blocks hlay htail
  have hhead₁ : dir₁.fstClus ∈ heads := hstep₁.worked.fstClus ▸ hhead
  have hdir₁ : dir₁.isDir = true := hstep₁.worked.isDir.trans hdir
  have hcounted := FAT32fs.DirStep.counted hstep₁.sane hstep₁.placed
  obtain ⟨u', gbk', xs, g, zs, l₃, hu', hgbk', hfound, rfl, hnamed, hrange, hstep₃, hpre, hin, hgone, hempty⟩ :=
    File.delFile_some hcounted.sane hhead₁ hcounted.placed hdir₁ (hstep₁.bpb.symm ▸ h.small) hlay₁ hdel
  obtain rfl : u = u' := Option.some.inj (hname.utf16.symm.trans hu')
  obtain rfl : gbk = gbk' := Option.some.inj (hname.gbk.symm.trans hgbk')
  -- the group that has been removed is the new one
  have hlookup := (dirLookup_insert u gbk hblocks hblocks₁).2 (newGroup_named.mpr rfl) habsent
  obtain rfl := Option.some.inj (hfound.symm.trans hlookup)
  have hstart : start = (Segments.flat EntryGroup.entries xs).length := congrArg DirEntryRange.start hrange
  obtain ⟨-, hxs, hzs⟩ := blocks_split hblocks₁ hstart.symm
  obtain ⟨segs₃, tail₃, hlay₃, hblocks₃, htail₃⟩ := hgone.layout hlay₁
  rw [hxs, hzs, ← hblocks] at hblocks₃
  have hin₃ : start < fs₃.bpb.dirSlots l₃ := by
    rw [hstart, hstep₃.bpb]
    exact hin
  obtain ⟨e, hat, hshort, he⟩ := hgone.first
  rw [← hstart] at hat
  obtain rfl : fs₃.entryAt l₃ start = e := Option.some.inj ((FAT32fs.getElem?_dirEntries hin₃).symm.trans hat)
  have hothers : fs.KeepsOthers heads dir.fstClus _ := (hstep₁.keepsOthers hs hhead hf).trans
    (hstep₁.worked.fstClus ▸ hcounted.keepsOthers hstep₁.sane hhead₁ hstep₁.placed) hstep₁.bpb
  exact ⟨rfl, l₃, ⟨hstep₃.bpb.trans hstep₁.bpb, hstep₃.sane, hstep₁.worked.trans hstep₃.worked, hstep₃.placed, hpre,
    ⟨segs₃, tail₃, hlay₃, fun e he => (htail₃ e he).elim (htail₁ e) fun h => hempty h.1 htail₁ e h.2, hblocks₃⟩,
    hothers.trans (hstep₁.worked.fstClus ▸ hstep₃.keepsOthers hcounted.sane hhead₁ hcounted.placed) hstep₁.bpb⟩,
    hin₃, hshort, he⟩

/-- The abandoned object writes to the entry that is left of its group. -/
theorem FAT32fs.Removed.destroy {l' : List Nat} (h : fs.Removed heads dir segs l₁ fs₃ dir' l')
    (hleft : fs₃.LeftBehind l' start) (hhead : dir.fstClus ∈ heads) (hcap : l₁.length * bytesPerClus fs.bpb < 2 ^ 32)
    (horder : fs.bpb.SlotsInOrder l₁ start 0)
    (hsync : (File.ofEntry dir.fstClus start name (mkShortDirEntry b true now)).destructor fs₃ = some (fs', f')) :
    fs.Removed heads dir segs l₁ fs' dir' l' := by
  have hfst : dir'.fstClus = dir.fstClus := h.worked.fstClus
  have hcap' : l'.length * bytesPerClus fs₃.bpb < 2 ^ 32 := by
    rw [h.bpb]
    exact Nat.lt_of_le_of_lt (Nat.mul_le_mul_right _ h.pre.length_le) hcap
  have horder' : fs₃.bpb.SlotsInOrder l' start 0 := by
    have hlt := h.sane.sound.slot_clus_lt hcap' hleft.inside
    rw [BPB.slotsInOrder_prefix h.pre hlt, h.bpb]
    exact horder
  obtain ⟨fs₄, f₄, e, hrun, hord, hstep, -, hent⟩ := File.sync_abandoned h.sane h.placed hcap' hleft.inside horder' hleft.short
    (File.ofEntry_new_placed fs₃ dir.fstClus start name b true now) hfst.symm rfl rfl
  obtain ⟨rfl, -⟩ := Prod.mk.inj (Option.some.inj (hrun.symm.trans hsync))
  have hblank : isEmptyDirEntry e = true := by
    have hwas := hleft.blank
    rwa [isEmptyDirEntry, ← hord] at hwas
  obtain ⟨segs₃, tail₃, hlay₃, htail₃, hblocks₃⟩ := h.layout
  obtain ⟨segs₄, tail₄, hlay₄, hblocks₄, htail₄⟩ :=
    hlay₃.set_blank (FAT32fs.getElem?_dirEntries hleft.inside) hleft.blank hord
  rw [← hent] at hlay₄
  exact ⟨hstep.bpb.trans h.bpb, hstep.sane, h.worked, hstep.placed, h.pre,
    ⟨segs₄, tail₄, hlay₄, fun x hx => (htail₄ x hx).elim (htail₃ x) fun heq => heq ▸ hblank, hblocks₄.trans hblocks₃⟩,
    h.others.trans (hfst ▸ hstep.keepsOthers h.sane (hfst ▸ hhead) h.placed) h.bpb⟩

/-- Directories whose scans see the same have the same lookups. -/
theorem File.Placed.lookup_of_keys {segs' : List (Segment LongDirEntry EntryGroup)} {tail' : List LongDirEntry}
    {l' : List Nat} (hm : fs.Mounted) (hf : dir.Placed fs l) (hdir : dir.isDir = true)
    (h : GroupLayout (fs.dirEntries l) segs tail) (hm' : fs'.Mounted) (hf' : dir'.Placed fs' l') (hdir' : dir'.isDir = true)
    (h' : GroupLayout (fs'.dirEntries l') segs' tail')
    (hkeys : (blocks EntryGroup.entries 0 segs').map groupKey = (blocks EntryGroup.entries 0 segs).map groupKey)
    (name : List UInt8) (now : FatTimeStamp) : (dir'.lookupFileInner cs fs' name now).map Prod.fst =
      (dir.lookupFileInner cs fs name now).map Prod.fst := by
  rw [hf.lookup_fst hm hdir h, hf'.lookup_fst hm' hdir' h']
  have hsame : ∀ u gbk, dirLookup segs' u gbk = dirLookup segs u gbk := fun u gbk => find_named_of_keys hkeys u gbk
  simp only [hsame]

end undone

/-! ### The map -/

section map

variable {cs : Charset} {s s' : Driver} {heads : Set Nat} {held : List Nat} {dir dir' dir₁ file : File} {fs' : FAT32fs}
  {l l₁ : List Nat} {pad start ino : Nat} {g : EntryGroup}

theorem Driver.Belongs.absent (hb : s.Belongs cs heads) (hf : dir.Placed s.fs l)
    (h : s.fs.Grown heads dir l pad start g fs' dir₁ l₁) : ∀ p ∈ s.files.list, p.1 ≠ dir.fstClus * 2 ^ 32 + start := by
  intro p hp heq
  have hsound := h.step.sane.sound
  have hstart : start < fs'.bpb.dirSlots l₁ := by
    have hle := h.added.place.le
    have hlen : (fs'.dirEntries l₁).length = _ := congrArg List.length h.added.entries
    simp only [List.length_append, List.length_take, List.length_drop, EntryGroup.length_entries, FAT32fs.length_dirEntries]
      at hlen hle
    have hpos : 0 < g.size := Nat.succ_pos _
    omega
  have hlt : start < 2 ^ 32 := by
    have hbytes := hsound.entry_lt hstart.le
    simp only [kDirEntrySize] at hbytes
    omega
  obtain ⟨lc, m, hgroup⟩ := (hb.objects p hp).group
  rw [heq, show (dir.fstClus * 2 ^ 32 + start) / 2 ^ 32 = dir.fstClus by omega,
    show (dir.fstClus * 2 ^ 32 + start) % 2 ^ 32 = start by omega] at hgroup
  obtain rfl : lc = l := hgroup.chain.unique hf.chain
  have hin : start < s.fs.bpb.dirSlots lc := by
    have hslots := hgroup.inside
    have hmul := hsound.dirSlots_mul lc
    rw [h.step.bpb] at hmul
    rw [← hmul] at hslots
    have hle := Nat.le_of_mul_le_mul_left hslots (by decide)
    omega
  have hblank := h.added.place.blanks start le_rfl (Nat.lt_add_of_pos_right (Nat.succ_pos _)) (s.fs.entryAt lc start) (by
    rw [List.getElem?_append_left (by rwa [FAT32fs.length_dirEntries]), FAT32fs.getElem?_dirEntries hin])
  have hlive := hgroup.live.nonempty 0 (Nat.zero_le m)
  rw [Nat.add_zero, hblank] at hlive
  cases hlive

theorem Driver.Belongs.dropped (hb : s.Belongs cs heads) (habsent : ∀ p ∈ s.files.list, p.1 ≠ ino) :
    ∀ f ∈ (s.files.put ino file).2, ∃ k, (k, f) ∈ s.files.list := by
  obtain ⟨dropped, hdropped, hlist, -⟩ := LRUCacheMap.put_of_absent habsent file
  intro f hf
  rw [hdropped] at hf
  obtain ⟨p, hp, rfl⟩ := List.mem_map.mp hf
  have hall : p ∈ (ino, file) :: s.files.list := hlist ▸ List.mem_append_right _ hp
  refine ⟨p.1, (List.mem_cons.mp hall).resolve_left fun heq => ?_⟩
  have hnodup : (((s.files.put ino file).1.list ++ dropped).map Prod.fst).Nodup := by
    rw [hlist, List.map_cons, List.nodup_cons]
    exact ⟨fun hmem => (List.mem_map.mp hmem).elim fun q hq => habsent q hq.1 hq.2, hb.distinct⟩
  rw [List.map_append] at hnodup
  exact List.disjoint_of_nodup_append hnodup
    (List.mem_map_of_mem (LRUCacheMap.mem_put_self hb.room ino file)) (heq ▸ List.mem_map_of_mem hp)

/-- An object that the caller holds is taken out of the map, and lives on. -/
theorem Driver.rmFileFromCacheByIno_held (h : ∀ p ∈ s.files.list, p.1 = ino → p.2.ino ∈ held)
    (hrun : s.rmFileFromCacheByIno held ino = some s') : s' = ⟨s.fs, (s.files.remove ino).2⟩ := by
  rw [Driver.rmFileFromCacheByIno] at hrun
  generalize hremove : s.files.remove ino = removed at hrun
  obtain ⟨fs', hdestroy, hs⟩ := Option.bind_eq_some_iff.mp hrun
  have hnone : ((s.files.remove ino).1.toList.filter fun f => f.ino ∉ held) = [] := by
    rw [List.filter_eq_nil_iff]
    intro f hf
    rw [Option.mem_toList, LRUCacheMap.remove] at hf
    split at hf
    · next p hfind =>
      obtain rfl := Option.some.inj hf
      simpa using h p (List.mem_of_find?_eq_some hfind) (by simpa using List.find?_some hfind)
    · cases hf
  rw [hremove] at hnone
  rw [hnone, FAT32fs.destroyAll, Option.some.injEq] at hdestroy
  rw [← Option.some.inj hs, ← hdestroy]

end map

/-! ### What a client finds afterwards -/

section driver

variable {cs : Charset} {s s' : Driver} {heads : Set Nat} {dir dir' : File} {l : List Nat}
  {name u gbk : List UInt8} {b : BasisName} {is_dir : Bool} {now : FatTimeStamp2}
  {segs : List (Segment LongDirEntry EntryGroup)} {tail : List LongDirEntry}

private theorem Driver.untouched_of_none (hm : s.fs.Mounted) (hf : dir.Placed s.fs l) (hdir : dir.isDir = true)
    (hrun : s.crtFileInner cs dir name is_dir now = some (none, dir', s')) : s.Untouched dir l s' dir' := by
  obtain ⟨fs', hinner, rfl⟩ := Driver.crtFileInner_none hrun
  obtain ⟨rfl, hsame, hplaced⟩ := File.crtFileInner_none hm hf hdir hinner
  exact ⟨rfl, rfl, rfl, hsame, ⟨hplaced.chain, hplaced.cache⟩, rfl⟩

private theorem Driver.undone_of_none (hs : s.fs.Sane heads) (hhead : dir.fstClus ∈ heads) (hf : dir.Placed s.fs l)
    (hdir : dir.isDir = true) (hseq : Consecutive l) (hcap : l.length * bytesPerClus s.fs.bpb < 2 ^ 32)
    (hlay : GroupLayout (s.fs.dirEntries l) segs tail) (htail : ∀ e ∈ tail, isEmptyDirEntry e = true)
    (hrun : s.crtFileInner cs dir name true now = some (none, dir', s')) :
    s.Undone cs heads dir l segs name now s.fs s' dir' l := by
  obtain ⟨fs', hinner, rfl⟩ := Driver.crtFileInner_none hrun
  obtain ⟨rfl, hsame, hplaced⟩ := File.crtFileInner_none hs.toMounted hf hdir hinner
  have hstep := (FAT32fs.DirStep.of_same hs hsame hplaced).trans (.counted hs hplaced) fun x hx => .inl hx
  have hdir' := hstep.worked.isDir.trans hdir
  have horder : ∀ p ∈ blocks EntryGroup.entries 0 segs, s.fs.bpb.SlotsInOrder l p.1 p.2.longs.length := fun p hp =>
    hseq.slotsInOrder hs.sound hcap (hlay.liveGroup hp).1
  refine ⟨⟨[], fun _ h => absurd h List.not_mem_nil, rfl⟩, .refl s.fs, hstep.sane, hstep.worked, hstep.placed,
    ⟨segs, tail, hlay, htail⟩, hf.lookup_of_keys hs.toMounted hdir hlay hstep.sane.toMounted hstep.placed hdir' hlay rfl,
    ?_, fun _ _ _ => Iff.rfl, hstep.keepsOthers hs hhead hf, fun _ h => h, fun file fs₂ dir₂ hrun' => ?_⟩
  · rintro hbrowse ⟨_, map⟩ ⟨_, map'⟩ rfl hb rfl hb' now
    rw [hbrowse.listing hb hs hf hdir hhead hlay htail horder now,
      (hbrowse.retouched hstep.worked hlay (.refl heads s.fs) hlay rfl).listing hb' hstep.sane hstep.placed hdir'
        (hstep.worked.fstClus ▸ hhead) hlay htail horder now]
  · cases hinner.symm.trans hrun'

/-- The name has been written and removed again. -/
theorem Driver.undone_of_removed (hs : s.fs.Sane heads) (hhead : dir.fstClus ∈ heads) (hf : dir.Placed s.fs l)
    (hdir : dir.isDir = true) (hseq : Consecutive l) (hlay : GroupLayout (s.fs.dirEntries l) segs tail)
    (htail : ∀ e ∈ tail, isEmptyDirEntry e = true) (hb : s.Belongs cs heads)
    (howned : ∀ p ∈ s.files.list, p.2.fstClus = 0 ∨ p.2.fstClus ∈ heads) (hname : StorableName cs name u gbk b true now)
    (habsent : (dir.lookupFileInner cs s.fs name now.ts).map Prod.fst = some none)
    (hok : s.fs.UndoOk l (requiredEntryNum u)) {file dir₁ file' : File} {s₁ s₃ : Driver} {fs₂ : FAT32fs}
    (hcreate : s.crtFileInner cs dir name true now = some (some file, dir₁, s₁))
    (htrunc : file.truncate s₁.fs (bytesPerClus s₁.fs.bpb) = some (false, fs₂, file'))
    (hdel : Driver.delFile cs ⟨fs₂, s₁.files⟩ [dir₁.ino, file'.ino] dir₁ name now.ts = some (true, dir', s₃))
    (hrelease : s₃.release file' = some s') :
    ∃ fs₁ l', s.Undone cs heads dir l segs name now fs₁ s' dir' l' := by
  obtain ⟨fsc, fsd, hinner, hdestroy, rfl⟩ := Driver.crtFileInner_some hcreate
  obtain ⟨l₁, pad, start, ⟨hchain, hplace, hcap₁⟩, hstep, -, hadded, hfile⟩ :=
    File.crtFileInner_some hs hhead hf hdir hname hok.toCreateOk hinner
  have hino : file.ino = dir.fstClus * 2 ^ 32 + start := by
    rw [hfile]
    rfl
  have hgrown : s.fs.Grown heads dir l pad start _ fsc dir₁ l₁ :=
    ⟨hstep, hchain ▸ s.fs.prefix_chainAfter hs.sound l _, hcap₁, hadded⟩
  have hnew := hb.absent hf hgrown
  rw [← hino] at hnew
  -- the objects that the map drops for the new one
  obtain ⟨fs₁, fsd', hdropped, hdestroy', hby, -, hgrown₁⟩ := FAT32fs.Grown.destroyAll cs
    ((s.files.put file.ino file).2.filter fun f => f.ino ∉ [dir₁.ino]) hgrown hs hhead hf fun f hf => by
      obtain ⟨k, hk⟩ := hb.dropped hnew f (List.mem_of_mem_filter hf)
      exact ⟨⟨k, hb.objects _ hk⟩, howned _ hk⟩
  obtain rfl := Option.some.inj (hdestroy.symm.trans hdestroy')
  have hr := hby.toRetouched
  have hs₁ := (hr.sane hs).1
  have hf₁ := hr.placed hs.toMounted hf
  obtain ⟨segs₁, tail₁, hlay₁, htail₁, hkeys⟩ := hlay.kept htail (hr.dirEntries l)
  have habsent₁ : dirLookup segs₁ u gbk = none := by
    rw [hf.lookup_fst hs.toMounted hdir hlay, hname.utf16, hname.gbk, Option.bind_some, Option.map_some,
      Option.some.injEq] at habsent
    exact (find_named_of_keys hkeys u gbk).trans habsent
  -- no cluster for the directory, and the name is removed
  obtain ⟨-, rfl, hsame⟩ := File.truncate_fails hgrown₁.step.sane.toMounted
    (hfile ▸ File.ofEntry_new_placed fsd dir.fstClus start name b true now).chain htrunc
  rw [hsame] at hdel hrelease
  obtain ⟨range, fs₃, hdel', hrm⟩ := Driver.delFile_true hdel
  obtain ⟨rfl, l', hremoved, hleft⟩ := hgrown₁.delFile hname hs₁ hhead hf₁ hdir hlay₁ htail₁ habsent₁ hdel'
  rw [hremoved.worked.fstClus, ← hino] at hrm
  obtain rfl := Driver.rmFileFromCacheByIno_held (fun p hp heq => by
    rcases LRUCacheMap.mem_put hp with rfl | hp
    · simp
    · exact absurd heq (hnew p hp)) hrm
  -- the object is destroyed
  have hgone : ∀ p ∈ ((s.files.put file.ino file).1.remove file.ino).2.list, p ∈ s.files.list ∧ p.1 ≠ file.ino := by
    intro p hp
    obtain ⟨hput, hne⟩ := LRUCacheMap.mem_remove hp
    refine ⟨(LRUCacheMap.mem_put hput).resolve_left fun heq => hne ?_, hne⟩
    rw [heq]
  rw [Driver.release, if_neg (by simpa using fun g hmem => (hgone (file.ino, g) hmem).2 rfl)] at hrelease
  obtain ⟨⟨fs₄, f₄⟩, hsync, hs'⟩ := Option.bind_eq_some_iff.mp hrelease
  obtain rfl := Option.some.inj hs'
  have horder : fs₁.bpb.SlotsInOrder l₁ range.start 0 := by
    rw [hr.bpb, hchain, hplace]
    exact hok.place_inOrder hs.sound hseq
  have hfinal := hremoved.destroy hleft hhead hgrown₁.small horder (hfile ▸ hsync)
  obtain ⟨segs₄, tail₄, hlay₄, htail₄, hblocks₄⟩ := hfinal.layout
  have hm' := hfinal.sane.toMounted
  have hdir' : dir'.isDir = true := hfinal.worked.isDir.trans hdir
  have hkeys₄ : (blocks EntryGroup.entries 0 segs₄).map groupKey = (blocks EntryGroup.entries 0 segs).map groupKey := by
    rw [hblocks₄, hkeys]
  have hcap := hgrown.capacity
  have hcap' : l'.length * bytesPerClus fs₄.bpb < 2 ^ 32 := by
    rw [hfinal.bpb]
    exact Nat.lt_of_le_of_lt (Nat.mul_le_mul_right _ hfinal.pre.length_le) hgrown₁.small
  refine ⟨fs₁, l', ⟨_, fun f hf => hb.dropped hnew f (List.mem_of_mem_filter hf), hdropped⟩, hr, hfinal.sane, hfinal.worked,
    hfinal.placed, ⟨segs₄, tail₄, hlay₄, htail₄⟩,
    hf.lookup_of_keys hs.toMounted hdir hlay hm' hfinal.placed hdir' hlay₄ hkeys₄, ?_,
    fun k e he => ⟨hlay₄.live_of_blocks htail₄ hlay₁ hblocks₄.symm he, hlay₁.live_of_blocks htail₁ hlay₄ hblocks₄ he⟩,
    hfinal.others, fun p hp => (hgone p hp).1, fun f fs₂ dir₂ hrun' p hp => ?_⟩
  · rintro hbrowse ⟨_, map⟩ ⟨_, map'⟩ rfl hb rfl hb' now
    have hshows := hbrowse.retouched hfinal.worked hlay hby hlay₁ hkeys
    have hshows₄ : dir'.Browsable cs heads segs₄ :=
      ⟨hblocks₄ ▸ hshows.names, hblocks₄ ▸ hshows.owned, hblocks₄ ▸ hshows.self⟩
    rw [hbrowse.listing hb hs hf hdir hhead hlay htail (fun p hp => hseq.slotsInOrder hs.sound hcap (hlay.liveGroup hp).1) now,
      hshows₄.listing hb' hfinal.sane hfinal.placed hdir' (hfinal.worked.fstClus ▸ hhead) hlay₄ htail₄ (fun p hp => ?_) now,
      EntryGroup.shown_of_keys hkeys₄]
    -- the groups lie in clusters that the directory had before
    have hin := (hlay₁.liveGroup (hblocks₄ ▸ hp)).1
    rw [hr.bpb] at hin
    have hin' := (hlay₄.liveGroup hp).1
    have hlong := (BPB.slotsInOrder_prefix hgrown.pre (hs.sound.slot_clus_lt hcap hin)).mp
      (hseq.slotsInOrder hs.sound hcap hin)
    rw [← hr.bpb, ← hfinal.bpb] at hlong
    exact (BPB.slotsInOrder_prefix hfinal.pre (hm'.sound.slot_clus_lt hcap' hin')).mpr hlong
  · obtain ⟨heq, -⟩ := Prod.mk.inj (Option.some.inj (hinner.symm.trans hrun'))
    rw [← Option.some.inj heq]
    exact (hgone p hp).2

end driver

/-- What is to be found when a call has returned nothing. -/
theorem Driver.crtDir_undone (cs : Charset) (s s' : Driver) (heads : Set Nat) (dir dir' : File) (l : List Nat)
    (segs : List (Segment LongDirEntry EntryGroup)) (tail : List LongDirEntry) (hs : s.fs.Sane heads)
    (hhead : dir.fstClus ∈ heads) (hf : dir.Placed s.fs l) (hdir : dir.isDir = true) (hseq : Consecutive l)
    (hlay : GroupLayout (s.fs.dirEntries l) segs tail) (htail : ∀ e ∈ tail, isEmptyDirEntry e = true)
    (hb : s.Belongs cs heads) (howned : ∀ p ∈ s.files.list, p.2.fstClus = 0 ∨ p.2.fstClus ∈ heads) (name : List UInt8)
    (now : FatTimeStamp2) :
    (s.crtFile cs dir name now = some (none, dir', s') → s.Untouched dir l s' dir') ∧
    ∀ u, cs.utf8ToUtf16 name = some u → (dir.lookupFileInner cs s.fs name now.ts).map Prod.fst = some none →
      (s.fs.Refuses l (requiredEntryNum u) ∨
        ∃ gbk b, StorableName cs name u gbk b true now ∧ s.fs.UndoOk l (requiredEntryNum u)) →
      s.crtDir cs dir name now = some (none, dir', s') →
      ∃ fs₁ l', s.Undone cs heads dir l segs name now fs₁ s' dir' l' := by
  refine ⟨Driver.untouched_of_none hs.toMounted hf hdir, fun u hu habsent hok hrun => ?_⟩
  rcases Driver.crtDir_none hrun with hnone | ⟨file, dir₁, s₁, fs₂, file', s₃, hcreate, htrunc, hdel, hrelease⟩
  · have hcap : l.length * bytesPerClus s.fs.bpb < 2 ^ 32 := by
      rcases hok with ⟨hsmall, -⟩ | ⟨gbk, b, -, hok⟩
      · exact Nat.lt_of_le_of_lt (Nat.le_add_right _ _) hsmall
      · exact hok.capacity_lt hs.sound
    exact ⟨_, l, Driver.undone_of_none hs hhead hf hdir hseq hcap hlay htail hnone⟩
  · rcases hok with hrefuses | ⟨gbk, b, hname, hok⟩
    · obtain ⟨fs₁, -, hinner, -⟩ := Driver.crtFileInner_some hcreate
      exact absurd hinner (File.crtFileInner_refused hs.toMounted hf hdir hu hrefuses)
    · exact Driver.undone_of_removed hs hhead hf hdir hseq hlay htail hb howned hname habsent hok hcreate htrunc hdel hrelease

/-! A root directory with `n` short entries, and a file with the clusters `l`. -/

def fullFs (l : List Nat) (n : Nat) : FAT32fs := filedFs l (List.range n) fun i => (listedEntry (i % 12)).bytes

def fullSegs (n : Nat) : List (Segment LongDirEntry EntryGroup) :=
  (List.range n).map fun i => .block (listedGroup (Fin.ofNat 12 i))

theorem fullFs_layout {l : List Nat} {n : Nat} (hl : l = [3, 4, 5, 6, 7] ∨ l = [3, 5, 6, 7]) (hn : n = 4 ∨ n = 16) :
    GroupLayout ((fullFs l n).dirEntries [2]) (fullSegs n) (List.replicate (16 - n) (LongDirEntry.ofBytes fun _ => 0)) ∧
      ∀ e ∈ List.replicate (16 - n) (LongDirEntry.ofBytes fun _ => 0), isEmptyDirEntry e = true := by
  have hflat : (fullFs l n).dirEntries [2] = Segments.flat EntryGroup.entries (fullSegs n) ++
      List.replicate (16 - n) (LongDirEntry.ofBytes fun _ => 0) := by
    rcases hl with rfl | rfl <;> rcases hn with rfl | rfl <;> decide +kernel
  refine ⟨⟨hflat, fun e he => ?_, fun e he => ?_⟩, fun e he => ?_⟩
  · obtain ⟨i, -, hi⟩ := List.mem_map.mp he
    cases hi
  · rw [List.eq_of_mem_replicate (List.mem_of_mem_head? he)]
    exact isLstEmpty_zero.1
  · rw [List.eq_of_mem_replicate he]
    exact isLstEmpty_zero.2

theorem fullFs_chains {l : List Nat} {n : Nat} (hl : l = [3, 4, 5, 6, 7] ∨ l = [3, 5, 6, 7]) :
    (fullFs l n).Sane {3, 2} ∧ rootDir.Placed (fullFs l n) [2] ∧ Walk (fullFs l n).table Eoc 3 l := by
  rcases hl with rfl | rfl <;> exact filedFs_sane (by decide) (by decide) _ _

/-- The object of the first file. -/
def fullFile : File := .ofEntry 2 0 [0x41] (castLongDirEntryToShort (listedGroup 0).short)

private theorem fullFile_belongs : File.Belongs asciiCharset (fullFs [3, 4, 5, 6, 7] 4) {3, 2} (2 * 2 ^ 32) fullFile := by
  obtain ⟨hs, hplaced, -⟩ := fullFs_chains (n := 4) (.inl rfl)
  have hmem : ((0, listedGroup 0) : Nat × EntryGroup) ∈ blocks EntryGroup.entries 0 (fullSegs 4) := List.mem_cons_self
  have hzero : readEntryClusNo (castLongDirEntryToShort (listedGroup 0).short) = 0 := by decide +kernel
  exact ((fullFs_layout (.inl rfl) (.inl rfl)).1.belongs hs.toMounted hplaced (.inr rfl) hmem (.inl (by decide +kernel))
    (show EntryGroup.name asciiCharset (listedGroup 0) = some [0x41] by decide +kernel) ⟨[], .inl ⟨hzero, rfl⟩⟩).2

theorem newName_z : NewName asciiCharset [0x7A] [0x7A, 0x00] [0x5A] (.fill [0x5A] []) true ⟨0, ⟨0, 33⟩⟩ :=
  ⟨by decide +kernel, by decide +kernel, ⟨by decide +kernel, by decide +kernel, by decide +kernel⟩,
    by decide +kernel, ⟨by decide +kernel, by decide +kernel, by decide +kernel⟩⟩

theorem requiredEntryNum_z : requiredEntryNum [0x7A, 0x00] = 2 := by decide +kernel

/-- There is no cluster for the new directory, whose object has taken the place of another one in the map, and no place for a new file. -/
theorem Driver.crtDir_undone_no_cluster :
    (∃ dir' s' fs₁ l', Driver.crtDir asciiCharset ⟨fullFs [3, 4, 5, 6, 7] 4, ⟨1, [(2 * 2 ^ 32, fullFile)]⟩⟩ rootDir [0x7A]
        ⟨0, ⟨0, 33⟩⟩ = some (none, dir', s') ∧
      Driver.Undone asciiCharset ⟨fullFs [3, 4, 5, 6, 7] 4, ⟨1, [(2 * 2 ^ 32, fullFile)]⟩⟩ {3, 2} rootDir [2] (fullSegs 4)
        [0x7A] ⟨0, ⟨0, 33⟩⟩ fs₁ s' dir' l') ∧
    ∃ dir' s', Driver.crtFile asciiCharset ⟨fullFs [3, 4, 5, 6, 7] 16, ⟨4, []⟩⟩ rootDir [0x7A] ⟨0, ⟨0, 33⟩⟩ =
        some (none, dir', s') ∧
      Driver.Untouched ⟨fullFs [3, 4, 5, 6, 7] 16, ⟨4, []⟩⟩ rootDir [2] s' dir' := by
  have hall := fun n => fullFs_chains (n := n) (.inl rfl)
  constructor
  · have hnone : (Driver.crtDir asciiCharset ⟨fullFs [3, 4, 5, 6, 7] 4, ⟨1, [(2 * 2 ^ 32, fullFile)]⟩⟩ rootDir [0x7A]
        ⟨0, ⟨0, 33⟩⟩).map (fun r => r.1.isNone) = some true := by decide +kernel
    obtain ⟨⟨result, dir', s'⟩, hrun, hresult⟩ := Option.map_eq_some_iff.mp hnone
    obtain rfl := Option.isNone_iff_eq_none.mp hresult
    obtain ⟨hlay, htail⟩ := fullFs_layout (n := 4) (.inl rfl) (.inl rfl)
    obtain ⟨fs₁, l', hundone⟩ := (Driver.crtDir_undone asciiCharset
      ⟨fullFs [3, 4, 5, 6, 7] 4, ⟨1, [(2 * 2 ^ 32, fullFile)]⟩⟩ s' {3, 2} rootDir dir' [2] (fullSegs 4) _ (hall 4).1 (.inr rfl)
      (hall 4).2.1 rfl (by decide) hlay htail
      ⟨Nat.one_pos, List.nodup_singleton _, fun p hp => by
        obtain rfl := List.mem_singleton.mp hp
        exact fullFile_belongs⟩
      (fun p hp => by
        obtain rfl := List.mem_singleton.mp hp
        exact .inl (by decide +kernel)) [0x7A] ⟨0, ⟨0, 33⟩⟩).2 [0x7A, 0x00] (by decide +kernel)
      (by decide +kernel) (.inr ⟨[0x5A], .fill [0x5A] [], newName_z.storable, by
        rw [requiredEntryNum_z]
        exact ⟨⟨by decide +kernel, fun _ => .inl rfl⟩, fun h => absurd h (by decide +kernel)⟩⟩) hrun
    exact ⟨dir', s', fs₁, l', hrun, hundone⟩
  · have hnone : (Driver.crtFile asciiCharset ⟨fullFs [3, 4, 5, 6, 7] 16, ⟨4, []⟩⟩ rootDir [0x7A] ⟨0, ⟨0, 33⟩⟩).map
        (fun r => r.1.isNone) = some true := by decide +kernel
    obtain ⟨⟨result, dir', s'⟩, hrun, hresult⟩ := Option.map_eq_some_iff.mp hnone
    obtain rfl := Option.isNone_iff_eq_none.mp hresult
    obtain ⟨hlay, htail⟩ := fullFs_layout (n := 16) (.inl rfl) (.inr rfl)
    exact ⟨dir', s', hrun, (Driver.crtDir_undone asciiCharset ⟨fullFs [3, 4, 5, 6, 7] 16, ⟨4, []⟩⟩ s' {3, 2} rootDir dir' [2]
      (fullSegs 16) _ (hall 16).1 (.inr rfl) (hall 16).2.1 rfl (by decide) hlay htail
      (Driver.belongs_nil _ _ _ (by decide)) (fun p hp => absurd hp List.not_mem_nil) [0x7A] ⟨0, ⟨0, 33⟩⟩).1 hrun⟩

/-- The directory is given cluster 4 for the new name, and the abandoned object writes its times to cluster 3 of another file. -/
theorem Driver.not_crtDir_undone_scattered : (fullFs [3, 5, 6, 7] 16).Sane {3, 2} ∧
    rootDir.Placed (fullFs [3, 5, 6, 7] 16) [2] ∧ Consecutive [2] ∧
    WellFormedDir ((fullFs [3, 5, 6, 7] 16).dirEntries [2]) ∧
    NewName asciiCharset [0x7A] [0x7A, 0x00] [0x5A] (.fill [0x5A] []) true ⟨0, ⟨0, 33⟩⟩ ∧
    (rootDir.lookupFileInner asciiCharset (fullFs [3, 5, 6, 7] 16) [0x7A] ⟨0, 33⟩).map Prod.fst = some none ∧
    (fullFs [3, 5, 6, 7] 16).CreateOk [2] (requiredEntryNum [0x7A, 0x00]) ∧
    ∃ dir' s', Driver.crtDir asciiCharset ⟨fullFs [3, 5, 6, 7] 16, ⟨4, []⟩⟩ rootDir [0x7A] ⟨0, ⟨0, 33⟩⟩ =
        some (none, dir', s') ∧
      ∀ fs₁ l', ¬ Driver.Undone asciiCharset ⟨fullFs [3, 5, 6, 7] 16, ⟨4, []⟩⟩ {3, 2} rootDir [2] (fullSegs 16) [0x7A]
        ⟨0, ⟨0, 33⟩⟩ fs₁ s' dir' l' := by
  obtain ⟨hs, hplaced, hwalk⟩ := fullFs_chains (n := 16) (.inr rfl)
  obtain ⟨hlay, htail⟩ := fullFs_layout (n := 16) (.inr rfl) (.inr rfl)
  have hnone : (Driver.crtDir asciiCharset ⟨fullFs [3, 5, 6, 7] 16, ⟨4, []⟩⟩ rootDir [0x7A] ⟨0, ⟨0, 33⟩⟩).map
      (fun r => (r.1.isNone, r.2.2.fs.device.value 35 16)) = some (true, 33) := by decide +kernel
  obtain ⟨⟨result, dir', s'⟩, hrun, hresult⟩ := Option.map_eq_some_iff.mp hnone
  obtain ⟨hresult, hvalue⟩ := Prod.mk.inj hresult
  obtain rfl := Option.isNone_iff_eq_none.mp hresult
  refine ⟨hs, hplaced, by decide, ⟨_, _, .of_short hlay fun g hg => ?_, htail⟩, newName_z, by decide +kernel, ?_,
    dir', s', hrun, fun fs₁ l' hundone => ?_⟩
  · obtain ⟨i, -, hi⟩ := List.mem_map.mp hg
    cases hi
    rfl
  · rw [requiredEntryNum_z]
    exact ⟨by decide +kernel, fun _ => .inl rfl⟩
  · -- the map has nothing to drop
    obtain ⟨files, hfiles, hdestroy⟩ := hundone.dropped
    obtain rfl : files = [] := List.eq_nil_iff_forall_not_mem.mpr fun f hf =>
      (hfiles f hf).elim fun k hk => List.not_mem_nil hk
    obtain rfl := Option.some.inj hdestroy
    have hkept := congrFun ((hundone.others 3 (.inl rfl) (by decide) _ hwalk 3 List.mem_cons_self).2 0 (by decide)) 16
    have hold : (fullFs [3, 5, 6, 7] 16).device.value 35 16 = 0 := by decide +kernel
    cases hvalue.symm.trans (hkept.trans hold)

end FuseFat32
