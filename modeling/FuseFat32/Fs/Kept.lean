import FuseFat32.Fs.LongNames
import FuseFat32.Fs.Rebuild
import FuseFat32.Fs.Remove

/-!
# Groups and their objects

`fromIno` makes an object of the entries of a group when it finds them where it counts them. An object that is destroyed changes nothing but the metadata in the short entry of its group, and the scans of the directory take the new entry as they have taken the old one.
-/

namespace FuseFat32

open LinkedTable Segments

/-! ### The object of a group -/

/-- The checksum that `fromIno` has met. -/
def InoState.sum (s : InoState) : Option UInt8 := if s.fstDirEntry then none else some s.chkSum

/-- The walk of `fromIno` collects what its loop does with the entries. -/
theorem groupData_eq_scan : ∀ (es : List LongDirEntry) (s : InoState) (n : Nat),
    groupData es s.longNameUtf16 s.sum = (scanList fromInoStep (fun _ _ => none) es n s).map fun r =>
      r.map fun x => (x.1.longNameUtf16, x.1.sum, x.2) := by
  intro es
  induction es with
  | nil => exact fun _ _ => rfl
  | cons e es ih =>
    rintro ⟨name, fst, chk⟩ n
    have hkind : (e.attr &&& kAttrLongNameMask ≠ kAttrLongName) ↔ isLongDirEntry e = false := by
      rw [isLongDirEntry, decide_eq_false_iff_not]
    rw [groupData, scanList, fromInoStep]
    by_cases hempty : isEmptyDirEntry e = true
    · rw [if_pos hempty, if_pos hempty]
      rfl
    rw [if_neg hempty, if_neg hempty]
    cases hlong : isLongDirEntry e with
    | false =>
      rw [if_neg Bool.false_ne_true, if_pos (hkind.mpr hlong)]
      rfl
    | true =>
      rw [if_pos rfl, if_neg (by rw [hkind, hlong]; decide)]
      cases fst with
      | true => exact ih ⟨_, false, e.chkSum⟩ (n + 1)
      | false =>
        cases hvalid : isValidLongDirEntry e chk with
        | false => simp [InoState.sum, hvalid, assert]
        | true =>
          simp only [InoState.sum, Bool.false_eq_true, if_false, Option.all_some, hvalid, assert_true, Option.bind_some,
            Option.getD_some, Bool.not_false, if_true, Option.bind_eq_bind]
          exact ih ⟨_, false, chk⟩ (n + 1)

/-- The name of the group in UTF-8. -/
def EntryGroup.name (cs : Charset) (g : EntryGroup) : Option (List UInt8) :=
  if g.longs = [] then cs.gbkToUtf8 g.shortName else cs.utf16ToUtf8 g.longName

section objects

variable {cs : Charset} {fs : FAT32fs} {dir f : File} {l : List Nat} {g : EntryGroup} {name : List UInt8} {n : Nat}
  {tail : List LongDirEntry} {segs : List (Segment LongDirEntry EntryGroup)}

theorem EntryGroup.scan_ino (g : EntryGroup) (n : Nat) (s : InoState) :
    scanList fromInoStep (fun _ _ => none) [g.short] n s = some (some (s, castLongDirEntryToShort g.short)) := by
  have hshort : g.short.attr &&& kAttrLongNameMask ≠ kAttrLongName := by
    have hnot := g.isShort
    rwa [isLongDirEntry, decide_eq_false_iff_not] at hnot
  exact scanList_stop (by rw [fromInoStep, if_neg (by simp [g.live]), if_pos hshort])

private theorem EntryGroup.groupData_alone (hlongs : g.longs = []) :
    groupData g.entries [] none = some (some ([], none, castLongDirEntryToShort g.short)) := by
  have hentries : g.entries = [g.short] := by rw [EntryGroup.entries, hlongs, List.nil_append]
  have hscan := groupData_eq_scan [g.short] ⟨[], true, 0⟩ 0
  rw [g.scan_ino] at hscan
  rw [hentries]
  exact hscan

private theorem EntryGroup.groupData_named {b : BasisName} (hlongs : g.longs ≠ [])
    (hvalid : ∀ e ∈ g.longs, isValidLongDirEntry e (chkSum b) = true) :
    groupData g.entries [] none = some (some (g.longName, some (chkSum b), castLongDirEntryToShort g.short)) := by
  have hscan := groupData_eq_scan g.entries ⟨[], true, 0⟩ 0
  rwa [EntryGroup.entries, scanList_ino_fresh hlongs fun e he => ⟨g.liveLongs e he, hvalid e he⟩, g.scan_ino] at hscan

theorem EntryGroup.ofGroup (hname : g.name cs = some name) (parent_clus n : Nat) :
    ((groupData g.entries [] none).bind fun
      | none => some none
      | some d => (File.ofGroup cs parent_clus n d).map some) =
      some (some (File.ofEntry parent_clus n name (castLongDirEntryToShort g.short))) := by
  rw [EntryGroup.name] at hname
  by_cases hlongs : g.longs = []
  · rw [if_pos hlongs] at hname
    rw [EntryGroup.groupData_alone hlongs, Option.bind_some]
    simp [File.ofGroup, g.shortName_eq, hname]
  · rw [if_neg hlongs] at hname
    obtain ⟨b, hbasis, hvalid⟩ := g.checked hlongs
    rw [g.shortName_eq, Option.bind_some] at hbasis
    rw [EntryGroup.groupData_named hlongs hvalid, Option.bind_some]
    simp [File.ofGroup, g.shortName_eq, hbasis, hname]

theorem GroupLayout.liveGroup (h : GroupLayout (fs.dirEntries l) segs tail)
    (hmem : (n, g) ∈ blocks EntryGroup.entries 0 segs) : n + g.longs.length < fs.bpb.dirSlots l ∧
      (List.range (g.longs.length + 1)).map (fun j => fs.entryAt l (n + j)) = g.entries ∧
      fs.LiveGroup l n g.longs.length := by
  have hend : n + g.size ≤ (Segments.flat EntryGroup.entries segs).length := group_end_le hmem
  have hlen := congrArg List.length h.flat
  rw [FAT32fs.length_dirEntries, List.length_append] at hlen
  have hsize : g.size = g.longs.length + 1 := rfl
  have hat : ∀ j (hj : j < g.entries.length), fs.entryAt l (n + j) = g.entries[j] := by
    intro j hj
    rw [g.length_entries] at hj
    have hentry := h.getElem?_block hmem hj
    rw [FAT32fs.getElem?_dirEntries (by omega), List.getElem?_eq_getElem (by rwa [g.length_entries])] at hentry
    exact Option.some.inj hentry
  have hlt : ∀ j ≤ g.longs.length, j < g.entries.length := fun j hj => by
    rw [g.length_entries]
    omega
  refine ⟨by omega, List.ext_getElem (by simp [hsize]) fun j _ hj => ?_, fun j hj => ?_, fun j hj => ?_, ?_⟩
  · rw [List.getElem_map, List.getElem_range, hat j hj]
  · rw [hat j (hlt j hj)]
    exact g.isEmpty_of_mem (List.getElem_mem _)
  · rw [hat j (hlt j hj.le)]
    simp only [EntryGroup.entries, List.getElem_append_left hj]
    exact g.isLong_of_mem (List.getElem_mem _)
  · rw [hat _ (hlt _ le_rfl)]
    simp only [EntryGroup.entries, List.getElem_append_right le_rfl, Nat.sub_self, List.getElem_cons_zero]
    exact g.isShort

/-- `fromIno` finds a group whose slots lie where it counts them. -/
theorem GroupLayout.fromIno_inOrder (h : GroupLayout (fs.dirEntries l) segs tail) (hm : fs.Mounted) (hf : dir.Placed fs l)
    (hmem : (n, g) ∈ blocks EntryGroup.entries 0 segs) (horder : fs.bpb.SlotsInOrder l n g.longs.length)
    (hname : g.name cs = some name) : File.fromIno cs fs (dir.fstClus * 2 ^ 32 + n) =
      some (some (File.ofEntry dir.fstClus n name (castLongDirEntryToShort g.short))) := by
  obtain ⟨hlt, hentries, hlive⟩ := h.liveGroup hmem
  have hin : kDirEntrySize * (n + g.longs.length + 1) ≤ u32 (l.length * bytesPerClus fs.bpb) := by
    rw [← hm.sound.dirSlots_mul]
    exact Nat.mul_le_mul_left _ hlt
  have hslots := ((slots_order_iff hm hf hin).mpr horder).trans (entrySlots_eq hm hf hin)
  rw [File.fromIno_reads hm hf hin hslots hlive cs, hentries]
  exact g.ofGroup hname dir.fstClus n

/-- In a directory whose clusters lie next to each other `fromIno` finds every group. -/
theorem GroupLayout.fromIno (h : GroupLayout (fs.dirEntries l) segs tail) (hm : fs.Mounted) (hf : dir.Placed fs l)
    (hcap : l.length * bytesPerClus fs.bpb < 2 ^ 32) (hseq : Consecutive l)
    (hmem : (n, g) ∈ blocks EntryGroup.entries 0 segs) (hname : g.name cs = some name) :
    File.fromIno cs fs (dir.fstClus * 2 ^ 32 + n) =
      some (some (File.ofEntry dir.fstClus n name (castLongDirEntryToShort g.short))) :=
  h.fromIno_inOrder hm hf hmem (hseq.slotsInOrder hm.sound hcap (h.liveGroup hmem).1) hname

end objects

/-! ### Entries with other metadata -/

/-- The entry is the same, or a short one with other metadata. -/
def LongDirEntry.Kept (e e' : LongDirEntry) : Prop :=
  e' = e ∨ (isLongDirEntry e = false ∧ (castLongDirEntryToShort e).SameName (castLongDirEntryToShort e'))

section kept

variable {cs : Charset} {e e' e'' : LongDirEntry} {es es' tail : List LongDirEntry}
  {segs : List (Segment LongDirEntry EntryGroup)} {g : EntryGroup}

theorem LongDirEntry.Kept.trans {e e' e'' : LongDirEntry} (h : e.Kept e') (h' : e'.Kept e'') : e.Kept e'' := by
  rcases h with rfl | ⟨hshort, hsame⟩
  · exact h'
  rcases h' with rfl | ⟨-, hsame'⟩
  · exact .inr ⟨hshort, hsame⟩
  · exact .inr ⟨hshort, hsame'.name.trans hsame.name, hsame'.attr.trans hsame.attr⟩

theorem LongDirEntry.Kept.kind (h : e.Kept e') : e'.ord = e.ord ∧ isEmptyDirEntry e' = isEmptyDirEntry e ∧
    isLstEmptyDirEntry e' = isLstEmptyDirEntry e ∧ isLongDirEntry e' = isLongDirEntry e := by
  rcases h with rfl | ⟨-, hsame⟩
  · exact ⟨rfl, rfl, rfl, rfl⟩
  have hback : castShortDirEntryToLong (castLongDirEntryToShort e') = e' :=
    LongDirEntry.bytes_injective (by rw [bytes_castShortDirEntryToLong, bytes_castLongDirEntryToShort])
  obtain ⟨hempty, hlst, hlong⟩ := hsame.kind
  rw [hback] at hempty hlst hlong
  refine ⟨?_, hempty, hlst, hlong⟩
  rw [← ord_castLongDirEntryToShort, ← ord_castLongDirEntryToShort e, ShortDirEntry.name0, ShortDirEntry.name0, hsame.name]

theorem LongDirEntry.Kept.shortName (h : e.Kept e') :
    readShortEntryName (castLongDirEntryToShort e') = readShortEntryName (castLongDirEntryToShort e) := by
  rcases h with rfl | ⟨-, hsame⟩
  · rfl
  · exact hsame.readShortEntryName

/-- The group with another short entry of the same name. -/
def EntryGroup.withShort (g : EntryGroup) (h : g.short.Kept e') : EntryGroup where
  longs := g.longs
  short := e'
  liveLongs := g.liveLongs
  ords := g.ords
  live := h.kind.2.1.trans g.live
  isShort := h.kind.2.2.2.trans g.isShort
  checked := fun hne => by
    rw [h.shortName]
    exact g.checked hne

/-- What a scan sees of a group. -/
def groupKey (p : Nat × EntryGroup) : Nat × List LongDirEntry × List UInt8 := (p.1, p.2.longs, p.2.shortName)

def KeyNamed (utf16_name gbk_name : List UInt8) (key : Nat × List LongDirEntry × List UInt8) : Prop :=
  if key.2.1 = [] then key.2.2 = gbk_name else key.2.1.reverse.flatMap readLongEntryName = utf16_name

instance (utf16_name gbk_name : List UInt8) (key : Nat × List LongDirEntry × List UInt8) :
    Decidable (KeyNamed utf16_name gbk_name key) :=
  inferInstanceAs (Decidable (if key.2.1 = [] then key.2.2 = gbk_name else _))

theorem named_iff_key (u gbk : List UInt8) (p : Nat × EntryGroup) : p.2.Named u gbk ↔ KeyNamed u gbk (groupKey p) := Iff.rfl

private theorem EntryGroup.shortName_withShort (h : g.short.Kept e') : (g.withShort h).shortName = g.shortName := by
  rw [EntryGroup.shortName, EntryGroup.shortName]
  exact congrArg (Option.getD · []) h.shortName

private theorem forall₂_kept_longs {rest : List LongDirEntry} : ∀ {longs es' : List LongDirEntry},
    (∀ e ∈ longs, isLongDirEntry e = true) → List.Forall₂ LongDirEntry.Kept (longs ++ rest) es' →
    ∃ rest', es' = longs ++ rest' ∧ List.Forall₂ LongDirEntry.Kept rest rest' := by
  intro longs
  induction longs with
  | nil => exact fun {es'} _ h => ⟨es', rfl, h⟩
  | cons e longs ih =>
    intro es' hlongs h
    rw [List.cons_append, List.forall₂_cons_left_iff] at h
    obtain ⟨e', es₁, hkept, hrest, rfl⟩ := h
    obtain ⟨rest', rfl, hrest'⟩ := ih (fun x hx => hlongs x (List.mem_cons_of_mem _ hx)) hrest
    rcases hkept with rfl | ⟨hshort, -⟩
    · exact ⟨rest', rfl, hrest'⟩
    · exact absurd (hlongs e List.mem_cons_self) (by simp [hshort])

theorem flat_kept : ∀ {segs : List (Segment LongDirEntry EntryGroup)} {es' : List LongDirEntry},
    List.Forall₂ LongDirEntry.Kept (flat EntryGroup.entries segs ++ tail) es' →
    (∀ e, .blank e ∈ segs → e.ord = 0xE5) → ∃ segs' tail', es' = flat EntryGroup.entries segs' ++ tail' ∧
      (∀ e, .blank e ∈ segs' → e.ord = 0xE5) ∧ List.Forall₂ LongDirEntry.Kept tail tail' ∧
      ∀ n, (blocks EntryGroup.entries n segs').map groupKey = (blocks EntryGroup.entries n segs).map groupKey := by
  intro segs
  induction segs with
  | nil => exact fun {es'} h _ => ⟨[], es', rfl, fun _ h => absurd h List.not_mem_nil, h, fun _ => rfl⟩
  | cons x segs ih =>
    intro es' h hdeleted
    have hdeleted' : ∀ e, .blank e ∈ segs → e.ord = 0xE5 := fun e he => hdeleted e (List.mem_cons_of_mem _ he)
    cases x with
    | blank e =>
      rw [flat_cons, elems_blank, List.singleton_append, List.cons_append, List.forall₂_cons_left_iff] at h
      obtain ⟨e', es₁, hkept, hrest, rfl⟩ := h
      obtain ⟨segs', tail', rfl, hdeleted₁, htail, hblocks⟩ := ih hrest hdeleted'
      refine ⟨.blank e' :: segs', tail', by simp, fun e₁ he₁ => ?_, htail, fun n => hblocks (n + 1)⟩
      rcases List.mem_cons.mp he₁ with heq | he₁
      · obtain rfl : e₁ = e' := by simpa using heq
        exact hkept.kind.1.trans (hdeleted e List.mem_cons_self)
      · exact hdeleted₁ e₁ he₁
    | block g =>
      rw [flat_cons, elems_block, EntryGroup.entries, List.append_assoc, List.append_assoc] at h
      obtain ⟨rest, rfl, hrest⟩ := forall₂_kept_longs (fun _ => g.isLong_of_mem) h
      rw [List.singleton_append, List.forall₂_cons_left_iff] at hrest
      obtain ⟨e', es₁, hkept, hrest, rfl⟩ := hrest
      obtain ⟨segs', tail', rfl, hdeleted₁, htail, hblocks⟩ := ih hrest hdeleted'
      refine ⟨.block (g.withShort hkept) :: segs', tail', ?_, fun e₁ he₁ => ?_, htail, fun n => ?_⟩
      · rw [flat_cons, elems_block, EntryGroup.entries, List.append_assoc, List.append_assoc]
        rfl
      · rcases List.mem_cons.mp he₁ with heq | he₁
        · exact absurd heq (by simp)
        · exact hdeleted₁ e₁ he₁
      · have hsize : (g.withShort hkept).entries.length = g.entries.length := by
          rw [EntryGroup.length_entries, EntryGroup.length_entries]
          rfl
        rw [blocks, blocks, List.map_cons, List.map_cons, hsize, hblocks]
        exact congrArg (· :: _) (congrArg (fun s => (n, g.longs, s)) (EntryGroup.shortName_withShort hkept))

/-- The groups of a directory when metadata has been written to some of its short entries. -/
theorem GroupLayout.kept (h : GroupLayout es segs tail) (hempty : ∀ e ∈ tail, isEmptyDirEntry e = true)
    (hes : List.Forall₂ LongDirEntry.Kept es es') : ∃ segs' tail', GroupLayout es' segs' tail' ∧
      (∀ e ∈ tail', isEmptyDirEntry e = true) ∧
      (blocks EntryGroup.entries 0 segs').map groupKey = (blocks EntryGroup.entries 0 segs).map groupKey := by
  obtain ⟨rfl, hdeleted, hmarker⟩ := h
  obtain ⟨segs', tail', rfl, hdeleted', htail, hblocks⟩ := flat_kept hes hdeleted
  refine ⟨segs', tail', ⟨rfl, hdeleted', ?_⟩, fun e' he' => ?_, hblocks 0⟩
  · cases htail with
    | nil => exact fun e he => absurd he (by simp)
    | cons hkept _ =>
      intro e he
      obtain rfl := Option.some.inj he
      exact hkept.kind.2.2.1.trans (hmarker _ rfl)
  · obtain ⟨e, he, hkept⟩ : ∃ e ∈ tail, e.Kept e' := by
      obtain ⟨i, hi, rfl⟩ := List.mem_iff_getElem.mp he'
      have hi' : i < tail.length := htail.length_eq ▸ hi
      exact ⟨tail[i], List.getElem_mem hi', htail.get hi' hi⟩
    exact hkept.kind.2.1.trans (hempty e he)

theorem find_named_of_keys {gs gs' : List (Nat × EntryGroup)} (h : gs'.map groupKey = gs.map groupKey)
    (u gbk : List UInt8) :
    ((gs'.find? fun p => p.2.Named u gbk).map fun p => (⟨p.1, p.2.size⟩ : DirEntryRange)) =
      (gs.find? fun p => p.2.Named u gbk).map fun p => ⟨p.1, p.2.size⟩ := by
  have hkeys : ∀ gs : List (Nat × EntryGroup),
      ((gs.find? fun p => p.2.Named u gbk).map fun p => (⟨p.1, p.2.size⟩ : DirEntryRange)) =
        ((gs.map groupKey).find? fun k => KeyNamed u gbk k).map fun k => ⟨k.1, k.2.1.length + 1⟩ := by
    intro gs
    rw [List.find?_map, Option.map_map]
    rfl
  rw [hkeys, hkeys, h]

end kept

end FuseFat32
