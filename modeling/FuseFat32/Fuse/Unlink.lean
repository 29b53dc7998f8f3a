import FuseFat32.Fs.Create
import FuseFat32.Fs.Remove

/-!
# Unlinking

`fat32_unlink` and `fat32_rmdir` remove the name of a file from its parent directory and then destroy the object of the file. What `lookupFile` has returned is an argument here. The directory has lost the group of the file and no other, and the chain of the file has been released in every copy of the FAT.
-/

namespace FuseFat32

open LinkedTable Layout Segments

inductive Reply where
  | ok
  | enoent
  | eisdir
  | enotdir
  | enotempty
  deriving DecidableEq

/-- `assert(parent_dir->delFile(name)); child->selfDestruct();` -/
def File.removeChild (cs : Charset) (fs : FAT32fs) (parent_dir child : File) (name : List UInt8)
    (now : FatTimeStamp) : Exec (FAT32fs × File × File) := do
  let (result, fs, parent_dir) ← parent_dir.delFile cs fs name now
  assert result.isSome
  let (fs, child) ← child.selfDestruct fs
  return (fs, parent_dir, child)

def fat32Unlink (cs : Charset) (fs : FAT32fs) (parent_dir : File) (child_result : Option File)
    (name : List UInt8) (now : FatTimeStamp) : Exec (Reply × FAT32fs × File × Option File) :=
  match child_result with
  | none => some (.enoent, fs, parent_dir, none)
  | some child =>
    if child.isDir then some (.eisdir, fs, parent_dir, some child)
    else do
      let (fs, parent_dir, child) ← parent_dir.removeChild cs fs child name now
      return (.ok, fs, parent_dir, some child)

def fat32Rmdir (cs : Charset) (fs : FAT32fs) (parent_dir : File) (child_result : Option File)
    (name : List UInt8) (now : FatTimeStamp) : Exec (Reply × FAT32fs × File × Option File) :=
  match child_result with
  | none => some (.enoent, fs, parent_dir, none)
  | some child =>
    if !child.isDir then some (.enotdir, fs, parent_dir, some child)
    else do
      let (is_empty, child) ← child.isEmpty fs now
      if !is_empty then
        return (.enotempty, fs, parent_dir, some child)
      let (fs, parent_dir, child) ← parent_dir.removeChild cs fs child name now
      return (.ok, fs, parent_dir, some child)

/-- A well-formed directory of a volume: its clusters lie next to each other, its size is a number of 32 bits, and its entries are groups with unique names. -/
structure File.GoodDir (cs : Charset) (fs : FAT32fs) (heads : Set Nat) (dir : File) (l : List Nat) : Prop where
  head : dir.fstClus ∈ heads
  placed : dir.Placed fs l
  isDir : dir.isDir = true
  size : l.length * bytesPerClus fs.bpb < 2 ^ 32
  consecutive : Consecutive l
  named : NamedDir cs (fs.dirEntries l)

/-- The object of the file whose entries are `range` of the directory, with a chain of its own or none. -/
structure File.ChildOf (fs : FAT32fs) (heads : Set Nat) (child dir : File) (range : DirEntryRange)
    (lf : List Nat) : Prop where
  parent : child.parentClus = dir.fstClus
  start : child.fstEntryNum = range.start
  live : child.isDeleted = false
  placed : child.Placed fs lf
  owned : child.fstClus = 0 ∨ (child.fstClus ∈ heads ∧ child.fstClus ≠ dir.fstClus)

/-- The directory `dir` has lost the entries `range` of the file `child`, which was found under `name`. -/
structure File.Unlinked (cs : Charset) (fs : FAT32fs) (heads : Set Nat) (dir child : File) (l lf : List Nat)
    (name : List UInt8) (range : DirEntryRange) (fs' : FAT32fs) (dir' : File) (l' : List Nat) : Prop where
  sane : fs'.Sane (heads \ {child.fstClus})
  good : dir'.GoodDir cs fs' (heads \ {child.fstClus}) l'
  gone : ∀ now, (dir'.lookupFileInner cs fs' name now).map Prod.fst = some none
  /-- Other files are found where they were. -/
  others : ∀ other now, (dir.lookupFileInner cs fs other now).map Prod.fst ≠ some (some range) →
    (dir'.lookupFileInner cs fs' other now).map Prod.fst = (dir.lookupFileInner cs fs other now).map Prod.fst
  /-- Their entries are the ones they had. -/
  entries : ∀ other now r, (dir'.lookupFileInner cs fs' other now).map Prod.fst = some (some r) →
    ∀ k, r.start ≤ k → k < r.start + r.count →
      ∃ e, (fs.dirEntries l)[k]? = some e ∧ (fs'.dirEntries l')[k]? = some e
  freed : ∀ x ∈ lf, fs'.table x = 0 ∧ ∀ i < fs'.bpb.numFats.toNat, fs'.fat.copyEntry fs'.device i x = 0
  /-- No cluster that is left to the directory has been freed. -/
  parent : ∀ x ∈ l', fs'.table x ≠ 0
  chains : ∀ other ∈ heads, other ≠ dir.fstClus → other ≠ child.fstClus → ∀ l₂, Walk fs.table Eoc other l₂ →
    ∀ x ∈ l₂, fs'.table x = fs.table x

/-! ### Destroying a file whose name is gone -/

private theorem Device.entry_erased_of_notMem {d : Device} {as : List (Nat × Nat)} (has : Aligned as) {b : Nat × Nat}
    (hb : b.2 % kDirEntrySize = 0) (hnot : b ∉ as) : (d.erased as).entry b = d.entry b := by
  have hat : ∀ i ∈ List.range kDirEntrySize, (d.erased as).bytesAt b i = d.bytesAt b i := by
    intro i hi
    rcases Nat.eq_zero_or_pos i with rfl | hpos
    · exact if_neg hnot
    · exact Device.bytesAt_erased has hb hpos (List.mem_range.mp hi)
  have hentry : (d.entry b).bytes = (List.range kDirEntrySize).map (d.bytesAt b) := LongDirEntry.bytes_ofBytes _
  refine LongDirEntry.ofBytes_eq ?_
  rw [List.map_congr_left hat, hentry]

section destroy

variable {fs fs' : FAT32fs} {heads : Set Nat} {dir f : File} {l l' lf : List Nat} {n k : Nat}

private theorem BPB.slot_injective (hs : fs.bpb.Sound) (hf : dir.Placed fs l) (hcap : l.length * bytesPerClus fs.bpb < 2 ^ 32)
    (hn : n < fs.bpb.dirSlots l) (hk : k < fs.bpb.dirSlots l) (heq : fs.bpb.slot l k = fs.bpb.slot l n) : k = n := by
  have hmul := hs.dirSlots_mul l
  rw [u32_of_lt hcap] at hmul
  have hpos : 0 < kDirEntrySize := by decide
  have hinside : ∀ {j}, j < fs.bpb.dirSlots l → kDirEntrySize * j < l.length * bytesPerClus fs.bpb :=
    fun hj => hmul ▸ Nat.mul_lt_mul_of_pos_left hj hpos
  have := BPB.chainLoc_injOn hs hf.chain.data hf.chain.nodup (hinside hk) (hinside hn) heq
  exact Nat.eq_of_mul_eq_mul_left hpos this

private theorem FAT32fs.dirEntries_erased (hs : fs.bpb.Sound) (hf : dir.Placed fs l)
    (hcap : l.length * bytesPerClus fs.bpb < 2 ^ 32) (hn : n < fs.bpb.dirSlots l) (hbpb : fs'.bpb = fs.bpb)
    (hval : ∀ s ≥ getFirstDataSector fs.bpb, fs'.device.value s = (fs.device.erased [fs.bpb.slot l n]).value s) :
    fs'.dirEntries l = (fs.dirEntries l).set n (setDirEntryEmpty (fs.entryAt l n)) := by
  have haligned : Aligned [fs.bpb.slot l n] := by simpa using fs.bpb.slots_aligned l n 1
  have hmul := hs.dirSlots_mul l
  rw [u32_of_lt hcap] at hmul
  apply List.ext_getElem?
  intro k
  rw [List.getElem?_set]
  rcases Nat.lt_or_ge k (fs.bpb.dirSlots l) with hk | hk
  · have hpos : kDirEntrySize * k < l.length * bytesPerClus fs.bpb :=
      hmul ▸ Nat.mul_lt_mul_of_pos_left hk (show 0 < kDirEntrySize by decide)
    have hlow := (BPB.slot_bounds hs hf.chain.data hpos).1
    have hentry : fs'.entryAt l k = (fs.device.erased [fs.bpb.slot l n]).entry (fs.bpb.slot l k) := by
      rw [FAT32fs.entryAt, hbpb]
      exact Device.entry_congr (hval _ hlow)
    rw [FAT32fs.getElem?_dirEntries (hbpb.symm ▸ hk), FAT32fs.getElem?_dirEntries hk, hentry]
    by_cases hkn : n = k
    · subst hkn
      rw [if_pos rfl, if_pos (by rwa [FAT32fs.length_dirEntries]),
        Device.entry_erased haligned (List.mem_singleton_self _), FAT32fs.entryAt]
    · rw [if_neg hkn, Device.entry_erased_of_notMem haligned, FAT32fs.entryAt]
      · have := fs.bpb.slots_aligned l k 1
        exact this _ (List.mem_map.mpr ⟨0, by simp, by simp⟩)
      · intro hmem
        exact hkn (BPB.slot_injective hs hf hcap hn hk (List.mem_singleton.mp hmem)).symm
  · rw [if_neg (by omega), List.getElem?_eq_none, List.getElem?_eq_none]
    · rwa [FAT32fs.length_dirEntries]
    · rwa [FAT32fs.length_dirEntries, hbpb]

/-- What `selfDestruct` does when its group is one short entry that has been overwritten: the entry is marked and the chain is released. -/
theorem File.selfDestruct_child {range : DirEntryRange} (hs : fs.Sane heads) (hchild : f.ChildOf fs heads dir range lf)
    (hhead : dir.fstClus ∈ heads) (hf : dir.Placed fs l) (hcap : l.length * bytesPerClus fs.bpb < 2 ^ 32)
    (hseq : Consecutive l) (hn : range.start < fs.bpb.dirSlots l)
    (hshort : isLongDirEntry (fs.entryAt l range.start) = false) :
    ∃ fs', f.selfDestruct fs = some (fs', { f with isDeleted := true }) ∧ fs'.bpb = fs.bpb ∧
      fs'.Sane (heads \ {f.fstClus}) ∧ dir.Placed fs' l ∧
      fs'.dirEntries l = (fs.dirEntries l).set range.start (setDirEntryEmpty (fs.entryAt l range.start)) ∧
      (∀ x ∈ lf, fs'.table x = 0 ∧ ∀ i < fs'.bpb.numFats.toNat, fs'.fat.copyEntry fs'.device i x = 0) ∧
      ∀ other ∈ heads, other ≠ f.fstClus → ∀ l₂, Walk fs.table Eoc other l₂ → ∀ x ∈ l₂, fs'.table x = fs.table x := by
  have hm := hs.toMounted
  have hmul := hs.sound.dirSlots_mul l
  have hin : kDirEntrySize * (range.start + 0 + 1) ≤ u32 (l.length * bytesPerClus fs.bpb) := by
    rw [← hmul]
    exact Nat.mul_le_mul_left _ hn
  have horder : fs.bpb.SlotsInOrder l range.start 0 := hseq.slotsInOrder hs.sound hcap hn
  have hslots := ((slots_order_iff hm hf hin).mpr horder).trans
    (entrySlots_eq hm hf hin)
  have hgroup : GroupAt fs.device ((List.range (0 + 1)).map fun j => fs.bpb.slot l (range.start + j)) :=
    groupAt_map.mpr ⟨fun j hj => absurd hj (Nat.not_lt_zero j), hshort⟩
  obtain ⟨d', hrun, hcopies, honly, hm', htable⟩ := File.selfDestruct_eq hm hf hin hslots hgroup hchild.placed hchild.parent
    hchild.start hchild.live
  have hkept : ∀ other ∈ heads, other ≠ f.fstClus → ∀ l₂, Walk fs.table Eoc other l₂ → ∀ x ∈ l₂,
      FAT32fs.table ⟨fs.bpb, fs.fat.incTimes lf.length, d'⟩ x = fs.table x := by
    intro other hother hne l₂ hw x hx
    have hdata : fs.bpb.DataClus x := hs.bpb ▸ hs.owners.good_of_mem hother hw hx
    rw [htable x hdata, if_neg]
    rcases hchild.placed.chain with ⟨-, rfl⟩ | ⟨hfst, hc⟩
    · exact List.not_mem_nil
    · rcases hchild.owned with h | ⟨h, -⟩
      · exact absurd (h ▸ hfst) (not_dataClus_zero _)
      · exact hs.owners.notMem_of_mem hother h hne.symm hw hc.walk hx
  have hne : dir.fstClus ≠ f.fstClus := by
    rcases hchild.owned with h | ⟨-, h⟩
    · exact fun heq => zero_notMem_heads hs.owners (h ▸ heq ▸ hhead)
    · exact h.symm
  have howners : Owners (FAT32fs.table ⟨fs.bpb, fs.fat.incTimes lf.length, d'⟩) Eoc fs.fat.bpb.DataClus
      (heads \ {f.fstClus}) := (hs.owners.mono Set.sdiff_subset).frame fun other hother l₂ hw =>
    hkept other hother.1 hother.2 l₂ hw
  refine ⟨_, hrun, rfl, ⟨hm', by simpa only [FAT.bpb_incTimes] using howners⟩, ⟨?_, hf.cache⟩, ?_,
    fun x hx => ⟨?_, fun i hi => ?_⟩, hkept⟩
  · rcases hf.chain with h | ⟨hfst, hc⟩
    · exact .inl h
    · exact .inr ⟨hfst, hc.walk.frame fun x hx => hkept _ hhead hne _ hc.walk x hx, hc.data⟩
  · exact FAT32fs.dirEntries_erased hs.sound hf hcap hn rfl fun s hlow => honly.value s (.inr hlow)
  · rw [htable x (hchild.placed.chain.data x hx), if_pos hx]
  · exact hcopies x hx i hi

end destroy

/-! ### What the handlers have done -/

section unlink

variable {cs : Charset} {fs fs' fs₁ : FAT32fs} {heads : Set Nat} {dir dir' dir₁ child child' : File} {l l' lf : List Nat}
  {name : List UInt8} {now : FatTimeStamp} {range : DirEntryRange} {es es' tail tail' : List LongDirEntry}
  {xs zs segs segs' : List (Segment LongDirEntry EntryGroup)} {g : EntryGroup}

private theorem mem_of_dirLookup {u gbk : List UInt8} {r : DirEntryRange} (h : dirLookup segs u gbk = some r) :
    ∃ g : EntryGroup, (r.start, g) ∈ blocks EntryGroup.entries 0 segs ∧ r.count = g.size := by
  obtain ⟨⟨p, g⟩, hfind, rfl⟩ := Option.map_eq_some_iff.mp h
  exact ⟨g, List.mem_of_find?_eq_some hfind, rfl⟩

private theorem GroupLayout.entries_kept (h : GroupLayout es segs tail) (h' : GroupLayout es' segs' tail')
    (hsub : ∀ p ∈ blocks EntryGroup.entries 0 segs', p ∈ blocks EntryGroup.entries 0 segs) {u gbk : List UInt8}
    {r : DirEntryRange} (hfound : dirLookup segs' u gbk = some r) {k : Nat} (hlow : r.start ≤ k)
    (hhigh : k < r.start + r.count) : ∃ e, es[k]? = some e ∧ es'[k]? = some e := by
  obtain ⟨g, hmem, hcount⟩ := mem_of_dirLookup hfound
  obtain ⟨i, rfl⟩ := Nat.exists_eq_add_of_le hlow
  have hi : i < g.size := by omega
  have hlt : i < g.entries.length := by rwa [EntryGroup.length_entries]
  refine ⟨g.entries[i], ?_, ?_⟩
  · rw [h.getElem?_block (hsub _ hmem) hi, List.getElem?_eq_getElem hlt]
  · rw [h'.getElem?_block hmem hi, List.getElem?_eq_getElem hlt]

theorem File.ChildOf.dirStep (h : child.ChildOf fs heads dir range lf) (hstep : fs.DirStep heads dir l fs' dir' l') :
    child.ChildOf fs' heads dir' range lf := by
  refine ⟨h.parent.trans hstep.worked.fstClus.symm, h.start, h.live, ⟨?_, h.placed.cache⟩,
    hstep.worked.fstClus ▸ h.owned⟩
  rcases h.placed.chain with ⟨hzero, hnil⟩ | ⟨hfst, hc⟩
  · exact .inl ⟨hzero, hnil⟩
  · rw [← hstep.bpb] at hfst
    refine .inr ⟨hfst, ?_, hstep.bpb ▸ hc.data⟩
    rcases h.owned with hzero | ⟨hhead, hne⟩
    · exact absurd (hzero ▸ hfst) (not_dataClus_zero _)
    · exact hc.walk.frame (hstep.others _ hhead hne _ hc.walk)

theorem File.ChildOf.of_same (h : child.ChildOf fs heads dir range lf) (hsame : child.Same child')
    (hplaced : child'.Placed fs lf) : child'.ChildOf fs heads dir range lf := by
  refine ⟨?_, ?_, ?_, hplaced, ?_⟩
  · rw [hsame]
    exact h.parent
  · rw [hsame]
    exact h.start
  · rw [hsame]
    exact h.live
  · rw [hsame]
    exact h.owned

/-- Removing the name and destroying the object. -/
theorem File.removeChild_unlinked (hs : fs.Sane heads) (hgood : dir.GoodDir cs fs heads l)
    (hfound : (dir.lookupFileInner cs fs name now).map Prod.fst = some (some range))
    (hchild : child.ChildOf fs heads dir range lf)
    (hrun : dir.removeChild cs fs child name now = some (fs', dir', child')) :
    ∃ l', dir.Unlinked cs fs heads child l lf name range fs' dir' l' := by
  obtain ⟨hhead, hf, hdir, hcap, hseq, segs, tail, hlay, hunique⟩ := hgood
  obtain ⟨⟨result, fs₁, dir₁⟩, hdel, hchecked⟩ := Option.bind_eq_some_iff.mp hrun
  obtain ⟨⟨⟩, hassert, hrest⟩ := Option.bind_eq_some_iff.mp hchecked
  obtain ⟨range', rfl⟩ := Option.isSome_iff_exists.mp (assert_eq_some.mp hassert)
  obtain ⟨u, gbk, xs, g, zs, l', hu, hgbk, hlookup, rfl, hnamed, hrange, hstep, hpre, hin, hgone, -⟩ :=
    File.delFile_some hs hhead hf hdir hcap hlay.toGroupLayout hdel
  have hold := fun other now => hf.lookup_fst hs.toMounted hdir hlay.toGroupLayout cs other now
  obtain rfl : range' = range := by
    rw [hold, hu, hgbk, Option.bind_some, Option.map_some, Option.some.injEq] at hfound
    exact Option.some.inj (hlookup.symm.trans hfound)
  subst hrange
  have hcap' : l'.length * bytesPerClus fs₁.bpb < 2 ^ 32 := by
    rw [hstep.bpb]
    exact Nat.lt_of_le_of_lt (Nat.mul_le_mul_right _ hpre.length_le) hcap
  have hseq' := hseq.of_prefix hpre
  have hfst := hstep.worked.fstClus
  rw [← hstep.bpb] at hin
  -- the entry that is left of the group
  have hentry : (fs₁.dirEntries l')[(flat EntryGroup.entries xs).length]? =
      some (fs₁.entryAt l' (flat EntryGroup.entries xs).length) := FAT32fs.getElem?_dirEntries hin
  have hfirst : isLongDirEntry (fs₁.entryAt l' (flat EntryGroup.entries xs).length) = false ∧
      setDirEntryEmpty (fs₁.entryAt l' (flat EntryGroup.entries xs).length) = deletedEntry := by
    obtain ⟨e, rest, hes, hshort, hmark, -⟩ := hgone
    rw [hes, List.getElem?_append_right le_rfl, Nat.sub_self, List.getElem?_cons_zero, Option.some.injEq] at hentry
    rw [← hentry]
    exact ⟨hshort, hmark⟩
  obtain ⟨fs₂, hdestroy, hbpb, hsane, hplaced, hent, hfreed, hkept⟩ := File.selfDestruct_child hstep.sane
    (hchild.dirStep hstep) (hfst ▸ hhead) hstep.placed hcap' hseq' hin hfirst.1
  obtain ⟨⟨fs₃, child₃⟩, hdestroy', hresult⟩ := Option.bind_eq_some_iff.mp hrest
  obtain ⟨rfl, rfl⟩ := Prod.mk.inj (Option.some.inj (hdestroy.symm.trans hdestroy'))
  rw [Option.pure_def, Option.some.injEq, Prod.mk.injEq, Prod.mk.injEq] at hresult
  obtain ⟨rfl, rfl, -⟩ := hresult
  have hgone' := hgone.set
  rw [hfirst.2] at hent
  rw [← hent] at hgone'
  obtain ⟨segs', tail', hlay', hblocks', -⟩ := hgone'.layout hlay.toGroupLayout
  have hblocks : blocks EntryGroup.entries 0 (xs ++ .block g :: zs) = blocks EntryGroup.entries 0 xs ++
      ((flat EntryGroup.entries xs).length, g) ::
        blocks EntryGroup.entries ((flat EntryGroup.entries xs).length + g.size) zs := by
    rw [blocks_append, blocks, Nat.zero_add, EntryGroup.length_entries]
  have hsublist : (blocks EntryGroup.entries 0 segs').Sublist (blocks EntryGroup.entries 0 (xs ++ .block g :: zs)) := by
    rw [hblocks, hblocks']
    exact (List.Sublist.refl _).append (List.sublist_cons_self _ _)
  have hdir' : dir₁.isDir = true := hstep.worked.isDir.trans hdir
  have hnew := fun other now => hplaced.lookup_fst hsane.toMounted hdir' hlay' cs other now
  have hremove := fun u gbk => dirLookup_remove u gbk hblocks hblocks'
  refine ⟨l', hsane, ⟨?_, hplaced, hdir', by rwa [hbpb], hseq', segs', tail', ⟨hlay', fun p hp => hlay.few p (hsublist.subset hp)⟩,
      fun n u gbk hu hgbk => ?_⟩,
    fun now' => ?_, fun other now' hne => ?_, fun other now' r hr k hlow hhigh => ?_, hfreed, fun x hx => ?_,
    fun other hother hne hnechild l₂ hw x hx => ?_⟩
  · refine ⟨hfst ▸ hhead, fun heq => ?_⟩
    rcases hchild.owned with hzero | ⟨-, hne⟩
    · exact zero_notMem_heads hs.owners (hzero ▸ heq ▸ hfst ▸ hhead)
    · exact hne (heq.symm.trans hfst)
  · exact (hunique n u gbk hu hgbk).sublist hsublist
  · rw [hnew, hu, hgbk, Option.bind_some, Option.map_some, (hremove u gbk).2 hnamed (hunique name u gbk hu hgbk)]
  · rw [hold] at hne
    rw [hnew, hold]
    cases hu' : cs.utf8ToUtf16 other with
    | none => rfl
    | some u' =>
      cases hgbk' : cs.utf8ToGbk (toUpper other) with
      | none => rfl
      | some gbk' =>
        rw [hu', hgbk', Option.bind_some, Option.map_some] at hne
        rw [Option.bind_some, Option.bind_some, Option.map_some, Option.map_some,
          (hremove u' gbk').1 fun heq => hne (congrArg some heq)]
  · rw [hnew] at hr
    obtain ⟨u', -, hr⟩ := Option.bind_eq_some_iff.mp hr
    obtain ⟨gbk', -, hr⟩ := Option.map_eq_some_iff.mp hr
    exact hlay.toGroupLayout.entries_kept hlay' (fun p hp => hsublist.subset hp) hr hlow hhigh
  · exact hplaced.chain.used x hx
  · rw [hkept other hother hnechild l₂ (hw.frame (hstep.others other hother hne l₂ hw)) x hx,
      hstep.others other hother hne l₂ hw x hx]

end unlink

/-- When `fat32_unlink` or `fat32_rmdir` replies 0, the name is gone, the other files of the directory are found with their entries, and the chain of the file is free. -/
theorem fat32Unlink_correct (cs : Charset) (fs : FAT32fs) (heads : Set Nat) (dir : File) (l : List Nat)
    (hs : fs.Sane heads) (hgood : dir.GoodDir cs fs heads l) (name : List UInt8) (now : FatTimeStamp)
    (range : DirEntryRange) (hfound : (dir.lookupFileInner cs fs name now).map Prod.fst = some (some range))
    (child : File) (lf : List Nat) (hchild : child.ChildOf fs heads dir range lf) (fs' : FAT32fs) (dir' : File)
    (child' : Option File)
    (hrun : fat32Unlink cs fs dir (some child) name now = some (.ok, fs', dir', child') ∨
      fat32Rmdir cs fs dir (some child) name now = some (.ok, fs', dir', child')) :
    ∃ l', dir.Unlinked cs fs heads child l lf name range fs' dir' l' := by
  rcases hrun with hrun | hrun
  · rw [fat32Unlink] at hrun
    dsimp only at hrun
    split_ifs at hrun
    · cases hrun
    · obtain ⟨⟨fs₁, dir₁, child₁⟩, hremove, hresult⟩ := Option.bind_eq_some_iff.mp hrun
      obtain ⟨rfl, rfl, -⟩ := by simpa using hresult
      exact File.removeChild_unlinked hs hgood hfound hchild hremove
  · rw [fat32Rmdir] at hrun
    dsimp only at hrun
    split_ifs at hrun with hdir
    · cases hrun
    · have hdir : child.isDir = true := by simpa using hdir
      obtain ⟨⟨is_empty, child₁⟩, hempty, hrest⟩ := Option.bind_eq_some_iff.mp hrun
      have hsame : child.Same child₁ ∧ child₁.Placed fs lf := by
        rw [File.isEmpty] at hempty
        split_ifs at hempty <;>
          exact File.Placed.scanEntries_same hs.toMounted hchild.placed hdir hempty
      dsimp only at hrest
      split_ifs at hrest
      · cases hrest
      · obtain ⟨⟨fs₁, dir₁, child₂⟩, hremove, hresult⟩ := Option.bind_eq_some_iff.mp hrest
        obtain ⟨rfl, rfl, -⟩ := by simpa using hresult
        obtain ⟨l', hunlinked⟩ := File.removeChild_unlinked hs hgood hfound
          (hchild.of_same hsame.1 hsame.2) hremove
        have hfst : child₁.fstClus = child.fstClus := by rw [hsame.1]
        obtain ⟨hsane, hgood', hgone, hothers, hentries, hfreed, hparent, hchains⟩ := hunlinked
        rw [hfst] at hsane hgood' hchains
        exact ⟨l', hsane, hgood', hgone, hothers, hentries, hfreed, hparent, hchains⟩

/-! A root directory with the files `A`, which has the clusters 3 and 4, and `B`. -/

def filedEntry (i : Nat) : ShortDirEntry :=
  if i = 0 then { listedEntry 0 with fstClusLow := 3, fileSz := 600 } else listedEntry i

theorem filedEntry_isShort (i : Fin 3) : isEmptyDirEntry (castShortDirEntryToLong (filedEntry i)) = false ∧
    isLongDirEntry (castShortDirEntryToLong (filedEntry i)) = false := by
  revert i
  decide +kernel

def filedGroup (i : Fin 3) : EntryGroup := .ofShort _ (filedEntry_isShort i).1 (filedEntry_isShort i).2

def twoFilesFs : FAT32fs := filedFs [3, 4] [0, 1] fun i => (filedEntry i).bytes

theorem twoFilesFs_sane : twoFilesFs.Sane {3, 2} ∧ rootDir.Placed twoFilesFs [2] ∧
    Walk twoFilesFs.table Eoc 3 [3, 4] := filedFs_sane (by decide) (by decide) _ _

private theorem twoFilesFs_layout : DirLayout (twoFilesFs.dirEntries [2]) [.block (filedGroup 0), .block (filedGroup 1)]
    (List.replicate 14 (LongDirEntry.ofBytes fun _ => 0)) := by
  refine .of_short ⟨by decide +kernel, ?_, ?_⟩ ?_
  · simp
  · simpa using isLstEmpty_zero.1
  · rintro g hg
    rcases List.mem_pair.mp hg with hg | hg <;> cases hg <;> rfl

private theorem twoFilesFs_good : rootDir.GoodDir asciiCharset twoFilesFs {3, 2} [2] := by
  refine ⟨.inr rfl, twoFilesFs_sane.2.1, rfl, by decide, by decide, _, _, twoFilesFs_layout, fun _ u gbk _ _ =>
    List.pairwise_pair.mpr fun hboth => ?_⟩
  have hsame : (filedGroup 0).shortName = (filedGroup 1).shortName := hboth.1.trans hboth.2.symm
  revert hsame
  decide

/-- The object `lookupFile` makes of the first entry. -/
def fileWithChain : File := .ofEntry 2 0 [0x41] (filedEntry 0)

private theorem fileWithChain_child : fileWithChain.ChildOf twoFilesFs {3, 2} rootDir ⟨0, 1⟩ [3, 4] :=
  ⟨rfl, rfl, rfl, ⟨.inr ⟨by decide, twoFilesFs_sane.2.2, by decide⟩, .inl rfl⟩, .inr ⟨.inl (by decide), by decide⟩⟩

theorem fat32Unlink_correct_two_files : ∃ fs' dir' child' l',
    fat32Unlink asciiCharset twoFilesFs rootDir (some fileWithChain) [0x41] ⟨0, 0⟩ = some (.ok, fs', dir', child') ∧
    rootDir.Unlinked asciiCharset twoFilesFs {3, 2} fileWithChain [2] [3, 4] [0x41] ⟨0, 1⟩ fs' dir' l' := by
  have hreply : (fat32Unlink asciiCharset twoFilesFs rootDir (some fileWithChain) [0x41] ⟨0, 0⟩).map Prod.fst =
      some .ok := by decide +kernel
  obtain ⟨⟨reply, fs', dir', child'⟩, hrun, rfl⟩ := Option.map_eq_some_iff.mp hreply
  obtain ⟨l', hunlinked⟩ := fat32Unlink_correct asciiCharset twoFilesFs {3, 2} rootDir [2] twoFilesFs_sane.1
    twoFilesFs_good [0x41] ⟨0, 0⟩ ⟨0, 1⟩ (by decide +kernel) fileWithChain [3, 4] fileWithChain_child fs' dir' child'
    (.inl hrun)
  exact ⟨fs', dir', child', l', hrun, hunlinked⟩

/-! A root directory of two clusters with a file in its first entry. -/

def unlinkFs : FAT32fs :=
  ⟨smallBpb, (smallRun (smallTable [2, 3])).fat,
    (smallRun (smallTable [2, 3])).device.write 34 0 (castShortDirEntryToLong (listedEntry 0)).bytes⟩

theorem unlinkFs_sane : unlinkFs.Sane {2} ∧ rootDir.Placed unlinkFs [2, 3] := by
  obtain ⟨hh, hplaced⟩ := smallRoot_healthy (.inl rfl) le_rfl (castShortDirEntryToLong (listedEntry 0)).bytes
  exact ⟨hh.sane, hplaced⟩

theorem unlinkFs_layout : DirLayout (unlinkFs.dirEntries [2, 3]) [.block (listedGroup 0)]
    (List.replicate 31 (LongDirEntry.ofBytes fun _ => 0)) := by
  refine .of_short ⟨by decide +kernel, ?_, ?_⟩ ?_
  · simp
  · simpa using isLstEmpty_zero.1
  · rintro g hg
    cases List.mem_singleton.mp hg
    rfl

private theorem unlinkFs_good : rootDir.GoodDir asciiCharset unlinkFs {2} [2, 3] :=
  ⟨Set.mem_singleton 2, unlinkFs_sane.2, rfl, by decide, by decide, _, _, unlinkFs_layout,
    fun _ _ _ _ _ => List.pairwise_singleton _ _⟩

/-- The object `lookupFile` makes. -/
def unlinkFile : File := .ofEntry 2 0 [0x41] (listedEntry 0)

private theorem unlinkFile_child : unlinkFile.ChildOf unlinkFs {2} rootDir ⟨0, 1⟩ [] :=
  ⟨rfl, rfl, rfl, ⟨.inl ⟨by decide, rfl⟩, .inl rfl⟩, .inl (by decide)⟩

private theorem unlinkFs_found : (rootDir.lookupFileInner asciiCharset unlinkFs [0x41] ⟨0, 0⟩).map Prod.fst =
    some (some ⟨0, 1⟩) := by decide +kernel

/-- The name `a` finds the short entry of `A`, and nothing when `A` has been unlinked. -/
theorem not_fat32Unlink_other_name : unlinkFs.Sane {2} ∧ rootDir.GoodDir asciiCharset unlinkFs {2} [2, 3] ∧
    unlinkFile.ChildOf unlinkFs {2} rootDir ⟨0, 1⟩ [] ∧
    (rootDir.lookupFileInner asciiCharset unlinkFs [0x41] ⟨0, 0⟩).map Prod.fst = some (some ⟨0, 1⟩) ∧
    (rootDir.lookupFileInner asciiCharset unlinkFs [0x61] ⟨0, 0⟩).map Prod.fst = some (some ⟨0, 1⟩) ∧
    ∃ fs' dir' child',
      fat32Unlink asciiCharset unlinkFs rootDir (some unlinkFile) [0x41] ⟨0, 0⟩ = some (.ok, fs', dir', child') ∧
      (dir'.lookupFileInner asciiCharset fs' [0x61] ⟨0, 0⟩).map Prod.fst = some none := by
  have hlost : ((fat32Unlink asciiCharset unlinkFs rootDir (some unlinkFile) [0x41] ⟨0, 0⟩).bind fun r =>
      ((r.2.2.1.lookupFileInner asciiCharset r.2.1 [0x61] ⟨0, 0⟩).map Prod.fst).map fun found => (r.1, found)) =
        some (.ok, none) := by decide +kernel
  obtain ⟨⟨reply, fs', dir', child'⟩, hrun, hlost⟩ := Option.bind_eq_some_iff.mp hlost
  obtain ⟨found, hlookup, heq⟩ := Option.map_eq_some_iff.mp hlost
  obtain ⟨rfl, rfl⟩ := Prod.mk.inj heq
  exact ⟨unlinkFs_sane.1, unlinkFs_good, unlinkFile_child, unlinkFs_found, by decide +kernel, fs', dir', child', hrun,
    hlookup⟩

end FuseFat32
