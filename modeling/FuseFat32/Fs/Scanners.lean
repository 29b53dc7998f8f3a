import FuseFat32.Fs.Create
import FuseFat32.Fs.Listing

/-!
# Which entries are live

`lookupFileInner` stops at the first end marker, and so does `isLstNonEmptyEntry`. `lookupFileByIndex` and the search of `crtFileInner` take an end marker for one more empty entry and go on behind it. The four agree on the files of a directory when nothing but empty entries follows the first end marker, every file has a name of its own, and the entries of each lie where `fromIno` and the destructors of the objects count them.
-/

namespace FuseFat32

open Segments

/-- What has been converted is converted back. -/
structure Charset.Inverts (cs : Charset) : Prop where
  utf16 : ∀ s t, cs.utf8ToUtf16 s = some t → cs.utf16ToUtf8 t = some s
  gbk : ∀ s t, cs.utf8ToGbk s = some t → cs.gbkToUtf8 t = some s

/-- Every group is the first one of a name that can be asked for. -/
def AllNamed (cs : Charset) (segs : List (Segment LongDirEntry EntryGroup)) : Prop :=
  ∀ p ∈ blocks EntryGroup.entries 0 segs, ∃ name u gbk, cs.utf8ToUtf16 name = some u ∧
    cs.utf8ToGbk (toUpper name) = some gbk ∧
    (blocks EntryGroup.entries 0 segs).find? (fun q => q.2.Named u gbk) = some p

/-- The files of the directory have the entries `ranges`, whichever loop looks for them. -/
structure File.ScannersAgree (cs : Charset) (fs : FAT32fs) (heads : Set Nat) (dir : File) (l : List Nat)
    (ranges : List DirEntryRange) : Prop where
  returnable : ∀ r, r ∈ ranges ↔ ∃ name now, (dir.lookupFileInner cs fs name now).map Prod.fst = some (some r)
  ordered : ranges.Pairwise fun r s => r.start + r.count ≤ s.start
  /-- Whatever objects the map has, and however many of them it can keep. -/
  listed : ∀ s : Driver, s.fs = fs → s.Belongs cs heads → ∀ now,
    (s.listFiles cs now slotFuel dir 0).map (fun r => r.1.map Prod.fst) = some ranges
  /-- The first two entries of a directory other than the root do not count. -/
  empty : ∀ now, (dir.isEmpty fs now).map Prod.fst =
    some (decide (∀ r ∈ ranges, r.start + r.count ≤ if dir.ino = kRootDirIno then 0 else 2))
  /-- The search of `crtFileInner` begins again at the entries of the files. -/
  occupied : ∀ k e, (fs.dirEntries l)[k]? = some e → ∀ required free, 0 < required →
    (searchStep required k e free = some (.inl (free.1, 0)) ↔ ∃ r ∈ ranges, r.start ≤ k ∧ k < r.start + r.count)
  created : ∀ name u gbk b is_dir now, StorableName cs name u gbk b is_dir now →
    (dir.lookupFileInner cs fs name now.ts).map Prod.fst = some none → fs.CreateOk l (requiredEntryNum u) →
    ∀ file fs' dir', dir.crtFileInner cs fs name is_dir now = some (some file, fs', dir') →
      ∀ at_, (dir'.lookupFileInner cs fs' name at_).map Prod.fst =
        some (some ⟨file.fstEntryNum, requiredEntryNum u⟩)

/-! ### Live entries -/

private theorem restEmpty_of_all : ∀ {es : List LongDirEntry}, (∀ e ∈ es, isEmptyDirEntry e = true) →
    restEmpty es = true := by
  intro es
  induction es with
  | nil => exact fun _ => rfl
  | cons e es ih =>
    exact fun h => restEmpty_cons (h e List.mem_cons_self) (ih fun e he => h e (List.mem_cons_of_mem _ he))

private theorem restEmpty_append_live {ys : List LongDirEntry} : ∀ {xs : List LongDirEntry},
    (∀ e ∈ xs, isLstEmptyDirEntry e = false) → (∃ e ∈ xs, isEmptyDirEntry e = false) →
    restEmpty (xs ++ ys) = false := by
  intro xs
  induction xs with
  | nil => exact fun _ ⟨e, he, _⟩ => absurd he List.not_mem_nil
  | cons x xs ih =>
    intro hlst hlive
    rw [List.cons_append, restEmpty]
    by_cases hx : isEmptyDirEntry x = true
    · obtain ⟨e, he, hlive⟩ := hlive
      have he : e ∈ xs := (List.mem_cons.mp he).resolve_left fun h => by simp [h, hx] at hlive
      rw [hx, Bool.not_true, if_neg Bool.false_ne_true, hlst x List.mem_cons_self, if_neg Bool.false_ne_true]
      exact ih (fun e he => hlst e (List.mem_cons_of_mem _ he)) ⟨e, he, hlive⟩
    · simp [hx]

section layout

variable {es tail : List LongDirEntry} {segs : List (Segment LongDirEntry EntryGroup)} {k : Nat} {e : LongDirEntry}

theorem GroupLayout.restEmpty_drop (h : GroupLayout es segs tail) (htail : ∀ e ∈ tail, isEmptyDirEntry e = true) (k : Nat) :
    restEmpty (es.drop k) = true ↔ ∀ p ∈ blocks EntryGroup.entries 0 segs, p.1 + p.2.size ≤ k := by
  constructor
  · intro hempty p hp
    by_contra hlate
    have hpos : 0 < p.2.size := Nat.succ_pos _
    have hle := group_end_le hp
    obtain ⟨e, he, -, hlive⟩ := h.exists_live (k := p.1 + p.2.size - 1) hp (by omega) (by omega)
    have hsplit : es.drop k = (Segments.flat EntryGroup.entries segs).drop k ++ tail := by
      rw [h.flat, List.drop_append_of_le_length (by omega)]
    have hmem : e ∈ (Segments.flat EntryGroup.entries segs).drop k := by
      refine List.mem_of_getElem? (i := p.1 + p.2.size - 1 - k) ?_
      rw [List.getElem?_drop, Nat.add_sub_cancel' (by omega), he]
    rw [hsplit, restEmpty_append_live (fun e he => h.isLst_of_mem (List.mem_of_mem_drop he)) ⟨e, hmem, hlive⟩] at hempty
    exact Bool.false_ne_true hempty
  · intro hearly
    refine restEmpty_of_all fun e he => ?_
    obtain ⟨i, hi, rfl⟩ := List.mem_iff_getElem.mp he
    rw [List.length_drop] at hi
    rcases Nat.lt_or_ge (k + i) (Segments.flat EntryGroup.entries segs).length with hin | hout
    · by_contra hlive
      have hlive : isEmptyDirEntry (es.drop k)[i] = false := by simpa using hlive
      obtain ⟨p, hp, -, hlt⟩ := (h.live_iff hin (by rw [List.getElem_drop, List.getElem?_eq_getElem])).mp hlive
      have := hearly p hp
      omega
    · refine htail _ ?_
      have hes := h.flat
      simp only [List.getElem_drop]
      subst hes
      rw [List.getElem_append_right hout]
      exact List.getElem_mem _

end layout

/-! ### When the four loops agree -/

section agree

variable {cs : Charset} {fs : FAT32fs} {heads : Set Nat} {dir : File} {l : List Nat} {tail : List LongDirEntry}
  {segs : List (Segment LongDirEntry EntryGroup)} {ranges : List DirEntryRange}

theorem searchStep_eq_iff {required k : Nat} {e : LongDirEntry} {free : Nat × Nat} (hpos : 0 < required) :
    searchStep required k e free = some (.inl (free.1, 0)) ↔ isEmptyDirEntry e = false := by
  rw [searchStep, Segments.count]
  cases isEmptyDirEntry e with
  | false =>
    rw [if_neg Bool.false_ne_true, if_neg (Nat.not_le.mpr hpos)]
    exact iff_of_true rfl rfl
  | true =>
    rw [if_pos rfl]
    refine iff_of_false (fun h => ?_) Bool.true_eq_false.mp
    split_ifs at h <;> simp at h

/-- What the lookups return are the ranges of the groups that are first of a name. -/
theorem File.Placed.returnable_iff (hm : fs.Mounted) (hf : dir.Placed fs l) (hdir : dir.isDir = true)
    (hlay : GroupLayout (fs.dirEntries l) segs tail) {r : DirEntryRange} :
    (∃ name now, (dir.lookupFileInner cs fs name now).map Prod.fst = some (some r)) ↔
      ∃ p ∈ blocks EntryGroup.entries 0 segs, r = groupRange p ∧ ∃ name u gbk, cs.utf8ToUtf16 name = some u ∧
        cs.utf8ToGbk (toUpper name) = some gbk ∧
        (blocks EntryGroup.entries 0 segs).find? (fun q => q.2.Named u gbk) = some p := by
  constructor
  · rintro ⟨name, now, hfound⟩
    rw [hf.lookup_fst hm hdir hlay] at hfound
    obtain ⟨u, hu, hfound⟩ := Option.bind_eq_some_iff.mp hfound
    obtain ⟨gbk, hgbk, hfound⟩ := Option.map_eq_some_iff.mp hfound
    obtain ⟨p, hfind, rfl⟩ := Option.map_eq_some_iff.mp hfound
    exact ⟨p, List.mem_of_find?_eq_some hfind, rfl, name, u, gbk, hu, hgbk, hfind⟩
  · rintro ⟨p, -, rfl, name, u, gbk, hu, hgbk, hfind⟩
    refine ⟨name, ⟨0, 0⟩, ?_⟩
    rw [hf.lookup_fst hm hdir hlay, hu, hgbk, Option.bind_some, Option.map_some, dirLookup, hfind]
    rfl

/-- When every entry that is taken belongs to a file that is found, the directory has no other live entries. -/
theorem File.ScannersAgree.named (hm : fs.Mounted) (hf : dir.Placed fs l) (hdir : dir.isDir = true)
    (hlay : GroupLayout (fs.dirEntries l) segs tail) (h : dir.ScannersAgree cs fs heads l ranges) :
    AllNamed cs segs ∧ ∀ e ∈ tail, isEmptyDirEntry e = true := by
  have htaken : ∀ k e, (fs.dirEntries l)[k]? = some e → isEmptyDirEntry e = false →
      ∃ q ∈ blocks EntryGroup.entries 0 segs, (q.1 ≤ k ∧ k < q.1 + q.2.size) ∧ ∃ name u gbk,
        cs.utf8ToUtf16 name = some u ∧ cs.utf8ToGbk (toUpper name) = some gbk ∧
        (blocks EntryGroup.entries 0 segs).find? (fun q => q.2.Named u gbk) = some q := by
    intro k e he hlive
    obtain ⟨r, hr, hin⟩ := (h.occupied k e he 1 (0, 0) Nat.one_pos).mp ((searchStep_eq_iff Nat.one_pos).mpr hlive)
    obtain ⟨q, hq, rfl, hname⟩ := (hf.returnable_iff hm hdir hlay).mp ((h.returnable r).mp hr)
    exact ⟨q, hq, hin, hname⟩
  constructor
  · intro p hp
    have hpos : 0 < p.2.size := Nat.succ_pos _
    obtain ⟨e, -, he, hlive⟩ := hlay.exists_live hp le_rfl (by omega)
    obtain ⟨q, hq, hin, hname⟩ := htaken p.1 e he hlive
    obtain rfl := groups_apart hq hp hin (by omega)
    exact hname
  · intro e he
    by_contra hlive
    obtain ⟨j, hj, rfl⟩ := List.mem_iff_getElem.mp he
    have hat : (fs.dirEntries l)[(flat EntryGroup.entries segs).length + j]? = some tail[j] := by
      rw [hlay.flat, List.getElem?_append_right (Nat.le_add_right _ _), Nat.add_sub_cancel_left,
        List.getElem?_eq_getElem hj]
    obtain ⟨q, hq, hin, -⟩ := htaken _ _ hat (by simpa using hlive)
    have := group_end_le hq
    omega

private theorem AllNamed.name_isSome (hcs : cs.Inverts) (h : AllNamed cs segs) {p : Nat × EntryGroup}
    (hp : p ∈ blocks EntryGroup.entries 0 segs) : (p.2.name cs).isSome = true := by
  obtain ⟨name, u, gbk, hu, hgbk, hfind⟩ := h p hp
  have hnamed : p.2.Named u gbk := by simpa using List.find?_some hfind
  rw [EntryGroup.Named] at hnamed
  rw [EntryGroup.name]
  split_ifs at hnamed ⊢
  · rw [hnamed, hcs.gbk _ _ hgbk]
    rfl
  · rw [EntryGroup.longName] at hnamed ⊢
    rw [hnamed, hcs.utf16 _ _ hu]
    rfl

/-- Groups with names, where the objects look for them, and nothing but empty entries behind them. -/
theorem File.scannersAgree_of_named (hcs : cs.Inverts) (hs : fs.Sane heads) (hhead : dir.fstClus ∈ heads)
    (hf : dir.Placed fs l) (hdir : dir.isDir = true) (hlay : GroupLayout (fs.dirEntries l) segs tail)
    (hself : ∀ p ∈ blocks EntryGroup.entries 0 segs, groupIno dir.fstClus p ≠ dir.ino)
    (hnamed : AllNamed cs segs) (htail : ∀ e ∈ tail, isEmptyDirEntry e = true) (hwalk : fs.Walkable l segs) :
    dir.ScannersAgree cs fs heads l ((blocks EntryGroup.entries 0 segs).map groupRange) := by
  have hm := hs.toMounted
  have hlimit : ∀ k, (∀ p ∈ blocks EntryGroup.entries 0 segs, p.1 + p.2.size ≤ k) ↔
      ∀ r ∈ (blocks EntryGroup.entries 0 segs).map groupRange, r.start + r.count ≤ k :=
    fun k => (List.forall_mem_map (f := groupRange) (P := fun r => r.start + r.count ≤ k)).symm
  refine ⟨fun r => ?_, ?_, ?_, fun now => ?_, fun k e he required free hpos => ?_,
    fun name u gbk b is_dir now hname habsent hok file fs' dir' hrun at_ =>
      File.crtFileInner_found hs hhead hf hdir hlay htail hname habsent hok hrun at_⟩
  · rw [hf.returnable_iff hm hdir hlay]
    constructor
    · intro hr
      obtain ⟨p, hp, rfl⟩ := List.mem_map.mp hr
      exact ⟨p, hp, rfl, hnamed p hp⟩
    · rintro ⟨p, hp, rfl, -⟩
      exact List.mem_map_of_mem hp
  · rw [List.pairwise_map]
    have hpair := (blocks_pairwise EntryGroup.entries segs 0).1
    simp only [EntryGroup.length_entries] at hpair
    exact hpair
  · rintro s rfl hbelongs now
    obtain ⟨files, dir', s', hrun, hfiles⟩ := hbelongs.listFiles hs hf hdir hhead hlay htail hwalk
      (fun p hp => hnamed.name_isSome hcs hp) hself now
    have hranges := congrArg (List.map Prod.fst) hfiles
    rw [List.map_map, List.map_map] at hranges
    rw [hrun]
    exact congrArg some hranges
  · rw [File.isEmpty]
    split_ifs with hroot
    · obtain ⟨g, -, -, hrun⟩ := hf.isLstNonEmptyEntry_eq hm hdir (n := -1) (by decide) now
      rw [hrun, Option.map_some, if_pos (by decide)]
      exact congrArg some (Bool.eq_iff_iff.mpr ((hlay.restEmpty_drop htail 0).trans ((hlimit 0).trans
        decide_eq_true_iff.symm)))
    · obtain ⟨g, -, -, hrun⟩ := hf.isLstNonEmptyEntry_eq hm hdir (n := 1) (by decide) now
      rw [hrun, Option.map_some, if_neg (by decide)]
      exact congrArg some (Bool.eq_iff_iff.mpr ((hlay.restEmpty_drop htail 2).trans ((hlimit 2).trans
        decide_eq_true_iff.symm)))
  · rw [searchStep_eq_iff hpos]
    rcases Nat.lt_or_ge k (flat EntryGroup.entries segs).length with hin | hout
    · rw [hlay.live_iff hin he]
      constructor
      · rintro ⟨p, hp, hrange⟩
        exact ⟨groupRange p, List.mem_map_of_mem hp, hrange⟩
      · rintro ⟨r, hr, hrange⟩
        obtain ⟨p, hp, rfl⟩ := List.mem_map.mp hr
        exact ⟨p, hp, hrange⟩
    · rw [hlay.flat, List.getElem?_append_right hout] at he
      rw [htail e (List.mem_of_getElem? he)]
      refine iff_of_false Bool.true_eq_false.mp ?_
      rintro ⟨r, hr, hrange⟩
      obtain ⟨p, hp, rfl⟩ := List.mem_map.mp hr
      have := group_end_le hp
      simp only [groupRange] at hrange
      omega

end agree

/-- The four loops agree when every group is the first of a name and lies where the objects look for it, and only empty entries follow the first end marker. The names and the empty entries are needed. -/
theorem File.scannersAgree_iff (cs : Charset) (hcs : cs.Inverts) (fs : FAT32fs) (heads : Set Nat) (dir : File)
    (l : List Nat) (hs : fs.Sane heads) (hhead : dir.fstClus ∈ heads) (hf : dir.Placed fs l)
    (hdir : dir.isDir = true) (segs : List (Segment LongDirEntry EntryGroup)) (tail : List LongDirEntry)
    (hlay : GroupLayout (fs.dirEntries l) segs tail)
    (hself : ∀ p ∈ blocks EntryGroup.entries 0 segs, groupIno dir.fstClus p ≠ dir.ino) :
    ((∃ ranges, dir.ScannersAgree cs fs heads l ranges) → AllNamed cs segs ∧ ∀ e ∈ tail, isEmptyDirEntry e = true) ∧
      (AllNamed cs segs ∧ (∀ e ∈ tail, isEmptyDirEntry e = true) ∧ fs.Walkable l segs →
        ∃ ranges, dir.ScannersAgree cs fs heads l ranges) :=
  ⟨fun ⟨_, hagree⟩ => hagree.named hs.toMounted hf hdir hlay, fun ⟨hnamed, htail, hwalk⟩ =>
    ⟨_, File.scannersAgree_of_named hcs hs hhead hf hdir hlay hself hnamed htail hwalk⟩⟩

/-! Twelve files with a letter each for a name, and a file behind an end marker. -/

/-- What UTF-16 stores of ASCII text, and nothing else. -/
def ofUtf16Ascii : List UInt8 → Option (List UInt8)
  | [] => some []
  | [_] => none
  | c :: z :: s => if c < 0x80 ∧ z = 0x00 then (ofUtf16Ascii s).map (c :: ·) else none

def strictAsciiCharset : Charset := { asciiCharset with utf16ToUtf8 := ofUtf16Ascii }

theorem strictAsciiCharset_inverts : strictAsciiCharset.Inverts := by
  constructor
  · intro s t h
    simp only [strictAsciiCharset, asciiCharset] at h ⊢
    split_ifs at h with hascii
    obtain rfl := Option.some.inj h
    clear h
    induction s with
    | nil => rfl
    | cons c s ih =>
      rw [List.all_cons, Bool.and_eq_true, decide_eq_true_eq] at hascii
      rw [List.flatMap_cons, List.cons_append, List.cons_append, List.nil_append, ofUtf16Ascii,
        if_pos ⟨hascii.1, rfl⟩, ih hascii.2, Option.map_some]
  · intro s t h
    simp only [strictAsciiCharset, asciiCharset] at h ⊢
    split_ifs at h with hascii
    obtain rfl := Option.some.inj h
    rw [if_pos hascii]

private theorem listedGroup_found (i : Fin 12) :
    strictAsciiCharset.utf8ToUtf16 [UInt8.ofNat (0x41 + i)] = some [UInt8.ofNat (0x41 + i), 0x00] ∧
    strictAsciiCharset.utf8ToGbk (toUpper [UInt8.ofNat (0x41 + i)]) = some [UInt8.ofNat (0x41 + i)] ∧
    (List.finRange 12).find? (fun j => (listedGroup j).Named [UInt8.ofNat (0x41 + i), 0x00] [UInt8.ofNat (0x41 + i)]) =
      some i := by
  revert i
  decide +kernel

private theorem listedSegs_allNamed : AllNamed strictAsciiCharset listedSegs := by
  rw [AllNamed, blocks_listedSegs]
  rintro p hp
  obtain ⟨i, -, rfl⟩ := List.mem_map.mp hp
  obtain ⟨hu, hgbk, hfind⟩ := listedGroup_found i
  refine ⟨_, _, _, hu, hgbk, ?_⟩
  rw [List.find?_map, Option.map_eq_some_iff]
  refine ⟨i, ?_, rfl⟩
  simp only [Function.comp_def]
  exact hfind

private theorem listedFs_walkable : (listedFs 0xFFFFFFFF).Walkable [2, 4] listedSegs := by
  constructor
  · intro p hp
    obtain ⟨i, rfl⟩ := mem_blocks_listedSegs hp
    exact .inl (Nat.lt_trans i.isLt (by decide))
  · intro p hp
    obtain ⟨i, rfl⟩ := mem_blocks_listedSegs hp
    have hclus : ∀ i : Fin 12, readEntryClusNo (castLongDirEntryToShort (listedGroup i).short) = 0 := by decide +kernel
    exact ⟨[], .inl ⟨hclus i, rfl⟩⟩

theorem File.scannersAgree_iff_twelve_files :
    ∃ ranges, rootDir.ScannersAgree strictAsciiCharset (listedFs 0xFFFFFFFF) {2} [2, 4] ranges :=
  (File.scannersAgree_iff strictAsciiCharset strictAsciiCharset_inverts (listedFs 0xFFFFFFFF) {2} rootDir [2, 4]
    (listedFs_sane _).1 (Set.mem_singleton 2) (listedFs_sane _).2 rfl listedSegs _ (listedFs_layout _).toGroupLayout
    (fun p _ => Nat.ne_of_gt (Nat.lt_of_lt_of_le (show rootDir.ino < 2 * 2 ^ 32 by decide) (Nat.le_add_right _ p.1)))).2
      ⟨listedSegs_allNamed, fun e he => List.eq_of_mem_replicate he ▸ isLstEmpty_zero.2, listedFs_walkable⟩

/-- Behind sixteen end markers `lookupFileByIndex` lists a file that no lookup returns, and `crtFileInner` takes its entry for one in use. -/
theorem not_scannersAgree_behind_marker : scatteredFs.Sane {2} ∧ rootDir.Placed scatteredFs [2, 4] ∧
    GroupLayout (scatteredFs.dirEntries [2, 4]) [] (scatteredFs.dirEntries [2, 4]) ∧
    ((⟨scatteredFs, ⟨20, []⟩⟩ : Driver).lookupFileByIndex strictAsciiCharset rootDir 0 ⟨0, 0⟩).map
      (fun r => r.1.map Prod.fst) = some (some ⟨16, 1⟩) ∧
    ¬ ∃ ranges, rootDir.ScannersAgree strictAsciiCharset scatteredFs {2} [2, 4] ranges := by
  have hlay : GroupLayout (scatteredFs.dirEntries [2, 4]) [] (scatteredFs.dirEntries [2, 4]) := by
    refine ⟨rfl, fun e he => absurd he List.not_mem_nil, ?_⟩
    decide +kernel
  refine ⟨scatteredFs_healthy.1.sane, scatteredFs_healthy.2, hlay, by decide +kernel, ?_⟩
  rintro ⟨ranges, hagree⟩
  obtain ⟨-, htail⟩ := hagree.named scatteredFs_healthy.1.mounted scatteredFs_healthy.2 rfl hlay
  have hlive : ¬ ∀ e ∈ scatteredFs.dirEntries [2, 4], isEmptyDirEntry e = true := by decide +kernel
  exact hlive htail

end FuseFat32
