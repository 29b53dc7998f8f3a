import FuseFat32.Fuse.Creates

/-!
# Files that are deleted

`fat32_unlink` takes the group of a file out of its directory and releases the clusters of the file. Its inode number stands for nothing from then on: the map has no object for it, and the object that the handler holds is never written back.
-/

namespace FuseFat32

open LinkedTable Layout Segments WriteBack

section row

variable {cs : Charset} {t : Tree} {fs fs' fs₁ : FAT32fs} {heads : Set Nat} {c start : Nat} {dir dir₁ f f' : File}
  {l lf : List Nat} {front back gs : List (Nat × EntryGroup)} {g : EntryGroup} {es : List LongDirEntry} {name : List UInt8}
  {range : DirEntryRange} {now : FatTimeStamp}

/-! ### The group of the file -/

private theorem inoNames_remove (h : GroupRow cs es (front ++ (start, g) :: back)) :
    inoNames cs c (front ++ back) = fun name =>
      if inoNames cs c (front ++ (start, g) :: back) name = some (c * 2 ^ 32 + start) then none
      else inoNames cs c (front ++ (start, g) :: back) name := by
  funext name
  by_cases hplain : isPlainName cs name = true
  · have hiff : (groupNames cs (front ++ (start, g) :: back) name).map (fun range => c * 2 ^ 32 + range.start) =
        some (c * 2 ^ 32 + start) ↔ groupNames cs (front ++ (start, g) :: back) name = some ⟨start, g.size⟩ := by
      refine ⟨fun hmap => ?_, fun hfound => by rw [hfound]; rfl⟩
      obtain ⟨r, hr, hstart⟩ := Option.map_eq_some_iff.mp hmap
      obtain ⟨u, gbk, -, -, p, hfind, rfl⟩ := groupNames_eq_some.mp hr
      obtain rfl : p = (start, g) := h.eq_of_start (List.mem_of_find?_eq_some hfind)
        (List.mem_append_right _ List.mem_cons_self) (Nat.add_left_cancel hstart)
      exact hr
    have hremove : groupNames cs (front ++ back) name =
        if groupNames cs (front ++ (start, g) :: back) name = some ⟨start, g.size⟩ then none
        else groupNames cs (front ++ (start, g) :: back) name := congrFun (groupNames_remove h) name
    rw [inoNames, inoNames, if_pos hplain, if_pos hplain, hremove, if_congr hiff rfl rfl]
    split_ifs <;> rfl
  · rw [inoNames, inoNames, if_neg hplain, if_neg hplain, ite_self]

theorem Tree.Lists.remove (h : t.Lists c (front ++ (start, g) :: back))
    (hrow : GroupRow cs (fs.dirEntries l) (front ++ (start, g) :: back)) (c' : Nat) :
    (t.without (c * 2 ^ 32 + start) c').Lists c (front ++ back) := by
  have hmem : ∀ {p}, p ∈ front ++ back → p ∈ front ++ (start, g) :: back := fun hp =>
    List.perm_middle.mem_iff.mpr (List.mem_cons_of_mem _ hp)
  refine ⟨fun p hp => ?_, fun p hp => ?_, fun k hk hdir => ?_⟩
  · refine (h.known p (hmem hp)).imp_left fun ⟨hk, hlongs⟩ => ⟨?_, hlongs⟩
    rw [t.inos_without]
    exact ⟨hk, groupIno_ne hrow hp⟩
  · rw [t.inos_without]
    exact fun hk => h.plain p (hmem hp) hk.1
  · rw [t.inos_without] at hk
    obtain ⟨p, hp, hino⟩ := h.all k hk.1 hdir
    refine ⟨p, (List.mem_cons.mp (List.perm_middle.mem_iff.mp hp)).resolve_left fun heq => hk.2 ?_, hino⟩
    rw [← hino, heq]
    rfl

/-! ### Its clusters -/

/-- An object whose group is one short entry does nothing to the rest of the volume when it is destroyed. -/
theorem File.selfDestruct_others (hs : fs.Sane heads) (hchild : f.ChildOf fs heads dir range lf)
    (hhead : dir.fstClus ∈ heads) (hf : dir.Placed fs l) (hcap : l.length * bytesPerClus fs.bpb < 2 ^ 32)
    (hseq : Consecutive l) (hn : range.start < fs.bpb.dirSlots l)
    (hshort : isLongDirEntry (fs.entryAt l range.start) = false) (hrun : f.selfDestruct fs = some (fs', f')) :
    fs.Beside fs' ∧ fs.KeepsOthers (heads \ {f.fstClus}) dir.fstClus fs' := by
  have hm := hs.toMounted
  have hin : kDirEntrySize * (range.start + 0 + 1) ≤ u32 (l.length * bytesPerClus fs.bpb) := by
    rw [← hs.sound.dirSlots_mul l]
    exact Nat.mul_le_mul_left _ hn
  have horder : fs.bpb.SlotsInOrder l range.start 0 := hseq.slotsInOrder hs.sound hcap hn
  have hslots := ((slots_order_iff hm hf hin).mpr horder).trans
    (entrySlots_eq hm hf hin)
  have hgroup : GroupAt fs.device ((List.range (0 + 1)).map fun j => fs.bpb.slot l (range.start + j)) :=
    groupAt_map.mpr ⟨fun j hj => absurd hj (Nat.not_lt_zero j), hshort⟩
  obtain ⟨d', hdestroy, -, honly, -, -⟩ := File.selfDestruct_eq hm hf hin hslots hgroup hchild.placed hchild.parent
    hchild.start hchild.live
  obtain ⟨fs₂, hdestroy₂, -, -, -, -, -, hkept⟩ := File.selfDestruct_child hs hchild hhead hf hcap hseq hn hshort
  obtain ⟨rfl, -⟩ := Prod.mk.inj (Option.some.inj (hdestroy.symm.trans hrun))
  obtain ⟨rfl, -⟩ := Prod.mk.inj (Option.some.inj (hdestroy₂.symm.trans hrun))
  -- the mark lies in a cluster of the directory
  have hpos : kDirEntrySize * range.start < l.length * bytesPerClus fs.bpb := (slots_inside hin 0 le_rfl).1
  have hlow := (BPB.slot_bounds hs.sound hf.chain.data hpos).1
  have herased : ∀ s, s ≠ (fs.bpb.slot l range.start).1 → (fs.device.erased
      ((List.range (0 + 1)).map fun j => fs.bpb.slot l (range.start + j))).value s = fs.device.value s := fun s hne =>
    funext fun i => if_neg (by simpa using fun heq => hne (congrArg Prod.fst heq))
  refine ⟨⟨rfl, fun hhint => ?_, honly.secCnt, fun s hres => (honly.value s (.inl hres)).trans (herased s fun heq => ?_)⟩,
    fun other hother hne l₂ hw x hx => ⟨hkept other hother.1 hother.2 l₂ hw x hx, fun j hj => ?_⟩⟩
  · rw [FAT.freeCount_incTimes]
    exact hhint
  · have hfirst := hs.sound.firstDataSector
    omega
  · have hdata : fs.bpb.DataClus x := hs.bpb ▸ hs.owners.good_of_mem hother.1 hw hx
    refine (honly.value _ (.inr (hs.sound.sector_bounds hdata hj).1)).trans (herased _ fun heq => ?_)
    obtain ⟨hlt, hclus⟩ := BPB.chainSector_eq (hs.sound.sector_lt_of_pos hpos)
    have hmem := List.getElem_mem hlt
    have hsame := (hs.sound.sector_injective hdata (hf.chain.data _ hmem) hj (Nat.mod_lt _ hs.sound.secPerClus)
      (heq.trans hclus)).1
    rcases hf.chain with ⟨-, rfl⟩ | ⟨-, hc⟩
    · exact absurd hlt (Nat.not_lt_zero _)
    · exact hs.owners.notMem_of_mem hother.1 hhead hne.symm hw hc.walk hx (hsame ▸ hmem)

/-- A file that loses its name and is destroyed takes its group and its clusters away, and the others stay. -/
theorem File.OpenDir.removeChild (h : dir.OpenDir cs fs heads l gs) (hs : fs.Sane heads) (hseq : Consecutive l)
    (hchild : f.ChildOf fs heads dir range lf)
    (hdelete : dir.delFile cs fs name now = some (some range, fs₁, dir₁))
    (hdestroy : f.selfDestruct fs₁ = some (fs', f')) : ∃ front g back l', gs = front ++ (range.start, g) :: back ∧
      groupNames cs gs name = some range ∧ f' = { f with isDeleted := true } ∧ fs.Beside fs' ∧
      fs'.Sane (heads \ {f.fstClus}) ∧ fs.KeepsOthers (heads \ {f.fstClus}) dir.fstClus fs' ∧ dir.Worked dir₁ ∧
      l' <+: l ∧ dir₁.OpenDir cs fs' (heads \ {f.fstClus}) l' (front ++ back) := by
  obtain ⟨segs, tail, hlay, htail, hunique, rfl⟩ := h.row
  obtain ⟨u, gbk, xs, g, zs, l', hu, hgbk, hlookup, rfl, hnamed, rfl, hstep, hpre, hin, hgone, hrest⟩ :=
    File.delFile_some hs h.head h.placed h.isDir h.size hlay hdelete
  have hbeside := File.delFile_beside hs h.head h.placed h.isDir h.size hlay hdelete
  have hfst := hstep.worked.fstClus
  have hcap' : l'.length * bytesPerClus fs₁.bpb < 2 ^ 32 := by
    rw [hstep.bpb]
    exact Nat.lt_of_le_of_lt (Nat.mul_le_mul_right _ hpre.length_le) h.size
  have hseq' := hseq.of_prefix hpre
  rw [← hstep.bpb] at hin
  -- the entry that is left of the group
  have hentry : (fs₁.dirEntries l')[(flat EntryGroup.entries xs).length]? =
      some (fs₁.entryAt l' (flat EntryGroup.entries xs).length) := FAT32fs.getElem?_dirEntries hin
  have hfirst : isLongDirEntry (fs₁.entryAt l' (flat EntryGroup.entries xs).length) = false ∧
      setDirEntryEmpty (fs₁.entryAt l' (flat EntryGroup.entries xs).length) = deletedEntry := by
    obtain ⟨e, rest, hes, hshort, hmark, -⟩ := hgone
    rw [hes, List.getElem?_append_right le_rfl, Nat.sub_self, List.getElem?_cons_zero, Option.some.injEq] at hentry
    rw [← hentry]
    exact ⟨hshort, hmark⟩
  have hchild' := hchild.dirStep hstep
  obtain ⟨fs₂, hdestroy₂, hbpb, hsane, hplaced, hent, -, -⟩ := File.selfDestruct_child hstep.sane hchild' (hfst ▸ h.head)
    hstep.placed hcap' hseq' hin hfirst.1
  obtain ⟨rfl, rfl⟩ := Prod.mk.inj (Option.some.inj (hdestroy₂.symm.trans hdestroy))
  obtain ⟨hbeside', hothers⟩ := File.selfDestruct_others hstep.sane hchild' (hfst ▸ h.head) hstep.placed hcap' hseq' hin
    hfirst.1 hdestroy
  rw [hfst] at hothers
  have hothers' : fs.KeepsOthers (heads \ {f.fstClus}) dir.fstClus fs₁ := fun other hother =>
    hstep.keepsOthers hs h.head h.placed other hother.1
  rw [hfirst.2] at hent
  have hset := hgone.set
  rw [← hent] at hset
  obtain ⟨segs', tail', hlay', hblocks', htail'⟩ := hset.layout hlay
  have hblocks : blocks EntryGroup.entries 0 (xs ++ .block g :: zs) = blocks EntryGroup.entries 0 xs ++
      ((flat EntryGroup.entries xs).length, g) ::
        blocks EntryGroup.entries ((flat EntryGroup.entries xs).length + g.size) zs := by
    rw [blocks_append, blocks, Nat.zero_add, EntryGroup.length_entries]
  refine ⟨_, g, _, l', hblocks, ?_, rfl, hbeside.trans hbeside', hsane, hothers'.trans hothers hbeside.bpb, hstep.worked,
    hpre, ⟨?_, ?_⟩, hplaced, hstep.worked.isDir.trans h.isDir, hbpb.symm ▸ hcap', segs', tail', hlay', fun e he => ?_,
    fun other u' gbk' hu' hgbk' => ?_, hblocks'⟩
  · rw [groupNames_eq hu hgbk]
    exact hlookup
  · exact hfst ▸ h.head
  · rcases hchild.owned with hzero | ⟨-, hne⟩
    · exact fun heq => zero_notMem_heads hs.owners (hzero ▸ heq ▸ hfst ▸ h.head)
    · exact fun heq => hne (heq.symm.trans hfst)
  · rcases htail' e he with he | ⟨hno, he⟩
    · exact htail e he
    · rw [hent, List.drop_set, if_neg (Nat.lt_irrefl _), Nat.sub_self] at he
      rcases List.mem_or_eq_of_mem_set he with he | rfl
      · exact hrest hno htail e he
      · exact isEmpty_deletedEntry
  · refine (hunique other u' gbk' hu' hgbk').sublist ?_
    rw [hblocks, hblocks']
    exact (List.Sublist.refl _).append (List.sublist_cons_self _ _)

end row

section delete

variable {cs : Charset} {t : Tree} {s s' : Driver} {σ : Nat → File} {held : List File} {dir dir₁ f f' : File} {k parent : Nat}
  {fs₁ fs' : FAT32fs} {table : Nat → List UInt8 → Option Nat} {ns : Namespace} {name : List UInt8}
  {range : DirEntryRange} {now : FatTimeStamp} {answer : NameAnswer}

/-! ### The directory and the map -/

private theorem Driver.InDir.childOf (h : s.InDir cs t σ [f] dir) (hclus : (σ f.ino).fstClus ≠ dir.fstClus)
    (hdir : f.ino / 2 ^ 32 = dir.fstClus) (hstart : f.ino % 2 ^ 32 = range.start) :
    ∃ lf, f.ChildOf s.fs ((t.run s.fs σ).heads t.dirs) dir range lf := by
  have hv := h.volume
  obtain ⟨hk, hcache⟩ := h.shows
  have hstands := hv.stands _ hk
  obtain ⟨lf, hlf⟩ := hcache.placed
  refine ⟨lf, ?_, ?_, hcache.retimed.kind.2.trans (hv.live hk), hlf, ?_⟩
  · rw [hcache.retimed.place.1, hstands.parent, hdir]
  · rw [hcache.retimed.place.2, hstands.entry, hstart]
  · rw [hcache.retimed.data.1]
    exact (hv.head hk).imp_right fun hmem => ⟨hmem, hclus⟩

private theorem Namespace.Worked.of_removed {ns' : Namespace} (h : (ns.removed parent k).Worked parent ns') (hne : k ≠ parent) :
    ∃ ns₁, ns.Worked parent ns₁ ∧ ns' = ns₁.removed parent k := by
  obtain ⟨size, acc, wrt, rfl⟩ := h
  refine ⟨_, ⟨size, acc, wrt, rfl⟩, congrArg (Namespace.mk · _) ?_⟩
  have hkept : (ns.removed parent k).files parent = ns.files parent := Function.update_of_ne hne.symm ..
  rw [hkept]
  exact Function.update_comm hne _ _ _

/-- What is deleted is the file that has been looked up. -/
theorem Driver.InDir.delFile_ino (h : s.InDir cs t σ held dir) (hs : t.Shown cs s.fs σ table ns)
    (hname : table dir.fstClus name = some k) (hdelete : dir.delFile cs s.fs name now = some (some range, fs₁, dir₁)) :
    dir₁.fstClus = dir.fstClus ∧ dir.fstClus * 2 ^ 32 + range.start = k := by
  have hpage := hs.catalog.page _ h.head
  obtain ⟨gs, hrow, -, -, htable⟩ := hpage.names
  have hopen : dir.OpenDir cs s.fs ((t.run s.fs σ).heads t.dirs) (t.chain dir.fstClus) gs :=
    ⟨.inl h.head, h.placed, h.isDir, hpage.size, hrow⟩
  obtain ⟨_, _, _, _, -, -, hfound, hstep, -⟩ := hopen.delFile h.volume.sane hdelete
  refine ⟨hstep.worked.fstClus, ?_⟩
  rw [htable, inoNames] at hname
  split_ifs at hname
  rwa [hfound, Option.map_some, Option.some.injEq] at hname

/-- A file goes, with its names in the directory and its object in the map. -/
theorem Driver.InDir.removeChild (h : s.InDir cs t σ [f] dir) (hs : t.Shown cs s.fs σ table ns)
    (hparent : t.Names parent dir) (hname : table dir.fstClus name = some f.ino) (hvacant : t.Vacant σ f.ino)
    (halone : t.Alone σ f.ino) (hdir : f.ino / 2 ^ 32 = dir.fstClus)
    (hdelete : dir.delFile cs s.fs name now = some (some range, fs₁, dir₁))
    (hdestroy : f.selfDestruct fs₁ = some (fs', f')) : f' = { f with isDeleted := true } ∧ fs'.bpb = s.fs.bpb ∧ ∃ t' σ' table' ns₁,
        Driver.InDir cs t' ⟨fs', (s.files.remove f.ino).2⟩ σ' [] dir₁ ∧ ns.Worked parent ns₁ ∧
          t'.Shown cs fs' σ' table' (ns₁.removed parent f.ino) := by
  have hv := h.volume
  obtain ⟨hk, hcache⟩ := h.shows
  have hne := h.ne_dir hs.catalog.toSpread hk hdir
  have hclus : (σ f.ino).fstClus ≠ dir.fstClus := h.head_ne hs.catalog.toSpread hk hne
  have hpage := hs.catalog.page _ h.head
  obtain ⟨gs, hrow, hlists, hdots, htable⟩ := hpage.names
  have hopen : dir.OpenDir cs s.fs ((t.run s.fs σ).heads t.dirs) (t.chain dir.fstClus) gs :=
    ⟨.inl h.head, h.placed, h.isDir, hpage.size, hrow⟩
  -- both lookups have found the same group
  have hino := (h.delFile_ino hs hname hdelete).2
  have hstart : f.ino % 2 ^ 32 = range.start := by
    have hmul := Nat.div_add_mod' f.ino (2 ^ 32)
    rw [hdir] at hmul
    exact Nat.add_left_cancel (hmul.trans hino.symm)
  obtain ⟨lf, hchild⟩ := h.childOf hclus hdir hstart
  obtain ⟨front, g, back, l', rfl, hfound, hf', hbeside, hsane, hothers, hworked, hpre, hopen'⟩ :=
    hopen.removeChild hv.sane hpage.consecutive hchild hdelete hdestroy
  have hbpb := hbeside.bpb
  have hfst := hworked.fstClus
  have hmem : ∀ {p}, p ∈ front ++ (range.start, g) :: back → p ≠ (range.start, g) → p ∈ front ++ back := fun hp hpg =>
    (List.mem_cons.mp (List.perm_middle.mem_iff.mp hp)).resolve_left hpg
  -- it is not the group of `.` or of `..`
  have hgdots : ¬ g.IsDots := by
    rw [htable, inoNames] at hname
    split_ifs at hname with hplain
    obtain ⟨p, hp, hrange, hno⟩ := groupNames_plain hplain hfound
    obtain rfl : p = (range.start, g) := hrow.eq_of_start hp (List.mem_append_right _ List.mem_cons_self)
      (congrArg DirEntryRange.start hrange).symm
    exact hno
  generalize hwithout : t.without f.ino (σ f.ino).fstClus = t₁
  have hinos : t₁.inos = t.inos \ {f.ino} := hwithout ▸ t.inos_without ..
  have hdirs : t₁.dirs = t.dirs \ {(σ f.ino).fstClus} := hwithout ▸ rfl
  have hlists₁ : t₁.Lists dir.fstClus (front ++ back) := by
    have hremoved := hlists.remove hrow (σ f.ino).fstClus
    rwa [hino, hwithout] at hremoved
  have hchains : t₁.chain = t.chain := hwithout ▸ rfl
  have hlongs : t₁.longs = t.longs := hwithout ▸ rfl
  have hsub : t₁.inos ⊆ t.inos := hinos.symm ▸ Set.sdiff_subset
  have hheads : (t₁.run s.fs σ).heads t₁.dirs ⊆ (t.run s.fs σ).heads t.dirs \ {f.fstClus} := by
    rw [← hwithout, hcache.retimed.data.1]
    exact Tree.heads_without hv hk
  have hchain := hopen'.placed.chain
  rw [hfst, hbpb] at hchain
  have hdiscard : Driver.InDir cs t₁ ⟨s.fs, (s.files.remove f.ino).2⟩ σ [] dir :=
    hwithout ▸ h.discard hvacant halone hne hclus
  have hmoved : t₁.Moved s.fs σ dir.fstClus fs' l' := by
    refine .of_rows hdiscard.volume (fun j hj => hlists.all j (hsub hj)) (hchains.symm ▸ hrow) hopen'.row
      (fun p hp hpk => ?_) hbeside ⟨hsane.toMounted, hsane.owners.mono hheads⟩
      (fun other hother => hothers other (hheads hother)) hchain (hbpb ▸ hopen'.size) (hpage.consecutive.of_prefix hpre)
    rw [hinos] at hpk
    refine hmem hp fun heq => hpk.2 ?_
    rw [heq]
    exact hino
  obtain ⟨σ', h', -, hkept, hviews⟩ :=
    hdiscard.moved (fun j hj => h.head_ne hs.catalog.toSpread (hsub hj)) hmoved hworked hopen'.placed
  have hopens := h.opens hparent
  have hgone : f.ino ≠ parent := by
    rcases hparent with ⟨rfl, -⟩ | ⟨-, hparent⟩
    · exact (hv.root_lt hk).ne'
    · exact hparent ▸ hne
  have hbut := (hs.but dir.fstClus).without hv hk hdir hopens
  rw [hwithout] at hbut
  obtain ⟨ns', hns, hviews'⟩ := hviews _ hbut.views
  have hbut' := hbut.moved hdiscard.volume hmoved hkept hviews' hns
  have hparent₁ : t₁.Names parent dir := hwithout ▸ hparent.imp_right fun hsub => ⟨⟨hsub.1, hgone.symm⟩, hsub.2⟩
  rw [hdiscard.volume.worked_dir hbut.rest hparent₁] at hns
  obtain ⟨ns₁, hns₁, rfl⟩ := hns.of_removed hgone
  have hparent' : (t₁.rechained dir.fstClus l').Names parent dir₁ := by
    rw [Tree.Names, hworked.ino]
    exact hparent₁
  have hopens' := h'.opens hparent'
  rw [hfst] at hopens'
  have hself := t₁.rechained_self dir.fstClus l'
  refine ⟨hf', hbpb, _, σ', _, ns₁, h', hns₁, hbut'.shown hopens'
    (show Tree.Page cs _ _ _ (inoNames cs dir.fstClus (front ++ back)) from
      ⟨?_, ?_, _, ?_, ⟨hlists₁.known, hlists₁.plain, hlists₁.all⟩, fun hne => (hdots (hbpb ▸ hne)).mono fun p hp hpdots =>
        hmem hp fun heq => hgdots (by rwa [heq] at hpdots), rfl⟩) ?_⟩
  · exact hself.symm ▸ hopen'.size
  · exact hself.symm ▸ hpage.consecutive.of_prefix hpre
  · exact hself.symm ▸ hopen'.row
  · have hold : ns₁.names parent = inoNames cs dir.fstClus (front ++ (range.start, g) :: back) :=
      (congrFun hns₁.kept.1 parent).trans ((h.names_eq hs hparent).trans htable)
    rw [inoNames_remove hrow, ← hold, hino]
    exact Function.update_self ..

/-! ### The handler -/

/-- The object of a file that has gone is never written back. -/
theorem Driver.release_deleted (hdeleted : f.isDeleted = true) (habsent : ∀ p ∈ s.files.list, p.1 ≠ f.ino) :
    s.release f = some s := by
  have hnot : ¬ s.files.list.any (·.1 = f.ino) = true := by
    rw [List.any_eq_true]
    exact fun ⟨p, hp, heq⟩ => habsent p hp (of_decide_eq_true heq)
  rw [Driver.release, if_neg hnot, File.destructor, File.sync, if_pos hdeleted]
  rfl

theorem Driver.InDir.keyed (h : s.InDir cs t σ held dir) : ∀ p ∈ s.files.list, p.2.ino = p.1 := by
  rcases h.holds with ⟨-, -, h⟩ | ⟨-, h⟩ <;> exact fun p hp => (h.keyed p hp).1

private theorem Driver.selfDestruct_some (hkeyed : ∀ p ∈ s.files.list, p.2.ino = p.1) (hlive : f.isDeleted = false)
    (hroot : f.ino ≠ kRootDirIno) (hrun : s.selfDestruct f = some (f', s')) : ∃ fs', f.selfDestruct s.fs = some (fs', f') ∧
      s' = ⟨fs', (s.files.remove f'.ino).2⟩ := by
  rw [Driver.selfDestruct, if_neg (by simp [hlive, hroot])] at hrun
  obtain ⟨⟨fs', f₁⟩, hdestroy, hrun⟩ := Option.bind_eq_some_iff.mp hrun
  obtain ⟨s₁, hremove, hrun⟩ := Option.bind_eq_some_iff.mp hrun
  obtain ⟨rfl, rfl⟩ := Prod.mk.inj (Option.some.inj hrun)
  exact ⟨fs', hdestroy, Driver.rmFileFromCacheByIno_held (s := ⟨fs', s.files⟩)
    (fun p hp heq => List.mem_singleton.mpr ((hkeyed p hp).trans heq)) hremove⟩

/-- The directory loses the file that has been looked up, and the handler lets go of both objects. -/
theorem Driver.InDir.delete {s₁ s₂ : Driver} (h : s.InDir cs t σ [f] dir) (hs : t.Shown cs s.fs σ table ns)
    (hparent : t.Names parent dir) (hname : table dir.fstClus name = some f.ino) (hvacant : t.Vacant σ f.ino)
    (halone : t.Alone σ f.ino) (hclus : f.ino / 2 ^ 32 = dir.fstClus) {result : Bool}
    (hdelete : s.delFile cs [dir.ino, f.ino] dir name now = some (result, dir₁, s₁)) (hresult : result = true)
    (hdestroy : s₁.selfDestruct f = some (f', s₂)) : ∃ ns₁ s₃ s', ns.Worked parent ns₁ ∧ s₂.release f' = some s₃ ∧
      s₃.release dir₁ = some s' ∧ s'.Has cs (ns₁.removed parent f.ino) ∧ s'.fs.bpb = s.fs.bpb := by
  obtain ⟨⟨result₁, fs₁, dir₂⟩, hinner, hdelete⟩ := Option.bind_eq_some_iff.mp hdelete
  cases result₁ with
  | none =>
    obtain ⟨rfl, -, -⟩ : false = result ∧ dir₂ = dir₁ ∧ Driver.mk fs₁ s.files = s₁ := by simpa using hdelete
    exact absurd hresult Bool.false_ne_true
  | some range =>
    obtain ⟨s₁', hremove, hdelete⟩ := Option.bind_eq_some_iff.mp hdelete
    obtain ⟨-, rfl, rfl⟩ : true = result ∧ dir₂ = dir₁ ∧ s₁' = s₁ := by simpa using hdelete
    have hkeyed := h.keyed
    obtain ⟨hk, hcache⟩ := h.shows
    have hroot : f.ino ≠ kRootDirIno := (Nat.zero_lt_one.trans (h.volume.root_lt hk)).ne'
    -- the map loses the object, and the handler holds it
    obtain ⟨hfst, hino⟩ := h.delFile_ino hs hname hinner
    rw [hfst, hino] at hremove
    obtain rfl := Driver.rmFileFromCacheByIno_held (s := ⟨fs₁, s.files⟩)
      (fun p hp heq => List.mem_cons_of_mem _ (List.mem_singleton.mpr ((hkeyed p hp).trans heq))) hremove
    obtain ⟨fs', hdestroy', rfl⟩ := Driver.selfDestruct_some (fun p hp => hkeyed p (LRUCacheMap.mem_remove hp).1)
      (hcache.retimed.kind.2.trans (h.volume.live hk)) hroot hdestroy
    obtain ⟨rfl, hbpb, t', σ', table', ns₁, h', hworked, hs'⟩ :=
      h.removeChild hs hparent hname hvacant halone hclus hinner hdestroy'
    have hfiles : ((s.files.remove f.ino).2.remove f.ino).2 = (s.files.remove f.ino).2 := by
      rw [LRUCacheMap.remove_eq, LRUCacheMap.remove_eq]
      simp only [List.filter_filter, Bool.and_self]
    have hsame : File.ino { f with isDeleted := true } = f.ino := rfl
    rw [hsame, hfiles]
    have hrelease : Driver.release ⟨fs', (s.files.remove f.ino).2⟩ { f with isDeleted := true } =
        some ⟨fs', (s.files.remove f.ino).2⟩ := Driver.release_deleted rfl fun p hp => (LRUCacheMap.mem_remove hp).2
    obtain ⟨s', hclose, hhas, hbpb'⟩ := h'.finish hs'
    exact ⟨ns₁, _, s', hworked, hrelease, hclose, hhas, hbpb'.trans hbpb⟩

/-- `fat32_unlink` does what clients are told. -/
theorem Driver.Has.fat32Unlink (h : s.Has cs ns) (hd : ns.HasDir parent) (hplain : isPlainName cs name = true)
    (hrun : s.fat32Unlink cs parent name now = some (answer, s')) (bpb : BPB) (unix2DosTs : Timespec → FatTimeStamp) :
    ∃ ns', ns.Step bpb unix2DosTs answer ns' (.unlink parent name now) ∧ s'.Has cs ns' ∧ s'.fs.bpb = s.fs.bpb := by
  obtain ⟨⟨dir, s₁⟩, hget, hrun⟩ := Option.bind_eq_some_iff.mp hrun
  obtain ⟨⟨found, dir₁, s₂⟩, hlookup, hrun⟩ := Option.bind_eq_some_iff.mp hrun
  obtain ⟨t, σ, table, acc, hfound, hbpb, -⟩ := h.lookupFile hd hplain hget hlookup
  simp only [Namespace.Step]
  rw [hfound.found]
  cases found with
  | none =>
    obtain ⟨s₃, hrelease, hhas, hbpb'⟩ := hfound.finish
    simp only [hrelease, Option.bind_eq_bind, Option.bind_some, Option.pure_def, Option.some.injEq, Prod.mk.injEq] at hrun
    obtain ⟨rfl, rfl⟩ := hrun
    exact ⟨_, ⟨rfl, acc, rfl⟩, hhas, hbpb'.trans hbpb⟩
  | some child =>
    obtain ⟨hclus, hne, hnotdir⟩ := hfound.file child rfl
    have hdir₁ : s₂.InDir cs t σ [child] dir₁ := hfound.inDir
    obtain ⟨v, -, hfile, -, -, hkind, -⟩ := hdir₁.view hfound.shown
    rw [ns.modify_files_of_ne hnotdir] at hfile
    dsimp only at hrun
    split_ifs at hrun with hdir
    · obtain ⟨s₃, s₄, hrelease, hclose, hhas, hbpb'⟩ := hdir₁.finish_file hne hfound.shown
      simp only [hrelease, hclose, Option.bind_eq_bind, Option.bind_some, Option.pure_def, Option.some.injEq,
        Prod.mk.injEq] at hrun
      obtain ⟨rfl, rfl⟩ := hrun
      refine ⟨_, ⟨v, hfile, ?_⟩, hhas, hbpb'.trans hbpb⟩
      rw [if_pos (hkind.trans hdir)]
      exact ⟨rfl, acc, rfl⟩
    · obtain ⟨⟨result, dir₂, s₃⟩, hdelete, hrun⟩ := Option.bind_eq_some_iff.mp hrun
      obtain ⟨⟨⟩, hassert, hrun⟩ := Option.bind_eq_some_iff.mp hrun
      obtain ⟨⟨child', s₄⟩, hdestroy, hrun⟩ := Option.bind_eq_some_iff.mp hrun
      obtain ⟨hk, hcache⟩ := hdir₁.shows
      have hname : table dir₁.fstClus name = some child.ino := (congrFun hfound.names name).symm.trans hfound.found
      have hkfile : child.ino ∈ t.files := ((hdir₁.volume.kind hk).resolve_right fun hsub =>
        hdir (hcache.retimed.kind.1.trans hsub.2)).1
      obtain ⟨hvacant, halone⟩ := hdir₁.volume.vacant_file hkfile
      obtain ⟨ns₁, s₅, s₆, hworked, hrelease, hclose, hhas, hbpb'⟩ := hdir₁.delete hfound.shown hfound.opened hname hvacant
        halone hclus hdelete (assert_eq_some.mp hassert) hdestroy
      simp only [hrelease, hclose, Option.bind_eq_bind, Option.bind_some, Option.pure_def, Option.some.injEq,
        Prod.mk.injEq] at hrun
      obtain ⟨rfl, rfl⟩ := hrun
      refine ⟨_, ⟨v, hfile, ?_⟩, hhas, hbpb'.trans hbpb⟩
      rw [if_neg (by rw [hkind]; exact hdir)]
      exact ⟨ns₁, rfl, .of_touched ⟨acc, rfl⟩ hworked, rfl⟩

end delete

end FuseFat32
