import FuseFat32.Fs.Mkdir
import FuseFat32.Fuse.Rmdir

/-!
# Directories that are created

`fat32_mkdir` writes the group of the new directory first, and looks for a cluster then. Without one it takes the group out again, and the object that it has made writes its times to the entry that is left there. Clients see a directory without files, or the parent as it was with other times.
-/

namespace FuseFat32

open LinkedTable Layout Segments WriteBack

section settle

variable {cs : Charset} {t : Tree} {s : Driver} {σ : Nat → File} {dir f f' : File} {parent start c k : Nat}
  {fs fs' : FAT32fs} {table : Nat → List UInt8 → Option Nat} {ns : Namespace} {name u gbk : List UInt8}
  {b : BasisName} {now : FatTimeStamp2} {front back : List (Nat × EntryGroup)} {g : EntryGroup} {ts ts' : FatTimeStamp2}
  {clus clus' : Nat}

/-! ### The cluster of the directory -/

theorem File.Settled.notMem {heads : Set Nat} {es : List LongDirEntry} {now : FatTimeStamp} (h : f.Settled fs heads es now fs' f')
    (hs : fs.Sane heads) : f'.fstClus ∉ heads := by
  intro hmem
  have howners := hs.owners
  rw [hs.bpb] at howners
  obtain ⟨l, hw, -⟩ := howners.walk _ hmem
  exact notMem_chain_of_free howners h.fresh.2 hmem hw (hw.head_mem (howners.live _ hmem))

theorem File.Settled.shares {heads : Set Nat} {es : List LongDirEntry} {now : FatTimeStamp} (h : f.Settled fs heads es now fs' f')
    (hs : fs.Sane heads) : ∀ head ∈ heads, ∀ l, Walk fs.table Eoc head l → fs.Shares fs' l := fun head hhead l hw =>
  .of_clusters hs.sound (h.others head hhead (ne_of_mem_of_not_mem hhead (h.notMem hs)) l hw)

/-- What is pending stays so when the chains are kept. -/
theorem Driver.Pending.spared (h : s.Pending cs t σ dir table ns front back start g) (hbeside : s.fs.Beside fs')
    (hm' : fs'.Mounted)
    (hshares : ∀ head ∈ (t.run s.fs σ).heads t.dirs, ∀ l, Walk s.fs.table Eoc head l → s.fs.Shares fs' l) :
    Driver.Pending cs t ⟨fs', s.files⟩ σ dir table ns front back start g := by
  have hv : t.Volume cs s.fs σ := h.inDir.volume
  obtain ⟨hv', ha, hmade⟩ := hv.spared hbeside hm' hshares
  have hbpb := hbeside.bpb
  refine ⟨h.inDir.transport hv' ha hmade, h.map, h.shown.alike hv ha, hbpb.symm ▸ h.size, h.consecutive, ?_, h.lists, ?_⟩
  · rw [(hshares _ (.inl h.inDir.head) _ (hv.chain h.inDir.head).walk).dirEntries hbpb hv.mounted.sound]
    exact h.row
  · rw [hbpb]
    exact h.dots

/-! ### The new directory -/

theorem dotGroup_isDots {primary : List UInt8} (h : primary = [0x2E] ∨ primary = [0x2E, 0x2E]) :
    (dotGroup h ts clus now).IsDots :=
  ⟨rfl, (dotGroup_shortName h).symm ▸ h⟩

theorem dotGroup_named {primary : List UInt8} (h : primary = [0x2E] ∨ primary = [0x2E, 0x2E]) :
    (dotGroup h ts clus now).Named u gbk ↔ primary = gbk := by
  rw [EntryGroup.Named, if_pos (dotGroup_isDots h).1, dotGroup_shortName]

theorem GroupRow.dots (cs : Charset) (r : Nat) : GroupRow cs
    ([castShortDirEntryToLong (mkDotShortDirEntry ts clus now), castShortDirEntryToLong (mkDotDotShortDirEntry ts' clus' now)] ++
      List.replicate r (LongDirEntry.ofBytes fun _ => 0))
    [(0, dotGroup (.inl rfl) ts clus now), (1, dotGroup (.inr rfl) ts' clus' now)] := by
  refine ⟨_, _, .dots (.inl rfl) (.inr rfl) r, fun e he => ?_, fun name u gbk _ _ => ?_, rfl⟩
  · rw [List.eq_of_mem_replicate he]
    exact isLstEmpty_zero.2
  · refine List.pairwise_pair.mpr fun hnamed => ?_
    have hdot : [0x2E] = gbk := (dotGroup_named (.inl rfl)).mp hnamed.1
    have hdotdot : [0x2E, 0x2E] = gbk := (dotGroup_named (.inr rfl)).mp hnamed.2
    exact absurd (hdot.trans hdotdot.symm) (by decide)

/-- A directory with `.` and `..` alone has no names. -/
theorem Tree.Page.dots {r : Nat} (hs : fs.bpb.Sound) (hchain : t.chain c = [c]) (hno : ∀ k ∈ t.inos, k / 2 ^ 32 ≠ c)
    (hent : fs.dirEntries [c] = [castShortDirEntryToLong (mkDotShortDirEntry ts clus now),
      castShortDirEntryToLong (mkDotDotShortDirEntry ts' clus' now)] ++ List.replicate r (LongDirEntry.ofBytes fun _ => 0)) :
    t.Page cs fs c fun _ => none := by
  have hrow : GroupRow cs (fs.dirEntries [c]) [(0, dotGroup (.inl rfl) ts clus now), (1, dotGroup (.inr rfl) ts' clus' now)] :=
    hent ▸ GroupRow.dots cs r
  have hall : ∀ p ∈ [(0, dotGroup (.inl rfl) ts clus now), (1, dotGroup (.inr rfl) ts' clus' now)], p.2.IsDots ∧ p.1 < 2 := by
    intro p hp
    obtain rfl | rfl : p = (0, _) ∨ p = (1, _) := by simpa using hp
    · exact ⟨dotGroup_isDots (.inl rfl), Nat.zero_lt_two⟩
    · exact ⟨dotGroup_isDots (.inr rfl), Nat.one_lt_two⟩
  refine ⟨?_, ?_, _, hchain.symm ▸ hrow, ⟨fun p hp => .inr (hall p hp), fun p hp hk => ?_, fun k hk hdir => ?_⟩,
    fun _ i hi => ?_, ?_⟩
  · rw [hchain, List.length_singleton, Nat.one_mul]
    exact hs.bytesPerClus_lt
  · rw [hchain]
    exact fun k hk => by
      obtain rfl : k = 0 := Nat.lt_one_iff.mp hk
      rfl
  · exact absurd (groupIno_div (hrow.start_lt hs hp)).1 (hno _ hk)
  · exact absurd hdir (hno k hk)
  · obtain rfl | rfl : i = 0 ∨ i = 1 := by omega
    · exact ⟨_, List.mem_cons_self, dotGroup_isDots (.inl rfl)⟩
    · exact ⟨_, List.mem_cons_of_mem _ List.mem_cons_self, dotGroup_isDots (.inr rfl)⟩
  · funext name
    rw [inoNames]
    split_ifs with hplain
    · rw [eq_comm, Option.map_eq_none_iff, Option.eq_none_iff_forall_ne_some]
      intro range hfound
      obtain ⟨p, hp, -, hno⟩ := groupNames_plain hplain hfound
      exact hno (hall p hp).1
    · rfl

theorem File.Settled.stands {heads : Set Nat} {es : List LongDirEntry} (h : f.Settled fs heads es now.ts fs' f')
    (hs : fs.bpb.Sound) (hf : f = .ofEntry c start name (mkShortDirEntry b true now)) (hstart : start < 2 ^ 32)
    (htenths : now.tt.toNat ≤ 199) : f'.uncached.Stands (c * 2 ^ 32 + start) ∧ f'.name = name ∧ f'.isDir = true := by
  have hstands : f.Stands (c * 2 ^ 32 + start) := hf ▸ File.stands_ofEntry hstart htenths
  have hsame := h.object
  refine ⟨⟨⟨?_, ?_, ?_, rfl, (hs.dataClus_lt h.fresh.1).trans (by decide), ?_⟩, ?_⟩, ?_, ?_⟩
  · exact (congrArg File.parentClus hsame).trans hstands.parent
  · exact (congrArg File.fstEntryNum hsame).trans hstands.entry
  · exact (congrArg File.isDeleted hsame).trans hstands.live
  · exact (congrArg File.fileSz_ hsame).trans_lt hstands.size
  · rw [File.uncached, congrArg File.crtTime hsame]
    exact hstands.tenths
  · rw [congrArg File.name hsame, hf, File.ofEntry]
  · rw [congrArg File.isDir hsame, hf]
    exact isDirectory_mkShortDirEntry b true now

theorem File.Settled.view {heads : Set Nat} {es : List LongDirEntry} (h : f.Settled fs heads es now.ts fs' f')
    (hs : fs.bpb.Sound) (hf : f = .ofEntry c start name (mkShortDirEntry b true now)) (hdir : f'.isDir = true)
    (hchain : t.chain f'.fstClus = [f'.fstClus]) : t.View fs' f'.uncached (.createdDir fs.bpb now) := by
  have hsame := h.object
  refine ⟨hdir.symm, ?_, fun hfile => absurd (hdir.symm.trans hfile) (by decide), ?_, ?_, ?_⟩
  · have hchain' : t.chain f'.uncached.fstClus = [f'.fstClus] := hchain
    have hdir' : f'.uncached.isDir = true := hdir
    rw [if_pos hdir', hchain', h.beside.bpb, List.length_singleton, Nat.one_mul, u32_of_lt hs.bytesPerClus_lt]
    rfl
  · rw [File.uncached, congrArg File.crtTime hsame, hf]
    rfl
  · rw [File.uncached, congrArg File.accDate hsame, hf]
    rfl
  · rw [File.uncached, congrArg File.wrtTime hsame]
    rfl

/-- The directory that has come has its cluster, and joins those of the volume. -/
theorem Driver.Pending.directory (hcs : cs.Inverts) (h : s.Pending cs t σ dir table ns front back start g)
    (hparent : t.Names parent dir) (hplain : isPlainName cs name = true) (hname : StorableName cs name u gbk b true now)
    (hmade : g.MadeFor cs name u true) (hnames : ns.names parent = inoNames cs dir.fstClus (front ++ back))
    (hnone : groupNames cs (front ++ back) name = none) (htenths : now.tt.toNat ≤ 199)
    (hf : f = .ofEntry dir.fstClus start name (mkShortDirEntry b true now))
    (hsettled : f.Settled s.fs ((t.run s.fs σ).heads t.dirs) [castShortDirEntryToLong (mkDotShortDirEntry ts clus now),
      castShortDirEntryToLong (mkDotDotShortDirEntry ts' clus' now)] now.ts fs' f') : ∃ t' σ' table',
      Driver.InDir cs t' ⟨fs', s.files⟩ σ' [f'] dir ∧ f'.ino ≠ dir.ino ∧ ns.files f'.ino = none ∧
        t'.Shown cs fs' σ' table' (ns.addedDir parent name f'.ino (.createdDir s.fs.bpb now)) := by
  have hv : t.Volume cs s.fs σ := h.inDir.volume
  have hs := hv.mounted.sound
  have hnew : f'.fstClus ∉ (t.run s.fs σ).heads t.dirs := hsettled.notMem hv.sane
  have h' := h.spared hsettled.beside hsettled.sane.toMounted (hsettled.shares hv.sane)
  have hv' : t.Volume cs fs' σ := h'.inDir.volume
  obtain ⟨hstands, hfname, hkind⟩ := hsettled.stands hs hf h.start_lt htenths
  have hjoins := h'.joins (f := f'.uncached) (by
    rw [File.uncached, hfname, hkind]
    exact hmade) hstands
  obtain ⟨hdiv, -⟩ : (dir.fstClus * 2 ^ 32 + start) / 2 ^ 32 = dir.fstClus ∧ _ := groupIno_div (p := (start, g)) h.start_lt
  have hino : f'.ino = dir.fstClus * 2 ^ 32 + start := by
    have hplace : f'.ino = f'.parentClus * 2 ^ 32 + f'.fstEntryNum := rfl
    have hat : f'.parentClus = _ ∧ f'.fstEntryNum = _ := ⟨hstands.parent, hstands.entry⟩
    rw [hplace, hat.1, hat.2, Nat.div_add_mod']
  have hg : t.Gains (dir.fstClus * 2 ^ 32 + start) g.longs.length
      (t.withDir (dir.fstClus * 2 ^ 32 + start) g.longs.length f'.fstClus [f'.fstClus]) :=
    Tree.gains_withDir fun hmem => hnew (.inl hmem)
  have hself : (t.withDir (dir.fstClus * 2 ^ 32 + start) g.longs.length f'.fstClus [f'.fstClus]).chain f'.fstClus =
      [f'.fstClus] := Function.update_self ..
  have hdots : (t.withDir (dir.fstClus * 2 ^ 32 + start) g.longs.length f'.fstClus [f'.fstClus]).Page cs fs' f'.fstClus
      fun _ => none := by
    refine .dots hv'.mounted.sound hself (fun j hj heq => ?_) hsettled.entries
    rw [hg.inos] at hj
    rcases hj with rfl | hj
    · exact hnew (.inl ((heq.symm.trans hdiv).symm ▸ h.inDir.head))
    · exact hnew (.inl (heq ▸ (hv.listed j hj).1))
  have hbut := h'.shown.withDir hv' hjoins hdiv (h'.inDir.opens hparent) (fun hmem => hnew (.inl hmem)) hdots
    (hsettled.view hs hf hkind hself) name
  have hpage := h'.page hg hmade.notDots
  have hinserted := hmade.names hcs hplain hname hnames hnone start
  have hv'' := hv'.withDir hjoins hkind hnew hsettled.sane hsettled.placed.chain
  have hin := h'.inDir
  have hfresh := hjoins.new
  rw [← hino] at hg hv'' hbut hin hpage hinserted hfresh
  have hin' := hin.adopt h'.map hfresh hg hv'' ⟨⟨f'.clusChain_, rfl⟩, _, hsettled.placed⟩
  have hroot : 1 < f'.ino := hv''.root_lt (hg.inos ▸ Set.mem_insert _ _)
  refine ⟨_, _, _, hin', hin.ne_of_new hfresh (Nat.zero_lt_one.trans hroot).ne', h.shown.rest _ hfresh,
    hbut.shown (hin'.opens (hparent.imp_right fun hsub => ⟨.inr hsub.1, hsub.2⟩)) hpage ?_⟩
  have hne : parent ≠ f'.ino := by
    rintro rfl
    rcases hparent with ⟨hone, -⟩ | ⟨hsub, -⟩
    · exact hroot.ne' hone
    · exact hfresh (.inr hsub)
  rw [hinserted]
  exact (Function.update_of_ne hne ..).trans (Function.update_self ..)

end settle

section abandoned

variable {cs : Charset} {t : Tree} {s s' s₁ : Driver} {σ : Nat → File} {dir dir' f f' : File} {parent start k : Nat}
  {fs fs' : FAT32fs} {heads : Set Nat} {l lf : List Nat} {table : Nat → List UInt8 → Option Nat} {ns : Namespace}
  {name u gbk : List UInt8} {b : BasisName} {now : FatTimeStamp2} {front back front' back' gs : List (Nat × EntryGroup)}
  {g g' : EntryGroup} {es : List LongDirEntry} {e e' : LongDirEntry}

/-! ### The group that is taken out -/

/-- An empty entry may hold anything behind its first byte. -/
theorem GroupRow.set_blank (h : GroupRow cs es gs) (hk : es[k]? = some e) (he : isEmptyDirEntry e = true)
    (hord : e'.ord = e.ord) : GroupRow cs (es.set k e') gs := by
  obtain ⟨segs, tail, hlay, htail, hunique, rfl⟩ := h
  obtain ⟨segs', tail', hlay', hblocks, htail'⟩ := hlay.set_blank hk he hord
  refine ⟨segs', tail', hlay', fun x hx => ?_, fun name u gbk hu hgbk => hblocks ▸ hunique name u gbk hu hgbk, hblocks⟩
  rcases htail' x hx with hx | rfl
  · exact htail x hx
  · rwa [isEmptyDirEntry, hord]

private theorem GroupRow.middle_inj (h : GroupRow cs es (front ++ (start, g) :: back))
    (heq : front ++ (start, g) :: back = front' ++ (start, g') :: back') : front = front' ∧ back = back' := by
  have hmem : (start, g') ∈ front ++ (start, g) :: back := heq ▸ List.mem_append_right _ List.mem_cons_self
  obtain rfl : g' = g := congrArg Prod.snd (h.eq_of_start hmem (List.mem_append_right _ List.mem_cons_self) rfl)
  have hno : ∀ p ∈ front ++ back, p ≠ (start, g') := fun p hp hpg =>
    groupIno_ne (c := 0) h hp (congrArg (groupIno 0) hpg)
  have hboth := (List.append_cons_inj_of_notMem (fun hmem => hno _ (List.mem_append_left _ hmem) rfl)
    fun hmem => hno _ (List.mem_append_right _ hmem) rfl).mp heq
  exact ⟨hboth.1, hboth.2.2⟩

/-- An object without a group writes itself back, and the directory has the groups that it had. -/
theorem File.OpenDir.destroy (h : dir.OpenDir cs fs heads l gs) (hs : fs.Sane heads) (hseq : Consecutive l)
    (hleft : fs.LeftBehind l start) (hplaced : f.Placed fs lf) (hparent : f.parentClus = dir.fstClus)
    (hnum : f.fstEntryNum = start) (hlive : f.isDeleted = false) (hrun : f.destructor fs = some (fs', f')) :
    fs.DirStep heads dir l fs' dir l ∧ fs.Beside fs' ∧ dir.OpenDir cs fs' heads l gs := by
  obtain ⟨fs₁, f₁, e, hrun₁, hord, hstep, hbeside, hent⟩ := File.sync_abandoned hs h.placed h.size hleft.inside
    (hseq.slotsInOrder hs.sound h.size hleft.inside) hleft.short hplaced hparent hnum hlive
  obtain ⟨rfl, -⟩ := Prod.mk.inj (Option.some.inj (hrun₁.symm.trans hrun))
  refine ⟨hstep, hbeside, h.head, hstep.placed, h.isDir, hstep.bpb.symm ▸ h.size, ?_⟩
  rw [hent]
  exact h.row.set_blank (FAT32fs.getElem?_dirEntries hleft.inside) hleft.blank hord

theorem Driver.Pending.delFile (hcs : cs.Inverts) (h : s.Pending cs t σ dir table ns front back start g)
    (hname : StorableName cs name u gbk b true now) (hmade : g.MadeFor cs name u true)
    (hnone : groupNames cs (front ++ back) name = none) (hino : f.ino = dir.fstClus * 2 ^ 32 + start)
    (hrun : s.delFile cs [dir.ino, f.ino] dir name now.ts = some (true, dir', s')) : ∃ fs' l',
      s' = ⟨fs', (s.files.remove f.ino).2⟩ ∧
        s.fs.DirStep ((t.run s.fs σ).heads t.dirs) dir (t.chain dir.fstClus) fs' dir' l' ∧ s.fs.Beside fs' ∧
        l' <+: t.chain dir.fstClus ∧ fs'.LeftBehind l' start ∧
        dir'.OpenDir cs fs' ((t.run s.fs σ).heads t.dirs) l' (front ++ back) := by
  have hv : t.Volume cs s.fs σ := h.inDir.volume
  obtain ⟨range, fs₁, hinner, hremove⟩ := Driver.delFile_true hrun
  have hopen : dir.OpenDir cs s.fs ((t.run s.fs σ).heads t.dirs) (t.chain dir.fstClus) (front ++ (start, g) :: back) :=
    ⟨.inl h.inDir.head, h.inDir.placed, h.inDir.isDir, h.size, h.row⟩
  obtain ⟨segs, tail, hlay, -⟩ := hopen.row
  have hbeside := File.delFile_beside hv.sane hopen.head hopen.placed hopen.isDir hopen.size hlay hinner
  obtain ⟨front', g', back', l', hgs, -, hfound, hstep, hpre, hleft, hopen'⟩ := hopen.delFile hv.sane hinner
  have hown : ∀ other, cs.utf8ToUtf16 other = some u → other = name := fun other hother =>
    Option.some.inj ((hcs.utf16 _ _ hother).symm.trans (hcs.utf16 _ _ hname.utf16))
  have hinserted : groupNames cs (front ++ (start, g) :: back) = Function.update _ name (some ⟨start, g.size⟩) :=
    groupNames_insert hname.utf16 hname.gbk hmade.named hown hnone
  rw [hinserted, Function.update_self, Option.some.injEq] at hfound
  obtain rfl : start = range.start := congrArg DirEntryRange.start hfound
  obtain ⟨rfl, rfl⟩ := h.row.middle_inj hgs
  rw [hstep.worked.fstClus, ← hino] at hremove
  obtain rfl := Driver.rmFileFromCacheByIno_held (s := ⟨fs₁, s.files⟩) (fun p hp heq => List.mem_cons_of_mem _
    (List.mem_singleton.mpr ((h.map.keyed p hp).1.trans heq))) hremove
  exact ⟨fs₁, l', rfl, hstep, hbeside, hpre, hleft, hopen'⟩

/-- Nothing is left of the pending file but the times of its directory. -/
theorem Driver.Pending.abandon (hcs : cs.Inverts) (h : s.Pending cs t σ dir table ns front back start g)
    (hparent : t.Names parent dir) (hname : StorableName cs name u gbk b true now) (hmade : g.MadeFor cs name u true)
    (hnames : ns.names parent = inoNames cs dir.fstClus (front ++ back)) (hnone : groupNames cs (front ++ back) name = none)
    (hf : f = .ofEntry dir.fstClus start name (mkShortDirEntry b true now))
    (hdelete : s.delFile cs [dir.ino, f.ino] dir name now.ts = some (true, dir', s₁)) (hrelease : s₁.release f = some s') :
    ∃ t' σ' table' ns', s'.InDir cs t' σ' [] dir' ∧ ns.Worked parent ns' ∧ t'.Shown cs s'.fs σ' table' ns' ∧
      s'.fs.bpb = s.fs.bpb := by
  have hv : t.Volume cs s.fs σ := h.inDir.volume
  have hino : f.ino = dir.fstClus * 2 ^ 32 + start := by rw [hf, File.ino, File.ofEntry]
  obtain ⟨fs₁, l', rfl, hstep₁, hbeside₁, hpre, hleft, hopen₁⟩ := h.delFile hcs hname hmade hnone hino hdelete
  have hfst := hstep₁.worked.fstClus
  have hseq := h.consecutive.of_prefix hpre
  -- nobody else has the object
  have habsent : ¬ (s.files.remove f.ino).2.list.any (·.1 = f.ino) = true := by
    rw [List.any_eq_true]
    rintro ⟨p, hp, heq⟩
    exact (LRUCacheMap.mem_remove hp).2 (of_decide_eq_true heq)
  rw [Driver.release, if_neg habsent] at hrelease
  obtain ⟨⟨fs', f'⟩, hdestroy, hs'⟩ := Option.bind_eq_some_iff.mp hrelease
  obtain rfl := Option.some.inj hs'
  obtain ⟨hstep₂, hbeside₂, hopen⟩ := hopen₁.destroy hstep₁.sane hseq hleft (hf ▸ File.ofEntry_new_placed ..)
    (by rw [hf, hfst, File.ofEntry]) (by rw [hf, File.ofEntry]) (by rw [hf, File.ofEntry]) hdestroy
  have hstep := hstep₁.trans hstep₂ fun x hx => .inr hx
  have hbeside := hbeside₁.trans hbeside₂
  have hbpb := hbeside.bpb
  have hmem : ∀ {p}, p ∈ front ++ back → p ∈ front ++ (start, g) :: back := fun hp =>
    List.perm_middle.mem_iff.mpr (List.mem_cons_of_mem _ hp)
  have hnew := h.lists.notMem hv.mounted.sound h.row
  have hchain := hstep.placed.chain
  rw [hfst, hbpb] at hchain
  have hmoved : t.Moved s.fs σ dir.fstClus fs' l' := by
    refine .of_rows hv (fun k hk hdir => ?_) h.row hopen.row (fun p hp hk => ?_) hbeside hstep.sane
      (hstep.keepsOthers hv.sane (.inl h.inDir.head) h.inDir.placed) hchain (hbpb ▸ hopen.size) hseq
    · obtain ⟨p, hp, hpk⟩ := h.lists.all k hk hdir
      exact ⟨p, hmem hp, hpk⟩
    · refine (List.mem_cons.mp (List.perm_middle.mem_iff.mp hp)).resolve_left fun heq => hnew ?_
      rw [heq] at hk
      exact hk
  obtain ⟨σ', h', -, hheads, hviews⟩ := h.inDir.moved (fun _ => h.inDir.head_ne h.shown.spread) hmoved hstep.worked
    hopen.placed
  obtain ⟨ns', hworked, hviews'⟩ := hviews ns h.shown.views
  rw [hv.worked_dir h.shown.rest hparent] at hworked
  have hbut := h.shown.moved hv hmoved hheads hviews' hworked
  have hparent' : (t.rechained dir.fstClus l').Names parent dir' := by
    rw [Tree.Names, hstep.worked.ino]
    exact hparent
  have hopens := h'.opens hparent'
  have hself := t.rechained_self dir.fstClus l'
  rw [hfst] at hopens
  refine ⟨_, σ', _, ns', hino ▸ h', hworked, hbut.shown hopens
    (show Tree.Page cs _ _ _ (inoNames cs dir.fstClus (front ++ back)) from
      ⟨?_, ?_, _, ?_, ⟨h.lists.known, h.lists.plain, h.lists.all⟩, fun hne => h.dots (hbpb ▸ hne), rfl⟩) ?_, hbpb⟩
  · exact hself.symm ▸ hopen.size
  · exact hself.symm ▸ hseq
  · exact hself.symm ▸ hopen.row
  · exact (congrFun hworked.kept.1 parent).trans hnames

end abandoned

section mkdir

variable {cs : Charset} {t : Tree} {s s' : Driver} {σ : Nat → File} {dir dir' f' : File} {parent : Nat}
  {table : Nat → List UInt8 → Option Nat} {ns : Namespace} {name u gbk : List UInt8} {b : BasisName} {now : FatTimeStamp2}
  {answer : NameAnswer}

/-! ### The handler -/

theorem Driver.crtDir_some (hrun : s.crtDir cs dir name now = some (some f', dir', s')) : ∃ f fs₁ f₁ fs₂ f₂ fs' s₁,
    s.crtFileInner cs dir name true now = some (some f, dir', s₁) ∧
      f.truncate s₁.fs (bytesPerClus s₁.fs.bpb) = some (true, fs₁, f₁) ∧
      f₁.writeDirEntry fs₁ 0 (castShortDirEntryToLong (mkDotShortDirEntry dir'.crtTime f₁.fstClus now)) now.ts =
        some (true, fs₂, f₂) ∧
      f₂.writeDirEntry fs₂ 1 (castShortDirEntryToLong (mkDotDotShortDirEntry dir'.crtTime dir'.fstClus now)) now.ts =
        some (true, fs', f') ∧ s' = ⟨fs', s₁.files⟩ := by
  obtain ⟨⟨result, dir₁, s₁⟩, hcreate, hrest⟩ := Option.bind_eq_some_iff.mp hrun
  cases result with
  | none => simp at hrest
  | some f =>
    obtain ⟨⟨ok, fs₁, f₁⟩, htrunc, hrest⟩ := Option.bind_eq_some_iff.mp hrest
    cases ok with
    | false =>
      obtain ⟨⟨deleted, dir₂, s₂⟩, -, hrest⟩ := Option.bind_eq_some_iff.mp hrest
      obtain ⟨-, -, hrest⟩ := Option.bind_eq_some_iff.mp hrest
      obtain ⟨s₃, -, hrest⟩ := Option.bind_eq_some_iff.mp hrest
      simp at hrest
    | true =>
      obtain ⟨⟨ok, fs₂, f₂⟩, hdot, hrest⟩ := Option.bind_eq_some_iff.mp hrest
      obtain ⟨⟨⟩, hassert, hrest⟩ := Option.bind_eq_some_iff.mp hrest
      obtain ⟨⟨ok', fs', f₃⟩, hdotdot, hrest⟩ := Option.bind_eq_some_iff.mp hrest
      obtain ⟨⟨⟩, hassert', hrest⟩ := Option.bind_eq_some_iff.mp hrest
      obtain ⟨rfl, rfl, rfl⟩ : f₃ = f' ∧ dir₁ = dir' ∧ Driver.mk fs' s₁.files = s' := by simpa using hrest
      obtain rfl : ok = true := assert_eq_some.mp hassert
      obtain rfl : ok' = true := assert_eq_some.mp hassert'
      exact ⟨f, fs₁, f₁, fs₂, f₂, fs', s₁, hcreate, htrunc, hdot, hdotdot, rfl⟩

/-- A directory is made, and the handler has its object. -/
theorem Driver.InDir.crtDir_some (hcs : cs.Inverts) (h : s.InDir cs t σ [] dir) (hs : t.Shown cs s.fs σ table ns)
    (hparent : t.Names parent dir) (hplain : isPlainName cs name = true) (hname : StorableName cs name u gbk b true now)
    (htenths : now.tt.toNat ≤ 199) (habsent : table dir.fstClus name = none) (hroom : s.fs.RoomFor (t.chain dir.fstClus) u)
    (hrun : s.crtDir cs dir name now = some (some f', dir', s')) : ∃ t' σ' table' ns₁, ns.Worked parent ns₁ ∧
      s'.InDir cs t' σ' [f'] dir' ∧ f'.ino ≠ dir'.ino ∧ ns₁.files f'.ino = none ∧
      t'.Shown cs s'.fs σ' table' (ns₁.addedDir parent name f'.ino (.createdDir s.fs.bpb now)) ∧ s'.fs.bpb = s.fs.bpb := by
  obtain ⟨f, fs₁, f₁, fs₂, f₂, fs', s₁, hcreate, htrunc, hdot, hdotdot, rfl⟩ := Driver.crtDir_some hrun
  obtain ⟨t₁, σ₁, ns₁, front, back, start, g, hpending, hmade, hparent₁, hfile, hworked, hnames, hno, hbpb⟩ :=
    h.crtFileInner hcs hs hparent hplain hname habsent hroom hcreate
  rw [← hworked.kept.1] at hnames
  have hv : t₁.Volume cs s₁.fs σ₁ := hpending.inDir.volume
  have hempty : f.fstClus = 0 ∧ f.isDir = true := by
    rw [hfile]
    exact ⟨readEntryClusNo_mkShortDirEntry b true now, isDirectory_mkShortDirEntry b true now⟩
  have hsettled := File.settle hv.sane hv.files.hint hempty.1 (hfile ▸ File.ofEntry_new_placed ..) hempty.2 htrunc hdot hdotdot
  obtain ⟨t', σ', table', h', hne, hnone, hs'⟩ :=
    hpending.directory hcs hparent₁ hplain hname hmade hnames hno htenths hfile hsettled
  rw [hbpb] at hs'
  exact ⟨t', σ', table', ns₁, hworked, h', hne, hnone, hs', hsettled.beside.bpb.trans hbpb⟩

/-- No directory is made, and nothing is left of it. -/
theorem Driver.InDir.crtDir_none (hcs : cs.Inverts) (h : s.InDir cs t σ [] dir) (hs : t.Shown cs s.fs σ table ns)
    (hparent : t.Names parent dir) (hplain : isPlainName cs name = true) (hname : StorableName cs name u gbk b true now)
    (habsent : table dir.fstClus name = none) (hroom : s.fs.RoomFor (t.chain dir.fstClus) u)
    (hrun : s.crtDir cs dir name now = some (none, dir', s')) : ∃ t' σ' table' ns',
      s'.InDir cs t' σ' [] dir' ∧ ns.Worked parent ns' ∧ t'.Shown cs s'.fs σ' table' ns' ∧ s'.fs.bpb = s.fs.bpb := by
  rcases Driver.crtDir_none hrun with hcreate | ⟨f, dir₁, s₁, fs₂, f', s₃, hcreate, htrunc, hdelete, hrelease⟩
  · obtain ⟨fs', hinner, rfl⟩ := Driver.crtFileInner_none hcreate
    obtain ⟨σ', h', hbpb, hs'⟩ := h.crtFile_none hs hinner
    rw [h.volume.modify_dir hs.rest hparent] at hs'
    have htouched : ns.Touched parent (ns.modify parent fun v => { v with accDate := dir'.accDate }) := ⟨_, rfl⟩
    exact ⟨t, σ', table, _, h', htouched.worked, hs', hbpb⟩
  · obtain ⟨t₁, σ₁, ns₁, front, back, start, g, hpending, hmade, hparent₁, hfile, hworked, hnames, hno, hbpb⟩ :=
      h.crtFileInner hcs hs hparent hplain hname habsent hroom hcreate
    rw [← hworked.kept.1] at hnames
    have hv : t₁.Volume cs s₁.fs σ₁ := hpending.inDir.volume
    -- the free clusters have been counted
    obtain ⟨-, rfl, rfl⟩ := File.truncate_fails hv.mounted (hfile ▸ (File.ofEntry_new_placed ..).chain) htrunc
    have hcounted := hpending.spared (.counted s₁.fs) hv.counted.1.mounted fun _ _ _ _ => ⟨fun _ _ => rfl, fun _ _ => rfl⟩
    obtain ⟨t', σ', table', ns', h', hworked', hs', hbpb'⟩ :=
      hcounted.abandon hcs hparent₁ hname hmade hnames hno hfile hdelete hrelease
    exact ⟨t', σ', table', ns', h', hworked.trans hworked', hs', hbpb'.trans hbpb⟩

/-- `fat32_mkdir` does what clients are told. -/
theorem Driver.Has.fat32Mkdir (hcs : cs.Inverts) (h : s.Has cs ns) (hfits : (NameRequest.mkdir parent name now).Fits cs s ns)
    (hrun : s.fat32Mkdir cs parent name now = some (answer, s')) (unix2DosTs : Timespec → FatTimeStamp) : ∃ ns',
    ns.Step s.fs.bpb unix2DosTs answer ns' (.mkdir parent name now) ∧ s'.Has cs ns' ∧ s'.fs.bpb = s.fs.bpb := by
  obtain ⟨hd, hplain, htenths, hmkdir⟩ := hfits
  rw [Driver.fat32Mkdir] at hrun
  simp only [Namespace.Step]
  split_ifs at hrun ⊢ with hinvalid
  · obtain ⟨rfl, rfl⟩ : .err .einval = answer ∧ s = s' := by simpa using hrun
    exact ⟨ns, ⟨rfl, rfl⟩, h, rfl⟩
  obtain ⟨⟨dir, s₁⟩, hget, hrun⟩ := Option.bind_eq_some_iff.mp hrun
  obtain ⟨⟨result, dir₁, s₂⟩, hcrt, hrun⟩ := Option.bind_eq_some_iff.mp hrun
  obtain ⟨t, σ, table, dir', s₁', hget', hdir, hs, hparent, hbpb⟩ := h.getExistDir hd
  obtain ⟨rfl, rfl⟩ := Prod.mk.inj (Option.some.inj (hget.symm.trans hget'))
  obtain ⟨hnone, u, gbk, b, hname, hroom⟩ := hmkdir (by simpa using hinvalid)
  have hroom := hroom dir s₁ hget _ hdir.placed
  have habsent : table dir.fstClus name = none := (congrFun (hdir.names_eq hs hparent) name).symm.trans hnone
  cases result with
  | none =>
    obtain ⟨t', σ', table', ns', h', hworked, hs', hbpb'⟩ :=
      hdir.crtDir_none hcs hs hparent hplain hname habsent hroom hcrt
    obtain ⟨s₃, hrelease, hhas, hbpb''⟩ := h'.finish hs'
    simp only [hrelease, Option.bind_eq_bind, Option.bind_some, Option.pure_def, Option.some.injEq, Prod.mk.injEq] at hrun
    obtain ⟨rfl, rfl⟩ := hrun
    exact ⟨ns', .inl ⟨rfl, hworked⟩, hhas, hbpb''.trans (hbpb'.trans hbpb)⟩
  | some child =>
    obtain ⟨t', σ', table', ns₁, hworked, h', hne, hnone', hs', hbpb'⟩ :=
      hdir.crtDir_some hcs hs hparent hplain hname htenths habsent hroom hcrt
    obtain ⟨v, f', hfile, hstat, hino, -, h''⟩ := h'.view hs'
    obtain rfl := Option.some.inj (hfile.symm.trans (Function.update_self ..))
    obtain ⟨s₃, s₄, hrelease, hclose, hhas, hbpb''⟩ := h''.finish_file (hino.trans_ne hne) hs'
    simp only [hstat, hrelease, hclose, Option.bind_eq_bind, Option.bind_some, Option.pure_def, Option.some.injEq,
      Prod.mk.injEq] at hrun
    obtain ⟨rfl, rfl⟩ := hrun
    rw [← hbpb]
    exact ⟨_, .inr ⟨child.ino, ns₁, (hworked.kept.2 _).mp hnone', by rw [hino], hworked, rfl⟩, hhas,
      hbpb''.trans hbpb'⟩

end mkdir

end FuseFat32
