import FuseFat32.Fuse.Lookups

/-!
# A directory that changes under a handler

A handler that creates or deletes a file works on the object of the directory, and then on the map. Each of the steps leaves one object for every inode number of the tree that the step has made. Names are compared at the end only: in between the directory may have the group of a file that has not come yet, or not the one of a file that has not gone yet.
-/

namespace FuseFat32

open LinkedTable Layout Segments WriteBack

section groups

variable {cs : Charset} {t t' : Tree} {fs fs' : FAT32fs} {σ : Nat → File} {c k m m' n : Nat} {l : List Nat}
  {gs gs' : List (Nat × EntryGroup)} {p : Nat × EntryGroup} {names : List UInt8 → Option Nat}

/-! ### Groups of a directory -/

theorem FAT32fs.LiveGroup.unique (h : fs.LiveGroup l n m) (h' : fs.LiveGroup l n m') : m = m' := by
  rcases Nat.lt_trichotomy m m' with hlt | heq | hlt
  · exact absurd (h'.long m hlt) (by rw [h.short]; decide)
  · exact heq
  · exact absurd (h.long m' hlt) (by rw [h'.short]; decide)

theorem Tree.Volume.group (hv : t.Volume cs fs σ) (hrow : GroupRow cs (fs.dirEntries (t.chain c)) gs')
    (hall : ∃ p ∈ gs, groupIno c p = k) (hsub : gs ⊆ gs') (hk : k ∈ t.inos) (hdir : k / 2 ^ 32 = c) :
    ∃ p ∈ gs, groupIno c p = k ∧ p.1 = k % 2 ^ 32 ∧ p.2.longs.length = t.longs k := by
  obtain ⟨p, hp, hino⟩ := hall
  have hp' := hsub hp
  have hstart : p.1 = k % 2 ^ 32 :=
    (groupIno_div (hrow.start_lt hv.mounted.sound hp')).2.symm.trans (congrArg (· % 2 ^ 32) hino)
  have hlisted := (hv.listed k hk).2
  rw [Tree.Listed, hdir, ← hstart] at hlisted
  exact ⟨p, hp, hino, hstart, (hrow.liveGroup hp').2.2.unique hlisted.live⟩

theorem GroupRow.entryAt_eq {l' : List Nat} (h : GroupRow cs (fs.dirEntries l) gs) (h' : GroupRow cs (fs'.dirEntries l') gs')
    (hp : p ∈ gs) (hp' : p ∈ gs') {i : Nat} (hi : i ≤ p.2.longs.length) :
    fs'.entryAt l' (p.1 + i) = fs.entryAt l (p.1 + i) := by
  have hmap := (h.liveGroup hp).2.1.trans (h'.liveGroup hp').2.1.symm
  exact (List.map_inj_left.mp hmap i (List.mem_range.mpr (Nat.lt_succ_of_le hi))).symm

/-- Where the groups of the files are left in place, nothing else of a directory matters to them. -/
theorem Tree.Moved.of_rows (hv : t.Volume cs fs σ) (hall : ∀ k ∈ t.inos, k / 2 ^ 32 = c → ∃ p ∈ gs, groupIno c p = k)
    (hrow : GroupRow cs (fs.dirEntries (t.chain c)) gs) (hrow' : GroupRow cs (fs'.dirEntries l) gs')
    (hkept : ∀ p ∈ gs, groupIno c p ∈ t.inos → p ∈ gs') (hbeside : fs.Beside fs')
    (hsane : fs'.Sane ((t.run fs σ).heads t.dirs)) (hothers : fs.KeepsOthers ((t.run fs σ).heads t.dirs) c fs')
    (hchain : fs.bpb.ChainOf fs'.table c l) (hcap : l.length * bytesPerClus fs.bpb < 2 ^ 32) (hseq : Consecutive l) :
    t.Moved fs σ c fs' l := by
  have hbpb := hbeside.bpb
  refine ⟨hbeside, hsane, hothers, hchain, fun k hk hdir => ?_, fun k hk hdir i hi => ?_⟩
  · obtain ⟨p, hp, rfl, hstart, hlongs⟩ := hv.group hrow (hall k hk hdir) (List.Subset.refl gs) hk hdir
    rw [← hstart, ← hlongs]
    exact hrow'.groupOf hsane.sound (hbpb.symm ▸ hchain) (hbpb.symm ▸ hcap) hseq (hkept p hp hk)
  · obtain ⟨p, hp, rfl, hstart, hlongs⟩ := hv.group hrow (hall k hk hdir) (List.Subset.refl gs) hk hdir
    rw [← hstart]
    exact hrow.entryAt_eq hrow' hp (hkept p hp hk) (hlongs.symm ▸ hi)

/-- A directory that nothing has happened to has its names. -/
theorem Tree.Page.carry (h : t.Page cs fs c names) (hbpb : fs'.bpb = fs.bpb) (hchain : t'.chain c = t.chain c)
    (hent : ∀ n < fs.bpb.dirSlots (t.chain c), fs'.entryAt (t.chain c) n = fs.entryAt (t.chain c) n)
    (hinos : ∀ k, k / 2 ^ 32 = c → (k ∈ t'.inos ↔ k ∈ t.inos) ∧ t'.longs k = t.longs k) (hs : fs.bpb.Sound) :
    t'.Page cs fs' c names := by
  obtain ⟨gs, hrow, hlists, hdots, hnames⟩ := h.names
  have hes : fs'.dirEntries (t.chain c) = fs.dirEntries (t.chain c) := by
    rw [FAT32fs.dirEntries, FAT32fs.dirEntries, hbpb]
    exact List.map_congr_left fun n hn => hent n (List.mem_range.mp hn)
  refine ⟨?_, hchain.symm ▸ h.consecutive, gs, ?_, ⟨fun p hp => ?_, fun p hp => ?_, fun k hk hdir => ?_⟩,
    fun hne => hdots (hbpb ▸ hne), hnames⟩
  · rw [hchain, hbpb]
    exact h.size
  · rwa [hchain, hes]
  · have hsame := hinos _ (groupIno_div (hrow.start_lt hs hp)).1
    rw [hsame.1, hsame.2]
    exact hlists.known p hp
  · rw [(hinos _ (groupIno_div (hrow.start_lt hs hp)).1).1]
    exact hlists.plain p hp
  · exact hlists.all k ((hinos k hdir).1.mp hk) hdir

end groups

section indir

variable {cs : Charset} {t : Tree} {s : Driver} {σ : Nat → File} {held : List File} {dir dir' f g : File} {j k n : Nat}
  {fs' : FAT32fs} {l : List Nat}

/-! ### The object of the directory -/

theorem Driver.InDir.head_ne (h : s.InDir cs t σ held dir) (hc : t.Spread s.fs σ) (hj : j ∈ t.inos)
    (hne : j ≠ dir.ino) : (σ j).fstClus ≠ dir.fstClus := by
  intro heq
  rcases hj with hj | hj
  · exact h.volume.files.notRest ⟨j, hj⟩ (h.volume.live (.inl hj)) (heq ▸ h.head)
  · rcases h.holds with ⟨-, hfst, -⟩ | ⟨hsub, hholds⟩
    · exact (hc.below j hj).1 (heq.trans hfst)
    · exact hne (hc.apart j hj _ hsub (heq.trans hholds.shows.2.retimed.data.1))

theorem Tree.View.worked {fs : FAT32fs} {v : FileView} (hview : t.View fs f v) (hbpb : fs'.bpb = fs.bpb)
    (hkind : g.isDir = f.isDir) (hfst : g.fstClus = f.fstClus) (hcrt : g.crtTime = f.crtTime) (hdir : f.isDir = true) :
    (t.rechained f.fstClus l).View fs' g
      { v with size := u32 (l.length * bytesPerClus fs.bpb), accDate := g.accDate, wrtTime := g.wrtTime } := by
  refine ⟨hview.isDir.trans hkind.symm, ?_, fun hfile => ?_, hview.crtTime.trans hcrt.symm, rfl, rfl⟩
  · rw [hkind, if_pos hdir, hfst, t.rechained_self, hbpb]
  · exact absurd (hfile.symm.trans (hkind.trans hdir)) (by decide)

/-- Work on the directory leaves its object with another chain and other times. -/
theorem Driver.InDir.moved (h : s.InDir cs t σ held dir)
    (hne : ∀ j ∈ t.inos, j ≠ dir.ino → (σ j).fstClus ≠ dir.fstClus) (hm : t.Moved s.fs σ dir.fstClus fs' l)
    (heq : dir.Worked dir') (hplaced : dir'.Placed fs' l) : ∃ σ',
      Driver.InDir cs (t.rechained dir.fstClus l) ⟨fs', s.files⟩ σ' held dir' ∧ (∀ j ≠ dir.ino, σ' j = σ j) ∧
        (∀ j ∈ t.subdirs, (σ' j).fstClus = (σ j).fstClus) ∧ ∀ ns, t.Views s.fs σ ns →
          ∃ ns', ns.Worked dir.ino ns' ∧ (t.rechained dir.fstClus l).Views fs' σ' ns' := by
  have hv := h.volume
  have hv' := hm.volume hv h.head
  have hino : dir'.ino = dir.ino := by rw [heq, File.ino, File.ino]
  have hfst := heq.fstClus
  have hretimed := File.Worked.retimed heq
  have hlive : dir'.isDeleted = false := hretimed.kind.2.trans h.live
  have hself := t.rechained_self dir.fstClus l
  have hcache : dir'.clusChain_ = none ∨ dir'.clusChain_ = some ((t.rechained dir.fstClus l).chain dir'.fstClus) := by
    rw [hfst, hself]
    exact hplaced.cache
  rcases h.holds with ⟨hroot, hclus, hholds⟩ | ⟨hsub, hholds⟩
  · have hother : ∀ {j}, j ∈ t.inos → j ≠ dir.ino := fun hj heq =>
      absurd (hv.root_lt hj) (by rw [heq, hroot]; decide)
    have hc : Coherent ((t.rechained dir.fstClus l).reading cs) t.inos fs' σ _ := hholds.coherent.transport hv'
      (fun j hj hhas => (hm.fromIno hv hj).trans hhas) fun j hj a ha => hm.mayCache hv hj (hne j hj (hother hj)) ha
    refine ⟨σ, ⟨.inl ⟨hino.trans hroot, ?_, hholds.room, hholds.distinct, hholds.keyed, hc⟩, hfst.symm ▸ h.head, hcache,
      heq.isDir.trans h.isDir, hlive⟩, fun _ _ => rfl, fun _ _ => rfl, fun ns hns => ⟨_, ⟨0, dir'.accDate, dir'.wrtTime, rfl⟩,
        fun k hk => ?_⟩⟩
    · rw [hfst, hclus, hm.beside.bpb]
    · obtain ⟨v, hfile, hview⟩ := hns k hk
      exact ⟨v, (ns.modify_files_of_ne (hother hk) _).trans hfile, hm.view hv hk (hne k hk (hother hk)) hview⟩
  · obtain ⟨hk, hg⟩ := hholds.shows
    have hcrt : dir'.crtTime = (σ dir.ino).crtTime := by
      rw [heq]
      exact hg.times.1
    have hupdate : ∀ j ≠ dir.ino, Function.update σ dir.ino dir'.uncached j = σ j := fun j hj => Function.update_of_ne hj ..
    have hnew : Function.update σ dir.ino dir'.uncached dir.ino = dir'.uncached := Function.update_self ..
    have hholds' : Driver.Holds cs (t.rechained dir.fstClus l) ⟨fs', s.files⟩ (Function.update σ dir.ino dir'.uncached)
        (dir' :: held) [] := by
      refine hholds.reshaped rfl ?_ hupdate hino (hnew.symm ▸ ⟨⟨dir'.clusChain_, rfl⟩, l, hplaced⟩)
        (fun j hj _ hhas => (hm.fromIno hv hj).trans hhas) fun j hj hjk a ha => hm.mayCache hv hj (hne j hj hjk) ha
      exact hv'.retimed hk hg.1 hretimed (hcrt ▸ (hv.stands _ hk).tenths)
    refine ⟨_, ⟨.inr ⟨hino.symm ▸ hsub, hholds'⟩, hfst.symm ▸ h.head, hcache, heq.isDir.trans h.isDir, hlive⟩, hupdate,
      fun j _ => ?_, fun ns hns => ⟨_, ⟨u32 (l.length * bytesPerClus s.fs.bpb), dir'.accDate, dir'.wrtTime, rfl⟩, fun j hj => ?_⟩⟩
    · by_cases hjk : j = dir.ino
      · rw [hjk, hnew]
        exact hfst.trans hg.retimed.data.1
      · rw [hupdate j hjk]
    · obtain ⟨v, hfile, hview⟩ := hns j hj
      by_cases hjk : j = dir.ino
      · subst hjk
        refine ⟨_, (ns.modify_files_self dir.ino _).trans (congrArg (Option.map _) hfile), ?_⟩
        have hdata := hg.retimed.data.1
        have hsame : dir'.uncached.isDir = (σ dir.ino).isDir := hretimed.kind.1.trans hg.retimed.kind.1
        have hseen := hview.worked (l := l) (g := dir'.uncached) hm.beside.bpb hsame (hfst.trans hdata) hcrt
          (hsame.symm.trans (heq.isDir.trans h.isDir))
        rw [← hdata] at hseen
        rwa [hnew]
      · exact ⟨v, (ns.modify_files_of_ne hjk _).trans hfile, by rw [hupdate j hjk]; exact hm.view hv hj (hne j hj hjk) hview⟩

/-! ### The map of files -/

theorem inMemory_remove {files : FileMap} {others : List Nat} : inMemory (f :: held) others files.list =
    (f.ino, f) :: inMemory held others (files.remove f.ino).2.list := by
  rw [LRUCacheMap.remove_eq, inMemory, inMemory, List.filter_filter, List.map_cons, List.cons_append]
  refine congrArg _ (congrArg _ (List.filter_congr fun p _ => ?_))
  rw [← Bool.decide_and, decide_eq_decide, heldInos, heldInos, List.map_cons, List.cons_append, List.mem_cons, not_or]
  exact and_comm

/-- A file goes with its object. -/
theorem Driver.HoldsBy.discard {others : List Nat} (h : s.Holds cs t σ (f :: held) others) (hvacant : t.Vacant σ f.ino)
    (halone : t.Alone σ f.ino) :
    Driver.Holds cs (t.without f.ino (σ f.ino).fstClus) ⟨s.fs, (s.files.remove f.ino).2⟩ σ held others := by
  have hc := h.coherent
  rw [inMemory_remove] at hc
  have hc' : Coherent ((t.without f.ino (σ f.ino).fstClus).reading cs) (t.inos \ {f.ino}) s.fs σ _ :=
    hc.discard (h.volume.without h.shows.1 hvacant halone) (fun _ _ hhas => hhas) fun _ _ _ ha => ha
  rw [← t.inos_without] at hc'
  refine ⟨?_, ?_, fun p hp => h.keyed p (LRUCacheMap.mem_remove hp).1, hc'⟩
  · rw [LRUCacheMap.remove_eq]
    exact h.room
  · rw [LRUCacheMap.remove_eq]
    exact h.distinct.sublist (List.filter_sublist.map _)

theorem Driver.InDir.discard (h : s.InDir cs t σ [f] dir) (hvacant : t.Vacant σ f.ino) (halone : t.Alone σ f.ino)
    (hne : f.ino ≠ dir.ino) (hclus : (σ f.ino).fstClus ≠ dir.fstClus) :
    Driver.InDir cs (t.without f.ino (σ f.ino).fstClus) ⟨s.fs, (s.files.remove f.ino).2⟩ σ [] dir :=
  ⟨h.holds.imp (fun ⟨hino, hfst, hholds⟩ => ⟨hino, hfst, hholds.discard hvacant halone⟩) fun ⟨hsub, hholds⟩ =>
    ⟨⟨hsub, hne.symm⟩, (hholds.perm_held (.swap f dir [])).discard hvacant halone⟩, ⟨h.head, hclus.symm⟩, h.cache, h.isDir,
    h.live⟩

/-! ### Volumes with the same data -/

theorem Tree.Volume.counted {fs : FAT32fs} (h : t.Volume cs fs σ) :
    t.Volume cs { fs with fat := fs.fat.counted fs.table } σ ∧
      t.Alike σ fs { fs with fat := fs.fat.counted fs.table } ∧
      ∀ k ∈ t.inos, File.fromIno cs { fs with fat := fs.fat.counted fs.table } k = File.fromIno cs fs k :=
  h.transport ⟨(FAT.represents_counted.mpr h.sane.represents).wellFormed, h.mounted.bpb⟩ rfl
    (fun _ _ _ _ => ⟨fun _ _ => rfl, fun _ _ => rfl⟩) ((FAT32fs.Beside.counted fs).hint h.files.hint) rfl
    (h.boot.congr rfl fun _ _ => rfl)

theorem Tree.Alike.mayCache {fs : FAT32fs} (ha : t.Alike σ fs fs') (hv : t.Volume cs fs σ) (hv' : t.Volume cs fs' σ)
    (hk : k ∈ t.inos) (hg : (σ k).MayCache fs g) : (σ k).MayCache fs' g := by
  obtain ⟨⟨c, rfl⟩, l, hl⟩ := hg
  refine ⟨⟨c, rfl⟩, l, ?_, hl.cache⟩
  rcases hk with hk | hk
  · exact ha.1.symm ▸ (ha.2.2 k hk l hl.chain).1
  · have hhead := (hv.subdirs k hk).2
    obtain rfl := hl.chain.unique (hv.dirs _ hhead)
    exact hv'.dirs _ hhead

/-- The handler is on another volume with the same data. -/
theorem Driver.InDir.transport (h : s.InDir cs t σ held dir) (hv' : t.Volume cs fs' σ) (ha : t.Alike σ s.fs fs')
    (hmade : ∀ k ∈ t.inos, File.fromIno cs fs' k = File.fromIno cs s.fs k) :
    Driver.InDir cs t ⟨fs', s.files⟩ σ held dir := by
  have hall : ∀ {held : List File} {others : List Nat}, s.Holds cs t σ held others →
      Driver.Holds cs t ⟨fs', s.files⟩ σ held others := fun hholds =>
    ⟨hholds.room, hholds.distinct, hholds.keyed, hholds.coherent.transport hv'
      (fun j hj hhas => (hmade j hj).trans hhas) fun _ hj _ hg => ha.mayCache h.volume hv' hj hg⟩
  exact ⟨h.holds.imp (fun ⟨hino, hfst, hholds⟩ => ⟨hino, ha.1.symm ▸ hfst, hall hholds⟩) fun ⟨hsub, hholds⟩ =>
    ⟨hsub, hall hholds⟩, h.head, h.cache, h.isDir, h.live⟩

theorem Driver.InDir.counted (h : s.InDir cs t σ held dir) :
    Driver.InDir cs t ⟨{ s.fs with fat := s.fs.fat.counted s.fs.table }, s.files⟩ σ held dir := by
  obtain ⟨hv', ha, hmade⟩ := h.volume.counted
  exact h.transport hv' ha hmade

theorem FAT32fs.Shares.of_clusters {fs : FAT32fs} (hs : fs.bpb.Sound) (h : ∀ x ∈ l, fs'.table x = fs.table x ∧
    ∀ i < fs.bpb.secPerClus.toNat, fs'.device.value (getFirstSectorOfCluster fs.bpb x + i) =
      fs.device.value (getFirstSectorOfCluster fs.bpb x + i)) : fs.Shares fs' l := by
  refine ⟨fun x hx => (h x hx).1, fun n hn => ?_⟩
  obtain ⟨hlt, hsec⟩ := BPB.chainSector_eq hn
  rw [hsec]
  exact (h _ (List.getElem_mem hlt)).2 _ (Nat.mod_lt _ hs.secPerClus)

/-- A volume that keeps the chains has the same data. -/
theorem Tree.Volume.spared {fs : FAT32fs} (h : t.Volume cs fs σ) (hbeside : fs.Beside fs') (hm' : fs'.Mounted)
    (hshares : ∀ head ∈ (t.run fs σ).heads t.dirs, ∀ l, Walk fs.table Eoc head l → fs.Shares fs' l) :
    t.Volume cs fs' σ ∧ t.Alike σ fs fs' ∧ ∀ k ∈ t.inos, File.fromIno cs fs' k = File.fromIno cs fs k :=
  h.transport hm' hbeside.bpb hshares (hbeside.hint h.files.hint) hbeside.secCnt (h.boot.congr hbeside.bpb hbeside.reserved)

end indir

/-! ### What clients see of the rest -/

/-- All but the names in the directory with first cluster `c` is what a client sees as `ns`. -/
structure Tree.ShownBut (cs : Charset) (t : Tree) (fs : FAT32fs) (σ : Nat → File) (table : Nat → List UInt8 → Option Nat)
    (ns : Namespace) (c : Nat) : Prop where
  spread : t.Spread fs σ
  page : ∀ c' ∈ t.dirs, c' ≠ c → t.Page cs fs c' (table c')
  views : t.Views fs σ ns
  rest : ∀ k, k ∉ t.inos → ns.files k = none
  root : fs.bpb.rootClus.toNat ≠ c → ns.names 1 = table fs.bpb.rootClus.toNat
  names : ∀ k ∈ t.subdirs, (σ k).fstClus ≠ c → ns.names k = table (σ k).fstClus

/-- Clients have the number `parent` for the directory with first cluster `c`. -/
def Tree.Opens (t : Tree) (fs : FAT32fs) (σ : Nat → File) (parent c : Nat) : Prop :=
  (parent = 1 ∧ c = fs.bpb.rootClus.toNat) ∨ (parent ∈ t.subdirs ∧ c = (σ parent).fstClus)

section shown

variable {cs : Charset} {t t' : Tree} {s : Driver} {fs fs' : FAT32fs} {σ σ' : Nat → File} {held : List File} {dir f : File}
  {c c' j k n parent : Nat} {l : List Nat} {table : Nat → List UInt8 → Option Nat} {ns ns' : Namespace} {v : FileView}
  {name : List UInt8} {names : List UInt8 → Option Nat}

theorem Driver.InDir.opens (h : s.InDir cs t σ held dir) (hparent : t.Names parent dir) :
    t.Opens s.fs σ parent dir.fstClus := by
  rcases hparent with ⟨rfl, hroot⟩ | ⟨hsub, rfl⟩
  · rcases h.holds with ⟨-, hclus, -⟩ | ⟨hsub, -⟩
    · exact .inl ⟨rfl, hclus⟩
    · exact absurd (h.volume.root_lt (.inr hsub)) (by rw [hroot]; decide)
  · exact .inr ⟨hsub, (h.mayCache (.inr hsub)).2.2.retimed.data.1⟩

theorem Tree.Opens.ne (h : t.Opens fs σ parent c) (hv : t.Volume cs fs σ) :
    (fs.bpb.rootClus.toNat ≠ c → parent ≠ 1) ∧ ∀ j ∈ t.subdirs, (σ j).fstClus ≠ c → j ≠ parent := by
  rcases h with ⟨rfl, rfl⟩ | ⟨hsub, rfl⟩
  · exact ⟨fun hne => absurd rfl hne, fun j hj _ => (hv.root_lt (.inr hj)).ne'⟩
  · exact ⟨fun _ => (hv.root_lt (.inr hsub)).ne', fun j _ hne heq => hne (heq ▸ rfl)⟩

theorem Tree.Shown.but (h : t.Shown cs fs σ table ns) (c : Nat) : t.ShownBut cs fs σ table ns c :=
  ⟨h.catalog.toSpread, fun c' hc' _ => h.catalog.page c' hc', h.views, h.rest, fun _ => h.root, fun k hk _ => h.names k hk⟩

/-- The names of the directory complete what clients see. -/
theorem Tree.ShownBut.shown (h : t.ShownBut cs fs σ table ns c) (hopens : t.Opens fs σ parent c)
    (hpage : t.Page cs fs c names) (hnames : ns.names parent = names) :
    t.Shown cs fs σ (Function.update table c names) ns := by
  refine ⟨⟨h.spread, fun c' hc' => ?_⟩, h.views, h.rest, ?_, fun k hk => ?_⟩
  · by_cases hne : c' = c
    · rw [hne, Function.update_self]
      exact hpage
    · rw [Function.update_of_ne hne]
      exact h.page c' hc' hne
  · by_cases hroot : fs.bpb.rootClus.toNat = c
    · rcases hopens with ⟨rfl, -⟩ | ⟨hsub, hfst⟩
      · rw [hroot, Function.update_self, hnames]
      · exact absurd (hroot.trans hfst).symm (h.spread.below _ hsub).1
    · rw [Function.update_of_ne hroot]
      exact h.root hroot
  · by_cases hfst : (σ k).fstClus = c
    · rcases hopens with ⟨-, hroot⟩ | ⟨hsub, hparent⟩
      · exact absurd (hfst.trans hroot) (h.spread.below _ hk).1
      · obtain rfl := h.spread.apart k hk parent hsub (hfst.trans hparent)
        rw [hfst, Function.update_self, hnames]
    · rw [Function.update_of_ne hfst]
      exact h.names k hk hfst

theorem Tree.ShownBut.alike (h : t.ShownBut cs fs σ table ns c) (hv : t.Volume cs fs σ) (ha : t.Alike σ fs fs') :
    t.ShownBut cs fs' σ table ns c := by
  refine ⟨h.spread.congr ha.1 h.spread.root subset_rfl fun _ _ => rfl,
    fun c' hc' hne => (h.page c' hc' hne).congr hc' ha.1 ha.2.1, fun j hj => ?_, h.rest, ha.1.symm ▸ h.root, h.names⟩
  obtain ⟨v, hfile, hview⟩ := h.views j hj
  exact ⟨v, hfile, ha.view hv hj hview⟩

/-- Work on the directory changes its own line. -/
theorem Tree.ShownBut.moved (h : t.ShownBut cs fs σ table ns c) (hv : t.Volume cs fs σ) (hm : t.Moved fs σ c fs' l)
    (hfst : ∀ j ∈ t.subdirs, (σ' j).fstClus = (σ j).fstClus) (hviews : (t.rechained c l).Views fs' σ' ns')
    (hworked : ns.Worked parent ns') : (t.rechained c l).ShownBut cs fs' σ' table ns' c := by
  have hbpb := hm.beside.bpb
  obtain ⟨hnames, hrest⟩ := hworked.kept
  refine ⟨h.spread.congr hbpb h.spread.root subset_rfl hfst, fun c' hc' hne => ?_, hviews,
    fun k hk => (hrest k).mpr (h.rest k hk), ?_, fun k hk => ?_⟩
  · refine (h.page c' hc' hne).carry hbpb (t.rechained_of_ne hne l)
      (fun n hn => hm.entryAt_eq hv hc' hne (hv.mounted.sound.slot_inside hn)) (fun k _ => ⟨Iff.rfl, rfl⟩) hv.mounted.sound
  · rw [hbpb, hnames]
    exact h.root
  · rw [hfst k hk, hnames]
    exact h.names k hk

/-! ### Files that come and go -/

theorem Tree.Gains.page (hg : t.Gains k n t') (h : t.Page cs fs c names) (hc : c ∈ t.dirs) (hne : k / 2 ^ 32 ≠ c)
    (hs : fs.bpb.Sound) : t'.Page cs fs c names := by
  refine h.carry rfl (hg.chain c hc) (fun _ _ => rfl) (fun j hj => ?_) hs
  have hjk : j ≠ k := fun heq => hne (heq ▸ hj)
  rw [hg.inos, hg.longs, Function.update_of_ne hjk]
  exact ⟨or_iff_right hjk, rfl⟩

theorem Tree.Gains.view (hg : t.Gains k n t') (hv : t.Volume cs fs σ) (hj : j ∈ t.inos) (hview : t.View fs (σ j) v) :
    t'.View fs (σ j) v := by
  refine ⟨hview.isDir, ?_, hview.bytes, hview.crtTime, hview.accDate, hview.wrtTime⟩
  rw [hview.size]
  rcases hv.kind hj with ⟨-, hdir⟩ | ⟨hsub, hdir⟩
  · rw [if_neg (by simp [hdir]), if_neg (by simp [hdir])]
  · rw [if_pos hdir, if_pos hdir, hg.chain _ (hv.subdirs j hsub).2]

theorem Tree.Gains.views (hg : t.Gains k n t') (hv : t.Volume cs fs σ) (h : t.Views fs σ ns) (hview : t'.View fs f v)
    (parent : Nat) (name : List UInt8) : t'.Views fs (Function.update σ k f) (ns.added parent name k v) := by
  refine hg.forall (P := fun j g => ∃ w, (ns.added parent name k v).files j = some w ∧ t'.View fs g w)
    ⟨v, Function.update_self .., hview⟩ fun j hj hne => ?_
  obtain ⟨w, hfile, hw⟩ := h j hj
  exact ⟨w, (Function.update_of_ne hne ..).trans hfile, hg.view hv hj hw⟩

theorem Tree.Gains.rest (hg : t.Gains k n t') (h : ∀ j, j ∉ t.inos → ns.files j = none) (parent : Nat) (name : List UInt8)
    (v : FileView) (j : Nat) (hj : j ∉ t'.inos) :
    (ns.added parent name k v).files j = none := by
  rw [hg.inos] at hj
  obtain ⟨hjk, hj⟩ := not_or.mp hj
  exact (Function.update_of_ne hjk ..).trans (h j hj)

/-- A file comes to the directory. -/
theorem Tree.ShownBut.withFile (h : t.ShownBut cs fs σ table ns c) (hv : t.Volume cs fs σ) (hj : t.Joins cs fs k n f)
    (hdiv : k / 2 ^ 32 = c) (hopens : t.Opens fs σ parent c) (hdir : f.isDir = false) (hview : t.View fs f v)
    (name : List UInt8) : (t.withFile k n).ShownBut cs fs (Function.update σ k f) table (ns.added parent name k v) c := by
  have hg := t.gains_withFile k n
  have hfst : ∀ j ∈ t.subdirs, (Function.update σ k f j).fstClus = (σ j).fstClus := fun j hsub =>
    congrArg File.fstClus (Function.update_of_ne (hj.ne (.inr hsub)) ..)
  obtain ⟨hroot, hothers⟩ := hopens.ne hv
  have hview' : (t.withFile k n).View fs f v := by
    refine ⟨hview.isDir, ?_, hview.bytes, hview.crtTime, hview.accDate, hview.wrtTime⟩
    rw [hview.size, if_neg (by simp [hdir]), if_neg (by simp [hdir])]
  refine ⟨h.spread.congr rfl h.spread.root subset_rfl hfst, fun c' hc' hne => ?_,
    hg.views hv h.views hview' parent name, hg.rest h.rest parent name v, fun hne => ?_, fun j hsub hne => ?_⟩
  · exact hg.page (h.page c' hc' hne) hc' (hdiv.trans_ne hne.symm) hv.mounted.sound
  · exact (Function.update_of_ne (hroot hne).symm ..).trans (h.root hne)
  · rw [hfst j hsub] at hne ⊢
    exact (Function.update_of_ne (hothers j hsub hne) ..).trans (h.names j hsub hne)

/-- A file goes from the directory. -/
theorem Tree.ShownBut.without (h : t.ShownBut cs fs σ table ns c) (hv : t.Volume cs fs σ) (hk : k ∈ t.inos)
    (hdiv : k / 2 ^ 32 = c) (hopens : t.Opens fs σ parent c) :
    (t.without k (σ k).fstClus).ShownBut cs fs σ table (ns.removed parent k) c := by
  obtain ⟨hroot, hothers⟩ := hopens.ne hv
  refine ⟨h.spread.congr rfl ⟨h.spread.root, (h.spread.head_ne_root hv hk).symm⟩ Set.sdiff_subset fun _ _ => rfl,
    fun c' hc' hne => ?_, fun j hj => ?_, fun j hj => ?_, fun hne => ?_, fun j hsub hne => ?_⟩
  · refine (h.page c' hc'.1 hne).carry rfl rfl (fun _ _ => rfl) (fun j hj => ⟨?_, rfl⟩) hv.mounted.sound
    rw [t.inos_without]
    exact and_iff_left fun heq : j = k => hne (hj.symm.trans (heq ▸ hdiv))
  · rw [t.inos_without] at hj
    obtain ⟨v, hfile, hview⟩ := h.views j hj.1
    exact ⟨v, (Function.update_of_ne hj.2 ..).trans hfile, hview.isDir, hview.size, hview.bytes, hview.crtTime,
      hview.accDate, hview.wrtTime⟩
  · rw [t.inos_without] at hj
    by_cases hjk : j = k
    · rw [hjk]
      exact Function.update_self ..
    · exact (Function.update_of_ne hjk ..).trans (h.rest j fun hmem => hj ⟨hmem, hjk⟩)
  · exact (Function.update_of_ne (hroot hne).symm ..).trans (h.root hne)
  · exact (Function.update_of_ne (hothers j hsub.1 hne) ..).trans (h.names j hsub.1 hne)

/-- A directory comes to the directory. -/
theorem Tree.ShownBut.withDir (h : t.ShownBut cs fs σ table ns c) (hv : t.Volume cs fs σ) (hj : t.Joins cs fs k n f)
    (hdiv : k / 2 ^ 32 = c) (hopens : t.Opens fs σ parent c) (hnew : f.fstClus ∉ t.dirs)
    (hpage : (t.withDir k n f.fstClus l).Page cs fs f.fstClus fun _ => none)
    (hview : (t.withDir k n f.fstClus l).View fs f v) (name : List UInt8) :
    (t.withDir k n f.fstClus l).ShownBut cs fs (Function.update σ k f)
      (Function.update table f.fstClus fun _ => none) (ns.addedDir parent name k v) c := by
  have hg : t.Gains k n (t.withDir k n f.fstClus l) := Tree.gains_withDir hnew
  have hold : ∀ {j}, j ∈ t.subdirs → Function.update σ k f j = σ j := fun hsub =>
    Function.update_of_ne (hj.ne (.inr hsub)) ..
  have hself : Function.update σ k f k = f := Function.update_self ..
  have hne : ∀ {c'}, c' ∈ t.dirs → c' ≠ f.fstClus := fun hc' => ne_of_mem_of_not_mem hc' hnew
  obtain ⟨hroot, hothers⟩ := hopens.ne hv
  refine ⟨⟨.inr h.spread.root, fun j hsub => ?_, fun i hi j hj' heq => ?_⟩, fun c' hc' hcc => ?_,
    hg.views hv h.views hview parent name, hg.rest h.rest parent name v, fun hcc => ?_, fun j hsub hcc => ?_⟩
  · rcases hsub with rfl | hsub
    · rw [hself]
      exact ⟨(hne h.spread.root).symm, (hne hj.dir).symm⟩
    · rw [hold hsub]
      exact h.spread.below j hsub
  · rcases hi with rfl | hi
    · rcases hj' with rfl | hj'
      · rfl
      · rw [hself, hold hj'] at heq
        exact absurd heq.symm (hne (hv.subdirs j hj').2)
    · rcases hj' with rfl | hj'
      · rw [hself, hold hi] at heq
        exact absurd heq (hne (hv.subdirs i hi).2)
      · rw [hold hi, hold hj'] at heq
        exact h.spread.apart i hi j hj' heq
  · rcases hc' with rfl | hc'
    · rw [Function.update_self]
      exact hpage
    · rw [Function.update_of_ne (hne hc')]
      exact hg.page (h.page c' hc' hcc) hc' (hdiv.trans_ne hcc.symm) hv.mounted.sound
  · have hone : 1 ≠ k := by
      rintro rfl
      exact zero_notMem_heads hv.owners (.inl hj.dir)
    rw [Function.update_of_ne (hne h.spread.root)]
    exact (Function.update_of_ne hone ..).trans ((Function.update_of_ne (hroot hcc).symm ..).trans (h.root hcc))
  · rcases hsub with rfl | hsub
    · rw [hself, Function.update_self]
      exact Function.update_self ..
    · rw [hold hsub] at hcc ⊢
      rw [Function.update_of_ne (hne (hv.subdirs j hsub).2)]
      exact (Function.update_of_ne (hj.ne (.inr hsub)) ..).trans
        ((Function.update_of_ne (hothers j hsub hcc) ..).trans (h.names j hsub hcc))

end shown

end FuseFat32
