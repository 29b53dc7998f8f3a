import FuseFat32.Fs.Scanners
import FuseFat32.Fuse.Changes

/-!
# Files that are still to come

`crtFileInner` writes the group of the new file, and the map has its object from then on. Which object the map drops for it depends on the map alone, so all this comes first: the directory has a group that belongs to no file of the volume, and the map a key that no file has. Then the file joins the others, or its name is removed again.
-/

namespace FuseFat32

open LinkedTable Layout Segments WriteBack

section row

variable {cs : Charset} {t t' : Tree} {fs : FAT32fs} {σ : Nat → File} {c start k : Nat} {l : List Nat}
  {front back gs : List (Nat × EntryGroup)} {g g' : EntryGroup} {f : File}
  {name u gbk : List UInt8} {b : BasisName} {is_dir : Bool} {now : FatTimeStamp2} {p : Nat × EntryGroup}

/-! ### The group of the file -/

theorem groupIno_ne {es : List LongDirEntry} (h : GroupRow cs es (front ++ (start, g) :: back)) (hp : p ∈ front ++ back) :
    groupIno c p ≠ c * 2 ^ 32 + start := by
  have hsize : 0 < p.2.size ∧ 0 < g.size := ⟨Nat.succ_pos _, Nat.succ_pos _⟩
  rw [groupIno]
  rcases h.apart_of_mem hp with hle | hle <;> omega

private theorem inoNames_insert (hplain : isPlainName cs name = true) (hu : cs.utf8ToUtf16 name = some u)
    (hgbk : cs.utf8ToGbk (toUpper name) = some gbk) (hnamed : ∀ u' gbk', g.Named u' gbk' ↔ u = u')
    (hinj : ∀ other, cs.utf8ToUtf16 other = some u → other = name) (habsent : groupNames cs (front ++ back) name = none) :
    inoNames cs c (front ++ (start, g) :: back) =
      Function.update (inoNames cs c (front ++ back)) name (some (c * 2 ^ 32 + start)) := by
  have hinsert : groupNames cs (front ++ (start, g) :: back) = Function.update _ name (some ⟨start, g.size⟩) :=
    groupNames_insert hu hgbk hnamed hinj habsent
  funext other
  by_cases hother : other = name
  · subst hother
    rw [Function.update_self, inoNames, if_pos hplain, hinsert, Function.update_self]
    rfl
  · rw [Function.update_of_ne hother, inoNames, inoNames, hinsert, Function.update_of_ne hother]

theorem Tree.Gains.lists (hg : t.Gains (c * 2 ^ 32 + start) g.longs.length t') (h : t.Lists c (front ++ back))
    (hrow : GroupRow cs (fs.dirEntries l) (front ++ (start, g) :: back)) (hdots : ¬ g.IsDots) :
    t'.Lists c (front ++ (start, g) :: back) := by
  refine ⟨fun p hp => ?_, fun p hp => ?_, fun k hk hdir => ?_⟩
  · rw [hg.inos, hg.longs]
    rcases List.mem_cons.mp (List.perm_middle.mem_iff.mp hp) with rfl | hp
    · exact .inl ⟨Set.mem_insert _ _, Function.update_self ..⟩
    · refine (h.known p hp).imp_left fun hknown => ⟨.inr hknown.1, ?_⟩
      exact (Function.update_of_ne (groupIno_ne hrow hp) ..).trans hknown.2
  · rw [hg.inos]
    rcases List.mem_cons.mp (List.perm_middle.mem_iff.mp hp) with rfl | hp
    · exact fun _ => hdots
    · exact fun hk => h.plain p hp (hk.resolve_left (groupIno_ne hrow hp))
  · rw [hg.inos] at hk
    rcases hk with rfl | hk
    · exact ⟨(start, g), List.mem_append_right _ List.mem_cons_self, rfl⟩
    · obtain ⟨p, hp, hino⟩ := h.all k hk hdir
      exact ⟨p, List.perm_middle.mem_iff.mpr (List.mem_cons_of_mem _ hp), hino⟩

theorem Tree.Lists.notMem (h : t.Lists c (front ++ back)) (hs : fs.bpb.Sound)
    (hrow : GroupRow cs (fs.dirEntries l) (front ++ (start, g) :: back)) : c * 2 ^ 32 + start ∉ t.inos := by
  intro hk
  have hlt := hrow.start_lt hs (List.mem_append_right front List.mem_cons_self)
  obtain ⟨p, hp, hino⟩ := h.all _ hk (groupIno_div (p := (start, g)) hlt).1
  exact groupIno_ne hrow hp hino

theorem GroupRow.short_eq (h : GroupRow cs (fs.dirEntries l) gs) (hp : p ∈ gs) :
    fs.entryAt l (p.1 + p.2.longs.length) = p.2.short := by
  have hlast := congrArg List.getLast? (h.liveGroup hp).2.1
  simpa [List.range_succ, EntryGroup.entries] using hlast

/-- The group has been made for the name. -/
structure EntryGroup.MadeFor (cs : Charset) (g : EntryGroup) (name u : List UInt8) (is_dir : Bool) : Prop where
  name : g.name cs = some name
  named : ∀ u' gbk', g.Named u' gbk' ↔ u = u'
  notDots : ¬ g.IsDots
  isDir : isDirectory (castLongDirEntryToShort g.short) = is_dir

private theorem newGroup_madeFor (hcs : cs.Inverts) (hname : StorableName cs name u gbk b is_dir now) :
    (newGroup u hname.units b is_dir now hname.kept).MadeFor cs name u is_dir := by
  refine ⟨?_, fun u' gbk' => newGroup_named, fun hno => newGroup_longs_ne_nil hno.1, ?_⟩
  · rw [EntryGroup.name, if_neg newGroup_longs_ne_nil, newGroup_longName]
    exact hcs.utf16 _ _ hname.utf16
  · have hshort : castLongDirEntryToShort (newGroup u hname.units b is_dir now hname.kept).short =
        mkShortDirEntry b is_dir now := castLongDirEntryToShort_castShortDirEntryToLong _
    rw [hshort]
    exact isDirectory_mkShortDirEntry b is_dir now

theorem EntryGroup.MadeFor.congr (h : g.MadeFor cs name u is_dir) (hlongs : g'.longs = g.longs)
    (hshort : g'.shortName = g.shortName) (hkept : g.short.Kept g'.short) : g'.MadeFor cs name u is_dir := by
  have hattr := hkept.sameName.attr
  refine ⟨?_, fun u' gbk' => ?_, ?_, ?_⟩
  · rw [← h.name, EntryGroup.name, EntryGroup.name, EntryGroup.longName, EntryGroup.longName, hlongs, hshort]
  · rw [← h.named u' gbk', EntryGroup.Named, EntryGroup.Named, EntryGroup.longName, EntryGroup.longName, hlongs, hshort]
  · rw [EntryGroup.IsDots, hlongs, hshort]
    exact h.notDots
  · rw [← h.isDir, isDirectory, isDirectory, hattr]

/-- The directory has a group for the new object. -/
theorem Tree.Joins.of_row (hv : t.Volume cs fs σ) (hc : c ∈ t.dirs) (hlists : t.Lists c (front ++ back))
    (hrow : GroupRow cs (fs.dirEntries (t.chain c)) (front ++ (start, g) :: back))
    (hcap : (t.chain c).length * bytesPerClus fs.bpb < 2 ^ 32) (hseq : Consecutive (t.chain c))
    (hmade : g.MadeFor cs f.name u f.isDir) (hstands : f.Stands (c * 2 ^ 32 + start)) :
    t.Joins cs fs (c * 2 ^ 32 + start) g.longs.length f := by
  have hs := hv.mounted.sound
  have hmem : (start, g) ∈ front ++ (start, g) :: back := List.mem_append_right front List.mem_cons_self
  obtain ⟨hdiv, hmod⟩ : (c * 2 ^ 32 + start) / 2 ^ 32 = c ∧ (c * 2 ^ 32 + start) % 2 ^ 32 = start :=
    groupIno_div (p := (start, g)) (hrow.start_lt hs hmem)
  refine ⟨hlists.notMem hs hrow, hdiv.symm ▸ hc, ?_, ?_, fun j hj hjdir => ?_, ?_, hstands⟩
  · rw [hdiv]
    exact hseq
  · rw [hdiv, hmod]
    exact hrow.groupOf hs (hv.dirs c hc) hcap hseq hmem
  · rw [hmod]
    have hsub : front ++ back ⊆ front ++ (start, g) :: back := fun p hp =>
      List.perm_middle.mem_iff.mpr (List.mem_cons_of_mem _ hp)
    obtain ⟨p, hp, -, hstart, hlongs⟩ := hv.group hrow (hlists.all j hj (hjdir.trans hdiv)) hsub hj (hjdir.trans hdiv)
    have hsize : p.2.size = p.2.longs.length + 1 ∧ g.size = g.longs.length + 1 := ⟨rfl, rfl⟩
    rw [Tree.last, ← hstart, ← hlongs]
    rcases hrow.apart_of_mem hp with hle | hle <;> omega
  · obtain ⟨segs, tail, hlay, -, -, hblocks⟩ := hrow
    have hplaced : (dirAt c).Placed fs (t.chain c) := ⟨hv.dirs c hc, .inl rfl⟩
    have hread := hlay.fromIno hv.mounted hplaced hcap hseq (hblocks.symm ▸ hmem) hmade.name
    exact ⟨_, hread, rfl, hmade.isDir⟩

theorem File.stands_ofEntry (hstart : start < 2 ^ 32) (htenths : now.tt.toNat ≤ 199) :
    (File.ofEntry c start name (mkShortDirEntry b is_dir now)).Stands (c * 2 ^ 32 + start) := by
  have hplace : (c * 2 ^ 32 + start) / 2 ^ 32 = c ∧ (c * 2 ^ 32 + start) % 2 ^ 32 = start := by omega
  have hclus : readEntryClusNo (mkShortDirEntry b is_dir now) < 2 ^ 32 := by
    rw [readEntryClusNo_mkShortDirEntry]
    decide
  exact ⟨⟨hplace.1.symm, hplace.2.symm, rfl, rfl, hclus, Nat.two_pow_pos 32⟩, htenths⟩

end row

/-! ### The map -/

/-- The map can have an object, and has each under its number. -/
structure FileMap.InOrder (files : FileMap) : Prop where
  room : 0 < files.maxSize
  distinct : files.KeysNodup
  keyed : ∀ p ∈ files.list, p.2.ino = p.1 ∧ p.1 ≠ kRootDirIno

section map

variable {cs : Charset} {R R' : Reading FAT32fs Nat File File} {keys : Set Nat} {s s' : Driver} {σ σ' : Nat → File}
  {held : List File} {others : List Nat} {f g dir : File} {k n : Nat} {t t' : Tree}

private theorem Driver.put_held_self (hpos : 0 < s.files.maxSize) (hdistinct : s.files.KeysNodup)
    (hkeyed : ∀ p ∈ s.files.list, p.2.ino = p.1) (habsent : ∀ p ∈ s.files.list, p.1 ≠ k) (inos : List Nat) :
    s.put (inos ++ [k]) k g = s.put inos k g := by
  obtain ⟨dropped, hdropped, hlist, -⟩ := LRUCacheMap.put_of_absent habsent g
  have hnodup : (((s.files.put k g).1.list ++ dropped).map Prod.fst).Nodup := by
    rw [hlist, List.map_cons, List.nodup_cons]
    exact ⟨fun hmem => (List.mem_map.mp hmem).elim fun p hp => habsent p hp.1 hp.2, hdistinct⟩
  rw [List.map_append] at hnodup
  have hne : ∀ p ∈ dropped, p.1 ≠ k := fun p hp heq => by
    have hkey : p.1 ∈ dropped.map Prod.fst := List.mem_map_of_mem hp
    exact List.disjoint_of_nodup_append hnodup (List.mem_map_of_mem (LRUCacheMap.mem_put_self hpos k g)) (heq ▸ hkey)
  have hfilter : (s.files.put k g).2.filter (fun f => f.ino ∉ inos ++ [k]) =
      (s.files.put k g).2.filter fun f => f.ino ∉ inos := by
    refine List.filter_congr fun f hf => ?_
    rw [hdropped] at hf
    obtain ⟨p, hp, rfl⟩ := List.mem_map.mp hf
    have hold : p ∈ s.files.list := by
      have hmem : p ∈ (k, g) :: s.files.list := hlist ▸ List.mem_append_right _ hp
      exact (List.mem_cons.mp hmem).resolve_left fun heq => hne p hp (congrArg Prod.fst heq)
    have hino : p.2.ino ≠ k := (hkeyed p hold).trans_ne (hne p hp)
    rw [decide_eq_decide, List.mem_append, List.mem_singleton, not_or]
    exact and_iff_left hino
  rw [Driver.put, Driver.put]
  simp only [hfilter]

/-- The map takes an object that the volume does not know of. -/
theorem Driver.HoldsBy.put_other (hR : Reads cs R keys) (h : s.HoldsBy R keys σ held others) (hk : k ∉ keys)
    (hino : g.ino = k) (hroot : k ≠ kRootDirIno) (hnot : k ∉ heldInos held others) : ∃ s',
    s.put (heldInos held others) k g = some s' ∧
      Driver.HoldsBy R keys ⟨s'.fs, (s'.files.remove k).2⟩ σ held others ∧ R.alike σ s.fs s'.fs ∧
      FileMap.InOrder s'.files := by
  have habsent : ∀ p ∈ s.files.list, p.1 ≠ k := fun p hp heq => by
    have hmem : p ∈ inMemory held others s.files.list :=
      List.mem_append_right _ (List.mem_filter.mpr ⟨hp, by simpa [heq] using hnot⟩)
    exact hk (heq ▸ (h.coherent.held p hmem).1)
  have hinos : heldInos held (others ++ [k]) = heldInos held others ++ [k] := by
    rw [heldInos, heldInos, List.append_assoc]
  have hmemory : ∀ list : List (Nat × File), inMemory held (others ++ [k]) list =
      inMemory held others (list.filter fun p => p.1 ≠ k) := by
    intro list
    rw [inMemory, inMemory, List.filter_filter]
    refine congrArg _ (List.filter_congr fun p _ => ?_)
    rw [← Bool.decide_and, decide_eq_decide, hinos, List.mem_append, List.mem_singleton, not_or]
  have hsame : ((k, g) :: s.files.list).filter (fun p => decide (p.1 ≠ k)) = s.files.list := by
    rw [List.filter_cons_of_neg (by simp)]
    exact List.filter_eq_self.mpr fun p hp => by simpa using habsent p hp
  have hc := h.coherent
  rw [← hsame, ← hmemory] at hc
  obtain ⟨s', hput, h', -, halike⟩ := Driver.put_holdsBy hR h.room h.distinct h.keyed habsent hino hroot hc
  rw [hinos, Driver.put_held_self h.room h.distinct (fun p hp => (h.keyed p hp).1) habsent] at hput
  have hc' := h'.coherent
  rw [hmemory] at hc'
  refine ⟨s', hput, ?_, halike, ⟨h'.room, h'.distinct, h'.keyed⟩⟩
  rw [LRUCacheMap.remove_eq]
  exact ⟨h'.room, h'.distinct.sublist (List.filter_sublist.map _), fun p hp => h'.keyed p (List.mem_of_mem_filter hp), hc'⟩

/-- The volume comes to know of the object that has been put into the map, and the handler holds it. -/
theorem Driver.HoldsBy.adopt (h : Driver.HoldsBy R keys ⟨s.fs, (s.files.remove f.ino).2⟩ σ held others)
    (hmap : FileMap.InOrder s.files) (hk : f.ino ∉ keys) (hσ : ∀ j ∈ keys, σ' j = σ j)
    (hgood : R'.good s.fs σ') (hhas : ∀ j ∈ keys, R.has s.fs j (σ j) → R'.has s.fs j (σ j))
    (hothers : ∀ j ∈ keys, ∀ a, R.shows s.fs j (σ j) a → R'.shows s.fs j (σ j) a)
    (hshows : R'.shows s.fs f.ino (σ' f.ino) f) : s.HoldsBy R' (insert f.ino keys) σ' (f :: held) others := by
  refine ⟨hmap.room, hmap.distinct, hmap.keyed, ?_⟩
  rw [inMemory_remove]
  exact h.coherent.join hk hσ hgood hhas hothers hshows

theorem Driver.InDir.ne_of_new (h : s.InDir cs t σ [] dir) (hk : k ∉ t.inos) (hroot : k ≠ kRootDirIno) : k ≠ dir.ino := by
  rcases h.holds with ⟨hdir, -, -⟩ | ⟨hsub, -⟩
  · rwa [hdir]
  · exact fun heq => hk (heq ▸ .inr hsub)

theorem Driver.InDir.put_other (h : s.InDir cs t σ [] dir) (hk : k ∉ t.inos) (hino : g.ino = k) (hroot : k ≠ kRootDirIno) :
    ∃ s', s.put [dir.ino] k g = some s' ∧
      Driver.InDir cs t ⟨s'.fs, (s'.files.remove k).2⟩ σ [] dir ∧ t.Alike σ s.fs s'.fs ∧ FileMap.InOrder s'.files := by
  rcases h.holds with ⟨hdir, hfst, hholds⟩ | ⟨hsub, hholds⟩
  · obtain ⟨s', hput, h', halike, hmap⟩ :=
      hholds.put_other (Tree.reads cs t) hk hino hroot (by simpa [heldInos] using hroot)
    rw [hdir]
    exact ⟨s', hput, ⟨.inl ⟨hdir, halike.1.symm ▸ hfst, h'⟩, h.head, h.cache, h.isDir, h.live⟩, halike, hmap⟩
  · obtain ⟨s', hput, h', halike, hmap⟩ :=
      hholds.put_other (Tree.reads cs t) hk hino hroot (by simpa [heldInos] using h.ne_of_new hk hroot)
    exact ⟨s', hput, ⟨.inr ⟨hsub, h'⟩, h.head, h.cache, h.isDir, h.live⟩, halike, hmap⟩

/-- The file joins the others, and the handler holds its object next to that of the directory. -/
theorem Driver.InDir.adopt {value : File} (h : Driver.InDir cs t ⟨s.fs, (s.files.remove f.ino).2⟩ σ [] dir)
    (hmap : FileMap.InOrder s.files) (hk : f.ino ∉ t.inos) (hg : t.Gains f.ino n t')
    (hv : t'.Volume cs s.fs (Function.update σ f.ino value)) (hf : value.MayCache s.fs f) :
    s.InDir cs t' (Function.update σ f.ino value) [f] dir := by
  have hσ : ∀ j ∈ t.inos, Function.update σ f.ino value j = σ j := fun j hj =>
    Function.update_of_ne (ne_of_mem_of_not_mem hj hk) ..
  have hself : (Function.update σ f.ino value f.ino).MayCache s.fs f := by
    rw [Function.update_self]
    exact hf
  have hall : ∀ {held : List File} {others : List Nat},
      Driver.Holds cs t ⟨s.fs, (s.files.remove f.ino).2⟩ σ held others →
      s.Holds cs t' (Function.update σ f.ino value) (f :: held) others := fun hholds => by
    have hjoined : s.HoldsBy (t'.reading cs) (insert f.ino t.inos) (Function.update σ f.ino value) (f :: _) _ :=
      hholds.adopt hmap hk hσ hv (fun _ _ hhas => hhas) (fun _ _ _ ha => ha) hself
    rwa [← hg.inos] at hjoined
  have hcache : dir.clusChain_ = none ∨ dir.clusChain_ = some (t'.chain dir.fstClus) := by
    rw [hg.chain _ h.head]
    exact h.cache
  exact ⟨h.holds.imp (fun ⟨hdir, hfst, hholds⟩ => ⟨hdir, hfst, hall hholds⟩) fun ⟨hsub, hholds⟩ =>
    ⟨hg.subdirs hsub, (hall hholds).perm_held (.swap dir f [])⟩, hg.dirs h.head, hcache, h.isDir, h.live⟩

end map

/-! ### The directory -/

/-- The directory `dir` has the groups `front` and `back` of its files with the group `g` of a new one between them. Neither the volume nor `ns` has that one, but the map has an object for it. -/
structure Driver.Pending (cs : Charset) (t : Tree) (s : Driver) (σ : Nat → File) (dir : File)
    (table : Nat → List UInt8 → Option Nat) (ns : Namespace) (front back : List (Nat × EntryGroup)) (start : Nat)
    (g : EntryGroup) : Prop where
  inDir : Driver.InDir cs t ⟨s.fs, (s.files.remove (dir.fstClus * 2 ^ 32 + start)).2⟩ σ [] dir
  map : FileMap.InOrder s.files
  shown : t.ShownBut cs s.fs σ table ns dir.fstClus
  size : (t.chain dir.fstClus).length * bytesPerClus s.fs.bpb < 2 ^ 32
  consecutive : Consecutive (t.chain dir.fstClus)
  row : GroupRow cs (s.fs.dirEntries (t.chain dir.fstClus)) (front ++ (start, g) :: back)
  lists : t.Lists dir.fstClus (front ++ back)
  dots : dir.fstClus ≠ s.fs.bpb.rootClus.toNat → DotsFirst (front ++ back)

section pending

variable {cs : Charset} {t : Tree} {s s' : Driver} {σ : Nat → File} {dir dir' f : File} {parent start : Nat} {fs' : FAT32fs}
  {table : Nat → List UInt8 → Option Nat} {ns : Namespace} {name u gbk : List UInt8} {b : BasisName} {is_dir : Bool}
  {now : FatTimeStamp2} {front back gs gs' : List (Nat × EntryGroup)} {g : EntryGroup} {c : Nat} {l : List Nat}

private theorem exists_of_keys_middle (h : gs'.map groupKey = (front ++ (start, g) :: back).map groupKey) :
    ∃ front' g' back', gs' = front' ++ (start, g') :: back' ∧
      (front' ++ back').map groupKey = (front ++ back).map groupKey ∧ g'.longs = g.longs ∧ g'.shortName = g.shortName := by
  rw [List.map_append, List.map_cons] at h
  obtain ⟨front', rest, rfl, hfront, hrest⟩ := List.map_eq_append_iff.mp h
  obtain ⟨⟨start', g'⟩, back', rfl, hg, hback⟩ := List.map_eq_cons_iff.mp hrest
  obtain ⟨rfl, hlongs, hshort⟩ : start' = start ∧ g'.longs = g.longs ∧ g'.shortName = g.shortName := by
    simpa [groupKey] using hg
  refine ⟨front', g', back', rfl, ?_, hlongs, hshort⟩
  rw [List.map_append, List.map_append, hfront, hback]

/-- A new file has a group in the directory, and the map has its object. -/
theorem Driver.InDir.crtFileInner (hcs : cs.Inverts) (h : s.InDir cs t σ [] dir) (hs : t.Shown cs s.fs σ table ns)
    (hparent : t.Names parent dir) (hplain : isPlainName cs name = true) (hname : StorableName cs name u gbk b is_dir now)
    (habsent : table dir.fstClus name = none) (hroom : s.fs.RoomFor (t.chain dir.fstClus) u)
    (hrun : s.crtFileInner cs dir name is_dir now = some (some f, dir', s')) :
    ∃ t' σ' ns₁ front back start g, s'.Pending cs t' σ' dir' table ns₁ front back start g ∧ g.MadeFor cs name u is_dir ∧
      t'.Names parent dir' ∧ f = .ofEntry dir'.fstClus start name (mkShortDirEntry b is_dir now) ∧ ns.Worked parent ns₁ ∧
      ns.names parent = inoNames cs dir'.fstClus (front ++ back) ∧ groupNames cs (front ++ back) name = none ∧
      s'.fs.bpb = s.fs.bpb := by
  obtain ⟨fs', fs₁, hinner, hdestroy, rfl⟩ := Driver.crtFileInner_some hrun
  have hput : Driver.put ⟨fs', s.files⟩ [dir'.ino] f.ino f = some ⟨fs₁, (s.files.put f.ino f).1⟩ :=
    Option.bind_eq_some_iff.mpr ⟨fs₁, hdestroy, rfl⟩
  obtain ⟨hseq, hsmall⟩ := hroom
  have hv := h.volume
  have hhead : dir.fstClus ∈ (t.run s.fs σ).heads t.dirs := .inl h.head
  have hpage := hs.catalog.page _ h.head
  obtain ⟨gs, hrow, hlists, hdots, htable⟩ := hpage.names
  have hopen : dir.OpenDir cs s.fs _ (t.chain dir.fstClus) gs := ⟨hhead, h.placed, h.isDir, hpage.size, hrow⟩
  have hnone : groupNames cs gs name = none := by
    rwa [htable, inoNames, if_pos hplain, Option.map_eq_none_iff] at habsent
  have hok : s.fs.CreateOk (t.chain dir.fstClus) (requiredEntryNum u) := ⟨hsmall, fun _ => .inl hv.files.hint⟩
  have hown : ∀ other, cs.utf8ToUtf16 other = some u → other = name := fun other hother =>
    Option.some.inj ((hcs.utf16 _ _ hother).symm.trans (hcs.utf16 _ _ hname.utf16))
  obtain ⟨start, front, back, rfl, rfl, hstep, hopen'⟩ := hopen.crtFile hv.sane hown hname hnone hok hinner
  have hmade := newGroup_madeFor hcs hname
  have hbeside := (File.crtFileInner_beside hv.sane hhead h.placed h.isDir hname hok hinner).1
  generalize newGroup u hname.units b is_dir now hname.kept = g at hopen' hmade
  generalize s.fs.chainAfter (t.chain dir.fstClus) (s.fs.lengthFor (t.chain dir.fstClus) (requiredEntryNum u)) = l at *
  have hbpb := hbeside.bpb
  have hfst := hstep.worked.fstClus
  have hchain := hstep.placed.chain
  rw [hfst, hbpb] at hchain
  -- the groups of the files stay where they are
  have hmoved : t.Moved s.fs σ dir.fstClus fs' l := .of_rows hv hlists.all hrow hopen'.row
    (fun p hp _ => List.perm_middle.mem_iff.mpr (List.mem_cons_of_mem _ hp)) hbeside hstep.sane
    (hstep.keepsOthers hv.sane hhead h.placed) hchain (hbpb ▸ hopen'.size) hseq
  obtain ⟨σ', h', -, hheads, hviews⟩ := h.moved (fun _ => h.head_ne hs.catalog.toSpread) hmoved hstep.worked hstep.placed
  obtain ⟨ns₁, hworked, hviews'⟩ := hviews ns hs.views
  rw [hv.worked_dir hs.rest hparent] at hworked
  have hbut := (hs.but dir.fstClus).moved hv hmoved hheads hviews' hworked
  have hself := t.rechained_self dir.fstClus l
  have hnames : (t.rechained dir.fstClus l).Names parent dir' := by
    rw [Tree.Names, hstep.worked.ino]
    exact hparent
  -- the map takes the object, and may drop another one
  have hnew := hlists.notMem hstep.sane.sound hopen'.row
  have hlt := hopen'.row.start_lt hstep.sane.sound (List.mem_append_right front List.mem_cons_self)
  have hdata := (hv.owners.good_head hhead).1
  obtain ⟨s', hput', h'', halike, hmap⟩ := h'.put_other (g := .ofEntry dir.fstClus start name (mkShortDirEntry b is_dir now))
    hnew rfl (by rw [kRootDirIno]; omega)
  obtain rfl := Option.some.inj (hput'.symm.trans hput)
  have hentries := halike.2.1.dirEntries halike.1 (c := dir.fstClus) h.head
  rw [hself] at hentries
  obtain ⟨gs', hrow', hkeys⟩ := hopen'.row.kept hentries
  obtain ⟨front', g', back', rfl, hkeys', hlongs, hshort⟩ := exists_of_keys_middle hkeys
  have hgroups : groupNames cs (front' ++ back') = groupNames cs (front ++ back) := groupNames_congr hkeys'
  have hmem : (start, g) ∈ front ++ (start, g) :: back := List.mem_append_right front List.mem_cons_self
  have hkept : g.short.Kept g'.short := by
    have hwas := hopen'.row.short_eq hmem
    have hnow := hrow'.short_eq (List.mem_append_right front' List.mem_cons_self)
    have hentry := halike.2.1 dir.fstClus h.head (start + g.longs.length) (by
      have hin := (hopen'.row.liveGroup hmem).1
      rwa [hself])
    rw [hself] at hentry
    rw [hlongs] at hnow
    rwa [← hwas, ← hnow]
  refine ⟨_, σ', ns₁, front', back', start, g', ⟨hfst.symm ▸ h'', hmap, ?_, ?_, ?_, ?_, ?_, ?_⟩,
    hmade.congr hlongs hshort hkept, hnames, by rw [hfst], hworked, ?_, by rw [hgroups, hnone], halike.1.trans hbpb⟩
  · rw [hfst]
    exact hbut.alike h'.volume halike
  · rw [hfst, hself, halike.1]
    exact hopen'.size
  · rw [hfst, hself]
    exact hseq
  · rw [hfst, hself]
    exact hrow'
  · rw [hfst]
    exact Tree.Lists.congr (t := t.rechained dir.fstClus l) ⟨hlists.known, hlists.plain, hlists.all⟩ hkeys'
  · rw [hfst, halike.1.trans hbpb]
    exact fun hne => (hdots hne).congr hkeys'
  · rw [h.names_eq hs hparent, htable, hfst]
    funext other
    rw [inoNames, inoNames, hgroups]

/-! ### The new file -/

theorem Driver.Pending.start_lt (h : s.Pending cs t σ dir table ns front back start g) : start < 2 ^ 32 :=
  have hv : t.Volume cs s.fs σ := h.inDir.volume
  h.row.start_lt hv.mounted.sound (List.mem_append_right front List.mem_cons_self)

theorem Driver.Pending.joins (h : s.Pending cs t σ dir table ns front back start g) (hmade : g.MadeFor cs f.name u f.isDir)
    (hstands : f.Stands (dir.fstClus * 2 ^ 32 + start)) :
    t.Joins cs s.fs (dir.fstClus * 2 ^ 32 + start) g.longs.length f :=
  .of_row h.inDir.volume h.inDir.head h.lists h.row h.size h.consecutive hmade hstands

theorem Driver.Pending.page {t' : Tree} (h : s.Pending cs t σ dir table ns front back start g)
    (hg : t.Gains (dir.fstClus * 2 ^ 32 + start) g.longs.length t') (hdots : ¬ g.IsDots) :
    t'.Page cs s.fs dir.fstClus (inoNames cs dir.fstClus (front ++ (start, g) :: back)) := by
  have hchain := hg.chain _ h.inDir.head
  refine ⟨hchain.symm ▸ h.size, hchain.symm ▸ h.consecutive, _, hchain.symm ▸ h.row, hg.lists h.lists h.row hdots,
    fun hne => (h.dots hne).mono fun p hp _ => List.perm_middle.mem_iff.mpr (List.mem_cons_of_mem _ hp), rfl⟩

theorem EntryGroup.MadeFor.names (h : g.MadeFor cs name u is_dir) (hcs : cs.Inverts) (hplain : isPlainName cs name = true)
    (hname : StorableName cs name u gbk b is_dir now) (hnames : ns.names parent = inoNames cs c (front ++ back))
    (hnone : groupNames cs (front ++ back) name = none) (start : Nat) : inoNames cs c (front ++ (start, g) :: back) =
      Function.update (ns.names parent) name (some (c * 2 ^ 32 + start)) := by
  rw [hnames]
  exact inoNames_insert hplain hname.utf16 hname.gbk h.named (fun other hother =>
    Option.some.inj ((hcs.utf16 _ _ hother).symm.trans (hcs.utf16 _ _ hname.utf16))) hnone

end pending

end FuseFat32
