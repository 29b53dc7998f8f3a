import FuseFat32.Fs.Shelf

/-!
# Objects that a handler holds

A handler keeps the objects it works on alive. When the map drops one of them, the object is not destroyed before the handler lets go of it, and what the map has of it meanwhile is out of date. Together with the objects held, the map and the entries go on to have one object for every inode number.
-/

namespace FuseFat32

open LinkedTable WriteBack

/-- A reading of objects by their inode numbers and by what can be seen of the device. -/
structure Reads (cs : Charset) (R : Reading FAT32fs Nat File File) (keys : Set Nat) : Prop extends
    Lawful (File.backing cs) R keys where
  mounted : ∀ {fs σ}, R.good fs σ → fs.Mounted
  ino : ∀ {fs σ k g}, R.good fs σ → k ∈ keys → R.shows fs k (σ k) g → g.ino = k
  ne_root : ∀ {fs σ k}, R.good fs σ → k ∈ keys → k ≠ kRootDirIno
  of_value : ∀ {fs : FAT32fs} {σ d'}, R.good fs σ → d'.secCnt = fs.device.secCnt → d'.value = fs.device.value →
    R.good { fs with device := d' } σ ∧ R.alike σ fs { fs with device := d' } ∧
      (∀ k ∈ keys, R.has fs k (σ k) → R.has { fs with device := d' } k (σ k)) ∧
      ∀ k ∈ keys, ∀ g, R.shows fs k (σ k) g → R.shows { fs with device := d' } k (σ k) g

section shelf

variable {cs : Charset} {sh : Shelf} {fs : FAT32fs} {σ : Nat → File} {d' : Device}

theorem Shelf.Keeps.of_value (h : sh.Keeps cs fs σ) (hcnt : d'.secCnt = fs.device.secCnt)
    (hvalue : d'.value = fs.device.value) :
    sh.Keeps cs { fs with device := d' } σ ∧ fs.Retouched { fs with device := d' } ∧
      ∀ k ∈ sh.keys, File.fromIno cs { fs with device := d' } k = File.fromIno cs fs k := by
  obtain ⟨hm', htable⟩ := h.mounted.of_data d' hcnt fun s _ => congrFun hvalue s
  have hent : ∀ x : Nat × Nat, d'.entry x = fs.device.entry x := fun x => Device.entry_congr (congrFun hvalue _)
  have hlisted : ∀ k ∈ sh.keys, sh.Listed { fs with device := d' } k := fun k hk =>
    FAT32fs.GroupOf.congr (h.listed k hk) rfl ((FAT32fs.GroupOf.chain (h.listed k hk)).congr fun x hx =>
      htable x ((FAT32fs.GroupOf.chain (h.listed k hk)).data x hx)) fun _ _ => hent _
  have hsame : ∀ k ∈ sh.keys, File.fromIno cs { fs with device := d' } k = File.fromIno cs fs k := fun k hk =>
    (h.listed k hk).fromIno_congr (hlisted k hk) h.mounted hm' fun _ _ => hent _
  refine ⟨⟨hm', hlisted, h.apart, h.sits, fun k hk => ?_, fun k hk => ?_⟩,
    ⟨rfl, rfl, ⟨hcnt, fun s _ => congrFun hvalue s⟩, fun x _ => .inl (hent x)⟩, hsame⟩
  · obtain ⟨f, hf, hnamed⟩ := h.made k hk
    exact ⟨f, (hsame k hk).trans hf, hnamed⟩
  · obtain ⟨l, hl⟩ := h.placed k hk
    exact ⟨l, hl.of_data htable⟩

theorem Shelf.reads (cs : Charset) (sh : Shelf) : Reads cs (sh.reading cs) sh.keys where
  toLawful := sh.lawful cs
  mounted := fun h => Shelf.Keeps.mounted h
  ino := fun h hk hshows => (File.MayCache.ino_eq hshows).trans (Shelf.Keeps.sits h _ hk).ino_eq
  ne_root := fun h hk => (Shelf.Keeps.listed h _ hk).ne_root
  of_value := by
    intro fs σ d' h hcnt hvalue
    obtain ⟨hkeeps, hretouched, hsame⟩ := Shelf.Keeps.of_value h hcnt hvalue
    obtain ⟨-, htable⟩ := (Shelf.Keeps.mounted h).of_data d' hcnt fun s _ => congrFun hvalue s
    exact ⟨hkeeps, hretouched, fun k hk hhas => (hsame k hk).trans hhas, fun k _ g hg => hg.of_table htable⟩

end shelf

/-- The inode numbers of the objects that are held: of files of the volume, and of others. -/
def heldInos (held : List File) (others : List Nat) : List Nat := held.map File.ino ++ others

/-- The objects in memory that are files of the volume: those that are held, as the handler has left them, and the rest of the map. -/
def inMemory (held : List File) (others : List Nat) (list : List (Nat × File)) : List (Nat × File) :=
  held.map (fun f => (f.ino, f)) ++ list.filter fun p => p.1 ∉ heldInos held others

/-- The map, the entries and the objects that are held have the objects `σ`. -/
structure Driver.HoldsBy (R : Reading FAT32fs Nat File File) (keys : Set Nat) (s : Driver) (σ : Nat → File)
    (held : List File) (others : List Nat) : Prop where
  room : 0 < s.files.maxSize
  distinct : s.files.KeysNodup
  keyed : ∀ p ∈ s.files.list, p.2.ino = p.1 ∧ p.1 ≠ kRootDirIno
  coherent : Coherent R keys s.fs σ (inMemory held others s.files.list)

section memory

variable {held : List File} {others : List Nat} {list list' : List (Nat × File)} {f g : File} {k : Nat}

private theorem inMemory_perm (h : list.Perm list') : (inMemory held others list).Perm (inMemory held others list') :=
  (h.filter _).append_left _

private theorem inMemory_perm_held {held' : List File} (h : held.Perm held') :
    (inMemory held others list).Perm (inMemory held' others list) := by
  have hmem : ∀ k, k ∉ heldInos held others ↔ k ∉ heldInos held' others := fun k => by
    rw [heldInos, heldInos, List.mem_append, List.mem_append, (h.map File.ino).mem_iff]
  rw [inMemory, inMemory, List.filter_congr fun p _ => decide_eq_decide.mpr (hmem p.1)]
  exact (h.map _).append_right _

theorem inMemory_root (h : ∀ p ∈ list, p.1 ≠ kRootDirIno) : inMemory held [kRootDirIno] list = inMemory held [] list := by
  rw [inMemory, inMemory]
  refine congrArg _ (List.filter_congr fun p hp => decide_eq_decide.mpr ?_)
  simp [heldInos, h p hp]

theorem inMemory_hold (hnodup : (list.map Prod.fst).Nodup) (hmem : (k, g) ∈ list) (hino : g.ino = k)
    (hnot : k ∉ heldInos held others) : (inMemory (g :: held) others list).Perm (inMemory held others list) := by
  have hfilter : list.filter (fun p => p.1 ∉ heldInos (g :: held) others) =
      (list.filter fun p => p.1 ≠ k).filter fun p => p.1 ∉ heldInos held others := by
    rw [List.filter_filter]
    refine List.filter_congr fun p _ => ?_
    rw [← Bool.decide_and, decide_eq_decide, heldInos, List.map_cons, hino, List.cons_append, List.mem_cons, not_or]
    exact and_comm
  have hperm : ((k, g) :: list.filter fun p => p.1 ≠ k).Perm list := perm_of_distinct (f := Prod.fst) hnodup hmem
  have hkept := hperm.filter fun p => p.1 ∉ heldInos held others
  rw [List.filter_cons_of_pos (by simpa using hnot)] at hkept
  rw [inMemory, inMemory, hfilter, List.map_cons, hino, List.cons_append]
  exact List.perm_middle.symm.trans (hkept.append_left _)

private theorem inMemory_release (hnodup : (list.map Prod.fst).Nodup) (hmem : (f.ino, g) ∈ list)
    (hnot : f.ino ∉ heldInos held others) :
    (inMemory held others (list.map fun p => (p.1, if p.1 = f.ino then f else p.2))).Perm
      (inMemory (f :: held) others list) := by
  have hkeys : (list.map fun p => (p.1, if p.1 = f.ino then f else p.2)).map Prod.fst = list.map Prod.fst := by
    rw [List.map_map]
    rfl
  have hmem' : (f.ino, f) ∈ list.map fun p => (p.1, if p.1 = f.ino then f else p.2) :=
    List.mem_map.mpr ⟨_, hmem, by simp⟩
  have hsame : (list.map fun p => (p.1, if p.1 = f.ino then f else p.2)).filter
      (fun p => p.1 ∉ heldInos (f :: held) others) = list.filter fun p => p.1 ∉ heldInos (f :: held) others := by
    rw [List.filter_map]
    refine (List.map_congr_left fun p hp => ?_).trans (List.map_id _)
    have hp' : p.1 ∉ heldInos (f :: held) others := by simpa using (List.mem_filter.mp hp).2
    have hne : p.1 ≠ f.ino := fun heq => hp' (by rw [heq, heldInos, List.map_cons]; exact List.mem_cons_self)
    rw [if_neg hne]
    rfl
  have hperm := inMemory_hold (hkeys.symm ▸ hnodup) hmem' rfl hnot
  rw [inMemory, hsame] at hperm
  exact hperm.symm

private theorem inMemory_absent (habsent : ∀ p ∈ list, p.1 ≠ f.ino) :
    inMemory (f :: held) others list = (f.ino, f) :: inMemory held others list := by
  have hfilter : list.filter (fun p => p.1 ∉ heldInos (f :: held) others) =
      list.filter fun p => p.1 ∉ heldInos held others := by
    refine List.filter_congr fun p hp => ?_
    rw [decide_eq_decide, heldInos, List.map_cons, List.cons_append, List.mem_cons, not_or]
    exact and_iff_right (habsent p hp)
  rw [inMemory, hfilter, List.map_cons, List.cons_append]
  rfl

end memory

section driver

variable {cs : Charset} {R R' : Reading FAT32fs Nat File File} {keys keys' : Set Nat} {s s' : Driver} {σ σ' : Nat → File}
  {held : List File} {others : List Nat} {f f' g g' : File} {k : Nat} {fs' : FAT32fs} {d' : Device} {l : List Nat}

theorem FAT32fs.destroyAll_eq (cs : Charset) : ∀ (files : List File) (fs : FAT32fs),
    fs.destroyAll files = (File.backing cs).saveAll files fs := by
  intro files
  induction files with
  | nil => exact fun _ => rfl
  | cons file files ih =>
    intro fs
    rw [FAT32fs.destroyAll, Backing.saveAll, File.backing]
    rw [Option.bind_map]
    exact congrArg _ (funext fun r => ih r.1)

theorem Driver.HoldsBy.of_coherent (hR : Reads cs R keys) (hpos : 0 < s.files.maxSize)
    (hc : Coherent R keys s.fs σ s.files.list) : s.HoldsBy R keys σ [] [] := by
  have hall : inMemory [] [] s.files.list = s.files.list := List.filter_eq_self.mpr fun p _ => by simp [heldInos]
  refine ⟨hpos, hc.distinct, fun p hp => ?_, hall.symm ▸ hc⟩
  obtain ⟨hk, hshows⟩ := hc.held p hp
  exact ⟨hR.ino hc.good hk hshows, hR.ne_root hc.good hk⟩

theorem Driver.HoldsBy.all (h : s.HoldsBy R keys σ [] []) : Coherent R keys s.fs σ s.files.list := by
  have hall : inMemory [] [] s.files.list = s.files.list := List.filter_eq_self.mpr fun p _ => by simp [heldInos]
  exact hall ▸ h.coherent

theorem Driver.HoldsBy.perm_held {held' : List File} (h : s.HoldsBy R keys σ held others) (hperm : held.Perm held') :
    s.HoldsBy R keys σ held' others :=
  ⟨h.room, h.distinct, h.keyed, h.coherent.perm (inMemory_perm_held hperm)⟩

theorem Driver.holdsBy_root : s.HoldsBy R keys σ held [kRootDirIno] ↔ s.HoldsBy R keys σ held [] :=
  ⟨fun h => ⟨h.room, h.distinct, h.keyed, inMemory_root (fun p hp => (h.keyed p hp).2) ▸ h.coherent⟩,
    fun h => ⟨h.room, h.distinct, h.keyed, inMemory_root (fun p hp => (h.keyed p hp).2) ▸ h.coherent⟩⟩

/-- What the map drops for a new object is written back, unless the handler holds it. -/
theorem Driver.put_holdsBy (hR : Reads cs R keys) (hpos : 0 < s.files.maxSize) (hdistinct : s.files.KeysNodup)
    (hkeyed : ∀ p ∈ s.files.list, p.2.ino = p.1 ∧ p.1 ≠ kRootDirIno) (habsent : ∀ p ∈ s.files.list, p.1 ≠ k)
    (hino : g.ino = k) (hroot : k ≠ kRootDirIno)
    (hc : Coherent R keys s.fs σ (inMemory held others ((k, g) :: s.files.list))) :
    ∃ s', s.put (heldInos held others) k g = some s' ∧ s'.HoldsBy R keys σ held others ∧ (k, g) ∈ s'.files.list ∧
      R.alike σ s.fs s'.fs := by
  obtain ⟨dropped, hdropped, hlist, hsize⟩ := LRUCacheMap.put_of_absent habsent g
  have hkeyed' : ∀ p ∈ (k, g) :: s.files.list, p.2.ino = p.1 ∧ p.1 ≠ kRootDirIno :=
    List.forall_mem_cons.mpr ⟨⟨hino, hroot⟩, hkeyed⟩
  have hgone : (dropped.map Prod.snd).filter (fun f => f.ino ∉ heldInos held others) =
      (dropped.filter fun p => p.1 ∉ heldInos held others).map Prod.snd := by
    rw [List.filter_map]
    refine congrArg _ (List.filter_congr fun p hp => ?_)
    rw [Function.comp_apply, (hkeyed' p (hlist ▸ List.mem_append_right _ hp)).1]
  rw [← hlist] at hkeyed' hc
  have hsplit : (inMemory held others ((s.files.put k g).1.list ++ dropped)).Perm
      ((dropped.filter fun p => p.1 ∉ heldInos held others) ++ inMemory held others (s.files.put k g).1.list) := by
    rw [inMemory, List.filter_append, ← List.append_assoc]
    exact List.perm_append_comm
  obtain ⟨fs', hsave, halike, hkept⟩ := (hc.perm hsplit).saveAll hR.toLawful
  refine ⟨⟨fs', (s.files.put k g).1⟩, ?_, ⟨hsize.symm ▸ hpos, LRUCacheMap.put_keysNodup hdistinct,
    fun p hp => hkeyed' p (List.mem_append_left _ hp), hkept⟩, LRUCacheMap.mem_put_self hpos k g, halike⟩
  have hdestroy : s.fs.destroyAll ((s.files.put k g).2.filter fun f => f.ino ∉ heldInos held others) = some fs' := by
    rw [hdropped, hgone, FAT32fs.destroyAll_eq cs]
    exact hsave
  simp only [Driver.put, hdestroy, Option.bind_eq_bind, Option.bind_some]
  rfl

/-- `getFileByIno` has the object of a file that nobody holds, and the map has it from then on. -/
theorem Driver.HoldsBy.getFileByIno (hR : Reads cs R keys) (h : s.HoldsBy R keys σ held others) (hk : k ∈ keys)
    (hnot : k ∉ heldInos held others) : ∃ g s', s.getFileByIno cs (heldInos held others) k = some (some g, s') ∧ (k, g) ∈ s'.files.list ∧
      s'.HoldsBy R keys σ held others ∧ R.alike σ s.fs s'.fs := by
  have hroot : k ≠ kRootDirIno := hR.ne_root h.coherent.good hk
  rw [Driver.getFileByIno]
  rcases hget : s.files.get k with ⟨found, files⟩
  cases found with
  | some g =>
    obtain ⟨hmem, hperm, hsize⟩ := LRUCacheMap.get_of_some h.distinct (congrArg Prod.fst hget)
    rw [hget] at hperm hsize
    exact ⟨g, ⟨s.fs, files⟩, rfl, hperm.mem_iff.mpr hmem, ⟨hsize.symm ▸ h.room,
      ((hperm.map Prod.fst).nodup_iff).mpr h.distinct, fun p hp => h.keyed p (hperm.mem_iff.mp hp),
      h.coherent.perm (inMemory_perm hperm.symm)⟩, hR.refl σ s.fs⟩
  | none =>
    have hnone : (s.files.get k).1 = none := congrArg Prod.fst hget
    obtain rfl : s.files = files := (LRUCacheMap.get_of_none hnone).symm.trans (congrArg Prod.snd hget)
    have habsent := LRUCacheMap.get_eq_none.mp hnone
    have hmemory : ∀ p ∈ inMemory held others s.files.list, p.1 ≠ k := by
      intro p hp
      rcases List.mem_append.mp hp with hp | hp
      · obtain ⟨f, hf, rfl⟩ := List.mem_map.mp hp
        exact fun heq => hnot (heq ▸ List.mem_append_left _ (List.mem_map_of_mem hf))
      · exact habsent p (List.mem_of_mem_filter hp)
    obtain ⟨g, hload, hc⟩ := h.coherent.admit hR.toLawful hk hmemory
    have hmade : File.fromIno cs s.fs k = some (some g) := Option.join_eq_some_iff.mp hload
    have hino : g.ino = k := hR.ino hc.good hk (hc.held _ List.mem_cons_self).2
    have hput : (inMemory held others ((k, g) :: s.files.list)).Perm ((k, g) :: inMemory held others s.files.list) := by
      rw [inMemory, List.filter_cons_of_pos (by simpa using hnot)]
      exact List.perm_middle
    obtain ⟨s', hrun, h', hmem, halike⟩ := Driver.put_holdsBy hR h.room h.distinct h.keyed habsent hino hroot (hc.perm hput.symm)
    refine ⟨g, s', ?_, hmem, h', halike⟩
    simp only [if_neg hroot, hmade, Option.bind_eq_bind, Option.bind_some, hrun]
    rfl

theorem Driver.HoldsBy.hold (h : s.HoldsBy R keys σ held others) (hmem : (k, g) ∈ s.files.list)
    (hnot : k ∉ heldInos held others) : s.HoldsBy R keys σ (g :: held) others :=
  ⟨h.room, h.distinct, h.keyed, h.coherent.perm (inMemory_hold h.distinct hmem (h.keyed _ hmem).1 hnot).symm⟩

theorem Driver.HoldsBy.shows (h : s.HoldsBy R keys σ (g :: held) others) :
    g.ino ∈ keys ∧ R.shows s.fs g.ino (σ g.ino) g :=
  h.coherent.shows (List.mem_append_left _ List.mem_cons_self)

/-- Work on an object that is held. -/
theorem Driver.HoldsBy.recast (h : s.HoldsBy R keys σ (g :: held) others) (hgood : R'.good fs' σ')
    (hσ : ∀ j ≠ g.ino, σ' j = σ j) (hino : g'.ino = g.ino) (hself : R'.shows fs' g.ino (σ' g.ino) g')
    (hhas : ∀ j ∈ keys, j ≠ g.ino → R.has s.fs j (σ j) → R'.has fs' j (σ j))
    (hshows : ∀ j ∈ keys, j ≠ g.ino → ∀ a, R.shows s.fs j (σ j) a → R'.shows fs' j (σ j) a) :
    Driver.HoldsBy R' keys ⟨fs', s.files⟩ σ' (g' :: held) others := by
  have hc : Coherent R' keys fs' σ' _ := h.coherent.recast hgood hσ hself hhas hshows
  refine ⟨h.room, h.distinct, h.keyed, ?_⟩
  rw [inMemory, heldInos, List.map_cons, List.map_cons, hino]
  exact hc

theorem Driver.HoldsBy.recached (hR : Reads cs R keys) (h : s.HoldsBy R keys σ (g :: held) others)
    (hg : R.shows s.fs g.ino (σ g.ino) g') : s.HoldsBy R keys σ (g' :: held) others :=
  h.recast h.coherent.good (fun _ _ => rfl) (hR.ino h.coherent.good h.shows.1 hg) hg (fun _ _ _ hhas => hhas)
    fun _ _ _ _ ha => ha

/-- An object that has not been changed is let go of. -/
theorem Driver.HoldsBy.release (hR : Reads cs R keys) (h : s.HoldsBy R keys σ (f :: held) others)
    (hnot : f.ino ∉ heldInos held others) : ∃ s', s.release f = some s' ∧ s'.HoldsBy R keys σ held others ∧ R.alike σ s.fs s'.fs := by
  rw [Driver.release]
  split
  · next hany =>
    obtain ⟨⟨k, g⟩, hmem, hkey⟩ := List.any_eq_true.mp hany
    obtain rfl : k = f.ino := by simpa using hkey
    have hkeys : (s.files.list.map fun p => (p.1, if p.1 = f.ino then f else p.2)).map Prod.fst =
        s.files.list.map Prod.fst := by
      rw [List.map_map]
      rfl
    refine ⟨_, rfl, ⟨h.room, (congrArg List.Nodup hkeys).mpr h.distinct, fun p hp => ?_,
      h.coherent.perm (inMemory_release h.distinct hmem hnot).symm⟩, hR.refl σ s.fs⟩
    obtain ⟨q, hq, rfl⟩ := List.mem_map.mp hp
    obtain ⟨hino, hroot⟩ := h.keyed q hq
    refine ⟨?_, hroot⟩
    dsimp only
    split
    · next heq => exact heq.symm
    · exact hino
  · next hany =>
    have habsent : ∀ p ∈ s.files.list, p.1 ≠ f.ino := fun p hp heq =>
      hany (List.any_eq_true.mpr ⟨p, hp, by simpa using heq⟩)
    have hc := h.coherent
    rw [inMemory_absent habsent] at hc
    obtain ⟨fs', hsave, halike, hkept⟩ := hc.evict hR.toLawful
    obtain ⟨⟨fs₁, f'⟩, hrun, rfl⟩ := Option.map_eq_some_iff.mp hsave
    refine ⟨⟨fs₁, s.files⟩, ?_, ⟨h.room, h.distinct, h.keyed, hkept⟩, halike⟩
    rw [hrun]
    rfl

theorem File.sync_root (hlive : f.isDeleted = false) (hino : f.ino = kRootDirIno) (fs : FAT32fs) (sync_meta : Bool) :
    f.sync fs sync_meta = File.syncSectors (2 ^ 33) fs f 0 := by
  rw [File.sync, if_neg (by simp [hlive]), if_neg fun hboth => hboth.2 hino]
  rfl

theorem Driver.HoldsBy.of_value (hR : Reads cs R keys) (h : s.HoldsBy R keys σ held others)
    (hcnt : d'.secCnt = s.fs.device.secCnt) (hvalue : d'.value = s.fs.device.value) :
    Driver.HoldsBy R keys ⟨{ s.fs with device := d' }, s.files⟩ σ held others ∧ R.alike σ s.fs { s.fs with device := d' } := by
  obtain ⟨hgood, halike, hhas, hshows⟩ := hR.of_value h.coherent.good hcnt hvalue
  exact ⟨⟨h.room, h.distinct, h.keyed, h.coherent.transport hgood hhas hshows⟩, halike⟩

theorem Driver.HoldsBy.release_root (hR : Reads cs R keys) (h : s.HoldsBy R keys σ [] []) (hino : f.ino = kRootDirIno)
    (hf : f.Placed s.fs l) (hlive : f.isDeleted = false) :
    ∃ s', s.release f = some s' ∧ s'.HoldsBy R keys σ [] [] ∧ R.alike σ s.fs s'.fs := by
  have habsent : ¬ s.files.list.any (·.1 = f.ino) = true := by
    rw [List.any_eq_true]
    rintro ⟨p, hp, heq⟩
    exact (h.keyed p hp).2 ((of_decide_eq_true heq).trans hino)
  have hf' : File.Placed s.fs { f with isDir := false } l := ⟨hf.chain, hf.cache⟩
  obtain ⟨d', hrun, hback⟩ := hf'.syncSectors (hR.mounted h.coherent.good)
  have hsync : f.destructor s.fs = some ({ s.fs with device := d' }, File.cached { f with isDir := false } l) := by
    rw [File.destructor, File.sync_root (f := { f with isDir := false }) hlive hino]
    exact hrun
  refine ⟨⟨{ s.fs with device := d' }, s.files⟩, ?_, h.of_value hR hback.secCnt hback.value⟩
  rw [Driver.release, if_neg habsent, hsync]
  rfl

end driver

end FuseFat32
