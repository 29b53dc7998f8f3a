import FuseFat32.Fuse.Serve

/-!
# Runs of the driver

The process that ends writes back the objects of its map and then the sectors of its cache, and the next one makes objects of the entries again. A client cannot tell that from a map that has dropped everything, so a run with any number of restarts is still a run of the store.
-/

namespace FuseFat32

open LinkedTable Layout WriteBack

/-! ### The mount -/

section mount

variable {d : Device} {fs fs' : FAT32fs}

/-- The two words that `from` writes. -/
def Device.uncounted (d : Device) (fs_info : Nat) : Device :=
  (d.write fs_info freeCountOffset (le32 0xFFFFFFFF)).write fs_info (freeCountOffset + 4) (le32 0xFFFFFFFF)

theorem FAT32fs.from_device (hfrom : FAT32fs.from d = some fs) :
    isValidFat32BPB fs.bpb = some true ∧ fs.bpb = BPB.ofSector (d.value 0) ∧
      assertFSInfo (d.value fs.bpb.fsInfo.toNat) = some () ∧ fs.device = d.uncounted fs.bpb.fsInfo.toNat := by
  simp only [FAT32fs.from, Option.bind_eq_bind, Option.bind_eq_some_iff] at hfrom
  obtain ⟨v, hv, valid, hvalid, _, htrue, info, hread, _, hsig, fat, -, hfrom⟩ := hfrom
  obtain ⟨-, rfl⟩ := (d.readSector_eq_some _).mp hv
  obtain ⟨-, rfl⟩ := (d.readSector_eq_some _).mp hread
  obtain rfl := Option.some.inj hfrom
  obtain rfl := assert_eq_some.mp htrue
  exact ⟨hvalid, rfl, hsig, rfl⟩

private theorem Device.uncounted_of_ne {fs_info s : Nat} (hne : s ≠ fs_info) : (d.uncounted fs_info).value s = d.value s :=
  funext fun i => (Device.value_write_of_ne _ _ _ _ hne i).trans (Device.value_write_of_ne _ _ _ _ hne i)

/-- A volume that has just been mounted can be mounted again, and then no count is taken for a hint. -/
theorem FAT32fs.from_remountable (hfrom : FAT32fs.from d = some fs)
    (hinfo : 0 < fs.bpb.fsInfo.toNat ∧ fs.bpb.fsInfo.toNat < fs.bpb.resvdSecCnt.toNat) : fs.Remountable := by
  obtain ⟨hvalid, hbpb, hsig, hdevice⟩ := FAT32fs.from_device hfrom
  refine ⟨hvalid, hinfo, ?_, ?_, ?_⟩
  · rw [hdevice, Device.uncounted_of_ne hinfo.1.ne, ← hbpb]
  · rw [hdevice]
    refine (assertFSInfo_congr fun i hi => ?_).trans hsig
    exact (Device.value_write_outside _ _ _ _ (by simp only [freeCountOffset, length_le32]; omega) _).trans
      (Device.value_write_outside _ _ _ _ (by simp only [freeCountOffset, length_le32]; omega) _)
  · rw [hdevice, Device.uncounted]
    have hfirst : read32 ((d.write fs.bpb.fsInfo.toNat freeCountOffset (le32 0xFFFFFFFF)).value fs.bpb.fsInfo.toNat)
        freeCountOffset = 0xFFFFFFFF := (d.read32_write _ _ _).trans (by decide)
    refine (read32_congr fun i hlo hhi => ?_).trans hfirst
    exact Device.value_write_outside _ _ _ _ (by simp only [freeCountOffset, length_le32] at *; omega) _

/-- What the caches have is written back, and the volume can be mounted. -/
theorem FAT32fs.Remountable.bootable (h : fs.Remountable) (hm : fs.Mounted) (hopen : fs.device.stored = fs.device.value) :
    fs.Bootable := by
  have hdropped : ∀ x, fs.dropped.table x = fs.table x := fun x => fs.fat.entry_congr (congrFun hopen _)
  refine ⟨h.valid, h.fsInfo, ⟨hopen ▸ h.boot, h.boot⟩, ⟨hopen ▸ h.signatures, h.signatures⟩, ?_⟩
  rw [hdropped, hdropped]
  exact hm.wellFormed.reserved

end mount

/-! ### The restart -/

section restart

variable {cs : Charset} {unix2DosTs : Timespec → FatTimeStamp} {t : Tree} {fs : FAT32fs} {s s' : Driver} {σ : Nat → File}
  {k : Nat} {store : Nat → FileView}

/-- A volume whose sectors have been written back is mounted with the same objects. -/
theorem Tree.Volume.remount (h : t.Volume cs fs σ) (hopen : fs.device.stored = fs.device.value) : ∃ fs',
    FAT32fs.from fs.device.dropped = some fs' ∧ t.Volume cs fs' σ ∧ t.Alike σ fs fs' ∧
      ∀ k ∈ t.inos, File.fromIno cs fs' k = File.fromIno cs fs k := by
  have hm := h.mounted
  have hboot := h.boot.bootable hm hopen
  obtain ⟨fs', hfrom, hm', hbpb, hshares⟩ := hboot.remount hm
  have hcount := FAT32fs.from_freeCount hfrom
  have hinfo : fs.device.dropped.value = fs.device.value := hopen
  refine ⟨fs', hfrom, h.transport hm' hbpb (fun head hhead l hw => ?_) ?_ ?_ (FAT32fs.from_remountable hfrom (hbpb ▸ h.boot.fsInfo))⟩
  · have hopened : fs.Shares fs.dropped l := ⟨fun x _ => fs.fat.entry_congr (congrFun hopen _), fun n _ => congrFun hopen _⟩
    exact hopened.trans rfl (hshares l fun x => h.owners.good_of_mem hhead hw)
  · rw [hcount, Device.fsInfoFreeCount, hinfo, h.boot.boot]
    exact h.boot.noCount
  · rw [(FAT32fs.from_device hfrom).2.2.2]
    rfl

theorem Driver.restart_coherent (hc : Coherent (t.reading cs) t.inos s.fs σ s.files.list) : ∃ s₁ s₂,
    s.flush = some s₁ ∧ s₁.remount = some s₂ ∧ 0 < s₂.files.maxSize ∧
      Coherent (t.reading cs) t.inos s₂.fs σ s₂.files.list ∧ t.Alike σ s.fs s₂.fs := by
  have hvolume : t.Volume cs s.fs σ := hc.good
  have hall : Coherent (t.reading cs) t.inos s.fs σ (s.files.list ++ []) := (List.append_nil _).symm ▸ hc
  obtain ⟨fs₁, hsave, halike, hempty⟩ := hall.saveAll (Tree.lawful cs t)
  have hvolume₁ : t.Volume cs fs₁ σ := hempty.good
  have hmade : ∀ k ∈ t.inos, File.fromIno cs fs₁ k = some (some (σ k)) := fun k hk =>
    hempty.absent k hk fun p hp => absurd hp List.not_mem_nil
  obtain ⟨hclear, hsame, hkept⟩ := hvolume₁.of_value (d := fs₁.device.clear) rfl rfl
  obtain ⟨fs₂, hfrom, hvolume₂, hsame₂, hkept₂⟩ := hclear.remount rfl
  refine ⟨⟨{ fs₁ with device := fs₁.device.clear }, s.files.clear.1⟩, ⟨fs₂, ⟨kCachedLookupFiles, []⟩⟩, ?_, ?_,
    Nat.succ_pos _, ⟨hvolume₂, List.nodup_nil, fun p hp => absurd hp List.not_mem_nil, fun k hk _ => ?_⟩,
    (halike.trans hsame).trans hsame₂⟩
  · have hdestroy : s.fs.destroyAll s.files.clear.2 = some fs₁ := (FAT32fs.destroyAll_eq cs _ _).trans hsave
    simp only [Driver.flush, hdestroy, Option.bind_eq_bind, Option.bind_some]
    rfl
  · rw [Driver.remount, hfrom]
    rfl
  · exact (hkept₂ k hk).trans ((hkept k hk).trans (hmade k hk))

/-- The driver has the same files after a restart. -/
theorem Driver.Shows.restart (h : s.Shows cs t store) : ∃ s₁ s₂, s.flush = some s₁ ∧ s₁.remount = some s₂ ∧
    s₂.Shows cs t store ∧ s₂.fs.bpb = s.fs.bpb := by
  obtain ⟨-, σ, hc, hview⟩ := h
  obtain ⟨s₁, s₂, hflush, hremount, hpos, hc', halike⟩ := Driver.restart_coherent hc
  exact ⟨s₁, s₂, hflush, hremount, ⟨hpos, σ, hc', fun k hk => halike.view hc.good hk (hview k hk)⟩, halike.1⟩

/-- Whatever clients ask, however many objects the map can hold and however often the driver restarts, the answers are those of a store with one file for every inode number, and the driver goes on to have that store. -/
theorem Driver.run_refines (cs : Charset) (unix2DosTs : Timespec → FatTimeStamp) (t : Tree) :
    ∀ (events : List Event) (s s' : Driver) (store : Nat → FileView) (answers : List Answer), s.Shows cs t store →
      (∀ call ∈ events.filterMap Event.call?, call.Valid t) → s.run cs unix2DosTs events = some (answers, s') →
      ∃ store', Store.Serves s.fs.bpb unix2DosTs store (events.filterMap Event.call?) answers store' ∧
        s'.Shows cs t store' := by
  intro events
  induction events with
  | nil =>
    intro s s' store answers h _ hrun
    obtain ⟨rfl, rfl⟩ : [] = answers ∧ s = s' := by simpa [Driver.run] using hrun
    exact ⟨store, .nil store, h⟩
  | cons event events ih =>
    intro s s' store answers h hvalid hrun
    cases event with
    | call c =>
      simp only [Driver.run, Option.bind_eq_bind, Option.bind_eq_some_iff, Option.pure_def, Option.some.injEq,
        Prod.mk.injEq] at hrun
      obtain ⟨⟨answer, s₁⟩, hserve, ⟨rest, s₂⟩, hrest, rfl, rfl⟩ := hrun
      obtain ⟨v, hstep, h₁, hbpb⟩ := h.serve (hvalid c List.mem_cons_self) hserve
      obtain ⟨store', hserves, h'⟩ := ih s₁ s₂ _ rest h₁ (fun c hc => hvalid c (List.mem_cons_of_mem _ hc)) hrest
      exact ⟨store', .cons hstep (hbpb ▸ hserves), h'⟩
    | restart =>
      obtain ⟨s₁, s₂, hflush, hremount, h₂, hbpb⟩ := h.restart
      simp only [Driver.run, hflush, hremount, Option.bind_eq_bind, Option.bind_some] at hrun
      obtain ⟨store', hserves, h'⟩ := ih s₂ s' store answers h₂ hvalid hrun
      exact ⟨store', hbpb ▸ hserves, h'⟩

end restart

/-! The volume with one file of two bytes, and a map that has room for one object. -/

def fsyncTree : Tree := ⟨{2 * 2 ^ 32}, ∅, {2}, fun _ => [2], fun _ => 0⟩

def fsyncDriver : Driver := ⟨fsyncFs, ⟨1, []⟩⟩

/-- The bytes are those of cluster 3. -/
def fsyncView : FileView := ⟨false, 2, fsyncFs.content [3], ⟨0, ⟨0, 0⟩⟩, 0, ⟨0, 0⟩⟩

private theorem fsyncFs_owners {heads : Set Nat} (h : ∀ x ∈ heads, x = 2 ∨ x = 3) :
    Owners fsyncFs.table Eoc mountBpb.DataClus heads := by
  have hwalk : ∀ x ∈ heads, Walk fsyncFs.table Eoc x [x] ∧ mountBpb.DataClus x := by
    intro x hx
    have hplaced : (dirAt x).Placed fsyncFs [x] := fsyncFs_placed (h x hx) rfl
    rcases hplaced.chain with ⟨-, hnil⟩ | ⟨hdata, hchain⟩
    · exact absurd hnil (List.cons_ne_nil _ _)
    · exact ⟨hchain.walk, hdata⟩
  refine ⟨fun x hx => ⟨[x], (hwalk x hx).1, List.forall_mem_singleton.mpr (hwalk x hx).2⟩,
    fun x hx => mountBpb_sound.not_endOfClusChain (hwalk x hx).2, fun x hx y hy hne l l' hl hl' => ?_⟩
  rw [hl.unique (hwalk x hx).1, hl'.unique (hwalk y hy).1]
  simpa using hne.symm

private theorem fsyncTree_listed : fsyncTree.Listed fsyncFs (2 * 2 ^ 32) := by
  refine ⟨(fsyncFs_placed (f := dirAt 2) (.inl rfl) rfl).chain, by decide, .inl (by decide), fun j hj => ?_,
    fun j hj => absurd hj (Nat.not_lt_zero j), by decide +kernel⟩
  obtain rfl := Nat.le_zero.mp hj
  decide +kernel

theorem fsyncFs_layout : GroupLayout (fsyncFs.dirEntries [2]) [.block fsyncGroup]
    (List.replicate 15 (LongDirEntry.ofBytes fun _ => 0)) := by
  refine ⟨by decide +kernel, ?_, ?_⟩
  · simp
  · simpa using isLstEmpty_zero.1

theorem fsyncFs_fromIno {cs : Charset} (hname : cs.gbkToUtf8 [0x41] = some [0x41]) :
    File.fromIno cs fsyncFs (2 * 2 ^ 32) = some (some fsyncFile) := by
  have hshort : fsyncGroup.shortName = [0x41] := by decide +kernel
  have hgroup : fsyncGroup.name cs = some [0x41] := by
    rw [EntryGroup.name, if_pos (show fsyncGroup.longs = [] from rfl), hshort, hname]
  have hread := fsyncFs_layout.fromIno fsyncFs_mounted.1 (fsyncFs_placed (f := dirAt 2) (.inl rfl) rfl) (by decide) (by decide)
    (List.mem_singleton_self _) hgroup
  rwa [fsyncGroup, EntryGroup.ofShort, castLongDirEntryToShort_castShortDirEntryToLong] at hread

private theorem fsyncTree_volume {cs : Charset} (hname : cs.gbkToUtf8 [0x41] = some [0x41]) :
    fsyncTree.Volume cs fsyncFs fun _ => fsyncFile := by
  obtain ⟨hm, htable, -⟩ := fsyncFs_mounted
  have hboot := fsyncFs_bootable
  have hplaced : fsyncFile.Placed fsyncFs [3] := fsyncFs_placed (.inr rfl) rfl
  have hdirs : fsyncFs.bpb.ChainOf fsyncFs.table 2 [2] := (fsyncFs_placed (f := dirAt 2) (.inl rfl) rfl).chain
  have honly : ∀ k ∈ fsyncTree.inos, k = 2 * 2 ^ 32 := fun k hk => hk.elim id fun hno => absurd hno (Set.notMem_empty k)
  have hnocount : read32 (fsyncFs.device.value 1) freeCountOffset = 0xFFFFFFFF := by decide +kernel
  have hheads : ∀ x ∈ (fsyncTree.run fsyncFs fun _ => fsyncFile).heads fsyncTree.dirs, x = 2 ∨ x = 3 := by
    rintro x (hx | ⟨-, -, -, rfl⟩)
    · exact .inl hx
    · exact .inr rfl
  have hreach : fsyncFile.EntryReach mountBpb := by decide
  have hlen : [3].length = mountBpb.clusFor fsyncFile.fileSz_ := by decide
  have hapart : fsyncFile.fstClus ∉ fsyncTree.dirs := fun h => absurd (Set.mem_singleton_iff.mp h) (by decide)
  have hone : ∀ i j : fsyncTree.files, i = j := fun i j => Subtype.ext ((i.2 : (i : Nat) = _).trans (j.2 : (j : Nat) = _).symm)
  refine ⟨⟨hboot.valid, hboot.fsInfo, hboot.boot.2, hboot.signatures.2, hnocount⟩, ⟨⟨hm, fsyncFs_owners hheads⟩, rfl,
    by decide, fun _ => rfl, fun _ => rfl, fun _ => hreach, fun _ _ => ⟨[3], hplaced, hlen⟩,
    fun i j _ _ hne => absurd (hone i j) hne, fun _ _ => hapart, fun x hx => absurd hx (Set.notMem_empty x)⟩,
    fun c hc => ?_, fun k hk => ?_, fun j hj k hk _ _ => (honly j hj).trans (honly k hk).symm, fun k hk => ?_, fun k hk => ?_,
    fun k hk => absurd hk (Set.notMem_empty k)⟩
  · obtain rfl := Set.mem_singleton_iff.mp hc
    exact hdirs
  · obtain rfl := honly k hk
    exact ⟨rfl, fsyncTree_listed⟩
  · obtain rfl := honly k hk
    exact ⟨⟨rfl, rfl, rfl, rfl, by decide, by decide⟩, by decide⟩
  · obtain rfl := honly k hk
    exact ⟨_, fsyncFs_fromIno hname, rfl, rfl⟩

theorem fsyncDriver_coherent {cs : Charset} (hname : cs.gbkToUtf8 [0x41] = some [0x41]) :
    Coherent (fsyncTree.reading cs) fsyncTree.inos fsyncFs (fun _ => fsyncFile) fsyncDriver.files.list ∧
      ∀ k ∈ fsyncTree.inos, fsyncTree.View fsyncFs fsyncFile fsyncView := by
  have hplaced : fsyncFile.Placed fsyncFs [3] := fsyncFs_placed (.inr rfl) rfl
  have honly : ∀ k ∈ fsyncTree.inos, k = 2 * 2 ^ 32 := fun k hk => hk.elim id fun hno => absurd hno (Set.notMem_empty k)
  refine ⟨⟨fsyncTree_volume hname, List.nodup_nil, fun p hp => absurd hp List.not_mem_nil, fun k hk _ => ?_⟩,
    fun k hk => .of_content rfl hplaced.chain rfl rfl (fun _ _ => rfl) ⟨rfl, rfl, rfl⟩⟩
  obtain rfl := honly k hk
  exact fsyncFs_fromIno hname

theorem fsyncDriver_shows : fsyncDriver.Shows asciiCharset fsyncTree fun _ => fsyncView := by
  have hname : asciiCharset.gbkToUtf8 [0x41] = some [0x41] := rfl
  obtain ⟨hc, hview⟩ := fsyncDriver_coherent hname
  exact ⟨Nat.one_pos, fun _ => fsyncFile, hc, hview⟩

/-- A byte is written, and it is there after a restart. -/
def fsyncEvents : List Event :=
  [.call ⟨2 * 2 ^ 32, ⟨1, 33⟩, .write [0x43] 1⟩, .call ⟨2 * 2 ^ 32, ⟨1, 33⟩, .getattr⟩, .restart,
    .call ⟨2 * 2 ^ 32, ⟨2, 33⟩, .read 2 0⟩]

private theorem fsyncEvents_valid : ∀ call ∈ fsyncEvents.filterMap Event.call?, call.Valid fsyncTree := by
  have hfile : 2 * 2 ^ 32 ∈ fsyncTree.files := Set.mem_singleton _
  intro call hcall
  rcases List.mem_cons.mp hcall with rfl | hcall
  · exact ⟨.inl hfile, hfile, by decide⟩
  rcases List.mem_cons.mp hcall with rfl | hcall
  · exact ⟨.inl hfile, trivial⟩
  · obtain rfl := List.mem_singleton.mp hcall
    exact ⟨.inl hfile, hfile, by decide⟩

theorem Driver.run_refines_restart : ∃ answers s' store',
    fsyncDriver.run asciiCharset (fun _ => ⟨0, 0⟩) fsyncEvents = some (answers, s') ∧
      Store.Serves mountBpb (fun _ => ⟨0, 0⟩) (fun _ => fsyncView) (fsyncEvents.filterMap Event.call?) answers store' ∧
      s'.Shows asciiCharset fsyncTree store' := by
  have hrun : (fsyncDriver.run asciiCharset (fun _ => ⟨0, 0⟩) fsyncEvents).isSome := by decide +kernel
  obtain ⟨⟨answers, s'⟩, hrun⟩ := Option.isSome_iff_exists.mp hrun
  obtain ⟨store', hserves, hshows⟩ := Driver.run_refines asciiCharset (fun _ => ⟨0, 0⟩) fsyncTree fsyncEvents fsyncDriver s' _
    answers fsyncDriver_shows fsyncEvents_valid hrun
  exact ⟨answers, s', store', hrun, hserves, hshows⟩

end FuseFat32
