import FuseFat32.Fs.OwnSlots

/-!
# Writing metadata from anywhere in a directory

`exchangeMetaData` swaps what two objects say about their data and writes both back. Wherever the walks of `sync` and `selfDestruct` are led, even past the clusters of the directory, they keep to the data sectors as long as the number of the first sector fits into 32 bits. So they change no entry of the FAT.
-/

namespace FuseFat32

open LinkedTable

/-- The object with the data of another one. -/
def File.exchanged (f g : File) : File :=
  { f with
    fileSz_ := g.fileSz_
    fstClus := g.fstClus
    crtTime := g.crtTime
    accDate := g.accDate
    wrtTime := g.wrtTime
    clusChain_ := none }

/-- `exchangeMetaData(target)`. -/
def File.exchangeMetaData (fs : FAT32fs) (f target : File) : Exec (FAT32fs × File × File) := do
  let (fs, f') ← (f.exchanged target).sync fs true
  let (fs, target') ← (target.exchanged f).sync fs true
  return (fs, f', target')

/-- The sector of the first entry of the object, counted from the first cluster of its parent, fits into 32 bits. -/
def File.EntryReach (bpb : BPB) (f : File) : Prop :=
  getFirstSectorOfCluster bpb f.parentClus + f.fstEntryNum * kDirEntrySize / sectorSize < 2 ^ 32

instance (bpb : BPB) (f : File) : Decidable (f.EntryReach bpb) := inferInstanceAs (Decidable (_ < _))

/-- The device shows other bytes in its data sectors only. -/
structure BPB.OnlyData (bpb : BPB) (d d' : Device) : Prop where
  secCnt : d'.secCnt = d.secCnt
  value : ∀ s < getFirstDataSector bpb, d'.value s = d.value s

theorem BPB.OnlyData.refl (bpb : BPB) (d : Device) : bpb.OnlyData d d := ⟨rfl, fun _ _ => rfl⟩

theorem BPB.OnlyData.trans {bpb : BPB} {d d' d'' : Device} (h : bpb.OnlyData d d')
    (h' : bpb.OnlyData d' d'') : bpb.OnlyData d d'' :=
  ⟨h'.secCnt.trans h.secCnt, fun s hs => (h'.value s hs).trans (h.value s hs)⟩

theorem BPB.OnlyData.write {bpb : BPB} {d : Device} {sec : Nat} (h : getFirstDataSector bpb ≤ sec)
    (off : Nat) (buf : List UInt8) : bpb.OnlyData d (d.write sec off buf) :=
  ⟨rfl, fun s hs => funext fun i => d.value_write_of_ne sec off buf (by omega) i⟩

section walks

variable {bpb : BPB} {fs fs' : FAT32fs} {d d' : Device} {l : List Nat} {c c' : Cursor}

/-- The cursor does not wrap around. -/
def Cursor.Fits (bpb : BPB) (l : List Nat) (c : Cursor) : Prop :=
  ∀ clus, l[c.chainIndex]? = some clus → getFirstSectorOfCluster bpb clus + c.secIndex < 2 ^ 32

theorem Cursor.Fits.slot (hs : bpb.Sound) (hdata : ∀ x ∈ l, bpb.DataClus x) (hc : c.Fits bpb l)
    {x : Nat × Nat} (hslot : c.slot bpb d l = some x) :
    ∃ clus, l[c.chainIndex]? = some clus ∧ x.1 = getFirstSectorOfCluster bpb clus + c.secIndex ∧
      getFirstDataSector bpb ≤ x.1 ∧ x.1 < d.secCnt := by
  obtain ⟨sec, hsec, hslot⟩ := Option.bind_eq_some_iff.mp hslot
  obtain ⟨clus, hclus, hsec⟩ := Option.bind_eq_some_iff.mp hsec
  obtain ⟨v, hread, hx⟩ := Option.bind_eq_some_iff.mp hslot
  obtain rfl : (sec, c.secOff) = x := Option.some.inj hx
  obtain rfl : u32 (getFirstSectorOfCluster bpb clus + c.secIndex) = sec := Option.some.inj hsec
  obtain ⟨hlt, -⟩ := (d.readSector_eq_some _).mp hread
  have hbound := (hs.sector_bounds (hdata clus (List.mem_of_getElem? hclus)) hs.secPerClus).1
  rw [u32_of_lt (hc clus hclus)] at hlt ⊢
  exact ⟨clus, hclus, rfl, by dsimp only; omega, hlt⟩

/-- The next cursor does not wrap around either, because a device has fewer than 2^32 sectors. -/
theorem Cursor.Fits.iter (hs : bpb.Sound) (hdata : ∀ x ∈ l, bpb.DataClus x) (hcnt : d.secCnt < 2 ^ 32)
    (hc : c.Fits bpb l) {x : Nat × Nat} (hslot : c.slot bpb d l = some x) {more : Bool}
    (hiter : iterClusChainEntry bpb l c = some (more, c')) : c'.Fits bpb l := by
  obtain ⟨clus, hclus, hsec, -, hlt⟩ := hc.slot hs hdata hslot
  obtain ⟨_, hoff, -⟩ := Option.bind_eq_some_iff.mp hiter
  have hoff := of_decide_eq_true (assert_eq_some.mp hoff)
  obtain ⟨k, q, off⟩ := c
  rw [iterClusChainEntry_eq hoff] at hiter
  have hsame : ∀ clus', l[k]? = some clus' → getFirstSectorOfCluster bpb clus' + (q + 1) < 2 ^ 32 := by
    intro clus' hclus'
    obtain rfl : clus = clus' := Option.some.inj (hclus.symm.trans hclus')
    dsimp only at hsec
    omega
  split_ifs at hiter
  · obtain ⟨-, rfl⟩ := Prod.mk.inj (Option.some.inj hiter)
    intro clus' hclus'
    have hbound := (hs.sector_bounds (hdata clus' (List.mem_of_getElem? hclus')) hs.secPerClus).2
    exact hbound.trans bpb.totSec32.toNat_lt
  · obtain ⟨-, rfl⟩ := Prod.mk.inj (Option.some.inj hiter)
    exact hsame
  · obtain ⟨-, rfl⟩ := Prod.mk.inj (Option.some.inj hiter)
    exact hc

theorem Cursor.Fits.start (hs : bpb.Sound) {f : File} (hreach : f.EntryReach bpb)
    (hhead : l.headD 0 = f.parentClus) :
    (Cursor.start bpb (f.fstEntryNum * kDirEntrySize)).Fits bpb l := by
  intro clus hclus
  have hfst : l.head? = some clus := by
    rw [List.head?_eq_getElem?]
    exact hclus
  have hclus : clus = f.parentClus := by
    rw [← hhead, List.headD_eq_head?_getD, hfst, Option.getD_some]
  rw [Cursor.start, hs.bytesPerSec, hclus]
  exact hreach

private theorem File.syncLoop_data (hs : fs.bpb.Sound) (hdata : ∀ x ∈ l, fs.bpb.DataClus x)
    (hcnt : fs.device.secCnt < 2 ^ 32) {x : Nat × Nat} (fuel : Nat) : ∀ {c : Cursor},
    c.Fits fs.bpb l → File.syncLoop fs l fuel c = some x → getFirstDataSector fs.bpb ≤ x.1 := by
  induction fuel with
  | zero => exact fun _ hrun => absurd hrun (by simp [File.syncLoop])
  | succ fuel ih =>
    intro c hc hrun
    obtain ⟨y, hslot, hrun⟩ := Option.bind_eq_some_iff.mp hrun
    have hbound := (hc.slot hs hdata hslot).choose_spec.2.2.1
    split at hrun
    · obtain rfl := Option.some.inj hrun
      exact hbound
    · obtain ⟨⟨more, c'⟩, hiter, hrun⟩ := Option.bind_eq_some_iff.mp hrun
      dsimp only at hrun
      split at hrun
      · exact ih (hc.iter hs hdata hcnt hslot hiter) hrun
      · obtain rfl := Option.some.inj hrun
        exact hbound

private theorem File.destroyLoop_data (hs : bpb.Sound) (hdata : ∀ x ∈ l, bpb.DataClus x) (fuel : Nat) :
    ∀ {d : Device} {c : Cursor}, d.secCnt < 2 ^ 32 → c.Fits bpb l →
    File.destroyLoop bpb l fuel d c = some d' → bpb.OnlyData d d' := by
  induction fuel with
  | zero => exact fun _ _ hrun => absurd hrun (by simp [File.destroyLoop])
  | succ fuel ih =>
    intro d c hcnt hc hrun
    obtain ⟨y, hslot, hrun⟩ := Option.bind_eq_some_iff.mp hrun
    have hbound := (hc.slot hs hdata hslot).choose_spec.2.2.1
    have hwrite := BPB.OnlyData.write (d := d) hbound y.2 (setDirEntryEmpty (d.entry y)).bytes
    dsimp only at hrun
    split at hrun
    · obtain rfl := Option.some.inj hrun
      exact hwrite
    · obtain ⟨⟨more, c'⟩, hiter, hrun⟩ := Option.bind_eq_some_iff.mp hrun
      dsimp only at hrun
      split at hrun
      · exact hwrite.trans (ih hcnt (hc.iter hs hdata hcnt hslot hiter) hrun)
      · obtain rfl := Option.some.inj hrun
        exact hwrite

end walks

/-! ### Objects of live directories -/

section objects

variable {fs fs' : FAT32fs} {f f' g g' : File} {l lg lp : List Nat}

/-- The parent of the object has a chain, and the walks from its first entry do not wrap around. -/
structure File.Housed (fs : FAT32fs) (f : File) : Prop where
  parent : ∃ lp, fs.bpb.Chain fs.table f.parentClus lp ∧ fs.bpb.DataClus f.parentClus
  reach : f.EntryReach fs.bpb
  secCnt : fs.device.secCnt < 2 ^ 32

theorem File.Housed.chain (hm : fs.Mounted) (h : f.Housed fs) :
    ∃ lp, fs.fat.readClusChains fs.device f.parentClus = some lp ∧
      (∀ x ∈ lp, fs.bpb.DataClus x) ∧ lp.headD 0 = f.parentClus := by
  obtain ⟨lp, hchain, hdata⟩ := h.parent
  have hc : fs.bpb.ChainOf fs.table f.parentClus lp := .inr ⟨hdata, hchain⟩
  exact ⟨lp, hm.represents.readClusChains_of (hm.bpb.symm ▸ hc), hchain.data, hc.headD hm.sound⟩

theorem File.sync_eq (hdel : f.isDeleted = false) : f.sync fs true =
    (if f.ino ≠ kRootDirIno then f.syncMeta fs else some fs).bind fun fs => File.syncSectors (2 ^ 33) fs f 0 := by
  rw [File.sync, if_neg (by simp [hdel])]
  by_cases hino : f.ino = kRootDirIno
  · simp [hino]
  · simp [hino]

/-- `sync` with metadata changes bytes of data sectors and fills the cache of the object. -/
theorem File.sync_data (hm : fs.Mounted) (hf : f.Placed fs l) (hh : f.Housed fs)
    (hdel : f.isDeleted = false) (hrun : f.sync fs true = some (fs', f')) :
    ∃ d', fs' = { fs with device := d' } ∧ fs.bpb.OnlyData fs.device d' ∧ f' = f.cached l := by
  rw [File.sync_eq hdel] at hrun
  obtain ⟨fs₁, hmeta, hrest⟩ := Option.bind_eq_some_iff.mp hrun
  have hfst : ∃ d₁, fs₁ = { fs with device := d₁ } ∧ fs.bpb.OnlyData fs.device d₁ := by
    split at hmeta
    · obtain ⟨lp, hread, hdata, hhead⟩ := hh.chain hm
      rw [File.syncMeta, hread, Option.bind_eq_bind, Option.bind_some] at hmeta
      obtain ⟨x, hloop, hmeta⟩ := Option.bind_eq_some_iff.mp hmeta
      obtain rfl := Option.some.inj hmeta
      have hbound := File.syncLoop_data hm.sound hdata hh.secCnt slotFuel
        (.start hm.sound hh.reach hhead) hloop
      exact ⟨_, rfl, .write hbound _ _⟩
    · obtain rfl := Option.some.inj hmeta
      exact ⟨fs.device, rfl, .refl _ _⟩
  obtain ⟨d₁, rfl, hdata⟩ := hfst
  obtain ⟨hm', htable⟩ := hm.of_data d₁ hdata.secCnt hdata.value
  obtain ⟨d', hrun', hback⟩ := (hf.of_data htable).syncSectors hm'
  obtain ⟨rfl, rfl⟩ := Prod.mk.inj (Option.some.inj (hrun'.symm.trans hrest))
  refine ⟨d', rfl, hdata.trans ⟨hback.secCnt, fun s _ => ?_⟩, rfl⟩
  rw [hback.value]

theorem File.Housed.of_data (h : f.Housed fs) {d' : Device} (hcnt : d'.secCnt = fs.device.secCnt)
    (htable : ∀ x, fs.bpb.DataClus x → FAT32fs.table { fs with device := d' } x = fs.table x) :
    f.Housed { fs with device := d' } := by
  obtain ⟨lp, hchain, hdata⟩ := h.parent
  refine ⟨⟨lp, ⟨hchain.walk.frame fun x hx => htable x (hchain.data x hx), hchain.data⟩, hdata⟩, h.reach, ?_⟩
  change d'.secCnt < _
  rw [hcnt]
  exact h.secCnt

/-- An exchange of metadata swaps the chains and changes no entry of the FAT. -/
theorem File.exchangeMetaData_data (hm : fs.Mounted) (hf : f.Placed fs l) (hg : g.Placed fs lg)
    (hhf : f.Housed fs) (hhg : g.Housed fs) (hdelf : f.isDeleted = false) (hdelg : g.isDeleted = false)
    (hrun : f.exchangeMetaData fs g = some (fs', f', g')) :
    ∃ d', fs' = { fs with device := d' } ∧ fs.bpb.OnlyData fs.device d' ∧
      f' = (f.exchanged g).cached lg ∧ g' = (g.exchanged f).cached l := by
  obtain ⟨⟨fs₁, f₁⟩, hfst, hrun⟩ := Option.bind_eq_some_iff.mp hrun
  obtain ⟨⟨fs₂, g₁⟩, hsnd, hrun⟩ := Option.bind_eq_some_iff.mp hrun
  obtain ⟨rfl, rfl, rfl⟩ : fs₂ = fs' ∧ f₁ = f' ∧ g₁ = g' := by simpa using hrun
  have hf₁ : (f.exchanged g).Placed fs lg := ⟨hg.chain, .inl rfl⟩
  obtain ⟨d₁, rfl, hdata₁, rfl⟩ := File.sync_data hm hf₁ ⟨hhf.parent, hhf.reach, hhf.secCnt⟩ hdelf hfst
  obtain ⟨hm₁, htable₁⟩ := hm.of_data d₁ hdata₁.secCnt hdata₁.value
  have hg₁ : (g.exchanged f).Placed fs l := ⟨hf.chain, .inl rfl⟩
  have hhg₁ : (g.exchanged f).Housed fs := ⟨hhg.parent, hhg.reach, hhg.secCnt⟩
  obtain ⟨d', rfl, hdata, rfl⟩ := File.sync_data hm₁ (hg₁.of_data htable₁)
    (hhg₁.of_data hdata₁.secCnt htable₁) hdelg hsnd
  exact ⟨d', rfl, hdata₁.trans hdata, rfl, rfl⟩

/-- `selfDestruct` of an undeleted object that is not the root frees its chain, and changes no other entry of the FAT. -/
theorem File.selfDestruct_frees (hm : fs.Mounted) (hf : f.Placed fs l) (hh : f.Housed fs)
    (hdel : f.isDeleted = false) (hrun : f.selfDestruct fs = some (fs', f')) :
    f' = { f with isDeleted := true } ∧ fs'.bpb = fs.bpb ∧ fs'.fat = fs.fat.incTimes l.length ∧
      fs'.device.secCnt = fs.device.secCnt ∧ fs'.Mounted ∧
      ∀ x, fs.bpb.DataClus x → fs'.table x = if x ∈ l then 0 else fs.table x := by
  have hino : f.ino ≠ kRootDirIno := by
    obtain ⟨-, -, hdata⟩ := hh.parent
    have := hdata.1
    rw [File.ino, kRootDirIno]
    omega
  obtain ⟨lp, hread, hdata, hhead⟩ := hh.chain hm
  rw [File.selfDestruct, if_neg (by simp [hdel, hino]), hread, Option.bind_eq_bind, Option.bind_some] at hrun
  obtain ⟨d₁, hloop, hrun⟩ := Option.bind_eq_some_iff.mp hrun
  have honly := File.destroyLoop_data hm.sound hdata slotFuel hh.secCnt
    (.start hm.sound hh.reach hhead) hloop
  obtain ⟨hm₁, htable₁⟩ := hm.of_data d₁ honly.secCnt honly.value
  obtain ⟨d', hfree, honly', h'⟩ := hm₁.represents.freeClus_of (hm₁.bpb.symm ▸ (hf.of_data htable₁).chain)
  obtain ⟨⟨fat', d''⟩, hfree', hrun⟩ := Option.bind_eq_some_iff.mp hrun
  obtain ⟨rfl, rfl⟩ := Prod.mk.inj (Option.some.inj (hfree.symm.trans hfree'))
  obtain ⟨rfl, rfl⟩ := Prod.mk.inj (Option.some.inj hrun)
  have h'' : (fs.fat.incTimes l.length).Represents d' (fill (FAT32fs.table { fs with device := d₁ }) 0 l) := by
    simpa using h'
  refine ⟨rfl, rfl, rfl, ?_, ⟨h''.wellFormed, by simpa using hm.bpb⟩, fun x hx => ?_⟩
  · exact honly'.secCnt.trans honly.secCnt
  · have hentry := h''.entry x (by simpa [hm.bpb] using hx.2)
    rw [← htable₁ x hx]
    exact hentry

end objects

end FuseFat32
