import FuseFat32.Fs.DirScan
import FuseFat32.Fs.Truncate

/-!
# Changing a directory

A directory changes in two ways: its chain is resized by `truncate`, and single entries are written. Neither changes the chain of another file or a byte of a cluster outside the directory. A resized directory keeps the entries that still fit, and the entries of new clusters are zero.
-/

namespace FuseFat32

open LinkedTable Layout Segments

/-- The first object has become the second by working on the directory: its times and its cache may differ. -/
def File.Worked (f g : File) : Prop :=
  g = { f with accDate := g.accDate, wrtTime := g.wrtTime, clusChain_ := g.clusChain_ }

/-- What work on the directory `dir` with chain `l` leaves alone. -/
structure FAT32fs.DirStep (fs : FAT32fs) (heads : Set Nat) (dir : File) (l : List Nat) (fs' : FAT32fs)
    (dir' : File) (l' : List Nat) : Prop where
  bpb : fs'.bpb = fs.bpb
  worked : dir.Worked dir'
  sane : fs'.Sane heads
  placed : dir'.Placed fs' l'
  others : ∀ other ∈ heads, other ≠ dir.fstClus → ∀ l₂, Walk fs.table Eoc other l₂ →
    ∀ x ∈ l₂, fs'.table x = fs.table x
  free : ∀ x, fs.bpb.DataClus x → x ∉ l → x ∉ l' → (fs'.table x = 0 ↔ fs.table x = 0)
  data : ∀ x, fs.bpb.DataClus x → x ∉ l → x ∉ l' → ∀ j < fs.bpb.secPerClus.toNat,
    fs'.device.value (getFirstSectorOfCluster fs.bpb x + j) =
      fs.device.value (getFirstSectorOfCluster fs.bpb x + j)

theorem File.Worked.trans {f g h : File} (hfg : f.Worked g) (hgh : g.Worked h) : f.Worked h := by
  unfold File.Worked at hfg hgh ⊢
  rw [hgh, hfg]

theorem File.Same.worked {f g : File} (h : f.Same g) : f.Worked g := by
  unfold File.Same at h
  unfold File.Worked
  rw [h]

section step

variable {fs fs' fs₁ : FAT32fs} {heads : Set Nat} {dir dir' dir₁ : File} {l l' l₁ : List Nat} {n : Nat}
  {ok : Bool} {e : LongDirEntry} {now : FatTimeStamp}

theorem File.Worked.fstClus (h : dir.Worked dir') : dir'.fstClus = dir.fstClus := by rw [h]

theorem File.Worked.isDir (h : dir.Worked dir') : dir'.isDir = dir.isDir := by rw [h]

theorem FAT32fs.DirStep.of_same (hs : fs.Sane heads) (hsame : dir.Same dir') (hf : dir'.Placed fs l) :
    fs.DirStep heads dir l fs dir' l :=
  ⟨rfl, hsame.worked, hs, hf, fun _ _ _ _ _ _ _ => rfl, fun _ _ _ _ => Iff.rfl, fun _ _ _ _ _ _ => rfl⟩

theorem FAT32fs.DirStep.trans (h : fs.DirStep heads dir l fs₁ dir₁ l₁)
    (h' : fs₁.DirStep heads dir₁ l₁ fs' dir' l') (hbetween : ∀ x ∈ l₁, x ∈ l ∨ x ∈ l') :
    fs.DirStep heads dir l fs' dir' l' := by
  have hfst := h.worked.fstClus
  have hout : ∀ {x}, x ∉ l → x ∉ l' → x ∉ l₁ := fun hl hl' hx => (hbetween _ hx).elim hl hl'
  refine ⟨h'.bpb.trans h.bpb, h.worked.trans h'.worked, h'.sane, h'.placed,
    fun other hother hne l₂ hw x hx => ?_, fun x hx hl hl' => ?_, fun x hx hl hl' j hj => ?_⟩
  · have hsame := h.others other hother hne l₂ hw
    rw [h'.others other hother (hfst ▸ hne) l₂ (hw.frame hsame) x hx, hsame x hx]
  · rw [h'.free x (h.bpb.symm ▸ hx) (hout hl hl') hl', h.free x hx hl (hout hl hl')]
  · have := h'.data x (h.bpb.symm ▸ hx) (hout hl hl') hl' j (h.bpb.symm ▸ hj)
    rw [h.bpb] at this
    rw [this, h.data x hx hl (hout hl hl') j hj]

/-! ### Entries and their clusters -/

theorem BPB.Sound.slotsPerClus_pos {bpb : BPB} (hs : bpb.Sound) : 0 < bpb.slotsPerClus := by
  rw [hs.slotsPerClus_eq]
  exact Nat.mul_pos hs.secPerClus (by decide)

theorem BPB.Sound.bytesPerClus_eq_slots {bpb : BPB} (hs : bpb.Sound) :
    bytesPerClus bpb = kDirEntrySize * bpb.slotsPerClus := by
  rw [hs.bytesPerClus_eq, hs.slotsPerClus_eq]
  simp only [sectorSize, kDirEntrySize]
  omega

theorem BPB.Sound.dirSlots_eq {bpb : BPB} (hs : bpb.Sound) (hcap : l.length * bytesPerClus bpb < 2 ^ 32) :
    bpb.dirSlots l = l.length * bpb.slotsPerClus := by
  have hmul := hs.dirSlots_mul l
  rw [u32_of_lt hcap, hs.bytesPerClus_eq_slots, Nat.mul_left_comm] at hmul
  exact Nat.eq_of_mul_eq_mul_left (by decide) hmul

theorem BPB.Sound.slot_eq {bpb : BPB} (hs : bpb.Sound) {k : Nat} (hk : k < l.length * bpb.slotsPerClus) :
    ∃ (hlt : k / bpb.slotsPerClus < l.length) (j : Nat), j < bpb.secPerClus.toNat ∧
      j = kDirEntrySize * k / sectorSize % bpb.secPerClus.toNat ∧
      bpb.slot l k = (getFirstSectorOfCluster bpb (l[k / bpb.slotsPerClus]) + j, kDirEntrySize * k % sectorSize) := by
  have hpos : kDirEntrySize * k < l.length * bytesPerClus bpb := by
    rw [hs.bytesPerClus_eq_slots, Nat.mul_left_comm]
    exact Nat.mul_lt_mul_of_pos_left hk (by decide)
  obtain ⟨hlt, heq⟩ := BPB.chainSector_eq (hs.sector_lt_of_pos hpos)
  have hclus := hs.slot_clus k
  refine ⟨hclus ▸ hlt, _, Nat.mod_lt _ hs.secPerClus, rfl, ?_⟩
  rw [BPB.slot, BPB.chainLoc, heq]
  simp only [hclus]

theorem FAT32fs.entryAt_congr (hs : fs.bpb.Sound) (hbpb : fs'.bpb = fs.bpb) {k : Nat}
    (hk : k < l.length * fs.bpb.slotsPerClus) (hk' : k < l'.length * fs.bpb.slotsPerClus)
    (hsame : l'.getD (k / fs.bpb.slotsPerClus) 0 = l.getD (k / fs.bpb.slotsPerClus) 0)
    (hval : ∀ j < fs.bpb.secPerClus.toNat,
      fs'.device.value (getFirstSectorOfCluster fs.bpb (l.getD (k / fs.bpb.slotsPerClus) 0) + j) =
        fs.device.value (getFirstSectorOfCluster fs.bpb (l.getD (k / fs.bpb.slotsPerClus) 0) + j)) :
    fs'.entryAt l' k = fs.entryAt l k := by
  obtain ⟨hlt, j, hj, hjeq, hslot⟩ := hs.slot_eq hk
  obtain ⟨hlt', j', -, hjeq', hslot'⟩ := hs.slot_eq hk'
  obtain rfl : j' = j := hjeq'.trans hjeq.symm
  rw [List.getD_eq_getElem _ _ hlt, List.getD_eq_getElem _ _ hlt'] at hsame
  rw [List.getD_eq_getElem _ _ hlt] at hval
  rw [FAT32fs.entryAt, FAT32fs.entryAt, hbpb, hslot, hslot', hsame]
  exact Device.entry_congr (hval _ hj)

/-! ### Resizing a directory -/

/-- The entries of a resized directory: the old ones as far as they fit, and then zeros. -/
def resizedEntries (es : List LongDirEntry) (n : Nat) : List LongDirEntry :=
  es.take n ++ List.replicate (n - es.length) (.ofBytes fun _ => 0)

@[simp] theorem length_resizedEntries (es : List LongDirEntry) (n : Nat) :
    (resizedEntries es n).length = n := by
  simp only [resizedEntries, List.length_append, List.length_take, List.length_replicate]
  omega

theorem File.TruncatedTo.fstClus {length : Nat} (hs : fs.Sane heads) (hf : dir.Placed fs l)
    (hne : l ≠ []) (hpos : length ≠ 0) (ht : dir.TruncatedTo fs heads l length fs' dir') :
    dir'.fstClus = dir.fstClus := by
  have hfst := ht.resized.fst
  have hhead := hf.chain.headD hs.sound
  have hnum : fs.bpb.clusFor length ≠ 0 := fun h => hpos (BPB.clusFor_eq_zero.mp h)
  rw [hfst, ← hhead]
  obtain ⟨a, l, rfl⟩ := List.exists_cons_of_ne_nil hne
  obtain ⟨k, hk⟩ := Nat.exists_eq_succ_of_ne_zero hnum
  rw [hk, FAT.chainAfter]
  split <;> rfl

/-- A directory that has been resized shows the entries it is to show. -/
theorem File.TruncatedTo.dirStep {length : Nat} (hs : fs.Sane heads) (hhead : dir.fstClus ∈ heads)
    (hf : dir.Placed fs l) (hdir : dir.isDir = true) (hpos : length ≠ 0)
    (ht : dir.TruncatedTo fs heads l length fs' dir') :
    fs.DirStep heads dir l fs' dir' (fs.chainAfter l length) := by
  have hne : l ≠ [] := by
    rintro rfl
    have := hf.chain.headD hs.sound
    exact zero_notMem_heads hs.owners (by rw [← this] at hhead; exact hhead)
  have hfst := ht.fstClus hs hf hne hpos
  have hheads := hs.headsAfter_self (.inr hhead) hfst
  have hnew : ∀ x ∈ (fs.chainAfter l length).drop l.length, fs.bpb.DataClus x :=
    fun x hx => hs.bpb ▸ (ht.resized.fresh x hx).1
  have htouch := ht.resized.touches
  rw [hs.bpb] at htouch
  refine ⟨ht.bpb, ?_, hheads ▸ ht.sane, ht.placed, ht.others, fun x hx hl hl' => ?_, fun x hx hl hl' j hj => ?_⟩
  · rw [File.Worked, ht.file, hfst, hdir]
    rfl
  · have htable : fs'.table x = fs.fat.tableAfter fs.table l (fs.bpb.clusFor length) x := by
      refine ht.resized.table.entry x ?_
      rw [ht.resized.bpb, hs.bpb]
      exact hx.2
    rw [htable]
    by_cases hnum : fs.bpb.clusFor length ≤ l.length
    · rw [FAT.tableAfter_cut hnum, cutTable_of_notMem hl hnum]
    · have hnum := Nat.not_le.mp hnum
      rw [FAT.tableAfter_grow hnum, growTable_of_notMem]
      rwa [← FAT.chainAfter_grow hnum]
  · exact htouch.cluster hs.sound hnew hx (fun hmem => hl' (List.mem_of_mem_drop hmem)) hj

theorem FAT32fs.getElem?_chainAfter {length i : Nat} (hi : i < l.length) (hi' : i < (fs.chainAfter l length).length) :
    (fs.chainAfter l length).getD i 0 = l.getD i 0 := by
  rw [List.getD_eq_getElem _ _ hi, List.getD_eq_getElem _ _ hi']
  by_cases hnum : fs.bpb.clusFor length ≤ l.length
  · simp only [FAT32fs.chainAfter, FAT.chainAfter_cut hnum, List.getElem_take]
  · simp only [FAT32fs.chainAfter, FAT.chainAfter_grow (Nat.not_le.mp hnum), List.getElem_append_left hi]

private theorem File.TruncatedTo.notMem_drop {length x : Nat} (ht : dir.TruncatedTo fs heads l length fs' dir')
    (hf : dir.Placed fs l) (hx : x ∈ l) : x ∉ (fs.chainAfter l length).drop l.length :=
  fun hmem => hf.chain.used x hx (ht.resized.fresh x hmem).2

theorem File.TruncatedTo.entries {length : Nat} (hs : fs.Sane heads) (hf : dir.Placed fs l)
    (hdir : dir.isDir = true) (hcap : l.length * bytesPerClus fs.bpb < 2 ^ 32)
    (hcap' : fs.bpb.clusFor length * bytesPerClus fs.bpb < 2 ^ 32)
    (ht : dir.TruncatedTo fs heads l length fs' dir') : fs'.dirEntries (fs.chainAfter l length) =
      resizedEntries (fs.dirEntries l) (fs.bpb.clusFor length * fs.bpb.slotsPerClus) := by
  have hsound := hs.sound
  have hlen : (fs.chainAfter l length).length = fs.bpb.clusFor length := ht.resized.length
  have hslots : fs.bpb.dirSlots (fs.chainAfter l length) = fs.bpb.clusFor length * fs.bpb.slotsPerClus := by
    rw [hsound.dirSlots_eq (by rw [hlen]; exact hcap'), hlen]
  have hnew : ∀ x ∈ (fs.chainAfter l length).drop l.length, fs.bpb.DataClus x :=
    fun x hx => hs.bpb ▸ (ht.resized.fresh x hx).1
  have htouch := ht.resized.touches
  have hclear := ht.resized.cleared hdir
  rw [hs.bpb] at htouch hclear
  apply List.ext_getElem?
  intro k
  by_cases hk : k < fs.bpb.clusFor length * fs.bpb.slotsPerClus
  · have hin : (fs'.dirEntries (fs.chainAfter l length))[k]? = some (fs'.entryAt (fs.chainAfter l length) k) :=
      FAT32fs.getElem?_dirEntries (by rw [ht.bpb, hslots]; exact hk)
    have hkl' : k < (fs.chainAfter l length).length * fs.bpb.slotsPerClus := hlen ▸ hk
    obtain ⟨hlt', j, hj, -, hslot'⟩ := hsound.slot_eq hkl'
    rw [hin, resizedEntries]
    by_cases hold : k < l.length * fs.bpb.slotsPerClus
    · obtain ⟨hlt, -⟩ := hsound.slot_eq hold
      have hsame := FAT32fs.getElem?_chainAfter hlt hlt'
      have hval := fun j hj => htouch.cluster hsound hnew (hf.chain.data _ (List.getElem_mem hlt))
        (fun hmem => ht.notMem_drop hf (List.getElem_mem hlt) hmem) (j := j) hj
      rw [FAT32fs.entryAt_congr hsound ht.bpb hold hkl' hsame (by
        rw [List.getD_eq_getElem _ _ hlt]
        exact hval), List.getElem?_append_left, List.getElem?_take_of_lt hk,
        FAT32fs.getElem?_dirEntries (by rw [hsound.dirSlots_eq hcap]; exact hold)]
      rw [List.length_take, FAT32fs.length_dirEntries, hsound.dirSlots_eq hcap]
      exact lt_min hk hold
    · have hout := Nat.not_lt.mp hold
      have hdrop : (fs.chainAfter l length)[k / fs.bpb.slotsPerClus] ∈ (fs.chainAfter l length).drop l.length := by
        refine List.mem_drop_iff_getElem.mpr ⟨k / fs.bpb.slotsPerClus - l.length, ?_, ?_⟩
        · have := (Nat.le_div_iff_mul_le hsound.slotsPerClus_pos).mpr hout
          omega
        · have := (Nat.le_div_iff_mul_le hsound.slotsPerClus_pos).mpr hout
          simp only [Nat.add_sub_cancel' this]
      have hzero : fs'.entryAt (fs.chainAfter l length) k = .ofBytes fun _ => 0 := by
        rw [FAT32fs.entryAt, ht.bpb, hslot', Device.entry]
        refine LongDirEntry.ofBytes_eq ?_
        rw [LongDirEntry.bytes_ofBytes]
        refine List.map_congr_left fun i hi => ?_
        have hi := List.mem_range.mp hi
        refine hclear _ hdrop j hj _ ?_
        simp only [kDirEntrySize, sectorSize] at hi ⊢
        omega
      have hle : (fs.dirEntries l).length ≤ k := by
        rw [FAT32fs.length_dirEntries, hsound.dirSlots_eq hcap]
        exact hout
      rw [hzero, List.getElem?_append_right ((List.length_take_le' _ _).trans hle), List.getElem?_replicate,
        if_pos]
      rw [List.length_take]
      omega
  · rw [List.getElem?_eq_none, List.getElem?_eq_none]
    · rw [length_resizedEntries]
      omega
    · rw [FAT32fs.length_dirEntries, ht.bpb, hslots]
      omega

/-- A directory that is cut behind one of its entries keeps that entry and all in front of it. -/
theorem File.truncate_dir_cut (hs : fs.Sane heads) (hhead : dir.fstClus ∈ heads) (hf : dir.Placed fs l)
    (hdir : dir.isDir = true) (hcap : l.length * bytesPerClus fs.bpb < 2 ^ 32) (hn : n < fs.bpb.dirSlots l)
    (hrun : dir.truncate fs (u32 ((n + 1) * kDirEntrySize)) = some (ok, fs', dir')) :
    ∃ l', fs.DirStep heads dir l fs' dir' l' ∧ l' <+: l ∧ n < fs.bpb.dirSlots l' ∧
      fs'.dirEntries l' = (fs.dirEntries l).take (fs.bpb.dirSlots l') := by
  have hmul := hs.sound.dirSlots_mul l
  rw [u32_of_lt hcap] at hmul
  have hend : (n + 1) * kDirEntrySize ≤ l.length * bytesPerClus fs.bpb := by
    rw [← hmul, Nat.mul_comm]
    exact Nat.mul_le_mul_left _ hn
  have hnum := BPB.clusFor_le hend
  rw [u32_of_lt (Nat.lt_of_le_of_lt hend hcap)] at hrun
  obtain ⟨-, ht⟩ := (File.truncate_some hs (.inr hhead) hf.chain (fun h => absurd h (by omega)) hrun).resolve_right
    fun h => absurd h.2.1 (by omega)
  have hpos : (n + 1) * kDirEntrySize ≠ 0 := Nat.mul_ne_zero (Nat.succ_ne_zero n) (by decide)
  have hcap' : fs.bpb.clusFor ((n + 1) * kDirEntrySize) * bytesPerClus fs.bpb < 2 ^ 32 :=
    Nat.lt_of_le_of_lt (Nat.mul_le_mul_right _ hnum) hcap
  have hchain : fs.chainAfter l ((n + 1) * kDirEntrySize) = l.take (fs.bpb.clusFor ((n + 1) * kDirEntrySize)) := by
    rw [FAT32fs.chainAfter, FAT.chainAfter_cut hnum]
  have hlen : (fs.chainAfter l ((n + 1) * kDirEntrySize)).length = fs.bpb.clusFor ((n + 1) * kDirEntrySize) :=
    ht.resized.length
  have hslots : fs.bpb.dirSlots (fs.chainAfter l ((n + 1) * kDirEntrySize)) =
      fs.bpb.clusFor ((n + 1) * kDirEntrySize) * fs.bpb.slotsPerClus := by
    rw [hs.sound.dirSlots_eq (by rwa [hlen]), hlen]
  refine ⟨_, ht.dirStep hs hhead hf hdir hpos, ?_, ?_, ?_⟩
  · rw [hchain]
    exact List.take_prefix _ _
  · have hle := hs.sound.le_clusFor ((n + 1) * kDirEntrySize)
    rw [hslots]
    generalize fs.bpb.clusFor ((n + 1) * kDirEntrySize) = num at hle
    rw [hs.sound.bytesPerClus_eq_slots, Nat.mul_left_comm, Nat.mul_comm (n + 1)] at hle
    exact Nat.le_of_mul_le_mul_left hle (show 0 < kDirEntrySize by decide)
  · have hmore : fs.bpb.clusFor ((n + 1) * kDirEntrySize) * fs.bpb.slotsPerClus ≤ (fs.dirEntries l).length := by
      rw [FAT32fs.length_dirEntries, hs.sound.dirSlots_eq hcap]
      exact Nat.mul_le_mul_right _ hnum
    rw [ht.entries hs hf hdir hcap hcap', hslots, resizedEntries, Nat.sub_eq_zero_of_le hmore, List.replicate_zero,
      List.append_nil]

/-! ### Writing entries -/

theorem BPB.Sound.clusFor_mul {bpb : BPB} (hs : bpb.Sound) (n : Nat) : bpb.clusFor (n * bytesPerClus bpb) = n := by
  have hle := hs.le_clusFor (n * bytesPerClus bpb)
  exact Nat.le_antisymm (BPB.clusFor_le le_rfl) (Nat.le_of_mul_le_mul_right hle hs.bytesPerClus_pos)

private theorem resizedEntries_length (es : List LongDirEntry) : resizedEntries es es.length = es := by
  simp [resizedEntries]

theorem FAT32fs.chainAfter_self (hs : fs.bpb.Sound) (l : List Nat) :
    fs.chainAfter l (l.length * bytesPerClus fs.bpb) = l := by
  rw [FAT32fs.chainAfter, hs.clusFor_mul, FAT.chainAfter_cut le_rfl, List.take_length]

/-- A write inside a directory may set the mark at the end of its chain again. -/
theorem File.expand_dir {end_ : Nat} (hs : fs.Sane heads) (hhead : dir.fstClus ∈ heads)
    (hf : dir.Placed fs l) (hdir : dir.isDir = true) (hcap : l.length * bytesPerClus fs.bpb < 2 ^ 32)
    (hpos : end_ ≠ 0) (hend : end_ ≤ l.length * bytesPerClus fs.bpb)
    (hrun : dir.expand fs end_ = some (ok, fs₁, dir₁)) :
    ok = true ∧ fs.DirStep heads dir l fs₁ dir₁ l ∧ fs₁.dirEntries l = fs.dirEntries l := by
  obtain ⟨⟨g, hsz, hsame, hg⟩, -⟩ := hf.sized_dir hs.toMounted hdir
  rw [u32_of_lt hcap] at hsz
  have hexpand : dir.expand fs end_ = if end_ ≥ l.length * bytesPerClus fs.bpb then g.truncate fs end_
      else some (true, fs, g) := by
    rw [File.expand, hsz]
    rfl
  have hread := FAT32fs.DirStep.of_same hs hsame hg
  rw [hexpand] at hrun
  split at hrun
  · next hge =>
    obtain rfl := Nat.le_antisymm hend hge
    have hnum := hs.sound.clusFor_mul l.length
    have hgdir : g.isDir = true := hread.worked.isDir.trans hdir
    have hghead : g.fstClus ∈ heads := hread.worked.fstClus ▸ hhead
    rcases File.truncate_some hs (.inr hghead) hg.chain (fun h => absurd h (by omega)) hrun with
      ⟨hok, ht⟩ | ⟨-, hmore, -⟩
    · have hchain : fs.chainAfter l (l.length * bytesPerClus fs.bpb) = l := FAT32fs.chainAfter_self hs.sound l
      have hstep := ht.dirStep hs hghead hg hgdir hpos
      have hent := ht.entries hs hg hgdir hcap (by rwa [hnum])
      rw [hchain] at hstep hent
      refine ⟨hok, hread.trans hstep fun x hx => .inl hx, ?_⟩
      rw [hent, hnum, ← hs.sound.dirSlots_eq hcap, ← FAT32fs.length_dirEntries, resizedEntries_length]
    · omega
  · obtain ⟨rfl, rfl, rfl⟩ : true = ok ∧ fs = fs₁ ∧ g = dir₁ := by simpa using hrun
    exact ⟨rfl, hread, rfl⟩

theorem BPB.chainLoc_slot (bpb : BPB) (l : List Nat) (n : Nat) {k : Nat} (hk : k < kDirEntrySize) :
    bpb.chainLoc l (kDirEntrySize * n + k) = ((bpb.slot l n).1, (bpb.slot l n).2 + k) := by
  have hdiv : (kDirEntrySize * n + k) / sectorSize = kDirEntrySize * n / sectorSize := by
    simp only [kDirEntrySize, sectorSize] at hk ⊢
    omega
  have hmod : (kDirEntrySize * n + k) % sectorSize = kDirEntrySize * n % sectorSize + k := by
    simp only [kDirEntrySize, sectorSize] at hk ⊢
    omega
  rw [BPB.slot, BPB.chainLoc, BPB.chainLoc, hdiv, hmod]

theorem BPB.stores_entry {bpb : BPB} {d d' : Device} (hentry : d'.entry (bpb.slot l n) = e)
    (hkept : ∀ s i, (∀ k < kDirEntrySize, (s, i) ≠ ((bpb.slot l n).1, (bpb.slot l n).2 + k)) →
      d'.value s i = d.value s i) :
    Stores (bpb.chainLoc l) d.byte d'.byte (kDirEntrySize * n) e.bytes := by
  refine ⟨fun k hk => ?_, fun x hx => ?_⟩
  · rw [e.length_bytes] at hk
    rw [bpb.chainLoc_slot l n hk, ← hentry, Device.entry, LongDirEntry.bytes_ofBytes]
    simp [hk, Device.bytesAt, Device.byte]
  · refine hkept x.1 x.2 fun k hk heq => ?_
    rw [e.length_bytes] at hx
    exact hx k hk ((bpb.chainLoc_slot l n hk).trans heq.symm)

theorem File.Placed.stored_entry (hs : fs.Sane heads) (hf : dir.Placed fs l)
    (hcap : l.length * bytesPerClus fs.bpb < 2 ^ 32) (hn : n < fs.bpb.dirSlots l) {d' : Device}
    (hcnt : d'.secCnt = fs.device.secCnt)
    (hst : Stores (fs.bpb.chainLoc l) fs.device.byte d'.byte (kDirEntrySize * n) e.bytes) :
    fs.DirStep heads dir l { fs with device := d' } dir l ∧
      FAT32fs.dirEntries { fs with device := d' } l = (fs.dirEntries l).set n e := by
  have hsound := hs.sound
  have hmul := hsound.dirSlots_mul l
  rw [u32_of_lt hcap] at hmul
  have hle : ∀ {k : Nat}, k < fs.bpb.dirSlots l → kDirEntrySize * k + kDirEntrySize ≤
      l.length * bytesPerClus fs.bpb := fun {k} hk => by
    rw [← hmul, ← Nat.mul_succ]
    exact Nat.mul_le_mul_left _ hk
  have hend : kDirEntrySize * n + e.bytes.length ≤ l.length * bytesPerClus fs.bpb := by
    rw [e.length_bytes]
    exact hle hn
  have hinj := BPB.chainLoc_injOn hsound hf.chain.data hf.chain.nodup
  -- the entry lies behind the FAT
  obtain ⟨hs', htable⟩ := hs.of_data d' hcnt fun s hlow => funext fun i => by
    refine hst.outside (s, i) fun k hk heq => ?_
    have hbound := BPB.chainSector_bounds hsound hf.chain.data
      (hsound.sector_lt_of_pos (show kDirEntrySize * n + k < l.length * bytesPerClus fs.bpb by omega))
    have hsec := congrArg Prod.fst heq
    change fs.bpb.chainSector l ((kDirEntrySize * n + k) / sectorSize) = s at hsec
    omega
  refine ⟨⟨rfl, rfl, hs', hf.of_data htable,
    fun other hother _ l₂ hw x hx => htable x ?_, fun x hx _ _ => by rw [htable x hx],
    fun x hx hl _ j hj => stores_keeps_cluster hsound hf.chain.data hst hend hx hl hj⟩, ?_⟩
  · rw [← hs.bpb]
    exact hs.owners.good_of_mem hother hw hx
  · apply List.ext_getElem?
    intro k
    by_cases hk : k < fs.bpb.dirSlots l
    · have hat : (FAT32fs.dirEntries { fs with device := d' } l)[k]? = some (FAT32fs.entryAt { fs with device := d' } l k) :=
        FAT32fs.getElem?_dirEntries hk
      rw [hat]
      by_cases hkn : n = k
      · subst hkn
        have hload := hst.load_eq
        rw [e.length_bytes] at hload
        rw [List.getElem?_set_self (by simpa using hk), FAT32fs.entryAt_eq, hload]
        exact congrArg some (LongDirEntry.ofBytes_eq (by rw [map_range_getD _ _ e.length_bytes]))
      · rw [List.getElem?_set_ne hkn, FAT32fs.getElem?_dirEntries hk, FAT32fs.entryAt_eq, FAT32fs.entryAt_eq]
        have hload : load (fs.bpb.chainLoc l) d'.byte (kDirEntrySize * k) kDirEntrySize =
            load (fs.bpb.chainLoc l) fs.device.byte (kDirEntrySize * k) kDirEntrySize :=
          load_congr fun j hj => hst.keeps hinj hend (Nat.lt_of_lt_of_le (Nat.add_lt_add_left hj _) (hle hk))
            (by rw [e.length_bytes]; simp only [kDirEntrySize] at hj ⊢; omega)
        rw [hload]
    · rw [List.getElem?_eq_none (by simpa using Nat.not_lt.mp hk), List.getElem?_eq_none (by
        simpa using Nat.not_lt.mp hk)]

private theorem File.Placed.overwrite_entry (hs : fs.Sane heads) (hf : dir.Placed fs l)
    (hcap : l.length * bytesPerClus fs.bpb < 2 ^ 32) (hn : n < fs.bpb.dirSlots l) (e : LongDirEntry) :
    ∃ d', dir.overwrite fs e.bytes (kDirEntrySize * n) =
        some (kDirEntrySize, { fs with device := d' }, dir.cached l) ∧
      fs.DirStep heads dir l { fs with device := d' } (dir.cached l) l ∧
      FAT32fs.dirEntries { fs with device := d' } l = (fs.dirEntries l).set n e := by
  have hmul := hs.sound.dirSlots_mul l
  rw [u32_of_lt hcap] at hmul
  have hend : kDirEntrySize * n + e.bytes.length ≤ l.length * bytesPerClus fs.bpb := by
    rw [e.length_bytes, ← hmul, ← Nat.mul_succ]
    exact Nat.mul_le_mul_left _ hn
  have hlt : kDirEntrySize * n < l.length * bytesPerClus fs.bpb := by
    rw [← hmul]
    exact Nat.mul_lt_mul_of_pos_left hn (show 0 < kDirEntrySize by decide)
  obtain ⟨d', hrun, hcnt, -, hst⟩ := hf.overwrite hs.toMounted e.bytes hlt hend
  obtain ⟨hstep, hent⟩ := hf.stored_entry hs hcap hn hcnt hst
  exact ⟨d', by rw [hrun, e.length_bytes],
    hstep.trans (.of_same hstep.sane (dir.same_cached l) hstep.placed.cached) fun x hx => .inl hx, hent⟩

/-- `writeDirEntry` inside a directory changes just the entry. -/
theorem File.writeDirEntry_some (hs : fs.Sane heads) (hhead : dir.fstClus ∈ heads) (hf : dir.Placed fs l)
    (hdir : dir.isDir = true) (hcap : l.length * bytesPerClus fs.bpb < 2 ^ 32) (hn : n < fs.bpb.dirSlots l)
    (hrun : dir.writeDirEntry fs n e now = some (ok, fs', dir')) :
    ok = true ∧ fs.DirStep heads dir l fs' dir' l ∧ fs'.dirEntries l = (fs.dirEntries l).set n e := by
  have hmul := hs.sound.dirSlots_mul l
  rw [u32_of_lt hcap] at hmul
  have hend : kDirEntrySize * n + kDirEntrySize ≤ l.length * bytesPerClus fs.bpb := by
    rw [← hmul, ← Nat.mul_succ]
    exact Nat.mul_le_mul_left _ hn
  have hpos : kDirEntrySize * n + kDirEntrySize ≠ 0 := by simp only [kDirEntrySize]; omega
  obtain ⟨⟨cnt, fs₂, dir₂⟩, hwrite, hrest⟩ := Option.bind_eq_some_iff.mp hrun
  rw [File.write, hs.sound.bytesPerSec, show decide (sectorSize ≠ 0) = true by decide, assert_true,
    e.length_bytes, u32_of_lt (show kDirEntrySize * n < 2 ^ 32 by omega), u32_of_lt (by omega)] at hwrite
  obtain ⟨-, -, hwrite⟩ := Option.bind_eq_some_iff.mp hwrite
  obtain ⟨⟨ok₁, fs₁, dir₁⟩, hexpand, hwrite⟩ := Option.bind_eq_some_iff.mp hwrite
  obtain ⟨rfl, hstep, hent⟩ := File.expand_dir hs hhead hf hdir hcap hpos hend hexpand
  have hbpb := hstep.bpb
  obtain ⟨d', hover, hstep', hent'⟩ := hstep.placed.overwrite_entry hstep.sane (by rwa [hbpb])
    (show n < fs₁.bpb.dirSlots l by rwa [hbpb]) e
  simp only [Bool.not_true, Bool.false_eq_true, if_false, hover, Option.bind_eq_bind, Option.bind_some,
    Option.pure_def, Option.some.injEq, Prod.mk.injEq] at hwrite hrest
  obtain ⟨rfl, rfl, rfl⟩ := hwrite
  obtain ⟨rfl, rfl, rfl⟩ := hrest
  have hall := hstep.trans hstep' fun x hx => .inl hx
  refine ⟨by simp, ⟨hall.bpb, hall.worked.trans rfl, hall.sane, ⟨hall.placed.chain, hall.placed.cache⟩, hall.others,
    hall.free, hall.data⟩, ?_⟩
  rw [hent', hent]

theorem File.writeDirEntries_some : ∀ {writes : List (Nat × LongDirEntry)} {fs : FAT32fs} {dir : File},
    fs.Sane heads → dir.fstClus ∈ heads → dir.Placed fs l → dir.isDir = true →
    l.length * bytesPerClus fs.bpb < 2 ^ 32 → (∀ w ∈ writes, w.1 < fs.bpb.dirSlots l) →
    File.writeDirEntries now writes fs dir = some (fs', dir') →
    fs.DirStep heads dir l fs' dir' l ∧ fs'.dirEntries l = writeAll (fs.dirEntries l) writes := by
  intro writes
  induction writes with
  | nil =>
    intro fs dir hs _ hf _ _ _ hrun
    obtain ⟨rfl, rfl⟩ : fs = fs' ∧ dir = dir' := by simpa [File.writeDirEntries] using hrun
    exact ⟨.of_same hs rfl hf, rfl⟩
  | cons w writes ih =>
    intro fs dir hs hhead hf hdir hcap hin hrun
    obtain ⟨⟨ok, fs₁, dir₁⟩, hfirst, hrest⟩ := Option.bind_eq_some_iff.mp hrun
    obtain ⟨-, hstep, hent⟩ := File.writeDirEntry_some hs hhead hf hdir hcap (hin w List.mem_cons_self) hfirst
    have hbpb := hstep.bpb
    obtain ⟨hstep', hent'⟩ := ih hstep.sane (hstep.worked.fstClus ▸ hhead) hstep.placed
      (hstep.worked.isDir.trans hdir) (by rwa [hbpb])
      (fun w hw => by rw [hbpb]; exact hin w (List.mem_cons_of_mem _ hw)) hrest
    exact ⟨hstep.trans hstep' fun x hx => .inl hx, by rw [hent', hent, writeAll_cons]⟩

end step

end FuseFat32
