import FuseFat32.Fs.DirStep
import FuseFat32.Fs.Exchange
import FuseFat32.Fs.NewGroup

/-!
# Objects that are made again

The destructor of an object writes what the object knows to the short entry of its group, and `fromIno` makes an object of the entries again. The second object is the first one without its cache, as long as the walks from the number of the first entry keep to the group. No other group and no sector outside of the slot notices.
-/

namespace FuseFat32

open LinkedTable Layout

/-! ### One entry of a directory changes -/

/-- The entry at slot `x` has become `e`, and clients see no other change. -/
structure Device.EntrySet (d : Device) (x : Nat × Nat) (e : LongDirEntry) (d' : Device) : Prop where
  secCnt : d'.secCnt = d.secCnt
  value : d'.value = (d.write x.1 x.2 e.bytes).value

section entries

variable {bpb : BPB} {d d' : Device} {x y : Nat × Nat} {e : LongDirEntry}

theorem Device.EntrySet.entry (h : d.EntrySet x e d') : d'.entry x = e := by
  rw [Device.entry_congr (congrFun h.value x.1)]
  exact d.entry_write x e

theorem Device.EntrySet.value_of_ne (h : d.EntrySet x e d') {s : Nat} (hne : s ≠ x.1) : d'.value s = d.value s := by
  rw [h.value]
  exact funext fun i => d.value_write_of_ne _ _ _ hne i

theorem Device.EntrySet.entry_of_ne (h : d.EntrySet x e d') (hx : x.2 % kDirEntrySize = 0)
    (hy : y.2 % kDirEntrySize = 0) (hne : y ≠ x) : d'.entry y = d.entry y := by
  by_cases hsec : y.1 = x.1
  · have hoff : y.2 + kDirEntrySize ≤ x.2 ∨ x.2 + kDirEntrySize ≤ y.2 := by
      have hne' : y.2 ≠ x.2 := fun heq => hne (Prod.ext hsec heq)
      simp only [kDirEntrySize] at hx hy ⊢
      omega
    have hat : ∀ i ∈ List.range kDirEntrySize, d'.bytesAt y i = d.bytesAt y i := by
      intro i hi
      have hi := List.mem_range.mp hi
      rw [Device.bytesAt, h.value]
      refine d.value_write_outside _ _ _ ?_ _
      rw [LongDirEntry.length_bytes]
      omega
    have hentry : (d.entry y).bytes = (List.range kDirEntrySize).map (d.bytesAt y) := LongDirEntry.bytes_ofBytes _
    refine LongDirEntry.ofBytes_eq ?_
    rw [List.map_congr_left hat, hentry]
  · exact Device.entry_congr (h.value_of_ne hsec)

end entries

/-! ### The metadata in the short entry -/

/-- The two entries differ in nothing that tells the kind of the entry or its name. -/
structure ShortDirEntry.SameName (e e' : ShortDirEntry) : Prop where
  name : e'.name = e.name
  attr : e'.attr = e.attr

theorem File.sameName_updated (f : File) (e : ShortDirEntry) : e.SameName (f.updated e) := ⟨rfl, rfl⟩

section metadata

variable {cs : Charset} {e e' : ShortDirEntry} {short short' : LongDirEntry} {f : File}

theorem ShortDirEntry.SameName.readShortEntryName (h : e.SameName e') : readShortEntryName e' = readShortEntryName e := by
  rw [FuseFat32.readShortEntryName, FuseFat32.readShortEntryName, ShortDirEntry.name0, ShortDirEntry.name0, h.name]

private theorem attr_castLongDirEntryToShort (short : LongDirEntry) : (castLongDirEntryToShort short).attr = short.attr := by
  have h := attr_castShortDirEntryToLong (castLongDirEntryToShort short)
  rwa [show castShortDirEntryToLong (castLongDirEntryToShort short) = short from
    LongDirEntry.bytes_injective (by rw [bytes_castShortDirEntryToLong, bytes_castLongDirEntryToShort]), eq_comm] at h

/-- The scans take the new entry as they have taken the old one. -/
theorem ShortDirEntry.SameName.kind (h : (castLongDirEntryToShort short).SameName e) :
    isEmptyDirEntry (castShortDirEntryToLong e) = isEmptyDirEntry short ∧
      isLstEmptyDirEntry (castShortDirEntryToLong e) = isLstEmptyDirEntry short ∧
      isLongDirEntry (castShortDirEntryToLong e) = isLongDirEntry short := by
  have hord : (castShortDirEntryToLong e).ord = short.ord := by
    rw [ord_castShortDirEntryToLong, ← ord_castLongDirEntryToShort, ShortDirEntry.name0, ShortDirEntry.name0, h.name]
  have hattr : (castShortDirEntryToLong e).attr = short.attr := by
    rw [attr_castShortDirEntryToLong, h.attr, attr_castLongDirEntryToShort]
  exact ⟨by rw [isEmptyDirEntry, isEmptyDirEntry, hord], by rw [isLstEmptyDirEntry, isLstEmptyDirEntry, hord],
    by rw [isLongDirEntry, isLongDirEntry, hattr]⟩

theorem readEntryClusNo_setFstClusNo (e : ShortDirEntry) {clus : Nat} (h : clus < 2 ^ 32) :
    readEntryClusNo (setFstClusNo e clus) = clus := by
  have hhigh : (UInt16.ofNat (clus / 2 ^ 16)).toNat = clus / 2 ^ 16 :=
    UInt16.toNat_ofNat_of_lt (show clus / 2 ^ 16 < 2 ^ 16 by omega)
  have hlow : (UInt16.ofNat clus).toNat = clus % 2 ^ 16 := UInt16.toNat_ofNat'
  rw [readEntryClusNo, setFstClusNo, hhigh, hlow]
  omega

/-- Walks over a group whose short entry has been replaced collect what they have collected, with the new short entry. -/
theorem groupData_replaced (h : (castLongDirEntryToShort short).SameName e)
    (hlive : isEmptyDirEntry short = false) (hshort : isLongDirEntry short = false) :
    ∀ {longs : List LongDirEntry} {name : List UInt8} {chk : Option UInt8}, (∀ x ∈ longs, isLongDirEntry x = true) →
    groupData (longs ++ [castShortDirEntryToLong e]) name chk =
      (groupData (longs ++ [short]) name chk).map fun r => r.map fun g => (g.1, g.2.1, e) := by
  obtain ⟨hempty, -, hlong⟩ := h.kind
  intro longs
  induction longs with
  | nil =>
    intro name chk _
    simp only [List.nil_append, groupData, hempty, hlong, hlive, hshort, Bool.false_eq_true, if_false,
      castLongDirEntryToShort_castShortDirEntryToLong, Option.map_some]
  | cons x longs ih =>
    intro name chk hlongs
    rw [List.cons_append, List.cons_append, groupData, groupData, if_pos (hlongs x List.mem_cons_self)]
    split
    · rfl
    · rw [if_pos (hlongs x List.mem_cons_self), Option.map_bind]
      exact congrArg _ (funext fun _ => ih fun y hy => hlongs y (List.mem_cons_of_mem _ hy))

private theorem File.ofGroup_replaced (h : e.SameName e') {parent n : Nat} {name : List UInt8} {chk : Option UInt8} {f₀ : File}
    (hf₀ : File.ofGroup cs parent n (name, chk, e) = some f₀) :
    File.ofGroup cs parent n (name, chk, e') = some (.ofEntry parent n f₀.name e') := by
  cases chk with
  | none =>
    simp only [File.ofGroup, Option.bind_eq_bind, h.readShortEntryName, Option.bind_eq_some_iff, Option.pure_def,
      Option.some.injEq] at hf₀ ⊢
    obtain ⟨short, hshort, file_name, hname, rfl⟩ := hf₀
    exact ⟨short, hshort, file_name, hname, rfl⟩
  | some chk =>
    simp only [File.ofGroup, Option.bind_eq_bind, h.readShortEntryName, Option.bind_eq_some_iff, Option.pure_def,
      Option.some.injEq] at hf₀ ⊢
    obtain ⟨short, hshort, b, hb, u, hchk, file_name, hname, rfl⟩ := hf₀
    exact ⟨short, hshort, b, hb, u, hchk, file_name, hname, rfl⟩

end metadata

/-! ### Slots of different entries -/

section slots

variable {bpb : BPB} {l l₂ : List Nat} {j k : Nat}

theorem BPB.slot_inj (hs : bpb.Sound) (hdata : ∀ x ∈ l, bpb.DataClus x) (hnodup : l.Nodup)
    (hj : kDirEntrySize * j < l.length * bytesPerClus bpb) (hk : kDirEntrySize * k < l.length * bytesPerClus bpb)
    (heq : bpb.slot l j = bpb.slot l k) : j = k :=
  Nat.eq_of_mul_eq_mul_left (show 0 < kDirEntrySize by decide) (BPB.chainLoc_injOn hs hdata hnodup hj hk heq)

theorem BPB.chainSector_disjoint (hs : bpb.Sound) (hdata : ∀ x ∈ l, bpb.DataClus x) (hdata₂ : ∀ x ∈ l₂, bpb.DataClus x)
    (hdis : ∀ x ∈ l, x ∉ l₂) (hj : j < l.length * bpb.secPerClus.toNat) (hk : k < l₂.length * bpb.secPerClus.toNat) :
    bpb.chainSector l j ≠ bpb.chainSector l₂ k := by
  intro heq
  obtain ⟨hjlt, hjeq⟩ := BPB.chainSector_eq hj
  obtain ⟨hklt, hkeq⟩ := BPB.chainSector_eq hk
  rw [hjeq, hkeq] at heq
  have hsame := (hs.sector_injective (hdata _ (List.getElem_mem hjlt)) (hdata₂ _ (List.getElem_mem hklt))
    (Nat.mod_lt _ hs.secPerClus) (Nat.mod_lt _ hs.secPerClus) heq).1
  exact hdis _ (List.getElem_mem hjlt) (hsame ▸ List.getElem_mem hklt)

end slots

/-! ### Groups and their objects -/

/-- An object of the directory that starts with `clus`. -/
def dirAt (clus : Nat) : File := ⟨0, 0, clus, [], ⟨0, ⟨0, 0⟩⟩, 0, ⟨0, 0⟩, 0, false, none, true⟩

/-- The object sets the short entry at a slot. -/
def File.putMeta (f : File) (d : Device) (x : Nat × Nat) : Device :=
  d.write x.1 x.2 (castShortDirEntryToLong (f.updated (castLongDirEntryToShort (d.entry x)))).bytes

/-- The loop of `sync` over the sectors of the object comes to an end, whatever the data clusters hold. -/
def File.WritesBack (fs : FAT32fs) (f : File) : Prop :=
  ∀ d : Device, d.secCnt = fs.device.secCnt → (∀ s < getFirstDataSector fs.bpb, d.value s = fs.device.value s) →
    ∃ d' f', File.syncSectors (2 ^ 33) { fs with device := d } f 0 = some ({ fs with device := d' }, f') ∧
      d'.value = d.value ∧ d'.secCnt = d.secCnt

theorem File.Placed.writesBack {fs : FAT32fs} {f : File} {l : List Nat} (hm : fs.Mounted) (hf : f.Placed fs l) :
    f.WritesBack fs := by
  intro d hcnt hlow
  obtain ⟨hm', htable⟩ := hm.of_data d hcnt hlow
  obtain ⟨d', hrun, hback⟩ := (hf.of_data htable).syncSectors hm'
  exact ⟨d', _, hrun, hback.value, hback.secCnt⟩

/-- A chain that the object has cached is written back even when it is out of date. -/
theorem File.writesBack_of_cached {fs : FAT32fs} {f : File} {l : List Nat} (hm : fs.Mounted)
    (hdata : ∀ x ∈ l, fs.bpb.DataClus x) (hlen : l.length ≤ fs.bpb.clusCnt) (hcache : f.clusChain_ = some l) :
    f.WritesBack fs := by
  intro d hcnt _
  suffices hloop : ∀ (fuel k : Nat) (d : Device), d.secCnt = fs.device.secCnt →
      l.length * fs.bpb.secPerClus.toNat - k < fuel →
      ∃ d', File.syncSectors fuel { fs with device := d } f k = some ({ fs with device := d' }, f) ∧
        d'.value = d.value ∧ d'.secCnt = d.secCnt by
    have hfit := hm.sound.clusters_fit
    have htot := fs.bpb.totSec32.toNat_lt
    have hmul := Nat.mul_le_mul_right fs.bpb.secPerClus.toNat hlen
    obtain ⟨d', hrun, hback⟩ := hloop (2 ^ 33) 0 d hcnt (by omega)
    exact ⟨d', f, hrun, hback⟩
  intro fuel
  induction fuel with
  | zero => exact fun _ _ _ hfuel => absurd hfuel (Nat.not_lt_zero _)
  | succ fuel ih =>
    intro k d hcnt hfuel
    rw [File.syncSectors]
    rcases Nat.lt_or_ge k (l.length * fs.bpb.secPerClus.toNat) with hlt | hge
    · obtain ⟨d', hrun, hvalue, hcnt'⟩ := ih (k + 1) (d.sync (fs.bpb.chainSector l k)) hcnt (by omega)
      refine ⟨d', ?_, hvalue, hcnt'⟩
      have hsound : BPB.Sound (FAT32fs.mk fs.bpb fs.fat d).bpb := hm.sound
      have hread : f.readSector { fs with device := d } k = some (some (fs.bpb.chainSector l k), f) :=
        File.readSector_cached hsound (hm.fits.trans_eq hcnt.symm) hdata hlen hcache hlt
      rw [hread]
      exact hrun
    · refine ⟨d, ?_, rfl, rfl⟩
      have hread : f.readSector { fs with device := d } k = some (none, f) := File.readSector_cached_past hcache hge
      rw [hread]
      rfl

/-- The entries `n` to `n + m` of the directory with chain `l` are a live group, and the walks from its first entry keep to it. -/
structure FAT32fs.GroupOf (fs : FAT32fs) (clus : Nat) (l : List Nat) (n m : Nat) : Prop where
  chain : fs.bpb.ChainOf fs.table clus l
  inside : kDirEntrySize * (n + m + 1) ≤ u32 (l.length * bytesPerClus fs.bpb)
  order : fs.bpb.SlotsInOrder l n m
  live : fs.LiveGroup l n m

section groups

variable {cs : Charset} {fs fs' : FAT32fs} {f f₀ : File} {l lf : List Nat} {clus n m : Nat} {d' : Device}

theorem FAT32fs.GroupOf.placed (h : fs.GroupOf clus l n m) : (dirAt clus).Placed fs l := ⟨h.chain, .inl rfl⟩

theorem FAT32fs.GroupOf.slots (h : fs.GroupOf clus l n m) (hm : fs.Mounted) :
    Cursor.slots fs.bpb l m (.start fs.bpb (n * kDirEntrySize)) =
      some ((List.range (m + 1)).map fun j => fs.bpb.slot l (n + j)) :=
  ((slots_order_iff hm h.placed h.inside).mpr h.order).trans (entrySlots_eq hm h.placed h.inside)

theorem FAT32fs.GroupOf.fromIno_eq (h : fs.GroupOf clus l n m) (hm : fs.Mounted) (cs : Charset) :
    File.fromIno cs fs (clus * 2 ^ 32 + n) =
      (groupData ((List.range (m + 1)).map fun j => fs.entryAt l (n + j)) [] none).bind fun
        | none => some none
        | some g => (File.ofGroup cs clus n g).map some :=
  File.fromIno_reads hm h.placed h.inside (h.slots hm) h.live cs

theorem FAT32fs.GroupOf.congr (h : fs.GroupOf clus l n m) (hbpb : fs'.bpb = fs.bpb)
    (hchain : fs.bpb.ChainOf fs'.table clus l) (hent : ∀ j ≤ m, fs'.entryAt l (n + j) = fs.entryAt l (n + j)) :
    fs'.GroupOf clus l n m := by
  refine ⟨hbpb.symm ▸ hchain, hbpb.symm ▸ h.inside, hbpb.symm ▸ h.order, fun j hj => ?_, fun j hj => ?_, ?_⟩
  · rw [hent j hj]
    exact h.live.nonempty j hj
  · rw [hent j hj.le]
    exact h.live.long j hj
  · rw [hent m le_rfl]
    exact h.live.short

theorem FAT32fs.GroupOf.fromIno_congr {l' : List Nat} (h : fs.GroupOf clus l n m) (h' : fs'.GroupOf clus l' n m)
    (hm : fs.Mounted) (hm' : fs'.Mounted) (hent : ∀ j ≤ m, fs'.entryAt l' (n + j) = fs.entryAt l (n + j)) (cs : Charset) :
    File.fromIno cs fs' (clus * 2 ^ 32 + n) = File.fromIno cs fs (clus * 2 ^ 32 + n) := by
  have hes : (List.range (m + 1)).map (fun j => fs'.entryAt l' (n + j)) =
      (List.range (m + 1)).map fun j => fs.entryAt l (n + j) :=
    List.map_congr_left fun j hj => hent j (Nat.lt_succ_iff.mp (List.mem_range.mp hj))
  rw [h.fromIno_eq hm, h'.fromIno_eq hm', hes]

theorem FAT32fs.GroupOf.syncMeta (h : fs.GroupOf clus l n m) (hm : fs.Mounted) (hparent : f.parentClus = clus)
    (hnum : f.fstEntryNum = n) :
    f.syncMeta fs = some { fs with device := f.putMeta fs.device (fs.bpb.slot l (n + m)) } := by
  have hbytes : (f.updated (.ofBytes (fs.device.bytesAt (fs.bpb.slot l (n + m))))).bytes =
      (castShortDirEntryToLong (f.updated (castLongDirEntryToShort (fs.device.entry (fs.bpb.slot l (n + m)))))).bytes := by
    rw [bytes_castShortDirEntryToLong, Device.entry, castLongDirEntryToShort_ofBytes]
  have hloop := File.syncLoop_eq (lt_slotFuel h.inside) (h.slots hm) (slots_on_device hm h.placed h.inside) h.live.groupAt
  rw [List.range_succ, List.map_append, List.map_singleton, List.getLast?_concat] at hloop
  rw [File.syncMeta, hparent, hm.represents.readClusChains_of (hm.bpb.symm ▸ h.chain), hnum]
  simp only [Option.bind_eq_bind, Option.bind_some]
  rw [hloop, File.putMeta, ← hbytes]
  rfl

theorem FAT32fs.GroupOf.putMeta_low (h : fs.GroupOf clus l n m) (hm : fs.Mounted) (f : File) {s : Nat}
    (hlow : s < getFirstDataSector fs.bpb) :
    (f.putMeta fs.device (fs.bpb.slot l (n + m))).value s = fs.device.value s := by
  have hbound := BPB.slot_bounds hm.sound h.chain.data (slots_inside h.inside m le_rfl).1
  exact funext fun i => fs.device.value_write_of_ne _ _ _ (by omega) i

/-- `sync` with metadata sets the short entry of the group. -/
theorem FAT32fs.GroupOf.sync_of (h : fs.GroupOf clus l n m) (hm : fs.Mounted) (hback : f.WritesBack fs)
    (hparent : f.parentClus = clus) (hnum : f.fstEntryNum = n) (hdel : f.isDeleted = false) :
    ∃ d' f', f.sync fs true = some ({ fs with device := d' }, f') ∧
      fs.device.EntrySet (fs.bpb.slot l (n + m))
        (castShortDirEntryToLong (f.updated (castLongDirEntryToShort (fs.entryAt l (n + m))))) d' := by
  have hino := ino_ne_root h.placed (slots_inside h.inside 0 (Nat.zero_le m)).1 hparent
  obtain ⟨d', f', hrun, hvalue, hcnt⟩ := hback (f.putMeta fs.device (fs.bpb.slot l (n + m))) rfl fun s => h.putMeta_low hm f
  refine ⟨d', f', ?_, hcnt, hvalue⟩
  rw [File.sync_eq hdel, if_pos hino, h.syncMeta hm hparent hnum]
  exact hrun

theorem FAT32fs.GroupOf.sync (h : fs.GroupOf clus l n m) (hm : fs.Mounted) (hf : f.Placed fs lf)
    (hparent : f.parentClus = clus) (hnum : f.fstEntryNum = n) (hdel : f.isDeleted = false) :
    ∃ d', f.sync fs true = some ({ fs with device := d' }, f.cached lf) ∧
      fs.device.EntrySet (fs.bpb.slot l (n + m))
        (castShortDirEntryToLong (f.updated (castLongDirEntryToShort (fs.entryAt l (n + m))))) d' := by
  have hino := ino_ne_root h.placed (slots_inside h.inside 0 (Nat.zero_le m)).1 hparent
  obtain ⟨hm', htable⟩ := hm.of_data (f.putMeta fs.device (fs.bpb.slot l (n + m))) rfl fun s => h.putMeta_low hm f
  obtain ⟨d', hrun, hback⟩ := (hf.of_data htable).syncSectors hm'
  refine ⟨d', ?_, hback.secCnt, hback.value⟩
  rw [File.sync_eq hdel, if_pos hino, h.syncMeta hm hparent hnum]
  exact hrun

theorem FAT32fs.GroupOf.set (h : fs.GroupOf clus l n m)
    (hchain : fs.bpb.ChainOf (FAT32fs.table { fs with device := d' }) clus l) {e : ShortDirEntry}
    (hname : (castLongDirEntryToShort (fs.entryAt l (n + m))).SameName e)
    (hset : d'.entry (fs.bpb.slot l (n + m)) = castShortDirEntryToLong e)
    (hothers : ∀ j < m, d'.entry (fs.bpb.slot l (n + j)) = fs.entryAt l (n + j)) :
    FAT32fs.GroupOf { fs with device := d' } clus l n m := by
  obtain ⟨hempty, -, hlong⟩ := hname.kind
  refine ⟨hchain, h.inside, h.order, fun j hj => ?_, fun j hj => ?_, ?_⟩
  · rcases Nat.lt_or_eq_of_le hj with hlt | rfl
    · exact (congrArg isEmptyDirEntry (hothers j hlt)).trans (h.live.nonempty j hj)
    · exact (congrArg isEmptyDirEntry hset).trans (hempty.trans (h.live.nonempty j hj))
  · exact (congrArg isLongDirEntry (hothers j hj)).trans (h.live.long j hj)
  · exact (congrArg isLongDirEntry hset).trans (hlong.trans h.live.short)

/-- The object that is made of a group whose short entry has been set. -/
theorem FAT32fs.GroupOf.fromIno_set {d : Device} (h : fs.GroupOf clus l n m) (hm : fs.Mounted)
    (hm' : FAT32fs.Mounted { fs with device := d })
    (h' : FAT32fs.GroupOf { fs with device := d } clus l n m) {e : ShortDirEntry}
    (hname : (castLongDirEntryToShort (fs.entryAt l (n + m))).SameName e)
    (hset : d.entry (fs.bpb.slot l (n + m)) = castShortDirEntryToLong e)
    (hothers : ∀ j < m, d.entry (fs.bpb.slot l (n + j)) = fs.entryAt l (n + j))
    (hmade : File.fromIno cs fs (clus * 2 ^ 32 + n) = some (some f₀)) :
    File.fromIno cs { fs with device := d } (clus * 2 ^ 32 + n) = some (some (.ofEntry clus n f₀.name e)) := by
  have hes : (List.range (m + 1)).map (fun j => fs.entryAt l (n + j)) =
      (List.range m).map (fun j => fs.entryAt l (n + j)) ++ [fs.entryAt l (n + m)] := by
    rw [List.range_succ, List.map_append, List.map_singleton]
  have hes' : (List.range (m + 1)).map (fun j => FAT32fs.entryAt { fs with device := d } l (n + j)) =
      (List.range m).map (fun j => fs.entryAt l (n + j)) ++ [castShortDirEntryToLong e] := by
    rw [List.range_succ, List.map_append, List.map_singleton, ← hset]
    exact congrArg (· ++ _) (List.map_congr_left fun j hj => hothers j (List.mem_range.mp hj))
  have hlongs : ∀ x ∈ (List.range m).map fun j => fs.entryAt l (n + j), isLongDirEntry x = true := by
    intro x hx
    obtain ⟨j, hj, rfl⟩ := List.mem_map.mp hx
    exact h.live.long j (List.mem_range.mp hj)
  have hlive := h.live.nonempty m le_rfl
  rw [h.fromIno_eq hm, hes, Option.bind_eq_some_iff] at hmade
  obtain ⟨g, hg, hmade⟩ := hmade
  -- the last part of what the walk collects is the short entry
  have hshort : groupData (_ ++ [_]) [] none = _ :=
    groupData_replaced (e := castLongDirEntryToShort (fs.entryAt l (n + m))) ⟨rfl, rfl⟩ hlive h.live.short hlongs
  have hback : castShortDirEntryToLong (castLongDirEntryToShort (fs.entryAt l (n + m))) = fs.entryAt l (n + m) :=
    LongDirEntry.bytes_injective (by rw [bytes_castShortDirEntryToLong, bytes_castLongDirEntryToShort])
  rw [hback, hg, Option.map_some] at hshort
  rw [h'.fromIno_eq hm', hes', groupData_replaced hname hlive h.live.short hlongs, hg, Option.map_some]
  cases g with
  | none => exact absurd hmade (by simp)
  | some g =>
    obtain ⟨name, chk, short⟩ := g
    obtain rfl : short = castLongDirEntryToShort (fs.entryAt l (n + m)) := by simpa using hshort
    obtain ⟨f, hf, hsome⟩ := Option.map_eq_some_iff.mp hmade
    obtain rfl : f = f₀ := Option.some.inj hsome
    rw [Option.map_some, Option.bind_some]
    dsimp only
    rw [File.ofGroup_replaced hname hf, Option.map_some]

theorem FAT32fs.GroupOf.made_eq (h : fs.GroupOf clus l n m) (hm : fs.Mounted)
    (hmade : File.fromIno cs fs (clus * 2 ^ 32 + n) = some (some f)) :
    f = .ofEntry clus n f.name (castLongDirEntryToShort (fs.entryAt l (n + m))) := by
  have hback : castShortDirEntryToLong (castLongDirEntryToShort (fs.entryAt l (n + m))) = fs.entryAt l (n + m) :=
    LongDirEntry.bytes_injective (by rw [bytes_castShortDirEntryToLong, bytes_castLongDirEntryToShort])
  have hagain := h.fromIno_set (d := fs.device) hm hm h ⟨rfl, rfl⟩ hback.symm (fun _ _ => rfl) hmade
  exact Option.some.inj (Option.some.inj (hmade.symm.trans hagain))

/-- The object that is made of the entry which another object has written is that object. -/
theorem File.ofEntry_updated {e : ShortDirEntry} {parent num : Nat} (hdir : isDirectory e = f.isDir)
    (hparent : f.parentClus = parent) (hnum : f.fstEntryNum = num) (hlive : f.isDeleted = false)
    (hcache : f.clusChain_ = none) (hclus : f.fstClus < 2 ^ 32) (hsize : f.fileSz_ < 2 ^ 32) (cached : Option (List Nat)) :
    File.ofEntry parent num f.name (File.updated { f with clusChain_ := cached, isDir := false } e) = f := by
  obtain ⟨_, _, clus, name, crt, acc, wrt, size, del, chain, dir⟩ := f
  obtain rfl : _ = parent := hparent
  obtain rfl : _ = num := hnum
  obtain rfl : del = false := hlive
  obtain rfl : chain = none := hcache
  obtain rfl : isDirectory e = dir := hdir
  have hsz : (UInt32.ofNat size).toNat = size := UInt32.toNat_ofNat_of_lt hsize
  rw [File.ofEntry, File.updated, readEntryClusNo_setFstClusNo _ hclus]
  simp only [setFstClusNo, hsz, Bool.false_eq_true, if_false]
  rfl

end groups

end FuseFat32
