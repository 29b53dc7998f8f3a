import FuseFat32.Fat.Copies
import FuseFat32.Fs.Entries

/-!
# The entries of a group and of no other

A live group is a run of long entries that ends with a short one. While the clusters of the directory are in order, the walks of `fromIno`, `sync` and `selfDestruct` step through the slots of the group and stop at its short entry, so they read, update and delete the entries that `readDirEntry` returns for it. When the clusters are not in order the walk leaves the slots of the group.
-/

namespace FuseFat32

open LinkedTable Layout

/-- The entry `k` of the directory with chain `l`. -/
def FAT32fs.entryAt (fs : FAT32fs) (l : List Nat) (k : Nat) : LongDirEntry :=
  fs.device.entry (fs.bpb.slot l k)

/-- Entries `n` to `n + m` are long entries and then a short one, none of them empty. -/
structure FAT32fs.LiveGroup (fs : FAT32fs) (l : List Nat) (n m : Nat) : Prop where
  nonempty : ∀ j ≤ m, isEmptyDirEntry (fs.entryAt l (n + j)) = false
  long : ∀ j < m, isLongDirEntry (fs.entryAt l (n + j)) = true
  short : isLongDirEntry (fs.entryAt l (n + m)) = false

/-- What `fromIno` is to collect from the entries of a group. -/
def groupData : List LongDirEntry → List UInt8 → Option UInt8 → Exec (Option GroupData)
  | [], _, _ => none
  | e :: rest, long_name, chk_sum =>
    if isEmptyDirEntry e then some none
    else if isLongDirEntry e then
      (assert (chk_sum.all (isValidLongDirEntry e))).bind fun _ =>
        groupData rest (readLongEntryName e ++ long_name) (some (chk_sum.getD e.chkSum))
    else some (some (long_name, chk_sum, castLongDirEntryToShort e))

/-- The bytes at the slots `as` start with the mark of an empty entry. -/
def Device.erased (d : Device) (as : List (Nat × Nat)) : Device :=
  { d with value := fun s i => if (s, i) ∈ as then 0xE5 else d.value s i }

section walks

variable {fs : FAT32fs} {bpb : BPB} {d : Device} {l : List Nat} {c : Cursor}
  {as : List (Nat × Nat)}

theorem Cursor.slots_succ {m : Nat} (h : Cursor.slots bpb l (m + 1) c = some as) :
    ∃ sec c' rest, c.secNo bpb l = some sec ∧ iterClusChainEntry bpb l c = some (true, c') ∧
      Cursor.slots bpb l m c' = some rest ∧ as = (sec, c.secOff) :: rest := by
  simp only [Cursor.slots, Option.bind_eq_bind, Option.bind_eq_some_iff] at h
  obtain ⟨sec, hsec, ⟨more, c'⟩, hiter, u, hmore, rest, hrest, has⟩ := h
  obtain rfl := assert_eq_some.mp hmore
  exact ⟨sec, c', rest, hsec, hiter, hrest, (Option.some.inj has).symm⟩

theorem Cursor.slots_zero (h : Cursor.slots bpb l 0 c = some as) :
    ∃ sec, c.secNo bpb l = some sec ∧ as = [(sec, c.secOff)] := by
  simp only [Cursor.slots, Option.bind_eq_bind, Option.bind_eq_some_iff] at h
  obtain ⟨sec, hsec, has⟩ := h
  exact ⟨sec, hsec, (Option.some.inj has).symm⟩

theorem Cursor.slots_ne_nil {m : Nat} (h : Cursor.slots bpb l m c = some as) : as ≠ [] := by
  cases m with
  | zero =>
    obtain ⟨sec, -, rfl⟩ := Cursor.slots_zero h
    simp
  | succ m =>
    obtain ⟨sec, c', rest, -, -, -, rfl⟩ := Cursor.slots_succ h
    simp

theorem Cursor.slot_eq {sec : Nat} (hsec : c.secNo bpb l = some sec) (hlt : sec < d.secCnt) :
    c.slot bpb d l = some (sec, c.secOff) := by
  simp [Cursor.slot, hsec, d.readSector_of_lt sec hlt]

/-- The slots `as` hold long entries up to a short one at the end. -/
def GroupAt (d : Device) : List (Nat × Nat) → Prop
  | [] => False
  | [a] => isLongDirEntry (d.entry a) = false
  | a :: b :: as => isLongDirEntry (d.entry a) = true ∧ GroupAt d (b :: as)

theorem groupAt_cons {a : Nat × Nat} (hne : as ≠ []) :
    GroupAt d (a :: as) ↔ isLongDirEntry (d.entry a) = true ∧ GroupAt d as := by
  obtain ⟨b, as, rfl⟩ := List.exists_cons_of_ne_nil hne
  exact Iff.rfl

/-! ### The three walks -/

private theorem File.fromInoLoop_eq {m : Nat} : ∀ {c : Cursor} {as : List (Nat × Nat)} {fuel : Nat}, m < fuel →
    Cursor.slots fs.bpb l m c = some as → (∀ a ∈ as, a.1 < fs.device.secCnt) → GroupAt fs.device as →
    ∀ (long_name : List UInt8) (chk_sum : Option UInt8),
    File.fromInoLoop fs l fuel c long_name chk_sum =
      groupData (as.map fs.device.entry) long_name chk_sum := by
  induction m with
  | zero =>
    intro c as fuel hfuel has hlt hgroup long_name chk_sum
    obtain ⟨fuel, rfl⟩ : ∃ k, fuel = k + 1 := ⟨fuel - 1, by omega⟩
    obtain ⟨sec, hsec, rfl⟩ := Cursor.slots_zero has
    have hshort : isLongDirEntry (fs.device.entry (sec, c.secOff)) = false := hgroup
    rw [File.fromInoLoop, Cursor.slot_eq hsec (hlt _ List.mem_cons_self)]
    simp only [Option.bind_eq_bind, Option.bind_some, List.map_cons, groupData, hshort]
    split <;> rfl
  | succ m ih =>
    intro c as fuel hfuel has hlt hgroup long_name chk_sum
    obtain ⟨fuel, rfl⟩ : ∃ k, fuel = k + 1 := ⟨fuel - 1, by omega⟩
    obtain ⟨sec, c', rest, hsec, hiter, hrest, rfl⟩ := Cursor.slots_succ has
    obtain ⟨hlong, hgroup⟩ := (groupAt_cons (Cursor.slots_ne_nil hrest)).mp hgroup
    rw [File.fromInoLoop, Cursor.slot_eq hsec (hlt _ List.mem_cons_self)]
    simp only [Option.bind_eq_bind, Option.bind_some, List.map_cons, groupData, hlong, hiter]
    split
    · rfl
    · rw [ih (by omega) hrest (fun a ha => hlt a (List.mem_cons_of_mem _ ha)) hgroup]
      rfl

theorem File.syncLoop_eq {m : Nat} : ∀ {c : Cursor} {as : List (Nat × Nat)} {fuel : Nat}, m < fuel →
    Cursor.slots fs.bpb l m c = some as → (∀ a ∈ as, a.1 < fs.device.secCnt) → GroupAt fs.device as →
    File.syncLoop fs l fuel c = as.getLast? := by
  induction m with
  | zero =>
    intro c as fuel hfuel has hlt hgroup
    obtain ⟨fuel, rfl⟩ : ∃ k, fuel = k + 1 := ⟨fuel - 1, by omega⟩
    obtain ⟨sec, hsec, rfl⟩ := Cursor.slots_zero has
    have hshort : isLongDirEntry (fs.device.entry (sec, c.secOff)) = false := hgroup
    rw [File.syncLoop, Cursor.slot_eq hsec (hlt _ List.mem_cons_self)]
    simp [hshort]
  | succ m ih =>
    intro c as fuel hfuel has hlt hgroup
    obtain ⟨fuel, rfl⟩ : ∃ k, fuel = k + 1 := ⟨fuel - 1, by omega⟩
    obtain ⟨sec, c', rest, hsec, hiter, hrest, rfl⟩ := Cursor.slots_succ has
    have hne := Cursor.slots_ne_nil hrest
    obtain ⟨hlong, hgroup⟩ := (groupAt_cons hne).mp hgroup
    rw [File.syncLoop, Cursor.slot_eq hsec (hlt _ List.mem_cons_self)]
    simp only [Option.bind_eq_bind, Option.bind_some, hlong, hiter]
    have hwalk := ih (show m < fuel by omega) hrest (fun a ha => hlt a (List.mem_cons_of_mem _ ha)) hgroup
    rw [List.getLast?_cons_of_ne_nil hne, ← hwalk]
    rfl

/-! ### Marking entries empty -/

theorem bytes_setDirEntryEmpty (e : LongDirEntry) :
    (setDirEntryEmpty e).bytes = 0xE5 :: e.bytes.tail := rfl

theorem Device.write_setDirEntryEmpty (d : Device) (a : Nat × Nat) :
    d.write a.1 a.2 (setDirEntryEmpty (d.entry a)).bytes = d.erased [a] := by
  have hbytes : (d.entry a).bytes = (List.range kDirEntrySize).map (d.bytesAt a) :=
    LongDirEntry.bytes_ofBytes _
  have hlen : (setDirEntryEmpty (d.entry a)).bytes.length = kDirEntrySize := LongDirEntry.length_bytes _
  have hval : ∀ s i, (d.write a.1 a.2 (setDirEntryEmpty (d.entry a)).bytes).value s i =
      (d.erased [a]).value s i := by
    intro s i
    simp only [Device.write, Device.erased, hlen, List.mem_singleton, Prod.ext_iff]
    by_cases hs : s = a.1
    · subst hs
      by_cases hi : a.2 ≤ i ∧ i < a.2 + kDirEntrySize
      · rw [if_pos ⟨rfl, hi⟩, bytes_setDirEntryEmpty, hbytes]
        obtain ⟨k, rfl⟩ : ∃ k, i = a.2 + k := ⟨i - a.2, by omega⟩
        rw [Nat.add_sub_cancel_left]
        cases k with
        | zero => simp
        | succ k =>
          have hk : k + 1 < kDirEntrySize := by omega
          rw [if_neg (by omega), List.getD_cons_succ, List.getD_eq_getElem?_getD, List.getElem?_tail]
          simp [hk, Device.bytesAt]
      · rw [if_neg (by tauto), if_neg (by simp only [kDirEntrySize] at hi; omega)]
    · rw [if_neg (by tauto), if_neg (by tauto)]
  exact congrArg (fun v => { d with value := v }) (funext fun s => funext (hval s))

private theorem Device.erased_erased (d : Device) (a : Nat × Nat) (as : List (Nat × Nat)) :
    (d.erased [a]).erased as = d.erased (a :: as) := by
  simp only [Device.erased, Device.mk.injEq, true_and, and_true]
  funext s i
  by_cases hmem : (s, i) ∈ as <;> simp [hmem]

/-- All slots of the list start at a multiple of the size of an entry. -/
def Aligned (as : List (Nat × Nat)) : Prop := ∀ a ∈ as, a.2 % kDirEntrySize = 0

theorem Device.bytesAt_erased (has : Aligned as) {b : Nat × Nat} (hb : b.2 % kDirEntrySize = 0) {i : Nat}
    (hpos : 0 < i) (hi : i < kDirEntrySize) : (d.erased as).bytesAt b i = d.bytesAt b i := by
  refine if_neg fun hmem => ?_
  have := has _ hmem
  simp only [kDirEntrySize] at this hb hi
  omega

theorem Device.entry_erased (has : Aligned as) {b : Nat × Nat} (hb : b ∈ as) :
    (d.erased as).entry b = setDirEntryEmpty (d.entry b) := by
  refine LongDirEntry.ofBytes_eq ?_
  have hbytes : (d.entry b).bytes = (List.range kDirEntrySize).map (d.bytesAt b) :=
    LongDirEntry.bytes_ofBytes _
  rw [bytes_setDirEntryEmpty, hbytes]
  have hfst : (d.erased as).bytesAt b 0 = 0xE5 := if_pos hb
  have hrest : ∀ i < 31, (d.erased as).bytesAt b (i + 1) = d.bytesAt b (i + 1) := fun i hi =>
    Device.bytesAt_erased has (has b hb) (Nat.succ_pos i) (Nat.succ_lt_succ hi)
  rw [show kDirEntrySize = 31 + 1 from rfl, List.range_succ_eq_map, List.map_cons, List.map_cons, hfst,
    List.tail_cons, List.map_map, List.map_map]
  congr 1
  exact List.map_congr_left fun i hi => hrest i (List.mem_range.mp hi)

private theorem isLongDirEntry_erased (has : Aligned as) {b : Nat × Nat} (hb : b.2 % kDirEntrySize = 0) :
    isLongDirEntry ((d.erased as).entry b) = isLongDirEntry (d.entry b) := by
  have hattr : (d.erased as).bytesAt b 11 = d.bytesAt b 11 := Device.bytesAt_erased has hb (by decide) (by decide)
  change decide ((d.erased as).bytesAt b 11 &&& kAttrLongNameMask = kAttrLongName) = _
  rw [hattr]
  rfl

private theorem groupAt_erased {bs : List (Nat × Nat)} (has : Aligned as) (hbs : Aligned bs) :
    GroupAt (d.erased as) bs ↔ GroupAt d bs := by
  induction bs with
  | nil => exact Iff.rfl
  | cons b bs ih =>
    have hb := isLongDirEntry_erased (d := d) has (hbs b List.mem_cons_self)
    by_cases hnil : bs = []
    · subst hnil
      simp only [GroupAt, hb]
    · rw [groupAt_cons hnil, groupAt_cons hnil, hb, ih fun a ha => hbs a (List.mem_cons_of_mem b ha)]

private theorem File.destroyLoop_eq {m : Nat} : ∀ {d : Device} {c : Cursor} {as : List (Nat × Nat)} {fuel : Nat},
    m < fuel → Cursor.slots bpb l m c = some as → (∀ a ∈ as, a.1 < d.secCnt) → Aligned as →
    GroupAt d as → File.destroyLoop bpb l fuel d c = some (d.erased as) := by
  induction m with
  | zero =>
    intro d c as fuel hfuel has hlt _ hgroup
    obtain ⟨fuel, rfl⟩ : ∃ k, fuel = k + 1 := ⟨fuel - 1, by omega⟩
    obtain ⟨sec, hsec, rfl⟩ := Cursor.slots_zero has
    have hshort : isLongDirEntry (d.entry (sec, c.secOff)) = false := hgroup
    rw [File.destroyLoop, Cursor.slot_eq hsec (hlt _ List.mem_cons_self), ← d.write_setDirEntryEmpty]
    simp [hshort]
  | succ m ih =>
    intro d c as fuel hfuel has hlt haligned hgroup
    obtain ⟨fuel, rfl⟩ : ∃ k, fuel = k + 1 := ⟨fuel - 1, by omega⟩
    obtain ⟨sec, c', rest, hsec, hiter, hrest, rfl⟩ := Cursor.slots_succ has
    obtain ⟨hlong, hgroup⟩ := (groupAt_cons (Cursor.slots_ne_nil hrest)).mp hgroup
    have hone : Aligned [(sec, c.secOff)] := by
      simpa [Aligned] using haligned _ List.mem_cons_self
    have hrestAligned : Aligned rest := fun a ha => haligned a (List.mem_cons_of_mem _ ha)
    have hwalk := ih (d := d.erased [(sec, c.secOff)]) (show m < fuel by omega) hrest
      (fun a ha => hlt a (List.mem_cons_of_mem _ ha)) hrestAligned
      ((groupAt_erased hone hrestAligned).mpr hgroup)
    rw [← d.erased_erased, ← hwalk, File.destroyLoop, Cursor.slot_eq hsec (hlt _ List.mem_cons_self),
      ← d.write_setDirEntryEmpty]
    simp [hlong, hiter]

end walks

theorem Device.entry_write (d : Device) (x : Nat × Nat) (e : LongDirEntry) :
    (d.write x.1 x.2 e.bytes).entry x = e := by
  refine LongDirEntry.ofBytes_eq ?_
  have hat : ∀ i ∈ List.range kDirEntrySize, (d.write x.1 x.2 e.bytes).bytesAt x i = e.bytes.getD i 0 := by
    intro i hi
    rw [Device.bytesAt, d.value_write_inside _ _ _ (Nat.le_add_right _ _)
      (by rw [e.length_bytes]; have := List.mem_range.mp hi; omega), Nat.add_sub_cancel_left]
  rw [List.map_congr_left hat, map_range_getD _ _ e.length_bytes]

theorem Device.entry_congr {d d' : Device} {x : Nat × Nat} (h : d'.value x.1 = d.value x.1) :
    d'.entry x = d.entry x := by
  have hat : d'.bytesAt x = d.bytesAt x := funext fun i => by rw [Device.bytesAt, Device.bytesAt, h]
  rw [Device.entry, Device.entry, hat]

/-! ### The slots of a directory -/

section directory

variable {fs : FAT32fs} {heads : Set Nat} {dir f : File} {l lf : List Nat} {n m : Nat}

private theorem mapM_of_some {α β : Type} {g : α → Option β} {h : α → β} {as : List α}
    (hg : ∀ a ∈ as, g a = some (h a)) : as.mapM g = some (as.map h) := by
  induction as with
  | nil => rfl
  | cons a as ih =>
    rw [List.mapM_cons, hg a List.mem_cons_self, ih fun b hb => hg b (List.mem_cons_of_mem a hb)]
    rfl

theorem groupAt_map {d : Device} {m : Nat} : ∀ {a : Nat → Nat × Nat},
    GroupAt d ((List.range (m + 1)).map a) ↔
      (∀ j < m, isLongDirEntry (d.entry (a j)) = true) ∧ isLongDirEntry (d.entry (a m)) = false := by
  induction m with
  | zero => intro a; simp [GroupAt]
  | succ m ih =>
    intro a
    rw [List.range_succ_eq_map, List.map_cons, List.map_map, groupAt_cons (by simp), ih]
    constructor
    · rintro ⟨hfst, hlong, hshort⟩
      refine ⟨fun j hj => ?_, hshort⟩
      cases j with
      | zero => exact hfst
      | succ j => exact hlong j (by omega)
    · exact fun h => ⟨h.1 0 (Nat.succ_pos m), fun j hj => h.1 (j + 1) (by omega), h.2⟩

theorem BPB.slot_bounds {bpb : BPB} (hs : bpb.Sound) (hdata : ∀ x ∈ l, bpb.DataClus x) {k : Nat}
    (hin : kDirEntrySize * k < l.length * bytesPerClus bpb) :
    getFirstDataSector bpb ≤ (bpb.slot l k).1 ∧ (bpb.slot l k).1 < bpb.totSec32.toNat :=
  BPB.chainSector_bounds hs hdata (hs.sector_lt_of_pos hin)

theorem BPB.slot_aligned (bpb : BPB) (l : List Nat) (k : Nat) : (bpb.slot l k).2 % kDirEntrySize = 0 := by
  simp only [BPB.slot, BPB.chainLoc, kDirEntrySize, sectorSize]
  omega

theorem BPB.slots_aligned (bpb : BPB) (l : List Nat) (n m : Nat) :
    Aligned ((List.range m).map fun j => bpb.slot l (n + j)) := by
  intro a ha
  obtain ⟨j, -, rfl⟩ := List.mem_map.mp ha
  exact bpb.slot_aligned l (n + j)

theorem FAT32fs.entryAt_eq (fs : FAT32fs) (l : List Nat) (k : Nat) :
    fs.entryAt l k = .ofBytes fun i =>
      (load (fs.bpb.chainLoc l) fs.device.byte (kDirEntrySize * k) kDirEntrySize).getD i 0 := by
  have hrun : load (fs.bpb.chainLoc l) fs.device.byte (kDirEntrySize * k) kDirEntrySize =
      (List.range kDirEntrySize).map (fs.device.bytesAt (fs.bpb.slot l k)) := by
    have hpos : kDirEntrySize * k / sectorSize * sectorSize + kDirEntrySize * k % sectorSize =
      kDirEntrySize * k := Nat.div_add_mod' _ _
    have hlen : kDirEntrySize * k % sectorSize + kDirEntrySize ≤ sectorSize := by
      simp only [kDirEntrySize, sectorSize]
      omega
    have hbytes := fs.bpb.bytes_eq_load l fs.device (kDirEntrySize * k / sectorSize) _ _ hlen
    rw [hpos] at hbytes
    exact hbytes.symm
  rw [FAT32fs.entryAt, Device.entry, hrun]
  refine LongDirEntry.ofBytes_eq ?_
  rw [LongDirEntry.bytes_ofBytes, map_range_getD _ _ (by simp)]

theorem File.Placed.sized_dir (hh : fs.Mounted) (hf : dir.Placed fs l) (hdir : dir.isDir = true) :
    dir.Sized fs l (u32 (l.length * bytesPerClus fs.bpb)) := by
  refine ⟨⟨dir.cached l, ?_, dir.same_cached l, hf.cached⟩, Nat.mod_le _ _⟩
  simp [File.fileSz, hdir, hf.readClusChain hh]

/-- `readDirEntry` returns the entry at its slot. -/
theorem File.Placed.readDirEntry (hh : fs.Mounted) (hf : dir.Placed fs l)
    (hdir : dir.isDir = true) {k : Nat} (hin : kDirEntrySize * (k + 1) ≤ u32 (l.length * bytesPerClus fs.bpb))
    (now : FatTimeStamp) : ∃ g, dir.readDirEntry fs k now = some (some (fs.entryAt l k), g) ∧
      dir.Same g ∧ g.Placed fs l := by
  have hlt := u32_lt (l.length * bytesPerClus fs.bpb)
  have hpos : 0 < kDirEntrySize := by decide
  rw [Nat.mul_add, Nat.mul_one] at hin
  obtain ⟨g, hread, hsame, hg⟩ := File.Placed.read_eq hh (hf.sized_dir hh hdir) kDirEntrySize
    (kDirEntrySize * k) now
  rw [Nat.min_eq_left (by omega)] at hread
  refine ⟨g, ?_, hsame, hg⟩
  rw [File.readDirEntry, u32_of_lt (by omega), hread, fs.entryAt_eq]
  simp

theorem File.Placed.entrySlot (hh : fs.Mounted) (hf : dir.Placed fs l) {k : Nat}
    (hin : kDirEntrySize * k < l.length * bytesPerClus fs.bpb) (hlt : kDirEntrySize * k < 2 ^ 32) :
    dir.entrySlot fs k = some (fs.bpb.slot l k) := by
  have hs := hh.sound
  rw [File.entrySlot, u32_of_lt hlt, hs.bytesPerSec, File.sectorNo, hf.readClusChain hh]
  simp only [Option.bind_eq_bind, Option.bind_some, sectorOfChain_of_lt hs hf.chain.data
    hf.chain.length_le (hs.sector_lt_of_pos hin)]
  rfl

/-- The sectors `k` and on of the chain `l` have been written back, and no others. -/
structure BPB.WroteBack (bpb : BPB) (l : List Nat) (k : Nat) (d d' : Device) : Prop where
  value : d'.value = d.value
  secCnt : d'.secCnt = d.secCnt
  synced : ∀ n, k ≤ n → n < l.length * bpb.secPerClus.toNat →
    d'.stored (bpb.chainSector l n) = d.value (bpb.chainSector l n)
  kept : ∀ s, (∀ n, k ≤ n → n < l.length * bpb.secPerClus.toNat → bpb.chainSector l n ≠ s) →
    d'.stored s = d.stored s

/-- The loop of `sync` over the sectors of a file writes back what clients see. -/
theorem File.syncSectors_eq (fuel : Nat) : ∀ {fs : FAT32fs} {f : File} {k : Nat}, fs.Mounted →
    f.Placed fs lf → lf.length * fs.bpb.secPerClus.toNat - k < fuel →
    ∃ d', File.syncSectors fuel fs f k = some ({ fs with device := d' }, f.cached lf) ∧
      fs.bpb.WroteBack lf k fs.device d' := by
  induction fuel with
  | zero => exact fun _ _ hfuel => absurd hfuel (Nat.not_lt_zero _)
  | succ fuel ih =>
    intro fs f k hh hf hfuel
    rw [File.syncSectors]
    rcases Nat.lt_or_ge k (lf.length * fs.bpb.secPerClus.toNat) with hlt | hge
    · obtain ⟨hh', htable⟩ := hh.of_data (fs.device.sync (fs.bpb.chainSector lf k)) rfl
        fun _ _ => rfl
      obtain ⟨d', hrun, hback⟩ := ih (k := k + 1) hh' (hf.cached.of_data htable)
        (show lf.length * fs.bpb.secPerClus.toNat - (k + 1) < fuel by omega)
      refine ⟨d', ?_, hback.value, hback.secCnt, fun n hlo hhi => ?_, fun s hout => ?_⟩
      · rw [hf.readSector hh hlt]
        exact hrun
      · by_cases hn : k + 1 ≤ n
        · exact hback.synced n hn hhi
        · obtain rfl : n = k := by omega
          have hinj := fun m hm hm' => BPB.chainSector_inj hh.sound hf.chain.data hf.chain.nodup
            (m := m) (n := n) hm hm'
          rw [hback.kept _ fun m hm hm' heq => absurd (hinj m hm' hlt heq) (by omega)]
          exact funext fun i => if_pos rfl
      · rw [hback.kept s fun n hlo hhi => hout n (by omega) hhi]
        exact funext fun i => if_neg fun heq => hout k le_rfl hlt heq.symm
    · refine ⟨fs.device, ?_, rfl, rfl, fun n hlo hhi => absurd hhi (by omega), fun s _ => rfl⟩
      rw [hf.readSector_past hh hge]
      rfl

theorem File.Placed.syncSectors {f : File} (hh : fs.Mounted) (hf : f.Placed fs lf) :
    ∃ d', File.syncSectors (2 ^ 33) fs f 0 = some ({ fs with device := d' }, f.cached lf) ∧
      fs.bpb.WroteBack lf 0 fs.device d' := by
  refine File.syncSectors_eq (2 ^ 33) hh hf ?_
  have hfit := hh.sound.clusters_fit
  have htot := fs.bpb.totSec32.toNat_lt
  have hmul := Nat.mul_le_mul_right fs.bpb.secPerClus.toNat hf.chain.length_le
  omega

/-! ### The three functions keep to the group exactly when the clusters are in order -/

/-- The slots that the walks from entry `n` address are those of `readDirEntry`, and for a live group `fromIno` reads, `sync` updates and `selfDestruct` deletes its entries and no other byte of a data sector. -/
structure FAT32fs.OwnSlots (cs : Charset) (fs : FAT32fs) (dir : File) (l : List Nat) (n m : Nat) :
    Prop where
  fromIno_slots : Cursor.slots fs.bpb l m (.start fs.bpb (u32 (n * kDirEntrySize))) =
    (List.range (m + 1)).mapM fun j => dir.entrySlot fs (n + j)
  sync_slots : Cursor.slots fs.bpb l m (.start fs.bpb (n * kDirEntrySize)) =
    (List.range (m + 1)).mapM fun j => dir.entrySlot fs (n + j)
  reads : fs.LiveGroup l n m → File.fromIno cs fs (dir.fstClus * 2 ^ 32 + n) =
    (groupData ((List.range (m + 1)).map fun j => fs.entryAt l (n + j)) [] none).bind fun
      | none => some none
      | some g => (File.ofGroup cs dir.fstClus n g).map some
  updates : fs.LiveGroup l n m → ∀ (f : File) (lf : List Nat), f.Placed fs lf → f.parentClus = dir.fstClus →
    f.fstEntryNum = n → f.isDeleted = false →
    ∃ d' f', f.sync fs true = some ({ fs with device := d' }, f') ∧
      d'.entry (fs.bpb.slot l (n + m)) =
        castShortDirEntryToLong (f.updated (castLongDirEntryToShort (fs.entryAt l (n + m)))) ∧
      ∀ s i, (∀ k < kDirEntrySize, (s, i) ≠
        ((fs.bpb.slot l (n + m)).1, (fs.bpb.slot l (n + m)).2 + k)) → d'.value s i = fs.device.value s i
  deletes : fs.LiveGroup l n m → ∀ (f : File) (lf : List Nat), f.Placed fs lf → f.parentClus = dir.fstClus →
    f.fstEntryNum = n → f.isDeleted = false →
    ∃ fs' : FAT32fs, f.selfDestruct fs = some (fs', { f with isDeleted := true }) ∧ fs'.bpb = fs.bpb ∧
      (∀ j ≤ m, fs'.entryAt l (n + j) = setDirEntryEmpty (fs.entryAt l (n + j))) ∧
      (∀ s ≥ getFirstDataSector fs.bpb, ∀ i, (∀ j ≤ m, (s, i) ≠ fs.bpb.slot l (n + j)) →
        fs'.device.value s i = fs.device.value s i) ∧
      ∀ x, fs.bpb.DataClus x → fs'.table x = if x ∈ lf then 0 else fs.table x

/-- The group as the walks meet it. -/
theorem FAT32fs.LiveGroup.groupAt (hlive : fs.LiveGroup l n m) :
    GroupAt fs.device ((List.range (m + 1)).map fun j => fs.bpb.slot l (n + j)) :=
  groupAt_map.mpr ⟨hlive.long, hlive.short⟩

/-- The positions of the entries are below the capacity of the chain and need no truncation. -/
theorem slots_inside {cap : Nat} (hin : kDirEntrySize * (n + m + 1) ≤ u32 cap) : ∀ j ≤ m,
    kDirEntrySize * (n + j) < cap ∧ kDirEntrySize * (n + j) < 2 ^ 32 := by
  have hlt := u32_lt cap
  have hle : u32 cap ≤ cap := Nat.mod_le _ _
  simp only [kDirEntrySize] at hin ⊢
  omega

section inside

/-- The walks need no more steps than they are given. -/
theorem lt_slotFuel {cap : Nat} (hin : kDirEntrySize * (n + m + 1) ≤ u32 cap) : m < slotFuel := by
  have := (slots_inside hin m le_rfl).2
  simp only [kDirEntrySize, slotFuel] at this ⊢
  omega

variable (hh : fs.Mounted) (hf : dir.Placed fs l)
  (hin : kDirEntrySize * (n + m + 1) ≤ u32 (l.length * bytesPerClus fs.bpb))

include hh hf hin

omit hh hin in
theorem ino_ne_root {f : File} {k : Nat} (hcap : k < l.length * bytesPerClus fs.bpb)
    (hparent : f.parentClus = dir.fstClus) : f.ino ≠ kRootDirIno := by
  rcases hf.chain with ⟨-, rfl⟩ | ⟨hdata, -⟩
  · simp at hcap
  · have := hdata.1
    rw [File.ino, hparent, kRootDirIno]
    omega

theorem slots_on_device : ∀ a ∈ (List.range (m + 1)).map fun j => fs.bpb.slot l (n + j),
    a.1 < fs.device.secCnt := by
  intro a ha
  obtain ⟨j, hj, rfl⟩ := List.mem_map.mp ha
  have hpos := (slots_inside hin j (by have := List.mem_range.mp hj; omega)).1
  exact (BPB.slot_bounds hh.sound hf.chain.data hpos).2.trans_le hh.fits

theorem entrySlots_eq : (List.range (m + 1)).mapM (fun j => dir.entrySlot fs (n + j)) =
    some ((List.range (m + 1)).map fun j => fs.bpb.slot l (n + j)) := by
  refine mapM_of_some fun j hj => ?_
  obtain ⟨hcap, hlt⟩ := slots_inside hin j (by have := List.mem_range.mp hj; omega)
  exact hf.entrySlot hh hcap hlt

theorem slots_order_iff : Cursor.slots fs.bpb l m (.start fs.bpb (n * kDirEntrySize)) =
      (List.range (m + 1)).mapM (fun j => dir.entrySlot fs (n + j)) ↔ fs.bpb.SlotsInOrder l n m := by
  rw [entrySlots_eq hh hf hin, Nat.mul_comm]
  exact Cursor.slots_iff hh.sound hf.chain.data (slots_inside hin m le_rfl).1

variable (hslots : Cursor.slots fs.bpb l m (.start fs.bpb (n * kDirEntrySize)) =
    some ((List.range (m + 1)).map fun j => fs.bpb.slot l (n + j)))
  (hlive : fs.LiveGroup l n m)

include hslots hlive

theorem File.fromIno_reads (cs : Charset) : File.fromIno cs fs (dir.fstClus * 2 ^ 32 + n) =
    (groupData ((List.range (m + 1)).map fun j => fs.entryAt l (n + j)) [] none).bind fun
      | none => some none
      | some g => (File.ofGroup cs dir.fstClus n g).map some := by
  obtain ⟨hcap, hlt⟩ := slots_inside hin 0 (Nat.zero_le m)
  have hn : n < 2 ^ 32 := by
    simp only [kDirEntrySize] at hlt
    omega
  have hparent : (dir.fstClus * 2 ^ 32 + n) / 2 ^ 32 = dir.fstClus := by omega
  have hentry : (dir.fstClus * 2 ^ 32 + n) % 2 ^ 32 = n := by omega
  have hne : l ≠ [] := by
    rintro rfl
    simp at hcap
  have hread := hh.represents.readClusChains_of (hh.bpb.symm ▸ hf.chain)
  have hloop := File.fromInoLoop_eq (lt_slotFuel hin) hslots (slots_on_device hh hf hin) hlive.groupAt
    [] none
  rw [List.map_map] at hloop
  rw [File.fromIno]
  simp only [hparent, hentry, hread, Option.bind_eq_bind, Option.bind_some, decide_eq_true hne,
    assert_true, u32_of_lt (show n * kDirEntrySize < 2 ^ 32 by rw [Nat.mul_comm]; exact hlt)]
  rw [hloop]
  refine congrArg _ (funext fun r => ?_)
  rcases r with _ | g
  · rfl
  · exact Option.map_eq_bind.symm

omit hlive in
/-- `sync` writes the metadata of the object to the short entry it comes to. -/
theorem File.sync_updates (hgroup : GroupAt fs.device ((List.range (m + 1)).map fun j => fs.bpb.slot l (n + j)))
    {f : File} {lf : List Nat} (hplaced : f.Placed fs lf)
    (hparent : f.parentClus = dir.fstClus) (hnum : f.fstEntryNum = n) (hdel : f.isDeleted = false) :
    ∃ d' f', f.sync fs true = some ({ fs with device := d' }, f') ∧ d'.secCnt = fs.device.secCnt ∧
      d'.entry (fs.bpb.slot l (n + m)) =
        castShortDirEntryToLong (f.updated (castLongDirEntryToShort (fs.entryAt l (n + m)))) ∧
      ∀ s i, (∀ k < kDirEntrySize, (s, i) ≠
        ((fs.bpb.slot l (n + m)).1, (fs.bpb.slot l (n + m)).2 + k)) →
        d'.value s i = fs.device.value s i := by
  have hs := hh.sound
  have hcap := (slots_inside hin m le_rfl).1
  have hbound := BPB.slot_bounds hs hf.chain.data hcap
  set x := fs.bpb.slot l (n + m) with hx
  set e := castShortDirEntryToLong (f.updated (castLongDirEntryToShort (fs.entryAt l (n + m)))) with he
  have hbytes : (f.updated (.ofBytes (fs.device.bytesAt x))).bytes = e.bytes := by
    rw [he, bytes_castShortDirEntryToLong, FAT32fs.entryAt, Device.entry, castLongDirEntryToShort_ofBytes]
  have hino := ino_ne_root hf (slots_inside hin 0 (Nat.zero_le m)).1 hparent
  have hloop := File.syncLoop_eq (lt_slotFuel hin) hslots (slots_on_device hh hf hin) hgroup
  rw [List.range_succ, List.map_append, List.map_singleton, List.getLast?_concat] at hloop
  have hmeta : f.syncMeta fs = some { fs with device := fs.device.write x.1 x.2 e.bytes } := by
    rw [File.syncMeta, hparent, hh.represents.readClusChains_of (hh.bpb.symm ▸ hf.chain), hnum]
    simp only [Option.bind_eq_bind, Option.bind_some]
    rw [hloop, ← hbytes]
    rfl
  obtain ⟨hh', htable⟩ := hh.of_data (fs.device.write x.1 x.2 e.bytes) rfl fun s hlow =>
    funext fun i => fs.device.value_write_of_ne x.1 x.2 e.bytes (by omega) i
  obtain ⟨d', hrun, hback⟩ := (hplaced.of_data htable).syncSectors hh'
  refine ⟨d', f.cached lf, ?_, hback.secCnt, ?_, fun s i hout => ?_⟩
  · simpa [File.sync, hdel, hino, hmeta] using hrun
  · rw [Device.entry_congr (congrFun hback.value x.1)]
    exact fs.device.entry_write x e
  · rw [hback.value]
    by_cases hs' : s = x.1
    · subst hs'
      refine fs.device.value_write_outside _ _ _ ?_ _
      by_contra hin'
      rw [e.length_bytes] at hin'
      exact hout (i - x.2) (by omega) (by rw [Nat.add_sub_cancel' (by omega)])
    · exact fs.device.value_write_of_ne _ _ _ hs' i

omit hlive in
/-- `selfDestruct` marks the slots up to the short entry and releases the chain of the object. -/
theorem File.selfDestruct_eq (hgroup : GroupAt fs.device ((List.range (m + 1)).map fun j => fs.bpb.slot l (n + j)))
    {f : File} {lf : List Nat} (hplaced : f.Placed fs lf)
    (hparent : f.parentClus = dir.fstClus) (hnum : f.fstEntryNum = n) (hdel : f.isDeleted = false) :
    ∃ d', f.selfDestruct fs = some (⟨fs.bpb, fs.fat.incTimes lf.length, d'⟩, { f with isDeleted := true }) ∧
      (∀ x ∈ lf, ∀ i < fs.bpb.numFats.toNat, (fs.fat.incTimes lf.length).copyEntry d' i x = 0) ∧
      fs.bpb.OnlyFat (fs.device.erased ((List.range (m + 1)).map fun j => fs.bpb.slot l (n + j))) d' ∧
      FAT32fs.Mounted ⟨fs.bpb, fs.fat.incTimes lf.length, d'⟩ ∧
      ∀ x, fs.bpb.DataClus x →
        FAT32fs.table ⟨fs.bpb, fs.fat.incTimes lf.length, d'⟩ x = if x ∈ lf then 0 else fs.table x := by
  have hs := hh.sound
  have hino := ino_ne_root hf (slots_inside hin 0 (Nat.zero_le m)).1 hparent
  set slots := (List.range (m + 1)).map fun j => fs.bpb.slot l (n + j) with hslotsdef
  have haligned : Aligned slots := fs.bpb.slots_aligned l n (m + 1)
  have hloop := File.destroyLoop_eq (lt_slotFuel hin) hslots (slots_on_device hh hf hin) haligned hgroup
  obtain ⟨hh', htable⟩ := hh.of_data (fs.device.erased slots) rfl fun s hlow =>
    funext fun i => if_neg fun hin' => by
      obtain ⟨j, hj, hslot⟩ := List.mem_map.mp hin'
      have := (BPB.slot_bounds hs hf.chain.data
        (slots_inside hin j (by have := List.mem_range.mp hj; omega)).1).1
      rw [hslot] at this
      omega
  have hrep := hh'.represents
  obtain ⟨d', hfree, honly, h'⟩ := hrep.freeClus_of (hh'.bpb.symm ▸ (hplaced.of_data htable).chain)
  have hrep' : (fs.fat.incTimes lf.length).Represents d' _ := (FAT.represents_incTimes _).mpr h'
  refine ⟨d', ?_, fun x hx i hi => ?_, hh.bpb ▸ honly, ⟨hrep'.wellFormed, (FAT.bpb_incTimes _).trans hh.bpb⟩,
    fun x hx => ?_⟩
  · rw [File.selfDestruct, if_neg (by simp [hdel, hino]), hparent,
      hh.represents.readClusChains_of (hh.bpb.symm ▸ hf.chain), hnum]
    simp only [Option.bind_eq_bind, Option.bind_some, hloop]
    rw [hfree]
    rfl
  · have hsame : (fs.fat.incTimes lf.length).copyEntry d' i x = fs.fat.copyEntry d' i x := by simp [FAT.copyEntry]
    rw [hsame, hrep.copyEntry_freeClus (hh'.bpb.symm ▸ (hplaced.of_data htable).chain) hfree (by rwa [hh.bpb])
      (by rw [hh.bpb]; exact (hplaced.chain.data x hx).2), if_pos hx]
  · have hentry := h'.entry x (by rw [hh'.bpb]; exact hx.2)
    have hsame : FAT32fs.table ⟨fs.bpb, fs.fat.incTimes lf.length, d'⟩ x = fs.fat.entry d' x := by
      simp [FAT32fs.table, FAT.entry]
    rw [hsame, hentry, fill, htable x hx]

/-- On a live group `selfDestruct` deletes just its entries. -/
theorem File.selfDestruct_deletes {f : File} {lf : List Nat} (hplaced : f.Placed fs lf)
    (hparent : f.parentClus = dir.fstClus) (hnum : f.fstEntryNum = n) (hdel : f.isDeleted = false) :
    ∃ fs' : FAT32fs, f.selfDestruct fs = some (fs', { f with isDeleted := true }) ∧ fs'.bpb = fs.bpb ∧
      (∀ j ≤ m, fs'.entryAt l (n + j) = setDirEntryEmpty (fs.entryAt l (n + j))) ∧
      (∀ s ≥ getFirstDataSector fs.bpb, ∀ i, (∀ j ≤ m, (s, i) ≠ fs.bpb.slot l (n + j)) →
        fs'.device.value s i = fs.device.value s i) ∧
      ∀ x, fs.bpb.DataClus x → fs'.table x = if x ∈ lf then 0 else fs.table x := by
  obtain ⟨d', hrun, -, honly, -, htable⟩ := File.selfDestruct_eq hh hf hin hslots hlive.groupAt hplaced hparent hnum hdel
  have hdata : ∀ s ≥ getFirstDataSector fs.bpb, d'.value s = (fs.device.erased _).value s :=
    fun s hlow => honly.value s (.inr hlow)
  have hmem : ∀ j ≤ m, fs.bpb.slot l (n + j) ∈ (List.range (m + 1)).map fun j => fs.bpb.slot l (n + j) :=
    fun j hj => List.mem_map.mpr ⟨j, List.mem_range.mpr (by omega), rfl⟩
  refine ⟨_, hrun, rfl, fun j hj => ?_, fun s hlow i hout => ?_, htable⟩
  · have hbound := BPB.slot_bounds hh.sound hf.chain.data (slots_inside hin j hj).1
    have hentry : d'.entry (fs.bpb.slot l (n + j)) = (fs.device.erased _).entry (fs.bpb.slot l (n + j)) :=
      Device.entry_congr (hdata _ hbound.1)
    exact hentry.trans (Device.entry_erased (fs.bpb.slots_aligned l n (m + 1)) (hmem j hj))
  · rw [hdata s hlow]
    refine if_neg fun hin' => ?_
    obtain ⟨j, hj, hslot⟩ := List.mem_map.mp hin'
    exact hout j (by have := List.mem_range.mp hj; omega) hslot.symm

end inside

end directory

/-- `readDirEntry` returns the entries of a directory, and the walks from entry `n` keep to the entries it returns exactly when the clusters are in order. -/
theorem File.ownSlots_iff (cs : Charset) (fs : FAT32fs) (dir : File) (l : List Nat)
    (n m : Nat) (hm : fs.Mounted) (hf : dir.Placed fs l) (hdir : dir.isDir = true)
    (hin : kDirEntrySize * (n + m + 1) ≤ u32 (l.length * bytesPerClus fs.bpb)) (now : FatTimeStamp) :
    (∀ j ≤ m, ∃ g, dir.readDirEntry fs (n + j) now = some (some (fs.entryAt l (n + j)), g)) ∧
      (fs.OwnSlots cs dir l n m ↔ fs.bpb.SlotsInOrder l n m) := by
  have horder := slots_order_iff hm hf hin
  refine ⟨fun j hj => ?_, fun hown => horder.mp hown.sync_slots, fun h => ?_⟩
  · obtain ⟨g, hread, -⟩ := hf.readDirEntry hm hdir (k := n + j)
      (by simp only [kDirEntrySize] at hin ⊢; omega) now
    exact ⟨g, hread⟩
  · have hlt := (slots_inside hin 0 (Nat.zero_le m)).2
    have hslots := (horder.mpr h).trans (entrySlots_eq hm hf hin)
    refine ⟨?_, horder.mpr h, fun hlive => File.fromIno_reads hm hf hin hslots hlive cs,
      fun hlive f lf hplaced hparent hnum hdel => ?_,
      fun hlive f lf => File.selfDestruct_deletes hm hf hin hslots hlive⟩
    · rw [u32_of_lt (by rw [Nat.mul_comm]; exact hlt)]
      exact horder.mpr h
    · obtain ⟨d', f', hrun, -, hentry, hkept⟩ :=
        File.sync_updates hm hf hin hslots hlive.groupAt hplaced hparent hnum hdel
      exact ⟨d', f', hrun, hentry, hkept⟩

/-! A root directory whose clusters are 2 and 4, with a file in the first entry of cluster 4. -/

def scatteredEntry : ShortDirEntry :=
  ⟨Vector.ofFn fun i => if i = 0 then 0x41 else 0x20, 0x20, 0, ⟨0, 0, 0⟩, 0, 0, ⟨0, 0⟩, 0, 0⟩

def scatteredFs : FAT32fs :=
  ⟨smallBpb, (smallRun (smallTable [2, 4])).fat,
    (smallRun (smallTable [2, 4])).device.write 36 0 (castShortDirEntryToLong scatteredEntry).bytes⟩

def rootDir : File where
  parentClus := 0
  fstEntryNum := 0
  fstClus := 2
  name := [0x2F]
  crtTime := ⟨0, 0, 0⟩
  accDate := 0
  wrtTime := ⟨0, 0⟩
  fileSz_ := 0
  isDeleted := false
  clusChain_ := none
  isDir := true

theorem smallRoot_healthy {c s : Nat} (hc : c = 3 ∨ c = 4) (hlow : 34 ≤ s) (buf : List UInt8) :
    FAT32fs.Healthy ⟨smallBpb, (smallRun (smallTable [2, c])).fat,
      (smallRun (smallTable [2, c])).device.write s 0 buf⟩ {2} ∧
    rootDir.Placed ⟨smallBpb, (smallRun (smallTable [2, c])).fat,
      (smallRun (smallTable [2, c])).device.write s 0 buf⟩ [2, c] := by
  obtain ⟨howned, hchain⟩ : (smallRun (smallTable [2, c])).Owned ∧
      smallBpb.Chain (smallRun (smallTable [2, c])).table 2 [2, c] := by
    rcases hc with rfl | rfl <;> exact smallRun_root (by decide) (by decide)
  have hh : FAT32fs.Healthy ⟨smallBpb, (smallRun (smallTable [2, c])).fat, (smallRun (smallTable [2, c])).device⟩ {2} :=
    ⟨howned, rfl⟩
  obtain ⟨hh', htable⟩ := hh.of_data ((smallRun (smallTable [2, c])).device.write s 0 buf) rfl fun s' hlow' =>
    funext fun i => Device.value_write_of_ne _ _ _ _ (fun heq => Nat.not_lt.mpr hlow
      (Nat.lt_of_lt_of_le (heq ▸ hlow') (show getFirstDataSector smallBpb ≤ 34 by decide))) i
  have hplaced : rootDir.Placed ⟨smallBpb, (smallRun (smallTable [2, c])).fat,
      (smallRun (smallTable [2, c])).device⟩ [2, c] := ⟨.inr ⟨show smallBpb.DataClus 2 by decide, hchain⟩, .inl rfl⟩
  exact ⟨hh', hplaced.of_data htable⟩

theorem scatteredFs_healthy : scatteredFs.Healthy {2} ∧ rootDir.Placed scatteredFs [2, 4] :=
  smallRoot_healthy (.inr rfl) (by decide) _

theorem File.ownSlots_iff_first_cluster :
    scatteredFs.OwnSlots ⟨some, some, some, some⟩ rootDir [2, 4] 15 1 ↔
      scatteredFs.bpb.SlotsInOrder [2, 4] 15 1 :=
  (File.ownSlots_iff ⟨some, some, some, some⟩ scatteredFs rootDir [2, 4] 15 1 scatteredFs_healthy.1.mounted
    scatteredFs_healthy.2 rfl (by decide) ⟨0, 0⟩).2

/-- The walks look for the file of entry 16 in cluster 3. -/
theorem not_ownSlots_second_cluster : scatteredFs.LiveGroup [2, 4] 16 0 ∧
    ¬ scatteredFs.OwnSlots ⟨some, some, some, some⟩ rootDir [2, 4] 16 0 := by
  have hentry : scatteredFs.entryAt [2, 4] 16 = castShortDirEntryToLong scatteredEntry :=
    Device.entry_write _ (36, 0) _
  constructor
  · refine ⟨fun j hj => ?_, fun j hj => absurd hj (Nat.not_lt_zero j), ?_⟩
    · obtain rfl : j = 0 := by omega
      rw [Nat.add_zero, hentry]
      decide
    · rw [Nat.add_zero, hentry]
      decide
  · intro hown
    have horder := (slots_order_iff scatteredFs_healthy.1.mounted scatteredFs_healthy.2 (by decide)).mp
      hown.sync_slots
    rcases horder with hfst | hflat
    · exact absurd hfst (by decide)
    · exact absurd (hflat 1 (by decide) (by decide)) (by decide)

end FuseFat32
