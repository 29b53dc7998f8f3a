import FuseFat32.Fat.Count
import FuseFat32.Fs.File
import FuseFat32.Library.Layout

/-!
# The contents of a file

A chain of clusters lays the positions of a file out over the sectors of the device, position `q` in sector `q / 512` of the chain. The layout is injective, because the clusters of a chain are different and no two clusters share a sector. `File::read` loads a run of this layout and the loops of `File::write` store one, whatever the alignment of the run and however the chain is scattered.
-/

namespace FuseFat32

open LinkedTable Layout

/-- A byte of the device, as clients see it. -/
def Device.byte (d : Device) (x : Nat × Nat) : UInt8 := d.value x.1 x.2

/-- The number of the `n`th sector of a chain, without truncation. -/
def BPB.chainSector (bpb : BPB) (l : List Nat) (n : Nat) : Nat :=
  getFirstSectorOfCluster bpb (l.getD (n / bpb.secPerClus.toNat) 0) + n % bpb.secPerClus.toNat

/-- Where position `q` of a chain lies. -/
def BPB.chainLoc (bpb : BPB) (l : List Nat) (q : Nat) : Nat × Nat :=
  (bpb.chainSector l (q / sectorSize), q % sectorSize)

theorem sectorSize_pos : 0 < sectorSize := by decide

section layout

variable {bpb : BPB} {l : List Nat}

theorem BPB.Sound.bytesPerClus_eq (hs : bpb.Sound) :
    bytesPerClus bpb = bpb.secPerClus.toNat * sectorSize := by
  rw [bytesPerClus, hs.bytesPerSec]

theorem BPB.Sound.bytesPerClus_pos (hs : bpb.Sound) : 0 < bytesPerClus bpb := by
  rw [hs.bytesPerClus_eq]
  exact Nat.mul_pos hs.secPerClus sectorSize_pos

theorem BPB.Sound.sector_lt_of_pos (hs : bpb.Sound) {q : Nat} (hq : q < l.length * bytesPerClus bpb) :
    q / sectorSize < l.length * bpb.secPerClus.toNat := by
  rw [hs.bytesPerClus_eq, ← Nat.mul_assoc] at hq
  exact Nat.div_lt_of_lt_mul (by rwa [Nat.mul_comm])

theorem BPB.chainSector_eq {n : Nat} (hn : n < l.length * bpb.secPerClus.toNat) :
    ∃ h : n / bpb.secPerClus.toNat < l.length, bpb.chainSector l n =
      getFirstSectorOfCluster bpb (l[n / bpb.secPerClus.toNat]) + n % bpb.secPerClus.toNat := by
  have hlt : n / bpb.secPerClus.toNat < l.length := Nat.div_lt_of_lt_mul (by rwa [Nat.mul_comm])
  exact ⟨hlt, by rw [BPB.chainSector, List.getD_eq_getElem _ _ hlt]⟩

theorem BPB.chainSector_bounds (hs : bpb.Sound) (hdata : ∀ x ∈ l, bpb.DataClus x) {n : Nat}
    (hn : n < l.length * bpb.secPerClus.toNat) :
    getFirstDataSector bpb ≤ bpb.chainSector l n ∧ bpb.chainSector l n < bpb.totSec32.toNat := by
  obtain ⟨hlt, heq⟩ := BPB.chainSector_eq hn
  rw [heq]
  exact hs.sector_bounds (hdata _ (List.getElem_mem hlt)) (Nat.mod_lt _ hs.secPerClus)

theorem BPB.chainSector_inj (hs : bpb.Sound) (hdata : ∀ x ∈ l, bpb.DataClus x) (hnodup : l.Nodup)
    {m n : Nat} (hm : m < l.length * bpb.secPerClus.toNat) (hn : n < l.length * bpb.secPerClus.toNat)
    (heq : bpb.chainSector l m = bpb.chainSector l n) : m = n := by
  obtain ⟨hmlt, hmeq⟩ := BPB.chainSector_eq hm
  obtain ⟨hnlt, hneq⟩ := BPB.chainSector_eq hn
  rw [hmeq, hneq] at heq
  obtain ⟨hclus, hoff⟩ := hs.sector_injective (hdata _ (List.getElem_mem hmlt))
    (hdata _ (List.getElem_mem hnlt)) (Nat.mod_lt _ hs.secPerClus) (Nat.mod_lt _ hs.secPerClus) heq
  have hidx := (hnodup.getElem_inj_iff).mp hclus
  rw [← Nat.div_add_mod m bpb.secPerClus.toNat, ← Nat.div_add_mod n bpb.secPerClus.toNat, hidx, hoff]

/-- The layout of a chain is injective below its capacity. -/
theorem BPB.chainLoc_injOn (hs : bpb.Sound) (hdata : ∀ x ∈ l, bpb.DataClus x) (hnodup : l.Nodup) :
    Set.InjOn (bpb.chainLoc l) (Set.Iio (l.length * bytesPerClus bpb)) := by
  intro p hp q hq heq
  obtain ⟨hsec, hoff⟩ := Prod.mk.injEq .. ▸ heq
  have hdiv := BPB.chainSector_inj hs hdata hnodup (hs.sector_lt_of_pos hp) (hs.sector_lt_of_pos hq) hsec
  rw [← Nat.div_add_mod p sectorSize, ← Nat.div_add_mod q sectorSize, hdiv, hoff]

theorem BPB.chainLoc_sector (bpb : BPB) (l : List Nat) {n i : Nat} (hi : i < sectorSize) :
    bpb.chainLoc l (n * sectorSize + i) = (bpb.chainSector l n, i) := by
  have hdiv : (n * sectorSize + i) / sectorSize = n := by
    rw [Nat.mul_comm, Nat.mul_add_div sectorSize_pos, Nat.div_eq_of_lt hi, Nat.add_zero]
  have hmod : (n * sectorSize + i) % sectorSize = i := by
    rw [Nat.mul_comm, Nat.mul_add_mod, Nat.mod_eq_of_lt hi]
  rw [BPB.chainLoc, hdiv, hmod]

theorem BPB.bytes_eq_load (bpb : BPB) (l : List Nat) (d : Device) (n off len : Nat)
    (hlen : off + len ≤ sectorSize) : d.bytes (bpb.chainSector l n) off len =
      load (bpb.chainLoc l) d.byte (n * sectorSize + off) len := by
  refine List.map_congr_left fun k hk => ?_
  rw [List.mem_range] at hk
  rw [Nat.add_assoc, bpb.chainLoc_sector l (show off + k < sectorSize by omega)]
  rfl

theorem BPB.write_stores (bpb : BPB) (l : List Nat) (d : Device) (n off : Nat) {buf : List UInt8}
    (hlen : off + buf.length ≤ sectorSize) :
    Stores (bpb.chainLoc l) d.byte (d.write (bpb.chainSector l n) off buf).byte
      (n * sectorSize + off) buf := by
  refine ⟨fun k hk => ?_, fun x hx => ?_⟩
  · rw [Nat.add_assoc, bpb.chainLoc_sector l (show off + k < sectorSize by omega), Device.byte,
      d.value_write_inside _ _ _ (Nat.le_add_right _ _) (by omega), Nat.add_sub_cancel_left,
      List.getD_eq_getElem _ _ hk, List.getElem?_eq_getElem hk]
  · obtain ⟨s, i⟩ := x
    by_cases hs : s = bpb.chainSector l n
    · by_cases hi : off ≤ i ∧ i < off + buf.length
      · have := hx (i - off) (by omega)
        rw [Nat.add_assoc, bpb.chainLoc_sector l (show off + (i - off) < sectorSize by omega)] at this
        exact absurd (by rw [hs, Nat.add_sub_cancel' hi.1]) this
      · exact d.value_write_outside _ _ _ (by omega) s
    · exact d.value_write_of_ne _ _ _ hs i

theorem sectorOfChain_of_lt (hs : bpb.Sound) (hdata : ∀ x ∈ l, bpb.DataClus x)
    (hlen : l.length ≤ bpb.clusCnt) {n : Nat} (hn : n < l.length * bpb.secPerClus.toNat) :
    sectorOfChain bpb l n = some (bpb.chainSector l n) := by
  have hbound := BPB.chainSector_bounds hs hdata hn
  have htot := bpb.totSec32.toNat_lt
  have hfit := hs.clusters_fit
  have hmul : l.length * bpb.secPerClus.toNat ≤ bpb.clusCnt * bpb.secPerClus.toNat :=
    Nat.mul_le_mul_right _ hlen
  have hsec : getFirstSectorOfCluster bpb (l.getD (n / bpb.secPerClus.toNat) 0) +
      n % bpb.secPerClus.toNat < 2 ^ 32 := hbound.2.trans htot
  simp only [sectorOfChain]
  rw [u32_of_lt (show l.length * bpb.secPerClus.toNat < 2 ^ 32 by omega), if_neg (by omega),
    u32_of_lt hsec]
  rfl

theorem sectorOfChain_of_ge {n : Nat} (hn : l.length * bpb.secPerClus.toNat ≤ n) :
    sectorOfChain bpb l n = none := by
  have hle : u32 (l.length * bpb.secPerClus.toNat) ≤ l.length * bpb.secPerClus.toNat := Nat.mod_le _ _
  simp only [sectorOfChain]
  rw [if_pos (by omega)]

end layout

/-! ### Objects and their chains -/

/-- The file system as a state of its FAT, with the heads of the live chains. -/
def FAT32fs.run (fs : FAT32fs) (heads : Set Nat) : FatRun := ⟨fs.fat, fs.device, heads⟩

/-- The table of the mounted volume. -/
def FAT32fs.table (fs : FAT32fs) : Nat → Nat := fs.fat.entry fs.device

/-- The FAT object belongs to the volume and fits the device. -/
structure FAT32fs.Mounted (fs : FAT32fs) : Prop where
  wellFormed : fs.fat.WellFormed fs.device
  bpb : fs.fat.bpb = fs.bpb

/-- Chains are well formed and disjoint, and no hint is pending. -/
structure FAT32fs.Healthy (fs : FAT32fs) (heads : Set Nat) : Prop where
  owned : (fs.run heads).Owned
  bpb : fs.fat.bpb = fs.bpb

/-- The clusters of the object are `l`, and its cache does not say otherwise. -/
structure File.Placed (fs : FAT32fs) (f : File) (l : List Nat) : Prop where
  chain : fs.bpb.ChainOf fs.table f.fstClus l
  cache : f.clusChain_ = none ∨ f.clusChain_ = some l

/-- The object once it has cached its chain. -/
def File.cached (f : File) (l : List Nat) : File := { f with clusChain_ := some l }

section objects

variable {fs : FAT32fs} {heads : Set Nat} {f : File} {l : List Nat}

theorem FAT32fs.Mounted.represents (hm : fs.Mounted) : fs.fat.Represents fs.device fs.table :=
  hm.wellFormed.represents

theorem FAT32fs.Mounted.sound (hm : fs.Mounted) : fs.bpb.Sound := hm.bpb ▸ hm.wellFormed.sound

theorem FAT32fs.Mounted.fits (hm : fs.Mounted) : fs.bpb.totSec32.toNat ≤ fs.device.secCnt :=
  hm.bpb ▸ hm.wellFormed.fits

theorem FAT32fs.Healthy.mounted (hh : fs.Healthy heads) : fs.Mounted := ⟨hh.owned.wellFormed, hh.bpb⟩

theorem FAT32fs.Healthy.represents (hh : fs.Healthy heads) : fs.fat.Represents fs.device fs.table :=
  hh.owned.represents

theorem FAT32fs.Healthy.fresh (hh : fs.Healthy heads) {n : Nat} (hpos : 0 < n)
    (hfree : n ≤ (fs.fat.freeList fs.table).length) :
    (fs.fat.freeList fs.table).take n ≠ [] ∧ ((fs.fat.freeList fs.table).take n).Nodup ∧
      (∀ x ∈ (fs.fat.freeList fs.table).take n, fs.fat.bpb.DataClus x) ∧
      ∀ x ∈ (fs.fat.freeList fs.table).take n, fs.table x = 0 :=
  hh.owned.fresh hpos hfree

theorem FAT32fs.Healthy.sound (hh : fs.Healthy heads) : fs.bpb.Sound := hh.mounted.sound

theorem FAT32fs.Healthy.fits (hh : fs.Healthy heads) : fs.bpb.totSec32.toNat ≤ fs.device.secCnt :=
  hh.mounted.fits

/-- Changes in the data sectors change no entry of the FAT. -/
theorem FAT32fs.Mounted.of_data (hm : fs.Mounted) (d' : Device) (hcnt : d'.secCnt = fs.device.secCnt)
    (hval : ∀ s < getFirstDataSector fs.bpb, d'.value s = fs.device.value s) :
    FAT32fs.Mounted { fs with device := d' } ∧
      ∀ x, fs.bpb.DataClus x → FAT32fs.table { fs with device := d' } x = fs.table x := by
  have hrep : fs.fat.Represents d' fs.table := hm.represents.of_data hcnt fun s _ hlow =>
    hval s (hm.bpb ▸ hlow)
  exact ⟨⟨hrep.wellFormed, hm.bpb⟩, fun x hx => hrep.entry x (by rw [hm.bpb]; exact hx.2)⟩

theorem FAT32fs.Healthy.of_data (hh : fs.Healthy heads) (d' : Device)
    (hcnt : d'.secCnt = fs.device.secCnt)
    (hval : ∀ s < getFirstDataSector fs.bpb, d'.value s = fs.device.value s) :
    FAT32fs.Healthy { fs with device := d' } heads ∧
      ∀ x, fs.bpb.DataClus x → FAT32fs.table { fs with device := d' } x = fs.table x := by
  obtain ⟨hm, htable⟩ := hh.mounted.of_data d' hcnt hval
  refine ⟨⟨⟨hm.wellFormed, hh.owned.hint, hh.owned.owners.frame fun head hhead l₂ hw x hx => ?_⟩,
    hh.bpb⟩, htable⟩
  have hgood := hh.owned.owners.good_of_mem hhead hw hx
  exact htable x (by rw [← hh.bpb]; exact hgood)

theorem File.Placed.of_data (hf : f.Placed fs l) {d' : Device}
    (htable : ∀ x, fs.bpb.DataClus x → FAT32fs.table { fs with device := d' } x = fs.table x) :
    f.Placed { fs with device := d' } l :=
  ⟨hf.chain.congr fun x hx => htable x (hf.chain.data x hx), hf.cache⟩

theorem File.Placed.cached (hf : f.Placed fs l) : (f.cached l).Placed fs l := ⟨hf.chain, .inr rfl⟩

theorem File.Placed.readClusChain (hh : fs.Mounted) (hf : f.Placed fs l) :
    f.readClusChain fs = some (l, f.cached l) := by
  rcases hf.cache with hnone | hsome
  · have hread := hh.represents.readClusChains_of (hh.bpb.symm ▸ hf.chain)
    simp only [File.readClusChain, hnone, hread, Option.bind_eq_bind, Option.bind_some]
    rfl
  · simp only [File.readClusChain, hsome, File.cached]
    cases f
    obtain rfl := hsome
    rfl

theorem File.readSector_cached (hs : fs.bpb.Sound) (hfits : fs.bpb.totSec32.toNat ≤ fs.device.secCnt)
    (hdata : ∀ x ∈ l, fs.bpb.DataClus x) (hlen : l.length ≤ fs.bpb.clusCnt)
    (hcache : f.clusChain_ = some l) {n : Nat} (hn : n < l.length * fs.bpb.secPerClus.toNat) :
    f.readSector fs n = some (some (fs.bpb.chainSector l n), f) := by
  have hsec := sectorOfChain_of_lt hs hdata hlen hn
  have hlt := (BPB.chainSector_bounds hs hdata hn).2
  have hdev : fs.bpb.chainSector l n < fs.device.secCnt := by omega
  simp [File.readSector, File.sectorNo, File.readClusChain, hcache, hsec, hdev]

theorem File.readSector_cached_past (hcache : f.clusChain_ = some l) {n : Nat}
    (hn : l.length * fs.bpb.secPerClus.toNat ≤ n) : f.readSector fs n = some (none, f) := by
  simp [File.readSector, File.sectorNo, File.readClusChain, hcache, sectorOfChain_of_ge hn]

theorem File.Placed.readSector (hh : fs.Mounted) (hf : f.Placed fs l) {n : Nat}
    (hn : n < l.length * fs.bpb.secPerClus.toNat) :
    f.readSector fs n = some (some (fs.bpb.chainSector l n), f.cached l) := by
  have hsec := sectorOfChain_of_lt hh.sound hf.chain.data hf.chain.length_le hn
  have hlt := (BPB.chainSector_bounds hh.sound hf.chain.data hn).2
  have hfits := hh.fits
  have hdev : fs.bpb.chainSector l n < fs.device.secCnt := by omega
  simp [File.readSector, File.sectorNo, hf.readClusChain hh, hsec, hdev]

theorem File.Placed.readSector_past (hh : fs.Mounted) (hf : f.Placed fs l) {n : Nat}
    (hn : l.length * fs.bpb.secPerClus.toNat ≤ n) :
    f.readSector fs n = some (none, f.cached l) := by
  simp [File.readSector, File.sectorNo, hf.readClusChain hh, sectorOfChain_of_ge hn]

/-! ### Reading -/

private theorem BPB.Sound.index_lt {bpb : BPB} (hs : bpb.Sound) {n : Nat}
    (hn : n * sectorSize < l.length * bytesPerClus bpb) : n < l.length * bpb.secPerClus.toNat := by
  have := hs.sector_lt_of_pos hn
  rwa [Nat.mul_div_cancel _ sectorSize_pos] at this

/-- The loop of `read` loads whole sectors and the start of the last one. -/
theorem File.readLoop_eq (hh : fs.Mounted) (hf : f.Placed fs l) (hcache : f.clusChain_ = some l)
    (fuel : Nat) : ∀ (n remained : Nat) (buf : List UInt8), remained < fuel →
    n * sectorSize + remained ≤ l.length * bytesPerClus fs.bpb →
    File.readLoop fs fuel f n remained buf =
      some (buf ++ load (fs.bpb.chainLoc l) fs.device.byte (n * sectorSize) remained, f) := by
  have hs := hh.sound
  induction fuel with
  | zero => exact fun n remained buf hfuel => absurd hfuel (Nat.not_lt_zero _)
  | succ fuel ih =>
    intro n remained buf hfuel hcap
    rw [File.readLoop]
    by_cases hzero : remained = 0
    · simp [hzero]
    · have hsector := File.readSector_cached hs hh.fits hf.chain.data hf.chain.length_le hcache
        (hs.index_lt (show n * sectorSize < _ by omega))
      have hwrt := fs.bpb.bytes_eq_load l fs.device n 0 (min sectorSize remained) (by omega)
      rw [if_neg hzero, hsector]
      simp only [Option.bind_eq_bind, Option.bind_some, hs.bytesPerSec, hwrt, Nat.add_zero]
      by_cases hlast : remained ≤ sectorSize
      · obtain ⟨fuel, rfl⟩ : ∃ k, fuel = k + 1 := ⟨fuel - 1, by omega⟩
        rw [Nat.min_eq_right hlast, Nat.sub_self, File.readLoop, if_pos rfl]
      · have hnext : (n + 1) * sectorSize = n * sectorSize + sectorSize := by ring
        rw [Nat.min_eq_left (by omega), ih (n + 1) _ _ (by have := sectorSize_pos; omega) (by omega),
          List.append_assoc, hnext, ← load_add, Nat.add_sub_cancel' (by omega)]

/-- The first object has become the second by being read: only the access date and the cache differ. -/
def File.Same (f g : File) : Prop := g = { f with accDate := g.accDate, clusChain_ := g.clusChain_ }

theorem File.same_cached (f : File) (l : List Nat) : f.Same (f.cached l) := rfl

theorem File.Same.trans {f g h : File} (hfg : f.Same g) (hgh : g.Same h) : f.Same h := by
  unfold File.Same at hfg hgh ⊢
  rw [hgh, hfg]

/-- What an object sees as its size, and that asking for it at most fills the cache. -/
structure File.Sized (fs : FAT32fs) (f : File) (l : List Nat) (sz : Nat) : Prop where
  run : ∃ g, f.fileSz fs = some (sz, g) ∧ f.Same g ∧ g.Placed fs l
  fits : sz ≤ l.length * bytesPerClus fs.bpb

/-- `read` returns the contents of its run, cut at the end of the file. -/
theorem File.Placed.read_eq (hh : fs.Mounted) {sz : Nat} (hsz : f.Sized fs l sz)
    (size offset : Nat) (now : FatTimeStamp) : ∃ g,
    f.read fs size offset now =
      some (load (fs.bpb.chainLoc l) fs.device.byte offset (min size (sz - offset)), g) ∧
    f.Same g ∧ g.Placed fs l := by
  have hs := hh.sound
  have hbps := hs.bytesPerSec
  obtain ⟨g, hrun, hsame, hg⟩ := hsz.run
  have hfits := hsz.fits
  by_cases hpast : sz ≤ offset
  · refine ⟨g, ?_, hsame, hg⟩
    simp [File.read, hbps, hrun, hpast, sectorSize_pos.ne']
  · have hpos : offset / sectorSize * sectorSize + offset % sectorSize = offset := Nat.div_add_mod' _ _
    have hmod := Nat.mod_lt offset sectorSize_pos
    have hsector := hg.readSector hh (hs.sector_lt_of_pos (show offset < _ by omega))
    set remained := min size (sz - offset) with hremained
    set wrt := min remained (sectorSize - offset % sectorSize) with hwrt
    have hfirst := fs.bpb.bytes_eq_load l fs.device (offset / sectorSize) (offset % sectorSize) wrt
      (by omega)
    rw [hpos] at hfirst
    have hloop : File.readLoop fs (remained + 1) (g.cached l) (offset / sectorSize + 1) (remained - wrt)
        (load (fs.bpb.chainLoc l) fs.device.byte offset wrt) =
        some (load (fs.bpb.chainLoc l) fs.device.byte offset remained, g.cached l) := by
      by_cases hlast : remained ≤ sectorSize - offset % sectorSize
      · rw [show wrt = remained by omega, Nat.sub_self, File.readLoop, if_pos rfl]
      · have hnext : (offset / sectorSize + 1) * sectorSize = offset + wrt := by
          rw [Nat.add_mul, Nat.one_mul]
          omega
        rw [File.readLoop_eq hh hg.cached rfl (remained + 1) _ _ _ (by omega) (by omega), hnext,
          ← load_add, Nat.add_sub_cancel' (by omega)]
    refine ⟨(g.cached l).setAccTime now, ?_, ?_, hg.chain, .inr rfl⟩
    · simp only [File.read, hbps, hrun, Option.bind_eq_bind, Option.bind_some, hsector, hfirst,
        ← hremained, ← hwrt, hloop]
      simp [sectorSize_pos.ne', hpast]
    · exact hsame.trans rfl

end objects

end FuseFat32
