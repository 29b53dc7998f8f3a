import FuseFat32.Fs.Content

/-!
# Writing to a file

`File::write` first makes the chain as long as the end of the run needs and then stores the run sector by sector. Either there is no room, and nothing but the cached count changes, or the run is stored: reads return it, everything below the old size outside of it is kept, and the other chains keep their entries and their bytes.
-/

namespace FuseFat32

open LinkedTable Layout

section overwrite

variable {fs : FAT32fs} {heads : Set Nat} {f : File} {l : List Nat}

/-- The number of bytes of a buffer that lie below the capacity of the chain. -/
def BPB.roomFor (bpb : BPB) (l : List Nat) (buf : List UInt8) (offset : Nat) : Nat :=
  min buf.length (l.length * bytesPerClus bpb - offset)

theorem BPB.roomFor_eq {bpb : BPB} {buf : List UInt8} {offset : Nat}
    (hcap : offset + buf.length ≤ l.length * bytesPerClus bpb) :
    bpb.roomFor l buf offset = buf.length :=
  Nat.min_eq_left (by omega)

/-- The loop of `write` stores whole sectors and the start of the last one, up to the end of the chain. -/
theorem File.writeLoop_eq (hs : fs.bpb.Sound) (hdata : ∀ x ∈ l, fs.bpb.DataClus x) (hnodup : l.Nodup)
    (hlen : l.length ≤ fs.bpb.clusCnt) (hcache : f.clusChain_ = some l) (fuel : Nat) :
    ∀ (d : Device) (n : Nat) (buf : List UInt8), fs.bpb.totSec32.toNat ≤ d.secCnt →
    buf.length < fuel → ∃ d',
      File.writeLoop fuel { fs with device := d } f n buf =
        some (buf.drop (fs.bpb.roomFor l buf (n * sectorSize)), { fs with device := d' }, f) ∧
      d'.secCnt = d.secCnt ∧ d'.stored = d.stored ∧
      Stores (fs.bpb.chainLoc l) d.byte d'.byte (n * sectorSize)
        (buf.take (fs.bpb.roomFor l buf (n * sectorSize))) := by
  have hsz := sectorSize_pos
  have hinj := BPB.chainLoc_injOn hs hdata hnodup
  have hcap : l.length * bytesPerClus fs.bpb = l.length * fs.bpb.secPerClus.toNat * sectorSize := by
    rw [hs.bytesPerClus_eq, Nat.mul_assoc]
  induction fuel with
  | zero => exact fun d n buf _ hfuel => absurd hfuel (Nat.not_lt_zero _)
  | succ fuel ih =>
    intro d n buf hfits hfuel
    rw [File.writeLoop]
    by_cases hnil : buf = []
    · subst hnil
      exact ⟨d, by simp, rfl, rfl, by simpa using Stores.nil _ _ _⟩
    · have hpos : 0 < buf.length := List.length_pos_iff.mpr hnil
      rw [if_neg hnil]
      by_cases hpast : l.length * fs.bpb.secPerClus.toNat ≤ n
      · have hle := Nat.mul_le_mul_right sectorSize hpast
        have hsector := @File.readSector_cached_past { fs with device := d } f l hcache n hpast
        have hzero : fs.bpb.roomFor l buf (n * sectorSize) = 0 := by
          rw [BPB.roomFor]
          omega
        rw [hsector, hzero]
        exact ⟨d, rfl, rfl, rfl, Stores.nil _ _ _⟩
      · have hn : n < l.length * fs.bpb.secPerClus.toNat := Nat.not_le.mp hpast
        have hle := Nat.mul_le_mul_right sectorSize (Nat.succ_le_of_lt hn)
        rw [Nat.succ_mul] at hle
        have hsector := @File.readSector_cached { fs with device := d } f l hs hfits hdata hlen hcache n hn
        rw [hsector]
        simp only [Option.bind_eq_bind, Option.bind_some, hs.bytesPerSec]
        set sz := min sectorSize buf.length with hszdef
        have htake : (buf.take sz).length = sz := List.length_take_of_le (by omega)
        have hdrop : (buf.drop sz).length = buf.length - sz := List.length_drop
        have hfirst := fs.bpb.write_stores l d n 0 (show 0 + (buf.take sz).length ≤ sectorSize by omega)
        rw [Nat.add_zero] at hfirst
        by_cases hlast : buf.length ≤ sectorSize
        · have hall : sz = buf.length := by omega
          have hroom : fs.bpb.roomFor l buf (n * sectorSize) = buf.length := BPB.roomFor_eq (by omega)
          obtain ⟨fuel, rfl⟩ : ∃ k, fuel = k + 1 := ⟨fuel - 1, by omega⟩
          refine ⟨d.write (fs.bpb.chainSector l n) 0 buf, ?_, rfl, rfl, ?_⟩
          · rw [hroom, hall, List.drop_length, List.take_length, File.writeLoop, if_pos rfl]
          · rw [hroom, List.take_length]
            rwa [hall, List.take_length] at hfirst
        · have hnext : (n + 1) * sectorSize = n * sectorSize + (buf.take sz).length := by
            rw [htake, Nat.add_mul, Nat.one_mul]
            omega
          obtain ⟨d', hloop, hcnt, hstored, hrest⟩ :=
            ih (d.write (fs.bpb.chainSector l n) 0 (buf.take sz)) (n + 1) (buf.drop sz) hfits (by omega)
          have hroom : fs.bpb.roomFor l buf (n * sectorSize) =
              sz + fs.bpb.roomFor l (buf.drop sz) ((n + 1) * sectorSize) := by
            rw [BPB.roomFor, BPB.roomFor, hdrop]
            omega
          have hle' : fs.bpb.roomFor l (buf.drop sz) ((n + 1) * sectorSize) ≤
              l.length * bytesPerClus fs.bpb - (n + 1) * sectorSize := Nat.min_le_right _ _
          rw [hroom]
          generalize fs.bpb.roomFor l (buf.drop sz) ((n + 1) * sectorSize) = m at *
          rw [hnext] at hrest hle'
          have hbelow : n * sectorSize + (buf.take sz).length ≤ l.length * bytesPerClus fs.bpb := by
            rw [htake, hcap]
            omega
          refine ⟨d', ?_, hcnt, hstored, ?_⟩
          · rw [hloop, List.drop_drop]
          · rw [List.take_add]
            refine hfirst.append hrest hinj ?_
            have hlen' : ((buf.drop sz).take m).length ≤ m := List.length_take_le _ _
            omega

/-- From a position below the capacity of the chain the buffer is stored up to the end of the chain. -/
theorem File.Placed.overwrite_upto (hh : fs.Mounted) (hf : f.Placed fs l) (buf : List UInt8)
    {offset : Nat} (hin : offset < l.length * bytesPerClus fs.bpb) : ∃ d',
    f.overwrite fs buf offset =
        some (fs.bpb.roomFor l buf offset, { fs with device := d' }, f.cached l) ∧
      d'.secCnt = fs.device.secCnt ∧ d'.stored = fs.device.stored ∧
      Stores (fs.bpb.chainLoc l) fs.device.byte d'.byte offset
        (buf.take (fs.bpb.roomFor l buf offset)) := by
  have hs := hh.sound
  have hoff : offset / sectorSize * sectorSize + offset % sectorSize = offset := Nat.div_add_mod' _ _
  have hmod := Nat.mod_lt offset sectorSize_pos
  have hsec := hs.sector_lt_of_pos hin
  have hsector := hf.readSector hh hsec
  -- the first sector lies in the chain as a whole
  have hwhole : offset / sectorSize * sectorSize + sectorSize ≤ l.length * bytesPerClus fs.bpb := by
    have hle := Nat.mul_le_mul_right sectorSize (Nat.succ_le_of_lt hsec)
    rwa [Nat.succ_mul, Nat.mul_assoc, ← hs.bytesPerClus_eq] at hle
  set sz := min buf.length (sectorSize - offset % sectorSize) with hsz
  have htake : (buf.take sz).length = sz := List.length_take_of_le (by omega)
  have hdrop : (buf.drop sz).length = buf.length - sz := List.length_drop
  have hfirst := fs.bpb.write_stores l fs.device (offset / sectorSize) (offset % sectorSize)
    (show offset % sectorSize + (buf.take sz).length ≤ sectorSize by omega)
  rw [hoff] at hfirst
  set d₁ := fs.device.write (fs.bpb.chainSector l (offset / sectorSize)) (offset % sectorSize)
    (buf.take sz) with hd₁
  have hloop : ∃ d' m, File.writeLoop (buf.length + 1) { fs with device := d₁ } (f.cached l)
      (offset / sectorSize + 1) (buf.drop sz) =
        some ((buf.drop sz).drop m, { fs with device := d' }, f.cached l) ∧
      fs.bpb.roomFor l buf offset = sz + m ∧
      d'.secCnt = fs.device.secCnt ∧ d'.stored = fs.device.stored ∧
      Stores (fs.bpb.chainLoc l) d₁.byte d'.byte (offset + sz) ((buf.drop sz).take m) := by
    by_cases hlast : buf.length ≤ sectorSize - offset % sectorSize
    · have hnil : buf.drop sz = [] := List.drop_eq_nil_of_le (by omega)
      refine ⟨d₁, 0, ?_, ?_, rfl, rfl, Stores.nil _ _ _⟩
      · rw [hnil, File.writeLoop, if_pos rfl]
        rfl
      · rw [BPB.roomFor]
        omega
    · have hnext : (offset / sectorSize + 1) * sectorSize = offset + sz := by
        rw [Nat.add_mul, Nat.one_mul]
        omega
      obtain ⟨d', hrun, hcnt, hstored, hrest⟩ := File.writeLoop_eq hs hf.chain.data hf.chain.nodup
        hf.chain.length_le (f := f.cached l) rfl (buf.length + 1) d₁ (offset / sectorSize + 1)
        (buf.drop sz) hh.fits (by omega)
      rw [hnext] at hrun hrest
      refine ⟨d', _, hrun, ?_, hcnt, hstored, hrest⟩
      rw [BPB.roomFor, BPB.roomFor, hdrop]
      omega
  obtain ⟨d', m, hrun, hroom, hcnt, hstored, hrest⟩ := hloop
  have hle : sz + m ≤ buf.length := hroom ▸ Nat.min_le_left _ _
  refine ⟨d', ?_, hcnt, hstored, ?_⟩
  · simp only [File.overwrite, hs.bytesPerSec, hsector, Option.bind_eq_bind, Option.bind_some, ← hsz,
      ← hd₁, hrun, hroom, List.drop_drop, List.length_drop, Nat.sub_sub_self hle]
    rfl
  · have hcap : offset + (sz + m) ≤ l.length * bytesPerClus fs.bpb := by
      rw [← hroom, BPB.roomFor]
      omega
    have hrest' : Stores (fs.bpb.chainLoc l) d₁.byte d'.byte (offset + (buf.take sz).length)
        ((buf.drop sz).take m) := by rwa [htake]
    rw [hroom, List.take_add]
    refine hfirst.append hrest' (BPB.chainLoc_injOn hs hf.chain.data hf.chain.nodup) ?_
    rw [htake, List.length_take]
    omega

theorem File.Placed.overwrite (hh : fs.Mounted) (hf : f.Placed fs l) (buf : List UInt8)
    {offset : Nat} (hin : offset < l.length * bytesPerClus fs.bpb)
    (hcap : offset + buf.length ≤ l.length * bytesPerClus fs.bpb) : ∃ d',
    f.overwrite fs buf offset = some (buf.length, { fs with device := d' }, f.cached l) ∧
      d'.secCnt = fs.device.secCnt ∧ d'.stored = fs.device.stored ∧
      Stores (fs.bpb.chainLoc l) fs.device.byte d'.byte offset buf := by
  have hover := hf.overwrite_upto hh buf hin
  rwa [BPB.roomFor_eq hcap, List.take_length] at hover

/-- Past the end of the chain there is no sector to write to, and the process stops. -/
theorem File.Placed.overwrite_stops (hh : fs.Mounted) (hf : f.Placed fs l) {buf : List UInt8}
    {offset : Nat} (hpast : l.length * bytesPerClus fs.bpb ≤ offset) :
    f.overwrite fs buf offset = none := by
  have hs := hh.sound
  have hsec : l.length * fs.bpb.secPerClus.toNat ≤ offset / sectorSize := by
    rw [Nat.le_div_iff_mul_le sectorSize_pos, Nat.mul_assoc, ← hs.bytesPerClus_eq]
    exact hpast
  simp [File.overwrite, hs.bytesPerSec, hf.readSector_past hh hsec]

end overwrite

/-! ### Truncating -/

/-- The number of clusters that hold `length` bytes. -/
def BPB.clusFor (bpb : BPB) (length : Nat) : Nat :=
  if length = 0 then 0 else (length - 1) / bytesPerClus bpb + 1

/-- The chain `l` cannot be made long enough for `length` bytes. -/
def FAT32fs.NoRoom (fs : FAT32fs) (l : List Nat) (length : Nat) : Prop :=
  l.length < fs.bpb.clusFor length ∧
    (fs.fat.freeList fs.table).length < fs.bpb.clusFor length - l.length

instance (fs : FAT32fs) (l : List Nat) (length : Nat) : Decidable (fs.NoRoom l length) :=
  inferInstanceAs (Decidable (_ ∧ _))

theorem BPB.Sound.le_clusFor {bpb : BPB} (hs : bpb.Sound) (length : Nat) :
    length ≤ bpb.clusFor length * bytesPerClus bpb := by
  rw [BPB.clusFor]
  split
  · omega
  · have hdiv := Nat.div_add_mod (length - 1) (bytesPerClus bpb)
    have hmod := Nat.mod_lt (length - 1) hs.bytesPerClus_pos
    rw [Nat.add_mul, Nat.one_mul, Nat.mul_comm]
    omega

theorem BPB.clusFor_le {bpb : BPB} {length n : Nat}
    (h : length ≤ n * bytesPerClus bpb) : bpb.clusFor length ≤ n := by
  rw [BPB.clusFor]
  split
  · exact Nat.zero_le n
  · have : (length - 1) / bytesPerClus bpb < n :=
      Nat.div_lt_of_lt_mul (by rw [Nat.mul_comm]; omega)
    omega

theorem BPB.Sound.clusFor_eq {bpb : BPB} (hs : bpb.Sound) (length : Nat) :
    bpb.clusFor length = (length + bytesPerClus bpb - 1) / bytesPerClus bpb := by
  have hpos := hs.bytesPerClus_pos
  rw [BPB.clusFor]
  split
  · next hzero =>
    subst hzero
    exact (Nat.div_eq_of_lt (by omega)).symm
  · rw [show length + bytesPerClus bpb - 1 = length - 1 + bytesPerClus bpb by omega,
      Nat.add_div_right _ hpos]

theorem BPB.clusFor_eq_zero {bpb : BPB} {length : Nat} : bpb.clusFor length = 0 ↔ length = 0 := by
  by_cases hzero : length = 0
  · simp [BPB.clusFor, hzero]
  · simp [BPB.clusFor, hzero]

section truncate

variable {fs : FAT32fs} {heads : Set Nat} {f : File} {l : List Nat}

/-- The heads after the chain of a file has been resized. -/
def FAT32fs.headsAfter (heads : Set Nat) (f f' : File) : Set Nat := rehead heads f.fstClus f'.fstClus

/-- What `truncate` has done when it succeeds on a file. -/
structure FAT32fs.Truncated (fs : FAT32fs) (heads : Set Nat) (f : File) (l : List Nat) (length : Nat)
    (fs' : FAT32fs) (f' : File) (l' : List Nat) : Prop where
  file : f' = { f with fstClus := f'.fstClus, clusChain_ := none, fileSz_ := length }
  bpb : fs'.bpb = fs.bpb
  healthy : fs'.Healthy (FAT32fs.headsAfter heads f f')
  kept : (FatOp.resize f.fstClus (fs.bpb.clusFor length) f.isDir).Kept (fs.run heads)
    (fs'.run (FAT32fs.headsAfter heads f f'))
  device : fs.bpb.OnlyFat fs.device fs'.device
  placed : f'.Placed fs' l'
  length : l'.length = fs.bpb.clusFor length
  agree : ∀ i, i < l.length → i < l'.length → l'.getD i 0 = l.getD i 0
  new : ∀ x ∈ l', x ∈ l ∨ fs.table x = 0

theorem File.truncate_eq (hs : fs.bpb.Sound) (length : Nat) : f.truncate fs length =
    (fs.fat.resize fs.device f.fstClus (fs.bpb.clusFor length) f.isDir).bind fun r =>
      if r.1 then
        some (true, { fs with fat := r.2.2.1, device := r.2.2.2 },
          { f with fstClus := r.2.1, clusChain_ := none, fileSz_ := if f.isDir then f.fileSz_ else length })
      else some (false, { fs with fat := r.2.2.1, device := r.2.2.2 }, { f with fstClus := r.2.1 }) := by
  rw [File.truncate, show decide (bytesPerClus fs.bpb ≠ 0 ∨ length = 0) = true by
    simpa using .inl hs.bytesPerClus_pos.ne', assert_true]
  rfl

theorem File.truncate_noRoom (hh : fs.Healthy heads) (hacc : (fs.run heads).Accurate)
    (hf : fs.bpb.ChainOf fs.table f.fstClus l) {length : Nat} (hno : fs.NoRoom l length) :
    f.truncate fs length = some (false, { fs with fat := fs.fat.counted fs.table }, f) := by
  have havail : fs.fat.avail fs.table = (fs.fat.freeList fs.table).length := hacc.avail
  rw [File.truncate_eq hh.sound, hh.represents.resize_full (hh.bpb.symm ▸ hf) hno.1 (by
    rw [havail]; exact hno.2)]
  rfl

theorem File.truncated_of_resize (hh : fs.Healthy heads) (hdir : f.isDir = false)
    (hhead : f.fstClus = 0 ∨ f.fstClus ∈ heads) {length fst' : Nat} {fat' : FAT} {d' : Device}
    {T' : Nat → Nat} {l' : List Nat}
    (hrun : fs.fat.resize fs.device f.fstClus (fs.bpb.clusFor length) f.isDir =
      some (true, fst', fat', d'))
    (honly : fs.fat.bpb.OnlyFat fs.device d') (h' : fs.fat.Represents d' T') (hbpb : fat'.bpb = fs.fat.bpb)
    (hc : fs.fat.bpb.ChainOf T' fst' l') (hlen : l'.length = fs.bpb.clusFor length)
    (hagree : ∀ i, i < l.length → i < l'.length → l'.getD i 0 = l.getD i 0)
    (hnew : ∀ x ∈ l', x ∈ l ∨ fs.table x = 0) :
    ∃ fs' f', f.truncate fs length = some (true, fs', f') ∧ fs.Truncated heads f l length fs' f' l' := by
  have hkept := hh.owned.kept_resize hhead hrun
  refine ⟨{ fs with fat := fat', device := d' },
    { f with fstClus := fst', clusChain_ := none, fileSz_ := length }, ?_, ?_⟩
  · rw [File.truncate_eq hh.sound, hrun, Option.bind_some, if_pos rfl, hdir]
    rfl
  · refine ⟨rfl, rfl, ⟨hkept.owned, hbpb.trans hh.bpb⟩, hkept, hh.bpb ▸ honly, ⟨?_, .inl rfl⟩, hlen,
      hagree, hnew⟩
    rw [hh.bpb] at hc
    refine hc.congr fun x hx => ?_
    have hentry := h'.entry x (by rw [hh.bpb]; exact (hc.data x hx).2)
    rw [FAT.entry, ← hbpb] at hentry
    exact hentry

/-- With room a file is cut or grown to the clusters needed. -/
theorem File.truncate_room (hh : fs.Healthy heads) (hacc : (fs.run heads).Accurate)
    (hdir : f.isDir = false) (hhead : f.fstClus = 0 ∨ f.fstClus ∈ heads)
    (hf : fs.bpb.ChainOf fs.table f.fstClus l) {length : Nat} (hroom : ¬ fs.NoRoom l length) :
    ∃ fs' f' l', f.truncate fs length = some (true, fs', f') ∧
      fs.Truncated heads f l length fs' f' l' := by
  have hrep := hh.represents
  have hf' : fs.fat.bpb.ChainOf fs.table f.fstClus l := hh.bpb.symm ▸ hf
  have havail : fs.fat.avail fs.table = (fs.fat.freeList fs.table).length := hacc.avail
  by_cases hcut : fs.bpb.clusFor length ≤ l.length
  · obtain ⟨d', hrun, honly, h'⟩ := hrep.resize_cut hf' hcut f.isDir
    obtain ⟨fs', f', htrunc⟩ := File.truncated_of_resize (l := l) hh hdir hhead hrun honly h' (by simp)
      (hf'.cut hcut) (List.length_take_of_le hcut)
      (fun i _ hi => by
        rw [List.length_take_of_le hcut] at hi
        simp [List.getD_eq_getElem?_getD, hi])
      fun x hx => .inl (List.mem_of_mem_take hx)
    exact ⟨fs', f', _, htrunc⟩
  · have hnum : l.length < fs.bpb.clusFor length := by omega
    have hfree : fs.bpb.clusFor length - l.length ≤ (fs.fat.freeList fs.table).length := by
      by_contra hlt
      exact hroom ⟨hnum, by omega⟩
    obtain ⟨d', hrun, h', -, honly, -⟩ := hrep.resize_grow hf' hh.owned.hint hnum
      (by rw [havail]; exact hfree) hfree f.isDir
    have hfresh := hh.fresh (by omega) hfree
    have hhd := hf'.grow hh.owned.wellFormed.sound hfresh.1 hfresh.2.1 hfresh.2.2.1 hfresh.2.2.2
    obtain ⟨fs', f', htrunc⟩ := File.truncated_of_resize (l := l) hh hdir hhead hrun (honly hdir) h'
      (by simp) hhd
      (by rw [List.length_append, List.length_take_of_le hfree]; omega)
      (fun i hi _ => by simp [List.getD_eq_getElem?_getD, List.getElem?_append_left hi])
      fun x hx => (List.mem_append.mp hx).imp_right fun hx => hfresh.2.2.2 x hx
    exact ⟨fs', f', _, htrunc⟩

end truncate

/-! ### What readers see -/

/-- An object that has been read some times. -/
def File.Later (fs : FAT32fs) : File → File → Prop :=
  Relation.ReflTransGen fun f g => ∃ len off now bytes, f.read fs len off now = some (bytes, g)

/-- Every read returns the given contents, cut at `sz`, however often the object has been read before. -/
def File.Shows (fs : FAT32fs) (f : File) (sz : Nat) (content : Nat → UInt8) : Prop :=
  ∀ g, File.Later fs f g → ∀ len off now, ∃ g', g.read fs len off now =
    some ((List.range (min len (sz - off))).map fun k => content (off + k), g')

/-- The contents a chain holds. -/
def FAT32fs.content (fs : FAT32fs) (l : List Nat) (p : Nat) : UInt8 :=
  fs.device.byte (fs.bpb.chainLoc l p)

/-- All chains but the one of `own` keep their entries and their bytes. -/
def FAT32fs.OthersKept (fs fs' : FAT32fs) (heads : Set Nat) (own : Nat) : Prop :=
  ∀ head ∈ heads, head ≠ own → ∀ l, Walk fs.table Eoc head l →
    Walk fs'.table Eoc head l ∧ ∀ x ∈ l, fs'.table x = fs.table x ∧
      ∀ j < fs.bpb.secPerClus.toNat, fs'.device.value (getFirstSectorOfCluster fs.bpb x + j) =
        fs.device.value (getFirstSectorOfCluster fs.bpb x + j)

section write

variable {fs fs₁ : FAT32fs} {heads heads₁ : Set Nat} {f f₁ : File} {l l₁ : List Nat}

theorem File.Same.sized {g : File} (hsame : f.Same g) (hdir : f.isDir = false)
    (hg : g.Placed fs l) (hfits : f.fileSz_ ≤ l.length * bytesPerClus fs.bpb) :
    g.Sized fs l f.fileSz_ := by
  have hsz : g.fileSz_ = f.fileSz_ := by rw [hsame]
  have hdir' : g.isDir = false := by rw [hsame]; exact hdir
  refine ⟨⟨g, ?_, rfl, hg⟩, hfits⟩
  simp [File.fileSz, hdir', hsz]

theorem File.Placed.shows (hh : fs.Mounted) (hf : f.Placed fs l) (hdir : f.isDir = false)
    (hfits : f.fileSz_ ≤ l.length * bytesPerClus fs.bpb) :
    f.Shows fs f.fileSz_ (fs.content l) := by
  intro g hlater len off now
  have hinv : f.Same g ∧ g.Placed fs l := by
    induction hlater with
    | refl => exact ⟨rfl, hf⟩
    | tail _ hread ih =>
      obtain ⟨len, off, now, bytes, hrun⟩ := hread
      obtain ⟨g', hrun', hsame, hg'⟩ := File.Placed.read_eq hh (ih.1.sized hdir ih.2 hfits) len off now
      obtain rfl : g' = _ := (Prod.mk.inj (Option.some.inj (hrun'.symm.trans hrun))).2
      exact ⟨ih.1.trans hsame, hg'⟩
  obtain ⟨g', hrun, -⟩ := File.Placed.read_eq hh (hinv.1.sized hdir hinv.2 hfits) len off now
  exact ⟨g', hrun⟩

/-- The state in which the sectors of a write are stored: the chain reaches the end of the run and still starts with the old contents. -/
structure FAT32fs.Ready (fs : FAT32fs) (heads : Set Nat) (f : File) (l : List Nat) (end_ : Nat)
    (fs₁ : FAT32fs) (heads₁ : Set Nat) (f₁ : File) (l₁ : List Nat) : Prop where
  healthy : fs₁.Healthy heads₁
  bpb : fs₁.bpb = fs.bpb
  placed : f₁.Placed fs₁ l₁
  dir : f₁.isDir = false
  size : f₁.fileSz_ = max f.fileSz_ end_
  fits : f₁.fileSz_ ≤ l₁.length * bytesPerClus fs.bpb
  device : fs.bpb.OnlyFat fs.device fs₁.device
  keeps : ∀ p < f.fileSz_, fs.bpb.chainLoc l₁ p = fs.bpb.chainLoc l p
  new : ∀ x ∈ l₁, x ∈ l ∨ fs.table x = 0
  others : ∀ head ∈ heads, head ≠ f.fstClus → ∀ l₂, Walk fs.table Eoc head l₂ →
    ∀ x ∈ l₂, fs₁.table x = fs.table x

theorem FAT32fs.Truncated.chainLoc_eq {length : Nat} {f' : File} {fs' : FAT32fs} {l' : List Nat}
    (hs : fs.bpb.Sound) (ht : fs.Truncated heads f l length fs' f' l') {p : Nat}
    (hp : p < l.length * bytesPerClus fs.bpb) (hp' : p < l'.length * bytesPerClus fs.bpb) :
    fs.bpb.chainLoc l' p = fs.bpb.chainLoc l p := by
  have hidx : ∀ {l₂ : List Nat}, p < l₂.length * bytesPerClus fs.bpb →
      p / sectorSize / fs.bpb.secPerClus.toNat < l₂.length := fun h =>
    Nat.div_lt_of_lt_mul (by rw [Nat.mul_comm]; exact hs.sector_lt_of_pos h)
  rw [BPB.chainLoc, BPB.chainLoc, BPB.chainSector, BPB.chainSector, ht.agree _ (hidx hp) (hidx hp')]

private theorem FAT32fs.Truncated.ready {end_ : Nat} {f' : File} {fs' : FAT32fs} {l' : List Nat}
    (hh : fs.Healthy heads) (ht : fs.Truncated heads f l end_ fs' f' l') (hdir : f.isDir = false)
    (hfits : f.fileSz_ ≤ l.length * bytesPerClus fs.bpb) (hend : f.fileSz_ ≤ end_) :
    fs.Ready heads f l end_ fs' (FAT32fs.headsAfter heads f f') f' l' := by
  have hs := hh.sound
  have hcap : end_ ≤ l'.length * bytesPerClus fs.bpb := ht.length ▸ hs.le_clusFor end_
  have hsz : f'.fileSz_ = end_ := by rw [ht.file]
  refine ⟨ht.healthy, ht.bpb, ht.placed, ?_, ?_, by rwa [hsz], ht.device, fun p hp => ?_, ht.new, ?_⟩
  · rw [ht.file]
    exact hdir
  · omega
  · exact ht.chainLoc_eq hs (by omega) (by omega)
  · intro head hhead hne l₂ hw x hx
    exact ht.kept.unnamed head hhead (fun heq => hne (Option.some.inj heq).symm) l₂ hw x hx

/-- Without room nothing changes but the cached count. -/
theorem File.write_noRoom (hh : fs.Healthy heads) (hacc : (fs.run heads).Accurate)
    (hf : f.Placed fs l) (hdir : f.isDir = false) {buf : List UInt8} {offset : Nat}
    (hend : f.fileSz_ ≤ u32 (offset + buf.length)) (hno : fs.NoRoom l (u32 (offset + buf.length)))
    (now : FatTimeStamp) :
    f.write fs buf offset now = some (0, { fs with fat := fs.fat.counted fs.table }, f) := by
  have hbps := hh.sound.bytesPerSec
  have htrunc := File.truncate_noRoom hh hacc hf.chain hno
  simp [File.write, hbps, sectorSize_pos.ne', File.expand, File.fileSz, hdir, hend, htrunc]

/-- Otherwise the run is stored from a state that is ready for it. -/
theorem File.write_ready (hh : fs.Healthy heads) (hacc : (fs.run heads).Accurate) (hf : f.Placed fs l)
    (hdir : f.isDir = false) (hhead : f.fstClus = 0 ∨ f.fstClus ∈ heads)
    (hfits : f.fileSz_ ≤ l.length * bytesPerClus fs.bpb) (buf : List UInt8) (offset : Nat)
    (hroom : f.fileSz_ ≤ u32 (offset + buf.length) → ¬ fs.NoRoom l (u32 (offset + buf.length)))
    (now : FatTimeStamp) : ∃ fs₁ heads₁ f₁ l₁,
    fs.Ready heads f l (u32 (offset + buf.length)) fs₁ heads₁ f₁ l₁ ∧
    (f.fileSz_ ≤ u32 (offset + buf.length) → l₁.length = fs.bpb.clusFor (u32 (offset + buf.length))) ∧
    (u32 (offset + buf.length) < f.fileSz_ → fs₁ = fs ∧ l₁ = l) ∧
    f.write fs buf offset now =
      (f₁.overwrite fs₁ buf offset).map fun r => (r.1, r.2.1, r.2.2.setWrtTime now) := by
  have hbps := hh.sound.bytesPerSec
  have hwrite : f.write fs buf offset now =
      (f.expand fs (u32 (offset + buf.length))).bind fun r =>
        if !r.1 then some (0, r.2.1, r.2.2)
        else (r.2.2.overwrite r.2.1 buf offset).map fun r => (r.1, r.2.1, r.2.2.setWrtTime now) := by
    rw [File.write, hbps, show decide (sectorSize ≠ 0) = true by decide, assert_true]
    simp only [Option.bind_eq_bind, Option.bind_some]
    congr 1
    funext r
    split
    · rfl
    · cases r.2.2.overwrite r.2.1 buf offset <;> rfl
  have hexpand : f.expand fs (u32 (offset + buf.length)) =
      if f.fileSz_ ≤ u32 (offset + buf.length) then f.truncate fs (u32 (offset + buf.length))
      else some (true, fs, f) := by
    simp [File.expand, File.fileSz, hdir]
  rw [hwrite, hexpand]
  by_cases hend : f.fileSz_ ≤ u32 (offset + buf.length)
  · obtain ⟨fs₁, f₁, l₁, hrun, ht⟩ := File.truncate_room hh hacc hdir hhead hf.chain (hroom hend)
    refine ⟨fs₁, _, f₁, l₁, ht.ready hh hdir hfits hend, fun _ => ht.length, fun h => by omega, ?_⟩
    rw [if_pos hend, hrun]
    rfl
  · refine ⟨fs, heads, f, l, ⟨hh, rfl, hf, hdir, by omega, hfits, .refl _ _, fun _ _ => rfl,
      fun x hx => .inl hx, fun _ _ _ _ _ _ _ => rfl⟩, fun h => absurd h hend, fun _ => ⟨rfl, rfl⟩, ?_⟩
    rw [if_neg hend]
    rfl

theorem FAT32fs.Ready.notMem_of_other {end_ : Nat} (hh : fs.Healthy heads)
    (hr : fs.Ready heads f l end_ fs₁ heads₁ f₁ l₁) (hf : fs.bpb.ChainOf fs.table f.fstClus l)
    (hhead : f.fstClus = 0 ∨ f.fstClus ∈ heads) {head : Nat} (hother : head ∈ heads)
    (hne : head ≠ f.fstClus) {l₂ : List Nat} (hw : Walk fs.table Eoc head l₂) {x : Nat} (hx : x ∈ l₂) :
    x ∉ l₁ := by
  intro hmem
  rcases hr.new x hmem with hl | hfree
  · exact hh.owned.notMem_of_unnamed hhead (hh.bpb.symm ▸ hf) hother hne.symm hw hx hl
  · exact notMem_chain_of_free hh.owned.owners hfree hother hw hx

theorem stores_keeps_cluster {bpb : BPB} (hs : bpb.Sound) (hdata : ∀ x ∈ l, bpb.DataClus x)
    {d d' : Device} {offset : Nat} {buf : List UInt8}
    (hst : Stores (bpb.chainLoc l) d.byte d'.byte offset buf)
    (hcap : offset + buf.length ≤ l.length * bytesPerClus bpb) {x j : Nat} (hx : bpb.DataClus x)
    (hout : x ∉ l) (hj : j < bpb.secPerClus.toNat) :
    d'.value (getFirstSectorOfCluster bpb x + j) = d.value (getFirstSectorOfCluster bpb x + j) := by
  funext i
  refine hst.outside (getFirstSectorOfCluster bpb x + j, i) fun k hk heq => ?_
  have hsec := congrArg Prod.fst heq
  obtain ⟨hlt, hclus⟩ := BPB.chainSector_eq (hs.sector_lt_of_pos (l := l)
    (show offset + k < l.length * bytesPerClus bpb by omega))
  change bpb.chainSector l ((offset + k) / sectorSize) = _ at hsec
  rw [hclus] at hsec
  have hmem := List.getElem_mem hlt
  have hsame := (hs.sector_injective (hdata _ hmem) hx (Nat.mod_lt _ hs.secPerClus) hj hsec).1
  exact hout (hsame ▸ hmem)

/-- What a successful write leaves behind. -/
structure FAT32fs.Written (fs : FAT32fs) (heads : Set Nat) (f : File) (l : List Nat)
    (buf : List UInt8) (offset : Nat) (fs' : FAT32fs) (f' : File) (new : Nat → UInt8) : Prop where
  size : f'.fileSz_ = max f.fileSz_ (offset + buf.length)
  shows : f'.Shows fs' f'.fileSz_ new
  inside : ∀ k < buf.length, buf[k]? = some (new (offset + k))
  outside : ∀ p < f.fileSz_, p < offset ∨ offset + buf.length ≤ p → new p = fs.content l p
  others : fs.OthersKept fs' heads f.fstClus

/-- From a state that is ready the whole run is stored, and nothing else is touched. -/
theorem FAT32fs.Ready.written (hh : fs.Healthy heads) (hf : fs.bpb.ChainOf fs.table f.fstClus l)
    (hhead : f.fstClus = 0 ∨ f.fstClus ∈ heads) {buf : List UInt8} {offset : Nat}
    (hfits : f.fileSz_ ≤ l.length * bytesPerClus fs.bpb)
    (hr : fs.Ready heads f l (offset + buf.length) fs₁ heads₁ f₁ l₁)
    (hin : offset < l₁.length * bytesPerClus fs.bpb) (now : FatTimeStamp) :
    ∃ fs' f', (f₁.overwrite fs₁ buf offset).map (fun r => (r.1, r.2.1, r.2.2.setWrtTime now)) =
        some (buf.length, fs', f') ∧
      fs.Written heads f l buf offset fs' f' (fs'.content l₁) := by
  have hs := hh.sound
  have hcap : offset + buf.length ≤ l₁.length * bytesPerClus fs.bpb := by
    have h₁ := hr.fits
    have h₂ := hr.size
    omega
  obtain ⟨d', hrun, hcnt, hstored, hst⟩ := hr.placed.overwrite hr.healthy.mounted _ (by rwa [hr.bpb])
    (by rwa [hr.bpb])
  rw [hr.bpb] at hst
  have hdata : ∀ x ∈ l₁, fs.bpb.DataClus x := hr.bpb ▸ hr.placed.chain.data
  have hinj := BPB.chainLoc_injOn hs hdata hr.placed.chain.nodup
  -- storing the run changes no entry of the FAT
  obtain ⟨hh', htable⟩ := hr.healthy.of_data d' hcnt fun s hlow => funext fun i => by
    refine hst.outside (s, i) fun k hk heq => ?_
    have hbound := BPB.chainSector_bounds hs hdata
      (hs.sector_lt_of_pos (show offset + k < l₁.length * bytesPerClus fs.bpb by omega))
    have hsec := congrArg Prod.fst heq
    change fs.bpb.chainSector l₁ ((offset + k) / sectorSize) = s at hsec
    rw [hr.bpb] at hlow
    omega
  have hplaced : ((f₁.cached l₁).setWrtTime now).Placed { fs₁ with device := d' } l₁ :=
    have hcached := hr.placed.cached.of_data htable
    ⟨hcached.chain, hcached.cache⟩
  rw [hr.bpb] at htable
  refine ⟨{ fs₁ with device := d' }, (f₁.cached l₁).setWrtTime now, by rw [hrun]; rfl, ?_⟩
  refine ⟨hr.size, ?_, ?_, ?_, ?_⟩
  · exact hplaced.shows hh'.mounted hr.dir (by
      change f₁.fileSz_ ≤ l₁.length * bytesPerClus fs₁.bpb
      rw [hr.bpb]
      exact hr.fits)
  · intro k hk
    rw [hst.inside k hk, FAT32fs.content, hr.bpb]
  · intro p hp hout
    have hlt : p < l₁.length * bytesPerClus fs.bpb := by
      have h₁ := hr.fits
      have h₂ := hr.size
      omega
    have hbound := BPB.chainSector_bounds hs hf.data (hs.sector_lt_of_pos (show p < _ by omega))
    rw [FAT32fs.content, FAT32fs.content]
    simp only [hr.bpb]
    rw [hst.keeps hinj hcap hlt hout, hr.keeps p hp]
    exact congrFun (hr.device.value _ (.inr hbound.1)) _
  · intro head hother hne l₂ hw
    have hgood : ∀ x ∈ l₂, fs.bpb.DataClus x := fun x hx => by
      rw [← hh.bpb]
      exact hh.owned.owners.good_of_mem hother hw hx
    have hentry : ∀ x ∈ l₂, FAT32fs.table { fs₁ with device := d' } x = fs.table x := fun x hx =>
      (htable x (hgood x hx)).trans (hr.others head hother hne l₂ hw x hx)
    refine ⟨hw.frame hentry, fun x hx => ⟨hentry x hx, fun j hj => ?_⟩⟩
    have hout := hr.notMem_of_other hh hf hhead hother hne hw hx
    have hlow := (hs.sector_bounds (hgood x hx) hj).1
    exact (stores_keeps_cluster hs hdata hst hcap (hgood x hx) hout hj).trans
      (hr.device.value _ (.inr hlow))

end write

/-- Every write of a non-empty buffer either stores it, or there is no room and the file, its chain and the FAT stay as they are. -/
theorem File.write_correct (fs : FAT32fs) (heads : Set Nat) (f : File) (l : List Nat)
    (hh : fs.Healthy heads) (hacc : (fs.run heads).Accurate) (hf : f.Placed fs l)
    (hdir : f.isDir = false) (hhead : f.fstClus = 0 ∨ f.fstClus ∈ heads)
    (hfits : f.fileSz_ ≤ l.length * bytesPerClus fs.bpb) (buf : List UInt8) (offset : Nat)
    (hpos : 0 < buf.length) (hend : offset + buf.length < 2 ^ 32) (now : FatTimeStamp) :
    f.Shows fs f.fileSz_ (fs.content l) ∧
    ∃ n fs' f', f.write fs buf offset now = some (n, fs', f') ∧
      ((n = buf.length ∧ ∃ new, fs.Written heads f l buf offset fs' f' new) ∨
        (n = 0 ∧ f'.fileSz_ = f.fileSz_ ∧ f'.fstClus = f.fstClus ∧ fs'.device = fs.device ∧
          fs'.table = fs.table ∧ f'.Shows fs' f.fileSz_ (fs.content l))) := by
  have hu32 : u32 (offset + buf.length) = offset + buf.length := u32_of_lt hend
  refine ⟨hf.shows hh.mounted hdir hfits, ?_⟩
  by_cases hno : f.fileSz_ ≤ offset + buf.length ∧ fs.NoRoom l (offset + buf.length)
  · have hrun := File.write_noRoom hh hacc hf hdir (by rw [hu32]; exact hno.1)
      (by rw [hu32]; exact hno.2) now
    have hh' : FAT32fs.Healthy { fs with fat := fs.fat.counted fs.table } heads :=
      ⟨⟨(FAT.represents_counted.mpr hh.represents).wellFormed, hh.owned.hint, hh.owned.owners⟩, hh.bpb⟩
    have hf' : f.Placed { fs with fat := fs.fat.counted fs.table } l := ⟨hf.chain, hf.cache⟩
    exact ⟨0, _, f, hrun, .inr ⟨rfl, rfl, rfl, rfl, rfl, hf'.shows hh'.mounted hdir hfits⟩⟩
  · obtain ⟨fs₁, heads₁, f₁, l₁, hr, -, -, hrun⟩ := File.write_ready hh hacc hf hdir hhead
      hfits buf offset (by rw [hu32]; tauto) now
    rw [hu32] at hr
    obtain ⟨fs', f', hover, hwritten⟩ := hr.written hh hf.chain hhead hfits (by
      have h₁ := hr.fits
      have h₂ := hr.size
      omega) now
    exact ⟨buf.length, fs', f', hrun.trans hover, .inl ⟨rfl, _, hwritten⟩⟩

/-! An empty file on the small volume. -/

def smallFs : FAT32fs :=
  ⟨smallBpb, (smallRun (smallTable [2])).fat, (smallRun (smallTable [2])).device⟩

def emptyFile : File where
  parentClus := 2
  fstEntryNum := 0
  fstClus := 0
  name := []
  crtTime := ⟨0, ⟨0, 0⟩⟩
  accDate := 0
  wrtTime := ⟨0, 0⟩
  fileSz_ := 0
  isDeleted := false
  clusChain_ := none
  isDir := false

theorem smallFs_healthy : smallFs.Healthy {2} ∧ (smallFs.run {2}).Accurate := by
  exact ⟨⟨(smallRun_root (by decide) (by decide)).1, rfl⟩,
    fun cnt hcnt => absurd hcnt (by simp [FAT32fs.run, smallFs, smallRun])⟩

theorem emptyFile_placed : emptyFile.Placed smallFs [] := ⟨.inl ⟨rfl, rfl⟩, .inl rfl⟩

theorem File.write_correct_three_bytes : ∃ n fs' f',
    emptyFile.write smallFs [1, 2, 3] 0 ⟨0, 0⟩ = some (n, fs', f') ∧
      ((n = 3 ∧ ∃ new, smallFs.Written {2} emptyFile [] [1, 2, 3] 0 fs' f' new) ∨
        (n = 0 ∧ f'.fileSz_ = 0 ∧ f'.fstClus = 0 ∧ fs'.device = smallFs.device ∧
          fs'.table = smallFs.table ∧ f'.Shows fs' 0 (smallFs.content []))) :=
  (File.write_correct smallFs {2} emptyFile [] smallFs_healthy.1 smallFs_healthy.2 emptyFile_placed rfl
    (.inl rfl) (by decide) [1, 2, 3] 0 (by decide) (by decide) ⟨0, 0⟩).2

end FuseFat32
