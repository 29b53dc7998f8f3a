import FuseFat32.Fs.Truncate

/-!
# What a growth exposes

`truncate` asks `FAT::resize` to clear the clusters it adds only when the object is a directory. A file that grows therefore shows, between its old end and the bytes written, whatever the device held there: the tail of its last cluster and the earlier contents of the clusters it has been given.
-/

namespace FuseFat32

open LinkedTable Layout

/-- The positions of the file in `gap` read as zero. -/
def File.ReadsZero (fs : FAT32fs) (f : File) (gap : Set Nat) : Prop :=
  ∃ content, f.Shows fs f.fileSz_ content ∧ ∀ p < f.fileSz_, p ∈ gap → content p = 0

/-- The positions from the old end of the file on. -/
def File.pastEnd (f : File) : Set Nat := {p | f.fileSz_ ≤ p}

/-- Those of them that a write of `n` bytes has not stored. -/
def File.unwritten (f : File) (offset n : Nat) : Set Nat :=
  {p | f.fileSz_ ≤ p ∧ (p < offset ∨ offset + n ≤ p)}

/-- The bytes that lie where the gap of the grown chain will be are zero. -/
def FAT32fs.GapZero (fs : FAT32fs) (l : List Nat) (length : Nat) (gap : Set Nat) : Prop :=
  ∀ p < length, p ∈ gap → fs.content (fs.chainAfter l length) p = 0

section gap

variable {fs fs' fs₁ : FAT32fs} {heads : Set Nat} {f f' f₁ : File} {l l₁ : List Nat} {gap : Set Nat}

theorem File.Shows.unique {sz : Nat} {c c' : Nat → UInt8} (h : f.Shows fs sz c) (h' : f.Shows fs sz c')
    {p : Nat} (hp : p < sz) : c p = c' p := by
  obtain ⟨g, hread⟩ := h f .refl 1 p ⟨0, 0⟩
  obtain ⟨g', hread'⟩ := h' f .refl 1 p ⟨0, 0⟩
  have hone : min 1 (sz - p) = 1 := by omega
  rw [hone] at hread hread'
  simpa using congrArg (Option.map Prod.fst) (hread.symm.trans hread')

/-- A gap reads as zero exactly when the chain holds zeros there. -/
theorem File.Placed.readsZero_iff (hm : fs.Mounted) (hf : f.Placed fs l) (hdir : f.isDir = false)
    (hfits : f.fileSz_ ≤ l.length * bytesPerClus fs.bpb) :
    f.ReadsZero fs gap ↔ ∀ p < f.fileSz_, p ∈ gap → fs.content l p = 0 := by
  have hshows := hf.shows hm hdir hfits
  constructor
  · intro h p hp hgap
    obtain ⟨content, hcontent, hzero⟩ := h
    rw [hshows.unique hcontent hp]
    exact hzero p hp hgap
  · intro h
    exact ⟨_, hshows, h⟩

/-- Growing a file leaves the bytes of its new chain as the device had them. -/
theorem File.TruncatedTo.content_eq {length : Nat} (hs : fs.Sane heads)
    (ht : f.TruncatedTo fs heads l length fs' f') (hdir : f.isDir = false) {p : Nat}
    (hp : p < (fs.chainAfter l length).length * bytesPerClus fs.bpb) :
    fs'.content (fs.chainAfter l length) p = fs.content (fs.chainAfter l length) p := by
  have hdata : ∀ x ∈ fs.chainAfter l length, fs.bpb.DataClus x := ht.bpb ▸ ht.placed.chain.data
  have hbound := BPB.chainSector_bounds hs.sound hdata (hs.sound.sector_lt_of_pos hp)
  have honly := ht.resized.onlyFat (.inl hdir)
  rw [FAT32fs.content, FAT32fs.content, ht.bpb]
  exact congrFun (honly.value _ (.inr (hs.bpb.symm ▸ hbound.1))) _

theorem File.TruncatedTo.size {length : Nat} (ht : f.TruncatedTo fs heads l length fs' f')
    (hdir : f.isDir = false) : f'.fileSz_ = length ∧ f'.isDir = false := by
  rw [ht.file]
  exact ⟨by rw [hdir]; rfl, hdir⟩

theorem File.TruncatedTo.capacity {length : Nat} (hs : fs.Sane heads)
    (ht : f.TruncatedTo fs heads l length fs' f') :
    length ≤ (fs.chainAfter l length).length * bytesPerClus fs.bpb := by
  have hlen : (fs.chainAfter l length).length = fs.bpb.clusFor length := ht.resized.length
  rw [hlen]
  exact hs.sound.le_clusFor length

theorem File.TruncatedTo.readsZero_iff {length : Nat} (hs : fs.Sane heads)
    (ht : f.TruncatedTo fs heads l length fs' f') (hdir : f.isDir = false) :
    f'.ReadsZero fs' gap ↔ fs.GapZero l length gap := by
  obtain ⟨hsize, hdir'⟩ := ht.size hdir
  have hcap := ht.capacity hs
  rw [ht.placed.readsZero_iff ht.sane.toMounted hdir' (by rw [hsize, ht.bpb]; exact hcap), hsize]
  refine forall_congr' fun p => imp_congr_right fun hp => imp_congr_right fun _ => ?_
  rw [ht.content_eq hs hdir (by omega)]

theorem File.StoredTo.content_eq {buf : List UInt8} {offset n : Nat} {now : FatTimeStamp}
    (hs : fs₁.Sane heads) (hf : f₁.Placed fs₁ l₁) (h : File.StoredTo fs₁ f₁ l₁ buf offset n now fs' f')
    {p : Nat} (hp : p < l₁.length * bytesPerClus fs₁.bpb) (hout : p < offset ∨ offset + n ≤ p) :
    fs'.content l₁ p = fs₁.content l₁ p := by
  obtain ⟨d', rfl, -, -⟩ := h.state
  have hinside := h.inside
  have hlen : (buf.take n).length = n := by
    rw [List.length_take, h.count, BPB.roomFor]
    omega
  have hroom : n ≤ l₁.length * bytesPerClus fs₁.bpb - offset := h.count ▸ Nat.min_le_right _ _
  exact h.stores.keeps (BPB.chainLoc_injOn hs.sound hf.chain.data hf.chain.nodup)
    (by omega) hp (by omega)

theorem File.StoredTo.readsZero_iff {buf : List UInt8} {offset n end_ : Nat} {now : FatTimeStamp}
    (hs : fs.Sane heads) (hdir : f.isDir = false) (hexp : f.ExpandedTo fs heads l end_ fs₁ f₁ l₁)
    (h : File.StoredTo fs₁ f₁ l₁ buf offset n now fs' f') (hgrown : f.fileSz_ < f'.fileSz_) :
    f'.ReadsZero fs' (f.unwritten offset n) ↔ fs.GapZero l end_ (f.unwritten offset n) := by
  have hsz : f'.fileSz_ = f₁.fileSz_ := by
    rw [h.file]
    rfl
  obtain ⟨hend, ht, rfl⟩ : f.fileSz_ ≤ end_ ∧ f.TruncatedTo fs heads l end_ fs₁ f₁ ∧
      l₁ = fs.chainAfter l end_ := by
    refine hexp.resolve_right fun hkept => ?_
    rw [hsz, hkept.2.2.1] at hgrown
    exact Nat.lt_irrefl _ hgrown
  obtain ⟨hs', hf', -⟩ := h.sane ht.sane ht.placed
  obtain ⟨hsize, hdir₁⟩ := ht.size hdir
  have hcap := ht.capacity hs
  have hbpb : fs'.bpb = fs.bpb := by
    obtain ⟨d', rfl, -⟩ := h.state
    exact ht.bpb
  have hdir' : f'.isDir = false := by
    rw [h.file]
    exact hdir₁
  rw [hf'.readsZero_iff hs'.toMounted hdir' (by rw [hsz, hsize, hbpb]; exact hcap), hsz, hsize]
  refine forall_congr' fun p => imp_congr_right fun hp => imp_congr_right fun hgap => ?_
  rw [h.content_eq ht.sane ht.placed (by rw [ht.bpb]; omega) hgap.2, ht.content_eq hs hdir (by omega)]

end gap

/-- A growth by `truncate` or by a write past the end reads as zero in its gap exactly when the device already held zeros there. -/
theorem File.gap_reads_zero_iff (fs : FAT32fs) (heads : Set Nat) (f : File) (l : List Nat)
    (hs : fs.Sane heads) (hf : f.Placed fs l) (hdir : f.isDir = false)
    (hhead : f.fstClus = 0 ∨ f.fstClus ∈ heads) :
    (∀ length fs' f', f.fileSz_ < length → fs.HintOk l length →
      f.truncate fs length = some (true, fs', f') →
      (f'.ReadsZero fs' f.pastEnd ↔ fs.GapZero l length f.pastEnd)) ∧
    ∀ buf offset now n fs' f', f.fileSz_ < offset → fs.HintOk l (u32 (offset + buf.length)) →
      f.write fs buf offset now = some (n, fs', f') → f.fileSz_ < f'.fileSz_ →
      (f'.ReadsZero fs' (f.unwritten offset n) ↔
        fs.GapZero l (u32 (offset + buf.length)) (f.unwritten offset n)) := by
  constructor
  · intro length fs' f' _ hhint hrun
    rcases File.truncate_some hs hhead hf.chain hhint hrun with ⟨-, ht⟩ | ⟨hok, -⟩
    · exact ht.readsZero_iff hs hdir
    · exact absurd hok (by decide)
  · intro buf offset now n fs' f' _ hhint hrun hgrown
    rcases File.write_some hs hhead hf hdir hhint hrun with ⟨-, -, -, -, rfl⟩ | ⟨fs₁, f₁, l₁, hexp, hst⟩
    · exact absurd hgrown (Nat.lt_irrefl _)
    · exact hst.readsZero_iff hs hdir hexp hgrown

theorem File.gap_reads_zero_iff_clean : ∃ fs' f', emptyFile.truncate smallFs 1 = some (true, fs', f') ∧
    (f'.ReadsZero fs' emptyFile.pastEnd ↔ smallFs.GapZero [] 1 emptyFile.pastEnd) ∧
    ∀ n fs' f', emptyFile.write smallFs [5] 3 ⟨0, 0⟩ = some (n, fs', f') → 0 < f'.fileSz_ →
      (f'.ReadsZero fs' (emptyFile.unwritten 3 n) ↔ smallFs.GapZero [] 4 (emptyFile.unwritten 3 n)) := by
  obtain ⟨hh, hacc⟩ := smallFs_healthy
  have h := File.gap_reads_zero_iff smallFs {2} emptyFile [] hh.sane emptyFile_placed rfl (.inl rfl)
  obtain ⟨fs', f', l', hrun, -⟩ := File.truncate_room hh hacc rfl (.inl rfl) emptyFile_placed.chain
    (show ¬ smallFs.NoRoom [] 1 by decide +kernel)
  refine ⟨fs', f', hrun, h.1 1 fs' f' (by decide) (hh.hintOk _ _) hrun, fun n fs' f' hrun hgrown => ?_⟩
  exact h.2 [5] 3 ⟨0, 0⟩ n fs' f' (by decide) (hh.hintOk _ _) hrun hgrown

/-! A volume on which the next free cluster still holds a byte of an earlier file. -/

def dirtyFs : FAT32fs :=
  ⟨smallBpb, (smallRun (smallTable [2])).fat, (smallRun (smallTable [2])).device.write 35 0 [7]⟩

private theorem dirtyFs_healthy : dirtyFs.Healthy {2} ∧ (dirtyFs.run {2}).Accurate := by
  have hlow : ∀ s < getFirstDataSector smallFs.bpb,
      (smallFs.device.write 35 0 [7]).value s = smallFs.device.value s := fun s hs => funext fun i =>
    smallFs.device.value_write_of_ne _ _ _ (by
      rintro rfl
      exact absurd hs (by decide)) i
  refine ⟨(smallFs_healthy.1.of_data (smallFs.device.write 35 0 [7]) rfl hlow).1, fun cnt hcnt => ?_⟩
  exact absurd hcnt (by simp [FAT32fs.run, dirtyFs, smallRun])

/-- An empty file cut to one byte shows the byte of the earlier file. -/
theorem File.gap_shows_old_bytes : ∃ fs' f', emptyFile.truncate dirtyFs 1 = some (true, fs', f') ∧
    ¬ f'.ReadsZero fs' emptyFile.pastEnd := by
  obtain ⟨hh, hacc⟩ := dirtyFs_healthy
  have hplaced : emptyFile.Placed dirtyFs [] := ⟨.inl ⟨rfl, rfl⟩, .inl rfl⟩
  obtain ⟨fs', f', l', hrun, -⟩ := File.truncate_room hh hacc rfl (.inl rfl) hplaced.chain
    (show ¬ dirtyFs.NoRoom [] 1 by decide +kernel)
  rcases File.truncate_some hh.sane (.inl rfl) hplaced.chain (hh.hintOk _ _) hrun with ⟨-, ht⟩ | ⟨hok, -⟩
  · refine ⟨fs', f', hrun, fun hzero => ?_⟩
    have hbyte := (ht.readsZero_iff hh.sane rfl).mp hzero 0 (by decide) (show 0 ≤ 0 by decide)
    exact absurd hbyte (by decide +kernel)
  · exact absurd hok (by decide)

end FuseFat32
