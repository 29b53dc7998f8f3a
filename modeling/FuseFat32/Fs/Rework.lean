import FuseFat32.Fs.DirStep
import FuseFat32.Fs.FileRuns
import FuseFat32.Fs.Gap

/-!
# What work on a file leaves alone

A call that resizes or writes a file changes the links of its chain, the bytes of its clusters and the data of its object. The sectors in front of the FAT, the bytes of all other chains and the name of the object stay, and so do the bytes of the file itself that the call is not about.
-/

namespace FuseFat32

open LinkedTable Layout

/-- What work on a file does, to the FAT and to everything else. -/
structure File.Reworked (fs : FAT32fs) (heads : Set Nat) (f : File) (l : List Nat) (fs' : FAT32fs) (f' : File)
    (l' : List Nat) : Prop extends File.Resettled fs heads f l fs' f' l' where
  named : f'.name = f.name
  reserved : ∀ s < fs.bpb.resvdSecCnt.toNat, fs'.device.value s = fs.device.value s
  bytes : ∀ other ∈ heads, other ≠ f.fstClus → ∀ l₂, Walk fs.table Eoc other l₂ → ∀ x ∈ l₂,
    ∀ j < fs.bpb.secPerClus.toNat, fs'.device.value (getFirstSectorOfCluster fs.bpb x + j) =
      fs.device.value (getFirstSectorOfCluster fs.bpb x + j)

section retimed

variable {f g : File}

/-- The objects differ in their times and their caches at most. -/
def File.Retimed (f g : File) : Prop :=
  g = { f with crtTime := g.crtTime, accDate := g.accDate, wrtTime := g.wrtTime, clusChain_ := g.clusChain_ }

theorem File.Retimed.place (h : f.Retimed g) : g.parentClus = f.parentClus ∧ g.fstEntryNum = f.fstEntryNum := by
  rw [h]
  exact ⟨rfl, rfl⟩

theorem File.Retimed.kind (h : f.Retimed g) : g.isDir = f.isDir ∧ g.isDeleted = f.isDeleted := by
  rw [h]
  exact ⟨rfl, rfl⟩

theorem File.Retimed.data (h : f.Retimed g) : g.fstClus = f.fstClus ∧ g.fileSz_ = f.fileSz_ := by
  rw [h]
  exact ⟨rfl, rfl⟩

theorem File.Retimed.named (h : f.Retimed g) : g.name = f.name := by rw [h]

theorem File.Retimed.trans {g' : File} (h : f.Retimed g) (h' : g.Retimed g') : f.Retimed g' := by
  unfold File.Retimed at h h' ⊢
  rw [h', h]

theorem File.Same.retimed (h : f.Same g) : f.Retimed g := by
  unfold File.Same at h
  unfold File.Retimed
  rw [h]

end retimed

section reworked

variable {fs fs' fs₁ : FAT32fs} {heads : Set Nat} {f f' f₁ : File} {l l₁ l' : List Nat} {length : Nat}

private theorem FAT32fs.Sane.reworked_self (hs : fs.Sane heads) (hhead : f.fstClus = 0 ∨ f.fstClus ∈ heads)
    (hf : f.Placed fs l) (hlen : l.length = fs.bpb.clusFor f.fileSz_) : f.Reworked fs heads l fs f l := by
  refine ⟨⟨?_, rfl, fun h => h, rfl, ⟨rfl, rfl, rfl, rfl⟩, hf, hlen, .inl rfl, fun _ _ _ _ _ _ _ => rfl,
    fun _ _ h => h⟩, rfl, fun _ _ => rfl, fun _ _ _ _ _ _ _ _ _ => rfl⟩
  rw [hs.headsAfter_self hhead rfl]
  exact hs

theorem FAT32fs.Sane.reworked_counted (hs : fs.Sane heads) (hhead : f.fstClus = 0 ∨ f.fstClus ∈ heads)
    (hf : f.Placed fs l) (hlen : l.length = fs.bpb.clusFor f.fileSz_) :
    f.Reworked fs heads l { fs with fat := fs.fat.counted fs.table } f l :=
  ⟨hs.resettled_counted hhead hf hlen, rfl, fun _ _ => rfl, fun _ _ _ _ _ _ _ _ _ => rfl⟩

theorem File.TruncatedTo.reworked (hs : fs.Sane heads) (hf : f.Placed fs l) (hdir : f.isDir = false)
    (ht : f.TruncatedTo fs heads l length fs' f') :
    f.Reworked fs heads l fs' f' (fs.chainAfter l length) := by
  have honly := ht.resized.onlyFat (.inl hdir)
  rw [hs.bpb] at honly
  refine ⟨ht.resettled hs hf hdir, by rw [ht.file], fun s hlow => honly.value s (.inl hlow),
    fun other hother _ l₂ hw x hx j hj => honly.value _ (.inr ?_)⟩
  have hgood := hs.owners.good_of_mem hother hw hx
  rw [hs.bpb] at hgood
  exact (hs.sound.sector_bounds hgood hj).1

theorem File.ExpandedTo.reworked (hs : fs.Sane heads) (hhead : f.fstClus = 0 ∨ f.fstClus ∈ heads)
    (hf : f.Placed fs l) (hdir : f.isDir = false) (hlen : l.length = fs.bpb.clusFor f.fileSz_)
    (h : f.ExpandedTo fs heads l length fs₁ f₁ l₁) : f.Reworked fs heads l fs₁ f₁ l₁ := by
  rcases h with ⟨-, ht, rfl⟩ | ⟨-, rfl, rfl, rfl⟩
  · exact ht.reworked hs hf hdir
  · exact hs.reworked_self hhead hf hlen

theorem File.Resettled.notMem_of_other (hs : fs.Sane heads) (h : f.Resettled fs heads l fs₁ f₁ l₁)
    {other : Nat} (hother : other ∈ heads) (hne : other ≠ f.fstClus) {l₂ : List Nat}
    (hw : Walk fs.table Eoc other l₂) {x : Nat} (hx : x ∈ l₂) : x ∉ l₁ := by
  have hkept := h.others other hother hne l₂ hw
  rcases h.placed.chain with ⟨-, rfl⟩ | ⟨hdata, hc⟩
  · exact List.not_mem_nil
  have hpos : f₁.fstClus ≠ 0 := fun hzero => not_dataClus_zero _ (hzero ▸ hdata)
  have hdiff : other ≠ f₁.fstClus := by
    intro heq
    rcases h.fst with hsame | hzero | hfree
    · exact hne (heq.trans hsame)
    · exact hpos hzero
    · exact hs.used hother (heq ▸ hfree)
  have hafter : other ∈ FAT32fs.headsAfter heads f f₁ := .inl ⟨hother, hne⟩
  have hown : f₁.fstClus ∈ FAT32fs.headsAfter heads f f₁ := .inr ⟨rfl, hpos⟩
  exact h.sane.owners.notMem_of_mem hafter hown (Ne.symm hdiff) (hw.frame hkept) hc.walk hx

theorem File.Reworked.stored (hs : fs.Sane heads) {buf : List UInt8} {offset n : Nat} {now : FatTimeStamp}
    (h : f.Reworked fs heads l fs₁ f₁ l₁) (hst : File.StoredTo fs₁ f₁ l₁ buf offset n now fs' f') :
    f.Reworked fs heads l fs' f' l₁ := by
  have hsound := h.sane.sound
  have hdata : ∀ x ∈ l₁, fs₁.bpb.DataClus x := h.placed.chain.data
  have hinside := hst.inside
  have hcap : offset + (buf.take n).length ≤ l₁.length * bytesPerClus fs₁.bpb := by
    have hroom : n ≤ l₁.length * bytesPerClus fs₁.bpb - offset := hst.count ▸ Nat.min_le_right _ _
    have := List.length_take_le n buf
    omega
  refine ⟨h.toResettled.stored hs hst, ?_, fun s hlow => ?_, fun other hother hne l₂ hw x hx j hj => ?_⟩
  · rw [hst.file]
    exact h.named
  · refine (funext fun i => hst.stores.outside (s, i) fun k hk heq => ?_ : _ = _).trans (h.reserved s hlow)
    have hbound := (BPB.chainSector_bounds hsound hdata (hsound.sector_lt_of_pos (l := l₁)
      (show offset + k < l₁.length * bytesPerClus fs₁.bpb by omega))).1
    have hsec : fs₁.bpb.chainSector l₁ ((offset + k) / sectorSize) = s := congrArg Prod.fst heq
    have hfirst := hsound.firstDataSector
    rw [← h.bpb] at hlow
    omega
  · have hgood : fs₁.bpb.DataClus x := by
      rw [h.bpb, ← hs.bpb]
      exact hs.owners.good_of_mem hother hw hx
    have hkeep := stores_keeps_cluster hsound hdata hst.stores hcap hgood
      (h.notMem_of_other hs hother hne hw hx) (h.bpb.symm ▸ hj)
    rw [h.bpb] at hkeep
    exact hkeep.trans (h.bytes other hother hne l₂ hw x hx j hj)

theorem File.Reworked.retimed (h : f.Reworked fs heads l fs' f₁ l') (heq : f₁.Retimed f')
    (hf' : f'.Placed fs' l') : f.Reworked fs heads l fs' f' l' := by
  obtain ⟨hfst, hsize⟩ := heq.data
  have hheads : FAT32fs.headsAfter heads f f' = FAT32fs.headsAfter heads f f₁ := by
    rw [FAT32fs.headsAfter, hfst, FAT32fs.headsAfter]
  refine ⟨⟨hheads ▸ h.sane, h.bpb, h.hint, h.secCnt, ?_, hf', hsize ▸ h.length, hfst ▸ h.fst, h.others,
    h.accounted⟩, ?_, h.reserved, h.bytes⟩
  · rw [heq]
    exact h.same
  · rw [heq]
    exact h.named

/-! ### The bytes of the file -/

private theorem FAT32fs.chainLoc_chainAfter (hs : fs.bpb.Sound) {p : Nat} (hp : p < l.length * bytesPerClus fs.bpb)
    (hp' : p < (fs.chainAfter l length).length * bytesPerClus fs.bpb) :
    fs.bpb.chainLoc (fs.chainAfter l length) p = fs.bpb.chainLoc l p := by
  obtain ⟨hlt, -⟩ := BPB.chainSector_eq (hs.sector_lt_of_pos hp)
  obtain ⟨hlt', -⟩ := BPB.chainSector_eq (hs.sector_lt_of_pos hp')
  rw [BPB.chainLoc, BPB.chainLoc, BPB.chainSector, BPB.chainSector, FAT32fs.getElem?_chainAfter hlt hlt']

theorem File.TruncatedTo.content_kept (hs : fs.Sane heads) (ht : f.TruncatedTo fs heads l length fs' f')
    (hdir : f.isDir = false) {p : Nat} (hp : p < l.length * bytesPerClus fs.bpb)
    (hp' : p < (fs.chainAfter l length).length * bytesPerClus fs.bpb) :
    fs'.content (fs.chainAfter l length) p = fs.content l p := by
  rw [ht.content_eq hs hdir hp', FAT32fs.content, FAT32fs.content, FAT32fs.chainLoc_chainAfter hs.sound hp hp']

theorem File.ExpandedTo.content_kept (hs : fs.Sane heads) (h : f.ExpandedTo fs heads l length fs₁ f₁ l₁)
    (hdir : f.isDir = false) {p : Nat} (hp : p < l.length * bytesPerClus fs.bpb)
    (hp₁ : p < l₁.length * bytesPerClus fs.bpb) : fs₁.content l₁ p = fs.content l p := by
  rcases h with ⟨-, ht, rfl⟩ | ⟨-, rfl, rfl, rfl⟩
  · exact ht.content_kept hs hdir hp hp₁
  · rfl

theorem File.StoredTo.content_stored {buf : List UInt8} {offset n k : Nat} {now : FatTimeStamp}
    (h : File.StoredTo fs₁ f₁ l₁ buf offset n now fs' f') (hk : k < n) :
    buf[k]? = some (fs'.content l₁ (offset + k)) := by
  obtain ⟨d', rfl, -, -⟩ := h.state
  have hn : n ≤ buf.length := h.count ▸ Nat.min_le_left _ _
  have hlen : (buf.take n).length = n := List.length_take_of_le hn
  have hat := h.stores.inside k (hlen.symm ▸ hk)
  rw [List.getElem?_take_of_lt hk] at hat
  exact hat

end reworked

end FuseFat32
