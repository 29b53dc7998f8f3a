import FuseFat32.Fat.Growth
import FuseFat32.Fs.Write

/-!
# Truncating and writing, whatever the object

The members `truncate` and `write` serve files and directories alike, and they return or they do not. Here is what a call that returns has done, for any object whose chain is known and for any state whose pending hint, if there is one, is usable for the clusters the call needs.
-/

namespace FuseFat32

open LinkedTable Layout

/-- The volume is mounted and its heads own their chains. A hint may be pending. -/
structure FAT32fs.Sane (fs : FAT32fs) (heads : Set Nat) : Prop extends FAT32fs.Mounted fs where
  owners : Owners fs.table Eoc fs.fat.bpb.DataClus heads

/-- The chain `l` once it has been resized for `length` bytes. -/
def FAT32fs.chainAfter (fs : FAT32fs) (l : List Nat) (length : Nat) : List Nat :=
  fs.fat.chainAfter fs.table l (fs.bpb.clusFor length)

/-- A hint that is pending does no harm when the chain `l` is resized for `length` bytes. -/
def FAT32fs.HintOk (fs : FAT32fs) (l : List Nat) (length : Nat) : Prop :=
  l.length < fs.bpb.clusFor length →
    fs.fat.HintUsable fs.table (fs.bpb.clusFor length - l.length) fs.fat.freeCount

/-- What a successful `truncate(length)` has done. -/
structure File.TruncatedTo (fs : FAT32fs) (heads : Set Nat) (f : File) (l : List Nat) (length : Nat)
    (fs' : FAT32fs) (f' : File) : Prop where
  file : f' = { f with fstClus := f'.fstClus, clusChain_ := none,
                       fileSz_ := if f.isDir then f.fileSz_ else length }
  bpb : fs'.bpb = fs.bpb
  resized : fs.fat.Resized fs.device fs.table l (fs.bpb.clusFor length) f.isDir f'.fstClus fs'.fat fs'.device
  sane : fs'.Sane (FAT32fs.headsAfter heads f f')
  placed : f'.Placed fs' (fs.chainAfter l length)
  others : ∀ other ∈ heads, other ≠ f.fstClus → ∀ l', Walk fs.table Eoc other l' →
    ∀ x ∈ l', fs'.table x = fs.table x

section truncate

variable {fs fs' : FAT32fs} {heads : Set Nat} {f f' : File} {l : List Nat} {length : Nat} {ok : Bool}

theorem FAT32fs.Healthy.sane (hh : fs.Healthy heads) : fs.Sane heads := ⟨hh.mounted, hh.owned.owners⟩

theorem FAT32fs.Healthy.hintOk (hh : fs.Healthy heads) (l : List Nat) (length : Nat) :
    fs.HintOk l length := fun _ => .inl hh.owned.hint

theorem FAT32fs.Sane.of_data (hs : fs.Sane heads) (d' : Device) (hcnt : d'.secCnt = fs.device.secCnt)
    (hval : ∀ s < getFirstDataSector fs.bpb, d'.value s = fs.device.value s) :
    FAT32fs.Sane { fs with device := d' } heads ∧
      ∀ x, fs.bpb.DataClus x → FAT32fs.table { fs with device := d' } x = fs.table x := by
  obtain ⟨hm, htable⟩ := hs.toMounted.of_data d' hcnt hval
  refine ⟨⟨hm, hs.owners.frame fun head hhead l₂ hw x hx => htable x ?_⟩, htable⟩
  rw [← hs.bpb]
  exact hs.owners.good_of_mem hhead hw hx

/-- A truncation that fails has only counted, whatever the hint. -/
theorem File.truncate_fails (hm : fs.Mounted) (hf : fs.bpb.ChainOf fs.table f.fstClus l)
    (hrun : f.truncate fs length = some (false, fs', f')) :
    l.length < fs.bpb.clusFor length ∧ fs' = { fs with fat := fs.fat.counted fs.table } ∧ f' = f := by
  rw [File.truncate_eq hm.sound] at hrun
  obtain ⟨⟨ok, fst, fat', d'⟩, hresize, hrun⟩ := Option.bind_eq_some_iff.mp hrun
  dsimp only at hrun
  split at hrun
  · simp at hrun
  · next hok =>
    obtain rfl : ok = false := by simpa using hok
    obtain ⟨hnum, rfl, rfl, rfl⟩ := hm.represents.resize_fails (hm.bpb.symm ▸ hf) hresize
    simp only [Option.some.injEq, Prod.mk.injEq, true_and] at hrun
    exact ⟨hnum, hrun.1.symm, hrun.2.symm⟩

/-- A truncation that fails has only counted, one that succeeds has resized the chain. -/
theorem File.truncate_some (hs : fs.Sane heads) (hhead : f.fstClus = 0 ∨ f.fstClus ∈ heads)
    (hf : fs.bpb.ChainOf fs.table f.fstClus l) (hhint : fs.HintOk l length)
    (hrun : f.truncate fs length = some (ok, fs', f')) :
    (ok = true ∧ f.TruncatedTo fs heads l length fs' f') ∨
      (ok = false ∧ l.length < fs.bpb.clusFor length ∧
        fs' = { fs with fat := fs.fat.counted fs.table } ∧ f' = f) := by
  have hrep := hs.represents
  have hf' : fs.fat.bpb.ChainOf fs.table f.fstClus l := hs.bpb.symm ▸ hf
  rw [File.truncate_eq hs.sound] at hrun
  obtain ⟨⟨ok', fst, fat', d'⟩, hresize, hrun⟩ := Option.bind_eq_some_iff.mp hrun
  rcases hrep.resized hf' hhint hresize with ⟨rfl, hr⟩ | ⟨rfl, hnum, rfl, rfl, rfl⟩
  · rw [if_pos rfl] at hrun
    obtain ⟨rfl, rfl, rfl⟩ : true = ok ∧ _ = fs' ∧ _ = f' := by simpa only [Option.some.injEq, Prod.mk.injEq] using hrun
    obtain ⟨howners, hothers⟩ := hr.owners hrep hf' hs.owners hhead
    have hm : FAT32fs.Mounted { fs with fat := fat', device := d' } :=
      ⟨hr.table.wellFormed, hr.bpb.trans hs.bpb⟩
    have htable : ∀ x, fs.fat.bpb.DataClus x → FAT32fs.table { fs with fat := fat', device := d' } x =
        fs.fat.tableAfter fs.table l (fs.bpb.clusFor length) x :=
      fun x hx => hr.table.entry x (by rw [hr.bpb]; exact hx.2)
    refine .inl ⟨rfl, rfl, rfl, hr, ⟨hm, ?_⟩, ⟨?_, .inl rfl⟩, fun other hother hne l' hw x hx => ?_⟩
    · have hown := howners.frame fun head hhead l₂ hw x hx => htable x (howners.good_of_mem hhead hw hx)
      change Owners _ Eoc fat'.bpb.DataClus _
      rwa [hr.bpb]
    · have hchain := hr.chain hrep hf'
      rw [hs.bpb] at hchain htable
      exact hchain.congr fun x hx => htable x (hchain.data x hx)
    · rw [htable x (hs.owners.good_of_mem hother hw hx)]
      exact hothers other hother hne l' hw x hx
  · rw [if_neg Bool.false_ne_true] at hrun
    obtain ⟨rfl, rfl, rfl⟩ : false = ok ∧ _ = fs' ∧ _ = f' := by simpa only [Option.some.injEq, Prod.mk.injEq] using hrun
    exact .inr ⟨rfl, hnum, rfl, rfl⟩

end truncate

/-! ### Writing to a file -/

/-- The state in which a write to a file stores its bytes: resized for the end of the run, or as it was when the run ends below the size. -/
def File.ExpandedTo (fs : FAT32fs) (heads : Set Nat) (f : File) (l : List Nat) (end_ : Nat)
    (fs₁ : FAT32fs) (f₁ : File) (l₁ : List Nat) : Prop :=
  (f.fileSz_ ≤ end_ ∧ f.TruncatedTo fs heads l end_ fs₁ f₁ ∧ l₁ = fs.chainAfter l end_) ∨
    (end_ < f.fileSz_ ∧ fs₁ = fs ∧ f₁ = f ∧ l₁ = l)

/-- What a write that stores bytes has done. -/
structure File.StoredTo (fs₁ : FAT32fs) (f₁ : File) (l₁ : List Nat) (buf : List UInt8) (offset n : Nat)
    (now : FatTimeStamp) (fs' : FAT32fs) (f' : File) : Prop where
  inside : offset < l₁.length * bytesPerClus fs₁.bpb
  count : n = fs₁.bpb.roomFor l₁ buf offset
  file : f' = (f₁.cached l₁).setWrtTime now
  state : ∃ d', fs' = { fs₁ with device := d' } ∧ d'.secCnt = fs₁.device.secCnt ∧
    d'.stored = fs₁.device.stored
  stores : Stores (fs₁.bpb.chainLoc l₁) fs₁.device.byte fs'.device.byte offset (buf.take n)

section write

variable {fs fs' fs₁ : FAT32fs} {heads heads₁ : Set Nat} {f f' f₁ : File} {l l₁ : List Nat}
  {buf : List UInt8} {offset n : Nat} {now : FatTimeStamp}

theorem FAT32fs.Sane.headsAfter_self (hs : fs.Sane heads) (hhead : f.fstClus = 0 ∨ f.fstClus ∈ heads)
    (hsame : f₁.fstClus = f.fstClus) : FAT32fs.headsAfter heads f f₁ = heads := by
  have hzero := zero_notMem_heads hs.owners
  rw [FAT32fs.headsAfter, hsame]
  rcases hhead with hnone | hmem
  · rw [hnone, rehead_zero, Set.sdiff_singleton_eq_self hzero]
  · exact rehead_self hmem fun hnone => hzero (hnone ▸ hmem)

theorem File.ExpandedTo.placed {end_ : Nat} (hs : fs.Sane heads)
    (hhead : f.fstClus = 0 ∨ f.fstClus ∈ heads) (hf : f.Placed fs l)
    (h : f.ExpandedTo fs heads l end_ fs₁ f₁ l₁) :
    fs₁.Sane (FAT32fs.headsAfter heads f f₁) ∧ f₁.Placed fs₁ l₁ := by
  rcases h with ⟨-, ht, rfl⟩ | ⟨-, rfl, rfl, rfl⟩
  · exact ⟨ht.sane, ht.placed⟩
  · rw [hs.headsAfter_self hhead rfl]
    exact ⟨hs, hf⟩

/-- A write that returns has found no room and has only counted, or it has stored what the chain holds of the buffer. -/
theorem File.write_some (hs : fs.Sane heads) (hhead : f.fstClus = 0 ∨ f.fstClus ∈ heads)
    (hf : f.Placed fs l) (hdir : f.isDir = false) (hhint : fs.HintOk l (u32 (offset + buf.length)))
    (hrun : f.write fs buf offset now = some (n, fs', f')) :
    (n = 0 ∧ f.fileSz_ ≤ u32 (offset + buf.length) ∧ l.length < fs.bpb.clusFor (u32 (offset + buf.length)) ∧
        fs' = { fs with fat := fs.fat.counted fs.table } ∧ f' = f) ∨
      ∃ fs₁ f₁ l₁, f.ExpandedTo fs heads l (u32 (offset + buf.length)) fs₁ f₁ l₁ ∧
        File.StoredTo fs₁ f₁ l₁ buf offset n now fs' f' := by
  have hexpand : f.expand fs (u32 (offset + buf.length)) =
      if f.fileSz_ ≤ u32 (offset + buf.length) then f.truncate fs (u32 (offset + buf.length))
      else some (true, fs, f) := by
    simp [File.expand, File.fileSz, hdir]
  rw [File.write, hs.sound.bytesPerSec, show decide (sectorSize ≠ 0) = true by decide, assert_true] at hrun
  obtain ⟨-, -, hrun⟩ := Option.bind_eq_some_iff.mp hrun
  obtain ⟨⟨ok, fs₁, f₁⟩, hfirst, hrest⟩ := Option.bind_eq_some_iff.mp hrun
  rw [hexpand] at hfirst
  have hcases : (ok = true ∧ ∃ l₁, f.ExpandedTo fs heads l (u32 (offset + buf.length)) fs₁ f₁ l₁) ∨
      (ok = false ∧ f.fileSz_ ≤ u32 (offset + buf.length) ∧
        l.length < fs.bpb.clusFor (u32 (offset + buf.length)) ∧
        fs₁ = { fs with fat := fs.fat.counted fs.table } ∧ f₁ = f) := by
    split at hfirst
    · next hend =>
      rcases File.truncate_some hs hhead hf.chain hhint hfirst with ⟨hok, ht⟩ | ⟨hok, hnum, hfs, hf₁⟩
      · exact .inl ⟨hok, _, .inl ⟨hend, ht, rfl⟩⟩
      · exact .inr ⟨hok, hend, hnum, hfs, hf₁⟩
    · next hend =>
      obtain ⟨rfl, rfl, rfl⟩ : true = ok ∧ fs = fs₁ ∧ f = f₁ := by simpa using hfirst
      exact .inl ⟨rfl, l, .inr ⟨Nat.not_le.mp hend, rfl, rfl, rfl⟩⟩
  rcases hcases with ⟨rfl, l₁, hexp⟩ | ⟨rfl, hend, hnum, rfl, rfl⟩
  · right
    obtain ⟨hs₁, hf₁⟩ := hexp.placed hs hhead hf
    obtain ⟨⟨cnt, fs₂, f₂⟩, hover, hrest⟩ := Option.bind_eq_some_iff.mp hrest
    obtain ⟨rfl, rfl, rfl⟩ : cnt = n ∧ fs₂ = fs' ∧ f₂.setWrtTime now = f' := by simpa using hrest
    have hin : offset < l₁.length * bytesPerClus fs₁.bpb := by
      by_contra hpast
      rw [hf₁.overwrite_stops hs₁.toMounted (Nat.not_lt.mp hpast)] at hover
      exact absurd hover (by simp)
    obtain ⟨d', hover', hcnt, hstored, hst⟩ := hf₁.overwrite_upto hs₁.toMounted buf hin
    obtain ⟨rfl, rfl, rfl⟩ : fs₁.bpb.roomFor l₁ buf offset = cnt ∧ { fs₁ with device := d' } = fs₂ ∧
        f₁.cached l₁ = f₂ := by simpa using hover'.symm.trans hover
    exact ⟨fs₁, f₁, l₁, hexp, hin, rfl, rfl, ⟨d', rfl, hcnt, hstored⟩, hst⟩
  · obtain ⟨rfl, rfl, rfl⟩ : 0 = n ∧ { fs with fat := fs.fat.counted fs.table } = fs' ∧ f₁ = f' := by
      simpa using hrest
    exact .inl ⟨rfl, hend, hnum, rfl, rfl⟩

theorem File.StoredTo.sane (hs : fs₁.Sane heads) (hf : f₁.Placed fs₁ l₁)
    (h : File.StoredTo fs₁ f₁ l₁ buf offset n now fs' f') :
    fs'.Sane heads ∧ f'.Placed fs' l₁ ∧ ∀ x, fs₁.bpb.DataClus x → fs'.table x = fs₁.table x := by
  obtain ⟨d', rfl, hcnt, -⟩ := h.state
  have hlen : (buf.take n).length ≤ l₁.length * bytesPerClus fs₁.bpb - offset := by
    rw [List.length_take, h.count, BPB.roomFor]
    omega
  obtain ⟨hs', htable⟩ := hs.of_data d' hcnt fun s hlow => funext fun i => by
    refine h.stores.outside (s, i) fun k hk heq => ?_
    have hbound := BPB.chainSector_bounds hs.sound hf.chain.data
      (hs.sound.sector_lt_of_pos (show offset + k < l₁.length * bytesPerClus fs₁.bpb by omega))
    have hsec := congrArg Prod.fst heq
    change fs₁.bpb.chainSector l₁ ((offset + k) / sectorSize) = s at hsec
    omega
  have hcached := hf.cached.of_data htable
  rw [h.file]
  exact ⟨hs', ⟨hcached.chain, hcached.cache⟩, htable⟩

end write

end FuseFat32
