import FuseFat32.Fs.DirWork
import FuseFat32.Fs.Dropped

/-!
# New directories

`crtDir` gives the object that it has just created a cluster, and writes the entries of `.` and `..` there. The cluster was free and has been cleared, so the directory has these two entries and no other one.
-/

namespace FuseFat32

open LinkedTable Layout Segments

/-- The new directory `f` has become `f'`: it has a cluster of its own, and `es` are the entries there. -/
structure File.Settled (fs : FAT32fs) (heads : Set Nat) (f : File) (es : List LongDirEntry) (now : FatTimeStamp)
    (fs' : FAT32fs) (f' : File) : Prop where
  object : f' = { f with fstClus := f'.fstClus, wrtTime := now, clusChain_ := f'.clusChain_ }
  fresh : fs.bpb.DataClus f'.fstClus ∧ fs.table f'.fstClus = 0
  beside : fs.Beside fs'
  sane : fs'.Sane (insert f'.fstClus heads)
  placed : f'.Placed fs' [f'.fstClus]
  others : fs.KeepsOthers heads f'.fstClus fs'
  entries : fs'.dirEntries [f'.fstClus] =
    es ++ List.replicate (fs.bpb.slotsPerClus - es.length) (LongDirEntry.ofBytes fun _ => 0)

section settle

variable {fs fs₁ fs₂ fs' : FAT32fs} {heads : Set Nat} {f f₁ f₂ f' : File} {e e' : LongDirEntry} {now : FatTimeStamp}
  {ok : Bool}

theorem BPB.Sound.bytesPerClus_lt {bpb : BPB} (hs : bpb.Sound) : bytesPerClus bpb < 2 ^ 32 := by
  have hsec := bpb.secPerClus.toNat_lt
  have hbytes : bytesPerClus bpb = bpb.secPerClus.toNat * bpb.bytesPerSec.toNat := rfl
  rw [hbytes, hs.bytesPerSec, sectorSize]
  omega

/-- The directory gets a cluster that was free, and no other chain notices. -/
theorem File.TruncatedTo.first (hs : fs.Sane heads) (hfst : f.fstClus = 0) (hf : f.Placed fs []) (hdir : f.isDir = true)
    (ht : f.TruncatedTo fs heads [] (bytesPerClus fs.bpb) fs' f') :
    fs.chainAfter [] (bytesPerClus fs.bpb) = [f'.fstClus] ∧ (fs.bpb.DataClus f'.fstClus ∧ fs.table f'.fstClus = 0) ∧
      fs'.Sane (insert f'.fstClus heads) ∧ fs.KeepsOthers heads f'.fstClus fs' ∧
      fs'.dirEntries [f'.fstClus] = List.replicate fs.bpb.slotsPerClus (LongDirEntry.ofBytes fun _ => 0) := by
  have hone : fs.bpb.clusFor (bytesPerClus fs.bpb) = 1 := by
    rw [← Nat.one_mul (bytesPerClus fs.bpb), hs.sound.clusFor_mul]
  have hlen : (fs.chainAfter [] (bytesPerClus fs.bpb)).length = 1 := hone ▸ ht.resized.length
  obtain ⟨c, hc⟩ := List.length_eq_one_iff.mp hlen
  have hhead := ht.placed.chain.headD ht.sane.sound
  rw [hc, List.headD_cons] at hhead
  obtain rfl : c = f'.fstClus := hhead
  have hchain : fs.fat.chainAfter fs.table [] (fs.bpb.clusFor (bytesPerClus fs.bpb)) = [f'.fstClus] := hc
  have hfresh := ht.resized.fresh
  have htouch := ht.resized.touches
  rw [hs.bpb, hchain, List.length_nil, List.drop_zero] at htouch
  simp only [hs.bpb, hchain, List.length_nil, List.drop_zero, List.forall_mem_singleton] at hfresh
  have hpos : f'.fstClus ≠ 0 := fun hzero => not_dataClus_zero _ (hzero ▸ hfresh.1)
  refine ⟨hc, hfresh, ?_, fun other hother hne l hw x hx => ?_, ?_⟩
  · refine ⟨ht.sane.toMounted, ht.sane.owners.mono fun x hx => ?_⟩
    rcases hx with rfl | hx
    · exact .inr ⟨rfl, hpos⟩
    · exact .inl ⟨hx, fun hzero => zero_notMem_heads hs.owners (hfst ▸ hzero ▸ hx)⟩
  · have hother₀ : other ≠ f.fstClus := fun hzero => zero_notMem_heads hs.owners (hfst ▸ hzero ▸ hother)
    have hdata : fs.bpb.DataClus x := hs.bpb ▸ hs.owners.good_of_mem hother hw hx
    have hused : fs.table x ≠ 0 := fun hzero => notMem_chain_of_free hs.owners hzero hother hw hx
    refine ⟨ht.others other hother hother₀ l hw x hx, fun j hj => ?_⟩
    refine htouch.cluster hs.sound (List.forall_mem_singleton.mpr hfresh.1) hdata (fun hmem => hused ?_) hj
    rw [List.mem_singleton.mp hmem]
    exact hfresh.2
  · have hent := ht.entries hs hf hdir (by simp) (by rw [hone, Nat.one_mul]; exact hs.sound.bytesPerClus_lt)
    have hempty : fs.dirEntries [] = [] := by
      rw [← List.length_eq_zero_iff, FAT32fs.length_dirEntries, hs.sound.dirSlots_eq (by simp)]
      exact Nat.zero_mul _
    rw [hc, hone, Nat.one_mul, hempty, resizedEntries, List.take_nil, List.nil_append, List.length_nil, Nat.sub_zero] at hent
    exact hent

private theorem File.expand_accDate {end_ : Nat} (hrun : f.expand fs end_ = some (ok, fs', f')) : f'.accDate = f.accDate := by
  obtain ⟨⟨file_sz, g⟩, hsz, hrun⟩ := Option.bind_eq_some_iff.mp hrun
  have hg : g.accDate = f.accDate := by
    rw [File.fileSz] at hsz
    split_ifs at hsz
    · obtain ⟨⟨clus_chain, g₁⟩, hread, hsz⟩ := Option.bind_eq_some_iff.mp hsz
      obtain ⟨-, rfl⟩ := Prod.mk.inj (Option.some.inj hsz)
      rw [File.readClusChain] at hread
      split at hread
      · obtain ⟨-, rfl⟩ := Prod.mk.inj (Option.some.inj hread)
        rfl
      · obtain ⟨clus_chain, -, hread⟩ := Option.bind_eq_some_iff.mp hread
        obtain ⟨-, rfl⟩ := Prod.mk.inj (Option.some.inj hread)
        rfl
    · obtain ⟨-, rfl⟩ := Prod.mk.inj (Option.some.inj hsz)
      rfl
  dsimp only at hrun
  split_ifs at hrun
  · obtain ⟨-, -, hrun⟩ := Option.bind_eq_some_iff.mp hrun
    obtain ⟨⟨ok₁, fst_clus, fat, d⟩, -, hrun⟩ := Option.bind_eq_some_iff.mp hrun
    dsimp only at hrun
    split at hrun
    · obtain ⟨-, -, rfl⟩ := by simpa using hrun
      exact hg
    · obtain ⟨-, -, rfl⟩ := by simpa using hrun
      exact hg
  · obtain ⟨-, -, rfl⟩ := by simpa using hrun
    exact hg

theorem File.writeDirEntry_times {l : List Nat} {n : Nat} (hs : fs.Sane heads) (hhead : f.fstClus ∈ heads) (hf : f.Placed fs l)
    (hdir : f.isDir = true) (hcap : l.length * bytesPerClus fs.bpb < 2 ^ 32) (hn : n < fs.bpb.dirSlots l)
    (hrun : f.writeDirEntry fs n e now = some (ok, fs', f')) : f'.wrtTime = now ∧ f'.accDate = f.accDate := by
  have hmul := hs.sound.dirSlots_mul l
  rw [u32_of_lt hcap] at hmul
  have hend : kDirEntrySize * n + kDirEntrySize ≤ l.length * bytesPerClus fs.bpb := by
    rw [← hmul, ← Nat.mul_succ]
    exact Nat.mul_le_mul_left _ hn
  have hpos : kDirEntrySize * n + kDirEntrySize ≠ 0 := by simp only [kDirEntrySize]; omega
  obtain ⟨⟨cnt, fs₂, f₂⟩, hwrite, hrest⟩ := Option.bind_eq_some_iff.mp hrun
  rw [File.write, hs.sound.bytesPerSec, show decide (sectorSize ≠ 0) = true by decide, assert_true,
    e.length_bytes, u32_of_lt (show kDirEntrySize * n < 2 ^ 32 by omega), u32_of_lt (by omega)] at hwrite
  obtain ⟨-, -, hwrite⟩ := Option.bind_eq_some_iff.mp hwrite
  obtain ⟨⟨ok₁, fs₁, f₁⟩, hexpand, hwrite⟩ := Option.bind_eq_some_iff.mp hwrite
  have hacc := File.expand_accDate hexpand
  obtain ⟨rfl, hstep, -⟩ := File.expand_dir hs hhead hf hdir hcap hpos hend hexpand
  have hlt : kDirEntrySize * n < l.length * bytesPerClus fs₁.bpb := by
    rw [hstep.bpb]
    simp only [kDirEntrySize] at hend ⊢
    omega
  obtain ⟨d', hover, -⟩ := hstep.placed.overwrite hstep.sane.toMounted e.bytes hlt
    (by rw [hstep.bpb, e.length_bytes]; exact hend)
  simp only [Bool.not_true, Bool.false_eq_true, if_false, hover, Option.bind_eq_bind, Option.bind_some,
    Option.pure_def, Option.some.injEq, Prod.mk.injEq] at hwrite hrest
  obtain ⟨-, -, rfl⟩ := hwrite
  obtain ⟨-, -, rfl⟩ := hrest
  exact ⟨rfl, hacc⟩

/-- A cluster of its own, and two entries there. -/
theorem File.settle (hs : fs.Sane heads) (hhint : fs.fat.freeCount = 0xFFFFFFFF) (hfst : f.fstClus = 0)
    (hf : f.Placed fs []) (hdir : f.isDir = true) (htrunc : f.truncate fs (bytesPerClus fs.bpb) = some (true, fs₁, f₁))
    (hdot : f₁.writeDirEntry fs₁ 0 e now = some (true, fs₂, f₂))
    (hdotdot : f₂.writeDirEntry fs₂ 1 e' now = some (true, fs', f')) : f.Settled fs heads [e, e'] now fs' f' := by
  obtain ⟨-, ht⟩ := (File.truncate_some hs (.inl hfst) hf.chain (fun _ => .inl hhint) htrunc).resolve_right
    fun hno => absurd hno.1.symm Bool.false_ne_true
  obtain ⟨hchain, hfresh, hsane, hothers, hent⟩ := ht.first hs hfst hf hdir
  have hbeside := ht.beside hs
  have hbpb := hbeside.bpb
  have hplaced : f₁.Placed fs₁ [f₁.fstClus] := hchain ▸ ht.placed
  have hhead : f₁.fstClus ∈ insert f₁.fstClus heads := Set.mem_insert _ _
  have hdir₁ : f₁.isDir = true := by rw [ht.file, hdir]
  have hcap : [f₁.fstClus].length * bytesPerClus fs.bpb < 2 ^ 32 := by
    rw [List.length_singleton, Nat.one_mul]
    exact hs.sound.bytesPerClus_lt
  have hslots : fs.bpb.dirSlots [f₁.fstClus] = fs.bpb.slotsPerClus := by
    rw [hs.sound.dirSlots_eq hcap, List.length_singleton, Nat.one_mul]
  -- a cluster has room for both
  have htwo : 1 < fs.bpb.slotsPerClus := by
    have hmul := hs.sound.bytesPerClus_eq_slots
    have hsec : sectorSize ≤ bytesPerClus fs.bpb := Nat.le_of_dvd hs.sound.bytesPerClus_pos ⟨fs.bpb.secPerClus.toNat, by
      rw [bytesPerClus, hs.sound.bytesPerSec, Nat.mul_comm]⟩
    simp only [kDirEntrySize, sectorSize] at hmul hsec
    omega
  rw [← hbpb] at hcap hslots htwo
  obtain ⟨-, hstep₁, hent₁⟩ := File.writeDirEntry_some hsane hhead hplaced hdir₁ hcap (by omega) hdot
  have hbeside₁ := File.writeDirEntry_beside hsane hhead hplaced hdir₁ hcap (by omega) hdot
  obtain ⟨-, hacc₁⟩ := File.writeDirEntry_times hsane hhead hplaced hdir₁ hcap (by omega) hdot
  have hbpb₁ := hstep₁.bpb
  have hfst₁ := hstep₁.worked.fstClus
  have hhead₂ : f₂.fstClus ∈ insert f₁.fstClus heads := hfst₁ ▸ hhead
  have hdir₂ : f₂.isDir = true := hstep₁.worked.isDir.trans hdir₁
  rw [← hbpb₁] at hcap hslots htwo
  obtain ⟨-, hstep₂, hent₂⟩ := File.writeDirEntry_some hstep₁.sane hhead₂ hstep₁.placed hdir₂ hcap (by omega) hdotdot
  have hbeside₂ := File.writeDirEntry_beside hstep₁.sane hhead₂ hstep₁.placed hdir₂ hcap (by omega) hdotdot
  have hstep := hstep₁.trans hstep₂ fun x hx => .inl hx
  have hfst' : f'.fstClus = f₁.fstClus := hstep.worked.fstClus
  obtain ⟨hwrt, hacc₂⟩ := File.writeDirEntry_times hstep₁.sane hhead₂ hstep₁.placed hdir₂ hcap (by omega) hdotdot
  refine ⟨?_, hfst' ▸ hfresh, hbeside.trans (hbeside₁.trans hbeside₂), hfst' ▸ hstep.sane, hfst' ▸ hstep.placed, ?_, ?_⟩
  · have hworked := hstep.worked
    unfold File.Worked at hworked
    have hacc : f'.accDate = f₁.accDate := hacc₂.trans hacc₁
    rw [hworked, hacc, ← hwrt, ht.file, hdir]
    rfl
  · have hkept := hstep.keepsOthers hsane hhead hplaced
    rw [hfst']
    exact hothers.trans (fun other hother => hkept other (.inr hother)) hbpb
  · obtain ⟨n, hn⟩ := Nat.exists_eq_add_of_le' htwo
    rw [hbpb₁, hbpb] at hn
    rw [hfst', hent₂, hent₁, hent, hn]
    rfl

end settle

/-! ### The entries of `.` and `..` -/

section dots

variable {primary primary' : List UInt8} {ts ts' : FatTimeStamp2} {clus clus' : Nat} {now now' : FatTimeStamp2}

theorem mkDotEntry_kind (h : primary = [0x2E] ∨ primary = [0x2E, 0x2E]) (ts : FatTimeStamp2) (clus : Nat)
    (now : FatTimeStamp2) :
    isEmptyDirEntry (castShortDirEntryToLong (mkDotEntry (.fill primary []) ts clus now)) = false ∧
      isLongDirEntry (castShortDirEntryToLong (mkDotEntry (.fill primary []) ts clus now)) = false ∧
      readShortEntryName (mkDotEntry (.fill primary []) ts clus now) = some primary := by
  -- times and clusters do not count
  have hsame : ShortDirEntry.SameName (mkDotEntry (.fill primary []) ⟨0, ⟨0, 0⟩⟩ 0 ⟨0, ⟨0, 0⟩⟩)
      (mkDotEntry (.fill primary []) ts clus now) := ⟨rfl, rfl⟩
  rw [← castLongDirEntryToShort_castShortDirEntryToLong (mkDotEntry (.fill primary []) ⟨0, ⟨0, 0⟩⟩ 0 ⟨0, ⟨0, 0⟩⟩)] at hsame
  obtain ⟨hempty, -, hlong⟩ := hsame.kind
  rw [hempty, hlong, hsame.readShortEntryName]
  rcases h with rfl | rfl <;> decide +kernel

/-- The group of `.` or of `..`. -/
def dotGroup (h : primary = [0x2E] ∨ primary = [0x2E, 0x2E]) (ts : FatTimeStamp2) (clus : Nat) (now : FatTimeStamp2) :
    EntryGroup :=
  .ofShort _ (mkDotEntry_kind h ts clus now).1 (mkDotEntry_kind h ts clus now).2.1

theorem dotGroup_shortName (h : primary = [0x2E] ∨ primary = [0x2E, 0x2E]) :
    (dotGroup h ts clus now).shortName = primary := by
  have hname := (mkDotEntry_kind h ts clus now).2.2
  rw [EntryGroup.shortName, dotGroup, EntryGroup.ofShort, castLongDirEntryToShort_castShortDirEntryToLong, hname]
  rfl

theorem GroupLayout.dots (h : primary = [0x2E] ∨ primary = [0x2E, 0x2E]) (h' : primary' = [0x2E] ∨ primary' = [0x2E, 0x2E])
    (n : Nat) : GroupLayout ([castShortDirEntryToLong (mkDotEntry (.fill primary []) ts clus now),
        castShortDirEntryToLong (mkDotEntry (.fill primary' []) ts' clus' now')] ++
          List.replicate n (LongDirEntry.ofBytes fun _ => 0))
      [.block (dotGroup h ts clus now), .block (dotGroup h' ts' clus' now')]
      (List.replicate n (LongDirEntry.ofBytes fun _ => 0)) := by
  refine ⟨rfl, fun e he => by simp at he, fun e he => ?_⟩
  rw [List.eq_of_mem_replicate (List.mem_of_mem_head? he)]
  exact isLstEmpty_zero.1

end dots

end FuseFat32
