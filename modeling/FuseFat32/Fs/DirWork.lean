import FuseFat32.Fs.Create
import FuseFat32.Fs.Remove

/-!
# Work on directories and the rest of the volume

Files are created and removed in the FAT and in the clusters of their directory. The sectors in front of the FAT are none of these, so the volume can be mounted afterwards as it could before, and a volume without a pending hint does not get one.
-/

namespace FuseFat32

open LinkedTable Layout Segments

/-- The sectors in front of the FAT are what they were, and no hint has come up. -/
structure FAT32fs.Beside (fs fs' : FAT32fs) : Prop where
  bpb : fs'.bpb = fs.bpb
  hint : fs.fat.freeCount = 0xFFFFFFFF → fs'.fat.freeCount = 0xFFFFFFFF
  secCnt : fs'.device.secCnt = fs.device.secCnt
  reserved : ∀ s < fs.bpb.resvdSecCnt.toNat, fs'.device.value s = fs.device.value s

section beside

variable {fs fs₁ fs' : FAT32fs} {heads : Set Nat} {dir dir' f f' : File} {l : List Nat} {length n : Nat} {ok : Bool}
  {e : LongDirEntry} {now : FatTimeStamp}

theorem FAT32fs.Beside.refl (fs : FAT32fs) : fs.Beside fs := ⟨rfl, id, rfl, fun _ _ => rfl⟩

theorem FAT32fs.Beside.trans (h : fs.Beside fs₁) (h' : fs₁.Beside fs') : fs.Beside fs' :=
  ⟨h'.bpb.trans h.bpb, fun hhint => h'.hint (h.hint hhint), h'.secCnt.trans h.secCnt,
    fun s hs => (h'.reserved s (h.bpb.symm ▸ hs)).trans (h.reserved s hs)⟩

theorem FAT32fs.Beside.counted (fs : FAT32fs) : fs.Beside { fs with fat := fs.fat.counted fs.table } :=
  ⟨rfl, id, rfl, fun _ _ => rfl⟩

theorem FAT32fs.Beside.of_data (hs : fs.bpb.Sound) {d' : Device} (hcnt : d'.secCnt = fs.device.secCnt)
    (hval : ∀ s < getFirstDataSector fs.bpb, d'.value s = fs.device.value s) : fs.Beside { fs with device := d' } := by
  have hfirst := hs.firstDataSector
  exact ⟨rfl, id, hcnt, fun s hlow => hval s (by omega)⟩

theorem File.TruncatedTo.beside (hs : fs.Sane heads) (ht : f.TruncatedTo fs heads l length fs' f') : fs.Beside fs' := by
  have htouch := ht.resized.touches
  rw [hs.bpb] at htouch
  refine ⟨ht.bpb, fun hhint => ?_, htouch.secCnt, htouch.low⟩
  rw [ht.resized.hint, hhint, ite_self]

theorem File.truncate_beside (hs : fs.Sane heads) (hhead : f.fstClus = 0 ∨ f.fstClus ∈ heads)
    (hf : fs.bpb.ChainOf fs.table f.fstClus l) (hhint : fs.HintOk l length)
    (hrun : f.truncate fs length = some (ok, fs', f')) : fs.Beside fs' := by
  rcases File.truncate_some hs hhead hf hhint hrun with ⟨-, ht⟩ | ⟨-, -, rfl, -⟩
  · exact ht.beside hs
  · exact .counted fs

theorem File.writeDirEntry_beside (hs : fs.Sane heads) (hhead : dir.fstClus ∈ heads) (hf : dir.Placed fs l)
    (hdir : dir.isDir = true) (hcap : l.length * bytesPerClus fs.bpb < 2 ^ 32) (hn : n < fs.bpb.dirSlots l)
    (hrun : dir.writeDirEntry fs n e now = some (ok, fs', dir')) : fs.Beside fs' := by
  have hmul := hs.sound.dirSlots_mul l
  rw [u32_of_lt hcap] at hmul
  have hend : kDirEntrySize * n + kDirEntrySize ≤ l.length * bytesPerClus fs.bpb := by
    rw [← hmul, ← Nat.mul_succ]
    exact Nat.mul_le_mul_left _ hn
  have hpos : kDirEntrySize * n + kDirEntrySize ≠ 0 := by simp only [kDirEntrySize]; omega
  obtain ⟨⟨cnt, fs₂, dir₂⟩, hwrite, hrest⟩ := Option.bind_eq_some_iff.mp hrun
  rw [File.write, hs.sound.bytesPerSec, show decide (sectorSize ≠ 0) = true by decide, assert_true,
    e.length_bytes, u32_of_lt (show kDirEntrySize * n < 2 ^ 32 by omega), u32_of_lt (by omega)] at hwrite
  obtain ⟨-, -, hwrite⟩ := Option.bind_eq_some_iff.mp hwrite
  obtain ⟨⟨ok₁, fs₁, dir₁⟩, hexpand, hwrite⟩ := Option.bind_eq_some_iff.mp hwrite
  obtain ⟨rfl, hstep, -⟩ := File.expand_dir hs hhead hf hdir hcap hpos hend hexpand
  have hbpb := hstep.bpb
  -- the chain is long enough, so the end mark is all that may be written in the FAT
  have hbeside : fs.Beside fs₁ := by
    obtain ⟨⟨g, hsz, hsame, hg⟩, -⟩ := hf.sized_dir hs.toMounted hdir
    rw [File.expand, hsz, Option.bind_eq_bind, Option.bind_some] at hexpand
    dsimp only at hexpand
    split at hexpand
    · have hfst : g.fstClus = dir.fstClus := by rw [hsame]
      have hnum := BPB.clusFor_le hend
      exact File.truncate_beside hs (.inr (hfst ▸ hhead)) hg.chain (fun hless => absurd hless (Nat.not_lt.mpr hnum)) hexpand
    · obtain ⟨rfl, -⟩ : fs = fs₁ ∧ g = dir₁ := by simpa using hexpand
      exact .refl fs
  have hlt : kDirEntrySize * n < l.length * bytesPerClus fs₁.bpb := by
    rw [hbpb]
    simp only [kDirEntrySize] at hend ⊢
    omega
  obtain ⟨d', hover, hcnt, -, hst⟩ := hstep.placed.overwrite hstep.sane.toMounted e.bytes hlt
    (by rw [hbpb, e.length_bytes]; exact hend)
  simp only [Bool.not_true, Bool.false_eq_true, if_false, hover, Option.bind_eq_bind, Option.bind_some,
    Option.pure_def, Option.some.injEq, Prod.mk.injEq] at hwrite hrest
  obtain ⟨-, rfl, -⟩ := hwrite
  obtain ⟨-, rfl, -⟩ := hrest
  refine hbeside.trans (.of_data hstep.sane.sound hcnt fun s hlow => funext fun i => ?_)
  refine hst.outside (s, i) fun k hk heq => ?_
  rw [e.length_bytes] at hk
  have hin : kDirEntrySize * n + k < l.length * bytesPerClus fs₁.bpb := by
    rw [hbpb]
    omega
  have hbound := (BPB.chainSector_bounds hstep.sane.sound hstep.placed.chain.data
    (hstep.sane.sound.sector_lt_of_pos hin)).1
  have hsec : fs₁.bpb.chainSector l ((kDirEntrySize * n + k) / sectorSize) = s := congrArg Prod.fst heq
  omega

theorem File.writeDirEntries_beside : ∀ {writes : List (Nat × LongDirEntry)} {fs : FAT32fs} {dir : File},
    fs.Sane heads → dir.fstClus ∈ heads → dir.Placed fs l → dir.isDir = true →
    l.length * bytesPerClus fs.bpb < 2 ^ 32 → (∀ w ∈ writes, w.1 < fs.bpb.dirSlots l) →
    File.writeDirEntries now writes fs dir = some (fs', dir') → fs.Beside fs' := by
  intro writes
  induction writes with
  | nil =>
    intro fs dir _ _ _ _ _ _ hrun
    obtain ⟨rfl, -⟩ : fs = fs' ∧ dir = dir' := by simpa [File.writeDirEntries] using hrun
    exact .refl fs
  | cons w writes ih =>
    intro fs dir hs hhead hf hdir hcap hin hrun
    obtain ⟨⟨ok, fs₁, dir₁⟩, hfirst, hrest⟩ := Option.bind_eq_some_iff.mp hrun
    have hw := hin w List.mem_cons_self
    obtain ⟨-, hstep, -⟩ := File.writeDirEntry_some hs hhead hf hdir hcap hw hfirst
    have hbpb := hstep.bpb
    refine (File.writeDirEntry_beside hs hhead hf hdir hcap hw hfirst).trans (ih hstep.sane (hstep.worked.fstClus ▸ hhead)
      hstep.placed (hstep.worked.isDir.trans hdir) (by rwa [hbpb]) (fun w hw => ?_) hrest)
    rw [hbpb]
    exact hin w (List.mem_cons_of_mem _ hw)

end beside

/-! ### The members of a directory -/

section members

variable {cs : Charset} {fs fs' : FAT32fs} {heads : Set Nat} {dir dir' child child' file : File} {l l' lf : List Nat}
  {name u gbk : List UInt8} {b : BasisName} {is_dir : Bool} {now : FatTimeStamp2} {required cnt : Nat} {ok : Bool}
  {range : DirEntryRange} {tail : List LongDirEntry} {segs : List (Segment LongDirEntry EntryGroup)}

private theorem File.allocEntries_beside (hs : fs.Sane heads) (hhead : dir.fstClus ∈ heads) (hf : dir.Placed fs l)
    (hdir : dir.isDir = true) (hok : fs.CreateOk l required) {start cur : Nat}
    (hsearch : search isEmptyDirEntry required (fs.dirEntries l) 0 (0, 0) = (start, cnt, cur))
    (hrun : dir.allocEntries fs cnt required = some (ok, fs', dir')) :
    fs.Beside fs' ∧ (ok = true → ∀ x ∈ fs.chainAfter l (fs.lengthFor l required), x ∈ l ∨ fs.table x = 0) := by
  have hcap := hok.capacity_lt hs.sound
  have hlength : l.length * bytesPerClus fs.bpb + (required - cnt) * kDirEntrySize = fs.lengthFor l required := by
    rw [FAT32fs.lengthFor, missingEntries, hsearch]
  rw [File.allocEntries] at hrun
  split at hrun
  · obtain ⟨⟨g, hsz, hsame, hg⟩, -⟩ := hf.sized_dir hs.toMounted hdir
    have hfst : g.fstClus = dir.fstClus := by rw [hsame]
    rw [u32_of_lt hcap] at hsz
    rw [hsz, Option.bind_eq_bind, Option.bind_some] at hrun
    dsimp only at hrun
    rw [hlength, u32_of_lt (hok.lengthFor_lt hs.sound)] at hrun
    have hghead : g.fstClus = 0 ∨ g.fstClus ∈ heads := .inr (hfst ▸ hhead)
    refine ⟨File.truncate_beside hs hghead hg.chain hok.hint hrun, fun htrue x hx => ?_⟩
    obtain ⟨-, ht⟩ := (File.truncate_some hs hghead hg.chain hok.hint hrun).resolve_right
      fun h => absurd (h.1.symm.trans htrue) Bool.false_ne_true
    rw [← List.take_append_drop l.length (fs.chainAfter l (fs.lengthFor l required))] at hx
    rcases List.mem_append.mp hx with hx | hx
    · left
      by_cases hnum : fs.bpb.clusFor (fs.lengthFor l required) ≤ l.length
      · rw [FAT32fs.chainAfter, FAT.chainAfter_cut hnum] at hx
        exact List.mem_of_mem_take (List.mem_of_mem_take hx)
      · rw [FAT32fs.chainAfter, FAT.chainAfter_grow (Nat.not_le.mp hnum), List.take_left] at hx
        exact hx
    · exact .inr (ht.resized.fresh x hx).2
  · next hfound =>
    obtain ⟨-, rfl, -⟩ : true = ok ∧ fs = fs' ∧ dir = dir' := by simpa using hrun
    refine ⟨.refl fs, fun _ x hx => .inl ?_⟩
    rwa [← hlength, Nat.sub_eq_zero_of_le (Nat.not_lt.mp hfound), Nat.zero_mul, Nat.add_zero,
      FAT32fs.chainAfter_self hs.sound] at hx

/-- A file is created in the clusters of its directory and in free ones. -/
theorem File.crtFileInner_beside (hs : fs.Sane heads) (hhead : dir.fstClus ∈ heads) (hf : dir.Placed fs l)
    (hdir : dir.isDir = true) (hname : StorableName cs name u gbk b is_dir now) (hok : fs.CreateOk l (requiredEntryNum u))
    (hrun : dir.crtFileInner cs fs name is_dir now = some (some file, fs', dir')) :
    fs.Beside fs' ∧ ∀ x ∈ fs.chainAfter l (fs.lengthFor l (requiredEntryNum u)), x ∈ l ∨ fs.table x = 0 := by
  have hpos : 0 < requiredEntryNum u := hname.units.required_eq ▸ Nat.succ_pos _
  rw [File.crtFileInner, hname.utf16, Option.bind_eq_bind, Option.bind_some] at hrun
  dsimp only at hrun
  generalize requiredEntryNum u = required at *
  obtain ⟨g, hsame, hg, hsearch⟩ := hf.searchFree_eq hs.toMounted hdir required now.ts
  have hread := FAT32fs.DirStep.of_same hs hsame hg
  rcases hfound : search isEmptyDirEntry required (fs.dirEntries l) 0 (0, 0) with ⟨start, cnt, cur⟩
  rw [hsearch, hfound, Option.bind_eq_bind, Option.bind_some] at hrun
  obtain ⟨⟨ok, fs₁, dir₁⟩, hplace, hrest⟩ := Option.bind_eq_some_iff.mp hrun
  have hghead : g.fstClus ∈ heads := hread.worked.fstClus ▸ hhead
  have hgdir : g.isDir = true := hread.worked.isDir.trans hdir
  cases ok with
  | false =>
    rw [if_pos (show (!false) = true from rfl)] at hrest
    cases hrest
  | true =>
    obtain ⟨hbeside, hfresh⟩ := File.allocEntries_beside hs hghead hg hgdir hok hfound hplace
    obtain ⟨l', m, hchain, hstep, -, hcap, -, hat⟩ := File.allocEntries_some hs hghead hg hgdir hok hpos hfound hplace
    have hbpb := hstep.bpb
    dsimp only at hrest
    rw [Bool.not_true, if_neg Bool.false_ne_true, hname.basis, Option.bind_eq_bind, Option.bind_some] at hrest
    obtain ⟨⟨fs₂, dir₂⟩, hwrite, hrest⟩ := Option.bind_eq_some_iff.mp hrest
    obtain ⟨-, rfl, -⟩ := by simpa using hrest
    refine ⟨hbeside.trans ?_, hfresh rfl⟩
    refine File.writeDirEntries_beside hstep.sane (hstep.worked.fstClus ▸ hghead) hstep.placed
      (hstep.worked.isDir.trans hgdir) (by rwa [hbpb]) (fun w hw => ?_) hwrite
    have hle := hat.le
    rw [FAT32fs.length_dirEntries] at hle
    have := groupEntries_places hpos (List.mem_map_of_mem hw)
    omega

/-- A file is removed in the clusters of its directory. -/
theorem File.delFile_beside {now : FatTimeStamp} (hs : fs.Sane heads) (hhead : dir.fstClus ∈ heads) (hf : dir.Placed fs l)
    (hdir : dir.isDir = true) (hcap : l.length * bytesPerClus fs.bpb < 2 ^ 32)
    (hlay : GroupLayout (fs.dirEntries l) segs tail) (hrun : dir.delFile cs fs name now = some (some range, fs', dir')) :
    fs.Beside fs' := by
  obtain ⟨⟨result, dir₁⟩, hlookup, hrun⟩ := Option.bind_eq_some_iff.mp hrun
  obtain ⟨g₁, hsame, hg₁, hrun₁⟩ := hf.lookupFileInner_eq hs.toMounted hdir hlay cs name now
  rw [hrun₁] at hlookup
  obtain ⟨u, -, hlookup⟩ := Option.bind_eq_some_iff.mp hlookup
  obtain ⟨gbk, -, hlookup⟩ := Option.map_eq_some_iff.mp hlookup
  obtain ⟨rfl, rfl⟩ := Prod.mk.inj hlookup
  have hread := FAT32fs.DirStep.of_same hs hsame hg₁
  have hhead₁ : g₁.fstClus ∈ heads := hread.worked.fstClus ▸ hhead
  have hdir₁ : g₁.isDir = true := hread.worked.isDir.trans hdir
  cases hfound : dirLookup segs u gbk with
  | none =>
    rw [hfound] at hrun
    cases hrun
  | some r =>
    rw [hfound] at hrun
    obtain ⟨⟨start, g⟩, hfind, rfl⟩ := Option.map_eq_some_iff.mp hfound
    obtain ⟨xs, zs, rfl, hstart⟩ := exists_of_mem_blocks (List.mem_of_find?_eq_some hfind)
    obtain rfl : start = (Segments.flat EntryGroup.entries xs).length := hstart.trans (Nat.zero_add _)
    have hle := hlay.cut.2.2
    rw [FAT32fs.length_dirEntries] at hle
    have hsize : 0 < g.size := Nat.succ_pos _
    obtain ⟨⟨fs₂, dir₂⟩, hwrites, hrun⟩ := Option.bind_eq_some_iff.mp hrun
    have hin : ∀ w ∈ (List.range g.size).map fun i => ((Segments.flat EntryGroup.entries xs).length + i, setDirEntryEmpty zeroDirEntry),
        w.1 < fs.bpb.dirSlots l := fun w hw => by
      obtain ⟨i, hi, rfl⟩ := List.mem_map.mp hw
      have := List.mem_range.mp hi
      dsimp only at this ⊢
      omega
    obtain ⟨hstep, -⟩ := File.writeDirEntries_some hs hhead₁ hg₁ hdir₁ hcap hin hwrites
    have hbeside := File.writeDirEntries_beside hs hhead₁ hg₁ hdir₁ hcap hin hwrites
    obtain ⟨⟨lst, dir₃⟩, hscan, hrun⟩ := Option.bind_eq_some_iff.mp hrun
    have hhead₂ : dir₂.fstClus ∈ heads := hstep.worked.fstClus ▸ hhead₁
    have hdir₂ : dir₂.isDir = true := hstep.worked.isDir.trans hdir₁
    have hbpb := hstep.bpb
    obtain ⟨hsame₃, hg₃⟩ := File.Placed.scanEntries_same hstep.sane.toMounted hstep.placed hdir₂ hscan
    have hread₃ := FAT32fs.DirStep.of_same hstep.sane hsame₃ hg₃
    dsimp only at hrun
    cases lst with
    | false =>
      obtain ⟨-, rfl, -⟩ := by simpa using hrun
      exact hbeside
    | true =>
      rw [if_neg (show ¬ (!true) = true from Bool.false_ne_true)] at hrun
      obtain ⟨⟨ok, fs₄, dir₄⟩, hmark, hrun⟩ := Option.bind_eq_some_iff.mp hrun
      have hhead₃ : dir₃.fstClus ∈ heads := hread₃.worked.fstClus ▸ hhead₂
      have hdir₃ : dir₃.isDir = true := hread₃.worked.isDir.trans hdir₂
      have hcap₃ : l.length * bytesPerClus fs₂.bpb < 2 ^ 32 := by rwa [hbpb]
      have hlast : (Segments.flat EntryGroup.entries xs).length + g.size - 1 < fs₂.bpb.dirSlots l := by
        rw [hbpb]
        omega
      obtain ⟨-, hstep₄, -⟩ := File.writeDirEntry_some hstep.sane hhead₃ hg₃ hdir₃ hcap₃ hlast hmark
      have hbeside₄ := File.writeDirEntry_beside hstep.sane hhead₃ hg₃ hdir₃ hcap₃ hlast hmark
      obtain ⟨⟨ok', fs₅, dir₅⟩, htrunc, hrun⟩ := Option.bind_eq_some_iff.mp hrun
      obtain ⟨-, rfl, -⟩ := by simpa using hrun
      have hmul := hs.sound.dirSlots_mul l
      rw [u32_of_lt hcap] at hmul
      have hend : ((Segments.flat EntryGroup.entries xs).length + 1) * kDirEntrySize ≤ l.length * bytesPerClus fs.bpb := by
        rw [← hmul, Nat.mul_comm]
        exact Nat.mul_le_mul_left _ (by omega)
      rw [u32_of_lt (Nat.lt_of_le_of_lt hend hcap)] at htrunc
      have hnum := BPB.clusFor_le hend
      have hbpb₄ : fs₄.bpb = fs.bpb := hstep₄.bpb.trans hbpb
      refine hbeside.trans (hbeside₄.trans (File.truncate_beside hstep₄.sane (.inr (hstep₄.worked.fstClus ▸ hhead₃))
        hstep₄.placed.chain (fun hless => ?_) htrunc))
      rw [hbpb₄] at hless
      exact absurd hless (Nat.not_lt.mpr hnum)

end members

end FuseFat32
