import FuseFat32.Fuse.Pending

/-!
# Files that are created

`fat32_create` gives a name to a new file and holds its object, which the map has from then on. The group of the file comes to lie between those that the directory has, and no file gets another inode number by it.
-/

namespace FuseFat32

open LinkedTable Layout Segments WriteBack

section create

variable {cs : Charset} {t : Tree} {s s' : Driver} {σ : Nat → File} {dir dir' f : File} {parent mode start : Nat}
  {fs fs' : FAT32fs} {table : Nat → List UInt8 → Option Nat} {ns : Namespace} {name u gbk : List UInt8}
  {b : BasisName} {now : FatTimeStamp2} {is_dir : Bool} {answer : NameAnswer} {front back : List (Nat × EntryGroup)} {g : EntryGroup}

/-! ### The directory and the map -/

private theorem Tree.view_created (t : Tree) (fs : FAT32fs) (c start : Nat) (name : List UInt8) (b : BasisName)
    (now : FatTimeStamp2) :
    t.View fs (.ofEntry c start name (mkShortDirEntry b false now)) (.created now) := by
  have hdir := isDirectory_mkShortDirEntry b false now
  refine ⟨hdir.symm, ?_, fun _ l _ p hp => absurd hp (Nat.not_lt_zero p), rfl, rfl, rfl⟩
  change 0 = if isDirectory (mkShortDirEntry b false now) = true then _ else 0
  rw [hdir]
  rfl

/-- The new file joins those of the directory. -/
theorem Driver.Pending.file (hcs : cs.Inverts) (h : s.Pending cs t σ dir table ns front back start g)
    (hparent : t.Names parent dir) (hplain : isPlainName cs name = true) (hname : StorableName cs name u gbk b false now)
    (hmade : g.MadeFor cs name u false) (hnames : ns.names parent = inoNames cs dir.fstClus (front ++ back))
    (hnone : groupNames cs (front ++ back) name = none) (htenths : now.tt.toNat ≤ 199)
    (hf : f = .ofEntry dir.fstClus start name (mkShortDirEntry b false now)) : ∃ t' σ' table',
      s.InDir cs t' σ' [f] dir ∧ f.ino ≠ dir.ino ∧ ns.files f.ino = none ∧
        t'.Shown cs s.fs σ' table' (ns.added parent name f.ino (.created now)) := by
  have hv : t.Volume cs s.fs σ := h.inDir.volume
  have hlt := h.row.start_lt hv.mounted.sound (List.mem_append_right front List.mem_cons_self)
  have hkind : f.isDir = false := by
    rw [hf]
    exact isDirectory_mkShortDirEntry b false now
  have hempty : f.fstClus = 0 ∧ f.fileSz_ = 0 := by
    rw [hf]
    exact ⟨readEntryClusNo_mkShortDirEntry b false now, rfl⟩
  have hino : f.ino = dir.fstClus * 2 ^ 32 + start := by
    rw [hf]
    rfl
  have hfname : f.name = name := by rw [hf, File.ofEntry]
  have hstands : f.Stands (dir.fstClus * 2 ^ 32 + start) := hf ▸ File.stands_ofEntry h.start_lt htenths
  have hplaced : f.MayCache s.fs f := ⟨⟨f.clusChain_, rfl⟩, [], hf ▸ File.ofEntry_new_placed ..⟩
  have hview : t.View s.fs f (.created now) := hf ▸ t.view_created ..
  have hjoins := h.joins (f := f) (by rwa [hfname, hkind]) hstands
  have hdiv : (dir.fstClus * 2 ^ 32 + start) / 2 ^ 32 = dir.fstClus := (groupIno_div (p := (start, g)) h.start_lt).1
  have hg := t.gains_withFile (dir.fstClus * 2 ^ 32 + start) g.longs.length
  have hbut := h.shown.withFile hv hjoins hdiv (h.inDir.opens hparent) hkind hview name
  have hpage := h.page hg hmade.notDots
  have hinserted := hmade.names hcs hplain hname hnames hnone start
  have hv' := hv.withFile hjoins hkind hempty
  rw [← hino] at hg hv' hbut
  have hin := h.inDir
  rw [← hino] at hin
  have hin' := hin.adopt h.map (hino ▸ hjoins.new) hg hv' hplaced
  have hroot : f.ino ≠ kRootDirIno := (Nat.zero_lt_one.trans (hv'.root_lt (hg.inos ▸ Set.mem_insert _ _))).ne'
  refine ⟨_, _, _, hin', hin.ne_of_new (hino ▸ hjoins.new) hroot, h.shown.rest _ (hino ▸ hjoins.new),
    hbut.shown (hin'.opens hparent) (hino ▸ hpage) ?_⟩
  rw [hinserted, hino]
  exact Function.update_self ..

/-- A directory without room for the file has been looked through. -/
theorem Driver.InDir.crtFile_none (h : s.InDir cs t σ [] dir) (hs : t.Shown cs s.fs σ table ns)
    (hrun : dir.crtFileInner cs s.fs name is_dir now = some (none, fs', dir')) : ∃ σ',
      Driver.InDir cs t ⟨fs', s.files⟩ σ' [] dir' ∧ fs'.bpb = s.fs.bpb ∧
        t.Shown cs fs' σ' table (ns.modify dir.ino fun v => { v with accDate := dir'.accDate }) := by
  obtain ⟨rfl, hsame, hplaced⟩ := File.crtFileInner_none h.volume.mounted h.placed h.isDir hrun
  obtain ⟨σ', h', hs'⟩ := h.reread hs hsame hplaced
  exact ⟨σ', h'.counted, rfl, hs'.alike h'.volume h'.volume.counted.2.1⟩

/-- `fat32_create` does what clients are told. -/
theorem Driver.Has.fat32Create (hcs : cs.Inverts) (h : s.Has cs ns)
    (hfits : (NameRequest.create parent name mode now).Fits cs s ns)
    (hrun : s.fat32Create cs parent name mode now = some (answer, s')) (bpb : BPB)
    (unix2DosTs : Timespec → FatTimeStamp) : ∃ ns',
    ns.Step bpb unix2DosTs answer ns' (.create parent name mode now) ∧ s'.Has cs ns' ∧ s'.fs.bpb = s.fs.bpb := by
  obtain ⟨hd, hplain, htenths, hcreate⟩ := hfits
  rw [Driver.fat32Create] at hrun
  simp only [Namespace.Step]
  split_ifs at hrun ⊢ with hinvalid hillegal
  · obtain ⟨rfl, rfl⟩ : .err .einval = answer ∧ s = s' := by simpa using hrun
    exact ⟨ns, ⟨rfl, rfl⟩, h, rfl⟩
  · obtain ⟨rfl, rfl⟩ : .err .eperm = answer ∧ s = s' := by simpa using hrun
    exact ⟨ns, ⟨rfl, rfl⟩, h, rfl⟩
  obtain ⟨⟨dir, s₁⟩, hget, hrun⟩ := Option.bind_eq_some_iff.mp hrun
  obtain ⟨⟨found, dir₁, s₂⟩, hlookup, hrun⟩ := Option.bind_eq_some_iff.mp hrun
  obtain ⟨t, σ, table, acc, hfound, hbpb, hsame⟩ := h.lookupFile hd hplain hget hlookup
  have hparent := hfound.opened
  rw [hfound.found]
  cases found with
  | some f =>
    obtain ⟨-, hne, -⟩ := hfound.file f rfl
    obtain ⟨s₃, s₄, hrelease, hclose, hhas, hbpb'⟩ := hfound.inDir.finish_file hne hfound.shown
    simp only [hrelease, hclose, Option.bind_eq_bind, Option.bind_some, Option.pure_def, Option.some.injEq,
      Prod.mk.injEq] at hrun
    obtain ⟨rfl, rfl⟩ := hrun
    exact ⟨_, ⟨rfl, acc, rfl⟩, hhas, hbpb'.trans hbpb⟩
  | none =>
    obtain ⟨⟨result, dir₂, s₃⟩, hcrt, hrest⟩ := Option.bind_eq_some_iff.mp hrun
    have hdir : s₂.InDir cs t σ [] dir₁ := hfound.inDir
    cases result with
    | none =>
      obtain ⟨fs', hinner, rfl⟩ := Driver.crtFileInner_none hcrt
      obtain ⟨σ', h', hbpb₁, hs'⟩ := hdir.crtFile_none hfound.shown hinner
      rw [hdir.volume.modify_dir hfound.shown.rest hparent, ns.modify_modify] at hs'
      obtain ⟨s₄, hrelease, hhas, hbpb'⟩ := h'.finish hs'
      simp only [hrelease, Option.bind_eq_bind, Option.bind_some, Option.pure_def, Option.some.injEq, Prod.mk.injEq]
        at hrest
      obtain ⟨rfl, rfl⟩ := hrest
      exact ⟨_, .inl ⟨rfl, dir₂.accDate, rfl⟩, hhas, hbpb'.trans (hbpb₁.trans hbpb)⟩
    | some file =>
      obtain ⟨rfl, hplaced⟩ := hsame rfl
      obtain ⟨u, gbk, b, hname, hroom⟩ := hcreate (by simpa using hinvalid) hfound.found
      have habsent : table dir₁.fstClus name = none := (congrFun hfound.names name).symm.trans hfound.found
      obtain ⟨t₁, σ₁, ns₁, front, back, start, g, hpending, hmade, hparent₁, hfile, hworked, hnames, hno, hbpb₁⟩ :=
        hdir.crtFileInner hcs hfound.shown hparent hplain hname habsent (hroom dir s₂ hget _ (hplaced _ hdir.placed)) hcrt
      rw [← hworked.kept.1] at hnames
      obtain ⟨t', σ', table', h', hne, hnone, hs'⟩ :=
        hpending.file hcs hparent₁ hplain hname hmade hnames hno htenths hfile
      obtain ⟨v, f', hfile, hstat, hino, -, h''⟩ := h'.view hs'
      obtain rfl := Option.some.inj (hfile.symm.trans (Function.update_self ..))
      obtain ⟨s₆, s₇, hrelease, hclose, hhas, hbpb'⟩ := h''.finish_file (hino.trans_ne hne) hs'
      simp only [hstat, hrelease, hclose, Option.bind_eq_bind, Option.bind_some, Option.pure_def, Option.some.injEq,
        Prod.mk.injEq] at hrest
      obtain ⟨rfl, rfl⟩ := hrest
      have hdone : ns.Worked parent ns₁ := .of_touched ⟨acc, rfl⟩ hworked
      exact ⟨_, .inr ⟨file.ino, ns₁, (hdone.kept.2 _).mp hnone, by rw [hino], hdone, rfl⟩, hhas, hbpb'.trans (hbpb₁.trans hbpb)⟩

end create

end FuseFat32
