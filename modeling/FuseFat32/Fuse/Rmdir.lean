import FuseFat32.Fuse.Deletes

/-!
# Directories that are removed

`fat32_rmdir` asks whether anything but `.` and `..` is left in the directory, and goes on like `fat32_unlink` when nothing is. A file that no name reaches keeps its directory too.
-/

namespace FuseFat32

open LinkedTable Layout WriteBack

section page

variable {cs : Charset} {t : Tree} {fs : FAT32fs} {σ : Nat → File} {table : Nat → List UInt8 → Option Nat}
  {names : List UInt8 → Option Nat} {ns : Namespace} {c k parent : Nat} {name : List UInt8} {dir : File}

theorem Tree.Page.named (h : t.Page cs fs c names) (hs : fs.bpb.Sound) (hname : names name = some k) :
    k ∈ t.inos ∧ k / 2 ^ 32 = c := by
  obtain ⟨gs, hrow, hlists, -, rfl⟩ := h.names
  rw [inoNames] at hname
  split_ifs at hname with hplain
  obtain ⟨range, hfound, rfl⟩ := Option.map_eq_some_iff.mp hname
  obtain ⟨p, hp, rfl, hino, -⟩ := hlists.found hplain hfound
  exact ⟨hino, (groupIno_div (hrow.start_lt hs hp)).1⟩

/-- The directory has no file if and only if `isEmpty` says so. -/
theorem Tree.Page.isEmpty (h : t.Page cs fs c names) (hm : fs.Mounted) (hne : c ≠ fs.bpb.rootClus.toNat)
    (hf : dir.Placed fs (t.chain c)) (hdir : dir.isDir = true) (hroot : dir.ino ≠ kRootDirIno) (now : FatTimeStamp) :
    ∃ empty g, dir.isEmpty fs now = some (empty, g) ∧ dir.Same g ∧ g.Placed fs (t.chain c) ∧
      (empty = true ↔ ∀ k ∈ t.inos, k / 2 ^ 32 ≠ c) := by
  obtain ⟨gs, hrow, hlists, hdots, -⟩ := h.names
  obtain ⟨segs, tail, hlay, htail, -, rfl⟩ := id hrow
  obtain ⟨g, hsame, hg, hrun⟩ := hf.isLstNonEmptyEntry_eq hm hdir (n := 1) (by decide) now
  refine ⟨_, g, by rw [File.isEmpty, if_neg hroot]; exact hrun, hsame, hg, (hlay.restEmpty_drop htail 2).trans ⟨?_, ?_⟩⟩
  · rintro hearly k hk rfl
    obtain ⟨⟨i, g⟩, hp, hino⟩ := hlists.all k hk rfl
    have hend : i + g.size ≤ 2 := hearly _ hp
    have hsize : 0 < g.size := Nat.succ_pos _
    -- the entry is that of `.` or of `..`
    obtain ⟨g', hg', hgdots⟩ := hdots hne i (by omega)
    obtain ⟨-, rfl⟩ := Prod.mk.inj (hrow.eq_of_start hg' hp rfl)
    exact hlists.plain _ hp (hino.symm ▸ hk) hgdots
  · intro hvacant p hp
    rcases hlists.known p hp with ⟨hino, -⟩ | ⟨⟨hlongs, -⟩, hlt⟩
    · exact absurd (groupIno_div (hrow.start_lt hm.sound hp)).1 (hvacant _ hino)
    · have hsize : p.2.size = p.2.longs.length + 1 := rfl
      rw [hsize, hlongs]
      exact hlt

theorem Tree.Shown.named (h : t.Shown cs fs σ table ns) (hv : t.Volume cs fs σ) (hd : ns.HasDir parent)
    (hname : ns.names parent name = some k) : k ∈ t.inos ∧
      (k / 2 ^ 32 = fs.bpb.rootClus.toNat ∨ parent ∈ t.subdirs ∧ k / 2 ^ 32 = (σ parent).fstClus) := by
  have hs := hv.mounted.sound
  rcases h.hasDir hv hd with rfl | hsub
  · rw [h.root] at hname
    obtain ⟨hk, hdiv⟩ := (h.catalog.page _ h.catalog.root).named hs hname
    exact ⟨hk, .inl hdiv⟩
  · rw [h.names _ hsub] at hname
    obtain ⟨hk, hdiv⟩ := (h.catalog.page _ (hv.subdirs _ hsub).2).named hs hname
    exact ⟨hk, .inr ⟨hsub, hdiv⟩⟩

/-- A directory with a file in it is occupied. -/
theorem Tree.Shown.occupied (h : t.Shown cs fs σ table ns) (hv : t.Volume cs fs σ) {j : Nat} (hj : j ∈ t.subdirs)
    (hk : k ∈ t.inos) (hdiv : k / 2 ^ 32 = (σ j).fstClus) : ns.Occupied j := by
  by_cases hnamed : ∃ name k, ns.names j name = some k
  · exact .inl hnamed
  obtain ⟨v, hfile, -⟩ := h.views k hk
  refine .inr ⟨k, v, hfile, fun parent name hd hname => ?_⟩
  obtain ⟨-, hroot | ⟨hsub, hparent⟩⟩ := h.named hv hd hname
  · exact (h.catalog.below j hj).1 (hdiv.symm.trans hroot)
  · obtain rfl := h.catalog.apart j hj parent hsub (hdiv.symm.trans hparent)
    exact hnamed ⟨name, k, hname⟩

end page

section namespaces

variable {ns ns₁ ns' : Namespace} {parent ino : Nat}

theorem Namespace.Occupied.of_touched (h : ns'.Occupied ino) (htouched : ns.Touched parent ns') : ns.Occupied ino := by
  obtain ⟨acc, rfl⟩ := htouched
  refine h.imp_right fun ⟨k, v, hfile, hno⟩ => ?_
  have hsome : ns.files k ≠ none := fun hnone => by
    rw [ns.modify_files_eq_none.mpr hnone] at hfile
    exact absurd hfile (by simp)
  obtain ⟨v', hfile'⟩ := Option.ne_none_iff_exists'.mp hsome
  refine ⟨k, v', hfile', fun dir name hd => hno dir name (hd.imp_right fun ⟨w, hw, hdir⟩ => ?_)⟩
  by_cases hp : dir = parent
  · subst hp
    exact ⟨_, (ns.modify_files_self dir _).trans (congrArg (Option.map _) hw), hdir⟩
  · exact ⟨w, (ns.modify_files_of_ne hp _).trans hw, hdir⟩

/-- Nothing is left of what has been done to a file that is removed. -/
theorem Namespace.Worked.removed {change : FileView → FileView} (h : (ns.modify ino change).Worked parent ns₁)
    (hne : ino ≠ parent) : ∃ ns₂, ns.Worked parent ns₂ ∧ ns₁.removed parent ino = ns₂.removed parent ino := by
  obtain ⟨size, acc, wrt, rfl⟩ := h
  refine ⟨_, ⟨size, acc, wrt, rfl⟩, congrArg (Namespace.mk · _) (funext fun k => ?_)⟩
  by_cases hk : k = ino
  · rw [hk, Function.update_self, Function.update_self]
  · rw [Function.update_of_ne hk, Function.update_of_ne hk]
    by_cases hkp : k = parent
    · rw [hkp, Namespace.modify_files_self, Namespace.modify_files_self, ns.modify_files_of_ne hne.symm]
    · rw [Namespace.modify_files_of_ne _ hkp, Namespace.modify_files_of_ne _ hkp, ns.modify_files_of_ne hk]

end namespaces

section rmdir

variable {cs : Charset} {s s' : Driver} {ns : Namespace} {parent : Nat} {name : List UInt8} {now : FatTimeStamp}
  {answer : NameAnswer}

/-- `fat32_rmdir` does what clients are told. -/
theorem Driver.Has.fat32Rmdir (h : s.Has cs ns) (hd : ns.HasDir parent) (hplain : isPlainName cs name = true)
    (hrun : s.fat32Rmdir cs parent name now = some (answer, s')) (bpb : BPB) (unix2DosTs : Timespec → FatTimeStamp) :
    ∃ ns', ns.Step bpb unix2DosTs answer ns' (.rmdir parent name now) ∧ s'.Has cs ns' ∧ s'.fs.bpb = s.fs.bpb := by
  obtain ⟨⟨dir, s₁⟩, hget, hrun⟩ := Option.bind_eq_some_iff.mp hrun
  obtain ⟨⟨found, dir₁, s₂⟩, hlookup, hrun⟩ := Option.bind_eq_some_iff.mp hrun
  obtain ⟨t, σ, table, acc, hfound, hbpb, -⟩ := h.lookupFile hd hplain hget hlookup
  simp only [Namespace.Step]
  rw [hfound.found]
  cases found with
  | none =>
    obtain ⟨s₃, hrelease, hhas, hbpb'⟩ := hfound.finish
    simp only [hrelease, Option.bind_eq_bind, Option.bind_some, Option.pure_def, Option.some.injEq, Prod.mk.injEq] at hrun
    obtain ⟨rfl, rfl⟩ := hrun
    exact ⟨_, ⟨rfl, acc, rfl⟩, hhas, hbpb'.trans hbpb⟩
  | some child =>
    obtain ⟨hclus, hne, hnotdir⟩ := hfound.file child rfl
    have hdir₁ : s₂.InDir cs t σ [child] dir₁ := hfound.inDir
    have hs := hfound.shown
    have hv := hdir₁.volume
    obtain ⟨v, -, hfile, -, -, hkind, -⟩ := hdir₁.view hs
    rw [ns.modify_files_of_ne hnotdir] at hfile
    dsimp only at hrun
    split_ifs at hrun with hdir
    · obtain ⟨s₃, s₄, hrelease, hclose, hhas, hbpb'⟩ := hdir₁.finish_file hne hs
      simp only [hrelease, hclose, Option.bind_eq_bind, Option.bind_some, Option.pure_def, Option.some.injEq,
        Prod.mk.injEq] at hrun
      obtain ⟨rfl, rfl⟩ := hrun
      refine ⟨_, ⟨v, hfile, ?_⟩, hhas, hbpb'.trans hbpb⟩
      rw [if_neg (by simpa [hkind] using hdir)]
      exact ⟨rfl, acc, rfl⟩
    · have hdir : child.isDir = true := by simpa using hdir
      obtain ⟨hk, hcache⟩ := hdir₁.shows
      have hsub : child.ino ∈ t.subdirs := ((hv.kind hk).resolve_left fun hno =>
        absurd (hdir.symm.trans (hcache.retimed.kind.1.trans hno.2)) (by decide)).1
      have hroot : child.ino ≠ kRootDirIno := (Nat.zero_lt_one.trans (hv.root_lt hk)).ne'
      have hfst := hcache.retimed.data.1
      have hhead : (σ child.ino).fstClus ∈ t.dirs := (hv.subdirs _ hsub).2
      obtain ⟨lf, hplaced⟩ := hcache.placed
      obtain rfl := hplaced.chain.unique (hfst.symm ▸ hv.dirs _ hhead)
      obtain ⟨empty, child₁, hempty, hsame, hplaced₁, hiff⟩ :=
        (hs.catalog.page _ hhead).isEmpty hv.mounted (hs.catalog.below _ hsub).1 (hfst ▸ hplaced) hdir hroot now
      have hino : child₁.ino = child.ino := by rw [hsame, File.ino, File.ino]
      obtain ⟨σ', hdir₂, hs₁⟩ := hdir₁.reread_held hs hsame hplaced₁
      have hacc : ns.Touched parent (ns.modify parent fun v => { v with accDate := acc }) := ⟨acc, rfl⟩
      simp only [hempty, Option.bind_eq_bind, Option.bind_some] at hrun
      split_ifs at hrun with hfull
      · obtain ⟨s₃, s₄, hrelease, hclose, hhas, hbpb'⟩ := hdir₂.finish_file (hino.trans_ne hne) hs₁
        simp only [hrelease, hclose, Option.bind_some, Option.pure_def, Option.some.injEq, Prod.mk.injEq] at hrun
        obtain ⟨rfl, rfl⟩ := hrun
        refine ⟨_, ⟨v, hfile, ?_⟩, hhas, hbpb'.trans hbpb⟩
        have hlive : ¬ ∀ k ∈ t.inos, k / 2 ^ 32 ≠ (σ child.ino).fstClus := fun hall => by simp [hiff.mpr hall] at hfull
        push Not at hlive
        obtain ⟨k, hkino, hdiv⟩ := hlive
        rw [if_pos (hkind.trans hdir)]
        exact .inl ⟨rfl, (hs.occupied hv hsub hkino hdiv).of_touched hacc, _, hacc, _, rfl⟩
      · have hvacant : ∀ k ∈ t.inos, k / 2 ^ 32 ≠ (σ child.ino).fstClus := hiff.mp (by simpa using hfull)
        obtain ⟨⟨result, dir₂, s₃⟩, hdelete, hrun⟩ := Option.bind_eq_some_iff.mp hrun
        obtain ⟨⟨⟩, hassert, hrun⟩ := Option.bind_eq_some_iff.mp hrun
        obtain ⟨⟨child', s₄⟩, hdestroy, hrun⟩ := Option.bind_eq_some_iff.mp hrun
        have hfst₁ : (σ' child₁.ino).fstClus = (σ child.ino).fstClus := by
          rw [← hdir₂.shows.2.retimed.data.1, ← hfst, hsame]
        have hname : table dir₁.fstClus name = some child₁.ino :=
          ((congrFun hfound.names name).symm.trans hfound.found).trans (congrArg some hino.symm)
        have hclus₁ : child₁.ino / 2 ^ 32 = dir₁.fstClus := by rw [hino, hclus]
        have hsub₁ : child₁.ino ∈ t.subdirs := by rwa [hino]
        obtain ⟨ns₁, s₅, s₆, hworked, hrelease, hclose, hhas, hbpb'⟩ := hdir₂.delete hs₁ hfound.opened hname
          (fun k hk => hfst₁ ▸ hvacant k hk) (fun j hj hne heq => hne (hs₁.catalog.apart j hj _ hsub₁ heq)) hclus₁
          hdelete (assert_eq_some.mp hassert) hdestroy
        obtain ⟨ns₂, hworked₂, hremoved⟩ := hworked.removed hnotdir
        rw [hino, hremoved] at hhas
        simp only [hrelease, hclose, Option.bind_some, Option.pure_def, Option.some.injEq, Prod.mk.injEq] at hrun
        obtain ⟨rfl, rfl⟩ := hrun
        refine ⟨_, ⟨v, hfile, ?_⟩, hhas, hbpb'.trans hbpb⟩
        rw [if_pos (hkind.trans hdir)]
        refine .inr ⟨fun name => ?_, ns₂, rfl, .of_touched hacc hworked₂, rfl⟩
        by_contra hsome
        obtain ⟨k, hk⟩ := Option.ne_none_iff_exists'.mp hsome
        obtain ⟨hkino, hdiv⟩ := (hs.catalog.page _ hhead).named hv.mounted.sound (hs.names _ hsub ▸ hk)
        exact hvacant k hkino hdiv

end rmdir

end FuseFat32
