import FuseFat32.Fuse.Names

/-!
# The directory of a request

Every request on a name begins with the object of the directory. Of the root directory there is a new one each time, which no map has; the others are held like any object. Looking through the directory sets its access date, and the object that is found is held next to it.
-/

namespace FuseFat32

open LinkedTable Layout WriteBack

/-- The handler holds the directory `dir`, and `held`. -/
structure Driver.InDir (cs : Charset) (t : Tree) (s : Driver) (σ : Nat → File) (held : List File) (dir : File) : Prop where
  holds : (dir.ino = kRootDirIno ∧ dir.fstClus = s.fs.bpb.rootClus.toNat ∧ s.Holds cs t σ held [kRootDirIno]) ∨
    (dir.ino ∈ t.subdirs ∧ s.Holds cs t σ (dir :: held) [])
  head : dir.fstClus ∈ t.dirs
  cache : dir.clusChain_ = none ∨ dir.clusChain_ = some (t.chain dir.fstClus)
  isDir : dir.isDir = true
  live : dir.isDeleted = false

section indir

variable {cs : Charset} {t : Tree} {s s' : Driver} {σ : Nat → File} {held : List File} {dir dir' f g : File} {k parent : Nat}
  {fs' : FAT32fs} {name : List UInt8} {now : FatTimeStamp} {table : Nat → List UInt8 → Option Nat}

theorem Driver.InDir.volume (h : s.InDir cs t σ held dir) : t.Volume cs s.fs σ := by
  rcases h.holds with ⟨-, -, h⟩ | ⟨-, h⟩ <;> exact h.volume

theorem Driver.InDir.placed (h : s.InDir cs t σ held dir) : dir.Placed s.fs (t.chain dir.fstClus) :=
  ⟨h.volume.dirs _ h.head, h.cache⟩

theorem Driver.HoldsBy.inDir (h : s.Holds cs t σ (dir :: held) []) (hsub : dir.ino ∈ t.subdirs) : s.InDir cs t σ held dir := by
  obtain ⟨hino, hcache⟩ := h.shows
  obtain ⟨hdir, hhead⟩ := h.volume.subdirs _ hsub
  obtain ⟨l, hl⟩ := hcache.placed
  have hfst := hcache.retimed.data.1
  refine ⟨.inr ⟨hsub, h⟩, hfst.symm ▸ hhead, ?_, hcache.retimed.kind.1.trans hdir,
    hcache.retimed.kind.2.trans (h.volume.live hino)⟩
  obtain rfl := hl.chain.unique (h.volume.dirs _ (hfst.symm ▸ hhead))
  exact hl.cache

/-- The inode number that a request gives for the directory. -/
def Tree.Names (t : Tree) (parent : Nat) (dir : File) : Prop :=
  (parent = 1 ∧ dir.ino = kRootDirIno) ∨ (parent ∈ t.subdirs ∧ dir.ino = parent)

/-- The directory of a request is found, and no client sees a difference. -/
theorem Driver.HoldsBy.getExistDir (h : s.Holds cs t σ [] []) (hroot : s.fs.bpb.rootClus.toNat ∈ t.dirs)
    (hparent : parent = 1 ∨ parent ∈ t.subdirs) : ∃ dir s', s.getExistDir cs parent = some (dir, s') ∧
      s'.InDir cs t σ [] dir ∧ t.Names parent dir ∧ t.Alike σ s.fs s'.fs := by
  rcases hparent with rfl | hsub
  · refine ⟨s.fs.getRootDir, s, ?_, ⟨.inl ⟨s.fs.ino_getRootDir, rfl, Driver.holdsBy_root.mpr h⟩, hroot, .inl rfl, rfl, rfl⟩,
      .inl ⟨rfl, s.fs.ino_getRootDir⟩, .refl t σ s.fs⟩
    rw [Driver.getExistDir, if_pos rfl]
    change (s.getFileByIno cs [] kRootDirIno).bind _ = _
    rw [Driver.getFileByIno_root fun p hp => (h.keyed p hp).2]
    rfl
  · have hk : parent ∈ t.inos := .inr hsub
    have hne : parent ≠ 1 := (h.volume.root_lt hk).ne'
    obtain ⟨g, s', hget, hmem, h', halike⟩ := h.getFileByIno (Tree.reads cs t) hk List.not_mem_nil
    have hino := (h'.keyed _ hmem).1
    obtain rfl : g.ino = parent := hino
    have hdir := (h'.hold hmem List.not_mem_nil).inDir hsub
    refine ⟨g, s', ?_, hdir, .inr ⟨hsub, rfl⟩, halike⟩
    rw [Driver.getExistDir, if_neg hne]
    change (s.getFileByIno cs (heldInos [] []) g.ino).bind _ = _
    rw [hget]
    simp only [Option.bind_some, Option.bind_eq_bind, hdir.isDir, assert_true]
    rfl

/-- The object of a file in the directory comes to be held too. -/
theorem Driver.InDir.getFileByIno (h : s.InDir cs t σ [] dir) (hk : k ∈ t.inos) (hne : k ≠ dir.ino) : ∃ g s',
    s.getFileByIno cs [dir.ino] k = some (some g, s') ∧ s'.InDir cs t σ [g] dir ∧ g.ino = k ∧ t.Alike σ s.fs s'.fs := by
  have hroot : k ≠ kRootDirIno := (Nat.zero_lt_one.trans (h.volume.root_lt hk)).ne'
  rcases h.holds with ⟨hino, hfst, hholds⟩ | ⟨hsub, hholds⟩
  · have hnot : k ∉ heldInos [] [kRootDirIno] := by simpa [heldInos] using hroot
    obtain ⟨g, s', hget, hmem, h', halike⟩ := hholds.getFileByIno (Tree.reads cs t) hk hnot
    rw [hino]
    exact ⟨g, s', hget, ⟨.inl ⟨hino, halike.1.symm ▸ hfst, h'.hold hmem hnot⟩, h.head, h.cache, h.isDir, h.live⟩,
      (h'.keyed _ hmem).1, halike⟩
  · have hnot : k ∉ heldInos [dir] [] := by simpa [heldInos] using hne
    obtain ⟨g, s', hget, hmem, h', halike⟩ := hholds.getFileByIno (Tree.reads cs t) hk hnot
    have hboth := (h'.hold hmem hnot).perm_held (.swap dir g [])
    exact ⟨g, s', hget, ⟨.inr ⟨hsub, hboth⟩, h.head, h.cache, h.isDir, h.live⟩, (h'.keyed _ hmem).1, halike⟩

theorem Driver.InDir.shows (h : s.InDir cs t σ (g :: held) dir) : g.ino ∈ t.inos ∧ (σ g.ino).MayCache s.fs g := by
  rcases h.holds with ⟨-, -, h⟩ | ⟨-, h⟩
  · exact h.shows
  · exact (h.perm_held (.swap g dir held)).shows

theorem Driver.InDir.recached (h : s.InDir cs t σ (g :: held) dir) (hg : (σ g.ino).MayCache s.fs f) :
    s.InDir cs t σ (f :: held) dir := by
  refine ⟨h.holds.imp (fun ⟨hino, hfst, hholds⟩ => ⟨hino, hfst, hholds.recached (Tree.reads cs t) hg⟩) fun ⟨hsub, hholds⟩ => ⟨hsub, ?_⟩,
    h.head, h.cache, h.isDir, h.live⟩
  exact ((hholds.perm_held (.swap g dir held)).recached (Tree.reads cs t) hg).perm_held (.swap dir f held)

theorem Driver.InDir.mayCache (h : s.InDir cs t σ held dir) (hk : dir.ino ∈ t.inos) :
    dir.ino ∈ t.subdirs ∧ s.Holds cs t σ (dir :: held) [] ∧ (σ dir.ino).MayCache s.fs dir := by
  rcases h.holds with ⟨hroot, -, -⟩ | ⟨hsub, hholds⟩
  · exact absurd (h.volume.root_lt hk) (by rw [hroot]; decide)
  · exact ⟨hsub, hholds, hholds.shows.2⟩

theorem File.Worked.retimed (heq : dir.Worked dir') : dir.Retimed dir' := by
  unfold File.Worked at heq
  unfold File.Retimed
  rw [heq]

theorem Driver.HoldsBy.retimed {others l : List Nat} (h : s.Holds cs t σ (f :: held) others) (heq : f.Worked g)
    (hg : g.Placed s.fs l) : ∃ σ', s.Holds cs t σ' (g :: held) others ∧ t.Follows s.fs σ f.ino s.fs σ' ∧
      ∀ v, t.View s.fs (σ f.ino) v → t.View s.fs (σ' f.ino) { v with accDate := g.accDate, wrtTime := g.wrtTime } := by
  have hretimed := File.Worked.retimed heq
  obtain ⟨hk, hcache⟩ := h.shows
  have hcrt : g.crtTime = (σ f.ino).crtTime := by
    rw [heq]
    exact hcache.times.1
  have hserved : t.Served cs s.fs σ f.ino s.fs g.uncached g :=
    .of_retimed h.volume hk hcache hretimed hg (hcrt ▸ (h.volume.stands _ hk).tenths)
  refine ⟨_, h.update hserved, hserved.follows, fun v hv => ?_⟩
  have hview := hv.retimed (hcache.retimed.trans hretimed).uncached
  have hsame : v.crtTime = g.uncached.crtTime := hv.crtTime.trans hcrt.symm
  rw [Function.update_self]
  rwa [← hsame] at hview

theorem Driver.InDir.retimed (h : s.InDir cs t σ held dir) (heq : dir.Worked dir')
    (hf : dir'.Placed s.fs (t.chain dir.fstClus)) : ∃ σ', s.InDir cs t σ' held dir' ∧
      t.Follows s.fs σ dir.ino s.fs σ' ∧ ∀ v, t.View s.fs (σ dir.ino) v → dir.ino ∈ t.inos →
        t.View s.fs (σ' dir.ino) { v with accDate := dir'.accDate, wrtTime := dir'.wrtTime } := by
  have hretimed := File.Worked.retimed heq
  have hino : dir'.ino = dir.ino := by rw [heq, File.ino, File.ino]
  have hfst := heq.fstClus
  have hcache : dir'.clusChain_ = none ∨ dir'.clusChain_ = some (t.chain dir'.fstClus) := hfst.symm ▸ hf.cache
  have hlive : dir'.isDeleted = false := hretimed.kind.2.trans h.live
  rcases h.holds with ⟨hroot, hclus, hholds⟩ | ⟨hsub, hholds⟩
  · refine ⟨σ, ⟨.inl ⟨hino.trans hroot, hfst.trans hclus, hholds⟩, hfst.symm ▸ h.head, hcache, heq.isDir.trans h.isDir,
      hlive⟩, (Tree.Alike.refl t σ s.fs).follows h.volume _, fun v _ hk => ?_⟩
    exact absurd (h.volume.root_lt hk) (by rw [hroot]; decide)
  · obtain ⟨σ', hholds', hfollows, hview⟩ := hholds.retimed heq hf
    exact ⟨σ', ⟨.inr ⟨hino.symm ▸ hsub, hholds'⟩, hfst.symm ▸ h.head, hcache, heq.isDir.trans h.isDir, hlive⟩, hfollows,
      fun v hv _ => hview v hv⟩

theorem Driver.InDir.release (h : s.InDir cs t σ [f] dir) (hne : f.ino ≠ dir.ino) : ∃ s', s.release f = some s' ∧
    s'.InDir cs t σ [] dir ∧ t.Alike σ s.fs s'.fs := by
  have hroot : f.ino ≠ kRootDirIno := (Nat.zero_lt_one.trans (h.volume.root_lt h.shows.1)).ne'
  rcases h.holds with ⟨hino, hfst, hholds⟩ | ⟨hsub, hholds⟩
  · obtain ⟨s', hrelease, h', halike⟩ := hholds.release (Tree.reads cs t) (by simpa [heldInos] using hroot)
    exact ⟨s', hrelease, ⟨.inl ⟨hino, halike.1.symm ▸ hfst, h'⟩, h.head, h.cache, h.isDir, h.live⟩, halike⟩
  · obtain ⟨s', hrelease, h', halike⟩ :=
      (hholds.perm_held (.swap f dir [])).release (Tree.reads cs t) (by simpa [heldInos] using hne)
    exact ⟨s', hrelease, ⟨.inr ⟨hsub, h'⟩, h.head, h.cache, h.isDir, h.live⟩, halike⟩

theorem Driver.InDir.close (h : s.InDir cs t σ [] dir) : ∃ s', s.release dir = some s' ∧ s'.Holds cs t σ [] [] ∧
    t.Alike σ s.fs s'.fs := by
  rcases h.holds with ⟨hino, -, hholds⟩ | ⟨-, hholds⟩
  · exact (Driver.holdsBy_root.mp hholds).release_root (Tree.reads cs t) hino h.placed h.live
  · exact hholds.release (Tree.reads cs t) List.not_mem_nil

/-! ### What is looked up -/

theorem Tree.Shown.follows {fs : FAT32fs} {σ' : Nat → File} {ns : Namespace} {change : FileView → FileView}
    (h : t.Shown cs fs σ table ns) (hf : t.Follows fs σ k fs' σ')
    (hview : ∀ v, t.View fs (σ k) v → k ∈ t.inos → t.View fs' (σ' k) (change v)) :
    t.Shown cs fs' σ' table (ns.modify k change) := by
  refine ⟨h.catalog.congr hf.bpb hf.tidy hf.heads, fun j hj => ?_, fun j hj => ?_, hf.bpb.symm ▸ h.root, fun j hj => ?_⟩
  · obtain ⟨v, hv, hjview⟩ := h.views j hj
    by_cases hjk : j = k
    · subst hjk
      refine ⟨change v, ?_, hview v hjview hj⟩
      rw [ns.modify_files_self, hv, Option.map_some]
    · exact ⟨v, (ns.modify_files_of_ne hjk change).trans hv, hf.views j hj hjk v hjview⟩
  · have hnone := h.rest j hj
    by_cases hjk : j = k
    · subst hjk
      rw [ns.modify_files_self, hnone, Option.map_none]
    · exact (ns.modify_files_of_ne hjk change).trans hnone
  · rw [hf.heads j hj]
    exact h.names j hj

theorem Tree.Shown.alike {fs : FAT32fs} {ns : Namespace} (h : t.Shown cs fs σ table ns) (hv : t.Volume cs fs σ)
    (ha : t.Alike σ fs fs') : t.Shown cs fs' σ table ns := by
  refine ⟨h.catalog.congr ha.1 ha.2.1 fun _ _ => rfl, fun j hj => ?_, h.rest, ha.1.symm ▸ h.root, h.names⟩
  obtain ⟨v, hfile, hview⟩ := h.views j hj
  exact ⟨v, hfile, ha.view hv hj hview⟩

theorem Driver.InDir.ne_dir (h : s.InDir cs t σ held dir) (hc : t.Spread s.fs σ) (hk : k ∈ t.inos)
    (hdir : k / 2 ^ 32 = dir.fstClus) : k ≠ dir.ino := by
  rintro rfl
  obtain ⟨hsub, -, hcache⟩ := h.mayCache hk
  exact (hc.below _ hsub).2 (hdir.trans hcache.retimed.data.1).symm

/-- The names of the directory are those that clients see. -/
theorem Driver.InDir.names_eq {ns : Namespace} (h : s.InDir cs t σ held dir) (hs : t.Shown cs s.fs σ table ns)
    (hparent : t.Names parent dir) : ns.names parent = table dir.fstClus := by
  rcases hparent with ⟨rfl, hroot⟩ | ⟨hsub, rfl⟩
  · rcases h.holds with ⟨-, hclus, -⟩ | ⟨hsub, -⟩
    · rw [hs.root, hclus]
    · exact absurd (h.volume.root_lt (.inr hsub)) (by rw [hroot]; decide)
  · obtain ⟨-, -, hcache⟩ := h.mayCache (.inr hsub)
    rw [hs.names _ hsub, hcache.retimed.data.1]

theorem Driver.InDir.reread {ns : Namespace} (h : s.InDir cs t σ held dir) (hs : t.Shown cs s.fs σ table ns)
    (hsame : dir.Same dir') (hplaced : dir'.Placed s.fs (t.chain dir.fstClus)) : ∃ σ', s.InDir cs t σ' held dir' ∧
      t.Shown cs s.fs σ' table (ns.modify dir.ino fun v => { v with accDate := dir'.accDate }) := by
  obtain ⟨σ', h', hfollows, hview⟩ := h.retimed hsame.worked hplaced
  refine ⟨σ', h', hs.follows hfollows fun v hv hk => ?_⟩
  have hwrt : v.wrtTime = dir'.wrtTime := by
    rw [hsame, hv.wrtTime]
    exact (h.mayCache hk).2.2.times.2.2.symm
  have hdone := hview v hv hk
  rwa [← hwrt] at hdone

theorem Driver.InDir.reread_held {ns : Namespace} {l : List Nat} (h : s.InDir cs t σ [f] dir)
    (hs : t.Shown cs s.fs σ table ns) (hsame : f.Same g) (hg : g.Placed s.fs l) : ∃ σ', s.InDir cs t σ' [g] dir ∧
      t.Shown cs s.fs σ' table (ns.modify f.ino fun v => { v with accDate := g.accDate }) := by
  have hshown : ∀ {others : List Nat} {held : List File} {σ' : Nat → File}, s.Holds cs t σ (f :: held) others →
      t.Follows s.fs σ f.ino s.fs σ' → (∀ v, t.View s.fs (σ f.ino) v →
        t.View s.fs (σ' f.ino) { v with accDate := g.accDate, wrtTime := g.wrtTime }) →
      t.Shown cs s.fs σ' table (ns.modify f.ino fun v => { v with accDate := g.accDate }) := fun hholds hfollows hview => by
    refine hs.follows hfollows fun v hv _ => ?_
    have hwrt : v.wrtTime = g.wrtTime := by
      rw [hsame, hv.wrtTime]
      exact hholds.shows.2.times.2.2.symm
    have hdone := hview v hv
    rwa [← hwrt] at hdone
  rcases h.holds with ⟨hroot, hclus, hholds⟩ | ⟨hsub, hholds⟩
  · obtain ⟨σ', hholds', hfollows, hview⟩ := hholds.retimed hsame.worked hg
    exact ⟨σ', ⟨.inl ⟨hroot, hclus, hholds'⟩, h.head, h.cache, h.isDir, h.live⟩, hshown hholds hfollows hview⟩
  · have hheld := hholds.perm_held (.swap f dir [])
    obtain ⟨σ', hholds', hfollows, hview⟩ := hheld.retimed hsame.worked hg
    exact ⟨σ', ⟨.inr ⟨hsub, hholds'.perm_held (.swap dir g [])⟩, h.head, h.cache, h.isDir, h.live⟩,
      hshown hheld hfollows hview⟩

/-- `lookupFile` finds what clients see, and the object is held next to that of the directory. -/
theorem Driver.InDir.lookupFile {ns : Namespace} {result : Option File} (h : s.InDir cs t σ [] dir)
    (hs : t.Shown cs s.fs σ table ns) (hplain : isPlainName cs name = true)
    (hrun : s.lookupFile cs dir name now = some (result, dir', s')) : ∃ σ' acc, dir.Same dir' ∧
      t.Shown cs s'.fs σ' table (ns.modify dir.ino fun v => { v with accDate := acc }) ∧
      table dir.fstClus name = result.map File.ino ∧ s'.InDir cs t σ' result.toList dir' ∧ s'.fs.bpb = s.fs.bpb ∧
      (result = none → s' = s) ∧ ∀ f, result = some f → f.ino / 2 ^ 32 = dir.fstClus := by
  obtain ⟨⟨lookup_result, dir₁⟩, hlookup, hrest⟩ := Option.bind_eq_some_iff.mp hrun
  have hpage := hs.catalog.page _ h.head
  have hhead : dir.fstClus ∈ (t.run s.fs σ).heads t.dirs := .inl h.head
  obtain ⟨hsame, hplaced, htable, hfound⟩ := hpage.lookup h.volume.mounted rfl hhead h.placed h.isDir hplain hlookup
  obtain ⟨σ', h₁, hs₁⟩ := h.reread hs hsame hplaced
  have hfst : dir₁.fstClus = dir.fstClus := by rw [hsame]
  cases lookup_result with
  | none =>
    obtain ⟨rfl, rfl, rfl⟩ : none = result ∧ dir₁ = dir' ∧ s = s' := by simpa using hrest
    exact ⟨σ', _, hsame, hs₁, htable, h₁, rfl, fun _ => rfl, fun _ hf => absurd hf (by simp)⟩
  | some range =>
    obtain ⟨hk, hlt⟩ := hfound range rfl
    have hdiv : (dir.fstClus * 2 ^ 32 + range.start) / 2 ^ 32 = dir.fstClus := by omega
    obtain ⟨g, s₁, hget, h₂, hgino, halike⟩ := h₁.getFileByIno hk (h₁.ne_dir hs₁.catalog.toSpread hk (hdiv.trans hfst.symm))
    simp only [hfst, hget, Option.bind_eq_bind, Option.bind_some, Option.pure_def, Option.some.injEq, Prod.mk.injEq]
      at hrest
    obtain ⟨rfl, rfl, rfl⟩ := hrest
    refine ⟨σ', _, hsame, hs₁.alike h₁.volume halike, htable.trans ?_, h₂, halike.1, fun hno => absurd hno (by simp), fun f hf => ?_⟩
    · rw [Option.map_some, Option.map_some, hgino]
    · obtain rfl := Option.some.inj hf
      rw [hgino, hdiv]

/-! ### Requests from one end to the other -/

theorem Tree.Shown.hasDir {fs : FAT32fs} {ns : Namespace} (h : t.Shown cs fs σ table ns) (hv : t.Volume cs fs σ)
    (hd : ns.HasDir parent) : parent = 1 ∨ parent ∈ t.subdirs := by
  refine hd.imp_right fun ⟨v, hfile, hdir⟩ => ?_
  have hk : parent ∈ t.inos := by
    by_contra hk
    rw [h.rest parent hk] at hfile
    exact absurd hfile (by simp)
  obtain ⟨v', hfile', hview⟩ := h.views parent hk
  obtain rfl := Option.some.inj (hfile.symm.trans hfile')
  rcases hv.kind hk with ⟨-, hkind⟩ | ⟨hsub, -⟩
  · rw [hview.isDir, hkind] at hdir
    exact absurd hdir (by decide)
  · exact hsub

/-- Clients do not see the root directory. -/
theorem Tree.Volume.modify_dir {fs : FAT32fs} {ns : Namespace} (h : t.Volume cs fs σ)
    (hrest : ∀ k, k ∉ t.inos → ns.files k = none) (hparent : t.Names parent dir) (change : FileView → FileView) :
    ns.modify dir.ino change = ns.modify parent change := by
  rcases hparent with ⟨rfl, hroot⟩ | ⟨-, rfl⟩
  · have hnone : ∀ {k}, k ≤ 1 → ns.files k = none := fun hle => hrest _ fun hk => absurd (h.root_lt hk) (by omega)
    rw [hroot, Namespace.modify_of_none (hnone (by decide)), Namespace.modify_of_none (hnone le_rfl)]
  · rfl

theorem Tree.Volume.worked_dir {fs : FAT32fs} {ns ns' : Namespace} (h : t.Volume cs fs σ)
    (hrest : ∀ k, k ∉ t.inos → ns.files k = none) (hparent : t.Names parent dir) :
    ns.Worked dir.ino ns' ↔ ns.Worked parent ns' := by
  simp only [Namespace.Worked, h.modify_dir hrest hparent]

/-- A request on a name begins with its directory. -/
theorem Driver.Has.getExistDir {ns : Namespace} (h : s.Has cs ns) (hd : ns.HasDir parent) : ∃ t σ table dir s₁,
    s.getExistDir cs parent = some (dir, s₁) ∧ s₁.InDir cs t σ [] dir ∧ t.Shown cs s₁.fs σ table ns ∧
      t.Names parent dir ∧ s₁.fs.bpb = s.fs.bpb := by
  obtain ⟨t, σ, table, hholds, hs⟩ := h
  obtain ⟨dir, s₁, hget, hdir, hparent, halike⟩ := hholds.getExistDir hs.catalog.root (hs.hasDir hholds.volume hd)
  exact ⟨t, σ, table, dir, s₁, hget, hdir, hs.alike hholds.volume halike, hparent, halike.1⟩

theorem Driver.InDir.finish {ns : Namespace} (h : s.InDir cs t σ [] dir) (hs : t.Shown cs s.fs σ table ns) : ∃ s',
    s.release dir = some s' ∧ s'.Has cs ns ∧ s'.fs.bpb = s.fs.bpb := by
  obtain ⟨s', hrelease, hholds, halike⟩ := h.close
  exact ⟨s', hrelease, ⟨t, σ, table, hholds, hs.alike h.volume halike⟩, halike.1⟩

theorem Driver.InDir.finish_file {ns : Namespace} (h : s.InDir cs t σ [f] dir) (hne : f.ino ≠ dir.ino)
    (hs : t.Shown cs s.fs σ table ns) : ∃ s₁ s', s.release f = some s₁ ∧ s₁.release dir = some s' ∧ s'.Has cs ns ∧
      s'.fs.bpb = s.fs.bpb := by
  obtain ⟨s₁, hrelease, h₁, halike⟩ := h.release hne
  obtain ⟨s', hclose, hhas, hbpb⟩ := h₁.finish (hs.alike h.volume halike)
  exact ⟨s₁, s', hrelease, hclose, hhas, hbpb.trans halike.1⟩

/-- What is known when a handler has looked up the name in the directory. -/
structure Driver.Found (cs : Charset) (s : Driver) (ns : Namespace) (parent : Nat) (name : List UInt8) (t : Tree)
    (σ : Nat → File) (table : Nat → List UInt8 → Option Nat) (result : Option File) (dir : File) (acc : UInt16) : Prop where
  shown : t.Shown cs s.fs σ table (ns.modify parent fun v => { v with accDate := acc })
  inDir : s.InDir cs t σ result.toList dir
  opened : t.Names parent dir
  names : ns.names parent = table dir.fstClus
  found : ns.names parent name = result.map File.ino
  file : ∀ f, result = some f → f.ino / 2 ^ 32 = dir.fstClus ∧ f.ino ≠ dir.ino ∧ f.ino ≠ parent

/-- Every handler begins with the directory and a lookup. -/
theorem Driver.Has.lookupFile {ns : Namespace} {result : Option File} {s₁ s₂ : Driver} {dir₁ : File} (h : s.Has cs ns)
    (hd : ns.HasDir parent) (hplain : isPlainName cs name = true) (hget : s.getExistDir cs parent = some (dir, s₁))
    (hlookup : s₁.lookupFile cs dir name now = some (result, dir₁, s₂)) : ∃ t σ table acc,
    s₂.Found cs ns parent name t σ table result dir₁ acc ∧ s₂.fs.bpb = s.fs.bpb ∧
      (result = none → s₂ = s₁ ∧ ∀ l, dir₁.Placed s₁.fs l → dir.Placed s₁.fs l) := by
  obtain ⟨t, σ, table, dir', s', hget', hdir, hs, hparent, hbpb⟩ := h.getExistDir hd
  obtain ⟨rfl, rfl⟩ := Prod.mk.inj (Option.some.inj (hget.symm.trans hget'))
  obtain ⟨σ', acc, hsame, hs₁, htable, hdir₁, hbpb₁, hnone, hfound⟩ := hdir.lookupFile hs hplain hlookup
  have hnames := hdir.names_eq hs hparent
  have hino : dir₁.ino = dir.ino := by rw [hsame, File.ino, File.ino]
  have hfst : dir₁.fstClus = dir.fstClus := by rw [hsame]
  rw [hdir.volume.modify_dir hs.rest hparent] at hs₁
  refine ⟨t, σ', table, acc, ⟨hs₁, hdir₁, ?_, hfst.symm ▸ hnames, (congrFun hnames name).trans htable, fun f hf => ?_⟩,
    hbpb₁.trans hbpb, fun hno => ⟨hnone hno, fun l hl => ?_⟩⟩
  · rw [Tree.Names, hino]
    exact hparent
  · subst hf
    have hk := hdir₁.shows.1
    have hclus := hfound f rfl
    have hne := hdir₁.ne_dir hs₁.catalog.toSpread hk (hclus.trans hfst.symm)
    refine ⟨hclus.trans hfst.symm, hne, ?_⟩
    rcases hparent with ⟨rfl, -⟩ | ⟨-, heq⟩
    · exact (hdir₁.volume.root_lt hk).ne'
    · rwa [← heq, ← hino]
  · have hchain := hl.chain
    rw [hfst] at hchain
    obtain rfl := hchain.unique hdir.placed.chain
    exact hdir.placed

theorem Driver.Found.finish {ns : Namespace} {acc : UInt16} (h : s.Found cs ns parent name t σ table none dir acc) : ∃ s',
    s.release dir = some s' ∧ s'.Has cs (ns.modify parent fun v => { v with accDate := acc }) ∧ s'.fs.bpb = s.fs.bpb :=
  h.inDir.finish h.shown

theorem Driver.InDir.view {ns : Namespace} (h : s.InDir cs t σ [f] dir) (hs : t.Shown cs s.fs σ table ns) :
    ∃ v f', ns.files f.ino = some v ∧ FuseFat32.readFileStat s.fs f = some (v.stat f.ino, f') ∧ f'.ino = f.ino ∧
      v.isDir = f.isDir ∧ s.InDir cs t σ [f'] dir := by
  obtain ⟨hk, hcache⟩ := h.shows
  obtain ⟨v, hfile, hview⟩ := hs.views _ hk
  obtain ⟨f', hstat, hcache'⟩ := h.volume.stat hk hcache hview
  refine ⟨v, f', hfile, hstat, ?_, hview.isDir.trans hcache.retimed.kind.1.symm, h.recached hcache'⟩
  rw [File.ino, hcache'.retimed.place.1, hcache'.retimed.place.2]
  exact h.volume.ino_eq hk

/-- `fat32_lookup` tells what clients see. -/
theorem Driver.Has.fat32Lookup {ns : Namespace} {answer : NameAnswer} (h : s.Has cs ns) (hd : ns.HasDir parent)
    (hplain : isPlainName cs name = true) (hrun : s.fat32Lookup cs parent name now = some (answer, s'))
    (bpb : BPB) (unix2DosTs : Timespec → FatTimeStamp) : ∃ ns',
    ns.Step bpb unix2DosTs answer ns' (.lookup parent name now) ∧ s'.Has cs ns' ∧ s'.fs.bpb = s.fs.bpb := by
  obtain ⟨⟨dir, s₁⟩, hget, hrun⟩ := Option.bind_eq_some_iff.mp hrun
  obtain ⟨⟨result, dir₁, s₂⟩, hlookup, hrun⟩ := Option.bind_eq_some_iff.mp hrun
  obtain ⟨t, σ, table, acc, hfound, hbpb, -⟩ := h.lookupFile hd hplain hget hlookup
  refine ⟨ns.modify parent fun v => { v with accDate := acc }, ?_⟩
  rw [Namespace.Step, hfound.found]
  cases result with
  | none =>
    obtain ⟨s₃, hrelease, hhas, hbpb'⟩ := hfound.finish
    simp only [hrelease, Option.bind_eq_bind, Option.bind_some, Option.pure_def, Option.some.injEq, Prod.mk.injEq] at hrun
    obtain ⟨rfl, rfl⟩ := hrun
    exact ⟨⟨rfl, acc, rfl⟩, hhas, hbpb'.trans hbpb⟩
  | some f =>
    obtain ⟨-, hne, hnotdir⟩ := hfound.file f rfl
    obtain ⟨v, f', hfile, hstat, hino, -, hdir⟩ := hfound.inDir.view hfound.shown
    rw [ns.modify_files_of_ne hnotdir] at hfile
    obtain ⟨s₃, s₄, hrelease, hclose, hhas, hbpb'⟩ := hdir.finish_file (hino.trans_ne hne) hfound.shown
    simp only [hstat, hrelease, hclose, Option.bind_eq_bind, Option.bind_some, Option.pure_def, Option.some.injEq,
      Prod.mk.injEq] at hrun
    obtain ⟨rfl, rfl⟩ := hrun
    exact ⟨⟨v, hfile, by rw [hino], acc, rfl⟩, hhas, hbpb'.trans hbpb⟩

end indir

end FuseFat32
