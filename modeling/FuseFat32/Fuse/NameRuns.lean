import FuseFat32.Fuse.Mkdir
import FuseFat32.Fuse.Restart

/-!
# Runs of requests on names

Names are looked up, files are created, deleted, read and written, and directories are made and removed, in any order, while the map drops objects and the driver is restarted. A client is told what a namespace says that every request changes at once.
-/

namespace FuseFat32

open LinkedTable Layout WriteBack

section runs

variable {cs : Charset} {unix2DosTs : Timespec → FatTimeStamp} {t : Tree} {fs : FAT32fs} {s s' : Driver} {σ : Nat → File}
  {ns : Namespace} {call : Call} {reply : Answer} {answer : NameAnswer} {request : NameRequest} {k : Nat}

theorem Request.Suits.fits {request : Request} (h : request.Suits (σ k).isDir) (hv : t.Volume cs fs σ) (hk : k ∈ t.inos) :
    request.Fits t k := by
  have hfile : (σ k).isDir = false → k ∈ t.files := fun hdir =>
    ((hv.kind hk).resolve_right fun hsub => absurd (hdir.symm.trans hsub.2) (by decide)).1
  cases request with
  | setattr attr => exact ⟨h.1, fun hsize => ⟨hfile (h.2 hsize).1, (h.2 hsize).2⟩⟩
  | read size offset => exact ⟨hfile h.1, h.2⟩
  | write buf off => exact ⟨hfile h.1, h.2⟩
  | _ => trivial

/-- A request for an inode number does what clients are told. -/
theorem Driver.Has.serve {v : FileView} (h : s.Has cs ns) (hfile : ns.files call.ino = some v)
    (hsuits : call.request.Suits v.isDir) (hrun : s.serve cs unix2DosTs call = some (reply, s')) : ∃ ns',
    ns.Step s.fs.bpb unix2DosTs (.answer reply) ns' (.call call) ∧ s'.Has cs ns' ∧ s'.fs.bpb = s.fs.bpb := by
  obtain ⟨t, σ, table, hholds, hs⟩ := h
  have hk : call.ino ∈ t.inos := by
    by_contra hk
    exact absurd (hfile.symm.trans (hs.rest _ hk)) (by simp)
  obtain ⟨v₀, hfile₀, hview⟩ := hs.views _ hk
  obtain rfl := Option.some.inj (hfile₀.symm.trans hfile)
  rw [hview.isDir] at hsuits
  obtain ⟨σ', v', hstep, hpos, hc, hfollows, hview'⟩ :=
    Driver.serve_follows hholds.room hholds.all ⟨hk, hsuits.fits hholds.volume hk⟩ hview hrun
  have hs' : t.Shown cs s'.fs σ' table (ns.modify call.ino fun _ => v') := hs.follows hfollows fun _ _ _ => hview'
  have hns : ns.modify call.ino (fun _ => v') = { ns with files := Function.update ns.files call.ino (some v') } := by
    rw [Namespace.modify, hfile]
    rfl
  exact ⟨_, ⟨v₀, v', reply, hfile, rfl, hstep, hns⟩, ⟨t, σ', table, .of_coherent (Tree.reads cs t) hpos hc, hs'⟩, hfollows.bpb⟩

theorem Driver.Has.restart (h : s.Has cs ns) : ∃ s₁ s₂, s.flush = some s₁ ∧ s₁.remount = some s₂ ∧ s₂.Has cs ns ∧
    s₂.fs.bpb = s.fs.bpb := by
  obtain ⟨t, σ, table, hholds, hs⟩ := h
  obtain ⟨s₁, s₂, hflush, hremount, hpos, hc, halike⟩ := Driver.restart_coherent hholds.all
  exact ⟨s₁, s₂, hflush, hremount, ⟨t, σ, table, .of_coherent (Tree.reads cs t) hpos hc, hs.alike hholds.volume halike⟩, halike.1⟩

/-- One request does to the namespace what the client is told. -/
theorem Driver.Has.serveName (hcs : cs.Inverts) (h : s.Has cs ns) (hfits : request.Fits cs s ns)
    (hrun : s.serveName cs unix2DosTs request = some (answer, s')) : ∃ ns',
    ns.Step s.fs.bpb unix2DosTs answer ns' request ∧ s'.Has cs ns' ∧ s'.fs.bpb = s.fs.bpb := by
  cases request with
  | call call =>
    obtain ⟨v, hfile, hsuits⟩ := hfits
    obtain ⟨⟨reply, s₁⟩, hserve, hrun⟩ := Option.bind_eq_some_iff.mp hrun
    obtain ⟨rfl, rfl⟩ : .answer reply = answer ∧ s₁ = s' := by simpa using hrun
    exact h.serve hfile hsuits hserve
  | lookup parent name now => exact h.fat32Lookup hfits.1 hfits.2 hrun _ _
  | create parent name mode now => exact h.fat32Create hcs hfits hrun _ _
  | mkdir parent name now => exact h.fat32Mkdir hcs hfits hrun _
  | unlink parent name now => exact h.fat32Unlink hfits.1 hfits.2 hrun _ _
  | rmdir parent name now => exact h.fat32Rmdir hfits.1 hfits.2 hrun _ _

/-- Whatever clients ask and however often the driver restarts, the answers are those of a namespace, and the driver goes on to have that namespace. -/
theorem Driver.runNames_refines (cs : Charset) (hcs : cs.Inverts) (unix2DosTs : Timespec → FatTimeStamp) :
    ∀ (events : List NameEvent) (s s' : Driver) (ns : Namespace) (answers : List NameAnswer), s.Has cs ns →
      NameEvent.AllFit cs unix2DosTs events s ns → s.runNames cs unix2DosTs events = some (answers, s') →
      ∃ ns', Namespace.Serves s.fs.bpb unix2DosTs ns (events.filterMap NameEvent.request?) answers ns' ∧ s'.Has cs ns' := by
  intro events
  induction events with
  | nil =>
    intro s s' ns answers h _ hrun
    obtain ⟨rfl, rfl⟩ : [] = answers ∧ s = s' := by simpa [Driver.runNames] using hrun
    exact ⟨ns, .nil ns, h⟩
  | cons event events ih =>
    intro s s' ns answers h hfit hrun
    cases event with
    | request request =>
      obtain ⟨hfits, hrest⟩ := hfit
      obtain ⟨⟨answer, s₁⟩, hserve, hrun⟩ := Option.bind_eq_some_iff.mp hrun
      obtain ⟨⟨answers₁, s₂⟩, hcalls, hrun⟩ := Option.bind_eq_some_iff.mp hrun
      obtain ⟨rfl, rfl⟩ : answer :: answers₁ = answers ∧ s₂ = s' := by simpa using hrun
      obtain ⟨ns₁, hstep, h₁, hbpb⟩ := h.serveName hcs hfits hserve
      obtain ⟨ns', hserves, h'⟩ := ih s₁ s₂ ns₁ answers₁ h₁ (hrest answer s₁ ns₁ hserve hstep) hcalls
      exact ⟨ns', .cons hstep (hbpb ▸ hserves), h'⟩
    | restart =>
      obtain ⟨s₁, s₂, hflush, hremount, h₂, hbpb⟩ := h.restart
      simp only [Driver.runNames, hflush, hremount, Option.bind_eq_bind, Option.bind_some] at hrun
      obtain ⟨ns', hserves, h'⟩ := ih s₂ s' ns answers h₂ (hfit s₁ s₂ hflush hremount) hrun
      exact ⟨ns', hbpb ▸ hserves, h'⟩

end runs

/-! The volume with one file of two bytes. -/

def fsyncNames (cs : Charset) : List UInt8 → Option Nat := inoNames cs 2 [(0, fsyncGroup)]

def fsyncNamespace (cs : Charset) : Namespace where
  files ino := if ino = 2 * 2 ^ 32 then some fsyncView else none
  names parent := if parent = 1 then fsyncNames cs else fun _ => none

private theorem fsyncTree_catalog (cs : Charset) : fsyncTree.Catalog cs fsyncFs (fun _ => fsyncFile) fun _ => fsyncNames cs := by
  have hno : ∀ {k : Nat}, k ∉ fsyncTree.subdirs := fun {k} => Set.notMem_empty k
  refine ⟨⟨rfl, fun k hk => absurd hk hno, fun j hj => absurd hj hno⟩, fun c hc => ?_⟩
  obtain rfl := Set.mem_singleton_iff.mp hc
  refine ⟨by decide, by decide, _, ⟨_, _, fsyncFs_layout, fun e he => ?_, fun _ _ _ _ _ => List.pairwise_singleton _ _, rfl⟩,
    ⟨fun p hp => ?_, fun p hp _ hdots => ?_, fun k hk _ => ?_⟩, fun hne => absurd rfl hne, rfl⟩
  · rw [List.eq_of_mem_replicate he]
    exact isLstEmpty_zero.2
  · obtain rfl := List.mem_singleton.mp hp
    exact .inl ⟨.inl rfl, rfl⟩
  · obtain rfl := List.mem_singleton.mp hp
    exact hdots.2.elim (by decide) (by decide)
  · exact ⟨_, List.mem_singleton_self _, (hk.resolve_right hno).symm⟩

private theorem fsyncDriver_has : fsyncDriver.Has strictAsciiCharset (fsyncNamespace strictAsciiCharset) := by
  have hname : strictAsciiCharset.gbkToUtf8 [0x41] = some [0x41] := rfl
  have hone : ∀ {k : Nat}, k ∈ fsyncTree.inos ↔ k = 2 * 2 ^ 32 := fun {k} =>
    ⟨fun hk => hk.elim id fun hno => absurd hno (Set.notMem_empty k), fun hk => .inl hk⟩
  obtain ⟨hc, hview⟩ := fsyncDriver_coherent hname
  refine ⟨fsyncTree, fun _ => fsyncFile, fun _ => fsyncNames strictAsciiCharset, .of_coherent (Tree.reads _ _) Nat.one_pos hc,
    fsyncTree_catalog strictAsciiCharset, fun k hk => ⟨fsyncView, if_pos (hone.mp hk), hview k hk⟩,
    fun k hk => if_neg fun heq => hk (hone.mpr heq), rfl, fun k hk => absurd hk (Set.notMem_empty k)⟩

/-- The same driver when the free clusters have been counted. -/
def countedDriver : Driver := ⟨{ fsyncFs with fat := { fsyncFs.fat with availCnt := some 65530 } }, ⟨1, []⟩⟩

theorem countedDriver_has : countedDriver.Has strictAsciiCharset (fsyncNamespace strictAsciiCharset) := by
  obtain ⟨t, σ, table, hholds, hs⟩ := fsyncDriver_has
  have hv := hholds.volume
  have hm := fsyncFs_mounted.1
  have hwf : countedDriver.fs.fat.Represents countedDriver.fs.device fsyncFs.table := hm.represents.of_static rfl rfl rfl rfl
  have hbeside : fsyncFs.Beside countedDriver.fs := ⟨rfl, id, rfl, fun _ _ => rfl⟩
  obtain ⟨hv', ha, hmade⟩ := hv.spared hbeside ⟨hwf.wellFormed, hm.bpb⟩ fun _ _ _ _ => ⟨fun _ _ => rfl, fun _ _ => rfl⟩
  exact ⟨t, σ, table, ⟨hholds.room, hholds.distinct, hholds.keyed, hholds.coherent.transport hv'
    (fun j hj hhas => (hmade j hj).trans hhas) fun _ hj _ hg => ha.mayCache hv hv' hj hg⟩, hs.alike hv ha⟩

/-- A file and a directory are created next to the file that is there, and that one is written to and deleted. -/
def nameEvents : List NameEvent :=
  [.request (.create 1 [0x7A] 0 ⟨0, ⟨0, 33⟩⟩), .request (.mkdir 1 [0x79] ⟨0, ⟨0, 33⟩⟩),
    .request (.call ⟨2 * 2 ^ 32, ⟨1, 33⟩, .write [0x43] 1⟩), .restart, .request (.unlink 1 [0x41] ⟨2, 33⟩),
    .request (.rmdir 1 [0x7A] ⟨2, 33⟩), .request (.rmdir 1 [0x79] ⟨2, 33⟩), .request (.lookup 1 [0x41] ⟨2, 33⟩),
    .request (.lookup 1 [0x7A] ⟨2, 33⟩)]

private theorem Namespace.Step.create_kept {bpb : BPB} {unix2DosTs : Timespec → FatTimeStamp} {ns ns' : Namespace}
    {answer : NameAnswer} {parent mode : Nat} {name : List UInt8} {now : FatTimeStamp2}
    (h : ns.Step bpb unix2DosTs answer ns' (.create parent name mode now)) :
    (∀ k v, ns.files k = some v → k ≠ parent → ns'.files k = some v) ∧
      ∀ other ≠ name, ns'.names parent other = ns.names parent other := by
  simp only [Namespace.Step] at h
  split_ifs at h
  · exact h.2 ▸ ⟨fun _ _ hk _ => hk, fun _ _ => rfl⟩
  · exact h.2 ▸ ⟨fun _ _ hk _ => hk, fun _ _ => rfl⟩
  split at h
  · exact ⟨fun k v hk hne => (h.2.worked.files_of_ne hne).trans hk, fun other _ => congrFun (congrFun h.2.worked.kept.1 _) _⟩
  · rcases h with h | ⟨ino, ns₁, hnone, -, hworked, rfl⟩
    · exact ⟨fun k v hk hne => (h.2.worked.files_of_ne hne).trans hk, fun other _ => congrFun (congrFun h.2.worked.kept.1 _) _⟩
    · refine ⟨fun k v hk hne => ?_, fun other hne => ?_⟩
      · have hino : k ≠ ino := fun heq => absurd (hk.symm.trans (heq ▸ hnone)) (by simp)
        exact (Function.update_of_ne hino ..).trans ((hworked.files_of_ne hne).trans hk)
      · refine (congrFun (Function.update_self ..) _).trans ((Function.update_of_ne hne ..).trans ?_)
        rw [hworked.kept.1]

private theorem Namespace.Step.mkdir_files {bpb : BPB} {unix2DosTs : Timespec → FatTimeStamp} {ns ns' : Namespace}
    {answer : NameAnswer} {parent k : Nat} {name : List UInt8} {now : FatTimeStamp2} {v : FileView}
    (h : ns.Step bpb unix2DosTs answer ns' (.mkdir parent name now)) (hk : ns.files k = some v) (hne : k ≠ parent) :
    ns'.files k = some v := by
  simp only [Namespace.Step] at h
  split_ifs at h
  · exact h.2 ▸ hk
  rcases h with h | ⟨ino, ns₁, hnone, -, hworked, rfl⟩
  · exact (h.2.files_of_ne hne).trans hk
  · have hino : k ≠ ino := fun heq => absurd (hk.symm.trans (heq ▸ hnone)) (by simp)
    exact (Function.update_of_ne hino ..).trans ((hworked.files_of_ne hne).trans hk)

private theorem newName_z_file :
    NewName strictAsciiCharset [0x7A] [0x7A, 0x00] [0x5A] (.fill [0x5A] []) false ⟨0, ⟨0, 33⟩⟩ :=
  ⟨by decide +kernel, by decide +kernel, ⟨by decide +kernel, by decide +kernel, by decide +kernel⟩,
    by decide +kernel, ⟨by decide +kernel, by decide +kernel, by decide +kernel⟩⟩

private theorem newName_y : NewName strictAsciiCharset [0x79] [0x79, 0x00] [0x59] (.fill [0x59] []) true ⟨0, ⟨0, 33⟩⟩ :=
  ⟨by decide +kernel, by decide +kernel, ⟨by decide +kernel, by decide +kernel, by decide +kernel⟩,
    by decide +kernel, ⟨by decide +kernel, by decide +kernel, by decide +kernel⟩⟩

/-- A root directory of one cluster has room for some entries more. -/
def Driver.roomInRoot (cs : Charset) (u : List UInt8) (s : Driver) : Bool :=
  (s.getExistDir cs 1).all fun r => decide (r.2.fs.table 2 = kFat32EocMark ∧ r.2.fs.RoomFor [2] u)

theorem Driver.Has.hasRoom {cs : Charset} {s : Driver} {ns : Namespace} {name u gbk : List UInt8} {b : BasisName} {is_dir : Bool}
    {now : FatTimeStamp2} (h : s.Has cs ns) (hname : StorableName cs name u gbk b is_dir now) (hbpb : s.fs.bpb = mountBpb)
    (hroom : s.roomInRoot cs u = true) : s.HasRoom cs 1 name is_dir now := by
  refine ⟨u, gbk, b, hname, fun dir s₁ hget l hl => ?_⟩
  have hroot : ns.HasDir 1 := .inl rfl
  obtain ⟨t, σ, table, dir', s₁', hget', hdir, hs, hparent, hbpb'⟩ := h.getExistDir hroot
  obtain ⟨rfl, rfl⟩ := Prod.mk.inj (Option.some.inj (hget.symm.trans hget'))
  rw [Driver.roomInRoot, hget, Option.all_some, decide_eq_true_eq] at hroom
  have hb : s₁.fs.bpb = mountBpb := hbpb'.trans hbpb
  have hfst : dir.fstClus = 2 := by
    obtain ⟨-, hroot⟩ := (hdir.opens hparent).resolve_right fun hsub => absurd (hdir.volume.root_lt (.inr hsub.1)) (by decide)
    rw [hroot, hb]
    rfl
  have hdata : s₁.fs.bpb.DataClus 2 := by
    rw [hb]
    decide
  have hchain : s₁.fs.bpb.ChainOf s₁.fs.table dir.fstClus [2] := by
    rw [hfst]
    refine .inr ⟨hdata, walk_cons.mpr ⟨rfl, hdir.volume.mounted.sound.not_endOfClusChain hdata, walk_nil.mpr ?_⟩,
      List.forall_mem_singleton.mpr hdata⟩
    rw [hroom.1]
    exact eoc_kFat32EocMark
  obtain rfl := hl.chain.unique hchain
  exact hroom.2

private theorem nameEvents_fit (unix2DosTs : Timespec → FatTimeStamp) :
    NameEvent.AllFit strictAsciiCharset unix2DosTs nameEvents countedDriver (fsyncNamespace strictAsciiCharset) := by
  have hcreate : (NameRequest.create 1 [0x7A] 0 ⟨0, ⟨0, 33⟩⟩).Fits strictAsciiCharset countedDriver
      (fsyncNamespace strictAsciiCharset) :=
    ⟨.inl rfl, by decide, by decide, fun _ _ => countedDriver_has.hasRoom newName_z_file.storable rfl (by decide +kernel)⟩
  have hroom : (countedDriver.fat32Create strictAsciiCharset 1 [0x7A] 0 ⟨0, ⟨0, 33⟩⟩).all
      (fun r => r.2.roomInRoot strictAsciiCharset [0x79, 0x00]) = true := by decide +kernel
  refine ⟨hcreate, fun answer s₁ ns₁ hserve hstep => ?_⟩
  obtain ⟨ns', -, hhas, hbpb⟩ := countedDriver_has.serveName strictAsciiCharset_inverts hcreate hserve
  have hserve₁ : countedDriver.fat32Create strictAsciiCharset 1 [0x7A] 0 ⟨0, ⟨0, 33⟩⟩ = some (answer, s₁) := hserve
  rw [hserve₁, Option.all_some] at hroom
  obtain ⟨hfiles, hnames⟩ := hstep.create_kept
  refine ⟨⟨.inl rfl, by decide, by decide, fun _ => ⟨?_, hhas.hasRoom newName_y.storable hbpb hroom⟩⟩,
    fun _ s₂ ns₂ _ hstep₂ => ⟨⟨fsyncView, hstep₂.mkdir_files (hfiles _ _ rfl (by decide)) (by decide), rfl, by decide⟩,
      fun _ _ _ _ _ => fun _ _ _ _ => ⟨⟨.inl rfl, by decide⟩, fun _ _ _ _ _ => ⟨⟨.inl rfl, by decide⟩,
        fun _ _ _ _ _ => ⟨⟨.inl rfl, by decide⟩, fun _ _ _ _ _ => ⟨⟨.inl rfl, by decide⟩,
          fun _ _ _ _ _ => ⟨⟨.inl rfl, by decide⟩, fun _ _ _ _ _ => trivial⟩⟩⟩⟩⟩⟩⟩
  exact (hnames _ (by decide)).trans (by decide)

theorem Driver.runNames_refines_restart : ∃ answers s' ns',
    countedDriver.runNames strictAsciiCharset (fun _ => ⟨0, 0⟩) nameEvents = some (answers, s') ∧
      Namespace.Serves mountBpb (fun _ => ⟨0, 0⟩) (fsyncNamespace strictAsciiCharset) (nameEvents.filterMap NameEvent.request?)
        answers ns' ∧ s'.Has strictAsciiCharset ns' := by
  have hrun : (countedDriver.runNames strictAsciiCharset (fun _ => ⟨0, 0⟩) nameEvents).isSome := by decide +kernel
  obtain ⟨⟨answers, s'⟩, hrun⟩ := Option.isSome_iff_exists.mp hrun
  obtain ⟨ns', hserves, hhas⟩ := Driver.runNames_refines strictAsciiCharset strictAsciiCharset_inverts (fun _ => ⟨0, 0⟩)
    nameEvents countedDriver s' _ answers countedDriver_has (nameEvents_fit _) hrun
  exact ⟨answers, s', ns', hrun, hserves, hhas⟩

end FuseFat32
