import FuseFat32.Fuse.Held
import FuseFat32.Fuse.Readdir
import FuseFat32.Fuse.Restart

/-!
# Requests that always come back

Reading, asking for attributes, setting times and writing back take no clusters, and nothing that a handler asserts on the way can fail on a well-formed volume: not for the root directory, which is made anew for every request, and not for a read at any offset. Whatever the map has to drop can be written back, and the device that a process leaves can be mounted.
-/

namespace FuseFat32

open LinkedTable Layout WriteBack

/-- A request that takes no clusters. The nanoseconds are those of a time. -/
def Request.Calm : Request → Prop
  | .setattr attr => attr.size = false ∧ attr.stCtim.tvNsec < 10 ^ 9
  | .write _ _ => False
  | _ => True

/-- Such a request for the root directory or for a file of the volume. -/
def Call.Quiet (t : Tree) (bpb : BPB) (call : Call) : Prop :=
  (call.ino = 1 ∧ bpb.rootClus.toNat ∈ t.dirs ∨ call.ino ∈ t.inos) ∧ call.request.Calm

section objects

variable {cs : Charset} {t : Tree} {fs fs' : FAT32fs} {σ : Nat → File} {k : Nat} {f g : File} {l : List Nat}
  {request : Request}

/-! ### What the handlers do -/

theorem File.Placed.readFileStat (hm : fs.Mounted) (hg : g.Placed fs l) (htt : g.crtTime.tt.toNat ≤ 199) :
    ∃ stat g', FuseFat32.readFileStat fs g = some (stat, g') ∧ g.Retimed g' ∧ (∃ l', g'.Placed fs l') ∧
      g'.crtTime.tt.toNat ≤ 199 := by
  have hself : g.MayCache fs g := ⟨⟨g.clusChain_, rfl⟩, l, hg⟩
  obtain ⟨stat, g', hrun, -, hg'⟩ := hself.readFileStat hm htt
  exact ⟨stat, g', hrun, hg'.retimed, hg'.placed, hg'.times.1.symm ▸ htt⟩

/-- The request is answered with the volume as it is, or it writes back the object. -/
theorem Request.Calm.handle (hcalm : request.Calm) (hm : fs.Mounted) (hg : g.Placed fs l)
    (hsize : g.isDir = false → g.fileSz_ ≤ l.length * bytesPerClus fs.bpb) (htt : g.crtTime.tt.toNat ≤ 199)
    (unix2DosTs : Timespec → FatTimeStamp) (now : FatTimeStamp) :
    (∃ answer g', request.handle unix2DosTs fs g now = some (answer, fs, g') ∧ g.Retimed g' ∧ (∃ l', g'.Placed fs l') ∧
      g'.crtTime.tt.toNat ≤ 199) ∨
    ∃ datasync, request.handle unix2DosTs fs g now = (g.sync fs datasync).map fun r => (.ok, r) := by
  have hself : g.Retimed g := rfl
  cases request with
  | getattr =>
    obtain ⟨stat, g', hstat, hg'⟩ := hg.readFileStat hm htt
    refine .inl ⟨.attr stat, g', ?_, hg'⟩
    rw [Request.handle, hstat]
    rfl
  | setattr attr =>
    obtain ⟨hno, hns⟩ := hcalm
    by_cases hperm : (attr.uid || attr.gid) = true
    · refine .inl ⟨.err .eperm, g, ?_, hself, ⟨l, hg⟩, htt⟩
      rw [Request.handle, fat32Setattr, if_pos hperm]
      rfl
    have hset : FuseFat32.setSize fs g attr = some (true, fs, g) := if_neg (by rw [hno]; decide)
    have hplaced : (setTimes unix2DosTs g attr now).Placed fs l := by
      rw [setTimes_eq]
      exact ⟨hg.chain, hg.cache⟩
    obtain ⟨stat, g', hstat, hsame, hg'⟩ := hplaced.readFileStat hm (setTimes_tt unix2DosTs htt hns now)
    refine .inl ⟨.attr stat, g', ?_, (setTimes_retimed unix2DosTs g attr now).trans hsame, hg'⟩
    simp only [Request.handle, fat32Setattr, if_neg hperm, hset, Option.bind_eq_bind, Option.bind_some, Bool.not_true,
      Bool.false_eq_true, if_false, hstat]
    rfl
  | read size offset =>
    obtain ⟨buf, g', hread, hsame, hl'⟩ : ∃ buf g', g.read fs (u32 size) (u32 offset) now = some (buf, g') ∧ g.Same g' ∧
        g'.Placed fs l := ⟨_, File.Placed.read_eq hm (hg.sized hm hsize) (u32 size) (u32 offset) now⟩
    refine .inl ⟨.buf buf, g', ?_, File.Same.retimed hsame, ⟨l, hl'⟩, ?_⟩
    · rw [Request.handle, hread]
      rfl
    · rwa [show g'.crtTime = g.crtTime by rw [hsame]]
  | write buf off => exact hcalm.elim
  | fsync datasync =>
    refine .inr ⟨datasync, ?_⟩
    rw [Request.handle, Option.map_eq_bind]
    rfl
  | opendir => exact .inl ⟨_, g, rfl, hself, ⟨l, hg⟩, htt⟩
  | fsyncdir datasync =>
    cases hdir : g.isDir with
    | false =>
      refine .inl ⟨.err .enotdir, g, ?_, hself, ⟨l, hg⟩, htt⟩
      rw [Request.handle, hdir]
      rfl
    | true =>
      refine .inr ⟨datasync, ?_⟩
      rw [Request.handle, hdir, Option.map_eq_bind]
      rfl

private theorem Tree.Volume.calm (h : t.Volume cs fs σ) (hk : k ∈ t.inos) (hg : (σ k).MayCache fs g) (hcalm : request.Calm)
    (unix2DosTs : Timespec → FatTimeStamp) (now : FatTimeStamp) : ∃ answer fs' f' g',
      request.handle unix2DosTs fs g now = some (answer, fs', g') ∧ t.Served cs fs σ k fs' f' g' := by
  obtain ⟨l, hl⟩ := hg.placed
  have hsame := hg.retimed
  have hsize : g.isDir = false → g.fileSz_ ≤ l.length * bytesPerClus fs.bpb := by
    intro hdir
    have hfile : k ∈ t.files := ((h.kind hk).resolve_right fun hsub => by
      rw [← hsame.kind.1, hdir] at hsub
      exact absurd hsub.2 (by decide)).1
    rw [hsame.data.2]
    exact h.size_le hfile (hsame.data.1 ▸ hl.chain)
  rcases hcalm.handle h.mounted hl hsize (hg.times.1 ▸ (h.stands k hk).tenths) unix2DosTs now with
    ⟨answer, g', hrun, heq, ⟨l', hl'⟩, htt⟩ | ⟨datasync, hrun⟩
  · exact ⟨answer, fs, _, g', hrun, .of_retimed h hk hg heq hl' htt⟩
  · obtain ⟨fs', g', hsync, hserved, -⟩ := h.sync hk hg datasync
    exact ⟨.ok, fs', _, g', by rw [hrun, hsync]; rfl, hserved⟩

private theorem Request.Calm.handle_root (hcalm : request.Calm) (hm : fs.Mounted) (hroot : fs.getRootDir.Placed fs l)
    (unix2DosTs : Timespec → FatTimeStamp) (now : FatTimeStamp) : ∃ answer d' g' l',
      request.handle unix2DosTs fs fs.getRootDir now = some (answer, { fs with device := d' }, g') ∧
      d'.secCnt = fs.device.secCnt ∧ d'.value = fs.device.value ∧ fs.getRootDir.Retimed g' ∧ g'.Placed fs l' := by
  rcases hcalm.handle hm hroot (fun hno => absurd hno Bool.noConfusion) (Nat.zero_le 199) unix2DosTs now with
    ⟨answer, g', hrun, heq, ⟨l', hl'⟩, -⟩ | ⟨datasync, hrun⟩
  · exact ⟨answer, fs.device, g', l', hrun, rfl, rfl, heq, hl'⟩
  · obtain ⟨d', hsync, hback⟩ := hroot.syncSectors hm
    refine ⟨.ok, d', _, l, ?_, hback.secCnt, hback.value, File.Same.retimed (fs.getRootDir.same_cached l), hroot.cached⟩
    rw [hrun, File.sync_root rfl fs.ino_getRootDir, hsync]
    rfl

private theorem Tree.Volume.exists_view (h : t.Volume cs fs σ) (hk : k ∈ t.inos) : ∃ v, t.View fs (σ k) v := by
  obtain ⟨l, hl⟩ := h.placed hk
  refine ⟨⟨(σ k).isDir, _, fs.content l, (σ k).crtTime, (σ k).accDate, (σ k).wrtTime⟩, rfl, rfl, fun _ l' hl' p _ => ?_, rfl,
    rfl, rfl⟩
  rw [hl'.unique hl.chain]

end objects

/-! ### Runs -/

section runs

variable {cs : Charset} {t : Tree} {s : Driver} {σ : Nat → File} {call : Call} {events : List Event}

/-- The root directory is made for the request and let go of. -/
theorem Driver.HoldsBy.serve_root (h : s.Holds cs t σ [] []) (hino : call.ino = 1) (hroot : s.fs.bpb.rootClus.toNat ∈ t.dirs)
    (hcalm : call.request.Calm) (href : call.request.refusal = none) (unix2DosTs : Timespec → FatTimeStamp) :
    ∃ answer s', s.serve cs unix2DosTs call = some (answer, s') ∧ s'.Holds cs t σ [] [] ∧ s'.fs.bpb = s.fs.bpb := by
  have hplaced : s.fs.getRootDir.Placed s.fs (t.chain s.fs.bpb.rootClus.toNat) := ⟨h.volume.dirs _ hroot, .inl rfl⟩
  have hget : s.getExistFile cs call.ino = some (s.fs.getRootDir, s) := by
    rw [Driver.getExistFile, if_pos hino, show (0 : Nat) = kRootDirIno from rfl,
      Driver.getFileByIno_root fun p hp => (h.keyed p hp).2]
    rfl
  obtain ⟨answer, d', g', l', hrun, hcnt, hvalue, hsame, hl'⟩ := hcalm.handle_root h.volume.mounted hplaced unix2DosTs call.now
  obtain ⟨hbacked, -⟩ := h.of_value (Tree.reads cs t) hcnt hvalue
  obtain ⟨-, htable⟩ := h.volume.mounted.of_data d' hcnt fun s _ => congrFun hvalue s
  have hl'' : g'.Placed { s.fs with device := d' } l' := ⟨hl'.chain.congr fun x hx => htable x (hl'.chain.data x hx), hl'.cache⟩
  have hroot' : g'.ino = kRootDirIno := by
    rw [File.ino, hsame.place.1, hsame.place.2]
    exact s.fs.ino_getRootDir
  obtain ⟨s', hrelease, hholds, halike⟩ := hbacked.release_root (Tree.reads cs t) hroot' hl'' hsame.kind.2
  refine ⟨answer, s', ?_, hholds, halike.1⟩
  simp only [Driver.serve, href, hget, Option.bind_eq_bind, Option.bind_some, hrun, hrelease]
  rfl

/-- The object of a file is found or made, and the map takes it back or it writes itself back. -/
theorem Driver.HoldsBy.serve_file (h : s.Holds cs t σ [] []) (hk : call.ino ∈ t.inos) (hcalm : call.request.Calm)
    (href : call.request.refusal = none) (unix2DosTs : Timespec → FatTimeStamp) : ∃ answer s' σ',
      s.serve cs unix2DosTs call = some (answer, s') ∧ s'.Holds cs t σ' [] [] ∧ s'.fs.bpb = s.fs.bpb := by
  obtain ⟨g, s₁, hget, hmem, hholds, halike⟩ := h.getFileByIno (Tree.reads cs t) hk List.not_mem_nil
  have hget : s.getFileByIno cs [] call.ino = some (some g, s₁) := hget
  have hino : g.ino = call.ino := (hholds.keyed _ hmem).1
  have hheld := hholds.hold hmem List.not_mem_nil
  obtain ⟨hkey, hshows⟩ := hheld.shows
  obtain ⟨answer, fs', f', g', hrun, hserved⟩ := hheld.volume.calm hkey hshows hcalm unix2DosTs call.now
  have hupdate := hheld.update hserved
  obtain ⟨s', hrelease, hholds', halike'⟩ := hupdate.release (Tree.reads cs t) List.not_mem_nil
  refine ⟨answer, s', _, ?_, hholds', halike'.1.trans (hserved.bpb.trans halike.1)⟩
  have hexist : s.getExistFile cs call.ino = some (g, s₁) := by
    rw [Driver.getExistFile, if_neg (h.volume.root_lt hk).ne', hget]
    rfl
  simp only [Driver.serve, href, hexist, Option.bind_eq_bind, Option.bind_some, hrun, hrelease]
  rfl

/-- A call that takes no clusters is answered. -/
theorem Driver.HoldsBy.serve_returns (h : s.Holds cs t σ [] []) (hcall : call.Quiet t s.fs.bpb)
    (unix2DosTs : Timespec → FatTimeStamp) : ∃ answer s' σ',
      s.serve cs unix2DosTs call = some (answer, s') ∧ s'.Holds cs t σ' [] [] ∧ s'.fs.bpb = s.fs.bpb := by
  obtain ⟨hino, hcalm⟩ := hcall
  cases href : call.request.refusal with
  | some errno => exact ⟨.err errno, s, σ, by rw [Driver.serve, href], h, rfl⟩
  | none =>
    rcases hino with ⟨hone, hroot⟩ | hk
    · obtain ⟨answer, s', hserve⟩ := h.serve_root hone hroot hcalm href unix2DosTs
      exact ⟨answer, s', σ, hserve⟩
    · exact h.serve_file hk hcalm href unix2DosTs

theorem Driver.HoldsBy.restart (h : s.Holds cs t σ [] []) : ∃ s₁ s₂, s.flush = some s₁ ∧ s₁.remount = some s₂ ∧
    s₂.Holds cs t σ [] [] ∧ s₂.fs.bpb = s.fs.bpb := by
  obtain ⟨s₁, s₂, hflush, hremount, hpos, hc, halike⟩ := Driver.restart_coherent h.all
  exact ⟨s₁, s₂, hflush, hremount, .of_coherent (Tree.reads cs t) hpos hc, halike.1⟩

private theorem Driver.HoldsBy.run_quiet (unix2DosTs : Timespec → FatTimeStamp) : ∀ {events : List Event} {s : Driver}
    {σ : Nat → File}, s.Holds cs t σ [] [] → (∀ call ∈ events.filterMap Event.call?, call.Quiet t s.fs.bpb) →
      ∃ answers s' σ', s.run cs unix2DosTs events = some (answers, s') ∧ s'.Holds cs t σ' [] [] := by
  intro events
  induction events with
  | nil => exact fun {s σ} h _ => ⟨[], s, σ, rfl, h⟩
  | cons event events ih =>
    intro s σ h hquiet
    cases event with
    | call c =>
      obtain ⟨answer, s₁, σ₁, hserve, h₁, hbpb⟩ := h.serve_returns (hquiet c List.mem_cons_self) unix2DosTs
      obtain ⟨answers, s', σ', hrest, h'⟩ := ih h₁ fun c hc => hbpb ▸ hquiet c (List.mem_cons_of_mem _ hc)
      refine ⟨answer :: answers, s', σ', ?_, h'⟩
      simp only [Driver.run, hserve, Option.bind_eq_bind, Option.bind_some, hrest]
      rfl
    | restart =>
      obtain ⟨s₁, s₂, hflush, hremount, h₂, hbpb⟩ := h.restart
      obtain ⟨answers, s', σ', hrest, h'⟩ := ih h₂ fun c hc => hbpb ▸ hquiet c hc
      refine ⟨answers, s', σ', ?_, h'⟩
      simp only [Driver.run, hflush, hremount, Option.bind_eq_bind, Option.bind_some, hrest]

end runs

/-- Requests that take no clusters are all answered, every restart comes up, and the volume is left well formed. -/
theorem Driver.run_returns (cs : Charset) (unix2DosTs : Timespec → FatTimeStamp) (t : Tree) (events : List Event) (s : Driver)
    (store : Nat → FileView) (h : s.Shows cs t store)
    (hquiet : ∀ call ∈ events.filterMap Event.call?, call.Quiet t s.fs.bpb) :
    ∃ answers s' store', s.run cs unix2DosTs events = some (answers, s') ∧ s'.Shows cs t store' := by
  obtain ⟨hpos, σ, hc, -⟩ := h
  obtain ⟨answers, s', σ', hrun, h'⟩ := (Driver.HoldsBy.of_coherent (Tree.reads cs t) hpos hc).run_quiet unix2DosTs hquiet
  have hviews : ∀ k, ∃ v, k ∈ t.inos → t.View s'.fs (σ' k) v := by
    intro k
    by_cases hk : k ∈ t.inos
    · exact (h'.volume.exists_view hk).imp fun _ hv _ => hv
    · exact ⟨store k, fun hno => absurd hno hk⟩
  choose store' hstore using hviews
  exact ⟨answers, s', store', hrun, h'.room, σ', h'.all, fun k hk => hstore k hk⟩

/-- Times of the file and of the root directory are set, the file is read far behind its end, and the next process goes on. -/
theorem Driver.run_returns_restart : ∃ answers s' store',
    fsyncDriver.run asciiCharset (fun _ => ⟨0, 0⟩)
      [.call ⟨2 * 2 ^ 32, ⟨1, 33⟩, .setattr ⟨false, false, false, true, true, true, false, false, 0, ⟨0, 5⟩, ⟨0, 0⟩, ⟨0, 0⟩⟩⟩, .restart,
        .call ⟨1, ⟨1, 33⟩, .fsyncdir true⟩, .call ⟨2 * 2 ^ 32, ⟨1, 33⟩, .read 10 (2 ^ 40 + 1)⟩, .restart,
        .call ⟨1, ⟨1, 33⟩, .getattr⟩] = some (answers, s') ∧
      s'.Shows asciiCharset fsyncTree store' := by
  have hfile : 2 * 2 ^ 32 ∈ fsyncTree.inos := .inl (Set.mem_singleton _)
  have hroot : (fsyncDriver.fs.bpb.rootClus.toNat) ∈ fsyncTree.dirs := Set.mem_singleton_iff.mpr (by decide)
  refine Driver.run_returns asciiCharset _ fsyncTree _ fsyncDriver _ fsyncDriver_shows fun call hcall => ?_
  rcases List.mem_cons.mp hcall with rfl | hcall
  · exact ⟨.inr hfile, rfl, by decide⟩
  rcases List.mem_cons.mp hcall with rfl | hcall
  · exact ⟨.inl ⟨rfl, hroot⟩, trivial⟩
  rcases List.mem_cons.mp hcall with rfl | hcall
  · exact ⟨.inr hfile, trivial⟩
  · obtain rfl := List.mem_singleton.mp hcall
    exact ⟨.inl ⟨rfl, hroot⟩, trivial⟩

end FuseFat32
