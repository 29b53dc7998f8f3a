import FuseFat32.Fuse.Requests

/-!
# Serving requests

Every handler does to the object of its file what the store allows, and the objects in memory go on to agree with the entries on the device. Then it does not matter which objects the map has: a run of requests is a run of the store, whatever the size of the map.
-/

namespace FuseFat32

open LinkedTable Layout WriteBack

section handlers

variable {cs : Charset} {unix2DosTs : Timespec → FatTimeStamp} {t : Tree} {fs fs' : FAT32fs} {σ : Nat → File} {k : Nat}
  {f g g' : File} {v : FileView} {l : List Nat} {now : FatTimeStamp} {answer : Answer}

/-! ### Objects in memory -/

theorem File.MayCache.placed (h : f.MayCache fs g) : ∃ l, g.Placed fs l := h.2

theorem File.MayCache.retimed (h : f.MayCache fs g) : f.Retimed g := by
  obtain ⟨⟨c, rfl⟩, -⟩ := h
  rfl

theorem File.Retimed.uncached (h : f.Retimed g) : f.Retimed g.uncached := by
  unfold File.Retimed at h ⊢
  rw [File.uncached, h]

theorem File.MayCache.times (h : f.MayCache fs g) :
    g.crtTime = f.crtTime ∧ g.accDate = f.accDate ∧ g.wrtTime = f.wrtTime := by
  obtain ⟨⟨c, rfl⟩, -⟩ := h
  exact ⟨rfl, rfl, rfl⟩

theorem File.MayCache.cached (h : f.MayCache fs g) (hl : g.Placed fs l) : f.MayCache fs (g.cached l) := by
  obtain ⟨⟨c, rfl⟩, -⟩ := h
  exact ⟨⟨some l, rfl⟩, l, hl.cached⟩

private theorem File.MayCache.uncached_eq (h : f.MayCache fs g) (hf : f.clusChain_ = none) : g.uncached = f := by
  obtain ⟨⟨c, rfl⟩, -⟩ := h
  obtain ⟨_, _, _, _, _, _, _, _, _, chain, _⟩ := f
  obtain rfl : chain = none := hf
  rfl

theorem Tree.Served.self (h : t.Volume cs fs σ) (hk : k ∈ t.inos) (hg : (σ k).MayCache fs g) :
    t.Served cs fs σ k fs (σ k) g := by
  obtain ⟨l, hl⟩ := hg.placed
  have hsame : t.Served cs fs σ k fs g.uncached g :=
    .of_retimed h hk hg rfl hl (hg.times.1 ▸ (h.stands k hk).tenths)
  rwa [hg.uncached_eq (h.stands k hk).uncached] at hsame

theorem Tree.Volume.ino_eq (h : t.Volume cs fs σ) (hk : k ∈ t.inos) : (σ k).ino = k := by
  rw [File.ino, (h.stands k hk).parent, (h.stands k hk).entry]
  exact Nat.div_add_mod' k (2 ^ 32)

/-! ### Attributes -/

/-- `readFileStat` returns what the client sees. -/
theorem Tree.Volume.stat (h : t.Volume cs fs σ) (hk : k ∈ t.inos) (hg : (σ k).MayCache fs g) (hv : t.View fs (σ k) v) :
    ∃ g', readFileStat fs g = some (v.stat k, g') ∧ (σ k).MayCache fs g' := by
  obtain ⟨l, hl⟩ := hg.placed
  have hsame := hg.retimed
  obtain ⟨hcrt, hacc, hwrt⟩ := hg.times
  obtain ⟨hfst, hsize⟩ := hsame.data
  have htt : g.crtTime.tt.toNat ≤ 199 := hcrt ▸ (h.stands k hk).tenths
  have hino : g.ino = k := by
    rw [File.ino, hsame.place.1, hsame.place.2]
    exact h.ino_eq hk
  rw [readFileStat, FileView.stat, hv.size, hv.isDir, hv.crtTime, hv.accDate, hv.wrtTime, ← hsame.kind.1, ← hcrt, ← hacc,
    ← hwrt]
  rcases h.kind hk with ⟨-, hdir⟩ | ⟨hsub, hdir⟩ <;> rw [← hsame.kind.1] at hdir
  · refine ⟨g, ?_, hg⟩
    rw [File.fileSz, hdir]
    simp [htt, hino, hdir, hsize]
  · have hchain := hl.chain
    rw [hfst] at hchain
    obtain rfl := hchain.unique (h.dirs _ (h.subdirs k hsub).2)
    refine ⟨g.cached _, ?_, hg.cached hl⟩
    rw [File.fileSz, hdir, if_pos rfl, hl.readClusChain h.mounted]
    simp [File.cached, htt, File.ino, ← hino, hdir]

/-! ### `fsync` -/

/-- `sync` changes nothing that a client sees. -/
theorem Tree.Volume.sync (h : t.Volume cs fs σ) (hk : k ∈ t.inos) (hg : (σ k).MayCache fs g) (sync_meta : Bool) :
    ∃ fs' g', g.sync fs sync_meta = some (fs', g') ∧ t.Served cs fs σ k fs' (σ k) g' ∧ t.Alike σ fs fs' := by
  obtain ⟨l, hl⟩ := hg.placed
  have hsame := hg.retimed
  have hstands := h.stands k hk
  have hlive : g.isDeleted = false := hsame.kind.2.trans hstands.live
  cases sync_meta with
  | true =>
    have hlisted := (h.listed k hk).2
    obtain ⟨f₀, hmade, hname, -⟩ := h.made k hk
    obtain ⟨d', hrun, hset⟩ := hlisted.sync h.mounted hl (hsame.place.1.trans hstands.parent)
      (hsame.place.2.trans hstands.entry) hlive
    have hsamename := File.sameName_updated g
      (castLongDirEntryToShort (fs.entryAt (t.chain (k / 2 ^ 32)) (k % 2 ^ 32 + t.longs k)))
    have hself := h.shelf.fromIno_set hk hset hsamename hmade
    obtain ⟨-, htable⟩ := h.shelf.table hk hset
    have halike := h.alike_of_set hk hset hsamename
    refine ⟨_, _, hrun, ⟨?_, (hg.cached hl).of_table htable, ⟨fun j hj hne hhas => ?_, fun j _ _ a ha => ha.of_table htable⟩,
      rfl, halike.2.1, fun _ => rfl, fun j hj _ v hv => halike.view h hj hv⟩, halike⟩
    · rw [Function.update_eq_self]
      refine h.set hk hset hsamename ⟨_, hself, hname, ?_⟩
      rw [← h.shelf.isDirectory_eq hk]
      rfl
    · exact (h.shelf.fromIno_of_set hk hset hsamename hj hne).trans hhas
  | false =>
    obtain ⟨d', hrun, hback⟩ := hl.syncSectors h.mounted
    obtain ⟨hvolume, halike, hmade⟩ := h.of_value hback.secCnt hback.value
    obtain ⟨-, htable⟩ := h.mounted.of_data d' hback.secCnt fun s _ => congrFun hback.value s
    refine ⟨{ fs with device := d' }, g.cached l, ?_, ⟨?_, (hg.cached hl).of_table htable,
      ⟨fun j hj _ hhas => (hmade j hj).trans hhas, fun j _ _ a ha => ha.of_table htable⟩, rfl,
      halike.2.1, fun _ => rfl, fun j hj _ v hv => halike.view h hj hv⟩, halike⟩
    · simp only [File.sync, hlive, Bool.false_eq_true, if_false, false_and, Option.bind_eq_bind, Option.bind_some]
      exact hrun
    · rw [Function.update_eq_self]
      exact hvolume

/-! ### Reading -/

private theorem File.read_accDate {size offset : Nat} {buf : List UInt8} (hdir : f.isDir = false)
    (hrun : f.read fs size offset now = some (buf, g)) :
    g.accDate = if offset < f.fileSz_ then now.date else f.accDate := by
  simp only [File.read, File.fileSz, hdir, Bool.false_eq_true, if_false, Option.bind_eq_bind, Option.bind_some,
    Option.bind_eq_some_iff] at hrun
  obtain ⟨-, -, hrun⟩ := hrun
  split at hrun
  · next hpast =>
    obtain ⟨-, rfl⟩ := Prod.mk.inj (Option.some.inj hrun)
    rw [if_neg (Nat.not_lt.mpr hpast)]
  · next hin =>
    simp only [Option.bind_eq_some_iff] at hrun
    obtain ⟨-, -, -, -, ⟨buf', f'⟩, -, hrun⟩ := hrun
    obtain ⟨-, rfl⟩ := Prod.mk.inj (Option.some.inj hrun)
    rw [if_pos (Nat.not_le.mp hin)]
    rfl

/-- A read returns the bytes that the client sees. -/
theorem Tree.Volume.read (h : t.Volume cs fs σ) (hk : k ∈ t.files) (hg : (σ k).MayCache fs g) (hv : t.View fs (σ k) v)
    (size offset : Nat) (now : FatTimeStamp) : ∃ g',
      g.read fs size offset now =
        some ((List.range (min size (v.size - offset))).map fun i => v.bytes (offset + i), g') ∧
      t.Served cs fs σ k fs g'.uncached g' ∧
      t.View fs g'.uncached (if offset < v.size then { v with accDate := now.date } else v) := by
  obtain ⟨l, hl⟩ := hg.placed
  have hsame := hg.retimed
  have hdir := h.file hk
  have hgdir : g.isDir = false := hsame.kind.1.trans hdir
  have hchain := hl.chain
  rw [hsame.data.1] at hchain
  have hfits := h.size_le hk hchain
  have hsz : v.size = g.fileSz_ := by rw [hv.size, hdir, hsame.data.2]; rfl
  have hsized := File.Same.sized (rfl : g.Same g) hgdir hl (hsame.data.2 ▸ hfits)
  obtain ⟨g', hrun, hsame', hl'⟩ := File.Placed.read_eq h.mounted hsized size offset now
  have hacc := File.read_accDate hgdir hrun
  have hretimed := File.Same.retimed hsame'
  have hcrt : g'.crtTime = g.crtTime := by rw [hsame']
  have hwrt : g'.wrtTime = g.wrtTime := by rw [hsame']
  obtain ⟨hgcrt, hgacc, hgwrt⟩ := hg.times
  refine ⟨g', ?_, .of_retimed h (.inl hk) hg hretimed hl' ?_, ?_⟩
  · rw [hrun, hsz]
    refine congrArg (fun bytes => some (bytes, g')) (List.map_congr_left fun i hi => ?_)
    have := List.mem_range.mp hi
    exact (hv.bytes hdir l hchain (offset + i) (by rw [← hsame.data.2]; omega)).symm
  · rw [hcrt, hgcrt]
    exact (h.stands k (.inl hk)).tenths
  · have hview := hv.retimed (hsame.trans hretimed).uncached
    have heq : { v with crtTime := g'.uncached.crtTime, accDate := g'.uncached.accDate, wrtTime := g'.uncached.wrtTime } =
        (if offset < v.size then { v with accDate := now.date } else v) := by
      have hv' : v = { v with crtTime := g'.crtTime, accDate := g.accDate, wrtTime := g'.wrtTime } := by
        rw [hcrt, hwrt, hgcrt, hgacc, hgwrt, ← hv.crtTime, ← hv.accDate, ← hv.wrtTime]
      change { v with crtTime := g'.crtTime, accDate := g'.accDate, wrtTime := g'.wrtTime } = _
      rw [← hsz] at hacc
      rw [hacc]
      split
      · rw [hcrt, hwrt, hgcrt, hgwrt, ← hv.crtTime, ← hv.wrtTime]
      · exact hv'.symm
    exact heq ▸ hview

/-! ### Writing and resizing -/

theorem Tree.Volume.opened (h : t.Volume cs fs σ) (hk : k ∈ t.files) (hg : (σ k).MayCache fs g) :
    ∃ l, g.Placed fs l ∧ g.isDir = false ∧ (g.fstClus = 0 ∨ g.fstClus ∈ (t.run fs σ).heads t.dirs) ∧
      l.length = fs.bpb.clusFor g.fileSz_ ∧ fs.bpb.ChainOf fs.table (σ k).fstClus l := by
  obtain ⟨l, hl⟩ := hg.placed
  have hsame := hg.retimed
  have hchain := hl.chain
  rw [hsame.data.1] at hchain
  refine ⟨l, hl, hsame.kind.1.trans (h.file hk), ?_, ?_, hchain⟩
  · rw [hsame.data.1]
    exact h.head (.inl hk)
  · rw [hsame.data.2]
    exact h.length_eq hk hchain

theorem Tree.View.of_mayCache (hv : t.View fs f v) (hg : f.MayCache fs g) (hdir : f.isDir = false)
    (hl : fs.bpb.ChainOf fs.table f.fstClus l) : v.size = g.fileSz_ ∧ (∀ p < g.fileSz_, v.bytes p = fs.content l p) ∧
      v.crtTime = g.crtTime ∧ v.accDate = g.accDate ∧ v.wrtTime = g.wrtTime := by
  obtain ⟨⟨c, rfl⟩, -⟩ := hg
  refine ⟨?_, hv.bytes hdir l hl, hv.crtTime, hv.accDate, hv.wrtTime⟩
  rw [hv.size, hdir]
  rfl

theorem Tree.View.of_content (hdir : f.isDir = false) (hl : fs.bpb.ChainOf fs.table f.fstClus l) (hisDir : v.isDir = false)
    (hsize : v.size = f.fileSz_) (hbytes : ∀ p < f.fileSz_, v.bytes p = fs.content l p)
    (htimes : v.crtTime = f.crtTime ∧ v.accDate = f.accDate ∧ v.wrtTime = f.wrtTime) : t.View fs f v := by
  refine ⟨hisDir.trans hdir.symm, ?_, fun _ l' hl' p hp => ?_, htimes.1, htimes.2.1, htimes.2.2⟩
  · rw [hsize, hdir]
    rfl
  · rw [hl'.unique hl]
    exact hbytes p hp

theorem File.ExpandedTo.object {heads : Set Nat} {length : Nat} {fs₁ : FAT32fs} {f₁ : File} {l₁ : List Nat}
    (hdir : g.isDir = false) (h : g.ExpandedTo fs heads l length fs₁ f₁ l₁) :
    f₁.fileSz_ = max g.fileSz_ length ∧ f₁.crtTime = g.crtTime ∧ f₁.accDate = g.accDate ∧ f₁.wrtTime = g.wrtTime := by
  rcases h with ⟨hend, ht, -⟩ | ⟨hend, -, rfl, -⟩
  · refine ⟨(ht.size hdir).1.trans (Nat.max_eq_right hend).symm, ?_⟩
    rw [ht.file]
    exact ⟨rfl, rfl, rfl⟩
  · exact ⟨(Nat.max_eq_left hend.le).symm, rfl, rfl, rfl⟩

/-- A write stores the whole buffer, or the file would need more clusters than it has. -/
theorem Tree.Volume.write {buf : List UInt8} {off n : Nat} (h : t.Volume cs fs σ) (hk : k ∈ t.files)
    (hg : (σ k).MayCache fs g) (hv : t.View fs (σ k) v) (hfits : off + buf.length < 2 ^ 32)
    (hrun : fat32Write fs g buf off now = some (n, fs', g')) : ∃ v',
      (n = 0 ∧ v' = v ∧ v.Outgrows fs.bpb (off + buf.length) ∨ n = buf.length ∧ v.Written buf off now v') ∧
      t.Served cs fs σ k fs' g'.uncached g' ∧ t.View fs' g'.uncached v' := by
  obtain ⟨l, hl, hdir, hhead, hlen, hchain⟩ := h.opened hk hg
  obtain ⟨hvsize, hbytes, htimes⟩ := hv.of_mayCache hg (h.file hk) hchain
  obtain ⟨hcrt, hacc, hwrt⟩ := htimes
  have hs := h.mounted.sound
  have hvdir : v.isDir = false := hv.isDir.trans (h.file hk)
  have hstands := h.stands k (.inl hk)
  have htenths : g.crtTime.tt.toNat ≤ 199 := hg.times.1 ▸ hstands.tenths
  have hgsize : g.fileSz_ < 2 ^ 32 := hg.retimed.data.2 ▸ hstands.size
  rw [fat32Write, u32_of_lt (by omega), u32_of_lt (by omega), List.take_length] at hrun
  have hend : u32 (off + buf.length) = off + buf.length := u32_of_lt hfits
  rcases File.write_some h.sane hhead hl hdir (fun _ => .inl h.files.hint) hrun with
    ⟨rfl, -, hfull, rfl, rfl⟩ | ⟨fs₁, f₁, l₁, hexp, hst⟩
  · have hw : t.Works fs σ k g' l { fs with fat := fs.fat.counted fs.table } g' l :=
      ⟨h.sane.reworked_counted hhead hl hlen, hg.1, hl, hgsize, htenths⟩
    refine ⟨v, .inl ⟨rfl, rfl, ?_⟩, .of_works h hk hw, .of_content hdir hl.chain hvdir hvsize hbytes ⟨hcrt, hacc, hwrt⟩⟩
    rw [FileView.Outgrows, hvsize, ← hlen, ← hend]
    exact hfull
  · rw [hend] at hexp
    obtain ⟨hsize₁, hcrt₁, hacc₁, hwrt₁⟩ := hexp.object hdir
    have hre := hexp.reworked h.sane hhead hl hdir hlen
    have hwork := hre.stored h.sane hst
    have hcap : max g.fileSz_ (off + buf.length) ≤ l₁.length * bytesPerClus fs.bpb := by
      rw [← hsize₁, hre.length]
      exact hs.le_clusFor _
    have hroom : n = buf.length := by
      rw [hst.count, hre.bpb]
      exact BPB.roomFor_eq ((Nat.le_max_right _ _).trans hcap)
    have hfile := hst.file
    have hsize' : g'.fileSz_ = max g.fileSz_ (off + buf.length) := by
      rw [hfile]
      exact hsize₁
    have hcrt' : g'.crtTime = g.crtTime := by
      rw [hfile]
      exact hcrt₁
    have hw : t.Works fs σ k g l fs' g' l₁ := ⟨hwork, hg.1, hl, by omega, hcrt' ▸ htenths⟩
    have hkept : ∀ p < g.fileSz_, p < off ∨ off + buf.length ≤ p → fs'.content l₁ p = v.bytes p := by
      intro p hp hout
      have hin : p < l.length * bytesPerClus fs.bpb := hp.trans_le (hlen ▸ hs.le_clusFor _)
      have hin₁ : p < l₁.length * bytesPerClus fs.bpb := by omega
      rw [hst.content_eq hre.sane hre.placed (hre.bpb.symm ▸ hin₁) (hroom ▸ hout), hexp.content_kept h.sane hdir hin hin₁, hbytes p hp]
    refine ⟨{ v with size := max v.size (off + buf.length), bytes := fs'.content l₁, wrtTime := now },
      .inr ⟨hroom, rfl, fun i hi => hst.content_stored (hroom ▸ hi), fun p hp hout => hkept p (hvsize ▸ hp) hout⟩,
      .of_works h hk hw, .of_content ?_ (hw.bpb.symm ▸ hw.placed.chain) hvdir ?_ (fun _ _ => rfl) ⟨?_, ?_, ?_⟩⟩
    · exact hw.same.2.2.1.trans hdir
    · rw [hvsize]
      exact hsize'.symm
    · exact hcrt.trans hcrt'.symm
    · rw [File.uncached, hfile]
      exact hacc.trans hacc₁.symm
    · rw [File.uncached, hfile]
      rfl

theorem Tree.Volume.setSize {attr : SetAttr} {ok : Bool} (h : t.Volume cs fs σ) (hk : k ∈ t.inos)
    (hg : (σ k).MayCache fs g) (hv : t.View fs (σ k) v) (hvalid : attr.size = true → k ∈ t.files ∧ attr.stSize < 2 ^ 32)
    (hrun : setSize fs g attr = some (ok, fs', g')) : ∃ f' v', t.Served cs fs σ k fs' f' g' ∧ t.View fs' f' v' ∧
      (attr.size = true → (ok = false ∧ v' = v ∧ v.Outgrows fs.bpb attr.stSize) ∨ (ok = true ∧ v.Resized attr.stSize v')) ∧
      (attr.size = false → ok = true ∧ v' = v) := by
  rw [FuseFat32.setSize] at hrun
  by_cases hsize : attr.size = true
  swap
  · rw [if_neg hsize] at hrun
    obtain ⟨rfl, rfl, rfl⟩ : true = ok ∧ fs = fs' ∧ g = g' := by simpa using hrun
    exact ⟨σ k, v, .self h hk hg, hv, fun hyes => absurd hyes hsize, fun _ => ⟨rfl, rfl⟩⟩
  obtain ⟨hfile, hlt⟩ := hvalid hsize
  rw [if_pos hsize, u32_of_lt hlt] at hrun
  obtain ⟨l, hl, hdir, hhead, hlen, hchain⟩ := h.opened hfile hg
  obtain ⟨hgsize, hbytes, htimes⟩ := hv.of_mayCache hg (h.file hfile) hchain
  have hs := h.mounted.sound
  have hvdir : v.isDir = false := hv.isDir.trans (h.file hfile)
  have hstands := h.stands k hk
  have htenths : g.crtTime.tt.toNat ≤ 199 := hg.times.1 ▸ hstands.tenths
  rcases File.truncate_some h.sane hhead hl.chain (fun _ => .inl h.files.hint) hrun with
    ⟨rfl, ht⟩ | ⟨rfl, hfull, rfl, rfl⟩
  · have hw : t.Works fs σ k g l fs' g' (fs.chainAfter l attr.stSize) :=
      ⟨ht.reworked h.sane hl hdir, hg.1, hl, (ht.size hdir).1.symm ▸ hlt, by rw [ht.file]; exact htenths⟩
    refine ⟨g'.uncached, { v with size := attr.stSize, bytes := fs'.content (fs.chainAfter l attr.stSize) },
      .of_works h hfile hw, .of_content (ht.size hdir).2 (hw.bpb.symm ▸ hw.placed.chain) hvdir (ht.size hdir).1.symm
      (fun _ _ => rfl) ?_, fun _ => .inr ⟨rfl, rfl, fun p hp hp' => ?_⟩, fun hno => absurd hsize (by rw [hno]; decide)⟩
    · rw [File.uncached, ht.file]
      exact htimes
    · rw [hgsize] at hp
      have hin : p < l.length * bytesPerClus fs.bpb := hp.trans_le (hlen ▸ hs.le_clusFor _)
      exact (ht.content_kept h.sane hdir hin (hp'.trans_le (ht.capacity h.sane))).trans (hbytes p hp).symm
  · have hw : t.Works fs σ k g' l { fs with fat := fs.fat.counted fs.table } g' l :=
      ⟨h.sane.reworked_counted hhead hl hlen, hg.1, hl, hg.retimed.data.2 ▸ hstands.size, htenths⟩
    refine ⟨g'.uncached, v, .of_works h hfile hw, .of_content hdir hl.chain hvdir hgsize hbytes htimes,
      fun _ => .inl ⟨rfl, rfl, ?_⟩, fun hno => absurd hsize (by rw [hno]; decide)⟩
    rw [FileView.Outgrows, hgsize, ← hlen]
    exact hfull

/-! ### The answers of the handlers -/

theorem Tree.Served.trans {fs₁ fs₂ : FAT32fs} {f₁ f₂ g₁ g₂ : File} (h : t.Served cs fs σ k fs₁ f₁ g₁)
    (h' : t.Served cs fs₁ (Function.update σ k f₁) k fs₂ f₂ g₂) : t.Served cs fs σ k fs₂ f₂ g₂ := by
  have hvolume := h'.volume
  rw [Function.update_idem] at hvolume
  refine ⟨hvolume, h'.object, ⟨fun j hj hne hhas => ?_, fun j hj hne a ha => ?_⟩, h'.bpb.trans h.bpb,
    h.tidy.trans h.bpb h'.tidy, fun hk => ?_, fun j hj hne v hv => ?_⟩
  · have hstep := h'.undisturbed.has j hj hne
    rw [Function.update_of_ne hne] at hstep
    exact hstep (h.undisturbed.has j hj hne hhas)
  · have hstep := h'.undisturbed.shows j hj hne a
    rw [Function.update_of_ne hne] at hstep
    exact hstep (h.undisturbed.shows j hj hne a ha)
  · have hstep := h'.head hk
    rw [Function.update_self] at hstep
    exact hstep.trans (h.head hk)
  · have hstep := h'.views j hj hne v
    rw [Function.update_of_ne hne] at hstep
    exact hstep (h.views j hj hne v hv)

theorem Tree.Served.ino_eq (h : t.Served cs fs σ k fs' f' g') (hk : k ∈ t.inos) : g'.ino = k := by
  have hself := h.volume.ino_eq hk
  rw [Function.update_self] at hself
  obtain ⟨hparent, hentry⟩ := h.object.retimed.place
  rw [File.ino, hparent, hentry]
  exact hself

theorem Tree.Served.recached (h : t.Served cs fs σ k fs' f' g) (hg : f'.MayCache fs' g') : t.Served cs fs σ k fs' f' g' :=
  ⟨h.volume, hg, h.undisturbed, h.bpb, h.tidy, h.head, h.views⟩

theorem Tree.Served.stat (h : t.Served cs fs σ k fs' f' g') (hk : k ∈ t.inos) (hv : t.View fs' f' v) :
    ∃ g'', readFileStat fs' g' = some (v.stat k, g'') ∧ t.Served cs fs σ k fs' f' g'' := by
  have hself : Function.update σ k f' k = f' := Function.update_self ..
  obtain ⟨g'', hstat, hg''⟩ := h.volume.stat hk (hself.symm ▸ h.object) (hself.symm ▸ hv)
  rw [hself] at hg''
  exact ⟨g'', hstat, h.recached hg''⟩

theorem setTimes_retimed (unix2DosTs : Timespec → FatTimeStamp) (f : File) (attr : SetAttr) (now : FatTimeStamp) :
    f.Retimed (setTimes unix2DosTs f attr now) := by
  have h := setTimes_eq unix2DosTs f attr now
  generalize setTimes unix2DosTs f attr now = g at h ⊢
  rw [h]
  rfl

private theorem setTimes_times (unix2DosTs : Timespec → FatTimeStamp) (f : File) (attr : SetAttr) (now : FatTimeStamp) :
    (setTimes unix2DosTs f attr now).crtTime =
        (if attr.ctime then unix2DosTs2 unix2DosTs attr.stCtim else f.crtTime) ∧
      (setTimes unix2DosTs f attr now).accDate =
        (if attr.atime then (if attr.atimeNow then now else unix2DosTs attr.stAtim).date else f.accDate) ∧
      (setTimes unix2DosTs f attr now).wrtTime =
        if attr.mtime then (if attr.mtimeNow then now else unix2DosTs attr.stMtim) else f.wrtTime := by
  rcases attr with ⟨_, _, _, ctime, atime, _, mtime, _⟩
  cases ctime <;> cases atime <;> cases mtime <;> exact ⟨rfl, rfl, rfl⟩

theorem Tree.Served.setTimes {attr : SetAttr} (h : t.Served cs fs σ k fs' f' g') (hk : k ∈ t.inos) (hv : t.View fs' f' v)
    (hns : attr.stCtim.tvNsec < 10 ^ 9) (unix2DosTs : Timespec → FatTimeStamp) (now : FatTimeStamp) :
    t.Served cs fs σ k fs' (setTimes unix2DosTs g' attr now).uncached (setTimes unix2DosTs g' attr now) ∧
      t.View fs' (setTimes unix2DosTs g' attr now).uncached (v.setTimes unix2DosTs attr now) := by
  have hself : Function.update σ k f' k = f' := Function.update_self ..
  have hretimed := setTimes_retimed unix2DosTs g' attr now
  obtain ⟨l, hl⟩ := h.object.placed
  obtain ⟨hcrt, hacc, hwrt⟩ := h.object.times
  have htt : g'.crtTime.tt.toNat ≤ 199 := by
    rw [hcrt, ← hself]
    exact (h.volume.stands k hk).tenths
  have hplaced : (FuseFat32.setTimes unix2DosTs g' attr now).Placed fs' l := by
    rw [setTimes_eq]
    exact ⟨hl.chain, hl.cache⟩
  refine ⟨h.trans (.of_retimed h.volume hk (hself.symm ▸ h.object) hretimed hplaced (setTimes_tt unix2DosTs htt hns now)), ?_⟩
  have hview := hv.retimed (h.object.retimed.trans hretimed).uncached
  obtain ⟨hcrt', hacc', hwrt'⟩ := setTimes_times unix2DosTs g' attr now
  rw [hcrt, ← hv.crtTime] at hcrt'
  rw [hacc, ← hv.accDate] at hacc'
  rw [hwrt, ← hv.wrtTime] at hwrt'
  rw [FileView.setTimes, ← hcrt', ← hacc', ← hwrt']
  exact hview

/-- A handler that returns has done to the file what the store allows. -/
theorem Tree.Volume.handle (h : t.Volume cs fs σ) (hk : k ∈ t.inos) (hg : (σ k).MayCache fs g) (hv : t.View fs (σ k) v)
    {request : Request} (hfits : request.Fits t k) (href : request.refusal = none)
    (hrun : request.handle unix2DosTs fs g now = some (answer, fs', g')) :
    ∃ f' v', v.Step fs.bpb unix2DosTs k now answer v' request ∧ t.Served cs fs σ k fs' f' g' ∧ t.View fs' f' v' := by
  have hself := Tree.Served.self h hk hg
  have hgdir : g.isDir = v.isDir := hg.retimed.kind.1.trans hv.isDir.symm
  cases request with
  | getattr =>
    obtain ⟨g₁, hstat, hserved⟩ := hself.stat hk hv
    rw [Request.handle, hstat] at hrun
    obtain ⟨rfl, rfl, rfl⟩ : Answer.attr (v.stat k) = answer ∧ fs = fs' ∧ g₁ = g' := by simpa using hrun
    exact ⟨σ k, v, ⟨rfl, rfl⟩, hserved, hv⟩
  | setattr attr =>
    have hperm : (attr.uid || attr.gid) ≠ true := by
      intro hperm
      rw [Request.refusal, if_pos hperm] at href
      exact absurd href (by simp)
    simp only [Request.handle, fat32Setattr, if_neg hperm, Option.bind_eq_bind, Option.bind_eq_some_iff, Option.pure_def,
      Option.some.injEq, Prod.mk.injEq] at hrun
    obtain ⟨⟨reply, fs₂, g₂⟩, ⟨⟨ok, fs₁, g₁⟩, hsize, hrest⟩, rfl, rfl, rfl⟩ := hrun
    obtain ⟨f₁, v₁, hserved, hview, hyes, hno⟩ := h.setSize hk hg hv hfits.2 hsize
    obtain ⟨hserved₂, hview₂⟩ := hserved.setTimes hk hview hfits.1 unix2DosTs now
    obtain ⟨g₃, hstat, hserved₃⟩ := hserved₂.stat hk hview₂
    cases ok with
    | false =>
      obtain ⟨rfl, rfl, rfl⟩ : SetAttrReply.err .efbig = reply ∧ fs₁ = fs₂ ∧ g₁ = g₂ := by simpa using hrest
      have hasked : attr.size = true := by
        by_contra hasked
        exact absurd (hno (by simpa using hasked)).1 (by decide)
      rcases hyes hasked with ⟨-, rfl, hout⟩ | ⟨hok, -⟩
      · refine ⟨f₁, v₁, ?_, hserved, hview⟩
        rw [FileView.Step, if_neg hperm, if_pos hasked]
        exact .inl ⟨rfl, rfl, hout⟩
      · exact absurd hok (by decide)
    | true =>
      simp only [Bool.not_true, Bool.false_eq_true, if_false, hstat, Option.bind_some, Option.some.injEq, Prod.mk.injEq]
        at hrest
      obtain ⟨rfl, rfl, rfl⟩ := hrest
      refine ⟨_, _, ?_, hserved₃, hview₂⟩
      rw [FileView.Step, if_neg hperm]
      by_cases hasked : attr.size = true
      · rw [if_pos hasked]
        rcases hyes hasked with ⟨hok, -⟩ | ⟨-, hresized⟩
        · exact absurd hok (by decide)
        · exact .inr ⟨v₁, hresized, rfl, rfl⟩
      · rw [if_neg hasked, (hno (by simpa using hasked)).2]
        exact ⟨rfl, rfl⟩
  | read size offset =>
    have hsize : ¬4294967295 ≤ size := by
      intro hsize
      rw [Request.refusal, if_pos hsize] at href
      exact absurd href (by simp)
    obtain ⟨g₁, hread, hserved, hview⟩ := h.read hfits.1 hg hv size offset now
    rw [Request.handle, u32_of_lt (by omega), u32_of_lt hfits.2, hread] at hrun
    obtain ⟨rfl, rfl, rfl⟩ : _ = answer ∧ fs = fs' ∧ g₁ = g' := by simpa using hrun
    refine ⟨_, _, ?_, hserved, hview⟩
    rw [FileView.Step, if_neg hsize]
    exact ⟨rfl, rfl⟩
  | write buf off =>
    simp only [Request.handle, Option.bind_eq_bind, Option.bind_eq_some_iff, Option.pure_def, Option.some.injEq,
      Prod.mk.injEq] at hrun
    obtain ⟨⟨n, fs₁, g₁⟩, hwrite, rfl, rfl, rfl⟩ := hrun
    obtain ⟨v', hstep, hserved, hview⟩ := h.write hfits.1 hg hv hfits.2 hwrite
    refine ⟨_, v', ?_, hserved, hview⟩
    exact hstep.imp (fun hfull => ⟨by rw [hfull.1], hfull.2⟩) fun hdone => ⟨by rw [hdone.1], hdone.2⟩
  | fsync datasync =>
    obtain ⟨fs₁, g₁, hsync, hserved, halike⟩ := h.sync hk hg datasync
    rw [Request.handle, hsync] at hrun
    obtain ⟨rfl, rfl, rfl⟩ : Answer.ok = answer ∧ fs₁ = fs' ∧ g₁ = g' := by simpa using hrun
    exact ⟨σ k, v, ⟨rfl, rfl⟩, hserved, halike.view h hk hv⟩
  | opendir =>
    rw [Request.handle, hgdir] at hrun
    obtain ⟨rfl, rfl, rfl⟩ : _ = answer ∧ fs = fs' ∧ g = g' := by simpa using hrun
    exact ⟨σ k, v, ⟨rfl, rfl⟩, hself, hv⟩
  | fsyncdir datasync =>
    rw [Request.handle, hgdir] at hrun
    cases hdir : v.isDir with
    | false =>
      rw [hdir] at hrun
      obtain ⟨rfl, rfl, rfl⟩ : Answer.err .enotdir = answer ∧ fs = fs' ∧ g = g' := by simpa using hrun
      exact ⟨σ k, v, ⟨by rw [hdir]; rfl, rfl⟩, hself, hv⟩
    | true =>
      obtain ⟨fs₁, g₁, hsync, hserved, halike⟩ := h.sync hk hg datasync
      rw [hdir, hsync] at hrun
      obtain ⟨rfl, rfl, rfl⟩ : Answer.ok = answer ∧ fs₁ = fs' ∧ g₁ = g' := by simpa using hrun
      exact ⟨σ k, v, ⟨by rw [hdir]; rfl, rfl⟩, hserved, halike.view h hk hv⟩

end handlers

/-! ### The map of files -/

section driver

variable {cs : Charset} {unix2DosTs : Timespec → FatTimeStamp} {t : Tree} {s s' : Driver} {σ : Nat → File} {k : Nat}
  {f' g g' : File} {store store' : Nat → FileView} {call : Call} {answer : Answer} {fs : FAT32fs}

theorem Tree.Volume.root_lt (h : t.Volume cs fs σ) (hk : k ∈ t.inos) : 1 < k := by
  have hdata := (h.owners.good_head (.inl (h.listed k hk).1)).1
  have hle := Nat.div_le_self k (2 ^ 32)
  omega

theorem Tree.reads (cs : Charset) (t : Tree) : Reads cs (t.reading cs) t.inos where
  toLawful := Tree.lawful cs t
  mounted := fun h => Tree.Volume.mounted h
  ino := fun h hk hshows => (File.MayCache.ino_eq hshows).trans (Tree.Volume.ino_eq h hk)
  ne_root := fun h hk => (Nat.zero_lt_one.trans (Tree.Volume.root_lt h hk)).ne'
  of_value := by
    intro fs σ d' h hcnt hvalue
    obtain ⟨hvolume, halike, hmade⟩ := Tree.Volume.of_value h hcnt hvalue
    obtain ⟨-, htable⟩ := (Tree.Volume.mounted h).of_data d' hcnt fun s _ => congrFun hvalue s
    exact ⟨hvolume, halike, fun k hk hhas => (hmade k hk).trans hhas, fun k _ g hg => hg.of_table htable⟩

/-- The map comes to have the object, and no client sees a difference. -/
theorem Driver.getExistFile_eq (hc : Coherent (t.reading cs) t.inos s.fs σ s.files.list) (hpos : 0 < s.files.maxSize)
    (hk : k ∈ t.inos) : ∃ g s', s.getExistFile cs k = some (g, s') ∧ (k, g) ∈ s'.files.list ∧
      Coherent (t.reading cs) t.inos s'.fs σ s'.files.list ∧ 0 < s'.files.maxSize ∧ t.Alike σ s.fs s'.fs := by
  have hvolume : t.Volume cs s.fs σ := hc.good
  obtain ⟨g, s', hget, hmem, hholds, halike⟩ := (Driver.HoldsBy.of_coherent (Tree.reads cs t) hpos hc).getFileByIno
    (Tree.reads cs t) hk List.not_mem_nil
  have hget : s.getFileByIno cs [] k = some (some g, s') := hget
  refine ⟨g, s', ?_, hmem, hholds.all, hholds.room, halike⟩
  rw [Driver.getExistFile, if_neg (hvolume.root_lt hk).ne', hget]
  rfl

private theorem Driver.release_eq (hmem : (g'.ino, g) ∈ s.files.list) : s.release g' =
    some ⟨s.fs, { s.files with list := s.files.list.map fun p => (p.1, if p.1 = g'.ino then g' else p.2) }⟩ := by
  rw [Driver.release, if_pos]
  exact List.any_eq_true.mpr ⟨_, hmem, by simp⟩

/-- A call that is served is a step of what clients see of its file, and they see the same of the others. -/
theorem Driver.serve_follows {v : FileView} (hpos : 0 < s.files.maxSize)
    (hc : Coherent (t.reading cs) t.inos s.fs σ s.files.list) (hcall : call.Valid t)
    (hview : t.View s.fs (σ call.ino) v) (hrun : s.serve cs unix2DosTs call = some (answer, s')) : ∃ σ' v',
    v.Step s.fs.bpb unix2DosTs call.ino call.now answer v' call.request ∧ 0 < s'.files.maxSize ∧
      Coherent (t.reading cs) t.inos s'.fs σ' s'.files.list ∧ t.Follows s.fs σ call.ino s'.fs σ' ∧
      t.View s'.fs (σ' call.ino) v' := by
  obtain ⟨ino, now, request⟩ := call
  obtain ⟨hk, hfits⟩ := hcall
  have hvolume : t.Volume cs s.fs σ := hc.good
  rw [Driver.serve] at hrun
  cases href : request.refusal with
  | some errno =>
    rw [href] at hrun
    obtain ⟨rfl, rfl⟩ : Answer.err errno = answer ∧ s = s' := by simpa using hrun
    refine ⟨σ, v, ?_, hpos, hc, (Tree.Alike.refl t σ s.fs).follows hvolume ino, hview⟩
    cases request <;> simp only [Request.refusal, reduceCtorEq, Option.ite_none_right_eq_some, Option.some.injEq] at href
    all_goals
      obtain ⟨hbad, rfl⟩ := href
      rw [FileView.Step, if_pos hbad]
      exact ⟨rfl, rfl⟩
  | none =>
    obtain ⟨g, s₁, hget, hmem, hc₁, hsize, halike⟩ := Driver.getExistFile_eq hc hpos hk
    rw [href] at hrun
    simp only [hget, Option.bind_eq_bind, Option.bind_some, Option.bind_eq_some_iff, Option.pure_def, Option.some.injEq,
      Prod.mk.injEq] at hrun
    obtain ⟨⟨answer', fs', g'⟩, hhandle, s₂, hrelease, rfl, rfl⟩ := hrun
    have hvolume₁ : t.Volume cs s₁.fs σ := hc₁.good
    obtain ⟨f', v', hstep, hserved, hview'⟩ :=
      hvolume₁.handle hk (hc₁.shows hmem).2 (halike.view hvolume hk hview) hfits href hhandle
    obtain rfl := hserved.ino_eq hk
    obtain rfl := Option.some.inj (hrelease.symm.trans (Driver.release_eq (s := ⟨fs', s₁.files⟩) hmem))
    refine ⟨_, v', halike.1 ▸ hstep, hsize,
      hc₁.replace hmem hserved.volume hserved.object hserved.undisturbed,
      (halike.follows hvolume _).trans hserved.follows, ?_⟩
    rwa [Function.update_self]

/-- A call that is served is a step of the store. -/
theorem Driver.Shows.serve (h : s.Shows cs t store) (hcall : call.Valid t)
    (hrun : s.serve cs unix2DosTs call = some (answer, s')) : ∃ v,
    (store call.ino).Step s.fs.bpb unix2DosTs call.ino call.now answer v call.request ∧
      s'.Shows cs t (Function.update store call.ino v) ∧ s'.fs.bpb = s.fs.bpb := by
  obtain ⟨hpos, σ, hc, hview⟩ := h
  obtain ⟨σ', v, hstep, hpos', hc', hfollows, hview'⟩ := Driver.serve_follows hpos hc hcall (hview _ hcall.1) hrun
  refine ⟨v, hstep, ⟨hpos', σ', hc', fun j hj => ?_⟩, hfollows.bpb⟩
  by_cases hjk : j = call.ino
  · rw [hjk, Function.update_self]
    exact hview'
  · rw [Function.update_of_ne hjk]
    exact hfollows.views j hj hjk _ (hview j hj)

end driver

end FuseFat32
