import FuseFat32.Fs.Belongs

/-!
# Listing a directory

`lookupFileByIndex` looks for the next group and has `getFileByIno` fetch its object, for which the map may drop another one. What a dropped object writes is metadata of its own short entry, so the scans find the same groups as before, at the same places and with the same names.
-/

namespace FuseFat32

open LinkedTable Segments WriteBack

/-- The entries of a group, as a range. -/
def groupRange (p : Nat × EntryGroup) : DirEntryRange := ⟨p.1, p.2.size⟩

/-! ### The two loops of `lookupFileByIndex` -/

section scans

variable {done : Nat → Unit → Exec (Option Nat)}
  {done' : Nat → List LongDirEntry → Exec (List LongDirEntry × LongDirEntry × Nat)} {rest : List LongDirEntry}

theorem scanList_skip (done : Nat → Unit → Exec (Option Nat)) (rest : List LongDirEntry) :
    ∀ {as : List LongDirEntry} (n : Nat), (∀ e ∈ as, isEmptyDirEntry e = true) →
    scanList skipStep done (as ++ rest) n () = scanList skipStep done rest (n + as.length) () := by
  intro as
  induction as with
  | nil => exact fun _ _ => rfl
  | cons e as ih =>
    intro n h
    have he := h e List.mem_cons_self
    rw [List.cons_append, scanList_next (show skipStep n e () = some (.inl ()) by rw [skipStep, if_pos he]),
      ih _ fun e he => h e (List.mem_cons_of_mem _ he), List.length_cons, Nat.add_right_comm, Nat.add_assoc]

private theorem scanList_record {short : LongDirEntry} (hlive : isEmptyDirEntry short = false)
    (hshort : isLongDirEntry short = false) : ∀ {longs acc : List LongDirEntry} {n : Nat},
    (∀ e ∈ longs, isEmptyDirEntry e = false ∧ isLongDirEntry e = true) →
    scanList recordStep done' (longs ++ short :: rest) n acc =
      some (longs.reverse ++ acc, short, n + longs.length + 1) := by
  intro longs acc n h
  rw [scanList_record_longs h]
  exact scanList_stop (by simp [recordStep, hlive, hshort])

variable {fs : FAT32fs} {dir : File} {l : List Nat}

/-- The two loops of `lookupFileByIndex` at the next group behind empty entries. -/
theorem File.Placed.scans_group (hm : fs.Mounted) (hf : dir.Placed fs l) (hdir : dir.isDir = true) {n : Nat}
    {as rest : List LongDirEntry} {g : EntryGroup} (hn : n < fs.bpb.dirSlots l)
    (hdrop : (fs.dirEntries l).drop n = as ++ (g.entries ++ rest)) (has : ∀ e ∈ as, isEmptyDirEntry e = true)
    (now : FatTimeStamp) : ∃ dir₁ dir', dir.Same dir' ∧ dir'.Placed fs l ∧
      File.scanEntries fs now skipStep (fun _ _ => some none) slotFuel dir n () = some (some (n + as.length), dir₁) ∧
      File.scanEntries fs now recordStep (fun _ _ => none) slotFuel dir₁ (n + as.length) [] =
        some ((g.longs.reverse, g.short, n + as.length + g.size), dir') := by
  obtain ⟨dir₁, hsame, hg₁, hskip⟩ := hf.scan_from skipStep (fun _ _ => some none) hm hdir now
    (hm.sound.entry_lt hn.le) ()
  have hstart : n + as.length ≤ fs.bpb.dirSlots l := by
    have hlen := congrArg List.length hdrop
    rw [List.length_drop, FAT32fs.length_dirEntries, List.length_append] at hlen
    omega
  have hgdir : dir₁.isDir = true := by
    rw [hsame]
    exact hdir
  obtain ⟨dir', hsame₂, hg₂, hrecord⟩ := hg₁.scan_from recordStep (fun _ _ => none) hm hgdir now
    (hm.sound.entry_lt hstart) []
  obtain ⟨e, es, hcons⟩ := List.exists_cons_of_ne_nil (EntryGroup.solid g).1
  have hlive : isEmptyDirEntry e = false := g.isEmpty_of_mem (hcons ▸ List.mem_cons_self)
  refine ⟨dir₁, dir', hsame.trans hsame₂, hg₂, ?_, ?_⟩
  · rw [hskip, hdrop, scanList_skip _ _ n has, hcons, List.cons_append, scanList_stop (r := some (n + as.length))
      (by rw [skipStep, if_neg (by simp [hlive])])]
    rfl
  · rw [hrecord, ← List.drop_drop, hdrop, List.drop_left, EntryGroup.entries, List.append_assoc, List.singleton_append,
      scanList_record g.live g.isShort fun e he => ⟨g.liveLongs _ he, g.isLong_of_mem he⟩, List.append_nil]
    rfl

end scans

/-! ### What is left of a directory -/

/-- The groups `ps` are those from entry `n` on, which is not inside a group. -/
def GroupsFrom (es tail : List LongDirEntry) (n : Nat) (ps : List (Nat × EntryGroup)) : Prop :=
  n ≤ es.length ∧ ∃ segs, es.drop n = flat EntryGroup.entries segs ++ tail ∧
    (∀ e, .blank e ∈ segs → e.ord = 0xE5) ∧ blocks EntryGroup.entries n segs = ps

section left

variable {es es' tail : List LongDirEntry} {segs : List (Segment LongDirEntry EntryGroup)} {n : Nat}
  {p : Nat × EntryGroup} {ps : List (Nat × EntryGroup)}

theorem GroupLayout.groupsFrom (h : GroupLayout es segs tail) :
    GroupsFrom es tail 0 (blocks EntryGroup.entries 0 segs) :=
  ⟨Nat.zero_le _, segs, by rw [List.drop_zero, h.flat], h.deleted, rfl⟩

theorem GroupsFrom.length_le (h : GroupsFrom es tail n ps) : ps.length ≤ es.length - n := by
  obtain ⟨-, segs, hdrop, -, rfl⟩ := h
  have hlen := congrArg List.length hdrop
  rw [List.length_drop, List.length_append] at hlen
  have hblocks : (blocks EntryGroup.entries n segs).length ≤ (flat EntryGroup.entries segs).length :=
    length_blocks_le fun g => (EntryGroup.solid g).1
  omega

private theorem GroupsFrom.nil_kept (h : GroupsFrom es tail n []) (htail : ∀ e ∈ tail, isEmptyDirEntry e = true)
    (hkept : List.Forall₂ LongDirEntry.Kept es es') : ∀ e ∈ es'.drop n, isEmptyDirEntry e = true := by
  obtain ⟨-, segs, hdrop, hdeleted, hnil⟩ := h
  have hempty : ∀ e ∈ es.drop n, isEmptyDirEntry e = true := by
    rcases blanks_or_first_block segs with ⟨as, rfl⟩ | ⟨as, g, zs, rfl⟩
    · rw [hdrop, flat_blanks]
      exact fun e he => (List.mem_append.mp he).elim
        (fun h => (isEmpty_of_deleted (hdeleted e (List.mem_map_of_mem h))).1) (htail e)
    · rw [blocks_append, blocks_blanks, List.nil_append, blocks] at hnil
      exact absurd hnil (List.cons_ne_nil _ _)
  have hrest := List.forall₂_iff_get.mp (List.forall₂_drop n hkept)
  intro e he
  obtain ⟨i, hi, rfl⟩ := List.mem_iff_getElem.mp he
  have hkind := hrest.2 i (by omega) hi
  exact hkind.kind.2.1.trans (hempty _ (List.getElem_mem _))

private theorem GroupsFrom.cons_kept (h : GroupsFrom es tail n (p :: ps)) (hkept : List.Forall₂ LongDirEntry.Kept es es') :
    ∃ (as : List LongDirEntry) (g : EntryGroup) (rest : List LongDirEntry), es'.drop n = as ++ (g.entries ++ rest) ∧
      (∀ e ∈ as, isEmptyDirEntry e = true) ∧ n + as.length = p.1 ∧ g.size = p.2.size ∧
      GroupsFrom es tail (p.1 + p.2.size) ps := by
  obtain ⟨hn, segs, hdrop, hdeleted, hcons⟩ := h
  rcases blanks_or_first_block segs with ⟨as, rfl⟩ | ⟨as, g, zs, rfl⟩
  · rw [blocks_blanks] at hcons
    exact absurd hcons.symm (List.cons_ne_nil _ _)
  rw [blocks_append, blocks_blanks, flat_blanks, List.nil_append, blocks, g.length_entries] at hcons
  obtain ⟨rfl, hrest⟩ := List.cons.inj hcons
  have hdrop' := hdrop
  rw [flat_append, flat_blanks, flat_cons, elems_block, List.append_assoc, List.append_assoc] at hdrop
  have hlen := congrArg List.length hdrop
  simp only [List.length_drop, List.length_append, EntryGroup.length_entries] at hlen
  have hkept' := List.forall₂_drop n hkept
  rw [hdrop'] at hkept'
  obtain ⟨segs', tail', hflat, hdeleted', -, hblocks⟩ := flat_kept hkept' hdeleted
  have hkeys := hblocks n
  rw [blocks_append, blocks_blanks, flat_blanks, List.nil_append, blocks, List.map_cons] at hkeys
  rcases blanks_or_first_block segs' with ⟨as', rfl⟩ | ⟨as', g', zs', rfl⟩
  · rw [blocks_blanks] at hkeys
    exact absurd hkeys.symm (List.cons_ne_nil _ _)
  rw [blocks_append, blocks_blanks, flat_blanks, List.nil_append, blocks, List.map_cons] at hkeys
  obtain ⟨hkey, -⟩ := List.cons.inj hkeys
  have hplace : n + as'.length = n + as.length := congrArg Prod.fst hkey
  have hlongs : g'.longs = g.longs := congrArg (fun key => key.2.1) hkey
  rw [flat_append, flat_blanks, flat_cons, elems_block, List.append_assoc, List.append_assoc] at hflat
  refine ⟨as', g', _, hflat, fun e he => ?_, hplace, by rw [EntryGroup.size, EntryGroup.size, hlongs],
    by dsimp only; omega, zs, ?_, fun e he => hdeleted e (List.mem_append_right _ (List.mem_cons_of_mem _ he)), hrest⟩
  · exact (isEmpty_of_deleted (hdeleted' e (List.mem_append_left _ (List.mem_map_of_mem he)))).1
  · rw [Nat.add_assoc, ← List.drop_drop, hdrop, ← List.drop_drop, List.drop_left, ← g.length_entries, List.drop_left]

end left

/-! ### A directory that a handler reads -/

/-- The handler holds the directory `dir` and looks for its groups. Since it began on the volume `fs`, nothing but metadata has been written back. -/
structure Driver.Scans (cs : Charset) (fs : FAT32fs) (sh : Shelf) (σ : Nat → File) (held : List File) (others : List Nat)
    (l : List Nat) (s : Driver) (dir : File) : Prop where
  holds : s.HoldsBy (sh.reading cs) sh.keys σ held others
  retouched : fs.Retouched s.fs
  isDir : dir.isDir = true
  placed : dir.Placed s.fs l
  inos : heldInos held others = [dir.ino]

section step

variable {cs : Charset} {fs : FAT32fs} {sh : Shelf} {σ : Nat → File} {held : List File} {others : List Nat}
  {s : Driver} {dir f g : File} {l : List Nat} {now : FatTimeStamp} {n k : Nat} {tail : List LongDirEntry}
  {p : Nat × EntryGroup} {ps : List (Nat × EntryGroup)}

theorem File.Same.ino {f g : File} (h : f.Same g) : g.ino = f.ino := by rw [h, File.ino, File.ino]

theorem File.Same.fstClus {f g : File} (h : f.Same g) : g.fstClus = f.fstClus := by rw [h]

theorem File.Same.isDir {f g : File} (h : f.Same g) : g.isDir = f.isDir := by rw [h]

theorem Driver.Scans.mounted (h : s.Scans cs fs sh σ held others l dir) : s.fs.Mounted :=
  Shelf.Keeps.mounted h.holds.coherent.good

theorem Driver.Scans.entries (h : s.Scans cs fs sh σ held others l dir) :
    List.Forall₂ LongDirEntry.Kept (fs.dirEntries l) (s.fs.dirEntries l) :=
  h.retouched.dirEntries l

theorem Driver.Scans.same (h : s.Scans cs fs sh σ held others l dir) (hsame : dir.Same f) (hf : f.Placed s.fs l) :
    s.Scans cs fs sh σ held others l f :=
  ⟨h.holds, h.retouched, hsame.isDir.trans h.isDir, hf, hsame.ino.symm ▸ h.inos⟩

/-- At the end of the directory there is no next file. -/
theorem Driver.Scans.lookup_nil (h : s.Scans cs fs sh σ held others l dir) (now : FatTimeStamp)
    (htail : ∀ e ∈ tail, isEmptyDirEntry e = true) (hat : GroupsFrom (fs.dirEntries l) tail n []) :
    ∃ dir', s.lookupFileByIndex cs dir n now = some (none, dir', s) ∧ dir.Same dir' ∧
      s.Scans cs fs sh σ held others l dir' := by
  have hn : n ≤ s.fs.bpb.dirSlots l := by
    have hle := hat.1
    rwa [FAT32fs.length_dirEntries, ← h.retouched.bpb] at hle
  obtain ⟨dir', hsame, hplaced, hrun⟩ := h.placed.scan_from skipStep (fun _ _ => some none) h.mounted h.isDir now
    (h.mounted.sound.entry_lt hn) ()
  have hskip := scanList_skip (fun _ _ => some none) [] n (hat.nil_kept htail h.entries)
  rw [List.append_nil] at hskip
  refine ⟨dir', ?_, hsame, h.same hsame hplaced⟩
  rw [Driver.lookupFileByIndex, hrun, hskip]
  rfl

/-- Otherwise the next file is that of the next group. -/
theorem Driver.Scans.lookup_cons (h : s.Scans cs fs sh σ held others l dir) (now : FatTimeStamp)
    (hat : GroupsFrom (fs.dirEntries l) tail n (p :: ps)) (hk : groupIno dir.fstClus p ∈ sh.keys)
    (hne : groupIno dir.fstClus p ≠ dir.ino) :
    ∃ file dir' s', s.lookupFileByIndex cs dir n now = some (some (groupRange p, file), dir', s') ∧ dir.Same dir' ∧
      (groupIno dir.fstClus p, file) ∈ s'.files.list ∧ s'.Scans cs fs sh σ held others l dir' ∧
      GroupsFrom (fs.dirEntries l) tail (p.1 + p.2.size) ps := by
  obtain ⟨as, g, rest, hdrop, has, hplace, hsize, hnext⟩ := hat.cons_kept h.entries
  have hpos : 0 < g.size := Nat.succ_pos _
  have hn : n < s.fs.bpb.dirSlots l := by
    have hlen := congrArg List.length hdrop
    rw [List.length_drop, FAT32fs.length_dirEntries, List.length_append, List.length_append, g.length_entries] at hlen
    omega
  obtain ⟨dir₁, dir', hsame, hplaced, hskip, hrecord⟩ := h.placed.scans_group h.mounted h.isDir hn hdrop has now
  rw [hplace] at hskip hrecord
  obtain ⟨file, s', hget, hmem, hholds, hretouched⟩ := h.holds.getFileByIno (sh.reads cs) hk
    (by rw [h.inos]; simpa using hne)
  have hretouched : s.fs.Retouched s'.fs := hretouched
  refine ⟨file, dir', s', ?_, hsame, hmem, ⟨hholds, h.retouched.trans hretouched, hsame.isDir.trans h.isDir,
    hretouched.placed h.mounted hplaced, hsame.ino.symm ▸ h.inos⟩, hnext⟩
  rw [h.inos, groupIno] at hget
  rw [Driver.lookupFileByIndex, hskip]
  simp only [Option.bind_eq_bind, Option.bind_some, hrecord, hsize, Nat.add_sub_cancel_left, hsame.ino, hsame.fstClus, hget]
  rfl

theorem Driver.Scans.release (h : s.Scans cs fs sh σ held others l dir) (hmem : (k, f) ∈ s.files.list)
    (hne : k ≠ dir.ino) (hg : (σ k).MayCache s.fs g) :
    ∃ s', s.release g = some s' ∧ s'.Scans cs fs sh σ held others l dir := by
  have hnot : k ∉ heldInos held others := by
    rw [h.inos]
    simpa using hne
  have hino : f.ino = k := (h.holds.keyed _ hmem).1
  subst hino
  have hheld := h.holds.hold hmem hnot
  have hg' : g.ino = f.ino := hg.ino_eq.trans (Shelf.Keeps.sits hheld.coherent.good _ hheld.shows.1).ino_eq
  obtain ⟨s', hrun, hholds, hretouched⟩ := (hheld.recached (sh.reads cs) hg).release (sh.reads cs)
    (hg'.symm ▸ hnot)
  have hretouched : s.fs.Retouched s'.fs := hretouched
  exact ⟨s', hrun, hholds, h.retouched.trans hretouched, h.isDir, hretouched.placed h.mounted h.placed, h.inos⟩

theorem Driver.Scans.mayCache (h : s.Scans cs fs sh σ held others l dir) (hmem : (k, f) ∈ s.files.list)
    (hne : k ≠ dir.ino) : k ∈ sh.keys ∧ (σ k).MayCache s.fs f := by
  refine h.holds.coherent.shows (List.mem_append_right _ (List.mem_filter.mpr ⟨hmem, ?_⟩))
  rw [h.inos]
  simpa using hne

end step

/-! ### The whole directory -/

section run

variable {cs : Charset} {fs : FAT32fs} {sh : Shelf} {σ : Nat → File} {held : List File} {others : List Nat}
  {l : List Nat} {now : FatTimeStamp} {tail : List LongDirEntry}

/-- From the start of a group or between two groups on, the listing shows the groups that are left. -/
theorem Driver.Scans.listFiles (htail : ∀ e ∈ tail, isEmptyDirEntry e = true) (now : FatTimeStamp) :
    ∀ {fuel : Nat} {ps : List (Nat × EntryGroup)} {n : Nat} {s : Driver} {dir : File},
    s.Scans cs fs sh σ held others l dir → GroupsFrom (fs.dirEntries l) tail n ps →
    (∀ p ∈ ps, groupIno dir.fstClus p ∈ sh.keys ∧ groupIno dir.fstClus p ≠ dir.ino) → ps.length < fuel →
    ∃ files dir' s', s.listFiles cs now fuel dir n = some (files, dir', s') ∧ dir.Same dir' ∧
      s'.Scans cs fs sh σ held others l dir' ∧
      files.map (fun r => (r.1, r.2.name)) = ps.map fun p => (groupRange p, (σ (groupIno dir.fstClus p)).name) := by
  intro fuel
  induction fuel with
  | zero => exact fun _ _ _ hfuel => absurd hfuel (Nat.not_lt_zero _)
  | succ fuel ih =>
    intro ps n s dir h hat hps hfuel
    cases ps with
    | nil =>
      obtain ⟨dir', hrun, hsame, h'⟩ := h.lookup_nil now htail hat
      refine ⟨[], dir', s, ?_, hsame, h', rfl⟩
      rw [Driver.listFiles, hrun]
      rfl
    | cons p ps =>
      obtain ⟨hk, hne⟩ := hps p List.mem_cons_self
      obtain ⟨file, dir₁, s₁, hrun, hsame₁, hmem, h₁, hnext⟩ := h.lookup_cons now hat hk hne
      obtain ⟨-, hcache⟩ := h₁.mayCache hmem (hsame₁.ino.symm ▸ hne)
      obtain ⟨s₂, hrelease, h₂⟩ := h₁.release hmem (hsame₁.ino.symm ▸ hne) hcache
      obtain ⟨files, dir', s', hrest, hsame, h', hfiles⟩ := ih h₂ hnext
        (fun q hq => by
          rw [hsame₁.fstClus, hsame₁.ino]
          exact hps q (List.mem_cons_of_mem _ hq))
        (Nat.lt_of_succ_lt_succ hfuel)
      refine ⟨(groupRange p, file) :: files, dir', s', ?_, hsame₁.trans hsame, h', ?_⟩
      · rw [Driver.listFiles, hrun]
        simp only [Option.bind_eq_bind, Option.bind_some, hrelease]
        rw [show (groupRange p).start + (groupRange p).count = p.1 + p.2.size from rfl, hrest]
        rfl
      · obtain ⟨c, rfl⟩ := hcache.1
        rw [List.map_cons, List.map_cons, hfiles, hsame₁.fstClus]

end run

/-! ### Every map -/

/-- The walks of `fromIno` and `sync` keep to the groups, and the first clusters in the groups start chains. -/
structure FAT32fs.Walkable (fs : FAT32fs) (l : List Nat) (segs : List (Segment LongDirEntry EntryGroup)) : Prop where
  order : ∀ p ∈ blocks EntryGroup.entries 0 segs, fs.bpb.SlotsInOrder l p.1 p.2.longs.length
  chains : ∀ p ∈ blocks EntryGroup.entries 0 segs,
    ∃ lf, fs.bpb.ChainOf fs.table (readEntryClusNo (castLongDirEntryToShort p.2.short)) lf

section belongs

variable {cs : Charset} {heads : Set Nat} {s : Driver} {dir : File} {l : List Nat} {tail : List LongDirEntry}
  {segs : List (Segment LongDirEntry EntryGroup)}

theorem Driver.Belongs.holds_groups (h : s.Belongs cs heads) (hm : s.fs.Sane heads) (hf : dir.Placed s.fs l)
    (hhead : dir.fstClus ∈ heads) (hlay : GroupLayout (s.fs.dirEntries l) segs tail) (hwalk : s.fs.Walkable l segs)
    (hnames : ∀ p ∈ blocks EntryGroup.entries 0 segs, (p.2.name cs).isSome = true) (others : List Nat) (extra : Set Nat)
    (hothers : ∀ p ∈ blocks EntryGroup.entries 0 segs, groupIno dir.fstClus p ∉ others)
    (hextra : ∀ k ∈ extra, k ∉ others ∧ ∃ f, File.fromIno cs s.fs k = some (some f) ∧ f.Belongs cs s.fs heads k) :
    ∃ (sh : Shelf) (σ : Nat → File), s.HoldsBy (sh.reading cs) sh.keys σ [] others ∧
      (∀ k ∈ sh.keys, ∃ f, s.Object cs k f ∧ σ k = { f with clusChain_ := none }) ∧
      (∀ k, k ∈ extra ∨ (k ∉ others ∧ ∃ g, (k, g) ∈ s.files.list) → k ∈ sh.keys) ∧
      ∀ p ∈ blocks EntryGroup.entries 0 segs, groupIno dir.fstClus p ∈ sh.keys ∧
        p.2.name cs = some (σ (groupIno dir.fstClus p)).name := by
  have hmade : ∀ p ∈ blocks EntryGroup.entries 0 segs, ∃ name, p.2.name cs = some name ∧
      File.fromIno cs s.fs (groupIno dir.fstClus p) =
        some (some (.ofEntry dir.fstClus p.1 name (castLongDirEntryToShort p.2.short))) ∧
      File.Belongs cs s.fs heads (groupIno dir.fstClus p)
        (.ofEntry dir.fstClus p.1 name (castLongDirEntryToShort p.2.short)) := by
    intro p hp
    obtain ⟨name, hname⟩ := Option.isSome_iff_exists.mp (hnames p hp)
    exact ⟨name, hname, hlay.belongs hm.toMounted hf hhead hp (hwalk.order p hp) hname (hwalk.chains p hp)⟩
  obtain ⟨sh, σ, hkeys, hholds, hobjects⟩ := h.holds hm
    ({k | ∃ p ∈ blocks EntryGroup.entries 0 segs, k = groupIno dir.fstClus p} ∪ extra) others
    (by
      rintro k (⟨p, hp, rfl⟩ | hk)
      · obtain ⟨name, -, hfrom, hbelongs⟩ := hmade p hp
        exact ⟨_, hfrom, hbelongs⟩
      · exact (hextra k hk).2)
    (by
      rintro k (⟨p, hp, rfl⟩ | hk)
      · exact hothers p hp
      · exact (hextra k hk).1)
  refine ⟨sh, σ, hholds, hobjects, fun k hk => hkeys ▸ hk.imp .inr id, fun p hp => ?_⟩
  have hk : groupIno dir.fstClus p ∈ sh.keys := hkeys ▸ .inl (.inl ⟨p, hp, rfl⟩)
  refine ⟨hk, ?_⟩
  obtain ⟨name, hname, hfrom, -⟩ := hmade p hp
  obtain ⟨f, hf', hsame, -⟩ := Shelf.Keeps.made hholds.coherent.good _ hk
  rw [hfrom] at hf'
  rw [hname, ← hsame, ← Option.some.inj (Option.some.inj hf')]
  rfl

/-- The listing of the whole directory. -/
theorem Driver.Belongs.listFiles (h : s.Belongs cs heads) (hm : s.fs.Sane heads) (hf : dir.Placed s.fs l)
    (hdir : dir.isDir = true) (hhead : dir.fstClus ∈ heads) (hlay : GroupLayout (s.fs.dirEntries l) segs tail)
    (htail : ∀ e ∈ tail, isEmptyDirEntry e = true) (hwalk : s.fs.Walkable l segs)
    (hnames : ∀ p ∈ blocks EntryGroup.entries 0 segs, (p.2.name cs).isSome = true)
    (hself : ∀ p ∈ blocks EntryGroup.entries 0 segs, groupIno dir.fstClus p ≠ dir.ino) (now : FatTimeStamp) :
    ∃ files dir' s', s.listFiles cs now slotFuel dir 0 = some (files, dir', s') ∧
      files.map (fun r => (r.1, some r.2.name)) =
        (blocks EntryGroup.entries 0 segs).map fun p => (groupRange p, p.2.name cs) := by
  obtain ⟨sh, σ, hholds, -, -, hgroups⟩ := h.holds_groups hm hf hhead hlay hwalk hnames [dir.ino] ∅
    (fun p hp hmem => hself p hp (List.mem_singleton.mp hmem)) fun k hk => hk.elim
  have hscans : s.Scans cs s.fs sh σ [] [dir.ino] l dir := ⟨hholds, .refl _, hdir, hf, rfl⟩
  have hfuel : (blocks EntryGroup.entries 0 segs).length < slotFuel := by
    have hle := hlay.groupsFrom.length_le
    rw [FAT32fs.length_dirEntries] at hle
    exact Nat.lt_of_le_of_lt hle (hm.sound.dirSlots_lt_fuel l 0)
  obtain ⟨files, dir', s', hrun, -, -, hfiles⟩ := Driver.Scans.listFiles htail now hscans hlay.groupsFrom
    (fun p hp => ⟨(hgroups p hp).1, hself p hp⟩) hfuel
  refine ⟨files, dir', s', hrun, ?_⟩
  have hsome := congrArg (List.map fun r : DirEntryRange × List UInt8 => (r.1, some r.2)) hfiles
  rw [List.map_map, List.map_map] at hsome
  refine hsome.trans (List.map_congr_left fun p hp => ?_)
  rw [Function.comp_apply, (hgroups p hp).2]

end belongs

end FuseFat32
