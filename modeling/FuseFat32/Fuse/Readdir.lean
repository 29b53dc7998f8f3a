import FuseFat32.Fs.Listing
import FuseFat32.Fuse.Sizes
import FuseFat32.Fuse.Unlink
import FuseFat32.Library.Paging

/-!
# Listing a directory

`fat32_do_readdir` asks for the next file again and again until the buffer is full or the directory is over. The cookie of an entry is the number of the entry behind its group, so a file that has not found room is looked for again at the next call. The objects come from the map of files or from `fromIno`. Between two calls the map may drop any of them, the directory too, and what it writes back leaves the groups where they are.
-/

namespace FuseFat32

open LinkedTable Segments WriteBack

/-! ### `fat32_do_readdir` -/

/-- What a reply holds of one file. -/
structure DirEnt where
  name : List UInt8
  ino : Nat
  attr : FileStat
  off : Nat

/-- The loop of `fat32_do_readdir`. `entsize` is what `fuse_add_direntry` returns for a name, which it writes when there is room. -/
def Driver.readdirLoop (cs : Charset) (entsize : List UInt8 → Nat) (plus : Bool) (now : FatTimeStamp) :
    Nat → Driver → File → (rem offset : Nat) → List DirEnt → Exec (List DirEnt × Nat × File × Driver)
  | 0, _, _, _, _, _ => none
  | fuel + 1, s, dir, rem, offset, buf => do
    let (ret, dir, s) ← s.lookupFileByIndex cs dir offset now
    match ret with
    | none => return (buf, rem, dir, s)
    | some (range, sub_file) =>
      let offset := range.start + range.count
      let (state, sub_file) ← readFileStat s.fs sub_file
      let ent : DirEnt := ⟨sub_file.name, if plus then sub_file.ino else state.stIno, state, offset⟩
      -- `sub_file` goes out of scope on both ways out of the body
      let s ← s.release sub_file
      if entsize sub_file.name > rem then
        return (buf, rem, dir, s)
      Driver.readdirLoop cs entsize plus now fuel s dir (rem - entsize sub_file.name) offset (buf ++ [ent])

inductive ReaddirReply where
  | err (errno : Errno)
  | buf (ents : List DirEnt) (bytes : Nat)

/-- `fat32_do_readdir`. `entsize` also depends on which of the two functions of the library is called. -/
def Driver.fat32DoReaddir (cs : Charset) (entsize : Bool → List UInt8 → Nat) (s : Driver) (ino size offset : Nat)
    (plus : Bool) (now : FatTimeStamp) : Exec (ReaddirReply × Driver) := do
  let (file, s) ← s.getExistFile cs ino
  if !file.isDir then
    let s ← s.release file
    return (.err .enotdir, s)
  let (ents, rem, file, s) ← Driver.readdirLoop cs (entsize plus) plus now slotFuel s file (u32 size) offset []
  let s ← s.release file
  return (.buf ents (size - rem), s)

/-- One request, with the time it comes at. -/
structure ReaddirCall where
  size : Nat
  plus : Bool
  now : FatTimeStamp

/-- The replies to a reader that goes on behind the last entry it has got, and stops at an empty reply. -/
def Driver.readdirs (cs : Charset) (entsize : Bool → List UInt8 → Nat) (ino : Nat) :
    List ReaddirCall → Driver → Nat → Exec (List (List DirEnt × Nat) × Driver)
  | [], s, _ => some ([], s)
  | call :: calls, s, offset => do
    let (reply, s) ← s.fat32DoReaddir cs entsize ino call.size offset call.plus call.now
    match reply with
    | .err _ => none
    | .buf ents bytes =>
      match ents.getLast? with
      | none => return ([(ents, bytes)], s)
      | some ent =>
        let (rest, s) ← Driver.readdirs cs entsize ino calls s ent.off
        return ((ents, bytes) :: rest, s)

/-! ### The replies -/

/-- What an entry of a reply says of its file, and its cookie. -/
def DirEnt.shown (e : DirEnt) : List UInt8 × Nat × Nat := (e.name, e.ino, e.off)

/-- What a reply is to say of a group. -/
def shownGroup (cs : Charset) (fst_clus : Nat) (p : Nat × EntryGroup) : List UInt8 × Nat × Nat :=
  ((p.2.name cs).getD [], groupIno fst_clus p, p.1 + p.2.size)

/-- The room that `fuse_add_direntry` needs for a group. -/
def groupNeed (cs : Charset) (entsize : List UInt8 → Nat) (p : Nat × EntryGroup) : Nat :=
  entsize ((p.2.name cs).getD [])

/-- Where the reader goes on. -/
def nextOffset (n : Nat) (ents : List DirEnt) : Nat := (ents.getLast?.map DirEnt.off).getD n

private theorem nextOffset_cons (n : Nat) (e : DirEnt) (ents : List DirEnt) :
    nextOffset n (e :: ents) = nextOffset e.off ents := by
  rw [nextOffset, nextOffset, List.getLast?_cons]
  cases ents.getLast? <;> rfl

/-- The handler has the object of the group, and can show it to a client. -/
structure Shelf.HasGroup (cs : Charset) (sh : Shelf) (σ : Nat → File) (fst_clus ino : Nat) (p : Nat × EntryGroup) : Prop where
  key : groupIno fst_clus p ∈ sh.keys
  other : groupIno fst_clus p ≠ ino
  name : p.2.name cs = some (σ (groupIno fst_clus p)).name
  tenths : (σ (groupIno fst_clus p)).crtTime.tt.toNat ≤ 199

section loop

variable {cs : Charset} {fs : FAT32fs} {sh : Shelf} {σ : Nat → File} {held : List File} {others : List Nat} {f g : File}
  {l : List Nat} {tail : List LongDirEntry}

theorem File.MayCache.readFileStat (hm : fs.Mounted) (h : f.MayCache fs g) (htt : f.crtTime.tt.toNat ≤ 199) :
    ∃ stat g', FuseFat32.readFileStat fs g = some (stat, g') ∧ stat.stIno = f.ino ∧ f.MayCache fs g' := by
  obtain ⟨⟨c, rfl⟩, lf, hf⟩ := h
  obtain ⟨sz, c', hsz, hplaced⟩ : ∃ sz c', File.fileSz fs { f with clusChain_ := c } = some (sz, { f with clusChain_ := c' }) ∧
      File.Placed fs { f with clusChain_ := c' } lf := by
    rw [File.fileSz]
    split
    · rw [hf.readClusChain hm]
      exact ⟨_, _, rfl, hf.cached⟩
    · exact ⟨_, _, rfl, hf⟩
  refine ⟨⟨f.ino, f.isDir, sz, ⟨0, f.accDate⟩, f.wrtTime, f.crtTime⟩, _, ?_, rfl, ⟨c', rfl⟩, lf, hplaced⟩
  rw [FuseFat32.readFileStat, hsz]
  simp only [Option.bind_eq_bind, Option.bind_some, decide_eq_true htt, assert_true, Option.pure_def]
  rfl

/-- The loop fills the buffer with the groups from `n` on. -/
theorem Driver.Scans.readdirLoop (htail : ∀ e ∈ tail, isEmptyDirEntry e = true) (entsize : List UInt8 → Nat)
    (plus : Bool) (now : FatTimeStamp) : ∀ {ps : List (Nat × EntryGroup)} {n fuel : Nat} (rem : Nat) {s : Driver}
    {dir : File} (buf : List DirEnt), ps.length < fuel → s.Scans cs fs sh σ held others l dir →
    GroupsFrom (fs.dirEntries l) tail n ps → (∀ p ∈ ps, sh.HasGroup cs σ dir.fstClus dir.ino p) →
    ∃ ents rem' dir' s',
      Driver.readdirLoop cs entsize plus now fuel s dir rem n buf = some (buf ++ ents, rem', dir', s') ∧
      s'.Scans cs fs sh σ held others l dir' ∧ dir.Same dir' ∧
      ents.map DirEnt.shown = (Paging.fill (groupNeed cs entsize) rem ps).1.map (shownGroup cs dir.fstClus) ∧
      rem' + (ents.map fun e => entsize e.name).sum = rem ∧
      GroupsFrom (fs.dirEntries l) tail (nextOffset n ents) (Paging.fill (groupNeed cs entsize) rem ps).2 := by
  intro ps
  induction ps with
  | nil =>
    intro n fuel rem s dir buf hfuel h hat _
    obtain ⟨fuel, rfl⟩ : ∃ k, fuel = k + 1 := ⟨fuel - 1, by omega⟩
    obtain ⟨dir', hrun, hsame, h'⟩ := h.lookup_nil now htail hat
    refine ⟨[], rem, dir', s, ?_, h', hsame, rfl, rfl, hat⟩
    rw [Driver.readdirLoop, hrun, List.append_nil]
    rfl
  | cons p ps ih =>
    intro n fuel rem s dir buf hfuel h hat hps
    obtain ⟨fuel, rfl⟩ : ∃ k, fuel = k + 1 := ⟨fuel - 1, by omega⟩
    obtain ⟨hk, hne, hname, htt⟩ := hps p List.mem_cons_self
    obtain ⟨file, dir₁, s₁, hrun, hsame₁, hmem, h₁, hnext⟩ := h.lookup_cons now hat hk hne
    have hne₁ : groupIno dir.fstClus p ≠ dir₁.ino := hsame₁.ino.symm ▸ hne
    obtain ⟨-, hcache⟩ := h₁.mayCache hmem hne₁
    obtain ⟨stat, file', hread, hstino, hcache'⟩ := hcache.readFileStat h₁.mounted htt
    obtain ⟨s₂, hrelease, h₂⟩ := h₁.release hmem hne₁ hcache'
    have hfile : file'.name = (σ (groupIno dir.fstClus p)).name ∧ file'.ino = groupIno dir.fstClus p := by
      have hino := (Shelf.Keeps.sits h₁.holds.coherent.good _ hk).ino_eq
      refine ⟨?_, hcache'.ino_eq.trans hino⟩
      obtain ⟨⟨c, rfl⟩, -⟩ := hcache'
      rfl
    have hstino' : stat.stIno = groupIno dir.fstClus p :=
      hstino.trans (Shelf.Keeps.sits h₁.holds.coherent.good _ hk).ino_eq
    have hneed : groupNeed cs entsize p = entsize file'.name := by
      rw [groupNeed, hname, Option.getD_some, hfile.1]
    rw [Driver.readdirLoop, hrun]
    simp only [Option.bind_eq_bind, Option.bind_some, hread, hrelease]
    rcases Nat.lt_or_ge rem (groupNeed cs entsize p) with hfull | hroom
    · -- the file does not fit, and the cookie of the entry before it stays the last one
      rw [Paging.fill_cons_full hfull, if_pos (hneed ▸ hfull)]
      exact ⟨[], rem, dir₁, s₂, by rw [List.append_nil]; rfl, h₂, hsame₁, rfl, rfl, hat⟩
    · rw [Paging.fill_cons hroom, if_neg (by omega)]
      obtain ⟨ents, rem', dir', s', hloop, h', hsame, hshown, hsum, hrest⟩ :=
        ih (rem - entsize file'.name)
          (buf ++ [⟨file'.name, if plus then file'.ino else stat.stIno, stat, p.1 + p.2.size⟩])
          (Nat.lt_of_succ_lt_succ hfuel) h₂ hnext
          (fun q hq => by
            rw [hsame₁.fstClus, hsame₁.ino]
            exact hps q (List.mem_cons_of_mem p hq))
      refine ⟨⟨file'.name, if plus then file'.ino else stat.stIno, stat, p.1 + p.2.size⟩ :: ents, rem', dir', s', ?_,
        h', hsame₁.trans hsame, ?_, ?_, ?_⟩
      · rw [show (groupRange p).start + (groupRange p).count = p.1 + p.2.size from rfl, hloop, List.append_assoc,
          List.singleton_append]
      · have hent : (if plus then file'.ino else stat.stIno) = groupIno dir.fstClus p := by
          rw [hstino', hfile.2, ite_self]
        rw [List.map_cons, List.map_cons, hneed, hshown, DirEnt.shown, shownGroup, hname, hent, hfile.1, hsame₁.fstClus]
        rfl
      · have hsize : entsize file'.name ≤ rem := hneed ▸ hroom
        rw [List.map_cons, List.sum_cons]
        change rem' + (entsize file'.name + _) = rem
        omega
      · rw [nextOffset_cons, hneed]
        exact hrest

end loop

/-! ### One request -/

/-- Between two requests for the directory `ino`, whose chain on the volume `fs` is `l`. -/
structure Driver.Browsed (cs : Charset) (fs : FAT32fs) (sh : Shelf) (ino c : Nat) (l : List Nat) (σ : Nat → File)
    (s : Driver) : Prop where
  holds : s.HoldsBy (sh.reading cs) sh.keys σ [] []
  retouched : fs.Retouched s.fs
  chain : fs.bpb.ChainOf fs.table c l
  dir : ino = 1 ∧ fs.bpb.rootClus.toNat = c ∨
    ino ≠ 1 ∧ ino ∈ sh.keys ∧ (σ ino).isDir = true ∧ (σ ino).fstClus = c

/-- The inode number that the filesystem knows the directory by. -/
def dirIno (ino : Nat) : Nat := if ino = 1 then kRootDirIno else ino

section request

variable {cs : Charset} {fs : FAT32fs} {sh : Shelf} {σ : Nat → File} {held : List File} {others : List Nat} {s : Driver}
  {dir f g : File} {ino c k : Nat} {l : List Nat} {tail : List LongDirEntry} {ps : List (Nat × EntryGroup)} {n : Nat}

/-- A held directory as `getExistFile` has returned it, and the way it goes back. -/
structure Driver.Opened (cs : Charset) (fs : FAT32fs) (sh : Shelf) (ino c : Nat) (l : List Nat) (σ : Nat → File)
    (held : List File) (others : List Nat) (dir : File) (s : Driver) : Prop where
  scans : s.Scans cs fs sh σ held others l dir
  ino_eq : dir.ino = dirIno ino
  clus : dir.fstClus = c
  live : dir.isDeleted = false
  chain : fs.bpb.ChainOf fs.table c l
  back : ino = 1 ∧ fs.bpb.rootClus.toNat = c ∧ held = [] ∧ others = [kRootDirIno] ∨
    ino ≠ 1 ∧ others = [] ∧ ∃ f, held = [f] ∧ f.Same dir

theorem Shelf.Keeps.update (h : sh.Keeps cs fs σ) (hsits : f.Sits k) (hname : f.name = (σ k).name)
    (hdir : f.isDir = (σ k).isDir) (hplaced : ∃ l, f.Placed fs l) : sh.Keeps cs fs (Function.update σ k f) := by
  refine ⟨h.mounted, h.listed, h.apart, fun j hj => ?_, fun j hj => ?_, fun j hj => ?_⟩ <;>
    by_cases hjk : j = k
  · subst hjk
    rwa [Function.update_self]
  · rw [Function.update_of_ne hjk]
    exact h.sits j hj
  · subst hjk
    obtain ⟨f₀, hmade, hsame, hsame'⟩ := h.made j hj
    rw [Function.update_self]
    exact ⟨f₀, hmade, hsame.trans hname.symm, hsame'.trans hdir.symm⟩
  · rw [Function.update_of_ne hjk]
    exact h.made j hj
  · subst hjk
    rwa [Function.update_self]
  · rw [Function.update_of_ne hjk]
    exact h.placed j hj

theorem FAT32fs.ino_getRootDir (fs : FAT32fs) : fs.getRootDir.ino = kRootDirIno := by
  simp [File.ino, FAT32fs.getRootDir, kRootDirIno]

theorem Driver.getFileByIno_root (h : ∀ p ∈ s.files.list, p.1 ≠ kRootDirIno) (held : List Nat) :
    s.getFileByIno cs held kRootDirIno = some (some s.fs.getRootDir, s) := by
  have hnone : (s.files.get kRootDirIno).1 = none := LRUCacheMap.get_eq_none.mpr h
  have hget : s.files.get kRootDirIno = (none, s.files) := Prod.ext hnone (LRUCacheMap.get_of_none hnone)
  rw [Driver.getFileByIno, hget]
  rfl

theorem Driver.Browsed.open (hm : fs.Mounted) (h : s.Browsed cs fs sh ino c l σ) : ∃ dir held others s',
    s.getExistFile cs ino = some (dir, s') ∧ s'.Opened cs fs sh ino c l σ held others dir := by
  rw [Driver.getExistFile]
  rcases h.dir with ⟨rfl, hroot⟩ | ⟨hne, hk, hdir, hclus⟩
  · rw [if_pos rfl, show (0 : Nat) = kRootDirIno from rfl, Driver.getFileByIno_root fun p hp => (h.holds.keyed p hp).2]
    have hclus : s.fs.getRootDir.fstClus = c := (congrArg (fun bpb => bpb.rootClus.toNat) h.retouched.bpb).trans hroot
    have hplaced : s.fs.getRootDir.Placed fs l := ⟨hclus.symm ▸ h.chain, .inl rfl⟩
    refine ⟨s.fs.getRootDir, [], [kRootDirIno], s, rfl, ⟨⟨Driver.holdsBy_root.mpr h.holds, h.retouched, rfl,
      h.retouched.placed hm hplaced, ?_⟩, s.fs.ino_getRootDir, hclus, rfl, h.chain, .inl ⟨rfl, hroot, rfl, rfl⟩⟩⟩
    rw [s.fs.ino_getRootDir]
    rfl
  · obtain ⟨g, s', hget, hmem, hholds, hretouched⟩ := h.holds.getFileByIno (sh.reads cs) hk List.not_mem_nil
    have hretouched : s.fs.Retouched s'.fs := hretouched
    have hall := h.retouched.trans hretouched
    obtain rfl : g.ino = ino := (hholds.keyed _ hmem).1
    have hheld := hholds.hold hmem List.not_mem_nil
    have hcache : (σ g.ino).MayCache s'.fs g := hheld.shows.2
    obtain ⟨⟨cached, hg⟩, lg, hplaced⟩ := hcache
    have hsits := Shelf.Keeps.sits hheld.coherent.good _ hk
    have hclus' : g.fstClus = c := by
      rw [hg]
      exact hclus
    -- the object has the chain that the directory had on the volume
    obtain rfl : lg = l := by
      have hat := hall.placed (f := dirAt c) hm ⟨h.chain, .inl rfl⟩
      have hchain := hplaced.chain
      rw [hclus'] at hchain
      exact hchain.unique hat.chain
    have hdir' : g.isDir = true := by
      rw [hg]
      exact hdir
    have hlive : g.isDeleted = false := by
      rw [hg]
      exact hsits.live
    refine ⟨g, [g], [], s', ?_, ⟨⟨hheld, hall, hdir', hplaced, rfl⟩, by rw [dirIno, if_neg hne], hclus', hlive, h.chain,
      .inr ⟨hne, rfl, g, rfl, rfl⟩⟩⟩
    rw [if_neg hne]
    change (s.getFileByIno cs (heldInos [] []) g.ino).bind _ = _
    rw [hget]
    rfl

theorem File.Same.forget {h : File} {cached : Option (List Nat)} (hsame : f.Same g) (hf : f = { h with clusChain_ := cached })
    (hnone : h.clusChain_ = none) : { g with clusChain_ := none } = { h with accDate := g.accDate } := by
  subst hf
  cases h
  cases hnone
  rw [hsame]

theorem Driver.Opened.same (h : s.Opened cs fs sh ino c l σ held others dir) (hsame : dir.Same f)
    {s' : Driver} (h' : s'.Scans cs fs sh σ held others l f) : s'.Opened cs fs sh ino c l σ held others f := by
  refine ⟨h', hsame.ino.trans h.ino_eq, hsame.fstClus.trans h.clus, ?_, h.chain, h.back.imp_right
    fun ⟨hne, hothers, g, hheld, hg⟩ => ⟨hne, hothers, g, hheld, hg.trans hsame⟩⟩
  rw [hsame]
  exact h.live

theorem Driver.Opened.close (h : s.Opened cs fs sh ino c l σ held others dir) : ∃ s' σ',
    s.release dir = some s' ∧ s'.Browsed cs fs sh ino c l σ' ∧ ∀ k ≠ dirIno ino, σ' k = σ k := by
  rcases h.back with ⟨rfl, hroot, rfl, rfl⟩ | ⟨hne, rfl, f, rfl, hsame⟩
  · obtain ⟨s', hrun, hholds, hretouched⟩ := (Driver.holdsBy_root.mp h.scans.holds).release_root (sh.reads cs) h.ino_eq
      h.scans.placed h.live
    exact ⟨s', σ, hrun, ⟨hholds, h.scans.retouched.trans hretouched, h.chain, .inl ⟨rfl, hroot⟩⟩, fun _ _ => rfl⟩
  · have hino : f.ino = ino := hsame.ino.symm.trans (h.ino_eq.trans (if_neg hne))
    subst hino
    obtain ⟨hk, hshows⟩ := h.scans.holds.shows
    have hgood := h.scans.holds.coherent.good
    have hsits := Shelf.Keeps.sits hgood _ hk
    have hcache : (σ f.ino).MayCache s.fs f := hshows
    obtain ⟨⟨cached, hf⟩, -⟩ := hcache
    -- the object has the access date of the last scan
    have hdir : { dir with clusChain_ := none } = { σ f.ino with accDate := dir.accDate } :=
      hsame.forget hf hsits.uncached
    have hkeeps := Shelf.Keeps.update (f := { dir with clusChain_ := none }) hgood (k := f.ino)
      (by rw [hdir]; exact ⟨hsits.parent, hsits.entry, hsits.live, hsits.uncached, hsits.clus, hsits.size⟩)
      (by rw [hdir]) (by rw [hdir]) ⟨l, h.scans.placed.chain, .inl rfl⟩
    have hcache : File.MayCache s.fs { dir with clusChain_ := none } dir := ⟨⟨dir.clusChain_, rfl⟩, l, h.scans.placed⟩
    have hholds : s.HoldsBy (sh.reading cs) sh.keys (Function.update σ f.ino { dir with clusChain_ := none }) [dir] [] :=
      h.scans.holds.recast hkeeps (fun _ hj => Function.update_of_ne hj ..) hsame.ino
        (by rw [Function.update_self]; exact hcache) (fun _ _ _ hhas => hhas) fun _ _ _ _ hg => hg
    obtain ⟨s', hrun, hholds', hretouched⟩ := hholds.release (sh.reads cs) List.not_mem_nil
    refine ⟨s', _, hrun, ⟨hholds', h.scans.retouched.trans hretouched, h.chain, .inr ⟨hne, hk, ?_, ?_⟩⟩, fun k hk => ?_⟩
    · rw [Function.update_self]
      exact h.scans.isDir
    · rw [Function.update_self]
      exact h.clus
    · rw [dirIno, if_neg hne] at hk
      exact Function.update_of_ne hk ..

/-- One call. -/
theorem Driver.Browsed.readdir (hm : fs.Mounted) (htail : ∀ e ∈ tail, isEmptyDirEntry e = true)
    (h : s.Browsed cs fs sh ino c l σ) (hat : GroupsFrom (fs.dirEntries l) tail n ps)
    (hps : ∀ p ∈ ps, sh.HasGroup cs σ c (dirIno ino) p) (entsize : Bool → List UInt8 → Nat) {call : ReaddirCall}
    (hsize : call.size < 2 ^ 32) : ∃ ents s' σ',
      s.fat32DoReaddir cs entsize ino call.size n call.plus call.now =
        some (.buf ents (ents.map fun e => entsize call.plus e.name).sum, s') ∧
      s'.Browsed cs fs sh ino c l σ' ∧ (∀ p ∈ ps, sh.HasGroup cs σ' c (dirIno ino) p) ∧
      ents.map DirEnt.shown =
        (Paging.fill (groupNeed cs (entsize call.plus)) call.size ps).1.map (shownGroup cs c) ∧
      GroupsFrom (fs.dirEntries l) tail (nextOffset n ents)
        (Paging.fill (groupNeed cs (entsize call.plus)) call.size ps).2 := by
  have hfuel : ps.length < slotFuel := by
    have hle := hat.length_le
    rw [FAT32fs.length_dirEntries] at hle
    exact Nat.lt_of_le_of_lt hle (hm.sound.dirSlots_lt_fuel l n)
  obtain ⟨dir, held, others, s₁, hget, h₁⟩ := h.open hm
  obtain ⟨rfl, hino⟩ : dir.fstClus = c ∧ dir.ino = dirIno ino := ⟨h₁.clus, h₁.ino_eq⟩
  obtain ⟨ents, rem', dir', s₂, hloop, h₂, hsame, hshown, hsum, hnext⟩ :=
    h₁.scans.readdirLoop htail (entsize call.plus) call.plus call.now call.size [] hfuel hat (hino.symm ▸ hps)
  obtain ⟨s', σ', hrelease, h', hkept⟩ := (h₁.same hsame h₂).close
  refine ⟨ents, s', σ', ?_, h', fun p hp => ?_, hshown, hnext⟩
  · rw [Driver.fat32DoReaddir, hget, u32_of_lt hsize]
    simp only [Option.bind_eq_bind, Option.bind_some, h₁.scans.isDir, Bool.not_true, Bool.false_eq_true, if_false, hloop,
      hrelease, List.nil_append, Option.pure_def]
    rw [show call.size - rem' = (ents.map fun e => entsize call.plus e.name).sum by omega]
  · obtain ⟨hk, hne, hname, htt⟩ := hps p hp
    have hσ := hkept _ hne
    exact ⟨hk, hne, hσ.symm ▸ hname, hσ.symm ▸ htt⟩

/-- A reader that goes on from `n` gets the pages of the groups that are left. -/
theorem Driver.Browsed.readdirs_pages (hm : fs.Mounted) (htail : ∀ e ∈ tail, isEmptyDirEntry e = true)
    (entsize : Bool → List UInt8 → Nat) : ∀ {calls : List ReaddirCall} {n : Nat} {ps : List (Nat × EntryGroup)}
    {s : Driver} {σ : Nat → File}, (∀ call ∈ calls, call.size < 2 ^ 32) → s.Browsed cs fs sh ino c l σ →
    GroupsFrom (fs.dirEntries l) tail n ps → (∀ p ∈ ps, sh.HasGroup cs σ c (dirIno ino) p) →
    ∃ replies s', s.readdirs cs entsize ino calls n = some (replies, s') ∧
      replies.map (fun r => r.1.map DirEnt.shown) =
        (Paging.pages (calls.map fun call => (groupNeed cs (entsize call.plus), call.size)) ps).map
          (List.map (shownGroup cs c)) ∧
      ∀ r ∈ replies, r.1 = [] → r.2 = 0 := by
  intro calls
  induction calls with
  | nil => exact fun {_ _ s _} _ _ _ _ => ⟨[], s, rfl, rfl, fun _ h => absurd h List.not_mem_nil⟩
  | cons call calls ih =>
    intro n ps s σ hcalls h hat hps
    obtain ⟨ents, s₁, σ₁, hrun, h₁, hps₁, hshown, hnext⟩ :=
      h.readdir hm htail hat hps entsize (hcalls call List.mem_cons_self)
    rw [Driver.readdirs, hrun]
    simp only [Option.bind_eq_bind, Option.bind_some, List.map_cons, Paging.pages]
    rw [nextOffset] at hnext
    cases hlast : ents.getLast? with
    | none =>
      obtain rfl := List.getLast?_eq_none_iff.mp hlast
      rw [if_pos (List.map_eq_nil_iff.mp hshown.symm)]
      refine ⟨_, _, rfl, rfl, fun r hr _ => ?_⟩
      rw [List.mem_singleton.mp hr]
      rfl
    | some ent =>
      rw [hlast, Option.map_some, Option.getD_some] at hnext
      have hne : ents ≠ [] := fun hnil => by
        rw [hnil] at hlast
        cases hlast
      have hpage : (Paging.fill (groupNeed cs (entsize call.plus)) call.size ps).1 ≠ [] := fun hnil => by
        rw [hnil] at hshown
        exact hne (List.map_eq_nil_iff.mp hshown)
      have hleft : ∀ p ∈ (Paging.fill (groupNeed cs (entsize call.plus)) call.size ps).2, p ∈ ps := fun p hp =>
        Paging.fill_append (groupNeed cs (entsize call.plus)) ps call.size ▸
          List.mem_append_right _ hp
      obtain ⟨replies, s', hrest, hpages, hbytes⟩ := ih (fun c hc => hcalls c (List.mem_cons_of_mem _ hc)) h₁ hnext
        fun p hp => hps₁ p (hleft p hp)
      rw [if_neg hpage]
      dsimp only
      rw [hrest]
      refine ⟨_ :: replies, s', rfl, ?_, fun r hr hnil => ?_⟩
      · rw [List.map_cons, List.map_cons, hpages, hshown]
      · rcases List.mem_cons.mp hr with rfl | hr
        · exact absurd hnil hne
        · exact hbytes r hr hnil

end request

/-! ### The whole listing -/

/-- The object of a request: the root directory, or what `getFileByIno` has for a group of the volume. -/
def Driver.Serves (cs : Charset) (heads : Set Nat) (s : Driver) (ino : Nat) (f : File) : Prop :=
  ino = 1 ∧ f = s.fs.getRootDir ∨ ino ≠ 1 ∧ s.Object cs ino f ∧ f.Belongs cs s.fs heads ino

/-- A directory that can be listed: clusters next to each other, groups with readable names, and nothing but empty entries behind the first end marker. Its files have valid times, and it is none of them. -/
structure Driver.Listable (cs : Charset) (s : Driver) (dir : File) (l : List Nat)
    (segs : List (Segment LongDirEntry EntryGroup)) (tail : List LongDirEntry) : Prop where
  placed : dir.Placed s.fs l
  isDir : dir.isDir = true
  size : l.length * bytesPerClus s.fs.bpb < 2 ^ 32
  consecutive : Consecutive l
  layout : GroupLayout (s.fs.dirEntries l) segs tail
  rest : ∀ e ∈ tail, isEmptyDirEntry e = true
  named : ∀ p ∈ blocks EntryGroup.entries 0 segs, (p.2.name cs).isSome = true
  chains : ∀ p ∈ blocks EntryGroup.entries 0 segs,
    ∃ lf, s.fs.bpb.ChainOf s.fs.table (readEntryClusNo (castLongDirEntryToShort p.2.short)) lf
  tenths : ∀ p ∈ blocks EntryGroup.entries 0 segs, ∀ f, s.Object cs (groupIno dir.fstClus p) f → f.crtTime.tt.toNat ≤ 199
  other : ∀ p ∈ blocks EntryGroup.entries 0 segs, groupIno dir.fstClus p ≠ dir.ino

section whole

variable {cs : Charset} {s : Driver} {heads : Set Nat} {ino k : Nat} {dir f g : File} {l : List Nat}
  {segs : List (Segment LongDirEntry EntryGroup)} {tail : List LongDirEntry}

theorem Driver.Object.unique (h : s.files.KeysNodup) (hf : s.Object cs k f) (hg : s.Object cs k g) : f = g := by
  rcases hf with hf | ⟨hf, hmade⟩ <;> rcases hg with hg | ⟨hg, hmade'⟩
  · exact congrArg Prod.snd (List.inj_on_of_nodup_map h hf hg rfl)
  · exact absurd rfl (hg _ hf)
  · exact absurd rfl (hf _ hg)
  · exact Option.some.inj (Option.some.inj (hmade.symm.trans hmade'))

private theorem Driver.Listable.walkable (h : s.Listable cs dir l segs tail) (hm : s.fs.Mounted) : s.fs.Walkable l segs :=
  ⟨fun _ hp => h.consecutive.slotsInOrder hm.sound h.size (h.layout.liveGroup hp).1, h.chains⟩

private theorem Driver.Listable.browsed (h : s.Listable cs dir l segs tail) (hs : s.Belongs cs heads) (hm : s.fs.Sane heads)
    (hhead : dir.fstClus ∈ heads) (hserves : s.Serves cs heads ino dir) : ∃ sh σ,
      s.Browsed cs s.fs sh ino dir.fstClus l σ ∧
      ∀ p ∈ blocks EntryGroup.entries 0 segs, sh.HasGroup cs σ dir.fstClus (dirIno ino) p := by
  have hino : dir.ino = dirIno ino := by
    rcases hserves with ⟨rfl, rfl⟩ | ⟨hne, -, hbelongs⟩
    · exact s.fs.ino_getRootDir
    · rw [dirIno, if_neg hne]
      exact hbelongs.ino_eq
  obtain ⟨sh, σ, hholds, hobjects, hkeys, hgroups⟩ := hs.holds_groups hm h.placed hhead h.layout (h.walkable hm.toMounted)
    h.named [] {k | k = ino ∧ File.fromIno cs s.fs ino = some (some dir) ∧ dir.Belongs cs s.fs heads ino}
    (fun _ _ => List.not_mem_nil) (by
      rintro k ⟨rfl, hmade, hbelongs⟩
      exact ⟨List.not_mem_nil, dir, hmade, hbelongs⟩)
  refine ⟨sh, σ, ⟨hholds, .refl _, h.placed.chain, ?_⟩, fun p hp => ?_⟩
  · refine hserves.imp (fun ⟨hone, hroot⟩ => ⟨hone, by rw [hroot]; rfl⟩) fun ⟨hne, hobject, hbelongs⟩ => ?_
    have hk : ino ∈ sh.keys := hkeys ino (hobject.symm.imp (fun hmade => ⟨rfl, hmade.2, hbelongs⟩)
      fun hmem => ⟨List.not_mem_nil, dir, hmem⟩)
    obtain ⟨f, hf, heq⟩ := hobjects ino hk
    rw [heq, hf.unique hs.distinct hobject]
    exact ⟨hne, hk, h.isDir, rfl⟩
  · obtain ⟨hk, hname⟩ := hgroups p hp
    obtain ⟨f, hf, heq⟩ := hobjects _ hk
    exact ⟨hk, hino ▸ h.other p hp, hname, by rw [heq]; exact h.tenths p hp f hf⟩

end whole

/-- Whatever the sizes of the buffers are, the replies list the groups of the directory in the order of their places, each once and with its own name and inode. Nothing is left when a reply is empty, and one more call than there are groups is enough. -/
theorem readdirs_lists (cs : Charset) (entsize : Bool → List UInt8 → Nat) (s : Driver) (heads : Set Nat)
    (hm : s.fs.Sane heads) (hs : s.Belongs cs heads) (ino : Nat) (dir : File) (hserves : s.Serves cs heads ino dir)
    (hhead : dir.fstClus ∈ heads) (l : List Nat) (segs : List (Segment LongDirEntry EntryGroup)) (tail : List LongDirEntry)
    (hd : s.Listable cs dir l segs tail) (calls : List ReaddirCall)
    (hcalls : ∀ call ∈ calls, call.size < 2 ^ 32 ∧ ∀ p ∈ blocks EntryGroup.entries 0 segs, ∀ name, p.2.name cs = some name →
      entsize call.plus name ≤ call.size) :
    ∃ replies rest s', s.readdirs cs entsize ino calls 0 = some (replies, s') ∧
      (replies.flatMap Prod.fst).map (fun e => (some e.name, e.ino)) ++ rest =
        (blocks EntryGroup.entries 0 segs).map (fun p => (p.2.name cs, groupIno dir.fstClus p)) ∧
      ((replies.flatMap Prod.fst).map DirEnt.ino).Pairwise (· < ·) ∧
      (replies.getLast? = some ([], 0) → rest = []) ∧
      ((blocks EntryGroup.entries 0 segs).length < calls.length → replies.getLast? = some ([], 0)) := by
  obtain ⟨sh, σ, hbrowsed, hgroups⟩ := hd.browsed hs hm hhead hserves
  obtain ⟨replies, s', hrun, hpages, hbytes⟩ := hbrowsed.readdirs_pages hm.toMounted hd.rest entsize
    (fun call hcall => (hcalls call hcall).1) hd.layout.groupsFrom hgroups
  set pages := Paging.pages (calls.map fun call => (groupNeed cs (entsize call.plus), call.size))
    (blocks EntryGroup.entries 0 segs) with hpagesdef
  have hfit : ∀ c ∈ calls.map fun call => (groupNeed cs (entsize call.plus), call.size),
      ∀ p ∈ blocks EntryGroup.entries 0 segs, c.1 p ≤ c.2 := by
    intro c hc p hp
    obtain ⟨call, hcall, rfl⟩ := List.mem_map.mp hc
    obtain ⟨name, hname⟩ := Option.isSome_iff_exists.mp (hd.named p hp)
    simpa [groupNeed, hname] using (hcalls call hcall).2 p hp name hname
  obtain ⟨rest, hsplit, hend, hmany⟩ := Paging.pages_spec hfit
  rw [← hpagesdef] at hsplit hend hmany
  have hshown : (replies.flatMap Prod.fst).map DirEnt.shown = pages.flatten.map (shownGroup cs dir.fstClus) := by
    rw [List.map_flatten, ← hpages, List.map_flatMap, List.flatMap_def]
  have hlast : replies.getLast?.map (fun r => r.1.map DirEnt.shown) =
      pages.getLast?.map (List.map (shownGroup cs dir.fstClus)) := by
    rw [← List.getLast?_map, ← List.getLast?_map, hpages]
  refine ⟨replies, rest.map fun p => (p.2.name cs, groupIno dir.fstClus p), s', hrun, ?_, ?_, fun hempty => ?_, fun hlt => ?_⟩
  · have hkeys := congrArg (List.map fun x => (some x.1, x.2.1)) hshown
    rw [List.map_map, List.map_map] at hkeys
    have hnames : pages.flatten.map ((fun x => (some x.1, x.2.1)) ∘ shownGroup cs dir.fstClus) =
        pages.flatten.map fun p => (p.2.name cs, groupIno dir.fstClus p) := by
      refine List.map_congr_left fun p hp => ?_
      obtain ⟨name, hname⟩ := Option.isSome_iff_exists.mp (hd.named p (hsplit ▸ List.mem_append_left _ hp))
      simp [shownGroup, hname]
    rw [hnames] at hkeys
    rw [← hsplit, List.map_append, ← hkeys]
    rfl
  · have hinos := congrArg (List.map fun x => x.2.1) hshown
    rw [List.map_map, List.map_map] at hinos
    have hpair : (pages.flatten ++ rest).Pairwise fun p q => groupIno dir.fstClus p < groupIno dir.fstClus q := by
      rw [hsplit]
      refine (blocks_pairwise EntryGroup.entries segs 0).1.imp fun {p q} hpq => ?_
      rw [EntryGroup.length_entries, EntryGroup.size] at hpq
      simp only [groupIno]
      omega
    have hfirst := List.pairwise_map.mpr (List.pairwise_append.mp hpair).1
    exact hinos ▸ hfirst
  · rw [hempty] at hlast
    obtain ⟨page, hpage, hnil⟩ := Option.map_eq_some_iff.mp hlast.symm
    rw [List.map_eq_nil_iff.mp hnil] at hpage
    rw [hend hpage, List.map_nil]
  · rw [hmany (by simpa using hlt)] at hlast
    obtain ⟨⟨ents, bytes⟩, hreply, hnil⟩ := Option.map_eq_some_iff.mp hlast
    have hents : ents = [] := List.map_eq_nil_iff.mp hnil
    have hzero : bytes = 0 := hbytes _ (List.mem_of_getLast? hreply) hents
    rw [hreply, hents, hzero]

/-! A root directory of twelve files, asked for with small buffers of both kinds in turn. -/

def shelvedFs : FAT32fs := filedFs [3] (List.range 12) fun i => (listedEntry i).bytes

theorem shelvedFs_sane : shelvedFs.Sane {3, 2} ∧ rootDir.Placed shelvedFs [2] := by
  obtain ⟨hs, hplaced, -⟩ := filedFs_sane (l := []) (by decide) (by decide) (List.range 12) fun i => (listedEntry i).bytes
  exact ⟨hs, hplaced⟩

private theorem shelvedFs_listable : Driver.Listable asciiCharset ⟨shelvedFs, ⟨4, []⟩⟩ shelvedFs.getRootDir [2] listedSegs
    (List.replicate 4 (LongDirEntry.ofBytes fun _ => 0)) := by
  have hlay : GroupLayout (shelvedFs.dirEntries [2]) listedSegs (List.replicate 4 (LongDirEntry.ofBytes fun _ => 0)) := by
    refine ⟨by decide +kernel, fun e he => ?_, fun e he => ?_⟩
    · obtain ⟨i, -, hi⟩ := List.mem_map.mp he
      cases hi
    · rw [List.eq_of_mem_replicate (List.mem_of_mem_head? he)]
      exact isLstEmpty_zero.1
  have hletter : ∀ i : Fin 12, ((listedGroup i).name asciiCharset).isSome = true ∧
      readEntryClusNo (castLongDirEntryToShort (listedGroup i).short) = 0 ∧
      (((File.fromIno asciiCharset shelvedFs (2 * 2 ^ 32 + i)).bind id).map fun f => f.crtTime.tt) = some 0 := by decide +kernel
  refine ⟨⟨shelvedFs_sane.2.chain, .inl rfl⟩, rfl, by decide, by decide, hlay, fun e he => ?_, fun p hp => ?_, fun p hp => ?_,
    fun p hp f hf => ?_, fun p _ => ?_⟩
  · rw [List.eq_of_mem_replicate he]
    exact isLstEmpty_zero.2
  · obtain ⟨i, rfl⟩ := mem_blocks_listedSegs hp
    exact (hletter i).1
  · obtain ⟨i, rfl⟩ := mem_blocks_listedSegs hp
    exact ⟨[], .inl ⟨(hletter i).2.1, rfl⟩⟩
  · obtain ⟨i, rfl⟩ := mem_blocks_listedSegs hp
    rcases hf with hf | ⟨-, hmade⟩
    · exact absurd hf List.not_mem_nil
    · have htt := (hletter i).2.2
      rw [show File.fromIno asciiCharset shelvedFs (2 * 2 ^ 32 + i) = some (some f) from hmade] at htt
      have hzero : f.crtTime.tt = 0 := Option.some.inj htt
      rw [hzero]
      decide
  · rw [FAT32fs.ino_getRootDir]
    exact Nat.ne_of_gt (Nat.lt_of_lt_of_le (show kRootDirIno < 2 * 2 ^ 32 by decide) (Nat.le_add_right _ p.1))

/-- The size of an entry in the two kinds of reply. -/
def direntSize (plus : Bool) (name : List UInt8) : Nat :=
  (24 + name.length + 7) / 8 * 8 + if plus then 128 else 0

/-- Buffers for two or three files. -/
def smallCalls : List ReaddirCall := (List.range 13).map fun i => if i % 2 = 0 then ⟨100, false, ⟨0, 0⟩⟩ else ⟨400, true, ⟨0, 0⟩⟩

theorem readdirs_lists_twelve_files : ∃ replies rest s',
    (⟨shelvedFs, ⟨4, []⟩⟩ : Driver).readdirs asciiCharset direntSize 1 smallCalls 0 = some (replies, s') ∧
    (replies.flatMap Prod.fst).map (fun e => (some e.name, e.ino)) ++ rest =
      (List.range 12).map (fun i => (some [UInt8.ofNat (0x41 + i)], 2 * 2 ^ 32 + i)) ∧
    ((replies.flatMap Prod.fst).map DirEnt.ino).Pairwise (· < ·) ∧
    (replies.getLast? = some ([], 0) → rest = []) ∧ (12 < 13 → replies.getLast? = some ([], 0)) := by
  have hname : ∀ i : Fin 12, (listedGroup i).name asciiCharset = some [UInt8.ofNat (0x41 + i)] := by decide +kernel
  have hgroups : (blocks EntryGroup.entries 0 listedSegs).map (fun p => (p.2.name asciiCharset,
      groupIno shelvedFs.getRootDir.fstClus p)) =
      (List.range 12).map fun i => (some [UInt8.ofNat (0x41 + i)], 2 * 2 ^ 32 + i) := by decide +kernel
  have hlists := readdirs_lists asciiCharset direntSize ⟨shelvedFs, ⟨4, []⟩⟩ {3, 2} shelvedFs_sane.1
    (Driver.belongs_nil _ _ _ (by decide)) 1 shelvedFs.getRootDir (.inl ⟨rfl, rfl⟩) (.inr rfl) [2] listedSegs _
    shelvedFs_listable smallCalls (by
      intro call hcall
      obtain ⟨i, -, rfl⟩ := List.mem_map.mp hcall
      refine ⟨by split_ifs <;> decide, fun p hp name hp' => ?_⟩
      obtain ⟨j, rfl⟩ := mem_blocks_listedSegs hp
      obtain rfl := Option.some.inj ((hname j).symm.trans hp')
      split_ifs <;> simp [direntSize])
  rw [hgroups] at hlists
  exact hlists

/-! Files that cannot be shown: one has a short name that is not text in GBK, the other one a number of hundredths that is too large. -/

def oddEntry (i : Fin 2) : ShortDirEntry :=
  if i = 0 then { listedEntry 0 with name := Vector.ofFn fun j => if j.val = 0 then 0xFF else 0x20 }
  else { listedEntry 0 with crtTs2 := ⟨200, ⟨0, 0⟩⟩ }

theorem oddEntry_isShort (i : Fin 2) : isEmptyDirEntry (castShortDirEntryToLong (oddEntry i)) = false ∧
    isLongDirEntry (castShortDirEntryToLong (oddEntry i)) = false := by
  revert i
  decide +kernel

def oddFs (i : Fin 2) : FAT32fs :=
  ⟨smallBpb, (smallRun (smallTable [2, 3])).fat,
    (smallRun (smallTable [2, 3])).device.write 34 0 (castShortDirEntryToLong (oddEntry i)).bytes⟩

def oddGroup (i : Fin 2) : EntryGroup := .ofShort _ (oddEntry_isShort i).1 (oddEntry_isShort i).2

theorem oddFs_aborts (i : Fin 2) : (oddFs i).Sane {2} ∧ (oddFs i).getRootDir.Placed (oddFs i) [2, 3] ∧
    GroupLayout ((oddFs i).dirEntries [2, 3]) [.block (oddGroup i)] (List.replicate 31 (LongDirEntry.ofBytes fun _ => 0)) ∧
    (⟨oddFs i, ⟨20, []⟩⟩ : Driver).readdirs asciiCharset direntSize 1 [⟨4096, false, ⟨0, 0⟩⟩] 0 = none := by
  have hrun : ∀ i : Fin 2, ((⟨oddFs i, ⟨20, []⟩⟩ : Driver).readdirs asciiCharset direntSize 1 [⟨4096, false, ⟨0, 0⟩⟩] 0).isNone =
      true := by decide +kernel
  have hflat : ∀ i : Fin 2, (oddFs i).dirEntries [2, 3] = Segments.flat EntryGroup.entries [.block (oddGroup i)] ++
      List.replicate 31 (LongDirEntry.ofBytes fun _ => 0) := by decide +kernel
  obtain ⟨hh, hplaced⟩ := smallRoot_healthy (.inl rfl) le_rfl (castShortDirEntryToLong (oddEntry i)).bytes
  refine ⟨hh.sane, ⟨hplaced.chain, .inl rfl⟩, ⟨hflat i, ?_, ?_⟩, Option.isNone_iff_eq_none.mp (hrun i)⟩
  · simp
  · simpa using isLstEmpty_zero.1

/-- A name that cannot be converted and a time that is none end the program at the first request. -/
theorem not_readdirs_lists : Consecutive [2, 3] ∧
    ((oddFs 0).Sane {2} ∧ (oddFs 0).getRootDir.Placed (oddFs 0) [2, 3] ∧
      GroupLayout ((oddFs 0).dirEntries [2, 3]) [.block (oddGroup 0)] (List.replicate 31 (LongDirEntry.ofBytes fun _ => 0)) ∧
      (⟨oddFs 0, ⟨20, []⟩⟩ : Driver).readdirs asciiCharset direntSize 1 [⟨4096, false, ⟨0, 0⟩⟩] 0 = none) ∧
    (oddFs 1).Sane {2} ∧ (oddFs 1).getRootDir.Placed (oddFs 1) [2, 3] ∧
      GroupLayout ((oddFs 1).dirEntries [2, 3]) [.block (oddGroup 1)] (List.replicate 31 (LongDirEntry.ofBytes fun _ => 0)) ∧
      (⟨oddFs 1, ⟨20, []⟩⟩ : Driver).readdirs asciiCharset direntSize 1 [⟨4096, false, ⟨0, 0⟩⟩] 0 = none :=
  ⟨by decide, oddFs_aborts 0, oddFs_aborts 1⟩

end FuseFat32
