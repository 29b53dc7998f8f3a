import FuseFat32.Fuse.Catalog
import FuseFat32.Fuse.Held

/-!
# Trees that change

A directory gets or loses clusters, a file comes and a file goes. Of the tree this changes the chain of one directory or one inode number, and the volume has the tree that results with the objects it had before.
-/

namespace FuseFat32

open LinkedTable Layout Segments WriteBack

/-- The directory with first cluster `c` has got the chain `l`. -/
def Tree.rechained (t : Tree) (c : Nat) (l : List Nat) : Tree := { t with chain := Function.update t.chain c l }

/-- The file `k` has come, with `n` long entries. -/
def Tree.withFile (t : Tree) (k n : Nat) : Tree := { t with files := insert k t.files, longs := Function.update t.longs k n }

/-- The directory `k` has come, with `n` long entries and the chain `l` that begins with `c`. -/
def Tree.withDir (t : Tree) (k n c : Nat) (l : List Nat) : Tree :=
  { t with
    subdirs := insert k t.subdirs
    dirs := insert c t.dirs
    chain := Function.update t.chain c l
    longs := Function.update t.longs k n }

/-- `k` has come with `n` long entries, and nothing else is in another place. -/
structure Tree.Gains (t : Tree) (k n : Nat) (t' : Tree) : Prop where
  inos : t'.inos = insert k t.inos
  longs : t'.longs = Function.update t.longs k n
  subdirs : t.subdirs ⊆ t'.subdirs
  dirs : t.dirs ⊆ t'.dirs
  chain : ∀ c ∈ t.dirs, t'.chain c = t.chain c

/-- The file or directory `k` with first cluster `c` has gone. -/
def Tree.without (t : Tree) (k c : Nat) : Tree :=
  { t with files := t.files \ {k}, subdirs := t.subdirs \ {k}, dirs := t.dirs \ {c} }

/-- No file lies in the directory `k`, if it is one. -/
def Tree.Vacant (t : Tree) (σ : Nat → File) (k : Nat) : Prop := ∀ j ∈ t.inos, j / 2 ^ 32 ≠ (σ k).fstClus

/-- No other directory begins where `k` does. -/
def Tree.Alone (t : Tree) (σ : Nat → File) (k : Nat) : Prop := ∀ j ∈ t.subdirs, j ≠ k → (σ j).fstClus ≠ (σ k).fstClus

section reshape

variable {cs : Charset} {t t' : Tree} {fs fs' : FAT32fs} {σ : Nat → File} {c c' j k n : Nat} {l : List Nat} {f : File}
  {v : FileView}

/-! ### A directory that has been worked on -/

/-- The volume `fs'` has the clusters of `fs`, but for those of the directory with first cluster `c`, which has the chain `l` now and every entry of a file where it was. -/
structure Tree.Moved (t : Tree) (fs : FAT32fs) (σ : Nat → File) (c : Nat) (fs' : FAT32fs) (l : List Nat) : Prop where
  beside : fs.Beside fs'
  sane : fs'.Sane ((t.run fs σ).heads t.dirs)
  kept : fs.KeepsOthers ((t.run fs σ).heads t.dirs) c fs'
  chain : fs.bpb.ChainOf fs'.table c l
  groups : ∀ k ∈ t.inos, k / 2 ^ 32 = c → fs'.GroupOf c l (k % 2 ^ 32) (t.longs k)
  entries : ∀ k ∈ t.inos, k / 2 ^ 32 = c → ∀ i ≤ t.longs k,
    fs'.entryAt l (k % 2 ^ 32 + i) = fs.entryAt (t.chain c) (k % 2 ^ 32 + i)

theorem Tree.rechained_self (t : Tree) (c : Nat) (l : List Nat) : (t.rechained c l).chain c = l := Function.update_self ..

theorem Tree.rechained_of_ne (t : Tree) (hne : c' ≠ c) (l : List Nat) : (t.rechained c l).chain c' = t.chain c' :=
  Function.update_of_ne hne ..

theorem Tree.Moved.chainOf (h : t.Moved fs σ c fs' l) {head : Nat} {l₂ : List Nat}
    (hhead : head = 0 ∨ head ∈ (t.run fs σ).heads t.dirs) (hne : head ≠ c) (hl : fs.bpb.ChainOf fs.table head l₂) :
    ∀ x ∈ l₂, fs'.table x = fs.table x ∧ ∀ i < fs.bpb.secPerClus.toNat,
      fs'.device.value (getFirstSectorOfCluster fs.bpb x + i) = fs.device.value (getFirstSectorOfCluster fs.bpb x + i) := by
  rcases hl with ⟨-, rfl⟩ | ⟨hdata, hchain⟩
  · exact fun x hx => absurd hx List.not_mem_nil
  · have hpos : head ≠ 0 := fun hzero => not_dataClus_zero _ (hzero ▸ hdata)
    exact h.kept head (hhead.resolve_left hpos) hne l₂ hchain.walk

theorem Tree.Moved.entryAt_eq (hv : t.Volume cs fs σ) (h : t.Moved fs σ c fs' l) (hc' : c' ∈ t.dirs) (hne : c' ≠ c)
    {n : Nat} (hn : kDirEntrySize * n < (t.chain c').length * bytesPerClus fs.bpb) :
    fs'.entryAt (t.chain c') n = fs.entryAt (t.chain c') n := by
  have hs := hv.mounted.sound
  rw [hs.bytesPerClus_eq_slots, Nat.mul_left_comm] at hn
  have hin := Nat.lt_of_mul_lt_mul_left hn
  obtain ⟨hlt, -⟩ := hs.slot_eq hin
  refine FAT32fs.entryAt_congr hs h.beside.bpb hin hin rfl ?_
  rw [List.getD_eq_getElem _ _ hlt]
  exact (h.chainOf (.inr (.inl hc')) hne (hv.dirs c' hc') _ (List.getElem_mem hlt)).2

theorem Tree.Moved.listed (hv : t.Volume cs fs σ) (h : t.Moved fs σ c fs' l) (hk : k ∈ t.inos) :
    (t.rechained c l).Listed fs' k ∧ ∀ i ≤ t.longs k,
      fs'.entryAt ((t.rechained c l).chain (k / 2 ^ 32)) (k % 2 ^ 32 + i) =
        fs.entryAt (t.chain (k / 2 ^ 32)) (k % 2 ^ 32 + i) := by
  obtain ⟨hdir, hl⟩ := hv.listed k hk
  rw [Tree.Listed]
  by_cases hkc : k / 2 ^ 32 = c
  · rw [hkc, t.rechained_self]
    exact ⟨h.groups k hk hkc, h.entries k hk hkc⟩
  · rw [t.rechained_of_ne hkc]
    have hent : ∀ i ≤ t.longs k, fs'.entryAt (t.chain (k / 2 ^ 32)) (k % 2 ^ 32 + i) =
        fs.entryAt (t.chain (k / 2 ^ 32)) (k % 2 ^ 32 + i) := fun i hi => h.entryAt_eq hv hdir hkc (hv.inside hk hi)
    exact ⟨hl.congr h.beside.bpb (hl.chain.congr fun x hx => (h.chainOf (.inr (.inl hdir)) hkc hl.chain x hx).1) hent, hent⟩

theorem Tree.Moved.fromIno (hv : t.Volume cs fs σ) (h : t.Moved fs σ c fs' l) (hk : k ∈ t.inos) :
    File.fromIno cs fs' k = File.fromIno cs fs k := by
  obtain ⟨hl', hent⟩ := h.listed hv hk
  have hsame := FAT32fs.GroupOf.fromIno_congr (hv.listed k hk).2 hl' hv.mounted h.sane.toMounted hent cs
  rwa [Nat.div_add_mod'] at hsame

/-- The tree with the new chain. -/
theorem Tree.Moved.volume (hv : t.Volume cs fs σ) (h : t.Moved fs σ c fs' l) (hc : c ∈ t.dirs) :
    (t.rechained c l).Volume cs fs' σ := by
  have hbpb := h.beside.bpb
  refine ⟨hv.boot.congr hbpb h.beside.reserved, ⟨h.sane, h.beside.hint hv.files.hint, ?_, hv.files.file, hv.files.parent,
    fun i => ?_, fun i hi => ?_, hv.files.apart, hv.files.notRest, fun x hx => absurd hx (Set.notMem_empty x)⟩,
    fun c' hc' => ?_, fun k hk => ⟨(hv.listed k hk).1, (h.listed hv hk).1⟩, hv.apart, hv.stands, fun k hk => ?_, hv.subdirs⟩
  · exact (congrArg (· < 2 ^ 32) h.beside.secCnt).mpr hv.files.secCnt
  · have hreach := hv.files.reach i
    rw [File.EntryReach] at hreach ⊢
    exact (congrArg (fun b => getFirstSectorOfCluster b _ + _ < 2 ^ 32) hbpb).mpr hreach
  · obtain ⟨l₂, hl₂, hlen⟩ := hv.files.chain i hi
    have hne : (σ i).fstClus ≠ c := fun heq => hv.files.notRest i hi (heq ▸ hc)
    refine ⟨l₂, ⟨hbpb.symm ▸ hl₂.chain.congr fun x hx => (h.chainOf (hv.head (.inl i.2)) hne hl₂.chain x hx).1, hl₂.cache⟩, ?_⟩
    exact hbpb.symm ▸ hlen
  · by_cases hcc : c' = c
    · rw [hcc, t.rechained_self]
      exact hbpb.symm ▸ h.chain
    · rw [t.rechained_of_ne hcc]
      exact hbpb.symm ▸ (hv.dirs c' hc').congr fun x hx => (h.chainOf (.inr (.inl hc')) hcc (hv.dirs c' hc') x hx).1
  · rw [h.fromIno hv hk]
    exact hv.made k hk

theorem Tree.Moved.mayCache (hv : t.Volume cs fs σ) (h : t.Moved fs σ c fs' l) (hk : k ∈ t.inos) (hne : (σ k).fstClus ≠ c)
    {g : File} (hg : (σ k).MayCache fs g) : (σ k).MayCache fs' g := by
  obtain ⟨⟨cache, rfl⟩, l₂, hl₂⟩ := hg
  refine ⟨⟨cache, rfl⟩, l₂, ?_, hl₂.cache⟩
  rw [h.beside.bpb]
  exact hl₂.chain.congr fun x hx => (h.chainOf (hv.head hk) hne hl₂.chain x hx).1

theorem Tree.Moved.view (hv : t.Volume cs fs σ) (h : t.Moved fs σ c fs' l) (hk : k ∈ t.inos) (hne : (σ k).fstClus ≠ c)
    (hview : t.View fs (σ k) v) : (t.rechained c l).View fs' (σ k) v := by
  have hs := hv.mounted.sound
  have hbpb := h.beside.bpb
  refine ⟨hview.isDir, ?_, fun hdir l₂ hl₂ p hp => ?_, hview.crtTime, hview.accDate, hview.wrtTime⟩
  · rw [hview.size, t.rechained_of_ne hne, hbpb]
  · have hfile : k ∈ t.files := ((hv.kind hk).resolve_right fun hsub => absurd (hdir.symm.trans hsub.2) (by decide)).1
    obtain ⟨l₀, hl₀, -⟩ := hv.files.chain ⟨k, hfile⟩ (hv.live hk)
    have hkept := h.chainOf (hv.head hk) hne hl₀.chain
    rw [hbpb] at hl₂
    obtain rfl := hl₂.unique (hl₀.chain.congr fun x hx => (hkept x hx).1)
    have hcap := hp.trans_le (hv.size_le hfile hl₀.chain)
    obtain ⟨hlt, hsec⟩ := BPB.chainSector_eq (hs.sector_lt_of_pos hcap)
    rw [hview.bytes hdir _ hl₀.chain p hp, FAT32fs.content, FAT32fs.content, hbpb, BPB.chainLoc, hsec]
    exact (congrFun ((hkept _ (List.getElem_mem hlt)).2 _ (Nat.mod_lt _ hs.secPerClus)) _).symm

/-! ### A file that goes -/

/-- Nothing lies in a file, and no directory begins where it does. -/
theorem Tree.Volume.vacant_file (h : t.Volume cs fs σ) (hk : k ∈ t.files) : t.Vacant σ k ∧ t.Alone σ k := by
  have hnot : (σ k).fstClus ∉ t.dirs := h.files.notRest ⟨k, hk⟩ (h.live (.inl hk))
  exact ⟨fun j hj heq => hnot (heq ▸ (h.listed j hj).1), fun j hj _ heq => hnot (heq ▸ (h.subdirs j hj).2)⟩

theorem Tree.inos_without (t : Tree) (k c : Nat) : (t.without k c).inos = t.inos \ {k} := (Set.union_sdiff_distrib ..).symm

theorem Tree.heads_without (h : t.Volume cs fs σ) (hk : k ∈ t.inos) :
    ((t.without k (σ k).fstClus).run fs σ).heads (t.without k (σ k).fstClus).dirs ⊆
      (t.run fs σ).heads t.dirs \ {(σ k).fstClus} := by
  rintro x (hx | ⟨hne, i, hi, rfl⟩)
  · exact ⟨.inl hx.1, hx.2⟩
  · refine ⟨.inr ⟨hne, ⟨i, i.2.1⟩, hi, rfl⟩, fun heq => ?_⟩
    have heq : (σ i).fstClus = (σ k).fstClus := heq
    rcases hk with hk | hk
    · exact hne (h.files.apart ⟨i, i.2.1⟩ ⟨k, hk⟩ hi (h.live (.inl hk)) (fun hsame => i.2.2 (congrArg Subtype.val hsame)) heq)
    · exact h.files.notRest ⟨i, i.2.1⟩ hi (heq ▸ (h.subdirs k hk).2)

/-- The clusters of the file are nobody's from then on. -/
theorem Tree.Volume.without (h : t.Volume cs fs σ) (hk : k ∈ t.inos) (hvacant : t.Vacant σ k) (halone : t.Alone σ k) :
    (t.without k (σ k).fstClus).Volume cs fs σ := by
  have hsub : (t.without k (σ k).fstClus).inos ⊆ t.inos := (t.inos_without k _).symm ▸ Set.sdiff_subset
  refine ⟨h.boot, ⟨⟨h.mounted, h.files.sane.owners.mono fun x hx => (Tree.heads_without h hk hx).1⟩, h.files.hint,
    h.files.secCnt, fun i => h.files.file ⟨i, i.2.1⟩, fun i => ⟨h.files.parent ⟨i, i.2.1⟩, ?_⟩,
    fun i => h.files.reach ⟨i, i.2.1⟩, fun i => h.files.chain ⟨i, i.2.1⟩,
    fun i j hi hj hne => h.files.apart ⟨i, i.2.1⟩ ⟨j, j.2.1⟩ hi hj fun heq => hne (Subtype.ext (Subtype.mk.inj heq)),
    fun i hi hmem => h.files.notRest ⟨i, i.2.1⟩ hi hmem.1, fun x hx => absurd hx (Set.notMem_empty x)⟩,
    fun c hc => h.dirs c hc.1, fun j hj => ⟨⟨(h.listed j (hsub hj)).1, hvacant j (hsub hj)⟩, (h.listed j (hsub hj)).2⟩,
    fun i hi j hj => h.apart i (hsub hi) j (hsub hj), fun j hj => h.stands j (hsub hj), fun j hj => h.made j (hsub hj),
    fun j hj => ⟨(h.subdirs j hj.1).1, (h.subdirs j hj.1).2, halone j hj.1 hj.2⟩⟩
  have hparent : (σ i).parentClus = i / 2 ^ 32 := (h.stands i (.inl i.2.1)).parent
  exact fun heq => hvacant i (.inl i.2.1) (hparent.symm.trans heq)

/-! ### A file or a directory that comes -/

theorem Tree.gains_withFile (t : Tree) (k n : Nat) : t.Gains k n (t.withFile k n) :=
  ⟨Set.insert_union .., rfl, subset_rfl, subset_rfl, fun _ _ => rfl⟩

theorem Tree.gains_withDir (hnew : c ∉ t.dirs) : t.Gains k n (t.withDir k n c l) :=
  ⟨Set.union_insert .., rfl, Set.subset_insert _ _, Set.subset_insert _ _,
    fun _ hc => Function.update_of_ne (ne_of_mem_of_not_mem hc hnew) ..⟩

theorem Tree.Gains.forall {P : Nat → File → Prop} (h : t.Gains k n t') (hnew : P k f)
    (hold : ∀ j ∈ t.inos, j ≠ k → P j (σ j)) : ∀ j ∈ t'.inos, P j (Function.update σ k f j) := by
  intro j hj
  rw [h.inos] at hj
  by_cases hjk : j = k
  · rw [hjk, Function.update_self]
    exact hnew
  · rw [Function.update_of_ne hjk]
    exact hold j (hj.resolve_left hjk) hjk

/-- A directory of the volume has a group for the object. -/
structure Tree.Joins (cs : Charset) (t : Tree) (fs : FAT32fs) (k n : Nat) (f : File) : Prop where
  new : k ∉ t.inos
  dir : k / 2 ^ 32 ∈ t.dirs
  consecutive : Consecutive (t.chain (k / 2 ^ 32))
  group : fs.GroupOf (k / 2 ^ 32) (t.chain (k / 2 ^ 32)) (k % 2 ^ 32) n
  apart : ∀ j ∈ t.inos, j / 2 ^ 32 = k / 2 ^ 32 → t.last j ≠ k % 2 ^ 32 + n
  made : ∃ f₀, File.fromIno cs fs k = some (some f₀) ∧ f₀.name = f.name ∧ f₀.isDir = f.isDir
  stands : f.Stands k

theorem Tree.Joins.ne (h : t.Joins cs fs k n f) (hj : j ∈ t.inos) : j ≠ k := ne_of_mem_of_not_mem hj h.new

theorem Tree.Joins.listed (hv : t.Volume cs fs σ) (h : t.Joins cs fs k n f) (hg : t.Gains k n t') :
    ∀ j ∈ t'.inos, j / 2 ^ 32 ∈ t'.dirs ∧ t'.Listed fs j := by
  intro j hj
  rw [hg.inos] at hj
  rw [Tree.Listed, hg.longs]
  rcases hj with rfl | hj
  · refine ⟨hg.dirs h.dir, ?_⟩
    rw [hg.chain _ h.dir, Function.update_self]
    exact h.group
  · obtain ⟨hdir, hl⟩ := hv.listed j hj
    refine ⟨hg.dirs hdir, ?_⟩
    rw [hg.chain _ hdir, Function.update_of_ne (h.ne hj)]
    exact hl

theorem Tree.Joins.apart_all (hv : t.Volume cs fs σ) (h : t.Joins cs fs k n f) (hg : t.Gains k n t') :
    ∀ i ∈ t'.inos, ∀ j ∈ t'.inos, i / 2 ^ 32 = j / 2 ^ 32 → t'.last i = t'.last j → i = j := by
  have hself : t'.last k = k % 2 ^ 32 + n := by rw [Tree.last, hg.longs, Function.update_self]
  have hother : ∀ {j}, j ∈ t.inos → t'.last j = t.last j := fun {j} hj => by
    rw [Tree.last, Tree.last, hg.longs, Function.update_of_ne (h.ne hj)]
  intro i hi j hj
  rw [hg.inos] at hi hj
  rcases hi with rfl | hi
  · rcases hj with rfl | hj
    · exact fun _ _ => rfl
    · rw [hself, hother hj]
      exact fun hdir hlast => absurd hlast.symm (h.apart j hj hdir.symm)
  · rcases hj with rfl | hj
    · rw [hself, hother hi]
      exact fun hdir hlast => absurd hlast (h.apart i hi hdir)
    · rw [hother hi, hother hj]
      exact hv.apart i hi j hj

theorem Consecutive.chainSector_eq {bpb : BPB} (hseq : Consecutive l) (hs : bpb.Sound) (hdata : ∀ x ∈ l, bpb.DataClus x)
    {q : Nat} (hq : q < l.length * bpb.secPerClus.toNat) :
    bpb.chainSector l q = getFirstSectorOfCluster bpb (l.headD 0) + q := by
  obtain ⟨hlt, hsec⟩ := BPB.chainSector_eq hq
  have hat := hseq _ hlt
  rw [List.getD_eq_getElem _ _ hlt] at hat
  have hhead : bpb.DataClus (l.headD 0) := by
    obtain ⟨x, l, rfl⟩ := List.exists_cons_of_ne_nil (List.ne_nil_of_length_pos (Nat.zero_lt_of_lt hlt))
    exact hdata x List.mem_cons_self
  have hrest := Nat.div_add_mod' q bpb.secPerClus.toNat
  rw [hsec, hs.firstSectorOfCluster (hdata _ (List.getElem_mem hlt)), hs.firstSectorOfCluster hhead, hat,
    Nat.sub_add_comm hhead.1, Nat.add_mul]
  omega

theorem Tree.Joins.reach (hv : t.Volume cs fs σ) (h : t.Joins cs fs k n f) : f.EntryReach fs.bpb := by
  have hs := hv.mounted.sound
  have hchain := hv.chain h.dir
  have hin := hs.sector_lt_of_pos (slots_inside h.group.inside 0 (Nat.zero_le n)).1
  have hsec := h.consecutive.chainSector_eq hs hchain.data hin
  have hbound := (BPB.chainSector_bounds hs hchain.data hin).2
  have hhead : (t.chain (k / 2 ^ 32)).headD 0 = k / 2 ^ 32 := h.group.chain.headD hs
  rw [hsec, hhead, Nat.add_zero, Nat.mul_comm] at hbound
  rw [File.EntryReach, h.stands.parent, h.stands.entry]
  exact hbound.trans fs.bpb.totSec32.toNat_lt

private theorem Tree.heads_withFile (hempty : f.fstClus = 0) :
    ((t.withFile k n).run fs (Function.update σ k f)).heads (t.withFile k n).dirs ⊆ (t.run fs σ).heads t.dirs := by
  rintro x (hx | ⟨hne, ⟨j, hj⟩, hlive, rfl⟩)
  · exact .inl hx
  · change (Function.update σ k f j).fstClus ≠ 0 at hne
    change (Function.update σ k f j).isDeleted = false at hlive
    by_cases hjk : j = k
    · rw [hjk, Function.update_self] at hne
      exact absurd hempty hne
    · rw [Function.update_of_ne hjk] at hne hlive
      have hsame : (Function.update σ k f j).fstClus = (σ j).fstClus := congrArg File.fstClus (Function.update_of_ne hjk f σ)
      exact .inr ⟨fun heq => hne (hsame.symm.trans heq), ⟨j, hj.resolve_left hjk⟩, hlive, hsame.symm⟩

/-- The tree with the new file. -/
theorem Tree.Volume.withFile (hv : t.Volume cs fs σ) (h : t.Joins cs fs k n f) (hdir : f.isDir = false)
    (hempty : f.fstClus = 0 ∧ f.fileSz_ = 0) : (t.withFile k n).Volume cs fs (Function.update σ k f) := by
  have hg := t.gains_withFile k n
  have hzero : 0 ∉ t.dirs := fun hmem => zero_notMem_heads hv.owners (.inl hmem)
  have hplaced : f.Placed fs [] := ⟨.inl ⟨hempty.1, rfl⟩, .inl h.stands.uncached⟩
  have hall : ∀ {P : Nat → File → Prop}, P k f → (∀ j : t.files, P j (σ j)) →
      ∀ i : (t.withFile k n).files, P i (Function.update σ k f i) := by
    rintro P hk hold ⟨i, hi⟩
    rcases hi with rfl | hi
    · rwa [Function.update_self]
    · rw [Function.update_of_ne (h.ne (.inl hi))]
      exact hold ⟨i, hi⟩
  have hsubdir : ∀ {j}, j ∈ t.subdirs → Function.update σ k f j = σ j := fun hj => Function.update_of_ne (h.ne (.inr hj)) ..
  refine ⟨hv.boot, ⟨⟨hv.mounted, hv.files.sane.owners.mono (Tree.heads_withFile hempty.1)⟩, hv.files.hint,
    hv.files.secCnt, ?_, ?_, ?_, ?_, fun i j hi hj hij => ?_, ?_, fun x hx => absurd hx (Set.notMem_empty x)⟩, hv.dirs,
    h.listed hv hg, h.apart_all hv hg, hg.forall (P := fun j g => g.Stands j) h.stands fun j hj _ => hv.stands j hj,
    hg.forall (P := fun j g => ∃ f₀, File.fromIno cs fs j = some (some f₀) ∧ f₀.name = g.name ∧ f₀.isDir = g.isDir)
      h.made fun j hj _ => hv.made j hj, fun j hj => ?_⟩
  · exact hall (P := fun _ g => g.isDir = false) hdir hv.files.file
  · exact hall (P := fun _ g => g.parentClus ∈ t.dirs) (h.stands.parent.symm ▸ h.dir) hv.files.parent
  · exact hall (P := fun _ g => g.EntryReach fs.bpb) (h.reach hv) hv.files.reach
  · refine hall (P := fun _ g => g.isDeleted = false → ∃ l, g.Placed fs l ∧ l.length = fs.bpb.clusFor g.fileSz_)
      (fun _ => ⟨[], hplaced, ?_⟩) hv.files.chain
    rw [hempty.2]
    rfl
  · by_cases hik : i.1 = k
    · have hself : Function.update σ k f i = f := (congrArg (Function.update σ k f) hik).trans (Function.update_self ..)
      exact fun _ => (congrArg File.fstClus hself).trans hempty.1
    · have hi' := i.2.resolve_left hik
      have hsame : Function.update σ k f i = σ i := Function.update_of_ne hik ..
      change (Function.update σ k f i).isDeleted = false at hi
      change (Function.update σ k f j).isDeleted = false at hj
      change (Function.update σ k f i).fstClus = (Function.update σ k f j).fstClus → (Function.update σ k f i).fstClus = 0
      rw [hsame] at hi ⊢
      by_cases hjk : j.1 = k
      · rw [hjk, Function.update_self]
        exact fun heq => heq.trans hempty.1
      · rw [Function.update_of_ne hjk] at hj ⊢
        exact hv.files.apart ⟨i, hi'⟩ ⟨j, j.2.resolve_left hjk⟩ hi hj fun heq => hij (Subtype.ext (Subtype.mk.inj heq))
  · refine hall (P := fun _ g => g.isDeleted = false → g.fstClus ∉ t.dirs) (fun _ => ?_) hv.files.notRest
    rwa [hempty.1]
  · rw [hsubdir hj]
    exact hv.subdirs j hj

/-- The tree with the new directory. -/
theorem Tree.Volume.withDir (hv : t.Volume cs fs σ) (h : t.Joins cs fs k n f) (hdir : f.isDir = true)
    (hnew : f.fstClus ∉ (t.run fs σ).heads t.dirs) (hs : fs.Sane (insert f.fstClus ((t.run fs σ).heads t.dirs)))
    (hl : fs.bpb.ChainOf fs.table f.fstClus l) : (t.withDir k n f.fstClus l).Volume cs fs (Function.update σ k f) := by
  have hg : t.Gains k n (t.withDir k n f.fstClus l) := Tree.gains_withDir fun hmem => hnew (.inl hmem)
  have hrun : (t.withDir k n f.fstClus l).run fs (Function.update σ k f) = t.run fs σ :=
    congrArg (FileRun.mk fs · ∅) (funext fun j => Function.update_of_ne (h.ne (.inl j.2)) ..)
  have hheads : (t.run fs σ).heads (insert f.fstClus t.dirs) ⊆ insert f.fstClus ((t.run fs σ).heads t.dirs) := by
    rintro x ((rfl | hx) | hx)
    · exact .inl rfl
    · exact .inr (.inl hx)
    · exact .inr (.inr hx)
  have hfiles : (t.run fs σ).Consistent (insert f.fstClus t.dirs) := by
    refine { hv.files with
      sane := ⟨hv.mounted, hs.owners.mono hheads⟩
      parent := fun i => .inr (hv.files.parent i)
      notRest := fun i hi hmem => hmem.elim (fun heq => ?_) (hv.files.notRest i hi) }
    rcases hv.head (.inl i.2) with hzero | hmem
    · exact zero_notMem_heads hs.owners (.inl (hzero.symm.trans heq))
    · exact hnew (heq ▸ hmem)
  refine ⟨hv.boot, hrun.symm ▸ hfiles, fun c hc => ?_, h.listed hv hg, h.apart_all hv hg,
    hg.forall (P := fun j g => g.Stands j) h.stands fun j hj _ => hv.stands j hj,
    hg.forall (P := fun j g => ∃ f₀, File.fromIno cs fs j = some (some f₀) ∧ f₀.name = g.name ∧ f₀.isDir = g.isDir)
      h.made fun j hj _ => hv.made j hj, fun j hj => ?_⟩
  · rcases hc with rfl | hc
    · have hself : (t.withDir k n f.fstClus l).chain f.fstClus = l := Function.update_self ..
      rwa [hself]
    · rw [hg.chain c hc]
      exact hv.dirs c hc
  · by_cases hjk : j = k
    · rw [hjk, Function.update_self]
      exact ⟨hdir, .inl rfl⟩
    · rw [Function.update_of_ne hjk]
      obtain ⟨hisDir, hhead⟩ := hv.subdirs j (hj.resolve_left hjk)
      exact ⟨hisDir, .inr hhead⟩

end reshape

end FuseFat32
