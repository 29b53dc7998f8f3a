import FuseFat32.Fs.Holds
import FuseFat32.Fs.Truncate

/-!
# What the map may hold

The map holds objects of files that a client has asked for. Each of them belongs to a group of entries in a directory of the volume, where the walks of `fromIno` and `sync` keep to the group. No more has to be known of the map: together with the entries of the files that are asked for next, its objects are those of one row of groups.
-/

namespace FuseFat32

open LinkedTable Segments WriteBack

/-- The group begins where it is counted from: the entry in front belongs to no group with it. -/
structure FAT32fs.WholeGroup (fs : FAT32fs) (clus : Nat) (l : List Nat) (n m : Nat) : Prop extends
    FAT32fs.GroupOf fs clus l n m where
  first : ∀ i, n = i + 1 → isEmptyDirEntry (fs.entryAt l i) = true ∨ isLongDirEntry (fs.entryAt l i) = false

/-- The object belongs to the group with the inode number `k` of a directory of the volume. -/
structure File.Belongs (cs : Charset) (fs : FAT32fs) (heads : Set Nat) (k : Nat) (f : File) : Prop where
  sits : File.Sits { f with clusChain_ := none } k
  parent : k / 2 ^ 32 ∈ heads
  group : ∃ l m, fs.WholeGroup (k / 2 ^ 32) l (k % 2 ^ 32) m
  made : ∃ f₀, File.fromIno cs fs k = some (some f₀) ∧ f₀.name = f.name ∧ f₀.isDir = f.isDir
  placed : ∃ l, f.Placed fs l

/-- The objects of the map belong to groups of the volume. -/
structure Driver.Belongs (cs : Charset) (heads : Set Nat) (s : Driver) : Prop where
  room : 0 < s.files.maxSize
  distinct : s.files.KeysNodup
  objects : ∀ p ∈ s.files.list, p.2.Belongs cs s.fs heads p.1

/-- The object that `getFileByIno` has for the inode number: that of the map, or else what the entries make. -/
def Driver.Object (cs : Charset) (s : Driver) (k : Nat) (f : File) : Prop :=
  (k, f) ∈ s.files.list ∨ (∀ p ∈ s.files.list, p.1 ≠ k) ∧ File.fromIno cs s.fs k = some (some f)

/-! ### Groups side by side -/

section groups

variable {cs : Charset} {fs : FAT32fs} {heads : Set Nat} {l l' : List Nat} {clus clus' n n' m m' i j k : Nat} {f : File}

theorem FAT32fs.GroupOf.slot_inside (h : fs.GroupOf clus l n m) (hj : j ≤ m) :
    kDirEntrySize * (n + j) < l.length * bytesPerClus fs.bpb :=
  (slots_inside h.inside j hj).1

private theorem FAT32fs.WholeGroup.start_eq (h : fs.WholeGroup clus l n m) (h' : fs.WholeGroup clus l n' m')
    (heq : n + m = n' + m') : n = n' := by
  have hle : ∀ {a b c d : Nat}, fs.WholeGroup clus l a c → fs.WholeGroup clus l b d → a + c = b + d → b ≤ a := by
    intro a b c d ha hb hsum
    by_contra hlt
    rcases hb.first (b - 1) (by omega) with hempty | hshort
    · have hlive := ha.live.nonempty (b - 1 - a) (by omega)
      rw [Nat.add_sub_cancel' (by omega), hempty] at hlive
      exact Bool.noConfusion hlive
    · have hlong := ha.live.long (b - 1 - a) (by omega)
      rw [Nat.add_sub_cancel' (by omega), hshort] at hlong
      exact Bool.noConfusion hlong
  exact Nat.le_antisymm (hle h' h heq.symm) (hle h h' heq)

theorem FAT32fs.WholeGroup.slot_ne (h : fs.WholeGroup clus l n m) (h' : fs.WholeGroup clus' l' n' m') (hm : fs.Mounted)
    (howners : Owners fs.table Eoc fs.bpb.DataClus heads) (hclus : clus ∈ heads) (hclus' : clus' ∈ heads) (hi : i ≤ m)
    (hne : clus = clus' → n = n' → i ≠ m') : fs.bpb.slot l (n + i) ≠ fs.bpb.slot l' (n' + m') := by
  have hs := hm.sound
  have hin := h.slot_inside hi
  have hin' := h'.slot_inside le_rfl
  have hwalk : ∀ {c : Nat} {ls : List Nat}, c ∈ heads → fs.bpb.ChainOf fs.table c ls → Walk fs.table Eoc c ls := by
    rintro c ls hc (⟨rfl, -⟩ | ⟨-, hchain⟩)
    · exact absurd hc (zero_notMem_heads howners)
    · exact hchain.walk
  by_cases hdir : clus = clus'
  · subst hdir
    obtain rfl : l = l' := h.chain.unique h'.chain
    intro heq
    have hnum := BPB.slot_inj hs h.chain.data h.chain.nodup hin hin' heq
    rcases Nat.lt_or_eq_of_le hi with hlt | rfl
    · -- one group has a long entry there and the other one its short entry
      have hlong := h.live.long i hlt
      rw [hnum] at hlong
      exact absurd hlong (by rw [Bool.not_eq_true]; exact h'.live.short)
    · have hstart := h.start_eq h' hnum
      exact hne rfl hstart (by omega)
  · refine fun heq => BPB.chainSector_disjoint hs h.chain.data h'.chain.data (fun x hx => ?_)
      (hs.sector_lt_of_pos hin) (hs.sector_lt_of_pos hin') (congrArg Prod.fst heq)
    exact howners.notMem_of_mem hclus hclus' (Ne.symm hdir) (hwalk hclus h.chain) (hwalk hclus' h'.chain) hx

theorem File.Belongs.forget (h : f.Belongs cs fs heads k) : File.Belongs cs fs heads k { f with clusChain_ := none } := by
  obtain ⟨l, hl⟩ := h.placed
  exact ⟨h.sits, h.parent, h.group, h.made, l, hl.chain, .inl rfl⟩

theorem File.Belongs.mayCache (h : f.Belongs cs fs heads k) : File.MayCache fs { f with clusChain_ := none } f :=
  ⟨⟨f.clusChain_, rfl⟩, h.placed⟩

theorem File.Belongs.ino_eq (h : f.Belongs cs fs heads k) : f.ino = k := h.sits.ino_eq

theorem File.Belongs.ne_root (h : f.Belongs cs fs heads k) : k ≠ kRootDirIno := by
  obtain ⟨l, m, hgroup⟩ := h.group
  have hlisted : Shelf.Listed ⟨∅, fun _ => l, fun _ => m⟩ fs k := hgroup.toGroupOf
  exact hlisted.ne_root

private theorem Shelf.exists_keeps (hm : fs.Sane heads) {keys : Set Nat} {σ : Nat → File}
    (hσ : ∀ k ∈ keys, (σ k).Belongs cs fs heads k) (huncached : ∀ k ∈ keys, (σ k).clusChain_ = none) :
    ∃ sh : Shelf, sh.keys = keys ∧ sh.Keeps cs fs σ := by
  have howners := hm.owners
  rw [hm.bpb] at howners
  choose! l m hgroup using fun k (hk : k ∈ keys) => (hσ k hk).group
  -- groups of one directory have one chain
  have hfactors : (fun k : keys => l k).FactorsThrough fun k : keys => (k : Nat) / 2 ^ 32 := by
    rintro ⟨j, hj⟩ ⟨k, hk⟩ (heq : j / 2 ^ 32 = k / 2 ^ 32)
    have hk' := (hgroup k hk).chain
    rw [← heq] at hk'
    exact (hgroup j hj).chain.unique hk'
  obtain ⟨chain, hchain⟩ : ∃ chain : Nat → List Nat, ∀ k ∈ keys, chain (k / 2 ^ 32) = l k :=
    ⟨_, fun k hk => hfactors.extend_apply (fun _ => []) ⟨k, hk⟩⟩
  have hwhole : ∀ k ∈ keys, fs.WholeGroup (k / 2 ^ 32) (chain (k / 2 ^ 32)) (k % 2 ^ 32) (m k) := fun k hk =>
    (hchain k hk).symm ▸ hgroup k hk
  refine ⟨⟨keys, chain, m⟩, rfl, hm.toMounted, fun k hk => (hwhole k hk).toGroupOf, fun j hj k hk i hi hne => ?_,
    fun k hk => ?_, fun k hk => (hσ k hk).made, fun k hk => (hσ k hk).placed⟩
  · refine (hwhole j hj).slot_ne (hwhole k hk) hm.toMounted howners (hσ j hj).parent (hσ k hk).parent hi
      fun hclus hstart => hne ?_
    rw [← Nat.div_add_mod' j (2 ^ 32), ← Nat.div_add_mod' k (2 ^ 32), hclus, hstart]
  · have hsits := (hσ k hk).sits
    rwa [show { σ k with clusChain_ := none } = σ k by rw [← huncached k hk]] at hsits

theorem File.Belongs.uncached (h : f.Belongs cs fs heads k) (hm : fs.Mounted)
    (hmade : File.fromIno cs fs k = some (some f)) : f.clusChain_ = none := by
  obtain ⟨l, m, hgroup⟩ := h.group
  rw [← Nat.div_add_mod' k (2 ^ 32)] at hmade
  rw [hgroup.made_eq hm hmade]
  rfl

end groups

/-! ### Groups of a layout -/

section layout

variable {cs : Charset} {fs : FAT32fs} {heads : Set Nat} {dir : File} {l : List Nat} {n : Nat} {g : EntryGroup}
  {name : List UInt8} {tail : List LongDirEntry} {segs : List (Segment LongDirEntry EntryGroup)}

/-- The inode number of a group of the directory with first cluster `fst_clus`. -/
def groupIno (fst_clus : Nat) (p : Nat × EntryGroup) : Nat := fst_clus * 2 ^ 32 + p.1

/-- In front of a group there is a deleted entry or the short entry of another group. -/
theorem GroupLayout.before (h : GroupLayout (fs.dirEntries l) segs tail) (hmem : (n, g) ∈ blocks EntryGroup.entries 0 segs)
    {i : Nat} (hi : n = i + 1) : isEmptyDirEntry (fs.entryAt l i) = true ∨ isLongDirEntry (fs.entryAt l i) = false := by
  have hlt := (h.liveGroup hmem).1
  obtain ⟨xs, zs, rfl, hn⟩ := exists_of_mem_blocks hmem
  rw [Nat.zero_add] at hn
  have hat : (Segments.flat EntryGroup.entries xs)[i]? = some (fs.entryAt l i) := by
    rw [← FAT32fs.getElem?_dirEntries (show i < fs.bpb.dirSlots l by omega), h.flat, flat_append, List.append_assoc,
      List.getElem?_append_left (by omega)]
  rcases List.eq_nil_or_concat xs with rfl | ⟨xs, x, rfl⟩
  · simp [hi] at hn
  rw [List.concat_eq_append, flat_append, List.length_append] at hn
  rw [List.concat_eq_append, flat_append] at hat
  cases x with
  | blank e =>
    rw [flat_cons, elems_blank, flat_nil, List.append_nil, List.length_singleton] at hn
    rw [flat_cons, elems_blank, flat_nil, List.append_nil, show i = (Segments.flat EntryGroup.entries xs).length by omega,
      List.getElem?_concat_length, Option.some.injEq] at hat
    refine .inl ?_
    rw [show i = (Segments.flat EntryGroup.entries xs).length by omega, ← hat]
    exact (isEmpty_of_deleted (h.deleted e (by simp))).1
  | block g' =>
    rw [flat_cons, elems_block, flat_nil, List.append_nil, EntryGroup.entries, List.length_append,
      List.length_singleton] at hn
    rw [flat_cons, elems_block, flat_nil, List.append_nil, EntryGroup.entries, ← List.append_assoc,
      show i = (Segments.flat EntryGroup.entries xs ++ g'.longs).length by rw [List.length_append]; omega,
      List.getElem?_concat_length, Option.some.injEq] at hat
    refine .inr ?_
    rw [show i = (Segments.flat EntryGroup.entries xs ++ g'.longs).length by rw [List.length_append]; omega, ← hat]
    exact g'.isShort

/-- The object of a group of a directory belongs to it. -/
theorem GroupLayout.belongs (h : GroupLayout (fs.dirEntries l) segs tail) (hm : fs.Mounted) (hf : dir.Placed fs l)
    (hhead : dir.fstClus ∈ heads) (hmem : (n, g) ∈ blocks EntryGroup.entries 0 segs)
    (horder : fs.bpb.SlotsInOrder l n g.longs.length) (hname : g.name cs = some name)
    (hchain : ∃ lf, fs.bpb.ChainOf fs.table (readEntryClusNo (castLongDirEntryToShort g.short)) lf) :
    File.fromIno cs fs (groupIno dir.fstClus (n, g)) =
        some (some (.ofEntry dir.fstClus n name (castLongDirEntryToShort g.short))) ∧
      File.Belongs cs fs heads (groupIno dir.fstClus (n, g))
        (.ofEntry dir.fstClus n name (castLongDirEntryToShort g.short)) := by
  have hmade := h.fromIno_inOrder hm hf hmem horder hname
  obtain ⟨hlt, -, hlive⟩ := h.liveGroup hmem
  have hn : n < 2 ^ 32 := by
    have hbytes := hm.sound.entry_lt (l := l) (n := n) (by omega)
    rw [show kDirEntrySize = 32 from rfl] at hbytes
    omega
  have hclus : groupIno dir.fstClus (n, g) / 2 ^ 32 = dir.fstClus := by
    rw [groupIno]
    omega
  have hnum : groupIno dir.fstClus (n, g) % 2 ^ 32 = n := by
    rw [groupIno]
    omega
  have hin : kDirEntrySize * (n + g.longs.length + 1) ≤ u32 (l.length * bytesPerClus fs.bpb) := by
    rw [← hm.sound.dirSlots_mul]
    exact Nat.mul_le_mul_left _ hlt
  obtain ⟨lf, hlf⟩ := hchain
  refine ⟨hmade, ⟨hclus.symm, hnum.symm, rfl, rfl, ?_, ?_⟩, hclus.symm ▸ hhead, ?_, ⟨_, hmade, rfl, rfl⟩, lf, hlf, .inl rfl⟩
  · have hhigh := (castLongDirEntryToShort g.short).fstClusHigh.toNat_lt
    have hlow := (castLongDirEntryToShort g.short).fstClusLow.toNat_lt
    change readEntryClusNo _ < _
    rw [readEntryClusNo]
    omega
  · exact (castLongDirEntryToShort g.short).fileSz.toNat_lt
  · rw [hclus, hnum]
    exact ⟨l, g.longs.length, ⟨hf.chain, hin, horder, hlive⟩, fun i hi => h.before hmem hi⟩

end layout

/-! ### The map and the entries -/

section driver

variable {cs : Charset} {s : Driver} {heads : Set Nat}

theorem Driver.belongs_nil (cs : Charset) (heads : Set Nat) (fs : FAT32fs) {n : Nat} (hn : 0 < n) :
    Driver.Belongs cs heads ⟨fs, ⟨n, []⟩⟩ :=
  ⟨hn, List.nodup_nil, fun _ h => absurd h List.not_mem_nil⟩

/-- The objects of the map and those of the entries in `base` are objects that a handler can work with. -/
theorem Driver.Belongs.holds (h : s.Belongs cs heads) (hm : s.fs.Sane heads) (base : Set Nat) (others : List Nat)
    (hbase : ∀ k ∈ base, ∃ f, File.fromIno cs s.fs k = some (some f) ∧ f.Belongs cs s.fs heads k)
    (hothers : ∀ k ∈ base, k ∉ others) :
    ∃ (sh : Shelf) (σ : Nat → File), sh.keys = base ∪ {k | k ∉ others ∧ ∃ g, (k, g) ∈ s.files.list} ∧
      s.HoldsBy (sh.reading cs) sh.keys σ [] others ∧
      ∀ k ∈ sh.keys, ∃ f, s.Object cs k f ∧ σ k = { f with clusChain_ := none } := by
  set keys := base ∪ {k | k ∉ others ∧ ∃ g, (k, g) ∈ s.files.list} with hkeys
  have hnonempty : Nonempty File := ⟨dirAt 0⟩
  -- what the map has goes before the entries
  have hobject : ∀ k ∈ keys, ∃ f, (∃ g, (k, g) ∈ s.files.list ∧ f = { g with clusChain_ := none }) ∨
      (∀ p ∈ s.files.list, p.1 ≠ k) ∧ File.fromIno cs s.fs k = some (some f) ∧ f.Belongs cs s.fs heads k := by
    intro k hk
    by_cases hex : ∃ g, (k, g) ∈ s.files.list
    · obtain ⟨g, hg⟩ := hex
      exact ⟨_, .inl ⟨g, hg, rfl⟩⟩
    · obtain ⟨f, hf⟩ := hbase k (hk.resolve_right fun hmap => hex hmap.2)
      exact ⟨f, .inr ⟨fun p hp heq => hex ⟨p.2, heq ▸ hp⟩, hf⟩⟩
  choose! σ hσ using hobject
  have hheld : ∀ p ∈ s.files.list, p.1 ∈ keys → σ p.1 = { p.2 with clusChain_ := none } := by
    intro p hp hk
    rcases hσ p.1 hk with ⟨g, hg, heq⟩ | ⟨habsent, -⟩
    · rw [heq, List.inj_on_of_nodup_map h.distinct hp hg rfl]
    · exact absurd rfl (habsent p hp)
  obtain ⟨sh, hsh, hkeeps⟩ := Shelf.exists_keeps (σ := σ) hm
    (fun k hk => (hσ k hk).elim (fun ⟨g, hg, heq⟩ => heq ▸ (h.objects _ hg).forget) fun hmade => hmade.2.2)
    (fun k hk => (hσ k hk).elim (fun ⟨g, _, heq⟩ => heq ▸ rfl) fun hmade => hmade.2.2.uncached hm.toMounted hmade.2.1)
  refine ⟨sh, σ, hsh, ⟨h.room, h.distinct, fun p hp => ⟨(h.objects p hp).ino_eq, (h.objects p hp).ne_root⟩, hkeeps, ?_,
    fun p hp => ?_, fun k hk hnot => ?_⟩, fun k hk => ?_⟩
  · exact h.distinct.sublist ((List.filter_sublist).map _)
  · obtain ⟨hmem, hother⟩ := List.mem_filter.mp hp
    have hk : p.1 ∈ keys := .inr ⟨by simpa [heldInos] using hother, p.2, hmem⟩
    refine ⟨hsh ▸ hk, ?_⟩
    change File.MayCache s.fs (σ p.1) p.2
    rw [hheld p hmem hk]
    exact (h.objects p hmem).mayCache
  · rw [hsh] at hk
    rcases hσ k hk with ⟨g, hg, -⟩ | ⟨-, hmade, -⟩
    · have hother : k ∉ others := hk.elim (hothers k) fun hmap => hmap.1
      exact absurd rfl (hnot (k, g) (List.mem_filter.mpr ⟨hg, by simpa [heldInos] using hother⟩))
    · exact hmade
  · rcases hσ k (hsh ▸ hk) with ⟨g, hg, heq⟩ | ⟨habsent, hmade, hbelongs⟩
    · exact ⟨g, .inl hg, heq⟩
    · refine ⟨σ k, .inr ⟨habsent, hmade⟩, ?_⟩
      rw [← hbelongs.uncached hm.toMounted hmade]

end driver

end FuseFat32
