import FuseFat32.Fs.Belongs
import FuseFat32.Fs.Create

/-!
# Objects dropped in the middle of a change

When a file is created the map drops an object for the new one, and its destructor comes after the entries of the new group have been written. The object writes to the short entry of its own group, which is none of the new entries, so the volume is what it would be if the map had dropped the object first.
-/

namespace FuseFat32

open LinkedTable Segments

/-! ### Groups on a volume that has been retouched -/

section retouched

variable {cs : Charset} {fs fs' : FAT32fs} {heads : Set Nat} {f : File} {l : List Nat} {clus k n m : Nat}
  {e e' : LongDirEntry}

private theorem LongDirEntry.Kept.of_long (h : e.Kept e') (hlong : isLongDirEntry e = true) : e' = e :=
  h.resolve_right fun hshort => Bool.noConfusion (hshort.1.symm.trans hlong)

theorem LongDirEntry.Kept.sameName (h : e.Kept e') :
    (castLongDirEntryToShort e).SameName (castLongDirEntryToShort e') := by
  rcases h with rfl | ⟨-, hsame⟩
  · exact ⟨rfl, rfl⟩
  · exact hsame

theorem FAT32fs.Retouched.entryAt (h : fs.Retouched fs') (l : List Nat) (n : Nat) :
    (fs.entryAt l n).Kept (fs'.entryAt l n) := by
  rw [FAT32fs.entryAt, FAT32fs.entryAt, h.bpb]
  exact h.entry _ (BPB.slot_aligned ..)

theorem FAT32fs.Retouched.sane (h : fs.Retouched fs') (hs : fs.Sane heads) :
    fs'.Sane heads ∧ ∀ x, fs.bpb.DataClus x → fs'.table x = fs.table x := by
  rw [h.eq]
  exact hs.of_data fs'.device h.onlyData.secCnt h.onlyData.value

theorem FAT32fs.Retouched.chainOf (h : fs.Retouched fs') (hm : fs.Mounted) (hl : fs.bpb.ChainOf fs.table clus l) :
    fs.bpb.ChainOf fs'.table clus l :=
  hl.congr fun x hx => (h.mounted hm).2 x (hl.data x hx)

theorem FAT32fs.WholeGroup.retouched (h : fs.WholeGroup clus l n m) (hm : fs.Mounted) (hr : fs.Retouched fs') :
    fs'.WholeGroup clus l n m := by
  refine ⟨⟨hr.bpb.symm ▸ hr.chainOf hm h.chain, hr.bpb.symm ▸ h.inside, hr.bpb.symm ▸ h.order, fun j hj => ?_,
    fun j hj => ?_, ?_⟩, fun i hi => ?_⟩
  · exact (hr.entryAt l (n + j)).kind.2.1.trans (h.live.nonempty j hj)
  · exact (hr.entryAt l (n + j)).kind.2.2.2.trans (h.live.long j hj)
  · exact (hr.entryAt l (n + m)).kind.2.2.2.trans h.live.short
  · rw [(hr.entryAt l i).kind.2.1, (hr.entryAt l i).kind.2.2.2]
    exact h.first i hi

theorem File.Belongs.retouched (h : f.Belongs cs fs heads k) (hm : fs.Mounted) (hr : fs.Retouched fs') :
    f.Belongs cs fs' heads k := by
  obtain ⟨l, m, hgroup⟩ := h.group
  obtain ⟨f₀, hmade, hname, hdir⟩ := h.made
  have hgroup' := hgroup.retouched hm hr
  obtain ⟨lf, hplaced⟩ := h.placed
  refine ⟨h.sits, h.parent, ⟨l, m, hgroup'⟩, ?_, lf, hr.placed hm hplaced⟩
  rw [← Nat.div_add_mod' k (2 ^ 32)] at hmade ⊢
  have hshort := hr.entryAt l (k % 2 ^ 32 + m)
  have hcast : castShortDirEntryToLong (castLongDirEntryToShort (fs'.entryAt l (k % 2 ^ 32 + m))) =
      fs'.entryAt l (k % 2 ^ 32 + m) :=
    LongDirEntry.bytes_injective (by rw [bytes_castShortDirEntryToLong, bytes_castLongDirEntryToShort])
  have hold := hgroup.made_eq hm hmade
  have hm' := (hr.mounted hm).1
  rw [hr.eq] at hgroup' hm' hshort hcast ⊢
  refine ⟨_, hgroup.fromIno_set hm hm' hgroup'.toGroupOf hshort.sameName hcast.symm (fun j hj => ?_) hmade, hname, ?_⟩
  · have hlong := hr.entryAt l (k % 2 ^ 32 + j)
    rw [hr.eq] at hlong
    exact hlong.of_long (hgroup.live.long j hj)
  · rw [← hdir, hold]
    change isDirectory _ = isDirectory _
    rw [isDirectory, isDirectory, hshort.sameName.attr]

/-- The first cluster in the short entry is 0 or one of `heads`. -/
def LongDirEntry.FirstIn (heads : Set Nat) (e : LongDirEntry) : Prop :=
  readEntryClusNo (castLongDirEntryToShort e) = 0 ∨ readEntryClusNo (castLongDirEntryToShort e) ∈ heads

/-- The objects that have written themselves back have their first clusters among `heads`. -/
structure FAT32fs.RetouchedBy (heads : Set Nat) (fs fs' : FAT32fs) : Prop extends fs.Retouched fs' where
  first : ∀ x : Nat × Nat, x.2 % kDirEntrySize = 0 →
    fs'.device.entry x = fs.device.entry x ∨ (fs'.device.entry x).FirstIn heads

theorem FAT32fs.RetouchedBy.refl (heads : Set Nat) (fs : FAT32fs) : FAT32fs.RetouchedBy heads fs fs :=
  ⟨.refl fs, fun _ _ => .inl rfl⟩

theorem FAT32fs.RetouchedBy.trans {fs₁ : FAT32fs} (h : FAT32fs.RetouchedBy heads fs fs₁)
    (h' : FAT32fs.RetouchedBy heads fs₁ fs') : FAT32fs.RetouchedBy heads fs fs' := by
  refine ⟨h.toRetouched.trans h'.toRetouched, fun x hx => ?_⟩
  rcases h'.first x hx with hsame | hfirst
  · rw [hsame]
    exact h.first x hx
  · exact .inr hfirst

private theorem FAT32fs.GroupOf.retouchBy {d' : Device} (h : fs.GroupOf clus l n m) (hm : fs.Mounted)
    (hset : fs.device.EntrySet (fs.bpb.slot l (n + m))
      (castShortDirEntryToLong (f.updated (castLongDirEntryToShort (fs.entryAt l (n + m))))) d')
    (hlt : f.fstClus < 2 ^ 32) (howned : f.fstClus = 0 ∨ f.fstClus ∈ heads) :
    FAT32fs.RetouchedBy heads fs { fs with device := d' } := by
  refine ⟨h.retouch hm hset (File.sameName_updated _ _), fun x hx => ?_⟩
  by_cases heq : x = fs.bpb.slot l (n + m)
  · subst heq
    refine .inr ?_
    rw [hset.entry, LongDirEntry.FirstIn, castLongDirEntryToShort_castShortDirEntryToLong, File.updated,
      readEntryClusNo_setFstClusNo _ hlt]
    exact howned
  · exact .inl (hset.entry_of_ne (BPB.slot_aligned ..) hx heq)

end retouched

/-! ### A directory that has grown -/

/-- The chains of the files other than that of `head`, and the bytes of their clusters, are as they were. -/
def FAT32fs.KeepsOthers (fs : FAT32fs) (heads : Set Nat) (head : Nat) (fs' : FAT32fs) : Prop :=
  ∀ other ∈ heads, other ≠ head → ∀ l, Walk fs.table Eoc other l → ∀ x ∈ l, fs'.table x = fs.table x ∧
    ∀ j < fs.bpb.secPerClus.toNat, fs'.device.value (getFirstSectorOfCluster fs.bpb x + j) =
      fs.device.value (getFirstSectorOfCluster fs.bpb x + j)

/-- The directory has one more group `g` on `fs'`, at entry `start`, and keeps its clusters. -/
structure FAT32fs.Grown (fs : FAT32fs) (heads : Set Nat) (dir : File) (l : List Nat) (pad start : Nat) (g : EntryGroup)
    (fs' : FAT32fs) (dir' : File) (l' : List Nat) : Prop where
  step : fs.DirStep heads dir l fs' dir' l'
  pre : l <+: l'
  small : l'.length * bytesPerClus fs.bpb < 2 ^ 32
  added : GroupAdded (fs.dirEntries l) pad start g (fs'.dirEntries l')

section others

variable {fs fs₁ fs' : FAT32fs} {heads : Set Nat} {dir dir' : File} {head : Nat} {l l' : List Nat} {n : Nat}

theorem FAT32fs.KeepsOthers.trans (h : fs.KeepsOthers heads head fs₁) (h' : fs₁.KeepsOthers heads head fs')
    (hbpb : fs₁.bpb = fs.bpb) : fs.KeepsOthers heads head fs' := by
  intro other hother hne l hw x hx
  have hsame := h other hother hne l hw
  obtain ⟨htable, hdata⟩ := h' other hother hne l (hw.frame fun y hy => (hsame y hy).1) x hx
  rw [hbpb] at hdata
  exact ⟨htable.trans (hsame x hx).1, fun j hj => (hdata j hj).trans ((hsame x hx).2 j hj)⟩

theorem FAT32fs.Sane.notMem_dir (hs : fs.Sane heads) (hhead : dir.fstClus ∈ heads) (hf : dir.Placed fs l)
    (hother : head ∈ heads) (hne : head ≠ dir.fstClus) {lo : List Nat} (hw : Walk fs.table Eoc head lo) {x : Nat}
    (hx : x ∈ lo) : x ∉ l := by
  rcases hf.chain with ⟨-, rfl⟩ | ⟨-, hc⟩
  · exact List.not_mem_nil
  · exact hs.owners.notMem_of_mem hother hhead hne.symm hw hc.walk hx

theorem FAT32fs.DirStep.keepsOthers (hs : fs.Sane heads) (hhead : dir.fstClus ∈ heads) (hf : dir.Placed fs l)
    (h : fs.DirStep heads dir l fs' dir' l') : fs.KeepsOthers heads dir.fstClus fs' := by
  intro other hother hne lo hw x hx
  have hsame := h.others other hother hne lo hw
  have hfst := h.worked.fstClus
  exact ⟨hsame x hx, h.data x (hs.bpb ▸ hs.owners.good_of_mem hother hw hx) (hs.notMem_dir hhead hf hother hne hw hx)
    (h.sane.notMem_dir (hfst ▸ hhead) h.placed hother (hfst ▸ hne) (hw.frame hsame) hx)⟩

theorem BPB.slotsInOrder_prefix {bpb : BPB} {m : Nat} (hpre : l <+: l') (hn : (n + m) / bpb.slotsPerClus < l.length) :
    bpb.SlotsInOrder l n m ↔ bpb.SlotsInOrder l' n m := by
  obtain ⟨rest, rfl⟩ := hpre
  obtain ⟨a, l, rfl⟩ := List.exists_cons_of_ne_nil (List.ne_nil_of_length_pos (Nat.zero_lt_of_lt hn))
  refine or_congr Iff.rfl (forall_congr' fun k => imp_congr_right fun _ => forall_congr' fun hk => ?_)
  have hk : k < (a :: l).length := Nat.lt_of_le_of_lt hk hn
  rw [List.getD_append _ _ _ _ hk]
  rfl

theorem BPB.Sound.slot_clus_lt {bpb : BPB} (hs : bpb.Sound) (hcap : l.length * bytesPerClus bpb < 2 ^ 32)
    (hn : n < bpb.dirSlots l) : n / bpb.slotsPerClus < l.length := by
  rw [hs.dirSlots_eq hcap] at hn
  exact (Nat.div_lt_iff_lt_mul hs.slotsPerClus_pos).mpr hn

theorem FAT32fs.prefix_chainAfter (hs : fs.bpb.Sound) (l : List Nat) (required : Nat) :
    l <+: fs.chainAfter l (fs.lengthFor l required) := by
  have hle : l.length ≤ fs.bpb.clusFor (fs.lengthFor l required) := by
    have hlen := hs.le_clusFor (fs.lengthFor l required)
    rw [FAT32fs.lengthFor] at hlen ⊢
    exact Nat.le_of_mul_le_mul_right ((Nat.le_add_right _ _).trans hlen) hs.bytesPerClus_pos
  rcases Nat.lt_or_ge l.length (fs.bpb.clusFor (fs.lengthFor l required)) with hgrow | hsame
  · rw [FAT32fs.chainAfter, FAT.chainAfter_grow hgrow]
    exact List.prefix_append _ _
  · rw [FAT32fs.chainAfter, FAT.chainAfter_cut hsame, List.take_of_length_le hle]

end others

/-! ### Groups and a new group -/

section grown

variable {cs : Charset} {fs fs' : FAT32fs} {heads : Set Nat} {dir dir' f : File} {l l' lc : List Nat}
  {clus pad start k n m : Nat} {g : EntryGroup} {es es' : List LongDirEntry} {e : LongDirEntry}

private theorem GroupAdded.getElem?_inside (h : GroupAdded es pad start g es') {j : Nat} (hj : j < g.size) :
    es'[start + j]? = g.entries[j]? := by
  have hle := h.place.le
  rw [h.entries, List.append_assoc, List.getElem?_append_right (by rw [List.length_take]; omega),
    List.length_take_of_le (by omega), Nat.add_sub_cancel_left,
    List.getElem?_append_left (by rwa [EntryGroup.length_entries])]

/-- A live entry is set on both sides of the change. -/
theorem GroupAdded.set (h : GroupAdded es pad start g es') {i : Nat} {old : LongDirEntry} (hi : es[i]? = some old)
    (hold : isEmptyDirEntry old = false) (he : isEmptyDirEntry e = false) :
    GroupAdded (es.set i e) pad start g (es'.set i e) := by
  have hlt := (List.getElem?_eq_some_iff.mp hi).1
  set zeros := List.replicate pad (LongDirEntry.ofBytes fun _ => 0) with hzeros
  have happend : es.set i e ++ zeros = (es ++ zeros).set i e := (List.set_append_left _ _ hlt).symm
  have hat : (es ++ zeros)[i]? = some old := by rw [List.getElem?_append_left hlt, hi]
  have hout : i < start ∨ start + g.size ≤ i := by
    by_contra hin
    have hblank := h.place.blanks i (by omega) (by omega) old hat
    rw [hold] at hblank
    cases hblank
  have hle : start + g.size ≤ (es ++ zeros).length := h.place.le
  refine ⟨⟨?_, fun j hlo hhi a ha => ?_, ?_⟩, ?_⟩
  · rw [← hzeros, happend, List.length_set]
    exact hle
  · rw [← hzeros, happend, List.getElem?_set_ne (by omega)] at ha
    exact h.place.blanks j hlo hhi a ha
  · refine h.place.maximal.imp_right fun ⟨a, ha, hlive⟩ => ?_
    rw [← hzeros, happend]
    by_cases hsame : i = start - 1
    · exact ⟨e, by rw [← hsame, List.getElem?_set_self (by rw [List.length_append]; omega)], he⟩
    · exact ⟨a, by rw [List.getElem?_set_ne hsame, ha], hlive⟩
  · rw [← hzeros, happend, h.entries, ← hzeros, List.append_assoc, List.append_assoc]
    have hlen : ((es ++ zeros).take start).length = start := List.length_take_of_le (by omega)
    rcases hout with hleft | hright
    · rw [List.set_append_left _ _ (by omega), List.take_set, List.drop_set_of_lt (by omega)]
    · rw [List.set_append_right _ _ (by omega), List.set_append_right _ _ (by rw [EntryGroup.length_entries]; omega),
        List.take_set_of_le (by omega), List.drop_set, if_neg (by omega), hlen, g.length_entries, Nat.sub_sub]

private theorem BPB.Sound.slot_prefix {bpb : BPB} (hs : bpb.Sound) (hpre : l <+: l') (hn : n < l.length * bpb.slotsPerClus) :
    bpb.slot l' n = bpb.slot l n := by
  have hn' : n < l'.length * bpb.slotsPerClus := Nat.lt_of_lt_of_le hn (Nat.mul_le_mul_right _ hpre.length_le)
  obtain ⟨hlt, j, -, hj, hslot⟩ := hs.slot_eq hn
  obtain ⟨hlt', j', -, hj', hslot'⟩ := hs.slot_eq hn'
  rw [hslot, hslot', hj, hj', hpre.getElem hlt]

theorem FAT32fs.Grown.capacity (h : fs.Grown heads dir l pad start g fs' dir' l') :
    l.length * bytesPerClus fs.bpb < 2 ^ 32 :=
  Nat.lt_of_le_of_lt (Nat.mul_le_mul_right _ h.pre.length_le) h.small

theorem FAT32fs.Grown.entryAt (h : fs.Grown heads dir l pad start g fs' dir' l')
    (hn : n < fs.bpb.dirSlots l) (hlive : isEmptyDirEntry (fs.entryAt l n) = false) :
    fs'.entryAt l' n = fs.entryAt l n := by
  have hat := h.added.live (FAT32fs.getElem?_dirEntries hn) hlive
  have hn' : n < fs'.bpb.dirSlots l' := by
    have hlt := (List.getElem?_eq_some_iff.mp hat).1
    rwa [FAT32fs.length_dirEntries] at hlt
  rw [FAT32fs.getElem?_dirEntries hn'] at hat
  exact Option.some.inj hat

/-- In front of an old group there is an old entry, or the short entry of the new group. -/
theorem FAT32fs.Grown.first (h : fs.Grown heads dir l pad start g fs' dir' l') {i : Nat} (hi : i + 1 < fs.bpb.dirSlots l)
    (hlive : isEmptyDirEntry (fs.entryAt l (i + 1)) = false)
    (hfirst : isEmptyDirEntry (fs.entryAt l i) = true ∨ isLongDirEntry (fs.entryAt l i) = false) :
    isEmptyDirEntry (fs'.entryAt l' i) = true ∨ isLongDirEntry (fs'.entryAt l' i) = false := by
  by_cases hempty : isEmptyDirEntry (fs.entryAt l i) = true
  · have hat := h.added.live (FAT32fs.getElem?_dirEntries hi) hlive
    have hi' : i < fs'.bpb.dirSlots l' := by
      have hlt := (List.getElem?_eq_some_iff.mp hat).1
      rw [FAT32fs.length_dirEntries] at hlt
      omega
    have hentry : (fs'.dirEntries l')[i]? = some (fs'.entryAt l' i) := FAT32fs.getElem?_dirEntries hi'
    have hold : ∀ {j : Nat}, j < fs.bpb.dirSlots l → (fs.dirEntries l ++ List.replicate pad (.ofBytes fun _ => 0))[j]? =
        some (fs.entryAt l j) := fun {j} hj => by
      rw [List.getElem?_append_left (by rwa [FAT32fs.length_dirEntries]), FAT32fs.getElem?_dirEntries hj]
    by_cases hout : i < start ∨ start + g.size ≤ i
    · rw [h.added.getElem?_outside hout, hold (by omega), Option.some.injEq] at hentry
      exact .inl (hentry ▸ hempty)
    · -- the new group ends in front of the old one
      obtain rfl : i = start + (g.size - 1) := by
        by_contra hne
        have hblank := h.added.place.blanks (i + 1) (by omega) (by omega) _ (hold hi)
        rw [hlive] at hblank
        cases hblank
      have hpos : 0 < g.size := Nat.succ_pos _
      rw [h.added.getElem?_inside (by omega), EntryGroup.entries, EntryGroup.size, Nat.add_sub_cancel,
        List.getElem?_append_right le_rfl, Nat.sub_self, List.getElem?_cons_zero, Option.some.injEq] at hentry
      exact .inr (hentry ▸ g.isShort)
  · rw [h.entryAt (by omega) (Bool.eq_false_iff.mpr hempty)]
    exact hfirst

/-- The groups of the volume are where they were. -/
theorem FAT32fs.Grown.wholeGroup (h : fs.Grown heads dir l pad start g fs' dir' l') (hs : fs.Sane heads)
    (hhead : dir.fstClus ∈ heads) (hf : dir.Placed fs l) (hc : clus ∈ heads) (hg : fs.WholeGroup clus lc n m) :
    ∃ lc', fs'.WholeGroup clus lc' n m ∧
      (∀ j ≤ m, fs.bpb.slot lc' (n + j) = fs.bpb.slot lc (n + j) ∧ fs'.entryAt lc' (n + j) = fs.entryAt lc (n + j)) ∧
      (clus = dir.fstClus ∧ lc = l ∧ lc' = l' ∨ clus ≠ dir.fstClus ∧ lc' = lc) := by
  have hsound := hs.sound
  have hbpb := h.step.bpb
  by_cases hdir : clus = dir.fstClus
  · subst hdir
    obtain rfl : lc = l := hg.chain.unique hf.chain
    have hcap := h.capacity
    have hslots : ∀ j ≤ m, n + j < fs.bpb.dirSlots lc := fun j hj => by
      have hin := hg.inside
      rw [← hsound.dirSlots_mul] at hin
      have := Nat.le_of_mul_le_mul_left hin (by decide)
      omega
    have hent : ∀ j ≤ m, fs'.entryAt l' (n + j) = fs.entryAt lc (n + j) := fun j hj =>
      h.entryAt (hslots j hj) (hg.live.nonempty j hj)
    refine ⟨l', ⟨⟨?_, ?_, ?_, ?_⟩, fun i hi => ?_⟩, fun j hj => ⟨?_, hent j hj⟩, .inl ⟨rfl, rfl, rfl⟩⟩
    · rw [← h.step.worked.fstClus]
      exact h.step.placed.chain
    · have hin := hg.inside
      rw [u32_of_lt hcap] at hin
      rw [hbpb, u32_of_lt h.small]
      exact hin.trans (Nat.mul_le_mul_right _ h.pre.length_le)
    · rw [hbpb]
      exact (BPB.slotsInOrder_prefix h.pre (hsound.slot_clus_lt hcap (hslots m le_rfl))).mp hg.order
    · refine ⟨fun j hj => ?_, fun j hj => ?_, ?_⟩
      · rw [hent j hj]
        exact hg.live.nonempty j hj
      · rw [hent j hj.le]
        exact hg.live.long j hj
      · rw [hent m le_rfl]
        exact hg.live.short
    · subst hi
      exact h.first (hslots 0 (Nat.zero_le m)) (hg.live.nonempty 0 (Nat.zero_le m)) (hg.first i rfl)
    · exact hsound.slot_prefix h.pre (hsound.dirSlots_eq hcap ▸ hslots j hj)
  · have hwalk : Walk fs.table Eoc clus lc := by
      rcases hg.chain with ⟨rfl, -⟩ | ⟨-, hchain⟩
      · exact absurd hc (zero_notMem_heads hs.owners)
      · exact hchain.walk
    have hkept := h.step.keepsOthers hs hhead hf clus hc hdir lc hwalk
    have hent : ∀ i ≤ n + m, fs'.entryAt lc i = fs.entryAt lc i := fun i hi => by
      have hin : kDirEntrySize * i < lc.length * bytesPerClus fs.bpb :=
        Nat.lt_of_le_of_lt (Nat.mul_le_mul_left _ hi) (hg.slot_inside le_rfl)
      rw [hsound.bytesPerClus_eq_slots, Nat.mul_left_comm] at hin
      have hlt := Nat.lt_of_mul_lt_mul_left hin
      refine FAT32fs.entryAt_congr hsound hbpb hlt hlt rfl (hkept _ ?_).2
      rw [List.getD_eq_getElem _ _ ((Nat.div_lt_iff_lt_mul hsound.slotsPerClus_pos).mpr hlt)]
      exact List.getElem_mem _
    refine ⟨lc, ⟨hg.toGroupOf.congr hbpb (hg.chain.congr fun x hx => (hkept x hx).1) fun j hj => hent _ (by omega),
      fun i hi => ?_⟩, fun j hj => ⟨rfl, hent _ (by omega)⟩, .inr ⟨hdir, rfl⟩⟩
    rw [hent i (by omega)]
    exact hg.first i hi

/-- An object of the map can be destroyed on the volume with the new group, though a chain that it has cached may be out of date. -/
theorem FAT32fs.Grown.writesBack {lf : List Nat} (h : fs.Grown heads dir l pad start g fs' dir' l') (hs : fs.Sane heads)
    (hhead : dir.fstClus ∈ heads) (hf : dir.Placed fs l) (hp : f.Placed fs lf)
    (howned : f.fstClus = 0 ∨ f.fstClus ∈ heads) : f.WritesBack fs' := by
  have hm' := h.step.sane.toMounted
  have hbpb := h.step.bpb
  rcases howned with hzero | hown
  · have hchain := hp.chain
    rw [hzero] at hchain
    obtain rfl : lf = [] := (hchain.resolve_right fun hdata => not_dataClus_zero _ hdata.1).2
    exact File.Placed.writesBack hm' ⟨.inl ⟨hzero, rfl⟩, hp.cache⟩
  by_cases hdir : f.fstClus = dir.fstClus
  · have hchain := hp.chain
    rw [hdir] at hchain
    obtain rfl : lf = l := hchain.unique hf.chain
    rcases hp.cache with hnone | hsome
    · refine File.Placed.writesBack hm' (l := l') ⟨?_, .inl hnone⟩
      rw [hdir, ← h.step.worked.fstClus]
      exact h.step.placed.chain
    · refine File.writesBack_of_cached hm' ?_ ?_ hsome
      · rw [hbpb]
        exact hchain.data
      · rw [hbpb]
        exact hchain.length_le
  · have hwalk : Walk fs.table Eoc f.fstClus lf := by
      rcases hp.chain with ⟨hzero, -⟩ | ⟨-, hchain⟩
      · exact absurd (hzero ▸ hown) (zero_notMem_heads hs.owners)
      · exact hchain.walk
    refine File.Placed.writesBack hm' ⟨?_, hp.cache⟩
    rw [hbpb]
    exact hp.chain.congr fun x hx => (h.step.keepsOthers hs hhead hf f.fstClus hown hdir lf hwalk x hx).1

private theorem Device.EntrySet.value_congr {d d₁ d₂ d₃ : Device} {x : Nat × Nat} (h : d.EntrySet x e d₁)
    (h' : d₂.EntrySet x e d₃) {s : Nat} (hsame : d₂.value s = d.value s) : d₃.value s = d₁.value s := by
  rw [h.value, h'.value]
  exact funext fun i => by simp only [Device.write, hsame]

theorem FAT32fs.dirEntries_set {d' : Device} (hs : fs.bpb.Sound) (hdata : ∀ x ∈ l, fs.bpb.DataClus x) (hnodup : l.Nodup)
    (hcap : l.length * bytesPerClus fs.bpb < 2 ^ 32) (hn : n < fs.bpb.dirSlots l)
    (hset : fs.device.EntrySet (fs.bpb.slot l n) e d') :
    FAT32fs.dirEntries { fs with device := d' } l = (fs.dirEntries l).set n e := by
  have hin : ∀ {j : Nat}, j < fs.bpb.dirSlots l → kDirEntrySize * j < l.length * bytesPerClus fs.bpb := fun {j} hj => by
    rw [hs.dirSlots_eq hcap] at hj
    rw [hs.bytesPerClus_eq_slots, Nat.mul_left_comm]
    exact Nat.mul_lt_mul_of_pos_left hj (by decide)
  refine List.ext_getElem (by simp) fun j hj _ => ?_
  have hj : j < fs.bpb.dirSlots l := by simpa using hj
  rw [List.getElem_set]
  simp only [FAT32fs.dirEntries, List.getElem_map, List.getElem_range]
  split
  · next heq =>
    subst heq
    exact hset.entry
  · next hne =>
    exact hset.entry_of_ne (BPB.slot_aligned ..) (BPB.slot_aligned ..) fun heq =>
      hne (BPB.slot_inj hs hdata hnodup (hin hj) (hin hn) heq).symm

theorem FAT32fs.dirEntries_of_ne {d' : Device} {x : Nat × Nat} (hx : x.2 % kDirEntrySize = 0)
    (hne : ∀ j < fs.bpb.dirSlots l, fs.bpb.slot l j ≠ x) (hset : fs.device.EntrySet x e d') :
    FAT32fs.dirEntries { fs with device := d' } l = fs.dirEntries l :=
  List.map_congr_left fun j hj => hset.entry_of_ne hx (BPB.slot_aligned ..) (hne j (List.mem_range.mp hj))

/-- Work on a directory between two volumes that are retouched alike. -/
theorem FAT32fs.DirStep.retouched {fs₁ fs₂ : FAT32fs} (h : fs.DirStep heads dir l fs' dir' l') (hs : fs.Sane heads)
    (hr₁ : fs.Retouched fs₁) (hr₂ : fs'.Retouched fs₂)
    (hvalue : ∀ s, fs'.device.value s = fs.device.value s → fs₂.device.value s = fs₁.device.value s) :
    fs₁.DirStep heads dir l fs₂ dir' l' := by
  have hbpb := h.bpb
  obtain ⟨hs₁, htable₁⟩ := hr₁.sane hs
  obtain ⟨hs₂, htable₂⟩ := hr₂.sane h.sane
  rw [hbpb] at htable₂
  refine ⟨hr₂.bpb.trans (hbpb.trans hr₁.bpb.symm), h.worked, hs₂, hr₂.placed h.sane.toMounted h.placed,
    fun other hother hne lo hw x hx => ?_, fun x hx hl hl' => ?_, fun x hx hl hl' j hj => ?_⟩
  · have hdata : ∀ y ∈ lo, fs.bpb.DataClus y := fun y hy => by
      have hgood := hs₁.owners.good_of_mem hother hw hy
      rwa [hr₁.fat, hs.bpb] at hgood
    rw [htable₂ x (hdata x hx), htable₁ x (hdata x hx)]
    exact h.others other hother hne lo (hw.frame fun y hy => (htable₁ y (hdata y hy)).symm) x hx
  · rw [hr₁.bpb] at hx
    rw [htable₂ x hx, htable₁ x hx]
    exact h.free x hx hl hl'
  · rw [hr₁.bpb] at hx hj ⊢
    exact hvalue _ (h.data x hx hl hl' j hj)

/-- The object is destroyed on both volumes, and what is different stays what it was. -/
theorem FAT32fs.Grown.destroy (h : fs.Grown heads dir l pad start g fs' dir' l') (hs : fs.Sane heads)
    (hhead : dir.fstClus ∈ heads) (hf : dir.Placed fs l) (hb : f.Belongs cs fs heads k)
    (howned : f.fstClus = 0 ∨ f.fstClus ∈ heads) : ∃ fs₁ fs₂ f₁ f₂, f.destructor fs = some (fs₁, f₁) ∧
      f.destructor fs' = some (fs₂, f₂) ∧ FAT32fs.RetouchedBy heads fs fs₁ ∧ fs'.Retouched fs₂ ∧
      fs₁.Grown heads dir l pad start g fs₂ dir' l' := by
  have hsound := hs.sound
  have hbpb := h.step.bpb
  have hm' := h.step.sane.toMounted
  obtain ⟨lf, hplaced⟩ := hb.placed
  obtain ⟨lc, m, hgroup⟩ := hb.group
  obtain ⟨lc', hgroup', hsame, hwhere⟩ := h.wholeGroup hs hhead hf hb.parent hgroup
  obtain ⟨hslot, hentry⟩ := hsame m le_rfl
  obtain ⟨d₁, f₁, hrun₁, hset₁⟩ := hgroup.sync_of hs.toMounted (f := { f with isDir := false })
    (File.Placed.writesBack hs.toMounted (l := lf) ⟨hplaced.chain, hplaced.cache⟩) hb.sits.parent hb.sits.entry hb.sits.live
  obtain ⟨d₂, f₂, hrun₂, hset₂⟩ := hgroup'.sync_of hm' (f := { f with isDir := false })
    (h.writesBack hs hhead hf (⟨hplaced.chain, hplaced.cache⟩ : File.Placed fs { f with isDir := false } lf) howned) hb.sits.parent hb.sits.entry hb.sits.live
  have hb₁ := hgroup.retouchBy hs.toMounted hset₁ hb.sits.clus howned
  have hr₁ := hb₁.toRetouched
  have hr₂ := hgroup'.retouch hm' hset₂ (File.sameName_updated _ _)
  rw [hentry, hbpb, hslot] at hset₂
  generalize castShortDirEntryToLong _ = e at hset₁ hset₂
  have hlive : isEmptyDirEntry e = false := by
    rw [← hset₁.entry]
    exact (hgroup.retouched hs.toMounted hr₁).live.nonempty m le_rfl
  refine ⟨_, _, f₁, f₂, hrun₁, hrun₂, hb₁, hr₂, h.step.retouched hs hr₁ hr₂ fun s => hset₁.value_congr hset₂, h.pre, h.small, ?_⟩
  rcases hwhere with ⟨-, rfl, rfl⟩ | ⟨hne, rfl⟩
  · -- its group is in the directory itself
    have hn : k % 2 ^ 32 + m < fs.bpb.dirSlots lc := by
      have hslots := hgroup.inside
      rw [← hsound.dirSlots_mul] at hslots
      exact Nat.le_of_mul_le_mul_left hslots (by decide)
    have hn' : k % 2 ^ 32 + m < fs'.bpb.dirSlots lc' := by
      rw [hsound.dirSlots_eq h.capacity] at hn
      rw [hbpb, hsound.dirSlots_eq h.small]
      exact Nat.lt_of_lt_of_le hn (Nat.mul_le_mul_right _ h.pre.length_le)
    rw [← hslot, ← hbpb] at hset₂
    rw [FAT32fs.dirEntries_set hsound hf.chain.data hf.chain.nodup h.capacity hn hset₁,
      FAT32fs.dirEntries_set h.step.sane.sound h.step.placed.chain.data h.step.placed.chain.nodup (hbpb.symm ▸ h.small) hn'
        hset₂]
    exact h.added.set (FAT32fs.getElem?_dirEntries hn) (hgroup.live.nonempty m le_rfl) hlive
  · -- it is in another directory, which has no cluster of this one
    have hout : ∀ {fs : FAT32fs} {dir : File} {l : List Nat}, fs.Sane heads → dir.Placed fs l → dir.fstClus ∈ heads →
        k / 2 ^ 32 ≠ dir.fstClus → fs.GroupOf (k / 2 ^ 32) lc' (k % 2 ^ 32) m → l.length * bytesPerClus fs.bpb < 2 ^ 32 →
        ∀ j < fs.bpb.dirSlots l, fs.bpb.slot l j ≠ fs.bpb.slot lc' (k % 2 ^ 32 + m) := by
      intro fs dir l hs hf hhead hne hg hcap j hj heq
      rw [hs.sound.dirSlots_eq hcap] at hj
      have hin : kDirEntrySize * j < l.length * bytesPerClus fs.bpb := by
        rw [hs.sound.bytesPerClus_eq_slots, Nat.mul_left_comm]
        exact Nat.mul_lt_mul_of_pos_left hj (by decide)
      have hwalk : Walk fs.table Eoc (k / 2 ^ 32) lc' := by
        rcases hg.chain with ⟨hzero, -⟩ | ⟨-, hchain⟩
        · exact absurd (hzero ▸ hb.parent) (zero_notMem_heads hs.owners)
        · exact hchain.walk
      exact BPB.chainSector_disjoint hs.sound hg.chain.data hf.chain.data
        (fun x hx => hs.notMem_dir hhead hf hb.parent hne hwalk hx) (hs.sound.sector_lt_of_pos (hg.slot_inside le_rfl))
        (hs.sound.sector_lt_of_pos hin) (congrArg Prod.fst heq).symm
    have hfst := h.step.worked.fstClus
    have hfree := hout hs hf hhead hne hgroup.toGroupOf h.capacity
    have hfree' := hout h.step.sane h.step.placed (hfst ▸ hhead) (hfst ▸ hne) hgroup'.toGroupOf (hbpb.symm ▸ h.small)
    rw [← hbpb] at hset₂
    rw [FAT32fs.dirEntries_of_ne (BPB.slot_aligned ..) hfree hset₁, FAT32fs.dirEntries_of_ne (BPB.slot_aligned ..) hfree' hset₂]
    exact h.added

/-- All objects that the map has dropped are destroyed. -/
theorem FAT32fs.Grown.destroyAll (cs : Charset) : ∀ (files : List File) {fs fs' : FAT32fs},
    fs.Grown heads dir l pad start g fs' dir' l' → fs.Sane heads → dir.fstClus ∈ heads → dir.Placed fs l →
    (∀ f ∈ files, (∃ k, f.Belongs cs fs heads k) ∧ (f.fstClus = 0 ∨ f.fstClus ∈ heads)) →
    ∃ fs₁ fs₂, fs.destroyAll files = some fs₁ ∧ fs'.destroyAll files = some fs₂ ∧ FAT32fs.RetouchedBy heads fs fs₁ ∧
      fs'.Retouched fs₂ ∧
      fs₁.Grown heads dir l pad start g fs₂ dir' l' := by
  intro files
  induction files with
  | nil => exact fun {fs fs'} h _ _ _ _ => ⟨fs, fs', rfl, rfl, .refl heads fs, .refl fs', h⟩
  | cons f files ih =>
    intro fs fs' h hs hhead hf hall
    obtain ⟨⟨k, hb⟩, howned⟩ := hall f List.mem_cons_self
    obtain ⟨fs₁, fs₂, f₁, f₂, hrun₁, hrun₂, hb₁, hr₂, h₁⟩ := h.destroy hs hhead hf hb howned
    have hr₁ := hb₁.toRetouched
    obtain ⟨fs₃, fs₄, hrun₃, hrun₄, hr₃, hr₄, h₃⟩ := ih h₁ (hr₁.sane hs).1 hhead (hr₁.placed hs.toMounted hf)
      fun f' hf' => ⟨(hall f' (List.mem_cons_of_mem _ hf')).1.imp fun _ hb' => hb'.retouched hs.toMounted hr₁,
        (hall f' (List.mem_cons_of_mem _ hf')).2⟩
    refine ⟨fs₃, fs₄, ?_, ?_, hb₁.trans hr₃, hr₂.trans hr₄, h₃⟩
    · rw [FAT32fs.destroyAll, hrun₁]
      exact hrun₃
    · rw [FAT32fs.destroyAll, hrun₂]
      exact hrun₄

end grown

end FuseFat32
