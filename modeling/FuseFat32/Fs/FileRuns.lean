import FuseFat32.Fs.Exchange
import FuseFat32.Fs.Truncate

/-!
# Runs over the objects of files

A run truncates, writes, exchanges and destroys the objects of some files in any order. The invariant ties the three things an object says about its chain: the size, the first cluster with the chain the FAT has for it, and the chain in the cache. Objects that have been destroyed keep their first cluster, and nothing but the caller keeps a run from using it again.
-/

namespace FuseFat32

open LinkedTable Layout

/-- What a call that resizes the chain of a file, or leaves it alone, does to the object and to the FAT. -/
structure File.Resettled (fs : FAT32fs) (heads : Set Nat) (f : File) (l : List Nat) (fs' : FAT32fs)
    (f' : File) (l' : List Nat) : Prop where
  sane : fs'.Sane (FAT32fs.headsAfter heads f f')
  bpb : fs'.bpb = fs.bpb
  hint : fs.fat.freeCount = 0xFFFFFFFF → fs'.fat.freeCount = 0xFFFFFFFF
  secCnt : fs'.device.secCnt = fs.device.secCnt
  same : f'.parentClus = f.parentClus ∧ f'.fstEntryNum = f.fstEntryNum ∧ f'.isDir = f.isDir ∧
    f'.isDeleted = f.isDeleted
  placed : f'.Placed fs' l'
  length : l'.length = fs.bpb.clusFor f'.fileSz_
  /-- The first cluster is the old one, none, or one that was free. -/
  fst : f'.fstClus = f.fstClus ∨ f'.fstClus = 0 ∨ fs.table f'.fstClus = 0
  others : ∀ other ∈ heads, other ≠ f.fstClus → ∀ l₂, Walk fs.table Eoc other l₂ →
    ∀ x ∈ l₂, fs'.table x = fs.table x
  accounted : ∀ x, fs.bpb.DataClus x → fs.table x = 0 ∨ x ∈ l → fs'.table x = 0 ∨ x ∈ l'

section resettled

variable {fs fs' fs₁ : FAT32fs} {heads : Set Nat} {f f' f₁ : File} {l l₁ : List Nat} {length : Nat}

theorem FAT32fs.Sane.resettled_counted (hs : fs.Sane heads) (hhead : f.fstClus = 0 ∨ f.fstClus ∈ heads)
    (hf : f.Placed fs l) (hlen : l.length = fs.bpb.clusFor f.fileSz_) :
    f.Resettled fs heads l { fs with fat := fs.fat.counted fs.table } f l := by
  have hm : FAT32fs.Mounted { fs with fat := fs.fat.counted fs.table } :=
    ⟨(FAT.represents_counted.mpr hs.represents).wellFormed, hs.bpb⟩
  refine ⟨?_, rfl, fun h => h, rfl, ⟨rfl, rfl, rfl, rfl⟩, ⟨hf.chain, hf.cache⟩, hlen, .inl rfl,
    fun _ _ _ _ _ _ _ => rfl, fun _ _ h => h⟩
  rw [hs.headsAfter_self hhead rfl]
  exact ⟨hm, hs.owners⟩

/-- A resized chain starts where the old one did, or not at all, or with a cluster that was free. -/
theorem FAT.Resized.fst_cases {fat fat' : FAT} {d d' : Device} {T : Nat → Nat} {head n fst : Nat}
    {clear : Bool} (hs : fat.bpb.Sound) (hc : fat.bpb.ChainOf T head l)
    (hr : fat.Resized d T l n clear fst fat' d') : fst = head ∨ fst = 0 ∨ T fst = 0 := by
  have hhead := hc.headD hs
  rw [hr.fst]
  by_cases hnum : n ≤ l.length
  · rw [FAT.chainAfter_cut hnum]
    cases n with
    | zero => exact .inr (.inl rfl)
    | succ n =>
      rw [← hhead]
      cases l with
      | nil => exact .inl rfl
      | cons a l => exact .inl rfl
  · have hnum := Nat.not_le.mp hnum
    have hfresh := hr.fresh
    have hlen := hr.length
    rw [FAT.drop_chainAfter_grow hnum] at hfresh
    rw [FAT.chainAfter_grow hnum] at hlen ⊢
    cases l with
    | cons a l => exact .inl hhead
    | nil =>
      rw [List.nil_append] at hlen ⊢
      cases hnew : fat.nextFree T (n - ([] : List Nat).length) with
      | nil => exact .inr (.inl rfl)
      | cons b new => exact .inr (.inr (hfresh b (by rw [hnew]; exact List.mem_cons_self)).2)

private theorem FAT.tableAfter_accounted {fat : FAT} {T : Nat → Nat} {n x : Nat} (h : T x = 0 ∨ x ∈ l) :
    fat.tableAfter T l n x = 0 ∨ x ∈ fat.chainAfter T l n := by
  by_cases hnum : n ≤ l.length
  · rw [FAT.tableAfter_cut hnum, FAT.chainAfter_cut hnum]
    by_cases hx : x ∈ l
    · rw [← List.take_append_drop n l, List.mem_append] at hx
      exact hx.symm.imp_left cutTable_of_mem_drop
    · rw [cutTable_of_notMem hx hnum]
      exact .inl (h.resolve_right hx)
  · have hnum := Nat.not_le.mp hnum
    rw [FAT.tableAfter_grow hnum, FAT.chainAfter_grow hnum]
    by_cases hx : x ∈ l ++ fat.nextFree T (n - l.length)
    · exact .inr hx
    · rw [growTable_of_notMem hx]
      exact .inl (h.resolve_right fun hl => hx (List.mem_append_left _ hl))

private theorem File.TruncatedTo.table_eq (hs : fs.Sane heads) (ht : f.TruncatedTo fs heads l length fs' f')
    {x : Nat} (hx : fs.bpb.DataClus x) :
    fs'.table x = fs.fat.tableAfter fs.table l (fs.bpb.clusFor length) x :=
  ht.resized.table.entry x (by rw [ht.resized.bpb, hs.bpb]; exact hx.2)

theorem File.TruncatedTo.resettled (hs : fs.Sane heads) (hf : f.Placed fs l) (hdir : f.isDir = false)
    (ht : f.TruncatedTo fs heads l length fs' f') :
    f.Resettled fs heads l fs' f' (fs.chainAfter l length) := by
  have hchain : fs.fat.bpb.ChainOf fs.table f.fstClus l := hs.bpb.symm ▸ hf.chain
  have hsize : f'.fileSz_ = length := by rw [ht.file, hdir]; rfl
  refine ⟨ht.sane, ht.bpb, fun hnone => ?_, ht.resized.touches.secCnt, ?_, ht.placed, ?_,
    ht.resized.fst_cases (hs.bpb.symm ▸ hs.sound) hchain, ht.others, fun x hx hin => ?_⟩
  · rw [ht.resized.hint, hnone, ite_self]
  · rw [ht.file]
    exact ⟨rfl, rfl, rfl, rfl⟩
  · rw [hsize]
    exact ht.resized.length
  · rw [ht.table_eq hs hx]
    exact FAT.tableAfter_accounted hin

theorem File.ExpandedTo.resettled (hs : fs.Sane heads) (hhead : f.fstClus = 0 ∨ f.fstClus ∈ heads)
    (hf : f.Placed fs l) (hdir : f.isDir = false) (hlen : l.length = fs.bpb.clusFor f.fileSz_)
    (h : f.ExpandedTo fs heads l length fs₁ f₁ l₁) : f.Resettled fs heads l fs₁ f₁ l₁ := by
  rcases h with ⟨-, ht, rfl⟩ | ⟨-, rfl, rfl, rfl⟩
  · exact ht.resettled hs hf hdir
  · refine ⟨?_, rfl, fun h => h, rfl, ⟨rfl, rfl, rfl, rfl⟩, hf, hlen, .inl rfl, fun _ _ _ _ _ _ _ => rfl,
      fun _ _ h => h⟩
    rw [hs.headsAfter_self hhead rfl]
    exact hs

theorem File.Resettled.stored (hs : fs.Sane heads) {buf : List UInt8} {offset n : Nat}
    {now : FatTimeStamp} (h : f.Resettled fs heads l fs₁ f₁ l₁)
    (hst : File.StoredTo fs₁ f₁ l₁ buf offset n now fs' f') : f.Resettled fs heads l fs' f' l₁ := by
  obtain ⟨hs', hf', htable⟩ := hst.sane h.sane h.placed
  obtain ⟨d', hfs', hcnt, -⟩ := hst.state
  have hfile := hst.file
  have hsz : f'.fileSz_ = f₁.fileSz_ := by rw [hfile]; rfl
  have hfst : f'.fstClus = f₁.fstClus := by rw [hfile]; rfl
  rw [h.bpb] at htable
  refine ⟨?_, ?_, fun hnone => ?_, ?_, ?_, hf', ?_, ?_, fun other hother hne l₂ hw x hx => ?_,
    fun x hx hin => ?_⟩
  · have hheads : FAT32fs.headsAfter heads f f' = FAT32fs.headsAfter heads f f₁ := by
      rw [FAT32fs.headsAfter, hfst, FAT32fs.headsAfter]
    rw [hheads]
    exact hs'
  · rw [hfs']
    exact h.bpb
  · rw [hfs']
    exact h.hint hnone
  · rw [hfs']
    exact hcnt.trans h.secCnt
  · rw [hfile]
    exact h.same
  · rw [hsz]
    exact h.length
  · rw [hfst]
    exact h.fst
  · have hgood : fs.bpb.DataClus x := by
      rw [← hs.bpb]
      exact hs.owners.good_of_mem hother hw hx
    exact (htable x hgood).trans (h.others other hother hne l₂ hw x hx)
  · rw [htable x hx]
    exact h.accounted x hx hin

end resettled

/-! ### Runs -/

/-- The volume, the objects of some files, and as a ghost the clusters that objects had when they were destroyed. -/
structure FileRun (ι : Type) where
  fs : FAT32fs
  obj : ι → File
  released : Set Nat

/-- A call of a member function of one of the objects. -/
inductive FileOp (ι : Type) where
  | truncate (i : ι) (length : Nat)
  | write (i : ι) (buf : List UInt8) (offset : Nat) (now : FatTimeStamp)
  | exchangeMetaData (i target : ι)
  | selfDestruct (i : ι)

variable {ι : Type}

/-- The clusters of an object that has not been destroyed. -/
def FileRun.clusters (s : FileRun ι) (i : ι) : Set Nat :=
  {x | (s.obj i).isDeleted = false ∧ ∃ l, s.fs.bpb.ChainOf s.fs.table (s.obj i).fstClus l ∧ x ∈ l}

def FileOp.run [DecidableEq ι] (s : FileRun ι) : FileOp ι → Exec (FileRun ι)
  | .truncate i length => do
    let (_, fs, f) ← (s.obj i).truncate s.fs length
    return { s with fs := fs, obj := Function.update s.obj i f }
  | .write i buf offset now => do
    let (_, fs, f) ← (s.obj i).write s.fs buf offset now
    return { s with fs := fs, obj := Function.update s.obj i f }
  | .exchangeMetaData i target => do
    let (fs, f, g) ← (s.obj i).exchangeMetaData s.fs (s.obj target)
    return { s with fs := fs, obj := Function.update (Function.update s.obj i f) target g }
  | .selfDestruct i => do
    let (fs, f) ← (s.obj i).selfDestruct s.fs
    return ⟨fs, Function.update s.obj i f, s.released ∪ s.clusters i⟩

/-- The arguments are `u32`, and a write has something to write and ends within 32 bits. -/
def FileOp.Valid : FileOp ι → Prop
  | .truncate _ length => length < 2 ^ 32
  | .write _ buf offset _ => buf ≠ [] ∧ offset + buf.length < 2 ^ 32
  | _ => True

/-- No object that has been destroyed is resized, written or exchanged. -/
def FileOp.OnLive (s : FileRun ι) : FileOp ι → Prop
  | .truncate i _ => (s.obj i).isDeleted = false
  | .write i _ _ _ => (s.obj i).isDeleted = false
  | .exchangeMetaData i target => (s.obj i).isDeleted = false ∧ (s.obj target).isDeleted = false
  | .selfDestruct _ => True

/-- Some calls that return, one after the other. -/
def FileRun.Reaches [DecidableEq ι] : FileRun ι → FileRun ι → Prop :=
  Relation.ReflTransGen fun s s' => ∃ op : FileOp ι, op.Valid ∧ op.run s = some s'

/-- Some calls that return, none of them on an object that has been destroyed. -/
def FileRun.LiveReaches [DecidableEq ι] : FileRun ι → FileRun ι → Prop :=
  Relation.ReflTransGen fun s s' => ∃ op : FileOp ι, op.Valid ∧ op.OnLive s ∧ op.run s = some s'

/-- The heads of the live chains: those of the objects, and those of all other files and directories. -/
def FileRun.heads (rest : Set Nat) (s : FileRun ι) : Set Nat :=
  rest ∪ {x | x ≠ 0 ∧ ∃ i, (s.obj i).isDeleted = false ∧ (s.obj i).fstClus = x}

/-- Sizes, chains and caches of the objects agree, and `rest` are the heads of the chains of all other files and directories, the parents among them. -/
structure FileRun.Consistent (rest : Set Nat) (s : FileRun ι) : Prop where
  sane : s.fs.Sane (s.heads rest)
  hint : s.fs.fat.freeCount = 0xFFFFFFFF
  secCnt : s.fs.device.secCnt < 2 ^ 32
  file : ∀ i, (s.obj i).isDir = false
  parent : ∀ i, (s.obj i).parentClus ∈ rest
  reach : ∀ i, (s.obj i).EntryReach s.fs.bpb
  chain : ∀ i, (s.obj i).isDeleted = false → ∃ l, (s.obj i).Placed s.fs l ∧
    l.length = s.fs.bpb.clusFor (s.obj i).fileSz_
  apart : ∀ i j, (s.obj i).isDeleted = false → (s.obj j).isDeleted = false → i ≠ j →
    (s.obj i).fstClus = (s.obj j).fstClus → (s.obj i).fstClus = 0
  notRest : ∀ i, (s.obj i).isDeleted = false → (s.obj i).fstClus ∉ rest
  released : ∀ x ∈ s.released, s.fs.bpb.DataClus x ∧ (s.fs.table x = 0 ∨ ∃ i, x ∈ s.clusters i)

section runs

variable {rest : Set Nat} {s s' : FileRun ι} {fs' : FAT32fs} {f' : File} {i j : ι} {l l' : List Nat}

theorem FileRun.Consistent.mem_heads (rest : Set Nat) (hlive : (s.obj i).isDeleted = false) :
    (s.obj i).fstClus = 0 ∨ (s.obj i).fstClus ∈ s.heads rest := by
  by_cases hzero : (s.obj i).fstClus = 0
  · exact .inl hzero
  · exact .inr (.inr ⟨hzero, i, hlive, rfl⟩)

theorem FAT32fs.Sane.used {fs : FAT32fs} {heads : Set Nat} (hs : fs.Sane heads) {head : Nat}
    (hhead : head ∈ heads) : fs.table head ≠ 0 := by
  obtain ⟨l, hw, -⟩ := hs.owners.walk head hhead
  intro hzero
  exact notMem_chain_of_free hs.owners hzero hhead hw (hw.head_mem (hs.owners.live head hhead))

theorem FileRun.Consistent.housed (h : s.Consistent rest) (i : ι) : (s.obj i).Housed s.fs := by
  have hmem : (s.obj i).parentClus ∈ s.heads rest := .inl (h.parent i)
  obtain ⟨lp, hw, hgood⟩ := h.sane.owners.walk _ hmem
  have hdata := h.sane.owners.good_head hmem
  rw [h.sane.bpb] at hgood hdata
  exact ⟨⟨lp, ⟨hw, hgood⟩, hdata⟩, h.reach i, h.secCnt⟩

private theorem FileRun.Consistent.heads_update [DecidableEq ι] (h : s.Consistent rest) (hlive : (s.obj i).isDeleted = false)
    (hlive' : f'.isDeleted = false) :
    FileRun.heads rest ⟨fs', Function.update s.obj i f', s.released⟩ =
      FAT32fs.headsAfter (s.heads rest) (s.obj i) f' := by
  ext x
  simp only [FileRun.heads, FAT32fs.headsAfter, rehead, Set.mem_union, Set.mem_sdiff,
    Set.mem_singleton_iff, Set.mem_ofPred_eq]
  constructor
  · rintro (hx | ⟨hne, j, hj, rfl⟩)
    · exact .inl ⟨.inl hx, fun heq => h.notRest i hlive (heq ▸ hx)⟩
    · by_cases hji : j = i
      · subst hji
        rw [Function.update_self] at hne ⊢
        exact .inr ⟨rfl, hne⟩
      · rw [Function.update_of_ne hji] at hj hne ⊢
        exact .inl ⟨.inr ⟨hne, j, hj, rfl⟩, fun heq => hne (h.apart j i hj hlive hji heq)⟩
  · rintro (⟨hx | ⟨hne, j, hj, rfl⟩, hout⟩ | ⟨rfl, hne⟩)
    · exact .inl hx
    · have hji : j ≠ i := fun heq => hout (heq ▸ rfl)
      exact .inr ⟨hne, j, by rwa [Function.update_of_ne hji], by rw [Function.update_of_ne hji]⟩
    · exact .inr ⟨hne, i, by rwa [Function.update_self], by rw [Function.update_self]⟩

theorem FileRun.Consistent.placed_other (h : s.Consistent rest) (hbpb : fs'.bpb = s.fs.bpb)
    (hothers : ∀ other ∈ s.heads rest, other ≠ (s.obj i).fstClus → ∀ l₂, Walk s.fs.table Eoc other l₂ →
      ∀ x ∈ l₂, fs'.table x = s.fs.table x)
    (hlive : (s.obj i).isDeleted = false) (hlive' : (s.obj j).isDeleted = false) (hne : j ≠ i)
    (hf : (s.obj j).Placed s.fs l) : (s.obj j).Placed fs' l := by
  refine ⟨?_, hf.cache⟩
  rw [hbpb]
  rcases hf.chain with ⟨hzero, rfl⟩ | ⟨hdata, hc⟩
  · exact .inl ⟨hzero, rfl⟩
  · have hpos : (s.obj j).fstClus ≠ 0 := fun hzero => not_dataClus_zero _ (hzero ▸ hdata)
    have hmem : (s.obj j).fstClus ∈ s.heads rest := .inr ⟨hpos, j, hlive', rfl⟩
    refine .inr ⟨hdata, hc.walk.frame fun x hx => ?_, hc.data⟩
    exact hothers _ hmem (fun heq => hpos (h.apart j i hlive' hlive hne heq)) l hc.walk x hx

/-- A call that resizes the chain of one object keeps the invariant. -/
theorem FileRun.Consistent.resettled [DecidableEq ι] (h : s.Consistent rest) (hlive : (s.obj i).isDeleted = false)
    (hf : (s.obj i).Placed s.fs l)
    (hr : (s.obj i).Resettled s.fs (s.heads rest) l fs' f' l') :
    FileRun.Consistent rest ⟨fs', Function.update s.obj i f', s.released⟩ := by
  obtain ⟨hparent, hentry, hdir, hdel⟩ := hr.same
  have hlive' : f'.isDeleted = false := hdel.trans hlive
  have hobj : ∀ {P : File → Prop}, P f' → (∀ j ≠ i, P (s.obj j)) → ∀ j, P (Function.update s.obj i f' j) := by
    intro P hself hother j
    by_cases hji : j = i
    · rw [hji, Function.update_self]
      exact hself
    · rw [Function.update_of_ne hji]
      exact hother j hji
  have hother : ∀ j ≠ i, (s.obj j).isDeleted = false → ∀ l₂, (s.obj j).Placed s.fs l₂ →
      (s.obj j).Placed fs' l₂ :=
    fun j hji hlivej l₂ hfj => h.placed_other hr.bpb hr.others hlive hlivej hji hfj
  have hfst : ∀ j ≠ i, (s.obj j).isDeleted = false → f'.fstClus = (s.obj j).fstClus → f'.fstClus = 0 := by
    intro j hji hlivej heq
    rcases hr.fst with hsame | hzero | hfree
    · rw [hsame] at heq ⊢
      exact h.apart i j hlive hlivej hji.symm heq
    · exact hzero
    · rcases FileRun.Consistent.mem_heads rest hlivej with hzero | hmem
      · rw [heq, hzero]
      · exact absurd (heq ▸ hfree) (h.sane.used hmem)
  refine ⟨?_, hr.hint h.hint, ?_, hobj (P := fun f => f.isDir = false) ?_ fun j _ => h.file j,
    hobj (P := fun f => f.parentClus ∈ rest) ?_ fun j _ => h.parent j,
    hobj (P := fun f => f.EntryReach fs'.bpb) ?_ fun j _ => ?_, ?_, ?_, ?_, fun x hx => ?_⟩
  · rw [h.heads_update hlive hlive']
    exact hr.sane
  · change fs'.device.secCnt < _
    rw [hr.secCnt]
    exact h.secCnt
  · exact hdir.trans (h.file i)
  · exact hparent ▸ h.parent i
  · rw [hr.bpb, File.EntryReach, hparent, hentry]
    exact h.reach i
  · rw [hr.bpb]
    exact h.reach j
  · refine hobj (P := fun f => f.isDeleted = false → ∃ l, f.Placed fs' l ∧
      l.length = fs'.bpb.clusFor f.fileSz_) (fun _ => ⟨l', hr.placed, ?_⟩) fun j hji hlivej => ?_
    · rw [hr.length, hr.bpb]
    · obtain ⟨l₂, hfj, hlen⟩ := h.chain j hlivej
      exact ⟨l₂, hother j hji hlivej l₂ hfj, by rw [hlen, hr.bpb]⟩
  · intro j k
    by_cases hji : j = i <;> by_cases hki : k = i
    · exact fun _ _ hne => absurd (hji.trans hki.symm) hne
    · subst hji
      simp only [Function.update_self, Function.update_of_ne hki]
      exact fun _ hlivek _ heq => hfst k hki hlivek heq
    · subst hki
      simp only [Function.update_self, Function.update_of_ne hji]
      intro hlivej _ _ heq
      rw [heq]
      exact hfst j hji hlivej heq.symm
    · simp only [Function.update_of_ne hji, Function.update_of_ne hki]
      exact h.apart j k
  · refine hobj (P := fun f => f.isDeleted = false → f.fstClus ∉ rest) (fun _ hmem => ?_) fun j _ =>
      h.notRest j
    rcases hr.fst with hsame | hzero | hfree
    · exact h.notRest i hlive (hsame ▸ hmem)
    · exact zero_notMem_heads h.sane.owners (hzero ▸ .inl hmem)
    · exact h.sane.used (.inl hmem) hfree
  · obtain ⟨hdata, hcase⟩ := h.released x hx
    rw [hr.bpb]
    refine ⟨hdata, ?_⟩
    have hown : fs'.table x = 0 ∨ x ∈ l' →
        fs'.table x = 0 ∨ ∃ k, x ∈ FileRun.clusters ⟨fs', Function.update s.obj i f', s.released⟩ k := by
      refine Or.imp_right fun hin => ⟨i, ?_⟩
      simp only [FileRun.clusters, Set.mem_ofPred_eq, Function.update_self]
      exact ⟨hlive', l', hr.placed.chain, hin⟩
    rcases hcase with hfree | ⟨k, hlivek, l₂, hchain, hin⟩
    · exact hown (hr.accounted x hdata (.inl hfree))
    · by_cases hki : k = i
      · subst hki
        obtain rfl := hchain.unique hf.chain
        exact hown (hr.accounted x hdata (.inr hin))
      · obtain ⟨l₃, hfk, -⟩ := h.chain k hlivek
        obtain rfl := hchain.unique hfk.chain
        refine .inr ⟨k, ?_⟩
        simp only [FileRun.clusters, Set.mem_ofPred_eq, Function.update_of_ne hki]
        exact ⟨hlivek, l₂, (hother k hki hlivek l₂ hfk).chain, hin⟩

/-- An exchange permutes what the objects say about their data. -/
theorem FileRun.Consistent.permuted (h : s.Consistent rest) {d' : Device} {obj' : ι → File}
    (honly : s.fs.bpb.OnlyData s.fs.device d') (σ : Equiv.Perm ι)
    (hlive : ∀ k, (s.obj (σ k)).isDeleted = (s.obj k).isDeleted)
    (hsame : ∀ k, (obj' k).parentClus = (s.obj k).parentClus ∧
      (obj' k).fstEntryNum = (s.obj k).fstEntryNum ∧ (obj' k).isDir = (s.obj k).isDir ∧
      (obj' k).isDeleted = (s.obj k).isDeleted)
    (hdata : ∀ k, (obj' k).fstClus = (s.obj (σ k)).fstClus ∧ (obj' k).fileSz_ = (s.obj (σ k)).fileSz_)
    (hcache : ∀ k, (obj' k).isDeleted = false → ∀ l, (s.obj (σ k)).Placed s.fs l →
      (obj' k).clusChain_ = none ∨ (obj' k).clusChain_ = some l) :
    FileRun.Consistent rest ⟨{ s.fs with device := d' }, obj', s.released⟩ := by
  have hdel : ∀ k, (obj' k).isDeleted = (s.obj (σ k)).isDeleted := fun k =>
    (hsame k).2.2.2.trans (hlive k).symm
  have hheads : FileRun.heads rest ⟨{ s.fs with device := d' }, obj', s.released⟩ = s.heads rest := by
    simp only [FileRun.heads, hdel, (hdata _).1]
    congr 1
    ext x
    exact and_congr_right fun _ =>
      ⟨fun ⟨k, hk⟩ => ⟨σ k, hk⟩, fun ⟨k, hk⟩ => ⟨σ.symm k, by simpa using hk⟩⟩
  obtain ⟨hs', htable⟩ := h.sane.of_data d' honly.secCnt honly.value
  have hchain : ∀ k l, (s.obj (σ k)).Placed s.fs l →
      s.fs.bpb.ChainOf (FAT32fs.table { s.fs with device := d' }) (obj' k).fstClus l := fun k l hf => by
    rw [(hdata k).1]
    exact hf.chain.congr fun x hx => htable x (hf.chain.data x hx)
  refine ⟨hheads.symm ▸ hs', h.hint, ?_, fun k => ?_, fun k => ?_, fun k => ?_, fun k hk => ?_,
    fun j k hj hk hne heq => ?_, fun k hk => ?_, fun x hx => ?_⟩
  · change d'.secCnt < _
    rw [honly.secCnt]
    exact h.secCnt
  · exact (hsame k).2.2.1.trans (h.file k)
  · change (obj' k).parentClus ∈ rest
    rw [(hsame k).1]
    exact h.parent k
  · change (obj' k).EntryReach s.fs.bpb
    rw [File.EntryReach, (hsame k).1, (hsame k).2.1]
    exact h.reach k
  · obtain ⟨l, hf, hlen⟩ := h.chain (σ k) ((hdel k).symm.trans hk)
    refine ⟨l, ⟨hchain k l hf, hcache k hk l hf⟩, ?_⟩
    change l.length = s.fs.bpb.clusFor (obj' k).fileSz_
    rw [(hdata k).2, hlen]
  · change (obj' j).fstClus = (obj' k).fstClus at heq
    change (obj' j).fstClus = 0
    rw [(hdata j).1] at heq ⊢
    rw [(hdata k).1] at heq
    exact h.apart (σ j) (σ k) ((hdel j).symm.trans hj) ((hdel k).symm.trans hk)
      (fun hjk => hne (σ.injective hjk)) heq
  · change (obj' k).fstClus ∉ rest
    rw [(hdata k).1]
    exact h.notRest (σ k) ((hdel k).symm.trans hk)
  · obtain ⟨hx, hcase⟩ := h.released x hx
    refine ⟨hx, hcase.imp (htable x hx).trans ?_⟩
    rintro ⟨k, hlivek, l, hc, hin⟩
    obtain ⟨l', hf, -⟩ := h.chain k hlivek
    obtain rfl := hc.unique hf.chain
    refine ⟨σ.symm k, (hdel _).trans (by simpa using hlivek), l, ?_, hin⟩
    exact hchain (σ.symm k) l (by simpa using hf)

theorem FileRun.Consistent.exchanged [DecidableEq ι] (h : s.Consistent rest) {g' : File}
    (hlivei : (s.obj i).isDeleted = false) (hlivej : (s.obj j).isDeleted = false)
    (hrun : (s.obj i).exchangeMetaData s.fs (s.obj j) = some (fs', f', g')) :
    FileRun.Consistent rest ⟨fs', Function.update (Function.update s.obj i f') j g', s.released⟩ := by
  obtain ⟨li, hfi, -⟩ := h.chain i hlivei
  obtain ⟨lj, hfj, -⟩ := h.chain j hlivej
  obtain ⟨d', rfl, honly, rfl, rfl⟩ := File.exchangeMetaData_data h.sane.toMounted hfi hfj (h.housed i)
    (h.housed j) hlivei hlivej hrun
  -- every object now has the data of the one it is swapped with
  have hcases : ∀ {P : ι → ι → File → Prop}, P i j (((s.obj i).exchanged (s.obj j)).cached lj) →
      P j i (((s.obj j).exchanged (s.obj i)).cached li) → (∀ k, k ≠ i → k ≠ j → P k k (s.obj k)) →
      ∀ k, P k (Equiv.swap i j k) (Function.update (Function.update s.obj i
        (((s.obj i).exchanged (s.obj j)).cached lj)) j (((s.obj j).exchanged (s.obj i)).cached li) k) := by
    intro P hi hj hother k
    by_cases hkj : k = j
    · rw [hkj, Equiv.swap_apply_right, Function.update_self]
      exact hj
    · rw [Function.update_of_ne hkj]
      by_cases hki : k = i
      · rw [hki, Equiv.swap_apply_left, Function.update_self]
        exact hi
      · rw [Equiv.swap_apply_of_ne_of_ne hki hkj, Function.update_of_ne hki]
        exact hother k hki hkj
  have hlive : ∀ k, (s.obj (Equiv.swap i j k)).isDeleted = (s.obj k).isDeleted := by
    exact hcases (P := fun k k' _ => (s.obj k').isDeleted = (s.obj k).isDeleted)
      (hlivej.trans hlivei.symm) (hlivei.trans hlivej.symm) fun _ _ _ => rfl
  refine h.permuted honly (Equiv.swap i j) hlive ?_ ?_ ?_
  · exact hcases (P := fun k _ f => f.parentClus = (s.obj k).parentClus ∧
      f.fstEntryNum = (s.obj k).fstEntryNum ∧ f.isDir = (s.obj k).isDir ∧
      f.isDeleted = (s.obj k).isDeleted) ⟨rfl, rfl, rfl, rfl⟩ ⟨rfl, rfl, rfl, rfl⟩
      fun _ _ _ => ⟨rfl, rfl, rfl, rfl⟩
  · exact hcases (P := fun _ k' f => f.fstClus = (s.obj k').fstClus ∧ f.fileSz_ = (s.obj k').fileSz_)
      ⟨rfl, rfl⟩ ⟨rfl, rfl⟩ fun _ _ _ => ⟨rfl, rfl⟩
  · refine hcases (P := fun _ k' f => f.isDeleted = false → ∀ l, (s.obj k').Placed s.fs l →
      f.clusChain_ = none ∨ f.clusChain_ = some l) (fun _ l hf => .inr ?_) (fun _ l hf => .inr ?_)
      fun k _ _ _ l hf => hf.cache
    · exact congrArg some (hfj.chain.unique hf.chain)
    · exact congrArg some (hfi.chain.unique hf.chain)

/-- Destroying an object releases its clusters. -/
theorem FileRun.Consistent.destroyed [DecidableEq ι] (h : s.Consistent rest)
    (hrun : (s.obj i).selfDestruct s.fs = some (fs', f')) :
    FileRun.Consistent rest ⟨fs', Function.update s.obj i f', s.released ∪ s.clusters i⟩ := by
  by_cases hdel : (s.obj i).isDeleted = true
  · rw [File.selfDestruct, if_pos (.inl hdel)] at hrun
    obtain ⟨rfl, rfl⟩ := Prod.mk.inj (Option.some.inj hrun)
    have hnone : s.clusters i = ∅ := by
      ext x
      simp [FileRun.clusters, hdel]
    rw [Function.update_eq_self, hnone, Set.union_empty]
    exact h
  have hlive : (s.obj i).isDeleted = false := by simpa using hdel
  obtain ⟨l, hf, hlen⟩ := h.chain i hlive
  obtain ⟨rfl, hbpb, hfat, hcnt, hm, htable⟩ :=
    File.selfDestruct_frees h.sane.toMounted hf (h.housed i) hlive hrun
  have hlive' : ∀ k, (Function.update s.obj i { s.obj i with isDeleted := true } k).isDeleted = false →
      k ≠ i ∧ (s.obj k).isDeleted = false := by
    intro k hk
    by_cases hki : k = i
    · rw [hki, Function.update_self] at hk
      exact Bool.noConfusion hk
    · exact ⟨hki, by rwa [Function.update_of_ne hki] at hk⟩
  have hobj : ∀ {P : File → Prop}, P { s.obj i with isDeleted := true } → (∀ k, P (s.obj k)) →
      ∀ k, P (Function.update s.obj i { s.obj i with isDeleted := true } k) := by
    intro P hself hother k
    by_cases hki : k = i
    · rw [hki, Function.update_self]
      exact hself
    · rw [Function.update_of_ne hki]
      exact hother k
  have hheads : FileRun.heads rest ⟨fs', Function.update s.obj i { s.obj i with isDeleted := true },
      s.released ∪ s.clusters i⟩ = s.heads rest \ {(s.obj i).fstClus} := by
    ext x
    simp only [FileRun.heads, Set.mem_union, Set.mem_sdiff, Set.mem_singleton_iff, Set.mem_ofPred_eq]
    constructor
    · rintro (hx | ⟨hne, k, hk, rfl⟩)
      · exact ⟨.inl hx, fun heq => h.notRest i hlive (heq ▸ hx)⟩
      · obtain ⟨hki, hk⟩ := hlive' k hk
        rw [Function.update_of_ne hki] at hne ⊢
        exact ⟨.inr ⟨hne, k, hk, rfl⟩, fun heq => hne (h.apart k i hk hlive hki heq)⟩
    · rintro ⟨hx | ⟨hne, k, hk, rfl⟩, hout⟩
      · exact .inl hx
      · have hki : k ≠ i := fun heq => hout (heq ▸ rfl)
        exact .inr ⟨hne, k, by rwa [Function.update_of_ne hki], by rw [Function.update_of_ne hki]⟩
  have howners : Owners fs'.table Eoc fs'.fat.bpb.DataClus (s.heads rest \ {(s.obj i).fstClus}) := by
    have hcut := owners_cutTable h.sane.owners (FileRun.Consistent.mem_heads rest hlive)
      (h.sane.bpb.symm ▸ hf.chain) (Nat.zero_le _)
    rw [if_pos rfl, rehead_zero] at hcut
    rw [hm.bpb, hbpb, ← h.sane.bpb]
    refine hcut.frame fun head hhead l₂ hw x hx => htable x ?_
    rw [← h.sane.bpb]
    exact hcut.good_of_mem hhead hw hx
  have hothers : ∀ other ∈ s.heads rest, other ≠ (s.obj i).fstClus → ∀ l₂,
      Walk s.fs.table Eoc other l₂ → ∀ x ∈ l₂, fs'.table x = s.fs.table x := by
    intro other hother hne l₂ hw x hx
    have hgood := h.sane.owners.good_of_mem hother hw hx
    rw [h.sane.bpb] at hgood
    rw [htable x hgood, if_neg]
    rcases hf.chain with ⟨-, rfl⟩ | ⟨hdata, hc⟩
    · exact List.not_mem_nil
    · have hmem := (FileRun.Consistent.mem_heads rest hlive).resolve_left
        (fun hzero => not_dataClus_zero _ (hzero ▸ hdata))
      exact h.sane.owners.notMem_of_mem hother hmem hne.symm hw hc.walk hx
  refine ⟨?_, ?_, ?_, hobj (P := fun f => f.isDir = false) (h.file i) h.file,
    hobj (P := fun f => f.parentClus ∈ rest) (h.parent i) h.parent,
    hobj (P := fun f => f.EntryReach fs'.bpb) (hbpb ▸ h.reach i) (hbpb ▸ h.reach), fun k hk => ?_,
    fun j k hj hk hne => ?_, fun k hk => ?_, fun x hx => ?_⟩
  · rw [hheads]
    exact ⟨hm, howners⟩
  · change fs'.fat.freeCount = _
    rw [hfat]
    simpa using h.hint
  · change fs'.device.secCnt < _
    rw [hcnt]
    exact h.secCnt
  · obtain ⟨hki, hk⟩ := hlive' k hk
    obtain ⟨lk, hfk, hlenk⟩ := h.chain k hk
    simp only [Function.update_of_ne hki]
    exact ⟨lk, h.placed_other hbpb hothers hlive hk hki hfk, by rw [hlenk, hbpb]⟩
  · obtain ⟨hji, hj⟩ := hlive' j hj
    obtain ⟨hki, hk⟩ := hlive' k hk
    simp only [Function.update_of_ne hji, Function.update_of_ne hki]
    exact h.apart j k hj hk hne
  · obtain ⟨hki, hk⟩ := hlive' k hk
    simp only [Function.update_of_ne hki]
    exact h.notRest k hk
  · have hx' : s.fs.bpb.DataClus x ∧ (s.fs.table x = 0 ∨ ∃ k, x ∈ s.clusters k) := by
      rcases hx with hx | hx
      · exact h.released x hx
      · obtain ⟨-, l₂, hc, hin⟩ := id hx
        exact ⟨hc.data x hin, .inr ⟨i, hx⟩⟩
    obtain ⟨hdata, hcase⟩ := hx'
    rw [hbpb]
    refine ⟨hdata, ?_⟩
    rcases hcase with hfree | ⟨k, hk, l₂, hc, hin⟩
    · exact .inl (by rw [htable x hdata, hfree, ite_self])
    · obtain ⟨lk, hfk, -⟩ := h.chain k hk
      obtain rfl := hc.unique hfk.chain
      by_cases hki : k = i
      · subst hki
        obtain rfl := hc.unique hf.chain
        exact .inl (by rw [htable x hdata, if_pos hin])
      · refine .inr ⟨k, ?_⟩
        simp only [FileRun.clusters, Set.mem_ofPred_eq, Function.update_of_ne hki]
        exact ⟨hk, l₂, (h.placed_other hbpb hothers hlive hk hki hfk).chain, hin⟩

/-- Every call on objects that are alive keeps the invariant. -/
theorem FileRun.Consistent.step [DecidableEq ι] (h : s.Consistent rest) {op : FileOp ι}
    (hvalid : op.Valid) (hlive : op.OnLive s) (hrun : op.run s = some s') : s'.Consistent rest := by
  have hhint : ∀ l length, s.fs.HintOk l length := fun _ _ _ => .inl h.hint
  cases op with
  | truncate i length =>
    obtain ⟨⟨ok, fs', f'⟩, hcall, hrun⟩ := Option.bind_eq_some_iff.mp hrun
    obtain rfl := Option.some.inj hrun
    obtain ⟨l, hf, hlen⟩ := h.chain i hlive
    have hhead := FileRun.Consistent.mem_heads rest hlive
    rcases File.truncate_some h.sane hhead hf.chain (hhint _ _) hcall with ⟨-, ht⟩ | ⟨-, -, rfl, rfl⟩
    · exact h.resettled hlive hf (ht.resettled h.sane hf (h.file i))
    · exact h.resettled hlive hf (h.sane.resettled_counted hhead hf hlen)
  | write i buf offset now =>
    obtain ⟨⟨n, fs', f'⟩, hcall, hrun⟩ := Option.bind_eq_some_iff.mp hrun
    obtain rfl := Option.some.inj hrun
    obtain ⟨l, hf, hlen⟩ := h.chain i hlive
    have hhead := FileRun.Consistent.mem_heads rest hlive
    rcases File.write_some h.sane hhead hf (h.file i) (hhint _ _) hcall with
      ⟨-, -, -, rfl, rfl⟩ | ⟨fs₁, f₁, l₁, hexp, hst⟩
    · exact h.resettled hlive hf (h.sane.resettled_counted hhead hf hlen)
    · have hexp := hexp.resettled h.sane hhead hf (h.file i) hlen
      exact h.resettled hlive hf (hexp.stored h.sane hst)
  | exchangeMetaData i target =>
    obtain ⟨⟨fs', f', g'⟩, hcall, hrun⟩ := Option.bind_eq_some_iff.mp hrun
    obtain rfl := Option.some.inj hrun
    exact h.exchanged hlive.1 hlive.2 hcall
  | selfDestruct i =>
    obtain ⟨⟨fs', f'⟩, hcall, hrun⟩ := Option.bind_eq_some_iff.mp hrun
    obtain rfl := Option.some.inj hrun
    exact h.destroyed hcall

private theorem FileRun.LiveReaches.consistent [DecidableEq ι] (h₀ : s.Consistent rest)
    (hrun : s.LiveReaches s') : s'.Consistent rest := by
  induction hrun with
  | refl => exact h₀
  | tail _ hstep ih =>
    obtain ⟨op, hvalid, hlive, hrun⟩ := hstep
    exact ih.step hvalid hlive hrun

end runs

/-! ### What the code promises of sizes and chains -/

/-- What `readClusChains` returns for the first cluster of an object. -/
def FileRun.readChain (s : FileRun ι) (i : ι) : Exec (List Nat) :=
  s.fs.fat.readClusChains s.fs.device (s.obj i).fstClus

/-- Every object that has not been destroyed has a chain of just the clusters its size needs, its cache says so too, different objects have disjoint chains, and the clusters of destroyed objects are free unless another one has taken them. -/
structure FileRun.SizesMatch (s : FileRun ι) : Prop where
  size : ∀ i, (s.obj i).isDeleted = false → ∃ l, s.readChain i = some l ∧
    l.length = ((s.obj i).fileSz_ + bytesPerClus s.fs.bpb - 1) / bytesPerClus s.fs.bpb
  empty : ∀ i, (s.obj i).isDeleted = false → ((s.obj i).fstClus = 0 ↔ (s.obj i).fileSz_ = 0)
  cache : ∀ i, (s.obj i).isDeleted = false → ∀ l, (s.obj i).clusChain_ = some l → s.readChain i = some l
  disjoint : ∀ i j, (s.obj i).isDeleted = false → (s.obj j).isDeleted = false → i ≠ j →
    ∀ l l', s.readChain i = some l → s.readChain j = some l' → l.Disjoint l'
  released : ∀ x ∈ s.released, (∀ i, (s.obj i).isDeleted = false → ∀ l, s.readChain i = some l → x ∉ l) →
    s.fs.table x = 0

private theorem FileRun.Consistent.sizesMatch {rest : Set Nat} {s : FileRun ι} (h : s.Consistent rest) :
    s.SizesMatch := by
  have hread : ∀ i l, (s.obj i).Placed s.fs l → s.readChain i = some l := fun i l hf =>
    h.sane.represents.readClusChains_of (h.sane.bpb.symm ▸ hf.chain)
  refine ⟨fun i hi => ?_, fun i hi => ?_, fun i hi l hcache => ?_, fun i j hi hj hne l l' hl hl' => ?_,
    fun x hx hout => ?_⟩
  · obtain ⟨l, hf, hlen⟩ := h.chain i hi
    exact ⟨l, hread i l hf, hlen.trans (h.sane.sound.clusFor_eq _)⟩
  · obtain ⟨l, hf, hlen⟩ := h.chain i hi
    have hsize : (s.obj i).fileSz_ = 0 ↔ l = [] := by
      rw [← List.length_eq_zero_iff, hlen, BPB.clusFor_eq_zero]
    rw [hsize]
    rcases hf.chain with ⟨hzero, hnil⟩ | ⟨hdata, hc⟩
    · exact iff_of_true hzero hnil
    · exact iff_of_false (fun hzero => not_dataClus_zero _ (hzero ▸ hdata)) (hc.ne_nil h.sane.sound hdata)
  · obtain ⟨l', hf, -⟩ := h.chain i hi
    obtain rfl : l = l' := by
      rcases hf.cache with hnone | hsome
      · exact absurd (hcache.symm.trans hnone) (by simp)
      · exact Option.some.inj (hcache.symm.trans hsome)
    exact hread i l hf
  · obtain ⟨li, hfi, -⟩ := h.chain i hi
    obtain ⟨lj, hfj, -⟩ := h.chain j hj
    obtain rfl : l = li := Option.some.inj (hl.symm.trans (hread i li hfi))
    obtain rfl : l' = lj := Option.some.inj (hl'.symm.trans (hread j lj hfj))
    rcases hfi.chain with ⟨-, rfl⟩ | ⟨hdata, hc⟩
    · exact List.disjoint_nil_left _
    rcases hfj.chain with ⟨-, rfl⟩ | ⟨hdata', hc'⟩
    · exact List.disjoint_nil_right _
    have hpos : ∀ {c}, s.fs.bpb.DataClus c → c ≠ 0 := fun hc hzero => not_dataClus_zero _ (hzero ▸ hc)
    exact h.sane.owners.disjoint _ (.inr ⟨hpos hdata, i, hi, rfl⟩) _ (.inr ⟨hpos hdata', j, hj, rfl⟩)
      (fun heq => hpos hdata (h.apart i j hi hj hne heq)) l l' hc.walk hc'.walk
  · obtain ⟨-, hcase⟩ := h.released x hx
    refine hcase.resolve_right ?_
    rintro ⟨i, hi, l, hc, hin⟩
    exact hout i hi l (h.sane.represents.readClusChains_of (h.sane.bpb.symm ▸ hc)) hin

/-- In every run whose calls are made on objects that are alive, sizes, chains and caches agree after every call. -/
theorem FileRun.sizes_match [DecidableEq ι] (rest : Set Nat) (s₀ s : FileRun ι)
    (h₀ : s₀.Consistent rest) (hrun : s₀.LiveReaches s) : s.SizesMatch :=
  (hrun.consistent h₀).sizesMatch

/-! Empty files in the root directory of the small volume. -/

def emptyFiles : FileRun (Fin 3) where
  fs := smallFs
  obj i := { emptyFile with fstEntryNum := i }
  released := ∅

theorem emptyFiles_consistent : emptyFiles.Consistent {2} := by
  have hheads : emptyFiles.heads {2} = {2} := by
    ext x
    simp only [FileRun.heads, Set.mem_union, Set.mem_singleton_iff, Set.mem_ofPred_eq, or_iff_left_iff_imp]
    rintro ⟨hne, i, -, rfl⟩
    exact absurd rfl hne
  refine ⟨?_, rfl, by decide, fun _ => rfl, fun _ => rfl, fun i => ?_, fun _ _ => ⟨[], ⟨.inl ⟨rfl, rfl⟩,
    .inl rfl⟩, rfl⟩, fun _ _ _ _ _ _ => rfl, fun _ _ hmem => absurd (show 0 = 2 from hmem) (by decide),
    fun x hx => absurd hx (Set.notMem_empty x)⟩
  · rw [hheads]
    exact smallFs_healthy.1.sane
  · revert i
    decide

theorem FileRun.sizes_match_write : ∃ s, FileOp.run emptyFiles (.write 0 [1] 600 ⟨0, 0⟩) = some s ∧
    s.SizesMatch := by
  obtain ⟨s, hrun⟩ : ∃ s, FileOp.run emptyFiles (.write 0 [1] 600 ⟨0, 0⟩) = some s :=
    Option.isSome_iff_exists.mp (by decide +kernel)
  exact ⟨s, hrun, FileRun.sizes_match {2} emptyFiles s emptyFiles_consistent
    (.single ⟨.write 0 [1] 600 ⟨0, 0⟩, ⟨by decide, by decide⟩, rfl, hrun⟩)⟩

/-- A file gets a cluster and is destroyed, another one takes the cluster, the destroyed object is cut to nothing, and a third file takes the cluster again. -/
def reuseOps : List (FileOp (Fin 3)) :=
  [.truncate 0 1, .selfDestruct 0, .truncate 1 1, .truncate 0 0, .truncate 2 1]

private theorem FileRun.reaches_of_foldlM [DecidableEq ι] {ops : List (FileOp ι)} : ∀ {s s' : FileRun ι},
    (∀ op ∈ ops, op.Valid) → ops.foldlM FileOp.run s = some s' → s.Reaches s' := by
  induction ops with
  | nil =>
    intro s s' _ hrun
    obtain rfl := Option.some.inj hrun
    exact .refl
  | cons op ops ih =>
    intro s s' hvalid hrun
    rw [List.foldlM_cons] at hrun
    obtain ⟨s₁, hstep, hrun⟩ := Option.bind_eq_some_iff.mp hrun
    exact .head ⟨op, hvalid op List.mem_cons_self, hstep⟩
      (ih (fun op hop => hvalid op (List.mem_cons_of_mem _ hop)) hrun)

/-- With a call on a destroyed object two files end up with one cluster. -/
theorem FileRun.not_sizesMatch_reuse : emptyFiles.Consistent {2} ∧
    ∃ s, emptyFiles.Reaches s ∧ ¬ s.SizesMatch := by
  refine ⟨emptyFiles_consistent, ?_⟩
  have hrun : ((reuseOps.foldlM FileOp.run emptyFiles).map fun s =>
      (s.readChain 1, s.readChain 2, (s.obj 1).isDeleted, (s.obj 2).isDeleted)) =
      some (some [3], some [3], false, false) := by decide +kernel
  obtain ⟨s, hops, hobs⟩ := Option.map_eq_some_iff.mp hrun
  simp only [Prod.mk.injEq] at hobs
  obtain ⟨hfst, hsnd, hlive, hlive'⟩ := hobs
  refine ⟨s, FileRun.reaches_of_foldlM (by simp [reuseOps, FileOp.Valid]) hops, fun hmatch => ?_⟩
  exact hmatch.disjoint 1 2 hlive hlive' (by decide) [3] [3] hfst hsnd List.mem_cons_self List.mem_cons_self

end FuseFat32
