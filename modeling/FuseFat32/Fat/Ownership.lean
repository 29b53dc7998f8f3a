import FuseFat32.Fat.Resize
import Mathlib.Logic.Relation

/-!
# Runs of the FAT

A run calls the member functions of `class FAT` in any order. The state carries the object, the device and, as a ghost, the heads of the live chains: `allocClus` adds a head, `freeClus` removes one, `resize` replaces the one it is given. The invariant is that the heads own pairwise disjoint chains of data clusters, each ending at a mark. Every step that returns keeps it, zeroes what it releases and leaves the entries of all other chains alone.
-/

namespace FuseFat32

open LinkedTable

structure FatRun where
  fat : FAT
  device : Device
  heads : Set Nat

/-- The FAT as the table its object shows. -/
def FatRun.table (s : FatRun) : Nat → Nat := s.fat.entry s.device

/-- A call of a member function with its arguments. -/
inductive FatOp where
  | availClusCnt
  | allocClus (require_clus_num : Nat)
  | freeClus (fst_clus : Nat)
  | resize (fst_clus clus_num : Nat) (clear : Bool)

/-- The heads after the chain of `head` has become the chain of `fst`; 0 stands for no chain. -/
def rehead (heads : Set Nat) (head fst : Nat) : Set Nat := (heads \ {head}) ∪ ({fst} \ {0})

/-- A call that returns. Chains are named by their heads, and `resize` may also start a chain from 0. -/
inductive FatStep : FatOp → FatRun → FatRun → Prop where
  | availClusCnt {s : FatRun} {fat' cnt} (hrun : s.fat.availClusCnt s.device = some (cnt, fat')) :
      FatStep .availClusCnt s { s with fat := fat' }
  | allocFails {s : FatRun} {fat' d' n} (hpos : 0 < n)
      (hrun : s.fat.allocClus s.device n = some (none, fat', d')) :
      FatStep (.allocClus n) s ⟨fat', d', s.heads⟩
  | alloc {s : FatRun} {fat' d' n l} (hpos : 0 < n)
      (hrun : s.fat.allocClus s.device n = some (some l, fat', d')) :
      FatStep (.allocClus n) s ⟨fat', d', insert (l.headD 0) s.heads⟩
  | free {s : FatRun} {fat' d' head} (hhead : head ∈ s.heads)
      (hrun : s.fat.freeClus s.device head = some (fat', d')) :
      FatStep (.freeClus head) s ⟨fat', d', s.heads \ {head}⟩
  | resize {s : FatRun} {fat' d' head clus_num clear ok fst} (hhead : head = 0 ∨ head ∈ s.heads)
      (hrun : s.fat.resize s.device head clus_num clear = some (ok, fst, fat', d')) :
      FatStep (.resize head clus_num clear) s ⟨fat', d', rehead s.heads head fst⟩

/-- Some calls in a row. -/
def FatRun.Reaches : FatRun → FatRun → Prop := Relation.ReflTransGen fun s s' => ∃ op, FatStep op s s'

/-- The object is well formed, no hint is pending, and the heads own their chains. -/
structure FatRun.Owned (s : FatRun) : Prop where
  wellFormed : s.fat.WellFormed s.device
  hint : s.fat.freeCount = 0xFFFFFFFF
  owners : Owners s.table Eoc s.fat.bpb.DataClus s.heads

/-! ### Heads -/

section heads

variable {bpb : BPB} {T T' : Nat → Nat} {heads : Set Nat} {head k : Nat} {l : List Nat}

theorem zero_notMem_heads (ho : Owners T Eoc bpb.DataClus heads) : 0 ∉ heads :=
  fun h => not_dataClus_zero bpb (ho.good_head h)

theorem exists_chainOf (ho : Owners T Eoc bpb.DataClus heads) (hhead : head = 0 ∨ head ∈ heads) :
    ∃ l, bpb.ChainOf T head l := by
  rcases hhead with rfl | hhead
  · exact ⟨[], .inl ⟨rfl, rfl⟩⟩
  · obtain ⟨l, hw, hgood⟩ := ho.walk head hhead
    exact ⟨l, .inr ⟨ho.good_head hhead, hw, hgood⟩⟩

theorem rehead_zero (heads : Set Nat) (head : Nat) : rehead heads head 0 = heads \ {head} := by
  simp [rehead]

theorem rehead_self (hhead : head ∈ heads) (hne : head ≠ 0) : rehead heads head head = heads := by
  ext x
  by_cases hx : x = head
  · simp [rehead, hx, hhead, hne]
  · simp [rehead, hx]

theorem rehead_of_zero (hzero : 0 ∉ heads) {fst : Nat} (hfst : fst ≠ 0) :
    rehead heads 0 fst = insert fst heads := by
  ext x
  by_cases hx : x = 0
  · simp [rehead, hx, hzero, hfst.symm]
  · by_cases hx' : x = fst <;> simp [rehead, hx, hx', hfst]

/-! ### Cutting and growing a chain of the family -/

theorem owners_cutTable (ho : Owners T Eoc bpb.DataClus heads) (hhead : head = 0 ∨ head ∈ heads)
    (hc : bpb.ChainOf T head l) (hk : k ≤ l.length) :
    Owners (cutTable T l k) Eoc bpb.DataClus (rehead heads head (if k = 0 then 0 else head)) := by
  rcases hc with ⟨rfl, rfl⟩ | ⟨hdata, hc⟩
  · obtain rfl : k = 0 := by simpa using hk
    rw [if_pos rfl, rehead_zero, Set.sdiff_singleton_eq_self (zero_notMem_heads ho)]
    rwa [cutTable, fill_nil]
  · have hne : head ≠ 0 := by rintro rfl; exact not_dataClus_zero bpb hdata
    have hmem := hhead.resolve_left hne
    cases k with
    | zero =>
      rw [if_pos rfl, rehead_zero]
      exact ho.release hmem hc.walk
    | succ k =>
      have hw := hc.walk
      rw [split_at (show k < l.length by omega)] at hw
      rw [if_neg (Nat.succ_ne_zero k), rehead_self hmem hne]
      exact ho.cut eoc_kFat32EocMark hmem hw

theorem notMem_chain_of_free (ho : Owners T Eoc bpb.DataClus heads) {n : Nat} (hn : T n = 0)
    (hhead : head ∈ heads) (hw : Walk T Eoc head l) : n ∉ l :=
  ho.notMem_of_free (not_dataClus_zero bpb) not_eoc_zero hn hhead hw

theorem owners_growTable (hs : bpb.Sound) (ho : Owners T Eoc bpb.DataClus heads)
    (hhead : head = 0 ∨ head ∈ heads) (hc : bpb.ChainOf T head l) {new : List Nat}
    (hne : new ≠ []) (hnodup : new.Nodup) (hdata : ∀ x ∈ new, bpb.DataClus x)
    (hfree : ∀ x ∈ new, T x = 0) :
    Owners (growTable T l new) Eoc bpb.DataClus (rehead heads head ((l ++ new).headD 0)) := by
  obtain ⟨b, new, rfl⟩ := List.exists_cons_of_ne_nil hne
  have hlive : ∀ x ∈ b :: new, ¬ Eoc x := fun x hx => hs.not_endOfClusChain (hdata x hx)
  have hfresh : ∀ h ∈ heads, ∀ l', Walk T Eoc h l' → ∀ x ∈ b :: new, x ∉ l' :=
    fun h hh l' hw x hx => notMem_chain_of_free ho (hfree x hx) hh hw
  rcases hc with ⟨rfl, rfl⟩ | ⟨hgood, hc⟩
  · have hb := (hdata b List.mem_cons_self).1
    rw [List.nil_append, List.headD_cons, rehead_of_zero (zero_notMem_heads ho) (by omega)]
    exact ho.link_fresh eoc_kFat32EocMark hnodup hdata hlive hfresh
  · have hzero : head ≠ 0 := by rintro rfl; exact not_dataClus_zero bpb hgood
    have hmem := hhead.resolve_left hzero
    have hl := hc.ne_nil hs hgood
    obtain ⟨tail, rfl⟩ := hc.walk.head_eq hl
    have hw := hc.walk
    rw [← List.dropLast_append_getLast hl] at hw
    rw [List.cons_append, List.headD_cons, rehead_self hmem hzero, growTable,
      List.getLast?_eq_getLast_of_ne_nil hl]
    exact ho.extend eoc_kFat32EocMark hmem hw hnodup hdata hlive hfresh

end heads

/-! ### One step -/

/-- The clusters a call releases: those of the freed chain, or those past the new length. -/
def FatOp.Releases (bpb : BPB) (T : Nat → Nat) : FatOp → Nat → Prop
  | .freeClus head, x => ∃ l, bpb.ChainOf T head l ∧ x ∈ l
  | .resize head clus_num _, x => ∃ l, bpb.ChainOf T head l ∧ x ∈ l.drop clus_num
  | _, _ => False

/-- The chain a call names. -/
def FatOp.named : FatOp → Option Nat
  | .freeClus head => some head
  | .resize head _ _ => some head
  | _ => none

/-- What a step from `s` to `s'` guarantees. -/
structure FatOp.Kept (op : FatOp) (s s' : FatRun) : Prop where
  owned : s'.Owned
  bpb : s'.fat.bpb = s.fat.bpb
  released : ∀ x, op.Releases s.fat.bpb s.table x → s'.table x = 0
  unnamed : ∀ head ∈ s.heads, op.named ≠ some head → ∀ l, Walk s.table Eoc head l →
    ∀ x ∈ l, s'.table x = s.table x

section step

variable {s s' : FatRun} {T' : Nat → Nat} {op : FatOp}

theorem FatRun.Owned.represents (h : s.Owned) : s.fat.Represents s.device s.table :=
  h.wellFormed.represents

/-- A step is described by the table it leaves. -/
theorem FatOp.kept_of_table (h : s.Owned) (h' : s'.fat.Represents s'.device T')
    (hbpb : s'.fat.bpb = s.fat.bpb) (hhint : s'.fat.freeCount = 0xFFFFFFFF)
    (ho : Owners T' Eoc s.fat.bpb.DataClus s'.heads)
    (hreleased : ∀ x, op.Releases s.fat.bpb s.table x → T' x = 0)
    (hframe : ∀ head ∈ s.heads, op.named ≠ some head → ∀ l, Walk s.table Eoc head l →
      ∀ x ∈ l, T' x = s.table x) : op.Kept s s' := by
  have htable : ∀ x, s.fat.bpb.DataClus x → s'.table x = T' x :=
    fun x hx => h'.entry x (by rw [hbpb]; exact hx.2)
  refine ⟨⟨h'.wellFormed, hhint, ?_⟩, hbpb, fun x hx => ?_, fun head hhead hne l hw x hx => ?_⟩
  · rw [hbpb]
    exact ho.frame fun head hhead l hw x hx => htable x (ho.good_of_mem hhead hw hx)
  · rw [htable x ?_]
    · exact hreleased x hx
    · cases op with
      | freeClus head => exact let ⟨l, hc, hmem⟩ := hx; hc.data x hmem
      | resize head n clear => exact let ⟨l, hc, hmem⟩ := hx; hc.data x (List.mem_of_mem_drop hmem)
      | availClusCnt => exact hx.elim
      | allocClus n => exact hx.elim
  · rw [htable x (h.owners.good_of_mem hhead hw hx)]
    exact hframe head hhead hne l hw x hx

theorem FatRun.Owned.notMem_of_unnamed (h : s.Owned) {head other : Nat} {l l' : List Nat}
    (hhead : head = 0 ∨ head ∈ s.heads) (hc : s.fat.bpb.ChainOf s.table head l)
    (hother : other ∈ s.heads) (hne : head ≠ other) (hw : Walk s.table Eoc other l') {x : Nat}
    (hx : x ∈ l') : x ∉ l := by
  rcases hc with ⟨-, rfl⟩ | ⟨hdata, hc⟩
  · exact List.not_mem_nil
  · have hmem := hhead.resolve_left (by rintro rfl; exact not_dataClus_zero _ hdata)
    exact h.owners.notMem_of_mem hother hmem hne hw hc.walk hx

theorem FatRun.Owned.fresh (h : s.Owned) {n : Nat} (hpos : 0 < n)
    (hfree : n ≤ (s.fat.freeList s.table).length) :
    (s.fat.freeList s.table).take n ≠ [] ∧ ((s.fat.freeList s.table).take n).Nodup ∧
      (∀ x ∈ (s.fat.freeList s.table).take n, s.fat.bpb.DataClus x) ∧
      ∀ x ∈ (s.fat.freeList s.table).take n, s.table x = 0 := by
  have hnew := h.represents.data_take_freeList n
  refine ⟨?_, (nodup_freeList s.fat).sublist (List.take_sublist n _), fun x hx => (hnew x hx).1,
    fun x hx => (hnew x hx).2⟩
  rw [← List.length_pos_iff, List.length_take]
  omega

private theorem FatRun.Owned.kept_alloc (h : s.Owned) {n : Nat} {l : List Nat} {fat' : FAT} {d' : Device}
    (hpos : 0 < n) (hrun : s.fat.allocClus s.device n = some (some l, fat', d')) :
    (FatOp.allocClus n).Kept s ⟨fat', d', insert (l.headD 0) s.heads⟩ := by
  rcases h.represents.allocClus_cases h.hint hpos hrun with
    ⟨-, hres, -⟩ | ⟨-, hfree, hres, rfl, -, h'⟩
  · exact absurd hres (by simp)
  obtain rfl : l = (s.fat.freeList s.table).take n := by simpa using hres
  obtain ⟨hne, hnodup, hdata, hzero⟩ := h.fresh hpos hfree
  refine FatOp.kept_of_table h (by simpa using h') rfl h.hint ?_ (fun x hx => hx.elim) ?_
  · have ho := owners_growTable h.wellFormed.sound h.owners (.inl rfl) (.inl ⟨rfl, rfl⟩) hne hnodup
      hdata hzero
    have hhead : ((s.fat.freeList s.table).take n).headD 0 ≠ 0 := by
      obtain ⟨b, new, hcons⟩ := List.exists_cons_of_ne_nil hne
      have := (hdata b (by simp [hcons])).1
      rw [hcons, List.headD_cons]
      omega
    rwa [List.nil_append, rehead_of_zero (zero_notMem_heads h.owners) hhead] at ho
  · intro head hhead _ l hw x hx
    exact link_of_notMem fun hmem => notMem_chain_of_free h.owners (hzero x hmem) hhead hw hx

private theorem FatRun.Owned.kept_free (h : s.Owned) {head : Nat} {fat' : FAT} {d' : Device}
    (hhead : head ∈ s.heads) (hrun : s.fat.freeClus s.device head = some (fat', d')) :
    (FatOp.freeClus head).Kept s ⟨fat', d', s.heads \ {head}⟩ := by
  obtain ⟨l, hc⟩ := exists_chainOf h.owners (.inr hhead)
  have hdata := h.owners.good_head hhead
  have hchain : s.fat.bpb.Chain s.table head l :=
    (hc.resolve_left fun hzero => not_dataClus_zero _ (hzero.1 ▸ hdata)).2
  obtain ⟨d₁, hfree, -, h'⟩ := h.represents.freeClus hchain hdata
  rw [hfree] at hrun
  simp only [Option.some.injEq, Prod.mk.injEq] at hrun
  obtain ⟨rfl, rfl⟩ := hrun
  refine FatOp.kept_of_table h (by simpa using h') (by simp) (by simpa using h.hint)
    (h.owners.release hhead hchain.walk) (fun x hx => ?_) ?_
  · obtain ⟨l', hc', hmem⟩ := hx
    exact fill_of_mem (hc'.unique hc ▸ hmem)
  · intro other hother hne l' hw x hx
    exact fill_of_notMem (h.notMem_of_unnamed (.inr hhead) hc hother
      (fun heq => hne (congrArg some heq)) hw hx)

theorem FatRun.Owned.kept_resize (h : s.Owned) {head clus_num fst : Nat} {clear ok : Bool}
    {fat' : FAT} {d' : Device} (hhead : head = 0 ∨ head ∈ s.heads)
    (hrun : s.fat.resize s.device head clus_num clear = some (ok, fst, fat', d')) :
    (FatOp.resize head clus_num clear).Kept s ⟨fat', d', rehead s.heads head fst⟩ := by
  obtain ⟨l, hc⟩ := exists_chainOf h.owners hhead
  have hunnamed : ∀ other ∈ s.heads, (FatOp.resize head clus_num clear).named ≠ some other →
      ∀ l', Walk s.table Eoc other l' → ∀ x ∈ l', x ∉ l :=
    fun other hother hne l' hw x hx =>
      h.notMem_of_unnamed hhead hc hother (fun heq => hne (congrArg some heq)) hw hx
  have hgrown : l.length < clus_num →
      ∀ x, ¬ (FatOp.resize head clus_num clear).Releases s.fat.bpb s.table x := by
    rintro hnum x ⟨l', hc', hmem⟩
    rw [hc'.unique hc, List.drop_of_length_le (by omega)] at hmem
    exact List.not_mem_nil hmem
  rcases h.represents.resize_cases hc h.hint hrun with ⟨hnum, -, rfl, rfl, h'⟩ |
    ⟨hnum, -, -, rfl, rfl, rfl⟩ | ⟨hnum, -, hfree, -, rfl, rfl, h'⟩
  · refine FatOp.kept_of_table h (by simpa using h') (by simp) (by simpa using h.hint)
      (owners_cutTable h.owners hhead hc hnum) (fun x hx => ?_) ?_
    · obtain ⟨l', hc', hmem⟩ := hx
      exact cutTable_of_mem_drop (hc'.unique hc ▸ hmem)
    · intro other hother hne l' hw x hx
      exact cutTable_of_notMem (hunnamed other hother hne l' hw x hx) hnum
  · refine FatOp.kept_of_table h (FAT.represents_counted.mpr h.represents) rfl h.hint ?_
      (fun x hx => absurd hx (hgrown hnum x)) fun _ _ _ _ _ _ _ => rfl
    rcases hhead with rfl | hhead
    · rw [rehead_zero, Set.sdiff_singleton_eq_self (zero_notMem_heads h.owners)]
      exact h.owners
    · rw [rehead_self hhead (ne_of_mem_of_not_mem hhead (zero_notMem_heads h.owners))]
      exact h.owners
  · obtain ⟨hne, hnodup, hdata, hzero⟩ := h.fresh (by omega) hfree
    refine FatOp.kept_of_table h (by simpa using h') rfl h.hint
      (owners_growTable h.wellFormed.sound h.owners hhead hc hne hnodup hdata hzero)
      (fun x hx => absurd hx (hgrown hnum x)) ?_
    intro other hother hne' l' hw x hx
    refine growTable_of_notMem fun hmem => ?_
    rcases List.mem_append.mp hmem with hl | hfresh
    · exact hunnamed other hother hne' l' hw x hx hl
    · exact notMem_chain_of_free h.owners (hzero x hfresh) hother hw hx

/-- A step that returns keeps the invariant and leaves the other chains alone. -/
theorem FatStep.kept (h : s.Owned) (hstep : FatStep op s s') : op.Kept s s' := by
  have hcounted : (s.fat.counted s.table).Represents s.device s.table :=
    FAT.represents_counted.mpr h.represents
  cases hstep with
  | availClusCnt hrun =>
    rw [h.represents.availClusCnt] at hrun
    simp only [Option.some.injEq, Prod.mk.injEq] at hrun
    obtain ⟨-, rfl⟩ := hrun
    exact FatOp.kept_of_table h hcounted rfl h.hint h.owners (fun x hx => hx.elim)
      fun _ _ _ _ _ _ _ => rfl
  | allocFails hpos hrun =>
    rcases h.represents.allocClus_cases h.hint hpos hrun with ⟨-, -, rfl, rfl⟩ | ⟨-, -, hres, -⟩
    · exact FatOp.kept_of_table h hcounted rfl h.hint h.owners (fun x hx => hx.elim)
        fun _ _ _ _ _ _ _ => rfl
    · exact absurd hres (by simp)
  | alloc hpos hrun => exact h.kept_alloc hpos hrun
  | free hhead hrun => exact h.kept_free hhead hrun
  | resize hhead hrun => exact h.kept_resize hhead hrun

end step

/-! ### Runs -/

theorem FatRun.Reaches.owned {s₀ s : FatRun} (h₀ : s₀.Owned) (hrun : s₀.Reaches s) : s.Owned := by
  induction hrun with
  | refl => exact h₀
  | tail _ hstep ih =>
    obtain ⟨op, hstep⟩ := hstep
    exact (hstep.kept ih).owned

/-- After every step of every run the live chains are again acyclic, in range, terminated and disjoint; what was released is free, and the chains not named keep their entries. -/
theorem FatRun.chains_kept (s₀ s s' : FatRun) (op : FatOp) (h₀ : s₀.Owned) (hrun : s₀.Reaches s)
    (hstep : FatStep op s s') :
    op.Kept s s' ∧ ∀ head ∈ s'.heads, ∃ l, Walk s'.table Eoc head l ∧ l.Nodup ∧
      (∀ x ∈ l, s'.fat.bpb.DataClus x) ∧
      ∀ other ∈ s'.heads, other ≠ head → ∀ l', Walk s'.table Eoc other l' → l'.Disjoint l := by
  have hkept := hstep.kept (hrun.owned h₀)
  refine ⟨hkept, fun head hhead => ?_⟩
  obtain ⟨l, hw, hgood⟩ := hkept.owned.owners.walk head hhead
  exact ⟨l, hw, hw.nodup, hgood, fun other hother hne l' hw' =>
    hkept.owned.owners.disjoint other hother head hhead hne l' l hw' hw⟩

/-! A volume of six clusters, the first of which holds the root directory. -/

def smallBpb : BPB where
  jmpBoot0 := 0xEB
  jmpBoot2 := 0x90
  bytesPerSec := 512
  secPerClus := 1
  resvdSecCnt := 32
  numFats := 2
  fatSz16 := 0
  totSec32 := 40
  fatSz32 := 1
  rootClus := 2
  fsInfo := 1

theorem smallBpb_sound : smallBpb.Sound := by
  constructor <;> decide

/-- The object before any call, and a device that shows `T`. -/
def smallRun (T : Nat → Nat) : FatRun where
  fat := ⟨smallBpb, 32, 1, 6, 0xFFFFFFFF, none⟩
  device := Device.ofTable smallBpb T fun _ _ => 0
  heads := {2}

theorem smallRun_represents {T : Nat → Nat} (hT : ∀ n, T n < 2 ^ 28) (h0 : T 0 ≠ 0) (h1 : T 1 ≠ 0) :
    (smallRun T).fat.Represents (smallRun T).device T :=
  FAT.represents_ofTable smallBpb_sound (FAT.new_eq smallBpb_sound _) hT h0 h1 _

theorem smallRun_chain {T : Nat → Nat} (hT : ∀ n, T n < 2 ^ 28) (h0 : T 0 ≠ 0) (h1 : T 1 ≠ 0)
    {l : List Nat} (hc : smallBpb.Chain T 2 l) : smallBpb.Chain (smallRun T).table 2 l :=
  ⟨hc.walk.frame fun x hx => (smallRun_represents hT h0 h1).entry x (hc.data x hx).2, hc.data⟩

private theorem smallRun_owned {T : Nat → Nat} (hT : ∀ n, T n < 2 ^ 28) (h0 : T 0 ≠ 0) (h1 : T 1 ≠ 0)
    {l : List Nat} (hc : smallBpb.Chain T 2 l) : (smallRun T).Owned := by
  refine ⟨(smallRun_represents hT h0 h1).wellFormed, rfl, ⟨?_, ?_, ?_⟩⟩
  · rintro head rfl
    exact ⟨l, (smallRun_chain hT h0 h1 hc).walk, hc.data⟩
  · rintro head rfl
    decide
  · rintro head rfl other rfl hne
    exact absurd rfl hne

/-- The table of the volume when the root directory has `l` as its clusters. -/
def smallTable (l : List Nat) (n : Nat) : Nat :=
  if n < 2 then kFat32EocMark else link (fun _ => 0) kFat32EocMark l n

theorem smallTable_lt {l : List Nat} (hdata : ∀ x ∈ l, smallBpb.DataClus x) (n : Nat) :
    smallTable l n < 2 ^ 28 := by
  rw [smallTable]
  split
  · decide
  · refine link_induction (p := fun v => v < 2 ^ 28) (by decide) (fun x hx => ?_) (fun _ => by decide) n
    exact (smallBpb_sound.dataClus_lt (hdata x hx)).trans (by decide)

theorem smallRun_root {l : List Nat} (hnodup : (2 :: l).Nodup) (hdata : ∀ x ∈ 2 :: l, smallBpb.DataClus x) :
    (smallRun (smallTable (2 :: l))).Owned ∧ smallBpb.Chain (smallRun (smallTable (2 :: l))).table 2 (2 :: l) := by
  have hlinked : Walk (link (fun _ => 0) kFat32EocMark (2 :: l)) Eoc 2 (2 :: l) :=
    walk_link hnodup eoc_kFat32EocMark fun x hx => smallBpb_sound.not_endOfClusChain (hdata x hx)
  have hc : smallBpb.Chain (smallTable (2 :: l)) 2 (2 :: l) :=
    ⟨hlinked.frame fun x hx => if_neg (Nat.not_lt.mpr (hdata x hx).1), hdata⟩
  have hT := smallTable_lt hdata
  have hmark : kFat32EocMark ≠ 0 := by decide
  exact ⟨smallRun_owned hT hmark hmark hc, smallRun_chain hT hmark hmark hc⟩

theorem FatRun.chains_kept_small : ∃ s', FatStep (.resize 2 3 true) (smallRun (smallTable [2])) s' ∧
    (FatOp.resize 2 3 true).Kept (smallRun (smallTable [2])) s' := by
  obtain ⟨howned, hc⟩ := smallRun_root (l := []) (by decide) (by decide)
  obtain ⟨d', hrun, -⟩ := howned.represents.resize_grow (.inr ⟨by decide, hc⟩) rfl (show 1 < 3 by decide)
    (by decide) (by decide) true
  have hstep := FatStep.resize (s := smallRun (smallTable [2])) (.inr rfl) hrun
  exact ⟨_, hstep, (FatRun.chains_kept _ _ _ _ howned .refl hstep).1⟩

end FuseFat32
