import FuseFat32.Fat.Copies
import FuseFat32.Fat.Trace

/-!
# One write, and the copies after many

`FAT.WriteLaw` is the law of an array for one write: the entry has the value in every copy, and every other byte of the device is what it was. It needs the sector size and copies that lie apart, and nothing of the rest of the geometry.

A call that writes entries of the FAT only keeps the copies equal in their values. `FatOp.Inside` says of the state before a call that this is what it will do: the links that the call follows stay in the FAT, a cluster handed over at mount as the first free one has an entry, and sectors to be cleared are not sectors of the FAT. The code checks none of the three.
-/

namespace FuseFat32

open LinkedTable

/-! ### The law of one write -/

/-- What a write of `val` to entry `n` that comes back has done. -/
structure FAT.WriteLaw (fat : FAT) (d : Device) (n val : Nat) (d' : Device) : Prop where
  read : ∀ m, fat.bpb.InFat m → fat.readClusEntry d' m =
    if m = n then some (val &&& 0x0FFFFFFF) else fat.readClusEntry d m
  copies : ∀ i < fat.bpb.numFats.toNat, fat.bpb.copyWord d' i n &&& 0x0FFFFFFF = val &&& 0x0FFFFFFF
  reserved : ∀ i < fat.bpb.numFats.toNat, ∀ m, m / 128 < fat.bpb.fatSz32.toNat →
    fat.bpb.copyWord d' i m &&& 0xF0000000 = fat.bpb.copyWord d i m &&& 0xF0000000
  others : ∀ s o, (∀ i < fat.bpb.numFats.toNat,
    ¬ (s = fat.bpb.copySec i n ∧ n % 128 * 4 ≤ o ∧ o < n % 128 * 4 + 4)) → d'.value s o = d.value s o
  secCnt : d'.secCnt = d.secCnt
  stored : d'.stored = d.stored

/-- The copies of the FAT show the same values, whatever their reserved bits. -/
def BPB.ValuesAgree (bpb : BPB) (d : Device) : Prop :=
  ∀ i < bpb.numFats.toNat, ∀ n, n / 128 < bpb.fatSz32.toNat →
    bpb.copyWord d i n &&& 0x0FFFFFFF = bpb.copyWord d 0 n &&& 0x0FFFFFFF

theorem mergeFATClusEntryVal_value (old val : Nat) :
    mergeFATClusEntryVal old val &&& 0x0FFFFFFF = val &&& 0x0FFFFFFF := by
  rw [mergeFATClusEntryVal_and]
  exact (Nat.and_two_pow_sub_one_eq_mod val 28).symm

/-- The byte offset of an entry is computed in `u32`. -/
theorem getClusPosOnFAT_wrap (bpb : BPB) (n : Nat) : getClusPosOnFAT bpb n = getClusPosOnFAT bpb (n % 2 ^ 30) := by
  have hoffset : u32 (n * 4) = u32 (n % 2 ^ 30 * 4) := by
    simp only [u32]
    omega
  rw [getClusPosOnFAT, getClusPosOnFAT, hoffset]

section law

variable {fat : FAT} {d d' : Device} {put : Nat → Option Nat} {fuel cur n m k val : Nat} {l : List Nat}

theorem FAT.entry_of_readClusEntry (hread : fat.readClusEntry d n = some val) : val = fat.entry d n := by
  obtain ⟨sector, hsector, hval⟩ := Option.bind_eq_some_iff.mp hread
  obtain ⟨-, rfl⟩ := (Device.readSector_eq_some _ _).mp hsector
  exact (Option.some.inj hval).symm

variable (hbytes : fat.bpb.bytesPerSec.toNat = sectorSize)

include hbytes

theorem FAT.entry_eq (hn : fat.bpb.InFat n) : fat.entry d n = fat.bpb.copyWord d 0 n &&& 0x0FFFFFFF := by
  have hpos := getClusPosOnFAT_eq hbytes hn.offset
  rw [← BPB.copySec_zero hn.offset] at hpos
  rw [FAT.entry, hpos]
  rfl

variable (happart : fat.bpb.CopiesApart)

include happart

private theorem FAT.exists_writeClusEntry (hn : fat.bpb.InFat n)
    (hsec : ∀ i < fat.bpb.numFats.toNat, fat.bpb.copySec i n < d.secCnt) (val : Nat) :
    ∃ d', fat.writeClusEntry d n val = some d' :=
  let ⟨d', hrun, _⟩ := FAT.exists_writeFatEntry hbytes happart hn hsec val
  ⟨d', hrun⟩

private theorem FAT.writeLaw (hn : fat.bpb.InFat n) (hrun : fat.writeClusEntry d n val = some d') :
    fat.WriteLaw d n val d' := by
  have h := FAT.entryWritten hbytes happart hn hrun
  constructor
  case read =>
    intro m hm
    have hfound : fat.bpb.copySec 0 n < d.secCnt := by
      rw [FAT.writeClusEntry, FAT.writeFatEntry_pos hbytes hn] at hrun
      exact (FAT.copySec_lt_of_writeFatCopies hrun).2 0 hn.copy
    rw [FAT.readClusEntry, FAT.readClusEntry, FAT.readFatEntry_pos hbytes hm, FAT.readFatEntry_pos hbytes hm,
      h.secCnt, h.copyWord happart hn.row hm.row hn.copy]
    by_cases heq : m = n
    · subst heq
      rw [if_pos hfound, if_pos rfl, if_pos rfl, mergeFATClusEntryVal_value]
    · rw [if_neg heq, if_neg heq]
  case copies =>
    intro i hi
    rw [h.word i hi, mergeFATClusEntryVal_value]
  case reserved =>
    intro i hi m hm
    rw [h.copyWord happart hn.row hm hi]
    split
    · next heq => rw [mergeFATClusEntryVal_reserved, heq]
    · rfl
  case others =>
    intro s o hout
    refine h.frame s o fun i hi hs => ?_
    have hword := hout i hi
    omega
  case secCnt => exact h.secCnt
  case stored => exact h.stored

/-- Entries past 2^30 wrap, and so stay in their copy as well. -/
theorem BPB.ValuesAgree.writeClusEntry (h : fat.bpb.ValuesAgree d) (hn : n / 128 < fat.bpb.fatSz32.toNat)
    (hrun : fat.writeClusEntry d n val = some d') : fat.bpb.ValuesAgree d' := by
  intro i hi m hm
  have hin : fat.bpb.InFat (n % 2 ^ 30) := ⟨by omega, by omega, by omega⟩
  rw [FAT.writeClusEntry, getClusPosOnFAT_wrap] at hrun
  have hwritten := FAT.entryWritten hbytes happart hin hrun
  rw [hwritten.copyWord happart hin.row hm hi, hwritten.copyWord happart hin.row hm hin.copy]
  split
  · rw [mergeFATClusEntryVal_value, mergeFATClusEntryVal_value]
  · exact h i hi m hm

theorem BPB.ValuesAgree.leaveEntry (h : fat.bpb.ValuesAgree d) (hn : fat.bpb.InFat n) {o : Option Nat}
    (ho : ∀ v ∈ o, v < 2 ^ 28) (hrun : fat.leaveEntry d n o = some d') :
    fat.bpb.ValuesAgree d' ∧ ∀ x, fat.bpb.InFat x → fat.entry d' x = leave (fat.entry d) n o x := by
  cases o with
  | none =>
    obtain rfl := Option.some.inj hrun
    exact ⟨h, fun _ _ => rfl⟩
  | some v =>
    have hwritten := FAT.entryWritten hbytes happart hn hrun
    refine ⟨h.writeClusEntry hbytes happart hn.row hrun, fun x hx => ?_⟩
    rw [FAT.entry_eq hbytes hx, hwritten.copyWord happart hn.row hx.row hn.copy]
    by_cases heq : x = n
    · rw [if_pos heq, heq, leave_self, mergeFATClusEntryVal_and, Nat.mod_eq_of_lt (ho v rfl)]
      rfl
    · rw [if_neg heq, leave_of_ne heq, FAT.entry_eq hbytes hx]

theorem BPB.ValuesAgree.trace (h : fat.bpb.ValuesAgree d) (hput : ∀ k, ∀ v ∈ put k, v < 2 ^ 28)
    (hin : Within Eoc fat.bpb.InFat put (fat.entry d) k cur)
    (hrun : fat.trace put fuel d cur k = some (l, d')) :
    fat.bpb.ValuesAgree d' ∧ ∀ x ∈ l, fat.bpb.InFat x := by
  induction fuel generalizing d cur k l with
  | zero => cases hrun
  | succ fuel ih =>
    by_cases hcur : Eoc cur
    · rw [FAT.trace_stop hcur, Option.some.injEq, Prod.mk.injEq] at hrun
      obtain ⟨rfl, rfl⟩ := hrun
      exact ⟨h, fun x hx => absurd hx List.not_mem_nil⟩
    obtain ⟨next, d₁, l₁, hread, hleave, hrest, rfl⟩ := FAT.trace_inv hcur hrun
    obtain rfl := FAT.entry_of_readClusEntry hread
    obtain ⟨h₁, hentry⟩ := h.leaveEntry hbytes happart (hin.head hcur) (hput k) hleave
    obtain ⟨h', hl⟩ := ih h₁ ((hin.tail hcur).congr hentry) hrest
    refine ⟨h', fun x hx => ?_⟩
    rcases List.mem_cons.mp hx with rfl | hx
    · exact hin.head hcur
    · exact hl x hx

end law

/-! ### What a call may come to -/

/-- The sectors that `clearClusChain` clears for cluster `x` are no sectors of the FAT. -/
def BPB.OffFat (bpb : BPB) (x : Nat) : Prop :=
  ∀ s, getFirstSectorOfCluster bpb x ≤ s → s < u32 (getFirstSectorOfCluster bpb x + bpb.secPerClus.toNat) →
    ∀ i < bpb.numFats.toNat, ∀ r < bpb.fatSz32.toNat,
      s ≠ u32 (bpb.resvdSecCnt.toNat + r + i * bpb.fatSz32.toNat)

/-- The cluster handed over at mount has been used, or there is an entry for it. -/
def FAT.HintInside (fat : FAT) : Prop :=
  fat.freeCount = 0xFFFFFFFF ∨ fat.freeCount / 128 < fat.bpb.fatSz32.toNat

/-- The clusters that `allocClus` may take. -/
def FAT.MayTake (fat : FAT) (x : Nat) : Prop :=
  (fat.freeCount ≠ 0xFFFFFFFF ∧ x = fat.freeCount) ∨ x < fat.cntOfClus

/-- `resize` has to allocate: the links end before `clus_num` clusters. -/
def FAT.Grows (fat : FAT) (d : Device) (fst_clus clus_num : Nat) : Prop :=
  0 < clus_num ∧ (isValidCluster fst_clus = true → ∃ j < clus_num, Eoc ((fat.entry d)^[j] fst_clus))

/-- The state before the call is such that it writes entries of the FAT only. -/
def FatOp.Inside (fat : FAT) (d : Device) : FatOp → Prop
  | .availClusCnt => True
  | .allocClus _ => fat.HintInside
  | .freeClus fst_clus =>
    isValidCluster fst_clus = true → Within Eoc fat.bpb.InFat freePut (fat.entry d) 0 fst_clus
  | .resize fst_clus clus_num clear =>
    (isValidCluster fst_clus = true →
      Within Eoc fat.bpb.InFat (resizePut clus_num) (fat.entry d) 0 fst_clus) ∧
    (fat.Grows d fst_clus clus_num → fat.HintInside ∧
      (isValidCluster fst_clus = true → fat.bpb.InFat fst_clus) ∧
      (clear = true → ∀ x, isValidCluster x = true → fat.MayTake x → fat.bpb.OffFat x))

/-- The object and the device after a call that comes back. -/
def FatOp.call (fat : FAT) (d : Device) : FatOp → Exec (FAT × Device)
  | .availClusCnt => (fat.availClusCnt d).map fun x => (x.2, d)
  | .allocClus require_clus_num => (fat.allocClus d require_clus_num).map fun x => x.2
  | .freeClus fst_clus => fat.freeClus d fst_clus
  | .resize fst_clus clus_num clear => (fat.resize d fst_clus clus_num clear).map fun x => x.2.2

/-- Calls in a row, each from a state in which it stays inside. -/
def InsideRun : FAT × Device → FAT × Device → Prop :=
  Relation.ReflTransGen fun s s' => ∃ op : FatOp, op.Inside s.1 s.2 ∧ op.call s.1 s.2 = some s'

/-- The members that tell the scan where the first copy is. -/
structure FAT.Placed (fat : FAT) : Prop where
  startSecNo : fat.startSecNo = fat.bpb.resvdSecCnt.toNat
  fatSecNum : fat.fatSecNum = fat.bpb.fatSz32.toNat

section calls

variable {fat fat' : FAT} {d d' : Device} {n c cur k todo fuel : Nat} {l l' : List Nat}

private theorem FAT.Placed.row_of_inTable (hp : fat.Placed) (hin : fat.inTable n = true) :
    n / 128 < fat.bpb.fatSz32.toNat := by
  have hend : fat.endSecNo ≤ fat.startSecNo + fat.fatSecNum := Nat.mod_le _ _
  rw [FAT.inTable, decide_eq_true_eq, show entriesPerSec = 128 by decide] at hin
  have hsize := hp.fatSecNum
  omega

theorem FAT.availClusCnt_members {cnt : Nat} (hrun : fat.availClusCnt d = some (cnt, fat')) :
    ∃ avail, fat' = { fat with availCnt := avail } := by
  rw [FAT.availClusCnt] at hrun
  split at hrun
  · simp only [Option.some.injEq, Prod.mk.injEq] at hrun
    exact ⟨fat.availCnt, hrun.2.symm⟩
  · obtain ⟨cnt', -, hret⟩ := Option.bind_eq_some_iff.mp hrun
    simp only [Option.pure_def, Option.some.injEq, Prod.mk.injEq] at hret
    exact ⟨_, hret.2.symm⟩

private theorem FAT.resizeTrace_short (hrun : fat.trace (resizePut n) fuel d cur k = some (l, d'))
    (hshort : k + l.length < n) : d' = d ∧ Eoc ((fat.entry d)^[l.length] cur) := by
  induction fuel generalizing cur k l with
  | zero => cases hrun
  | succ fuel ih =>
    by_cases hcur : Eoc cur
    · rw [FAT.trace_stop hcur, Option.some.injEq, Prod.mk.injEq] at hrun
      obtain ⟨rfl, rfl⟩ := hrun
      exact ⟨rfl, hcur⟩
    obtain ⟨next, d₁, l₁, hread, hleave, hrest, rfl⟩ := FAT.trace_inv hcur hrun
    rw [List.length_cons] at hshort ⊢
    rw [resizePut, if_neg (by omega), if_neg (by omega)] at hleave
    obtain rfl := Option.some.inj hleave
    obtain rfl := FAT.entry_of_readClusEntry hread
    exact ih hrest (by omega)

variable (hbytes : fat.bpb.bytesPerSec.toNat = sectorSize) (happart : fat.bpb.CopiesApart)

include hbytes happart

theorem BPB.ValuesAgree.linkPre (h : fat.bpb.ValuesAgree d) (hcur : cur ≠ 0 → cur / 128 < fat.bpb.fatSz32.toNat)
    (hrun : fat.linkPre d cur c = some d') : fat.bpb.ValuesAgree d' := by
  rw [FAT.linkPre] at hrun
  split at hrun
  · next hne => exact h.writeClusEntry hbytes happart (hcur hne) hrun
  · obtain rfl := Option.some.inj hrun
    exact h

omit hbytes happart in
theorem BPB.ValuesAgree.allocLoop {num : Nat} : ∀ {todo : Nat} (fat : FAT) {fat' : FAT} {d d' : Device}
    {c cur a : Nat} {l l' : List Nat}, fat.bpb.bytesPerSec.toNat = sectorSize → fat.bpb.CopiesApart → fat.Placed →
    fat.bpb.ValuesAgree d → (cur ≠ 0 → cur / 128 < fat.bpb.fatSz32.toNat) →
    FAT.allocLoop num todo fat d c cur a l = some (l', fat', d') →
    fat'.bpb = fat.bpb ∧ fat'.Placed ∧ fat.bpb.ValuesAgree d' ∧ ∀ x ∈ l', x ∈ l ∨ x < c + todo := by
  intro todo
  induction todo with
  | zero =>
    intro fat fat' d d' c cur a l l' _ _ _ _ _ hrun
    cases hrun
  | succ todo ih =>
    intro fat fat' d d' c cur a l l' hbytes happart hp h hcur hrun
    rw [FAT.allocLoop] at hrun
    split at hrun
    case isFalse => cases hrun
    case isTrue hin =>
    have hrow := hp.row_of_inTable hin
    obtain ⟨val, -, hrun⟩ := Option.bind_eq_some_iff.mp hrun
    split at hrun
    case isFalse =>
      obtain ⟨hbpb, hp', h', hl⟩ := ih fat hbytes happart hp h hcur hrun
      exact ⟨hbpb, hp', h', fun x hx => (hl x hx).imp_right fun hlt => by omega⟩
    case isTrue =>
    obtain ⟨d₁, hlink, hrun⟩ := Option.bind_eq_some_iff.mp hrun
    have h₁ := h.linkPre hbytes happart hcur hlink
    have hp₁ : (fat.decAvailCnt 1).Placed := ⟨hp.startSecNo, hp.fatSecNum⟩
    split at hrun
    case isTrue =>
      obtain ⟨d₂, hwrite, hret⟩ := Option.bind_eq_some_iff.mp hrun
      simp only [Option.pure_def, Option.some.injEq, Prod.mk.injEq] at hret
      obtain ⟨rfl, rfl, rfl⟩ := hret
      refine ⟨rfl, hp₁, h₁.writeClusEntry hbytes happart hrow hwrite, fun x hx => ?_⟩
      rcases List.mem_append.mp hx with hx | hx
      · exact .inl hx
      · exact .inr (by rw [List.mem_singleton.mp hx]; omega)
    case isFalse =>
      obtain ⟨hbpb, hp', h', hl⟩ := ih (fat.decAvailCnt 1) hbytes happart hp₁ h₁ (fun _ => hrow) hrun
      refine ⟨hbpb, hp', h', fun x hx => ?_⟩
      rcases hl x hx with hx | hlt
      · rcases List.mem_append.mp hx with hx | hx
        · exact .inl hx
        · exact .inr (by rw [List.mem_singleton.mp hx]; omega)
      · exact .inr (by omega)

theorem BPB.ValuesAgree.allocClus (h : fat.bpb.ValuesAgree d) (hp : fat.Placed) (hhint : fat.HintInside)
    {res : Option (List Nat)} (hrun : fat.allocClus d n = some (res, fat', d')) :
    fat'.bpb = fat.bpb ∧ fat'.Placed ∧ fat.bpb.ValuesAgree d' ∧ ∀ l, res = some l → ∀ x ∈ l, fat.MayTake x := by
  rw [FAT.allocClus] at hrun
  obtain ⟨⟨avail, fat₁⟩, hcount, hrun⟩ := Option.bind_eq_some_iff.mp hrun
  obtain ⟨o, rfl⟩ := FAT.availClusCnt_members hcount
  dsimp only at hrun
  split at hrun
  case isTrue =>
    simp only [Option.pure_def, Option.some.injEq, Prod.mk.injEq] at hrun
    obtain ⟨rfl, rfl, rfl⟩ := hrun
    exact ⟨rfl, ⟨hp.startSecNo, hp.fatSecNum⟩, h, fun l hl => by cases hl⟩
  case isFalse =>
  split at hrun
  case isTrue hne =>
    have hrow := hhint.resolve_left hne
    split at hrun
    case isTrue =>
      obtain ⟨d₁, hwrite, hret⟩ := Option.bind_eq_some_iff.mp hrun
      simp only [Option.pure_def, Option.some.injEq, Prod.mk.injEq] at hret
      obtain ⟨rfl, rfl, rfl⟩ := hret
      refine ⟨rfl, ⟨hp.startSecNo, hp.fatSecNum⟩, h.writeClusEntry hbytes happart hrow hwrite, ?_⟩
      rintro l hl x hx
      obtain rfl := Option.some.inj hl
      exact .inl ⟨hne, List.mem_singleton.mp hx⟩
    case isFalse =>
      obtain ⟨⟨l', fat₂, d₂⟩, hloop, hret⟩ := Option.bind_eq_some_iff.mp hrun
      simp only [Option.pure_def, Option.some.injEq, Prod.mk.injEq] at hret
      obtain ⟨rfl, rfl, rfl⟩ := hret
      obtain ⟨hbpb, hp', h', hl⟩ := BPB.ValuesAgree.allocLoop (FAT.takeHint { fat with availCnt := o })
        hbytes happart ⟨hp.startSecNo, hp.fatSecNum⟩ h (fun _ => hrow) hloop
      refine ⟨hbpb, hp', h', ?_⟩
      rintro l hl' x hx
      obtain rfl := Option.some.inj hl'
      rcases hl x hx with hx | hlt
      · exact .inl ⟨hne, List.mem_singleton.mp hx⟩
      · exact .inr (hlt.trans_eq (Nat.zero_add _))
  case isFalse =>
    obtain ⟨⟨l', fat₂, d₂⟩, hloop, hret⟩ := Option.bind_eq_some_iff.mp hrun
    simp only [Option.pure_def, Option.some.injEq, Prod.mk.injEq] at hret
    obtain ⟨rfl, rfl, rfl⟩ := hret
    obtain ⟨hbpb, hp', h', hl⟩ := BPB.ValuesAgree.allocLoop { fat with availCnt := o }
      hbytes happart ⟨hp.startSecNo, hp.fatSecNum⟩ h (fun hne => absurd rfl hne) hloop
    refine ⟨hbpb, hp', h', ?_⟩
    rintro l hl' x hx
    obtain rfl := Option.some.inj hl'
    rcases hl x hx with hx | hlt
    · exact absurd hx List.not_mem_nil
    · exact .inr (hlt.trans_eq (Nat.zero_add _))

omit hbytes happart in
theorem BPB.ValuesAgree.clearClusChain (h : fat.bpb.ValuesAgree d)
    (hoff : ∀ x ∈ l, isValidCluster x = true → fat.bpb.OffFat x)
    (hrun : fat.clearClusChain d l = some d') : fat.bpb.ValuesAgree d' := by
  -- one sector
  have hsector : ∀ {s : Nat} {d d' : Device}, (∀ i < fat.bpb.numFats.toNat, ∀ r < fat.bpb.fatSz32.toNat,
      s ≠ u32 (fat.bpb.resvdSecCnt.toNat + r + i * fat.bpb.fatSz32.toNat)) →
      fat.bpb.ValuesAgree d → fat.clearSector d s = some d' → fat.bpb.ValuesAgree d' := by
    intro s d d' hs h hclear i hi m hm
    obtain ⟨_, -, hret⟩ := Option.bind_eq_some_iff.mp hclear
    obtain rfl := Option.some.inj hret
    have hword : ∀ j < fat.bpb.numFats.toNat, fat.bpb.copyWord
        (d.write s 0 (List.replicate fat.bpb.bytesPerSec.toNat 0)) j m = fat.bpb.copyWord d j m := fun j hj =>
      BPB.copyWord_congr fun o _ _ => d.value_write_of_ne _ _ _ (hs j hj _ hm).symm o
    rw [hword i hi, hword 0 (by omega)]
    exact h i hi m hm
  refine foldlM_keeps (fun x hx d d' h hclear => ?_) h hrun
  obtain ⟨_, hvalid, hfold⟩ := Option.bind_eq_some_iff.mp hclear
  refine foldlM_keeps (fun j hj d d' h hclear => hsector ?_ h hclear) h hfold
  have hlt := List.mem_range.mp hj
  exact hoff x hx (assert_eq_some.mp hvalid) _ (by omega) (by omega)

theorem BPB.ValuesAgree.resizeWalk (h : fat.bpb.ValuesAgree d) (hp : fat.Placed)
    (hin : isValidCluster c = true → Within Eoc fat.bpb.InFat (resizePut n) (fat.entry d) 0 c) {pre cnt : Nat}
    (hrun : fat.resizeWalk d c n = some ((pre, cnt), fat', d')) :
    fat'.bpb = fat.bpb ∧ fat'.Placed ∧ fat.bpb.ValuesAgree d' ∧
      (cnt < n → fat.Grows d c n ∧ fat' = fat ∧ d' = d ∧ (pre = c ∨ fat.bpb.InFat pre)) := by
  by_cases hc : isValidCluster c = true
  · rw [FAT.resizeWalk_eq_trace hc] at hrun
    obtain ⟨⟨l, d₁⟩, htrace, hret⟩ := Option.map_eq_some_iff.mp hrun
    simp only [Prod.mk.injEq] at hret
    obtain ⟨⟨rfl, rfl⟩, rfl, rfl⟩ := hret
    have hput : ∀ k, ∀ v ∈ resizePut n k, v < 2 ^ 28 := by
      intro k v hv
      rw [resizePut] at hv
      split at hv
      · obtain rfl := Option.some.inj hv
        decide
      · split at hv
        · obtain rfl := Option.some.inj hv
          decide
        · cases hv
    obtain ⟨h', hl⟩ := h.trace hbytes happart hput (hin hc) htrace
    refine ⟨FAT.bpb_decTimes _, ?_, h', fun hshort => ?_⟩
    · rw [FAT.decTimes]
      split
      · exact hp
      · exact ⟨hp.startSecNo, hp.fatSecNum⟩
    · obtain ⟨rfl, hend⟩ := FAT.resizeTrace_short htrace (by omega)
      refine ⟨⟨by omega, fun _ => ⟨l.length, hshort, hend⟩⟩, ?_, rfl, ?_⟩
      · rw [Nat.sub_eq_zero_of_le hshort.le]
        rfl
      · rcases List.eq_nil_or_concat l with rfl | ⟨l, x, rfl⟩
        · exact .inl rfl
        · refine .inr (hl _ ?_)
          simp
  · rw [FAT.resizeWalk, if_neg hc] at hrun
    simp only [Option.some.injEq, Prod.mk.injEq] at hrun
    obtain ⟨⟨rfl, rfl⟩, rfl, rfl⟩ := hrun
    exact ⟨rfl, hp, h, fun hpos => ⟨⟨hpos, fun hvalid => absurd hvalid hc⟩, rfl, rfl, .inl rfl⟩⟩

theorem BPB.ValuesAgree.resize (h : fat.bpb.ValuesAgree d) (hp : fat.Placed) {clear ok : Bool} {fst : Nat}
    (hin : (FatOp.resize c n clear).Inside fat d) (hrun : fat.resize d c n clear = some (ok, fst, fat', d')) :
    fat'.bpb = fat.bpb ∧ fat'.Placed ∧ fat.bpb.ValuesAgree d' := by
  obtain ⟨hwithin, hgrow⟩ := hin
  rw [FAT.resize] at hrun
  obtain ⟨⟨⟨pre, cnt⟩, fat₁, d₁⟩, hwalk, hrest⟩ := Option.bind_eq_some_iff.mp hrun
  obtain ⟨hbpb₁, hp₁, h₁, hshort⟩ := h.resizeWalk hbytes happart hp hwithin hwalk
  clear hrun hwalk
  dsimp only at hrest
  split at hrest
  case isFalse =>
    have hret : fat' = fat₁ ∧ d' = d₁ := by
      split at hrest
      all_goals
        simp only [Option.pure_def, Option.some.injEq, Prod.mk.injEq] at hrest
        exact ⟨hrest.2.2.1.symm, hrest.2.2.2.symm⟩
    obtain ⟨rfl, rfl⟩ := hret
    exact ⟨hbpb₁, hp₁, h₁⟩
  case isTrue hlt =>
  obtain ⟨hgrows, rfl, rfl, hpre⟩ := hshort hlt
  obtain ⟨hhint, hfst, hoff⟩ := hgrow hgrows
  obtain ⟨⟨res, fat₂, d₂⟩, halloc, hlink⟩ := Option.bind_eq_some_iff.mp hrest
  obtain ⟨hbpb₂, hp₂, h₂, htaken⟩ := h₁.allocClus hbytes happart hp₁ hhint halloc
  clear hrest halloc
  cases res with
  | none =>
    simp only [Option.pure_def, Option.some.injEq, Prod.mk.injEq] at hlink
    obtain ⟨-, -, rfl, rfl⟩ := hlink
    exact ⟨hbpb₂, hp₂, h₂⟩
  | some chain =>
    dsimp only at hlink
    obtain ⟨d₃, hclear, hlast⟩ := Option.bind_eq_some_iff.mp hlink
    rw [← hbpb₂] at h₂ hbytes happart hpre hfst hoff ⊢
    have h₃ : fat₂.bpb.ValuesAgree d₃ := by
      rw [FAT.clearIf] at hclear
      split at hclear
      · next hset => exact h₂.clearClusChain (fun x hx hvalid => hoff hset x hvalid (htaken _ rfl x hx)) hclear
      · exact Option.some.inj hclear ▸ h₂
    split at hlast
    case isTrue =>
      simp only [Option.pure_def, Option.some.injEq, Prod.mk.injEq] at hlast
      obtain ⟨-, -, rfl, rfl⟩ := hlast
      exact ⟨rfl, hp₂, h₃⟩
    case isFalse hvalid =>
      have hrow : fat₂.bpb.InFat pre := by
        rcases hpre with rfl | hpre
        · exact hfst (by simpa using hvalid)
        · exact hpre
      obtain ⟨d₄, hwrite, hret⟩ := Option.bind_eq_some_iff.mp hlast
      simp only [Option.pure_def, Option.some.injEq, Prod.mk.injEq] at hret
      obtain ⟨-, -, rfl, rfl⟩ := hret
      exact ⟨rfl, hp₂, h₃.writeClusEntry hbytes happart hrow.row hwrite⟩

/-- A call that stays inside keeps the copies equal. -/
theorem BPB.ValuesAgree.call (h : fat.bpb.ValuesAgree d) (hp : fat.Placed) {op : FatOp} (hin : op.Inside fat d)
    (hrun : op.call fat d = some (fat', d')) : fat'.bpb = fat.bpb ∧ fat'.Placed ∧ fat.bpb.ValuesAgree d' := by
  cases op with
  | availClusCnt =>
    obtain ⟨⟨cnt, fat₁⟩, hcount, hret⟩ := Option.map_eq_some_iff.mp hrun
    obtain ⟨o, rfl⟩ := FAT.availClusCnt_members hcount
    simp only [Prod.mk.injEq] at hret
    obtain ⟨rfl, rfl⟩ := hret
    exact ⟨rfl, ⟨hp.startSecNo, hp.fatSecNum⟩, h⟩
  | allocClus n =>
    obtain ⟨⟨res, fat₁, d₁⟩, halloc, hret⟩ := Option.map_eq_some_iff.mp hrun
    obtain ⟨rfl, rfl⟩ := Prod.mk.inj hret
    obtain ⟨hbpb, hp', h', -⟩ := h.allocClus hbytes happart hp hin halloc
    exact ⟨hbpb, hp', h'⟩
  | freeClus c =>
    by_cases hc : isValidCluster c = true
    · rw [FatOp.call, FAT.freeClus_eq_trace hc] at hrun
      obtain ⟨⟨l, d₁⟩, htrace, hret⟩ := Option.map_eq_some_iff.mp hrun
      obtain ⟨rfl, rfl⟩ := Prod.mk.inj hret
      have hput : ∀ k, ∀ v ∈ freePut k, v < 2 ^ 28 := fun k v hv => by
        obtain rfl := Option.some.inj hv
        decide
      refine ⟨FAT.bpb_incTimes _, ?_, (h.trace hbytes happart hput (hin hc) htrace).1⟩
      dsimp only
      rw [FAT.incTimes]
      split
      · exact hp
      · exact ⟨hp.startSecNo, hp.fatSecNum⟩
    · rw [FatOp.call, FAT.freeClus, if_neg hc] at hrun
      obtain ⟨rfl, rfl⟩ := Prod.mk.inj (Option.some.inj hrun)
      exact ⟨rfl, hp, h⟩
  | resize c n clear =>
    obtain ⟨⟨ok, fst, fat₁, d₁⟩, hresize, hret⟩ := Option.map_eq_some_iff.mp hrun
    obtain ⟨rfl, rfl⟩ := Prod.mk.inj hret
    exact h.resize hbytes happart hp hin hresize

end calls

/-! ### Runs -/

theorem InsideRun.valuesAgree {s s' : FAT × Device} (hrun : InsideRun s s')
    (hbytes : s.1.bpb.bytesPerSec.toNat = sectorSize) (happart : s.1.bpb.CopiesApart) (hp : s.1.Placed)
    (h : s.1.bpb.ValuesAgree s.2) : s'.1.bpb = s.1.bpb ∧ s'.1.Placed ∧ s.1.bpb.ValuesAgree s'.2 := by
  induction hrun with
  | refl => exact ⟨rfl, hp, h⟩
  | tail _ hstep ih =>
    obtain ⟨op, hin, hcall⟩ := hstep
    obtain ⟨hbpb, hp₁, h₁⟩ := ih
    rw [← hbpb] at h₁ hbytes happart ⊢
    exact h₁.call hbytes happart hp₁ hin hcall

private theorem FAT.placed_of_new {bpb : BPB} {free_count : Nat} {fat : FAT} (hnew : FAT.new bpb free_count = some fat) :
    fat.bpb = bpb ∧ fat.Placed := by
  obtain ⟨cnt, -, hret⟩ := Option.bind_eq_some_iff.mp hnew
  obtain rfl := Option.some.inj hret
  refine ⟨rfl, ?_, rfl⟩
  have hresvd := bpb.resvdSecCnt.toNat_lt
  simp only [getFirstFATSector]
  rw [Nat.zero_mul, Nat.add_zero, u32_of_lt (by omega)]

private theorem BPB.Sound.offFat {bpb : BPB} (hs : bpb.Sound) {x : Nat} (hx : bpb.DataClus x) : bpb.OffFat x := by
  intro s hlo _ i hi r hr heq
  have hdata := (hs.sector_bounds hx hs.secPerClus).1
  have hcopy := hs.copy_le hi
  rw [hs.copySec_eq hi hr] at heq
  omega

/-- A call on a volume whose chains are in order stays inside. -/
theorem FatStep.inside {op : FatOp} {s s' : FatRun} (h : s.Owned) (hstep : FatStep op s s') :
    op.Inside s.fat s.device ∧ op.call s.fat s.device = some (s'.fat, s'.device) := by
  have hs := h.wellFormed.sound
  have hwithin : ∀ head ∈ s.heads, ∀ put, Within Eoc s.fat.bpb.InFat put (s.fat.entry s.device) 0 head := by
    intro head hhead put
    obtain ⟨l, hw, hgood⟩ := h.owners.walk head hhead
    exact hw.within (fun x hx => hs.inFat (hgood x hx).2) put 0
  cases hstep with
  | availClusCnt hrun => exact ⟨trivial, by rw [FatOp.call, hrun, Option.map_some]⟩
  | allocFails _ hrun => exact ⟨.inl h.hint, by rw [FatOp.call, hrun, Option.map_some]⟩
  | alloc _ hrun => exact ⟨.inl h.hint, by rw [FatOp.call, hrun, Option.map_some]⟩
  | free hhead hrun => exact ⟨fun _ => hwithin _ hhead _, hrun⟩
  | resize hhead hrun =>
    refine ⟨⟨fun hvalid => ?_, fun _ => ⟨.inl h.hint, fun hvalid => ?_, fun _ x hvalid htake => ?_⟩⟩, ?_⟩
    · exact hwithin _ (hhead.resolve_left fun hzero => by rw [hzero] at hvalid; cases hvalid) _
    · have hmem := hhead.resolve_left fun hzero => by rw [hzero] at hvalid; cases hvalid
      exact hs.inFat (h.owners.good_head hmem).2
    · have hlt := htake.resolve_left fun hhint => hhint.1 h.hint
      rw [h.wellFormed.cntOfClus] at hlt
      simp only [isValidCluster, decide_eq_true_eq] at hvalid
      exact hs.offFat ⟨by omega, by omega⟩
    · rw [FatOp.call, hrun, Option.map_some]

/-- On a volume whose chains are in order every run stays inside. -/
theorem FatRun.Reaches.insideRun {s s' : FatRun} (h : s.Owned) (hrun : s.Reaches s') :
    InsideRun (s.fat, s.device) (s'.fat, s'.device) := by
  induction hrun with
  | refl => exact .refl
  | tail hrun hstep ih =>
    obtain ⟨op, hstep⟩ := hstep
    exact ih.tail ⟨op, hstep.inside (FatRun.Reaches.owned h hrun)⟩

theorem FatRun.Reaches.valuesAgree {s s' : FatRun} (h : s.Owned) (hagree : s.fat.bpb.ValuesAgree s.device)
    (hrun : s.Reaches s') : s.fat.bpb.ValuesAgree s'.device :=
  have hs := h.wellFormed.sound
  ((hrun.insideRun h).valuesAgree hs.bytesPerSec hs.copiesApart
    ⟨h.wellFormed.startSecNo, h.wellFormed.fatSecNum⟩ hagree).2.2

/-- A write is the write of an array, and copies that agree at mount agree after calls that stay inside. -/
theorem BPB.copies_agree (bpb : BPB) (hbytes : bpb.bytesPerSec.toNat = sectorSize) (happart : bpb.CopiesApart) :
    (∀ (fat : FAT) (d : Device) (n val : Nat), fat.bpb = bpb → bpb.InFat n →
      ((∀ i < bpb.numFats.toNat, bpb.copySec i n < d.secCnt) → ∃ d', fat.writeClusEntry d n val = some d') ∧
      ∀ d', fat.writeClusEntry d n val = some d' → fat.WriteLaw d n val d') ∧
    ∀ (free_count : Nat) (fat : FAT) (d : Device) (s : FAT × Device), FAT.new bpb free_count = some fat →
      bpb.ValuesAgree d → InsideRun (fat, d) s → bpb.ValuesAgree s.2 := by
  constructor
  · rintro fat d n val rfl hn
    exact ⟨fun hsec => FAT.exists_writeClusEntry hbytes happart hn hsec val,
      fun d' hrun => FAT.writeLaw hbytes happart hn hrun⟩
  · intro free_count fat d s hnew h hrun
    obtain ⟨rfl, hp⟩ := FAT.placed_of_new hnew
    exact (hrun.valuesAgree hbytes happart hp h).2.2

theorem Device.valuesAgree_ofTable {bpb : BPB} (hs : bpb.Sound) (T : Nat → Nat) (data : Nat → Nat → UInt8) :
    bpb.ValuesAgree (Device.ofTable bpb T data) := by
  intro i hi n hn
  have hrow : ∀ j < bpb.numFats.toNat,
      (Device.ofTable bpb T data).value (bpb.copySec j n) = fun o => (le32 (T (n / 128 * 128 + o / 4))).getD (o % 4) 0 := by
    intro j hj
    have hbounds := hs.copySec_bounds hj hn
    have hsec : bpb.copySec j n = bpb.resvdSecCnt.toNat + n / 128 + j * bpb.fatSz32.toNat := hs.copySec_eq hj hn
    have hmod : (bpb.copySec j n - bpb.resvdSecCnt.toNat) % bpb.fatSz32.toNat = n / 128 := by
      rw [hsec, Nat.add_assoc, Nat.add_sub_cancel_left, Nat.add_mul_mod_self_right, Nat.mod_eq_of_lt hn]
    funext o
    simp only [Device.ofTable, if_pos hbounds, hmod]
  rw [BPB.copyWord, BPB.copyWord, hrow i hi, hrow 0 (by omega)]

/-- A volume of 68890 clusters whose FAT has room for 68992 entries. -/
def wideBpb : BPB where
  jmpBoot0 := 0xEB
  jmpBoot2 := 0x90
  bytesPerSec := 512
  secPerClus := 1
  resvdSecCnt := 32
  numFats := 2
  fatSz16 := 0
  totSec32 := 70000
  fatSz32 := 539
  rootClus := 2
  fsInfo := 1

theorem wideBpb_sound : wideBpb.Sound := by
  constructor <;> decide

/-- Cluster 2 is linked to a number behind the entries of the first copy, the place of entry 3 in the second. -/
def strayTable (n : Nat) : Nat := if n < 2 ∨ n = 3 then kFat32EocMark else if n = 2 then 68995 else 0

/-- Releasing cluster 2 there zeroes entry 3 in the second copy only. -/
theorem BPB.not_valuesAgree_wide : isValidFat32BPB wideBpb = some true ∧
    wideBpb.bytesPerSec.toNat = sectorSize ∧ wideBpb.CopiesApart ∧
    ∃ fat, FAT.new wideBpb 0xFFFFFFFF = some fat ∧
      wideBpb.ValuesAgree (Device.ofTable wideBpb strayTable fun _ _ => 0) ∧
      ∃ s, FatOp.call fat (Device.ofTable wideBpb strayTable fun _ _ => 0) (.freeClus 2) = some s ∧
        wideBpb.copyWord s.2 0 3 = kFat32EocMark ∧ wideBpb.copyWord s.2 1 3 = 0 ∧ ¬ wideBpb.ValuesAgree s.2 := by
  refine ⟨by decide, rfl, wideBpb_sound.copiesApart, _, FAT.new_eq wideBpb_sound _,
    Device.valuesAgree_ofTable wideBpb_sound _ _, ?_⟩
  have hwords : (FatOp.call ⟨wideBpb, 32, 539, 68890, 0xFFFFFFFF, none⟩
      (Device.ofTable wideBpb strayTable fun _ _ => 0) (.freeClus 2)).map
        (fun s => (wideBpb.copyWord s.2 0 3, wideBpb.copyWord s.2 1 3)) = some (kFat32EocMark, 0) := by
    decide +kernel
  obtain ⟨s, hcall, hpair⟩ := Option.map_eq_some_iff.mp hwords
  obtain ⟨hfirst, hsecond⟩ := Prod.mk.inj hpair
  refine ⟨s, hcall, hfirst, hsecond, fun hagree => ?_⟩
  have hsame := hagree 1 (by decide) 3 (by decide)
  rw [hfirst, hsecond] at hsame
  exact absurd hsame (by decide)

theorem BPB.copies_agree_small :
    (∃ d', (smallRun (smallTable [2])).fat.writeClusEntry (smallRun (smallTable [2])).device 2 5 = some d' ∧
      (smallRun (smallTable [2])).fat.WriteLaw (smallRun (smallTable [2])).device 2 5 d') ∧
    ∃ s op, FatStep op (smallRun (smallTable [2])) s ∧ smallBpb.ValuesAgree s.device := by
  obtain ⟨howned, hc⟩ := smallRun_root (l := []) (by decide) (by decide)
  obtain ⟨hlaw, hruns⟩ := BPB.copies_agree smallBpb rfl smallBpb_sound.copiesApart
  obtain ⟨hreturns, hwrites⟩ := hlaw (smallRun (smallTable [2])).fat (smallRun (smallTable [2])).device 2 5 rfl
    (smallBpb_sound.inFat (by decide))
  obtain ⟨d', hrun⟩ := hreturns (by decide)
  obtain ⟨d₁, hfree, -⟩ := howned.represents.freeClus hc
    (show smallBpb.DataClus 2 by decide)
  have hstep := FatStep.free (s := smallRun (smallTable [2])) rfl hfree
  exact ⟨⟨d', hrun, hwrites d' hrun⟩, _, _, hstep, hruns 0xFFFFFFFF _ _ _ (FAT.new_eq smallBpb_sound _)
    (Device.valuesAgree_ofTable smallBpb_sound _ _) (.single ⟨_, hstep.inside howned⟩)⟩

end FuseFat32
