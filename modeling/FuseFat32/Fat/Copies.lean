import FuseFat32.Fat.Chains

/-!
# The copies of the FAT

The driver reads the first copy of the FAT only, and `FAT::writeFatEntry` writes every copy. Each copy then has the new value at the entry and what it had before at the others, whether or not the copies agreed. The reserved bits of a word are never changed.
-/

namespace FuseFat32

open LinkedTable

/-- The value of entry `n` in copy `i`. -/
def FAT.copyEntry (fat : FAT) (d : Device) (i n : Nat) : Nat :=
  readFATClusEntryVal (d.value (fat.bpb.resvdSecCnt.toNat + n / 128 + i * fat.bpb.fatSz32.toNat)) (n % 128 * 4)

/-- The word of entry `n` in copy `i`, with its reserved bits. -/
def FAT.fatWord (fat : FAT) (d : Device) (i n : Nat) : Nat :=
  read32 (d.value (fat.bpb.resvdSecCnt.toNat + n / 128 + i * fat.bpb.fatSz32.toNat)) (n % 128 * 4)

theorem mergeFATClusEntryVal_reserved (old val : Nat) :
    mergeFATClusEntryVal old val &&& 0xF0000000 = old &&& 0xF0000000 := by
  rw [mergeFATClusEntryVal, Nat.and_or_distrib_right, Nat.and_assoc, Nat.and_assoc,
    show 0xF0000000 &&& 0xF0000000 = 0xF0000000 by decide,
    show 0x0FFFFFFF &&& 0xF0000000 = 0 by decide, Nat.and_zero, Nat.or_zero]

private theorem mergeFATClusEntryVal_zero (old : Nat) : mergeFATClusEntryVal old 0 = old &&& 0xF0000000 := by
  rw [mergeFATClusEntryVal, Nat.zero_and, Nat.or_zero]

theorem reserved_of_free {w : Nat} (hw : w < 2 ^ 32) (hfree : w &&& 0x0FFFFFFF = 0) : w &&& 0xF0000000 = w := by
  have hmasks : 0xF0000000 ||| 0x0FFFFFFF = 2 ^ 32 - 1 := by decide
  calc w &&& 0xF0000000 = (w &&& 0xF0000000) ||| (w &&& 0x0FFFFFFF) := by rw [hfree, Nat.or_zero]
    _ = w &&& (2 ^ 32 - 1) := by rw [← Nat.and_or_distrib_left, hmasks]
    _ = w := Nat.and_two_pow_sub_one_of_lt_two_pow hw

section copies

variable {fat fat' : FAT} {d d' : Device} {T : Nat → Nat} {n m i val : Nat} {l : List Nat}

theorem FAT.copyEntry_eq_fatWord (fat : FAT) (d : Device) (i n : Nat) :
    fat.copyEntry d i n = fat.fatWord d i n &&& 0x0FFFFFFF := rfl

/-- In a sound geometry the words of the copies are where a write finds them. -/
theorem FAT.fatWord_eq_copyWord (hs : fat.bpb.Sound) (hi : i < fat.bpb.numFats.toNat)
    (hm : m / 128 < fat.bpb.fatSz32.toNat) : fat.fatWord d i m = fat.bpb.copyWord d i m := by
  rw [FAT.fatWord, BPB.copyWord, BPB.copySec, hs.copySec_eq hi hm]

theorem FAT.Represents.fatWord_writeClusEntry (h : fat.Represents d T) (hn : n < fat.bpb.clusCnt + 2)
    (hrun : fat.writeClusEntry d n val = some d') (hi : i < fat.bpb.numFats.toNat)
    (hm : m / 128 < fat.bpb.fatSz32.toNat) :
    fat.fatWord d' i m = if m = n then mergeFATClusEntryVal (fat.fatWord d i n) val else fat.fatWord d i m := by
  have hs := h.wellFormed.sound
  have hwritten := FAT.entryWritten hs.bytesPerSec hs.copiesApart (hs.inFat hn) hrun
  have hrow := hs.entry_in_fat hn
  rw [FAT.fatWord_eq_copyWord hs hi hm, FAT.fatWord_eq_copyWord hs hi hm, FAT.fatWord_eq_copyWord hs hi hrow]
  exact hwritten.copyWord hs.copiesApart hrow hm hi

private theorem FAT.Represents.fatWord_freeLoop : ∀ {l : List Nat} {fat : FAT} {d : Device} {T : Nat → Nat} {cur fuel : Nat},
    fat.Represents d T →
    fat.bpb.Chain T cur l → FAT.freeLoop fuel fat d cur = some (fat', d') → i < fat.bpb.numFats.toNat →
    m / 128 < fat.bpb.fatSz32.toNat →
    fat.fatWord d' i m = if m ∈ l then fat.fatWord d i m &&& 0xF0000000 else fat.fatWord d i m := by
  intro l
  induction l with
  | nil =>
    intro fat d T cur fuel h hc hrun _ _
    cases fuel with
    | zero => cases hrun
    | succ fuel =>
      rw [FAT.freeLoop, if_pos (walk_nil.mp hc.walk), Option.some.injEq, Prod.mk.injEq] at hrun
      rw [hrun.2, if_neg List.not_mem_nil]
  | cons x l ih =>
    intro fat d T cur fuel h hc hrun hi hm
    obtain ⟨rfl, hx, htail⟩ := walk_cons.mp hc.walk
    have hxdata := hc.data x List.mem_cons_self
    have hxl : x ∉ l := (List.nodup_cons.mp hc.walk.nodup).1
    obtain ⟨d₁, hwrite, -, h₁⟩ := h.writeClusEntry hxdata (show 0 < 2 ^ 28 by decide)
    cases fuel with
    | zero => cases hrun
    | succ fuel =>
      rw [FAT.freeLoop, if_neg hx, h.readClusEntry hxdata.2] at hrun
      simp only [Option.bind_eq_bind, Option.bind_some, hwrite] at hrun
      have hc₁ : fat.bpb.Chain (Function.update T x 0) (T x) l :=
        ⟨htail.frame fun y hy => Function.update_of_ne (ne_of_mem_of_not_mem hy hxl) _ _,
          fun y hy => hc.data y (List.mem_cons_of_mem x hy)⟩
      have hrest := ih ((FAT.represents_incAvailCnt 1).mpr h₁) hc₁ hrun hi hm
      have hfirst := h.fatWord_writeClusEntry hxdata.2 hwrite hi hm
      have hsame : (fat.incAvailCnt 1).fatWord d' i m = fat.fatWord d' i m := rfl
      have hsame₁ : (fat.incAvailCnt 1).fatWord d₁ i m = fat.fatWord d₁ i m := rfl
      rw [← hsame, hrest, hsame₁, hfirst]
      by_cases hmx : m = x
      · subst hmx
        rw [if_neg hxl, if_pos rfl, if_pos List.mem_cons_self, mergeFATClusEntryVal_zero]
      · simp only [hmx, List.mem_cons, false_or, if_false]

theorem FAT.Represents.fatWord_freeClus (h : fat.Represents d T) {head : Nat} (hc : fat.bpb.ChainOf T head l)
    (hrun : fat.freeClus d head = some (fat', d')) (hi : i < fat.bpb.numFats.toNat)
    (hm : m / 128 < fat.bpb.fatSz32.toNat) :
    fat.fatWord d' i m = if m ∈ l then fat.fatWord d i m &&& 0xF0000000 else fat.fatWord d i m := by
  rcases hc with ⟨rfl, rfl⟩ | ⟨hhead, hc⟩
  · obtain ⟨rfl, rfl⟩ : fat = fat' ∧ d = d' := by simpa [FAT.freeClus, isValidCluster] using hrun
    rw [if_neg List.not_mem_nil]
  · rw [FAT.freeClus, if_pos (isValidCluster_of_dataClus hhead)] at hrun
    exact h.fatWord_freeLoop hc hrun hi hm

/-- Releasing a chain zeroes its entries in every copy. -/
theorem FAT.Represents.copyEntry_freeClus (h : fat.Represents d T) {head : Nat} (hc : fat.bpb.ChainOf T head l)
    (hrun : fat.freeClus d head = some (fat', d')) (hi : i < fat.bpb.numFats.toNat)
    (hm : m < fat.bpb.clusCnt + 2) : fat.copyEntry d' i m = if m ∈ l then 0 else fat.copyEntry d i m := by
  have hword := h.fatWord_freeClus hc hrun hi (h.wellFormed.sound.entry_in_fat hm)
  have hmasks : 0xF0000000 &&& 0x0FFFFFFF = 0 := by decide
  rw [FAT.copyEntry_eq_fatWord, hword, apply_ite (· &&& 0x0FFFFFFF), Nat.and_assoc, hmasks, Nat.and_zero,
    ← FAT.copyEntry_eq_fatWord]

end copies

end FuseFat32
