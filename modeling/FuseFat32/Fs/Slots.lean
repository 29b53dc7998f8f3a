import FuseFat32.Fat.DirEntry
import FuseFat32.Fs.Content

/-!
# Where the entries of a directory lie

`Directory::readDirEntry` reaches an entry like any other position of a file, by division through the chain. `File::fromIno`, `File::sync` and `File::selfDestruct` go another way: they start from a sector index counted from the first cluster, and `iterClusChainEntry` advances that index by equality tests. Started inside the first cluster the second way visits the same slots. Started behind it the index never meets the end of a cluster, so it runs on through consecutive sectors, and the two ways agree only while the clusters of the chain do.
-/

namespace FuseFat32

/-- `chain_index`, `sec_index` and `sec_off`. -/
structure Cursor where
  chainIndex : Nat
  secIndex : Nat
  secOff : Nat

/-- The cursor `fromIno`, `sync` and `selfDestruct` start with, for a byte offset into the directory. -/
def Cursor.start (bpb : BPB) (offset : Nat) : Cursor :=
  ⟨0, offset / bpb.bytesPerSec.toNat, offset % bpb.bytesPerSec.toNat⟩

def iterClusChainEntry (bpb : BPB) (clus_chain : List Nat) (c : Cursor) : Exec (Bool × Cursor) := do
  assert (c.secOff < bpb.bytesPerSec.toNat)
  let sec_off := c.secOff + kDirEntrySize
  if sec_off = bpb.bytesPerSec.toNat then
    let sec_index := c.secIndex + 1
    if sec_index = bpb.secPerClus.toNat then
      let chain_index := c.chainIndex + 1
      return (decide (chain_index < clus_chain.length), ⟨chain_index, 0, 0⟩)
    return (true, ⟨c.chainIndex, sec_index, 0⟩)
  return (true, ⟨c.chainIndex, c.secIndex, sec_off⟩)

/-- `getFirstSectorOfCluster(bpb, clus_chain[chain_index]) + sec_index`. -/
def Cursor.secNo (bpb : BPB) (clus_chain : List Nat) (c : Cursor) : Exec Nat := do
  let clus ← clus_chain[c.chainIndex]?
  return u32 (getFirstSectorOfCluster bpb clus + c.secIndex)

/-- The slots a cursor addresses in `m` steps. -/
def Cursor.slots (bpb : BPB) (clus_chain : List Nat) : Nat → Cursor → Exec (List (Nat × Nat))
  | 0, c => do
    let sec_no ← c.secNo bpb clus_chain
    return [(sec_no, c.secOff)]
  | m + 1, c => do
    let sec_no ← c.secNo bpb clus_chain
    let (more, c') ← iterClusChainEntry bpb clus_chain c
    assert more
    let rest ← Cursor.slots bpb clus_chain m c'
    return (sec_no, c.secOff) :: rest

/-- The slot of entry `k` as `File::read` addresses it. -/
def BPB.slot (bpb : BPB) (l : List Nat) (k : Nat) : Nat × Nat := bpb.chainLoc l (kDirEntrySize * k)

/-- Entries in a cluster. -/
def BPB.slotsPerClus (bpb : BPB) : Nat := bytesPerClus bpb / kDirEntrySize

/-- The clusters that hold the entries `n` to `n + m` lie where a count of sectors from the first cluster expects them, or no such count is made. -/
def BPB.SlotsInOrder (bpb : BPB) (l : List Nat) (n m : Nat) : Prop :=
  n < bpb.slotsPerClus ∨
    ∀ k, n / bpb.slotsPerClus ≤ k → k ≤ (n + m) / bpb.slotsPerClus →
      u32 ((l.headD 0 + k) * bpb.secPerClus.toNat) = u32 (l.getD k 0 * bpb.secPerClus.toNat)

section cursor

variable {bpb : BPB} {l : List Nat}

theorem Cursor.slots_eq {m : Nat} : ∀ {c : Nat → Cursor} {a : Nat → Nat × Nat},
    (∀ i < m, iterClusChainEntry bpb l (c i) = some (true, c (i + 1))) →
    (∀ i ≤ m, (c i).secNo bpb l = some (a i).1 ∧ (c i).secOff = (a i).2) →
    Cursor.slots bpb l m (c 0) = some ((List.range (m + 1)).map a) := by
  induction m with
  | zero =>
    intro c a _ haddr
    obtain ⟨hsec, hoff⟩ := haddr 0 le_rfl
    simp [Cursor.slots, hsec, hoff]
  | succ m ih =>
    intro c a hiter haddr
    obtain ⟨hsec, hoff⟩ := haddr 0 (Nat.zero_le _)
    have hrest := ih (c := fun i => c (i + 1)) (a := fun i => a (i + 1))
      (fun i hi => hiter (i + 1) (by omega)) fun i hi => haddr (i + 1) (by omega)
    rw [Cursor.slots, hsec, hiter 0 (Nat.succ_pos m)]
    simp only [Option.bind_eq_bind, Option.bind_some, assert_true, hrest, hoff]
    rw [List.range_succ_eq_map (n := m + 1), List.map_cons, List.map_map]
    rfl

/-- A cursor that knows the cluster of its position. -/
def Cursor.exact (bpb : BPB) (p : Nat) : Cursor :=
  ⟨p / sectorSize / bpb.secPerClus.toNat, p / sectorSize % bpb.secPerClus.toNat, p % sectorSize⟩

/-- A cursor that counts sectors from the first cluster. -/
def Cursor.flat (p : Nat) : Cursor := ⟨0, p / sectorSize, p % sectorSize⟩

theorem Cursor.start_eq_flat (hs : bpb.Sound) (p : Nat) : Cursor.start bpb p = .flat p := by
  rw [Cursor.start, hs.bytesPerSec]
  rfl

private theorem Cursor.start_eq_exact (hs : bpb.Sound) {p : Nat} (hp : p < bytesPerClus bpb) :
    Cursor.start bpb p = .exact bpb p := by
  have hsec : p / sectorSize < bpb.secPerClus.toNat := by
    rw [hs.bytesPerClus_eq] at hp
    exact Nat.div_lt_of_lt_mul (by rwa [Nat.mul_comm])
  rw [Cursor.start_eq_flat hs, Cursor.flat, Cursor.exact, Nat.div_eq_of_lt hsec, Nat.mod_eq_of_lt hsec]

theorem sector_step {p : Nat} (hp : p % kDirEntrySize = 0) :
    (p % sectorSize + kDirEntrySize = sectorSize ∧ (p + kDirEntrySize) / sectorSize = p / sectorSize + 1 ∧
      (p + kDirEntrySize) % sectorSize = 0) ∨
    (p % sectorSize + kDirEntrySize ≠ sectorSize ∧ (p + kDirEntrySize) / sectorSize = p / sectorSize ∧
      (p + kDirEntrySize) % sectorSize = p % sectorSize + kDirEntrySize) := by
  simp only [kDirEntrySize, sectorSize] at hp ⊢
  omega

private theorem div_mod_succ {q m : Nat} (hm : 0 < m) :
    (q % m + 1 = m ∧ (q + 1) / m = q / m + 1 ∧ (q + 1) % m = 0) ∨
      (q % m + 1 ≠ m ∧ (q + 1) / m = q / m ∧ (q + 1) % m = q % m + 1) := by
  have hq := Nat.div_add_mod q m
  have hlt := Nat.mod_lt q hm
  by_cases hend : q % m + 1 = m
  · refine .inl ⟨hend, (Nat.div_mod_unique hm).mpr ⟨?_, hm⟩⟩
    rw [Nat.mul_add, Nat.mul_one]
    omega
  · exact .inr ⟨hend, (Nat.div_mod_unique hm).mpr ⟨by omega, by omega⟩⟩

theorem iterClusChainEntry_eq {k q off : Nat} (hoff : off < bpb.bytesPerSec.toNat) :
    iterClusChainEntry bpb l ⟨k, q, off⟩ =
      some (if off + kDirEntrySize = bpb.bytesPerSec.toNat then
          if q + 1 = bpb.secPerClus.toNat then (decide (k + 1 < l.length), ⟨k + 1, 0, 0⟩)
          else (true, ⟨k, q + 1, 0⟩)
        else (true, ⟨k, q, off + kDirEntrySize⟩)) := by
  rw [iterClusChainEntry, decide_eq_true hoff, assert_true, Option.bind_eq_bind, Option.bind_some]
  dsimp only
  split_ifs <;> rfl

private theorem Cursor.iter_exact (hs : bpb.Sound) {p : Nat} (hp : p % kDirEntrySize = 0)
    (hin : (p + kDirEntrySize) / sectorSize / bpb.secPerClus.toNat < l.length) :
    iterClusChainEntry bpb l (.exact bpb p) = some (true, .exact bpb (p + kDirEntrySize)) := by
  have hlt := Nat.mod_lt p sectorSize_pos
  rw [Cursor.exact, iterClusChainEntry_eq (by rwa [hs.bytesPerSec]), hs.bytesPerSec, Cursor.exact]
  rcases sector_step hp with ⟨hend, hsec, hoff⟩ | ⟨hend, hsec, hoff⟩
  · rw [hsec] at hin
    rw [if_pos hend, hsec, hoff]
    rcases div_mod_succ hs.secPerClus (q := p / sectorSize) with ⟨hlast, hdiv, hmod⟩ | ⟨hlast, hdiv, hmod⟩
    · rw [hdiv] at hin
      rw [if_pos hlast, hdiv, hmod, decide_eq_true hin]
    · rw [if_neg hlast, hdiv, hmod]
  · rw [if_neg hend, hsec, hoff]

private theorem Cursor.iter_flat (hs : bpb.Sound) {p : Nat} (hp : p % kDirEntrySize = 0)
    (hout : bpb.secPerClus.toNat ≤ p / sectorSize) :
    iterClusChainEntry bpb l (.flat p) = some (true, .flat (p + kDirEntrySize)) := by
  have hlt := Nat.mod_lt p sectorSize_pos
  rw [Cursor.flat, iterClusChainEntry_eq (by rwa [hs.bytesPerSec]), hs.bytesPerSec, Cursor.flat]
  rcases sector_step hp with ⟨hend, hsec, hoff⟩ | ⟨hend, hsec, hoff⟩
  · rw [if_pos hend, if_neg (by omega), hsec, hoff]
  · rw [if_neg hend, hsec, hoff]

/-! ### When the two ways agree -/

theorem BPB.Sound.slotsPerClus_eq (hs : bpb.Sound) :
    bpb.slotsPerClus = bpb.secPerClus.toNat * (sectorSize / kDirEntrySize) := by
  rw [BPB.slotsPerClus, hs.bytesPerClus_eq]
  exact Nat.mul_div_assoc _ (by decide)

theorem BPB.Sound.slot_clus (hs : bpb.Sound) (k : Nat) :
    kDirEntrySize * k / sectorSize / bpb.secPerClus.toNat = k / bpb.slotsPerClus := by
  have hsec : kDirEntrySize * k / sectorSize = k / (sectorSize / kDirEntrySize) := by
    simp only [kDirEntrySize, sectorSize]
    omega
  rw [hsec, Nat.div_div_eq_div_mul, hs.slotsPerClus_eq, Nat.mul_comm]

/-- The cursor that knows its cluster addresses the slots that `read` does. -/
theorem Cursor.slots_exact (hs : bpb.Sound) (hdata : ∀ x ∈ l, bpb.DataClus x) {n m : Nat}
    (hin : kDirEntrySize * (n + m) < l.length * bytesPerClus bpb) :
    Cursor.slots bpb l m (.exact bpb (kDirEntrySize * n)) =
      some ((List.range (m + 1)).map fun j => bpb.slot l (n + j)) := by
  have hclus : ∀ i ≤ m, kDirEntrySize * (n + i) / sectorSize < l.length * bpb.secPerClus.toNat :=
    fun i hi => hs.sector_lt_of_pos (by simp only [kDirEntrySize] at hin ⊢; omega)
  refine Cursor.slots_eq (c := fun i => .exact bpb (kDirEntrySize * (n + i))) (fun i hi => ?_)
    fun i hi => ?_
  · rw [show kDirEntrySize * (n + (i + 1)) = kDirEntrySize * (n + i) + kDirEntrySize by ring]
    refine Cursor.iter_exact hs (Nat.mul_mod_right _ _) ?_
    have := hclus (i + 1) hi
    exact Nat.div_lt_of_lt_mul (by rwa [Nat.mul_comm bpb.secPerClus.toNat])
  · obtain ⟨hlt, heq⟩ := BPB.chainSector_eq (hclus i hi)
    have hbound := (BPB.chainSector_bounds hs hdata (hclus i hi)).2
    refine ⟨?_, rfl⟩
    rw [Cursor.secNo, Cursor.exact, List.getElem?_eq_getElem hlt]
    simp only [Option.bind_eq_bind, Option.bind_some, ← heq]
    rw [u32_of_lt (hbound.trans bpb.totSec32.toNat_lt)]
    rfl

/-- The flat cursor counts sectors from the first cluster. -/
theorem Cursor.slots_flat (hs : bpb.Sound) (hne : l ≠ []) {n : Nat} (m : Nat)
    (hout : bpb.secPerClus.toNat ≤ kDirEntrySize * n / sectorSize) :
    Cursor.slots bpb l m (.flat (kDirEntrySize * n)) =
      some ((List.range (m + 1)).map fun j =>
        (u32 (getFirstSectorOfCluster bpb (l.headD 0) + kDirEntrySize * (n + j) / sectorSize),
          kDirEntrySize * (n + j) % sectorSize)) := by
  refine Cursor.slots_eq (c := fun i => .flat (kDirEntrySize * (n + i))) (fun i _ => ?_) fun i _ => ?_
  · rw [show kDirEntrySize * (n + (i + 1)) = kDirEntrySize * (n + i) + kDirEntrySize by ring]
    refine Cursor.iter_flat hs (Nat.mul_mod_right _ _) (hout.trans ?_)
    exact Nat.div_le_div_right (Nat.mul_le_mul_left _ (Nat.le_add_right n i))
  · obtain ⟨a, l, rfl⟩ := List.exists_cons_of_ne_nil hne
    exact ⟨rfl, rfl⟩

private theorem u32_flat_iff {a b spc k r fst : Nat} (ha : 2 ≤ a) (hb : 2 ≤ b)
    (hlt : (b - 2) * spc + fst + r < 2 ^ 32) :
    u32 ((a - 2) * spc + fst + (spc * k + r)) = (b - 2) * spc + fst + r ↔
      u32 ((a + k) * spc) = u32 (b * spc) := by
  obtain ⟨a, rfl⟩ : ∃ i, a = i + 2 := ⟨a - 2, by omega⟩
  obtain ⟨b, rfl⟩ : ∃ i, b = i + 2 := ⟨b - 2, by omega⟩
  rw [Nat.add_sub_cancel] at hlt ⊢
  rw [Nat.add_sub_cancel, show (a + 2 + k) * spc = a * spc + 2 * spc + spc * k by ring,
    show (b + 2) * spc = b * spc + 2 * spc by ring]
  simp only [u32]
  omega

/-- The slots that the cursor addresses are those that `read` addresses exactly when the clusters are in order. -/
theorem Cursor.slots_iff (hs : bpb.Sound) (hdata : ∀ x ∈ l, bpb.DataClus x) {n m : Nat}
    (hin : kDirEntrySize * (n + m) < l.length * bytesPerClus bpb) :
    Cursor.slots bpb l m (.start bpb (kDirEntrySize * n)) =
        some ((List.range (m + 1)).map fun j => bpb.slot l (n + j)) ↔ bpb.SlotsInOrder l n m := by
  have hne : l ≠ [] := by
    rintro rfl
    simp at hin
  have hper := hs.slotsPerClus_eq
  by_cases hfst : n < bpb.slotsPerClus
  · have hp : kDirEntrySize * n < bytesPerClus bpb := by
      rw [hs.bytesPerClus_eq]
      simp only [kDirEntrySize, sectorSize] at hper ⊢
      omega
    rw [Cursor.start_eq_exact hs hp]
    exact iff_of_true (Cursor.slots_exact hs hdata hin) (.inl hfst)
  · have hsec : ∀ j ≤ m, kDirEntrySize * (n + j) / sectorSize < l.length * bpb.secPerClus.toNat :=
      fun j hj => hs.sector_lt_of_pos (by simp only [kDirEntrySize] at hin ⊢; omega)
    have hout : bpb.secPerClus.toNat ≤ kDirEntrySize * n / sectorSize := by
      simp only [kDirEntrySize, sectorSize] at hper ⊢
      omega
    have hfstData : bpb.DataClus (l.headD 0) := by
      obtain ⟨a, l, rfl⟩ := List.exists_cons_of_ne_nil hne
      exact hdata a List.mem_cons_self
    -- one slot agrees when its cluster is where the flat count expects it
    have hone : ∀ j ≤ m, (u32 (getFirstSectorOfCluster bpb (l.headD 0) +
          kDirEntrySize * (n + j) / sectorSize), kDirEntrySize * (n + j) % sectorSize) =
          bpb.slot l (n + j) ↔
        u32 ((l.headD 0 + (n + j) / bpb.slotsPerClus) * bpb.secPerClus.toNat) =
          u32 (l.getD ((n + j) / bpb.slotsPerClus) 0 * bpb.secPerClus.toNat) := by
      intro j hj
      obtain ⟨hlt, heq⟩ := BPB.chainSector_eq (hsec j hj)
      have hbound := (BPB.chainSector_bounds hs hdata (hsec j hj)).2
      have hclus := hdata _ (List.getElem_mem hlt)
      have htot := bpb.totSec32.toNat_lt
      have hdm := Nat.div_add_mod (kDirEntrySize * (n + j) / sectorSize) bpb.secPerClus.toNat
      rw [heq] at hbound
      rw [BPB.slot, BPB.chainLoc, Prod.mk.injEq, and_iff_left rfl, heq, ← hs.slot_clus,
        List.getD_eq_getElem _ _ hlt, hs.firstSectorOfCluster hclus, hs.firstSectorOfCluster hfstData]
      rw [hs.firstSectorOfCluster hclus] at hbound
      rw [← u32_flat_iff hfstData.1 hclus.1 (hbound.trans htot), hdm]
    rw [Cursor.start_eq_flat hs, Cursor.slots_flat hs hne m hout, Option.some.injEq, List.map_inj_left]
    constructor
    · intro hall
      refine .inr fun k hlo hhi => ?_
      have hS : 0 < bpb.slotsPerClus := hper ▸ Nat.mul_pos hs.secPerClus (by decide)
      have hk := (Nat.le_div_iff_mul_le hS).mp hhi
      have hj : (n + (k * bpb.slotsPerClus - n)) / bpb.slotsPerClus = k := by
        rcases Nat.le_total (k * bpb.slotsPerClus) n with hle | hle
        · rw [Nat.sub_eq_zero_of_le hle, Nat.add_zero]
          exact Nat.le_antisymm hlo ((Nat.le_div_iff_mul_le hS).mpr hle)
        · rw [Nat.add_sub_cancel' hle, Nat.mul_div_cancel _ hS]
      have := (hone (k * bpb.slotsPerClus - n) (by omega)).mp (hall _ (List.mem_range.mpr (by omega)))
      rwa [hj] at this
    · intro horder j hj
      have hj := List.mem_range.mp hj
      refine (hone j (by omega)).mpr (horder.resolve_left hfst _ ?_ ?_)
      · exact Nat.div_le_div_right (by omega)
      · exact Nat.div_le_div_right (by omega)

end cursor

end FuseFat32
