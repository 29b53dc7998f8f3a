import FuseFat32.Fat.Ownership
import FuseFat32.Fs.Mount

/-!
# The last two clusters

The data clusters have the numbers from 2 to `CountOfClusters + 1`. Both scans start at 0, where the two reserved entries lie, and stop after `CountOfClusters` entries, so they see all data clusters but the last two.
-/

namespace FuseFat32

open LinkedTable

/-- The free data clusters of the volume, from the lowest on. -/
def FAT.freeData (fat : FAT) (T : Nat → Nat) : List Nat := freeFrom T 2 fat.bpb.clusCnt

/-- All free clusters are counted, and as many are handed out as there are, the lowest first. -/
structure FAT.ServesAll (fat : FAT) (d : Device) (T : Nat → Nat) : Prop where
  count : (fat.availClusCnt d).map Prod.fst = some (fat.freeData T).length
  alloc : ∀ n, 0 < n → (fat.allocClus d n).map Prod.fst =
    some (if n ≤ (fat.freeData T).length then some ((fat.freeData T).take n) else none)

section scans

variable {fat : FAT} {d : Device} {T : Nat → Nat}

/-- The scans miss the free ones among the last two clusters. -/
theorem FAT.Represents.freeData_eq (h : fat.Represents d T) :
    fat.freeData T = fat.freeList T ++ freeFrom T fat.bpb.clusCnt 2 := by
  have hlow : freeFrom T 0 2 = [] := by
    rw [List.eq_nil_iff_forall_not_mem]
    intro n hn
    obtain ⟨⟨-, hlt⟩, hzero⟩ := mem_freeFrom.mp hn
    have hdata := h.dataClus_of_free (show n < fat.bpb.clusCnt + 2 by omega) hzero
    exact absurd hdata.1 (by omega)
  have hscan := freeFrom_append (T := T) 0 fat.bpb.clusCnt 2
  have hdata := freeFrom_append (T := T) 0 2 fat.bpb.clusCnt
  rw [Nat.zero_add] at hscan hdata
  rw [hlow, List.nil_append] at hdata
  rw [FAT.freeData, ← hdata, Nat.add_comm 2, hscan, FAT.freeList]

private theorem FAT.Represents.servesAll (h : fat.Represents d T) (hhint : fat.freeCount = 0xFFFFFFFF)
    (hall : fat.freeData T = fat.freeList T) (havail : fat.avail T = (fat.freeList T).length) :
    fat.ServesAll d T := by
  constructor
  case count => rw [h.availClusCnt, Option.map_some, havail, hall]
  case alloc =>
    intro n hpos
    rw [hall]
    split
    · next hn =>
      obtain ⟨d', hrun, -⟩ := h.allocClus_some hhint (by omega) hpos hn
      rw [hrun, Option.map_some]
    · next hn => rw [h.allocClus_none (by omega), Option.map_some]

theorem FAT.Represents.not_servesAll (h : fat.Represents d T) (hhint : fat.freeCount = 0xFFFFFFFF)
    (hmissed : (fat.freeList T).length < (fat.freeData T).length) : ¬ fat.ServesAll d T := by
  intro hserves
  have hcount := hserves.count
  rw [h.availClusCnt, Option.map_some, Option.some.injEq] at hcount
  have halloc := hserves.alloc (fat.freeData T).length (by omega)
  rw [h.allocClus_stops hhint (by omega) hmissed] at halloc
  exact absurd halloc (by simp)

end scans

/-- All free clusters are counted and handed out exactly when the last two are in use. -/
theorem FAT.servesAll_iff {fat : FAT} {d : Device} (hwf : fat.WellFormed d) (hhint : fat.freeCount = 0xFFFFFFFF)
    (hcnt : ∀ cnt, fat.availCnt = some cnt →
      cnt = (fat.freeList (fat.entry d)).length ∨ cnt = (fat.freeData (fat.entry d)).length) :
    fat.ServesAll d (fat.entry d) ↔
      fat.entry d fat.bpb.clusCnt ≠ 0 ∧ fat.entry d (fat.bpb.clusCnt + 1) ≠ 0 := by
  have h := hwf.represents
  have heq := h.freeData_eq
  have hlen := congrArg List.length heq
  rw [List.length_append] at hlen
  rw [← freeFrom_two]
  constructor
  · intro hserves
    by_contra hmissed
    have hpos := List.length_pos_iff.mpr hmissed
    exact h.not_servesAll hhint (by omega) hserves
  · intro hnone
    rw [hnone, List.append_nil] at heq
    refine h.servesAll hhint heq ?_
    rw [FAT.avail]
    cases hcached : fat.availCnt with
    | none => rfl
    | some cnt =>
      rw [Option.getD_some]
      rcases hcnt cnt hcached with rfl | rfl
      · rfl
      · rw [heq]

theorem FAT.servesAll_iff_last_used : (smallRun (smallTable [2, 6, 7])).fat.ServesAll
    (smallRun (smallTable [2, 6, 7])).device
    ((smallRun (smallTable [2, 6, 7])).fat.entry (smallRun (smallTable [2, 6, 7])).device) := by
  have hT : ∀ n, smallTable [2, 6, 7] n < 2 ^ 28 := fun n => by
    simp only [smallTable, link, kFat32EocMark]
    repeat' split
    all_goals omega
  have h := smallRun_represents hT (by decide) (by decide)
  refine (FAT.servesAll_iff h.wellFormed rfl fun cnt hcnt => absurd hcnt (by simp [smallRun])).mpr ⟨?_, ?_⟩
  · rw [h.entry _ (by decide)]
    decide
  · rw [h.entry _ (by decide)]
    decide

/-- On a volume that has just been mounted with nothing but a root directory, the last two clusters cannot be had. -/
theorem FAT.not_servesAll_mounted : ∃ fs, FAT32fs.from (mountDevice 0xFFFFFFFF) = some fs ∧
    fs.fat.WellFormed fs.device ∧ fs.fat.availCnt = none ∧
    ¬ fs.fat.ServesAll fs.device (fs.fat.entry fs.device) := by
  obtain ⟨fs, hfrom, hbpb, hhint, hnone, hrep⟩ := mountDevice_from (show 0xFFFFFFFF < 2 ^ 32 by decide)
  refine ⟨fs, hfrom, hrep.wellFormed, hnone, ?_⟩
  have h := hrep.wellFormed.represents
  have hlast : freeFrom (fs.fat.entry fs.device) fs.fat.bpb.clusCnt 2 ≠ [] := by
    rw [ne_eq, freeFrom_two, hrep.entry _ (Nat.lt_add_of_pos_right (by decide)), hbpb]
    exact fun hused => hused.1 (by decide)
  have hlen := congrArg List.length h.freeData_eq
  rw [List.length_append] at hlen
  have hpos := List.length_pos_iff.mpr hlast
  exact h.not_servesAll hhint (by omega)

end FuseFat32
