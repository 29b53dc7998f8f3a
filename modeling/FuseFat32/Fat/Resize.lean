import FuseFat32.Fat.Chains

/-!
# What `resize` does

The result of `FAT::resize` in each of its cases, for a chain that is well formed and no hint pending. Growing allocates the missing clusters, clears their sectors when asked to, and links them behind the last cluster; it fails when the count says that too few are free. Shrinking releases the tail.
-/

namespace FuseFat32

open LinkedTable

/-! ### Sectors of clusters -/

/-- The device changes in the FAT region and in the sectors of the clusters `cs` at most. -/
structure BPB.Touches (bpb : BPB) (cs : List Nat) (d d' : Device) : Prop where
  secCnt : d'.secCnt = d.secCnt
  stored : d'.stored = d.stored
  low : ∀ s, s < bpb.resvdSecCnt.toNat → d'.value s = d.value s
  data : ∀ s, getFirstDataSector bpb ≤ s →
    (∀ c ∈ cs, ∀ j < bpb.secPerClus.toNat, s ≠ getFirstSectorOfCluster bpb c + j) →
    d'.value s = d.value s

/-- All bytes of the clusters `cs` are zero. -/
def BPB.Cleared (bpb : BPB) (cs : List Nat) (d : Device) : Prop :=
  ∀ c ∈ cs, ∀ j < bpb.secPerClus.toNat, ∀ i < sectorSize,
    d.value (getFirstSectorOfCluster bpb c + j) i = 0

section touches

variable {bpb : BPB} {cs cs' : List Nat} {d d' d'' : Device}

theorem BPB.OnlyFat.touches (h : bpb.OnlyFat d d') : bpb.Touches cs d d' :=
  ⟨h.secCnt, h.stored, fun s hs => h.value s (.inl hs), fun s hs _ => h.value s (.inr hs)⟩

theorem BPB.Touches.trans (h : bpb.Touches cs d d') (h' : bpb.Touches cs d' d'') :
    bpb.Touches cs d d'' :=
  ⟨h'.secCnt.trans h.secCnt, h'.stored.trans h.stored,
    fun s hs => (h'.low s hs).trans (h.low s hs),
    fun s hs hout => (h'.data s hs hout).trans (h.data s hs hout)⟩

theorem BPB.Touches.mono (h : bpb.Touches cs d d') (hsub : ∀ c ∈ cs, c ∈ cs') :
    bpb.Touches cs' d d' :=
  ⟨h.secCnt, h.stored, h.low, fun s hs hout => h.data s hs fun c hc => hout c (hsub c hc)⟩

theorem BPB.Touches.cluster (hs : bpb.Sound) (h : bpb.Touches cs d d') (hcs : ∀ c ∈ cs, bpb.DataClus c)
    {c j : Nat} (hc : bpb.DataClus c) (hout : c ∉ cs) (hj : j < bpb.secPerClus.toNat) :
    d'.value (getFirstSectorOfCluster bpb c + j) = d.value (getFirstSectorOfCluster bpb c + j) := by
  refine h.data _ (hs.sector_bounds hc hj).1 fun c' hc' j' hj' heq => ?_
  have hsame := (hs.sector_injective hc (hcs c' hc') hj hj' heq).1
  exact hout (hsame ▸ hc')

end touches

section clear

variable {fat : FAT} {d : Device} {T : Nat → Nat}

private theorem FAT.clearSectors (fat : FAT) (fst : Nat) :
    ∀ (k : Nat) {d : Device}, fst + k ≤ d.secCnt → ∃ d',
      (List.range k).foldlM (fun d j => fat.clearSector d (fst + j)) d = some d' ∧
      d'.secCnt = d.secCnt ∧ d'.stored = d.stored ∧
      ∀ s i, d'.value s i =
        if fst ≤ s ∧ s < fst + k ∧ i < fat.bpb.bytesPerSec.toNat then 0 else d.value s i := by
  intro k
  induction k with
  | zero => exact fun {d} _ => ⟨d, rfl, rfl, rfl, fun s i => by rw [if_neg (by omega)]⟩
  | succ k ih =>
    intro d hfit
    obtain ⟨d₁, hrun, hcnt, hstored, hval⟩ := ih (d := d) (by omega)
    have hlen := List.length_replicate (n := fat.bpb.bytesPerSec.toNat) (a := (0 : UInt8))
    refine ⟨d₁.write (fst + k) 0 (List.replicate fat.bpb.bytesPerSec.toNat 0), ?_, hcnt, hstored,
      fun s i => ?_⟩
    · rw [List.range_succ, List.foldlM_append, hrun]
      simp [FAT.clearSector, d₁.readSector_of_lt (fst + k) (by omega)]
    · by_cases hin : s = fst + k ∧ i < fat.bpb.bytesPerSec.toNat
      · obtain ⟨rfl, hi⟩ := hin
        rw [d₁.value_write_inside _ _ _ (Nat.zero_le i) (by omega), if_pos ⟨by omega, by omega, hi⟩]
        simp [hi]
      · have hsame : (d₁.write (fst + k) 0 (List.replicate fat.bpb.bytesPerSec.toNat 0)).value s i =
            d₁.value s i := by
          by_cases hs : s = fst + k
          · exact d₁.value_write_outside _ _ _ (.inr (by omega)) s
          · exact d₁.value_write_of_ne _ _ _ hs i
        rw [hsame, hval s i]
        exact if_congr (by omega) rfl rfl

private theorem FAT.clearClus_eq {c : Nat} (hc : isValidCluster c = true) :
    fat.clearClus d c = (List.range (u32 (getFirstSectorOfCluster fat.bpb c +
      fat.bpb.secPerClus.toNat) - getFirstSectorOfCluster fat.bpb c)).foldlM
      (fun d j => fat.clearSector d (getFirstSectorOfCluster fat.bpb c + j)) d := by
  rw [FAT.clearClus, hc, assert_true, Option.bind_eq_bind, Option.bind_some]

theorem FAT.Represents.clearClus (h : fat.Represents d T) {c : Nat} (hc : fat.bpb.DataClus c) :
    ∃ d', fat.clearClus d c = some d' ∧ d'.secCnt = d.secCnt ∧ d'.stored = d.stored ∧
      ∀ s i, d'.value s i =
        if getFirstSectorOfCluster fat.bpb c ≤ s ∧
            s < getFirstSectorOfCluster fat.bpb c + fat.bpb.secPerClus.toNat ∧ i < sectorSize then 0
        else d.value s i := by
  have hs := h.wellFormed.sound
  have hpos := hs.secPerClus
  have hlast := hs.sector_bounds hc (Nat.sub_lt hpos Nat.one_pos)
  have htot := fat.bpb.totSec32.toNat_lt
  have hfits := h.wellFormed.fits
  obtain ⟨d', hrun, hrest⟩ := fat.clearSectors (getFirstSectorOfCluster fat.bpb c)
    fat.bpb.secPerClus.toNat (d := d) (by omega)
  rw [hs.bytesPerSec] at hrest
  refine ⟨d', ?_, hrest⟩
  rw [FAT.clearClus_eq (isValidCluster_of_dataClus hc), u32_of_lt (by omega), Nat.add_sub_cancel_left]
  exact hrun

/-- `clearClusChain` clears its clusters and nothing else. -/
theorem FAT.Represents.clearClusChain {cs : List Nat} : ∀ {d : Device}, fat.Represents d T →
    (∀ c ∈ cs, fat.bpb.DataClus c) →
    ∃ d', fat.clearClusChain d cs = some d' ∧ fat.Represents d' T ∧ fat.bpb.Touches cs d d' ∧
      fat.bpb.Cleared cs d' := by
  induction cs with
  | nil =>
    intro d h _
    exact ⟨d, rfl, h, (BPB.OnlyFat.refl _ d).touches, by simp [BPB.Cleared]⟩
  | cons c cs ih =>
    intro d h hdata
    have hs := h.wellFormed.sound
    have hc := hdata c List.mem_cons_self
    obtain ⟨d₁, hone, hcnt, hstored, hval⟩ := h.clearClus hc
    have hlow := (hs.sector_bounds hc hs.secPerClus).1
    have hkeep : ∀ s, (s < getFirstSectorOfCluster fat.bpb c ∨
        getFirstSectorOfCluster fat.bpb c + fat.bpb.secPerClus.toNat ≤ s) → d₁.value s = d.value s := by
      intro s hout
      funext i
      rw [hval s i, if_neg (by omega)]
    have h₁ : fat.Represents d₁ T := h.of_data hcnt fun s _ hlt => hkeep s (.inl (by omega))
    have htouch : fat.bpb.Touches (c :: cs) d d₁ := by
      refine ⟨hcnt, hstored, fun s hlt => hkeep s (.inl ?_), fun s _ hout => hkeep s ?_⟩
      · have := hs.firstDataSector
        omega
      · by_contra hin
        exact hout c List.mem_cons_self (s - getFirstSectorOfCluster fat.bpb c) (by omega) (by omega)
    obtain ⟨d', hrest, h', htouch', hclear'⟩ :=
      ih h₁ fun x hx => hdata x (List.mem_cons_of_mem c hx)
    refine ⟨d', ?_, h', htouch.trans (htouch'.mono fun x hx => List.mem_cons_of_mem c hx), ?_⟩
    · simp only [FAT.clearClusChain, List.foldlM_cons, hone, Option.bind_eq_bind, Option.bind_some]
      exact hrest
    · intro x hx j hj i hi
      rcases List.mem_cons.mp hx with rfl | hx
      · by_cases hmem : x ∈ cs
        · exact hclear' x hmem j hj i hi
        · rw [htouch'.cluster hs (fun y hy => hdata y (List.mem_cons_of_mem x hy)) hc hmem hj,
            hval, if_pos ⟨by omega, by omega, hi⟩]
      · exact hclear' x hx j hj i hi

end clear

/-! ### The tables before and after -/

/-- The table after a chain `l` has been cut to `k` clusters. -/
def cutTable (T : Nat → Nat) (l : List Nat) : Nat → Nat → Nat
  | 0 => fill T 0 l
  | k + 1 => fill (Function.update T (l.getD k 0) kFat32EocMark) 0 (l.drop (k + 1))

/-- The table after the free clusters `new` have been linked behind the chain `l`. -/
def growTable (T : Nat → Nat) (l new : List Nat) : Nat → Nat :=
  match l.getLast? with
  | none => link T kFat32EocMark new
  | some e => Function.update (link T kFat32EocMark new) e (new.headD 0)

theorem split_at {l : List Nat} {k : Nat} (hk : k < l.length) :
    l = l.take k ++ l.getD k 0 :: l.drop (k + 1) := by
  rw [List.getD_eq_getElem _ _ hk, ← List.drop_eq_getElem_cons hk, List.take_append_drop]

section tables

variable {bpb : BPB} {T : Nat → Nat} {head k : Nat} {l new : List Nat}

theorem cutTable_of_notMem {n : Nat} (hn : n ∉ l) (hk : k ≤ l.length) : cutTable T l k n = T n := by
  cases k with
  | zero => exact fill_of_notMem hn
  | succ k =>
    have hmem : l.getD k 0 ∈ l := by
      rw [List.getD_eq_getElem _ _ (by omega)]
      exact List.getElem_mem _
    rw [cutTable, fill_of_notMem fun h => hn (List.mem_of_mem_drop h),
      Function.update_of_ne (ne_of_mem_of_not_mem hmem hn).symm]

theorem cutTable_of_mem_drop {n : Nat} (hn : n ∈ l.drop k) : cutTable T l k n = 0 := by
  cases k with
  | zero => exact fill_of_mem hn
  | succ k => exact fill_of_mem hn

theorem growTable_of_notMem {n : Nat} (hn : n ∉ l ++ new) :
    growTable T l new n = T n := by
  rw [List.mem_append, not_or] at hn
  rw [growTable]
  cases hlast : l.getLast? with
  | none => exact link_of_notMem hn.2
  | some e =>
    have hmem := List.mem_of_getLast? hlast
    simp only
    rw [Function.update_of_ne (ne_of_mem_of_not_mem hmem hn.1).symm, link_of_notMem hn.2]

theorem BPB.ChainOf.cut (hc : bpb.ChainOf T head l) (hk : k ≤ l.length) :
    bpb.ChainOf (cutTable T l k) (if k = 0 then 0 else head) (l.take k) := by
  rcases hc with ⟨rfl, rfl⟩ | ⟨hdata, hc⟩
  · obtain rfl : k = 0 := by simpa using hk
    exact .inl ⟨rfl, rfl⟩
  · cases k with
    | zero => exact .inl ⟨rfl, rfl⟩
    | succ k =>
      have hsplit := split_at (show k < l.length by omega)
      have htake : l.take (k + 1) = l.take k ++ [l.getD k 0] := by
        rw [List.take_add_one, List.getElem?_eq_getElem (by omega), List.getD_eq_getElem _ _ (by omega)]
        rfl
      have hw := hc.walk
      rw [hsplit] at hw
      rw [if_neg (Nat.succ_ne_zero k)]
      refine .inr ⟨hdata, ?_, fun x hx => hc.data x (List.mem_of_mem_take hx)⟩
      rw [htake]
      exact hw.cut eoc_kFat32EocMark 0

theorem BPB.ChainOf.grow (hs : bpb.Sound) (hc : bpb.ChainOf T head l) (hne : new ≠ [])
    (hnodup : new.Nodup) (hdata : ∀ x ∈ new, bpb.DataClus x) (hfree : ∀ x ∈ new, T x = 0) :
    bpb.ChainOf (growTable T l new) ((l ++ new).headD 0) (l ++ new) := by
  have hused := hc.used
  have hlive : ∀ x ∈ new, ¬ Eoc x := fun x hx => hs.not_endOfClusChain (hdata x hx)
  obtain ⟨b, new, rfl⟩ := List.exists_cons_of_ne_nil hne
  rcases hc with ⟨rfl, rfl⟩ | ⟨hgood, hc⟩
  · exact .inr ⟨hdata b List.mem_cons_self, walk_link hnodup eoc_kFat32EocMark hlive, hdata⟩
  · have hl := hc.ne_nil hs hgood
    have hsplit := List.dropLast_append_getLast hl
    have hw := hc.walk
    rw [← hsplit] at hw
    have hext := hw.extend eoc_kFat32EocMark hnodup hlive fun x hx hmem =>
      hused x (by rwa [hsplit] at hmem) (hfree x hx)
    have hhead : (l ++ b :: new).headD 0 = head := by
      obtain ⟨tail, rfl⟩ := hc.walk.head_eq hl
      rfl
    have htable : growTable T l (b :: new) =
        Function.update (link T kFat32EocMark (b :: new)) (l.getLast hl) b := by
      rw [growTable, List.getLast?_eq_getLast_of_ne_nil hl]
      rfl
    rw [hhead]
    refine .inr ⟨hgood, ?_, fun x hx => ?_⟩
    · rw [htable]
      have happ : l ++ b :: new = l.dropLast ++ l.getLast hl :: b :: new := by
        rw [List.append_cons l.dropLast, hsplit]
      rwa [happ]
    · rcases List.mem_append.mp hx with hmem | hmem
      · exact hc.data x hmem
      · exact hdata x hmem

theorem BPB.ChainOf.cutTable_eq_zero (hc : bpb.ChainOf T head l) (hk : k ≤ l.length) (x : Nat) :
    cutTable T l k x = 0 ↔ T x = 0 ∨ x ∈ l.drop k := by
  by_cases hx : x ∈ l
  · have hused := hc.used x hx
    rw [← List.take_append_drop k l, List.mem_append] at hx
    rcases hx with hx | hx
    · have hdisj : x ∉ l.drop k := fun hmem => by
        have hnodup := hc.nodup
        rw [← List.take_append_drop k l] at hnodup
        exact (List.disjoint_of_nodup_append hnodup) hx hmem
      simp [(hc.cut hk).used x hx, hused, hdisj]
    · simp [cutTable_of_mem_drop hx, hx]
  · have hdrop : x ∉ l.drop k := fun hmem => hx (List.mem_of_mem_drop hmem)
    rw [cutTable_of_notMem hx hk]
    simp [hdrop]

theorem BPB.ChainOf.growTable_eq_zero (hs : bpb.Sound) (hc : bpb.ChainOf T head l) (hne : new ≠ [])
    (hnodup : new.Nodup) (hdata : ∀ x ∈ new, bpb.DataClus x) (hfree : ∀ x ∈ new, T x = 0) (x : Nat) :
    growTable T l new x = 0 ↔ T x = 0 ∧ x ∉ new := by
  by_cases hx : x ∈ l ++ new
  · have hafter := (hc.grow hs hne hnodup hdata hfree).used x hx
    rcases List.mem_append.mp hx with hl | hnew
    · simp [hafter, hc.used x hl]
    · simp [hafter, hnew]
  · rw [growTable_of_notMem hx]
    rw [List.mem_append, not_or] at hx
    simp [hx.2]

end tables

section resize

variable {fat : FAT} {d : Device} {T : Nat → Nat} {head clus_num : Nat} {l : List Nat}

/-! ### The cases of `resize` -/

/-- A chain that is long enough is cut. Its count goes down by what was released. -/
theorem FAT.Represents.resize_cut (h : fat.Represents d T) (hc : fat.bpb.ChainOf T head l)
    (hnum : clus_num ≤ l.length) (clear : Bool) : ∃ d',
    fat.resize d head clus_num clear =
      some (true, if clus_num = 0 then 0 else head, fat.decTimes (l.length - clus_num), d') ∧
    fat.bpb.OnlyFat d d' ∧ fat.Represents d' (cutTable T l clus_num) := by
  rcases hc with ⟨rfl, rfl⟩ | ⟨hhead, hc⟩
  · obtain rfl : clus_num = 0 := by simpa using hnum
    exact ⟨d, rfl, .refl _ d, by rwa [cutTable, fill_nil]⟩
  have hfuel := hc.lt_walkFuel h.wellFormed.sound
  have hvalid := isValidCluster_of_dataClus hhead
  rcases clus_num with _ | k
  · obtain ⟨d', hrun, honly, h'⟩ := h.resizeLoop_drop (p := head) hc (Nat.zero_le 0) hfuel
    refine ⟨d', ?_, honly, h'⟩
    simp [FAT.resize, FAT.resizeWalk, hvalid, hrun]
  · have hsplit := split_at (show k < l.length by omega)
    have hlen : (l.take k).length = k := List.length_take_of_le (by omega)
    rw [hsplit] at hc
    obtain ⟨d', hrun, honly, h'⟩ := h.resizeLoop_cut (p := head) (k := 0) hc
      (show 0 + (l.take k).length + 1 = k + 1 by omega) (by rwa [← hsplit])
    have henough : ¬ k + 1 + (l.length - (k + 1)) < k + 1 := Nat.not_lt.mpr (Nat.le_add_right _ _)
    rw [List.length_drop] at hrun
    refine ⟨d', ?_, honly, h'⟩
    simp only [FAT.resize, FAT.resizeWalk, if_pos hvalid, hrun, Option.bind_eq_bind, Option.bind_some,
      if_neg henough, if_neg (Nat.succ_ne_zero k)]
    rfl

/-- What the walk of `resize` gives back for a chain that is too short. -/
theorem FAT.Represents.resize_walk (h : fat.Represents d T) (hc : fat.bpb.ChainOf T head l)
    (hnum : l.length < clus_num) :
    fat.resizeWalk d head clus_num = some ((l.getLastD head, l.length), fat, d) := by
  rcases hc with ⟨rfl, rfl⟩ | ⟨hhead, hc⟩
  · rfl
  · rw [FAT.resizeWalk, if_pos (isValidCluster_of_dataClus hhead), h.resizeLoop_keep hc (by omega)
      (hc.lt_walkFuel h.wellFormed.sound), Nat.zero_add]

theorem FAT.Represents.resize_short (h : fat.Represents d T) (hc : fat.bpb.ChainOf T head l)
    (hnum : l.length < clus_num) (clear : Bool) :
    fat.resize d head clus_num clear =
      (fat.allocClus d (clus_num - l.length)).bind fun r =>
        match r.1 with
        | none => some (false, head, r.2)
        | some clus_chain =>
          (r.2.1.clearIf r.2.2 clear clus_chain).bind fun d =>
            if !isValidCluster head then some (true, clus_chain.headD 0, r.2.1, d)
            else (r.2.1.writeClusEntry d (l.getLastD head) (clus_chain.headD 0)).bind fun d =>
              some (true, head, r.2.1, d) := by
  rw [FAT.resize, h.resize_walk hc hnum]
  simp only [Option.bind_eq_bind, Option.bind_some, if_pos hnum]
  rfl

theorem FAT.Represents.resize_full (h : fat.Represents d T) (hc : fat.bpb.ChainOf T head l)
    (hnum : l.length < clus_num) (hfull : fat.avail T < clus_num - l.length) (clear : Bool) :
    fat.resize d head clus_num clear = some (false, head, fat.counted T, d) := by
  rw [h.resize_short hc hnum, h.allocClus_none hfull]
  rfl

private theorem FAT.Represents.resize_stops (h : fat.Represents d T) (hc : fat.bpb.ChainOf T head l)
    (hhint : fat.freeCount = 0xFFFFFFFF) (hnum : l.length < clus_num)
    (hcnt : clus_num - l.length ≤ fat.avail T)
    (hfree : (fat.freeList T).length < clus_num - l.length) (clear : Bool) :
    fat.resize d head clus_num clear = none := by
  rw [h.resize_short hc hnum, h.allocClus_stops hhint hcnt hfree]
  rfl

theorem FAT.Represents.clearIf (h : fat.Represents d T) {new : List Nat}
    (hnew : ∀ x ∈ new, fat.bpb.DataClus x) (clear : Bool) : ∃ d',
    fat.clearIf d clear new = some d' ∧ fat.Represents d' T ∧
      fat.bpb.Touches new d d' ∧ (clear = false → d' = d) ∧
      (clear = true → fat.bpb.Cleared new d') := by
  cases clear with
  | false => exact ⟨d, rfl, h, (BPB.OnlyFat.refl _ d).touches, fun _ => rfl, by simp⟩
  | true =>
    obtain ⟨d', hrun, h', htouch, hclear⟩ := h.clearClusChain hnew
    exact ⟨d', hrun, h', htouch, by simp, fun _ => hclear⟩

/-- A chain that is too short gets the lowest free clusters behind its last one. -/
theorem FAT.Represents.resize_grow (h : fat.Represents d T) (hc : fat.bpb.ChainOf T head l)
    (hhint : fat.freeCount = 0xFFFFFFFF) (hnum : l.length < clus_num)
    (hcnt : clus_num - l.length ≤ fat.avail T)
    (hfree : clus_num - l.length ≤ (fat.freeList T).length) (clear : Bool) : ∃ d',
    fat.resize d head clus_num clear =
      some (true, (l ++ (fat.freeList T).take (clus_num - l.length)).headD 0,
        (fat.counted T).decAvailCnt (clus_num - l.length), d') ∧
    fat.Represents d' (growTable T l ((fat.freeList T).take (clus_num - l.length))) ∧
    fat.bpb.Touches ((fat.freeList T).take (clus_num - l.length)) d d' ∧
    (clear = false → fat.bpb.OnlyFat d d') ∧
    (clear = true → fat.bpb.Cleared ((fat.freeList T).take (clus_num - l.length)) d') := by
  have hs := h.wellFormed.sound
  obtain ⟨d₁, halloc, honly₁, h₁⟩ := h.allocClus_some hhint hcnt (by omega) hfree
  set new := (fat.freeList T).take (clus_num - l.length) with hnewdef
  have hnew : ∀ x ∈ new, fat.bpb.DataClus x := fun x hx =>
    (h.data_take_freeList (clus_num - l.length) x hx).1
  have hfat : ((fat.counted T).decAvailCnt (clus_num - l.length)).Represents d₁
      (link T kFat32EocMark new) := by simpa using h₁
  obtain ⟨d₂, hclear, h₂, htouch, hsame, hcleared⟩ := hfat.clearIf hnew clear
  rw [h.resize_short hc hnum, halloc]
  simp only [Option.bind_some, hclear]
  rcases hc with ⟨rfl, rfl⟩ | ⟨hhead, hc⟩
  · refine ⟨d₂, rfl, by simpa [growTable] using h₂, honly₁.touches.trans htouch, ?_, hcleared⟩
    intro hno
    rw [hsame hno]
    exact honly₁
  · have hne := hc.ne_nil hs hhead
    have hlast : l.getLast hne ∈ l := List.getLast_mem hne
    have hheadD : new.headD 0 < 2 ^ 28 := by
      cases hnil : new with
      | nil => exact (by decide : 0 < 2 ^ 28)
      | cons x tail =>
        have := hs.dataClus_lt (hnew x (by simp [hnil]))
        simp only [List.headD_cons]
        omega
    obtain ⟨d₃, hwrite, honly₃, h₃⟩ := h₂.writeClusEntry (hc.data _ hlast) hheadD
    have hhd : (l ++ new).headD 0 = head := by
      obtain ⟨tail, rfl⟩ := hc.walk.head_eq hne
      rfl
    refine ⟨d₃, ?_, ?_, (honly₁.touches.trans htouch).trans honly₃.touches, ?_, ?_⟩
    · rw [isValidCluster_of_dataClus hhead, hhd, List.getLastD_eq_getLast?,
        List.getLast?_eq_getLast_of_ne_nil hne, Option.getD_some, hwrite]
      rfl
    · rw [growTable, List.getLast?_eq_getLast_of_ne_nil hne]
      simpa using h₃
    · intro hno
      rw [hsame hno] at honly₃
      exact honly₁.trans honly₃
    · intro hyes x hx j hj i hi
      have hlow := (hs.sector_bounds (hnew x hx) hj).1
      rw [honly₃.value _ (.inr hlow)]
      exact hcleared hyes x hx j hj i hi

/-- What a call of `resize` that returns has done. -/
theorem FAT.Represents.resize_cases (h : fat.Represents d T) (hc : fat.bpb.ChainOf T head l)
    (hhint : fat.freeCount = 0xFFFFFFFF) {clear ok : Bool} {fst : Nat} {fat' : FAT} {d' : Device}
    (hrun : fat.resize d head clus_num clear = some (ok, fst, fat', d')) :
    (clus_num ≤ l.length ∧ ok = true ∧ fst = (if clus_num = 0 then 0 else head) ∧
        fat' = fat.decTimes (l.length - clus_num) ∧ fat.Represents d' (cutTable T l clus_num)) ∨
      (l.length < clus_num ∧ fat.avail T < clus_num - l.length ∧ ok = false ∧ fst = head ∧
        fat' = fat.counted T ∧ d' = d) ∨
      (l.length < clus_num ∧ clus_num - l.length ≤ fat.avail T ∧
        clus_num - l.length ≤ (fat.freeList T).length ∧ ok = true ∧
        fst = (l ++ (fat.freeList T).take (clus_num - l.length)).headD 0 ∧
        fat' = (fat.counted T).decAvailCnt (clus_num - l.length) ∧
        fat.Represents d' (growTable T l ((fat.freeList T).take (clus_num - l.length)))) := by
  by_cases hnum : clus_num ≤ l.length
  · obtain ⟨d₁, hcut, -, h'⟩ := h.resize_cut hc hnum clear
    rw [hcut] at hrun
    simp only [Option.some.injEq, Prod.mk.injEq] at hrun
    obtain ⟨hok, hfst, hfat, rfl⟩ := hrun
    exact .inl ⟨hnum, hok.symm, hfst.symm, hfat.symm, h'⟩
  by_cases hfull : fat.avail T < clus_num - l.length
  · rw [h.resize_full hc (by omega) hfull] at hrun
    simp only [Option.some.injEq, Prod.mk.injEq] at hrun
    exact .inr (.inl ⟨by omega, hfull, hrun.1.symm, hrun.2.1.symm, hrun.2.2.1.symm, hrun.2.2.2.symm⟩)
  by_cases hfree : (fat.freeList T).length < clus_num - l.length
  · rw [h.resize_stops hc hhint (by omega) (by omega) hfree] at hrun
    exact absurd hrun (by simp)
  · obtain ⟨d₁, hgrow, h', -⟩ := h.resize_grow hc hhint (show l.length < clus_num by omega)
      (by omega) (by omega) clear
    rw [hgrow] at hrun
    simp only [Option.some.injEq, Prod.mk.injEq] at hrun
    obtain ⟨hok, hfst, hfat, rfl⟩ := hrun
    exact .inr (.inr ⟨by omega, by omega, by omega, hok.symm, hfst.symm, hfat.symm, h'⟩)

end resize

end FuseFat32
