import FuseFat32.Fat.Ownership

/-!
# Where the pointer walks go

`readClusChains`, `freeClus` and `resize` walk through the same loop and differ in what they leave in an entry they have passed. `FAT.trace` is this loop with a record of the entries it has come to, and each walk of the source is an image of it, on every device. The loop looks at one mark only. What else may stand in an entry, a free mark, a bad cluster or a number past the last cluster, is followed like a link.
-/

namespace FuseFat32

open LinkedTable

/-! ### The loop and its record -/

/-- What round `clus_cnt` of a walk leaves in the entry it has read. -/
def FAT.leaveEntry (fat : FAT) (d : Device) (clus : Nat) : Option Nat → Exec Device
  | none => some d
  | some val => fat.writeClusEntry d clus val

/-- The entries that a walk from `cur_clus` comes to, and the device after it. Round `k` writes `put k`. -/
def FAT.trace (fat : FAT) (put : Nat → Option Nat) : Nat → Device → Nat → Nat → Exec (List Nat × Device)
  | 0, _, _, _ => none
  | fuel + 1, d, cur_clus, k =>
    if isEndOfClusChain cur_clus then some ([], d)
    else do
      let next ← fat.readClusEntry d cur_clus
      let d ← fat.leaveEntry d cur_clus (put k)
      let (l, d) ← fat.trace put fuel d next (k + 1)
      return (cur_clus :: l, d)

/-- `readClusChains` writes nothing. -/
def readPut (_ : Nat) : Option Nat := none

/-- `freeClus` writes the free mark. -/
def freePut (_ : Nat) : Option Nat := some 0

/-- `resize` keeps the first `clus_num` entries and marks the last of them. -/
def resizePut (clus_num clus_cnt : Nat) : Option Nat :=
  if clus_cnt + 1 > clus_num then some 0
  else if clus_cnt + 1 = clus_num then some kFat32EocMark
  else none

section trace

variable {fat fat' : FAT} {d d' : Device} {put : Nat → Option Nat} {fuel cur k n : Nat} {l : List Nat}

theorem FAT.trace_congr (h : fat'.bpb = fat.bpb) : fat'.trace put fuel d cur k = fat.trace put fuel d cur k := by
  cases fat
  cases fat'
  subst h
  induction fuel generalizing d cur k with
  | zero => rfl
  | succ fuel ih =>
    rw [FAT.trace, FAT.trace]
    congr 1
    refine congrArg _ (funext fun next => congrArg _ (funext fun d₁ => ?_))
    rw [ih]

theorem FAT.trace_succ (hcur : ¬ Eoc cur) : fat.trace put (fuel + 1) d cur k =
    (fat.readClusEntry d cur).bind fun next => (fat.leaveEntry d cur (put k)).bind fun d₁ =>
      (fat.trace put fuel d₁ next (k + 1)).map fun x => (cur :: x.1, x.2) := by
  rw [FAT.trace, if_neg hcur]
  refine congrArg _ (funext fun next => congrArg _ (funext fun d₁ => ?_))
  cases fat.trace put fuel d₁ next (k + 1) <;> rfl

theorem FAT.trace_stop (hcur : Eoc cur) : fat.trace put (fuel + 1) d cur k = some ([], d) := by
  rw [FAT.trace, if_pos hcur]

/-! ### The walks of the source -/

private theorem FAT.chainLoop_eq_trace (k : Nat) :
    fat.chainLoop d fuel cur = (fat.trace readPut fuel d cur k).map Prod.fst := by
  induction fuel generalizing cur k with
  | zero => rfl
  | succ fuel ih =>
    rw [FAT.chainLoop]
    by_cases hcur : Eoc cur
    · rw [if_pos hcur, FAT.trace_stop hcur]
      rfl
    · rw [if_neg hcur, FAT.trace_succ hcur, Option.map_bind]
      refine congrArg _ (funext fun next => ?_)
      rw [ih (k + 1)]
      change _ = ((fat.trace readPut fuel d next (k + 1)).map fun x => (cur :: x.1, x.2)).map Prod.fst
      cases fat.trace readPut fuel d next (k + 1) <;> rfl

private theorem FAT.freeLoop_eq_trace (k : Nat) : FAT.freeLoop fuel fat d cur =
    (fat.trace freePut fuel d cur k).map fun x => (fat.incTimes x.1.length, x.2) := by
  induction fuel generalizing fat d cur k with
  | zero => rfl
  | succ fuel ih =>
    rw [FAT.freeLoop]
    by_cases hcur : Eoc cur
    · rw [if_pos hcur, FAT.trace_stop hcur]
      rfl
    · rw [if_neg hcur, FAT.trace_succ hcur, Option.map_bind]
      refine congrArg _ (funext fun next => ?_)
      rw [Function.comp_apply, Option.map_bind]
      refine congrArg _ (funext fun d₁ => ?_)
      rw [ih (k + 1), FAT.trace_congr (fat.bpb_incAvailCnt 1), Function.comp_apply, Option.map_map]
      refine congrFun (congrArg _ (funext fun x => ?_)) _
      rw [FAT.incTimes_incAvailCnt]
      rfl

private theorem FAT.resizeLoop_succ (hcur : ¬ Eoc cur) (p : Nat) : FAT.resizeLoop n (fuel + 1) fat d p cur k =
    (fat.readClusEntry d cur).bind fun next => (fat.leaveEntry d cur (resizePut n k)).bind fun d₁ =>
      FAT.resizeLoop n fuel (fat.decTimes (if k + 1 > n then 1 else 0)) d₁ cur next (k + 1) := by
  rw [FAT.resizeLoop, if_neg hcur]
  refine congrArg _ (funext fun next => ?_)
  rw [resizePut]
  split
  · rfl
  · split <;> rfl

/-- What `resize` knows of its walk: the last cluster met, their number, and the count that the release has changed. -/
theorem FAT.resizeLoop_eq_trace (p : Nat) : FAT.resizeLoop n fuel fat d p cur k =
    (fat.trace (resizePut n) fuel d cur k).map fun x =>
      ((x.1.getLastD p, k + x.1.length), fat.decTimes (k + x.1.length - max k n), x.2) := by
  induction fuel generalizing fat d p cur k with
  | zero => rfl
  | succ fuel ih =>
    by_cases hcur : Eoc cur
    · have hnone : k - max k n = 0 := by omega
      rw [FAT.resizeLoop, if_pos hcur, FAT.trace_stop hcur]
      simp [FAT.decTimes, hnone]
    · have hcount : ∀ len, (if k + 1 > n then 1 else 0) + (k + (len + 1) - max (k + 1) n) =
          k + (len + 1) - max k n := fun len => by split <;> omega
      rw [FAT.resizeLoop_succ hcur, FAT.trace_succ hcur, Option.map_bind]
      refine congrArg _ (funext fun next => ?_)
      rw [Function.comp_apply, Option.map_bind]
      refine congrArg _ (funext fun d₁ => ?_)
      rw [ih, FAT.trace_congr (FAT.bpb_decTimes _), Function.comp_apply, Option.map_map]
      refine congrFun (congrArg _ (funext fun x => ?_)) _
      simp only [FAT.decTimes_decTimes, Function.comp_apply, List.getLastD_cons, List.length_cons,
        Nat.add_assoc, Nat.add_comm 1, hcount]

theorem FAT.trace_inv (hcur : ¬ Eoc cur) (hrun : fat.trace put (fuel + 1) d cur k = some (l, d')) :
    ∃ next d₁ l₁, fat.readClusEntry d cur = some next ∧ fat.leaveEntry d cur (put k) = some d₁ ∧
      fat.trace put fuel d₁ next (k + 1) = some (l₁, d') ∧ l = cur :: l₁ := by
  rw [FAT.trace_succ hcur] at hrun
  obtain ⟨next, hread, hrun⟩ := Option.bind_eq_some_iff.mp hrun
  obtain ⟨d₁, hleave, hrun⟩ := Option.bind_eq_some_iff.mp hrun
  obtain ⟨⟨l₁, d₂⟩, hrest, hx⟩ := Option.map_eq_some_iff.mp hrun
  simp only [Prod.mk.injEq] at hx
  obtain ⟨rfl, rfl⟩ := hx
  exact ⟨next, d₁, l₁, hread, hleave, hrest, rfl⟩

private theorem FAT.readClusChains_eq_trace (hcur : isValidCluster cur = true) :
    fat.readClusChains d cur = (fat.trace readPut walkFuel d cur 0).map Prod.fst := by
  rw [FAT.readClusChains, if_pos hcur, FAT.chainLoop_eq_trace 0]

theorem FAT.freeClus_eq_trace (hcur : isValidCluster cur = true) : fat.freeClus d cur =
    (fat.trace freePut walkFuel d cur 0).map fun x => (fat.incTimes x.1.length, x.2) := by
  rw [FAT.freeClus, if_pos hcur, FAT.freeLoop_eq_trace 0]

theorem FAT.resizeWalk_eq_trace (hcur : isValidCluster cur = true) : fat.resizeWalk d cur n =
    (fat.trace (resizePut n) walkFuel d cur 0).map fun x =>
      ((x.1.getLastD cur, x.1.length), fat.decTimes (x.1.length - n), x.2) := by
  rw [FAT.resizeWalk, if_pos hcur, FAT.resizeLoop_eq_trace]
  simp only [Nat.zero_add, Nat.zero_max]

end trace

/-! ### Walks among the data clusters -/

/-- The copies of the FAT differ in the words of the entries `l` at most. -/
structure BPB.SameOutside (bpb : BPB) (l : List Nat) (d d' : Device) : Prop where
  secCnt : d'.secCnt = d.secCnt
  word : ∀ i < bpb.numFats.toNat, ∀ m < bpb.clusCnt + 2, m ∉ l → bpb.copyWord d' i m = bpb.copyWord d i m

/-- A walk from `c` that comes to the entries `l` and leaves `d'`. It ends within as many steps as there are clusters, no mark and nothing else but an entry of a data cluster is read or written as an entry, and the two reserved entries keep their words in every copy. -/
structure FAT.Contained (fat : FAT) (put : Nat → Option Nat) (d : Device) (c : Nat) (l : List Nat)
    (d' : Device) : Prop where
  run : fat.trace put walkFuel d c 0 = some (l, d')
  steps : l.length ≤ fat.bpb.clusCnt
  inside : ∀ x ∈ l, fat.bpb.DataClus x
  reserved : ∀ i < fat.bpb.numFats.toNat, ∀ n < 2, fat.bpb.copyWord d' i n = fat.bpb.copyWord d i n

def FAT.ReadContained (fat : FAT) (d : Device) (c : Nat) : Prop :=
  ∃ l, fat.readClusChains d c = some l ∧ fat.Contained readPut d c l d

def FAT.FreeContained (fat : FAT) (d : Device) (c : Nat) : Prop :=
  ∃ l fat' d', fat.freeClus d c = some (fat', d') ∧ fat.Contained freePut d c l d'

/-- Every target that is no larger than the chain: there is no end-of-chain mark before the links have been followed that often. -/
def FAT.ResizeContained (fat : FAT) (d : Device) (c : Nat) : Prop :=
  ∀ clus_num clear, (∀ j < clus_num, ¬ Eoc ((fat.entry d)^[j] c)) →
    ∃ l fst fat' d', fat.resize d c clus_num clear = some (true, fst, fat', d') ∧
      fat.Contained (resizePut clus_num) d c l d'

section contained

variable {fat : FAT} {d d' d'' : Device} {put : Nat → Option Nat} {fuel cur k n : Nat} {l : List Nat}

theorem BPB.SameOutside.refl (bpb : BPB) (l : List Nat) (d : Device) : bpb.SameOutside l d d :=
  ⟨rfl, fun _ _ _ _ _ => rfl⟩

theorem BPB.SameOutside.cons {bpb : BPB} (h : bpb.SameOutside [cur] d d') (h' : bpb.SameOutside l d' d'') :
    bpb.SameOutside (cur :: l) d d'' := by
  refine ⟨h'.secCnt.trans h.secCnt, fun i hi m hm hout => ?_⟩
  rw [List.mem_cons, not_or] at hout
  rw [h'.word i hi m hm hout.2, h.word i hi m hm fun hmem => hout.1 (List.mem_singleton.mp hmem)]

section sound

variable (hs : fat.bpb.Sound)

include hs

theorem BPB.SameOutside.entry (h : fat.bpb.SameOutside l d d') {m : Nat} (hm : m < fat.bpb.clusCnt + 2)
    (hout : m ∉ l) : fat.entry d' m = fat.entry d m := by
  rw [FAT.entry_eq_copyWord hs hm, FAT.entry_eq_copyWord hs hm, h.word 0 hs.numFats m hm hout]

theorem FAT.leaveEntry_eq (hfits : fat.bpb.totSec32.toNat ≤ d.secCnt) (hn : n < fat.bpb.clusCnt + 2)
    (o : Option Nat) : ∃ d', fat.leaveEntry d n o = some d' ∧ fat.bpb.SameOutside [n] d d' ∧
      fat.entry d' n = (o.map (· % 2 ^ 28)).getD (fat.entry d n) := by
  cases o with
  | none => exact ⟨d, rfl, .refl _ _ d, rfl⟩
  | some val =>
    have hin := hs.inFat hn
    have hfirst := hs.firstDataSector_le
    obtain ⟨d', hrun, h⟩ := FAT.exists_writeFatEntry (d := d) hs.bytesPerSec hs.copiesApart hin
      (fun i hi => by have hbounds := hs.copySec_bounds hi hin.row; omega) val
    refine ⟨d', hrun, ⟨h.secCnt, fun i hi m hm hout => ?_⟩, ?_⟩
    · rw [h.copyWord hs.copiesApart hin.row (hs.inFat hm).row hi,
        if_neg fun heq => hout (List.mem_singleton.mpr heq)]
    · rw [FAT.entry_eq_copyWord hs hn, h.copyWord hs.copiesApart hin.row hin.row hs.numFats, if_pos rfl,
        mergeFATClusEntryVal_and]
      rfl

/-- A chain is what every walk through it comes to, whatever it leaves behind. -/
theorem FAT.trace_of_chain (hfits : fat.bpb.totSec32.toNat ≤ d.secCnt)
    (hc : fat.bpb.Chain (fat.entry d) cur l) (hfuel : l.length < fuel) (put : Nat → Option Nat) :
    ∃ d', fat.trace put fuel d cur k = some (l, d') ∧ fat.bpb.SameOutside l d d' := by
  induction l generalizing fuel d cur k with
  | nil =>
    obtain ⟨fuel, rfl⟩ : ∃ f, fuel = f + 1 := ⟨fuel - 1, by simp at hfuel; omega⟩
    exact ⟨d, FAT.trace_stop (walk_nil.mp hc.walk), .refl _ _ d⟩
  | cons x l ih =>
    obtain ⟨rfl, hx, htail⟩ := walk_cons.mp hc.walk
    have hxl : x ∉ l := (List.nodup_cons.mp hc.walk.nodup).1
    have hxdata := hc.data x List.mem_cons_self
    obtain ⟨fuel, rfl⟩ : ∃ f, fuel = f + 1 := ⟨fuel - 1, by simp at hfuel; omega⟩
    obtain ⟨d₁, hleave, hsame, -⟩ := FAT.leaveEntry_eq hs hfits hxdata.2 (put k)
    -- the rest of the chain is not touched by the round
    have hc₁ : fat.bpb.Chain (fat.entry d₁) (fat.entry d x) l := by
      refine ⟨htail.frame fun y hy => ?_, fun y hy => hc.data y (List.mem_cons_of_mem x hy)⟩
      exact hsame.entry hs (hc.data y (List.mem_cons_of_mem x hy)).2 fun hmem =>
        hxl (List.mem_singleton.mp hmem ▸ hy)
    obtain ⟨d', hrest, hsame'⟩ := ih (k := k + 1) (hsame.secCnt ▸ hfits) hc₁ (by simpa using hfuel)
    refine ⟨d', ?_, hsame.cons hsame'⟩
    rw [FAT.trace_succ hx, FAT.readClusEntry_eq hs hfits hxdata.2, Option.bind_some, hleave, Option.bind_some,
      hrest]
    rfl

/-- A walk that writes free marks at most and comes to data clusters only has come along a chain. -/
theorem FAT.chain_of_trace (hfits : fat.bpb.totSec32.toNat ≤ d.secCnt)
    (hput : ∀ k, put k = none ∨ put k = some 0) (hrun : fat.trace put fuel d cur k = some (l, d'))
    (hdata : ∀ x ∈ l, fat.bpb.DataClus x) : fat.bpb.Chain (fat.entry d) cur l := by
  induction fuel generalizing d cur k l with
  | zero => cases hrun
  | succ fuel ih =>
    by_cases hcur : Eoc cur
    · rw [FAT.trace_stop hcur, Option.some.injEq, Prod.mk.injEq] at hrun
      obtain ⟨rfl, rfl⟩ := hrun
      exact ⟨walk_nil.mpr hcur, hdata⟩
    obtain ⟨next, d₁, l₁, hread, hleave, hrest, rfl⟩ := FAT.trace_inv hcur hrun
    have hx := hdata cur List.mem_cons_self
    have hdata₁ : ∀ y ∈ l₁, fat.bpb.DataClus y := fun y hy => hdata y (List.mem_cons_of_mem cur hy)
    rw [FAT.readClusEntry_eq hs hfits hx.2] at hread
    obtain rfl := Option.some.inj hread
    obtain ⟨d₂, hleave', hsame, hentry⟩ := FAT.leaveEntry_eq hs hfits hx.2 (put k)
    obtain rfl := Option.some.inj (hleave.symm.trans hleave')
    have hc₁ := ih (hsame.secCnt ▸ hfits) hrest hdata₁
    refine ⟨walk_cons.mpr ⟨rfl, hcur, hc₁.walk.frame fun y hy => ?_⟩, hdata⟩
    rcases hput k with hnone | hzero
    · rw [hnone] at hleave
      rw [Option.some.inj hleave]
    · -- an entry released before would lead the walk to entry 0
      refine (hsame.entry hs (hdata₁ y hy).2 fun hmem => ?_).symm
      obtain rfl := List.mem_singleton.mp hmem
      rw [hzero] at hentry
      rcases hc₁.walk.next_mem hy with hin | hend
      · rw [hentry] at hin
        exact not_dataClus_zero _ (hdata₁ _ hin)
      · rw [hentry] at hend
        exact not_eoc_zero hend

theorem FAT.contained_of_chain (hfits : fat.bpb.totSec32.toNat ≤ d.secCnt)
    (hc : fat.bpb.Chain (fat.entry d) cur l) (put : Nat → Option Nat) :
    ∃ d', fat.Contained put d cur l d' := by
  obtain ⟨d', hrun, hsame⟩ := FAT.trace_of_chain (k := 0) hs hfits hc (hc.lt_walkFuel hs) put
  refine ⟨d', hrun, hc.length_le, hc.data, fun i hi n hn => hsame.word i hi n (by omega) fun hmem => ?_⟩
  have hlo := (hc.data n hmem).1
  omega

omit hs in
private theorem FAT.device_of_readTrace (hrun : fat.trace readPut fuel d cur k = some (l, d')) : d' = d := by
  induction fuel generalizing cur k l with
  | zero => cases hrun
  | succ fuel ih =>
    by_cases hcur : Eoc cur
    · rw [FAT.trace_stop hcur, Option.some.injEq, Prod.mk.injEq] at hrun
      exact hrun.2.symm
    · obtain ⟨next, d₁, l₁, -, hleave, hrest, -⟩ := FAT.trace_inv hcur hrun
      obtain rfl := Option.some.inj hleave
      exact ih hrest

theorem FAT.readContained_iff (hfits : fat.bpb.totSec32.toNat ≤ d.secCnt) (hc : fat.bpb.DataClus cur) :
    fat.ReadContained d cur ↔ ∃ l, fat.bpb.Chain (fat.entry d) cur l := by
  constructor
  · rintro ⟨l, -, h⟩
    exact ⟨l, FAT.chain_of_trace hs hfits (fun _ => .inl rfl) h.run h.inside⟩
  · rintro ⟨l, hchain⟩
    obtain ⟨d', h⟩ := FAT.contained_of_chain hs hfits hchain readPut
    obtain rfl := FAT.device_of_readTrace h.run
    refine ⟨l, ?_, h⟩
    rw [FAT.readClusChains_eq_trace (isValidCluster_of_dataClus hc), h.run]
    rfl

theorem FAT.freeContained_iff (hfits : fat.bpb.totSec32.toNat ≤ d.secCnt) (hc : fat.bpb.DataClus cur) :
    fat.FreeContained d cur ↔ ∃ l, fat.bpb.Chain (fat.entry d) cur l := by
  constructor
  · rintro ⟨l, _, _, -, h⟩
    exact ⟨l, FAT.chain_of_trace hs hfits (fun _ => .inr rfl) h.run h.inside⟩
  · rintro ⟨l, hchain⟩
    obtain ⟨d', h⟩ := FAT.contained_of_chain hs hfits hchain freePut
    refine ⟨l, fat.incTimes l.length, d', ?_, h⟩
    rw [FAT.freeClus_eq_trace (isValidCluster_of_dataClus hc), h.run]
    rfl

theorem FAT.resizeContained_iff (hfits : fat.bpb.totSec32.toNat ≤ d.secCnt) (hc : fat.bpb.DataClus cur) :
    fat.ResizeContained d cur ↔ ∃ l, fat.bpb.Chain (fat.entry d) cur l := by
  constructor
  · -- the target 0 releases everything
    intro hall
    obtain ⟨l, _, _, _, -, h⟩ := hall 0 false fun j hj => absurd hj (Nat.not_lt_zero j)
    exact ⟨l, FAT.chain_of_trace hs hfits (fun k => .inr (if_pos (Nat.succ_pos k))) h.run h.inside⟩
  · rintro ⟨l, hchain⟩ clus_num clear hlive
    have hlen := hchain.walk.le_length hlive
    obtain ⟨d', h⟩ := FAT.contained_of_chain hs hfits hchain (resizePut clus_num)
    refine ⟨l, if clus_num = 0 then 0 else cur, fat.decTimes (l.length - clus_num), d', ?_, h⟩
    rw [FAT.resize, FAT.resizeWalk_eq_trace (isValidCluster_of_dataClus hc), h.run]
    simp only [Option.map_some, Option.bind_eq_bind, Option.bind_some, if_neg (Nat.not_lt.mpr hlen)]
    split <;> rfl

/-- The walks from a data cluster are contained if and only if its links lead through data clusters to an end-of-chain mark, whatever the table holds elsewhere. -/
theorem FAT.contained_iff (hfits : fat.bpb.totSec32.toNat ≤ d.secCnt) {c : Nat} (hc : fat.bpb.DataClus c) :
    (fat.ReadContained d c ↔ ∃ l, fat.bpb.Chain (fat.entry d) c l) ∧
      (fat.FreeContained d c ↔ ∃ l, fat.bpb.Chain (fat.entry d) c l) ∧
      (fat.ResizeContained d c ↔ ∃ l, fat.bpb.Chain (fat.entry d) c l) :=
  ⟨FAT.readContained_iff hs hfits hc, FAT.freeContained_iff hs hfits hc, FAT.resizeContained_iff hs hfits hc⟩

end sound

end contained

/-- A table in which the entry of cluster 2 is a free mark and that of cluster 3 is its own number. -/
def looseTable (n : Nat) : Nat := if n < 2 then kFat32EocMark else if n = 3 then 3 else 0

/-- Releasing cluster 2 there zeroes the reserved entry 0, and reading from cluster 3 never ends. -/
theorem FAT.not_contained_loose : smallBpb.DataClus 2 ∧ smallBpb.DataClus 3 ∧
    ((smallRun looseTable).fat.entry (smallRun looseTable).device 0 = kFat32EocMark ∧
      ((smallRun looseTable).fat.freeClus (smallRun looseTable).device 2).map
        (fun x => (smallRun looseTable).fat.entry x.2 0) = some 0) ∧
    ¬ (smallRun looseTable).fat.FreeContained (smallRun looseTable).device 2 ∧
    (∀ fuel, (smallRun looseTable).fat.chainLoop (smallRun looseTable).device fuel 3 = none) ∧
    ¬ (smallRun looseTable).fat.ReadContained (smallRun looseTable).device 3 ∧
    ¬ (smallRun looseTable).fat.ResizeContained (smallRun looseTable).device 3 := by
  have hs : (smallRun looseTable).fat.bpb.Sound := smallBpb_sound
  have hfits : (smallRun looseTable).fat.bpb.totSec32.toNat ≤ (smallRun looseTable).device.secCnt := le_rfl
  have hfree : (smallRun looseTable).fat.entry (smallRun looseTable).device 2 = 0 := by decide +kernel
  have hself : (smallRun looseTable).fat.entry (smallRun looseTable).device 3 = 3 := by decide +kernel
  -- a chain through 3 would be longer than itself
  have hloop : ¬ ∃ l, smallBpb.Chain ((smallRun looseTable).fat.entry (smallRun looseTable).device) 3 l := by
    rintro ⟨l, hc⟩
    obtain ⟨tail, rfl⟩ := hc.walk.head_eq (hc.walk.ne_nil (by decide))
    have htail := (walk_cons.mp hc.walk).2.2
    rw [hself] at htail
    have hlen := congrArg List.length (htail.unique hc.walk)
    simp at hlen
  refine ⟨by decide, by decide, ⟨by decide +kernel, by decide +kernel⟩, ?_, fun fuel => ?_, ?_, ?_⟩
  · rw [FAT.freeContained_iff hs hfits (by decide)]
    rintro ⟨l, hc⟩
    rcases hc.walk.next_mem (hc.walk.head_mem (by decide)) with hin | hend
    · exact not_dataClus_zero _ (hc.data 0 (hfree ▸ hin))
    · exact not_eoc_zero (hfree ▸ hend)
  · induction fuel with
    | zero => rfl
    | succ fuel ih =>
      rw [FAT.chainLoop, if_neg (by decide), FAT.readClusEntry_eq hs hfits (by decide), hself,
        Option.bind_eq_bind, Option.bind_some, ih]
      rfl
  · rwa [FAT.readContained_iff hs hfits (by decide)]
  · rwa [FAT.resizeContained_iff hs hfits (by decide)]

theorem FAT.contained_small :
    (smallRun (smallTable [2])).fat.FreeContained (smallRun (smallTable [2])).device 2 := by
  exact (FAT.contained_iff smallBpb_sound le_rfl (show smallBpb.DataClus 2 by decide)).2.1.mpr
    ⟨[2], (smallRun_root (by decide) (by decide)).2⟩

end FuseFat32
