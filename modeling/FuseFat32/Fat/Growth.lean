import FuseFat32.Fat.Hint
import FuseFat32.Fat.Ownership

/-!
# Resizing with a hint pending

The runs of the FAT start without a hint. A mounted volume keeps one until its first allocation, and as long as it is usable `resize` does what it does without: it cuts a chain that is long enough, and otherwise appends the clusters that come next, the hint first and then the lowest free ones. Here is one description of both.
-/

namespace FuseFat32

open LinkedTable

/-- The clusters the next allocation takes. -/
def FAT.nextFree (fat : FAT) (T : Nat → Nat) (n : Nat) : List Nat :=
  if fat.freeCount = 0xFFFFFFFF then (fat.freeList T).take n
  else fat.freeCount :: ((fat.freeList T).erase fat.freeCount).take (n - 1)

/-- What a successful allocation has done. -/
structure FAT.Allocated (fat : FAT) (d : Device) (T : Nat → Nat) (n : Nat) (l : List Nat) (fat' : FAT)
    (d' : Device) : Prop where
  next : l = fat.nextFree T n
  length : l.length = n
  nodup : l.Nodup
  free : ∀ x ∈ l, fat.bpb.DataClus x ∧ T x = 0
  hint : fat'.freeCount = 0xFFFFFFFF
  bpb : fat'.bpb = fat.bpb
  onlyFat : fat.bpb.OnlyFat d d'
  table : fat'.Represents d' (link T kFat32EocMark l)

section alloc

variable {fat fat' : FAT} {d d' : Device} {T : Nat → Nat} {n : Nat} {l : List Nat}

private theorem FAT.Represents.allocClus_fails (h : fat.Represents d T)
    (hrun : fat.allocClus d n = some (none, fat', d')) : fat' = fat.counted T ∧ d' = d := by
  by_cases hn : fat.avail T < n
  · rw [h.allocClus_none hn] at hrun
    simp only [Option.some.injEq, Prod.mk.injEq] at hrun
    exact ⟨hrun.2.1.symm, hrun.2.2.symm⟩
  · have hn : n ≤ fat.avail T := Nat.not_lt.mp hn
    by_cases hhint : fat.freeCount = 0xFFFFFFFF
    · rw [h.allocClus_scan hhint hn, Option.map_eq_some_iff] at hrun
      obtain ⟨r, -, heq⟩ := hrun
      exact absurd heq (by simp)
    · by_cases hone : n = 1
      · subst hone
        rw [h.allocClus_hint_one hhint hn, Option.map_eq_some_iff] at hrun
        obtain ⟨r, -, heq⟩ := hrun
        exact absurd heq (by simp)
      · rw [h.allocClus_hint_more hhint hn hone, Option.map_eq_some_iff] at hrun
        obtain ⟨r, -, heq⟩ := hrun
        exact absurd heq (by simp)

/-- The hint leads the new chain, and the scan touches nothing but the FAT. -/
theorem FAT.Represents.allocated_hint (h : fat.Represents d T) (hhint : fat.freeCount ≠ 0xFFFFFFFF)
    (hpos : 0 < n) (husable : fat.HintUsable T n fat.freeCount)
    (hrun : fat.allocClus d n = some (some l, fat', d')) : fat.Allocated d T n l fat' d' := by
  obtain ⟨hdata, hfree, hhead⟩ := husable.resolve_left hhint
  obtain ⟨hl, hlen, hbpb, htable⟩ := h.freshChain_of_hint hhint hpos hdata hhead hrun
  have hn : n ≤ fat.avail T := by
    by_contra hlt
    rw [h.allocClus_none (by omega)] at hrun
    exact absurd hrun (by simp)
  have herase : fat.freeCount ∉ (fat.freeList T).erase fat.freeCount := (nodup_freeList fat).not_mem_erase
  have hmore : fat'.freeCount = 0xFFFFFFFF ∧ fat.bpb.OnlyFat d d' := by
    by_cases hone : n = 1
    · subst hone
      rw [h.allocClus_hint_one hhint hn, Option.map_eq_some_iff] at hrun
      obtain ⟨d₁, hwrite, heq⟩ := hrun
      obtain ⟨d₂, hwrite', honly, -⟩ := h.writeClusEntry hdata (show kFat32EocMark < 2 ^ 28 by decide)
      obtain rfl := Option.some.inj (hwrite.symm.trans hwrite')
      simp only [Prod.mk.injEq, Option.some.injEq] at heq
      obtain ⟨-, rfl, rfl⟩ := heq
      exact ⟨rfl, honly⟩
    · rw [h.allocClus_hint_more hhint hn hone, Option.map_eq_some_iff] at hrun
      obtain ⟨r, hloop, heq⟩ := hrun
      simp only [Prod.mk.injEq, Option.some.injEq] at heq
      obtain ⟨hr, rfl, rfl⟩ := heq
      have hcut : n - 1 ≤ ((fat.freeList T).erase fat.freeCount).length := by
        rw [hl, List.length_cons, List.length_take] at hlen
        omega
      obtain ⟨d₂, hloop', honly, -⟩ := FAT.Represents.allocLoop (c := 0) (l := [fat.freeCount])
        (show (fat.counted T).takeHint.Represents d T by simpa using h)
        (show 0 + fat.bpb.clusCnt ≤ _ by simp) (.inr hdata) (hhead.resolve_left hone)
        (show 1 < n by omega) hcut
      obtain rfl := Option.some.inj (hloop'.symm.trans hloop)
      exact ⟨rfl, honly⟩
  refine ⟨by rw [FAT.nextFree, if_neg hhint, hl], hlen, ?_, fun x hx => ?_, hmore.1, hbpb, hmore.2, htable⟩
  · rw [hl]
    exact List.nodup_cons.mpr ⟨fun hin => herase (List.mem_of_mem_take hin),
      ((nodup_freeList fat).erase _).sublist (List.take_sublist _ _)⟩
  · rw [hl] at hx
    rcases List.mem_cons.mp hx with rfl | hx
    · exact ⟨hdata, hfree⟩
    · obtain ⟨hlt, hzero⟩ := mem_freeList.mp (List.mem_of_mem_erase (List.mem_of_mem_take hx))
      exact ⟨h.dataClus_of_free (by omega) hzero, hzero⟩

/-- A successful allocation with a usable hint, or without one. -/
theorem FAT.Represents.allocated (h : fat.Represents d T) (hpos : 0 < n)
    (husable : fat.HintUsable T n fat.freeCount) (hrun : fat.allocClus d n = some (some l, fat', d')) :
    fat.Allocated d T n l fat' d' := by
  by_cases hhint : fat.freeCount = 0xFFFFFFFF
  · rcases h.allocClus_cases hhint hpos hrun with ⟨-, hres, -⟩ | ⟨-, hfree, hres, rfl, honly, htable⟩
    · exact absurd hres (by simp)
    obtain rfl := Option.some.inj hres
    exact ⟨by rw [FAT.nextFree, if_pos hhint], List.length_take_of_le hfree,
      (nodup_freeList fat).sublist (List.take_sublist n _), h.data_take_freeList n, hhint, rfl, honly,
      by simpa using htable⟩
  · exact h.allocated_hint hhint hpos husable hrun

end alloc

/-! ### The chain and the table after a resize -/

/-- The chain `l` once it has been resized to `n` clusters. -/
def FAT.chainAfter (fat : FAT) (T : Nat → Nat) (l : List Nat) (n : Nat) : List Nat :=
  if n ≤ l.length then l.take n else l ++ fat.nextFree T (n - l.length)

/-- The table then. -/
def FAT.tableAfter (fat : FAT) (T : Nat → Nat) (l : List Nat) (n : Nat) : Nat → Nat :=
  if n ≤ l.length then cutTable T l n else growTable T l (fat.nextFree T (n - l.length))

/-- What a successful resize of the chain `l` has done. -/
structure FAT.Resized (fat : FAT) (d : Device) (T : Nat → Nat) (l : List Nat) (n : Nat) (clear : Bool)
    (fst : Nat) (fat' : FAT) (d' : Device) : Prop where
  fst : fst = (fat.chainAfter T l n).headD 0
  bpb : fat'.bpb = fat.bpb
  hint : fat'.freeCount = if n ≤ l.length then fat.freeCount else 0xFFFFFFFF
  table : fat'.Represents d' (fat.tableAfter T l n)
  length : (fat.chainAfter T l n).length = n
  /-- The clusters behind the old chain were free. -/
  fresh : ∀ x ∈ (fat.chainAfter T l n).drop l.length, fat.bpb.DataClus x ∧ T x = 0
  nodup : ((fat.chainAfter T l n).drop l.length).Nodup
  touches : fat.bpb.Touches ((fat.chainAfter T l n).drop l.length) d d'
  onlyFat : clear = false ∨ n ≤ l.length → fat.bpb.OnlyFat d d'
  cleared : clear = true → fat.bpb.Cleared ((fat.chainAfter T l n).drop l.length) d'

section resize

variable {fat fat' : FAT} {d d' : Device} {T : Nat → Nat} {head n fst : Nat} {l : List Nat}
  {clear ok : Bool}

theorem FAT.chainAfter_cut (hnum : n ≤ l.length) : fat.chainAfter T l n = l.take n := if_pos hnum

theorem FAT.chainAfter_grow (hnum : l.length < n) :
    fat.chainAfter T l n = l ++ fat.nextFree T (n - l.length) := if_neg (Nat.not_le.mpr hnum)

theorem FAT.tableAfter_cut (hnum : n ≤ l.length) : fat.tableAfter T l n = cutTable T l n := if_pos hnum

theorem FAT.tableAfter_grow (hnum : l.length < n) :
    fat.tableAfter T l n = growTable T l (fat.nextFree T (n - l.length)) := if_neg (Nat.not_le.mpr hnum)

theorem FAT.drop_chainAfter_grow (hnum : l.length < n) :
    (fat.chainAfter T l n).drop l.length = fat.nextFree T (n - l.length) := by
  rw [FAT.chainAfter_grow hnum, List.drop_left]

theorem FAT.Represents.resized_cut (h : fat.Represents d T) (hs : fat.bpb.Sound)
    (hc : fat.bpb.ChainOf T head l) (hnum : n ≤ l.length)
    (hrun : fat.resize d head n clear = some (ok, fst, fat', d')) :
    ok = true ∧ fat.Resized d T l n clear fst fat' d' := by
  obtain ⟨d₁, hcut, honly, htable⟩ := h.resize_cut hc hnum clear
  rw [hcut] at hrun
  simp only [Option.some.injEq, Prod.mk.injEq] at hrun
  obtain ⟨hok, hfst, rfl, rfl⟩ := hrun
  have hdrop : (fat.chainAfter T l n).drop l.length = [] := by
    rw [FAT.chainAfter_cut hnum]
    exact List.drop_eq_nil_of_le (List.length_take_le' n l)
  refine ⟨hok.symm, ?_, by simp, by rw [if_pos hnum]; simp, ?_, ?_, ?_, ?_, honly.touches, fun _ => honly, ?_⟩
  · rw [← hfst, FAT.chainAfter_cut hnum]
    have hhead := hc.headD hs
    cases n with
    | zero => rfl
    | succ n =>
      rw [if_neg (Nat.succ_ne_zero n), ← hhead]
      cases l with
      | nil => rfl
      | cons a l => rfl
  · rw [FAT.tableAfter_cut hnum]
    simpa using htable
  · rw [FAT.chainAfter_cut hnum]
    exact List.length_take_of_le hnum
  · rw [hdrop]
    exact fun x hx => absurd hx List.not_mem_nil
  · rw [hdrop]
    exact List.nodup_nil
  · rw [hdrop]
    exact fun _ x hx => absurd hx List.not_mem_nil

private theorem FAT.Represents.resized_grow (h : fat.Represents d T) (hc : fat.bpb.ChainOf T head l)
    (hnum : l.length < n) {new : List Nat} {fat₁ : FAT} {d₁ : Device}
    (halloc : fat.Allocated d T (n - l.length) new fat₁ d₁)
    (hrun : (fat₁.clearIf d₁ clear new).bind (fun d =>
        if !isValidCluster head then some (true, new.headD 0, fat₁, d)
        else (fat₁.writeClusEntry d (l.getLastD head) (new.headD 0)).bind fun d =>
          some (true, head, fat₁, d)) = some (ok, fst, fat', d')) :
    ok = true ∧ fat.Resized d T l n clear fst fat' d' := by
  have hs := h.wellFormed.sound
  have hnew : ∀ x ∈ new, fat.bpb.DataClus x := fun x hx => (halloc.free x hx).1
  have hdrop : (fat.chainAfter T l n).drop l.length = new := by
    rw [FAT.drop_chainAfter_grow hnum, halloc.next]
  have hchain : fat.chainAfter T l n = l ++ new := by rw [FAT.chainAfter_grow hnum, halloc.next]
  have htab : fat.tableAfter T l n = growTable T l new := by rw [FAT.tableAfter_grow hnum, halloc.next]
  have hlen : (fat.chainAfter T l n).length = n := by
    rw [hchain, List.length_append, halloc.length]
    omega
  obtain ⟨d₂, hclear, h₂, htouch, hsame, hcleared⟩ :=
    halloc.table.clearIf (fun x hx => halloc.bpb ▸ hnew x hx) clear
  rw [halloc.bpb] at htouch hcleared
  rw [hclear, Option.bind_some] at hrun
  rcases hc with ⟨rfl, rfl⟩ | ⟨hhead, hc⟩
  · obtain ⟨rfl, rfl, rfl, rfl⟩ : true = ok ∧ new.headD 0 = fst ∧ fat₁ = fat' ∧ d₂ = d' := by
      simpa [isValidCluster] using hrun
    refine ⟨rfl, ⟨by rw [hchain]; rfl, halloc.bpb, by rw [if_neg (by omega)]; exact halloc.hint, ?_, hlen,
      by rw [hdrop]; exact halloc.free, by rw [hdrop]; exact halloc.nodup,
      by rw [hdrop]; exact halloc.onlyFat.touches.trans htouch, fun hno => ?_, by rw [hdrop]; exact hcleared⟩⟩
    · rw [htab]
      exact h₂
    · rw [hsame (hno.resolve_right (by omega))]
      exact halloc.onlyFat
  · have hne := hc.ne_nil hs hhead
    have hlast : l.getLast hne ∈ l := List.getLast_mem hne
    have hheadD : new.headD 0 < 2 ^ 28 := by
      cases hnil : new with
      | nil => exact (by decide : 0 < 2 ^ 28)
      | cons x tail =>
        have := hs.dataClus_lt (hnew x (by simp [hnil]))
        simp only [List.headD_cons]
        omega
    obtain ⟨d₃, hwrite, honly₃, h₃⟩ :=
      h₂.writeClusEntry (halloc.bpb.symm ▸ hc.data _ hlast) hheadD
    rw [halloc.bpb] at honly₃
    have hhd : (l ++ new).headD 0 = head := by
      obtain ⟨tail, rfl⟩ := hc.walk.head_eq hne
      rfl
    rw [isValidCluster_of_dataClus hhead, List.getLastD_eq_getLast?,
      List.getLast?_eq_getLast_of_ne_nil hne, Option.getD_some, hwrite] at hrun
    obtain ⟨rfl, rfl, rfl, rfl⟩ : true = ok ∧ head = fst ∧ fat₁ = fat' ∧ d₃ = d' := by simpa using hrun
    refine ⟨rfl, ⟨by rw [hchain, hhd], halloc.bpb, by rw [if_neg (by omega)]; exact halloc.hint, ?_, hlen,
      by rw [hdrop]; exact halloc.free, by rw [hdrop]; exact halloc.nodup,
      by rw [hdrop]; exact (halloc.onlyFat.touches.trans htouch).trans honly₃.touches, fun hno => ?_,
      fun hyes => ?_⟩⟩
    · rw [htab, growTable, List.getLast?_eq_getLast_of_ne_nil hne]
      exact h₃
    · rw [hsame (hno.resolve_right (by omega))] at honly₃
      exact halloc.onlyFat.trans honly₃
    · rw [hdrop]
      intro x hx j hj i hi
      have hlow := (hs.sector_bounds (hnew x hx) hj).1
      rw [honly₃.value _ (.inr hlow)]
      exact hcleared hyes x hx j hj i hi

/-- A call of `resize` that fails has only counted, whatever the hint. -/
theorem FAT.Represents.resize_fails (h : fat.Represents d T) (hc : fat.bpb.ChainOf T head l)
    (hrun : fat.resize d head n clear = some (false, fst, fat', d')) :
    l.length < n ∧ fst = head ∧ fat' = fat.counted T ∧ d' = d := by
  by_cases hnum : n ≤ l.length
  · exact absurd (h.resized_cut h.wellFormed.sound hc hnum hrun).1 Bool.false_ne_true
  · have hnum := Nat.not_le.mp hnum
    rw [h.resize_short hc hnum] at hrun
    obtain ⟨⟨result, fat₁, d₁⟩, halloc, hrest⟩ := Option.bind_eq_some_iff.mp hrun
    cases result with
    | none =>
      obtain ⟨rfl, rfl⟩ := h.allocClus_fails halloc
      simp only [Option.some.injEq, Prod.mk.injEq, true_and] at hrest
      exact ⟨hnum, hrest.1.symm, hrest.2.1.symm, hrest.2.2.symm⟩
    | some new =>
      -- with new clusters it returns true
      obtain ⟨d₂, -, hrest⟩ := Option.bind_eq_some_iff.mp hrest
      split at hrest
      · simp at hrest
      · obtain ⟨d₃, -, hrest⟩ := Option.bind_eq_some_iff.mp hrest
        simp at hrest

/-- What a call of `resize` that returns has done. -/
theorem FAT.Represents.resized (h : fat.Represents d T) (hc : fat.bpb.ChainOf T head l)
    (husable : l.length < n → fat.HintUsable T (n - l.length) fat.freeCount)
    (hrun : fat.resize d head n clear = some (ok, fst, fat', d')) :
    (ok = true ∧ fat.Resized d T l n clear fst fat' d') ∨
      (ok = false ∧ l.length < n ∧ fst = head ∧ fat' = fat.counted T ∧ d' = d) := by
  cases ok with
  | false => exact .inr ⟨rfl, h.resize_fails hc hrun⟩
  | true =>
    left
    by_cases hnum : n ≤ l.length
    · exact h.resized_cut h.wellFormed.sound hc hnum hrun
    · have hnum := Nat.not_le.mp hnum
      rw [h.resize_short hc hnum] at hrun
      obtain ⟨⟨result, fat₁, d₁⟩, halloc, hrest⟩ := Option.bind_eq_some_iff.mp hrun
      cases result with
      | none => simp at hrest
      | some new => exact h.resized_grow hc hnum (h.allocated (by omega) (husable hnum) halloc) hrest

/-! ### Chains and heads afterwards -/

theorem FAT.Resized.chain (h : fat.Represents d T) (hc : fat.bpb.ChainOf T head l)
    (hr : fat.Resized d T l n clear fst fat' d') :
    fat.bpb.ChainOf (fat.tableAfter T l n) fst (fat.chainAfter T l n) := by
  have hs := h.wellFormed.sound
  rw [hr.fst]
  by_cases hnum : n ≤ l.length
  · have hcut := hc.cut hnum
    rw [FAT.tableAfter_cut hnum, FAT.chainAfter_cut hnum]
    rwa [hcut.headD hs]
  · have hnum := Nat.not_le.mp hnum
    have hfresh := hr.fresh
    have hnodup := hr.nodup
    have hlen := hr.length
    rw [FAT.drop_chainAfter_grow hnum] at hfresh hnodup
    rw [FAT.chainAfter_grow hnum, List.length_append] at hlen
    rw [FAT.tableAfter_grow hnum, FAT.chainAfter_grow hnum]
    refine hc.grow hs ?_ hnodup (fun x hx => (hfresh x hx).1) fun x hx => (hfresh x hx).2
    rw [← List.length_pos_iff]
    omega

/-- The other heads keep their chains, and the family of chains stays disjoint. -/
theorem FAT.Resized.owners {heads : Set Nat} (h : fat.Represents d T) (hc : fat.bpb.ChainOf T head l)
    (ho : Owners T Eoc fat.bpb.DataClus heads) (hhead : head = 0 ∨ head ∈ heads)
    (hr : fat.Resized d T l n clear fst fat' d') :
    Owners (fat.tableAfter T l n) Eoc fat.bpb.DataClus (rehead heads head fst) ∧
      ∀ other ∈ heads, other ≠ head → ∀ l', Walk T Eoc other l' →
        ∀ x ∈ l', fat.tableAfter T l n x = T x := by
  have hs := h.wellFormed.sound
  have hout : ∀ other ∈ heads, other ≠ head → ∀ l', Walk T Eoc other l' → ∀ x ∈ l', x ∉ l := by
    intro other hother hne l' hw x hx
    rcases hc with ⟨-, rfl⟩ | ⟨hdata, hc⟩
    · exact List.not_mem_nil
    · have hmem := hhead.resolve_left (by rintro rfl; exact not_dataClus_zero _ hdata)
      exact ho.notMem_of_mem hother hmem hne.symm hw hc.walk hx
  by_cases hnum : n ≤ l.length
  · rw [hr.fst, FAT.tableAfter_cut hnum, FAT.chainAfter_cut hnum]
    refine ⟨?_, fun other hother hne l' hw x hx =>
      cutTable_of_notMem (hout other hother hne l' hw x hx) hnum⟩
    have hcut := (hc.cut hnum).headD hs
    rw [hcut]
    exact owners_cutTable ho hhead hc hnum
  · have hnum := Nat.not_le.mp hnum
    have hfresh := hr.fresh
    have hnodup := hr.nodup
    have hlen := hr.length
    rw [FAT.drop_chainAfter_grow hnum] at hfresh hnodup
    rw [FAT.chainAfter_grow hnum, List.length_append] at hlen
    have hne : fat.nextFree T (n - l.length) ≠ [] := by
      rw [← List.length_pos_iff]
      omega
    rw [hr.fst, FAT.tableAfter_grow hnum, FAT.chainAfter_grow hnum]
    refine ⟨owners_growTable hs ho hhead hc hne hnodup (fun x hx => (hfresh x hx).1)
      fun x hx => (hfresh x hx).2, fun other hother hne l' hw x hx => growTable_of_notMem fun hmem => ?_⟩
    rcases List.mem_append.mp hmem with hl | hnew
    · exact hout other hother hne l' hw x hx hl
    · exact notMem_chain_of_free ho (hfresh x hnew).2 hother hw hx

end resize

end FuseFat32
