import FuseFat32.Fat.Copies
import FuseFat32.Fat.Ownership

/-!
# Resizing, and allocating and releasing again

What a caller sees of a call of `resize`, and of a call of `allocClus` that `freeClus` takes back. The second is about every byte of every copy of the FAT: a write keeps the four reserved bits of an entry, so that an entry which is set and zeroed again has the word it had before.
-/

namespace FuseFat32

open LinkedTable

/-- The count is the one the scan would give, or there is none yet. -/
def FAT.Counted (fat : FAT) (d : Device) : Prop :=
  ∀ cnt, fat.availCnt = some cnt → cnt = (fat.freeList (fat.entry d)).length

theorem FAT.Counted.avail {fat : FAT} {d : Device} (h : fat.Counted d) :
    fat.avail (fat.entry d) = (fat.freeList (fat.entry d)).length := by
  rw [FAT.avail]
  cases hcnt : fat.availCnt with
  | none => rfl
  | some cnt => rw [Option.getD_some, h cnt hcnt]

/-! ### `resize` -/

/-- What a caller sees of `resize`, which is called for the chain `l` from `head` on. On success `new` is what has been added. -/
structure FAT.ResizeCall (fat : FAT) (d : Device) (head : Nat) (l : List Nat) (clus_num : Nat) (clear ok : Bool)
    (fst : Nat) (fat' : FAT) (d' : Device) : Prop where
  fails : ok = false ↔ l.length < clus_num ∧ fat.avail (fat.entry d) < clus_num - l.length
  chain : ok = true → ∃ new, new.length = clus_num - l.length ∧
    fat'.readClusChains d' fst = some (l.take clus_num ++ new) ∧
    (new.Nodup ∧ ∀ x ∈ new, fat.bpb.DataClus x ∧ fat.entry d x = 0) ∧
    (fst = if clus_num = 0 then 0 else if head = 0 then new.headD 0 else head) ∧
    (∀ x ∈ l.drop clus_num, fat'.entry d' x = 0) ∧
    (clear = true → fat.bpb.Cleared new d') ∧ fat.bpb.Touches (if clear then new else []) d d'
  unchanged : ok = false → fst = head ∧ d' = d

section resize

variable {fat : FAT} {d : Device} {head clus_num : Nat} {l : List Nat}

theorem FAT.resized_cut (hwf : fat.WellFormed d) (hc : fat.bpb.ChainOf (fat.entry d) head l)
    (hnum : clus_num ≤ l.length) (clear : Bool) : ∃ fst fat' d',
    fat.resize d head clus_num clear = some (true, fst, fat', d') ∧
      fat.ResizeCall d head l clus_num clear true fst fat' d' := by
  obtain ⟨d', hrun, honly, h'⟩ := hwf.represents.resize_cut hc hnum clear
  have h'' := (FAT.represents_decTimes (l.length - clus_num)).mpr h'
  refine ⟨_, _, d', hrun, ⟨by simp; omega, fun _ => ⟨[], by simp; omega, ?_, ?_, ?_, ?_, ?_, ?_⟩, by simp⟩⟩
  · have hcut := hc.cut hnum
    rw [List.append_nil]
    exact h''.readClusChains_of ((FAT.bpb_decTimes (l.length - clus_num)).symm ▸ hcut)
  · exact ⟨List.nodup_nil, fun x hx => absurd hx List.not_mem_nil⟩
  · -- a chain of the head 0 is cut to nothing
    by_cases hzero : clus_num = 0
    · rw [if_pos hzero, if_pos hzero]
    · have hne : head ≠ 0 := by
        rintro rfl
        have hnil := hc.unique (.inl ⟨rfl, rfl⟩)
        rw [hnil, List.length_nil] at hnum
        omega
      rw [if_neg hzero, if_neg hzero, if_neg hne]
  · intro x hx
    have hdata := hc.data x (List.mem_of_mem_drop hx)
    rw [h''.entry x (by rw [FAT.bpb_decTimes]; exact hdata.2), cutTable_of_mem_drop hx]
  · exact fun _ x hx => absurd hx List.not_mem_nil
  · exact honly.touches

private theorem FAT.resized_full (hwf : fat.WellFormed d) (hc : fat.bpb.ChainOf (fat.entry d) head l)
    (hnum : l.length < clus_num) (hfull : fat.avail (fat.entry d) < clus_num - l.length) (clear : Bool) :
    ∃ fst fat' d', fat.resize d head clus_num clear = some (false, fst, fat', d') ∧
      fat.ResizeCall d head l clus_num clear false fst fat' d' :=
  ⟨head, _, d, hwf.represents.resize_full hc hnum hfull clear,
    ⟨iff_of_true rfl ⟨hnum, hfull⟩, fun hok => absurd hok (by decide), fun _ => ⟨rfl, rfl⟩⟩⟩

private theorem FAT.resized_grown (hwf : fat.WellFormed d) (hc : fat.bpb.ChainOf (fat.entry d) head l)
    (hhint : fat.freeCount = 0xFFFFFFFF) (hcnt : fat.Counted d) (hnum : l.length < clus_num)
    (hroom : clus_num - l.length ≤ fat.avail (fat.entry d)) (clear : Bool) :
    ∃ fst fat' d', fat.resize d head clus_num clear = some (true, fst, fat', d') ∧
      fat.ResizeCall d head l clus_num clear true fst fat' d' := by
  have h := hwf.represents
  have hfree := hcnt.avail ▸ hroom
  obtain ⟨d', hrun, h', htouch, honly, hcleared⟩ := h.resize_grow hc hhint hnum hroom hfree clear
  set new := (fat.freeList (fat.entry d)).take (clus_num - l.length) with hnew
  have hlen : new.length = clus_num - l.length := List.length_take_of_le hfree
  have hne : new ≠ [] := List.ne_nil_of_length_pos (by omega)
  have hnodup : new.Nodup := (nodup_freeList fat).sublist (List.take_sublist _ _)
  have hfresh : ∀ x ∈ new, fat.bpb.DataClus x ∧ fat.entry d x = 0 := h.data_take_freeList _
  have hgrown := hc.grow hwf.sound hne hnodup (fun x hx => (hfresh x hx).1) fun x hx => (hfresh x hx).2
  have htake : l.take clus_num = l := List.take_of_length_le (by omega)
  refine ⟨_, _, d', hrun, ⟨by simp; omega, fun _ => ⟨new, hlen, ?_, ⟨hnodup, hfresh⟩, ?_, ?_, hcleared, ?_⟩,
    by simp⟩⟩
  · rw [htake]
    exact (FAT.represents_decAvailCnt _).mpr (FAT.represents_counted.mpr h') |>.readClusChains_of hgrown
  · rw [if_neg (by omega)]
    rcases hc with ⟨rfl, rfl⟩ | ⟨hhead, hc⟩
    · rw [if_pos rfl, List.nil_append]
    · obtain ⟨tail, rfl⟩ := hc.walk.head_eq (hc.ne_nil hwf.sound hhead)
      have hzero : head ≠ 0 := fun hzero => not_dataClus_zero _ (hzero ▸ hhead)
      rw [if_neg hzero]
      rfl
  · intro x hx
    rw [List.drop_eq_nil_of_le (by omega)] at hx
    exact absurd hx List.not_mem_nil
  · cases clear with
    | false => exact (honly rfl).touches
    | true => exact htouch

end resize

/-- `resize` always comes back, and does what its name says or nothing. -/
theorem FAT.resize_resized {fat : FAT} {d : Device} (hwf : fat.WellFormed d)
    (hhint : fat.freeCount = 0xFFFFFFFF) (hcnt : fat.Counted d) {head : Nat} {l : List Nat}
    (hc : fat.bpb.ChainOf (fat.entry d) head l) (clus_num : Nat) (clear : Bool) :
    ∃ ok fst fat' d', fat.resize d head clus_num clear = some (ok, fst, fat', d') ∧
      fat.ResizeCall d head l clus_num clear ok fst fat' d' := by
  by_cases hnum : clus_num ≤ l.length
  · exact ⟨true, FAT.resized_cut hwf hc hnum clear⟩
  by_cases hfull : fat.avail (fat.entry d) < clus_num - l.length
  · exact ⟨false, FAT.resized_full hwf hc (by omega) hfull clear⟩
  · exact ⟨true, FAT.resized_grown hwf hc hhint hcnt (by omega) (by omega) clear⟩

theorem FAT.resize_resized_small : ∃ ok fst fat' d',
    (smallRun (smallTable [2])).fat.resize (smallRun (smallTable [2])).device 2 3 true = some (ok, fst, fat', d') ∧
      (smallRun (smallTable [2])).fat.ResizeCall (smallRun (smallTable [2])).device 2 [2] 3 true ok fst fat' d' := by
  obtain ⟨howned, hc⟩ := smallRun_root (l := []) (by decide) (by decide)
  exact FAT.resize_resized howned.wellFormed rfl (fun cnt hcnt => absurd hcnt (by simp [smallRun]))
    (.inr ⟨by decide, hc⟩) 3 true

/-! ### Allocating and releasing again -/

/-- The copies of the FAT hold the same bytes. -/
def FAT.CopiesAgree (fat : FAT) (d : Device) : Prop :=
  ∀ i < fat.bpb.numFats.toNat, ∀ r < fat.bpb.fatSz32.toNat, ∀ j < sectorSize,
    d.value (fat.bpb.resvdSecCnt.toNat + r + i * fat.bpb.fatSz32.toNat) j =
      d.value (fat.bpb.resvdSecCnt.toNat + r) j

/-- In every copy the words of the entries `ns` have changed at most, and of these the values. -/
structure FAT.Rewrites (fat : FAT) (ns : List Nat) (d d' : Device) : Prop where
  others : ∀ i < fat.bpb.numFats.toNat, ∀ m, m / 128 < fat.bpb.fatSz32.toNat → m ∉ ns →
    fat.fatWord d' i m = fat.fatWord d i m
  reserved : ∀ i < fat.bpb.numFats.toNat, ∀ m, m / 128 < fat.bpb.fatSz32.toNat →
    fat.fatWord d' i m &&& 0xF0000000 = fat.fatWord d i m &&& 0xF0000000

section rewrites

variable {fat fat' : FAT} {d d' d'' : Device} {T : Nat → Nat} {ns ms : List Nat}

theorem FAT.Rewrites.refl (fat : FAT) (ns : List Nat) (d : Device) : fat.Rewrites ns d d :=
  ⟨fun _ _ _ _ _ => rfl, fun _ _ _ _ => rfl⟩

theorem FAT.Rewrites.trans (h : fat.Rewrites ns d d') (h' : fat.Rewrites ns d' d'') : fat.Rewrites ns d d'' :=
  ⟨fun i hi m hm hout => (h'.others i hi m hm hout).trans (h.others i hi m hm hout),
    fun i hi m hm => (h'.reserved i hi m hm).trans (h.reserved i hi m hm)⟩

theorem FAT.Rewrites.mono (h : fat.Rewrites ns d d') (hsub : ∀ n ∈ ns, n ∈ ms) : fat.Rewrites ms d d' :=
  ⟨fun i hi m hm hout => h.others i hi m hm fun hmem => hout (hsub m hmem), h.reserved⟩

theorem FAT.Represents.rewrites_writeClusEntry (h : fat.Represents d T) {n val : Nat}
    (hn : n < fat.bpb.clusCnt + 2) (hmem : n ∈ ns) (hrun : fat.writeClusEntry d n val = some d') :
    fat.Rewrites ns d d' := by
  constructor
  case others =>
    intro i hi m hm hout
    rw [h.fatWord_writeClusEntry hn hrun hi hm, if_neg fun heq : m = n => hout (heq ▸ hmem)]
  case reserved =>
    intro i hi m hm
    rw [h.fatWord_writeClusEntry hn hrun hi hm]
    split
    · next heq => rw [mergeFATClusEntryVal_reserved, heq]
    · rfl

private theorem FAT.Represents.rewrites_linkPre (h : fat.Represents d T) {cur c : Nat}
    (hcur : cur = 0 ∨ fat.bpb.DataClus cur) (hmem : ∀ n ∈ pending cur, n ∈ ns)
    (hrun : fat.linkPre d cur c = some d') : fat.Rewrites ns d d' := by
  rw [FAT.linkPre] at hrun
  split at hrun
  · next hne =>
    refine h.rewrites_writeClusEntry (hcur.resolve_left hne).2 (hmem cur ?_) hrun
    rw [pending, if_neg hne]
    exact List.mem_singleton_self cur
  · obtain rfl := Option.some.inj hrun
    exact .refl fat ns d

/-- The scan writes the entries of the clusters it takes, and of the one pending when it starts. -/
theorem FAT.Represents.rewrites_allocLoop {num : Nat} : ∀ {k : Nat} {fat fat' : FAT} {d d' : Device}
    {T : Nat → Nat} {c cur n : Nat} {l l' : List Nat}, fat.Represents d T → c + k ≤ fat.bpb.clusCnt →
    (cur = 0 ∨ fat.bpb.DataClus cur) → FAT.allocLoop num k fat d c cur n l = some (l', fat', d') →
    ∃ new, l' = l ++ new ∧ fat.Rewrites (pending cur ++ new) d d' := by
  intro k
  induction k with
  | zero =>
    intro fat fat' d d' T c cur n l l' _ _ _ hrun
    cases hrun
  | succ k ih =>
    intro fat fat' d d' T c cur n l l' h hc hcur hrun
    rw [FAT.allocLoop, if_pos (h.inTable (by omega)), h.scanEntry (by omega)] at hrun
    simp only [Option.bind_eq_bind, Option.bind_some] at hrun
    by_cases hfree : T c = 0
    · have hcdata := h.dataClus_of_free (by omega) hfree
      have hczero : c ≠ 0 := by have := hcdata.1; omega
      obtain ⟨d₁, hlink, -, h₁⟩ := h.linkPre hcur (c := c) (by omega)
      have hfirst : ∀ new, fat.Rewrites (pending cur ++ c :: new) d d₁ := fun new =>
        h.rewrites_linkPre hcur (fun x hx => List.mem_append_left _ hx) hlink
      rw [if_pos hfree, hlink, Option.bind_some] at hrun
      have h₁' := (FAT.represents_decAvailCnt 1).mpr h₁
      split at hrun
      · -- the last cluster gets its mark
        obtain ⟨d₂, hmark, -, -⟩ := h₁'.writeClusEntry hcdata (show kFat32EocMark < 2 ^ 28 by decide)
        rw [hmark] at hrun
        simp only [Option.bind_some, Option.pure_def, Option.some.injEq, Prod.mk.injEq] at hrun
        obtain ⟨rfl, rfl, rfl⟩ := hrun
        exact ⟨[c], rfl, (hfirst []).trans
          (h₁.rewrites_writeClusEntry hcdata.2 (List.mem_append_right _ (List.mem_singleton_self c)) hmark)⟩
      · obtain ⟨new, rfl, hrest⟩ := ih h₁' (by rw [FAT.bpb_decAvailCnt]; omega) (.inr hcdata) hrun
        refine ⟨c :: new, by rw [List.append_assoc]; rfl, (hfirst new).trans ?_⟩
        have hrest : fat.Rewrites (pending c ++ new) d₁ d' := ⟨hrest.others, hrest.reserved⟩
        rw [pending, if_neg hczero] at hrest
        exact hrest.mono fun x hx => List.mem_append_right _ hx
    · rw [if_neg hfree] at hrun
      exact ih h (by omega) hcur hrun

private theorem FAT.Represents.rewrites_allocClus (h : fat.Represents d T) {n : Nat} {l : List Nat}
    (hhint : fat.freeCount = 0xFFFFFFFF) (hn : n ≤ fat.avail T)
    (hrun : fat.allocClus d n = some (some l, fat', d')) : fat.Rewrites l d d' := by
  rw [h.allocClus_scan hhint hn, Option.map_eq_some_iff] at hrun
  obtain ⟨⟨l', fat₁, d₁⟩, hloop, heq⟩ := hrun
  simp only [Prod.mk.injEq, Option.some.injEq] at heq
  obtain ⟨rfl, -, rfl⟩ := heq
  obtain ⟨new, rfl, hnew⟩ := (FAT.represents_counted.mpr h).rewrites_allocLoop
    (by rw [Nat.zero_add]; exact le_rfl) (.inl rfl) hloop
  exact ⟨hnew.others, hnew.reserved⟩

theorem FAT.CopiesAgree.copyEntry (h : fat.CopiesAgree d) (hs : fat.bpb.Sound) {i m : Nat}
    (hi : i < fat.bpb.numFats.toNat) (hm : m < fat.bpb.clusCnt + 2) : fat.copyEntry d i m = fat.entry d m := by
  have hrow := hs.entry_in_fat hm
  have hbytes : ∀ j < sectorSize, d.value (fat.bpb.resvdSecCnt.toNat + m / 128 + i * fat.bpb.fatSz32.toNat) j =
      d.value (fat.bpb.resvdSecCnt.toNat + m / 128) j := h i hi _ hrow
  rw [FAT.copyEntry, FAT.entry, hs.clusPosOnFAT hm, readFATClusEntryVal, readFATClusEntryVal]
  congr 1
  refine read32_congr fun j hlo hhi => hbytes j ?_
  simp only [sectorSize]
  omega

private theorem FAT.bytes_eq_of_fatWord (hs : fat.bpb.Sound) (honly : fat.bpb.OnlyFat d d')
    (hword : ∀ i < fat.bpb.numFats.toNat, ∀ m, m / 128 < fat.bpb.fatSz32.toNat →
      fat.fatWord d' i m = fat.fatWord d i m) {s j : Nat} (hj : j < sectorSize) : d'.value s j = d.value s j := by
  by_cases hfat : s < fat.bpb.resvdSecCnt.toNat ∨ getFirstDataSector fat.bpb ≤ s
  · rw [honly.value s hfat]
  · rw [hs.firstDataSector] at hfat
    obtain ⟨t, rfl⟩ : ∃ t, s = fat.bpb.resvdSecCnt.toNat + t := ⟨s - fat.bpb.resvdSecCnt.toNat, by omega⟩
    have hlt : t < fat.bpb.numFats.toNat * fat.bpb.fatSz32.toNat := by omega
    have hpos : 0 < fat.bpb.fatSz32.toNat := Nat.pos_of_lt_mul_left hlt
    have hcopy := (Nat.div_lt_iff_lt_mul hpos).mpr hlt
    have hrow := Nat.mod_lt t hpos
    -- the byte belongs to word `j / 4` of row `t % fatSz32` of copy `t / fatSz32`
    have hsplit := Nat.mod_add_div t fat.bpb.fatSz32.toNat
    have hdiv : (t % fat.bpb.fatSz32.toNat * 128 + j / 4) / 128 = t % fat.bpb.fatSz32.toNat := by
      simp only [sectorSize] at hj
      omega
    have hmod : (t % fat.bpb.fatSz32.toNat * 128 + j / 4) % 128 = j / 4 := by
      simp only [sectorSize] at hj
      omega
    have hw := hword _ hcopy (t % fat.bpb.fatSz32.toNat * 128 + j / 4) (by rw [hdiv]; exact hrow)
    have hsec : fat.bpb.resvdSecCnt.toNat + t % fat.bpb.fatSz32.toNat +
        t / fat.bpb.fatSz32.toNat * fat.bpb.fatSz32.toNat = fat.bpb.resvdSecCnt.toNat + t := by
      rw [Nat.mul_comm (t / _)]
      omega
    rw [FAT.fatWord, FAT.fatWord, hdiv, hmod, hsec] at hw
    have hbyte := read32_inj hw (j % 4) (Nat.mod_lt j (by decide))
    have hindex : j / 4 * 4 + j % 4 = j := by omega
    rwa [hindex] at hbyte

/-- Releasing what has been taken gives every word back. -/
theorem FAT.Represents.fatWord_round (h : fat.Represents d T) (hagree : fat.CopiesAgree d) {l : List Nat}
    {head : Nat} {fat₁ fat₂ : FAT} {d₁ d₂ : Device} {T₁ : Nat → Nat} (h₁ : fat₁.Represents d₁ T₁)
    (hbpb : fat₁.bpb = fat.bpb) (halloc : fat.Rewrites l d d₁) (hc : fat.bpb.ChainOf T₁ head l)
    (hfree : ∀ x ∈ l, T x = 0) (hrun : fat₁.freeClus d₁ head = some (fat₂, d₂)) {i m : Nat}
    (hi : i < fat.bpb.numFats.toNat) (hm : m / 128 < fat.bpb.fatSz32.toNat) :
    fat.fatWord d₂ i m = fat.fatWord d i m := by
  have hback := h₁.fatWord_freeClus (hbpb.symm ▸ hc) hrun (hbpb.symm ▸ hi) (hbpb.symm ▸ hm)
  have hword : ∀ d, fat₁.fatWord d i m = fat.fatWord d i m := fun d => by
    rw [FAT.fatWord, FAT.fatWord, hbpb]
  rw [hword, hword] at hback
  rw [hback]
  by_cases hmem : m ∈ l
  · have hdata := hc.data m hmem
    have hzero : fat.fatWord d i m &&& 0x0FFFFFFF = 0 := by
      rw [← FAT.copyEntry_eq_fatWord, hagree.copyEntry h.wellFormed.sound hi hdata.2, h.entry m hdata.2]
      exact hfree m hmem
    rw [if_pos hmem, halloc.reserved i hi m hm]
    exact reserved_of_free (read32_lt _ _) hzero
  · rw [if_neg hmem, halloc.others i hi m hm hmem]

end rewrites

/-- What a caller sees of `allocClus(n)` and of `freeClus` after it, called with the first cluster. -/
structure FAT.TakenBack (fat : FAT) (d : Device) (n : Nat) (l : List Nat) (fat₁ : FAT) (d₁ : Device)
    (fat₂ : FAT) (d₂ : Device) : Prop where
  length : l.length = n
  nodup : l.Nodup
  reads : fat₁.readClusChains d₁ (l.headD 0) = some l
  others : ∀ i < fat.bpb.numFats.toNat, ∀ m, m / 128 < fat.bpb.fatSz32.toNat → m ∉ l →
    fat.fatWord d₁ i m = fat.fatWord d i m
  bytes : ∀ s, ∀ j < sectorSize, d₂.value s j = d.value s j
  count : (fat₂.availClusCnt d₂).map Prod.fst = (fat.availClusCnt d).map Prod.fst

private theorem FAT.availCnt_taken_back (fat : FAT) (T : Nat → Nat) {n : Nat} (hpos : 0 < n) (hn : n ≤ fat.avail T)
    (hlt : fat.avail T < 2 ^ 32) :
    (((fat.counted T).decAvailCnt n).incTimes n).availCnt = some (fat.avail T) := by
  rw [FAT.incTimes, if_neg (by omega), FAT.availCnt_incAvailCnt, FAT.availCnt_decAvailCnt, FAT.availCnt_counted,
    Option.map_some, Option.map_some, u32Sub_of_le hn hlt, Nat.sub_add_cancel hn, u32_of_lt hlt]

/-- `allocClus` and `freeClus` are inverse to one another, byte for byte. -/
theorem FAT.allocClus_freeClus {fat : FAT} {d : Device} (hwf : fat.WellFormed d) (hagree : fat.CopiesAgree d)
    (hhint : fat.freeCount = 0xFFFFFFFF) (hcnt : fat.Counted d) {n : Nat} (hpos : 1 ≤ n)
    (hn : n ≤ fat.avail (fat.entry d)) : ∃ l fat₁ d₁ fat₂ d₂,
    fat.allocClus d n = some (some l, fat₁, d₁) ∧ fat₁.freeClus d₁ (l.headD 0) = some (fat₂, d₂) ∧
      fat.TakenBack d n l fat₁ d₁ fat₂ d₂ := by
  have h := hwf.represents
  have hs := hwf.sound
  have hroom := hcnt.avail ▸ hn
  obtain ⟨d₁, halloc, honly₁, h₁⟩ := h.allocClus_some hhint hn hpos hroom
  have hrewrites := h.rewrites_allocClus hhint hn halloc
  set l := (fat.freeList (fat.entry d)).take n with hl
  have hlen : l.length = n := List.length_take_of_le hroom
  have hnodup : l.Nodup := (nodup_freeList fat).sublist (List.take_sublist _ _)
  have hfresh : ∀ x ∈ l, fat.bpb.DataClus x ∧ fat.entry d x = 0 := h.data_take_freeList n
  have hne : l ≠ [] := List.ne_nil_of_length_pos (by omega)
  have hc : fat.bpb.ChainOf (link (fat.entry d) kFat32EocMark l) (l.headD 0) l := by
    obtain ⟨b, rest, hcons⟩ := List.exists_cons_of_ne_nil hne
    rw [hcons] at hnodup hfresh ⊢
    exact .inr ⟨(hfresh b List.mem_cons_self).1, walk_link hnodup eoc_kFat32EocMark
      fun x hx => hs.not_endOfClusChain (hfresh x hx).1, fun x hx => (hfresh x hx).1⟩
  have h₁' := (FAT.represents_decAvailCnt n).mpr (FAT.represents_counted (T := fat.entry d) |>.mpr h₁)
  obtain ⟨d₂, hfree, honly₂, -⟩ := h₁'.freeClus_of hc
  refine ⟨l, _, d₁, _, d₂, halloc, hfree, ⟨hlen, hnodup, h₁'.readClusChains_of hc, hrewrites.others, ?_, ?_⟩⟩
  · exact fun s j hj => FAT.bytes_eq_of_fatWord hs (honly₁.trans honly₂)
      (fun i hi m hm => h.fatWord_round hagree h₁' rfl hrewrites hc (fun x hx => (hfresh x hx).2) hfree hi hm) hj
  · have hlt : fat.avail (fat.entry d) < 2 ^ 32 := by
      have hle : (fat.freeList (fat.entry d)).length ≤ fat.bpb.clusCnt := by
        simpa [FAT.freeList, freeFrom] using List.length_filter_le (fun n => fat.entry d n = 0) (List.range' 0 fat.bpb.clusCnt)
      have hcntle := hs.clusCnt_le
      rw [hcnt.avail]
      omega
    have hback := fat.availCnt_taken_back (fat.entry d) hpos hn hlt
    rw [h.availClusCnt, hlen, FAT.availClusCnt, hback]
    rfl

theorem FAT.allocClus_freeClus_small : ∃ l fat₁ d₁ fat₂ d₂,
    (smallRun (smallTable [2])).fat.allocClus (smallRun (smallTable [2])).device 2 = some (some l, fat₁, d₁) ∧
      fat₁.freeClus d₁ (l.headD 0) = some (fat₂, d₂) ∧
      (smallRun (smallTable [2])).fat.TakenBack (smallRun (smallTable [2])).device 2 l fat₁ d₁ fat₂ d₂ := by
  have howned := (smallRun_root (l := []) (by decide) (by decide)).1
  refine FAT.allocClus_freeClus howned.wellFormed ?_ rfl (fun cnt hcnt => absurd hcnt (by simp [smallRun]))
    (by decide) (by decide)
  intro i hi r hr j _
  obtain rfl : r = 0 := by
    have hone : r < 1 := hr
    omega
  have hcases : i = 0 ∨ i = 1 := by
    have htwo : i < 2 := hi
    omega
  rcases hcases with rfl | rfl <;> rfl

end FuseFat32
