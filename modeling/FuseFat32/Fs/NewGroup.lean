import FuseFat32.Fs.Groups

/-!
# The group of a new file

`crtFileInner` cuts the name into parts of 13 code units, one for each long entry, and fills the last part up with 0x0000 and 0xFFFF. It writes the entries from the first part, which has the last place, to the last one. What it has written is a live group that carries the name.
-/

namespace FuseFat32

open Segments

/-- Whole code units, none of them one that ends a name. -/
def WholeUnits : List UInt8 → Prop
  | [] => True
  | [_] => False
  | lo :: hi :: rest => ¬ (lo = 0x00 ∧ hi = 0x00) ∧ ¬ (lo = 0xFF ∧ hi = 0xFF) ∧ WholeUnits rest

instance : (u : List UInt8) → Decidable (WholeUnits u)
  | [] => .isTrue trivial
  | [_] => .isFalse id
  | lo :: hi :: rest =>
    have : Decidable (WholeUnits rest) := instDecidableWholeUnits rest
    inferInstanceAs (Decidable (¬ (lo = 0x00 ∧ hi = 0x00) ∧ ¬ (lo = 0xFF ∧ hi = 0xFF) ∧ WholeUnits rest))

/-- A name of at least one and at most 255 code units. -/
structure LongName (utf16_name : List UInt8) : Prop where
  pos : 0 < utf16_name.length
  short : utf16_name.length ≤ 510
  units : WholeUnits utf16_name

/-- A name of at most 2132 code units. The ordinal of the 165th long entry would be 0xE5, that of a deleted entry. -/
structure UnitName (utf16_name : List UInt8) : Prop where
  pos : 0 < utf16_name.length
  short : utf16_name.length ≤ 164 * kNameBytePerLongEntry
  units : WholeUnits utf16_name

theorem LongName.unitName {u : List UInt8} (h : LongName u) : UnitName u := ⟨h.pos, h.short.trans (by decide), h.units⟩

/-! ### The parts of a name -/

section parts

variable {u : List UInt8} {off : Nat}

theorem WholeUnits.drop_two (h : WholeUnits u) : WholeUnits (u.drop 2) := by
  match u, h with
  | [], _ => trivial
  | _ :: _ :: _, h => exact h.2.2

theorem WholeUnits.drop (h : WholeUnits u) (m : Nat) : WholeUnits (u.drop (2 * m)) := by
  induction m with
  | zero => exact h
  | succ m ih =>
    rw [Nat.mul_succ, ← List.drop_drop]
    exact ih.drop_two

theorem WholeUnits.even : ∀ {u : List UInt8}, WholeUnits u → u.length % 2 = 0
  | [], _ => rfl
  | _ :: _ :: rest, h => by
    have hrest := WholeUnits.even (u := rest) h.2.2
    rw [List.length_cons, List.length_cons]
    omega

private theorem longNameByte_add_two (j : Nat) : longNameByte u off (j + 2) = longNameByte u (off + 2) j := by
  have hdiv : off + (j + 2) / 2 * 2 = off + 2 + j / 2 * 2 := by omega
  rw [longNameByte, longNameByte, hdiv, show off + (j + 2) = off + 2 + j by omega]

private theorem range_two_mul_succ (m : Nat) :
    List.range (2 * (m + 1)) = 0 :: 1 :: (List.range (2 * m)).map (· + 2) := by
  rw [Nat.mul_succ, List.range_succ_eq_map, List.range_succ_eq_map, List.map_cons, List.map_map]
  rfl

private theorem longNameUnits_bytes (m : Nat) : ∀ {off : Nat}, WholeUnits (u.drop off) →
    longNameUnits ((List.range (2 * m)).map (longNameByte u off)) = (u.drop off).take (2 * m) := by
  induction m with
  | zero => exact fun _ => rfl
  | succ m ih =>
    intro off h
    have hrest : ((List.range (2 * m)).map (· + 2)).map (longNameByte u off) =
        (List.range (2 * m)).map (longNameByte u (off + 2)) := by
      rw [List.map_map]
      exact List.map_congr_left fun j _ => longNameByte_add_two j
    rw [range_two_mul_succ, List.map_cons, List.map_cons, hrest, longNameUnits]
    by_cases hin : off < u.length
    · have hnext := h.drop_two
      rw [List.drop_drop] at hnext
      -- a code unit has two bytes
      have hin' : off + 1 < u.length := by
        by_contra hlast
        have hone : u.drop off = [u[off]] := by
          rw [List.drop_eq_getElem_cons hin, List.drop_eq_nil_of_le (by omega)]
        rw [hone] at h
        exact h
      have hdrop : u.drop off = u[off] :: u[off + 1] :: u.drop (off + 2) := by
        rw [List.drop_eq_getElem_cons hin, List.drop_eq_getElem_cons hin']
      have hlo : longNameByte u off 0 = u[off] := by simp [longNameByte, hin]
      have hhi : longNameByte u off 1 = u[off + 1] := by simp [longNameByte, hin, hin']
      rw [hdrop] at h
      rw [hlo, hhi, if_neg (not_or.mpr ⟨h.1, h.2.1⟩), ih hnext, hdrop, Nat.mul_succ, List.take_succ_cons,
        List.take_succ_cons]
    · have hbytes : longNameByte u off 0 = longNameByte u off 1 ∧
          (longNameByte u off 1 = 0x00 ∨ longNameByte u off 1 = 0xFF) := by
        by_cases heq : off = u.length
        · simp [longNameByte, heq]
        · simp [longNameByte, hin, heq]
      rw [hbytes.1, if_pos (hbytes.2.imp (fun h => ⟨h, h⟩) fun h => ⟨h, h⟩),
        List.drop_eq_nil_of_le (Nat.not_lt.mp hin), List.take_nil]

private theorem name_mkLongDirEntry (is_lst : Bool) (ord : Nat) (chk : UInt8) :
    (mkLongDirEntry is_lst ord chk u off).name1.toList ++ (mkLongDirEntry is_lst ord chk u off).name2.toList ++
        (mkLongDirEntry is_lst ord chk u off).name3.toList =
      (List.range (2 * 13)).map (longNameByte u off) := by
  simp only [mkLongDirEntry, Vector.toList_ofFn]
  rfl

private theorem readLongEntryName_mkLongDirEntry (h : WholeUnits (u.drop off)) (is_lst : Bool) (ord : Nat) (chk : UInt8) :
    readLongEntryName (mkLongDirEntry is_lst ord chk u off) = (u.drop off).take kNameBytePerLongEntry := by
  rw [readLongEntryName, name_mkLongDirEntry, longNameUnits_bytes 13 h]
  rfl

private theorem flatMap_parts {α : Type*} (l : List α) (c k : Nat) :
    (List.range k).flatMap (fun i => (l.drop (c * i)).take c) = l.take (c * k) := by
  induction k with
  | zero => rw [Nat.mul_zero, List.take_zero]; rfl
  | succ k ih => rw [List.range_succ, List.flatMap_append, ih, List.flatMap_singleton, ← List.take_add, Nat.mul_succ]

end parts

/-! ### The entries of the group -/

section group

variable {u : List UInt8}

theorem UnitName.required_eq (h : UnitName u) :
    requiredEntryNum u = (u.length - 1) / kNameBytePerLongEntry + 2 := by
  have hpos := h.pos
  have hshort := h.short
  simp only [kNameBytePerLongEntry] at hshort
  have hmod : (u.length + 2 ^ 64 - 1) % 2 ^ 64 = u.length - 1 := by omega
  have hdiv : (u.length - 1) / kNameBytePerLongEntry ≤ 163 := by
    simp only [kNameBytePerLongEntry]
    omega
  have hinner : u32 ((u.length - 1) / kNameBytePerLongEntry + 1) = (u.length - 1) / kNameBytePerLongEntry + 1 :=
    u32_of_lt (by omega)
  rw [requiredEntryNum, hmod, hinner, u32_of_lt (by omega)]

/-- Long entry `i` of a group of `k`, counted from the one with the start of the name. -/
def newLong (k : Nat) (chk : UInt8) (u : List UInt8) (i : Nat) : LongDirEntry :=
  mkLongDirEntry (i + 1 = k) (i + 1) chk u (kNameBytePerLongEntry * i)

theorem isValidLongDirEntry_newLong (k : Nat) (chk : UInt8) (u : List UInt8) (i : Nat) :
    isValidLongDirEntry (newLong k chk u i) chk = true := by
  have hattr : kAttrLongName &&& kAttrLongNameMask = kAttrLongName := by decide
  simp [isValidLongDirEntry, isLongDirEntry, newLong, mkLongDirEntry, hattr]

private theorem UnitName.required_le (h : UnitName u) : requiredEntryNum u ≤ 165 := by
  have hshort := h.short
  rw [h.required_eq]
  simp only [kNameBytePerLongEntry] at hshort ⊢
  omega

/-- Up to 164 of them no ordinal is that of an empty entry. -/
theorem isEmpty_newLong {k i : Nat} (hi : i < k) (hk : k ≤ 164) (chk : UInt8) (u : List UInt8) :
    isEmptyDirEntry (newLong k chk u i) = false := by
  have hflagged : ∀ j ≤ 164, UInt8.ofNat (kLastLongEntry ||| j) ≠ 0x00 ∧ UInt8.ofNat (kLastLongEntry ||| j) ≠ 0xE5 := by
    decide +kernel
  have hplain : ∀ j ≤ 164, 0 < j → UInt8.ofNat j ≠ 0x00 ∧ UInt8.ofNat j ≠ 0xE5 := by decide +kernel
  simp only [isEmptyDirEntry, newLong, mkLongDirEntry, decide_eq_false_iff_not, not_or, decide_eq_true_eq]
  split
  · exact hflagged _ (by omega)
  · exact hplain _ (by omega) (Nat.succ_pos i)

theorem UnitName.isEmpty_of_mem (h : UnitName u) {chk : UInt8} {e : LongDirEntry}
    (he : e ∈ (List.range (requiredEntryNum u - 1)).reverse.map (newLong (requiredEntryNum u - 1) chk u)) :
    isEmptyDirEntry e = false := by
  obtain ⟨i, hi, rfl⟩ := List.mem_map.mp he
  have hlt := List.mem_range.mp (List.mem_reverse.mp hi)
  have hle := h.required_le
  exact isEmpty_newLong hlt (by omega) chk u

/-- The long entries of a group count down to 1, the first with the flag. -/
theorem ords_newLong (k : Nat) (chk : UInt8) (u : List UInt8) :
    ((List.range k).reverse.map (newLong k chk u)).map LongDirEntry.ord = descendingOrds k := by
  rw [descendingOrds, List.map_map]
  apply List.ext_getElem
  · simp
  · intro i hi _
    rw [List.length_map, List.length_reverse, List.length_range] at hi
    simp only [List.getElem_map, List.getElem_reverse, List.length_range, List.getElem_range,
      Function.comp_apply, newLong, mkLongDirEntry, decide_eq_true_eq]
    congr 1
    by_cases hzero : i = 0
    · rw [if_pos (by omega), if_pos hzero, show k - 1 - i + 1 = k by omega]
    · rw [if_neg (by omega), if_neg hzero]
      omega

theorem UnitName.flatMap_newLong (hu : UnitName u) (chk : UInt8) :
    (List.range (requiredEntryNum u - 1)).flatMap
      (fun i => readLongEntryName (newLong (requiredEntryNum u - 1) chk u i)) = u := by
  have hpart : ∀ i, readLongEntryName (newLong (requiredEntryNum u - 1) chk u i) =
      (u.drop (kNameBytePerLongEntry * i)).take kNameBytePerLongEntry := fun i => by
    refine readLongEntryName_mkLongDirEntry ?_ _ _ _
    have := hu.units.drop (13 * i)
    rwa [← Nat.mul_assoc] at this
  have hlen : u.length ≤ kNameBytePerLongEntry * (requiredEntryNum u - 1) := by
    have hpos := hu.pos
    rw [hu.required_eq]
    simp only [kNameBytePerLongEntry]
    omega
  simp only [hpart]
  rw [flatMap_parts, List.take_of_length_le hlen]

theorem castLongDirEntryToShort_castShortDirEntryToLong (e : ShortDirEntry) :
    castLongDirEntryToShort (castShortDirEntryToLong e) = e :=
  ShortDirEntry.bytes_injective (by rw [bytes_castLongDirEntryToShort, bytes_castShortDirEntryToLong])

theorem ord_castShortDirEntryToLong (e : ShortDirEntry) : (castShortDirEntryToLong e).ord = e.name0 := by
  rw [← ord_castLongDirEntryToShort, castLongDirEntryToShort_castShortDirEntryToLong]

theorem attr_castShortDirEntryToLong (e : ShortDirEntry) : (castShortDirEntryToLong e).attr = e.attr := by
  have hlen : e.name.toList.length = 11 := e.name.length_toList
  simp [castShortDirEntryToLong, LongDirEntry.ofBytes, ShortDirEntry.bytes, List.getD_eq_getElem?_getD, hlen]

private theorem isLongDirEntry_mkShortDirEntry (b : BasisName) (is_dir : Bool) (now : FatTimeStamp2) :
    isLongDirEntry (castShortDirEntryToLong (mkShortDirEntry b is_dir now)) = false := by
  have hattr : (mkShortDirEntry b is_dir now).attr = if is_dir then kAttrDirectory else 0 := rfl
  rw [isLongDirEntry, attr_castShortDirEntryToLong, hattr]
  cases is_dir <;> decide

/-- The group of a new file. -/
def newGroup (u : List UInt8) (hu : UnitName u) (b : BasisName) (is_dir : Bool) (now : FatTimeStamp2)
    (hkept : ShortNameKept b (mkShortDirEntry b is_dir now)) : EntryGroup where
  longs := (List.range (requiredEntryNum u - 1)).reverse.map (newLong (requiredEntryNum u - 1) (chkSum b) u)
  short := castShortDirEntryToLong (mkShortDirEntry b is_dir now)
  liveLongs := fun _ he => hu.isEmpty_of_mem he
  ords := by
    rw [List.length_map, List.length_reverse, List.length_range]
    exact ords_newLong _ _ u
  live := by
    rw [isEmptyDirEntry, ord_castShortDirEntryToLong]
    have hexist := hkept.exist
    rw [parseEntryType] at hexist
    split_ifs at hexist with hdeleted hend
    simp [hdeleted, hend]
  isShort := isLongDirEntry_mkShortDirEntry b is_dir now
  checked := fun _ => by
    refine ⟨b, ?_, fun e he => ?_⟩
    · rw [castLongDirEntryToShort_castShortDirEntryToLong]
      exact hkept.rebuilt
    · obtain ⟨i, -, rfl⟩ := List.mem_map.mp he
      exact isValidLongDirEntry_newLong _ _ u i

section made

variable {hu : UnitName u} {b : BasisName} {is_dir : Bool} {now : FatTimeStamp2}
  {hkept : ShortNameKept b (mkShortDirEntry b is_dir now)}

theorem newGroup_size (hu : UnitName u) (hkept : ShortNameKept b (mkShortDirEntry b is_dir now)) :
    (newGroup u hu b is_dir now hkept).size = requiredEntryNum u := by
  rw [EntryGroup.size, newGroup, List.length_map, List.length_reverse, List.length_range, hu.required_eq]
  rfl

theorem newGroup_few (h : LongName u) : (newGroup u hu b is_dir now hkept).longs.length ≤ 20 := by
  have hshort := h.short
  rw [newGroup, List.length_map, List.length_reverse, List.length_range, hu.required_eq]
  simp only [kNameBytePerLongEntry]
  omega

theorem newGroup_longs_ne_nil : (newGroup u hu b is_dir now hkept).longs ≠ [] := by
  apply List.ne_nil_of_length_pos
  rw [newGroup, List.length_map, List.length_reverse, List.length_range, hu.required_eq]
  exact Nat.succ_pos _

theorem newGroup_longName : (newGroup u hu b is_dir now hkept).longName = u := by
  rw [EntryGroup.longName, newGroup, ← List.map_reverse, List.reverse_reverse, List.flatMap_map]
  exact hu.flatMap_newLong (chkSum b)

theorem newGroup_named {utf16_name gbk_name : List UInt8} :
    (newGroup u hu b is_dir now hkept).Named utf16_name gbk_name ↔ u = utf16_name := by
  rw [EntryGroup.Named, if_neg newGroup_longs_ne_nil, newGroup_longName]

theorem groupEntries_places {start required n : Nat} {chk : UInt8} {e : ShortDirEntry} (hpos : 0 < required)
    (hn : n ∈ (groupEntries start required chk u e).map Prod.fst) : start ≤ n ∧ n < start + required := by
  rw [groupEntries, List.map_append, List.map_map, List.map_singleton] at hn
  rcases List.mem_append.mp hn with hn | hn
  · obtain ⟨i, hi, rfl⟩ := List.mem_map.mp hn
    have := List.mem_range.mp hi
    rw [Function.comp_apply]
    omega
  · rw [List.mem_singleton.mp hn]
    omega

theorem groupEntries_nodup {start required : Nat} {chk : UInt8} {e : ShortDirEntry} (hpos : 0 < required) :
    ((groupEntries start required chk u e).map Prod.fst).Nodup := by
  rw [groupEntries, List.map_append, List.map_map, List.map_singleton, List.nodup_append]
  refine ⟨List.Nodup.map_on ?_ List.nodup_range, List.nodup_singleton _, ?_⟩
  · intro i hi j hj heq
    have := List.mem_range.mp hi
    have := List.mem_range.mp hj
    simp only [Function.comp_apply] at heq
    omega
  · intro n hn m hm
    obtain ⟨i, hi, rfl⟩ := List.mem_map.mp hn
    have := List.mem_range.mp hi
    rw [List.mem_singleton.mp hm, Function.comp_apply]
    omega

/-- What `crtFileInner` writes puts the group in the place of a run. -/
theorem writeAll_groupEntries (hu : UnitName u) (hkept : ShortNameKept b (mkShortDirEntry b is_dir now))
    {es : List LongDirEntry} {start : Nat} (hlen : start + requiredEntryNum u ≤ es.length) :
    writeAll es (groupEntries start (requiredEntryNum u) (chkSum b) u (mkShortDirEntry b is_dir now)) =
      es.take start ++ (newGroup u hu b is_dir now hkept).entries ++ es.drop (start + requiredEntryNum u) := by
  obtain ⟨k, hk⟩ : ∃ k, requiredEntryNum u = k + 1 := ⟨_, hu.required_eq⟩
  have hgroup : (newGroup u hu b is_dir now hkept).entries =
      (List.range k).reverse.map (newLong k (chkSum b) u) ++ [castShortDirEntryToLong (mkShortDirEntry b is_dir now)] := by
    have hpred : requiredEntryNum u - 1 = k := by omega
    rw [EntryGroup.entries, newGroup, ← hpred]
  have hwrites : groupEntries start (requiredEntryNum u) (chkSum b) u (mkShortDirEntry b is_dir now) =
      (List.range k).map (fun i => (start + (k - 1 - i), newLong k (chkSum b) u i)) ++
        [(start + k, castShortDirEntryToLong (mkShortDirEntry b is_dir now))] := by
    have hplace : ∀ i ∈ List.range k, start + (k + 1) - (i + 1) - 1 = start + (k - 1 - i) := fun i hi => by
      have := List.mem_range.mp hi
      omega
    rw [groupEntries, hk, Nat.add_sub_cancel, show start + (k + 1) - 1 = start + k from rfl]
    refine congrArg (· ++ _) (List.map_congr_left fun i hi => ?_)
    rw [hplace i hi, newLong]
  have hlength : (newGroup u hu b is_dir now hkept).entries.length = requiredEntryNum u := by
    rw [EntryGroup.length_entries, newGroup_size]
  have hplaces : ∀ n ∈ (groupEntries start (requiredEntryNum u) (chkSum b) u (mkShortDirEntry b is_dir now)).map
      Prod.fst, start ≤ n ∧ n < start + requiredEntryNum u := fun n hn => groupEntries_places (by omega) hn
  have hnodup : ((groupEntries start (requiredEntryNum u) (chkSum b) u (mkShortDirEntry b is_dir now)).map
      Prod.fst).Nodup := groupEntries_nodup (by omega)
  rw [hwrites] at hplaces hnodup
  rw [hwrites, ← hlength]
  apply writeAll_run _ _ hnodup
  · rwa [hlength]
  · intro i a ha
    have hi := (List.getElem?_eq_some_iff.mp ha).1
    rw [hlength, hk] at hi
    rw [hgroup] at ha
    by_cases hlast : i < k
    · rw [List.getElem?_append_left (by simpa using hlast)] at ha
      refine List.mem_append_left _ (List.mem_map.mpr ⟨k - 1 - i, List.mem_range.mpr (by omega), ?_⟩)
      rw [List.getElem?_map, List.getElem?_reverse (by simpa using hlast)] at ha
      rw [show k - 1 - (k - 1 - i) = i by omega]
      simpa [show k - 1 - i < k by omega] using ha
    · obtain rfl : i = k := by omega
      rw [List.getElem?_append_right (by simp), List.length_map, List.length_reverse, List.length_range,
        Nat.sub_self] at ha
      obtain rfl : _ = a := by simpa using ha
      exact List.mem_append_right _ List.mem_cons_self
  · rwa [hlength]

end made

end group

end FuseFat32
