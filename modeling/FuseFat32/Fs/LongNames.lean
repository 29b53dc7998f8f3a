import FuseFat32.Fs.NewGroup

/-!
# Long names

A name is cut into parts of 13 code units, the parts are stored from the last to the first, and each of the three functions that read a name puts the parts in front of each other again. This is about names of any length and content and about any checksum, before there is a directory or a short entry to go with them.
-/

namespace FuseFat32

/-- The bytes of code units in UTF-16LE. -/
def utf16le (units : List UInt16) : List UInt8 := units.flatMap fun c => le16 c.toNat

/-! ### The loop of `fromIno` -/

/-- The variables of the loop of `fromIno`. -/
structure InoState where
  longNameUtf16 : List UInt8
  fstDirEntry : Bool
  chkSum : UInt8

/-- `fromIno` at one entry. The result is the short entry of the group, or nothing when there is no group. -/
def fromInoStep (_ : Nat) (e : LongDirEntry) (s : InoState) :
    Exec (InoState ⊕ Option (InoState × ShortDirEntry)) :=
  if isEmptyDirEntry e then some (.inr none)
  else if e.attr &&& kAttrLongNameMask ≠ kAttrLongName then
    some (.inr (some (s, castLongDirEntryToShort e)))
  else
    let s := { s with longNameUtf16 := readLongEntryName e ++ s.longNameUtf16 }
    if !s.fstDirEntry then do
      assert (isValidLongDirEntry e s.chkSum)
      return .inl s
    else some (.inl { s with fstDirEntry := false, chkSum := e.chkSum })

section scans

variable {rest : List LongDirEntry} {done : Nat → List LongDirEntry → Exec (List LongDirEntry × LongDirEntry × Nat)}
  {done' : Nat → InoState → Exec (Option (InoState × ShortDirEntry))} {chk : UInt8}

/-- `lookupFileByIndex` records long entries in front of each other. -/
theorem scanList_record_longs : ∀ {longs acc : List LongDirEntry} {n : Nat},
    (∀ e ∈ longs, isEmptyDirEntry e = false ∧ isLongDirEntry e = true) →
    scanList recordStep done (longs ++ rest) n acc =
      scanList recordStep done rest (n + longs.length) (longs.reverse ++ acc) := by
  intro longs
  induction longs with
  | nil => exact fun _ => rfl
  | cons e longs ih =>
    intro acc n h
    obtain ⟨he, hlong⟩ := h e List.mem_cons_self
    have hstep : recordStep n e acc = some (.inl (e :: acc)) := by simp [recordStep, he, hlong]
    rw [List.cons_append, scanList_next hstep, ih fun e he => h e (List.mem_cons_of_mem _ he),
      List.length_cons, List.reverse_cons, List.append_assoc, List.singleton_append,
      Nat.add_right_comm n 1, Nat.add_assoc n]

/-- `fromIno` puts the parts of the long entries behind the first one in front of each other. -/
theorem scanList_ino_longs : ∀ {longs : List LongDirEntry} {n : Nat} {name : List UInt8},
    (∀ e ∈ longs, isEmptyDirEntry e = false ∧ isValidLongDirEntry e chk = true) →
    scanList fromInoStep done' (longs ++ rest) n ⟨name, false, chk⟩ =
      scanList fromInoStep done' rest (n + longs.length)
        ⟨longs.reverse.flatMap readLongEntryName ++ name, false, chk⟩ := by
  intro longs
  induction longs with
  | nil => exact fun _ => rfl
  | cons e longs ih =>
    intro n name h
    obtain ⟨he, hvalid⟩ := h e List.mem_cons_self
    have hlong := hvalid
    simp only [isValidLongDirEntry, isLongDirEntry, decide_eq_true_eq] at hlong
    have hstep : fromInoStep n e ⟨name, false, chk⟩ =
        some (.inl ⟨readLongEntryName e ++ name, false, chk⟩) := by
      simp [fromInoStep, he, hlong.1, hvalid]
    rw [List.cons_append, scanList_next hstep, ih fun e he => h e (List.mem_cons_of_mem _ he),
      List.length_cons, List.reverse_cons, List.flatMap_append, List.flatMap_singleton, List.append_assoc,
      Nat.add_right_comm n 1, Nat.add_assoc n]

theorem scanList_ino_fresh {longs : List LongDirEntry} {n : Nat} {any : UInt8} (hne : longs ≠ [])
    (h : ∀ e ∈ longs, isEmptyDirEntry e = false ∧ isValidLongDirEntry e chk = true) :
    scanList fromInoStep done' (longs ++ rest) n ⟨[], true, any⟩ =
      scanList fromInoStep done' rest (n + longs.length)
        ⟨longs.reverse.flatMap readLongEntryName, false, chk⟩ := by
  obtain ⟨e, longs, rfl⟩ := List.exists_cons_of_ne_nil hne
  obtain ⟨he, hvalid⟩ := h e List.mem_cons_self
  simp only [isValidLongDirEntry, isLongDirEntry, decide_eq_true_eq] at hvalid
  have hstep : fromInoStep n e ⟨[], true, any⟩ = some (.inl ⟨readLongEntryName e ++ [], false, chk⟩) := by
    simp [fromInoStep, he, hvalid.1, hvalid.2.2.1]
  rw [List.cons_append, scanList_next hstep, scanList_ino_longs fun e he => h e (List.mem_cons_of_mem _ he),
    List.append_nil, List.length_cons, List.reverse_cons, List.flatMap_append, List.flatMap_singleton,
    Nat.add_right_comm n 1, Nat.add_assoc n]

end scans

/-! ### The entries of a name -/

/-- The long entries of a name, in the order of their places. -/
def longEntries (chk : UInt8) (u : List UInt8) : List LongDirEntry :=
  (List.range (requiredEntryNum u - 1)).reverse.map (newLong (requiredEntryNum u - 1) chk u)

/-- The entries `longs` are what `crtFileInner` makes of the name `u`, and every reader makes `u` of them. -/
structure CarriesName (chk : UInt8) (u : List UInt8) (longs : List LongDirEntry) : Prop where
  /-- One entry for every 13 code units that are begun. -/
  count : longs.length = (u.length / 2 + 12) / 13
  /-- They are written from the last place to the first, and the short entry after them. -/
  stored : ∀ start s_dir_entry, groupEntries start (requiredEntryNum u) chk u s_dir_entry =
    (longs.mapIdx fun j e => (start + j, e)).reverse ++
      [(start + longs.length, castShortDirEntryToLong s_dir_entry)]
  lookup : ∀ utf16_name gbk_name done rest n s, LookupState.Fresh s →
    scanList (lookupStep utf16_name gbk_name) done (longs ++ rest) n s =
      scanList (lookupStep utf16_name gbk_name) done rest (n + longs.length) ⟨true, n, longs.length, chk, u⟩
  listed : ∃ l_dir_entries, l_dir_entries.flatMap readLongEntryName = u ∧
    (∀ e ∈ l_dir_entries, isValidLongDirEntry e chk = true) ∧ ∀ done rest n,
    scanList recordStep done (longs ++ rest) n [] =
      scanList recordStep done rest (n + longs.length) l_dir_entries
  fromIno : ∀ done rest n any,
    scanList fromInoStep done (longs ++ rest) n ⟨[], true, any⟩ =
      scanList fromInoStep done rest (n + longs.length) ⟨u, false, chk⟩
  valid : ∀ e ∈ longs, isValidLongDirEntry e chk = true
  live : ∀ e ∈ longs, isEmptyDirEntry e = false
  flag : ∀ j (hj : j < longs.length), (longs[j].ord.toNat &&& kLastLongEntry ≠ 0) ↔ j = 0

section entries

variable {u : List UInt8} {chk : UInt8}

theorem length_longEntries : (longEntries chk u).length = requiredEntryNum u - 1 := by
  rw [longEntries, List.length_map, List.length_reverse, List.length_range]

theorem longEntries_valid : ∀ e ∈ longEntries chk u, isValidLongDirEntry e chk = true := by
  intro e he
  obtain ⟨i, -, rfl⟩ := List.mem_map.mp he
  exact isValidLongDirEntry_newLong _ _ u i

private theorem longEntries_ords : (longEntries chk u).map LongDirEntry.ord = descendingOrds (longEntries chk u).length := by
  rw [length_longEntries]
  exact ords_newLong _ chk u

private theorem LongName.longEntries_few (hu : LongName u) : (longEntries chk u).length ≤ 20 := by
  have hshort := hu.short
  rw [length_longEntries, hu.unitName.required_eq]
  simp only [kNameBytePerLongEntry]
  omega

theorem LongName.longEntries_name (hu : LongName u) :
    (longEntries chk u).reverse.flatMap readLongEntryName = u := by
  rw [longEntries, ← List.map_reverse, List.reverse_reverse, List.flatMap_map]
  exact hu.unitName.flatMap_newLong chk

private theorem flag_of_ords {longs : List LongDirEntry} (few : longs.length ≤ 20)
    (ords : longs.map LongDirEntry.ord = descendingOrds longs.length) (j : Nat) (hj : j < longs.length) :
    (longs[j].ord.toNat &&& kLastLongEntry ≠ 0) ↔ j = 0 := by
  have hall : ∀ k ≤ 20, ∀ (i : Fin k),
      (((descendingOrds k).getD i 0).toNat &&& kLastLongEntry ≠ 0) ↔ i.val = 0 := by decide
  have hord : (descendingOrds longs.length).getD j 0 = longs[j].ord := by
    rw [← ords, List.getD_eq_getElem?_getD, List.getElem?_map, List.getElem?_eq_getElem hj]
    rfl
  rw [← hord]
  exact hall _ few ⟨j, hj⟩

/-- `crtFileInner` writes the entries from the last place to the first. -/
theorem LongName.groupEntries_eq (hu : LongName u) (start : Nat) (s_dir_entry : ShortDirEntry) :
    groupEntries start (requiredEntryNum u) chk u s_dir_entry =
      ((longEntries chk u).mapIdx fun j e => (start + j, e)).reverse ++
        [(start + (longEntries chk u).length, castShortDirEntryToLong s_dir_entry)] := by
  obtain ⟨k, hk⟩ : ∃ k, requiredEntryNum u = k + 1 := ⟨_, hu.unitName.required_eq⟩
  rw [length_longEntries, groupEntries, longEntries, hk, Nat.add_sub_cancel]
  congr 1
  apply List.ext_getElem
  · simp
  · intro i hi _
    rw [List.length_map, List.length_range] at hi
    have hplace : start + (k + 1) - (i + 1) - 1 = start + (k - 1 - i) := by omega
    have hpart : k - 1 - (k - 1 - i) = i := by omega
    simp [newLong, hplace]

/-- The entries of a name carry it, whatever the checksum is. -/
theorem LongName.carries (hu : LongName u) (chk : UInt8) : CarriesName chk u (longEntries chk u) := by
  have hlen : (longEntries chk u).length = (u.length - 1) / kNameBytePerLongEntry + 1 := by
    rw [length_longEntries, hu.unitName.required_eq]
    rfl
  have hne : longEntries chk u ≠ [] := by
    apply List.ne_nil_of_length_pos
    rw [hlen]
    exact Nat.succ_pos _
  have hlive : ∀ e ∈ longEntries chk u, isEmptyDirEntry e = false :=
    fun _ he => hu.unitName.isEmpty_of_mem he
  have hlong : ∀ e ∈ longEntries chk u, isLongDirEntry e = true := by
    intro e he
    have hvalid := longEntries_valid e he
    simp only [isValidLongDirEntry, decide_eq_true_eq] at hvalid
    exact hvalid.1
  constructor
  case count =>
    have hpos := hu.pos
    have heven := hu.units.even
    rw [hlen]
    simp only [kNameBytePerLongEntry]
    omega
  case stored => exact hu.groupEntries_eq
  case lookup =>
    intro utf16_name gbk_name done rest n s hs
    rw [scan_longs_fresh hne (fun e he => ⟨hlive e he, longEntries_valid e he⟩) hs, hu.longEntries_name]
  case listed =>
    refine ⟨(longEntries chk u).reverse, hu.longEntries_name,
      fun e he => longEntries_valid e (List.mem_reverse.mp he), fun done rest n => ?_⟩
    rw [scanList_record_longs fun e he => ⟨hlive e he, hlong e he⟩, List.append_nil]
  case fromIno =>
    intro done rest n any
    rw [scanList_ino_fresh hne fun e he => ⟨hlive e he, longEntries_valid e he⟩, hu.longEntries_name]
  case valid => exact longEntries_valid
  case live => exact hlive
  case flag => exact flag_of_ords hu.longEntries_few longEntries_ords

end entries

/-! ### Names in code units -/

theorem length_utf16le (units : List UInt16) : (utf16le units).length = 2 * units.length := by
  induction units with
  | nil => rfl
  | cons c units ih =>
    rw [utf16le, List.flatMap_cons, List.length_append, length_le16, ← utf16le, ih, List.length_cons]
    omega

private theorem utf16le_units : ∀ {units : List UInt16}, (∀ c ∈ units, c ≠ 0x0000 ∧ c ≠ 0xFFFF) →
    WholeUnits (utf16le units) := by
  intro units
  induction units with
  | nil => exact fun _ => trivial
  | cons c units ih =>
    intro h
    obtain ⟨hzero, hones⟩ := h c List.mem_cons_self
    have hlt := c.toNat_lt
    have hlo : (UInt8.ofNat c.toNat).toNat = c.toNat % 2 ^ 8 := UInt8.toNat_ofNat'
    have hhi : (UInt8.ofNat (c.toNat / 2 ^ 8)).toNat = c.toNat / 2 ^ 8 % 2 ^ 8 := UInt8.toNat_ofNat'
    refine ⟨fun hbytes => hzero ?_, fun hbytes => hones ?_, ih fun c hc => h c (List.mem_cons_of_mem _ hc)⟩
    all_goals
      apply UInt16.toNat_inj.mp
      rw [hbytes.1] at hlo
      rw [hbytes.2] at hhi
      simp at hlo hhi ⊢
      omega

/-- Every name of 1 to 255 code units without 0x0000 and 0xFFFF is carried by the entries `crtFileInner` makes of it. -/
theorem longEntries_carries {units : List UInt16} (hpos : 1 ≤ units.length) (hshort : units.length ≤ 255)
    (hunits : ∀ c ∈ units, c ≠ 0x0000 ∧ c ≠ 0xFFFF) (chk : UInt8) :
    CarriesName chk (utf16le units) (longEntries chk (utf16le units)) := by
  refine LongName.carries ⟨?_, ?_, utf16le_units hunits⟩ chk
  · rw [length_utf16le]
    omega
  · rw [length_utf16le]
    omega

theorem longEntries_carries_two_entries :
    (longEntries 0x5A (utf16le (List.replicate 20 0x4E2D))).length = 2 ∧
      CarriesName 0x5A (utf16le (List.replicate 20 0x4E2D))
        (longEntries 0x5A (utf16le (List.replicate 20 0x4E2D))) :=
  ⟨by decide, longEntries_carries (by decide) (by decide)
    (fun c hc => by rw [List.eq_of_mem_replicate hc]; decide) 0x5A⟩

end FuseFat32
