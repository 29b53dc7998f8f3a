import FuseFat32.Machine.Device
import Mathlib.Data.List.TakeWhile

/-!
# Directory entries

A directory is an array of entries of 32 bytes. The source reads an entry as a `LongDirEntry` or as a `ShortDirEntry`, two packed views of the same bytes, and casts between them. Both views are total and lose nothing, so a cast is the bytes of one view read as the other. The names that entries carry follow, as far as reading them goes.
-/

namespace FuseFat32

/-- `KDirEntrySize`, and `sizeof` of both views. -/
def kDirEntrySize : Nat := 32

structure FatTimeStamp where
  time : UInt16
  date : UInt16
  deriving DecidableEq

structure FatTimeStamp2 where
  tt : UInt8
  ts : FatTimeStamp
  deriving DecidableEq

structure ShortDirEntry where
  name : Vector UInt8 11
  attr : UInt8
  rsvd : UInt8
  crtTs2 : FatTimeStamp2
  lstAccDate : UInt16
  fstClusHigh : UInt16
  wrtTs : FatTimeStamp
  fstClusLow : UInt16
  fileSz : UInt32
  deriving DecidableEq

structure LongDirEntry where
  ord : UInt8
  name1 : Vector UInt8 10
  attr : UInt8
  type : UInt8
  chkSum : UInt8
  name2 : Vector UInt8 12
  fstClusLow : UInt16
  name3 : Vector UInt8 4
  deriving DecidableEq

/-! ### The bytes of an entry -/

/-- The 16-bit word at offset `off`. -/
def word16 (v : Nat → UInt8) (off : Nat) : UInt16 := UInt16.ofNat (read16 v off)

/-- The 32-bit word at offset `off`. -/
def word32 (v : Nat → UInt8) (off : Nat) : UInt32 := UInt32.ofNat (read32 v off)

def ShortDirEntry.ofBytes (v : Nat → UInt8) : ShortDirEntry where
  name := Vector.ofFn fun i => v i
  attr := v 11
  rsvd := v 12
  crtTs2 := ⟨v 13, ⟨word16 v 14, word16 v 16⟩⟩
  lstAccDate := word16 v 18
  fstClusHigh := word16 v 20
  wrtTs := ⟨word16 v 22, word16 v 24⟩
  fstClusLow := word16 v 26
  fileSz := word32 v 28

def ShortDirEntry.bytes (e : ShortDirEntry) : List UInt8 :=
  e.name.toList ++ [e.attr, e.rsvd, e.crtTs2.tt] ++ le16 e.crtTs2.ts.time.toNat ++
    le16 e.crtTs2.ts.date.toNat ++ le16 e.lstAccDate.toNat ++ le16 e.fstClusHigh.toNat ++
    le16 e.wrtTs.time.toNat ++ le16 e.wrtTs.date.toNat ++ le16 e.fstClusLow.toNat ++ le32 e.fileSz.toNat

def LongDirEntry.ofBytes (v : Nat → UInt8) : LongDirEntry where
  ord := v 0
  name1 := Vector.ofFn fun i => v (1 + i)
  attr := v 11
  type := v 12
  chkSum := v 13
  name2 := Vector.ofFn fun i => v (14 + i)
  fstClusLow := word16 v 26
  name3 := Vector.ofFn fun i => v (28 + i)

def LongDirEntry.bytes (e : LongDirEntry) : List UInt8 :=
  [e.ord] ++ e.name1.toList ++ [e.attr, e.type, e.chkSum] ++ e.name2.toList ++ le16 e.fstClusLow.toNat ++
    e.name3.toList

theorem le16_word16 (v : Nat → UInt8) (off : Nat) :
    le16 (word16 v off).toNat = [v off, v (off + 1)] := by
  have hlt := read16_lt v off
  have h0 := (v off).toNat_lt
  have hlow : read16 v off % 2 ^ 8 = (v off).toNat := by
    simp only [read16]
    omega
  have hhigh : read16 v off / 2 ^ 8 = (v (off + 1)).toNat := by
    simp only [read16]
    omega
  have hword : (word16 v off).toNat = read16 v off := by
    rw [word16, UInt16.toNat_ofNat', Nat.mod_eq_of_lt hlt]
  have hfst : UInt8.ofNat (read16 v off) = v off := by
    rw [← UInt8.ofNat_mod_size]
    exact hlow ▸ UInt8.ofNat_toNat
  rw [hword, le16, hhigh, hfst, UInt8.ofNat_toNat]

private theorem le32_word32 (v : Nat → UInt8) (off : Nat) :
    le32 (word32 v off).toNat = [v off, v (off + 1), v (off + 2), v (off + 3)] := by
  have hlt := read32_lt v off
  have h0 := (v off).toNat_lt
  have h1 := (v (off + 1)).toNat_lt
  have h2 := (v (off + 2)).toNat_lt
  have h3 := (v (off + 3)).toNat_lt
  have hbyte : ∀ {n : Nat} {b : UInt8}, n % 2 ^ 8 = b.toNat → UInt8.ofNat n = b := by
    intro n b hn
    rw [← UInt8.ofNat_mod_size]
    exact hn ▸ UInt8.ofNat_toNat
  have hword : (word32 v off).toNat = read32 v off := by
    rw [word32, UInt32.toNat_ofNat', Nat.mod_eq_of_lt hlt]
  rw [hword, le32, hbyte (b := v off), hbyte (b := v (off + 1)), hbyte (b := v (off + 2)),
    hbyte (b := v (off + 3))]
  all_goals simp only [read32]; omega

theorem ShortDirEntry.bytes_ofBytes (v : Nat → UInt8) :
    (ShortDirEntry.ofBytes v).bytes = (List.range kDirEntrySize).map v := by
  simp only [ShortDirEntry.bytes, ShortDirEntry.ofBytes, le16_word16, le32_word32, Vector.toList_ofFn]
  rfl

theorem LongDirEntry.bytes_ofBytes (v : Nat → UInt8) :
    (LongDirEntry.ofBytes v).bytes = (List.range kDirEntrySize).map v := by
  simp only [LongDirEntry.bytes, LongDirEntry.ofBytes, le16_word16, Vector.toList_ofFn]
  rfl

@[simp] theorem ShortDirEntry.length_bytes (e : ShortDirEntry) : e.bytes.length = kDirEntrySize := by
  simp [ShortDirEntry.bytes, kDirEntrySize]

@[simp] theorem LongDirEntry.length_bytes (e : LongDirEntry) : e.bytes.length = kDirEntrySize := by
  simp [LongDirEntry.bytes, kDirEntrySize]

theorem le16_inj {w w' : UInt16} (h : le16 w.toNat = le16 w'.toNat) : w = w' := by
  have hlt := w.toNat_lt
  have hlt' := w'.toNat_lt
  simp only [le16, List.cons.injEq, and_true, ← UInt8.toNat_inj, UInt8.toNat_ofNat'] at h
  rw [← UInt16.toNat_inj]
  omega

private theorem le32_inj {w w' : UInt32} (h : le32 w.toNat = le32 w'.toNat) : w = w' := by
  have hlt := w.toNat_lt
  have hlt' := w'.toNat_lt
  simp only [le32, List.cons.injEq, and_true, ← UInt8.toNat_inj, UInt8.toNat_ofNat'] at h
  rw [← UInt32.toNat_inj]
  omega

theorem ShortDirEntry.bytes_injective : Function.Injective ShortDirEntry.bytes := by
  rintro ⟨name, attr, rsvd, ⟨tt, time, date⟩, acc, high, ⟨wtime, wdate⟩, low, sz⟩
    ⟨name', attr', rsvd', ⟨tt', time', date'⟩, acc', high', ⟨wtime', wdate'⟩, low', sz'⟩ h
  simp only [ShortDirEntry.bytes] at h
  obtain ⟨h, hsz⟩ := List.append_inj h (by simp)
  obtain ⟨h, hlow⟩ := List.append_inj h (by simp)
  obtain ⟨h, hwdate⟩ := List.append_inj h (by simp)
  obtain ⟨h, hwtime⟩ := List.append_inj h (by simp)
  obtain ⟨h, hhigh⟩ := List.append_inj h (by simp)
  obtain ⟨h, hacc⟩ := List.append_inj h (by simp)
  obtain ⟨h, hdate⟩ := List.append_inj h (by simp)
  obtain ⟨h, htime⟩ := List.append_inj h (by simp)
  obtain ⟨hname, hrest⟩ := List.append_inj h (by simp)
  obtain rfl := Vector.toList_inj.mp hname
  obtain ⟨rfl, rfl, rfl⟩ : attr = attr' ∧ rsvd = rsvd' ∧ tt = tt' := by simpa using hrest
  rw [le16_inj htime, le16_inj hdate, le16_inj hacc, le16_inj hhigh, le16_inj hwtime, le16_inj hwdate,
    le16_inj hlow, le32_inj hsz]

theorem LongDirEntry.bytes_injective : Function.Injective LongDirEntry.bytes := by
  rintro ⟨ord, name1, attr, type, chk, name2, low, name3⟩
    ⟨ord', name1', attr', type', chk', name2', low', name3'⟩ h
  simp only [LongDirEntry.bytes] at h
  obtain ⟨h, hname3⟩ := List.append_inj h (by simp)
  obtain ⟨h, hlow⟩ := List.append_inj h (by simp)
  obtain ⟨h, hname2⟩ := List.append_inj h (by simp)
  obtain ⟨h, hmid⟩ := List.append_inj h (by simp)
  obtain ⟨hord, hname1⟩ := List.append_inj h (by simp)
  obtain rfl := Vector.toList_inj.mp hname1
  obtain rfl := Vector.toList_inj.mp hname2
  obtain rfl := Vector.toList_inj.mp hname3
  obtain rfl : ord = ord' := by simpa using hord
  obtain ⟨rfl, rfl, rfl⟩ : attr = attr' ∧ type = type' ∧ chk = chk' := by simpa using hmid
  rw [le16_inj hlow]

theorem ShortDirEntry.ofBytes_eq {v : Nat → UInt8} {e : ShortDirEntry}
    (h : (List.range kDirEntrySize).map v = e.bytes) : ShortDirEntry.ofBytes v = e :=
  ShortDirEntry.bytes_injective ((ShortDirEntry.bytes_ofBytes v).trans h)

theorem LongDirEntry.ofBytes_eq {v : Nat → UInt8} {e : LongDirEntry}
    (h : (List.range kDirEntrySize).map v = e.bytes) : LongDirEntry.ofBytes v = e :=
  LongDirEntry.bytes_injective ((LongDirEntry.bytes_ofBytes v).trans h)

def castLongDirEntryToShort (l_dir_entry : LongDirEntry) : ShortDirEntry :=
  .ofBytes fun i => l_dir_entry.bytes.getD i 0

def castShortDirEntryToLong (s_dir_entry : ShortDirEntry) : LongDirEntry :=
  .ofBytes fun i => s_dir_entry.bytes.getD i 0

theorem map_range_getD {α : Type*} (l : List α) (a : α) {n : Nat} (hn : l.length = n) :
    (List.range n).map (fun i => l.getD i a) = l := by
  refine List.ext_getElem (by simp [hn]) fun i hi hi' => ?_
  simp [List.getD_eq_getElem?_getD, hi']

@[simp] theorem bytes_castLongDirEntryToShort (e : LongDirEntry) :
    (castLongDirEntryToShort e).bytes = e.bytes :=
  (ShortDirEntry.bytes_ofBytes _).trans (map_range_getD _ _ e.length_bytes)

@[simp] theorem bytes_castShortDirEntryToLong (e : ShortDirEntry) :
    (castShortDirEntryToLong e).bytes = e.bytes :=
  (LongDirEntry.bytes_ofBytes _).trans (map_range_getD _ _ e.length_bytes)

@[simp] theorem castLongDirEntryToShort_ofBytes (v : Nat → UInt8) :
    castLongDirEntryToShort (.ofBytes v) = .ofBytes v :=
  ShortDirEntry.bytes_injective (by
    rw [bytes_castLongDirEntryToShort, LongDirEntry.bytes_ofBytes, ShortDirEntry.bytes_ofBytes])

/-! ### What kind of entry -/

def kAttrDirectory : UInt8 := 0x10

def kAttrLongName : UInt8 := 0x0F

def kAttrLongNameMask : UInt8 := 0x3F

def isDirectory (e : ShortDirEntry) : Bool := e.attr &&& kAttrDirectory ≠ 0

def isLongDirEntry (e : LongDirEntry) : Bool := e.attr &&& kAttrLongNameMask = kAttrLongName

def isValidLongDirEntry (e : LongDirEntry) (chk_sum : UInt8) : Bool :=
  isLongDirEntry e ∧ e.type = 0 ∧ e.chkSum = chk_sum ∧ e.fstClusLow = 0

def isEmptyDirEntry (e : LongDirEntry) : Bool := e.ord = 0x00 ∨ e.ord = 0xE5

def isLstEmptyDirEntry (e : LongDirEntry) : Bool := e.ord = 0x00

def setDirEntryEmpty (e : LongDirEntry) : LongDirEntry := { e with ord := 0xE5 }

def setDirEntryLstEmpty (e : LongDirEntry) : LongDirEntry := { e with ord := 0x00 }

def readEntryClusNo (e : ShortDirEntry) : Nat := e.fstClusHigh.toNat * 2 ^ 16 + e.fstClusLow.toNat

def setFstClusNo (e : ShortDirEntry) (clus : Nat) : ShortDirEntry :=
  { e with fstClusHigh := UInt16.ofNat (clus / 2 ^ 16), fstClusLow := UInt16.ofNat clus }

/-! ### Names -/

/-- The conversions of `iconv` between the encodings of names. -/
structure Charset where
  utf8ToGbk : List UInt8 → Option (List UInt8)
  gbkToUtf8 : List UInt8 → Option (List UInt8)
  utf8ToUtf16 : List UInt8 → Option (List UInt8)
  utf16ToUtf8 : List UInt8 → Option (List UInt8)

/-- `name[0]`, which also tells whether the entry is in use. -/
def ShortDirEntry.name0 (e : ShortDirEntry) : UInt8 := e.name[0]

/-- `readShortEntryName`. -/
def readShortEntryName (e : ShortDirEntry) : Exec (List UInt8) := do
  -- `parseEntryType(short_dir_entry) == EntryType::KExist`
  assert (e.name0 ≠ 0xE5 ∧ e.name0 ≠ 0x00)
  let primary := (e.name.toList.take 8).takeWhile (· ≠ 0x20)
  let extension := (e.name.toList.drop 8).takeWhile (· ≠ 0x20)
  return primary.modifyHead (fun c => if c = 0x05 then 0xE5 else c) ++
    if extension = [] then [] else 0x2E :: extension

/-- The code units of a long entry up to the first 0x0000 or 0xFFFF. -/
def longNameUnits : List UInt8 → List UInt8
  | lo :: hi :: rest =>
    if (lo = 0x00 ∧ hi = 0x00) ∨ (lo = 0xFF ∧ hi = 0xFF) then [] else lo :: hi :: longNameUnits rest
  | _ => []

def readLongEntryName (e : LongDirEntry) : List UInt8 :=
  longNameUnits (e.name1.toList ++ e.name2.toList ++ e.name3.toList)

/-- Primary and extension portion of a short name, without the terminators. -/
structure BasisName where
  primary : Vector UInt8 8
  extension : Vector UInt8 3
  deriving DecidableEq

/-- `mkEmptyBasisName` with both portions filled in from the left. -/
def BasisName.fill (primary extension : List UInt8) : BasisName :=
  ⟨Vector.ofFn fun i => primary.getD i 0x20, Vector.ofFn fun i => extension.getD i 0x20⟩

def genBasisNameFromShort (short_name : List UInt8) : Exec BasisName := do
  assert (short_name.length ≤ 12)
  let primary := (short_name.take 8).takeWhile (· ≠ 0x2E)
  -- the character behind the primary portion is skipped as the dot
  return .fill primary ((short_name.drop (primary.length + 1)).take 3)

def chkSum (basis_name : BasisName) : UInt8 :=
  (basis_name.primary.toList ++ basis_name.extension.toList).foldl
    (fun sum c => (if sum &&& 1 ≠ 0 then (0x80 : UInt8) else 0) + (sum >>> 1) + c) 0

end FuseFat32
