import FuseFat32.Fat.DirEntry

/-!
# Generated short names

Every entry group the driver makes ends with a short entry whose name `genBasisNameFromLong` derives from the long one. Nothing looks a file up by that name, but each scan reads it back, rebuilds the 11 bytes from it and compares their checksum with the one in the long entries. Blanks pad both portions, 0x05 stands for a leading 0xE5, and the generator writes all three bytes as they come, so the bytes survive only when none of them is met where it has another meaning.
-/

namespace FuseFat32

/-! ### Making a short name -/

def isInvalidShortEntryChr (val : UInt8) : Bool :=
  (val < 0x20 ∧ val ≠ 0x05) ∨ val ∈ [0x22, 0x2A, 0x2B, 0x2C, 0x2E, 0x2F, 0x3A, 0x3B, 0x3C, 0x3D, 0x3E,
    0x3F, 0x5B, 0x5C, 0x5D, (0x7C : UInt8)]

def isInvalidLongEntryChr (val : UInt8) : Bool :=
  val ∈ [0x5C, 0x2F, 0x3A, 0x2A, 0x3F, 0x22, 0x3C, 0x3E, (0x7C : UInt8)]

/-- `FAT32fs::isValidName`. -/
def isValidName (name : List UInt8) : Bool := name.all fun c => !isInvalidLongEntryChr c

/-- `util::toUpper`, in the C locale. -/
def toUpper (s : List UInt8) : List UInt8 :=
  s.map fun c => if 0x61 ≤ c ∧ c ≤ 0x7A then c - 0x20 else c

def lstrip (s : List UInt8) (a : UInt8) : List UInt8 := s.dropWhile (· = a)

def rstrip (s : List UInt8) (a : UInt8) : List UInt8 := (s.reverse.dropWhile (· = a)).reverse

def strip (s : List UInt8) (a : UInt8) : List UInt8 := rstrip (lstrip s a) a

/-- The upper-case name without leading and trailing blanks and dots, in GBK. -/
def shortNameSource (cs : Charset) (long_name : List UInt8) : Option (List UInt8) :=
  cs.utf8ToGbk (strip (strip (toUpper long_name) 0x20) 0x2E)

/-- The bytes the primary portion is made of. -/
def stemBytes (gbk_str : List UInt8) : List UInt8 := (gbk_str.take 8).takeWhile (· ≠ 0x2E)

/-- The bytes the extension is made of: those behind the last dot. -/
def extensionBytes (gbk_str : List UInt8) : List UInt8 :=
  if 0x2E ∈ gbk_str then ((gbk_str.reverse.takeWhile (· ≠ 0x2E)).reverse).take 3 else []

/-- A byte of the short name. -/
def shortNameChr (c : UInt8) : UInt8 := if isInvalidShortEntryChr c then 0x5F else c

def genBasisNameFromLong (cs : Charset) (long_name : List UInt8) : Exec BasisName := do
  let gbk_str ← shortNameSource cs long_name
  return .fill ((stemBytes gbk_str).map shortNameChr) ((extensionBytes gbk_str).map shortNameChr)

inductive EntryType where
  | kEmpty | kEnd | kExist
  deriving DecidableEq

def parseEntryType (e : ShortDirEntry) : EntryType :=
  if e.name0 = 0xE5 then .kEmpty else if e.name0 = 0x00 then .kEnd else .kExist

/-- `mkShortDirEntry`, at the time `now`. -/
def mkShortDirEntry (basis_name : BasisName) (is_dir : Bool) (now : FatTimeStamp2) : ShortDirEntry :=
  setFstClusNo
    { name := basis_name.primary ++ basis_name.extension
      attr := if is_dir then kAttrDirectory else 0
      rsvd := 0
      crtTs2 := now
      lstAccDate := now.ts.date
      fstClusHigh := 0
      wrtTs := now.ts
      fstClusLow := 0
      fileSz := 0 } 0

/-! ### Blanks -/

/-- Blanks stand only at the end. -/
def BlanksLast (l : List UInt8) : Prop := l.Pairwise fun a b => a = 0x20 → b = 0x20

instance (l : List UInt8) : Decidable (BlanksLast l) := inferInstanceAs (Decidable (List.Pairwise _ l))

private theorem eq_replicate_of_blanks {l : List UInt8} (h : ∀ b ∈ l, b = 0x20) :
    List.replicate l.length 0x20 = l :=
  (List.eq_replicate_of_mem h).symm

/-- Cutting a portion at its first blank and padding it again gives it back when no other byte follows the blank. -/
theorem takeWhile_pad_iff {l : List UInt8} :
    l.takeWhile (· ≠ 0x20) ++ List.replicate (l.length - (l.takeWhile (· ≠ 0x20)).length) 0x20 = l ↔
      BlanksLast l := by
  induction l with
  | nil => simp [BlanksLast]
  | cons a l ih =>
    rw [BlanksLast, List.pairwise_cons]
    by_cases ha : a = 0x20
    · subst ha
      have hcut : (0x20 :: l).takeWhile (· ≠ (0x20 : UInt8)) = [] := by simp
      rw [hcut, List.nil_append, List.length_nil, Nat.sub_zero, List.length_cons, List.replicate_succ,
        List.cons.injEq, and_iff_right rfl]
      constructor
      · intro h
        have hall : ∀ b ∈ l, b = 0x20 := fun b hb => List.eq_of_mem_replicate (h ▸ hb)
        refine ⟨fun b hb _ => hall b hb, ?_⟩
        exact List.pairwise_of_forall_mem_list fun _ _ b hb _ => hall b hb
      · exact fun h => eq_replicate_of_blanks fun b hb => h.1 b hb rfl
    · have hcut : (a :: l).takeWhile (· ≠ 0x20) = a :: l.takeWhile (· ≠ 0x20) := by simp [ha]
      rw [hcut, List.cons_append, List.length_cons, List.length_cons, Nat.add_sub_add_right,
        List.cons.injEq, and_iff_right rfl, ih, BlanksLast]
      exact (and_iff_right fun b _ h => absurd h ha).symm

theorem blanksLast_pad {l : List UInt8} {k : Nat} :
    BlanksLast (l ++ List.replicate k 0x20) ↔ BlanksLast l := by
  rw [BlanksLast, List.pairwise_append]
  constructor
  · exact fun h => h.1
  · intro h
    refine ⟨h, ?_, fun a _ b hb _ => List.eq_of_mem_replicate hb⟩
    exact List.pairwise_of_forall_mem_list fun _ _ b hb _ => List.eq_of_mem_replicate hb

private theorem shortNameChr_eq_blank {c : UInt8} : shortNameChr c = 0x20 ↔ c = 0x20 := by
  by_cases hc : isInvalidShortEntryChr c = true
  · have hne : c ≠ 0x20 := by
      rintro rfl
      exact absurd hc (by decide)
    rw [shortNameChr, if_pos hc]
    exact iff_of_false (by decide) hne
  · rw [shortNameChr, if_neg hc]

theorem blanksLast_map {l : List UInt8} : BlanksLast (l.map shortNameChr) ↔ BlanksLast l := by
  rw [BlanksLast, List.pairwise_map]
  simp only [shortNameChr_eq_blank]
  rfl

/-! ### Reading a short name back -/

theorem ofFn_getD_eq {l : List UInt8} {n : Nat} (hl : l.length ≤ n) :
    List.ofFn (fun i : Fin n => l.getD i 0x20) = l ++ List.replicate (n - l.length) 0x20 := by
  apply List.ext_getElem
  · simp [hl]
  · intro i hi hi'
    rw [List.getElem_ofFn, List.getElem_append]
    split
    · next hlt => simp [List.getD_eq_getElem?_getD, hlt]
    · next hge => simp [List.getD_eq_getElem?_getD, Nat.not_lt.mp hge]

theorem toList_fill {p x : List UInt8} (hp : p.length ≤ 8) (hx : x.length ≤ 3) :
    (BasisName.fill p x).primary.toList = p ++ List.replicate (8 - p.length) 0x20 ∧
      (BasisName.fill p x).extension.toList = x ++ List.replicate (3 - x.length) 0x20 := by
  simp only [BasisName.fill, Vector.toList_ofFn]
  exact ⟨ofFn_getD_eq hp, ofFn_getD_eq hx⟩

private theorem BasisName.eq_iff {b b' : BasisName} :
    b = b' ↔ b.primary.toList = b'.primary.toList ∧ b.extension.toList = b'.extension.toList := by
  obtain ⟨p, x⟩ := b
  obtain ⟨p', x'⟩ := b'
  rw [BasisName.mk.injEq, Vector.toList_inj, Vector.toList_inj]

theorem genBasisNameFromShort_eq {s : List UInt8} (hs : s.length ≤ 12) :
    genBasisNameFromShort s = some (.fill ((s.take 8).takeWhile (· ≠ 0x2E))
      ((s.drop (((s.take 8).takeWhile (· ≠ 0x2E)).length + 1)).take 3)) := by
  rw [genBasisNameFromShort, decide_eq_true hs, assert_true]
  rfl

/-- Both portions, joined by a dot when there is an extension, are taken apart again. -/
theorem genBasisNameFromShort_join {p x : List UInt8} (hp : p.length ≤ 8) (hx : x.length ≤ 3)
    (hdot : 0x2E ∉ p) :
    genBasisNameFromShort (p ++ if x = [] then [] else 0x2E :: x) = some (.fill p x) := by
  have hall : p.takeWhile (· ≠ (0x2E : UInt8)) = p := by
    rw [List.takeWhile_eq_self_iff]
    exact fun c hc => by simpa using ne_of_mem_of_not_mem hc hdot
  by_cases hnil : x = []
  · subst hnil
    rw [if_pos rfl, List.append_nil, genBasisNameFromShort_eq (by omega), List.take_of_length_le hp, hall,
      List.drop_eq_nil_of_le (by omega), List.take_nil]
  · have hpos := List.length_pos_iff.mpr hnil
    have hstem : ((p ++ 0x2E :: x).take 8).takeWhile (· ≠ (0x2E : UInt8)) = p := by
      rw [List.take_append, List.take_of_length_le hp, List.takeWhile_append_of_pos (by
        exact fun c hc => by simpa using ne_of_mem_of_not_mem hc hdot)]
      cases 8 - p.length with
      | zero => simp
      | succ k => simp
    have hext : (p ++ 0x2E :: x).drop (p.length + 1) = x := by
      rw [← List.drop_drop, List.drop_left, List.drop_one, List.tail_cons]
    rw [if_neg hnil, genBasisNameFromShort_eq (by
      rw [List.length_append, List.length_cons]
      omega), hstem, hext, List.take_of_length_le hx]

theorem toList_name_mkShortDirEntry (b : BasisName) (is_dir : Bool) (now : FatTimeStamp2) :
    (mkShortDirEntry b is_dir now).name.toList = b.primary.toList ++ b.extension.toList :=
  Vector.toList_append ..

/-- What the first byte of a portion is read as. -/
def unescape (c : UInt8) : UInt8 := if c = 0x05 then 0xE5 else c

private theorem unescape_eq_self {c : UInt8} : unescape c = c ↔ c ≠ 0x05 := by
  rw [unescape]
  split
  · next h => exact iff_of_false (fun h' => absurd (h'.trans h) (by decide)) (by simpa using h)
  · next h => exact iff_of_true rfl h

private theorem dot_notMem_modifyHead {l : List UInt8} (h : 0x2E ∉ l) : 0x2E ∉ l.modifyHead unescape := by
  cases l with
  | nil => simp
  | cons c l =>
    rw [List.modifyHead_cons, List.mem_cons]
    rintro (hc | hc)
    · rw [unescape] at hc
      split at hc
      · exact absurd hc (by decide)
      · exact h (hc ▸ List.mem_cons_self)
    · exact h (List.mem_cons_of_mem c hc)

private theorem readShortEntryName_mkShortDirEntry {b : BasisName} {is_dir : Bool} {now : FatTimeStamp2}
    (hexist : parseEntryType (mkShortDirEntry b is_dir now) = .kExist) :
    readShortEntryName (mkShortDirEntry b is_dir now) =
      some ((b.primary.toList.takeWhile (· ≠ 0x20)).modifyHead unescape ++
        if b.extension.toList.takeWhile (· ≠ 0x20) = [] then []
        else 0x2E :: b.extension.toList.takeWhile (· ≠ 0x20)) := by
  have hfst : (mkShortDirEntry b is_dir now).name0 ≠ 0xE5 ∧
      (mkShortDirEntry b is_dir now).name0 ≠ 0x00 := by
    rw [parseEntryType] at hexist
    split at hexist
    · exact absurd hexist (by decide)
    · split at hexist
      · exact absurd hexist (by decide)
      · next h₁ h₂ => exact ⟨h₁, h₂⟩
  have hlen : b.primary.toList.length = 8 := Vector.length_toList
  rw [readShortEntryName, decide_eq_true hfst, assert_true, toList_name_mkShortDirEntry,
    List.take_left' hlen, List.drop_left' hlen]
  rfl

/-- Reading a portion cuts it at its first blank and undoes the escape of its first byte. -/
theorem modifyHead_pad_iff {l : List UInt8} :
    (l.takeWhile (· ≠ 0x20)).modifyHead unescape ++
        List.replicate (l.length - ((l.takeWhile (· ≠ 0x20)).modifyHead unescape).length) 0x20 = l ↔
      l.head? ≠ some 0x05 ∧ BlanksLast l := by
  rw [List.length_modifyHead, ← takeWhile_pad_iff]
  cases l with
  | nil => simp
  | cons a l =>
    by_cases ha : a = 0x20
    · subst ha
      simp
    · have hcut : (a :: l).takeWhile (· ≠ 0x20) = a :: l.takeWhile (· ≠ 0x20) := by simp [ha]
      rw [hcut, List.modifyHead_cons, List.cons_append, List.cons_append, List.cons.injEq, List.cons.injEq,
        unescape_eq_self, List.head?_cons]
      simp

/-! ### When a generated name survives -/

/-- A short name that was stored is met as an existing entry, and its 11 bytes and their checksum are rebuilt from what is read. -/
structure ShortNameKept (basis_name : BasisName) (e : ShortDirEntry) : Prop where
  exist : parseEntryType e = .kExist
  rebuilt : (readShortEntryName e).bind genBasisNameFromShort = some basis_name
  checked : ((readShortEntryName e).bind genBasisNameFromShort).map chkSum = some (chkSum basis_name)

/-- The first byte is not one with a meaning of its own, and blanks only pad. -/
structure ShortNameSafe (gbk_str : List UInt8) : Prop where
  escape : gbk_str.head? ≠ some 0x05
  deleted : gbk_str.head? ≠ some 0xE5
  stem : BlanksLast (stemBytes gbk_str)
  extension : BlanksLast (extensionBytes gbk_str)

section kept

variable {gbk_str : List UInt8}

private theorem length_stemBytes : (stemBytes gbk_str).length ≤ 8 :=
  ((List.takeWhile_prefix _).length_le).trans (List.length_take_le 8 gbk_str)

private theorem length_extensionBytes : (extensionBytes gbk_str).length ≤ 3 := by
  rw [extensionBytes]
  split
  · exact List.length_take_le 3 _
  · exact Nat.zero_le 3

private theorem dot_notMem_stem : 0x2E ∉ (stemBytes gbk_str).map shortNameChr := by
  rw [List.mem_map]
  rintro ⟨c, -, hc⟩
  rw [shortNameChr] at hc
  split at hc
  · exact absurd hc (by decide)
  · next hvalid =>
    subst hc
    exact hvalid (by decide)

/-- Replacing the illegal bytes neither makes nor hides the two special first bytes. -/
theorem head_shortNameChr {c d : UInt8} (hd : d = 0x05 ∨ d = 0xE5) : shortNameChr c = d ↔ c = d := by
  by_cases hc : isInvalidShortEntryChr c = true
  · rw [shortNameChr, if_pos hc]
    refine iff_of_false ?_ ?_
    · rcases hd with rfl | rfl <;> decide
    · rintro rfl
      rcases hd with rfl | rfl <;> exact absurd hc (by decide)
  · rw [shortNameChr, if_neg hc]

private theorem head_stem {d : UInt8} (hd : d = 0x05 ∨ d = 0xE5) (k : Nat) :
    ((stemBytes gbk_str).map shortNameChr ++ List.replicate k 0x20).head? = some d ↔
      gbk_str.head? = some d := by
  have hblank : d ≠ 0x20 ∧ d ≠ 0x2E := by rcases hd with rfl | rfl <;> decide
  cases gbk_str with
  | nil =>
    refine iff_of_false (fun h => ?_) (by simp)
    have hmem := List.mem_of_mem_head? (Option.mem_def.mpr h)
    rw [stemBytes, List.take_nil, List.takeWhile_nil, List.map_nil, List.nil_append] at hmem
    exact hblank.1 (List.eq_of_mem_replicate hmem)
  | cons c rest =>
    by_cases hdot : c = 0x2E
    · subst hdot
      refine iff_of_false (fun h => ?_) (fun h => hblank.2 (Option.some.inj h).symm)
      have hmem := List.mem_of_mem_head? (Option.mem_def.mpr h)
      rw [show stemBytes (0x2E :: rest) = [] by simp [stemBytes], List.map_nil, List.nil_append] at hmem
      exact hblank.1 (List.eq_of_mem_replicate hmem)
    · rw [show stemBytes (c :: rest) = c :: (rest.take 7).takeWhile (· ≠ 0x2E) by simp [stemBytes, hdot],
        List.map_cons, List.cons_append, List.head?_cons, List.head?_cons, Option.some.injEq,
        Option.some.injEq, head_shortNameChr hd]

private theorem zero_notMem_stem (k : Nat) :
    0x00 ∉ (stemBytes gbk_str).map shortNameChr ++ List.replicate k 0x20 := by
  rw [List.mem_append, List.mem_map]
  rintro (⟨c, -, hc⟩ | hmem)
  · rw [shortNameChr] at hc
    split at hc
    · exact absurd hc (by decide)
    · next hvalid =>
      subst hc
      exact hvalid (by decide)
  · exact absurd (List.eq_of_mem_replicate hmem) (by decide)

private theorem head_name_mkShortDirEntry (b : BasisName) (is_dir : Bool) (now : FatTimeStamp2) :
    b.primary.toList.head? = some (mkShortDirEntry b is_dir now).name0 := by
  have hlen : b.primary.toList.length = 8 := Vector.length_toList
  have hhead := congrArg (·[0]?) (toList_name_mkShortDirEntry b is_dir now)
  simp only [List.getElem?_append_left (show 0 < b.primary.toList.length by omega)] at hhead
  rw [List.head?_eq_getElem?, ← hhead, Vector.getElem?_toList, Vector.getElem?_eq_getElem, ShortDirEntry.name0]

/-- A generated name survives exactly when its bytes are safe. -/
theorem shortNameKept_iff {basis_name : BasisName}
    (hb : basis_name = .fill ((stemBytes gbk_str).map shortNameChr)
      ((extensionBytes gbk_str).map shortNameChr)) (is_dir : Bool) (now : FatTimeStamp2) :
    ShortNameKept basis_name (mkShortDirEntry basis_name is_dir now) ↔ ShortNameSafe gbk_str := by
  obtain ⟨hprim, hext⟩ := toList_fill (p := (stemBytes gbk_str).map shortNameChr)
    (x := (extensionBytes gbk_str).map shortNameChr) (by rw [List.length_map]; exact length_stemBytes)
    (by rw [List.length_map]; exact length_extensionBytes)
  rw [← hb] at hprim hext
  have hhead := head_name_mkShortDirEntry basis_name is_dir now
  -- the stored first byte is the escape mark or the mark of an empty entry when that of the name is
  have hfst : ∀ d : UInt8, d = 0x05 ∨ d = 0xE5 →
      (basis_name.primary.toList.head? = some d ↔ gbk_str.head? = some d) := by
    intro d hd
    rw [hprim]
    exact head_stem hd _
  have hexist : parseEntryType (mkShortDirEntry basis_name is_dir now) = .kExist ↔
      gbk_str.head? ≠ some 0xE5 := by
    have hzero : (mkShortDirEntry basis_name is_dir now).name0 ≠ 0x00 := by
      intro hz
      rw [hz] at hhead
      have hmem := List.mem_of_mem_head? (Option.mem_def.mpr hhead)
      rw [hprim] at hmem
      exact zero_notMem_stem _ hmem
    rw [ne_eq, ← hfst 0xE5 (.inr rfl), hhead, Option.some.injEq, parseEntryType]
    by_cases h : (mkShortDirEntry basis_name is_dir now).name0 = 0xE5
    · rw [if_pos h]
      exact iff_of_false (by decide) (fun hne => hne h)
    · rw [if_neg h, if_neg hzero]
      exact iff_of_true rfl h
  have hrebuilt : parseEntryType (mkShortDirEntry basis_name is_dir now) = .kExist →
      ((readShortEntryName (mkShortDirEntry basis_name is_dir now)).bind genBasisNameFromShort =
          some basis_name ↔
        gbk_str.head? ≠ some 0x05 ∧ BlanksLast (stemBytes gbk_str) ∧ BlanksLast (extensionBytes gbk_str)) := by
    intro h
    have hlen : basis_name.primary.toList.length = 8 := Vector.length_toList
    have hlen' : basis_name.extension.toList.length = 3 := Vector.length_toList
    have hcut := (List.takeWhile_prefix (l := basis_name.primary.toList) (· ≠ (0x20 : UInt8))).length_le
    have hcut' := (List.takeWhile_prefix (l := basis_name.extension.toList) (· ≠ (0x20 : UInt8))).length_le
    have hdot : 0x2E ∉ (basis_name.primary.toList.takeWhile (· ≠ 0x20)).modifyHead unescape := by
      apply dot_notMem_modifyHead
      intro hmem
      have hmem := (List.takeWhile_prefix _).subset hmem
      rw [hprim, List.mem_append] at hmem
      rcases hmem with hmem | hmem
      · exact dot_notMem_stem hmem
      · exact absurd (List.eq_of_mem_replicate hmem) (by decide)
    have hpad := modifyHead_pad_iff (l := basis_name.primary.toList)
    have hpad' := takeWhile_pad_iff (l := basis_name.extension.toList)
    rw [hlen] at hpad hcut
    rw [hlen'] at hpad' hcut'
    obtain ⟨hp, hx⟩ := toList_fill
      (p := (basis_name.primary.toList.takeWhile (· ≠ 0x20)).modifyHead unescape)
      (x := basis_name.extension.toList.takeWhile (· ≠ 0x20))
      (by rw [List.length_modifyHead]; exact hcut) hcut'
    rw [readShortEntryName_mkShortDirEntry h, Option.bind_some,
      genBasisNameFromShort_join (by rw [List.length_modifyHead]; exact hcut) hcut' hdot,
      Option.some.injEq, BasisName.eq_iff, hp, hx, hpad, hpad', ne_eq, hfst 0x05 (.inl rfl), hprim, hext,
      blanksLast_pad, blanksLast_pad, blanksLast_map, blanksLast_map, and_assoc]
  constructor
  · intro hkept
    obtain ⟨hescape, hstem, hextension⟩ := (hrebuilt hkept.exist).mp hkept.rebuilt
    exact ⟨hescape, hexist.mp hkept.exist, hstem, hextension⟩
  · intro hsafe
    have h := hexist.mpr hsafe.deleted
    have hrun := (hrebuilt h).mpr ⟨hsafe.escape, hsafe.stem, hsafe.extension⟩
    refine ⟨h, hrun, ?_⟩
    rw [hrun]
    rfl

end kept

/-- The generated name of a long name survives its way through a short entry exactly when its GBK bytes are safe. -/
theorem genBasisNameFromLong_kept_iff (cs : Charset) (name gbk_str : List UInt8)
    (hgbk : shortNameSource cs name = some gbk_str) :
    ∃ basis_name, genBasisNameFromLong cs name = some basis_name ∧ ∀ is_dir now,
      (ShortNameKept basis_name (mkShortDirEntry basis_name is_dir now) ↔ ShortNameSafe gbk_str) := by
  refine ⟨_, ?_, fun is_dir now => shortNameKept_iff rfl is_dir now⟩
  rw [genBasisNameFromLong, hgbk]
  rfl

/-- `iconv` on names of ASCII characters. -/
def asciiCharset : Charset where
  utf8ToGbk s := if s.all (· < 0x80) then some s else none
  gbkToUtf8 s := if s.all (· < 0x80) then some s else none
  utf8ToUtf16 s := if s.all (· < 0x80) then some (s.flatMap fun c => [c, 0x00]) else none
  utf16ToUtf8 s := if s.all (· < 0x80) then some (s.filter (· ≠ 0x00)) else none

theorem genBasisNameFromLong_kept_iff_ab : ∃ basis_name,
    genBasisNameFromLong asciiCharset [0x61, 0x2E, 0x62] = some basis_name ∧ ∀ is_dir now,
      (ShortNameKept basis_name (mkShortDirEntry basis_name is_dir now) ↔
        ShortNameSafe [0x41, 0x2E, 0x42]) :=
  genBasisNameFromLong_kept_iff asciiCharset [0x61, 0x2E, 0x62] [0x41, 0x2E, 0x42] (by decide)

/-- The blank of `a b` ends its short name, and the checksum no longer fits. -/
theorem not_shortNameKept_blank : isValidName [0x61, 0x20, 0x62] = true ∧ ∃ basis_name,
    genBasisNameFromLong asciiCharset [0x61, 0x20, 0x62] = some basis_name ∧ ∀ is_dir now,
      ((readShortEntryName (mkShortDirEntry basis_name is_dir now)).bind genBasisNameFromShort).map chkSum ≠
          some (chkSum basis_name) ∧
        ¬ ShortNameKept basis_name (mkShortDirEntry basis_name is_dir now) := by
  refine ⟨by decide, .fill [0x41, 0x20, 0x42] [], by decide, fun is_dir now => ?_⟩
  have hchk : ((readShortEntryName (mkShortDirEntry (.fill [0x41, 0x20, 0x42] []) is_dir now)).bind
      genBasisNameFromShort).map chkSum ≠ some (chkSum (.fill [0x41, 0x20, 0x42] [])) := by
    have hname : readShortEntryName (mkShortDirEntry (.fill [0x41, 0x20, 0x42] []) is_dir now) =
      readShortEntryName (mkShortDirEntry (.fill [0x41, 0x20, 0x42] []) false ⟨0, ⟨0, 0⟩⟩) := rfl
    rw [hname]
    decide +kernel
  exact ⟨hchk, fun hkept => hchk hkept.checked⟩

end FuseFat32
