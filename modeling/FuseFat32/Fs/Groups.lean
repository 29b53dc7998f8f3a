import FuseFat32.Fs.DirScan

/-!
# Entry groups

A file has a group of entries in its directory: long entries with the parts of its name from the last to the first, and a short one. Deleted entries may lie between the groups, and no group lies behind the first end marker. The loop of `lookupFileInner` carries what it has read of a group from entry to entry, and over a directory of this kind it returns the first group of the name it looks for.
-/

namespace FuseFat32

open Segments

/-- The ordinals of `k` long entries. -/
def descendingOrds (k : Nat) : List UInt8 :=
  (List.range k).map fun i => UInt8.ofNat (if i = 0 then kLastLongEntry ||| k else k - i)

/-- A live group of a directory: long entries in descending order with the checksum the short entry leads to, and the short entry. -/
structure EntryGroup where
  longs : List LongDirEntry
  short : LongDirEntry
  liveLongs : ∀ e ∈ longs, isEmptyDirEntry e = false
  ords : longs.map LongDirEntry.ord = descendingOrds longs.length
  live : isEmptyDirEntry short = false
  isShort : isLongDirEntry short = false
  checked : longs ≠ [] → ∃ b, (readShortEntryName (castLongDirEntryToShort short)).bind genBasisNameFromShort =
    some b ∧ ∀ e ∈ longs, isValidLongDirEntry e (chkSum b) = true

/-- A short entry alone. -/
def EntryGroup.ofShort (short : LongDirEntry) (live : isEmptyDirEntry short = false)
    (isShort : isLongDirEntry short = false) : EntryGroup :=
  ⟨[], short, fun _ h => absurd h List.not_mem_nil, rfl, live, isShort, fun h => absurd rfl h⟩

namespace EntryGroup

def entries (g : EntryGroup) : List LongDirEntry := g.longs ++ [g.short]

def size (g : EntryGroup) : Nat := g.longs.length + 1

def shortName (g : EntryGroup) : List UInt8 := (readShortEntryName (castLongDirEntryToShort g.short)).getD []

/-- The name parts put together, the last entry first. -/
def longName (g : EntryGroup) : List UInt8 := g.longs.reverse.flatMap readLongEntryName

/-- The name of the group is the one looked for, in UTF-16 when there are long entries and in GBK otherwise. -/
def Named (utf16_name gbk_name : List UInt8) (g : EntryGroup) : Prop :=
  if g.longs = [] then g.shortName = gbk_name else g.longName = utf16_name

instance (utf16_name gbk_name : List UInt8) (g : EntryGroup) : Decidable (g.Named utf16_name gbk_name) :=
  inferInstanceAs (Decidable (if g.longs = [] then g.shortName = gbk_name else g.longName = utf16_name))

end EntryGroup

/-- The list `es` is a row of groups and deleted entries `segs`, and then `tail`, which is empty or starts with the end marker. -/
structure GroupLayout (es : List LongDirEntry) (segs : List (Segment LongDirEntry EntryGroup))
    (tail : List LongDirEntry) : Prop where
  flat : es = Segments.flat EntryGroup.entries segs ++ tail
  deleted : ∀ e, .blank e ∈ segs → e.ord = 0xE5
  marker : ∀ e ∈ tail.head?, isLstEmptyDirEntry e = true

/-- No group has more long entries than the longest name of the format needs. -/
structure DirLayout (es : List LongDirEntry) (segs : List (Segment LongDirEntry EntryGroup))
    (tail : List LongDirEntry) : Prop extends GroupLayout es segs tail where
  few : ∀ p ∈ blocks EntryGroup.entries 0 segs, p.2.longs.length ≤ 20

theorem DirLayout.of_short {es : List LongDirEntry} {segs : List (Segment LongDirEntry EntryGroup)}
    {tail : List LongDirEntry} (h : GroupLayout es segs tail) (hshort : ∀ g, .block g ∈ segs → g.longs = []) :
    DirLayout es segs tail := by
  refine ⟨h, fun p hp => ?_⟩
  obtain ⟨xs, zs, rfl, -⟩ := exists_of_mem_blocks hp
  rw [hshort p.2 (List.mem_append_right _ List.mem_cons_self)]
  exact Nat.zero_le _

/-- The range of the first group with the name. -/
def dirLookup (segs : List (Segment LongDirEntry EntryGroup)) (utf16_name gbk_name : List UInt8) :
    Option DirEntryRange :=
  ((blocks EntryGroup.entries 0 segs).find? fun p => p.2.Named utf16_name gbk_name).map
    fun p => ⟨p.1, p.2.size⟩

/-! ### What an entry is -/

theorem ord_castLongDirEntryToShort (e : LongDirEntry) : (castLongDirEntryToShort e).name0 = e.ord := by
  have hbytes := bytes_castLongDirEntryToShort e
  rw [ShortDirEntry.name0, castLongDirEntryToShort, ShortDirEntry.ofBytes]
  simp [LongDirEntry.bytes]

private theorem readShortEntryName_of_live {e : LongDirEntry} (h : isEmptyDirEntry e = false) :
    ∃ name, readShortEntryName (castLongDirEntryToShort e) = some name := by
  simp only [isEmptyDirEntry, decide_eq_false_iff_not, not_or] at h
  rw [readShortEntryName, ord_castLongDirEntryToShort]
  simp [h.1, h.2]

namespace EntryGroup

variable (g : EntryGroup)

@[simp] theorem length_entries : g.entries.length = g.size := by simp [entries, size]

theorem shortName_eq : readShortEntryName (castLongDirEntryToShort g.short) = some g.shortName := by
  obtain ⟨name, hname⟩ := readShortEntryName_of_live g.live
  rw [shortName, hname, Option.getD_some]

theorem isEmpty_of_mem {e : LongDirEntry} (he : e ∈ g.entries) : isEmptyDirEntry e = false := by
  rcases List.mem_append.mp he with he | he
  · exact g.liveLongs _ he
  · rw [List.mem_singleton.mp he]
    exact g.live

theorem isLong_of_mem {e : LongDirEntry} (he : e ∈ g.longs) : isLongDirEntry e = true := by
  obtain ⟨b, -, hvalid⟩ := g.checked (List.ne_nil_of_mem he)
  have := hvalid e he
  simp only [isValidLongDirEntry, decide_eq_true_eq] at this
  exact this.1

theorem solid : Solid isEmptyDirEntry entries := fun g =>
  ⟨by simp [entries], fun _ he => g.isEmpty_of_mem he⟩

end EntryGroup

theorem isLstEmpty_of_live {e : LongDirEntry} (h : isEmptyDirEntry e = false) : isLstEmptyDirEntry e = false := by
  simp only [isEmptyDirEntry, decide_eq_false_iff_not, not_or] at h
  simp [isLstEmptyDirEntry, h.1]

theorem isEmpty_of_deleted {e : LongDirEntry} (h : e.ord = 0xE5) :
    isEmptyDirEntry e = true ∧ isLstEmptyDirEntry e = false := by
  simp [isEmptyDirEntry, isLstEmptyDirEntry, h]

/-! ### The loop of `lookupFileInner` -/

/-- The variables between two groups. -/
structure LookupState.Fresh (s : LookupState) : Prop where
  hasLEntry : s.hasLEntry = false
  cnt : s.targetEntryCnt = 0
  name : s.readLongName = []

theorem LookupState.fresh_reset (s : LookupState) : s.reset.Fresh := ⟨rfl, rfl, rfl⟩

section lookup

variable {utf16_name gbk_name : List UInt8} {done : Nat → LookupState → Exec (Option DirEntryRange)}
  {rest : List LongDirEntry} {n : Nat} {s : LookupState} {e : LongDirEntry} {b : BasisName}

theorem lookupStep_long (hlive : isEmptyDirEntry e = false) (hvalid : isValidLongDirEntry e (s.count n e).chkSum = true) :
    lookupStep utf16_name gbk_name n e s =
      some (.inl { s.count n e with hasLEntry := true,
                                    readLongName := readLongEntryName e ++ (s.count n e).readLongName }) := by
  have hlong : isLongDirEntry e = true := by
    simp only [isValidLongDirEntry, decide_eq_true_eq] at hvalid
    exact hvalid.1
  simp [lookupStep, hlive, isLstEmpty_of_live hlive, hlong, hvalid]

theorem lookupStep_short (utf16_name gbk_name : List UInt8) (hlive : isEmptyDirEntry e = false) (hshort : isLongDirEntry e = false)
    {short_name : List UInt8} (hname : readShortEntryName (castLongDirEntryToShort e) = some short_name)
    (hchk : 1 < (s.count n e).targetEntryCnt →
      ∃ b, genBasisNameFromShort short_name = some b ∧ chkSum b = (s.count n e).chkSum) :
    lookupStep utf16_name gbk_name n e s = some (
      if ((s.count n e).hasLEntry ∧ (s.count n e).readLongName = utf16_name) ∨
          (¬ (s.count n e).hasLEntry ∧ short_name = gbk_name) then
        .inr (some ⟨(s.count n e).targetEntryStart, (s.count n e).targetEntryCnt⟩)
      else .inl (s.count n e).reset) := by
  rw [lookupStep, isLstEmpty_of_live hlive, hlive, hshort]
  simp only [Bool.false_eq_true, if_false, Bool.not_false, if_true, hname, Option.bind_eq_bind, Option.bind_some]
  by_cases hone : 1 < (s.count n e).targetEntryCnt
  · obtain ⟨b, hbasis, hsum⟩ := hchk hone
    rw [if_pos hone, hbasis]
    simp only [Option.bind_some, hsum, decide_true, assert_true]
    split_ifs <;> rfl
  · rw [if_neg hone]
    split_ifs <;> rfl

private theorem scan_longs : ∀ {longs : List LongDirEntry} {n start cnt : Nat} {chk : UInt8} {name : List UInt8},
    (∀ e ∈ longs, isEmptyDirEntry e = false ∧ isValidLongDirEntry e chk = true) → 0 < cnt →
    scanList (lookupStep utf16_name gbk_name) done (longs ++ rest) n ⟨true, start, cnt, chk, name⟩ =
      scanList (lookupStep utf16_name gbk_name) done rest (n + longs.length)
        ⟨true, start, cnt + longs.length, chk, longs.reverse.flatMap readLongEntryName ++ name⟩ := by
  intro longs
  induction longs with
  | nil => exact fun _ _ => rfl
  | cons e longs ih =>
    intro n start cnt chk name hvalid hcnt
    obtain ⟨hlive, hchk⟩ := hvalid e List.mem_cons_self
    have hcount : LookupState.count ⟨true, start, cnt, chk, name⟩ n e = ⟨true, start, cnt + 1, chk, name⟩ := by
      rw [LookupState.count, if_neg (by dsimp only; omega)]
    rw [List.cons_append, scanList_next (lookupStep_long hlive (by rw [hcount]; exact hchk)), hcount,
      ih (fun e he => hvalid e (List.mem_cons_of_mem _ he)) (Nat.succ_pos _)]
    simp only [List.reverse_cons, List.flatMap_append, List.flatMap_singleton, List.length_cons,
      List.append_assoc, show n + 1 + longs.length = n + (longs.length + 1) by omega,
      show cnt + 1 + longs.length = cnt + (longs.length + 1) by omega]

theorem scan_longs_fresh {longs : List LongDirEntry} {chk : UInt8} (hne : longs ≠ [])
    (h : ∀ e ∈ longs, isEmptyDirEntry e = false ∧ isValidLongDirEntry e chk = true) (hs : s.Fresh) :
    scanList (lookupStep utf16_name gbk_name) done (longs ++ rest) n s =
      scanList (lookupStep utf16_name gbk_name) done rest (n + longs.length)
        ⟨true, n, longs.length, chk, longs.reverse.flatMap readLongEntryName⟩ := by
  obtain ⟨has, start, cnt, any, name⟩ := s
  obtain ⟨rfl, rfl, rfl⟩ : has = false ∧ cnt = 0 ∧ name = [] := ⟨hs.hasLEntry, hs.cnt, hs.name⟩
  obtain ⟨e, longs, rfl⟩ := List.exists_cons_of_ne_nil hne
  obtain ⟨hlive, hvalid⟩ := h e List.mem_cons_self
  have hchk : e.chkSum = chk := by
    simp only [isValidLongDirEntry, decide_eq_true_eq] at hvalid
    exact hvalid.2.2.1
  have hfirst : LookupState.count ⟨false, start, 0, any, []⟩ n e = ⟨false, n, 1, chk, []⟩ := by
    rw [LookupState.count, if_pos rfl, hchk]
  rw [List.cons_append, scanList_next (lookupStep_long hlive (by rw [hfirst]; exact hvalid)), hfirst]
  dsimp only
  rw [List.append_nil, scan_longs (fun e' he' => h e' (List.mem_cons_of_mem _ he')) Nat.one_pos,
    List.length_cons, List.reverse_cons, List.flatMap_append, List.flatMap_singleton,
    Nat.add_right_comm n 1, Nat.add_assoc n, Nat.add_comm 1]

/-- A whole group is returned when it has the name, and left behind otherwise. -/
theorem scan_group (utf16_name gbk_name : List UInt8) (done : Nat → LookupState → Exec (Option DirEntryRange))
    (rest : List LongDirEntry) (n : Nat) (g : EntryGroup) (hs : s.Fresh) : ∃ s' : LookupState, s'.Fresh ∧
    scanList (lookupStep utf16_name gbk_name) done (g.entries ++ rest) n s =
      if g.Named utf16_name gbk_name then some (some ⟨n, g.size⟩)
      else scanList (lookupStep utf16_name gbk_name) done rest (n + g.size) s' := by
  obtain ⟨has, start, cnt, chk, name⟩ := s
  obtain ⟨rfl, rfl, rfl⟩ : has = false ∧ cnt = 0 ∧ name = [] := ⟨hs.hasLEntry, hs.cnt, hs.name⟩
  rw [EntryGroup.entries, EntryGroup.size]
  cases hlongs : g.longs with
  | nil =>
    have hnamed : g.Named utf16_name gbk_name ↔ g.shortName = gbk_name := by rw [EntryGroup.Named, if_pos hlongs]
    refine ⟨(LookupState.count ⟨false, start, 0, chk, []⟩ n g.short).reset, LookupState.fresh_reset _, ?_⟩
    have hcount : LookupState.count ⟨false, start, 0, chk, []⟩ n g.short = ⟨false, n, 1, g.short.chkSum, []⟩ := by
      rw [LookupState.count, if_pos rfl]
    have hstep := lookupStep_short utf16_name gbk_name g.live g.isShort g.shortName_eq
      (fun hone => absurd hone (by rw [hcount]; exact Nat.lt_irrefl 1))
    rw [hcount] at hstep
    rw [List.nil_append, List.singleton_append]
    by_cases hname : g.shortName = gbk_name
    · rw [if_pos (hnamed.mpr hname)]
      exact scanList_stop (hstep.trans (by simp [hname]))
    · rw [if_neg (hnamed.not.mpr hname), hcount]
      exact scanList_next (hstep.trans (by simp [hname]))
  | cons e longs =>
    obtain ⟨b, hbasis, hvalid⟩ := g.checked (by simp [hlongs])
    have hmem : ∀ e' ∈ e :: longs, isEmptyDirEntry e' = false ∧ isValidLongDirEntry e' (chkSum b) = true :=
      fun e' he' => ⟨g.liveLongs _ (hlongs ▸ he'), hvalid e' (hlongs ▸ he')⟩
    have hnamed : g.Named utf16_name gbk_name ↔ g.longName = utf16_name := by
      rw [EntryGroup.Named, if_neg (by simp [hlongs])]
    rw [g.shortName_eq, Option.bind_some] at hbasis
    refine ⟨LookupState.reset ⟨true, n, longs.length + 2, chkSum b, g.longName⟩, LookupState.fresh_reset _, ?_⟩
    have hlast : LookupState.count ⟨true, n, (e :: longs).length, chkSum b, g.longName⟩ (n + (e :: longs).length)
        g.short = ⟨true, n, longs.length + 2, chkSum b, g.longName⟩ := by
      rw [LookupState.count, if_neg (by simp)]
      rfl
    have hstep := lookupStep_short utf16_name gbk_name g.live g.isShort g.shortName_eq
      (fun _ => ⟨b, hbasis, (congrArg LookupState.chkSum hlast).symm⟩)
    rw [hlast] at hstep
    have hlongName : (e :: longs).reverse.flatMap readLongEntryName = g.longName := by
      rw [EntryGroup.longName, hlongs]
    rw [List.append_assoc, scan_longs_fresh (List.cons_ne_nil e longs) hmem ⟨rfl, rfl, rfl⟩, hlongName,
      List.singleton_append]
    by_cases hname : g.longName = utf16_name
    · rw [if_pos (hnamed.mpr hname)]
      exact scanList_stop (hstep.trans (by simp [hname]))
    · rw [if_neg (hnamed.not.mpr hname), ← Nat.add_assoc]
      exact scanList_next (hstep.trans (by simp [hname]))

/-- Up to the end marker the loop returns the first group of the name. -/
theorem scan_segs (utf16_name gbk_name : List UInt8) (done : Nat → LookupState → Exec (Option DirEntryRange))
    (rest : List LongDirEntry) : ∀ {segs : List (Segment LongDirEntry EntryGroup)} (n : Nat) {s : LookupState},
    (∀ e, .blank e ∈ segs → e.ord = 0xE5) → s.Fresh → ∃ s' : LookupState, s'.Fresh ∧
      scanList (lookupStep utf16_name gbk_name) done (Segments.flat EntryGroup.entries segs ++ rest) n s =
        match (blocks EntryGroup.entries n segs).find? fun p => p.2.Named utf16_name gbk_name with
        | some p => some (some ⟨p.1, p.2.size⟩)
        | none => scanList (lookupStep utf16_name gbk_name) done rest
            (n + (Segments.flat EntryGroup.entries segs).length) s' := by
  intro segs
  induction segs with
  | nil => exact fun _ _ _ hs => ⟨_, hs, rfl⟩
  | cons x segs ih =>
    intro n s hdel hs
    have hdel' : ∀ e, .blank e ∈ segs → e.ord = 0xE5 := fun e he => hdel e (List.mem_cons_of_mem _ he)
    cases x with
    | blank e =>
      have hord := hdel e List.mem_cons_self
      have hstep : lookupStep utf16_name gbk_name n e s = some (.inl s.reset) := by
        simp [lookupStep, isLstEmptyDirEntry, isEmptyDirEntry, hord]
      obtain ⟨s', hs', hrun⟩ := ih (n + 1) hdel' s.fresh_reset
      refine ⟨s', hs', ?_⟩
      rw [flat_cons, elems_blank, List.singleton_append, List.cons_append, scanList_next hstep, hrun, blocks, List.length_cons, show n + 1 + (Segments.flat EntryGroup.entries segs).length =
          n + ((Segments.flat EntryGroup.entries segs).length + 1) by omega]
    | block g =>
      obtain ⟨s₁, hs₁, hgroup⟩ := scan_group utf16_name gbk_name done
        (Segments.flat EntryGroup.entries segs ++ rest) n g hs
      obtain ⟨s', hs', hrun⟩ := ih (n + g.size) hdel' hs₁
      refine ⟨s', hs', ?_⟩
      rw [flat_cons, elems_block, List.append_assoc, hgroup, blocks, g.length_entries]
      by_cases hname : g.Named utf16_name gbk_name
      · rw [if_pos hname, List.find?_cons_of_pos (by simpa using hname)]
      · rw [if_neg hname, List.find?_cons_of_neg (by simpa using hname), hrun, List.length_append,
          g.length_entries, Nat.add_assoc]

end lookup

/-! ### Live entries -/

section layout

variable {es tail : List LongDirEntry} {segs : List (Segment LongDirEntry EntryGroup)} {k : Nat} {e : LongDirEntry}
  {g : EntryGroup}

private theorem GroupLayout.blankOk (h : GroupLayout es segs tail) : BlankOk isEmptyDirEntry segs :=
  fun e he => (isEmpty_of_deleted (h.deleted e he)).1

theorem GroupLayout.isLst_of_mem (h : GroupLayout es segs tail) (he : e ∈ Segments.flat EntryGroup.entries segs) :
    isLstEmptyDirEntry e = false := by
  obtain ⟨x, hx, hex⟩ := List.mem_flatMap.mp he
  cases x with
  | blank a =>
    obtain rfl := List.mem_singleton.mp hex
    exact (isEmpty_of_deleted (h.deleted e hx)).2
  | block g => exact isLstEmpty_of_live (g.isEmpty_of_mem hex)

theorem GroupLayout.live_iff (h : GroupLayout es segs tail) (hk : k < (Segments.flat EntryGroup.entries segs).length)
    (he : es[k]? = some e) : isEmptyDirEntry e = false ↔
      ∃ p ∈ blocks EntryGroup.entries 0 segs, p.1 ≤ k ∧ k < p.1 + p.2.size := by
  rw [h.flat, List.getElem?_append_left hk] at he
  have hiff := not_blank_iff EntryGroup.solid (n := 0) h.blankOk e he
  simpa only [Nat.zero_add, EntryGroup.length_entries] using hiff

theorem group_end_le {p : Nat × EntryGroup}
    (hp : p ∈ blocks EntryGroup.entries 0 segs) : p.1 + p.2.size ≤ (Segments.flat EntryGroup.entries segs).length := by
  have := ((blocks_pairwise _ segs 0).2 p hp).2
  rwa [Nat.zero_add, EntryGroup.length_entries] at this

theorem groups_apart {p q : Nat × EntryGroup} (hp : p ∈ blocks EntryGroup.entries 0 segs)
    (hq : q ∈ blocks EntryGroup.entries 0 segs) (hpk : p.1 ≤ k ∧ k < p.1 + p.2.size)
    (hqk : q.1 ≤ k ∧ k < q.1 + q.2.size) : p = q := by
  have hpair := (blocks_pairwise EntryGroup.entries segs 0).1
  simp only [EntryGroup.length_entries, List.pairwise_iff_getElem] at hpair
  obtain ⟨i, hi, rfl⟩ := List.mem_iff_getElem.mp hp
  obtain ⟨j, hj, rfl⟩ := List.mem_iff_getElem.mp hq
  rcases lt_trichotomy i j with hlt | rfl | hlt
  · have := hpair i j hi hj hlt
    omega
  · rfl
  · have := hpair j i hj hi hlt
    omega

theorem GroupLayout.exists_live (h : GroupLayout es segs tail) {p : Nat × EntryGroup}
    (hp : p ∈ blocks EntryGroup.entries 0 segs) (hlow : p.1 ≤ k) (hhigh : k < p.1 + p.2.size) :
    ∃ e, (Segments.flat EntryGroup.entries segs)[k]? = some e ∧ es[k]? = some e ∧ isEmptyDirEntry e = false := by
  have hlt := Nat.lt_of_lt_of_le hhigh (group_end_le hp)
  have hat : es[k]? = some (Segments.flat EntryGroup.entries segs)[k] := by
    rw [h.flat, List.getElem?_append_left hlt, List.getElem?_eq_getElem hlt]
  exact ⟨_, List.getElem?_eq_getElem hlt, hat, (h.live_iff hlt hat).mpr ⟨p, hp, hlow, hhigh⟩⟩

theorem GroupLayout.getElem?_block (h : GroupLayout es segs tail) {p i : Nat}
    (hmem : (p, g) ∈ blocks EntryGroup.entries 0 segs) (hi : i < g.size) : es[p + i]? = g.entries[i]? := by
  obtain ⟨xs, zs, rfl, rfl⟩ := exists_of_mem_blocks hmem
  rw [h.flat, flat_append, flat_cons, elems_block, Nat.zero_add, List.append_assoc, List.append_assoc,
    List.getElem?_append_right (Nat.le_add_right _ _), Nat.add_sub_cancel_left,
    List.getElem?_append_left (by rwa [EntryGroup.length_entries])]

end layout

/-! ### Lookups -/

/-- What `lookupFileInner` finds in a directory of groups. -/
theorem GroupLayout.lookup {es : List LongDirEntry} {segs : List (Segment LongDirEntry EntryGroup)}
    {tail : List LongDirEntry} (h : GroupLayout es segs tail) (utf16_name gbk_name : List UInt8) :
    scanList (lookupStep utf16_name gbk_name) (fun _ _ => some none) es 0 .init =
      some (dirLookup segs utf16_name gbk_name) := by
  obtain ⟨s', -, hrun⟩ := scan_segs utf16_name gbk_name (fun _ _ => some none) tail 0 h.deleted
    (show LookupState.init.Fresh from ⟨rfl, rfl, rfl⟩)
  have htail : ∀ n s, scanList (lookupStep utf16_name gbk_name) (fun _ _ => some none) tail n s = some none := by
    intro n s
    have hmarker := h.marker
    cases tail with
    | nil => rfl
    | cons e tail => simp [scanList, lookupStep, hmarker e (by simp)]
  rw [h.flat, hrun, dirLookup]
  cases (blocks EntryGroup.entries 0 segs).find? fun p => p.2.Named utf16_name gbk_name with
  | none => exact htail _ _
  | some p => rfl

theorem File.Placed.lookupFileInner_eq {fs : FAT32fs} {dir : File} {l : List Nat} (hm : fs.Mounted)
    (hf : dir.Placed fs l) (hdir : dir.isDir = true) {segs : List (Segment LongDirEntry EntryGroup)}
    {tail : List LongDirEntry} (h : GroupLayout (fs.dirEntries l) segs tail) (cs : Charset) (name : List UInt8)
    (now : FatTimeStamp) : ∃ g, dir.Same g ∧ g.Placed fs l ∧ dir.lookupFileInner cs fs name now =
      (cs.utf8ToUtf16 name).bind fun utf16_name => (cs.utf8ToGbk (toUpper name)).map fun gbk_name =>
        (dirLookup segs utf16_name gbk_name, g) := by
  cases hu : cs.utf8ToUtf16 name with
  | none => exact ⟨dir, rfl, hf, by simp [File.lookupFileInner, hu]⟩
  | some utf16_name =>
    cases hg : cs.utf8ToGbk (toUpper name) with
    | none => exact ⟨dir, rfl, hf, by simp [File.lookupFileInner, hu, hg]⟩
    | some gbk_name =>
      obtain ⟨g, hsame, hplaced, hrun⟩ := hf.scan_from (n := 0) (lookupStep utf16_name gbk_name)
        (fun _ _ => some none) hm hdir now (by decide) .init
      refine ⟨g, hsame, hplaced, ?_⟩
      rw [List.drop_zero, h.lookup, Option.map_some] at hrun
      simpa [File.lookupFileInner, hu, hg] using hrun

end FuseFat32
