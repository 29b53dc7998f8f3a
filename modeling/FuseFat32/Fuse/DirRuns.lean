import FuseFat32.Fs.DirWork
import FuseFat32.Fs.Undo
import FuseFat32.Fuse.Unlink

/-!
# Runs of a directory

The members of a directory are called in any order, on an object whose chain and times change as they go. To the entries of the directory they do what should be done to a table of names: a lookup reads the table, `crtFileInner` adds a file to it, and `delFile` takes one out. The other files of the volume notice nothing.
-/

namespace FuseFat32

open LinkedTable Layout Segments

/-! ### Groups and their names -/

/-- The entries are the groups `gs`, each at its place, empty entries, and no two groups with one name. -/
def GroupRow (cs : Charset) (es : List LongDirEntry) (gs : List (Nat × EntryGroup)) : Prop :=
  ∃ segs tail, GroupLayout es segs tail ∧ (∀ e ∈ tail, isEmptyDirEntry e = true) ∧ UniqueNames cs segs ∧
    blocks EntryGroup.entries 0 segs = gs

/-- The table of names of some groups. -/
def groupNames (cs : Charset) (gs : List (Nat × EntryGroup)) (name : List UInt8) : Option DirEntryRange := do
  let utf16_name ← cs.utf8ToUtf16 name
  let gbk_name ← cs.utf8ToGbk (toUpper name)
  (gs.find? fun p => p.2.Named utf16_name gbk_name).map fun p => ⟨p.1, p.2.size⟩

section names

variable {cs : Charset} {es es' tail : List LongDirEntry} {gs front back : List (Nat × EntryGroup)} {p : Nat × EntryGroup}
  {g : EntryGroup} {start : Nat} {name other u gbk : List UInt8} {range : DirEntryRange}

theorem groupNames_eq (hu : cs.utf8ToUtf16 name = some u) (hgbk : cs.utf8ToGbk (toUpper name) = some gbk) :
    groupNames cs gs name = (gs.find? fun p => p.2.Named u gbk).map fun p => ⟨p.1, p.2.size⟩ := by
  rw [groupNames, hu, hgbk]
  rfl

theorem groupNames_eq_some : groupNames cs gs name = some range ↔ ∃ u gbk, cs.utf8ToUtf16 name = some u ∧
    cs.utf8ToGbk (toUpper name) = some gbk ∧ ∃ p, (gs.find? fun p => p.2.Named u gbk) = some p ∧
      range = ⟨p.1, p.2.size⟩ := by
  simp only [groupNames, Option.bind_eq_bind, Option.bind_eq_some_iff, Option.map_eq_some_iff, eq_comm (a := range),
    exists_and_left]

theorem GroupRow.apart (h : GroupRow cs es gs) : gs.Pairwise fun p q => p.1 + p.2.size ≤ q.1 := by
  obtain ⟨segs, tail, -, -, -, rfl⟩ := h
  simpa using (blocks_pairwise EntryGroup.entries segs 0).1

theorem GroupRow.unique (h : GroupRow cs es gs) (hu : cs.utf8ToUtf16 name = some u)
    (hgbk : cs.utf8ToGbk (toUpper name) = some gbk) :
    gs.Pairwise fun p q => ¬ (p.2.Named u gbk ∧ q.2.Named u gbk) := by
  obtain ⟨segs, tail, -, -, hunique, rfl⟩ := h
  exact hunique name u gbk hu hgbk

theorem GroupRow.eq_of_start (h : GroupRow cs es gs) {q : Nat × EntryGroup} (hp : p ∈ gs) (hq : q ∈ gs)
    (hstart : p.1 = q.1) : p = q := by
  have hnodup : (gs.map Prod.fst).Nodup := List.pairwise_map.mpr (h.apart.imp fun {p q} hle heq => by
    have : 0 < p.2.size := Nat.succ_pos _
    omega)
  exact List.inj_on_of_nodup_map hnodup hp hq hstart

/-- A group with a new name makes a line of the table. -/
theorem groupNames_insert (hu : cs.utf8ToUtf16 name = some u) (hgbk : cs.utf8ToGbk (toUpper name) = some gbk)
    (hnamed : ∀ u' gbk', g.Named u' gbk' ↔ u = u')
    (hinj : ∀ other, cs.utf8ToUtf16 other = some u → other = name) (habsent : groupNames cs (front ++ back) name = none) :
    groupNames cs (front ++ (start, g) :: back) =
      Function.update (groupNames cs (front ++ back)) name (some ⟨start, g.size⟩) := by
  funext other
  by_cases hother : other = name
  · subst hother
    rw [groupNames_eq hu hgbk, Option.map_eq_none_iff, List.find?_append, Option.or_eq_none_iff] at habsent
    rw [Function.update_self, groupNames_eq hu hgbk, List.find?_append, habsent.1, Option.none_or,
      List.find?_cons_of_pos (by simpa using (hnamed u gbk).mpr rfl)]
    rfl
  · rw [Function.update_of_ne hother]
    cases hu' : cs.utf8ToUtf16 other with
    | none => simp [groupNames, hu']
    | some u' =>
      cases hgbk' : cs.utf8ToGbk (toUpper other) with
      | none => simp [groupNames, hu', hgbk']
      | some gbk' =>
        have hnot : ¬ g.Named u' gbk' := fun h => hother (hinj other (((hnamed u' gbk').mp h) ▸ hu'))
        rw [groupNames_eq hu' hgbk', groupNames_eq hu' hgbk', List.find?_append, List.find?_append,
          List.find?_cons_of_neg (by simpa using hnot)]

/-- Without a group its lines are gone. -/
theorem groupNames_remove (h : GroupRow cs es (front ++ (start, g) :: back)) :
    groupNames cs (front ++ back) = fun other =>
      if groupNames cs (front ++ (start, g) :: back) other = some ⟨start, g.size⟩ then none
      else groupNames cs (front ++ (start, g) :: back) other := by
  funext other
  cases hu : cs.utf8ToUtf16 other with
  | none => simp [groupNames, hu]
  | some u =>
    cases hgbk : cs.utf8ToGbk (toUpper other) with
    | none => simp [groupNames, hu, hgbk]
    | some gbk =>
      have hunique := h.unique hu hgbk
      rw [List.pairwise_append, List.pairwise_cons] at hunique
      obtain ⟨-, ⟨hback, -⟩, hfront⟩ := hunique
      rw [groupNames_eq hu hgbk, groupNames_eq hu hgbk]
      split_ifs with hfound
      · -- the name is that of the group, and no other group has it
        obtain ⟨p, hfind, hp⟩ := Option.map_eq_some_iff.mp hfound
        obtain rfl := h.eq_of_start (List.mem_of_find?_eq_some hfind)
          (List.mem_append_right _ List.mem_cons_self) (congrArg DirEntryRange.start hp)
        have hnamed : g.Named u gbk := by simpa using List.find?_some hfind
        rw [Option.map_eq_none_iff, List.find?_eq_none]
        intro p hp
        rcases List.mem_append.mp hp with hp | hp
        · simpa using fun hother => hfront p hp _ List.mem_cons_self ⟨hother, hnamed⟩
        · simpa using fun hother => hback p hp ⟨hnamed, hother⟩
      · rw [List.find?_append, List.find?_append]
        rw [List.find?_append] at hfound
        cases hfind : front.find? fun p => p.2.Named u gbk with
        | some p => rfl
        | none =>
          rw [hfind, Option.none_or] at hfound
          by_cases hnamed : g.Named u gbk
          · rw [List.find?_cons_of_pos (by simpa using hnamed)] at hfound
            exact absurd rfl hfound
          · rw [List.find?_cons_of_neg (by simpa using hnamed)]

end names

/-! ### What the members do -/

/-- A directory of a volume with the groups `gs`. -/
structure File.OpenDir (cs : Charset) (fs : FAT32fs) (heads : Set Nat) (dir : File) (l : List Nat)
    (gs : List (Nat × EntryGroup)) : Prop where
  head : dir.fstClus ∈ heads
  placed : dir.Placed fs l
  isDir : dir.isDir = true
  size : l.length * bytesPerClus fs.bpb < 2 ^ 32
  row : GroupRow cs (fs.dirEntries l) gs

section members

variable {cs : Charset} {fs fs' : FAT32fs} {heads : Set Nat} {dir dir' file : File} {l l' : List Nat}
  {gs : List (Nat × EntryGroup)} {name u gbk : List UInt8} {b : BasisName} {is_dir : Bool} {range : DirEntryRange}
  {result : Option DirEntryRange}

theorem File.OpenDir.lookup_fst (h : dir.OpenDir cs fs heads l gs) (hm : fs.Mounted) {now : FatTimeStamp}
    (hrun : dir.lookupFileInner cs fs name now = some (result, dir')) : result = groupNames cs gs name := by
  obtain ⟨segs, tail, hlay, -, -, rfl⟩ := h.row
  obtain ⟨g, -, -, hrun'⟩ := h.placed.lookupFileInner_eq hm h.isDir hlay cs name now
  rw [hrun'] at hrun
  obtain ⟨u, hu, hrun⟩ := Option.bind_eq_some_iff.mp hrun
  obtain ⟨gbk, hgbk, hrun⟩ := Option.map_eq_some_iff.mp hrun
  rw [groupNames_eq hu hgbk]
  exact (Prod.mk.inj hrun).1.symm

theorem File.OpenDir.lookup (h : dir.OpenDir cs fs heads l gs) (hm : fs.Mounted) {now : FatTimeStamp}
    (hrun : dir.lookupFileInner cs fs name now = some (result, dir')) :
    dir.Same dir' ∧ dir'.OpenDir cs fs heads l gs := by
  obtain ⟨segs, tail, hlay, htail, hunique, hblocks⟩ := h.row
  obtain ⟨g, hsame, hg, hrun'⟩ := h.placed.lookupFileInner_eq hm h.isDir hlay cs name now
  rw [hrun'] at hrun
  obtain ⟨u, -, hrun⟩ := Option.bind_eq_some_iff.mp hrun
  obtain ⟨gbk, -, hrun⟩ := Option.map_eq_some_iff.mp hrun
  obtain ⟨-, rfl⟩ := Prod.mk.inj hrun
  refine ⟨hsame, ?_, hg, ?_, h.size, h.row⟩
  · rw [hsame]
    exact h.head
  · rw [hsame]
    exact h.isDir

/-- A file that is created has a group of its own between the others. -/
theorem File.OpenDir.crtFile {now : FatTimeStamp2} (h : dir.OpenDir cs fs heads l gs) (hs : fs.Sane heads)
    (hinj : ∀ other, cs.utf8ToUtf16 other = some u → other = name) (hname : StorableName cs name u gbk b is_dir now)
    (habsent : groupNames cs gs name = none) (hok : fs.CreateOk l (requiredEntryNum u))
    (hrun : dir.crtFileInner cs fs name is_dir now = some (some file, fs', dir')) :
    ∃ start front back, gs = front ++ back ∧
      file = .ofEntry dir.fstClus start name (mkShortDirEntry b is_dir now) ∧
      fs.DirStep heads dir l fs' dir' (fs.chainAfter l (fs.lengthFor l (requiredEntryNum u))) ∧
      dir'.OpenDir cs fs' heads (fs.chainAfter l (fs.lengthFor l (requiredEntryNum u)))
        (front ++ (start, newGroup u hname.units b is_dir now hname.kept) :: back) := by
  obtain ⟨segs, tail, hlay, htail, hunique, rfl⟩ := h.row
  obtain ⟨l', m, start, ⟨rfl, -, hcap⟩, hstep, -, hadded, hfile⟩ :=
    File.crtFileInner_some hs h.head h.placed h.isDir hname hok hrun
  obtain ⟨segs', tail', hlay', htail', front, back, hblocks, hblocks'⟩ := hadded.layout_blocks hlay htail
  refine ⟨start, front, back, hblocks, hfile, hstep, hstep.worked.fstClus ▸ h.head, hstep.placed,
    hstep.worked.isDir.trans h.isDir, hstep.bpb.symm ▸ hcap, segs', tail', hlay', htail', fun other u' gbk' hu' hgbk' => ?_,
    hblocks'⟩
  have hold := hunique other u' gbk' hu' hgbk'
  rw [hblocks', List.pairwise_middle fun hpq hqp => hpq hqp.symm, List.pairwise_cons, ← hblocks]
  refine ⟨fun p hp hboth => ?_, hold⟩
  have hnamed : (newGroup u hname.units b is_dir now hname.kept).Named u' gbk' := hboth.1
  obtain rfl := newGroup_named.mp hnamed
  obtain rfl := hinj other hu'
  obtain rfl : gbk = gbk' := Option.some.inj (hname.gbk.symm.trans hgbk')
  rw [groupNames_eq hname.utf16 hname.gbk, Option.map_eq_none_iff, List.find?_eq_none] at habsent
  exact absurd hboth.2 (by simpa using habsent p hp)

/-- A file that is deleted takes its group away, and the others stay. -/
theorem File.OpenDir.delFile {now : FatTimeStamp} (h : dir.OpenDir cs fs heads l gs) (hs : fs.Sane heads)
    (hrun : dir.delFile cs fs name now = some (some range, fs', dir')) :
    ∃ front g back l', gs = front ++ (range.start, g) :: back ∧ range.count = g.size ∧
      groupNames cs gs name = some range ∧ fs.DirStep heads dir l fs' dir' l' ∧ l' <+: l ∧
      fs'.LeftBehind l' range.start ∧ dir'.OpenDir cs fs' heads l' (front ++ back) := by
  obtain ⟨segs, tail, hlay, htail, hunique, rfl⟩ := h.row
  obtain ⟨u, gbk, xs, g, zs, l', hu, hgbk, hlookup, rfl, hnamed, rfl, hstep, hpre, hin, hgone, hrest⟩ :=
    File.delFile_some hs h.head h.placed h.isDir h.size hlay hrun
  rw [← hstep.bpb] at hin
  obtain ⟨e, hat, hshort, hblank⟩ := hgone.first
  obtain rfl := Option.some.inj ((FAT32fs.getElem?_dirEntries hin).symm.trans hat)
  obtain ⟨segs', tail', hlay', hblocks', htail'⟩ := hgone.layout hlay
  have hblocks : blocks EntryGroup.entries 0 (xs ++ .block g :: zs) = blocks EntryGroup.entries 0 xs ++
      ((Segments.flat EntryGroup.entries xs).length, g) ::
        blocks EntryGroup.entries ((Segments.flat EntryGroup.entries xs).length + g.size) zs := by
    rw [blocks_append, blocks, Nat.zero_add, EntryGroup.length_entries]
  refine ⟨_, g, _, l', hblocks, rfl, ?_, hstep, hpre, ⟨hin, hshort, hblank⟩, hstep.worked.fstClus ▸ h.head, hstep.placed,
    hstep.worked.isDir.trans h.isDir, ?_, segs', tail', hlay', fun e he => ?_, fun other u' gbk' hu' hgbk' => ?_, hblocks'⟩
  · rw [groupNames_eq hu hgbk]
    exact hlookup
  · rw [hstep.bpb]
    exact Nat.lt_of_le_of_lt (Nat.mul_le_mul_right _ hpre.length_le) h.size
  · rcases htail' e he with he | ⟨hno, he⟩
    · exact htail e he
    · exact hrest hno htail e he
  · refine (hunique other u' gbk' hu' hgbk').sublist ?_
    rw [hblocks, hblocks']
    exact (List.Sublist.refl _).append (List.sublist_cons_self _ _)

private theorem File.delFile_none {now : FatTimeStamp} (hrun : dir.delFile cs fs name now = some (none, fs', dir')) :
    fs' = fs ∧ dir.lookupFileInner cs fs name now = some (none, dir') := by
  obtain ⟨⟨result, dir₁⟩, hlookup, hrun⟩ := Option.bind_eq_some_iff.mp hrun
  cases result with
  | none =>
    obtain ⟨rfl, rfl⟩ : fs = fs' ∧ dir₁ = dir' := by simpa using hrun
    exact ⟨rfl, hlookup⟩
  | some r =>
    obtain ⟨⟨fs₂, dir₂⟩, -, hrun⟩ := Option.bind_eq_some_iff.mp hrun
    obtain ⟨⟨lst, dir₃⟩, -, hrun⟩ := Option.bind_eq_some_iff.mp hrun
    dsimp only at hrun
    split at hrun
    · simp at hrun
    · obtain ⟨⟨ok, fs₄, dir₄⟩, -, hrun⟩ := Option.bind_eq_some_iff.mp hrun
      obtain ⟨⟨ok', fs₅, dir₅⟩, -, hrun⟩ := Option.bind_eq_some_iff.mp hrun
      simp at hrun

end members

/-! ### Runs -/

/-- A call of a member of a directory. -/
inductive DirCall where
  | lookup (name : List UInt8) (now : FatTimeStamp)
  | crtFile (name : List UInt8) (is_dir : Bool) (now : FatTimeStamp2)
  | delFile (name : List UInt8) (now : FatTimeStamp)

inductive DirAnswer where
  | found (range : Option DirEntryRange)
  | created (file : Option File)
  | deleted (ok : Bool)

def DirCall.run (cs : Charset) (fs : FAT32fs) (dir : File) : DirCall → Exec (DirAnswer × FAT32fs × File)
  | .lookup name now => do
    let (result, dir) ← dir.lookupFileInner cs fs name now
    return (.found result, fs, dir)
  | .crtFile name is_dir now => do
    let (result, fs, dir) ← dir.crtFileInner cs fs name is_dir now
    return (.created result, fs, dir)
  | .delFile name now => do
    let (result, fs, dir) ← dir.delFile cs fs name now
    return (.deleted result.isSome, fs, dir)

def DirCall.runAll (cs : Charset) : List DirCall → FAT32fs → File → Exec (List DirAnswer × FAT32fs × File)
  | [], fs, dir => some ([], fs, dir)
  | call :: calls, fs, dir => do
    let (answer, fs, dir) ← call.run cs fs dir
    let (answers, fs, dir) ← DirCall.runAll cs calls fs dir
    return (answer :: answers, fs, dir)

/-- What callers of `crtFileInner` see to: the name is not there, it can be encoded, and the directory stays below 4 GiB. -/
def DirCall.Fits (cs : Charset) (fs : FAT32fs) (dir : File) : DirCall → Prop
  | .crtFile name is_dir now => (dir.lookupFileInner cs fs name now.ts).map Prod.fst = some none ∧
      ∃ u gbk b, StorableName cs name u gbk b is_dir now ∧ ∀ l, dir.Placed fs l →
        fs.bpb.clusFor (fs.lengthFor l (requiredEntryNum u)) * bytesPerClus fs.bpb < 2 ^ 32
  | _ => True

/-- Every call fits the directory as the calls before it have left it. -/
def DirCall.AllFit (cs : Charset) : List DirCall → FAT32fs → File → Prop
  | [], _, _ => True
  | call :: calls, fs, dir => call.Fits cs fs dir ∧
      ∀ answer fs' dir', call.run cs fs dir = some (answer, fs', dir') → DirCall.AllFit cs calls fs' dir'

/-- The entries that names stand for. -/
def NameTable : Type := List UInt8 → Option DirEntryRange

namespace NameTable

/-- What a call does to a table of names, and what it returns. -/
def Step (table : NameTable) (answer : DirAnswer) (table' : NameTable) : DirCall → Prop
  | .lookup name _ => answer = .found (table name) ∧ table' = table
  | .crtFile name is_dir _ => (answer = .created none ∧ table' = table) ∨
      ∃ file range, answer = .created (some file) ∧
        (file.name = name ∧ file.isDir = is_dir ∧ file.fstEntryNum = range.start ∧ file.fstClus = 0) ∧
        (∀ other r, table other = some r → r.start + r.count ≤ range.start ∨ range.start + range.count ≤ r.start) ∧
        table' = Function.update table name (some range)
  | .delFile name _ => answer = .deleted (table name).isSome ∧
      table' = fun other => if table other = table name then none else table other

/-- The answers of a table to some calls, one after the other. -/
inductive Serves : NameTable → List DirCall → List DirAnswer → NameTable → Prop
  | nil (table : NameTable) : Serves table [] [] table
  | cons {table table₁ table' : NameTable} {call : DirCall} {calls : List DirCall} {answer : DirAnswer}
      {answers : List DirAnswer} : table.Step answer table₁ call → Serves table₁ calls answers table' →
      Serves table (call :: calls) (answer :: answers) table'

end NameTable

section runs

variable {cs : Charset} {fs fs' : FAT32fs} {heads : Set Nat} {dir dir' : File} {l : List Nat}
  {gs front back : List (Nat × EntryGroup)} {call : DirCall} {answer : DirAnswer}

theorem isDirectory_mkShortDirEntry (b : BasisName) (is_dir : Bool) (now : FatTimeStamp2) :
    isDirectory (mkShortDirEntry b is_dir now) = is_dir := by
  have hattr : (mkShortDirEntry b is_dir now).attr = if is_dir then kAttrDirectory else 0 := rfl
  rw [isDirectory, hattr]
  cases is_dir <;> decide

theorem GroupRow.apart_of_mem {es : List LongDirEntry} {start : Nat} {g : EntryGroup}
    (h : GroupRow cs es (front ++ (start, g) :: back)) {p : Nat × EntryGroup} (hp : p ∈ front ++ back) :
    p.1 + p.2.size ≤ start ∨ start + g.size ≤ p.1 := by
  have hapart := h.apart
  rw [List.pairwise_append, List.pairwise_cons] at hapart
  obtain ⟨-, ⟨hback, -⟩, hfront⟩ := hapart
  rcases List.mem_append.mp hp with hp | hp
  · exact .inl (hfront p hp _ List.mem_cons_self)
  · exact .inr (hback p hp)

/-- One call does to the names what the table says, and leaves the other files alone. -/
theorem File.OpenDir.step (hinj : ∀ name other u, cs.utf8ToUtf16 name = some u → cs.utf8ToUtf16 other = some u → name = other)
    (h : dir.OpenDir cs fs heads l gs) (hs : fs.Sane heads) (hhint : fs.fat.freeCount = 0xFFFFFFFF)
    (hfits : call.Fits cs fs dir) (hrun : call.run cs fs dir = some (answer, fs', dir')) : ∃ l' gs',
    dir'.OpenDir cs fs' heads l' gs' ∧ fs'.Sane heads ∧ fs.Beside fs' ∧ dir.Worked dir' ∧
      fs.KeepsOthers heads dir.fstClus fs' ∧
      NameTable.Step (groupNames cs gs) answer (groupNames cs gs') call := by
  have hkept : fs.KeepsOthers heads dir.fstClus fs := fun _ _ _ _ _ _ _ => ⟨rfl, fun _ _ => rfl⟩
  cases call with
  | lookup name now =>
    obtain ⟨⟨result, dir₁⟩, hlookup, hrest⟩ := Option.bind_eq_some_iff.mp hrun
    obtain ⟨rfl, rfl, rfl⟩ : .found result = answer ∧ fs = fs' ∧ dir₁ = dir' := by simpa using hrest
    obtain ⟨hsame, h'⟩ := h.lookup hs.toMounted hlookup
    exact ⟨l, gs, h', hs, .refl fs, hsame.worked, hkept, congrArg _ (h.lookup_fst hs.toMounted hlookup), rfl⟩
  | crtFile name is_dir now =>
    obtain ⟨habsent, u, gbk, b, hname, hsmall⟩ := hfits
    obtain ⟨⟨result, fs₁, dir₁⟩, hcreate, hrest⟩ := Option.bind_eq_some_iff.mp hrun
    obtain ⟨rfl, rfl, rfl⟩ : .created result = answer ∧ fs₁ = fs' ∧ dir₁ = dir' := by simpa using hrest
    cases result with
    | none =>
      obtain ⟨rfl, hsame, hf⟩ := File.crtFileInner_none hs.toMounted h.placed h.isDir hcreate
      have hstep := (FAT32fs.DirStep.of_same hs hsame hf).trans (.counted hs hf) fun x hx => .inl hx
      exact ⟨l, gs, ⟨hstep.worked.fstClus ▸ h.head, hstep.placed, hstep.worked.isDir.trans h.isDir, h.size, h.row⟩,
        hstep.sane, .counted fs, hstep.worked, hstep.keepsOthers hs h.head h.placed, .inl ⟨rfl, rfl⟩⟩
    | some file =>
      have hok : fs.CreateOk l (requiredEntryNum u) := ⟨hsmall l h.placed, fun _ => .inl hhint⟩
      obtain ⟨⟨found, dir₂⟩, hlookup, hfound⟩ := Option.map_eq_some_iff.mp habsent
      have hnone : groupNames cs gs name = none := (h.lookup_fst hs.toMounted hlookup).symm.trans hfound
      have hown := fun other hother => hinj other name u hother hname.utf16
      obtain ⟨start, front, back, rfl, rfl, hstep, h'⟩ := h.crtFile hs hown hname hnone hok hcreate
      refine ⟨_, _, h', hstep.sane, (File.crtFileInner_beside hs h.head h.placed h.isDir hname hok hcreate).1, hstep.worked,
        hstep.keepsOthers hs h.head h.placed, .inr ⟨_, _, rfl, ⟨rfl, ?_, rfl, readEntryClusNo_mkShortDirEntry ..⟩,
          fun other r hr => ?_, groupNames_insert hname.utf16 hname.gbk (fun _ _ => newGroup_named) hown hnone⟩⟩
      · exact isDirectory_mkShortDirEntry b is_dir now
      · obtain ⟨u', gbk', -, -, p, hfind, rfl⟩ := groupNames_eq_some.mp hr
        exact h'.row.apart_of_mem (List.mem_of_find?_eq_some hfind)
  | delFile name now =>
    obtain ⟨⟨result, fs₁, dir₁⟩, hdelete, hrest⟩ := Option.bind_eq_some_iff.mp hrun
    obtain ⟨rfl, rfl, rfl⟩ : .deleted result.isSome = answer ∧ fs₁ = fs' ∧ dir₁ = dir' := by simpa using hrest
    cases result with
    | none =>
      obtain ⟨rfl, hlookup⟩ := File.delFile_none hdelete
      obtain ⟨hsame, h'⟩ := h.lookup hs.toMounted hlookup
      have hnone := h.lookup_fst hs.toMounted hlookup
      refine ⟨l, gs, h', hs, .refl _, hsame.worked, hkept, by rw [← hnone], funext fun other => ?_⟩
      rw [← hnone]
      split_ifs with hother
      · exact hother
      · rfl
    | some range =>
      obtain ⟨front, g, back, l', rfl, hcount, hname, hstep, -, -, h'⟩ := h.delFile hs hdelete
      obtain ⟨segs, tail, hlay, -⟩ := h.row
      refine ⟨l', _, h', hstep.sane, File.delFile_beside hs h.head h.placed h.isDir h.size hlay hdelete, hstep.worked,
        hstep.keepsOthers hs h.head h.placed, by rw [hname], ?_⟩
      rw [hname, groupNames_remove h.row, ← hcount]

/-- Whatever the calls, the answers are those of a table of names that starts as the directory does, and lookups go on to read that table. No other file changes. -/
theorem File.dirRun_refines (cs : Charset)
    (hinj : ∀ name other u, cs.utf8ToUtf16 name = some u → cs.utf8ToUtf16 other = some u → name = other) (heads : Set Nat) :
    ∀ (calls : List DirCall) (answers : List DirAnswer) (fs fs' : FAT32fs) (dir dir' : File) (l : List Nat)
      (gs : List (Nat × EntryGroup)), dir.OpenDir cs fs heads l gs → fs.Sane heads → fs.fat.freeCount = 0xFFFFFFFF →
      DirCall.AllFit cs calls fs dir → DirCall.runAll cs calls fs dir = some (answers, fs', dir') →
      ∃ l' gs', dir'.OpenDir cs fs' heads l' gs' ∧ fs'.Sane heads ∧ fs.Beside fs' ∧ dir.Worked dir' ∧
        fs.KeepsOthers heads dir.fstClus fs' ∧
        NameTable.Serves (groupNames cs gs) calls answers (groupNames cs gs') := by
  intro calls
  induction calls with
  | nil =>
    intro answers fs fs' dir dir' l gs h hs _ _ hrun
    obtain ⟨rfl, rfl, rfl⟩ : [] = answers ∧ fs = fs' ∧ dir = dir' := by simpa [DirCall.runAll] using hrun
    exact ⟨l, gs, h, hs, .refl fs, rfl, fun _ _ _ _ _ _ _ => ⟨rfl, fun _ _ => rfl⟩, .nil _⟩
  | cons call calls ih =>
    intro answers fs fs' dir dir' l gs h hs hhint hfit hrun
    obtain ⟨hfits, hrest⟩ := hfit
    obtain ⟨⟨answer, fs₁, dir₁⟩, hcall, hrun⟩ := Option.bind_eq_some_iff.mp hrun
    obtain ⟨⟨answers₁, fs₂, dir₂⟩, hcalls, hrun⟩ := Option.bind_eq_some_iff.mp hrun
    obtain ⟨rfl, rfl, rfl⟩ : answer :: answers₁ = answers ∧ fs₂ = fs' ∧ dir₂ = dir' := by simpa using hrun
    obtain ⟨l₁, gs₁, h₁, hs₁, hbeside, hworked, hkept, hstep⟩ := h.step hinj hs hhint hfits hcall
    obtain ⟨l', gs', h', hs', hbeside', hworked', hkept', hserves⟩ := ih answers₁ fs₁ fs₂ dir₁ dir₂ l₁ gs₁ h₁ hs₁
      (hbeside.hint hhint) (hrest answer fs₁ dir₁ hcall) hcalls
    rw [hworked.fstClus] at hkept'
    exact ⟨l', gs', h', hs', hbeside.trans hbeside', hworked.trans hworked', hkept.trans hkept' hbeside.bpb,
      .cons hstep hserves⟩

end runs

/-- A directory is created next to a file, the file is deleted, and both names are looked up. -/
def tableCalls : List DirCall :=
  [.crtFile [0x7A] true ⟨0, ⟨0, 33⟩⟩, .lookup [0x7A] ⟨0, 33⟩, .delFile [0x41] ⟨0, 33⟩, .lookup [0x41] ⟨0, 33⟩,
    .lookup [0x7A] ⟨0, 33⟩, .delFile [0x7A] ⟨0, 33⟩]

private theorem unlinkFs_openDir : rootDir.OpenDir asciiCharset unlinkFs {2} [2, 3] [(0, listedGroup 0)] := by
  refine ⟨Set.mem_singleton 2, unlinkFs_sane.2, rfl, by decide, _, _, unlinkFs_layout.toGroupLayout, fun e he => ?_,
    fun _ _ _ _ _ => List.pairwise_singleton _ _, rfl⟩
  rw [List.eq_of_mem_replicate he]
  exact isLstEmpty_zero.2

private theorem tableCalls_fit : DirCall.AllFit asciiCharset tableCalls unlinkFs rootDir := by
  refine ⟨⟨by decide +kernel, _, _, _, newName_z.storable, fun l hl => ?_⟩, fun _ _ _ _ => ⟨trivial, fun _ _ _ _ => ⟨trivial, fun _ _ _ _ =>
    ⟨trivial, fun _ _ _ _ => ⟨trivial, fun _ _ _ _ => ⟨trivial, fun _ _ _ _ => trivial⟩⟩⟩⟩⟩⟩
  obtain rfl := hl.chain.unique unlinkFs_sane.2.chain
  rw [requiredEntryNum_z]
  decide +kernel

theorem File.dirRun_refines_table : ∃ answers fs' dir' l' gs',
    DirCall.runAll asciiCharset tableCalls unlinkFs rootDir = some (answers, fs', dir') ∧
      NameTable.Serves (groupNames asciiCharset [(0, listedGroup 0)]) tableCalls answers (groupNames asciiCharset gs') ∧
      dir'.OpenDir asciiCharset fs' {2} l' gs' := by
  have hrun : (DirCall.runAll asciiCharset tableCalls unlinkFs rootDir).isSome := by decide +kernel
  obtain ⟨⟨answers, fs', dir'⟩, hrun⟩ := Option.isSome_iff_exists.mp hrun
  obtain ⟨l', gs', h', -, -, -, -, hserves⟩ := File.dirRun_refines asciiCharset
    (fun name other u h h' => asciiCharset_utf16_injective name other u h h') {2} tableCalls answers unlinkFs fs' rootDir
    dir' [2, 3] _ unlinkFs_openDir unlinkFs_sane.1 rfl tableCalls_fit hrun
  exact ⟨answers, fs', dir', l', gs', hrun, hserves, h'⟩

end FuseFat32
