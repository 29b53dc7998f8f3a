import FuseFat32.Fat.Copies
import FuseFat32.Fs.DirStep
import FuseFat32.Fs.Groups

/-!
# Removing a file

`delFile` overwrites the group of a file with deleted entries. When no group follows, it sets an end marker at the last of them and cuts the directory behind the first. `selfDestruct` then goes to the first entry of the group again, finds a short one there, marks it deleted and releases the chain of the file. The other groups stay where they are, in a directory whose clusters lie next to each other.
-/

namespace FuseFat32

open LinkedTable Layout Segments

/-- The entry `delFile` writes. -/
def deletedEntry : LongDirEntry := setDirEntryEmpty zeroDirEntry

/-- The clusters of a directory lie next to each other. -/
def Consecutive (l : List Nat) : Prop := ∀ k < l.length, l.getD k 0 = l.headD 0 + k

instance (l : List Nat) : Decidable (Consecutive l) :=
  inferInstanceAs (Decidable (∀ k < l.length, l.getD k 0 = l.headD 0 + k))

/-- No two groups answer to one name. -/
def UniqueNames (cs : Charset) (segs : List (Segment LongDirEntry EntryGroup)) : Prop :=
  ∀ name u gbk, cs.utf8ToUtf16 name = some u → cs.utf8ToGbk (toUpper name) = some gbk →
    (blocks EntryGroup.entries 0 segs).Pairwise fun p q => ¬ (p.2.Named u gbk ∧ q.2.Named u gbk)

/-- A directory of groups with unique names. -/
def NamedDir (cs : Charset) (es : List LongDirEntry) : Prop :=
  ∃ segs tail, DirLayout es segs tail ∧ UniqueNames cs segs

section consecutive

variable {fs : FAT32fs} {l l' : List Nat} {n : Nat}

theorem Consecutive.of_prefix (h : Consecutive l) (hpre : l' <+: l) : Consecutive l' := by
  obtain ⟨rest, rfl⟩ := hpre
  intro k hk
  have hlen : k < (l' ++ rest).length := by
    rw [List.length_append]
    omega
  have hat := h k hlen
  obtain ⟨a, l', rfl⟩ := List.exists_cons_of_ne_nil (List.ne_nil_of_length_pos (Nat.zero_lt_of_lt hk))
  rw [List.getD_eq_getElem _ _ hlen, List.getElem_append_left hk] at hat
  rw [List.getD_eq_getElem _ _ hk, hat]
  rfl

/-- Where the clusters lie next to each other every walk keeps to its entries. -/
theorem Consecutive.slotsInOrder (h : Consecutive l) (hs : fs.bpb.Sound)
    (hcap : l.length * bytesPerClus fs.bpb < 2 ^ 32) {m : Nat} (hn : n + m < fs.bpb.dirSlots l) :
    fs.bpb.SlotsInOrder l n m := by
  refine .inr fun k _ hk => ?_
  have hlt : k < l.length := by
    rw [hs.dirSlots_eq hcap] at hn
    exact Nat.lt_of_le_of_lt hk ((Nat.div_lt_iff_lt_mul hs.slotsPerClus_pos).mpr hn)
  rw [h k hlt]

end consecutive

/-! ### What follows a group -/

/-- No live entry comes before the next end marker. -/
def restEmpty : List LongDirEntry → Bool
  | [] => true
  | e :: es => if !isEmptyDirEntry e then false else if isLstEmptyDirEntry e then true else restEmpty es

private theorem scanList_lstNonEmptyStep : ∀ {es : List LongDirEntry} {n : Nat},
    scanList lstNonEmptyStep (fun _ _ => some true) es n () = some (restEmpty es) := by
  intro es
  induction es with
  | nil => exact rfl
  | cons e es ih =>
    intro n
    rw [restEmpty]
    by_cases hempty : isEmptyDirEntry e = true
    · by_cases hlst : isLstEmptyDirEntry e = true
      · rw [scanList_stop (r := true) (by simp [lstNonEmptyStep, hempty, hlst])]
        simp [hempty, hlst]
      · rw [scanList_next (show lstNonEmptyStep n e () = some (.inl ()) by simp [lstNonEmptyStep, hempty, hlst]), ih]
        simp [hempty, hlst]
    · rw [scanList_stop (r := false) (by simp [lstNonEmptyStep, hempty])]
      simp [hempty]

theorem restEmpty_cons {e : LongDirEntry} {es : List LongDirEntry} (he : isEmptyDirEntry e = true)
    (h : restEmpty es = true) : restEmpty (e :: es) = true := by
  simp [restEmpty, he, h]

private theorem restEmpty_replicate_append {e : LongDirEntry} {es : List LongDirEntry} (he : isEmptyDirEntry e = true)
    (h : restEmpty es = true) : ∀ n : Nat, restEmpty (List.replicate n e ++ es) = true := by
  intro n
  induction n with
  | zero => exact h
  | succ n ih => exact restEmpty_cons he ih

theorem restEmpty_take : ∀ {es : List LongDirEntry}, restEmpty es = true → ∀ n, restEmpty (es.take n) = true := by
  intro es
  induction es with
  | nil => exact fun h n => by rwa [List.take_nil]
  | cons e es ih =>
    intro h n
    cases n with
    | zero => rfl
    | succ n =>
      rw [restEmpty] at h
      rw [List.take_succ_cons, restEmpty]
      split_ifs at h ⊢
      · rfl
      · exact ih h n

private theorem restEmpty_set {m : LongDirEntry} (hm : isLstEmptyDirEntry m = true) : ∀ {es : List LongDirEntry},
    restEmpty es = true → ∀ k, restEmpty (es.set k m) = true := by
  have hempty : isEmptyDirEntry m = true := by
    simp only [isLstEmptyDirEntry, decide_eq_true_eq] at hm
    simp [isEmptyDirEntry, hm]
  intro es
  induction es with
  | nil => exact fun h k => h
  | cons e es ih =>
    intro h k
    cases k with
    | zero => simp [restEmpty, hempty, hm]
    | succ k =>
      rw [restEmpty] at h
      rw [List.set_cons_succ, restEmpty]
      split_ifs at h ⊢
      · rfl
      · exact ih h k

private theorem deleted_of_restEmpty {e : LongDirEntry} : ∀ {es : List LongDirEntry}, restEmpty es = true →
    e ∈ es.takeWhile (fun e => !isLstEmptyDirEntry e) → e.ord = 0xE5 := by
  intro es
  induction es with
  | nil => exact fun _ he => absurd he List.not_mem_nil
  | cons a es ih =>
    intro h he
    rw [restEmpty] at h
    rw [List.takeWhile_cons] at he
    by_cases hlive : isEmptyDirEntry a = true
    · by_cases hlst : isLstEmptyDirEntry a = true
      · simp [hlst] at he
      · rw [if_neg (by simp [hlive]), if_neg hlst] at h
        rw [if_pos (by simpa using hlst)] at he
        rcases List.mem_cons.mp he with rfl | he
        · simp only [isEmptyDirEntry, isLstEmptyDirEntry, decide_eq_true_eq] at hlive hlst
          exact hlive.resolve_left hlst
        · exact ih h he
    · simp [hlive] at h

/-- The scan finds a live entry exactly when there is a group. -/
theorem restEmpty_iff {tail : List LongDirEntry} (hmarker : ∀ e ∈ tail.head?, isLstEmptyDirEntry e = true) :
    ∀ {zs : List (Segment LongDirEntry EntryGroup)}, (∀ e, .blank e ∈ zs → e.ord = 0xE5) →
    (restEmpty (flat EntryGroup.entries zs ++ tail) = true ↔ ∀ g, .block g ∉ zs) := by
  intro zs
  induction zs with
  | nil =>
    intro _
    refine iff_of_true ?_ fun _ => List.not_mem_nil
    rw [flat_nil, List.nil_append]
    cases tail with
    | nil => rfl
    | cons e tail =>
      have hlst := hmarker e rfl
      have hempty : isEmptyDirEntry e = true := by
        simp only [isLstEmptyDirEntry, decide_eq_true_eq] at hlst
        simp [isEmptyDirEntry, hlst]
      simp [restEmpty, hempty, hlst]
  | cons z zs ih =>
    intro hdeleted
    cases z with
    | blank e =>
      have he : e.ord = 0xE5 := hdeleted e List.mem_cons_self
      have hstep : restEmpty (flat EntryGroup.entries (.blank e :: zs) ++ tail) =
          restEmpty (flat EntryGroup.entries zs ++ tail) := by
        rw [flat_cons, elems_blank, List.singleton_append, List.cons_append, restEmpty]
        simp [isEmptyDirEntry, isLstEmptyDirEntry, he]
      rw [hstep, ih fun e he => hdeleted e (List.mem_cons_of_mem _ he)]
      simp
    | block g =>
      refine iff_of_false ?_ fun h => h g List.mem_cons_self
      obtain ⟨e, rest, he⟩ := List.exists_cons_of_ne_nil (EntryGroup.solid g).1
      have hlive := (EntryGroup.solid g).2 e (by rw [he]; exact List.mem_cons_self)
      rw [flat_cons, elems_block, he]
      simp [restEmpty, hlive]

theorem File.Placed.isLstNonEmptyEntry_eq {fs : FAT32fs} {dir : File} {l : List Nat} (hm : fs.Mounted)
    (hf : dir.Placed fs l) (hdir : dir.isDir = true) {n : Int}
    (hn : kDirEntrySize * (if n < 0 then 0 else n.toNat + 1) < 2 ^ 32) (now : FatTimeStamp) :
    ∃ g, dir.Same g ∧ g.Placed fs l ∧ dir.isLstNonEmptyEntry fs n now =
      some (restEmpty ((fs.dirEntries l).drop (if n < 0 then 0 else n.toNat + 1)), g) := by
  obtain ⟨g, hsame, hg, hrun⟩ := hf.scan_from lstNonEmptyStep (fun _ _ => some true) hm hdir now hn ()
  refine ⟨g, hsame, hg, ?_⟩
  rw [scanList_lstNonEmptyStep] at hrun
  exact hrun

/-! ### A row without one of its groups -/

/-- The row `xs`, the group `g`, the row `zs` and `tail` once `g` has been removed: its entries are deleted, or it was the last group and no live entry follows `xs`. -/
def GroupGone (xs : List (Segment LongDirEntry EntryGroup)) (g : EntryGroup)
    (zs : List (Segment LongDirEntry EntryGroup)) (tail es : List LongDirEntry) : Prop :=
  ∃ e rest, es = flat EntryGroup.entries xs ++ e :: rest ∧ isLongDirEntry e = false ∧
    setDirEntryEmpty e = deletedEntry ∧
    ((e = deletedEntry ∧
        rest = List.replicate g.longs.length deletedEntry ++ (flat EntryGroup.entries zs ++ tail)) ∨
      ((∀ g', .block g' ∉ zs) ∧ isEmptyDirEntry e = true ∧ restEmpty rest = true))

section row

variable {cs : Charset} {es tail : List LongDirEntry} {xs zs segs : List (Segment LongDirEntry EntryGroup)}
  {g : EntryGroup}

private theorem deletedEntry_ord : deletedEntry.ord = 0xE5 := rfl

theorem isEmpty_deletedEntry : isEmptyDirEntry deletedEntry = true := by decide

theorem isLong_deletedEntry : isLongDirEntry deletedEntry = false := by decide

theorem GroupGone.set (h : GroupGone xs g zs tail es) :
    GroupGone xs g zs tail (es.set (flat EntryGroup.entries xs).length deletedEntry) := by
  obtain ⟨e, rest, rfl, -, -, hor⟩ := h
  refine ⟨deletedEntry, rest, ?_, isLong_deletedEntry, rfl, ?_⟩
  · rw [List.set_append_right _ _ le_rfl, Nat.sub_self, List.set_cons_zero]
  · rcases hor with ⟨-, hrest⟩ | ⟨hzs, -, hrest⟩
    · exact .inl ⟨rfl, hrest⟩
    · exact .inr ⟨hzs, isEmpty_deletedEntry, hrest⟩

/-- The groups that are left. Behind them come the old tail or what has been left of the group. -/
theorem GroupGone.layout (h : GroupGone xs g zs tail es) {all : List LongDirEntry}
    (hlay : GroupLayout all (xs ++ .block g :: zs) tail) :
    ∃ segs' tail', GroupLayout es segs' tail' ∧
      blocks EntryGroup.entries 0 segs' = blocks EntryGroup.entries 0 xs ++
        blocks EntryGroup.entries ((flat EntryGroup.entries xs).length + g.size) zs ∧
      ∀ e ∈ tail', e ∈ tail ∨ ((∀ g', .block g' ∉ zs) ∧ e ∈ es.drop (flat EntryGroup.entries xs).length) := by
  have hxs : ∀ e, .blank e ∈ xs → e.ord = 0xE5 := fun e he => hlay.deleted e (List.mem_append_left _ he)
  obtain ⟨e, rest, rfl, -, -, hor⟩ := h
  rcases hor with ⟨rfl, rfl⟩ | ⟨hzs, he, hrest⟩
  · refine ⟨xs ++ ((List.replicate g.size deletedEntry).map .blank ++ zs), tail, ⟨?_, fun e he => ?_, hlay.marker⟩, ?_,
      fun e he => .inl he⟩
    · simp only [flat_append, flat_blanks, EntryGroup.size, List.replicate_succ, List.append_assoc, List.cons_append]
    · rcases List.mem_append.mp he with he | he
      · exact hxs e he
      · rcases List.mem_append.mp he with he | he
        · rw [List.eq_of_mem_replicate (blank_mem_map.mp he)]
          exact deletedEntry_ord
        · exact hlay.deleted e (List.mem_append_right _ (List.mem_cons_of_mem _ he))
    · rw [blocks_append, blocks_append, blocks_blanks, flat_blanks, List.length_replicate, List.nil_append,
        Nat.zero_add]
  · refine ⟨xs ++ ((e :: rest).takeWhile fun e => !isLstEmptyDirEntry e).map .blank,
      (e :: rest).dropWhile fun e => !isLstEmptyDirEntry e, ⟨?_, fun e' he' => ?_, fun e' he' => ?_⟩, ?_,
      fun e' he' => .inr ⟨hzs, ?_⟩⟩
    · rw [flat_append, flat_blanks, List.append_assoc, List.takeWhile_append_dropWhile]
    · rcases List.mem_append.mp he' with he' | he'
      · exact hxs e' he'
      · exact deleted_of_restEmpty (restEmpty_cons he hrest) (blank_mem_map.mp he')
    · have := List.head?_dropWhile_not (fun e => !isLstEmptyDirEntry e) (e :: rest)
      rw [Option.mem_def.mp he'] at this
      simpa using this
    · rw [blocks_append, blocks_blanks, blocks_eq_nil hzs]
    · rw [List.drop_left]
      exact (List.dropWhile_sublist _).mem he'

/-- A lookup when a group is no longer there. -/
theorem dirLookup_remove {segs' : List (Segment LongDirEntry EntryGroup)} {front back : List (Nat × EntryGroup)}
    {start : Nat} (u gbk : List UInt8) (h : blocks EntryGroup.entries 0 segs = front ++ (start, g) :: back)
    (h' : blocks EntryGroup.entries 0 segs' = front ++ back) :
    (dirLookup segs u gbk ≠ some ⟨start, g.size⟩ → dirLookup segs' u gbk = dirLookup segs u gbk) ∧
      (g.Named u gbk → (blocks EntryGroup.entries 0 segs).Pairwise (fun p q => ¬ (p.2.Named u gbk ∧ q.2.Named u gbk)) →
        dirLookup segs' u gbk = none) := by
  constructor
  · intro hne
    rw [dirLookup, h, List.find?_append] at hne
    rw [dirLookup, dirLookup, h, h', List.find?_append, List.find?_append]
    cases hfront : front.find? fun p => p.2.Named u gbk with
    | some p => rfl
    | none =>
      by_cases hnamed : g.Named u gbk
      · rw [hfront, List.find?_cons_of_pos (by simpa using hnamed)] at hne
        exact absurd rfl hne
      · rw [List.find?_cons_of_neg (by simpa using hnamed)]
  · intro hnamed hunique
    rw [h, List.pairwise_append, List.pairwise_cons] at hunique
    obtain ⟨-, ⟨hback, -⟩, hfront⟩ := hunique
    rw [dirLookup, h', Option.map_eq_none_iff, List.find?_eq_none]
    intro p hp
    rcases List.mem_append.mp hp with hp | hp
    · simpa using fun hother => hfront p hp _ List.mem_cons_self ⟨hother, hnamed⟩
    · simpa using fun hother => hback p hp ⟨hnamed, hother⟩

end row

/-! ### What `delFile` has done -/

section delFile

variable {cs : Charset} {fs fs' : FAT32fs} {heads : Set Nat} {dir dir' : File} {l : List Nat} {name : List UInt8}
  {now : FatTimeStamp} {range : DirEntryRange} {es tail : List LongDirEntry}
  {xs zs segs : List (Segment LongDirEntry EntryGroup)} {g : EntryGroup}

theorem GroupLayout.cut (h : GroupLayout es (xs ++ .block g :: zs) tail) :
    es.take (Segments.flat EntryGroup.entries xs).length = Segments.flat EntryGroup.entries xs ∧
      es.drop ((Segments.flat EntryGroup.entries xs).length + g.size) =
        Segments.flat EntryGroup.entries zs ++ tail ∧
      (Segments.flat EntryGroup.entries xs).length + g.size ≤ es.length := by
  have hes : es = Segments.flat EntryGroup.entries xs ++ (g.entries ++ (Segments.flat EntryGroup.entries zs ++ tail)) := by
    rw [h.flat, flat_append, flat_cons, elems_block, List.append_assoc, List.append_assoc]
  rw [hes, List.take_left, ← List.drop_drop, List.drop_left, ← g.length_entries, List.drop_left]
  refine ⟨rfl, rfl, ?_⟩
  simp only [List.length_append]
  omega

private theorem GroupLayout.writeAll_deleted (h : GroupLayout es (xs ++ .block g :: zs) tail) :
    writeAll es ((List.range g.size).map fun i => ((Segments.flat EntryGroup.entries xs).length + i, deletedEntry)) =
      Segments.flat EntryGroup.entries xs ++
        (List.replicate g.size deletedEntry ++ (Segments.flat EntryGroup.entries zs ++ tail)) := by
  obtain ⟨htake, hdrop, hle⟩ := h.cut
  have hfst : ((List.range g.size).map fun i =>
      ((Segments.flat EntryGroup.entries xs).length + i, deletedEntry)).map Prod.fst =
        (List.range g.size).map ((Segments.flat EntryGroup.entries xs).length + ·) := List.map_map
  rw [writeAll_run (Segments.flat EntryGroup.entries xs).length (List.replicate g.size deletedEntry),
    List.length_replicate, htake, hdrop, List.append_assoc]
  · rw [hfst]
    exact List.nodup_range.map fun _ _ => Nat.add_left_cancel
  · intro n hn
    rw [hfst] at hn
    obtain ⟨i, hi, rfl⟩ := List.mem_map.mp hn
    have := List.mem_range.mp hi
    rw [List.length_replicate]
    omega
  · intro i a ha
    obtain ⟨hi, rfl⟩ := List.getElem?_eq_some_iff.mp ha
    rw [List.length_replicate] at hi
    rw [List.getElem_replicate]
    exact List.mem_map.mpr ⟨i, List.mem_range.mpr hi, rfl⟩
  · rwa [List.length_replicate]

private theorem groupGone_cut (hzs : ∀ g', .block g' ∉ zs) (hrest : restEmpty (flat EntryGroup.entries zs ++ tail) = true)
    {n : Nat} (hn : (flat EntryGroup.entries xs).length < n) :
    GroupGone xs g zs tail (((flat EntryGroup.entries xs ++
      (List.replicate g.size deletedEntry ++ (flat EntryGroup.entries zs ++ tail))).set
        ((flat EntryGroup.entries xs).length + g.longs.length) (setDirEntryLstEmpty zeroDirEntry)).take n) := by
  obtain ⟨m, rfl⟩ : ∃ m, n = (flat EntryGroup.entries xs).length + (m + 1) :=
    ⟨n - (flat EntryGroup.entries xs).length - 1, by omega⟩
  have hall := restEmpty_replicate_append isEmpty_deletedEntry hrest g.longs.length
  rw [EntryGroup.size, List.replicate_succ, List.cons_append, List.set_append_right _ _ (Nat.le_add_right _ _),
    Nat.add_sub_cancel_left]
  generalize List.replicate g.longs.length deletedEntry ++ (flat EntryGroup.entries zs ++ tail) = rest at hall ⊢
  rw [List.take_append, List.take_of_length_le (Nat.le_add_right _ _), Nat.add_sub_cancel_left]
  -- the marker may take the place of the first entry
  cases g.longs.length with
  | zero =>
    exact ⟨_, rest.take m, by rw [List.set_cons_zero, List.take_succ_cons], by decide, by decide,
      .inr ⟨hzs, by decide, restEmpty_take hall m⟩⟩
  | succ k =>
    exact ⟨_, (rest.set k (setDirEntryLstEmpty zeroDirEntry)).take m, by rw [List.set_cons_succ, List.take_succ_cons],
      isLong_deletedEntry, rfl, .inr ⟨hzs, isEmpty_deletedEntry, restEmpty_take (restEmpty_set (by decide) hall k) m⟩⟩

private theorem empty_of_cut (hzs : ∀ e, .blank e ∈ zs → e.ord = 0xE5) (hno : ∀ g', .block g' ∉ zs)
    (htail : ∀ e ∈ tail, isEmptyDirEntry e = true) {n k : Nat} {e : LongDirEntry}
    (he : e ∈ (((flat EntryGroup.entries xs ++
      (List.replicate g.size deletedEntry ++ (flat EntryGroup.entries zs ++ tail))).set
        ((flat EntryGroup.entries xs).length + k) (setDirEntryLstEmpty zeroDirEntry)).take n).drop
          (flat EntryGroup.entries xs).length) : isEmptyDirEntry e = true := by
  rw [List.set_append_right _ _ (Nat.le_add_right _ _), Nat.add_sub_cancel_left, List.drop_take, List.drop_left] at he
  rcases List.mem_or_eq_of_mem_set (List.mem_of_mem_take he) with he | rfl
  · rcases List.mem_append.mp he with he | he
    · rw [List.eq_of_mem_replicate he]
      exact isEmpty_deletedEntry
    · rcases List.mem_append.mp he with he | he
      · obtain ⟨z, hz, hez⟩ := List.mem_flatMap.mp he
        cases z with
        | blank a =>
          obtain rfl := List.mem_singleton.mp hez
          simp [isEmptyDirEntry, hzs e hz]
        | block g' => exact absurd hz (hno g')
      · exact htail e he
  · decide

/-- What `delFile` has done when it has found the name. -/
theorem File.delFile_some (hs : fs.Sane heads) (hhead : dir.fstClus ∈ heads) (hf : dir.Placed fs l)
    (hdir : dir.isDir = true) (hcap : l.length * bytesPerClus fs.bpb < 2 ^ 32)
    (hlay : GroupLayout (fs.dirEntries l) segs tail) (hrun : dir.delFile cs fs name now = some (some range, fs', dir')) :
    ∃ u gbk xs g zs l', cs.utf8ToUtf16 name = some u ∧ cs.utf8ToGbk (toUpper name) = some gbk ∧
      dirLookup segs u gbk = some range ∧ segs = xs ++ .block g :: zs ∧ g.Named u gbk ∧
      range = ⟨(flat EntryGroup.entries xs).length, g.size⟩ ∧
      fs.DirStep heads dir l fs' dir' l' ∧ l' <+: l ∧
      (flat EntryGroup.entries xs).length < fs.bpb.dirSlots l' ∧ GroupGone xs g zs tail (fs'.dirEntries l') ∧
      ((∀ g', .block g' ∉ zs) → (∀ e ∈ tail, isEmptyDirEntry e = true) →
        ∀ e ∈ (fs'.dirEntries l').drop (flat EntryGroup.entries xs).length, isEmptyDirEntry e = true) := by
  obtain ⟨⟨result, dir₁⟩, hlookup, hrun⟩ := Option.bind_eq_some_iff.mp hrun
  obtain ⟨g₁, hsame, hg₁, hrun₁⟩ := hf.lookupFileInner_eq hs.toMounted hdir hlay cs name now
  rw [hrun₁] at hlookup
  obtain ⟨u, hu, hlookup⟩ := Option.bind_eq_some_iff.mp hlookup
  obtain ⟨gbk, hgbk, hlookup⟩ := Option.map_eq_some_iff.mp hlookup
  obtain ⟨rfl, rfl⟩ := Prod.mk.inj hlookup
  have hread := FAT32fs.DirStep.of_same hs hsame hg₁
  cases hfound : dirLookup segs u gbk with
  | none =>
    rw [hfound] at hrun
    cases hrun
  | some r =>
    rw [hfound] at hrun
    obtain ⟨⟨start, g⟩, hfind, rfl⟩ := Option.map_eq_some_iff.mp hfound
    obtain ⟨xs, zs, rfl, hstart⟩ := exists_of_mem_blocks (List.mem_of_find?_eq_some hfind)
    have hnamed : g.Named u gbk := by simpa using List.find?_some hfind
    obtain rfl : start = (flat EntryGroup.entries xs).length := hstart.trans (Nat.zero_add _)
    obtain ⟨-, hdrop, hle⟩ := hlay.cut
    rw [FAT32fs.length_dirEntries] at hle
    obtain ⟨⟨fs₂, dir₂⟩, hwrites, hrun⟩ := Option.bind_eq_some_iff.mp hrun
    obtain ⟨hstep, hent⟩ := File.writeDirEntries_some hs (hread.worked.fstClus ▸ hhead) hg₁
      (hread.worked.isDir.trans hdir) hcap (fun w hw => by
        obtain ⟨i, hi, rfl⟩ := List.mem_map.mp hw
        have := List.mem_range.mp hi
        dsimp only at this ⊢
        omega) hwrites
    have hbpb := hstep.bpb
    have hent := hent.trans hlay.writeAll_deleted
    have hlast : (if ((((flat EntryGroup.entries xs).length + g.size - 1 : Nat) : Int)) < 0 then 0 else
        ((((flat EntryGroup.entries xs).length + g.size - 1 : Nat) : Int)).toNat + 1) =
          (flat EntryGroup.entries xs).length + g.size := by
      rw [if_neg (Int.not_lt.mpr (Int.natCast_nonneg _)), Int.toNat_natCast]
      rfl
    obtain ⟨g₃, hsame₃, hg₃, hlst⟩ := hstep.placed.isLstNonEmptyEntry_eq hstep.sane.toMounted
      (hstep.worked.isDir.trans (hread.worked.isDir.trans hdir))
      (n := (((flat EntryGroup.entries xs).length + g.size - 1 : Nat) : Int))
      (by rw [hlast]; exact hs.sound.entry_lt hle) now
    have hread₃ := (hread.trans hstep fun x hx => .inl hx).trans (.of_same hstep.sane hsame₃ hg₃) fun x hx => .inl hx
    have hfollow : (fs₂.dirEntries l).drop ((flat EntryGroup.entries xs).length + g.size) =
        flat EntryGroup.entries zs ++ tail := by
      rw [hent, ← List.drop_drop, List.drop_left, List.drop_left' List.length_replicate]
    have hzsblank : ∀ e, .blank e ∈ zs → e.ord = 0xE5 := fun e he =>
      hlay.deleted e (List.mem_append_right _ (List.mem_cons_of_mem _ he))
    dsimp only at hrun
    rw [hlast, hfollow] at hlst
    rw [hlst, Option.bind_eq_bind, Option.bind_some] at hrun
    dsimp only at hrun
    have hpos : 0 < g.size := Nat.succ_pos _
    cases hrest : restEmpty (flat EntryGroup.entries zs ++ tail) with
    | false =>
      -- other groups follow, and the directory keeps its length
      rw [hrest, if_pos (show (!false) = true from rfl), Option.pure_def, Option.some.injEq, Prod.mk.injEq,
        Prod.mk.injEq, Option.some.injEq] at hrun
      obtain ⟨rfl, rfl, rfl⟩ := hrun
      refine ⟨u, gbk, xs, g, zs, l, hu, hgbk, hfound, rfl, hnamed, rfl, hread₃, List.prefix_rfl, by omega, ?_, fun hno => ?_⟩
      · refine ⟨deletedEntry, List.replicate g.longs.length deletedEntry ++ (flat EntryGroup.entries zs ++ tail), ?_,
          isLong_deletedEntry, rfl, .inl ⟨rfl, rfl⟩⟩
        rw [hent, EntryGroup.size, List.replicate_succ, List.cons_append]
      · rw [(restEmpty_iff hlay.marker hzsblank).mpr hno] at hrest
        cases hrest
    | true =>
      have hzs := (restEmpty_iff hlay.marker hzsblank).mp hrest
      rw [hrest, if_neg (show ¬ (!true) = true from Bool.false_ne_true)] at hrun
      obtain ⟨⟨ok, fs₄, dir₄⟩, hmark, hrun⟩ := Option.bind_eq_some_iff.mp hrun
      have hread₃fst := hread₃.worked.fstClus
      obtain ⟨-, hstep₄, hent₄⟩ := File.writeDirEntry_some hread₃.sane (hread₃fst ▸ hhead) hread₃.placed
        (hread₃.worked.isDir.trans hdir) (by rwa [hread₃.bpb]) (by rw [hread₃.bpb]; omega) hmark
      have hall := hread₃.trans hstep₄ fun x hx => .inl hx
      obtain ⟨⟨ok', fs₅, dir₅⟩, htrunc, hrun⟩ := Option.bind_eq_some_iff.mp hrun
      rw [Option.pure_def, Option.some.injEq, Prod.mk.injEq, Prod.mk.injEq, Option.some.injEq] at hrun
      obtain ⟨rfl, rfl, rfl⟩ := hrun
      obtain ⟨l', hcut, hprefix, hin, hent₅⟩ := File.truncate_dir_cut hall.sane (hall.worked.fstClus ▸ hhead)
        hall.placed (hall.worked.isDir.trans hdir) (by rwa [hall.bpb]) (by rw [hall.bpb]; omega) htrunc
      rw [hall.bpb] at hin hent₅
      rw [hent₄, hent] at hent₅
      refine ⟨u, gbk, xs, g, zs, l', hu, hgbk, hfound, rfl, hnamed, rfl, hall.trans hcut fun x hx => .inl hx, hprefix, hin,
        ?_, fun hno htail e he => ?_⟩
      · rw [hent₅]
        exact groupGone_cut hzs hrest hin
      · rw [hent₅] at he
        exact empty_of_cut hzsblank hno htail he

end delFile

end FuseFat32
