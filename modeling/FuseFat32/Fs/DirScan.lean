import FuseFat32.Fs.Directory

/-!
# The loops of a directory as loops over a list

What `readDirEntry` shows of a directory is a list of entries. A loop over the entries does with the object what the same loop does with that list, and leaves the object as it was but for what reading changes.
-/

namespace FuseFat32

/-- The entries of a directory that `readDirEntry` returns. -/
def BPB.dirSlots (bpb : BPB) (l : List Nat) : Nat := u32 (l.length * bytesPerClus bpb) / kDirEntrySize

def FAT32fs.dirEntries (fs : FAT32fs) (l : List Nat) : List LongDirEntry :=
  (List.range (fs.bpb.dirSlots l)).map (fs.entryAt l)

/-- The loop over a list of entries, the first of them with number `n`. -/
def scanList {σ ρ : Type} (step : Nat → LongDirEntry → σ → Exec (σ ⊕ ρ)) (done : Nat → σ → Exec ρ) :
    List LongDirEntry → Nat → σ → Exec ρ
  | [], n, s => done n s
  | e :: es, n, s => (step n e s).bind fun
    | .inl s => scanList step done es (n + 1) s
    | .inr r => some r

section scan

variable {fs : FAT32fs} {dir : File} {l : List Nat} {σ ρ : Type}
  {step : Nat → LongDirEntry → σ → Exec (σ ⊕ ρ)} {done : Nat → σ → Exec ρ}

theorem scanList_next {e : LongDirEntry} {es : List LongDirEntry} {n : Nat} {s s' : σ}
    (h : step n e s = some (.inl s')) :
    scanList step done (e :: es) n s = scanList step done es (n + 1) s' := by
  rw [scanList, h]
  rfl

theorem scanList_stop {e : LongDirEntry} {es : List LongDirEntry} {n : Nat} {s : σ} {r : ρ}
    (h : step n e s = some (.inr r)) : scanList step done (e :: es) n s = some r := by
  rw [scanList, h]
  rfl

@[simp] theorem FAT32fs.length_dirEntries : (fs.dirEntries l).length = fs.bpb.dirSlots l := by
  simp [FAT32fs.dirEntries]

theorem FAT32fs.getElem?_dirEntries {n : Nat} (hn : n < fs.bpb.dirSlots l) :
    (fs.dirEntries l)[n]? = some (fs.entryAt l n) := by
  simp [FAT32fs.dirEntries, hn]

theorem BPB.Sound.dirSlots_mul {bpb : BPB} (hs : bpb.Sound) (l : List Nat) :
    kDirEntrySize * bpb.dirSlots l = u32 (l.length * bytesPerClus bpb) := by
  rw [BPB.dirSlots, hs.bytesPerClus_eq, ← Nat.mul_assoc]
  generalize l.length * bpb.secPerClus.toNat = k
  simp only [u32, sectorSize, kDirEntrySize]
  omega

theorem BPB.Sound.dirSlots_lt {bpb : BPB} (hs : bpb.Sound) (l : List Nat) :
    kDirEntrySize * bpb.dirSlots l < 2 ^ 32 := hs.dirSlots_mul l ▸ u32_lt _

theorem BPB.Sound.entry_lt {bpb : BPB} (hs : bpb.Sound) {n : Nat} (hn : n ≤ bpb.dirSlots l) :
    kDirEntrySize * n < 2 ^ 32 := Nat.lt_of_le_of_lt (Nat.mul_le_mul_left _ hn) (hs.dirSlots_lt l)

/-- `readDirEntry` shows the list of entries, and nothing behind it. -/
theorem File.Placed.readDirEntry_eq (hm : fs.Mounted) (hf : dir.Placed fs l) (hdir : dir.isDir = true)
    {n : Nat} (hn : kDirEntrySize * n < 2 ^ 32) (now : FatTimeStamp) :
    ∃ g, dir.readDirEntry fs n now = some ((fs.dirEntries l)[n]?, g) ∧ dir.Same g ∧ g.Placed fs l := by
  have hmul := hm.sound.dirSlots_mul l
  rcases Nat.lt_or_ge n (fs.bpb.dirSlots l) with hin | hout
  · have hend : kDirEntrySize * (n + 1) ≤ u32 (l.length * bytesPerClus fs.bpb) :=
      hmul ▸ Nat.mul_le_mul_left _ hin
    rw [FAT32fs.getElem?_dirEntries hin]
    exact hf.readDirEntry hm hdir hend now
  · obtain ⟨g, hread, hsame, hg⟩ := File.Placed.read_eq hm (hf.sized_dir hm hdir) kDirEntrySize
      (kDirEntrySize * n) now
    rw [← hmul, Nat.sub_eq_zero_of_le (Nat.mul_le_mul_left _ hout), Nat.min_zero] at hread
    refine ⟨g, ?_, hsame, hg⟩
    rw [File.readDirEntry, u32_of_lt hn, hread, List.getElem?_eq_none (by simpa using hout)]
    rfl

/-- A loop over the directory is the loop over its list of entries. -/
theorem File.Placed.scanEntries_eq (hm : fs.Mounted) (hdir : dir.isDir = true) (now : FatTimeStamp)
    (fuel : Nat) : ∀ {g : File} {n : Nat} {s : σ}, dir.Same g → g.Placed fs l → kDirEntrySize * n < 2 ^ 32 →
    fs.bpb.dirSlots l - n < fuel → ∃ g', dir.Same g' ∧ g'.Placed fs l ∧
      File.scanEntries fs now step done fuel g n s =
        (scanList step done ((fs.dirEntries l).drop n) n s).map (·, g') := by
  induction fuel with
  | zero => exact fun _ _ _ hfuel => absurd hfuel (Nat.not_lt_zero _)
  | succ fuel ih =>
    intro g n s hsame hg hn hfuel
    have hgdir : g.isDir = true := by
      rw [hsame]
      exact hdir
    obtain ⟨g₁, hread, hsame₁, hg₁⟩ := hg.readDirEntry_eq hm hgdir hn now
    rw [File.scanEntries, hread]
    rcases Nat.lt_or_ge n (fs.bpb.dirSlots l) with hin | hout
    · have hdrop : (fs.dirEntries l).drop n = fs.entryAt l n :: (fs.dirEntries l).drop (n + 1) := by
        rw [List.drop_eq_getElem_cons (by simpa using hin)]
        simp [FAT32fs.dirEntries]
      rw [FAT32fs.getElem?_dirEntries hin, hdrop, scanList]
      rcases hstep : step n (fs.entryAt l n) s with _ | ⟨s' | r⟩
      · refine ⟨g₁, hsame.trans hsame₁, hg₁, ?_⟩
        simp [hstep]
      · obtain ⟨g', hsame', hg', hrun⟩ := ih (s := s') (hsame.trans hsame₁) hg₁ (hm.sound.entry_lt hin) (by omega)
        refine ⟨g', hsame', hg', ?_⟩
        simpa [hstep] using hrun
      · refine ⟨g₁, hsame.trans hsame₁, hg₁, ?_⟩
        simp [hstep]
    · refine ⟨g₁, hsame.trans hsame₁, hg₁, ?_⟩
      rw [List.getElem?_eq_none (by simpa using hout), List.drop_eq_nil_of_le (by simpa using hout), scanList]
      rcases done n s with _ | r <;> simp

theorem BPB.Sound.dirSlots_lt_fuel {bpb : BPB} (hs : bpb.Sound) (l : List Nat) (n : Nat) :
    bpb.dirSlots l - n < slotFuel := by
  have := hs.dirSlots_lt l
  simp only [kDirEntrySize, slotFuel] at this ⊢
  omega

theorem File.Placed.scan_from (hf : dir.Placed fs l) (step : Nat → LongDirEntry → σ → Exec (σ ⊕ ρ))
    (done : Nat → σ → Exec ρ) (hm : fs.Mounted) (hdir : dir.isDir = true)
    (now : FatTimeStamp) {n : Nat} (hn : kDirEntrySize * n < 2 ^ 32) (s : σ) :
    ∃ g, dir.Same g ∧ g.Placed fs l ∧ File.scanEntries fs now step done slotFuel dir n s =
      (scanList step done ((fs.dirEntries l).drop n) n s).map (·, g) :=
  File.Placed.scanEntries_eq hm hdir now slotFuel (show dir.Same dir from rfl) hf hn
    (hm.sound.dirSlots_lt_fuel l n)

/-- A loop that returns has only read the directory, wherever it began. -/
theorem File.Placed.scanEntries_same (hm : fs.Mounted) {now : FatTimeStamp} : ∀ {fuel : Nat} {dir g : File}
    {n : Nat} {s : σ} {r : ρ}, dir.Placed fs l → dir.isDir = true →
    File.scanEntries fs now step done fuel dir n s = some (r, g) → dir.Same g ∧ g.Placed fs l := by
  intro fuel
  induction fuel with
  | zero => exact fun _ _ h => nomatch h
  | succ fuel ih =>
    intro dir g n s r hf hdir hrun
    obtain ⟨g₁, hread, hsame, hg₁⟩ := File.Placed.read_eq hm (hf.sized_dir hm hdir) kDirEntrySize
      (u32 (kDirEntrySize * n)) now
    rw [File.scanEntries, File.readDirEntry, hread] at hrun
    simp only [Option.bind_eq_bind, Option.bind_some, Option.pure_def] at hrun
    split at hrun
    · obtain ⟨r', -, heq⟩ := Option.bind_eq_some_iff.mp hrun
      obtain ⟨-, rfl⟩ := Prod.mk.inj (Option.some.inj heq)
      exact ⟨hsame, hg₁⟩
    · obtain ⟨next, -, hrun⟩ := Option.bind_eq_some_iff.mp hrun
      cases next with
      | inl s' =>
        have hgdir : g₁.isDir = true := by
          rw [hsame]
          exact hdir
        obtain ⟨hsame', hg⟩ := ih hg₁ hgdir hrun
        exact ⟨hsame.trans hsame', hg⟩
      | inr r' =>
        obtain ⟨-, rfl⟩ := Prod.mk.inj (Option.some.inj hrun)
        exact ⟨hsame, hg₁⟩

end scan

end FuseFat32
