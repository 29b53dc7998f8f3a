import FuseFat32.Fat.DirEntry
import FuseFat32.Library.Calendar
import FuseFat32.Machine.Word

/-!
# Time stamps

An entry keeps a time in two packed words of date and time of day, and its time of creation in a count of 10 ms besides, which carries the odd second as well. `gmtime` goes from seconds to the calendar in UTC, `mktime` back from the calendar of the process's zone; `zone` is the number of seconds the zone is ahead of UTC.
-/

namespace FuseFat32

open Calendar

structure Timespec where
  tvSec : Int
  tvNsec : Nat
  deriving DecidableEq

/-- `struct tm`, as far as it is used. -/
structure Tm where
  tmYear : Int
  tmMon : Int
  tmMday : Int
  tmHour : Int
  tmMin : Int
  tmSec : Int

/-! ### The calendar functions of the library -/

def gmtime (sec : Int) : Tm :=
  let date := Date.ofDays (sec / 86400)
  let rest := sec % 86400
  ⟨date.year - 1900, date.month, date.day, rest / 3600, rest / 60 % 60, rest % 60⟩

/-- The seconds of a calendar time in UTC. Months beyond the year are carried over, as the other fields are. -/
def timegm (tm : Tm) : Int :=
  let year := tm.tmYear + 1900 + tm.tmMon / 12
  let days := daysBeforeYear year + daysBeforeMonth year (tm.tmMon % 12).toNat + (tm.tmMday - 1)
  days * 86400 + tm.tmHour * 3600 + tm.tmMin * 60 + tm.tmSec

/-- `mktime`, without daylight saving. -/
def mktime (zone : Int) (tm : Tm) : Int := timegm tm - zone

theorem gmtime_fields (sec : Int) :
    (0 ≤ (gmtime sec).tmMon ∧ (gmtime sec).tmMon < 12) ∧
      (1 ≤ (gmtime sec).tmMday ∧ (gmtime sec).tmMday < 32) ∧
      (0 ≤ (gmtime sec).tmHour ∧ (gmtime sec).tmHour < 24) ∧
      (0 ≤ (gmtime sec).tmMin ∧ (gmtime sec).tmMin < 60) ∧
      (gmtime sec).tmSec = sec % 60 := by
  have hone := (Date.ofDays (sec / 86400)).one_le_day
  have hday := (Date.ofDays (sec / 86400)).day_lt
  have hmonth := (Date.ofDays (sec / 86400)).month.isLt
  simp only [gmtime]
  omega

private theorem timegm_gmtime (sec : Int) : timegm (gmtime sec) = sec := by
  have hdays := Date.toDays_ofDays (sec / 86400)
  have hmonth := (Date.ofDays (sec / 86400)).month.isLt
  have hyear : (gmtime sec).tmYear + 1900 + (gmtime sec).tmMon / 12 = (Date.ofDays (sec / 86400)).year := by
    simp only [gmtime]
    omega
  have hmon : ((gmtime sec).tmMon % 12).toNat = (Date.ofDays (sec / 86400)).month := by
    simp only [gmtime]
    omega
  rw [timegm, hyear, hmon]
  simp only [Date.toDays] at hdays
  simp only [gmtime]
  omega

private theorem timegm_tmSec (tm : Tm) (sec : Int) : timegm { tm with tmSec := sec } = timegm tm + (sec - tm.tmSec) := by
  simp only [timegm]
  omega

/-! ### The stamps -/

/-- The `w` low bits of an `int`. -/
def lowBits (n : Int) (w : Nat) : Nat := (n % 2 ^ w).toNat

/-- The `w` bits of a word from bit `i` on. -/
def bitsAt (word : UInt16) (i w : Nat) : Nat := word.toNat >>> i &&& (2 ^ w - 1)

def unix2DosTs (unix_ts : Timespec) : FatTimeStamp :=
  let tm := gmtime unix_ts.tvSec
  -- a leap second is ignored
  let tm := if tm.tmSec = 60 then { tm with tmSec := 59 } else tm
  let date := lowBits (tm.tmYear - 80) 7 <<< 9 ||| lowBits (tm.tmMon + 1) 4 <<< 5 ||| lowBits tm.tmMday 5
  let time := lowBits tm.tmHour 5 <<< 11 ||| lowBits tm.tmMin 6 <<< 5 ||| lowBits (tm.tmSec.tdiv 2) 5
  ⟨UInt16.ofNat time, UInt16.ofNat date⟩

/-- The calendar time `dos2UnixTs` hands to `mktime`. -/
def FatTimeStamp.tm (fat_ts : FatTimeStamp) : Tm where
  tmYear := bitsAt fat_ts.date 9 7 + 80
  tmMon := bitsAt fat_ts.date 5 4 - 1
  tmMday := bitsAt fat_ts.date 0 5
  tmHour := bitsAt fat_ts.time 11 5
  tmMin := bitsAt fat_ts.time 5 6
  tmSec := bitsAt fat_ts.time 0 5 * 2

def dos2UnixTs (zone : Int) (fat_ts : FatTimeStamp) : Exec Timespec := do
  let sec := mktime zone fat_ts.tm
  assert (sec ≠ -1)
  return ⟨sec, 0⟩

/-- `unix2DosTs_2`, with the conversion of the date and time given. -/
def unix2DosTs2 (unix2DosTs : Timespec → FatTimeStamp) (unix_ts : Timespec) : FatTimeStamp2 :=
  let tenths_of_msec := UInt8.ofNat (unix_ts.tvNsec / 10000000)
  ⟨if unix_ts.tvSec.tmod 2 = 1 then tenths_of_msec + 100 else tenths_of_msec, unix2DosTs unix_ts⟩

/-- `dos2UnixTs_2`. -/
def dos2UnixTs2 (zone : Int) (fat_ts2 : FatTimeStamp2) : Exec Timespec := do
  assert (fat_ts2.tt.toNat ≤ 199)
  let unix_ts ← dos2UnixTs zone fat_ts2.ts
  let tt := fat_ts2.tt
  if 100 < tt then
    return ⟨unix_ts.tvSec + 1, (tt - 100).toNat * 10000000⟩
  else
    return ⟨unix_ts.tvSec, tt.toNat * 10000000⟩

/-! ### Packing -/

private theorem bitsAt_eq (word : UInt16) (i w : Nat) : bitsAt word i w = word.toNat / 2 ^ i % 2 ^ w := by
  rw [bitsAt, Nat.and_two_pow_sub_one_eq_mod, Nat.shiftRight_eq_div_pow]

private theorem pack_eq {b c i j w : Nat} (hi : i = j + w) (hb : b < 2 ^ w) (hc : c < 2 ^ j) (a : Nat) :
    a <<< i ||| b <<< j ||| c = (a * 2 ^ w + b) * 2 ^ j + c := by
  have hhigh : a <<< i ||| b <<< j = (a <<< w ||| b) <<< j := by
    rw [Nat.shiftLeft_or_distrib, hi, Nat.add_comm, Nat.shiftLeft_add]
  rw [hhigh, ← Nat.shiftLeft_add_eq_or_of_lt hc, ← Nat.shiftLeft_add_eq_or_of_lt hb,
    Nat.shiftLeft_eq, Nat.shiftLeft_eq]

/-- Three fields that fill a word are found again. -/
theorem bitsAt_pack {a b c i j k w : Nat} (hi : i = j + w) (hk : i + k = 16) (ha : a < 2 ^ k)
    (hb : b < 2 ^ w) (hc : c < 2 ^ j) :
    bitsAt (UInt16.ofNat (a <<< i ||| b <<< j ||| c)) i k = a ∧
      bitsAt (UInt16.ofNat (a <<< i ||| b <<< j ||| c)) j w = b ∧
      bitsAt (UInt16.ofNat (a <<< i ||| b <<< j ||| c)) 0 j = c := by
  have hhigh : a * 2 ^ w + b < 2 ^ (k + w) := by
    calc a * 2 ^ w + b < (a + 1) * 2 ^ w := by rw [Nat.succ_mul]; omega
      _ ≤ 2 ^ k * 2 ^ w := Nat.mul_le_mul_right _ ha
      _ = 2 ^ (k + w) := (Nat.pow_add 2 k w).symm
  have hword : (a * 2 ^ w + b) * 2 ^ j + c < 2 ^ 16 := by
    calc (a * 2 ^ w + b) * 2 ^ j + c < (a * 2 ^ w + b + 1) * 2 ^ j := by rw [Nat.succ_mul]; omega
      _ ≤ 2 ^ (k + w) * 2 ^ j := Nat.mul_le_mul_right _ hhigh
      _ = 2 ^ 16 := by rw [← Nat.pow_add]; congr 1; omega
  have hvalue : (UInt16.ofNat (a <<< i ||| b <<< j ||| c)).toNat = (a * 2 ^ w + b) * 2 ^ j + c := by
    rw [pack_eq hi hb hc, UInt16.toNat_ofNat_of_lt' hword]
  have hshift : ((a * 2 ^ w + b) * 2 ^ j + c) / 2 ^ j = a * 2 ^ w + b := by
    rw [Nat.add_comm, Nat.add_mul_div_right _ _ (Nat.two_pow_pos j), Nat.div_eq_of_lt hc, Nat.zero_add]
  simp only [bitsAt_eq, hvalue]
  refine ⟨?_, ?_, ?_⟩
  · rw [hi, Nat.pow_add, ← Nat.div_div_eq_div_mul, hshift, Nat.add_comm,
      Nat.add_mul_div_right _ _ (Nat.two_pow_pos w), Nat.div_eq_of_lt hb, Nat.zero_add, Nat.mod_eq_of_lt ha]
  · rw [hshift, Nat.add_comm, Nat.add_mul_mod_self_right, Nat.mod_eq_of_lt hb]
  · rw [Nat.pow_zero, Nat.div_one, Nat.add_comm, Nat.add_mul_mod_self_right, Nat.mod_eq_of_lt hc]

theorem lowBits_lt (n : Int) (w : Nat) : lowBits n w < 2 ^ w := by
  have hpos : (0 : Int) < 2 ^ w := Int.pow_pos (by decide)
  have hlt := Int.emod_lt_of_pos n hpos
  have hnonneg := Int.emod_nonneg n (Int.ne_of_gt hpos)
  rw [lowBits, ← Int.ofNat_lt, Int.toNat_of_nonneg hnonneg, Int.natCast_pow]
  exact hlt

theorem lowBits_of_lt {n : Int} {w : Nat} (h : 0 ≤ n) (hlt : n < 2 ^ w) : (lowBits n w : Int) = n := by
  rw [lowBits, Int.emod_eq_of_lt h hlt, Int.toNat_of_nonneg h]

/-! ### Storing a time and reading it back -/

/-- The year in UTC is one that the seven bits of the date hold. -/
def DosYear (sec : Int) : Prop := 1980 ≤ (gmtime sec).tmYear + 1900 ∧ (gmtime sec).tmYear + 1900 ≤ 2107

instance (sec : Int) : Decidable (DosYear sec) := inferInstanceAs (Decidable (_ ∧ _))

/-- The stamp of a time holds its calendar fields, with the seconds made even. -/
theorem tm_unix2DosTs {ts : Timespec} (h : DosYear ts.tvSec) :
    (unix2DosTs ts).tm = { gmtime ts.tvSec with tmSec := (gmtime ts.tvSec).tmSec / 2 * 2 } := by
  obtain ⟨hmon, hday, hhour, hmin, hsec⟩ := gmtime_fields ts.tvSec
  obtain ⟨hlow, hhigh⟩ := h
  have hno : (gmtime ts.tvSec).tmSec ≠ 60 := by omega
  obtain ⟨hdate1, hdate2, hdate3⟩ := bitsAt_pack (i := 9) (j := 5) (k := 7) (w := 4) rfl rfl
    (lowBits_lt ((gmtime ts.tvSec).tmYear - 80) 7) (lowBits_lt ((gmtime ts.tvSec).tmMon + 1) 4)
    (lowBits_lt (gmtime ts.tvSec).tmMday 5)
  obtain ⟨htime1, htime2, htime3⟩ := bitsAt_pack (i := 11) (j := 5) (k := 5) (w := 6) rfl rfl
    (lowBits_lt (gmtime ts.tvSec).tmHour 5) (lowBits_lt (gmtime ts.tvSec).tmMin 6)
    (lowBits_lt ((gmtime ts.tvSec).tmSec.tdiv 2) 5)
  have htdiv : (gmtime ts.tvSec).tmSec.tdiv 2 = (gmtime ts.tvSec).tmSec / 2 :=
    Int.tdiv_eq_ediv_of_nonneg (by omega)
  rw [FatTimeStamp.tm, unix2DosTs]
  simp only [if_neg hno, hdate1, hdate2, hdate3, htime1, htime2, htime3]
  rw [lowBits_of_lt (by omega) (by omega), lowBits_of_lt (by omega) (by omega),
    lowBits_of_lt (by omega) (by omega), lowBits_of_lt (by omega) (by omega),
    lowBits_of_lt (by omega) (by omega), lowBits_of_lt (by omega) (by omega), htdiv]
  congr 1
  · omega
  · omega

private theorem mktime_tm {ts : Timespec} (h : DosYear ts.tvSec) (zone : Int) :
    mktime zone (unix2DosTs ts).tm = ts.tvSec / 2 * 2 - zone := by
  have hsec := (gmtime_fields ts.tvSec).2.2.2.2
  rw [mktime, tm_unix2DosTs h, timegm_tmSec, timegm_gmtime]
  omega

/-- A time is stored and read back. -/
def storeAndRead (zone : Int) (ts : Timespec) : Exec Timespec := dos2UnixTs zone (unix2DosTs ts)

/-- A time is stored and read back `n` times. -/
def rounds (zone : Int) : Nat → Timespec → Exec Timespec
  | 0, ts => some ts
  | n + 1, ts => do rounds zone n (← storeAndRead zone ts)

/-- A time comes back rounded down to an even second, however often it is stored and read. -/
structure KeepsTime (zone : Int) (ts : Timespec) : Prop where
  once : storeAndRead zone ts = some ⟨ts.tvSec / 2 * 2, 0⟩
  always : ∀ n, rounds zone (n + 1) ts = some ⟨ts.tvSec / 2 * 2, 0⟩

theorem storeAndRead_eq {ts : Timespec} (h : DosYear ts.tvSec) (zone : Int) :
    storeAndRead zone ts =
      if ts.tvSec / 2 * 2 - zone = -1 then none else some ⟨ts.tvSec / 2 * 2 - zone, 0⟩ := by
  simp only [storeAndRead, dos2UnixTs, mktime_tm h]
  split_ifs with hfail
  · simp [hfail]
  · simp [hfail]

theorem storeAndRead_utc {ts : Timespec} (h : DosYear ts.tvSec) :
    storeAndRead 0 ts = some ⟨ts.tvSec / 2 * 2, 0⟩ := by
  have hne : ts.tvSec / 2 * 2 ≠ -1 := by omega
  rw [storeAndRead_eq h, Int.sub_zero, if_neg hne]

private theorem DosYear.nonneg {sec : Int} (h : DosYear sec) : 0 ≤ sec := by
  have hyear := h.1
  have hle := (yearOf_spec (sec / 86400)).1
  simp only [gmtime, Date.ofDays] at hyear
  simp only [daysBeforeYear, leaps] at hle
  omega

theorem DosYear.even {sec : Int} (h : DosYear sec) : DosYear (sec / 2 * 2) := by
  have hday : sec / 2 * 2 / 86400 = sec / 86400 := by omega
  rw [DosYear, gmtime, hday]
  exact h

private theorem rounds_utc (n : Nat) : ∀ {ts : Timespec}, DosYear ts.tvSec →
    rounds 0 (n + 1) ts = some ⟨ts.tvSec / 2 * 2, 0⟩ := by
  induction n with
  | zero =>
    intro ts h
    simp [rounds, storeAndRead_utc h]
  | succ n ih =>
    intro ts h
    have heven : ts.tvSec / 2 * 2 / 2 * 2 = ts.tvSec / 2 * 2 := by omega
    rw [rounds, storeAndRead_utc h, Option.bind_eq_bind, Option.bind_some,
      @ih ⟨ts.tvSec / 2 * 2, 0⟩ h.even, heven]

/-- Times are kept in the zones that agree with UTC and in no others: `gmtime` and `mktime` disagree by the offset of the zone. -/
theorem keepsTime_iff {zone : Int} {ts : Timespec} (h : DosYear ts.tvSec) :
    KeepsTime zone ts ↔ zone = 0 := by
  constructor
  · intro hkeeps
    have honce := hkeeps.once
    rw [storeAndRead_eq h] at honce
    split at honce
    · cases honce
    · have hsec := congrArg Timespec.tvSec (Option.some.inj honce)
      dsimp only at hsec
      omega
  · rintro rfl
    exact ⟨storeAndRead_utc h, fun n => rounds_utc n h⟩

theorem keepsTime_iff_utc : KeepsTime 0 ⟨1700000001, 7⟩ :=
  (keepsTime_iff (by decide +kernel)).mpr rfl

/-- One hour east of UTC a time comes back an hour early. -/
theorem not_keepsTime_one_hour : DosYear 1700000000 ∧ ¬ KeepsTime 3600 ⟨1700000000, 0⟩ := by
  have hread : storeAndRead 3600 ⟨1700000000, 0⟩ = some ⟨1699996400, 0⟩ := by decide +kernel
  refine ⟨by decide +kernel, fun hkeeps => ?_⟩
  have hsame := hread.symm.trans hkeeps.once
  exact absurd hsame (by decide)

/-! ### Times of creation -/

/-- A time of creation comes back with its second, and rounded down to 10 ms. -/
def KeepsCentiseconds (ts : Timespec) : Prop :=
  ∃ ts', dos2UnixTs2 0 (unix2DosTs2 unix2DosTs ts) = some ts' ∧ ts'.tvSec = ts.tvSec ∧
    ts'.tvNsec = ts.tvNsec / 10000000 * 10000000 ∧ ts'.tvNsec < 10 ^ 9

private theorem unix2DosTs2_tt {ts : Timespec} (h : 0 ≤ ts.tvSec) (hnsec : ts.tvNsec < 10 ^ 9) :
    (unix2DosTs2 unix2DosTs ts).tt.toNat = ts.tvNsec / 10000000 + if ts.tvSec % 2 = 1 then 100 else 0 := by
  have hcount : ts.tvNsec / 10000000 < 100 := by omega
  have hnat : (UInt8.ofNat (ts.tvNsec / 10000000)).toNat = ts.tvNsec / 10000000 :=
    UInt8.toNat_ofNat_of_lt' (by simp only [UInt8.size]; omega)
  have hmod : ts.tvSec.tmod 2 = ts.tvSec % 2 := Int.tmod_eq_emod_of_nonneg h
  simp only [unix2DosTs2, hmod]
  split_ifs
  · rw [UInt8.toNat_add, hnat]
    simp
    omega
  · exact hnat

/-- What is read of a count of 10 ms. A count of 100 is left as it is, although it stands for a whole second. -/
theorem dos2UnixTs2_eq {ts : Timespec} {tt : UInt8} (h : DosYear ts.tvSec) (htt : tt.toNat ≤ 199) :
    dos2UnixTs2 0 ⟨tt, unix2DosTs ts⟩ =
      some (if 100 < tt.toNat then ⟨ts.tvSec / 2 * 2 + 1, (tt.toNat - 100) * 10000000⟩
        else ⟨ts.tvSec / 2 * 2, tt.toNat * 10000000⟩) := by
  have hread : dos2UnixTs 0 (unix2DosTs ts) = some ⟨ts.tvSec / 2 * 2, 0⟩ := storeAndRead_utc h
  have hlt : (100 < tt) ↔ 100 < tt.toNat := UInt8.lt_iff_toNat_lt
  simp only [dos2UnixTs2, htt, decide_true, assert_true, hread, hlt]
  split_ifs with hodd
  · have hsub : (tt - 100).toNat = tt.toNat - 100 :=
      UInt8.toNat_sub_of_le _ _ (UInt8.le_iff_toNat_le.mpr (Nat.le_of_lt hodd))
    simp [hsub]
  · simp

/-- A time of creation is kept unless it lies in the first 10 ms of an odd second. -/
theorem keepsCentiseconds_iff {ts : Timespec} (h : DosYear ts.tvSec) (hnsec : ts.tvNsec < 10 ^ 9) :
    KeepsCentiseconds ts ↔ ¬ (ts.tvSec % 2 = 1 ∧ ts.tvNsec < 10000000) := by
  have htt := unix2DosTs2_tt h.nonneg hnsec
  have hle : (unix2DosTs2 unix2DosTs ts).tt.toNat ≤ 199 := by
    rw [htt]
    split_ifs <;> omega
  have hread := dos2UnixTs2_eq h hle
  rw [htt] at hread
  rw [KeepsCentiseconds]
  change (∃ ts', dos2UnixTs2 0 ⟨(unix2DosTs2 unix2DosTs ts).tt, unix2DosTs ts⟩ = some ts' ∧ _) ↔ _
  rw [hread]
  simp only [Option.some.injEq, exists_eq_left']
  by_cases hodd : ts.tvSec % 2 = 1
  · by_cases hfirst : ts.tvNsec < 10000000
    · -- the count is 100: the second is lost, and 10 ^ 9 ns are no fraction of one
      have hzero : ts.tvNsec / 10000000 = 0 := by omega
      simp [hodd, hfirst, hzero]
    · simp only [hodd, if_true, hfirst, and_false, not_false_eq_true, iff_true]
      rw [if_pos (by omega)]
      dsimp only
      omega
  · simp only [hodd, if_false, false_and, not_false_eq_true, iff_true]
    rw [if_neg (by omega)]
    dsimp only
    omega

theorem keepsCentiseconds_iff_half_second : KeepsCentiseconds ⟨1700000001, 500000000⟩ :=
  (keepsCentiseconds_iff (by decide +kernel) (by decide)).mpr (by decide)

/-- At the start of an odd second the time comes back a second early, with 10 ^ 9 ns. -/
theorem not_keepsCentiseconds_odd_second : DosYear 1700000001 ∧ ¬ KeepsCentiseconds ⟨1700000001, 0⟩ := by
  have hread : dos2UnixTs2 0 (unix2DosTs2 unix2DosTs ⟨1700000001, 0⟩) = some ⟨1700000000, 1000000000⟩ := by
    decide +kernel
  refine ⟨by decide +kernel, ?_⟩
  rintro ⟨ts', hkept, hsec, -⟩
  obtain rfl := Option.some.inj (hread.symm.trans hkept)
  exact absurd hsec (by decide)

end FuseFat32
