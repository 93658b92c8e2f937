import Mathlib.Data.BitVec

/-! The time stamps of `msdosfs_conv.c`, with the static variables that remember the last
conversion in each direction. -/

namespace Mbsd.Msdosfs.Dostime

open List Nat

def dosEpoch : Int := 315532800

def dosEndTime : Int := 4354775999

def secondsTo1980 : Nat := (8 * 365 + 2 * 366) * (24 * 60 * 60)

def regyear : List Nat := [31, 28, 31, 30, 31, 30, 31, 31, 30, 31, 30, 31]

def leapyear : List Nat := [31, 29, 31, 30, 31, 30, 31, 31, 30, 31, 30, 31]

def yearLength (year : Nat) : Nat := if year &&& 3 ≠ 0 then 365 else 366

def months (year : Nat) : List Nat := if year &&& 3 ≠ 0 then regyear else leapyear

structure Last where
  lasttime : Nat
  lastday : Nat
  lastddate : Nat
  lastdtime : Nat
  lastdosdate : Nat
  lastseconds : Nat

/-- The first loop of `unix2dostime`; each round takes more than one day. -/
def yearLoop : Nat → Nat → Nat → Nat × Nat
  | 0, year, days => (year, days)
  | fuel + 1, year, days =>
    if days < yearLength year then (year, days)
    else yearLoop fuel (year + 1) (days - yearLength year)

/-- The second loop, from a month on. -/
def monthLoop : List Nat → Nat → Nat → Nat × Nat
  | [], month, days => (month, days)
  | length :: months, month, days =>
    if days < length then (month, days) else monthLoop months (month + 1) (days - length)

/-- `lastddate` for a number of days since 1970. -/
def ddate (days : Nat) : Nat :=
  let (year, days) := yearLoop days 1970 days
  let (month, days) := monthLoop (months year) 0 days
  let lastddate := ((days + 1) <<< 0) + ((month + 1) <<< 5)
  (if year > 1980 then lastddate + ((year - 1980) <<< 9) else lastddate) % 2 ^ 16

def dtime (t : Nat) : Nat :=
  ((t / 2 % 30) <<< 0) + ((t / 60 % 60) <<< 5) + ((t / 3600 % 24) <<< 11)

/-- `t` when the conversion starts. -/
def dosClamp (sec : Int) : Nat :=
  let t := sec - sec % 2
  (if t < dosEpoch ∨ t > dosEndTime then dosEpoch else t).toNat

/-- `*dhp`, of eight bits. -/
def dhundred (sec nsec : Int) : Nat := ((sec % 2 * 100 + nsec.tdiv 10000000) % 256).toNat

/-- A `NULL` for the time or the hundredths changes nothing but that they are not stored. -/
def unix2dostime (s : Last) (sec nsec : Int) : Last × Nat × Nat × Nat :=
  let t := dosClamp sec
  let s :=
    if s.lasttime ≠ t then
      let s := { s with lasttime := t, lastdtime := dtime t }
      let days := t / (24 * 60 * 60) % 2 ^ 32
      if days ≠ s.lastday then { s with lastday := days, lastddate := ddate days } else s
    else s
  (s, s.lastddate, s.lastdtime, dhundred sec nsec)

section Back

variable (beyond : Nat → List Nat)

def yearsBefore : Nat → Nat
  | 0 => 0
  | y + 1 => yearsBefore y + yearLength y

/-- `lastseconds` for a date. A month above 12 makes the loop read `beyond` the table. -/
def dosSeconds (dd : Nat) : Nat :=
  let year := (dd &&& 0xFE00) >>> 9
  let days := yearsBefore year
  let month := (dd &&& 0x1E0) >>> 5
  let month := if month = 0 then 1 else month
  let days := days + ((months year ++ beyond year).take (month - 1)).sum
  let days := (days + (((dd &&& 0x1F) >>> 0) + 2 ^ 32 - 1)) % 2 ^ 32
  (days * 24 * 60 * 60 + secondsTo1980) % 2 ^ 32

/-- The arguments are of 32 bits, and `lastdosdate` of 16. -/
def dos2unixtime (s : Last) (dd dt dh : Nat) : Last × Nat × Nat :=
  if dd = 0 then (s, 0, 0)
  else
    let seconds := ((dt &&& 0x1F) >>> 0) * 2 + ((dt &&& 0x7E0) >>> 5) * 60 +
      ((dt &&& 0xF800) >>> 11) * 3600 + dh / 100
    let s :=
      if s.lastdosdate ≠ dd then
        { s with lastdosdate := dd % 2 ^ 16, lastseconds := dosSeconds beyond dd }
      else s
    (s, (seconds + s.lastseconds) % 2 ^ 32, dh % 100 * 10000000)

inductive Call
  | unix2dostime (sec nsec : Int)
  | dos2unixtime (dd dt dh : Nat)

def Call.apply (s : Last) : Call → Last
  | .unix2dostime sec nsec => (Dostime.unix2dostime s sec nsec).1
  | .dos2unixtime dd dt dh => (Dostime.dos2unixtime beyond s dd dt dh).1

/-- The variables start as zero. -/
def run (calls : List Call) : Last := calls.foldl (Call.apply beyond) ⟨0, 0, 0, 0, 0, 0⟩

/-- A time is converted after some calls, and its date back after some more. -/
def thereAndBack (before between : List Call) (sec nsec : Int) : Int × Int :=
  let (s, dd, dt, dh) := unix2dostime (run beyond before) sec nsec
  let (_, sec, nsec) := dos2unixtime beyond (between.foldl (Call.apply beyond) s) dd dt dh
  (sec, nsec)

end Back

/-! ## Years, months and fields -/

theorem field (x s w : Nat) : (x &&& ((2 ^ w - 1) <<< s)) >>> s = x / 2 ^ s % 2 ^ w := by
  rw [shiftRight_and_distrib, shiftLeft_shiftRight, and_two_pow_sub_one_eq_mod,
    shiftRight_eq_div_pow]

theorem leap_iff (year : Nat) : year &&& 3 ≠ 0 ↔ year % 4 ≠ 0 := by
  rw [and_two_pow_sub_one_eq_mod year 2]

theorem yearLength_eq (year : Nat) : yearLength year = if year % 4 ≠ 0 then 365 else 366 :=
  if_congr (leap_iff year) rfl rfl

theorem yearsBefore_eq (year : Nat) : yearsBefore year = 365 * year + (year + 3) / 4 := by
  induction year with
  | zero => rfl
  | succ year ih =>
    rw [yearsBefore, ih, yearLength_eq]
    split <;> omega

theorem yearLoop_spec {fuel year days year' days' : Nat} (hfuel : days ≤ fuel)
    (hloop : yearLoop fuel year days = (year', days')) :
    yearsBefore year + days = yearsBefore year' + days' ∧ days' < yearLength year' := by
  have hpos (y : Nat) : 365 ≤ yearLength y := by
    rw [yearLength_eq]
    split <;> omega
  induction fuel generalizing year days with
  | zero =>
    cases hloop
    exact ⟨rfl, Nat.lt_of_le_of_lt hfuel (Nat.lt_of_lt_of_le (by decide) (hpos _))⟩
  | succ fuel ih =>
    rw [yearLoop] at hloop
    split at hloop
    next hlt =>
      cases hloop
      exact ⟨rfl, hlt⟩
    next hlt =>
      have hstep := hpos year
      obtain ⟨hsum, hlast⟩ := ih (by omega) hloop
      refine ⟨?_, hlast⟩
      rw [← hsum, yearsBefore]
      omega

theorem monthLoop_spec {lengths : List Nat} (month : Nat) {days : Nat} (hdays : days < lengths.sum)
    (hlengths : ∀ n ∈ lengths, n ≤ 31) :
    ∃ i < lengths.length, ∃ d < 31, monthLoop lengths month days = (month + i, d) ∧
      days = (lengths.take i).sum + d := by
  induction lengths generalizing month days with
  | nil => cases hdays
  | cons n lengths ih =>
    rw [monthLoop]
    by_cases hlt : days < n
    · refine ⟨0, succ_pos _, days, ?_, if_pos hlt, (Nat.zero_add days).symm⟩
      exact Nat.lt_of_lt_of_le hlt (hlengths n mem_cons_self)
    · rw [sum_cons] at hdays
      obtain ⟨i, hi, d, hd, hloop, hsum⟩ := @ih (month + 1) (days - n)
        (by omega) fun m hm => hlengths m (mem_cons_of_mem n hm)
      refine ⟨i + 1, succ_lt_succ hi, d, hd, ?_, ?_⟩
      · rw [if_neg hlt, hloop, Nat.add_assoc, Nat.add_comm 1]
      · rw [take_succ_cons, sum_cons]
        omega

/-! ## The date of a day -/

section Date

variable {beyond : Nat → List Nat} {days k i d : Nat}

theorem months_sum (year : Nat) : (months year).sum = yearLength year := by
  rw [months, yearLength]
  split <;> rfl

theorem months_le (year : Nat) : ∀ n ∈ months year, n ≤ 31 := by
  rw [months]
  split <;> decide

theorem length_months (year : Nat) : (months year).length = 12 := by
  rw [months]
  split <;> rfl

theorem months_1980 (year : Nat) : months (1980 + year) = months year :=
  if_congr (by rw [leap_iff, leap_iff]; omega) rfl rfl

/-- The date of day `d` of month `i` of a year, all counted from 0. -/
def encode (k i d : Nat) : Nat := ((d + 1) <<< 0) + ((i + 1) <<< 5) + (k <<< 9)

theorem encode_eq (k i d : Nat) : encode k i d = d + 1 + (i + 1) * 32 + k * 512 := by
  simp only [encode, shiftLeft_eq, Nat.pow_zero, Nat.mul_one]

theorem dosSeconds_encode (hk : k < 128) (hi : i < 12) (hd : d < 31) :
    dosSeconds beyond (encode k i d) =
      ((yearsBefore k + ((months k).take i).sum + d) % 2 ^ 32 * 86400 + secondsTo1980) %
        2 ^ 32 := by
  have hyear : (encode k i d &&& 0xFE00) >>> 9 = k :=
    (field _ 9 7).trans (by rw [encode_eq]; omega)
  have hmonth : (encode k i d &&& 0x1E0) >>> 5 = i + 1 :=
    (field _ 5 4).trans (by rw [encode_eq]; omega)
  have hday : (encode k i d &&& 0x1F) >>> 0 = d + 1 :=
    (field _ 0 5).trans (by rw [encode_eq]; omega)
  have htake : (months k ++ beyond k).take i = (months k).take i :=
    take_append_of_le_length (by rw [length_months]; omega)
  rw [dosSeconds, hyear, hmonth, hday, if_neg (succ_ne_zero i), Nat.add_sub_cancel, htake]
  omega

/-- A day from the first of 1980 to the last of 2107. -/
theorem exists_encode (hfirst : 3652 ≤ days) (hlast : days ≤ 50402) :
    ∃ k < 128, ∃ i < 12, ∃ d < 31, ddate days = encode k i d ∧
      yearsBefore k + ((months k).take i).sum + d + 3652 = days := by
  rcases hloop : yearLoop days 1970 days with ⟨year, rest⟩
  obtain ⟨hsum, hrest⟩ := yearLoop_spec (Nat.le_refl days) hloop
  rw [yearsBefore_eq, yearsBefore_eq] at hsum
  have hyear : 1980 ≤ year ∧ year < 2108 := by
    rw [yearLength_eq] at hrest
    split at hrest <;> omega
  obtain ⟨k, rfl⟩ := Nat.exists_eq_add_of_le hyear.1
  rw [← months_sum] at hrest
  obtain ⟨i, hi, d, hd, hmonth, hday⟩ := monthLoop_spec 0 hrest (months_le _)
  rw [length_months] at hi
  rw [months_1980] at hday
  refine ⟨k, by omega, i, hi, d, hd, ?_, ?_⟩
  · rw [ddate, hloop]
    dsimp only
    rw [hmonth]
    simp only [encode, shiftLeft_eq, Nat.add_sub_cancel_left, Nat.zero_add]
    split <;> omega
  · rw [yearsBefore_eq]
    omega

theorem dosSeconds_ddate (hfirst : 3652 ≤ days) (hlast : days ≤ 50402) :
    dosSeconds beyond (ddate days) = days * 86400 % 2 ^ 32 := by
  obtain ⟨k, hk, i, hi, d, hd, hdate, hdays⟩ := exists_encode hfirst hlast
  rw [hdate, dosSeconds_encode hk hi hd, secondsTo1980]
  omega

theorem dtime_back {t : Nat} (ht : t % 2 = 0) :
    ((dtime t &&& 0x1F) >>> 0) * 2 + ((dtime t &&& 0x7E0) >>> 5) * 60 +
      ((dtime t &&& 0xF800) >>> 11) * 3600 = t % 86400 := by
  have hdtime : dtime t = t / 2 % 30 + t / 60 % 60 * 32 + t / 3600 % 24 * 2048 := by
    simp only [dtime, shiftLeft_eq, Nat.pow_zero, Nat.mul_one]
  have hsec : (dtime t &&& 0x1F) >>> 0 = t / 2 % 30 :=
    (field _ 0 5).trans (by rw [hdtime]; omega)
  have hmin : (dtime t &&& 0x7E0) >>> 5 = t / 60 % 60 :=
    (field _ 5 6).trans (by rw [hdtime]; omega)
  have hhour : (dtime t &&& 0xF800) >>> 11 = t / 3600 % 24 :=
    (field _ 11 5).trans (by rw [hdtime]; omega)
  rw [hsec, hmin, hhour]
  omega

end Date

/-! ## What the variables remember -/

section Remember

variable {beyond : Nat → List Nat} {s : Last} {sec nsec : Int} {dd dt dh : Nat}

/-- What is remembered is right, where anything is. -/
structure Right (beyond : Nat → List Nat) (s : Last) : Prop where
  time : s.lasttime ≠ 0 → s.lastdtime = dtime s.lasttime ∧ s.lastday = s.lasttime / 86400 % 2 ^ 32
  day : s.lastday ≠ 0 → s.lastddate = ddate s.lastday
  date : s.lastdosdate ≠ 0 → s.lastseconds = dosSeconds beyond s.lastdosdate

theorem dosClamp_bounds (sec : Int) :
    315532800 ≤ dosClamp sec ∧ dosClamp sec ≤ 4354775998 ∧ dosClamp sec % 2 = 0 := by
  have hepoch : dosEpoch = 315532800 := rfl
  have hend : dosEndTime = 4354775999 := rfl
  rw [dosClamp]
  by_cases hout : sec - sec % 2 < dosEpoch ∨ sec - sec % 2 > dosEndTime
  · rw [if_pos hout]
    decide
  · rw [if_neg hout]
    omega

theorem Right.unix2dostime (h : Right beyond s) (sec nsec : Int) :
    Right beyond (unix2dostime s sec nsec).1 ∧ (unix2dostime s sec nsec).2 =
        (ddate (dosClamp sec / 86400), dtime (dosClamp sec), dhundred sec nsec) := by
  obtain ⟨hfirst, hlast, -⟩ := dosClamp_bounds sec
  have hdays : dosClamp sec / 86400 % 2 ^ 32 = dosClamp sec / 86400 := by omega
  have hpos : dosClamp sec / 86400 ≠ 0 := by omega
  have hdays' : dosClamp sec / (24 * 60 * 60) % 2 ^ 32 = dosClamp sec / 86400 := hdays
  rw [Dostime.unix2dostime]
  rw [hdays']
  by_cases htime : s.lasttime = dosClamp sec
  · rw [if_neg (not_not.mpr htime)]
    obtain ⟨hdtime, hday⟩ := h.time (by omega)
    rw [htime] at hdtime hday
    rw [hdays] at hday
    exact ⟨h, by rw [h.day (hday ▸ hpos), hday, hdtime]⟩
  rw [if_pos htime]
  by_cases hday : s.lastday = dosClamp sec / 86400
  · rw [if_neg (not_not.mpr hday.symm)]
    exact ⟨⟨fun _ => ⟨rfl, hday.trans hdays.symm⟩, h.day, h.date⟩,
      by rw [h.day (hday ▸ hpos), hday]⟩
  · rw [if_pos (Ne.symm hday)]
    exact ⟨⟨fun _ => ⟨rfl, hdays.symm⟩, fun _ => rfl, h.date⟩, rfl⟩

theorem dosSeconds_mod (dd : Nat) : dosSeconds beyond (dd % 2 ^ 16) = dosSeconds beyond dd := by
  have hyear : (dd % 2 ^ 16 &&& 0xFE00) >>> 9 = (dd &&& 0xFE00) >>> 9 :=
    (field _ 9 7).trans ((by omega : _ = _).trans (field dd 9 7).symm)
  have hmonth : (dd % 2 ^ 16 &&& 0x1E0) >>> 5 = (dd &&& 0x1E0) >>> 5 :=
    (field _ 5 4).trans ((by omega : _ = _).trans (field dd 5 4).symm)
  have hday : (dd % 2 ^ 16 &&& 0x1F) >>> 0 = (dd &&& 0x1F) >>> 0 :=
    (field _ 0 5).trans ((by omega : _ = _).trans (field dd 0 5).symm)
  rw [dosSeconds, dosSeconds, hyear, hmonth, hday]

theorem Right.dos2unixtime (h : Right beyond s) (dd dt dh : Nat) :
    Right beyond (dos2unixtime beyond s dd dt dh).1 ∧ (dd ≠ 0 →
      (dos2unixtime beyond s dd dt dh).2 = ((((dt &&& 0x1F) >>> 0) * 2 +
        ((dt &&& 0x7E0) >>> 5) * 60 + ((dt &&& 0xF800) >>> 11) * 3600 + dh / 100 +
        dosSeconds beyond dd) % 2 ^ 32, dh % 100 * 10000000)) := by
  rw [Dostime.dos2unixtime]
  by_cases hzero : dd = 0
  · rw [if_pos hzero]
    exact ⟨h, fun hdd => absurd hzero hdd⟩
  rw [if_neg hzero]
  dsimp only
  by_cases hdate : s.lastdosdate = dd
  · rw [if_neg (not_not.mpr hdate)]
    exact ⟨h, fun _ => by rw [h.date (hdate ▸ hzero), hdate]⟩
  · rw [if_pos hdate]
    exact ⟨⟨h.time, h.day, fun _ => (dosSeconds_mod dd).symm⟩, fun _ => rfl⟩

theorem Right.calls (h : Right beyond s) (calls : List Call) :
    Right beyond (calls.foldl (Call.apply beyond) s) := by
  induction calls generalizing s with
  | nil => exact h
  | cons call calls ih =>
    refine ih ?_
    cases call with
    | unix2dostime sec nsec => exact (h.unix2dostime sec nsec).1
    | dos2unixtime dd dt dh => exact (h.dos2unixtime dd dt dh).1

theorem right_run (beyond : Nat → List Nat) (calls : List Call) : Right beyond (run beyond calls) :=
  Right.calls ⟨fun h => absurd rfl h, fun h => absurd rfl h, fun h => absurd rfl h⟩ calls

theorem thereAndBack_eq (before between : List Call) (hfirst : dosEpoch ≤ sec)
    (hlast : sec ≤ dosEndTime) (hnsec : 0 ≤ nsec) (hlt : nsec < 1000000000) :
    thereAndBack beyond before between sec nsec = (sec % 2 ^ 32, nsec - nsec % 10000000) := by
  have hepoch : dosEpoch = 315532800 := rfl
  have hclamp : (dosClamp sec : Int) = sec - sec % 2 := by
    rw [dosClamp, if_neg (by omega)]
    omega
  have hhundred : (dhundred sec nsec : Int) = sec % 2 * 100 + nsec / 10000000 := by
    rw [dhundred, Int.tdiv_eq_ediv_of_nonneg hnsec]
    omega
  obtain ⟨hstart, hstop, heven⟩ := dosClamp_bounds sec
  obtain ⟨hright, hthere⟩ := (right_run beyond before).unix2dostime sec nsec
  have hdate : ddate (dosClamp sec / 86400) ≠ 0 := by
    obtain ⟨k, -, i, -, d, -, hdate, -⟩ :=
      @exists_encode (dosClamp sec / 86400) (by omega) (by omega)
    rw [hdate, encode_eq]
    omega
  rw [thereAndBack]
  rcases hthere' : unix2dostime (run beyond before) sec nsec with ⟨s, dd, dt, dh⟩
  rw [hthere'] at hright hthere
  cases hthere
  have hback := ((hright.calls between).dos2unixtime (ddate (dosClamp sec / 86400))
    (dtime (dosClamp sec)) (dhundred sec nsec)).2 hdate
  rw [dtime_back heven, dosSeconds_ddate (by omega) (by omega)] at hback
  dsimp only at hback ⊢
  rcases hback' : dos2unixtime beyond (between.foldl (Call.apply beyond) s)
    (ddate (dosClamp sec / 86400)) (dtime (dosClamp sec)) (dhundred sec nsec) with ⟨s', back⟩
  rw [hback'] at hback
  cases hback
  refine Prod.ext ?_ ?_ <;> dsimp only <;> omega

end Remember

/-- Until 2106-02-07 06:28:15 a time comes back, whatever was converted before and in between; then
the 32 bits of the sum of the seconds are too few. -/
theorem dostime_roundtrip (beyond : Nat → List Nat) (before between : List Call) {sec nsec : Int}
    (hfirst : dosEpoch ≤ sec) (hlast : sec ≤ dosEndTime) (hnsec : 0 ≤ nsec)
    (hlt : nsec < 1000000000) :
    thereAndBack beyond before between sec nsec = (sec, nsec - nsec % 10000000) ↔ sec < 2 ^ 32 := by
  rw [thereAndBack_eq before between hfirst hlast hnsec hlt, Prod.mk.injEq]
  have hepoch : dosEpoch = 315532800 := rfl
  omega

theorem dostime_roundtrip_2105 :
    thereAndBack (fun _ => []) [.dos2unixtime 33 0 0] [.unix2dostime 0 0] 4260211201 999999999 =
      (4260211201, 990000000) :=
  (dostime_roundtrip (fun _ => []) [.dos2unixtime 33 0 0] [.unix2dostime 0 0] (by decide)
    (by decide) (by decide) (by decide)).mpr (by decide)

theorem not_dostime_roundtrip :
    ¬ ∀ beyond before between, ∀ sec nsec : Int, dosEpoch ≤ sec → sec ≤ dosEndTime →
      0 ≤ nsec → nsec < 1000000000 →
        thereAndBack beyond before between sec nsec = (sec, nsec - nsec % 10000000) := by
  intro hall
  have hlate := hall (fun _ => []) [] [] 4294967296 0 (by decide) (by decide) (by decide)
    (by decide)
  rw [thereAndBack_eq [] [] (by decide) (by decide) (by decide) (by decide)] at hlate
  exact absurd hlate (by decide)

end Mbsd.Msdosfs.Dostime
