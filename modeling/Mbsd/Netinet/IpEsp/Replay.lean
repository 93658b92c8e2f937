import Mbsd.Lib.Ring

/-! The replay window of a security association: `checkreplaywindow`. -/

namespace Mbsd.Netinet.IpEsp

open Lib.RingSweep

variable {sh : BitVec 32}

def ahHmacInitialRpl : BitVec 32 := 1

def tdbReplaywaste : Nat := 32

def tdbReplaymax : Nat := 2100 + tdbReplaywaste

abbrev seenSize : Nat := 67

def tdbfEsn : BitVec 32 := 0x100000

abbrev Seen : Type := Fin seenSize → BitVec 32

structure Tdb where
  tdbFlags : BitVec 32
  tdbRpl : BitVec 64
  tdbSeen : Seen

def Tdb.esn (tdb : Tdb) : Bool := tdb.tdbFlags &&& tdbfEsn ≠ 0

def idx (seq : BitVec 32) : Fin seenSize where
  val := seq.toNat % tdbReplaymax / 32
  isLt := by
    rw [tdbReplaymax, tdbReplaywaste, seenSize]
    omega

def packet (seq : BitVec 32) : BitVec 32 := 1#32 <<< (31 - (seq &&& 31))

def isSeen (seen : Seen) (seq : BitVec 32) : Bool := seen (idx seq) &&& packet seq ≠ 0

def markSeen (seen : Seen) (seq : BitVec 32) : Seen :=
  Function.update seen (idx seq) (seen (idx seq) ||| packet seq)

def advance (tdb : Tdb) (tl window seq seqh : BitVec 32) : Tdb :=
  let seen :=
    if seq - tl > window then fun _ => 0
    else sweep 0 (idx seq) seenSize (idx tl) tdb.tdbSeen
  { tdb with
    tdbSeen := markSeen seen seq
    tdbRpl := seqh.setWidth 64 <<< 32 ||| seq.setWidth 64 }

def checkreplaywindow (tdb : Tdb) (t : BitVec 64) (seq seqh : BitVec 32) (commit : Bool) :
    Nat × BitVec 32 × Tdb :=
  let tl := t.setWidth 32
  let th := (t >>> 32).setWidth 32
  if tdb.esn ∧ seq = 0 ∧ tl ≤ ahHmacInitialRpl ∧ th = 0 ∨ ¬tdb.esn ∧ seq = 0 then
    (1, seqh, tdb)
  else
    let full := BitVec.ofNat 32 (tdbReplaymax - tdbReplaywaste)
    let window := if th = 0 ∧ tl < full then tl else full
    let wl := tl - window + 1
    if tl ≥ window - 1 ∧ seq ≥ wl ∨ tl < window - 1 ∧ seq < wl then
      if seq > tl then (0, th, if commit then advance tdb tl window seq th else tdb)
      else if tl - seq ≥ window then (2, th, tdb)
      else if isSeen tdb.tdbSeen seq then (3, th, tdb)
      else (0, th, if commit then { tdb with tdbSeen := markSeen tdb.tdbSeen seq } else tdb)
    else if ¬tdb.esn then (2, seqh, tdb)
    else if tl < window - 1 ∧ seq ≥ wl then
      if isSeen tdb.tdbSeen seq then (3, seqh, tdb)
      else (0, th - 1, if commit then { tdb with tdbSeen := markSeen tdb.tdbSeen seq } else tdb)
    else if th + 1 = 0 then (1, th + 1, tdb)
    else (0, th + 1, if commit then advance tdb tl window seq (th + 1) else tdb)

/-! Which numbers share a word of the window, and what is written there.  Numbers have 64 bits; the
ring starts again at each multiple of `2 ^ 32`. -/

open BitVec Function

def seqOf (n : Nat) : BitVec 32 := BitVec.ofNat 32 n

def word (n : Nat) : Fin seenSize := idx (seqOf n)

def Recorded (seen : Seen) (n : Nat) : Prop := isSeen seen (seqOf n) = true

variable {seen : Seen} {n m x N : Nat} {seq : BitVec 32}

theorem val_word (n : Nat) : (word n).val = n % 4294967296 % 2132 / 32 := by
  have h : (seqOf n).toNat = n % 4294967296 := toNat_ofNat n 32
  simp only [word, idx, h, tdbReplaymax, tdbReplaywaste]

theorem word_eq_iff : word n = word m ↔
    n % 4294967296 % 2132 / 32 = m % 4294967296 % 2132 / 32 := by
  rw [Fin.ext_iff, val_word, val_word]

theorem turns (hle : n ≤ m) (hlt : m < n + 2132) :
    m / 4294967296 = n / 4294967296 ∧ m % 4294967296 / 2132 = n % 4294967296 / 2132 ∨
      m / 4294967296 = n / 4294967296 ∧ m % 4294967296 / 2132 = n % 4294967296 / 2132 + 1 ∨
      m / 4294967296 = n / 4294967296 + 1 ∧ m % 4294967296 / 2132 = 0 ∧
        n % 4294967296 / 2132 = 2014524 ∨
      m / 4294967296 = n / 4294967296 + 1 ∧ m % 4294967296 / 2132 = 0 ∧
        n % 4294967296 / 2132 = 2014523 := by
  have hspace : m / 4294967296 = n / 4294967296 ∨ m / 4294967296 = n / 4294967296 + 1 := by omega
  rcases hspace with hspace | hspace <;> omega

theorem word_eq_cases (h : word n = word m) (hle : n ≤ m) (hlt : m < n + 2132) :
    m < n + 32 ∧ m / 4294967296 = n / 4294967296 ∨ n + 2101 ≤ m ∧ m / 4294967296 = n / 4294967296 ∨
      n + 2097 ≤ m ∧ m / 4294967296 = n / 4294967296 + 1 := by
  rw [word_eq_iff] at h
  rcases turns hle hlt with hturn | hturn | hturn | hturn <;> omega

theorem bit_ne (hlt : n < m) (hclose : m < n + 2112) : ¬(word n = word m ∧ n % 32 = m % 32) := by
  rintro ⟨hword, hbit⟩
  rcases word_eq_cases hword hlt.le (by omega) with h | h | h <;> omega

theorem not_swept_of_le (hm : m ≤ N) (hN : N < n) (hlt : n < m + 2100)
    (hspace : m / 4294967296 = n / 4294967296) : ¬Swept (word N) (word n) (word m) := by
  simp only [Swept, Fin.le_def, Fin.lt_def, val_word]
  rcases turns hm (by omega) with h | h | h | h <;>
    rcases turns hN.le (by omega) with h' | h' | h' | h' <;> split <;> omega

theorem word_eq_of_not_swept (hN : N < m) (hm : m < n) (hle : n ≤ N + 2100)
    (hspace : N / 4294967296 = n / 4294967296) (h : ¬Swept (word N) (word n) (word m)) :
    word m = word N ∧ m < N + 32 := by
  simp only [Swept, Fin.le_def, Fin.lt_def, val_word] at h
  rw [word_eq_iff]
  rcases turns hN.le (by omega) with h' | h' | h' | h' <;>
    rcases turns (hN.trans hm).le (by omega) with h'' | h'' | h'' | h'' <;> split at h <;> omega

theorem packet_eq (seq : BitVec 32) : packet seq = twoPow 32 (31 - seq.toNat % 32) := by
  have hmask : (seq &&& 31).toNat = seq.toNat % 32 := by
    rw [toNat_and]
    exact Nat.and_two_pow_sub_one_eq_mod seq.toNat 5
  have hshift : (31 - (seq &&& 31)).toNat = 31 - seq.toNat % 32 := by
    rw [toNat_sub_of_le, hmask]
    · rfl
    · rw [le_def, hmask]
      change seq.toNat % 32 ≤ 31
      omega
  rw [packet, shiftLeft_eq', hshift, twoPow]

theorem isSeen_eq (seen : Seen) (seq : BitVec 32) :
    isSeen seen seq = (seen (idx seq)).getLsbD (31 - seq.toNat % 32) := by
  have hbit : twoPow 32 (31 - seq.toNat % 32) ≠ 0#32 := by
    intro h
    have := congrArg (fun b => b.getLsbD (31 - seq.toNat % 32)) h
    simp at this
    omega
  rw [isSeen, packet_eq, and_twoPow]
  cases (seen (idx seq)).getLsbD (31 - seq.toNat % 32) <;> simp [hbit]

theorem isSeen_markSeen (seen : Seen) (seq seq' : BitVec 32) :
    isSeen (markSeen seen seq) seq' = true ↔
      isSeen seen seq' = true ∨ idx seq = idx seq' ∧ seq.toNat % 32 = seq'.toNat % 32 := by
  rw [isSeen_eq, isSeen_eq, markSeen]
  by_cases hidx : idx seq = idx seq'
  · have hbit : 31 - seq.toNat % 32 = 31 - seq'.toNat % 32 ↔
        seq.toNat % 32 = seq'.toNat % 32 := by omega
    rw [hidx, update_self, getLsbD_or, packet_eq, getLsbD_twoPow,
      Bool.or_eq_true, Bool.and_eq_true, decide_eq_true_iff, decide_eq_true_iff, hbit]
    simp only [true_and]
    exact or_congr_right (and_iff_right (by omega))
  · rw [update_of_ne (Ne.symm hidx)]
    simp only [hidx, false_and, or_false]

theorem recorded_markSeen : Recorded (markSeen seen (seqOf x)) n ↔
    Recorded seen n ∨ word x = word n ∧ x % 32 = n % 32 := by
  have hmod : ∀ k, (seqOf k).toNat % 32 = k % 32 := fun k => by
    rw [seqOf, toNat_ofNat]
    omega
  rw [Recorded, isSeen_markSeen, hmod, hmod]
  exact Iff.rfl

theorem not_recorded_zero (n : Nat) : ¬Recorded (fun _ => 0) n := by
  rw [Recorded, isSeen_eq]
  simp

theorem recorded_sweep : Recorded (sweep 0 (word n) seenSize (word N) seen) m ↔
    ¬Swept (word N) (word n) (word m) ∧ Recorded seen m := by
  have hword : idx (seqOf m) = word m := rfl
  rw [Recorded, isSeen_eq, hword, sweep_apply (steps_lt _ _).le, Recorded, isSeen_eq, hword]
  split
  next h => simp [h]
  next h => simp [h]

/-! What a call of `checkreplaywindow` can do, in terms of 64-bit numbers. -/

open Nat

def Tdb.high (tdb : Tdb) : Nat := tdb.tdbRpl.toNat

def number (seqh seq : BitVec 32) : Nat := seqh.toNat * 2 ^ 32 + seq.toNat

def Tdb.check (tdb : Tdb) (seq seqh : BitVec 32) : Nat × BitVec 32 × Tdb :=
  checkreplaywindow tdb tdb.tdbRpl seq seqh true

structure InWindow (tdb : Tdb) (n : Nat) : Prop where
  pos : 1 ≤ n
  le : n ≤ tdb.high
  lt : tdb.high < n + 2100

def kept (tdb : Tdb) (n : Nat) : Seen :=
  if tdb.high < 2100 ∧ 2 * tdb.high < n ∨ tdb.high + 2100 < n then fun _ => 0
  else sweep 0 (word n) seenSize (word tdb.high) tdb.tdbSeen

inductive Verdict (tdb : Tdb) (seq : BitVec 32) : Nat × BitVec 32 × Tdb → Prop
  | refused {r : Nat} {seqh : BitVec 32} : r = 1 ∨ r = 2 → Verdict tdb seq (r, seqh, tdb)
  | seen {n : Nat} {seqh : BitVec 32} :
      InWindow tdb n → seqOf n = seq → Recorded tdb.tdbSeen n → Verdict tdb seq (3, seqh, tdb)
  | old {n : Nat} {seqh : BitVec 32} :
      InWindow tdb n → number seqh seq = n → ¬Recorded tdb.tdbSeen n →
        Verdict tdb seq (0, seqh, { tdb with tdbSeen := markSeen tdb.tdbSeen seq })
  | new {n : Nat} {seqh : BitVec 32} {tdb' : Tdb} :
      tdb.high < n → n < tdb.high + 2 ^ 32 → number seqh seq = n →
        (tdb.esn = false → n / 2 ^ 32 = tdb.high / 2 ^ 32) → tdb'.tdbFlags = tdb.tdbFlags →
        tdb'.high = n → tdb'.tdbSeen = markSeen (kept tdb n) seq →
        Verdict tdb seq (0, seqh, tdb')

variable {tdb : Tdb} {seq seqh : BitVec 32} {n : Nat}

theorem seqOf_number (seqh seq : BitVec 32) : seqOf (number seqh seq) = seq := by
  apply eq_of_toNat_eq
  rw [seqOf, number, toNat_ofNat, mul_add_mod_self_right, mod_eq_of_lt seq.isLt]

theorem toNat_rpl (seqh seq : BitVec 32) :
    (seqh.setWidth 64 <<< 32 ||| seq.setWidth 64).toNat = number seqh seq := by
  have hs := seq.isLt
  rw [BitVec.toNat_or, BitVec.toNat_shiftLeft, BitVec.toNat_setWidth, BitVec.toNat_setWidth,
    Nat.mod_eq_of_lt (by omega), Nat.mod_eq_of_lt (by omega), Nat.shiftLeft_eq,
    Nat.mod_eq_of_lt (by omega), number, Nat.mul_comm, Nat.two_pow_add_eq_or_of_lt hs]

theorem toNat_low (t : BitVec 64) : (t.setWidth 32).toNat = t.toNat % 2 ^ 32 :=
  toNat_setWidth 32 t

theorem toNat_high (t : BitVec 64) : ((t >>> 32).setWidth 32).toNat = t.toNat / 2 ^ 32 := by
  rw [toNat_setWidth, toNat_ushiftRight, shiftRight_eq_div_pow]
  omega

theorem halves (tdb : Tdb) : (tdb.tdbRpl.setWidth 32).toNat = tdb.high % 2 ^ 32 ∧
    ((tdb.tdbRpl >>> 32).setWidth 32).toNat = tdb.high / 2 ^ 32 :=
  ⟨toNat_low _, toNat_high _⟩

theorem advance_high (tl window : BitVec 32) :
    (advance tdb tl window seq seqh).high = number seqh seq := toNat_rpl seqh seq

theorem advance_seen {tl window : BitVec 32} (htl : tl = seqOf tdb.high) (hseq : seqOf n = seq)
    (hover : seq - tl > window ↔ tdb.high < 2100 ∧ 2 * tdb.high < n ∨ tdb.high + 2100 < n) :
    (advance tdb tl window seq seqh).tdbSeen = markSeen (kept tdb n) seq := by
  subst htl
  rw [advance, kept]
  rw [if_congr hover rfl rfl, word, word, hseq]

theorem check_verdict (hpos : 1 ≤ tdb.high) (seq seqh : BitVec 32) :
    Verdict tdb seq (tdb.check seq seqh) := by
  obtain ⟨htl, hth⟩ := halves tdb
  rw [Tdb.check, checkreplaywindow]
  dsimp only
  generalize tdb.tdbRpl.setWidth 32 = tl at htl ⊢
  generalize (tdb.tdbRpl >>> 32).setWidth 32 = th at hth ⊢
  split
  next => exact .refused (.inl rfl)
  next hzero =>
    have hfull : (BitVec.ofNat 32 (tdbReplaymax - tdbReplaywaste)).toNat = 2100 := rfl
    have hwindow : (if th = 0 ∧ tl < BitVec.ofNat 32 (tdbReplaymax - tdbReplaywaste) then tl
        else BitVec.ofNat 32 (tdbReplaymax - tdbReplaywaste)).toNat =
          if tdb.high < 2100 then tdb.high else 2100 := by
      have hiff : th = 0 ∧ tl < BitVec.ofNat 32 (tdbReplaymax - tdbReplaywaste) ↔
          tdb.high < 2100 := by
        rw [lt_def, hfull, ← toNat_inj, hth, htl]
        change _ = 0 ∧ _ ↔ _
        omega
      rw [if_congr hiff rfl rfl]
      split
      · rw [htl]
        omega
      · exact hfull
    generalize (if th = 0 ∧ tl < BitVec.ofNat 32 (tdbReplaymax - tdbReplaywaste) then tl
        else BitVec.ofNat 32 (tdbReplaymax - tdbReplaywaste)) = window at hwindow ⊢
    have hwl : (tl - window + 1).toNat = (tl.toNat + 2 ^ 32 - window.toNat + 1) % 2 ^ 32 := by
      rw [toNat_add, toNat_sub]
      change (_ + 1) % _ = _
      omega
    have hw1 : (window - 1).toNat = window.toNat - 1 := by
      rw [toNat_sub]
      change (2 ^ 32 - 1 + _) % _ = _
      split at hwindow <;> omega
    have hnum : number th seq = tdb.high / 2 ^ 32 * 2 ^ 32 + seq.toNat := by rw [number, hth]
    have hseq := seqOf_number th seq
    have hrec : isSeen tdb.tdbSeen seq = true ↔ Recorded tdb.tdbSeen (number th seq) := by
      rw [Recorded, hseq]
    have htlseq : tl = seqOf tdb.high := by
      apply eq_of_toNat_eq
      rw [htl, seqOf, toNat_ofNat]
    split
    next hspace =>
      simp only [ge_iff_le, le_def, lt_def, hw1, hwl] at hspace
      split
      next hgt =>
        rw [gt_iff_lt, lt_def] at hgt
        refine .new (n := number th seq) ?_ ?_ rfl ?_ rfl (advance_high tl window)
          (advance_seen htlseq hseq ?_)
        · omega
        · omega
        · omega
        · rw [gt_iff_lt, lt_def, toNat_sub_of_le (le_def.mpr hgt.le), hwindow]
          split <;> omega
      next hle =>
        rw [gt_iff_lt, lt_def, Nat.not_lt] at hle
        split
        next => exact .refused (.inr rfl)
        next hold =>
          rw [ge_iff_le, le_def, toNat_sub_of_le (le_def.mpr hle)] at hold
          have hin : InWindow tdb (number th seq) := by
            constructor <;> split at hwindow <;> omega
          split
          next hseen => exact .seen hin hseq (hrec.mp hseen)
          next hnew => exact .old hin rfl fun h => hnew (hrec.mpr h)
    next hspace =>
      simp only [ge_iff_le, le_def, lt_def, hw1, hwl] at hspace
      split
      next => exact .refused (.inr rfl)
      next hesn =>
        split
        next hprev =>
          simp only [ge_iff_le, le_def, lt_def, hw1, hwl] at hprev
          have hfar : 2100 ≤ tdb.high := by
            by_contra hnear
            rw [if_pos (Nat.lt_of_not_le hnear)] at hwindow
            omega
          rw [if_neg (Nat.not_lt.mpr hfar)] at hwindow
          have hth1 : (th - 1).toNat = tdb.high / 2 ^ 32 - 1 := by
            rw [toNat_sub, hth]
            change (2 ^ 32 - 1 + _) % _ = _
            omega
          have hnum1 : number (th - 1) seq = (tdb.high / 2 ^ 32 - 1) * 2 ^ 32 + seq.toNat := by
            rw [number, hth1]
          have hseq1 := seqOf_number (th - 1) seq
          have hrec1 : isSeen tdb.tdbSeen seq = true ↔
              Recorded tdb.tdbSeen (number (th - 1) seq) := by
            rw [Recorded, hseq1]
          have hin : InWindow tdb (number (th - 1) seq) := by
            constructor <;> omega
          split
          next hseen => exact .seen hin hseq1 (hrec1.mp hseen)
          next hnew => exact .old hin rfl fun h => hnew (hrec1.mpr h)
        next hnext =>
          simp only [ge_iff_le, le_def, lt_def, hw1, hwl] at hnext
          split
          next => exact .refused (.inl rfl)
          next hwrap =>
            have hth1 : (th + 1).toNat = tdb.high / 2 ^ 32 + 1 := by
              rw [← toNat_inj, toNat_add] at hwrap
              change ¬(_ + 1) % _ = 0 at hwrap
              rw [toNat_add]
              change (_ + 1) % _ = _
              omega
            have hnum1 : number (th + 1) seq = (tdb.high / 2 ^ 32 + 1) * 2 ^ 32 + seq.toNat := by
              rw [number, hth1]
            have hlt : seq.toNat < tl.toNat := by
              split at hwindow <;> omega
            refine .new (n := number (th + 1) seq) ?_ ?_ rfl
              (fun hno => absurd ((not_not.mp hesn).symm.trans hno) nofun) rfl
              (advance_high tl window) (advance_seen htlseq (seqOf_number (th + 1) seq) ?_)
            · omega
            · omega
            · rw [gt_iff_lt, lt_def, toNat_sub, hwindow]
              split <;> omega

/-! The high half of a number. -/

def Answers (sh : BitVec 32) (r : Nat × BitVec 32 × Tdb) : Prop := (r.1 = 0 → r.2.1 = sh) ∧ r.1 ≠ 2

theorem Answers.ok (h : seqh = sh) : Answers sh (0, seqh, tdb) :=
  ⟨fun _ => h, nofun⟩

theorem Answers.refused (h₀ : n ≠ 0) (h₂ : n ≠ 2) :
    Answers sh (n, seqh, tdb) :=
  ⟨fun h => absurd h h₀, h₂⟩

/-- The high half of a number is found for every number that is ahead of the window's lower edge by
less than a turn. -/
theorem checkreplaywindow_seqh (tdb : Tdb) (hesn : tdb.esn = true) (t s : BitVec 64)
    (ht : tdbReplaymax ≤ t.toNat) (hlo : t.toNat - (tdbReplaymax - tdbReplaywaste) < s.toNat)
    (hhi : s.toNat < t.toNat - (tdbReplaymax - tdbReplaywaste) + 2 ^ 32) (seqh : BitVec 32)
    (commit : Bool) : ((checkreplaywindow tdb t (s.setWidth 32) seqh commit).1 = 0 →
      (checkreplaywindow tdb t (s.setWidth 32) seqh commit).2.1 = (s >>> 32).setWidth 32) ∧
    (checkreplaywindow tdb t (s.setWidth 32) seqh commit).1 ≠ 2 := by
  change Answers ((s >>> 32).setWidth 32) _
  have htl := toNat_low t
  have hth := toNat_high t
  have hsl := toNat_low s
  have hsh := toNat_high s
  change 2132 ≤ _ at ht
  change _ - 2100 < _ at hlo
  change _ < _ - 2100 + _ at hhi
  rw [checkreplaywindow]
  dsimp only
  generalize t.setWidth 32 = tl at htl ⊢
  generalize (t >>> 32).setWidth 32 = th at hth ⊢
  generalize s.setWidth 32 = seq at hsl ⊢
  generalize (s >>> 32).setWidth 32 = sh at hsh ⊢
  split
  next => exact .refused (by decide) (by decide)
  next =>
    have hfull : (BitVec.ofNat 32 (tdbReplaymax - tdbReplaywaste)).toNat = 2100 := rfl
    generalize BitVec.ofNat 32 (tdbReplaymax - tdbReplaywaste) = full at hfull ⊢
    have hwindow : ¬(th = 0 ∧ tl < full) := by
      rw [lt_def, hfull, ← toNat_inj, hth, htl]
      change ¬(_ = 0 ∧ _)
      omega
    rw [if_neg hwindow]
    have hw1 : (full - 1).toNat = 2099 := by
      rw [toNat_sub, hfull]
      rfl
    have hwl : (tl - full + 1).toNat = (tl.toNat + 2 ^ 32 - 2099) % 2 ^ 32 := by
      rw [toNat_add, toNat_sub, hfull]
      change (_ + 1) % _ = _
      omega
    simp only [ge_iff_le, gt_iff_lt, le_def, lt_def, hw1, hwl, hfull]
    split
    next hspace =>
      -- the window's own subspace
      have heq : th = sh := eq_of_toNat_eq (by omega)
      split
      next => exact .ok heq
      next hle =>
        rw [toNat_sub_of_le (le_def.mpr (Nat.le_of_not_lt hle)), if_neg (by omega)]
        split
        next => exact .refused (by decide) (by decide)
        next => exact .ok heq
    next hspace =>
      split
      next hprev =>
        have heq : th - 1 = sh := by
          apply eq_of_toNat_eq
          rw [toNat_sub]
          change (2 ^ 32 - 1 + _) % _ = _
          omega
        split
        next => exact .refused (by decide) (by decide)
        next => exact .ok heq
      next hnext =>
        split
        next => exact .refused (by decide) (by decide)
        next =>
          refine .ok (eq_of_toNat_eq ?_)
          rw [toNat_add]
          change (_ + 1) % _ = _
          omega

/-- The number before a multiple of `2 ^ 32`, and the window reaches back over it. -/
theorem checkreplaywindow_seqh_below :
    (checkreplaywindow ⟨tdbfEsn, 4294967301, fun _ => 0⟩ 4294967301 4294967295 0 false).1 = 0 ∧
    (checkreplaywindow ⟨tdbfEsn, 4294967301, fun _ => 0⟩ 4294967301 4294967295 0 false).2.1 = 0 :=
  ⟨by decide, (checkreplaywindow_seqh ⟨tdbfEsn, 4294967301, fun _ => 0⟩ (by decide) 4294967301
    4294967295 (by decide) (by decide) (by decide) 0 false).1 (by decide)⟩

end Mbsd.Netinet.IpEsp
