import Mbsd.Kern.KernTimeout.Inv
import Mbsd.Lib.DigitWheel

/-! Which buckets of the clock wheel a scan dumps. -/

namespace Mbsd.Kern.KernTimeout

open Lib Lib.DigitWheel Nat

variable {x y : Int}

def Timespec.nsec (t : Timespec) : Int := t.tvSec * 1000000000 + t.tvNsec

def bucketNsec : Int := 7812500

abbrev passed (level : Nat) (x : Int) : Int := count bucketNsec 256 level x

theorem bucketNsec_pos : 0 < bucketNsec := by decide

theorem lap_pos : (0 : Int) < 256 := by decide

theorem passed_succ (level : Nat) (x : Int) : passed (level + 1) x = passed level x / 256 :=
  count_succ bucketNsec_pos lap_pos

theorem passed_mono (level : Nat) (h : x ≤ y) : passed level x ≤ passed level y :=
  count_mono bucketNsec_pos lap_pos h

theorem passed_eq_of_le {k level : Nat} (hk : k ≤ level) (h : passed k x = passed k y) :
    passed level x = passed level y :=
  count_eq_of_le bucketNsec_pos lap_pos hk h

variable {t u now lastscan : Timespec} {level m n b last first j : Nat}

theorem timespecLt_iff : timespecLt t u = true ↔ t.nsec < u.nsec := by
  have ht := t.nsec_lt
  have hu := u.nsec_lt
  unfold timespecLt Timespec.nsec
  split
  · rw [decide_eq_true_eq]
    omega
  · rw [decide_eq_true_eq]
    omega

theorem nsec_timespecSub : (timespecSub t u).nsec = t.nsec - u.nsec := by
  have hu := u.nsec_lt
  unfold timespecSub Timespec.nsec
  split <;> (dsimp only; omega)

theorem nsec_timespecAdd : (timespecAdd t u).nsec = t.nsec + u.nsec := by
  unfold timespecAdd Timespec.nsec
  split <;> (dsimp only; omega)

theorem timeoutLevelWidth_eq : timeoutLevelWidth level * 1000000000 =
    256 * (bucketNsec * 256 ^ level) := by
  unfold timeoutLevelWidth bucketNsec WHEELBITS
  rw [Int.shiftLeft_eq, Nat.mul_comm level, pow_mul]
  push_cast
  ring

theorem le_tvSec_iff (w : Int) : w ≤ t.tvSec ↔ w * 1000000000 ≤ t.nsec := by
  have ht := t.nsec_lt
  unfold Timespec.nsec
  omega

theorem passed_zero : passed 0 t.nsec = t.tvSec * 128 + t.tvNsec / 7812500 := by
  unfold passed DigitWheel.count bucketNsec Timespec.nsec
  omega

theorem timeoutMaskwheel_eq (h : level < 4) :
    (timeoutMaskwheel level t : Int) = passed level t.nsec % 256 := by
  have ht := t.nsec_lt
  have hzero := passed_zero (t := t)
  have h1 : passed 1 t.nsec = passed 0 t.nsec / 256 := passed_succ 0 t.nsec
  have h2 : passed 2 t.nsec = passed 1 t.nsec / 256 := passed_succ 1 t.nsec
  have h3 : passed 3 t.nsec = passed 2 t.nsec / 256 := passed_succ 2 t.nsec
  -- the two parts of the hash do not overlap
  have hlo : t.tvNsec / 7812500 < 2 ^ 7 := by omega
  have hhi : (BitVec.ofInt 32 (t.tvSec <<< (7 : Nat))).toNat = (t.tvSec % 2 ^ 25).toNat <<< 7 := by
    have hshift : t.tvSec <<< (7 : Nat) = t.tvSec * 128 := Int.shiftLeft_eq t.tvSec 7
    rw [hshift, BitVec.toNat_ofInt, Nat.shiftLeft_eq]
    omega
  have hor : (BitVec.ofInt 32 (t.tvSec <<< (7 : Nat)) ||| BitVec.ofNat 32 (t.tvNsec / 7812500)).toNat =
      (t.tvSec % 2 ^ 25).toNat * 128 + t.tvNsec / 7812500 := by
    rw [BitVec.toNat_or, hhi, BitVec.toNat_ofNat, mod_eq_of_lt (by omega),
      ← Nat.shiftLeft_add_eq_or_of_lt hlo, Nat.shiftLeft_eq]
  have hmask : timeoutMaskwheel level t =
      ((t.tvSec % 2 ^ 25).toNat * 128 + t.tvNsec / 7812500) / 2 ^ (level * 8) % 2 ^ 8 := by
    unfold timeoutMaskwheel WHEELBITS WHEELMASK
    rw [BitVec.toNat_and, BitVec.toNat_ushiftRight, hor, shiftRight_eq_div_pow]
    exact and_two_pow_sub_one_eq_mod _ 8
  rw [hmask]
  obtain rfl | rfl | rfl | rfl : level = 0 ∨ level = 1 ∨ level = 2 ∨ level = 3 := by omega
  all_goals
    simp only [Nat.reduceMul, Nat.reducePow]
    omega

theorem mem_circular (hfirst : first < 256) (hj : j < n)
    (hlast : ∀ i < j, (first + i) % 256 ≠ last) : (first + j) % 256 ∈ circular last n first := by
  induction n generalizing first j with
  | zero => exact absurd hj (Nat.not_lt_zero j)
  | succ n ih =>
    unfold circular
    cases j with
    | zero =>
      have hzero : (first + 0) % 256 = first := mod_eq_of_lt hfirst
      rw [hzero]
      exact List.mem_cons_self
    | succ j =>
      have h0 := hlast 0 (succ_pos j)
      rw [Nat.add_zero, mod_eq_of_lt hfirst] at h0
      rw [if_neg h0]
      refine List.mem_cons_of_mem _ ?_
      have hstep : (first + (j + 1)) % 256 = ((first + 1) % WHEELSIZE + j) % 256 := by
        unfold WHEELSIZE
        omega
      rw [hstep]
      refine ih (mod_lt _ (by decide)) (lt_of_succ_lt_succ hj) fun i hi => ?_
      have hi' := hlast (i + 1) (succ_lt_succ hi)
      unfold WHEELSIZE
      omega

theorem mem_circular_of_between {a b : Int} (hax : a ≤ x) (hxb : x ≤ b) (hlap : b < a + 256)
    (hfirst : (first : Int) = a % 256) (hlast : (last : Int) = b % 256) :
    (x % 256).toNat ∈ circular last WHEELSIZE first := by
  obtain ⟨j, hj, hx, hne⟩ := digit_reach hax hxb hlap
  rw [← hfirst] at hx
  have hplace : (x % 256).toNat = (first + j) % 256 := by omega
  rw [hplace]
  refine mem_circular (by omega) (by unfold WHEELSIZE; omega) fun i hi heq => hne i hi ?_
  rw [← hfirst, ← hlast]
  omega

/-- The counts are less than a lap apart, so that the scan can tell from the buckets how far it has
to go. -/
def NoLap (lastscan now : Timespec) : Prop :=
  ∀ level < WHEELCOUNT,
    (timespecSub now lastscan).tvSec < timeoutLevelWidth level →
      passed level now.nsec ≠ passed level lastscan.nsec + 256

instance : Decidable (NoLap lastscan now) :=
  inferInstanceAs (Decidable (∀ level < WHEELCOUNT,
    (timespecSub now lastscan).tvSec < timeoutLevelWidth level →
      passed level now.nsec ≠ passed level lastscan.nsec + 256))

theorem full_iff : timeoutLevelWidth level ≤ (timespecSub now lastscan).tvSec ↔
    lastscan.nsec + 256 * (bucketNsec * 256 ^ level) ≤ now.nsec := by
  rw [le_tvSec_iff, timeoutLevelWidth_eq, nsec_timespecSub]
  omega

section Level

variable (hlap : NoLap lastscan now) (hlevel : level < 4)

include hlap hlevel

theorem passed_lt_lap (hfull : ¬timeoutLevelWidth level ≤ (timespecSub now lastscan).tvSec) :
    passed level now.nsec < passed level lastscan.nsec + 256 := by
  have hcount : passed level now.nsec ≤ passed level lastscan.nsec + 256 := by
    refine count_le_lap bucketNsec_pos lap_pos ?_
    rw [full_iff] at hfull
    exact not_le.mp hfull
  exact lt_of_le_of_ne hcount (hlap level hlevel (not_le.mp hfull))

theorem mem_scanLast (hax : passed level lastscan.nsec ≤ x) (hxb : x ≤ passed level now.nsec) :
    (x % 256).toNat ∈ circular (scanLast lastscan now level).1 WHEELSIZE
      (timeoutMaskwheel level lastscan) := by
  have hfirst := timeoutMaskwheel_eq (t := lastscan) hlevel
  have hlast := timeoutMaskwheel_eq (t := now) hlevel
  unfold scanLast
  by_cases hfull : timeoutLevelWidth level ≤ (timespecSub now lastscan).tvSec
  · -- the bucket before the first one is the last of a whole lap
    rw [if_pos hfull]
    have hx : x % 256 =
        (passed level lastscan.nsec + (x - passed level lastscan.nsec) % 256) % 256 := by
      omega
    rw [hx]
    refine mem_circular_of_between (a := passed level lastscan.nsec)
      (b := passed level lastscan.nsec + 255) (by omega) (by omega) (by omega) hfirst ?_
    unfold WHEELSIZE
    split <;> omega
  · rw [if_neg hfull]
    exact mem_circular_of_between hax hxb (passed_lt_lap hlap hlevel hfull) hfirst hlast

theorem passed_of_done (hle : lastscan.nsec ≤ now.nsec)
    (hdone : (scanLast lastscan now level).2 = true) :
    passed (level + 1) lastscan.nsec = passed (level + 1) now.nsec := by
  have hfirst := timeoutMaskwheel_eq (t := lastscan) hlevel
  have hlast := timeoutMaskwheel_eq (t := now) hlevel
  unfold scanLast at hdone
  dsimp only at hdone
  by_cases hfull : timeoutLevelWidth level ≤ (timespecSub now lastscan).tvSec
  · rw [if_pos hfull] at hdone
    exact nomatch hdone
  · rw [if_neg hfull, decide_eq_true_eq] at hdone
    rw [passed_succ, passed_succ]
    refine (digit_le_iff lap_pos (passed_mono level hle)
      (passed_lt_lap hlap hlevel hfull)).mp ?_
    rw [← hfirst, ← hlast]
    exact_mod_cast hdone

end Level

def bucketOf (level : Nat) (x : Int) : Nat := level * WHEELSIZE + (passed level x % 256).toNat

theorem mem_scanFrom (hle : lastscan.nsec ≤ now.nsec) (hlap : NoLap lastscan now)
    (hm : m ≤ level) (hn : level < m + n) (hfour : m + n ≤ 4)
    (hnew : level = 0 ∨ passed level lastscan.nsec < passed level x)
    (hax : passed level lastscan.nsec ≤ passed level x)
    (hxb : passed level x ≤ passed level now.nsec) :
    bucketOf level x ∈ scanFrom lastscan now n m := by
  induction n generalizing m with
  | zero => omega
  | succ n ih =>
    unfold scanFrom
    dsimp only
    rcases Nat.eq_or_lt_of_le hm with rfl | hlt
    · exact List.mem_append_left _ (List.mem_map_of_mem (mem_scanLast hlap (by omega) hax hxb))
    · have hdone : (scanLast lastscan now m).2 = false := by
        by_contra hd
        have hsame : passed (m + 1) lastscan.nsec = passed (m + 1) now.nsec :=
          passed_of_done hlap (by omega) hle (by simpa using hd)
        have hlev := passed_eq_of_le (succ_le_of_lt hlt) hsame
        rcases hnew with h0 | hnew
        · omega
        · exact absurd (lt_of_lt_of_le hnew hxb) (by rw [hlev]; exact lt_irrefl _)
      rw [hdone]
      exact List.mem_append_right _ (ih (succ_le_of_lt hlt) (by omega) (by omega))

/-! No clock timeout is left behind by a scan. -/

open Sys Function Option

variable {ι : Type} {s s' : St ι} {id : ι} {b : Nat}

/-- The bucket is that of a time which is not after the timeout's and which no scan has reached. -/
def St.Placed (s : St ι) (b : Nat) (id : ι) : Prop :=
  ∃ level x, level < 4 ∧ x ≤ (s.timeouts id).toAbstime.nsec ∧ b = bucketOf level x ∧
    s.kcLastscan.nsec < x ∧ (level = 0 ∨ passed level s.kcLastscan.nsec < passed level x)

structure St.KcInv (s : St ι) : Prop where
  offset : s.kcOffset.nsec = 0
  placed : ∀ b id, id ∈ s.queues (.wheelKc b) → s.Placed b id

theorem bucketOf_maskwheel (h : level < 4) :
    level * WHEELSIZE + timeoutMaskwheel level t = bucketOf level t.nsec := by
  have := timeoutMaskwheel_eq (t := t) h
  unfold bucketOf
  omega

theorem passed_lt_of_width (h : ¬(timespecSub t u).tvSec < timeoutLevelWidth level) :
    passed (level + 1) u.nsec < passed (level + 1) t.nsec := by
  have hfull := full_iff.mp (not_lt.mp h)
  refine count_lt bucketNsec_pos lap_pos ?_
  calc u.nsec + bucketNsec * 256 ^ (level + 1)
      = u.nsec + 256 * (bucketNsec * 256 ^ level) := by ring
    _ ≤ t.nsec := hfull

theorem St.KcInv.timeoutBucket (h : s.KcInv) {t : Timeout} (hb : s.timeoutBucket t = some b) :
    ∃ level < 4, b = bucketOf level t.toAbstime.nsec ∧
      (level = 0 ∨ passed level s.kcLastscan.nsec < passed level t.toAbstime.nsec) := by
  have hshift : (timespecAdd t.toAbstime s.kcOffset).nsec = t.toAbstime.nsec := by
    rw [nsec_timespecAdd, h.offset, Int.add_zero]
  unfold St.timeoutBucket at hb
  simp only [bind_eq_bind, bind_eq_some_iff] at hb
  obtain ⟨_, -, hb⟩ := hb
  rw [some.injEq] at hb
  by_cases h0 : (timespecSub t.toAbstime s.kcLastscan).tvSec < timeoutLevelWidth 0
  · rw [if_pos h0, bucketOf_maskwheel (by decide), hshift] at hb
    exact ⟨0, by decide, hb.symm, .inl rfl⟩
  by_cases h1 : (timespecSub t.toAbstime s.kcLastscan).tvSec < timeoutLevelWidth 1
  · rw [if_neg h0, if_pos h1, bucketOf_maskwheel (by decide), hshift] at hb
    exact ⟨1, by decide, hb.symm, .inr (passed_lt_of_width h0)⟩
  by_cases h2 : (timespecSub t.toAbstime s.kcLastscan).tvSec < timeoutLevelWidth 2
  · rw [if_neg h0, if_neg h1, if_pos h2, bucketOf_maskwheel (by decide), hshift] at hb
    exact ⟨2, by decide, hb.symm, .inr (passed_lt_of_width h1)⟩
  · rw [if_neg h0, if_neg h1, if_neg h2, bucketOf_maskwheel (by decide), hshift] at hb
    exact ⟨3, by decide, hb.symm, .inr (passed_lt_of_width h2)⟩

theorem St.Placed.frame (h : s.Placed b id) (hscan : s'.kcLastscan = s.kcLastscan)
    (hle : (s.timeouts id).toAbstime.nsec ≤ (s'.timeouts id).toAbstime.nsec) : s'.Placed b id := by
  obtain ⟨level, x, hl, hx, hb, hlt, hnew⟩ := h
  rw [St.Placed, hscan]
  exact ⟨level, x, hl, Int.le_trans hx hle, hb, hlt, hnew⟩

theorem St.KcInv.frame (h : s.KcInv) (hscan : s'.kcLastscan = s.kcLastscan)
    (hoff : s'.kcOffset = s.kcOffset)
    (hmem : ∀ b id, id ∈ s'.queues (.wheelKc b) → id ∈ s.queues (.wheelKc b) ∧
      (s.timeouts id).toAbstime.nsec ≤ (s'.timeouts id).toAbstime.nsec) : s'.KcInv where
  offset := hoff ▸ h.offset
  placed b id hm := by
    obtain ⟨hm, hle⟩ := hmem b id hm
    exact (h.placed b id hm).frame hscan hle

theorem mem_dump {l : List Nat} {q : Queues ι}
    (hm : id ∈ l.foldl (fun q b => Circq.concat q .todo (.wheelKc b)) q (.wheelKc b)) :
    id ∈ q (.wheelKc b) ∧ b ∉ l := by
  induction l generalizing q with
  | nil => exact ⟨hm, List.not_mem_nil⟩
  | cons c l ih =>
    obtain ⟨hm, hl⟩ := ih hm
    have hne : Queue.todo ≠ .wheelKc c := nofun
    rcases (Circq.mem_concat hne).mp hm with ⟨hn, -⟩ | ⟨-, hc, hm⟩
    · cases hn
    · refine ⟨hm, fun hb => ?_⟩
      rcases List.mem_cons.mp hb with rfl | hb
      · exact hc rfl
      · exact hl hb

theorem St.KcInv.hardclockUpdate (h : s.KcInv)
    (hle : timespecLt now s.kcLastscan = false) (hlap : NoLap s.kcLastscan now) :
    (s.timeoutHardclockUpdate now).KcInv ∧ ∀ b, ∀ id ∈ (s.timeoutHardclockUpdate now).queues
      (.wheelKc b), now.nsec < (s.timeouts id).toAbstime.nsec := by
  have hle' : s.kcLastscan.nsec ≤ now.nsec := by
    rw [Bool.eq_false_iff, Ne, timespecLt_iff] at hle
    exact not_lt.mp hle
  have hscan : (s.timeoutHardclockUpdate now).kcLastscan.nsec = now.nsec := by
    show (timespecAdd now s.kcOffset).nsec = _
    rw [nsec_timespecAdd, h.offset, Int.add_zero]
  have hkey : ∀ b, ∀ id ∈ (s.timeoutHardclockUpdate now).queues (.wheelKc b),
      ∃ level x, level < 4 ∧ x ≤ (s.timeouts id).toAbstime.nsec ∧ b = bucketOf level x ∧
        passed level now.nsec < passed level x := by
    intro b id hm
    obtain ⟨hm, hnot⟩ := mem_dump hm
    have hold := (toTodo_moveBuckets s.ticks s.queues).keep (.wheelKc b) id nofun hm
    obtain ⟨level, x, hl, hx, rfl, hlt, hnew⟩ := h.placed b id hold
    refine ⟨level, x, hl, hx, rfl, not_le.mp fun hxb => hnot ?_⟩
    exact mem_scanFrom hle' hlap (Nat.zero_le _) (by rwa [Nat.zero_add]) (Nat.le_refl _) hnew
      (passed_mono level (Int.le_of_lt hlt)) hxb
  have hafter : ∀ {level : Nat} {x : Int}, passed level now.nsec < passed level x → now.nsec < x :=
    fun hlt => not_le.mp fun hxn => absurd (passed_mono _ hxn) (not_le.mpr hlt)
  refine ⟨⟨h.offset, fun b id hm => ?_⟩, fun b id hm => ?_⟩
  · obtain ⟨level, x, hl, hx, hb, hlt⟩ := hkey b id hm
    rw [St.Placed, hscan]
    exact ⟨level, x, hl, hx, hb, hafter hlt, .inr hlt⟩
  · obtain ⟨level, x, -, hx, -, hlt⟩ := hkey b id hm
    exact lt_of_lt_of_le (hafter hlt) hx

def St.Forward (s : St ι) : Act ι → Prop
  | .hardclockUpdate now => timespecLt now s.kcLastscan = false
  | _ => True

def St.ApartFromLap (s : St ι) : Act ι → Prop
  | .hardclockUpdate now => NoLap s.kcLastscan now
  | _ => True

variable [DecidableEq ι] {act : Act ι} {called : Option ι} {mp : Bool}

theorem St.KcInv.run (h : s.KcInv) (id : ι) :
    ({ s with queues := Circq.remove s.queues id }.timeoutRun id).KcInv := by
  refine h.frame rfl rfl fun b j hj => ⟨(Circq.mem_remove.mp hj).1, ?_⟩
  show _ ≤ (update s.timeouts id _ j).toAbstime.nsec
  rw [update_of_ne (Circq.mem_remove.mp hj).2]

theorem St.KcInv.thread (h : s.KcInv) {queue : Queue}
    (hs : s.softclockThreadRun queue = (s', called)) : s'.KcInv := by
  unfold St.softclockThreadRun at hs
  split at hs
  · cases hs
    exact h
  · cases hs
    exact h.run _

theorem St.KcInv.processed (h : s.KcInv) (hp : s.Processed id s' called) : s'.KcInv := by
  cases hp with
  | run => exact h.run id
  | queued k hk =>
    refine ⟨h.offset, fun b j hj => ?_⟩
    rcases Circq.mem_insertTail.mp hj with hj | ⟨hb, rfl⟩
    · exact (h.placed b j (Circq.mem_remove.mp hj).1).frame rfl (Int.le_refl _)
    · subst hb
      cases hk with
      | wheelKc b hk hlt hbucket =>
        obtain ⟨level, hl, hb, hnew⟩ := h.timeoutBucket hbucket
        exact ⟨level, _, hl, Int.le_refl _, hb, timespecLt_iff.mp hlt, hnew⟩

theorem St.KcInv.step (h : s.KcInv) (hinv : s.Inv) (hscans : s.Forward act ∧ s.ApartFromLap act)
    (hs : s.step mp act = some (s', called)) : s'.KcInv := by
  cases act with
  | add id toTicks =>
    obtain ⟨rfl, rfl⟩ := step_add hs
    refine h.frame rfl rfl fun b j hj => ⟨(hinv.of_mem_requeue (k := .wheelKc b) (by simp) hj).1, ?_⟩
    show _ ≤ (update s.timeouts id _ j).toAbstime.nsec
    rw [update_apply]
    split
    · next hji => rw [hji]
    · exact Int.le_refl _
  | absTs id abstime =>
    obtain ⟨rfl, rfl⟩ := step_absTs hs
    refine h.frame rfl rfl fun b j hj => ?_
    obtain ⟨hj, hlate⟩ := hinv.of_mem_requeue (k := .wheelKc b) (by simp) hj
    refine ⟨hj, ?_⟩
    show _ ≤ (update s.timeouts id _ j).toAbstime.nsec
    rw [update_apply]
    split
    · next hji =>
      -- it has been put off, and stays where it is
      have hle := hlate hji
      rw [Bool.eq_false_iff, Ne, timespecLt_iff] at hle
      rw [hji]
      exact not_lt.mp hle
    · exact Int.le_refl _
  | del id =>
    cases hs
    refine h.frame rfl rfl fun b j hj => ⟨?_, ?_⟩
    · unfold St.timeoutDel at hj
      dsimp only at hj
      split at hj
      · exact (Circq.mem_remove.mp hj).1
      · exact hj
    · show _ ≤ (update s.timeouts id _ j).toAbstime.nsec
      rw [update_apply]
      split
      · next hji => rw [hji]
      · exact Int.le_refl _
  | tick =>
    cases hs
    exact h.frame rfl rfl fun b j hj => ⟨hj, Int.le_refl _⟩
  | hardclockUpdate now =>
    cases hs
    exact (h.hardclockUpdate hscans.1 hscans.2).1
  | softclock =>
    simp only [St.step] at hs
    split at hs
    · cases hs
    · cases hs
      have hq := ToTodo.concat s.queues (k := .new) (by simp)
      exact h.frame rfl rfl fun b j hj => ⟨hq.keep (.wheelKc b) j (by simp) hj, Int.le_refl _⟩
  | softclockNext =>
    simp only [St.step] at hs
    split at hs
    · rcases softclockNext_cases hs with ⟨rfl, -⟩ | ⟨id, -, hp⟩
      · exact h.frame rfl rfl fun b j hj => ⟨hj, Int.le_refl _⟩
      · exact h.processed hp
    · cases hs
  | thread => exact h.thread (some.inj hs)
  | threadMp => exact h.thread (some.inj hs)

def NoneLeft (act : Act ι) (s : St ι) : Prop :=
  ∀ now, act = .hardclockUpdate now → ∀ b, ∀ id ∈ s.queues (.wheelKc b),
    timespecLt now (s.timeouts id).toAbstime = true

/-- No scan leaves a timeout behind, as long as two of them are never just a lap apart. -/
theorem none_left_behind (mp : Bool) (timeouts : ι → Timeout) (ticks : BitVec 32)
    (acts : List (Act ι)) (hscans : Along mp (fun s act => s.Forward act ∧ s.ApartFromLap act)
      (timeoutStartup timeouts ticks) acts) :
    Always mp (fun act s _ => NoneLeft act s) (timeoutStartup timeouts ticks) acts := by
  refine Always.of_inv (I := St.KcInv) (fun {s act s' called} hinv hkc hin hs => ?_)
    (timeoutStartup_inv timeouts ticks) ?_ acts hscans
  · refine ⟨hkc.step hinv hin hs, ?_⟩
    rintro now rfl b id hm
    cases hs
    rw [timespecLt_iff]
    exact (hkc.hardclockUpdate hin.1 hin.2).2 b id hm
  · exact ⟨rfl, fun _ _ hm => absurd hm List.not_mem_nil⟩

def uptimeTimeout : Timeout := ⟨.uptime, 0#32, ⟨0, 0, Timespec.zero_lt⟩, false, false, false, false⟩

theorem none_left_behind_once :
    Always true (fun act s _ => NoneLeft act s) (timeoutStartup (fun _ : Unit => uptimeTimeout) 7#32)
      [.absTs () ⟨1, 0, by decide⟩, .hardclockUpdate ⟨0, 10000000, by decide⟩] :=
  none_left_behind true _ _ _ ⟨⟨trivial, trivial⟩, fun s' called hs => by
    cases hs
    have hlap : NoLap ⟨0, 0, by decide⟩ ⟨0, 10000000, by decide⟩ := by decide
    exact ⟨⟨rfl, hlap⟩, fun _ _ _ => trivial⟩⟩

/-- A scan that is just a lap after the one before it dumps one bucket only. -/
theorem left_behind_after_lap : ¬Always true (fun act s _ => NoneLeft act s)
      (timeoutStartup (fun _ : Unit => uptimeTimeout) 7#32)
      [.absTs () ⟨1, 0, by decide⟩, .hardclockUpdate ⟨0, 7812499, by decide⟩, .softclock,
        .softclockNext, .hardclockUpdate ⟨2, 0, by decide⟩] := by
  intro h
  have hlast := (((((h _ _ rfl).2 _ _ rfl).2 _ _ rfl).2 _ _ rfl).2 _ _ rfl).1 _ rfl 128 ()
  revert hlast
  decide

end Mbsd.Kern.KernTimeout
