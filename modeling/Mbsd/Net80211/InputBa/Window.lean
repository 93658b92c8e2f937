import Mbsd.Lib.Ring
import Mbsd.Net80211.InputBa.Model

/-! The window and the ring. -/

namespace Mbsd.Net80211.InputBa

open Lib.RingHeld List Nat RxBa Function Option

variable {ba ba' ba'' : RxBa} {m : Mbuf} {rxi : Rxinfo} {out out' : List Up} {W W' W'' k k' n : Nat}
  {a b : Nat}

theorem sn_eq (m : Mbuf) : m.sn = m.num % 4096 := by
  rw [Mbuf.sn, Mbuf.iSeq, seqSeqShift, shiftRight_eq_div_pow, shiftLeft_eq]
  omega

theorem seqLt_iff (hlo : a < b + 2048) (hhi : b < a + 2048) :
    seqLt (a % 4096) (b % 4096) ↔ a < b := by
  rw [seqLt, low12]
  omega

theorem low12_sub (hle : b ≤ a) (hlt : a < b + 4096) :
    low12 ((a % 4096 : Nat) - (b % 4096 : Nat)) = a - b := by
  rw [low12]
  omega

theorem low12_add_one (a : Nat) : low12 ((a % 4096 : Nat) + 1) = (a + 1) % 4096 := by
  rw [low12]
  omega

namespace RxBa

def cells (ba : RxBa) (i : Nat) : Option Up := (ba.buf i).m.map fun m => (m, (ba.buf i).rxi)

def buffered (ba : RxBa) : List Up := held baMaxWinsz ba.cells ba.head

theorem cells_head (ba : RxBa) : ba.cells ba.head = ba.front.map (·, ba.frontRxi) := rfl

theorem cells_clear (ba : RxBa) : ba.clear.cells = update ba.cells ba.head none := by
  funext i
  rw [cells, clear]
  by_cases hi : i = ba.head
  · subst hi
    simp
  · simp [hi, cells]

theorem cells_congr (hbuf : ba'.buf = ba.buf) : ba'.cells = ba.cells := by
  funext i
  rw [cells, cells, hbuf]

theorem buffered_congr (hbuf : ba'.buf = ba.buf) (hhead : ba'.head = ba.head) :
    ba'.buffered = ba.buffered := by
  rw [buffered, buffered, cells_congr hbuf, hhead]

def Has (ba : RxBa) (x : Nat) : Prop := ∃ u ∈ ba.buffered, u.1.num = x

theorem buffered_length_le (ba : RxBa) : ba.buffered.length ≤ baMaxWinsz :=
  (length_filterMap_le _ _).trans (Nat.le_of_eq length_range)

end RxBa

structure Ring (ba : RxBa) (W : Nat) : Prop where
  pos : 1 ≤ ba.winsize
  size : ba.winsize ≤ baMaxWinsz
  head : ba.head < baMaxWinsz
  slot : ∀ d < baMaxWinsz, ∀ u, ba.cells ((ba.head + d) % baMaxWinsz) = some u →
    d < ba.winsize ∧ u.1.num = W + d
  wait : ba.gapwait = ba.buffered.length

namespace Ring

section

variable (h : Ring ba W)

include h

theorem pairwise : ba.buffered.Pairwise fun u v => u.1.num < v.1.num :=
  held_pairwise fun d hd u hu => (h.slot d hd u hu).2

theorem mem {u : Up} (hu : u ∈ ba.buffered) : W ≤ u.1.num ∧ u.1.num < W + ba.winsize := by
  obtain ⟨d, hd, hslot⟩ := mem_held.mp hu
  obtain ⟨hlt, hnum⟩ := h.slot d hd u hslot
  omega

theorem front_num (hfront : ba.front = some m) : m.num = W := by
  have hn : 0 < baMaxWinsz := by decide
  have hcell : ba.cells ba.head = some (m, ba.frontRxi) := by rw [cells_head, hfront]; rfl
  have hslot := h.slot 0 hn (m, ba.frontRxi) (by
    rw [Nat.add_zero, mod_eq_of_lt h.head, hcell])
  exact hslot.2

theorem has_front : ba.Has W ↔ ba.front ≠ none := by
  constructor
  · rintro ⟨u, hu, hnum⟩
    obtain ⟨d, hd, hslot⟩ := mem_held.mp hu
    obtain rfl : d = 0 := by
      have := (h.slot d hd u hslot).2
      omega
    rw [Nat.add_zero, mod_eq_of_lt h.head, cells_head] at hslot
    intro hnone
    rw [hnone] at hslot
    cases hslot
  · intro hfront
    obtain ⟨m, hm⟩ := ne_none_iff_exists'.mp hfront
    refine ⟨(m, ba.frontRxi), mem_held.mpr ⟨0, by decide, ?_⟩, h.front_num hm⟩
    rw [Nat.add_zero, mod_eq_of_lt h.head, cells_head, hm]
    rfl

theorem has_slot {d : Nat} (hd : d < baMaxWinsz) :
    ba.Has (W + d) ↔ (ba.buf ((ba.head + d) % baMaxWinsz)).m ≠ none := by
  constructor
  · rintro ⟨u, hu, hnum⟩
    obtain ⟨e, he, hslot⟩ := mem_held.mp hu
    obtain rfl : e = d := by
      have := (h.slot e he u hslot).2
      omega
    intro hnone
    rw [cells, hnone] at hslot
    cases hslot
  · intro hslot
    obtain ⟨m, hm⟩ := ne_none_iff_exists'.mp hslot
    have hcell : ba.cells ((ba.head + d) % baMaxWinsz) =
        some (m, (ba.buf ((ba.head + d) % baMaxWinsz)).rxi) := by rw [cells, hm]; rfl
    exact ⟨_, mem_held.mpr ⟨d, hd, hcell⟩, (h.slot d hd _ hcell).2⟩

theorem of_empty (hnil : ba.buffered = []) (W' : Nat) : Ring ba W' where
  pos := h.pos
  size := h.size
  head := h.head
  slot d hd u hu := by
    have hmem : u ∈ ba.buffered := mem_held.mpr ⟨d, hd, hu⟩
    rw [hnil] at hmem
    cases hmem
  wait := h.wait

theorem congr (hbuf : ba'.buf = ba.buf) (hhead : ba'.head = ba.head)
    (hsize : ba'.winsize = ba.winsize) (hwait : ba'.gapwait = ba.gapwait) : Ring ba' W where
  pos := hsize ▸ h.pos
  size := hsize ▸ h.size
  head := hhead ▸ h.head
  slot := by
    rw [cells_congr hbuf, hhead, hsize]
    exact h.slot
  wait := by rw [hwait, h.wait, buffered_congr hbuf hhead]

end

end Ring

/-- The window moves from `W` to `W'`, by at most `k`, and the frames `out` are handed up. -/
structure Moved (k : Nat) (ba : RxBa) (W : Nat) (ba' : RxBa) (W' : Nat) (out : List Up) : Prop where
  ring : Ring ba' W'
  le : W ≤ W'
  near : W' ≤ W + k
  below : ∀ u ∈ out, u.1.num < W'
  split : ba.buffered = out ++ ba'.buffered
  winsize : ba'.winsize = ba.winsize

namespace Moved

theorem refl (h : Ring ba W) : Moved 0 ba W ba W [] :=
  ⟨h, Nat.le_refl W, Nat.le_refl W, nofun, rfl, rfl⟩

theorem trans (h : Moved k ba W ba' W' out) (h' : Moved k' ba' W' ba'' W'' out') :
    Moved (k + k') ba W ba'' W'' (out ++ out') where
  ring := h'.ring
  le := h.le.trans h'.le
  near := by
    have hnear := h.near
    have hnear' := h'.near
    omega
  below u hu := by
    rcases mem_append.mp hu with hu | hu
    · exact Nat.lt_of_lt_of_le (h.below u hu) h'.le
    · exact h'.below u hu
  split := by rw [h.split, h'.split, append_assoc]
  winsize := h'.winsize.trans h.winsize

theorem mono (h : Moved k ba W ba' W' out) (hk : k ≤ k') : Moved k' ba W ba' W' out :=
  { h with near := h.near.trans (Nat.add_le_add_left hk W) }

theorem congr (h : Moved k ba W ba' W' out) (hbuf : ba''.buf = ba'.buf)
    (hhead : ba''.head = ba'.head) (hsize : ba''.winsize = ba'.winsize)
    (hwait : ba''.gapwait = ba'.gapwait) : Moved k ba W ba'' W' out where
  ring := h.ring.congr hbuf hhead hsize hwait
  le := h.le
  near := h.near
  below := h.below
  split := by rw [buffered_congr hbuf hhead, h.split]
  winsize := hsize.trans h.winsize

end Moved

theorem Moved.has_iff (h : Moved k ba W ba' W' out) {x : Nat} :
    ba.Has x ↔ (∃ u ∈ out, u.1.num = x) ∨ ba'.Has x := by
  simp only [Has, h.split, mem_append, or_and_right, exists_or]

theorem moved_next (h : Ring ba W) (hfront : ba.front = none) :
    Moved 1 ba W ba.nextHead (W + 1) [] := by
  have hn : 0 < baMaxWinsz := by decide
  have hcell : ba.cells ba.head = none := by rw [cells_head, hfront]; rfl
  have hbuffered : ba.nextHead.buffered = ba.buffered := held_next_none hn h.head hcell
  refine ⟨⟨h.pos, h.size, mod_lt _ hn, fun d hd u hu => ?_, ?_⟩, le_succ W, Nat.le_refl _,
    nofun, hbuffered.symm, rfl⟩
  · have hu : ba.cells (((ba.head + 1) % baMaxWinsz + d) % baMaxWinsz) = some u := hu
    have hpos : ((ba.head + 1) % baMaxWinsz + d) % baMaxWinsz =
        (ba.head + (d + 1)) % baMaxWinsz := by
      rw [mod_add_mod, Nat.add_assoc, Nat.add_comm 1 d]
    rw [hpos] at hu
    by_cases hlast : d + 1 < baMaxWinsz
    · have hslot := h.slot (d + 1) hlast u hu
      have hsize : ba.nextHead.winsize = ba.winsize := rfl
      rw [hsize]
      omega
    · have hend : (ba.head + (d + 1)) % baMaxWinsz = ba.head := by
        rw [show d + 1 = baMaxWinsz by omega, add_mod_right, mod_eq_of_lt h.head]
      rw [hend, hcell] at hu
      cases hu
  · rw [hbuffered]
    exact h.wait

theorem moved_take (h : Ring ba W) (hfront : ba.front = some m) :
    Moved 1 ba W ba.clear.nextHead (W + 1) [(m, ba.frontRxi)] := by
  have hn : 0 < baMaxWinsz := by decide
  have hcell : ba.cells ba.head = some (m, ba.frontRxi) := by rw [cells_head, hfront]; rfl
  have hnum : m.num = W := h.front_num hfront
  have hsplit : ba.buffered = (m, ba.frontRxi) :: ba.clear.buffered := by
    rw [buffered, held_take hn h.head hcell, buffered, cells_clear]
    rfl
  have hring : Ring ba.clear W := by
    refine ⟨h.pos, h.size, h.head, fun d hd u hu => ?_, ?_⟩
    · rw [cells_clear, update_apply] at hu
      split at hu
      · cases hu
      · exact h.slot d hd u hu
    · have hwait := h.wait
      rw [hsplit, length_cons] at hwait
      have hclear : ba.clear.gapwait = ba.gapwait - 1 := rfl
      omega
  have hempty : ba.clear.front = none := by
    simp [front, clear]
  have hmoved := moved_next hring hempty
  refine ⟨hmoved.ring, hmoved.le, hmoved.near, fun u hu => ?_, ?_, hmoved.winsize⟩
  · obtain rfl := mem_singleton.mp hu
    simp only
    omega
  · rw [hsplit, hmoved.split]
    rfl

def Starts (ba : RxBa) (W : Nat) : Prop := ba.winstart = W % 4096

theorem Starts.slide (h : Starts ba W) : Starts ba.slide (W + 1) := by
  rw [Starts, RxBa.slide, h]
  exact low12_add_one W

theorem Starts.clear (h : Starts ba W) : Starts ba.clear W := h

theorem moved_slide (h : Ring ba W) (hfront : ba.front = none) :
    Moved 1 ba W ba.slide (W + 1) [] := (moved_next h hfront).congr rfl rfl rfl rfl

theorem moved_hand (h : Ring ba W) (hfront : ba.front = some m) :
    Moved 1 ba W ba.clear.slide (W + 1) [(m, ba.frontRxi)] :=
  (moved_take h hfront).congr rfl rfl rfl rfl

/-! The loops that hand frames up and move the window. -/

open Option Moved

variable {ba ba' : RxBa} {m : Mbuf} {out : List Up} {M W W' d i n : Nat}

def Ends (ba : RxBa) (W : Nat) : Prop := ba.winend = (W + ba.winsize - 1) % 4096

theorem Starts.setWinend (h : Starts ba W) : Starts ba.setWinend W := h

theorem Starts.ends (h : Starts ba W) (hpos : 1 ≤ ba.winsize) : Ends ba.setWinend W := by
  have hstart : ba.winstart = W % 4096 := h
  show low12 (ba.winstart + ba.winsize - 1) = (W + ba.winsize - 1) % 4096
  rw [low12, hstart]
  omega

theorem Moved.setWinend (h : Moved n ba W ba' W' out) : Moved n ba W ba'.setWinend W' out :=
  h.congr rfl rfl rfl rfl

def UpTo (W W' : Nat) (out : List Up) : Prop := W' = W ∨ ∃ u ∈ out, W' = u.1.num + 1

def Gapless (W W' : Nat) (out : List Up) : Prop := ∀ x, W ≤ x → x < W' → ∃ u ∈ out, u.1.num = x

theorem Gapless.refl (W : Nat) (out : List Up) : Gapless W W out := fun _ hlo hhi => by omega

section

variable (hring : Ring ba W) (hstart : Starts ba W)

include hring hstart

theorem inputBaSeqLoop_moved (hlo : W + i < M + 2048) (hhi : M < W + 2048) :
    ∃ W', Moved i ba W (inputBaSeqLoop (M % 4096) i ba).1 W' (inputBaSeqLoop (M % 4096) i ba).2 ∧
      Starts (inputBaSeqLoop (M % 4096) i ba).1 W' ∧ (M ≤ W' ∨ W' = W + i) ∧
      (W ≤ M → (W' = M ↔ ba.Has M ∧ M ≤ W + i ∨ M = W + i)) := by
  induction i generalizing ba W with
  | zero =>
    refine ⟨W, refl hring, hstart, .inr rfl, fun hle => ?_⟩
    omega
  | succ i ih =>
    cases hfront : ba.front with
    | none =>
      have hslide := moved_slide hring hfront
      obtain ⟨W', hmoved, hstart', hend, hexact⟩ := ih hslide.ring hstart.slide
        (by omega) (by omega)
      rw [inputBaSeqLoop, hfront]
      refine ⟨W', ?_, hstart', hend.imp_right (by omega), fun hle => ?_⟩
      · exact (hslide.trans hmoved).mono (Nat.le_of_eq (Nat.add_comm 1 i))
      · have hpassed := hmoved.le
        have hhas : ba.slide.Has M ↔ ba.Has M := by simp [hslide.has_iff]
        by_cases hW : W = M
        · have hnot : ¬ba.Has M := hW ▸ mt hring.has_front.mp (not_not.mpr hfront)
          simp only [hnot, false_and, false_or]
          omega
        · rw [hexact (by omega), hhas, Nat.add_right_comm, Nat.add_assoc]
    | some m =>
      have hhand := moved_hand hring hfront
      have hnum : m.num = W := hring.front_num hfront
      rw [inputBaSeqLoop, hfront]
      simp only [sn_eq, seqLt_iff (a := m.num) (b := M) (by omega) (by omega)]
      split
      · refine ⟨W, (refl hring).mono (Nat.zero_le _), hstart, .inl (by omega), fun hle => ?_⟩
        have hhas : ba.Has W := hring.has_front.mpr (by simp [hfront])
        obtain rfl : W = M := by omega
        exact iff_of_true rfl (.inl ⟨hhas, Nat.le_add_right ..⟩)
      · obtain ⟨W', hmoved, hstart', hend, hexact⟩ :=
          ih hhand.ring hstart.clear.slide (by omega) (by omega)
        refine ⟨W', ?_, hstart', hend.imp_right (by omega), fun hle => ?_⟩
        · exact (hhand.trans hmoved).mono (Nat.le_of_eq (Nat.add_comm 1 i))
        · have hhas : ba.clear.slide.Has M ↔ ba.Has M := by
            rw [hhand.has_iff, or_iff_right]
            rintro ⟨u, hu, hnum'⟩
            obtain rfl := mem_singleton.mp hu
            have hnum' : m.num = M := hnum'
            omega
          rw [hexact (by omega), hhas, Nat.add_right_comm, Nat.add_assoc]

theorem inputBaSeq_moved (hlo : W + ba.winsize < M + 2048) (hhi : M < W + 2048) :
    ∃ W', Moved ba.winsize ba W (inputBaSeq ba (M % 4096)).1 W' (inputBaSeq ba (M % 4096)).2 ∧
      Starts (inputBaSeq ba (M % 4096)).1 W' ∧ Ends (inputBaSeq ba (M % 4096)).1 W' ∧
      (M ≤ W' ∨ W' = W + ba.winsize) ∧
      (W ≤ M → (W' = M ↔ ba.Has M ∧ M ≤ W + ba.winsize ∨ M = W + ba.winsize)) := by
  obtain ⟨W', hmoved, hstart', hend⟩ := inputBaSeqLoop_moved hring hstart hlo hhi
  exact ⟨W', hmoved.setWinend, hstart'.setWinend, hstart'.ends hmoved.ring.pos, hend⟩

theorem inputBaFlushLoop_moved (hfuel : ba.buffered.length < n) :
    ∃ r W', inputBaFlushLoop n ba = some r ∧ Moved ba.buffered.length ba W r.1 W' r.2 ∧
      Starts r.1 W' ∧ UpTo W W' r.2 ∧ Gapless W W' r.2 := by
  induction n generalizing ba W with
  | zero => omega
  | succ n ih =>
    cases hfront : ba.front with
    | none =>
      rw [inputBaFlushLoop, hfront]
      exact ⟨_, W, rfl, (refl hring).mono (Nat.zero_le _), hstart, .inl rfl, Gapless.refl W _⟩
    | some m =>
      have hhand := moved_hand hring hfront
      have hlen : ba.buffered.length = 1 + ba.clear.slide.buffered.length := by
        rw [hhand.split, length_append, length_singleton]
      obtain ⟨r, W', hrun, hmoved, hstart', hupto, hgapless⟩ :=
        ih hhand.ring hstart.clear.slide (by omega)
      rw [inputBaFlushLoop, hfront]
      simp only [hrun, map_some]
      refine ⟨_, W', rfl, ?_, hstart', .inr ?_, fun x hlo hhi => ?_⟩
      · rw [hlen]
        exact hhand.trans hmoved
      · rcases hupto with rfl | ⟨u, hu, rfl⟩
        · exact ⟨_, mem_cons_self, by rw [hring.front_num hfront]⟩
        · exact ⟨u, mem_cons_of_mem _ hu, rfl⟩
      · rcases Nat.eq_or_lt_of_le hlo with rfl | hlt
        · exact ⟨_, mem_cons_self, hring.front_num hfront⟩
        · obtain ⟨u, hu, hnum⟩ := hgapless x hlt hhi
          exact ⟨u, mem_cons_of_mem _ hu, hnum⟩

theorem inputBaFlush_moved (hends : Ends ba W) :
    ∃ r W', inputBaFlush ba = some r ∧ Moved baMaxWinsz ba W r.1 W' r.2 ∧
      Starts r.1 W' ∧ Ends r.1 W' ∧ UpTo W W' r.2 ∧ Gapless W W' r.2 := by
  rw [inputBaFlush]
  split
  · exact ⟨_, W, rfl, (refl hring).mono (Nat.zero_le _), hstart, hends, .inl rfl, Gapless.refl W _⟩
  · have hlen := ba.buffered_length_le
    obtain ⟨r, W', hrun, hmoved, hstart', hupto⟩ :=
      inputBaFlushLoop_moved hring hstart (lt_succ_of_le hlen)
    rw [hrun, map_some]
    refine ⟨_, W', rfl, ?_, ?_, ?_, hupto⟩
    · refine (hmoved.mono hlen).setWinend.congr ?_ ?_ ?_ ?_ <;> dsimp only <;> split <;>
        split <;> rfl
    · have hset : Starts r.1.setWinend W' := hstart'
      dsimp only
      split <;> split <;> exact hset
    · have hset : Ends r.1.setWinend W' := hstart'.ends hmoved.ring.pos
      dsimp only
      split <;> split <;> exact hset

end

def Timed (ba : RxBa) : Prop := ba.gapTo = true → 0 < ba.gapwait

theorem Ring.gapwait_nonneg (h : Ring ba W) : 0 ≤ ba.gapwait := by
  rw [h.wait]
  exact Int.natCast_nonneg _

theorem Ring.gapwait_pos (h : Ring ba W) : 0 < ba.gapwait ↔ ∃ u, u ∈ ba.buffered := by
  rw [h.wait, Int.natCast_pos, length_pos_iff_exists_mem]

theorem timed_rearm (h : 0 ≤ ba.gapwait) :
    Timed (let ba := if ba.gapTo then { ba with gapTo := false } else ba
      if ba.gapwait ≠ 0 then { ba with gapTo := true } else ba) := by
  by_cases hzero : ba.gapwait = 0 <;> cases hgap : ba.gapTo <;> simp [Timed, hzero, hgap] <;> omega

section

variable (hring : Ring ba W) (hstart : Starts ba W)

include hring hstart

theorem inputBaFlush_timed {r : RxBa × List Up}
    (hrun : inputBaFlush ba = some r) : Timed r.1 ↔ (ba.front = none → Timed ba) := by
  rw [inputBaFlush] at hrun
  split at hrun
  · next hfront =>
    cases hrun
    exact ⟨fun h _ => h, fun h => h hfront⟩
  · next hfront =>
    obtain ⟨r₁, hloop, rfl⟩ := map_eq_some_iff.mp hrun
    obtain ⟨r₂, W', hloop', hmoved, -⟩ :=
      inputBaFlushLoop_moved hring hstart (lt_succ_of_le ba.buffered_length_le)
    obtain rfl := some.inj (hloop.symm.trans hloop')
    exact iff_of_true (timed_rearm hmoved.setWinend.ring.gapwait_nonneg)
      fun hnone => absurd hnone hfront

theorem inputBaGapSkipLoop_moved :
    Moved n ba W (inputBaGapSkipLoop n ba).1 (W + (inputBaGapSkipLoop n ba).2) [] ∧
      Starts (inputBaGapSkipLoop n ba).1 (W + (inputBaGapSkipLoop n ba).2) ∧
      ((inputBaGapSkipLoop n ba).2 = 0 → (inputBaGapSkipLoop n ba).1 = ba) := by
  induction n generalizing ba W with
  | zero => exact ⟨refl hring, hstart, fun _ => rfl⟩
  | succ n ih =>
    rw [inputBaGapSkipLoop]
    split
    · next hfront =>
      have hslide := moved_slide hring hfront
      obtain ⟨hmoved, hstart', -⟩ := ih hslide.ring hstart.slide
      have hpos : W + 1 + (inputBaGapSkipLoop n ba.slide).2 =
          W + ((inputBaGapSkipLoop n ba.slide).2 + 1) := by omega
      rw [hpos] at hmoved hstart'
      exact ⟨(hslide.trans hmoved).mono (Nat.le_of_eq (Nat.add_comm 1 n)), hstart', nofun⟩
    · exact ⟨(refl hring).mono (Nat.zero_le _), hstart, fun _ => rfl⟩

theorem inputBaGapSkip_moved (hends : Ends ba W) :
    ∃ W', Moved ba.winsize ba W (inputBaGapSkip ba).1 W' [] ∧ Starts (inputBaGapSkip ba).1 W' ∧
      Ends (inputBaGapSkip ba).1 W' := by
  obtain ⟨hmoved, hstart', hsame⟩ := inputBaGapSkipLoop_moved (n := ba.winsize) hring hstart
  rw [inputBaGapSkip]
  split
  · exact ⟨_, hmoved.setWinend, hstart', hstart'.ends hmoved.ring.pos⟩
  · next hzero =>
    have hzero : (inputBaGapSkipLoop ba.winsize ba).2 = 0 := le_zero.mp (Nat.not_lt.mp hzero)
    rw [hsame hzero]
    exact ⟨W, (refl hring).mono (Nat.zero_le _), hstart, hends⟩

end

theorem baMoveWindowLoop_moved (hring : Ring ba W) :
    Moved n ba W (baMoveWindowLoop n ba).1 (W + n) (baMoveWindowLoop n ba).2 := by
  induction n generalizing ba W with
  | zero => exact refl hring
  | succ n ih =>
    have hpos : W + 1 + n = W + (n + 1) := by omega
    cases hfront : ba.front with
    | none =>
      have hmoved := (moved_next hring hfront).trans (ih (moved_next hring hfront).ring)
      rw [hpos, Nat.add_comm 1 n] at hmoved
      rw [baMoveWindowLoop, hfront]
      exact hmoved
    | some m =>
      have hmoved := (moved_take hring hfront).trans (ih (moved_take hring hfront).ring)
      rw [hpos, Nat.add_comm 1 n] at hmoved
      rw [baMoveWindowLoop, hfront]
      exact hmoved

theorem Moved.buffered_eq_nil (h : Moved n ba W ba' (W + ba.winsize) out) (hring : Ring ba W) :
    ba'.buffered = [] := by
  refine eq_nil_iff_forall_not_mem.mpr fun u hu => ?_
  have hold : u ∈ ba.buffered := by
    rw [h.split]
    exact mem_append_right _ hu
  have hlow := (h.ring.mem hu).1
  have hhigh := (hring.mem hold).2
  omega

end Mbsd.Net80211.InputBa
