import Mbsd.Lib.Bitmap
import Mbsd.Lib.CountIn
import Mbsd.Ufs.FfsAlloc.Model

/-! Which inodes are allocated, and which blocks of inodes are initialized. -/

namespace Mbsd.Ufs.FfsAlloc

open Lib.Bitmap Lib.CountIn List Function Nat

variable {a : Nat → Byte} {i j n p : Nat} {mask : Byte} {ino c : Nat} {dir : Bool} {c' : Cg}

theorem isclr_byte (hj : j < 8) : isclr a (i * 8 + j) = !(a i).getLsbD j := by
  rw [isclr, NBBY, show (i * 8 + j) / 8 = i by omega, show (i * 8 + j) % 8 = j by omega]

theorem same_bit : j = i ↔ j / NBBY = i / NBBY ∧ j % NBBY = i % NBBY := by
  simp only [NBBY]
  omega

theorem isclr_setbit : isclr (setbit a i) j = (isclr a j && !decide (j = i)) := by
  have hj : j % NBBY < 8 := mod_lt j (by decide)
  have hi : i % NBBY < 8 := mod_lt i (by decide)
  rw [isclr, isclr, setbit, update_apply]
  by_cases hbyte : j / NBBY = i / NBBY
  · rw [if_pos hbyte, getLsbD_or_bit hi hj, hbyte]
    by_cases hbit : j % NBBY = i % NBBY
    · simp [same_bit.mpr ⟨hbyte, hbit⟩]
    · simp [hbit, mt same_bit.mp fun h => hbit h.2]
  · simp [hbyte, mt same_bit.mp fun h => hbyte h.1]

theorem isclr_clrbit : isclr (clrbit a i) j = (isclr a j || decide (j = i)) := by
  have hj : j % NBBY < 8 := mod_lt j (by decide)
  have hi : i % NBBY < 8 := mod_lt i (by decide)
  rw [isclr, isclr, clrbit, update_apply]
  by_cases hbyte : j / NBBY = i / NBBY
  · rw [if_pos hbyte, getLsbD_and_not_bit hi hj, hbyte]
    by_cases hbit : j % NBBY = i % NBBY
    · simp [same_bit.mpr ⟨hbyte, hbit⟩]
    · simp [hbit, mt same_bit.mp fun h => hbit h.2]
  · simp [hbyte, mt same_bit.mp fun h => hbyte h.1]

theorem skpc_spec (size cp : Nat) : ∃ k ≤ size, skpc a mask size cp = size - k ∧
    (∀ j < k, a (cp + j) = mask) ∧ (k < size → a (cp + k) ≠ mask) := by
  induction size generalizing cp with
  | zero => exact ⟨0, Nat.le_refl 0, rfl, nofun, nofun⟩
  | succ size ih =>
    rw [skpc]
    split
    · next hfirst =>
      obtain ⟨k, hk, heq, hall, hstop⟩ := ih (cp + 1)
      refine ⟨k + 1, succ_le_succ hk, by omega, fun j hj => ?_, fun hlt => ?_⟩
      · cases j with
        | zero => exact hfirst
        | succ j =>
          rw [Nat.add_comm j, ← Nat.add_assoc]
          exact hall j (lt_of_succ_lt_succ hj)
      · rw [Nat.add_comm k, ← Nat.add_assoc]
        exact hstop (lt_of_succ_lt_succ hlt)
    · next hfirst => exact ⟨0, Nat.zero_le _, rfl, nofun, fun _ => hfirst⟩

theorem byte_full : a i = 0xff ↔ ∀ j < 8, isclr a (i * 8 + j) = false := by
  rw [show (0xff : Byte) = BitVec.allOnes 8 from rfl, eq_allOnes_iff]
  refine forall₂_congr fun j hj => ?_
  rw [isclr_byte hj, Bool.not_eq_false']

theorem find_clear (h : a i ≠ 0xff) : ∃ bit < 8,
    ((range 8).find? fun j => !(a i).getLsbD j) = some bit ∧
    isclr a (i * 8 + bit) = true ∧ ∀ j < bit, isclr a (i * 8 + j) = false := by
  cases hfind : (range 8).find? fun j => !(a i).getLsbD j with
  | none =>
    refine absurd (byte_full.mpr fun j hj => ?_) h
    have hclear := find?_eq_none.mp hfind j (mem_range.mpr hj)
    rw [isclr_byte hj]
    exact Bool.eq_false_of_not_eq_true hclear
  | some bit =>
    obtain ⟨hset, hbit, hmin⟩ := find?_range_eq_some.mp hfind
    have hbit := mem_range.mp hbit
    refine ⟨bit, hbit, rfl, (isclr_byte hbit).trans hset, fun j hj => ?_⟩
    rw [isclr_byte (hj.trans hbit)]
    exact Bool.eq_false_of_not_eq_true fun hclear => by simpa [hclear] using hmin j hj

section Pick

variable {fs : Fs} {c : Cg} {ipref : Nat}

theorem Fs.eight_dvd_ipg (fs : Fs) : 8 ∣ fs.fsIpg := fs.nbby_dvd.trans fs.inopb_dvd

theorem Fs.ipg_lt (fs : Fs) (h : 0 < fs.fsNcg) : fs.fsIpg < 2 ^ 32 :=
  Nat.lt_of_le_of_lt (Nat.le_mul_of_pos_left fs.fsIpg h) fs.inodes_lt

def Busy (a : Nat → Byte) (lo hi : Nat) : Prop := ∀ b, lo ≤ b → b < hi → isclr a b = false

theorem busy_of_bytes {lo hi : Nat} (h : ∀ j < hi - lo, a (lo + j) = 0xff) :
    Busy a (lo * 8) (hi * 8) := by
  intro b hlo hhi
  have hbyte := byte_full.mp (h (b / 8 - lo) (by omega)) (b % 8) (by omega)
  rwa [show (lo + (b / 8 - lo)) * 8 + b % 8 = b by omega] at hbyte

section

variable (hlt : fs.fsIpg < 2 ^ 32) (hrotor : c.cgIrotor < fs.fsIpg)
  (hfree : ∃ b < fs.fsIpg, isclr c.inosused b = true)

include hlt hrotor hfree

theorem searchByte_spec : ∃ i, searchByte fs c = some i ∧ i * 8 < fs.fsIpg ∧ c.inosused i ≠ 0xff ∧
      (c.cgIrotor / 8 ≤ i ∧ Busy c.inosused (c.cgIrotor / 8 * 8) (i * 8) ∨
        Busy c.inosused (c.cgIrotor / 8 * 8) fs.fsIpg) := by
  obtain ⟨N, hN⟩ := fs.eight_dvd_ipg
  have hsub : (fs.fsIpg + 2 ^ 32 - c.cgIrotor) % 2 ^ 32 = fs.fsIpg - c.cgIrotor := by omega
  have hlen : howmany (fs.fsIpg - c.cgIrotor) NBBY = N - c.cgIrotor / 8 := by
    rw [howmany, NBBY]
    omega
  have hstart : c.cgIrotor / 8 < N := by omega
  rw [searchByte, hsub, hlen, NBBY]
  dsimp only
  generalize c.cgIrotor / 8 = start at hstart ⊢
  obtain ⟨k, hk, htop, hall, hstop⟩ := skpc_spec (a := c.inosused) (N - start) start
  rw [htop]
  split
  · next hzero =>
    obtain rfl : k = N - start := by omega
    have htail : Busy c.inosused (start * 8) fs.fsIpg := by
      rw [hN, Nat.mul_comm 8]
      exact busy_of_bytes hall
    obtain ⟨k', hk', hbottom, hall', hstop'⟩ := skpc_spec (a := c.inosused) (start + 1) 0
    -- The byte of the rotor was searched before, and the free inode is below it.
    have hbelow : k' < start + 1 := by
      refine Nat.lt_of_not_le fun hge => ?_
      obtain ⟨b, hb, hclear⟩ := hfree
      have hhead : Busy c.inosused (0 * 8) (start * 8) :=
        busy_of_bytes fun j hj => hall' j (by omega)
      rcases Nat.lt_or_ge b (start * 8) with hin | hout
      · rw [hhead b (by omega) hin] at hclear
        cases hclear
      · rw [htail b hout hb] at hclear
        cases hclear
    have hne := hstop' hbelow
    rw [Nat.zero_add] at hne
    rw [hbottom, if_neg (by omega), Nat.sub_sub_self hk']
    exact ⟨k', rfl, by omega, hne, .inr htail⟩
  · next hnonzero =>
    have hk' : k < N - start := by omega
    have hpos : start + (N - start) - (N - start - k) = start + k := by omega
    rw [hpos]
    exact ⟨_, rfl, by omega, hstop hk', .inl ⟨by omega,
      busy_of_bytes fun j hj => hall j (by omega)⟩⟩

theorem pickInode_spec (hpref : ipref = 0 ∨ isclr c.inosused (ipref % fs.fsIpg) = false) :
    ∃ ino, pickInode fs c ipref = some (ino, ino) ∧ ino < fs.fsIpg ∧ isclr c.inosused ino = true ∧
      (c.cgIrotor / 8 * 8 ≤ ino ∧ Busy c.inosused (c.cgIrotor / 8 * 8) ino ∨
        Busy c.inosused (c.cgIrotor / 8 * 8) fs.fsIpg) := by
  obtain ⟨i, hsearch, hi, hbyte, hbusy⟩ := searchByte_spec hlt hrotor hfree
  obtain ⟨bit, hbit, hfind, hclear, hmin⟩ := find_clear hbyte
  have hdvd := fs.eight_dvd_ipg
  have hnone : ¬(ipref ≠ 0 ∧ isclr c.inosused (ipref % fs.fsIpg) = true) := by
    rintro ⟨hne, hset⟩
    rcases hpref with h | h
    · exact hne h
    · rw [h] at hset
      cases hset
  rw [pickInode, if_neg hnone, hsearch]
  simp only [Option.bind_eq_bind, Option.bind_some, NBBY, hfind]
  refine ⟨_, rfl, by omega, hclear, hbusy.imp_left ?_⟩
  rintro ⟨hle, hbusy⟩
  refine ⟨by omega, fun b hlo hhi => ?_⟩
  rcases Nat.lt_or_ge b (i * 8) with hin | hout
  · exact hbusy b hlo hin
  · have := hmin (b - i * 8) (by omega)
    rwa [Nat.add_sub_cancel' hout] at this

end

theorem lt_of_busy {start : Nat} (hused : ∀ b < fs.fsIpg, isclr c.inosused b = false →
      b < c.cgInitediblk) (hino : ino < fs.fsIpg)
    (hstart : start < c.cgInitediblk + fs.fsInopb) (hlt : start < fs.fsIpg)
    (hbusy : start ≤ ino ∧ Busy c.inosused start ino ∨ Busy c.inosused start fs.fsIpg) :
    ino < c.cgInitediblk + fs.fsInopb := by
  have hpos := fs.inopb_pos
  rcases hbusy with ⟨hle, hbusy⟩ | hbusy
  · refine Nat.lt_of_not_le fun hge => ?_
    rcases Nat.lt_or_ge c.cgInitediblk start with hpast | hbefore
    · have := hused start hlt (hbusy start (Nat.le_refl _) (by omega))
      omega
    · have := hused c.cgInitediblk (by omega) (hbusy _ hbefore (by omega))
      omega
  · have := hused (fs.fsIpg - 1) (by omega) (hbusy _ (by omega) (by omega))
    omega

end Pick

section Inv

/-- A group whose counter is right, and whose inodes in use are in the blocks that were
initialized; the rotor is at most in the block behind them. -/
structure Cg.Inv (fs : Fs) (c : Cg) : Prop where
  irotor : c.cgIrotor < fs.fsIpg
  nifree : c.cgCs.csNifree = countIn (isclr c.inosused) 0 fs.fsIpg
  used : fs.ufs2 = true → ∀ i < fs.fsIpg, isclr c.inosused i = false → i < c.cgInitediblk
  rotor : fs.ufs2 = true → c.cgIrotor < c.cgInitediblk + fs.fsInopb
  dvd : fs.ufs2 = true → fs.fsInopb ∣ c.cgInitediblk
  le : fs.ufs2 = true → c.cgInitediblk ≤ c.cgFfs2Niblk
  niblk : fs.ufs2 = true → c.cgFfs2Niblk = fs.fsIpg

structure Inv (fs : Fs) (s : State) (cg : Nat) : Prop where
  lt : cg < fs.fsNcg
  group : (s.cgs cg).Inv fs
  summary : (s.fsCs cg).csNifree = (s.cgs cg).cgCs.csNifree

variable {fs : Fs} {s s' : State} {c : Cg} {cg ino ipref : Nat}

theorem countIn_setbit (hino : i < n) (hclear : isclr a i = true) :
    (countIn (isclr (setbit a i)) 0 n : Int) = countIn (isclr a) 0 n - 1 := by
  have herase := countIn_erase (f := isclr a) (g := isclr (setbit a i))
    (show i + 1 ≤ n from hino) fun x _ => by
      rw [isclr_setbit]
      congr 2
      exact decide_eq_decide.mpr (by omega)
  rw [countIn_one, hclear, Bool.toNat_true] at herase
  omega

theorem countIn_clrbit (hino : i < n) (hset : isclr a i = false) :
    (countIn (isclr (clrbit a i)) 0 n : Int) = countIn (isclr a) 0 n + 1 := by
  have hinsert := countIn_insert (f := isclr a) (g := isclr (clrbit a i))
    (show i + 1 ≤ n from hino) (fun x hlo hhi => by rwa [show x = i by omega]) fun x _ => by
      rw [isclr_clrbit]
      congr 1
      exact decide_eq_decide.mpr (by omega)
  omega

theorem Cg.Inv.alloc (h : c.Inv fs) (hino : ino < fs.fsIpg)
    (hclear : isclr c.inosused ino = true)
    (hnear : fs.ufs2 = true → ino < c.cgInitediblk + fs.fsInopb)
    (hrotor : c'.cgIrotor = ino) (hused : c'.inosused = setbit c.inosused ino)
    (hcs : c'.cgCs = c.cgCs.alloc dir) (hniblk : c'.cgFfs2Niblk = c.cgFfs2Niblk)
    (hinited : c'.cgInitediblk =
      if Extends fs c ino then c.cgInitediblk + fs.fsInopb else c.cgInitediblk) :
    c'.Inv fs ∧ (fs.ufs2 = true → ino < c'.cgInitediblk) ∧ c.cgInitediblk ≤ c'.cgInitediblk := by
  have hgrow : c.cgInitediblk ≤ c'.cgInitediblk := by
    rw [hinited]
    split <;> omega
  have hbelow (h2 : fs.ufs2 = true) : ino < c'.cgInitediblk := by
    have := hnear h2
    have hend := h.niblk h2
    rw [hinited]
    split
    · exact this
    · next hno =>
      refine Nat.lt_of_not_le fun hge => hno ⟨h2, ?_, ?_⟩
      · omega
      · omega
  refine ⟨⟨hrotor ▸ hino, ?_, fun h2 i hi hset => ?_, fun h2 => ?_, fun h2 => ?_, fun h2 => ?_,
    fun h2 => hniblk.trans (h.niblk h2)⟩, hbelow, hgrow⟩
  · rw [hcs, hused, countIn_setbit hino hclear, ← h.nifree]
    rfl
  · rw [hused, isclr_setbit, Bool.and_eq_false_iff, Bool.not_eq_false', decide_eq_true_eq] at hset
    rcases hset with hset | rfl
    · exact Nat.lt_of_lt_of_le (h.used h2 i hi hset) hgrow
    · exact hbelow h2
  · rw [hrotor]
    exact Nat.lt_add_right _ (hbelow h2)
  · rw [hinited]
    split
    · exact Nat.dvd_add (h.dvd h2) (Nat.dvd_refl _)
    · exact h.dvd h2
  · rw [hinited, hniblk]
    split
    · next hext =>
      -- Both are whole numbers of blocks.
      have hlt := hext.2.2
      have hdvd := Nat.dvd_sub (h.niblk h2 ▸ fs.inopb_dvd) (h.dvd h2)
      have := le_of_dvd (by omega) hdvd
      omega
    · exact h.le h2

theorem Cg.Inv.free (h : c.Inv fs) (hino : ino < fs.fsIpg)
    (hset : isclr c.inosused ino = false)
    (hrotor : c'.cgIrotor = if ino < c.cgIrotor then ino else c.cgIrotor)
    (hused : c'.inosused = clrbit c.inosused ino) (hcs : c'.cgCs = c.cgCs.free dir)
    (hniblk : c'.cgFfs2Niblk = c.cgFfs2Niblk) (hinited : c'.cgInitediblk = c.cgInitediblk) :
    c'.Inv fs := by
  have hle : c'.cgIrotor ≤ c.cgIrotor := by
    rw [hrotor]
    split <;> omega
  refine ⟨Nat.lt_of_le_of_lt hle h.irotor, ?_, fun h2 i hi hi' => ?_, fun h2 => ?_, fun h2 => ?_,
    fun h2 => ?_, fun h2 => hniblk.trans (h.niblk h2)⟩
  · rw [hcs, hused, countIn_clrbit hino hset, ← h.nifree]
    rfl
  · rw [hused, isclr_clrbit, Bool.or_eq_false_iff] at hi'
    exact hinited ▸ h.used h2 i hi hi'.1
  · rw [hinited]
    exact Nat.lt_of_le_of_lt hle (h.rotor h2)
  · exact hinited ▸ h.dvd h2
  · rw [hinited, hniblk]
    exact h.le h2

theorem Cg.Inv.exists_clear (h : c.Inv fs) (hfree : c.cgCs.csNifree ≠ 0) :
    ∃ b < fs.fsIpg, isclr c.inosused b = true := by
  by_contra hnone
  refine hfree ?_
  rw [h.nifree, countIn_eq_zero_iff.mpr fun x _ hx => ?_]
  · rfl
  · exact Bool.eq_false_of_not_eq_true fun hclear => hnone ⟨x, by omega, hclear⟩

structure Allocates (fs : Fs) (s : State) (cg : Nat) (s' : State) (ino : Nat) : Prop where
  inv : Inv fs s' cg
  lt : ino < fs.fsIpg
  was_free : isclr (s.cgs cg).inosused ino = true
  map : ∀ j, isclr (s'.cgs cg).inosused j = (isclr (s.cgs cg).inosused j && !decide (j = ino))
  inited : fs.ufs2 = true → ino < (s'.cgs cg).cgInitediblk
  grows : (s.cgs cg).cgInitediblk ≤ (s'.cgs cg).cgInitediblk
  zeroed : ∀ y, s'.inodes y = s.inodes y ∨ fs.ufs2 = true ∧ y / fs.fsIpg = cg ∧
    isclr (s.cgs cg).inosused (y % fs.fsIpg) = true ∧
    (s.cgs cg).cgInitediblk ≤ y % fs.fsIpg ∧ y % fs.fsIpg < (s'.cgs cg).cgInitediblk
  others : ∀ c, c ≠ cg → s'.cgs c = s.cgs c ∧ s'.fsCs c = s.fsCs c

theorem sameBlock_iff (hcg : cg < fs.fsNcg) {inited y : Nat} (hlt : inited < fs.fsIpg)
    (hdvd : fs.fsInopb ∣ inited) : fs.SameBlock ((cg * fs.fsIpg + inited) % 2 ^ 32) y ↔
      y / fs.fsIpg = cg ∧ inited ≤ y % fs.fsIpg ∧ y % fs.fsIpg < inited + fs.fsInopb := by
  have hnum : cg * fs.fsIpg + inited < fs.fsNcg * fs.fsIpg := by
    have hle := Nat.mul_le_mul_right fs.fsIpg (show cg + 1 ≤ fs.fsNcg from hcg)
    rw [succ_mul] at hle
    omega
  obtain ⟨k, rfl⟩ := hdvd
  have hpos := fs.inopb_pos
  rw [mod_eq_of_lt (hnum.trans fs.inodes_lt), Fs.SameBlock, Nat.mul_comm cg,
    mul_add_div fs.ipg_pos, mul_add_mod, div_eq_of_lt hlt, mod_eq_of_lt hlt,
    Nat.add_zero, Nat.mul_div_cancel_left k hpos, eq_comm, @eq_comm _ k, Nat.div_eq_iff hpos]
  refine and_congr_right fun _ => ?_
  rw [Nat.mul_comm k]
  omega

theorem Inv.allocates (h : Inv fs s cg)
    (hcgs : s'.cgs = update s.cgs cg c') (hino : ino < fs.fsIpg)
    (hclear : isclr (s.cgs cg).inosused ino = true)
    (hnear : fs.ufs2 = true → ino < (s.cgs cg).cgInitediblk + fs.fsInopb)
    (hrotor : c'.cgIrotor = ino) (hused : c'.inosused = setbit (s.cgs cg).inosused ino)
    (hcs : c'.cgCs = (s.cgs cg).cgCs.alloc dir) (hniblk : c'.cgFfs2Niblk = (s.cgs cg).cgFfs2Niblk)
    (hinited : c'.cgInitediblk =
      if Extends fs (s.cgs cg) ino then (s.cgs cg).cgInitediblk + fs.fsInopb
      else (s.cgs cg).cgInitediblk) (hfsCs : s'.fsCs = update s.fsCs cg ((s.fsCs cg).alloc dir))
    (hinodes : ∀ y, s'.inodes y = s.inodes y ∨ Extends fs (s.cgs cg) ino ∧
      fs.SameBlock ((cg * fs.fsIpg + (s.cgs cg).cgInitediblk) % 2 ^ 32) y) :
    Allocates fs s cg s' ino := by
  have hself : s'.cgs cg = c' := by rw [hcgs, update_self]
  obtain ⟨hinv, hbelow, hgrow⟩ :=
    h.group.alloc hino hclear hnear hrotor hused hcs hniblk hinited
  refine ⟨⟨h.lt, hself ▸ hinv, ?_⟩, hino, hclear, fun j => ?_, fun h2 => hself ▸ hbelow h2,
    hself ▸ hgrow, fun y => (hinodes y).imp_right ?_, fun c hc => ?_⟩
  · rw [hself, hcs, hfsCs, update_self, Csum.alloc, Csum.alloc, h.summary]
  · rw [hself, hused, isclr_setbit]
  · rintro ⟨hext, hblock⟩
    have hend := h.group.niblk hext.1
    have hlt := hext.2.2
    rw [sameBlock_iff h.lt (by omega) (h.group.dvd hext.1)] at hblock
    rw [hself, hinited, if_pos hext]
    obtain ⟨hgroup, hlo, hhi⟩ := hblock
    have hfree : isclr (s.cgs cg).inosused (y % fs.fsIpg) = true := by
      refine Bool.eq_true_of_not_eq_false fun hset => ?_
      have := h.group.used hext.1 (y % fs.fsIpg) (mod_lt y fs.ipg_pos) hset
      omega
    exact ⟨hext.1, hgroup, hfree, hlo, hhi⟩
  · rw [hcgs, hfsCs, update_of_ne hc, update_of_ne hc]
    exact ⟨rfl, rfl⟩

theorem ffsNodealloccg_spec (h : Inv fs s cg) (hfree : (s.fsCs cg).csNifree ≠ 0)
    (hpref : ipref = 0 ∨ isclr (s.cgs cg).inosused (ipref % fs.fsIpg) = false) (dir : Bool)
    (now : BitVec 64) (gen : Nat → { g : BitVec 32 // g ≠ 0 }) :
    ∃ s' ino, ffsNodealloccg fs s cg ipref dir true now gen = some (s', cg * fs.fsIpg + ino) ∧
      Allocates fs s cg s' ino := by
  have hlt := fs.ipg_lt (zero_lt_of_lt h.lt)
  have hnifree : (s.cgs cg).cgCs.csNifree ≠ 0 := h.summary ▸ hfree
  have hrotor := h.group.irotor
  obtain ⟨ino, hpick, hino, hclear, hbusy⟩ :=
    pickInode_spec hlt hrotor (h.group.exists_clear hnifree) hpref
  have hnear (h2 : fs.ufs2 = true) : ino < (s.cgs cg).cgInitediblk + fs.fsInopb := by
    have := h.group.rotor h2
    exact lt_of_busy (h.group.used h2) hino (by omega) (by omega) hbusy
  rw [ffsNodealloccg, if_neg hfree, if_neg (by simp), if_neg hnifree, hpick]
  refine ⟨_, ino, rfl, h.allocates rfl hino hclear hnear rfl rfl rfl rfl rfl rfl fun y => ?_⟩
  split
  · next hext =>
    dsimp only
    split
    · next hblock => exact .inr ⟨hext, hblock⟩
    · exact .inl rfl
  · exact .inl rfl

structure Frees (fs : Fs) (s : State) (cg : Nat) (s' : State) (ino : Nat) : Prop where
  inv : Inv fs s' cg
  map : ∀ j, isclr (s'.cgs cg).inosused j = (isclr (s.cgs cg).inosused j || decide (j = ino))
  inited : (s'.cgs cg).cgInitediblk = (s.cgs cg).cgInitediblk
  inodes : s'.inodes = s.inodes
  others : ∀ c, c ≠ cg → s'.cgs c = s.cgs c ∧ s'.fsCs c = s.fsCs c

theorem ffsFreefile_spec (h : Inv fs s cg) (hino : ino / fs.fsIpg = cg)
    (hset : isclr (s.cgs cg).inosused (ino % fs.fsIpg) = false) (dir : Bool) (now : BitVec 64) :
    ∃ s', ffsFreefile fs s ino dir true now = some s' ∧ Frees fs s cg s' (ino % fs.fsIpg) := by
  have hmod := Nat.mod_lt ino fs.ipg_pos
  have hrange : ¬fs.fsIpg * fs.fsNcg ≤ ino := by
    have hlt := h.lt
    rw [← hino, Nat.div_lt_iff_lt_mul fs.ipg_pos, Nat.mul_comm] at hlt
    omega
  have hbusy : ¬(isclr (s.cgs cg).inosused (ino % fs.fsIpg) = true ∧ fs.fsRonly = false) := by
    rw [hset]
    exact fun h => nomatch h.1
  rw [ffsFreefile, if_neg hrange, hino]
  rw [if_neg (by simp), if_neg hbusy]
  refine ⟨_, rfl, ⟨h.lt, ?_, ?_⟩, fun j => ?_, ?_, rfl, fun c hc => ?_⟩
  · simp only [Function.update_self]
    exact h.group.free hmod hset rfl rfl rfl rfl rfl
  · simp only [Function.update_self, Csum.free, h.summary]
  · simp only [Function.update_self, isclr_clrbit]
  · simp only [Function.update_self]
  · simp only [Function.update_of_ne hc, and_self]

end Inv

section Runs

variable {fs : Fs} {G : Nat → Prop} {s s' : State} {cg : Nat}

/-- Calls for groups of `G`: allocations with a preference for an inode in use, or none, and frees
of inodes in use. -/
inductive Run (fs : Fs) (G : Nat → Prop) (s : State) : State → Prop
  | nil : Run fs G s s
  | alloc {s' s'' : State} {cg ipref ret : Nat} {dir readable : Bool} {now : BitVec 64}
      {gen : Nat → { g : BitVec 32 // g ≠ 0 }} (h : Run fs G s s') (hcg : G cg)
      (hpref : ipref = 0 ∨ isclr (s'.cgs cg).inosused (ipref % fs.fsIpg) = false)
      (hs : ffsNodealloccg fs s' cg ipref dir readable now gen = some (s'', ret)) : Run fs G s s''
  | free {s' s'' : State} {ino : Nat} {dir readable : Bool} {now : BitVec 64} (h : Run fs G s s')
      (hcg : G (ino / fs.fsIpg))
      (hset : isclr (s'.cgs (ino / fs.fsIpg)).inosused (ino % fs.fsIpg) = false)
      (hs : ffsFreefile fs s' ino dir readable now = some s'') : Run fs G s s''

/-- What a call leaves of a group: nothing that was initialized is zeroed. -/
structure Keeps (fs : Fs) (s s' : State) (cg : Nat) : Prop where
  inv : Inv fs s' cg
  grows : (s.cgs cg).cgInitediblk ≤ (s'.cgs cg).cgInitediblk
  inodes : ∀ y, y / fs.fsIpg = cg → s'.inodes y = s.inodes y ∨
    fs.ufs2 = true ∧ (s.cgs cg).cgInitediblk ≤ y % fs.fsIpg

theorem Keeps.refl (h : Inv fs s cg) : Keeps fs s s cg :=
  ⟨h, Nat.le_refl _, fun _ _ => .inl rfl⟩

theorem Keeps.trans {s'' : State} (h : Keeps fs s s' cg) (h' : Keeps fs s' s'' cg) :
    Keeps fs s s'' cg where
  inv := h'.inv
  grows := h.grows.trans h'.grows
  inodes y hy := by
    rcases h'.inodes y hy with heq | ⟨h2, hle⟩
    · rw [heq]
      exact h.inodes y hy
    · exact .inr ⟨h2, h.grows.trans hle⟩

theorem Inv.other (h : Inv fs s cg) (hc : s'.cgs cg = s.cgs cg ∧ s'.fsCs cg = s.fsCs cg)
    (hinodes : ∀ y, s'.inodes y = s.inodes y ∨ y / fs.fsIpg = c) (hne : cg ≠ c) :
    Keeps fs s s' cg := by
  refine ⟨⟨h.lt, hc.1 ▸ h.group, ?_⟩, Nat.le_of_eq (by rw [hc.1]), fun y hy => ?_⟩
  · rw [hc.1, hc.2]
    exact h.summary
  · exact .inl ((hinodes y).resolve_right fun heq => hne (hy.symm.trans heq))

theorem Allocates.keeps (h : Allocates fs s c s' ino) (hinv : Inv fs s cg) : Keeps fs s s' cg := by
  by_cases hne : cg = c
  · subst hne
    exact ⟨h.inv, h.grows, fun y _ => (h.zeroed y).imp_right fun hz => ⟨hz.1, hz.2.2.2.1⟩⟩
  · exact hinv.other (h.others cg hne) (fun y => (h.zeroed y).imp_right fun hz => hz.2.1) hne

theorem Frees.keeps (h : Frees fs s c s' ino) (hinv : Inv fs s cg) : Keeps fs s s' cg := by
  by_cases hne : cg = c
  · subst hne
    exact ⟨h.inv, Nat.le_of_eq h.inited.symm, fun y _ => .inl (by rw [h.inodes])⟩
  · exact hinv.other (h.others cg hne) (fun y => .inl (by rw [h.inodes])) hne

theorem ffsNodealloccg_none {ipref : Nat} {readable : Bool} {now : BitVec 64}
    {gen : Nat → { g : BitVec 32 // g ≠ 0 }} (h : (s.fsCs cg).csNifree = 0 ∨ readable = false) :
    ffsNodealloccg fs s cg ipref dir readable now gen = some (s, 0) := by
  rw [ffsNodealloccg]
  split
  · rfl
  · next hne =>
    rw [if_pos (by rw [h.resolve_left hne]; rfl)]

theorem Run.keeps (hinv : ∀ cg, G cg → Inv fs s cg) (h : Run fs G s s') :
    ∀ cg, G cg → Keeps fs s s' cg := by
  induction h with
  | nil => exact fun cg hcg => .refl (hinv cg hcg)
  | @alloc s' s'' c ipref ret dir readable now gen h hcg hpref hs ih =>
    intro cg hG
    have hkeeps := ih cg hG
    by_cases hnone : (s'.fsCs c).csNifree = 0 ∨ readable = false
    · rw [ffsNodealloccg_none hnone] at hs
      cases hs
      exact hkeeps
    · obtain ⟨hfree, hread⟩ := not_or.mp hnone
      obtain rfl := Bool.eq_true_of_not_eq_false hread
      obtain ⟨s₁, ino, hrun, halloc⟩ := ffsNodealloccg_spec (ih c hcg).inv hfree hpref dir now gen
      rw [hrun] at hs
      cases hs
      exact hkeeps.trans (halloc.keeps hkeeps.inv)
  | @free s' s'' ino dir readable now h hcg hset hs ih =>
    intro cg hG
    have hkeeps := ih cg hG
    obtain ⟨s₁, hrun, hfrees⟩ := ffsFreefile_spec (ih _ hcg).inv rfl hset dir now
    cases readable with
    | true =>
      rw [hrun] at hs
      cases hs
      exact hkeeps.trans (hfrees.keeps hkeeps.inv)
    | false =>
      have hrange : ¬fs.fsIpg * fs.fsNcg ≤ ino := fun hge => by
        rw [ffsFreefile, if_pos hge] at hrun
        cases hrun
      rw [ffsFreefile, if_neg hrange] at hs
      cases hs
      exact hkeeps

/-- In groups whose rotor is at most in the first block that was not initialized, only free inodes
are allocated, and blocks are initialized before they are used. -/
theorem inodes_initialized (hinv : ∀ cg, G cg → Inv fs s cg) (hrun : Run fs G s s') :
    ∀ cg, G cg → Keeps fs s s' cg ∧ (∀ ipref dir now gen,
        ipref = 0 ∨ isclr (s'.cgs cg).inosused (ipref % fs.fsIpg) = false →
        (s'.cgs cg).cgCs.csNifree ≠ 0 → ∃ s'' ino, ffsNodealloccg fs s' cg ipref dir true now gen =
            some (s'', cg * fs.fsIpg + ino) ∧ Allocates fs s' cg s'' ino) ∧
      ∀ ino dir now, ino / fs.fsIpg = cg → isclr (s'.cgs cg).inosused (ino % fs.fsIpg) = false →
        ∃ s'', ffsFreefile fs s' ino dir true now = some s'' ∧
          Frees fs s' cg s'' (ino % fs.fsIpg) := by
  intro cg hcg
  have hkeeps := hrun.keeps hinv cg hcg
  refine ⟨hkeeps, fun ipref dir now gen hpref hfree => ?_, fun ino dir now hino hset => ?_⟩
  · exact ffsNodealloccg_spec hkeeps.inv (hkeeps.inv.summary ▸ hfree) hpref dir now gen
  · exact ffsFreefile_spec hkeeps.inv hino hset dir now

end Runs

section Run

def threeBlocks : Fs := ⟨true, 48, 2, 16, false, by decide, by decide, by decide, by decide,
  by decide⟩

def threeInUse : Nat → Byte := fun i => if i = 0 then 7 else 0

def firstBlocks (irotor : Nat) : State where
  cgs _ := ⟨0, 0, ⟨1, 45⟩, irotor, 48, 16, threeInUse⟩
  fsCs _ := ⟨1, 45⟩
  fsCstotal := ⟨2, 90⟩
  fsFmod := false
  inodes _ := ⟨1, fun _ => 1⟩

theorem threeInUse_count : countIn (isclr threeInUse) 0 48 = 45 := by decide

theorem threeInUse_lt : ∀ i < 48, isclr threeInUse i = false → i < 16 := by decide

/-- A group is used from its first rotor on. -/
theorem inodes_initialized_first :
    ∃ s' ino, ffsNodealloccg threeBlocks (firstBlocks 0) 1 2 false true 0
        (fun _ => ⟨1, by decide⟩) = some (s', 48 + ino) ∧
      Allocates threeBlocks (firstBlocks 0) 1 s' ino := by
  have hinv (cg : Nat) (hcg : cg < 2) : Inv threeBlocks (firstBlocks 0) cg := by
    refine ⟨hcg, ⟨zero_lt_succ 47, ?_, fun _ => threeInUse_lt, fun _ => zero_lt_succ 31,
      fun _ => Nat.dvd_refl 16, fun _ => Nat.le_add_left 16 32, fun _ => rfl⟩, rfl⟩
    exact (congrArg Nat.cast threeInUse_count).symm
  obtain ⟨-, halloc, -⟩ := inodes_initialized hinv .nil 1 (by decide)
  exact halloc 2 false 0 _ (.inr (by decide)) (by decide)

/-- From a rotor that is more than a block past the initialized ones, an inode is allocated that
is in no initialized block, and that the next allocation zeroes. -/
theorem inodes_initialized_past :
    countIn (isclr threeInUse) 0 48 = 45 ∧ (∀ i < 48, isclr threeInUse i = false → i < 16) ∧
    ((ffsNodealloccg threeBlocks (firstBlocks 40) 0 0 false true 0 fun _ => ⟨1, by decide⟩).map
      fun r => (r.2, (r.1.cgs 0).cgInitediblk, isclr (r.1.cgs 0).inosused 40,
        (r.1.inodes 40).diRest 0)) = some (40, 32, false, 1) ∧
    ((ffsNodealloccg threeBlocks (firstBlocks 40) 0 0 false true 0 fun _ => ⟨1, by decide⟩).bind
      fun r => (ffsNodealloccg threeBlocks r.1 0 0 false true 0 fun _ => ⟨1, by decide⟩).map
        fun r => (r.2, isclr (r.1.cgs 0).inosused 40, (r.1.inodes 40).diRest 0)) =
      some (41, false, 0) := by
  refine ⟨threeInUse_count, threeInUse_lt, ?_, ?_⟩
  · decide
  · decide

end Run

end Mbsd.Ufs.FfsAlloc
