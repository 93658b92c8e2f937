import Mbsd.Kern.TtySubr.Model
import Mbsd.Lib.Ring

/-! The bitmap of the quote flags. -/

namespace Mbsd.Kern.TtySubr

open BitVec Function
open Nat (mod_lt shiftRight_eq_div_pow and_two_pow_sub_one_eq_mod sub_le)

variable {a : Nat → Byte} {i j off len : Nat} {p cl cc : Nat} {r : List Byte}

theorem getLsbD_bit : ∀ k < 8, ∀ b < 8, (1#8 <<< k).getLsbD b = decide (b = k) := by decide

theorem getLsbD_low : ∀ k < 8, ∀ b < 8, ((1#8 <<< k) - 1).getLsbD b = decide (b < k) := by decide

theorem getLsbD_middle : ∀ lo < 8, ∀ hi < 8, lo ≤ hi → ∀ b < 8,
    ((((1#8 <<< (hi - lo)) - 1 : Byte) <<< lo : Byte)).getLsbD b = decide (lo ≤ b ∧ b < hi) := by
  decide

theorem low_eq_zero : ∀ k < 8, (1#8 <<< k) - 1 = 0#8 → k = 0 := by decide

theorem and_bit_eq_zero (w : Byte) {b : Nat} (hb : b < 8) :
    w &&& (1#8 <<< b) = 0 ↔ w.getLsbD b = false := by
  constructor
  · intro h
    have := congrArg (fun w => w.getLsbD b) h
    simpa [getLsbD_bit b hb b hb] using this
  · intro h
    apply eq_of_getLsbD_eq
    intro k hk
    rw [getLsbD_and, getLsbD_bit b hb k hk]
    by_cases hkb : k = b
    · rw [hkb, h]
      simp
    · simp [hkb]

theorem isset_eq (a : Nat → Byte) (i : Nat) : isset a i = (a (i / 8)).getLsbD (i % 8) := by
  have h := and_bit_eq_zero (a (i / 8)) (mod_lt i (by decide : 0 < 8))
  rw [isset, shiftRight_eq_div_pow, show i &&& 7 = i % 8 from and_two_pow_sub_one_eq_mod i 3]
  cases hb : (a (i / 8)).getLsbD (i % 8) with
  | false => simp [h.mpr hb]
  | true => simpa [hb] using h

theorem shift_three (i : Nat) : i >>> 3 = i / 8 := shiftRight_eq_div_pow i 3

theorem and_seven (i : Nat) : i &&& 7 = i % 8 := and_two_pow_sub_one_eq_mod i 3

@[simp] theorem isset_setbit : isset (setbit a i) j = (decide (j = i) || isset a j) := by
  rw [isset_eq, isset_eq, setbit, shift_three, and_seven, update_apply]
  by_cases hdiv : j / 8 = i / 8
  · have hji : j = i ↔ j % 8 = i % 8 := by omega
    rw [if_pos hdiv, getLsbD_or, getLsbD_bit _ (mod_lt _ (by decide)) _
      (mod_lt _ (by decide)), hdiv, Bool.or_comm]
    simp only [hji]
  · have hji : j ≠ i := fun h => hdiv (by rw [h])
    rw [if_neg hdiv]
    simp [hji]

@[simp] theorem isset_clrbit : isset (clrbit a i) j = (!decide (j = i) && isset a j) := by
  rw [isset_eq, isset_eq, clrbit, shift_three, and_seven, update_apply]
  have hj : j % 8 < 8 := mod_lt _ (by decide)
  by_cases hdiv : j / 8 = i / 8
  · have hji : j = i ↔ j % 8 = i % 8 := by omega
    rw [if_pos hdiv, getLsbD_and, getLsbD_not, getLsbD_bit _ (mod_lt _ (by decide)) _
      hj, hdiv, Bool.and_comm]
    simp [hji, hj]
  · have hji : j ≠ i := fun h => hdiv (by rw [h])
    rw [if_neg hdiv]
    simp [hji]

theorem isset_update (w : Byte) (k : Nat) :
    isset (update a k w) j = if j / 8 = k then w.getLsbD (j % 8) else isset a j := by
  rw [isset_eq, isset_eq, update_apply]
  split <;> rfl

theorem isset_memzero :
    isset (memzero a off len) j = (!decide (off ≤ j / 8 ∧ j / 8 < off + len) && isset a j) := by
  rw [isset_eq, isset_eq, memzero]
  split
  next h => simp [h]
  next h => simp [h]

theorem isset_above (k : Nat) {lo : Nat} (hlo : lo < 8) :
    isset (update a k (a k &&& ((1#8 <<< lo) - 1))) j =
      (!decide (j / 8 = k ∧ lo ≤ j % 8) && isset a j) := by
  have hj : j % 8 < 8 := mod_lt _ (by decide)
  rw [isset_update, isset_eq]
  split
  next hdiv =>
    rw [getLsbD_and, getLsbD_low _ hlo _ hj, hdiv, Bool.and_comm]
    by_cases hlt : j % 8 < lo
    · simp [hlt, Nat.not_le.mpr hlt]
    · simp [hlt, Nat.not_lt.mp hlt]
  next hdiv => simp [hdiv]

theorem isset_below (k : Nat) {hi : Nat} (hhi : hi < 8) : isset (if (1#8 <<< hi) - 1 ≠ 0 then
        update a k (a k &&& ~~~((1#8 <<< hi) - 1)) else a) j =
      (!decide (j / 8 = k ∧ j % 8 < hi) && isset a j) := by
  have hj : j % 8 < 8 := mod_lt _ (by decide)
  split
  next hmask =>
    rw [isset_update, isset_eq]
    split
    next hdiv =>
      rw [getLsbD_and, getLsbD_not, getLsbD_low _ hhi _ hj, hdiv, Bool.and_comm]
      simp [hj]
    next hdiv => simp [hdiv]
  next hmask =>
    have hzero : hi = 0 := low_eq_zero hi hhi (not_not.mp hmask)
    simp [hzero]

@[simp] theorem isset_clrbits :
    isset (clrbits a off len) j = (!decide (off ≤ j ∧ j < off + len) && isset a j) := by
  have hj : j % 8 < 8 := mod_lt _ (by decide)
  have hsbi : off % 8 < 8 := mod_lt _ (by decide)
  have hebi : (off + len) % 8 < 8 := mod_lt _ (by decide)
  rw [clrbits]
  split
  next hlen =>
    have hone : (off ≤ j ∧ j < off + len) ↔ j = off := by omega
    simp only [isset_clrbit, hone]
  next hlen =>
    dsimp only
    split
    next heq =>
      rw [isset_update]
      split
      next hdiv =>
        have hle : off % 8 ≤ (off + len) % 8 := by omega
        have hin : (off ≤ j ∧ j < off + len) ↔ (off % 8 ≤ j % 8 ∧ j % 8 < (off + len) % 8) := by
          omega
        rw [getLsbD_and, getLsbD_not, getLsbD_middle _ hsbi _ hebi hle _ hj, isset_eq,
          ← hdiv, Bool.and_comm]
        simp only [hin, hj, decide_true, Bool.true_and]
      next hdiv =>
        have hout : ¬(off ≤ j ∧ j < off + len) := by omega
        simp [hout]
    next hne =>
      have hin : (off ≤ j ∧ j < off + len) ↔ j / 8 = off / 8 ∧ off % 8 ≤ j % 8 ∨
          (off / 8 + 1 ≤ j / 8 ∧ j / 8 < off / 8 + 1 + ((off + len) / 8 - (off / 8 + 1))) ∨
          j / 8 = (off + len) / 8 ∧ j % 8 < (off + len) % 8 := by
        omega
      rw [isset_below _ hebi, isset_memzero, isset_above _ hsbi]
      simp only [hin, Bool.decide_or, Bool.not_or, Bool.and_assoc]
      ac_rfl

/-! How a clist holds a queue of characters with their quote flags. -/

open Lib.RingSlice List Option

structure Fifo where
  cap : Nat
  quot : Bool
  chars : List (Byte × Bool)

def charOf (x : Byte × Bool) : CInt :=
  if x.2 then x.1.setWidth 32 ||| ttyQuote else x.1.setWidth 32

def Fifo.free (q : Fifo) : Nat := q.cap - q.chars.length

def Fifo.step (q : Fifo) : ClistOp → ClistRet × Fifo
  | .putc c =>
    if q.free = 0 then (.char noChar, q)
    else (.char 0, { q with chars := q.chars ++ [(c.setWidth 8, q.quot && c &&& ttyQuote ≠ 0)] })
  | .getc =>
    match q.chars with
    | [] => (.char noChar, q)
    | x :: l => (.char (charOf x), { q with chars := l })
  | .unputc =>
    match q.chars.getLast? with
    | none => (.char noChar, q)
    | some x => (.char (charOf x), { q with chars := q.chars.dropLast })
  | .bToQ cp =>
    (.left (cp.length - q.free), { q with chars := q.chars ++ (cp.take q.free).map (·, false) })
  | .qToB count =>
    (.bytes ((q.chars.take count.toNat).map Prod.fst),
      { q with chars := q.chars.drop count.toNat })
  | .ndflush count => (.void, { q with chars := q.chars.drop count.toNat })

def Fifo.run (q : Fifo) : List ClistOp → List ClistRet × Fifo
  | [] => ([], q)
  | op :: ops => ((q.step op).1 :: ((q.step op).2.run ops).1, ((q.step op).2.run ops).2)

def Clist.content (clp : Clist) (p : Nat) : Byte × Bool :=
  (clp.cCs p, clp.cCq.any fun cq => isset cq p)

theorem charAt_eq (clp : Clist) (p : Nat) : clp.charAt p = charOf (clp.content p) := by
  rw [Clist.charAt, charOf, Clist.content]
  cases clp.cCq <;> rfl

/-- The clist holds the queue from offset `f` on.  Its pointers are set even if the queue is
empty. -/
structure Clist.Holds (clp : Clist) (f : Nat) (q : Fifo) : Prop where
  cCn : clp.cCn = q.cap
  cCe : clp.cCe = q.cap
  cCq : clp.cCq.isSome = q.quot
  cCc : clp.cCc = q.chars.length
  le : q.chars.length ≤ q.cap
  lt : f < q.cap
  cCf : clp.cCf = some f
  cCl : clp.cCl = some (wrap q.cap (f + q.chars.length))
  slice : slice clp.content q.cap f q.chars.length = q.chars

structure Clist.Repr (clp : Clist) (q : Fifo) : Prop where
  cCn : clp.cCn = q.cap
  cCe : clp.cCe = q.cap
  cCq : clp.cCq.isSome = q.quot
  cCc : clp.cCc = q.chars.length
  empty : q.chars = [] → clp.cCf = none ∧ clp.cCl = none
  holds : q.chars ≠ [] → ∃ f, clp.Holds f q

namespace Clist

variable {clp clp' : Clist} {q : Fifo} {f j : Nat}

theorem bump_eq (h : clp.cCe = q.cap) {n : Nat} (hle : p + n ≤ q.cap) :
    clp.bump p n = wrap q.cap (p + n) := by
  rw [bump, h, wrap]
  split <;> split <;> omega

theorem Holds.repr (h : clp.Holds f q) (hq : q.chars ≠ []) : clp.Repr q :=
  ⟨h.cCn, h.cCe, h.cCq, h.cCc, fun heq => absurd heq hq, fun _ => ⟨f, h⟩⟩

theorem Holds.reset (h : clp.Holds f q) : clp.reset.Repr q := by
  by_cases hq : q.chars = []
  · have hcc : clp.cCc = 0 := by rw [h.cCc, hq, length_nil]
    rw [Clist.reset, if_pos hcc]
    exact ⟨h.cCn, h.cCe, h.cCq, h.cCc, fun _ => ⟨rfl, rfl⟩, fun hne => absurd hq hne⟩
  · have hcc : clp.cCc ≠ 0 := by rwa [h.cCc, Ne, length_eq_zero_iff]
    rw [Clist.reset, if_neg hcc]
    exact h.repr hq

theorem Repr.start (h : clp.Repr q) (hcap : 0 < q.cap) : ∃ f, clp.start.Holds f q := by
  by_cases hq : q.chars = []
  · have hlen : q.chars.length = 0 := by rw [hq, length_nil]
    have hcc : clp.cCc = 0 := by rw [h.cCc, hlen]
    rw [Clist.start, if_pos hcc]
    refine ⟨0, h.cCn, h.cCe, h.cCq, h.cCc, by omega, hcap, rfl, ?_, ?_⟩
    · rw [hlen, wrap_of_lt hcap]
    · rw [hlen, hq, slice_zero]
  · have hcc : clp.cCc ≠ 0 := by rwa [h.cCc, Ne, length_eq_zero_iff]
    rw [Clist.start, if_neg hcc]
    exact h.holds hq

theorem Holds.append (h : clp.Holds f q) {r : List (Byte × Bool)}
    (hle : q.chars.length + r.length ≤ q.cap) (hcn : clp'.cCn = clp.cCn) (hce : clp'.cCe = clp.cCe)
    (hcq : clp'.cCq.isSome = clp.cCq.isSome) (hcc : clp'.cCc = clp.cCc + r.length)
    (hcf : clp'.cCf = clp.cCf)
    (hcl : clp'.cCl = some (wrap q.cap (wrap q.cap (f + q.chars.length) + r.length)))
    (hold : ∀ i < q.chars.length,
      clp'.content (wrap q.cap (f + i)) = clp.content (wrap q.cap (f + i)))
    (hnew : Lib.RingSlice.slice clp'.content q.cap (wrap q.cap (f + q.chars.length)) r.length = r) :
    clp'.Holds f { q with chars := q.chars ++ r } where
  cCn := hcn.trans h.cCn
  cCe := hce.trans h.cCe
  cCq := hcq.trans h.cCq
  cCc := by rw [hcc, h.cCc, length_append]
  le := by rwa [length_append]
  lt := h.lt
  cCf := hcf.trans h.cCf
  cCl := by rw [hcl, wrap_wrap h.lt hle, length_append]
  slice := by
    rw [length_append, slice_append h.lt hle, hnew, slice_congr hold, h.slice]

theorem Holds.drop (h : clp.Holds f q) (hj : j ≤ q.chars.length) (hcn : clp'.cCn = clp.cCn)
    (hce : clp'.cCe = clp.cCe) (hcq : clp'.cCq.isSome = clp.cCq.isSome)
    (hcc : clp'.cCc = clp.cCc - j) (hcf : clp'.cCf = some (wrap q.cap (f + j)))
    (hcl : clp'.cCl = clp.cCl) (hold : ∀ i < q.chars.length, j ≤ i →
      clp'.content (wrap q.cap (f + i)) = clp.content (wrap q.cap (f + i))) :
    clp'.Holds (wrap q.cap (f + j)) { q with chars := q.chars.drop j } where
  cCn := hcn.trans h.cCn
  cCe := hce.trans h.cCe
  cCq := hcq.trans h.cCq
  cCc := by rw [hcc, h.cCc, length_drop]
  le := by
    rw [length_drop]
    exact (sub_le _ _).trans h.le
  lt := wrap_lt h.lt (hj.trans h.le)
  cCf := hcf
  cCl := by
    have hlen : j + (q.chars.length - j) = q.chars.length := by omega
    rw [hcl, h.cCl, length_drop, wrap_wrap h.lt (by rw [hlen]; exact h.le), hlen]
  slice := by
    have hle := h.le
    rw [length_drop]
    calc Lib.RingSlice.slice clp'.content q.cap (wrap q.cap (f + j)) (q.chars.length - j)
        = Lib.RingSlice.slice clp.content q.cap (wrap q.cap (f + j)) (q.chars.length - j) := by
          apply slice_congr
          intro i hi
          rw [wrap_wrap h.lt (by omega), hold (j + i) (by omega) (by omega)]
      _ = (Lib.RingSlice.slice clp.content q.cap f q.chars.length).drop j :=
          (drop_slice h.lt hj h.le).symm
      _ = q.chars.drop j := by rw [h.slice]

theorem Holds.contiguous (h : clp.Holds f q) (hq : q.chars ≠ [])
    (hcl : clp.cCl = some cl) (hcc : cc = if f ≥ cl then clp.cCe - f else cl - f) :
    0 < cc ∧ cc ≤ q.chars.length ∧ f + cc ≤ q.cap := by
  have hlen : 0 < q.chars.length := length_pos_iff.mpr hq
  have hle := h.le
  have hlt := h.lt
  rw [h.cCl, some.injEq] at hcl
  rw [← hcl, h.cCe] at hcc
  simp only [wrap] at hcc
  split at hcc <;> split at hcc <;> omega

theorem Holds.contiguous_space (h : clp.Holds f q) (hq : q.chars.length < q.cap)
    (hcl : clp.cCl = some cl) (hcc : cc = if f > cl then f - cl else clp.cCe - cl) :
    0 < cc ∧ q.chars.length + cc ≤ q.cap ∧ cl + cc ≤ q.cap := by
  have hlt := h.lt
  rw [h.cCl, some.injEq] at hcl
  rw [← hcl, h.cCe] at hcc
  rw [← hcl]
  simp only [wrap] at hcc ⊢
  split at hcc <;> split at hcc <;> split <;> omega

theorem content_takeAt (h : p ≠ f) : (clp.takeAt f).content p = clp.content p := by
  simp only [content, takeAt, update_of_ne h]
  cases clp.cCq <;> simp [h]

theorem content_takeBack (h : p ≠ f) : (clp.takeBack f).content p = clp.content p := by
  simp only [content, takeBack, update_of_ne h]
  cases clp.cCq <;> simp [h]

theorem content_moveOut (h : p < f ∨ f + cc ≤ p) :
    (clp.moveOut f cc).content p = clp.content p := by
  have hout : ¬(f ≤ p ∧ p < f + cc) := by omega
  simp only [content, moveOut, memzero, if_neg hout]
  cases clp.cCq <;> simp [hout]

theorem content_putAt (c : CInt) (h : p ≠ cl) : (clp.putAt cl c).content p = clp.content p := by
  simp only [content, putAt, update_of_ne h]
  cases clp.cCq with
  | none => rfl
  | some cq =>
    simp only [map_some, any_some]
    split <;> simp [h]

theorem content_putAt_self (cl : Nat) (c : CInt) :
    (clp.putAt cl c).content cl = (c.setWidth 8, clp.cCq.isSome && c &&& ttyQuote ≠ 0) := by
  simp only [content, putAt, update_self]
  cases clp.cCq with
  | none => rfl
  | some cq =>
    simp only [map_some, any_some, isSome_some, Bool.true_and]
    split <;> simp_all

theorem content_moveIn (h : p < cl ∨ cl + r.length ≤ p) :
    (clp.moveIn cl r).content p = clp.content p := by
  have hout : ¬(cl ≤ p ∧ p < cl + r.length) := by omega
  simp only [content, moveIn, memcpy, if_neg hout]
  cases clp.cCq <;> simp [hout]

theorem content_moveIn_self (h : i < r.length) :
    (clp.moveIn cl r).content (cl + i) = (r[i], false) := by
  have hin : cl ≤ cl + i ∧ cl + i < cl + r.length := by omega
  simp only [content, moveIn, memcpy, if_pos hin, Nat.add_sub_cancel_left]
  cases clp.cCq <;> simp [h]

end Clist

end Mbsd.Kern.TtySubr
