import Mathlib.Data.Nat.Bitwise
import Mathlib.Tactic.Ring
import Mbsd.Lib.TreeFill
import Mbsd.Net.Art.Model

/-! Prefixes as lists of bits, the most significant bit of the first byte first, and what
`art_bindex` and `art_node_check` compute in terms of these. -/

namespace Mbsd.Net.Allotment

open Lib.HeapIndex Sys List Nat Art

def bitAt (addr : List UInt8) (i : Nat) : Bool := (addr.getD (i / 8) 0).toNat.testBit (7 - i % 8)

def bitsOf (addr : List UInt8) (plen : Nat) : List Bool := (List.range plen).map (bitAt addr)

def ArtNode.bits (an : ArtNode) : List Bool := bitsOf an.anAddr an.anPlen

@[simp] theorem length_bitsOf (addr : List UInt8) (plen : Nat) :
    (bitsOf addr plen).length = plen := by
  rw [bitsOf, length_map, length_range]

@[simp] theorem length_bits (an : ArtNode) : an.bits.length = an.anPlen := length_bitsOf _ _

theorem take_bitsOf (addr : List UInt8) {m n : Nat} (h : m ≤ n) :
    (bitsOf addr n).take m = bitsOf addr m := by
  rw [bitsOf, ← map_take, take_range, Nat.min_eq_left h]
  rfl

theorem bitsOf_append_drop (addr : List UInt8) {m n : Nat} (h : m ≤ n) :
    bitsOf addr m ++ (bitsOf addr n).drop m = bitsOf addr n := by
  rw [← take_bitsOf addr h, take_append_drop]

theorem bitsOf_eq_iff {a b : List UInt8} {n : Nat} :
    bitsOf a n = bitsOf b n ↔ ∀ i < n, bitAt a i = bitAt b i := by
  rw [bitsOf, bitsOf, map_inj_left]
  simp only [mem_range]

theorem idx_testBits (x : Nat) (s n : Nat) :
    idx ((range n).map fun i => x.testBit (s + n - 1 - i)) = x / 2 ^ s % 2 ^ n + 2 ^ n := by
  induction n generalizing s with
  | zero => simp [mod_one]
  | succ n ih =>
    have hmap : ((range n).map fun i => x.testBit (s + (n + 1) - 1 - i)) =
        (range n).map fun i => x.testBit (s + 1 + n - 1 - i) := by
      apply map_congr_left
      intro i hi
      congr 1
      omega
    have hbit : (x.testBit s).toNat = x / 2 ^ s % 2 := by
      rw [testBit_eq_decide_div_mod_eq]
      rcases mod_two_eq_zero_or_one (x / 2 ^ s) with h | h <;> simp [h]
    have hlast : s + (n + 1) - 1 - n = s := by omega
    rw [range_succ, map_append, map_singleton, idx_snoc, hmap, ih (s + 1), hlast,
      hbit, Nat.pow_succ 2 s, ← Nat.div_div_eq_div_mul, pow_succ' 2 n, mod_mul]
    ring

theorem drop_bitsOf (addr : List UInt8) (m n : Nat) :
    (bitsOf addr (m + n)).drop m = (range n).map fun i => bitAt addr (m + i) := by
  rw [bitsOf, ← map_drop, range_eq_range', drop_range', Nat.add_sub_cancel_left,
    range'_eq_map_range, map_map]
  simp only [Nat.zero_add, Nat.mul_one, Function.comp_def, range_eq_range']

theorem drop_bitsOf_aligned (addr : List UInt8) {offset n : Nat} (h : offset % 8 + n ≤ 8) :
    (bitsOf addr (offset + n)).drop offset = (range n).map fun i =>
      (addr.getD (offset / 8) 0).toNat.testBit (8 - offset % 8 - n + n - 1 - i) := by
  rw [drop_bitsOf]
  apply map_congr_left
  intro i hi
  have hi : i < n := mem_range.mp hi
  have hdiv : (offset + i) / 8 = offset / 8 := by omega
  have hbit : 7 - (offset + i) % 8 = 8 - offset % 8 - n + n - 1 - i := by omega
  rw [bitAt, hdiv, hbit]

theorem artBindex_eq {offset bits plen : Nat} (addr : List UInt8) (hal : offset % 8 + bits ≤ 8)
    (hlo : offset ≤ plen) (hhi : plen ≤ offset + bits) :
    artBindex offset bits addr plen = some (idx ((bitsOf addr plen).drop offset)) := by
  obtain ⟨n, rfl⟩ := Nat.exists_eq_add_of_le hlo
  have h24 : ¬ bits + offset % 8 > 24 := by omega
  have h16 : ¬ bits + offset % 8 > 16 := by omega
  have h8 : ¬ bits + offset % 8 > 8 := by omega
  have hsplit : 2 ^ bits = 2 ^ (bits - n) * 2 ^ n := by
    rw [← Nat.pow_add]
    congr 1
    omega
  have hshift : 2 ^ (8 - (bits + offset % 8)) * 2 ^ (bits - n) = 2 ^ (8 - offset % 8 - n) := by
    rw [← Nat.pow_add]
    congr 1
    omega
  rw [drop_bitsOf_aligned addr (by omega), idx_testBits]
  simp only [artBindex, kassert_true hlo, kassert_true hhi, h24, h16, h8,
    kassert_true (show bits + offset % 8 ≤ 32 by omega), if_false, Nat.add_sub_cancel_left,
    Nat.add_zero, one_shiftLeft, and_two_pow_sub_one_eq_mod, shiftRight_eq_div_pow,
    Option.bind_eq_bind, Option.bind_some]
  rw [hsplit, mod_mul_right_div_self, Nat.div_div_eq_div_mul, hshift]

section NodeCheck

def Agree (a b : List UInt8) (lo hi : Nat) : Prop := ∀ i, lo ≤ i → i < hi → bitAt a i = bitAt b i

variable {a b : List UInt8}

theorem agree_append {lo mid hi : Nat} (hlo : lo ≤ mid) (hhi : mid ≤ hi) :
    Agree a b lo hi ↔ Agree a b lo mid ∧ Agree a b mid hi := by
  constructor
  · intro h
    exact ⟨fun i hi hlt => h i hi (by omega), fun i hi hlt => h i (by omega) hlt⟩
  · rintro ⟨hl, hr⟩ i hi hlt
    rcases Nat.lt_or_ge i mid with h | h
    · exact hl i hi h
    · exact hr i h hlt

theorem agree_byte {i n : Nat} (hn : n ≤ 8) : Agree a b (8 * i) (8 * i + n) ↔
      (a.getD i 0).toNat >>> (8 - n) = (b.getD i 0).toNat >>> (8 - n) := by
  constructor
  · intro h
    apply eq_of_testBit_eq
    intro j
    rw [testBit_shiftRight, testBit_shiftRight]
    by_cases hj : j < n
    · have hagree := h (8 * i + (n - 1 - j)) (by omega) (by omega)
      have hdiv : (8 * i + (n - 1 - j)) / 8 = i := by omega
      have hmod : 7 - (8 * i + (n - 1 - j)) % 8 = 8 - n + j := by omega
      rwa [bitAt, bitAt, hdiv, hmod] at hagree
    · have hbig : 2 ^ 8 ≤ 2 ^ (8 - n + j) := Nat.pow_le_pow_right (by omega) (by omega)
      rw [testBit_lt_two_pow (Nat.lt_of_lt_of_le (UInt8.toNat_lt _) hbig),
        testBit_lt_two_pow (Nat.lt_of_lt_of_le (UInt8.toNat_lt _) hbig)]
  · intro h k hk hlt
    have hdiv : k / 8 = i := by omega
    have hmod : 7 - k % 8 = 8 - n + (n - 1 - k % 8) := by omega
    rw [bitAt, bitAt, hdiv, hmod, ← testBit_shiftRight, ← testBit_shiftRight, h]

theorem sameBytes_iff {i n : Nat} : sameBytes a b i n = true ↔ Agree a b (8 * i) (8 * (i + n)) := by
  induction n with
  | zero => simp [sameBytes, Agree]; omega
  | succ n ih =>
    have hstep : sameBytes a b i (n + 1) = (sameBytes a b i n &&
        (a.getD (i + n) 0 == b.getD (i + n) 0)) := by
      simp [sameBytes, range_succ]
    have hbyte := @agree_byte a b (i + n) 8 (Nat.le_refl 8)
    rw [Nat.sub_self, shiftRight_zero, shiftRight_zero, UInt8.toNat_inj] at hbyte
    rw [hstep, Bool.and_eq_true, ih, beq_iff_eq, ← hbyte, ← agree_append (by omega) (by omega)]
    rfl

theorem sameWords_iff {n : Nat} :
    ((range n).all fun i => sameBytes a b (4 * i) 4) = true ↔ Agree a b 0 (32 * n) := by
  induction n with
  | zero => simp [Agree]
  | succ n ih =>
    have hlo : 8 * (4 * n) = 32 * n := by omega
    have hhi : 8 * (4 * n + 4) = 32 * (n + 1) := by omega
    rw [range_succ, all_append, Bool.and_eq_true, ih, all_cons, all_nil,
      Bool.and_true, sameBytes_iff, hlo, hhi, ← agree_append (by omega) (by omega)]

theorem agree_zero_iff {n : Nat} : Agree a b 0 n ↔ bitsOf a n = bitsOf b n := by
  rw [bitsOf_eq_iff]
  exact ⟨fun h i hi => h i (Nat.zero_le i) hi, fun h i _ hi => h i hi⟩

theorem agree_self (lo : Nat) : Agree a b lo lo :=
  fun _ hi hlt => absurd hlt (Nat.not_lt.mpr hi)

theorem agree_bytes {i n : Nat} : Agree a b (8 * i) (8 * i + n) ↔
    sameBytes a b i (n / 8) = true ∧ Agree a b (8 * (i + n / 8)) (8 * (i + n / 8) + n % 8) := by
  have hend : 8 * i + n = 8 * (i + n / 8) + n % 8 := by omega
  rw [sameBytes_iff, hend, ← agree_append (by omega) (by omega)]

theorem artNodeCheck_iff {an : ArtNode} {addr : List UInt8} {plen : Nat} :
    artNodeCheck an addr plen = true ↔ an.bits = bitsOf addr plen := by
  have hbits : an.bits = bitsOf addr plen ↔
      an.anPlen = plen ∧ Agree an.anAddr addr 0 plen := by
    rw [agree_zero_iff, ArtNode.bits]
    constructor
    · intro h
      have hlen : an.anPlen = plen := by simpa using congrArg List.length h
      exact ⟨hlen, hlen ▸ h⟩
    · rintro ⟨rfl, h⟩
      exact h
  rw [hbits, artNodeCheck]
  by_cases hlen : an.anPlen = plen
  case neg => simp [hlen]
  have hsplit : Agree an.anAddr addr 0 plen ↔ Agree an.anAddr addr 0 (32 * (plen / 32)) ∧
      Agree an.anAddr addr (8 * (plen / 32 * 4)) (8 * (plen / 32 * 4) + plen % 32) := by
    have hmid : 8 * (plen / 32 * 4) = 32 * (plen / 32) := by omega
    rw [hmid, Nat.div_add_mod]
    exact agree_append (Nat.zero_le _) (Nat.mul_div_le plen 32)
  rw [hsplit, ← sameWords_iff]
  rw [if_neg (not_not.mpr hlen)]
  simp only [hlen, true_and]
  cases (List.range (plen / 32)).all fun i => sameBytes an.anAddr addr (4 * i) 4 with
  | false => simp
  | true =>
    simp only [Bool.not_true, Bool.false_eq_true, if_false, true_and]
    by_cases hr : plen % 32 = 0
    · simp [hr, agree_self]
    rw [if_neg hr, agree_bytes]
    cases sameBytes an.anAddr addr (plen / 32 * 4) (plen % 32 / 8) with
    | false => simp
    | true =>
      simp only [Bool.not_true, Bool.false_eq_true, if_false, true_and]
      by_cases hb : plen % 32 % 8 = 0
      · simp [hb, agree_self]
      rw [if_neg hb, agree_byte (by omega), beq_iff_eq]

end NodeCheck

/-! The tables of a routing table, by the bits of the addresses they are for. -/

open Function

structure Place where
  parent : Option Ptr
  index : Nat
  minfringe : Nat
  level : Nat
  bits : Nat
  offset : Nat

def ArtTable.place (at_ : ArtTable) : Place :=
  ⟨at_.atParent, at_.atIndex, at_.atMinfringe, at_.atLevel, at_.atBits, at_.atOffset⟩

namespace Art

variable (art : Art) (p : Ptr) (k : Nat) (ahe : ArtHeapEntry)

def slotVal : ArtHeapEntry := art.entry (art.slot p k).1 (art.slot p k).2

def setSlot : Art := art.setEntry (art.slot p k).1 (art.slot p k).2 ahe

theorem mem_modify (f : ArtTable → ArtTable) (q : Ptr) :
    (art.modify p f).mem q = if q = p then f (art.mem p) else art.mem q :=
  update_apply art.mem p (f (art.mem p)) q

theorem entry_modify {f : ArtTable → ArtTable} (hf : ∀ at_, (f at_).atHeap = at_.atHeap)
    (q : Ptr) (j : Nat) : (art.modify p f).entry q j = art.entry q j := by
  rw [entry, mem_modify]
  split
  next heq => rw [hf, heq, entry]
  · rfl

theorem entry_setEntry (q : Ptr) (j : Nat) :
    (art.setEntry p k ahe).entry q j = if q = p ∧ j = k then ahe else art.entry q j := by
  rw [setEntry, entry, mem_modify]
  by_cases hq : q = p
  · subst hq
    simp [update_apply, entry]
  · simp [hq, entry]

theorem place_setEntry (q : Ptr) : ((art.setEntry p k ahe).mem q).place = (art.mem q).place := by
  rw [setEntry, mem_modify]
  split
  next h => rw [h]; rfl
  · rfl

theorem atRefcnt_setEntry (q : Ptr) :
    ((art.setEntry p k ahe).mem q).atRefcnt = (art.mem q).atRefcnt := by
  rw [setEntry, mem_modify]
  split
  next h => rw [h]
  · rfl

end Art

/-- Two routing tables have the same tables at the same places, linked in the same way. -/
structure SameTables (art art' : Art) : Prop where
  root : art'.artRoot = art.artRoot
  levels : art'.artLevels = art.artLevels
  alen : art'.artAlen = art.artAlen
  next : art'.next = art.next
  pool : art'.pool = art.pool
  place : ∀ p, (art'.mem p).place = (art.mem p).place
  link : ∀ p k q, art'.entry p k = .heap q ↔ art.entry p k = .heap q

namespace SameTables

variable {art art' art'' : Art}

theorem refl (art : Art) : SameTables art art :=
  ⟨rfl, rfl, rfl, rfl, rfl, fun _ => rfl, fun _ _ _ => Iff.rfl⟩

theorem trans (h : SameTables art art') (h' : SameTables art' art'') : SameTables art art'' where
  root := h'.root.trans h.root
  levels := h'.levels.trans h.levels
  alen := h'.alen.trans h.alen
  next := h'.next.trans h.next
  pool := h'.pool.trans h.pool
  place := fun p => (h'.place p).trans (h.place p)
  link := fun p k q => (h'.link p k q).trans (h.link p k q)

variable (h : SameTables art art') (p : Ptr)
include h

theorem parent : (art'.mem p).atParent = (art.mem p).atParent := congrArg Place.parent (h.place p)

theorem index : (art'.mem p).atIndex = (art.mem p).atIndex := congrArg Place.index (h.place p)

theorem minfringe : (art'.mem p).atMinfringe = (art.mem p).atMinfringe :=
  congrArg Place.minfringe (h.place p)

theorem level : (art'.mem p).atLevel = (art.mem p).atLevel := congrArg Place.level (h.place p)

theorem bits : (art'.mem p).atBits = (art.mem p).atBits := congrArg Place.bits (h.place p)

theorem offset : (art'.mem p).atOffset = (art.mem p).atOffset := congrArg Place.offset (h.place p)

theorem slot (k : Nat) : art'.slot p k = art.slot p k := by
  rw [Art.slot, Art.slot]
  cases hent : art.entry p k with
  | heap q => rw [(h.link p k q).mpr hent]
  | node an =>
    cases hent' : art'.entry p k with
    | node an' => rfl
    | heap q =>
      rw [(h.link p k q).mp hent'] at hent
      cases hent

end SameTables

theorem sameTables_setEntry {art : Art} {p : Ptr} {k : Nat} {an : Option ArtNode}
    (h : ∀ q, art.entry p k ≠ .heap q) : SameTables art (art.setEntry p k (.node an)) where
  root := rfl
  levels := rfl
  alen := rfl
  next := rfl
  pool := rfl
  place := art.place_setEntry p k _
  link := by
    intro p' k' q
    rw [Art.entry_setEntry]
    split
    next heq =>
      obtain ⟨rfl, rfl⟩ := heq
      exact ⟨(nomatch ·), fun hq => absurd hq (h q)⟩
    · rfl

theorem sameTables_modify {art : Art} {p : Ptr} {f : Int → Int} :
    SameTables art (art.modify p fun at_ => { at_ with atRefcnt := f at_.atRefcnt }) where
  root := rfl
  levels := rfl
  alen := rfl
  next := rfl
  pool := rfl
  place := by
    intro q
    rw [Art.mem_modify]
    split
    next h => rw [h]; rfl
    · rfl
  link := by
    intro p' k' q
    rw [Art.entry_modify]
    exact fun _ => rfl

/-- Every level has a table size that there are pools for, and covers bits of one byte. -/
def Strides (levels : List Nat) : Prop :=
  ∀ ℓ, ℓ < levels.length → (levels.getD ℓ 0 = 4 ∨ levels.getD ℓ 0 = 8) ∧
    (levels.take ℓ).sum % 8 + levels.getD ℓ 0 ≤ 8

abbrev Tables := List Bool → Option Ptr

structure TableAt (art : Art) (π : List Bool) (p : Ptr) : Prop where
  fresh : p < art.next
  level : (art.mem p).atLevel < art.artLevels.length
  length : π.length = (art.artLevels.take (art.mem p).atLevel).sum
  offset : (art.mem p).atOffset = π.length
  bits : (art.mem p).atBits = art.artLevels.getD (art.mem p).atLevel 0
  minfringe : (art.mem p).atMinfringe = 2 ^ (art.mem p).atBits

structure Shape (art : Art) (tab : Tables) : Prop where
  strides : Strides art.artLevels
  sum : art.artLevels.sum = art.artAlen
  root : art.artRoot = tab []
  table : ∀ {π p}, tab π = some p → TableAt art π p
  inj : ∀ {π π' p}, tab π = some p → tab π' = some p → π = π'
  top : ∀ {p}, tab [] = some p → (art.mem p).atParent = none ∧ (art.mem p).atIndex = noIndex ∧
    (art.mem p).atLevel = 0
  rooted : ∀ {π p}, tab π = some p → tab [] ≠ none
  inner : ∀ {π p l}, tab π = some p → l.length < (art.mem p).atBits →
    ∀ q, art.entry p (idx l) ≠ .heap q
  link : ∀ {π p l}, tab π = some p → l.length = (art.mem p).atBits →
    ∀ q, art.entry p (idx l) = .heap q ↔ tab (π ++ l) = some q
  child : ∀ {π p l q}, tab π = some p → l.length = (art.mem p).atBits → tab (π ++ l) = some q →
    (art.mem q).atParent = some p ∧ (art.mem q).atIndex = idx l ∧
      (art.mem q).atLevel = (art.mem p).atLevel + 1
  parent : ∀ {π p}, tab π = some p → π ≠ [] →
    ∃ π₀ l q, tab π₀ = some q ∧ l.length = (art.mem q).atBits ∧ π = π₀ ++ l
  between : ∀ {π π' p p'}, tab π = some p → tab π' = some p' → π <+: π' → π ≠ π' →
    π.length + (art.mem p).atBits ≤ π'.length ∧
      tab (π'.take (π.length + (art.mem p).atBits)) ≠ none

namespace Shape

variable {art art' : Art} {tab : Tables}

theorem of_same (h : Shape art tab) (hs : SameTables art art') : Shape art' tab where
  strides := hs.levels ▸ h.strides
  sum := by rw [hs.levels, hs.alen, h.sum]
  root := hs.root.trans h.root
  table := by
    intro π p hp
    obtain ⟨h1, h2, h3, h4, h5, h6⟩ := h.table hp
    constructor <;> simpa only [hs.next, hs.levels, hs.level, hs.offset, hs.bits, hs.minfringe]
  inj := h.inj
  top := by
    intro p hp
    rw [hs.parent, hs.index, hs.level]
    exact h.top hp
  rooted := h.rooted
  inner := by
    intro π p l hp hl q hq
    rw [hs.bits] at hl
    exact h.inner hp hl q ((hs.link _ _ _).mp hq)
  link := by
    intro π p l hp hl q
    rw [hs.bits] at hl
    exact (hs.link _ _ _).trans (h.link hp hl q)
  child := by
    intro π p l q hp hl hq
    rw [hs.bits] at hl
    rw [hs.parent, hs.index, hs.level, hs.level]
    exact h.child hp hl hq
  parent := by
    intro π p hp hne
    obtain ⟨π₀, l, q, hq, hl, heq⟩ := h.parent hp hne
    exact ⟨π₀, l, q, hq, by rw [hs.bits, hl], heq⟩
  between := by
    intro π π' p p' hp hp' hpre hne
    rw [hs.bits]
    exact h.between hp hp' hpre hne

section Slots

variable {π π' l l' : List Bool} {p p' q : Ptr} {an : Option ArtNode}

section

variable (h : Shape art tab) (hp : tab π = some p)

include h hp

theorem bits_cases : (art.mem p).atBits = 4 ∨ (art.mem p).atBits = 8 := by
  rw [(h.table hp).bits]
  exact (h.strides _ (h.table hp).level).1

theorem bits_pos : 0 < (art.mem p).atBits := by
  rcases h.bits_cases hp with h | h <;> omega

theorem aligned : π.length % 8 + (art.mem p).atBits ≤ 8 := by
  rw [(h.table hp).bits, (h.table hp).length]
  exact (h.strides _ (h.table hp).level).2

theorem default_ne_heap (q : Ptr) : art.entry p artHeapIdxDefault ≠ .heap q :=
  h.inner (l := []) hp (h.bits_pos hp) q

theorem slot_cases (hl : l.length ≤ (art.mem p).atBits) :
    (∀ q, art.entry p (idx l) ≠ .heap q) ∧ art.slot p (idx l) = (p, idx l) ∨
    ∃ q, art.entry p (idx l) = .heap q ∧ l.length = (art.mem p).atBits ∧ tab (π ++ l) = some q ∧
      art.slot p (idx l) = (q, artHeapIdxDefault) := by
  rw [Art.slot]
  cases hent : art.entry p (idx l) with
  | node an => exact .inl ⟨fun q => nofun, rfl⟩
  | heap q =>
    have hlen : l.length = (art.mem p).atBits := by
      by_contra hne
      exact h.inner hp (by omega) q hent
    exact .inr ⟨q, rfl, hlen, (h.link hp hlen q).mp hent, rfl⟩

theorem slot_inner (hl : l.length < (art.mem p).atBits) : art.slot p (idx l) = (p, idx l) := by
  rcases h.slot_cases hp (Nat.le_of_lt hl) with ⟨-, hs⟩ | ⟨q, -, hlen, -, -⟩
  · exact hs
  · omega

theorem slot_ne_heap (hl : l.length ≤ (art.mem p).atBits) (q : Ptr) :
    art.slotVal p (idx l) ≠ .heap q := by
  rw [Art.slotVal]
  rcases h.slot_cases hp hl with ⟨hne, hs⟩ | ⟨c, -, -, hc, hs⟩
  · rw [hs]
    exact hne q
  · rw [hs]
    exact h.default_ne_heap hc q

theorem slot_inj (hpos : l ≠ [])
    (hl : l.length ≤ (art.mem p).atBits) (hp' : tab π' = some p') (hpos' : l' ≠ [])
    (hl' : l'.length ≤ (art.mem p').atBits) (heq : art.slot p (idx l) = art.slot p' (idx l')) :
    p = p' ∧ l = l' := by
  have h2 : 2 ≤ idx l := two_le_idx hpos
  have h2' : 2 ≤ idx l' := two_le_idx hpos'
  rcases h.slot_cases hp hl with ⟨-, hs⟩ | ⟨c, -, hlen, hc, hs⟩ <;>
    rcases h.slot_cases hp' hl' with ⟨-, hs'⟩ | ⟨c', -, hlen', hc', hs'⟩ <;>
    rw [hs, hs', Prod.mk.injEq] at heq
  · exact ⟨heq.1, idx_inj.mp heq.2⟩
  · exact absurd heq.2 (by rw [artHeapIdxDefault]; omega)
  · exact absurd heq.2 (by rw [artHeapIdxDefault]; omega)
  · obtain ⟨hpar, hidx, -⟩ := h.child hp hlen hc
    obtain ⟨hpar', hidx', -⟩ := h.child hp' hlen' hc'
    rw [heq.1, hpar', Option.some.injEq] at hpar
    rw [heq.1, hidx', idx_inj] at hidx
    exact ⟨hpar.symm, hidx.symm⟩

theorem slot_ne_default (hpos : l ≠ [])
    (hl : l.length ≤ (art.mem p).atBits) (hr : tab [] = some q) :
    art.slot p (idx l) ≠ (q, artHeapIdxDefault) := by
  have h2 : 2 ≤ idx l := two_le_idx hpos
  rcases h.slot_cases hp hl with ⟨-, hs⟩ | ⟨c, -, -, hc, hs⟩
  · rw [hs, Ne, Prod.mk.injEq, artHeapIdxDefault]
    omega
  · rw [hs, Ne, Prod.mk.injEq]
    rintro ⟨rfl, -⟩
    have hnil := h.inj hc hr
    exact hpos (List.append_eq_nil_iff.mp hnil).2

theorem same_setSlot (hl : l.length ≤ (art.mem p).atBits) :
    SameTables art (art.setSlot p (idx l) (.node an)) :=
  sameTables_setEntry (h.slot_ne_heap hp hl)

theorem slotVal_setSlot (hpos : l ≠ [])
    (hl : l.length ≤ (art.mem p).atBits) (hp' : tab π' = some p') (hpos' : l' ≠ [])
    (hl' : l'.length ≤ (art.mem p').atBits) :
    (art.setSlot p (idx l) (.node an)).slotVal p' (idx l') =
      if p' = p ∧ l' = l then .node an else art.slotVal p' (idx l') := by
  rw [slotVal, (h.same_setSlot hp hl).slot, setSlot, entry_setEntry]
  by_cases heq : p' = p ∧ l' = l
  · obtain ⟨rfl, rfl⟩ := heq
    simp
  · rw [if_neg heq, if_neg]
    · rfl
    · rintro ⟨h1, h2⟩
      exact heq (h.slot_inj hp' hpos' hl' hp hpos hl (Prod.ext h1 h2))

theorem default_setSlot (hpos : l ≠ [])
    (hl : l.length ≤ (art.mem p).atBits) (hr : tab [] = some q) :
    (art.setSlot p (idx l) (.node an)).entry q artHeapIdxDefault =
      art.entry q artHeapIdxDefault := by
  rw [setSlot, entry_setEntry, if_neg]
  rintro ⟨h1, h2⟩
  exact h.slot_ne_default hp hpos hl hr (Prod.ext h1.symm h2.symm)

end

end Slots

end Shape

end Mbsd.Net.Allotment
