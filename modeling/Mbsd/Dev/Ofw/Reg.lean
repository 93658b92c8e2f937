import Mbsd.Dev.Ofw.Fdt
import Mbsd.Sys

/-! `fdt_get_cells`, `fdt_translate_reg` and `fdt_get_reg` of `dev/ofw/fdt.c`.  What a pointer on
the stack holds before anything is stored in it is given. -/

namespace Mbsd.Dev.Ofw

open Sys

variable {word word' : Nat → Nat} {stack entry : Option Nat} {bytes : List UInt8} {r : Nat × Nat}
  {addr' : Nat} {t : Option Fdt} {reg : Reg}

def addressCellsStr : Str := [35, 97, 100, 100, 114, 101, 115, 115, 45, 99, 101, 108, 108, 115]

def sizeCellsStr : Str := [35, 115, 105, 122, 101, 45, 99, 101, 108, 108, 115]

def rangesStr : Str := [114, 97, 110, 103, 101, 115]

def regStr : Str := [114, 101, 103]

structure Reg where
  addr : Nat
  size : Nat
  deriving DecidableEq

/-- `len / sizeof(int)` as an `int`, where the division is one of `size_t`. -/
def intLen (len : Int) : Int := toInt ((len % 2 ^ 64).toNat / 4 % 2 ^ 32)

def fdtNodePropertyInt (m : Mem) (t : Option Fdt) (n node : Nat) (name : Str) (out : Nat) :
    Option Nat := do
  let (len, data) ← fdtNodeProperty m t n node name
  if intLen len ≤ 0 then some out else data.map (be32 m)

def fdtGetCells (m : Mem) (t : Option Fdt) : Nat → Nat → Option (Nat × Nat)
  | 0, _ => none
  | n + 1, node => do
    let (ac, sc) ← match ← fdtParentNode m t n node with
      | none => some (1, 1)
      | some parent => fdtGetCells m t n parent
    let ac ← fdtNodePropertyInt m t n node addressCellsStr ac
    let sc ← fdtNodePropertyInt m t n node sizeCellsStr sc
    some (ac, sc)

def Supported (cells : Nat) : Prop := 0 < cells ∧ cells ≤ 2

instance (cells : Nat) : Decidable (Supported cells) := inferInstanceAs (Decidable (_ ∧ _))

def number (cells : Nat) (word : Nat → Nat) : Nat :=
  if cells = 2 then word 0 * 2 ^ 32 + word 1 else word 0

/-- The loop of `fdt_translate_reg` over the entries that are left, from the `i`-th one on: which of
them decides, and the new address. -/
def rangesLoop (m : Mem) (ac pac sc addr size : Nat) : Nat → Nat → Nat → Option (Nat × Nat)
  | 0, _, _ => none
  | k + 1, i, range =>
    let word := fun j => be32 m (range + 4 * j)
    let from_ := number ac word
    let size_ := number sc fun j => word (ac + pac + j)
    if addr < from_ ∨ (addr + size) % 2 ^ 64 > (from_ + size_) % 2 ^ 64 then
      rangesLoop m ac pac sc addr size k (i + 1) (range + 4 * (pac + ac + sc))
    else
      let to_ := number pac fun j => word (ac + j)
      some (i, (addr - from_ + to_) % 2 ^ 64)

/-- How a call of `fdt_translate_reg` goes on: it returns, or it calls itself for the parent because
of an entry, or of none when `ranges` is taken to be empty. -/
inductive Round
  | ret (e : Option Errno)
  | call (parent : Nat) (entry : Option Nat) (addr : Nat)
  deriving DecidableEq

def translateRound (m : Mem) (t : Option Fdt) (n : Nat) (stack : Option Nat)
    (node addr size : Nat) : Option Round := do
  match ← fdtParentNode m t n node with
  | none => some (.ret none)
  | some parent =>
    let (len, out) ← fdtNodeProperty m t n node rangesStr
    let rlen := intLen len
    match out.or stack with
    | none => some (.ret none)
    | some range =>
      if rlen ≤ 0 then some (.call parent none addr)
      else
        let (pac, psc) ← fdtGetCells m t n parent
        if ¬(Supported pac ∧ Supported psc) then some (.ret (some .EINVAL))
        else
          let (ac, sc) ← fdtGetCells m t n node
          if ¬(Supported ac ∧ Supported sc) then some (.ret (some .EINVAL))
          else
            let rone := pac + ac + sc
            if rlen < rone then some (.ret (some .ESRCH))
            else
              match rangesLoop m ac pac sc addr size (rlen.toNat / rone) 0 range with
              | none => some (.ret (some .ESRCH))
              | some (i, addr) => some (.call parent (some i) addr)

def fdtTranslateReg (m : Mem) (t : Option Fdt) (stack : Nat → Option Nat) (size : Nat) :
    Nat → Nat → Nat → Option (Option Errno × Nat)
  | 0, _, _ => none
  | n + 1, node, addr => do
    match ← translateRound m t n (stack node) node addr size with
    | .ret e => some (e, addr)
    | .call parent _ addr => fdtTranslateReg m t stack size n parent addr

def int32 (x : Int) : Int := toInt (x % 2 ^ 32).toNat

/-- The place of `in[off]`.  The memory in front of the blob is not modelled. -/
def inPlace (in_ : Nat) (off : Int) : Nat := ((in_ : Int) + 4 * int32 off).toNat

/-- The part of `fdt_get_reg` that reads `reg`: the parent, and the pair, where `in` holds `stack`
in the beginning. -/
def readReg (m : Mem) (t : Option Fdt) (n : Nat) (stack : Option Nat) (node : Nat) (idx : Int) :
    Option (Except Errno (Nat × Reg)) := do
  match ← fdtParentNode m t n node with
  | none => some (.error .EINVAL)
  | some parent =>
    let (ac, sc) ← fdtGetCells m t n parent
    if ¬(Supported ac ∧ Supported sc) then some (.error .EINVAL)
    else
      let (len, out) ← fdtNodeProperty m t n node regStr
      if intLen len < int32 ((idx + 1) * (ac + sc : Nat)) then some (.error .EINVAL)
      else
        let in_ ← out.or stack
        let off := idx * (ac + sc : Nat)
        let word := fun j : Nat => be32 m (inPlace in_ (off + j))
        some (.ok (parent, ⟨number ac word, number sc fun j => word (ac + j)⟩))

def fdtGetReg (m : Mem) (t : Option Fdt) (stack : Nat → Option Nat) (n : Nat) (node : Option Nat)
    (idx : Int) (reg : Option Reg) : Option (Option Errno × Option Reg) :=
  match node, reg with
  | some node, some reg => do
    match ← readReg m t n (stack node) node idx with
    | .error e => some (some e, some reg)
    | .ok (parent, reg) =>
      let (e, addr) ← fdtTranslateReg m t stack reg.size n parent reg.addr
      some (e, some { reg with addr })
  | _, _ => some (some .EINVAL, reg)

/-! The translation that the ranges of a tree define, and when `fdt_get_reg` gives it. -/

open Lib Lib.Fuel List Option Nat

variable {m : Mem} {f : Nodes} {a b : Nat × NodeData} {l : List (Nat × NodeData)}
  {d : NodeData} {ds : List NodeData} {ws : List Nat} {p k i addr size ac pac sc : Nat}

def wordsOf : List UInt8 → List Nat
  | a :: b :: c :: d :: bytes =>
    (a.toNat * 2 ^ 24 + b.toNat * 2 ^ 16 + c.toNat * 2 ^ 8 + d.toNat) :: wordsOf bytes
  | _ => []

def NodeData.words (d : NodeData) (name : Str) : Option (List Nat) :=
  (d.props.find? (name == ·.name)).map fun x => wordsOf x.value

def cellsOf : List NodeData → Nat × Nat
  | [] => (1, 1)
  | d :: ds =>
    (((d.words addressCellsStr).bind List.head?).getD (cellsOf ds).1,
      ((d.words sizeCellsStr).bind List.head?).getD (cellsOf ds).2)

structure Window where
  base : Nat
  to_ : Nat
  size : Nat

def Window.Holds (w : Window) (addr size : Nat) : Prop :=
  w.base ≤ addr ∧ addr + size ≤ w.base + w.size

instance (w : Window) (addr size : Nat) : Decidable (w.Holds addr size) :=
  inferInstanceAs (Decidable (_ ∧ _))

def windowAt (ac pac sc : Nat) (word : Nat → Nat) : Window :=
  ⟨number ac word, number pac fun j => word (ac + j), number sc fun j => word (ac + pac + j)⟩

def windows (ac pac sc : Nat) (ws : List Nat) : List Window :=
  (List.range (ws.length / (pac + ac + sc))).map fun i =>
    windowAt ac pac sc fun j => ws.getD ((pac + ac + sc) * i + j) 0

def firstHolding (addr size : Nat) : Nat → List Window → Option (Nat × Window)
  | _, [] => none
  | i, w :: ws => if w.Holds addr size then some (i, w) else firstHolding addr size (i + 1) ws

/-- What a node makes of an address below it: the translation ends here, or it goes on above, or
there is none. -/
inductive Decision
  | stop
  | up (entry : Option Nat) (addr : Nat)
  | refuse

def decision (size addr : Nat) : List NodeData → Decision
  | [] => .stop
  | [_] => .stop
  | d :: ds =>
    match d.words rangesStr with
    | none => .stop
    | some [] => .up none addr
    | some ws =>
      let (pac, psc) := cellsOf ds
      let (ac, sc) := cellsOf (d :: ds)
      if Supported pac ∧ Supported psc ∧ Supported ac ∧ Supported sc then
        match firstHolding addr size 0 (windows ac pac sc ws) with
        | some (i, w) => .up (some i) (addr - w.base + w.to_)
        | none => .refuse
      else .refuse

def compose (size : Nat) : Nat → List NodeData → Option Nat
  | addr, [] => some addr
  | addr, d :: ds =>
    match decision size addr (d :: ds) with
    | .stop => some addr
    | .up _ addr => compose size addr ds
    | .refuse => none

def nthReg (idx : Int) : List NodeData → Option Reg
  | [] => none
  | [_] => none
  | d :: ds =>
    let (ac, sc) := cellsOf ds
    if Supported ac ∧ Supported sc then
      (d.words regStr).bind fun ws =>
        if 0 ≤ idx ∧ (idx + 1) * (ac + sc : Nat) ≤ ws.length then
          let word := fun j => ws.getD (idx.toNat * (ac + sc) + j) 0
          some ⟨number ac word, number sc fun j => word (ac + j)⟩
        else none
    else none

def regOf (idx : Int) (ds : List NodeData) : Option Reg :=
  (nthReg idx ds).bind fun reg =>
    (compose reg.size reg.addr ds.tail).map fun addr => { reg with addr }

def Round.decision : Round → Decision
  | .ret none => .stop
  | .ret (some _) => .refuse
  | .call _ entry addr => .up entry addr

def Along (size : Nat) (P : Nat → Nat × NodeData → List (Nat × NodeData) → Prop) :
    Nat → List (Nat × NodeData) → Prop
  | _, [] => True
  | addr, a :: l => P addr a l ∧
    ∀ entry addr', decision size addr ((a :: l).map Prod.snd) = .up entry addr' →
      Along size P addr' l

def Decides (m : Mem) (stack : Nat → Option Nat) (size addr : Nat) (a : Nat × NodeData)
    (l : List (Nat × NodeData)) : Prop :=
  ∃ r, Returns (fun n => translateRound m (some (initTree m)) n (stack a.1) a.1 addr size) r ∧
    r.decision = decision size addr ((a :: l).map Prod.snd)

def Reads (m : Mem) (stack : Option Nat) (idx : Int) (a : Nat × NodeData)
    (l : List (Nat × NodeData)) : Prop :=
  ∃ r, Returns (fun n => readReg m (some (initTree m)) n stack a.1 idx) r ∧
    r.toOption.map Prod.snd = nthReg idx ((a :: l).map Prod.snd)

def Tells {α : Type} : Option α → Option Errno × α → Prop
  | some x, r => r = (none, x)
  | none, r => r.1 ≠ none

section Words

theorem wordsOf_short
    (h : ∀ a b c d rest, bytes = a :: b :: c :: d :: rest → False) : wordsOf bytes = [] := by
  rw [wordsOf]
  exact h

theorem length_wordsOf (bytes : List UInt8) : (wordsOf bytes).length = bytes.length / 4 := by
  induction bytes using wordsOf.induct with
  | case1 a b c d bytes ih =>
    rw [wordsOf, length_cons, ih]
    simp only [length_cons]
    omega
  | case2 bytes h =>
    rw [wordsOf_short h, length_nil]
    have hlt : bytes.length < 4 := by
      match bytes, h with
      | [], _ => decide
      | [_], _ => exact le_of_ble_eq_true rfl
      | [_, _], _ => exact le_of_ble_eq_true rfl
      | [_, _, _], _ => exact le_of_ble_eq_true rfl
      | a :: b :: c :: d :: bytes, h => exact absurd rfl (h a b c d bytes)
    exact (div_eq_of_lt hlt).symm

theorem be32_wordsOf (h : Bytes m p bytes) {j : Nat}
    (hj : j < (wordsOf bytes).length) : be32 m (p + 4 * j) = (wordsOf bytes).getD j 0 := by
  induction bytes using wordsOf.induct generalizing p j with
  | case1 a b c d bytes ih =>
    obtain ⟨ha, hb, hc, hd, hrest⟩ := h
    rw [wordsOf] at hj ⊢
    cases j with
    | zero =>
      rw [getD_cons_zero, Nat.mul_zero, Nat.add_zero, be32, ha, hb, hc, hd]
    | succ j =>
      rw [getD_cons_succ, ← ih hrest (lt_of_succ_lt_succ hj)]
      congr 1
      omega
  | case2 bytes hshort =>
    rw [wordsOf_short hshort] at hj
    exact absurd hj (Nat.not_lt_zero j)

theorem number_lt (h : ∀ j, word j < 2 ^ 32) (k : Nat) : number k word < 2 ^ 64 := by
  have h0 := h 0
  have h1 := h 1
  rw [number]
  split <;> omega

theorem number_congr (hk : Supported k)
    (h : ∀ j < k, word j = word' j) : number k word = number k word' := by
  rw [number, number, h 0 hk.1]
  split
  · next h2 => rw [h 1 (by omega)]
  · rfl

theorem wordsOf_lt {w : Nat} (h : w ∈ wordsOf bytes) : w < 2 ^ 32 := by
  induction bytes using wordsOf.induct with
  | case1 a b c d bytes ih =>
    rw [wordsOf] at h
    rcases mem_cons.mp h with rfl | h
    · have ha := a.toNat_lt
      have hb := b.toNat_lt
      have hc := c.toNat_lt
      have hd := d.toNat_lt
      omega
    · exact ih h
  | case2 bytes hshort =>
    rw [wordsOf_short hshort] at h
    exact absurd h not_mem_nil

end Words

section Windows

variable {w : Window} {W : List Window}

/-- The sums in the test of a window, which are taken modulo `2 ^ 64`, tell something else than the
ends: one of the ends is below `2 ^ 64` and the other is not. -/
def Window.Misjudged (w : Window) (addr size : Nat) : Prop :=
  w.base ≤ addr ∧ (addr + size < 2 ^ 64 ∧ 2 ^ 64 ≤ w.base + w.size ∨
    2 ^ 64 ≤ addr + size ∧ addr + size - 2 ^ 64 ≤ w.base + w.size ∧ w.base + w.size < 2 ^ 64)

/-- No window is misjudged up to the one that holds the region, and that has an address for it. -/
def Judged (addr size : Nat) : List Window → Prop
  | [] => True
  | w :: W => ¬w.Misjudged addr size ∧
    if w.Holds addr size then addr - w.base + w.to_ < 2 ^ 64 else Judged addr size W

/-- Where the first node has no `ranges` there is NULL on the stack, and no window of it is
misjudged. -/
def Sound (stack : Option Nat) (size addr : Nat) : List NodeData → Prop
  | [] => True
  | [_] => True
  | d :: ds =>
    match d.words rangesStr with
    | none => stack = none
    | some ws =>
      let (pac, psc) := cellsOf ds
      let (ac, sc) := cellsOf (d :: ds)
      Supported pac ∧ Supported psc ∧ Supported ac ∧ Supported sc →
        Judged addr size (windows ac pac sc ws)

def countOf (ws : Option (List Nat)) : Int := ws.elim (-1) fun ws => ws.length

/-- The pair is there, or the product that may have overflowed tells that it is not. -/
def RegSound (idx : Int) : List NodeData → Prop
  | [] => True
  | [_] => True
  | d :: ds =>
    let (ac, sc) := cellsOf ds
    Supported ac ∧ Supported sc →
      0 ≤ idx ∧ (idx + 1) * (ac + sc : Nat) ≤ countOf (d.words regStr) ∨
        countOf (d.words regStr) < int32 ((idx + 1) * (ac + sc : Nat))

def Window.Wide (w : Window) : Prop := w.base < 2 ^ 64 ∧ w.to_ < 2 ^ 64 ∧ w.size < 2 ^ 64

def firstTaken (addr size : Nat) : Nat → List Window → Option (Nat × Nat)
  | _, [] => none
  | i, w :: W =>
    if addr < w.base ∨ (addr + size) % 2 ^ 64 > (w.base + w.size) % 2 ^ 64 then
      firstTaken addr size (i + 1) W
    else some (i, (addr - w.base + w.to_) % 2 ^ 64)

theorem taken_iff (hw : w.Wide) (haddr : addr < 2 ^ 64) (hsize : size < 2 ^ 64) :
    (¬(addr < w.base ∨ (addr + size) % 2 ^ 64 > (w.base + w.size) % 2 ^ 64) ↔
      w.Holds addr size) ↔ ¬w.Misjudged addr size := by
  obtain ⟨hbase, -, hwsize⟩ := hw
  rw [Window.Holds, Window.Misjudged]
  by_cases hle : w.base ≤ addr
  · rcases Nat.lt_or_ge (addr + size) (2 ^ 64) with hend | hend <;>
      rcases Nat.lt_or_ge (w.base + w.size) (2 ^ 64) with hwend | hwend
    · rw [mod_eq_of_lt hend, mod_eq_of_lt hwend]
      omega
    · rw [mod_eq_of_lt hend, mod_eq_sub_mod hwend, mod_eq_of_lt (by omega)]
      omega
    · rw [mod_eq_of_lt hwend, mod_eq_sub_mod hend, mod_eq_of_lt (by omega)]
      omega
    · rw [mod_eq_sub_mod hwend, mod_eq_sub_mod hend, mod_eq_of_lt (by omega),
        mod_eq_of_lt (by omega)]
      omega
  · omega

theorem firstTaken_lt (h : firstTaken addr size i W = some r) : r.2 < 2 ^ 64 := by
  induction W generalizing i with
  | nil => cases h
  | cons w W ih =>
    rw [firstTaken] at h
    split at h
    · exact ih h
    · cases h
      exact mod_lt _ (by decide)

theorem le_of_firstTaken (h : firstTaken addr size i W = some r) : i ≤ r.1 := by
  induction W generalizing i with
  | nil => cases h
  | cons w W ih =>
    rw [firstTaken] at h
    split at h
    · exact le_of_succ_le (ih h)
    · cases h
      exact Nat.le_refl i

theorem le_of_firstHolding {r : Nat × Window} (h : firstHolding addr size i W = some r) :
    i ≤ r.1 := by
  induction W generalizing i with
  | nil => cases h
  | cons w W ih =>
    rw [firstHolding] at h
    split at h
    · cases h
      exact Nat.le_refl i
    · exact le_of_succ_le (ih h)

theorem firstTaken_iff (hW : ∀ w ∈ W, w.Wide) (haddr : addr < 2 ^ 64) (hsize : size < 2 ^ 64) :
    firstTaken addr size i W =
        (firstHolding addr size i W).map (fun r => (r.1, addr - r.2.base + r.2.to_)) ↔
      Judged addr size W := by
  induction W generalizing i with
  | nil => exact ⟨fun _ => trivial, fun _ => rfl⟩
  | cons w W ih =>
    have hiff := taken_iff (hW w mem_cons_self) haddr hsize
    have ih := @ih (i + 1) fun w hw => hW w (mem_cons_of_mem _ hw)
    rw [firstTaken, firstHolding, Judged]
    by_cases hholds : w.Holds addr size
    · rw [if_pos hholds, if_pos hholds, map_some]
      by_cases htaken : addr < w.base ∨ (addr + size) % 2 ^ 64 > (w.base + w.size) % 2 ^ 64
      · rw [if_pos htaken]
        constructor
        · intro heq
          have hle := le_of_firstTaken heq
          exact absurd hle (not_succ_le_self i)
        · intro hjudged
          exact absurd htaken (hiff.mpr hjudged.1 |>.mpr hholds)
      · rw [if_neg htaken, and_iff_right (hiff.mp ⟨fun _ => hholds, fun _ => htaken⟩)]
        constructor
        · intro heq
          have hsecond := congrArg Prod.snd (some.inj heq)
          dsimp only at hsecond
          rw [← hsecond]
          exact mod_lt _ (by decide)
        · intro hlt
          rw [mod_eq_of_lt hlt]
    · rw [if_neg hholds, if_neg hholds]
      by_cases htaken : addr < w.base ∨ (addr + size) % 2 ^ 64 > (w.base + w.size) % 2 ^ 64
      · rw [if_pos htaken, ih, and_iff_right]
        exact hiff.mp ⟨fun hnot => absurd htaken hnot, fun h => absurd h hholds⟩
      · rw [if_neg htaken]
        constructor
        · intro heq
          obtain ⟨r, hr, hi⟩ := map_eq_some_iff.mp heq.symm
          have hle := le_of_firstHolding hr
          have hfirst := congrArg Prod.fst hi
          dsimp only at hfirst
          omega
        · intro hjudged
          exact absurd (hiff.mpr hjudged.1 |>.mp htaken) hholds

theorem rangesLoop_eq (k i range : Nat) :
    rangesLoop m ac pac sc addr size k i range = firstTaken addr size i
      ((List.range k).map fun j => windowAt ac pac sc fun x =>
        be32 m (range + 4 * ((pac + ac + sc) * j + x))) := by
  induction k generalizing i range with
  | zero => rfl
  | succ k ih =>
    rw [rangesLoop, List.range_succ_eq_map, List.map_cons, List.map_map, firstTaken, ih]
    have hplace : ∀ j x, range + 4 * (pac + ac + sc) + 4 * ((pac + ac + sc) * j + x) =
        range + 4 * ((pac + ac + sc) * (j + 1) + x) := fun j x => by
      rw [mul_succ]
      omega
    simp only [hplace, windowAt, Nat.mul_zero, Nat.zero_add, Function.comp_def, succ_eq_add_one]

theorem windowAt_congr (hac : Supported ac) (hpac : Supported pac)
    (hsc : Supported sc) (h : ∀ j < pac + ac + sc, word j = word' j) :
    windowAt ac pac sc word = windowAt ac pac sc word' := by
  rw [windowAt, windowAt, number_congr hac fun j hj => h j (by omega),
    number_congr hpac fun j hj => h (ac + j) (by omega),
    number_congr hsc fun j hj => h (ac + pac + j) (by omega)]

theorem rangesLoop_windows (hac : Supported ac) (hpac : Supported pac) (hsc : Supported sc)
    {range : Nat} (h : ∀ j < ws.length, be32 m (range + 4 * j) = ws.getD j 0) (i : Nat) :
    rangesLoop m ac pac sc addr size (ws.length / (pac + ac + sc)) i range =
      firstTaken addr size i (windows ac pac sc ws) := by
  rw [rangesLoop_eq, windows]
  refine congrArg (firstTaken addr size i) ?_
  refine map_congr_left fun j hj => windowAt_congr hac hpac hsc fun x hx => h _ ?_
  have hj := mem_range.mp hj
  have hle := div_mul_le_self ws.length (pac + ac + sc)
  have hmul := Nat.mul_le_mul_left (pac + ac + sc) hj
  rw [Nat.mul_comm] at hle
  rw [mul_succ] at hmul
  omega

theorem windows_nil (ac pac sc : Nat) : windows ac pac sc [] = [] := by
  rw [windows, length_nil, Nat.zero_div]
  rfl

theorem getD_lt (hws : ∀ w ∈ ws, w < 2 ^ 32) (j : Nat) : ws.getD j 0 < 2 ^ 32 := by
  rw [getD_eq_getElem?_getD]
  cases hj : ws[j]? with
  | none => decide
  | some x => exact hws x (mem_of_getElem? hj)

theorem windows_wide (hws : ∀ w ∈ ws, w < 2 ^ 32) : ∀ w ∈ windows ac pac sc ws, w.Wide := by
  intro w hw
  obtain ⟨i, -, rfl⟩ := mem_map.mp hw
  have hword := getD_lt hws
  rw [windowAt]
  exact ⟨number_lt (fun j => hword _) ac,
    number_lt (fun j => hword ((pac + ac + sc) * i + (ac + j))) pac,
    number_lt (fun j => hword ((pac + ac + sc) * i + (ac + pac + j))) sc⟩

end Windows

section Tree

inductive Line (f : Nodes) : List (Nat × NodeData) → Prop
  | root {a : Nat × NodeData} {cs : Nodes} (h : f = .node a cs .nil) : Line f [a]
  | child {a b : Nat × NodeData} {l : List (Nat × NodeData)} {bs cs rest : Nodes}
      (h : Line f (b :: l)) (hsub : (Forest.node b bs rest).Sub f) (ha : (a, cs) ∈ bs.tops) :
      Line f (a :: b :: l)

theorem Line.exists (hone : ∃ a cs, f = .node a cs .nil) (ha : a ∈ f.preorder) :
    ∃ l, Line f (a :: l) := by
  have hall : ∀ g : Nodes, g.Sub f → ∀ l, (∀ x ∈ g.tops, Line f (x.1 :: l)) →
      ∀ a ∈ g.preorder, ∃ l, Line f (a :: l) := by
    intro g
    induction g with
    | nil => exact fun _ _ _ a ha => absurd ha not_mem_nil
    | node b bs rest ihc ihr =>
      intro hsub l htops a ha
      have hb : Line f (b :: l) := htops (b, bs) mem_cons_self
      rw [Forest.preorder, cons_append] at ha
      rcases mem_cons.mp ha with rfl | ha
      · exact ⟨l, hb⟩
      · rcases mem_append.mp ha with ha | ha
        · exact ihc ((Forest.Sub.refl bs).children.trans hsub) (b :: l)
            (fun x hx => .child hb hsub hx) a ha
        · exact ihr ((Forest.Sub.refl rest).rest.trans hsub) l
            (fun x hx => htops x (mem_cons_of_mem _ hx)) a ha
  obtain ⟨b, cs, rfl⟩ := hone
  refine hall _ (.refl _) [] (fun x hx => ?_) a ha
  cases mem_singleton.mp hx
  exact .root rfl

theorem Line.mem (h : Line f (a :: l)) : a ∈ f.preorder := by
  cases h with
  | root h =>
    rw [h, Forest.preorder, cons_append]
    exact mem_cons_self
  | child _ hsub ha =>
    obtain ⟨_, hsub'⟩ := Forest.sub_of_tops ha
    exact (hsub'.children.trans hsub).mem

theorem Line.tail (h : Line f (a :: b :: l)) : Line f (b :: l) := by
  cases h with
  | child h => exact h

def roundOf (stack : Option Nat) (size addr : Nat) : List (Nat × NodeData) → Round
  | [] => .ret none
  | [_] => .ret none
  | a :: b :: l =>
    match a.2.words rangesStr with
    | none => if stack = none then .ret none else .call b.1 none addr
    | some [] => .call b.1 none addr
    | some ws =>
      let (pac, psc) := cellsOf ((b :: l).map Prod.snd)
      let (ac, sc) := cellsOf ((a :: b :: l).map Prod.snd)
      if Supported pac ∧ Supported psc ∧ Supported ac ∧ Supported sc then
        match firstTaken addr size 0 (windows ac pac sc ws) with
        | some (i, addr) => .call b.1 (some i) addr
        | none => .ret (some .ESRCH)
      else .ret (some .EINVAL)

theorem fdtGetCells_eq (n p : Nat) (t : Option Fdt) : fdtGetCells m t (n + 1) p =
    (fdtParentNode m t n p).bind fun parent =>
      (match parent with
        | none => some (1, 1)
        | some parent => fdtGetCells m t n parent).bind fun c =>
        (fdtNodePropertyInt m t n p addressCellsStr c.1).bind fun ac =>
          (fdtNodePropertyInt m t n p sizeCellsStr c.2).bind fun sc => some (ac, sc) := by
  rw [fdtGetCells]
  refine congrArg _ (funext fun parent => ?_)
  cases parent <;> rfl

variable (h : Blob m f) (hshort : ∀ a ∈ f.preorder, a.2.Short)

include h

theorem Line.parent (hline : Line f (a :: l)) :
    Returns (fun n => fdtParentNode m (some (initTree m)) n a.1) (l.head?.map Prod.fst) := by
  obtain ⟨p, q, -, hat, -⟩ := h.root
  obtain ⟨r, cs, rfl⟩ := h.one
  cases hline with
  | root heq =>
    cases heq
    exact (fdtParentNode_returns h a.1).congr_value (if_pos rfl)
  | child _ hsub ha =>
    obtain ⟨hne, hparent⟩ := Forest.parentIn_root hsub ha hat.nodup
    refine (fdtParentNode_returns h a.1).congr_value ?_
    rw [if_neg hne, hparent]
    rfl

def FoundWords (m : Mem) : Option (List Nat) → Int × Option Nat → Prop
  | none, r => r = (-1, none)
  | some ws, r => intLen r.1 = ws.length ∧ (∀ w ∈ ws, w < 2 ^ 32) ∧
      ∃ out, r.2 = some out ∧ ∀ j < ws.length, be32 m (out + 4 * j) = ws.getD j 0

include hshort

section

variable (hline : Line f (a :: l))

include hline

theorem fdtNodeProperty_words (name : Str) :
    ∃ r, Returns (fun n => fdtNodeProperty m (some (initTree m)) n a.1 name) r ∧
      FoundWords m (a.2.words name) r := by
  obtain ⟨p, q, -, hat, hclose, -⟩ := h.root
  obtain ⟨cs, rest, hnode⟩ := (hat.laid hclose).node_of_mem (p := a.1) (d := a.2) hline.mem
  obtain ⟨r, hr, hfound⟩ := fdtNodeProperty_returns (inited_initTree m) hnode name
  refine ⟨r, hr, ?_⟩
  rw [NodeData.words]
  cases hx : a.2.props.find? (name == ·.name) with
  | none =>
    rw [hx] at hfound
    exact hfound
  | some x =>
    rw [hx] at hfound
    obtain ⟨-, hlen, out, hout, hbytes⟩ := hfound
    have hlt := hshort a hline.mem x (mem_of_find?_eq_some hx)
    refine ⟨?_, fun w hw => wordsOf_lt hw, out, hout, fun j hj => be32_wordsOf hbytes hj⟩
    have hmod : ((x.value.length : Int) % 2 ^ 64).toNat = x.value.length := by omega
    rw [hlen, toInt_of_lt hlt, intLen, hmod, length_wordsOf, mod_eq_of_lt (by omega),
      toInt_of_lt (by omega)]

theorem fdtNodePropertyInt_returns (name : Str) (out : Nat) :
    Returns (fun n => fdtNodePropertyInt m (some (initTree m)) n a.1 name out)
      (((a.2.words name).bind head?).getD out) := by
  obtain ⟨r, hr, hfound⟩ := fdtNodeProperty_words h hshort hline name
  refine hr.bind (k := fun n r => if intLen r.1 ≤ 0 then some out else r.2.map (be32 m)) ?_
  cases hws : a.2.words name with
  | none =>
    rw [hws] at hfound
    cases (hfound : r = (-1, none))
    exact (Returns.some out).congr fun n => if_pos (by decide)
  | some ws =>
    rw [hws] at hfound
    obtain ⟨hlen, -, p, hp, hwords⟩ := hfound
    cases ws with
    | nil =>
      refine (Returns.some out).congr fun n => if_pos ?_
      rw [hlen]
      exact Int.le_refl 0
    | cons w ws =>
      have hw : be32 m p = w := hwords 0 (zero_lt_succ _)
      refine (Returns.some w).congr fun n => ?_
      rw [if_neg, hp, map_some, hw]
      rw [hlen, length_cons]
      omega

theorem fdtGetCells_returns : Returns (fun n => fdtGetCells m (some (initTree m)) n a.1)
      (cellsOf ((a :: l).map Prod.snd)) := by
  induction l generalizing a with
  | nil =>
    refine Returns.round ?_ fun n => fdtGetCells_eq n a.1 _
    exact (hline.parent h).bind ((Returns.some (1, 1)).bind
      ((fdtNodePropertyInt_returns h hshort hline _ _).bind
        ((fdtNodePropertyInt_returns h hshort hline _ _).bind (Returns.some _))))
  | cons b l ih =>
    refine Returns.round ?_ fun n => fdtGetCells_eq n a.1 _
    exact (hline.parent h).bind ((ih hline.tail).bind
      ((fdtNodePropertyInt_returns h hshort hline _ _).bind
        ((fdtNodePropertyInt_returns h hshort hline _ _).bind (Returns.some _))))

theorem translateRound_returns (stack : Option Nat) (size addr : Nat) :
    Returns (fun n => translateRound m (some (initTree m)) n stack a.1 addr size)
      (roundOf stack size addr (a :: l)) := by
  obtain ⟨N₁, hparent⟩ := hline.parent h
  cases l with
  | nil =>
    refine ⟨N₁, fun n hn => ?_⟩
    have hparent := hparent n hn
    dsimp only at hparent ⊢
    rw [translateRound, hparent]
    rfl
  | cons b l =>
    obtain ⟨⟨len, out⟩, ⟨N₂, hprop⟩, hfound⟩ := fdtNodeProperty_words h hshort hline rangesStr
    obtain ⟨N₃, hpcells⟩ := fdtGetCells_returns h hshort hline.tail
    obtain ⟨N₄, hcells⟩ := fdtGetCells_returns h hshort hline
    refine ⟨N₁ + N₂ + N₃ + N₄, fun n hn => ?_⟩
    have hparent := hparent n (by omega)
    have hprop := hprop n (by omega)
    have hpcells := hpcells n (by omega)
    have hcells := hcells n (by omega)
    dsimp only [head?_cons, map_some] at hparent hprop hpcells hcells ⊢
    rw [translateRound, hparent]
    simp only [bind_eq_bind, bind_some, hprop, roundOf]
    cases hws : a.2.words rangesStr with
    | none =>
      rw [hws] at hfound
      cases (hfound : (len, out) = (-1, none))
      cases stack <;> rfl
    | some ws =>
      rw [hws] at hfound
      obtain ⟨hlen, hwide, range, hrange, hwords⟩ := hfound
      cases (hrange : out = some range)
      dsimp only at hlen
      rw [hlen]
      cases ws with
      | nil => rfl
      | cons w ws =>
        have hpos : ¬((w :: ws).length : Int) ≤ 0 := by
          rw [length_cons]
          omega
        simp only [some_or, if_neg hpos, hpcells, hcells, bind_some]
        generalize cellsOf ((b :: l).map Prod.snd) = pc
        generalize cellsOf ((a :: b :: l).map Prod.snd) = c
        obtain ⟨pac, psc⟩ := pc
        obtain ⟨ac, sc⟩ := c
        by_cases hp : Supported pac ∧ Supported psc
        · by_cases hc : Supported ac ∧ Supported sc
          · have hall : Supported pac ∧ Supported psc ∧ Supported ac ∧ Supported sc :=
              ⟨hp.1, hp.2, hc⟩
            rw [if_neg (not_not.mpr hp), if_neg (not_not.mpr hc), if_pos hall,
              ← rangesLoop_windows hc.1 hp.1 hc.2 hwords]
            by_cases hshort : ((w :: ws).length : Int) < (pac + ac + sc : Nat)
            · rw [if_pos hshort, div_eq_of_lt (Int.ofNat_lt.mp hshort)]
              rfl
            · rw [if_neg hshort, Int.toNat_natCast]
              cases rangesLoop m ac pac sc addr size ((w :: ws).length / (pac + ac + sc)) 0 range
                <;> rfl
          · dsimp only
            rw [if_neg (not_not.mpr hp), if_pos hc, if_neg fun hall => hc hall.2.2]
        · dsimp only
          rw [if_pos hp, if_neg fun hall => hp ⟨hall.1, hall.2.1⟩]

end

end Tree

section Decisions

theorem toInt_lt (x : Nat) (h : x < 2 ^ 32) : toInt x < 2 ^ 31 := by
  rw [toInt]
  split <;> omega

theorem FoundWords.count {ws : Option (List Nat)} {len : Int} {out : Option Nat}
    (h : FoundWords m ws (len, out)) : intLen len = countOf ws ∧ countOf ws < 2 ^ 31 := by
  cases ws with
  | none =>
    cases (h : (len, out) = (-1, none))
    decide
  | some ws =>
    have hlen : intLen len = countOf (some ws) := h.1
    refine ⟨hlen, ?_⟩
    rw [← hlen]
    exact toInt_lt _ (mod_lt _ (by decide))

theorem int32_of_lt {x : Int} (h : 0 ≤ x) (hlt : x < 2 ^ 31) : int32 x = x := by
  rw [int32, Int.emod_eq_of_lt h (by omega), toInt_of_lt (by omega)]
  exact Int.toNat_of_nonneg h

theorem NodeData.words_lt {name : Str} (h : d.words name = some ws) : ∀ w ∈ ws, w < 2 ^ 32 := by
  obtain ⟨x, -, rfl⟩ := map_eq_some_iff.mp h
  exact fun w hw => wordsOf_lt hw

theorem roundOf_call (h : roundOf stack size addr (a :: l) = .call p entry addr') :
    ∃ b l', l = b :: l' ∧ p = b.1 ∧ (addr < 2 ^ 64 → addr' < 2 ^ 64) := by
  cases l with
  | nil => cases h
  | cons b l =>
    refine ⟨b, l, rfl, ?_⟩
    rw [roundOf] at h
    split at h
    · split at h
      · cases h
      · cases h
        exact ⟨rfl, id⟩
    · cases h
      exact ⟨rfl, id⟩
    · dsimp only at h
      split at h
      · split at h
        · next htaken =>
          cases h
          exact ⟨rfl, fun _ => firstTaken_lt htaken⟩
        · cases h
      · cases h

theorem roundOf_sound (haddr : addr < 2 ^ 64) (hsize : size < 2 ^ 64) :
    (roundOf stack size addr l).decision = decision size addr (l.map Prod.snd) ↔
      Sound stack size addr (l.map Prod.snd) := by
  match l with
  | [] => exact ⟨fun _ => trivial, fun _ => rfl⟩
  | [_] => exact ⟨fun _ => trivial, fun _ => rfl⟩
  | a :: b :: l =>
    simp only [map_cons, roundOf, decision, Sound]
    cases hws : a.2.words rangesStr with
    | none =>
      cases stack with
      | none => exact ⟨fun _ => rfl, fun _ => rfl⟩
      | some p => exact ⟨fun h => (by cases h), fun h => (by cases h)⟩
    | some ws =>
      cases ws with
      | nil =>
        refine iff_of_true rfl fun _ => ?_
        rw [windows_nil]
        trivial
      | cons w ws =>
        generalize cellsOf (b.2 :: l.map Prod.snd) = pc
        generalize cellsOf (a.2 :: b.2 :: l.map Prod.snd) = c
        obtain ⟨pac, psc⟩ := pc
        obtain ⟨ac, sc⟩ := c
        dsimp only
        by_cases hall : Supported pac ∧ Supported psc ∧ Supported ac ∧ Supported sc
        · rw [if_pos hall, if_pos hall, ← firstTaken_iff
            (windows_wide (NodeData.words_lt hws)) haddr hsize (i := 0), imp_iff_right hall]
          cases firstTaken addr size 0 (windows ac pac sc (w :: ws)) <;>
            cases firstHolding addr size 0 (windows ac pac sc (w :: ws)) <;>
              simp [Round.decision, Prod.ext_iff]
        · rw [if_neg hall, if_neg hall]
          exact iff_of_true rfl fun h => absurd h hall

theorem fdtTranslateReg_eq (n : Nat) (t : Option Fdt) (stack : Nat → Option Nat)
    (size p addr : Nat) : fdtTranslateReg m t stack size (n + 1) p addr =
      (translateRound m t n (stack p) p addr size).bind fun r => match r with
        | .ret e => some (e, addr)
        | .call parent _ addr => fdtTranslateReg m t stack size n parent addr := by
  rw [fdtTranslateReg]
  refine congrArg _ (funext fun r => ?_)
  cases r <;> rfl

theorem fdtTranslateReg_ret {stack : Nat → Option Nat} {e : Option Errno}
    (h : Returns (fun n => translateRound m t n (stack p) p addr size) (.ret e)) :
    Returns (fun n => fdtTranslateReg m t stack size n p addr) (e, addr) :=
  (h.bind (Returns.some (e, addr))).round fun n => fdtTranslateReg_eq n t stack size p addr

theorem fdtTranslateReg_call {stack : Nat → Option Nat}
    {q : Nat} {r : Option Errno × Nat}
    (h : Returns (fun n => translateRound m t n (stack p) p addr size) (.call q entry addr'))
    (hr : Returns (fun n => fdtTranslateReg m t stack size n q addr') r) :
    Returns (fun n => fdtTranslateReg m t stack size n p addr) r :=
  (h.bind hr).round fun n => fdtTranslateReg_eq n t stack size p addr

variable {idx : Int} (hlt : countOf (some ws) < 2 ^ 31) (hidx : 0 ≤ idx)
  (hle : (idx + 1) * (k : Nat) ≤ countOf (some ws))

include hlt hidx hle

theorem not_overflow : ¬countOf (some ws) < int32 ((idx + 1) * (k : Nat)) := by
  have hnonneg := Int.mul_nonneg (Int.add_nonneg hidx Int.one_nonneg) (Int.natCast_nonneg k)
  rw [int32_of_lt hnonneg (Int.lt_of_le_of_lt hle hlt)]
  exact Int.not_lt.mpr hle

theorem word_pair (hwords : ∀ j < ws.length, be32 m (p + 4 * j) = ws.getD j 0) (j : Nat)
    (hj : j < k) : be32 m (inPlace p (idx * (k : Nat) + j)) = ws.getD (idx.toNat * k + j) 0 := by
  obtain ⟨i, rfl⟩ := Int.eq_ofNat_of_zero_le hidx
  have hcount : countOf (some ws) = (ws.length : Nat) := rfl
  rw [hcount] at hle hlt
  have hle : (i + 1) * k ≤ ws.length := by exact_mod_cast hle
  rw [succ_mul] at hle
  have hplace : inPlace p ((i : Int) * (k : Nat) + j) = p + 4 * (i * k + j) := by
    have hcast : (i : Int) * (k : Nat) + j = (i * k + j : Nat) := by push_cast; rfl
    rw [inPlace, hcast, int32_of_lt (Int.natCast_nonneg _) (by omega)]
    omega
  rw [hplace, Int.toNat_natCast]
  exact hwords _ (by omega)

omit hlt hidx hle

theorem nthReg_lt (h : nthReg idx ds = some reg) :
    reg.addr < 2 ^ 64 ∧ reg.size < 2 ^ 64 := by
  match ds with
  | [] => cases h
  | [_] => cases h
  | d :: d' :: ds =>
    simp only [nthReg] at h
    split at h
    · obtain ⟨ws, hws, h⟩ := bind_eq_some_iff.mp h
      split at h
      · cases h
        have hword := getD_lt (NodeData.words_lt hws)
        dsimp only
        exact ⟨number_lt (fun j => hword _) _, number_lt (fun j => hword _) _⟩
      · cases h
    · cases h

variable {stack : Nat → Option Nat} (h : Blob m f) (hshort : ∀ a ∈ f.preorder, a.2.Short)

include h hshort

theorem decides_iff (hline : Line f (a :: l)) (haddr : addr < 2 ^ 64) (hsize : size < 2 ^ 64) :
    Decides m stack size addr a l ↔ Sound (stack a.1) size addr ((a :: l).map Prod.snd) := by
  have hround := translateRound_returns h hshort hline (stack a.1) size addr
  rw [← roundOf_sound haddr hsize]
  constructor
  · rintro ⟨r, hr, hdecision⟩
    rw [← hr.unique hround]
    exact hdecision
  · exact fun hdecision => ⟨_, hround, hdecision⟩

theorem Decides.lt (hdecides : Decides m stack size addr a l)
    (hline : Line f (a :: l)) (haddr : addr < 2 ^ 64)
    (hup : decision size addr ((a :: l).map Prod.snd) = .up entry addr') : addr' < 2 ^ 64 := by
  obtain ⟨r, hr, hdecision⟩ := hdecides
  have heq := hr.unique (translateRound_returns h hshort hline (stack a.1) size addr)
  rw [hup] at hdecision
  cases r with
  | ret e => cases e <;> cases hdecision
  | call p entry addr' =>
    cases hdecision
    obtain ⟨b, l', -, -, hlt⟩ := roundOf_call heq.symm
    exact hlt haddr

theorem along_decides_iff (hline : Line f (a :: l)) (haddr : addr < 2 ^ 64)
    (hsize : size < 2 ^ 64) : Along size (Decides m stack size) addr (a :: l) ↔
      Along size (fun addr a l => Sound (stack a.1) size addr ((a :: l).map Prod.snd)) addr
        (a :: l) := by
  induction l generalizing a addr with
  | nil => exact and_congr (decides_iff h hshort hline haddr hsize) Iff.rfl
  | cons b l ih =>
    rw [Along, Along, ← decides_iff h hshort hline haddr hsize]
    refine and_congr_right fun hdecides => ?_
    refine forall_congr' fun entry => forall_congr' fun addr' => forall_congr' fun hup => ?_
    exact ih hline.tail (hdecides.lt h hshort hline haddr hup)

theorem fdtTranslateReg_tells (hline : Line f (a :: l))
    (halong : Along size (Decides m stack size) addr (a :: l)) :
    ∃ r, Returns (fun n => fdtTranslateReg m (some (initTree m)) stack size n a.1 addr) r ∧
      Tells (compose size addr ((a :: l).map Prod.snd)) r := by
  induction l generalizing a addr with
  | nil =>
    obtain ⟨⟨round, hround, hdecision⟩, -⟩ := halong
    cases hround.unique (translateRound_returns h hshort hline (stack a.1) size addr)
    exact ⟨(none, addr), fdtTranslateReg_ret hround, rfl⟩
  | cons b l ih =>
    obtain ⟨⟨round, hround, hdecision⟩, hup⟩ := halong
    rw [map_cons, compose, ← map_cons (f := Prod.snd), ← hdecision]
    cases round with
    | ret e =>
      refine ⟨(e, addr), fdtTranslateReg_ret hround, ?_⟩
      cases e with
      | none => rfl
      | some e => exact some_ne_none e
    | call p entry addr' =>
      have hcall := hround.unique (translateRound_returns h hshort hline (stack a.1) size addr)
      obtain ⟨b', l', hl, rfl, -⟩ := roundOf_call hcall.symm
      cases hl
      obtain ⟨r, hr, htells⟩ := ih hline.tail (hup entry addr' hdecision.symm)
      exact ⟨r, fdtTranslateReg_call hround hr, htells⟩

theorem readReg_eq (hline : Line f (a :: b :: l)) (stack : Option Nat) (idx : Int)
    (hcells : cellsOf ((b :: l).map Prod.snd) = (ac, sc)) :
    ∃ len out, FoundWords m (a.2.words regStr) (len, out) ∧ ∃ N, ∀ n ≥ N,
      readReg m (some (initTree m)) n stack a.1 idx =
        if ¬(Supported ac ∧ Supported sc) then some (.error .EINVAL)
        else if intLen len < int32 ((idx + 1) * (ac + sc : Nat)) then some (.error .EINVAL)
        else (out.or stack).map fun in_ =>
          let word := fun j : Nat => be32 m (inPlace in_ (idx * (ac + sc : Nat) + j))
          .ok (b.1, ⟨number ac word, number sc fun j => word (ac + j)⟩) := by
  obtain ⟨N₁, hparent⟩ := hline.parent h
  obtain ⟨⟨len, out⟩, ⟨N₂, hprop⟩, hfound⟩ := fdtNodeProperty_words h hshort hline regStr
  obtain ⟨N₃, hpcells⟩ := fdtGetCells_returns h hshort hline.tail
  refine ⟨len, out, hfound, N₁ + N₂ + N₃, fun n hn => ?_⟩
  have hparent := hparent n (by omega)
  have hprop := hprop n (by omega)
  have hpcells := hpcells n (by omega)
  dsimp only [head?_cons, map_some] at hparent hprop hpcells
  rw [readReg, hparent]
  rw [hcells] at hpcells
  simp only [bind_eq_bind, bind_some, hprop, hpcells]
  cases out.or stack <;> rfl

theorem reads_iff (hline : Line f (a :: l)) (stack : Option Nat) (idx : Int) :
    Reads m stack idx a l ↔ RegSound idx ((a :: l).map Prod.snd) := by
  cases l with
  | nil =>
    refine iff_of_true ?_ trivial
    obtain ⟨N, hparent⟩ := hline.parent h
    refine ⟨.error .EINVAL, ⟨N, fun n hn => ?_⟩, rfl⟩
    have hparent := hparent n hn
    dsimp only at hparent ⊢
    rw [readReg, hparent]
    rfl
  | cons b l =>
    obtain ⟨⟨ac, sc⟩, hcells⟩ : ∃ c, cellsOf ((b :: l).map Prod.snd) = c := ⟨_, rfl⟩
    obtain ⟨len, out, hfound, N, heq⟩ := readReg_eq h hshort hline stack idx hcells
    obtain ⟨hcount, hlt⟩ := hfound.count
    simp only [Reads, RegSound, nthReg, map_cons] at hcells ⊢
    rw [hcells]
    by_cases hk : Supported ac ∧ Supported sc
    · rw [if_pos hk, imp_iff_right hk]
      by_cases hpair : 0 ≤ idx ∧ (idx + 1) * (ac + sc : Nat) ≤ countOf (a.2.words regStr)
      · refine iff_of_true ?_ (.inl hpair)
        cases hws : a.2.words regStr with
        | none =>
          rw [hws] at hpair
          obtain ⟨hidx, hle⟩ := hpair
          have hpos := Int.mul_nonneg (Int.add_nonneg hidx Int.one_nonneg)
            (Int.natCast_nonneg (ac + sc))
          exact absurd (Int.le_trans hpos hle) (by decide)
        | some ws =>
          rw [hws] at hfound hpair hcount hlt
          obtain ⟨-, -, p, hp, hwords⟩ := hfound
          cases (hp : out = some p)
          have hword := word_pair hlt hpair.1 hpair.2 hwords
          have hread : ∀ n ≥ N, readReg m (some (initTree m)) n stack a.1 idx =
              some (.ok (b.1, ⟨number ac fun j => ws.getD (idx.toNat * (ac + sc) + j) 0,
                number sc fun j => ws.getD (idx.toNat * (ac + sc) + (ac + j)) 0⟩)) := fun n hn => by
            rw [← number_congr hk.1 fun j hj => hword j (by omega),
              ← number_congr hk.2 fun j hj => hword (ac + j) (by omega), heq n hn,
              if_neg (not_not.mpr hk), hcount, if_neg (not_overflow hlt hpair.1 hpair.2)]
            rfl
          refine ⟨_, ⟨N, hread⟩, ?_⟩
          rw [bind_some]
          exact (if_pos hpair).symm
      · rw [or_iff_right hpair]
        have hnone : ((a.2.words regStr).bind fun ws =>
            if 0 ≤ idx ∧ (idx + 1) * (ac + sc : Nat) ≤ ws.length then
              let word := fun j => ws.getD (idx.toNat * (ac + sc) + j) 0
              some (Reg.mk (number ac word) (number sc fun j => word (ac + j)))
            else none) = none := by
          cases hws : a.2.words regStr with
          | none => rfl
          | some ws =>
            rw [hws] at hpair
            exact if_neg hpair
        rw [hnone]
        constructor
        · rintro ⟨r, ⟨M, hr⟩, hnone⟩
          by_contra htest
          have hr := (heq (max N M) (Nat.le_max_left N M)).symm.trans
            (hr _ (Nat.le_max_right N M))
          rw [if_neg (not_not.mpr hk), hcount, if_neg htest] at hr
          obtain ⟨p, -, rfl⟩ := map_eq_some_iff.mp hr
          cases hnone
        · intro htest
          refine ⟨.error .EINVAL, ⟨N, fun n hn => (heq n hn).trans ?_⟩, rfl⟩
          rw [if_neg (not_not.mpr hk), hcount, if_pos htest]
    · refine iff_of_true ?_ fun h => absurd h hk
      rw [if_neg hk]
      exact ⟨.error .EINVAL, ⟨N, fun n hn => (heq n hn).trans (if_pos hk)⟩, rfl⟩

theorem Reads.parent {stack : Option Nat}
    (hreads : Reads m stack idx a l) (hline : Line f (a :: l))
    (hnth : nthReg idx ((a :: l).map Prod.snd) = some reg) : ∃ b l', l = b :: l' ∧
      Returns (fun n => readReg m (some (initTree m)) n stack a.1 idx) (.ok (b.1, reg)) := by
  cases l with
  | nil => cases hnth
  | cons b l =>
    obtain ⟨r, hr, hreg⟩ := hreads
    rw [hnth] at hreg
    obtain ⟨len, out, -, N, heq⟩ := readReg_eq h hshort hline stack idx rfl
    obtain ⟨M, hM⟩ := hr
    have hval := (heq (max N M) (Nat.le_max_left N M)).symm.trans
      (hM _ (Nat.le_max_right N M))
    refine ⟨b, l, rfl, Returns.congr_value ⟨M, hM⟩ ?_⟩
    cases r with
    | error e => cases hreg
    | ok r =>
      obtain ⟨p, reg'⟩ := r
      cases hreg
      split at hval
      · cases hval
      · split at hval
        · cases hval
        · obtain ⟨in_, -, hval⟩ := map_eq_some_iff.mp hval
          cases hval
          rfl

theorem fdtGetReg_returns (hline : Line f (a :: l))
    (hreads : Reads m (stack a.1) idx a l)
    (halong : ∀ r, nthReg idx ((a :: l).map Prod.snd) = some r →
      Along r.size (Decides m stack r.size) r.addr l) :
    ∃ e reg', Returns (fun n => fdtGetReg m (some (initTree m)) stack n (some a.1) idx
        (some reg)) (e, some reg') ∧ (e = none ↔ (regOf idx ((a :: l).map Prod.snd)).isSome) ∧
      ∀ r, regOf idx ((a :: l).map Prod.snd) = some r → reg' = r := by
  cases hnth : nthReg idx ((a :: l).map Prod.snd) with
  | none =>
    obtain ⟨r, hr, hreg⟩ := hreads
    rw [hnth] at hreg
    cases r with
    | ok r => cases hreg
    | error e =>
      refine ⟨some e, reg, hr.bind (Returns.some (some e, some reg)), ?_⟩
      rw [regOf, hnth]
      exact ⟨⟨fun h => (by cases h), fun h => (by cases h)⟩, fun r h => (by cases h)⟩
  | some r =>
    obtain ⟨b, l, rfl, hr⟩ := hreads.parent h hshort hline hnth
    obtain ⟨⟨e, addr⟩, htranslate, htells⟩ :=
      fdtTranslateReg_tells h hshort hline.tail (halong r hnth)
    refine ⟨e, { r with addr }, hr.bind (htranslate.bind (Returns.some _)), ?_⟩
    rw [regOf, hnth, bind_some, map_cons, tail_cons]
    cases hcompose : compose r.size r.addr ((b :: l).map Prod.snd) with
    | none =>
      rw [hcompose] at htells
      exact ⟨⟨fun h => absurd h htells, fun h => (by cases h)⟩, fun r h => (by cases h)⟩
    | some x =>
      rw [hcompose] at htells
      cases (htells : (e, addr) = (none, x))
      exact ⟨⟨fun _ => rfl, fun _ => rfl⟩, fun r h => some.inj h⟩

omit h hshort

/-- `fdt_get_reg` reads the pair of a node and each ancestor in turn decides on its address, which
leaves what the tree defines. -/
def GetsReg (m : Mem) (stack : Nat → Option Nat) (idx : Int) (a : Nat × NodeData)
    (l : List (Nat × NodeData)) : Prop :=
  (∀ reg, ∃ e reg', Returns (fun n => fdtGetReg m (some (initTree m)) stack n (some a.1) idx
      (some reg)) (e, some reg') ∧
    (e = none ↔ (regOf idx ((a :: l).map Prod.snd)).isSome) ∧
    ∀ r, regOf idx ((a :: l).map Prod.snd) = some r → reg' = r) ∧
  Reads m (stack a.1) idx a l ∧
  ∀ r, nthReg idx ((a :: l).map Prod.snd) = some r →
    Along r.size (Decides m stack r.size) r.addr l

/-- `fdt_get_reg` follows the tree exactly where the index is sound, and so is each ancestor that
the address comes to. -/
theorem fdtGetReg_composes {f : Nodes} (h : Blob m f) (hshort : ∀ a ∈ f.preorder, a.2.Short)
    {a : Nat × NodeData} (ha : a ∈ f.preorder) :
    Returns (fdtInit m) (fhVersion m, some (initTree m)) ∧ ∃ l, Line f (a :: l) ∧
      ∀ stack idx, GetsReg m stack idx a l ↔ RegSound idx ((a :: l).map Prod.snd) ∧
        ∀ r, nthReg idx ((a :: l).map Prod.snd) = some r →
          Along r.size (fun addr b l => Sound (stack b.1) r.size addr ((b :: l).map Prod.snd))
            r.addr l := by
  obtain ⟨l, hline⟩ := Line.exists h.one ha
  refine ⟨fdtInit_returns h, l, hline, fun stack idx => ?_⟩
  have hiff : (∀ r, nthReg idx ((a :: l).map Prod.snd) = some r →
      Along r.size (Decides m stack r.size) r.addr l) ↔
      ∀ r, nthReg idx ((a :: l).map Prod.snd) = some r →
        Along r.size (fun addr b l => Sound (stack b.1) r.size addr ((b :: l).map Prod.snd))
          r.addr l := by
    refine forall_congr' fun r => forall_congr' fun hnth => ?_
    cases l with
    | nil => exact Iff.rfl
    | cons b l =>
      obtain ⟨haddr, hsize⟩ := nthReg_lt hnth
      exact along_decides_iff h hshort hline.tail haddr hsize
  rw [← reads_iff h hshort hline, ← hiff]
  constructor
  · exact fun hgets => hgets.2
  · exact fun hright => ⟨fun reg => fdtGetReg_returns h hshort hline hright.1 hright.2, hright⟩

end Decisions

section Examples

/-- A root with 2 address cells, a bus with one window that ends at `2 ^ 64`, a device `x` with a
register in it, and a device `d` below that one. -/
def busBlob : Mem := fun p =>
  ([0xd0, 0x0d, 0xfe, 0xed] ++ [0, 0, 0, 232] ++ [0, 0, 0, 84] ++ [0, 0, 0, 56] ++ [0, 0, 0, 40] ++
    [0, 0, 0, 17] ++ [0, 0, 0, 16] ++ [0, 0, 0, 0] ++ [0, 0, 0, 26] ++ [0, 0, 0, 148] ++
    List.replicate 16 0 ++ addressCellsStr ++ [0] ++ rangesStr ++ [0] ++ regStr ++ [0, 0, 0] ++
    [0, 0, 0, 1] ++ [0, 0, 0, 0] ++
    [0, 0, 0, 3] ++ [0, 0, 0, 4] ++ [0, 0, 0, 0] ++ [0, 0, 0, 2] ++
    [0, 0, 0, 1] ++ [98, 0, 0, 0] ++
    [0, 0, 0, 3] ++ [0, 0, 0, 20] ++ [0, 0, 0, 15] ++ [255, 255, 255, 255] ++ [255, 255, 0, 0] ++
      [0, 0, 0, 0] ++ [16, 0, 0, 0] ++ [0, 1, 0, 0] ++
    [0, 0, 0, 1] ++ [120, 0, 0, 0] ++
    [0, 0, 0, 3] ++ [0, 0, 0, 12] ++ [0, 0, 0, 22] ++ [255, 255, 255, 255] ++ [255, 255, 0, 0] ++
      [0, 0, 16, 0] ++
    [0, 0, 0, 1] ++ [100, 0, 0, 0] ++
    [0, 0, 0, 3] ++ [0, 0, 0, 12] ++ [0, 0, 0, 22] ++ [0, 0, 0, 0] ++ [0, 0, 0, 0] ++
      [0, 0, 0, 4] ++
    [0, 0, 0, 2] ++ [0, 0, 0, 2] ++ [0, 0, 0, 2] ++ [0, 0, 0, 2] ++ [0, 0, 0, 9]).getD p 0

def busRoot : NodeData := ⟨[], [⟨addressCellsStr, [0, 0, 0, 2]⟩]⟩

def busNode : NodeData :=
  ⟨[98], [⟨rangesStr, [255, 255, 255, 255, 255, 255, 0, 0, 0, 0, 0, 0, 16, 0, 0, 0, 0, 1, 0, 0]⟩]⟩

def busX : NodeData := ⟨[120], [⟨regStr, [255, 255, 255, 255, 255, 255, 0, 0, 0, 0, 16, 0]⟩]⟩

def busD : NodeData := ⟨[100], [⟨regStr, [0, 0, 0, 0, 0, 0, 0, 0, 0, 0, 0, 4]⟩]⟩

def busTree : Nodes :=
  .node (84, busRoot) (.node (108, busNode) (.node (148, busX) (.node (180, busD) .nil .nil) .nil)
    .nil) .nil

theorem busBlob_blob : Blob busBlob busTree where
  magic := by decide
  version := by decide
  aligned := by decide
  one := ⟨_, _, rfl⟩
  nodes := by
    have hone : ∀ {p : Nat} {x : Property}, be32 busBlob p = fdtProperty ∧
        be32 busBlob (p + 4) = x.value.length ∧ be32 busBlob (p + 8) + x.name.length < 26 ∧
        CStr busBlob (56 + be32 busBlob (p + 8)) x.name ∧ Bytes busBlob (p + 12) x.value →
        PropsAt busBlob p [x] (p + 12 + roundup x.value.length) :=
      fun ⟨htok, hlen, hid, hname, hvalue⟩ =>
        .cons htok hlen hid hname hvalue (.refl _) (.nil _)
    have hd : NodesAt busBlob 180 (.node (180, busD) .nil .nil) 216 :=
      .node (by decide) (by decide) (.refl _) (hone (by decide)) (.nil _) (by decide) (.refl _)
        (.nil _)
    have hx : NodesAt busBlob 148 (.node (148, busX) (.node (180, busD) .nil .nil) .nil) 220 :=
      .node (by decide) (by decide) (.refl _) (hone (by decide)) hd (by decide) (.refl _) (.nil _)
    have hbus : NodesAt busBlob 108
        (.node (108, busNode) (.node (148, busX) (.node (180, busD) .nil .nil) .nil) .nil) 224 :=
      .node (by decide) (by decide) (.refl _) (hone (by decide)) hx (by decide) (.refl _) (.nil _)
    exact ⟨84, 228, .refl _, .node (by decide) (by decide) (.refl _) (hone (by decide)) hbus
      (by decide) (.refl _) (.nil _), by decide, fun _ => by decide⟩

theorem busTree_short : ∀ a ∈ busTree.preorder, a.2.Short := by
  have hall : ∀ a ∈ busTree.preorder, ∀ x ∈ a.2.props, x.value.length < 2 ^ 31 := by decide
  exact hall

theorem busX_line : Line busTree [(148, busX), (108, busNode), (84, busRoot)] :=
  .child (.child (.root rfl) (.refl _) mem_cons_self) (.children (.refl _))
    mem_cons_self

theorem busD_line : Line busTree [(180, busD), (148, busX), (108, busNode), (84, busRoot)] :=
  .child busX_line (.children (.children (.refl _))) mem_cons_self

theorem fdtGetReg_composes_bus :
    Returns (fdtInit busBlob) (fhVersion busBlob, some (initTree busBlob)) ∧
      ∃ l, Line busTree ((148, busX) :: l) ∧ ∀ stack idx, GetsReg busBlob stack idx (148, busX) l ↔
        RegSound idx (((148, busX) :: l).map Prod.snd) ∧
          ∀ r, nthReg idx (((148, busX) :: l).map Prod.snd) = some r →
            Along r.size (fun addr b l => Sound (stack b.1) r.size addr ((b :: l).map Prod.snd))
              r.addr l :=
  fdtGetReg_composes busBlob_blob busTree_short (by decide)

/-- A window that ends at `2 ^ 64` does not hold its own registers, and without `ranges` what is on
the stack sends the translation on to the bus. -/
theorem fdtGetReg_strays : Blob busBlob busTree ∧
    Returns (fdtInit busBlob) (17, some (initTree busBlob)) ∧
    (regOf 0 [busX, busNode, busRoot] = some ⟨0x10000000, 0x1000⟩ ∧ ∀ stack reg, Returns (fun n =>
        fdtGetReg busBlob (some (initTree busBlob)) stack n (some 148) 0 (some reg))
        (some .ESRCH, some ⟨0xffffffffffff0000, 0x1000⟩)) ∧
    regOf 0 [busD, busX, busNode, busRoot] = some ⟨0, 4⟩ ∧ ∀ stack reg, stack 148 ≠ none →
        Returns (fun n => fdtGetReg busBlob (some (initTree busBlob)) stack n (some 180) 0
          (some reg)) (some .ESRCH, some ⟨0, 4⟩) := by
  have hblob := busBlob_blob
  have hshort := busTree_short
  have hbus := fun stack => translateRound_returns hblob hshort busX_line.tail stack
  refine ⟨hblob, fdtInit_returns hblob, ⟨by decide, fun stack reg => ?_⟩, by decide,
    fun stack reg hstack => ?_⟩
  · have hreads := (reads_iff hblob hshort busX_line (stack 148) 0).mpr fun _ => .inl (by decide)
    have hnth : nthReg 0 [busX, busNode, busRoot] = some ⟨0xffffffffffff0000, 0x1000⟩ := by decide
    obtain ⟨b, l, hl, hr⟩ := hreads.parent hblob hshort busX_line hnth
    cases hl
    have hround := (hbus (stack 108) 0x1000 0xffffffffffff0000).congr_value
      (rfl : _ = Round.ret (some .ESRCH))
    exact hr.bind ((fdtTranslateReg_ret hround).bind (Returns.some _))
  · have hreads := (reads_iff hblob hshort busD_line (stack 180) 0).mpr fun _ => .inl (by decide)
    have hnth : nthReg 0 [busD, busX, busNode, busRoot] = some ⟨0, 4⟩ := by decide
    obtain ⟨b, l, hl, hr⟩ := hreads.parent hblob hshort busD_line hnth
    cases hl
    have hround := (hbus (stack 108) 4 0).congr_value (rfl : _ = Round.ret (some .ESRCH))
    have hcall := (translateRound_returns hblob hshort busX_line (stack 148) 4 0).congr_value
      (if_neg hstack : _ = Round.call 108 none 0)
    exact hr.bind ((fdtTranslateReg_call hcall (fdtTranslateReg_ret hround)).bind
      (Returns.some _))

end Examples

end Mbsd.Dev.Ofw
