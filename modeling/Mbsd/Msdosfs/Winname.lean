import Mbsd.Lib.Ring

/-! The long names of `msdosfs_conv.c`: names are lists of bytes, and an entry has its characters in
three fields, each of them two bytes wide. -/

namespace Mbsd.Msdosfs.Winname

open Lib.RingSlice List Function Nat

def winMaxlen : Nat := 255

def winChars : Nat := 13

def winLast : Nat := 0x40

def winCnt : Nat := 0x3f

def howmany (x y : Nat) : Nat := (x + (y - 1)) / y

/-- The table `u2l`, where `/` and the upper case letters are not mapped to themselves. -/
def u2l (c : UInt8) : UInt8 :=
  if c = 0x2f then 0x3f
  else if 0x41 ≤ c ∧ c ≤ 0x5a ∨ 0xc0 ≤ c ∧ c ≤ 0xde ∧ c ≠ 0xd7 then c + 0x20
  else c

structure Winentry where
  weCnt : Nat
  wePart1 : List (UInt8 × UInt8)
  weAttributes : UInt8
  weReserved1 : UInt8
  weChksum : UInt8
  wePart2 : List (UInt8 × UInt8)
  weReserved2 : UInt8 × UInt8
  wePart3 : List (UInt8 × UInt8)

/-- A name without its trailing blanks and dots. -/
def dropTrailing (un : List UInt8) : List UInt8 :=
  (un.reverse.dropWhile fun c => c = 0x20 || c = 0x2e).reverse

def winSlotCnt (un : List UInt8) : Nat :=
  let un := dropTrailing un
  if un.length > winMaxlen then 0 else howmany un.length winChars

/-- A field of `i` characters, with what is left of the name, or nothing after `goto done`. -/
def putPart : Nat → Option (List UInt8) → List (UInt8 × UInt8) × Option (List UInt8)
  | i, none => (List.replicate i (0xff, 0xff), none)
  | 0, some un => ([], some un)
  | i + 1, some [] => ((0, 0) :: List.replicate i (0xff, 0xff), none)
  | i + 1, some (c :: un) =>
    let (part, left) := putPart i (some un)
    ((c, 0) :: part, left)

/-- The name is not made of blanks and dots only. -/
def unix2winfn (un : List UInt8) (cnt : Nat) (chksum : UInt8) : Winentry × Nat :=
  let un := (dropTrailing un).drop ((cnt - 1) * winChars)
  let (part1, left) := putPart 5 (some un)
  let (part2, left) := putPart 6 left
  let (part3, left) := putPart 2 left
  let unlen := (left.getD []).length
  (⟨if unlen = 0 then cnt ||| winLast else cnt, part1, 0x0f, 0, chksum, part2, (0, 0), part3⟩,
    unlen)

/-- How the walk over a field ends: with the characters left, or with an answer. -/
inductive Walk (α : Type)
  | more (left : α)
  | done
  | bad

def chkPart : List (UInt8 × UInt8) → List UInt8 → Walk (List UInt8)
  | [], un => .more un
  | (lo, hi) :: _, [] => if lo = 0 ∧ hi = 0 then .done else .bad
  | (lo, hi) :: part, c :: un => if u2l lo ≠ u2l c ∨ hi ≠ 0 then .bad else chkPart part un

def Walk.next (w : Walk α) (f : α → Walk β) : Walk β :=
  match w with
  | .more left => f left
  | .done => .done
  | .bad => .bad

/-- The count of the entry is not 0. -/
def winChkName (un : List UInt8) (wep : Winentry) (chksum : Int) : Int :=
  let last : Bool := wep.weCnt &&& winLast ≠ 0
  let chksum : Int :=
    if last then wep.weChksum.toNat else if chksum ≠ wep.weChksum.toNat then -1 else chksum
  if chksum = -1 then -1
  else
    let i := ((wep.weCnt &&& winCnt) - 1) * winChars
    if un.length ≤ i then -1
    else
      let un := un.drop i
      if last ∧ un.length > winChars then -1
      else
        match ((chkPart wep.wePart1 un).next (chkPart wep.wePart2)).next (chkPart wep.wePart3) with
        | .bad => -1
        | _ => chksum

/-- `d_namlen` is one byte. -/
structure Dirent where
  dName : Nat → UInt8
  dNamlen : Nat

/-- A field of an entry goes to `np`; `behind` is the number of characters of the fields behind it,
and `limit` whether `np` is compared with `ep`. -/
def getPart (behind : Nat) (limit : Bool) :
    List (UInt8 × UInt8) → Nat → Dirent → Dirent × Walk Nat
  | [], np, dp => (dp, .more np)
  | (lo, hi) :: part, np, dp =>
    let stored := { dp with dName := Function.update dp.dName np lo }
    if lo = 0 then
      ({ stored with dNamlen := (dp.dNamlen + 2 ^ 8 - (behind + part.length + 1)) % 2 ^ 8 }, .done)
    else if lo = 0x2f ∨ limit ∧ np + 1 > winMaxlen then
      ({ dp with dName := Function.update dp.dName np 0 }, .bad)
    else if hi ≠ 0 then (stored, .bad)
    else getPart behind limit part (np + 1) stored

/-- The next field, if the walk goes on. -/
def andThen (r : Dirent × Walk Nat) (f : Nat → Dirent → Dirent × Walk Nat) : Dirent × Walk Nat :=
  match r with
  | (dp, .more np) => f np dp
  | r => r

def win2unixfn (wep : Winentry) (dp : Dirent) (chksum : Int) : Dirent × Int :=
  let cnt := wep.weCnt &&& winCnt
  let last : Bool := wep.weCnt &&& winLast ≠ 0
  if cnt > howmany winMaxlen winChars ∨ cnt = 0 then (dp, -1)
  else
    let dp := if last then { dp with dNamlen := cnt * winChars % 2 ^ 8 } else dp
    let chksum : Int :=
      if last then wep.weChksum.toNat else if chksum ≠ wep.weChksum.toNat then -1 else chksum
    if chksum = -1 then (dp, -1)
    else
      let rest := andThen (andThen (getPart 8 false wep.wePart1 ((cnt - 1) * winChars) dp)
        (getPart 2 true wep.wePart2)) (getPart 0 false wep.wePart3)
      (rest.1, match rest.2 with | .bad => -1 | _ => chksum)

/-- The entries of a name as they stand on the disk, the last one first. -/
def entries (un : List UInt8) (chksum : UInt8) : Nat → List Winentry
  | 0 => []
  | cnt + 1 => (unix2winfn un (cnt + 1) chksum).1 :: entries un chksum cnt

def readBack (dp : Dirent) (chksum : Int) (weps : List Winentry) : Dirent × Int :=
  weps.foldl (fun r wep => win2unixfn wep r.1 r.2) (dp, chksum)

/-- `winChkName` accepts all entries, each with what it returned for the one before. -/
def Accepts (un : List UInt8) : Int → List Winentry → Prop
  | _, [] => True
  | chksum, wep :: weps =>
    winChkName un wep chksum ≠ -1 ∧ Accepts un (winChkName un wep chksum) weps

section Fields

variable {a b un : List UInt8} {left : Option (List UInt8)} {part rest : List (UInt8 × UInt8)}
  {dp : Dirent} {np behind n i j : Nat}

theorem u2l_ne_zero {c : UInt8} (hc : c ≠ 0) : u2l c ≠ 0 := by
  rw [u2l]
  split
  · decide
  split
  next hcase =>
    intro hzero
    have hsum : (c + 0x20).toNat = (c.toNat + 32) % 256 := UInt8.toNat_add c 0x20
    have hupper : c.toNat ≤ 0xde :=
      hcase.elim (fun h => Nat.le_trans h.2 (by decide)) fun h => h.2.1
    rw [hzero, UInt8.toNat_zero] at hsum
    omega
  · exact hc

theorem putPart_none : putPart n none = (replicate n (0xff, 0xff), none) := by
  cases n <;> rfl

theorem putPart_append (i j : Nat) (left : Option (List UInt8)) : putPart (i + j) left =
    ((putPart i left).1 ++ (putPart j (putPart i left).2).1, (putPart j (putPart i left).2).2) := by
  cases left with
  | none => simp only [putPart_none, replicate_append_replicate]
  | some un =>
    induction i generalizing un with
    | zero => simp [putPart]
    | succ i ih =>
      rw [succ_add_eq_add_succ, add_succ]
      cases un with
      | nil => simp [putPart, putPart_none]
      | cons c un => simp [putPart, ih]

theorem putPart_left :
    (putPart n (some un)).2 = if un.length < n then none else some (un.drop n) := by
  induction n generalizing un with
  | zero => rfl
  | succ n ih =>
    cases un with
    | nil => rfl
    | cons c un => simp [putPart, ih]

theorem length_putPart : (putPart n left).1.length = n := by
  induction n generalizing left with
  | zero => cases left <;> rfl
  | succ n ih =>
    rcases left with _ | _ | ⟨c, un⟩ <;> simp [putPart, ih]

theorem chkPart_append : chkPart (part ++ rest) un = (chkPart part un).next (chkPart rest) := by
  induction part generalizing un with
  | nil => rfl
  | cons pair part ih =>
    cases un with
    | nil =>
      rw [cons_append, chkPart, chkPart]
      split <;> rfl
    | cons c un =>
      rw [cons_append, chkPart, chkPart, ih]
      split <;> rfl

theorem chkPart_put (ha : ∀ c ∈ a, c ≠ 0) (hb : ∀ c ∈ b, c ≠ 0) : chkPart (putPart n (some a)).1 b =
      if (a.take n).map u2l = (b.take n).map u2l then
        if a.length < n then .done else .more (b.drop n)
      else .bad := by
  induction n generalizing a b with
  | zero => simp [putPart, chkPart]
  | succ n ih =>
    cases a with
    | nil =>
      cases b with
      | nil => simp [putPart, chkPart]
      | cons c b =>
        have hc := u2l_ne_zero (hb c mem_cons_self)
        have hzero : u2l 0 = 0 := rfl
        simp [putPart, chkPart, hzero, Ne.symm hc]
    | cons x a =>
      have hx := ha x mem_cons_self
      cases b with
      | nil => simp [putPart, chkPart, hx]
      | cons c b =>
        have hrest := ih (fun y hy => ha y (mem_cons_of_mem _ hy))
          fun y hy => hb y (mem_cons_of_mem _ hy)
        by_cases heq : u2l x = u2l c <;> simp [putPart, chkPart, heq, hrest]

theorem getPart_append {limit : Bool} : getPart behind limit (part ++ rest) np dp =
    andThen (getPart (behind + rest.length) limit part np dp) (getPart behind limit rest) := by
  induction part generalizing np dp with
  | nil => rfl
  | cons pair part ih =>
    rw [cons_append, getPart, getPart, ih, length_append, Nat.add_comm part.length,
      ← Nat.add_assoc behind]
    split
    · rfl
    split
    · rfl
    split <;> rfl

theorem put_cons (f : Nat → UInt8) (x : UInt8) (l : List UInt8) :
    put (update f np x) (np + 1) l = put f np (x :: l) := by
  funext i
  rcases Nat.lt_trichotomy i np with hlt | rfl | hgt
  · rw [put_of_lt (by omega), put_of_lt hlt, update_of_ne (by omega)]
  · rw [put_of_lt (lt_succ_self i), update_self]
    simp [put]
  · obtain ⟨j, rfl⟩ := Nat.exists_eq_add_of_lt hgt
    simp [put, show np + j + 1 - np = j + 1 by omega, show np + j + 1 - (np + 1) = j by omega,
      show np ≤ np + j + 1 by omega, show np + j + 1 ≠ np by omega]

theorem getPart_limit (h : np + min un.length n ≤ winMaxlen) :
    getPart behind true (putPart n (some un)).1 np dp =
      getPart behind false (putPart n (some un)).1 np dp := by
  induction n generalizing un np dp with
  | zero => rfl
  | succ n ih =>
    cases un with
    | nil => simp [putPart, getPart]
    | cons c un =>
      rw [length_cons, succ_min_succ] at h
      simp only [putPart, getPart]
      rw [ih (by omega)]
      have hno : ¬np + 1 > winMaxlen := by omega
      simp [hno]

theorem getPart_put (ha : ∀ c ∈ a, c ≠ 0 ∧ c ≠ 0x2f) :
    getPart behind false (putPart n (some a)).1 np dp = if a.length < n then
        (⟨put dp.dName np (a ++ [0]), (dp.dNamlen + 2 ^ 8 - (behind + (n - a.length))) % 2 ^ 8⟩,
          .done) else ({ dp with dName := put dp.dName np (a.take n) }, .more (np + n)) := by
  induction n generalizing a np dp with
  | zero => simp [putPart, getPart]
  | succ n ih =>
    cases a with
    | nil =>
      have hput : put dp.dName np [0] = update dp.dName np 0 := by
        rw [← put_cons, put_nil]
      simp [putPart, getPart, hput]
      omega
    | cons c a =>
      obtain ⟨hzero, hslash⟩ := ha c mem_cons_self
      have hrest := fun np dp => @ih a np dp fun y hy => ha y (mem_cons_of_mem _ hy)
      simp only [putPart, getPart, hzero, hslash, hrest, put_cons]
      simp only [length_cons, succ_lt_succ_iff, succ_sub_succ]
      simp [Nat.add_assoc, Nat.add_comm 1 n]

theorem getPart_parts (ha : ∀ c ∈ a, c ≠ 0 ∧ c ≠ 0x2f) (hle : np + a.length ≤ winMaxlen) :
    andThen (andThen (getPart 8 false (putPart 5 (some a)).1 np dp)
      (getPart 2 true (putPart 6 (putPart 5 (some a)).2).1))
        (getPart 0 false (putPart 2 (putPart 6 (putPart 5 (some a)).2).2).1) =
      getPart 0 false (putPart winChars (some a)).1 np dp := by
  rw [show winChars = 5 + (6 + 2) from rfl, putPart_append, getPart_append, length_putPart,
    getPart_put ha]
  split
  · rfl
  next h5 =>
    rw [putPart_left, if_neg h5, putPart_append]
    simp only [andThen]
    rw [getPart_append, length_putPart, getPart_limit (by rw [length_drop]; omega)]
    rfl

end Fields

section Entries

variable {un looked : List UInt8} {cnt : Nat} {chksum : UInt8} {start : Int} {dp : Dirent}

/-- The characters that are left for an entry and those behind it. -/
def chunk (un : List UInt8) (cnt : Nat) : List UInt8 := (dropTrailing un).drop (cnt * winChars)

theorem weCnt_unix2winfn (un : List UInt8) (cnt : Nat) (chksum : UInt8) :
    (unix2winfn un (cnt + 1) chksum).1.weCnt =
      if (chunk un cnt).length ≤ winChars then cnt + 1 ||| winLast else cnt + 1 := by
  have hleft : ((putPart 2 (putPart 6 (putPart 5 (some (chunk un cnt))).2).2).2.getD []).length =
      (chunk un cnt).length - winChars := by
    have hall := congrArg Prod.snd (putPart_append 5 (6 + 2) (some (chunk un cnt)))
    rw [putPart_append 6 2] at hall
    rw [← hall, putPart_left]
    split
    next hlt => exact (Nat.sub_eq_zero_of_le (Nat.le_of_lt hlt)).symm
    next => exact length_drop
  refine if_congr ?_ rfl rfl
  rw [← Nat.sub_eq_zero_iff_le, ← hleft]
  rfl

theorem flags (hcnt : cnt < 63) : ((cnt + 1 ||| winLast) &&& winLast ≠ 0) ∧
    (cnt + 1 ||| winLast) &&& winCnt = cnt + 1 ∧ (cnt + 1) &&& winLast = 0 ∧
      (cnt + 1) &&& winCnt = cnt + 1 := by
  revert cnt
  decide

theorem last_unix2winfn (un : List UInt8) (chksum : UInt8) (hcnt : cnt < 63) :
    ((unix2winfn un (cnt + 1) chksum).1.weCnt &&& winLast ≠ 0 ↔ (chunk un cnt).length ≤ winChars) ∧
      (unix2winfn un (cnt + 1) chksum).1.weCnt &&& winCnt = cnt + 1 := by
  obtain ⟨hlast, hcnt', hnot, hcnt''⟩ := flags hcnt
  rw [weCnt_unix2winfn]
  split
  next hle => exact ⟨iff_of_true hlast hle, hcnt'⟩
  next hle => exact ⟨iff_of_false (not_not.mpr hnot) hle, hcnt''⟩

theorem chksum_eq {last : Prop} [Decidable last] {a b : Int} :
    (if last then b else if a ≠ b then -1 else a) = if last ∨ a = b then b else -1 := by
  by_cases hlast : last
  · rw [if_pos hlast, if_pos (.inl hlast)]
  · by_cases heq : a = b <;> simp [hlast, heq]

/-- The entry goes on with its own checksum if it is the last one of the name. -/
theorem winChkName_ne (hun : ∀ c ∈ chunk un cnt, c ≠ 0) (hlooked : ∀ c ∈ looked, c ≠ 0)
    (hcnt : cnt < 63) : winChkName looked (unix2winfn un (cnt + 1) chksum).1 start =
      if ((chunk un cnt).length ≤ winChars ∨ start = chksum.toNat) ∧
          cnt * winChars < looked.length ∧
          ((chunk un cnt).length ≤ winChars → looked.length ≤ cnt * winChars + winChars) ∧
          ((chunk un cnt).take winChars).map u2l =
            ((looked.drop (cnt * winChars)).take winChars).map u2l
      then (chksum.toNat : Int) else -1 := by
  obtain ⟨hlast, hwin⟩ := last_unix2winfn un chksum hcnt
  have hwalk : ((chkPart (unix2winfn un (cnt + 1) chksum).1.wePart1
      (looked.drop (cnt * winChars))).next
        (chkPart (unix2winfn un (cnt + 1) chksum).1.wePart2)).next
          (chkPart (unix2winfn un (cnt + 1) chksum).1.wePart3) =
      chkPart (putPart winChars (some (chunk un cnt))).1 (looked.drop (cnt * winChars)) := by
    have hall := congrArg Prod.fst (putPart_append (5 + 6) 2 (some (chunk un cnt)))
    rw [putPart_append 5 6] at hall
    rw [show winChars = 5 + 6 + 2 from rfl, hall, chkPart_append, chkPart_append]
    rfl
  rw [chkPart_put hun fun c hc => hlooked c (mem_of_mem_drop hc)] at hwalk
  have hne : (chksum.toNat : Int) ≠ -1 := by omega
  rw [winChkName, hwin]
  simp only [Nat.add_sub_cancel, hwalk, hlast, decide_eq_true_eq, length_drop]
  rw [show (unix2winfn un (cnt + 1) chksum).1.weChksum = chksum from rfl, chksum_eq]
  by_cases hsum : (chunk un cnt).length ≤ winChars ∨ start = chksum.toNat
  case neg => rw [if_neg hsum, if_pos rfl, if_neg fun h => hsum h.1]
  rw [if_pos hsum, if_neg hne]
  by_cases hlong : cnt * winChars < looked.length
  case neg => rw [if_pos (Nat.not_lt.mp hlong), if_neg fun h => hlong h.2.1]
  rw [if_neg (Nat.not_le.mpr hlong)]
  by_cases hend : (chunk un cnt).length ≤ winChars → looked.length ≤ cnt * winChars + winChars
  case neg =>
    rw [if_pos (by omega), if_neg fun h => hend h.2.2.1]
  rw [if_neg (by omega)]
  by_cases hsame : ((chunk un cnt).take winChars).map u2l =
      ((looked.drop (cnt * winChars)).take winChars).map u2l
  · refine Eq.trans ?_ (if_pos ⟨hsum, hlong, hend, hsame⟩).symm
    rw [if_pos hsame]
    split_ifs <;> rfl
  · rw [if_neg hsame, if_neg fun h => hsame h.2.2.2]

theorem win2unixfn_eq (hun : ∀ c ∈ chunk un cnt, c ≠ 0 ∧ c ≠ 0x2f)
    (hle : cnt * winChars + (chunk un cnt).length ≤ winMaxlen)
    (hcnt : cnt < howmany winMaxlen winChars)
    (hstart : (chunk un cnt).length ≤ winChars ∨ start = chksum.toNat) :
    win2unixfn (unix2winfn un (cnt + 1) chksum).1 dp start =
      (⟨put dp.dName (cnt * winChars) (if (chunk un cnt).length < winChars then
        chunk un cnt ++ [0] else (chunk un cnt).take winChars),
        if (chunk un cnt).length ≤ winChars then cnt * winChars + (chunk un cnt).length
        else dp.dNamlen⟩, (chksum.toNat : Int)) := by
  have h20 : cnt < 20 := hcnt
  obtain ⟨hlast, hwin⟩ := last_unix2winfn un chksum (Nat.lt_trans h20 (by decide))
  have hne : (chksum.toNat : Int) ≠ -1 := by omega
  rw [win2unixfn, hwin, if_neg (by rintro (h | h) <;> omega)]
  simp only [hlast, decide_eq_true_eq, Nat.add_sub_cancel]
  rw [show (unix2winfn un (cnt + 1) chksum).1.weChksum = chksum from rfl, chksum_eq, if_pos hstart,
    if_neg hne]
  have hparts : ∀ dp, andThen (andThen (getPart 8 false
      (unix2winfn un (cnt + 1) chksum).1.wePart1 (cnt * winChars) dp)
        (getPart 2 true (unix2winfn un (cnt + 1) chksum).1.wePart2))
          (getPart 0 false (unix2winfn un (cnt + 1) chksum).1.wePart3) = _ :=
    fun _ => (getPart_parts hun hle).trans (getPart_put hun)
  rw [hparts]
  rcases Nat.lt_trichotomy (chunk un cnt).length winChars with hlt | heq | hgt
  · rw [if_pos (Nat.le_of_lt hlt), if_pos hlt, if_pos hlt, if_pos (Nat.le_of_lt hlt)]
    have hlen : ((cnt + 1) * winChars % 2 ^ 8 + 2 ^ 8 - (0 + (winChars - (chunk un cnt).length))) %
        2 ^ 8 = cnt * winChars + (chunk un cnt).length := by
      simp only [winMaxlen, winChars] at *
      omega
    rw [hlen]
  · rw [if_pos heq.le, if_neg heq.not_lt, if_neg heq.not_lt, if_pos heq.le]
    have hlen : (cnt + 1) * winChars % 2 ^ 8 = cnt * winChars + (chunk un cnt).length := by
      simp only [winMaxlen, winChars] at *
      omega
    rw [hlen]
  · rw [if_neg hgt.not_ge, if_neg hgt.not_gt, if_neg hgt.not_gt, if_neg hgt.not_ge]

theorem put_put_left (f : Nat → UInt8) (a b : List UInt8) :
    put (put f a.length b) 0 a = put f 0 (a ++ b) := by
  funext i
  rcases Nat.lt_or_ge i a.length with hlt | hge
  · simp [put, hlt, getElem?_append_left hlt]
  · simp [put, hge, getElem?_append_right hge]

theorem length_chunk : (chunk un cnt).length = (dropTrailing un).length - cnt * winChars :=
  length_drop

theorem mem_chunk {c : UInt8} (hc : c ∈ chunk un cnt) : c ∈ un :=
  mem_reverse.mp ((dropWhile_suffix _).subset
    (mem_reverse.mp (mem_of_mem_drop hc)))

theorem readBack_entries (hun : ∀ c ∈ un, c ≠ 0 ∧ c ≠ 0x2f)
    (hmax : (dropTrailing un).length ≤ winMaxlen)
    (hcnt : cnt * winChars < (dropTrailing un).length) :
    readBack dp chksum.toNat (entries un chksum cnt) =
      ({ dp with dName := put dp.dName 0 ((dropTrailing un).take (cnt * winChars)) },
        (chksum.toNat : Int)) := by
  induction cnt generalizing dp with
  | zero => simp [readBack, entries]
  | succ cnt ih =>
    have hlen := @length_chunk un cnt
    have hlong : winChars < (chunk un cnt).length := by
      rw [succ_mul] at hcnt
      omega
    have hstep : readBack dp chksum.toNat (entries un chksum (cnt + 1)) =
        readBack (win2unixfn (unix2winfn un (cnt + 1) chksum).1 dp chksum.toNat).1
          (win2unixfn (unix2winfn un (cnt + 1) chksum).1 dp chksum.toNat).2
          (entries un chksum cnt) := rfl
    have h20 : cnt < howmany winMaxlen winChars := by
      simp only [winMaxlen, winChars, howmany] at *
      omega
    rw [hstep, win2unixfn_eq (fun c hc => hun c (mem_chunk hc)) (by omega) h20 (.inr rfl),
      if_neg hlong.not_gt, if_neg hlong.not_ge, ih (by omega)]
    have htake : ((dropTrailing un).take (cnt * winChars)).length = cnt * winChars :=
      length_take_of_le (by omega)
    have hput := put_put_left dp.dName ((dropTrailing un).take (cnt * winChars))
      ((chunk un cnt).take winChars)
    rw [htake, chunk, ← take_add, ← succ_mul] at hput
    exact congrArg (fun f => (Dirent.mk f dp.dNamlen, (chksum.toNat : Int))) hput

theorem map_take_add {a b : List UInt8} {m n : Nat} (hm : m < a.length) (hn : 0 < n) :
    (a.take (m + n)).map u2l = (b.take (m + n)).map u2l ↔ m < b.length ∧
      (a.take m).map u2l = (b.take m).map u2l ∧
        ((a.drop m).take n).map u2l = ((b.drop m).take n).map u2l := by
  constructor
  · intro h
    have hlen := congrArg length h
    simp only [length_map, length_take] at hlen
    have hb : m < b.length := by omega
    rw [take_add, take_add, map_append, map_append] at h
    obtain ⟨hl, hr⟩ := append_inj h (by simp [Nat.le_of_lt hm, Nat.le_of_lt hb])
    exact ⟨hb, hl, hr⟩
  · rintro ⟨-, hl, hr⟩
    rw [take_add, take_add, map_append, map_append, hl, hr]

theorem accepts_cons {wep : Winentry} {weps : List Winentry} {p : Prop} [Decidable p]
    (h : winChkName looked wep start = if p then (chksum.toNat : Int) else -1) :
    Accepts looked start (wep :: weps) ↔ p ∧ Accepts looked chksum.toNat weps := by
  have hne : (chksum.toNat : Int) ≠ -1 := by omega
  rw [Accepts, h]
  by_cases hp : p <;> simp [hp, hne]

theorem accepts_entries (hun : ∀ c ∈ un, c ≠ 0) (hlooked : ∀ c ∈ looked, c ≠ 0)
    (hmax : (dropTrailing un).length ≤ winMaxlen)
    (hcnt : cnt * winChars < (dropTrailing un).length) :
    Accepts looked chksum.toNat (entries un chksum cnt) ↔
      ((dropTrailing un).take (cnt * winChars)).map u2l =
        (looked.take (cnt * winChars)).map u2l := by
  induction cnt with
  | zero => simp [entries, Accepts]
  | succ cnt ih =>
    have hlen := @length_chunk un cnt
    rw [succ_mul] at hcnt
    have h63 : cnt < 63 := by
      simp only [winMaxlen, winChars] at *
      omega
    have hlong : ¬(chunk un cnt).length ≤ winChars := by omega
    rw [entries, accepts_cons (winChkName_ne (fun c hc => hun c (mem_chunk hc)) hlooked h63),
      ih (by omega), succ_mul, map_take_add (by omega) (by decide)]
    simp only [hlong, false_or, false_imp_iff, true_and]
    exact ⟨fun h => ⟨h.1.1, h.2, h.1.2⟩, fun h => ⟨⟨h.1, h.2.2⟩, h.2.1⟩⟩

theorem winSlotCnt_eq (hne : dropTrailing un ≠ []) (hmax : (dropTrailing un).length ≤ winMaxlen) :
    ∃ cnt, winSlotCnt un = cnt + 1 ∧ cnt < howmany winMaxlen winChars ∧
      cnt * winChars < (dropTrailing un).length ∧
        (dropTrailing un).length ≤ cnt * winChars + winChars := by
  have hpos := length_pos_of_ne_nil hne
  rw [winSlotCnt, if_neg hmax.not_gt]
  refine ⟨((dropTrailing un).length - 1) / winChars, ?_⟩
  simp only [winMaxlen, winChars, howmany] at *
  omega

theorem readBack_last (hun : ∀ c ∈ un, c ≠ 0 ∧ c ≠ 0x2f) (hne : dropTrailing un ≠ [])
    (hmax : (dropTrailing un).length ≤ winMaxlen) : ∃ behind,
    readBack dp start (entries un chksum (winSlotCnt un)) =
      (⟨put dp.dName 0 (dropTrailing un ++ behind), (dropTrailing un).length⟩,
        (chksum.toNat : Int)) := by
  obtain ⟨cnt, hslots, h20, hlong, hend⟩ := winSlotCnt_eq hne hmax
  have hlen := @length_chunk un cnt
  have hshort : (chunk un cnt).length ≤ winChars := by omega
  obtain ⟨behind, hput⟩ : ∃ behind, (if (chunk un cnt).length < winChars then chunk un cnt ++ [0]
      else (chunk un cnt).take winChars) = chunk un cnt ++ behind := by
    split
    · exact ⟨[0], rfl⟩
    · exact ⟨[], by rw [take_of_length_le hshort, append_nil]⟩
  have hstep : readBack dp start (entries un chksum (cnt + 1)) =
      readBack (win2unixfn (unix2winfn un (cnt + 1) chksum).1 dp start).1
        (win2unixfn (unix2winfn un (cnt + 1) chksum).1 dp start).2 (entries un chksum cnt) := rfl
  have htake : ((dropTrailing un).take (cnt * winChars)).length = cnt * winChars :=
    length_take_of_le (by omega)
  have hname := put_put_left dp.dName ((dropTrailing un).take (cnt * winChars))
    (chunk un cnt ++ behind)
  rw [htake, chunk, ← append_assoc, take_append_drop] at hname
  rw [hslots, hstep, win2unixfn_eq (fun c hc => hun c (mem_chunk hc)) (by omega) h20 (.inl hshort),
    hput, if_pos hshort, readBack_entries hun hmax hlong, hlen, Nat.add_sub_cancel' hlong.le]
  exact ⟨behind, congrArg (fun f => (Dirent.mk f _, (chksum.toNat : Int))) hname⟩

theorem accepts_last (hun : ∀ c ∈ un, c ≠ 0) (hlooked : ∀ c ∈ looked, c ≠ 0)
    (hne : dropTrailing un ≠ []) (hmax : (dropTrailing un).length ≤ winMaxlen) :
    Accepts looked start (entries un chksum (winSlotCnt un)) ↔
      (dropTrailing un).map u2l = looked.map u2l := by
  obtain ⟨cnt, hslots, h20, hlong, hend⟩ := winSlotCnt_eq hne hmax
  have hlen := @length_chunk un cnt
  have hshort : (chunk un cnt).length ≤ winChars := by omega
  rw [hslots, entries, accepts_cons (winChkName_ne (fun c hc => hun c (mem_chunk hc)) hlooked
    (Nat.lt_trans h20 (by decide))), accepts_entries hun hlooked hmax hlong]
  have hsame := @map_take_add (dropTrailing un) looked _ winChars hlong (by decide)
  rw [take_of_length_le hend] at hsame
  constructor
  · rintro ⟨⟨-, hb, hle, hpiece⟩, htake⟩
    have hall := hsame.mpr ⟨hb, htake, hpiece⟩
    rwa [take_of_length_le (hle hshort)] at hall
  · intro h
    have hlength : (dropTrailing un).length = looked.length := by
      simpa using congrArg length h
    rw [take_of_length_le (hlength ▸ hend)] at hsame
    obtain ⟨hb, htake, hpiece⟩ := hsame.mp h
    exact ⟨⟨.inl hshort, hb, fun _ => hlength ▸ hend, hpiece⟩, htake⟩

/-- The entries of a name give it back, and a lookup finds them by the names which differ in no
more than the case. -/
theorem winfn_roundtrip (hun : ∀ c ∈ un, c ≠ 0 ∧ c ≠ 0x2f) (hne : dropTrailing un ≠ [])
    (hmax : (dropTrailing un).length ≤ winMaxlen) (chksum : UInt8) (dp : Dirent) (start : Int) :
    let weps := entries un chksum (winSlotCnt un)
    let r := readBack dp start weps
    (List.range r.1.dNamlen).map r.1.dName = dropTrailing un ∧
      r.1.dNamlen = (dropTrailing un).length ∧ r.2 = chksum.toNat ∧
        ∀ looked : List UInt8, (∀ c ∈ looked, c ≠ 0) → (Accepts (dropTrailing looked) start weps ↔
            (dropTrailing un).length = (dropTrailing looked).length ∧
              (dropTrailing un).map u2l = (dropTrailing looked).map u2l) := by
  obtain ⟨behind, hread⟩ := @readBack_last _ chksum start dp hun hne hmax
  refine ⟨?_, ?_, ?_, fun looked hlooked => ?_⟩
  · rw [hread]
    refine ext_getElem (by simp) fun i hi _ => ?_
    simp only [length_map, length_range] at hi
    simp [put, getElem?_append_left, hi]
  · rw [hread]
  · rw [hread]
  · have htrailing : ∀ c ∈ dropTrailing looked, c ≠ 0 := fun c hc =>
      hlooked c (@mem_chunk looked 0 c (by rwa [chunk, Nat.zero_mul, drop_zero]))
    rw [accepts_last (fun c hc => (hun c hc).1) htrailing hne hmax]
    refine ⟨fun h => ⟨?_, h⟩, fun h => h.2⟩
    simpa using congrArg length h

theorem winfn_roundtrip_a :
    Accepts (dropTrailing [0x41]) (-1) (entries [0x61, 0x2e] 7 (winSlotCnt [0x61, 0x2e])) :=
  ((@winfn_roundtrip [0x61, 0x2e] (by simp) (by decide) (by decide) 7
    ⟨fun _ => 0, 0⟩ (-1)).2.2.2 [0x41] (by simp)).mpr (by decide)

end Entries

end Mbsd.Msdosfs.Winname
