import Mbsd.Msdosfs.Mapping

/-! The blocks of the disk that hold the copies of the FAT, and how `fatentry` and `fatchain` change
them.  All block I/O succeeds. -/

namespace Mbsd.Msdosfs

open Sys

variable {I I' : Nat → Prop} {m m' : Nat → Byte} {v : Layout}

abbrev Disk := Nat → Byte

namespace Disk

def bread (disk : Disk) (bn : Nat) : Nat → Byte := fun q => disk (bn * devBsize + q)

def bwrite (disk : Disk) (bn size : Nat) (data : Nat → Byte) : Disk := fun p =>
  if bn * devBsize ≤ p ∧ p < bn * devBsize + size then data (p - bn * devBsize) else disk p

end Disk

/-- What mounting finds out about the places on the disk.  Without mirroring the current FAT may be
any one. -/
structure Device extends Layout where
  fatblk : Nat
  curfat : Nat
  fats : Nat
  fatmirror : Bool
  fsinfo : Nat
  secs : fatSecs < 2 ^ 32
  first : fatmirror = true → curfat = 0

namespace Layout

variable (v : Layout)

def chainEntry (data : Nat → Byte) (start bo : Nat) (newc : Word) : Nat → Byte :=
  match v.type with
  | .fat12 =>
    let readcn := getushort data bo
    putushort data bo (if start % 2 = 1 then readcn &&& (0xf000 : Word) ||| newc &&& (0xfff : Word)
      else readcn &&& (0x000f : Word) ||| newc <<< 4)
  | .fat16 => putushort data bo newc
  | .fat32 =>
    let readcn := getulong data bo
    putulong data bo (readcn &&& ~~~v.type.fatmask ||| newc &&& v.type.fatmask)

/-- The switch of `freeclusterchain`: the next cluster, before it is masked, and the data. -/
def freeEntry (data : Nat → Byte) (cluster bo : Nat) : Word × (Nat → Byte) :=
  match v.type with
  | .fat12 =>
    let readcn := getushort data bo
    if cluster % 2 = 1 then
      (readcn >>> 4, putushort data bo (readcn &&& (0x000f : Word) ||| msdosfsfree <<< 4))
    else
      (readcn, putushort data bo (readcn &&& (0xf000 : Word) ||| msdosfsfree &&& (0xfff : Word)))
  | .fat16 => (getushort data bo, putushort data bo msdosfsfree)
  | .fat32 =>
    let cluster := getulong data bo
    (cluster, putulong data bo
      (msdosfsfree &&& (0x0fffffff : Word) ||| cluster &&& ~~~(0x0fffffff : Word)))

def freeNext (data : Nat → Byte) (cluster bo : Nat) : Word :=
  let cluster := (v.freeEntry data cluster bo).1 &&& v.type.fatmask
  if v.Reserved cluster then cluster ||| v.type.fatmask else cluster

/-- The block that `fillinusemap` has for a cluster, where `bp` is the one that it has read. -/
def fillBlock (cn : Nat) (bp : Option Nat) : Nat :=
  let byteoffset := v.fatofs cn
  let bo := byteoffset % v.fatblocksize
  if bo = 0 then (v.fatblock byteoffset).1 else bp.getD (v.fatblock byteoffset).1

def fillEntry (m : Nat → Byte) (cn : Nat) (bp : Option Nat) : Word :=
  v.readEntry m cn (place (v.fillBlock cn bp) (v.fatofs cn % v.fatblocksize))

end Layout

namespace Device

variable (d : Device)

def fatblock (ofs : Nat) : Nat × Nat × Nat :=
  let (bn, size, bo) := d.toLayout.fatblock ofs
  ((bn + d.fatblk + d.curfat * d.fatSecs) % 2 ^ 32, size, bo)

def fsiSize : Nat := 1024 <<< ((d.bytesPerSec / devBsize) >>> 2)

def fsinfree : Nat := 488

def updateCopies (bn size : Nat) (data : Nat → Byte) : Nat → Nat → Disk → Option Disk
  | 0, _, disk => some disk
  | k + 1, fatbn, disk =>
    let fatbn := (fatbn + d.fatSecs) % 2 ^ 32
    if fatbn = bn then none else updateCopies bn size data k fatbn (disk.bwrite fatbn size data)

def updateInfo (free : Word) (disk : Disk) (bn : Nat) : Option Disk :=
  if d.fsinfo ≠ 0 then
    if d.fsinfo = bn then none
    else some (disk.bwrite d.fsinfo d.fsiSize (putulong (disk.bread d.fsinfo) fsinfree free))
  else some disk

/-- `updatefats` for the buffer of the block `bn`.  `none` is that it waits for this buffer, which
is its own. -/
def updatefats (free : Word) (disk : Disk) (bn size : Nat) (data : Nat → Byte) : Option Disk :=
  (d.updateInfo free disk bn).bind fun disk =>
    (if d.fatmirror then d.updateCopies bn size data (d.fats - 1) bn disk else some disk).map
      fun disk => disk.bwrite bn size data

def fatentry (free : Word) (set : Bool) (disk : Disk) (cn : Nat) (newcontents : Word) :
    Option (Except Errno (Word × Disk)) :=
  if cn < clustFirst ∨ cn > d.maxcluster then some (.error .EINVAL)
  else
    let (bn, bsize, bo) := d.fatblock (d.fatofs cn)
    let data := disk.bread bn
    let readcn := d.force (d.readEntry data cn bo)
    if set then
      (d.updatefats free disk bn bsize (d.writeEntry data cn bo newcontents)).map
        fun disk => .ok (readcn, disk)
    else some (.ok (readcn, disk))

def fatchainBlock (fillwith : Word) (bsize : Nat) :
    Nat → Nat → Nat → (Nat → Byte) → Nat × Nat × (Nat → Byte)
  | 0, start, _, data => (start, 0, data)
  | count + 1, start, bo, data =>
    let start := start + 1
    let newc := if count > 0 then BitVec.ofNat 32 start else fillwith
    let data := d.chainEntry data start bo newc
    let bo := bo + d.step start
    if bo ≥ bsize then (start, count, data)
    else fatchainBlock fillwith bsize count start bo data

def fatchainLoop (free fillwith : Word) : Nat → Nat → Nat → Disk → Option Disk
  | 0, _, _, _ => none
  | n + 1, start, count, disk =>
    if count > 0 then
      let (bn, bsize, bo) := d.fatblock (d.fatofs start)
      let (start, count, data) := d.fatchainBlock fillwith bsize count start bo (disk.bread bn)
      (d.updatefats free disk bn bsize data).bind (fatchainLoop free fillwith n start count)
    else some disk

def fatchain (free : Word) (n : Nat) (disk : Disk) (start count : Nat) (fillwith : Word) :
    Option (Except Errno Disk) :=
  if start < clustFirst ∨ sub32 (start + count) 1 > d.maxcluster then some (.error .EINVAL)
  else (d.fatchainLoop free fillwith n start count disk).map .ok

end Device

/-! The disk as the entries of the FATs, where these have places of their own. -/

open Lib.Fuel Layout BitVec Nat FatType

variable {d : Device} {disk disk' disk'' : Disk} {data data' : Nat → Byte} {free new : Word}
  {cn i j k p q start count : Nat}

section Entries

variable {v : Layout} {m m' : Nat → Byte} {bo r : Nat}

namespace Layout

def entryBytes (v : Layout) : Nat := if v.type = .fat32 then 4 else 2

end Layout

theorem getushort_shift (h : ∀ r < 2, m (bo + r) = m' (p + r)) :
    getushort m bo = getushort m' p := by
  rw [getushort, getushort, h 1 (by decide)]
  exact congrArg (fun x : Byte => x.setWidth 32 ||| _) (h 0 (by decide))

theorem getulong_shift (h : ∀ r < 4, m (bo + r) = m' (p + r)) : getulong m bo = getulong m' p := by
  have hhigh : getushort m (bo + 2) = getushort m' (p + 2) := getushort_shift fun r hr => by
    rw [Nat.add_assoc, Nat.add_assoc]
    exact h (2 + r) (by omega)
  rw [getulong, getulong, hhigh, getushort_shift fun r hr => h r (by omega)]

theorem readEntry_shift (h : ∀ r < v.entryBytes, m (bo + r) = m' (p + r)) :
    v.readEntry m cn bo = v.readEntry m' cn p := by
  rw [entryBytes] at h
  rw [readEntry, readEntry]
  by_cases ht : v.type = .fat32
  · rw [if_pos ht] at h
    rw [if_pos ht, if_pos ht, getulong_shift h]
  · rw [if_neg ht] at h
    rw [if_neg ht, if_neg ht, getushort_shift h]

theorem putushort_apply (m : Nat → Byte) (p q : Nat) (x : Word) : putushort m p x q =
      if p ≤ q ∧ q < p + 2 then (x >>> (8 * (q - p))).setWidth 8 else m q := by
  by_cases hq : p ≤ q ∧ q < p + 2
  · obtain ⟨r, rfl⟩ := Nat.exists_eq_add_of_le hq.1
    have hcases : r = 0 ∨ r = 1 := by omega
    rw [if_pos hq, Nat.add_sub_cancel_left]
    rcases hcases with rfl | rfl <;> simp [putushort]
  · rw [if_neg hq, putushort, if_neg (by omega), if_neg (by omega)]

theorem putulong_apply (m : Nat → Byte) (p q : Nat) (x : Word) : putulong m p x q =
      if p ≤ q ∧ q < p + 4 then (x >>> (8 * (q - p))).setWidth 8 else m q := by
  by_cases hq : p ≤ q ∧ q < p + 4
  · obtain ⟨r, rfl⟩ := Nat.exists_eq_add_of_le hq.1
    rw [if_pos hq, Nat.add_sub_cancel_left]
    have hcases : r = 0 ∨ r = 1 ∨ r = 2 ∨ r = 3 := by omega
    rcases hcases with rfl | rfl | rfl | rfl <;>
      simp [putulong, putushort, ← BitVec.shiftRight_add, Nat.add_assoc]
  · rw [if_neg hq, putulong, putushort, putushort, if_neg (by omega), if_neg (by omega),
      if_neg (by omega), if_neg (by omega)]

theorem writeEntry_apply (v : Layout) (cn : Nat) (new : Word) : ∃ word : Word → Word,
    ∀ (m : Nat → Byte) (p q : Nat), v.writeEntry m cn p new q = if p ≤ q ∧ q < p + v.entryBytes then
        (word (if v.type = .fat32 then getulong m p else getushort m p) >>>
          (8 * (q - p))).setWidth 8 else m q := by
  cases ht : v.type with
  | fat12 =>
    refine ⟨fun readcn => if cn % 2 = 1 then readcn &&& (0x000f : Word) ||| new <<< 4
      else readcn &&& (0xf000 : Word) ||| new &&& (0xfff : Word), fun m p q => ?_⟩
    simp [writeEntry, entryBytes, ht, putushort_apply]
  | fat16 =>
    refine ⟨fun _ => new, fun m p q => ?_⟩
    simp [writeEntry, entryBytes, ht, putushort_apply]
  | fat32 =>
    refine ⟨fun readcn => readcn &&& ~~~(0x0fffffff : Word) ||| new &&& (0x0fffffff : Word),
      fun m p q => ?_⟩
    simp [writeEntry, entryBytes, ht, putulong_apply]

theorem writeEntry_block (base : Nat) {size : Nat} (cn : Nat) (new : Word)
    (h : ∀ r < size, m r = m' (base + r)) (hbo : bo + v.entryBytes ≤ size) (hk : k < size) :
    v.writeEntry m cn bo new k = v.writeEntry m' cn (base + bo) new (base + k) := by
  obtain ⟨word, hword⟩ := writeEntry_apply v cn new
  have hread : (if v.type = .fat32 then getulong m bo else getushort m bo) =
      if v.type = .fat32 then getulong m' (base + bo) else getushort m' (base + bo) := by
    have hbytes : ∀ r < v.entryBytes, m (bo + r) = m' (base + bo + r) := fun r hr => by
      rw [h (bo + r) (by omega), Nat.add_assoc]
    rw [entryBytes] at hbytes
    by_cases ht : v.type = .fat32
    · rw [if_pos ht] at hbytes
      rw [if_pos ht, if_pos ht, getulong_shift hbytes]
    · rw [if_neg ht] at hbytes
      rw [if_neg ht, if_neg ht, getushort_shift hbytes]
  rw [hword, hword, hread]
  by_cases hin : bo ≤ k ∧ k < bo + v.entryBytes
  · have hin' : base + bo ≤ base + k ∧ base + k < base + bo + v.entryBytes := by omega
    rw [if_pos hin, if_pos hin', Nat.add_sub_add_left]
  · have hin' : ¬(base + bo ≤ base + k ∧ base + k < base + bo + v.entryBytes) := by omega
    rw [if_neg hin, if_neg hin', h k hk]

theorem writeEntry_of_ne (new : Word) (h : ¬(p ≤ q ∧ q < p + v.entryBytes)) :
    v.writeEntry m cn p new q = m q := by
  obtain ⟨word, hword⟩ := writeEntry_apply v cn new
  rw [hword, if_neg h]

theorem entryBytes_bounds (h : cn ≤ v.maxcluster) : v.fatofs cn + v.entryBytes ≤ v.fatsize := by
  have hbytes := entry_bytes h
  rw [entryBytes]
  split at hbytes <;> simp_all <;> omega

theorem entry_block (h : cn ≤ v.maxcluster) :
    v.fatofs cn % v.fatblocksize + v.entryBytes ≤ v.fatblocksize := by
  have hlt := mod_lt (v.fatofs cn) v.fatblocksize_pos
  have hofs := fatofs_eq h
  rw [fatblocksize, entryBytes] at *
  cases ht : v.type with
  | fat12 =>
    simp only [ht, fatmult, fatdiv, if_true, reduceCtorEq, if_false]
      at hlt hofs ⊢
    -- The block has a multiple of three bytes, and no entry begins at the last one of three.
    have hmod := mod_mul_right_mod (v.fatofs cn) 3 v.bytesPerSec
    omega
  | fat16 =>
    simp only [ht, fatmult, fatdiv, reduceCtorEq, if_false, maxbsize]
      at hlt hofs ⊢
    omega
  | fat32 =>
    simp only [ht, fatmult, fatdiv, if_true, reduceCtorEq, if_false, maxbsize]
      at hlt hofs ⊢
    omega

end Entries

namespace Device

def Copy (d : Device) (i : Nat) : Prop := i = d.curfat ∨ d.fatmirror = true ∧ i < d.fats

def blk (d : Device) (i j : Nat) : Nat := (j * d.fatblocksec + d.fatblk + i * d.fatSecs) % 2 ^ 32

def blkSize (d : Device) (j : Nat) : Nat :=
  min d.fatblocksec (d.fatSecs - j * d.fatblocksec) * devBsize

def addr (d : Device) (i q : Nat) : Nat :=
  d.blk i (q / d.fatblocksize) * devBsize + q % d.fatblocksize

def fat (d : Device) (disk : Disk) (i : Nat) : Nat → Byte := fun q => disk (d.addr i q)

def Info (d : Device) (p : Nat) : Prop :=
  d.fsinfo ≠ 0 ∧ d.fsinfo * devBsize + fsinfree ≤ p ∧ p < d.fsinfo * devBsize + fsinfree + 4

/-- No byte of the disk belongs to two places of the FATs, or to one of them and to `fsinfree`. -/
structure Apart (d : Device) : Prop where
  fats : ∀ i i' q q', d.Copy i → d.Copy i' → q < d.fatsize → q' < d.fatsize →
    d.addr i q = d.addr i' q' → i = i' ∧ q = q'
  fsinfo : ∀ i q, d.Copy i → q < d.fatsize → ¬d.Info (d.addr i q)

theorem blkSize_eq (d : Device) (j : Nat) :
    d.blkSize j = min d.fatblocksize (d.fatsize - j * d.fatblocksize) := by
  rw [blkSize, fatsize, ← d.fatblocksec_eq, ← Nat.mul_assoc, ← Nat.sub_mul, Nat.mul_min_mul_right]

theorem fatblock_eq (h : q < d.fatsize) : d.fatblock q =
    (d.blk d.curfat (q / d.fatblocksize), d.blkSize (q / d.fatblocksize), q % d.fatblocksize) := by
  have hle := div_mul_le_self q d.fatblocksize
  have hsecs := d.secs
  rw [← d.fatblocksec_eq, ← Nat.mul_assoc, d.fatblocksec_eq, devBsize] at hle
  rw [fatsize, devBsize] at h
  have hsub : sub32 d.fatSecs (q / d.fatblocksize * d.fatblocksec) =
      d.fatSecs - q / d.fatblocksize * d.fatblocksec := by
    rw [sub32]
    omega
  simp only [fatblock, Layout.fatblock, blk, blkSize, hsub]

theorem mem_block (hj : j * d.fatblocksize < d.fatsize) (i p : Nat) :
    d.blk i j * devBsize ≤ p ∧ p < d.blk i j * devBsize + d.blkSize j ↔
      ∃ q < d.fatsize, q / d.fatblocksize = j ∧ d.addr i q = p := by
  have hpos := d.fatblocksize_pos
  rw [blkSize_eq]
  constructor
  · rintro ⟨hle, hlt⟩
    refine ⟨j * d.fatblocksize + (p - d.blk i j * devBsize), by omega, ?_, ?_⟩
    · rw [Nat.mul_comm, mul_add_div hpos, div_eq_of_lt (by omega), Nat.add_zero]
    · rw [addr, Nat.mul_comm j, mul_add_div hpos, mul_add_mod,
        div_eq_of_lt (by omega), mod_eq_of_lt (by omega), Nat.add_zero]
      omega
  · rintro ⟨q, hq, rfl, rfl⟩
    rw [addr]
    have hmod := div_add_mod' q d.fatblocksize
    have hlt := mod_lt q hpos
    omega

theorem blkSize_ge (hj : j * d.fatblocksize < d.fatsize) : devBsize ≤ d.blkSize j := by
  have hpos := d.fatblocksize_pos
  have hsec := d.fatblocksec_eq
  rw [fatsize, ← hsec, ← Nat.mul_assoc] at hj
  rw [blkSize]
  refine Nat.le_mul_of_pos_left devBsize (Nat.lt_min.mpr ⟨?_, ?_⟩)
  · exact Nat.pos_of_mul_pos_right (hsec ▸ hpos)
  · exact Nat.sub_pos_of_lt (Nat.lt_of_mul_lt_mul_right hj)

structure Written (d : Device) (I : Nat → Prop) (j : Nat) (data : Nat → Byte)
    (disk disk' : Disk) : Prop where
  block : ∀ i q, I i → q < d.fatsize → q / d.fatblocksize = j →
    disk' (d.addr i q) = data (q % d.fatblocksize)
  others : ∀ p, (∀ i q, I i → q < d.fatsize → q / d.fatblocksize = j → d.addr i q ≠ p) →
    disk' p = disk p

theorem Written.none (hI : ∀ i, ¬I i) : Written d I j data disk disk where
  block i _ hi := absurd hi (hI i)
  others _ _ := rfl

theorem bwrite_written (hj : j * d.fatblocksize < d.fatsize) (i : Nat) (data : Nat → Byte)
    (disk : Disk) : Written d (· = i) j data disk (disk.bwrite (d.blk i j) (d.blkSize j) data) := by
  constructor
  · rintro i q rfl hq rfl
    have hmem := (mem_block hj i (d.addr i q)).mpr ⟨q, hq, rfl, rfl⟩
    rw [Disk.bwrite, if_pos hmem, addr, Nat.add_sub_cancel_left]
  · intro p hp
    rw [Disk.bwrite, if_neg]
    intro hmem
    obtain ⟨q, hq, hqj, hqp⟩ := (mem_block hj i p).mp hmem
    exact hp i q rfl hq hqj hqp

theorem Written.trans (h : d.Apart) (hI : ∀ i, I i → d.Copy i)
    (hI' : ∀ i, I' i → d.Copy i) (hw : Written d I j data disk disk')
    (hw' : Written d I' j data disk' disk'') :
    Written d (fun i => I i ∨ I' i) j data disk disk'' := by
  constructor
  · intro i q hi hq hqj
    by_cases hi' : I' i
    · exact hw'.block i q hi' hq hqj
    · have hcopy := hI i (hi.resolve_right hi')
      rw [hw'.others, hw.block i q (hi.resolve_right hi') hq hqj]
      intro k r hk hr _ heq
      obtain ⟨rfl, -⟩ := h.fats k i r q (hI' k hk) hcopy hr hq heq
      exact hi' hk
  · intro p hp
    rw [hw'.others p fun i q hi => hp i q (.inr hi), hw.others p fun i q hi => hp i q (.inl hi)]

theorem Written.congr (hw : Written d I j data disk disk')
    (hiff : ∀ i, I i ↔ I' i) : Written d I' j data disk disk' where
  block i q hi := hw.block i q ((hiff i).mpr hi)
  others p hp := hw.others p fun i q hi => hp i q ((hiff i).mp hi)

theorem blk_inj (h : d.Apart) (hj : j * d.fatblocksize < d.fatsize) (hi : d.Copy i)
    (hk : d.Copy k) (heq : d.blk i j = d.blk k j) : i = k := by
  have hdiv : j * d.fatblocksize / d.fatblocksize = j :=
    Nat.mul_div_cancel j d.fatblocksize_pos
  refine (h.fats i k _ _ hi hk hj hj ?_).1
  rw [addr, addr, hdiv, heq]

theorem updateCopies_written (h : d.Apart) (hj : j * d.fatblocksize < d.fatsize)
    (hmirror : d.fatmirror = true) (data : Nat → Byte) (disk : Disk) (hik : i + k < d.fats) :
    ∃ disk', d.updateCopies (d.blk 0 j) (d.blkSize j) data k (d.blk i j) disk = some disk' ∧
      Written d (fun i' => i < i' ∧ i' ≤ i + k) j data disk disk' := by
  induction k generalizing i disk with
  | zero => exact ⟨disk, rfl, .none fun i' => by omega⟩
  | succ k ih =>
    have hcopy : ∀ i' < d.fats, d.Copy i' := fun i' hi' => .inr ⟨hmirror, hi'⟩
    have hnext : (d.blk i j + d.fatSecs) % 2 ^ 32 = d.blk (i + 1) j := by
      rw [blk, blk, Nat.mod_add_mod, Nat.succ_mul, Nat.add_assoc]
    have hne : d.blk (i + 1) j ≠ d.blk 0 j := fun heq =>
      absurd (blk_inj h hj (hcopy _ (by omega)) (hcopy 0 (by omega)) heq) (succ_ne_zero i)
    have hone := bwrite_written hj (i + 1) data disk
    obtain ⟨disk', hdisk', hw⟩ := @ih (i + 1)
      (disk.bwrite (d.blk (i + 1) j) (d.blkSize j) data) (by omega)
    refine ⟨disk', ?_, (hone.trans h (fun i' hi' => hcopy i' (by omega))
      (fun i' hi' => hcopy i' (by omega)) hw).congr fun i' => by omega⟩
    rw [updateCopies, hnext, if_neg hne]
    exact hdisk'

structure Updates (d : Device) (free : Word) (j : Nat) (data : Nat → Byte) (disk disk' : Disk) :
    Prop where
  block : ∀ i q, d.Copy i → q < d.fatsize → q / d.fatblocksize = j →
    disk' (d.addr i q) = data (q % d.fatblocksize)
  info : ∀ p, d.Info p →
    disk' p = (free >>> (8 * (p - (d.fsinfo * devBsize + fsinfree)))).setWidth 8
  others : ∀ p, (∀ i q, d.Copy i → q < d.fatsize → q / d.fatblocksize = j → d.addr i q ≠ p) →
    ¬d.Info p → disk' p = disk p

def putInfo (d : Device) (free : Word) (disk : Disk) : Disk := fun p =>
  if d.fsinfo * devBsize + fsinfree ≤ p ∧ p < d.fsinfo * devBsize + fsinfree + 4 then
    (free >>> (8 * (p - (d.fsinfo * devBsize + fsinfree)))).setWidth 8
  else disk p

theorem bwrite_putInfo (d : Device) (free : Word) (disk : Disk) :
    disk.bwrite d.fsinfo d.fsiSize (putulong (disk.bread d.fsinfo) fsinfree free) =
      d.putInfo free disk := by
  have hsize : fsinfree + 4 ≤ d.fsiSize := by
    have hle : 1024 ≤ d.fsiSize := by
      rw [fsiSize, Nat.shiftLeft_eq]
      exact Nat.le_mul_of_pos_right 1024 (Nat.two_pow_pos _)
    rw [fsinfree]
    omega
  funext p
  rw [Disk.bwrite, putInfo, putulong_apply]
  by_cases hp : d.fsinfo * devBsize + fsinfree ≤ p ∧ p < d.fsinfo * devBsize + fsinfree + 4
  · rw [if_pos hp, if_pos (by omega), if_pos (by omega), Nat.sub_sub]
  · rw [if_neg hp]
    split
    · rw [if_neg (by omega), Disk.bread, Nat.add_sub_cancel' (by omega)]
    · rfl

theorem updateInfo_eq (h : d.Apart) (hj : j * d.fatblocksize < d.fatsize) (free : Word)
    (disk : Disk) : ∃ disk', d.updateInfo free disk (d.blk d.curfat j) = some disk' ∧
      (∀ p, d.Info p →
        disk' p = (free >>> (8 * (p - (d.fsinfo * devBsize + fsinfree)))).setWidth 8) ∧
      ∀ p, ¬d.Info p → disk' p = disk p := by
  by_cases hne : d.fsinfo ≠ 0
  · have hblk : d.fsinfo ≠ d.blk d.curfat j := by
      intro heq
      have hsize := blkSize_ge hj
      obtain ⟨q, hq, -, hplace⟩ := (mem_block hj d.curfat (d.fsinfo * devBsize + fsinfree)).mp
        (by rw [heq]; simp only [fsinfree, devBsize] at hsize ⊢; omega)
      refine h.fsinfo d.curfat q (.inl rfl) hq ?_
      rw [hplace]
      exact ⟨hne, by omega, by omega⟩
    refine ⟨d.putInfo free disk, ?_, fun p hp => if_pos hp.2,
      fun p hp => if_neg fun h => hp ⟨hne, h⟩⟩
    rw [updateInfo, if_pos hne, if_neg hblk, bwrite_putInfo]
  · exact ⟨disk, by rw [updateInfo, if_neg hne], fun p hp => absurd hp.1 hne, fun p _ => rfl⟩

theorem updatefats_updates (h : d.Apart) (hj : j * d.fatblocksize < d.fatsize) (free : Word)
    (data : Nat → Byte) (disk : Disk) :
    ∃ disk', d.updatefats free disk (d.blk d.curfat j) (d.blkSize j) data = some disk' ∧
      Updates d free j data disk disk' := by
  obtain ⟨disk₁, hdisk₁, hinfo, hrest⟩ := updateInfo_eq h hj free disk
  have hcopies : ∃ disk₂, (if d.fatmirror then
      d.updateCopies (d.blk d.curfat j) (d.blkSize j) data (d.fats - 1) (d.blk d.curfat j) disk₁
      else some disk₁) = some disk₂ ∧
      Written d (fun i => d.Copy i ∧ i ≠ d.curfat) j data disk₁ disk₂ := by
    by_cases hmirror : d.fatmirror = true
    · have hcur := d.first hmirror
      rw [if_pos hmirror, hcur]
      by_cases hfats : d.fats = 0
      · rw [hfats]
        refine ⟨disk₁, rfl, .none fun i hi => ?_⟩
        rcases hi.1 with heq | ⟨-, hlt⟩
        · exact hi.2 (heq.trans hcur)
        · omega
      · obtain ⟨disk₂, hdisk₂, hw⟩ := updateCopies_written h hj hmirror data disk₁
          (by omega : 0 + (d.fats - 1) < d.fats)
        refine ⟨disk₂, hdisk₂, hw.congr fun i => ?_⟩
        rw [Copy, hcur]
        constructor
        · exact fun hi => ⟨.inr ⟨hmirror, by omega⟩, by omega⟩
        · exact fun hi => by omega
    · refine ⟨disk₁, if_neg hmirror, .none fun i hi => hi.2 ?_⟩
      exact hi.1.resolve_right fun hi => hmirror hi.1
  obtain ⟨disk₂, hdisk₂, hw⟩ := hcopies
  have hw' := (hw.trans h (fun i hi => hi.1) (fun i hi => .inl hi)
    (bwrite_written hj d.curfat data disk₂)).congr fun i => show _ ↔ d.Copy i by
      constructor
      · rintro (hi | rfl)
        · exact hi.1
        · exact .inl rfl
      · exact fun hi => or_iff_not_imp_right.mpr fun hne => ⟨hi, hne⟩
  refine ⟨disk₂.bwrite (d.blk d.curfat j) (d.blkSize j) data, ?_, ?_⟩
  · rw [updatefats, hdisk₁, Option.bind_some, hdisk₂]
    rfl
  · constructor
    · exact hw'.block
    · intro p hp
      rw [hw'.others p fun i q hi hq _ heq => h.fsinfo i q hi hq (heq ▸ hp)]
      exact hinfo p hp
    · exact fun p hp hnot => (hw'.others p hp).trans (hrest p hnot)

section Updates

variable (h : d.Apart)

theorem Updates.at (h : d.Apart) (hup : Updates d free j data disk disk') (hi : d.Copy i)
    (hq : q < d.fatsize) : d.fat disk' i q =
      if q / d.fatblocksize = j then data (q % d.fatblocksize) else d.fat disk i q := by
  split
  · next hj => exact hup.block i q hi hq hj
  · next hj =>
    refine hup.others _ (fun k r hk hr hrj heq => hj ?_) (h.fsinfo i q hi hq)
    obtain ⟨-, rfl⟩ := h.fats k i r q hk hi hr hq heq
    exact hrj

theorem Updates.unique (hup : Updates d free j data disk disk')
    (hup' : Updates d free j data disk disk'') : disk' = disk'' := by
  funext p
  by_cases hp : ∃ i q, d.Copy i ∧ q < d.fatsize ∧ q / d.fatblocksize = j ∧ d.addr i q = p
  · obtain ⟨i, q, hi, hq, hqj, rfl⟩ := hp
    rw [hup.block i q hi hq hqj, hup'.block i q hi hq hqj]
  · have hnot : ∀ i q, d.Copy i → q < d.fatsize → q / d.fatblocksize = j → d.addr i q ≠ p :=
      fun i q hi hq hqj heq => hp ⟨i, q, hi, hq, hqj, heq⟩
    by_cases hinfo : d.Info p
    · rw [hup.info p hinfo, hup'.info p hinfo]
    · rw [hup.others p hnot hinfo, hup'.others p hnot hinfo]

theorem Updates.again (hup : Updates d free j data disk disk')
    (hup' : Updates d free j data' disk' disk'') : Updates d free j data' disk disk'' where
  block := hup'.block
  info := hup'.info
  others p hp hinfo := (hup'.others p hp hinfo).trans (hup.others p hp hinfo)

theorem mod_lt_blkSize (hq : q < d.fatsize) :
    q % d.fatblocksize < d.blkSize (q / d.fatblocksize) := by
  have hlt := mod_lt q d.fatblocksize_pos
  have hdiv := div_add_mod' q d.fatblocksize
  rw [blkSize_eq]
  omega

theorem Updates.congr (hup : Updates d free j data disk disk')
    (heq : ∀ r < d.blkSize j, data r = data' r) : Updates d free j data' disk disk' where
  block i q hi hq hqj := by
    rw [hup.block i q hi hq hqj]
    subst hqj
    exact heq _ (mod_lt_blkSize hq)
  info := hup.info
  others := hup.others

end Updates

end Device

namespace Device

theorem bread_block (disk : Disk) (i : Nat) (hr : r < d.fatblocksize) :
    disk.bread (d.blk i j) r = d.fat disk i (j * d.fatblocksize + r) := by
  rw [Disk.bread, fat, addr, Nat.mul_comm j, mul_add_div d.fatblocksize_pos,
    mul_add_mod, div_eq_of_lt hr, mod_eq_of_lt hr, Nat.add_zero]

theorem readEntry_bread (h : cn ≤ d.maxcluster) (disk : Disk) (i : Nat) :
    d.readEntry (disk.bread (d.blk i (d.fatofs cn / d.fatblocksize))) cn
      (d.fatofs cn % d.fatblocksize) = d.entry (d.fat disk i) cn := by
  have hblock := entry_block h
  refine readEntry_shift fun r hr => ?_
  rw [bread_block disk i (by omega), ← Nat.add_assoc, div_add_mod']

theorem fatofs_lt (h : cn ≤ d.maxcluster) : d.fatofs cn < d.fatsize := by
  have hbytes := entryBytes_bounds h
  have hpos : 0 < d.entryBytes := by
    rw [entryBytes]
    split <;> decide
  omega

theorem fatentry_get (h : d.InRange cn) (free : Word) (disk : Disk) (new : Word) :
    d.fatentry free false disk cn new =
      some (.ok (d.force (d.entry (d.fat disk d.curfat) cn), disk)) := by
  obtain ⟨hfirst, hmax⟩ := h
  rw [fatentry, if_neg (by omega), fatblock_eq (fatofs_lt hmax)]
  dsimp only
  rw [readEntry_bread hmax]
  rfl

theorem fatentry_set (h : d.Apart) (hin : d.InRange cn) (free : Word) (disk : Disk) (new : Word) :
    ∃ disk', d.fatentry free true disk cn new =
        some (.ok (d.force (d.entry (d.fat disk d.curfat) cn), disk')) ∧
      Updates d free (d.fatofs cn / d.fatblocksize)
        (d.writeEntry (disk.bread (d.blk d.curfat (d.fatofs cn / d.fatblocksize))) cn
          (d.fatofs cn % d.fatblocksize) new) disk disk' := by
  obtain ⟨hfirst, hmax⟩ := hin
  have hlt := fatofs_lt hmax
  have hle := div_mul_le_self (d.fatofs cn) d.fatblocksize
  obtain ⟨disk', hdisk', hup⟩ := updatefats_updates h
    (by omega : d.fatofs cn / d.fatblocksize * d.fatblocksize < d.fatsize) free
    (d.writeEntry (disk.bread (d.blk d.curfat (d.fatofs cn / d.fatblocksize))) cn
      (d.fatofs cn % d.fatblocksize) new) disk
  refine ⟨disk', ?_, hup⟩
  rw [fatentry, if_neg (by omega), fatblock_eq hlt]
  dsimp only
  rw [readEntry_bread hmax, hdisk']
  rfl

theorem Updates.entry (hup : Updates d free (d.fatofs cn / d.fatblocksize)
      (d.writeEntry (disk.bread (d.blk d.curfat (d.fatofs cn / d.fatblocksize))) cn
        (d.fatofs cn % d.fatblocksize) new) disk disk')
    (h : d.Apart) (hmax : cn ≤ d.maxcluster) (hq : q < d.fatsize) : d.fat disk' d.curfat q =
      d.writeEntry (d.fat disk d.curfat) cn (d.fatofs cn) new q := by
  have hblock := entry_block hmax
  have hdiv := div_add_mod' (d.fatofs cn) d.fatblocksize
  rw [hup.at h (.inl rfl) hq]
  split
  · next hj =>
    have hmod := mod_lt q d.fatblocksize_pos
    have hq' := div_add_mod' q d.fatblocksize
    rw [writeEntry_block _ cn new (fun r hr => bread_block disk d.curfat hr) hblock hmod, hdiv]
    congr 1
    rw [← hj, hq']
  · next hj =>
    refine (writeEntry_of_ne new fun hin => hj ?_).symm
    refine Nat.div_eq_of_lt_le (by omega) ?_
    rw [Nat.succ_mul]
    omega

def setRun (d : Device) (free fillwith : Word) : Nat → Nat → Disk → Option Disk
  | 0, _, disk => some disk
  | count + 1, start, disk =>
    match d.fatentry free true disk start
        (if count > 0 then BitVec.ofNat 32 (start + 1) else fillwith) with
    | some (.ok (_, disk)) => setRun d free fillwith count (start + 1) disk
    | _ => none

theorem chainEntry_eq (v : Layout) (data : Nat → Byte) (cn bo : Nat) (new : Word) :
    v.chainEntry data (cn + 1) bo new = v.writeEntry data cn bo new := by
  rw [chainEntry, writeEntry]
  cases v.type with
  | fat12 =>
    rcases mod_two_eq_zero_or_one cn with heven | hodd
    · have hnext : (cn + 1) % 2 = 1 := by omega
      simp [heven, hnext]
    · have hnext : (cn + 1) % 2 = 0 := by omega
      simp [hodd, hnext]
  | fat16 => rfl
  | fat32 => rfl

theorem entry_blkSize (h : cn ≤ d.maxcluster) :
    d.fatofs cn % d.fatblocksize + d.entryBytes ≤ d.blkSize (d.fatofs cn / d.fatblocksize) := by
  have hblock := entry_block h
  have hbytes := entryBytes_bounds h
  have hdiv := div_add_mod' (d.fatofs cn) d.fatblocksize
  rw [blkSize_eq]
  omega

theorem Updates.bread (hup : Updates d free j data disk disk') (h : d.Apart) {r : Nat}
    (hr : r < d.blkSize j) : disk'.bread (d.blk d.curfat j) r = data r := by
  rw [blkSize_eq] at hr
  have hblock : (j * d.fatblocksize + r) / d.fatblocksize = j := by
    rw [Nat.mul_comm, mul_add_div d.fatblocksize_pos, div_eq_of_lt (by omega), Nat.add_zero]
  rw [bread_block disk' d.curfat (by omega), hup.at h (.inl rfl) (by omega), if_pos hblock,
    Nat.mul_comm, mul_add_mod, mod_eq_of_lt (by omega)]

/-- The inner loop of `fatchain` does to the buffer what setting the entries does to the disk.
Here `disk₀` is the disk that the buffer has been read from, and `disk` has the entries before
`start`. -/
theorem fatchainBlock_sets (h : d.Apart) {bo : Nat} {disk₀ : Disk} (fillwith : Word)
    (hfirst : clustFirst ≤ start) (hcount : 0 < count) (hmax : start + count ≤ d.maxcluster + 1)
    (hj : d.fatofs start / d.fatblocksize = j) (hbo : d.fatofs start % d.fatblocksize = bo)
    (hdata : ∀ r < d.blkSize j, disk.bread (d.blk d.curfat j) r = data r)
    (hdisk : ∀ data' disk', Updates d free j data' disk disk' →
      Updates d free j data' disk₀ disk') : ∃ k data' disk', 0 < k ∧ k ≤ count ∧
      d.fatchainBlock fillwith (d.blkSize j) count start bo data = (start + k, count - k, data') ∧
      Updates d free j data' disk₀ disk' ∧ d.setRun free fillwith count start disk =
        d.setRun free fillwith (count - k) (start + k) disk' := by
  induction count generalizing start bo data disk with
  | zero => exact absurd hcount (Nat.lt_irrefl 0)
  | succ count ih =>
    have hin : d.InRange start := ⟨hfirst, by omega⟩
    obtain ⟨new, hnew⟩ : ∃ new, new =
      if count > 0 then BitVec.ofNat 32 (start + 1) else fillwith := ⟨_, rfl⟩
    obtain ⟨disk₁, hdisk₁, hup⟩ := fatentry_set h hin free disk new
    rw [hj, hbo] at hup
    have hsize := entry_blkSize hin.2
    rw [hj, hbo] at hsize
    have hup₁ : Updates d free j (d.writeEntry data start bo new) disk disk₁ :=
      hup.congr fun r hr => by
        have heq := writeEntry_block 0 start new
          (fun r hr => (hdata r hr).trans (congrArg data (Nat.zero_add r).symm)) hsize hr
        rwa [Nat.zero_add, Nat.zero_add] at heq
    have hset : d.setRun free fillwith (count + 1) start disk =
        d.setRun free fillwith count (start + 1) disk₁ := by
      rw [setRun, ← hnew, hdisk₁]
    rw [fatchainBlock, ← hnew, chainEntry_eq, hset]
    by_cases hend : bo + d.step (start + 1) ≥ d.blkSize j
    · rw [if_pos hend]
      exact ⟨1, _, disk₁, Nat.one_pos, by omega, rfl, hdisk _ _ hup₁, rfl⟩
    · rw [if_neg hend]
      by_cases hzero : count = 0
      · subst hzero
        exact ⟨1, _, disk₁, Nat.one_pos, Nat.le_refl 1, rfl, hdisk _ _ hup₁, rfl⟩
      · have hlt : bo + d.step (start + 1) < d.fatblocksize := by
          rw [blkSize_eq] at hend
          omega
        have hofs : d.fatofs (start + 1) = d.fatblocksize * j + (bo + d.step (start + 1)) := by
          rw [fatofs_succ (by omega), ← div_add_mod (d.fatofs start) d.fatblocksize, hj, hbo,
            Nat.add_assoc]
        obtain ⟨k, data', disk', hk, hle, hblock, hup', hrun⟩ := @ih disk₁
          (d.writeEntry data start bo new) (start + 1) _ (by omega) (Nat.pos_of_ne_zero hzero)
          (by omega)
          (by rw [hofs, mul_add_div d.fatblocksize_pos, div_eq_of_lt hlt, Nat.add_zero])
          (by rw [hofs, mul_add_mod, mod_eq_of_lt hlt])
          (fun r hr => hup₁.bread h hr)
          (fun data' disk' hup' => hdisk data' disk' (hup₁.again hup'))
        refine ⟨k + 1, data', disk', succ_pos k, by omega, ?_, hup', ?_⟩
        · rw [hblock, Nat.add_sub_add_right, Nat.add_assoc, Nat.add_comm 1 k]
        · rw [hrun, Nat.add_sub_add_right, Nat.add_assoc, Nat.add_comm 1 k]

section

variable (h : d.Apart) (free fillwith : Word) (disk : Disk) (hfirst : clustFirst ≤ start)
  (hmax : start + count ≤ d.maxcluster + 1)

include h hfirst hmax

theorem fatchainLoop_sets :
    ∃ disk', Returns (fun n => d.fatchainLoop free fillwith n start count disk) disk' ∧
      d.setRun free fillwith count start disk = some disk' := by
  induction hcount : count using Nat.strongRecOn generalizing start count disk with
  | ind x ih =>
    subst hcount
    by_cases hpos : count > 0
    · have hlt := fatofs_lt (by omega : start ≤ d.maxcluster)
      have hle := div_mul_le_self (d.fatofs start) d.fatblocksize
      obtain ⟨k, data', disk₁, hk, hle', hblock, hup, hrun⟩ :=
        fatchainBlock_sets h fillwith hfirst hpos hmax rfl rfl (fun _ _ => rfl)
          (fun _ _ hup => hup)
      obtain ⟨disk₂, hdisk₂, hup'⟩ := updatefats_updates h
        (by omega : d.fatofs start / d.fatblocksize * d.fatblocksize < d.fatsize) free data' disk
      obtain rfl := hup'.unique hup
      obtain ⟨disk', hreturns, hrun'⟩ := @ih (count - k) (by omega) (start + k) _ disk₂
        (by omega) (by omega) rfl
      refine ⟨disk', hreturns.round fun n => ?_, hrun.trans hrun'⟩
      rw [fatchainLoop, if_pos hpos, fatblock_eq hlt]
      dsimp only
      rw [hblock]
      rw [hdisk₂, Option.bind_some]
    · obtain rfl : count = 0 := by omega
      exact ⟨disk, (Returns.some disk).round fun n => by rw [fatchainLoop, if_neg hpos], rfl⟩

theorem fatchain_sets :
    ∃ disk', Returns (fun n => d.fatchain free n disk start count fillwith) (.ok disk') ∧
      d.setRun free fillwith count start disk = some disk' := by
  obtain ⟨disk', hreturns, hrun⟩ := fatchainLoop_sets h free fillwith disk hfirst hmax
  have hsub : sub32 (start + count) 1 = start + count - 1 := by
    have hlt := d.maxcluster_lt
    rw [sub32]
    rw [clustFirst] at hfirst
    omega
  refine ⟨disk', (hreturns.map Except.ok).congr fun n => ?_, hrun⟩
  rw [fatchain, hsub, if_neg (by omega)]

end

end Device

section Decode

variable {v : Layout} {m : Nat → Byte} {s : Mount}

theorem freeEntry_eq (v : Layout) (data : Nat → Byte) (cn bo : Nat) :
    (v.freeEntry data cn bo).1 &&& v.type.fatmask = v.readEntry data cn bo ∧
      (v.freeEntry data cn bo).2 = v.writeEntry data cn bo msdosfsfree := by
  rw [freeEntry, readEntry, writeEntry]
  cases v.type with
  | fat12 =>
    rcases mod_two_eq_zero_or_one cn with heven | hodd
    · simp [heven]
    · simp [hodd]
  | fat16 => simp
  | fat32 => simp [BitVec.or_comm]

theorem fillEntry_eq {bp : Option Nat} (hbp : BlockOf v cn bp) (hcn : cn ≤ v.maxcluster) :
    v.fillEntry m cn bp = v.entry m cn := by
  rw [fillEntry, fillBlock]
  rw [place_of_blockOf hbp hcn]
  exact congrArg (v.readEntry m cn) (v.place_fatblock (v.fatofs cn))

theorem behind_eq (v : Layout) (m : Nat → Byte) (cn : Word) :
    v.behind m cn = v.force (v.entry m cn.toNat) := by
  rw [behind, v.entryPlace_eq]
  rfl

end Decode

theorem reserved_force (v : Layout) (x : Word) : v.Reserved (v.force x) ↔ v.Reserved x := by
  rw [force]
  split
  · next hx =>
    refine iff_of_true ?_ hx
    rw [Reserved, BitVec.or_assoc, BitVec.or_self]
    exact hx
  · exact Iff.rfl

theorem entry_congr (h : ∀ q < v.fatsize, m q = m' q)
    (hcn : cn ≤ v.maxcluster) : v.entry m cn = v.entry m' cn := by
  have hbytes := entryBytes_bounds hcn
  exact readEntry_shift fun r hr => h _ (by omega)

theorem writeEntry_high {e : Nat} (htype : v.type = .fat32)
    (hcn : cn ≤ v.maxcluster) (he : e ≤ v.maxcluster)
    (h : ∀ q < v.fatsize, m' q = v.writeEntry m cn (v.fatofs cn) new q) :
    getulong m' (v.fatofs e) >>> 28 = getulong m (v.fatofs e) >>> 28 := by
  have hbytes := entryBytes_bounds he
  have hbits := fatofs_bits he
  rw [entryBytes, if_pos htype] at hbytes
  rw [htype, if_neg (by simp), Nat.add_zero] at hbits
  have heq : getulong m' (v.fatofs e) =
      getulong (v.writeEntry m cn (v.fatofs cn) new) (v.fatofs e) :=
    getulong_shift fun r hr => h _ (by omega)
  refine eq_of_getLsbD_eq fun j hj => ?_
  rw [heq, getLsbD_ushiftRight, getLsbD_ushiftRight, getulong_bit, getulong_bit,
    writeEntry_bit hcn, hbits, htype]
  by_cases hhigh : 28 + j < 32
  · rw [if_neg]
    simp only [stride, width]
    omega
  · rw [decide_eq_false hhigh, Bool.false_and, Bool.false_and]

/-- The current FAT is the array `get`: an entry that is set changes alone and in all copies, a
chain is a run of entries that are set, and the other functions read the same numbers. -/
structure IsArray (d : Device) (free : Word) (disk : Disk) (get : Nat → Word) : Prop where
  gets : ∀ c, d.InRange c → ∀ new,
    d.fatentry free false disk c new = some (.ok (get c, disk))
  set : ∀ c, d.InRange c → ∀ new, ∃ disk',
    d.fatentry free true disk c new = some (.ok (get c, disk')) ∧
    (∀ e, d.InRange e → ∀ new', d.fatentry free false disk' e new' =
      some (.ok (if e = c then d.force (new &&& d.type.fatmask) else get e, disk'))) ∧
    (d.type = .fat32 → ∀ e, d.InRange e →
      getulong (d.fat disk' d.curfat) (d.fatofs e) >>> 28 =
        getulong (d.fat disk d.curfat) (d.fatofs e) >>> 28) ∧
    (d.fatmirror = true → ∀ i < d.fats, ∀ q < d.fatsize,
      q / d.fatblocksize = d.fatofs c / d.fatblocksize → d.fat disk' i q = d.fat disk' 0 q)
  chain : ∀ start count fillwith, clustFirst ≤ start → start + count ≤ d.maxcluster + 1 →
    ∃ disk', Returns (fun n => d.fatchain free n disk start count fillwith) (.ok disk') ∧
      d.setRun free fillwith count start disk = some disk'
  pcbmap : ∀ c, d.InRange c → d.behind (d.fat disk d.curfat) (BitVec.ofNat 32 c) = get c
  fillinusemap : ∀ c, d.InRange c → ∀ bp, BlockOf d.toLayout c bp →
    d.force (d.fillEntry (d.fat disk d.curfat) c bp) = get c ∧
      (¬d.Reserved (get c) → d.fillEntry (d.fat disk d.curfat) c bp = get c)
  freeclusterchain : ∀ c, d.InRange c → ¬d.Reserved (get c) →
    d.freeNext (d.fat disk d.curfat) c (d.fatofs c) = get c

theorem fatentry_array (h : d.Apart) (free : Word) (disk : Disk) :
    ∃ get : Nat → Word, IsArray d free disk get := by
  refine ⟨fun c => d.force (d.entry (d.fat disk d.curfat) c),
    fun c hc new => Device.fatentry_get hc free disk new, fun c hc new => ?_,
    fun start count fillwith => Device.fatchain_sets h free fillwith disk, fun c hc => ?_,
    fun c hc bp hbp => ?_, fun c hc hres => ?_⟩
  · obtain ⟨disk', hdisk', hup⟩ := Device.fatentry_set h hc free disk new
    have hfat : ∀ q < d.fatsize, d.fat disk' d.curfat q =
        d.writeEntry (d.fat disk d.curfat) c (d.fatofs c) new q :=
      fun q hq => hup.entry h hc.2 hq
    refine ⟨disk', hdisk', fun e he new' => ?_, fun htype e he => ?_,
      fun hmirror i hi q hq hqj => ?_⟩
    · rw [Device.fatentry_get he, entry_congr hfat he.2, entry_writeEntry hc.2 he.2]
      split <;> rfl
    · exact writeEntry_high htype hc.2 he.2 hfat
    · have hfirst : d.Copy 0 := .inl (d.first hmirror).symm
      exact (hup.block i q (.inr ⟨hmirror, hi⟩) hq hqj).trans
        (hup.block 0 q hfirst hq hqj).symm
  · have hlt := d.maxcluster_lt
    have hle := hc.2
    have hcn : (BitVec.ofNat 32 c).toNat = c := by
      rw [toNat_ofNat]
      exact mod_eq_of_lt (by omega)
    rw [behind_eq, hcn]
  · rw [fillEntry_eq hbp hc.2]
    refine ⟨rfl, fun hres => ?_⟩
    rw [reserved_force] at hres
    exact (if_neg hres).symm
  · rw [reserved_force] at hres
    have hforce : d.force (d.entry (d.fat disk d.curfat) c) = d.entry (d.fat disk d.curfat) c :=
      if_neg hres
    rw [hforce, freeNext, (freeEntry_eq _ _ _ _).1]
    exact if_neg hres

section Examples

def floppyDevice : Device where
  toLayout := floppy.toLayout
  fatblk := 1
  curfat := 0
  fats := 1
  fatmirror := true
  fsinfo := 0
  secs := by decide
  first := fun _ => rfl

theorem floppyDevice_apart : floppyDevice.Apart where
  fats i i' q q' hi hi' hq hq' heq := by
    have hcopy : ∀ i, floppyDevice.Copy i → i = 0 := by
      rintro i (rfl | ⟨-, hlt⟩)
      · rfl
      · exact lt_one_iff.mp hlt
    have haddr : ∀ q < 512, floppyDevice.addr 0 q = 512 + q := fun q hq => by
      have hsize : floppyDevice.fatblocksize = 1536 := rfl
      rw [Device.addr, hsize, div_eq_of_lt (by omega), mod_eq_of_lt (by omega)]
      rfl
    rw [hcopy i hi, hcopy i' hi', haddr q hq, haddr q' hq'] at heq
    exact ⟨(hcopy i hi).trans (hcopy i' hi').symm, Nat.add_left_cancel heq⟩
  fsinfo _ _ _ _ hinfo := hinfo.1 rfl

theorem bigDevice_sector : 0 < 512 ∧ devBsize ∣ 512 := by decide

theorem bigDevice_entries (fatSecs : Nat) (hsecs : 1024 ≤ fatSecs ∧ fatSecs < 2 ^ 32) :
    65536 < fatSecs * devBsize / FatType.fat32.fatmult * FatType.fat32.fatdiv := by
  simp only [FatType.fatmult, FatType.fatdiv, devBsize]
  omega

theorem bigDevice_offsets : 65536 * FatType.fat32.fatmult < 2 ^ 32 := by decide

def bigDevice (fatSecs fats fsinfo : Nat) (hsecs : 1024 ≤ fatSecs ∧ fatSecs < 2 ^ 32) : Device where
  type := .fat32
  bytesPerSec := 512
  fatSecs
  rootdirsize := 0
  maxcluster := 65536
  cnshift := 12
  sector := bigDevice_sector
  entries := bigDevice_entries fatSecs hsecs
  offsets := bigDevice_offsets
  fatblk := 32
  curfat := 0
  fats
  fatmirror := true
  fsinfo
  secs := hsecs.2
  first := fun _ => rfl

/-- The disk whose second block of the FAT begins with the signatures of an FSInfo sector. -/
def signedDisk : Disk := fun p =>
  if 160 * 512 ≤ p then
    ([(0, 0x52), (1, 0x52), (2, 0x61), (3, 0x41), (484, 0x72), (485, 0x72), (486, 0x41),
      (487, 0x61), (510, 0x55), (511, 0xaa), (1022, 0x55), (1023, 0xaa)].lookup
        (p - 160 * 512)).getD 0
  else 0

def gets (o : Option (Except Errno (Word × Disk))) : Option Word :=
  match o with
  | some (.ok (x, _)) => some x
  | _ => none

def getAfter (d : Device) (free : Word) (disk : Disk) (c : Nat) (new : Word) (e : Nat) :
    Option Word :=
  match d.fatentry free true disk c new with
  | some (.ok (_, disk)) => gets (d.fatentry free false disk e 0)
  | _ => none

def goodDisk : Disk := fun p => goodFat (p - devBsize)

theorem fatentry_array_floppy : ∃ get : Nat → Word, IsArray floppyDevice 0 goodDisk get :=
  fatentry_array floppyDevice_apart 0 goodDisk

/-- The end of a chain is not widened by `fillinusemap`, nor by `freeclusterchain`.  Setting an
entry changes another one where the free count or another copy of the FAT is in its place. -/
theorem fatentry_array_fails :
    (gets (floppyDevice.fatentry 0 false goodDisk 3 0) = some 0xffffffff ∧
      floppyDevice.fillEntry (floppyDevice.fat goodDisk 0) 3 none = 0xfff ∧
      floppyDevice.freeNext (floppyDevice.fat goodDisk 0) 3 (floppyDevice.fatofs 3) = 0xfff) ∧
    (gets ((bigDevice 1024 1 160 (by decide)).fatentry 5 false signedDisk 16506 0) = some 0 ∧
      getAfter (bigDevice 1024 1 160 (by decide)) 5 signedDisk 2 7 16506 = some 5) ∧
    gets ((bigDevice 2863311616 4 0 (by decide)).fatentry 5 false (fun _ => 0) 32770 0) = some 0 ∧
      getAfter (bigDevice 2863311616 4 0 (by decide)) 5 (fun _ => 0) 2 7 32770 = some 7 := by
  refine ⟨⟨?_, ?_, ?_⟩, ⟨?_, ?_⟩, ?_, ?_⟩ <;> decide

end Examples

end Mbsd.Msdosfs
