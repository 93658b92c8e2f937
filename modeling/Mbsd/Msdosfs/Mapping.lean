import Mbsd.Msdosfs.Files

/-! Where `pcbmap` gets to by the numbers that the FAT of an arbitrary volume holds. -/

namespace Mbsd.Msdosfs

open Layout List Nat

variable {v : Layout} {m : Nat → Byte} {dep : Denode} {cn prev : Word} {r i j k findcn : Nat}

namespace Layout

def mapStart (dep : Denode) (findcn : Nat) : Nat × Nat :=
  match dep.fcLookup findcn with
  | some c => (c.frcn, c.fsrcn)
  | none => (0, dep.startCluster)

def Readable (v : Layout) (cn : Word) : Prop :=
  (v.fatblock (v.fatofs cn.toNat)).2.2 < (v.fatblock (v.fatofs cn.toNat)).2.1

instance (v : Layout) (cn : Word) : Decidable (v.Readable cn) := inferInstanceAs (Decidable (_ < _))

def behind (v : Layout) (m : Nat → Byte) (cn : Word) : Word :=
  v.force (v.readEntry m cn.toNat (v.entryPlace cn.toNat))

/-- The blocks that the loop of `pcbmap` reads, each by its first sector in the current FAT and its
size. -/
def blocksRead (v : Layout) (m : Nat → Byte) : Nat → Word → List (Nat × Nat)
  | 0, _ => []
  | r + 1, cn =>
    if v.Reserved cn then []
    else
      let (bn, bsize, bo) := v.fatblock (v.fatofs cn.toNat)
      (bn, bsize) :: if bo ≥ bsize then [] else
        blocksRead v m r (v.force (v.readEntry m cn.toNat (place bn bo)))

end Layout

/-- When `pcbmap` returns 0 the cluster is one of the volume, and the blocks that it has read lie in
the current FAT. -/
def Inside (v : Layout) (m : Nat → Byte) (dep : Denode) (findcn : Nat) : Prop :=
  ∀ cn dep', v.pcbmap m dep findcn = (none, some cn, dep') →
    v.InRange cn ∧ ∀ b ∈ v.blocksRead m (findcn - (mapStart dep findcn).1)
      (BitVec.ofNat 32 (mapStart dep findcn).2), b.1 + b.2 / devBsize ≤ v.fatSecs

/-- The numbers of the chain from `cn` on, over at most that many links, are clusters of the volume
up to an end mark. -/
def ChainWithin (v : Layout) (m : Nat → Byte) : Nat → Word → Prop
  | 0, cn => v.Msdosfseof cn ∨ v.InRange cn.toNat
  | n + 1, cn => v.Msdosfseof cn ∨
    v.InRange cn.toNat ∧ (v.Reserved cn ∨ ChainWithin v m n (v.behind m cn))

instance decidableChainWithin : (n : Nat) → (cn : Word) → Decidable (ChainWithin v m n cn)
  | 0, _ => inferInstanceAs (Decidable (_ ∨ _))
  | n + 1, cn =>
    have := decidableChainWithin n (v.behind m cn)
    inferInstanceAs (Decidable (_ ∨ _ ∧ (_ ∨ ChainWithin v m n (v.behind m cn))))

/-- The chain that a file has within `findcn` clusters is one of the volume. -/
def Chained (v : Layout) (m : Nat → Byte) (dep : Denode) (findcn : Nat) : Prop :=
  if dep.startCluster = msdosfsroot then
    dep.directory → findcn <<< v.cnshift % 2 ^ 32 ≥ dep.fileSize
  else
    ChainWithin v m (findcn - (mapStart dep findcn).1) (BitVec.ofNat 32 (mapStart dep findcn).2)

section Cache

def closer (dep : Denode) (findcn : Nat) (closest : Option Fatcache) (s : Fin 3) :
    Option Fatcache :=
  if (dep.fc s).frcn ≠ fceEmpty ∧ (dep.fc s).frcn ≤ findcn ∧
      closest.all fun c : Fatcache => (dep.fc s).frcn > c.frcn then
    some (dep.fc s)
  else closest

variable {L : List (Fin 3)} {acc : Option Fatcache}

theorem foldl_closer_le (hacc : ∀ c ∈ acc, c.frcn ≤ findcn) :
    ∀ c ∈ L.foldl (closer dep findcn) acc, c.frcn ≤ findcn := by
  induction L generalizing acc with
  | nil => exact hacc
  | cons s L ih =>
    refine ih fun c hc => ?_
    rw [closer] at hc
    split at hc
    next h =>
      rw [Option.mem_some_iff] at hc
      exact hc ▸ h.2.1
    next => exact hacc c hc

theorem foldl_closer_ge (a : Fatcache) :
    ∃ c, L.foldl (closer dep findcn) (some a) = some c ∧ a.frcn ≤ c.frcn := by
  induction L generalizing a with
  | nil => exact ⟨a, rfl, Nat.le_refl _⟩
  | cons s L ih =>
    rw [foldl_cons, closer]
    split
    next h =>
      obtain ⟨c, hc, hle⟩ := ih (dep.fc s)
      exact ⟨c, hc, Nat.le_trans (Nat.le_of_lt (of_decide_eq_true h.2.2)) hle⟩
    next => exact ih a

/-- An entry that is the closest one for `findcn` is so for all clusters from its own one on. -/
theorem foldl_closer_eq (hk : ∀ c ∈ L.foldl (closer dep findcn) acc, c.frcn ≤ k)
    (hle : k ≤ findcn) : L.foldl (closer dep k) acc = L.foldl (closer dep findcn) acc := by
  induction L generalizing acc with
  | nil => rfl
  | cons s L ih =>
    have hstep : closer dep k acc s = closer dep findcn acc s := by
      by_cases hs : (dep.fc s).frcn ≤ k
      · simp only [closer, hs, Nat.le_trans hs hle]
      · have hnot : closer dep findcn acc s = acc := by
          refine if_neg fun h => hs ?_
          obtain ⟨c, hc, hge⟩ := @foldl_closer_ge dep findcn L (dep.fc s)
          rw [foldl_cons, closer, if_pos h] at hk
          exact Nat.le_trans hge (hk c hc)
        rw [hnot, closer, if_neg fun h => hs h.2.1]
    rw [foldl_cons, foldl_cons, hstep]
    exact ih hk

theorem mapStart_le : (mapStart dep findcn).1 ≤ findcn := by
  have hle := @foldl_closer_le dep findcn (finRange 3) none (by simp)
  rw [mapStart, show dep.fcLookup findcn = (finRange 3).foldl (closer dep findcn) none from rfl]
  split
  next c hc => exact hle c hc
  next => exact Nat.zero_le _

theorem mapStart_eq (hk : (mapStart dep findcn).1 ≤ k) (hle : k ≤ findcn) :
    mapStart dep k = mapStart dep findcn := by
  have heq : dep.fcLookup k = dep.fcLookup findcn := foldl_closer_eq (fun c hc => by
    rwa [mapStart, show dep.fcLookup findcn = some c from hc] at hk) hle
  rw [mapStart, mapStart, heq]

end Cache

section Loop

/-- What `pcbmap` asks of its loop. -/
def LoopInside (v : Layout) (m : Nat → Byte) (r i : Nat) (cn prev : Word) : Prop :=
  ∀ k d, v.pcbmapLoop m r i cn prev = .cluster k d →
    v.InRange d ∧ ∀ b ∈ v.blocksRead m r cn, b.1 + b.2 / devBsize ≤ v.fatSecs

theorem eof_reserved (h : v.Msdosfseof cn) : v.Reserved cn := by
  have hle := @Nat.and_le_left (cn ||| ~~~v.type.fatmask).toNat clustEofs.toNat
  rw [← BitVec.toNat_and, h] at hle
  exact Nat.le_trans (by decide) hle

theorem entry_inside (hsecs : v.fatSecs < 2 ^ 32) (h : v.InRange cn.toNat) : v.Readable cn ∧
    (v.fatblock (v.fatofs cn.toNat)).1 + (v.fatblock (v.fatofs cn.toNat)).2.1 / devBsize ≤
      v.fatSecs := by
  have hbytes := entry_bytes h.2
  have hplace := v.place_fatblock (v.fatofs cn.toNat)
  have hsec := v.fatblocksec_eq
  have hbo : (v.fatblock (v.fatofs cn.toNat)).2.2 < v.fatblocksize := mod_lt _ v.fatblocksize_pos
  obtain ⟨bn, hbn⟩ : ∃ bn, bn = (v.fatblock (v.fatofs cn.toNat)).1 := ⟨_, rfl⟩
  have hsize : (v.fatblock (v.fatofs cn.toNat)).2.1 =
      min v.fatblocksec (sub32 v.fatSecs bn) * devBsize := by
    rw [hbn]
    rfl
  rw [place, ← hbn] at hplace
  rw [fatsize] at hbytes
  rw [Readable, hsize, ← hbn, Nat.mul_div_cancel _ (by decide : 0 < devBsize), sub32]
  rw [devBsize] at *
  constructor <;> omega

theorem pcbmapLoop_succ (h : ¬v.Reserved cn) (hread : v.Readable cn) (r i : Nat) (prev : Word) :
    v.pcbmapLoop m (r + 1) i cn prev = v.pcbmapLoop m r (i + 1) (v.behind m cn) cn := by
  rw [pcbmapLoop, if_neg h]
  dsimp only
  rw [if_neg (Nat.not_le.mpr hread)]
  rfl

theorem blocksRead_succ (h : ¬v.Reserved cn) (hread : v.Readable cn) (r : Nat) :
    v.blocksRead m (r + 1) cn =
      ((v.fatblock (v.fatofs cn.toNat)).1, (v.fatblock (v.fatofs cn.toNat)).2.1) ::
        v.blocksRead m r (v.behind m cn) := by
  rw [blocksRead, if_neg h]
  dsimp only
  rw [if_neg (Nat.not_le.mpr hread)]
  rfl

theorem loopInside_zero : LoopInside v m 0 i cn prev ↔ v.Msdosfseof cn ∨ v.InRange cn.toNat := by
  rw [LoopInside, pcbmapLoop]
  by_cases heof : v.Msdosfseof cn
  · simp [heof]
  · simp [heof, blocksRead]

theorem ChainWithin.loopInside (hsecs : v.fatSecs < 2 ^ 32) (h : ChainWithin v m r cn) :
    LoopInside v m r i cn prev := by
  induction r generalizing i cn prev with
  | zero => exact loopInside_zero.mpr h
  | succ r ih =>
    intro k d hloop
    by_cases hres : v.Reserved cn
    · rw [pcbmapLoop, if_pos hres] at hloop
      cases hloop
    · obtain ⟨hin, hrest⟩ := h.resolve_left (mt eof_reserved hres)
      obtain ⟨hread, hblock⟩ := entry_inside hsecs hin
      rw [pcbmapLoop_succ hres hread] at hloop
      rw [blocksRead_succ hres hread, forall_mem_cons]
      obtain ⟨hd, hblocks⟩ := ih (hrest.resolve_left hres) k d hloop
      exact ⟨hd, hblock, hblocks⟩

theorem chainWithin_of_loopInside (hsecs : v.fatSecs < 2 ^ 32) (i : Nat) (prev : Word)
    (h : ∀ j ≤ r, LoopInside v m j i cn prev) : ChainWithin v m r cn := by
  induction r generalizing i cn prev with
  | zero => exact loopInside_zero.mp (h 0 (Nat.le_refl 0))
  | succ r ih =>
    rw [ChainWithin]
    refine (loopInside_zero.mp (h 0 (Nat.zero_le _))).imp_right fun hin => ⟨hin, ?_⟩
    by_cases hres : v.Reserved cn
    · exact .inl hres
    · have hread := (entry_inside hsecs hin).1
      refine .inr (ih (i + 1) cn fun j hj k d hloop => ?_)
      rw [← pcbmapLoop_succ hres hread j i prev] at hloop
      obtain ⟨hd, hblocks⟩ := h (j + 1) (by omega) k d hloop
      rw [blocksRead_succ hres hread, forall_mem_cons] at hblocks
      exact ⟨hd, hblocks.2⟩

end Loop

/-- What `pcbmap` returns for the end of its loop. -/
def Denode.mapped (dep : Denode) : Mapped → Option Sys.Errno × Option Nat × Denode
  | .cluster i cn => (none, some cn, dep.fcSetcache fcLastmap i cn)
  | .eof i prevcn => (some .E2BIG, some i, dep.fcSetcache fcLastfc (sub32 i 1) prevcn)
  | .eio => (some Sys.Errno.EIO, none, dep)

theorem inside_iff_loop (hstart : dep.startCluster ≠ msdosfsroot) : Inside v m dep findcn ↔
    LoopInside v m (findcn - (mapStart dep findcn).1) (mapStart dep findcn).1
      (BitVec.ofNat 32 (mapStart dep findcn).2) 0 := by
  have heq : v.pcbmap m dep findcn = dep.mapped (v.pcbmapLoop m (findcn - (mapStart dep findcn).1)
      (mapStart dep findcn).1 (BitVec.ofNat 32 (mapStart dep findcn).2) 0) := by
    rw [pcbmap, if_neg hstart]
    rfl
  rw [Inside, heq, LoopInside]
  constructor
  · intro h k d hloop
    exact h d _ (by rw [hloop, Denode.mapped])
  · intro h cn dep' hmap
    unfold Denode.mapped at hmap
    split at hmap
    next i d hloop =>
      cases hmap
      exact h _ _ hloop
    next => cases hmap
    next => cases hmap

theorem inside_root_iff (hstart : dep.startCluster = msdosfsroot) : Inside v m dep findcn ↔
    (dep.directory → findcn <<< v.cnshift % 2 ^ 32 ≥ dep.fileSize) := by
  constructor
  · intro hinside hdir
    by_contra hlt
    have hroot : v.pcbmap m dep findcn = (none, some msdosfsroot, dep) := by
      rw [pcbmap, if_pos hstart, if_pos hdir, if_neg hlt]
    exact absurd (hinside _ _ hroot).1.1 (by decide)
  · intro hend cn dep' hmap
    rw [pcbmap, if_pos hstart] at hmap
    by_cases hdir : dep.directory = true
    · rw [if_pos hdir, if_pos (hend hdir)] at hmap
      cases hmap
    · rw [if_neg hdir] at hmap
      cases hmap

/-- The calls of `pcbmap` for the clusters up to `last` stay inside the volume if and only if the
chain does. -/
theorem pcbmap_inside (hsecs : v.fatSecs < 2 ^ 32) (m : Nat → Byte) (dep : Denode) (last : Nat) :
    (∀ findcn ≤ last, Inside v m dep findcn) ↔ ∀ findcn ≤ last, Chained v m dep findcn := by
  by_cases hstart : dep.startCluster = msdosfsroot
  · simp only [Chained, if_pos hstart, inside_root_iff hstart]
  · simp only [Chained, if_neg hstart]
    refine ⟨fun h findcn hfind => ?_, fun h findcn hfind =>
      (inside_iff_loop hstart).mpr ((h findcn hfind).loopInside hsecs)⟩
    have hle := @mapStart_le dep findcn
    refine chainWithin_of_loopInside hsecs (mapStart dep findcn).1 0 fun j hj => ?_
    obtain ⟨k, hk⟩ : ∃ k, k = (mapStart dep findcn).1 + j := ⟨_, rfl⟩
    have hsame : mapStart dep k = mapStart dep findcn := mapStart_eq (by omega) (by omega)
    have hloop := (inside_iff_loop hstart).mp (h k (by omega))
    rwa [hsame, hk, Nat.add_sub_cancel_left] at hloop

instance : Decidable (Chained v m dep findcn) := inferInstanceAs (Decidable (ite _ _ _))

section Examples

def fileAt (startCluster : Nat) : Denode :=
  ⟨startCluster, 4096, false, false, fun _ => ⟨fceEmpty, 0⟩⟩

/-- The bad cluster behind cluster 2, and behind cluster 3 the number 0x44c, which has no entry. -/
def badFat : Nat → Byte := fun p => [0xf8, 0xff, 0xff, 0xf7, 0xcf, 0x44, 0x00, 0x00].getD p 0

theorem pcbmap_inside_goodFat : (∀ findcn ≤ 3, Chained floppy goodFat (fileAt 2) findcn) ∧
    ∀ findcn ≤ 3, Inside floppy goodFat (fileAt 2) findcn := by
  have hchained : ∀ findcn ≤ 3, Chained floppy goodFat (fileAt 2) findcn := by decide
  exact ⟨hchained, (pcbmap_inside (by decide) goodFat (fileAt 2) 3).mpr hchained⟩

/-- `pcbmap` gives out a start beyond the volume, the mark of a bad cluster and, by a block of
sectors behind the FAT, a free cluster. -/
theorem pcbmap_outside : ((floppy.pcbmap goodFat (fileAt 100) 0).1 = none ∧
      (floppy.pcbmap goodFat (fileAt 100) 0).2.1 = some 100 ∧ ¬floppy.InRange 100) ∧
    ((floppy.pcbmap badFat (fileAt 2) 1).1 = none ∧
      (floppy.pcbmap badFat (fileAt 2) 1).2.1 = some 0xfffffff7) ∧
    ((floppy.pcbmap badFat (fileAt 3) 2).1 = none ∧
      (3, 1536) ∈ floppy.blocksRead badFat 2 3 ∧ floppy.fatSecs = 1) := by
  decide

end Examples

end Mbsd.Msdosfs
