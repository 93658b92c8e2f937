import Mbsd.Msdosfs.Alloc

/-! How single clusters and chains of them are freed. -/

namespace Mbsd.Msdosfs

open Lib.Fuel Sys Layout List

variable {v : Layout} {s : Mount} {fat fat' : Nat → Byte} {cn c : Nat} {l l' : List Nat}

theorem Tracks.free_alloc {U : Nat → Prop} (h : Tracks v s U) (hcn : cn ≤ v.maxcluster)
    (hused : U cn) :
    ∃ s₁ s₂, v.usemapFree s cn = some s₁ ∧ s₁.fat = s.fat ∧ v.usemapAlloc s₁ cn = some s₂ ∧
      s₂.fat = s.fat ∧ Tracks v s₂ U := by
  obtain ⟨s₁, hs₁, hfat₁, h₁⟩ := h.free hcn hused
  obtain ⟨s₂, hs₂, hfat₂, h₂⟩ := h₁.alloc hcn fun hboth => hboth.1 rfl
  refine ⟨s₁, s₂, hs₁, hfat₁, hs₂, hfat₂.trans hfat₁, h₂.congr fun d _ => ?_⟩
  constructor
  · rintro (rfl | hd)
    · exact hused
    · exact hd.2
  · intro hd
    by_cases heq : d = cn
    · exact .inl heq
    · exact .inr ⟨heq, hd⟩

theorem fatentry_of_inRange (h : v.InRange cn) (fat : Nat → Byte) (new : Word) :
    v.fatentry true fat cn new =
      .ok (v.force (v.entry fat cn), v.writeEntry fat cn (v.fatofs cn) new) := by
  have hnot : ¬(cn < clustFirst ∨ cn > v.maxcluster) := fun hor =>
    hor.elim (Nat.not_lt.mpr h.1) (Nat.not_lt.mpr h.2)
  rw [fatentry, if_neg hnot, entryPlace_eq]
  rfl

theorem fatentry_of_not_inRange (h : ¬v.InRange cn) (fat : Nat → Byte) (new : Word) :
    v.fatentry true fat cn new = .error .EINVAL := by
  refine if_pos ?_
  rw [InRange, not_and_or] at h
  exact h.imp Nat.lt_of_not_le Nat.lt_of_not_le

theorem clusterfree_mirrored (h : Mirrored v s) (hused : v.InRange cn → v.entry s.fat cn ≠ 0) :
    Mirrored v (v.clusterfree s cn).2.2 := by
  have htracks := mirrored_iff.mp h
  rw [clusterfree]
  by_cases hmax : cn ≤ v.maxcluster
  · by_cases hin : v.InRange cn
    · obtain ⟨s₁, hs₁, hfat₁, h₁⟩ := htracks.free hmax hused
      rw [hs₁]
      dsimp only
      rw [fatentry_of_inRange hin, hfat₁]
      exact mirrored_iff.mpr ((h₁.clear_entry hin).withFat _)
    · obtain ⟨s₁, s₂, hs₁, hfat₁, hs₂, hfat₂, h₂⟩ := htracks.free_alloc hmax hused
      rw [hs₁]
      dsimp only
      rw [fatentry_of_not_inRange hin]
      rw [hs₂]
      rw [← hfat₂] at h₂
      exact mirrored_iff.mpr h₂
  · rw [usemapFree, if_neg hmax]
    exact h

section Chain

def next (v : Layout) (fat : Nat → Byte) (cn : Nat) : Nat :=
  let next := v.entry fat cn
  (if v.Reserved next then next ||| v.type.fatmask else next).toNat

/-- The chain from `cn` on ends outside the volume, and none of its clusters is free. -/
inductive EndsWell (v : Layout) (fat : Nat → Byte) : Nat → Prop
  | stop {cn : Nat} (h : ¬v.InRange cn) : EndsWell v fat cn
  | link {cn : Nat} (h : v.InRange cn) (hused : v.entry fat cn ≠ 0)
      (hnext : EndsWell v fat (next v fat cn)) : EndsWell v fat cn

def Follows (v : Layout) (fat : Nat → Byte) : Nat → List Nat → Prop
  | cn, [] => ¬v.InRange cn
  | cn, d :: l => d = cn ∧ v.InRange cn ∧ v.entry fat cn ≠ 0 ∧ Follows v fat (next v fat cn) l

theorem EndsWell.follows (h : EndsWell v fat cn) : ∃ l, Follows v fat cn l := by
  induction h with
  | stop h => exact ⟨[], h⟩
  | @link cn h hused _ ih =>
    obtain ⟨l, hl⟩ := ih
    exact ⟨cn :: l, rfl, h, hused, hl⟩

theorem Follows.unique (h : Follows v fat cn l) (h' : Follows v fat cn l') : l = l' := by
  induction l generalizing cn l' with
  | nil =>
    cases l' with
    | nil => rfl
    | cons d l' => exact absurd h'.2.1 h
  | cons d l ih =>
    cases l' with
    | nil => exact absurd h.2.1 h'
    | cons d' l' => rw [h.1, h'.1, ih h.2.2.2 h'.2.2.2]

theorem Follows.suffix (h : Follows v fat cn l) (hc : c ∈ l) :
    ∃ l', Follows v fat c (c :: l') ∧ (c :: l').length ≤ l.length := by
  induction l generalizing cn with
  | nil => cases hc
  | cons d l ih =>
    rcases mem_cons.mp hc with rfl | hc
    · obtain ⟨rfl, hrest⟩ := h
      exact ⟨l, ⟨rfl, hrest⟩, Nat.le_refl _⟩
    · obtain ⟨l', hl', hle⟩ := ih h.2.2.2 hc
      exact ⟨l', hl', Nat.le_succ_of_le hle⟩

theorem Follows.not_mem (h : Follows v fat cn (cn :: l)) : cn ∉ l := fun hmem => by
  obtain ⟨l', hl', hle⟩ := h.2.2.2.suffix hmem
  have hlen := congrArg length (h.unique hl')
  rw [length_cons, length_cons] at hlen
  rw [length_cons] at hle
  omega

theorem Follows.congr (h : Follows v fat cn l) (heq : ∀ d ∈ l, v.entry fat' d = v.entry fat d) :
    Follows v fat' cn l := by
  induction l generalizing cn with
  | nil => exact h
  | cons d l ih =>
    obtain ⟨rfl, hin, hused, hrest⟩ := h
    have hd := heq d mem_cons_self
    refine ⟨rfl, hin, by rw [hd]; exact hused, ?_⟩
    have hnext : next v fat' d = next v fat d := by rw [next, next, hd]
    rw [hnext]
    exact ih hrest fun e he => heq e (mem_cons_of_mem _ he)

theorem freeclusterchain_follows (h : Mirrored v s) (hl : Follows v s.fat cn l) :
    ∃ s', Returns (fun n => v.freeclusterchain n s cn) (.ok, s') ∧ Mirrored v s' := by
  induction l generalizing s cn with
  | nil =>
    exact ⟨s, (Returns.some (Ret.ok, s)).round fun n => by
      rw [freeclusterchain, if_neg (show ¬v.InRange cn from hl)], h⟩
  | cons d l ih =>
    have hnot : d ∉ l := by
      obtain ⟨rfl, hrest⟩ := hl
      exact Follows.not_mem ⟨rfl, hrest⟩
    obtain ⟨rfl, hin, hused, hrest⟩ := hl
    obtain ⟨s₁, hs₁, hfat₁, h₁⟩ := (mirrored_iff.mp h).free hin.2 fun _ => hused
    have hcleared : Mirrored v
        { s₁ with fat := v.writeEntry s₁.fat d (v.fatofs d) msdosfsfree } := by
      rw [hfat₁]
      exact mirrored_iff.mpr ((h₁.clear_entry hin).withFat _)
    have hfollows : Follows v (v.writeEntry s₁.fat d (v.fatofs d) msdosfsfree)
        (next v s₁.fat d) l := by
      rw [hfat₁]
      refine hrest.congr fun e he => ?_
      obtain ⟨l', hl', -⟩ := hrest.suffix he
      rw [entry_set hin.2 hl'.2.1.2, if_neg fun heq : e = d => hnot (heq ▸ he)]
    obtain ⟨s', hs', hmirrored⟩ := ih hcleared hfollows
    refine ⟨s', hs'.round fun n => ?_, hmirrored⟩
    rw [freeclusterchain, if_pos hin, hs₁, entryPlace_eq]
    rfl

theorem freeclusterchain_mirrored (h : Mirrored v s) (hcn : EndsWell v s.fat cn) :
    ∃ s', Returns (fun n => v.freeclusterchain n s cn) (.ok, s') ∧ Mirrored v s' := by
  obtain ⟨l, hl⟩ := hcn.follows
  exact freeclusterchain_follows h hl

end Chain

/-! The files of `msdosfs/msdosfs_denode.c` and how their clusters are mapped, added and cut off. -/

structure Fatcache where
  frcn : Nat
  fsrcn : Nat
  deriving DecidableEq

def fceEmpty : Nat := 0xffffffff

def fcLastmap : Fin 3 := 0

def fcLastfc : Fin 3 := 1

def fcOlastfc : Fin 3 := 2

def clustEnd : Nat := 0xffffffff

structure Denode where
  startCluster : Nat
  fileSize : Nat
  /-- `ATTR_DIRECTORY` -/
  directory : Bool
  /-- `VROOT` -/
  root : Bool
  fc : Fin 3 → Fatcache

namespace Denode

def fcSetcache (dep : Denode) (slot : Fin 3) (frcn fsrcn : Nat) : Denode :=
  { dep with fc := Function.update dep.fc slot ⟨frcn, fsrcn⟩ }

theorem fc_fcSetcache (dep : Denode) (slot slot' : Fin 3) (frcn fsrcn : Nat) :
    (dep.fcSetcache slot frcn fsrcn).fc slot' =
      if slot' = slot then ⟨frcn, fsrcn⟩ else dep.fc slot' := Function.update_apply _ _ _ _

def fcLookup (dep : Denode) (findcn : Nat) : Option Fatcache :=
  (List.finRange 3).foldl (fun closest i =>
    if (dep.fc i).frcn ≠ fceEmpty ∧ (dep.fc i).frcn ≤ findcn ∧
        closest.all fun c : Fatcache => (dep.fc i).frcn > c.frcn then
      some (dep.fc i)
    else closest) none

def fcPurge (dep : Denode) (frcn : Nat) : Denode :=
  { dep with fc := fun i =>
      if (dep.fc i).frcn ≥ frcn then { dep.fc i with frcn := fceEmpty } else dep.fc i }

end Denode

namespace Layout

variable (v : Layout)

def deClcount (size : Nat) : Nat := ((size + 2 ^ v.cnshift - 1) % 2 ^ 32) >>> v.cnshift

def bread (fat beyond : Nat → Byte) : Nat → Byte := fun p =>
  if p < v.fatsize then fat p else beyond p

/-- How the loop of `pcbmap` ends: with a cluster, at the end of the chain or outside the disk. -/
inductive Mapped
  | cluster (i cn : Nat)
  | eof (i prevcn : Nat)
  | eio

def pcbmapLoop (m : Nat → Byte) : Nat → Nat → Word → Word → Mapped
  | 0, i, cn, prevcn => if v.Msdosfseof cn then .eof i prevcn.toNat else .cluster i cn.toNat
  | r + 1, i, cn, prevcn =>
    if v.Reserved cn then .eof i prevcn.toNat
    else
      let (bn, bsize, bo) := v.fatblock (v.fatofs cn.toNat)
      if bo ≥ bsize then .eio
      else pcbmapLoop m r (i + 1) (v.force (v.readEntry m cn.toNat (place bn bo))) cn

def pcbmap (m : Nat → Byte) (dep : Denode) (findcn : Nat) : Option Errno × Option Nat × Denode :=
  if dep.startCluster = msdosfsroot then
    if dep.directory then
      if findcn <<< v.cnshift % 2 ^ 32 ≥ dep.fileSize then
        (some .E2BIG, some (v.rootdirsize >>> (v.cnshift - 9)), dep)
      else (none, some msdosfsroot, dep)
    else (some .E2BIG, some 0, dep)
  else
    let (i, cn) := match dep.fcLookup findcn with
      | some c => (c.frcn, c.fsrcn)
      | none => (0, dep.startCluster)
    match v.pcbmapLoop m (findcn - i) i (BitVec.ofNat 32 cn) 0 with
    | .cluster i cn => (none, some cn, dep.fcSetcache fcLastmap i cn)
    | .eof i prevcn => (some .E2BIG, some i, dep.fcSetcache fcLastfc (sub32 i 1) prevcn)
    | .eio => (some Errno.EIO, none, dep)

section Extend

variable (usec : Nat → Nat) (beyond : Nat → Nat → Byte)

def clearLoop (fat : Nat → Byte) : Nat → Denode → Nat → Bool × Denode
  | 0, dep, _ => (false, dep)
  | got + 1, dep, frcn =>
    match v.pcbmap (v.bread fat (beyond frcn)) dep frcn with
    | (none, _, dep) => clearLoop fat got dep (frcn + 1)
    | (some _, _, dep) => (true, dep)

structure Extended where
  ret : Ret
  ncp : Option Nat
  dep : Denode
  s : Mount

def extendClear (clear : Bool) (r : Extended) (frcn got : Nat) : Extended :=
  if clear ∧ ¬r.dep.directory then
    match v.clearLoop beyond r.s.fat got r.dep frcn with
    | (true, dep) => { r with ret := .panic, dep }
    | (false, dep) => { r with dep }
  else r

/-- A round of `extendfile` behind the allocation of `got` clusters from `cn` on, which become the
last ones of the file. -/
def extendLink (clear : Bool) (s : Mount) (dep : Denode) (cn got : Nat) (ncp : Option Nat) :
    Extended :=
  let last := dep.fc fcLastfc
  if dep.startCluster = 0 then
    let dep := { dep with startCluster := cn }.fcSetcache fcLastfc (got - 1) (cn + got - 1)
    v.extendClear beyond clear ⟨.ok, ncp, dep, s⟩ 0 got
  else
    match v.fatentry true s.fat last.fsrcn (BitVec.ofNat 32 cn) with
    | .error e =>
      match v.clusterfree s cn with
      | (.panic, _, s) => ⟨.panic, ncp, dep, s⟩
      | (_, _, s) => ⟨.error e, ncp, dep, s⟩
    | .ok (_, fat) =>
      let frcn := (last.frcn + 1) % 2 ^ 32
      let dep := dep.fcSetcache fcLastfc (sub32 (frcn + got) 1) (cn + got - 1)
      v.extendClear beyond clear ⟨.ok, ncp, dep, { s with fat }⟩ frcn got

def extendRound (clear : Bool) (n : Nat) (s : Mount) (dep : Denode) (count : Nat)
    (ncp : Option Nat) : Option (Extended × Nat) :=
  let start := if dep.startCluster = 0 then 0 else ((dep.fc fcLastfc).fsrcn + 1) % 2 ^ 32
  (v.clusteralloc n s (usec count) start count).map fun r => match r with
    | (.ok, cn, got, s) => (v.extendLink beyond clear s dep cn got (ncp.or (some cn)), got)
    | (ret, _, _, s) => (⟨ret, ncp, dep, s⟩, 0)

def extendLoop (clear : Bool) : Nat → Mount → Denode → Nat → Option Nat → Option Extended
  | 0, _, _, _, _ => none
  | n + 1, s, dep, count, ncp =>
    if count > 0 then do
      let (r, got) ← v.extendRound usec beyond clear n s dep count ncp
      if r.ret = .ok then extendLoop clear n r.s r.dep (count - got) r.ncp else some r
    else some ⟨.ok, ncp, dep, s⟩

/-- `extendfile` looks for the last cluster where it is not cached.  It ends when that cannot be
found. -/
def extendLast (s : Mount) (dep : Denode) : Option Ret × Denode :=
  if (dep.fc fcLastfc).frcn = fceEmpty ∧ dep.startCluster ≠ 0 then
    match v.pcbmap (v.bread s.fat (beyond clustEnd)) dep clustEnd with
    | (some .E2BIG, _, dep) => (none, dep)
    | (some e, _, dep) => (some (.error e), dep)
    | (none, _, dep) => (some .ok, dep)
  else (none, dep)

/-- The reads of each call of `pcbmap` behind the FAT are given by the cluster that it looks for. -/
def extendfile (n : Nat) (s : Mount) (dep : Denode) (count : Nat) (clear : Bool) :
    Option Extended :=
  if dep.startCluster = msdosfsroot ∧ dep.directory then some ⟨.error .ENOSPC, none, dep, s⟩
  else
    match v.extendLast beyond s dep with
    | (some ret, dep) => some ⟨ret, none, dep, s⟩
    | (none, dep) =>
      let last := dep.fc fcLastfc
      v.extendLoop usec beyond clear n s (dep.fcSetcache fcOlastfc last.frcn last.fsrcn) count none

end Extend

section Truncate

variable (usec : Nat → Nat) (beyond : Nat → Nat → Byte)

def freeRest (n : Nat) (s : Mount) (dep : Denode) (chaintofree : Word) :
    Option (Ret × Denode × Mount) :=
  if chaintofree ≠ 0 ∧ ¬v.Msdosfseof chaintofree then do
    match ← v.freeclusterchain n s chaintofree.toNat with
    | (.panic, s) => some (.panic, dep, s)
    | (_, s) => some (.ok, dep, s)
  else some (.ok, dep, s)

def truncate (n : Nat) (s : Mount) (dep : Denode) (length : Nat) : Option (Ret × Denode × Mount) :=
  if length = 0 then
    let chaintofree := dep.startCluster
    let dep := { dep with startCluster := 0, fileSize := length }.fcPurge (v.deClcount length)
    v.freeRest n s dep (BitVec.ofNat 32 chaintofree)
  else
    let findcn := sub32 (v.deClcount length) 1
    match v.pcbmap (v.bread s.fat (beyond findcn)) dep findcn with
    | (some e, _, dep) => some (.error e, dep, s)
    | (none, eofentry, dep) =>
      let eofentry := eofentry.getD 0
      let dep := { dep.fcPurge (v.deClcount length) with fileSize := length }
      match v.fatentry true s.fat eofentry clustEofe with
      | .error e => some (.error e, dep, s)
      | .ok (chaintofree, fat) =>
        let dep := dep.fcSetcache fcLastfc ((length - 1) >>> v.cnshift) eofentry
        v.freeRest n { s with fat } dep chaintofree

/-- Each call reads behind the FAT what `beyond` has for it, the second truncation what `beyond'`
has. -/
def deextend (beyond' : Nat → Nat → Byte) (n : Nat) (s : Mount) (dep : Denode) (length : Nat) :
    Option (Ret × Denode × Mount) :=
  if dep.root ∧ v.type ≠ .fat32 then some (.error .EINVAL, dep, s)
  else if dep.directory then some (.error .EISDIR, dep, s)
  else
    let count := sub32 (v.deClcount length) (v.deClcount dep.fileSize)
    if count > 0 then
      if count > s.freeclustercount then some (.error .ENOSPC, dep, s)
      else do
        let r ← v.extendfile usec beyond n s dep count true
        match r.ret with
        | .ok => some (.ok, { r.dep with fileSize := length }, r.s)
        | .panic => some (.panic, r.dep, r.s)
        | .error e => (v.truncate beyond' n r.s r.dep r.dep.fileSize).map fun r' =>
          (if r'.1 = .panic then .panic else .error e, r'.2)
    else some (.ok, { dep with fileSize := length }, s)

def detrunc (beyond' : Nat → Nat → Byte) (n : Nat) (s : Mount) (dep : Denode) (length : Nat) :
    Option (Ret × Denode × Mount) :=
  if dep.root ∧ v.type ≠ .fat32 then some (.error .EINVAL, dep, s)
  else if dep.fileSize < length then v.deextend usec beyond beyond' n s dep length
  else v.truncate beyond n s dep length

end Truncate

end Layout

end Mbsd.Msdosfs
