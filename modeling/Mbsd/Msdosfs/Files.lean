import Mbsd.Msdosfs.Free

/-! How files are extended and truncated. -/

namespace Mbsd.Msdosfs

open Lib.Fuel Sys Layout

variable {m : Nat → Byte} {o : Option Nat} {length : Nat}

section Entry

variable {v : Layout} {cn : Nat}

theorem entry_bytes (h : cn ≤ v.maxcluster) :
    v.fatofs cn + (if v.type = .fat32 then 3 else 1) < v.fatsize := by
  have hentries := v.entries
  rw [fatofs_eq h, fatsize]
  cases ht : v.type <;>
    simp only [ht, FatType.fatmult, FatType.fatdiv, reduceCtorEq, if_true, if_false]
      at hentries ⊢ <;>
    omega

theorem readEntry_congr {m' : Nat → Byte} (p : Nat)
    (h : ∀ q, p ≤ q → q ≤ p + (if v.type = .fat32 then 3 else 1) → m q = m' q) :
    v.readEntry m cn p = v.readEntry m' cn p := by
  have hshort : getushort m p = getushort m' p := by
    rw [getushort, getushort, h p (Nat.le_refl _) (Nat.le_add_right _ _),
      h (p + 1) (by omega) (by split <;> omega)]
  rw [readEntry, readEntry, hshort]
  by_cases ht : v.type = .fat32
  · rw [if_pos ht] at h
    have hlong : getulong m p = getulong m' p := by
      rw [getulong, getulong, hshort]
      simp only [getushort, h (p + 2) (by omega) (by omega), h (p + 2 + 1) (by omega) (by omega)]
    rw [if_pos ht, if_pos ht, hlong]
  · rw [if_neg ht, if_neg ht]

end Entry

variable {v : Volume} {s : Mount} {fat beyond : Nat → Byte} {dep dep' : Denode}
  {cn prevcn i j k r findcn count frcn got : Nat} {clear : Bool} {ncp : Option Nat}
  {usec : Nat → Nat} {reads reads' : Nat → Nat → Byte}

section Pcbmap

theorem readEntry_bread (h : cn ≤ v.maxcluster) (fat beyond : Nat → Byte) :
    v.readEntry (v.bread fat beyond) cn (v.fatofs cn) = v.entry fat cn := by
  have hbytes := entry_bytes h
  refine readEntry_congr _ fun q _ hq => ?_
  rw [bread, if_pos (by omega)]

theorem not_reserved_zero (v : Layout) : ¬v.Reserved 0 := by
  rw [Reserved]
  cases v.type <;> decide

theorem not_eof_zero (v : Layout) : ¬v.Msdosfseof 0 := by
  rw [Msdosfseof]
  cases v.type <;> decide

theorem force_zero (v : Layout) : v.force 0 = 0 := if_neg (not_reserved_zero v)

theorem pcbmapLoop_eof {w prev : Word} (h : v.pcbmapLoop (v.bread fat beyond) r i w prev = .eof j k)
    (hprev : v.InRange prev.toNat → w = v.force (v.entry fat prev.toNat)) :
    v.InRange k → v.entry fat k ≠ 0 := by
  induction r generalizing i w prev with
  | zero =>
    rw [pcbmapLoop] at h
    split at h
    · next heof =>
      cases h
      intro hin hzero
      rw [hprev hin, hzero, force_zero] at heof
      exact not_eof_zero v heof
    · cases h
  | succ r ih =>
    rw [pcbmapLoop] at h
    split at h
    · next hreserved =>
      cases h
      intro hin hzero
      rw [hprev hin, hzero, force_zero] at hreserved
      exact not_reserved_zero v hreserved
    · dsimp only at h
      split at h
      · cases h
      · refine ih h fun hin => ?_
        rw [v.place_fatblock, readEntry_bread hin.2]

def LastOk (v : Layout) (fat : Nat → Byte) (dep : Denode) : Prop :=
  dep.startCluster ≠ 0 → v.InRange (dep.fc fcLastfc).fsrcn →
    v.entry fat (dep.fc fcLastfc).fsrcn ≠ 0

theorem pcbmap_lastOk (hstart : dep.startCluster ≠ 0)
    (h : v.pcbmap (v.bread fat beyond) dep findcn = (some .E2BIG, o, dep')) :
    LastOk v fat dep' := by
  rw [pcbmap, if_neg (show ¬dep.startCluster = msdosfsroot from hstart)] at h
  dsimp only at h
  split at h
  · cases h
  · next hloop =>
    cases h
    refine fun _ hin => pcbmapLoop_eof hloop (fun hzero => ?_) hin
    exact absurd hzero.1 (by decide)
  · cases h

theorem pcbmap_keeps
    (h : v.pcbmap m dep findcn = (none, o, dep')) :
    dep'.startCluster = dep.startCluster ∧ dep'.fc fcLastfc = dep.fc fcLastfc := by
  rw [pcbmap] at h
  split at h
  · split at h
    · split at h
      · cases h
      · cases h
        exact ⟨rfl, rfl⟩
    · cases h
  · dsimp only at h
    split at h
    · cases h
      exact ⟨rfl, (dep.fc_fcSetcache _ _ _ _).trans (if_neg (by decide))⟩
    · cases h
    · cases h

theorem clearLoop_keeps (h : v.clearLoop reads fat got dep frcn = (false, dep')) :
    dep'.startCluster = dep.startCluster ∧ dep'.fc fcLastfc = dep.fc fcLastfc := by
  induction got generalizing dep frcn with
  | zero =>
    cases h
    exact ⟨rfl, rfl⟩
  | succ got ih =>
    rw [clearLoop] at h
    split at h
    · next hmap =>
      have hkeeps := pcbmap_keeps hmap
      have hrest := ih h
      exact ⟨hrest.1.trans hkeeps.1, hrest.2.trans hkeeps.2⟩
    · cases h

end Pcbmap

section Extend

theorem LastOk.congr (h : LastOk v fat dep) (hstart : dep'.startCluster = dep.startCluster)
    (hlast : dep'.fc fcLastfc = dep.fc fcLastfc) : LastOk v fat dep' := by
  rw [LastOk, hstart, hlast]
  exact h

structure Round (v : Layout) (r : Extended × Nat) : Prop where
  mirrored : Mirrored v r.1.s
  next : r.1.ret = .ok → 0 < r.2 ∧ LastOk v r.1.s.fat r.1.dep

theorem extendClear_round {r : Extended} (h : Mirrored v r.s) (hlast : LastOk v r.s.fat r.dep)
    (hgot : 0 < got) : Round v (v.extendClear reads clear r frcn got, got) := by
  rw [extendClear]
  split
  · split
    · exact ⟨h, Ret.noConfusion⟩
    · next hclear =>
      have hkeeps := clearLoop_keeps hclear
      exact ⟨h, fun _ => ⟨hgot, hlast.congr hkeeps.1 hkeeps.2⟩⟩
  · exact ⟨h, fun _ => ⟨hgot, hlast⟩⟩

theorem extendLink_round (h : Mirrored v s) (hlast : LastOk v s.fat dep) (hgot : 0 < got)
    (hrun : ∀ i < got, v.InRange (cn + i) ∧ v.entry s.fat (cn + i) ≠ 0) :
    Round v (v.extendLink reads clear s dep cn got ncp, got) := by
  have hfirst : v.InRange cn ∧ v.entry s.fat cn ≠ 0 := hrun 0 hgot
  have hend : v.InRange (cn + got - 1) ∧ v.entry s.fat (cn + got - 1) ≠ 0 := by
    rw [Nat.add_sub_assoc hgot]
    exact hrun (got - 1) (by omega)
  rw [extendLink]
  by_cases hstart : dep.startCluster = 0
  · rw [if_pos hstart]
    refine extendClear_round h (fun _ _ => ?_) hgot
    rw [Denode.fc_fcSetcache, if_pos rfl]
    exact hend.2
  · rw [if_neg hstart]
    by_cases hin : v.InRange (dep.fc fcLastfc).fsrcn
    · -- The last cluster of the file is linked to the new ones.
      rw [fatentry_of_inRange hin]
      have hlinked := ((mirrored_iff.mp h).set_entry hin (hlast hstart hin)
        (cluster_ne_zero hfirst.1)).withFat
          (v.writeEntry s.fat (dep.fc fcLastfc).fsrcn (v.fatofs (dep.fc fcLastfc).fsrcn)
            (BitVec.ofNat 32 cn))
      refine extendClear_round (mirrored_iff.mpr hlinked) (fun _ _ => ?_) hgot
      rw [Denode.fc_fcSetcache, if_pos rfl]
      rw [entry_set hin.2 hend.1.2]
      split
      · exact cluster_ne_zero hfirst.1
      · exact hend.2
    · rw [fatentry_of_not_inRange hin]
      dsimp only
      have hfreed := clusterfree_mirrored h fun _ => hfirst.2
      split
      · next heq =>
        rw [heq] at hfreed
        exact ⟨hfreed, Ret.noConfusion⟩
      · next heq =>
        rw [heq] at hfreed
        exact ⟨hfreed, Ret.noConfusion⟩

theorem extendRound_returns (usec : Nat → Nat) (reads : Nat → Nat → Byte) (clear : Bool)
    (ncp : Option Nat) (h : Mirrored v s) (hlast : LastOk v s.fat dep) (hcount : 0 < count) :
    ∃ r, Returns (fun n => v.extendRound usec reads clear n s dep count ncp) r ∧ Round v r := by
  obtain ⟨⟨ret, cn, got, s₁⟩, hr, hallocated⟩ := clusteralloc_allocated h (usec count)
    (if dep.startCluster = 0 then 0 else ((dep.fc fcLastfc).fsrcn + 1) % 2 ^ 32) count
  refine ⟨_, hr.map _, ?_⟩
  cases ret with
  | error e => exact ⟨hallocated.mirrored, Ret.noConfusion⟩
  | panic => exact absurd rfl hallocated.returns
  | ok =>
    obtain ⟨hgot, -, hrun⟩ := hallocated.run rfl hcount
    exact extendLink_round hallocated.mirrored
      (fun hstart hin => hallocated.kept _ hin (hlast hstart hin)) hgot hrun

theorem extendLoop_returns (usec : Nat → Nat) (reads : Nat → Nat → Byte) (clear : Bool)
    (count : Nat) (ncp : Option Nat) (h : Mirrored v s) (hlast : LastOk v s.fat dep) :
    ∃ r, Returns (fun n => v.extendLoop usec reads clear n s dep count ncp) r ∧
      Mirrored v r.s := by
  induction hfuel : count using Nat.strongRecOn generalizing s dep count ncp with
  | ind d ih =>
    subst hfuel
    by_cases hcount : count > 0
    · obtain ⟨⟨r, got⟩, hr, hround⟩ := extendRound_returns usec reads clear ncp h hlast
        hcount
      have heq : ∀ n, v.extendLoop usec reads clear (n + 1) s dep count ncp =
          (v.extendRound usec reads clear n s dep count ncp).bind fun r =>
            if r.1.ret = .ok then
              v.extendLoop usec reads clear n r.1.s r.1.dep (count - r.2) r.1.ncp
            else some r.1 := fun n => by
        rw [extendLoop, if_pos hcount]
        rfl
      by_cases hret : r.ret = .ok
      · obtain ⟨hgot, hlast'⟩ := hround.next hret
        obtain ⟨r', hr', hmirrored⟩ := ih (count - got) (by omega) _ r.ncp hround.mirrored
          hlast' rfl
        exact ⟨r', Returns.round (hr.bind (hr'.congr fun n => if_pos hret)) heq, hmirrored⟩
      · exact ⟨r, Returns.round (hr.bind ((Returns.some r).congr fun n => if_neg hret)) heq,
          hround.mirrored⟩
    · exact ⟨⟨.ok, ncp, dep, s⟩, (Returns.some _).round fun n => by
        rw [extendLoop, if_neg hcount], h⟩

/-- The file of a call of `extendfile` does not have a free cluster cached as its last one. -/
def ExtendOk (v : Layout) (fat : Nat → Byte) (dep : Denode) : Prop :=
  (dep.fc fcLastfc).frcn ≠ fceEmpty → LastOk v fat dep

theorem extendLast_lastOk (h : ExtendOk v s.fat dep)
    (hlast : v.extendLast reads s dep = (none, dep')) : LastOk v s.fat dep' := by
  rw [extendLast] at hlast
  split at hlast
  · next hempty =>
    split at hlast
    · next hmap =>
      cases hlast
      exact pcbmap_lastOk hempty.2 hmap
    · cases hlast
    · cases hlast
  · next hcached =>
    cases hlast
    intro hstart
    exact h (fun hempty => hcached ⟨hempty, hstart⟩) hstart

theorem extendfile_returns (usec : Nat → Nat) (reads : Nat → Nat → Byte) (h : Mirrored v s)
    (hok : ExtendOk v s.fat dep) (count : Nat) (clear : Bool) :
    ∃ r, Returns (fun n => v.extendfile usec reads n s dep count clear) r ∧ Mirrored v r.s := by
  by_cases hroot : dep.startCluster = msdosfsroot ∧ dep.directory
  · exact ⟨⟨.error .ENOSPC, none, dep, s⟩, (Returns.some _).congr fun n => if_pos hroot, h⟩
  · cases hlast : v.extendLast reads s dep with
    | mk ret dep' =>
      cases ret with
      | some ret =>
        refine ⟨⟨ret, none, dep', s⟩, (Returns.some _).congr fun n => ?_, h⟩
        rw [extendfile, if_neg hroot, hlast]
      | none =>
        have hlastOk := extendLast_lastOk hok hlast
        have hcached : LastOk v s.fat (dep'.fcSetcache fcOlastfc (dep'.fc fcLastfc).frcn
            (dep'.fc fcLastfc).fsrcn) :=
          hlastOk.congr rfl ((dep'.fc_fcSetcache _ _ _ _).trans (if_neg (by decide)))
        obtain ⟨r, hr, hmirrored⟩ := extendLoop_returns usec reads clear count none h hcached
        refine ⟨r, hr.congr fun n => ?_, hmirrored⟩
        rw [extendfile, if_neg hroot, hlast]

end Extend

section Truncate

def RestOk (v : Layout) (fat : Nat → Byte) (chaintofree : Word) : Prop :=
  chaintofree ≠ 0 → ¬v.Msdosfseof chaintofree → EndsWell v fat chaintofree.toNat

/-- The cluster that becomes the last one of the file is not free, and the chain behind it ends
well. -/
def TruncateOk (v : Layout) (reads : Nat → Nat → Byte) (fat : Nat → Byte) (dep : Denode)
    (length : Nat) : Prop :=
  if length = 0 then RestOk v fat (BitVec.ofNat 32 dep.startCluster)
  else
    let findcn := sub32 (v.deClcount length) 1
    ∀ cn dep', v.pcbmap (v.bread fat (reads findcn)) dep findcn = (none, some cn, dep') →
      v.InRange cn → v.entry fat cn ≠ 0 ∧
        RestOk v (v.writeEntry fat cn (v.fatofs cn) clustEofe) (v.force (v.entry fat cn))

/-- What `detrunc` returns once the rest of the chain is free. -/
def freedRest (dep : Denode) : Ret × Mount → Option (Ret × Denode × Mount)
  | (.panic, s) => some (.panic, dep, s)
  | (_, s) => some (.ok, dep, s)

theorem freeRest_returns (dep : Denode) (h : Mirrored v s) {chaintofree : Word}
    (hrest : RestOk v s.fat chaintofree) :
    ∃ r, Returns (fun n => v.freeRest n s dep chaintofree) r ∧ Mirrored v r.2.2 := by
  by_cases hfree : chaintofree ≠ 0 ∧ ¬v.Msdosfseof chaintofree
  · obtain ⟨s', hs', hmirrored⟩ := freeclusterchain_mirrored h (hrest hfree.1 hfree.2)
    have heq : ∀ n, v.freeRest n s dep chaintofree =
        (v.freeclusterchain n s chaintofree.toNat).bind (freedRest dep) := fun n => by
      rw [freeRest, if_pos hfree]
      rfl
    exact ⟨(.ok, dep, s'), Returns.congr (hs'.bind (Returns.some _)) heq, hmirrored⟩
  · exact ⟨(.ok, dep, s), (Returns.some _).congr fun n => by rw [freeRest, if_neg hfree], h⟩

theorem truncate_returns (h : Mirrored v s)
    (hok : TruncateOk v reads s.fat dep length) :
    ∃ r, Returns (fun n => v.truncate reads n s dep length) r ∧ Mirrored v r.2.2 := by
  rw [TruncateOk] at hok
  by_cases hlength : length = 0
  · rw [if_pos hlength] at hok
    obtain ⟨r, hr, hmirrored⟩ := freeRest_returns _ h hok
    exact ⟨r, hr.congr fun n => if_pos hlength, hmirrored⟩
  · rw [if_neg hlength] at hok
    cases hmap : v.pcbmap (v.bread s.fat (reads (sub32 (v.deClcount length) 1))) dep
        (sub32 (v.deClcount length) 1) with
    | mk e r =>
      obtain ⟨o, dep'⟩ := r
      cases e with
      | some e =>
        refine ⟨(.error e, dep', s), (Returns.some _).congr fun n => ?_, h⟩
        rw [truncate, if_neg hlength]
        simp only [hmap]
      | none =>
        by_cases hin : v.InRange (o.getD 0)
        · have ho : o = some (o.getD 0) := by
            cases o with
            | none => exact absurd hin.1 (by decide)
            | some cn => rfl
          rw [ho] at hmap
          obtain ⟨hused, hrest⟩ := hok _ _ hmap hin
          have hcut := ((mirrored_iff.mp h).set_entry hin hused (eofe_ne_zero v)).withFat
            (v.writeEntry s.fat (o.getD 0) (v.fatofs (o.getD 0)) clustEofe)
          obtain ⟨r, hr, hmirrored⟩ := freeRest_returns (({ dep'.fcPurge (v.deClcount length) with
            fileSize := length } : Denode).fcSetcache fcLastfc ((length - 1) >>> v.cnshift)
              (o.getD 0)) (mirrored_iff.mpr hcut) hrest
          refine ⟨r, hr.congr fun n => ?_, hmirrored⟩
          rw [truncate, if_neg hlength]
          simp only [hmap, Option.getD_some, fatentry_of_inRange hin]
        · refine ⟨(.error .EINVAL, { dep'.fcPurge (v.deClcount length) with fileSize := length },
            s), (Returns.some _).congr fun n => ?_, h⟩
          rw [truncate, if_neg hlength]
          simp only [hmap, fatentry_of_not_inRange hin]

/-- An extension meets its condition, and so does the truncation that undoes it when it fails. -/
def DeextendOk (v : Layout) (usec : Nat → Nat) (reads reads' : Nat → Nat → Byte) (s : Mount)
    (dep : Denode) (length : Nat) : Prop :=
  ExtendOk v s.fat dep ∧ ∀ r e,
    Returns (fun n => v.extendfile usec reads n s dep
      (sub32 (v.deClcount length) (v.deClcount dep.fileSize)) true) r →
    r.ret = .error e → TruncateOk v reads' r.s.fat r.dep r.dep.fileSize

/-- What `deextend` returns once the chain is longer, or is not. -/
def extendedTo (v : Volume) (reads' : Nat → Nat → Byte) (n length : Nat) (r : Extended) :
    Option (Ret × Denode × Mount) :=
  match r.ret with
  | .ok => some (.ok, { r.dep with fileSize := length }, r.s)
  | .panic => some (.panic, r.dep, r.s)
  | .error e => (v.truncate reads' n r.s r.dep r.dep.fileSize).map fun r' =>
    (if r'.1 = .panic then .panic else .error e, r'.2)

theorem deextend_returns (h : Mirrored v s)
    (hok : DeextendOk v usec reads reads' s dep length) :
    ∃ r, Returns (fun n => v.deextend usec reads reads' n s dep length) r ∧ Mirrored v r.2.2 := by
  obtain ⟨hextend, htruncate⟩ := hok
  by_cases hroot : dep.root ∧ v.type ≠ .fat32
  · exact ⟨_, (Returns.some _).congr fun n => if_pos hroot, h⟩
  by_cases hdir : dep.directory
  · exact ⟨_, (Returns.some _).congr fun n => (if_neg hroot).trans (if_pos hdir), h⟩
  by_cases hcount : sub32 (v.deClcount length) (v.deClcount dep.fileSize) > 0
  · by_cases hspace : sub32 (v.deClcount length) (v.deClcount dep.fileSize) > s.freeclustercount
    · refine ⟨(.error .ENOSPC, dep, s), (Returns.some _).congr fun n => ?_, h⟩
      rw [deextend, if_neg hroot, if_neg hdir]
      exact (if_pos hcount).trans (if_pos hspace)
    · obtain ⟨r, hr, hmirrored⟩ := extendfile_returns usec reads h hextend
        (sub32 (v.deClcount length) (v.deClcount dep.fileSize)) true
      have heq : ∀ n, v.deextend usec reads reads' n s dep length =
          (v.extendfile usec reads n s dep
            (sub32 (v.deClcount length) (v.deClcount dep.fileSize)) true).bind
              (extendedTo v reads' n length) := fun n => by
        rw [deextend, if_neg hroot, if_neg hdir]
        exact (if_pos hcount).trans (if_neg hspace)
      cases hret : r.ret with
      | ok =>
        exact ⟨_, Returns.congr (hr.bind ((Returns.some _).congr fun n => by rw [extendedTo, hret])) heq,
          hmirrored⟩
      | panic =>
        exact ⟨_, Returns.congr (hr.bind ((Returns.some _).congr fun n => by rw [extendedTo, hret])) heq,
          hmirrored⟩
      | error e =>
        obtain ⟨r', hr', hmirrored'⟩ := truncate_returns hmirrored (htruncate r e hr hret)
        exact ⟨_, Returns.congr (hr.bind ((hr'.map fun r' =>
          (if r'.1 = .panic then .panic else .error e, r'.2)).congr fun n => by rw [extendedTo, hret])) heq,
          hmirrored'⟩
  · refine ⟨(.ok, { dep with fileSize := length }, s), (Returns.some _).congr fun n => ?_, h⟩
    rw [deextend, if_neg hroot, if_neg hdir]
    exact if_neg hcount

def DetruncOk (v : Layout) (usec : Nat → Nat) (reads reads' : Nat → Nat → Byte) (s : Mount)
    (dep : Denode) (length : Nat) : Prop :=
  if dep.fileSize < length then DeextendOk v usec reads reads' s dep length
  else TruncateOk v reads s.fat dep length

theorem detrunc_returns (h : Mirrored v s)
    (hok : DetruncOk v usec reads reads' s dep length) :
    ∃ r, Returns (fun n => v.detrunc usec reads reads' n s dep length) r ∧ Mirrored v r.2.2 := by
  rw [DetruncOk] at hok
  by_cases hroot : dep.root ∧ v.type ≠ .fat32
  · exact ⟨_, (Returns.some _).congr fun n => if_pos hroot, h⟩
  by_cases hlength : dep.fileSize < length
  · rw [if_pos hlength] at hok
    obtain ⟨r, hr, hmirrored⟩ := deextend_returns h hok
    exact ⟨r, hr.congr fun n => (if_neg hroot).trans (if_pos hlength), hmirrored⟩
  · rw [if_neg hlength] at hok
    obtain ⟨r, hr, hmirrored⟩ := truncate_returns h hok
    exact ⟨r, hr.congr fun n => (if_neg hroot).trans (if_neg hlength), hmirrored⟩

end Truncate

/-! Sequences of calls on a volume, from the map that `fillinusemap` makes on. -/

variable {v : Volume} {s s₀ : Mount} {fat : Nat → Byte} {ops : List Op}

inductive Op
  | clusteralloc (usec start count : Nat)
  | extendfile (usec : Nat → Nat) (reads : Nat → Nat → Byte) (dep : Denode) (count : Nat)
    (clear : Bool)
  | clusterfree (cluster : Nat)
  | freeclusterchain (cluster : Nat)
  | detrunc (usec : Nat → Nat) (reads reads' : Nat → Nat → Byte) (dep : Denode) (length : Nat)

def exec (v : Layout) (n : Nat) (s : Mount) : Op → Option (Ret × Mount)
  | .clusteralloc usec start count =>
    (v.clusteralloc n s usec start count).map fun r => (r.1, r.2.2.2)
  | .extendfile usec reads dep count clear =>
    (v.extendfile usec reads n s dep count clear).map fun r => (r.ret, r.s)
  | .clusterfree cluster =>
    let r := v.clusterfree s cluster
    some (r.1, r.2.2)
  | .freeclusterchain cluster => v.freeclusterchain n s cluster
  | .detrunc usec reads reads' dep length =>
    (v.detrunc usec reads reads' n s dep length).map fun r => (r.1, r.2.2)

/-- A call does not come to a cluster that is free as one that it frees or puts behind another. -/
def Op.Safe (v : Layout) (s : Mount) : Op → Prop
  | .clusteralloc _ _ _ => True
  | .extendfile _ _ dep _ _ => ExtendOk v s.fat dep
  | .clusterfree cluster => v.InRange cluster → v.entry s.fat cluster ≠ 0
  | .freeclusterchain cluster => EndsWell v s.fat cluster
  | .detrunc usec reads reads' dep length => DetruncOk v usec reads reads' s dep length

theorem exec_returns (h : Mirrored v s) (op : Op) (hsafe : op.Safe v s) :
    ∃ r, Returns (fun n => exec v n s op) r ∧ Mirrored v r.2 := by
  cases op with
  | clusteralloc usec start count =>
    obtain ⟨r, hr, hallocated⟩ := clusteralloc_allocated h usec start count
    exact ⟨_, hr.map _, hallocated.mirrored⟩
  | extendfile usec reads dep count clear =>
    obtain ⟨r, hr, hmirrored⟩ := extendfile_returns usec reads h hsafe count clear
    exact ⟨_, hr.map _, hmirrored⟩
  | clusterfree cluster => exact ⟨_, Returns.some _, clusterfree_mirrored h hsafe⟩
  | freeclusterchain cluster =>
    obtain ⟨s', hs', hmirrored⟩ := freeclusterchain_mirrored h hsafe
    exact ⟨_, hs', hmirrored⟩
  | detrunc usec reads reads' dep length =>
    obtain ⟨r, hr, hmirrored⟩ := detrunc_returns h hsafe
    exact ⟨_, hr.map _, hmirrored⟩

inductive Reaches (v : Layout) : Mount → List Op → Mount → Prop
  | nil (s : Mount) : Reaches v s [] s
  | cons {s s₁ s' : Mount} {op : Op} {ops : List Op} {ret : Ret} (hsafe : op.Safe v s)
    (hcall : Returns (fun n => exec v n s op) (ret, s₁)) (h : Reaches v s₁ ops s') :
    Reaches v s (op :: ops) s'

theorem Reaches.mirrored (h : Reaches v s₀ ops s) (hs₀ : Mirrored v s₀) : Mirrored v s := by
  induction h with
  | nil => exact hs₀
  | cons hsafe hcall _ ih =>
    obtain ⟨r, hr, hmirrored⟩ := exec_returns hs₀ _ hsafe
    rw [hr.unique hcall] at hmirrored
    exact ih hmirrored

section Examples

def floppy : Volume where
  type := .fat12
  bytesPerSec := 512
  fatSecs := 1
  rootdirsize := 1
  maxcluster := 5
  cnshift := 9
  sector := ⟨by decide, ⟨1, rfl⟩⟩
  entries := by decide
  offsets := by decide
  numbers := by decide

def goodFat : Nat → Byte := fun p => [0xf8, 0xff, 0xff, 0x03, 0xf0, 0xff].getD p 0

end Examples

end Mbsd.Msdosfs
