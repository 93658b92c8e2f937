import Mbsd.Net.Art.Runs
import Mbsd.Net.Art.Stores

/-! What lookups find while `art_insert` or `art_delete` runs. -/

namespace Mbsd.Net.Allotment

open Lib.HeapIndex Lib.LongestPrefix Lib.Trace Lib.Trace.Traced Sys List Option Function

variable {art art' s : Art} {tab : Tables} {R R' : Routes} {π l : List Bool} {p q : Ptr}
  {an : ArtNode} {m alen plen : Nat} {addr : List UInt8} {levels : List Nat} {v : Option ArtNode}
  {j fuel : Nat} {r : Option ArtNode}

def Answers (alen : Nat) (addr : List UInt8) (R : Routes) (art : Art) : Prop :=
  artMatch art addr = some (longest R (bitsOf addr alen) 0 (alen + 1))

theorem ValuesFor.answers (h : Shape art tab) (halen : art.artAlen = alen)
    (hv : ValuesFor art tab R addr) : Answers alen addr R art := by
  rw [Answers, artMatch_eq h hv, halen]

theorem Sound.answers (hs : Sound art tab R none)
    (halen : art.artAlen = alen) : Answers alen addr R art :=
  (hs.values.valuesFor hs.shape addr).answers hs.shape halen

theorem artMatchLoop_congr {dahe : ArtHeapEntry} (h : Shape art tab)
    (hentry : ∀ {π p}, tab π = some p → ∀ k, s.entry p k = art.entry p k)
    (hp : tab (bitsOf addr m) = some p)
    (hlevels : levels = art.artLevels.drop (art.mem p).atLevel) :
    artMatchLoop s addr levels m p dahe = artMatchLoop art addr levels m p dahe := by
  induction levels generalizing p m dahe with
  | nil => rfl
  | cons bits levels ih =>
    rw [h.drop_levels hp] at hlevels
    obtain ⟨rfl, rfl⟩ := cons.inj hlevels
    obtain ⟨l, -, -, hidx, hnext⟩ := h.stride hp
    rw [artMatchLoop, artMatchLoop, hentry hp]
    simp only [hidx, bind_eq_bind, bind_some, hentry hp]
    cases hent : art.entry p (idx l) with
    | node ahe => cases ahe <;> rfl
    | heap c =>
      obtain ⟨hc, hlvl⟩ := hnext c hent
      exact ih hc (by rw [hlvl])

/-- What an update stores to. -/
inductive Cell | root | entry (p : Ptr) (k : Nat)

/-- Of the tables that there are, lookups find nothing else than what they found, but in `c`. -/
structure OnlyAt (c : Option Cell) (art art' : Art) : Prop where
  next : art.next ≤ art'.next
  levels : art'.artLevels = art.artLevels
  root : c ≠ some .root → art'.artRoot = art.artRoot
  entry : ∀ p < art.next, ∀ k, c ≠ some (.entry p k) → art'.entry p k = art.entry p k

def OneStore (art art' : Art) : Prop := ∃ c, OnlyAt (some c) art art'

variable {c : Option Cell} {k : Nat} {ahe : ArtHeapEntry} {P Q : Art → Prop} {α β : Type}
  {last : α → Art} {last' : β → Art} {x : Traced Art α} {f : α → Traced Art β}

namespace OnlyAt

theorem refl : OnlyAt c art art := ⟨Nat.le_refl _, rfl, fun _ => rfl, fun _ _ _ _ => rfl⟩

theorem trans (h : OnlyAt none art s) (h' : OnlyAt c s art') : OnlyAt c art art' where
  next := h.next.trans h'.next
  levels := h'.levels.trans h.levels
  root hc := (h'.root hc).trans (h.root (some_ne_none _).symm)
  entry p hp k hc :=
    (h'.entry p (hp.trans_le h.next) k hc).trans (h.entry p hp k (some_ne_none _).symm)

/-- What lookups do not read of a table has changed. -/
theorem table {at_ : ArtTable} (hmem : s.mem = update art.mem p at_)
    (hheap : at_.atHeap = (art.mem p).atHeap) (hnext : s.next = art.next)
    (hlevels : s.artLevels = art.artLevels) (hroot : s.artRoot = art.artRoot) :
    OnlyAt c art s := by
  refine ⟨hnext.ge, hlevels, fun _ => hroot, fun q _ k _ => ?_⟩
  rw [Art.entry, Art.entry, hmem, update_apply]
  split
  next heq => rw [hheap, heq]
  next => rfl

theorem ref : OnlyAt c art (artTableRef art p) := table rfl rfl rfl rfl rfl

theorem released : OnlyAt c art (released art p) := table rfl rfl rfl rfl rfl

theorem setEntry (h : OnlyAt c art s) (hp : art.next ≤ p) : OnlyAt c art (s.setEntry p k ahe) where
  next := h.next
  levels := h.levels
  root := h.root
  entry := by
    intro q hq j hc
    rw [Art.entry_setEntry, if_neg (fun hc => Nat.ne_of_lt (hq.trans_le hp) hc.1),
      h.entry q hq j hc]

theorem answers (h : OnlyAt none art s) (hs : Sound art tab R none) (halen : art.artAlen = alen) :
    Answers alen addr R s := by
  have hmatch : artMatch s addr = artMatch art addr := by
    rw [artMatch, artMatch, h.root (some_ne_none _).symm, h.levels, hs.shape.root]
    cases hroot : tab [] with
    | none => rfl
    | some root =>
      have hroot' : tab (bitsOf addr 0) = some root := hroot
      have hlevel := (hs.shape.top hroot).2.2
      exact artMatchLoop_congr hs.shape
        (fun hp k => h.entry _ (hs.shape.lt_next hp) k (some_ne_none _).symm) hroot'
        (by rw [hlevel, drop_zero])
  rw [Answers, hmatch]
  exact hs.answers halen

end OnlyAt

namespace OneStore

theorem entry_setEntry (q : Ptr) (j : Nat) (h : some (Cell.entry p k) ≠ some (.entry q j)) :
    (art.setEntry p k ahe).entry q j = art.entry q j := by
  rw [Art.entry_setEntry, if_neg]
  rintro ⟨rfl, rfl⟩
  exact h rfl

theorem setEntry : OneStore art (art.setEntry p k ahe) :=
  ⟨_, Nat.le_refl _, rfl, fun _ => rfl, fun q _ j => entry_setEntry q j⟩

theorem back : OneStore (art.setEntry p k ahe) art :=
  ⟨_, Nat.le_refl _, rfl, fun _ => rfl, fun q _ j h => (entry_setEntry q j h).symm⟩

theorem root {root : Option Ptr} : OneStore art { art with artRoot := root } :=
  ⟨.root, Nat.le_refl _, rfl, fun h => absurd rfl h, fun _ _ _ _ => rfl⟩

end OneStore

instance : Stutters (fun s t => OneStore s t ∧ P t) (OnlyAt none) :=
  ⟨fun _ => .refl, OnlyAt.trans, fun h h' => ⟨h'.1.imp fun _ => h.trans, h'.2⟩⟩

/-- One store after the other leads to the result, and behind each of them is `P`. -/
def Stores (P : Art → Prop) (art : Art) (last : α → Art) (x : Traced Art α) : Prop :=
  x.Steps (fun s t => OneStore s t ∧ P t) (OnlyAt none) art last

namespace Stores

theorem imp (hx : Stores P art last x) (himp : ∀ s, P s → Q s) : Stores Q art last x :=
  fun log a ha => (hx log a ha).imp (fun _ t _ h => ⟨h.1, himp t h.2⟩) fun _ _ => id

theorem result {P : List UInt8 → Art → Prop} {log : List Art} {a : α}
    (h : ∀ addr, Stores (P addr) art last x) (hx : x = some (log, a)) :
    Follows OneStore (OnlyAt none) (last a) art log ∧ ∀ s ∈ log, ∀ addr, P addr s :=
  ⟨(h [] log a hx).imp (fun _ _ _ => And.left) fun _ _ => id, fun s hs addr => by
    obtain ⟨_, -, hP⟩ := (h addr log a hx).exists_step hs
    exact hP⟩

end Stores

theorem artTableGet_onlyAt {parent : Option Ptr} {r : Option Ptr × Art}
    (hget : artTableGet art parent j = some r) : OnlyAt none art r.2 ∧ ∀ q, r.1 = some q →
      q = art.next ∧
        (parent = none → j = noIndex → { r.2 with artRoot := some q } = withRoot art) := by
  simp only [artTableGet, bind_eq_bind] at hget
  obtain ⟨-, -, hget⟩ := bind_eq_some_iff.mp hget
  obtain ⟨-, -, hget⟩ := bind_eq_some_iff.mp hget
  obtain ⟨-, -, hget⟩ := bind_eq_some_iff.mp hget
  obtain ⟨-, -, hget⟩ := bind_eq_some_iff.mp hget
  split at hget
  · cases hget
    exact ⟨⟨Nat.le_succ _, rfl, fun _ => rfl, fun _ _ _ _ => rfl⟩,
      fun q hq => absurd hq.symm (some_ne_none q)⟩
  · cases hget
    refine ⟨⟨Nat.le_succ _, rfl, fun _ => rfl, fun q hq k _ => ?_⟩, ?_⟩
    · exact congrArg (fun at_ : ArtTable => at_.atHeap k) (update_of_ne (Nat.ne_of_lt hq) _ _)
    · rintro q ⟨⟩
      refine ⟨rfl, ?_⟩
      rintro rfl rfl
      rfl

theorem artTableGetStores_stores {parent : Option Ptr} (hs : Sound art tab R none)
    (halen : art.artAlen = alen) :
    Stores (Answers alen addr R) art Prod.snd (artTableGetStores art parent j) := by
  refine .bind (Steps.lift fun _ hget => (artTableGet_onlyAt hget).1) fun r hget => ?_
  rw [erase_lift] at hget
  obtain ⟨child, art1⟩ := r
  cases child with
  | none => exact .pure .refl
  | some child =>
    obtain ⟨honly, hnew⟩ := artTableGet_onlyAt hget
    obtain ⟨rfl, -⟩ := hnew child rfl
    refine .bind (.visit ⟨.setEntry, (honly.setEntry (Nat.le_refl _)).answers hs halen⟩) fun _ h => ?_
    cases h
    exact .bind (.visit ⟨.back, honly.answers hs halen⟩) fun _ _ => .pure .refl

theorem artInsertLoopStores_stores (hs : Sound art tab R none)
    (hp : tab (bitsOf an.anAddr m) = some p) (hm : m < an.anPlen) (halen : art.artAlen = alen)
    (hle : an.anPlen ≤ alen) :
    Stores (Answers alen addr R) art Prod.snd (artInsertLoopStores an fuel p art) := by
  have h := hs.shape
  induction fuel generalizing art tab p m with
  | zero => exact .none
  | succ fuel ih =>
    have hoff := h.offset_eq hp
    rw [artInsertLoopStores]
    by_cases hlt : m + (art.mem p).atBits < an.anPlen
    case neg =>
      rw [if_neg (by rwa [hoff])]
      exact .pure .refl
    have hlt' : (art.mem p).atOffset + (art.mem p).atBits < an.anPlen := by rwa [hoff]
    obtain ⟨l, hlen, hsplit, hidx, hcase⟩ := h.descend hp hlt
    rw [if_pos hlt']
    refine .bind (.keep _) fun j hj => ?_
    rw [erase_lift, hidx, some.injEq] at hj
    subst hj
    rcases hcase with ⟨c, hent, hc, -⟩ | ⟨ahe, hent, hnone, -⟩
    · simp only [hent]
      exact ih hs hc hlt halen h
    · have hlevel := h.level_succ hp (by rw [length_bitsOf]; omega)
      simp only [hent]
      refine .bind (artTableGetStores_stores hs halen) fun r hget => ?_
      rw [erase_artTableGetStores] at hget
      obtain ⟨child, art1⟩ := r
      cases child with
      | none => exact .pure .refl
      | some child =>
        -- the table is linked by the last of the stores
        obtain ⟨r, art2, hadd, -, hgrown⟩ := addTable_ok h hp hlen hlevel
        obtain ⟨honly, hnew⟩ := artTableGet_onlyAt hget
        obtain ⟨rfl, -⟩ := hnew child rfl
        simp only [addTable, hget, hent, bind_eq_bind, bind_some, some.injEq, Prod.mk.injEq] at hadd
        obtain ⟨rfl, rfl⟩ := hadd
        obtain ⟨hr, -⟩ | ⟨-, -, hg⟩ := hgrown
        · cases hr
        have hs1 := hg.sound h hp hlen hnone hlevel hs
        have halen1 := hg.alen.trans halen
        have hchild : update tab (bitsOf an.anAddr m ++ l) (some art.next)
            (bitsOf an.anAddr (m + (art.mem p).atBits)) = some art.next := by
          rw [hsplit, update_self]
        refine .after .ref (.bind (.visit ⟨.setEntry,
          ((honly.trans .ref).setEntry (Nat.le_refl _)).answers hs halen⟩) fun t ht => ?_)
        cases ht
        refine .bind (.visit ⟨.setEntry, hs1.answers halen1⟩) fun t ht => ?_
        cases ht
        exact ih hs1 hchild hlt halen1 hs1.shape

structure Wrote (ahe : ArtHeapEntry) (art s : Art) : Prop where
  root : s.artRoot = art.artRoot
  levels : s.artLevels = art.artLevels
  alen : s.artAlen = art.artAlen
  next : s.next = art.next
  pool : s.pool = art.pool
  place : ∀ p, (s.mem p).place = (art.mem p).place
  entry : ∀ p k, s.entry p k = art.entry p k ∨ s.entry p k = ahe

namespace Wrote

theorem refl (art : Art) : Wrote ahe art art :=
  ⟨rfl, rfl, rfl, rfl, rfl, fun _ => rfl, fun _ _ => .inl rfl⟩

theorem trans (h : Wrote ahe art s) (h' : Wrote ahe s art') : Wrote ahe art art' where
  root := h'.root.trans h.root
  levels := h'.levels.trans h.levels
  alen := h'.alen.trans h.alen
  next := h'.next.trans h.next
  pool := h'.pool.trans h.pool
  place := fun p => (h'.place p).trans (h.place p)
  entry := by
    intro p k
    rcases h'.entry p k with heq | heq
    · rw [heq]
      exact h.entry p k
    · exact .inr heq

theorem setEntry (art : Art) (p : Ptr) (k : Nat) : Wrote ahe art (art.setEntry p k ahe) where
  root := rfl
  levels := rfl
  alen := rfl
  next := rfl
  pool := rfl
  place := art.place_setEntry p k ahe
  entry := by
    intro q j
    rw [Art.entry_setEntry]
    split
    · exact .inr rfl
    · exact .inl rfl

end Wrote

theorem artAllotFromStores_steps {i : Nat} {oahe nahe : ArtHeapEntry} (fuel : Nat) (pc : AllotPc)
    (k : Nat) (art : Art) : (artAllotFromStores p i oahe nahe fuel pc k art).Steps
      (fun s t => OneStore s t ∧ Wrote nahe s t) Eq art id := by
  induction fuel generalizing pc k art with
  | zero => rintro log s ⟨⟩
  | succ fuel ih =>
    cases pc with
    | again =>
      rw [artAllotFromStores]
      split <;> exact ih _ _ _
    | fringe =>
      rw [artAllotFromStores]
      have hrest (t : Art) : (if k % 2 ≠ 0 then artAllotFromStores p i oahe nahe fuel .moveup k t
          else artAllotFromStores p i oahe nahe fuel .fringe (k + 1) t).Steps
            (fun s t => OneStore s t ∧ Wrote nahe s t) Eq t id := by
        split <;> exact ih _ _ _
      by_cases hold : art.entry (art.slot p k).1 (art.slot p k).2 = oahe
      · rw [if_pos hold]
        exact .bind (.visit ⟨.setEntry, .setEntry ..⟩) fun t _ => hrest t
      · rw [if_neg hold]
        exact .bind (.pure rfl) fun t _ => hrest t
    | nonfringe =>
      rw [artAllotFromStores]
      split <;> exact ih _ _ _
    | moveon =>
      rw [artAllotFromStores]
      split <;> exact ih _ _ _
    | moveup =>
      rw [artAllotFromStores]
      refine .bind (.visit ⟨.setEntry, .setEntry ..⟩) fun t _ => ?_
      split
      · exact ih _ _ _
      · exact .pure rfl

structure Between (art art' s : Art) : Prop where
  same : SameTables art s
  entry : ∀ p k, s.entry p k = art.entry p k ∨ s.entry p k = art'.entry p k

theorem Wrote.between {ahe : ArtHeapEntry} (h : Wrote ahe art s) (h' : Wrote ahe s art')
    (hsame : SameTables art art') : Between art art' s := by
  have hentry (p : Ptr) (k : Nat) : s.entry p k = art.entry p k ∨ s.entry p k = art'.entry p k := by
    rcases h.entry p k with heq | heq
    · exact .inl heq
    · rcases h'.entry p k with heq' | heq'
      · exact .inr heq'.symm
      · exact .inr (heq.trans heq'.symm)
  refine ⟨⟨h.root, h.levels, h.alen, h.next, h.pool, h.place, fun p k q => ?_⟩, hentry⟩
  rcases hentry p k with heq | heq
  · rw [heq]
  · rw [heq]
    exact hsame.link p k q

namespace Between

variable (hb : Between art art' s)

include hb

theorem slotVal (hsame : SameTables art art') (p : Ptr) (k : Nat) :
    s.slotVal p k = art.slotVal p k ∨ s.slotVal p k = art'.slotVal p k := by
  rw [Art.slotVal, Art.slotVal, Art.slotVal, hb.same.slot, hsame.slot]
  exact hb.entry ..

/-- An address has one slot in a table, and no other table has changed: a lookup sees all of the
old routes or all of the new ones. -/
theorem answers (h : Shape art tab) (hv : Values art tab R) (hsame : SameTables art art')
    (hv' : Values art' tab (update R (π ++ l) v)) (hp : tab π = some p) (hpos : l ≠ [])
    (hl : l.length ≤ (art.mem p).atBits) (halen : art.artAlen = alen) :
    Answers alen addr R s ∨ Answers alen addr (update R (π ++ l) v) s := by
  have hs : Shape s tab := h.of_same hb.same
  have halen' : s.artAlen = alen := hb.same.alen.trans halen
  have hnil : ([] : List Bool) ≠ π ++ l := fun heq => hpos (append_eq_nil_iff.mp heq.symm).2
  have hdefault {r : Ptr} (hr : tab [] = some r) :
      s.entry r artHeapIdxDefault = .node (R []) := by
    rcases hb.entry r artHeapIdxDefault with heq | heq
    · rw [heq, hv.default hr]
    · rw [heq, hv'.default hr, update_of_ne hnil]
  -- a slot of another table
  have hother {π' l' : List Bool} {p' : Ptr} (hp' : tab π' = some p') (hpos' : l' ≠ [])
      (hl' : l'.length ≤ (art.mem p').atBits) (hne : π ≠ π') :
      s.slotVal p' (idx l') = .node (routeAt R π' l') ∧
        routeAt (update R (π ++ l) v) π' l' = routeAt R π' l' := by
    have hroute := routeAt_update_other (R := R) (v := v) h hp hpos hl hp' hl' hne
    refine ⟨?_, hroute⟩
    rcases hb.slotVal hsame p' (idx l') with heq | heq
    · rw [heq, hv.slot hp' hpos' hl']
    · rw [heq, hv'.slot hp' hpos' (by rwa [hsame.bits]), hroute]
  have hstored {ρ : List Bool} {an : ArtNode} (hρ : R ρ = some an) :
      ∃ π p, tab π = some p ∧ Home π (s.mem p).atBits ρ := by
    obtain ⟨π', p', hp', hhome⟩ := hv.stored hρ
    exact ⟨π', p', hp', by rwa [hb.same.bits]⟩
  have hstored' {ρ : List Bool} {an : ArtNode} (hρ : update R (π ++ l) v ρ = some an) :
      ∃ π p, tab π = some p ∧ Home π (s.mem p).atBits ρ := by
    obtain ⟨π', p', hp', hhome⟩ := hv'.stored hρ
    exact ⟨π', p', hp', by rwa [hb.same.bits, ← hsame.bits]⟩
  let l₀ := (bitsOf addr (π.length + (art.mem p).atBits)).drop π.length
  have hlen₀ : l₀.length = (art.mem p).atBits := by
    rw [length_drop, length_bitsOf, Nat.add_sub_cancel_left]
  have hpos₀ : l₀ ≠ [] := length_pos_iff.mp (by rw [hlen₀]; exact h.bits_pos hp)
  -- the slot of the address in the table that changes
  have hhere {m : Nat} {p' : Ptr} {l' : List Bool} (hp' : tab (bitsOf addr m) = some p')
      (hsplit : bitsOf addr m ++ l' = bitsOf addr (m + (s.mem p').atBits))
      (heq : π = bitsOf addr m) : p' = p ∧ l' = l₀ := by
    have hm : π.length = m := by rw [heq, length_bitsOf]
    have hpp : p' = p := some.inj (hp'.symm.trans (heq ▸ hp))
    refine ⟨hpp, ?_⟩
    have hdrop := congrArg (drop m) hsplit
    rw [drop_left' (length_bitsOf addr m), hb.same.bits, hpp, ← hm] at hdrop
    exact hdrop
  have hvalues {R₀ : Routes} (hnow : s.slotVal p (idx l₀) = .node (routeAt R₀ π l₀))
      (hrest : ∀ {π' l' : List Bool} {p' : Ptr}, tab π' = some p' → l' ≠ [] →
        l'.length ≤ (art.mem p').atBits → π ≠ π' →
        s.slotVal p' (idx l') = .node (routeAt R₀ π' l'))
      {m : Nat} {p' : Ptr} {l' : List Bool} (hp' : tab (bitsOf addr m) = some p')
      (hlen : l'.length = (s.mem p').atBits)
      (hsplit : bitsOf addr m ++ l' = bitsOf addr (m + (s.mem p').atBits)) :
      s.slotVal p' (idx l') = .node (routeAt R₀ (bitsOf addr m) l') := by
    by_cases heq : π = bitsOf addr m
    · obtain ⟨rfl, rfl⟩ := hhere hp' hsplit heq
      rw [← heq, hnow]
    · rw [hb.same.bits] at hlen
      exact hrest hp' (length_pos_iff.mp (by rw [hlen]; exact h.bits_pos hp'))
        (Nat.le_of_eq hlen) heq
  rcases hb.slotVal hsame p (idx l₀) with heq | heq
  · rw [hv.slot hp hpos₀ (Nat.le_of_eq hlen₀)] at heq
    refine .inl (ValuesFor.answers hs halen' ⟨?_, hdefault, hstored⟩)
    exact hvalues heq fun hp' hpos' hl' hne => (hother hp' hpos' hl' hne).1
  · rw [hv'.slot hp hpos₀ (Nat.le_of_eq (by rw [hlen₀, hsame.bits]))] at heq
    refine .inr (ValuesFor.answers hs halen' ⟨?_, fun hr => ?_, hstored'⟩)
    · refine hvalues heq fun hp' hpos' hl' hne => ?_
      rw [(hother hp' hpos' hl' hne).1, (hother hp' hpos' hl' hne).2]
    · rw [hdefault hr, update_of_ne hnil]

end Between

def Either (alen : Nat) (addr : List UInt8) (R R' : Routes) (s : Art) : Prop :=
  Answers alen addr R s ∨ Answers alen addr R' s

section

variable (addr) (h : Shape art tab) (hv : Values art tab R) (hp : tab π = some p) (hpos : l ≠ [])
  (hl : l.length ≤ (art.mem p).atBits) (hkey : ∀ an, v = some an → an.bits = π ++ l)

include h hv hp hpos hl hkey

theorem Values.allot_stores (hlt : idx l < (art.mem p).atMinfringe)
    (halen : art.artAlen = alen) : Stores (Either alen addr R (update R (π ++ l) v)) art id
      (artAllotStores art p (idx l) (.node (routeAt R π l))
        (.node (routeAt (update R (π ++ l) v) π l))) := by
  obtain ⟨art', hrun, hsame, -, hv'⟩ := hv.change h hp hpos hl hkey
  rw [if_pos hlt, ← erase_artAllotStores] at hrun
  intro log s hlog
  rw [erase_of_eq hlog, some.injEq] at hrun
  subst hrun
  obtain ⟨log₁, log₂, _, hassert, hallot, rfl⟩ := bind_eq_some hlog
  obtain ⟨_, -, heq⟩ := map_eq_some_iff.mp hassert
  cases heq
  have hfollows := artAllotFromStores_steps _ _ _ _ log₂ s hallot
  have hbetween := (hfollows.between (Wrote _) Wrote.trans (fun _ _ => And.right)
    fun _ _ (heq : _ = _) => heq ▸ .refl _).2
  refine hfollows.imp (fun _ t ht hstep => ⟨hstep.1, ?_⟩) ?_
  · exact ((hbetween t ht).1.between (hbetween t ht).2 hsame).answers h hv hsame hv' hp hpos hl halen
  · rintro _ _ rfl
    exact .refl

theorem Values.slot_stores (hge : ¬idx l < (art.mem p).atMinfringe)
    (halen : art.artAlen = alen) : Stores (Either alen addr R (update R (π ++ l) v)) art id
      (visit (art.setSlot p (idx l) (.node (routeAt (update R (π ++ l) v) π l)))) := by
  obtain ⟨art', hrun, hsame, -, hv'⟩ := hv.change h hp hpos hl hkey
  rw [if_neg hge, some.injEq] at hrun
  subst hrun
  have h' := h.of_same hsame
  exact .visit ⟨.setEntry, .inr ((hv'.valuesFor h' addr).answers h' (hsame.alen.trans halen))⟩

end

theorem artInsertAtStores_stores (hs : Sound art tab R none) (hq : TableFor art tab an.bits q)
    (halen : art.artAlen = alen) : Stores (Either alen addr R (update R an.bits (some an))) art
      Prod.snd (artInsertAtStores art q an) := by
  obtain ⟨π, l, hp, hκ, hpos, hl⟩ := hq
  have hsame : SameTables art (artTableRef art q) := sameTables_modify (f := (· + 1))
  have hh := hs.shape.of_same hsame
  have hv := hs.values.congr hsame (art.entry_modify q fun _ => rfl)
  have hl' : l.length ≤ ((artTableRef art q).mem q).atBits := by rwa [hsame.bits]
  have halen' : (artTableRef art q).artAlen = alen := hsame.alen.trans halen
  have hkey (an' : ArtNode) (h : some an = some an') : an'.bits = π ++ l := by
    cases h
    exact hκ
  have hnew : routeAt (update R (π ++ l) (some an)) π l = some an := by
    rw [routeAt_update_self hpos, some_or]
  refine .bind (.keep _) fun i hi => ?_
  rw [erase_lift, hs.shape.bindex_for hp hκ hl, some.injEq] at hi
  subst hi
  simp only [hs.values.slot_route hp hpos hl, hκ]
  split
  · exact .pure .refl
  · split
    next hlt =>
      have hallot := hv.allot_stores addr hh hp hpos hl' hkey hlt halen'
      rw [hnew] at hallot
      exact .after .ref (.bind hallot fun _ _ => .pure .refl)
    next hge =>
      have hslot := hv.slot_stores addr hh hp hpos hl' hkey hge halen'
      rw [hnew, Art.setSlot, hsame.slot] at hslot
      exact .after .ref (.bind hslot fun _ _ => .pure .refl)

theorem Routes.insert_some {an' : ArtNode} (hR : R an.bits = none) :
    R.insert an (some an') = update R an.bits (some an) := if_pos ⟨hR, nofun⟩

theorem artInsertRootStores_stores (hs : Sound art tab R none)
    (hr : tab [] = some p) (halen : art.artAlen = alen) (hle : an.anPlen ≤ alen)
    (hR : R an.bits = none) (hrun : artInsertRoot art p an = some (r, art')) :
    Stores (Either alen addr R (R.insert an r)) art Prod.snd (artInsertRootStores art p an) := by
  rw [artInsertRootStores]
  split
  next hplen =>
    obtain ⟨r', art'', hrun', hins⟩ :=
      artInsertRoot_default (n := 0) (sound_none_iff.mp hs) hr hplen
    obtain ⟨hkept, hcase⟩ := hins.inserted
    rw [hrun', some.injEq, Prod.mk.injEq] at hrun
    obtain ⟨rfl, rfl⟩ := hrun
    rw [artInsertRoot, if_pos hplen] at hrun'
    cases hd : (art.entry p artHeapIdxDefault).toNode with
    | some oan => exact .pure .refl
    | none =>
      simp only [hd, some.injEq, Prod.mk.injEq] at hrun' ⊢
      obtain ⟨rfl, rfl⟩ := hrun'
      rw [Routes.insert_some hR]
      rcases hcase with ⟨oan, hoan, -⟩ | ⟨-, -, tab', hs'⟩ | ⟨-, hno, -⟩
      · rw [hR] at hoan
        cases hoan
      · exact .after .ref (.bind (.visit ⟨.setEntry, .inr (hs'.answers (hkept.alen.trans halen))⟩)
          fun _ _ => .pure .refl)
      · cases hno
  next hplen =>
    obtain ⟨r1, art1, tab1, hrun1, hpre⟩ :=
      artInsertLoop_held (m := 0) (sound_none_iff.mp hs) (fun _ _ => rfl) hr
        (Nat.pos_of_ne_zero hplen) (halen ▸ hle)
        (show art.artLevels.length ≤ (art.mem p).atLevel + art.artLevels.length by omega)
    have hs1 := sound_none_iff.mpr hpre.sound
    have hfor := hpre.table
    have hloop : Stores (Answers alen addr R) art Prod.snd
        (artInsertLoopStores an art.artLevels.length p art) :=
      artInsertLoopStores_stores (m := 0) hs hr (Nat.pos_of_ne_zero hplen) halen hle
    refine .bind (hloop.imp fun _ => .inl) fun r' hr' => ?_
    rw [erase_artInsertLoopStores, hrun1, some.injEq] at hr'
    subst hr'
    cases r1 with
    | none => exact .pure .refl
    | some q =>
      obtain ⟨art2, hat, -⟩ := artInsertAt_absent hpre.sound (hfor q rfl) hR
      rw [artInsertRoot, if_neg hplen, hrun1] at hrun
      simp only [bind_eq_bind, bind_some, hat, some.injEq, Prod.mk.injEq] at hrun
      rw [← hrun.1, Routes.insert_some hR]
      exact artInsertAtStores_stores hs1 (hfor q rfl) (hpre.extended.kept.alen.trans halen)

theorem artInsertStores_stores (hs : Sound art tab R none)
    (hlevels : 0 < art.artLevels.length) (halen : art.artAlen = alen) (hle : an.anPlen ≤ alen)
    (hR : R an.bits = none) (hrun : artInsert art an = some (r, art')) :
    Stores (Either alen addr R (R.insert an r)) art Prod.snd (artInsertStores art an) := by
  rw [artInsert, kassert_true (halen ▸ hle)] at hrun
  simp only [bind_eq_bind, bind_some] at hrun
  refine .bind (.keep _) fun _ _ => ?_
  rw [hs.shape.root] at hrun ⊢
  cases htab : tab [] with
  | some root =>
    rw [htab] at hrun
    exact artInsertRootStores_stores hs htab halen hle hR hrun
  | none =>
    simp only [htab] at hrun
    refine .bind ((artTableGetStores_stores hs halen).imp fun _ => .inl) fun r' hget => ?_
    rw [erase_artTableGetStores] at hget
    rw [hget, bind_some] at hrun
    obtain ⟨root, art1⟩ := r'
    cases root with
    | none => exact .pure .refl
    | some root =>
      obtain ⟨rfl, hroot⟩ := (artTableGet_onlyAt hget).2 root rfl
      have hone : OneStore art1 (withRoot art) := hroot rfl rfl ▸ .root
      have hs1 := sound_none_iff.mpr
        (SoundWith.withRoot hs.shape htab (sound_none_iff.mp hs) rfl hlevels)
      have hr : update tab [] (some art.next) [] = some art.next := update_self ..
      simp only [hroot] at hrun ⊢
      refine .bind (.visit ⟨hone, .inl (hs1.answers halen)⟩) fun t ht => ?_
      cases ht
      exact artInsertRootStores_stores hs1 hr halen hle hR hrun

section Free

variable {held : Ptr → Nat}

theorem SoundWith.answers (hs : SoundWith art tab R held) (halen : art.artAlen = alen) :
    Answers alen addr R art :=
  (hs.values.valuesFor hs.shape addr).answers hs.shape halen

theorem artTablePutStores_stores (hs : SoundWith art tab R held) (hp : tab π = some p)
    (hzero : (art.mem p).atRefcnt = 0) (halen : art.artAlen = alen) :
    Stores (Answers alen addr R) art Prod.snd (artTablePutStores art p) := by
  obtain ⟨hvacant, -⟩ := hs.vacant hp hzero
  refine .bind (.keep _) fun _ _ => .bind (.keep _) fun _ _ => ?_
  by_cases hπ : π = []
  · subst hπ
    rw [(hs.shape.top hp).1]
    refine .bind (.keep _) fun _ _ => .bind (.keep _) fun _ _ =>
      .bind (.visit ⟨.root, ?_⟩) fun _ _ => .pure (.table rfl rfl rfl rfl rfl)
    have hempty : Answers alen addr R (withoutRoot art p) :=
      (sound_withoutRoot hs hp hvacant).answers halen
    exact hempty
  · obtain ⟨π₀, l, q, hq, hl, rfl⟩ := hs.shape.parent hp hπ
    obtain ⟨hparent, hindex, -⟩ := hs.shape.child hq hl hp
    rw [hparent, hindex]
    refine .bind (.keep _) fun _ _ => .bind (.keep _) fun _ _ => .bind (.keep _) fun _ _ =>
      .bind (.visit ⟨.setEntry, ?_⟩) fun _ _ => .pure (.table rfl rfl rfl rfl rfl)
    have hg : Shrunk art q (idx l) p
        (art.setEntry q (idx l) (art.entry p artHeapIdxDefault)) :=
      ⟨rfl, rfl, rfl, rfl, rfl, fun c _ => art.place_setEntry .., art.entry_setEntry q (idx l) _,
        art.atRefcnt_setEntry q (idx l) _⟩
    exact (hg.sound hs.shape hq hl hp hvacant hs).answers halen

theorem artTableFreeLoopStores_stores (hs : SoundWith art tab R (hold held p))
    (hp : tab π = some p) (halen : art.artAlen = alen) :
    Stores (Answers alen addr R) art id (artTableFreeLoopStores fuel (some p) art) := by
  induction fuel generalizing art tab π p with
  | zero => exact .none
  | succ fuel ih =>
    have hs1 := hs.released
    rw [artTableFreeLoopStores.eq_def]
    simp only [artTableRele_some]
    by_cases hzero : ((released art p).mem p).atRefcnt = 0
    case neg =>
      rw [decide_eq_false hzero]
      exact .pure .released
    rw [decide_eq_true hzero]
    refine .after .released (.bind (artTablePutStores_stores hs1 hp hzero halen) fun r hput => ?_)
    rw [erase_artTablePutStores] at hput
    by_cases hπ : π = []
    · subst hπ
      rw [artTablePut_root hs1 hp hzero, some.injEq] at hput
      subst hput
      cases fuel with
      | zero => exact .none
      | succ fuel => exact .pure .refl
    · obtain ⟨hvacant, -⟩ := hs1.vacant hp hzero
      obtain ⟨π₀, l, q, hq, hl, rfl⟩ := hs1.shape.parent hp hπ
      rw [artTablePut_child hs1 hq hl hp hzero, some.injEq] at hput
      subst hput
      have hg := shrunk_withoutTable (released art p) p q (idx l)
      have hs2 := hg.sound hs1.shape hq hl hp hvacant hs1
      have hne : π₀ ≠ π₀ ++ l := by
        rw [Ne, self_eq_append_right]
        rintro rfl
        have hpos := hs1.shape.bits_pos hq
        rw [length_nil] at hl
        omega
      exact ih hs2 (by rw [update_of_ne hne, hq]) halen

theorem artDeleteAtStores_stores (hs : SoundWith art tab R held)
    (hq : TableFor art tab (bitsOf addr plen) q) (hR : R (bitsOf addr plen) = some an)
    (halen : art.artAlen = alen) {addr' : List UInt8} :
    Stores (Either alen addr' R (update R (bitsOf addr plen) none)) art Prod.snd
      (artDeleteAtStores art q addr plen) := by
  obtain ⟨π, l, hp, hκ, hpos, hl⟩ := hq
  rw [hκ] at hR
  have hroute : routeAt R π l = some an := routeAt_of_some hpos hR
  have hnext := next_route hs.shape hs.values hp hpos hl
  -- what follows the change of the route
  obtain ⟨art1, hrun, hsame, hcnt, hv⟩ :=
    hs.values.change (v := none) hs.shape hp hpos hl nofun
  have hs1 : SoundWith art1 tab (update R (π ++ l) none) (hold held q) :=
    ⟨hs.shape.of_same hsame, hv,
      hs.counted_delete hp (home_append hpos hl) (by rw [hR]; nofun) hsame hcnt⟩
  have hrest : Stores (Either alen addr' R (update R (π ++ l) none)) art1 Prod.snd (do
      let art ← artTableFreeStores art1 q
      pure (some an, art)) :=
    .bind ((artTableFreeLoopStores_stores hs1 hp (hsame.alen.trans halen)).imp fun _ => .inr)
      fun _ _ => .pure .refl
  refine .bind (.keep _) fun i hi => ?_
  rw [erase_lift, hs.shape.bindex_for hp hκ hl, some.injEq] at hi
  subst hi
  simp only [hs.values.slot_route hp hpos hl, hroute, ArtHeapEntry.toNode, hnext, hκ]
  split
  next hlt =>
    have hallot := hs.values.allot_stores (v := none) addr' hs.shape hp hpos hl nofun hlt
      halen
    rw [hroute] at hallot
    refine .bind hallot fun art2 h2 => ?_
    rw [if_pos hlt, hroute] at hrun
    rw [erase_artAllotStores, hrun, some.injEq] at h2
    rw [← h2]
    exact hrest
  next hge =>
    have hslot := hs.values.slot_stores (v := none) addr' hs.shape hp hpos hl nofun hge
      halen
    refine .bind hslot fun art2 h2 => ?_
    rw [if_neg hge] at hrun
    cases h2
    cases hrun
    exact hrest

theorem artDeleteStores_stores (hs : SoundWith art tab R held)
    (halen : art.artAlen = alen) (hle : plen ≤ alen) (hR : R (bitsOf addr plen) = some an)
    {addr' : List UInt8} : Stores (Either alen addr' R (update R (bitsOf addr plen) none)) art
      Prod.snd (artDeleteStores art addr plen) := by
  have h := hs.shape
  obtain ⟨π, q, hq, -⟩ := hs.values.stored hR
  obtain ⟨root, hroot⟩ := ne_none_iff_exists'.mp (h.rooted hq)
  refine .bind (.keep _) fun _ _ => ?_
  rw [h.root, hroot]
  by_cases hplen : plen = 0
  · subst hplen
    obtain ⟨hdefault, -, hs1⟩ := hs.delete_default hroot hR
    simp only [if_true, hdefault, ArtHeapEntry.toNode]
    refine .bind (.visit ⟨.setEntry, .inr (hs1.answers halen)⟩) fun art1 h1 => ?_
    cases h1
    exact .bind ((artTableFreeLoopStores_stores hs1 hroot halen).imp fun _ => .inr)
      fun _ _ => .pure .refl
  · obtain ⟨at_, hloop, hfor⟩ := hs.delete_found hroot hplen hR
    simp only [if_neg hplen]
    refine .bind (.keep _) fun r hr => ?_
    rw [erase_lift, hloop, some.injEq] at hr
    subst hr
    exact artDeleteAtStores_stores hs hfor hR halen

end Free

variable {pool : Ptr → Bool}

/-- In every reachable state: after each store of an `art_insert` of an absent prefix, and of an
`art_delete` of a present one, the best match of an address is the longest of the routes from
before the operation that cover it, or of those from after it.  Each of the states is one store
behind the one before it, and none is between the last of them and the result. -/
theorem art_match_during_update (h : Reachable pool alen art R) :
    (∀ an : ArtNode, an.anPlen ≤ alen → R an.bits = none →
      ∃ stores r art', artInsertStores art an = some (stores, r, art') ∧
        artInsert art an = some (r, art') ∧ Follows OneStore (OnlyAt none) art' art stores ∧
        ∀ s ∈ stores, ∀ addr,
          artMatch s addr = some (longest R (bitsOf addr alen) 0 (alen + 1)) ∨
          artMatch s addr = some (longest (R.insert an r) (bitsOf addr alen) 0 (alen + 1))) ∧
    ∀ addr plen, plen ≤ alen → R (bitsOf addr plen) ≠ none →
      ∃ stores r art', artDeleteStores art addr plen = some (stores, r, art') ∧
        artDelete art addr plen = some (r, art') ∧ Follows OneStore (OnlyAt none) art' art stores ∧
        ∀ s ∈ stores, ∀ addr',
          artMatch s addr' = some (longest R (bitsOf addr' alen) 0 (alen + 1)) ∨
          artMatch s addr' = some (longest (Function.update R (bitsOf addr plen) none)
            (bitsOf addr' alen) 0 (alen + 1)) := by
  obtain ⟨tab, hs⟩ := h.good.sound
  refine ⟨fun an hle hR => ?_, fun addr plen hle hR => ?_⟩
  · obtain ⟨r, art', hrun, -⟩ := h.good.insert hle
    obtain ⟨stores, hstores⟩ := exists_of_erase ((erase_artInsertStores art an).trans hrun)
    exact ⟨stores, r, art', hstores, hrun, Stores.result
      (fun _ => artInsertStores_stores hs h.good.levels h.good.alen hle hR hrun) hstores⟩
  · obtain ⟨an, han⟩ := ne_none_iff_exists'.mp hR
    obtain ⟨art', hrun, -⟩ := h.good.delete hle han
    obtain ⟨stores, hstores⟩ := exists_of_erase ((erase_artDeleteStores art addr plen).trans hrun)
    exact ⟨stores, some an, art', hstores, hrun, Stores.result
      (fun _ => artDeleteStores_stores (sound_none_iff.mp hs) h.good.alen hle han) hstores⟩

theorem art_match_during_update_nested : ∃ art, Reachable (fun _ => true) 32 art nestedRoutes ∧
    ∃ stores r art', artDeleteStores art [10, 1, 0, 0] 16 = some (stores, r, art') ∧
      artDelete art [10, 1, 0, 0] 16 = some (r, art') ∧
      Follows OneStore (OnlyAt none) art' art stores ∧ ∀ s ∈ stores, ∀ addr,
        artMatch s addr = some (longest nestedRoutes (bitsOf addr 32) 0 33) ∨
        artMatch s addr = some (longest (Function.update nestedRoutes (bitsOf [10, 1, 0, 0] 16) none)
          (bitsOf addr 32) 0 33) := by
  obtain ⟨-, art, -, -, h⟩ := exists_nested
  exact ⟨art, h, (art_match_during_update h).2 [10, 1, 0, 0] 16 (by decide) (by decide)⟩

end Mbsd.Net.Allotment
