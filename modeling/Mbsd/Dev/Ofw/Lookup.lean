import Mathlib.Data.List.TakeWhile
import Mbsd.Dev.Ofw.Properties

/-! The node that has a phandle, and the one that a path leads to. -/

namespace Mbsd.Dev.Ofw

open Lib Lib.Fuel List Option

variable {m : Mem} {t : Fdt} {p q r n : Nat} {s name path : Str} {d : NodeData}
  {f cs rest : Nodes} {x : Property} {xs ys : List Property} {c stop : UInt8} {o : Option Property}

section Phandle

def beValue (bytes : List UInt8) : Nat := bytes.foldl (fun x c => x * 256 + c.toNat) 0

def NodeData.phandle (d : NodeData) : Option Nat :=
  ((d.props.find? (phandleStr == ·.name)).or (d.props.find? (linuxPhandleStr == ·.name))).bind
    fun x => if x.value.length = 4 then some (beValue x.value) else none

theorem be32_of_bytes {bytes : List UInt8} (h : Bytes m p bytes) (hlen : bytes.length = 4) :
    be32 m p = beValue bytes := by
  match bytes, hlen with
  | [a, b, c, d], _ =>
    obtain ⟨rfl, rfl, rfl, rfl, -⟩ := h
    simp only [be32, beValue, foldl_cons, foldl_nil, Nat.add_assoc, Nat.reduceAdd]
    omega

theorem toInt_of_lt {x : Nat} (h : x < 2 ^ 31) : toInt x = x := if_pos h

theorem Found.absent_iff {r : Int × Option Nat} (h : Found m o r)
    (hlen : ∀ x, o = some x → x.value.length < 2 ^ 31) : r.1 < 0 ↔ o = none := by
  cases o with
  | none =>
    cases (h : r = (-1, none))
    exact ⟨fun _ => rfl, fun _ => by decide⟩
  | some x =>
    obtain ⟨-, hr, -⟩ := h
    rw [hr, toInt_of_lt (hlen x rfl)]
    exact ⟨fun hlt => absurd hlt (by omega), fun h => nomatch h⟩

theorem Found.word_iff {r : Int × Option Nat} (h : Found m o r)
    (hlen : ∀ x, o = some x → x.value.length < 2 ^ 31) (k : Nat) :
    (r.1 = 4 ∧ r.2.map (be32 m) = some k) ↔
      o.bind (fun x => if x.value.length = 4 then some (beValue x.value) else none) = some k := by
  cases o with
  | none =>
    cases (h : r = (-1, none))
    exact ⟨fun h => (nomatch h.2), fun h => (nomatch h)⟩
  | some x =>
    obtain ⟨-, hr, out, hout, hbytes⟩ := h
    rw [hr, hout, toInt_of_lt (hlen x rfl), map_some, bind_some]
    by_cases h4 : x.value.length = 4
    · rw [if_pos h4, be32_of_bytes hbytes h4, h4]
      exact ⟨fun h => h.2, fun h => ⟨rfl, h⟩⟩
    · rw [if_neg h4]
      exact ⟨fun h => absurd (Int.ofNat.inj h.1) h4, fun h => nomatch h⟩

def NodeData.Short (d : NodeData) : Prop := ∀ x ∈ d.props, x.value.length < 2 ^ 31

theorem phandleProperty_returns (ht : Inited m t) (h : NodeAt m p d cs rest) (hd : d.Short) :
    ∃ r, Returns (fun n => (fdtNodeProperty m (some t) n p phandleStr).bind fun r =>
        if r.1 < 0 then fdtNodeProperty m (some t) n p linuxPhandleStr else some r) r ∧
      ∀ k, (r.1 = 4 ∧ r.2.map (be32 m) = some k) ↔ d.phandle = some k := by
  have hlen : ∀ name x, d.props.find? (name == ·.name) = some x → x.value.length < 2 ^ 31 :=
    fun name x hx => hd x (mem_of_find?_eq_some hx)
  obtain ⟨r, hr, hfound⟩ := fdtNodeProperty_returns ht h phandleStr
  obtain ⟨r', hr', hfound'⟩ := fdtNodeProperty_returns ht h linuxPhandleStr
  have habsent := hfound.absent_iff (hlen phandleStr)
  by_cases hlt : r.1 < 0
  · refine ⟨r', hr.bind (hr'.congr fun n => if_pos hlt), fun k => ?_⟩
    rw [NodeData.phandle, habsent.mp hlt, none_or]
    exact hfound'.word_iff (hlen linuxPhandleStr) k
  · refine ⟨r, hr.bind ((Returns.some r).congr fun n => if_neg hlt), fun k => ?_⟩
    obtain ⟨x, hx⟩ := ne_none_iff_exists'.mp fun h => hlt (habsent.mpr h)
    rw [hx] at hfound
    rw [NodeData.phandle, hx, some_or]
    exact hfound.word_iff (fun y hy => hlen phandleStr y (hx.trans hy)) k

theorem fdtFindPhandleRecurse_eq (t : Option Fdt) (k n : Nat) :
    fdtFindPhandleRecurse m t k (n + 1) p = ((fdtNodeProperty m t n p phandleStr).bind fun r =>
        if r.1 < 0 then fdtNodeProperty m t n p linuxPhandleStr else some r).bind fun r =>
          if r.1 = 4 ∧ r.2.map (be32 m) = some k then some (some p)
          else (fdtChildNode m t n p).bind fun child => findPhandleLoop m t k n child := by
  rw [fdtFindPhandleRecurse, bind_assoc]
  refine congrArg _ (funext fun r => ?_)
  by_cases hr : r.1 < 0
  · rw [if_pos hr, if_pos hr]
    rfl
  · rw [if_neg hr, if_neg hr]
    rfl

theorem findPhandleLoop_eq (t : Option Fdt) (k n : Nat) : findPhandleLoop m t k (n + 1) (some p) =
      (fdtFindPhandleRecurse m t k n p).bind fun r => match r with
        | some tmp => some (some tmp)
        | none => (fdtNextNode m t n (some p)).bind fun child =>
          findPhandleLoop m t k n child := by
  rw [findPhandleLoop]
  rfl

theorem fdtFindPhandleRecurse_returns (ht : Inited m t) (h : NodeAt m p d cs rest) (hd : d.Short)
    {k : Nat} (hbelow : Returns (fun n => findPhandleLoop m (some t) k n (cs.head.map Prod.fst))
      ((cs.preorder.find? (·.2.phandle = some k)).map Prod.fst)) :
    Returns (fun n => fdtFindPhandleRecurse m (some t) k n p)
      ((((p, d) :: cs.preorder).find? (·.2.phandle = some k)).map Prod.fst) := by
  obtain ⟨r, hr, hiff⟩ := phandleProperty_returns ht h hd
  refine Returns.round ?_ fun n => fdtFindPhandleRecurse_eq (some t) k n
  refine hr.bind ?_
  by_cases hk : d.phandle = some k
  · rw [find?_cons_of_pos (by simpa using hk)]
    exact (Returns.some _).congr fun n => if_pos ((hiff k).mpr hk)
  · rw [find?_cons_of_neg (by simpa using hk)]
    refine Returns.congr ?_ fun n => if_neg fun hr => hk ((hiff k).mp hr)
    exact (fdtChildNode_returns h t).bind hbelow

theorem findPhandleLoop_returns (ht : Inited m t) (h : Laid m f)
    (hshort : ∀ a ∈ f.preorder, a.2.Short) (k : Nat) :
    Returns (fun n => findPhandleLoop m (some t) k n (f.head.map Prod.fst))
      ((f.preorder.find? (·.2.phandle = some k)).map Prod.fst) := by
  induction f with
  | nil =>
    exact (Returns.some none).round fun n => by
      rw [Forest.head, map_none, findPhandleLoop]
  | node a cs rest ihc ihr =>
    obtain ⟨p, d⟩ := a
    rw [Forest.preorder] at hshort ⊢
    have hd : d.Short := hshort (p, d) (by simp)
    have hbelow := fdtFindPhandleRecurse_returns ht h.first hd
      (ihc h.below fun b hb => hshort b (by simp [hb]))
    rw [find?_append]
    refine Returns.round ?_ fun n => findPhandleLoop_eq (some t) k n
    refine hbelow.bind ?_
    cases ((p, d) :: cs.preorder).find? (·.2.phandle = some k) with
    | some b => exact Returns.some _
    | none =>
      have hbehind := ihr h.behind fun b hb => hshort b (by simp [hb])
      exact (fdtNextNode_returns h.first t).bind hbehind

end Phandle

section Path

def components (path : Str) : List Str := (path.splitOnP (· = 47)).filter (· ≠ [])

/-- The one of the nodes that is called `s`, or else the one that is called `s` before its unit
address. -/
def pick (s : Str) (f : Nodes) : Option ((Nat × NodeData) × Nodes) :=
  (f.tops.find? (s = ·.1.2.name)).or (f.tops.find? fun x => (s ++ [64]).isPrefixOf x.1.2.name)

def descend : List Str → (Nat × NodeData) × Nodes → Option ((Nat × NodeData) × Nodes)
  | [], x => some x
  | s :: ss, x => (pick s x.2).bind (descend ss)

theorem components_slash (path : Str) : components (47 :: path) = components path := by
  rw [components, splitOnP_cons_eq_if_modifyHead, if_pos (by decide), filter_cons_of_neg (by simp)]
  rfl

theorem components_dropWhile (path : Str) :
    components path = components (path.dropWhile (· = 47)) := by
  induction path with
  | nil => rfl
  | cons c path ih =>
    by_cases hc : c = 47
    · rw [hc, components_slash, dropWhile_cons_of_pos (by decide)]
      exact ih
    · rw [dropWhile_cons_of_neg (by simpa using hc)]

theorem components_name (path : Str) (hne : path.takeWhile (· ≠ 47) ≠ []) :
    components path = path.takeWhile (· ≠ 47) :: components (path.dropWhile (· ≠ 47)) := by
  have hall : ∀ c ∈ path.takeWhile (· ≠ 47), decide (c = 47) = false := fun c hc => by
    simpa using mem_takeWhile_imp hc
  have hsplit : path.takeWhile (· ≠ 47) ++ path.dropWhile (· ≠ 47) = path :=
    takeWhile_append_dropWhile
  cases hrest : path.dropWhile (· ≠ 47) with
  | nil =>
    rw [hrest, append_nil] at hsplit
    rw [hsplit] at hall hne ⊢
    rw [components, splitOnP_eq_singleton hall, filter_cons_of_pos (by simpa using hne)]
    rfl
  | cons c rest =>
    have hc : c = 47 := by
      have hhead := head?_dropWhile_not (· ≠ 47) path
      rw [hrest] at hhead
      simpa using hhead
    rw [hrest, hc] at hsplit
    rw [hc, components_slash]
    conv_lhs => rw [← hsplit]
    rw [components, splitOnP_append_cons_of_forall_mem hall 47 (by decide),
      filter_cons_of_pos (by simpa using hne)]
    rfl

theorem strncmpEq_cons (h : CStr m p name) (hc : c ≠ 0) :
    (strncmpEq m (c :: s) p = true ∧ m (p + (c :: s).length) = stop) ↔
      ∃ tail, name = c :: tail ∧ CStr m (p + 1) tail ∧
        strncmpEq m s (p + 1) = true ∧ m (p + 1 + s.length) = stop := by
  have hplace : p + (c :: s).length = p + 1 + s.length := by
    rw [length_cons]
    omega
  rw [strncmpEq, Bool.and_eq_true, beq_iff_eq, hplace]
  cases name with
  | nil =>
    have hzero : m p = 0 := h
    rw [hzero]
    exact ⟨fun h => absurd h.1.1.symm hc, fun ⟨_, heq, _⟩ => (nomatch heq)⟩
  | cons a tail =>
    obtain ⟨ha, -, htail⟩ := h
    rw [ha]
    constructor
    · rintro ⟨⟨rfl, hcmp⟩, hstop⟩
      exact ⟨tail, rfl, htail, hcmp, hstop⟩
    · rintro ⟨_, heq, -, hcmp, hstop⟩
      cases heq
      exact ⟨⟨rfl, hcmp⟩, hstop⟩

theorem strncmpEq_name (h : CStr m p name) (hs : 0 ∉ s) :
    (strncmpEq m s p = true ∧ m (p + s.length) = 0) ↔ decide (s = name) = true := by
  rw [decide_eq_true_iff]
  induction s generalizing p name with
  | nil =>
    cases name with
    | nil => exact ⟨fun _ => rfl, fun _ => ⟨rfl, h⟩⟩
    | cons c name => exact ⟨fun hz => absurd (h.1.symm.trans hz.2) h.2.1, fun heq => (nomatch heq)⟩
  | cons c s ih =>
    have hs' : 0 ∉ s := fun hmem => hs (mem_cons_of_mem _ hmem)
    rw [strncmpEq_cons h fun hc => hs (hc ▸ mem_cons_self)]
    constructor
    · rintro ⟨tail, rfl, htail, hcmp⟩
      rw [(ih htail hs').mp hcmp]
    · rintro rfl
      exact ⟨s, rfl, h.2.2, (ih h.2.2 hs').mpr rfl⟩

theorem strncmpEq_unit (h : CStr m p name) (hs : 0 ∉ s) :
    (strncmpEq m s p = true ∧ m (p + s.length) = 64) ↔ (s ++ [64]).isPrefixOf name = true := by
  rw [ isPrefixOf_iff_prefix]
  induction s generalizing p name with
  | nil =>
    cases name with
    | nil =>
      have hzero : m p = 0 := h
      exact ⟨fun hat => absurd (hzero.symm.trans hat.2) (by decide), fun hat => by simp at hat⟩
    | cons c name =>
      have hc : m p = c := h.1
      rw [nil_append, cons_prefix_cons, ← hc]
      exact ⟨fun hat => ⟨hat.2.symm, nil_prefix⟩, fun hat => ⟨rfl, hat.1.symm⟩⟩
  | cons c s ih =>
    have hs' : 0 ∉ s := fun hmem => hs (mem_cons_of_mem _ hmem)
    rw [strncmpEq_cons h fun hc => hs (hc ▸ mem_cons_self)]
    constructor
    · rintro ⟨tail, rfl, htail, hcmp⟩
      exact cons_prefix_cons.mpr ⟨rfl, (ih htail hs').mp hcmp⟩
    · rintro ⟨tail, rfl⟩
      exact ⟨s ++ [64] ++ tail, rfl, h.2.2, (ih h.2.2 hs').mpr (prefix_append _ _)⟩

theorem findChild_eq (s : Str) (stop : UInt8) (n : Nat) (h : be32 m p = fdtNodeBegin) :
    findChild m (some t) s stop (n + 1) (some p) =
      if strncmpEq m s (p + 4) = true ∧ m (p + 4 + s.length) = stop then some (some p)
      else (fdtNextNode m (some t) n (some p)).bind fun child =>
        findChild m (some t) s stop n child := by
  rw [findChild]
  simp only [fdtNodeName, h, ne_eq, not_true_eq_false, if_false]
  rfl

theorem findChild_returns (h : Laid m f) (t : Fdt) {test : Str → Bool}
    (htest : ∀ p name, CStr m p name →
      ((strncmpEq m s p = true ∧ m (p + s.length) = stop) ↔ test name = true)) :
    Returns (fun n => findChild m (some t) s stop n (f.head.map Prod.fst))
      ((f.tops.find? (test ·.1.2.name)).map (·.1.1)) := by
  induction f with
  | nil =>
    exact (Returns.some none).round fun n => by
      rw [Forest.head, map_none, findChild]
  | node a cs rest _ ihr =>
    obtain ⟨p, d⟩ := a
    have hiff := htest (p + 4) d.name h.first.name
    refine Returns.round ?_ fun n => findChild_eq s stop n h.first.begin
    rw [Forest.tops, find?_cons]
    by_cases hd : test d.name = true
    · simp only [hd]
      exact (Returns.some _).congr fun n => if_pos (hiff.mpr hd)
    · simp only [hd]
      refine Returns.congr ?_ fun n => if_neg fun hs => hd (hiff.mp hs)
      exact (fdtNextNode_returns h.first t).bind (ihr h.behind)

theorem findNodeLoop_eq (t : Option Fdt) (n : Nat) (hpath : path.dropWhile (· = 47) = c :: s) :
    findNodeLoop m t (n + 1) (some p) path = (fdtChildNode m t n p).bind fun child =>
      (findChild m t ((c :: s).takeWhile (· ≠ 47)) 0 n child).bind fun r => match r with
        | some child => findNodeLoop m t n (some child) ((c :: s).dropWhile (· ≠ 47))
        | none => (fdtChildNode m t n p).bind fun child =>
          (findChild m t ((c :: s).takeWhile (· ≠ 47)) 64 n child).bind fun r => match r with
            | some child => findNodeLoop m t n (some child) ((c :: s).dropWhile (· ≠ 47))
            | none => some none := by
  cases path with
  | nil => cases hpath
  | cons b path =>
    rw [findNodeLoop, hpath]
    rfl

theorem pick_laid {b : (Nat × NodeData) × Nodes} (h : Laid m cs) (hpick : pick s cs = some b) :
    (∃ rest, NodeAt m b.1.1 b.1.2 b.2 rest) ∧ Laid m b.2 := by
  have hmem : b ∈ cs.tops := by
    rcases or_eq_some_iff.mp hpick with h | ⟨-, h⟩
    · exact mem_of_find?_eq_some h
    · exact mem_of_find?_eq_some h
  obtain ⟨rest, hsub⟩ := Forest.sub_of_tops hmem
  exact ⟨⟨rest, h _ _ _ _ hsub⟩, fun _ _ _ _ hbelow => h _ _ _ _ (hbelow.children.trans hsub)⟩

theorem findNodeLoop_returns (h : NodeAt m p d cs rest) (hcs : Laid m cs) (t : Fdt)
    (hpath : 0 ∉ path) : Returns (fun n => findNodeLoop m (some t) n (some p) path)
      ((descend (components path) ((p, d), cs)).map (·.1.1)) := by
  induction hlen : path.length using Nat.strongRecOn generalizing p d cs rest path with
  | ind len ih =>
    rw [components_dropWhile]
    cases hdrop : path.dropWhile (· = 47) with
    | nil =>
      refine Returns.round (Returns.some (some p)) fun n => ?_
      cases path with
      | nil => rfl
      | cons b path =>
        rw [findNodeLoop, hdrop]
    | cons c s =>
      have hsub : c :: s <:+ path := hdrop ▸ dropWhile_suffix _
      have hc : c ≠ 47 := by
        have hhead := head?_dropWhile_not (· = 47) path
        rw [hdrop] at hhead
        simpa using hhead
      have htake : (c :: s).takeWhile (· ≠ 47) ≠ [] := by
        rw [takeWhile_cons_of_pos (by simpa using hc)]
        exact cons_ne_nil _ _
      have hz : 0 ∉ (c :: s).takeWhile (· ≠ 47) := fun hmem =>
        hpath (hsub.subset (( takeWhile_prefix _).subset hmem))
      have hz' : 0 ∉ (c :: s).dropWhile (· ≠ 47) := fun hmem =>
        hpath (hsub.subset ((dropWhile_suffix _).subset hmem))
      have hshort : ((c :: s).dropWhile (· ≠ 47)).length < len := by
        have hle := hsub.length_le
        have hlt := (dropWhile_suffix (l := s) (· ≠ 47)).length_le
        rw [dropWhile_cons_of_pos (by simpa using hc)]
        rw [length_cons] at hle
        omega
      have hfirst := findChild_returns hcs t fun q name hq => strncmpEq_name hq hz
      have hsecond := findChild_returns hcs t fun q name hq => strncmpEq_unit hq hz
      have hdown : ∀ b, pick ((c :: s).takeWhile (· ≠ 47)) cs = some b →
          Returns (fun n => findNodeLoop m (some t) n (some b.1.1) ((c :: s).dropWhile (· ≠ 47)))
            ((descend (components ((c :: s).dropWhile (· ≠ 47))) b).map (·.1.1)) := fun b hb => by
        obtain ⟨⟨rest', hnode⟩, hlaid⟩ := pick_laid hcs hb
        exact ih _ hshort hnode hlaid hz' rfl
      rw [components_name _ htake, descend]
      refine Returns.round ?_ fun n => findNodeLoop_eq (some t) n hdrop
      refine (fdtChildNode_returns h t).bind (hfirst.bind ?_)
      rw [pick] at hdown ⊢
      cases hname : cs.tops.find? (fun x => decide ((c :: s).takeWhile (· ≠ 47) = x.1.2.name)) with
      | some b => exact hdown b (by rw [hname]; rfl)
      | none =>
        refine (fdtChildNode_returns h t).bind (hsecond.bind ?_)
        rw [hname, none_or] at hdown
        rw [none_or]
        cases hunit : cs.tops.find? fun x =>
            ((c :: s).takeWhile (· ≠ 47) ++ [64]).isPrefixOf x.1.2.name with
        | some b => exact hdown b hunit
        | none => exact Returns.some none

end Path

end Mbsd.Dev.Ofw
