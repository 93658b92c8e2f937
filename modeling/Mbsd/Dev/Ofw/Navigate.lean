import Mbsd.Dev.Ofw.Model
import Mbsd.Lib.Forest
import Mbsd.Lib.Run

/-! Blobs that serialise a device tree, and the tokens that are skipped in them. -/

namespace Mbsd.Dev.Ofw

open Lib Lib.Fuel Option

variable {m : Mem} {p q r n : Nat} {s name : Str} {xs : List Property} {f : Nodes}

structure Property where
  name : Str
  value : List UInt8
  deriving DecidableEq

structure NodeData where
  name : Str
  props : List Property
  deriving DecidableEq

abbrev Nodes := Forest (Nat × NodeData)

def CStr (m : Mem) : Nat → Str → Prop
  | p, [] => m p = 0
  | p, c :: s => m p = c ∧ c ≠ 0 ∧ CStr m (p + 1) s

def Bytes (m : Mem) : Nat → List UInt8 → Prop
  | _, [] => True
  | p, c :: s => m p = c ∧ Bytes m (p + 1) s

instance decidableCStr (m : Mem) : (p : Nat) → (s : Str) → Decidable (CStr m p s)
  | p, [] => inferInstanceAs (Decidable (m p = 0))
  | p, c :: s =>
    have := decidableCStr m (p + 1) s
    inferInstanceAs (Decidable (m p = c ∧ c ≠ 0 ∧ CStr m (p + 1) s))

instance decidableBytes (m : Mem) : (p : Nat) → (s : List UInt8) → Decidable (Bytes m p s)
  | _, [] => inferInstanceAs (Decidable True)
  | p, c :: s =>
    have := decidableBytes m (p + 1) s
    inferInstanceAs (Decidable (m p = c ∧ Bytes m (p + 1) s))

inductive Nops (m : Mem) : Nat → Nat → Prop
  | refl (p : Nat) : Nops m p p
  | nop {p q : Nat} (htok : be32 m p = fdtNop) (h : Nops m (p + 4) q) : Nops m p q

/-- Properties, each with the NOP tokens behind it.  Their names are in the strings block. -/
inductive PropsAt (m : Mem) : Nat → List Property → Nat → Prop
  | nil (p : Nat) : PropsAt m p [] p
  | cons {p q r : Nat} {x : Property} {xs : List Property} (htok : be32 m p = fdtProperty)
      (hlen : be32 m (p + 4) = x.value.length)
      (hid : be32 m (p + 8) + x.name.length < fhStringsSize m)
      (hname : CStr m (fhStringsOff m + be32 m (p + 8)) x.name)
      (hvalue : Bytes m (p + 12) x.value)
      (hnops : Nops m (p + 12 + roundup x.value.length) q) (h : PropsAt m q xs r) :
      PropsAt m p (x :: xs) r

inductive NodesAt (m : Mem) : Nat → Nodes → Nat → Prop
  | nil (p : Nat) : NodesAt m p .nil p
  | node {p p₁ p₂ p₃ q r : Nat} {d : NodeData} {cs rest : Nodes}
      (hbegin : be32 m p = fdtNodeBegin) (hname : CStr m (p + 4) d.name)
      (hnops : Nops m (p + 4 + roundup (d.name.length + 1)) p₁)
      (hprops : PropsAt m p₁ d.props p₂) (hcs : NodesAt m p₂ cs p₃)
      (hend : be32 m p₃ = fdtNodeEnd) (hnops' : Nops m (p₃ + 4) q) (hrest : NodesAt m q rest r) :
      NodesAt m p (.node (p, d) cs rest) r

/-- A blob of version 16 or 17 with the nodes `f`.  Its blocks may be anywhere. -/
structure Blob (m : Mem) (f : Nodes) : Prop where
  magic : fhMagic m = fdtMagic
  version : fhVersion m = 16 ∨ fhVersion m = 17
  aligned : fhStructOff m % 4 = 0
  one : ∃ a cs, f = .node a cs .nil
  nodes : ∃ p q, Nops m (fhStructOff m) p ∧ NodesAt m p f q ∧ be32 m q = fdtEnd ∧
    (fhVersion m = 17 → fhStructOff m + fhStructSize m = q + 4)

def Closes (m : Mem) (q : Nat) : Prop := be32 m q = fdtNodeEnd ∨ be32 m q = fdtEnd

theorem Closes.ne_begin (h : Closes m q) : be32 m q ≠ fdtNodeBegin := by
  rcases h with h | h <;> rw [h] <;> decide

theorem Closes.ne_nop (h : Closes m q) : be32 m q ≠ fdtNop := by
  rcases h with h | h <;> rw [h] <;> decide

theorem Closes.ne_property (h : Closes m q) : be32 m q ≠ fdtProperty := by
  rcases h with h | h <;> rw [h] <;> decide

section

variable (h : NodesAt m p f r) (hr : Closes m r)

include h hr

theorem NodesAt.head_token :
    be32 m p = fdtNodeBegin ∧ f.head.map Prod.fst = some p ∨ Closes m p ∧ f = .nil := by
  cases h with
  | nil => exact .inr ⟨hr, rfl⟩
  | node hbegin => exact .inl ⟨hbegin, rfl⟩

theorem NodesAt.ne_nop : be32 m p ≠ fdtNop := by
  rcases h.head_token hr with ⟨htok, -⟩ | ⟨hclose, -⟩
  · rw [htok]
    decide
  · exact hclose.ne_nop

theorem NodesAt.ne_property : be32 m p ≠ fdtProperty := by
  rcases h.head_token hr with ⟨htok, -⟩ | ⟨hclose, -⟩
  · rw [htok]
    decide
  · exact hclose.ne_property

end

theorem PropsAt.ne_nop (h : PropsAt m p xs q) (hq : be32 m q ≠ fdtNop) : be32 m p ≠ fdtNop := by
  cases h with
  | nil => exact hq
  | cons htok =>
    rw [htok]
    decide

theorem skipNops_returns (h : Nops m p q) (hq : be32 m q ≠ fdtNop) :
    Returns (fun n => skipNops m n p) q := by
  induction h with
  | refl p => exact (Returns.some p).round fun n => by rw [skipNops, if_neg hq]
  | nop htok _ ih => exact (ih hq).round fun n => by rw [skipNops, if_pos htok]

theorem cstr_returns (h : CStr m p s) : Returns (fun n => cstr m n p) s := by
  induction s generalizing p with
  | nil =>
    have hzero : m p = 0 := h
    exact (Returns.some []).round fun n => by rw [cstr, if_pos hzero]
  | cons c s ih =>
    obtain ⟨hc, hne, hs⟩ := h
    refine ((ih hs).map (m p :: ·)).round (fun n => ?_) |>.congr_value (by rw [hc])
    rw [cstr, if_neg (by rw [hc]; exact hne)]

theorem strcmpEq_returns (h : CStr m p s) (name : Str) :
    Returns (fun n => strcmpEq m n name (some p)) (name == s) := (cstr_returns h).map _

theorem roundup_words (x : Nat) : 4 * (roundup x / 4) = roundup x := by
  rw [roundup]
  omega

theorem skipNodeName_returns (h : CStr m p s) (hnops : Nops m (p + roundup (s.length + 1)) q)
    (hq : be32 m q ≠ fdtNop) : Returns (fun n => skipNodeName m n p) q := by
  refine Returns.bind ((cstr_returns h).map List.length) ?_
  rw [← roundup_words] at hnops
  exact skipNops_returns hnops hq

theorem skipProperty_returns {x : Property} (hlen : be32 m (p + 4) = x.value.length)
    (hnops : Nops m (p + 12 + roundup x.value.length) q) (hq : be32 m q ≠ fdtNop) :
    Returns (fun n => skipProperty m n p) q := by
  have hpos : p + 4 * (3 + roundup (be32 m (p + 4)) / 4) = p + 12 + roundup x.value.length := by
    rw [hlen, Nat.mul_add, roundup_words]
    omega
  refine (skipNops_returns hnops hq).congr fun n => ?_
  rw [skipProperty, hpos]

theorem skipProps_returns (h : PropsAt m p xs q) (hq : be32 m q ≠ fdtNop)
    (hq' : be32 m q ≠ fdtProperty) : Returns (fun n => skipProps m n p) q := by
  induction h with
  | nil p => exact (Returns.some p).round fun n => by rw [skipProps, if_neg hq']
  | cons htok hlen _ _ _ hnops h ih =>
    refine Returns.round (Returns.bind (skipProperty_returns hlen hnops (h.ne_nop hq)) (ih hq hq'))
      fun n => ?_
    rw [skipProps, if_pos htok]
    rfl

/-! The children and the next node of each node, and its parent. -/

open List

variable {m : Mem} {t : Option Fdt} {p q r n : Nat} {d : NodeData} {f cs rest : Nodes}

structure NodeAt (m : Mem) (p : Nat) (d : NodeData) (cs rest : Nodes) : Prop where
  begin : be32 m p = fdtNodeBegin
  name : CStr m (p + 4) d.name
  body : ∃ p₁ p₂ p₃ q r, Returns (fun n => skipNodeName m n (p + 4)) p₁ ∧
    PropsAt m p₁ d.props p₂ ∧ be32 m p₂ ≠ fdtNop ∧ be32 m p₂ ≠ fdtProperty ∧
    Returns (fun n => skipProps m n p₁) p₂ ∧
    NodesAt m p₂ cs p₃ ∧ be32 m p₃ = fdtNodeEnd ∧
    Returns (fun n => skipNops m n (p₃ + 4)) q ∧ NodesAt m q rest r ∧ Closes m r

theorem NodesAt.nodeAt (h : NodesAt m p (.node (q, d) cs rest) r) (hr : Closes m r) :
    p = q ∧ NodeAt m p d cs rest := by
  cases h with
  | node hbegin hname hnops hprops hcs hend hnops' hrest =>
    have hclose : Closes m _ := .inl hend
    have hnop := hcs.ne_nop hclose
    have hprop := hcs.ne_property hclose
    exact ⟨rfl, hbegin, hname, _, _, _, _, _,
      skipNodeName_returns hname hnops (hprops.ne_nop hnop), hprops, hnop, hprop,
      skipProps_returns hprops hnop hprop, hcs, hend,
      skipNops_returns hnops' (hrest.ne_nop hr), hrest, hr⟩

theorem skipNode_eq (m : Mem) (n p : Nat) :
    skipNode m (n + 1) p = (skipNodeName m n (p + 4)).bind fun p => (skipProps m n p).bind fun p =>
      (skipChildren m n p).bind fun p => skipNops m n (p + 4) := by
  rw [skipNode]
  rfl

theorem skipChildren_returns (h : NodesAt m p f r) (hr : Closes m r) :
    Returns (fun n => skipChildren m n p) r := by
  induction h with
  | nil p =>
    exact (Returns.some p).round fun n => by rw [skipChildren, if_neg hr.ne_begin]
  | @node p p₁ p₂ p₃ q r d cs rest hbegin hname hnops hprops hcs hend hnops' hrest ihc ihr =>
    have hclose : Closes m p₃ := .inl hend
    have hnop := hcs.ne_nop hclose
    have hskip : Returns (fun n => skipNode m n p) q := by
      refine Returns.round ?_ fun n => skipNode_eq m n p
      exact Returns.bind (skipNodeName_returns hname hnops (hprops.ne_nop hnop)) (Returns.bind
        (skipProps_returns hprops hnop (hcs.ne_property hclose)) (Returns.bind
          (ihc hclose) (skipNops_returns hnops' (hrest.ne_nop hr))))
    have hround : ∀ n, skipChildren m (n + 1) p =
        (skipNode m n p).bind fun p => skipChildren m n p := fun n => by
      rw [skipChildren, if_pos hbegin]
      rfl
    exact Returns.round (Returns.bind hskip (ihr hr)) hround

theorem head_eq (h : NodesAt m p f r) (hr : Closes m r) :
    (if be32 m p = fdtNodeBegin then some p else none) = f.head.map Prod.fst := by
  rcases h.head_token hr with ⟨htok, hhead⟩ | ⟨hclose, rfl⟩
  · rw [if_pos htok, hhead]
  · rw [if_neg hclose.ne_begin]
    rfl

theorem fdtChildNode_eq (t : Fdt) (n : Nat) (h : be32 m p = fdtNodeBegin) :
    fdtChildNode m (some t) n p = (skipNodeName m n (p + 4)).bind fun p =>
      (skipProps m n p).bind fun p => some (if be32 m p = fdtNodeBegin then some p else none) := by
  simp only [fdtChildNode, h, ne_eq, not_true_eq_false, if_false]
  rfl

theorem fdtNextNode_eq (t : Fdt) (n : Nat) (h : be32 m p = fdtNodeBegin) :
    fdtNextNode m (some t) n (some p) = (skipNodeName m n (p + 4)).bind fun p =>
      (skipProps m n p).bind fun p => (skipChildren m n p).bind fun p =>
        if be32 m p = fdtNodeEnd then (skipNops m n (p + 4)).bind fun p =>
          some (if be32 m p = fdtNodeBegin then some p else none)
        else some none := by
  simp only [fdtNextNode, h, ne_eq, not_true_eq_false, if_false, ite_not, apply_ite some]
  rfl

theorem fdtChildNode_returns (h : NodeAt m p d cs rest) (t : Fdt) :
    Returns (fun n => fdtChildNode m (some t) n p) (cs.head.map Prod.fst) := by
  obtain ⟨p₁, p₂, p₃, q, r, hname, -, -, -, hprops, hcs, hend, -, -, -⟩ := h.body
  refine Returns.congr ?_ fun n => fdtChildNode_eq t n h.begin
  rw [← head_eq hcs (.inl hend)]
  exact Returns.bind hname (Returns.bind hprops (Returns.some _))

theorem fdtNextNode_returns (h : NodeAt m p d cs rest) (t : Fdt) :
    Returns (fun n => fdtNextNode m (some t) n (some p)) (rest.head.map Prod.fst) := by
  obtain ⟨p₁, p₂, p₃, q, r, hname, -, -, -, hprops, hcs, hend, hnops, hrest, hr⟩ := h.body
  refine Returns.congr ?_ fun n => fdtNextNode_eq t n h.begin
  rw [← head_eq hrest hr]
  refine Returns.bind hname (Returns.bind hprops (Returns.bind
    (skipChildren_returns hcs (.inl hend)) (Returns.congr ?_ fun n => if_pos hend)))
  exact Returns.bind hnops (Returns.some _)

theorem NodesAt.sub {g : Nodes} (hsub : g.Sub f) (h : NodesAt m p f r) (hr : Closes m r) :
    ∃ q s, NodesAt m q g s ∧ Closes m s := by
  induction hsub generalizing p r with
  | refl => exact ⟨p, r, h, hr⟩
  | children _ ih =>
    cases h with
    | node _ _ _ _ hcs hend => exact ih hcs (.inl hend)
  | rest _ ih =>
    cases h with
    | node _ _ _ _ _ _ _ hrest => exact ih hrest hr

theorem NodesAt.nodeAt_of_sub (hsub : (Forest.node (q, d) cs rest).Sub f) (h : NodesAt m p f r)
    (hr : Closes m r) : NodeAt m q d cs rest := by
  obtain ⟨q', s, hat, hs⟩ := h.sub hsub hr
  obtain ⟨rfl, hnode⟩ := hat.nodeAt hs
  exact hnode

section Places

theorem Nops.place (h : Nops m p q) : p ≤ q ∧ q % 4 = p % 4 := by
  induction h with
  | refl => exact ⟨Nat.le_refl _, rfl⟩
  | nop _ _ ih => omega

theorem PropsAt.place (h : PropsAt m p xs q) : p ≤ q ∧ q % 4 = p % 4 := by
  induction h with
  | nil => exact ⟨Nat.le_refl _, rfl⟩
  | cons _ _ _ _ _ hnops _ ih =>
    have hq := hnops.place
    rw [roundup] at hq
    omega

theorem NodesAt.place (h : NodesAt m p f r) : p ≤ r ∧ r % 4 = p % 4 := by
  induction h with
  | nil => exact ⟨Nat.le_refl _, rfl⟩
  | node _ _ hnops hprops _ _ hnops' _ ihc ihr =>
    have hname := hnops.place
    have hprops := hprops.place
    have hend := hnops'.place
    rw [roundup] at hname
    omega

theorem NodesAt.places (h : NodesAt m p f r) : (f.preorder.map Prod.fst).Pairwise (· < ·) ∧
      ∀ a ∈ f.preorder.map Prod.fst, p ≤ a ∧ a < r := by
  induction h with
  | nil => exact ⟨Pairwise.nil, fun _ ha => absurd ha not_mem_nil⟩
  | @node p p₁ p₂ p₃ q r d cs rest _ _ hnops hprops hcs _ hnops' hrest ihc ihr =>
    have hname := hnops.place
    have hprops := hprops.place
    have hbody := hcs.place
    have hend := hnops'.place
    have htail := hrest.place
    rw [Forest.preorder, cons_append, map_cons, map_append]
    refine ⟨pairwise_cons.mpr ⟨fun a ha => ?_, pairwise_append.mpr
      ⟨ihc.1, ihr.1, fun a ha b hb => ?_⟩⟩, fun a ha => ?_⟩
    · rcases mem_append.mp ha with ha | ha
      · have := ihc.2 a ha
        omega
      · have := ihr.2 a ha
        omega
    · have := ihc.2 a ha
      have := ihr.2 b hb
      omega
    · rcases mem_cons.mp ha with rfl | ha
      · omega
      · rcases mem_append.mp ha with ha | ha
        · have := ihc.2 a ha
          omega
        · have := ihr.2 a ha
          omega

theorem NodesAt.nodup (h : NodesAt m p f r) : (f.preorder.map Prod.fst).Nodup :=
  h.places.1.imp Nat.ne_of_lt

end Places

def Laid (m : Mem) (f : Nodes) : Prop :=
  ∀ p d cs rest, (Forest.node (p, d) cs rest).Sub f → NodeAt m p d cs rest

theorem NodesAt.laid (h : NodesAt m p f r) (hr : Closes m r) : Laid m f :=
  fun _ _ _ _ hsub => h.nodeAt_of_sub hsub hr

section

variable (h : Laid m (.node (p, d) cs rest))

include h

theorem Laid.first : NodeAt m p d cs rest :=
  h p d cs rest (.refl _)

theorem Laid.below : Laid m cs :=
  fun _ _ _ _ hsub => h _ _ _ _ hsub.children

theorem Laid.behind : Laid m rest :=
  fun _ _ _ _ hsub => h _ _ _ _ hsub.rest

end

theorem Laid.node_of_mem (h : Laid m f) (hmem : (p, d) ∈ f.preorder) :
    ∃ cs rest, NodeAt m p d cs rest := by
  obtain ⟨cs, rest, hsub⟩ := Forest.exists_sub hmem
  exact ⟨cs, rest, h _ _ _ _ hsub⟩

def walk (m : Mem) (t : Option Fdt) : Nat → Option Nat → Option (Forest Nat)
  | 0, _ => none
  | _ + 1, none => some .nil
  | n + 1, some p => do
    let child ← fdtChildNode m t n p
    let cs ← walk m t n child
    let node ← fdtNextNode m t n (some p)
    let rest ← walk m t n node
    some (.node p cs rest)

theorem walk_returns (h : Laid m f) (t : Fdt) :
    Returns (fun n => walk m (some t) n (f.head.map Prod.fst)) (f.map Prod.fst) := by
  induction f with
  | nil => exact (Returns.some Forest.nil).round fun n => rfl
  | node a cs rest ihc ihr =>
    obtain ⟨p, d⟩ := a
    have hnode := h.first
    refine Returns.round ?_ fun n => rfl
    exact Returns.bind (fdtChildNode_returns hnode t) (Returns.bind (ihc h.below)
      (Returns.bind (fdtNextNode_returns hnode t) (Returns.bind (ihr h.behind) (Returns.some _))))

theorem parentNodeLoop_eq (t : Option Fdt) {pnode child : Nat} (n : Nat) (h : p ≠ child) :
    parentNodeLoop m t (n + 1) pnode (some p) child =
      (fdtParentNodeRecurse m t n p child).bind fun r => match r with
        | some tmp => some (some tmp)
        | none => (fdtNextNode m t n (some p)).bind fun node =>
          parentNodeLoop m t n pnode node child := by
  rw [parentNodeLoop, if_pos h]
  rfl

theorem parentNodeLoop_returns (h : Laid m f) (t : Fdt) (above : Nat × NodeData) (child : Nat) :
    Returns (fun n => parentNodeLoop m (some t) n above.1 (f.head.map Prod.fst) child)
      ((f.parentIn Prod.fst above child).map Prod.fst) := by
  induction f generalizing above with
  | nil =>
    exact (Returns.some none).round fun n => by
      rw [Forest.head, map_none, parentNodeLoop]
  | node a cs rest ihc ihr =>
    obtain ⟨p, d⟩ := a
    rw [Forest.parentIn]
    by_cases hp : p = child
    · rw [if_pos hp]
      exact (Returns.some _).round fun n => by
        rw [Forest.head, map_some, parentNodeLoop, if_neg (not_not.mpr hp)]
        rfl
    · rw [if_neg hp]
      have hbelow : Returns (fun n => fdtParentNodeRecurse m (some t) n p child)
          ((cs.parentIn Prod.fst (p, d) child).map Prod.fst) :=
        (Returns.bind (fdtChildNode_returns h.first t) (ihc h.below (p, d))).round fun n => by
          rw [fdtParentNodeRecurse]
          rfl
      refine Returns.round ?_ fun n => parentNodeLoop_eq (some t) n hp
      refine Returns.bind hbelow ?_
      cases cs.parentIn Prod.fst (p, d) child with
      | some b => exact Returns.some _
      | none => exact Returns.bind (fdtNextNode_returns h.first t) (ihr h.behind above)

end Mbsd.Dev.Ofw
