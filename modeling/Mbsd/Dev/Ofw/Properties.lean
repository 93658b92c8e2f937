import Mbsd.Dev.Ofw.Navigate

/-! The properties of a node, by name and in their order. -/

namespace Mbsd.Dev.Ofw

open Lib Lib.Fuel List

variable {m : Mem} {t : Fdt} {p q r n : Nat} {name : Str} {d : NodeData} {f cs rest : Nodes}
  {x : Property} {xs ys : List Property}

def Inited (m : Mem) (t : Fdt) : Prop :=
  t.strings = fhStringsOff m ∧ t.stringsSize = fhStringsSize m

theorem be32_lt (m : Mem) (p : Nat) : be32 m p < 2 ^ 32 := by
  have h0 := (m p).toNat_lt
  have h1 := (m (p + 1)).toNat_lt
  have h2 := (m (p + 2)).toNat_lt
  have h3 := (m (p + 3)).toNat_lt
  rw [be32]
  omega

theorem fdtGetStr_eq (ht : Inited m t) {num len : Nat} (h : num + len < fhStringsSize m) :
    fdtGetStr t num = some (fhStringsOff m + num) := by
  rw [fdtGetStr, if_neg (by rw [ht.2]; omega), ht.1]

theorem nameEq_returns (ht : Inited m t) (name : Str)
    (hid : be32 m (p + 8) + x.name.length < fhStringsSize m)
    (hname : CStr m (fhStringsOff m + be32 m (p + 8)) x.name) :
    Returns (fun n => strcmpEq m n name (fdtGetStr t (be32 m (p + 8)))) (name == x.name) := by
  rw [fdtGetStr_eq ht hid]
  exact strcmpEq_returns hname name

def Found (m : Mem) : Option Property → Int × Option Nat → Prop
  | none, r => r = (-1, none)
  | some x, r => x.value.length < 2 ^ 32 ∧ r.1 = toInt x.value.length ∧
      ∃ out, r.2 = some out ∧ Bytes m out x.value

theorem nodePropertyLoop_eq (name : Str) (n : Nat) (h : be32 m p = fdtProperty) :
    nodePropertyLoop m t name (n + 1) p =
      (strcmpEq m n name (fdtGetStr t (be32 m (p + 8)))).bind fun b =>
        if b then some (toInt (be32 m (p + 4)), some (p + 12))
        else (skipProperty m n p).bind fun p => nodePropertyLoop m t name n p := by
  rw [nodePropertyLoop, if_pos h]
  rfl

theorem nodePropertyLoop_returns (ht : Inited m t) (h : PropsAt m p xs q)
    (hq : be32 m q ≠ fdtNop) (hq' : be32 m q ≠ fdtProperty) (name : Str) :
    ∃ r, Returns (fun n => nodePropertyLoop m t name n p) r ∧
      Found m (xs.find? (name == ·.name)) r := by
  induction h with
  | nil p => exact ⟨_, (Returns.some (-1, none)).round fun n => by
      rw [nodePropertyLoop, if_neg hq'], rfl⟩
  | @cons p q r x xs htok hlen hid hname hvalue hnops h ih =>
    obtain ⟨r', hr', hfound⟩ := ih hq hq'
    have hcmp := nameEq_returns ht name hid hname
    cases hb : name == x.name with
    | true =>
      rw [hb] at hcmp
      refine ⟨(toInt (be32 m (p + 4)), some (p + 12)), Returns.round ?_ fun n =>
        nodePropertyLoop_eq name n htok, ?_⟩
      · exact hcmp.bind (Returns.some _)
      · simp only [find?_cons, hb]
        exact ⟨hlen ▸ be32_lt m _, by rw [hlen], p + 12, rfl, hvalue⟩
    | false =>
      rw [hb] at hcmp
      refine ⟨r', Returns.round ?_ fun n => nodePropertyLoop_eq name n htok, ?_⟩
      · exact hcmp.bind ((skipProperty_returns hlen hnops (h.ne_nop hq)).bind hr')
      · simp only [find?_cons, hb]
        exact hfound

theorem fdtNodeProperty_eq (t : Fdt) (n : Nat) (name : Str) (h : be32 m p = fdtNodeBegin) :
    fdtNodeProperty m (some t) n p name = (skipNodeName m n (p + 4)).bind fun p =>
      nodePropertyLoop m t name n p := by
  simp only [fdtNodeProperty, h, ne_eq, not_true_eq_false, if_false]
  rfl

theorem fdtNodeProperty_returns (ht : Inited m t) (h : NodeAt m p d cs rest) (name : Str) :
    ∃ r, Returns (fun n => fdtNodeProperty m (some t) n p name) r ∧
      Found m (d.props.find? (name == ·.name)) r := by
  obtain ⟨p₁, p₂, p₃, q, r, hname, hprops, hnop, hprop, -, -, -, -, -, -⟩ := h.body
  obtain ⟨r', hr', hfound⟩ := nodePropertyLoop_returns ht hprops hnop hprop name
  exact ⟨r', Returns.congr (hname.bind hr') fun n => fdtNodeProperty_eq t n name h.begin, hfound⟩

section Names

def Named (m : Mem) : Option Property → Nat × NextName → Prop
  | none, r => r = (1, .empty)
  | some x, r => r.1 = 1 ∧ ∃ p, r.2 = .str (some p) ∧ CStr m p x.name

/-- The property behind the one that is called `name`, or the first one for the empty name. -/
def nextOf (name : Str) (xs : List Property) : Option Property :=
  if name = [] then xs.head? else (xs.dropWhile (name != ·.name)).tail.head?

theorem nextPropertyLoop_eq (n : Nat) (h : be32 m p = fdtProperty) (hne : name ≠ []) :
    nextPropertyLoop m t name (n + 1) p =
      (strcmpEq m n name (fdtGetStr t (be32 m (p + 8)))).bind fun b =>
        if b then (skipProperty m n p).bind fun p =>
          some (if be32 m p = fdtProperty then (1, .str (fdtGetStr t (be32 m (p + 8))))
            else (1, .empty))
        else (skipProperty m n p).bind fun p => nextPropertyLoop m t name n p := by
  rw [nextPropertyLoop, if_pos h, if_neg hne]
  simp only [ne_eq, ite_not, apply_ite some]
  rfl

theorem named_head (ht : Inited m t) (h : PropsAt m p xs q) (hq' : be32 m q ≠ fdtProperty) :
    Named m xs.head? (if be32 m p = fdtProperty then (1, .str (fdtGetStr t (be32 m (p + 8))))
      else (1, .empty)) := by
  cases h with
  | nil =>
    rw [if_neg hq']
    rfl
  | cons htok _ hid hname =>
    rw [if_pos htok, fdtGetStr_eq ht hid]
    exact ⟨rfl, _, rfl, hname⟩

theorem nextPropertyLoop_returns (ht : Inited m t) (h : PropsAt m p xs q)
    (hq : be32 m q ≠ fdtNop) (hq' : be32 m q ≠ fdtProperty) (name : Str) :
    ∃ r, Returns (fun n => nextPropertyLoop m t name n p) r ∧ Named m (nextOf name xs) r := by
  rw [nextOf]
  by_cases hne : name = []
  · rw [if_pos hne]
    refine ⟨_, Returns.round (Returns.some (if be32 m p = fdtProperty then
      (1, .str (fdtGetStr t (be32 m (p + 8)))) else (1, .empty))) fun n => ?_, named_head ht h hq'⟩
    rw [nextPropertyLoop, if_pos hne, apply_ite some]
  · rw [if_neg hne]
    induction h with
    | nil p => exact ⟨_, (Returns.some (1, NextName.empty)).round fun n => by
        rw [nextPropertyLoop, if_neg hq'], rfl⟩
    | @cons p q r x xs htok hlen hid hname hvalue hnops h ih =>
      obtain ⟨r', hr', hnamed⟩ := ih hq hq'
      have hcmp := nameEq_returns ht name hid hname
      have hskip := skipProperty_returns hlen hnops (h.ne_nop hq)
      cases hb : name == x.name with
      | true =>
        rw [hb] at hcmp
        refine ⟨if be32 m q = fdtProperty then (1, .str (fdtGetStr t (be32 m (q + 8))))
          else (1, .empty), Returns.round ?_ fun n => nextPropertyLoop_eq n htok hne, ?_⟩
        · exact hcmp.bind (hskip.bind (Returns.some _))
        · simp only [dropWhile_cons, bne, hb, Bool.not_true, Bool.false_eq_true, if_false]
          exact named_head ht h hq'
      | false =>
        rw [hb] at hcmp
        refine ⟨r', Returns.round ?_ fun n => nextPropertyLoop_eq n htok hne, ?_⟩
        · exact hcmp.bind (hskip.bind hr')
        · simp only [dropWhile_cons, bne, hb, Bool.not_false, if_true]
          exact hnamed

theorem fdtNextProperty_eq (t : Fdt) (n : Nat) (name : Str) (h : be32 m p = fdtNodeBegin) :
    fdtNextProperty m (some t) n p name = (skipNodeName m n (p + 4)).bind fun p =>
      nextPropertyLoop m t name n p := by
  simp only [fdtNextProperty, h, ne_eq, not_true_eq_false, if_false]
  rfl

theorem fdtNextProperty_returns (ht : Inited m t) (h : NodeAt m p d cs rest) (name : Str) :
    ∃ r, Returns (fun n => fdtNextProperty m (some t) n p name) r ∧
      Named m (nextOf name d.props) r := by
  obtain ⟨p₁, p₂, p₃, q, r, hname, hprops, hnop, hprop, -, -, -, -, -, -⟩ := h.body
  obtain ⟨r', hr', hnamed⟩ := nextPropertyLoop_returns ht hprops hnop hprop name
  exact ⟨r', Returns.congr (hname.bind hr') fun n => fdtNextProperty_eq t n name h.begin, hnamed⟩

/-- The names that `fdt_next_property` gives from `name` on, until it gives an empty one. -/
def propertyNames (m : Mem) (t : Option Fdt) (node : Nat) : Nat → Str → Option (List Str)
  | 0, _ => none
  | n + 1, name => do
    match ← fdtNextProperty m t n node name with
    | (_, .str (some p)) => do
      let s ← cstr m n p
      if s = [] then some []
      else do
        let names ← propertyNames m t node n s
        some (s :: names)
    | _ => some []

theorem propertyNames_eq (t : Option Fdt) (n : Nat) (name : Str) :
    propertyNames m t p (n + 1) name = (fdtNextProperty m t n p name).bind fun r => match r with
      | (_, .str (some q)) => (cstr m n q).bind fun s => if s = [] then some []
        else (propertyNames m t p n s).bind fun names => some (s :: names)
      | _ => some [] := by
  rw [propertyNames]
  rfl

theorem nextOf_append (hnodup : ((xs ++ x :: ys).map Property.name).Nodup) (hne : x.name ≠ []) :
    nextOf x.name (xs ++ x :: ys) = ys.head? := by
  rw [nextOf, if_neg hne]
  rw [map_append, map_cons] at hnodup
  have hdisj := (nodup_append.mp hnodup).2.2
  rw [dropWhile_append_of_pos fun y hy => ?_, dropWhile_cons_of_neg (by simp)]
  · rfl
  · exact bne_iff_ne.mpr fun heq => hdisj y.name (mem_map_of_mem hy) x.name
      mem_cons_self heq.symm

section

variable (ht : Inited m t) (h : NodeAt m p d cs rest)

include ht h

theorem propertyNames_of_next (hne : ∀ x ∈ ys, x.name ≠ []) (hnext : nextOf name d.props = ys.head?)
    (hbehind : ∀ x ys', ys = x :: ys' →
      Returns (fun n => propertyNames m (some t) p n x.name) (ys'.map Property.name)) :
    Returns (fun n => propertyNames m (some t) p n name) (ys.map Property.name) := by
  obtain ⟨r, hr, hnamed⟩ := fdtNextProperty_returns ht h name
  rw [hnext] at hnamed
  refine Returns.round ?_ fun n => propertyNames_eq (some t) n name
  refine hr.bind ?_
  cases ys with
  | nil =>
    cases (hnamed : r = (1, .empty))
    exact Returns.some _
  | cons x ys =>
    obtain ⟨-, q, hq, hname⟩ := hnamed
    obtain ⟨r₁, r₂⟩ := r
    cases (hq : r₂ = .str (some q))
    refine (cstr_returns hname).bind ?_
    refine Returns.congr ?_ fun n => if_neg (hne x mem_cons_self)
    exact (hbehind x ys rfl).bind (Returns.some _)

section

variable (hnodup : (d.props.map Property.name).Nodup) (hne : ∀ x ∈ d.props, x.name ≠ [])

include hnodup hne

theorem propertyNames_behind (xs : List Property) (hprops : d.props = xs ++ x :: ys) :
    Returns (fun n => propertyNames m (some t) p n x.name) (ys.map Property.name) := by
  induction ys generalizing xs x with
  | nil =>
    refine propertyNames_of_next ht h (fun y hy => absurd hy not_mem_nil) ?_
      fun y ys' heq => by cases heq
    rw [hprops] at hnodup hne ⊢
    exact nextOf_append hnodup (hne x (by simp))
  | cons y ys ih =>
    have hbehind : d.props = (xs ++ [x]) ++ y :: ys := by
      rw [hprops, append_assoc, singleton_append]
    refine propertyNames_of_next ht h (fun z hz => hne z ?_) ?_ fun z ys' heq => ?_
    · rw [hprops]
      exact mem_append_right _ (mem_cons_of_mem _ hz)
    · rw [hprops] at hnodup hne ⊢
      exact nextOf_append hnodup (hne x (by simp))
    · cases heq
      exact ih _ hbehind

theorem propertyNames_returns :
    Returns (fun n => propertyNames m (some t) p n []) (d.props.map Property.name) := by
  refine propertyNames_of_next ht h hne (if_pos rfl) fun x ys heq => ?_
  exact propertyNames_behind ht h hnodup hne [] heq

end

end

end Names

end Mbsd.Dev.Ofw
