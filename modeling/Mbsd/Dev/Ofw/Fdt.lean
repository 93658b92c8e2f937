import Mbsd.Dev.Ofw.Lookup

/-! What `fdt_init` accepts, and what the device tree is through the functions of `fdt.c`. -/

namespace Mbsd.Dev.Ofw

open Lib Lib.Fuel List Option

variable {m : Mem} {t : Fdt} {p q r n : Nat} {d : NodeData} {f cs rest : Nodes}

def initTree (m : Mem) : Fdt where
  tree := fhStructOff m
  strings := fhStringsOff m
  memory := fhReserveOff m
  end_ := fhSize m
  version := fhVersion m
  stringsSize := fhStringsSize m
  structSize := if fhVersion m ≥ 17 then fhStructSize m else 0

theorem inited_initTree (m : Mem) : Inited m (initTree m) := ⟨rfl, rfl⟩

theorem Blob.root (h : Blob m f) : ∃ p q, Returns (fun n => skipNops m n (fhStructOff m)) p ∧
    NodesAt m p f q ∧ Closes m q ∧ be32 m p = fdtNodeBegin ∧ f.head.map Prod.fst = some p ∧
    q % 4 = 0 ∧ (fhVersion m = 17 → fhStructOff m + fhStructSize m = q + 4) ∧
    be32 m q = fdtEnd := by
  obtain ⟨p, q, hnops, hat, hend, hsize⟩ := h.nodes
  have hclose : Closes m q := .inr hend
  obtain ⟨a, cs, rfl⟩ := h.one
  have hbegin : be32 m p = fdtNodeBegin ∧ (Forest.node a cs .nil).head.map Prod.fst = some p := by
    rcases hat.head_token hclose with hhead | ⟨-, hnil⟩
    · exact hhead
    · cases hnil
  have hplace := hnops.place
  have hplace' := hat.place
  have haligned := h.aligned
  exact ⟨p, q, skipNops_returns hnops (hat.ne_nop hclose), hat, hclose, hbegin.1, hbegin.2,
    by omega, hsize, hend⟩

theorem Blob.struct_words (h : Blob m f) : 4 * (fhStructOff m / 4) = fhStructOff m := by
  have haligned := h.aligned
  omega

theorem fdtCheckHead_returns (h : Blob m f) : Returns (fdtCheckHead m) (fhVersion m) := by
  obtain ⟨p, q, hskip, -, -, hbegin, -, hq, hsize, hend⟩ := h.root
  have hversion := h.version
  have hle : ¬fhVersion m > fdtCodeVersion := by
    rw [fdtCodeVersion]
    omega
  have hlast : ¬(fhVersion m ≥ 17 ∧
      be32 m (4 * (fhStructOff m / 4 + fhStructSize m / 4 - 1)) ≠ fdtEnd) := by
    rintro ⟨hge, hne⟩
    have haligned := h.aligned
    have hplace : 4 * (fhStructOff m / 4 + fhStructSize m / 4 - 1) = q := by omega
    rw [hplace] at hne
    exact hne hend
  have heq : ∀ n, fdtCheckHead m n = (skipNops m n (fhStructOff m)).bind fun tok =>
      if be32 m tok ≠ fdtNodeBegin then some 0 else some (fhVersion m) := fun n => by
    rw [fdtCheckHead, if_neg (not_not.mpr h.magic), if_neg hle, h.struct_words]
    simp only [if_neg hlast]
    rfl
  refine Returns.congr ?_ heq
  exact hskip.bind ((Returns.some (fhVersion m)).congr fun n => if_neg (not_not.mpr hbegin))

theorem fdtInit_returns (h : Blob m f) : Returns (fdtInit m) (fhVersion m, some (initTree m)) := by
  have hne : fhVersion m ≠ 0 := by
    have hversion := h.version
    omega
  refine (fdtCheckHead_returns h).bind (k := fun n version =>
    if version = 0 then some (0, none) else _) ?_
  exact (Returns.some _).congr fun n => if_neg hne

theorem fdtNextNode_root (h : Blob m f) :
    Returns (fun n => fdtNextNode m (some (initTree m)) n none) (f.head.map Prod.fst) := by
  obtain ⟨p, q, hskip, -, -, hbegin, hhead, -⟩ := h.root
  rw [hhead]
  exact hskip.bind ((Returns.some (some p)).congr fun n => by rw [if_pos hbegin])

/-- What the functions give for a tree: its nodes in order, the parents, the names, the properties
by name and in order, and the nodes with a phandle and at a path. -/
structure Navigates (m : Mem) (t : Option Fdt) (f : Nodes) : Prop where
  nodes : Returns (fun n => (fdtNextNode m t n none).bind (walk m t n)) (f.map Prod.fst)
  root : ∀ a ∈ f.head, Returns (fun n => fdtParentNode m t n a.1) none
  parent : ∀ a cs rest, (Forest.node a cs rest).Sub f → ∀ x ∈ cs.tops,
    Returns (fun n => fdtParentNode m t n x.1.1) (some a.1)
  name : ∀ a ∈ f.preorder, ∃ p, fdtNodeName m t a.1 = some p ∧ CStr m p a.2.name
  property : ∀ a ∈ f.preorder, ∀ x ∈ a.2.props, ∃ out,
    Returns (fun n => fdtNodeProperty m t n a.1 x.name) ((x.value.length : Int), some out) ∧
      Bytes m out x.value
  absent : ∀ a ∈ f.preorder, ∀ name, (∀ x ∈ a.2.props, x.name ≠ name) →
    Returns (fun n => fdtNodeProperty m t n a.1 name) (-1, none)
  listing : ∀ a ∈ f.preorder, (∀ x ∈ a.2.props, x.name ≠ []) →
    Returns (fun n => propertyNames m t a.1 n []) (a.2.props.map Property.name)
  phandle : ∀ k, Returns (fun n => fdtFindPhandle m t n k)
    ((f.preorder.find? (·.2.phandle = some k)).map Prod.fst)
  path : ∀ path : Str, 0 ∉ path → Returns (fun n => fdtFindNode m t n path)
    (if path.head? = some 47 then
      (f.tops.head?.bind (descend (components path))).map (·.1.1) else none)

section Root

variable {a : Nat × NodeData}

theorem fdtParentNode_returns (h : Blob m (.node a cs .nil)) (child : Nat) :
    Returns (fun n => fdtParentNode m (some (initTree m)) n child)
      (if a.1 = child then none else (cs.parentIn Prod.fst a child).map Prod.fst) := by
  obtain ⟨p, q, -, hat, hclose, -⟩ := h.root
  have hlaid := hat.laid hclose
  have heq : ∀ n, fdtParentNode m (some (initTree m)) n child =
      (fdtNextNode m (some (initTree m)) n none).bind fun pnode =>
        if some child = pnode then some none
        else pnode.bind fun pnode => fdtParentNodeRecurse m (some (initTree m)) n pnode child :=
    fun n => by
      rw [fdtParentNode]
      rfl
  refine Returns.congr ((fdtNextNode_root h).bind ?_) heq
  by_cases hchild : a.1 = child
  · rw [if_pos hchild]
    exact (Returns.some none).congr fun n => if_pos (congrArg some hchild.symm)
  · rw [if_neg hchild]
    have hrec : Returns (fun n => fdtParentNodeRecurse m (some (initTree m)) n a.1 child)
        ((cs.parentIn Prod.fst a child).map Prod.fst) :=
      ((fdtChildNode_returns hlaid.first (initTree m)).bind
        (parentNodeLoop_returns hlaid.below (initTree m) a child)).round fun n => by
        rw [fdtParentNodeRecurse]
        rfl
    exact hrec.congr fun n => if_neg fun heq => hchild (some.inj heq).symm

theorem fdtFindPhandle_returns (h : Blob m (.node a cs .nil))
    (hshort : ∀ b ∈ (Forest.node a cs .nil).preorder, b.2.Short) (k : Nat) :
    Returns (fun n => fdtFindPhandle m (some (initTree m)) n k)
      (((Forest.node a cs .nil).preorder.find? (·.2.phandle = some k)).map Prod.fst) := by
  obtain ⟨p, q, -, hat, hclose, -⟩ := h.root
  have hlaid := hat.laid hclose
  obtain ⟨a, d⟩ := a
  rw [Forest.preorder, Forest.preorder, append_nil] at hshort ⊢
  have hbelow := findPhandleLoop_returns (inited_initTree m) hlaid.below
    (fun b hb => hshort b (mem_cons_of_mem _ hb)) k
  exact (fdtNextNode_root h).bind (fdtFindPhandleRecurse_returns (inited_initTree m) hlaid.first
    (hshort _ mem_cons_self) hbelow)

theorem fdtFindNode_returns (h : Blob m (.node a cs .nil)) {path : Str} (hpath : 0 ∉ path) :
    Returns (fun n => fdtFindNode m (some (initTree m)) n path)
      (if path.head? = some 47 then (descend (components path) (a, cs)).map (·.1.1)
        else none) := by
  obtain ⟨p, q, -, hat, hclose, -⟩ := h.root
  have hlaid := hat.laid hclose
  have heq : ∀ n, fdtFindNode m (some (initTree m)) n path =
      (fdtNextNode m (some (initTree m)) n none).bind fun node =>
        if path.head? ≠ some 47 then some none
        else findNodeLoop m (some (initTree m)) n node path := fun n => by
    rw [fdtFindNode]
    rfl
  refine Returns.congr ((fdtNextNode_root h).bind ?_) heq
  by_cases hhead : path.head? = some 47
  · rw [if_pos hhead]
    exact (findNodeLoop_returns hlaid.first hlaid.below (initTree m) hpath).congr fun n =>
      if_neg (not_not.mpr hhead)
  · rw [if_neg hhead]
    exact (Returns.some none).congr fun n => if_pos hhead

end Root

theorem find?_name {xs : List Property} {x : Property} (hnodup : (xs.map Property.name).Nodup)
    (hx : x ∈ xs) : xs.find? (x.name == ·.name) = some x := by
  have hsome : (xs.find? (x.name == ·.name)).isSome :=
    find?_isSome.mpr ⟨x, hx, beq_self_eq_true x.name⟩
  obtain ⟨y, hy⟩ := isSome_iff_exists.mp hsome
  have hname : x.name = y.name := by simpa using find?_some hy
  rw [hy, inj_on_of_nodup_map hnodup hx (mem_of_find?_eq_some hy) hname]

/-- The functions decode the tree that a blob serialises. -/
theorem fdt_navigates (h : Blob m f)
    (hdistinct : ∀ a ∈ f.preorder, (a.2.props.map Property.name).Nodup)
    (hshort : ∀ a ∈ f.preorder, a.2.Short) :
    ∃ t, Returns (fdtInit m) (fhVersion m, some t) ∧ Navigates m (some t) f := by
  obtain ⟨p, q, -, hat, hclose, -⟩ := h.root
  obtain ⟨a, cs, rfl⟩ := h.one
  have hlaid := hat.laid hclose
  have hnodup := hat.nodup
  have ht := inited_initTree m
  refine ⟨initTree m, fdtInit_returns h, ?_⟩
  constructor
  case nodes => exact (fdtNextNode_root h).bind (walk_returns hlaid (initTree m))
  case root =>
    rintro _ ⟨⟩
    exact (fdtParentNode_returns h a.1).congr_value (if_pos rfl)
  case parent =>
    intro b bs rest hsub x hx
    refine (fdtParentNode_returns h x.1.1).congr_value ?_
    obtain ⟨hne, hparent⟩ := Forest.parentIn_root hsub hx hnodup
    rw [if_neg hne, hparent]
    rfl
  case name =>
    rintro ⟨b, d⟩ hb
    obtain ⟨bs, rest, hnode⟩ := hlaid.node_of_mem hb
    exact ⟨b + 4, if_neg (not_not.mpr hnode.begin), hnode.name⟩
  case property =>
    rintro ⟨b, d⟩ hb x hx
    obtain ⟨bs, rest, hnode⟩ := hlaid.node_of_mem hb
    obtain ⟨r, hr, hfound⟩ := fdtNodeProperty_returns ht hnode x.name
    rw [find?_name (hdistinct _ hb) hx] at hfound
    obtain ⟨-, hlen, out, hout, hbytes⟩ := hfound
    rw [toInt_of_lt (hshort _ hb x hx)] at hlen
    exact ⟨out, hr.congr_value (Prod.ext hlen hout), hbytes⟩
  case absent =>
    rintro ⟨b, d⟩ hb name hname
    obtain ⟨bs, rest, hnode⟩ := hlaid.node_of_mem hb
    obtain ⟨r, hr, hfound⟩ := fdtNodeProperty_returns ht hnode name
    rw [find?_eq_none.mpr fun x hx => by simpa using (hname x hx).symm] at hfound
    exact hr.congr_value hfound
  case listing =>
    rintro ⟨b, d⟩ hb hne
    obtain ⟨bs, rest, hnode⟩ := hlaid.node_of_mem hb
    exact propertyNames_returns ht hnode (hdistinct _ hb) hne
  case phandle => exact fdtFindPhandle_returns h hshort
  case path => exact fun path hpath => fdtFindNode_returns h hpath

section Examples

/-- The head of a version 17 blob with the reservations at 40, the strings at 56 and the nodes
at 60. -/
def head17 (size stringsSize structSize : List UInt8) : List UInt8 :=
  [0xd0, 0x0d, 0xfe, 0xed] ++ size ++ [0, 0, 0, 60] ++ [0, 0, 0, 56] ++ [0, 0, 0, 40] ++
    [0, 0, 0, 17] ++ [0, 0, 0, 16] ++ [0, 0, 0, 0] ++ stringsSize ++ structSize ++
    List.replicate 16 0

/-- A root without a name, with a property `""`, then a NOP, a property `a` and a child `c`. -/
def unnamedBlob : Mem := fun p =>
  (head17 [0, 0, 0, 116] [0, 0, 0, 3] [0, 0, 0, 56] ++ [0, 97, 0, 0] ++
    [0, 0, 0, 1] ++ [0, 0, 0, 0] ++ [0, 0, 0, 3] ++ [0, 0, 0, 0] ++ [0, 0, 0, 0] ++
    [0, 0, 0, 4] ++ [0, 0, 0, 3] ++ [0, 0, 0, 0] ++ [0, 0, 0, 1] ++
    [0, 0, 0, 1] ++ [99, 0, 0, 0] ++ [0, 0, 0, 2] ++ [0, 0, 0, 2] ++ [0, 0, 0, 9]).getD p 0

def unnamedNode : NodeData := ⟨[], [⟨[], []⟩, ⟨[97], []⟩]⟩

def unnamedTree : Nodes := .node (60, unnamedNode) (.node (96, ⟨[99], []⟩) .nil .nil) .nil

theorem unnamedBlob_blob : Blob unnamedBlob unnamedTree where
  magic := by decide
  version := by decide
  aligned := by decide
  one := ⟨_, _, rfl⟩
  nodes := by
    have hprops : PropsAt unnamedBlob 68 unnamedNode.props 96 :=
      .cons (by decide) (by decide) (by decide) (by decide : unnamedBlob _ = 0) trivial
        (.nop (by decide) (.refl _)) (.cons (by decide) (by decide) (by decide)
          ⟨by decide, by decide, (by decide : unnamedBlob _ = 0)⟩ trivial (.refl _) (.nil _))
    have hchild : NodesAt unnamedBlob 96 (.node (96, ⟨[99], []⟩) .nil .nil) 108 :=
      .node (by decide) ⟨by decide, by decide, (by decide : unnamedBlob _ = 0)⟩ (.refl _)
        (.nil _) (.nil _) (by decide) (.refl _) (.nil _)
    exact ⟨60, 112, .refl _, .node (by decide) (by decide : unnamedBlob _ = 0) (.refl _) hprops
      hchild (by decide) (.refl _) (.nil _), by decide, fun _ => by decide⟩

theorem unnamedTree_distinct :
    ∀ a ∈ unnamedTree.preorder, (a.2.props.map Property.name).Nodup := by decide

theorem unnamedTree_short : ∀ a ∈ unnamedTree.preorder, a.2.Short := by
  intro a ha x hx
  have hempty : ∀ a ∈ unnamedTree.preorder, ∀ x ∈ a.2.props, x.value = [] := by decide
  rw [hempty a ha x hx]
  decide

theorem fdt_navigates_unnamed : ∃ t, Returns (fdtInit unnamedBlob) (fhVersion unnamedBlob, some t) ∧
      Navigates unnamedBlob (some t) unnamedTree :=
  fdt_navigates unnamedBlob_blob unnamedTree_distinct unnamedTree_short

def longBlob : Mem := fun p =>
  if p < 80 then
    (head17 [128, 0, 0, 88] [0, 0, 0, 2] [128, 0, 0, 28] ++ [97, 0, 0, 0] ++
      [0, 0, 0, 1] ++ [0, 0, 0, 0] ++ [0, 0, 0, 3] ++ [128, 0, 0, 0] ++ [0, 0, 0, 0]).getD p 0
  else if p = 80 + 2 ^ 31 + 3 then 2
  else if p = 84 + 2 ^ 31 + 3 then 9
  else 0

def longProperty : Property := ⟨[97], List.replicate (2 ^ 31) 0⟩

def longTree : Nodes := .node (60, ⟨[], [longProperty]⟩) .nil .nil

theorem bytes_replicate {k : Nat} (h : ∀ q, p ≤ q → q < p + k → m q = 0) :
    Bytes m p (replicate k 0) := by
  induction k generalizing p with
  | zero => trivial
  | succ k ih =>
    exact ⟨h p (Nat.le_refl p) (by omega), ih fun q hle hlt => h q (by omega) (by omega)⟩

theorem longProperty_length : longProperty.value.length = 2 ^ 31 := length_replicate

theorem longProperty_bytes : Bytes longBlob 80 longProperty.value := by
  refine bytes_replicate fun q hle hlt => ?_
  rw [longBlob, if_neg (by omega), if_neg (by omega), if_neg (by omega)]

theorem longBlob_blob : Blob longBlob longTree where
  magic := by decide
  version := by decide
  aligned := by decide
  one := ⟨_, _, rfl⟩
  nodes := by
    have hnops : Nops longBlob (68 + 12 + roundup longProperty.value.length) (80 + 2 ^ 31) := by
      rw [longProperty_length]
      exact .refl _
    have hprops : PropsAt longBlob 68 [longProperty] (80 + 2 ^ 31) :=
      .cons (by decide) ((by decide : be32 longBlob 72 = 2 ^ 31).trans longProperty_length.symm)
        (by decide) ⟨by decide, by decide, (by decide : longBlob _ = 0)⟩ longProperty_bytes hnops
        (.nil _)
    exact ⟨60, 84 + 2 ^ 31, .refl _, .node (by decide) (by decide : longBlob _ = 0) (.refl _)
      hprops (.nil _) (by decide) (.refl _) (.nil _), by decide, fun _ => by decide⟩

/-- The empty name ends a listing that has only begun, and a long value has a negative length. -/
theorem fdt_navigates_fails : (Blob unnamedBlob unnamedTree ∧
      Returns (fdtInit unnamedBlob) (17, some (initTree unnamedBlob)) ∧
      Returns (fun n => propertyNames unnamedBlob (some (initTree unnamedBlob)) 60 n []) [] ∧
      unnamedNode.props.map Property.name = [[], [97]]) ∧ (Blob longBlob longTree ∧
      Returns (fdtInit longBlob) (17, some (initTree longBlob)) ∧
      (∃ out, Returns (fun n => fdtNodeProperty longBlob (some (initTree longBlob)) n 60 [97])
        (-2 ^ 31, some out)) ∧ longProperty.value.length = 2 ^ 31) := by
  refine ⟨⟨unnamedBlob_blob, ?_, ?_, rfl⟩, longBlob_blob, ?_, ?_, longProperty_length⟩
  · exact fdtInit_returns unnamedBlob_blob
  · obtain ⟨p, q, -, hat, hclose, -⟩ := unnamedBlob_blob.root
    have hnode := (hat.laid hclose).first
    obtain ⟨r, hr, hnamed⟩ := fdtNextProperty_returns (inited_initTree _) hnode []
    obtain ⟨-, p, hp, hname⟩ := (hnamed : Named unnamedBlob (some ⟨[], []⟩) r)
    obtain ⟨r₁, r₂⟩ := r
    cases (hp : r₂ = .str (some p))
    refine Returns.round ?_ fun n => propertyNames_eq _ n []
    exact hr.bind ((cstr_returns hname).bind (Returns.some []))
  · exact fdtInit_returns longBlob_blob
  · obtain ⟨p, q, -, hat, hclose, -⟩ := longBlob_blob.root
    have hnode := (hat.laid hclose).first
    obtain ⟨⟨len, o⟩, hr, hfound⟩ := fdtNodeProperty_returns (inited_initTree _) hnode [97]
    obtain ⟨-, hlen, out, hout, -⟩ := (hfound : Found longBlob (some longProperty) (len, o))
    rw [longProperty_length] at hlen
    have hneg : toInt (2 ^ 31) = -2 ^ 31 := by decide
    exact ⟨out, hr.congr_value (Prod.ext (hlen.trans hneg) hout)⟩

end Examples

end Mbsd.Dev.Ofw
