import Mathlib.Data.BitVec

/-! The flattened device tree of `dev/ofw/fdt.c`.  Pointers are places in the memory, which has the
blob at zero; `none` is `NULL`.  Each loop and recursion has a bound on its rounds, and `none` as
the outcome of a function is a bound that is too small, or a `NULL` that is read through. -/

namespace Mbsd.Dev.Ofw

def fdtMagic : Nat := 0xd00dfeed

def fdtNodeBegin : Nat := 0x01

def fdtNodeEnd : Nat := 0x02

def fdtProperty : Nat := 0x03

def fdtNop : Nat := 0x04

def fdtEnd : Nat := 0x09

def fdtCodeVersion : Nat := 0x11

abbrev Mem := Nat → UInt8

abbrev Str := List UInt8

def be32 (m : Mem) (p : Nat) : Nat :=
  (m p).toNat * 2 ^ 24 + (m (p + 1)).toNat * 2 ^ 16 + (m (p + 2)).toNat * 2 ^ 8 + (m (p + 3)).toNat

/-- The bytes that `x` bytes take when they are rounded up to whole words. -/
def roundup (x : Nat) : Nat := (x + 3) / 4 * 4

def toInt (x : Nat) : Int := if x < 2 ^ 31 then x else x - 2 ^ 32

def cstr (m : Mem) : Nat → Nat → Option Str
  | 0, _ => none
  | n + 1, p => if m p = 0 then some [] else (cstr m n (p + 1)).map (m p :: ·)

def strlen (m : Mem) (n p : Nat) : Option Nat := (cstr m n p).map List.length

def strcmpEq (m : Mem) (n : Nat) (s : Str) (p : Option Nat) : Option Bool :=
  p.bind fun p => (cstr m n p).map (s == ·)

/-- `strncmp(s, p, len) == 0`, where `s` has the length `len` and no zero. -/
def strncmpEq (m : Mem) : Str → Nat → Bool
  | [], _ => true
  | c :: s, p => m p == c && strncmpEq m s (p + 1)

structure Fdt where
  tree : Nat
  strings : Nat
  memory : Nat
  end_ : Nat
  version : Nat
  stringsSize : Nat
  structSize : Nat
  deriving DecidableEq

def fhMagic (m : Mem) : Nat := be32 m 0

def fhSize (m : Mem) : Nat := be32 m 4

def fhStructOff (m : Mem) : Nat := be32 m 8

def fhStringsOff (m : Mem) : Nat := be32 m 12

def fhReserveOff (m : Mem) : Nat := be32 m 16

def fhVersion (m : Mem) : Nat := be32 m 20

def fhStringsSize (m : Mem) : Nat := be32 m 32

def fhStructSize (m : Mem) : Nat := be32 m 36

def skipNops (m : Mem) : Nat → Nat → Option Nat
  | 0, _ => none
  | n + 1, p => if be32 m p = fdtNop then skipNops m n (p + 4) else some p

def fdtCheckHead (m : Mem) (n : Nat) : Option Nat :=
  if fhMagic m ≠ fdtMagic then some 0
  else if fhVersion m > fdtCodeVersion then some 0
  else do
    let tok ← skipNops m n (4 * (fhStructOff m / 4))
    if be32 m tok ≠ fdtNodeBegin then some 0
    else if fhVersion m ≥ 17 ∧
        be32 m (4 * (fhStructOff m / 4 + fhStructSize m / 4 - 1)) ≠ fdtEnd then some 0
    else some (fhVersion m)

/-- What `fdt_init` returns, and the tree that it leaves, which is `none` when `tree_inited` is
not set. -/
def fdtInit (m : Mem) (n : Nat) : Option (Nat × Option Fdt) := do
  let version ← fdtCheckHead m n
  if version = 0 then some (0, none)
  else some (version, some {
    tree := fhStructOff m
    strings := fhStringsOff m
    memory := fhReserveOff m
    end_ := fhSize m
    version := version
    stringsSize := fhStringsSize m
    structSize := if version ≥ 17 then fhStructSize m else 0 })

def fdtGetStr (t : Fdt) (num : Nat) : Option Nat :=
  if num > t.stringsSize then none else some (t.strings + num)

def skipProperty (m : Mem) (n p : Nat) : Option Nat :=
  let size := be32 m (p + 4)
  skipNops m n (p + 4 * (3 + roundup size / 4))

def skipProps (m : Mem) : Nat → Nat → Option Nat
  | 0, _ => none
  | n + 1, p =>
    if be32 m p = fdtProperty then do
      let p ← skipProperty m n p
      skipProps m n p
    else some p

def skipNodeName (m : Mem) (n p : Nat) : Option Nat := do
  let len ← strlen m n p
  skipNops m n (p + 4 * (roundup (len + 1) / 4))

def nodePropertyLoop (m : Mem) (t : Fdt) (name : Str) : Nat → Nat → Option (Int × Option Nat)
  | 0, _ => none
  | n + 1, p =>
    if be32 m p = fdtProperty then do
      let nameid := be32 m (p + 8)
      if ← strcmpEq m n name (fdtGetStr t nameid) then some (toInt (be32 m (p + 4)), some (p + 12))
      else do
        let p ← skipProperty m n p
        nodePropertyLoop m t name n p
    else some (-1, none)

def fdtNodeProperty (m : Mem) (t : Option Fdt) (n node : Nat) (name : Str) :
    Option (Int × Option Nat) :=
  match t with
  | none => some (-1, none)
  | some t =>
    if be32 m node ≠ fdtNodeBegin then some (-1, none)
    else do
      let p ← skipNodeName m n (node + 4)
      nodePropertyLoop m t name n p

mutual

def skipNode (m : Mem) : Nat → Nat → Option Nat
  | 0, _ => none
  | n + 1, node => do
    let p ← skipNodeName m n (node + 4)
    let p ← skipProps m n p
    let p ← skipChildren m n p
    skipNops m n (p + 4)

def skipChildren (m : Mem) : Nat → Nat → Option Nat
  | 0, _ => none
  | n + 1, p =>
    if be32 m p = fdtNodeBegin then do
      let p ← skipNode m n p
      skipChildren m n p
    else some p

end

def fdtNextNode (m : Mem) (t : Option Fdt) (n : Nat) (node : Option Nat) : Option (Option Nat) :=
  match t with
  | none => some none
  | some t =>
    match node with
    | none => do
      let p ← skipNops m n t.tree
      some (if be32 m p = fdtNodeBegin then some p else none)
    | some p =>
      if be32 m p ≠ fdtNodeBegin then some none
      else do
        let p ← skipNodeName m n (p + 4)
        let p ← skipProps m n p
        let p ← skipChildren m n p
        if be32 m p ≠ fdtNodeEnd then some none
        else do
          let p ← skipNops m n (p + 4)
          if be32 m p ≠ fdtNodeBegin then some none else some (some p)

/-- What `fdt_next_property` stores in `*nextname`: nothing, an empty string of its own, or what
`fdt_get_str` has returned. -/
inductive NextName
  | unset
  | empty
  | str (p : Option Nat)
  deriving DecidableEq

def nextPropertyLoop (m : Mem) (t : Fdt) (name : Str) : Nat → Nat → Option (Nat × NextName)
  | 0, _ => none
  | n + 1, p =>
    if be32 m p = fdtProperty then do
      let nameid := be32 m (p + 8)
      if name = [] then some (1, .str (fdtGetStr t nameid))
      else do
        if ← strcmpEq m n name (fdtGetStr t nameid) then do
          let p ← skipProperty m n p
          if be32 m p ≠ fdtProperty then some (1, .empty)
          else some (1, .str (fdtGetStr t (be32 m (p + 8))))
        else do
          let p ← skipProperty m n p
          nextPropertyLoop m t name n p
    else some (1, .empty)

def fdtNextProperty (m : Mem) (t : Option Fdt) (n node : Nat) (name : Str) :
    Option (Nat × NextName) :=
  match t with
  | none => some (0, .unset)
  | some t =>
    if be32 m node ≠ fdtNodeBegin then some (0, .unset)
    else do
      let p ← skipNodeName m n (node + 4)
      nextPropertyLoop m t name n p

def fdtChildNode (m : Mem) (t : Option Fdt) (n node : Nat) : Option (Option Nat) :=
  match t with
  | none => some none
  | some _ =>
    if be32 m node ≠ fdtNodeBegin then some none
    else do
      let p ← skipNodeName m n (node + 4)
      let p ← skipProps m n p
      some (if be32 m p = fdtNodeBegin then some p else none)

def fdtNodeName (m : Mem) (t : Option Fdt) (node : Nat) : Option Nat :=
  match t with
  | none => none
  | some _ => if be32 m node ≠ fdtNodeBegin then none else some (node + 4)

/-- A loop of `fdt_find_node` over the nodes from `child` on, for one whose name is `s` and then
`stop`. -/
def findChild (m : Mem) (t : Option Fdt) (s : Str) (stop : UInt8) :
    Nat → Option Nat → Option (Option Nat)
  | 0, _ => none
  | _ + 1, none => some none
  | n + 1, some child => do
    let name ← fdtNodeName m t child
    if strncmpEq m s name ∧ m (name + s.length) = stop then some (some child)
    else do
      let child ← fdtNextNode m t n (some child)
      findChild m t s stop n child

def findNodeLoop (m : Mem) (t : Option Fdt) : Nat → Option Nat → Str → Option (Option Nat)
  | 0, _, _ => none
  | _ + 1, node, [] => some node
  | n + 1, node, c :: p =>
    match (c :: p).dropWhile (· = 47) with
    | [] => some node
    | c :: p => do
      let s := (c :: p).takeWhile (· ≠ 47)
      let q := (c :: p).dropWhile (· ≠ 47)
      let node ← node
      let child ← fdtChildNode m t n node
      match ← findChild m t s 0 n child with
      | some child => findNodeLoop m t n (some child) q
      | none => do
        let child ← fdtChildNode m t n node
        match ← findChild m t s 64 n child with
        | some child => findNodeLoop m t n (some child) q
        | none => some none

def fdtFindNode (m : Mem) (t : Option Fdt) (n : Nat) (name : Str) : Option (Option Nat) := do
  let node ← fdtNextNode m t n none
  if t = none then some none
  else if name.head? ≠ some 47 then some none
  else findNodeLoop m t n node name

mutual

def fdtParentNodeRecurse (m : Mem) (t : Option Fdt) : Nat → Nat → Nat → Option (Option Nat)
  | 0, _, _ => none
  | n + 1, pnode, child => do
    let node ← fdtChildNode m t n pnode
    parentNodeLoop m t n pnode node child

def parentNodeLoop (m : Mem) (t : Option Fdt) : Nat → Nat → Option Nat → Nat → Option (Option Nat)
  | 0, _, _, _ => none
  | _ + 1, _, none, _ => some none
  | n + 1, pnode, some node, child =>
    if node ≠ child then do
      match ← fdtParentNodeRecurse m t n node child with
      | some tmp => some (some tmp)
      | none => do
        let node ← fdtNextNode m t n (some node)
        parentNodeLoop m t n pnode node child
    else some (some pnode)

end

def fdtParentNode (m : Mem) (t : Option Fdt) (n node : Nat) : Option (Option Nat) := do
  let pnode ← fdtNextNode m t n none
  if t = none then some none
  else if some node = pnode then some none
  else do
    let pnode ← pnode
    fdtParentNodeRecurse m t n pnode node

def phandleStr : Str := [112, 104, 97, 110, 100, 108, 101]

def linuxPhandleStr : Str := [108, 105, 110, 117, 120, 44] ++ phandleStr

mutual

def fdtFindPhandleRecurse (m : Mem) (t : Option Fdt) (phandle : Nat) :
    Nat → Nat → Option (Option Nat)
  | 0, _ => none
  | n + 1, node => do
    let r ← fdtNodeProperty m t n node phandleStr
    let r ← if r.1 < 0 then fdtNodeProperty m t n node linuxPhandleStr else some r
    if r.1 = 4 ∧ r.2.map (be32 m) = some phandle then some (some node)
    else do
      let child ← fdtChildNode m t n node
      findPhandleLoop m t phandle n child

def findPhandleLoop (m : Mem) (t : Option Fdt) (phandle : Nat) :
    Nat → Option Nat → Option (Option Nat)
  | 0, _ => none
  | _ + 1, none => some none
  | n + 1, some child => do
    match ← fdtFindPhandleRecurse m t phandle n child with
    | some tmp => some (some tmp)
    | none => do
      let child ← fdtNextNode m t n (some child)
      findPhandleLoop m t phandle n child

end

def fdtFindPhandle (m : Mem) (t : Option Fdt) (n phandle : Nat) : Option (Option Nat) := do
  match ← fdtNextNode m t n none with
  | some node => fdtFindPhandleRecurse m t phandle n node
  | none => if t = none then some none else none

end Mbsd.Dev.Ofw
