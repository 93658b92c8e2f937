import Mbsd.Lib.RedBlack

/-! The red-black trees of `kern/subr_tree.c`.  An element stands for the entry inside it, so that
`rb_n2e` and `rb_e2n` are the identity; `t_augment`, which works on data of the element that nothing
here reads, is left out.  `none` is a null pointer that is followed, or a loop that is not done when
the fuel is.  The code for the left and the right is one definition, with a side. -/

namespace Mbsd.Kern.SubrTree

open Lib

inductive RbColor
  | RB_BLACK | RB_RED
  deriving DecidableEq, Repr

structure RbTree (ν : Type) where
  rbtParent : ν → Option ν
  rbtChild : Side → ν → Option ν
  rbtColor : ν → RbColor
  rbtRoot : Option ν

variable {ν : Type} [DecidableEq ν]

namespace RbTree

def setParent (t : RbTree ν) (rbe : ν) (parent : Option ν) : RbTree ν :=
  { t with rbtParent := Function.update t.rbtParent rbe parent }

def setChild (t : RbTree ν) (d : Side) (rbe : ν) (child : Option ν) : RbTree ν :=
  { t with rbtChild := Function.update t.rbtChild d (Function.update (t.rbtChild d) rbe child) }

def setColor (t : RbTree ν) (rbe : ν) (color : RbColor) : RbTree ν :=
  { t with rbtColor := Function.update t.rbtColor rbe color }

def setParentOf (t : RbTree ν) (rbe parent : Option ν) : RbTree ν :=
  match rbe with
  | none => t
  | some rbe => t.setParent rbe parent

/-- What hangs below `parent`, or is the root, in the place of `rbe`. -/
def relink (t : RbTree ν) (parent : Option ν) (rbe : ν) (child : Option ν) : RbTree ν :=
  match parent with
  | none => { t with rbtRoot := child }
  | some parent =>
    if t.rbtChild .left parent = some rbe then t.setChild .left parent child
    else t.setChild .right parent child

end RbTree

def rbeSet (t : RbTree ν) (rbe : ν) (parent : Option ν) : RbTree ν :=
  (((t.setParent rbe parent).setChild .right rbe none).setChild .left rbe none).setColor rbe .RB_RED

def rbeSetBlackred (t : RbTree ν) (black red : ν) : RbTree ν :=
  (t.setColor black .RB_BLACK).setColor red .RB_RED

/-- `rbe` goes down on side `d`, and its child on the other side comes up. -/
def rbeRotate (d : Side) (t : RbTree ν) (rbe : ν) : Option (RbTree ν) := do
  let tmp ← t.rbtChild d.flip rbe
  let inner := t.rbtChild d tmp
  let t := t.setChild d.flip rbe inner
  let t := t.setParentOf inner (some rbe)
  let parent := t.rbtParent rbe
  let t := t.setParent tmp parent
  let t := t.relink parent rbe (some tmp)
  let t := t.setChild d tmp (some rbe)
  some (t.setParent rbe (some tmp))

def rbeRotateLeft : RbTree ν → ν → Option (RbTree ν) := rbeRotate .left

def rbeRotateRight : RbTree ν → ν → Option (RbTree ν) := rbeRotate .right

/-- The side on which `rbe` hangs, as the code asks for it. -/
def sideOf (t : RbTree ν) (parent : ν) (rbe : Option ν) : Side :=
  if t.rbtChild .left parent = rbe then .left else .right

def isRed (t : RbTree ν) (rbe : Option ν) : Bool :=
  match rbe with
  | none => false
  | some rbe => t.rbtColor rbe = .RB_RED

/-- One round, where `parent` hangs on side `d` of `gparent`: the tree, and the next `rbe`. -/
def insertColorRound (d : Side) (t : RbTree ν) (rbe parent gparent : ν) :
    Option (RbTree ν × ν) :=
  match t.rbtChild d.flip gparent with
  | some tmp =>
    if t.rbtColor tmp = .RB_RED then
      some (rbeSetBlackred (t.setColor tmp .RB_BLACK) parent gparent, gparent)
    else rotated
  | none => rotated
where
  rotated : Option (RbTree ν × ν) := do
    let (t, parent, rbe) ←
      if t.rbtChild d.flip parent = some rbe then do
        some (← rbeRotate d t parent, rbe, parent)
      else some (t, parent, rbe)
    some (← rbeRotate d.flip (rbeSetBlackred t parent gparent) gparent, rbe)

def insertColorLoop : Nat → RbTree ν → ν → Option (RbTree ν)
  | 0, _, _ => none
  | fuel + 1, t, rbe =>
    match t.rbtParent rbe with
    | none => some t
    | some parent =>
      if t.rbtColor parent = .RB_RED then do
        let gparent ← t.rbtParent parent
        let (t, rbe) ← insertColorRound (sideOf t gparent (some parent)) t rbe parent gparent
        insertColorLoop fuel t rbe
      else some t

def rbeInsertColor (fuel : Nat) (t : RbTree ν) (rbe : ν) : Option (RbTree ν) := do
  let t ← insertColorLoop fuel t rbe
  some (t.setColor (← t.rbtRoot) .RB_BLACK)

/-- A round leaves one black node missing one level up, or none. -/
inductive Remedy (ν : Type)
  | up (t : RbTree ν)
  | done (t : RbTree ν)

/-- The other child `tmp` of `parent` is black; a black node is missing on side `d`. -/
def removeColorBlack (d : Side) (t : RbTree ν) (parent tmp : ν) : Option (Remedy ν) :=
  if !isRed t (t.rbtChild .left tmp) && !isRed t (t.rbtChild .right tmp) then
    some (.up (t.setColor tmp .RB_RED))
  else do
    let (t, tmp) ←
      if !isRed t (t.rbtChild d.flip tmp) then do
        let t := match t.rbtChild d tmp with
          | none => t
          | some inner => t.setColor inner .RB_BLACK
        let t ← rbeRotate d.flip (t.setColor tmp .RB_RED) tmp
        some (t, ← t.rbtChild d.flip parent)
      else some (t, tmp)
    let t := (t.setColor tmp (t.rbtColor parent)).setColor parent .RB_BLACK
    let t := match t.rbtChild d.flip tmp with
      | none => t
      | some outer => t.setColor outer .RB_BLACK
    some (.done (← rbeRotate d t parent))

/-- One round, where a black node is missing on side `d` of `parent`. -/
def removeColorRound (d : Side) (t : RbTree ν) (parent : ν) : Option (Remedy ν) := do
  let tmp ← t.rbtChild d.flip parent
  if t.rbtColor tmp = .RB_RED then do
    let t ← rbeRotate d (rbeSetBlackred t tmp parent) parent
    removeColorBlack d t parent (← t.rbtChild d.flip parent)
  else removeColorBlack d t parent tmp

def removeColorLoop : Nat → RbTree ν → Option ν → Option ν → Option (RbTree ν × Option ν)
  | 0, _, _, _ => none
  | fuel + 1, t, parent, rbe =>
    if !isRed t rbe ∧ rbe ≠ t.rbtRoot then do
      let parent ← parent
      match ← removeColorRound (sideOf t parent rbe) t parent with
      | .up t => removeColorLoop fuel t (t.rbtParent parent) (some parent)
      | .done t => some (t, t.rbtRoot)
    else some (t, rbe)

def rbeRemoveColor (fuel : Nat) (t : RbTree ν) (parent rbe : Option ν) : Option (RbTree ν) := do
  let (t, rbe) ← removeColorLoop fuel t parent rbe
  match rbe with
  | none => some t
  | some rbe => some (t.setColor rbe .RB_BLACK)

def outermost (d : Side) (t : RbTree ν) : Nat → ν → Option ν
  | 0, _ => none
  | fuel + 1, rbe =>
    match t.rbtChild d rbe with
    | none => some rbe
    | some tmp => outermost d t fuel tmp

def RbTree.copy (t : RbTree ν) (rbe old : ν) : RbTree ν :=
  (((t.setParent rbe (t.rbtParent old)).setChild .left rbe (t.rbtChild .left old)).setChild .right
    rbe (t.rbtChild .right old)).setColor rbe (t.rbtColor old)

/-- `rbe` takes the place of `old`, which has a left child. -/
def takePlace (t : RbTree ν) (rbe old : ν) : Option (RbTree ν) := do
  let t := t.copy rbe old
  let t := t.relink (t.rbtParent old) old (some rbe)
  let t := t.setParent (← t.rbtChild .left old) (some rbe)
  some (t.setParentOf (t.rbtChild .right old) (some rbe))

/-- From `parent` and `child` of the entry that leaves its place, and its colour. -/
def removeFrom (fuel : Nat) (t : RbTree ν) (color : RbColor) (parent child : Option ν) :
    Option (RbTree ν) :=
  if color = .RB_BLACK then rbeRemoveColor fuel t parent child else some t

/-- `old` has two children: the one that comes after it takes its place. -/
def removeInner (fuel : Nat) (t : RbTree ν) (old right : ν) : Option (RbTree ν) := do
  let rbe ← outermost .left t fuel right
  let child := t.rbtChild .right rbe
  let parent := t.rbtParent rbe
  let color := t.rbtColor rbe
  let t := t.setParentOf child parent
  let t := t.relink parent rbe child
  let parent := if t.rbtParent rbe = some old then some rbe else parent
  removeFrom fuel (← takePlace t rbe old) color parent child

def removeOuter (fuel : Nat) (t : RbTree ν) (rbe : ν) (child : Option ν) : Option (RbTree ν) :=
  let parent := t.rbtParent rbe
  let color := t.rbtColor rbe
  let t := t.setParentOf child parent
  let t := t.relink parent rbe child
  removeFrom fuel t color parent child

def rbeRemove (fuel : Nat) (t : RbTree ν) (rbe : ν) : Option (RbTree ν) :=
  match t.rbtChild .left rbe, t.rbtChild .right rbe with
  | none, child => removeOuter fuel t rbe child
  | some left, none => removeOuter fuel t rbe (some left)
  | some _, some right => removeInner fuel t rbe right

def rbRemove (fuel : Nat) (t : RbTree ν) (elm : ν) : Option (RbTree ν × ν) := do
  some (← rbeRemove fuel t elm, elm)

section Compare

variable (tCompare : ν → ν → Int)

/-- Where the search of `_rb_insert` ends: at an equal element, or below `parent` with the last
comparison. -/
inductive Found (ν : Type)
  | equal (node : ν)
  | below (parent : Option ν) (comp : Int)

def insertSearch (t : RbTree ν) (elm : ν) :
    Nat → (tmp parent : Option ν) → (comp : Int) → Option (Found ν)
  | 0, _, _, _ => none
  | fuel + 1, tmp, parent, comp =>
    match tmp with
    | none => some (.below parent comp)
    | some tmp =>
      let comp := tCompare elm tmp
      if comp < 0 then insertSearch t elm fuel (t.rbtChild .left tmp) (some tmp) comp
      else if comp > 0 then insertSearch t elm fuel (t.rbtChild .right tmp) (some tmp) comp
      else some (.equal tmp)

/-- `elm` becomes a child of `parent`, on the side of the last comparison, or the root. -/
def hang (t : RbTree ν) (elm : ν) (parent : Option ν) (comp : Int) : RbTree ν :=
  let t := rbeSet t elm parent
  match parent with
  | none => { t with rbtRoot := some elm }
  | some parent =>
    if comp < 0 then t.setChild .left parent (some elm)
    else t.setChild .right parent (some elm)

def rbInsert (fuel : Nat) (t : RbTree ν) (elm : ν) : Option (RbTree ν × Option ν) := do
  match ← insertSearch tCompare t elm fuel t.rbtRoot none 0 with
  | .equal node => some (t, some node)
  | .below parent comp => some (← rbeInsertColor fuel (hang t elm parent comp) elm, none)

def findLoop (t : RbTree ν) (key : ν) : Nat → Option ν → Option (Option ν)
  | 0, _ => none
  | fuel + 1, tmp =>
    match tmp with
    | none => some none
    | some tmp =>
      let comp := tCompare key tmp
      if comp < 0 then findLoop t key fuel (t.rbtChild .left tmp)
      else if comp > 0 then findLoop t key fuel (t.rbtChild .right tmp)
      else some (some tmp)

def rbFind (fuel : Nat) (t : RbTree ν) (key : ν) : Option (Option ν) :=
  findLoop tCompare t key fuel t.rbtRoot

def nfindLoop (t : RbTree ν) (key : ν) : Nat → (tmp res : Option ν) → Option (Option ν)
  | 0, _, _ => none
  | fuel + 1, tmp, res =>
    match tmp with
    | none => some res
    | some tmp =>
      let comp := tCompare key tmp
      if comp < 0 then nfindLoop t key fuel (t.rbtChild .left tmp) (some tmp)
      else if comp > 0 then nfindLoop t key fuel (t.rbtChild .right tmp) res
      else some (some tmp)

def rbNfind (fuel : Nat) (t : RbTree ν) (key : ν) : Option (Option ν) :=
  nfindLoop tCompare t key fuel t.rbtRoot none

end Compare

def climb (d : Side) (t : RbTree ν) : Nat → ν → Option (Option ν)
  | 0, _ => none
  | fuel + 1, rbe =>
    match t.rbtParent rbe with
    | none => some none
    | some parent =>
      if t.rbtChild d parent = some rbe then climb d t fuel parent else some (some parent)

def neighbour (d : Side) (fuel : Nat) (t : RbTree ν) (rbe : ν) : Option (Option ν) :=
  match t.rbtChild d rbe with
  | some child => do some (some (← outermost d.flip t fuel child))
  | none =>
    match t.rbtParent rbe with
    | none => climb d t fuel rbe
    | some parent =>
      if t.rbtChild d.flip parent = some rbe then some (some parent) else climb d t fuel rbe

def rbNext (fuel : Nat) (t : RbTree ν) (elm : ν) : Option (Option ν) := neighbour .right fuel t elm

def rbPrev (fuel : Nat) (t : RbTree ν) (elm : ν) : Option (Option ν) := neighbour .left fuel t elm

def extreme (d : Side) (fuel : Nat) (t : RbTree ν) : Option (Option ν) :=
  match t.rbtRoot with
  | none => some none
  | some root => do some (some (← outermost d t fuel root))

def rbMin (fuel : Nat) (t : RbTree ν) : Option (Option ν) := extreme .left fuel t

def rbMax (fuel : Nat) (t : RbTree ν) : Option (Option ν) := extreme .right fuel t

def foreachLoop (d : Side) (fuel : Nat) (t : RbTree ν) : Nat → Option ν → Option (List ν)
  | _, none => some []
  | 0, some _ => none
  | rounds + 1, some e => do some (e :: (← foreachLoop d fuel t rounds (← neighbour d fuel t e)))

def rbtForeach (fuel : Nat) (t : RbTree ν) : Option (List ν) := do
  foreachLoop .right fuel t fuel (← rbMin fuel t)

def rbtForeachReverse (fuel : Nat) (t : RbTree ν) : Option (List ν) := do
  foreachLoop .left fuel t fuel (← rbMax fuel t)

end Mbsd.Kern.SubrTree
