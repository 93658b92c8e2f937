import Mathlib.Data.BitVec

/-! The packet filter machine of `net/bpf_filter.c`: instruction format, interpreter
and validator.  The interpreter makes every access the source leaves unchecked explicit,
so that an instruction fetch, a scratch access or a division outside its bounds is a fault. -/

namespace Mbsd.Net.Bpf

structure BpfInsn where
  code : BitVec 16
  jt : BitVec 8
  jf : BitVec 8
  k : BitVec 32
  deriving DecidableEq, Repr

def bpfMaxInsns : Int := 512
def bpfMemWords : Nat := 16

namespace Code

def class_ (code : BitVec 16) : BitVec 16 := code &&& 0x07
def ld : BitVec 16 := 0x00
def ldx : BitVec 16 := 0x01
def st : BitVec 16 := 0x02
def stx : BitVec 16 := 0x03
def alu : BitVec 16 := 0x04
def jmp : BitVec 16 := 0x05
def ret : BitVec 16 := 0x06
def misc : BitVec 16 := 0x07

def w : BitVec 16 := 0x00
def h : BitVec 16 := 0x08
def b : BitVec 16 := 0x10

def mode (code : BitVec 16) : BitVec 16 := code &&& 0xe0
def imm : BitVec 16 := 0x00
def abs : BitVec 16 := 0x20
def ind : BitVec 16 := 0x40
def mem : BitVec 16 := 0x60
def len : BitVec 16 := 0x80
def msh : BitVec 16 := 0xa0
def rnd : BitVec 16 := 0xc0

def op (code : BitVec 16) : BitVec 16 := code &&& 0xf0
def add : BitVec 16 := 0x00
def sub : BitVec 16 := 0x10
def mul : BitVec 16 := 0x20
def div : BitVec 16 := 0x30
def or : BitVec 16 := 0x40
def and : BitVec 16 := 0x50
def lsh : BitVec 16 := 0x60
def rsh : BitVec 16 := 0x70
def neg : BitVec 16 := 0x80
def mod : BitVec 16 := 0x90
def xor : BitVec 16 := 0xa0

def ja : BitVec 16 := 0x00
def jeq : BitVec 16 := 0x10
def jgt : BitVec 16 := 0x20
def jge : BitVec 16 := 0x30
def jset : BitVec 16 := 0x40

def src (code : BitVec 16) : BitVec 16 := code &&& 0x08
def k : BitVec 16 := 0x00
def x : BitVec 16 := 0x08
def a : BitVec 16 := 0x10

def tax : BitVec 16 := 0x00
def txa : BitVec 16 := 0x80

end Code

inductive Size | w | h | b
  deriving DecidableEq, Repr

inductive Src | k | x
  deriving DecidableEq, Repr

inductive Cond | gt | ge | eq | set
  deriving DecidableEq, Repr

inductive AluOp | add | sub | mul | div | mod | and | or | xor | lsh | rsh
  deriving DecidableEq, Repr

inductive Op
  | retK | retA
  | ldAbs (sz : Size) | ldInd (sz : Size)
  | ldLen | ldxLen | ldRnd | ldxMsh
  | ldImm | ldxImm | ldMem | ldxMem | st | stx
  | ja | jmp (c : Cond) (s : Src)
  | alu (o : AluOp) (s : Src) | neg
  | tax | txa
  deriving DecidableEq, Repr

def Size.code : Size → BitVec 16
  | .w => Code.w
  | .h => Code.h
  | .b => Code.b

def Src.code : Src → BitVec 16
  | .k => Code.k
  | .x => Code.x

def Cond.code : Cond → BitVec 16
  | .gt => Code.jgt
  | .ge => Code.jge
  | .eq => Code.jeq
  | .set => Code.jset

def AluOp.code : AluOp → BitVec 16
  | .add => Code.add
  | .sub => Code.sub
  | .mul => Code.mul
  | .div => Code.div
  | .mod => Code.mod
  | .and => Code.and
  | .or => Code.or
  | .xor => Code.xor
  | .lsh => Code.lsh
  | .rsh => Code.rsh

def Op.code : Op → BitVec 16
  | .retK => Code.ret ||| Code.k
  | .retA => Code.ret ||| Code.a
  | .ldAbs sz => Code.ld ||| sz.code ||| Code.abs
  | .ldInd sz => Code.ld ||| sz.code ||| Code.ind
  | .ldLen => Code.ld ||| Code.w ||| Code.len
  | .ldxLen => Code.ldx ||| Code.w ||| Code.len
  | .ldRnd => Code.ld ||| Code.w ||| Code.rnd
  | .ldxMsh => Code.ldx ||| Code.msh ||| Code.b
  | .ldImm => Code.ld ||| Code.imm
  | .ldxImm => Code.ldx ||| Code.imm
  | .ldMem => Code.ld ||| Code.mem
  | .ldxMem => Code.ldx ||| Code.mem
  | .st => Code.st
  | .stx => Code.stx
  | .ja => Code.jmp ||| Code.ja
  | .jmp c s => Code.jmp ||| c.code ||| s.code
  | .alu o s => Code.alu ||| o.code ||| s.code
  | .neg => Code.alu ||| Code.neg
  | .tax => Code.misc ||| Code.tax
  | .txa => Code.misc ||| Code.txa

def Op.labels : List Op :=
  [.retK, .retA] ++ [Size.w, .h, .b].map .ldAbs ++
  [.ldLen, .ldxLen, .ldRnd] ++ [Size.w, .h, .b].map .ldInd ++
  [.ldxMsh, .ldImm, .ldxImm, .ldMem, .ldxMem, .st, .stx, .ja] ++
  [Src.k, .x].flatMap (fun s => [Cond.gt, .ge, .eq, .set].map (fun c => .jmp c s)) ++
  [Src.x, .k].flatMap (fun s =>
    [AluOp.add, .sub, .mul, .div, .mod, .and, .or, .xor, .lsh, .rsh].map (fun o => .alu o s)) ++
  [.neg, .tax, .txa]

def Op.ofCode (code : BitVec 16) : Option Op := Op.labels.find? (fun o => o.code = code)

/-- What a run of the machine reads from outside the program: the packet through
`struct bpf_ops` (`none` is `err != 0`), `arc4random`, and the result of a shift by
32 or more, which the language leaves undefined. -/
structure BpfEnv where
  ldw : BitVec 32 → Option (BitVec 32)
  ldh : BitVec 32 → Option (BitVec 32)
  ldb : BitVec 32 → Option (BitVec 32)
  arc4random : Nat → BitVec 32
  lshOver : BitVec 32 → BitVec 32 → BitVec 32
  rshOver : BitVec 32 → BitVec 32 → BitVec 32

structure BpfState where
  pc : Nat
  A : BitVec 32
  X : BitVec 32
  mem : Fin bpfMemWords → BitVec 32
  draws : Nat

inductive BpfFault | fetch | scratch | division
  deriving DecidableEq, Repr

inductive BpfOut
  | ret (v : BitVec 32)
  | next (s : BpfState)

def BpfEnv.load (env : BpfEnv) : Size → BitVec 32 → Option (BitVec 32)
  | .w => env.ldw
  | .h => env.ldh
  | .b => env.ldb

def Cond.test : Cond → BitVec 32 → BitVec 32 → Bool
  | .gt, a, v => v < a
  | .ge, a, v => v ≤ a
  | .eq, a, v => a == v
  | .set, a, v => a &&& v != 0

def lshift (env : BpfEnv) (a v : BitVec 32) : BitVec 32 :=
  if v.toNat < 32 then a <<< v.toNat else env.lshOver a v

def rshift (env : BpfEnv) (a v : BitVec 32) : BitVec 32 :=
  if v.toNat < 32 then a >>> v.toNat else env.rshOver a v

/-- The quotient and the remainder fault on a zero divisor; everything else is total. -/
def AluOp.eval (env : BpfEnv) : AluOp → BitVec 32 → BitVec 32 → Except BpfFault (BitVec 32)
  | .add, a, v => .ok (a + v)
  | .sub, a, v => .ok (a - v)
  | .mul, a, v => .ok (a * v)
  | .div, a, v => if v = 0 then .error .division else .ok (a / v)
  | .mod, a, v => if v = 0 then .error .division else .ok (a % v)
  | .and, a, v => .ok (a &&& v)
  | .or, a, v => .ok (a ||| v)
  | .xor, a, v => .ok (a ^^^ v)
  | .lsh, a, v => .ok (lshift env a v)
  | .rsh, a, v => .ok (rshift env a v)

def BpfState.scratch (s : BpfState) (k : BitVec 32) : Except BpfFault (BitVec 32) :=
  if h : k.toNat < bpfMemWords then .ok (s.mem ⟨k.toNat, h⟩) else .error .scratch

def BpfState.setScratch (s : BpfState) (k v : BitVec 32) : Except BpfFault BpfState :=
  if h : k.toNat < bpfMemWords then
    .ok { s with mem := Function.update s.mem ⟨k.toNat, h⟩ v }
  else .error .scratch

def BpfState.setA (s : BpfState) (v : BitVec 32) : BpfState := { s with A := v }
def BpfState.setX (s : BpfState) (v : BitVec 32) : BpfState := { s with X := v }

def BpfState.advance (s : BpfState) (n : Nat) : BpfOut := .next { s with pc := s.pc + n + 1 }

def Src.operand (s : BpfState) (p : BpfInsn) : Src → BitVec 32
  | .k => p.k
  | .x => s.X

def loadA (s : BpfState) : Option (BitVec 32) → BpfOut
  | some v => (s.setA v).advance 0
  | none => .ret 0

def Op.exec (env : BpfEnv) (wirelen : BitVec 32) (p : BpfInsn) (s : BpfState) :
    Op → Except BpfFault BpfOut
  | .retK => .ok (.ret p.k)
  | .retA => .ok (.ret s.A)
  | .ldAbs sz => .ok (loadA s (env.load sz p.k))
  | .ldInd sz => .ok (loadA s (env.load sz (s.X + p.k)))
  | .ldLen => .ok ((s.setA wirelen).advance 0)
  | .ldxLen => .ok ((s.setX wirelen).advance 0)
  | .ldRnd =>
    .ok (({ s with draws := s.draws + 1 }.setA (env.arc4random s.draws)).advance 0)
  | .ldxMsh =>
    match env.ldb p.k with
    | some v => .ok ((s.setX ((v &&& 0xf) <<< 2)).advance 0)
    | none => .ok (.ret 0)
  | .ldImm => .ok ((s.setA p.k).advance 0)
  | .ldxImm => .ok ((s.setX p.k).advance 0)
  | .ldMem => return (s.setA (← s.scratch p.k)).advance 0
  | .ldxMem => return (s.setX (← s.scratch p.k)).advance 0
  | .st => return (← s.setScratch p.k s.A).advance 0
  | .stx => return (← s.setScratch p.k s.X).advance 0
  | .ja => .ok (s.advance p.k.toNat)
  | .jmp c src =>
    .ok (s.advance (if c.test s.A (src.operand s p) then p.jt.toNat else p.jf.toNat))
  | .alu o src =>
    if src = .x ∧ (o = .div ∨ o = .mod) ∧ s.X = 0 then .ok (.ret 0)
    else return (s.setA (← o.eval env s.A (src.operand s p))).advance 0
  | .neg => .ok ((s.setA (-s.A)).advance 0)
  | .tax => .ok ((s.setX s.A).advance 0)
  | .txa => .ok ((s.setA s.X).advance 0)

/-- One turn of the loop.  `len` is only there to make a fetch outside the program a fault. -/
def bpfStep (env : BpfEnv) (wirelen : BitVec 32) (f : Nat → BpfInsn) (len : Nat)
    (s : BpfState) : Except BpfFault BpfOut :=
  if s.pc < len then
    match Op.ofCode (f s.pc).code with
    | none => .ok (.ret 0)
    | some o => o.exec env wirelen (f s.pc) s
  else .error .fetch

/-- At most `n` turns of the loop; `none` if the filter has not returned by then. -/
def bpfLoop (env : BpfEnv) (wirelen : BitVec 32) (f : Nat → BpfInsn) (len : Nat) :
    Nat → BpfState → Except BpfFault (Option (BitVec 32))
  | 0, _ => .ok none
  | n + 1, s =>
    match bpfStep env wirelen f len s with
    | .error e => .error e
    | .ok (.ret v) => .ok (some v)
    | .ok (.next s) => bpfLoop env wirelen f len n s

def BpfState.init : BpfState := ⟨0, 0, 0, fun _ => 0, 0⟩

def bpfFilterOps (env : BpfEnv) (wirelen : BitVec 32) (f : Option (Nat → BpfInsn))
    (len n : Nat) : Except BpfFault (Option (BitVec 32)) :=
  match f with
  | none => .ok (some (BitVec.allOnes 32))
  | some f => bpfLoop env wirelen f len n BpfState.init

def bpfCheckInsn (maxbufsize len : BitVec 32) (i : Nat) (p : BpfInsn) : Bool :=
  if Code.class_ p.code = Code.ld ∨ Code.class_ p.code = Code.ldx then
    if Code.mode p.code = Code.imm then true
    else if Code.mode p.code = Code.abs ∨ Code.mode p.code = Code.ind ∨
        Code.mode p.code = Code.msh then p.k < maxbufsize
    else if Code.mode p.code = Code.mem then p.k.toNat < bpfMemWords
    else if Code.mode p.code = Code.len ∨ Code.mode p.code = Code.rnd then true
    else false
  else if Code.class_ p.code = Code.st ∨ Code.class_ p.code = Code.stx then
    p.k.toNat < bpfMemWords
  else if Code.class_ p.code = Code.alu then
    if Code.op p.code ∈ [Code.add, Code.sub, Code.mul, Code.or, Code.xor, Code.and,
        Code.lsh, Code.rsh, Code.neg] then true
    else if Code.op p.code = Code.div ∨ Code.op p.code = Code.mod then
      ¬(Code.src p.code = Code.k ∧ p.k = 0)
    else false
  else if Code.class_ p.code = Code.jmp then
    let from_ : BitVec 32 := BitVec.ofNat 32 i + 1
    if Code.op p.code = Code.ja then
      ¬(from_ + p.k < from_ ∨ len ≤ from_ + p.k)
    else if Code.op p.code ∈ [Code.jeq, Code.jgt, Code.jge, Code.jset] then
      ¬(len ≤ from_ + p.jt.setWidth 32 ∨ len ≤ from_ + p.jf.setWidth 32)
    else false
  else if Code.class_ p.code = Code.ret then true
  else if Code.class_ p.code = Code.misc then true
  else false

def bpfValidate (maxbufsize : BitVec 32) (f : Nat → BpfInsn) (len : Int) : Bool :=
  if len < 1 ∨ bpfMaxInsns < len then false
  else if (List.range len.toNat).all
      (fun i => bpfCheckInsn maxbufsize (BitVec.ofInt 32 len) i (f i)) then
    Code.class_ (f (len.toNat - 1)).code = Code.ret
  else false

/-- `struct bpf_mem` under `bpf_mem_ops`: a packet in one buffer of `len` bytes.
`sizeT` is the width of `size_t`, in which `k + sizeof(v)` is computed. -/
structure BpfMem where
  pkt : Nat → BitVec 8
  len : BitVec 32

def BpfMem.fits (sizeT : Nat) (bm : BpfMem) (k : BitVec 32) (size : Nat) : Bool :=
  ¬ (bm.len.toNat < (k.toNat + size) % 2 ^ sizeT)

def BpfMem.ldw (sizeT : Nat) (bm : BpfMem) (k : BitVec 32) : Option (BitVec 32) :=
  if bm.fits sizeT k 4 then
    some (bm.pkt k.toNat ++ bm.pkt (k.toNat + 1) ++ bm.pkt (k.toNat + 2) ++ bm.pkt (k.toNat + 3))
  else none

def BpfMem.ldh (sizeT : Nat) (bm : BpfMem) (k : BitVec 32) : Option (BitVec 32) :=
  if bm.fits sizeT k 2 then
    some ((bm.pkt k.toNat ++ bm.pkt (k.toNat + 1)).setWidth 32)
  else none

def BpfMem.ldb (bm : BpfMem) (k : BitVec 32) : Option (BitVec 32) :=
  if bm.len ≤ k then none else some ((bm.pkt k.toNat).setWidth 32)

def bpfFilter (sizeT : Nat) (arc4random : Nat → BitVec 32)
    (lshOver rshOver : BitVec 32 → BitVec 32 → BitVec 32) (f : Option (Nat → BpfInsn))
    (bm : BpfMem) (wirelen : BitVec 32) (len n : Nat) :
    Except BpfFault (Option (BitVec 32)) :=
  bpfFilterOps ⟨bm.ldw sizeT, bm.ldh sizeT, bm.ldb, arc4random, lshOver, rshOver⟩
    wirelen f len n

end Mbsd.Net.Bpf
