import Mathlib.Data.BitVec
import Mbsd.Lib.Feistel

/-! 32-bit identifiers: `idgen32` and its permutation. -/

namespace Mbsd.Crypto.Idgen

open Lib.Feistel

def idgen32Rounds : Nat := 31

def idgen32Keylen : Nat := 32

def idgen32RekeyLimit : BitVec 32 := 0x60000000

def idgen32RekeyTime : Int := 600

def idgen32Ftable : List (BitVec 8) :=
  [ 0xa3, 0xd7, 0x09, 0x83, 0xf8, 0x48, 0xf6, 0xf4, 0xb3, 0x21, 0x15, 0x78, 0x99, 0xb1, 0xaf, 0xf9,
    0xe7, 0x2d, 0x4d, 0x8a, 0xce, 0x4c, 0xca, 0x2e, 0x52, 0x95, 0xd9, 0x1e, 0x4e, 0x38, 0x44, 0x28,
    0x0a, 0xdf, 0x02, 0xa0, 0x17, 0xf1, 0x60, 0x68, 0x12, 0xb7, 0x7a, 0xc3, 0xe9, 0xfa, 0x3d, 0x53,
    0x96, 0x84, 0x6b, 0xba, 0xf2, 0x63, 0x9a, 0x19, 0x7c, 0xae, 0xe5, 0xf5, 0xf7, 0x16, 0x6a, 0xa2,
    0x39, 0xb6, 0x7b, 0x0f, 0xc1, 0x93, 0x81, 0x1b, 0xee, 0xb4, 0x1a, 0xea, 0xd0, 0x91, 0x2f, 0xb8,
    0x55, 0xb9, 0xda, 0x85, 0x3f, 0x41, 0xbf, 0xe0, 0x5a, 0x58, 0x80, 0x5f, 0x66, 0x0b, 0xd8, 0x90,
    0x35, 0xd5, 0xc0, 0xa7, 0x33, 0x06, 0x65, 0x69, 0x45, 0x00, 0x94, 0x56, 0x6d, 0x98, 0x9b, 0x76,
    0x97, 0xfc, 0xb2, 0xc2, 0xb0, 0xfe, 0xdb, 0x20, 0xe1, 0xeb, 0xd6, 0xe4, 0xdd, 0x47, 0x4a, 0x1d,
    0x42, 0xed, 0x9e, 0x6e, 0x49, 0x3c, 0xcd, 0x43, 0x27, 0xd2, 0x07, 0xd4, 0xde, 0xc7, 0x67, 0x18,
    0x89, 0xcb, 0x30, 0x1f, 0x8d, 0xc6, 0x8f, 0xaa, 0xc8, 0x74, 0xdc, 0xc9, 0x5d, 0x5c, 0x31, 0xa4,
    0x70, 0x88, 0x61, 0x2c, 0x9f, 0x0d, 0x2b, 0x87, 0x50, 0x82, 0x54, 0x64, 0x26, 0x7d, 0x03, 0x40,
    0x34, 0x4b, 0x1c, 0x73, 0xd1, 0xc4, 0xfd, 0x3b, 0xcc, 0xfb, 0x7f, 0xab, 0xe6, 0x3e, 0x5b, 0xa5,
    0xad, 0x04, 0x23, 0x9c, 0x14, 0x51, 0x22, 0xf0, 0x29, 0x79, 0x71, 0x7e, 0xff, 0x8c, 0x0e, 0xe2,
    0x0c, 0xef, 0xbc, 0x72, 0x75, 0x6f, 0x37, 0xa1, 0xec, 0xd3, 0x8e, 0x62, 0x8b, 0x86, 0x10, 0xe8,
    0x08, 0x77, 0x11, 0xbe, 0x92, 0x4f, 0x24, 0xc5, 0x32, 0x36, 0x9d, 0xcf, 0xf3, 0xa6, 0xbb, 0xac,
    0x5e, 0x6c, 0xa9, 0x13, 0x57, 0x25, 0xb5, 0xe3, 0xbd, 0xa8, 0x3a, 0x01, 0x05, 0x59, 0x2a, 0x46
  ]

abbrev Key := Fin 32 → BitVec 8

structure Idgen32Ctx where
  id32Counter : BitVec 32
  id32Offset : BitVec 32
  id32Hibit : BitVec 32
  id32Key : Key
  id32RekeyTime : Int

def idgen32G (key : Key) (k : Nat) (w : BitVec 16) : BitVec 16 :=
  let ftable (g : BitVec 8) (o : Nat) :=
    idgen32Ftable.getD (g ^^^ key (Fin.ofNat 32 (o &&& (idgen32Keylen - 1)))).toNat 0
  let o := k * 4
  let g1 := ((w >>> 8) &&& 0xff).setWidth 8
  let g2 := (w &&& 0xff).setWidth 8
  let g3 := ftable g2 o ^^^ g1
  let g4 := ftable g3 (o + 1) ^^^ g2
  let g5 := ftable g4 (o + 2) ^^^ g3
  let g6 := ftable g5 (o + 3) ^^^ g4
  (g5.setWidth 16 <<< 8) ||| g6.setWidth 16

def permuteLoop (key : Key) : Nat → Nat → BitVec 16 × BitVec 16 → Nat × BitVec 16 × BitVec 16
  | 0, r, s => (r, s)
  | n + 1, r, (wl, wr) =>
    let wr := wr ^^^ (idgen32G key r wl ^^^ BitVec.ofNat 16 r)
    let wl := wl ^^^ ((idgen32G key (r + 1) wr ^^^ BitVec.ofNat 16 (r + 1)) &&& 0x7fff)
    permuteLoop key n (r + 2) (wl, wr)

def idgen32Permute (key : Key) (x : BitVec 32) : BitVec 32 :=
  let wl := ((x >>> 16) &&& 0x7fff).setWidth 16
  let wr := (x &&& 0xffff).setWidth 16
  let (r, wl, wr) := permuteLoop key (idgen32Rounds / 2) 0 (wl, wr)
  let wr := wr ^^^ (idgen32G key r wl ^^^ BitVec.ofNat 16 r)
  (wl.setWidth 32 <<< 16) ||| wr.setWidth 32

structure RekeyEnv where
  arc4random : BitVec 32
  arc4randomBuf : Key
  getuptime : Int

def idgen32Rekey (env : RekeyEnv) (ctx : Idgen32Ctx) : Idgen32Ctx where
  id32Counter := 0
  id32Hibit := ctx.id32Hibit ^^^ 0x80000000
  id32Offset := env.arc4random
  id32Key := env.arc4randomBuf
  id32RekeyTime := env.getuptime + idgen32RekeyTime

def idgen32Init (arc4random : BitVec 32) (env : RekeyEnv) : Idgen32Ctx :=
  idgen32Rekey env {
    id32Counter := 0
    id32Offset := 0
    id32Hibit := arc4random &&& 0x80000000
    id32Key := fun _ => 0
    id32RekeyTime := 0 }

structure TurnEnv where
  getuptime : Int
  rekey : RekeyEnv

def Idgen32Ctx.due (ctx : Idgen32Ctx) (env : TurnEnv) : Bool :=
  ctx.id32Counter > idgen32RekeyLimit || ctx.id32RekeyTime < env.getuptime

def idgen32Turn (env : TurnEnv) (ctx : Idgen32Ctx) : BitVec 32 × Idgen32Ctx :=
  let ctx := if ctx.due env then idgen32Rekey env.rekey ctx else ctx
  (ctx.id32Hibit ||| idgen32Permute ctx.id32Key
    ((ctx.id32Offset + ctx.id32Counter) &&& 0x7fffffff),
    { ctx with id32Counter := ctx.id32Counter + 1 })

/-- The loop, and how many of its turns rekey.  `none` is a loop that goes on. -/
def idgen32 : List TurnEnv → Idgen32Ctx → Option (BitVec 32 × Nat × Idgen32Ctx)
  | [], _ => none
  | env :: l, ctx =>
    let rekeys := (ctx.due env).toNat
    let (ret, ctx) := idgen32Turn env ctx
    if ret = 0 then (idgen32 l ctx).map fun (ret, n, ctx) => (ret, rekeys + n, ctx)
    else some (ret, rekeys, ctx)

/-- Identifiers that calls return, the last one first, each with the number of rekeyings before it;
the number of all rekeyings, and the context. -/
inductive IdgenRun : List (BitVec 32 × Nat) → Nat → Idgen32Ctx → Prop
  | init (arc4random : BitVec 32) (env : RekeyEnv) : IdgenRun [] 0 (idgen32Init arc4random env)
  | call {ids : List (BitVec 32 × Nat)} {e n : Nat} {ctx ctx' : Idgen32Ctx} {l : List TurnEnv}
      {ret : BitVec 32} :
      IdgenRun ids e ctx → idgen32 l ctx = some (ret, n, ctx') →
      IdgenRun ((ret, e + n) :: ids) (e + n) ctx'

section Permute

variable {key : Key} {x y : BitVec 32}

def Halves : Set (BitVec 16 × BitVec 16) := {s | s.1.toNat < 2 ^ 15}

theorem undoes_xor {w : Nat} : Undoes fun y k : BitVec w => y ^^^ k := fun y k => by
  dsimp only
  rw [BitVec.xor_assoc, BitVec.xor_self, BitVec.xor_zero]

def roundR (key : Key) (r : Nat) (wl : BitVec 16) : BitVec 16 :=
  idgen32G key r wl ^^^ BitVec.ofNat 16 r

def roundL (key : Key) (r : Nat) (wr : BitVec 16) : BitVec 16 :=
  (idgen32G key r wr ^^^ BitVec.ofNat 16 r) &&& 0x7fff

theorem permuteLoop_eq (n r : Nat) (s : BitVec 16 × BitVec 16) : permuteLoop key n r s =
      (r + 2 * n, doubleRounds (· ^^^ ·) (· ^^^ ·) (roundR key) (roundL key) n r s) := by
  induction n generalizing r s with
  | zero => rfl
  | succ n ih =>
    rw [permuteLoop, ih, doubleRounds]
    exact Prod.ext (by dsimp only; omega) rfl

theorem mixRight_halves (f : BitVec 16 → BitVec 16) :
    Set.MapsTo (mixRight (· ^^^ ·) f) Halves Halves := fun _ hs => hs

theorem mixLeft_halves (key : Key) (r : Nat) :
    Set.MapsTo (mixLeft (· ^^^ ·) (roundL key r)) Halves Halves := by
  intro s hs
  have hmask : (roundL key r s.2).toNat < 2 ^ 15 := by
    rw [roundL, BitVec.toNat_and]
    exact Nat.lt_succ_of_le Nat.and_le_right
  have hxor : (s.1 ^^^ roundL key r s.2).toNat < 2 ^ 15 := by
    rw [BitVec.toNat_xor]
    exact Nat.xor_lt_two_pow hs hmask
  exact hxor

theorem permuteLoop_bijOn (key : Key) (n r : Nat) :
    Set.BijOn (fun s => (permuteLoop key n r s).2) Halves Halves := by
  have h := doubleRounds_bijOn (S := Halves) undoes_xor undoes_xor
    (fun r => mixRight_halves (roundR key r)) (fun r => mixLeft_halves key r) n r
  refine h.congr fun s _ => ?_
  rw [permuteLoop_eq]

def unpack (x : BitVec 32) : BitVec 16 × BitVec 16 :=
  (((x >>> 16) &&& 0x7fff).setWidth 16, (x &&& 0xffff).setWidth 16)

def pack (s : BitVec 16 × BitVec 16) : BitVec 32 := (s.1.setWidth 32 <<< 16) ||| s.2.setWidth 32

theorem toNat_unpack (x : BitVec 32) :
    (unpack x).1.toNat = x.toNat / 65536 % 32768 ∧ (unpack x).2.toNat = x.toNat % 65536 := by
  have hhigh := Nat.and_two_pow_sub_one_eq_mod (x.toNat >>> 16) 15
  have hlow := Nat.and_two_pow_sub_one_eq_mod x.toNat 16
  rw [Nat.shiftRight_eq_div_pow] at hhigh
  constructor
  · rw [unpack, BitVec.toNat_setWidth, BitVec.toNat_and, BitVec.toNat_ushiftRight,
      Nat.shiftRight_eq_div_pow]
    refine (congrArg (· % 2 ^ 16) hhigh).trans ?_
    omega
  · rw [unpack, BitVec.toNat_setWidth, BitVec.toNat_and]
    refine (congrArg (· % 2 ^ 16) hlow).trans ?_
    omega

theorem toNat_pack {s : BitVec 16 × BitVec 16} (hs : s ∈ Halves) :
    (pack s).toNat = s.1.toNat * 65536 + s.2.toNat := by
  have hright := s.2.isLt
  have hor := Nat.shiftLeft_add_eq_or_of_lt hright s.1.toNat
  rw [Nat.shiftLeft_eq] at hor
  rw [pack, BitVec.toNat_or, BitVec.toNat_shiftLeft, BitVec.toNat_setWidth, BitVec.toNat_setWidth,
    Nat.mod_eq_of_lt (by omega : s.1.toNat < 2 ^ 32),
    Nat.mod_eq_of_lt (by omega : s.2.toNat < 2 ^ 32), Nat.shiftLeft_eq,
    Nat.mod_eq_of_lt (by omega : s.1.toNat * 2 ^ 16 < 2 ^ 32), ← hor]

theorem pack_unpack (hx : x.toNat < 2 ^ 31) : unpack x ∈ Halves ∧ pack (unpack x) = x := by
  obtain ⟨hhigh, hlow⟩ := toNat_unpack x
  have hmem : unpack x ∈ Halves := by
    have hlt : (unpack x).1.toNat < 2 ^ 15 := by omega
    exact hlt
  refine ⟨hmem, BitVec.eq_of_toNat_eq ?_⟩
  rw [toNat_pack hmem]
  omega

theorem unpack_pack {s : BitVec 16 × BitVec 16} (hs : s ∈ Halves) :
    (pack s).toNat < 2 ^ 31 ∧ unpack (pack s) = s := by
  have hleft : s.1.toNat < 2 ^ 15 := hs
  have hpack := toNat_pack hs
  obtain ⟨hhigh, hlow⟩ := toNat_unpack (pack s)
  refine ⟨by omega, Prod.ext (BitVec.eq_of_toNat_eq ?_) (BitVec.eq_of_toNat_eq ?_)⟩
  · omega
  · omega

theorem unpack_bijOn : Set.BijOn unpack {x | x.toNat < 2 ^ 31} Halves :=
  ⟨fun _ hx => (pack_unpack hx).1,
    fun _ hx _ hy h => (pack_unpack hx).2.symm.trans ((congrArg pack h).trans (pack_unpack hy).2),
    fun s hs => ⟨pack s, unpack_pack hs⟩⟩

theorem pack_bijOn : Set.BijOn pack Halves {x | x.toNat < 2 ^ 31} :=
  ⟨fun _ hs => (unpack_pack hs).1,
    fun _ hs _ ht h => (unpack_pack hs).2.symm.trans ((congrArg unpack h).trans (unpack_pack ht).2),
    fun x hx => ⟨unpack x, pack_unpack hx⟩⟩

theorem idgen32Permute_bijOn (key : Key) :
    Set.BijOn (idgen32Permute key) {x | x.toNat < 2 ^ 31} {x | x.toNat < 2 ^ 31} := by
  have hloop := permuteLoop_bijOn key (idgen32Rounds / 2) 0
  have hlast := bijOn_of_involutive (undoes_xor.mixRight (roundR key 30))
    (mixRight_halves (roundR key 30))
  refine (pack_bijOn.comp (hlast.comp (hloop.comp unpack_bijOn))).congr fun x _ => ?_
  rw [idgen32Permute]
  simp only [Function.comp_apply, permuteLoop_eq]
  rfl

end Permute

section Turns

variable {ctx ctx' : Idgen32Ctx} {env : TurnEnv} {e c n : Nat} {ids : List (BitVec 32 × Nat)}
  {id : BitVec 32 × Nat} {hibit p ret : BitVec 32}

def IsHibit (hibit : BitVec 32) : Prop := hibit = 0 ∨ hibit = 0x80000000

theorem IsHibit.flip (h : IsHibit hibit) : IsHibit (hibit ^^^ 0x80000000) := by
  rcases h with rfl | rfl
  · exact Or.inr rfl
  · exact Or.inl rfl

theorem IsHibit.flip_ne (h : IsHibit hibit) : (hibit ^^^ 0x80000000) &&& 0x80000000 ≠
    hibit &&& 0x80000000 := by
  rcases h with rfl | rfl <;> decide

theorem toNat_mask (x : BitVec 32) : (x &&& 0x7fffffff).toNat = x.toNat % 2 ^ 31 := by
  rw [BitVec.toNat_and]
  exact Nat.and_two_pow_sub_one_eq_mod x.toNat 31

theorem toNat_mask_lt (x : BitVec 32) : (x &&& 0x7fffffff).toNat < 2 ^ 31 :=
  toNat_mask x ▸ Nat.mod_lt _ (by decide)

theorem IsHibit.or_inj (h : IsHibit hibit) {hibit' p' : BitVec 32} (h' : IsHibit hibit')
    (hp : p.toNat < 2 ^ 31) (hp' : p'.toNat < 2 ^ 31) (heq : hibit ||| p = hibit' ||| p') :
    hibit = hibit' ∧ p = p' := by
  have htop : ∀ {b q : BitVec 32}, IsHibit b → q.toNat < 2 ^ 31 →
      (b ||| q).toNat = b.toNat + q.toNat := by
    intro b q hb hq
    rcases hb with rfl | rfl
    · exact (congrArg BitVec.toNat BitVec.zero_or).trans (Nat.zero_add _).symm
    · have hor := Nat.shiftLeft_add_eq_or_of_lt hq 1
      rw [BitVec.toNat_or]
      exact hor.symm
  have hsum := congrArg BitVec.toNat heq
  rw [htop h hp, htop h' hp'] at hsum
  have hlow : (0 : BitVec 32).toNat = 0 := rfl
  have hhigh : (0x80000000 : BitVec 32).toNat = 2 ^ 31 := rfl
  have hbit : hibit = hibit' := by
    rcases h with rfl | rfl <;> rcases h' with rfl | rfl
    · rfl
    · omega
    · omega
    · rfl
  subst hbit
  exact ⟨rfl, BitVec.eq_of_toNat_eq (by omega)⟩

def Idgen32Ctx.ident (ctx : Idgen32Ctx) (c : Nat) : BitVec 32 :=
  ctx.id32Hibit |||
    idgen32Permute ctx.id32Key ((ctx.id32Offset + BitVec.ofNat 32 c) &&& 0x7fffffff)

theorem toNat_permute_lt (key : Key) (x : BitVec 32) :
    (idgen32Permute key (x &&& 0x7fffffff)).toNat < 2 ^ 31 :=
  (idgen32Permute_bijOn key).mapsTo (toNat_mask_lt x)

theorem ident_inj (h : IsHibit ctx.id32Hibit) {c' : Nat} (hc : c < 2 ^ 31) (hc' : c' < 2 ^ 31)
    (heq : ctx.ident c = ctx.ident c') : c = c' := by
  have hperm := (h.or_inj h (toNat_permute_lt _ _) (toNat_permute_lt _ _) heq).2
  have hslot :=
    (idgen32Permute_bijOn ctx.id32Key).injOn (toNat_mask_lt _) (toNat_mask_lt _) hperm
  have hnat := congrArg BitVec.toNat hslot
  rw [toNat_mask, toNat_mask, BitVec.toNat_add, BitVec.toNat_add, BitVec.toNat_ofNat,
    BitVec.toNat_ofNat] at hnat
  omega

/-- An identifier was given out under the present key, under the one before it, or earlier. -/
def Old (ctx : Idgen32Ctx) (e : Nat) (id : BitVec 32 × Nat) : Prop :=
  (id.2 = e ∧ ∃ c < ctx.id32Counter.toNat, id.1 = ctx.ident c) ∨
    (id.2 + 1 = e ∧ ∃ p : BitVec 32, p.toNat < 2 ^ 31 ∧
      id.1 = (ctx.id32Hibit ^^^ 0x80000000) ||| p) ∨
    id.2 + 2 ≤ e

structure Issued (ids : List (BitVec 32 × Nat)) (e : Nat) (ctx : Idgen32Ctx) : Prop where
  hibit : IsHibit ctx.id32Hibit
  counter : ctx.id32Counter.toNat ≤ 0x60000001
  old : ∀ id ∈ ids, Old ctx e id

theorem Issued.rekey (h : Issued ids e ctx) (env : RekeyEnv) :
    Issued ids (e + 1) (idgen32Rekey env ctx) := by
  refine ⟨h.hibit.flip, Nat.zero_le _, fun id hid => ?_⟩
  have hback : ctx.id32Hibit ^^^ 0x80000000 ^^^ 0x80000000 = ctx.id32Hibit := undoes_xor _ _
  rcases h.old id hid with ⟨he, c, -, hc⟩ | ⟨he, -⟩ | he
  · refine Or.inr (Or.inl ⟨by omega, _,
      toNat_permute_lt ctx.id32Key (ctx.id32Offset + BitVec.ofNat 32 c), ?_⟩)
    rw [idgen32Rekey, hback]
    exact hc
  · exact Or.inr (Or.inr (by omega))
  · exact Or.inr (Or.inr (by omega))

theorem Issued.issue (h : Issued ids e ctx) (hlimit : ctx.id32Counter.toNat ≤ 0x60000000) :
    Issued ((ctx.ident ctx.id32Counter.toNat, e) :: ids) e
        { ctx with id32Counter := ctx.id32Counter + 1 } ∧
      ∀ id ∈ ids, id.1 = ctx.ident ctx.id32Counter.toNat → id.2 + 2 ≤ e := by
  have hnext : (ctx.id32Counter + 1).toNat = ctx.id32Counter.toNat + 1 := by
    rw [BitVec.toNat_add]
    have hone : (1 : BitVec 32).toNat = 1 := rfl
    omega
  refine ⟨⟨h.hibit, by rw [hnext]; omega, fun id hid => ?_⟩, fun id hid heq => ?_⟩
  · rcases List.mem_cons.mp hid with rfl | hid
    · exact Or.inl ⟨rfl, _, by rw [hnext]; exact Nat.lt_succ_self _, rfl⟩
    · refine (h.old id hid).imp_left fun ⟨he, c, hc, hid⟩ => ⟨he, c, ?_, hid⟩
      rw [hnext]
      omega
  · rcases h.old id hid with ⟨-, c, hc, hident⟩ | ⟨-, p, hp, hident⟩ | he
    · have := ident_inj h.hibit (by omega) (by omega) (hident.symm.trans heq)
      omega
    · have hbit := (h.hibit.flip.or_inj h.hibit hp (toNat_permute_lt _ _)
        (hident.symm.trans heq)).1
      exact absurd (congrArg (· &&& 0x80000000) hbit) h.hibit.flip_ne
    · exact he

theorem Issued.turn (h : Issued ids e ctx) (env : TurnEnv) :
    Issued (((idgen32Turn env ctx).1, e + (ctx.due env).toNat) :: ids)
        (e + (ctx.due env).toNat) (idgen32Turn env ctx).2 ∧
      ∀ id ∈ ids, id.1 = (idgen32Turn env ctx).1 → id.2 + 2 ≤ e + (ctx.due env).toNat := by
  have hident : ∀ ctx : Idgen32Ctx,
      ctx.id32Hibit ||| idgen32Permute ctx.id32Key
        ((ctx.id32Offset + ctx.id32Counter) &&& 0x7fffffff) = ctx.ident ctx.id32Counter.toNat :=
    fun ctx => by rw [Idgen32Ctx.ident, BitVec.ofNat_toNat, BitVec.setWidth_eq]
  rw [idgen32Turn]
  rw [hident]
  cases hdue : ctx.due env with
  | true => exact (h.rekey env.rekey).issue (Nat.zero_le _)
  | false =>
    have hlimit : ctx.id32Counter.toNat ≤ 0x60000000 := by
      have hle := (Bool.or_eq_false_iff.mp hdue).1
      rwa [decide_eq_false_iff_not, gt_iff_lt, BitVec.not_lt, BitVec.le_def] at hle
    exact h.issue hlimit

structure Gives (ids : List (BitVec 32 × Nat)) (e : Nat) (ret : BitVec 32) (n : Nat)
    (ctx' : Idgen32Ctx) : Prop where
  ne_zero : ret ≠ 0
  fresh : ∀ id ∈ ids, id.1 = ret → id.2 + 2 ≤ e + n
  issued : Issued ((ret, e + n) :: ids) (e + n) ctx'

theorem Issued.idgen32 (h : Issued ids e ctx) (env env' : TurnEnv) :
    ∃ ret n ctx', Gives ids e ret n ctx' ∧
      (∀ l, idgen32 (env :: env' :: l) ctx = some (ret, n, ctx')) ∧
      ∀ out, Idgen.idgen32 [env] ctx = some out → out = (ret, n, ctx') := by
  obtain ⟨hissued, hfresh⟩ := h.turn env
  by_cases hzero : (idgen32Turn env ctx).1 = 0
  · obtain ⟨hissued', hfresh'⟩ := hissued.turn env'
    have hne : (idgen32Turn env' (idgen32Turn env ctx).2).1 ≠ 0 := by
      intro hzero'
      have hle := hfresh' _ List.mem_cons_self (hzero.trans hzero'.symm)
      have hone := Bool.toNat_le ((idgen32Turn env ctx).2.due env')
      dsimp only at hle
      omega
    rw [Nat.add_assoc] at hissued' hfresh'
    refine ⟨_, _, (idgen32Turn env' (idgen32Turn env ctx).2).2,
      ⟨hne, fun id hid => hfresh' id (List.mem_cons_of_mem _ hid), ?_⟩,
      fun l => ?_, fun out hout => ?_⟩
    · exact ⟨hissued'.hibit, hissued'.counter, fun id hid => hissued'.old id (by
        rcases List.mem_cons.mp hid with rfl | hid
        · exact List.mem_cons_self
        · exact List.mem_cons_of_mem _ (List.mem_cons_of_mem _ hid))⟩
    · rw [Idgen.idgen32]
      dsimp only
      rw [if_pos hzero, Idgen.idgen32]
      dsimp only
      rw [if_neg hne]
      rfl
    · rw [Idgen.idgen32] at hout
      dsimp only at hout
      rw [if_pos hzero] at hout
      exact absurd hout nofun
  · refine ⟨_, _, (idgen32Turn env ctx).2, ⟨hzero, hfresh, hissued⟩, fun l => ?_,
      fun out hout => ?_⟩
    · rw [Idgen.idgen32]
      dsimp only
      rw [if_neg hzero]
    · rw [Idgen.idgen32] at hout
      dsimp only at hout
      rw [if_neg hzero] at hout
      exact (Option.some.inj hout).symm

theorem Issued.gives (h : Issued ids e ctx) {l : List TurnEnv}
    (hcall : Idgen.idgen32 l ctx = some (ret, n, ctx')) : Gives ids e ret n ctx' := by
  cases l with
  | nil => exact absurd hcall nofun
  | cons env l =>
    cases l with
    | nil =>
      obtain ⟨ret', n', ctx₁, hgives, -, hone⟩ := h.idgen32 env env
      obtain ⟨rfl, rfl, rfl⟩ : ret = ret' ∧ n = n' ∧ ctx' = ctx₁ := by
        simpa using hone _ hcall
      exact hgives
    | cons env' l =>
      obtain ⟨ret', n', ctx₁, hgives, htwo, -⟩ := h.idgen32 env env'
      obtain ⟨rfl, rfl, rfl⟩ : ret' = ret ∧ n' = n ∧ ctx₁ = ctx' := by
        simpa using (htwo l).symm.trans hcall
      exact hgives

theorem isHibit_and (x : BitVec 32) : IsHibit (x &&& 0x80000000) := by
  have hand := BitVec.and_twoPow x 31
  cases hbit : x.getLsbD 31 with
  | false => exact Or.inl (hand.trans (by rw [hbit]; rfl))
  | true => exact Or.inr (hand.trans (by rw [hbit]; rfl))

theorem IdgenRun.issued (h : IdgenRun ids e ctx) : Issued ids e ctx := by
  induction h with
  | init arc4random env => exact ⟨(isHibit_and arc4random).flip, Nat.zero_le _, nofun⟩
  | call _ hcall ih => exact (ih.gives hcall).issued

theorem IdgenRun.fresh (h : IdgenRun ids e ctx) :
    (∀ id ∈ ids, id.1 ≠ 0) ∧ ids.Pairwise fun id id' => id.1 = id'.1 → id'.2 + 2 ≤ id.2 := by
  induction h with
  | init => exact ⟨nofun, List.Pairwise.nil⟩
  | call hrun hcall ih =>
    have hgives := hrun.issued.gives hcall
    exact ⟨List.forall_mem_cons.mpr ⟨hgives.ne_zero, ih.1⟩,
      List.pairwise_cons.mpr ⟨fun id hid heq => hgives.fresh id hid heq.symm, ih.2⟩⟩

end Turns

/-- The permutation is one below `2 ^ 31`.  In every run no identifier is zero, two that are the
same have two rekeyings between them, and a call has at most two turns. -/
theorem idgen32_not_repeated : (∀ key : Key,
      Set.BijOn (idgen32Permute key) {x | x.toNat < 2 ^ 31} {x | x.toNat < 2 ^ 31}) ∧
    ∀ {ids : List (BitVec 32 × Nat)} {e : Nat} {ctx : Idgen32Ctx}, IdgenRun ids e ctx →
      (∀ id ∈ ids, id.1 ≠ 0) ∧ (ids.Pairwise fun id id' => id.1 = id'.1 → id'.2 + 2 ≤ id.2) ∧
      ∀ env env' : TurnEnv, ∃ out, idgen32 [env, env'] ctx = some out := by
  refine ⟨idgen32Permute_bijOn, fun hrun => ⟨hrun.fresh.1, hrun.fresh.2, fun env env' => ?_⟩⟩
  obtain ⟨ret, n, ctx', -, htwo, -⟩ := hrun.issued.idgen32 env env'
  exact ⟨_, htwo []⟩

/-- Two calls, the second one long after the key has expired. -/
theorem idgen32_two_calls :
    ∃ ret n ret' n' ctx, IdgenRun [(ret', 0 + n + n'), (ret, 0 + n)] (0 + n + n') ctx ∧
      ret ≠ 0 ∧ ret' ≠ 0 ∧ (ret' = ret → 0 + n + 2 ≤ 0 + n + n') := by
  let rekey : RekeyEnv := ⟨7, fun _ => 3, 0⟩
  let env : TurnEnv := ⟨1, rekey⟩
  let env' : TurnEnv := ⟨1000, rekey⟩
  have hinit : IdgenRun [] 0 (idgen32Init 5 rekey) := .init 5 rekey
  obtain ⟨⟨ret, n, ctx⟩, hcall⟩ := (idgen32_not_repeated.2 hinit).2.2 env env
  have hrun := hinit.call hcall
  obtain ⟨⟨ret', n', ctx'⟩, hcall'⟩ := (idgen32_not_repeated.2 hrun).2.2 env' env'
  have hrun' := hrun.call hcall'
  obtain ⟨hzero, hpair, -⟩ := idgen32_not_repeated.2 hrun'
  refine ⟨ret, n, ret', n', ctx', hrun', hzero (ret, 0 + n) (by simp),
    hzero (ret', 0 + n + n') (by simp), fun heq => ?_⟩
  exact (List.pairwise_cons.mp hpair).1 (ret, 0 + n) (by simp) heq

end Mbsd.Crypto.Idgen
