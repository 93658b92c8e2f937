import Mbsd.Net.SlCompress.Model

/-! What the change mask of a compressed packet says, and that the receiver reads the numbers that
the sender wrote. -/

namespace Mbsd.Net.SlCompress

open BitVec

variable {n : BitVec 16} {m x y : Byte}

namespace Hdr

def Urg (h : Hdr) : Prop := h.thFlags &&& thUrg ≠ 0#8

instance (h : Hdr) : Decidable h.Urg := inferInstanceAs (Decidable (_ ≠ _))

end Hdr

def Compresses (p cs : Hdr) : Prop :=
  slSameHeader p cs = true ∧ (p.Urg ∨ p.thUrp = cs.thUrp) ∧
    p.ack - cs.ack ≤ 0xffff#32 ∧ p.seq - cs.seq ≤ 0xffff#32 ∧
    (p.Urg ∨ p.thWin ≠ cs.thWin ∨ p.ack ≠ cs.ack ∨ p.seq ≠ cs.seq ∨
      (p.ipLen ≠ cs.ipLen ∧ cs.ipLen.toNat = p.hlen)) ∧
    ¬(p.Urg ∧ p.thWin ≠ cs.thWin ∧ p.seq ≠ cs.seq)

def Special (p cs : Hdr) : Prop :=
  ¬p.Urg ∧ p.thWin = cs.thWin ∧ p.seq ≠ cs.seq ∧
    (p.ack = cs.ack ∨ p.seq - cs.seq = p.ack - cs.ack) ∧ p.seq - cs.seq = slLastLen p cs

instance (p cs : Hdr) : Decidable (Compresses p cs) :=
  inferInstanceAs (Decidable (_ ∧ _ ∧ _ ∧ _ ∧ _ ∧ _))

instance (p cs : Hdr) : Decidable (Special p cs) :=
  inferInstanceAs (Decidable (_ ∧ _ ∧ _ ∧ _ ∧ _))

section Mask

def bit (c : Bool) (b : Byte) : Byte := if c then b else 0#8

def mask (u w a s i t c : Bool) : Byte :=
  bit u newU ||| bit w newW ||| bit a newA ||| bit s newS ||| bit i newI ||| bit t tcpPushBit |||
    bit c newC

variable (u w a s i t c : Bool)

@[simp] theorem mask_newU : mask u w a s i t c &&& newU = 0#8 ↔ u = false := by
  revert u w a s i t c; decide

@[simp] theorem mask_newW : mask u w a s i t c &&& newW = 0#8 ↔ w = false := by
  revert u w a s i t c; decide

@[simp] theorem mask_newA : mask u w a s i t c &&& newA = 0#8 ↔ a = false := by
  revert u w a s i t c; decide

@[simp] theorem mask_newS : mask u w a s i t c &&& newS = 0#8 ↔ s = false := by
  revert u w a s i t c; decide

@[simp] theorem mask_newI : mask u w a s i t c &&& newI = 0#8 ↔ i = false := by
  revert u w a s i t c; decide

@[simp] theorem mask_push : mask u w a s i t c &&& tcpPushBit = 0#8 ↔ t = false := by
  revert u w a s i t c; decide

@[simp] theorem mask_newC : mask u w a s i t c &&& newC = 0#8 ↔ c = false := by
  revert u w a s i t c; decide

theorem mask_specialI : mask u w a s i t c &&& specialsMask = specialI ↔ u ∧ w ∧ ¬a ∧ s := by
  revert u w a s i t c; decide

theorem mask_specialD : mask u w a s i t c &&& specialsMask = specialD ↔ u ∧ w ∧ a ∧ s := by
  revert u w a s i t c; decide

theorem mask_or_newC : mask u w a s i t false ||| newC = mask u w a s i t true := by
  revert u w a s i t; decide

end Mask

section Sender

variable (p cs : Hdr)

def fieldBytes : List Byte :=
  (if p.Urg then encodez p.thUrp else []) ++
    (if p.thWin ≠ cs.thWin then encode (p.thWin - cs.thWin) else []) ++
    (if p.ack ≠ cs.ack then encode ((p.ack - cs.ack).setWidth 16) else []) ++
    (if p.seq ≠ cs.seq then encode ((p.seq - cs.seq).setWidth 16) else [])

def fieldMask (i t c : Bool) : Byte :=
  mask p.Urg (p.thWin ≠ cs.thWin) (p.ack ≠ cs.ack) (p.seq ≠ cs.seq) i t c

/-- In the special case the mask names fields that have not changed, and there are no numbers. -/
def sentMask (i t c : Bool) : Byte :=
  if Special p cs then mask true true (p.ack = cs.ack) true i t c else fieldMask p cs i t c

def sentBytes : List Byte := if Special p cs then [] else fieldBytes p cs

def idChanged : Bool := p.ipId.setWidth 32 - cs.ipId.setWidth 32 ≠ 1#32

def idBytes : List Byte := if idChanged p cs then encodez (p.ipId - cs.ipId) else []

def pushed : Bool := p.thFlags &&& thPush ≠ 0#8

theorem slUrg_eq : slUrg p cs = if p.Urg ∨ p.thUrp = cs.thUrp then
      some (bit p.Urg newU, if p.Urg then encodez p.thUrp else [])
    else none := by
  by_cases hu : p.Urg
  · simp [slUrg, hu, bit, show p.thFlags &&& thUrg ≠ 0#8 from hu]
  · have hz : p.thFlags &&& thUrg = 0#8 := not_not.mp hu
    by_cases hp : p.thUrp = cs.thUrp <;> simp [slUrg, hu, hz, hp, bit]

theorem sub_eq_zero_bits {k : Nat} (x y : BitVec k) : x - y = 0#k ↔ x = y := sub_eq_zero

theorem slWin_eq : slWin p cs = (bit (p.thWin ≠ cs.thWin) newW,
      if p.thWin ≠ cs.thWin then encode (p.thWin - cs.thWin) else []) := by
  by_cases h : p.thWin = cs.thWin <;> simp [slWin, bit, h, sub_eq_zero_bits]

theorem slDelta_eq (b : Byte) (x y : BitVec 32) : slDelta b (x - y) = if x - y ≤ 0xffff#32 then
      some (bit (x ≠ y) b, if x ≠ y then encode ((x - y).setWidth 16) else [])
    else none := by
  by_cases h : x = y
  · simp [slDelta, h, bit]
  · by_cases hl : x - y ≤ 0xffff#32
    · simp [slDelta, h, bit, sub_eq_zero_bits, hl, BitVec.not_lt.mpr hl]
    · simp [slDelta, h, sub_eq_zero_bits, hl, BitVec.not_le.mp hl]

theorem slFields_eq : slFields p cs =
    if (p.Urg ∨ p.thUrp = cs.thUrp) ∧ p.ack - cs.ack ≤ 0xffff#32 ∧ p.seq - cs.seq ≤ 0xffff#32 then
      some (fieldMask p cs false false false, fieldBytes p cs) else none := by
  unfold slFields
  rw [slUrg_eq, slWin_eq, slDelta_eq, slDelta_eq]
  by_cases hu : p.Urg ∨ p.thUrp = cs.thUrp
  · by_cases ha : p.ack - cs.ack ≤ 0xffff#32
    · by_cases hs : p.seq - cs.seq ≤ 0xffff#32
      · simp [hu, ha, hs, fieldMask, fieldBytes, mask, bit]
      · simp [hs]
    · simp [ha]
  · simp [hu]

theorem slSpecial_eq : slSpecial p cs (fieldMask p cs false false false, fieldBytes p cs) =
    if (p.Urg ∨ p.thWin ≠ cs.thWin ∨ p.ack ≠ cs.ack ∨ p.seq ≠ cs.seq ∨
        (p.ipLen ≠ cs.ipLen ∧ cs.ipLen.toNat = p.hlen)) ∧
      ¬(p.Urg ∧ p.thWin ≠ cs.thWin ∧ p.seq ≠ cs.seq)
    then some (sentMask p cs false false false, sentBytes p cs) else none := by
  unfold slSpecial sentMask sentBytes Special fieldMask
  by_cases hu : p.Urg <;> by_cases hw : p.thWin = cs.thWin <;> by_cases ha : p.ack = cs.ack <;>
    by_cases hs : p.seq = cs.seq <;>
    simp [hu, hw, ha, hs, mask, bit, newU, newW, newA, newS, specialI, specialD]
  -- what is left is `newS` alone, and `newS` with `newA`
  all_goals split_ifs <;> rfl

theorem slPush_slId (u w a s : Bool) (l : List Byte) :
    slPush p (slId p cs (mask u w a s false false false, l)) =
      (mask u w a s (idChanged p cs) (pushed p) false, l ++ idBytes p cs) := by
  unfold slPush slId idBytes
  by_cases hi : p.ipId.setWidth 32 - cs.ipId.setWidth 32 = 1#32 <;>
    by_cases ht : p.thFlags &&& thPush = 0#8 <;>
    simp [hi, ht, idChanged, pushed, mask, bit]

theorem slPush_slId_sent : slPush p (slId p cs (sentMask p cs false false false, sentBytes p cs)) =
      (sentMask p cs (idChanged p cs) (pushed p) false, sentBytes p cs ++ idBytes p cs) := by
  unfold sentMask fieldMask
  split
  · exact slPush_slId p cs _ _ _ _ _
  · exact slPush_slId p cs _ _ _ _ _

theorem slEncode_eq : slEncode p cs = if Compresses p cs then
      some (sentMask p cs (idChanged p cs) (pushed p) false, sentBytes p cs ++ idBytes p cs)
    else none := by
  unfold slEncode
  rw [slFields_eq]
  by_cases hsame : slSameHeader p cs = true
  · by_cases h : (p.Urg ∨ p.thUrp = cs.thUrp) ∧ p.ack - cs.ack ≤ 0xffff#32 ∧
        p.seq - cs.seq ≤ 0xffff#32
    · rw [if_pos hsame, if_pos h]
      dsimp only
      rw [slSpecial_eq]
      obtain ⟨hu, ha, hs⟩ := h
      by_cases hk : (p.Urg ∨ p.thWin ≠ cs.thWin ∨ p.ack ≠ cs.ack ∨ p.seq ≠ cs.seq ∨
          (p.ipLen ≠ cs.ipLen ∧ cs.ipLen.toNat = p.hlen)) ∧
        ¬(p.Urg ∧ p.thWin ≠ cs.thWin ∧ p.seq ≠ cs.seq)
      · rw [if_pos hk, if_pos ⟨hsame, hu, ha, hs, hk⟩, Option.map_some, slPush_slId_sent]
      · rw [if_neg hk, if_neg (fun hc => hk hc.2.2.2.2), Option.map_none]
    · rw [if_pos hsame, if_neg h, if_neg (fun hc => h ⟨hc.2.1, hc.2.2.1, hc.2.2.2.1⟩)]
  · rw [if_neg hsame, if_neg (fun hc => hsame hc.1)]

end Sender
section Receiver

def At (buf : List Byte) (cp : Nat) (l : List Byte) : Prop := ∃ pre, buf = pre ++ l ∧ cp = pre.length

variable {buf l tl : List Byte} {cp : Nat}

theorem At.le (h : At buf cp tl) : cp ≤ buf.length := by
  obtain ⟨pre, rfl, rfl⟩ := h
  simp

theorem At.getD (h : At buf cp l) (k : Nat) : buf.getD (cp + k) 0#8 = l.getD k 0#8 := by
  obtain ⟨pre, rfl, rfl⟩ := h
  simp [List.getD_eq_getElem?_getD, List.getElem?_append_right]

theorem At.append (h : At buf cp (l ++ tl)) : At buf (cp + l.length) tl := by
  obtain ⟨pre, rfl, rfl⟩ := h
  exact ⟨pre ++ l, by simp, by simp⟩

theorem bytes_of_word (n : BitVec 16) : (n >>> 8).setWidth 8 ++ n.setWidth 8 = n := by
  ext i hi
  simp only [getElem_append, getElem_setWidth, getLsbD_ushiftRight]
  split
  · simp [getLsbD_eq_getElem, hi]
  · rw [show 8 + (i - 8) = i by omega, getLsbD_eq_getElem hi]

theorem At.read (h : At buf cp (encodez n ++ tl)) :
    decode buf cp = (n, cp + (encodez n).length) := by
  have h0 := h.getD 0
  have h1 := h.getD 1
  have h2 := h.getD 2
  rw [Nat.add_zero] at h0
  unfold decode
  rw [h0, h1, h2]
  unfold encodez
  by_cases hn : 256#16 ≤ n ∨ n = 0#16
  · simp [hn, bytes_of_word]
  · have hlt : n.toNat < 256 := by
      have := BitVec.not_le.mp (fun hle => hn (.inl hle))
      simpa [lt_def] using this
    have hpos : n.toNat ≠ 0 := fun h0 => hn (.inr (eq_of_toNat_eq (by simpa using h0)))
    have hw : n.setWidth 8 ≠ 0#8 := by
      intro he
      have := congrArg BitVec.toNat he
      simp [Nat.mod_eq_of_lt hlt] at this
      exact hpos this
    have hb : (n.setWidth 8).setWidth 16 = n := by
      apply eq_of_toNat_eq
      simp only [toNat_setWidth, Nat.mod_eq_of_lt hlt]
      omega
    simp [hn, hw, hb]

theorem encode_eq (hn : n ≠ 0#16) : encode n = encodez n := by
  simp [encode, encodez, hn]

theorem At.passed (h : At buf cp (encodez n ++ tl)) : At buf (decode buf cp).2 tl := by
  rw [h.read]
  exact h.append

theorem At.passed' (hn : n ≠ 0#16) (h : At buf cp (encode n ++ tl)) : At buf (decode buf cp).2 tl :=
  At.passed (encode_eq hn ▸ h)

variable {u w a s i t c : Bool} {n : BitVec 16} {r : Hdr × Nat}

theorem At.readU (h : At buf r.2 ((if u then encodez n else []) ++ tl)) :
    At buf (decodeU buf (mask u w a s i t c) r).2 tl := by
  unfold decodeU
  cases u with
  | true => simpa using h.passed
  | false => simpa using h

theorem At.readW (hn : w → n ≠ 0#16) (h : At buf r.2 ((if w then encode n else []) ++ tl)) :
    At buf (decodeW buf (mask u w a s i t c) r).2 tl := by
  unfold decodeW
  cases w with
  | true => simpa using h.passed' (hn rfl)
  | false => simpa using h

theorem At.readA (hn : a → n ≠ 0#16) (h : At buf r.2 ((if a then encode n else []) ++ tl)) :
    At buf (decodeA buf (mask u w a s i t c) r).2 tl := by
  unfold decodeA
  cases a with
  | true => simpa using h.passed' (hn rfl)
  | false => simpa using h

theorem At.readS (hn : s → n ≠ 0#16) (h : At buf r.2 ((if s then encode n else []) ++ tl)) :
    At buf (decodeS buf (mask u w a s i t c) r).2 tl := by
  unfold decodeS
  cases s with
  | true => simpa using h.passed' (hn rfl)
  | false => simpa using h

theorem At.readI (h : At buf r.2 ((if i then encodez n else []) ++ tl)) :
    At buf (decodeI buf (mask u w a s i t c) r).2 tl := by
  unfold decodeI
  cases i with
  | true => simpa using h.passed
  | false => simpa using h

end Receiver

/-! Which TCP flags survive header compression. -/

section Bits

def put (m x y : Byte) : Byte := (x &&& ~~~m) ||| (y &&& m)

theorem put_and_self (m x y : Byte) : put m x y &&& m = y &&& m := by
  unfold put
  ext i hi
  simp only [getElem_and, getElem_or, getElem_not]
  cases m[i] <;> simp

theorem put_and_disjoint {n : Byte} (h : n &&& ~~~m = n) (x y : Byte) :
    put m x y &&& n = x &&& n := by
  unfold put
  ext i hi
  have hb := congrArg (fun b : Byte => b[i]) h
  simp only [getElem_and, getElem_not] at hb
  simp only [getElem_and, getElem_or, getElem_not]
  revert hb
  cases m[i] <;> cases n[i] <;> simp

theorem or_eq_put (h : y &&& m = m) : x ||| m = put m x y := by
  unfold put
  rw [h]
  ext i hi
  simp only [getElem_and, getElem_or, getElem_not]
  cases m[i] <;> simp

theorem and_not_eq_put (h : y &&& m = 0#8) : x &&& ~~~m = put m x y := by
  unfold put
  rw [h, or_zero]

theorem push_set : ∀ y : Byte, y &&& thPush ≠ 0#8 → y &&& thPush = thPush := by decide +kernel

theorem urg_set : ∀ y : Byte, y &&& thUrg ≠ 0#8 → y &&& thUrg = thUrg := by decide +kernel

def thControl : Byte := thSyn ||| thFin ||| thRst ||| thAck

def thEcn : Byte := thEce ||| thCwr

theorem flags_parts : ∀ y : Byte,
    (y &&& thControl) ||| (y &&& thPush) ||| (y &&& thUrg) ||| (y &&& thEcn) = y := by
  decide +kernel

theorem flags_eq_iff (x y : Byte) : x = y ↔ x &&& thControl = y &&& thControl ∧
    x &&& thPush = y &&& thPush ∧ x &&& thUrg = y &&& thUrg ∧ x &&& thEcn = y &&& thEcn := by
  constructor
  · rintro rfl
    exact ⟨rfl, rfl, rfl, rfl⟩
  · rintro ⟨hc, hp, hu, he⟩
    rw [← flags_parts x, ← flags_parts y, hc, hp, hu, he]

end Bits

section Fields

variable (buf : List Byte) (changes : Byte) (r : Hdr × Nat)

@[simp] theorem decodeW_thFlags : (decodeW buf changes r).1.thFlags = r.1.thFlags := by
  unfold decodeW; split <;> rfl

@[simp] theorem decodeA_thFlags : (decodeA buf changes r).1.thFlags = r.1.thFlags := by
  unfold decodeA; split <;> rfl

@[simp] theorem decodeS_thFlags : (decodeS buf changes r).1.thFlags = r.1.thFlags := by
  unfold decodeS; split <;> rfl

@[simp] theorem decodeI_thFlags : (decodeI buf changes r).1.thFlags = r.1.thFlags := by
  unfold decodeI; split <;> rfl

@[simp] theorem decodeU_thX2 : (decodeU buf changes r).1.thX2 = r.1.thX2 := by
  unfold decodeU; split <;> rfl

@[simp] theorem decodeW_thX2 : (decodeW buf changes r).1.thX2 = r.1.thX2 := by
  unfold decodeW; split <;> rfl

@[simp] theorem decodeA_thX2 : (decodeA buf changes r).1.thX2 = r.1.thX2 := by
  unfold decodeA; split <;> rfl

@[simp] theorem decodeS_thX2 : (decodeS buf changes r).1.thX2 = r.1.thX2 := by
  unfold decodeS; split <;> rfl

@[simp] theorem decodeI_thX2 : (decodeI buf changes r).1.thX2 = r.1.thX2 := by
  unfold decodeI; split <;> rfl

@[simp] theorem decodeFields_thX2 (len : Nat) :
    (decodeFields buf changes len r).1.thX2 = r.1.thX2 := by
  unfold decodeFields
  split
  · rfl
  · split
    · rfl
    · simp

@[simp] theorem decodePush_thX2 (h : Hdr) : (decodePush changes h).thX2 = h.thX2 := by
  unfold decodePush; split <;> rfl

end Fields

section Sent

variable (p cs : Hdr) (i c : Bool) {buf tl : List Byte} {r : Hdr × Nat}

theorem sentMask_newC : sentMask p cs i (pushed p) c &&& newC = 0#8 ↔ c = false := by
  unfold sentMask fieldMask
  split <;> simp

theorem decodePush_sent (h : Hdr) :
    (decodePush (sentMask p cs i (pushed p) c) h).thFlags = put thPush h.thFlags p.thFlags := by
  have hm : sentMask p cs i (pushed p) c &&& tcpPushBit = 0#8 ↔ p.thFlags &&& thPush = 0#8 := by
    unfold sentMask fieldMask pushed
    split <;> simp
  unfold decodePush
  by_cases hp : p.thFlags &&& thPush = 0#8
  · rw [if_neg (not_not.mpr (hm.mpr hp))]
    exact and_not_eq_put hp
  · rw [if_pos (fun h0 => hp (hm.mp h0))]
    exact or_eq_put (push_set _ hp)

theorem decodeU_sent (t : Bool) (r : Hdr × Nat) :
    (decodeU buf (fieldMask p cs i t c) r).1.thFlags = put thUrg r.1.thFlags p.thFlags := by
  have hm : fieldMask p cs i t c &&& newU = 0#8 ↔ p.thFlags &&& thUrg = 0#8 := by
    rw [fieldMask, mask_newU, decide_eq_false_iff_not]
    exact not_not
  unfold decodeU
  by_cases hu : p.thFlags &&& thUrg = 0#8
  · rw [if_neg (not_not.mpr (hm.mpr hu))]
    exact and_not_eq_put hu
  · rw [if_pos (fun h0 => hu (hm.mp h0))]
    exact or_eq_put (urg_set _ hu)

theorem delta_ne_zero {x y : BitVec 32} (h : x ≠ y) (hle : x - y ≤ 0xffff#32) :
    (x - y).setWidth 16 ≠ 0#16 := by
  have hne : x - y ≠ 0#32 := fun h0 => h ((sub_eq_zero_bits x y).mp h0)
  intro h0
  apply hne
  have h16 := congrArg BitVec.toNat h0
  have hlt : (x - y).toNat ≤ 65535 := by simpa [le_def] using hle
  rw [toNat_setWidth, Nat.mod_eq_of_lt (by omega)] at h16
  exact eq_of_toNat_eq (by simpa using h16)

theorem readFields (t : Bool) (hc : Compresses p cs) (h : At buf r.2 (fieldBytes p cs ++ tl)) :
    At buf (decodeS buf (fieldMask p cs i t c) (decodeA buf (fieldMask p cs i t c)
      (decodeW buf (fieldMask p cs i t c) (decodeU buf (fieldMask p cs i t c) r)))).2 tl := by
  obtain ⟨-, -, ha, hs, -⟩ := hc
  apply At.readS (n := (p.seq - cs.seq).setWidth 16)
    (fun hne => delta_ne_zero (of_decide_eq_true hne) hs)
  apply At.readA (n := (p.ack - cs.ack).setWidth 16)
    (fun hne => delta_ne_zero (of_decide_eq_true hne) ha)
  apply At.readW (n := p.thWin - cs.thWin)
    (fun hne h0 => (of_decide_eq_true hne : p.thWin ≠ cs.thWin) ((sub_eq_zero_bits _ _).mp h0))
  apply At.readU (n := p.thUrp)
  simpa [fieldBytes] using h

theorem decodeFields_sent (t : Bool) (len : Nat) (hc : Compresses p cs)
    (h : At buf r.2 (sentBytes p cs ++ tl)) :
    At buf (decodeFields buf (sentMask p cs i t c) len r).2 tl ∧
      (decodeFields buf (sentMask p cs i t c) len r).1.thFlags =
        if Special p cs then r.1.thFlags else put thUrg r.1.thFlags p.thFlags := by
  unfold sentMask sentBytes at *
  by_cases hs : Special p cs
  · rw [if_pos hs] at h ⊢
    rw [if_pos hs]
    unfold decodeFields
    by_cases ha : p.ack = cs.ack
    · rw [if_neg (by simp [mask_specialI, ha]), if_pos (by simp [mask_specialD, ha])]
      exact ⟨h, rfl⟩
    · rw [if_pos (by simp [mask_specialI, ha])]
      exact ⟨h, rfl⟩
  · rw [if_neg hs] at h ⊢
    rw [if_neg hs]
    have hplain := hc.2.2.2.2.2
    have hI : fieldMask p cs i t c &&& specialsMask ≠ specialI := by
      rw [fieldMask, Ne, mask_specialI]
      simp only [decide_eq_true_eq]
      exact fun ⟨hu, hw, _, hs⟩ => hplain ⟨hu, hw, hs⟩
    have hD : fieldMask p cs i t c &&& specialsMask ≠ specialD := by
      rw [fieldMask, Ne, mask_specialD]
      simp only [decide_eq_true_eq]
      exact fun ⟨hu, hw, _, hs⟩ => hplain ⟨hu, hw, hs⟩
    unfold decodeFields
    rw [if_neg hI, if_neg hD]
    refine ⟨readFields p cs i c t hc h, ?_⟩
    rw [decodeS_thFlags, decodeA_thFlags, decodeW_thFlags, decodeU_sent]

theorem decodeI_sent (t : Bool) (h : At buf r.2 (idBytes p cs ++ tl)) :
    At buf (decodeI buf (sentMask p cs (idChanged p cs) t c) r).2 tl := by
  unfold sentMask fieldMask
  split <;> exact At.readI (n := p.ipId - cs.ipId) h

def received (x : Byte) : Byte :=
  if Special p cs then put thPush x p.thFlags else put thUrg (put thPush x p.thFlags) p.thFlags

theorem rebuild_sent (rx : Slcompress) {cp : Nat} {s0 s1 : Byte} {data : List Byte}
    (hc : Compresses p cs)
    (h : At buf cp ([s0, s1] ++ (sentBytes p cs ++ (idBytes p cs ++ data)))) :
    ∃ cs', rx.rebuild buf (sentMask p cs (idChanged p cs) (pushed p) c) cp =
        ({ rx with rstate := Function.update rx.rstate rx.lastRecv cs' }, some cs'.hdr) ∧
      cs'.hdr.thFlags = received p cs (rx.rstate rx.lastRecv).hdr.thFlags ∧
      cs'.hdr.thX2 = (rx.rstate rx.lastRecv).hdr.thX2 := by
  set changes := sentMask p cs (idChanged p cs) (pushed p) c with hch
  set h0 : Hdr := { (rx.rstate rx.lastRecv).hdr with
    thSum := buf.getD cp 0#8 ++ buf.getD (cp + 1) 0#8 } with hh0
  set r1 : Hdr × Nat := (decodePush changes h0, cp + 2) with hr1
  set r2 := decodeFields buf changes (rx.rstate rx.lastRecv).csHlen r1 with hr2
  set r3 := decodeI buf changes r2 with hr3
  obtain ⟨hat, hfl⟩ := decodeFields_sent p cs (idChanged p cs) c (pushed p)
    (rx.rstate rx.lastRecv).csHlen hc (r := r1) h.append
  have hle : r3.2 ≤ buf.length := (decodeI_sent p cs c (pushed p) hat).le
  unfold Slcompress.rebuild
  rw [if_neg (Nat.not_lt.mpr hle)]
  refine ⟨⟨_, _⟩, rfl, ?_, ?_⟩
  · change r3.1.thFlags = _
    rw [hr3, decodeI_thFlags, hfl]
    unfold received
    rw [hr1, hch, decodePush_sent]
  · change r3.1.thX2 = _
    rw [hr3, decodeI_thX2, hr2, decodeFields_thX2, hr1, decodePush_thX2]

/-- When the receiver's saved flags are the sender's, what it makes of them is right just when the
bits that are never sent have not changed. -/
theorem received_eq_iff (x : Byte) (hctl : x &&& thControl = p.thFlags &&& thControl) :
    received p cs x = p.thFlags ↔
      x &&& thEcn = p.thFlags &&& thEcn ∧ (Special p cs → x &&& thUrg = 0#8) := by
  unfold received
  rw [flags_eq_iff]
  by_cases hs : Special p cs
  · have hu : p.thFlags &&& thUrg = 0#8 := not_not.mp hs.1
    rw [if_pos hs, put_and_disjoint (by decide), put_and_self, put_and_disjoint (by decide),
      put_and_disjoint (by decide), hu]
    exact ⟨fun h => ⟨h.2.2.2, fun _ => h.2.2.1⟩, fun h => ⟨hctl, rfl, h.2 hs, h.1⟩⟩
  · rw [if_neg hs, put_and_disjoint (by decide), put_and_disjoint (by decide),
      put_and_disjoint (by decide), put_and_self, put_and_self, put_and_disjoint (by decide),
      put_and_disjoint (by decide)]
    exact ⟨fun h => ⟨h.2.2.2, fun h' => absurd h' hs⟩, fun h => ⟨hctl, rfl, rfl, h.1⟩⟩

end Sent

end Mbsd.Net.SlCompress
