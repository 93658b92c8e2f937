import Mbsd.Net.SlCompress.Encoding

/-! The flags of a sequence of packets that cross a line without loss. -/

namespace Mbsd.Net.SlCompress

open List Function Slcompress

variable {q : Hdr} {found : Bool}

def Hdr.WellFormed (h : Hdr) : Prop :=
  h.ipV = 4#4 ∧ h.ipP = ipprotoTcp ∧ h.ipHl.toNat * 4 = 20 + h.ipOpts.length ∧
    h.thOff.toNat * 4 = 20 + h.thOpts.length

instance (h : Hdr) : Decidable h.WellFormed := inferInstanceAs (Decidable (_ ∧ _ ∧ _ ∧ _))

/-- Every packet arrives with its flags and its reserved bits; the `Bool` is `compress_cid`. -/
def Reproduced (tx rx : Slcompress) : List (Packet × Bool) → Prop
  | [] => True
  | (p, cid) :: ps =>
    let sent := slCompressTcp tx p cid
    let got := slReceive rx sent.2
    got.2.map (fun h => (h.thFlags, h.thX2)) = some (p.hdr.thFlags, p.hdr.thX2) ∧
      Reproduced sent.1 got.1 ps

def Kept (p cs : Hdr) : Prop :=
  p.thFlags &&& thEcn = cs.thFlags &&& thEcn ∧ p.thX2 = cs.thX2 ∧ (Special p cs → ¬cs.Urg)

def Slcompress.Carries (tx : Slcompress) (p : Packet) : Prop :=
  slIncompressible p = false →
    ∀ i, (tx.first :: tx.rest).find? (fun i => slMatches p.hdr (tx.tstate i)) = some i →
      Compresses p.hdr (tx.tstate i) → Kept p.hdr (tx.tstate i)

def AllCarried (tx : Slcompress) : List (Packet × Bool) → Prop
  | [] => True
  | (p, cid) :: ps => tx.Carries p ∧ AllCarried (slCompressTcp tx p cid).1 ps

structure InSync (tx rx : Slcompress) : Prop where
  ids : ∀ i ∈ tx.first :: tx.rest, i < maxStates
  control : ∀ i, (tx.tstate i).ipV = 4#4 → (tx.tstate i).thFlags &&& thControl = thAck
  flags : ∀ i, (tx.tstate i).ipV = 4#4 → (rx.rstate i).hdr.thFlags = (tx.tstate i).thFlags
  x2 : ∀ i, (tx.tstate i).ipV = 4#4 → (rx.rstate i).hdr.thX2 = (tx.tstate i).thX2
  current : tx.lastXmit < maxStates → rx.lastRecv = tx.lastXmit ∧ rx.toss = false

namespace InSync

variable {tx rx : Slcompress} {p : Packet} {i : Nat}

theorem setup {n m : Nat} (hn : n < maxStates) : InSync (slCompressSetup n) (slCompressSetup m) where
  ids i hi := by
    have : i = n ∨ i < n := by simpa [slCompressSetup] using hi
    omega
  control _ h := absurd h (by simp [slCompressSetup, Hdr.zero])
  flags _ h := absurd h (by simp [slCompressSetup, Hdr.zero])
  x2 _ h := absurd h (by simp [slCompressSetup, Hdr.zero])
  current h := absurd h (by simp [slCompressSetup, maxStates])

theorem moveToFront (h : InSync tx rx) (hi : i < maxStates) : InSync (tx.moveToFront i) rx := by
  unfold Slcompress.moveToFront
  split
  · exact h
  · refine { h with ids := ?_ }
    intro j hj
    rcases mem_cons.mp hj with rfl | hj
    · exact hi
    · rcases mem_cons.mp hj with rfl | hj
      · exact h.ids _ (by simp)
      · exact h.ids _ (mem_cons_of_mem _ (mem_of_mem_erase hj))

theorem save (h : InSync tx rx) {cs : Cstate} (hq : q.thFlags &&& thControl = thAck)
    (hf : cs.hdr.thFlags = q.thFlags) (hx : cs.hdr.thX2 = q.thX2) : InSync (tx.save i q)
      { rx with lastRecv := i, toss := false, rstate := update rx.rstate i cs } where
  ids := h.ids
  control j := by
    by_cases hj : j = i
    · subst hj; simp [save, hq]
    · simpa [Slcompress.save, hj] using h.control j
  flags j := by
    by_cases hj : j = i
    · subst hj; simp [save, hf]
    · simpa [Slcompress.save, hj] using h.flags j
  x2 j := by
    by_cases hj : j = i
    · subst hj; simp [save, hx]
    · simpa [Slcompress.save, hj] using h.x2 j
  current _ := ⟨rfl, rfl⟩

end InSync

section Receive

variable (rx : Slcompress) {i : Nat}

theorem receive_uncompressed (hi : i < maxStates) (hq : q.WellFormed) (data : List Byte) :
    slReceive rx (.uncompressed { q with ipP := BitVec.ofNat 8 i } data) = ({ rx with
          lastRecv := i, toss := false, rstate := update rx.rstate i ⟨q, q.hlen⟩ }, some q) := by
  obtain ⟨-, hproto, hip, hth⟩ := hq
  have hi16 : i < 16 := hi
  have hid : (BitVec.ofNat 8 i).toNat = i := by
    rw [BitVec.toNat_ofNat]
    omega
  have hback : ({ q with ipP := ipprotoTcp } : Hdr) = q := by rw [← hproto]
  have hsize : q.hlen = q.size := by
    unfold Hdr.hlen Hdr.size
    omega
  have hlen : q.ipHl.toNat * 4 + 20 ≤ q.size := by
    unfold Hdr.size
    omega
  have hmax : q.hlen ≤ maxHdr := by
    unfold Hdr.hlen maxHdr
    omega
  unfold slReceive slUncompressTcpCore
  simp only [hid, hback]
  have hs : ({ q with ipP := BitVec.ofNat 8 i } : Hdr).size = q.size := rfl
  rw [hs, if_neg (Nat.not_le.mpr hi), if_neg (by omega), if_neg (by omega)]

def startBytes (explicit : Bool) (i : Nat) (changes : Byte) : List Byte :=
  if explicit then [changes ||| newC, BitVec.ofNat 8 i] else [changes]

theorem receive_compressed (hi : i < maxStates) {p cs : Hdr} (hc : Compresses p cs) {e : Bool}
    (hcur : e = false → rx.lastRecv = i ∧ rx.toss = false) (s0 s1 : Byte) (data : List Byte) :
    ∃ cs', slReceive rx (.compressed
          (startBytes e i (sentMask p cs (idChanged p cs) (pushed p) false) ++ [s0, s1] ++
            (sentBytes p cs ++ idBytes p cs) ++ data)) =
        ({ rx with lastRecv := i, toss := false, rstate := update rx.rstate i cs' }, some cs'.hdr) ∧
      cs'.hdr.thFlags = received p cs (rx.rstate i).hdr.thFlags ∧
      cs'.hdr.thX2 = (rx.rstate i).hdr.thX2 := by
  have hi16 : i < 16 := hi
  have hid : (BitVec.ofNat 8 i).toNat = i := by
    rw [BitVec.toNat_ofNat]
    omega
  set buf := startBytes e i (sentMask p cs (idChanged p cs) (pushed p) false) ++ [s0, s1] ++
    (sentBytes p cs ++ idBytes p cs) ++ data with hbuf
  cases e with
  | true =>
    have hm : sentMask p cs (idChanged p cs) (pushed p) false ||| newC =
        sentMask p cs (idChanged p cs) (pushed p) true := by
      unfold sentMask fieldMask
      split <;> exact mask_or_newC _ _ _ _ _ _
    have h0 : buf.getD 0 0#8 = sentMask p cs (idChanged p cs) (pushed p) true := by
      simp [hbuf, startBytes, hm]
    have h1 : buf.getD 1 0#8 = BitVec.ofNat 8 i := by simp [hbuf, startBytes]
    have hat : At buf 2 ([s0, s1] ++ (sentBytes p cs ++ (idBytes p cs ++ data))) :=
      ⟨[sentMask p cs (idChanged p cs) (pushed p) true, BitVec.ofNat 8 i],
        by simp [hbuf, startBytes, hm], rfl⟩
    obtain ⟨cs', hreb, hfl, hx⟩ :=
      rebuild_sent p cs true { rx with toss := false, lastRecv := i } hc hat
    refine ⟨cs', ?_, hfl, hx⟩
    unfold slReceive slUncompressTcpCore
    simp only [h0, h1, hid]
    rw [if_pos (fun hz => by simpa using (sentMask_newC p cs _ _).mp hz),
      if_neg (Nat.not_le.mpr hi)]
    exact hreb
  | false =>
    obtain ⟨hlast, htoss⟩ := hcur rfl
    have h0 : buf.getD 0 0#8 = sentMask p cs (idChanged p cs) (pushed p) false := by
      simp [hbuf, startBytes]
    have hat : At buf 1 ([s0, s1] ++ (sentBytes p cs ++ (idBytes p cs ++ data))) :=
      ⟨[sentMask p cs (idChanged p cs) (pushed p) false], by simp [hbuf, startBytes], rfl⟩
    obtain ⟨cs', hreb, hfl, hx⟩ := rebuild_sent p cs false rx hc hat
    rw [hlast] at hreb hfl hx
    refine ⟨cs', ?_, hfl, hx⟩
    unfold slReceive slUncompressTcpCore
    simp only [h0]
    rw [if_neg (not_not.mpr ((sentMask_newC p cs _ _).mpr rfl)), htoss, if_neg (by simp), hreb]
    subst hlast
    simp only [← htoss]

end Receive

section Send

variable (tx : Slcompress) (p : Packet) (cid : Bool) {i : Nat}

@[simp] theorem moveToFront_tstate : (tx.moveToFront i).tstate = tx.tstate := by
  unfold moveToFront
  split <;> rfl

@[simp] theorem moveToFront_lastXmit : (tx.moveToFront i).lastXmit = tx.lastXmit := by
  unfold moveToFront
  split <;> rfl

theorem findState_true (h : tx.findState q = (i, true)) :
    (tx.first :: tx.rest).find? (fun i => slMatches q (tx.tstate i)) = some i := by
  unfold findState at h
  cases hf : (tx.first :: tx.rest).find? (fun i => slMatches q (tx.tstate i)) with
  | none => simp [hf] at h
  | some j => simpa [hf] using h

theorem findState_false (h : tx.findState q = (i, false)) :
    (tx.first :: tx.rest).find? (fun i => slMatches q (tx.tstate i)) = none := by
  unfold findState at h
  cases hf : (tx.first :: tx.rest).find? (fun i => slMatches q (tx.tstate i)) with
  | none => rfl
  | some j => simp [hf] at h

theorem oldest_mem : tx.oldest ∈ tx.first :: tx.rest := by
  unfold oldest
  cases h : tx.rest.getLast? with
  | none => simp
  | some j => exact mem_cons_of_mem _ (mem_of_getLast? h)

theorem findState_mem (h : tx.findState q = (i, found)) :
    i ∈ tx.first :: tx.rest := by
  cases found with
  | true => exact mem_of_find?_eq_some (findState_true tx h)
  | false =>
    have hf := findState_false tx h
    unfold findState at h
    rw [hf] at h
    cases h
    exact oldest_mem tx

theorem slCompressTcp_ip (h : slIncompressible p = true) : slCompressTcp tx p cid = (tx, .ip p) := by
  unfold slCompressTcp
  rw [if_pos h]

theorem slCompressTcp_uncompressed (h : slIncompressible p = false)
    (hi : tx.findState p.hdr = (i, found)) (hn : found = true → ¬Compresses p.hdr (tx.tstate i)) :
    slCompressTcp tx p cid = ((tx.moveToFront i).save i p.hdr,
      .uncompressed { p.hdr with ipP := BitVec.ofNat 8 i } p.data) := by
  have hnone : (if found then slEncode p.hdr ((tx.moveToFront i).tstate i) else none) = none := by
    cases found with
    | true => rw [if_pos rfl, moveToFront_tstate, slEncode_eq, if_neg (hn rfl)]
    | false => rfl
  unfold slCompressTcp
  rw [if_neg (by simp [h]), hi]
  dsimp only
  rw [hnone]

theorem slCompressTcp_compressed (h : slIncompressible p = false)
    (hi : tx.findState p.hdr = (i, true)) (hc : Compresses p.hdr (tx.tstate i)) :
    slCompressTcp tx p cid = ((tx.moveToFront i).save i p.hdr,
      .compressed (startBytes (cid = false ∨ tx.lastXmit ≠ i) i
          (sentMask p.hdr (tx.tstate i) (idChanged p.hdr (tx.tstate i)) (pushed p.hdr) false) ++
        [(p.hdr.thSum >>> 8).setWidth 8, p.hdr.thSum.setWidth 8] ++
        (sentBytes p.hdr (tx.tstate i) ++ idBytes p.hdr (tx.tstate i)) ++ p.data)) := by
  unfold slCompressTcp startBytes
  rw [if_neg (by simp [h]), hi]
  dsimp only
  rw [if_pos rfl, moveToFront_tstate, slEncode_eq, if_pos hc, moveToFront_lastXmit]
  simp only [decide_eq_true_eq]

end Send

section Run

variable {tx rx : Slcompress} {p : Packet} {i : Nat}

theorem control_of_compressible (h : slIncompressible p = false) :
    p.hdr.thFlags &&& thControl = thAck := by
  unfold slIncompressible at h
  simp only [Bool.or_eq_false_iff, decide_eq_false_iff_not, not_not] at h
  exact h.2

theorem carries_iff (hinc : slIncompressible p = false) (hfs : tx.findState p.hdr = (i, true))
    (hc : Compresses p.hdr (tx.tstate i)) : tx.Carries p ↔ Kept p.hdr (tx.tstate i) := by
  have hf := findState_true tx hfs
  constructor
  · intro h
    exact h hinc i hf hc
  · intro h _ j hj _
    rw [hf, Option.some.injEq] at hj
    exact hj ▸ h

theorem carries_uncompressed (hfs : tx.findState p.hdr = (i, found))
    (hn : found = true → ¬Compresses p.hdr (tx.tstate i)) : tx.Carries p := by
  intro _ j hj hc
  cases found with
  | true =>
    rw [findState_true tx hfs, Option.some.injEq] at hj
    exact absurd (hj ▸ hc) (hn rfl)
  | false =>
    rw [findState_false tx hfs] at hj
    cases hj

theorem saved_of_compresses (hp : p.hdr.WellFormed)
    (hc : Compresses p.hdr (tx.tstate i)) : (tx.tstate i).ipV = 4#4 := by
  have hsame := hc.1
  simp only [slSameHeader, Bool.and_eq_true, decide_eq_true_eq, Prod.mk.injEq] at hsame
  rw [← hp.1, hsame.1.1.1.1.1.1]

theorem InSync.crosses (h : InSync tx rx) (hp : p.hdr.WellFormed) (cid : Bool) :
    ((slReceive rx (slCompressTcp tx p cid).2).2.map (fun h => (h.thFlags, h.thX2)) =
        some (p.hdr.thFlags, p.hdr.thX2) ↔ tx.Carries p) ∧
      (tx.Carries p → InSync (slCompressTcp tx p cid).1
        (slReceive rx (slCompressTcp tx p cid).2).1) := by
  cases hinc : slIncompressible p with
  | true =>
    rw [slCompressTcp_ip tx p cid hinc]
    exact ⟨⟨fun _ hf => absurd hf (by simp [hinc]), fun _ => rfl⟩, fun _ => h⟩
  | false =>
    have hctl := control_of_compressible hinc
    rcases hfs : tx.findState p.hdr with ⟨i, found⟩
    have hi := h.ids i (findState_mem tx hfs)
    by_cases hc : found = true ∧ Compresses p.hdr (tx.tstate i)
    · obtain ⟨rfl, hc⟩ := hc
      have hmove := h.moveToFront hi
      obtain ⟨cs', hgot, hfl, hx⟩ := receive_compressed rx hi hc
        (e := decide (cid = false ∨ tx.lastXmit ≠ i))
        (fun he => by
          have he := of_decide_eq_false he
          rw [not_or, not_not] at he
          rw [← he.2]
          exact h.current (he.2 ▸ hi))
        ((p.hdr.thSum >>> 8).setWidth 8) (p.hdr.thSum.setWidth 8) p.data
      rw [slCompressTcp_compressed tx p cid hinc hfs hc]
      rw [hgot]
      have hv := saved_of_compresses hp hc
      have hcs := h.control i hv
      rw [h.flags i hv] at hfl
      rw [h.x2 i hv] at hx
      have hiff : (cs'.hdr.thFlags = p.hdr.thFlags ∧ cs'.hdr.thX2 = p.hdr.thX2) ↔
          tx.Carries p := by
        rw [carries_iff hinc hfs hc, hfl, hx,
          received_eq_iff p.hdr (tx.tstate i) (tx.tstate i).thFlags (hcs.trans hctl.symm)]
        unfold Kept Hdr.Urg
        simp only [ne_eq, not_not, eq_comm]
        tauto
      refine ⟨?_, fun hcar => ?_⟩
      · rw [← hiff]
        simp
      · exact hmove.save hctl (hiff.mpr hcar).1 (hiff.mpr hcar).2
    · rw [slCompressTcp_uncompressed tx p cid hinc hfs (fun hf hc' => hc ⟨hf, hc'⟩)]
      rw [receive_uncompressed rx hi hp]
      have hcar := carries_uncompressed (p := p) hfs (fun hf hc' => hc ⟨hf, hc'⟩)
      exact ⟨⟨fun _ => hcar, fun _ => rfl⟩, fun _ => (h.moveToFront hi).save hctl rfl rfl⟩

theorem reproduced_iff (ps : List (Packet × Bool)) (hps : ∀ q ∈ ps, q.1.hdr.WellFormed)
    (h : InSync tx rx) : Reproduced tx rx ps ↔ AllCarried tx ps := by
  induction ps generalizing tx rx with
  | nil => exact Iff.rfl
  | cons q ps ih =>
    obtain ⟨p, cid⟩ := q
    have hp := hps (p, cid) mem_cons_self
    have htl : ∀ q ∈ ps, q.1.hdr.WellFormed := fun q hq => hps q (mem_cons_of_mem _ hq)
    obtain ⟨hone, hnext⟩ := h.crosses hp cid
    constructor
    · rintro ⟨h1, h2⟩
      have hcar := hone.mp h1
      exact ⟨hcar, (ih htl (hnext hcar)).mp h2⟩
    · rintro ⟨hcar, h2⟩
      exact ⟨hone.mpr hcar, (ih htl (hnext hcar)).mpr h2⟩

end Run

/-- A sequence of packets arrives with its flags just when nothing was compressed away. -/
theorem flags_reproduced_iff (maxState : Nat) (hmax : maxState < maxStates)
    (ps : List (Packet × Bool)) (hps : ∀ q ∈ ps, q.1.hdr.WellFormed) :
    Reproduced (slCompressSetup maxState) slCompressInit ps ↔
      AllCarried (slCompressSetup maxState) ps :=
  reproduced_iff ps hps (.setup hmax)

def sample (seq : BitVec 32) (flags : Byte) : Packet :=
  ⟨{ Hdr.zero with
      ipV := 4#4, ipHl := 5#4, ipLen := 41#16, ipP := ipprotoTcp, thOff := 5#4, seq := seq,
      thFlags := flags }, [0#8], 41⟩

theorem flags_reproduced_sample : Reproduced (slCompressSetup 15) slCompressInit
        [(sample 0#32 thAck, true), (sample 1#32 (thAck ||| thPush), true)] ↔
      AllCarried (slCompressSetup 15)
        [(sample 0#32 thAck, true), (sample 1#32 (thAck ||| thPush), true)] :=
  flags_reproduced_iff 15 (by decide) _ (by decide)

/-- `ECE` is lost, and so is the end of `URG`. -/
theorem flags_lost : (¬∀ ps : List (Packet × Bool), (∀ q ∈ ps, q.1.hdr.WellFormed) →
      Reproduced slCompressInit slCompressInit ps) ∧ ¬Reproduced slCompressInit slCompressInit
      [(sample 0#32 (thAck ||| thUrg), true), (sample 1#32 thAck, true)] := by
  constructor
  · intro h
    have h2 := (h [(sample 0#32 thAck, true), (sample 1#32 (thAck ||| thEce), true)] (by decide)).2.1
    revert h2
    decide
  · intro h
    have h2 := h.2.1
    revert h2
    decide

end Mbsd.Net.SlCompress
