import Mbsd.Net.PfLb.Sport

/-! What `pf_get_sport` chooses from a pool that is one prefix, when it gives up, and when it never
ends. -/

namespace Mbsd.Net.PfLb

open Lib.Prefix Pf List Nat

variable {env : SportEnv} {pd : NatDesc} {p : PrefixPool env.order pd.naf} {low high : BitVec 16}
  {i n : Nat} {s s' : MapAddr} {naddr naddr' counter : PfAddr} {port nport : BitVec 16}
  {a x : BitVec pd.naf.bits} {as : List (BitVec pd.naf.bits)} {r : BitVec 32} {init : PfAddr}
  {j w : Nat}

section Turn

variable (env pd) in
def Free (low high : BitVec 16) (a : BitVec pd.naf.bits) : Prop :=
  ∃ naddr port, host env.order pd.naf naddr = a ∧ FreePort env pd low high naddr port

variable (pd) in
def HasPorts : Prop := pd.proto = ipprotoTcp ∨ pd.proto = ipprotoUdp

theorem addrWords_congr (h : host env.order pd.naf naddr = host env.order pd.naf naddr') :
    addrWords pd.naf naddr = addrWords pd.naf naddr' := by
  revert h
  cases pd.naf with
  | inet =>
    intro h
    exact congrArg (fun w => [w]) (ntohl_inj.mp h)
  | inet6 =>
    intro h
    obtain ⟨h0, h1, h2, h3⟩ := join_inj.mp h
    rw [ntohl_inj] at h0 h1 h2 h3
    rw [addrWords, addrWords, PfAddr.words, h0, h1, h2, h3, PfAddr.words]

theorem FreePort.congr (h : FreePort env pd low high naddr port)
    (heq : host env.order pd.naf naddr = host env.order pd.naf naddr') :
    FreePort env pd low high naddr' port := by
  have hkey : sportKey pd naddr' (env.order.htons port) =
      sportKey pd naddr (env.order.htons port) := by
    simp only [sportKey, PfStateKeyCmp.mk.injEq, and_true]
    refine funext fun j => ?_
    split
    · exact (addrWords_congr heq).symm
    · rfl
  refine ⟨h.low_le, h.le_high, h.permitted, ?_⟩
  rw [hasState, hkey]
  exact h.noState

section

variable (hproto : HasPorts pd) (hlh : low < high)

include hproto hlh

theorem sportTurn_eq (r : BitVec 32) :
    sportTurn env pd naddr r low high = sportSearch env pd naddr r low high := by
  have hne : low ≠ high := fun h => absurd (h ▸ hlh) (BitVec.lt_irrefl high)
  have hnot : ¬low > high := BitVec.not_lt.mpr (BitVec.le_of_lt hlh)
  have hzero : ¬(low = 0 ∧ high = 0) := fun h => hne (h.1.trans h.2.symm)
  rw [sportTurn, if_neg (by rcases hproto with h | h <;> simp [h]), if_neg hzero, if_neg hne,
    if_neg hnot]

theorem sportTurn_some (h : sportTurn env pd naddr r low high = some nport) :
    ∃ port, nport = env.order.htons port ∧ FreePort env pd low high naddr port :=
  sportSearch_some hlh (sportTurn_eq hproto hlh r ▸ h)

theorem sportTurn_none (h : sportTurn env pd naddr r low high = none) :
    ¬Free env pd low high (host env.order pd.naf naddr) := by
  rintro ⟨naddr', port, heq, hfree⟩
  exact sportSearch_none hlh (sportTurn_eq hproto hlh r ▸ h) port (hfree.congr heq)

end

end Turn

section Turns

variable (env pd p) in
inductive Turns : Nat → MapAddr → List (BitVec pd.naf.bits) → Prop
  | last {i : Nat} {s : MapAddr}
      (h : ∀ s', sportMapAddr env pd p.toPfPool (i + 1) s = .ok s' → cameBack pd s' = true) :
      Turns i s [host env.order pd.naf s.naddr]
  | next {i : Nat} {s s' : MapAddr} {as : List (BitVec pd.naf.bits)}
      (h : sportMapAddr env pd p.toPfPool (i + 1) s = .ok s') (hback : cameBack pd s' = false)
      (t : Turns (i + 1) s' as) :
      Turns i s (host env.order pd.naf s.naddr :: as)

theorem sportLoop_succ_of_some {r : BitVec 16}
    (h : sportTurn env pd s.naddr (env.cutRand i) low high = some r) (n : Nat) :
    sportLoop env pd p.toPfPool low high (n + 1) i s = some (.ok (s, r)) := by
  rw [sportLoop, h]

variable (p) in
def Moves : Prop := p.type = .random ∨ p.type = .roundrobin

theorem sportLoop_succ_of_none (hmoves : Moves p)
    (h : sportTurn env pd s.naddr (env.cutRand i) low high = none) (n : Nat) :
    sportLoop env pd p.toPfPool low high (n + 1) i s =
      match sportMapAddr env pd p.toPfPool (i + 1) s with
      | .error s => some (.error s)
      | .ok s =>
        if cameBack pd s then some (.error s)
        else sportLoop env pd p.toPfPool low high n (i + 1) s := by
  rw [sportLoop, h]
  rcases hmoves with ht | ht
  · rewrite [ht]
    rfl
  · rewrite [ht]
    rfl

structure Tries (env : SportEnv) (pd : NatDesc) (low high : BitVec 16)
    (as : List (BitVec pd.naf.bits)) (result : SportResult) : Prop where
  ok : ∀ s nport, result = .ok (s, nport) → host env.order pd.naf s.naddr ∈ as ∧
    ∃ port, nport = env.order.htons port ∧ FreePort env pd low high s.naddr port
  error : ∀ s, result = .error s → ∀ a ∈ as, ¬Free env pd low high a

theorem tries_of_some (hproto : HasPorts pd) (hlh : low < high)
    (h : sportTurn env pd s.naddr r low high = some nport)
    (hmem : host env.order pd.naf s.naddr ∈ as) : Tries env pd low high as (.ok (s, nport)) where
  ok s' nport' heq := by
    obtain ⟨rfl, rfl⟩ := Prod.mk.inj (Except.ok.inj heq)
    exact ⟨hmem, sportTurn_some hproto hlh h⟩
  error s' heq := absurd heq nofun

theorem Turns.tries (hproto : HasPorts pd) (hlh : low < high) (hmoves : Moves p)
    (h : Turns env pd p i s as) : ∃ result, Tries env pd low high as result ∧
      ∀ n, as.length ≤ n → sportLoop env pd p.toPfPool low high n i s = some result := by
  induction h with
  | @last i s h =>
    cases hturn : sportTurn env pd s.naddr (env.cutRand i) low high with
    | some r =>
      refine ⟨_, tries_of_some hproto hlh hturn mem_cons_self, fun n hn => ?_⟩
      obtain ⟨n, rfl⟩ := exists_eq_succ_of_ne_zero (Nat.ne_of_gt hn)
      exact sportLoop_succ_of_some hturn n
    | none =>
      have hfails : ∃ s', ∀ n, sportLoop env pd p.toPfPool low high (n + 1) i s =
          some (.error s') := by
        cases hmap : sportMapAddr env pd p.toPfPool (i + 1) s with
        | error s' => exact ⟨s', fun n => by rw [sportLoop_succ_of_none hmoves hturn, hmap]⟩
        | ok s' =>
          refine ⟨s', fun n => ?_⟩
          rw [sportLoop_succ_of_none hmoves hturn, hmap]
          exact if_pos (h s' hmap)
      obtain ⟨s', hfails⟩ := hfails
      refine ⟨.error s', ⟨fun _ _ heq => absurd heq nofun, fun _ _ a ha => ?_⟩, fun n hn => ?_⟩
      · rw [mem_singleton.mp ha]
        exact sportTurn_none hproto hlh hturn
      · obtain ⟨n, rfl⟩ := exists_eq_succ_of_ne_zero (Nat.ne_of_gt hn)
        exact hfails n
  | @next i s s' as h hback t ih =>
    cases hturn : sportTurn env pd s.naddr (env.cutRand i) low high with
    | some r =>
      refine ⟨_, tries_of_some hproto hlh hturn mem_cons_self, fun n hn => ?_⟩
      obtain ⟨n, rfl⟩ := exists_eq_succ_of_ne_zero (Nat.ne_of_gt (zero_lt_of_lt hn))
      exact sportLoop_succ_of_some hturn n
    | none =>
      obtain ⟨result, htries, hrun⟩ := ih
      refine ⟨result, ⟨fun s nport heq => ?_, fun s heq a ha => ?_⟩, fun n hn => ?_⟩
      · obtain ⟨hmem, hport⟩ := htries.ok s nport heq
        exact ⟨mem_cons_of_mem _ hmem, hport⟩
      · rcases mem_cons.mp ha with rfl | ha
        · exact sportTurn_none hproto hlh hturn
        · exact htries.error s heq a ha
      · obtain ⟨n, rfl⟩ := exists_eq_succ_of_ne_zero (Nat.ne_of_gt (zero_lt_of_lt hn))
        rw [sportLoop_succ_of_none hmoves hturn, h]
        dsimp only
        rw [hback, if_neg Bool.false_ne_true]
        exact hrun n (le_of_succ_le_succ hn)

end Turns

section Random

theorem cameBack_iff (hinit : s.initAddr = some init) :
    cameBack pd s = true ↔ host env.order pd.naf init = host env.order pd.naf s.naddr := by
  rw [cameBack, hinit]
  exact pfAeq_iff

theorem setInitAddr_some {af : PoolAf} {addr : PfAddr} (h : s.initAddr = some init) :
    (s.setInitAddr af addr).initAddr =
      some (if pfAzero init af.af then pfAddrcpy init addr af else init) := by
  rw [MapAddr.setInitAddr, h]
  rfl

section

variable (ht : p.type = .random) (hinit : s.initAddr = some init)
  (hset : pfAzero init pd.naf.af = false)

include ht hinit hset

theorem random_step (i : Nat) :
    ∃ s', sportMapAddr env pd p.toPfPool i s = .ok s' ∧ s'.initAddr = some init ∧
      host env.order pd.naf s'.counter = host env.order pd.naf s.counter + 1 ∧
      host env.order pd.naf s'.naddr = p.position s'.counter := by
  have hfresh : s.fresh pd.naf = false := by
    rw [MapAddr.fresh, hinit]
    exact hset
  simp only [sportMapAddr, pfMapAddr, ht, hfresh, if_neg Bool.false_ne_true]
  exact ⟨_, rfl, hinit, host_pfAddrInc, p.host_pfPoolmask⟩

theorem random_next (hfirst : host env.order pd.naf init = place p.hostBits p.addr x)
    (hcounter : host env.order pd.naf s.counter = x + BitVec.ofNat _ j) (i : Nat) :
    ∃ s', sportMapAddr env pd p.toPfPool i s = .ok s' ∧ s'.initAddr = some init ∧
      host env.order pd.naf s'.counter = x + BitVec.ofNat _ (j + 1) ∧
      host env.order pd.naf s'.naddr = place p.hostBits p.addr (x + BitVec.ofNat _ (j + 1)) ∧
      (cameBack pd s' = true ↔ 2 ^ p.hostBits ∣ j + 1) := by
  obtain ⟨s', hmap, hinit', hcounter', hnaddr'⟩ := random_step ht hinit hset i
  have hnext : host env.order pd.naf s'.counter = x + BitVec.ofNat _ (j + 1) := by
    rw [hcounter', hcounter, BitVec.add_assoc]
    exact congrArg _ (BitVec.ofNat_add j 1).symm
  rw [PrefixPool.position, hnext] at hnaddr'
  refine ⟨s', hmap, hinit', hnext, hnaddr', ?_⟩
  rw [cameBack_iff hinit', hfirst, hnaddr', eq_comm, place_add_eq_iff p.hostBits_le]

theorem turns_random (hfirst : host env.order pd.naf init = place p.hostBits p.addr x)
    (hjn : j + n + 1 = 2 ^ p.hostBits) (hnaddr : host env.order pd.naf s.naddr =
      place p.hostBits p.addr (x + BitVec.ofNat _ j))
    (hcounter : host env.order pd.naf s.counter = x + BitVec.ofNat _ j) (i : Nat) :
    Turns env pd p i s (turns p.hostBits p.addr x j (n + 1)) := by
  induction n generalizing s j i with
  | zero =>
    obtain ⟨s', hmap, -, -, -, hback⟩ := random_next ht hinit hset hfirst hcounter (i + 1)
    have hlast : turns p.hostBits p.addr x j 1 = [host env.order pd.naf s.naddr] := by
      rw [hnaddr]
      rfl
    rw [hlast]
    refine .last fun s'' hmap' => ?_
    rw [hmap] at hmap'
    exact Except.ok.inj hmap' ▸ hback.mpr ⟨1, by omega⟩
  | succ n ih =>
    obtain ⟨s', hmap, hinit', hcounter', hnaddr', hback⟩ :=
      random_next ht hinit hset hfirst hcounter (i + 1)
    have hhead : turns p.hostBits p.addr x j (n + 1 + 1) =
        host env.order pd.naf s.naddr :: turns p.hostBits p.addr x (j + 1) (n + 1) := by
      rw [hnaddr, Nat.add_comm (n + 1), turns_append]
      rfl
    have hno : cameBack pd s' = false := by
      rw [← Bool.not_eq_true, hback]
      exact fun hdvd => absurd (le_of_dvd (succ_pos j) hdvd) (by omega)
    rw [hhead]
    exact .next hmap hno (ih hinit' (by omega) hnaddr' hcounter' (i + 1))

end

theorem random_draw (ht : p.type = .random) (hinit : s.initAddr = some init)
    (hset : pfAzero init pd.naf.af = true) (i : Nat) :
    ∃ s' init', sportMapAddr env pd p.toPfPool i s = .ok s' ∧ s'.initAddr = some init' ∧
      host env.order pd.naf init' = host env.order pd.naf s'.naddr ∧
      s'.counter = randCounter env.order (env.rand i) p.rmask s.counter pd.naf ∧
      host env.order pd.naf s'.naddr = p.position s'.counter := by
  have hfresh : s.fresh pd.naf = true := by
    rw [MapAddr.fresh, hinit]
    exact hset
  simp only [sportMapAddr, pfMapAddr, ht, hfresh, if_true]
  refine ⟨_, _, rfl, (setInitAddr_some hinit).trans (congrArg some (if_pos hset)),
    host_pfAddrcpy, rfl, ?_⟩
  exact p.host_pfPoolmask

end Random

section Roundrobin

def PrefixPool.ClearAt {o : ByteOrder} {af : PoolAf} (p : PrefixPool o af) (x : BitVec af.bits) :
    Prop := x = 0 ∨ ¬p.Member x

section

variable (ht : p.type = .roundrobin)

include ht

theorem clear_iff : Clear p counter ↔ p.ClearAt (host env.order pd.naf counter) := by
  rw [clear_roundrobin ht, pfAzero_iff (o := env.order), ← Bool.not_eq_true, p.pfMatchAddr_iff]
  rfl

theorem roundrobin_error (h : ¬p.ClearAt (host env.order pd.naf s.counter)) (i : Nat) :
    sportMapAddr env pd p.toPfPool i s = .error s := by
  rw [← clear_iff ht, clear_roundrobin ht, not_or, Bool.not_eq_false] at h
  simp only [sportMapAddr, pfMapAddr, ht]
  rw [if_neg h.1, if_pos h.2]

theorem roundrobin_step (hinit : s.initAddr = some init)
    (h : p.ClearAt (host env.order pd.naf s.counter))
    (hgo : p.hostBits = 0 → host env.order pd.naf s.counter ≠ 0) (i : Nat) :
    ∃ s' init', sportMapAddr env pd p.toPfPool i s = .ok s' ∧ s'.initAddr = some init' ∧
      host env.order pd.naf init' =
        (if host env.order pd.naf init = 0 then host env.order pd.naf s.counter
          else host env.order pd.naf init) ∧
      host env.order pd.naf s'.counter = host env.order pd.naf s.counter + 1 ∧
      host env.order pd.naf s'.naddr = p.position s.counter := by
  refine ⟨mapRoundrobin env.order pd.naf p.toPfPool s,
    if pfAzero init pd.naf.af then pfAddrcpy init s.counter pd.naf else init, ?_, ?_, ?_,
    host_pfAddrInc, p.host_pfPoolmask⟩
  · simp only [sportMapAddr, pfMapAddr, ht]
    by_cases hzero : pfAzero s.counter pd.naf.af = true
    · have hhost : ¬isHostMask p.rmask pd.naf = true := fun hhost =>
        hgo ((isHostMask_iff p.rmask_eq).mp hhost) (pfAzero_iff.mp hzero)
      rw [if_pos hzero, if_neg hhost]
    · have hout : ¬pfMatchAddr p.raddr p.rmask s.counter pd.naf.af = true := fun hmatch =>
        h.elim (fun h0 => hzero (pfAzero_iff.mpr h0)) fun hno => hno (p.pfMatchAddr_iff.mp hmatch)
      rw [if_neg hzero, if_neg hout]
  · exact setInitAddr_some hinit
  · by_cases hzero : pfAzero init pd.naf.af = true
    · rw [if_pos hzero, if_pos (pfAzero_iff.mp hzero), host_pfAddrcpy]
    · rw [if_neg hzero, if_neg (mt pfAzero_iff.mpr hzero)]

theorem roundrobin_stuck (hk : p.hostBits = 0) (h : host env.order pd.naf s.counter = 0) (i : Nat) :
    ∃ s', sportMapAddr env pd p.toPfPool i s = .ok s' ∧ s'.initAddr = s.initAddr ∧
      s'.counter = s.counter ∧ host env.order pd.naf s'.naddr = p.addr := by
  have hzero : pfAzero s.counter pd.naf.af = true := pfAzero_iff.mpr h
  have hhost : isHostMask p.rmask pd.naf = true := (isHostMask_iff p.rmask_eq).mpr hk
  simp only [sportMapAddr, pfMapAddr, ht]
  rw [if_pos hzero, if_pos hhost]
  exact ⟨_, rfl, rfl, rfl, host_pfAddrcpy⟩

end

/-- What the loop comes back to is not an address of the pool, or it is about to be set. -/
def NoReturn (p : PrefixPool env.order pd.naf) (init counter : BitVec pd.naf.bits) : Prop :=
  init ≠ 0 ∧ ¬p.Member init ∨ init = 0 ∧ counter ≠ 0

theorem NoReturn.step {init c init' : BitVec pd.naf.bits} (h : NoReturn p init c)
    (hc : p.ClearAt c) (hinit : init' = if init = 0 then c else init) :
    init' ≠ 0 ∧ ¬p.Member init' := by
  rcases h with ⟨hne, hno⟩ | ⟨hzero, hne⟩
  · rw [if_neg hne] at hinit
    exact hinit ▸ ⟨hne, hno⟩
  · rw [if_pos hzero] at hinit
    exact hinit ▸ ⟨hne, hc.resolve_left hne⟩

theorem turns_roundrobin (ht : p.type = .roundrobin) (hinit : s.initAddr = some init)
    (hnaddr : host env.order pd.naf s.naddr = place p.hostBits p.addr x)
    (hcounter : host env.order pd.naf s.counter = x + 1)
    (hreturn : NoReturn p (host env.order pd.naf init) (x + 1))
    (hclear : ∀ j < n, p.ClearAt (x + BitVec.ofNat _ (j + 1)))
    (hstop : ¬p.ClearAt (x + BitVec.ofNat _ (n + 1)))
    (hgo : p.hostBits = 0 → ∀ j < n, x + BitVec.ofNat _ (j + 1) ≠ 0) (i : Nat) :
    Turns env pd p i s (turns p.hostBits p.addr x 0 (n + 1)) := by
  induction n generalizing s x init i with
  | zero =>
    rw [turns_cons, ← hnaddr]
    refine .last fun s' hmap => ?_
    rw [roundrobin_error ht (hcounter ▸ hstop)] at hmap
    exact absurd hmap nofun
  | succ n ih =>
    have hnext (j : Nat) : x + 1 + BitVec.ofNat _ (j + 1) = x + BitVec.ofNat _ (j + 1 + 1) := by
      rw [BitVec.add_assoc, Nat.add_comm (j + 1)]
      exact congrArg _ (BitVec.ofNat_add 1 (j + 1)).symm
    have hc : p.ClearAt (x + 1) := hclear 0 (zero_lt_succ n)
    obtain ⟨s', init', hmap, hinit', heq, hcounter', hnaddr'⟩ :=
      roundrobin_step ht hinit (hcounter ▸ hc)
        (fun hk => hcounter ▸ hgo hk 0 (zero_lt_succ n)) (i + 1)
    rw [hcounter] at heq hcounter'
    rw [PrefixPool.position, hcounter] at hnaddr'
    have hout := hreturn.step hc heq
    have hback : cameBack pd s' = false := by
      rw [← Bool.not_eq_true, cameBack_iff hinit', hnaddr']
      exact fun hno => hout.2 (hno ▸ same_place _ _ _)
    rw [turns_cons, ← hnaddr]
    refine .next hmap hback (ih hinit' hnaddr' hcounter' (.inl hout) (fun j hj => ?_) ?_
      (fun hk j hj => ?_) (i + 1))
    · rw [hnext]
      exact hclear (j + 1) (succ_lt_succ hj)
    · rw [hnext]
      exact hstop
    · rw [hnext]
      exact hgo hk (j + 1) (succ_lt_succ hj)

theorem zero_or_lt_succ {x y : BitVec w} (h : x < y) : y + 1 = 0 ∨ x < y + 1 := by
  have hxy : x.toNat < y.toNat := h
  have hy := y.isLt
  have hone : (y + 1).toNat = (y.toNat + 1) % 2 ^ w := by
    rw [BitVec.toNat_add, show (1 : BitVec w).toNat = 1 % 2 ^ w from BitVec.toNat_ofNat 1 w,
      add_mod_mod]
  rcases Nat.lt_or_ge (y.toNat + 1) (2 ^ w) with hlt | hge
  · rw [mod_eq_of_lt hlt] at hone
    exact .inr (show x.toNat < (y + 1).toNat by omega)
  · rw [show y.toNat + 1 = 2 ^ w from Nat.le_antisymm hy hge, mod_self] at hone
    exact .inl (BitVec.eq_of_toNat_eq hone)

/-- A single address, a counter that is zero or on its way there, and a first address to which the
loop does not come back. -/
structure Endless (p : PrefixPool env.order pd.naf) (s : MapAddr) : Prop where
  single : p.hostBits = 0
  naddr : host env.order pd.naf s.naddr = p.addr
  counter : host env.order pd.naf s.counter = 0 ∨ p.addr < host env.order pd.naf s.counter
  initAddr : ∃ init, s.initAddr = some init ∧ host env.order pd.naf init ≠ p.addr

theorem Endless.no_return (h : Endless p s) : cameBack pd s = false := by
  obtain ⟨init, hinit, hne⟩ := h.initAddr
  rwa [← Bool.not_eq_true, cameBack_iff hinit, h.naddr]

theorem Endless.step (h : Endless p s) (ht : p.type = .roundrobin) (i : Nat) :
    ∃ s', sportMapAddr env pd p.toPfPool i s = .ok s' ∧ Endless p s' := by
  obtain ⟨init, hinit, hne⟩ := h.initAddr
  by_cases hzero : host env.order pd.naf s.counter = 0
  · obtain ⟨s', hmap, hinit', hcounter', hnaddr'⟩ := roundrobin_stuck ht h.single hzero i
    exact ⟨s', hmap, h.single, hnaddr', .inl (hcounter' ▸ hzero), init, hinit' ▸ hinit, hne⟩
  · have hgt := h.counter.resolve_left hzero
    have hclear : p.ClearAt (host env.order pd.naf s.counter) := .inr fun hmem => by
      rw [PrefixPool.Member, h.single, same_zero] at hmem
      exact BitVec.lt_irrefl _ (hmem ▸ hgt)
    obtain ⟨s', init', hmap, hinit', heq, hcounter', hnaddr'⟩ :=
      roundrobin_step ht hinit hclear (fun _ => hzero) i
    rw [PrefixPool.position, h.single, place_zero] at hnaddr'
    refine ⟨s', hmap, h.single, hnaddr', hcounter' ▸ zero_or_lt_succ hgt, init', hinit', ?_⟩
    rw [heq]
    split
    · exact fun hno => BitVec.lt_irrefl _ (hno ▸ hgt)
    · exact hne

theorem Endless.loop (h : Endless p s) (hproto : HasPorts pd) (hlh : low < high)
    (ht : p.type = .roundrobin) (htaken : ¬Free env pd low high p.addr) (n i : Nat) :
    sportLoop env pd p.toPfPool low high n i s = none := by
  induction n generalizing s i with
  | zero => rfl
  | succ n ih =>
    cases hturn : sportTurn env pd s.naddr (env.cutRand i) low high with
    | some r =>
      obtain ⟨port, -, hport⟩ := sportTurn_some hproto hlh hturn
      exact absurd ⟨s.naddr, port, h.naddr, hport⟩ htaken
    | none =>
      obtain ⟨s', hmap, hnext⟩ := h.step ht (i + 1)
      rw [sportLoop_succ_of_none (.inr ht) hturn, hmap]
      dsimp only
      rw [hnext.no_return, if_neg Bool.false_ne_true]
      exact ih hnext (i + 1)

end Roundrobin

section Correct

variable (env pd p)

/-- The call returns, and rightly so: an address of the prefix and a port of the range that are
free, or else, where the pool moves on, nothing is free. -/
def Correct (low high nport : BitVec 16) (naddr counter : PfAddr) : Prop :=
  ∃ m result, (∀ n, m ≤ n →
      pfGetSport env pd p.toPfPool n naddr nport counter low high = some result) ∧
    (∀ s nport, result = .ok (s, nport) → p.Member (host env.order pd.naf s.naddr) ∧
      ∃ port, nport = env.order.htons port ∧ FreePort env pd low high s.naddr port) ∧
    ∀ s, result = .error s → Moves p → ∀ a, p.Member a → ¬Free env pd low high a

def AllTaken (low high : BitVec 16) : Prop := ∀ a, p.Member a → ¬Free env pd low high a

def firstDrawn (counter : PfAddr) : BitVec pd.naf.bits :=
  p.position (randCounter env.order (env.rand 0) p.rmask counter pd.naf)

def Reaches (low high : BitVec 16) (x : BitVec pd.naf.bits) : Prop :=
  ∃ j, (∀ i ≤ j, p.ClearAt (x + BitVec.ofNat _ i)) ∧
    Free env pd low high (place p.hostBits p.addr (x + BitVec.ofNat _ j))

def Ends (x : BitVec pd.naf.bits) : Prop :=
  p.hostBits ≠ 0 ∨ x = 0 ∧ p.addr = 0 ∨ x ≠ 0 ∧ x ≤ p.addr

def Suited (low high : BitVec 16) (counter : PfAddr) : Prop :=
  match p.type with
  | .random =>
    firstDrawn env pd p counter ≠ 0 ∨ Free env pd low high (firstDrawn env pd p counter) ∨
      AllTaken env pd p low high
  | .roundrobin =>
    Reaches env pd p low high (host env.order pd.naf counter) ∨
      AllTaken env pd p low high ∧ Ends env pd p (host env.order pd.naf counter)
  | _ => True

end Correct

section First

def zeroAddr : PfAddr := ⟨0, 0, 0, 0⟩

theorem pfAzero_zeroAddr (af : PoolAf) : pfAzero zeroAddr af.af = true := by cases af <;> rfl

theorem host_zeroAddr (o : ByteOrder) (af : PoolAf) : host o af zeroAddr = 0 :=
  pfAzero_iff.mp (pfAzero_zeroAddr af)

theorem pfGetSport_eq (hproto : HasPorts pd) (n : Nat) :
    pfGetSport env pd p.toPfPool n naddr nport counter low high =
      match sportMapAddr env pd p.toPfPool 0 ⟨naddr, some zeroAddr, counter⟩ with
      | .error s => some (.error s)
      | .ok s => sportLoop env pd p.toPfPool low high n 0 s := by
  have hicmp : pd.proto ≠ ipprotoIcmp ∧ pd.proto ≠ ipprotoIcmpv6 := by
    rcases hproto with h | h <;> rw [h] <;> decide
  rw [pfGetSport, ← zeroAddr]
  cases sportMapAddr env pd p.toPfPool 0 ⟨naddr, some zeroAddr, counter⟩ with
  | error s => rfl
  | ok s => exact (if_neg hicmp.1).trans (if_neg hicmp.2)

theorem correct_of_error (hproto : HasPorts pd) (hmoves : Moves p)
    (h : sportMapAddr env pd p.toPfPool 0 ⟨naddr, some zeroAddr, counter⟩ = .error s) :
    Correct env pd p low high nport naddr counter ↔ AllTaken env pd p low high := by
  have hrun (n : Nat) : pfGetSport env pd p.toPfPool n naddr nport counter low high =
      some (.error s) := by
    rw [pfGetSport_eq hproto, h]
  constructor
  · rintro ⟨m, result, hresult, -, herror⟩
    have heq := (hrun m).symm.trans (hresult m le_rfl)
    exact herror s (Option.some.inj heq).symm hmoves
  · intro htaken
    exact ⟨0, .error s, fun n _ => hrun n, fun _ _ h => absurd h nofun, fun _ _ _ => htaken⟩

theorem correct_of_turns (hproto : HasPorts pd) (hlh : low < high) (hmoves : Moves p)
    (h : sportMapAddr env pd p.toPfPool 0 ⟨naddr, some zeroAddr, counter⟩ = .ok s)
    (hturns : Turns env pd p 0 s as) (hmember : ∀ a ∈ as, p.Member a) :
    Correct env pd p low high nport naddr counter ↔
      (∃ a ∈ as, Free env pd low high a) ∨ AllTaken env pd p low high := by
  obtain ⟨result, htries, hloop⟩ := hturns.tries hproto hlh hmoves
  have hrun (n : Nat) (hn : as.length ≤ n) :
      pfGetSport env pd p.toPfPool n naddr nport counter low high = some result := by
    rw [pfGetSport_eq hproto, h]
    exact hloop n hn
  constructor
  · rintro ⟨m, result', hresult, -, herror⟩
    have heq : result = result' := Option.some.inj
      ((hrun _ (Nat.le_max_left _ m)).symm.trans (hresult _ (Nat.le_max_right _ _)))
    cases hcase : result with
    | error s' => exact .inr (herror s' (heq ▸ hcase) hmoves)
    | ok pair =>
      obtain ⟨hmem, port, -, hport⟩ := htries.ok pair.1 pair.2 hcase
      exact .inl ⟨_, hmem, _, port, rfl, hport⟩
  · intro hfree
    refine ⟨as.length, result, hrun, fun s' nport' hok => ?_, fun s' herror _ => ?_⟩
    · obtain ⟨hmem, hport⟩ := htries.ok s' nport' hok
      exact ⟨hmember _ hmem, hport⟩
    · refine hfree.resolve_left fun ⟨a, ha, hfreeAt⟩ => ?_
      exact htries.error s' herror a ha hfreeAt

end First

section Cases

theorem suited_random (ht : p.type = .random) : Suited env pd p low high counter ↔
      firstDrawn env pd p counter ≠ 0 ∨ Free env pd low high (firstDrawn env pd p counter) ∨
        AllTaken env pd p low high := by
  simp only [Suited, ht]

theorem correct_random (hproto : HasPorts pd) (hlh : low < high) (ht : p.type = .random) :
    Correct env pd p low high nport naddr counter ↔ Suited env pd p low high counter := by
  obtain ⟨s, init, hmap, hinit, hsame, hcounter, hnaddr⟩ :=
    random_draw (s := ⟨naddr, some zeroAddr, counter⟩) ht rfl (pfAzero_zeroAddr _) 0
  have hdrawn : host env.order pd.naf s.naddr = firstDrawn env pd p counter := by
    rw [hnaddr, hcounter, firstDrawn]
  rw [suited_random ht]
  by_cases hzero : firstDrawn env pd p counter = 0
  · -- the first address looks as if there was none yet
    have hturns : Turns env pd p 0 s [firstDrawn env pd p counter] := by
      rw [← hdrawn]
      refine .last fun s' hmap' => ?_
      have hset : pfAzero init pd.naf.af = true :=
        pfAzero_iff.mpr (hsame.trans (hdrawn.trans hzero))
      obtain ⟨s'', init', hmap'', hinit', hsame', -, -⟩ := random_draw ht hinit hset 1
      rw [hmap''] at hmap'
      exact Except.ok.inj hmap' ▸ (cameBack_iff hinit').mpr hsame'
    have hmember : ∀ a ∈ [firstDrawn env pd p counter], p.Member a := fun a ha =>
      List.mem_singleton.mp ha ▸ p.member_position _
    rw [correct_of_turns hproto hlh (.inl ht) hmap hturns hmember]
    simp only [List.mem_singleton, exists_eq_left, hzero, ne_eq, not_true_eq_false, false_or]
  · have hset : pfAzero init pd.naf.af = false := by
      rw [← Bool.not_eq_true, pfAzero_iff (o := env.order), hsame, hdrawn]
      exact hzero
    have hall := turns_random (x := host env.order pd.naf s.counter) (j := 0)
      (n := 2 ^ p.hostBits - 1) ht hinit hset (hsame.trans hnaddr)
      (by have := Nat.two_pow_pos p.hostBits; omega) (by rw [BitVec.add_zero]; exact hnaddr)
      (BitVec.add_zero _).symm 0
    rw [Nat.sub_add_cancel (Nat.two_pow_pos p.hostBits)] at hall
    rw [correct_of_turns hproto hlh (.inl ht) hmap hall fun a => mem_turns_same]
    refine iff_of_true ?_ (.inl hzero)
    by_cases htaken : AllTaken env pd p low high
    · exact .inr htaken
    · simp only [AllTaken, not_forall, not_not] at htaken
      obtain ⟨a, ha, hfree⟩ := htaken
      exact .inl ⟨a, mem_turns p.hostBits_le ha 0, hfree⟩

theorem suited_roundrobin (ht : p.type = .roundrobin) : Suited env pd p low high counter ↔
      Reaches env pd p low high (host env.order pd.naf counter) ∨
        AllTaken env pd p low high ∧ Ends env pd p (host env.order pd.naf counter) := by
  simp only [Suited, ht]

theorem exists_stop (hclear : p.ClearAt x) {y : BitVec pd.naf.bits} (hy : ¬p.ClearAt y) :
    ∃ n, n < (y - x).toNat ∧ (∀ j ≤ n, p.ClearAt (x + BitVec.ofNat _ j)) ∧
      ¬p.ClearAt (x + BitVec.ofNat _ (n + 1)) := by
  classical
  have hexists : ∃ t, ¬p.ClearAt (x + BitVec.ofNat _ t) :=
    ⟨(y - x).toNat, by rwa [BitVec.ofNat_toNat, BitVec.setWidth_eq, add_sub_cancel]⟩
  have hfind := Nat.find_spec hexists
  have hle : Nat.find hexists ≤ (y - x).toNat :=
    Nat.find_min' hexists (by rwa [BitVec.ofNat_toNat, BitVec.setWidth_eq, add_sub_cancel])
  obtain ⟨n, hn⟩ : ∃ n, Nat.find hexists = n + 1 := by
    refine Nat.exists_eq_succ_of_ne_zero fun hzero => ?_
    rw [hzero, BitVec.add_zero] at hfind
    exact hfind hclear
  refine ⟨n, by omega, fun j hj => ?_, hn ▸ hfind⟩
  exact not_not.mp (Nat.find_min hexists (by omega))

theorem reaches_iff (hclear : ∀ j ≤ n, p.ClearAt (x + BitVec.ofNat _ j))
    (hstop : ¬p.ClearAt (x + BitVec.ofNat _ (n + 1))) : Reaches env pd p low high x ↔
      ∃ a ∈ turns p.hostBits p.addr x 0 (n + 1), Free env pd low high a := by
  constructor
  · rintro ⟨j, hbefore, hfree⟩
    have hj : j < n + 1 := Nat.lt_of_not_le fun hno => hstop (hbefore _ hno)
    exact ⟨_, mem_map.mpr ⟨j, mem_range'_1.mpr ⟨Nat.zero_le j, by omega⟩, rfl⟩, hfree⟩
  · rintro ⟨a, ha, hfree⟩
    obtain ⟨j, hj, rfl⟩ := mem_map.mp ha
    rw [mem_range'_1] at hj
    exact ⟨j, fun i hi => hclear i (by omega), hfree⟩

section

variable (hproto : HasPorts pd) (hlh : low < high)

include hproto hlh

theorem correct_roundrobin_stop (ht : p.type = .roundrobin)
    (hclear : ∀ j ≤ n, p.ClearAt (host env.order pd.naf counter + BitVec.ofNat _ j))
    (hstop : ¬p.ClearAt (host env.order pd.naf counter + BitVec.ofNat _ (n + 1)))
    (hgo : p.hostBits = 0 → ∀ j ≤ n, host env.order pd.naf counter + BitVec.ofNat _ j ≠ 0) :
    Correct env pd p low high nport naddr counter ↔
      Reaches env pd p low high (host env.order pd.naf counter) ∨ AllTaken env pd p low high := by
  have hfirst : p.ClearAt (host env.order pd.naf counter) := by
    have h := hclear 0 (Nat.zero_le n)
    rwa [BitVec.add_zero] at h
  have hmoves : p.hostBits = 0 → host env.order pd.naf counter ≠ 0 := fun hk => by
    have h := hgo hk 0 (Nat.zero_le n)
    rwa [BitVec.add_zero] at h
  obtain ⟨s, init, hmap, hinit, hset, hcounter, hnaddr⟩ :=
    roundrobin_step (s := ⟨naddr, some zeroAddr, counter⟩) ht rfl hfirst hmoves 0
  rw [host_zeroAddr, if_pos rfl] at hset
  have hreturn : NoReturn p (host env.order pd.naf init) (host env.order pd.naf counter + 1) := by
    rw [hset]
    by_cases hzero : host env.order pd.naf counter = 0
    · exact .inr ⟨hzero, by rw [hzero]; cases pd.naf <;> decide⟩
    · exact .inl ⟨hzero, hfirst.resolve_left hzero⟩
  have hturns := turns_roundrobin ht hinit hnaddr hcounter hreturn
    (fun j hj => hclear (j + 1) hj) hstop (fun hk j hj => hgo hk (j + 1) hj) 0
  rw [correct_of_turns hproto hlh (.inr ht) hmap hturns fun a => mem_turns_same,
    reaches_iff hclear hstop]

theorem sportTurn_isSome (h : Free env pd low high (host env.order pd.naf naddr)) :
    ∃ nport, sportTurn env pd naddr r low high = some nport := by
  cases hturn : sportTurn env pd naddr r low high with
  | some nport => exact ⟨nport, rfl⟩
  | none => exact absurd h (sportTurn_none hproto hlh hturn)

theorem correct_of_free
    (h : sportMapAddr env pd p.toPfPool 0 ⟨naddr, some zeroAddr, counter⟩ = .ok s)
    (hmember : p.Member (host env.order pd.naf s.naddr))
    (hfree : Free env pd low high (host env.order pd.naf s.naddr)) :
    Correct env pd p low high nport naddr counter := by
  obtain ⟨r, hturn⟩ := sportTurn_isSome (r := env.cutRand 0) hproto hlh hfree
  refine ⟨1, .ok (s, r), fun n hn => ?_, fun s' nport' hok => ?_, fun _ h => absurd h nofun⟩
  · obtain ⟨n, rfl⟩ := exists_eq_succ_of_ne_zero (Nat.ne_of_gt hn)
    rw [pfGetSport_eq hproto, h]
    exact sportLoop_succ_of_some hturn n
  · obtain ⟨rfl, rfl⟩ := Prod.mk.inj (Except.ok.inj hok)
    exact ⟨hmember, sportTurn_some hproto hlh hturn⟩

end

theorem ne_zero_of_lt {x y : BitVec w} (h : x < y) : y ≠ 0 := by
  rintro rfl
  exact BitVec.not_lt_zero h

theorem clearAt_of_single (hk : p.hostBits = 0) (h : x ≠ p.addr) : p.ClearAt x :=
  .inr fun hmem => by
    rw [PrefixPool.Member, hk, same_zero] at hmem
    exact h hmem

theorem endless_first (naddr : PfAddr) (ht : p.type = .roundrobin) (hk : p.hostBits = 0)
    (h : host env.order pd.naf counter = 0 ∧ p.addr ≠ 0 ∨ p.addr < host env.order pd.naf counter) :
    ∃ s, sportMapAddr env pd p.toPfPool 0 ⟨naddr, some zeroAddr, counter⟩ = .ok s ∧
      Endless p s := by
  rcases h with ⟨hzero, hne⟩ | hgt
  · obtain ⟨s, hmap, hinit, hcounter, hnaddr⟩ :=
      roundrobin_stuck (s := ⟨naddr, some zeroAddr, counter⟩) ht hk hzero 0
    refine ⟨s, hmap, hk, hnaddr, .inl (hcounter ▸ hzero), zeroAddr, hinit, ?_⟩
    rw [host_zeroAddr]
    exact hne.symm
  · have hclear : p.ClearAt (host env.order pd.naf counter) :=
      clearAt_of_single hk (BitVec.ne_of_lt hgt).symm
    obtain ⟨s, init, hmap, hinit, hset, hcounter, hnaddr⟩ :=
      roundrobin_step (s := ⟨naddr, some zeroAddr, counter⟩) ht rfl hclear
        (fun _ => ne_zero_of_lt hgt) 0
    rw [host_zeroAddr, if_pos rfl] at hset
    rw [PrefixPool.position, hk, place_zero] at hnaddr
    refine ⟨s, hmap, hk, hnaddr, hcounter ▸ zero_or_lt_succ hgt, init, hinit, ?_⟩
    rw [hset]
    exact (BitVec.ne_of_lt hgt).symm

section

variable (hproto : HasPorts pd) (hlh : low < high) (ht : p.type = .roundrobin) (hk : p.hostBits = 0)

include hproto hlh ht hk

theorem correct_endless (h : host env.order pd.naf counter = 0 ∧ p.addr ≠ 0 ∨
      p.addr < host env.order pd.naf counter) :
    Correct env pd p low high nport naddr counter ↔ Free env pd low high p.addr := by
  obtain ⟨s, hmap, hendless⟩ := endless_first naddr ht hk h
  constructor
  · rintro ⟨m, result, hresult, -, -⟩
    refine by_contra fun htaken => ?_
    have hsome := hresult m le_rfl
    rw [pfGetSport_eq hproto, hmap] at hsome
    exact absurd ((hendless.loop hproto hlh ht htaken m 0).symm.trans hsome) nofun
  · intro hfree
    refine correct_of_free hproto hlh hmap ?_ (hendless.naddr ▸ hfree)
    rw [hendless.naddr]
    exact Eq.refl _

theorem correct_zero (hzero : host env.order pd.naf counter = 0) (haddr : p.addr = 0) :
    Correct env pd p low high nport naddr counter ↔
      Free env pd low high p.addr ∨ AllTaken env pd p low high := by
  obtain ⟨s, hmap, hinit, hcounter, hnaddr⟩ :=
    roundrobin_stuck (s := ⟨naddr, some zeroAddr, counter⟩) ht hk hzero 0
  have hturns : Turns env pd p 0 s [p.addr] := by
    rw [← hnaddr]
    refine .last fun s' hmap' => ?_
    obtain ⟨s'', hmap'', hinit', -, hnaddr'⟩ :=
      roundrobin_stuck (s := s) ht hk (hcounter ▸ hzero) 1
    rw [hmap''] at hmap'
    rw [← Except.ok.inj hmap', cameBack_iff (hinit'.trans hinit), host_zeroAddr, hnaddr', haddr]
  have hmember : ∀ a ∈ [p.addr], p.Member a := fun a ha => mem_singleton.mp ha ▸ Eq.refl _
  rw [correct_of_turns hproto hlh (.inr ht) hmap hturns hmember]
  simp only [mem_singleton, exists_eq_left]

end

theorem reaches_single (hk : p.hostBits = 0) (hclear : p.ClearAt x) :
    Reaches env pd p low high x ↔ Free env pd low high p.addr := by
  constructor
  · rintro ⟨j, -, hfree⟩
    rwa [hk, place_zero] at hfree
  · intro hfree
    refine ⟨0, fun i hi => ?_, by rwa [hk, place_zero]⟩
    rw [le_zero.mp hi, BitVec.add_zero]
    exact hclear

theorem exists_not_clearAt (hk : p.hostBits ≠ 0) : ∃ y, ¬p.ClearAt y := by
  refine ⟨place p.hostBits p.addr 1, not_or.mpr ⟨fun hzero => ?_, not_not.mpr (same_place _ _ _)⟩⟩
  have hmod := place_mod p.hostBits p.addr 1
  have hone : (1 : BitVec pd.naf.bits).toNat = 1 := by cases pd.naf <;> rfl
  rw [hzero, hone, mod_eq_of_lt (Nat.one_lt_two_pow hk)] at hmod
  exact absurd hmod (by simp)

theorem add_ne_zero (hx : x ≠ 0) (hlt : x < a) (hj : j < (a - x).toNat) :
    x + BitVec.ofNat _ j ≠ 0 := by
  have hpos : x.toNat ≠ 0 := fun h => hx (BitVec.eq_of_toNat_eq h)
  rw [BitVec.toNat_sub_of_le (BitVec.le_of_lt hlt)] at hj
  intro hzero
  have hsum := congrArg BitVec.toNat hzero
  rw [BitVec.toNat_add, BitVec.toNat_ofNat, add_mod_mod, mod_eq_of_lt (by omega)] at hsum
  have hz : (0 : BitVec pd.naf.bits).toNat = 0 := BitVec.toNat_zero
  omega

section

variable (hproto : HasPorts pd) (hlh : low < high)

include hproto hlh

theorem correct_single_address (ht : p.type = .roundrobin) (hk : p.hostBits = 0)
    (hclear : p.ClearAt (host env.order pd.naf counter)) :
    Correct env pd p low high nport naddr counter ↔ Free env pd low high p.addr ∨
        AllTaken env pd p low high ∧ Ends env pd p (host env.order pd.naf counter) := by
  by_cases hzero : host env.order pd.naf counter = 0
  · by_cases haddr : p.addr = 0
    · have hends : Ends env pd p (host env.order pd.naf counter) := .inr (.inl ⟨hzero, haddr⟩)
      rw [and_iff_left hends, correct_zero hproto hlh ht hk hzero haddr]
    · have hends : ¬Ends env pd p (host env.order pd.naf counter) := by
        rintro (h | ⟨-, h⟩ | ⟨h, -⟩)
        · exact h hk
        · exact haddr h
        · exact h hzero
      rw [correct_endless hproto hlh ht hk (.inl ⟨hzero, haddr⟩)]
      exact ⟨.inl, fun h => h.resolve_right fun h => hends h.2⟩
  · have hne : host env.order pd.naf counter ≠ p.addr := fun h =>
      (hclear.resolve_left hzero) (h ▸ Eq.refl _)
    by_cases hle : host env.order pd.naf counter ≤ p.addr
    · have hlt := BitVec.lt_of_le_ne hle hne
      have haddr : ¬p.ClearAt p.addr := not_or.mpr ⟨ne_zero_of_lt hlt, not_not.mpr (Eq.refl _)⟩
      have hends : Ends env pd p (host env.order pd.naf counter) := .inr (.inr ⟨hzero, hle⟩)
      obtain ⟨n, hn, hbefore, hstop⟩ := exists_stop hclear haddr
      rw [and_iff_left hends, correct_roundrobin_stop hproto hlh ht hbefore hstop fun _ j hj =>
        add_ne_zero hzero hlt (Nat.lt_of_le_of_lt hj hn), reaches_single hk hclear]
    · have hends : ¬Ends env pd p (host env.order pd.naf counter) := by
        rintro (h | ⟨h, -⟩ | ⟨-, h⟩)
        · exact h hk
        · exact hzero h
        · exact hle h
      rw [correct_endless hproto hlh ht hk (.inr (BitVec.not_le.mp hle))]
      exact ⟨.inl, fun h => h.resolve_right fun h => hends h.2⟩

theorem correct_roundrobin (ht : p.type = .roundrobin) :
    Correct env pd p low high nport naddr counter ↔ Suited env pd p low high counter := by
  rw [suited_roundrobin ht]
  by_cases hclear : p.ClearAt (host env.order pd.naf counter)
  · by_cases hk : p.hostBits = 0
    · rw [reaches_single hk hclear, correct_single_address hproto hlh ht hk hclear]
    · have hends : Ends env pd p (host env.order pd.naf counter) := .inl hk
      obtain ⟨y, hy⟩ := exists_not_clearAt hk
      obtain ⟨n, -, hbefore, hstop⟩ := exists_stop hclear hy
      rw [correct_roundrobin_stop hproto hlh ht hbefore hstop fun h => absurd h hk,
        and_iff_left hends]
  · have hnever : ¬Reaches env pd p low high (host env.order pd.naf counter) := by
      rintro ⟨j, hbefore, -⟩
      have hfirst := hbefore 0 (Nat.zero_le j)
      rw [BitVec.add_zero] at hfirst
      exact hclear hfirst
    have hends : Ends env pd p (host env.order pd.naf counter) := by
      obtain ⟨hzero, hmember⟩ := not_or.mp hclear
      by_cases hk : p.hostBits = 0
      · rw [not_not, PrefixPool.Member, hk, same_zero] at hmember
        exact .inr (.inr ⟨hzero, BitVec.le_of_eq hmember⟩)
      · exact .inl hk
    rw [correct_of_error hproto (.inr ht) (roundrobin_error ht hclear 0), and_iff_left hends]
    exact ⟨.inr, fun h => h.resolve_left hnever⟩

theorem correct_single
    (ht : p.type = .none ∨ p.type = .bitmask) : Correct env pd p low high nport naddr counter := by
  have hmap : ∃ s, sportMapAddr env pd p.toPfPool 0 ⟨naddr, some zeroAddr, counter⟩ = .ok s ∧
      p.Member (host env.order pd.naf s.naddr) := by
    rcases ht with ht | ht
    · simp only [sportMapAddr, pfMapAddr, ht]
      refine ⟨_, rfl, ?_⟩
      rw [host_pfAddrcpy]
      exact Eq.refl _
    · simp only [sportMapAddr, pfMapAddr, ht]
      refine ⟨_, rfl, ?_⟩
      rw [p.host_pfPoolmask]
      exact p.member_position _
  obtain ⟨s, hmap, hmember⟩ := hmap
  cases hturn : sportTurn env pd s.naddr (env.cutRand 0) low high with
  | some r =>
    obtain ⟨port, -, hport⟩ := sportTurn_some hproto hlh hturn
    exact correct_of_free hproto hlh hmap hmember ⟨_, port, rfl, hport⟩
  | none =>
    refine ⟨1, .error s, fun n hn => ?_, fun _ _ h => absurd h (by simp), fun _ _ hmoves => ?_⟩
    · obtain ⟨n, rfl⟩ := exists_eq_succ_of_ne_zero (Nat.ne_of_gt hn)
      rw [pfGetSport_eq hproto, hmap]
      show sportLoop env pd p.toPfPool low high (n + 1) 0 s = _
      rw [sportLoop, hturn]
      rcases ht with ht | ht
      · simp only [ht]
      · simp only [ht]
    · rcases hmoves with h | h <;> rcases ht with ht | ht <;> exact absurd (ht.symm.trans h) (by simp)

end

end Cases

/-- For TCP and UDP, and for the pool types of a prefix that do not hash and do not count states. -/
theorem pf_get_sport_correct_iff (hproto : pd.proto = ipprotoTcp ∨ pd.proto = ipprotoUdp)
    (hlh : low < high)
    (ht : p.type = .none ∨ p.type = .bitmask ∨ p.type = .random ∨ p.type = .roundrobin)
    (nport : BitVec 16) (naddr counter : PfAddr) :
    Correct env pd p low high nport naddr counter ↔ Suited env pd p low high counter := by
  rcases ht with ht | ht | ht | ht
  · refine iff_of_true (correct_single hproto hlh (.inl ht)) ?_
    simp only [Suited, ht]
  · refine iff_of_true (correct_single hproto hlh (.inr ht)) ?_
    simp only [Suited, ht]
  · exact correct_random hproto hlh ht
  · exact correct_roundrobin hproto hlh ht

section Example

def natEnv (found : Bool) : SportEnv where
  order := .little
  hash := id
  pfFindStateAll _ _ := found
  baddynamicports := ⟨fun _ => false, fun _ => false, 4500⟩
  rand _ _ := 0
  cutRand _ := 0

def natDesc : NatDesc where
  naf := .inet
  nsaddr := ⟨0x0200a8c0, 0, 0, 0⟩
  ndaddr := ⟨0x010200c0, 0, 0, 0⟩
  nsport := 0x3930
  ndport := 0x5000
  proto := ipprotoTcp
  rdomain := 0
  dir := .outbound
  sidx := 1
  didx := 0
  sidx_ne_didx := by decide

def singlePool : PrefixPool .little .inet where
  type := .roundrobin
  raddr := ⟨0x0100000a, 0, 0, 0⟩
  rmask := ⟨0xffffffff, 0, 0, 0⟩
  states := 0
  hostBits := 0
  hostBits_le := by decide
  rmask_eq := by decide

theorem free_natEnv (a : BitVec 32) : Free (natEnv false) natDesc 50001 65535 a :=
  ⟨⟨ntohl .little a, 0, 0, 0⟩, 50001, ntohl_ntohl (o := .little) a, by decide, by decide, rfl, rfl⟩

/-- With an empty table the first address has a free port. -/
theorem pf_get_sport_first_address :
    Correct (natEnv false) natDesc roundrobinPool 50001 65535 0 zeroAddr zeroAddr := by
  refine (pf_get_sport_correct_iff (.inl rfl) (by decide) (.inr (.inr (.inr rfl))) 0 zeroAddr
    zeroAddr).mpr (.inl ⟨0, fun i hi => ?_, free_natEnv _⟩)
  rw [le_zero.mp hi]
  exact .inl (by decide)

/-- A single address whose ports are all taken is tried for ever, and a pool whose counter has
come to 10.0.0.0 gives up although nothing is taken. -/
theorem pf_get_sport_not_correct :
    ¬Correct (natEnv true) natDesc singlePool 50001 65535 0 zeroAddr zeroAddr ∧
      ¬Correct (natEnv false) natDesc roundrobinPool 50001 65535 0 zeroAddr
        ⟨0x0000000a, 0, 0, 0⟩ := by
  constructor
  · refine mt (correct_endless (.inl rfl) (by decide) rfl rfl (.inl ⟨by decide, by decide⟩)).mp ?_
    rintro ⟨naddr, port, -, hport⟩
    exact absurd hport.noState nofun
  · refine mt (correct_of_error (.inl rfl) (.inr rfl) rfl).mp fun htaken => ?_
    exact htaken _ (Eq.refl _) (free_natEnv roundrobinPool.addr)

end Example

end Mbsd.Net.PfLb
