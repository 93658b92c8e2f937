import Mbsd.Net80211.InputBa.Window

/-! What one call makes of the window, the ring and the frames that it hands up. -/

namespace Mbsd.Net80211.InputBa

open Lib.RingHeld List Option Function
open scoped List

variable {ba ba' : RxBa} {m : Mbuf} {rxi : Rxinfo} {out : List Up} {W W' W'' n : Nat}
  {acc acc' : List Up} {r r' : RxBa × List Up} {d c : Nat}

structure Window (ba : RxBa) (W : Nat) : Prop where
  ring : Ring ba W
  start : Starts ba W
  stop : Ends ba W

structure Call (ba : RxBa) (W : Nat) (acc : List Up) (r : RxBa × List Up) (W' : Nat) : Prop where
  window : Window r.1 W'
  le : W ≤ W'
  near : W' < W + 4096
  above : ∀ u ∈ r.2, W ≤ u.1.num
  below : ∀ u ∈ r.2, u.1.num < W'
  sorted : r.2.Pairwise fun u v => u.1.num < v.1.num
  kept : (acc ++ ba.buffered).Perm (r.2 ++ r.1.buffered)
  winsize : r.1.winsize = ba.winsize

theorem Moved.call (h : Moved n ba W ba' W' out) (hring : Ring ba W) (hstart : Starts ba' W')
    (hends : Ends ba' W') (hn : n < 4096) : Call ba W [] (ba', out) W' := by
  have hmem : ∀ u ∈ out, u ∈ ba.buffered := fun u hu => by
    rw [h.split]
    exact mem_append_left _ hu
  have hsorted := hring.pairwise
  rw [h.split] at hsorted
  have hnear := h.near
  exact ⟨⟨h.ring, hstart, hends⟩, h.le, by omega, fun u hu => (hring.mem (hmem u hu)).1, h.below,
    (pairwise_append.mp hsorted).1, by rw [h.split]; rfl, h.winsize⟩

namespace Call

theorem refl (h : Window ba W) : Call ba W [] (ba, []) W :=
  (Moved.refl h.ring).call h.ring h.start h.stop (by decide)

theorem trans (h : Call ba W acc r W') (h' : Call r.1 W' acc' r' W'') (hnear : W'' < W + 4096) :
    Call ba W (acc' ++ acc) (r'.1, r.2 ++ r'.2) W'' where
  window := h'.window
  le := h.le.trans h'.le
  near := hnear
  above u hu := by
    rcases mem_append.mp hu with hu | hu
    · exact h.above u hu
    · exact h.le.trans (h'.above u hu)
  below u hu := by
    rcases mem_append.mp hu with hu | hu
    · exact Nat.lt_of_lt_of_le (h.below u hu) h'.le
    · exact h'.below u hu
  sorted := pairwise_append.mpr ⟨h.sorted, h'.sorted, fun u hu v hv =>
    Nat.lt_of_lt_of_le (h.below u hu) (h'.above v hv)⟩
  kept := calc
    (acc' ++ acc) ++ ba.buffered = acc' ++ (acc ++ ba.buffered) := append_assoc ..
    _ ~ acc' ++ (r.2 ++ r.1.buffered) := h.kept.append_left acc'
    _ ~ r.2 ++ (acc' ++ r.1.buffered) := perm_append_comm_assoc ..
    _ ~ r.2 ++ (r'.2 ++ r'.1.buffered) := h'.kept.append_left r.2
    _ = (r.2 ++ r'.2) ++ r'.1.buffered := (append_assoc ..).symm
  winsize := h'.winsize.trans h.winsize

theorem of_congr (h : Call ba' W acc r W') (hbuf : ba'.buf = ba.buf) (hhead : ba'.head = ba.head)
    (hsize : ba'.winsize = ba.winsize) : Call ba W acc r W' :=
  { h with
    kept := RxBa.buffered_congr hbuf hhead ▸ h.kept
    winsize := h.winsize.trans hsize }

end Call

theorem Window.congr (h : Window ba W) (hbuf : ba'.buf = ba.buf) (hhead : ba'.head = ba.head)
    (hsize : ba'.winsize = ba.winsize) (hwait : ba'.gapwait = ba.gapwait)
    (hstart : ba'.winstart = ba.winstart) (hend : ba'.winend = ba.winend) : Window ba' W :=
  ⟨h.ring.congr hbuf hhead hsize hwait, hstart.trans h.start, by
    rw [Ends, hend, hsize]
    exact h.stop⟩

theorem inputBaFlush_call (h : Window ba W) :
    ∃ r W', inputBaFlush ba = some r ∧ Call ba W [] r W' ∧ W' ≤ W + 64 ∧ UpTo W W' r.2 ∧
      Gapless W W' r.2 := by
  obtain ⟨r, W', hrun, hmoved, hstart, hends, hupto⟩ := inputBaFlush_moved h.ring h.start h.stop
  exact ⟨r, W', hrun, hmoved.call h.ring hstart hends (by decide), hmoved.near, hupto⟩

theorem inputBaGapSkip_call (h : Window ba W) :
    ∃ W', Call ba W [] ((inputBaGapSkip ba).1, []) W' ∧ W' ≤ W + ba.winsize := by
  obtain ⟨W', hmoved, hstart, hends⟩ := inputBaGapSkip_moved h.ring h.start h.stop
  have hsize := h.ring.size
  have hmax : baMaxWinsz = 64 := rfl
  exact ⟨W', hmoved.call h.ring hstart hends (by omega), hmoved.near⟩

theorem inputBaGapTimeout_call (h : Window ba W) :
    ∃ r W', inputBaGapTimeout ba = some r ∧ Call ba W [] r W' := by
  have hclear : Window { ba with gapTo := false } W := h.congr rfl rfl rfl rfl rfl rfl
  obtain ⟨W', hskip, hnear⟩ := inputBaGapSkip_call hclear
  rw [inputBaGapTimeout]
  split
  · obtain ⟨r, W'', hrun, hflush, hnear', -⟩ := inputBaFlush_call hskip.window
    have hsize : ba.winsize ≤ 64 := h.ring.size
    have hsame : RxBa.winsize { ba with gapTo := false } = ba.winsize := rfl
    exact ⟨r, W'', hrun, (hskip.trans hflush (by omega)).of_congr rfl rfl rfl⟩
  · exact ⟨_, W', rfl, hskip.of_congr rfl rfl rfl⟩

theorem baMoveWindowLoop_jump (hring : Ring ba W) :
    let r := baMoveWindowLoop (if d > ba.winsize then ba.winsize else d) ba
    Moved d ba W r.1 (W + d) r.2 ∧ (ba.winsize ≤ d → r.1.buffered = []) := by
  intro r
  by_cases hd : ba.winsize ≤ d
  · have hcount : (if d > ba.winsize then ba.winsize else d) = ba.winsize := by
      split
      · rfl
      · omega
    have hmoved : Moved ba.winsize ba W r.1 (W + ba.winsize) r.2 := by
      rw [show r = baMoveWindowLoop ba.winsize ba from congrArg (baMoveWindowLoop · ba) hcount]
      exact baMoveWindowLoop_moved hring
    have hnil := hmoved.buffered_eq_nil hring
    refine ⟨⟨hmoved.ring.of_empty hnil _, Nat.le_add_right W d, Nat.le_refl _, fun u hu => ?_,
      hmoved.split, hmoved.winsize⟩, fun _ => hnil⟩
    have hbelow := hmoved.below u hu
    omega
  · have hcount : (if d > ba.winsize then ba.winsize else d) = d := by
      split
      · omega
      · rfl
    rw [show r = baMoveWindowLoop d ba from congrArg (baMoveWindowLoop · ba) hcount]
    exact ⟨baMoveWindowLoop_moved hring, fun hle => absurd hle hd⟩

theorem baMoveWindow_call (h : Window ba W) (hd : d < 2048) :
    ∃ r W', baMoveWindow ba ((W + d) % 4096) = some r ∧ Call ba W [] r W' ∧ W + d ≤ W' ∧
      (ba.winsize ≤ d → W' = W + d) := by
  have hstart : ba.winstart = W % 4096 := h.start
  have hcount : low12 (((W + d) % 4096 : Nat) - (ba.winstart : Nat)) = d := by
    rw [hstart, low12_sub (by omega) (by omega), Nat.add_sub_cancel_left]
  obtain ⟨hmoved, hnil⟩ := baMoveWindowLoop_jump (d := d) h.ring
  rw [baMoveWindow]
  rw [hcount]
  generalize baMoveWindowLoop _ ba = r at hmoved hnil ⊢
  have hset : Starts { r.1 with winstart := (W + d) % 4096 }.setWinend (W + d) := rfl
  have hmoved' : Moved d ba W { r.1 with winstart := (W + d) % 4096 }.setWinend (W + d) r.2 :=
    hmoved.congr rfl rfl rfl rfl
  have hends : Ends { r.1 with winstart := (W + d) % 4096 }.setWinend (W + d) :=
    Starts.ends rfl hmoved.ring.pos
  have hmove := hmoved'.call h.ring hset hends (by omega)
  obtain ⟨f, W', hrun, hflush, hnear, hupto, -⟩ := inputBaFlush_call hmove.window
  rw [hrun, map_some]
  refine ⟨_, W', rfl, hmove.trans hflush (by omega), hflush.le, fun hle => ?_⟩
  rcases hupto with hsame | ⟨u, hu, -⟩
  · exact hsame
  · have hmem : u ∈ r.1.buffered := hflush.kept.symm.subset (mem_append_left _ hu)
    rw [hnil hle] at hmem
    cases hmem

theorem barTid_call {ssn : Nat} (h : Window ba W) (hssn : ssn < 4096) :
    ∃ r W', barTid ba ssn = some r ∧ Call ba W [] r W' := by
  rw [barTid]
  split
  · next hlt =>
    have hstart : ba.winstart = W % 4096 := h.start
    rw [seqLt, low12, hstart] at hlt
    obtain ⟨d, hd, hpos⟩ : ∃ d < 2048, ssn = (W + d) % 4096 :=
      ⟨(ssn + 4096 - W % 4096) % 4096, by omega, by omega⟩
    obtain ⟨r, W', hrun, hcall, -, -⟩ := baMoveWindow_call h hd
    rw [hpos]
    exact ⟨r, W', hrun, hcall⟩
  · exact ⟨_, W, rfl, Call.refl h⟩

def taken (m : Mbuf) (rxi : Rxinfo) (stored : Bool) : List Up :=
  if stored then [(m, { rxi with rxiFlags := rxi.rxiFlags ||| rxiAmpduDone })] else []

theorem call_store (h : Window ba W) (hd : d < ba.winsize) (hnum : m.num = W + d)
    (hempty : (ba.buf ((ba.head + d) % baMaxWinsz)).m = none)
    (hbuf : ba'.buf = update ba.buf ((ba.head + d) % baMaxWinsz) ⟨some m, rxi⟩)
    (hhead : ba'.head = ba.head) (hsize : ba'.winsize = ba.winsize)
    (hwait : ba'.gapwait = ba.gapwait + 1) (hstart : ba'.winstart = ba.winstart)
    (hend : ba'.winend = ba.winend) : Call ba W [(m, rxi)] (ba', []) W := by
  have hlt : d < baMaxWinsz := Nat.lt_of_lt_of_le hd h.ring.size
  have hcells : ba'.cells =
      update ba.cells ((ba.head + d) % baMaxWinsz) (some (m, rxi)) := by
    funext i
    rw [RxBa.cells, hbuf, update_apply, update_apply]
    split <;> rfl
  have hcell : ba.cells ((ba.head + d) % baMaxWinsz) = none := by
    rw [RxBa.cells, hempty]
    rfl
  have hkept : ba'.buffered.Perm ((m, rxi) :: ba.buffered) := by
    rw [RxBa.buffered, hcells, hhead]
    exact held_store hlt hcell
  have hring : Ring ba' W := by
    refine ⟨hsize ▸ h.ring.pos, hsize ▸ h.ring.size, hhead ▸ h.ring.head, fun e he u hu => ?_, ?_⟩
    · rw [hcells, hhead, update_apply] at hu
      rw [hsize]
      split at hu
      · next hpos =>
        obtain rfl := cell_inj he hlt hpos
        obtain rfl := some.inj hu
        exact ⟨hd, hnum⟩
      · exact h.ring.slot e he u hu
    · rw [hwait, h.ring.wait, hkept.length_eq, length_cons, Nat.cast_add_one]
  exact ⟨⟨hring, hstart.trans h.start, by rw [Ends, hend, hsize]; exact h.stop⟩, Nat.le_refl W,
    Nat.lt_add_of_pos_right (by decide), (by simp), (by simp), Pairwise.nil, hkept.symm, hsize⟩

structure Stored (ba : RxBa) (W : Nat) (m : Mbuf) (rxi : Rxinfo) (r : RxBa × List Up × Bool)
    (W' : Nat) : Prop where
  call : Call ba W (taken m rxi r.2.2) (r.1, r.2.1) W'
  near : W' ≤ W + 64
  gapless : ∀ x, W ≤ x → x < W' → x = m.num ∨ ba.Has x
  stored : r.2.2 = true ↔ ¬ba.Has m.num
  timed : Timed r.1

theorem Call.has_of_gapless (h : Call ba W acc r W') (hgapless : Gapless W W' r.2) {x : Nat}
    (hlo : W ≤ x) (hhi : x < W') : (∃ u ∈ acc, u.1.num = x) ∨ ba.Has x := by
  obtain ⟨u, hu, hnum⟩ := hgapless x hlo hhi
  rcases mem_append.mp (h.kept.symm.subset (mem_append_left _ hu)) with hu | hu
  · exact .inl ⟨u, hu, hnum⟩
  · exact .inr ⟨u, hu, hnum⟩

theorem inputBaStore_flush (h : Call ba W (taken m rxi true) (ba', []) W) (hnew : ¬ba.Has m.num) :
    ∃ r W', (inputBaFlush ba').map (fun f => (f.1, f.2, true)) = some r ∧
      Stored ba W m rxi r W' := by
  obtain ⟨f, W', hrun, hflush, hnear, -, hgapless⟩ := inputBaFlush_call h.window
  have hpos : 0 < ba'.gapwait := by
    have hmem := h.kept.subset (mem_append_left _ (mem_singleton_self _))
    exact h.window.ring.gapwait_pos.mpr ⟨_, hmem⟩
  have htimed : Timed f.1 :=
    (inputBaFlush_timed h.window.ring h.window.start hrun).mpr fun _ _ => hpos
  rw [hrun, map_some]
  refine ⟨_, W', rfl, h.trans hflush (by omega), hnear, fun x hlo hhi => ?_,
    iff_of_true rfl hnew, htimed⟩
  refine ((h.trans hflush (by omega)).has_of_gapless hgapless hlo hhi).imp_left ?_
  rintro ⟨u, hu, rfl⟩
  rw [nil_append] at hu
  rw [mem_singleton.mp hu]

theorem inputBaStore_call (h : Window ba W) (rxi : Rxinfo) (hlo : W ≤ m.num)
    (hhi : m.num < W + ba.winsize) :
    ∃ r W', inputBaStore ba m rxi = some r ∧ Stored ba W m rxi r W' := by
  obtain ⟨d, hnum⟩ := Nat.exists_eq_add_of_le hlo
  have hd : d < ba.winsize := by omega
  have hsize : ba.winsize ≤ 64 := h.ring.size
  have hstart : ba.winstart = W % 4096 := h.start
  have hidx : low12 ((m.sn : Int) - (ba.winstart : Nat)) = d := by
    rw [sn_eq, hstart, low12_sub hlo (by omega), hnum, Nat.add_sub_cancel_left]
  have hzero : Window { ba with winmiss := 0, missedsn := 0 } W :=
    h.congr rfl rfl rfl rfl rfl rfl
  have hhas : ba.Has m.num ↔ (ba.buf ((ba.head + d) % baMaxWinsz)).m ≠ none :=
    hnum ▸ h.ring.has_slot (Nat.lt_of_lt_of_le hd h.ring.size)
  rw [inputBaStore]
  rw [hidx]
  split
  · next hfull =>
    have hbusy := hhas.mpr hfull
    obtain ⟨u, hu, -⟩ := id hbusy
    exact ⟨_, W, rfl, (Call.refl hzero).of_congr rfl rfl rfl, Nat.le_add_right W 64,
      fun _ hlo hhi => by omega, iff_of_false nofun (not_not.mpr hbusy),
      fun _ => h.ring.gapwait_pos.mpr ⟨u, hu⟩⟩
  · next hempty =>
    exact inputBaStore_flush (call_store h hd hnum (not_not.mp hempty)
      (by split <;> rfl) (by split <;> rfl) (by split <;> rfl) (by split <;> rfl)
      (by split <;> rfl) (by split <;> rfl)) (mt hhas.mp hempty)

theorem sn_sub_winend (h : Window ba W) (hnum : m.num = W + ba.winsize + c)
    (hc : c < 2048) : low12 ((m.sn : Int) - (ba.winend : Nat)) = c + 1 := by
  have hpos := h.ring.pos
  rw [sn_eq, show ba.winend = (W + ba.winsize - 1) % 4096 from h.stop,
    low12_sub (by omega) (by omega)]
  omega

theorem inputBaAbove_near (h : Window ba W) (hnum : m.num = W + ba.winsize + c)
    (hc : c + 1 ≤ ba.winsize) :
    ∃ r W₁ W₂, inputBaAbove ba m.sn = some (r.1, r.2, true) ∧ Call ba W [] r W₂ ∧
      W + (c + 1) ≤ W₁ ∧ W₁ ≤ W₂ ∧ W₂ ≤ W + ba.winsize ∧
      (W₁ = W + (c + 1) ↔ ba.Has (W + (c + 1)) ∨ c + 1 = ba.winsize) ∧
      ∀ x, W₁ ≤ x → x < W₂ → ba.Has x := by
  have hsize : ba.winsize ≤ 64 := h.ring.size
  have hstart : ba.winstart = W % 4096 := h.start
  have hcount := sn_sub_winend h hnum (by omega)
  have hmax : low12 ((ba.winstart : Int) + (c + 1 : Nat)) = (W + (c + 1)) % 4096 := by
    rw [low12, hstart]
    omega
  rw [inputBaAbove]
  dsimp only
  rw [hcount, if_neg (Nat.not_lt.mpr hc)]
  obtain ⟨W₁, hmoved, hstart', hends, hend, hexact⟩ :=
    inputBaSeq_moved (M := W + (c + 1)) h.ring h.start (by omega) (by omega)
  have hseq := hmoved.call h.ring hstart' hends (by omega)
  have hle := hmoved.near
  obtain ⟨f, W₂, hrun, hflush, -, hupto, hgapless⟩ := inputBaFlush_call hseq.window
  have hmem {u : Up} (hu : u ∈ f.2) : u ∈ ba.buffered := by
    rw [hmoved.split]
    exact mem_append_right _ (hflush.kept.symm.subset (mem_append_left _ hu))
  rw [hmax, hrun, map_some]
  have hlast : W₂ ≤ W + ba.winsize := by
    rcases hupto with rfl | ⟨u, hu, rfl⟩
    · exact hle
    · exact (h.ring.mem (hmem hu)).2
  have hfirst := hflush.le
  refine ⟨_, W₁, W₂, rfl, hseq.trans hflush (by omega), by omega, hfirst, hlast, ?_,
    fun x hlo hhi => ?_⟩
  · rw [hexact (Nat.le_add_right ..), and_iff_left (by omega), Nat.add_left_cancel_iff]
  · obtain ⟨u, hu, hx⟩ := hgapless x hlo hhi
    exact ⟨u, hmem hu, hx⟩

theorem inputBaAbove_call (h : Window ba W) (hlo : W + ba.winsize ≤ m.num)
    (hhi : m.num < W + 2048) :
    ∃ r W', inputBaAbove ba m.sn = some r ∧ Call ba W [] (r.1, r.2.1) W' ∧
      (r.2.2 = true → W' ≤ m.num ∧ m.num < W' + ba.winsize) ∧
      (r.2.2 ≠ true → Timed ba → Timed r.1) := by
  obtain ⟨c, hnum⟩ := Nat.exists_eq_add_of_le hlo
  have hpos := h.ring.pos
  by_cases hfar : c + 1 > ba.winsize
  · have hcount := sn_sub_winend h hnum (by omega)
    rw [inputBaAbove]
    rw [hcount, if_pos hfar]
    split
    · generalize hmiss : ({ ba with winmiss := _, missedsn := _ } : RxBa) = ba'
      have hwindow : Window ba' W := by
        refine h.congr ?_ ?_ ?_ ?_ ?_ ?_ <;> rw [← hmiss]
      refine ⟨_, W, rfl, (Call.refl hwindow).of_congr ?_ ?_ ?_, nofun, fun _ htimed => ?_⟩
      all_goals rw [← hmiss]
      exact htimed
    · have hzero : Window { ba with winmiss := 0, missedsn := 0 } W :=
        h.congr rfl rfl rfl rfl rfl rfl
      obtain ⟨r, W', hrun, hcall, -, hexact⟩ :=
        baMoveWindow_call (d := ba.winsize + c) hzero (by omega)
      rw [sn_eq, hnum, Nat.add_assoc, hrun, map_some]
      have hW' : W' = W + (ba.winsize + c) := hexact (Nat.le_add_right _ _)
      exact ⟨_, W', rfl, hcall.of_congr rfl rfl rfl, fun _ => by omega, fun h => absurd rfl h⟩
  · obtain ⟨r, W₁, W₂, hrun, hcall, hfirst, hle, hlast, -⟩ :=
      inputBaAbove_near h hnum (Nat.not_lt.mp hfar)
    exact ⟨_, W₂, hrun, hcall, fun _ => by omega, fun h => absurd rfl h⟩

theorem inputBa_call (h : Window ba W) (rxi : Rxinfo) (hlo : W < m.num + 2048)
    (hhi : m.num < W + 2048) :
    ∃ r W', inputBa ba m rxi = some r ∧ Call ba W (taken m rxi r.2.2) (r.1, r.2.1) W' ∧
      (Timed ba → Timed r.1) := by
  have hpos := h.ring.pos
  have hsize : ba.winsize ≤ 64 := h.ring.size
  have hstart : ba.winstart = W % 4096 := h.start
  have hend : ba.winend = (W + ba.winsize - 1) % 4096 := h.stop
  rw [inputBa, hstart, hend, sn_eq]
  simp only [seqLt_iff hhi hlo]
  split
  · exact ⟨_, W, rfl, Call.refl h, id⟩
  · next hge =>
    have hstop : seqLt ((W + ba.winsize - 1) % 4096) (m.num % 4096) ↔ W + ba.winsize - 1 < m.num :=
      seqLt_iff (by omega) (by omega)
    simp only [hstop]
    split
    · next hgt =>
      obtain ⟨r, W', hrun, hcall, hin, htimed⟩ := inputBaAbove_call (m := m) h (by omega) hhi
      rw [← sn_eq, hrun]
      simp only [bind_eq_bind, bind_some]
      split
      · next hkept =>
        obtain ⟨hlo', hhi'⟩ := hin hkept
        have hwin : r.1.winsize = ba.winsize := hcall.winsize
        obtain ⟨s, W'', hrun', hstored⟩ :=
          inputBaStore_call hcall.window rxi hlo' (hwin ▸ hhi')
        have hnear := hstored.near
        rw [hrun', map_some]
        refine ⟨_, W'', rfl, ?_, fun _ => hstored.timed⟩
        have htrans := hcall.trans hstored.call (by omega)
        rwa [append_nil] at htrans
      · next hdrop =>
        refine ⟨_, W', rfl, ?_, htimed hdrop⟩
        rwa [taken, if_neg hdrop]
    · have hlo' : W ≤ m.num := by omega
      obtain ⟨r, W', hrun, hstored⟩ := inputBaStore_call h rxi hlo' (by omega)
      exact ⟨r, W', hrun, hstored.call, fun _ => hstored.timed⟩

/-! Sessions of received frames, BlockAckReqs and gap timeouts in any order. -/

variable {ba : RxBa} {rxi : Rxinfo} {W W' bufsz : Nat} {acc : List Up} {r : RxBa × List Up}

inductive Event where
  | frame (m : Mbuf) (rxi : Rxinfo)
  | bar (ssn : Nat)
  | gapTimeout

/-- A session.  `start` is the number, without its high bits cut off, of the frame that
`ba_winstart` stands for, `up` has the frames that were handed up, `accepted` those that the
buffer has taken. -/
structure Session where
  ba : RxBa
  start : Nat
  up : List Up
  accepted : List Up

namespace Session

variable {s s' : Session} {e : Event}

def init (ba : RxBa) (bufsz W : Nat) : Session := ⟨recvAddbaReq ba bufsz (W % 4096), W, [], []⟩

def next (s : Session) (ba : RxBa) (out acc : List Up) : Session where
  ba := ba
  start := s.start + low12 (ba.winstart - s.ba.winstart)
  up := s.up ++ out
  accepted := s.accepted ++ acc

def step (s : Session) : Event → Option Session
  | .frame m rxi => (inputBa s.ba m rxi).map fun r => s.next r.1 r.2.1 (taken m rxi r.2.2)
  | .bar ssn => (barTid s.ba ssn).map fun r => s.next r.1 r.2 []
  | .gapTimeout => (inputBaGapTimeout s.ba).map fun r => s.next r.1 r.2 []

/-- What may be received: a frame less than half a round from the window start, and a BlockAckReq
with a starting sequence number of twelve bits. -/
def Admits (s : Session) : Event → Prop
  | .frame m _ => s.start < m.num + 2048 ∧ m.num < s.start + 2048
  | .bar ssn => ssn < 4096
  | .gapTimeout => True

inductive Reachable : Session → Prop
  | init (ba : RxBa) (bufsz W : Nat) : Reachable (init ba bufsz W)
  | step {s s' : Session} {e : Event} (h : Reachable s) (hadmits : s.Admits e)
      (hstep : s.step e = some s') : Reachable s'

structure Good (s : Session) : Prop where
  window : Window s.ba s.start
  below : ∀ u ∈ s.up, u.1.num < s.start
  sorted : s.up.Pairwise fun u v => u.1.num < v.1.num
  kept : s.accepted.Perm (s.up ++ s.ba.buffered)

theorem recvAddbaReq_winsize (ba : RxBa) (bufsz ssn : Nat) :
    1 ≤ (recvAddbaReq ba bufsz ssn).winsize ∧ (recvAddbaReq ba bufsz ssn).winsize ≤ 64 := by
  by_cases hout : bufsz = 0 ∨ bufsz > baMaxWinsz
  · simp only [recvAddbaReq, if_pos hout, RxBa.setWinend]
    decide
  · simp only [recvAddbaReq, if_neg hout, RxBa.setWinend]
    have hmax : baMaxWinsz = 64 := rfl
    omega

theorem recvAddbaReq_gapwait (ba : RxBa) (bufsz ssn : Nat) :
    (recvAddbaReq ba bufsz ssn).gapwait = 0 := by
  rw [recvAddbaReq]
  split <;> rfl

theorem good_init (ba : RxBa) (bufsz W : Nat) : (init ba bufsz W).Good := by
  have hsize := recvAddbaReq_winsize ba bufsz (W % 4096)
  have hempty : (recvAddbaReq ba bufsz (W % 4096)).buffered = [] := rfl
  have hstart : Starts (recvAddbaReq ba bufsz (W % 4096)) W := rfl
  have hring : Ring (recvAddbaReq ba bufsz (W % 4096)) W := by
    refine ⟨hsize.1, hsize.2, Nat.zero_lt_succ 63, fun d _ u hu => ?_, ?_⟩
    · have hu : none = some u := hu
      cases hu
    · rw [hempty, recvAddbaReq_gapwait]
      rfl
  have hends : Ends (recvAddbaReq ba bufsz (W % 4096)) W := hstart.ends hsize.1
  exact ⟨⟨hring, hstart, hends⟩, nofun, Pairwise.nil, Perm.nil⟩

theorem next_start (h : s.Good) (hcall : Call s.ba s.start acc r W') (out : List Up) :
    (s.next r.1 out acc).start = W' := by
  have hold : s.ba.winstart = s.start % 4096 := h.window.start
  have hnew : r.1.winstart = W' % 4096 := hcall.window.start
  show s.start + low12 (r.1.winstart - s.ba.winstart) = W'
  rw [hold, hnew, low12_sub hcall.le hcall.near, Nat.add_sub_cancel' hcall.le]

theorem Good.next (h : s.Good) (hcall : Call s.ba s.start acc r W') :
    (s.next r.1 r.2 acc).Good := by
  refine ⟨?_, ?_, ?_, ?_⟩
  · rw [next_start h hcall]
    exact hcall.window
  · intro u hu
    rw [next_start h hcall]
    rcases mem_append.mp hu with hu | hu
    · exact Nat.lt_of_lt_of_le (h.below u hu) hcall.le
    · exact hcall.below u hu
  · exact pairwise_append.mpr ⟨h.sorted, hcall.sorted, fun u hu v hv =>
      Nat.lt_of_lt_of_le (h.below u hu) (hcall.above v hv)⟩
  · show (s.accepted ++ acc).Perm ((s.up ++ r.2) ++ r.1.buffered)
    calc
      (s.accepted ++ acc).Perm ((s.up ++ s.ba.buffered) ++ acc) := h.kept.append_right acc
      Perm _ (s.up ++ (acc ++ s.ba.buffered)) := by
        rw [append_assoc]
        exact perm_append_comm.append_left s.up
      Perm _ (s.up ++ (r.2 ++ r.1.buffered)) := hcall.kept.append_left s.up
      _ = (s.up ++ r.2) ++ r.1.buffered := (append_assoc ..).symm

theorem Good.step (h : s.Good) (hadmits : s.Admits e) : ∃ s', s.step e = some s' ∧ s'.Good := by
  cases e with
  | frame m rxi =>
    obtain ⟨r, W', hrun, hcall, -⟩ := inputBa_call h.window rxi hadmits.1 hadmits.2
    rw [Session.step, hrun]
    exact ⟨_, rfl, h.next hcall⟩
  | bar ssn =>
    obtain ⟨r, W', hrun, hcall⟩ := barTid_call h.window hadmits
    rw [Session.step, hrun]
    exact ⟨_, rfl, h.next hcall⟩
  | gapTimeout =>
    obtain ⟨r, W', hrun, hcall⟩ := inputBaGapTimeout_call h.window
    rw [Session.step, hrun]
    exact ⟨_, rfl, h.next hcall⟩

theorem Reachable.good (h : Reachable s) : s.Good := by
  induction h with
  | init ba bufsz W => exact good_init ba bufsz W
  | step h hadmits hstep ih =>
    obtain ⟨s', hrun, hgood⟩ := ih.step hadmits
    obtain rfl := Option.some.inj (hstep.symm.trans hrun)
    exact hgood

/-- Frames are handed up in their order and at most once, and none that was accepted is lost. -/
theorem inputBa_in_order (h : Reachable s) : s.ba.winstart = s.start % 4096 ∧
    s.ba.winend = (s.ba.winstart + s.ba.winsize - 1) % 4096 ∧
    (1 ≤ s.ba.winsize ∧ s.ba.winsize ≤ baMaxWinsz) ∧
    (∀ d < baMaxWinsz, ∀ m, (s.ba.buf ((s.ba.head + d) % baMaxWinsz)).m = some m →
      d < s.ba.winsize ∧ m.num = s.start + d) ∧ s.ba.gapwait = s.ba.buffered.length ∧
    s.up.Pairwise (fun u v => u.1.num < v.1.num) ∧
    (s.up.map Prod.fst).Nodup ∧ s.accepted.Perm (s.up ++ s.ba.buffered) ∧
    ∀ e, s.Admits e → ∃ s', s.step e = some s' := by
  have hgood := h.good
  have hstart : s.ba.winstart = s.start % 4096 := hgood.window.start
  have hends : s.ba.winend = (s.start + s.ba.winsize - 1) % 4096 := hgood.window.stop
  have hring := hgood.window.ring
  have hpos := hring.pos
  refine ⟨hstart, ?_, ⟨hpos, hring.size⟩, fun d hd m hm => ?_, hring.wait, hgood.sorted, ?_,
    hgood.kept, fun e hadmits => ?_⟩
  · rw [hends, hstart]
    omega
  · refine hring.slot d hd (m, (s.ba.buf ((s.ba.head + d) % baMaxWinsz)).rxi) ?_
    rw [RxBa.cells, hm, Option.map_some]
  · refine pairwise_map.mpr (hgood.sorted.imp fun {u v} hlt heq => ?_)
    rw [heq] at hlt
    exact Nat.lt_irrefl _ hlt
  · obtain ⟨s', hrun, -⟩ := hgood.step hadmits
    exact ⟨s', hrun⟩

def ba0 : RxBa := ⟨fun _ => ⟨none, 0, 0, 0, 0⟩, 0, 0, 0, 0, false, 0, 0, 0⟩

/-- The second frame of a window that is about to wrap comes, and the gap before it times out. -/
theorem inputBa_in_order_wrapped :
    ∃ s, Reachable s ∧ s.ba.winstart = 1 ∧ s.up.map (·.1.num) = [4096] ∧
      s.ba.winend = (s.ba.winstart + s.ba.winsize - 1) % 4096 ∧
      s.up.Pairwise (fun u v => u.1.num < v.1.num) ∧ s.accepted.Perm (s.up ++ s.ba.buffered) := by
  have hframe : (init ba0 4 4095).Admits (.frame ⟨4096, 0⟩ ⟨0, 0, 0, 0⟩) := by
    unfold Admits
    decide
  have hreach := ((Reachable.init ba0 4 4095).step hframe rfl).step (e := .gapTimeout) trivial rfl
  obtain ⟨-, hends, -, -, -, hsorted, -, hkept, -⟩ := inputBa_in_order hreach
  exact ⟨_, hreach, rfl, rfl, hends, hsorted, hkept⟩

end Session

end Mbsd.Net80211.InputBa
