import Mbsd.Net80211.InputBa.Runs

/-! How far the window moves, and when the gap timer is pending. -/

namespace Mbsd.Net80211.InputBa

open List Option

variable {ba ba' : RxBa} {m m' : Mbuf} {rxi : Rxinfo} {W W₁ W' n d : Nat} {x : Nat}

theorem Window.seqLt_start (h : Window ba W) (hlo : W ≤ m.num) (hhi : m.num < W + 2048) :
    ¬seqLt m.sn ba.winstart := by
  rw [sn_eq, show ba.winstart = W % 4096 from h.start, seqLt_iff (by omega) (by omega)]
  omega

theorem Window.seqLt_end (h : Window ba W) (hlo : W ≤ m.num) (hhi : m.num < W + 2048) :
    seqLt ba.winend m.sn ↔ W + ba.winsize ≤ m.num := by
  have hpos := h.ring.pos
  have hsize : ba.winsize ≤ 64 := h.ring.size
  rw [sn_eq, show ba.winend = (W + ba.winsize - 1) % 4096 from h.stop,
    seqLt_iff (by omega) (by omega)]
  omega

theorem inputBa_stored (h : Window ba W) (rxi : Rxinfo) (hlo : W ≤ m.num)
    (hhi : m.num < W + ba.winsize) (hnew : ¬ba.Has m.num) :
    ∃ r, inputBa ba m rxi = some r ∧ r.2.2 = true := by
  have hsize : ba.winsize ≤ 64 := h.ring.size
  have hbelow := h.seqLt_start hlo (by omega)
  have habove : ¬seqLt ba.winend m.sn := by
    rw [h.seqLt_end hlo (by omega)]
    omega
  obtain ⟨r, W', hrun, hstored⟩ := inputBaStore_call h rxi hlo hhi
  rw [inputBa, if_neg hbelow, if_neg habove]
  exact ⟨r, hrun, hstored.stored.mpr hnew⟩

/-- The window moves to the frame `ba_winsize - 1` before `m`, and then only over frames that are
in the buffer; no later frame of this window is lost. -/
def MovesAsNeeded (ba : RxBa) (m : Mbuf) (ba' : RxBa) : Prop :=
  ∃ n : Nat, ba'.winstart = low12 (m.sn - ba.winsize + 1 + n) ∧
    (∀ x, m.num + 1 - ba.winsize ≤ x → x < m.num + 1 - ba.winsize + n → x = m.num ∨ ba.Has x) ∧
    ∀ m' rxi, m.num + 1 - ba.winsize ≤ m'.num → m'.num < m.num + 1 + n → m'.num ≠ m.num →
      ¬ba.Has m'.num → ∃ r, inputBa ba' m' rxi = some r ∧ r.2.2 = true

theorem num_of_above (h : Window ba W) (hlo : W < m.num + 2048) (hhi : m.num < W + 2048)
    (hd : low12 ((m.sn : Int) - (ba.winend : Nat)) = d) (hpos : 1 ≤ d) (hle : d ≤ ba.winsize) :
    m.num = W + ba.winsize + (d - 1) := by
  have hsize : ba.winsize ≤ 64 := h.ring.size
  rw [sn_eq, show ba.winend = (W + ba.winsize - 1) % 4096 from h.stop, low12] at hd
  omega

/-- The window goes to `W₁` for the frame, and from there over frames that are in the buffer. -/
structure Slid (ba : RxBa) (W : Nat) (m : Mbuf) (d : Nat) (ba' : RxBa) (W₁ W' : Nat) : Prop where
  window : Window ba' W'
  le : W₁ ≤ W'
  near : W' ≤ W + 128
  min : W + d ≤ W₁
  exact : W₁ = W + d ↔ d = ba.winsize ∨ ba.Has (W + d)
  gapless : ∀ x, W₁ ≤ x → x < W' → x = m.num ∨ ba.Has x
  has : ∀ x, ba'.Has x → x = m.num ∨ ba.Has x
  winsize : ba'.winsize = ba.winsize

theorem Call.has_left {r : RxBa × List Up} {acc : List Up} (h : Call ba W acc r W')
    (hx : r.1.Has x) : (∃ u ∈ acc, u.1.num = x) ∨ ba.Has x := by
  obtain ⟨u, hu, hx⟩ := hx
  rcases mem_append.mp (h.kept.symm.subset (mem_append_right _ hu)) with hu | hu
  · exact .inl ⟨u, hu, hx⟩
  · exact .inr ⟨u, hu, hx⟩

theorem num_of_taken {b : Bool} (h : ∃ u ∈ taken m rxi b, u.1.num = x) : x = m.num := by
  obtain ⟨u, hu, rfl⟩ := h
  rw [taken] at hu
  split at hu
  · rw [mem_singleton.mp hu]
  · cases hu

theorem inputBa_slid (h : Window ba W) (rxi : Rxinfo)
    (hnum : m.num = W + ba.winsize + (d - 1)) (hpos : 1 ≤ d) (hle : d ≤ ba.winsize) :
    ∃ r W₁ W', inputBa ba m rxi = some r ∧ Slid ba W m d r.1 W₁ W' := by
  have hsize : ba.winsize ≤ 64 := h.ring.size
  have hlo : W ≤ m.num := by omega
  have hbelow := h.seqLt_start hlo (by omega)
  have habove := (h.seqLt_end hlo (by omega)).mpr (by omega)
  obtain ⟨r₁, W₁, W₂, habove', hcall, hmin, hle₁₂, hmax, hexact, hhas⟩ :=
    inputBaAbove_near h hnum (by omega)
  rw [Nat.sub_add_cancel hpos] at hmin hexact
  have hsize₁ : r₁.1.winsize = ba.winsize := hcall.winsize
  have hhas₁ {x : Nat} (hx : r₁.1.Has x) : ba.Has x :=
    (hcall.has_left hx).resolve_left fun ⟨_, hu, _⟩ => not_mem_nil hu
  obtain ⟨r, W₃, hstore, hstored⟩ :=
    inputBaStore_call (m := m) hcall.window rxi (by omega) (by omega)
  have hnear := hstored.near
  rw [inputBa, if_neg hbelow, if_pos habove]
  simp only [habove', bind_eq_bind, bind_some, if_true, hstore, map_some]
  refine ⟨_, W₁, W₃, rfl, hstored.call.window, hle₁₂.trans hstored.call.le, by omega, hmin,
    hexact.trans or_comm, fun x hlo hhi => ?_, fun x hx => ?_, hstored.call.winsize.trans hsize₁⟩
  · by_cases hx : x < W₂
    · exact .inr (hhas x hlo hx)
    · exact (hstored.gapless x (Nat.le_of_not_lt hx) hhi).imp_right hhas₁
  · exact (hstored.call.has_left hx).imp num_of_taken hhas₁

section

variable (h : Slid ba W m d ba' W₁ W') (hnum : m.num = W + ba.winsize + (d - 1)) (hpos : 1 ≤ d)

include h hnum hpos

theorem Slid.moves (hW₁ : W₁ = W + d) : MovesAsNeeded ba m ba' := by
  have hwindow := h.window
  have hstart : ba'.winstart = W' % 4096 := hwindow.start
  have hle := h.le
  have hsize := h.winsize
  have hfirst : m.num + 1 - ba.winsize = W₁ := by omega
  rw [MovesAsNeeded, hfirst]
  refine ⟨W' - W₁, ?_, fun x hlo hhi => h.gapless x hlo (by omega),
    fun m' rxi hlo hhi hne hnot => ?_⟩
  · rw [hstart, sn_eq, low12]
    omega
  · have hpast : W' ≤ m'.num := by
      by_contra hlt
      exact (h.gapless m'.num hlo (by omega)).elim hne hnot
    exact inputBa_stored hwindow rxi hpast (by omega) fun hx => (h.has m'.num hx).elim hne hnot

theorem Slid.of_moves (hd : d ≤ ba.winsize) (hmoves : MovesAsNeeded ba m ba') :
    d = ba.winsize ∨ ba.Has (W + d) := by
  have hstart : ba'.winstart = W' % 4096 := h.window.start
  have hle := h.le
  have hnear := h.near
  have hmin := h.min
  have hfirst : m.num + 1 - ba.winsize = W + d := by omega
  rw [MovesAsNeeded, hfirst] at hmoves
  obtain ⟨n, hn, hall, -⟩ := hmoves
  by_contra hcond
  have hpast : W₁ ≠ W + d := mt h.exact.mp hcond
  obtain ⟨hne, hnot⟩ := not_or.mp hcond
  have hzero : n = 0 := by
    by_contra hn0
    rcases hall (W + d) (Nat.le_refl _) (by omega) with hx | hx
    · omega
    · exact hnot hx
  rw [hstart, hzero, sn_eq, low12] at hn
  omega

end

theorem inputBa_slide (h : Window ba W) (rxi : Rxinfo) (hlo : W < m.num + 2048)
    (hhi : m.num < W + 2048) (hd : low12 ((m.sn : Int) - (ba.winend : Nat)) = d) (hpos : 1 ≤ d)
    (hle : d ≤ ba.winsize) : ∃ r, inputBa ba m rxi = some r ∧
      (MovesAsNeeded ba m r.1 ↔ d = ba.winsize ∨ ba.Has (m.num + 1 - ba.winsize)) := by
  have hnum := num_of_above h hlo hhi hd hpos hle
  obtain ⟨r, W₁, W', hrun, hslid⟩ := inputBa_slid h rxi hnum hpos hle
  have hfirst : m.num + 1 - ba.winsize = W + d := by omega
  rw [hfirst]
  exact ⟨r, hrun, hslid.of_moves hnum hpos hle, fun hcond =>
    hslid.moves hnum hpos (hslid.exact.mpr hcond)⟩

/-! The gap timer. -/

variable {ba : RxBa} {W n d x : Nat} {r : RxBa × List Up}

theorem inputBaGapSkipLoop_gapTo : (inputBaGapSkipLoop n ba).1.gapTo = ba.gapTo := by
  induction n generalizing ba with
  | zero => rfl
  | succ n ih =>
    rw [inputBaGapSkipLoop]
    split
    · exact ih
    · rfl

theorem inputBaGapSkip_gapTo : (inputBaGapSkip ba).1.gapTo = ba.gapTo := by
  rw [inputBaGapSkip]
  split <;> exact inputBaGapSkipLoop_gapTo

theorem inputBaGapSkipLoop_front (hring : Ring ba W) (hhas : ba.Has x) (hx : x < W + n) :
    (inputBaGapSkipLoop n ba).1.front ≠ none := by
  induction n generalizing ba W with
  | zero =>
    obtain ⟨u, hu, rfl⟩ := hhas
    have := (hring.mem hu).1
    omega
  | succ n ih =>
    rw [inputBaGapSkipLoop]
    split
    · next hfront =>
      have hslide := moved_slide hring hfront
      refine ih hslide.ring ((hslide.has_iff.mp hhas).resolve_left ?_) (by omega)
      rintro ⟨u, hu, -⟩
      cases hu
    · next hfront => exact hfront

theorem inputBaGapTimeout_timed (h : Window ba W) (hrun : inputBaGapTimeout ba = some r) :
    Timed r.1 := by
  have hclear : Window { ba with gapTo := false } W := h.congr rfl rfl rfl rfl rfl rfl
  have hoff : Timed (inputBaGapSkip { ba with gapTo := false }).1 := fun hpending => by
    rw [inputBaGapSkip_gapTo] at hpending
    cases hpending
  obtain ⟨W', hskip, -⟩ := inputBaGapSkip_call hclear
  rw [inputBaGapTimeout] at hrun
  split at hrun
  · exact (inputBaFlush_timed hskip.window.ring hskip.window.start hrun).mpr fun _ => hoff
  · cases hrun
    exact hoff

theorem inputBaGapTimeout_first (h : Window ba W) (hne : ∃ u, u ∈ ba.buffered) :
    ∃ r u, inputBaGapTimeout ba = some r ∧ u ∈ ba.buffered ∧
      (∀ v ∈ ba.buffered, u.1.num ≤ v.1.num) ∧ ∃ n, r.1.winstart = (u.1.num + n) % 4096 ∧
        ∀ x, u.1.num ≤ x → x < u.1.num + n → ba.Has x := by
  obtain ⟨w, hw⟩ := hne
  have hclear : Window { ba with gapTo := false } W := h.congr rfl rfl rfl rfl rfl rfl
  obtain ⟨hmoved, hstart, hsame⟩ :=
    inputBaGapSkipLoop_moved (n := ba.winsize) hclear.ring hclear.start
  have hfront := inputBaGapSkipLoop_front hclear.ring ⟨w, hw, rfl⟩ (h.ring.mem hw).2
  have hends := hstart.ends hmoved.ring.pos
  rw [inputBaGapTimeout, inputBaGapSkip]
  revert hmoved hstart hsame hfront hends
  generalize inputBaGapSkipLoop ba.winsize { ba with gapTo := false } = s
  intro hmoved hstart hsame hfront hends
  have hkept : ba.buffered = s.1.buffered := hmoved.split
  have hfirst {v : Up} (hv : v ∈ ba.buffered) : W + s.2 ≤ v.1.num :=
    (hmoved.ring.mem (hkept ▸ hv)).1
  obtain ⟨u, hu, hnum⟩ := hmoved.ring.has_front.mpr hfront
  rw [← hkept] at hu
  by_cases hskipped : s.2 = 0
  · refine ⟨_, u, if_neg (not_not.mpr hskipped), hu, fun v hv => hnum ▸ hfirst hv, 0, ?_,
      fun x hlo hhi => by omega⟩
    rw [if_neg (by omega), hnum]
    exact hstart
  · rw [if_pos hskipped, if_pos (Nat.pos_of_ne_zero hskipped)]
    obtain ⟨f, W', hrun, hflush, -, -, hgapless⟩ :=
      inputBaFlush_call (⟨hmoved.setWinend.ring, hstart, hends⟩ : Window s.1.setWinend (W + s.2))
    have hle := hflush.le
    refine ⟨f, u, hrun, hu, fun v hv => hnum ▸ hfirst hv, W' - (W + s.2), ?_, fun x hlo hhi => ?_⟩
    · rw [hnum, Nat.add_sub_cancel' hle]
      exact hflush.window.start
    · obtain ⟨v, hv, hx⟩ := hgapless x (by omega) (by omega)
      refine ⟨v, hkept ▸ ?_, hx⟩
      exact hflush.kept.symm.subset (mem_append_left _ hv)

theorem baMoveWindowLoop_gapTo : (baMoveWindowLoop n ba).1.gapTo = ba.gapTo := by
  induction n generalizing ba with
  | zero => rfl
  | succ n ih =>
    rw [baMoveWindowLoop]
    split <;> exact ih

theorem baMoveWindow_timed (h : Window ba W) (hd : d < 2048)
    (hrun : baMoveWindow ba ((W + d) % 4096) = some r) :
    Timed r.1 ↔ (ba.gapTo = true → ∃ u ∈ ba.buffered, W + d ≤ u.1.num) := by
  have hstart : ba.winstart = W % 4096 := h.start
  have hcount : low12 (((W + d) % 4096 : Nat) - (ba.winstart : Nat)) = d := by
    rw [hstart, low12_sub (by omega) (by omega), Nat.add_sub_cancel_left]
  obtain ⟨hmoved, -⟩ := baMoveWindowLoop_jump (d := d) h.ring
  rw [baMoveWindow] at hrun
  dsimp only at hrun
  rw [hcount] at hrun
  obtain ⟨f, hflush, rfl⟩ := map_eq_some_iff.mp hrun
  have hgap : (baMoveWindowLoop (if d > ba.winsize then ba.winsize else d) ba).1.gapTo = ba.gapTo :=
    baMoveWindowLoop_gapTo
  revert hmoved hflush hgap
  generalize baMoveWindowLoop (if d > ba.winsize then ba.winsize else d) ba = s
  intro hmoved hflush hgap
  have hring : Ring { s.1 with winstart := (W + d) % 4096 }.setWinend (W + d) :=
    hmoved.ring.congr rfl rfl rfl rfl
  have hleft (u : Up) : u ∈ s.1.buffered ↔ u ∈ ba.buffered ∧ W + d ≤ u.1.num := by
    rw [hmoved.split, mem_append]
    constructor
    · exact fun hu => ⟨.inr hu, (hmoved.ring.mem hu).1⟩
    · rintro ⟨hu | hu, hle⟩
      · have := hmoved.below u hu
        omega
      · exact hu
  have hwait : 0 < s.1.gapwait ↔ ∃ u ∈ ba.buffered, W + d ≤ u.1.num := by
    rw [hmoved.ring.gapwait_pos]
    exact exists_congr hleft
  rw [inputBaFlush_timed hring rfl hflush]
  show (s.1.front = none → s.1.gapTo = true → 0 < s.1.gapwait) ↔ _
  rw [hgap, hwait]
  refine ⟨fun himp hpending => ?_, fun himp _ => himp⟩
  by_cases hfront : s.1.front = none
  · exact himp hfront hpending
  · obtain ⟨u, hu, -⟩ := hmoved.ring.has_front.mpr hfront
    exact ⟨u, (hleft u).mp hu⟩

theorem barTid_timed {ssn : Nat} (h : Window ba W) (htimed : Timed ba) (hssn : ssn < 4096) :
    ∃ r, barTid ba ssn = some r ∧ (Timed r.1 ↔ (ba.gapTo = true → seqLt ba.winstart ssn →
      ∃ u ∈ ba.buffered, W + low12 (ssn - ba.winstart) ≤ u.1.num)) := by
  rw [barTid]
  split
  · next hlt =>
    have hstart : ba.winstart = W % 4096 := h.start
    have hdiff := hlt
    rw [seqLt, low12, hstart] at hdiff
    obtain ⟨d, hd, hpos⟩ : ∃ d < 2048, ssn = (W + d) % 4096 :=
      ⟨(ssn + 4096 - W % 4096) % 4096, by omega, by omega⟩
    have hlow : low12 ((ssn : Int) - (ba.winstart : Nat)) = d := by
      rw [hpos, hstart, low12_sub (by omega) (by omega), Nat.add_sub_cancel_left]
    obtain ⟨r, W', hrun, -⟩ := baMoveWindow_call h hd
    refine ⟨r, hpos ▸ hrun, (baMoveWindow_timed h hd hrun).trans ?_⟩
    rw [hlow]
    exact ⟨fun himp hpending _ => himp hpending, fun himp hpending => himp hpending hlt⟩
  · next hlt => exact ⟨_, rfl, iff_of_true htimed fun _ hgt => absurd hgt hlt⟩

end Mbsd.Net80211.InputBa

/-! Sessions in which the gap timer is pending only while frames wait. -/

namespace Mbsd.Net80211.InputBa.Session

open Option

variable {s s' : Session} {e : Event}

def Leaves (s : Session) : Event → Prop
  | .bar ssn => s.ba.gapTo = true → seqLt s.ba.winstart ssn →
    ∃ u ∈ s.ba.buffered, s.start + low12 (ssn - s.ba.winstart) ≤ u.1.num
  | .frame _ _ => True
  | .gapTimeout => True

inductive Careful : Session → Prop
  | init (ba : RxBa) (bufsz W : Nat) : Careful (init ba bufsz W)
  | step {s s' : Session} {e : Event} (h : Careful s) (hadmits : s.Admits e) (hleaves : s.Leaves e)
      (hstep : s.step e = some s') : Careful s'

theorem Careful.reachable (h : Careful s) : Reachable s := by
  induction h with
  | init ba bufsz W => exact .init ba bufsz W
  | step h hadmits hleaves hstep ih => exact ih.step hadmits hstep

theorem init_gapTo (ba : RxBa) (bufsz W : Nat) : (init ba bufsz W).ba.gapTo = false := by
  rw [init, recvAddbaReq]
  split <;> rfl

theorem Careful.timed (h : Careful s) : Timed s.ba := by
  induction h with
  | init ba bufsz W =>
    intro hpending
    rw [init_gapTo] at hpending
    cases hpending
  | @step s s' e h hadmits hleaves hstep ih =>
    have hwindow := h.reachable.good.window
    cases e with
    | frame m rxi =>
      obtain ⟨r, W', hrun, -, htimed⟩ := inputBa_call hwindow rxi hadmits.1 hadmits.2
      obtain ⟨r', hrun', rfl⟩ := map_eq_some_iff.mp hstep
      obtain rfl := some.inj (hrun.symm.trans hrun')
      exact htimed ih
    | bar ssn =>
      obtain ⟨r, hrun, htimed⟩ := barTid_timed hwindow ih hadmits
      obtain ⟨r', hrun', rfl⟩ := map_eq_some_iff.mp hstep
      obtain rfl := some.inj (hrun.symm.trans hrun')
      exact htimed.mpr hleaves
    | gapTimeout =>
      obtain ⟨r, hrun, rfl⟩ := map_eq_some_iff.mp hstep
      exact inputBaGapTimeout_timed hwindow hrun

/-- The window slides as far as needed only when the first frame that it then has is in the buffer,
or it slides by its whole size.  The gap timer is pending only while frames wait, as long as no
BlockAckReq goes past all of them. -/
theorem window_moves (s : Session) : (∀ ba W m rxi d, Window ba W → W < m.num + 2048 → m.num < W + 2048 →
      low12 ((m.sn : Int) - (ba.winend : Nat)) = d → 1 ≤ d → d ≤ ba.winsize →
      ∃ r, inputBa ba m rxi = some r ∧
        (MovesAsNeeded ba m r.1 ↔ d = ba.winsize ∨ ba.Has (m.num + 1 - ba.winsize))) ∧
    (Careful s → (s.ba.gapTo = true → 0 < s.ba.gapwait) ∧
      (s.ba.gapTo = true → ∃ r u, inputBaGapTimeout s.ba = some r ∧ u ∈ s.ba.buffered ∧
        (∀ v ∈ s.ba.buffered, u.1.num ≤ v.1.num) ∧ ∃ n, r.1.winstart = (u.1.num + n) % 4096 ∧
          ∀ x, u.1.num ≤ x → x < u.1.num + n → s.ba.Has x) ∧
      ∀ ssn < 4096, ∃ r, barTid s.ba ssn = some r ∧
        ((r.1.gapTo = true → 0 < r.1.gapwait) ↔ s.Leaves (.bar ssn))) := by
  refine ⟨fun ba W m rxi d h hlo hhi hd hpos hle => inputBa_slide h rxi hlo hhi hd hpos hle,
    fun h => ?_⟩
  have hgood := h.reachable.good
  refine ⟨h.timed, fun hpending => ?_, fun ssn hssn => barTid_timed hgood.window h.timed hssn⟩
  exact inputBaGapTimeout_first hgood.window (hgood.window.ring.gapwait_pos.mp (h.timed hpending))

/-- A frame comes into the buffer, and the gap before it times out; the window slides over the
frame when it is in the buffer. -/
theorem window_moves_run : ∃ s, Careful s ∧ s.ba.gapTo = true ∧ 0 < s.ba.gapwait ∧
      (∃ r u, inputBaGapTimeout s.ba = some r ∧ u ∈ s.ba.buffered ∧
        ∃ n, r.1.winstart = (u.1.num + n) % 4096) ∧
      ∃ r, inputBa s.ba ⟨4, 0⟩ ⟨0, 0, 0, 0⟩ = some r ∧ MovesAsNeeded s.ba ⟨4, 0⟩ r.1 := by
  have hframe : (init ba0 4 0).Admits (.frame ⟨1, 0⟩ ⟨0, 0, 0, 0⟩) := by
    unfold Admits
    decide
  have hcareful := (Careful.init ba0 4 0).step hframe trivial rfl
  obtain ⟨hslide, -⟩ := window_moves (init ba0 4 0)
  obtain ⟨htimed, hgap, -⟩ := (window_moves _).2 hcareful
  obtain ⟨r, u, hrun, hu, -, n, hn, -⟩ := hgap rfl
  obtain ⟨r', hrun', hmoves⟩ := hslide _ 0 ⟨4, 0⟩ ⟨0, 0, 0, 0⟩ 1 hcareful.reachable.good.window
    (by decide) (by decide) rfl (by decide) (by decide)
  exact ⟨_, hcareful, rfl, htimed rfl, ⟨r, u, hrun, hu, n, hn⟩, r', hrun',
    hmoves.mpr (.inr ⟨(⟨1, 0⟩, ⟨2, 0, 0, 0⟩), List.mem_singleton_self _, rfl⟩)⟩

/-- A window from 0 to 3 goes to 5 for the frame 4, so that the frame 2 is lost; and a gap timer
that was left pending moves it past an empty buffer. -/
theorem window_moves_too_far : (∃ s, Reachable s ∧ s.up.map (·.1.num) = [4] ∧ s.ba.winstart = 5 ∧
      inputBa s.ba ⟨2, 0⟩ ⟨0, 0, 0, 0⟩ = some (s.ba, [], false)) ∧
    ∃ s, Reachable s ∧ s.ba.gapTo = true ∧ s.ba.gapwait = 0 ∧ s.ba.winstart = 3 ∧
      (inputBaGapTimeout s.ba).map (·.1.winstart) = some 7 := by
  have hfour : (init ba0 4 0).Admits (.frame ⟨4, 0⟩ ⟨0, 0, 0, 0⟩) := by
    unfold Admits
    decide
  have hone : (init ba0 4 0).Admits (.frame ⟨1, 0⟩ ⟨0, 0, 0, 0⟩) := by
    unfold Admits
    decide
  have hreach := (Reachable.init ba0 4 0).step hone rfl
  exact ⟨⟨_, (Reachable.init ba0 4 0).step hfour rfl, rfl, rfl, rfl⟩,
    ⟨_, hreach.step (e := .bar 3) (show 3 < 4096 by decide) rfl, rfl, rfl, rfl, rfl⟩⟩

end Mbsd.Net80211.InputBa.Session
