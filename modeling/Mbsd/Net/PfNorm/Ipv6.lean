import Mbsd.Net.PfNorm.Runs

/-! A fragment meets an existing queue of an IPv6 packet: it goes in at its place, or the queue is
given up. -/

namespace Mbsd.Net.PfNorm

open Lib Sys List Option

variable {frag frag' : PfFragment} {e last : PfFrent} {l₁ l₂ : List PfFrent}
  {fragments : BitVec 32}

structure Entered (e : PfFrent) (l₁ l₂ : List PfFrent) (frag frag' : PfFragment) : Prop where
  inv : frag'.Inv
  key : frag.SameKey frag'
  maxlen : frag'.frMaxlen = frag.frMaxlen
  gen : frag'.frGen = frag.frGen
  before : frag.frQueue = l₁ ++ l₂
  after : frag'.frQueue = l₁ ++ e :: l₂

theorem pfFrentInsert_frame {prev : Option PfFrent} {error : Option Errno}
    (h : pfFrentInsert frag e prev = some (frag', error)) :
    frag'.frMaxlen = frag.frMaxlen ∧ frag'.frGen = frag.frGen := by
  unfold pfFrentInsert at h
  dsimp only at h
  by_cases hfull : frag.frEntries (pfFrentIndex e) ≥ PF_FRAG_ENTRY_LIMIT
  · rw [if_pos hfull] at h
    cases h
    exact ⟨rfl, rfl⟩
  · rw [if_neg hfull] at h
    simp only [bind_eq_bind, bind_eq_some_iff] at h
    obtain ⟨q, -, fo, -, holes, -, heq⟩ := h
    cases heq
    exact ⟨rfl, rfl⟩

theorem fillupInsert_fits (h : frag.Inv) (hq : frag.frQueue = l₁ ++ l₂)
    (ho : InOrder (l₁ ++ e :: l₂)) (hb : e.stop ≤ IP_MAXPACKET)
    (hlimit : frag.frEntries (pfFrentIndex e) < PF_FRAG_ENTRY_LIMIT) :
    ∃ frag', fillupInsert e l₁.getLast? fragments frag = some ⟨.queued, frag', fragments⟩ ∧
      Entered e l₁ l₂ frag frag' := by
  rcases pfFrentInsert_spec h hq ho hb with ⟨-, hfull⟩ | ⟨frag', hi, hinv, hkey, hq'⟩
  · exact absurd hlimit (Nat.not_lt.mpr hfull)
  · obtain ⟨hmax, hgen⟩ := pfFrentInsert_frame hi
    refine ⟨frag', ?_, hinv, hkey, hmax, hgen, hq, hq'⟩
    rw [fillupInsert, hi]
    rfl

theorem insertQueue_place {q : List PfFrent} (ho : InOrder (l₁ ++ l₂))
    (h : insertQueue e l₁.getLast? (l₁ ++ l₂) = some q) : q = l₁ ++ e :: l₂ := by
  cases hl : l₁.getLast? with
  | none =>
    obtain rfl := getLast?_eq_none_iff.mp hl
    rw [hl] at h
    exact (some.inj h).symm
  | some prev =>
    obtain ⟨l, rfl⟩ := getLast?_eq_some_iff.mp hl
    rw [hl] at h
    rw [append_assoc, singleton_append] at h ho
    simp only [insertQueue, bind_eq_bind, bind_eq_some_iff] at h
    obtain ⟨-, -, hq⟩ := h
    rw [Tailq.insertAfter_append ho.not_mem, some.injEq] at hq
    rw [← hq, append_assoc, singleton_append]

theorem fillupInsert_queued {exit : Exit} (h : frag.Inv) (hq : frag.frQueue = l₁ ++ l₂)
    (hi : fillupInsert e l₁.getLast? fragments frag = some exit) (hl : exit.label = .queued) :
    exit.fragments = fragments ∧ exit.frag.frMaxlen = frag.frMaxlen ∧
      exit.frag.frGen = frag.frGen ∧ exit.frag.frQueue = l₁ ++ e :: l₂ := by
  unfold fillupInsert at hi
  simp only [bind_eq_bind, bind_eq_some_iff] at hi
  obtain ⟨⟨frag', error⟩, hins, hi⟩ := hi
  cases error with
  | some errno =>
    cases hi
    cases hl
  | none =>
    cases hi
    obtain ⟨hmax, hgen⟩ := pfFrentInsert_frame hins
    refine ⟨rfl, hmax, hgen, ?_⟩
    unfold pfFrentInsert at hins
    dsimp only at hins
    by_cases hfull : frag.frEntries (pfFrentIndex e) ≥ PF_FRAG_ENTRY_LIMIT
    · rw [if_pos hfull] at hins
      cases hins
    · rw [if_neg hfull] at hins
      simp only [bind_eq_bind, bind_eq_some_iff] at hins
      obtain ⟨q, hiq, fo, -, holes, -, heq⟩ := hins
      cases heq
      rw [hq] at hiq
      exact insertQueue_place (hq ▸ h.order) hiq

def EndsFit (e last : PfFrent) : Prop :=
  ¬(e.stop < last.stop ∧ e.feMff = false) ∧
    ¬(last.feMff = false ∧ (e.stop > last.stop ∨ e.stop = last.stop ∧ e.feMff = true)) ∧
    ¬(last.feMff = true ∧ e.stop = last.stop ∧ e.feMff = false)

def PrevFits (e : PfFrent) (l₁ : List PfFrent) : Prop := ∀ p ∈ l₁.getLast?, p.stop ≤ e.feOff

def NextFits (e : PfFrent) (l₂ : List PfFrent) : Prop := ∀ b ∈ l₂.head?, e.stop ≤ b.feOff

theorem fillupAfter_v6 (haf : frag.frNode.fnAf = .AF_INET6) (e : PfFrent) (l₂ : List PfFrent)
    (fragments : BitVec 32) (prev : Option PfFrent) :
    (NextFits e l₂ → fillupAfter e prev fragments frag l₂ = fillupInsert e prev fragments frag) ∧
      (¬NextFits e l₂ → fillupAfter e prev fragments frag l₂ =
        some ⟨.freeIpv6Fragment, frag, fragments⟩) := by
  cases l₂ with
  | nil => exact ⟨fun _ => rfl, fun hn => absurd (fun b hb => by cases hb) hn⟩
  | cons b l =>
    rw [fillupAfter, if_pos haf]
    by_cases hover : e.feOff + e.feLen > b.feOff
    · rw [if_pos hover]
      exact ⟨fun hfit => absurd hover (Nat.not_lt.mpr (hfit b rfl)), fun _ => rfl⟩
    · rw [if_neg hover]
      refine ⟨fun _ => rfl, fun hn => absurd (fun c hc => ?_) hn⟩
      cases hc
      exact Nat.le_of_not_lt hover

section

variable (h : frag.Inv) (haf : frag.frNode.fnAf = .AF_INET6)
  (hlast : frag.frQueue.getLast? = some last)

include h haf hlast

theorem fillupExisting_v6 (e : PfFrent) (fragments : BitVec 32) :
    ∃ l₁ l₂, frag.frQueue = l₁ ++ l₂ ∧ (∀ a ∈ l₁, a.feOff ≤ e.feOff) ∧
      (∀ b ∈ l₂, e.feOff < b.feOff) ∧ (EndsFit e last ∧ PrevFits e l₁ ∧ NextFits e l₂ →
        fillupExisting e last fragments frag = fillupInsert e l₁.getLast? fragments frag) ∧
      (¬(EndsFit e last ∧ PrevFits e l₁ ∧ NextFits e l₂) →
        fillupExisting e last fragments frag = some ⟨.freeIpv6Fragment, frag, fragments⟩) := by
  have hne : frag.frQueue ≠ [] := fun hnil => by
    rw [hnil] at hlast
    cases hlast
  have hlb : last.stop ≤ 65535 := h.bound last (mem_of_getLast? hlast)
  have htotal : (last.feOff + last.feLen) % 65536 = last.stop := Nat.mod_eq_of_lt (by
    rw [PfFrent.stop] at hlb
    omega)
  have hstop : e.feOff + e.feLen = e.stop := rfl
  obtain ⟨l₁, l₂, hsplit, hprev, h₁, h₂⟩ := pfFrentPrevious_spec h hne e
  refine ⟨l₁, l₂, hsplit, h₁, h₂, ?_⟩
  rw [fillupExisting]
  simp only [htotal, hstop]
  by_cases hends : EndsFit e last
  · rw [if_neg hends.1, if_neg hends.2.1, if_neg hends.2.2, hprev]
    cases hp : l₁.getLast? with
    | none =>
      obtain rfl := getLast?_eq_none_iff.mp hp
      have hpf : PrevFits e [] := fun p hp => by cases hp
      have hne₂ : l₂ ≠ [] := fun hnil => hne (by rw [hsplit, hnil]; rfl)
      simp only [bind_eq_bind, bind_some, hsplit, nil_append, kassert_true hne₂]
      obtain ⟨hfits, hnot⟩ := fillupAfter_v6 haf e l₂ fragments none
      exact ⟨fun hfit => hfits hfit.2.2, fun hn => hnot fun hnext => hn ⟨hends, hpf, hnext⟩⟩
    | some prev =>
      obtain ⟨l, rfl⟩ := getLast?_eq_some_iff.mp hp
      have ho : InOrder (l ++ [prev] ++ l₂) := hsplit ▸ h.order
      have hafter : Tailq.after prev frag.frQueue = l₂ := by
        rw [hsplit, append_assoc, singleton_append]
        rw [append_assoc, singleton_append] at ho
        exact Tailq.after_append ho.not_mem
      simp only [bind_eq_bind, bind_some, hafter]
      by_cases hover : prev.feOff + prev.feLen > e.feOff
      · rw [if_pos hover, if_pos haf]
        exact ⟨fun hfit => absurd hover (Nat.not_lt.mpr (hfit.2.1 prev hp)), fun _ => rfl⟩
      · have hpf : PrevFits e (l ++ [prev]) := by
          intro p hp'
          rw [hp, mem_def, some.injEq] at hp'
          exact hp' ▸ Nat.le_of_not_lt hover
        obtain ⟨hfits, hnot⟩ := fillupAfter_v6 haf e l₂ fragments prev
        rw [if_neg hover]
        exact ⟨fun hfit => hfits hfit.2.2, fun hn => hnot fun hnext => hn ⟨hends, hpf, hnext⟩⟩
  · refine ⟨fun hfit => absurd hfit.1 hends, fun _ => ?_⟩
    by_cases hterm : e.stop < last.stop ∧ e.feMff = false
    · rw [if_pos hterm]
    rw [if_neg hterm]
    by_cases hseen : last.feMff = false ∧
        (e.stop > last.stop ∨ e.stop = last.stop ∧ e.feMff = true)
    · rw [if_pos hseen]
    rw [if_neg hseen]
    by_cases hagain : last.feMff = true ∧ e.stop = last.stop ∧ e.feMff = false
    · rw [if_pos hagain]
    · exact absurd ⟨hterm, hseen, hagain⟩ hends

theorem fillupExisting_queued {exit : Exit} (hpos : 0 < e.feLen) (hb : e.stop ≤ IP_MAXPACKET)
    (he : fillupExisting e last fragments frag = some exit) (hl : exit.label = .queued) :
    exit.fragments = fragments ∧ ∃ l₁ l₂, Entered e l₁ l₂ frag exit.frag := by
  obtain ⟨exit', he', hok⟩ := fillupExisting_spec h hlast hpos hb fragments
  obtain rfl : exit = exit' := some.inj (he.symm.trans he')
  obtain ⟨l₁, l₂, hq, -, -, hfits, hnot⟩ :=
    fillupExisting_v6 h haf hlast e fragments
  by_cases hfit : EndsFit e last ∧ PrevFits e l₁ ∧ NextFits e l₂
  · rw [hfits hfit] at he
    obtain ⟨hn, hmax, hgen, hq'⟩ := fillupInsert_queued h hq he hl
    exact ⟨hn, l₁, l₂, hok.inv, hok.key, hmax, hgen, hq, hq'⟩
  · rw [hnot hfit] at he
    cases he
    cases hl

end

theorem split_unique {m₁ m₂ : List PfFrent} (h : l₁ ++ l₂ = m₁ ++ m₂)
    (hl₁ : ∀ a ∈ l₁, a.feOff ≤ e.feOff) (hl₂ : ∀ b ∈ l₂, e.feOff < b.feOff)
    (hm₁ : ∀ a ∈ m₁, a.feOff ≤ e.feOff) (hm₂ : ∀ b ∈ m₂, e.feOff < b.feOff) :
    l₁ = m₁ ∧ l₂ = m₂ := by
  have hfilter : ∀ {k₁ k₂ : List PfFrent}, (∀ a ∈ k₁, a.feOff ≤ e.feOff) →
      (∀ b ∈ k₂, e.feOff < b.feOff) →
      (k₁ ++ k₂).filter (fun a => a.feOff ≤ e.feOff) = k₁ := by
    intro k₁ k₂ h₁ h₂
    rw [filter_append, filter_eq_self.mpr (by simpa using h₁),
      filter_eq_nil_iff.mpr (by simpa using h₂), append_nil]
  have heq : l₁ = m₁ := by rw [← hfilter hl₁ hl₂, h, hfilter hm₁ hm₂]
  subst heq
  exact ⟨rfl, append_cancel_left h⟩

theorem endsFit_of_inOrder (ho : InOrder (l₁ ++ e :: l₂))
    (hlast : (l₁ ++ l₂).getLast? = some last) : EndsFit e last := by
  have hpos : e.feOff < e.stop := ho.pos e (by simp)
  cases hl : l₂.getLast? with
  | none =>
    -- the fragment comes last
    obtain rfl := getLast?_eq_none_iff.mp hl
    rw [append_nil] at hlast
    obtain ⟨hle, hmff⟩ := ho.before (mem_of_getLast? hlast)
    refine ⟨fun h => ?_, fun h => ?_, fun h => ?_⟩
    · omega
    · rw [hmff] at h
      exact nomatch h.1
    · omega
  | some b =>
    rw [getLast?_append, hl] at hlast
    cases hlast
    obtain ⟨hle, hmff⟩ := ho.behind (mem_of_getLast? hl)
    have hlt : last.feOff < last.stop :=
      ho.pos last (by simp [mem_of_getLast? hl])
    refine ⟨fun h => ?_, fun h => ?_, fun h => ?_⟩
    · rw [hmff] at h
      exact nomatch h.2
    · omega
    · omega

theorem fillupExisting_fits (h : frag.Inv) (haf : frag.frNode.fnAf = .AF_INET6)
    (hlast : frag.frQueue.getLast? = some last) (hq : frag.frQueue = l₁ ++ l₂)
    (ho : InOrder (l₁ ++ e :: l₂)) (hb : e.stop ≤ IP_MAXPACKET)
    (hlimit : frag.frEntries (pfFrentIndex e) < PF_FRAG_ENTRY_LIMIT) (fragments : BitVec 32) :
    ∃ frag', fillupExisting e last fragments frag = some ⟨.queued, frag', fragments⟩ ∧
      Entered e l₁ l₂ frag frag' := by
  obtain ⟨m₁, m₂, hm, hm₁, hm₂, hfits, -⟩ :=
    fillupExisting_v6 h haf hlast e fragments
  obtain ⟨rfl, rfl⟩ := split_unique (e := e) (hq.symm.trans hm)
    (fun a ha => Nat.le_of_lt (ho.start_lt ha)) (fun b hb => ho.lt_start hb) hm₁ hm₂
  rw [hfits ⟨endsFit_of_inOrder ho (hq ▸ hlast), fun p hp => (ho.before (mem_of_getLast? hp)).1,
    fun b hb => (ho.behind (mem_of_head? hb)).1⟩]
  exact fillupInsert_fits h hq ho hb hlimit

end Mbsd.Net.PfNorm
