import Mbsd.Net.PfNorm.Queue

/-! A fragment meets an existing queue: what overlaps is trimmed or goes, and the queue keeps its
invariant. -/

namespace Mbsd.Net.PfNorm

open Lib Sys List Option Nat Bool PfFrent

variable {frag : PfFragment} {e a b p : PfFrent} {l₁ l₂ q : List PfFrent} {fragments : BitVec 32}
  {n : Nat} {last : PfFrent}

structure Exit.Ok (frag : PfFragment) (exit : Exit) : Prop where
  inv : exit.frag.Inv
  key : frag.SameKey exit.frag
  nonempty : exit.frag.frQueue ≠ [] ∨ exit.label = .freeFragment

theorem Exit.Ok.of_same {g : PfFragment} {exit : Exit} (h : exit.Ok g) (hs : frag.SameKey g) :
    exit.Ok frag :=
  ⟨h.inv, hs.trans h.key, h.nonempty⟩

theorem exit_ok (h : frag.Inv) (hq : frag.frQueue ≠ []) (label : Label) :
    Exit.Ok frag ⟨label, frag, fragments⟩ :=
  ⟨h, .refl frag, .inl hq⟩

structure Follows (l₁ : List PfFrent) (e : PfFrent) : Prop where
  pos : 0 < e.feLen
  bound : e.stop ≤ IP_MAXPACKET
  before : ∀ a ∈ l₁, a.stop ≤ e.feOff ∧ a.feMff = true

theorem Follows.inOrder (h : Follows l₁ e) (ho : InOrder (l₁ ++ l₂))
    (h₂ : ∀ b ∈ l₂, e.stop ≤ b.feOff ∧ e.feMff = true) : InOrder (l₁ ++ e :: l₂) :=
  ho.insert (Nat.lt_add_of_pos_right h.pos) (Nat.zero_le _) h.before h₂

theorem fillupInsert_spec (h : frag.Inv) (hq : frag.frQueue = l₁ ++ l₂) (he : Follows l₁ e)
    (h₂ : ∀ b ∈ l₂, e.stop ≤ b.feOff ∧ e.feMff = true) :
    ∃ exit, fillupInsert e l₁.getLast? fragments frag = some exit ∧ exit.Ok frag := by
  have ho := he.inOrder (hq ▸ h.order) h₂
  rcases pfFrentInsert_spec h hq ho he.bound with ⟨hi, -⟩ | ⟨frag', hi, hinv, hkey, hq'⟩
  · refine ⟨⟨.freeFragment, frag, fragments⟩, ?_, h, .refl frag, .inr rfl⟩
    rw [fillupInsert, hi]
    rfl
  · refine ⟨⟨.queued, frag', fragments⟩, ?_, hinv, hkey, .inl ?_⟩
    · rw [fillupInsert, hi]
      rfl
    · show frag'.frQueue ≠ []
      simp [hq']

theorem cut_off (h : e.feOff + n < 65536) : (e.cut n).feOff = e.feOff + n :=
  mod_eq_of_lt h

theorem cut_len (h : n < e.feLen) : (e.cut n).feLen = e.feLen - n := by
  have := e.len_lt
  show (e.feLen + (65536 - n % 65536)) % 65536 = e.feLen - n
  omega

theorem stop_cut (hn : n < e.feLen) (hb : e.stop ≤ IP_MAXPACKET) :
    (e.cut n).stop = e.stop := by
  rw [stop, IP_MAXPACKET] at hb
  rw [stop, cut_off (by omega), cut_len hn, stop]
  omega

theorem fillupAfter_spec (h : frag.Inv) (hq : frag.frQueue = l₁ ++ l₂) (he : Follows l₁ e)
    (hmff : e.feMff = false → ∀ b ∈ l₂, b.stop ≤ e.stop) :
    ∃ exit, fillupAfter e l₁.getLast? fragments frag l₂ = some exit ∧ exit.Ok frag := by
  induction l₂ generalizing frag fragments with
  | nil => exact fillupInsert_spec h hq he fun _ hb => absurd hb not_mem_nil
  | cons after rest ih =>
    have ho : InOrder (l₁ ++ after :: rest) := hq ▸ h.order
    have hab : after.stop ≤ 65535 := h.bound after (by simp [hq])
    have heb : e.stop ≤ 65535 := he.bound
    have hpos : after.feOff < after.stop := ho.pos after (by simp)
    rw [fillupAfter]
    by_cases hover : e.feOff + e.feLen > after.feOff
    · rw [if_pos hover]
      by_cases haf : frag.frNode.fnAf = .AF_INET6
      · rw [if_pos haf]
        exact ⟨_, rfl, exit_ok h (by simp [hq]) _⟩
      rw [if_neg haf]
      obtain ⟨frag₁, hr, hinv₁, hkey₁, hq₁⟩ := pfFrentRemove_spec h hq
      have hcut : (e.feOff + e.feLen - after.feOff) % 65536 = e.stop - after.feOff :=
        mod_eq_of_lt (Nat.lt_of_le_of_lt (sub_le _ _) (by rw [stop] at heb; omega))
      simp only [hcut]
      by_cases hpart : e.stop - after.feOff < after.feLen
      · -- the entry keeps its tail, which may belong to a later entry point
        rw [if_pos hpart]
        have hstop : (after.cut (e.stop - after.feOff)).stop = after.stop := stop_cut hpart hab
        have hoff : (after.cut (e.stop - after.feOff)).feOff = e.stop := by
          rw [stop] at hab hpart heb ⊢
          rw [cut_off (by omega)]
          omega
        have htail : Follows l₁ (after.cut (e.stop - after.feOff)) := by
          refine ⟨by rw [cut_len hpart]; omega, hstop ▸ hab, fun a ha => ?_⟩
          have hle : a.stop ≤ e.feOff := (he.before a ha).1
          refine ⟨?_, (he.before a ha).2⟩
          rw [hoff]
          exact Nat.le_trans hle (Nat.le_add_right _ _)
        have horder : InOrder (l₁ ++ after.cut (e.stop - after.feOff) :: rest) :=
          htail.inOrder (hq₁ ▸ hinv₁.order) fun b hb => by
            rw [hstop]
            exact ho.behind hb
        show ∃ exit, (pfFrentRemove frag after).bind _ = some exit ∧ _
        rw [hr, bind_some]
        rcases pfFrentInsert_spec hinv₁ hq₁ horder htail.bound with
          ⟨hi, -⟩ | ⟨frag₂, hi, hinv₂, hkey₂, hq₂⟩
        · refine ⟨⟨.freeFragment, frag₁, fragments - 1⟩, ?_, hinv₁, hkey₁, .inr rfl⟩
          rw [hi]
          rfl
        · rw [hi]
          have hbehind : ∀ b ∈ after.cut (e.stop - after.feOff) :: rest,
              e.stop ≤ b.feOff ∧ e.feMff = true := by
            have hlt : e.stop < after.stop := by
              rw [stop] at hpart ⊢
              rw [stop] at hpos ⊢
              omega
            have hm : e.feMff = true := by
              by_contra hm
              exact absurd (hmff (eq_false_iff.mpr hm) after mem_cons_self)
                (Nat.not_le.mpr hlt)
            intro b hb
            rcases mem_cons.mp hb with rfl | hb
            · exact ⟨Nat.le_of_eq hoff.symm, hm⟩
            · exact ⟨Nat.le_trans (Nat.le_of_lt hlt) (ho.behind hb).1, hm⟩
          obtain ⟨exit, hexit, hok⟩ := fillupInsert_spec hinv₂ hq₂ he hbehind
          exact ⟨exit, hexit, hok.of_same (hkey₁.trans hkey₂)⟩
      · rw [if_neg hpart]
        show ∃ exit, (pfFrentRemove frag after).bind _ = some exit ∧ _
        rw [hr, bind_some]
        obtain ⟨exit, hexit, hok⟩ := ih hinv₁ hq₁ fun hm b hb =>
          hmff hm b (mem_cons_of_mem _ hb)
        exact ⟨exit, hexit, hok.of_same hkey₁⟩
    · rw [if_neg hover]
      refine fillupInsert_spec h hq he fun b hb => ?_
      have hle : e.stop ≤ after.feOff := Nat.le_of_not_lt hover
      have hm : e.feMff = true := by
        by_contra hm
        have := hmff (eq_false_iff.mpr hm) after mem_cons_self
        omega
      rcases mem_cons.mp hb with rfl | hb
      · exact ⟨hle, hm⟩
      · have := (ho.behind hb).1
        exact ⟨by omega, hm⟩

theorem stop_le_last (h : InOrder q) (hlast : q.getLast? = some last)
    (ha : a ∈ q) : a.stop ≤ last.stop := by
  have := GapCount.stop_le_lastStop h ha
  rwa [GapCount.lastStop, hlast, map_some, getD_some] at this

theorem frQueue_remember : (frag.remember e).frQueue = frag.frQueue := by
  rw [PfFragment.remember]
  split <;> rfl

theorem sameKey_remember : frag.SameKey (frag.remember e) := by
  rw [PfFragment.remember]
  split <;> exact .refl frag

theorem PfFragment.Inv.remember (h : frag.Inv) : (frag.remember e).Inv := by
  rw [PfFragment.remember]
  split
  · exact ⟨h.order, h.bound, h.entries, h.limit, h.firstoff, h.holes⟩
  · exact h

theorem mff_before (ho : InOrder (l₁ ++ l₂))
    (hlast : (l₁ ++ l₂).getLast? = some last) (hp : l₁.getLast? = some p)
    (hend : last.feMff = false → e.stop ≤ last.stop) (hlt : p.stop < e.stop) :
    ∀ a ∈ l₁, a.feMff = true := by
  obtain ⟨l, rfl⟩ := getLast?_eq_some_iff.mp hp
  have hpm : p.feMff = true := by
    cases l₂ with
    | nil =>
      rw [append_nil, hp, some.injEq] at hlast
      by_contra hm
      have := hend (hlast ▸ eq_false_iff.mpr hm)
      rw [← hlast] at this
      omega
    | cons b l₂ =>
      rw [append_assoc, singleton_append] at ho
      exact (ho.behind mem_cons_self).2
  intro a ha
  rw [append_assoc, singleton_append] at ho
  rcases mem_append.mp ha with ha | ha
  · exact (ho.before ha).2
  · rwa [mem_singleton.mp ha]

theorem fillupExisting_spec (h : frag.Inv)
    (hlast : frag.frQueue.getLast? = some last) (hpos : 0 < e.feLen)
    (hb : e.stop ≤ IP_MAXPACKET) (fragments : BitVec 32) :
    ∃ exit, fillupExisting e last fragments frag = some exit ∧ exit.Ok frag := by
  rw [fillupExisting]
  have hne : frag.frQueue ≠ [] := fun hnil => by
    rw [hnil] at hlast
    exact nomatch hlast
  have hlb : last.stop ≤ 65535 := h.bound last (mem_of_getLast? hlast)
  have htotal : (last.feOff + last.feLen) % 65536 = last.stop := mod_eq_of_lt (by
    rw [stop] at hlb
    omega)
  have hstop : e.feOff + e.feLen = e.stop := rfl
  simp only [htotal, hstop]
  by_cases hterm : e.stop < last.stop ∧ e.feMff = false
  · rw [if_pos hterm]
    exact ⟨_, rfl, exit_ok h hne _⟩
  rw [if_neg hterm]
  by_cases hseen : last.feMff = false ∧ (e.stop > last.stop ∨ e.stop = last.stop ∧ e.feMff = true)
  · rw [if_pos hseen]
    exact ⟨_, rfl, exit_ok h hne _⟩
  rw [if_neg hseen]
  by_cases hagain : last.feMff = true ∧ e.stop = last.stop ∧ e.feMff = false
  · rw [if_pos hagain]
    exact ⟨_, rfl, exit_ok h hne _⟩
  rw [if_neg hagain]
  have hterm' : e.feMff = false → last.stop ≤ e.stop := fun hm =>
    Nat.le_of_not_lt fun hlt => hterm ⟨hlt, hm⟩
  have hend : last.feMff = false → e.stop ≤ last.stop := fun hm =>
    Nat.le_of_not_lt fun hlt => hseen ⟨hm, .inl hlt⟩
  obtain ⟨l₁, l₂, hsplit, hprev, h₁, -⟩ := pfFrentPrevious_spec h hne e
  have ho : InOrder (l₁ ++ l₂) := hsplit ▸ h.order
  have hcover : e.feMff = false → ∀ b ∈ l₂, b.stop ≤ e.stop := fun hm b hb =>
    Nat.le_trans (stop_le_last h.order hlast (by simp [hsplit, hb])) (hterm' hm)
  show ∃ exit, (pfFrentPrevious frag e).bind _ = some exit ∧ _
  rw [hprev, bind_some]
  rw [hsplit] at hlast
  cases hp : l₁.getLast? with
  | none =>
    obtain rfl := getLast?_eq_none_iff.mp hp
    show ∃ exit, (kassert _).bind _ = some exit ∧ _
    rw [kassert_true hne, bind_some, hsplit]
    exact fillupAfter_spec h hsplit ⟨hpos, hb, fun _ h => absurd h not_mem_nil⟩ hcover
  | some prev =>
    obtain ⟨l, rfl⟩ := getLast?_eq_some_iff.mp hp
    have hprev₁ : prev ∈ l ++ [prev] := by simp
    have hpb : prev.stop ≤ 65535 := h.bound prev (by simp [hsplit])
    have hmax : ∀ a ∈ l ++ [prev], a.stop ≤ prev.stop := fun a ha =>
      stop_le_last (ho.sublist (sublist_append_left _ l₂)) hp ha
    have hafter : Tailq.after prev frag.frQueue = l₂ := by
      rw [hsplit, append_assoc, singleton_append]
      rw [append_assoc, singleton_append] at ho
      exact Tailq.after_append ho.not_mem
    simp only [hafter]
    rw [← hp]
    by_cases hover : prev.feOff + prev.feLen > e.feOff
    · rw [if_pos hover]
      by_cases haf : frag.frNode.fnAf = .AF_INET6
      · rw [if_pos haf]
        exact ⟨_, rfl, exit_ok h hne _⟩
      rw [if_neg haf]
      have hcut : (prev.feOff + prev.feLen - e.feOff) % 65536 = prev.stop - e.feOff :=
        mod_eq_of_lt (Nat.lt_of_le_of_lt (sub_le _ _) (by rw [stop] at hpb; omega))
      simp only [hcut]
      by_cases hdrop : prev.stop - e.feOff ≥ e.feLen
      · rw [if_pos hdrop]
        exact ⟨_, rfl, exit_ok h hne _⟩
      rw [if_neg hdrop]
      have hcutlt : prev.stop - e.feOff < e.feLen := Nat.lt_of_not_le hdrop
      have hcs : (e.cut (prev.stop - e.feOff)).stop = e.stop := stop_cut hcutlt hb
      have hco : (e.cut (prev.stop - e.feOff)).feOff = prev.stop := by
        rw [stop] at hpb ⊢
        rw [cut_off (by omega)]
        omega
      have hcp : 0 < (e.cut (prev.stop - e.feOff)).feLen := by
        rw [cut_len hcutlt]
        omega
      have hlt : prev.stop < e.stop :=
        calc prev.stop = (e.cut (prev.stop - e.feOff)).feOff := hco.symm
          _ < (e.cut (prev.stop - e.feOff)).stop := Nat.lt_add_of_pos_right hcp
          _ = e.stop := hcs
      refine fillupAfter_spec h hsplit ⟨hcp, hcs ▸ hb, fun a ha => ⟨?_, ?_⟩⟩ ?_
      · rw [hco]
        exact hmax a ha
      · exact mff_before ho hlast hp hend hlt a ha
      · rw [hcs]
        exact hcover
    · rw [if_neg hover]
      have hbefore : prev.stop ≤ e.feOff := Nat.le_of_not_lt hover
      refine fillupAfter_spec h hsplit ⟨hpos, hb, fun a ha => ⟨?_, ?_⟩⟩ hcover
      · exact Nat.le_trans (hmax a ha) hbefore
      · refine mff_before ho hlast hp hend ?_ a ha
        rw [← hstop]
        omega

end Mbsd.Net.PfNorm
