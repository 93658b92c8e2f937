import Mbsd.Kern.SysvSem.Invariant

/-! A call of `sys_semop` is carried out as a whole in its last step, or it changes nothing. -/

namespace Mbsd.Kern.SysvSem

open Mbsd.Sys List Function SysvSem.Sys

variable {π : Type} {r : Sys π × Outcome π}

def Change.IsZero (ch : Change π) : Prop :=
  (∀ i n, ch.vals i n = 0) ∧ ∀ p i n, ch.undos p i n = 0#16

/-- With 0, the values of the set have changed by the whole vector, in the last step of the call.
With an error, no step has changed a value or an undo entry. -/
def Returned.AllOrNothing (r : Returned π) : Prop :=
  match r.error with
  | none => ∃ l last, r.steps = l ++ [last] ∧ (∀ ch ∈ l, ch.IsZero) ∧
      ∀ i num, last.vals i num = if i = r.semid then total r.sops num else 0
  | some _ => ∀ ch ∈ r.steps, ch.IsZero

def EfbigOk (c : Call π) (d : SemidDs) : Prop :=
  (c.walk d).stop = .efbig → ∀ num, shift (c.walk d).passed num = 0#16

def Fits (c : Call π) (d : SemidDs) : Prop :=
  (c.walk d).stop = .through → ∀ num, (d.semBase num).semval.toNat + total c.sops num ≤ 0xffff

variable {s s' s₀ : Sys π} {c : Call π} {d : SemidDs} {i num : Nat}

theorem Sys.val_eq (h : s.sema i = some d) : s.val i num = (d.semBase num).semval.toNat := by
  rw [val, h]

theorem Sys.val_setBase (base : Nat → Sem) (j : Nat) :
    (s.setBase i d base).val j num = if j = i then (base num).semval.toNat else s.val j num := by
  by_cases h : j = i
  · subst h
    simp [val]
  · simp [val, h]

theorem count_semval (base : Nat → Sem) (f : Sembuf) (v : BitVec 16) :
    (count base f v num).semval = (base num).semval := by
  unfold count
  by_cases h : num = f.semNum.toNat
  · subst h
    rw [update_self]
    split <;> rfl
  · rw [update_of_ne h]

theorem Sys.val_count (h : s.sema i = some d) (f : Sembuf) (v : BitVec 16) :
    (s.setBase i d (count d.semBase f v)).val = s.val := by
  funext j num
  rw [val_setBase, count_semval]
  split
  · rename_i hj
    rw [hj, val_eq h]
  · rfl

theorem walk_through (ht : (c.walk d).stop = .through) (hf : Fits c d) (num : Nat) :
    (((c.walk d).semBase num).semval.toNat : Int) =
      (d.semBase num).semval.toNat + total c.sops num := by
  have hstop : StopsAt d.semNsems c.sops (c.walk d).passed (c.walk d).stop := walk_stops ..
  rw [ht] at hstop
  cases hstop with
  | through hpassed =>
  obtain ⟨k, hk⟩ := walk_val d.semNsems c.sops d.semBase num
  rw [← Call.walk, hpassed] at hk
  have := hf ht num
  omega

structure Whole (s : Sys π) : Prop where
  calls : ∀ c ∈ s.calls, ∀ ch ∈ c.steps, ch.IsZero
  returned : ∀ r ∈ s.returned, r.AllOrNothing

theorem Whole.of_steps (h : Whole s) (hc : ∀ c' ∈ s'.calls, ∃ c ∈ s.calls, c'.steps = c.steps)
    (hr : s'.returned = s.returned) : Whole s' where
  calls c' hc' := by
    obtain ⟨c, hm, e⟩ := hc c' hc'
    exact e ▸ h.calls c hm
  returned := hr ▸ h.returned

theorem Sys.awoken_steps {ids : List Nat} : ∀ c' ∈ s.awoken ids, ∃ c ∈ s.calls, c'.steps = c.steps := by
  intro c' hc
  obtain ⟨c, hm, rfl⟩ := mem_map.1 hc
  exact ⟨c, hm, by split <;> rfl⟩

variable [DecidableEq π] {info : Seminfo} {e : Event π} {k : Nat}

theorem Sys.change_isZero (hv : s.val = s₀.val) (hr : s.semu.recorded = s₀.semu.recorded) :
    (s₀.change s).IsZero :=
  ⟨fun i n => by simp [change, hv], fun p i n => by simp [change, hr]⟩

theorem Tried.outcome (hd : s.sema c.semid = some d) (he : EfbigOk c d)
    (hf : Fits c d) (h : Tried info s c d r) :
    (∃ c', r.2 = .goOn c' ∧ c'.steps = c.steps ∧ r.1.val = s.val ∧
      r.1.semu.recorded = s.semu.recorded) ∨
    (∃ error, r.2 = .ret (c.counted d) (some error) ∧ r.1.val = s.val ∧
      r.1.semu.recorded = s.semu.recorded) ∨
    (r.2 = .ret (c.counted d) none ∧ ∀ i num, (r.1.val i num : Int) =
      s.val i num + if i = c.semid then total c.sops num else 0) := by
  cases h with
  | slept _ _ => exact .inl ⟨_, rfl, rfl, val_count hd _ _, rfl⟩
  | failed error _ hr => exact .inr (.inl ⟨error, rfl, rfl, hr⟩)
  | efbig hst =>
    have hbase : (c.walk d).semBase = d.semBase := by
      rw [Call.walk, walk_semBase, ← Call.walk, funext (he hst), addShift_zero]
    rw [hbase, setBase_self hd]
    exact .inr (.inl ⟨_, rfl, rfl, rfl⟩)
  | @done semu hst _ _ =>
    refine .inr (.inr ⟨rfl, fun i num => ?_⟩)
    have hv : (carriedOut s c d semu).val =
        (s.setBase c.semid d (c.walk d).semBase).val := by
      unfold carriedOut
      split <;> rfl
    rw [hv, val_setBase]
    by_cases hi : i = c.semid
    · rw [if_pos hi, if_pos hi, walk_through hst hf, hi, val_eq hd]
    · simp [hi]

section

variable (h : Whole s) (hc : ∀ ch ∈ c.steps, ch.IsZero)

include h hc

theorem Whole.conclude_goOn (hz : (s₀.change s).IsZero) : Whole (s₀.conclude (s, .goOn c)) where
  calls := forall_mem_cons.2
    ⟨forall_mem_append.2 ⟨hc, forall_mem_singleton.2 hz⟩, h.calls⟩
  returned := h.returned

theorem Whole.conclude_error (hz : (s₀.change s).IsZero) (error : Errno) :
    Whole (s₀.conclude (s, .ret c (some error))) where
  calls := h.calls
  returned := forall_mem_cons.2
    ⟨forall_mem_append.2 ⟨hc, forall_mem_singleton.2 hz⟩, h.returned⟩

theorem Whole.conclude_none (hv : ∀ i num, (s.val i num : Int) =
      s₀.val i num + if i = c.semid then total c.sops num else 0) :
    Whole (s₀.conclude (s, .ret c none)) where
  calls := h.calls
  returned := forall_mem_cons.2
    ⟨⟨c.steps, _, rfl, hc, fun i num => by simp [change, hv]⟩, h.returned⟩

theorem Whole.tried (hv : s.val = s₀.val) (hr : s.semu = s₀.semu) (hd : s.sema c.semid = some d)
    (he : EfbigOk c d) (hf : Fits c d) (ht : Tried info s c d r) : Whole (s₀.conclude r) := by
  have h' : Whole r.1 := by
    cases ht with
    | slept _ _ => exact h.of_steps (fun c hc => ⟨c, hc, rfl⟩) rfl
    | failed _ _ _ => exact h.of_steps (fun c hc => ⟨c, hc, rfl⟩) rfl
    | efbig _ => exact h.of_steps (fun c hc => ⟨c, hc, rfl⟩) rfl
    | done _ _ _ =>
      unfold carriedOut
      split
      · exact h.of_steps (wakeup_calls ▸ awoken_steps (s := s)) rfl
      · exact h.of_steps (fun c hc => ⟨c, hc, rfl⟩) rfl
  rcases ht.outcome hd he hf with ⟨c', e, hs, hv', hr'⟩ | ⟨error, e, hv', hr'⟩ | ⟨e, hv'⟩
  all_goals rw [show r = (r.1, r.2) from rfl, e]
  · exact h'.conclude_goOn (hs ▸ hc) (change_isZero (hv'.trans hv) (hr'.trans (hr ▸ rfl)))
  · exact h'.conclude_error hc (change_isZero (hv'.trans hv) (hr'.trans (hr ▸ rfl))) error
  · exact h'.conclude_none hc (hv ▸ hv')

end

theorem Whole.moved (h : Whole s)
    (ho : ∀ c d, Tries s e c d → EfbigOk c d ∧ Fits c d) (hc : s.calls[k]? = some c)
    (hm : Moved info s e k c r) : Whole ((s.drop k).conclude r) := by
  have hz := h.calls c (mem_of_getElem? hc)
  have hdrop : Whole (s.drop k) :=
    h.of_steps (fun c hc => ⟨c, mem_of_mem_eraseIdx hc, rfl⟩) rfl
  have hset (i : Nat) (d : SemidDs) (base : Nat → Sem) : Whole ((s.drop k).setBase i d base) :=
    hdrop.of_steps (fun c hc => ⟨c, hc, rfl⟩) rfl
  cases hm with
  | failed error _ => exact hdrop.conclude_error hz (change_isZero rfl rfl) error
  | @left f _ d _ _ hd =>
    have hbase := hset c.semid d (count d.semBase f (-1))
    exact hbase.conclude_error hz (change_isZero (val_count (s := s.drop k) hd _ _) rfl) _
  | @tried sops _ _ _ _ hd _ htr ht =>
    obtain ⟨he, hf⟩ := ho _ _ htr
    exact hdrop.tried (c := { c with sops }) hz rfl rfl hd he hf ht
  | retried _ _ hd hd' htr ht =>
    obtain ⟨he, hf⟩ := ho _ _ htr
    subst hd'
    exact (hset c.semid _ _).tried hz (val_count (s := s.drop k) hd _ _) rfl (by simp) he hf ht

theorem Whole.stepped (h : Whole s) (ho : ∀ c d, Tries s e c d → EfbigOk c d ∧ Fits c d)
    (hs : Stepped info s e s') : Whole s' := by
  cases hs with
  | same => exact h
  | @refused c error hsteps hsops =>
    have hz : ∀ ch ∈ c.steps, ch.IsZero := by simp [hsteps]
    cases error with
    | none => exact h.conclude_none hz fun i num => by simp [hsops]
    | some error => exact h.conclude_error hz (change_isZero rfl rfl) error
  | asked hsteps _ _ _ _ _ =>
    exact h.conclude_goOn (by simp [hsteps]) (change_isZero rfl rfl)
  | moved hc hm => exact h.moved ho hc hm
  | setval _ _ _ _ _ => exact h.of_steps (wakeup_calls ▸ awoken_steps (s := s)) rfl
  | setall _ _ => exact h.of_steps (wakeup_calls ▸ awoken_steps (s := s)) rfl
  | @removed ix semtot _ _ =>
    refine h.of_steps (fun c' hc' => ?_) rfl
    obtain ⟨c, hc, e⟩ := awoken_steps (s := ({ s with semtot } : Sys π).free ix) c'
      (by rwa [SysvSem.removed, wakeup_calls] at hc')
    obtain ⟨c₀, hc₀, rfl⟩ := mem_map.1 hc
    exact ⟨c₀, hc₀, e.trans (by split <;> rfl)⟩
  | created _ => exact h.of_steps (fun c hc => ⟨c, hc, rfl⟩) rfl
  | gone _ => exact h.of_steps (fun c hc => ⟨c, hc, rfl⟩) rfl
  | exited _ hx =>
    refine h.of_steps (fun c hc => ?_) hx.returned
    rw [setSemu_calls, hx.calls] at hc
    exact awoken_steps (s := s) c hc

/-- In every run in which no vector comes to an operation beyond the set after others that do not
cancel out, and none overflows a `semval`. -/
theorem semop_all_or_nothing
    (h : Run info (fun s e => Sound s e ∧ ∀ c d, Tries s e c d → EfbigOk c d ∧ Fits c d) s) :
    ∀ r ∈ s.returned, r.AllOrNothing :=
  (Run.induct (P := Whole) (fun _ _ ho => ho.1) ⟨by simp [seminit], by simp [seminit]⟩
    (fun _ _ _ _ hw ho hs => hw.stepped ho.2 hs) h).2.returned

/-- A process asks for one semaphore and counts it up. -/
theorem semop_all_or_nothing_up : ∃ s : Sys Unit,
    Run defaults (fun s e => Sound s e ∧ ∀ c d, Tries s e c d → EfbigOk c d ∧ Fits c d) s ∧
      s.val 0 0 = 1 ∧ s.returned.length = 1 ∧ ∀ r ∈ s.returned, r.AllOrNothing := by
  have h₀ : Run defaults
    (fun s e => Sound s e ∧ ∀ c d, Tries s e c d → EfbigOk c d ∧ Fits c d) (seminit : Sys Unit) :=
    .seminit
  have h₁ := h₀.step rfl rfl (by exact ⟨trivial, fun _ _ ht => by cases ht⟩) (.semget 0 1 false false none)
  have h₂ := h₁.step rfl rfl (by exact ⟨trivial, fun _ _ ht => by cases ht⟩) (.semop () 0x10000 none 1)
  have h₃ := h₂.step rfl rfl (by
      refine ⟨⟨by simp [Sembuf.records], fun _ _ => rfl, ?_⟩, ?_⟩
      · rintro c ⟨⟩
        rfl
      · rintro _ _ ⟨⟨⟩, -, -, ⟨⟩⟩
        exact ⟨by rintro ⟨⟩, fun _ num => by rw [total_cons]; split <;> simp⟩)
    (.copied (k := 0) (.ok [⟨0, 1, false, false⟩]) (fun _ _ => true) rfl rfl (by rintro _ ⟨⟩; rfl))
  exact ⟨_, h₃, rfl, rfl, semop_all_or_nothing h₃⟩

/-- An operation beyond the set, after one that is carried out. -/
theorem not_semop_all_or_nothing :
    ¬∀ s : Sys Unit, Run defaults (fun _ _ => True) s → ∀ r ∈ s.returned, r.AllOrNothing := by
  intro h
  have h₀ : Run defaults (fun _ _ => True) (seminit : Sys Unit) := .seminit
  have h₁ := h₀.step rfl rfl trivial (.semget 0 1 false false none)
  have h₂ := h₁.step rfl rfl trivial (.semop () 0x10000 none 2)
  have h₃ := h₂.step rfl rfl trivial
    (.copied (k := 0) (.ok [⟨0, 1, false, false⟩, ⟨1, 1, false, false⟩]) (fun _ _ => true) rfl rfl
      (by rintro _ ⟨⟩; rfl))
  have hall := h _ h₃ _ (mem_cons_self ..) _ (mem_cons_of_mem _ (mem_singleton.2 rfl))
  exact absurd (hall.1 0 0) (by decide)

end Mbsd.Kern.SysvSem
