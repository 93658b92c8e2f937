import Mathlib.Data.Sum.Basic

/-! Programs over an array of cells that show every read and every write: what they compute, which
cells they touch, and the rules for both. -/

namespace Mbsd.Lib.CellProg

open Option

/-- A recursion that runs out of fuel is not a panic. -/
inductive Prog (ι γ α : Type)
  | ret (a : α)
  | panic
  | outOfFuel
  | read (i : ι) (k : γ → Prog ι γ α)
  | write (i : ι) (c : γ) (p : Prog ι γ α)

namespace Prog

variable {ι κ γ α β : Type}

def bind : Prog ι γ α → (α → Prog ι γ β) → Prog ι γ β
  | ret a, f => f a
  | panic, _ => panic
  | outOfFuel, _ => outOfFuel
  | read i k, f => read i fun c => (k c).bind f
  | write i c p, f => write i c (p.bind f)

instance : Monad (Prog ι γ) where
  pure := ret
  bind := bind

def get (i : ι) : Prog ι γ γ := read i ret

def modify (i : ι) (f : γ → γ) : Prog ι γ Unit := read i fun c => write i (f c) (ret ())

def when (b : Prop) [Decidable b] (p : Prog ι γ Unit) : Prog ι γ Unit :=
  if b then p else ret ()

section Runs

variable [DecidableEq ι] {P P' : ι → Prop} {Q Q' : α → (ι → γ) → Prop} {s : ι → γ} {i : ι} {c : γ}
  {p : Prog ι γ α}

/-- A panic is a result, and it is `none`. -/
def run : Prog ι γ α → (ι → γ) → Option (Option (α × (ι → γ)))
  | ret a, s => some (some (a, s))
  | panic, _ => some none
  | outOfFuel, _ => none
  | read i k, s => (k (s i)).run s
  | write i c p, s => p.run (Function.update s i c)

/-- Every cell that is touched is in `P`, the fuel is enough, and what is computed is in `Q`. -/
def Runs (P : ι → Prop) (Q : α → (ι → γ) → Prop) : Prog ι γ α → (ι → γ) → Prop
  | ret a, s => Q a s
  | panic, _ => True
  | outOfFuel, _ => False
  | read i k, s => P i ∧ Runs P Q (k (s i)) s
  | write i c p, s => P i ∧ Runs P Q p (Function.update s i c)

/-- Every cell that is touched is in `P`, and the fuel is enough. -/
def Touches (P : ι → Prop) (p : Prog ι γ α) (s : ι → γ) : Prop := p.Runs P (fun _ _ => True) s

@[simp] theorem runs_bind {p : Prog ι γ β} {f : β → Prog ι γ α} :
    (p >>= f).Runs P Q s ↔ p.Runs P (fun a s => (f a).Runs P Q s) s := by
  induction p generalizing s with
  | ret a => rfl
  | panic => rfl
  | outOfFuel => rfl
  | read i k ih => exact and_congr_right fun _ => ih _
  | write i c p ih => exact and_congr_right fun _ => ih

theorem runs_when {b : Prop} [Decidable b] {p : Prog ι γ Unit} {Q : Unit → (ι → γ) → Prop}
    (hyes : b → p.Runs P Q s) (hno : ¬b → Q () s) : (Prog.when b p).Runs P Q s := by
  rw [Prog.when]
  split
  next hb => exact hyes hb
  next hb => exact hno hb

section

variable (hp : p.Runs P Q s)

include hp

theorem Runs.mono (hQ : ∀ a s, Q a s → Q' a s) : p.Runs P Q' s := by
  induction p generalizing s with
  | ret a => exact hQ a s hp
  | panic => trivial
  | outOfFuel => exact hp
  | read i k ih => exact ⟨hp.1, ih _ hp.2⟩
  | write i c p ih => exact ⟨hp.1, ih hp.2⟩

theorem Runs.within (hP : ∀ i, P i → P' i) : p.Runs P' Q s := by
  induction p generalizing s with
  | ret a => exact hp
  | panic => trivial
  | outOfFuel => exact hp
  | read i k ih => exact ⟨hP i hp.1, ih _ hp.2⟩
  | write i c p ih => exact ⟨hP i hp.1, ih hp.2⟩

theorem Runs.touches : p.Touches P s := hp.mono fun _ _ _ => trivial

theorem Runs.result {a : α} {s' : ι → γ} (hrun : p.run s = some (some (a, s'))) : Q a s' := by
  induction p generalizing s with
  | ret b =>
    cases hrun
    exact hp
  | panic => cases hrun
  | outOfFuel => cases hrun
  | read i k ih => exact ih _ hp.2 hrun
  | write i c p ih => exact ih hp.2 hrun

theorem Runs.run_ne_none : p.run s ≠ none := by
  induction p generalizing s with
  | ret a => exact some_ne_none _
  | panic => exact some_ne_none _
  | outOfFuel => exact hp.elim
  | read i k ih => exact ih _ hp.2
  | write i c p ih => exact ih hp.2

end

end Runs

section Gives

variable [DecidableEq ι] {s s' : ι → γ} {i : ι} {c : γ}

/-- What the program computes, if it does not run out of fuel, is in `R`. -/
def Gives (p : Prog ι γ α) (s : ι → γ) (R : Option (α × (ι → γ)) → Prop) : Prop :=
  ∀ r, p.run s = some r → R r

variable {R R' : Option (α × (ι → γ)) → Prop} {p : Prog ι γ α}

@[simp] theorem gives_pure {a : α} : (pure a : Prog ι γ α).Gives s R ↔ R (some (a, s)) :=
  ⟨fun h => h _ rfl, fun h _ hr => some.inj hr ▸ h⟩

@[simp] theorem gives_outOfFuel : (outOfFuel : Prog ι γ α).Gives s R :=
  fun _ hr => nomatch hr

@[simp] theorem gives_modify_bind {g : γ → γ} {f : Unit → Prog ι γ α} :
    (modify i g >>= f).Gives s R ↔ (f ()).Gives (Function.update s i (g (s i))) R := Iff.rfl

theorem run_bind (p : Prog ι γ β) (f : β → Prog ι γ α) (s : ι → γ) :
    (p >>= f).run s = (p.run s).bind fun r => r.elim (some none) fun (a, s) => (f a).run s := by
  induction p generalizing s with
  | ret a => rfl
  | panic => rfl
  | outOfFuel => rfl
  | read i k ih => exact ih _ _
  | write i c p ih => exact ih _

theorem Gives.bind {p : Prog ι γ β} {f : β → Prog ι γ α} {T : Option (β × (ι → γ)) → Prop}
    (hp : p.Gives s T) (hnone : T none → R none)
    (hsome : ∀ a s', T (some (a, s')) → (f a).Gives s' R) : (p >>= f).Gives s R := by
  intro r hr
  rw [run_bind] at hr
  cases hrun : p.run s with
  | none =>
    rw [hrun] at hr
    cases hr
  | some u =>
    rw [hrun] at hr
    have hu := hp u hrun
    cases u with
    | none =>
      cases hr
      exact hnone hu
    | some q => exact hsome q.1 q.2 hu r hr

end Gives

section Sum

/-- The program on the second of two arrays. -/
def inr : Prog κ γ α → Prog (ι ⊕ κ) γ α
  | ret a => ret a
  | panic => panic
  | outOfFuel => outOfFuel
  | read i k => read (.inr i) fun c => (k c).inr
  | write i c p => write (.inr i) c p.inr

variable [DecidableEq ι] [DecidableEq κ] {s : ι → γ} {t : κ → γ}

@[simp] theorem runs_inr {P : ι ⊕ κ → Prop} {Q : α → (ι ⊕ κ → γ) → Prop} {p : Prog κ γ α} :
    p.inr.Runs P Q (Sum.elim s t) ↔
      p.Runs (fun i => P (.inr i)) (fun a t => Q a (Sum.elim s t)) t := by
  induction p generalizing t with
  | ret a => rfl
  | panic => rfl
  | outOfFuel => rfl
  | read i k ih => exact and_congr_right fun _ => ih _
  | write i c p ih =>
    refine and_congr_right fun _ => ?_
    rw [← Sum.elim_update_right]
    exact ih

end Sum

end Prog

end Mbsd.Lib.CellProg
