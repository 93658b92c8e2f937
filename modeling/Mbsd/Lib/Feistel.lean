import Mathlib.Data.Set.Function

/-! Feistel networks whose two halves may be of different kinds. -/

namespace Mbsd.Lib.Feistel

open Function

variable {α β γ : Type} {opL : α → α → α} {opR : β → β → β}

/-- An operation that undoes itself, as exclusive or does. -/
def Undoes (op : β → β → β) : Prop := ∀ y k, op (op y k) k = y

/-- The left half changes the right one. -/
def mixRight (op : β → β → β) (f : α → β) (s : α × β) : α × β := (s.1, op s.2 (f s.1))

/-- The right half changes the left one. -/
def mixLeft (op : α → α → α) (g : β → α) (s : α × β) : α × β := (op s.1 (g s.2), s.2)

theorem Undoes.mixRight (h : Undoes opR) (f : α → β) :
    Involutive (mixRight opR f) := fun s => Prod.ext rfl (h s.2 (f s.1))

theorem Undoes.mixLeft (h : Undoes opL) (g : β → α) :
    Involutive (mixLeft opL g) := fun s => Prod.ext (h s.1 (g s.2)) rfl

theorem bijOn_of_involutive {f : γ → γ} {S : Set γ} (h : Involutive f)
    (hS : Set.MapsTo f S S) : Set.BijOn f S S :=
  ⟨hS, h.injective.injOn, fun y hy => ⟨f y, hS hy, h y⟩⟩

/-- `n` pairs of rounds, the first of which has the number `r`. -/
def doubleRounds (opL : α → α → α) (opR : β → β → β) (f : Nat → α → β) (g : Nat → β → α) :
    Nat → Nat → α × β → α × β
  | 0, _, s => s
  | n + 1, r, s =>
    doubleRounds opL opR f g n (r + 2) (mixLeft opL (g (r + 1)) (mixRight opR (f r) s))

theorem doubleRounds_bijOn {f : Nat → α → β} {g : Nat → β → α} {S : Set (α × β)}
    (hL : Undoes opL) (hR : Undoes opR) (hf : ∀ r, Set.MapsTo (mixRight opR (f r)) S S)
    (hg : ∀ r, Set.MapsTo (mixLeft opL (g r)) S S) (n r : Nat) :
    Set.BijOn (doubleRounds opL opR f g n r) S S := by
  induction n generalizing r with
  | zero => exact Set.bijOn_id S
  | succ n ih =>
    have hright := bijOn_of_involutive (hR.mixRight (f r)) (hf r)
    have hleft := bijOn_of_involutive (hL.mixLeft (g (r + 1))) (hg (r + 1))
    exact (ih (r + 2)).comp (hleft.comp hright)

end Mbsd.Lib.Feistel
