import Mathlib.Logic.Relation

/-! Relations without cycles, and what one more edge does to them. -/

namespace Mbsd.Lib

open Relation

variable {α : Type} {r r' : α → α → Prop} {x y : α}

def Acyclic (r : α → α → Prop) : Prop := ∀ a, ¬ TransGen r a a

theorem Acyclic.mono (h : Acyclic r) (hle : ∀ a b, r' a b → r a b) : Acyclic r' :=
  fun a ha => h a (TransGen.mono hle _ _ ha)

theorem transGen_insert (hle : ∀ a b, r' a b → r a b ∨ a = x ∧ b = y) {a b : α}
    (h : TransGen r' a b) : TransGen r a b ∨ ReflTransGen r a x ∧ ReflTransGen r y b := by
  induction h with
  | single hab =>
    rcases hle _ _ hab with hab | ⟨rfl, rfl⟩
    · exact .inl (.single hab)
    · exact .inr ⟨.refl, .refl⟩
  | tail _ hbc ih =>
    rcases hle _ _ hbc with hbc | ⟨rfl, rfl⟩
    · rcases ih with hab | ⟨hax, hyb⟩
      · exact .inl (hab.tail hbc)
      · exact .inr ⟨hax, hyb.tail hbc⟩
    · rcases ih with hab | ⟨hax, hyb⟩
      · exact .inr ⟨hab.to_reflTransGen, .refl⟩
      · exact .inr ⟨hax, .refl⟩

theorem Acyclic.insert (h : Acyclic r) (hle : ∀ a b, r' a b → r a b ∨ a = x ∧ b = y)
    (hyx : ¬ ReflTransGen r y x) : Acyclic r' := by
  intro a ha
  rcases transGen_insert hle ha with haa | ⟨hax, hya⟩
  · exact h a haa
  · exact hyx (hya.trans hax)

end Mbsd.Lib
