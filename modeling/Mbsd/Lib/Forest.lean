import Mathlib.Tactic.Common

/-! Ordered forests: a first tree, with the forest of its children, and the trees behind it. -/

namespace Mbsd.Lib

open List Option

inductive Forest (α : Type)
  | nil
  | node (a : α) (children rest : Forest α)

namespace Forest

variable {α β : Type} {a b x : α} {f g cs rest bs r : Forest α}

def map (k : α → β) : Forest α → Forest β
  | nil => nil
  | node a cs rest => node (k a) (cs.map k) (rest.map k)

/-- All nodes, each before its children and these before the trees behind it. -/
def preorder : Forest α → List α
  | nil => []
  | node a cs rest => a :: cs.preorder ++ rest.preorder

def head : Forest α → Option α
  | nil => none
  | node a _ _ => some a

/-- The roots of the trees, with their children. -/
def tops : Forest α → List (α × Forest α)
  | nil => []
  | node a cs rest => (a, cs) :: rest.tops

/-- `f` is what is left of the children of a node of `g`, or of `g` itself. -/
inductive Sub : Forest α → Forest α → Prop
  | refl (f : Forest α) : Sub f f
  | children {f cs rest : Forest α} {a : α} (h : Sub f cs) : Sub f (node a cs rest)
  | rest {f cs rest : Forest α} {a : α} (h : Sub f rest) : Sub f (node a cs rest)

theorem Sub.trans (h : Sub f g) (h' : Sub g r) : Sub f r := by
  induction h' with
  | refl => exact h
  | children _ ih => exact .children ih
  | rest _ ih => exact .rest ih

theorem Sub.mem (h : Sub (node a cs rest) f) : a ∈ f.preorder := by
  induction h with
  | refl =>
    rw [preorder, cons_append]
    exact mem_cons_self
  | children _ ih =>
    rw [preorder]
    exact mem_append_left _ (mem_cons_of_mem _ ih)
  | rest _ ih =>
    rw [preorder]
    exact mem_append_right _ ih

theorem exists_sub (h : a ∈ f.preorder) : ∃ cs rest, Sub (node a cs rest) f := by
  induction f with
  | nil => cases h
  | node b cs rest ihc ihr =>
    rw [preorder, cons_append] at h
    rcases mem_cons.mp h with rfl | h
    · exact ⟨cs, rest, .refl _⟩
    · rcases mem_append.mp h with h | h
      · obtain ⟨cs', rest', hsub⟩ := ihc h
        exact ⟨cs', rest', hsub.children⟩
      · obtain ⟨cs', rest', hsub⟩ := ihr h
        exact ⟨cs', rest', hsub.rest⟩

theorem sub_of_tops (h : (a, cs) ∈ f.tops) : ∃ rest, Sub (node a cs rest) f := by
  induction f with
  | nil => cases h
  | node b bs rest _ ihr =>
    rcases mem_cons.mp h with heq | h
    · cases heq
      exact ⟨rest, .refl _⟩
    · obtain ⟨rest', hsub⟩ := ihr h
      exact ⟨rest', hsub.rest⟩

theorem mem_preorder_of_tops (h : (a, cs) ∈ f.tops) : a ∈ f.preorder := by
  obtain ⟨rest, hsub⟩ := sub_of_tops h
  exact hsub.mem

section Parent

variable [DecidableEq β] {key : α → β}

/-- The node above the one with the key `k`, which is `above` for the roots. -/
def parentIn (key : α → β) (above : α) : Forest α → β → Option α
  | nil, _ => none
  | node a cs rest, k =>
    if key a = k then some above else (cs.parentIn key a k).or (rest.parentIn key above k)

theorem parentIn_eq_none {above : α} {k : β} (h : ∀ a ∈ f.preorder, key a ≠ k) :
    f.parentIn key above k = none := by
  induction f generalizing above with
  | nil => rfl
  | node a cs rest ihc ihr =>
    rw [preorder, cons_append] at h
    rw [parentIn, if_neg (h a mem_cons_self),
      ihc fun b hb => h b (mem_cons_of_mem _ (mem_append_left _ hb)),
      ihr fun b hb => h b (mem_cons_of_mem _ (mem_append_right _ hb))]
    rfl

theorem parentIn_tops {above : α} (h : (x, cs) ∈ f.tops) (hnodup : (f.preorder.map key).Nodup) :
    f.parentIn key above (key x) = some above := by
  induction f with
  | nil => cases h
  | node a bs rest _ ihr =>
    rw [parentIn]
    split
    · rfl
    · next hne =>
      rw [preorder, cons_append, map_cons, map_append] at hnodup
      obtain ⟨-, hrest, hdisj⟩ := nodup_append.mp (nodup_cons.mp hnodup).2
      have hx : (x, cs) ∈ rest.tops := by
        rcases mem_cons.mp h with heq | h
        · cases heq
          exact absurd rfl hne
        · exact h
      have hmem : key x ∈ rest.preorder.map key := mem_map_of_mem (mem_preorder_of_tops hx)
      rw [parentIn_eq_none fun b hb => hdisj _ (mem_map_of_mem hb) _ hmem, none_or]
      exact ihr hx hrest

theorem parentIn_sub {above : α} (hsub : Sub (node a cs rest) f) (h : (x, bs) ∈ cs.tops)
    (hnodup : (f.preorder.map key).Nodup) : f.parentIn key above (key x) = some a := by
  have hbelow : ∀ g, Sub (node a cs rest) g → key x ∈ g.preorder.map key := fun g hg => by
    obtain ⟨cs', rest', hx⟩ := exists_sub (mem_preorder_of_tops h)
    exact mem_map_of_mem ((hx.children).trans hg).mem
  induction hsub generalizing above with
  | refl =>
    rw [preorder, cons_append, map_cons, map_append] at hnodup
    obtain ⟨hnot, hrest⟩ := nodup_cons.mp hnodup
    have hx : key x ∈ cs.preorder.map key := mem_map_of_mem (mem_preorder_of_tops h)
    rw [parentIn, if_neg fun heq => hnot (mem_append_left _ (by rw [heq]; exact hx)),
      parentIn_tops h (nodup_append.mp hrest).1]
    rfl
  | @children cs' rest' b hsub ih =>
    rw [preorder, cons_append, map_cons, map_append] at hnodup
    obtain ⟨hnot, hrest⟩ := nodup_cons.mp hnodup
    have hmem := hbelow _ hsub
    rw [parentIn, if_neg fun heq => hnot (mem_append_left _ (by rw [heq]; exact hmem)),
      ih (nodup_append.mp hrest).1]
    rfl
  | @rest cs' rest' b hsub ih =>
    rw [preorder, cons_append, map_cons, map_append] at hnodup
    obtain ⟨hnot, hrest⟩ := nodup_cons.mp hnodup
    obtain ⟨-, hrest', hdisj⟩ := nodup_append.mp hrest
    have hmem := hbelow _ hsub
    rw [parentIn, if_neg fun heq => hnot (mem_append_right _ (by rw [heq]; exact hmem)),
      parentIn_eq_none fun c hc => hdisj _ (mem_map_of_mem hc) _ hmem, none_or, ih hrest']

theorem parentIn_root (hsub : Sub (node b bs rest) (node a cs nil)) (h : (x, g) ∈ bs.tops)
    (hnodup : ((node a cs nil).preorder.map key).Nodup) :
    key a ≠ key x ∧ cs.parentIn key a (key x) = some b := by
  rw [preorder, preorder, append_nil, map_cons] at hnodup
  obtain ⟨hnot, hcs⟩ := nodup_cons.mp hnodup
  obtain ⟨rest', hx⟩ := sub_of_tops h
  cases hsub with
  | refl =>
    exact ⟨fun heq => hnot (heq ▸ mem_map_of_mem hx.mem), parentIn_tops h hcs⟩
  | children hsub =>
    have hmem := (hx.children.trans hsub).mem
    exact ⟨fun heq => hnot (heq ▸ mem_map_of_mem hmem), parentIn_sub hsub h hcs⟩
  | rest hsub => cases hsub

end Parent

end Forest

end Mbsd.Lib
