import Mbsd.Lib.Ring

/-! What a computation that may fail yields: something bad, or a result with a property. -/

namespace Mbsd.Lib.Yields

variable {α β : Type} {bad : Prop} {post post' : α → Prop} {mid : β → Prop} {r : Option α}

def Yields (bad : Prop) (post : α → Prop) : Option α → Prop
  | none => bad
  | some a => post a

namespace Yields

theorem imp (h : Yields bad post r) (himp : ∀ a, post a → post' a) : Yields bad post' r := by
  cases r with
  | none => exact h
  | some a => exact himp a h

theorem mono {bad' : Prop} (h : Yields bad post r) (hbad : bad → bad') : Yields bad' post r := by
  cases r with
  | none => exact hbad h
  | some a => exact h

theorem bind {r : Option β} {k : β → Option α} (h : Yields bad mid r)
    (hk : ∀ b, mid b → Yields bad post (k b)) : Yields bad post (r.bind k) := by
  cases r with
  | none => exact h
  | some b => exact hk b h

theorem map {r : Option β} {k : β → α} (h : Yields bad mid r) (hk : ∀ b, mid b → post (k b)) :
    Yields bad post (r.map k) := by
  cases r with
  | none => exact h
  | some b => exact hk b h

theorem result (h : Yields bad post r) (hbad : ¬bad) : ∃ a, r = some a ∧ post a := by
  cases r with
  | none => exact absurd h hbad
  | some a => exact ⟨a, rfl, h⟩

end Yields

end Mbsd.Lib.Yields

/-! Loops and recursions with a bound on their rounds, which they stay below when it is large
enough. -/

namespace Mbsd.Lib.Fuel

variable {α β : Type} {f g : Nat → Option α} {a b : α} {c : β}

/-- With enough rounds the result is `a`. -/
def Returns (f : Nat → Option α) (a : α) : Prop := ∃ N, ∀ n ≥ N, f n = some a

namespace Returns

theorem some (a : α) : Returns (fun _ => some a) a := ⟨0, fun _ _ => rfl⟩

section

variable (h : Returns f a)

include h

theorem congr (heq : ∀ n, g n = f n) : Returns g a := by
  obtain ⟨N, h⟩ := h
  exact ⟨N, fun n hn => (heq n).trans (h n hn)⟩

theorem round (heq : ∀ n, g (n + 1) = f n) : Returns g a := by
  obtain ⟨N, h⟩ := h
  refine ⟨N + 1, fun n hn => ?_⟩
  obtain ⟨n, rfl⟩ := Nat.exists_eq_add_of_le' (Nat.le_trans (Nat.le_add_left 1 N) hn)
  exact (heq n).trans (h n (Nat.le_of_succ_le_succ hn))

theorem bind {k : Nat → α → Option β} (hk : Returns (fun n => k n a) c) :
    Returns (fun n => (f n).bind (k n)) c := by
  obtain ⟨N, h⟩ := h
  obtain ⟨M, hk⟩ := hk
  refine ⟨max N M, fun n hn => ?_⟩
  show (f n).bind (k n) = _
  rw [h n (Nat.le_trans (Nat.le_max_left N M) hn)]
  exact hk n (Nat.le_trans (Nat.le_max_right N M) hn)

theorem map (k : α → β) : Returns (fun n => (f n).map k) (k a) := by
  obtain ⟨N, h⟩ := h
  exact ⟨N, fun n hn => congrArg (Option.map k) (h n hn)⟩

theorem congr_value (heq : a = b) : Returns f b := heq ▸ h

theorem unique (h' : Returns f b) : a = b := by
  obtain ⟨N, h⟩ := h
  obtain ⟨M, h'⟩ := h'
  have heq := (h (max N M) (Nat.le_max_left N M)).symm.trans (h' _ (Nat.le_max_right N M))
  exact Option.some.inj heq

end

end Returns

end Mbsd.Lib.Fuel

/-! Computations that may fail, with the states that they go through. -/

namespace Mbsd.Lib.Trace

open List Option

def Traced (σ α : Type) := Option (List σ × α)

namespace Traced

variable {σ α β : Type} {x : Traced σ α} {f : α → Traced σ β} {s : σ}

instance : Monad (Traced σ) where
  pure a := some ([], a)
  bind x f := Option.bind x fun r => Option.map (fun r' => (r.1 ++ r'.1, r'.2)) (f r.2)

/-- A computation that shows nothing. -/
instance : MonadLift Option (Traced σ) := ⟨Option.map ([], ·)⟩

/-- The computation is in the state `s` now. -/
def visit (s : σ) : Traced σ σ := some ([s], s)

/-- The result alone. -/
def erase (x : Traced σ α) : Option α := Option.map Prod.snd x

@[simp] theorem erase_pure (a : α) : erase (pure a : Traced σ α) = some a := rfl

@[simp] theorem erase_visit (s : σ) : erase (visit s) = some s := rfl

@[simp] theorem erase_lift (x : Option α) : erase (liftM x : Traced σ α) = x := by
  cases x <;> rfl

@[simp] theorem erase_bind (x : Traced σ α) (f : α → Traced σ β) :
    erase (x >>= f) = (erase x).bind fun a => erase (f a) := by
  cases x with
  | none => rfl
  | some r =>
    change Option.map Prod.snd (Option.map _ (f r.2)) = Option.map Prod.snd (f r.2)
    cases f r.2 <;> rfl

theorem bind_eq_some {log : List σ} {b : β} (h : x >>= f = some (log, b)) :
    ∃ log₁ log₂ a, x = some (log₁, a) ∧ f a = some (log₂, b) ∧ log = log₁ ++ log₂ := by
  obtain ⟨⟨log₁, a⟩, hx, h⟩ := bind_eq_some_iff.mp h
  obtain ⟨⟨log₂, b'⟩, hf, h⟩ := map_eq_some_iff.mp h
  cases h
  exact ⟨log₁, log₂, a, hx, hf, rfl⟩

theorem erase_of_eq {log : List σ} {a : α} (h : x = some (log, a)) : erase x = some a := by
  rw [h]
  rfl

theorem exists_of_erase {a : α} (h : erase x = some a) : ∃ log, x = some (log, a) := by
  obtain ⟨⟨log, a'⟩, hx, rfl⟩ := map_eq_some_iff.mp h
  exact ⟨log, hx⟩

/-- Each state of the log is a step from the one before it, the first one from `s`, and from the
last one to `t` there is none. -/
def Follows (step still : σ → σ → Prop) (t : σ) : σ → List σ → Prop
  | s, [] => still s t
  | s, u :: log => step s u ∧ Follows step still t u log

class Stutters (step still : σ → σ → Prop) : Prop where
  refl : ∀ s, still s s
  trans : ∀ {s t u}, still s t → still t u → still s u
  before : ∀ {s t u}, still s t → step t u → step s u

variable {step step' still still' : σ → σ → Prop} {last : α → σ} {last' : β → σ} {t u : σ}
  {log log' : List σ}

instance : Stutters step Eq := ⟨fun _ => rfl, Eq.trans, fun h h' => h ▸ h'⟩

namespace Follows

/-- The states on the way lie between the first and the last one. -/
theorem between (rel : σ → σ → Prop) (htrans : ∀ {s t u}, rel s t → rel t u → rel s u)
    (hstep : ∀ s t, step s t → rel s t) (hstill : ∀ s t, still s t → rel s t)
    (h : Follows step still t s log) : rel s t ∧ ∀ u ∈ log, rel s u ∧ rel u t := by
  induction log generalizing s with
  | nil => exact ⟨hstill s t h, fun u hu => absurd hu not_mem_nil⟩
  | cons v log ih =>
    obtain ⟨hvt, hlog⟩ := ih h.2
    have hsv := hstep s v h.1
    refine ⟨htrans hsv hvt, fun u hu => ?_⟩
    rcases mem_cons.mp hu with rfl | hu
    · exact ⟨hsv, hvt⟩
    · exact ⟨htrans hsv (hlog u hu).1, (hlog u hu).2⟩

theorem imp (hstep : ∀ s, ∀ u ∈ log, step s u → step' s u) (hstill : ∀ s t, still s t → still' s t)
    (h : Follows step still t s log) : Follows step' still' t s log := by
  induction log generalizing s with
  | nil => exact hstill s t h
  | cons v log ih =>
    exact ⟨hstep s v mem_cons_self h.1, ih (fun s u hu => hstep s u (mem_cons_of_mem v hu)) h.2⟩

theorem exists_step (h : Follows step still t s log) (hu : u ∈ log) : ∃ v, step v u := by
  induction log generalizing s with
  | nil => exact absurd hu not_mem_nil
  | cons v log ih =>
    rcases mem_cons.mp hu with rfl | hu
    · exact ⟨s, h.1⟩
    · exact ih h.2 hu

variable [Stutters step still]

theorem after (hs : still s u) (h : Follows step still t u log) : Follows step still t s log := by
  cases log with
  | nil => exact Stutters.trans step hs h
  | cons v log => exact ⟨Stutters.before hs h.1, h.2⟩

theorem append (h : Follows step still t s log) (h' : Follows step still u t log') :
    Follows step still u s (log ++ log') := by
  induction log generalizing s with
  | nil => exact h'.after h
  | cons v log ih => exact ⟨h.1, ih h.2⟩

end Follows

/-- The computation begins in `s` and ends in the state of its result. -/
def Steps (step still : σ → σ → Prop) (s : σ) (last : α → σ) (x : Traced σ α) : Prop :=
  ∀ log a, x = some (log, a) → Follows step still (last a) s log

namespace Steps

theorem pure {a : α} (h : still s (last a)) : Steps step still s last (pure a : Traced σ α) := by
  rintro log b ⟨⟩
  exact h

theorem lift {x : Option α} (h : ∀ a, x = some a → still s (last a)) :
    Steps step still s last (liftM x : Traced σ α) := by
  intro log a hx
  obtain ⟨b, hb, heq⟩ := map_eq_some_iff.mp hx
  cases heq
  exact h a hb

theorem none : Steps step still s last (liftM (none : Option α) : Traced σ α) :=
  lift fun _ h => absurd h.symm (some_ne_none _)

variable [Stutters step still]

theorem keep (x : Option α) : Steps step still s (fun _ => s) (liftM x : Traced σ α) :=
  lift fun _ _ => Stutters.refl step s

theorem visit (h : step s t) : Steps step still s id (visit t) := by
  rintro log u ⟨⟩
  exact ⟨h, Stutters.refl step t⟩

theorem bind (hx : Steps step still s last x)
    (hf : ∀ a, erase x = some a → Steps step still (last a) last' (f a)) :
    Steps step still s last' (x >>= f) := by
  intro log b h
  obtain ⟨log₁, log₂, a, hxa, hfa, rfl⟩ := bind_eq_some h
  exact (hx log₁ a hxa).append (hf a (erase_of_eq hxa) log₂ b hfa)

theorem after (hs : still s t) (h : Steps step still t last x) : Steps step still s last x :=
  fun log a hx => (h log a hx).after hs

end Steps

end Traced

end Mbsd.Lib.Trace

/-! Runs of consecutive cells of a store, and what a write makes of them. -/

namespace Mbsd.Lib.Run

open List

open RingSlice (put put_of_lt put_of_ge put_add)

variable {c c' : Nat → α} {l new : List α}

def run (c : Nat → α) (p n : Nat) : List α := (List.range n).map fun i => c (p + i)

@[simp] theorem length_run : (run c p n).length = n := by rw [run, length_map, length_range]

@[simp] theorem run_zero : run c p 0 = [] := rfl

@[simp] theorem getElem_run (h : i < (run c p n).length) : (run c p n)[i] = c (p + i) := by
  simp only [run, getElem_map, getElem_range]

theorem run_add (c : Nat → α) (p m n : Nat) : run c p (m + n) = run c p m ++ run c (p + m) n := by
  simp only [run, range_add, map_append, map_map, Function.comp_def, Nat.add_assoc]

theorem run_congr (h : ∀ i < n, c (p + i) = c' (q + i)) : run c p n = run c' q n :=
  map_congr_left fun i hi => h i (mem_range.1 hi)

theorem take_run (h : k ≤ n) : (run c p n).take k = run c p k := by
  obtain ⟨j, rfl⟩ := Nat.exists_eq_add_of_le h
  rw [run_add, take_left' length_run]

theorem drop_run (h : k ≤ n) : (run c p n).drop k = run c (p + k) (n - k) := by
  obtain ⟨j, rfl⟩ := Nat.exists_eq_add_of_le h
  rw [run_add, drop_left' length_run, Nat.add_sub_cancel_left]

theorem put_run_self (h : l.length = n) : run (put c p l) p n = l := by
  refine ext_getElem (by rw [length_run, h]) fun i hi hi' => ?_
  rw [getElem_run, put_add hi']

theorem run_put_of_disjoint (h : p + n ≤ q ∨ q + l.length ≤ p) : run (put c q l) p n = run c p n :=
  run_congr fun i hi => by
    rcases h with h | h
    · exact put_of_lt (by omega)
    · exact put_of_ge (by omega)

/-- What `new` makes of a list when it is copied over it from the place `k` on. -/
def overwrite (l : List α) (k : Nat) (new : List α) : List α :=
  l.take k ++ new ++ l.drop (k + new.length)

theorem getElem?_overwrite_mid (hk : k ≤ i) (hi : i < k + new.length) (hl : k ≤ l.length) :
    (overwrite l k new)[i]? = new[i - k]? := by
  have htake : (l.take k).length = k := length_take_of_le hl
  rw [overwrite, append_assoc, getElem?_append_right (by omega), htake,
    getElem?_append_left (by omega)]

theorem getElem?_overwrite_of_not (hi : i < k ∨ k + new.length ≤ i) (hl : k ≤ l.length) :
    (overwrite l k new)[i]? = l[i]? := by
  have htake : (l.take k).length = k := length_take_of_le hl
  rw [overwrite, append_assoc]
  rcases hi with hi | hi
  · rw [getElem?_append_left (by omega), getElem?_take_of_lt hi]
  · rw [getElem?_append_right (by omega), htake, getElem?_append_right (by omega), getElem?_drop]
    congr 1
    omega

theorem overwrite_left (l r : List α) (h : k + new.length ≤ l.length) :
    overwrite (l ++ r) k new = overwrite l k new ++ r := by
  rw [overwrite, overwrite, take_append_of_le_length (by omega),
    drop_append_of_le_length h, append_assoc _ _ r]

theorem overwrite_right (l r new : List α) (k : Nat) :
    overwrite (l ++ r) (l.length + k) new = l ++ overwrite r k new := by
  simp only [overwrite, Nat.add_assoc, take_length_add_append, drop_length_add_append, append_assoc]

theorem overwrite_end (l new : List α) : overwrite l l.length new = l ++ new := by
  rw [overwrite, take_length, drop_eq_nil_of_le (Nat.le_add_right ..), append_nil]

theorem overwrite_past (l : List α) (hnew : l.length ≤ k + j) :
    overwrite l k (new.take j) ++ new.drop j = overwrite l k new := by
  rcases Nat.le_total j new.length with hj | hj
  · have htake : (new.take j).length = j := by rw [length_take]; omega
    rw [overwrite, overwrite, htake, drop_eq_nil_of_le hnew,
      drop_eq_nil_of_le (show l.length ≤ k + new.length by omega), append_nil,
      append_nil, append_assoc, take_append_drop]
  · rw [take_of_length_le hj, drop_eq_nil_of_le hj, append_nil]

theorem overwrite_across (l r new : List α) (h : k ≤ l.length) (hnew : l.length ≤ k + new.length) :
    overwrite (l ++ r) k new =
      overwrite l k (new.take (l.length - k)) ++ overwrite r 0 (new.drop (l.length - k)) := by
  have htake : (new.take (l.length - k)).length = l.length - k := by rw [length_take]; omega
  have hdrop : k + new.length = l.length + (new.length - (l.length - k)) := by omega
  have hend : l.drop (k + (l.length - k)) = [] := drop_eq_nil_of_le (by omega)
  rw [overwrite, overwrite, overwrite, htake, hend, take_append_of_le_length h, hdrop,
    drop_length_add_append, length_drop]
  simp only [append_nil, take_zero, nil_append, Nat.zero_add, append_assoc]
  rw [← append_assoc (new.take _), take_append_drop]

theorem run_put (h : k + l.length ≤ n) : run (put c (p + k) l) p n = overwrite (run c p n) k l := by
  obtain ⟨j, rfl⟩ := Nat.exists_eq_add_of_le h
  rw [overwrite, take_run (by omega), drop_run (by omega), Nat.add_assoc, run_add, run_add,
    run_put_of_disjoint (.inl (Nat.le_refl _)), put_run_self rfl, ← Nat.add_assoc,
    run_put_of_disjoint (.inr (by omega)), append_assoc]
  congr 3
  omega

theorem run_put_max (c : Nat → α) (p : Nat) (l : List α) (h : k ≤ n) :
    run (put c (p + k) l) p (max n (k + l.length)) = overwrite (run c p n) k l := by
  rcases Nat.le_total (k + l.length) n with hle | hle
  · rw [Nat.max_eq_left hle, run_put hle]
  · rw [Nat.max_eq_right hle, run_add, run_put_of_disjoint (.inl (Nat.le_refl _)),
      put_run_self rfl, overwrite, take_run h, drop_eq_nil_of_le (by rw [length_run]; exact hle),
      append_nil]

theorem run_put_append (c : Nat → α) (p n : Nat) (l : List α) :
    run (put c (p + n) l) p (n + l.length) = run c p n ++ l := by
  rw [run_add, run_put_of_disjoint (.inl (Nat.le_refl _)), put_run_self rfl]

end Mbsd.Lib.Run
