import Mbsd.Kern.SysvSem.Semu

/-! What a vector of operations does to the semaphores of a set. -/

namespace Mbsd.Kern.SysvSem

open List BitVec Function SysvSem.Sys Walk

variable {passed pre post : List Sembuf} {f : Sembuf} {k : Nat}

def shift (ops : List Sembuf) (num : Nat) : BitVec 16 :=
  ((ops.filter fun op => op.semNum.toNat = num).map (·.semOp)).sum

def total (ops : List Sembuf) (num : Nat) : Int :=
  ((ops.filter fun op => op.semNum.toNat = num).map (·.semOp.toInt)).sum

variable {ops ops' : List Sembuf} {op : Sembuf} {num nsems : Nat} {base : Nat → Sem}

@[simp] theorem shift_nil : shift [] num = 0#16 := rfl

@[simp] theorem total_nil : total [] num = 0 := rfl

theorem shift_cons : shift (op :: ops) num =
    (if op.semNum.toNat = num then op.semOp else 0#16) + shift ops num := by
  by_cases h : op.semNum.toNat = num <;> simp [shift, h]

theorem total_cons : total (op :: ops) num =
    (if op.semNum.toNat = num then op.semOp.toInt else 0) + total ops num := by
  by_cases h : op.semNum.toNat = num <;> simp [total, h]

theorem total_append : total (ops ++ ops') num = total ops num + total ops' num := by
  simp [total]

def addShift (base : Nat → Sem) (f : Nat → BitVec 16) (num : Nat) : Sem :=
  { base num with semval := (base num).semval + f num }

theorem addShift_addShift (f g : Nat → BitVec 16) :
    addShift (addShift base f) g = addShift base fun num => f num + g num := by
  funext num
  simp [addShift, add_assoc]

theorem addShift_zero : addShift base (fun _ => 0#16) = base := by
  funext num
  simp [addShift]

theorem addVal_eq (v : BitVec 16) :
    addVal base num v = addShift base fun n => if num = n then v else 0#16 := by
  funext n
  by_cases h : num = n
  · subst h
    simp [addVal, addShift]
  · simp [addVal, addShift, h, Ne.symm h]

theorem addVal_zero : addVal base num 0#16 = base := by
  simp [addVal]

theorem rollback_eq (ops : List Sembuf) (base : Nat → Sem) :
    rollback ops base = addShift base fun num => -shift ops num := by
  induction ops generalizing base with
  | nil => simpa [rollback] using addShift_zero.symm
  | cons op ops ih =>
    rw [rollback, foldl_cons, ← rollback, ih, addVal_eq, addShift_addShift]
    congr 1
    funext num
    rw [shift_cons]
    split
    · ring
    · simp

theorem add_overflow (v x : BitVec 16) (h : x.toInt < 0 → 0 ≤ v.toNat + x.toInt) :
    ∃ j : Nat, (v.toNat : Int) + x.toInt = (v + x).toNat + 0x10000 * j := by
  rw [toNat_add]
  by_cases hs : 2 * x.toNat < 2 ^ 16
  · rw [toInt_eq_toNat_of_lt hs] at h ⊢
    exact ⟨(v.toNat + x.toNat) / 2 ^ 16, by omega⟩
  · have hi : x.toInt = x.toNat - 2 ^ 16 := by
      rw [toInt_eq_toNat_cond, if_neg hs]
      norm_num
    rw [hi] at h ⊢
    exact ⟨0, by omega⟩

inductive StopsAt (nsems : Nat) (ops : List Sembuf) (passed : List Sembuf) : Stop → Prop
  | through : passed = ops → StopsAt nsems ops passed .through
  | blocked {op : Sembuf} {rest : List Sembuf} : ops = passed ++ op :: rest →
      op.semNum.toNat < nsems → StopsAt nsems ops passed (.blocked op)
  | efbig {op : Sembuf} {rest : List Sembuf} : ops = passed ++ op :: rest →
      nsems ≤ op.semNum.toNat → StopsAt nsems ops passed .efbig

theorem StopsAt.cons {stop : Stop} (h : StopsAt nsems ops passed stop) :
    StopsAt nsems (op :: ops) (op :: passed) stop := by
  cases h with
  | through e => exact .through (by rw [e])
  | blocked e hn => exact .blocked (by rw [e, List.cons_append]) hn
  | efbig e hn => exact .efbig (by rw [e, List.cons_append]) hn

/-- The operation is carried out, and the walk goes on. -/
def Passes (nsems : Nat) (op : Sembuf) (ops : List Sembuf) (base : Nat → Sem) : Prop :=
  op.semNum.toNat < nsems ∧
    (op.semOp.toInt < 0 → 0 ≤ (base op.semNum.toNat).semval.toNat + op.semOp.toInt) ∧
    (op.semOp = 0#16 → (base op.semNum.toNat).semval = 0#16) ∧
    ∃ wakes, (wakes = true ↔
        (op.semOp.toInt < 0 ∧ (base op.semNum.toNat).semval + op.semOp = 0#16 ∧
          0#16 < (base op.semNum.toNat).semzcnt) ∨
        (0 < op.semOp.toInt ∧ 0#16 < (base op.semNum.toNat).semncnt)) ∧
      walk nsems (op :: ops) base =
        (walk nsems ops (addVal base op.semNum.toNat op.semOp)).pass op wakes

theorem walk_cons (nsems : Nat) (op : Sembuf) (ops : List Sembuf) (base : Nat → Sem) :
    (nsems ≤ op.semNum.toNat ∧ walk nsems (op :: ops) base = ⟨base, [], .efbig, false, 0⟩) ∨
    (op.semNum.toNat < nsems ∧
      ((op.semOp.toInt < 0 ∧ (base op.semNum.toNat).semval.toNat + op.semOp.toInt < 0) ∨
        (op.semOp = 0#16 ∧ (base op.semNum.toNat).semval ≠ 0#16)) ∧
      walk nsems (op :: ops) base = ⟨base, [], .blocked op, false, 0⟩) ∨
    Passes nsems op ops base := by
  by_cases hn : nsems ≤ op.semNum.toNat
  · exact .inl ⟨hn, by simp [walk, hn]⟩
  by_cases hneg : op.semOp.toInt < 0
  · have hz : op.semOp ≠ 0#16 := by
      rintro e
      simp [e] at hneg
    by_cases hb : (base op.semNum.toNat).semval.toNat + op.semOp.toInt < 0
    · exact .inr (.inl ⟨by omega, .inl ⟨hneg, hb⟩, by simp [walk, hn, hneg, hb]⟩)
    · have hpos : ¬0 < op.semOp.toInt := by omega
      refine .inr (.inr ⟨by omega, by omega, fun e => absurd e hz,
        (base op.semNum.toNat).semval + op.semOp = 0#16 && 0#16 < (base op.semNum.toNat).semzcnt,
        by simp [hneg, hpos], ?_⟩)
      simp [walk, hn, hneg, hb]
  by_cases hz : op.semOp = 0#16
  · by_cases hb : (base op.semNum.toNat).semval = 0#16
    · refine .inr (.inr ⟨by omega, by omega, fun _ => hb, false, by simp [hz], ?_⟩)
      simp [walk, hn, hz, hb, addVal_zero]
    · refine .inr (.inl ⟨by omega, .inr ⟨hz, hb⟩, ?_⟩)
      have : 0#16 < (base op.semNum.toNat).semval := (BitVec.pos_iff_ne_zero _).2 hb
      simp [walk, hn, hz, this]
  · have hpos : 0 < op.semOp.toInt := by
      have : op.semOp.toInt ≠ 0 := fun e => hz (eq_of_toInt_eq (by simpa using e))
      omega
    refine .inr (.inr ⟨by omega, by omega, fun e => absurd e hz,
      decide (0#16 < (base op.semNum.toNat).semncnt), by simp [hneg, hpos], ?_⟩)
    simp [walk, hn, hneg, hz]

section

variable (nsems : Nat) (ops : List Sembuf) (base : Nat → Sem)

theorem walk_stops : StopsAt nsems ops (walk nsems ops base).passed (walk nsems ops base).stop := by
  induction ops generalizing base with
  | nil => exact .through rfl
  | cons op ops ih =>
    rcases walk_cons nsems op ops base with
      ⟨hn, e⟩ | ⟨hn, -, e⟩ | ⟨-, -, -, wakes, -, e⟩
    · rw [e]
      exact .efbig (nil_append _).symm hn
    · rw [e]
      exact .blocked (nil_append _).symm hn
    · rw [e]
      exact (ih _).cons

theorem walk_passed_lt : ∀ op ∈ (walk nsems ops base).passed, op.semNum.toNat < nsems := by
  induction ops generalizing base with
  | nil => simp [walk]
  | cons op ops ih =>
    rcases walk_cons nsems op ops base with ⟨-, e⟩ | ⟨-, -, e⟩ | ⟨hn, -, -, _, -, e⟩
    · simp [e]
    · simp [e]
    · rw [e]
      exact forall_mem_cons.2 ⟨hn, ih _⟩

theorem walk_semBase :
    (walk nsems ops base).semBase = addShift base (shift (walk nsems ops base).passed) := by
  induction ops generalizing base with
  | nil => exact addShift_zero.symm
  | cons op ops ih =>
    rcases walk_cons nsems op ops base with ⟨-, e⟩ | ⟨-, -, e⟩ | ⟨-, -, -, _, -, e⟩
    · rw [e]
      exact addShift_zero.symm
    · rw [e]
      exact addShift_zero.symm
    · rw [e, Walk.pass]
      change (walk nsems ops _).semBase = _
      rw [ih, addVal_eq, addShift_addShift]
      congr 1
      funext num
      rw [shift_cons]

end

theorem rollback_addShift (ops : List Sembuf) (base : Nat → Sem) :
    rollback ops (addShift base (shift ops)) = base := by
  rw [rollback_eq, addShift_addShift]
  simp [addShift_zero]

theorem rollback_walk (nsems : Nat) (ops : List Sembuf) (base : Nat → Sem) :
    rollback (walk nsems ops base).passed (walk nsems ops base).semBase = base := by
  rw [walk_semBase, rollback_addShift]

theorem walk_val (nsems : Nat) (ops : List Sembuf) (base : Nat → Sem) (num : Nat) :
    ∃ k : Nat, (base num).semval.toNat + total (walk nsems ops base).passed num =
      ((walk nsems ops base).semBase num).semval.toNat + 0x10000 * k := by
  induction ops generalizing base with
  | nil => exact ⟨0, by simp [walk]⟩
  | cons op ops ih =>
    rcases walk_cons nsems op ops base with
      ⟨-, e⟩ | ⟨-, -, e⟩ | ⟨-, hneg, -, _, -, e⟩
    · exact ⟨0, by simp [e]⟩
    · exact ⟨0, by simp [e]⟩
    · obtain ⟨k, hk⟩ := ih (addVal base op.semNum.toNat op.semOp)
      rw [e, Walk.pass]
      change ∃ k : Nat, _ + total (op :: (walk nsems ops _).passed) num =
        ((walk nsems ops _).semBase num).semval.toNat + _
      rw [total_cons]
      by_cases hn : op.semNum.toNat = num
      · have hadd : (addVal base op.semNum.toNat op.semOp num).semval =
            (base num).semval + op.semOp := by
          simp [addVal, hn]
        rw [hadd] at hk
        rw [hn] at hneg
        obtain ⟨j, hj⟩ := add_overflow (base num).semval op.semOp hneg
        refine ⟨k + j, ?_⟩
        rw [if_pos hn]
        push_cast
        omega
      · have hadd : (addVal base op.semNum.toNat op.semOp num).semval = (base num).semval := by
          simp [addVal, Ne.symm hn]
        rw [hadd] at hk
        exact ⟨k, by rw [if_neg hn]; omega⟩

/-! ### Vectors that overflow nothing -/

def NoOverflow (passed : List Sembuf) (base : Nat → Sem) : Prop :=
  ∀ pre op post, passed = pre ++ op :: post →
    (base op.semNum.toNat).semval.toNat + total pre op.semNum.toNat + op.semOp.toInt ≤ 0xffff

def Wakes (ops : List Sembuf) (base : Nat → Sem) : Prop :=
  ∃ pre op post, ops = pre ++ op :: post ∧
    ((0 < op.semOp.toInt ∧ 0#16 < (base op.semNum.toNat).semncnt) ∨
      (op.semOp.toInt < 0 ∧
        (base op.semNum.toNat).semval.toNat + total pre op.semNum.toNat + op.semOp.toInt = 0 ∧
        0#16 < (base op.semNum.toNat).semzcnt))

theorem NoOverflow.le (h : NoOverflow passed base) (num : Nat) :
    (base num).semval.toNat + total passed num ≤ 0xffff := by
  induction passed using reverseRecOn with
  | nil =>
    simp only [total_nil]
    omega
  | append_singleton passed op ih =>
    rw [total_append, total_cons, total_nil]
    by_cases hn : op.semNum.toNat = num
    · have := h passed op [] rfl
      rw [if_pos hn]
      rw [hn] at this
      omega
    · have := ih fun pre op' post e => h pre op' (post ++ [op]) (by simp [e])
      rw [if_neg hn]
      omega

theorem NoOverflow.walk (h : NoOverflow (walk nsems ops base).passed base)
    (num : Nat) : (((walk nsems ops base).semBase num).semval.toNat : Int) =
      (base num).semval.toNat + total (walk nsems ops base).passed num := by
  obtain ⟨k, hk⟩ := walk_val nsems ops base num
  have := h.le num
  omega

theorem walk_pass {op' : Sembuf} (h : (walk nsems (op :: ops) base).passed = op' :: passed) :
    op = op' ∧ passed = (walk nsems ops (addVal base op.semNum.toNat op.semOp)).passed ∧
      Passes nsems op ops base := by
  rcases walk_cons nsems op ops base with
    ⟨-, e⟩ | ⟨-, -, e⟩ | ⟨hn, hneg, hz, wakes, hw, e⟩
  · simp [e] at h
  · simp [e] at h
  · rw [e] at h
    obtain ⟨rfl, rfl⟩ := cons.inj h
    exact ⟨rfl, rfl, hn, hneg, hz, wakes, hw, e⟩

theorem walk_take (h : (walk nsems ops base).passed = pre ++ post) :
    (walk nsems pre base).passed = pre := by
  induction pre generalizing ops base with
  | nil => rfl
  | cons x pre ih =>
    cases ops with
    | nil => simp [walk] at h
    | cons op ops =>
      obtain ⟨rfl, hpassed, hn, hneg, hz, -⟩ := walk_pass h
      have hrest := ih hpassed.symm
      rcases walk_cons nsems op pre base with
        ⟨hge, -⟩ | ⟨-, hb, -⟩ | ⟨-, -, -, _, -, e⟩
      · omega
      · rcases hb with ⟨h₁, h₂⟩ | ⟨h₁, h₂⟩
        · exact absurd (hneg h₁) (by omega)
        · exact absurd (hz h₁) h₂
      · rw [e, Walk.pass, hrest]

theorem walk_prefix_nonneg (h : (walk nsems ops base).passed = pre ++ post) (num : Nat) :
    0 ≤ (base num).semval.toNat + total pre num := by
  obtain ⟨k, hk⟩ := walk_val nsems pre base num
  rw [walk_take h] at hk
  omega

theorem walk_blocked (h : (walk nsems ops base).stop = .blocked f) :
    (f.semOp.toInt < 0 ∧
        ((walk nsems ops base).semBase f.semNum.toNat).semval.toNat + f.semOp.toInt < 0) ∨
      (f.semOp = 0#16 ∧ ((walk nsems ops base).semBase f.semNum.toNat).semval ≠ 0#16) := by
  induction ops generalizing base with
  | nil => simp [walk] at h
  | cons op ops ih =>
    rcases walk_cons nsems op ops base with
      ⟨-, e⟩ | ⟨-, hb, e⟩ | ⟨-, -, -, _, -, e⟩
    · simp [e] at h
    · rw [e] at h ⊢
      cases h
      exact hb
    · rw [e] at h ⊢
      exact ih h

theorem walk_doWakeup (ops : List Sembuf) (base : Nat → Sem)
    (hno : NoOverflow (walk nsems ops base).passed base)
    (h : Wakes (walk nsems ops base).passed base) : (walk nsems ops base).doWakeup = true := by
  obtain ⟨pre, x, post, hsplit, hx⟩ := h
  induction pre generalizing ops base with
  | nil =>
    cases ops with
    | nil => simp [walk] at hsplit
    | cons op ops =>
      obtain ⟨rfl, -, -, -, -, wakes, hw, e⟩ := walk_pass hsplit
      have : wakes = true := by
        refine hw.2 ?_
        rcases hx with h | ⟨h₁, h₂, h₃⟩
        · exact .inr h
        · refine .inl ⟨h₁, ?_, h₃⟩
          obtain ⟨j, hj⟩ := add_overflow (base op.semNum.toNat).semval op.semOp (by
            intro
            simp only [total_nil] at h₂
            omega)
          rw [total_nil] at h₂
          have hsum : ((base op.semNum.toNat).semval + op.semOp).toNat = 0 := by omega
          exact eq_of_toNat_eq hsum
      rw [e, Walk.pass, this, Bool.true_or]
  | cons y pre ih =>
    cases ops with
    | nil => simp [walk] at hsplit
    | cons op ops =>
      obtain ⟨rfl, hpassed, -, hneg, -, wakes, -, e⟩ := walk_pass hsplit
      have hval (num : Nat) : (((addVal base op.semNum.toNat op.semOp num).semval.toNat : Nat) : Int) =
          (base num).semval.toNat + if op.semNum.toNat = num then op.semOp.toInt else 0 := by
        by_cases hn : op.semNum.toNat = num
        · have hle := hno [] op (pre ++ x :: post) hsplit
          obtain ⟨j, hj⟩ := add_overflow (base op.semNum.toNat).semval op.semOp hneg
          rw [total_nil] at hle
          subst hn
          simp only [addVal, update_self, if_true]
          omega
        · simp [addVal, Ne.symm hn, hn]
      have hcnt (num : Nat) : (addVal base op.semNum.toNat op.semOp num).semncnt =
          (base num).semncnt ∧ (addVal base op.semNum.toNat op.semOp num).semzcnt =
          (base num).semzcnt := by
        rw [addVal_eq]
        exact ⟨rfl, rfl⟩
      have hrest := ih ops (addVal base op.semNum.toNat op.semOp) ?_ hpassed.symm ?_
      · rw [e, Walk.pass, hrest, Bool.or_true]
      · intro pre' op' post' he
        have hle := hno (op :: pre') op' post'
          (hsplit.trans (congrArg (op :: ·) (hpassed.trans he)))
        rw [total_cons] at hle
        rw [hval]
        omega
      · rw [total_cons] at hx
        rw [(hcnt _).1, (hcnt _).2, hval]
        rcases hx with h | ⟨h₁, h₂, h₃⟩
        · exact .inl h
        · exact .inr ⟨h₁, by omega, h₃⟩

theorem exists_drain {v : Int} (hn : ∀ pre post, ops = pre ++ post → 0 ≤ v + total pre num)
    (hz : v + total ops num = 0) (hv : v ≠ 0) :
    ∃ pre op post, ops = pre ++ op :: post ∧ op.semNum.toNat = num ∧ op.semOp.toInt < 0 ∧
      v + total pre num + op.semOp.toInt = 0 := by
  induction ops using reverseRecOn with
  | nil => exact absurd (by simpa using hz) hv
  | append_singleton ops op ih =>
    have hnn := hn ops [op] rfl
    rw [total_append, total_cons, total_nil] at hz
    by_cases hop : op.semNum.toNat = num ∧ op.semOp.toInt < 0
    · rw [if_pos hop.1] at hz
      exact ⟨ops, op, [], rfl, hop.1, hop.2, by omega⟩
    · have hz' : v + total ops num = 0 := by
        by_cases hnum : op.semNum.toNat = num
        · have hnot : ¬op.semOp.toInt < 0 := fun h => hop ⟨hnum, h⟩
          rw [if_pos hnum] at hz
          omega
        · rw [if_neg hnum] at hz
          omega
      obtain ⟨pre, x, post, e, hx⟩ :=
        ih (fun pre post e => hn pre (post ++ [op]) (by simp [e])) hz'
      exact ⟨pre, x, post ++ [op], by simp [e], hx⟩

theorem total_nonpos (h : ∀ op ∈ ops, op.semNum.toNat = num → op.semOp.toInt ≤ 0) :
    total ops num ≤ 0 := by
  induction ops with
  | nil => simp
  | cons op ops ih =>
    obtain ⟨ho, h⟩ := forall_mem_cons.1 h
    have := ih h
    rw [total_cons]
    split
    · rename_i hn
      omega
    · omega

/-! What a step can do, as long as nobody works on a set that has been freed, no `semu_alloc` has to
wait, and the numbers of the semaphores with undo entries fit in a `short`. -/

open Mbsd.Sys

variable {π : Type}

/-! ### The small updates -/

namespace Sys

variable (s : Sys π) (i : Nat) (d : SemidDs) (base : Nat → Sem) (semu : Semu π) (ms : List (Mark π))

@[simp] theorem wakeup_sema : (s.wakeup i).sema = s.sema := rfl
@[simp] theorem wakeup_panicked : (s.wakeup i).panicked = s.panicked := rfl
@[simp] theorem wakeup_undefined : (s.wakeup i).undefined = s.undefined := rfl
@[simp] theorem setBase_sema :
    (s.setBase i d base).sema = update s.sema i (some { d with semBase := base }) := rfl
@[simp] theorem setBase_panicked : (s.setBase i d base).panicked = s.panicked := rfl
@[simp] theorem setBase_undefined : (s.setBase i d base).undefined = s.undefined := rfl
@[simp] theorem setSemu_sema : (s.setSemu semu).sema = s.sema := rfl
@[simp] theorem setSemu_semu : (s.setSemu semu).semu = semu := rfl
@[simp] theorem setSemu_calls : (s.setSemu semu).calls = s.calls := rfl
@[simp] theorem setSemu_log : (s.setSemu semu).log = s.log := rfl
@[simp] theorem setSemu_panicked : (s.setSemu semu).panicked = s.panicked := rfl
@[simp] theorem setSemu_undefined : (s.setSemu semu).undefined = s.undefined := rfl
@[simp] theorem mark_sema : (s.mark ms).sema = s.sema := rfl
@[simp] theorem mark_semu : (s.mark ms).semu = s.semu := rfl
@[simp] theorem mark_calls : (s.mark ms).calls = s.calls := rfl
@[simp] theorem mark_panicked : (s.mark ms).panicked = s.panicked := rfl
@[simp] theorem mark_undefined : (s.mark ms).undefined = s.undefined := rfl
@[simp] theorem drop_sema (k : Nat) : (s.drop k).sema = s.sema := rfl
@[simp] theorem drop_semu (k : Nat) : (s.drop k).semu = s.semu := rfl
@[simp] theorem drop_panicked (k : Nat) : (s.drop k).panicked = s.panicked := rfl
@[simp] theorem drop_undefined (k : Nat) : (s.drop k).undefined = s.undefined := rfl

variable {s i d} in
theorem setBase_self (h : s.sema i = some d) : s.setBase i d d.semBase = s := by
  rw [setBase, update_eq_self_iff.2 h.symm]

theorem setBase_setBase (base' : Nat → Sem) :
    (s.setBase i d base).setBase i { d with semBase := base } base' = s.setBase i d base' := by
  simp [setBase]

theorem setSemu_setBase : (s.setBase i d base).setSemu semu = (s.setSemu semu).setBase i d base := rfl

end Sys

variable [DecidableEq π] {info : Seminfo} {s : Sys π} {c : Call π} {d : SemidDs}
  {pool : Bool → Nat → Bool}

def Call.walk (c : Call π) (d : SemidDs) : Walk :=
  Mbsd.Kern.SysvSem.walk d.semNsems c.sops d.semBase

def Call.counted (c : Call π) (d : SemidDs) : Call π :=
  { c with doUndos := c.doUndos + (c.walk d).doUndos }

def carriedOut (s : Sys π) (c : Call π) (d : SemidDs) (semu : Semu π) : Sys π :=
  let s := (s.setBase c.semid d (c.walk d).semBase).setSemu semu
  let s := s.mark ((c.sops.filter (·.undo)).map (.undo c.proc c.semid ·))
  if (c.walk d).doWakeup then s.wakeup c.semid else s

inductive Tried (info : Seminfo) (s : Sys π) (c : Call π) (d : SemidDs) : Sys π × Outcome π → Prop
  | slept {f : Sembuf} : (c.walk d).stop = .blocked f → f.nowait = false → Tried info s c d
      (s.setBase c.semid d (count d.semBase f 1),
        .goOn { c.counted d with i := (c.walk d).passed.length, phase := .asleep f false })
  | failed {semu : Semu π} (error : Errno) : semu.Wf info → semu.recorded = s.semu.recorded →
      Tried info s c d (s.setSemu semu, .ret (c.counted d) (some error))
  | efbig : (c.walk d).stop = .efbig → Tried info s c d
      (s.setBase c.semid d (c.walk d).semBase, .ret (c.counted d) (some .EFBIG))
  | done {semu : Semu π} : (c.walk d).stop = .through → semu.Wf info →
      semu.recorded = bumpAll c.proc c.semid c.sops s.semu.recorded →
      Tried info s c d (carriedOut s c d semu, .ret (c.counted d) none)

theorem bumpAll_of_records_eq_false {p : π} {semid : Nat}
    {f : π → Nat → Int → BitVec 16} (h : ∀ op ∈ ops, op.records = false) :
    bumpAll p semid ops f = f := by
  induction ops generalizing f with
  | nil => rfl
  | cons op ops ih =>
    obtain ⟨ho, h⟩ := forall_mem_cons.1 h
    simpa [bumpAll, ho] using ih h

theorem walk_doUndos (h : (walk nsems ops base).doUndos = 0) :
    ∀ op ∈ (walk nsems ops base).passed, op.records = false := by
  induction ops generalizing base with
  | nil => simp [walk]
  | cons op ops ih =>
    rcases walk_cons nsems op ops base with ⟨-, e⟩ | ⟨-, -, e⟩ | ⟨-, -, -, _, -, e⟩
    · simp [e]
    · simp [e]
    · rw [e, Walk.pass] at h ⊢
      obtain ⟨h₁, h₂⟩ := Nat.add_eq_zero_iff.1 h
      exact forall_mem_cons.2 ⟨by simpa using h₁, ih h₂⟩

theorem semopTry_spec (hw : s.semu.Wf info) (hd : s.sema c.semid = some d)
    (hpool : ∀ b k, pool b k = true) (hs : ∀ op ∈ c.sops, op.records = true → Short op.semNum) :
    Tried info s c d (semopTry info pool s c d) := by
  have hroll : rollback (c.walk d).passed (c.walk d).semBase = d.semBase := rollback_walk ..
  have hfail (e : Errno) : Tried info s c d (s, .ret (c.counted d) (some e)) := .failed e hw rfl
  have hstop : StopsAt d.semNsems c.sops (c.walk d).passed (c.walk d).stop := walk_stops ..
  unfold semopTry
  rw [← Call.walk]
  simp only [hroll, setBase_self hd]
  cases hst : (c.walk d).stop with
  | efbig => exact .efbig hst
  | blocked f =>
    dsimp only
    split
    · exact hfail _
    split
    · exact hfail _
    · rename_i hn
      exact .slept hst (by simpa using hn)
  | through =>
    rw [hst] at hstop
    cases hstop with
    | through hpassed =>
    dsimp only
    split
    case isFalse => exact hfail _
    by_cases hz : c.doUndos + (c.walk d).doUndos = 0
    · have hno : ∀ op ∈ c.sops, op.records = false := by
        rw [← hpassed]
        exact walk_doUndos (Nat.add_eq_zero_iff.1 hz).2
      rw [if_pos hz]
      exact .done hst hw (bumpAll_of_records_eq_false hno).symm
    · rw [if_neg hz]
      rcases undoForward_spec c.proc c.semid hpool hs hw .nil with
        ⟨semu, e, h', hr⟩ | ⟨error, semu, e, h', hr⟩
      · rw [e]
        exact .done hst h' hr
      · rw [hpassed] at hroll
        rw [e, semopDone]
        rw [hroll, setSemu_setBase, setBase_setBase, setBase_self (s := s.setSemu semu) hd]
        exact .failed error h' hr

/-! ### The calls under way -/

inductive Tries (s : Sys π) : Event π → Call π → SemidDs → Prop
  | copied {k : Nat} {c : Call π} {d : SemidDs} {sops : List Sembuf} {pool : Bool → Nat → Bool} :
      s.calls[k]? = some c → c.phase = .copyin → c.freed = false → s.sema c.semid = some d →
      Tries s (.copied k (.ok sops) pool) { c with sops } d
  | resumed {k : Nat} {c : Call π} {d : SemidDs} {f : Sembuf} {awake : Bool} {stale : BitVec 16}
      {pool : Bool → Nat → Bool} :
      s.calls[k]? = some c → c.phase = .asleep f awake → c.freed = false →
      s.sema c.semid = some d →
      Tries s (.resumed k false stale pool) c { d with semBase := count d.semBase f (-1) }

/-- Nobody works on a set that has been freed, and no `pool_get` waits.  A process has no undo entry
for a semaphore from `0x8000` on. -/
def Sound (s : Sys π) : Event π → Prop
  | .copied k (.ok sops) pool =>
    (∀ op ∈ sops, op.records = true → Short op.semNum) ∧ (∀ b j, pool b j = true) ∧
      ∀ c, s.calls[k]? = some c → c.freed = false
  | .resumed k _ stale pool =>
    (∀ b j, pool b j = true) ∧
      ∀ c, s.calls[k]? = some c → c.freed = true → s.sema c.semid = none ∨ stale ≠ c.seq
  | _ => True

def Sys.shape (s : Sys π) (i : Nat) : Option (BitVec 16 × Nat) :=
  (s.sema i).map fun d => (d.seq, d.semNsems)

structure Call.Ok (s : Sys π) (c : Call π) : Prop where
  phase : ∀ rest doWakeup, c.phase ≠ .alloc rest doWakeup
  short : ∀ op ∈ c.sops, op.records = true → Short op.semNum
  alive : c.freed = false → ∃ n, s.shape c.semid = some (c.seq, n)

structure Inv (info : Seminfo) (s : Sys π) : Prop where
  semu : s.semu.Wf info
  calls : ∀ c ∈ s.calls, c.Ok s
  refers : ∀ p i n, s.semu.recorded p i n ≠ 0#16 →
    ∃ seq nsems, s.shape i = some (seq, nsems) ∧ 0 ≤ n ∧ n < nsems
  panicked : s.panicked = false
  undefined : s.undefined = false

theorem Inv.alive (h : Inv info s) (hc : c ∈ s.calls) (hf : c.freed = false) :
    ∃ d, s.sema c.semid = some d ∧ d.seq = c.seq := by
  obtain ⟨n, hn⟩ := (h.calls c hc).alive hf
  obtain ⟨d, hd, e⟩ := Option.map_eq_some_iff.1 hn
  exact ⟨d, hd, congrArg Prod.fst e⟩

inductive Moved (info : Seminfo) (s : Sys π) (e : Event π) (k : Nat) (c : Call π) :
    Sys π × Outcome π → Prop
  | failed (error : Errno) : c.phase = .copyin ∨ c.freed = true →
      Moved info s e k c (s.drop k, .ret c (some error))
  | left {f : Sembuf} {awake : Bool} {d : SemidDs} : c.phase = .asleep f awake → c.freed = false →
      s.sema c.semid = some d → Moved info s e k c
        ((s.drop k).setBase c.semid d (count d.semBase f (-1)), .ret c (some .EINTR))
  | tried {sops : List Sembuf} {d : SemidDs} {r : Sys π × Outcome π} : c.phase = .copyin →
      c.freed = false → s.sema c.semid = some d →
      (∀ op ∈ sops, op.records = true → Short op.semNum) → Tries s e { c with sops } d →
      Tried info (s.drop k) { c with sops } d r → Moved info s e k c r
  | retried {f : Sembuf} {awake : Bool} {d d' : SemidDs} {r : Sys π × Outcome π} :
      c.phase = .asleep f awake → c.freed = false → s.sema c.semid = some d →
      d' = { d with semBase := count d.semBase f (-1) } → Tries s e c d' →
      Tried info ((s.drop k).setBase c.semid d d'.semBase) c d' r → Moved info s e k c r

theorem semopCopied_spec {sops : Except Errno (List Sembuf)} (h : Inv info s)
    (hc : s.calls[k]? = some c) (hp : c.phase = .copyin) (ho : Sound s (.copied k sops pool)) :
    Moved info s (.copied k sops pool) k c (semopCopied info pool (s.drop k) c sops) := by
  cases sops with
  | error e => exact .failed e (.inl hp)
  | ok sops =>
    obtain ⟨hs, hpool, hf⟩ := ho
    obtain ⟨d, hd, -⟩ := h.alive (mem_of_getElem? hc) (hf c hc)
    have hsema : (s.drop k).semaptr c = some d := by simp [semaptr, hf c hc, hd]
    unfold semopCopied
    rw [hsema]
    exact .tried hp (hf c hc) hd hs (.copied hc hp (hf c hc) hd)
      (semopTry_spec (s := s.drop k) (c := { c with sops }) h.semu hd hpool hs)

theorem semopResumed_spec {awake error : Bool} {stale : BitVec 16}
    (h : Inv info s) (hc : s.calls[k]? = some c) (hp : c.phase = .asleep f awake)
    (ho : Sound s (.resumed k error stale pool)) : Moved info s (.resumed k error stale pool) k c
      (semopResumed info pool (s.drop k) c f error stale) := by
  obtain ⟨hpool, hstale⟩ := ho
  have hmem := mem_of_getElem? hc
  unfold semopResumed
  cases hfr : c.freed with
  | true =>
    cases hd : s.sema c.semid with
    | none =>
      simp only [drop_sema, hd]
      exact .failed _ (.inr hfr)
    | some d =>
      have hne : stale ≠ c.seq := by simpa [hd] using hstale c hc hfr
      simp only [drop_sema, hd, if_true]
      rw [if_pos hne]
      exact .failed _ (.inr hfr)
  | false =>
    obtain ⟨d, hd, hseq⟩ := h.alive hmem hfr
    simp only [drop_sema, hd]
    rw [if_neg (by simp [hseq]), if_neg Bool.false_ne_true]
    cases error with
    | true => exact .left hp hfr hd
    | false =>
      refine .retried hp hfr hd rfl (.resumed hc hp hfr hd) ?_
      exact semopTry_spec (s := (s.drop k).setBase c.semid d _) h.semu
        (by simp) hpool (h.calls c hmem).short

end Mbsd.Kern.SysvSem
