import Mbsd.Kern.SysvSem.Steps

/-! Every step keeps the undo entries well-formed, and none panics. -/

namespace Mbsd.Kern.SysvSem

open Mbsd.Sys List Function SysvSem.Sys Call Option Semu

variable {π : Type} {s s' : Sys π} {c : Call π} {d : SemidDs} {i : Nat} {base : Nat → Sem}
  {semu : Semu π} {r : Sys π × Outcome π} {u : SemUndo π}

namespace Sys

theorem shape_eq (h : s.sema i = some d) : s.shape i = some (d.seq, d.semNsems) := by
  rw [shape, h]
  rfl

@[simp] theorem shape_setBase (h : s.sema i = some d) (base : Nat → Sem) :
    (s.setBase i d base).shape = s.shape := by
  funext j
  by_cases hj : j = i
  · subst hj
    simp [shape, h]
  · simp [shape, hj]

@[simp] theorem shape_wakeup : (s.wakeup i).shape = s.shape := rfl
@[simp] theorem shape_setSemu (semu : Semu π) : (s.setSemu semu).shape = s.shape := rfl
@[simp] theorem shape_mark (ms : List (Mark π)) : (s.mark ms).shape = s.shape := rfl
@[simp] theorem shape_drop (k : Nat) : (s.drop k).shape = s.shape := rfl

def awoken (ids : List Nat) (s : Sys π) : List (Call π) :=
  s.calls.map fun c => if c.semid ∈ ids then c.awaken else c

theorem wakeup_calls : (s.wakeup i).calls = s.awoken [i] := by simp [wakeup, awoken]

end Sys

theorem Call.Ok.congr (h : c.Ok s) (he : s'.shape = s.shape) : c.Ok s' :=
  ⟨h.phase, h.short, he ▸ h.alive⟩

theorem Call.Ok.awaken (h : c.Ok s) : c.awaken.Ok s := by
  refine ⟨fun rest doWakeup e => ?_, h.short, h.alive⟩
  cases hp : c.phase with
  | alloc rest doWakeup => exact h.phase rest doWakeup hp
  | _ => simp [Call.awaken, Phase.awaken, hp] at e

theorem Call.Ok.asleep (h : c.Ok s) (i : Nat) (f : Sembuf) (awake : Bool) :
    Ok s { c with i, phase := .asleep f awake } := ⟨by simp, h.short, h.alive⟩

theorem Call.Ok.awoken {ids : List Nat} (h : ∀ c ∈ s.calls, c.Ok s) : ∀ c ∈ s.awoken ids, c.Ok s := by
  intro c hc
  obtain ⟨c, hm, rfl⟩ := mem_map.1 hc
  split
  · exact (h c hm).awaken
  · exact h c hm

def Sys.frame (s : Sys π) (i : Nat) : Option (BitVec 16 × Nat × (Nat → BitVec 16 × BitVec 16)) :=
  (s.sema i).map fun d =>
    (d.seq, d.semNsems, fun n => ((d.semBase n).semncnt, (d.semBase n).semzcnt))

theorem Sys.shape_of_frame (h : s'.frame = s.frame) : s'.shape = s.shape := by
  funext i
  have := congrArg (Option.map fun x => (x.1, x.2.1)) (congrFun h i)
  rwa [frame, frame, Option.map_map, Option.map_map] at this

def SameCounts (base base' : Nat → Sem) : Prop :=
  ∀ n, (base' n).semncnt = (base n).semncnt ∧ (base' n).semzcnt = (base n).semzcnt

theorem Sys.frame_setBase (h : s.sema i = some d)
    (hb : SameCounts d.semBase base) : (s.setBase i d base).frame = s.frame := by
  funext j
  by_cases hj : j = i
  · subst hj
    simp [frame, h, (hb _).1, (hb _).2]
  · simp [frame, hj]

theorem SameCounts.update (n : Nat) (v : BitVec 16) :
    SameCounts base (update base n { base n with semval := v }) := by
  intro m
  by_cases h : m = n
  · subst h
    simp
  · simp [h]

theorem Phase.awaken_awaken (phase : Phase) : phase.awaken.awaken = phase.awaken := by
  cases phase <;> rfl

structure Exited (ents : List Undo) (s s' : Sys π) : Prop where
  calls : s'.calls = s.awoken (ents.map (·.unId))
  semu : s'.semu = s.semu
  returned : s'.returned = s.returned
  log : s'.log = s.log
  panicked : s'.panicked = s.panicked
  undefined : s'.undefined = s.undefined
  frame : s'.frame = s.frame
  sema : ∀ i ∉ ents.map (·.unId), s'.sema i = s.sema i

theorem exitLoop_spec (ents : List Undo)
    (h : ∀ u ∈ ents, ∃ seq nsems, s.shape u.unId = some (seq, nsems) ∧
      0 ≤ u.unNum.toInt ∧ u.unNum.toInt < nsems) : Exited ents s (exitLoop ents s) := by
  induction ents generalizing s with
  | nil => exact ⟨by simp [exitLoop, awoken], rfl, rfl, rfl, rfl, rfl, rfl, fun _ _ => rfl⟩
  | cons u ents ih =>
    obtain ⟨⟨seq, nsems, hu, h₀, hn⟩, h⟩ := forall_mem_cons.1 h
    obtain ⟨d, hd, e⟩ := map_eq_some_iff.1 hu
    obtain rfl : d.semNsems = nsems := congrArg Prod.snd e
    rw [exitLoop, hd]
    simp only [not_le.2 hn, not_lt.2 h₀, if_false]
    generalize hs' : (s.setBase u.unId d _).wakeup u.unId = s'
    have hframe : s'.frame = s.frame := by
      subst hs'
      exact frame_setBase hd (.update _ _)
    have hcalls : s'.calls = s.awoken [u.unId] := by
      subst hs'
      exact wakeup_calls
    have hrest := ih (s := s') fun v hv => by
      rw [shape_of_frame hframe]
      exact h v hv
    refine ⟨?_, ?_, ?_, ?_, ?_, ?_, hrest.frame.trans hframe, fun i hi => ?_⟩
    · rw [hrest.calls, Sys.awoken, hcalls, Sys.awoken, Sys.awoken, List.map_map]
      refine map_congr_left fun c _ => ?_
      by_cases hc : c.semid = u.unId
      · simp [hc, awaken, Phase.awaken_awaken]
      · simp [hc]
    · exact hrest.semu.trans (hs' ▸ rfl)
    · exact hrest.returned.trans (hs' ▸ rfl)
    · exact hrest.log.trans (hs' ▸ rfl)
    · exact hrest.panicked.trans (hs' ▸ rfl)
    · exact hrest.undefined.trans (hs' ▸ rfl)
    · obtain ⟨hne, hi⟩ := not_or.1 (mem_cons.not.1 hi)
      rw [hrest.sema i hi, ← hs']
      simp [hne]

theorem Sys.lookup_eq_some {info : Seminfo} {id : BitVec 32} (h : s.lookup info id = some d) :
    s.sema (ipcidToIx id) = some d ∧ d.seq = ipcidToSeq id := by
  unfold lookup at h
  split at h
  · cases h
  · obtain ⟨hd, hs⟩ := filter_eq_some_iff.1 h
    exact ⟨hd, by simpa using hs⟩

variable [DecidableEq π] {info : Seminfo} {e : Event π} {k : Nat} {pool : Bool → Nat → Bool}

theorem Inv.seminit : Inv info (seminit : Sys π) where
  semu := .nil
  calls := by simp [SysvSem.seminit]
  refers p i n h := absurd rfl h
  panicked := rfl
  undefined := rfl

section

variable (h : Inv info s)

include h

theorem Inv.of_shape (hs : s'.shape = s.shape) (hw : s'.semu.Wf info)
    (hr : ∀ p i n, s'.semu.recorded p i n ≠ 0#16 →
      ∃ seq nsems, s.shape i = some (seq, nsems) ∧ 0 ≤ n ∧ n < nsems)
    (hc : ∀ c ∈ s'.calls, c.Ok s) (hp : s'.panicked = s.panicked)
    (hu : s'.undefined = s.undefined) : Inv info s' where
  semu := hw
  calls c hm := (hc c hm).congr hs
  refers := hs ▸ hr
  panicked := hp.trans h.panicked
  undefined := hu.trans h.undefined

theorem Inv.drop (k : Nat) : Inv info (s.drop k) :=
  h.of_shape rfl h.semu h.refers (fun c hc => h.calls c (mem_of_mem_eraseIdx hc)) rfl rfl

theorem Inv.setBase (hd : s.sema i = some d) (base : Nat → Sem) : Inv info (s.setBase i d base) :=
  h.of_shape (shape_setBase hd base) h.semu h.refers h.calls rfl rfl

theorem Inv.wakeup : Inv info (s.wakeup i) :=
  h.of_shape rfl h.semu h.refers (wakeup_calls ▸ Ok.awoken h.calls) rfl rfl

theorem Inv.mark (ms : List (Mark π)) : Inv info (s.mark ms) :=
  h.of_shape rfl h.semu h.refers h.calls rfl rfl

theorem Inv.setSemu (hw : semu.Wf info)
    (hr : ∀ p i n, semu.recorded p i n ≠ 0#16 → s.semu.recorded p i n ≠ 0#16) :
    Inv info (s.setSemu semu) :=
  h.of_shape rfl hw (fun p i n hn => h.refers p i n (hr p i n hn)) h.calls rfl rfl

theorem Inv.conclude {s₀ : Sys π} {o : Outcome π}
    (ho : ∀ c, o = .goOn c → c.Ok s) : Inv info (s₀.conclude (s, o)) := by
  cases o with
  | goOn c =>
    have hc := ho c rfl
    refine h.of_shape rfl h.semu h.refers (forall_mem_cons.2 ⟨?_, h.calls⟩) rfl rfl
    exact ⟨hc.phase, hc.short, hc.alive⟩
  | ret c error => exact h.of_shape rfl h.semu h.refers h.calls rfl rfl
  | lost => exact h

theorem Inv.carriedOut (hd : s.sema c.semid = some d)
    (ht : (c.walk d).stop = .through) (hw : semu.Wf info)
    (hr : semu.recorded = bumpAll c.proc c.semid c.sops s.semu.recorded) :
    Inv info (carriedOut s c d semu) := by
  have hstop : StopsAt d.semNsems c.sops (c.walk d).passed (c.walk d).stop := walk_stops ..
  rw [ht] at hstop
  cases hstop with
  | through hpassed =>
  have hlt : ∀ op ∈ c.sops, op.semNum.toNat < d.semNsems := 
    hpassed ▸ walk_passed_lt d.semNsems c.sops d.semBase
  have h₁ : Inv info ((s.setBase c.semid d (c.walk d).semBase).setSemu semu) := by
    refine (h.setBase hd _).of_shape rfl hw (fun p i n hn => ?_) (h.setBase hd _).calls rfl rfl
    rw [shape_setBase hd]
    by_cases hold : s.semu.recorded p i n = 0#16
    · rw [setSemu_semu, hr, bumpAll_apply, hold] at hn
      by_cases hq : c.proc = p ∧ c.semid = i
      · rw [if_pos hq] at hn
        by_contra hno
        refine hn ?_
        rw [undoShift_eq_zero fun op ho e => ?_]
        · rfl
        · exact hno ⟨d.seq, d.semNsems, hq.2 ▸ shape_eq hd, by omega, by have := hlt op ho; omega⟩
      · simp [hq] at hn
    · exact h.refers p i n hold
  unfold SysvSem.carriedOut
  split
  · exact (h₁.mark _).wakeup
  · exact h₁.mark _

theorem Tried.inv (hc : c.Ok s) (hd : s.sema c.semid = some d) (ht : Tried info s c d r) :
    Inv info r.1 ∧ ∀ c', r.2 = .goOn c' → c'.Ok r.1 := by
  cases ht with
  | slept _ _ =>
    refine ⟨h.setBase hd _, fun c' e => ?_⟩
    cases e
    have hok : (c.counted d).Ok s := ⟨hc.phase, hc.short, hc.alive⟩
    exact (hok.congr (shape_setBase hd _)).asleep _ _ false
  | failed error hw hr => exact ⟨h.setSemu hw (by simp [hr]), by simp⟩
  | efbig _ => exact ⟨h.setBase hd _, by simp⟩
  | done hst hw hr => exact ⟨h.carriedOut hd hst hw hr, by simp⟩

theorem Moved.inv (hc : s.calls[k]? = some c)
    (hm : Moved info s e k c r) : Inv info r.1 ∧ ∀ c', r.2 = .goOn c' → c'.Ok r.1 := by
  have hok := (h.calls c (mem_of_getElem? hc)).congr (s.shape_drop k)
  cases hm with
  | failed error _ => exact ⟨h.drop k, by simp⟩
  | left _ _ hd => exact ⟨(h.drop k).setBase hd _, by simp⟩
  | @tried sops _ _ _ _ hd hs _ ht =>
    have hok' : Ok (s.drop k) { c with sops } := ⟨hok.phase, hs, hok.alive⟩
    exact ht.inv (h.drop k) hok' hd
  | retried _ _ hd he _ ht =>
    subst he
    have hd' : (s.drop k).sema c.semid = some _ := hd
    exact ht.inv ((h.drop k).setBase hd _) (hok.congr (shape_setBase hd' _)) (by simp)

/-! ### The other system calls -/

end

def cleared (s : Sys π) (ix : Nat) (d : SemidDs) (base : Nat → Sem) (semnum : Option Nat)
    (m : Mark π) : Sys π :=
  (((s.setBase ix d base).setSemu (semundoClear s.semu ix semnum)).mark [m]).wakeup ix

def removed (s : Sys π) (ix semtot : Nat) : Sys π :=
  (((({ s with semtot } : Sys π).free ix).setSemu (semundoClear s.semu ix none)).mark
    [.clear ix]).wakeup ix

inductive Stepped (info : Seminfo) (s : Sys π) (e : Event π) : Sys π → Prop
  | same : Stepped info s e s
  | refused {c : Call π} (error : Option Errno) : c.steps = [] → c.sops = [] →
      Stepped info s e (s.conclude (s, .ret c error))
  | asked {c : Call π} {d : SemidDs} : c.steps = [] → c.sops = [] → c.phase = .copyin →
      c.freed = false → s.sema c.semid = some d → d.seq = c.seq →
      Stepped info s e (s.conclude (s, .goOn c))
  | moved {k : Nat} {c : Call π} {r : Sys π × Outcome π} : s.calls[k]? = some c →
      Moved info s e k c r → Stepped info s e ((s.drop k).conclude r)
  | setval {id : BitVec 32} {val : Int} {d : SemidDs} {base : Nat → Sem} {num : Nat} :
      e = .setval id none num val → s.lookup info id = some d → num < d.semNsems →
      val ≤ info.semvmx → SameCounts d.semBase base → Stepped info s e
        (cleared s (ipcidToIx id) d base (some num) (.setval (ipcidToIx id) num))
  | setall {ix : Nat} {d : SemidDs} {base : Nat → Sem} : s.sema ix = some d →
      SameCounts d.semBase base → Stepped info s e (cleared s ix d base none (.clear ix))
  | removed {ix semtot : Nat} {d : SemidDs} : s.sema ix = some d →
      Stepped info s e (removed s ix semtot)
  | created {ix nsems semtot : Nat} {seq : BitVec 16} {key : BitVec 32} {semseqs : Nat → BitVec 16} :
      s.sema ix = none →
      Stepped info s e (({ s with
        sema := Function.update s.sema ix (some ⟨key, seq, nsems, fun _ => ⟨0, 0, 0⟩⟩)
        semseqs, semtot } : Sys π).mark [.clear ix])
  | gone {p : π} : s.semu.find p = none → Stepped info s e (s.mark [.exit p])
  | exited {p : π} {u : SemUndo π} {s' : Sys π} : s.semu.find p = some u →
      Exited u.unEnt (s.mark [.exit p]) s' → Stepped info s e (s'.setSemu (s.semu.put p []))

theorem semop_spec (p : π) (id : BitVec 32) (perm : Option Errno) (nsops : Nat) :
    Stepped info s e (s.conclude (semop info s p id perm nsops)) := by
  unfold semop
  cases hl : s.lookup info id with
  | none => exact .refused _ rfl rfl
  | some d =>
    obtain ⟨hd, hs⟩ := lookup_eq_some hl
    dsimp only
    split
    · exact .refused _ rfl rfl
    split
    · exact .refused _ rfl rfl
    split
    · exact .refused _ rfl rfl
    · exact .asked rfl rfl rfl rfl hd hs

theorem setval_spec (id : BitVec 32) (perm : Option Errno) (semnum val : Int) :
    Stepped info s (.setval id perm semnum val) (setval info s id perm semnum val).1 := by
  unfold setval
  cases hl : s.lookup info id with
  | none => exact .same
  | some d =>
    dsimp only
    split
    · exact .same
    split
    · exact .same
    split
    · exact .same
    · rename_i hp hn hv
      obtain rfl : perm = none := by simpa using hp
      obtain ⟨h₀, hn⟩ := not_or.1 hn
      obtain ⟨num, rfl⟩ := Int.eq_ofNat_of_zero_le (not_lt.1 h₀)
      exact .setval rfl hl (by omega) (not_lt.1 hv) (.update _ _)

theorem setall_spec (id : BitVec 32) (perm : Option Errno) (semval : Nat → BitVec 16) :
    Stepped info s e (setall info s id perm semval).1 := by
  unfold setall
  cases hl : s.lookup info id with
  | none => exact .same
  | some d =>
    obtain ⟨hd, -⟩ := lookup_eq_some hl
    dsimp only
    split
    · exact .same
    split
    · exact .same
    · exact .setall hd fun n => by split <;> exact ⟨rfl, rfl⟩

theorem rmid_spec (id : BitVec 32) (perm : Option Errno) :
    Stepped info s e (rmid info s id perm).1 := by
  unfold rmid
  cases hl : s.lookup info id with
  | none => exact .same
  | some d =>
    obtain ⟨hd, -⟩ := lookup_eq_some hl
    dsimp only
    split
    · exact .same
    · exact .removed hd

theorem semget_spec (key : BitVec 32) (nsems : Int) (creat excl : Bool) (perm : Option Errno) :
    Stepped info s e (semget info s key nsems creat excl perm).1 := by
  unfold semget
  dsimp only
  split
  · exact .same
  split
  · exact .same
  split
  · split
    · exact .same
    split
    · exact .same
    split
    · exact .same
    · exact .same
  split
  · split
    · exact .same
    · rename_i ix hix
      exact .created (by simpa using find?_some hix)
  · exact .same

theorem semexit_spec (h : Inv info s) (p : π) : Stepped info s e (semexit s p) := by
  unfold semexit
  cases hf : s.semu.find p with
  | none =>
    simp only [mark_semu, hf]
    exact .gone hf
  | some u =>
    simp only [mark_semu, hf]
    have hu := h.semu.undo u (mem_of_find hf)
    have hx := exitLoop_spec u.unEnt (s := s.mark [.exit p]) fun v hv =>
      h.refers p v.unId v.unNum.toInt <| by
        rw [recorded_def, h.semu.entries_of_find hf, hu.ent.recordedEnt_ne_zero]
        exact ⟨v, hv, Undo.isFor_iff.2 ⟨rfl, rfl⟩⟩
    rw [hx.panicked, hx.undefined, hx.semu]
    simp only [mark_panicked, mark_undefined, h.panicked, h.undefined, Bool.or_self,
      Bool.false_eq_true, if_false]
    exact .exited hf hx

theorem Step.spec (h : Inv info s) (ho : Sound s e) (hs : Step info s e s') :
    Stepped info s e s' := by
  cases hs with
  | semop p id perm nsops => exact semop_spec p id perm nsops
  | copied sops pool hc hp _ => exact .moved hc (semopCopied_spec h hc hp ho)
  | resumed error stale pool hc hp _ => exact .moved hc (semopResumed_spec h hc hp ho)
  | allocated pool hc hp =>
    exact absurd hp ((h.calls _ (mem_of_getElem? hc)).phase _ _)
  | setval id perm semnum val => exact setval_spec id perm semnum val
  | setall id perm semval => exact setall_spec id perm semval
  | rmid id perm => exact rmid_spec id perm
  | semget key nsems creat excl perm => exact semget_spec key nsems creat excl perm
  | semexit _ => exact semexit_spec h _

theorem Inv.clear (h : Inv info s) (ix : Nat) (semnum : Option Nat) :
    Inv info (s.setSemu (semundoClear s.semu ix semnum)) := by
  obtain ⟨hw, he⟩ := h.semu.clear ix semnum
  refine h.setSemu hw fun p i n hn hz => hn ?_
  rw [recorded_def, he]
  cases semnum with
  | none =>
    rw [recordedEnt_clear_all]
    split
    · rfl
    · exact hz
  | some num =>
    refine recordedEnt_eq_zero fun u hu => ?_
    by_contra hc
    have hent := (h.semu.entries p).1
    exact hent.recordedEnt_ne_zero.2
      ⟨u, (clearEnt_subperm _ _ _).subset hu, by simpa using hc⟩ hz

theorem Inv.cleared (h : Inv info s) (hd : s.sema i = some d)
    (semnum : Option Nat) (m : Mark π) : Inv info (cleared s i d base semnum m) :=
  (((h.setBase hd base).clear i semnum).mark [m]).wakeup

theorem Semu.Wf.recorded_clear_all (h : semu.Wf info) (ix : Nat) :
    (semundoClear semu ix none).recorded =
      fun p i n => if i = ix then 0#16 else semu.recorded p i n := by
  funext p i n
  rw [recorded_def, (h.clear ix none).2, recordedEnt_clear_all, recorded_def]

theorem Inv.removed (h : Inv info s) (i semtot : Nat) : Inv info (removed s i semtot) := by
  unfold SysvSem.removed
  refine (Inv.mark ?_ _).wakeup
  refine ⟨(h.semu.clear i none).1, fun c hc => ?_, fun p j n hn => ?_, h.panicked, h.undefined⟩
  · obtain ⟨c, hmem, rfl⟩ := mem_map.1 hc
    have hok := h.calls c hmem
    split
    · exact ⟨hok.phase, hok.short, by simp⟩
    · rename_i hne
      refine ⟨hok.phase, hok.short, fun hf => ?_⟩
      obtain ⟨m, hm⟩ := hok.alive hf
      exact ⟨m, by simpa [shape, free, hne] using hm⟩
  · rw [setSemu_semu, h.semu.recorded_clear_all] at hn
    by_cases hj : j = i
    · simp [hj] at hn
    · obtain ⟨seq, m, hm, hlt⟩ := h.refers p j n (by simpa [hj] using hn)
      exact ⟨seq, m, by simpa [shape, free, hj] using hm, hlt⟩

theorem Inv.created (h : Inv info s) (hd : s.sema i = none) {nsems semtot : Nat} {seq : BitVec 16}
    {key : BitVec 32} {semseqs : Nat → BitVec 16} : Inv info ({ s with
      sema := update s.sema i (some ⟨key, seq, nsems, fun _ => ⟨0, 0, 0⟩⟩)
      semseqs, semtot } : Sys π) := by
  have hshape (j : Nat) {x : BitVec 16 × Nat} (hj : s.shape j = some x) :
      Option.map (fun d : SemidDs => (d.seq, d.semNsems))
        (update s.sema i (some ⟨key, seq, nsems, fun _ => ⟨0, 0, 0⟩⟩) j) = some x := by
    have hne : j ≠ i := by
      rintro rfl
      simp [shape, hd] at hj
    rw [update_of_ne hne]
    exact hj
  refine ⟨h.semu, fun c hc => ?_, fun p j n hn => ?_, h.panicked, h.undefined⟩
  · have hok := h.calls c hc
    refine ⟨hok.phase, hok.short, fun hf => ?_⟩
    obtain ⟨m, hm⟩ := hok.alive hf
    exact ⟨m, hshape _ hm⟩
  · obtain ⟨seq, m, hm, hlt⟩ := h.refers p j n hn
    exact ⟨seq, m, hshape _ hm, hlt⟩

theorem Semu.Wf.recorded_put_nil {p : π} (h : semu.Wf info)
    (hf : semu.find p = some u) : (semu.put p []).recorded =
      fun q i n => if p = q then 0#16 else semu.recorded q i n := by
  funext q i n
  rw [recorded_def, (h.put hf .nil (Nat.zero_le _)).2]
  split
  · rfl
  · rfl

theorem Inv.exited {p : π} (h : Inv info s) (hf : s.semu.find p = some u)
    (hx : Exited u.unEnt (s.mark [.exit p]) s') : Inv info (s'.setSemu (s.semu.put p [])) := by
  have hshape : s'.shape = s.shape := shape_of_frame hx.frame
  refine h.of_shape hshape (h.semu.put hf .nil (Nat.zero_le _)).1 (fun q i n hn => ?_) ?_
    hx.panicked hx.undefined
  · rw [setSemu_semu, h.semu.recorded_put_nil hf] at hn
    by_cases hq : p = q
    · simp [hq] at hn
    · exact h.refers q i n (by simpa [hq] using hn)
  · rw [setSemu_calls, hx.calls]
    exact Ok.awoken (s := s) h.calls

theorem Inv.stepped (h : Inv info s) (hs : Stepped info s e s') : Inv info s' := by
  cases hs with
  | same => exact h
  | refused error _ _ => exact h.conclude (by simp)
  | @asked c d _ hsops hp hf hd hseq =>
    refine h.conclude fun c' e => ?_
    cases e
    refine ⟨by simp [hp], by simp [hsops], fun _ => ⟨d.semNsems, ?_⟩⟩
    rw [shape_eq hd, hseq]
  | moved hc hm =>
    obtain ⟨h', ho⟩ := hm.inv h hc
    exact h'.conclude ho
  | setval _ hl _ _ _ => exact h.cleared (lookup_eq_some hl).1 _ _
  | setall hd _ => exact h.cleared hd _ _
  | removed _ => exact h.removed _ _
  | created hd => exact (h.created hd).mark _
  | gone _ => exact h.mark _
  | exited hf hx => exact h.exited hf hx

theorem Run.induct {ok : Sys π → Event π → Prop} (hok : ∀ s e, ok s e → Sound s e)
    {P : Sys π → Prop} (h₀ : P SysvSem.seminit)
    (hstep : ∀ s e s', Inv info s → P s → ok s e → Stepped info s e s' → P s')
    (h : Run info ok s) : Inv info s ∧ P s := by
  induction h with
  | seminit => exact ⟨.seminit, h₀⟩
  | step _ _ _ ho hs ih =>
    have hst := Step.spec ih.1 (hok _ _ ho) hs
    exact ⟨ih.1.stepped hst, hstep _ _ _ ih.1 ih.2 ho hst⟩

end Mbsd.Kern.SysvSem
