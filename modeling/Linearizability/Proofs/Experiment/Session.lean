import Linearizability.Experiment.Session
import Linearizability.Proofs.Experiment.Account

/-!
# Sessions keep an account

In every interleaving a session has an account: each worker is where the
account says, a claimed slot is unwritten until its worker writes it, and
what was written is what the account tells. A turn claims a slot, writes one,
performs a request, or does nothing. There are slots enough when there are
two for every request, and in the end two are claimed for every request: the
calls that a worker has told of are its program, up to what it has left.
-/

namespace Linearizability

variable {Object Request Op : Type}

/-! ## Phases -/

namespace Phase

def slot? : Phase Request Op → Option Nat
  | .calling slot _ => some slot
  | .returning slot _ _ => some slot
  | _ => none

/-- The call whose return has claimed no slot yet. -/
def call? : Phase Request Op → Option Nat
  | .calling slot _ => some slot
  | .called call _ => some call
  | .answered call _ => some call
  | _ => none

end Phase

def Worker.due (w : Worker Request Op) : Nat :=
  2 * w.program.length + if w.phase.call?.isSome then 1 else 0

def totalDue : List (Worker Request Op) → Nat
  | [] => 0
  | w :: workers => w.due + totalDue workers

namespace Account

variable [SharedObject Object Request Op]

variable (Object) in
def Allows (a : Account Op) (thread : Nat) : Phase Request Op → Prop
  | .idle => True
  | .calling slot request =>
    a.contents[slot]? = some ⟨SharedObject.call Object request, thread, none⟩ ∧ ¬ a.Performs slot
  | .called call request =>
    a.contents[call]? = some ⟨SharedObject.call Object request, thread, none⟩ ∧ ¬ a.Performs call
  | .answered call ret =>
    (∃ op, a.contents[call]? = some ⟨op, thread, none⟩ ∧ ⟨call, op, ret⟩ ∈ a.order) ∧
      ¬ a.Returns call
  | .returning slot call ret => a.contents[slot]? = some ⟨ret, thread, some call⟩

variable {a : Account Op} {thread : Nat} {phase : Phase Request Op}

theorem Allows.exists_slot (ha : a.Allows Object thread phase) {i : Nat}
    (hi : phase.slot? = some i) : ∃ c, a.contents[i]? = some c ∧ c.thread = thread := by
  cases phase with
  | calling slot request => cases hi; exact ⟨_, ha.1, rfl⟩
  | returning slot call ret => cases hi; exact ⟨_, ha, rfl⟩
  | idle | called | answered => cases hi

theorem Allows.claim (ha : a.Allows Object thread phase) {c : Slot Op}
    (hc : ∀ {call d}, c.call = some call → a.contents[call]? = some d → d.thread ≠ thread) :
    (a.claim c).Allows Object thread phase := by
  cases phase with
  | idle => trivial
  | calling slot request => exact ⟨getElem?_claim ha.1 c, ha.2⟩
  | called call request => exact ⟨getElem?_claim ha.1 c, ha.2⟩
  | answered call ret =>
    obtain ⟨⟨op, hcall, hp⟩, hnew⟩ := ha
    refine ⟨⟨op, getElem?_claim hcall c, hp⟩, fun hret => ?_⟩
    rcases returns_claim_iff.mp hret with hret | hret
    · exact hnew hret
    · exact hc hret hcall rfl
  | returning slot call ret => exact getElem?_claim ha c

theorem Allows.perform (ha : a.Allows Object thread phase) {p : Performed Op}
    (hp : ∀ {d}, a.contents[p.call]? = some d → d.thread ≠ thread) :
    (a.perform p).Allows Object thread phase := by
  have hnew : ∀ {call op}, a.contents[call]? = some ⟨op, thread, none⟩ → ¬ a.Performs call →
      ¬ (a.perform p).Performs call := by
    intro call op hcall hnew hperf
    rcases performs_perform_iff.mp hperf with hperf | rfl
    · exact hnew hperf
    · exact hp hcall rfl
  cases phase with
  | idle => trivial
  | calling slot request => exact ⟨ha.1, hnew ha.1 ha.2⟩
  | called call request => exact ⟨ha.1, hnew ha.1 ha.2⟩
  | answered call ret =>
    obtain ⟨⟨op, hcall, hmem⟩, hret⟩ := ha
    exact ⟨⟨op, hcall, List.mem_append_left _ hmem⟩, hret⟩
  | returning slot call ret => exact ha

end Account

/-! ## One worker's turn -/

section

variable {α : Type} {xs : Array α} {k : Nat} {old new : α}

theorem getElem?_modify_const (hk : xs[k]? = some old) (j : Nat) :
    (xs.modify k fun _ => new)[j]? = if j = k then some new else xs[j]? := by
  rw [Array.getElem?_modify]
  by_cases hj : j = k
  · rw [if_pos hj.symm, if_pos hj, hj, hk]
    rfl
  · rw [if_neg (Ne.symm hj), if_neg hj]

theorem modify_const_self (hk : xs[k]? = some old) : (xs.modify k fun _ => old) = xs := by
  apply Array.ext_getElem?
  intro j
  rw [getElem?_modify_const hk]
  split
  · rename_i hj
    rw [hj, hk]
  · rfl

theorem mem_modify_const (hk : xs[k]? = some old) {x : α} :
    x ∈ xs.modify k (fun _ => new) ↔ x = new ∨ ∃ j, j ≠ k ∧ xs[j]? = some x := by
  rw [Array.mem_iff_getElem?]
  simp only [getElem?_modify_const hk]
  constructor
  · rintro ⟨j, hj⟩
    split at hj
    · exact .inl (Option.some.inj hj).symm
    · rename_i hne
      exact .inr ⟨j, hne, hj⟩
  · rintro (rfl | ⟨j, hne, hj⟩)
    · exact ⟨k, if_pos rfl⟩
    · exact ⟨j, (if_neg hne).trans hj⟩

theorem eq_or_mem_modify_const (hk : xs[k]? = some old) {x : α} (hx : x ∈ xs) :
    x = old ∨ x ∈ xs.modify k (fun _ => new) := by
  obtain ⟨j, hj⟩ := Array.mem_iff_getElem?.mp hx
  by_cases hjk : j = k
  · rw [hjk, hk] at hj
    exact .inl (Option.some.inj hj).symm
  · exact .inr ((mem_modify_const hk).mpr (.inr ⟨j, hjk, hj⟩))

end

theorem totalDue_modify {workers : List (Worker Request Op)} {k : Nat} {old : Worker Request Op}
    (hold : workers[k]? = some old) (new : Worker Request Op) :
    totalDue (workers.modify k fun _ => new) + old.due = totalDue workers + new.due := by
  induction workers generalizing k with
  | nil => simp at hold
  | cons w workers ih =>
    cases k with
    | zero =>
      cases hold
      simp only [List.modify_zero_cons, totalDue]
      omega
    | succ k =>
      have := ih hold
      simp only [List.modify_succ_cons, totalDue]
      omega

namespace Session

variable [SharedObject Object Request Op]

def Unwritten (s : Session Object Request Op) : Prop :=
  ∀ {w : Worker Request Op} {i : Nat}, w ∈ s.workers → w.phase.slot? = some i →
    s.recorder.slots[i]? = some none

/-- The account tells the slots, the phases of the workers, the calls that are still open and how
far the programs have come. -/
structure Keeps (programs : List (List Request)) (s : Session Object Request Op)
    (a : Account Op) : Prop where
  valid : a.Valid
  recording : s.recorder.log = none
  index : s.recorder.index = a.contents.length
  room : 2 * programs.flatten.length ≤ s.recorder.capacity
  due : a.contents.length + totalDue s.workers.toList = 2 * programs.flatten.length
  calls : ∀ {k : Nat} {program : List Request}, programs[k]? = some program →
    ∃ w, s.workers[k]? = some w ∧ a.calls (k + 1) ++ w.program.map (SharedObject.call Object) =
      program.map (SharedObject.call Object)
  claimed : s.Unwritten
  written : ∀ {i : Nat}, i < s.recorder.capacity → (∀ w ∈ s.workers, w.phase.slot? ≠ some i) →
    s.recorder.slots[i]? = some a.contents[i]?
  phases : ∀ {k : Nat} {w : Worker Request Op}, s.workers[k]? = some w →
    a.Allows Object (k + 1) w.phase
  returns : ∀ {i : Nat} {c : Slot Op}, a.contents[i]? = some c → c.call = none →
    a.Returns i ∨ ∃ w ∈ s.workers, w.phase.call? = some i

section

variable {programs : List (List Request)} {s : Session Object Request Op} {a : Account Op}
  (hk : s.Keeps programs a) {k : Nat} {old : Worker Request Op}
  (hold : s.workers[k]? = some old) (new : Worker Request Op)

include hold

omit [SharedObject Object Request Op] in
theorem totalDue_workers :
    totalDue (s.workers.modify k fun _ => new).toList + old.due =
      totalDue s.workers.toList + new.due := by
  rw [Array.toList_modify]
  exact totalDue_modify (by simpa using hold) new

omit [SharedObject Object Request Op] in
theorem totalDue_of_due_eq {new : Worker Request Op} (hdue : new.due = old.due) :
    totalDue (s.workers.modify k fun _ => new).toList = totalDue s.workers.toList := by
  have := totalDue_workers hold new
  omega

include hk

variable {new}

theorem Keeps.phases_modify {a' : Account Op} (hnew : a'.Allows Object (k + 1) new.phase)
    (hother : ∀ {j : Nat} {phase : Phase Request Op}, j ≠ k → a.Allows Object (j + 1) phase →
      a'.Allows Object (j + 1) phase)
    {j : Nat} {w : Worker Request Op} (hj : (s.workers.modify k fun _ => new)[j]? = some w) :
    a'.Allows Object (j + 1) w.phase := by
  rw [getElem?_modify_const hold] at hj
  split at hj
  · rename_i hjk
    cases hj
    rwa [hjk]
  · rename_i hjk
    exact hother hjk (hk.phases hj)

theorem Keeps.calls_modify {a' : Account Op}
    (hnew : a'.calls (k + 1) ++ new.program.map (SharedObject.call Object) =
      a.calls (k + 1) ++ old.program.map (SharedObject.call Object))
    (hother : ∀ {j}, j ≠ k → a'.calls (j + 1) = a.calls (j + 1))
    {j : Nat} {program : List Request} (hj : programs[j]? = some program) :
    ∃ w, (s.workers.modify k fun _ => new)[j]? = some w ∧
      a'.calls (j + 1) ++ w.program.map (SharedObject.call Object) =
        program.map (SharedObject.call Object) := by
  obtain ⟨w, hw, hprogram⟩ := hk.calls hj
  rw [getElem?_modify_const hold]
  by_cases hjk : j = k
  · subst hjk
    cases hold.symm.trans hw
    exact ⟨new, if_pos rfl, hnew.trans hprogram⟩
  · rw [if_neg hjk, hother hjk]
    exact ⟨w, hw, hprogram⟩

variable (new) in
theorem Keeps.returns_modify {i : Nat} {c : Slot Op} (hc : a.contents[i]? = some c)
    (hcall : c.call = none) :
    a.Returns i ∨ old.phase.call? = some i ∨
      ∃ w ∈ s.workers.modify k (fun _ => new), w.phase.call? = some i := by
  refine (hk.returns hc hcall).imp_right fun ⟨w, hw, hwi⟩ => ?_
  rcases eq_or_mem_modify_const hold hw with rfl | hw
  · exact .inl hwi
  · exact .inr ⟨w, hw, hwi⟩

theorem Keeps.returns_of_same_call (hsame : new.phase.call? = old.phase.call?) {i : Nat}
    {c : Slot Op} (hc : a.contents[i]? = some c) (hcall : c.call = none) :
    a.Returns i ∨ ∃ w ∈ s.workers.modify k (fun _ => new), w.phase.call? = some i := by
  refine (hk.returns_modify hold new hc hcall).imp_right fun h => ?_
  rcases h with hold' | hw
  · exact ⟨new, (mem_modify_const hold).mpr (.inl rfl), hsame.trans hold'⟩
  · exact hw

omit hk [SharedObject Object Request Op] in
theorem free_of_modify {i : Nat} (hslot : old.phase.slot? ≠ some i)
    (hfree : ∀ w ∈ s.workers.modify k (fun _ => new), w.phase.slot? ≠ some i) :
    ∀ w ∈ s.workers, w.phase.slot? ≠ some i := by
  intro w hw
  rcases eq_or_mem_modify_const hold hw with rfl | hw
  · exact hslot
  · exact hfree w hw

variable (new)

theorem Keeps.claim {c : Slot Op} (hvalid : (a.claim c).Valid) (hthread : c.thread = k + 1)
    (hown : ∀ {call d}, c.call = some call → a.contents[call]? = some d → d.thread = k + 1)
    (hslot : old.phase.slot? = none) (hslot' : new.phase.slot? = some a.contents.length)
    (hdue : new.due + 1 = old.due)
    (hprogram : callsOf (k + 1) [c.written] ++ new.program.map (SharedObject.call Object) =
      old.program.map (SharedObject.call Object))
    (hnew : (a.claim c).Allows Object (k + 1) new.phase)
    (hcall : ∀ {i}, old.phase.call? = some i → c.call = some i)
    (hcall' : c.call = none → new.phase.call? = some a.contents.length) :
    a.contents.length < s.recorder.capacity ∧
      Keeps programs ⟨{ s.recorder with index := s.recorder.index + 1 }, s.object,
        s.workers.modify k fun _ => new⟩ (a.claim c) := by
  have hsum := totalDue_workers hold new
  have hlength : (a.claim c).contents.length = a.contents.length + 1 := List.length_append
  have hroom := hk.room
  have hsofar := hk.due
  have hmem : new ∈ s.workers.modify k fun _ => new := (mem_modify_const hold).mpr (.inl rfl)
  have hlt : a.contents.length < s.recorder.capacity := by omega
  refine ⟨hlt, hvalid, hk.recording, ?_, hroom, ?_, hk.calls_modify hold ?_ ?_, ?_, ?_,
    hk.phases_modify hold hnew ?_, ?_⟩
  · rw [hlength, hk.index]
  · show _ + totalDue (s.workers.modify k fun _ => new).toList = _
    omega
  · rw [Account.calls_claim, List.append_assoc, hprogram]
  · intro j hjk
    rw [Account.calls_claim, Slot.written, callsOf_of_ne (by omega), List.append_nil]
  · intro w i hw hi
    rcases (mem_modify_const hold).mp hw with rfl | ⟨j, _, hj⟩
    · cases hslot'.symm.trans hi
      -- whatever was claimed before has its content in the account, so the next slot is free
      have hfree : ∀ w ∈ s.workers, w.phase.slot? ≠ some a.contents.length := by
        intro w hw hi
        obtain ⟨j, hj⟩ := Array.mem_iff_getElem?.mp hw
        obtain ⟨d, hd, _⟩ := (hk.phases hj).exists_slot hi
        exact absurd (List.getElem?_eq_some_iff.mp hd).1 (Nat.lt_irrefl _)
      rw [← List.getElem?_eq_none (Nat.le_refl a.contents.length)]
      exact hk.written hlt hfree
    · exact hk.claimed (Array.mem_of_getElem? hj) hi
  · intro i hi hfree
    have hne : i ≠ a.contents.length := fun he => hfree new hmem (he ▸ hslot')
    rw [Account.getElem?_claim_ne hne]
    exact hk.written hi (free_of_modify hold (by simp [hslot]) hfree)
  · intro j phase hjk ha
    exact ha.claim fun hc hd he => hjk (by have := hown hc hd; omega)
  · intro i d hd hd'
    by_cases hi : i = a.contents.length
    · rw [hi, Account.getElem?_claim_length] at hd
      cases hd
      exact .inr ⟨new, hmem, hi ▸ hcall' hd'⟩
    · rw [Account.getElem?_claim_ne hi] at hd
      rw [Account.returns_claim_iff, or_assoc]
      exact (hk.returns_modify hold new hd hd').imp_right (Or.imp_left hcall)

theorem Keeps.write {c : Slot Op} {n : Nat} (hc : a.contents[n]? = some c)
    (hthread : c.thread = k + 1) (hslot : old.phase.slot? = some n)
    (hslot' : new.phase.slot? = none) (hdue : new.due = old.due)
    (hprogram : new.program = old.program) (hnew : a.Allows Object (k + 1) new.phase)
    (hcall : new.phase.call? = old.phase.call?) :
    Keeps programs ⟨s.recorder.write n c, s.object, s.workers.modify k fun _ => new⟩ a := by
  have hsize : (s.recorder.write n c).slots.size = s.recorder.capacity := Array.size_modify
  have hget : ∀ i, (s.recorder.write n c).slots[i]? =
      if n = i then s.recorder.slots[i]?.map (·.or (some c)) else s.recorder.slots[i]? :=
    fun i => Array.getElem?_modify
  have hempty := hk.claimed (Array.mem_of_getElem? hold) hslot
  refine ⟨hk.valid, hk.recording, hk.index, hk.room.trans_eq hsize.symm,
    totalDue_of_due_eq hold hdue ▸ hk.due, hk.calls_modify hold (by rw [hprogram]) fun _ => rfl,
    ?_, ?_, hk.phases_modify hold hnew fun _ ha => ha, hk.returns_of_same_call hold hcall⟩
  · intro w i hw hi
    rcases (mem_modify_const hold).mp hw with rfl | ⟨j, hjk, hj⟩
    · rw [hslot'] at hi
      cases hi
    · -- the thread in the content of a slot tells whose slot it is
      have hne : n ≠ i := by
        rintro rfl
        obtain ⟨d, hd, hdt⟩ := (hk.phases hj).exists_slot hi
        rw [hc] at hd
        cases hd
        omega
      rw [hget, if_neg hne]
      exact hk.claimed (Array.mem_of_getElem? hj) hi
  · intro i hi hfree
    rw [hget]
    by_cases hne : n = i
    · subst hne
      rw [if_pos rfl, hempty, hc]
      rfl
    · rw [if_neg hne]
      exact hk.written (hsize ▸ hi) (free_of_modify hold (by simpa [hslot] using hne) hfree)

theorem Keeps.perform {p : Performed Op} (hvalid : (a.perform p).Valid) {o : Object}
    (hown : ∀ {d}, a.contents[p.call]? = some d → d.thread = k + 1)
    (hslot : old.phase.slot? = none) (hslot' : new.phase.slot? = none)
    (hdue : new.due = old.due) (hprogram : new.program = old.program)
    (hnew : (a.perform p).Allows Object (k + 1) new.phase)
    (hcall : new.phase.call? = old.phase.call?) :
    Keeps programs ⟨s.recorder, o, s.workers.modify k fun _ => new⟩ (a.perform p) := by
  refine ⟨hvalid, hk.recording, hk.index, hk.room, totalDue_of_due_eq hold hdue ▸ hk.due,
    hk.calls_modify hold (by rw [hprogram]) fun _ => rfl, ?_, ?_, hk.phases_modify hold hnew ?_,
    hk.returns_of_same_call hold hcall⟩
  · intro w i hw hi
    rcases (mem_modify_const hold).mp hw with rfl | ⟨j, _, hj⟩
    · rw [hslot'] at hi
      cases hi
    · exact hk.claimed (Array.mem_of_getElem? hj) hi
  · intro i hi hfree
    exact hk.written hi (free_of_modify hold (by simp [hslot]) hfree)
  · intro j phase hjk ha
    exact ha.perform fun hd he => hjk (by have := hown hd; omega)

end

/-! ## Steps -/

/-- What a turn does to the object, the order of its requests tells. -/
inductive Turn (s : Session Object Request Op) (a : Account Op) :
    Session Object Request Op → Account Op → Prop where
  | record {s' : Session Object Request Op} {a' : Account Op} : s'.object = s.object →
    a'.order = a.order → Turn s a s' a'
  | perform {s' : Session Object Request Op} (call : Nat) (request : Request) :
    s'.object = (SharedObject.perform s.object request).2 →
    Turn s a s' (a.perform
      ⟨call, SharedObject.call Object request, (SharedObject.perform s.object request).1⟩)

theorem step_eq_ok {r r' : Recorder Op} {o o' : Object} {workers : Array (Worker Request Op)}
    {k : Nat} {w w' : Worker Request Op} (hw : workers[k]? = some w)
    (hact : act r o (k + 1) w = .ok (r', o', w')) :
    step ⟨r, o, workers⟩ k = .ok ⟨r', o', workers.modify k fun _ => w'⟩ := by
  simp only [step, hw, hact]

theorem Keeps.exists_step {programs : List (List Request)} {s : Session Object Request Op}
    {a : Account Op} (hk : s.Keeps programs a) (k : Nat) :
    ∃ s' a', s.step k = .ok s' ∧ s'.Keeps programs a' ∧ Turn s a s' a' := by
  obtain ⟨recorder, object, workers⟩ := s
  cases hold : workers[k]? with
  | none => exact ⟨_, a, by rw [step, hold], hk, .record rfl rfl⟩
  | some w =>
    have hphase := hk.phases hold
    have hindex : recorder.index = a.contents.length := hk.index
    obtain ⟨program, phase⟩ := w
    cases phase with
    | idle =>
      cases program with
      | nil =>
        refine ⟨_, a, step_eq_ok hold rfl, ?_, .record rfl rfl⟩
        rwa [modify_const_self hold]
      | cons request rest =>
        let c : Slot Op := ⟨SharedObject.call Object request, k + 1, none⟩
        have hprogram : callsOf (k + 1) [c.written] ++ rest.map (SharedObject.call Object) =
            (request :: rest).map (SharedObject.call Object) :=
          congrArg (· ++ rest.map (SharedObject.call Object)) (callsOf_call c.op (k + 1))
        have hdue : 2 * rest.length + 1 + 1 = 2 * (rest.length + 1) + 0 := by omega
        obtain ⟨hlt, hk'⟩ := hk.claim hold ⟨rest, .calling recorder.index request⟩
          (hk.valid.call c.op (k + 1)) rfl nofun rfl (congrArg some hindex) hdue hprogram
          ⟨hindex ▸ a.getElem?_claim_length c, fun ⟨p, hp, he⟩ => by
            have := hk.valid.call_lt_length hp
            omega⟩ nofun fun _ => congrArg some hindex
        have hclaim := Recorder.claim_eq hk.recording (hindex ▸ hlt)
        exact ⟨_, _, step_eq_ok hold (by simp only [act, hclaim]), hk', .record rfl rfl⟩
    | calling slot request =>
      have hk' := hk.write hold ⟨program, .called slot request⟩ hphase.1 rfl rfl rfl rfl rfl hphase
        rfl
      exact ⟨_, a, step_eq_ok hold (by rw [act]), hk', .record rfl rfl⟩
    | called call request =>
      obtain ⟨hcall, hnew⟩ := hphase
      let p : Performed Op :=
        ⟨call, SharedObject.call Object request, (SharedObject.perform object request).1⟩
      have hret : ¬ a.Returns call := by
        rintro ⟨c, hc, hcc⟩
        obtain ⟨q, hq, hqcall, _⟩ := hk.valid.exists_performed hc hcc
        exact hnew ⟨q, hq, hqcall⟩
      have hk' := hk.perform hold ⟨program, .answered call p.ret⟩ (hk.valid.perform hcall hnew)
        (o := (SharedObject.perform object request).2)
        (fun hd => by cases hcall.symm.trans hd; rfl) rfl rfl rfl rfl
        ⟨⟨_, hcall, List.mem_append_right _ (List.mem_singleton_self p)⟩, hret⟩ rfl
      exact ⟨_, a.perform p, step_eq_ok hold (by rw [act]), hk', .perform call request rfl⟩
    | answered call ret =>
      obtain ⟨⟨op, hcall, hp⟩, hnew⟩ := hphase
      let c : Slot Op := ⟨ret, k + 1, some call⟩
      obtain ⟨hlt, hk'⟩ := hk.claim hold ⟨program, .returning recorder.index call ret⟩
        (hk.valid.ret (k + 1) hp hnew) rfl
        (fun hc hd => by cases hc; cases hcall.symm.trans hd; rfl)
        rfl (congrArg some hindex) rfl rfl (hindex ▸ a.getElem?_claim_length c) id nofun
      have hclaim := Recorder.claim_eq hk.recording (hindex ▸ hlt)
      exact ⟨_, _, step_eq_ok hold (by simp only [act, hclaim]), hk', .record rfl rfl⟩
    | returning slot call ret =>
      have hk' := hk.write hold ⟨program, .idle⟩ hphase rfl rfl rfl rfl rfl trivial rfl
      exact ⟨_, a, step_eq_ok hold (by rw [act]), hk', .record rfl rfl⟩

end Session

end Linearizability
