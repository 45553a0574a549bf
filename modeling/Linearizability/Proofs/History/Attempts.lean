import Linearizability.Model.ByteSet
import Linearizability.Proofs.History.Complete
import Linearizability.Search.Tester

/-!
# Recording in spite of faults

Whoever records may go on after a fault, with the log as the fault left it.
No order of attempts breaks the invariant. A matched entry keeps its other
half, and a return that was refused never gets one: it stays unmatched for
good. A check comes to an end only if every entry is matched, so no fault
before it has left a return behind.
-/

namespace Linearizability

variable {Op : Type}

inductive Attempt (Op : Type) where
  | call (op : Op) (thread : Nat)
  | ret (call : Nat) (op : Op) (thread : Nat)
  deriving Repr

/-- No later return can be paired with this entry. -/
def Entry.Settled (e : Entry Op) : Prop := e.matched.isSome ∨ e.isCall = false

namespace Log

section

variable [Operation Op]

def attempt (log : Log Op) : Attempt Op → Except Fault Nat × Log Op
  | .call op thread => log.addCall op thread
  | .ret call op thread => log.addRet call op thread

/-- What all attempts leave behind, those that failed among them. -/
def attemptAll (log : Log Op) (attempts : List (Attempt Op)) : Log Op :=
  attempts.foldl (fun log a => (log.attempt a).2) log

theorem attemptAll_append (log : Log Op) (first second : List (Attempt Op)) :
    log.attemptAll (first ++ second) = (log.attemptAll first).attemptAll second :=
  List.foldl_append

end

/-- The entry `e` of `before` stands at `i` in `after`; only its link to the next one may differ. -/
def KeptIn (after : Log Op) (i : Nat) (e : Entry Op) : Prop :=
  ∃ next, after.entries[i]? = some { e with next }

theorem KeptIn.refl {log : Log Op} {i : Nat} {e : Entry Op} (he : log.entries[i]? = some e) :
    log.KeptIn i e :=
  ⟨e.next, he⟩

theorem KeptIn.settled {log : Log Op} {i : Nat} {e : Entry Op} (hs : e.Settled)
    (hk : log.KeptIn i e) : ∃ x, log.entries[i]? = some x ∧ x.Settled ∧
      ∀ {after : Log Op}, after.KeptIn i x → after.KeptIn i e := by
  obtain ⟨next, hx⟩ := hk
  exact ⟨_, hx, hs, fun ⟨next, hx⟩ => ⟨next, hx⟩⟩

theorem push_keeps {log : Log Op} {i : Nat} {e : Entry Op} (he : log.entries[i]? = some e)
    (new : Entry Op) : (log.push new).2.KeptIn i e := by
  by_cases room : log.size < log.capacity
  · have hi : i < log.size := (Array.getElem?_eq_some_iff.mp he).1
    unfold KeptIn
    rw [getElem?_push log new room, if_pos hi, he, Option.map_some]
    split
    · exact ⟨_, rfl⟩
    · exact ⟨e.next, rfl⟩
  · rw [push, if_neg room]
    exact .refl he

variable [Operation Op] {log : Log Op}

/-! ## One attempt -/

theorem addRet_cases (log : Log Op) (call : Nat) (op : Op) (thread : Nat) :
    let pushed := (log.push (.ofOp op 0 thread false)).2
    (∃ f, log.addRet call op thread = (.error f, log)) ∨
    call < log.size ∧ log.size < log.capacity ∧
      ((∃ f, log.addRet call op thread = (.error f, pushed)) ∨
      ∃ id key, pairing pushed.entries call log.size = .ok (id, key) ∧
        log.addRet call op thread =
          (.ok log.size, { pushed with entries := pair pushed.entries call log.size id key })) := by
  intro pushed
  unfold addRet
  by_cases hcall : call < log.size
  · rw [if_pos hcall]
    by_cases room : log.size < log.capacity
    · have hpush : log.push (.ofOp op 0 thread false) = (.ok log.size, pushed) :=
        Prod.ext (push_eq_ok log _ room) rfl
      rw [hpush]
      dsimp only
      cases hp : pairing pushed.entries call log.size with
      | error f => exact .inr ⟨hcall, room, .inl ⟨f, rfl⟩⟩
      | ok x => exact .inr ⟨hcall, room, .inr ⟨x.1, x.2, rfl, rfl⟩⟩
    · have hpush : log.push (.ofOp op 0 thread false) = (.error (.logFull log.capacity), log) :=
        if_neg room
      rw [hpush]
      exact .inl ⟨_, rfl⟩
  · rw [if_neg hcall]
    exact .inl ⟨_, rfl⟩

theorem eq_of_addCall {after : Log Op} {call thread : Nat} {op : Op}
    (hadd : log.addCall op thread = (.ok call, after)) :
    log.size < log.capacity ∧ call = log.size ∧
      after = ({ log with nextId := log.nextId + 1 }.push (.ofOp op log.nextId thread true)).2 := by
  by_cases room : log.size < log.capacity
  · have hok := push_eq_ok { log with nextId := log.nextId + 1 } (.ofOp op log.nextId thread true) room
    rw [← addCall] at hok ⊢
    rw [hadd] at hok ⊢
    cases hok
    exact ⟨room, rfl, rfl⟩
  · have hfull : log.addCall op thread =
        (.error (.logFull log.capacity), { log with nextId := log.nextId + 1 }) := if_neg room
    rw [hfull] at hadd
    cases hadd

theorem exists_of_addRet {after : Log Op} {call ret thread : Nat} {op : Op}
    (hadd : log.addRet call op thread = (.ok ret, after)) :
    let pushed := (log.push (.ofOp op 0 thread false)).2
    call < log.size ∧ log.size < log.capacity ∧ ret = log.size ∧ ∃ id key,
      pairing pushed.entries call log.size = .ok (id, key) ∧
      after = { pushed with entries := pair pushed.entries call log.size id key } := by
  intro pushed
  rcases log.addRet_cases call op thread with
    ⟨f, hf⟩ | ⟨hcall, room, ⟨f, hf⟩ | ⟨id, key, hpair, hok⟩⟩
  · rw [hf] at hadd
    cases hadd
  · rw [hf] at hadd
    cases hadd
  · rw [hok] at hadd
    cases hadd
    exact ⟨hcall, room, rfl, id, key, hpair, rfl⟩

theorem Invariant.attempt (h : log.Invariant) (a : Attempt Op) : (log.attempt a).2.Invariant := by
  cases a with
  | call op thread => exact h.addCall op thread
  | ret call op thread => exact h.addRet call op thread

theorem capacity_attempt (log : Log Op) (a : Attempt Op) :
    (log.attempt a).2.capacity = log.capacity := by
  cases a with
  | call op thread => exact (push_capacity_nextId _ _).1
  | ret call op thread =>
    have hpush := (push_capacity_nextId log (.ofOp op 0 thread false)).1
    rcases log.addRet_cases call op thread with
      ⟨f, hadd⟩ | ⟨_, _, ⟨f, hadd⟩ | ⟨id, key, _, hadd⟩⟩ <;> rw [attempt, hadd]
    · exact hpush
    · exact hpush

/-- Pairing looks for a call that is not matched yet, so it leaves every settled entry alone. -/
theorem attempt_keeps {i : Nat} {e : Entry Op} (he : log.entries[i]? = some e) (hs : e.Settled)
    (a : Attempt Op) : (log.attempt a).2.KeptIn i e := by
  cases a with
  | call op thread =>
    let base : Log Op := { log with nextId := log.nextId + 1 }
    exact push_keeps (show base.entries[i]? = some e from he) _
  | ret call op thread =>
    have hkept := push_keeps he (.ofOp op 0 thread false)
    rcases log.addRet_cases call op thread with
      ⟨f, hadd⟩ | ⟨hcall, _, ⟨f, hadd⟩ | ⟨id, key, hp, hadd⟩⟩ <;> rw [attempt, hadd]
    · exact .refl he
    · exact hkept
    · obtain ⟨next, hx⟩ := hkept
      obtain ⟨c, r, hc, hr, hcc, _, hcm, _⟩ := pairing_eq_ok hp
      have hir : i ≠ log.size := Nat.ne_of_lt (Array.getElem?_eq_some_iff.mp he).1
      have hic : i ≠ call := by
        rintro rfl
        rw [hx] at hc
        cases hc
        exact hs.elim (fun hm => by rw [show e.matched = none from hcm] at hm; cases hm)
          (fun hr => by rw [show e.isCall = true from hcc] at hr; cases hr)
      refine ⟨next, ?_⟩
      rw [getElem?_pair (Nat.ne_of_lt hcall), if_neg hic, if_neg hir]
      exact hx

/-- A fault leaves the entries as they were, or a return without a call behind the last one. -/
theorem attempt_of_error {a : Attempt Op} {f : Fault} (hf : (log.attempt a).1 = .error f) :
    (log.attempt a).2.entries = log.entries ∨
    ∃ e, (log.attempt a).2.entries[log.size]? = some e ∧ e.isCall = false ∧ e.matched = none := by
  cases a with
  | call op thread =>
    by_cases room : log.size < log.capacity
    · have hok := push_eq_ok { log with nextId := log.nextId + 1 }
        (.ofOp op log.nextId thread true) room
      rw [show (log.attempt (.call op thread)).1 = .ok log.size from hok] at hf
      cases hf
    · have hfull : log.addCall op thread =
          (.error (.logFull log.capacity), { log with nextId := log.nextId + 1 }) := by
        unfold addCall push
        exact if_neg room
      rw [attempt, hfull]
      exact .inl rfl
  | ret call op thread =>
    rcases log.addRet_cases call op thread with
      ⟨g, hadd⟩ | ⟨_, room, ⟨g, hadd⟩ | ⟨id, key, _, hadd⟩⟩ <;> rw [attempt, hadd] at hf ⊢
    · exact .inl rfl
    · refine .inr ⟨{ Entry.ofOp op 0 thread false with
        prev := if log.size = 0 then none else some (log.size - 1) }, ?_, rfl, rfl⟩
      rw [getElem?_push log _ room, if_neg (Nat.lt_irrefl _), if_pos rfl]
    · cases hf

/-! ## Any number of attempts -/

theorem Invariant.attemptAll (h : log.Invariant) (attempts : List (Attempt Op)) :
    (log.attemptAll attempts).Invariant := by
  induction attempts generalizing log with
  | nil => exact h
  | cons a attempts ih => exact ih (h.attempt a)

theorem capacity_attemptAll (log : Log Op) (attempts : List (Attempt Op)) :
    (log.attemptAll attempts).capacity = log.capacity := by
  induction attempts generalizing log with
  | nil => rfl
  | cons a attempts ih => exact (ih _).trans (log.capacity_attempt a)

theorem attemptAll_keeps {i : Nat} {e : Entry Op} (he : log.entries[i]? = some e) (hs : e.Settled)
    (attempts : List (Attempt Op)) : (log.attemptAll attempts).KeptIn i e := by
  induction attempts generalizing log e with
  | nil => exact .refl he
  | cons a attempts ih =>
    obtain ⟨x, hx, hxs, htrans⟩ := (attempt_keeps he hs a).settled hs
    exact htrans (ih hx hxs)

end Log

/-! ## Checking what was left -/

theorem exists_of_mapM_eq_ok {α β : Type} {f : α → Except Fault β} {l : List α} {r : List β}
    (h : l.mapM f = .ok r) {a : α} (ha : a ∈ l) : ∃ b, f a = .ok b := by
  induction l generalizing r with
  | nil => cases ha
  | cons x l ih =>
    rw [List.mapM_cons] at h
    cases hx : f x with
    | error e =>
      rw [hx] at h
      cases h
    | ok b =>
      rw [hx] at h
      cases hl : l.mapM f with
      | error e =>
        rw [hl] at h
        cases h
      | ok rest =>
        rcases List.mem_cons.mp ha with rfl | ha
        · exact ⟨b, hx⟩
        · exact ih hl ha

theorem WorkingList.matched_of_ofHistory {h : History Op} {w : WorkingList}
    (hw : WorkingList.ofHistory h = .ok w) {x : Nat × Entry Op} (hx : x ∈ h.toList) :
    x.2.matched.isSome := by
  obtain ⟨k, hk⟩ : ∃ k, (x, k) ∈ h.toList.zipIdx := by
    obtain ⟨k, hk⟩ := List.mem_iff_getElem?.mp hx
    exact ⟨k, List.mk_mem_zipIdx_iff_getElem?.mpr hk⟩
  unfold ofHistory at hw
  by_cases hlen : h.toList.length ≠ h.size
  · rw [if_pos hlen] at hw
    cases hw
  · rw [if_neg hlen] at hw
    cases hnodes : h.toList.zipIdx.mapM
        (entryNode (h.toList.map (·.1)).toArray h.size) with
    | error f =>
      simp only [hnodes, bind, Except.bind] at hw
      cases hw
    | ok nodes =>
      obtain ⟨node, hnode⟩ := exists_of_mapM_eq_ok hnodes hk
      cases hm : x.2.matched with
      | some other => rfl
      | none =>
        unfold entryNode at hnode
        dsimp only at hnode
        rw [hm] at hnode
        cases hnode

theorem Tester.matched_of_isOk {State : Type} [Specification State Op] {t : Tester State Op}
    {clock : Clock} {r : CheckResult}
    (hok : (t.checkInto clock r).1.isOk = true ∨ (t.check clock).isOk = true)
    {x : Nat × Entry Op} (hx : x ∈ t.history.toList) : x.2.matched.isSome := by
  cases hw : WorkingList.ofHistory t.history with
  | ok w => exact WorkingList.matched_of_ofHistory hw hx
  | error f =>
    have hinto : ∀ r, t.checkInto clock r = (.error f, r.reset) := by
      intro r
      simp only [checkInto, search, hw, bind, Except.bind]
    have hcheck : t.check clock = .error f := by
      simp only [check, hinto]
    rw [hinto, hcheck] at hok
    rcases hok with hok | hok <;> cases hok

namespace Log

variable [Operation Op]

theorem Invariant.toList_ofLog {log : Log Op} (h : log.Invariant) :
    (History.ofLog log).toList = log.entries.toList.zipIdx.map fun (e, i) => (i, e) :=
  History.toList_of_next rfl h.next

/-- Attempts, faults among them, keep the invariant within the capacity, and no attempt takes the
other half from an entry or gives it another. If what they leave behind is checked to an end, every
entry is matched: the attempts that failed appended nothing. -/
theorem attemptAll_spec (State : Type) [Specification State Op] (capacity : Nat)
    (attempts : List (Attempt Op)) :
    let log := (Log.ofCapacity capacity).attemptAll attempts
    (log.Invariant ∧ log.capacity = capacity) ∧
    (∀ i e, log.entries[i]? = some e → e.matched.isSome →
      ∀ later, (log.attemptAll later).KeptIn i e) ∧
    ∀ (t : Tester State Op) (clock : Clock) (r : CheckResult), log.info = .ok t.history →
      (t.checkInto clock r).1.isOk = true ∨ (t.check clock).isOk = true →
      (∀ e ∈ log.entries, e.matched.isSome) ∧
      ∀ first a second f, attempts = first ++ a :: second →
        (((Log.ofCapacity capacity).attemptAll first).attempt a).1 = .error f →
        (((Log.ofCapacity capacity).attemptAll first).attempt a).2.entries =
          ((Log.ofCapacity capacity).attemptAll first).entries := by
  intro log
  have hinv : log.Invariant := (invariant_ofCapacity capacity).attemptAll attempts
  refine ⟨⟨hinv, capacity_attemptAll _ attempts⟩,
    fun i e he hm later => attemptAll_keeps he (.inl hm) later, ?_⟩
  intro t clock r hinfo hok
  have hmatched : ∀ e ∈ log.entries, e.matched.isSome := by
    intro e he
    obtain ⟨i, hi⟩ := Array.mem_iff_getElem?.mp he
    refine t.matched_of_isOk hok (x := (i, e)) ?_
    rw [History.eq_ofLog hinfo, hinv.toList_ofLog]
    exact List.mem_map.mpr ⟨(e, i), List.mk_mem_zipIdx_iff_getElem?.mpr (by simpa using hi), rfl⟩
  refine ⟨hmatched, fun first a second f hsplit hf => ?_⟩
  rcases attempt_of_error hf with hsame | ⟨e, he, hret, hnone⟩
  · exact hsame
  · -- the return that was left behind is still there at the end, and it is not matched
    obtain ⟨next, hlast⟩ := attemptAll_keeps he (.inr hret) second
    have hlog : log =
        (((Log.ofCapacity capacity).attemptAll first).attempt a).2.attemptAll second := by
      show (Log.ofCapacity capacity).attemptAll attempts = _
      rw [hsplit, attemptAll_append]
      rfl
    rw [← hlog] at hlast
    have hm := hmatched _ (Array.mem_of_getElem? hlast)
    rw [show e.matched = none from hnone] at hm
    cases hm

def refusedAround : List (Attempt ByteSet.Op) :=
  [.ret 0 (.ret true) 0, .call (.contains 4) 0, .ret 0 (.ret false) 0, .call (.insert 4) 0]

def refusedAroundLog : Log ByteSet.Op := (Log.ofCapacity 2).attemptAll refusedAround

def refusedAroundTester : Tester ByteSet ByteSet.Op :=
  ⟨.ofLog refusedAroundLog, { memo := .disabled }, {}⟩

theorem attemptAll_spec_refusedAround :
    refusedAroundLog.info = .ok refusedAroundTester.history ∧
    (refusedAroundTester.check .frozen).isOk = true ∧
    (∀ e ∈ refusedAroundLog.entries, e.matched.isSome) ∧
    ∀ first a second f, refusedAround = first ++ a :: second →
      (((Log.ofCapacity 2).attemptAll first).attempt a).1 = .error f →
      (((Log.ofCapacity 2).attemptAll first).attempt a).2.entries =
        ((Log.ofCapacity 2).attemptAll first).entries := by
  have hinfo : refusedAroundLog.info = .ok refusedAroundTester.history :=
    History.info_eq_ok_iff.mpr ⟨by decide, rfl⟩
  have hok : (refusedAroundTester.check .frozen).isOk = true := by rfl
  exact ⟨hinfo, hok, (attemptAll_spec ByteSet 2 refusedAround).2.2 refusedAroundTester .frozen {}
    hinfo (.inr hok)⟩

end Log

end Linearizability
