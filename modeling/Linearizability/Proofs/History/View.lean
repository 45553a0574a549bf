import Linearizability.Proofs.History.Invariant

/-!
# What a log shows

Of every entry a log tells the operation, whether it is a call, and the
entry it is matched with. Recording a call adds one unmatched entry, and
recording a return adds one that is matched with its call.
-/

namespace Linearizability

variable {Op : Type} [Operation Op]

/-- What an entry tells apart from its links, ids and keys. -/
def Entry.view (e : Entry Op) : Op × Bool × Option Nat := (e.op, e.isCall, e.matched)

namespace Log

variable {log : Log Op} (room : log.size < log.capacity)

include room

omit [Operation Op] in
theorem view_push (e : Entry Op) (i : Nat) :
    (log.push e).2.entries[i]?.map Entry.view =
      if i < log.size then log.entries[i]?.map Entry.view
      else if i = log.size then some e.view else none := by
  rw [getElem?_push log e room]
  split
  · rw [Option.map_map]
    congr 1
    funext x
    simp only [Function.comp]
    split <;> rfl
  · split <;> rfl

theorem exists_addCall (op : Op) (thread : Nat) :
    ∃ after, log.addCall op thread = (.ok log.size, after) ∧ after.size = log.size + 1 ∧
      after.capacity = log.capacity ∧
      ∀ i, after.entries[i]?.map Entry.view =
        if i < log.size then log.entries[i]?.map Entry.view
        else if i = log.size then some (op, true, none) else none := by
  let base : Log Op := { log with nextId := log.nextId + 1 }
  let e : Entry Op := .ofOp op log.nextId thread true
  refine ⟨(base.push e).2, ?_, ?_, ?_, ?_⟩
  · exact Prod.ext (push_eq_ok base e room) rfl
  · exact size_push base e room
  · exact (push_capacity_nextId base e).1
  · exact view_push (show base.size < base.capacity from room) e

omit [Operation Op] room in
theorem pairing_ok {entries : Array (Entry Op)} {call ret : Nat} {c r : Entry Op}
    (hc : entries[call]? = some c) (hr : entries[ret]? = some r) (hcc : c.isCall = true)
    (hrc : r.isCall = false) (hcm : c.matched = none) (hrm : r.matched = none) :
    pairing entries call ret = .ok (c.id, r.key.or c.key) := by
  simp [pairing, hc, hr, hcc, hrc, hcm, hrm, pure, Except.pure]

theorem exists_addRet {call : Nat} {c : Op} (hcall : log.entries[call]?.map Entry.view =
    some (c, true, none)) (op : Op) (thread : Nat) :
    ∃ after, log.addRet call op thread = (.ok log.size, after) ∧ after.size = log.size + 1 ∧
      after.capacity = log.capacity ∧
      ∀ i, after.entries[i]?.map Entry.view =
        if i = call then some (c, true, some log.size)
        else if i < log.size then log.entries[i]?.map Entry.view
        else if i = log.size then some (op, false, some call) else none := by
  let r : Entry Op := .ofOp op 0 thread false
  have hlt : call < log.size := by
    obtain ⟨x, hx, _⟩ := Option.map_eq_some_iff.mp hcall
    exact (Array.getElem?_eq_some_iff.mp hx).1
  have hne : call ≠ log.size := Nat.ne_of_lt hlt
  have hview := view_push room r
  have hsize := size_push log r room
  have hcap := (push_capacity_nextId log r).1
  have hpush : log.push r = (.ok log.size, (log.push r).2) := Prod.ext (push_eq_ok log r room) rfl
  generalize (log.push r).2 = pushed at hview hsize hcap hpush
  obtain ⟨x, hx, hxv⟩ := Option.map_eq_some_iff.mp ((hview call).trans ((if_pos hlt).trans hcall))
  have hret : pushed.entries[log.size]?.map Entry.view = some (op, false, none) := by
    rw [hview, if_neg (Nat.lt_irrefl _), if_pos rfl]
    rfl
  obtain ⟨y, hy, hyv⟩ := Option.map_eq_some_iff.mp hret
  obtain ⟨hxop, hxcall, hxm⟩ : x.op = c ∧ x.isCall = true ∧ x.matched = none := by
    simpa [Entry.view] using hxv
  obtain ⟨hyop, hycall, hym⟩ : y.op = op ∧ y.isCall = false ∧ y.matched = none := by
    simpa [Entry.view] using hyv
  have hpair := pairing_ok hx hy hxcall hycall hxm hym
  refine ⟨{ pushed with entries := pair pushed.entries call log.size x.id (y.key.or x.key) },
    ?_, ?_, hcap, ?_⟩
  · unfold addRet
    rw [if_pos hlt]
    simp only [show Entry.ofOp op 0 thread false = r from rfl, hpush, hpair]
  · rw [← hsize]
    simp [size, pair]
  · intro i
    rw [getElem?_pair hne]
    by_cases hi : i = call
    · rw [if_pos hi, if_pos hi, hi, hx]
      simp [Entry.view, hxop, hxcall]
    · rw [if_neg hi, if_neg hi]
      by_cases hs : i = log.size
      · rw [if_pos hs, if_neg (by omega), if_pos hs, hs, hy]
        simp [Entry.view, hyop, hycall]
      · rw [if_neg hs, hview, if_neg hs, if_neg hs]

end Log

end Linearizability
