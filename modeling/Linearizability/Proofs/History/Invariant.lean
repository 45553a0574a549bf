import Linearizability.Linearization

/-!
# The invariant of a log

`Log.Invariant` holds of a new log and is kept by every operation, whether
it succeeds or fails: the entries are linked in the order of recording, the
calls are numbered in it, and two entries that are matched are the halves of
one operation.
-/

namespace Linearizability

variable {Op : Type}

def callsBefore (entries : Array (Entry Op)) (n : Nat) : Nat :=
  (List.range n).countP fun i => entries[i]?.any (·.isCall)

theorem callsBefore_congr {entries entries' : Array (Entry Op)} {n : Nat}
    (h : ∀ i < n, entries[i]?.map (·.isCall) = entries'[i]?.map (·.isCall)) :
    callsBefore entries n = callsBefore entries' n := by
  apply List.countP_congr
  intro i hi
  have hi := h i (List.mem_range.mp hi)
  cases he : entries[i]? <;> cases he' : entries'[i]? <;> simp_all

theorem callsBefore_succ (entries : Array (Entry Op)) (n : Nat) :
    callsBefore entries (n + 1) =
      callsBefore entries n + if entries[n]?.any (·.isCall) then 1 else 0 := by
  simp [callsBefore, List.range_succ, List.countP_append, List.countP_singleton]

theorem callsBefore_mono (entries : Array (Entry Op)) {m n : Nat} (h : m ≤ n) :
    callsBefore entries m ≤ callsBefore entries n := by
  induction h with
  | refl => exact Nat.le_refl _
  | step _ ih => rw [callsBefore_succ]; omega

namespace Log

/-! ## Appending an entry -/

theorem getElem?_push (log : Log Op) (e : Entry Op) (room : log.size < log.capacity) (i : Nat) :
    (log.push e).2.entries[i]? =
      if i < log.size then
        log.entries[i]?.map fun x => if i + 1 = log.size then { x with next := some log.size } else x
      else if i = log.size then
        some { e with prev := if log.size = 0 then none else some (log.size - 1) }
      else none := by
  unfold push
  rw [if_pos room]
  simp only [Array.getElem?_push, Array.size_modify, Array.getElem?_modify]
  unfold size at *
  by_cases hi : i < log.entries.size
  · have hne : i ≠ log.entries.size := by omega
    by_cases hl : log.entries.size - 1 = i
    · have hs : i + 1 = log.entries.size := by omega
      simp [hne, hi, hl, hs]
    · have hs : i + 1 ≠ log.entries.size := by omega
      simp [hne, hi, hl, hs]
  · by_cases he : i = log.entries.size
    · simp [he]
    · simp [hi, he]

theorem size_push (log : Log Op) (e : Entry Op) (room : log.size < log.capacity) :
    (log.push e).2.size = log.size + 1 := by
  unfold push
  rw [if_pos room]
  simp [size]

theorem push_eq_ok (log : Log Op) (e : Entry Op) (room : log.size < log.capacity) :
    (log.push e).1 = .ok log.size := by
  unfold push
  rw [if_pos room]

theorem push_capacity_nextId (log : Log Op) (e : Entry Op) :
    (log.push e).2.capacity = log.capacity ∧ (log.push e).2.nextId = log.nextId := by
  unfold push
  split <;> exact ⟨rfl, rfl⟩

theorem cases_of_push {log : Log Op} {e x : Entry Op} (room : log.size < log.capacity) {i : Nat}
    (hx : (log.push e).2.entries[i]? = some x) :
    (i < log.size ∧ ∃ y, log.entries[i]? = some y ∧
      x = if i + 1 = log.size then { y with next := some log.size } else y) ∨
    (i = log.size ∧ x = { e with prev := if log.size = 0 then none else some (log.size - 1) }) := by
  rw [getElem?_push log e room] at hx
  by_cases hi : i < log.size
  · rw [if_pos hi, Option.map_eq_some_iff] at hx
    obtain ⟨y, hy, rfl⟩ := hx
    exact .inl ⟨hi, y, hy, rfl⟩
  · rw [if_neg hi] at hx
    by_cases he : i = log.size
    · rw [if_pos he] at hx
      exact .inr ⟨he, (Option.some.inj hx).symm⟩
    · rw [if_neg he] at hx
      cases hx

theorem callsBefore_push (log : Log Op) (e : Entry Op) (room : log.size < log.capacity) {i : Nat}
    (hi : i ≤ log.size) : callsBefore (log.push e).2.entries i = callsBefore log.entries i := by
  apply callsBefore_congr
  intro j hj
  rw [getElem?_push log e room, if_pos (Nat.lt_of_lt_of_le hj hi), Option.map_map]
  congr 1
  funext x
  simp only [Function.comp]
  split <;> rfl

end Log

/-! ## The invariant -/

variable [Operation Op]

/-- The entries `c` and `r`, which stand at `call` and `ret`, are the halves of one operation. -/
structure Halves (call : Nat) (c : Entry Op) (ret : Nat) (r : Entry Op) : Prop where
  isCall : c.isCall = true
  isRet : r.isCall = false
  callMatched : c.matched = some ret
  retMatched : r.matched = some call
  lt : call < ret
  id : r.id = c.id
  callKey : c.key = (Operation.key r.op).or (Operation.key c.op)
  retKey : r.key = c.key

theorem Halves.relink {call ret : Nat} {c r c' r' : Entry Op} (h : Halves call c ret r)
    (hc : c' = { c with next := c'.next }) (hr : r' = { r with next := r'.next }) :
    Halves call c' ret r' := by
  rw [hc, hr]
  exact ⟨h.isCall, h.isRet, h.callMatched, h.retMatched, h.lt, h.id, h.callKey, h.retKey⟩

namespace Log

structure Invariant (log : Log Op) : Prop where
  size_le : log.size ≤ log.capacity
  prev : ∀ {i : Nat} {e : Entry Op}, log.entries[i]? = some e →
    e.prev = if i = 0 then none else some (i - 1)
  next : ∀ {i : Nat} {e : Entry Op}, log.entries[i]? = some e →
    e.next = if i + 1 < log.size then some (i + 1) else none
  callId : ∀ {i : Nat} {e : Entry Op}, log.entries[i]? = some e → e.isCall = true →
    e.id = callsBefore log.entries i
  nextId : log.size < log.capacity → log.nextId = callsBefore log.entries log.size
  unmatchedKey : ∀ {i : Nat} {e : Entry Op}, log.entries[i]? = some e → e.matched = none →
    e.key = Operation.key e.op
  halves : ∀ {i j : Nat} {e : Entry Op}, log.entries[i]? = some e → e.matched = some j →
    ∃ f, log.entries[j]? = some f ∧ (Halves i e j f ∨ Halves j f i e)

theorem invariant_ofCapacity (capacity : Nat) : (Log.ofCapacity capacity : Log Op).Invariant where
  size_le := Nat.zero_le _
  prev h := by simp [ofCapacity] at h
  next h := by simp [ofCapacity] at h
  callId h := by simp [ofCapacity] at h
  nextId _ := rfl
  unmatchedKey h := by simp [ofCapacity] at h
  halves h := by simp [ofCapacity] at h

theorem Invariant.push {log : Log Op} (h : log.Invariant) {e : Entry Op}
    (room : log.size < log.capacity) (hm : e.matched = none) (hn : e.next = none)
    (hk : e.key = Operation.key e.op)
    (hid : e.isCall = true → e.id = callsBefore log.entries log.size) {id : Nat}
    (hnext : id = callsBefore log.entries log.size + if e.isCall then 1 else 0) :
    ({ log with nextId := id }.push e).2.Invariant := by
  let old : Log Op := { log with nextId := id }
  have room : old.size < old.capacity := room
  have hsize := size_push old e room
  obtain ⟨hcap, hid'⟩ := push_capacity_nextId old e
  have hlast : (old.push e).2.entries[old.size]? =
      some { e with prev := if old.size = 0 then none else some (old.size - 1) } := by
    rw [getElem?_push old e room]
    simp
  constructor
  case size_le => rw [hsize, hcap]; exact room
  case prev =>
    intro i x hx
    rcases cases_of_push room hx with ⟨_, y, hy, rfl⟩ | ⟨rfl, rfl⟩
    · have := h.prev hy
      split <;> exact this
    · rfl
  case next =>
    intro i x hx
    rw [hsize]
    rcases cases_of_push room hx with ⟨hi, y, hy, rfl⟩ | ⟨rfl, rfl⟩
    · have hy := h.next hy
      by_cases hl : i + 1 = old.size
      · simp [hl]
      · have : i + 1 < log.size := by
          have : log.size = old.size := rfl
          omega
        simp [hl, hy, this, hi]
    · simp [hn]
  case callId =>
    intro i x hx hc
    rcases cases_of_push room hx with ⟨hi, y, hy, rfl⟩ | ⟨rfl, rfl⟩
    · rw [callsBefore_push old e room (Nat.le_of_lt hi)]
      have := h.callId hy
      by_cases hl : i + 1 = old.size
      · simp only [hl, if_true] at hc ⊢; exact this hc
      · simp only [hl, if_false] at hc ⊢; exact this hc
    · rw [callsBefore_push old e room (Nat.le_refl _)]
      exact hid hc
  case nextId =>
    intro _
    rw [hsize, hid', callsBefore_succ, callsBefore_push old e room (Nat.le_refl _), hlast]
    exact hnext
  case unmatchedKey =>
    intro i x hx hx'
    rcases cases_of_push room hx with ⟨_, y, hy, rfl⟩ | ⟨rfl, rfl⟩
    · have := h.unmatchedKey hy
      by_cases hl : i + 1 = old.size
      · simp only [hl, if_true] at hx' ⊢; exact this hx'
      · simp only [hl, if_false] at hx' ⊢; exact this hx'
    · exact hk
  case halves =>
    intro i j x hx hxm
    rcases cases_of_push room hx with ⟨_, y, hy, hxy⟩ | ⟨rfl, rfl⟩
    · have hxm : y.matched = some j := by rw [← hxm, hxy]; split <;> rfl
      have hrel : x = { y with next := x.next } := by rw [hxy]; split <;> rfl
      obtain ⟨f, hf, hh⟩ := h.halves hy hxm
      have hj : j < old.size := (Array.getElem?_eq_some_iff.mp hf).1
      refine ⟨if j + 1 = old.size then { f with next := some old.size } else f, ?_, ?_⟩
      · rw [getElem?_push old e room, if_pos hj, show old.entries = log.entries from rfl, hf]
        rfl
      · refine hh.imp (·.relink hrel ?_) (·.relink ?_ hrel) <;> split <;> rfl
    · rw [hm] at hxm
      cases hxm

/-! ## Pairing two entries -/

omit [Operation Op] in
theorem pairing_eq_ok {entries : Array (Entry Op)} {call ret id : Nat} {key : Option Nat}
    (h : pairing entries call ret = .ok (id, key)) :
    ∃ c r, entries[call]? = some c ∧ entries[ret]? = some r ∧ c.isCall = true ∧ r.isCall = false ∧
      c.matched = none ∧ r.matched = none ∧ id = c.id ∧ key = r.key.or c.key := by
  unfold pairing at h
  split at h
  case h_2 => cases h
  case h_1 c hc =>
    simp only [throw, throwThe, MonadExceptOf.throw, bind, Except.bind, pure, Except.pure] at h
    split at h <;> try cases h
    split at h <;> try cases h
    split at h
    case h_2 => cases h
    case h_1 r hr =>
      split at h <;> try cases h
      split at h <;> cases h
      simp_all

omit [Operation Op] in
theorem getElem?_pair {entries : Array (Entry Op)} {call ret id : Nat} {key : Option Nat}
    (hne : call ≠ ret) (i : Nat) :
    (pair entries call ret id key)[i]? =
      if i = call then entries[i]?.map fun c => { c with matched := some ret, key }
      else if i = ret then entries[i]?.map fun r => { r with matched := some call, id, key }
      else entries[i]? := by
  unfold pair
  rw [Array.getElem?_modify, Array.getElem?_modify]
  by_cases hc : i = call
  · subst hc
    simp [Ne.symm hne]
  · by_cases hr : i = ret
    · subst hr
      simp [hne, hc]
    · simp [Ne.symm hc, Ne.symm hr, hc, hr]

omit [Operation Op] in
theorem cases_of_pair {entries : Array (Entry Op)} {call ret id : Nat} {key : Option Nat}
    {c r x : Entry Op} (hne : call ≠ ret) (hc : entries[call]? = some c)
    (hr : entries[ret]? = some r) {i : Nat} (hx : (pair entries call ret id key)[i]? = some x) :
    (i = call ∧ x = { c with matched := some ret, key }) ∨
    (i = ret ∧ x = { r with matched := some call, id, key }) ∨
    (i ≠ call ∧ i ≠ ret ∧ entries[i]? = some x) := by
  rw [getElem?_pair hne] at hx
  by_cases hic : i = call
  · subst hic
    rw [if_pos rfl, hc] at hx
    exact .inl ⟨rfl, (Option.some.inj hx).symm⟩
  · rw [if_neg hic] at hx
    by_cases hir : i = ret
    · subst hir
      rw [if_pos rfl, hr] at hx
      exact .inr (.inl ⟨rfl, (Option.some.inj hx).symm⟩)
    · rw [if_neg hir] at hx
      exact .inr (.inr ⟨hic, hir, hx⟩)

omit [Operation Op] in
theorem callsBefore_pair {entries : Array (Entry Op)} {call ret id : Nat} {key : Option Nat}
    (hne : call ≠ ret) (n : Nat) :
    callsBefore (pair entries call ret id key) n = callsBefore entries n := by
  apply callsBefore_congr
  intro i _
  rw [getElem?_pair hne]
  split
  · rw [Option.map_map]; rfl
  · split
    · rw [Option.map_map]; rfl
    · rfl

theorem Invariant.pair {log : Log Op} (h : log.Invariant) {call ret id : Nat} {key : Option Nat}
    (hlt : call < ret) (hp : pairing log.entries call ret = .ok (id, key)) :
    ({ log with entries := Log.pair log.entries call ret id key } : Log Op).Invariant := by
  obtain ⟨c, r, hc, hr, hcc, hrc, hcm, hrm, rfl, rfl⟩ := pairing_eq_ok hp
  have hne : call ≠ ret := Nat.ne_of_lt hlt
  have hck := h.unmatchedKey hc hcm
  have hrk := h.unmatchedKey hr hrm
  let entries := Log.pair log.entries call ret c.id (r.key.or c.key)
  have hsize : entries.size = log.entries.size := by simp [entries, Log.pair]
  have hcall : entries[call]? = some { c with matched := some ret, key := r.key.or c.key } := by
    rw [getElem?_pair hne, if_pos rfl, hc]; rfl
  have hret : entries[ret]? =
      some { r with matched := some call, id := c.id, key := r.key.or c.key } := by
    rw [getElem?_pair hne, if_neg hne.symm, if_pos rfl, hr]; rfl
  have hother : ∀ {i}, i ≠ call → i ≠ ret → entries[i]? = log.entries[i]? := by
    intro i hic hir
    rw [getElem?_pair hne, if_neg hic, if_neg hir]
  have hpair : Halves call { c with matched := some ret, key := r.key.or c.key } ret
      { r with matched := some call, id := c.id, key := r.key.or c.key } :=
    ⟨hcc, hrc, rfl, rfl, hlt, rfl, by rw [hck, hrk], rfl⟩
  constructor
  case size_le => unfold size; rw [show _ = _ from hsize]; exact h.size_le
  case prev =>
    intro i x hx
    rcases cases_of_pair hne hc hr hx with ⟨rfl, rfl⟩ | ⟨rfl, rfl⟩ | ⟨_, _, hx⟩
    · exact (h.prev hc : c.prev = _)
    · exact (h.prev hr : r.prev = _)
    · exact h.prev hx
  case next =>
    intro i x hx
    have hsize : ({ log with entries := entries } : Log Op).size = log.size := hsize
    rw [hsize]
    rcases cases_of_pair hne hc hr hx with ⟨rfl, rfl⟩ | ⟨rfl, rfl⟩ | ⟨_, _, hx⟩
    · exact (h.next hc : c.next = _)
    · exact (h.next hr : r.next = _)
    · exact h.next hx
  case callId =>
    intro i x hx hxc
    rw [callsBefore_pair hne]
    rcases cases_of_pair hne hc hr hx with ⟨rfl, rfl⟩ | ⟨rfl, rfl⟩ | ⟨_, _, hx⟩
    · exact (h.callId hc hcc : c.id = _)
    · rw [hrc] at hxc; cases hxc
    · exact h.callId hx hxc
  case nextId =>
    intro room
    have hsize : ({ log with entries := entries } : Log Op).size = log.size := hsize
    rw [hsize] at room ⊢
    rw [callsBefore_pair hne]
    exact h.nextId room
  case unmatchedKey =>
    intro i x hx hxm
    rcases cases_of_pair hne hc hr hx with ⟨rfl, rfl⟩ | ⟨rfl, rfl⟩ | ⟨_, _, hx⟩
    · cases hxm
    · cases hxm
    · exact h.unmatchedKey hx hxm
  case halves =>
    intro i j x hx hxm
    rcases cases_of_pair hne hc hr hx with ⟨rfl, rfl⟩ | ⟨rfl, rfl⟩ | ⟨_, _, hx⟩
    · cases hxm
      exact ⟨_, hret, .inl hpair⟩
    · cases hxm
      exact ⟨_, hcall, .inr hpair⟩
    · obtain ⟨f, hf, hh⟩ := h.halves hx hxm
      -- `f` is matched, and neither the call nor the return was
      have hfm : f.matched ≠ none := by
        rcases hh with hh | hh
        · simp [hh.retMatched]
        · simp [hh.callMatched]
      have hjc : j ≠ call := by rintro rfl; rw [hc] at hf; cases hf; exact hfm hcm
      have hjr : j ≠ ret := by rintro rfl; rw [hr] at hf; cases hf; exact hfm hrm
      exact ⟨f, by rw [hother hjc hjr]; exact hf, hh⟩

/-! ## The operations -/

theorem Invariant.addCall {log : Log Op} (h : log.Invariant) (op : Op) (thread : Nat) :
    (log.addCall op thread).2.Invariant := by
  by_cases room : log.size < log.capacity
  · refine h.push room rfl rfl rfl (fun _ => h.nextId room) ?_
    rw [h.nextId room]
    rfl
  · have hfull : (log.addCall op thread).2 = { log with nextId := log.nextId + 1 } := by
      unfold Log.addCall Log.push
      exact congrArg Prod.snd (if_neg room)
    rw [hfull]
    exact ⟨h.size_le, h.prev, h.next, h.callId, fun hr => absurd hr room, h.unmatchedKey, h.halves⟩

theorem Invariant.addRet {log : Log Op} (h : log.Invariant) (call : Nat) (op : Op) (thread : Nat) :
    (log.addRet call op thread).2.Invariant := by
  unfold Log.addRet
  split
  case isFalse => exact h
  case isTrue hcall =>
    by_cases room : log.size < log.capacity
    · have hpushed : (log.push (.ofOp op 0 thread false)).2.Invariant :=
        h.push room rfl rfl rfl (fun hc => by cases hc) (h.nextId room)
      have hok := push_eq_ok log (.ofOp op 0 thread false) room
      generalize log.push (.ofOp op 0 thread false) = pushed at hok hpushed
      obtain ⟨ref, after⟩ := pushed
      cases hok
      dsimp only
      split
      · exact hpushed
      · exact hpushed.pair hcall ‹_›
    · have hfull : log.push (.ofOp op 0 thread false) = (.error (.logFull log.capacity), log) :=
        if_neg room
      rw [hfull]
      exact h

theorem Recorded.invariant {log : Log Op} (h : log.Recorded) : log.Invariant := by
  induction h with
  | ofCapacity capacity => exact invariant_ofCapacity capacity
  | @addCall _ _ op thread _ _ hadd ih =>
    have hafter := ih.addCall op thread
    rw [hadd] at hafter
    exact hafter
  | @addRet _ _ call op thread _ _ hadd ih =>
    have hafter := ih.addRet call op thread
    rw [hadd] at hafter
    exact hafter

end Log

end Linearizability
