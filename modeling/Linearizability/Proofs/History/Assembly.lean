import Linearizability.History.Recorder
import Linearizability.Proofs.History.View
import Linearizability.Proofs.History.Written

/-!
# Assembling slots

When every return names a call before it that no other return names, the
slots are assembled into a log that has each content at the number of its
slot, and in which a call is matched with the return that names it.
-/

namespace Linearizability

variable {Op : Type}

/-- Every return names a call before it, and no two of them name the same. -/
inductive Orderly : List (Slot Op) → Prop where
  | nil : Orderly []
  | call {contents : List (Slot Op)} (op : Op) (thread : Nat) :
    Orderly contents → Orderly (contents ++ [⟨op, thread, none⟩])
  | ret {contents : List (Slot Op)} {c : Slot Op} {call : Nat} (op : Op) (thread : Nat) :
    Orderly contents → contents[call]? = some c → c.call = none →
    (∀ d ∈ contents, d.call ≠ some call) → Orderly (contents ++ [⟨op, thread, some call⟩])

theorem Orderly.call_lt_length {contents : List (Slot Op)} (ho : Orderly contents) {c : Slot Op}
    (hc : c ∈ contents) {call : Nat} (hcall : c.call = some call) : call < contents.length := by
  induction ho with
  | nil => cases hc
  | call op thread _ ih =>
    rw [List.length_append]
    rcases List.mem_append.mp hc with hc | hc
    · exact Nat.lt_add_right _ (ih hc)
    · rw [List.mem_singleton.mp hc] at hcall
      cases hcall
  | ret op thread _ hget _ _ ih =>
    rw [List.length_append]
    rcases List.mem_append.mp hc with hc | hc
    · exact Nat.lt_add_right _ (ih hc)
    · rw [List.mem_singleton.mp hc] at hcall
      cases hcall
      exact Nat.lt_add_right _ (List.getElem?_eq_some_iff.mp hget).1

theorem getElem?_snoc {α : Type} (l : List α) (a : α) (i : Nat) :
    (l ++ [a])[i]? = if i < l.length then l[i]? else if i = l.length then some a else none := by
  rw [List.getElem?_append]
  by_cases hlt : i < l.length
  · rw [if_pos hlt, if_pos hlt]
  · rw [if_neg hlt, if_neg hlt, List.getElem?_singleton]
    exact if_congr (by omega) rfl rfl

/-! ## What an assembled log shows -/

def returnOf? (contents : List (Slot Op)) (call : Nat) : Option Nat :=
  contents.findIdx? fun c => c.call == some call

theorem returnOf?_snoc (contents : List (Slot Op)) (c : Slot Op) (call : Nat) :
    returnOf? (contents ++ [c]) call =
      (returnOf? contents call).or (if c.call = some call then some contents.length else none) := by
  rw [returnOf?, List.findIdx?_append, List.findIdx?_singleton, returnOf?]
  by_cases hc : c.call = some call <;> simp [hc]

theorem returnOf?_eq_none {contents : List (Slot Op)} {call : Nat}
    (hnone : ∀ c ∈ contents, c.call ≠ some call) : returnOf? contents call = none := by
  rw [returnOf?, List.findIdx?_eq_none_iff]
  intro c hc
  simpa using hnone c hc

theorem exists_of_returnOf? {contents : List (Slot Op)} {call j : Nat}
    (hj : returnOf? contents call = some j) :
    ∃ c, contents[j]? = some c ∧ c.call = some call := by
  obtain ⟨hlt, hcall, _⟩ := List.findIdx?_eq_some_iff_getElem.mp hj
  exact ⟨contents[j], List.getElem?_eq_getElem hlt, by simpa using hcall⟩

theorem exists_returnOf? {contents : List (Slot Op)} {call : Nat}
    (hsome : ∃ c ∈ contents, c.call = some call) : ∃ j, returnOf? contents call = some j := by
  obtain ⟨c, hc, hcall⟩ := hsome
  apply Option.isSome_iff_exists.mp
  rw [returnOf?, List.findIdx?_isSome, List.any_eq_true]
  exact ⟨c, hc, by simp [hcall]⟩

def shownAt (contents : List (Slot Op)) (i : Nat) : Option (Op × Bool × Option Nat) :=
  contents[i]?.map fun c => (c.op, c.call.isNone, c.call.or (returnOf? contents i))

theorem Orderly.shownAt_call {contents : List (Slot Op)} (ho : Orderly contents) (op : Op)
    (thread i : Nat) :
    shownAt (contents ++ [⟨op, thread, none⟩]) i =
      if i < contents.length then shownAt contents i
      else if i = contents.length then some (op, true, none) else none := by
  -- no return names the slot of a call that is still to come
  have hlast : returnOf? contents contents.length = none :=
    returnOf?_eq_none fun c hc hcall => absurd (ho.call_lt_length hc hcall) (Nat.lt_irrefl _)
  rw [shownAt, shownAt, getElem?_snoc, returnOf?_snoc]
  simp only [reduceCtorEq, if_false, Option.or_none]
  split
  · rfl
  · split
    · rename_i hi
      rw [hi, hlast]
      rfl
    · rfl

theorem shownAt_ret {contents : List (Slot Op)} {c : Slot Op} {call : Nat}
    (hc : contents[call]? = some c) (hcall : c.call = none)
    (hnone : ∀ d ∈ contents, d.call ≠ some call) (op : Op) (thread i : Nat) :
    shownAt (contents ++ [⟨op, thread, some call⟩]) i =
      if i = call then some (c.op, true, some contents.length)
      else if i < contents.length then shownAt contents i
      else if i = contents.length then some (op, false, some call) else none := by
  have hlt : call < contents.length := (List.getElem?_eq_some_iff.mp hc).1
  rw [shownAt, shownAt, getElem?_snoc, returnOf?_snoc]
  by_cases hi : i = call
  · subst hi
    rw [if_pos hlt, if_pos rfl, hc, returnOf?_eq_none hnone]
    simp [hcall]
  · rw [if_neg hi]
    have hne : (some call = some i) = False := by simp [Ne.symm hi]
    simp only [hne, if_false, Option.or_none]
    split
    · rfl
    · split <;> rfl

def Slot.written (c : Slot Op) : Op × Nat × Bool := (c.op, c.thread, c.call.isNone)

/-! ## Claiming -/

namespace Recorder

theorem claim_eq {r : Recorder Op} (hlog : r.log = none) (hroom : r.index < r.capacity) :
    r.claim = (.ok r.index, { r with index := r.index + 1 }) := by
  rw [claim, hlog]
  exact if_pos hroom

theorem claim_of_full {r : Recorder Op} (hlog : r.log = none) (hfull : r.capacity ≤ r.index) :
    r.claim = (.error (.recorderFull r.capacity), { r with index := r.index + 1 }) := by
  rw [claim, hlog]
  exact if_neg (Nat.not_lt.mpr hfull)

end Recorder

/-! ## Assembling -/

variable [Operation Op]

structure Log.Shows (log : Log Op) (contents : List (Slot Op)) : Prop where
  recorded : log.Recorded
  size : log.size = contents.length
  view : ∀ i, log.entries[i]?.map Entry.view = shownAt contents i
  written : log.written = contents.map Slot.written

namespace Log.Shows

theorem ofCapacity (capacity : Nat) : (Log.ofCapacity capacity : Log Op).Shows [] where
  recorded := .ofCapacity capacity
  size := rfl
  view i := by simp [Log.ofCapacity, shownAt]
  written := rfl

theorem exists_addCall {log : Log Op} {contents : List (Slot Op)} (hs : log.Shows contents)
    (ho : Orderly contents) (room : log.size < log.capacity) (op : Op) (thread : Nat) :
    ∃ after, log.addCall op thread = (.ok contents.length, after) ∧
      after.capacity = log.capacity ∧ after.Shows (contents ++ [⟨op, thread, none⟩]) := by
  obtain ⟨after, hadd, hsize, hcap, hview⟩ := Log.exists_addCall room op thread
  have hext := extends_of_addCall hadd
  refine ⟨after, hs.size ▸ hadd, hcap, hext.recorded hs.recorded, ?_, ?_, ?_⟩
  · rw [hsize, hs.size, List.length_append, List.length_singleton]
  · intro i
    rw [hview, ho.shownAt_call, hs.size, hs.view]
  · rw [hext.written, hs.written, List.map_append]
    rfl

theorem exists_addRet {log : Log Op} {contents : List (Slot Op)} (hs : log.Shows contents)
    (room : log.size < log.capacity) {c : Slot Op} {call : Nat} (hc : contents[call]? = some c)
    (hcall : c.call = none) (hnone : ∀ d ∈ contents, d.call ≠ some call) (op : Op) (thread : Nat) :
    ∃ after, log.addRet call op thread = (.ok contents.length, after) ∧
      after.capacity = log.capacity ∧ after.Shows (contents ++ [⟨op, thread, some call⟩]) := by
  have hview : log.entries[call]?.map Entry.view = some (c.op, true, none) := by
    rw [hs.view, shownAt, hc, returnOf?_eq_none hnone]
    simp [hcall]
  obtain ⟨after, hadd, hsize, hcap, hview⟩ := Log.exists_addRet room hview op thread
  have hext := extends_of_addRet hadd
  refine ⟨after, hs.size ▸ hadd, hcap, hext.recorded hs.recorded, ?_, ?_, ?_⟩
  · rw [hsize, hs.size, List.length_append, List.length_singleton]
  · intro i
    rw [hview, shownAt_ret hc hcall hnone, hs.size, hs.view]
  · rw [hext.written, hs.written, List.map_append]
    rfl

end Log.Shows

namespace Recorder

def assembleAll (capacity : Nat) (contents : List (Slot Op)) : Except Fault (Log Op) :=
  (contents.map some).zipIdx.foldlM assembleSlot (.ofCapacity capacity)

theorem assembleAll_snoc {capacity : Nat} {contents : List (Slot Op)} {log : Log Op}
    (hlog : assembleAll capacity contents = .ok log) (c : Slot Op) :
    assembleAll capacity (contents ++ [c]) = assembleSlot log (some c, contents.length) := by
  rw [assembleAll] at hlog
  rw [assembleAll, List.map_append, List.zipIdx_append, List.foldlM_append, hlog]
  simp only [bind, Except.bind, List.map_cons, List.map_nil, List.zipIdx_cons, List.zipIdx_nil,
    List.length_map, List.foldlM_cons, List.foldlM_nil, Nat.zero_add]
  cases assembleSlot log (some c, contents.length) <;> rfl

theorem exists_assembleAll {contents : List (Slot Op)} (ho : Orderly contents) {capacity : Nat}
    (room : contents.length ≤ capacity) :
    ∃ log, assembleAll capacity contents = .ok log ∧ log.capacity = capacity ∧
      log.Shows contents := by
  induction ho with
  | nil => exact ⟨.ofCapacity capacity, rfl, rfl, .ofCapacity capacity⟩
  | @call contents op thread ho ih =>
    rw [List.length_append, List.length_singleton] at room
    obtain ⟨log, hlog, hcap, hs⟩ := ih (Nat.le_of_succ_le room)
    obtain ⟨after, hadd, hcap', hs'⟩ :=
      hs.exists_addCall ho (hs.size ▸ hcap ▸ room) op thread
    refine ⟨after, ?_, hcap'.trans hcap, hs'⟩
    rw [assembleAll_snoc hlog, assembleSlot, hadd]
  | @ret contents c call op thread ho hc hcall hnone ih =>
    rw [List.length_append, List.length_singleton] at room
    obtain ⟨log, hlog, hcap, hs⟩ := ih (Nat.le_of_succ_le room)
    have hlt : call < contents.length := (List.getElem?_eq_some_iff.mp hc).1
    obtain ⟨after, hadd, hcap', hs'⟩ :=
      hs.exists_addRet (hs.size ▸ hcap ▸ room) hc hcall hnone op thread
    refine ⟨after, ?_, hcap'.trans hcap, hs'⟩
    rw [assembleAll_snoc hlog]
    simp only [assembleSlot, if_pos hlt, hadd]

end Recorder

/-! ## Reading an assembled log -/

namespace Log.Shows

variable {log : Log Op} {contents : List (Slot Op)} (hs : log.Shows contents) {i : Nat} {c : Slot Op}

include hs

theorem exists_entry (hc : contents[i]? = some c) :
    ∃ e, log.entries[i]? = some e ∧ e.op = c.op ∧ e.isCall = c.call.isNone ∧
      e.matched = c.call.or (returnOf? contents i) := by
  have hview := hs.view i
  rw [shownAt, hc, Option.map_some, Option.map_eq_some_iff] at hview
  obtain ⟨e, he, hev⟩ := hview
  simp only [Entry.view, Prod.mk.injEq] at hev
  exact ⟨e, he, hev⟩

theorem exists_content {e : Entry Op} (he : log.entries[i]? = some e) :
    ∃ c, contents[i]? = some c := by
  have hlt := (Array.getElem?_eq_some_iff.mp he).1
  rw [show log.entries.size = contents.length from hs.size] at hlt
  exact ⟨contents[i], List.getElem?_eq_getElem hlt⟩

theorem isCallAt_iff :
    (History.ofLog log).isCallAt i = true ↔ ∃ c, contents[i]? = some c ∧ c.call = none := by
  constructor
  · intro hi
    have hlt := History.WellPaired.lt_size_of_isCallAt hi
    obtain ⟨c, hc⟩ := hs.exists_content (Array.getElem?_eq_getElem hlt)
    obtain ⟨e, he, _, hcall, _⟩ := hs.exists_entry hc
    rw [History.isCallAt_eq (h := History.ofLog log) he, hcall] at hi
    exact ⟨c, hc, by simpa using hi⟩
  · rintro ⟨c, hc, hcall⟩
    obtain ⟨e, he, _, hisCall, _⟩ := hs.exists_entry hc
    rw [History.isCallAt_eq (h := History.ofLog log) he, hisCall, hcall]
    rfl

theorem exists_return_of_precedes {a b : Nat} (ha : contents[a]? = some c) (hcall : c.call = none)
    (hab : (History.ofLog log).Precedes a b) :
    ∃ j d, contents[j]? = some d ∧ d.call = some a ∧ j < b := by
  obtain ⟨e, j, he, hj, hlt⟩ := hab
  obtain ⟨e', he', _, _, hmatched⟩ := hs.exists_entry ha
  cases he.symm.trans he'
  rw [hcall, Option.none_or, hj] at hmatched
  obtain ⟨d, hd, hdcall⟩ := exists_of_returnOf? hmatched.symm
  exact ⟨j, d, hd, hdcall, hlt⟩

theorem precedes_of_return (hc : contents[i]? = some c) (hcall : c.call = none) {j b : Nat}
    {d : Slot Op} (hd : contents[j]? = some d) (hdcall : d.call = some i) (hlt : j < b) :
    (History.ofLog log).Precedes i b := by
  obtain ⟨first, hfirst⟩ := exists_returnOf? ⟨d, List.mem_of_getElem? hd, hdcall⟩
  obtain ⟨e, he, _, _, hmatched⟩ := hs.exists_entry hc
  rw [hcall, Option.none_or, hfirst] at hmatched
  refine ⟨e, first, he, hmatched, Nat.lt_of_le_of_lt (Nat.not_lt.mp fun hj => ?_) hlt⟩
  obtain ⟨hlen, _, hbefore⟩ := List.findIdx?_eq_some_iff_getElem.mp hfirst
  obtain ⟨hj', hget⟩ := List.getElem?_eq_some_iff.mp hd
  exact hbefore j hj (by rw [hget, hdcall]; exact beq_self_eq_true _)

theorem exists_halves? (hc : contents[i]? = some c) (hcall : c.call = none)
    (hret : ∃ d ∈ contents, d.call = some i) :
    ∃ d ∈ contents, d.call = some i ∧ (History.ofLog log).halves? i = some (c.op, d.op) := by
  obtain ⟨j, hj⟩ := exists_returnOf? hret
  obtain ⟨d, hd, hdcall⟩ := exists_of_returnOf? hj
  obtain ⟨e, he, hop, _, hmatched⟩ := hs.exists_entry hc
  obtain ⟨f, hf, hfop, _⟩ := hs.exists_entry hd
  rw [hcall, Option.none_or, hj] at hmatched
  refine ⟨d, List.mem_of_getElem? hd, hdcall, ?_⟩
  simp [History.halves?, History.ofLog, he, hmatched, hf, hop, hfop]

theorem complete (hall : ∀ {i c}, contents[i]? = some c → c.call = none →
    ∃ d ∈ contents, d.call = some i) : log.Complete where
  recorded := hs.recorded
  matched e he := by
    obtain ⟨i, hi⟩ := Array.mem_iff_getElem?.mp he
    obtain ⟨c, hc⟩ := hs.exists_content hi
    obtain ⟨e', he', _, _, hmatched⟩ := hs.exists_entry hc
    cases hi.symm.trans he'
    cases hcall : c.call with
    | some call => simp [hmatched, hcall]
    | none =>
      obtain ⟨j, hj⟩ := exists_returnOf? (hall hc hcall)
      simp [hmatched, hcall, hj]

end Log.Shows

end Linearizability
