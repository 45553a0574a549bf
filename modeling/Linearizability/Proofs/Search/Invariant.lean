import Linearizability.Proofs.Search.Exploration
import Linearizability.Proofs.Search.PathList

/-!
# The invariant of the loop

All of a search but its cursor and its ledger is determined by the calls on
its stack: they make a path, the working list shows what is left beside it,
the bitset holds its ids, and the states are those of the replay. An
iteration keeps that, and `Search.step` is one of five moves.
-/

namespace Linearizability

variable {Op State : Type} [Specification State Op]

namespace Search

def path (s : Search State) : List Nat := (s.stack.map (·.call)).reverse

def ledger (s : Search State) : Ledger State := ⟨s.memo, s.cutoff, s.stats⟩

def withLedger (s : Search State) (l : Ledger State) : Search State :=
  { s with memo := l.memo, cutoff := l.cutoff, stats := l.stats }

@[simp] theorem ledger_withLedger (s : Search State) (l : Ledger State) :
    (s.withLedger l).ledger = l := rfl

@[simp] theorem state_withLedger (s : Search State) (l : Ledger State) :
    (s.withLedger l).state = s.state := rfl

@[simp] theorem linearized_withLedger (s : Search State) (l : Ledger State) :
    (s.withLedger l).linearized = s.linearized := rfl

end Search

namespace History

def SavedStates (h : History Op) : List (Frame State) → Prop
  | [] => True
  | frame :: frames =>
    h.replay? Specification.init (frames.map (·.call)).reverse = some frame.before ∧
      h.SavedStates frames

end History

namespace Search

/-- The search has come to the entries `ahead` of what is left. Those that it passed are calls. -/
structure At (h : History Op) (s : Search State) (ahead : List Nat) : Prop where
  path : h.IsPath s.path
  list : h.listAt s.path = .ok s.list
  saved : h.SavedStates s.stack
  state : h.replay? Specification.init s.path = some s.state
  depth : s.depth = s.stack.length
  linearized : s.linearized = h.marks s.path
  behind : ∃ passed, h.rest s.path = passed ++ ahead ∧ ∀ i ∈ passed, h.isCallAt i = true
  cursor : s.cursor = ahead.headD s.list.head

variable [Operation Op] {h : History Op} (hw : h.WellPaired) {s : Search State} {i : Nat}
  {ahead : List Nat}

include hw

theorem At.shows (ha : s.At h ahead) : s.list.Shows h (h.rest s.path) := by
  obtain ⟨w, hl, hs⟩ := ha.path.exists_listAt hw
  rw [ha.list] at hl
  cases hl
  exact hs

theorem At.exists_node (ha : s.At h (i :: ahead)) :
    ∃ n, s.list.nodes[i]? = some n ∧ n.bare = h.bareNode i ∧
      n.next = ahead.headD s.list.head := by
  obtain ⟨passed, hrest, _⟩ := ha.behind
  have hi : i < h.entries.size := (History.mem_rest.mp (by rw [hrest]; simp)).1
  have hs := ha.shows hw
  rw [hrest] at hs
  exact hs.exists_node hi

theorem At.isEmpty (ha : s.At h ahead) : s.list.isEmpty = .ok (h.rest s.path).isEmpty :=
  (ha.shows hw).circle.isEmpty

theorem At.ahead_ne_nil (ha : s.At h (i :: ahead)) (hi : h.isCallAt i = true) : ahead ≠ [] := by
  rintro rfl
  obtain ⟨passed, hrest, hpassed⟩ := ha.behind
  have hmem : i ∈ h.rest s.path := by rw [hrest]; simp
  have hmate := hw.mate_mem_rest hmem
  have hret : h.isCallAt (h.mate i) = false := by
    rw [hw.isCallAt_mate (History.mem_rest.mp hmem).1, hi]
    rfl
  rw [hrest] at hmate
  rcases List.mem_append.mp hmate with hm | hm
  · rw [hpassed _ hm] at hret
    cases hret
  · rw [List.mem_singleton.mp hm, hi] at hret
    cases hret

omit [Operation Op] hw in
theorem At.mem_front (ha : s.At h (i :: ahead)) (hi : h.isCallAt i = true) : i ∈ h.front s.path := by
  obtain ⟨passed, hrest, hpassed⟩ := ha.behind
  rw [History.front, hrest, List.takeWhile_append_of_pos hpassed, List.takeWhile_cons_of_pos hi]
  simp

omit [Operation Op] hw in
theorem At.mem_left (ha : s.At h (i :: ahead)) (hi : h.isCallAt i = true) : i ∈ h.left s.path :=
  History.front_subset_left (ha.mem_front hi)

omit [Operation Op] hw in
theorem At.withLedger (ha : s.At h ahead) (l : Ledger State) : (s.withLedger l).At h ahead :=
  ⟨ha.path, ha.list, ha.saved, ha.state, ha.depth, ha.linearized, ha.behind, ha.cursor⟩

omit [Operation Op] hw in
theorem At.pass (ha : s.At h (i :: ahead)) (hi : h.isCallAt i = true) {s' : Search State}
    (hlist : s'.list = s.list) (hstack : s'.stack = s.stack) (hdepth : s'.depth = s.depth)
    (hlin : s'.linearized = s.linearized) (hstate : s'.state = s.state)
    (hcursor : s'.cursor = ahead.headD s.list.head) : s'.At h ahead := by
  have hpath : s'.path = s.path := by rw [Search.path, hstack, Search.path]
  obtain ⟨passed, hrest, hpassed⟩ := ha.behind
  refine ⟨hpath ▸ ha.path, ?_, hstack ▸ ha.saved, ?_, ?_, ?_, ⟨passed ++ [i], ?_, ?_⟩, ?_⟩
  · rw [hpath, hlist, ha.list]
  · rw [hpath, hstate, ha.state]
  · rw [hdepth, hstack, ha.depth]
  · rw [hpath, hlin, ha.linearized]
  · rw [hpath, hrest]; simp
  · intro j hj
    rcases List.mem_append.mp hj with hj | hj
    · exact hpassed j hj
    · rw [List.mem_singleton.mp hj]; exact hi
  · rw [hcursor, hlist]

omit [Operation Op] hw in
theorem At.lifted (ha : s.At h (i :: ahead)) (hi : h.isCallAt i = true) {s' : Search State}
    (hstack : s'.stack = ⟨i, s.state⟩ :: s.stack) (hlist : s.list.lift i = .ok s'.list)
    (hstate : h.next? s.state i = some s'.state) (hdepth : s'.depth = s.depth + 1)
    (hlin : s'.linearized = s.linearized.put (h.idAt i))
    (hcursor : s'.cursor = (h.rest (s.path ++ [i])).headD s'.list.head) :
    s'.At h (h.rest (s.path ++ [i])) := by
  have hpath : s'.path = s.path ++ [i] := by simp [Search.path, hstack]
  refine ⟨?_, ?_, ?_, ?_, ?_, ?_, ⟨[], by rw [hpath]; rfl, by simp⟩, hcursor⟩
  · rw [hpath]
    exact ha.path.snoc (ha.mem_front hi)
  · rw [hpath, History.listAt_snoc ha.list, hlist]
  · rw [hstack]
    exact ⟨ha.state, ha.saved⟩
  · rw [hpath, History.replay?_snoc, ha.state]
    exact hstate
  · rw [hdepth, hstack, ha.depth, List.length_cons]
  · rw [hpath, History.marks_snoc, hlin, ha.linearized]

end Search

end Linearizability
