import Linearizability.Proofs.Search.Outcome
import Linearizability.Proofs.Search.Verdict

/-!
# The loop of a check

Whatever the specification, no iteration of the loop fails, and at each of
them the list, the stack, the bitset and the states tell of the same calls.
Without a time limit there are fewer iterations than the bound allows.
-/

namespace Linearizability

variable {Op State : Type} [Specification State Op]

namespace History

theorem SavedStates.before_eq {h : History Op} {above below : List (Frame State)}
    {frame : Frame State} (hs : h.SavedStates (above ++ frame :: below)) :
    h.replay? Specification.init (below.map (·.call)).reverse = some frame.before := by
  induction above with
  | nil => exact hs.1
  | cons _ _ ih => exact ih hs.2

variable [Operation Op] {h : History Op} (hw : h.WellPaired)

include hw

theorem IsPath.sublist_of_precedes {path : List Nat} (hp : h.IsPath path) {a b : Nat}
    (ha : h.isCallAt a = true) (hb : b ∈ path) (hab : h.Precedes a b) : [a, b].Sublist path := by
  induction hp with
  | nil => cases hb
  | @snoc path last _ hf ih =>
    rcases List.mem_append.mp hb with hb | hb
    · exact (ih hb).trans (List.sublist_append_left path [last])
    · obtain rfl := List.mem_singleton.mp hb
      have hmem : a ∈ path := by
        by_contra hout
        exact (hw.mem_front_iff.mp hf).2 a (mem_left.mpr ⟨ha, hout⟩) hab
      exact (List.singleton_sublist.mpr hmem).append (List.Sublist.refl [b])

end History

namespace Search

/-! ## The parts of a search -/

/-- The parts of a search tell of the same linearized calls. -/
structure InStep (h : History Op) (s : Search State) : Prop where
  /-- The links lead through the entries that are left and back to the head, in both directions. -/
  circle : s.list.Circle ((h.toList.map (·.1)).filter fun i => h.callOf i ∉ s.path)
  remaining : s.list.remaining = (h.toList.map (·.1)).filter fun i => h.callOf i ∉ s.path
  calls : ∀ call ∈ s.path, call ∈ h.callRefs
  nodup : s.path.Nodup
  depth : s.depth = s.stack.length
  linearized : ∀ id, s.linearized.contains id = true ↔ ∃ call ∈ s.path, h.idAt call = id
  state : h.replay? Specification.init s.path = some s.state
  saved : ∀ {above below : List (Frame State)} {frame : Frame State},
    s.stack = above ++ frame :: below →
    h.replay? Specification.init (below.map (·.call)).reverse = some frame.before
  realTime : ∀ {a b : Nat}, a ∈ h.callRefs → b ∈ s.path → h.Precedes a b → [a, b].Sublist s.path

section

variable [Operation Op] {h : History Op} (hw : h.WellPaired) {s s' : Search State} {n : Nat}
  {ahead : List Nat}

include hw

theorem At.inStep (ha : s.At h ahead) : s.InStep h where
  circle := hw.rest_eq s.path ▸ (ha.shows hw).circle
  remaining := (ha.remaining hw).trans (hw.rest_eq s.path)
  calls _ hc := hw.mem_callRefs.mpr (ha.path.isCallAt hc)
  nodup := ha.path.nodup
  depth := ha.depth
  linearized _ := by
    rw [ha.linearized]
    exact ha.path.contains_marks_iff hw
  state := ha.state
  saved hstack := History.SavedStates.before_eq (hstack ▸ ha.saved)
  realTime hcall := ha.path.sublist_of_precedes hw (hw.mem_callRefs.mp hcall)

/-! ## Iterations -/

def Proceeds (h : History Op) (s : Search State) : Prop :=
  s.list.isEmpty = .ok true ∨
    s.list.isEmpty = .ok false ∧ s.cursor < s.list.head ∧ ∃ move, s.step h = .ok move

theorem At.proceeds (ha : s.At h ahead) : s.Proceeds h := by
  cases he : (h.rest s.path).isEmpty with
  | true => exact .inl ((ha.isEmpty hw).trans (congrArg Except.ok he))
  | false =>
    have hempty : s.list.isEmpty = .ok false := (ha.isEmpty hw).trans (congrArg Except.ok he)
    obtain ⟨i, behind, rfl⟩ := ha.exists_of_isEmpty hw hempty
    refine .inr ⟨hempty, ?_, ?_⟩
    · obtain ⟨passed, hrest, _⟩ := ha.behind
      have hi : i < h.entries.size := (History.mem_rest.mp (by rw [hrest]; simp)).1
      rw [show s.cursor = i from ha.cursor, WorkingList.head, (ha.shows hw).size]
      exact hi
    · rcases ha.exists_advance hw with ⟨s₁, _, hstep, _⟩ | ⟨hstep, _⟩
      · exact ⟨_, hstep⟩
      · exact ⟨_, hstep⟩

omit [Operation Op] hw in
theorem Reaches.lt_limit (hr : s.Reaches h n s') {d : Deadline} (hd : d.limit = none)
    {limit look : Nat} {last : Search State} {e : Ending}
    (hrun : s.run h d limit look = .ok (last, some e)) : n < limit := by
  by_contra hle
  obtain ⟨more, rfl⟩ : ∃ more, n = limit + more := ⟨n - limit, by omega⟩
  have hstop := hr.run_eq hd 0 look
  rw [Nat.add_zero, run_add, hrun] at hstop
  cases hstop

end

end Search

/-! ## Checks -/

namespace Tester

def start (t : Tester State Op) : Except Fault (Search State) := do
  let list ← WorkingList.ofHistory t.history
  Search.start t.history list t.config t.stats

theorem search_eq (t : Tester State Op) (clock : Clock) :
    t.search clock = t.start >>= fun s => s.runToEnd t.history ⟨clock, t.config.timeout⟩ := by
  rw [search, start, bind_assoc]

variable [Operation Op] {t : Tester State Op}

theorem exists_start (hw : t.history.WellPaired) (hcap : t.config.lruCapacity ≠ 0) :
    ∃ s, t.start = .ok s ∧ s.Fresh t.history := by
  obtain ⟨_, s, _, hs, _, hstart⟩ := Search.exists_fresh State hw hcap t.stats
  exact ⟨s, hstart, hs⟩

/-- A check without a time limit reports where its loop stops. The iteration that finds no lift to
undo counts too. -/
theorem exists_last (hw : t.history.WellPaired) (hcap : t.config.lruCapacity ≠ 0)
    (htime : t.config.timeout = none) :
    ∃ first n last, t.start = .ok first ∧ first.Fresh t.history ∧
      Memo.ofConfig t.config = .ok first.memo ∧ first.cutoff = 0 ∧ first.stats = t.stats ∧
      first.Reaches t.history n last ∧ (∀ s, ¬ last.Reaches t.history 1 s) ∧
      ∀ clock r, t.checkInto clock r =
        (.ok { t with stats := { last.stats with iterations := last.stats.iterations +
            if (t.history.rest last.path).isEmpty then 0 else 1 } },
          .ofSearch t.history last) := by
  obtain ⟨memo, first, hmemo, hfresh, hledger, hstart⟩ := Search.exists_fresh State hw hcap t.stats
  obtain ⟨n, last, ahead, hr, ha, hstop, hpath, hclosing⟩ := hfresh.exists_last hw
  refine ⟨first, n, last, hstart, hfresh, ?_, congrArg Ledger.cutoff hledger,
    congrArg Ledger.stats hledger, hr, hstop, fun clock r => ?_⟩
  · rw [hmemo]
    exact congrArg (Except.ok ·.memo) hledger.symm
  · obtain ⟨memo', hmemo', hcheck⟩ := checkInto_explore hw hcap htime clock r
    rw [hmemo] at hmemo'
    cases hmemo'
    rw [hcheck, ← hledger, CheckResult.ofExploration, hclosing, ← hpath]
    cases hrest : (t.history.rest last.path).isEmpty <;> rw [CheckResult.ofSearch, hrest] <;> rfl

/-- A check without a time limit ends within its bound, and nothing in it fails. -/
theorem checkInto_terminates (hc : t.history.Complete) (hvalid : t.config.validate = .ok ())
    (htime : t.config.timeout = none) (clock : Clock) (r : CheckResult) :
    (∃ after result, t.checkInto clock r = (.ok after, result) ∧ result.isTimeout = false ∧
      after.stats.iterations ≤ t.stats.iterations + Search.bound t.history.calls) ∧
    ∃ first, t.start = .ok first ∧ ∀ n s, first.Reaches t.history n s →
      n < Search.bound t.history.calls ∧ s.Proceeds t.history := by
  have hw := hc.wellPaired
  have hcap := Config.capacity_of_validate hvalid
  constructor
  · obtain ⟨memo, _, hcheck⟩ := checkInto_explore hw hcap htime clock r
    have hcalls := le_of_eq hw.length_left_nil
    have hcost := History.explore_cost hcalls Specification.init ⟨memo, 0, t.stats⟩
    exact ⟨_, _, hcheck, rfl, (Exploration.iterations_closing_le _).trans hcost⟩
  · obtain ⟨first, hstart, hfresh⟩ := exists_start hw hcap
    refine ⟨first, hstart, fun n s hr => ⟨?_, ?_⟩⟩
    · obtain ⟨_, _, hrun, _⟩ := hfresh.run_explore hw (d := ⟨clock, none⟩) rfl le_rfl 0
      exact hr.lt_limit rfl hrun
    · obtain ⟨ahead, ha⟩ := hr.exists_at hw hfresh.position
      exact ha.proceeds hw

theorem checkInto_terminates_overlappingLookup :
    let t : Tester ByteSet ByteSet.Op := ⟨History.ofLog overlappingLookup, { memo := .disabled }, {}⟩
    t.history.Complete ∧
    (∃ after result, t.checkInto .frozen {} = (.ok after, result) ∧ result.isTimeout = false ∧
      after.stats.iterations ≤ t.stats.iterations + Search.bound t.history.calls) ∧
    ∃ first, t.start = .ok first ∧ ∀ n s, first.Reaches t.history n s →
      n < Search.bound t.history.calls ∧ s.Proceeds t.history :=
  have hc := History.complete_ofLog overlappingLookup_complete
  ⟨hc, checkInto_terminates hc rfl rfl .frozen {}⟩

/-- With any time limit the parts of the search are in step at the start of every iteration and
where the search stops. -/
theorem search_inStep (hc : t.history.Complete) (hvalid : t.config.validate = .ok ())
    (clock : Clock) :
    ∃ first, t.start = .ok first ∧
      (∀ n s, first.Reaches t.history n s → s.InStep t.history) ∧
      ∃ last e, t.search clock = .ok (last, e) ∧ last.InStep t.history := by
  have hw := hc.wellPaired
  obtain ⟨first, hstart, hfresh⟩ := exists_start hw (Config.capacity_of_validate hvalid)
  refine ⟨first, hstart, fun n s hr => ?_, ?_⟩
  · obtain ⟨ahead, ha⟩ := hr.exists_at hw hfresh.position
    exact ha.inStep hw
  · obtain ⟨last, e, ahead, hrun, ha, _⟩ := hfresh.exists_ending hw ⟨clock, t.config.timeout⟩
    refine ⟨last, e, ?_, ha.inStep hw⟩
    rw [search_eq, hstart]
    exact hrun

theorem search_inStep_overlappingLookup :
    let t : Tester ByteSet ByteSet.Op := ⟨History.ofLog overlappingLookup, {}, {}⟩
    t.history.Complete ∧ ∃ first, t.start = .ok first ∧
      (∀ n s, first.Reaches t.history n s → s.InStep t.history) ∧
      ∃ last e, t.search .frozen = .ok (last, e) ∧ last.InStep t.history :=
  have hc := History.complete_ofLog overlappingLookup_complete
  ⟨hc, search_inStep hc rfl .frozen⟩

end Tester

end Linearizability
