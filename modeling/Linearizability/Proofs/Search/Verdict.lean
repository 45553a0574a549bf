import Linearizability.Proofs.Model.ByteSet
import Linearizability.Proofs.Search.Least
import Linearizability.Proofs.Search.Outcome

/-!
# Verdicts

A check of a complete history finds the least linearization in lexicographic
order, or there is none. With a time limit it may expire instead.
-/

namespace Linearizability

variable {Op State : Type} [Specification State Op]

theorem History.exploreAll_settles [Operation Op] [LawfulSpecification State] {h : History Op}
    (hw : h.WellPaired) {l : Ledger State}
    (hl : ∀ c, ¬ l.memo.Knows c) :
    ((h.exploreAll l).ending = .complete ∧
      IsLeast {order | h.IsLinearization State order} (h.exploreAll l).order) ∨
    ((h.exploreAll l).ending = .exhausted ∧ ¬ h.Linearizable State) := by
  have hsettles : h.Settles [] Specification.init l.memo (h.exploreAll l) :=
    explore_settles hw .nil hw.length_left_nil _ fun c hc => absurd hc (hl c)
  have hlin : ∀ order, h.Completes (h.left []) (Specification.init : State) order ↔
      h.IsLinearization State order := by
    intro order
    rw [hw.left_nil]
    exact isLinearization_iff.symm
  cases he : h.exploreAll l with
  | complete order l' =>
    rw [he] at hsettles
    obtain ⟨tail, rfl, hleast⟩ := hsettles
    simp only [hlin] at hleast
    exact .inl ⟨rfl, hleast⟩
  | blocked l' =>
    rw [he] at hsettles
    refine .inr ⟨rfl, ?_⟩
    rintro ⟨order, horder⟩
    exact hsettles.1 order ((hlin order).mpr horder)

namespace Search

inductive Settled (h : History Op) (s : Search State) : Ending → Prop where
  | complete : h.rest s.path = [] → IsLeast {order | h.IsLinearization State order} s.path →
    Settled h s .complete
  | exhausted : h.rest s.path ≠ [] → ¬ h.Linearizable State → Settled h s .exhausted
  | expired : Settled h s .expired

theorem Fresh.exists_runToEnd [Operation Op] [LawfulSpecification State] {h : History Op}
    (hw : h.WellPaired) {s : Search State} (hs : s.Fresh h) (d : Deadline) :
    ∃ s' e ahead, s.runToEnd h d = .ok (s', e) ∧ s'.At h ahead ∧ Settled h s' e ∧
      (d.limit = none → e ≠ .expired) := by
  obtain ⟨s', e, ahead, hrun, ha, hcomplete, hend⟩ := hs.exists_ending hw d
  refine ⟨s', e, ahead, hrun, ha, ?_⟩
  rcases hend with ⟨rfl, hd⟩ | ⟨rfl, hpath, _⟩
  · exact ⟨.expired, fun hd' => absurd hd' hd⟩
  · rcases History.exploreAll_settles hw (l := s.ledger) hs.memo with ⟨he, hleast⟩ | ⟨he, hnone⟩
    · rw [he]
      exact ⟨.complete (hcomplete.mp he) (hpath ▸ hleast), nofun⟩
    · rw [he]
      exact ⟨.exhausted (mt hcomplete.mpr (by simp [he])) hnone, nofun⟩

end Search

/-! ## What a check reports -/

/-- A result that did not expire tells the least linearization of `h`, or that there is none. -/
structure CheckResult.Reports (State : Type) [Specification State Op] (r : CheckResult)
    (h : History Op) : Prop where
  least : r.isTimeout = false → r.linearizable = true →
    IsLeast {order | h.IsLinearization State order} r.witness ∧ r.remaining = []
  none : r.isTimeout = false → r.linearizable = false → ¬ h.Linearizable State

namespace Tester

variable [Operation Op] {t : Tester State Op} (hw : t.history.WellPaired)

include hw

variable (hcap : t.config.lruCapacity ≠ 0)

include hcap

theorem exists_checkInto [LawfulSpecification State] (clock : Clock) (r : CheckResult) :
    ∃ after r', t.checkInto clock r = (.ok after, r') ∧ r'.Reports State t.history ∧
      (t.config.timeout = none → r'.isTimeout = false) := by
  obtain ⟨_, s, _, hs, _, hstart⟩ := Search.exists_fresh State hw hcap t.stats
  obtain ⟨s', e, ahead, hrun, ha, hsettled, hexpired⟩ :=
    hs.exists_runToEnd hw ⟨clock, t.config.timeout⟩
  have hsearch : t.search clock = .ok (s', e) := by
    rw [search, ← bind_assoc, hstart]
    exact hrun
  simp only [checkInto, hsearch, conclude_eq hw ha]
  refine ⟨_, _, rfl, ⟨?_, ?_⟩, ?_⟩
  · intro ht hlin
    cases hsettled with
    | complete hrest hleast => exact ⟨hleast, hrest⟩
    | exhausted hrest _ => exact absurd (List.isEmpty_iff.mp hlin) hrest
    | expired => cases ht
  · intro ht hlin
    cases hsettled with
    | complete hrest _ => rw [hrest] at hlin; cases hlin
    | exhausted _ hnone => exact hnone
    | expired => cases ht
  · intro ht
    cases hsettled with
    | complete => rfl
    | exhausted => rfl
    | expired => exact absurd rfl (hexpired ht)

theorem exists_check [LawfulSpecification State] (htime : t.config.timeout = none) (clock : Clock) :
    ∃ verdict after, t.check clock = .ok (.ok verdict, after) ∧
      (verdict = true ↔ t.history.Linearizable State) := by
  obtain ⟨after, r, hcheck, hreports, hfree⟩ := exists_checkInto hw hcap clock {}
  have ht := hfree htime
  refine ⟨r.linearizable, after, ?_, ?_⟩
  · simp [check, hcheck, ht, CheckResult.isLinearizable]
  · constructor
    · intro hl
      exact ⟨r.witness, (hreports.least ht hl).1.1⟩
    · intro hlin
      by_contra hl
      exact hreports.none ht (Bool.eq_false_iff.mpr hl) hlin

end Tester

/-! ## Exactness -/

def overlappingLookup : Log ByteSet.Op :=
  let log := (Log.ofCapacity 4).addCall (.contains 4) 0 |>.2
  let log := log.addCall (.insert 4) 1 |>.2
  let log := log.addRet 0 (.ret true) 0 |>.2
  log.addRet 1 (.ret true) 1 |>.2

theorem overlappingLookup_complete : overlappingLookup.Complete where
  recorded :=
    ((((Log.Recorded.ofCapacity 4).addCall_snd rfl).addCall_snd rfl).addRet_snd rfl).addRet_snd rfl
  matched := by decide

namespace Tester

variable [Operation Op] [LawfulSpecification State] {t : Tester State Op}

/-- Without a time limit a complete history has a verdict, which tells whether it is linearizable. -/
theorem check_exact (hc : t.history.Complete) (hcap : 0 < t.config.lruCapacity)
    (htime : t.config.timeout = none) (clock : Clock) :
    ∃ verdict after, t.check clock = .ok (.ok verdict, after) ∧
      (verdict = true ↔ t.history.Linearizable State) := by
  exact exists_check hc.wellPaired (UInt64.ne_of_lt hcap).symm htime clock

theorem check_exact_overlappingLookup :
    (History.ofLog overlappingLookup).Complete ∧ ∃ verdict after,
      (⟨History.ofLog overlappingLookup, {}, {}⟩ : Tester ByteSet ByteSet.Op).check .frozen =
        .ok (.ok verdict, after) ∧
      (verdict = true ↔ (History.ofLog overlappingLookup).Linearizable ByteSet) :=
  have hc := History.complete_ofLog overlappingLookup_complete
  ⟨hc, check_exact hc (by decide) rfl .frozen⟩

/-- A positive verdict comes with the least linearization, which leaves no entry out. -/
theorem witness_least (hc : t.history.Complete) (hcap : 0 < t.config.lruCapacity)
    (htime : t.config.timeout = none) (clock : Clock) (r : CheckResult) :
    ∃ after result, t.checkInto clock r = (.ok after, result) ∧ result.isTimeout = false ∧
      (result.isLinearizable = .ok true →
        IsLeast {order | t.history.IsLinearization State order} result.witness ∧
        (∀ call ∈ t.history.callRefs, result.witness.count call = 1) ∧ result.remaining = []) := by
  have hw := hc.wellPaired
  have hcap : t.config.lruCapacity ≠ 0 := (UInt64.ne_of_lt hcap).symm
  obtain ⟨after, result, hcheck, hreports, hfree⟩ := exists_checkInto hw hcap clock r
  have ht := hfree htime
  refine ⟨after, result, hcheck, ht, fun hl => ?_⟩
  have hl : result.linearizable = true := by
    simpa [CheckResult.isLinearizable, ht] using hl
  obtain ⟨hleast, hremaining⟩ := hreports.least ht hl
  refine ⟨hleast, fun call hcall => ?_, hremaining⟩
  rw [hleast.1.perm.count_eq]
  exact List.count_eq_one_of_mem hw.nodup_callRefs hcall

def overlappingLookupTester : Tester ByteSet ByteSet.Op :=
  ⟨History.ofLog overlappingLookup, { memo := .disabled }, {}⟩

theorem witness_least_overlappingLookup :
    (History.ofLog overlappingLookup).Complete ∧ ∃ after result,
      overlappingLookupTester.checkInto .frozen {} = (.ok after, result) ∧
      result.isLinearizable = .ok true ∧
      IsLeast {order | (History.ofLog overlappingLookup).IsLinearization ByteSet order}
        result.witness ∧
      (∀ call ∈ (History.ofLog overlappingLookup).callRefs, result.witness.count call = 1) ∧
      result.remaining = [] := by
  have hc : overlappingLookupTester.history.Complete :=
    History.complete_ofLog overlappingLookup_complete
  obtain ⟨after, result, hcheck, _, hleast⟩ := witness_least hc (by decide) rfl .frozen {}
  have hresult : result = (overlappingLookupTester.checkInto .frozen {}).2 := by rw [hcheck]
  have hpositive : result.isLinearizable = .ok true := by rw [hresult]; rfl
  exact ⟨hc, after, result, hcheck, hpositive, hleast hpositive⟩

/-- The insertion comes first, though its call was recorded later. -/
example : (overlappingLookupTester.checkInto .frozen {}).2.witness = [1, 0] := by rfl

end Tester

end Linearizability
