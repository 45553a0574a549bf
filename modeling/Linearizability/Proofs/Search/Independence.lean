import Linearizability.Proofs.Model.ByteSet
import Linearizability.Proofs.Search.Agreement
import Linearizability.Proofs.Search.Outcome

/-!
# Results do not depend on the memo

Under every policy and with every window a check without a time limit
reports what the search without a memo comes to: its order and its cutoff.
-/

namespace Linearizability

variable {Op State : Type} [Specification State Op]

def CheckResult.ofProbe (h : History Op) (p : Probe) : CheckResult where
  linearizable := (h.rest (p.tail.getD [])).isEmpty
  witness := p.tail.getD []
  cutoff := p.cutoff
  remaining := h.rest (p.tail.getD [])
  memory := MemoryUsage.max {} .sample

theorem History.Agrees.ofExploration_eq {h : History Op} {memo : Memo State} {p : Probe}
    {e : Exploration State} (ha : h.Agrees [] memo p e) :
    CheckResult.ofExploration h e = .ofProbe h p := by
  cases e with
  | complete order l =>
    obtain ⟨tail, rfl, rfl⟩ := ha
    rfl
  | blocked l =>
    obtain ⟨rfl, _⟩ := ha
    rfl

def History.probeAll (State : Type) [Specification State Op] (h : History Op) : Probe :=
  h.probe h.calls [] (Specification.init : State) 0

variable [Operation Op] [LawfulSpecification State]

namespace Tester

theorem checkInto_probe {t : Tester State Op} (hw : t.history.WellPaired)
    (hcap : t.config.lruCapacity ≠ 0) (htime : t.config.timeout = none) (clock : Clock)
    (r : CheckResult) :
    ∃ after, t.checkInto clock r = (.ok after, .ofProbe t.history (t.history.probeAll State)) := by
  obtain ⟨memo, hmemo, hcheck⟩ := checkInto_explore hw hcap htime clock r
  have hagrees : t.history.Agrees [] memo (t.history.probeAll State)
      (t.history.exploreAll ⟨memo, 0, t.stats⟩) :=
    History.explore_agrees hw .nil hw.length_left_nil _
      fun c hc => absurd hc (Memo.not_knows_ofConfig hmemo c)
  rw [hagrees.ofExploration_eq] at hcheck
  exact ⟨_, hcheck⟩

/-- Two checks of one history without a time limit leave the same result, whatever they remember
and whatever their results held before. -/
theorem checkInto_memo_free {h : History Op} (hc : h.Complete) {first second : Config}
    (hvalid : first.validate = .ok ()) (hvalid' : second.validate = .ok ())
    (htime : first.timeout = none) (htime' : second.timeout = none) (stats stats' : Stats)
    (clock clock' : Clock) (r r' : CheckResult) :
    ∃ after after' result,
      (⟨h, first, stats⟩ : Tester State Op).checkInto clock r = (.ok after, result) ∧
      (⟨h, second, stats'⟩ : Tester State Op).checkInto clock' r' = (.ok after', result) ∧
      result.isTimeout = false := by
  have hcap := Config.capacity_of_validate hvalid
  have hcap' := Config.capacity_of_validate hvalid'
  let one : Tester State Op := ⟨h, first, stats⟩
  let other : Tester State Op := ⟨h, second, stats'⟩
  obtain ⟨after, hfirst⟩ := checkInto_probe (t := one) hc.wellPaired hcap htime clock r
  obtain ⟨after', hsecond⟩ := checkInto_probe (t := other) hc.wellPaired hcap' htime' clock' r'
  exact ⟨after, after', _, hfirst, hsecond, rfl⟩

/-- Two look-ups that find nothing overlap a third one that finds what was never inserted. -/
def inventedLookup : Log ByteSet.Op :=
  let log := (Log.ofCapacity 6).addCall (.contains 1) 0 |>.2
  let log := log.addCall (.contains 2) 1 |>.2
  let log := log.addCall (.contains 3) 2 |>.2
  let log := log.addRet 0 (.ret false) 0 |>.2
  let log := log.addRet 1 (.ret false) 1 |>.2
  log.addRet 2 (.ret true) 2 |>.2

theorem inventedLookup_complete : inventedLookup.Complete where
  recorded := by
    refine .addRet_of_isOk (.addRet_of_isOk (.addRet_of_isOk (.addCall_of_isOk (.addCall_of_isOk
      (.addCall_of_isOk (.ofCapacity 6) ?_) ?_) ?_) ?_) ?_) ?_
    all_goals decide +kernel
  matched := by decide +kernel

theorem checkInto_memo_free_inventedLookup :
    (History.ofLog inventedLookup).Complete ∧ ∃ after after' result,
      (⟨History.ofLog inventedLookup, {}, {}⟩ : Tester ByteSet ByteSet.Op).checkInto .frozen {} =
        (.ok after, result) ∧
      (⟨History.ofLog inventedLookup, { memo := .disabled }, {}⟩ :
        Tester ByteSet ByteSet.Op).checkInto .frozen { cutoff := 7 } = (.ok after', result) ∧
      result.isTimeout = false :=
  have hc := History.complete_ofLog inventedLookup_complete
  ⟨hc, checkInto_memo_free hc rfl rfl rfl rfl {} {} .frozen .frozen {} { cutoff := 7 }⟩

example : ((⟨History.ofLog inventedLookup, { memo := .disabled }, {}⟩ :
    Tester ByteSet ByteSet.Op).checkInto .frozen {}).2.cutoff = 2 := by rfl

end Tester

end Linearizability
