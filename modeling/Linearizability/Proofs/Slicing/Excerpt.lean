import Linearizability.Proofs.Search.Cutoff
import Linearizability.Proofs.Slicing.Parts

/-!
# The history up to the cutoff

The entries of some operations of a complete history, with both halves of
each, can be recorded again on their own. The operations with ids up to the
cutoff of a negative check make such a sub-history, and it is not
linearizable either: none of its calls waits for a later one, so an order of
them would leave the search another call up to the cutoff.
-/

namespace Linearizability

variable {Op State : Type} [Operation Op]

namespace History

variable {h : History Op} (hw : h.WellPaired)

include hw

theorem exists_subLog {part : Nat → Nat} (hpart : h.KeepsPairs part) (p : Nat) {k : Nat}
    (hk : k ≤ h.entries.size) : ∃ log, h.SubLog part p k log := by
  induction k with
  | zero =>
    exact ⟨.ofCapacity (countPart part p h.entries.size), .ofCapacity _, rfl, rfl,
      fun _ hi => absurd hi (Nat.not_lt_zero _)⟩
  | succ k ih =>
    obtain ⟨log, hs⟩ := ih (Nat.le_of_succ_le hk)
    by_cases hp : part k = p
    · have he : h.entries[k]? = some h.entries[k] := Array.getElem?_eq_getElem hk
      cases hc : h.entries[k].isCall with
      | true =>
        obtain ⟨after, _, hafter⟩ := hs.exists_addCall hw he hc hp h.entries[k].thread
        exact ⟨after, hafter⟩
      | false =>
        obtain ⟨after, _, hafter⟩ := hs.exists_addRet hw he hpart hc hp h.entries[k].thread
        exact ⟨after, hafter⟩
    · exact ⟨log, hs.skip hpart hp⟩

/-! ## Ids up to a bound -/

omit [Operation Op] hw in
/-- Part 0 holds the entries with ids up to `c`, and part 1 all others. -/
def upTo (h : History Op) (c i : Nat) : Nat := if h.idAt i ≤ c then 0 else 1

omit [Operation Op] hw in
theorem upTo_eq_zero_iff {c i : Nat} : h.upTo c i = 0 ↔ h.idAt i ≤ c := by
  simp [upTo]

theorem keepsPairs_upTo (c : Nat) : h.KeepsPairs (h.upTo c) := by
  intro i hi
  rw [upTo, upTo, idAt_mate hw hi]

theorem Confined.not_completes [Specification State Op] {c : Nat} (hconf : h.Confined State c)
    (order : List Nat) :
    ¬ h.Completes (h.partCalls (h.upTo c) 0) (Specification.init : State) order := by
  intro hcompletes
  have hmem : ∀ call, call ∈ order ↔ h.isCallAt call = true ∧ h.idAt call ≤ c := by
    intro call
    rw [hcompletes.perm.mem_iff, mem_partCalls hw, upTo_eq_zero_iff]
  have hpath : h.IsPath order := by
    refine isPath_of_pairwise hw (fun call hcall => ((hmem call).mp hcall).1)
      (hcompletes.perm.nodup_iff.mpr (nodup_partCalls hw _ _)) hcompletes.realTime ?_
    -- a call outside has a larger id, so it does not come before one within
    intro d hd hout call hcall hprec
    obtain ⟨hcallAt, hle⟩ := (hmem call).mp hcall
    rw [hw.precedes_iff (WellPaired.lt_size_of_isCallAt hd)] at hprec
    have hlt := hw.idAt_lt_of_lt hd hcallAt (Nat.lt_trans (hw.lt_mate hd) hprec)
    exact hout ((hmem d).mpr ⟨hd, by omega⟩)
  obtain ⟨call, hcall, hnew, hle⟩ := hconf.exists_next hw hpath hcompletes.accepted
  exact hnew ((hmem call).mpr ⟨hcall, hle⟩)

end History

namespace Tester

variable [Specification State Op] [LawfulSpecification State] {t : Tester State Op}

/-- After a negative check the operations with ids up to the cutoff, recorded on their own, are not
linearizable. -/
theorem cutoff_genuine (hc : t.history.Complete) (hcap : 0 < t.config.lruCapacity)
    (htime : t.config.timeout = none) (clock : Clock) (r : CheckResult) :
    ∃ after result, t.checkInto clock r = (.ok after, result) ∧ result.isTimeout = false ∧
      (result.isLinearizable = .ok false →
        ∃ log, t.history.SubLog (t.history.upTo result.cutoff) 0 t.history.entries.size log ∧
          (History.ofLog log).Complete ∧ ¬ (History.ofLog log).Linearizable State) := by
  have hw := hc.wellPaired
  obtain ⟨after, result, hcheck, ht, hconf⟩ :=
    exists_checkInto_confined hw (UInt64.ne_of_lt hcap).symm htime clock r
  refine ⟨after, result, hcheck, ht, fun hneg => ?_⟩
  obtain ⟨_, _, _, hconf⟩ := hconf hneg
  have hpart := History.keepsPairs_upTo hw result.cutoff
  obtain ⟨log, hs⟩ := History.exists_subLog hw hpart 0 (Nat.le_refl _)
  refine ⟨log, hs, History.complete_ofLog (hs.complete hw), fun hlin => ?_⟩
  obtain ⟨order, horder⟩ := (hs.linearizable_iff hw hpart).mp hlin
  exact hconf.not_completes hw order horder

def inventedFirst : Log ByteSet.Op :=
  let log := (Log.ofCapacity 4).addCall (.contains 1) 0 |>.2
  let log := log.addRet 0 (.ret true) 0 |>.2
  let log := log.addCall (.insert 2) 0 |>.2
  log.addRet 2 (.ret true) 0 |>.2

theorem inventedFirst_complete : inventedFirst.Complete where
  recorded :=
    ((((Log.Recorded.ofCapacity 4).addCall_snd rfl).addRet_snd rfl).addCall_snd rfl).addRet_snd rfl
  matched := by decide

def inventedFirstTester : Tester ByteSet ByteSet.Op :=
  ⟨History.ofLog inventedFirst, { memo := .disabled }, {}⟩

theorem cutoff_genuine_inventedFirst :
    ∃ after result log, inventedFirstTester.checkInto .frozen {} = (.ok after, result) ∧
      result.isLinearizable = .ok false ∧ result.cutoff = 0 ∧
      (History.ofLog inventedFirst).SubLog ((History.ofLog inventedFirst).upTo 0) 0 4 log ∧
      (History.ofLog log).Complete ∧ ¬ (History.ofLog log).Linearizable ByteSet := by
  have hc : inventedFirstTester.history.Complete := History.complete_ofLog inventedFirst_complete
  obtain ⟨after, result, hcheck, _, hgenuine⟩ := cutoff_genuine hc (by decide) rfl .frozen {}
  have hresult : result = (inventedFirstTester.checkInto .frozen {}).2 := by rw [hcheck]
  have hneg : result.isLinearizable = .ok false := by rw [hresult]; rfl
  have hcutoff : result.cutoff = 0 := by rw [hresult]; rfl
  obtain ⟨log, hsub⟩ := hgenuine hneg
  rw [hcutoff] at hsub
  exact ⟨after, result, log, hcheck, hneg, hcutoff, hsub⟩

end Tester

end Linearizability
