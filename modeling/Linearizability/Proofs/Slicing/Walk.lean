import Linearizability.Proofs.Search.Outcome
import Linearizability.Slicing

/-!
# The walk over sub-histories

Each check of the walk starts anew, so the result from before does not
matter. The walk ends at the first sub-history that is found not to be
linearizable, or else at the last one. A check that runs out of time is
passed over.
-/

namespace Linearizability

/-! ## The first negative result -/

/-- Where `gives j r` says that number `j` of `count` gives `r`: the first number to give a negative
result is `j`, or none does and `j` is the last. -/
structure FirstNegative (gives : Nat → CheckResult → Prop) (count j : Nat) (r : CheckResult) :
    Prop where
  given : gives j r
  before : ∀ i < j, ∃ earlier, gives i earlier ∧ earlier.isLinearizable ≠ .ok false
  last : r.isLinearizable = .ok false ∨ j + 1 = count

theorem FirstNegative.cons {gives later : Nat → CheckResult → Prop} {count j : Nat}
    {first r : CheckResult} (hfirst : gives 0 first) (hgo : first.isLinearizable ≠ .ok false)
    (hlater : ∀ i r, later i r → gives (i + 1) r) (h : FirstNegative later count j r) :
    FirstNegative gives (count + 1) (j + 1) r where
  given := hlater j r h.given
  before := by
    intro i hi
    cases i with
    | zero => exact ⟨first, hfirst, hgo⟩
    | succ i =>
      obtain ⟨earlier, hgives, hpassed⟩ := h.before i (Nat.lt_of_succ_lt_succ hi)
      exact ⟨earlier, hlater i earlier hgives, hpassed⟩
  last := h.last.imp id (congrArg (· + 1))

theorem FirstNegative.imp {gives gives' : Nat → CheckResult → Prop} {count j : Nat}
    {r : CheckResult} (himp : ∀ i r, gives i r → gives' i r) (h : FirstNegative gives count j r) :
    FirstNegative gives' count j r where
  given := himp j r h.given
  before i hi := (h.before i hi).imp fun earlier => .imp_left (himp i earlier)
  last := h.last

theorem CheckResult.isLinearizable_eq_false_iff {r : CheckResult} :
    r.isLinearizable = .ok false ↔ (r.isTimeout || r.linearizable) = false := by
  cases ht : r.isTimeout <;> simp [isLinearizable, ht]

/-! ## Walks -/

namespace Slices

variable {Op State : Type} [Specification State Op]

def tester (State : Type) [Specification State Op] (config : Config) (log : Log Op) :
    Tester State Op := ⟨History.ofLog log, config, {}⟩

def Leaves (State : Type) [Specification State Op] (config : Config) (clock : Clock)
    (sub : History Op) (r : CheckResult) : Prop :=
  ∃ after, ∀ before, (⟨sub, config, {}⟩ : Tester State Op).checkInto clock before = (.ok after, r)

def LeavesFrom (State : Type) [Specification State Op] (config : Config) (clocks : Nat → Clock)
    (part : Nat) (logs : List (Log Op)) (i : Nat) (r : CheckResult) : Prop :=
  ∃ log, logs[i]? = some log ∧ Leaves State config (clocks (part + i)) (History.ofLog log) r

variable [Operation Op] {config : Config} (hcap : config.lruCapacity ≠ 0)

include hcap

variable (State) in
theorem exists_checkFrom_cons {log : Log Op} (hc : log.Complete) (clocks : Nat → Clock)
    (part : Nat) :
    ∃ r₁, Leaves State config (clocks part) (History.ofLog log) r₁ ∧
      ∀ logs last r, checkFrom State config clocks (log :: logs) part last r =
        if r₁.isTimeout || r₁.linearizable then
          checkFrom State config clocks logs (part + 1) part r₁
        else (.ok part, r₁) := by
  have hw := History.wellPaired_ofLog hc
  obtain ⟨_, _, _, _, _, _, _, _, _, _, hcheck⟩ :=
    Tester.checkInto_ending (t := tester State config log) hw hcap (clocks part) {}
  have hof : Tester.ofConfig State (History.ofLog log) config = .ok (tester State config log) := by
    simp [Tester.ofConfig, Config.validate, hcap, tester]
  -- a check does not read the result it is given
  refine ⟨_, ⟨_, fun _ => hcheck⟩, fun logs last r => ?_⟩
  have hcheck : (tester State config log).checkInto (clocks part) r = _ := hcheck
  simp only [checkFrom, History.info_eq_ofLog hc, bind, Except.bind, hof, hcheck]

variable (State) in
/-- The walk ends at the first negative check, and its answer does not depend on where it was. -/
theorem exists_firstNegative {logs : List (Log Op)} (hlogs : ∀ log ∈ logs, log.Complete)
    (hne : logs ≠ []) (clocks : Nat → Clock) (part : Nat) :
    ∃ j result, FirstNegative (LeavesFrom State config clocks part logs) logs.length j result ∧
      ∀ last r, checkFrom State config clocks logs part last r = (.ok (part + j), result) := by
  induction logs generalizing part with
  | nil => exact absurd rfl hne
  | cons log logs ih =>
    obtain ⟨first, hleaves, hstep⟩ :=
      exists_checkFrom_cons State hcap (hlogs log (by simp)) clocks part
    have hfirst : LeavesFrom State config clocks part (log :: logs) 0 first := ⟨log, rfl, hleaves⟩
    cases hgo : first.isTimeout || first.linearizable with
    | false =>
      refine ⟨0, first, ⟨hfirst, nofun, ?_⟩, fun last r => ?_⟩
      · exact .inl (CheckResult.isLinearizable_eq_false_iff.mpr hgo)
      · rw [hstep, hgo]
        rfl
    | true =>
      have hpassed : first.isLinearizable ≠ .ok false := by
        rw [Ne, CheckResult.isLinearizable_eq_false_iff, hgo]
        decide
      cases logs with
      | nil =>
        refine ⟨0, first, ⟨hfirst, nofun, .inr rfl⟩, fun last r => ?_⟩
        rw [hstep, hgo]
        rfl
      | cons next logs =>
        obtain ⟨j, result, hneg, hrest⟩ :=
          ih (fun x hx => hlogs x (by simp [hx])) (List.cons_ne_nil _ _) (part + 1)
        refine ⟨j + 1, result, hneg.cons hfirst hpassed ?_, fun last r => ?_⟩
        · rintro i r ⟨x, hx, hleaves⟩
          rw [Nat.add_right_comm] at hleaves
          exact ⟨x, hx, hleaves⟩
        · rw [hstep, hgo, if_pos rfl, hrest, Nat.add_right_comm]
          rfl

end Slices

end Linearizability
