import Linearizability.Proofs.Search.Least
import Linearizability.Proofs.Search.Moves

/-!
# How the loop ends

The loop keeps the invariant for as long as it runs. Without a time limit it
ends within its bound, with the least linearization or after all of them have
been ruled out. A time limit may only make it expire before that.
-/

namespace Linearizability.Search

variable {Op State : Type} [Specification State Op]

/-! ## Deadlines -/

theorem run_succ (h : History Op) (d : Deadline) (limit look : Nat) (s : Search State) :
    s.run h d (limit + 1) look = s.list.isEmpty >>= fun empty =>
      if empty then .ok (s, some .complete)
      else if d.isExpired look then .ok (s, some .expired)
      else s.step h >>= fun
        | .exhausted s => .ok (s, some .exhausted)
        | .on s => s.run h d limit (look + 1) := by
  rw [run]
  cases s.list.isEmpty with
  | error f => rfl
  | ok empty =>
    cases empty with
    | true => rfl
    | false =>
      cases d.isExpired look with
      | true => rfl
      | false =>
        cases s.step h with
        | error f => rfl
        | ok move => cases move <;> rfl

theorem isExpired_eq_false {d : Deadline} (hd : d.limit = none) (look : Nat) :
    d.isExpired look = false := by
  simp [Deadline.isExpired, hd]

/-- A search that does not expire goes as it would without a time limit. -/
theorem run_eq_or_expired (h : History Op) (d d' : Deadline) (hd' : d'.limit = none)
    (limit look look' : Nat) (s : Search State) :
    s.run h d limit look = s.run h d' limit look' ∨
      ∃ s', s.run h d limit look = .ok (s', some .expired) := by
  induction limit generalizing look look' s with
  | zero => exact .inl rfl
  | succ limit ih =>
    simp only [run_succ, isExpired_eq_false hd', Bool.false_eq_true, if_false]
    cases s.list.isEmpty with
    | error f => left; rfl
    | ok empty =>
      cases empty with
      | true => left; rfl
      | false =>
        cases d.isExpired look with
        | true => exact .inr ⟨s, rfl⟩
        | false =>
          simp only [bind, Except.bind, Bool.false_eq_true, if_false]
          cases s.step h with
          | error f => left; rfl
          | ok move =>
            cases move with
            | exhausted s' => left; rfl
            | on s' => exact ih (look + 1) (look' + 1) s'

/-! ## Limits -/

theorem run_add (h : History Op) (d : Deadline) (first second look : Nat) (s : Search State) :
    s.run h d (first + second) look = s.run h d first look >>= fun
      | (s, some e) => .ok (s, some e)
      | (s, none) => s.run h d second (look + first) := by
  induction first generalizing look s with
  | zero => simp [run, bind, Except.bind]
  | succ first ih =>
    rw [Nat.add_right_comm, run_succ, run_succ]
    cases s.list.isEmpty with
    | error f => rfl
    | ok empty =>
      cases empty with
      | true => rfl
      | false =>
        cases d.isExpired look with
        | true => rfl
        | false =>
          simp only [bind, Except.bind, Bool.false_eq_true, if_false]
          cases s.step h with
          | error f => rfl
          | ok move =>
            cases move with
            | exhausted s' => rfl
            | on s' =>
              simp only [ih (look + 1) s', Nat.add_right_comm look 1 first, Nat.add_assoc]
              rfl

theorem runToEnd_eq (h : History Op) (d : Deadline) (s : Search State) :
    s.runToEnd h d = s.run h d (firstLimit + bound h.calls) 0 >>= fun
      | (s, some e) => .ok (s, e)
      | (_, none) => .error .searchUnbounded := by
  rw [run_add, runToEnd, Nat.zero_add]
  generalize firstLimit = first
  cases s.run h d first 0 with
  | error f => rfl
  | ok r =>
    obtain ⟨s', e⟩ := r
    cases e with
    | some e => rfl
    | none =>
      simp only [bind, Except.bind]
      cases s'.run h d (bound h.calls) first with
      | error f => rfl
      | ok r =>
        obtain ⟨s'', e⟩ := r
        cases e <;> rfl

theorem Reaches.run_eq {h : History Op} {s s' : Search State} {n : Nat} (hr : s.Reaches h n s')
    {d : Deadline} (hd : d.limit = none) (limit look : Nat) :
    s.run h d (n + limit) look = s'.run h d limit (look + n) := by
  induction hr generalizing look with
  | refl => simp
  | step he hs _ ih =>
    rw [Nat.add_right_comm, run_succ, he]
    simp only [bind, Except.bind, isExpired_eq_false hd, Bool.false_eq_true, if_false, hs]
    rw [ih, Nat.add_assoc, Nat.add_comm 1]

/-! ## Every run keeps the invariant -/

section

variable [Operation Op] {h : History Op} (hw : h.WellPaired) {s : Search State}

include hw

/-- A run never fails, and it ends at a place that keeps the invariant. Nothing is left there if and
only if the run is complete. -/
theorem At.run_at {ahead : List Nat} (ha : s.At h ahead) (d : Deadline) (limit look : Nat) :
    ∃ s' e ahead', s.run h d limit look = .ok (s', e) ∧ s'.At h ahead' ∧
      ∀ ending, e = some ending → (ending = .complete ↔ h.rest s'.path = []) := by
  induction limit generalizing look s ahead with
  | zero => exact ⟨s, none, ahead, rfl, ha, nofun⟩
  | succ limit ih =>
    rw [run_succ, ha.isEmpty hw]
    by_cases hne : h.rest s.path = []
    · refine ⟨s, some .complete, ahead, by rw [hne]; rfl, ha, ?_⟩
      rintro _ ⟨⟩
      exact iff_of_true rfl hne
    · obtain ⟨i, behind, rfl⟩ := ha.exists_cons hw hne
      have hempty : (h.rest s.path).isEmpty = false := by simpa using hne
      cases hx : d.isExpired look with
      | true =>
        refine ⟨s, some .expired, i :: behind, ?_, ha, ?_⟩
        · simp [bind, Except.bind, hempty]
        · rintro _ ⟨⟩
          exact iff_of_false nofun hne
      | false =>
        rcases ha.exists_advance hw with ⟨s', ahead', hstep, ha', _⟩ | ⟨hstep, _⟩
        · obtain ⟨s'', e, ahead'', hrun, hs''⟩ := ih ha' (look + 1)
          refine ⟨s'', e, ahead'', ?_, hs''⟩
          simpa [bind, Except.bind, hempty, hstep] using hrun
        · refine ⟨s.withLedger s.ledger.tick, some .exhausted, i :: behind, ?_, ha.withLedger _, ?_⟩
          · simp [bind, Except.bind, hempty, hstep]
          · rintro _ ⟨⟩
            exact iff_of_false nofun hne

end

/-! ## Runs without a time limit -/

section

variable [Operation Op] {h : History Op} (hw : h.WellPaired) {d : Deadline} (hd : d.limit = none)

include hw hd

theorem Follows.run_complete {s : Search State} {order : List Nat} {l : Ledger State}
    (hf : s.Follows h (.complete order l)) {limit : Nat}
    (hlimit : l.stats.iterations + 1 ≤ s.stats.iterations + limit) (look : Nat) :
    ∃ s', s.run h d limit look = .ok (s', some .complete) ∧ s'.At h [] ∧ s'.path = order ∧
      s'.ledger = l := by
  obtain ⟨n, s', hr, ha, hp, hl, hn⟩ := hf
  obtain ⟨more, rfl⟩ : ∃ more, limit = n + (more + 1) := ⟨limit - n - 1, by omega⟩
  have hempty : h.rest s'.path = [] := by
    by_contra hne
    obtain ⟨_, _, he⟩ := ha.exists_cons hw hne
    cases he
  refine ⟨s', ?_, ha, hp, hl⟩
  rw [hr.run_eq hd, run_succ, ha.isEmpty hw, hempty]
  rfl

theorem Follows.run_exhausted {s : Search State} {l : Ledger State}
    (hf : s.Follows h (.blocked l)) (hstack : s.stack = []) {limit : Nat}
    (hlimit : l.stats.iterations + 1 ≤ s.stats.iterations + limit) (look : Nat) :
    ∃ s' ahead, s.run h d limit look = .ok (s', some .exhausted) ∧ s'.At h ahead ∧ s'.path = [] ∧
      s'.ledger = l.tick := by
  obtain ⟨n, s', ret, ahead, hr, ha, hret, hstack', _, hl, hn⟩ := hf
  obtain ⟨more, rfl⟩ : ∃ more, limit = n + (more + 1) := ⟨limit - n - 1, by omega⟩
  have hempty := hstack'.trans hstack
  refine ⟨s'.withLedger s'.ledger.tick, ret :: ahead, ?_, ha.withLedger _, ?_, ?_⟩
  · rw [hr.run_eq hd, run_succ, ha.isEmpty_false hw]
    simp only [bind, Except.bind, Bool.false_eq_true, if_false, isExpired_eq_false hd,
      ha.step_exhausted hw hret hempty]
  · show (s'.stack.map (·.call)).reverse = []
    rw [hempty]
    rfl
  · rw [ledger_withLedger, hl]

end

end Linearizability.Search
