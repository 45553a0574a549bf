import Linearizability.Proofs.Search.Loop

/-!
# Searches do not read their statistics

A search counts on from the statistics it is given and never looks at them.
So counting on from more changes nothing else, iteration by iteration, and
every check of one tester adds the same increments.
-/

namespace Linearizability

/-! ## Increments -/

namespace Stats

/-- The statistics `a` and then the increments `d`. The depths of a search count on from none. -/
def add (a d : Stats) : Stats where
  iterations := a.iterations + d.iterations
  lifts := a.lifts + d.lifts
  backtracks := a.backtracks + d.backtracks
  rejections := a.rejections + d.rejections
  maxDepth := max a.maxDepth d.maxDepth

def times (d : Stats) (checks : Nat) : Stats where
  iterations := checks * d.iterations
  lifts := checks * d.lifts
  backtracks := checks * d.backtracks
  rejections := checks * d.rejections
  maxDepth := if checks = 0 then 0 else d.maxDepth

theorem add_empty (a : Stats) : a.add {} = a := by
  simp [add]

theorem times_zero (d : Stats) : d.times 0 = {} := by
  simp [times]

theorem add_times_succ (a d : Stats) (checks : Nat) :
    a.add (d.times (checks + 1)) = (a.add d).add (d.times checks) := by
  have hsucc : ∀ x y : Nat, x + (checks + 1) * y = x + y + checks * y := by
    intro x y
    rw [Nat.succ_mul, Nat.add_assoc, Nat.add_comm y]
  have hdepth : max a.maxDepth d.maxDepth =
      max (max a.maxDepth d.maxDepth) (if checks = 0 then 0 else d.maxDepth) := by
    split <;> simp
  simp only [add, times, hsucc, Nat.add_eq_zero_iff, Nat.one_ne_zero, and_false, if_false, ← hdepth]

end Stats

variable {Op State : Type} [Specification State Op]

/-! ## Searches -/

namespace Search

def charge (a : Stats) (s : Search State) : Search State := { s with stats := a.add s.stats }

end Search

namespace Move

def charge (a : Stats) : Move State → Move State
  | .on s => .on (s.charge a)
  | .exhausted s => .exhausted (s.charge a)

end Move

namespace Search

variable (h : History Op) (a : Stats) (s : Search State)

theorem skip_charge (n : Node) : (s.charge a).skip n = charge a <$> s.skip n := by
  show (s.list.node n.next >>= fun _ => _) = charge a <$> (s.list.node n.next >>= fun _ => _)
  cases s.list.node n.next <;> rfl

theorem lift_charge (n : Node) (next : State) :
    (s.charge a).lift n next = charge a <$> s.lift n next := by
  obtain ⟨list, stack, depth, linearized, memo, state, cursor, cutoff, stats⟩ := s
  simp only [lift, charge, map_bind]
  refine bind_congr fun marked => bind_congr fun lifted => bind_congr fun first => ?_
  show Except.ok _ = Except.ok _
  simp only [Stats.add, charge, Nat.add_assoc, Nat.max_assoc]

theorem tryCall_charge (n : Node) : (s.charge a).tryCall h n = charge a <$> s.tryCall h n := by
  have hskip := fun memo stats => skip_charge a { s with memo, stats } n
  have hlift := fun memo => lift_charge a { s with memo } n
  obtain ⟨list, stack, depth, linearized, memo, state, cursor, cutoff, stats⟩ := s
  rcases Bool.eq_false_or_eq_true (linearized.contains n.entryId) with hin | hin
  · simp only [tryCall, charge, hin, if_true]
    rfl
  · simp only [tryCall, charge, hin, Bool.false_eq_true, if_false, map_bind]
    refine bind_congr fun call => bind_congr fun m => bind_congr fun ret => ?_
    rcases Bool.eq_false_or_eq_true (Specification.apply state call.op ret.op).accepted with ha | ha
    · simp only [ha, if_true, map_bind]
      refine bind_congr fun answer => ?_
      obtain ⟨novel, memo⟩ := answer
      cases novel with
      | true => exact hlift memo _
      | false => exact hskip memo { stats with rejections := stats.rejections + 1 }
    · simp only [ha, Bool.false_eq_true, if_false]
      exact hskip memo stats

theorem backtrack_charge : (s.charge a).backtrack = Move.charge a <$> s.backtrack := by
  obtain ⟨list, stack, depth, linearized, memo, state, cursor, cutoff, stats⟩ := s
  cases stack with
  | nil => rfl
  | cons frame frames =>
    simp only [backtrack, charge, map_bind]
    refine bind_congr fun n => bind_congr fun marked => bind_congr fun list => bind_congr fun n => ?_
    rfl

theorem step_charge : (s.charge a).step h = Move.charge a <$> s.step h := by
  unfold step
  simp only [map_bind]
  refine bind_congr fun n => ?_
  have htick : ∀ s : Search State, { s.charge a with
      stats.iterations := (s.charge a).stats.iterations + 1 } =
    ({ s with stats.iterations := s.stats.iterations + 1 } : Search State).charge a := fun _ => rfl
  split
  · rw [htick, tryCall_charge]
    simp only [map_eq_pure_bind, bind_assoc]
    rfl
  · rw [htick, backtrack_charge]

theorem run_charge (d : Deadline) (limit look : Nat) :
    (s.charge a).run h d limit look = Prod.map (charge a) id <$> s.run h d limit look := by
  induction limit generalizing look s with
  | zero => rfl
  | succ limit ih =>
    simp only [run_succ, step_charge, map_bind]
    refine bind_congr fun empty => ?_
    cases empty with
    | true => rfl
    | false =>
      cases d.isExpired look with
      | true => rfl
      | false =>
        simp only [Bool.false_eq_true, if_false, map_bind]
        cases s.step h with
        | error f => rfl
        | ok move =>
          cases move with
          | exhausted s' => rfl
          | on s' => exact ih s' (look + 1)

theorem runToEnd_charge (d : Deadline) :
    (s.charge a).runToEnd h d = Prod.map (charge a) id <$> s.runToEnd h d := by
  rw [runToEnd_eq, runToEnd_eq, run_charge]
  cases s.run h d (firstLimit + bound h.calls) 0 with
  | error f => rfl
  | ok r =>
    obtain ⟨s', e⟩ := r
    cases e <;> rfl

variable {h a s} {s' : Search State} {n : Nat}

theorem Reaches.charge (hr : s.Reaches h n s') : (s.charge a).Reaches h n (s'.charge a) := by
  induction hr with
  | refl => exact .refl _
  | @step s s₁ _ _ he hs _ ih =>
    refine .step he ?_ ih
    rw [step_charge, hs]
    rfl

theorem reaches_charge_iff :
    (s.charge a).Reaches h n s' ↔ ∃ s₁, s.Reaches h n s₁ ∧ s₁.charge a = s' := by
  refine ⟨fun hr => ?_, fun ⟨_, hr, heq⟩ => heq ▸ hr.charge⟩
  induction n generalizing s with
  | zero => exact ⟨s, .refl s, reaches_zero_iff.mp hr⟩
  | succ n ih =>
    obtain ⟨s₁, he, hs, hr⟩ := reaches_succ_iff.mp hr
    rw [step_charge] at hs
    cases hstep : s.step h with
    | error f =>
      rw [hstep] at hs
      cases hs
    | ok move =>
      rw [hstep] at hs
      cases move with
      | exhausted s₂ => cases hs
      | on s₂ =>
        cases hs
        obtain ⟨s₃, hr, heq⟩ := ih hr
        exact ⟨s₃, .step he hstep hr, heq⟩

end Search

/-! ## Testers -/

namespace Tester

def charge (a : Stats) (t : Tester State Op) : Tester State Op := { t with stats := a.add t.stats }

variable (a : Stats) (t : Tester State Op) (clock : Clock) (r : CheckResult)

theorem start_charge : (t.charge a).start = Search.charge a <$> t.start := by
  simp only [start, map_bind]
  refine bind_congr fun list => ?_
  simp only [Search.start, map_bind]
  refine bind_congr fun memo => bind_congr fun first => ?_
  rfl

theorem search_charge :
    (t.charge a).search clock = Prod.map (Search.charge a) id <$> t.search clock := by
  rw [search_eq, search_eq, start_charge, map_bind]
  cases t.start with
  | error f => rfl
  | ok s => exact Search.runToEnd_charge t.history a s _

/-- What a check has counted before changes nothing but the statistics after it. -/
theorem checkInto_charge :
    (t.charge a).checkInto clock r = Prod.map (charge a <$> ·) id (t.checkInto clock r) := by
  simp only [checkInto, search_charge]
  cases t.search clock with
  | error f => rfl
  | ok last =>
    obtain ⟨s, e⟩ := last
    have hconclude : (t.charge a).conclude r.reset (s.charge a) e = t.conclude r.reset s e := rfl
    simp only [Functor.map, Except.map, Prod.map, id, hconclude]
    cases t.conclude r.reset s e <;> rfl

end Tester

end Linearizability
