import Linearizability.Proofs.Search.Simulation

/-!
# What an iteration can do

An iteration that goes on refuses the call at the cursor, finds that its
configuration is known, lifts it, or undoes the last lift. What each of these
does to the stack and to the ledger is said here once. The loop takes one
way, so what every iteration keeps holds wherever it comes to.
-/

namespace Linearizability.Search

variable {Op State : Type} [Specification State Op]

/-! ## One iteration -/

/-- The search stands at `i`, with `ahead` behind it, and goes on as `s'`. -/
inductive Advance (h : History Op) (s : Search State) (i : Nat) (ahead : List Nat)
    (s' : Search State) : Prop where
  | refused : h.isCallAt i = true → h.next? s.state i = none → s'.stack = s.stack →
    s'.ledger = s.ledger.tick.pass (h.idAt (ahead.headD i)) → Advance h s i ahead s'
  | known {next : State} {l : Ledger State} : h.isCallAt i = true → h.next? s.state i = some next →
    s.ledger.tick.note (h.configuration (s.path ++ [i]) next) = (false, l) → s'.stack = s.stack →
    s'.ledger = l.reject.pass (h.idAt (ahead.headD i)) → Advance h s i ahead s'
  | novel {next : State} {l : Ledger State} : h.isCallAt i = true → h.next? s.state i = some next →
    s.ledger.tick.note (h.configuration (s.path ++ [i]) next) = (true, l) →
    s'.stack = ⟨i, s.state⟩ :: s.stack → s'.state = next →
    s'.ledger = l.lift (s.path.length + 1) → Advance h s i ahead s'
  | undone {frame : Frame State} : h.isCallAt i = false → s.stack = frame :: s'.stack →
    s'.ledger = s.ledger.undo → Advance h s i ahead s'

theorem note_eq {l l' : Ledger State} {c : Configuration State} {novel : Bool}
    (hm : l.note c = (novel, l')) :
    l'.stats = l.stats ∧ l'.cutoff = l.cutoff ∧ l.memo.note c = (novel, l'.memo) := by
  cases hm
  exact ⟨rfl, rfl, rfl⟩

theorem Advance.cutoff_eq {h : History Op} {s s' : Search State} {i : Nat} {ahead : List Nat}
    (hadvance : s.Advance h i ahead s') :
    s'.cutoff = s.cutoff ∨ s'.cutoff = max s.cutoff (h.idAt (ahead.headD i)) := by
  cases hadvance with
  | refused _ _ _ hl => exact .inr (congrArg Ledger.cutoff hl)
  | @known _ l _ _ hm _ hl =>
    have hcutoff : s'.cutoff = max l.cutoff _ := congrArg Ledger.cutoff hl
    rw [(note_eq hm).2.1] at hcutoff
    exact .inr hcutoff
  | @novel _ l _ _ hm _ _ hl =>
    have hcutoff : s'.cutoff = l.cutoff := congrArg Ledger.cutoff hl
    rw [(note_eq hm).2.1] at hcutoff
    exact .inl hcutoff
  | undone _ _ hl => exact .inl (congrArg Ledger.cutoff hl)

section

variable [Operation Op] {h : History Op} (hw : h.WellPaired) {s : Search State} {i : Nat}
  {ahead : List Nat}

include hw

theorem At.exists_cons {ahead : List Nat} (ha : s.At h ahead) (hne : h.rest s.path ≠ []) :
    ∃ i behind, ahead = i :: behind := by
  apply List.exists_cons_of_ne_nil
  rintro rfl
  obtain ⟨passed, hrest, hpassed⟩ := ha.behind
  obtain ⟨i, hi, hret⟩ := hw.exists_ret_mem_rest (mt hw.rest_eq_nil_iff.mpr hne)
  rw [hrest, List.append_nil] at hi
  rw [hpassed i hi] at hret
  cases hret

theorem At.exists_of_isEmpty {ahead : List Nat} (ha : s.At h ahead)
    (he : s.list.isEmpty = .ok false) : ∃ i behind, ahead = i :: behind := by
  refine ha.exists_cons hw fun hrest => ?_
  rw [ha.isEmpty hw, hrest] at he
  cases he

theorem At.exists_advance (ha : s.At h (i :: ahead)) :
    (∃ s' ahead', s.step h = .ok (.on s') ∧ s'.At h ahead' ∧ s.Advance h i ahead s') ∨
      s.step h = .ok (.exhausted (s.withLedger s.ledger.tick)) ∧ s.stack = [] ∧
        h.isCallAt i = false := by
  cases hi : h.isCallAt i with
  | true =>
    refine .inl ?_
    cases hn : h.next? s.state i with
    | none =>
      obtain ⟨s', hstep, ha', hstack, _, hl⟩ := ha.step_refused hw hi hn
      exact ⟨s', ahead, hstep, ha', .refused hi hn hstack hl⟩
    | some next =>
      cases hm : s.ledger.tick.note (h.configuration (s.path ++ [i]) next) with
      | mk novel l =>
        cases novel with
        | false =>
          obtain ⟨s', hstep, ha', hstack, _, hl⟩ := ha.step_known hw hi hn hm
          exact ⟨s', ahead, hstep, ha', .known hi hn hm hstack hl⟩
        | true =>
          obtain ⟨s', hstep, ha', hstack, hstate, hl⟩ := ha.step_novel hw hi hn hm
          exact ⟨s', _, hstep, ha', .novel hi hn hm hstack hstate hl⟩
  | false =>
    cases hstack : s.stack with
    | nil => exact .inr ⟨ha.step_exhausted hw hi hstack, rfl, rfl⟩
    | cons frame frames =>
      have hpath : s.path = (frames.map (·.call)).reverse ++ [frame.call] := by
        simp [Search.path, hstack]
      obtain ⟨_, hf⟩ := History.IsPath.of_snoc (hpath ▸ ha.path)
      obtain ⟨passed, behind, hrest, hpassed⟩ := History.exists_rest_of_mem_front hf
      obtain ⟨s', hstep, ha', hstack', _, hl⟩ := ha.step_backtrack hw hi hstack hrest hpassed
      exact .inl ⟨s', behind, hstep, ha', .undone hi (hstack'.symm ▸ hstack) hl⟩

end

/-! ## Iterations in a row -/

section

variable {h : History Op} {s s₁ s₂ : Search State} {n m : Nat}

theorem reaches_zero_iff : s.Reaches h 0 s₁ ↔ s = s₁ :=
  ⟨fun hr => by cases hr; rfl, fun he => he ▸ .refl s⟩

theorem reaches_succ_iff : s.Reaches h (n + 1) s₂ ↔
    ∃ s₁, s.list.isEmpty = .ok false ∧ s.step h = .ok (.on s₁) ∧ s₁.Reaches h n s₂ :=
  ⟨fun hr => by cases hr with | step he hs hr => exact ⟨_, he, hs, hr⟩,
   fun ⟨_, he, hs, hr⟩ => .step he hs hr⟩

theorem reaches_one_iff : s.Reaches h 1 s₁ ↔
    s.list.isEmpty = .ok false ∧ s.step h = .ok (.on s₁) := by
  simp only [reaches_succ_iff, reaches_zero_iff]
  exact ⟨fun ⟨_, he, hs, heq⟩ => ⟨he, heq ▸ hs⟩, fun ⟨he, hs⟩ => ⟨s₁, he, hs, rfl⟩⟩

theorem reaches_add_iff : s.Reaches h (n + m) s₂ ↔
    ∃ s₁, s.Reaches h n s₁ ∧ s₁.Reaches h m s₂ := by
  refine ⟨fun hr => ?_, fun ⟨_, hr, hr'⟩ => hr.trans hr'⟩
  induction n generalizing s with
  | zero => exact ⟨s, .refl s, by rwa [Nat.zero_add] at hr⟩
  | succ n ih =>
    rw [Nat.add_right_comm] at hr
    obtain ⟨s', he, hs, hr⟩ := reaches_succ_iff.mp hr
    obtain ⟨s₁, hr₁, hr₂⟩ := ih hr
    exact ⟨s₁, .step he hs hr₁, hr₂⟩

theorem Reaches.unique (h₁ : s.Reaches h n s₁) (h₂ : s.Reaches h n s₂) : s₁ = s₂ := by
  induction h₁ with
  | refl => exact reaches_zero_iff.mp h₂
  | step _ hs _ ih =>
    obtain ⟨s', _, hs', h₂⟩ := reaches_succ_iff.mp h₂
    rw [hs] at hs'
    cases hs'
    exact ih h₂

theorem Reaches.le_of_stop (h₁ : s.Reaches h n s₁) (hstop : ∀ s', ¬ s₁.Reaches h 1 s')
    (h₂ : s.Reaches h m s₂) : m ≤ n := by
  by_contra hlt
  obtain ⟨more, rfl⟩ : ∃ more, m = n + (1 + more) := ⟨m - n - 1, by omega⟩
  obtain ⟨s₃, h₃, h₄⟩ := reaches_add_iff.mp h₂
  obtain ⟨s₄, h₄, _⟩ := reaches_add_iff.mp h₄
  exact hstop s₄ (h₁.unique h₃ ▸ h₄)

end

section

variable [Operation Op] {h : History Op} (hw : h.WellPaired) {first s : Search State} {n : Nat}

include hw

theorem Reaches.exists_at {ahead : List Nat} (hr : first.Reaches h n s) (ha : first.At h ahead) :
    ∃ ahead', s.At h ahead' := by
  induction hr generalizing ahead with
  | refl => exact ⟨ahead, ha⟩
  | step he hs _ ih =>
    obtain ⟨i, behind, rfl⟩ := ha.exists_of_isEmpty hw he
    rcases ha.exists_advance hw with ⟨s₁, ahead₁, hstep, ha₁, _⟩ | ⟨hstep, _⟩
    · rw [hs] at hstep
      cases hstep
      exact ih ha₁
    · rw [hs] at hstep
      cases hstep

theorem Reaches.exists_advance {s' : Search State} {ahead : List Nat}
    (hr : first.Reaches h (n + 1) s') (ha : first.At h ahead) :
    ∃ s i ahead, first.Reaches h n s ∧ s.At h (i :: ahead) ∧ s.Advance h i ahead s' := by
  obtain ⟨s, hr, hlast⟩ := reaches_add_iff.mp hr
  obtain ⟨he, hs⟩ := reaches_one_iff.mp hlast
  obtain ⟨_, ha⟩ := hr.exists_at hw ha
  obtain ⟨i, behind, rfl⟩ := ha.exists_of_isEmpty hw he
  rcases ha.exists_advance hw with ⟨s₁, _, hstep, _, hadvance⟩ | ⟨hstep, _⟩
  · rw [hs] at hstep
    cases hstep
    exact ⟨s, i, behind, hr, ha, hadvance⟩
  · rw [hs] at hstep
    cases hstep

/-- What holds in the beginning and is kept by every iteration holds wherever the loop comes to. -/
theorem Reaches.induction_at {P : Nat → Search State → Prop} {ahead : List Nat}
    (hr : first.Reaches h n s) (ha : first.At h ahead) (hfirst : P 0 first)
    (hkeep : ∀ {n : Nat} {s : Search State} {i : Nat} {ahead : List Nat} {s' : Search State},
      first.Reaches h n s → first.Reaches h (n + 1) s' → s.At h (i :: ahead) →
      s.Advance h i ahead s' → P n s → P (n + 1) s') : P n s := by
  induction n generalizing s with
  | zero =>
    obtain rfl := reaches_zero_iff.mp hr
    exact hfirst
  | succ n ih =>
    obtain ⟨s₁, i, behind, hr₁, ha₁, hadvance⟩ := hr.exists_advance hw ha
    exact hkeep hr₁ hr ha₁ hadvance (ih hr₁)

/-- The loop stops over entries that are left when no lift is left to undo. -/
theorem At.stack_eq_nil {ahead : List Nat} (ha : s.At h ahead) (hstop : ∀ s', ¬ s.Reaches h 1 s')
    (hne : h.rest s.path ≠ []) : s.stack = [] := by
  obtain ⟨i, behind, rfl⟩ := ha.exists_cons hw hne
  rcases ha.exists_advance hw with ⟨s', _, hstep, _⟩ | ⟨_, hstack, _⟩
  · exact absurd (reaches_one_iff.mpr ⟨ha.isEmpty_false hw, hstep⟩) (hstop s')
  · exact hstack

end

end Linearizability.Search
