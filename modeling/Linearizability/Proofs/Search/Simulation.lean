import Linearizability.Proofs.Search.Steps

/-!
# The loop follows the recursion

From the beginning of a configuration the loop iterates until it has an order
of all calls, or until it comes to the first return that is left with the
lifts that it had at the beginning. This is where the recursion ends too, and
the ledger is the same.
-/

namespace Linearizability.Search

variable {Op State : Type} [Specification State Op]

/-- From `s` the loop comes to `s'` by `n` iterations. -/
inductive Reaches (h : History Op) : Search State → (n : Nat) → Search State → Prop where
  | refl (s : Search State) : Reaches h s 0 s
  | step {s s₁ s₂ : Search State} {n : Nat} : s.list.isEmpty = .ok false →
    s.step h = .ok (.on s₁) → Reaches h s₁ n s₂ → Reaches h s (n + 1) s₂

theorem Reaches.trans {h : History Op} {s s₁ s₂ : Search State} {n m : Nat}
    (h₁ : Reaches h s n s₁) (h₂ : Reaches h s₁ m s₂) : Reaches h s (n + m) s₂ := by
  induction h₁ with
  | refl => rwa [Nat.zero_add]
  | step he hs _ ih =>
    rw [Nat.add_right_comm]
    exact .step he hs (ih h₂)

/-- From `s` the loop comes to the place where the recursion has ended. -/
def Follows (h : History Op) (s : Search State) : Exploration State → Prop
  | .complete order l => ∃ n s', s.Reaches h n s' ∧ s'.At h [] ∧ s'.path = order ∧ s'.ledger = l ∧
      l.stats.iterations = s.stats.iterations + n
  | .blocked l => ∃ n s' ret ahead, s.Reaches h n s' ∧ s'.At h (ret :: ahead) ∧
      h.isCallAt ret = false ∧ s'.stack = s.stack ∧ s'.state = s.state ∧ s'.ledger = l ∧
      l.stats.iterations = s.stats.iterations + n

section

variable {h : History Op} {s s₁ : Search State} {n : Nat} {e : Exploration State}

theorem Follows.complete_of_reaches {order : List Nat} {l : Ledger State} (hr : s.Reaches h n s₁)
    (hn : s₁.stats.iterations = s.stats.iterations + n) (hf : s₁.Follows h (.complete order l)) :
    s.Follows h (.complete order l) := by
  obtain ⟨m, s₂, hr₂, ha, hp, hl, hm⟩ := hf
  exact ⟨n + m, s₂, hr.trans hr₂, ha, hp, hl, by omega⟩

theorem Follows.of_reaches (hr : s.Reaches h n s₁)
    (hn : s₁.stats.iterations = s.stats.iterations + n) (hstack : s₁.stack = s.stack)
    (hstate : s₁.state = s.state) (hf : s₁.Follows h e) : s.Follows h e := by
  cases e with
  | complete order l => exact hf.complete_of_reaches hr hn
  | blocked l =>
    obtain ⟨m, s₂, ret, ahead, hr₂, ha, hret, hstack₂, hstate₂, hl, hm⟩ := hf
    exact ⟨n + m, s₂, ret, ahead, hr.trans hr₂, ha, hret, hstack₂.trans hstack,
      hstate₂.trans hstate, hl, by omega⟩

end

variable [Operation Op] {h : History Op} (hw : h.WellPaired)

include hw

theorem At.isEmpty_false {s : Search State} {i : Nat} {ahead : List Nat} (ha : s.At h (i :: ahead)) :
    s.list.isEmpty = .ok false := by
  obtain ⟨passed, hrest, _⟩ := ha.behind
  rw [ha.isEmpty hw, hrest]
  simp

theorem Follows.exists_backtrack {s s₁ : Search State} {i : Nat} {ahead : List Nat}
    {l : Ledger State} (hf : s₁.Follows h (.blocked l)) (ha : s.At h (i :: ahead))
    (hstack : s₁.stack = ⟨i, s.state⟩ :: s.stack) :
    ∃ n s₂, s₁.Reaches h n s₂ ∧ s₂.At h ahead ∧ s₂.stack = s.stack ∧ s₂.state = s.state ∧
      s₂.ledger = l.undo ∧ s₂.stats.iterations = s₁.stats.iterations + n := by
  obtain ⟨m, s', ret, ahead', hr, ha', hret, hstack', _, hl, hm⟩ := hf
  obtain ⟨passed, hrest, hpassed⟩ := ha.behind
  obtain ⟨s₂, hstep, ha₂, hstack₂, hstate₂, hl₂⟩ :=
    ha'.step_backtrack hw hret (hstack'.trans hstack) hrest hpassed
  rw [hl] at hl₂
  refine ⟨m + 1, s₂, hr.trans (.step (ha'.isEmpty_false hw) hstep (.refl s₂)), ha₂, hstack₂,
    hstate₂, hl₂, ?_⟩
  have hn : s₂.stats.iterations = l.stats.iterations + 1 := congrArg (·.stats.iterations) hl₂
  omega

theorem scan_follows {below : List Nat → State → Ledger State → Exploration State}
    {path : List Nat} (hne : h.left path ≠ [])
    (hbelow : ∀ i ∈ h.front path, ∀ s : Search State, s.At h (h.rest (path ++ [i])) →
      s.path = path ++ [i] → s.Follows h (below (path ++ [i]) s.state s.ledger))
    {ahead : List Nat} {s : Search State} (ha : s.At h ahead) (hp : s.path = path) :
    s.Follows h (h.scan below path s.state ahead s.ledger) := by
  induction ahead generalizing s with
  | nil =>
    -- all that was left would be calls
    obtain ⟨passed, hrest, hpassed⟩ := ha.behind
    obtain ⟨i, hi, hret⟩ := hw.exists_ret_mem_rest hne
    rw [← hp, hrest, List.append_nil] at hi
    rw [hpassed i hi] at hret
    cases hret
  | cons i ahead ih =>
    have hempty := ha.isEmpty_false hw
    have hpathOf : ∀ {s' : Search State}, s'.stack = s.stack → s'.path = path :=
      fun hs => by rw [Search.path, hs, ← hp, Search.path]
    cases hi : h.isCallAt i with
    | false =>
      rw [History.scan_ret hi]
      exact ⟨0, s, i, ahead, .refl s, ha, hi, rfl, rfl, rfl, rfl⟩
    | true =>
      cases hn : h.next? s.state i with
      | none =>
        rw [History.scan_refused hi hn]
        obtain ⟨s₁, hstep, ha₁, hstack, hstate, hl⟩ := ha.step_refused hw hi hn
        rw [← hl, ← hstate]
        refine Follows.of_reaches (.step hempty hstep (.refl s₁)) ?_ hstack hstate
          (ih ha₁ (hpathOf hstack))
        exact congrArg (·.stats.iterations) hl
      | some next =>
        cases hm : s.ledger.tick.note (h.configuration (path ++ [i]) next) with
        | mk novel l =>
          have hticks := History.iterations_note hm
          cases novel with
          | false =>
            rw [History.scan_known hi hn hm]
            rw [← hp] at hm
            obtain ⟨s₁, hstep, ha₁, hstack, hstate, hl⟩ := ha.step_known hw hi hn hm
            rw [← hl, ← hstate]
            refine Follows.of_reaches (.step hempty hstep (.refl s₁)) ?_ hstack hstate
              (ih ha₁ (hpathOf hstack))
            exact (congrArg (·.stats.iterations) hl).trans hticks
          | true =>
            rw [History.scan_novel hi hn hm]
            have hfront := ha.mem_front hi
            rw [hp] at hfront
            have hm' := hm
            rw [← hp] at hm'
            obtain ⟨s₁, hstep, ha₁, hstack, hstate, hl⟩ := ha.step_novel hw hi hn hm'
            rw [hp] at ha₁ hl
            have hp₁ : s₁.path = path ++ [i] := by simp [Search.path, hstack, ← hp]
            have hn₁ : s₁.stats.iterations = s.stats.iterations + 1 :=
              (congrArg (·.stats.iterations) hl).trans hticks
            have hf := hbelow i hfront s₁ ha₁ hp₁
            rw [hstate, hl] at hf
            cases he : below (path ++ [i]) next (l.lift (path.length + 1)) with
            | complete order l₂ =>
              rw [he] at hf
              exact hf.complete_of_reaches (.step hempty hstep (.refl s₁)) hn₁
            | blocked l₂ =>
              rw [he] at hf
              obtain ⟨m, s₂, hr₂, ha₂, hstack₂, hstate₂, hl₂, hn₂⟩ := hf.exists_backtrack hw ha hstack
              show s.Follows h (h.scan below path s.state ahead l₂.undo)
              rw [← hl₂, ← hstate₂]
              refine Follows.of_reaches ((Reaches.step hempty hstep (.refl s₁)).trans hr₂) ?_ hstack₂
                hstate₂ (ih ha₂ (hpathOf hstack₂))
              omega

theorem explore_follows {calls : Nat} {path : List Nat} {s : Search State}
    (ha : s.At h (h.rest path)) (hp : s.path = path) (hlen : (h.left path).length = calls) :
    s.Follows h (h.explore calls path s.state s.ledger) := by
  induction calls generalizing path s with
  | zero =>
    have hnil : h.rest path = [] := hw.rest_eq_nil_iff.mpr (List.length_eq_zero_iff.mp hlen)
    rw [hnil] at ha
    exact ⟨0, s, .refl s, ha, hp, rfl, rfl⟩
  | succ calls ih =>
    have hne : h.left path ≠ [] := List.ne_nil_of_length_eq_add_one hlen
    refine scan_follows hw hne ?_ ha hp
    intro i hi s ha hp
    exact ih ha hp (History.length_left_snoc hlen hi)

end Linearizability.Search
