import Linearizability.Proofs.Search.Charge
import Linearizability.Proofs.Search.Independence

/-!
# What the statistics count

The counters go up on different branches of the loop. What a check adds to
them tells how deep its stack has been and how long it is in the end, and,
under a memo that forgets nothing, how many configurations were accepted. Any
number of checks in turn add as often the same.
-/

namespace Linearizability

variable {Op State : Type} [Specification State Op]

/-! ## Memos that forget nothing -/

structure Memo.Lists (m : Memo State) (listed : List (Configuration State)) : Prop where
  distinct : listed.Pairwise fun c c' => (c == c') = false
  knows_iff : ∀ c, m.Knows c ↔ ∃ c' ∈ listed, (c' == c) = true

theorem Memo.Lists.note [EquivBEq State] [LawfulHashable State] {m : Memo State}
    {listed : List (Configuration State)} (hlists : m.Lists listed) (hm : m.Retentive)
    (c : Configuration State) :
    (m.note c).2.Lists (if (m.note c).1 then c :: listed else listed) := by
  have htold : ∀ c', (m.note c).2.Knows c' ↔ (c == c') = true ∨ m.Knows c' :=
    fun _ => hm.knows_note_iff
  cases hnovel : (m.note c).1 with
  | false =>
    have hknown := Memo.knows_of_note_rejects hnovel
    refine ⟨hlists.distinct, fun c' => ?_⟩
    rw [htold, hlists.knows_iff]
    exact ⟨fun h => h.elim (fun heq => (hlists.knows_iff c').mp (hknown.congr heq)) id, .inr⟩
  | true =>
    have hnew : ∀ c' ∈ listed, (c == c') = false := by
      intro c' hc'
      by_contra heq
      have hknown := (hlists.knows_iff c).mpr ⟨c', hc', BEq.symm (Bool.eq_true_of_not_eq_false heq)⟩
      rw [Memo.note_fst_of_knows hknown] at hnovel
      cases hnovel
    refine ⟨List.pairwise_cons.mpr ⟨hnew, hlists.distinct⟩, fun c' => ?_⟩
    rw [htold, hlists.knows_iff]
    simp only [if_true, List.mem_cons, exists_eq_or_imp]

namespace Search

/-! ## Accepted and lifted configurations -/

/-- Iteration `n` stands at a call that is accepted, and that leads to the configuration `c`. -/
def AcceptsAt (h : History Op) (first : Search State) (n : Nat) (c : Configuration State) : Prop :=
  ∃ s, first.Reaches h n s ∧ h.isCallAt s.cursor = true ∧ h.next? s.state s.cursor = some c.state ∧
    s.linearized.withSet (h.idAt s.cursor) = .ok c.linearized

def LiftsAt (h : History Op) (first : Search State) (n : Nat) (c : Configuration State) : Prop :=
  ∃ s s', first.Reaches h n s ∧ first.Reaches h (n + 1) s' ∧
    s'.stack = ⟨s.cursor, s.state⟩ :: s.stack ∧ s'.linearized = c.linearized ∧ s'.state = c.state

def depths (h : History Op) (first : Search State) : Set Nat :=
  {depth | ∃ n s, first.Reaches h n s ∧ s.stack.length = depth}

def depthsTo (h : History Op) (first : Search State) (n : Nat) : Set Nat :=
  {depth | ∃ m ≤ n, ∃ s, first.Reaches h m s ∧ s.stack.length = depth}

section

variable {h : History Op} {first s : Search State} {n : Nat} {c : Configuration State} {a : Stats}

theorem acceptsAt_charge_iff : (first.charge a).AcceptsAt h n c ↔ first.AcceptsAt h n c := by
  simp only [AcceptsAt, reaches_charge_iff]
  constructor
  · rintro ⟨_, ⟨s, hr, rfl⟩, haccepts⟩
    exact ⟨s, hr, haccepts⟩
  · rintro ⟨s, hr, haccepts⟩
    exact ⟨s.charge a, ⟨s, hr, rfl⟩, haccepts⟩

theorem liftsAt_charge_iff : (first.charge a).LiftsAt h n c ↔ first.LiftsAt h n c := by
  simp only [LiftsAt, reaches_charge_iff]
  constructor
  · rintro ⟨_, _, ⟨s, hr, rfl⟩, ⟨s', hr', rfl⟩, hlifts⟩
    exact ⟨s, s', hr, hr', hlifts⟩
  · rintro ⟨s, s', hr, hr', hlifts⟩
    exact ⟨s.charge a, s'.charge a, ⟨s, hr, rfl⟩, ⟨s', hr', rfl⟩, hlifts⟩

theorem depths_charge : depths h (first.charge a) = depths h first := by
  simp only [depths, reaches_charge_iff]
  ext depth
  constructor
  · rintro ⟨n, _, ⟨s, hr, rfl⟩, hdepth⟩
    exact ⟨n, s, hr, hdepth⟩
  · rintro ⟨n, s, hr, hdepth⟩
    exact ⟨n, s.charge a, ⟨s, hr, rfl⟩, hdepth⟩

theorem depths_eq_depthsTo (hr : first.Reaches h n s) (hstop : ∀ s', ¬ s.Reaches h 1 s') :
    depths h first = depthsTo h first n := by
  ext depth
  exact ⟨fun ⟨m, s₁, hr₁, hdepth⟩ => ⟨m, hr.le_of_stop hstop hr₁, s₁, hr₁, hdepth⟩,
    fun ⟨m, _, s₁, hr₁, hdepth⟩ => ⟨m, s₁, hr₁, hdepth⟩⟩

theorem depthsTo_zero : depthsTo h first 0 = {first.stack.length} := by
  ext depth
  constructor
  · rintro ⟨m, hm, s, hr, rfl⟩
    obtain rfl := Nat.le_zero.mp hm
    exact congrArg (·.stack.length) (reaches_zero_iff.mp hr).symm
  · rintro rfl
    exact ⟨0, Nat.le_refl 0, first, .refl first, rfl⟩

theorem depthsTo_succ (hr : first.Reaches h (n + 1) s) :
    depthsTo h first (n + 1) = insert s.stack.length (depthsTo h first n) := by
  ext depth
  constructor
  · rintro ⟨m, hm, s₁, hr₁, hdepth⟩
    rcases Nat.le_succ_iff.mp hm with hm | rfl
    · exact .inr ⟨m, hm, s₁, hr₁, hdepth⟩
    · exact .inl (hdepth ▸ congrArg (·.stack.length) (hr₁.unique hr))
  · rintro (rfl | ⟨m, hm, s₁, hr₁, hdepth⟩)
    · exact ⟨n + 1, Nat.le_refl _, s, hr, rfl⟩
    · exact ⟨m, Nat.le_succ_of_le hm, s₁, hr₁, hdepth⟩

end

/-! ## Counters -/

section

variable {h : History Op} {first s s' : Search State} {n i : Nat} {ahead : List Nat}

theorem Advance.stats_eq (hadvance : s.Advance h i ahead s') :
    (s'.stack = s.stack ∧ ∃ rejected ≤ 1, s'.stats = { s.stats with
      iterations := s.stats.iterations + 1, rejections := s.stats.rejections + rejected }) ∨
    (∃ frame, s'.stack = frame :: s.stack ∧ s'.stats = { s.stats with
      iterations := s.stats.iterations + 1, lifts := s.stats.lifts + 1
      maxDepth := max s.stats.maxDepth (s.stack.length + 1) }) ∨
    ∃ frame, s.stack = frame :: s'.stack ∧ s'.stats = { s.stats with
      iterations := s.stats.iterations + 1, backtracks := s.stats.backtracks + 1 } := by
  cases hadvance with
  | refused _ _ hstack hl => exact .inl ⟨hstack, 0, Nat.zero_le 1, congrArg Ledger.stats hl⟩
  | @known _ l _ _ hm hstack hl =>
    refine .inl ⟨hstack, 1, Nat.le_refl 1, ?_⟩
    have hstats : s'.stats = (l.reject.pass _).stats := congrArg Ledger.stats hl
    rw [hstats, Ledger.pass, Ledger.reject, (note_eq hm).1]
    rfl
  | @novel _ l _ _ hm hstack _ hl =>
    refine .inr (.inl ⟨_, hstack, ?_⟩)
    have hdepth : s.path.length = s.stack.length := by simp [Search.path]
    have hstats : s'.stats = (l.lift (s.path.length + 1)).stats := congrArg Ledger.stats hl
    rw [hstats, Ledger.lift, (note_eq hm).1, hdepth]
    rfl
  | undone _ hstack hl => exact .inr (.inr ⟨_, hstack, congrArg Ledger.stats hl⟩)

/-- What the counters tell after `n` iterations of a search that counts from nothing. -/
structure Counted (h : History Op) (first : Search State) (n : Nat) (s : Search State) : Prop where
  lifts : s.stats.lifts = s.stats.backtracks + s.stack.length
  iterations : s.stats.lifts + s.stats.backtracks + s.stats.rejections ≤ s.stats.iterations
  deepest : IsGreatest (depthsTo h first n) s.stats.maxDepth

theorem Counted.start (hstack : first.stack = []) (hstats : first.stats = {}) :
    Counted h first 0 first := by
  refine ⟨?_, ?_, ?_⟩
  · rw [hstats, hstack]
    rfl
  · rw [hstats]
    exact Nat.le_refl 0
  · rw [hstats, depthsTo_zero, hstack]
    exact isGreatest_singleton

theorem Counted.advance (hc : Counted h first n s) (hr : first.Reaches h n s)
    (hr' : first.Reaches h (n + 1) s') (hadvance : s.Advance h i ahead s') :
    Counted h first (n + 1) s' := by
  have hdeep : s.stack.length ≤ s.stats.maxDepth := hc.deepest.2 ⟨n, Nat.le_refl n, s, hr, rfl⟩
  have hgreatest : IsGreatest (depthsTo h first (n + 1)) (max s'.stack.length s.stats.maxDepth) :=
    depthsTo_succ hr' ▸ hc.deepest.insert s'.stack.length
  obtain ⟨hlifts, hiterations, _⟩ := hc
  rcases hadvance.stats_eq with ⟨hstack, _, hle, hstats⟩ | ⟨_, hstack, hstats⟩ | ⟨_, hstack, hstats⟩
  · rw [hstack, Nat.max_eq_right hdeep] at hgreatest
    refine ⟨?_, ?_, ?_⟩
    · rw [hstats, hstack]
      exact hlifts
    · rw [hstats]
      show s.stats.lifts + s.stats.backtracks + (s.stats.rejections + _) ≤ s.stats.iterations + 1
      omega
    · rw [hstats]
      exact hgreatest
  · rw [hstack, List.length_cons, Nat.max_comm] at hgreatest
    refine ⟨?_, ?_, ?_⟩
    · rw [hstats, hstack, List.length_cons]
      show s.stats.lifts + 1 = s.stats.backtracks + (s.stack.length + 1)
      omega
    · rw [hstats]
      show s.stats.lifts + 1 + s.stats.backtracks + s.stats.rejections ≤ s.stats.iterations + 1
      omega
    · rw [hstats]
      exact hgreatest
  · rw [hstack, List.length_cons] at hlifts hdeep
    rw [Nat.max_eq_right (by omega)] at hgreatest
    refine ⟨?_, ?_, ?_⟩
    · rw [hstats]
      show s.stats.lifts = s.stats.backtracks + 1 + s'.stack.length
      omega
    · rw [hstats]
      show s.stats.lifts + (s.stats.backtracks + 1) + s.stats.rejections ≤ s.stats.iterations + 1
      omega
    · rw [hstats]
      exact hgreatest

/-! ## What the memo is told -/

/-- The memo is told of each accepted configuration. The call is lifted if the memo finds it new,
and rejected otherwise. -/
theorem Advance.memo_eq (hadvance : s.Advance h i ahead s') :
    ((h.isCallAt i = true → h.next? s.state i = none) ∧ s'.memo = s.memo ∧
      s'.stack.length ≤ s.stack.length ∧ s'.stats.lifts = s.stats.lifts ∧
      s'.stats.rejections = s.stats.rejections) ∨
    ∃ next novel, h.isCallAt i = true ∧ h.next? s.state i = some next ∧
      s.memo.note (h.configuration (s.path ++ [i]) next) = (novel, s'.memo) ∧
      s'.stack.length = s.stack.length + novel.toNat ∧
      s'.stats.lifts = s.stats.lifts + novel.toNat ∧
      s'.stats.rejections = s.stats.rejections + (!novel).toNat := by
  cases hadvance with
  | refused _ hn hstack hl =>
    exact .inl ⟨fun _ => hn, congrArg Ledger.memo hl, by rw [hstack],
      congrArg (·.stats.lifts) hl, congrArg (·.stats.rejections) hl⟩
  | @known next l hi hn hm hstack hl =>
    obtain ⟨hstats, _, hnote⟩ := note_eq hm
    have hmemo : s'.memo = l.memo := congrArg Ledger.memo hl
    have hlifts : s'.stats.lifts = l.stats.lifts := congrArg (·.stats.lifts) hl
    have hrejections : s'.stats.rejections = l.stats.rejections + 1 :=
      congrArg (·.stats.rejections) hl
    rw [hstats] at hlifts hrejections
    exact .inr ⟨next, false, hi, hn, hmemo ▸ hnote, congrArg List.length hstack, hlifts, hrejections⟩
  | @novel next l hi hn hm hstack _ hl =>
    obtain ⟨hstats, _, hnote⟩ := note_eq hm
    have hmemo : s'.memo = l.memo := congrArg Ledger.memo hl
    have hlifts : s'.stats.lifts = l.stats.lifts + 1 := congrArg (·.stats.lifts) hl
    have hrejections : s'.stats.rejections = l.stats.rejections := congrArg (·.stats.rejections) hl
    rw [hstats] at hlifts hrejections
    exact .inr ⟨next, true, hi, hn, hmemo ▸ hnote, congrArg List.length hstack, hlifts, hrejections⟩
  | undone hi hstack hl =>
    refine .inl ⟨fun hcall => absurd hcall (by simp [hi]), congrArg Ledger.memo hl, ?_,
      congrArg (·.stats.lifts) hl, congrArg (·.stats.rejections) hl⟩
    rw [hstack]
    exact Nat.le_succ _

theorem Advance.disabled (hadvance : s.Advance h i ahead s') (hmemo : s.memo = .disabled) :
    s'.memo = .disabled ∧ s'.stats.rejections = s.stats.rejections := by
  rcases hadvance.memo_eq with ⟨_, hmemo', _, _, hrejections⟩ | ⟨_, _, _, _, hnote, _, _, hrejections⟩
  · exact ⟨hmemo'.trans hmemo, hrejections⟩
  · rw [hmemo] at hnote
    obtain ⟨rfl, hkept⟩ := Prod.mk.inj hnote
    exact ⟨hkept.symm, hrejections⟩

end

section

variable [Operation Op] {h : History Op} (hw : h.WellPaired) {first s s' : Search State}
  {n m i : Nat} {ahead : List Nat} {c c' : Configuration State}

include hw

theorem At.acceptsAt_iff (ha : s.At h (i :: ahead)) (hr : first.Reaches h n s) :
    first.AcceptsAt h n c ↔ h.isCallAt i = true ∧
      ∃ next, h.next? s.state i = some next ∧ c = h.configuration (s.path ++ [i]) next := by
  have hset : h.isCallAt i = true →
      s.linearized.withSet (h.idAt i) = .ok (h.marks (s.path ++ [i])) := by
    intro hi
    rw [ha.linearized, Bitset.withSet_eq (hw.blockIndex_lt hi s.path), History.marks_snoc]
  have hcursor : s.cursor = i := ha.cursor
  constructor
  · rintro ⟨s₁, hr₁, hi, hn, hc⟩
    obtain rfl := hr₁.unique hr
    rw [hcursor] at hi hn hc
    rw [hset hi] at hc
    refine ⟨hi, c.state, hn, ?_⟩
    rw [History.configuration, Except.ok.inj hc]
  · rintro ⟨hi, next, hn, rfl⟩
    refine ⟨s, hr, ?_⟩
    rw [hcursor]
    exact ⟨hi, hn, hset hi⟩

theorem le_calls_of_mem_depths (ha : first.At h ahead) {depth : Nat}
    (hdepth : depth ∈ depths h first) : depth ≤ h.calls := by
  obtain ⟨m, s, hr, rfl⟩ := hdepth
  obtain ⟨_, hat⟩ := hr.exists_at hw ha
  exact hat.depth_le_calls hw

theorem Reaches.rejections_eq (hr : first.Reaches h n s) (ha : first.At h ahead)
    (hmemo : first.memo = .disabled) : s.stats.rejections = first.stats.rejections := by
  have hkept : s.memo = .disabled ∧ s.stats.rejections = first.stats.rejections :=
    hr.induction_at hw ha (P := fun _ s => s.memo = .disabled ∧ s.stats.rejections = _)
      ⟨hmemo, rfl⟩ fun _ _ _ hadvance hc => by
        obtain ⟨hmemo', hrejections⟩ := hadvance.disabled hc.1
        exact ⟨hmemo', hrejections.trans hc.2⟩
  exact hkept.2

theorem LiftsAt.novel (hlifts : first.LiftsAt h n c) (ha : first.At h ahead) :
    first.AcceptsAt h n c ∧ ∃ s, first.Reaches h n s ∧ (s.memo.note c).1 = true := by
  obtain ⟨s, s', hr, hr', hstack, hlinearized, hstate⟩ := hlifts
  obtain ⟨s₁, i, behind, hr₁, hat, hadvance⟩ := hr'.exists_advance hw ha
  obtain rfl := hr₁.unique hr
  have hlength := congrArg List.length hstack
  rcases hadvance.memo_eq with ⟨_, _, hle, _⟩ | ⟨next, novel, hi, hn, hnote, hgrown, _⟩
  · rw [hlength, List.length_cons] at hle
    exact absurd hle (Nat.not_succ_le_self _)
  · obtain ⟨_, hat'⟩ := hr'.exists_at hw ha
    have hcursor : s₁.cursor = i := hat.cursor
    have hpath : s'.path = s₁.path ++ [i] := by simp [Search.path, hstack, hcursor]
    have hreplay := hat'.state
    rw [hpath, History.replay?_snoc, hat.state] at hreplay
    have hnext : next = s'.state := Option.some.inj (hn.symm.trans hreplay)
    have hc : c = h.configuration (s₁.path ++ [i]) next := by
      rw [History.configuration, ← hpath, ← hat'.linearized, hnext, hlinearized, hstate]
    refine ⟨(hat.acceptsAt_iff hw hr).mpr ⟨hi, next, hn, hc⟩, s₁, hr, ?_⟩
    rw [hc, hnote]
    cases novel with
    | true => rfl
    | false =>
      rw [hlength] at hgrown
      exact absurd hgrown (Nat.succ_ne_self _)

theorem AcceptsAt.exists_reaches (haccepts : first.AcceptsAt h n c) (ha : first.At h ahead) :
    ∃ s', first.Reaches h (n + 1) s' := by
  obtain ⟨s, hr, hi, _⟩ := haccepts
  obtain ⟨ahead', hat⟩ := hr.exists_at hw ha
  have hcursor := hat.cursor
  cases ahead' with
  | nil =>
    have hlt := History.WellPaired.lt_size_of_isCallAt hi
    rw [hcursor, List.headD_nil, WorkingList.head, (hat.shows hw).size] at hlt
    exact absurd hlt (Nat.lt_irrefl _)
  | cons i behind =>
    rcases hat.exists_advance hw with ⟨s', _, hstep, _⟩ | ⟨_, _, hret⟩
    · exact ⟨s', hr.trans (.step (hat.isEmpty_false hw) hstep (.refl s'))⟩
    · rw [hcursor, List.headD_cons, hret] at hi
      cases hi

/-- What a memo that forgets nothing knows after `n` iterations. -/
structure Recalled (h : History Op) (first : Search State) (n : Nat) (s : Search State) : Prop where
  retentive : s.memo.Retentive
  knows : ∀ m < n, ∀ c, first.AcceptsAt h m c → s.memo.Knows c
  accepted : ∃ accepted : List (Configuration State), accepted.length = s.stats.lifts ∧
    s.memo.Lists accepted ∧ ∀ c ∈ accepted, ∃ m, first.AcceptsAt h m c

omit [Operation Op] hw in
theorem Recalled.start (hfresh : first.Fresh h) (hstats : first.stats = {})
    (hmemo : first.memo.Retentive) : Recalled h first 0 first where
  retentive := hmemo
  knows := nofun
  accepted := by
    refine ⟨[], by rw [hstats]; rfl, ⟨.nil, fun c => ⟨fun hc => ?_, nofun⟩⟩, nofun⟩
    exact absurd hc (hfresh.memo c)

variable [EquivBEq State] [LawfulHashable State]

theorem Recalled.advance (hrecalled : Recalled h first n s) (hr : first.Reaches h n s)
    (ha : s.At h (i :: ahead)) (hadvance : s.Advance h i ahead s') :
    Recalled h first (n + 1) s' := by
  obtain ⟨hretentive, hknows, accepted, hlength, hlists, haccepts⟩ := hrecalled
  have haccept := fun c => ha.acceptsAt_iff hw (c := c) hr
  rcases hadvance.memo_eq with ⟨hnone, hmemo, _, hlifts, _⟩ |
    ⟨next, novel, hi, hn, hnote, _, hlifts, _⟩
  · rw [← hmemo] at hretentive hknows hlists
    refine ⟨hretentive, fun m hm c hc => ?_, accepted, hlifts ▸ hlength, hlists, haccepts⟩
    rcases Nat.lt_succ_iff_lt_or_eq.mp hm with hm | rfl
    · exact hknows m hm c hc
    · obtain ⟨hi, next, hn, _⟩ := (haccept c).mp hc
      rw [hnone hi] at hn
      cases hn
  · have htold := hlists.note hretentive (h.configuration (s.path ++ [i]) next)
    have hkept := hretentive.note (h.configuration (s.path ++ [i]) next)
    have hmemo : (s.memo.note (h.configuration (s.path ++ [i]) next)).2 = s'.memo := by rw [hnote]
    have hgrows : ∀ c, s'.memo.Knows c ↔
        (h.configuration (s.path ++ [i]) next == c) = true ∨ s.memo.Knows c :=
      fun c => hmemo ▸ hretentive.knows_note_iff
    rw [hnote] at htold hkept
    refine ⟨hkept, fun m hm c hc => (hgrows c).mpr ?_, _, ?_, htold, fun c hc => ?_⟩
    · rcases Nat.lt_succ_iff_lt_or_eq.mp hm with hm | rfl
      · exact .inr (hknows m hm c hc)
      · obtain ⟨_, _, hn', rfl⟩ := (haccept c).mp hc
        rw [Option.some.inj (hn'.symm.trans hn)]
        exact .inl BEq.rfl
    · rw [hlifts, ← hlength]
      cases novel <;> rfl
    · cases novel with
      | false => exact haccepts c hc
      | true =>
        rcases List.mem_cons.mp hc with rfl | hc
        · exact ⟨n, (haccept _).mpr ⟨hi, next, hn, rfl⟩⟩
        · exact haccepts c hc

theorem Recalled.not_lifts (hrecalled : ∀ {s}, first.Reaches h m s → Recalled h first m s)
    (ha : first.At h ahead) (hlt : n < m) (hlifts : first.LiftsAt h n c)
    (hlifts' : first.LiftsAt h m c') : (c == c') = false := by
  obtain ⟨haccepts, _⟩ := hlifts.novel hw ha
  obtain ⟨_, s, hr, hnovel⟩ := hlifts'.novel hw ha
  by_contra heq
  have hknown := ((hrecalled hr).knows n hlt c haccepts).congr (Bool.eq_true_of_not_eq_false heq)
  rw [Memo.note_fst_of_knows hknown] at hnovel
  cases hnovel

theorem Recalled.lifts_once (hrecalled : ∀ {m s}, first.Reaches h m s → Recalled h first m s)
    (ha : first.At h ahead) (hlifts : first.LiftsAt h n c) (hlifts' : first.LiftsAt h m c')
    (heq : (c == c') = true) : n = m := by
  rcases Nat.lt_trichotomy n m with hlt | rfl | hlt
  · rw [not_lifts hw hrecalled ha hlt hlifts hlifts'] at heq
    cases heq
  · rfl
  · rw [BEq.comm, not_lifts hw hrecalled ha hlt hlifts' hlifts] at heq
    cases heq

end

end Search

/-! ## Checks -/

namespace Tester

/-- What the increments `d` of a check tell about its search, from `first` on, and its result. -/
structure Tally (t : Tester State Op) (first : Search State) (result : CheckResult) (d : Stats) :
    Prop where
  witness : d.lifts = d.backtracks + result.witness.length
  iterations : d.lifts + d.backtracks + d.rejections + (if result.linearizable then 0 else 1) ≤
    d.iterations
  deepest : IsGreatest (Search.depths t.history first) d.maxDepth
  bounded : d.maxDepth ≤ t.history.calls
  full : result.linearizable = true → d.maxDepth = t.history.calls
  disabled : t.config.memo = .disabled → d.rejections = 0
  once : t.config.memo = .always → ∀ n m c c', first.LiftsAt t.history n c →
    first.LiftsAt t.history m c' → (c == c') = true → n = m
  /-- The distinct configurations that are accepted are as many as the lifts. -/
  accepted : t.config.memo = .always → ∃ accepted : List (Configuration State),
    accepted.length = d.lifts ∧ accepted.Pairwise (fun c c' => (c == c') = false) ∧
    (∀ c ∈ accepted, ∃ n, first.AcceptsAt t.history n c) ∧
    ∀ n c, first.AcceptsAt t.history n c → ∃ c' ∈ accepted, (c' == c) = true

def checkInTurn (t : Tester State Op) : List Clock → CheckResult →
    Except Fault (Tester State Op) × CheckResult
  | [], r => (.ok t, r)
  | clock :: clocks, r =>
    match t.checkInto clock r with
    | (.error f, r) => (.error f, r)
    | (.ok after, r) => after.checkInTurn clocks r

variable {t : Tester State Op} {first : Search State} {result : CheckResult} {d : Stats}

theorem Tally.charge (htally : t.Tally first result d) (a : Stats) :
    (t.charge a).Tally (first.charge a) result d where
  witness := htally.witness
  iterations := htally.iterations
  deepest := by
    rw [Search.depths_charge]
    exact htally.deepest
  bounded := htally.bounded
  full := htally.full
  disabled := htally.disabled
  once := by
    simp only [Search.liftsAt_charge_iff]
    exact htally.once
  accepted := by
    simp only [Search.acceptsAt_charge_iff]
    exact htally.accepted

section

variable [Operation Op] (hw : t.history.WellPaired) (hcap : t.config.lruCapacity ≠ 0)
  (htime : t.config.timeout = none)

include hw hcap htime

theorem exists_tally [EquivBEq State] [LawfulHashable State] (hempty : t.stats = {}) :
    ∃ first d result, t.start = .ok first ∧ t.Tally first result d ∧ result.isTimeout = false ∧
      ∀ clock r, t.checkInto clock r = (.ok { t with stats := d }, result) := by
  obtain ⟨first, n, last, hstart, hfresh, hmemo, _, hstats, hr, hstop, hcheck⟩ :=
    exists_last hw hcap htime
  rw [hempty] at hstats
  have ha := hfresh.position
  have hcounted : Search.Counted t.history first n last :=
    hr.induction_at hw ha (.start hfresh.stack hstats)
      fun hr hr' _ hadvance hc => hc.advance hr hr' hadvance
  have hrecalled : t.config.memo = .always → ∀ {m s}, first.Reaches t.history m s →
      Search.Recalled t.history first m s := by
    intro halways m s hr
    rw [Memo.ofConfig, halways] at hmemo
    exact hr.induction_at hw ha (.start hfresh hstats ⟨_, (Except.ok.inj hmemo).symm⟩)
      fun hr _ ha hadvance hc => hc.advance hw hr ha hadvance
  have hdeepest := hcounted.deepest
  rw [← Search.depths_eq_depthsTo hr hstop] at hdeepest
  have hbounded := Search.le_calls_of_mem_depths hw ha hdeepest.1
  obtain ⟨_, hat⟩ := hr.exists_at hw ha
  have hlength : last.path.length = last.stack.length := by simp [Search.path]
  refine ⟨first, _, _, hstart, ?_, rfl, hcheck⟩
  refine ⟨?_, ?_, hdeepest, hbounded, ?_, ?_, ?_, ?_⟩
  · exact hlength ▸ hcounted.lifts
  · exact Nat.add_le_add_right hcounted.iterations _
  · intro hpositive
    refine Nat.le_antisymm hbounded ?_
    rw [← (hat.depth_eq_calls_iff hw).mpr (List.isEmpty_iff.mp hpositive)]
    exact hdeepest.2 ⟨n, last, hr, rfl⟩
  · intro hdisabled
    rw [Memo.ofConfig, hdisabled] at hmemo
    have hrejections := hr.rejections_eq hw ha (Except.ok.inj hmemo).symm
    rwa [hstats] at hrejections
  · intro halways _ _ _ _
    exact Search.Recalled.lifts_once hw (hrecalled halways) ha
  · intro halways
    obtain ⟨_, hknows, accepted, hlength, hlists, haccepts⟩ := hrecalled halways hr
    refine ⟨accepted, hlength, hlists.distinct, haccepts,
      fun m c hc => (hlists.knows_iff c).mp (hknows m ?_ c hc)⟩
    -- the iteration goes on, so the loop stops behind it
    obtain ⟨s, hr'⟩ := hc.exists_reaches hw ha
    exact hr.le_of_stop hstop hr'

omit [Operation Op] hw hcap htime in
theorem checkInTurn_eq {d : Stats} {result : CheckResult}
    (hcheck : ∀ stats clock r, ({ t with stats } : Tester State Op).checkInto clock r =
      (.ok { t with stats := stats.add d }, result)) (clocks : List Clock) (stats : Stats)
    (r : CheckResult) :
    (({ t with stats } : Tester State Op).checkInTurn clocks r).1 =
      .ok { t with stats := stats.add (d.times clocks.length) } := by
  induction clocks generalizing stats r with
  | nil =>
    rw [List.length_nil, Stats.times_zero, Stats.add_empty]
    rfl
  | cons clock clocks ih =>
    rw [List.length_cons, Stats.add_times_succ, checkInTurn, hcheck]
    exact ih (stats.add d) result

end

variable [Operation Op] [EquivBEq State] [LawfulHashable State]

/-- Whatever was counted before, a check adds the same increments, which tell about its search and
its result. Any number of checks in turn add as often as much. -/
theorem checkInto_statistics (hc : t.history.Complete) (hvalid : t.config.validate = .ok ())
    (htime : t.config.timeout = none) :
    ∃ d result, result.isTimeout = false ∧
      (∀ stats clock r, ({ t with stats } : Tester State Op).checkInto clock r =
        (.ok { t with stats := stats.add d }, result)) ∧
      (∀ stats, ∃ first, ({ t with stats } : Tester State Op).start = .ok first ∧
        ({ t with stats } : Tester State Op).Tally first result d) ∧
      ∀ clocks r, (t.checkInTurn clocks r).1 =
        .ok { t with stats := t.stats.add (d.times clocks.length) } := by
  have hcap := Config.capacity_of_validate hvalid
  let fresh : Tester State Op := { t with stats := {} }
  obtain ⟨first, d, result, hstart, htally, hfree, hcheck⟩ :=
    exists_tally (t := fresh) hc.wellPaired hcap htime rfl
  have hcharge : ∀ stats, ({ t with stats } : Tester State Op) = fresh.charge stats := by
    intro stats
    rw [charge, Stats.add_empty]
  have hcheck' : ∀ stats clock r, ({ t with stats } : Tester State Op).checkInto clock r =
      (.ok { t with stats := stats.add d }, result) := by
    intro stats clock r
    rw [hcharge, checkInto_charge, hcheck]
    rfl
  refine ⟨d, result, hfree, hcheck', fun stats => ⟨first.charge stats, ?_, ?_⟩,
    fun clocks r => checkInTurn_eq hcheck' clocks t.stats r⟩
  · rw [hcharge, start_charge, hstart]
    rfl
  · rw [hcharge]
    exact htally.charge stats

theorem checkInto_statistics_inventedLookup :
    let t : Tester ByteSet ByteSet.Op := ⟨History.ofLog inventedLookup, {}, {}⟩
    t.history.Complete ∧ t.config.memo = .always ∧ ∃ d result, result.isTimeout = false ∧
      (∀ stats clock r, ({ t with stats } : Tester ByteSet ByteSet.Op).checkInto clock r =
        (.ok { t with stats := stats.add d }, result)) ∧
      (∀ stats, ∃ first, ({ t with stats } : Tester ByteSet ByteSet.Op).start = .ok first ∧
        ({ t with stats } : Tester ByteSet ByteSet.Op).Tally first result d) ∧
      ∀ clocks r, (t.checkInTurn clocks r).1 =
        .ok { t with stats := t.stats.add (d.times clocks.length) } :=
  have hc := History.complete_ofLog inventedLookup_complete
  ⟨hc, rfl, checkInto_statistics hc rfl rfl⟩

/-- Without a memo both of these orders are gone through, in each of two checks. -/
example : ((⟨History.ofLog inventedLookup, { memo := .disabled }, {}⟩ :
    Tester ByteSet ByteSet.Op).checkInTurn [.frozen, .frozen] {}).1 =
      .ok ⟨History.ofLog inventedLookup, { memo := .disabled }, ⟨28, 8, 8, 0, 2⟩⟩ := by rfl

end Tester

end Linearizability
