import Linearizability.Proofs.Search.Coverage
import Linearizability.Proofs.Search.Independence

/-!
# Remembering more saves work

Two explorations of one path with two memos go through the same calls. Where
both memos take a configuration for new both go below it. The memo that is
ahead may reject what the other does not, and the other then comes back with
nothing but its work. The other never rejects alone. A memo is ahead of one
that remembers nothing, and one that forgets nothing is ahead of a window.
-/

namespace Linearizability

/-! ## Work -/

structure Stats.NoMoreThan (a b : Stats) : Prop where
  iterations : a.iterations ≤ b.iterations
  lifts : a.lifts ≤ b.lifts
  backtracks : a.backtracks ≤ b.backtracks

namespace Stats.NoMoreThan

theorem refl (a : Stats) : a.NoMoreThan a := ⟨Nat.le_refl _, Nat.le_refl _, Nat.le_refl _⟩

theorem trans {a b c : Stats} (h : a.NoMoreThan b) (k : b.NoMoreThan c) : a.NoMoreThan c :=
  ⟨h.iterations.trans k.iterations, h.lifts.trans k.lifts, h.backtracks.trans k.backtracks⟩

variable {State : Type} [BEq State] [Hashable State] {l l' : Ledger State} {a : Stats}

theorem tick (h : l.stats.NoMoreThan l'.stats) : l.tick.stats.NoMoreThan l'.tick.stats :=
  ⟨Nat.succ_le_succ h.iterations, h.lifts, h.backtracks⟩

theorem lift (h : l.stats.NoMoreThan l'.stats) (depth : Nat) :
    (l.lift depth).stats.NoMoreThan (l'.lift depth).stats :=
  ⟨h.iterations, Nat.succ_le_succ h.lifts, h.backtracks⟩

theorem reject_le (h : l.stats.NoMoreThan a) : l.reject.stats.NoMoreThan a :=
  ⟨h.iterations, h.lifts, h.backtracks⟩

theorem undo (h : l.stats.NoMoreThan l'.stats) : l.undo.stats.NoMoreThan l'.undo.stats :=
  ⟨Nat.succ_le_succ h.iterations, h.lifts, Nat.succ_le_succ h.backtracks⟩

theorem le_tick (h : a.NoMoreThan l.stats) : a.NoMoreThan l.tick.stats :=
  ⟨Nat.le_succ_of_le h.iterations, h.lifts, h.backtracks⟩

theorem le_lift (h : a.NoMoreThan l.stats) (depth : Nat) : a.NoMoreThan (l.lift depth).stats :=
  ⟨h.iterations, Nat.le_succ_of_le h.lifts, h.backtracks⟩

theorem le_reject (h : a.NoMoreThan l.stats) : a.NoMoreThan l.reject.stats :=
  ⟨h.iterations, h.lifts, h.backtracks⟩

theorem le_undo (h : a.NoMoreThan l.stats) : a.NoMoreThan l.undo.stats :=
  ⟨Nat.le_succ_of_le h.iterations, h.lifts, Nat.le_succ_of_le h.backtracks⟩

end Stats.NoMoreThan

namespace History

variable {Op State : Type} [Specification State Op]

theorem kept_noMoreThan (h : History Op) (path : List Nat) (s : State) (a : Stats) :
    h.Kept path s fun l => a.NoMoreThan l.stats where
  tick := (·.le_tick)
  pass _ hl := hl
  note _ hl := hl
  reject := (·.le_reject)
  lift depth hl := hl.le_lift depth
  undo := (·.le_undo)

/-! ## One memo ahead of another -/

/-- At a path of `depth` calls the first memo is ahead of the second. -/
inductive Ahead (h : History Op) (depth : Nat) : Memo State → Memo State → Prop where
  | alone {memo : Memo State} : h.Sound memo depth → Ahead h depth memo .disabled
  | fuller {memo memo' : Memo State} : memo.Retentive → h.Closed memo depth →
    (∀ c, memo'.Knows c → memo.Knows c) → Ahead h depth memo memo'

section

variable {h : History Op} {depth : Nat} {memo memo' : Memo State}

theorem Ahead.sound (ha : h.Ahead depth memo memo') : h.Sound memo depth := by
  cases ha with
  | alone hs => exact hs
  | fuller _ hc _ => exact hc.sound

theorem Ahead.knows (ha : h.Ahead depth memo memo') {c : Configuration State}
    (hk : memo'.Knows c) : memo.Knows c := by
  cases ha with
  | alone => cases hk
  | fuller _ _ hsub => exact hsub c hk

theorem Ahead.sound_second (ha : h.Ahead depth memo memo') : h.Sound memo' depth :=
  fun c hk => ha.sound c (ha.knows hk)

end

section Lawful

variable [LawfulSpecification State] {h : History Op} {depth : Nat} {memo memo' : Memo State}
  {path : List Nat} {s : State}

theorem Ahead.note (ha : h.Ahead depth memo memo') (hp : h.IsPath path)
    (hlen : path.length = depth + 1) :
    h.Ahead (depth + 1) (memo.note (h.configuration path s)).2
      (memo'.note (h.configuration path s)).2 := by
  cases ha with
  | alone hs => exact .alone (hs.note hp hlen)
  | fuller hm hc hsub =>
    refine .fuller (hm.note _) (hc.note hm hp hlen) fun c hk => hm.knows_note_iff.mpr ?_
    exact (Memo.knows_of_note hk).imp_right (hsub c)

variable [Operation Op] (hw : h.WellPaired)

include hw

theorem Ahead.note_known (ha : h.Ahead depth memo memo') (hp : h.IsPath path)
    (hlen : depth < path.length) (hk : memo.Knows (h.configuration path s)) :
    h.Ahead depth (memo.note (h.configuration path s)).2
      (memo'.note (h.configuration path s)).2 := by
  cases ha with
  | alone hs => exact .alone (hs.of_learns (learns_note hp (hs.stuck hw hp hlen hk)))
  | fuller hm hc hsub =>
    obtain ⟨hst, hcov⟩ := hc.covers hw hp hlen hk
    have hcov' := hcov.mono fun _ hkc => hm.knows_note_iff (c := h.configuration path s).mpr (.inr hkc)
    refine .fuller (hm.note _) (hc.of_fills (.of_note hm hp hst hcov' (Fills.refl h _))) ?_
    exact fun c hk => hm.knows_note_iff.mpr ((Memo.knows_of_note hk).imp_right (hsub c))

theorem Ahead.explore_known {l : Ledger State} (ha : h.Ahead depth memo l.memo)
    (hp : h.IsPath path) (hlen : depth < path.length)
    (hk : memo.Retentive → memo.Knows (h.configuration path s)) (calls : Nat) :
    h.Ahead depth memo (h.explore calls path s l).ledger.memo := by
  generalize hm' : l.memo = memo' at ha
  cases ha with
  | alone hs =>
    exact explore_disabled (s := s) hp calls hm' ▸ .alone hs
  | fuller hm hc hsub =>
    have hcov := (hc.covers hw hp hlen (hk hm)).2
    refine .fuller hm hc (explore_memo_kept (P := fun m => ∀ c, m.Knows c → memo.Knows c) hp calls
      (fun hl hsub c hk => ?_) (hm' ▸ hsub))
    exact (Memo.knows_of_note hk).elim (hcov _ _ hl).congr (hsub c)

theorem Ahead.back {l l' : Ledger State} (ha : h.Ahead depth memo memo') (hp : h.IsPath path)
    (hlen : path.length = depth + 1) {calls : Nat} (hleft : (h.left path).length = calls)
    (hl : l.memo = (memo.note (h.configuration path s)).2)
    (hl' : l'.memo = (memo'.note (h.configuration path s)).2) {m m' : Ledger State}
    (he : h.explore calls path s l = .blocked m) (he' : h.explore calls path s l' = .blocked m')
    (hahead : h.Ahead (depth + 1) m.memo m'.memo) : h.Ahead depth m.memo m'.memo := by
  have hs : h.Sound l.memo path.length := by
    rw [hl, hlen]
    exact ha.sound.note hp hlen
  obtain ⟨hst, hlearns⟩ : h.Settles path s l.memo (.blocked m) :=
    he ▸ explore_settles hw hp hleft s hs
  have hm : m = (h.explore calls path s l).ledger := by rw [he]; rfl
  have hm' : m' = (h.explore calls path s l').ledger := by rw [he']; rfl
  cases ha with
  | alone hs =>
    have hd : m'.memo = .disabled := hm' ▸ explore_disabled hp calls hl'
    exact hd ▸ .alone (hs.of_learns ((learns_note hp hst).trans (hl ▸ hlearns)))
  | fuller hr hc _ =>
    have hr' : l.memo.Retentive := hl ▸ hr.note _
    have hk : l.memo.Knows (h.configuration path s) := hl ▸ hr.knows_note_iff.mpr (.inl BEq.rfl)
    have hc' : h.Closed l.memo path.length := by
      rw [hl, hlen]
      exact hc.note hr hp hlen
    obtain ⟨hcov, hf⟩ : h.Saturates path s l.memo (.blocked m) :=
      he ▸ explore_saturates hw hp hleft hr' hk hc'
    have hkept : m.memo.Retentive := hm ▸ explore_retentive hp calls hr'
    exact .fuller hkept (hc.of_fills (.of_note hr hp hst hcov (hl ▸ hf))) fun _ => hahead.knows

/-- The other memo takes for new what the first one knows: its exploration comes back, and the first
memo knows all that the other was told below. -/
theorem Ahead.known {l : Ledger State} (ha : h.Ahead depth memo memo') (hp : h.IsPath path)
    (hlen : path.length = depth + 1) {calls : Nat} (hleft : (h.left path).length = calls)
    (hk : memo.Knows (h.configuration path s))
    (hl : l.memo = (memo'.note (h.configuration path s)).2) :
    ∃ m, h.explore calls path s l = .blocked m ∧ l.stats.NoMoreThan m.stats ∧
      h.Ahead depth (memo.note (h.configuration path s)).2 m.memo := by
  have hlt : depth < path.length := by omega
  have hs : h.Sound l.memo path.length := by
    rw [hl, hlen]
    exact ha.sound_second.note hp hlen
  have hsettles := explore_settles hw hp hleft s hs
  have hstats := explore_kept hp (h.kept_noMoreThan path s l.stats) calls (.refl l.stats)
  have hahead := ha.note_known hw hp hlt hk
  rw [← hl] at hahead
  have hahead := hahead.explore_known hw hp hlt (fun hm => hm.knows_noted) calls
  cases he : h.explore calls path s l with
  | complete order m =>
    rw [he] at hsettles
    obtain ⟨tail, _, hleast⟩ := hsettles
    exact absurd hleast.1 (ha.sound.stuck hw hp hlt hk tail)
  | blocked m =>
    rw [he] at hstats hahead
    exact ⟨m, rfl, hstats, hahead⟩

end Lawful

/-! ## Two explorations -/

/-- The first of two explorations of a path comes to the same end with no more work. -/
inductive Outruns (h : History Op) (depth : Nat) : Exploration State → Exploration State → Prop where
  | complete {order order' : List Nat} {l l' : Ledger State} : l.stats.NoMoreThan l'.stats →
    Outruns h depth (.complete order l) (.complete order' l')
  | blocked {l l' : Ledger State} : l.stats.NoMoreThan l'.stats → h.Ahead depth l.memo l'.memo →
    Outruns h depth (.blocked l) (.blocked l')

theorem Outruns.closing {h : History Op} {depth : Nat} {e e' : Exploration State}
    (ho : h.Outruns depth e e') : e.closing.stats.NoMoreThan e'.closing.stats := by
  cases ho with
  | complete hl => exact hl
  | blocked hl => exact hl.tick

section Lawful

variable [LawfulSpecification State] [Operation Op] {h : History Op} {path : List Nat} {s : State}
  (hw : h.WellPaired)

include hw

theorem scan_outruns {calls : Nat} (hp : h.IsPath path) (hlen : (h.left path).length = calls + 1)
    (hbelow : ∀ i ∈ h.front path, ∀ (next : State) {l l' : Ledger State},
      l.stats.NoMoreThan l'.stats → h.Ahead (path.length + 1) l.memo l'.memo →
      h.Outruns (path.length + 1) (h.explore calls (path ++ [i]) next l)
        (h.explore calls (path ++ [i]) next l'))
    {passed ahead : List Nat} (hrest : h.rest path = passed ++ ahead)
    (hpassed : ∀ c ∈ passed, h.isCallAt c = true) {l l' : Ledger State}
    (hl : l.stats.NoMoreThan l'.stats) (ha : h.Ahead path.length l.memo l'.memo) :
    h.Outruns path.length (h.scan (h.explore calls) path s ahead l)
      (h.scan (h.explore calls) path s ahead l') := by
  induction ahead generalizing passed l l' with
  | nil => exact .blocked hl ha
  | cons i ahead ih =>
    cases hi : h.isCallAt i with
    | false =>
      rw [scan_ret hi, scan_ret hi]
      exact .blocked hl ha
    | true =>
      obtain ⟨hsplit, hcalls, hfront⟩ := passed_snoc hrest hpassed hi
      have hpi : h.IsPath (path ++ [i]) := hp.snoc hfront
      have hdepth : (path ++ [i]).length = path.length + 1 := by simp
      have hleft := length_left_snoc hlen hfront
      cases hn : h.next? s i with
      | none =>
        rw [scan_refused hi hn, scan_refused hi hn]
        exact ih hsplit hcalls hl.tick ha
      | some next =>
        cases hnew : (l.memo.note (h.configuration (path ++ [i]) next)).1 with
        | false =>
          have hk := Memo.knows_of_note_rejects hnew
          rw [scan_known hi hn (Prod.ext hnew rfl)]
          cases hnew' : (l'.memo.note (h.configuration (path ++ [i]) next)).1 with
          | false =>
            rw [scan_known hi hn (Prod.ext hnew' rfl)]
            exact ih hsplit hcalls hl.tick.le_reject.reject_le (ha.note_known hw hpi (by omega) hk)
          | true =>
            -- only the second exploration goes below `i`
            obtain ⟨m, he, hle, hahead⟩ := ha.known hw hpi hdepth hleft hk
              (l := (l'.tick.note (h.configuration (path ++ [i]) next)).2.lift (path.length + 1)) rfl
            rw [scan_novel hi hn (Prod.ext hnew' rfl), he]
            exact ih hsplit hcalls ((hl.tick.le_lift _).trans hle).le_undo.reject_le hahead
        | true =>
          have hnew' : (l'.memo.note (h.configuration (path ++ [i]) next)).1 = true := by
            by_contra hne
            have hk := ha.knows (Memo.knows_of_note_rejects (Bool.eq_false_iff.mpr hne))
            rw [Memo.note_fst_of_knows hk] at hnew
            cases hnew
          rw [scan_novel hi hn (Prod.ext hnew rfl), scan_novel hi hn (Prod.ext hnew' rfl)]
          -- the ledgers with which both go below `i`
          generalize hm : (l.tick.note (h.configuration (path ++ [i]) next)).2.lift
            (path.length + 1) = m
          generalize hm' : (l'.tick.note (h.configuration (path ++ [i]) next)).2.lift
            (path.length + 1) = m'
          have hstats : m.stats.NoMoreThan m'.stats := by
            rw [← hm, ← hm']
            exact hl.tick.lift _
          have hmemo : m.memo = (l.memo.note (h.configuration (path ++ [i]) next)).2 := by
            rw [← hm]; rfl
          have hmemo' : m'.memo = (l'.memo.note (h.configuration (path ++ [i]) next)).2 := by
            rw [← hm']; rfl
          have hahead : h.Ahead (path.length + 1) m.memo m'.memo := by
            rw [hmemo, hmemo']
            exact ha.note hpi hdepth
          have hb := hbelow i hfront next hstats hahead
          generalize he : h.explore calls (path ++ [i]) next m = e at hb ⊢
          generalize he' : h.explore calls (path ++ [i]) next m' = e' at hb ⊢
          cases hb with
          | complete hle => exact .complete hle
          | blocked hle hahead =>
            have hback := ha.back hw hpi hdepth hleft hmemo hmemo' he he' hahead
            exact ih hsplit hcalls hle.undo hback

theorem explore_outruns {calls : Nat} (hp : h.IsPath path) (hlen : (h.left path).length = calls)
    {l l' : Ledger State} (hl : l.stats.NoMoreThan l'.stats)
    (ha : h.Ahead path.length l.memo l'.memo) :
    h.Outruns path.length (h.explore calls path s l) (h.explore calls path s l') := by
  induction calls generalizing path s l l' with
  | zero => exact .complete hl
  | succ calls ih =>
    refine scan_outruns hw hp hlen ?_ (List.nil_append _).symm (by simp) hl ha
    intro i hi next l l' hl ha
    have hb := ih (s := next) (hp.snoc hi) (length_left_snoc hlen hi) hl (by simpa using ha)
    rwa [List.length_append] at hb

end Lawful

theorem ahead_of_always {h : History Op} {config : Config} {memo memo' : Memo State}
    (hpolicy : config.memo = .always) (hmemo : Memo.ofConfig config = .ok memo)
    (hnone : ∀ c, ¬ memo'.Knows c) : h.Ahead 0 memo memo' := by
  have hknows := Memo.not_knows_ofConfig hmemo
  refine .fuller ?_ (fun c hk => absurd hk (hknows c)) fun c hk => absurd hk (hnone c)
  rw [Memo.ofConfig, hpolicy] at hmemo
  cases hmemo
  exact ⟨_, rfl⟩

theorem ahead_of_disabled {h : History Op} {config : Config} {memo memo' : Memo State}
    (hpolicy : config.memo = .disabled) (hmemo' : Memo.ofConfig config = .ok memo')
    (hnone : ∀ c, ¬ memo.Knows c) : h.Ahead 0 memo memo' := by
  rw [Memo.ofConfig, hpolicy] at hmemo'
  cases hmemo'
  exact .alone fun c hk => absurd hk (hnone c)

end History

namespace Tester

variable {Op State : Type} [Specification State Op] [Operation Op] [LawfulSpecification State]

variable (State) in
theorem noMoreThan_of_ahead {h : History Op} (hw : h.WellPaired) (config config' : Config)
    (hcap : config.lruCapacity ≠ 0) (hcap' : config'.lruCapacity ≠ 0)
    (htime : config.timeout = none) (htime' : config'.timeout = none)
    (hahead : ∀ {memo memo' : Memo State}, Memo.ofConfig config = .ok memo →
      Memo.ofConfig config' = .ok memo' → h.Ahead 0 memo memo')
    (stats : Stats) (clock clock' : Clock) (r r' : CheckResult) :
    ∃ (after after' : Tester State Op) (result result' : CheckResult),
      (⟨h, config, stats⟩ : Tester State Op).checkInto clock r = (.ok after, result) ∧
      (⟨h, config', stats⟩ : Tester State Op).checkInto clock' r' = (.ok after', result') ∧
      after.stats.NoMoreThan after'.stats := by
  let one : Tester State Op := ⟨h, config, stats⟩
  let other : Tester State Op := ⟨h, config', stats⟩
  obtain ⟨memo, hmemo, hcheck⟩ := checkInto_explore (t := one) hw hcap htime clock r
  obtain ⟨memo', hmemo', hcheck'⟩ := checkInto_explore (t := other) hw hcap' htime' clock' r'
  refine ⟨_, _, _, _, hcheck, hcheck', ?_⟩
  exact (History.explore_outruns hw .nil hw.length_left_nil (.refl stats)
    (hahead hmemo hmemo')).closing

/-- A memo saves iterations, lifts and backtracks, and one that forgets nothing saves the most. -/
theorem checkInto_saves {h : History Op} (hc : h.Complete) (config : Config)
    (hcap : 0 < config.lruCapacity) (htime : config.timeout = none) (stats : Stats)
    (clock clock' clock'' : Clock) (r r' r'' : CheckResult) :
    ∃ (always lru disabled : Tester State Op) (result result' result'' : CheckResult),
      (⟨h, { config with memo := .always }, stats⟩ : Tester State Op).checkInto clock r =
        (.ok always, result) ∧
      (⟨h, { config with memo := .lru }, stats⟩ : Tester State Op).checkInto clock' r' =
        (.ok lru, result') ∧
      (⟨h, { config with memo := .disabled }, stats⟩ : Tester State Op).checkInto clock'' r'' =
        (.ok disabled, result'') ∧
      always.stats.NoMoreThan lru.stats ∧ lru.stats.NoMoreThan disabled.stats := by
  have hcap : config.lruCapacity ≠ 0 := (UInt64.pos_iff_ne_zero.mp hcap)
  obtain ⟨always, lru, result, result', halways, hlru, hle⟩ :=
    noMoreThan_of_ahead State hc.wellPaired { config with memo := .always }
      { config with memo := .lru } hcap hcap htime htime
      (fun hmemo hmemo' => History.ahead_of_always rfl hmemo (Memo.not_knows_ofConfig hmemo'))
      stats clock clock' r r'
  obtain ⟨lru', disabled, _, result'', hlru', hdisabled, hle'⟩ :=
    noMoreThan_of_ahead State hc.wellPaired { config with memo := .lru }
      { config with memo := .disabled } hcap hcap htime htime
      (fun hmemo hmemo' => History.ahead_of_disabled rfl hmemo' (Memo.not_knows_ofConfig hmemo))
      stats clock' clock'' r' r''
  rw [hlru] at hlru'
  cases hlru'
  exact ⟨always, lru, disabled, result, result', result'', halways, hlru, hdisabled, hle, hle'⟩

theorem checkInto_saves_inventedLookup :
    (History.ofLog inventedLookup).Complete ∧
    ∃ (always lru disabled : Tester ByteSet ByteSet.Op) (result result' result'' : CheckResult),
      (⟨History.ofLog inventedLookup, { memo := .always, lruCapacity := 2 }, {}⟩ :
        Tester ByteSet ByteSet.Op).checkInto .frozen {} = (.ok always, result) ∧
      (⟨History.ofLog inventedLookup, { memo := .lru, lruCapacity := 2 }, {}⟩ :
        Tester ByteSet ByteSet.Op).checkInto .frozen {} = (.ok lru, result') ∧
      (⟨History.ofLog inventedLookup, { memo := .disabled, lruCapacity := 2 }, {}⟩ :
        Tester ByteSet ByteSet.Op).checkInto .frozen {} = (.ok disabled, result'') ∧
      always.stats.NoMoreThan lru.stats ∧ lru.stats.NoMoreThan disabled.stats :=
  have hc := History.complete_ofLog inventedLookup_complete
  ⟨hc, checkInto_saves hc { lruCapacity := 2 } (by decide) rfl {} .frozen .frozen .frozen {} {} {}⟩

end Tester

end Linearizability
