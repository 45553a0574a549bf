import Linearizability.Proofs.Search.Ending
import Linearizability.Search.Tester

/-!
# What a check leaves

Whatever the specification, a search without a time limit ends where the
recursion does, and within its bound. A check reports the path, the cutoff
and the entries that are left there. With a time limit the search may stop
before that, at a place that keeps the invariant.
-/

namespace Linearizability

namespace Exploration

variable {State : Type} [BEq State] [Hashable State]

def order : Exploration State → List Nat
  | .complete order _ => order
  | .blocked _ => []

def ending : Exploration State → Ending
  | .complete .. => .complete
  | .blocked _ => .exhausted

/-- The ledger in the end. The iteration that finds no lift to undo counts too. -/
def closing : Exploration State → Ledger State
  | .complete _ l => l
  | .blocked l => l.tick

theorem ending_ne_expired (e : Exploration State) :
    (e.ending == .expired) = false := by
  cases e <;> rfl

theorem iterations_closing_le (e : Exploration State) :
    e.closing.stats.iterations ≤ e.cost := by
  cases e <;> simp [closing, cost, Ledger.tick]

end Exploration

variable {Op State : Type} [Specification State Op]

def History.exploreAll (h : History Op) (l : Ledger State) : Exploration State :=
  h.explore h.calls [] Specification.init l

namespace Search

structure Fresh (h : History Op) (s : Search State) : Prop where
  position : s.At h (h.rest [])
  stack : s.stack = []
  state : s.state = Specification.init
  memo : ∀ c, ¬ s.memo.Knows c

variable [Operation Op] {h : History Op} (hw : h.WellPaired)

include hw

variable (State) in
theorem exists_fresh {config : Config} (hcap : config.lruCapacity ≠ 0) (stats : Stats) :
    ∃ (memo : Memo State) (s : Search State), Memo.ofConfig config = .ok memo ∧ s.Fresh h ∧
      s.ledger = ⟨memo, 0, stats⟩ ∧
      (WorkingList.ofHistory h >>= fun list => start h list config stats) = .ok s := by
  obtain ⟨memo, hmemo⟩ : ∃ memo : Memo State, Memo.ofConfig config = .ok memo :=
    Memo.exists_ofConfig hcap
  obtain ⟨w, hlist, hs⟩ := (History.IsPath.nil (h := h)).exists_listAt hw
  have hfirst : WorkingList.ofHistory h = .ok w := by
    cases hf : WorkingList.ofHistory h with
    | error f =>
      rw [History.listAt, hf] at hlist
      cases hlist
    | ok w' =>
      rw [History.listAt, hf] at hlist
      exact hlist
  refine ⟨memo, {
    list := w
    stack := []
    depth := 0
    linearized := .ofMaxPos h.calls
    memo
    state := Specification.init
    cursor := (h.rest []).headD w.head
    cutoff := 0
    stats }, hmemo, ⟨?_, rfl, rfl, Memo.not_knows_ofConfig hmemo⟩, rfl, ?_⟩
  · exact ⟨.nil, hlist, trivial, rfl, rfl, rfl, ⟨[], rfl, by simp⟩, rfl⟩
  · rw [hfirst]
    simp only [bind, Except.bind, start, hmemo, hs.circle.first]
    rfl

theorem At.depth_eq_calls_iff {s : Search State} {ahead : List Nat} (ha : s.At h ahead) :
    s.stack.length = h.calls ↔ h.rest s.path = [] := by
  have hlen := ha.path.length_left
  rw [hw.length_left_nil] at hlen
  have hstack : s.path.length = s.stack.length := by simp [Search.path]
  rw [hw.rest_eq_nil_iff, ← List.length_eq_zero_iff]
  omega

theorem At.depth_le_calls {s : Search State} {ahead : List Nat} (ha : s.At h ahead) :
    s.stack.length ≤ h.calls := by
  have hlen := ha.path.length_left
  rw [hw.length_left_nil] at hlen
  have hstack : s.path.length = s.stack.length := by simp [Search.path]
  omega

theorem At.remaining {s : Search State} {ahead : List Nat} (ha : s.At h ahead) :
    s.list.remaining = h.rest s.path :=
  (ha.shows hw).remaining

theorem Fresh.follows {s : Search State} (hs : s.Fresh h) : s.Follows h (h.exploreAll s.ledger) := by
  have hpath : s.path = [] := by simp [Search.path, hs.stack]
  have hf := explore_follows hw hs.position hpath hw.length_left_nil
  rwa [hs.state] at hf

theorem Fresh.exists_last {s : Search State} (hs : s.Fresh h) :
    ∃ n last ahead, s.Reaches h n last ∧ last.At h ahead ∧ (∀ s', ¬ last.Reaches h 1 s') ∧
      last.path = (h.exploreAll s.ledger).order ∧ (h.exploreAll s.ledger).closing =
        if (h.rest last.path).isEmpty then last.ledger else last.ledger.tick := by
  have hfollows := hs.follows hw
  cases he : h.exploreAll s.ledger with
  | complete order l =>
    rw [he] at hfollows
    obtain ⟨n, last, hr, ha, hp, rfl, _⟩ := hfollows
    have hrest : h.rest last.path = [] := by
      by_contra hne
      obtain ⟨_, _, he⟩ := ha.exists_cons hw hne
      cases he
    refine ⟨n, last, [], hr, ha, fun s' hr' => ?_, hp, by rw [hrest]; rfl⟩
    have hempty := (reaches_one_iff.mp hr').1
    rw [ha.isEmpty hw, hrest] at hempty
    cases hempty
  | blocked l =>
    rw [he] at hfollows
    obtain ⟨n, last, ret, ahead, hr, ha, hret, hstack, _, rfl, _⟩ := hfollows
    rw [hs.stack] at hstack
    have hrest : (h.rest last.path).isEmpty = false := by
      obtain ⟨passed, hrest, _⟩ := ha.behind
      simp [hrest]
    refine ⟨n, last, ret :: ahead, hr, ha, fun s' hr' => ?_, by rw [Search.path, hstack]; rfl,
      by rw [hrest]; rfl⟩
    have hstep := (reaches_one_iff.mp hr').2
    rw [ha.step_exhausted hw hret hstack] at hstep
    cases hstep

/-- A fresh search without a time limit ends as the recursion does. -/
theorem Fresh.run_explore {s : Search State} (hs : s.Fresh h) {d : Deadline} (hd : d.limit = none)
    {limit : Nat} (hlimit : bound h.calls ≤ limit) (look : Nat) :
    ∃ s' ahead, s.run h d limit look = .ok (s', some (h.exploreAll s.ledger).ending) ∧
      s'.At h ahead ∧ s'.path = (h.exploreAll s.ledger).order ∧
      s'.ledger = (h.exploreAll s.ledger).closing := by
  have hcalls := hw.length_left_nil
  have hcost : (h.exploreAll s.ledger).cost ≤ s.stats.iterations + limit :=
    (History.explore_cost (le_of_eq hcalls) Specification.init s.ledger).trans
      (Nat.add_le_add_left hlimit _)
  have hfollows := hs.follows hw
  cases he : h.exploreAll s.ledger with
  | complete order l =>
    rw [he] at hfollows hcost
    simp only [Exploration.cost] at hcost
    obtain ⟨s', hrun, ha, hp, hl⟩ := hfollows.run_complete hw hd hcost look
    exact ⟨s', [], hrun, ha, hp, hl⟩
  | blocked l =>
    rw [he] at hfollows hcost
    simp only [Exploration.cost] at hcost
    exact hfollows.run_exhausted hw hd hs.stack (by omega) look

/-- With any time limit a fresh search comes to an end, at a place that keeps the invariant. It
expires, or it ends as the recursion does. -/
theorem Fresh.exists_ending {s : Search State} (hs : s.Fresh h) (d : Deadline) :
    ∃ s' e ahead, s.runToEnd h d = .ok (s', e) ∧ s'.At h ahead ∧
      (e = .complete ↔ h.rest s'.path = []) ∧
      (e = .expired ∧ d.limit ≠ none ∨ e = (h.exploreAll s.ledger).ending ∧
        s'.path = (h.exploreAll s.ledger).order ∧ s'.ledger = (h.exploreAll s.ledger).closing) := by
  have hlimit : bound h.calls ≤ firstLimit + bound h.calls := Nat.le_add_left _ _
  rw [runToEnd_eq]
  generalize firstLimit + bound h.calls = limit at hlimit
  rcases run_eq_or_expired h d ⟨d.clock, none⟩ rfl limit 0 0 s with heq | ⟨s', hexpired⟩
  · obtain ⟨s', ahead, hrun, ha, hends⟩ := hs.run_explore hw (d := ⟨d.clock, none⟩) rfl hlimit 0
    obtain ⟨_, _, _, hrun', _, hcomplete⟩ := hs.position.run_at hw d limit 0
    rw [← heq] at hrun
    rw [hrun] at hrun'
    cases hrun'
    exact ⟨s', _, ahead, by rw [hrun]; rfl, ha, hcomplete _ rfl, .inr ⟨rfl, hends⟩⟩
  · obtain ⟨_, _, ahead, hrun, ha, hcomplete⟩ := hs.position.run_at hw d limit 0
    rw [hexpired] at hrun
    cases hrun
    refine ⟨s', .expired, ahead, by rw [hexpired]; rfl, ha, hcomplete _ rfl,
      .inl ⟨rfl, fun hd => ?_⟩⟩
    obtain ⟨_, _, hfree, _⟩ := hs.run_explore hw hd hlimit 0
    rw [hexpired] at hfree
    cases he : h.exploreAll s.ledger <;> (rw [he] at hfree; cases hfree)

end Search

/-! ## Results -/

theorem Config.capacity_of_validate {config : Config} (hvalid : config.validate = .ok ()) :
    config.lruCapacity ≠ 0 := by
  intro h0
  simp [validate, h0] at hvalid

def CheckResult.ofSearch (h : History Op) (s : Search State) : CheckResult where
  linearizable := (h.rest s.path).isEmpty
  witness := s.path
  cutoff := s.cutoff
  remaining := h.rest s.path
  memory := MemoryUsage.max {} .sample

def CheckResult.ofExploration (h : History Op) (e : Exploration State) : CheckResult where
  linearizable := (h.rest e.order).isEmpty
  witness := e.order
  cutoff := e.closing.cutoff
  remaining := h.rest e.order
  memory := MemoryUsage.max {} .sample

namespace Tester

variable [Operation Op] {t : Tester State Op} (hw : t.history.WellPaired)

include hw

theorem conclude_eq {s : Search State} {ahead : List Nat} (ha : s.At t.history ahead) (e : Ending)
    (r : CheckResult) :
    t.conclude r s e = .ok { r with
      linearizable := (t.history.rest s.path).isEmpty
      isTimeout := e == .expired
      witness := s.path
      cutoff := s.cutoff
      remaining := t.history.rest s.path
      memory := r.memory.max .sample } := by
  have hs := ha.shows hw
  have hdepth : (s.stack.length == t.history.calls) = (t.history.rest s.path).isEmpty := by
    rw [Bool.eq_iff_iff, beq_iff_eq, ha.depth_eq_calls_iff hw, List.isEmpty_iff]
  have hwitness : (s.stack.reverse.mapM fun frame =>
      (s.list.node frame.call).map (·.entry)) = .ok s.path := by
    rw [Search.path, ← List.map_reverse]
    apply History.mapM_eq_ok
    intro frame hframe
    have hmem : frame.call ∈ s.path := by
      rw [Search.path, ← List.map_reverse]
      exact List.mem_map_of_mem hframe
    have hcall := ha.path.isCallAt hmem
    obtain ⟨n, hn, hne⟩ := hs.exists_entry (History.WellPaired.lt_size_of_isCallAt hcall)
    rw [WorkingList.node_eq_ok hn]
    exact congrArg Except.ok hne
  unfold conclude
  simp only [hdepth, ha.isEmpty hw, bind, Except.bind, bne_self_eq_false, Bool.and_false,
    Bool.false_eq_true, if_false, hwitness, ha.remaining hw]
  rfl

theorem checkInto_ending (hcap : t.config.lruCapacity ≠ 0) (clock : Clock) (r : CheckResult) :
    ∃ (first last : Search State) (e : Ending) (ahead : List Nat), first.Fresh t.history ∧
      Memo.ofConfig t.config = .ok first.memo ∧ first.ledger = ⟨first.memo, 0, t.stats⟩ ∧
      last.At t.history ahead ∧
      (e = .complete ↔ t.history.rest last.path = []) ∧
      (e = .expired ∧ t.config.timeout ≠ none ∨
        e = (t.history.exploreAll first.ledger).ending ∧
        last.path = (t.history.exploreAll first.ledger).order ∧
        last.ledger = (t.history.exploreAll first.ledger).closing) ∧
      t.checkInto clock r = (.ok { t with stats := last.stats },
        { CheckResult.ofSearch t.history last with isTimeout := e == .expired }) := by
  obtain ⟨memo, first, hmemo, hfirst, hledger, hstart⟩ := Search.exists_fresh State hw hcap t.stats
  obtain ⟨last, e, ahead, hrun, ha, hcomplete, hend⟩ :=
    hfirst.exists_ending hw ⟨clock, t.config.timeout⟩
  have hfound : memo = first.memo := congrArg Ledger.memo hledger.symm
  have hsearch : t.search clock = .ok (last, e) := by
    rw [search, ← bind_assoc, hstart]
    exact hrun
  refine ⟨first, last, e, ahead, hfirst, hfound ▸ hmemo, hfound ▸ hledger, ha, hcomplete, hend, ?_⟩
  simp only [checkInto, hsearch, conclude_eq hw ha]
  rfl

/-- A check without a time limit reports where the recursion ends. -/
theorem checkInto_explore (hcap : t.config.lruCapacity ≠ 0) (htime : t.config.timeout = none)
    (clock : Clock) (r : CheckResult) :
    ∃ memo : Memo State, Memo.ofConfig t.config = .ok memo ∧
      t.checkInto clock r =
        (.ok { t with stats := (t.history.exploreAll ⟨memo, 0, t.stats⟩).closing.stats },
          .ofExploration t.history (t.history.exploreAll ⟨memo, 0, t.stats⟩)) := by
  obtain ⟨first, last, e, _, _, hmemo, hledger, _, _, hend, hcheck⟩ :=
    checkInto_ending hw hcap clock r
  obtain ⟨rfl, hpath, hlast⟩ := hend.resolve_left fun hx => hx.2 htime
  have hending := (t.history.exploreAll first.ledger).ending_ne_expired
  have hcutoff : last.cutoff = (t.history.exploreAll first.ledger).closing.cutoff :=
    congrArg Ledger.cutoff hlast
  have hstats : last.stats = (t.history.exploreAll first.ledger).closing.stats :=
    congrArg Ledger.stats hlast
  refine ⟨first.memo, hmemo, ?_⟩
  rw [← hledger, hcheck]
  simp only [CheckResult.ofSearch, hending, hpath, hcutoff, hstats]
  rfl

end Tester

end Linearizability
