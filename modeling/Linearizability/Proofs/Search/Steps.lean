import Linearizability.Proofs.Search.Invariant

/-!
# The moves of the search

An iteration at a call tries it, and then skips or lifts it. An iteration at
a return undoes the last lift, if there is one. Every move keeps the
invariant and changes the ledger as the recursion does.
-/

namespace Linearizability.Search

variable {Op State : Type} [Specification State Op]

/-- An accepted call is lifted unless the memo rejects its configuration. -/
def settle (s : Search State) (n : Node) (next : State) : Bool × Ledger State →
    Except Fault (Search State)
  | (true, l) => (s.withLedger l).lift n next
  | (false, l) => (s.withLedger l.reject).skip n

variable [Operation Op] {h : History Op} (hw : h.WellPaired) {s : Search State} {i : Nat}
  {ahead : List Nat}

include hw

omit [Operation Op] hw in
theorem tryCall_eq {n m : Node} {call ret : Entry Op}
    (hfresh : s.linearized.contains n.entryId = false)
    (hroom : Bitset.blockIndex n.entryId < s.linearized.blocks.size)
    (hcall : h.entries[n.entry]? = some call)
    (hm : s.list.nodes[n.matched]? = some m) (hret : h.entries[m.entry]? = some ret) :
    s.tryCall h n =
      let effect := Specification.apply s.state call.op ret.op
      if effect.accepted then
        s.settle n effect.next (s.ledger.note ⟨s.linearized.put n.entryId, effect.next⟩)
      else s.skip n := by
  obtain ⟨list, stack, depth, linearized, memo, state, cursor, cutoff, stats⟩ := s
  simp only [tryCall, hfresh, Bool.false_eq_true, if_false, History.entry, hcall,
    WorkingList.node_eq_ok hm, bind, Except.bind, hret, Memo.remember_eq_note hroom]
  simp only [ledger, Ledger.note]
  generalize memo.note _ = answer
  obtain ⟨novel, memo⟩ := answer
  cases novel <;> rfl

theorem At.step_call (ha : s.At h (i :: ahead)) (hi : h.isCallAt i = true) :
    ∃ n, n.bare = h.bareNode i ∧ s.list.nodes[i]? = some n ∧ n.next = ahead.headD s.list.head ∧
      s.step h = Move.on <$>
        match h.next? s.state i with
        | none => (s.withLedger s.ledger.tick).skip n
        | some next =>
          s.settle n next (s.ledger.tick.note (h.configuration (s.path ++ [i]) next)) := by
  obtain ⟨n, hn, hb, hnext⟩ := ha.exists_node hw
  have hs := ha.shows hw
  have hlt := History.WellPaired.lt_size_of_isCallAt hi
  obtain ⟨call, ret, hcall, hret, hmatched, _⟩ := hw.exists_halves hlt
  obtain ⟨m, hm, hmb⟩ := Option.map_eq_some_iff.mp (hs.bare _ (hw.mate_lt hlt))
  have hid : n.entryId = h.idAt i := congrArg Node.entryId hb
  have hentry : n.entry = i := congrArg Node.entry hb
  have hisCall : n.isCall = true := (congrArg Node.isCall hb).trans hi
  have hmate : n.matched = h.mate i := congrArg Node.matched hb
  have hmentry : m.entry = h.mate i := congrArg Node.entry hmb
  have hfresh : s.linearized.contains n.entryId = false := by
    rw [ha.linearized, hid, ← Bool.not_eq_true, ha.path.contains_marks hw hi]
    exact (History.mem_left.mp (History.front_subset_left (ha.mem_front hi))).2
  have hroom : Bitset.blockIndex n.entryId < s.linearized.blocks.size := by
    rw [ha.linearized, hid]
    exact hw.blockIndex_lt hi s.path
  have hmarks : s.linearized.put n.entryId = h.marks (s.path ++ [i]) := by
    rw [History.marks_snoc, ha.linearized, hid]
  have hnext? : h.next? s.state i = if (Specification.apply s.state call.op ret.op).accepted
      then some (Specification.apply s.state call.op ret.op).next else none := by
    simp [History.next?, History.halves?, hcall, hmatched, hret]
  have htry := tryCall_eq (h := h) (s := s.withLedger s.ledger.tick)
    hfresh hroom (hentry ▸ hcall) (hmate ▸ hm) (hmentry ▸ hret)
  have hnode : s.list.node s.cursor = .ok n :=
    (congrArg s.list.node ha.cursor).trans (WorkingList.node_eq_ok hn)
  have hstep : s.step h = Move.on <$> (s.withLedger s.ledger.tick).tryCall h n := by
    unfold step
    simp only [hnode, hisCall, if_true, bind, Except.bind]
    rfl
  refine ⟨n, hb, hn, hnext, ?_⟩
  rw [hstep, htry]
  simp only [state_withLedger, ledger_withLedger, linearized_withLedger, hmarks, hnext?]
  split <;> rfl

/-! ## At a call -/

theorem At.exists_skip (ha : s.At h (i :: ahead)) (hi : h.isCallAt i = true) {n : Node}
    (hnext : n.next = ahead.headD s.list.head) :
    ∃ s', s.skip n = .ok s' ∧ s'.At h ahead ∧ s'.stack = s.stack ∧ s'.state = s.state ∧
      s'.ledger = s.ledger.pass (h.idAt (ahead.headD i)) := by
  obtain ⟨j, ahead, rfl⟩ := List.exists_cons_of_ne_nil (ha.ahead_ne_nil hw hi)
  obtain ⟨passed, hrest, _⟩ := ha.behind
  have hj : j < h.entries.size := (History.mem_rest.mp (by rw [hrest]; simp)).1
  obtain ⟨m, hm, hmb⟩ := Option.map_eq_some_iff.mp ((ha.shows hw).bare j hj)
  have hmid : m.entryId = h.idAt j := congrArg Node.entryId hmb
  have hnj : n.next = j := hnext
  refine ⟨{ s with cursor := j, cutoff := max s.cutoff (h.idAt j) }, ?_, ?_, rfl, rfl, rfl⟩
  · rw [skip, hnj, WorkingList.node_eq_ok hm]
    simp only [bind, Except.bind, hmid]
    rfl
  · exact ha.pass hi rfl rfl rfl rfl rfl rfl

omit [Operation Op] hw in
theorem lift_eq {n : Node} {next : State} {flag : Bool} {b : Bitset} {w : WorkingList} {first : Nat}
    (hset : s.linearized.set n.entryId = .ok (flag, b)) (hlift : s.list.lift s.cursor = .ok w)
    (hfirst : w.first = .ok first) :
    s.lift n next = .ok { s with
      list := w
      stack := ⟨s.cursor, s.state⟩ :: s.stack
      depth := s.depth + 1
      linearized := b
      state := next
      cursor := first
      stats := (s.ledger.lift (s.depth + 1)).stats } := by
  obtain ⟨list, stack, depth, linearized, memo, state, cursor, cutoff, stats⟩ := s
  simp only [lift, hset, bind, Except.bind, hlift, hfirst]
  rfl

theorem At.exists_lift (ha : s.At h (i :: ahead)) (hi : h.isCallAt i = true) {n : Node}
    (hb : n.bare = h.bareNode i) {next : State} (hnext : h.next? s.state i = some next) :
    ∃ s', s.lift n next = .ok s' ∧ s'.At h (h.rest (s.path ++ [i])) ∧
      s'.stack = ⟨i, s.state⟩ :: s.stack ∧ s'.state = next ∧
      s'.ledger = s.ledger.lift (s.path.length + 1) := by
  have hid : n.entryId = h.idAt i := congrArg Node.entryId hb
  have hcursor : s.cursor = i := ha.cursor
  have hroom : Bitset.blockIndex n.entryId < s.linearized.blocks.size := by
    rw [ha.linearized, hid]
    exact hw.blockIndex_lt hi s.path
  obtain ⟨flag, hset⟩ := Bitset.set_eq hroom
  obtain ⟨w', hlift, _, hs'⟩ := History.exists_lift hw (ha.shows hw) (ha.mem_left hi)
  have heq : s.lift n next = _ := lift_eq hset (hcursor ▸ hlift) hs'.circle.first
  have hdepth : s.depth = s.path.length := by simp [ha.depth, Search.path]
  rw [hcursor] at heq
  refine ⟨_, heq, ha.lifted hi rfl hlift hnext rfl ?_ rfl, rfl, rfl, ?_⟩
  · rw [hid]
  · rw [← hdepth]
    rfl

theorem At.step_refused (ha : s.At h (i :: ahead)) (hi : h.isCallAt i = true)
    (hn : h.next? s.state i = none) :
    ∃ s', s.step h = .ok (.on s') ∧ s'.At h ahead ∧ s'.stack = s.stack ∧ s'.state = s.state ∧
      s'.ledger = s.ledger.tick.pass (h.idAt (ahead.headD i)) := by
  obtain ⟨n, _, _, hnext, hstep⟩ := ha.step_call hw hi
  obtain ⟨s', hskip, hs'⟩ := (ha.withLedger s.ledger.tick).exists_skip hw hi hnext
  refine ⟨s', ?_, hs'⟩
  simp only [hstep, hn]
  exact congrArg (Move.on <$> ·) hskip

theorem At.step_known (ha : s.At h (i :: ahead)) (hi : h.isCallAt i = true) {next : State}
    (hn : h.next? s.state i = some next) {l : Ledger State}
    (hm : s.ledger.tick.note (h.configuration (s.path ++ [i]) next) = (false, l)) :
    ∃ s', s.step h = .ok (.on s') ∧ s'.At h ahead ∧ s'.stack = s.stack ∧ s'.state = s.state ∧
      s'.ledger = l.reject.pass (h.idAt (ahead.headD i)) := by
  obtain ⟨n, _, _, hnext, hstep⟩ := ha.step_call hw hi
  obtain ⟨s', hskip, hs'⟩ := (ha.withLedger l.reject).exists_skip hw hi hnext
  refine ⟨s', ?_, hs'⟩
  simp only [hstep, hn, hm, settle]
  exact congrArg (Move.on <$> ·) hskip

theorem At.step_novel (ha : s.At h (i :: ahead)) (hi : h.isCallAt i = true) {next : State}
    (hn : h.next? s.state i = some next) {l : Ledger State}
    (hm : s.ledger.tick.note (h.configuration (s.path ++ [i]) next) = (true, l)) :
    ∃ s', s.step h = .ok (.on s') ∧ s'.At h (h.rest (s.path ++ [i])) ∧
      s'.stack = ⟨i, s.state⟩ :: s.stack ∧ s'.state = next ∧
      s'.ledger = l.lift (s.path.length + 1) := by
  obtain ⟨n, hb, _, _, hstep⟩ := ha.step_call hw hi
  obtain ⟨s', hlift, hs'⟩ := (ha.withLedger l).exists_lift hw hi hb hn
  refine ⟨s', ?_, hs'⟩
  simp only [hstep, hn, hm, settle]
  exact congrArg (Move.on <$> ·) hlift

/-! ## At a return -/

omit [Operation Op] hw in
theorem backtrack_eq {call : Nat} {before : State} {frames : List (Frame State)} {flag : Bool}
    {b : Bitset} {w : WorkingList} {n m : Node} (hstack : s.stack = ⟨call, before⟩ :: frames)
    (hn : s.list.nodes[call]? = some n) (hreset : s.linearized.reset n.entryId = .ok (flag, b))
    (hunlift : s.list.unlift call = .ok w) (hm : w.nodes[call]? = some m) :
    s.backtrack = .ok (.on { s with
      list := w
      stack := frames
      depth := s.depth - 1
      linearized := b
      state := before
      cursor := m.next
      stats := { s.stats with backtracks := s.stats.backtracks + 1 } }) := by
  obtain ⟨list, stack, depth, linearized, memo, state, cursor, cutoff, stats⟩ := s
  cases hstack
  simp only [backtrack, WorkingList.node_eq_ok hn, bind, Except.bind, hreset, hunlift,
    WorkingList.node_eq_ok hm]
  rfl

theorem At.step_ret {ret : Nat} (ha : s.At h (ret :: ahead)) (hr : h.isCallAt ret = false) :
    s.step h = (s.withLedger s.ledger.tick).backtrack := by
  obtain ⟨n, hn, hb, _⟩ := ha.exists_node hw
  have hnode : s.list.node s.cursor = .ok n :=
    (congrArg s.list.node ha.cursor).trans (WorkingList.node_eq_ok hn)
  have hisCall : n.isCall = false := (congrArg Node.isCall hb).trans hr
  unfold step
  simp only [hnode, hisCall, Bool.false_eq_true, if_false, bind, Except.bind]
  rfl

theorem At.step_exhausted {ret : Nat} (ha : s.At h (ret :: ahead)) (hr : h.isCallAt ret = false)
    (hstack : s.stack = []) :
    s.step h = .ok (.exhausted (s.withLedger s.ledger.tick)) := by
  rw [ha.step_ret hw hr]
  obtain ⟨list, stack, depth, linearized, memo, state, cursor, cutoff, stats⟩ := s
  cases hstack
  rfl

theorem At.step_backtrack {ret call : Nat} {behind : List Nat} {before : State}
    {frames : List (Frame State)} (ha : s.At h (ret :: ahead)) (hr : h.isCallAt ret = false)
    (hstack : s.stack = ⟨call, before⟩ :: frames) {passed : List Nat}
    (hrest : h.rest (frames.map (·.call)).reverse = passed ++ call :: behind)
    (hpassed : ∀ i ∈ passed, h.isCallAt i = true) :
    ∃ s', s.step h = .ok (.on s') ∧ s'.At h behind ∧ s'.stack = frames ∧ s'.state = before ∧
      s'.ledger = s.ledger.undo := by
  have hpath : s.path = (frames.map (·.call)).reverse ++ [call] := by simp [Search.path, hstack]
  obtain ⟨hp, hf⟩ := History.IsPath.of_snoc (hpath ▸ ha.path)
  have hleft := History.front_subset_left hf
  obtain ⟨hcall, hnew⟩ := History.mem_left.mp hleft
  have hlt := History.WellPaired.lt_size_of_isCallAt hcall
  -- the list before the lift shows what is left beside the shorter path
  obtain ⟨w, hl, hs⟩ := hp.exists_listAt hw
  obtain ⟨w', hlift, hunlift, hs'⟩ := History.exists_lift hw hs hleft
  have hlist : s.list = w' := by
    have hl' := (History.listAt_snoc hl call).trans hlift
    rw [← hpath, ha.list] at hl'
    exact Except.ok.inj hl'
  obtain ⟨n, hn, hb⟩ := Option.map_eq_some_iff.mp (hs'.bare call hlt)
  have hid : n.entryId = h.idAt call := congrArg Node.entryId hb
  have hmarks : s.linearized = (h.marks (frames.map (·.call)).reverse).put n.entryId := by
    rw [ha.linearized, hpath, History.marks_snoc, hid]
  have hout : (h.marks (frames.map (·.call)).reverse).contains n.entryId = false := by
    rw [hid, ← Bool.not_eq_true, hp.contains_marks hw hcall]
    exact hnew
  obtain ⟨flag, hreset⟩ := Bitset.reset_put (hid ▸ hw.blockIndex_lt hcall _) hout
  rw [hrest] at hs
  obtain ⟨m, hm, _, hmnext⟩ := hs.exists_node hlt
  obtain ⟨hbefore, hsaved⟩ : h.SavedStates (⟨call, before⟩ :: frames) := hstack ▸ ha.saved
  have hback := backtrack_eq (s := s.withLedger s.ledger.tick) hstack (hlist ▸ hn)
    (hmarks ▸ hreset) (hlist ▸ hunlift) hm
  refine ⟨_, (ha.step_ret hw hr).trans hback, ?_, rfl, rfl, rfl⟩
  refine ⟨hp, hl, hsaved, hbefore, ?_, rfl, ⟨passed ++ [call], ?_, ?_⟩, hmnext⟩
  · show s.depth - 1 = frames.length
    rw [ha.depth, hstack, List.length_cons, Nat.add_sub_cancel]
  · rw [Search.path, hrest, List.append_assoc]
    rfl
  · intro i hi
    rcases List.mem_append.mp hi with hi | hi
    · exact hpassed i hi
    · rw [List.mem_singleton.mp hi]
      exact hcall

end Linearizability.Search
