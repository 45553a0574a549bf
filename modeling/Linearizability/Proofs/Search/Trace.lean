import Linearizability.Proofs.Search.Cutoff

/-!
# Where a trace stops

The trace of a negative check prints the history up to the return of the
cutoff id, with the marker below it. What is printed by then may still have
an order that the specification accepts. Such an order leaves out a call with
a smaller id that has not returned where the trace stops.
-/

namespace Linearizability

variable {Op State : Type}

/-! ## What is printed -/

namespace CheckResult

variable {h : History Op} {cutoff stop : Nat}

theorem exists_shown {refs : List Nat} (hrefs : ∀ ref ∈ refs, ref < h.entries.size) (cutoff : Nat)
    (verbose : Bool) : ∃ entries, shown h cutoff verbose refs = .ok entries := by
  induction refs with
  | nil => exact ⟨[], rfl⟩
  | cons ref refs ih =>
    obtain ⟨rest, hrest⟩ := ih fun r hr => hrefs r (List.mem_cons_of_mem _ hr)
    have hlt : ref < h.entries.size := hrefs ref List.mem_cons_self
    have he : h.entry ref = .ok h.entries[ref] := by simp [History.entry, hlt]
    simp only [shown, he, hrest, bind, Except.bind]
    split
    · exact ⟨_, rfl⟩
    · exact ⟨_, rfl⟩

theorem shown_cons {i : Nat} (hi : i < h.entries.size) (rest : List Nat) :
    shown h cutoff false (i :: rest) =
      if h.idAt i = cutoff ∧ h.isCallAt i = false then .ok [h.entries[i]]
      else (shown h cutoff false rest).map (h.entries[i] :: ·) := by
  have he : h.entry i = .ok h.entries[i] := by simp [History.entry, hi]
  have hcall : h.isCallAt i = h.entries[i].isCall := by simp [History.isCallAt, hi]
  have hid : h.idAt i = h.entries[i].id := by simp [History.idAt, hi]
  rw [shown, he, hcall, hid]
  simp only [bind, Except.bind, Bool.not_eq_true', Bool.not_false, and_true]
  split
  · rfl
  · cases shown h cutoff false rest <;> rfl

theorem shown_range' (hstop : stop < h.entries.size)
    (hlast : h.idAt stop = cutoff ∧ h.isCallAt stop = false)
    (hbefore : ∀ i < stop, ¬ (h.idAt i = cutoff ∧ h.isCallAt i = false)) {i m : Nat}
    (hi : i + m = stop) (more : Nat) :
    shown h cutoff false (List.range' i (m + 1 + more)) =
      .ok ((h.entries.toList.drop i).take (m + 1)) := by
  induction m generalizing i with
  | zero =>
    obtain rfl : i = stop := hi
    have hcons : List.range' i (0 + 1 + more) = i :: List.range' (i + 1) more := by
      rw [Nat.zero_add, Nat.add_comm, List.range'_succ]
    rw [hcons, shown_cons hstop, if_pos hlast, List.drop_eq_getElem_cons (by simpa using hstop)]
    rfl
  | succ m ih =>
    have hlt : i < h.entries.size := by omega
    have hcons : List.range' i (m + 1 + 1 + more) = i :: List.range' (i + 1) (m + 1 + more) := by
      rw [Nat.add_right_comm, List.range'_succ]
    have hdrop := List.drop_eq_getElem_cons (l := h.entries.toList) (by simpa using hlt)
    rw [hcons, shown_cons hlt, if_neg (hbefore i (by omega)), ih (by omega), hdrop]
    rfl

theorem lines_eq [Operation Op] {r : CheckResult} (hneg : r.linearizable = false)
    (hremaining : r.remaining = List.range h.entries.size) (hstop : stop < h.entries.size)
    (hlast : h.idAt stop = r.cutoff ∧ h.isCallAt stop = false)
    (hbefore : ∀ i < stop, ¬ (h.idAt i = r.cutoff ∧ h.isCallAt i = false)) :
    r.lines h false = .ok ("Linearizable: No" ::
      (h.entries.toList.take (stop + 1)).flatMap (entryLines r.cutoff)) := by
  have hshown := shown_range' hstop hlast hbefore (Nat.zero_add stop) (h.entries.size - (stop + 1))
  rw [Nat.add_sub_cancel' hstop, ← List.range_eq_range', List.drop_zero] at hshown
  simp only [lines, hneg, hremaining, hshown, bind, Except.bind]
  rfl

end CheckResult

/-! ## Orders of a prefix -/

variable [Operation Op] [Specification State Op]

/-- An order of calls among the first `n` entries, with all those that have returned among them,
which keeps to real time and which the specification accepts. -/
structure History.IsPrefixLinearization (State : Type) [Specification State Op] (h : History Op)
    (n : Nat) (order : List Nat) : Prop where
  nodup : order.Nodup
  calls : ∀ c ∈ order, h.isCallAt c = true ∧ c < n
  returned : ∀ c, h.isCallAt c = true → h.mate c < n → c ∈ order
  realTime : order.Pairwise fun a b => ¬ h.Precedes b a
  accepted : (h.replay? (Specification.init : State) order).isSome

theorem History.IsPrefixLinearization.isPath {h : History Op} (hw : h.WellPaired) {n : Nat}
    {order : List Nat} (ho : h.IsPrefixLinearization State n order) : h.IsPath order := by
  refine isPath_of_pairwise hw (fun c hc => (ho.calls c hc).1) ho.nodup ho.realTime ?_
  intro d hd hout c hc hprec
  rw [hw.precedes_iff (WellPaired.lt_size_of_isCallAt hd)] at hprec
  exact hout (ho.returned d hd (Nat.lt_trans hprec (ho.calls c hc).2))

namespace Tester

variable [LawfulSpecification State] {t : Tester State Op}

/-- The trace of a negative check stops below the return of the cutoff id. An order of what is
printed leaves out a call of a smaller id that returns only later. So if no such call is open there,
what is printed cannot be linearized. -/
theorem trace_stops (hc : t.history.Complete) (hcap : 0 < t.config.lruCapacity)
    (htime : t.config.timeout = none) (clock : Clock) (r : CheckResult) :
    ∃ after result, t.checkInto clock r = (.ok after, result) ∧ result.isTimeout = false ∧
      (result.isLinearizable = .ok false → ∃ stop < t.history.entries.size,
        (t.history.idAt stop = result.cutoff ∧ t.history.isCallAt stop = false) ∧
        result.lines t.history false = .ok ("Linearizable: No" ::
          (t.history.entries.toList.take (stop + 1)).flatMap
            (CheckResult.entryLines result.cutoff)) ∧
        ∀ order, t.history.IsPrefixLinearization State (stop + 1) order →
          ∃ call, t.history.isCallAt call = true ∧ call ∉ order ∧
            t.history.idAt call < result.cutoff ∧ stop < t.history.mate call) := by
  have hw := hc.wellPaired
  obtain ⟨after, result, hcheck, ht, hconf⟩ :=
    exists_checkInto_confined hw (UInt64.ne_of_lt hcap).symm htime clock r
  refine ⟨after, result, hcheck, ht, fun hneg => ?_⟩
  obtain ⟨hneg, hremaining, hid, hconf⟩ := hconf hneg
  obtain ⟨stop, hstop, hlast, honly⟩ := hid.exists_return hw
  have hmate : t.history.isCallAt (t.history.mate stop) = true := by
    rw [hw.isCallAt_mate hstop, hlast.2]
    rfl
  have hbefore : ∀ i < stop,
      ¬ (t.history.idAt i = result.cutoff ∧ t.history.isCallAt i = false) := by
    rintro i hi ⟨hii, hret⟩
    rcases honly i (Nat.lt_trans hi hstop) hii with rfl | rfl
    · exact Nat.lt_irrefl _ hi
    · rw [hmate] at hret
      cases hret
  refine ⟨stop, hstop, hlast, CheckResult.lines_eq hneg hremaining hstop hlast hbefore, ?_⟩
  intro order ho
  obtain ⟨call, hcall, hout, hle⟩ := hconf.exists_next hw (ho.isPath hw) ho.accepted
  have hlt := History.WellPaired.lt_size_of_isCallAt hcall
  have hopen : stop < t.history.mate call :=
    Nat.not_lt.mp fun hlt => hout (ho.returned call hcall hlt)
  refine ⟨call, hcall, hout, Nat.lt_of_le_of_ne hle fun heq => ?_, hopen⟩
  -- the call of the cutoff id has returned at `stop`
  rcases honly call hlt heq with rfl | rfl
  · rw [hlast.2] at hcall
    cases hcall
  · rw [hw.mate_mate hstop] at hopen
    exact Nat.lt_irrefl _ hopen

/-- A look-up that finds what was never inserted, and within it another one that finds nothing. -/
def inventedAround : Log ByteSet.Op :=
  let log := (Log.ofCapacity 4).addCall (.contains 1) 0 |>.2
  let log := log.addCall (.contains 2) 0 |>.2
  let log := log.addRet 1 (.ret false) 0 |>.2
  log.addRet 0 (.ret true) 0 |>.2

theorem inventedAround_complete : inventedAround.Complete where
  recorded :=
    ((((Log.Recorded.ofCapacity 4).addCall_snd rfl).addCall_snd rfl).addRet_snd rfl).addRet_snd rfl
  matched := by decide

def inventedAroundTester : Tester ByteSet ByteSet.Op :=
  ⟨History.ofLog inventedAround, { memo := .disabled }, {}⟩

theorem trace_stops_inventedAround :
    ∃ after result, inventedAroundTester.checkInto .frozen {} = (.ok after, result) ∧
      result.isLinearizable = .ok false ∧ ∃ stop < (History.ofLog inventedAround).entries.size,
        ∀ order, (History.ofLog inventedAround).IsPrefixLinearization ByteSet (stop + 1) order →
          ∃ call, (History.ofLog inventedAround).isCallAt call = true ∧ call ∉ order ∧
            (History.ofLog inventedAround).idAt call < result.cutoff ∧
            stop < (History.ofLog inventedAround).mate call := by
  have hc : inventedAroundTester.history.Complete := History.complete_ofLog inventedAround_complete
  obtain ⟨after, result, hcheck, _, hstops⟩ := trace_stops hc (by decide) rfl .frozen {}
  have hresult : result = (inventedAroundTester.checkInto .frozen {}).2 := by rw [hcheck]
  have hneg : result.isLinearizable = .ok false := by rw [hresult]; rfl
  obtain ⟨stop, hstop, _, _, horders⟩ := hstops hneg
  exact ⟨after, result, hcheck, hneg, stop, hstop, horders⟩

/-- The trace stops below the return of the look-up within, and the printed entries are linearized
by that look-up alone. -/
theorem trace_overstates :
    (History.ofLog inventedAround).Complete ∧
    ∃ after result, inventedAroundTester.checkInto .frozen {} = (.ok after, result) ∧
      result.isLinearizable = .ok false ∧
      result.lines (History.ofLog inventedAround) false = .ok ("Linearizable: No" ::
        ((History.ofLog inventedAround).entries.toList.take 3).flatMap
          (CheckResult.entryLines result.cutoff)) ∧
      (History.ofLog inventedAround).IsPrefixLinearization ByteSet 3 [1] := by
  refine ⟨History.complete_ofLog inventedAround_complete, _, _, rfl, rfl, rfl, ?_⟩
  have hreturned : ∀ c < 4, (History.ofLog inventedAround).isCallAt c = true →
      (History.ofLog inventedAround).mate c < 3 → c ∈ [1] := by decide
  exact {
    nodup := List.nodup_singleton 1
    calls := by decide
    returned := fun c hc => hreturned c (History.WellPaired.lt_size_of_isCallAt hc) hc
    realTime := List.pairwise_singleton _ 1
    accepted := by decide }

end Tester

end Linearizability
