import Linearizability.Proofs.Search.Trace
import Linearizability.Proofs.Search.Verdict

/-!
# What a trace says first

A trace begins with the verdict, read off the flag of the result. The flag of
a check that ran out of time is down whatever the history is: its search
stopped with entries left. So a positive trace is always right, and a
negative one is right when there is a verdict.
-/

namespace Linearizability

variable {Op State : Type}

/-! ## The first line -/

namespace CheckResult

def headline (r : CheckResult) : String :=
  if r.linearizable then "Linearizable: Yes" else "Linearizable: No"

def Begins (text words : String) : Prop := ∃ more, text = words ++ more

theorem not_begins_both {text : String} (hyes : Begins text "Linearizable: Yes")
    (hno : Begins text "Linearizable: No") : False := by
  obtain ⟨more, rfl⟩ := hyes
  obtain ⟨more', heq⟩ := hno
  have hchars := congrArg (fun s : String => s.toList[14]?) heq
  simp only [String.toList_append] at hchars
  rw [List.getElem?_append_left (by decide), List.getElem?_append_left (by decide)] at hchars
  exact absurd hchars (by decide)

theorem exists_mapM {α β : Type} {f : α → Except Fault β} {l : List α}
    (hf : ∀ a ∈ l, ∃ b, f a = .ok b) : ∃ bs, l.mapM f = .ok bs := by
  induction l with
  | nil => exact ⟨[], rfl⟩
  | cons a l ih =>
    obtain ⟨⟨b, hb⟩, hf⟩ := List.forall_mem_cons.mp hf
    obtain ⟨bs, hbs⟩ := ih hf
    exact ⟨b :: bs, by rw [List.mapM_cons, hb, hbs]; rfl⟩

variable [Operation Op] {h : History Op} (hw : h.WellPaired) {r : CheckResult}

include hw

theorem exists_witnessLine {call : Nat} (hcall : h.isCallAt call = true) :
    ∃ line, witnessLine h call = .ok line := by
  obtain ⟨c, ret, hc, hret, hmatched, _⟩ :=
    hw.exists_halves (History.WellPaired.lt_size_of_isCallAt hcall)
  simp only [witnessLine, History.entry, hc, hmatched, hret, bind, Except.bind]
  exact ⟨_, rfl⟩

theorem exists_lines (hwitness : ∀ call ∈ r.witness, h.isCallAt call = true)
    (hremaining : ∀ ref ∈ r.remaining, ref < h.entries.size) (verbose : Bool) :
    ∃ lines, r.lines h verbose = .ok (r.headline :: lines) := by
  cases hl : r.linearizable with
  | true =>
    obtain ⟨ops, hops⟩ := exists_mapM fun call hc => exists_witnessLine hw (hwitness call hc)
    refine ⟨ops, ?_⟩
    simp only [lines, headline, hl, if_true, hops, bind, Except.bind]
    rfl
  | false =>
    obtain ⟨entries, hshown⟩ := exists_shown hremaining r.cutoff verbose
    refine ⟨entries.flatMap (entryLines r.cutoff), ?_⟩
    simp only [lines, headline, hl, Bool.false_eq_true, if_false, hshown, bind, Except.bind]
    rfl

theorem exists_headline (hwitness : ∀ call ∈ r.witness, h.isCallAt call = true)
    (hremaining : ∀ ref ∈ r.remaining, ref < h.entries.size) (verbose : Bool) :
    ∃ text, r.trace h verbose = .ok text ∧ Begins text r.headline := by
  obtain ⟨lines, hlines⟩ := exists_lines hw hwitness hremaining verbose
  refine ⟨_, by rw [trace, hlines]; rfl, "\n" ++ String.join (lines.map (· ++ "\n")), ?_⟩
  rw [List.map_cons, String.join_cons, String.append_assoc]

theorem begins_headline (hwitness : ∀ call ∈ r.witness, h.isCallAt call = true)
    (hremaining : ∀ ref ∈ r.remaining, ref < h.entries.size) {verbose : Bool} {text : String}
    (htrace : r.trace h verbose = .ok text) : Begins text r.headline := by
  obtain ⟨_, htrace', hbegins⟩ := exists_headline hw hwitness hremaining verbose
  cases htrace.symm.trans htrace'
  exact hbegins

end CheckResult

/-! ## Checks -/

namespace Tester

variable [Specification State Op] [Operation Op] [LawfulSpecification State] {t : Tester State Op}

/-- With any time limit both traces of a check begin with a verdict. A positive one is right, and so
is a negative one unless the check ran out of time. -/
theorem trace_verdict (hc : t.history.Complete) (hvalid : t.config.validate = .ok ())
    (clock : Clock) (r : CheckResult) :
    ∃ after result, t.checkInto clock r = (.ok after, result) ∧
      ∀ verbose, ∃ text, result.trace t.history verbose = .ok text ∧
        (CheckResult.Begins text "Linearizable: Yes" ∨ CheckResult.Begins text "Linearizable: No") ∧
        (CheckResult.Begins text "Linearizable: Yes" → t.history.Linearizable State) ∧
        (CheckResult.Begins text "Linearizable: No" → result.isTimeout = false →
          ¬ t.history.Linearizable State) := by
  have hw := hc.wellPaired
  have hcap := Config.capacity_of_validate hvalid
  obtain ⟨_, last, e, _, _, _, _, ha, hcomplete, _, hcheck⟩ := checkInto_ending hw hcap clock r
  obtain ⟨_, result, hcheck', hreports, _⟩ := exists_checkInto hw hcap clock r
  rw [hcheck] at hcheck'
  obtain rfl : _ = result := congrArg Prod.snd hcheck'
  refine ⟨_, _, hcheck, fun verbose => ?_⟩
  obtain ⟨text, htrace, hbegins⟩ := CheckResult.exists_headline hw
    (r := { CheckResult.ofSearch t.history last with isTimeout := e == .expired })
    (fun call hcall => ha.path.isCallAt hcall) (fun ref href => (History.mem_rest.mp href).1) verbose
  refine ⟨text, htrace, ?_⟩
  cases hl : (t.history.rest last.path).isEmpty with
  | true =>
    have hyes : CheckResult.Begins text "Linearizable: Yes" := by
      simpa only [CheckResult.headline, CheckResult.ofSearch, hl, if_true] using hbegins
    have hfree : (e == .expired) = false := by
      rw [hcomplete.mpr (List.isEmpty_iff.mp hl)]
      rfl
    exact ⟨.inl hyes, fun _ => ⟨_, (hreports.least hfree hl).1.1⟩,
      fun hno => (CheckResult.not_begins_both hyes hno).elim⟩
  | false =>
    have hno : CheckResult.Begins text "Linearizable: No" := by
      simpa only [CheckResult.headline, CheckResult.ofSearch, hl, Bool.false_eq_true, if_false]
        using hbegins
    exact ⟨.inr hno, fun hyes => (CheckResult.not_begins_both hyes hno).elim,
      fun _ hfree => hreports.none hfree hl⟩

def loneLookup : Log ByteSet.Op :=
  let log := (Log.ofCapacity 2).addCall (.contains 4) 0 |>.2
  log.addRet 0 (.ret false) 0 |>.2

theorem loneLookup_complete : loneLookup.Complete where
  recorded := ((Log.Recorded.ofCapacity 2).addCall_snd rfl).addRet_snd rfl
  matched := by decide

def loneFinding : Log ByteSet.Op :=
  let log := (Log.ofCapacity 2).addCall (.contains 4) 0 |>.2
  log.addRet 0 (.ret true) 0 |>.2

theorem loneFinding_complete : loneFinding.Complete where
  recorded := ((Log.Recorded.ofCapacity 2).addCall_snd rfl).addRet_snd rfl
  matched := by decide

def lookupTester : Tester ByteSet ByteSet.Op :=
  ⟨History.ofLog loneLookup, { memo := .disabled }, {}⟩

def findingTester : Tester ByteSet ByteSet.Op :=
  ⟨History.ofLog loneFinding, { memo := .disabled }, {}⟩

theorem trace_verdict_lone :
    lookupTester.history.Complete ∧ findingTester.history.Complete ∧
    (∃ after result, lookupTester.checkInto .frozen {} = (.ok after, result) ∧
      ∀ verbose, ∃ text, result.trace lookupTester.history verbose = .ok text ∧
        CheckResult.Begins text "Linearizable: Yes" ∧
        lookupTester.history.Linearizable ByteSet) ∧
    ∃ after result, findingTester.checkInto .frozen {} = (.ok after, result) ∧
      result.isTimeout = false ∧
      ∀ verbose, ∃ text, result.trace findingTester.history verbose = .ok text ∧
        CheckResult.Begins text "Linearizable: No" ∧
        ¬ findingTester.history.Linearizable ByteSet := by
  have hlookup : lookupTester.history.Complete := History.complete_ofLog loneLookup_complete
  have hfinding : findingTester.history.Complete := History.complete_ofLog loneFinding_complete
  refine ⟨hlookup, hfinding, ?_, ?_⟩
  · obtain ⟨after, result, hcheck, htraces⟩ := trace_verdict hlookup rfl .frozen {}
    have hresult : result = (lookupTester.checkInto .frozen {}).2 := by rw [hcheck]
    have hheadline : result.headline = "Linearizable: Yes" := by rw [hresult]; rfl
    refine ⟨after, result, hcheck, fun verbose => ?_⟩
    obtain ⟨text, htrace, _, hyes, _⟩ := htraces verbose
    have hbegins := CheckResult.begins_headline hlookup.wellPaired (by rw [hresult]; decide)
      (by rw [hresult]; decide) htrace
    rw [hheadline] at hbegins
    exact ⟨text, htrace, hbegins, hyes hbegins⟩
  · obtain ⟨after, result, hcheck, htraces⟩ := trace_verdict hfinding rfl .frozen {}
    have hresult : result = (findingTester.checkInto .frozen {}).2 := by rw [hcheck]
    have hheadline : result.headline = "Linearizable: No" := by rw [hresult]; rfl
    have hfree : result.isTimeout = false := by rw [hresult]; rfl
    refine ⟨after, result, hcheck, hfree, fun verbose => ?_⟩
    obtain ⟨text, htrace, _, _, hno⟩ := htraces verbose
    have hbegins := CheckResult.begins_headline hfinding.wellPaired (by rw [hresult]; decide)
      (by rw [hresult]; decide) htrace
    rw [hheadline] at hbegins
    exact ⟨text, htrace, hbegins, hno hbegins hfree⟩

/-- Out of time at once, the check of the look-up prints that it is not linearizable. -/
theorem trace_denies_unchecked :
    (History.ofLog loneLookup).Complete ∧ (History.ofLog loneLookup).Linearizable ByteSet ∧
    ∃ after result text,
      (⟨History.ofLog loneLookup, { timeout := some .zero }, {}⟩ :
        Tester ByteSet ByteSet.Op).checkInto .frozen {} = (.ok after, result) ∧
      result.isTimeout = true ∧ result.trace (History.ofLog loneLookup) false = .ok text ∧
      CheckResult.Begins text "Linearizable: No" := by
  have hlinearization : (History.ofLog loneLookup).IsLinearization ByteSet [0] :=
    ⟨by decide, List.pairwise_singleton _ 0, by decide⟩
  have hc := History.complete_ofLog loneLookup_complete
  obtain ⟨text, htrace, hbegins⟩ := CheckResult.exists_headline hc.wellPaired
    (r := ((⟨History.ofLog loneLookup, { timeout := some .zero }, {}⟩ :
      Tester ByteSet ByteSet.Op).checkInto .frozen {}).2) nofun (by decide) false
  exact ⟨hc, ⟨[0], hlinearization⟩, _, _, text, rfl, rfl, htrace, hbegins⟩

end Tester

end Linearizability
