import Linearizability.Experiment.Basic
import Linearizability.Proofs.Search.Trace
import Linearizability.Proofs.Slicing.Verdict

/-!
# Outcomes of checks by parts

A check of a complete history always comes to an outcome, and what it says
of the history is true. Among the outcomes of the parts a negative one
decides, whatever timed out beside it. Without one a timeout does. What is
left says of every part, and so of the whole history, that it can be
linearized.
-/

namespace Linearizability

/-! ## Merging -/

namespace Outcome

theorem merge_eq_linearizable_iff {a b : Outcome} :
    a.merge b = .linearizable ↔ a = .linearizable ∧ b = .linearizable := by
  cases a <;> cases b <;> decide

theorem merge_eq_notLinearizable_iff {a b : Outcome} :
    a.merge b = .notLinearizable ↔ a = .notLinearizable ∨ b = .notLinearizable := by
  cases a <;> cases b <;> decide

theorem eq_timeout_iff {a : Outcome} :
    a = .timeout ↔ a ≠ .linearizable ∧ a ≠ .notLinearizable := by
  cases a <;> decide

theorem ofResult_eq_linearizable_iff {r : CheckResult} :
    ofResult r = .linearizable ↔ r.isTimeout = false ∧ r.linearizable = true := by
  cases ht : r.isTimeout <;> cases hl : r.linearizable <;> simp [ofResult, ht, hl]

theorem ofResult_eq_notLinearizable_iff {r : CheckResult} :
    ofResult r = .notLinearizable ↔ r.isTimeout = false ∧ r.linearizable = false := by
  cases ht : r.isTimeout <;> cases hl : r.linearizable <;> simp [ofResult, ht, hl]

theorem ofResult_eq_timeout_iff {r : CheckResult} : ofResult r = .timeout ↔ r.isTimeout = true := by
  cases ht : r.isTimeout <;> cases hl : r.linearizable <;> simp [ofResult, ht, hl]

end Outcome

namespace Report

def mergeAll (reports : List Report) : Report := reports.foldl merge {}

theorem collect_ok (reports : List Report) :
    collect (reports.map .ok) = .ok (mergeAll reports) := by
  rw [collect, mergeAll, List.foldlM_map]
  generalize ({} : Report) = acc
  induction reports generalizing acc with
  | nil => rfl
  | cons r reports ih =>
    rw [List.foldlM_cons, List.foldl_cons]
    exact ih (acc.merge r)

theorem ofChecks_singleton (clocks : Nat → Clock) (check : Check) :
    ofChecks clocks [check] = check (clocks 0) := by
  show collect [check (clocks 0)] = _
  cases check (clocks 0) with
  | error f => rfl
  | ok r =>
    obtain ⟨outcome, traces⟩ := r
    cases outcome <;> rfl

theorem foldl_merge_eq_linearizable_iff {reports : List Report} {acc : Report} :
    (reports.foldl merge acc).outcome = .linearizable ↔
      acc.outcome = .linearizable ∧ ∀ r ∈ reports, r.outcome = .linearizable := by
  induction reports generalizing acc with
  | nil => simp
  | cons r reports ih =>
    rw [List.foldl_cons, ih, merge, Outcome.merge_eq_linearizable_iff, List.forall_mem_cons,
      and_assoc]

theorem foldl_merge_eq_notLinearizable_iff {reports : List Report} {acc : Report} :
    (reports.foldl merge acc).outcome = .notLinearizable ↔
      acc.outcome = .notLinearizable ∨ ∃ r ∈ reports, r.outcome = .notLinearizable := by
  induction reports generalizing acc with
  | nil => simp
  | cons r reports ih =>
    rw [List.foldl_cons, ih, merge, Outcome.merge_eq_notLinearizable_iff, List.exists_mem_cons_iff,
      or_assoc]

theorem mergeAll_eq_linearizable_iff {reports : List Report} :
    (mergeAll reports).outcome = .linearizable ↔ ∀ r ∈ reports, r.outcome = .linearizable := by
  rw [mergeAll, foldl_merge_eq_linearizable_iff]
  exact and_iff_right rfl

theorem mergeAll_eq_notLinearizable_iff {reports : List Report} :
    (mergeAll reports).outcome = .notLinearizable ↔
      ∃ r ∈ reports, r.outcome = .notLinearizable := by
  rw [mergeAll, foldl_merge_eq_notLinearizable_iff]
  exact or_iff_right nofun

theorem mergeAll_eq_timeout_iff {reports : List Report} :
    (mergeAll reports).outcome = .timeout ↔
      (∃ r ∈ reports, r.outcome = .timeout) ∧ ∀ r ∈ reports, r.outcome ≠ .notLinearizable := by
  rw [Outcome.eq_timeout_iff, Ne, Ne, mergeAll_eq_linearizable_iff, mergeAll_eq_notLinearizable_iff]
  push Not
  refine and_congr_left fun hnone => exists_congr fun r => and_congr_right fun hr => ?_
  rw [Outcome.eq_timeout_iff]
  exact (and_iff_left (hnone r hr)).symm

end Report

/-! ## The trace of a negative check -/

namespace CheckResult

variable {Op : Type} [Operation Op] {h : History Op}

theorem exists_trace {r : CheckResult} (hneg : r.linearizable = false)
    (hrest : ∀ ref ∈ r.remaining, ref < h.entries.size) (verbose : Bool) :
    ∃ text, r.trace h verbose = .ok text := by
  obtain ⟨entries, hshown⟩ := exists_shown hrest r.cutoff verbose
  simp only [trace, lines, hneg, hshown, bind, Except.bind]
  exact ⟨_, rfl⟩

end CheckResult

/-! ## One check -/

section

variable {State Op : Type} [Specification State Op] [Operation Op] {h : History Op}
  {config : Config}

theorem Tester.exists_remaining {t : Tester State Op} (hw : t.history.WellPaired)
    (hcap : t.config.lruCapacity ≠ 0) (clock : Clock) (r : CheckResult) :
    ∃ after result path, t.checkInto clock r = (.ok after, result) ∧
      result.remaining = t.history.rest path := by
  obtain ⟨_, last, _, _, _, _, _, _, _, _, hcheck⟩ := t.checkInto_ending hw hcap clock r
  exact ⟨_, _, last.path, hcheck, rfl⟩

/-- What the outcome says of the history is true. -/
structure Report.Vouches (State : Type) [Specification State Op] (r : Report) (h : History Op) :
    Prop where
  positive : r.outcome = .linearizable → h.Linearizable State
  negative : r.outcome = .notLinearizable → ¬ h.Linearizable State

variable (State) in
/-- Only the trace of a negative check could fail. -/
theorem Report.exists_of_checkInto (hvalid : config.validate = .ok ()) {clock : Clock}
    {after : Tester State Op} {result : CheckResult}
    (hcheck : (⟨h, config, {}⟩ : Tester State Op).checkInto clock {} = (.ok after, result))
    (hremaining : ∀ ref ∈ result.remaining, ref < h.entries.size) :
    ∃ r, ofHistory State config clock h = .ok r ∧ r.outcome = .ofResult result := by
  have hof : Tester.ofConfig State h config = .ok ⟨h, config, {}⟩ := by
    simp only [Tester.ofConfig, hvalid]
  simp only [ofHistory, hof, bind, Except.bind, hcheck]
  cases ho : Outcome.ofResult result with
  | linearizable => exact ⟨_, rfl, rfl⟩
  | timeout => exact ⟨_, rfl, rfl⟩
  | notLinearizable =>
    have hneg := (Outcome.ofResult_eq_notLinearizable_iff.mp ho).2
    obtain ⟨text, htrace⟩ := CheckResult.exists_trace hneg hremaining false
    rw [htrace]
    exact ⟨_, rfl, rfl⟩

variable [LawfulSpecification State]

variable (State) in
theorem Report.exists_ofHistory (hw : h.WellPaired) (hvalid : config.validate = .ok ())
    (clock : Clock) :
    ∃ r, ofHistory State config clock h = .ok r ∧ r.Vouches State h ∧
      (config.timeout = none → r.outcome ≠ .timeout) := by
  have hcap := Config.capacity_of_validate hvalid
  let t : Tester State Op := ⟨h, config, {}⟩
  obtain ⟨after, result, hcheck, hreports, hfree⟩ :=
    Tester.exists_checkInto (t := t) hw hcap clock {}
  obtain ⟨_, _, path, hcheck', hrest⟩ := Tester.exists_remaining (t := t) hw hcap clock {}
  rw [hcheck] at hcheck'
  cases hcheck'
  have hremaining : ∀ ref ∈ result.remaining, ref < h.entries.size := by
    intro ref href
    rw [hrest] at href
    exact (History.mem_rest.mp href).1
  obtain ⟨r, hr, ho⟩ := exists_of_checkInto State hvalid hcheck hremaining
  refine ⟨r, hr, ⟨fun hl => ?_, fun hn => ?_⟩, fun hnone ht => ?_⟩
  · obtain ⟨ht, hl⟩ := Outcome.ofResult_eq_linearizable_iff.mp (ho.symm.trans hl)
    exact ⟨_, (hreports.least ht hl).1.1⟩
  · obtain ⟨ht, hn⟩ := Outcome.ofResult_eq_notLinearizable_iff.mp (ho.symm.trans hn)
    exact hreports.none ht hn
  · have ht := Outcome.ofResult_eq_timeout_iff.mp (ho.symm.trans ht)
    rw [hfree hnone] at ht
    cases ht

/-! ## One check for each part -/

variable (State) in
theorem Report.exists_ofSublogs (hvalid : config.validate = .ok ()) (clocks : Nat → Clock)
    {logs : List (Log Op)} (hlogs : ∀ log ∈ logs, log.Complete) (start : Nat) :
    ∃ parts : List Report, parts.length = logs.length ∧
      (∀ p r, parts[p]? = some r → ∃ log, logs[p]? = some log ∧
        ofHistory State config (clocks (start + p)) (.ofLog log) = .ok r ∧
        r.Vouches State (.ofLog log) ∧ (config.timeout = none → r.outcome ≠ .timeout)) ∧
      ((checksOfSublogs State config logs).zipIdx start).map
        (fun (check, part) => check (clocks part)) = parts.map .ok := by
  induction logs generalizing start with
  | nil => exact ⟨[], rfl, nofun, rfl⟩
  | cons log logs ih =>
    have hc := hlogs log List.mem_cons_self
    obtain ⟨r, hr, hvouches⟩ :=
      exists_ofHistory State (History.wellPaired_ofLog hc) hvalid (clocks start)
    obtain ⟨parts, hlen, hparts, hresults⟩ :=
      ih (fun x hx => hlogs x (List.mem_cons_of_mem _ hx)) (start + 1)
    refine ⟨r :: parts, congrArg (· + 1) hlen, ?_, ?_⟩
    · intro p x hx
      cases p with
      | zero =>
        cases hx
        exact ⟨log, rfl, hr, hvouches⟩
      | succ p =>
        obtain ⟨y, hy, hof, hvouches⟩ := hparts p x hx
        exact ⟨y, hy, by rwa [Nat.add_right_comm] at hof, hvouches⟩
    · have hfirst : (log.info >>= ofHistory State config (clocks start)) = .ok r := by
        rw [History.info_eq_ofLog hc]
        exact hr
      exact congrArg₂ List.cons hfirst hresults

end

/-! ## A history by its parts -/

namespace Report

theorem Vouches.agree {State Op : Type} [Specification State Op] {h : History Op} {a b : Report}
    (ha : a.Vouches State h) (hb : b.Vouches State h) (hta : a.outcome ≠ .timeout)
    (htb : b.outcome ≠ .timeout) : a.outcome = b.outcome := by
  cases hoa : a.outcome <;> cases hob : b.outcome
  case linearizable.notLinearizable => exact absurd (ha.positive hoa) (hb.negative hob)
  case notLinearizable.linearizable => exact absurd (hb.positive hob) (ha.negative hoa)
  all_goals first | rfl | exact absurd hoa hta | exact absurd hob htb

variable {h : History ByteSet.Op} {count : Nat} {slices : Slices ByteSet.Op} {config : Config}

theorem vouches_mergeAll (hw : h.WellPaired) (hs : Slices.ofHistory h count = .ok (.ok slices))
    {parts : List Report} (hlen : parts.length = count)
    (hparts : ∀ p r, parts[p]? = some r →
      ∃ sub, slices.sublogInfo p = .ok sub ∧ r.Vouches ByteSet sub) :
    (mergeAll parts).Vouches ByteSet h where
  positive hl := by
    rw [mergeAll_eq_linearizable_iff] at hl
    rw [History.linearizable_iff_sublogs hw hs]
    intro p hp
    have hget := List.getElem?_eq_getElem (hlen ▸ hp : p < parts.length)
    obtain ⟨sub, hinfo, hv⟩ := hparts p _ hget
    exact ⟨sub, hinfo, hv.positive (hl _ (List.mem_of_getElem? hget))⟩
  negative hn := by
    obtain ⟨r, hr, hn⟩ := mergeAll_eq_notLinearizable_iff.mp hn
    obtain ⟨p, hget⟩ := List.mem_iff_getElem?.mp hr
    obtain ⟨sub, hinfo, hv⟩ := hparts p r hget
    intro hl
    obtain ⟨hp, _⟩ := List.getElem?_eq_some_iff.mp hget
    obtain ⟨sub', hinfo', hl'⟩ := (History.linearizable_iff_sublogs hw hs).mp hl p (hlen ▸ hp)
    rw [hinfo] at hinfo'
    cases hinfo'
    exact hv.negative hn hl'

end Report

namespace Experiment

/-- The report of an experiment with a set is that of a check of the whole or by parts. -/
theorem run_set {args : Arguments} {config : Config} {read : String → Option String} {g : StdGen}
    {recorder : Recorder ByteSet.Op} (hmodel : args.model = .set)
    (hload : loadConfig args read = .ok config) (hrec : recordSet args g = .ok recorder)
    (clocks : Nat → Clock) :
    run args read clocks g = match args.partitions with
      | some count => checkPartitioned ByteSet config clocks count.toNat recorder
      | none => checkWhole ByteSet config clocks recorder := by
  simp only [run, checks, hload, hmodel, hrec, bind, Except.bind]
  cases args.partitions <;> rfl

section

variable {Op : Type} (State : Type) [Operation Op] [Specification State Op] {recorder : Recorder Op}
  {h : History Op} (hrec : recorder.info.1 = .ok h) {config : Config} {clocks : Nat → Clock}

include hrec

theorem checkWhole_eq : checkWhole State config clocks recorder =
    (Report.ofHistory State config (clocks 0) h).mapError .checkerFailed := by
  rw [checkWhole, runChecks, wholeChecks, Report.ofChecks_singleton, hrec]
  rfl

theorem checkPartitioned_eq {count : Nat} {slices : Slices Op}
    (hs : Slices.ofHistory h count = .ok (.ok slices)) :
    checkPartitioned State config clocks count recorder =
      (Report.ofSublogs State config clocks slices.sublogs.toList).mapError .checkerFailed := by
  have hchecks : partChecks State config count recorder =
      .ok (Report.checksOfSublogs State config slices.sublogs.toList) := by
    simp only [partChecks, hrec, bind, Except.bind, hs]
    rfl
  rw [checkPartitioned, hchecks]
  rfl

end

variable {h : History ByteSet.Op} {count : Nat} {slices : Slices ByteSet.Op} {config : Config}

/-- The outcome of a check by parts is never wrong, and it is a timeout only when a part timed out
and none was negative. Where neither times out it is the outcome of the check of the whole. -/
theorem partitioned_outcome (hc : h.Complete) (hs : Slices.ofHistory h count = .ok (.ok slices))
    (hvalid : config.validate = .ok ()) (clocks clocks' : Nat → Clock) :
    ∃ (report whole : Report) (parts : List Report),
      Report.ofSublogs ByteSet config clocks slices.sublogs.toList = .ok report ∧
      Report.ofHistory ByteSet config (clocks' 0) h = .ok whole ∧
      (∀ recorder : Recorder ByteSet.Op, recorder.info.1 = .ok h →
        checkPartitioned ByteSet config clocks count recorder = .ok report ∧
        checkWhole ByteSet config clocks' recorder = .ok whole) ∧
      parts.length = count ∧
      (∀ p r, parts[p]? = some r → ∃ sub, slices.sublogInfo p = .ok sub ∧
        Report.ofHistory ByteSet config (clocks p) sub = .ok r) ∧
      (report.outcome = .linearizable → h.Linearizable ByteSet) ∧
      (report.outcome = .notLinearizable → ¬ h.Linearizable ByteSet) ∧
      (report.outcome = .timeout ↔ (∃ r ∈ parts, r.outcome = .timeout) ∧
        ∀ r ∈ parts, r.outcome ≠ .notLinearizable) ∧
      (report.outcome ≠ .timeout → whole.outcome ≠ .timeout → report.outcome = whole.outcome) ∧
      (config.timeout = none → report.outcome = whole.outcome) := by
  have hw := hc.wellPaired
  obtain ⟨_, _, hsize, _⟩ := History.ofHistory_spec hw hs
  obtain ⟨hcomplete, hsub⟩ := History.sublogs_spec hw hs
  obtain ⟨whole, hwhole, hvouches, hfree⟩ :=
    Report.exists_ofHistory ByteSet hw hvalid (clocks' 0)
  obtain ⟨parts, hlen, hparts, hresults⟩ :=
    Report.exists_ofSublogs ByteSet hvalid clocks hcomplete 0
  have hlen : parts.length = count := hlen.trans (Array.length_toList.trans hsize)
  have hreport : Report.ofSublogs ByteSet config clocks slices.sublogs.toList =
      .ok (.mergeAll parts) := (congrArg Report.collect hresults).trans (Report.collect_ok parts)
  -- each report is about its sub-history
  have hpart : ∀ p r, parts[p]? = some r → ∃ sub, slices.sublogInfo p = .ok sub ∧
      Report.ofHistory ByteSet config (clocks p) sub = .ok r ∧ r.Vouches ByteSet sub ∧
      (config.timeout = none → r.outcome ≠ .timeout) := by
    intro p r hget
    obtain ⟨log, hlog, hof, hvouches⟩ := hparts p r hget
    rw [Nat.zero_add] at hof
    obtain ⟨hp, _⟩ := List.getElem?_eq_some_iff.mp hget
    obtain ⟨log', hlog', hinfo, _⟩ := hsub p (hlen ▸ hp)
    rw [hlog] at hlog'
    cases hlog'
    exact ⟨_, hinfo, hof, hvouches⟩
  have hmerged : (Report.mergeAll parts).Vouches ByteSet h :=
    Report.vouches_mergeAll hw hs hlen fun p r hget =>
      let ⟨sub, hinfo, _, hv, _⟩ := hpart p r hget
      ⟨sub, hinfo, hv⟩
  have htimeout : (Report.mergeAll parts).outcome = .timeout ↔ _ := Report.mergeAll_eq_timeout_iff
  refine ⟨.mergeAll parts, whole, parts, hreport, hwhole, ?_, hlen, ?_, hmerged.positive,
    hmerged.negative, htimeout, hmerged.agree hvouches, ?_⟩
  · intro recorder hrec
    constructor
    · rw [checkPartitioned_eq ByteSet hrec hs, hreport]
      rfl
    · rw [checkWhole_eq ByteSet hrec, hwhole]
      rfl
  · intro p r hget
    obtain ⟨sub, hinfo, hof, _⟩ := hpart p r hget
    exact ⟨sub, hinfo, hof⟩
  · intro hnone
    refine hmerged.agree hvouches (fun ht => ?_) (hfree hnone)
    obtain ⟨⟨r, hr, ht⟩, _⟩ := htimeout.mp ht
    obtain ⟨p, hget⟩ := List.mem_iff_getElem?.mp hr
    obtain ⟨_, _, _, _, hf⟩ := hpart p r hget
    exact hf hnone ht

def inventedBeside : Log ByteSet.Op :=
  let log := (Log.ofCapacity 4).addCall (.insert 4) 0 |>.2
  let log := log.addCall (.contains 5) 1 |>.2
  let log := log.addRet 0 (.ret true) 0 |>.2
  log.addRet 1 (.ret true) 1 |>.2

theorem inventedBeside_complete : inventedBeside.Complete where
  recorded :=
    ((((Log.Recorded.ofCapacity 4).addCall_snd rfl).addCall_snd rfl).addRet_snd rfl).addRet_snd rfl
  matched := by decide

/-- The part of the insertion runs out of time, and that of the look-up decides. -/
theorem partitioned_outcome_inventedBeside :
    (History.ofLog inventedBeside).Complete ∧ History.oneSecond.validate = .ok () ∧
    ∃ slices, Slices.ofHistory (History.ofLog inventedBeside) 2 = .ok (.ok slices) ∧
    ∃ report, Report.ofSublogs ByteSet History.oneSecond History.firstLate
        slices.sublogs.toList = .ok report ∧
      report.outcome = .notLinearizable ∧ ¬ (History.ofLog inventedBeside).Linearizable ByteSet := by
  have hc := History.complete_ofLog inventedBeside_complete
  have hout : ((Slices.ofHistory (History.ofLog inventedBeside) 2).toOption.bind
      (·.toOption)).map (fun slices => (Report.ofSublogs ByteSet History.oneSecond
        History.firstLate slices.sublogs.toList).toOption.map (·.outcome)) =
      some (some .notLinearizable) := by decide +kernel
  have hcheck : ((History.ofLog inventedBeside).checkSliced ByteSet 2
      History.oneSecond (fun _ => .frozen) {}).1 = .ok (.ok ()) := by decide +kernel
  obtain ⟨hvalid, slices, hs⟩ := History.ofHistory_of_checkSliced (Prod.ext hcheck rfl)
  obtain ⟨report, _, _, hreport, _, _, _, _, _, hnegative, _⟩ :=
    partitioned_outcome hc hs hvalid History.firstLate History.firstLate
  have hneg : report.outcome = .notLinearizable := by
    simpa [hs, hreport, Except.toOption] using hout
  exact ⟨hc, hvalid, slices, hs, report, hreport, hneg, hnegative hneg⟩

end Experiment

end Linearizability
