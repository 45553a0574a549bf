import Linearizability.Proofs.Search.Verdict
import Linearizability.Proofs.Slicing.Locality
import Linearizability.Proofs.Slicing.Parts
import Linearizability.Proofs.Slicing.Walk

/-!
# Verdicts on sliced histories

The checks go on as long as no sub-history is found not to be linearizable.
Without a time limit the last one therefore tells the verdict on the whole
history. A check that ran out of time is passed over, and a later result
takes its place: a positive one speaks for the calls of those sub-histories
whose checks came to an end.
-/

namespace Linearizability

/-! ## Parts and the whole -/

namespace History

variable {h : History ByteSet.Op} (hw : h.WellPaired) {count : Nat}

include hw

theorem exists_completes_of_parts (hpos : 0 < count)
    (hkeys : ∀ i < h.entries.size, (h.keyAt i).isSome) (keep : Nat → Bool)
    (hparts : ∀ p < count, keep p = true →
      ∃ order, h.Completes (h.partCalls (h.partAt count) p) (Specification.init : ByteSet) order) :
    ∃ order, h.Completes (h.callRefs.filter fun c => keep (h.partAt count c))
      (Specification.init : ByteSet) order := by
  have hcall : ∀ c ∈ h.callRefs.filter fun c => keep (h.partAt count c), h.isCallAt c = true :=
    fun c hc => hw.mem_callRefs.mp (List.mem_filter.mp hc).1
  have hkey : ∀ c ∈ h.callRefs.filter fun c => keep (h.partAt count c), (h.keyAt c).isSome :=
    fun c hc => hkeys c (WellPaired.lt_size_of_isCallAt (hcall c hc))
  suffices hsub : ∀ p, ∃ order t, ByteSet.Agree count p Specification.init t ∧
      h.Completes ((h.callRefs.filter fun c => keep (h.partAt count c)).filter
        (h.partAt count · = p)) t order from exists_merge hw hcall hkey hsub
  intro p
  by_cases hp : p < count ∧ keep p = true
  · obtain ⟨order, hc⟩ := hparts p hp.1 hp.2
    refine ⟨order, Specification.init, ByteSet.Agree.refl _ _ _, ?_⟩
    have hpart : (h.callRefs.filter fun c => keep (h.partAt count c)).filter
        (h.partAt count · = p) = h.partCalls (h.partAt count) p := by
      rw [List.filter_filter, partCalls]
      apply List.filter_congr
      intro c _
      by_cases hcp : h.partAt count c = p
      · simp [hcp, hp.2]
      · simp [hcp]
    rw [hpart]
    exact hc
  · refine ⟨[], Specification.init, ByteSet.Agree.refl _ _ _, ?_⟩
    have hnil : (h.callRefs.filter fun c => keep (h.partAt count c)).filter
        (h.partAt count · = p) = [] := by
      rw [List.filter_filter]
      refine List.filter_eq_nil_iff.mpr fun c _ hc => ?_
      rw [Bool.and_eq_true, decide_eq_true_iff] at hc
      exact hp ⟨hc.1 ▸ partAt_lt hpos c, hc.1 ▸ hc.2⟩
    rw [hnil]
    exact completes_nil_iff.mpr rfl

theorem linearizable_iff_parts (hpos : 0 < count)
    (hkeys : ∀ i < h.entries.size, (h.keyAt i).isSome) :
    h.Linearizable ByteSet ↔ ∀ p < count,
      ∃ order, h.Completes (h.partCalls (h.partAt count) p) (Specification.init : ByteSet) order := by
  constructor
  · rintro ⟨order, horder⟩ p _
    have hcall : ∀ c ∈ h.callRefs, h.isCallAt c = true := fun c hc => hw.mem_callRefs.mp hc
    exact ⟨_, (isLinearization_iff.mp horder).filter hw hcall
      (fun c hc => hkeys c (WellPaired.lt_size_of_isCallAt (hcall c hc))) (ByteSet.Agree.refl _ _ _)⟩
  · intro hparts
    obtain ⟨order, hc⟩ := exists_completes_of_parts hw hpos hkeys (fun _ => true)
      fun p hp _ => hparts p hp
    rw [List.filter_true] at hc
    exact ⟨order, isLinearization_iff.mpr hc⟩

end History

/-! ## The walk over the sub-histories -/

def Tester.expires {State Op : Type} [Specification State Op] (t : Tester State Op) (clock : Clock) :
    Bool :=
  (t.checkInto clock {}).2.isTimeout

theorem Tester.expires_eq_false {State Op : Type} [Specification State Op] [Operation Op]
    [LawfulSpecification State] {t : Tester State Op} (hw : t.history.WellPaired)
    (hcap : t.config.lruCapacity ≠ 0) (htime : t.config.timeout = none) (clock : Clock) :
    t.expires clock = false := by
  obtain ⟨_, _, hcheck, _, hfree⟩ := exists_checkInto hw hcap clock {}
  rw [expires, hcheck]
  exact hfree htime

namespace Slices

variable {Op State : Type} [Specification State Op]

/-- What the result of a walk over `logs` tells about them, the first one having number `part`. -/
structure Walked (State : Type) [Specification State Op] (config : Config) (clocks : Nat → Clock)
    (part : Nat) (logs : List (Log Op)) (r : CheckResult) : Prop where
  positive : r.isTimeout = false → r.linearizable = true → ∀ j log, logs[j]? = some log →
    (tester State config log).expires (clocks (part + j)) = false →
      (History.ofLog log).Linearizable State
  last : r.isTimeout = false → r.linearizable = true → ∀ log, logs.getLast? = some log →
    (tester State config log).expires (clocks (part + (logs.length - 1))) = false
  negative : r.isTimeout = false → r.linearizable = false →
    ∃ log ∈ logs, ¬ (History.ofLog log).Linearizable State
  free : config.timeout = none → r.isTimeout = false

variable [Operation Op] [LawfulSpecification State] {config : Config}
  (hcap : config.lruCapacity ≠ 0)

include hcap

theorem Leaves.reports {log : Log Op} (hc : log.Complete) {clock : Clock} {r : CheckResult}
    (hleaves : Leaves State config clock (History.ofLog log) r) :
    r.Reports State (History.ofLog log) ∧ r.isTimeout = (tester State config log).expires clock ∧
      (config.timeout = none → r.isTimeout = false) := by
  obtain ⟨_, hcheck⟩ := hleaves
  obtain ⟨_, _, hcheck', hreports, hfree⟩ := Tester.exists_checkInto (t := tester State config log)
    (History.wellPaired_ofLog hc) hcap clock {}
  rw [tester, hcheck] at hcheck'
  cases hcheck'
  refine ⟨hreports, ?_, hfree⟩
  rw [Tester.expires, tester, hcheck]

theorem Walked.of_firstNegative {logs : List (Log Op)} (hlogs : ∀ log ∈ logs, log.Complete)
    {clocks : Nat → Clock} {part j : Nat} {r : CheckResult}
    (hneg : FirstNegative (LeavesFrom State config clocks part logs) logs.length j r) :
    Walked State config clocks part logs r := by
  obtain ⟨⟨log, hlog, hleaves⟩, hbefore, hlast⟩ := hneg
  have hcomplete : ∀ {i : Nat} {x : Log Op}, logs[i]? = some x → x.Complete :=
    fun hx => hlogs _ (List.mem_of_getElem? hx)
  obtain ⟨hreports, hexpires, hfree⟩ := hleaves.reports hcap (hcomplete hlog)
  -- a positive result is that of the last sub-history, and those before it were passed over
  have hend : r.isTimeout = false → r.linearizable = true → j + 1 = logs.length :=
    fun ht hl => hlast.resolve_left (by simp [CheckResult.isLinearizable, ht, hl])
  refine ⟨fun ht hl i x hx he => ?_, fun ht hl x hx => ?_,
    fun ht hl => ⟨log, List.mem_of_getElem? hlog, hreports.none ht hl⟩, hfree⟩
  · have hi := (List.getElem?_eq_some_iff.mp hx).1
    rw [← hend ht hl] at hi
    rcases Nat.lt_succ_iff_lt_or_eq.mp hi with hi | rfl
    · obtain ⟨earlier, ⟨y, hy, hleaves'⟩, hpassed⟩ := hbefore i hi
      cases hx.symm.trans hy
      obtain ⟨hreports', hexpires', _⟩ := hleaves'.reports hcap (hcomplete hx)
      rw [← hexpires'] at he
      have hl' : earlier.linearizable = true := by
        simpa [CheckResult.isLinearizable, he] using hpassed
      exact ⟨_, (hreports'.least he hl').1.1⟩
    · cases hx.symm.trans hlog
      exact ⟨_, (hreports.least ht hl).1.1⟩
  · rw [List.getLast?_eq_getElem?, ← hend ht hl, Nat.add_sub_cancel] at hx
    cases hx.symm.trans hlog
    rw [← hend ht hl, Nat.add_sub_cancel, ← hexpires, ht]

end Slices

/-! ## The check of a sliced history -/

def Slices.expires (State : Type) {Op : Type} [Specification State Op] (s : Slices Op)
    (config : Config) (clocks : Nat → Clock) (part : Nat) : Bool :=
  match s.sublogInfo part with
  | .ok sub => (⟨sub, config, {}⟩ : Tester State Op).expires (clocks part)
  | .error _ => false

theorem Slices.expires_eq {State Op : Type} [Specification State Op] {s : Slices Op} {part : Nat}
    {log : Log Op} (hinfo : s.sublogInfo part = .ok (History.ofLog log)) (config : Config)
    (clocks : Nat → Clock) :
    s.expires State config clocks part = (tester State config log).expires (clocks part) := by
  simp only [expires, hinfo]
  rfl

namespace History

variable {h : History ByteSet.Op} {count : Nat} {slices : Slices ByteSet.Op}

theorem sublogs_spec (hw : h.WellPaired) (hs : Slices.ofHistory h count = .ok (.ok slices)) :
    (∀ log ∈ slices.sublogs.toList, log.Complete) ∧
      ∀ p < count, ∃ log, slices.sublogs.toList[p]? = some log ∧
        slices.sublogInfo p = .ok (ofLog log) ∧ ((ofLog log).Linearizable ByteSet ↔ ∃ order,
          h.Completes (h.partCalls (h.partAt count) p) (Specification.init : ByteSet) order) := by
  obtain ⟨_, _, _, hsub⟩ := ofHistory_spec hw hs
  refine ⟨complete_of_mem_sublogs hw hs, fun p hp => ?_⟩
  obtain ⟨log, hget, hlog⟩ := hsub p hp
  refine ⟨log, by simpa using hget, ?_, hlog.linearizable_iff hw (hw.keepsPairs_partAt count)⟩
  rw [Slices.sublogInfo, hget]
  exact info_eq_ofLog (hlog.complete hw)

theorem linearizable_iff_sublogs (hw : h.WellPaired)
    (hs : Slices.ofHistory h count = .ok (.ok slices)) :
    h.Linearizable ByteSet ↔
      ∀ p < count, ∃ sub, slices.sublogInfo p = .ok sub ∧ sub.Linearizable ByteSet := by
  obtain ⟨hpos, hkeys, _⟩ := ofHistory_spec hw hs
  obtain ⟨_, hsub⟩ := sublogs_spec hw hs
  rw [linearizable_iff_parts hw hpos hkeys]
  refine forall₂_congr fun p hp => ?_
  obtain ⟨log, _, hinfo, hiff⟩ := hsub p hp
  rw [← hiff]
  constructor
  · exact fun hl => ⟨_, hinfo, hl⟩
  · rintro ⟨sub, hinfo', hl⟩
    rw [hinfo] at hinfo'
    cases hinfo'
    exact hl

theorem checkSliced_eq {State Op : Type} [Operation Op] [Specification State Op] {h : History Op}
    {slices : Slices Op} {config : Config} (hvalid : config.validate = .ok ())
    (hs : Slices.ofHistory h count = .ok (.ok slices)) {clocks : Nat → Clock} {r : CheckResult}
    {last : Nat} {r' : CheckResult} (hwalk : slices.check State config clocks r = (.ok last, r')) :
    h.checkSliced State count config clocks r = (.ok (.ok ()), r') := by
  simp only [checkSliced, hvalid, hs, hwalk]

theorem ofHistory_of_checkSliced {config : Config} {clocks : Nat → Clock} {r result : CheckResult}
    (hcheck : h.checkSliced ByteSet count config clocks r = (.ok (.ok ()), result)) :
    config.validate = .ok () ∧ ∃ slices, Slices.ofHistory h count = .ok (.ok slices) := by
  unfold checkSliced at hcheck
  cases hv : config.validate with
  | error e =>
    rw [hv] at hcheck
    cases hcheck
  | ok =>
    refine ⟨rfl, ?_⟩
    rw [hv] at hcheck
    cases hs : Slices.ofHistory h count with
    | error f =>
      rw [hs] at hcheck
      cases hcheck
    | ok answer =>
      cases answer with
      | error e =>
        rw [hs] at hcheck
        cases hcheck
      | ok slices => exact ⟨slices, rfl⟩

theorem exists_walked (hw : h.WellPaired) (hs : Slices.ofHistory h count = .ok (.ok slices))
    {config : Config} (hvalid : config.validate = .ok ()) (clocks : Nat → Clock)
    (r : CheckResult) :
    ∃ r', h.checkSliced ByteSet count config clocks r = (.ok (.ok ()), r') ∧
      Slices.Walked ByteSet config clocks 0 slices.sublogs.toList r' := by
  have hcap := Config.capacity_of_validate hvalid
  obtain ⟨hpos, _, hsize, _⟩ := ofHistory_spec hw hs
  obtain ⟨hcomplete, _⟩ := sublogs_spec hw hs
  have hne : slices.sublogs.toList ≠ [] := by
    intro hnil
    have := congrArg List.length hnil
    rw [Array.length_toList, hsize] at this
    exact Nat.ne_of_gt hpos this
  obtain ⟨_, r', hneg, hwalk⟩ := Slices.exists_firstNegative ByteSet hcap hcomplete hne clocks 0
  exact ⟨r', checkSliced_eq hvalid hs (hwalk 0 r), Slices.Walked.of_firstNegative hcap hcomplete hneg⟩

theorem linearizable_iff_of_walked (hw : h.WellPaired)
    (hs : Slices.ofHistory h count = .ok (.ok slices)) {config : Config}
    (hcap : config.lruCapacity ≠ 0) (htime : config.timeout = none) {clocks : Nat → Clock}
    {result : CheckResult}
    (hwalked : Slices.Walked ByteSet config clocks 0 slices.sublogs.toList result) :
    result.linearizable = true ↔ h.Linearizable ByteSet := by
  obtain ⟨_, _, hsize, _⟩ := ofHistory_spec hw hs
  obtain ⟨hcomplete, hsub⟩ := sublogs_spec hw hs
  have ht := hwalked.free htime
  rw [linearizable_iff_sublogs hw hs]
  constructor
  · intro hl p hp
    obtain ⟨log, hlog, hinfo, _⟩ := hsub p hp
    refine ⟨_, hinfo, hwalked.positive ht hl p log hlog ?_⟩
    exact Tester.expires_eq_false
      (wellPaired_ofLog (hcomplete log (List.mem_of_getElem? hlog))) hcap htime _
  · intro hall
    by_contra hl
    obtain ⟨log, hlog, hnot⟩ := hwalked.negative ht (Bool.eq_false_iff.mpr hl)
    obtain ⟨p, hp⟩ := List.mem_iff_getElem?.mp hlog
    have hlt : p < count := by
      have hlen := (List.getElem?_eq_some_iff.mp hp).1
      rwa [Array.length_toList, hsize] at hlen
    obtain ⟨log', hlog', hinfo, _⟩ := hsub p hlt
    obtain ⟨sub, hinfo', hsublin⟩ := hall p hlt
    rw [hp] at hlog'
    cases hlog'
    rw [hinfo] at hinfo'
    cases hinfo'
    exact hnot hsublin

/-- Without a time limit slicing keeps the verdict, which is that of the sub-histories. -/
theorem checkSliced_exact (hc : h.Complete) (hs : Slices.ofHistory h count = .ok (.ok slices))
    {config : Config} (hvalid : config.validate = .ok ()) (htime : config.timeout = none)
    (stats : Stats) (clock : Clock) (clocks : Nat → Clock) (r : CheckResult) :
    ∃ verdict after result,
      (⟨h, config, stats⟩ : Tester ByteSet ByteSet.Op).check clock = .ok (.ok verdict, after) ∧
      h.checkSliced ByteSet count config clocks r = (.ok (.ok ()), result) ∧
      result.isLinearizable = .ok verdict ∧
      (h.Linearizable ByteSet ↔
        ∀ p < count, ∃ sub, slices.sublogInfo p = .ok sub ∧ sub.Linearizable ByteSet) := by
  have hw := hc.wellPaired
  have hcap := Config.capacity_of_validate hvalid
  obtain ⟨verdict, after, hcheck, hverdict⟩ :=
    Tester.exists_check (t := (⟨h, config, stats⟩ : Tester ByteSet ByteSet.Op)) hw hcap htime clock
  obtain ⟨result, hsliced, hwalked⟩ := exists_walked hw hs hvalid clocks r
  have ht := hwalked.free htime
  refine ⟨verdict, after, result, hcheck, hsliced, ?_, linearizable_iff_sublogs hw hs⟩
  have heq : result.linearizable = verdict := by
    rw [Bool.eq_iff_iff, linearizable_iff_of_walked hw hs hcap htime hwalked, hverdict]
  simp [CheckResult.isLinearizable, ht, heq]

def overlappingInserts : Log ByteSet.Op :=
  let log := (Log.ofCapacity 4).addCall (.insert 4) 0 |>.2
  let log := log.addCall (.insert 5) 1 |>.2
  let log := log.addRet 0 (.ret true) 0 |>.2
  log.addRet 1 (.ret true) 1 |>.2

theorem overlappingInserts_complete : overlappingInserts.Complete where
  recorded :=
    ((((Log.Recorded.ofCapacity 4).addCall_snd rfl).addCall_snd rfl).addRet_snd rfl).addRet_snd rfl
  matched := by decide

theorem checkSliced_exact_overlappingInserts :
    (ofLog overlappingInserts).Complete ∧
      ∃ slices, Slices.ofHistory (ofLog overlappingInserts) 2 = .ok (.ok slices) ∧
      ∃ verdict after result,
        (⟨ofLog overlappingInserts, {}, {}⟩ : Tester ByteSet ByteSet.Op).check .frozen =
          .ok (.ok verdict, after) ∧
        (ofLog overlappingInserts).checkSliced ByteSet 2 {} (fun _ => .frozen) {} =
          (.ok (.ok ()), result) ∧
        result.isLinearizable = .ok verdict ∧
        ((ofLog overlappingInserts).Linearizable ByteSet ↔
          ∀ p < 2, ∃ sub, slices.sublogInfo p = .ok sub ∧ sub.Linearizable ByteSet) := by
  have hc := complete_ofLog overlappingInserts_complete
  have hcheck : ((ofLog overlappingInserts).checkSliced ByteSet 2 { memo := .disabled }
      (fun _ => .frozen) {}).1 = .ok (.ok ()) := by decide +kernel
  obtain ⟨_, slices, hs⟩ := ofHistory_of_checkSliced (Prod.ext hcheck rfl)
  exact ⟨hc, slices, hs, checkSliced_exact hc hs rfl rfl {} .frozen (fun _ => .frozen) {}⟩

/-- A positive result speaks for all sub-histories whose checks came to an end. -/
theorem checkSliced_finished (hc : h.Complete) {config : Config} {clocks : Nat → Clock}
    {r result : CheckResult}
    (hcheck : h.checkSliced ByteSet count config clocks r = (.ok (.ok ()), result))
    (ht : result.isTimeout = false) (hl : result.linearizable = true) :
    ∃ slices, Slices.ofHistory h count = .ok (.ok slices) ∧
      slices.expires ByteSet config clocks (count - 1) = false ∧
      (∃ order, h.Completes
        (h.callRefs.filter fun c => !slices.expires ByteSet config clocks (h.partAt count c))
        (Specification.init : ByteSet) order) ∧
      ((∀ p < count, slices.expires ByteSet config clocks p = false) → h.Linearizable ByteSet) := by
  have hw := hc.wellPaired
  obtain ⟨hvalid, slices, hs⟩ := ofHistory_of_checkSliced hcheck
  obtain ⟨hpos, hkeys, hsize, _⟩ := ofHistory_spec hw hs
  obtain ⟨_, hsub⟩ := sublogs_spec hw hs
  obtain ⟨result', hsliced, hwalked⟩ := exists_walked hw hs hvalid clocks r
  rw [hcheck] at hsliced
  cases hsliced
  have hfinished : ∀ p < count, slices.expires ByteSet config clocks p = false →
      ∃ order, h.Completes (h.partCalls (h.partAt count) p) (Specification.init : ByteSet) order := by
    intro p hp he
    obtain ⟨log, hlog, hinfo, hiff⟩ := hsub p hp
    rw [Slices.expires_eq hinfo, ← Nat.zero_add p] at he
    exact hiff.mp (hwalked.positive ht hl p log hlog he)
  refine ⟨slices, hs, ?_, ?_, ?_⟩
  · obtain ⟨log, hlog, hinfo, _⟩ := hsub (count - 1) (by omega)
    have hlast := hwalked.last ht hl log (by
      rw [List.getLast?_eq_getElem?, Array.length_toList, hsize, hlog])
    rw [Array.length_toList, hsize, Nat.zero_add] at hlast
    rw [Slices.expires_eq hinfo, hlast]
  · exact exists_completes_of_parts hw hpos hkeys
      (fun p => !slices.expires ByteSet config clocks p)
      fun p hp hk => hfinished p hp (by simpa using hk)
  · intro hall
    exact (linearizable_iff_parts hw hpos hkeys).mpr fun p hp => hfinished p hp (hall p hp)

def firstLate (part : Nat) : Clock := fun _ => if part = 0 then .ofSecs 2 else .zero

def oneSecond : Config := { memo := .disabled, timeout := some (.ofSecs 1) }

theorem checkSliced_finished_overlappingInserts :
    (ofLog overlappingInserts).Complete ∧ ∃ result,
      (ofLog overlappingInserts).checkSliced ByteSet 2 oneSecond firstLate {} =
        (.ok (.ok ()), result) ∧ result.isTimeout = false ∧ result.linearizable = true ∧
      ∃ slices, Slices.ofHistory (ofLog overlappingInserts) 2 = .ok (.ok slices) ∧
        slices.expires ByteSet oneSecond firstLate (2 - 1) = false ∧
        (∃ order, (ofLog overlappingInserts).Completes
          ((ofLog overlappingInserts).callRefs.filter fun c =>
            !slices.expires ByteSet oneSecond firstLate ((ofLog overlappingInserts).partAt 2 c))
          (Specification.init : ByteSet) order) ∧
        ((∀ p < 2, slices.expires ByteSet oneSecond firstLate p = false) →
          (ofLog overlappingInserts).Linearizable ByteSet) := by
  have hc := complete_ofLog overlappingInserts_complete
  have hcheck : ((ofLog overlappingInserts).checkSliced ByteSet 2 oneSecond firstLate {}).1 =
      .ok (.ok ()) := by decide +kernel
  have ht : ((ofLog overlappingInserts).checkSliced ByteSet 2 oneSecond firstLate {}).2.isTimeout =
      false := by decide +kernel
  have hl : ((ofLog overlappingInserts).checkSliced ByteSet 2 oneSecond
      firstLate {}).2.linearizable = true := by decide +kernel
  exact ⟨hc, _, Prod.ext hcheck rfl, ht, hl, checkSliced_finished hc (Prod.ext hcheck rfl) ht hl⟩

def absentLookup : Log ByteSet.Op :=
  let log := (Log.ofCapacity 2).addCall (.contains 4) 0 |>.2
  log.addRet 0 (.ret true) 0 |>.2

/-- The check of the look-up runs out of time, and the empty sub-history after it passes. -/
theorem checkSliced_passes_unchecked :
    (ofLog absentLookup).Complete ∧
      (⟨.always, 4096, some .zero⟩ : Config).validate = .ok () ∧
      (let checked := (ofLog absentLookup).checkSliced ByteSet 2 ⟨.always, 4096, some .zero⟩
        (fun _ => .frozen) {}
      checked.1 = .ok (.ok ()) ∧ checked.2.isTimeout = false ∧ checked.2.linearizable = true) ∧
      ¬ (ofLog absentLookup).Linearizable ByteSet := by
  refine ⟨complete_ofLog ⟨?_, by decide⟩, rfl, ⟨by decide +kernel, by decide +kernel, by decide +kernel⟩, ?_⟩
  · exact ((Log.Recorded.ofCapacity 2).addCall_snd rfl).addRet_snd rfl
  · rintro ⟨order, hperm, _, haccepted⟩
    have hcalls : (ofLog absentLookup).callRefs = [0] := by decide +kernel
    rw [hcalls, List.perm_singleton] at hperm
    subst hperm
    revert haccepted
    decide

end History

end Linearizability
