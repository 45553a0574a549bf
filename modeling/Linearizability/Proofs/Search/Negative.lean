import Linearizability.Proofs.Search.Loop
import Linearizability.Proofs.Search.Trace

/-!
# What a negative check leaves

A search that fails has undone all its lifts. So its result leaves the whole
history, and its cutoff is an id that two of the entries have. The trace
marks these two: without `verbose` it stops below the second one.
-/

namespace Linearizability

variable {Op State : Type}

/-! ## The cutoff of a search -/

theorem Search.Reaches.hasId [Specification State Op] [Operation Op] {h : History Op}
    (hw : h.WellPaired) {first s : Search State} {n : Nat} {ahead : List Nat}
    (hr : first.Reaches h n s) (ha : first.At h ahead) (hfirst : h.HasId first.cutoff) :
    h.HasId s.cutoff := by
  refine hr.induction_at hw ha (P := fun _ s => h.HasId s.cutoff) hfirst ?_
  intro n s i ahead s' _ _ ha hadvance hid
  have hlt : ahead.headD i < h.entries.size := by
    obtain ⟨passed, hrest, _⟩ := ha.behind
    have hmem : ahead.headD i ∈ h.rest s.path := by
      rw [hrest]
      cases ahead <;> simp
    exact (History.mem_rest.mp hmem).1
  rcases hadvance.cutoff_eq with hcutoff | hcutoff
  · rwa [hcutoff]
  · rw [hcutoff]
    exact hid.max hlt

/-! ## The entries of the cutoff -/

theorem exists_eq_append_pair {α : Type} {l : List α} {a b : Nat} (hab : a < b)
    (hb : b < l.length) : ∃ before middle after, l = before ++ l[a] :: (middle ++ l[b] :: after) ∧
      ∀ x ∈ before ++ middle ++ after, ∃ i, i ≠ a ∧ i ≠ b ∧ l[i]? = some x := by
  have ha : a < (l.take b).length := by
    rw [List.length_take]
    omega
  refine ⟨l.take a, (l.take b).drop (a + 1), l.drop (b + 1), ?_, fun x hx => ?_⟩
  · have hfirst : l.take a ++ l[a] :: (l.take b).drop (a + 1) = l.take b := by
      have htake : (l.take b).take a = l.take a := by
        rw [List.take_take, Nat.min_eq_left (Nat.le_of_lt hab)]
      rw [← htake, ← List.getElem_take (h := ha), List.getElem_cons_drop, List.take_append_drop]
    rw [← List.cons_append, ← List.append_assoc, hfirst, List.getElem_cons_drop,
      List.take_append_drop]
  · rcases List.mem_append.mp hx with hx | hx
    · rcases List.mem_append.mp hx with hx | hx
      · obtain ⟨i, hi, rfl⟩ := List.mem_take_iff_getElem.mp hx
        exact ⟨i, by omega, by omega, by simp⟩
      · obtain ⟨i, hi, rfl⟩ := List.mem_drop_iff_getElem.mp hx
        rw [List.length_take] at hi
        exact ⟨a + 1 + i, by omega, by omega, by simp⟩
    · obtain ⟨i, hi, rfl⟩ := List.mem_drop_iff_getElem.mp hx
      exact ⟨b + 1 + i, by omega, by omega, by simp⟩

namespace History

theorem entry_at {h : History Op} {i : Nat} {e : Entry Op} (he : h.entries.toList[i]? = some e) :
    i < h.entries.size ∧ h.idAt i = e.id ∧ h.isCallAt i = e.isCall := by
  rw [Array.getElem?_toList] at he
  exact ⟨(Array.getElem?_eq_some_iff.mp he).1, by rw [idAt, he]; rfl, isCallAt_eq he⟩

theorem HasId.exists_split [Operation Op] {h : History Op} (hw : h.WellPaired) {k : Nat}
    (hk : h.HasId k) : ∃ (before middle after : List (Entry Op)) (call ret : Entry Op),
      h.entries.toList = before ++ call :: (middle ++ ret :: after) ∧
      (call.id = k ∧ call.isCall = true) ∧ (ret.id = k ∧ ret.isCall = false) ∧
      ∀ e ∈ before ++ middle ++ after, e.id ≠ k := by
  obtain ⟨stop, hstop, ⟨hid, hret⟩, honly⟩ := hk.exists_return hw
  obtain ⟨before, middle, after, hsplit, hothers⟩ :=
    exists_eq_append_pair (hw.mate_lt_of_ret hstop hret) (l := h.entries.toList) (by simpa using hstop)
  obtain ⟨_, hcallId, hcall⟩ := entry_at (List.getElem?_eq_getElem (l := h.entries.toList)
    (by simpa using hw.mate_lt hstop))
  obtain ⟨_, hretId, hreturn⟩ := entry_at (List.getElem?_eq_getElem (l := h.entries.toList)
    (by simpa using hstop))
  refine ⟨before, middle, after, _, _, hsplit, ⟨?_, ?_⟩, ⟨?_, ?_⟩, fun e he hek => ?_⟩
  · rw [← hcallId, idAt_mate hw hstop, hid]
  · rw [← hcall, hw.isCallAt_mate hstop, hret]
    rfl
  · rw [← hretId, hid]
  · rw [← hreturn, hret]
  · obtain ⟨i, hne, hne', hi⟩ := hothers e he
    obtain ⟨hlt, hidAt, _⟩ := entry_at hi
    exact (honly i hlt (hidAt.trans hek)).elim hne' hne

end History

namespace CheckResult

variable [Operation Op]

theorem display_ne_marker (e : Entry Op) : e.display ≠ marker := by
  intro heq
  have hhead : e.display.toList.head? = some 'e' := by
    unfold Entry.display
    simp only [String.toList_append]
    rfl
  rw [heq] at hhead
  exact absurd hhead (by decide)

theorem flatMap_entryLines {cutoff : Nat} {entries : List (Entry Op)}
    (hfree : ∀ e ∈ entries, e.id ≠ cutoff) :
    entries.flatMap (entryLines cutoff) = entries.map (·.display) := by
  induction entries with
  | nil => rfl
  | cons e entries ih =>
    obtain ⟨he, hfree⟩ := List.forall_mem_cons.mp hfree
    rw [List.flatMap_cons, ih hfree, entryLines, if_neg he, List.map_cons]
    rfl

theorem count_marker {entries : List (Entry Op)} : (entries.map (·.display)).count marker = 0 := by
  refine List.count_eq_zero.mpr fun hmem => ?_
  obtain ⟨e, _, heq⟩ := List.mem_map.mp hmem
  exact display_ne_marker e heq

variable {h : History Op} {r : CheckResult}

omit [Operation Op] in
theorem shown_verbose {entries : List (Nat × Entry Op)}
    (hentries : ∀ x ∈ entries, h.entries[x.1]? = some x.2) (cutoff : Nat) :
    shown h cutoff true (entries.map (·.1)) = .ok (entries.map (·.2)) := by
  induction entries with
  | nil => rfl
  | cons x entries ih =>
    obtain ⟨hx, hentries⟩ := List.forall_mem_cons.mp hentries
    have hentry : h.entry x.1 = .ok x.2 := by rw [History.entry, hx]
    simp only [List.map_cons, shown, hentry, ih hentries, bind, Except.bind, Bool.not_true,
      Bool.false_eq_true, and_false, if_false]
    rfl

theorem lines_verbose (hw : h.WellPaired) (hneg : r.linearizable = false)
    (hremaining : r.remaining = List.range h.entries.size) :
    r.lines h true =
      .ok ("Linearizable: No" :: h.entries.toList.flatMap (entryLines r.cutoff)) := by
  have hshown := shown_verbose (fun x hx => hw.mem_toList_iff.mp hx) r.cutoff
  rw [hw.map_fst_toList, hw.map_snd_toList] at hshown
  simp only [lines, hneg, hremaining, hshown, bind, Except.bind]
  rfl

/-- Without `verbose` a trace stops at the first return of the cutoff id. -/
theorem lines_split (hneg : r.linearizable = false)
    (hremaining : r.remaining = List.range h.entries.size) {first after : List (Entry Op)}
    {ret : Entry Op} (hsplit : h.entries.toList = first ++ ret :: after)
    (hret : ret.id = r.cutoff ∧ ret.isCall = false)
    (hfirst : ∀ e ∈ first, ¬ (e.id = r.cutoff ∧ e.isCall = false)) :
    r.lines h false =
      .ok ("Linearizable: No" :: (first ++ [ret]).flatMap (entryLines r.cutoff)) := by
  have hat : h.entries.toList[first.length]? = some ret := by simp [hsplit]
  obtain ⟨hstop, hid, hcall⟩ := History.entry_at hat
  have htake : h.entries.toList.take (first.length + 1) = first ++ [ret] := by
    rw [hsplit, List.take_length_add_append]
    rfl
  rw [lines_eq hneg hremaining hstop ⟨hid.trans hret.1, hcall.trans hret.2⟩ ?_, htake]
  rintro i hi ⟨hik, hiret⟩
  have hget : h.entries.toList[i]? = some first[i] := by simp [hsplit, List.getElem?_append_left hi]
  obtain ⟨_, hid', hcall'⟩ := History.entry_at hget
  exact hfirst _ (List.getElem_mem hi) ⟨hid' ▸ hik, hcall' ▸ hiret⟩

def text (lines : List String) : String := String.join (lines.map (· ++ "\n"))

theorem trace_eq {verbose : Bool} {lines : List String} (hlines : r.lines h verbose = .ok lines) :
    r.trace h verbose = .ok (text lines) := by
  rw [trace, hlines]
  rfl

theorem text_append (first second : List String) :
    text (first ++ second) = text first ++ text second := by
  rw [text, List.map_append, String.join_append]
  rfl

def markedLines (before middle : List (Entry Op)) (call ret : Entry Op) : List String :=
  "Linearizable: No" :: (before.map (·.display) ++ call.display :: marker ::
    (middle.map (·.display) ++ [ret.display, marker]))

theorem count_markedLines (before middle : List (Entry Op)) (call ret : Entry Op) :
    (markedLines before middle call ret).count marker = 2 := by
  have hfirst : ("Linearizable: No" : String) ≠ marker := by decide
  simp only [markedLines, List.count_cons, List.count_append, count_marker, List.count_nil,
    beq_iff_eq, hfirst, display_ne_marker, if_true, if_false]

theorem flatMap_marked {before middle : List (Entry Op)} {call ret : Entry Op} {cutoff : Nat}
    (hcall : call.id = cutoff) (hret : ret.id = cutoff)
    (hfree : ∀ e ∈ before ++ middle, e.id ≠ cutoff) :
    "Linearizable: No" :: (before ++ call :: (middle ++ [ret])).flatMap (entryLines cutoff) =
      markedLines before middle call ret := by
  have hbefore := flatMap_entryLines fun e he => hfree e (List.mem_append_left middle he)
  have hmiddle := flatMap_entryLines fun e he => hfree e (List.mem_append_right before he)
  simp only [markedLines, List.flatMap_append, List.flatMap_cons, List.flatMap_nil, hbefore, hmiddle,
    entryLines, hcall, hret, if_true, List.append_nil]
  rfl

/-- The trace of a negative result marks the call and the return of the cutoff id, and the other
entries stand around them. Without `verbose` it is a prefix, down to the second marker. -/
structure Marks (r : CheckResult) (h : History Op) (before middle rest : List (Entry Op))
    (call ret : Entry Op) : Prop where
  entries : h.toList.map (·.2) = before ++ call :: (middle ++ ret :: rest)
  isCall : call.id = r.cutoff ∧ call.isCall = true
  isReturn : ret.id = r.cutoff ∧ ret.isCall = false
  lines : r.lines h false = .ok (markedLines before middle call ret)
  verbose : r.lines h true = .ok (markedLines before middle call ret ++ rest.map (·.display))
  markers : (markedLines before middle call ret ++ rest.map (·.display)).count marker = 2
  text : ∃ shown hidden, r.trace h false = .ok shown ∧ r.trace h true = .ok (shown ++ hidden)

theorem exists_marks (hw : h.WellPaired) (hneg : r.linearizable = false)
    (hremaining : r.remaining = List.range h.entries.size) (hid : h.HasId r.cutoff) :
    ∃ before middle rest call ret, r.Marks h before middle rest call ret := by
  obtain ⟨before, middle, rest, call, ret, hsplit, hcall, hret, hfree⟩ := hid.exists_split hw
  have hfree' : ∀ e ∈ before ++ middle, e.id ≠ r.cutoff :=
    fun e he => hfree e (List.mem_append_left rest he)
  have hmarked := flatMap_marked hcall.1 hret.1 hfree'
  have hlines : r.lines h false = .ok (markedLines before middle call ret) := by
    have hsplit' : h.entries.toList = (before ++ call :: middle) ++ ret :: rest := by
      rw [hsplit, List.append_assoc, List.cons_append]
    rw [lines_split hneg hremaining hsplit' hret ?_, ← hmarked, List.append_assoc, List.cons_append]
    rintro e he ⟨hek, hereturn⟩
    rcases List.mem_append.mp he with he | he
    · exact hfree' e (List.mem_append_left middle he) hek
    · rcases List.mem_cons.mp he with rfl | he
      · rw [hcall.2] at hereturn
        cases hereturn
      · exact hfree' e (List.mem_append_right before he) hek
  have hverbose : r.lines h true =
      .ok (markedLines before middle call ret ++ rest.map (·.display)) := by
    have hsplit' : h.entries.toList = (before ++ call :: (middle ++ [ret])) ++ rest := by
      simp [hsplit]
    rw [lines_verbose hw hneg hremaining, hsplit', List.flatMap_append, ← hmarked,
      flatMap_entryLines fun e he => hfree e (List.mem_append_right _ he)]
    rfl
  refine ⟨before, middle, rest, call, ret, hw.map_snd_toList.trans hsplit, hcall, hret, hlines,
    hverbose, ?_, _, CheckResult.text (rest.map (·.display)), trace_eq hlines, ?_⟩
  · rw [List.count_append, count_markedLines, count_marker]
  · rw [trace_eq hverbose, text_append]

end CheckResult

/-! ## Negative checks -/

namespace Tester

variable [Specification State Op] [Operation Op] {t : Tester State Op}

/-- Whatever the specification, a negative check has no witness, and it leaves the whole history. -/
theorem checkInto_negative (hc : t.history.Complete) (hvalid : t.config.validate = .ok ())
    (htime : t.config.timeout = none) (clock : Clock) (r : CheckResult) :
    ∃ after result, t.checkInto clock r = (.ok after, result) ∧ result.isTimeout = false ∧
      (result.isLinearizable = .ok false →
        result.witness = [] ∧ result.remaining = t.history.toList.map (·.1) ∧
        (∃ call ∈ t.history.callRefs, t.history.idAt call = result.cutoff) ∧
        ∃ before middle rest call ret, result.Marks t.history before middle rest call ret) := by
  have hw := hc.wellPaired
  obtain ⟨first, n, last, _, hfresh, _, hcutoff, _, hr, hstop, hcheck⟩ :=
    exists_last hw (Config.capacity_of_validate hvalid) htime
  refine ⟨_, _, hcheck clock r, rfl, fun hneg => ?_⟩
  have hneg : (t.history.rest last.path).isEmpty = false :=
    CheckResult.linearizable_of_isLinearizable hneg
  have hne : t.history.rest last.path ≠ [] := by simpa using hneg
  obtain ⟨_, hat⟩ := hr.exists_at hw hfresh.position
  -- every lift has been undone
  have hpath : last.path = [] := by
    rw [Search.path, hat.stack_eq_nil hw hstop hne]
    rfl
  have hremaining : t.history.rest last.path = List.range t.history.entries.size := by
    simp [hpath, History.rest]
  have hfirst : t.history.HasId first.cutoff :=
    hcutoff ▸ History.hasId_zero hw (mt hw.rest_eq_nil_iff.mpr (hpath ▸ hne))
  have hid := hr.hasId hw hfresh.position hfirst
  refine ⟨hpath, hremaining.trans hw.map_fst_toList.symm, ?_, CheckResult.exists_marks hw hneg hremaining hid⟩
  obtain ⟨stop, hstop, ⟨hid, hret⟩, _⟩ := hid.exists_return hw
  refine ⟨t.history.mate stop, hw.mem_callRefs.mpr ?_, (History.idAt_mate hw hstop).trans hid⟩
  rw [hw.isCallAt_mate hstop, hret]
  rfl

theorem checkInto_negative_inventedAround :
    (History.ofLog inventedAround).Complete ∧
    ∃ after result, inventedAroundTester.checkInto .frozen {} = (.ok after, result) ∧
      result.isLinearizable = .ok false ∧ result.witness = [] ∧
      result.remaining = (History.ofLog inventedAround).toList.map (·.1) ∧
      ∃ before middle rest call ret,
        result.Marks (History.ofLog inventedAround) before middle rest call ret := by
  have hc : inventedAroundTester.history.Complete := History.complete_ofLog inventedAround_complete
  obtain ⟨after, result, hcheck, _, hnegative⟩ := checkInto_negative hc rfl rfl .frozen {}
  have hresult : result = (inventedAroundTester.checkInto .frozen {}).2 := by rw [hcheck]
  have hneg : result.isLinearizable = .ok false := by rw [hresult]; rfl
  obtain ⟨hwitness, hremaining, _, hmarks⟩ := hnegative hneg
  exact ⟨hc, after, result, hcheck, hneg, hwitness, hremaining, hmarks⟩

end Tester

end Linearizability
