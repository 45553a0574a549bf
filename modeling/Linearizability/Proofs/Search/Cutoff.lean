import Linearizability.Proofs.Search.Coverage
import Linearizability.Proofs.Search.Independence

/-!
# What a cutoff confines

A probe that finds no order has gone on from every path that the
specification accepts. So calls are left beside each such path, and those
that may come next have ids up to the cutoff. A set of calls that holds all
calls up to the cutoff, and in which none waits for a call outside, has no
order that the specification accepts: at its end another call of the set
would be next.
-/

namespace Linearizability.History

variable {Op State : Type} [Specification State Op]

/-! ## Probes of what comes next -/

section

variable {h : History Op} {calls k : Nat} {path ahead : List Nat} {s next : State} {call : Nat}

theorem exists_probe_of_none
    (hnone : (h.probeAhead (h.probe calls) path s ahead k).tail = none)
    (hcall : call ∈ ahead.takeWhile h.isCallAt) (hn : h.next? s call = some next) :
    ∃ k', (h.probe calls (path ++ [call]) next k').tail = none ∧
      (h.probe calls (path ++ [call]) next k').cutoff ≤
        (h.probeAhead (h.probe calls) path s ahead k).cutoff := by
  induction ahead generalizing k with
  | nil => cases hcall
  | cons i ahead ih =>
    cases hi : h.isCallAt i with
    | false =>
      rw [List.takeWhile_cons_of_neg (by simp [hi])] at hcall
      cases hcall
    | true =>
      rw [List.takeWhile_cons_of_pos hi] at hcall
      cases hni : h.next? s i with
      | none =>
        rw [probeAhead_refused hi hni] at hnone ⊢
        rcases List.mem_cons.mp hcall with rfl | hcall
        · rw [hni] at hn
          cases hn
        · exact ih hnone hcall
      | some nexti =>
        cases hb : h.probe calls (path ++ [i]) nexti k with
        | mk tail k' =>
          cases tail with
          | some tail =>
            rw [probeAhead_found hi hni hb] at hnone
            cases hnone
          | none =>
            rw [probeAhead_missed hi hni hb] at hnone ⊢
            rcases List.mem_cons.mp hcall with rfl | hcall
            · cases hni.symm.trans hn
              refine ⟨k, congrArg Probe.tail hb, ?_⟩
              rw [hb]
              exact le_cutoff_probeAhead h calls path s ahead k'
            · exact ih hnone hcall

theorem exists_probe_of_some {tail : List Nat}
    (hsome : (h.probeAhead (h.probe calls) path s ahead k).tail = some tail) :
    ∃ (call : Nat) (rest : List Nat) (next : State) (k' : Nat), tail = call :: rest ∧
      call ∈ ahead.takeWhile h.isCallAt ∧
      (h.probe calls (path ++ [call]) next k').tail = some rest := by
  induction ahead generalizing k with
  | nil => cases hsome
  | cons i ahead ih =>
    cases hi : h.isCallAt i with
    | false =>
      rw [probeAhead_ret hi] at hsome
      cases hsome
    | true =>
      rw [List.takeWhile_cons_of_pos hi]
      have hgo : ∀ k', (h.probeAhead (h.probe calls) path s ahead k').tail = some tail →
          ∃ (call : Nat) (rest : List Nat) (next : State) (k' : Nat), tail = call :: rest ∧
            call ∈ i :: ahead.takeWhile h.isCallAt ∧
            (h.probe calls (path ++ [call]) next k').tail = some rest := by
        intro k' hsome
        obtain ⟨call, rest, next, k'', htail, hcall, hrest⟩ := ih hsome
        exact ⟨call, rest, next, k'', htail, List.mem_cons_of_mem i hcall, hrest⟩
      cases hni : h.next? s i with
      | none =>
        rw [probeAhead_refused hi hni] at hsome
        exact hgo _ hsome
      | some nexti =>
        cases hb : h.probe calls (path ++ [i]) nexti k with
        | mk found k' =>
          cases found with
          | none =>
            rw [probeAhead_missed hi hni hb] at hsome
            exact hgo _ hsome
          | some rest =>
            rw [probeAhead_found hi hni hb] at hsome
            cases hsome
            exact ⟨i, rest, nexti, k, rfl, List.mem_cons_self, congrArg Probe.tail hb⟩

theorem left_eq_nil_of_probe {tail : List Nat} (hlen : (h.left path).length = calls)
    (hsome : (h.probe calls path s k).tail = some tail) : h.left (path ++ tail) = [] := by
  induction calls generalizing path s k tail with
  | zero =>
    cases hsome
    rw [List.append_nil]
    exact List.length_eq_zero_iff.mp hlen
  | succ calls ih =>
    obtain ⟨call, rest, next, k', rfl, hcall, hrest⟩ := exists_probe_of_some hsome
    rw [List.append_cons]
    exact ih (length_left_snoc hlen hcall) hrest

end

/-! ## The entry of the cutoff -/

def HasId (h : History Op) (k : Nat) : Prop := ∃ i < h.entries.size, h.idAt i = k

theorem HasId.max {h : History Op} {k i : Nat} (hk : h.HasId k) (hi : i < h.entries.size) :
    h.HasId (max k (h.idAt i)) := by
  rcases Nat.le_total k (h.idAt i) with hle | hle
  · rw [Nat.max_eq_right hle]
    exact ⟨i, hi, rfl⟩
  · rwa [Nat.max_eq_left hle]

theorem HasId.probeAhead {h : History Op} {below : List Nat → State → Nat → Probe}
    (hbelow : ∀ path s k, h.HasId k → h.HasId (below path s k).cutoff) {path : List Nat} {s : State}
    {ahead : List Nat} (hahead : ∀ i ∈ ahead, i < h.entries.size) {k : Nat} (hk : h.HasId k) :
    h.HasId (h.probeAhead below path s ahead k).cutoff := by
  induction ahead generalizing k with
  | nil => exact hk
  | cons i ahead ih =>
    have hrest : ∀ j ∈ ahead, j < h.entries.size := fun j hj => hahead j (List.mem_cons_of_mem i hj)
    cases hi : h.isCallAt i with
    | false =>
      rw [probeAhead_ret hi]
      exact hk
    | true =>
      cases hn : h.next? s i with
      | none =>
        rw [probeAhead_refused hi hn]
        refine ih hrest (hk.max ?_)
        cases ahead with
        | nil => exact hahead i List.mem_cons_self
        | cons j ahead => exact hrest j List.mem_cons_self
      | some next =>
        have hk' := hbelow (path ++ [i]) next k hk
        cases hb : below (path ++ [i]) next k with
        | mk tail k' =>
          rw [hb] at hk'
          cases tail with
          | some tail =>
            rw [probeAhead_found hi hn hb]
            exact hk'
          | none =>
            rw [probeAhead_missed hi hn hb]
            exact ih hrest hk'

theorem HasId.probe {h : History Op} {k : Nat} (hk : h.HasId k) (calls : Nat) (path : List Nat)
    (s : State) : h.HasId (h.probe calls path s k).cutoff := by
  induction calls generalizing path s k with
  | zero => exact hk
  | succ calls ih =>
    exact HasId.probeAhead (fun path s k hk => ih hk path s) (fun i hi => (mem_rest.mp hi).1) hk

/-! ## Confined histories -/

/-- Beside whatever calls the specification accepts one after another there are others left, and
those that may come next have ids up to `c`. -/
def Confined (State : Type) [Specification State Op] (h : History Op) (c : Nat) : Prop :=
  ∀ (order : List Nat) (t : State), h.Leads [] Specification.init order t →
    h.left order ≠ [] ∧ ∀ call ∈ h.front order, h.idAt call ≤ c

variable [Operation Op] {h : History Op} (hw : h.WellPaired)

include hw

theorem Leads.probe_reaches {calls k : Nat} {path tail : List Nat} {s t : State}
    (hl : h.Leads path s tail t) (hlen : (h.left path).length = calls)
    (hnone : (h.probe calls path s k).tail = none) :
    h.left (path ++ tail) ≠ [] ∧
      ∀ call ∈ h.front (path ++ tail), h.idAt call ≤ (h.probe calls path s k).cutoff := by
  induction tail generalizing calls path s k with
  | nil =>
    rw [List.append_nil]
    exact ⟨left_ne_nil_of_probe hlen hnone, History.probe_reaches hw hlen s k hnone⟩
  | cons first tail ih =>
    obtain ⟨hnil, _⟩ | ⟨call, rest, next, heq, hfront, hn, hl⟩ := hl.cases
    · cases hnil
    · cases heq
      cases calls with
      | zero => cases hnone
      | succ calls =>
        obtain ⟨k', hnone', hle⟩ := exists_probe_of_none hnone hfront hn
        obtain ⟨hne, hreach⟩ := ih hl (length_left_snoc hlen hfront) hnone'
        rw [List.append_cons]
        exact ⟨hne, fun call hcall => le_trans (hreach call hcall) hle⟩

theorem confined_of_probeAll (hnone : (h.probeAll State).tail = none) :
    h.Confined State (h.probeAll State).cutoff := by
  intro order t hl
  exact hl.probe_reaches hw hw.length_left_nil hnone

theorem hasId_zero (hne : h.left [] ≠ []) : h.HasId 0 := by
  obtain ⟨c, hc⟩ := List.exists_mem_of_ne_nil _ hne
  have hpos : 0 < h.entries.size :=
    Nat.lt_of_le_of_lt (Nat.zero_le c) (WellPaired.lt_size_of_isCallAt (mem_left.mp hc).1)
  have hcall : h.isCallAt 0 = true := by
    by_contra hret
    exact absurd (hw.mate_lt_of_ret hpos (Bool.eq_false_iff.mpr hret)) (Nat.not_lt_zero _)
  exact ⟨0, hpos, hw.idAt_eq hcall⟩

theorem HasId.exists_return {k : Nat} (hk : h.HasId k) :
    ∃ stop < h.entries.size, (h.idAt stop = k ∧ h.isCallAt stop = false) ∧
      ∀ i < h.entries.size, h.idAt i = k → i = stop ∨ i = h.mate stop := by
  obtain ⟨call, hcall, hid⟩ : ∃ call, h.isCallAt call = true ∧ h.idAt call = k := by
    obtain ⟨i, hi, rfl⟩ := hk
    cases hc : h.isCallAt i with
    | true => exact ⟨i, hc, rfl⟩
    | false => exact ⟨h.mate i, by rw [hw.isCallAt_mate hi, hc]; rfl, idAt_mate hw hi⟩
  have hlt := WellPaired.lt_size_of_isCallAt hcall
  refine ⟨h.mate call, hw.mate_lt hlt, ⟨(idAt_mate hw hlt).trans hid, ?_⟩, fun i hi hik => ?_⟩
  · rw [hw.isCallAt_mate hlt, hcall]
    rfl
  · rw [hw.mate_mate hlt]
    cases hc : h.isCallAt i with
    | true => exact .inr (hw.idAt_inj hc hcall (hik.trans hid.symm))
    | false =>
      have hmate : h.isCallAt (h.mate i) = true := by rw [hw.isCallAt_mate hi, hc]; rfl
      have heq := hw.idAt_inj hmate hcall (((idAt_mate hw hi).trans hik).trans hid.symm)
      exact .inl (by rw [← heq, hw.mate_mate hi])

/-- An order of calls that keeps to real time is a path when none of them waits for another call. -/
theorem isPath_of_pairwise {order : List Nat} (hcalls : ∀ c ∈ order, h.isCallAt c = true)
    (hnodup : order.Nodup) (hrt : order.Pairwise fun a b => ¬ h.Precedes b a)
    (hout : ∀ d, h.isCallAt d = true → d ∉ order → ∀ c ∈ order, ¬ h.Precedes d c) :
    h.IsPath order := by
  induction order using List.reverseRecOn with
  | nil => exact .nil
  | append_singleton order x ih =>
    obtain ⟨hnodup, _, hdisjoint⟩ := List.nodup_append.mp hnodup
    obtain ⟨hrt, _, hlast⟩ := List.pairwise_append.mp hrt
    have hx := hcalls x (by simp)
    have hnew : x ∉ order := fun hmem => hdisjoint x hmem x (by simp) rfl
    have hbefore : ∀ d, h.isCallAt d = true → d ∉ order →
        ∀ c ∈ order ++ [x], ¬ h.Precedes d c := by
      intro d hd hmem c hc hprec
      by_cases hdx : d = x
      · subst hdx
        rcases List.mem_append.mp hc with hc | hc
        · exact hlast c hc d (by simp) hprec
        · have hlt := WellPaired.lt_size_of_isCallAt hd
          rw [List.mem_singleton.mp hc, hw.precedes_iff hlt] at hprec
          exact Nat.lt_asymm hprec (hw.lt_mate hd)
      · exact hout d hd (by simp [hmem, hdx]) c hc hprec
    refine (ih (fun c hc => hcalls c (List.mem_append_left _ hc)) hnodup hrt
      fun d hd hmem c hc => hbefore d hd hmem c (List.mem_append_left _ hc)).snoc ?_
    refine hw.mem_front_iff.mpr ⟨mem_left.mpr ⟨hx, hnew⟩, fun d hd => ?_⟩
    obtain ⟨hdc, hdn⟩ := mem_left.mp hd
    exact hbefore d hdc hdn x (by simp)

theorem Confined.exists_next {c : Nat} (hconf : h.Confined State c) {order : List Nat}
    (hp : h.IsPath order) (ha : (h.replay? (Specification.init : State) order).isSome) :
    ∃ call, h.isCallAt call = true ∧ call ∉ order ∧ h.idAt call ≤ c := by
  obtain ⟨t, ht⟩ := Option.isSome_iff_exists.mp ha
  obtain ⟨hne, hids⟩ := hconf order t ⟨hp, ht⟩
  obtain ⟨call, hcall⟩ := List.exists_mem_of_ne_nil _ (front_ne_nil hw hne)
  obtain ⟨hc, hnew⟩ := mem_left.mp (front_subset_left hcall)
  exact ⟨call, hc, hnew, hids call hcall⟩

end Linearizability.History

/-! ## Negative checks -/

namespace Linearizability

theorem CheckResult.linearizable_of_isLinearizable {r : CheckResult} {verdict : Bool}
    (h : r.isLinearizable = .ok verdict) : r.linearizable = verdict := by
  unfold isLinearizable at h
  split at h
  · cases h
  · exact Except.ok.inj h

namespace Tester

variable {Op State : Type} [Specification State Op] [Operation Op] [LawfulSpecification State]

/-- A negative check leaves every entry. Its cutoff is the id of one, and confines the history. -/
theorem exists_checkInto_confined {t : Tester State Op} (hw : t.history.WellPaired)
    (hcap : t.config.lruCapacity ≠ 0) (htime : t.config.timeout = none) (clock : Clock)
    (r : CheckResult) :
    ∃ after result, t.checkInto clock r = (.ok after, result) ∧ result.isTimeout = false ∧
      (result.isLinearizable = .ok false → result.linearizable = false ∧
        result.remaining = List.range t.history.entries.size ∧
        t.history.HasId result.cutoff ∧ t.history.Confined State result.cutoff) := by
  obtain ⟨after, hcheck⟩ := checkInto_probe hw hcap htime clock r
  refine ⟨after, _, hcheck, rfl, fun hneg => ?_⟩
  have hneg := CheckResult.linearizable_of_isLinearizable hneg
  cases htail : (t.history.probeAll State).tail with
  | none =>
    have hne := History.left_ne_nil_of_probe hw.length_left_nil htail
    refine ⟨hneg, ?_, (History.hasId_zero hw hne).probe _ _ _,
      History.confined_of_probeAll hw htail⟩
    show t.history.rest ((t.history.probeAll State).tail.getD []) = _
    rw [htail]
    simp [History.rest]
  | some order =>
    have hrest := hw.rest_eq_nil_iff.mpr (History.left_eq_nil_of_probe hw.length_left_nil htail)
    have hneg : (t.history.rest ((t.history.probeAll State).tail.getD [])).isEmpty = false := hneg
    rw [htail, Option.getD_some, ← List.nil_append order, hrest] at hneg
    cases hneg

end Tester

end Linearizability
