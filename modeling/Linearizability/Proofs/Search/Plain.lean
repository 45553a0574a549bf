import Linearizability.Proofs.Search.Completion

/-!
# The search without a memo

`probe` goes through the configurations in the order of the search. It
remembers none of them and carries nothing along but the cutoff. What it
finds depends on the configuration only, and a probe that comes back without
an order has raised the cutoff to the id of every call that could have come
next.
-/

namespace Linearizability

structure Probe where
  /-- The calls that complete the path, if the probe has found an order. -/
  tail : Option (List Nat)
  cutoff : Nat

def Probe.raise (k : Nat) (p : Probe) : Probe := { p with cutoff := max k p.cutoff }

namespace History

variable {Op State : Type} [Specification State Op]

/-- Go through the entries ahead. Below a call that is accepted the probe goes on as `below` says. -/
def probeAhead (h : History Op) (below : List Nat → State → Nat → Probe) (path : List Nat)
    (s : State) : (ahead : List Nat) → (cutoff : Nat) → Probe
  | [], k => ⟨none, k⟩
  | i :: ahead, k =>
    if h.isCallAt i then
      match h.next? s i with
      | none => h.probeAhead below path s ahead (max k (h.idAt (ahead.headD i)))
      | some next =>
        match below (path ++ [i]) next k with
        | ⟨some tail, k⟩ => ⟨some (i :: tail), k⟩
        | ⟨none, k⟩ => h.probeAhead below path s ahead k
    else ⟨none, k⟩

def probe (h : History Op) : (calls : Nat) → List Nat → State → (cutoff : Nat) → Probe
  | 0, _, _, k => ⟨some [], k⟩
  | calls + 1, path, s, k => h.probeAhead (h.probe calls) path s (h.rest path) k

/-! ## One call ahead -/

section

variable {h : History Op} {below : List Nat → State → Nat → Probe} {path : List Nat}
  {s next : State} {i k k' : Nat} {ahead : List Nat}

theorem probeAhead_ret (hi : h.isCallAt i = false) :
    h.probeAhead below path s (i :: ahead) k = ⟨none, k⟩ := by
  simp [probeAhead, hi]

theorem probeAhead_refused (hi : h.isCallAt i = true) (hn : h.next? s i = none) :
    h.probeAhead below path s (i :: ahead) k =
      h.probeAhead below path s ahead (max k (h.idAt (ahead.headD i))) := by
  simp only [probeAhead, hi, if_true, hn]

theorem probeAhead_found {tail : List Nat} (hi : h.isCallAt i = true) (hn : h.next? s i = some next)
    (hb : below (path ++ [i]) next k = ⟨some tail, k'⟩) :
    h.probeAhead below path s (i :: ahead) k = ⟨some (i :: tail), k'⟩ := by
  simp only [probeAhead, hi, if_true, hn, hb]

theorem probeAhead_missed (hi : h.isCallAt i = true) (hn : h.next? s i = some next)
    (hb : below (path ++ [i]) next k = ⟨none, k'⟩) :
    h.probeAhead below path s (i :: ahead) k = h.probeAhead below path s ahead k' := by
  simp only [probeAhead, hi, if_true, hn, hb]

end

/-! ## The cutoff at the beginning -/

theorem probeAhead_raise (h : History Op) {below : List Nat → State → Nat → Probe} {k : Nat}
    (hbelow : ∀ path s j, below path s (max k j) = (below path s j).raise k) (path : List Nat)
    (s : State) (ahead : List Nat) (j : Nat) :
    h.probeAhead below path s ahead (max k j) = (h.probeAhead below path s ahead j).raise k := by
  induction ahead generalizing j with
  | nil => rfl
  | cons i ahead ih =>
    cases hi : h.isCallAt i with
    | false => rw [probeAhead_ret hi, probeAhead_ret hi, Probe.raise]
    | true =>
      cases hn : h.next? s i with
      | none => rw [probeAhead_refused hi hn, probeAhead_refused hi hn, Nat.max_assoc, ih]
      | some next =>
        have hb' := hbelow (path ++ [i]) next j
        cases hb : below (path ++ [i]) next j with
        | mk tail j' =>
          rw [hb] at hb'
          cases tail with
          | some tail => rw [probeAhead_found hi hn hb, probeAhead_found hi hn hb', Probe.raise]
          | none => rw [probeAhead_missed hi hn hb, probeAhead_missed hi hn hb', ih]

/-- A cutoff that the probe begins with is a lower bound and nothing else. -/
theorem probe_raise (h : History Op) (calls : Nat) (path : List Nat) (s : State) (k j : Nat) :
    h.probe calls path s (max k j) = (h.probe calls path s j).raise k := by
  induction calls generalizing path s j with
  | zero => rfl
  | succ calls ih => exact probeAhead_raise h (fun path s j => ih path s j) path s (h.rest path) j

theorem le_cutoff_probe (h : History Op) (calls : Nat) (path : List Nat) (s : State) (k : Nat) :
    k ≤ (h.probe calls path s k).cutoff := by
  have hraise := probe_raise h calls path s k 0
  rw [Nat.max_zero] at hraise
  rw [hraise]
  exact Nat.le_max_left _ _

theorem le_cutoff_probeAhead (h : History Op) (calls : Nat) (path : List Nat) (s : State)
    (ahead : List Nat) (k : Nat) : k ≤ (h.probeAhead (h.probe calls) path s ahead k).cutoff := by
  have hraise := probeAhead_raise h (fun path s j => probe_raise h calls path s k j) path s ahead 0
  rw [Nat.max_zero] at hraise
  rw [hraise]
  exact Nat.le_max_left _ _

/-! ## Equal configurations -/

section Lawful

variable [LawfulSpecification State] {h : History Op}

theorem next?_eq_none_congr {s t : State} {call : Nat} (hst : (s == t) = true)
    (hs : h.next? s call = none) : h.next? t call = none := by
  cases ht : h.next? t call with
  | none => rfl
  | some t' =>
    obtain ⟨s', hs', _⟩ := next?_congr (BEq.symm hst) ht
    rw [hs] at hs'
    cases hs'

theorem probeAhead_congr {below : List Nat → State → Nat → Probe} {path path' : List Nat}
    (hbelow : ∀ i (s t : State) k, (s == t) = true →
      below (path ++ [i]) s k = below (path' ++ [i]) t k)
    {s t : State} (hst : (s == t) = true) (ahead : List Nat) (k : Nat) :
    h.probeAhead below path s ahead k = h.probeAhead below path' t ahead k := by
  induction ahead generalizing k with
  | nil => rfl
  | cons i ahead ih =>
    cases hi : h.isCallAt i with
    | false => rw [probeAhead_ret hi, probeAhead_ret hi]
    | true =>
      cases hn : h.next? s i with
      | none =>
        rw [probeAhead_refused hi hn, probeAhead_refused hi (next?_eq_none_congr hst hn), ih]
      | some next =>
        obtain ⟨next', hn', hnn⟩ := next?_congr hst hn
        have hb' := hbelow i next next' k hnn
        cases hb : below (path ++ [i]) next k with
        | mk tail k' =>
          rw [hb] at hb'
          cases tail with
          | some tail => rw [probeAhead_found hi hn hb, probeAhead_found hi hn' hb'.symm]
          | none => rw [probeAhead_missed hi hn hb, probeAhead_missed hi hn' hb'.symm, ih]

theorem probe_congr {path path' : List Nat} (hp : ∀ c, c ∈ path ↔ c ∈ path') {s t : State}
    (hst : (s == t) = true) (calls k : Nat) :
    h.probe calls path s k = h.probe calls path' t k := by
  induction calls generalizing path path' s t k with
  | zero => rfl
  | succ calls ih =>
    rw [probe, probe, rest_congr hp]
    refine probeAhead_congr (fun i s t k hst => ih ?_ hst k) hst _ k
    intro c
    rw [List.mem_append, List.mem_append, hp c]

end Lawful

/-! ## What a failed probe reaches -/

section Reached

variable [Operation Op] {h : History Op} (hw : h.WellPaired) {path passed ahead : List Nat} {i j : Nat}

omit [Operation Op] in
theorem subset_front (hrest : h.rest path = passed ++ ahead)
    (hpassed : ∀ c ∈ passed, h.isCallAt c = true) : passed ⊆ h.front path := by
  rw [front, hrest, List.takeWhile_append_of_pos hpassed]
  exact List.subset_append_left _ _

include hw

theorem idAt_mate (hi : i < h.entries.size) : h.idAt (h.mate i) = h.idAt i := by
  obtain ⟨e, f, he, hf, _, hh⟩ := hw.exists_halves hi
  rw [idAt, idAt, he, hf]
  rcases hh with hh | hh
  · exact hh.id
  · exact hh.id.symm

theorem mate_mem_of_ret (hrest : h.rest path = passed ++ j :: ahead) (hj : h.isCallAt j = false) :
    h.mate j ∈ passed := by
  have hmem : j ∈ h.rest path := by rw [hrest]; simp
  have hlt := hw.mate_lt_of_ret (mem_rest.mp hmem).1 hj
  have hmate := hw.mate_mem_rest hmem
  have hsorted := h.rest_pairwise path
  rw [hrest] at hmate hsorted
  rcases List.mem_append.mp hmate with hm | hm
  · exact hm
  · rcases List.mem_cons.mp hm with hm | hm
    · omega
    · have := (List.pairwise_cons.mp (List.pairwise_append.mp hsorted).2.1).1 _ hm
      omega

theorem exists_next (hrest : h.rest path = passed ++ i :: ahead)
    (hpassed : ∀ c ∈ passed, h.isCallAt c = true) (hi : h.isCallAt i = true) :
    ∃ j behind, ahead = j :: behind := by
  apply List.exists_cons_of_ne_nil
  rintro rfl
  have hmate := hw.mate_mem_rest (show i ∈ h.rest path by rw [hrest]; simp)
  have hret : h.isCallAt (h.mate i) = false := by
    rw [hw.isCallAt_mate (WellPaired.lt_size_of_isCallAt hi), hi]
    rfl
  rw [hrest] at hmate
  rcases List.mem_append.mp hmate with hm | hm
  · rw [hpassed _ hm] at hret
    cases hret
  · rw [List.mem_singleton.mp hm, hi] at hret
    cases hret

theorem front_ne_nil (hne : h.left path ≠ []) : h.front path ≠ [] := by
  obtain ⟨i, ahead, hrest⟩ := List.exists_cons_of_ne_nil (mt hw.rest_eq_nil_iff.mp hne)
  have hi : h.isCallAt i = true := by
    by_contra hret
    exact List.not_mem_nil (mate_mem_of_ret hw hrest (Bool.eq_false_iff.mpr hret))
  rw [front, hrest, List.takeWhile_cons_of_pos hi]
  exact List.cons_ne_nil _ _

theorem mem_front_snoc (hj : j ∈ h.front path) (hne : j ≠ i) : j ∈ h.front (path ++ [i]) := by
  obtain ⟨hleft, hmin⟩ := hw.mem_front_iff.mp hj
  rw [hw.mem_front_iff, left_snoc]
  exact ⟨(List.mem_erase_of_ne hne).mpr hleft, fun d hd => hmin d (List.mem_of_mem_erase hd)⟩

theorem idAt_first_le (hrest : h.rest path = i :: j :: ahead) (hi : h.isCallAt i = true) :
    h.idAt i ≤ h.idAt j := by
  cases hj : h.isCallAt j with
  | true =>
    have hsorted := h.rest_pairwise path
    rw [hrest] at hsorted
    exact Nat.le_of_lt (hw.idAt_lt_of_lt hi hj ((List.pairwise_cons.mp hsorted).1 j (by simp)))
  | false =>
    have hlt := (mem_rest.mp (show j ∈ h.rest path by rw [hrest]; simp)).1
    have hmate : h.mate j ∈ [i] := mate_mem_of_ret hw hrest hj
    rw [← idAt_mate hw hlt, List.mem_singleton.mp hmate]

/-- The entry behind a call `i` has no larger id than the calls that may come after `i`, unless it
is the return of `i`. In that case the id was reached on the way to `i`, if a call was passed. -/
theorem idAt_next_le {k : Nat} (hrest : h.rest path = passed ++ i :: j :: ahead)
    (hpassed : ∀ c ∈ passed, h.isCallAt c = true) (hi : h.isCallAt i = true)
    (hne : h.left (path ++ [i]) ≠ []) (hk : ∀ c ∈ h.front (path ++ [i]), h.idAt c ≤ k)
    (hik : passed ≠ [] → h.idAt i ≤ k) : h.idAt j ≤ k := by
  have hsorted := h.rest_pairwise path
  have hsplit : h.rest path = (passed ++ [i]) ++ j :: ahead := by rw [hrest]; simp
  have hcalls : ∀ c ∈ passed ++ [i], h.isCallAt c = true :=
    List.forall_mem_append.mpr ⟨hpassed, List.forall_mem_singleton.mpr hi⟩
  cases hj : h.isCallAt j with
  | true =>
    have hjf : j ∈ h.front path := by
      rw [front, hsplit, List.takeWhile_append_of_pos hcalls, List.takeWhile_cons_of_pos hj]
      simp
    have hij : i < j := by
      rw [hrest] at hsorted
      exact (List.pairwise_cons.mp (List.pairwise_append.mp hsorted).2.1).1 j (by simp)
    exact hk j (mem_front_snoc hw hjf (Nat.ne_of_gt hij))
  | false =>
    have hmem := mate_mem_of_ret hw hsplit hj
    rw [← idAt_mate hw (mem_rest.mp (show j ∈ h.rest path by rw [hrest]; simp)).1]
    by_cases hmi : h.mate j = i
    · rw [hmi]
      by_cases hp : passed = []
      · -- `i` comes first, so a call that may come after it was recorded later
        obtain ⟨c, hc⟩ := List.exists_mem_of_ne_nil _ (front_ne_nil hw hne)
        have hcl := front_subset_left hc
        rw [left_snoc, List.Nodup.mem_erase_iff (h.left_nodup path)] at hcl
        have hcr := (List.mem_filter.mp hcl.2).1
        rw [hrest, hp] at hcr hsorted
        have hic : i < c := (List.mem_cons.mp hcr).elim (fun he => absurd he hcl.1)
          ((List.pairwise_cons.mp hsorted).1 c)
        exact le_trans (Nat.le_of_lt (hw.idAt_lt_of_lt hi (mem_left.mp hcl.2).1 hic)) (hk c hc)
      · exact hik hp
    · exact hk _ (mem_front_snoc hw (subset_front hsplit hcalls hmem) hmi)

variable {State : Type} [Specification State Op]

omit [Operation Op] hw in
theorem left_ne_nil_of_probe {calls k : Nat} {s : State} (hlen : (h.left path).length = calls)
    (hnone : (h.probe calls path s k).tail = none) : h.left path ≠ [] := by
  intro hnil
  rw [hnil] at hlen
  subst hlen
  cases hnone

theorem probeAhead_reaches {calls : Nat} (hlen : (h.left path).length = calls + 1)
    (hbelow : ∀ i ∈ h.front path, ∀ (s : State) k, (h.probe calls (path ++ [i]) s k).tail = none →
      ∀ c ∈ h.front (path ++ [i]), h.idAt c ≤ (h.probe calls (path ++ [i]) s k).cutoff)
    (hrest : h.rest path = passed ++ ahead) (hpassed : ∀ c ∈ passed, h.isCallAt c = true)
    {s : State} {k : Nat} (hk : ∀ c ∈ passed, h.idAt c ≤ k)
    (hnext : passed ≠ [] → ∀ j ∈ ahead.head?, h.idAt j ≤ k)
    (hnone : (h.probeAhead (h.probe calls) path s ahead k).tail = none) :
    ∀ c ∈ h.front path, h.idAt c ≤ (h.probeAhead (h.probe calls) path s ahead k).cutoff := by
  induction ahead generalizing passed k with
  | nil =>
    have hall : h.front path = passed := by
      rw [front, hrest, List.append_nil]
      exact List.takeWhile_eq_self_iff.mpr hpassed
    rw [hall]
    exact hk
  | cons i ahead ih =>
    cases hi : h.isCallAt i with
    | false =>
      have hall : h.front path = passed := by
        rw [front, hrest, List.takeWhile_append_of_pos hpassed, List.takeWhile_cons_of_neg (by simp [hi]),
          List.append_nil]
      rw [probeAhead_ret hi, hall]
      exact hk
    | true =>
      obtain ⟨j, behind, rfl⟩ := exists_next hw hrest hpassed hi
      have hik : passed ≠ [] → h.idAt i ≤ k := fun hp => hnext hp i rfl
      have hsplit : h.rest path = (passed ++ [i]) ++ j :: behind := by rw [hrest]; simp
      have hcalls : ∀ c ∈ passed ++ [i], h.isCallAt c = true :=
        List.forall_mem_append.mpr ⟨hpassed, List.forall_mem_singleton.mpr hi⟩
      -- go on behind `i` from a cutoff that has come to `j`
      have hgo : ∀ k', k ≤ k' → h.idAt j ≤ k' →
          (h.probeAhead (h.probe calls) path s (j :: behind) k').tail = none →
          ∀ c ∈ h.front path, h.idAt c ≤
            (h.probeAhead (h.probe calls) path s (j :: behind) k').cutoff := by
        intro k' hkk hj hnone
        refine ih hsplit hcalls (List.forall_mem_append.mpr
          ⟨fun c hc => le_trans (hk c hc) hkk, List.forall_mem_singleton.mpr ?_⟩)
          (fun _ j' hj' => by cases hj'; exact hj) hnone
        by_cases hp : passed = []
        · subst hp
          exact le_trans (idAt_first_le hw hrest hi) hj
        · exact le_trans (hik hp) hkk
      cases hn : h.next? s i with
      | none =>
        rw [probeAhead_refused hi hn] at hnone ⊢
        exact hgo _ (Nat.le_max_left _ _) (Nat.le_max_right _ _) hnone
      | some next =>
        have hif : i ∈ h.front path := subset_front hsplit hcalls (by simp)
        have hlen' : (h.left (path ++ [i])).length = calls := length_left_snoc hlen hif
        cases hb : h.probe calls (path ++ [i]) next k with
        | mk tail k' =>
          have hb' := hbelow i hif next k
          have hkk := le_cutoff_probe h calls (path ++ [i]) next k
          rw [hb] at hb' hkk
          cases tail with
          | some tail =>
            rw [probeAhead_found hi hn hb] at hnone
            cases hnone
          | none =>
            have hne := left_ne_nil_of_probe hlen' (congrArg Probe.tail hb)
            rw [probeAhead_missed hi hn hb] at hnone ⊢
            exact hgo k' hkk (idAt_next_le hw hrest hpassed hi hne (hb' rfl)
              fun hp => le_trans (hik hp) hkk) hnone

/-- A probe that comes back without an order has come to every call that could have come next. -/
theorem probe_reaches {calls : Nat} (hlen : (h.left path).length = calls) (s : State) (k : Nat)
    (hnone : (h.probe calls path s k).tail = none) :
    ∀ c ∈ h.front path, h.idAt c ≤ (h.probe calls path s k).cutoff := by
  induction calls generalizing path s k with
  | zero => cases hnone
  | succ calls ih =>
    exact probeAhead_reaches hw hlen (fun i hi s k => ih (length_left_snoc hlen hi) s k)
      (List.nil_append _).symm (by simp) (by simp) (by simp) hnone

end Reached

end History

end Linearizability
