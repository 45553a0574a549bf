import Linearizability.Proofs.History.View
import Linearizability.Proofs.Slicing.Places
import Linearizability.Slicing

/-!
# Cutting a history

When every entry of a complete history has a key, all of them are copied,
and each sub-history becomes a complete log of the entries of its part, in
order and paired as they were.
-/

namespace Linearizability

variable {Op : Type} [Operation Op]

namespace History

/-- The entries of part `p` before `k`, each at its place. -/
structure SubLog (h : History Op) (part : Nat → Nat) (p k : Nat) (log : Log Op) : Prop where
  recorded : log.Recorded
  size : log.size = countPart part p k
  capacity : log.capacity = countPart part p h.entries.size
  view : ∀ {i : Nat} {e : Entry Op}, h.entries[i]? = some e → i < k → part i = p →
    log.entries[place part i]?.map Entry.view =
      some (e.op, e.isCall,
        if h.mate i < k then some (place part (h.mate i)) else none)

variable {h : History Op} (hw : h.WellPaired) {part : Nat → Nat} {p k : Nat} {log : Log Op}

include hw

omit hw in
theorem SubLog.skip (hpart : h.KeepsPairs part) (hs : h.SubLog part p k log) (hp : part k ≠ p) :
    h.SubLog part p (k + 1) log where
  recorded := hs.recorded
  size := by rw [hs.size, countPart_succ, if_neg hp, Nat.add_zero]
  capacity := hs.capacity
  view := by
    intro i e he hi hip
    have hne : i ≠ k := by rintro rfl; exact hp hip
    have hmate : h.mate i ≠ k := by
      rintro rfl
      exact hp ((hpart _ (Array.getElem?_eq_some_iff.mp he).1).trans hip)
    have hlt : h.mate i < k + 1 ↔ h.mate i < k := by omega
    simp only [hlt]
    exact hs.view he (by omega) hip

variable {e : Entry Op} (he : h.entries[k]? = some e)

include he

omit hw in
theorem SubLog.room (hs : h.SubLog part p k log) (hp : part k = p) :
    log.size < log.capacity := by
  rw [hs.size, hs.capacity, ← hp]
  exact place_lt rfl (Array.getElem?_eq_some_iff.mp he).1

theorem SubLog.exists_addCall (hs : h.SubLog part p k log) (hc : e.isCall = true)
    (hp : part k = p) (thread : Nat) :
    ∃ after, log.addCall e.op thread = (.ok (place part k), after) ∧
      h.SubLog part p (k + 1) after := by
  have hkc : h.isCallAt k = true := (isCallAt_eq he).trans hc
  have hsize : log.size = place part k := by rw [hs.size, place, hp]
  obtain ⟨after, hadd, hsize', hcap, hview⟩ := Log.exists_addCall (hs.room he hp) e.op thread
  refine ⟨after, hsize ▸ hadd, .addCall hs.recorded hadd, ?_, hcap.trans hs.capacity, ?_⟩
  · rw [hsize', hs.size, countPart_succ, if_pos hp]
  · intro i f hf hi hip
    rw [hview]
    rcases Nat.lt_succ_iff_lt_or_eq.mp hi with hi | rfl
    · have hlt := place_lt hip hi
      have hmate : h.mate i ≠ k := by
        rintro rfl
        have hlt := hw.lt_mate hkc
        rw [hw.mate_mate (Array.getElem?_eq_some_iff.mp hf).1] at hlt
        omega
      have hiff : h.mate i < k + 1 ↔ h.mate i < k := by omega
      rw [if_pos (hs.size ▸ hlt)]
      simp only [hiff]
      exact hs.view hf hi hip
    · rw [he] at hf
      cases hf
      have hmate := hw.lt_mate hkc
      rw [hsize, if_neg (Nat.lt_irrefl _), if_pos rfl, if_neg (by omega), hc]

theorem SubLog.exists_addRet (hpart : h.KeepsPairs part) (hs : h.SubLog part p k log)
    (hr : e.isCall = false) (hp : part k = p) (thread : Nat) :
    ∃ after, log.addRet (place part (h.mate k)) e.op thread =
        (.ok (place part k), after) ∧ h.SubLog part p (k + 1) after := by
  have hk := (Array.getElem?_eq_some_iff.mp he).1
  have hkr : h.isCallAt k = false := (isCallAt_eq he).trans hr
  have hsize : log.size = place part k := by rw [hs.size, place, hp]
  have hlt := hw.mate_lt_of_ret hk hkr
  have hpc : part (h.mate k) = p := (hpart _ hk).trans hp
  obtain ⟨_, c, _, hc, _, _⟩ := hw.exists_halves hk
  have hcc : c.isCall = true := by
    have hmc := hw.isCallAt_mate hk
    rwa [hkr, isCallAt_eq hc] at hmc
  have hcall := hs.view hc hlt hpc
  rw [hw.mate_mate hk, if_neg (Nat.lt_irrefl k), hcc] at hcall
  obtain ⟨after, hadd, hsize', hcap, hview⟩ :=
    Log.exists_addRet (hs.room he hp) hcall e.op thread
  refine ⟨after, hsize ▸ hadd, .addRet hs.recorded hadd, ?_, hcap.trans hs.capacity, ?_⟩
  · rw [hsize', hs.size, countPart_succ, if_pos hp]
  · intro i f hf hi hip
    have hfi := (Array.getElem?_eq_some_iff.mp hf).1
    rw [hview]
    by_cases hic : i = h.mate k
    · subst hic
      rw [hc] at hf
      cases hf
      rw [if_pos rfl, hw.mate_mate hk, if_pos (Nat.lt_succ_self k), hsize, hcc]
    · have hne : place part i ≠ place part (h.mate k) :=
        fun hpl => hic (place_inj (hip.trans hpc.symm) hpl)
      rw [if_neg hne]
      rcases Nat.lt_succ_iff_lt_or_eq.mp hi with hi | rfl
      · have hpi := place_lt hip hi
        have hmate : h.mate i ≠ k := by
          rintro rfl
          exact hic (hw.mate_mate hfi).symm
        have hiff : h.mate i < k + 1 ↔ h.mate i < k := by omega
        rw [if_pos (hs.size ▸ hpi)]
        simp only [hiff]
        exact hs.view hf hi hip
      · rw [he] at hf
        cases hf
        rw [hsize, if_neg (Nat.lt_irrefl _), if_pos rfl, if_pos (by omega), hr]

end History

/-! ## One entry -/

namespace Slices

omit [Operation Op] in
theorem Cut.exists_append {cut : Cut Op} {part : Nat} {log : Log Op}
    (hl : cut.sublogs[part]? = some log) (add : Log Op → Except Fault Nat × Log Op) :
    ∃ sublogs, cut.append part add = ((add log).1, ⟨sublogs, cut.calls⟩) ∧
      sublogs.size = cut.sublogs.size ∧
      ∀ q, sublogs[q]? = if q = part then some (add log).2 else cut.sublogs[q]? := by
  obtain ⟨hlt, hget⟩ := Array.getElem?_eq_some_iff.mp hl
  obtain ⟨sublogs, calls⟩ := cut
  refine ⟨(sublogs.set part (.ofCapacity 0) hlt).setIfInBounds part (add log).2, ?_, ?_, ?_⟩
  · simp only [Cut.append, dif_pos hlt, takeOut, Array.swapAt, hget]
  · simp
  · intro q
    by_cases hq : q = part
    · rw [if_pos hq, hq, Array.getElem?_setIfInBounds_self_of_lt (by simpa using hlt)]
    · rw [if_neg hq, Array.getElem?_setIfInBounds_ne (Ne.symm hq),
        Array.getElem?_set_ne hlt (Ne.symm hq)]

end Slices

namespace History

/-- The sub-histories after the entries before `k`. -/
structure CutAt (h : History Op) (count k : Nat) (cut : Slices.Cut Op) : Prop where
  size : cut.sublogs.size = count
  sublog : ∀ p < count, ∃ log, cut.sublogs[p]? = some log ∧ h.SubLog (h.partAt count) p k log
  calls : ∀ i < k, h.isCallAt i = true →
    cut.calls.lookup i = some (place (h.partAt count) i)

variable {h : History Op} (hw : h.WellPaired) {count k : Nat} {cut : Slices.Cut Op} {e : Entry Op}

include hw

theorem CutAt.exists_add (hc : h.CutAt count k cut) (hpos : 0 < count)
    (he : h.entries[k]? = some e) :
    ∃ after, cut.add (k, e) = .ok after ∧ h.CutAt count (k + 1) after := by
  have hk := (Array.getElem?_eq_some_iff.mp he).1
  have hpart : e.key.elim 0 (· % cut.sublogs.size) = h.partAt count k := by
    rw [partAt, keyAt, he, hc.size]
    rfl
  obtain ⟨log, hlog, hs⟩ := hc.sublog _ (partAt_lt hpos k)
  -- the sub-history of the entry has it at the end, and the others do not change
  have hsublogs : ∀ {sublogs : Array (Log Op)} {after : Log Op},
      (∀ q, sublogs[q]? = if q = h.partAt count k then some after else cut.sublogs[q]?) →
      h.SubLog (h.partAt count) (h.partAt count k) (k + 1) after →
      ∀ p < count, ∃ log, sublogs[p]? = some log ∧ h.SubLog (h.partAt count) p (k + 1) log := by
    intro sublogs after hget hafter p hp
    rw [hget p]
    by_cases hpk : p = h.partAt count k
    · rw [if_pos hpk]
      exact ⟨after, rfl, hpk ▸ hafter⟩
    · rw [if_neg hpk]
      obtain ⟨other, hother, hso⟩ := hc.sublog p hp
      exact ⟨other, hother, hso.skip (hw.keepsPairs_partAt count) (Ne.symm hpk)⟩
  unfold Slices.Cut.add
  simp only [hpart]
  cases hec : e.isCall with
  | true =>
    obtain ⟨after, hadd, hafter⟩ := hs.exists_addCall hw he hec rfl e.thread
    obtain ⟨sublogs, happend, hsize, hget⟩ :=
      Slices.Cut.exists_append hlog (·.addCall e.op e.thread)
    rw [hadd] at happend hget
    simp only [if_true, happend]
    refine ⟨_, rfl, hsize.trans hc.size, hsublogs hget hafter, ?_⟩
    intro i hi hic
    rcases Nat.lt_succ_iff_lt_or_eq.mp hi with hi | rfl
    · have hne : (i == k) = false := by simp; omega
      simp only [List.lookup_cons, hne]
      exact hc.calls i hi hic
    · simp
  | false =>
    have hkr : h.isCallAt k = false := (isCallAt_eq he).trans hec
    have hlookup := hc.calls (h.mate k) (hw.mate_lt_of_ret hk hkr) (by
      rw [hw.isCallAt_mate hk, hkr]; rfl)
    obtain ⟨after, hadd, hafter⟩ :=
      hs.exists_addRet hw he (hw.keepsPairs_partAt count) hec rfl e.thread
    obtain ⟨sublogs, happend, hsize, hget⟩ :=
      Slices.Cut.exists_append hlog (·.addRet (place (h.partAt count) (h.mate k)) e.op e.thread)
    rw [hadd] at happend hget
    simp only [Bool.false_eq_true, if_false, hw.matched_eq he, Option.bind_some, hlookup, happend]
    refine ⟨_, rfl, hsize.trans hc.size, hsublogs hget hafter, ?_⟩
    intro i hi hic
    rcases Nat.lt_succ_iff_lt_or_eq.mp hi with hi | rfl
    · exact hc.calls i hi hic
    · rw [hkr] at hic
      cases hic

/-! ## The whole history -/

theorem CutAt.exists_foldl (hc : h.CutAt count 0 cut) (hpos : 0 < count) :
    ∀ k ≤ h.entries.size, ∃ after, (h.toList.take k).foldlM Slices.Cut.add cut = .ok after ∧
      h.CutAt count k after := by
  intro k
  induction k with
  | zero => exact fun _ => ⟨cut, rfl, hc⟩
  | succ k ih =>
    intro hk
    obtain ⟨before, hfold, hb⟩ := ih (Nat.le_of_succ_le hk)
    have he : h.entries[k]? = some h.entries[k] := Array.getElem?_eq_getElem hk
    obtain ⟨after, hadd, hafter⟩ := hb.exists_add hw hpos he
    refine ⟨after, ?_, hafter⟩
    rw [List.take_add_one, hw.getElem?_toList, he, List.foldlM_append, hfold]
    simp only [bind, Except.bind, Option.map_some, Option.toList_some, List.foldlM_cons,
      List.foldlM_nil, hadd]
    rfl

omit hw [Operation Op] in
theorem foldlM_sizes (count : Nat) {entries : List (Nat × Entry Op)} {sizes after : Array Nat}
    {step : Array Nat → Nat × Entry Op → Except CheckError (Array Nat)}
    (hstep : ∀ sizes ref e, step sizes (ref, e) = e.key.elim (.error (.notPartitionable e.id))
      fun key => .ok (sizes.modify (key % count) (· + 1)))
    (hfold : entries.foldlM step sizes = .ok after) :
    (∀ x ∈ entries, x.2.key.isSome) ∧ after.size = sizes.size ∧
      ∀ p, after[p]? = sizes[p]?.map
        (· + entries.countP fun x => x.2.key.elim 0 (· % count) = p) := by
  induction entries generalizing sizes with
  | nil =>
    cases hfold
    simp
  | cons x entries ih =>
    obtain ⟨ref, e⟩ := x
    rw [List.foldlM_cons, hstep] at hfold
    cases hkey : e.key with
    | none =>
      rw [hkey] at hfold
      cases hfold
    | some key =>
      rw [hkey] at hfold
      obtain ⟨hkeys, hsize, hget⟩ := ih hfold
      refine ⟨?_, by simpa using hsize, ?_⟩
      · intro x hx
        rcases List.mem_cons.mp hx with rfl | hx
        · simp [hkey]
        · exact hkeys x hx
      · intro p
        rw [hget p, Array.getElem?_modify, List.countP_cons]
        by_cases hp : key % count = p
        · simp only [hp, if_true, hkey, Option.elim_some, decide_true, Option.map_map]
          congr 1
          funext x
          simp only [Function.comp]
          omega
        · simp [hp, hkey]

theorem countP_toList (p : Nat) :
    h.toList.countP (fun x => x.2.key.elim 0 (· % count) = p) =
      countPart (h.partAt count) p h.entries.size := by
  rw [countPart, ← hw.map_fst_toList, List.countP_map]
  apply List.countP_congr
  rintro ⟨i, e⟩ hmem
  simp [partAt, keyAt, hw.mem_toList_iff.mp hmem]

theorem cutAt_zero {sizes : Array Nat} (hs : Slices.sizes count h.toList = .ok sizes) :
    (∀ i < h.entries.size, (h.keyAt i).isSome) ∧
      h.CutAt count 0 ⟨sizes.map .ofCapacity, []⟩ := by
  unfold Slices.sizes at hs
  obtain ⟨hkeys, hsize, hget⟩ := foldlM_sizes count
    (by intro sizes ref e; dsimp only; cases e.key <;> rfl) hs
  refine ⟨?_, ?_, ?_, ?_⟩
  · intro i hi
    have he : h.entries[i]? = some h.entries[i] := Array.getElem?_eq_getElem hi
    rw [keyAt, he]
    exact hkeys _ (hw.mem_toList_iff.mpr he)
  · simpa using hsize
  · intro p hp
    have hzero : (Array.replicate count 0)[p]? = some 0 := by simp [hp]
    have hp' := hget p
    rw [hzero, Option.map_some, Nat.zero_add, countP_toList hw] at hp'
    refine ⟨.ofCapacity (countPart (h.partAt count) p h.entries.size), ?_, ?_⟩
    · rw [Array.getElem?_map, hp']
      rfl
    · exact ⟨.ofCapacity _, rfl, rfl, fun _ hi => absurd hi (Nat.not_lt_zero _)⟩
  · intro i hi
    exact absurd hi (Nat.not_lt_zero i)

end History

end Linearizability
