import Linearizability.Proofs.Search.Completion
import Linearizability.Proofs.Slicing.Cut

/-!
# Sub-histories

The sub-history of a part is complete, and its linearizations are those of
the calls of the part within the whole history: places keep the halves of
calls and the order of entries.
-/

namespace Linearizability.History

variable {Op : Type} [Operation Op] {h : History Op} (hw : h.WellPaired) {part : Nat → Nat} {p : Nat}

def partCalls (h : History Op) (part : Nat → Nat) (p : Nat) : List Nat :=
  h.callRefs.filter (part · = p)

include hw

theorem mem_partCalls {c : Nat} :
    c ∈ h.partCalls part p ↔ h.isCallAt c = true ∧ part c = p := by
  rw [partCalls, List.mem_filter, hw.mem_callRefs, decide_eq_true_iff]

theorem nodup_partCalls (part : Nat → Nat) (p : Nat) : (h.partCalls part p).Nodup :=
  hw.nodup_callRefs.filter _

theorem ofHistory_spec {count : Nat} {slices : Slices Op}
    (hs : Slices.ofHistory h count = .ok (.ok slices)) :
    0 < count ∧ (∀ i < h.entries.size, (h.keyAt i).isSome) ∧ slices.sublogs.size = count ∧
      ∀ p < count, ∃ log, slices.sublogs[p]? = some log ∧
        h.SubLog (h.partAt count) p h.entries.size log := by
  unfold Slices.ofHistory at hs
  split at hs
  case isTrue => cases hs
  case isFalse hne =>
    cases hsizes : Slices.sizes count h.toList with
    | error e =>
      rw [hsizes] at hs
      cases hs
    | ok sizes =>
      obtain ⟨hkeys, hzero⟩ := cutAt_zero hw hsizes
      have hpos : 0 < count := Nat.pos_of_ne_zero hne
      obtain ⟨cut, hfold, hcut⟩ := hzero.exists_foldl hw hpos _ (Nat.le_refl _)
      rw [← hw.length_toList, List.take_length] at hfold
      rw [hsizes] at hs
      simp only [hfold, bind, Except.bind] at hs
      cases hs
      exact ⟨hpos, hkeys, hcut.size, hcut.sublog⟩

namespace SubLog

variable {log : Log Op} (hs : h.SubLog part p h.entries.size log)

include hs

theorem view_place {i : Nat} {e : Entry Op} (he : h.entries[i]? = some e)
    (hp : part i = p) :
    log.entries[place part i]?.map Entry.view =
      some (e.op, e.isCall, some (place part (h.mate i))) := by
  have hi := (Array.getElem?_eq_some_iff.mp he).1
  rw [hs.view he hi hp, if_pos (hw.mate_lt hi)]

theorem complete : log.Complete where
  recorded := hs.recorded
  matched := by
    intro x hx
    obtain ⟨j, hj⟩ := Array.mem_iff_getElem?.mp hx
    have hlt : j < log.size := (Array.getElem?_eq_some_iff.mp hj).1
    rw [hs.size] at hlt
    obtain ⟨i, hi, hp, rfl⟩ := exists_place hlt
    have hview := hs.view_place hw (Array.getElem?_eq_getElem hi) hp
    rw [hj, Option.map_some, Option.some.injEq] at hview
    rw [show x.matched = some _ from congrArg (·.2.2) hview]
    rfl

variable {i : Nat} (hi : i < h.entries.size) (hp : part i = p)

include hi hp

theorem exists_place_entry : ∃ e x, h.entries[i]? = some e ∧
    (ofLog log).entries[place part i]? = some x ∧ x.op = e.op ∧ x.isCall = e.isCall ∧
      x.matched = some (place part (h.mate i)) := by
  have he : h.entries[i]? = some h.entries[i] := Array.getElem?_eq_getElem hi
  obtain ⟨x, hx, hv⟩ := Option.map_eq_some_iff.mp (hs.view_place hw he hp)
  exact ⟨_, x, he, hx, congrArg (·.1) hv, congrArg (·.2.1) hv, congrArg (·.2.2) hv⟩

theorem isCallAt_place : (ofLog log).isCallAt (place part i) = h.isCallAt i := by
  obtain ⟨e, x, he, hx, _, hc, _⟩ := hs.exists_place_entry hw hi hp
  rw [isCallAt_eq hx, isCallAt_eq he, hc]

theorem mate_place :
    (ofLog log).mate (place part i) = place part (h.mate i) := by
  obtain ⟨_, x, _, hx, _, _, hm⟩ := hs.exists_place_entry hw hi hp
  rw [mate, hx, Option.bind_some, hm]
  rfl

theorem halves?_place (hpart : h.KeepsPairs part) :
    (ofLog log).halves? (place part i) = h.halves? i := by
  obtain ⟨e, x, he, hx, hop, _, hm⟩ := hs.exists_place_entry hw hi hp
  obtain ⟨f, y, hf, hy, hopf, _, _⟩ := hs.exists_place_entry hw (hw.mate_lt hi)
    ((hpart i hi).trans hp)
  simp [halves?, hx, hm, hy, he, hw.matched_eq he, hf, hop, hopf]

theorem precedes_place (hpart : h.KeepsPairs part) {j : Nat} (hpj : part j = p) :
    (ofLog log).Precedes (place part i) (place part j) ↔ h.Precedes i j := by
  have hsub := wellPaired_ofLog (hs.complete hw)
  have hlt : place part i < (ofLog log).entries.size := by
    have := place_lt hp hi
    rw [← hs.size] at this
    exact this
  have hmate : part (h.mate i) = part j := (hpart i hi).trans (hp.trans hpj.symm)
  rw [hsub.precedes_iff hlt, hs.mate_place hw hi hp, hw.precedes_iff hi, place_lt_place_iff hmate]

end SubLog

theorem complete_of_mem_sublogs {count : Nat} {slices : Slices Op}
    (hs : Slices.ofHistory h count = .ok (.ok slices)) :
    ∀ log ∈ slices.sublogs.toList, log.Complete := by
  intro log hlog
  obtain ⟨_, _, hsize, hsub⟩ := ofHistory_spec hw hs
  obtain ⟨p, hp⟩ := List.mem_iff_getElem?.mp hlog
  rw [Array.getElem?_toList] at hp
  obtain ⟨log', hlog', hs'⟩ := hsub p (hsize ▸ (Array.getElem?_eq_some_iff.mp hp).1)
  cases hp.symm.trans hlog'
  exact hs'.complete hw

/-! ## Orders of the calls of a part -/

omit hw [Operation Op] in
theorem replay?_map {State : Type} [Specification State Op] {h h' : History Op} {f : Nat → Nat}
    {order : List Nat} (hh : ∀ c ∈ order, h'.halves? (f c) = h.halves? c) (s : State) :
    h'.replay? s (order.map f) = h.replay? s order := by
  induction order generalizing s with
  | nil => rfl
  | cons c order ih =>
    have hn : h'.next? s (f c) = h.next? s c := by rw [next?, next?, hh c (by simp)]
    rw [List.map_cons, replay?_cons, replay?_cons, hn]
    congr 1
    funext s'
    exact ih (fun d hd => hh d (by simp [hd])) s'

omit hw [Operation Op] in
theorem exists_map_eq {f : Nat → Nat} {calls order : List Nat} (ho : order ⊆ calls.map f) :
    ∃ before ⊆ calls, before.map f = order := by
  induction order with
  | nil => exact ⟨[], List.nil_subset _, rfl⟩
  | cons j order ih =>
    obtain ⟨hj, hrest⟩ := List.cons_subset.mp ho
    obtain ⟨i, hi, rfl⟩ := List.mem_map.mp hj
    obtain ⟨before, hb, rfl⟩ := ih hrest
    exact ⟨i :: before, List.cons_subset.mpr ⟨hi, hb⟩, rfl⟩

namespace SubLog

variable {log : Log Op} (hs : h.SubLog part p h.entries.size log)

omit hs in
theorem place_inj_on {a b : Nat} (ha : a ∈ h.partCalls part p) (hb : b ∈ h.partCalls part p)
    (he : place part a = place part b) : a = b :=
  place_inj (((mem_partCalls hw).mp ha).2.trans ((mem_partCalls hw).mp hb).2.symm) he

include hs

theorem perm_callRefs :
    (ofLog log).callRefs.Perm ((h.partCalls part p).map (place part)) := by
  have hsub := wellPaired_ofLog (hs.complete hw)
  have hnodup := List.Nodup.map_on (fun a ha b hb => place_inj_on hw ha hb)
    (nodup_partCalls hw part p)
  refine (List.perm_ext_iff_of_nodup hsub.nodup_callRefs hnodup).mpr fun j => ?_
  rw [hsub.mem_callRefs, List.mem_map]
  constructor
  · intro hj
    have hlt : j < log.size := WellPaired.lt_size_of_isCallAt hj
    rw [hs.size] at hlt
    obtain ⟨i, hi, hp, rfl⟩ := exists_place hlt
    rw [hs.isCallAt_place hw hi hp] at hj
    exact ⟨i, (mem_partCalls hw).mpr ⟨hj, hp⟩, rfl⟩
  · rintro ⟨i, hi, rfl⟩
    obtain ⟨hc, hp⟩ := (mem_partCalls hw).mp hi
    rw [hs.isCallAt_place hw (WellPaired.lt_size_of_isCallAt hc) hp]
    exact hc

variable {State : Type} [Specification State Op]

theorem completes_place_iff (hpart : h.KeepsPairs part) {order : List Nat}
    (ho : order ⊆ h.partCalls part p) {s : State} :
    (ofLog log).Completes (ofLog log).callRefs s (order.map (place part)) ↔
      h.Completes (h.partCalls part p) s order := by
  have hcall : ∀ c ∈ order, c < h.entries.size ∧ part c = p := fun c hc =>
    ((mem_partCalls hw).mp (ho hc)).imp_left WellPaired.lt_size_of_isCallAt
  have hperm : (order.map (place part)).Perm (ofLog log).callRefs ↔
      order.Perm (h.partCalls part p) := by
    rw [(hs.perm_callRefs hw).congr_right]
    refine ⟨fun hp => ?_, fun hp => hp.map _⟩
    have hnodup := List.Nodup.map_on (fun a ha b hb => place_inj_on hw ha hb)
      (nodup_partCalls hw part p)
    have hno : order.Nodup := (hp.nodup_iff.mpr hnodup).of_map
    refine (List.perm_ext_iff_of_nodup hno (nodup_partCalls hw part p)).mpr fun c => ⟨fun hc => ho hc, ?_⟩
    intro hc
    obtain ⟨d, hd, he⟩ := List.mem_map.mp (hp.symm.subset (List.mem_map_of_mem hc))
    rwa [← place_inj_on hw (ho hd) hc he]
  have hreal : (order.map (place part)).Pairwise
      (fun a b => ¬ (ofLog log).Precedes b a) ↔ order.Pairwise fun a b => ¬ h.Precedes b a := by
    rw [List.pairwise_map]
    refine List.Pairwise.iff_of_mem fun {a b} ha hb => not_congr ?_
    exact hs.precedes_place hw (hcall b hb).1 (hcall b hb).2 hpart (hcall a ha).2
  have hreplay : (ofLog log).replay? s (order.map (place part)) = h.replay? s order :=
    replay?_map (fun c hc => hs.halves?_place hw (hcall c hc).1 (hcall c hc).2 hpart) s
  constructor
  · rintro ⟨hp, hr, ha⟩
    exact ⟨hperm.mp hp, hreal.mp hr, hreplay ▸ ha⟩
  · rintro ⟨hp, hr, ha⟩
    exact ⟨hperm.mpr hp, hreal.mpr hr, hreplay.symm ▸ ha⟩

/-- The sub-history of a part is linearizable when its calls are in the whole history. -/
theorem linearizable_iff (hpart : h.KeepsPairs part) : (ofLog log).Linearizable State ↔
    ∃ order, h.Completes (h.partCalls part p) (Specification.init : State) order := by
  constructor
  · rintro ⟨order, horder⟩
    have hc := isLinearization_iff.mp horder
    obtain ⟨before, hb, rfl⟩ :=
      exists_map_eq (fun j hj => (hs.perm_callRefs hw).subset (hc.perm.subset hj))
    exact ⟨before, (hs.completes_place_iff hw hpart hb).mp hc⟩
  · rintro ⟨order, hc⟩
    have ho : order ⊆ h.partCalls part p := hc.perm.subset
    exact ⟨_, isLinearization_iff.mpr ((hs.completes_place_iff hw hpart ho).mpr hc)⟩

end SubLog

end Linearizability.History
