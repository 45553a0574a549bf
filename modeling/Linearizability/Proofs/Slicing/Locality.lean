import Linearizability.Proofs.Model.ByteSet
import Linearizability.Proofs.Search.Completion
import Linearizability.Proofs.Slicing.Places
import Mathlib.Data.Finset.Max

/-!
# Locality

Calls on a byte set that all have keys can be linearized together when, for
every residue of the keys, the calls of that residue can. One order is split
into its parts by leaving out calls. The parts are merged call by call: next
comes the first call of the part to which the earliest return belongs.
Nothing precedes it, since that return would come before.
-/

namespace Linearizability.History

variable {h : History ByteSet.Op} (hw : h.WellPaired) {count : Nat} {s t : ByteSet} {call : Nat}

include hw

theorem exists_ops (hc : h.isCallAt call = true) (hk : (h.keyAt call).isSome) :
    ∃ c r v, h.halves? call = some (c, r) ∧ ByteSet.Op.keyOf c r = some v ∧
      ∀ count, h.partAt count call = v % count := by
  obtain ⟨e, f, he, hf, hm, hh⟩ := hw.exists_halves (WellPaired.lt_size_of_isCallAt hc)
  obtain ⟨v, hv⟩ := Option.isSome_iff_exists.mp hk
  refine ⟨e.op, f.op, v, by simp [halves?, he, hm, hf], ?_, fun count => by rw [partAt, hv]; rfl⟩
  rcases hh with hh | hh
  · rw [← hv, keyAt, he, Option.bind_some, hh.callKey]
    rfl
  · rw [isCallAt_eq he, hh.isRet] at hc
    cases hc

/-! ## One call -/

theorem next?_agree (hc : h.isCallAt call = true) (hk : (h.keyAt call).isSome)
    (ha : ByteSet.Agree count (h.partAt count call) s t) {s' : ByteSet}
    (hs : h.next? s call = some s') :
    ∃ t', h.next? t call = some t' ∧ ByteSet.Agree count (h.partAt count call) s' t' := by
  obtain ⟨c, r, v, hh, hkey, hpart⟩ := exists_ops hw hc hk
  obtain ⟨hacc, rfl⟩ := (next?_eq_some_iff hh).mp hs
  rw [hpart] at ha ⊢
  obtain ⟨hacc', hagree⟩ := ha.apply hkey hacc
  exact ⟨_, (next?_eq_some_iff hh).mpr ⟨hacc', rfl⟩, hagree⟩

theorem next?_agree_other (hc : h.isCallAt call = true) (hk : (h.keyAt call).isSome) {part : Nat}
    (ha : ByteSet.Agree count part s t) (hp : h.partAt count call ≠ part) {s' : ByteSet}
    (hs : h.next? s call = some s') : ByteSet.Agree count part s' t := by
  obtain ⟨c, r, v, hh, hkey, hpart⟩ := exists_ops hw hc hk
  obtain ⟨hacc, rfl⟩ := (next?_eq_some_iff hh).mp hs
  rw [hpart] at hp
  exact ha.apply_other hkey hp hacc

/-! ## Splitting -/

theorem replay?_filter {order : List Nat} (hcalls : ∀ c ∈ order, h.isCallAt c = true)
    (hkeys : ∀ c ∈ order, (h.keyAt c).isSome) {part : Nat} (ha : ByteSet.Agree count part s t)
    (hs : (h.replay? s order).isSome) :
    (h.replay? t (order.filter (h.partAt count · = part))).isSome := by
  induction order generalizing s t with
  | nil => rfl
  | cons c order ih =>
    have hc := hcalls c (by simp)
    have hk := hkeys c (by simp)
    obtain ⟨s', hs', hs⟩ := replay?_cons_isSome.mp hs
    have hrest : ∀ d ∈ order, h.isCallAt d = true := fun d hd => hcalls d (by simp [hd])
    have hrestKeys : ∀ d ∈ order, (h.keyAt d).isSome := fun d hd => hkeys d (by simp [hd])
    by_cases hp : h.partAt count c = part
    · subst hp
      obtain ⟨t', ht', ha'⟩ := next?_agree hw hc hk ha hs'
      rw [List.filter_cons_of_pos (by simp)]
      exact replay?_cons_isSome.mpr ⟨t', ht', ih hrest hrestKeys ha' hs⟩
    · rw [List.filter_cons_of_neg (by simpa using hp)]
      exact ih hrest hrestKeys (next?_agree_other hw hc hk ha hp hs') hs

theorem Completes.filter {calls order : List Nat} (hcalls : ∀ c ∈ calls, h.isCallAt c = true)
    (hkeys : ∀ c ∈ calls, (h.keyAt c).isSome) {part : Nat} (ha : ByteSet.Agree count part s t)
    (hc : h.Completes calls s order) :
    h.Completes (calls.filter (h.partAt count · = part)) t
      (order.filter (h.partAt count · = part)) where
  perm := hc.perm.filter _
  realTime := hc.realTime.filter _
  accepted := replay?_filter hw (fun c hm => hcalls c (hc.perm.subset hm))
    (fun c hm => hkeys c (hc.perm.subset hm)) ha hc.accepted

/-! ## Merging -/

/-- The first call of the part of the earliest return is preceded by no call. -/
theorem exists_first {calls : List Nat} (hcalls : ∀ c ∈ calls, h.isCallAt c = true)
    (hne : calls ≠ [])
    (hparts : ∀ part, ∃ order t, ByteSet.Agree count part s t ∧
      h.Completes (calls.filter (h.partAt count · = part)) t order) :
    ∃ call order t, call ∈ calls ∧ (∀ d ∈ calls, ¬ h.Precedes d call) ∧
      ByteSet.Agree count (h.partAt count call) s t ∧
      h.Completes (calls.filter (h.partAt count · = h.partAt count call)) t (call :: order) := by
  obtain ⟨m, hm, hmin⟩ := Finset.exists_min_image calls.toFinset h.mate
    (List.toFinset_nonempty_iff _ |>.mpr hne)
  rw [List.mem_toFinset] at hm
  obtain ⟨order, t, ha, hc⟩ := hparts (h.partAt count m)
  have hmem : m ∈ calls.filter (h.partAt count · = h.partAt count m) := by simp [hm]
  cases order with
  | nil =>
    have hnil := hc.perm.nil_eq
    rw [← hnil] at hmem
    cases hmem
  | cons call order =>
    have hcall := List.mem_filter.mp (hc.perm.subset (List.mem_cons_self (a := call) (l := order)))
    have hpart : h.partAt count call = h.partAt count m := by simpa using hcall.2
    refine ⟨call, order, t, hcall.1, ?_, hpart ▸ ha, hpart ▸ hc⟩
    intro d hd hprec
    have hlt := WellPaired.lt_size_of_isCallAt (hcalls d hd)
    rw [hw.precedes_iff hlt] at hprec
    have hmd := hmin d (List.mem_toFinset.mpr hd)
    have hmlt := WellPaired.lt_size_of_isCallAt (hcalls m hm)
    have hmprec : h.Precedes m call := (hw.precedes_iff hmlt).mpr (by omega)
    -- `m` comes after `call` in its part, or is `call` itself
    rcases List.mem_cons.mp (hc.perm.symm.subset hmem) with rfl | hmo
    · have := hw.lt_mate (hcalls m hm)
      rw [hw.precedes_iff hmlt] at hmprec
      omega
    · exact (List.pairwise_cons.mp hc.realTime).1 m hmo hmprec

theorem exists_merge {calls : List Nat} (hcalls : ∀ c ∈ calls, h.isCallAt c = true)
    (hkeys : ∀ c ∈ calls, (h.keyAt c).isSome)
    (hparts : ∀ part, ∃ order t, ByteSet.Agree count part s t ∧
      h.Completes (calls.filter (h.partAt count · = part)) t order) :
    ∃ order, h.Completes calls s order := by
  generalize hlen : calls.length = len
  induction len generalizing calls s with
  | zero =>
    rw [List.length_eq_zero_iff.mp hlen]
    exact ⟨[], completes_nil_iff.mpr rfl⟩
  | succ len ih =>
    have hne : calls ≠ [] := by
      rintro rfl
      cases hlen
    obtain ⟨call, order, t, hcall, hmin, ha, hc⟩ := exists_first hw hcalls hne hparts
    obtain ⟨_, _, t', ht', hc'⟩ := completes_cons_iff.mp hc
    have hcc := hcalls call hcall
    have hck := hkeys call hcall
    have hsymm : ByteSet.Agree count (h.partAt count call) t s := fun q hq => (ha q hq).symm
    obtain ⟨s', hs', ha'⟩ := next?_agree hw hcc hck hsymm ht'
    have hrest : ∀ d ∈ calls.erase call, d ∈ calls := fun d hd => List.mem_of_mem_erase hd
    have hparts' : ∀ part, ∃ order t, ByteSet.Agree count part s' t ∧
        h.Completes ((calls.erase call).filter (h.partAt count · = part)) t order := by
      intro part
      by_cases hp : h.partAt count call = part
      · subst hp
        refine ⟨order, t', fun q hq => (ha' q hq).symm, ?_⟩
        rwa [← List.erase_filter]
      · obtain ⟨order₂, t₂, ha₂, hc₂⟩ := hparts part
        refine ⟨order₂, t₂, next?_agree_other hw hcc hck ha₂ hp hs', ?_⟩
        rwa [← List.erase_filter, List.erase_of_not_mem (by simp [hp])]
    have hlen' : (calls.erase call).length = len := by
      rw [List.length_erase_of_mem hcall, hlen]
      rfl
    obtain ⟨order', horder'⟩ := ih (fun d hd => hcalls d (hrest d hd))
      (fun d hd => hkeys d (hrest d hd)) hparts' hlen'
    exact ⟨call :: order', completes_cons_iff.mpr
      ⟨hcall, fun d hd => hmin d (hrest d hd), s', hs', horder'⟩⟩

end Linearizability.History
