import Linearizability.Proofs.History.Invariant
import Mathlib.Data.List.Nodup
import Mathlib.Data.List.Perm.Subperm

/-!
# Complete histories

A complete history is an array of entries in recording order in which every
entry has its other half, a call before its return. The calls are numbered
from zero, so their ids tell them apart and stay below their number.
-/

namespace Linearizability

variable {Op : Type}

theorem Log.Recorded.addCall_snd [Operation Op] {log : Log Op} (hr : log.Recorded) {op : Op}
    {thread call : Nat} (hok : (log.addCall op thread).1 = .ok call) :
    (log.addCall op thread).2.Recorded :=
  .addCall hr (Prod.ext hok rfl)

theorem Log.Recorded.addRet_snd [Operation Op] {log : Log Op} (hr : log.Recorded) {op : Op}
    {call thread ret : Nat} (hok : (log.addRet call op thread).1 = .ok ret) :
    (log.addRet call op thread).2.Recorded :=
  .addRet hr (Prod.ext hok rfl)

theorem Log.Recorded.addCall_of_isOk [Operation Op] {log : Log Op} (hr : log.Recorded) {op : Op}
    {thread : Nat} (hok : (log.addCall op thread).1.isOk = true) :
    (log.addCall op thread).2.Recorded := by
  cases hc : (log.addCall op thread).1 with
  | error f => rw [hc] at hok; cases hok
  | ok call => exact hr.addCall_snd hc

theorem Log.Recorded.addRet_of_isOk [Operation Op] {log : Log Op} (hr : log.Recorded) {op : Op}
    {call thread : Nat} (hok : (log.addRet call op thread).1.isOk = true) :
    (log.addRet call op thread).2.Recorded := by
  cases hc : (log.addRet call op thread).1 with
  | error f => rw [hc] at hok; cases hok
  | ok ret => exact hr.addRet_snd hc

namespace History

/-! ## Reading by position -/

def isCallAt (h : History Op) (i : Nat) : Bool := h.entries[i]?.any (·.isCall)

def idAt (h : History Op) (i : Nat) : Nat := h.entries[i]?.elim 0 (·.id)

/-- The position of the other half. -/
def mate (h : History Op) (i : Nat) : Nat := (h.entries[i]?.bind (·.matched)).getD 0

theorem isCallAt_eq {h : History Op} {i : Nat} {e : Entry Op} (he : h.entries[i]? = some e) :
    h.isCallAt i = e.isCall := by
  simp [isCallAt, he]

variable [Operation Op]

structure WellPaired (h : History Op) : Prop where
  size_eq : h.size = h.entries.size
  head_eq : h.head = if h.entries.isEmpty then none else some 0
  next : ∀ {i : Nat} {e : Entry Op}, h.entries[i]? = some e →
    e.next = if i + 1 < h.entries.size then some (i + 1) else none
  callId : ∀ {i : Nat} {e : Entry Op}, h.entries[i]? = some e → e.isCall = true →
    e.id = callsBefore h.entries i
  halves : ∀ {i : Nat} {e : Entry Op}, h.entries[i]? = some e →
    ∃ j f, h.entries[j]? = some f ∧ (Halves i e j f ∨ Halves j f i e)

/-- The history that a log shows when it is read as it is. -/
def ofLog (log : Log Op) : History Op := ⟨log.entries, log.head, log.size⟩

theorem wellPaired_ofLog {log : Log Op} (hc : log.Complete) : (ofLog log).WellPaired where
  size_eq := rfl
  head_eq := rfl
  next := hc.recorded.invariant.next
  callId := hc.recorded.invariant.callId
  halves := by
    intro i e hi
    have hm := hc.matched e (Array.mem_of_getElem? hi)
    obtain ⟨j, hj⟩ := Option.isSome_iff_exists.mp hm
    obtain ⟨f, hf, hh⟩ := hc.recorded.invariant.halves hi hj
    exact ⟨j, f, hf, hh⟩

omit [Operation Op] in
theorem eq_ofLog {log : Log Op} {h : History Op} (hinfo : log.info = .ok h) : h = ofLog log := by
  unfold Log.info at hinfo
  by_cases he : log.entries.isEmpty = true
  · rw [if_pos he] at hinfo
    cases hinfo
    simp [ofLog, History.empty, Log.head, Log.size, Array.isEmpty_iff.mp he]
  · rw [if_neg he] at hinfo
    split at hinfo
    · cases hinfo
      simp [ofLog, Log.head, he]
    · cases hinfo

omit [Operation Op] in
/-- A log of an even number of entries has a history. -/
theorem info_eq_ok_iff {log : Log Op} {h : History Op} :
    log.info = .ok h ↔ log.size % 2 = 0 ∧ h = ofLog log := by
  constructor
  · intro hinfo
    refine ⟨?_, eq_ofLog hinfo⟩
    unfold Log.info at hinfo
    split at hinfo
    · rename_i he
      simp [Log.size, Array.isEmpty_iff.mp he]
    · split at hinfo
      · assumption
      · cases hinfo
  · rintro ⟨heven, rfl⟩
    unfold Log.info
    by_cases he : log.entries.isEmpty = true
    · rw [if_pos he]
      simp [ofLog, History.empty, Log.head, Log.size, Array.isEmpty_iff.mp he]
    · rw [if_neg he, if_pos heven]
      simp [ofLog, Log.head, he]

theorem Complete.wellPaired {h : History Op} (hc : h.Complete) : h.WellPaired := by
  obtain ⟨log, hlog, hinfo⟩ := hc
  rw [eq_ofLog hinfo]
  exact wellPaired_ofLog hlog

/-! ## The order of recording -/

omit [Operation Op] in
theorem walk_eq {entries : Array (Entry Op)}
    (next : ∀ {i : Nat} {e : Entry Op}, entries[i]? = some e →
      e.next = if i + 1 < entries.size then some (i + 1) else none) (limit i : Nat)
    (hi : i < entries.size) (hl : entries.size ≤ i + limit) :
    walk entries limit (some i) =
      ((entries.toList.drop i).zipIdx i).map fun (e, k) => (k, e) := by
  induction limit generalizing i with
  | zero => omega
  | succ limit ih =>
    have hget : entries[i]? = some entries[i] := by simp [hi]
    rw [List.drop_eq_getElem_cons (by simpa using hi)]
    simp only [walk, hget, next hget, List.zipIdx_cons, List.map_cons, Array.getElem_toList]
    congr 1
    by_cases hn : i + 1 < entries.size
    · rw [if_pos hn]
      exact ih (i + 1) hn (by omega)
    · rw [if_neg hn, List.drop_of_length_le (by simpa using hn)]
      cases limit <;> rfl

omit [Operation Op] in
theorem toList_of_next {h : History Op} (hhead : h.head = if h.entries.isEmpty then none else some 0)
    (hnext : ∀ {i : Nat} {e : Entry Op}, h.entries[i]? = some e →
      e.next = if i + 1 < h.entries.size then some (i + 1) else none) :
    h.toList = h.entries.toList.zipIdx.map fun (e, i) => (i, e) := by
  unfold toList
  rw [hhead]
  by_cases he : h.entries.isEmpty = true
  · have he : h.entries = #[] := Array.isEmpty_iff.mp he
    simp [he, walk]
  · have hpos : 0 < h.entries.size := Array.size_pos_iff.mpr fun e => he (by simp [e])
    rw [if_neg he, walk_eq hnext _ 0 hpos (by omega)]
    rfl

namespace WellPaired

variable {h : History Op} (hw : h.WellPaired)

include hw

theorem toList_eq : h.toList = h.entries.toList.zipIdx.map fun (e, i) => (i, e) :=
  toList_of_next hw.head_eq hw.next

theorem getElem?_toList (i : Nat) : h.toList[i]? = h.entries[i]?.map fun e => (i, e) := by
  rw [hw.toList_eq, List.getElem?_map, List.getElem?_zipIdx, Option.map_map]
  simp [Function.comp_def]

theorem map_fst_toList : h.toList.map (·.1) = List.range h.entries.size := by
  rw [hw.toList_eq, List.map_map]
  simp [Function.comp_def, List.zipIdx_map_snd, List.range_eq_range']

theorem map_snd_toList : h.toList.map (·.2) = h.entries.toList := by
  rw [hw.toList_eq, List.map_map]
  simp [Function.comp_def]

theorem length_toList : h.toList.length = h.entries.size := by
  rw [← List.length_map (·.1), hw.map_fst_toList, List.length_range]

theorem mem_toList_iff {i : Nat} {e : Entry Op} :
    (i, e) ∈ h.toList ↔ h.entries[i]? = some e := by
  rw [List.mem_iff_getElem?]
  simp only [hw.getElem?_toList, Option.map_eq_some_iff, Prod.mk.injEq]
  constructor
  · rintro ⟨_, _, he, rfl, rfl⟩
    exact he
  · exact fun he => ⟨i, e, he, rfl, rfl⟩

theorem callRefs_eq : h.callRefs = (List.range h.entries.size).filter h.isCallAt := by
  have hdef : h.callRefs = (h.toList.filter fun x => x.2.isCall).map (·.1) := rfl
  have hfilter : (h.toList.filter fun x => x.2.isCall) =
      h.toList.filter fun x => h.isCallAt x.1 := by
    apply List.filter_congr
    rintro ⟨i, e⟩ hmem
    rw [isCallAt_eq (hw.mem_toList_iff.mp hmem)]
  rw [hdef, hfilter, ← hw.map_fst_toList, List.filter_map]
  rfl

theorem mem_callRefs {c : Nat} : c ∈ h.callRefs ↔ h.isCallAt c = true := by
  rw [hw.callRefs_eq, List.mem_filter, List.mem_range, and_iff_right_iff_imp]
  intro hc
  by_contra hn
  simp [isCallAt, Array.getElem?_eq_none (Nat.not_lt.mp hn)] at hc

theorem nodup_callRefs : h.callRefs.Nodup := by
  rw [hw.callRefs_eq]
  exact List.nodup_range.filter _

/-! ## Calls and their returns -/

theorem exists_halves {i : Nat} (hi : i < h.entries.size) :
    ∃ e f, h.entries[i]? = some e ∧ h.entries[h.mate i]? = some f ∧
      e.matched = some (h.mate i) ∧ (Halves i e (h.mate i) f ∨ Halves (h.mate i) f i e) := by
  have hget : h.entries[i]? = some h.entries[i] := by simp [hi]
  obtain ⟨j, f, hf, hh⟩ := hw.halves hget
  have hm : h.entries[i].matched = some j := by
    rcases hh with hh | hh
    · exact hh.callMatched
    · exact hh.retMatched
  have hj : h.mate i = j := by simp [mate, hget, hm]
  exact ⟨_, f, hget, by rw [hj]; exact hf, by rw [hj]; exact hm, by rw [hj]; exact hh⟩

theorem matched_eq {i : Nat} {e : Entry Op} (he : h.entries[i]? = some e) :
    e.matched = some (h.mate i) := by
  obtain ⟨e', _, he', _, hm, _⟩ := hw.exists_halves (Array.getElem?_eq_some_iff.mp he).1
  rw [he] at he'
  cases he'
  exact hm

theorem mate_lt {i : Nat} (hi : i < h.entries.size) : h.mate i < h.entries.size := by
  obtain ⟨_, _, _, hf, _, _⟩ := hw.exists_halves hi
  exact (Array.getElem?_eq_some_iff.mp hf).1

theorem mate_mate {i : Nat} (hi : i < h.entries.size) : h.mate (h.mate i) = i := by
  obtain ⟨_, f, _, hf, _, hh⟩ := hw.exists_halves hi
  have hfm : f.matched = some i := by
    rcases hh with hh | hh
    · exact hh.retMatched
    · exact hh.callMatched
  rw [mate, hf]
  simp [hfm]

theorem isCallAt_mate {i : Nat} (hi : i < h.entries.size) :
    h.isCallAt (h.mate i) = !h.isCallAt i := by
  obtain ⟨e, f, he, hf, _, hh⟩ := hw.exists_halves hi
  rw [isCallAt_eq he, isCallAt_eq hf]
  rcases hh with hh | hh <;> simp [hh.isCall, hh.isRet]

omit [Operation Op] hw in
theorem lt_size_of_isCallAt {i : Nat} (hi : h.isCallAt i = true) : i < h.entries.size := by
  unfold isCallAt at hi
  by_contra hn
  simp [Array.getElem?_eq_none (Nat.not_lt.mp hn)] at hi

theorem lt_mate {i : Nat} (hi : h.isCallAt i = true) : i < h.mate i := by
  obtain ⟨e, f, he, hf, _, hh⟩ := hw.exists_halves (lt_size_of_isCallAt hi)
  rcases hh with hh | hh
  · exact hh.lt
  · simp [isCallAt_eq he, hh.isRet] at hi

theorem mate_lt_of_ret {i : Nat} (hi : i < h.entries.size) (hr : h.isCallAt i = false) :
    h.mate i < i := by
  have hc : h.isCallAt (h.mate i) = true := by simp [hw.isCallAt_mate hi, hr]
  simpa [hw.mate_mate hi] using hw.lt_mate hc

theorem precedes_iff {a b : Nat} (ha : a < h.entries.size) : h.Precedes a b ↔ h.mate a < b := by
  obtain ⟨e, _, he, _, hm, _⟩ := hw.exists_halves ha
  constructor
  · rintro ⟨c, ret, hc, hr, hlt⟩
    rw [he] at hc
    cases hc
    rw [hm] at hr
    cases hr
    exact hlt
  · intro hlt
    exact ⟨e, h.mate a, he, hm, hlt⟩

/-! ## Numbers of calls -/

theorem idAt_eq {i : Nat} (hi : h.isCallAt i = true) : h.idAt i = callsBefore h.entries i := by
  obtain ⟨e, _, he, _⟩ := hw.exists_halves (lt_size_of_isCallAt hi)
  rw [idAt, he]
  exact hw.callId he (isCallAt_eq he ▸ hi)

omit [Operation Op] hw in
theorem callsBefore_lt {i n : Nat} (hi : h.isCallAt i = true) (hlt : i < n) :
    callsBefore h.entries i < callsBefore h.entries n := by
  have hs : callsBefore h.entries (i + 1) = callsBefore h.entries i + 1 := by
    rw [callsBefore_succ]
    simp [show h.entries[i]?.any (·.isCall) = true from hi]
  have hm : callsBefore h.entries (i + 1) ≤ callsBefore h.entries n := callsBefore_mono h.entries hlt
  omega

theorem idAt_lt_of_lt {i j : Nat} (hi : h.isCallAt i = true) (hj : h.isCallAt j = true)
    (hlt : i < j) : h.idAt i < h.idAt j := by
  rw [hw.idAt_eq hi, hw.idAt_eq hj]
  exact callsBefore_lt hi hlt

theorem idAt_inj {i j : Nat} (hi : h.isCallAt i = true) (hj : h.isCallAt j = true)
    (he : h.idAt i = h.idAt j) : i = j := by
  rcases Nat.lt_trichotomy i j with hlt | heq | hgt
  · exact absurd he (Nat.ne_of_lt (hw.idAt_lt_of_lt hi hj hlt))
  · exact heq
  · exact absurd he.symm (Nat.ne_of_lt (hw.idAt_lt_of_lt hj hi hgt))

theorem size_eq_two_mul : h.entries.size = 2 * h.callRefs.length := by
  let n := h.entries.size
  let calls := (List.range n).filter h.isCallAt
  let rets := (List.range n).filter fun i => !h.isCallAt i
  -- the other half takes calls to returns and back, one to one
  have hmate : ∀ p : Bool, ∀ i ∈ (List.range n).filter (h.isCallAt · == p),
      h.mate i ∈ (List.range n).filter (h.isCallAt · == !p) := by
    intro p i hi
    simp only [List.mem_filter, List.mem_range, beq_iff_eq] at hi ⊢
    exact ⟨hw.mate_lt hi.1, by rw [hw.isCallAt_mate hi.1, hi.2]⟩
  have hle : ∀ p : Bool, ((List.range n).filter (h.isCallAt · == p)).length ≤
      ((List.range n).filter (h.isCallAt · == !p)).length := by
    intro p
    have hnd : (((List.range n).filter (h.isCallAt · == p)).map h.mate).Nodup := by
      refine List.Nodup.map_on ?_ (List.nodup_range.filter _)
      intro i hi j hj he
      have hi := List.mem_range.mp (List.mem_filter.mp hi).1
      have hj := List.mem_range.mp (List.mem_filter.mp hj).1
      rw [← hw.mate_mate hi, he, hw.mate_mate hj]
    have hsub : ((List.range n).filter (h.isCallAt · == p)).map h.mate ⊆
        (List.range n).filter (h.isCallAt · == !p) := by
      intro j hj
      obtain ⟨i, hi, rfl⟩ := List.mem_map.mp hj
      exact hmate p i hi
    simpa using (hnd.subperm hsub).length_le
  have hcalls : (List.range n).filter (h.isCallAt · == true) = calls := by simp [calls]
  have hrets : (List.range n).filter (h.isCallAt · == false) = rets := by simp [rets]
  have h1 := hle true
  have h2 := hle false
  simp only [Bool.not_true, Bool.not_false, hcalls, hrets] at h1 h2
  have hsum : calls.length + rets.length = n := by
    rw [← List.length_eq_length_filter_add h.isCallAt]
    simp
  rw [hw.callRefs_eq]
  show n = 2 * calls.length
  omega

theorem length_callRefs : h.callRefs.length = h.calls := by
  rw [History.calls, hw.size_eq, hw.size_eq_two_mul]
  omega

theorem idAt_lt_calls {i : Nat} (hi : h.isCallAt i = true) : h.idAt i < h.calls := by
  have hall : callsBefore h.entries h.entries.size = h.calls := by
    rw [← hw.length_callRefs, hw.callRefs_eq, callsBefore, List.countP_eq_length_filter]
    rfl
  rw [hw.idAt_eq hi, ← hall]
  exact callsBefore_lt hi (lt_size_of_isCallAt hi)

end WellPaired

theorem info_eq_ofLog {log : Log Op} (hc : log.Complete) : log.info = .ok (ofLog log) := by
  have heven := (wellPaired_ofLog hc).size_eq_two_mul
  have hsize : log.size % 2 = 0 := by
    show (ofLog log).entries.size % 2 = 0
    omega
  exact info_eq_ok_iff.mpr ⟨hsize, rfl⟩

theorem complete_ofLog {log : Log Op} (hc : log.Complete) : (ofLog log).Complete :=
  ⟨log, hc, info_eq_ofLog hc⟩

end History

end Linearizability
