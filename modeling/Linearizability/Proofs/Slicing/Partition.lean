import Linearizability.Proofs.Slicing.Gather
import Linearizability.Proofs.Slicing.Verdict

/-!
# Slicing as a partition

A complete history is sliced exactly when every entry has a key. Each entry
then goes to one sub-history, together with its other half. A sub-history
holds the entries of its part in their order and paired as they were; only
their ids are its own.
-/

namespace Linearizability

variable {Op : Type}

def Entry.content (e : Entry Op) : Op × Nat × Bool × Option Nat := (e.op, e.thread, e.isCall, e.key)

namespace History

def entriesOf (h : History Op) (count p : Nat) : List (Nat × Entry Op) :=
  h.toList.filter fun x => x.2.key.any (· % count == p)

/-- The history `sub` consists of the entries `part` of another one, in their order and paired as
they are there. The calls are numbered anew. -/
structure Holds (sub : History Op) (part : List (Nat × Entry Op)) : Prop where
  places : sub.toList.map (·.1) = List.range sub.size
  content : sub.toList.map (·.2.content) = part.map (·.2.content)
  paired : ∀ {j : Nat} {x : Entry Op}, (j, x) ∈ sub.toList → ∃ i e k m f,
    part[j]? = some (i, e) ∧ x.matched = some k ∧ e.matched = some m ∧ part[k]? = some (m, f)
  callIds : (sub.toList.filter (·.2.isCall)).map (·.2.id) = List.range sub.calls
  retId : ∀ {j k : Nat} {x y : Entry Op}, (j, x) ∈ sub.toList → (k, y) ∈ sub.toList →
    x.matched = some k → x.id = y.id

/-! ## Lists of entries -/

theorem getElem?_filter_countP {α : Type} {p : α → Bool} {l : List α} {i : Nat} {a : α}
    (ha : l[i]? = some a) (hp : p a = true) : (l.filter p)[(l.take i).countP p]? = some a := by
  induction l generalizing i with
  | nil => cases ha
  | cons b l ih =>
    cases i with
    | zero =>
      cases ha
      simp [hp]
    | succ i =>
      have ih := ih (i := i) ha
      rw [List.take_succ_cons, List.countP_cons, List.filter_cons]
      split
      · exact ih
      · exact ih

section

variable [Operation Op] {h : History Op} (hw : h.WellPaired)

include hw

theorem WellPaired.getElem?_place {part : Nat → Nat} {p i : Nat} {e : Entry Op}
    (he : h.entries[i]? = some e) (hp : part i = p) :
    (h.toList.filter fun x => part x.1 = p)[place part i]? = some (i, e) := by
  have hi := (Array.getElem?_eq_some_iff.mp he).1
  have hget : h.toList[i]? = some (i, e) := by rw [hw.getElem?_toList, he]; rfl
  have hplace : place part i = (h.toList.take i).countP fun x => part x.1 = p := by
    have hcount : ((h.toList.take i).map (·.1)).countP (part · = p) = countPart part p i := by
      rw [List.map_take, hw.map_fst_toList, List.take_range, Nat.min_eq_left (Nat.le_of_lt hi)]
      rfl
    rw [place, hp, ← hcount, List.countP_map]
    rfl
  rw [hplace]
  exact getElem?_filter_countP hget (decide_eq_true hp)

/-! ## Ids and keys -/

theorem WellPaired.callIds_take {k : Nat} (hk : k ≤ h.entries.size) :
    ((h.toList.take k).filter (·.2.isCall)).map (·.2.id) = List.range (callsBefore h.entries k) := by
  induction k with
  | zero => rfl
  | succ k ih =>
    have he : h.entries[k]? = some h.entries[k] := Array.getElem?_eq_getElem hk
    rw [List.take_add_one, hw.getElem?_toList, he, List.filter_append, List.map_append,
      ih (Nat.le_of_succ_le hk), callsBefore_succ, he]
    cases hc : h.entries[k].isCall with
    | true => simp [hc, List.range_succ, hw.callId he hc]
    | false => simp [hc]

theorem WellPaired.callIds :
    (h.toList.filter (·.2.isCall)).map (·.2.id) = List.range h.calls := by
  have hall := hw.callIds_take (Nat.le_refl _)
  rw [← hw.length_toList, List.take_length] at hall
  have hlen := congrArg List.length hall
  rw [List.length_map, List.length_range] at hlen
  rw [hall, ← hlen, ← hw.length_callRefs, callRefs, List.length_map]

theorem WellPaired.id_eq_of_matched {i j : Nat} {e f : Entry Op} (he : h.entries[i]? = some e)
    (hf : h.entries[j]? = some f) (hm : e.matched = some j) : e.id = f.id := by
  obtain ⟨_, g, he', hg, hm', hh⟩ := hw.exists_halves (Array.getElem?_eq_some_iff.mp he).1
  cases he.symm.trans he'
  cases hm.symm.trans hm'
  cases hf.symm.trans hg
  rcases hh with hh | hh
  · exact hh.id.symm
  · exact hh.id

/-- The key of an entry is a matter of the two halves of its operation. -/
theorem WellPaired.keyAt_eq {i : Nat} (hi : i < h.entries.size) :
    h.keyAt i = (h.halves? i).bind fun (a, b) =>
      if h.isCallAt i then (Operation.key b).or (Operation.key a)
      else (Operation.key a).or (Operation.key b) := by
  obtain ⟨e, f, he, hf, hm, hh⟩ := hw.exists_halves hi
  have hops : h.halves? i = some (e.op, f.op) := by simp [halves?, he, hm, hf]
  rw [hops, keyAt, he, isCallAt_eq he, Option.bind_some, Option.bind_some]
  rcases hh with hh | hh
  · rw [hh.callKey, hh.isCall]
    rfl
  · rw [hh.retKey, hh.callKey, hh.isRet]
    rfl

/-! ## One sub-history -/

theorem SubLog.keyAt_place {part : Nat → Nat} {p : Nat} {log : Log Op}
    (hs : h.SubLog part p h.entries.size log) (hpart : h.KeepsPairs part) {i : Nat}
    (hi : i < h.entries.size) (hp : part i = p) :
    (ofLog log).keyAt (place part i) = h.keyAt i := by
  have hsub := wellPaired_ofLog (hs.complete hw)
  have hlt : place part i < (ofLog log).entries.size := by
    have := place_lt hp hi
    rw [← hs.size] at this
    exact this
  rw [hsub.keyAt_eq hlt, hw.keyAt_eq hi, hs.halves?_place hw hi hp hpart, hs.isCallAt_place hw hi hp]

theorem SubLog.holds {part : Nat → Nat} {p : Nat} {log : Log Op}
    (hs : h.SubLog part p h.entries.size log) (hpart : h.KeepsPairs part)
    (hwritten : log.written = (h.toList.filter fun x => part x.1 = p).map (·.2.written)) :
    (ofLog log).Holds (h.toList.filter fun x => part x.1 = p) := by
  have hsub := wellPaired_ofLog (hs.complete hw)
  -- every entry of the sub-history comes from one of the part
  have hfrom : ∀ {j : Nat} {x : Entry Op}, (ofLog log).entries[j]? = some x →
      ∃ i e, h.entries[i]? = some e ∧ part i = p ∧ place part i = j := by
    intro j x hx
    have hlt : j < log.size := (Array.getElem?_eq_some_iff.mp hx).1
    rw [hs.size] at hlt
    obtain ⟨i, hi, hp, hj⟩ := exists_place hlt
    exact ⟨i, _, Array.getElem?_eq_getElem hi, hp, hj⟩
  constructor
  case places => exact hsub.map_fst_toList
  case content =>
    apply List.ext_getElem?
    intro j
    have hj := congrArg (·[j]?) hwritten
    simp only [Log.written, List.getElem?_map, Array.getElem?_toList] at hj
    rw [List.getElem?_map, List.getElem?_map, hsub.getElem?_toList, Option.map_map]
    cases hx : (ofLog log).entries[j]? with
    | none =>
      rw [show log.entries[j]? = none from hx] at hj
      rw [Option.map_none, Option.map_eq_none_iff.mp hj.symm, Option.map_none]
    | some x =>
      obtain ⟨i, e, he, hp, rfl⟩ := hfrom hx
      have hkey := hs.keyAt_place hw hpart (Array.getElem?_eq_some_iff.mp he).1 hp
      rw [keyAt, keyAt, hx, he] at hkey
      rw [show log.entries[place part i]? = some x from hx, hw.getElem?_place he hp] at hj
      rw [hw.getElem?_place he hp]
      simp only [Option.map_some, Option.some.injEq, Entry.written, Prod.mk.injEq] at hj
      obtain ⟨hop, hthread, hcall⟩ := hj
      simp only [Option.map_some, Function.comp, Entry.content, hop, hthread, hcall,
        show x.key = e.key from hkey]
  case paired =>
    intro j x hx
    rw [hsub.mem_toList_iff] at hx
    obtain ⟨i, e, he, hp, rfl⟩ := hfrom hx
    have hi := (Array.getElem?_eq_some_iff.mp he).1
    have hmate := hw.mate_lt hi
    refine ⟨i, e, place part (h.mate i), h.mate i, h.entries[h.mate i], hw.getElem?_place he hp, ?_,
      hw.matched_eq he, ?_⟩
    · rw [hsub.matched_eq hx, hs.mate_place hw hi hp]
    · exact hw.getElem?_place (Array.getElem?_eq_getElem hmate) ((hpart i hi).trans hp)
  case callIds => exact hsub.callIds
  case retId =>
    intro j k x y hx hy hm
    exact hsub.id_eq_of_matched (hsub.mem_toList_iff.mp hx) (hsub.mem_toList_iff.mp hy) hm

/-! ## All sub-histories -/

variable {count : Nat}

omit hw [Operation Op] in
theorem partAt_eq {i : Nat} {e : Entry Op} (he : h.entries[i]? = some e) :
    h.partAt count i = Slices.partOf count e := by
  rw [partAt, keyAt, he]
  rfl

theorem filter_partOf_eq (p : Nat) : (h.toList.filter fun x => Slices.partOf count x.2 = p) =
    h.toList.filter fun x => h.partAt count x.1 = p := by
  apply List.filter_congr
  rintro ⟨i, e⟩ hx
  rw [partAt_eq (hw.mem_toList_iff.mp hx)]

theorem entriesOf_eq (hkeys : ∀ x ∈ h.toList, x.2.key.isSome) (p : Nat) :
    h.entriesOf count p = h.toList.filter fun x => h.partAt count x.1 = p := by
  rw [← filter_partOf_eq hw]
  apply List.filter_congr
  intro x hx
  obtain ⟨v, hv⟩ := Option.isSome_iff_exists.mp (hkeys x hx)
  rw [Slices.partOf, hv]
  rfl

omit hw [Operation Op] in
theorem existsUnique_entriesOf (hpos : 0 < count) {x : Nat × Entry Op} (hx : x ∈ h.toList)
    (hkey : x.2.key.isSome) : ∃! p, p < count ∧ x ∈ h.entriesOf count p := by
  obtain ⟨v, hv⟩ := Option.isSome_iff_exists.mp hkey
  have hmem : ∀ p, x ∈ h.entriesOf count p ↔ v % count = p := by
    intro p
    rw [entriesOf, List.mem_filter, and_iff_right hx, hv, Option.any_some, beq_iff_eq]
  refine ⟨v % count, ⟨Nat.mod_lt v hpos, (hmem _).mpr rfl⟩, ?_⟩
  rintro p ⟨_, hp⟩
  exact ((hmem p).mp hp).symm

theorem exists_ofHistory (hpos : 0 < count) (hkeys : ∀ x ∈ h.toList, x.2.key.isSome) :
    ∃ slices, Slices.ofHistory h count = .ok (.ok slices) := by
  obtain ⟨sizes, hsizes⟩ := Slices.exists_sizes count hkeys
  obtain ⟨_, hzero⟩ := cutAt_zero hw hsizes
  obtain ⟨cut, hfold, _⟩ := hzero.exists_foldl hw hpos _ (Nat.le_refl _)
  rw [← hw.length_toList, List.take_length] at hfold
  refine ⟨⟨cut.sublogs, 0⟩, ?_⟩
  rw [Slices.ofHistory, if_neg (Nat.ne_of_gt hpos), hsizes]
  simp only [hfold, bind, Except.bind]
  rfl

omit hw in
/-- A complete history is sliced exactly when all its entries have keys. The sub-histories are then
complete and just large enough, each holds the entries of its part, and every entry is in one. -/
theorem ofHistory_partition (hc : h.Complete) (hpos : 0 < count) :
    ((∃ slices, Slices.ofHistory h count = .ok (.ok slices)) ↔ ∀ x ∈ h.toList, x.2.key.isSome) ∧
    ∀ slices, Slices.ofHistory h count = .ok (.ok slices) →
      slices.size = count ∧
      (∀ x ∈ h.toList, ∃! p, p < count ∧ x ∈ h.entriesOf count p) ∧
      ∀ p < count, ∃ log sub, slices.sublogs[p]? = some log ∧ slices.sublogInfo p = .ok sub ∧
        sub.Complete ∧ log.capacity = sub.size ∧ sub.Holds (h.entriesOf count p) := by
  have hw := hc.wellPaired
  have hkeys : ∀ slices, Slices.ofHistory h count = .ok (.ok slices) →
      ∀ x ∈ h.toList, x.2.key.isSome := by
    intro slices hs x hx
    obtain ⟨_, hkeys, _⟩ := ofHistory_spec hw hs
    have he := hw.mem_toList_iff.mp hx
    have hkey := hkeys x.1 (Array.getElem?_eq_some_iff.mp he).1
    rwa [keyAt, he] at hkey
  refine ⟨⟨fun hs => hs.elim hkeys, exists_ofHistory hw hpos⟩, fun slices hs => ?_⟩
  obtain ⟨_, _, hsize, hsub⟩ := ofHistory_spec hw hs
  obtain ⟨_, hwritten⟩ := Slices.exists_written hs
  refine ⟨hsize, fun x hx => existsUnique_entriesOf hpos hx (hkeys slices hs x hx), fun p hp => ?_⟩
  obtain ⟨log, hlog, hs'⟩ := hsub p hp
  obtain ⟨log', hlog', _, hw'⟩ := hwritten p hp
  cases hlog.symm.trans hlog'
  have hcomplete := hs'.complete hw
  refine ⟨log, ofLog log, hlog, ?_, complete_ofLog hcomplete, ?_, ?_⟩
  · rw [Slices.sublogInfo, hlog]
    exact info_eq_ofLog hcomplete
  · exact hs'.capacity.trans hs'.size.symm
  · rw [entriesOf_eq hw (hkeys slices hs)]
    rw [filter_partOf_eq hw] at hw'
    exact hs'.holds hw (hw.keepsPairs_partAt count) hw'

end

theorem ofHistory_partition_overlappingInserts :
    (ofLog overlappingInserts).Complete ∧ ∃ slices,
      Slices.ofHistory (ofLog overlappingInserts) 2 = .ok (.ok slices) ∧ slices.size = 2 ∧
      ∀ p < 2, ∃ log sub, slices.sublogs[p]? = some log ∧ slices.sublogInfo p = .ok sub ∧
        sub.Complete ∧ log.capacity = sub.size ∧
        sub.Holds ((ofLog overlappingInserts).entriesOf 2 p) := by
  have hc := complete_ofLog overlappingInserts_complete
  obtain ⟨hiff, hslices⟩ := ofHistory_partition hc (show 0 < 2 by decide)
  obtain ⟨slices, hs⟩ := hiff.mpr (by decide +kernel)
  obtain ⟨hsize, _, hparts⟩ := hslices slices hs
  exact ⟨hc, slices, hs, hsize, hparts⟩

end History

end Linearizability
