import Linearizability.Proofs.Slicing.Partition

/-!
# When a sliced check is refused

A complete history is checked by its sub-histories unless the window of the
configuration is empty, there are no parts, or some operation has no key.
The first operation without one is named by its id. A refusal leaves the
result alone, and otherwise nothing of the result from before is left: it is
about the first sub-history that is found not to be linearizable, or about
the last one.
-/

namespace Linearizability

def Slices.LeavesAt (State : Type) {Op : Type} [Operation Op] [Specification State Op]
    (s : Slices Op) (config : Config) (clocks : Nat → Clock) (part : Nat) (r : CheckResult) : Prop :=
  ∃ sub, s.sublogInfo part = .ok sub ∧ Leaves State config (clocks part) sub r

/-! ## Operations without keys -/

theorem Slices.sizes_eq_error {Op : Type} (count : Nat) {before after : List (Nat × Entry Op)}
    {x : Nat × Entry Op} (hbefore : ∀ y ∈ before, y.2.key.isSome) (hx : x.2.key = none) :
    sizes count (before ++ x :: after) = .error (.notPartitionable x.2.id) := by
  obtain ⟨counted, hcounted⟩ := exists_sizes count hbefore
  rw [sizes] at hcounted ⊢
  simp only [List.foldlM_append, hcounted, List.foldlM_cons, hx, bind, Except.bind]

namespace History

variable {Op : Type} [Operation Op]

def definesKey (h : History Op) (call : Nat) : Bool :=
  (h.halves? call).any fun (c, r) => (Operation.key c).isSome || (Operation.key r).isSome

/-- The first call, in the order of recording, without a key in either half. -/
structure FirstUnkeyed (h : History Op) (call : Nat) : Prop where
  isCall : h.isCallAt call = true
  unkeyed : h.definesKey call = false
  first : ∀ c < call, h.isCallAt c = true → h.definesKey c = true

/-- Why a history is not checked by `count` parts, the configuration first. -/
inductive Refused (h : History Op) (count : Nat) (config : Config) : CheckError → Prop where
  | window (hcap : config.lruCapacity = 0) :
    Refused h count config (.invalidConfig "lru_capacity must be positive")
  | noParts (hcap : config.lruCapacity ≠ 0) (hcount : count = 0) :
    Refused h count config (.invalidConfig "number of partitions must be positive")
  | unkeyed (hcap : config.lruCapacity ≠ 0) (hcount : count ≠ 0) {call : Nat}
    (hcall : h.FirstUnkeyed call) : Refused h count config (.notPartitionable (h.idAt call))

section

variable {h : History Op} (hw : h.WellPaired)

include hw

theorem WellPaired.keyAt_isSome {i : Nat} (hi : i < h.entries.size) :
    (h.keyAt i).isSome = h.definesKey i := by
  rw [hw.keyAt_eq hi, definesKey]
  cases h.halves? i with
  | none => rfl
  | some halves =>
    obtain ⟨a, b⟩ := halves
    rw [Option.bind_some, Option.any_some]
    dsimp only
    split
    · rw [Option.isSome_or, Bool.or_comm]
    · rw [Option.isSome_or]

theorem WellPaired.exists_key_eq_none_iff :
    (∃ x ∈ h.toList, x.2.key = none) ↔ ∃ i < h.entries.size, h.keyAt i = none := by
  constructor
  · rintro ⟨⟨i, e⟩, hx, hkey⟩
    have he := hw.mem_toList_iff.mp hx
    exact ⟨i, (Array.getElem?_eq_some_iff.mp he).1, by rw [keyAt, he]; exact hkey⟩
  · rintro ⟨i, hi, hkey⟩
    have he : h.entries[i]? = some h.entries[i] := Array.getElem?_eq_getElem hi
    rw [keyAt, he] at hkey
    exact ⟨(i, h.entries[i]), hw.mem_toList_iff.mpr he, hkey⟩

/-- The first entry without a key is a call: the key of a return is that of its call. -/
theorem WellPaired.firstUnkeyed_iff {call : Nat} :
    h.FirstUnkeyed call ↔ call < h.entries.size ∧ h.keyAt call = none ∧
      ∀ i < call, (h.keyAt i).isSome := by
  constructor
  · rintro ⟨hcall, hunkeyed, hfirst⟩
    have hlt := WellPaired.lt_size_of_isCallAt hcall
    refine ⟨hlt, ?_, fun i hi => ?_⟩
    · rwa [← hw.keyAt_isSome hlt, Option.isSome_eq_false_iff, Option.isNone_iff_eq_none] at hunkeyed
    · have hsize := Nat.lt_trans hi hlt
      cases hc : h.isCallAt i with
      | true => exact (hw.keyAt_isSome hsize).trans (hfirst i hi hc)
      | false =>
        have hmate := hw.mate_lt_of_ret hsize hc
        rw [← hw.keyAt_mate hsize, hw.keyAt_isSome (Nat.lt_trans hmate hsize)]
        refine hfirst _ (Nat.lt_trans hmate hi) ?_
        rw [hw.isCallAt_mate hsize, hc]
        rfl
  · rintro ⟨hlt, hnone, hsome⟩
    refine ⟨?_, ?_, fun c hc _ => ?_⟩
    · by_contra hret
      rw [Bool.not_eq_true] at hret
      have hmate := hsome _ (hw.mate_lt_of_ret hlt hret)
      rw [hw.keyAt_mate hlt, hnone] at hmate
      cases hmate
    · rw [← hw.keyAt_isSome hlt, hnone]
      rfl
    · rw [← hw.keyAt_isSome (Nat.lt_trans hc hlt)]
      exact hsome c hc

theorem WellPaired.exists_firstUnkeyed_iff :
    (∃ call, h.FirstUnkeyed call) ↔ ∃ x ∈ h.toList, x.2.key = none := by
  rw [hw.exists_key_eq_none_iff]
  constructor
  · rintro ⟨call, hcall⟩
    obtain ⟨hlt, hnone, _⟩ := hw.firstUnkeyed_iff.mp hcall
    exact ⟨call, hlt, hnone⟩
  · intro hex
    obtain ⟨hlt, hnone⟩ := Nat.find_spec hex
    refine ⟨Nat.find hex, hw.firstUnkeyed_iff.mpr ⟨hlt, hnone, fun i hi => ?_⟩⟩
    by_contra hsome
    rw [Option.not_isSome_iff_eq_none] at hsome
    exact Nat.find_min hex hi ⟨Nat.lt_trans hi hlt, hsome⟩

theorem FirstUnkeyed.sizes_eq {call : Nat} (hcall : h.FirstUnkeyed call) (count : Nat) :
    Slices.sizes count h.toList = .error (.notPartitionable (h.idAt call)) := by
  obtain ⟨hlt, hnone, hsome⟩ := hw.firstUnkeyed_iff.mp hcall
  have he : h.entries[call]? = some h.entries[call] := Array.getElem?_eq_getElem hlt
  have hget : h.toList[call]? = some (call, h.entries[call]) := by
    rw [hw.getElem?_toList, he]
    rfl
  obtain ⟨hlen, hget⟩ := List.getElem?_eq_some_iff.mp hget
  have hsplit : h.toList = h.toList.take call ++ (call, h.entries[call]) :: h.toList.drop (call + 1) := by
    rw [← hget, List.cons_getElem_drop_succ, List.take_append_drop]
  rw [hsplit, Slices.sizes_eq_error count (fun y hy => ?_) (by rwa [keyAt, he] at hnone), idAt, he]
  · rfl
  · obtain ⟨i, hi⟩ := List.mem_iff_getElem?.mp hy
    rw [List.getElem?_take] at hi
    split at hi
    case isTrue hic =>
      rw [hw.getElem?_toList] at hi
      obtain ⟨e, hei, rfl⟩ := Option.map_eq_some_iff.mp hi
      have hkey := hsome i hic
      rwa [keyAt, hei] at hkey
    case isFalse => cases hi

/-! ## Refusals -/

variable {count : Nat} {config : Config}

theorem exists_refused_iff :
    (∃ e, h.Refused count config e) ↔
      config.lruCapacity = 0 ∨ count = 0 ∨ ∃ x ∈ h.toList, x.2.key = none := by
  rw [← hw.exists_firstUnkeyed_iff]
  constructor
  · rintro ⟨_, hcap | ⟨_, hcount⟩ | ⟨_, _, hcall⟩⟩
    · exact .inl hcap
    · exact .inr (.inl hcount)
    · exact .inr (.inr ⟨_, hcall⟩)
  · intro hreason
    by_cases hcap : config.lruCapacity = 0
    · exact ⟨_, .window hcap⟩
    by_cases hcount : count = 0
    · exact ⟨_, .noParts hcap hcount⟩
    obtain ⟨call, hcall⟩ := (hreason.resolve_left hcap).resolve_left hcount
    exact ⟨_, .unkeyed hcap hcount hcall⟩

variable {State : Type} [Specification State Op]

theorem Refused.checkSliced_eq {e : CheckError} (he : h.Refused count config e)
    (clocks : Nat → Clock) (r : CheckResult) :
    h.checkSliced State count config clocks r = (.ok (.error e), r) := by
  cases he with
  | window hcap => simp only [checkSliced, Config.validate, hcap, if_true]
  | noParts hcap hcount =>
    simp only [checkSliced, Config.validate, hcap, if_false, Slices.ofHistory, hcount, if_true]
  | unkeyed hcap hcount hcall =>
    simp only [checkSliced, Config.validate, hcap, if_false, Slices.ofHistory, hcount,
      hcall.sizes_eq hw]

variable (State) in
theorem exists_checkSliced (hgo : ¬ ∃ e, h.Refused count config e) (clocks : Nat → Clock) :
    ∃ slices part result, Slices.ofHistory h count = .ok (.ok slices) ∧
      FirstNegative (slices.LeavesAt State config clocks) count part result ∧
      ∀ r, h.checkSliced State count config clocks r = (.ok (.ok ()), result) := by
  rw [exists_refused_iff hw] at hgo
  push Not at hgo
  obtain ⟨hcap, hcount, hkeys⟩ := hgo
  have hvalid : config.validate = .ok () := by simp [Config.validate, hcap]
  obtain ⟨slices, hs⟩ := exists_ofHistory hw (Nat.pos_of_ne_zero hcount)
    fun x hx => Option.isSome_iff_ne_none.mpr (hkeys x hx)
  have hcomplete := complete_of_mem_sublogs hw hs
  obtain ⟨_, _, hsize, _⟩ := ofHistory_spec hw hs
  have hlen : slices.sublogs.toList.length = count := by rw [Array.length_toList, hsize]
  have hne : slices.sublogs.toList ≠ [] := List.ne_nil_of_length_pos (by omega)
  obtain ⟨part, result, hneg, hwalk⟩ :=
    Slices.exists_firstNegative State hcap hcomplete hne clocks 0
  refine ⟨slices, part, result, hs, ?_, fun r => checkSliced_eq hvalid hs (hwalk 0 r)⟩
  rw [hlen] at hneg
  refine hneg.imp fun i r hi => ?_
  obtain ⟨log, hlog, hleaves⟩ := hi
  rw [Nat.zero_add] at hleaves
  refine ⟨History.ofLog log, ?_, hleaves⟩
  rw [Array.getElem?_toList] at hlog
  rw [Slices.sublogInfo, hlog]
  exact info_eq_ofLog (hcomplete log (by simpa using Array.mem_of_getElem? hlog))

variable (State) in
omit hw in
/-- A sliced check of a complete history is refused for three reasons only, and leaves the result
from before alone then. Otherwise it comes to an end, and its result is that of a check of the first
sub-history that is found not to be linearizable, or of the last one. -/
theorem checkSliced_outcome (hc : h.Complete) (count : Nat) (config : Config)
    (clocks : Nat → Clock) :
    ((∃ e, h.Refused count config e) ↔
      config.lruCapacity = 0 ∨ count = 0 ∨ ∃ x ∈ h.toList, x.2.key = none) ∧
    (∀ e r r', h.checkSliced State count config clocks r = (.ok (.error e), r') ↔
      h.Refused count config e ∧ r' = r) ∧
    ((¬ ∃ e, h.Refused count config e) →
      ∃ slices part result, Slices.ofHistory h count = .ok (.ok slices) ∧
        FirstNegative (slices.LeavesAt State config clocks) count part result ∧
        ∀ r, h.checkSliced State count config clocks r = (.ok (.ok ()), result)) := by
  have hw := hc.wellPaired
  refine ⟨exists_refused_iff hw, fun e r r' => ⟨fun hcheck => ?_, ?_⟩,
    fun hgo => exists_checkSliced hw State hgo clocks⟩
  · by_cases hex : ∃ e, h.Refused count config e
    · obtain ⟨e', he'⟩ := hex
      rw [he'.checkSliced_eq hw] at hcheck
      cases hcheck
      exact ⟨he', rfl⟩
    · obtain ⟨_, _, result, _, _, hok⟩ := exists_checkSliced hw State hex clocks
      rw [hok] at hcheck
      cases hcheck
  · rintro ⟨he, rfl⟩
    exact he.checkSliced_eq hw clocks r'

end

def emptyAfterInsert : Log ByteSet.Op :=
  let log := (Log.ofCapacity 4).addCall (.insert 4) 0 |>.2
  let log := log.addRet 0 (.ret true) 0 |>.2
  let log := log.addCall .empty 0 |>.2
  log.addRet 2 (.ret false) 0 |>.2

theorem checkSliced_outcome_emptyAfterInsert :
    (ofLog emptyAfterInsert).Complete ∧ ∀ r,
      (ofLog emptyAfterInsert).checkSliced ByteSet 2 {} (fun _ => .frozen) r =
        (.ok (.error (.notPartitionable 1)), r) := by
  have hc : (ofLog emptyAfterInsert).Complete := by
    refine complete_ofLog ⟨?_, by decide⟩
    exact ((((Log.Recorded.ofCapacity 4).addCall_snd rfl).addRet_snd rfl).addCall_snd rfl).addRet_snd
      rfl
  obtain ⟨_, hiff, _⟩ := checkSliced_outcome ByteSet hc 2 {} fun _ => .frozen
  refine ⟨hc, fun r => (hiff _ r r).mpr ⟨?_, rfl⟩⟩
  have hfirst : (ofLog emptyAfterInsert).FirstUnkeyed 2 := ⟨by decide, by decide, by decide⟩
  exact .unkeyed (by decide) (by decide) hfirst

end History

end Linearizability
