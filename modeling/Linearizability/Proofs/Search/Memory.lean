import Linearizability.Bitset.Lemmas
import Linearizability.Search.Memo

/-!
# What a memo knows

`Memo.note` is remembering without the failure of a bit out of range. A memo
knows a configuration when it would recognise it. Whatever the policy, a memo
comes to know at most what it is told, and it rejects only what it knows. A
window may forget, and forgetting is always safe.
-/

namespace Linearizability

variable {State : Type} [BEq State] [Hashable State]

/-! ## Configurations -/

namespace Configuration

omit [Hashable State] in
theorem beq_iff {a b : Configuration State} :
    (a == b) = true ↔ a.linearized = b.linearized ∧ (a.state == b.state) = true := by
  show (a.linearized == b.linearized && a.state == b.state) = true ↔ _
  rw [Bool.and_eq_true, beq_iff_eq]

instance [EquivBEq State] : EquivBEq (Configuration State) where
  rfl {a} := beq_iff.mpr ⟨rfl, BEq.rfl⟩
  symm h := by
    obtain ⟨h, h'⟩ := beq_iff.mp h
    exact beq_iff.mpr ⟨h.symm, BEq.symm h'⟩
  trans h k := by
    obtain ⟨h, h'⟩ := beq_iff.mp h
    obtain ⟨k, k'⟩ := beq_iff.mp k
    exact beq_iff.mpr ⟨h.trans k, BEq.trans h' k'⟩

instance [LawfulHashable State] : LawfulHashable (Configuration State) where
  hash_eq a b h := by
    obtain ⟨h, h'⟩ := beq_iff.mp h
    show rotateLeft7 (hash a.linearized) ^^^ hash a.state =
      rotateLeft7 (hash b.linearized) ^^^ hash b.state
    rw [h, hash_eq h']

end Configuration

/-! ## Windows -/

namespace RecencySet

variable {α : Type} [BEq α] [Hashable α] [EquivBEq α] [LawfulHashable α]

theorem contains_of_dropOldest {c : RecencySet α} {key : α} (h : c.dropOldest.contains key = true) :
    c.contains key = true := by
  obtain ⟨capacity, times, keys, now⟩ := c
  cases hk : keys.minEntry? with
  | none =>
    simp only [dropOldest, hk] at h
    exact h
  | some oldest =>
    simp only [dropOldest, hk] at h
    have h : (times.erase oldest.2).contains key = true := h
    rw [Std.HashMap.contains_erase] at h
    exact (Bool.and_eq_true_iff.mp h).2

theorem put_eq (c : RecencySet α) (key : α) :
    c.put key = (!c.contains key, ⟨c.capacity, c.times.insert key c.now,
      (c.times[key]?.elim c.keys c.keys.erase).insert c.now key, c.now + 1⟩) := by
  obtain ⟨capacity, times, keys, now⟩ := c
  rw [contains, Std.HashMap.contains_eq_isSome_getElem?]
  cases ht : times[key]? <;> simp only [put, ht] <;> rfl

theorem insert_fst (c : RecencySet α) (key : α) : (c.insert key).1 = !c.contains key :=
  congrArg Prod.fst (c.put_eq key)

theorem contains_of_insert {c : RecencySet α} {key x : α}
    (h : (c.insert key).2.contains x = true) : (key == x) = true ∨ c.contains x = true := by
  have h : (c.put key).2.evict.contains x = true := h
  have hput : (c.put key).2.contains x = true := by
    unfold evict at h
    split at h
    · exact contains_of_dropOldest h
    · exact h
  rw [put_eq] at hput
  have hput : (c.times.insert key c.now).contains x = true := hput
  rwa [Std.HashMap.contains_insert, Bool.or_eq_true] at hput

end RecencySet

/-! ## Memos -/

namespace Memo

def note : Memo State → Configuration State → Bool × Memo State
  | .disabled, _ => (true, .disabled)
  | .recent window, c => let (fresh, window) := window.insert c; (fresh, .recent window)
  | .all seen, c => let (present, seen) := seen.containsThenInsert c; (!present, .all seen)

def Knows : Memo State → Configuration State → Prop
  | .disabled, _ => False
  | .recent window, c => window.contains c = true
  | .all seen, c => seen.contains c = true

theorem remember_eq_note {memo : Memo State} {state : State} {linearized : Bitset} {id : Nat}
    (h : Bitset.blockIndex id < linearized.blocks.size) :
    memo.remember state linearized id = .ok (memo.note ⟨linearized.put id, state⟩) := by
  cases memo <;> simp [remember, note, Bitset.withSet_eq h, bind, Except.bind, pure, Except.pure]

theorem not_knows_ofConfig {config : Config} {memo : Memo State}
    (h : ofConfig config = .ok memo) (c : Configuration State) : ¬ memo.Knows c := by
  unfold ofConfig at h
  cases hm : config.memo with
  | disabled =>
    rw [hm] at h
    cases h
    exact id
  | lru =>
    rw [hm] at h
    unfold RecencySet.ofCapacity at h
    by_cases h0 : config.lruCapacity.toNat = 0
    · simp [h0, Except.map] at h
    · simp only [h0, if_false, Except.map, Except.ok.injEq] at h
      subst h
      simp [Knows, RecencySet.contains]
  | always =>
    rw [hm] at h
    cases h
    simp [Knows]

theorem exists_ofConfig {config : Config} (h : config.lruCapacity ≠ 0) :
    ∃ memo : Memo State, ofConfig config = .ok memo := by
  have hcap : config.lruCapacity.toNat ≠ 0 := by
    intro h0
    exact h (UInt64.toNat_inj.mp h0)
  unfold ofConfig RecencySet.ofCapacity
  cases config.memo <;> simp [hcap, Except.map]

variable [EquivBEq State] [LawfulHashable State]

theorem knows_of_note_rejects {memo : Memo State} {c : Configuration State}
    (h : (memo.note c).1 = false) : memo.Knows c := by
  cases memo with
  | disabled => cases h
  | recent window =>
    have h : (window.insert c).1 = false := h
    rw [RecencySet.insert_fst, Bool.not_eq_false'] at h
    exact h
  | all seen =>
    have h : (!(seen.containsThenInsert c).1) = false := h
    rw [Std.HashSet.containsThenInsert_fst, Bool.not_eq_false'] at h
    exact h

theorem knows_of_note {memo : Memo State} {c x : Configuration State} (h : (memo.note c).2.Knows x) :
    (c == x) = true ∨ memo.Knows x := by
  cases memo with
  | disabled => cases h
  | recent window => exact RecencySet.contains_of_insert h
  | all seen =>
    have h : (seen.containsThenInsert c).2.contains x = true := h
    rwa [Std.HashSet.containsThenInsert_snd, Std.HashSet.contains_insert, Bool.or_eq_true] at h

theorem note_fst_of_knows {memo : Memo State} {c : Configuration State} (h : memo.Knows c) :
    (memo.note c).1 = false := by
  cases memo with
  | disabled => cases h
  | recent window =>
    show (window.insert c).1 = false
    rw [RecencySet.insert_fst, Bool.not_eq_false']
    exact h
  | all seen =>
    show (!(seen.containsThenInsert c).1) = false
    rw [Std.HashSet.containsThenInsert_fst, Bool.not_eq_false']
    exact h

theorem Knows.congr {memo : Memo State} {c x : Configuration State} (hc : memo.Knows c)
    (h : (c == x) = true) : memo.Knows x := by
  cases memo with
  | disabled => cases hc
  | recent window => exact (Std.HashMap.contains_congr h).symm.trans hc
  | all seen => exact (Std.HashSet.contains_congr h).symm.trans hc

/-! ## Memos that forget nothing -/

omit [EquivBEq State] [LawfulHashable State] in
/-- The memo keeps all that it is told. -/
def Retentive (memo : Memo State) : Prop := ∃ seen, memo = .all seen

omit [EquivBEq State] [LawfulHashable State] in
theorem Retentive.note {memo : Memo State} (hm : memo.Retentive) (c : Configuration State) :
    (memo.note c).2.Retentive := by
  obtain ⟨seen, rfl⟩ := hm
  exact ⟨_, rfl⟩

theorem Retentive.knows_note_iff {memo : Memo State} (hm : memo.Retentive)
    {c x : Configuration State} : (memo.note c).2.Knows x ↔ (c == x) = true ∨ memo.Knows x := by
  obtain ⟨seen, rfl⟩ := hm
  show (seen.containsThenInsert c).2.contains x = true ↔ _ ∨ seen.contains x = true
  rw [Std.HashSet.containsThenInsert_snd, Std.HashSet.contains_insert, Bool.or_eq_true]

theorem Retentive.knows_noted {memo : Memo State} {c : Configuration State}
    (hm : (memo.note c).2.Retentive) : (memo.note c).2.Knows c := by
  obtain ⟨seen, hseen⟩ := hm
  cases memo with
  | disabled => cases hseen
  | recent window => cases hseen
  | all seen => exact knows_note_iff ⟨seen, rfl⟩ |>.mpr (.inl BEq.rfl)

end Memo

end Linearizability
