import Linearizability.Proofs.History.Complete
import Mathlib.Data.List.TakeWhile

/-!
# Paths of a search

A path is a list of calls that are linearized one after another. What is
left of the history beside a path is `rest`, and the calls among it are
`left`. The next call comes from `front`: it stands ahead of every return
that is left, which is the same as that no call that is left precedes it.
-/

namespace Linearizability.History

variable {Op : Type}

def callOf (h : History Op) (i : Nat) : Nat := if h.isCallAt i then i else h.mate i

def rest (h : History Op) (path : List Nat) : List Nat :=
  (List.range h.entries.size).filter fun i => h.callOf i ∉ path

def left (h : History Op) (path : List Nat) : List Nat := (h.rest path).filter h.isCallAt

/-- The calls that may be linearized next. -/
def front (h : History Op) (path : List Nat) : List Nat := (h.rest path).takeWhile h.isCallAt

inductive IsPath (h : History Op) : List Nat → Prop where
  | nil : IsPath h []
  | snoc {path : List Nat} {call : Nat} :
    IsPath h path → call ∈ h.front path → IsPath h (path ++ [call])

/-! ## What is left -/

theorem callOf_call {h : History Op} {i : Nat} (hi : h.isCallAt i = true) : h.callOf i = i :=
  if_pos hi

theorem mem_rest {h : History Op} {path : List Nat} {i : Nat} :
    i ∈ h.rest path ↔ i < h.entries.size ∧ h.callOf i ∉ path := by
  simp [rest]

theorem mem_left {h : History Op} {path : List Nat} {i : Nat} :
    i ∈ h.left path ↔ h.isCallAt i = true ∧ i ∉ path := by
  rw [left, List.mem_filter, mem_rest]
  constructor
  · rintro ⟨⟨_, hp⟩, hi⟩
    rw [callOf_call hi] at hp
    exact ⟨hi, hp⟩
  · rintro ⟨hi, hp⟩
    exact ⟨⟨WellPaired.lt_size_of_isCallAt hi, by rwa [callOf_call hi]⟩, hi⟩

theorem mem_left_of_mem_rest {h : History Op} {path : List Nat} {i : Nat} (hi : i ∈ h.rest path)
    (hc : h.isCallAt i = true) : i ∈ h.left path :=
  List.mem_filter.mpr ⟨hi, hc⟩

theorem rest_nil (h : History Op) : h.rest [] = List.range h.entries.size := by
  simp [rest]

theorem rest_pairwise (h : History Op) (path : List Nat) : (h.rest path).Pairwise (· < ·) :=
  List.pairwise_lt_range.filter _

theorem left_pairwise (h : History Op) (path : List Nat) : (h.left path).Pairwise (· < ·) :=
  (h.rest_pairwise path).filter _

theorem left_nodup (h : History Op) (path : List Nat) : (h.left path).Nodup :=
  (h.left_pairwise path).imp Nat.ne_of_lt

theorem rest_congr {h : History Op} {path path' : List Nat} (hp : ∀ c, c ∈ path ↔ c ∈ path') :
    h.rest path = h.rest path' := by
  simp only [rest, hp]

theorem left_congr {h : History Op} {path path' : List Nat} (hp : ∀ c, c ∈ path ↔ c ∈ path') :
    h.left path = h.left path' := by
  rw [left, rest_congr hp, left]

theorem rest_snoc (h : History Op) (path : List Nat) (call : Nat) :
    h.rest (path ++ [call]) = (h.rest path).filter fun i => h.callOf i ≠ call := by
  rw [rest, rest, List.filter_filter]
  apply List.filter_congr
  intro i _
  simp [and_comm]

theorem left_snoc (h : History Op) (path : List Nat) (call : Nat) :
    h.left (path ++ [call]) = (h.left path).erase call := by
  rw [List.Nodup.erase_eq_filter (h.left_nodup path), left, rest_snoc, left, List.filter_filter,
    List.filter_filter]
  apply List.filter_congr
  intro i _
  cases hi : h.isCallAt i with
  | false => simp
  | true => simp [callOf_call hi, bne, Bool.beq_eq_decide_eq]

theorem front_subset_left {h : History Op} {path : List Nat} {call : Nat}
    (hc : call ∈ h.front path) : call ∈ h.left path :=
  mem_left_of_mem_rest ((List.takeWhile_prefix _).subset hc) (List.mem_takeWhile_imp hc)

theorem length_left_snoc {h : History Op} {path : List Nat} {call calls : Nat}
    (hlen : (h.left path).length = calls + 1) (hc : call ∈ h.front path) :
    (h.left (path ++ [call])).length = calls := by
  rw [left_snoc, List.length_erase_of_mem (front_subset_left hc), hlen, Nat.add_sub_cancel]

theorem exists_rest_of_mem_front {h : History Op} {path : List Nat} {call : Nat}
    (hc : call ∈ h.front path) :
    ∃ passed behind, h.rest path = passed ++ call :: behind ∧ ∀ i ∈ passed, h.isCallAt i = true := by
  obtain ⟨behind, hb⟩ := List.takeWhile_prefix (p := h.isCallAt) (l := h.rest path)
  obtain ⟨passed, more, hp⟩ := List.append_of_mem hc
  have hfront : (h.rest path).takeWhile h.isCallAt = passed ++ call :: more := hp
  refine ⟨passed, more ++ behind, ?_, ?_⟩
  · rw [← hb, hfront, List.append_assoc]
    rfl
  · intro i hi
    have hmem : i ∈ (h.rest path).takeWhile h.isCallAt := by
      rw [hfront]
      exact List.mem_append_left _ hi
    exact List.mem_takeWhile_imp hmem

theorem passed_snoc {h : History Op} {path passed ahead : List Nat} {i : Nat}
    (hrest : h.rest path = passed ++ i :: ahead) (hpassed : ∀ c ∈ passed, h.isCallAt c = true)
    (hi : h.isCallAt i = true) :
    h.rest path = (passed ++ [i]) ++ ahead ∧ (∀ c ∈ passed ++ [i], h.isCallAt c = true) ∧
      i ∈ h.front path := by
  refine ⟨by rw [hrest, List.append_cons],
    List.forall_mem_append.mpr ⟨hpassed, List.forall_mem_singleton.mpr hi⟩, ?_⟩
  rw [front, hrest, List.takeWhile_append_of_pos hpassed, List.takeWhile_cons_of_pos hi]
  exact List.mem_append_right _ List.mem_cons_self

theorem front_eq_passed {h : History Op} {path passed ahead : List Nat}
    (hrest : h.rest path = passed ++ ahead) (hpassed : ∀ c ∈ passed, h.isCallAt c = true)
    (hahead : ∀ i ∈ ahead.head?, h.isCallAt i = false) : h.front path = passed := by
  rw [front, hrest, List.takeWhile_append_of_pos hpassed]
  cases ahead with
  | nil => exact List.append_nil _
  | cons i ahead => rw [List.takeWhile_cons_of_neg (by simp [hahead i rfl]), List.append_nil]

namespace IsPath

variable {h : History Op} {path : List Nat}

theorem of_snoc {call : Nat} (hp : h.IsPath (path ++ [call])) :
    h.IsPath path ∧ call ∈ h.front path := by
  generalize he : path ++ [call] = whole at hp
  cases hp with
  | nil => simp at he
  | snoc hp hf =>
    obtain ⟨hpath, hlast⟩ := List.append_inj' he rfl
    rw [hpath, List.singleton_inj.mp hlast]
    exact ⟨hp, hf⟩

theorem isCallAt (hp : h.IsPath path) {call : Nat} (hc : call ∈ path) : h.isCallAt call = true := by
  induction hp with
  | nil => cases hc
  | snoc _ hf ih =>
    rcases List.mem_append.mp hc with hc | hc
    · exact ih hc
    · rw [List.mem_singleton.mp hc]
      exact (mem_left.mp (front_subset_left hf)).1

theorem nodup (hp : h.IsPath path) : path.Nodup := by
  induction hp with
  | nil => exact List.nodup_nil
  | snoc _ hf ih =>
    have hnew := (mem_left.mp (front_subset_left hf)).2
    rw [List.nodup_append]
    refine ⟨ih, List.nodup_singleton _, ?_⟩
    intro a ha b hb
    rw [List.mem_singleton.mp hb]
    rintro rfl
    exact hnew ha

theorem length_left (hp : h.IsPath path) : path.length + (h.left path).length = (h.left []).length := by
  induction hp with
  | nil => simp
  | @snoc path call _ hf ih =>
    have hlen := List.length_erase_of_mem (front_subset_left hf)
    have hpos := List.length_pos_of_mem (front_subset_left hf)
    rw [left_snoc, hlen, List.length_append, List.length_singleton]
    omega

end IsPath

/-! ## Complete histories -/

variable [Operation Op] {h : History Op} (hw : h.WellPaired)

namespace WellPaired

include hw

theorem rest_eq (path : List Nat) :
    h.rest path = (h.toList.map (·.1)).filter fun i => h.callOf i ∉ path := by
  rw [rest, hw.map_fst_toList]

theorem left_nil : h.left [] = h.callRefs := by
  rw [hw.callRefs_eq, left, rest_nil]

theorem length_left_nil : (h.left []).length = h.calls := by
  rw [hw.left_nil, hw.length_callRefs]

theorem callOf_mate {i : Nat} (hi : i < h.entries.size) : h.callOf (h.mate i) = h.callOf i := by
  unfold callOf
  rw [hw.isCallAt_mate hi, hw.mate_mate hi]
  cases h.isCallAt i <;> simp

theorem mate_mem_rest {path : List Nat} {i : Nat} (hi : i ∈ h.rest path) :
    h.mate i ∈ h.rest path := by
  obtain ⟨hlt, hp⟩ := mem_rest.mp hi
  exact mem_rest.mpr ⟨hw.mate_lt hlt, by rwa [hw.callOf_mate hlt]⟩

theorem exists_ret_mem_rest {path : List Nat} (hne : h.left path ≠ []) :
    ∃ i ∈ h.rest path, h.isCallAt i = false := by
  obtain ⟨c, hc⟩ := List.exists_mem_of_ne_nil _ hne
  obtain ⟨hcr, hcall⟩ := List.mem_filter.mp hc
  refine ⟨h.mate c, hw.mate_mem_rest hcr, ?_⟩
  rw [hw.isCallAt_mate (mem_rest.mp hcr).1, hcall]
  rfl

theorem callOf_eq_iff {i call : Nat} (hi : i < h.entries.size) (hc : h.isCallAt call = true) :
    h.callOf i = call ↔ i = call ∨ i = h.mate call := by
  unfold callOf
  constructor
  · intro he
    split at he
    · exact .inl he
    · exact .inr (by rw [← he, hw.mate_mate hi])
  · rintro (rfl | rfl)
    · exact if_pos hc
    · have hlt := lt_size_of_isCallAt hc
      rw [hw.isCallAt_mate hlt, hc, hw.mate_mate hlt]
      rfl

/-- The call and its return within what is left, and what is left without them. -/
theorem exists_rest_split {path : List Nat} {call : Nat} (hc : call ∈ h.left path) :
    ∃ a b d, h.rest path = a ++ call :: (b ++ h.mate call :: d) ∧
      h.rest (path ++ [call]) = a ++ (b ++ d) := by
  obtain ⟨hcr, hcall⟩ := List.mem_filter.mp hc
  obtain ⟨a, t, hat⟩ := List.append_of_mem hcr
  have hsorted := h.rest_pairwise path
  rw [hat] at hsorted
  have hmem := hw.mate_mem_rest hcr
  rw [hat] at hmem
  have hlt := hw.lt_mate hcall
  have hmt : h.mate call ∈ t := by
    rcases List.mem_append.mp hmem with hm | hm
    · have := (List.pairwise_append.mp hsorted).2.2 _ hm call (by simp)
      omega
    · rcases List.mem_cons.mp hm with hm | hm
      · omega
      · exact hm
  obtain ⟨b, d, hbd⟩ := List.append_of_mem hmt
  subst hbd
  refine ⟨a, b, d, hat, ?_⟩
  have hnd : (a ++ call :: (b ++ h.mate call :: d)).Nodup := hsorted.imp Nat.ne_of_lt
  have hkeep : ∀ i ∈ h.rest path, (decide (h.callOf i ≠ call) = true ↔ i ≠ call ∧ i ≠ h.mate call) := by
    intro i hi
    rw [decide_eq_true_iff, ne_eq, hw.callOf_eq_iff (mem_rest.mp hi).1 hcall, not_or]
  rw [rest_snoc]
  rw [hat] at hkeep ⊢
  have hkept : ∀ l : List Nat, l ⊆ a ++ call :: (b ++ h.mate call :: d) →
      (∀ i ∈ l, i ≠ call ∧ i ≠ h.mate call) → l.filter (fun i => h.callOf i ≠ call) = l :=
    fun l hl hne => List.filter_eq_self.mpr fun i hi => (hkeep i (hl hi)).mpr (hne i hi)
  have hcallOut : decide (h.callOf call ≠ call) = false := by simp [callOf_call hcall]
  have hmateOut : decide (h.callOf (h.mate call) ≠ call) = false := by
    simp [(hw.callOf_eq_iff (hw.mate_lt (lt_size_of_isCallAt hcall)) hcall).mpr (.inr rfl)]
  rw [List.filter_append, List.filter_cons_of_neg (by simp [hcallOut]), List.filter_append,
    List.filter_cons_of_neg (by simp [hmateOut])]
  simp only [List.nodup_append, List.nodup_cons, List.mem_append, List.mem_cons] at hnd
  obtain ⟨_, ⟨hcn, _, ⟨hmd, _⟩, hbm⟩, hac⟩ := hnd
  rw [hkept a (by simp) fun i hi => ⟨hac i hi call (.inl rfl), hac i hi _ (.inr (.inr (.inl rfl)))⟩,
    hkept b ?_ fun i hi => ⟨?_, hbm i hi _ (.inl rfl)⟩, hkept d ?_ fun i hi => ⟨?_, ?_⟩]
  · intro i hi; simp [hi]
  · rintro rfl; exact hcn (.inr (.inr hi))
  · rintro rfl; exact hmd hi
  · intro i hi; simp [hi]
  · rintro rfl; exact hcn (.inl hi)

theorem mem_front_iff {path : List Nat} {call : Nat} :
    call ∈ h.front path ↔ call ∈ h.left path ∧ ∀ d ∈ h.left path, ¬ h.Precedes d call := by
  constructor
  · intro hc
    refine ⟨front_subset_left hc, ?_⟩
    intro d hd hprec
    obtain ⟨hdr, hdc⟩ := List.mem_filter.mp hd
    rw [hw.precedes_iff (lt_size_of_isCallAt hdc)] at hprec
    -- the return of `d` is left and stands before `call`, so it is in front too
    obtain ⟨t, ht⟩ := List.takeWhile_prefix (p := h.isCallAt) (l := h.rest path)
    have hsorted := h.rest_pairwise path
    have hmem := hw.mate_mem_rest hdr
    rw [← ht] at hsorted hmem
    rcases List.mem_append.mp hmem with hm | hm
    · have := List.mem_takeWhile_imp hm
      rw [hw.isCallAt_mate (lt_size_of_isCallAt hdc), hdc] at this
      cases this
    · have := (List.pairwise_append.mp hsorted).2.2 call hc _ hm
      omega
  · rintro ⟨hc, hmin⟩
    obtain ⟨hcr, hcall⟩ := List.mem_filter.mp hc
    have hsorted := h.rest_pairwise path
    obtain ⟨a, t, hat⟩ := List.append_of_mem hcr
    -- every entry before `call` is a call: the call of a return would precede `call`
    have hcalls : ∀ i ∈ a, h.isCallAt i = true := by
      intro i hi
      by_contra hr
      have hir : i ∈ h.rest path := by rw [hat]; exact List.mem_append_left _ hi
      have hlt := (mem_rest.mp hir).1
      have hmate : h.isCallAt (h.mate i) = true := by
        rw [hw.isCallAt_mate hlt, Bool.eq_false_iff.mpr hr]
        rfl
      refine hmin _ (mem_left_of_mem_rest (hw.mate_mem_rest hir) hmate) ?_
      rw [hw.precedes_iff (hw.mate_lt hlt), hw.mate_mate hlt]
      rw [hat] at hsorted
      exact (List.pairwise_append.mp hsorted).2.2 i hi call (by simp)
    rw [front, hat, List.takeWhile_append_of_pos hcalls, List.takeWhile_cons_of_pos hcall]
    exact List.mem_append_right _ (by simp)

theorem rest_eq_nil_iff {path : List Nat} : h.rest path = [] ↔ h.left path = [] := by
  constructor
  · intro he
    rw [left, he]
    rfl
  · intro he
    apply List.eq_nil_iff_forall_not_mem.mpr
    intro i hi
    have hcall : ∃ c, c ∈ h.left path := by
      cases hc : h.isCallAt i with
      | true => exact ⟨i, mem_left_of_mem_rest hi hc⟩
      | false =>
        refine ⟨h.mate i, mem_left_of_mem_rest (hw.mate_mem_rest hi) ?_⟩
        rw [hw.isCallAt_mate (mem_rest.mp hi).1, hc]
        rfl
    obtain ⟨c, hc⟩ := hcall
    rw [he] at hc
    cases hc

end WellPaired

end Linearizability.History
