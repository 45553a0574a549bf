import Linearizability.Proofs.Search.Circle
import Linearizability.Proofs.Search.Path

/-!
# The working list beside a path

The working list of a complete history shows all of its entries. Lifting the
calls of a path, one after another, leaves a circle of what is left beside
the path, and the last of these lifts can be undone exactly.
-/

namespace Linearizability

variable {Op : Type}

/-- The fixed part of the node of entry `i`. -/
def History.bareNode (h : History Op) (i : Nat) : Node :=
  { entry := i, entryId := h.idAt i, isCall := h.isCallAt i, matched := h.mate i, prev := 0, next := 0 }

/-- The entries of `l` are in the circle, and every node stands for its entry of `h`. -/
structure WorkingList.Shows (w : WorkingList) (h : History Op) (l : List Nat) : Prop where
  circle : w.Circle l
  size : w.nodes.size = h.entries.size + 1
  bare : ∀ i < h.entries.size, w.nodes[i]?.map Node.bare = some (h.bareNode i)

theorem WorkingList.Shows.exists_node {w : WorkingList} {h : History Op} {passed ahead : List Nat}
    {i : Nat} (hs : w.Shows h (passed ++ i :: ahead)) (hi : i < h.entries.size) :
    ∃ n, w.nodes[i]? = some n ∧ n.bare = h.bareNode i ∧ n.next = ahead.headD w.head := by
  obtain ⟨n, hn, hb⟩ := Option.map_eq_some_iff.mp (hs.bare i hi)
  have hnext := (segment_append.mp hs.circle.segment).2.nextOf
  rw [nextOf, hn] at hnext
  exact ⟨n, hn, hb, Option.some.inj hnext⟩

theorem WorkingList.Shows.exists_entry {w : WorkingList} {h : History Op} {l : List Nat} {i : Nat}
    (hs : w.Shows h l) (hi : i < h.entries.size) : ∃ n, w.nodes[i]? = some n ∧ n.entry = i := by
  obtain ⟨n, hn, hb⟩ := Option.map_eq_some_iff.mp (hs.bare i hi)
  exact ⟨n, hn, congrArg Node.entry hb⟩

theorem WorkingList.Shows.remaining {w : WorkingList} {h : History Op} {path : List Nat}
    (hs : w.Shows h (h.rest path)) : w.remaining = h.rest path :=
  hs.circle.remaining fun _ hi => hs.exists_entry (History.mem_rest.mp hi).1

namespace History

def listAt (h : History Op) (path : List Nat) : Except Fault WorkingList := do
  path.foldlM WorkingList.lift (← WorkingList.ofHistory h)

/-! ## The first list -/

def before (h : History Op) (i : Nat) : Nat := if i = 0 then h.entries.size else i - 1

def firstNode (h : History Op) (i : Nat) : Node :=
  { h.bareNode i with prev := h.before i, next := i + 1 }

def firstList (h : History Op) : WorkingList :=
  ⟨((List.range h.entries.size).map h.firstNode).toArray.push
    (WorkingList.headNode h.entries.size h.entries.size)⟩

theorem getElem?_firstList (h : History Op) {i : Nat} (hi : i < h.entries.size) :
    h.firstList.nodes[i]? = some (h.firstNode i) := by
  have hlen : i < ((List.range h.entries.size).map h.firstNode).length := by simpa using hi
  simp only [firstList, List.push_toArray, List.getElem?_toArray, List.getElem?_append_left hlen]
  simp [hi]

theorem getElem?_firstList_head (h : History Op) :
    h.firstList.nodes[h.entries.size]? =
      some (WorkingList.headNode h.entries.size h.entries.size) := by
  simp [firstList]

theorem head_firstList (h : History Op) : h.firstList.head = h.entries.size := by
  simp [firstList, WorkingList.head]

theorem nextOf_before (h : History Op) {i : Nat} (hi : i ≤ h.entries.size) :
    h.firstList.nextOf (h.before i) = some i := by
  unfold WorkingList.nextOf before
  by_cases h0 : i = 0
  · rw [if_pos h0, getElem?_firstList_head]
    simp [WorkingList.headNode, h0]
  · rw [if_neg h0, getElem?_firstList h (by omega)]
    simp only [Option.map_some, firstNode, Option.some.injEq]
    omega

theorem prevOf_firstList (h : History Op) {i : Nat} (hi : i ≤ h.entries.size) :
    h.firstList.prevOf i = some (h.before i) := by
  unfold WorkingList.prevOf
  by_cases hn : i = h.entries.size
  · subst hn
    rw [getElem?_firstList_head]
    rfl
  · rw [getElem?_firstList h (by omega)]
    rfl

theorem segment_firstList (h : History Op) (count i : Nat) (hi : i + count = h.entries.size) :
    h.firstList.Segment (h.before i) (List.range' i count) h.entries.size := by
  induction count generalizing i with
  | zero =>
    subst hi
    exact ⟨h.nextOf_before (Nat.le_refl _), h.prevOf_firstList (Nat.le_refl _)⟩
  | succ count ih =>
    refine ⟨⟨h.nextOf_before (by omega), h.prevOf_firstList (by omega)⟩, ?_⟩
    have hb : h.before (i + 1) = i := by simp [before]
    have := ih (i + 1) (by omega)
    rwa [hb] at this

theorem shows_firstList (h : History Op) : h.firstList.Shows h (List.range h.entries.size) where
  circle := by
    constructor
    · rw [head_firstList, List.range_eq_range']
      exact segment_firstList h h.entries.size 0 (by omega)
    · rw [head_firstList]
      refine List.nodup_cons.mpr ⟨?_, List.nodup_range⟩
      simp
  size := by simp [firstList]
  bare i hi := by
    rw [getElem?_firstList h hi]
    rfl

theorem mapM_eq_ok {α β : Type} {f : α → Except Fault β} {g : α → β} {l : List α}
    (h : ∀ a ∈ l, f a = .ok (g a)) : l.mapM f = .ok (l.map g) := by
  induction l with
  | nil => rfl
  | cons a l ih =>
    rw [List.mapM_cons, h a (by simp), ih fun b hb => h b (by simp [hb])]
    rfl

variable [Operation Op] {h : History Op} (hw : h.WellPaired)

include hw

theorem entryNode_eq {order : Array Nat} (horder : order = Array.range h.entries.size) {e : Entry Op}
    {i : Nat} (he : h.entries[i]? = some e) :
    WorkingList.entryNode order h.entries.size ((i, e), i) = .ok (h.firstNode i) := by
  have hi : i < h.entries.size := (Array.getElem?_eq_some_iff.mp he).1
  have hm := hw.matched_eq he
  have hplace : WorkingList.placeOf? order (h.mate i) = some (h.mate i) := by
    unfold WorkingList.placeOf?
    rw [if_pos]
    simp [horder, hw.mate_lt hi]
  have hcall : e.isCall = h.isCallAt i := (isCallAt_eq he).symm
  have hid : e.id = h.idAt i := by simp [idAt, he]
  simp only [WorkingList.entryNode, hm, hplace, hcall, hid]
  rfl

theorem ofHistory_eq : WorkingList.ofHistory h = .ok h.firstList := by
  have hlen : h.toList.length = h.size := hw.length_toList.trans hw.size_eq.symm
  have horder : (h.toList.map (·.1)).toArray = Array.range h.entries.size := by
    rw [hw.map_fst_toList, List.toArray_range]
  have hnodes : h.toList.zipIdx.mapM
      (WorkingList.entryNode (h.toList.map (·.1)).toArray h.size) =
      .ok (h.toList.zipIdx.map fun x => h.firstNode x.1.1) := by
    apply mapM_eq_ok
    rintro ⟨⟨i, e⟩, k⟩ hmem
    have hk := List.mk_mem_zipIdx_iff_getElem?.mp hmem
    rw [hw.getElem?_toList, Option.map_eq_some_iff] at hk
    obtain ⟨e', he', heq⟩ := hk
    cases heq
    rw [hw.size_eq]
    exact entryNode_eq hw horder he'
  have hmap : (h.toList.zipIdx.map fun x => h.firstNode x.1.1) =
      (List.range h.entries.size).map h.firstNode := by
    apply List.ext_getElem?
    intro i
    rw [List.getElem?_map, List.getElem?_zipIdx, hw.getElem?_toList, List.getElem?_map]
    by_cases hi : i < h.entries.size <;> simp [hi]
  unfold WorkingList.ofHistory
  simp only [hlen, ne_eq, not_true_eq_false, if_false, bind, Except.bind, hnodes, hmap]
  rw [hw.size_eq]
  rfl

/-! ## Lifting along a path -/

theorem exists_lift {w : WorkingList} {path : List Nat} (hs : w.Shows h (h.rest path)) {call : Nat}
    (hc : call ∈ h.left path) :
    ∃ w', w.lift call = .ok w' ∧ w'.unlift call = .ok w ∧ w'.Shows h (h.rest (path ++ [call])) := by
  have hcall := (mem_left.mp hc).1
  obtain ⟨a, b, d, hrest, hrest'⟩ := hw.exists_rest_split hc
  obtain ⟨n, hn, hb⟩ :=
    Option.map_eq_some_iff.mp (hs.bare call (WellPaired.lt_size_of_isCallAt hcall))
  have hcircle := hs.circle
  rw [hrest] at hcircle
  obtain ⟨w', hlift, hunlift, hsame, hcircle'⟩ :=
    hcircle.exists_lift hn ((congrArg Node.isCall hb).trans hcall) (congrArg Node.matched hb)
  refine ⟨w', hlift, hunlift, ?_, hsame.size.trans hs.size, ?_⟩
  · rw [hrest']
    exact hcircle'
  · intro i hi
    rw [hsame.bare, hs.bare i hi]

omit [Operation Op] hw in
theorem listAt_snoc {path : List Nat} {w : WorkingList} (hl : h.listAt path = .ok w) (call : Nat) :
    h.listAt (path ++ [call]) = w.lift call := by
  unfold listAt at hl ⊢
  cases hf : WorkingList.ofHistory h with
  | error f => rw [hf] at hl; cases hl
  | ok first =>
    rw [hf] at hl
    simp only [bind, Except.bind] at hl ⊢
    rw [List.foldlM_append, hl]
    simp only [bind, Except.bind, List.foldlM_cons, List.foldlM_nil]
    cases w.lift call <;> rfl

theorem IsPath.exists_listAt {path : List Nat} (hp : h.IsPath path) :
    ∃ w, h.listAt path = .ok w ∧ w.Shows h (h.rest path) := by
  induction hp with
  | nil =>
    refine ⟨h.firstList, ?_, h.rest_nil ▸ h.shows_firstList⟩
    rw [listAt, ofHistory_eq hw]
    rfl
  | snoc _ hf ih =>
    obtain ⟨w, hl, hs⟩ := ih
    obtain ⟨w', hlift, _, hs'⟩ := exists_lift hw hs (front_subset_left hf)
    exact ⟨w', (listAt_snoc hl _).trans hlift, hs'⟩

end History

end Linearizability
