import Linearizability.Search.WorkingList
import Mathlib.Data.List.Nodup
import Mathlib.Data.List.Perm.Subperm

/-!
# The circle of a working list

`Circle w l` says that the links of `w` lead from the head through the nodes
of `l` and back to the head, in both directions. Lifting takes two nodes out
of `l`, and unlifting restores the array of nodes as it was before.
-/

namespace Linearizability

def Node.bare (n : Node) : Node := { n with prev := 0, next := 0 }

namespace WorkingList

def nextOf (w : WorkingList) (i : Nat) : Option Nat := w.nodes[i]?.map (·.next)

def prevOf (w : WorkingList) (i : Nat) : Option Nat := w.nodes[i]?.map (·.prev)

def Linked (w : WorkingList) (a b : Nat) : Prop := w.nextOf a = some b ∧ w.prevOf b = some a

/-- The links lead from `a` through `l` to `b`. -/
def Segment (w : WorkingList) : (a : Nat) → (l : List Nat) → (b : Nat) → Prop
  | a, [], b => w.Linked a b
  | a, x :: l, b => w.Linked a x ∧ w.Segment x l b

structure Circle (w : WorkingList) (l : List Nat) : Prop where
  segment : w.Segment w.head l w.head
  nodup : (w.head :: l).Nodup

structure SameNodes (w w' : WorkingList) : Prop where
  size : w'.nodes.size = w.nodes.size
  bare : ∀ i : Nat, w'.nodes[i]?.map Node.bare = w.nodes[i]?.map Node.bare

theorem SameNodes.refl (w : WorkingList) : w.SameNodes w := ⟨rfl, fun _ => rfl⟩

theorem SameNodes.trans {w₁ w₂ w₃ : WorkingList} (h : w₁.SameNodes w₂) (h' : w₂.SameNodes w₃) :
    w₁.SameNodes w₃ :=
  ⟨h'.size.trans h.size, fun i => (h'.bare i).trans (h.bare i)⟩

theorem SameNodes.head {w w' : WorkingList} (h : w.SameNodes w') : w'.head = w.head := by
  rw [WorkingList.head, WorkingList.head, h.size]

theorem SameNodes.exists_node {w w' : WorkingList} (h : w.SameNodes w') {i : Nat} {n : Node}
    (hn : w.nodes[i]? = some n) : ∃ n', w'.nodes[i]? = some n' ∧ n'.bare = n.bare := by
  have hb := h.bare i
  rw [hn] at hb
  simpa [Option.map_eq_some_iff] using hb

/-! ## Segments -/

theorem segment_append {w : WorkingList} {a b x : Nat} {l l' : List Nat} :
    w.Segment a (l ++ x :: l') b ↔ w.Segment a l x ∧ w.Segment x l' b := by
  induction l generalizing a with
  | nil => rfl
  | cons y l ih => simp only [List.cons_append, Segment, ih, and_assoc]

theorem Segment.congr {w w' : WorkingList} {a b : Nat} {l : List Nat} (h : w.Segment a l b)
    (hn : ∀ i ∈ a :: l, w'.nextOf i = w.nextOf i) (hp : ∀ i ∈ l ++ [b], w'.prevOf i = w.prevOf i) :
    w'.Segment a l b := by
  induction l generalizing a with
  | nil =>
    refine ⟨?_, ?_⟩
    · rw [hn a (by simp)]; exact h.1
    · rw [hp b (by simp)]; exact h.2
  | cons x l ih =>
    refine ⟨⟨?_, ?_⟩, ih h.2 ?_ ?_⟩
    · rw [hn a (by simp)]; exact h.1.1
    · rw [hp x (by simp)]; exact h.1.2
    · intro i hi; exact hn i (by simp [List.mem_cons.mp hi])
    · intro i hi; exact hp i (by simp [List.mem_append.mp hi |>.imp_right List.mem_singleton.mp])

theorem Segment.nextOf {w : WorkingList} {a b : Nat} {l : List Nat} (h : w.Segment a l b) :
    w.nextOf a = some (l.headD b) := by
  cases l with
  | nil => exact h.1
  | cons x l => exact h.1.1

theorem lt_size_of_nextOf {w : WorkingList} {i q : Nat} (h : w.nextOf i = some q) :
    i < w.nodes.size := by
  obtain ⟨n, hn, _⟩ := Option.map_eq_some_iff.mp h
  exact (Array.getElem?_eq_some_iff.mp hn).1

theorem lt_size_of_prevOf {w : WorkingList} {i p : Nat} (h : w.prevOf i = some p) :
    i < w.nodes.size := by
  obtain ⟨n, hn, _⟩ := Option.map_eq_some_iff.mp h
  exact (Array.getElem?_eq_some_iff.mp hn).1

theorem Segment.lt_size {w : WorkingList} {a b : Nat} {l : List Nat} (h : w.Segment a l b) :
    ∀ i ∈ l, i < w.nodes.size := by
  induction l generalizing a with
  | nil => simp
  | cons x l ih =>
    intro i hi
    rcases List.mem_cons.mp hi with rfl | hi
    · exact lt_size_of_prevOf h.1.2
    · exact ih h.2 i hi

theorem Segment.mem_of_nextOf {w : WorkingList} {a b q : Nat} {l : List Nat} (h : w.Segment a l b)
    (hq : w.nextOf a = some q) : q ∈ l ++ [b] := by
  rw [h.nextOf] at hq
  cases l with
  | nil => simp [← Option.some.inj hq]
  | cons x l => simp [← Option.some.inj hq]

theorem Segment.mem_of_prevOf {w : WorkingList} {a b p : Nat} {l : List Nat} (h : w.Segment a l b)
    (hp : w.prevOf b = some p) : p ∈ a :: l := by
  induction l generalizing a with
  | nil =>
    rw [h.2] at hp
    simp [← Option.some.inj hp]
  | cons x l ih => exact List.mem_cons_of_mem _ (ih h.2)

theorem Segment.exists_first {w : WorkingList} {a b : Nat} {l : List Nat} (h : w.Segment a l b) :
    ∃ q ∈ l ++ [b], w.Linked a q := by
  cases l with
  | nil => exact ⟨b, by simp, h⟩
  | cons x l => exact ⟨x, by simp, h.1⟩

theorem Segment.exists_last {w : WorkingList} {a b : Nat} {l : List Nat} (h : w.Segment a l b) :
    ∃ p ∈ a :: l, w.Linked p b := by
  induction l generalizing a with
  | nil => exact ⟨a, by simp, h⟩
  | cons x l ih =>
    obtain ⟨p, hp, hl⟩ := ih h.2
    exact ⟨p, List.mem_cons_of_mem _ hp, hl⟩

/-- Node `i` is bridged between its neighbours `p` and `q`: the segments before and after it join. -/
theorem Segment.bridge {w w' : WorkingList} {i p q : Nat} (hp : w.prevOf i = some p)
    (hq : w.nextOf i = some q) (hpq : w'.Linked p q) (hn : ∀ z, z ≠ p → w'.nextOf z = w.nextOf z)
    (hv : ∀ z, z ≠ q → w'.prevOf z = w.prevOf z) {a b : List Nat} {x y : Nat}
    (h : w.Segment x a i) (h' : w.Segment i b y) (hnd : (x :: (a ++ b)).Nodup)
    (hnd' : ((a ++ b) ++ [y]).Nodup) : w'.Segment x (a ++ b) y := by
  induction a generalizing x with
  | nil =>
    have hpx : p = x := by
      have := h.2
      rw [hp] at this
      exact Option.some.inj this
    subst hpx
    cases b with
    | nil =>
      have hqy : q = y := by
        have := h'.1
        rw [hq] at this
        exact Option.some.inj this
      subst hqy
      exact hpq
    | cons z b =>
      have hqz : q = z := by
        have := h'.1.1
        rw [hq] at this
        exact Option.some.inj this
      subst hqz
      refine ⟨hpq, h'.2.congr ?_ ?_⟩
      · intro j hj
        apply hn
        rintro rfl
        exact (List.nodup_cons.mp hnd).1 (by simpa using hj)
      · intro j hj
        apply hv
        rintro rfl
        exact (List.nodup_cons.mp hnd').1 hj
  | cons z a ih =>
    have hxp : x ≠ p := by
      rintro rfl
      exact (List.nodup_cons.mp hnd).1 (List.mem_append_left _ (h.2.mem_of_prevOf hp))
    have hzq : z ≠ q := by
      rintro rfl
      have hmem : z ∈ a ++ b ++ [y] := by
        rw [List.append_assoc]
        exact List.mem_append_right _ (h'.mem_of_nextOf hq)
      exact (List.nodup_cons.mp hnd').1 hmem
    refine ⟨⟨?_, ?_⟩, ih h.2 ?_ ?_⟩
    · rw [hn x hxp]; exact h.1.1
    · rw [hv z hzq]; exact h.1.2
    · exact (List.nodup_cons.mp hnd).2
    · exact (List.nodup_cons.mp hnd').2

/-! ## One node -/

theorem node_eq_ok {w : WorkingList} {i : Nat} {n : Node} (h : w.nodes[i]? = some n) :
    w.node i = .ok n := by
  rw [node, h]

/-- The list in which the next node of `p` is `a` and the one before `q` is `b`. -/
def splice (w : WorkingList) (p a q b : Nat) : WorkingList :=
  ⟨(w.nodes.modify p fun m => { m with next := a }).modify q fun m => { m with prev := b }⟩

theorem getElem?_splice (w : WorkingList) (p a q b z : Nat) :
    (w.splice p a q b).nodes[z]? = w.nodes[z]?.map fun m =>
      { m with next := if z = p then a else m.next, prev := if z = q then b else m.prev } := by
  simp only [splice, Array.getElem?_modify]
  cases w.nodes[z]? with
  | none => simp
  | some m =>
    by_cases hp : p = z
    · by_cases hq : q = z
      · simp [hp, hq]
      · simp [hp, hq, Ne.symm hq]
    · by_cases hq : q = z
      · simp [hp, hq, Ne.symm hp]
      · simp [hp, hq, Ne.symm hp, Ne.symm hq]

theorem nextOf_splice (w : WorkingList) (p a q b z : Nat) :
    (w.splice p a q b).nextOf z = (w.nextOf z).map fun next => if z = p then a else next := by
  rw [nextOf, getElem?_splice, nextOf, Option.map_map, Option.map_map]
  rfl

theorem prevOf_splice (w : WorkingList) (p a q b z : Nat) :
    (w.splice p a q b).prevOf z = (w.prevOf z).map fun prev => if z = q then b else prev := by
  rw [prevOf, getElem?_splice, prevOf, Option.map_map, Option.map_map]
  rfl

theorem sameNodes_splice (w : WorkingList) (p a q b : Nat) : w.SameNodes (w.splice p a q b) where
  size := by simp [splice]
  bare z := by
    rw [getElem?_splice, Option.map_map]
    rfl

theorem splice_splice (w : WorkingList) (p a q b c d : Nat) :
    (w.splice p a q b).splice p c q d = w.splice p c q d := by
  rw [WorkingList.mk.injEq]
  apply Array.ext_getElem?
  intro z
  rw [getElem?_splice, getElem?_splice, getElem?_splice, Option.map_map]
  congr 1
  funext m
  simp only [Function.comp, Node.mk.injEq, true_and]
  constructor <;> split <;> rfl

theorem splice_self {w : WorkingList} {p a q b : Nat} (hp : w.nextOf p = some a)
    (hq : w.prevOf q = some b) : w.splice p a q b = w := by
  rw [WorkingList.mk.injEq]
  apply Array.ext_getElem?
  intro z
  rw [getElem?_splice]
  cases hz : w.nodes[z]? with
  | none => rfl
  | some m =>
    have hnext : (if z = p then a else m.next) = m.next := by
      split
      · subst z
        rw [nextOf, hz] at hp
        exact (Option.some.inj hp).symm
      · rfl
    have hprev : (if z = q then b else m.prev) = m.prev := by
      split
      · subst z
        rw [prevOf, hz] at hq
        exact (Option.some.inj hq).symm
      · rfl
    rw [Option.map_some, hnext, hprev]

theorem unlink_eq {w : WorkingList} {i : Nat} {n : Node} (hn : w.nodes[i]? = some n)
    (hp : n.prev < w.nodes.size) (hq : n.next < w.nodes.size) :
    w.unlink i = .ok (w.splice n.prev n.next n.next n.prev) := by
  unfold unlink splice
  rw [node_eq_ok hn]
  simp [bind, Except.bind, setNext, setPrev, hp, hq]

theorem relink_eq {w : WorkingList} {i : Nat} {n : Node} (hn : w.nodes[i]? = some n)
    (hb : w.nextOf n.prev = some n.next) (hq : n.next < w.nodes.size) :
    w.relink i = .ok (w.splice n.prev i n.next i) := by
  obtain ⟨before, hb, hbn⟩ := Option.map_eq_some_iff.mp hb
  have hp : n.prev < w.nodes.size := (Array.getElem?_eq_some_iff.mp hb).1
  unfold relink splice
  simp only [bind, Except.bind, node_eq_ok hn, node_eq_ok hb]
  simp [hbn, setNext, setPrev, hp, hq]

theorem exists_unlink {w : WorkingList} {i p q : Nat} (hp : w.Linked p i) (hq : w.Linked i q)
    (hpi : p ≠ i) (hqi : q ≠ i) :
    ∃ w', w.unlink i = .ok w' ∧ w'.relink i = .ok w ∧ w.SameNodes w' ∧ w'.Linked p q ∧
      (∀ z, z ≠ p → w'.nextOf z = w.nextOf z) ∧ (∀ z, z ≠ q → w'.prevOf z = w.prevOf z) := by
  obtain ⟨n, hn, hnp⟩ := Option.map_eq_some_iff.mp hp.2
  have hnq : n.next = q := by
    have := hq.1
    rw [nextOf, hn] at this
    exact Option.some.inj this
  have hps : p < w.nodes.size := lt_size_of_nextOf hp.1
  have hqs : q < w.nodes.size := lt_size_of_prevOf hq.2
  have hunlink := unlink_eq hn (hnp ▸ hps) (hnq ▸ hqs)
  rw [hnp, hnq] at hunlink
  refine ⟨w.splice p q q p, hunlink, ?_, w.sameNodes_splice p q q p, ⟨?_, ?_⟩, ?_, ?_⟩
  · have hi : (w.splice p q q p).nodes[i]? = some n := by
      rw [getElem?_splice, hn]
      simp [Ne.symm hpi, Ne.symm hqi]
    have hb : (w.splice p q q p).nextOf n.prev = some n.next := by
      rw [nextOf_splice, hnp, hnq, hp.1]
      simp
    have hqs' : n.next < (w.splice p q q p).nodes.size := by simpa [splice, hnq] using hqs
    rw [relink_eq hi hb hqs', hnp, hnq, splice_splice, splice_self hp.1 hq.2]
  · rw [nextOf_splice, hp.1]; simp
  · rw [prevOf_splice, hq.2]; simp
  · intro z hz
    rw [nextOf_splice]
    simp [hz]
  · intro z hz
    rw [prevOf_splice]
    simp [hz]

/-! ## The circle -/

namespace Circle

variable {w : WorkingList} {l : List Nat}

theorem first (hc : w.Circle l) : w.first = .ok (l.headD w.head) := by
  obtain ⟨n, hn, hnext⟩ := Option.map_eq_some_iff.mp hc.segment.nextOf
  rw [WorkingList.first, node_eq_ok hn, ← hnext]
  rfl

theorem isEmpty (hc : w.Circle l) : w.isEmpty = .ok l.isEmpty := by
  rw [WorkingList.isEmpty, hc.first]
  cases l with
  | nil => simp [Except.map]
  | cons x l =>
    have hx : x ≠ w.head := by
      rintro rfl
      exact (List.nodup_cons.mp hc.nodup).1 (by simp)
    simp [Except.map, hx]

theorem lt_head (hc : w.Circle l) {i : Nat} (hi : i ∈ l) : i < w.head := by
  have hlt := hc.segment.lt_size i hi
  have hne : i ≠ w.head := by
    rintro rfl
    exact (List.nodup_cons.mp hc.nodup).1 hi
  unfold head at *
  omega

theorem remaining (hc : w.Circle l) (he : ∀ i ∈ l, ∃ n, w.nodes[i]? = some n ∧ n.entry = i) :
    w.remaining = l := by
  have hwalk : ∀ (limit : Nat) (l : List Nat) (x : Nat), w.Segment x l w.head →
      (∀ i ∈ l, i ≠ w.head) → (∀ i ∈ l, ∃ n, w.nodes[i]? = some n ∧ n.entry = i) →
      l.length < limit → (w.walk limit (l.headD w.head)).map (·.entry) = l := by
    intro limit
    induction limit with
    | zero => intro l x _ _ _ hlen; omega
    | succ limit ih =>
      intro l x hs hne he hlen
      cases l with
      | nil => simp [walk]
      | cons i l =>
        obtain ⟨n, hn, hni⟩ := he i (by simp)
        have hnext : n.next = l.headD w.head := by
          have := hs.2.nextOf
          rw [nextOf, hn] at this
          exact Option.some.inj this
        rw [List.headD_cons, walk, if_neg (hne i (by simp)), hn, List.map_cons, hni, hnext]
        congr 1
        exact ih l i hs.2 (fun j hj => hne j (by simp [hj])) (fun j hj => he j (by simp [hj]))
          (by simpa using hlen)
  have hlen : l.length < w.nodes.size := by
    have hsub : w.head :: l ⊆ List.range w.nodes.size := by
      intro i hi
      rw [List.mem_range]
      rcases List.mem_cons.mp hi with rfl | hi
      · exact lt_size_of_nextOf hc.segment.nextOf
      · exact hc.segment.lt_size i hi
    have hle := (hc.nodup.subperm hsub).length_le
    rw [List.length_cons, List.length_range] at hle
    exact hle
  have hne : ∀ i ∈ l, i ≠ w.head := fun i hi => Nat.ne_of_lt (hc.lt_head hi)
  obtain ⟨n, hn, hnext⟩ := Option.map_eq_some_iff.mp hc.segment.nextOf
  rw [WorkingList.remaining, toList, hn]
  simp only [hnext]
  exact hwalk _ l _ hc.segment hne he hlen

theorem exists_unlink {a b : List Nat} {i : Nat} (hc : w.Circle (a ++ i :: b)) :
    ∃ w', w.unlink i = .ok w' ∧ w'.relink i = .ok w ∧ w.SameNodes w' ∧ w'.Circle (a ++ b) := by
  obtain ⟨hs, hs'⟩ := segment_append.mp hc.segment
  have hnd := hc.nodup
  have hperm : (w.head :: (a ++ i :: b)).Perm (i :: w.head :: (a ++ b)) :=
    (List.perm_middle.cons _).trans (.swap _ _ _)
  obtain ⟨hi, hnd⟩ := List.nodup_cons.mp (hperm.nodup_iff.mp hnd)
  obtain ⟨p, hp, hpl⟩ := hs.exists_last
  obtain ⟨q, hq, hql⟩ := hs'.exists_first
  have hpi : p ≠ i := by
    rintro rfl
    apply hi
    rcases List.mem_cons.mp hp with rfl | hp
    · exact List.mem_cons_self
    · exact List.mem_cons_of_mem _ (List.mem_append_left _ hp)
  have hqi : q ≠ i := by
    rintro rfl
    apply hi
    rcases List.mem_append.mp hq with hq | hq
    · exact List.mem_cons_of_mem _ (List.mem_append_right _ hq)
    · rw [List.mem_singleton.mp hq]; exact List.mem_cons_self
  obtain ⟨w', hw', hre, hsame, hpq, hn, hv⟩ := WorkingList.exists_unlink hpl hql hpi hqi
  refine ⟨w', hw', hre, hsame, ?_, ?_⟩
  · rw [hsame.head]
    exact hs.bridge hpl.2 hql.1 hpq hn hv hs' hnd
      ((List.perm_append_singleton _ _).nodup_iff.mpr hnd)
  · rw [hsame.head]
    exact hnd

/-- Lifting a call takes it and its return out, and unlifting undoes that. -/
theorem exists_lift {a b d : List Nat} {call ret : Nat} {n : Node}
    (hc : w.Circle (a ++ call :: (b ++ ret :: d))) (hn : w.nodes[call]? = some n)
    (hcall : n.isCall = true) (hret : n.matched = ret) :
    ∃ w', w.lift call = .ok w' ∧ w'.unlift call = .ok w ∧ w.SameNodes w' ∧
      w'.Circle (a ++ (b ++ d)) := by
  obtain ⟨w₁, h₁, hre₁, hs₁, hc₁⟩ := hc.exists_unlink
  rw [← List.append_assoc] at hc₁
  obtain ⟨w₂, h₂, hre₂, hs₂, hc₂⟩ := hc₁.exists_unlink
  rw [List.append_assoc] at hc₂
  obtain ⟨n', hn', hb⟩ := (hs₁.trans hs₂).exists_node hn
  have hcall' : n'.isCall = true := (congrArg Node.isCall hb).trans hcall
  have hret' : n'.matched = ret := (congrArg Node.matched hb).trans hret
  refine ⟨w₂, ?_, ?_, hs₁.trans hs₂, hc₂⟩
  · unfold WorkingList.lift
    simp [bind, Except.bind, node_eq_ok hn, hcall, hret, h₁, h₂]
  · unfold WorkingList.unlift
    simp [bind, Except.bind, node_eq_ok hn', hcall', hret', hre₁, hre₂]

end Circle

end WorkingList

end Linearizability
