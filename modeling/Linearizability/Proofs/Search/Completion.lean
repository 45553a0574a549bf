import Linearizability.Proofs.Search.Memory
import Linearizability.Proofs.Search.Path

/-!
# Completing a path

`h.Completes calls s order` says that `order` linearizes `calls` from the
state `s` on. It starts with a call that no other one precedes, and goes on
in the same way. A configuration is stuck when nothing completes it. For a
lawful specification this depends on the configuration only, not on the path
that led to it.
-/

namespace Linearizability.History

variable {Op State : Type} [Specification State Op]

/-! ## Replays -/

/-- The state after one more call, if it is accepted. -/
def next? (h : History Op) (s : State) (call : Nat) : Option State := do
  let (c, r) ← h.halves? call
  let effect := Specification.apply s c r
  if effect.accepted then some effect.next else none

theorem next?_eq_some_iff {h : History Op} {s s' : State} {call : Nat} {c r : Op}
    (hh : h.halves? call = some (c, r)) :
    h.next? s call = some s' ↔ (Specification.apply s c r).accepted = true ∧
      (Specification.apply s c r).next = s' := by
  simp [next?, hh]

theorem replay?_cons (h : History Op) (s : State) (call : Nat) (order : List Nat) :
    h.replay? s (call :: order) = (h.next? s call).bind (h.replay? · order) := by
  simp only [replay?, next?]
  cases h.halves? call with
  | none => rfl
  | some ops =>
    simp only [Option.bind_eq_bind, Option.bind_some]
    split <;> rfl

theorem replay?_snoc (h : History Op) (s : State) (path : List Nat) (call : Nat) :
    h.replay? s (path ++ [call]) = (h.replay? s path).bind (h.next? · call) := by
  rw [replay?_append]
  rfl

theorem replay?_cons_isSome {h : History Op} {s : State} {call : Nat} {order : List Nat} :
    (h.replay? s (call :: order)).isSome ↔
      ∃ s', h.next? s call = some s' ∧ (h.replay? s' order).isSome := by
  rw [replay?_cons]
  cases h.next? s call <;> simp

/-! ## Completions -/

structure Completes (h : History Op) (calls : List Nat) (s : State) (order : List Nat) : Prop where
  perm : order.Perm calls
  realTime : order.Pairwise fun a b => ¬ h.Precedes b a
  accepted : (h.replay? s order).isSome

theorem isLinearization_iff {h : History Op} {order : List Nat} :
    h.IsLinearization State order ↔ h.Completes h.callRefs (Specification.init : State) order :=
  ⟨fun ⟨p, r, a⟩ => ⟨p, r, a⟩, fun ⟨p, r, a⟩ => ⟨p, r, a⟩⟩

theorem completes_nil_iff {h : History Op} {s : State} {order : List Nat} :
    h.Completes [] s order ↔ order = [] := by
  constructor
  · exact fun hc => List.perm_nil.mp hc.perm
  · rintro rfl
    exact ⟨.nil, .nil, rfl⟩

theorem completes_cons_iff {h : History Op} {calls : List Nat} {s : State} {call : Nat}
    {order : List Nat} :
    h.Completes calls s (call :: order) ↔
      call ∈ calls ∧ (∀ d ∈ calls.erase call, ¬ h.Precedes d call) ∧
        ∃ s', h.next? s call = some s' ∧ h.Completes (calls.erase call) s' order := by
  constructor
  · rintro ⟨hperm, hrt, hacc⟩
    have hmem : call ∈ calls := hperm.subset (by simp)
    have hperm' : order.Perm (calls.erase call) :=
      (List.cons_perm_iff_perm_erase.mp hperm).2
    obtain ⟨hmin, hrt⟩ := List.pairwise_cons.mp hrt
    obtain ⟨s', hs', hacc⟩ := replay?_cons_isSome.mp hacc
    exact ⟨hmem, fun d hd => hmin d (hperm'.symm.subset hd), s', hs', hperm', hrt, hacc⟩
  · rintro ⟨hmem, hmin, s', hs', hperm, hrt, hacc⟩
    refine ⟨List.cons_perm_iff_perm_erase.mpr ⟨hmem, hperm⟩, ?_, ?_⟩
    · exact List.pairwise_cons.mpr ⟨fun d hd => hmin d (hperm.subset hd), hrt⟩
    · exact replay?_cons_isSome.mpr ⟨s', hs', hacc⟩

/-- Nothing linearizes what is left beside `path` from the state `s` on. -/
def Stuck (h : History Op) (path : List Nat) (s : State) : Prop :=
  ∀ order, ¬ h.Completes (h.left path) s order

section Lawful

variable [LawfulSpecification State]

theorem next?_congr {h : History Op} {s t s' : State} {call : Nat} (hst : (s == t) = true)
    (hs : h.next? s call = some s') : ∃ t', h.next? t call = some t' ∧ (s' == t') = true := by
  cases hh : h.halves? call with
  | none => simp [next?, hh] at hs
  | some ops =>
    obtain ⟨c, r⟩ := ops
    obtain ⟨hacc, rfl⟩ := (next?_eq_some_iff hh).mp hs
    have hacc' : (Specification.apply t c r).accepted = true := by
      rw [← LawfulSpecification.accepted_congr c r hst, hacc]
    exact ⟨_, (next?_eq_some_iff hh).mpr ⟨hacc', rfl⟩,
      LawfulSpecification.next_congr c r hst hacc⟩

theorem replay?_isSome_congr {h : History Op} {s t : State} {order : List Nat}
    (hst : (s == t) = true) (hs : (h.replay? s order).isSome) : (h.replay? t order).isSome := by
  induction order generalizing s t with
  | nil => rfl
  | cons call order ih =>
    obtain ⟨s', hn, hs⟩ := replay?_cons_isSome.mp hs
    obtain ⟨t', ht', hst'⟩ := next?_congr hst hn
    exact replay?_cons_isSome.mpr ⟨t', ht', ih hst' hs⟩

theorem Completes.congr {h : History Op} {calls : List Nat} {s t : State} {order : List Nat}
    (hc : h.Completes calls s order) (hst : (s == t) = true) : h.Completes calls t order :=
  ⟨hc.perm, hc.realTime, replay?_isSome_congr hst hc.accepted⟩

end Lawful

/-! ## Configurations -/

def marks (h : History Op) (path : List Nat) : Bitset :=
  path.foldl (fun b call => b.put (h.idAt call)) (.ofMaxPos h.calls)

def configuration (h : History Op) (path : List Nat) (s : State) : Configuration State :=
  ⟨h.marks path, s⟩

omit [Specification State Op] in
theorem marks_snoc (h : History Op) (path : List Nat) (call : Nat) :
    h.marks (path ++ [call]) = (h.marks path).put (h.idAt call) := by
  simp [marks]

theorem size_marks (h : History Op) (path : List Nat) :
    (h.marks path).blocks.size = Bitset.blockIndex h.calls + 1 := by
  have hfold : ∀ b : Bitset, (path.foldl (fun b call => b.put (h.idAt call)) b).blocks.size =
      b.blocks.size := by
    induction path with
    | nil => exact fun _ => rfl
    | cons call path ih => intro b; rw [List.foldl_cons, ih, Bitset.size_put]
  rw [marks, hfold, Bitset.size_ofMaxPos]

variable [Operation Op] {h : History Op} (hw : h.WellPaired)

include hw

theorem WellPaired.blockIndex_lt {call : Nat} (hc : h.isCallAt call = true) (path : List Nat) :
    Bitset.blockIndex (h.idAt call) < (h.marks path).blocks.size := by
  have hid := hw.idAt_lt_calls hc
  rw [size_marks, Bitset.blockIndex, Bitset.blockIndex]
  omega

theorem IsPath.contains_marks_iff {path : List Nat} (hp : h.IsPath path) {id : Nat} :
    (h.marks path).contains id = true ↔ ∃ call ∈ path, h.idAt call = id := by
  induction hp with
  | nil => simp [marks]
  | @snoc path last _ hf ih =>
    have hlast := (mem_left.mp (front_subset_left hf)).1
    rw [marks_snoc, Bitset.contains_put (hw.blockIndex_lt hlast path), Bool.or_eq_true, ih,
      decide_eq_true_iff]
    simp [or_and_right, exists_or]

theorem IsPath.contains_marks {path : List Nat} (hp : h.IsPath path) {call : Nat}
    (hc : h.isCallAt call = true) : (h.marks path).contains (h.idAt call) = true ↔ call ∈ path := by
  rw [hp.contains_marks_iff hw]
  constructor
  · rintro ⟨c, hmem, he⟩
    rwa [← hw.idAt_inj (hp.isCallAt hmem) hc he]
  · exact fun hmem => ⟨call, hmem, rfl⟩

theorem IsPath.mem_iff_of_marks {path path' : List Nat} (hp : h.IsPath path) (hp' : h.IsPath path')
    (hm : h.marks path = h.marks path') (call : Nat) : call ∈ path ↔ call ∈ path' := by
  constructor
  · intro hc
    have hcall := hp.isCallAt hc
    exact (hp'.contains_marks hw hcall).mp (hm ▸ (hp.contains_marks hw hcall).mpr hc)
  · intro hc
    have hcall := hp'.isCallAt hc
    exact (hp.contains_marks hw hcall).mp (hm ▸ (hp'.contains_marks hw hcall).mpr hc)

theorem IsPath.length_eq_of_marks {path path' : List Nat} (hp : h.IsPath path)
    (hp' : h.IsPath path') (hm : h.marks path = h.marks path') : path.length = path'.length := by
  have hmem := hp.mem_iff_of_marks hw hp' hm
  have hle := (hp.nodup.subperm fun c hc => (hmem c).mp hc).length_le
  have hle' := (hp'.nodup.subperm fun c hc => (hmem c).mpr hc).length_le
  omega

theorem IsPath.stuck_congr [LawfulSpecification State] {path path' : List Nat} {s s' : State}
    (hp : h.IsPath path) (hp' : h.IsPath path')
    (he : (h.configuration path s == h.configuration path' s') = true) (hs : h.Stuck path s) :
    h.Stuck path' s' := by
  obtain ⟨hm, hss⟩ := Configuration.beq_iff.mp he
  intro order hc
  rw [← left_congr (hp.mem_iff_of_marks hw hp' hm)] at hc
  exact hs order (hc.congr (BEq.symm hss))

end Linearizability.History
