import Linearizability.Proofs.History.Assembly
import Linearizability.Proofs.Search.Completion

/-!
# Accounts

An account of a recording tells the contents of the slots that were claimed
and the requests that were performed, in order. A request is performed once,
after its call has claimed a slot, and its return claims one after that. So
the order of the performed requests keeps to real time, and when every call
has its return it is an order of all calls.
-/

namespace Linearizability

/-- A request that was performed: its call, by slot and by content, and its answer. -/
structure Performed (Op : Type) where
  call : Nat
  op : Op
  ret : Op

/-- The contents of the slots are those that were written or are still to be written. -/
structure Account (Op : Type) where
  contents : List (Slot Op) := []
  order : List (Performed Op) := []

namespace Account

variable {Op : Type}

def Performs (a : Account Op) (call : Nat) : Prop := ∃ p ∈ a.order, p.call = call

def Returns (a : Account Op) (call : Nat) : Prop := ∃ c ∈ a.contents, c.call = some call

def Closed (a : Account Op) : Prop :=
  ∀ {i : Nat} {c : Slot Op}, a.contents[i]? = some c → c.call = none → a.Returns i

def claim (a : Account Op) (c : Slot Op) : Account Op := { a with contents := a.contents ++ [c] }

def perform (a : Account Op) (p : Performed Op) : Account Op := { a with order := a.order ++ [p] }

theorem getElem?_claim {a : Account Op} {i : Nat} {d : Slot Op} (hd : a.contents[i]? = some d)
    (c : Slot Op) : (a.claim c).contents[i]? = some d := by
  rw [claim, List.getElem?_append_left (List.getElem?_eq_some_iff.mp hd).1, hd]

theorem getElem?_claim_length (a : Account Op) (c : Slot Op) :
    (a.claim c).contents[a.contents.length]? = some c :=
  List.getElem?_concat_length

theorem getElem?_claim_ne {a : Account Op} {i : Nat} (hi : i ≠ a.contents.length) (c : Slot Op) :
    (a.claim c).contents[i]? = a.contents[i]? := by
  rw [claim, getElem?_snoc, if_neg hi]
  by_cases hlt : i < a.contents.length
  · rw [if_pos hlt]
  · rw [if_neg hlt, List.getElem?_eq_none (Nat.not_lt.mp hlt)]

theorem returns_claim_iff {a : Account Op} {c : Slot Op} {call : Nat} :
    (a.claim c).Returns call ↔ a.Returns call ∨ c.call = some call := by
  simp [Returns, claim, or_and_right, exists_or]

theorem performs_perform_iff {a : Account Op} {p : Performed Op} {call : Nat} :
    (a.perform p).Performs call ↔ a.Performs call ∨ p.call = call := by
  simp [Performs, perform, or_and_right, exists_or]

def calls (a : Account Op) (thread : Nat) : List Op :=
  callsOf thread (a.contents.map Slot.written)

theorem calls_claim (a : Account Op) (c : Slot Op) (thread : Nat) :
    (a.claim c).calls thread = a.calls thread ++ callsOf thread [c.written] := by
  rw [calls, claim, List.map_append, callsOf_append]
  rfl

/-! ## Valid accounts -/

inductive Valid : Account Op → Prop where
  | empty : Valid {}
  | call {a : Account Op} (op : Op) (thread : Nat) : Valid a → Valid (a.claim ⟨op, thread, none⟩)
  | perform {a : Account Op} {p : Performed Op} {thread : Nat} : Valid a →
    a.contents[p.call]? = some ⟨p.op, thread, none⟩ → ¬ a.Performs p.call → Valid (a.perform p)
  | ret {a : Account Op} {p : Performed Op} (thread : Nat) : Valid a → p ∈ a.order →
    ¬ a.Returns p.call → Valid (a.claim ⟨p.ret, thread, some p.call⟩)

namespace Valid

variable {a : Account Op} (hv : a.Valid)

include hv

theorem exists_call {p : Performed Op} (hp : p ∈ a.order) :
    ∃ thread, a.contents[p.call]? = some ⟨p.op, thread, none⟩ := by
  induction hv with
  | empty => cases hp
  | call op thread _ ih =>
    obtain ⟨t, ht⟩ := ih hp
    exact ⟨t, getElem?_claim ht _⟩
  | @perform a q t _ hcall _ ih =>
    rcases List.mem_append.mp hp with hp | hp
    · exact ih hp
    · rw [List.mem_singleton.mp hp]
      exact ⟨t, hcall⟩
  | ret thread _ _ _ ih =>
    obtain ⟨t, ht⟩ := ih hp
    exact ⟨t, getElem?_claim ht _⟩

theorem call_lt_length {p : Performed Op} (hp : p ∈ a.order) : p.call < a.contents.length := by
  obtain ⟨_, hcall⟩ := hv.exists_call hp
  exact (List.getElem?_eq_some_iff.mp hcall).1

theorem exists_performed {c : Slot Op} (hc : c ∈ a.contents) {call : Nat}
    (hcall : c.call = some call) : ∃ p ∈ a.order, p.call = call ∧ p.ret = c.op := by
  induction hv with
  | empty => cases hc
  | call op thread _ ih =>
    rcases List.mem_append.mp hc with hc | hc
    · exact ih hc
    · rw [List.mem_singleton.mp hc] at hcall
      cases hcall
  | perform _ _ _ ih =>
    obtain ⟨p, hp, he⟩ := ih hc
    exact ⟨p, List.mem_append_left _ hp, he⟩
  | @ret a p thread _ hp _ ih =>
    rcases List.mem_append.mp hc with hc | hc
    · exact ih hc
    · rw [List.mem_singleton.mp hc] at hcall ⊢
      exact ⟨p, hp, Option.some.inj hcall, rfl⟩

theorem orderly : Orderly a.contents := by
  induction hv with
  | empty => exact .nil
  | call op thread _ ih => exact ih.call op thread
  | perform _ _ _ ih => exact ih
  | ret thread hv hp hnew ih =>
    obtain ⟨_, hcall⟩ := hv.exists_call hp
    exact ih.ret _ thread hcall rfl fun d hd he => hnew ⟨d, hd, he⟩

theorem nodup : (a.order.map (·.call)).Nodup := by
  induction hv with
  | empty => exact List.nodup_nil
  | call _ _ _ ih => exact ih
  | perform _ _ hnew ih =>
    rw [Account.perform, List.map_append, List.map_singleton]
    refine List.Nodup.append ih (List.nodup_singleton _) ?_
    rw [List.disjoint_singleton]
    intro hmem
    obtain ⟨p, hp, he⟩ := List.mem_map.mp hmem
    exact hnew ⟨p, hp, he⟩
  | ret _ _ _ _ ih => exact ih

theorem performed_inj {p q : Performed Op} (hp : p ∈ a.order) (hq : q ∈ a.order)
    (he : p.call = q.call) : p = q :=
  List.inj_on_of_nodup_map hv.nodup hp hq he

/-- A request is not performed after another one whose call came only after its return. -/
theorem realTime : a.order.Pairwise fun p q =>
    ∀ {j : Nat} {c : Slot Op}, a.contents[j]? = some c → c.call = some q.call → p.call ≤ j := by
  induction hv with
  | empty => exact .nil
  | @call a op thread _ ih =>
    refine ih.imp fun {p q} hpq {j c} hc hcall => ?_
    rw [claim, getElem?_snoc] at hc
    split at hc
    · exact hpq hc hcall
    · split at hc
      · cases hc
        cases hcall
      · cases hc
  | @perform a p thread hv _ hnew ih =>
    refine List.pairwise_append.mpr ⟨ih, List.pairwise_singleton _ _, ?_⟩
    intro q _ p' hp' j c hc hcall
    -- the request has no return yet
    rw [List.mem_singleton.mp hp'] at hcall
    obtain ⟨r, hr, he, _⟩ := hv.exists_performed (List.mem_of_getElem? hc) hcall
    exact absurd ⟨r, hr, he⟩ hnew
  | @ret a r thread hv _ _ ih =>
    refine List.Pairwise.imp_of_mem (fun {p q} hp _ hpq {j c} hc hcall => ?_) ih
    rw [claim, getElem?_snoc] at hc
    split at hc
    · exact hpq hc hcall
    · split at hc
      · rename_i hj
        rw [hj]
        exact Nat.le_of_lt (hv.call_lt_length hp)
      · cases hc

end Valid

/-! ## Linearizations -/

variable {State : Type} [Specification State Op]

inductive Leads : List (Performed Op) → State → Prop where
  | nil : Leads [] Specification.init
  | snoc {order : List (Performed Op)} {s : State} {p : Performed Op} : Leads order s →
    (Specification.apply s p.op p.ret).accepted = true →
    Leads (order ++ [p]) (Specification.apply s p.op p.ret).next

theorem Leads.replay? {h : History Op} {order : List (Performed Op)} {s : State}
    (hl : Leads order s) (hh : ∀ p ∈ order, h.halves? p.call = some (p.op, p.ret)) :
    h.replay? (Specification.init : State) (order.map (·.call)) = some s := by
  induction hl with
  | nil => rfl
  | @snoc order s p _ hacc ih =>
    have hp := hh p (List.mem_append_right _ (List.mem_singleton_self p))
    rw [List.map_append, List.map_singleton, History.replay?_snoc,
      ih fun q hq => hh q (List.mem_append_left _ hq)]
    exact (History.next?_eq_some_iff hp).mpr ⟨hacc, rfl⟩

variable [Operation Op]

theorem Valid.halves?_eq {a : Account Op} (hv : a.Valid) (hclosed : a.Closed) {log : Log Op}
    (hs : log.Shows a.contents) {p : Performed Op} (hp : p ∈ a.order) :
    (History.ofLog log).halves? p.call = some (p.op, p.ret) := by
  obtain ⟨thread, hcall⟩ := hv.exists_call hp
  obtain ⟨d, hd, hdcall, hhalves⟩ := hs.exists_halves? hcall rfl (hclosed hcall rfl)
  obtain ⟨q, hq, hqcall, hqret⟩ := hv.exists_performed hd hdcall
  rw [hhalves, ← hqret, hv.performed_inj hq hp hqcall]

theorem Valid.perm_callRefs {a : Account Op} (hv : a.Valid) (hclosed : a.Closed) {log : Log Op}
    (hs : log.Shows a.contents) :
    (a.order.map (·.call)).Perm (History.ofLog log).callRefs := by
  have hw := History.wellPaired_ofLog (hs.complete hclosed)
  rw [List.perm_ext_iff_of_nodup hv.nodup hw.nodup_callRefs]
  intro call
  rw [hw.mem_callRefs, hs.isCallAt_iff, List.mem_map]
  constructor
  · rintro ⟨p, hp, rfl⟩
    obtain ⟨thread, hcall⟩ := hv.exists_call hp
    exact ⟨_, hcall, rfl⟩
  · rintro ⟨c, hc, hcall⟩
    obtain ⟨d, hd, hdcall⟩ := hclosed hc hcall
    obtain ⟨p, hp, hpcall, _⟩ := hv.exists_performed hd hdcall
    exact ⟨p, hp, hpcall⟩

theorem Valid.pairwise_not_precedes {a : Account Op} (hv : a.Valid) {log : Log Op}
    (hs : log.Shows a.contents) :
    (a.order.map (·.call)).Pairwise fun b c => ¬ (History.ofLog log).Precedes c b := by
  rw [List.pairwise_map]
  refine List.Pairwise.imp_of_mem (fun {p q} _ hq hpq hprec => ?_) hv.realTime
  obtain ⟨thread, hcall⟩ := hv.exists_call hq
  obtain ⟨j, d, hd, hdcall, hlt⟩ := hs.exists_return_of_precedes hcall rfl hprec
  exact absurd (hpq hd hdcall) (Nat.not_le.mpr hlt)

/-- The requests of a closed account were performed in the order of a linearization. -/
theorem Valid.isLinearization {a : Account Op} (hv : a.Valid) (hclosed : a.Closed) {log : Log Op}
    (hs : log.Shows a.contents) {s : State} (hl : Leads a.order s) :
    (History.ofLog log).IsLinearization State (a.order.map (·.call)) := by
  refine ⟨hv.perm_callRefs hclosed hs, hv.pairwise_not_precedes hs, ?_⟩
  rw [hl.replay? fun p hp => hv.halves?_eq hclosed hs hp]
  rfl

end Account

end Linearizability
