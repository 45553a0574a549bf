import Linearizability.Experiment.Container
import Linearizability.Proofs.Search.Verdict

/-!
# Pending operations of a register

A pending return stands for a call that was in flight when the recording
stopped, which may have taken effect or not. The specification never leaves
such a call out. As long as the pending returns were recorded behind all
calls that makes no difference: a pending call precedes no other one, and
one that had no effect may as well take it after all the others.
-/

namespace Linearizability

namespace Register

instance : LawfulSpecification Register := .of_lawfulBEq

/-! ## Requests and returns -/

def Op.isPending : Op → Bool
  | .readPending | .writePending | .casPending => true
  | _ => false

def Op.answers : Op → SharedCell.Request → Bool
  | .readRet _, .read | .readPending, .read => true
  | .writeRet, .write _ | .writePending, .write _ => true
  | .casRet _, .cas _ _ | .casPending, .cas _ _ => true
  | _, _ => false

theorem call_injective : Function.Injective (SharedObject.call SharedCell) := by
  intro a b hab
  cases a <;> cases b <;> cases hab <;> rfl

/-- The specification goes on as the cell does, and of the completed returns it accepts the one that
the cell gives. -/
theorem apply_spec (s : Register) {request : SharedCell.Request} {ret : Op}
    (hret : ret.answers request = true) :
    let answer := SharedObject.perform (⟨s.value⟩ : SharedCell) request
    let effect := Specification.apply s (SharedObject.call SharedCell request) ret
    (effect.accepted = true ↔ (ret.isPending = false → answer.1 = ret)) ∧
      effect.next.value = answer.2.value := by
  simp only [SharedObject.perform, SharedObject.call, Specification.apply]
  cases request with
  | read =>
    cases ret with
    | readRet v => simp [apply, Op.isPending]
    | readPending => simp [apply, Op.isPending]
    | _ => cases hret
  | write v =>
    cases ret with
    | writeRet => simp [apply, Op.isPending, set]
    | writePending => simp [apply, Op.isPending, set]
    | _ => cases hret
  | cas current new =>
    cases ret with
    | casRet swapped =>
      by_cases hv : s.value = current <;>
        cases swapped <;> simp [apply, Op.isPending, SharedCell.compareAndSwap, set, hv]
    | casPending =>
      by_cases hv : s.value = current <;>
        simp [apply, Op.isPending, SharedCell.compareAndSwap, set, hv]
    | _ => cases hret

/-! ## Histories that were cut off -/

/-- Every call is answered by a return of its kind, and the pending returns come behind all calls. -/
structure CutOff (h : History Op) : Prop where
  answered : ∀ {call : Nat}, h.isCallAt call = true → ∃ request ret,
    h.halves? call = some (SharedObject.call SharedCell request, ret) ∧ ret.answers request = true
  late : ∀ {i : Nat} {e : Entry Op}, h.entries[i]? = some e → e.op.isPending = true →
    ∀ {call : Nat}, h.isCallAt call = true → call < i

def Pending (h : History Op) (call : Nat) : Prop :=
  ∃ op ret, h.halves? call = some (op, ret) ∧ ret.isPending = true

/-- A cell performs the requests of these calls one after another. The answer to a completed call is
the return that was recorded. -/
inductive Plays (h : History Op) : SharedCell → List Nat → Prop where
  | nil (cell : SharedCell) : Plays h cell []
  | cons {cell : SharedCell} {call : Nat} {order : List Nat} {request : SharedCell.Request}
    {ret : Op} : h.halves? call = some (SharedObject.call SharedCell request, ret) →
    (ret.isPending = false → (SharedObject.perform cell request).1 = ret) →
    Plays h (SharedObject.perform cell request).2 order → Plays h cell (call :: order)

/-- An order of all completed calls and of some pending ones, in which a cell performs them. -/
structure IsPartialLinearization (h : History Op) (order : List Nat) : Prop where
  nodup : order.Nodup
  isCall : ∀ call ∈ order, h.isCallAt call = true
  completed : ∀ call, h.isCallAt call = true → ¬ Pending h call → call ∈ order
  realTime : order.Pairwise fun a b => ¬ Pending h b → ¬ h.Precedes b a
  plays : Plays h ⟨-1⟩ order

def leftOut (h : History Op) (order : List Nat) : List Nat := h.callRefs.filter (· ∉ order)

section

variable {h : History Op}

theorem Plays.append {cell : SharedCell} {order rest : List Nat} (hp : Plays h cell order)
    (hrest : ∀ cell, Plays h cell rest) : Plays h cell (order ++ rest) := by
  induction hp with
  | nil cell => exact hrest cell
  | cons hh hret _ ih => exact .cons hh hret ih

theorem CutOff.plays_pending (hcut : CutOff h) {order : List Nat}
    (hpending : ∀ call ∈ order, h.isCallAt call = true ∧ Pending h call) (cell : SharedCell) :
    Plays h cell order := by
  induction order generalizing cell with
  | nil => exact .nil cell
  | cons call order ih =>
    obtain ⟨hcall, op, ret, hh, hret⟩ := hpending call (List.mem_cons_self ..)
    obtain ⟨request, ret', hh', _⟩ := hcut.answered hcall
    rw [hh'] at hh
    cases hh
    refine .cons hh' (fun hnot => ?_) (ih (fun c hc => hpending c (List.mem_cons_of_mem _ hc)) _)
    rw [hret] at hnot
    cases hnot

theorem CutOff.not_precedes (hcut : CutOff h) {a b : Nat} (ha : h.isCallAt a = true)
    (hb : Pending h b) : ¬ h.Precedes b a := by
  rintro ⟨c, r, hc, hr, hlt⟩
  obtain ⟨op, ret, hh, hret⟩ := hb
  simp only [History.halves?, hc, hr, Option.bind_eq_bind, Option.bind_some,
    Option.bind_eq_some_iff] at hh
  obtain ⟨e, he, hh⟩ := hh
  cases hh
  exact absurd (hcut.late he hret ha) (by omega)

theorem CutOff.plays_iff (hcut : CutOff h) {order : List Nat}
    (hcalls : ∀ call ∈ order, h.isCallAt call = true) (s : Register) :
    Plays h ⟨s.value⟩ order ↔ (h.replay? s order).isSome := by
  induction order generalizing s with
  | nil => exact ⟨fun _ => rfl, fun _ => .nil _⟩
  | cons call order ih =>
    have ih := fun s => ih (fun c hc => hcalls c (List.mem_cons_of_mem _ hc)) s
    obtain ⟨request, ret, hh, hret⟩ := hcut.answered (hcalls call (List.mem_cons_self ..))
    obtain ⟨hacc, hnext⟩ := apply_spec s hret
    rw [History.replay?_cons_isSome]
    constructor
    · intro hp
      cases hp with
      | cons hh' hret' hp =>
        rw [hh] at hh'
        obtain ⟨hreq, hr⟩ := Prod.mk.inj (Option.some.inj hh')
        cases call_injective hreq
        cases hr
        refine ⟨_, (History.next?_eq_some_iff hh).mpr ⟨hacc.mpr hret', rfl⟩, (ih _).mp ?_⟩
        rw [hnext]
        exact hp
    · rintro ⟨s', hn, hs'⟩
      obtain ⟨ha, rfl⟩ := (History.next?_eq_some_iff hh).mp hn
      refine .cons hh (hacc.mp ha) ?_
      have hp := (ih _).mpr hs'
      rwa [hnext] at hp

variable (hw : h.WellPaired)

include hw

theorem mem_leftOut {order : List Nat} {call : Nat} :
    call ∈ leftOut h order ↔ h.isCallAt call = true ∧ call ∉ order := by
  simp [leftOut, hw.mem_callRefs]

theorem append_leftOut_perm {order : List Nat} (hnodup : order.Nodup)
    (hcalls : ∀ call ∈ order, h.isCallAt call = true) :
    (order ++ leftOut h order).Perm h.callRefs := by
  have hnodup : (order ++ leftOut h order).Nodup :=
    hnodup.append (hw.nodup_callRefs.filter _) fun call ho hr => ((mem_leftOut hw).mp hr).2 ho
  rw [List.perm_ext_iff_of_nodup hnodup hw.nodup_callRefs]
  intro call
  rw [hw.mem_callRefs, List.mem_append, mem_leftOut hw]
  constructor
  · rintro (ho | ⟨hcall, _⟩)
    · exact hcalls call ho
    · exact hcall
  · intro hcall
    by_cases ho : call ∈ order
    · exact .inl ho
    · exact .inr ⟨hcall, ho⟩

theorem IsPartialLinearization.isLinearization {order : List Nat}
    (hp : IsPartialLinearization h order) (hcut : CutOff h) :
    h.IsLinearization Register (order ++ leftOut h order) := by
  have hperm := append_leftOut_perm hw hp.nodup hp.isCall
  have hcalls : ∀ call ∈ order ++ leftOut h order, h.isCallAt call = true :=
    fun call hcall => hw.mem_callRefs.mp (hperm.mem_iff.mp hcall)
  have hpending : ∀ call ∈ leftOut h order, h.isCallAt call = true ∧ Pending h call := by
    intro call hcall
    obtain ⟨hcall, hnot⟩ := (mem_leftOut hw).mp hcall
    exact ⟨hcall, by_contra fun hp' => hnot (hp.completed call hcall hp')⟩
  have hplays : Plays h ⟨-1⟩ (order ++ leftOut h order) :=
    hp.plays.append (hcut.plays_pending hpending)
  -- what is pending precedes nothing
  have hlast : ∀ a ∈ order ++ leftOut h order, ∀ b, Pending h b → ¬ h.Precedes b a :=
    fun a ha b hb => hcut.not_precedes (hcalls a ha) hb
  refine ⟨hperm, ?_, (hcut.plays_iff hcalls Specification.init).mp hplays⟩
  rw [List.pairwise_append]
  refine ⟨?_, List.pairwise_of_forall_mem_list ?_, ?_⟩
  · refine hp.realTime.imp_of_mem fun {a b} ha _ hab hprec => ?_
    exact hab (fun hb => hlast a (List.mem_append_left _ ha) b hb hprec) hprec
  · exact fun a ha b hb => hlast a (List.mem_append_right _ ha) b (hpending b hb).2
  · exact fun a ha b hb => hlast a (List.mem_append_left _ ha) b (hpending b hb).2

theorem isPartialLinearization_of_isLinearization {order : List Nat}
    (hl : h.IsLinearization Register order) (hcut : CutOff h) : IsPartialLinearization h order := by
  have hmem : ∀ call, call ∈ order ↔ h.isCallAt call = true := fun call => by
    rw [hl.perm.mem_iff, hw.mem_callRefs]
  have hcalls : ∀ call ∈ order, h.isCallAt call = true := fun call => (hmem call).mp
  have hreal : order.Pairwise fun a b => ¬ Pending h b → ¬ h.Precedes b a := by
    refine hl.realTime.imp ?_
    intro a b hab _
    exact hab
  exact {
    nodup := hl.perm.nodup_iff.mpr hw.nodup_callRefs
    isCall := hcalls
    completed := fun call hcall _ => (hmem call).mpr hcall
    realTime := hreal
    plays := (hcut.plays_iff hcalls Specification.init).mpr hl.accepted }

theorem linearizable_iff_partial (hcut : CutOff h) :
    h.Linearizable Register ↔ ∃ order, IsPartialLinearization h order := by
  constructor
  · rintro ⟨order, hl⟩
    exact ⟨order, isPartialLinearization_of_isLinearization hw hl hcut⟩
  · rintro ⟨order, hp⟩
    exact ⟨_, hp.isLinearization hw hcut⟩

end

end Register

namespace Tester

/-- The verdict on a history that was cut off tells whether its completed operations and some of its
pending ones have an order in which a cell of initially -1 performs them. -/
theorem check_pending {t : Tester Register Register.Op} (hc : t.history.Complete)
    (hcut : Register.CutOff t.history) (hcap : 0 < t.config.lruCapacity)
    (htime : t.config.timeout = none) (clock : Clock) :
    ∃ verdict after, t.check clock = .ok (.ok verdict, after) ∧
      (verdict = true ↔ ∃ order, Register.IsPartialLinearization t.history order) := by
  have hw := hc.wellPaired
  rw [← Register.linearizable_iff_partial hw hcut]
  exact exists_check hw (UInt64.ne_of_lt hcap).symm htime clock

def pendingSwap : Log Register.Op :=
  let log := (Log.ofCapacity 6).addCall (.cas (-1) 3) 0 |>.2
  let log := log.addCall (.write 5) 1 |>.2
  let log := log.addCall .read 2 |>.2
  let log := log.addRet 2 (.readRet 3) 2 |>.2
  let log := log.addRet 0 .casPending 0 |>.2
  log.addRet 1 .writePending 1 |>.2

theorem pendingSwap_complete : pendingSwap.Complete where
  recorded := by
    refine .addRet_of_isOk (.addRet_of_isOk (.addRet_of_isOk (.addCall_of_isOk (.addCall_of_isOk
      (.addCall_of_isOk (.ofCapacity 6) ?_) ?_) ?_) ?_) ?_) ?_
    all_goals decide +kernel
  matched := by decide +kernel

theorem pendingSwap_cutOff : Register.CutOff (History.ofLog pendingSwap) where
  answered {call} hcall := by
    have hlt : call < 6 := History.WellPaired.lt_size_of_isCallAt hcall
    match call with
    | 0 => exact ⟨.cas (-1) 3, .casPending, rfl, rfl⟩
    | 1 => exact ⟨.write 5, .writePending, rfl, rfl⟩
    | 2 => exact ⟨.read, .readRet 3, rfl, rfl⟩
    | 3 | 4 | 5 => cases hcall
  late {i e} he hpending {call} hcall := by
    have hlt : call < 6 := History.WellPaired.lt_size_of_isCallAt hcall
    have hi : i < 6 := (Array.getElem?_eq_some_iff.mp he).1
    have hcalls : ∀ call < 6, (History.ofLog pendingSwap).isCallAt call = true → call < 3 := by decide
    have hrets : ∀ i < 6, ((History.ofLog pendingSwap).entries[i]?.any (·.op.isPending)) = true →
        3 < i := by decide
    have := hcalls call hlt hcall
    have := hrets i hi (by rw [he]; exact hpending)
    omega

theorem check_pending_pendingSwap :
    (History.ofLog pendingSwap).Complete ∧ Register.CutOff (History.ofLog pendingSwap) ∧
    ∃ verdict after, (⟨History.ofLog pendingSwap, {}, {}⟩ : Tester Register Register.Op).check
      .frozen = .ok (.ok verdict, after) ∧
      (verdict = true ↔
        ∃ order, Register.IsPartialLinearization (History.ofLog pendingSwap) order) :=
  have hc := History.complete_ofLog pendingSwap_complete
  ⟨hc, pendingSwap_cutOff, check_pending hc pendingSwap_cutOff (by decide) rfl .frozen⟩

end Tester

end Linearizability
