import Linearizability.Proofs.Model.Queue
import Linearizability.Proofs.Model.Stack
import Mathlib.Data.List.Induction
import Mathlib.Data.List.Pairwise

/-!
# Sequential runs

Requests are made one after another, and each is recorded with a return that
is claimed for it. Such a history has only one order that keeps to real time.
So it is linearizable exactly when the specification accepts the claims in
this order, and for an object that refines the specification these are its
own answers.
-/

namespace Linearizability

structure Claim (Request Op : Type) where
  request : Request
  ret : Op
  thread : Nat

variable {Object Request Op State : Type} [SharedObject Object Request Op]

def answers (o : Object) : List Request → List Op
  | [] => []
  | request :: requests =>
    let answer := SharedObject.perform o request
    answer.1 :: answers answer.2 requests

namespace Log

variable [Operation Op]

variable (Object) in
def addClaim (log : Log Op) (c : Claim Request Op) : Except Fault (Log Op) :=
  match log.addCall (SharedObject.call Object c.request) c.thread with
  | (.error f, _) => .error f
  | (.ok call, log) =>
    match log.addRet call c.ret c.thread with
    | (.error f, _) => .error f
    | (.ok _, log) => .ok log

variable (Object) in
def addClaims (log : Log Op) (claims : List (Claim Request Op)) : Except Fault (Log Op) :=
  claims.foldlM (addClaim Object) log

end Log

/-! ## The account of a sequential run -/

variable (Object) in
structure Account.Tells (a : Account Op) (claims : List (Claim Request Op)) : Prop where
  valid : a.Valid
  closed : a.Closed
  length : a.contents.length = 2 * claims.length
  order : a.order.map (fun p => (p.op, p.ret)) =
    claims.map fun c => (SharedObject.call Object c.request, c.ret)
  /-- A request is made only after the one before has returned. -/
  sequential : a.order.Pairwise fun p q =>
    ∃ j d, a.contents[j]? = some d ∧ d.call = some p.call ∧ j < q.call

namespace Account

variable (Object) in
def add (a : Account Op) (c : Claim Request Op) : Account Op :=
  let p : Performed Op := ⟨a.contents.length, SharedObject.call Object c.request, c.ret⟩
  ((a.claim ⟨p.op, c.thread, none⟩).perform p).claim ⟨p.ret, c.thread, some p.call⟩

omit [SharedObject Object Request Op] in
theorem Valid.not_returns_length {a : Account Op} (hv : a.Valid) (op : Op) (thread : Nat) :
    ¬ (a.claim ⟨op, thread, none⟩).Returns a.contents.length := by
  rw [returns_claim_iff]
  rintro (⟨d, hd, hcall⟩ | hcall)
  · exact Nat.lt_irrefl _ (hv.orderly.call_lt_length hd hcall)
  · cases hcall

theorem Tells.add {a : Account Op} {claims : List (Claim Request Op)} (ht : a.Tells Object claims)
    (c : Claim Request Op) : (a.add Object c).Tells Object (claims ++ [c]) := by
  let p : Performed Op := ⟨a.contents.length, SharedObject.call Object c.request, c.ret⟩
  let called := a.claim ⟨p.op, c.thread, none⟩
  have hcalled : called.Valid := ht.valid.call _ _
  have hnew : ¬ called.Performs p.call := by
    intro hperforms
    obtain ⟨q, hq, he⟩ := hperforms
    exact Nat.ne_of_lt (ht.valid.call_lt_length hq) he
  have hperformed : (called.perform p).Valid :=
    hcalled.perform (a.getElem?_claim_length _) hnew
  constructor
  case valid =>
    exact hperformed.ret c.thread (List.mem_append_right _ (List.mem_singleton_self p))
      (ht.valid.not_returns_length _ _)
  case closed =>
    intro i d hd hcall
    by_cases hi : i = a.contents.length
    · exact returns_claim_iff.mpr (.inr (congrArg some hi.symm))
    · have hold : a.contents[i]? = some d := by
        by_cases hlast : i = called.contents.length
        · rw [hlast] at hd
          cases hd.symm.trans ((called.perform p).getElem?_claim_length _)
          cases hcall
        · have hkept : called.contents[i]? = some d :=
            (getElem?_claim_ne (a := called.perform p) hlast _).symm.trans hd
          rwa [getElem?_claim_ne hi] at hkept
      exact returns_claim_iff.mpr (.inl (returns_claim_iff.mpr (.inl (ht.closed hold hcall))))
  case length =>
    have hlength := ht.length
    simp only [Account.add, Account.claim, Account.perform, List.length_append,
      List.length_singleton, hlength]
    omega
  case order =>
    show (a.order ++ [p]).map _ = _
    rw [List.map_append, ht.order, List.map_append]
    rfl
  case sequential =>
    refine List.pairwise_append.mpr ⟨?_, List.pairwise_singleton _ _, ?_⟩
    · refine ht.sequential.imp fun {p q} hpq => ?_
      obtain ⟨j, d, hd, hcall, hlt⟩ := hpq
      exact ⟨j, d, getElem?_claim (getElem?_claim hd _) _, hcall, hlt⟩
    · intro q hq q' hq'
      rw [List.mem_singleton.mp hq']
      obtain ⟨thread, hcall⟩ := ht.valid.exists_call hq
      obtain ⟨d, hd, hret⟩ := ht.closed hcall rfl
      obtain ⟨j, hj⟩ := List.mem_iff_getElem?.mp hd
      exact ⟨j, d, getElem?_claim (getElem?_claim hj _) _, hret,
        (List.getElem?_eq_some_iff.mp hj).1⟩

theorem Tells.exists_addClaim [Operation Op] {a : Account Op} {claims : List (Claim Request Op)}
    (ht : a.Tells Object claims) {log : Log Op} (hs : log.Shows a.contents)
    (c : Claim Request Op) (room : 2 * claims.length + 2 ≤ log.capacity) :
    ∃ after, log.addClaim Object c = .ok after ∧ after.capacity = log.capacity ∧
      after.Shows (a.add Object c).contents := by
  have hsize : log.size = 2 * claims.length := hs.size.trans ht.length
  obtain ⟨called, hcall, hcap, hcalled⟩ := hs.exists_addCall ht.valid.orderly (by omega)
    (SharedObject.call Object c.request) c.thread
  have hsize' : called.size = log.size + 1 := by
    rw [hcalled.size, hs.size, List.length_append, List.length_singleton]
  obtain ⟨after, hret, hcap', hafter⟩ := hcalled.exists_addRet (by omega)
    List.getElem?_concat_length rfl
    (fun d hd he => ht.valid.not_returns_length _ c.thread ⟨d, hd, he⟩) c.ret c.thread
  refine ⟨after, ?_, hcap'.trans hcap, hafter⟩
  simp only [Log.addClaim, hcall, hret]

variable (Object) in
theorem exists_addClaims [Operation Op] (claims : List (Claim Request Op)) {capacity : Nat}
    (room : 2 * claims.length ≤ capacity) :
    ∃ (log : Log Op) (a : Account Op), (Log.ofCapacity capacity).addClaims Object claims = .ok log ∧
      log.capacity = capacity ∧ log.Shows a.contents ∧ a.Tells Object claims := by
  induction claims using List.reverseRecOn with
  | nil => exact ⟨_, {}, rfl, rfl, .ofCapacity capacity, .empty, nofun, rfl, rfl, .nil⟩
  | append_singleton claims c ih =>
    rw [List.length_append, List.length_singleton] at room
    obtain ⟨log, a, hlog, hcap, hs, ht⟩ := ih (by omega)
    obtain ⟨after, hadd, hcap', hs'⟩ := ht.exists_addClaim hs c (by omega)
    refine ⟨after, a.add Object c, ?_, hcap'.trans hcap, hs', ht.add c⟩
    rw [Log.addClaims] at hlog
    rw [Log.addClaims, List.foldlM_append, hlog]
    simp only [bind, Except.bind, List.foldlM_cons, List.foldlM_nil, hadd]
    rfl

/-! ## The only order -/

variable [Operation Op] [Specification State Op]

/-- No other order than that of the requests keeps to real time. -/
theorem Tells.eq_of_isLinearization {a : Account Op} {claims : List (Claim Request Op)}
    (ht : a.Tells Object claims) {log : Log Op} (hs : log.Shows a.contents) {order : List Nat}
    (ho : (History.ofLog log).IsLinearization State order) : order = a.order.map (·.call) := by
  let h := History.ofLog log
  have hperm := ho.perm.trans (ht.valid.perm_callRefs ht.closed hs).symm
  have hseq : (a.order.map (·.call)).Pairwise fun b c => h.Precedes b c ∨ h.Precedes c b := by
    rw [List.pairwise_map]
    refine List.Pairwise.imp_of_mem (fun {p q} hp _ hpq => ?_) ht.sequential
    obtain ⟨j, d, hd, hret, hlt⟩ := hpq
    obtain ⟨thread, hc⟩ := ht.valid.exists_call hp
    exact .inl (hs.precedes_of_return hc rfl hd hret hlt)
  refine hperm.eq_of_pairwise ?_ ho.realTime (ht.valid.pairwise_not_precedes hs)
  -- of two different calls one precedes the other
  intro b c hb hc hbc hcb
  by_contra hne
  have : Std.Symm fun b c => h.Precedes b c ∨ h.Precedes c b := ⟨fun _ _ => Or.symm⟩
  exact (hseq.forall (hperm.subset hb) hc hne).elim hcb hbc

omit [Operation Op] in
theorem replay?_isSome_iff {R : Object → State → Prop} (hR : Refines R)
    (hsingle : SingleReturn State) {h : History Op} {order : List (Performed Op)}
    {claims : List (Claim Request Op)}
    (hops : order.map (fun p => (p.op, p.ret)) =
      claims.map fun c => (SharedObject.call Object c.request, c.ret))
    (hhalves : ∀ p ∈ order, h.halves? p.call = some (p.op, p.ret)) {o : Object} {s : State}
    (ho : R o s) :
    (h.replay? s (order.map (·.call))).isSome = true ↔
      claims.map (·.ret) = answers o (claims.map (·.request)) := by
  induction claims generalizing order o s with
  | nil =>
    rw [List.map_eq_nil_iff.mp hops]
    exact iff_of_true rfl rfl
  | cons c claims ih =>
    obtain ⟨p, rest, rfl, hp, hrest⟩ := List.map_eq_cons_iff.mp hops
    obtain ⟨hop, hret⟩ := Prod.mk.injEq .. ▸ hp
    obtain ⟨hacc, hnext⟩ := hR c.request ho
    have hhead := hhalves p List.mem_cons_self
    have htail : ∀ q ∈ rest, h.halves? q.call = some (q.op, q.ret) :=
      fun q hq => hhalves q (List.mem_cons_of_mem p hq)
    rw [List.map_cons, History.replay?_cons_isSome]
    show _ ↔ c.ret :: claims.map (·.ret) = (SharedObject.perform o c.request).1 :: answers _ _
    rw [List.cons.injEq]
    constructor
    · rintro ⟨s', hs', hreplay⟩
      obtain ⟨haccepted, rfl⟩ := (History.next?_eq_some_iff hhead).mp hs'
      rw [hop, hret] at haccepted hreplay
      have heq := hsingle _ _ _ _ haccepted hacc
      rw [heq] at hreplay
      exact ⟨heq, (ih hrest htail hnext).mp hreplay⟩
    · rintro ⟨heq, hanswers⟩
      refine ⟨_, (History.next?_eq_some_iff hhead).mpr ⟨?_, rfl⟩, ?_⟩
      · rw [hop, hret, heq]
        exact hacc
      · rw [hop, hret, heq]
        exact (ih hrest htail hnext).mpr hanswers

theorem Tells.linearizable_iff {R : Object → State → Prop} (hR : Refines R)
    (hsingle : SingleReturn State) {a : Account Op} {claims : List (Claim Request Op)}
    (ht : a.Tells Object claims) {log : Log Op} (hs : log.Shows a.contents) {o : Object}
    (ho : R o Specification.init) :
    (History.ofLog log).Linearizable State ↔
      claims.map (·.ret) = answers o (claims.map (·.request)) := by
  have hanswers := replay?_isSome_iff hR hsingle ht.order
    (fun p hp => ht.valid.halves?_eq ht.closed hs hp) ho
  rw [← hanswers]
  constructor
  · rintro ⟨order, horder⟩
    rw [← ht.eq_of_isLinearization hs horder]
    exact horder.accepted
  · intro haccepted
    exact ⟨_, ht.valid.perm_callRefs ht.closed hs, ht.valid.pairwise_not_precedes hs, haccepted⟩

end Account

/-! ## Verdicts -/

variable [Operation Op] [Specification State Op]

variable (State) in
/-- However requests and claimed returns follow each other, they are recorded without a fault, and
every check without a time limit tells whether the claims are the answers of the object. -/
def ChecksClaims (o : Object) : Prop :=
  ∀ (claims : List (Claim Request Op)) (capacity : Nat), 2 * claims.length ≤ capacity →
    ∃ log h, (Log.ofCapacity capacity).addClaims Object claims = .ok log ∧ log.info = .ok h ∧
      ∀ (config : Config) (clock : Clock), config.validate = .ok () → config.timeout = none →
        ∃ t verdict after, Tester.ofConfig State h config = .ok t ∧
          t.check clock = .ok (.ok verdict, after) ∧
          (verdict = true ↔ claims.map (·.ret) = answers o (claims.map (·.request)))

theorem checksClaims_of_refines [LawfulSpecification State] {R : Object → State → Prop}
    (hR : Refines R) (hsingle : SingleReturn State) {o : Object} (ho : R o Specification.init) :
    ChecksClaims State o := by
  intro claims capacity room
  obtain ⟨log, a, hlog, _, hs, ht⟩ := Account.exists_addClaims Object claims room
  have hcomplete := hs.complete ht.closed
  refine ⟨log, .ofLog log, hlog, History.info_eq_ofLog hcomplete, ?_⟩
  intro config clock hvalid htime
  obtain ⟨t, verdict, after, hof, hcheck, hverdict⟩ :=
    (History.wellPaired_ofLog hcomplete).exists_check State hvalid htime clock
  exact ⟨t, verdict, after, hof, hcheck,
    hverdict.trans (ht.linearizable_iff hR hsingle hs ho)⟩

/-- A sequential run passes on a bounded stack or queue exactly when every return is the one that
the shared container gives at that point. -/
theorem bounded_checksClaims (capacity : Nat) :
    ChecksClaims (Stack capacity) (BoundedStack.ofCapacity capacity) ∧
    ChecksClaims (Queue capacity) (BoundedQueue.ofCapacity capacity) :=
  ⟨checksClaims_of_refines (BoundedStack.refines capacity) (Stack.singleReturn capacity)
      (BoundedStack.shows_ofCapacity capacity),
    checksClaims_of_refines (BoundedQueue.refines capacity) (Queue.singleReturn capacity)
      (BoundedQueue.shows_ofCapacity capacity)⟩

theorem ChecksClaims.exists_verdict [DecidableEq Op] {o : Object} (hc : ChecksClaims State o)
    (claims : List (Claim Request Op)) :
    ∃ log h t after, (Log.ofCapacity (2 * claims.length)).addClaims Object claims = .ok log ∧
      log.info = .ok h ∧ Tester.ofConfig State h {} = .ok t ∧
      t.check .frozen =
        .ok (.ok (decide (claims.map (·.ret) = answers o (claims.map (·.request)))), after) := by
  obtain ⟨log, h, hlog, hinfo, hchecks⟩ := hc claims _ (Nat.le_refl _)
  obtain ⟨t, verdict, after, ht, hcheck, hverdict⟩ := hchecks {} .frozen rfl rfl
  have hdecided : verdict =
      decide (claims.map (·.ret) = answers o (claims.map (·.request))) := by
    rw [Bool.eq_iff_iff, decide_eq_true_iff, hverdict]
  exact ⟨log, h, t, after, hlog, hinfo, ht, hdecided ▸ hcheck⟩

def stackClaims (last : Option UInt8) : List (Claim BoundedStack.Request Stack.Op) :=
  [⟨.push 1, .pushRet true, 0⟩, ⟨.push 2, .pushRet false, 0⟩, ⟨.pop, .popRet (some 1), 0⟩,
    ⟨.pop, .popRet last, 0⟩]

def queueClaims (last : Option UInt8) : List (Claim BoundedQueue.Request Queue.Op) :=
  [⟨.enqueue 1, .enqueueRet true, 0⟩, ⟨.enqueue 2, .enqueueRet false, 0⟩,
    ⟨.dequeue, .dequeueRet (some 1), 0⟩, ⟨.dequeue, .dequeueRet last, 0⟩]

/-- The last request finds the container empty: nothing else may be claimed of it. -/
theorem bounded_checksClaims_fullThenEmpty :
    (∃ log h t after, (Log.ofCapacity 8).addClaims BoundedStack (stackClaims none) = .ok log ∧
      log.info = .ok h ∧ Tester.ofConfig (Stack 1) h {} = .ok t ∧
      t.check .frozen = .ok (.ok true, after)) ∧
    (∃ log h t after, (Log.ofCapacity 8).addClaims BoundedStack (stackClaims (some 2)) = .ok log ∧
      log.info = .ok h ∧ Tester.ofConfig (Stack 1) h {} = .ok t ∧
      t.check .frozen = .ok (.ok false, after)) ∧
    (∃ log h t after, (Log.ofCapacity 8).addClaims BoundedQueue (queueClaims none) = .ok log ∧
      log.info = .ok h ∧ Tester.ofConfig (Queue 1) h {} = .ok t ∧
      t.check .frozen = .ok (.ok true, after)) ∧
    ∃ log h t after, (Log.ofCapacity 8).addClaims BoundedQueue (queueClaims (some 2)) = .ok log ∧
      log.info = .ok h ∧ Tester.ofConfig (Queue 1) h {} = .ok t ∧
      t.check .frozen = .ok (.ok false, after) := by
  obtain ⟨hstack, hqueue⟩ := bounded_checksClaims 1
  exact ⟨hstack.exists_verdict (stackClaims none), hstack.exists_verdict (stackClaims (some 2)),
    hqueue.exists_verdict (queueClaims none), hqueue.exists_verdict (queueClaims (some 2))⟩

end Linearizability
