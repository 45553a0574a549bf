import Linearizability.Model.ByteSet
import Linearizability.Proofs.History.Finalization

/-!
# Producers

Any number of producers push to one recorder. A push begins, claims a slot
or finds the recorder full, and then writes the slot it has claimed; steps
of different pushes come in any order. The pushes claim in one order, and
each gets the slot of its number in that order. So a slot belongs to one
push, and a push that is over comes before all that have not begun.
-/

namespace Linearizability

inductive Stage where
  | begun
  /-- The slot that was claimed is still to be written. -/
  | claimed (slot : Nat)
  | done (slot : Nat)
  | failed (fault : Fault)
  deriving DecidableEq, Repr

def Stage.isOver : Stage → Bool
  | .begun | .claimed _ => false
  | .done _ | .failed _ => true

/-- The stage of the push that was the `i`-th to claim a slot. -/
inductive Stage.Got (capacity i : Nat) : Stage → Prop where
  | claimed : i < capacity → Got capacity i (.claimed i)
  | done : i < capacity → Got capacity i (.done i)
  | failed : capacity ≤ i → Got capacity i (.failed (.recorderFull capacity))

structure Push (Op : Type) where
  content : Slot Op
  stage : Stage := .begun
  deriving Repr

structure Producers (Op : Type) where
  recorder : Recorder Op
  pushes : List (Push Op) := []

namespace Producers

inductive Event (Op : Type) where
  /-- A producer begins to push. Its thread stands in the content. -/
  | begin (content : Slot Op)
  /-- The next step of a push, if there is one. -/
  | advance (push : Nat)
  deriving Repr

variable {Op : Type}

def start (capacity : Nat) : Producers Op := { recorder := .ofCapacity capacity }

def step : Producers Op → Event Op → Producers Op
  | ⟨recorder, pushes⟩, .begin content => ⟨recorder, pushes ++ [⟨content, .begun⟩]⟩
  | ⟨recorder, pushes⟩, .advance k =>
    match pushes[k]? with
    | some ⟨content, .begun⟩ =>
      match recorder.claim with
      | (.error f, recorder) => ⟨recorder, pushes.set k ⟨content, .failed f⟩⟩
      | (.ok slot, recorder) => ⟨recorder, pushes.set k ⟨content, .claimed slot⟩⟩
    | some ⟨content, .claimed slot⟩ =>
      ⟨recorder.write slot content, pushes.set k ⟨content, .done slot⟩⟩
    | _ => ⟨recorder, pushes⟩

def run (s : Producers Op) (events : List (Event Op)) : Producers Op := events.foldl step s

def isFinished (s : Producers Op) : Bool := s.pushes.all (·.stage.isOver)

/-- The steps of a push, one right after another, are those of a push from one thread. -/
theorem run_push (s : Producers Op) (c : Slot Op) :
    s.run [.begin c, .advance s.pushes.length, .advance s.pushes.length] =
      match s.recorder.push c with
      | (.ok slot, recorder) => ⟨recorder, s.pushes ++ [⟨c, .done slot⟩]⟩
      | (.error f, recorder) => ⟨recorder, s.pushes ++ [⟨c, .failed f⟩]⟩ := by
  obtain ⟨recorder, pushes⟩ := s
  cases hclaim : recorder.claim with
  | mk result next =>
    cases result <;> simp [run, step, Recorder.push, hclaim]

/-! ## The order of the claims -/

/-- The pushes have claimed slots in the order `claims`. -/
structure InOrder (s : Producers Op) (capacity : Nat) (claims : List Nat) : Prop where
  recording : s.recorder.log = none
  capacity_eq : s.recorder.slots.size = capacity
  index : s.recorder.index = claims.length
  nodup : claims.Nodup
  bound : ∀ k ∈ claims, k < s.pushes.length
  stage : ∀ {k : Nat} {p : Push Op}, s.pushes[k]? = some p →
    (p.stage = .begun ∧ k ∉ claims) ∨ ∃ i, claims[i]? = some k ∧ Stage.Got capacity i p.stage
  written : ∀ {k i : Nat} {p : Push Op}, s.pushes[k]? = some p → p.stage = .done i →
    s.recorder.slots[i]? = some (some p.content)
  blank : ∀ {i : Nat}, i < capacity →
    (∀ {k : Nat} {p : Push Op}, s.pushes[k]? = some p → p.stage ≠ .done i) →
    s.recorder.slots[i]? = some none

theorem inOrder_start (capacity : Nat) : (start capacity : Producers Op).InOrder capacity [] where
  recording := rfl
  capacity_eq := Array.size_replicate
  index := rfl
  nodup := .nil
  bound := nofun
  stage := nofun
  written := nofun
  blank hi _ := by simp [start, Recorder.ofCapacity, hi]

variable {s : Producers Op} {capacity : Nat} {claims : List Nat} {k i : Nat} {p : Push Op}

theorem getElem?_set {l : List (Push Op)} {old : Push Op} (hk : l[k]? = some old) (new : Push Op)
    (j : Nat) : (l.set k new)[j]? = if j = k then some new else l[j]? := by
  have hlt := (List.getElem?_eq_some_iff.mp hk).1
  rw [List.getElem?_set]
  by_cases hj : j = k
  · rw [if_pos hj.symm, if_pos hlt, if_pos hj]
  · rw [if_neg (Ne.symm hj), if_neg hj]

namespace InOrder

theorem claims_of_done (ho : s.InOrder capacity claims) (hp : s.pushes[k]? = some p)
    (hd : p.stage = .done i) : claims[i]? = some k ∧ i < capacity := by
  rcases ho.stage hp with ⟨hb, _⟩ | ⟨j, hj, hg⟩
  · rw [hd] at hb
    cases hb
  · rw [hd] at hg
    cases hg with
    | done hlt => exact ⟨hj, hlt⟩

theorem claims_of_claimed (ho : s.InOrder capacity claims) (hp : s.pushes[k]? = some p)
    (hd : p.stage = .claimed i) : claims[i]? = some k ∧ i < capacity := by
  rcases ho.stage hp with ⟨hb, _⟩ | ⟨j, hj, hg⟩
  · rw [hd] at hb
    cases hb
  · rw [hd] at hg
    cases hg with
    | claimed hlt => exact ⟨hj, hlt⟩

theorem not_mem_of_begun (ho : s.InOrder capacity claims) (hp : s.pushes[k]? = some p)
    (hb : p.stage = .begun) : k ∉ claims := by
  rcases ho.stage hp with ⟨_, hnot⟩ | ⟨j, _, hg⟩
  · exact hnot
  · rw [hb] at hg
    cases hg

theorem mem_of_isOver (ho : s.InOrder capacity claims) (hp : s.pushes[k]? = some p)
    (hover : p.stage.isOver = true) : k ∈ claims := by
  rcases ho.stage hp with ⟨hb, _⟩ | ⟨j, hj, _⟩
  · rw [hb] at hover
    cases hover
  · exact List.mem_of_getElem? hj

/-! ## One step -/

theorem begin (ho : s.InOrder capacity claims) (content : Slot Op) :
    InOrder ⟨s.recorder, s.pushes ++ [⟨content, .begun⟩]⟩ capacity claims := by
  have hcases : ∀ {k : Nat} {p : Push Op}, (s.pushes ++ [⟨content, .begun⟩])[k]? = some p →
      s.pushes[k]? = some p ∨ k = s.pushes.length ∧ p.stage = .begun := by
    intro k p hp
    rw [getElem?_snoc] at hp
    split at hp
    · exact .inl hp
    · split at hp
      · cases hp
        exact .inr ⟨‹_›, rfl⟩
      · cases hp
  refine {
    recording := ho.recording, capacity_eq := ho.capacity_eq, index := ho.index, nodup := ho.nodup
    bound := ?bound, stage := ?stage, written := ?written, blank := ?blank }
  case bound =>
    intro k hk
    rw [List.length_append]
    exact Nat.lt_add_right _ (ho.bound k hk)
  case stage =>
    intro k p hp
    rcases hcases hp with hp | ⟨rfl, hb⟩
    · exact ho.stage hp
    · exact .inl ⟨hb, fun hk => Nat.lt_irrefl _ (ho.bound _ hk)⟩
  case written =>
    intro k i p hp hd
    rcases hcases hp with hp | ⟨_, hb⟩
    · exact ho.written hp hd
    · rw [hb] at hd
      cases hd
  case blank =>
    intro i hi hnone
    refine ho.blank hi fun {k p} hp => hnone (k := k) ?_
    rw [List.getElem?_append_left (List.getElem?_eq_some_iff.mp hp).1, hp]

theorem done_of_set {j : Nat} {q : Push Op} {stage : Stage} (hp : s.pushes[k]? = some p)
    (hnot : p.stage ≠ .done i)
    (hnone : ∀ {j : Nat} {q : Push Op}, (s.pushes.set k ⟨p.content, stage⟩)[j]? = some q →
      q.stage ≠ .done i) (hq : s.pushes[j]? = some q) : q.stage ≠ .done i := by
  by_cases hj : j = k
  · subst hj
    cases hp.symm.trans hq
    exact hnot
  · exact hnone (j := j) (by rw [getElem?_set hp, if_neg hj, hq])

theorem claim (ho : s.InOrder capacity claims) (hp : s.pushes[k]? = some p)
    (hb : p.stage = .begun) {stage : Stage} (hgot : stage.Got capacity claims.length)
    (hnew : ∀ i, stage ≠ .done i) :
    InOrder ⟨{ s.recorder with index := s.recorder.index + 1 }, s.pushes.set k ⟨p.content, stage⟩⟩
      capacity (claims ++ [k]) := by
  have hset := getElem?_set hp ⟨p.content, stage⟩
  refine {
    recording := ho.recording, capacity_eq := ho.capacity_eq, index := ?index, nodup := ?nodup
    bound := ?bound, stage := ?stage, written := ?written, blank := ?blank }
  case index =>
    rw [List.length_append, List.length_singleton, ← ho.index]
  case nodup =>
    refine List.nodup_append.mpr ⟨ho.nodup, List.nodup_singleton k, ?_⟩
    rintro j hj _ hk rfl
    exact ho.not_mem_of_begun hp hb (List.mem_singleton.mp hk ▸ hj)
  case bound =>
    intro j hj
    rw [List.length_set]
    rcases List.mem_append.mp hj with hj | hj
    · exact ho.bound j hj
    · rw [List.mem_singleton.mp hj]
      exact (List.getElem?_eq_some_iff.mp hp).1
  case stage =>
    intro j q hq
    rw [hset] at hq
    split at hq
    · rename_i hj
      cases hq
      exact .inr ⟨claims.length, by rw [hj, List.getElem?_concat_length], hgot⟩
    · rename_i hj
      refine (ho.stage hq).imp (fun ⟨hb, hn⟩ => ⟨hb, ?_⟩) fun ⟨i, hi, hg⟩ => ⟨i, ?_, hg⟩
      · simp [hn, hj]
      · rw [List.getElem?_append_left (List.getElem?_eq_some_iff.mp hi).1, hi]
  case written =>
    intro j i q hq hd
    rw [hset] at hq
    split at hq
    · cases hq
      exact absurd hd (hnew i)
    · exact ho.written hq hd
  case blank =>
    intro i hi hnone
    exact ho.blank hi (done_of_set hp (by simp [hb]) hnone)

theorem write (ho : s.InOrder capacity claims) (hp : s.pushes[k]? = some p)
    (hc : p.stage = .claimed i) :
    InOrder ⟨s.recorder.write i p.content, s.pushes.set k ⟨p.content, .done i⟩⟩ capacity claims := by
  obtain ⟨hclaims, hlt⟩ := ho.claims_of_claimed hp hc
  have hset := getElem?_set hp ⟨p.content, .done i⟩
  -- nobody else holds the slot
  have hother : ∀ {j : Nat} {q : Push Op}, s.pushes[j]? = some q → q.stage ≠ .done i := by
    intro j q hq hd
    have hj := (ho.claims_of_done hq hd).1
    rw [hclaims] at hj
    cases hj
    cases hp.symm.trans hq
    rw [hc] at hd
    cases hd
  have hslots : ∀ j, (s.recorder.write i p.content).slots[j]? =
      if j = i then some (some p.content) else s.recorder.slots[j]? := by
    intro j
    rw [Recorder.write, Array.getElem?_modify]
    by_cases hj : j = i
    · rw [if_pos hj.symm, if_pos hj, hj, ho.blank hlt hother]
      rfl
    · rw [if_neg (Ne.symm hj), if_neg hj]
  refine {
    recording := ho.recording, capacity_eq := ?capacity, index := ho.index, nodup := ho.nodup
    bound := ?bound, stage := ?stage, written := ?written, blank := ?blank }
  case capacity => exact Array.size_modify.trans ho.capacity_eq
  case bound =>
    intro j hj
    rw [List.length_set]
    exact ho.bound j hj
  case stage =>
    intro j q hq
    rw [hset] at hq
    split at hq
    · rename_i hj
      cases hq
      exact .inr ⟨i, hj ▸ hclaims, .done hlt⟩
    · exact ho.stage hq
  case written =>
    intro j i' q hq hd
    rw [hset] at hq
    rw [hslots]
    split at hq
    · cases hq
      cases hd
      rw [if_pos rfl]
    · rw [if_neg (by rintro rfl; exact hother hq hd)]
      exact ho.written hq hd
  case blank =>
    intro j hj hnone
    have hne : j ≠ i := by
      rintro rfl
      exact hnone (k := k) (by rw [hset, if_pos rfl]) rfl
    rw [hslots, if_neg hne]
    exact ho.blank hj (done_of_set hp (by simp [hc]) hnone)

theorem step (ho : s.InOrder capacity claims) (e : Event Op) :
    ∃ more, (s.step e).InOrder capacity (claims ++ more) := by
  obtain ⟨recorder, pushes⟩ := s
  have hkeep : ∀ {t : Producers Op}, t.InOrder capacity claims →
      ∃ more, t.InOrder capacity (claims ++ more) :=
    fun ht => ⟨[], by rwa [List.append_nil]⟩
  cases e with
  | begin content => exact hkeep (ho.begin content)
  | advance k =>
    simp only [Producers.step]
    split
    · rename_i content hp
      have hindex : recorder.index = claims.length := ho.index
      have hcap : recorder.capacity = capacity := ho.capacity_eq
      by_cases hlt : recorder.index < recorder.capacity
      · rw [Recorder.claim_eq ho.recording hlt]
        exact ⟨[k], ho.claim hp rfl (hindex ▸ .claimed (hcap ▸ hlt)) nofun⟩
      · rw [Recorder.claim_of_full ho.recording (Nat.not_lt.mp hlt), hcap]
        exact ⟨[k], ho.claim hp rfl (.failed (by omega)) nofun⟩
    · rename_i content slot hp
      exact hkeep (ho.write hp rfl)
    · exact hkeep ho

theorem run (ho : s.InOrder capacity claims) (events : List (Event Op)) :
    ∃ more, (s.run events).InOrder capacity (claims ++ more) := by
  induction events generalizing s claims with
  | nil => exact ⟨[], by rwa [List.append_nil]⟩
  | cons e events ih =>
    obtain ⟨first, hfirst⟩ := ho.step e
    obtain ⟨more, hmore⟩ := ih hfirst
    exact ⟨first ++ more, by rwa [← List.append_assoc]⟩

end InOrder

/-! ## When all pushes are over -/

def Precedes (capacity : Nat) (events : List (Event Op)) (j k : Nat) : Prop :=
  ∃ before after, events = before ++ after ∧
    (∃ p, ((start capacity).run before).pushes[j]? = some p ∧ p.stage.isOver = true) ∧
    ((start capacity).run before).pushes.length ≤ k

theorem lt_of_precedes {events : List (Event Op)} {j k i i' : Nat} {p q : Push Op}
    (hjk : Precedes capacity events j k)
    (hp : ((start capacity).run events).pushes[j]? = some p) (hpi : p.stage = .done i)
    (hq : ((start capacity).run events).pushes[k]? = some q) (hqi : q.stage = .done i') : i < i' := by
  obtain ⟨before, after, rfl, ⟨p₀, hp₀, hover⟩, hk⟩ := hjk
  obtain ⟨claims, hbefore⟩ := (inOrder_start capacity).run before
  rw [List.nil_append] at hbefore
  obtain ⟨more, hall⟩ := hbefore.run after
  have hrun : ((start capacity).run before).run after = (start capacity).run (before ++ after) :=
    (List.foldl_append ..).symm
  rw [hrun] at hall
  obtain ⟨hi, _⟩ := hall.claims_of_done hp hpi
  obtain ⟨hi', _⟩ := hall.claims_of_done hq hqi
  -- `j` was among the claims before, and `k` was not
  obtain ⟨n, hn⟩ := List.mem_iff_getElem?.mp (hbefore.mem_of_isOver hp₀ hover)
  have hnlt := (List.getElem?_eq_some_iff.mp hn).1
  have hn' : (claims ++ more)[n]? = some j := by rw [List.getElem?_append_left hnlt, hn]
  have hin : i = n := by
    have hlt := (List.getElem?_eq_some_iff.mp hi).1
    exact (List.getElem?_inj hlt hall.nodup).mp (hi.trans hn'.symm)
  have hk' : claims.length ≤ i' := by
    by_contra hlt
    rw [List.getElem?_append_left (by omega)] at hi'
    exact absurd (hbefore.bound k (List.mem_of_getElem? hi')) (by omega)
  omega

theorem isOver_of_isFinished (hfinished : s.isFinished = true) (hp : s.pushes[k]? = some p) :
    p.stage.isOver = true :=
  List.all_eq_true.mp hfinished p (List.mem_of_getElem? hp)

theorem exists_map_some {α : Type} {l : List (Option α)} (h : ∀ x ∈ l, ∃ a, x = some a) :
    ∃ l' : List α, l = l'.map some := by
  induction l with
  | nil => exact ⟨[], rfl⟩
  | cons x l ih =>
    obtain ⟨a, rfl⟩ := h x List.mem_cons_self
    obtain ⟨l', rfl⟩ := ih fun y hy => h y (List.mem_cons_of_mem _ hy)
    exact ⟨a :: l', rfl⟩

namespace InOrder

variable (ho : s.InOrder capacity claims) (hfinished : s.isFinished = true)

include ho

theorem size_eq : s.recorder.size = min claims.length capacity := by
  rw [Recorder.size, ho.index, Recorder.capacity, ho.capacity_eq]

include hfinished

theorem length_claims : claims.length = s.pushes.length := by
  have hperm : claims.Perm (List.range s.pushes.length) := by
    rw [List.perm_ext_iff_of_nodup ho.nodup List.nodup_range]
    intro k
    rw [List.mem_range]
    refine ⟨ho.bound k, fun hk => ?_⟩
    have hp := List.getElem?_eq_getElem hk
    exact ho.mem_of_isOver hp (isOver_of_isFinished hfinished hp)
  rw [hperm.length_eq, List.length_range]

theorem exists_done (hi : i < s.recorder.size) :
    ∃ (k : Nat) (p : Push Op), s.pushes[k]? = some p ∧ p.stage = .done i := by
  rw [ho.size_eq] at hi
  have hlt : i < claims.length := by omega
  obtain ⟨k, hk⟩ : ∃ k, claims[i]? = some k := ⟨_, List.getElem?_eq_getElem hlt⟩
  obtain ⟨⟨content, stage⟩, hp⟩ : ∃ p, s.pushes[k]? = some p :=
    ⟨_, List.getElem?_eq_getElem (ho.bound k (List.mem_of_getElem? hk))⟩
  have hover : stage.isOver = true := isOver_of_isFinished hfinished hp
  refine ⟨k, _, hp, ?_⟩
  rcases ho.stage hp with ⟨hb, _⟩ | ⟨j, hj, hg⟩
  · cases hb
    cases hover
  · obtain rfl : i = j := (List.getElem?_inj hlt ho.nodup).mp (hk.trans hj.symm)
    cases hg with
    | claimed => cases hover
    | done => rfl
    | failed hfull => omega

theorem exists_contents :
    ∃ contents : List (Slot Op),
      s.recorder.slots.toList.take s.recorder.size = contents.map some := by
  refine exists_map_some fun x hx => ?_
  obtain ⟨i, hi⟩ := List.mem_iff_getElem?.mp hx
  rw [List.getElem?_take] at hi
  split at hi
  · rename_i hlt
    obtain ⟨k, p, hp, hd⟩ := ho.exists_done hfinished hlt
    rw [Array.getElem?_toList, ho.written hp hd] at hi
    exact ⟨p.content, (Option.some.inj hi).symm⟩
  · cases hi

theorem done_or_full {contents : List (Slot Op)}
    (hslots : s.recorder.slots.toList.take s.recorder.size = contents.map some)
    (hp : s.pushes[k]? = some p) :
    (∃ i, p.stage = .done i ∧ contents[i]? = some p.content) ∨
      p.stage = .failed (.recorderFull capacity) := by
  have hover := isOver_of_isFinished hfinished hp
  rcases ho.stage hp with ⟨hb, _⟩ | ⟨i, hi, hg⟩
  · rw [hb] at hover
    cases hover
  · generalize hstage : p.stage = stage at hg hover
    cases hg with
    | claimed => cases hover
    | failed => exact .inr rfl
    | done hlt =>
      have hsize : i < s.recorder.size := by
        have := (List.getElem?_eq_some_iff.mp hi).1
        rw [ho.size_eq]
        omega
      have hget := congrArg (·[i]?) hslots
      simp only [List.getElem?_take, if_pos hsize, Array.getElem?_toList, List.getElem?_map,
        ho.written hp hstage] at hget
      obtain ⟨c, hc, he⟩ := Option.map_eq_some_iff.mp hget.symm
      cases he
      exact .inl ⟨i, rfl, hc⟩

end InOrder

variable [Operation Op]

/-- In every interleaving the pushes that find room hold the slots from zero on, each its own with
its content, and in the order of time. Such slots have a history exactly when their number is even
and the returns among them name calls of their own, and that history closes the recorder. -/
theorem finished_spec (capacity : Nat) (events : List (Event Op)) {s : Producers Op}
    (hs : (start capacity).run events = s) (hfinished : s.isFinished = true) :
    ∃ contents : List (Slot Op),
      s.recorder.slots.toList.take s.recorder.size = contents.map some ∧
      contents.length = min s.pushes.length capacity ∧
      (∀ (k : Nat) (c : Slot Op) (stage : Stage), s.pushes[k]? = some ⟨c, stage⟩ →
        (∃ i, stage = .done i ∧ contents[i]? = some c) ∨
          stage = .failed (.recorderFull capacity)) ∧
      (∀ i < contents.length, ∃! k : Nat, ∃ c, s.pushes[k]? = some ⟨c, .done i⟩) ∧
      (∀ (j k i i' : Nat) (c d : Slot Op), Precedes capacity events j k →
        s.pushes[j]? = some ⟨c, .done i⟩ → s.pushes[k]? = some ⟨d, .done i'⟩ → i < i') ∧
      ((∃ h, s.recorder.info.1 = .ok h) ↔ contents.length % 2 = 0 ∧ Paired contents) ∧
      ∀ h r, s.recorder.info = (.ok h, r) →
        (∃ log, Log.ofSlots contents = .ok log ∧ h = .ofLog log) ∧ r.info = (.ok h, r) ∧
        ∀ c, r.push c = (.error .recorderFinalized, r) := by
  obtain ⟨claims, ho⟩ := (inOrder_start capacity).run events
  rw [List.nil_append, hs] at ho
  obtain ⟨contents, hslots⟩ := ho.exists_contents hfinished
  have hsize := Recorder.size_eq_length hslots
  obtain ⟨hiff, hinfo⟩ := Recorder.info_spec ho.recording hslots
  refine ⟨contents, hslots, ?_, fun k c stage hp => ho.done_or_full hfinished hslots hp, ?_, ?_,
    hiff, fun h r hh => hinfo hh⟩
  · rw [← hsize, ho.size_eq, ho.length_claims hfinished]
  · intro i hi
    obtain ⟨k, ⟨c, stage⟩, hp, rfl⟩ := ho.exists_done hfinished (hsize ▸ hi)
    refine ⟨k, ⟨c, hp⟩, ?_⟩
    rintro k' ⟨c', hp'⟩
    have hk := (ho.claims_of_done hp rfl).1
    have hk' := (ho.claims_of_done hp' rfl).1
    exact Option.some.inj (hk'.symm.trans hk)
  · intro j k i i' c d hjk hp hq
    subst hs
    exact lt_of_precedes hjk hp rfl hq rfl

/-- The second push claims before the first one and writes after it. The last one finds no room. -/
def crossing : List (Event ByteSet.Op) :=
  [.begin ⟨.contains 4, 0, none⟩, .begin ⟨.insert 4, 1, none⟩, .advance 1, .advance 0, .advance 0,
    .advance 1, .begin ⟨.ret true, 0, some 1⟩, .advance 2, .advance 2, .begin ⟨.ret true, 1, some 0⟩,
    .advance 3, .advance 3, .begin ⟨.contains 5, 2, none⟩, .advance 4]

theorem finished_spec_crossing :
    ((start 4).run crossing).isFinished = true ∧ ∃ contents : List (Slot ByteSet.Op),
      ((start 4).run crossing).recorder.slots.toList.take ((start 4).run crossing).recorder.size =
        contents.map some ∧
      contents.length = 4 ∧ Paired contents ∧
      ∃ h r, ((start 4).run crossing).recorder.info = (.ok h, r) ∧
        (∃ log, Log.ofSlots contents = .ok log ∧ h = .ofLog log) ∧ r.info = (.ok h, r) ∧
        ∀ c, r.push c = (.error .recorderFinalized, r) := by
  have hfinished : ((start 4).run crossing).isFinished = true := by decide +kernel
  have hok : ((start 4).run crossing).recorder.info.1.isOk = true := by decide +kernel
  obtain ⟨contents, hslots, hlen, _, _, _, hiff, hinfo⟩ := finished_spec 4 crossing rfl hfinished
  refine ⟨hfinished, contents, hslots, hlen, ?_⟩
  cases hh : ((start 4).run crossing).recorder.info with
  | mk result r =>
    rw [hh] at hok
    cases result with
    | error f => cases hok
    | ok h => exact ⟨(hiff.mp ⟨h, by rw [hh]⟩).2, h, r, rfl, hinfo h r hh⟩

end Producers

end Linearizability
