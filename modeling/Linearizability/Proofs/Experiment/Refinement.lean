import Linearizability.Proofs.Experiment.Session
import Linearizability.Proofs.Search.Verdict

/-!
# Refinement

An object refines a specification when it answers every request as the
specification accepts it. Then the requests of a session were performed in an
order that the specification accepts, and the history that is recorded around
them is linearizable. That history is one of all requests: it has the call of
each of them and its return.
-/

namespace Linearizability

variable {Object Request Op State : Type} [SharedObject Object Request Op]

/-- The specification accepts the answer of an object in a related state, and what follows is
related again. -/
def Refines [Specification State Op] (R : Object → State → Prop) : Prop :=
  ∀ {o : Object} {s : State} (request : Request), R o s →
    let answer := SharedObject.perform o request
    let effect := Specification.apply s (SharedObject.call Object request) answer.1
    effect.accepted = true ∧ R answer.2 effect.next

def SingleReturn (State : Type) [Specification State Op] : Prop :=
  ∀ (s : State) (call ret ret' : Op), (Specification.apply s call ret).accepted = true →
    (Specification.apply s call ret').accepted = true → ret = ret'

theorem History.WellPaired.exists_check (State : Type) [Operation Op] [Specification State Op]
    [LawfulSpecification State] {h : History Op} (hw : h.WellPaired) {config : Config}
    (hvalid : config.validate = .ok ()) (htime : config.timeout = none) (clock : Clock) :
    ∃ (t : Tester State Op) (verdict : Bool) (after : Tester State Op),
      Tester.ofConfig State h config = .ok t ∧ t.check clock = .ok (.ok verdict, after) ∧
      (verdict = true ↔ h.Linearizable State) := by
  let t : Tester State Op := { history := h, config }
  obtain ⟨verdict, after, hcheck, hverdict⟩ :=
    t.exists_check hw (Config.capacity_of_validate hvalid) htime clock
  exact ⟨t, verdict, after, by rw [Tester.ofConfig, hvalid], hcheck, hverdict⟩

variable (Object) in
/-- A history of programs has the calls of each of them under the thread that ran it, every call
with its return, and nothing else. -/
structure History.Records [Operation Op] (h : History Op) (programs : List (List Request)) :
    Prop where
  complete : h.Complete
  length : h.toList.length = 2 * programs.flatten.length
  calls : ∀ {k : Nat} {program : List Request}, programs[k]? = some program →
    callsOf (k + 1) (h.toList.map (·.2.written)) = program.map (SharedObject.call Object)

namespace Session

/-! ## Sessions from start to end -/

omit [SharedObject Object Request Op] in
theorem exists_program {capacity : Nat} {object : Object} {programs : List (List Request)} {k : Nat}
    {w : Worker Request Op} (hw : (start capacity object programs).workers[k]? = some w) :
    ∃ program, w = ⟨program, .idle⟩ := by
  simp only [start, List.getElem?_toArray, List.getElem?_map, Option.map_eq_some_iff] at hw
  obtain ⟨program, _, rfl⟩ := hw
  exact ⟨program, rfl⟩

omit [SharedObject Object Request Op] in
theorem totalDue_start (capacity : Nat) (object : Object) (programs : List (List Request)) :
    totalDue (start capacity object programs : Session Object Request Op).workers.toList =
      2 * programs.flatten.length := by
  simp only [start]
  induction programs with
  | nil => rfl
  | cons program programs ih =>
    rw [List.map_cons, totalDue, ih, List.flatten_cons, List.length_append]
    show 2 * program.length + 0 + _ = _
    omega

theorem keeps_start (capacity : Nat) (object : Object) {programs : List (List Request)}
    (hroom : 2 * programs.flatten.length ≤ capacity) :
    (start capacity object programs : Session Object Request Op).Keeps programs {} where
  valid := .empty
  recording := rfl
  index := rfl
  room := by simpa [start, Recorder.capacity, Recorder.ofCapacity] using hroom
  due := (Nat.zero_add _).trans (totalDue_start capacity object programs)
  calls := fun {k program} hk => ⟨⟨program, .idle⟩, by simp [start, hk], rfl⟩
  claimed := by
    intro w i hw hi
    obtain ⟨k, hk⟩ := Array.mem_iff_getElem?.mp hw
    obtain ⟨program, rfl⟩ := exists_program hk
    cases hi
  written := by
    intro i hi _
    have hi : i < capacity := by
      simpa [start, Recorder.ofCapacity, Recorder.capacity] using hi
    simp [start, Recorder.ofCapacity, hi]
  phases := by
    intro k w hw
    obtain ⟨program, rfl⟩ := exists_program hw
    trivial
  returns := nofun

omit [SharedObject Object Request Op] in
theorem isFinished_iff {s : Session Object Request Op} :
    s.isFinished = true ↔ ∀ w ∈ s.workers, w = ⟨[], .idle⟩ := by
  rw [isFinished, Array.all_eq_true_iff_forall_mem]
  refine forall₂_congr fun w _ => ?_
  obtain ⟨program, phase⟩ := w
  cases program <;> cases phase <;> simp [Worker.isFinished]

omit [SharedObject Object Request Op] in
theorem totalDue_eq_zero {workers : List (Worker Request Op)}
    (hidle : ∀ w ∈ workers, w = ⟨[], .idle⟩) : totalDue workers = 0 := by
  induction workers with
  | nil => rfl
  | cons w workers ih =>
    rw [totalDue, hidle w List.mem_cons_self, ih fun x hx => hidle x (List.mem_cons_of_mem w hx)]
    rfl

/-- The history of a session that is finished shows its account. -/
theorem Keeps.exists_info [Operation Op] {programs : List (List Request)}
    {s : Session Object Request Op} {a : Account Op} (hk : s.Keeps programs a)
    (hfinished : s.isFinished = true) :
    a.Closed ∧ ∃ log r, log.Shows a.contents ∧ s.recorder.info = (.ok (.ofLog log), r) := by
  have hidle := isFinished_iff.mp hfinished
  have hroom := hk.room
  have hdue := hk.due
  have hclosed : a.Closed := by
    intro i c hc hcall
    refine (hk.returns hc hcall).resolve_right ?_
    rintro ⟨w, hw, hwi⟩
    rw [hidle w hw] at hwi
    cases hwi
  have hsize : s.recorder.size = a.contents.length := by
    rw [Recorder.size, hk.index]
    omega
  have hslots : s.recorder.slots.toList.take a.contents.length = a.contents.map some := by
    apply List.ext_getElem?
    intro i
    rw [List.getElem?_take, List.getElem?_map]
    split
    · rename_i hi
      have hfree : ∀ w ∈ s.workers, w.phase.slot? ≠ some i := by
        intro w hw
        rw [hidle w hw]
        nofun
      rw [Array.getElem?_toList, hk.written (by omega) hfree, List.getElem?_eq_getElem hi]
      rfl
    · rename_i hi
      rw [List.getElem?_eq_none (Nat.not_lt.mp hi)]
      rfl
  obtain ⟨log, hlog, _, hs⟩ := Recorder.exists_assembleAll hk.valid.orderly (Nat.le_refl _)
  have hassemble : s.recorder.assemble = .ok log := by
    rw [Recorder.assemble, hsize, hslots]
    exact hlog
  refine ⟨hclosed, log, { s.recorder with log := some log }, hs, ?_⟩
  simp only [Recorder.info, Recorder.finalize, hk.recording, hassemble, Except.bind,
    History.info_eq_ofLog (hs.complete hclosed)]

/-! ## What is recorded in the end -/

theorem Keeps.records [Operation Op] {programs : List (List Request)}
    {s : Session Object Request Op} {a : Account Op} (hk : s.Keeps programs a)
    (hfinished : s.isFinished = true) {log : Log Op} (hs : log.Shows a.contents)
    (hcomplete : log.Complete) : (History.ofLog log).Records Object programs where
  complete := History.complete_ofLog hcomplete
  length := by
    have hidle := totalDue_eq_zero fun w hw => isFinished_iff.mp hfinished w (Array.mem_def.mpr hw)
    have hdue := hk.due
    rw [(History.wellPaired_ofLog hcomplete).length_toList]
    show log.size = _
    rw [hs.size]
    omega
  calls := by
    intro k program hprogram
    obtain ⟨w, hw, hcalls⟩ := hk.calls hprogram
    rw [isFinished_iff.mp hfinished w (Array.mem_of_getElem? hw), List.map_nil,
      List.append_nil] at hcalls
    have hwritten : (History.ofLog log).toList.map (·.2.written) = log.written :=
      List.map_map.symm.trans (congrArg (List.map Entry.written)
        (History.wellPaired_ofLog hcomplete).map_snd_toList)
    rw [hwritten, hs.written, ← hcalls]
    rfl

/-! ## Sound sessions -/

variable [Specification State Op]

def Sound (R : Object → State → Prop) (programs : List (List Request))
    (s : Session Object Request Op) : Prop :=
  ∃ (a : Account Op) (σ : State), s.Keeps programs a ∧ Account.Leads a.order σ ∧ R s.object σ

variable {R : Object → State → Prop} (hR : Refines R) {programs : List (List Request)}

include hR

theorem Sound.exists_step {s : Session Object Request Op} (hs : s.Sound R programs) (k : Nat) :
    ∃ s', s.step k = .ok s' ∧ s'.Sound R programs := by
  obtain ⟨a, σ, hk, hl, hσ⟩ := hs
  obtain ⟨s', a', hstep, hk', hturn⟩ := hk.exists_step k
  refine ⟨s', hstep, ?_⟩
  cases hturn with
  | record hobject horder => exact ⟨a', σ, hk', horder ▸ hl, hobject ▸ hσ⟩
  | perform call request hobject =>
    obtain ⟨haccepted, hnext⟩ := hR request hσ
    exact ⟨_, _, hk', hl.snoc haccepted, hobject ▸ hnext⟩

theorem Sound.exists_run {s : Session Object Request Op} (hs : s.Sound R programs)
    (schedule : List Nat) : ∃ s', s.run schedule = .ok s' ∧ s'.Sound R programs := by
  induction schedule generalizing s with
  | nil => exact ⟨s, rfl, hs⟩
  | cons k schedule ih =>
    obtain ⟨s₁, hstep, hs₁⟩ := hs.exists_step hR k
    obtain ⟨s', hrun, hs'⟩ := ih hs₁
    refine ⟨s', ?_, hs'⟩
    rw [run, List.foldlM_cons, hstep]
    exact hrun

omit hR in
theorem Sound.unwritten {s : Session Object Request Op} (hs : s.Sound R programs) :
    s.Unwritten := by
  obtain ⟨_, _, hk, _⟩ := hs
  exact hk.claimed

/-! ## Verdicts -/

omit hR in
variable (State) in
def Passes [Operation Op] (programs : List (List Request)) (s : Session Object Request Op) :
    Prop :=
  ∃ h r, s.recorder.info = (.ok h, r) ∧ h.Records Object programs ∧
    ∀ (config : Config) (clock : Clock), config.validate = .ok () → config.timeout = none →
      ∃ t after, Tester.ofConfig State h config = .ok t ∧ t.check clock = .ok (.ok true, after)

variable [Operation Op] [LawfulSpecification State]

omit hR in
theorem Sound.passes {s : Session Object Request Op} (hs : s.Sound R programs)
    (hfinished : s.isFinished = true) : s.Passes State programs := by
  obtain ⟨a, σ, hk, hl, _⟩ := hs
  obtain ⟨hclosed, log, r, hshows, hinfo⟩ := hk.exists_info hfinished
  have hcomplete := hshows.complete hclosed
  have hw := History.wellPaired_ofLog hcomplete
  have hlin : (History.ofLog log).Linearizable State :=
    ⟨_, hk.valid.isLinearization hclosed hshows hl⟩
  refine ⟨.ofLog log, r, hinfo, hk.records hfinished hshows hcomplete,
    fun config clock hvalid htime => ?_⟩
  obtain ⟨t, verdict, after, ht, hcheck, hverdict⟩ := hw.exists_check State hvalid htime clock
  refine ⟨t, after, ht, ?_⟩
  rw [hcheck, hverdict.mpr hlin]

/-- Every interleaving of every program is recorded without a fault, and what is recorded in the end
passes. -/
theorem exists_run_passes {capacity : Nat} {object : Object}
    (hobject : R object Specification.init) (hroom : 2 * programs.flatten.length ≤ capacity)
    (schedule : List Nat) :
    ∃ s, (start capacity object programs).run schedule = .ok s ∧ s.Unwritten ∧
      (s.isFinished = true → s.Passes State programs) := by
  have hstart : (start capacity object programs).Sound R programs :=
    ⟨{}, Specification.init, keeps_start capacity object hroom, .nil, hobject⟩
  obtain ⟨s, hrun, hs⟩ := hstart.exists_run hR schedule
  exact ⟨s, hrun, hs.unwritten, hs.passes⟩

end Session

end Linearizability
