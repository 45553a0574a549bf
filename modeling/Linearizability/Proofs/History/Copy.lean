import Linearizability.Proofs.History.Assembly
import Linearizability.Proofs.Search.Verdict
import Linearizability.Proofs.Slicing.Gather

/-!
# Copies of histories

A copy records the entries of a history anew. Which call a return is of, it
learns from the ids alone. When the history was recorded without a fault the
ids of its calls are those that the copy gives them anyway, so that at every
entry the copy is the log from which the history was read, as it was then.
-/

namespace Linearizability

variable {Op : Type} [Operation Op]

/-! ## Where histories come from -/

namespace History

/-- A history that was recorded without a fault, in one log or by several threads, or that was cut
from another one. Some of its calls may have no return. A recorder may have been read before: then
it holds the log that its slots were assembled into. -/
inductive Recorded : History Op → Prop where
  | ofLog {log : Log Op} {h : History Op} : log.Recorded → log.info = .ok h → Recorded h
  | ofRecorder {r : Recorder Op} {h : History Op} :
    (∀ log, r.log = some log → r.assemble = .ok log) → r.info.1 = .ok h → Recorded h
  | ofSlices {g h : History Op} {count part : Nat} {slices : Slices Op} :
    Slices.ofHistory g count = .ok (.ok slices) → slices.sublogInfo part = .ok h → Recorded h

end History

theorem Recorder.recorded_of_assembleSlot {log after : Log Op} {slot : Option (Slot Op) × Nat}
    (hlog : log.Recorded) (hslot : assembleSlot log slot = .ok after) : after.Recorded := by
  obtain ⟨_ | ⟨op, thread, _ | call⟩, i⟩ := slot
  · cases hslot
  · simp only [assembleSlot] at hslot
    split at hslot
    · cases hslot
    · rename_i hadd
      cases hslot
      exact .addCall hlog hadd
  · simp only [assembleSlot] at hslot
    split at hslot
    · split at hslot
      · cases hslot
      · rename_i hadd
        cases hslot
        exact .addRet hlog hadd
    · cases hslot

theorem Recorder.recorded_of_foldlM {slots : List (Option (Slot Op) × Nat)} {log after : Log Op}
    (hlog : log.Recorded) (hfold : slots.foldlM assembleSlot log = .ok after) : after.Recorded := by
  induction slots generalizing log with
  | nil =>
    cases hfold
    exact hlog
  | cons slot slots ih =>
    obtain ⟨next, hslot, hrest⟩ := foldlM_cons_eq_ok.mp hfold
    exact ih (recorded_of_assembleSlot hlog hslot) hrest

theorem Recorder.assemble_of_finalize {r : Recorder Op} {log : Log Op}
    (hheld : ∀ log, r.log = some log → r.assemble = .ok log) (hfin : r.finalize.1 = .ok log) :
    r.assemble = .ok log := by
  unfold finalize at hfin
  split at hfin
  · cases hfin
    exact hheld _ ‹_›
  · split at hfin <;> cases hfin
    assumption

theorem History.Recorded.exists_log {h : History Op} (hr : h.Recorded) :
    ∃ log : Log Op, log.Recorded ∧ log.info = .ok h := by
  cases hr with
  | ofLog hlog hinfo => exact ⟨_, hlog, hinfo⟩
  | @ofRecorder r _ hheld hinfo =>
    obtain ⟨log, hall, hlog⟩ : ∃ log, r.assemble = .ok log ∧ r.finalize.1 = .ok log := by
      cases hfin : r.finalize.1 with
      | error f =>
        simp only [Recorder.info, hfin, Except.bind] at hinfo
        cases hinfo
      | ok log => exact ⟨log, Recorder.assemble_of_finalize hheld hfin, rfl⟩
    simp only [Recorder.info, hlog, Except.bind] at hinfo
    exact ⟨log, Recorder.recorded_of_foldlM (.ofCapacity _) hall, hinfo⟩
  | @ofSlices g _ count part slices hs hinfo =>
    obtain ⟨hsize, hlogs⟩ := Slices.exists_written hs
    by_cases hp : part < count
    · obtain ⟨log, hlog, hrec, _⟩ := hlogs part hp
      rw [Slices.sublogInfo, hlog] at hinfo
      exact ⟨log, hrec, hinfo⟩
    · rw [Slices.sublogInfo, Array.getElem?_eq_none (by omega)] at hinfo
      cases hinfo

/-! ## Recording in a log of another capacity -/

namespace Log

omit [Operation Op] in
theorem push_capacity (log : Log Op) {capacity : Nat} (room : log.size < log.capacity)
    (room' : log.size < capacity) (e : Entry Op) :
    ({ log with capacity } : Log Op).push e =
      ((log.push e).1, { (log.push e).2 with capacity }) := by
  have hroom : ({ log with capacity } : Log Op).size < capacity := room'
  unfold push
  rw [if_pos room, if_pos hroom]
  rfl

theorem addCall_capacity {log after : Log Op} {capacity call thread : Nat} {op : Op}
    (hadd : log.addCall op thread = (.ok call, after)) (room : log.size < capacity) :
    ({ log with capacity } : Log Op).addCall op thread = (.ok call, { after with capacity }) := by
  obtain ⟨room', rfl, rfl⟩ := eq_of_addCall hadd
  let base : Log Op := { log with nextId := log.nextId + 1 }
  have hpush := push_capacity base room' room (.ofOp op log.nextId thread true)
  rw [push_eq_ok base _ room'] at hpush
  exact hpush

theorem last_of_addCall {log after : Log Op} {call thread : Nat} {op : Op}
    (hadd : log.addCall op thread = (.ok call, after)) :
    after.nextId = log.nextId + 1 ∧ ∃ e, after.entries[log.size]? = some e ∧ e.id = log.nextId := by
  obtain ⟨room, _, rfl⟩ := eq_of_addCall hadd
  let base : Log Op := { log with nextId := log.nextId + 1 }
  have hlast := getElem?_push base (.ofOp op log.nextId thread true) room base.size
  rw [if_neg (Nat.lt_irrefl _), if_pos rfl] at hlast
  exact ⟨(push_capacity_nextId base _).2, _, hlast, rfl⟩

theorem addRet_capacity {log after : Log Op} {capacity call ret thread : Nat} {op : Op}
    (hadd : log.addRet call op thread = (.ok ret, after)) (room : log.size < capacity) :
    ({ log with capacity } : Log Op).addRet call op thread =
      (.ok ret, { after with capacity }) := by
  obtain ⟨hcall, room', rfl, id, key, hpair, rfl⟩ := exists_of_addRet hadd
  have hlt : call < ({ log with capacity } : Log Op).size := hcall
  have hpush := push_capacity log room' room (.ofOp op 0 thread false)
  rw [push_eq_ok log _ room'] at hpush
  rw [addRet, if_pos hlt, hpush]
  simp only [hpair]

end Log

/-! ## What a copy reads -/

structure Source (Op : Type) where
  op : Op
  thread : Nat
  isCall : Bool
  id : Nat

omit [Operation Op] in
def Entry.source (e : Entry Op) : Source Op := ⟨e.op, e.thread, e.isCall, e.id⟩

namespace Log

def sources (log : Log Op) : List (Source Op) := log.entries.toList.map Entry.source

omit [Operation Op] in
theorem length_sources (log : Log Op) : log.sources.length = log.size := by
  rw [sources, List.length_map, Array.length_toList, size]

omit [Operation Op] in
theorem getElem?_sources {log : Log Op} {i : Nat} {e : Entry Op} (he : log.entries[i]? = some e) :
    log.sources[i]? = some e.source := by
  rw [sources, List.getElem?_map, Array.getElem?_toList, he]
  rfl

omit [Operation Op] in
theorem exists_of_getElem?_sources {log : Log Op} {i : Nat} {s : Source Op}
    (hs : log.sources[i]? = some s) : ∃ e, log.entries[i]? = some e ∧ e.source = s := by
  rwa [sources, List.getElem?_map, Array.getElem?_toList, Option.map_eq_some_iff] at hs

theorem sources_addCall {log after : Log Op} {call thread : Nat} {op : Op}
    (hadd : log.addCall op thread = (.ok call, after)) :
    after.sources = log.sources ++ [⟨op, thread, true, log.nextId⟩] := by
  obtain ⟨room, _, rfl⟩ := eq_of_addCall hadd
  exact map_push (g := Entry.source) (fun _ _ _ => rfl) { log with nextId := log.nextId + 1 } room _

omit [Operation Op] in
theorem sources_pair (log : Log Op) (call ret id : Nat) (key : Option Nat) :
    ({ log with entries := pair log.entries call ret id key } : Log Op).sources =
      log.sources.modify ret fun s => { s with id } := by
  refine (map_toList_modify (g := Entry.source) _ call _ ?_).trans ?_
  · exact fun _ => rfl
  apply List.ext_getElem?
  intro i
  rw [Array.toList_modify, List.getElem?_map, List.getElem?_modify, List.getElem?_modify, sources,
    List.getElem?_map]
  simp only [Option.map_eq_map, Option.map_map]
  congr 1
  funext e
  simp only [Function.comp]
  split <;> rfl

theorem modify_length_append {α : Type} (l : List α) (a : α) (f : α → α) :
    (l ++ [a]).modify l.length f = l ++ [f a] := by
  rw [List.modify_eq_take_cons_drop (by simp)]
  simp

theorem exists_sources_addRet {log after : Log Op} {call ret thread : Nat} {op : Op}
    (hadd : log.addRet call op thread = (.ok ret, after)) :
    ∃ c, log.entries[call]? = some c ∧ c.isCall = true ∧
      after.sources = log.sources ++ [⟨op, thread, false, c.id⟩] := by
  obtain ⟨hcall, room, rfl, id, key, hpair, rfl⟩ := exists_of_addRet hadd
  obtain ⟨x, r, hx, hr, hcc, _, _, _, rfl, rfl⟩ := pairing_eq_ok hpair
  rcases cases_of_push room hx with ⟨_, c, hc, hxc⟩ | ⟨hsize, _⟩
  case inr => exact absurd hsize (Nat.ne_of_lt hcall)
  have hid : x.id = c.id := by rw [hxc]; split <;> rfl
  have hisCall : x.isCall = c.isCall := by rw [hxc]; split <;> rfl
  have hpush : _ = log.sources ++ [⟨op, thread, false, 0⟩] :=
    map_push (g := Entry.source) (fun _ _ _ => rfl) log room (.ofOp op 0 thread false)
  refine ⟨c, hc, hisCall ▸ hcc, ?_⟩
  rw [sources_pair, sources, hpush, ← log.length_sources, modify_length_append, ← hid]

/-! ## One entry -/

namespace Copy

omit [Operation Op] in
def Leads (calls : List (Nat × Nat)) (sources : List (Source Op)) : Prop :=
  ∀ {i : Nat} {s : Source Op}, sources[i]? = some s → s.isCall = true → calls.lookup s.id = some i

theorem add_congr (copy : Copy Op) {e f : Entry Op} (h : e.source = f.source) :
    copy.add e = copy.add f := by
  simp only [Entry.source, Source.mk.injEq] at h
  obtain ⟨hop, hthread, hcall, hid⟩ := h
  simp only [add, hop, hthread, hcall, hid]

theorem foldlM_add_congr (copy : Copy Op) {l l' : List (Entry Op)}
    (h : l.map Entry.source = l'.map Entry.source) : l.foldlM add copy = l'.foldlM add copy := by
  induction l generalizing l' copy with
  | nil =>
    rw [List.map_nil, eq_comm, List.map_eq_nil_iff] at h
    rw [h]
  | cons e l ih =>
    obtain ⟨f, l', rfl, hf, hl⟩ := List.map_eq_cons_iff.mp h.symm
    rw [List.foldlM_cons, List.foldlM_cons, copy.add_congr hf]
    congr 1
    funext next
    exact ih next hl.symm

/-- A copy of `log` in the making. Its ids lead to the calls. -/
structure Follows (copy : Copy Op) (log : Log Op) (capacity : Nat) : Prop where
  leads : Leads copy.calls log.sources
  log_eq : copy.log = { log with capacity }

end Copy

theorem modify_eq_self {α : Type} {as : Array α} {i : Nat} {a : α} {f : α → α}
    (ha : as[i]? = some a) (hf : f a = a) : as.modify i f = as := by
  apply Array.ext_getElem?
  intro j
  rw [Array.getElem?_modify]
  split
  · rename_i hij
    rw [← hij, ha, Option.map_some, hf]
  · rfl

theorem Recorded.id_lt_of_isCall {log : Log Op} (hr : log.Recorded) (room : log.size < log.capacity)
    {i : Nat} {e : Entry Op} (he : log.entries[i]? = some e) (hc : e.isCall = true) :
    e.id < log.nextId := by
  rw [hr.invariant.callId he hc, hr.invariant.nextId room]
  refine History.WellPaired.callsBefore_lt (h := .ofLog log) ?_ (Array.getElem?_eq_some_iff.mp he).1
  rw [History.isCallAt_eq (h := .ofLog log) he, hc]

namespace Copy.Follows

variable {copy : Copy Op} {log after : Log Op} {capacity thread : Nat} {op : Op}

theorem exists_addCall {call : Nat} (hf : copy.Follows log capacity) (hr : log.Recorded)
    (hadd : log.addCall op thread = (.ok call, after)) (room : log.size < capacity) :
    ∃ next, copy.add (.ofOp op log.nextId thread true) = .ok next ∧ next.Follows after capacity := by
  obtain ⟨_, calls⟩ := copy
  obtain ⟨hleads, rfl⟩ := hf
  obtain ⟨room', rfl, _⟩ := eq_of_addCall hadd
  obtain ⟨hnext, e, he, hid⟩ := last_of_addCall hadd
  have hafter := sources_addCall hadd
  refine ⟨⟨{ after with capacity }, (log.nextId, log.size) :: calls⟩, ?_, ?_, rfl⟩
  · have hentries : (after.entries.modify log.size fun c => { c with id := log.nextId }) =
        after.entries := modify_eq_self he (by rw [← hid])
    simp only [add, Entry.ofOp, if_true, addCall_capacity hadd room, hentries, hnext, Nat.max_self]
  · intro i s hi hs
    rw [hafter, getElem?_snoc, log.length_sources] at hi
    split at hi
    · -- the ids of older calls are smaller
      obtain ⟨x, hx, rfl⟩ := exists_of_getElem?_sources hi
      have hlt : x.source.id < log.nextId := hr.id_lt_of_isCall room' hx hs
      rw [List.lookup_cons, beq_false_of_ne (Nat.ne_of_lt hlt)]
      exact hleads hi hs
    · split at hi <;> cases hi
      subst ‹i = log.size›
      exact List.lookup_cons_self

theorem exists_addRet {call ret : Nat} {c : Entry Op} (hf : copy.Follows log capacity)
    (hadd : log.addRet call op thread = (.ok ret, after)) (room : log.size < capacity)
    (hc : log.entries[call]? = some c) (hcall : c.isCall = true)
    (hafter : after.sources = log.sources ++ [⟨op, thread, false, c.id⟩]) :
    ∃ next, copy.add (.ofOp op c.id thread false) = .ok next ∧ next.Follows after capacity := by
  obtain ⟨_, calls⟩ := copy
  obtain ⟨hleads, rfl⟩ := hf
  have hlookup : calls.lookup c.id = some call := hleads (getElem?_sources hc) hcall
  refine ⟨⟨{ after with capacity }, calls⟩, ?_, ?_, rfl⟩
  · simp only [add, Entry.ofOp, Bool.false_eq_true, if_false, hlookup, addRet_capacity hadd room]
  · intro i s hi hs
    rw [hafter, getElem?_snoc] at hi
    split at hi
    · exact hleads hi hs
    · split at hi <;> cases hi
      cases hs

end Copy.Follows

/-! ## All entries -/

omit [Operation Op] in
theorem size_of_sources {log after : Log Op} {s : Source Op}
    (hafter : after.sources = log.sources ++ [s]) : after.size = log.size + 1 := by
  rw [← after.length_sources, hafter, List.length_append, log.length_sources]
  rfl

/-- The entries of a log, when they are added one after another, give the log again. -/
theorem Recorded.exists_copy {log : Log Op} (hr : log.Recorded) {capacity : Nat}
    (hsize : log.size ≤ capacity) :
    ∃ copy, log.entries.toList.foldlM Copy.add ⟨.ofCapacity capacity, []⟩ = .ok copy ∧
      copy.Follows log capacity := by
  -- `after` shows what `log` shows and the source of `e` after that
  have hstep {log after : Log Op} {copy next : Copy Op} (e : Entry Op)
      (hafter : after.sources = log.sources ++ [e.source])
      (hcopy : log.entries.toList.foldlM Copy.add ⟨.ofCapacity capacity, []⟩ = .ok copy)
      (hnext : copy.add e = .ok next) :
      after.entries.toList.foldlM Copy.add ⟨.ofCapacity capacity, []⟩ = .ok next := by
    have hsources : after.entries.toList.map Entry.source =
        (log.entries.toList ++ [e]).map Entry.source := by
      simpa [sources] using hafter
    rw [Copy.foldlM_add_congr _ hsources, List.foldlM_append, hcopy]
    exact foldlM_cons_eq_ok.mpr ⟨next, hnext, rfl⟩
  induction hr with
  | ofCapacity n => exact ⟨_, rfl, fun hi _ => by simp [sources, Log.ofCapacity] at hi, rfl⟩
  | @addCall log after op thread call hr hadd ih =>
    have hafter := sources_addCall hadd
    have hlast := size_of_sources hafter
    obtain ⟨copy, hcopy, hf⟩ := ih (by omega)
    obtain ⟨next, hnext, hf'⟩ := hf.exists_addCall hr hadd (by omega)
    exact ⟨next, hstep _ hafter hcopy hnext, hf'⟩
  | @addRet log after call op thread ret hr hadd ih =>
    obtain ⟨c, hc, hcall, hafter⟩ := exists_sources_addRet hadd
    have hlast := size_of_sources hafter
    obtain ⟨copy, hcopy, hf⟩ := ih (by omega)
    obtain ⟨next, hnext, hf'⟩ := hf.exists_addRet hadd (by omega) hc hcall hafter
    exact ⟨next, hstep _ hafter hcopy hnext, hf'⟩

end Log

/-! ## The copy of a history -/

/-- Check a history with a tester that has counted `stats` before. -/
def Tester.checkAs (State : Type) [Specification State Op] (config : Config) (stats : Stats)
    (clock : Clock) (r : CheckResult) (h : History Op) :
    Except Fault (Except Fault (Tester State Op) × CheckResult) :=
  (Tester.ofConfig State h config).map fun t => { t with stats }.checkInto clock r

namespace Log

/-- A copy is the log that was copied, with no room left. -/
theorem Recorded.ofHistory_eq {log : Log Op} {h : History Op} (hr : log.Recorded)
    (hinfo : log.info = .ok h) : Log.ofHistory h = .ok { log with capacity := log.size } := by
  obtain ⟨⟨_, calls⟩, hcopy, hf⟩ := hr.exists_copy (Nat.le_refl log.size)
  obtain ⟨_, rfl⟩ := hf
  have hentries : (History.ofLog log).toList.map (·.2) = log.entries.toList := by
    rw [hr.invariant.toList_ofLog, List.map_map]
    exact List.zipIdx_map_fst 0 _
  rw [History.eq_ofLog hinfo, Log.ofHistory, hentries]
  show (log.entries.toList.foldlM Copy.add ⟨.ofCapacity log.size, []⟩).map Copy.log = _
  rw [hcopy]
  rfl

/-- A copy agrees with its source in every entry and has room for no more. Copying it once more
changes nothing, and a check without a time limit finds the same in both. -/
theorem ofHistory_faithful (State : Type) [Specification State Op] {h : History Op}
    (hr : h.Recorded) :
    ∃ copy : Log Op, Log.ofHistory h = .ok copy ∧ copy.entries = h.entries ∧
      copy.capacity = h.entries.size ∧ copy.info = .ok h ∧
      (copy.info >>= Log.ofHistory) = .ok copy ∧
      (h.Complete → ∀ (config : Config), config.timeout = none →
        ∀ (stats : Stats) (clock clock' : Clock) (r r' : CheckResult),
          (copy.info >>= Tester.checkAs State config stats clock r) =
            Tester.checkAs State config stats clock' r' h) := by
  obtain ⟨log, hlog, hinfo⟩ := hr.exists_log
  obtain ⟨heven, rfl⟩ := History.info_eq_ok_iff.mp hinfo
  have hcopy := hlog.ofHistory_eq hinfo
  have hinfo' : ({ log with capacity := log.size } : Log Op).info = .ok (.ofLog log) :=
    History.info_eq_ok_iff.mpr ⟨heven, rfl⟩
  refine ⟨_, hcopy, rfl, rfl, hinfo', ?_, ?_⟩
  · rw [hinfo']
    exact hcopy
  · intro hc config htime stats clock clock' r r'
    rw [hinfo']
    show Tester.checkAs State config stats clock r _ = _
    unfold Tester.checkAs Tester.ofConfig
    cases hvalid : config.validate with
    | error e => simp only [Except.map]
    | ok _ =>
      have hcap := Config.capacity_of_validate hvalid
      let t : Tester State Op := ⟨.ofLog log, config, stats⟩
      obtain ⟨memo, hmemo, hcheck⟩ := t.checkInto_explore hc.wellPaired hcap htime clock r
      obtain ⟨memo', hmemo', hcheck'⟩ := t.checkInto_explore hc.wellPaired hcap htime clock' r'
      cases hmemo.symm.trans hmemo'
      show Except.ok (t.checkInto clock r) = Except.ok (t.checkInto clock' r')
      rw [hcheck, hcheck']

def pendingCalls : Log ByteSet.Op :=
  let log := (Log.ofCapacity 6).addCall (.insert 1) 0 |>.2
  let log := log.addCall (.contains 1) 1 |>.2
  let log := log.addRet 1 (.ret true) 1 |>.2
  log.addCall (.contains 2) 1 |>.2

theorem pendingCalls_recorded : pendingCalls.Recorded := by
  refine .addCall_of_isOk (.addRet_of_isOk (.addCall_of_isOk (.addCall_of_isOk
    (.ofCapacity 6) ?_) ?_) ?_) ?_
  all_goals decide +kernel

theorem ofHistory_faithful_pendingCalls :
    (∃ copy, ofHistory (.ofLog pendingCalls) = .ok copy ∧ copy.entries = pendingCalls.entries ∧
      copy.capacity = 4 ∧ (copy.info >>= ofHistory) = .ok copy) ∧
    (History.ofLog overlappingLookup).Complete ∧
    ∃ copy, ofHistory (.ofLog overlappingLookup) = .ok copy ∧
      (copy.info >>= Tester.checkAs ByteSet { memo := .lru } {} .frozen { cutoff := 7 }) =
        Tester.checkAs ByteSet { memo := .lru } {} .frozen {} (.ofLog overlappingLookup) := by
  have hpending : (History.ofLog pendingCalls).Recorded :=
    .ofLog pendingCalls_recorded (History.info_eq_ok_iff.mpr ⟨by decide +kernel, rfl⟩)
  have hfull : (History.ofLog overlappingLookup).Recorded :=
    .ofLog overlappingLookup_complete.recorded
      (History.info_eq_ok_iff.mpr ⟨by decide +kernel, rfl⟩)
  have hc := History.complete_ofLog overlappingLookup_complete
  obtain ⟨copy, hcopy, hentries, hcap, _, htwice, _⟩ := ofHistory_faithful ByteSet hpending
  obtain ⟨copy', hcopy', _, _, _, _, hcheck⟩ := ofHistory_faithful ByteSet hfull
  exact ⟨⟨copy, hcopy, hentries, hcap, htwice⟩, hc, copy', hcopy',
    hcheck hc _ rfl {} .frozen .frozen { cutoff := 7 } {}⟩

end Log

end Linearizability
