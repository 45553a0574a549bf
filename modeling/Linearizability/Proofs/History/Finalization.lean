import Linearizability.Proofs.History.Assembly
import Mathlib.Data.List.Induction

/-!
# Which slots are accepted

Written slots are assembled exactly when every return names a call before
it that no other return names. The log is then the one that records the
contents of the slots in order, and it has a history when their number is
even. A call may be left without a return.
-/

namespace Linearizability

variable {Op : Type}

/-- Every return names a smaller slot that is a call and that no other return names. -/
def Paired (contents : List (Slot Op)) : Prop :=
  ∀ {i : Nat} {c : Slot Op} {call : Nat}, contents[i]? = some c → c.call = some call →
    call < i ∧ (∃ d, contents[call]? = some d ∧ d.call = none) ∧
      ∀ {j : Nat} {d : Slot Op}, contents[j]? = some d → d.call = some call → j = i

theorem Paired.of_snoc {contents : List (Slot Op)} {c : Slot Op}
    (hp : Paired (contents ++ [c])) : Paired contents := by
  have hold : ∀ {i : Nat} {d : Slot Op}, contents[i]? = some d →
      (contents ++ [c])[i]? = some d := by
    intro i d hd
    rw [List.getElem?_append_left (List.getElem?_eq_some_iff.mp hd).1, hd]
  intro i d call hd hcall
  obtain ⟨hlt, ⟨e, he, hecall⟩, hone⟩ := hp (hold hd) hcall
  refine ⟨hlt, ⟨e, ?_, hecall⟩, fun hj => hone (hold hj)⟩
  have hi := (List.getElem?_eq_some_iff.mp hd).1
  rwa [List.getElem?_append_left (by omega)] at he

theorem Orderly.paired {contents : List (Slot Op)} (ho : Orderly contents) : Paired contents := by
  induction ho with
  | nil => nofun
  | @call contents op thread _ ih =>
    -- the last slot is no return
    have hold : ∀ {i : Nat} {c : Slot Op} {k : Nat}, (contents ++ [⟨op, thread, none⟩])[i]? = some c →
        c.call = some k → contents[i]? = some c := by
      intro i c k hc hk
      rw [getElem?_snoc] at hc
      split at hc
      · exact hc
      · split at hc
        · cases hc
          cases hk
        · cases hc
    intro i c call hc hcall
    obtain ⟨hlt, ⟨d, hd, hdcall⟩, hone⟩ := ih (hold hc hcall) hcall
    refine ⟨hlt, ⟨d, ?_, hdcall⟩, fun hj hjcall => hone (hold hj hjcall) hjcall⟩
    rw [List.getElem?_append_left (List.getElem?_eq_some_iff.mp hd).1, hd]
  | @ret contents c call op thread ho hc hcall hnone ih =>
    have hlt : call < contents.length := (List.getElem?_eq_some_iff.mp hc).1
    -- a return is an old one, or the last slot
    have hcases : ∀ {i : Nat} {d : Slot Op} {k : Nat},
        (contents ++ [⟨op, thread, some call⟩])[i]? = some d → d.call = some k →
        contents[i]? = some d ∧ k ≠ call ∨ i = contents.length ∧ k = call := by
      intro i d k hd hk
      rw [getElem?_snoc] at hd
      split at hd
      · refine .inl ⟨hd, ?_⟩
        rintro rfl
        exact hnone d (List.mem_of_getElem? hd) hk
      · split at hd
        · cases hd
          exact .inr ⟨‹_›, (Option.some.inj hk).symm⟩
        · cases hd
    intro i d k hd hk
    rcases hcases hd hk with ⟨hd, hne⟩ | ⟨rfl, rfl⟩
    · obtain ⟨hki, ⟨e, he, hecall⟩, hone⟩ := ih hd hk
      refine ⟨hki, ⟨e, ?_, hecall⟩, fun hj hjk => ?_⟩
      · rw [List.getElem?_append_left (List.getElem?_eq_some_iff.mp he).1, he]
      · rcases hcases hj hjk with ⟨hj, _⟩ | ⟨_, rfl⟩
        · exact hone hj hjk
        · exact absurd rfl hne
    · refine ⟨hlt, ⟨c, ?_, hcall⟩, fun hj hjk => ?_⟩
      · rw [List.getElem?_append_left hlt, hc]
      · rcases hcases hj hjk with ⟨_, hne⟩ | ⟨hj, _⟩
        · exact absurd rfl hne
        · exact hj

theorem Paired.orderly {contents : List (Slot Op)} (hp : Paired contents) : Orderly contents := by
  induction contents using List.reverseRecOn with
  | nil => exact .nil
  | append_singleton contents c ih =>
    have ho := ih hp.of_snoc
    obtain ⟨op, thread, call⟩ := c
    cases call with
    | none => exact ho.call op thread
    | some call =>
      have hlast : (contents ++ [⟨op, thread, some call⟩])[contents.length]? =
          some ⟨op, thread, some call⟩ := List.getElem?_concat_length
      obtain ⟨hlt, ⟨d, hd, hdcall⟩, hone⟩ := hp hlast rfl
      rw [List.getElem?_append_left hlt] at hd
      refine ho.ret op thread hd hdcall fun e he hecall => ?_
      obtain ⟨j, hj⟩ := List.mem_iff_getElem?.mp he
      have hjlt := (List.getElem?_eq_some_iff.mp hj).1
      have := hone (by rw [List.getElem?_append_left hjlt, hj]) hecall
      omega

variable [Operation Op]

/-! ## Assembling and recording -/

def Log.addSlot (log : Log Op) : Slot Op → Except Fault (Log Op)
  | ⟨op, thread, none⟩ =>
    match log.addCall op thread with
    | (.error f, _) => .error f
    | (.ok _, log) => .ok log
  | ⟨op, thread, some call⟩ =>
    match log.addRet call op thread with
    | (.error f, _) => .error f
    | (.ok _, log) => .ok log

def Log.ofSlots (contents : List (Slot Op)) : Except Fault (Log Op) :=
  contents.foldlM Log.addSlot (.ofCapacity contents.length)

/-- A return is recorded only for a call that is not matched yet. -/
theorem Log.exists_view_of_addRet {log after : Log Op} {call ret thread : Nat} {op : Op}
    (hadd : log.addRet call op thread = (.ok ret, after)) :
    ∃ c, log.entries[call]?.map Entry.view = some (c, true, none) := by
  unfold addRet at hadd
  split at hadd
  case isFalse => cases hadd
  case isTrue hlt =>
    by_cases room : log.size < log.capacity
    · have hview := view_push room (.ofOp op 0 thread false) call
      have hok := push_eq_ok log (.ofOp op 0 thread false) room
      generalize log.push (.ofOp op 0 thread false) = pushed at hok hview hadd
      obtain ⟨ref, next⟩ := pushed
      cases hok
      dsimp only at hadd
      split at hadd
      · cases hadd
      · rename_i id key hpair
        obtain ⟨c, _, hc, _, hcc, _, hcm, _⟩ := pairing_eq_ok hpair
        rw [if_pos hlt, hc] at hview
        refine ⟨c.op, hview.symm.trans ?_⟩
        simp [Entry.view, hcc, hcm]
    · have hfull : log.push (.ofOp op 0 thread false) = (.error (.logFull log.capacity), log) :=
        if_neg room
      rw [hfull] at hadd
      cases hadd

namespace Recorder

theorem addSlot_of_assembleSlot {log after : Log Op} {c : Slot Op} {i : Nat}
    (hc : assembleSlot log (some c, i) = .ok after) : log.addSlot c = .ok after := by
  obtain ⟨op, thread, call⟩ := c
  cases call with
  | none => exact hc
  | some call =>
    simp only [assembleSlot] at hc
    split at hc
    · exact hc
    · cases hc

theorem foldlM_addSlot {contents : List (Slot Op)} {log after : Log Op} {start : Nat}
    (hlog : ((contents.map some).zipIdx start).foldlM assembleSlot log = .ok after) :
    contents.foldlM Log.addSlot log = .ok after := by
  induction contents generalizing log start with
  | nil => exact hlog
  | cons c contents ih =>
    rw [List.map_cons, List.zipIdx_cons, List.foldlM_cons] at hlog
    rw [List.foldlM_cons]
    cases hc : assembleSlot log (some c, start) with
    | error f =>
      rw [hc] at hlog
      cases hlog
    | ok next =>
      rw [hc] at hlog
      rw [addSlot_of_assembleSlot hc]
      exact ih hlog

theorem exists_of_assembleAll_snoc {capacity : Nat} {contents : List (Slot Op)} {c : Slot Op}
    {log : Log Op} (hlog : assembleAll capacity (contents ++ [c]) = .ok log) :
    ∃ before, assembleAll capacity contents = .ok before ∧
      assembleSlot before (some c, contents.length) = .ok log := by
  cases hbefore : assembleAll capacity contents with
  | ok before =>
    rw [assembleAll_snoc hbefore] at hlog
    exact ⟨before, rfl, hlog⟩
  | error f =>
    rw [assembleAll] at hbefore
    rw [assembleAll, List.map_append, List.zipIdx_append, List.foldlM_append, hbefore] at hlog
    cases hlog

theorem orderly_of_assembleAll {capacity : Nat} {contents : List (Slot Op)} {log : Log Op}
    (room : contents.length ≤ capacity) (hlog : assembleAll capacity contents = .ok log) :
    Orderly contents := by
  induction contents using List.reverseRecOn generalizing log with
  | nil => exact .nil
  | append_singleton contents c ih =>
    rw [List.length_append, List.length_singleton] at room
    obtain ⟨before, hbefore, hslot⟩ := exists_of_assembleAll_snoc hlog
    have ho := ih (Nat.le_of_succ_le room) hbefore
    obtain ⟨op, thread, call⟩ := c
    cases call with
    | none => exact ho.call op thread
    | some call =>
      obtain ⟨_, hsame, _, hs⟩ := exists_assembleAll ho (Nat.le_of_succ_le room)
      cases hbefore.symm.trans hsame
      simp only [assembleSlot] at hslot
      split at hslot
      case isFalse => cases hslot
      case isTrue hlt =>
        -- the call is there, and nothing is matched with it
        obtain ⟨x, hview⟩ : ∃ x, before.entries[call]?.map Entry.view = some (x, true, none) := by
          cases hadd : before.addRet call op thread with
          | mk result after =>
            cases result with
            | error f =>
              rw [hadd] at hslot
              cases hslot
            | ok ret => exact Log.exists_view_of_addRet hadd
        rw [hs.view, shownAt, Option.map_eq_some_iff] at hview
        obtain ⟨d, hd, hshown⟩ := hview
        simp only [Prod.mk.injEq, Option.isNone_iff_eq_none, Option.or_eq_none_iff] at hshown
        obtain ⟨_, hdcall, _, hnone⟩ := hshown
        refine ho.ret op thread hd hdcall fun e he hecall => ?_
        obtain ⟨j, hj⟩ := exists_returnOf? ⟨e, he, hecall⟩
        rw [hnone] at hj
        cases hj

/-! ## Finalizing -/

variable {r : Recorder Op} {contents : List (Slot Op)}

omit [Operation Op] in
theorem size_eq_length (hslots : r.slots.toList.take r.size = contents.map some) :
    r.size = contents.length := by
  have hlen := congrArg List.length hslots
  rw [List.length_take, List.length_map, Array.length_toList] at hlen
  rw [← hlen, size, capacity]
  omega

theorem assemble_eq (hslots : r.slots.toList.take r.size = contents.map some) :
    r.assemble = assembleAll contents.length contents := by
  rw [assemble, hslots, size_eq_length hslots, assembleAll]

/-- What a recorder makes of slots that have all been written. -/
theorem info_spec (hopen : r.log = none)
    (hslots : r.slots.toList.take r.size = contents.map some) :
    ((∃ h, r.info.1 = .ok h) ↔ contents.length % 2 = 0 ∧ Paired contents) ∧
    ∀ {h after}, r.info = (.ok h, after) →
      (∃ log, Log.ofSlots contents = .ok log ∧ h = .ofLog log) ∧ after.info = (.ok h, after) ∧
      ∀ c, after.push c = (.error .recorderFinalized, after) := by
  have hassemble := assemble_eq hslots
  cases hall : assembleAll contents.length contents with
  | error f =>
    have hinfo : r.info = (.error f, r) := by
      simp only [info, finalize, hopen, hassemble, hall, Except.bind]
    refine ⟨⟨?_, ?_⟩, ?_⟩
    · rintro ⟨h, hh⟩
      rw [hinfo] at hh
      cases hh
    · rintro ⟨_, hp⟩
      obtain ⟨log, hlog, _⟩ := exists_assembleAll hp.orderly (Nat.le_refl _)
      rw [hall] at hlog
      cases hlog
    · intro h after hh
      rw [hinfo] at hh
      cases hh
  | ok log =>
    have ho := orderly_of_assembleAll (Nat.le_refl _) hall
    obtain ⟨_, hsame, _, hs⟩ := exists_assembleAll ho (Nat.le_refl _)
    cases hall.symm.trans hsame
    have hinfo : r.info = (log.info, { r with log := some log }) := by
      simp only [info, finalize, hopen, hassemble, hall, Except.bind]
    refine ⟨⟨?_, ?_⟩, ?_⟩
    · rintro ⟨h, hh⟩
      rw [hinfo] at hh
      refine ⟨?_, ho.paired⟩
      rw [← hs.size]
      exact (History.info_eq_ok_iff.mp hh).1
    · rintro ⟨heven, _⟩
      rw [← hs.size] at heven
      exact ⟨.ofLog log, by rw [hinfo]; exact History.info_eq_ok_iff.mpr ⟨heven, rfl⟩⟩
    · intro h after hh
      rw [hinfo] at hh
      obtain ⟨hlog, rfl⟩ := Prod.mk.inj hh
      refine ⟨⟨log, foldlM_addSlot hall, (History.info_eq_ok_iff.mp hlog).2⟩, ?_, fun c => rfl⟩
      simp only [info, finalize, Except.bind, hlog]

end Recorder

end Linearizability
