import Linearizability.Model.ByteSet
import Linearizability.Proofs.Search.PathList

/-!
# Undoing lifts

Calls may be lifted in any order, whatever way their pairs nest or cross:
each lift takes the call and its return out of the circle and leaves the
order of the others as it is. An unlift gives back the array of nodes from
before the lift, so the unlifts of all lifts, last first, lead back through
the same lists to the one of all entries.
-/

namespace Linearizability

variable {Op : Type}

namespace WorkingList

/-- `w` is what is left after `lifts`, each of a call that was in the list. The last lift comes
first, and each comes with the list before it. -/
inductive Lifted (h : History Op) : (lifts : List (Nat × WorkingList)) → (w : WorkingList) →
    Prop where
  | start {w : WorkingList} : ofHistory h = .ok w → Lifted h [] w
  | lift {lifts : List (Nat × WorkingList)} {w w' : WorkingList} {call : Nat} :
    Lifted h lifts w → call ∈ w.remaining → h.isCallAt call = true → w.lift call = .ok w' →
      Lifted h ((call, w) :: lifts) w'

namespace Lifted

variable [Operation Op] {h : History Op} (hw : h.WellPaired) {lifts : List (Nat × WorkingList)}
  {w : WorkingList}

include hw

theorem shows (hl : Lifted h lifts w) : w.Shows h (h.rest (lifts.map (·.1)).reverse) := by
  induction hl with
  | start hfirst =>
    rw [History.ofHistory_eq hw] at hfirst
    cases hfirst
    exact h.rest_nil ▸ h.shows_firstList
  | lift _ hmem hcall hlift ih =>
    rw [ih.remaining] at hmem
    obtain ⟨w', hlift', _, hs'⟩ :=
      History.exists_lift hw ih (History.mem_left_of_mem_rest hmem hcall)
    rw [hlift] at hlift'
    cases hlift'
    rwa [List.map_cons, List.reverse_cons]

theorem exists_lift (hl : Lifted h lifts w) {call : Nat} (hmem : call ∈ w.remaining)
    (hcall : h.isCallAt call = true) :
    ∃ w' a b d, w.lift call = .ok w' ∧ w'.unlift call = .ok w ∧
      w.remaining = a ++ call :: (b ++ h.mate call :: d) ∧ w'.remaining = a ++ (b ++ d) := by
  have hs := hl.shows hw
  have hleft := History.mem_left_of_mem_rest (hs.remaining ▸ hmem) hcall
  obtain ⟨w', hlift, hunlift, hs'⟩ := History.exists_lift hw hs hleft
  obtain ⟨a, b, d, hrest, hrest'⟩ := hw.exists_rest_split hleft
  exact ⟨w', a, b, d, hlift, hunlift, hs.remaining.trans hrest, hs'.remaining.trans hrest'⟩

theorem unlift_eq {call : Nat} {before : WorkingList} (hl : Lifted h ((call, before) :: lifts) w) :
    w.unlift call = .ok before := by
  cases hl with
  | lift hl hmem hcall hlift =>
    obtain ⟨w', _, _, _, hlift', hunlift, _⟩ := hl.exists_lift hw hmem hcall
    rw [hlift] at hlift'
    cases hlift'
    exact hunlift

theorem foldlM_unlift {above below : List (Nat × WorkingList)} {call : Nat} {before : WorkingList}
    (hl : Lifted h (above ++ (call, before) :: below) w) :
    ((above.map (·.1)) ++ [call]).foldlM unlift w = .ok before := by
  induction above generalizing w with
  | nil =>
    rw [List.map_nil, List.nil_append, List.foldlM_cons, hl.unlift_eq hw]
    rfl
  | cons last above ih =>
    have hunlift : w.unlift last.1 = .ok last.2 := hl.unlift_eq hw
    cases hl with
    | lift hl => rw [List.map_cons, List.cons_append, List.foldlM_cons, hunlift]; exact ih hl

theorem foldlM_unlift_all (hl : Lifted h lifts w) :
    (lifts.map (·.1)).foldlM unlift w = ofHistory h := by
  induction hl with
  | start hfirst => exact hfirst.symm
  | @lift lifts w w' call hl hmem hcall hlift ih =>
    have hunlift := (Lifted.lift hl hmem hcall hlift).unlift_eq hw
    rw [List.map_cons, List.foldlM_cons, hunlift]
    exact ih

end Lifted

/-- Whichever calls are lifted, the circle shows the entries that are left in their order, a call
that is left can be lifted next, and the lists before the lifts come back one after another. -/
theorem lifts_undone [Operation Op] {h : History Op} (hc : h.Complete) :
    (∃ first, Lifted h [] first) ∧
    ∀ {lifts : List (Nat × WorkingList)} {w : WorkingList}, Lifted h lifts w →
      w.Circle w.remaining ∧
      w.remaining = (h.toList.map (·.1)).filter (fun i => h.callOf i ∉ lifts.map (·.1)) ∧
      (∀ call ∈ w.remaining, h.isCallAt call = true → ∃ w' a b d,
        w.lift call = .ok w' ∧ w'.unlift call = .ok w ∧ w'.Circle w'.remaining ∧
        w.remaining = a ++ call :: (b ++ h.mate call :: d) ∧ w'.remaining = a ++ (b ++ d)) ∧
      (∀ {above below : List (Nat × WorkingList)} {call : Nat} {before : WorkingList},
        lifts = above ++ (call, before) :: below →
        ((above.map (·.1)) ++ [call]).foldlM unlift w = .ok before) ∧
      (lifts.map (·.1)).foldlM unlift w = ofHistory h := by
  have hw := hc.wellPaired
  refine ⟨⟨h.firstList, .start (History.ofHistory_eq hw)⟩, fun {lifts w} hl => ?_⟩
  have hs := hl.shows hw
  refine ⟨hs.remaining ▸ hs.circle, ?_, ?_, fun hsplit => (hsplit ▸ hl).foldlM_unlift hw,
    hl.foldlM_unlift_all hw⟩
  · rw [hs.remaining, hw.rest_eq]
    simp only [List.mem_reverse]
  · intro call hmem hcall
    obtain ⟨w', a, b, d, hlift, hunlift, hsplit, hrest⟩ := hl.exists_lift hw hmem hcall
    have hs' := (Lifted.lift hl hmem hcall hlift).shows hw
    exact ⟨w', a, b, d, hlift, hunlift, hs'.remaining ▸ hs'.circle, hsplit, hrest⟩

def entangled : Log ByteSet.Op :=
  let log := (Log.ofCapacity 6).addCall (.contains 4) 0 |>.2
  let log := log.addCall (.insert 4) 1 |>.2
  let log := log.addRet 0 (.ret true) 0 |>.2
  let log := log.addCall (.contains 4) 0 |>.2
  let log := log.addRet 3 (.ret true) 0 |>.2
  log.addRet 1 (.ret true) 1 |>.2

theorem entangled_complete : entangled.Complete where
  recorded := by
    refine .addRet_of_isOk (.addRet_of_isOk (.addCall_of_isOk (.addRet_of_isOk (.addCall_of_isOk
      (.addCall_of_isOk (.ofCapacity 6) ?_) ?_) ?_) ?_) ?_) ?_
    all_goals decide +kernel
  matched := by decide +kernel

/-- The insertion is lifted first, from around the return of one look-up and all of the other. -/
theorem lifts_undone_entangled :
    (History.ofLog entangled).Complete ∧ ∃ lifts w, Lifted (History.ofLog entangled) lifts w ∧
      lifts.map (·.1) = [0, 3, 1] ∧ w.remaining = [] ∧
      [0, 3, 1].foldlM unlift w = ofHistory (History.ofLog entangled) := by
  have hc := History.complete_ofLog entangled_complete
  obtain ⟨⟨first, h₀⟩, hall⟩ := lifts_undone hc
  have next (calls : List Nat) (call : Nat) {lifts w}
      (hl : Lifted (History.ofLog entangled) lifts w)
      (hcalls : lifts.map (·.1) = calls)
      (hmem : call ∈ ((History.ofLog entangled).toList.map (·.1)).filter fun i =>
        (History.ofLog entangled).callOf i ∉ calls)
      (hcall : (History.ofLog entangled).isCallAt call = true) :
      ∃ w', Lifted (History.ofLog entangled) ((call, w) :: lifts) w' := by
    obtain ⟨_, hremaining, hlift, _⟩ := hall hl
    have hmem : call ∈ w.remaining := by rwa [hremaining, hcalls]
    obtain ⟨w', _, _, _, hlift, _⟩ := hlift call hmem hcall
    exact ⟨w', .lift hl hmem hcall hlift⟩
  obtain ⟨w₁, h₁⟩ := next [] 1 h₀ rfl (by decide +kernel) (by decide +kernel)
  obtain ⟨w₂, h₂⟩ := next [1] 3 h₁ rfl (by decide +kernel) (by decide +kernel)
  obtain ⟨w₃, h₃⟩ := next [3, 1] 0 h₂ rfl (by decide +kernel) (by decide +kernel)
  obtain ⟨_, hremaining, _, _, hundo⟩ := hall h₃
  have hnone : ((History.ofLog entangled).toList.map (·.1)).filter
      (fun i => (History.ofLog entangled).callOf i ∉ [0, 3, 1]) = [] := by decide +kernel
  exact ⟨hc, _, w₃, h₃, rfl, hremaining.trans hnone, hundo⟩

end WorkingList

end Linearizability
