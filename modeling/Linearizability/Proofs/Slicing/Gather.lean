import Linearizability.Proofs.History.Written
import Linearizability.Proofs.Slicing.Cut

/-!
# What sub-histories gather

Whatever history is cut, a sub-history is recorded entry by entry: it holds
what the entries of its part say, in their order, and nothing else. Pairs
are another matter, since they need both halves in one part.
-/

namespace Linearizability

variable {Op : Type}

theorem foldlM_cons_eq_ok {α β ε : Type} {step : β → α → Except ε β} {a : α} {l : List α}
    {b after : β} : (a :: l).foldlM step b = .ok after ↔
      ∃ next, step b a = .ok next ∧ l.foldlM step next = .ok after := by
  rw [List.foldlM_cons]
  cases step b a with
  | error e => exact ⟨nofun, nofun⟩
  | ok next => exact ⟨fun h => ⟨next, rfl, h⟩, fun ⟨_, hn, h⟩ => by cases hn; exact h⟩

theorem exists_foldlM_eq_ok {α β ε : Type} {step : β → α → Except ε β} {l : List α}
    (hstep : ∀ b, ∀ a ∈ l, ∃ next, step b a = .ok next) (b : β) :
    ∃ after, l.foldlM step b = .ok after := by
  induction l generalizing b with
  | nil => exact ⟨b, rfl⟩
  | cons a l ih =>
    obtain ⟨next, hn⟩ := hstep b a List.mem_cons_self
    obtain ⟨after, ha⟩ := ih (fun b x hx => hstep b x (List.mem_cons_of_mem a hx)) next
    exact ⟨after, foldlM_cons_eq_ok.mpr ⟨next, hn, ha⟩⟩

namespace Slices

theorem exists_sizes (count : Nat) {entries : List (Nat × Entry Op)}
    (hkeys : ∀ x ∈ entries, x.2.key.isSome) : ∃ counted, sizes count entries = .ok counted := by
  refine exists_foldlM_eq_ok (fun counted x hx => ?_) _
  obtain ⟨v, hv⟩ := Option.isSome_iff_exists.mp (hkeys x hx)
  exact ⟨counted.modify (v % count) (· + 1), by simp only [hv]⟩

variable [Operation Op]

def partOf (count : Nat) (e : Entry Op) : Nat := e.key.elim 0 (· % count)

/-! ## One entry -/

omit [Operation Op] in
theorem Cut.exists_of_append {cut after : Cut Op} {part ref : Nat}
    {add : Log Op → Except Fault Nat × Log Op} (happ : cut.append part add = (.ok ref, after)) :
    ∃ log next, cut.sublogs[part]? = some log ∧ add log = (.ok ref, next) ∧
      after.sublogs.size = cut.sublogs.size ∧
      ∀ q, after.sublogs[q]? = if q = part then some next else cut.sublogs[q]? := by
  cases hl : cut.sublogs[part]? with
  | none =>
    have hnot : ¬ part < cut.sublogs.size := by
      intro hlt
      rw [Array.getElem?_eq_getElem hlt] at hl
      cases hl
    rw [Cut.append, dif_neg hnot] at happ
    cases happ
  | some log =>
    obtain ⟨sublogs, happend, hsize, hget⟩ := Cut.exists_append hl add
    rw [happend] at happ
    obtain ⟨hok, rfl⟩ := Prod.mk.inj happ
    exact ⟨log, (add log).2, rfl, Prod.ext hok rfl, hsize, hget⟩

theorem Cut.exists_of_add {cut after : Cut Op} {ref : Nat} {e : Entry Op}
    (hadd : cut.add (ref, e) = .ok after) :
    ∃ log next, cut.sublogs[partOf cut.sublogs.size e]? = some log ∧ log.Extends [e.written] next ∧
      after.sublogs.size = cut.sublogs.size ∧
      ∀ q, after.sublogs[q]? =
        if q = partOf cut.sublogs.size e then some next else cut.sublogs[q]? := by
  simp only [Cut.add] at hadd
  cases hc : e.isCall with
  | true =>
    rw [hc, if_pos rfl] at hadd
    split at hadd
    · cases hadd
    · rename_i call sublogs calls happ
      cases hadd
      obtain ⟨log, next, hl, hok, hsize, hget⟩ := exists_of_append happ
      refine ⟨log, next, hl, ?_, hsize, hget⟩
      rw [Entry.written, hc]
      exact Log.extends_of_addCall hok
  | false =>
    rw [hc, if_neg Bool.false_ne_true] at hadd
    split at hadd
    · cases hadd
    · split at hadd
      · cases hadd
      · rename_i call _ ref next happ
        cases hadd
        obtain ⟨log, next, hl, hok, hsize, hget⟩ := exists_of_append happ
        refine ⟨log, next, hl, ?_, hsize, hget⟩
        rw [Entry.written, hc]
        exact Log.extends_of_addRet hok

/-! ## All entries -/

theorem Cut.extends_of_foldlM {entries : List (Nat × Entry Op)} {cut after : Cut Op}
    (hfold : entries.foldlM Cut.add cut = .ok after) :
    after.sublogs.size = cut.sublogs.size ∧ ∀ (p : Nat) (log : Log Op),
      cut.sublogs[p]? = some log → ∃ last, after.sublogs[p]? = some last ∧ log.Extends
        ((entries.filter fun x => partOf cut.sublogs.size x.2 = p).map (·.2.written)) last := by
  induction entries generalizing cut with
  | nil =>
    cases hfold
    exact ⟨rfl, fun p log hl => ⟨log, hl, .refl log⟩⟩
  | cons x entries ih =>
    obtain ⟨ref, e⟩ := x
    obtain ⟨next, hadd, hrest⟩ := foldlM_cons_eq_ok.mp hfold
    obtain ⟨old, new, hold, hext, hsize, hget⟩ := exists_of_add hadd
    obtain ⟨hsizes, hlogs⟩ := ih hrest
    rw [hsize] at hlogs
    refine ⟨hsizes.trans hsize, fun p log hl => ?_⟩
    rw [List.filter_cons]
    by_cases hp : partOf cut.sublogs.size e = p
    · rw [hp, hl, Option.some.injEq] at hold
      subst hold
      obtain ⟨last, hlast, hmore⟩ := hlogs p new (by rw [hget, hp, if_pos rfl])
      refine ⟨last, hlast, ?_⟩
      simp only [hp, decide_true, if_true, List.map_cons]
      exact hext.trans hmore
    · obtain ⟨last, hlast, hmore⟩ := hlogs p log (by rw [hget, if_neg (Ne.symm hp), hl])
      refine ⟨last, hlast, ?_⟩
      simp only [hp, decide_false, Bool.false_eq_true, if_false]
      exact hmore

/-- Every sub-history is recorded, and holds what the entries of its part say. -/
theorem exists_written {h : History Op} {count : Nat} {slices : Slices Op}
    (hs : Slices.ofHistory h count = .ok (.ok slices)) :
    slices.sublogs.size = count ∧ ∀ p < count, ∃ log, slices.sublogs[p]? = some log ∧
      log.Recorded ∧
      log.written = (h.toList.filter fun x => partOf count x.2 = p).map (·.2.written) := by
  unfold Slices.ofHistory at hs
  split at hs
  case isTrue => cases hs
  case isFalse =>
    cases hsizes : Slices.sizes count h.toList with
    | error e =>
      rw [hsizes] at hs
      cases hs
    | ok sizes =>
      rw [hsizes] at hs
      cases hfold : h.toList.foldlM Cut.add ⟨sizes.map .ofCapacity, []⟩ with
      | error f =>
        simp only [hfold, bind, Except.bind] at hs
        cases hs
      | ok cut =>
        simp only [hfold, bind, Except.bind] at hs
        cases hs
        obtain ⟨_, hsize, _⟩ := History.foldlM_sizes count
          (by intro sizes ref e; dsimp only; cases e.key <;> rfl) hsizes
        have hcount : (sizes.map .ofCapacity : Array (Log Op)).size = count := by simpa using hsize
        obtain ⟨hafter, hlogs⟩ := Cut.extends_of_foldlM hfold
        refine ⟨hafter.trans hcount, fun p hp => ?_⟩
        have hlt : p < sizes.size := by simpa [← hcount] using hp
        obtain ⟨log, hlog, hext⟩ := hlogs p (.ofCapacity sizes[p])
          (by rw [Array.getElem?_map, Array.getElem?_eq_getElem hlt]; rfl)
        refine ⟨log, hlog, hext.recorded (.ofCapacity _), ?_⟩
        rw [hext.written, hcount]
        rfl

end Slices

end Linearizability
