import Linearizability.Proofs.History.Attempts

/-!
# What recording writes

A thread says which operation it calls or which one has returned, and a log
puts what it says at the end. Links, ids and pairs are made by the log, and
making them changes nothing of what was written before.
-/

namespace Linearizability

variable {Op : Type}

/-- What a thread has to say for an entry to be recorded, apart from which call a return is of. -/
def Entry.written (e : Entry Op) : Op × Nat × Bool := (e.op, e.thread, e.isCall)

def callsOf (thread : Nat) (written : List (Op × Nat × Bool)) : List Op :=
  (written.filter fun w => w.2.2 && w.2.1 == thread).map (·.1)

theorem callsOf_append (thread : Nat) (first second : List (Op × Nat × Bool)) :
    callsOf thread (first ++ second) = callsOf thread first ++ callsOf thread second := by
  rw [callsOf, List.filter_append, List.map_append, callsOf, callsOf]

theorem callsOf_call (op : Op) (thread : Nat) : callsOf thread [(op, thread, true)] = [op] := by
  simp [callsOf]

theorem callsOf_of_ne {thread other : Nat} (hne : other ≠ thread) (op : Op) (isCall : Bool) :
    callsOf thread [(op, other, isCall)] = [] := by
  simp [callsOf, hne]

namespace Log

def written (log : Log Op) : List (Op × Nat × Bool) := log.entries.toList.map Entry.written

theorem map_toList_modify {α β : Type} (as : Array α) (i : Nat) (f : α → α) {g : α → β}
    (hf : ∀ a, g (f a) = g a) : (as.modify i f).toList.map g = as.toList.map g := by
  apply List.ext_getElem?
  intro j
  simp only [List.getElem?_map, Array.getElem?_toList, Array.getElem?_modify]
  split
  · rw [Option.map_map, show g ∘ f = g from funext hf]
  · rfl

/-- Appending changes links alone. -/
theorem map_push {α : Type} {g : Entry Op → α}
    (hg : ∀ e prev next, g { e with prev, next } = g e) (log : Log Op)
    (room : log.size < log.capacity) (e : Entry Op) :
    (log.push e).2.entries.toList.map g = log.entries.toList.map g ++ [g e] := by
  unfold push
  rw [if_pos room]
  simp only [Array.toList_push, List.map_append, List.map_cons, List.map_nil]
  congr 1
  · exact map_toList_modify _ _ _ fun x => hg x x.prev _
  · exact congrArg (fun a => [a]) (hg e _ e.next)

theorem written_pair (log : Log Op) (call ret id : Nat) (key : Option Nat) :
    ({ log with entries := pair log.entries call ret id key } : Log Op).written = log.written := by
  unfold written pair
  refine (map_toList_modify _ _ _ ?_).trans (map_toList_modify _ _ _ ?_)
  · exact fun _ => rfl
  · exact fun _ => rfl

variable [Operation Op]

/-- `after` was recorded on top of `log` by writing `more`. -/
structure Extends (log : Log Op) (more : List (Op × Nat × Bool)) (after : Log Op) : Prop where
  recorded : log.Recorded → after.Recorded
  written : after.written = log.written ++ more

theorem Extends.refl (log : Log Op) : log.Extends [] log where
  recorded := id
  written := (List.append_nil _).symm

theorem Extends.trans {log next last : Log Op} {first second : List (Op × Nat × Bool)}
    (hn : log.Extends first next) (hl : next.Extends second last) :
    log.Extends (first ++ second) last where
  recorded h := hl.recorded (hn.recorded h)
  written := by rw [hl.written, hn.written, List.append_assoc]

theorem extends_of_addCall {log after : Log Op} {op : Op} {thread call : Nat}
    (hadd : log.addCall op thread = (.ok call, after)) :
    log.Extends [(op, thread, true)] after where
  recorded h := .addCall h hadd
  written := by
    obtain ⟨room, _, rfl⟩ := eq_of_addCall hadd
    exact map_push (fun _ _ _ => rfl) { log with nextId := log.nextId + 1 } room _

theorem extends_of_addRet {log after : Log Op} {op : Op} {call thread ret : Nat}
    (hadd : log.addRet call op thread = (.ok ret, after)) :
    log.Extends [(op, thread, false)] after where
  recorded h := .addRet h hadd
  written := by
    obtain ⟨_, room, _, id, key, _, rfl⟩ := exists_of_addRet hadd
    rw [written_pair]
    exact map_push (fun _ _ _ => rfl) log room _

end Log

end Linearizability
