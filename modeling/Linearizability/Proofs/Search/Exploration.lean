import Linearizability.Proofs.Search.Completion
import Linearizability.Search.Basic

/-!
# The search as a recursion

`explore` goes through the configurations in the order in which the search
does, by recursion on the number of calls that are left, and by recursion on
the entries ahead within one configuration. It ends with an order of all
calls, or at the first return that is left, where the search undoes its last
lift. What the search carries along beside its position is a ledger.
-/

namespace Linearizability

structure Ledger (State : Type) [BEq State] [Hashable State] where
  memo : Memo State
  cutoff : Nat
  stats : Stats

inductive Exploration (State : Type) [BEq State] [Hashable State] where
  | complete (order : List Nat) (ledger : Ledger State)
  /-- A return was met. -/
  | blocked (ledger : Ledger State)

namespace Ledger

variable {State : Type} [BEq State] [Hashable State]

def tick (l : Ledger State) : Ledger State :=
  { l with stats := { l.stats with iterations := l.stats.iterations + 1 } }

def pass (l : Ledger State) (id : Nat) : Ledger State := { l with cutoff := max l.cutoff id }

def note (l : Ledger State) (c : Configuration State) : Bool × Ledger State :=
  ((l.memo.note c).1, { l with memo := (l.memo.note c).2 })

def reject (l : Ledger State) : Ledger State :=
  { l with stats := { l.stats with rejections := l.stats.rejections + 1 } }

def lift (l : Ledger State) (depth : Nat) : Ledger State :=
  { l with stats := { l.stats with
      lifts := l.stats.lifts + 1, maxDepth := max l.stats.maxDepth depth } }

def undo (l : Ledger State) : Ledger State :=
  { l with stats := { l.stats with
      iterations := l.stats.iterations + 1, backtracks := l.stats.backtracks + 1 } }

end Ledger

namespace Exploration

variable {State : Type} [BEq State] [Hashable State]

def ledger : Exploration State → Ledger State
  | .complete _ l => l
  | .blocked l => l

/-- The iterations so far, with those that are still to come before the search has left the
configuration. -/
def cost : Exploration State → Nat
  | .complete _ l => l.stats.iterations + 1
  | .blocked l => l.stats.iterations + 2

theorem cost_le (e : Exploration State) : e.cost ≤ e.ledger.stats.iterations + 2 := by
  cases e <;> simp [cost, ledger]

end Exploration

namespace History

variable {Op State : Type} [Specification State Op]

/-- Go through the entries ahead. Below a call that is lifted the search goes on as `below` says. -/
def scan (h : History Op) (below : List Nat → State → Ledger State → Exploration State)
    (path : List Nat) (s : State) : (ahead : List Nat) → Ledger State → Exploration State
  | [], l => .blocked l
  | i :: ahead, l =>
    if h.isCallAt i then
      match h.next? s i with
      | none => h.scan below path s ahead (l.tick.pass (h.idAt (ahead.headD i)))
      | some next =>
        match l.tick.note (h.configuration (path ++ [i]) next) with
        | (false, l) => h.scan below path s ahead (l.reject.pass (h.idAt (ahead.headD i)))
        | (true, l) =>
          match below (path ++ [i]) next (l.lift (path.length + 1)) with
          | .complete order l => .complete order l
          | .blocked l => h.scan below path s ahead l.undo
    else .blocked l

/-- Search on from a path that leaves `calls` calls. -/
def explore (h : History Op) : (calls : Nat) → List Nat → State → Ledger State → Exploration State
  | 0, path, _, l => .complete path l
  | calls + 1, path, s, l => h.scan (h.explore calls) path s (h.rest path) l

/-! ## One call ahead -/

section

variable {h : History Op} {below : List Nat → State → Ledger State → Exploration State}
  {path : List Nat} {s next : State} {i : Nat} {ahead : List Nat} {l l' : Ledger State}

theorem scan_ret (hi : h.isCallAt i = false) : h.scan below path s (i :: ahead) l = .blocked l := by
  simp [scan, hi]

theorem scan_refused (hi : h.isCallAt i = true) (hn : h.next? s i = none) :
    h.scan below path s (i :: ahead) l =
      h.scan below path s ahead (l.tick.pass (h.idAt (ahead.headD i))) := by
  simp only [scan, hi, if_true, hn]

theorem scan_known (hi : h.isCallAt i = true) (hn : h.next? s i = some next)
    (hm : l.tick.note (h.configuration (path ++ [i]) next) = (false, l')) :
    h.scan below path s (i :: ahead) l =
      h.scan below path s ahead (l'.reject.pass (h.idAt (ahead.headD i))) := by
  simp only [scan, hi, if_true, hn, hm]

theorem scan_novel (hi : h.isCallAt i = true) (hn : h.next? s i = some next)
    (hm : l.tick.note (h.configuration (path ++ [i]) next) = (true, l')) :
    h.scan below path s (i :: ahead) l =
      match below (path ++ [i]) next (l'.lift (path.length + 1)) with
      | .complete order l => .complete order l
      | .blocked l => h.scan below path s ahead l.undo := by
  simp only [scan, hi, if_true, hn, hm]

end

/-! ## The number of iterations -/

theorem iterations_note {State : Type} [BEq State] [Hashable State] {l l' : Ledger State}
    {c : Configuration State} {b : Bool} (h : l.tick.note c = (b, l')) :
    l'.stats.iterations = l.stats.iterations + 1 := by
  have hl' : l' = (l.tick.note c).2 := by rw [h]
  rw [hl']
  rfl

theorem scan_iterations {h : History Op}
    {below : List Nat → State → Ledger State → Exploration State} {bound : Nat} (hpos : 0 < bound)
    {path : List Nat} (hbelow : ∀ i ∈ h.left path, ∀ (s : State) (l : Ledger State),
      (below (path ++ [i]) s l).cost ≤ l.stats.iterations + bound)
    (s : State) {ahead : List Nat} (hahead : ahead ⊆ h.rest path) (l : Ledger State) :
    (h.scan below path s ahead l).ledger.stats.iterations ≤
      l.stats.iterations + ahead.countP h.isCallAt * bound := by
  induction ahead generalizing l with
  | nil => simp [scan, Exploration.ledger]
  | cons i ahead ih =>
    have ih := ih fun j hj => hahead (List.mem_cons_of_mem _ hj)
    cases hi : h.isCallAt i with
    | false =>
      rw [scan_ret hi]
      exact Nat.le_add_right _ _
    | true =>
      rw [List.countP_cons_of_pos hi, Nat.succ_mul]
      cases hn : h.next? s i with
      | none =>
        rw [scan_refused hi hn]
        have := ih (l.tick.pass (h.idAt (ahead.headD i)))
        simp only [Ledger.pass, Ledger.tick] at this ⊢
        omega
      | some next =>
        cases hm : l.tick.note (h.configuration (path ++ [i]) next) with
        | mk novel l' =>
          have hl' := iterations_note hm
          cases novel with
          | false =>
            rw [scan_known hi hn hm]
            have := ih (l'.reject.pass (h.idAt (ahead.headD i)))
            simp only [Ledger.pass, Ledger.reject] at this ⊢
            omega
          | true =>
            rw [scan_novel hi hn hm]
            have hleft := mem_left_of_mem_rest (hahead List.mem_cons_self) hi
            have hb := hbelow i hleft next (l'.lift (path.length + 1))
            have hlift : (l'.lift (path.length + 1)).stats.iterations = l'.stats.iterations := rfl
            cases he : below (path ++ [i]) next (l'.lift (path.length + 1)) with
            | complete order l'' =>
              rw [he] at hb
              simp only [Exploration.cost, Exploration.ledger] at hb ⊢
              omega
            | blocked l'' =>
              rw [he] at hb
              have := ih l''.undo
              simp only [Exploration.cost, Ledger.undo] at hb this ⊢
              omega

theorem explore_cost {h : History Op} {calls : Nat} {path : List Nat}
    (hc : (h.left path).length ≤ calls) (s : State) (l : Ledger State) :
    (h.explore calls path s l).cost ≤ l.stats.iterations + Search.bound calls := by
  induction calls generalizing path s l with
  | zero => exact Nat.le_refl _
  | succ calls ih =>
    have hpos : 0 < Search.bound calls := by cases calls <;> simp [Search.bound]
    have hbelow : ∀ i ∈ h.left path, ∀ (s : State) (l : Ledger State),
        (h.explore calls (path ++ [i]) s l).cost ≤ l.stats.iterations + Search.bound calls := by
      intro i hi
      refine ih ?_
      rw [left_snoc, List.length_erase_of_mem hi]
      omega
    have hscan := scan_iterations hpos hbelow s (List.Subset.refl _) l
    have hcount : (h.rest path).countP h.isCallAt ≤ calls + 1 := by
      rw [List.countP_eq_length_filter]
      exact hc
    have hmul := Nat.mul_le_mul_right (Search.bound calls) hcount
    have hcost := Exploration.cost_le (h.explore (calls + 1) path s l)
    simp only [explore, Search.bound] at hcost ⊢
    omega

end History

end Linearizability
