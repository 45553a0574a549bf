import Linearizability.Proofs.Search.Exploration
import Mathlib.Data.List.Lex
import Mathlib.Order.Bounds.Basic

/-!
# The least completion

For a lawful specification an exploration ends with the least completion of
its path in lexicographic order, or it is blocked and there is none. What a
memo knows is either no longer than the path, which no further configuration
is, or stuck. So a rejected configuration hides no completion.
-/

namespace Linearizability.History

variable {Op State : Type} [Specification State Op]

/-! ## Sound memos -/

def StuckAt (h : History Op) (c : Configuration State) : Prop :=
  ∃ path s, h.IsPath path ∧ (h.configuration path s == c) = true ∧ h.Stuck path s

/-- Of what the memo knows, all but paths of at most `depth` calls is stuck. -/
def Sound (h : History Op) (memo : Memo State) (depth : Nat) : Prop :=
  ∀ c, memo.Knows c → h.StuckAt c ∨
    ∃ path s, h.IsPath path ∧ (h.configuration path s == c) = true ∧ path.length ≤ depth

def Learns (h : History Op) (before after : Memo State) : Prop :=
  ∀ c, after.Knows c → before.Knows c ∨ h.StuckAt c

theorem Learns.refl (h : History Op) (memo : Memo State) : h.Learns memo memo :=
  fun _ hc => .inl hc

theorem Learns.trans {h : History Op} {m₁ m₂ m₃ : Memo State} (h₁ : h.Learns m₁ m₂)
    (h₂ : h.Learns m₂ m₃) : h.Learns m₁ m₃ :=
  fun c hc => (h₂ c hc).elim (h₁ c) .inr

theorem Sound.of_learns {h : History Op} {before after : Memo State} {depth : Nat}
    (hs : h.Sound before depth) (hl : h.Learns before after) : h.Sound after depth :=
  fun c hc => (hl c hc).elim (hs c) .inl

/-- What it means that `e` comes from exploring `path` from the state `s` on, with the memo
`memo` at the beginning. -/
def Settles (h : History Op) (path : List Nat) (s : State) (memo : Memo State) :
    Exploration State → Prop
  | .complete order _ => ∃ tail, order = path ++ tail ∧
      IsLeast {order | h.Completes (h.left path) s order} tail
  | .blocked l => h.Stuck path s ∧ h.Learns memo l.memo

theorem Settles.of_learns {h : History Op} {path : List Nat} {s : State} {before after : Memo State}
    {e : Exploration State} (hl : h.Learns before after) (he : h.Settles path s after e) :
    h.Settles path s before e := by
  cases e with
  | complete order l => exact he
  | blocked l => exact ⟨he.1, hl.trans he.2⟩

def Barren (h : History Op) (path : List Nat) (s : State) (call : Nat) : Prop :=
  ∀ order, ¬ h.Completes (h.left path) s (call :: order)

theorem barren_of_refused {h : History Op} {path : List Nat} {s : State} {call : Nat}
    (hn : h.next? s call = none) : h.Barren path s call := by
  intro order hc
  obtain ⟨_, _, s', hs', _⟩ := completes_cons_iff.mp hc
  rw [hn] at hs'
  cases hs'

theorem barren_of_stuck {h : History Op} {path : List Nat} {s next : State} {call : Nat}
    (hn : h.next? s call = some next) (hs : h.Stuck (path ++ [call]) next) :
    h.Barren path s call := by
  intro order hc
  obtain ⟨_, _, s', hs', hc'⟩ := completes_cons_iff.mp hc
  rw [hn] at hs'
  cases hs'
  rw [← left_snoc] at hc'
  exact hs order hc'

variable [Operation Op] {h : History Op} (hw : h.WellPaired)

section Blocked

include hw

/-- Behind a return no call may come first: the call of the return precedes it. -/
theorem stuck_of_barren {path passed ahead : List Nat} {s : State} {ret : Nat}
    (hrest : h.rest path = passed ++ ret :: ahead) (hret : h.isCallAt ret = false)
    (hbarren : ∀ i ∈ passed, h.Barren path s i) : h.Stuck path s := by
  have hmem : ret ∈ h.rest path := by rw [hrest]; simp
  have hlt := (mem_rest.mp hmem).1
  have hcall : h.mate ret ∈ h.left path := by
    refine mem_left_of_mem_rest (hw.mate_mem_rest hmem) ?_
    rw [hw.isCallAt_mate hlt, hret]
    rfl
  intro order hc
  cases order with
  | nil =>
    have hnil := hc.perm.nil_eq
    rw [← hnil] at hcall
    cases hcall
  | cons c order =>
    obtain ⟨hcl, hmin, _⟩ := completes_cons_iff.mp hc
    have hcr : c ∈ h.rest path := (List.mem_filter.mp hcl).1
    rw [hrest] at hcr
    rcases List.mem_append.mp hcr with hp | hp
    · exact hbarren c hp order hc
    · rcases List.mem_cons.mp hp with rfl | hp
      · rw [(mem_left.mp hcl).1] at hret
        cases hret
      · have hsorted := h.rest_pairwise path
        rw [hrest] at hsorted
        have hrc : ret < c :=
          (List.pairwise_cons.mp (List.pairwise_append.mp hsorted).2.1).1 c hp
        have hmr := hw.mate_lt_of_ret hlt hret
        refine hmin (h.mate ret) ?_ ?_
        · exact (List.Nodup.mem_erase_iff (h.left_nodup path)).mpr ⟨by omega, hcall⟩
        · rw [hw.precedes_iff (hw.mate_lt hlt), hw.mate_mate hlt]
          exact hrc

/-- A completion begins with a barren call or with `call`, or with a call behind it. -/
theorem isLeast_cons {path passed ahead tail : List Nat} {s next : State} {call : Nat}
    (hrest : h.rest path = passed ++ call :: ahead) (hfront : call ∈ h.front path)
    (hbarren : ∀ i ∈ passed, h.Barren path s i) (hn : h.next? s call = some next)
    (hleast : IsLeast {order | h.Completes (h.left (path ++ [call])) next order} tail) :
    IsLeast {order | h.Completes (h.left path) s order} (call :: tail) := by
  rw [left_snoc] at hleast
  obtain ⟨hleft, hmin⟩ := hw.mem_front_iff.mp hfront
  refine ⟨completes_cons_iff.mpr ⟨hleft, ?_, next, hn, hleast.1⟩, ?_⟩
  · exact fun d hd => hmin d (List.mem_of_mem_erase hd)
  · intro order horder
    cases order with
    | nil =>
      rw [horder.perm.nil_eq.symm] at hleft
      cases hleft
    | cons d order =>
      obtain ⟨hd, _, t, ht, horder'⟩ := completes_cons_iff.mp horder
      have hdr : d ∈ h.rest path := (List.mem_filter.mp hd).1
      rw [hrest] at hdr
      rcases List.mem_append.mp hdr with hdp | hdp
      · exact absurd horder (hbarren d hdp order)
      · rcases List.mem_cons.mp hdp with rfl | hda
        · rw [hn] at ht
          cases ht
          exact List.cons_le_cons d (hleast.2 horder')
        · have hsorted := h.rest_pairwise path
          rw [hrest] at hsorted
          have hcd : call < d :=
            (List.pairwise_cons.mp (List.pairwise_append.mp hsorted).2.1).1 d hda
          exact le_of_lt (List.cons_lt_cons_iff.mpr (.inl hcd))

end Blocked

/-! ## What a note adds -/

section Note

omit [Operation Op]

variable {memo : Memo State} {path : List Nat} {s : State}

theorem learns_note [LawfulSpecification State] (hp : h.IsPath path) (hs : h.Stuck path s) :
    h.Learns memo (memo.note (h.configuration path s)).2 := by
  intro x hx
  rcases Memo.knows_of_note hx with hx | hx
  · exact .inr ⟨path, s, hp, hx, hs⟩
  · exact .inl hx

theorem Sound.note [LawfulSpecification State] {depth : Nat} (hs : h.Sound memo depth)
    (hp : h.IsPath path) (hlen : path.length = depth + 1) :
    h.Sound (memo.note (h.configuration path s)).2 (depth + 1) := by
  intro x hx
  rcases Memo.knows_of_note hx with hx | hx
  · exact .inr ⟨path, s, hp, hx, le_of_eq hlen⟩
  · rcases hs x hx with hst | ⟨path', t, hp', hx', hle⟩
    · exact .inl hst
    · exact .inr ⟨path', t, hp', hx', by omega⟩

end Note

/-! ## One configuration -/

section Scan

variable [LawfulSpecification State]

theorem Sound.stuck {memo : Memo State} {path : List Nat} {s : State}
    (hw : h.WellPaired) {depth : Nat} (hs : h.Sound memo depth) (hp : h.IsPath path)
    (hlen : depth < path.length) (hk : memo.Knows (h.configuration path s)) : h.Stuck path s := by
  rcases hs _ hk with ⟨path', s', hp', he, hst⟩ | ⟨path', s', hp', he, hle⟩
  · exact hp'.stuck_congr hw hp he hst
  · have hm := (Configuration.beq_iff.mp he).1
    have := hp'.length_eq_of_marks hw hp hm
    omega

include hw

theorem scan_settles {below : List Nat → State → Ledger State → Exploration State}
    {path : List Nat} {s : State} (hp : h.IsPath path) (hne : h.left path ≠ [])
    (hbelow : ∀ i ∈ h.front path, ∀ (s : State) (l : Ledger State),
      h.Sound l.memo (path.length + 1) → h.Settles (path ++ [i]) s l.memo (below (path ++ [i]) s l))
    {passed ahead : List Nat} (hrest : h.rest path = passed ++ ahead)
    (hpassed : ∀ i ∈ passed, h.isCallAt i = true ∧ h.Barren path s i) {l : Ledger State}
    (hs : h.Sound l.memo path.length) :
    h.Settles path s l.memo (h.scan below path s ahead l) := by
  induction ahead generalizing passed l with
  | nil =>
    obtain ⟨i, hi, hret⟩ := hw.exists_ret_mem_rest hne
    rw [hrest, List.append_nil] at hi
    rw [(hpassed i hi).1] at hret
    cases hret
  | cons i ahead ih =>
    cases hi : h.isCallAt i with
    | false =>
      rw [scan_ret hi]
      exact ⟨stuck_of_barren hw hrest hi fun j hj => (hpassed j hj).2, Learns.refl h _⟩
    | true =>
      have hfront : i ∈ h.front path := by
        rw [front, hrest, List.takeWhile_append_of_pos fun j hj => (hpassed j hj).1,
          List.takeWhile_cons_of_pos hi]
        simp
      have hpi : h.IsPath (path ++ [i]) := hp.snoc hfront
      have hlen : (path ++ [i]).length = path.length + 1 := by simp
      -- once `i` is known to be barren, go on behind it
      have hgo : h.Barren path s i → ∀ l' : Ledger State, h.Learns l.memo l'.memo →
          h.Settles path s l.memo (h.scan below path s ahead l') := by
        intro hb l' hl
        have hrest' : h.rest path = (passed ++ [i]) ++ ahead := by rw [hrest]; simp
        have hpassed' : ∀ j ∈ passed ++ [i], h.isCallAt j = true ∧ h.Barren path s j := by
          intro j hj
          rcases List.mem_append.mp hj with hj | hj
          · exact hpassed j hj
          · rw [List.mem_singleton.mp hj]
            exact ⟨hi, hb⟩
        exact .of_learns hl (ih hrest' hpassed' (hs.of_learns hl))
      cases hn : h.next? s i with
      | none =>
        rw [scan_refused hi hn]
        exact hgo (barren_of_refused hn) _ (Learns.refl h _)
      | some next =>
        cases hm : l.tick.note (h.configuration (path ++ [i]) next) with
        | mk novel l' =>
          have hmemo : l'.memo = (l.memo.note (h.configuration (path ++ [i]) next)).2 :=
            (congrArg (·.2.memo) hm).symm
          have hlearns : h.Stuck (path ++ [i]) next → h.Learns l.memo l'.memo :=
            fun hst => hmemo ▸ learns_note hpi hst
          cases novel with
          | false =>
            rw [scan_known hi hn hm]
            have hst : h.Stuck (path ++ [i]) next :=
              hs.stuck hw hpi (by omega) (Memo.knows_of_note_rejects (congrArg (·.1) hm))
            exact hgo (barren_of_stuck hn hst) _ (hlearns hst)
          | true =>
            rw [scan_novel hi hn hm]
            have hs' : h.Sound l'.memo (path.length + 1) := hmemo ▸ hs.note hpi hlen
            have hsettles := hbelow i hfront next (l'.lift (path.length + 1)) hs'
            cases he : below (path ++ [i]) next (l'.lift (path.length + 1)) with
            | blocked l'' =>
              rw [he] at hsettles
              obtain ⟨hst, hl⟩ := hsettles
              exact hgo (barren_of_stuck hn hst) _ ((hlearns hst).trans hl)
            | complete order l'' =>
              rw [he] at hsettles
              obtain ⟨tail, rfl, hleast⟩ := hsettles
              exact ⟨i :: tail, by simp,
                isLeast_cons hw hrest hfront (fun j hj => (hpassed j hj).2) hn hleast⟩

/-! ## The whole search -/

theorem explore_settles {calls : Nat} {path : List Nat} (hp : h.IsPath path)
    (hlen : (h.left path).length = calls) (s : State) {l : Ledger State}
    (hs : h.Sound l.memo path.length) :
    h.Settles path s l.memo (h.explore calls path s l) := by
  induction calls generalizing path s l with
  | zero =>
    have hnil : h.left path = [] := List.length_eq_zero_iff.mp hlen
    refine ⟨[], by simp, ?_, ?_⟩
    · rw [hnil]
      exact completes_nil_iff.mpr rfl
    · intro order _
      exact le_of_not_gt (List.not_lt_nil order)
  | succ calls ih =>
    have hne : h.left path ≠ [] := List.ne_nil_of_length_eq_add_one hlen
    have hrest : h.rest path = [] ++ h.rest path := rfl
    refine scan_settles hw hp hne ?_ hrest (by simp) hs
    intro i hi s l hs
    exact ih (hp.snoc hi) (length_left_snoc hlen hi) s (by simpa using hs)

end Scan

end Linearizability.History
