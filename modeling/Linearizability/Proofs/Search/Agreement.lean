import Linearizability.Proofs.Search.Exploration
import Linearizability.Proofs.Search.Plain

/-!
# Searching with and without a memo

A configuration is spent at a cutoff when probing it from there finds no
order and leaves the cutoff as it is. What a memo knows is spent by the time
it is met again. A rejection therefore saves a probe that would have changed
nothing, and the entry behind the rejected call has an id that was reached
before.
-/

namespace Linearizability.History

variable {Op State : Type} [Specification State Op]

/-! ## Spent configurations -/

/-- Probing the path again from the cutoff `k` changes nothing. -/
def Fruitless (h : History Op) (k : Nat) (path : List Nat) (s : State) : Prop :=
  h.probe (h.left path).length path s k = ⟨none, k⟩

def Spent (h : History Op) (k : Nat) (c : Configuration State) : Prop :=
  ∃ path s, h.IsPath path ∧ (h.configuration path s == c) = true ∧ h.Fruitless k path s

/-- Of what the memo knows, all but paths of at most `depth` calls is spent. -/
def Exhausts (h : History Op) (memo : Memo State) (depth k : Nat) : Prop :=
  ∀ c, memo.Knows c → h.Spent k c ∨
    ∃ path s, h.IsPath path ∧ (h.configuration path s == c) = true ∧ path.length ≤ depth

def Gains (h : History Op) (k : Nat) (before after : Memo State) : Prop :=
  ∀ c, after.Knows c → before.Knows c ∨ h.Spent k c

section

variable {h : History Op} {k k' depth calls : Nat} {path : List Nat} {s : State}

theorem Fruitless.mono (hf : h.Fruitless k path s) (hk : k ≤ k') : h.Fruitless k' path s := by
  have hraise := probe_raise h (h.left path).length path s k' k
  rw [Nat.max_eq_left hk, hf, Probe.raise] at hraise
  rw [Fruitless, hraise, Nat.max_eq_left hk]

theorem fruitless_of_probe (hlen : (h.left path).length = calls)
    (hp : h.probe calls path s k = ⟨none, k'⟩) : h.Fruitless k' path s := by
  have hk := le_cutoff_probe h calls path s k
  have hraise := probe_raise h calls path s k' k
  rw [hp] at hk hraise
  rw [Nat.max_eq_left hk, Probe.raise, Nat.max_self] at hraise
  rw [Fruitless, hlen, hraise]

theorem Spent.mono {c : Configuration State} (hs : h.Spent k c) (hk : k ≤ k') : h.Spent k' c := by
  obtain ⟨path, s, hp, he, hf⟩ := hs
  exact ⟨path, s, hp, he, hf.mono hk⟩

theorem Gains.refl (h : History Op) (k : Nat) (memo : Memo State) : h.Gains k memo memo :=
  fun _ hc => .inl hc

theorem Gains.trans {m₁ m₂ m₃ : Memo State} (h₁ : h.Gains k m₁ m₂) (h₂ : h.Gains k' m₂ m₃)
    (hk : k ≤ k') : h.Gains k' m₁ m₃ :=
  fun c hc => (h₂ c hc).elim (fun hc => (h₁ c hc).imp_right (·.mono hk)) .inr

theorem Exhausts.of_gains {before after : Memo State} (he : h.Exhausts before depth k)
    (hg : h.Gains k' before after) (hk : k ≤ k') : h.Exhausts after depth k' :=
  fun c hc => (hg c hc).elim (fun hc => (he c hc).imp_left (·.mono hk)) .inl

end

section Lawful

variable [LawfulSpecification State] {h : History Op} {k depth : Nat} {memo : Memo State}
  {path : List Nat} {s : State}

theorem gains_note (hp : h.IsPath path) (hf : h.Fruitless k path s) :
    h.Gains k memo (memo.note (h.configuration path s)).2 := by
  intro x hx
  rcases Memo.knows_of_note hx with hx | hx
  · exact .inr ⟨path, s, hp, hx, hf⟩
  · exact .inl hx

theorem Exhausts.note (he : h.Exhausts memo depth k) (hp : h.IsPath path)
    (hlen : path.length = depth + 1) :
    h.Exhausts (memo.note (h.configuration path s)).2 (depth + 1) k := by
  intro x hx
  rcases Memo.knows_of_note hx with hx | hx
  · exact .inr ⟨path, s, hp, hx, le_of_eq hlen⟩
  · refine (he x hx).imp_right ?_
    rintro ⟨path', t, hp', hx', hle⟩
    exact ⟨path', t, hp', hx', by omega⟩

variable [Operation Op] (hw : h.WellPaired)

include hw

theorem IsPath.fruitless_congr {path' : List Nat} {s' : State} (hp : h.IsPath path)
    (hp' : h.IsPath path') (he : (h.configuration path s == h.configuration path' s') = true)
    (hf : h.Fruitless k path s) : h.Fruitless k path' s' := by
  obtain ⟨hm, hss⟩ := Configuration.beq_iff.mp he
  have hmem := hp.mem_iff_of_marks hw hp' hm
  rw [Fruitless, ← left_congr hmem]
  exact (probe_congr hmem hss _ k).symm.trans hf

theorem Exhausts.fruitless (he : h.Exhausts memo depth k) (hp : h.IsPath path)
    (hlen : depth < path.length) (hk : memo.Knows (h.configuration path s)) :
    h.Fruitless k path s := by
  rcases he _ hk with ⟨path', s', hp', heq, hf⟩ | ⟨path', s', hp', heq, hle⟩
  · exact hp'.fruitless_congr hw hp heq hf
  · have := hp'.length_eq_of_marks hw hp (Configuration.beq_iff.mp heq).1
    omega

end Lawful

/-! ## The same end -/

/-- An exploration with the memo `memo` at the beginning ends as the probe does. -/
def Agrees (h : History Op) (path : List Nat) (memo : Memo State) (p : Probe) :
    Exploration State → Prop
  | .complete order l => ∃ tail, order = path ++ tail ∧ p = ⟨some tail, l.cutoff⟩
  | .blocked l => p = ⟨none, l.cutoff⟩ ∧ h.Gains l.cutoff memo l.memo

theorem Agrees.of_gains {h : History Op} {path : List Nat} {before after : Memo State} {k : Nat}
    {p : Probe} {e : Exploration State} (ha : h.Agrees path after p e) (hg : h.Gains k before after)
    (hk : k ≤ p.cutoff) : h.Agrees path before p e := by
  cases e with
  | complete order l => exact ha
  | blocked l =>
    obtain ⟨rfl, hl⟩ := ha
    exact ⟨rfl, hg.trans hl hk⟩

variable [Operation Op] [LawfulSpecification State] {h : History Op} (hw : h.WellPaired)

include hw

theorem scan_agrees {calls : Nat} {path : List Nat} (hp : h.IsPath path)
    (hlen : (h.left path).length = calls + 1)
    (hbelow : ∀ i ∈ h.front path, ∀ (s : State) (l : Ledger State),
      h.Exhausts l.memo (path.length + 1) l.cutoff → h.Agrees (path ++ [i]) l.memo
        (h.probe calls (path ++ [i]) s l.cutoff) (h.explore calls (path ++ [i]) s l))
    {passed ahead : List Nat} (hrest : h.rest path = passed ++ ahead)
    (hpassed : ∀ c ∈ passed, h.isCallAt c = true) {s : State} {l : Ledger State}
    (hnext : passed ≠ [] → ∀ i ∈ ahead.head?, h.idAt i ≤ l.cutoff)
    (he : h.Exhausts l.memo path.length l.cutoff) :
    h.Agrees path l.memo (h.probeAhead (h.probe calls) path s ahead l.cutoff)
      (h.scan (h.explore calls) path s ahead l) := by
  induction ahead generalizing passed l with
  | nil => exact ⟨rfl, Gains.refl h _ _⟩
  | cons i ahead ih =>
    cases hi : h.isCallAt i with
    | false =>
      rw [scan_ret hi, probeAhead_ret hi]
      exact ⟨rfl, Gains.refl h _ _⟩
    | true =>
      obtain ⟨j, behind, rfl⟩ := exists_next hw hrest hpassed hi
      have hsplit : h.rest path = (passed ++ [i]) ++ j :: behind := by rw [hrest]; simp
      have hcalls : ∀ c ∈ passed ++ [i], h.isCallAt c = true :=
        List.forall_mem_append.mpr ⟨hpassed, List.forall_mem_singleton.mpr hi⟩
      have hfront : i ∈ h.front path := subset_front hsplit hcalls (by simp)
      have hpi : h.IsPath (path ++ [i]) := hp.snoc hfront
      have hlen' := length_left_snoc hlen hfront
      have hik : passed ≠ [] → h.idAt i ≤ l.cutoff := fun hne => hnext hne i rfl
      -- both go on behind `i`, from a cutoff that has come to `j`
      have hgo : ∀ l' : Ledger State, l.cutoff ≤ l'.cutoff → h.idAt j ≤ l'.cutoff →
          h.Gains l'.cutoff l.memo l'.memo →
          h.Agrees path l.memo (h.probeAhead (h.probe calls) path s (j :: behind) l'.cutoff)
            (h.scan (h.explore calls) path s (j :: behind) l') := by
        intro l' hk hj hg
        have hle := le_cutoff_probeAhead h calls path s (j :: behind) l'.cutoff
        exact (ih hsplit hcalls (fun _ j' hj' => by cases hj'; exact hj) (he.of_gains hg hk)).of_gains
          hg hle
      cases hn : h.next? s i with
      | none =>
        rw [scan_refused hi hn, probeAhead_refused hi hn]
        exact hgo (l.tick.pass (h.idAt j)) (Nat.le_max_left _ _) (Nat.le_max_right _ _)
          (Gains.refl h _ _)
      | some next =>
        cases hm : l.tick.note (h.configuration (path ++ [i]) next) with
        | mk novel l' =>
          have hmemo : l'.memo = (l.memo.note (h.configuration (path ++ [i]) next)).2 :=
            (congrArg (·.2.memo) hm).symm
          have hcutoff : l'.cutoff = l.cutoff := (congrArg (·.2.cutoff) hm).symm
          -- a fruitless probe below `i` has come to `j`
          have hreach : ∀ {k}, l.cutoff ≤ k → h.Fruitless k (path ++ [i]) next → h.idAt j ≤ k := by
            intro k hk hf
            rw [Fruitless, hlen'] at hf
            have hreaches := probe_reaches hw hlen' next k (congrArg Probe.tail hf)
            rw [hf] at hreaches
            exact idAt_next_le hw hrest hpassed hi (left_ne_nil_of_probe hlen' (congrArg Probe.tail hf))
              hreaches fun hne => le_trans (hik hne) hk
          cases novel with
          | false =>
            have hf : h.Fruitless l.cutoff (path ++ [i]) next :=
              he.fruitless hw hpi (by simp) (Memo.knows_of_note_rejects (congrArg (·.1) hm))
            have hj := hreach (Nat.le_refl _) hf
            have hpass : (l'.reject.pass (h.idAt j)).cutoff = l.cutoff := by
              show max l'.cutoff (h.idAt j) = l.cutoff
              rw [hcutoff, Nat.max_eq_left hj]
            rw [Fruitless, hlen'] at hf
            rw [scan_known hi hn hm, probeAhead_missed hi hn hf, ← hpass]
            refine hgo (l'.reject.pass (h.idAt j)) (le_of_eq hpass.symm) (hpass ▸ hj) ?_
            show h.Gains _ l.memo l'.memo
            rw [hmemo, hpass]
            exact gains_note hpi (fruitless_of_probe hlen' hf)
          | true =>
            have he' : h.Exhausts l'.memo (path.length + 1) l'.cutoff := by
              rw [hmemo, hcutoff]
              exact he.note hpi (by simp)
            have hagrees := hbelow i hfront next (l'.lift (path.length + 1)) he'
            have hk : (l'.lift (path.length + 1)).cutoff = l.cutoff := hcutoff
            rw [scan_novel hi hn hm]
            rw [hk] at hagrees
            cases hx : h.explore calls (path ++ [i]) next (l'.lift (path.length + 1)) with
            | complete order l'' =>
              rw [hx] at hagrees
              obtain ⟨tail, rfl, hprobe⟩ := hagrees
              rw [probeAhead_found hi hn hprobe]
              exact ⟨i :: tail, by simp, rfl⟩
            | blocked l'' =>
              rw [hx] at hagrees
              obtain ⟨hprobe, hg⟩ := hagrees
              have hle := le_cutoff_probe h calls (path ++ [i]) next l.cutoff
              rw [hprobe] at hle
              have hf := fruitless_of_probe hlen' hprobe
              rw [probeAhead_missed hi hn hprobe]
              refine hgo l''.undo hle (hreach hle hf) ?_
              have hnote : h.Gains l''.cutoff l.memo l'.memo := hmemo ▸ gains_note hpi hf
              exact hnote.trans hg (Nat.le_refl _)

/-- A search with a memo comes to the same order as a search without one, or comes back from the
same paths, and its cutoff is the same. -/
theorem explore_agrees {calls : Nat} {path : List Nat} (hp : h.IsPath path)
    (hlen : (h.left path).length = calls) (s : State) {l : Ledger State}
    (he : h.Exhausts l.memo path.length l.cutoff) :
    h.Agrees path l.memo (h.probe calls path s l.cutoff) (h.explore calls path s l) := by
  induction calls generalizing path s l with
  | zero => exact ⟨[], by simp, rfl⟩
  | succ calls ih =>
    refine scan_agrees hw hp hlen ?_ (List.nil_append _).symm (by simp) (by simp) he
    intro i hi s l he
    exact ih (hp.snoc hi) (length_left_snoc hlen hi) s (by simpa using he)

end Linearizability.History
