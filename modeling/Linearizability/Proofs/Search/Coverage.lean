import Linearizability.Proofs.Search.Least
import Mathlib.Data.List.Induction

/-!
# What an exploration has seen

Below a path every change of the ledger is one of six, and what all of them
keep an exploration keeps. A memo covers a path when it knows every
configuration that is accepted on from there. A memo that forgets nothing
covers each path that was explored in vain. So by the time it rejects a
configuration there is nothing new below.
-/

namespace Linearizability.History

variable {Op State : Type} [Specification State Op]

/-! ## Going on from a path -/

theorem IsPath.of_append {h : History Op} {path tail : List Nat} (hp : h.IsPath (path ++ tail)) :
    h.IsPath path := by
  induction tail using List.reverseRecOn with
  | nil => rwa [List.append_nil] at hp
  | append_singleton tail call ih =>
    rw [← List.append_assoc] at hp
    exact ih hp.of_snoc.1

theorem IsPath.append_congr {h : History Op} {path path' tail : List Nat} (hp' : h.IsPath path')
    (hm : ∀ c, c ∈ path ↔ c ∈ path') (hp : h.IsPath (path ++ tail)) : h.IsPath (path' ++ tail) := by
  induction tail using List.reverseRecOn with
  | nil => rwa [List.append_nil]
  | append_singleton tail call ih =>
    rw [← List.append_assoc] at hp ⊢
    obtain ⟨hp, hf⟩ := hp.of_snoc
    refine (ih hp).snoc ?_
    have hmem : ∀ c, c ∈ path ++ tail ↔ c ∈ path' ++ tail := fun c => by
      rw [List.mem_append, List.mem_append, hm c]
    rwa [front, ← rest_congr hmem]

theorem marks_append {h : History Op} {path path' : List Nat} (hm : h.marks path = h.marks path')
    (tail : List Nat) : h.marks (path ++ tail) = h.marks (path' ++ tail) := by
  rw [marks, marks, List.foldl_append, List.foldl_append]
  exact congrArg (fun b => tail.foldl _ b) hm

structure Leads (h : History Op) (path : List Nat) (s : State) (tail : List Nat) (t : State) :
    Prop where
  path : h.IsPath (path ++ tail)
  accepted : h.replay? s tail = some t

theorem Leads.cons {h : History Op} {path tail : List Nat} {s next t : State} {call : Nat}
    (hn : h.next? s call = some next) (hl : h.Leads (path ++ [call]) next tail t) :
    h.Leads path s (call :: tail) t where
  path := by simpa using hl.path
  accepted := by rw [replay?_cons, hn]; exact hl.accepted

theorem Leads.cases {h : History Op} {path tail : List Nat} {s t : State}
    (hl : h.Leads path s tail t) :
    (tail = [] ∧ t = s) ∨ ∃ call rest next, tail = call :: rest ∧ call ∈ h.front path ∧
      h.next? s call = some next ∧ h.Leads (path ++ [call]) next rest t := by
  obtain ⟨hp, ha⟩ := hl
  cases tail with
  | nil => exact .inl ⟨rfl, (Option.some.inj ha).symm⟩
  | cons call rest =>
    rw [List.append_cons] at hp
    rw [replay?_cons, Option.bind_eq_some_iff] at ha
    obtain ⟨next, hn, ha⟩ := ha
    exact .inr ⟨call, rest, next, rfl, hp.of_append.of_snoc.2, hn, hp, ha⟩

theorem replay?_congr [LawfulSpecification State] {h : History Op} {s s' t : State}
    {order : List Nat} (hst : (s == s') = true) (ht : h.replay? s order = some t) :
    ∃ t', h.replay? s' order = some t' ∧ (t == t') = true := by
  induction order generalizing s s' with
  | nil =>
    cases ht
    exact ⟨s', rfl, hst⟩
  | cons call order ih =>
    rw [replay?_cons, Option.bind_eq_some_iff] at ht
    obtain ⟨next, hn, ht⟩ := ht
    obtain ⟨next', hn', hnn⟩ := next?_congr hst hn
    obtain ⟨t', ht', htt⟩ := ih hnn ht
    exact ⟨t', by rw [replay?_cons, hn']; exact ht', htt⟩

/-! ## What an exploration keeps -/

/-- `P` is kept by every change of the ledger that exploring `path` from the state `s` may make. -/
structure Kept (h : History Op) (path : List Nat) (s : State) (P : Ledger State → Prop) : Prop where
  tick : ∀ {l : Ledger State}, P l → P l.tick
  pass : ∀ {l : Ledger State} (id : Nat), P l → P (l.pass id)
  note : ∀ {l : Ledger State} {tail : List Nat} {t : State}, h.Leads path s tail t → P l →
    P (l.note (h.configuration (path ++ tail) t)).2
  reject : ∀ {l : Ledger State}, P l → P l.reject
  lift : ∀ {l : Ledger State} (depth : Nat), P l → P (l.lift depth)
  undo : ∀ {l : Ledger State}, P l → P l.undo

section

variable {h : History Op} {path : List Nat} {s : State} {P : Ledger State → Prop}

theorem Kept.below (hk : h.Kept path s P) {call : Nat} {next : State}
    (hn : h.next? s call = some next) : h.Kept (path ++ [call]) next P where
  tick := hk.tick
  pass := hk.pass
  note hl hp := by
    rw [← List.append_cons]
    exact hk.note (hl.cons hn) hp
  reject := hk.reject
  lift := hk.lift
  undo := hk.undo

theorem scan_kept (hp : h.IsPath path) (hk : h.Kept path s P) {calls : Nat}
    (hbelow : ∀ i ∈ h.front path, ∀ {next : State} {l : Ledger State}, h.next? s i = some next →
      P l → P (h.explore calls (path ++ [i]) next l).ledger)
    {passed ahead : List Nat} (hrest : h.rest path = passed ++ ahead)
    (hpassed : ∀ c ∈ passed, h.isCallAt c = true) {l : Ledger State} (hl : P l) :
    P (h.scan (h.explore calls) path s ahead l).ledger := by
  induction ahead generalizing passed l with
  | nil => exact hl
  | cons i ahead ih =>
    cases hi : h.isCallAt i with
    | false =>
      rw [scan_ret hi]
      exact hl
    | true =>
      obtain ⟨hsplit, hcalls, hfront⟩ := passed_snoc hrest hpassed hi
      cases hn : h.next? s i with
      | none =>
        rw [scan_refused hi hn]
        exact ih hsplit hcalls (hk.pass _ (hk.tick hl))
      | some next =>
        have hlead : h.Leads path s [i] next := ⟨hp.snoc hfront, by rw [replay?_cons, hn]; rfl⟩
        have hnote := hk.note hlead (hk.tick hl)
        cases hm : l.tick.note (h.configuration (path ++ [i]) next) with
        | mk novel l' =>
          rw [hm] at hnote
          cases novel with
          | false =>
            rw [scan_known hi hn hm]
            exact ih hsplit hcalls (hk.pass _ (hk.reject hnote))
          | true =>
            have hb := hbelow i hfront hn (hk.lift (path.length + 1) hnote)
            rw [scan_novel hi hn hm]
            cases he : h.explore calls (path ++ [i]) next (l'.lift (path.length + 1)) with
            | complete order l'' =>
              rw [he] at hb
              exact hb
            | blocked l'' =>
              rw [he] at hb
              exact ih hsplit hcalls (hk.undo hb)

theorem explore_kept (hp : h.IsPath path) (hk : h.Kept path s P) (calls : Nat) {l : Ledger State}
    (hl : P l) : P (h.explore calls path s l).ledger := by
  induction calls generalizing path s l with
  | zero => exact hl
  | succ calls ih =>
    refine scan_kept hp hk ?_ (List.nil_append _).symm (by simp) hl
    exact fun i hi next l hn hl => ih (hp.snoc hi) (hk.below hn) hl

end

section

variable {h : History Op} {path : List Nat} {s : State} {l : Ledger State}

theorem explore_memo_kept {P : Memo State → Prop} (hp : h.IsPath path) (calls : Nat)
    (hnote : ∀ {memo : Memo State} {tail : List Nat} {t : State}, h.Leads path s tail t → P memo →
      P (memo.note (h.configuration (path ++ tail) t)).2)
    (hl : P l.memo) : P (h.explore calls path s l).ledger.memo :=
  have hk : h.Kept path s fun l => P l.memo := ⟨id, fun _ => id, hnote, id, fun _ => id, id⟩
  explore_kept hp hk calls hl

theorem explore_disabled (hp : h.IsPath path) (calls : Nat) (hl : l.memo = .disabled) :
    (h.explore calls path s l).ledger.memo = .disabled :=
  explore_memo_kept (P := (· = .disabled)) hp calls (fun _ hd => by rw [hd]; rfl) hl

theorem explore_retentive (hp : h.IsPath path) (calls : Nat) (hl : l.memo.Retentive) :
    (h.explore calls path s l).ledger.memo.Retentive :=
  explore_memo_kept hp calls (fun _ hr => hr.note _) hl

end

/-! ## Covered paths -/

def Covers (h : History Op) (memo : Memo State) (path : List Nat) (s : State) : Prop :=
  ∀ (tail : List Nat) (t : State), h.Leads path s tail t →
    memo.Knows (h.configuration (path ++ tail) t)

/-- A path that leads to a configuration equal to `c` is stuck and covered. -/
def Seen (h : History Op) (memo : Memo State) (c : Configuration State) : Prop :=
  ∃ path s, h.IsPath path ∧ (h.configuration path s == c) = true ∧ h.Stuck path s ∧
    h.Covers memo path s

def Closed (h : History Op) (memo : Memo State) (depth : Nat) : Prop :=
  ∀ c, memo.Knows c → h.Seen memo c ∨
    ∃ path s, h.IsPath path ∧ (h.configuration path s == c) = true ∧ path.length ≤ depth

/-- The memo `after` knows what `before` knows, and all that it knows beside that has been seen. -/
structure Fills (h : History Op) (before after : Memo State) : Prop where
  keeps : ∀ c, before.Knows c → after.Knows c
  seen : ∀ c, after.Knows c → before.Knows c ∨ h.Seen after c

section

variable {h : History Op} {before after : Memo State} {path : List Nat} {s : State} {depth : Nat}

theorem Covers.mono (hc : h.Covers before path s) (hk : ∀ c, before.Knows c → after.Knows c) :
    h.Covers after path s :=
  fun tail t hl => hk _ (hc tail t hl)

theorem Seen.mono {c : Configuration State} (hs : h.Seen before c)
    (hk : ∀ c, before.Knows c → after.Knows c) : h.Seen after c := by
  obtain ⟨path, s, hp, he, hst, hc⟩ := hs
  exact ⟨path, s, hp, he, hst, hc.mono hk⟩

theorem Fills.refl (h : History Op) (memo : Memo State) : h.Fills memo memo :=
  ⟨fun _ hc => hc, fun _ hc => .inl hc⟩

theorem Fills.trans {m₁ m₂ m₃ : Memo State} (h₁ : h.Fills m₁ m₂) (h₂ : h.Fills m₂ m₃) :
    h.Fills m₁ m₃ where
  keeps c hc := h₂.keeps c (h₁.keeps c hc)
  seen c hc := (h₂.seen c hc).elim (fun hc => (h₁.seen c hc).imp_right (·.mono h₂.keeps)) .inr

theorem Closed.of_fills (hc : h.Closed before depth) (hf : h.Fills before after) :
    h.Closed after depth :=
  fun c hk => (hf.seen c hk).elim (fun hk => (hc c hk).imp_left (·.mono hf.keeps)) .inl

theorem Closed.sound (hc : h.Closed before depth) : h.Sound before depth :=
  fun c hk => (hc c hk).imp_left fun ⟨path, s, hp, he, hst, _⟩ => ⟨path, s, hp, he, hst⟩

theorem covers_of_front (hk : before.Knows (h.configuration path s))
    (hfront : ∀ i ∈ h.front path, ∀ {next : State}, h.next? s i = some next →
      h.Covers before (path ++ [i]) next) : h.Covers before path s := by
  intro tail t hl
  rcases hl.cases with ⟨rfl, rfl⟩ | ⟨call, rest, next, rfl, hc, hn, hl⟩
  · rwa [List.append_nil]
  · rw [List.append_cons]
    exact hfront call hc hn rest t hl

end

section Lawful

variable [LawfulSpecification State] {h : History Op} {memo : Memo State} {path : List Nat}
  {s : State} {depth : Nat}

theorem Fills.of_note {after : Memo State} (hm : memo.Retentive) (hp : h.IsPath path)
    (hs : h.Stuck path s) (hc : h.Covers after path s)
    (hf : h.Fills (memo.note (h.configuration path s)).2 after) : h.Fills memo after where
  keeps c hk := hf.keeps c (hm.knows_note_iff.mpr (.inr hk))
  seen c hk := by
    rcases hf.seen c hk with hk | hk
    · exact (hm.knows_note_iff.mp hk).elim (fun he => .inr ⟨path, s, hp, he, hs, hc⟩) .inl
    · exact .inr hk

theorem Closed.note (hc : h.Closed memo depth) (hm : memo.Retentive) (hp : h.IsPath path)
    (hlen : path.length = depth + 1) :
    h.Closed (memo.note (h.configuration path s)).2 (depth + 1) := by
  intro x hx
  rcases hm.knows_note_iff.mp hx with hx | hx
  · exact .inr ⟨path, s, hp, hx, le_of_eq hlen⟩
  · refine (hc x hx).imp (·.mono fun _ hk => hm.knows_note_iff.mpr (.inr hk)) ?_
    rintro ⟨path', t, hp', hx', hle⟩
    exact ⟨path', t, hp', hx', Nat.le_succ_of_le hle⟩

variable [Operation Op] (hw : h.WellPaired)

include hw

theorem IsPath.covers_congr {path' : List Nat} {s' : State} (hp : h.IsPath path)
    (hp' : h.IsPath path') (he : (h.configuration path s == h.configuration path' s') = true)
    (hc : h.Covers memo path s) : h.Covers memo path' s' := by
  obtain ⟨hm, hss⟩ := Configuration.beq_iff.mp he
  intro tail t' hl
  obtain ⟨t, ht, htt⟩ := replay?_congr (BEq.symm hss) hl.accepted
  have hpath := hp.append_congr (fun c => (hp.mem_iff_of_marks hw hp' hm c).symm) hl.path
  exact (hc tail t ⟨hpath, ht⟩).congr (Configuration.beq_iff.mpr ⟨marks_append hm tail, BEq.symm htt⟩)

theorem Closed.covers (hc : h.Closed memo depth) (hp : h.IsPath path) (hlen : depth < path.length)
    (hk : memo.Knows (h.configuration path s)) : h.Stuck path s ∧ h.Covers memo path s := by
  refine ⟨hc.sound.stuck hw hp hlen hk, ?_⟩
  rcases hc _ hk with ⟨path', s', hp', he, _, hcov⟩ | ⟨path', s', hp', he, hle⟩
  · exact hp'.covers_congr hw hp he hcov
  · have := hp'.length_eq_of_marks hw hp (Configuration.beq_iff.mp he).1
    omega

/-! ## Exploring in vain -/

def Saturates (h : History Op) (path : List Nat) (s : State) (memo : Memo State) :
    Exploration State → Prop
  | .complete _ _ => True
  | .blocked l => h.Covers l.memo path s ∧ h.Fills memo l.memo

omit hw [Operation Op] [LawfulSpecification State] in
theorem Saturates.of_fills {before after : Memo State} {e : Exploration State}
    (hs : h.Saturates path s after e) (hf : h.Fills before after) : h.Saturates path s before e := by
  cases e with
  | complete => trivial
  | blocked l => exact ⟨hs.1, hf.trans hs.2⟩

theorem scan_saturates {calls : Nat} (hp : h.IsPath path) (hlen : (h.left path).length = calls + 1)
    (hbelow : ∀ i ∈ h.front path, ∀ (next : State) (l : Ledger State), l.memo.Retentive →
      l.memo.Knows (h.configuration (path ++ [i]) next) → h.Closed l.memo (path.length + 1) →
      h.Saturates (path ++ [i]) next l.memo (h.explore calls (path ++ [i]) next l))
    {passed ahead : List Nat} (hrest : h.rest path = passed ++ ahead)
    (hpassed : ∀ c ∈ passed, h.isCallAt c = true) {l : Ledger State} (hm : l.memo.Retentive)
    (hk : l.memo.Knows (h.configuration path s)) (hc : h.Closed l.memo path.length)
    (hcovered : ∀ i ∈ passed, ∀ {next : State}, h.next? s i = some next →
      h.Covers l.memo (path ++ [i]) next) :
    h.Saturates path s l.memo (h.scan (h.explore calls) path s ahead l) := by
  induction ahead generalizing passed l with
  | nil =>
    have hall : h.front path = passed := front_eq_passed hrest hpassed nofun
    exact ⟨covers_of_front hk (hall ▸ hcovered), Fills.refl h _⟩
  | cons i ahead ih =>
    cases hi : h.isCallAt i with
    | false =>
      have hall : h.front path = passed :=
        front_eq_passed hrest hpassed fun j hj => by cases hj; exact hi
      rw [scan_ret hi]
      exact ⟨covers_of_front hk (hall ▸ hcovered), Fills.refl h _⟩
    | true =>
      obtain ⟨hsplit, hcalls, hfront⟩ := passed_snoc hrest hpassed hi
      have hpi : h.IsPath (path ++ [i]) := hp.snoc hfront
      have hlt : path.length < (path ++ [i]).length := by simp
      -- go on behind `i` once what goes on from it is covered
      have hgo : ∀ l' : Ledger State, l'.memo.Retentive → h.Fills l.memo l'.memo →
          (∀ {next : State}, h.next? s i = some next → h.Covers l'.memo (path ++ [i]) next) →
          h.Saturates path s l.memo (h.scan (h.explore calls) path s ahead l') := by
        intro l' hm' hf hcov
        refine (ih hsplit hcalls hm' (hf.keeps _ hk) (hc.of_fills hf) ?_).of_fills hf
        intro j hj next hn
        rcases List.mem_append.mp hj with hj | hj
        · exact (hcovered j hj hn).mono hf.keeps
        · obtain rfl := List.mem_singleton.mp hj
          exact hcov hn
      cases hn : h.next? s i with
      | none =>
        rw [scan_refused hi hn]
        exact hgo (l.tick.pass (h.idAt (ahead.headD i))) hm (Fills.refl h _)
          fun hn' => by rw [hn] at hn'; cases hn'
      | some next =>
        -- once the configuration is covered, it has been seen
        have hseen : ∀ l' : Ledger State, l'.memo.Retentive → h.Stuck (path ++ [i]) next →
            h.Covers l'.memo (path ++ [i]) next →
            h.Fills (l.memo.note (h.configuration (path ++ [i]) next)).2 l'.memo →
            h.Saturates path s l.memo (h.scan (h.explore calls) path s ahead l') := by
          intro l' hm' hst hcov hf
          refine hgo l' hm' (.of_note hm hpi hst hcov hf) fun hn' => ?_
          cases hn.symm.trans hn'
          exact hcov
        cases hnew : (l.memo.note (h.configuration (path ++ [i]) next)).1 with
        | false =>
          obtain ⟨hst, hcov⟩ := hc.covers hw hpi hlt (Memo.knows_of_note_rejects hnew)
          rw [scan_known hi hn (Prod.ext hnew rfl)]
          exact hseen _ (hm.note _) hst (hcov.mono fun _ hk => hm.knows_note_iff.mpr (.inr hk))
            (Fills.refl h _)
        | true =>
          rw [scan_novel hi hn (Prod.ext hnew rfl)]
          generalize hl' : (l.tick.note (h.configuration (path ++ [i]) next)).2.lift
            (path.length + 1) = l'
          have hmemo : l'.memo = (l.memo.note (h.configuration (path ++ [i]) next)).2 := by
            rw [← hl']; rfl
          have hm' : l'.memo.Retentive := hmemo ▸ hm.note _
          have hc' : h.Closed l'.memo (path.length + 1) := hmemo ▸ hc.note hm hpi (by simp)
          have hknown : l'.memo.Knows (h.configuration (path ++ [i]) next) :=
            hmemo ▸ hm.knows_note_iff.mpr (.inl BEq.rfl)
          have hsound : h.Sound l'.memo (path ++ [i]).length := by
            rw [List.length_append]
            exact hc'.sound
          have hb := hbelow i hfront next l' hm' hknown hc'
          have hsettles := explore_settles hw hpi (length_left_snoc hlen hfront) next hsound
          have hret := explore_retentive (s := next) hpi calls hm'
          cases he : h.explore calls (path ++ [i]) next l' with
          | complete order l'' => trivial
          | blocked l'' =>
            rw [he] at hb hsettles hret
            exact hseen l''.undo hret hsettles.1 hb.1 (hmemo ▸ hb.2)

/-- A memo that forgets nothing covers a path from which the exploration came back. -/
theorem explore_saturates {calls : Nat} (hp : h.IsPath path) (hlen : (h.left path).length = calls)
    {l : Ledger State} (hm : l.memo.Retentive) (hk : l.memo.Knows (h.configuration path s))
    (hc : h.Closed l.memo path.length) :
    h.Saturates path s l.memo (h.explore calls path s l) := by
  induction calls generalizing path s l with
  | zero => trivial
  | succ calls ih =>
    refine scan_saturates hw hp hlen ?_ (List.nil_append _).symm (by simp) hm hk hc (by simp)
    intro i hi next l hm hk hc
    exact ih (hp.snoc hi) (length_left_snoc hlen hi) hm hk (by simpa using hc)

end Lawful

end Linearizability.History
