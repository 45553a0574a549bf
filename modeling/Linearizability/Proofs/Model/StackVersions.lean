import Linearizability.Proofs.Model.Contents
import Linearizability.Proofs.Model.Stack

/-!
# Versions of a stack

A push or a pop makes a new version of a stack and leaves the old one as it
was, so the versions form a tree. A version has the nodes of the one that it
was derived from, but for the node on top. Two versions with the same values
may have all of their nodes in common, or some, or none: it makes no
difference to what they hold, and none to whether they are equal. A
comparison goes down both of them in step, and ends with the shorter one if
not before.
-/

namespace Linearizability

open Contents

namespace Chain

theorem toList_ofList (values : List UInt8) : (ofList values).toList = values := by
  induction values with
  | nil => rfl
  | cons value values ih => exact congrArg (value :: ·) ih

theorem ofList_inj {values values' : List UInt8} :
    ofList values = ofList values' ↔ values = values' := by
  constructor
  · intro h
    rw [← toList_ofList values, h, toList_ofList]
  · exact congrArg ofList

theorem hash_ofList (values : List UInt8) : (ofList values).hash = hashOf values.reverse := by
  induction values with
  | nil => rfl
  | cons value values ih =>
    rw [List.reverse_cons, hashOf_snoc, ← ih]
    rfl

theorem length_tails_ofList (values : List UInt8) :
    (ofList values).tails.length = values.length := by
  induction values with
  | nil => rfl
  | cons value values ih => exact congrArg (· + 1) ih

theorem exists_of_mem_tails {values : List UInt8} {c : Chain} (hc : c ∈ (ofList values).tails) :
    ∃ rest, rest <:+ values ∧ rest ≠ [] ∧ c = ofList rest := by
  induction values with
  | nil => cases hc
  | cons value values ih =>
    cases hc with
    | head => exact ⟨value :: values, List.suffix_refl _, List.cons_ne_nil _ _, rfl⟩
    | tail _ hbelow =>
      obtain ⟨rest, hsuffix, hne, rfl⟩ := ih hbelow
      exact ⟨rest, hsuffix.trans (List.suffix_cons _ _), hne, rfl⟩

def agreeWithin? (shared : Chain → Chain → Bool) : (rounds : Nat) → Chain → Chain → Option Bool
  | 0, _, _ => none
  | _ + 1, nil, nil => some true
  | rounds + 1, node v m g c, node w n h d =>
    if shared (node v m g c) (node w n h d) then some true
    else if m != n || g != h || v != w then some false
    else agreeWithin? shared rounds c d
  | _ + 1, _, _ => some false

theorem agreeWithin?_eq (shared : Chain → Chain → Bool) {rounds : Nat} {c d : Chain}
    (h : min c.tails.length d.tails.length < rounds) :
    agreeWithin? shared rounds c d = some (c.agree shared d) := by
  induction rounds generalizing c d with
  | zero => cases h
  | succ rounds ih =>
    cases c with
    | nil => cases d <;> rfl
    | node v m g c =>
      cases d with
      | nil => rfl
      | node w n k d =>
        have hbelow : agreeWithin? shared rounds c d = some (c.agree shared d) := by
          apply ih
          simp only [tails, List.length_cons] at h
          omega
        rw [agreeWithin?, agree, hbelow]
        cases shared (node v m g c) (node w n k d) with
        | true => rfl
        | false =>
          rw [if_neg Bool.false_ne_true, Bool.false_or, bne, bne, bne]
          cases m == n <;> cases g == k <;> cases v == w <;> rfl

end Chain

namespace Stack

variable {capacity : Nat}

def act (s : Stack capacity) : Step → Except Fault (Stack capacity)
  | .add value => s.push value
  | .remove => s.pop

theorem toOption_act_ofList {values : List UInt8} (hv : values.length ≤ capacity) (step : Step) :
    ((ofList values : Stack capacity).act step).toOption =
      (Discipline.lifo.next? capacity values step).map ofList := by
  cases step with
  | add value =>
    rw [act, push_ofList, Discipline.next?_add hv]
    split <;> rfl
  | remove => cases values <;> rfl

/-! ## Versions and their nodes -/

structure Version (capacity : Nat) where
  stack : Stack capacity
  /-- Bottom first. A node has the number of the version that it was made for. -/
  nodes : List Nat
  history : List Step

namespace Version

def next? (x : Version capacity) (number : Nat) (step : Step) : Option (Version capacity) :=
  (x.stack.act step).toOption.map fun stack =>
    { stack
      nodes := match step with
        | .add _ => x.nodes ++ [number]
        | .remove => x.nodes.dropLast
      history := x.history ++ [step] }

/-- Whether the node that tops `c` in `x` is the one that tops `d` in `y`. -/
def shares (x y : Version capacity) (c d : Chain) : Bool :=
  x.nodes[c.size - 1]?.any fun node => y.nodes[d.size - 1]? == some node

def same (x y : Version capacity) : Bool := x.stack.top.agree (x.shares y) y.stack.top

end Version

structure Derivation where
  parent : Nat
  step : Step

/-- A version is derived from the one of the number `parent`, if there is one and it allows the
step. The new version comes last. -/
def derive (versions : List (Version capacity)) (d : Derivation) : List (Version capacity) :=
  versions ++ (versions[d.parent]?.bind fun x => x.next? versions.length d.step).toList

def versions (capacity : Nat) (ds : List Derivation) : List (Version capacity) :=
  ds.foldl derive [⟨empty, [], []⟩]

theorem prefix_foldl_derive (before : List (Version capacity)) (ds : List Derivation) :
    before <+: ds.foldl derive before := by
  induction ds generalizing before with
  | nil => exact List.prefix_refl _
  | cons d ds ih => exact (List.prefix_append _ _).trans (ih (derive before d))

structure Version.Holds (all : List (Version capacity)) (x : Version capacity)
    (values : List UInt8) : Prop where
  after : Discipline.lifo.after? capacity x.history = some values
  stack : x.stack = ofList values
  length : x.nodes.length = values.length
  /-- A node was made for a version of the values that it tops. -/
  node : ∀ rest, rest <:+ values → rest ≠ [] → ∃ n y, x.nodes[rest.length - 1]? = some n ∧
    all[n]? = some y ∧ y.stack = ofList rest

namespace Version.Holds

variable {all : List (Version capacity)} {x y : Version capacity} {values values' : List UInt8}

theorem mono (h : x.Holds all values) (more : List (Version capacity)) :
    x.Holds (all ++ more) values := by
  refine ⟨h.after, h.stack, h.length, fun rest hsuffix hne => ?_⟩
  obtain ⟨n, y, hn, hy, hstack⟩ := h.node rest hsuffix hne
  have hlt : n < all.length := (List.getElem?_eq_some_iff.mp hy).1
  exact ⟨n, y, hn, (List.getElem?_append_left hlt).trans hy, hstack⟩

theorem length_tails (h : x.Holds all values) : x.stack.top.tails.length = x.stack.size := by
  rw [h.stack]
  exact (Chain.length_tails_ofList values).trans (Chain.size_ofList values).symm

theorem toOption_act (h : x.Holds all values) (step : Step) :
    (x.stack.act step).toOption = (Discipline.lifo.next? capacity values step).map ofList := by
  rw [h.stack]
  exact toOption_act_ofList (Discipline.length_le_of_after? h.after) step

theorem pushed (h : x.Holds all values) (value : UInt8)
    (hafter : Discipline.lifo.next? capacity values (.add value) = some values') :
    let y : Version capacity :=
      ⟨ofList values', x.nodes ++ [all.length], x.history ++ [.add value]⟩
    y.Holds (all ++ [y]) values' := by
  intro y
  obtain ⟨hroom, hvalues⟩ := Option.ite_none_right_eq_some.mp hafter
  cases hvalues
  refine ⟨?_, rfl, ?_, ?_⟩
  · rw [Discipline.after?_snoc, h.after]
    exact hafter
  · rw [List.length_append, h.length]
    rfl
  · intro rest hsuffix hne
    rcases List.suffix_cons_iff.mp hsuffix with rfl | hsuffix
    · refine ⟨all.length, y, ?_, List.getElem?_concat_length, rfl⟩
      rw [List.length_cons, Nat.add_sub_cancel, ← h.length]
      exact List.getElem?_concat_length
    · obtain ⟨n, z, hn, hz, hstack⟩ := (h.mono [y]).node rest hsuffix hne
      have hlt := (List.getElem?_eq_some_iff.mp hn).1
      exact ⟨n, z, (List.getElem?_append_left hlt).trans hn, hz, hstack⟩

theorem popped (h : x.Holds all values)
    (hafter : Discipline.lifo.next? capacity values .remove = some values') :
    let y : Version capacity := ⟨ofList values', x.nodes.dropLast, x.history ++ [.remove]⟩
    y.Holds (all ++ [y]) values' := by
  intro y
  cases values with
  | nil => cases hafter
  | cons first rest =>
    have hlength := h.length
    cases hafter
    refine ⟨?_, rfl, ?_, ?_⟩
    · rw [Discipline.after?_snoc, h.after]
      rfl
    · rw [List.length_dropLast, hlength]
      rfl
    · intro part hsuffix hne
      obtain ⟨n, z, hn, hz, hstack⟩ :=
        (h.mono [y]).node part (hsuffix.trans (List.suffix_cons _ _)) hne
      refine ⟨n, z, ?_, hz, hstack⟩
      have hle := hsuffix.length_le
      have hpos := List.length_pos_iff.mpr hne
      rw [List.length_cons] at hlength
      rw [List.getElem?_dropLast, if_pos (by omega)]
      exact hn

theorem next (h : x.Holds all values) {step : Step} (hy : x.next? all.length step = some y) :
    ∃ next, y.Holds (all ++ [y]) next := by
  obtain ⟨stack, hstack, hy⟩ := Option.map_eq_some_iff.mp hy
  rw [h.toOption_act] at hstack
  obtain ⟨next, hnext, hstack⟩ := Option.map_eq_some_iff.mp hstack
  subst hy hstack
  cases step with
  | add value => exact ⟨next, h.pushed value hnext⟩
  | remove => exact ⟨next, h.popped hnext⟩

theorem eq_of_shares (hx : x.Holds all values) (hy : y.Holds all values') {c d : Chain}
    (hc : c ∈ x.stack.top.tails) (hd : d ∈ y.stack.top.tails) (h : x.shares y c d = true) :
    c = d := by
  rw [hx.stack] at hc
  rw [hy.stack] at hd
  obtain ⟨rest, hsuffix, hne, rfl⟩ := Chain.exists_of_mem_tails hc
  obtain ⟨rest', hsuffix', hne', rfl⟩ := Chain.exists_of_mem_tails hd
  obtain ⟨n, z, hn, hz, hstack⟩ := hx.node rest hsuffix hne
  obtain ⟨n', z', hn', hz', hstack'⟩ := hy.node rest' hsuffix' hne'
  rw [shares, Chain.size_ofList, Chain.size_ofList, hn, hn', Option.any_some, beq_iff_eq] at h
  cases h
  cases hz.symm.trans hz'
  exact congrArg Stack.top (hstack.symm.trans hstack')

theorem same_iff (hx : x.Holds all values) (hy : y.Holds all values') :
    x.same y = true ↔ values = values' := by
  rw [same, Chain.agree_iff_eq fun _ hc _ hd => hx.eq_of_shares hy hc hd, hx.stack, hy.stack]
  exact Chain.ofList_inj

end Version.Holds

theorem exists_holds (capacity : Nat) (ds : List Derivation) :
    ∀ x ∈ versions capacity ds, ∃ values, x.Holds (versions capacity ds) values := by
  induction ds using List.reverseRecOn with
  | nil =>
    intro x hx
    cases List.mem_singleton.mp hx
    refine ⟨[], rfl, rfl, rfl, fun rest hsuffix hne => ?_⟩
    exact absurd (List.suffix_nil.mp hsuffix) hne
  | append_singleton ds d ih =>
    rw [versions, List.foldl_append, List.foldl_cons, List.foldl_nil]
    generalize hall : ds.foldl derive [⟨empty, [], []⟩] = all
    rw [versions, hall] at ih
    unfold derive
    cases hd : all[d.parent]?.bind fun x => x.next? all.length d.step with
    | none => simpa using ih
    | some y =>
      intro x hx
      rcases List.mem_append.mp hx with hx | hx
      · obtain ⟨values, h⟩ := ih x hx
        exact ⟨values, h.mono _⟩
      · cases List.mem_singleton.mp hx
        obtain ⟨parent, hparent, hy⟩ := Option.bind_eq_some_iff.mp hd
        obtain ⟨values, h⟩ := ih parent (List.mem_of_getElem? hparent)
        exact h.next hy

structure Version.Shows (x : Version capacity) (values : List UInt8) : Prop where
  toList : x.stack.toList = values
  size : x.stack.size = values.length
  bounded : values.length ≤ capacity
  hash : (Hashable.hash x.stack).toNat = polynomial values.reverse % 2 ^ 64
  /-- A version allows a push if there is room, and a pop if there is a value. -/
  isSome_next? : ∀ number step,
    (x.next? number step).isSome = (Discipline.lifo.next? capacity values step).isSome

theorem Version.Holds.shows {all : List (Version capacity)} {x : Version capacity}
    {values : List UInt8} (h : x.Holds all values) : x.Shows values := by
  have hact := h.toOption_act
  obtain ⟨stack, nodes, history⟩ := x
  cases h.stack
  refine ⟨Chain.toList_ofList values, Chain.size_ofList values,
    Discipline.length_le_of_after? h.after, ?_, fun number step => ?_⟩
  · rw [← toNat_hashOf, ← Chain.hash_ofList]
    rfl
  · exact (Option.isSome_map.trans (congrArg Option.isSome (hact step))).trans Option.isSome_map

/-- However the versions of a stack were derived from one another, each holds the values that its
own history leaves on top of one another, and it goes on holding them when others are derived.
Two versions are equal exactly if they hold the same values, whatever nodes they share, and their
comparison ends with the shorter one if not before. -/
theorem versions_spec (capacity : Nat) (ds : List Derivation) :
    (∀ more, versions capacity ds <+: versions capacity (ds ++ more)) ∧
    ∀ x ∈ versions capacity ds,
      (∃ values, Discipline.lifo.after? capacity x.history = some values ∧ x.Shows values) ∧
      ∀ y ∈ versions capacity ds,
        (x.same y = true ↔ x.stack.toList = y.stack.toList) ∧ x.same y = (x.stack == y.stack) ∧
        ∀ rounds, min x.stack.size y.stack.size < rounds →
          x.stack.top.agreeWithin? (x.shares y) rounds y.stack.top = some (x.same y) := by
  refine ⟨fun more => ?_, fun x hx => ?_⟩
  · rw [versions, versions, List.foldl_append]
    exact prefix_foldl_derive _ more
  · obtain ⟨values, h⟩ := exists_holds capacity ds x hx
    refine ⟨⟨values, h.after, h.shows⟩, fun y hy => ?_⟩
    obtain ⟨values', h'⟩ := exists_holds capacity ds y hy
    have hsame := h.same_iff h'
    have hbeq : (x.stack == y.stack) = true ↔ values = values' := by
      rw [beq_iff_top_eq, h.stack, h'.stack]
      exact Chain.ofList_inj
    refine ⟨?_, Bool.eq_iff_iff.mpr (hsame.trans hbeq.symm), fun rounds hrounds => ?_⟩
    · rw [hsame, h.shows.toList, h'.shows.toList]
    · rw [← h.length_tails, ← h'.length_tails] at hrounds
      exact Chain.agreeWithin?_eq _ hrounds

/-- A value is pushed twice onto one version, and once more onto an equal one with another node. -/
def siblings : List Derivation :=
  [⟨0, .add 1⟩, ⟨1, .add 2⟩, ⟨1, .add 2⟩, ⟨3, .remove⟩, ⟨0, .add 1⟩, ⟨5, .add 2⟩, ⟨6, .add 3⟩]

theorem versions_spec_siblings :
    ∃ x ∈ versions 2 siblings, ∃ y ∈ versions 2 siblings, ∃ z ∈ versions 2 siblings,
      x.nodes = [1, 2] ∧ y.nodes = [1, 3] ∧ z.nodes = [5, 6] ∧
      x.same x = true ∧ x.same y = true ∧ x.same z = true := by
  obtain ⟨_, hspec⟩ := versions_spec 2 siblings
  have hx := List.mem_of_getElem? (show (versions 2 siblings)[2]? = some
    ⟨ofList [2, 1], [1, 2], [.add 1, .add 2]⟩ from rfl)
  have hy := List.mem_of_getElem? (show (versions 2 siblings)[3]? = some
    ⟨ofList [2, 1], [1, 3], [.add 1, .add 2]⟩ from rfl)
  have hz := List.mem_of_getElem? (show (versions 2 siblings)[6]? = some
    ⟨ofList [2, 1], [5, 6], [.add 1, .add 2]⟩ from rfl)
  obtain ⟨_, hsame⟩ := hspec _ hx
  exact ⟨_, hx, _, hy, _, hz, rfl, rfl, rfl, (hsame _ hx).1.mpr rfl, (hsame _ hy).1.mpr rfl,
    (hsame _ hz).1.mpr rfl⟩

end Stack

end Linearizability
