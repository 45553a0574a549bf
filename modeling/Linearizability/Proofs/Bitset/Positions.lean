import Linearizability.Bitset.Lemmas
import Mathlib.Data.Finset.Card
import Mathlib.Data.Finset.Sort
import Mathlib.Data.List.Forall2

/-!
# Bitsets as sets of positions

A bitset of either kind stands for a finite set of positions below its
capacity. Everything that can be read of it follows from that set, the hash
and the count among it, so bitsets that were written in different ways are
equal as soon as their members and capacities are.
-/

namespace Linearizability.Bitset

/-! ## Reading the members -/

theorem mem_toList {b : Bitset} {pos : Nat} : pos ∈ b.toList ↔ b.contains pos = true := by
  rw [contains_eq, toList, List.mem_flatMap]
  constructor
  · rintro ⟨⟨block, i⟩, hblock, hpos⟩
    obtain ⟨k, hk, rfl⟩ := List.mem_map.mp hpos
    rw [blockPositions_eq, List.mem_filter, List.mem_range] at hk
    have hget := List.mk_mem_zipIdx_iff_getElem?.mp hblock
    rw [Array.getElem?_toList] at hget
    have hdiv : (i * 64 + k) / 64 = i := by omega
    have hmod : (i * 64 + k) % 64 = k := by omega
    rw [hdiv, hmod, hget]
    exact hk.2
  · intro hpos
    obtain ⟨block, hblock, hbit⟩ := (Option.any_eq_true _ _).mp hpos
    refine ⟨(block, pos / 64), List.mk_mem_zipIdx_iff_getElem?.mpr ?_, List.mem_map.mpr ?_⟩
    · rw [Array.getElem?_toList, hblock]
    · refine ⟨pos % 64, ?_, by omega⟩
      rw [blockPositions_eq, List.mem_filter, List.mem_range]
      exact ⟨Nat.mod_lt _ (by decide), hbit⟩

theorem pairwise_toList (b : Bitset) : b.toList.Pairwise (· < ·) := by
  rw [toList, List.pairwise_flatMap]
  constructor
  · rintro ⟨block, i⟩ _
    rw [List.pairwise_map, blockPositions_eq]
    refine (List.pairwise_lt_range.filter _).imp ?_
    intro k l hlt
    omega
  · have hidx : b.blocks.toList.zipIdx.Pairwise fun x y => x.2 < y.2 := by
      rw [← List.pairwise_map (f := Prod.snd) (R := (· < ·)), List.zipIdx_map_snd]
      exact List.pairwise_lt_range'
    refine hidx.imp ?_
    rintro ⟨block, i⟩ ⟨block', j⟩ hij x hx y hy
    obtain ⟨k, hk, rfl⟩ := List.mem_map.mp hx
    obtain ⟨l, _, rfl⟩ := List.mem_map.mp hy
    rw [blockPositions_eq, List.mem_filter, List.mem_range] at hk
    have hij : i < j := hij
    omega

theorem length_toList (b : Bitset) : b.toList.length = b.count := by
  rw [toList, b.count_eq]
  generalize b.blocks.toList = blocks
  generalize 0 = start
  induction blocks generalizing start with
  | nil => rfl
  | cons block blocks ih =>
    rw [List.zipIdx_cons, List.flatMap_cons, List.length_append, ih, List.length_map]
    rfl

/-! ## Blocks of a set -/

def blockOf (members : Nat → Bool) (i : Nat) : UInt64 :=
  (List.range 64).foldl (fun block k => if members (i * 64 + k) then block ||| mask k else block) 0

theorem getLsbD_blockOf (members : Nat → Bool) (i : Nat) {k : Nat} (hk : k < 64) :
    (blockOf members i).toBitVec.getLsbD k = members (i * 64 + k) := by
  have hfold (n : Nat) (hn : n ≤ 64) : ((List.range n).foldl
      (fun block k => if members (i * 64 + k) then block ||| mask k else block) 0
        : UInt64).toBitVec.getLsbD k = (decide (k < n) && members (i * 64 + k)) := by
    induction n with
    | zero => simp
    | succ n ih =>
      have hmod : n % 64 = n := Nat.mod_eq_of_lt hn
      rw [List.range_succ, List.foldl_append, List.foldl_cons, List.foldl_nil]
      have hstep (block : UInt64) (on : Bool) :
          (if on then block ||| mask n else block).toBitVec.getLsbD k =
            (block.toBitVec.getLsbD k || (on && decide (n = k))) := by
        cases on
        · simp
        · rw [if_pos rfl, getLsbD_or_mask, hmod, Bool.true_and]
      rw [hstep, ih (Nat.le_of_succ_le hn)]
      by_cases hkn : n = k
      · subst hkn
        simp
      · have hlt : k < n + 1 ↔ k < n := by omega
        simp [hkn, hlt]
  rw [blockOf, hfold 64 (Nat.le_refl _), decide_eq_true hk, Bool.true_and]

theorem blocks_eq (b : Bitset) :
    b.blocks.toList = (List.range b.blocks.size).map (blockOf b.contains) := by
  apply List.ext_getElem
  · simp
  intro i hi hi'
  rw [Array.getElem_toList, List.getElem_map, List.getElem_range]
  apply block_ext
  intro k hk
  rw [getLsbD_blockOf _ _ hk, contains_eq]
  have hdiv : (i * 64 + k) / 64 = i := by omega
  have hmod : (i * 64 + k) % 64 = k := by omega
  have hlt : i < b.blocks.size := by simpa using hi
  rw [hdiv, hmod, Array.getElem?_eq_getElem hlt, Option.any_some]

theorem hash_eq_of_contains (b : Bitset) :
    b.hash = hashOf ((List.range b.blocks.size).map (blockOf b.contains)) := by
  rw [← b.blocks_eq, b.hash_eq]

/-! ## Results -/

/-- Two results that fail alike, or that are related. -/
inductive Alike {σ τ : Type} (R : σ → τ → Prop) : Except Fault σ → Except Fault τ → Prop where
  | error (f : Fault) : Alike R (.error f) (.error f)
  | ok {s : σ} {t : τ} : R s t → Alike R (.ok s) (.ok t)

/-! ## Writing -/

theorem exists_write {b : Bitset} {pos : Nat} (room : blockIndex pos < b.blocks.size) (on : Bool) :
    ∃ after, (if on then b.set pos else b.reset pos) =
        .ok (if on then !b.contains pos else b.contains pos, after) ∧
      after.blocks.size = b.blocks.size ∧
      ∀ q, after.contains q = if pos = q then on else b.contains q := by
  cases on with
  | true =>
    refine ⟨(b.setAt pos room).2, ?_, size_setAt b pos room, fun q => ?_⟩
    · rw [if_pos rfl, if_pos rfl, set, dif_pos room, ← setAt_fst b pos room]
    · rw [contains_setAt]
      by_cases hq : pos = q <;> simp [hq]
  | false =>
    refine ⟨(b.resetAt pos room).2, ?_, size_resetAt b pos room, fun q => ?_⟩
    · rw [if_neg Bool.false_ne_true, if_neg Bool.false_ne_true, reset, dif_pos room,
        ← resetAt_fst b pos room]
    · rw [contains_resetAt]
      by_cases hq : pos = q <;> simp [hq]

theorem write_eq_error {b : Bitset} {pos : Nat} (full : ¬ blockIndex pos < b.blocks.size)
    (on : Bool) :
    (if on then b.set pos else b.reset pos) = .error (.bitOutOfRange pos b.capacity) := by
  cases on
  · exact dif_neg full
  · exact dif_neg full

theorem size_grow (b : Bitset) (pos : Nat) :
    (b.grow pos).blocks.size = max b.blocks.size (blockIndex pos + 1) := by
  simp only [grow, Array.size_append, Array.size_replicate]
  omega

theorem exists_write_growing (b : GrowingBitset) (on : Bool) (pos : Nat) :
    ∃ after, (if on then b.insert pos else b.erase pos) =
        (if on then !b.contains pos else b.contains pos, after) ∧
      after.bits.blocks.size = max b.bits.blocks.size (blockIndex pos + 1) ∧
      ∀ q, after.contains q = if pos = q then on else b.contains q := by
  have hsize := size_grow b.bits pos
  cases on with
  | true =>
    refine ⟨(b.insert pos).2, ?_, (size_setAt _ pos _).trans hsize, fun q => ?_⟩
    · rw [if_pos rfl, if_pos rfl, ← GrowingBitset.insert_fst]
    · rw [GrowingBitset.contains_insert]
      by_cases hq : pos = q <;> simp [hq]
  | false =>
    refine ⟨(b.erase pos).2, ?_, (size_resetAt _ pos _).trans hsize, fun q => ?_⟩
    · rw [if_neg Bool.false_ne_true, if_neg Bool.false_ne_true, ← GrowingBitset.erase_fst]
    · rw [GrowingBitset.contains_erase]
      by_cases hq : pos = q <;> simp [hq]

/-! ## Sets of positions -/

/-- The positions that are set. There is room for those up to `bound` and for the others of the
last block. -/
structure Positions where
  growing : Bool
  bound : Nat
  members : Finset Nat

namespace Positions

def capacity (s : Positions) : Nat := 64 * (s.bound / 64 + 1)

def change (members : Finset Nat) (on : Bool) (pos : Nat) : Finset Nat :=
  if on then insert pos members else members.erase pos

/-- Set a position or clear it. The flag tells whether the set changes. Only a growing set makes
room for a position, be it to set or to clear it. -/
def write (s : Positions) (on : Bool) (pos : Nat) : Except Fault Bool × Positions :=
  let members := change s.members on pos
  let changed := decide (members ≠ s.members)
  if s.growing then (.ok changed, { s with bound := max s.bound pos, members })
  else if pos < s.capacity then (.ok changed, { s with members })
  else (.error (.bitOutOfRange pos s.capacity), s)

def copyWith (s : Positions) (on : Bool) (pos : Nat) : Except Fault Positions :=
  let (changed, t) := { s with growing := false }.write on pos
  changed.map fun _ => t

theorem decide_mem_change (members : Finset Nat) (on : Bool) (pos q : Nat) :
    decide (q ∈ change members on pos) = if pos = q then on else decide (q ∈ members) := by
  unfold change
  by_cases hq : pos = q
  · subst hq
    cases on <;> simp
  · cases on <;> simp [hq, Ne.symm hq]

theorem decide_change_ne (members : Finset Nat) (on : Bool) (pos : Nat) :
    decide (change members on pos ≠ members) =
      if on then !decide (pos ∈ members) else decide (pos ∈ members) := by
  unfold change
  cases on <;> simp

end Positions

/-! ## Bitsets of both kinds -/

inductive Cell where
  | fixed (b : Bitset)
  | growing (b : GrowingBitset)

namespace Cell

def bits : Cell → Bitset
  | fixed b => b
  | growing b => b.bits

def isGrowing : Cell → Bool
  | fixed _ => false
  | growing _ => true

def write : Cell → (on : Bool) → (pos : Nat) → Except Fault Bool × Cell
  | fixed b, on, pos =>
    match if on then b.set pos else b.reset pos with
    | .error f => (.error f, fixed b)
    | .ok (changed, b) => (.ok changed, fixed b)
  | growing b, on, pos =>
    let (changed, b) := if on then b.insert pos else b.erase pos
    (.ok changed, growing b)

def same : Cell → Cell → Bool
  | fixed a, fixed b => a == b
  | growing a, growing b => a == b
  | a, b => a.bits == b.bits

def hashCode : Cell → UInt64
  | fixed b => Hashable.hash b
  | growing b => Hashable.hash b

def copyWith (c : Cell) (on : Bool) (pos : Nat) : Except Fault Cell :=
  (if on then c.bits.withSet pos else c.bits.withReset pos).map fixed

theorem same_iff (a b : Cell) : a.same b = true ↔ a.bits = b.bits := by
  cases a with
  | fixed a => cases b <;> simp [same, bits]
  | growing a =>
    cases b with
    | fixed b => simp [same, bits]
    | growing b =>
      obtain ⟨a⟩ := a
      obtain ⟨b⟩ := b
      simp [same, bits]

theorem hashCode_eq (c : Cell) : c.hashCode = c.bits.hash := by
  cases c <;> rfl

theorem copyWith_eq (c : Cell) (on : Bool) (pos : Nat) :
    c.copyWith on pos = ((fixed c.bits).write on pos).1.map fun _ => ((fixed c.bits).write on pos).2 := by
  have hwrite : c.copyWith on pos =
      ((if on then c.bits.set pos else c.bits.reset pos).map (·.2)).map fixed := by
    cases on <;> rfl
  rw [hwrite, write]
  cases if on then c.bits.set pos else c.bits.reset pos <;> rfl

/-- Everything that is read of `c` is as the set `s` says. -/
structure Shows (c : Cell) (s : Positions) : Prop where
  kind : c.isGrowing = s.growing
  capacity : c.bits.capacity = s.capacity
  contains : ∀ pos, c.bits.contains pos = decide (pos ∈ s.members)
  count : c.bits.count = s.members.card
  increasing : c.bits.toList.Pairwise (· < ·)
  mem_toList : ∀ pos, pos ∈ c.bits.toList ↔ pos ∈ s.members
  hashCode : c.hashCode =
    hashOf ((List.range (s.bound / 64 + 1)).map (blockOf fun pos => decide (pos ∈ s.members)))

theorem shows_of_contains {c : Cell} {s : Positions} (hkind : c.isGrowing = s.growing)
    (hsize : c.bits.blocks.size = s.bound / 64 + 1)
    (hcontains : ∀ pos, c.bits.contains pos = decide (pos ∈ s.members)) : c.Shows s := by
  have hmem (pos : Nat) : pos ∈ c.bits.toList ↔ pos ∈ s.members := by
    rw [Bitset.mem_toList, hcontains, decide_eq_true_iff]
  refine ⟨hkind, ?_, hcontains, ?_, pairwise_toList _, hmem, ?_⟩
  · rw [Bitset.capacity, hsize, Positions.capacity, Nat.mul_comm]
  · have hnodup : c.bits.toList.Nodup := (pairwise_toList _).imp Nat.ne_of_lt
    have hset : c.bits.toList.toFinset = s.members := Finset.ext fun pos => by
      rw [List.mem_toFinset, hmem]
    rw [← length_toList, ← List.toFinset_card_of_nodup hnodup, hset]
  · rw [hashCode_eq, hash_eq_of_contains, hsize, show c.bits.contains = _ from funext hcontains]

theorem shows_create (maxPos : Nat) :
    (fixed (.ofMaxPos maxPos)).Shows ⟨false, maxPos, ∅⟩ ∧
      (growing (.ofMaxPos maxPos)).Shows ⟨true, maxPos, ∅⟩ := by
  refine ⟨shows_of_contains rfl ?_ ?_, shows_of_contains rfl ?_ ?_⟩
  · exact size_ofMaxPos maxPos
  · intro pos
    exact contains_ofMaxPos maxPos pos
  · exact size_ofMaxPos maxPos
  · intro pos
    exact contains_ofMaxPos maxPos pos

namespace Shows

variable {c : Cell} {s : Positions} (h : c.Shows s)

include h

theorem size_eq : c.bits.blocks.size = s.bound / 64 + 1 := by
  have hcapacity := h.capacity
  rw [Bitset.capacity, Positions.capacity] at hcapacity
  omega

theorem room_iff (pos : Nat) : blockIndex pos < c.bits.blocks.size ↔ pos < s.capacity := by
  rw [h.size_eq, Positions.capacity, blockIndex]
  omega

theorem contains_after {on : Bool} {pos : Nat} {after : Bitset}
    (hafter : ∀ q, after.contains q = if pos = q then on else c.bits.contains q) (q : Nat) :
    after.contains q = decide (q ∈ Positions.change s.members on pos) := by
  rw [hafter, Positions.decide_mem_change, h.contains]

theorem changed_eq (on : Bool) (pos : Nat) :
    (if on then !c.bits.contains pos else c.bits.contains pos) =
      decide (Positions.change s.members on pos ≠ s.members) := by
  rw [Positions.decide_change_ne, h.contains]

omit h in
theorem write_fixed {b : Bitset} (h : (fixed b).Shows s) (on : Bool) (pos : Nat) :
    ((fixed b).write on pos).1 = (s.write on pos).1 ∧
      ((fixed b).write on pos).2.Shows (s.write on pos).2 := by
  have hs : s.growing = false := h.kind.symm
  have hroom := h.room_iff pos
  by_cases room : blockIndex pos < b.blocks.size
  · obtain ⟨after, hwrite, hsize, hafter⟩ := exists_write room on
    simp only [Cell.write, hwrite, Positions.write, hs, Bool.false_eq_true, if_false,
      hroom.mp room, if_true]
    refine ⟨congrArg Except.ok (h.changed_eq on pos), ?_⟩
    exact shows_of_contains rfl (hsize.trans h.size_eq) (h.contains_after hafter)
  · have hcapacity : b.capacity = s.capacity := h.capacity
    simp only [Cell.write, write_eq_error room on, Positions.write, hs, Bool.false_eq_true,
      if_false, mt hroom.mpr room, hcapacity]
    exact ⟨trivial, h⟩

omit h in
theorem write_growing {b : GrowingBitset} (h : (growing b).Shows s) (on : Bool)
    (pos : Nat) :
    ((growing b).write on pos).1 = (s.write on pos).1 ∧
      ((growing b).write on pos).2.Shows (s.write on pos).2 := by
  have hs : s.growing = true := h.kind.symm
  obtain ⟨after, hwrite, hsize, hafter⟩ := exists_write_growing b on pos
  simp only [Cell.write, hwrite, Positions.write, hs, if_true]
  refine ⟨congrArg Except.ok (h.changed_eq on pos), ?_⟩
  refine shows_of_contains rfl ?_ (h.contains_after hafter)
  show after.bits.blocks.size = max s.bound pos / 64 + 1
  rw [hsize, show b.bits.blocks.size = s.bound / 64 + 1 from h.size_eq, blockIndex]
  omega

theorem write (on : Bool) (pos : Nat) :
    (c.write on pos).1 = (s.write on pos).1 ∧ (c.write on pos).2.Shows (s.write on pos).2 := by
  cases c with
  | fixed b => exact h.write_fixed on pos
  | growing b => exact h.write_growing on pos

theorem same_iff {d : Cell} {t : Positions} (h' : d.Shows t) :
    c.same d = true ↔ s.members = t.members ∧ s.capacity = t.capacity := by
  rw [Cell.same_iff, ← h.capacity, ← h'.capacity]
  constructor
  · intro he
    refine ⟨Finset.ext fun pos => ?_, congrArg Bitset.capacity he⟩
    rw [← h.mem_toList, ← h'.mem_toList, he]
  · rintro ⟨hmembers, hcapacity⟩
    rw [Bitset.capacity, Bitset.capacity] at hcapacity
    refine ext_contains (by omega) fun pos => ?_
    rw [h.contains, h'.contains, hmembers]

theorem copyWith (on : Bool) (pos : Nat) : Alike Shows (c.copyWith on pos) (s.copyWith on pos) := by
  have hcopy : (fixed c.bits).Shows { s with growing := false } :=
    shows_of_contains rfl h.size_eq h.contains
  obtain ⟨hchanged, hafter⟩ := hcopy.write on pos
  rw [copyWith_eq, Positions.copyWith, hchanged]
  dsimp only
  cases ({ s with growing := false }.write on pos).1 with
  | error f => exact .error f
  | ok changed => exact .ok hafter

end Shows

end Cell

/-! ## Any number of bitsets -/

inductive Request where
  | create (growing : Bool) (maxPos : Nat)
  | clone (i : Nat)
  | write (i : Nat) (on : Bool) (pos : Nat)
  | copyWith (i : Nat) (on : Bool) (pos : Nat)

/-- How bitsets, or what they stand for, are made and written. -/
structure Machine (σ : Type) where
  create : (growing : Bool) → (maxPos : Nat) → σ
  write : σ → (on : Bool) → (pos : Nat) → Except Fault Bool × σ
  copyWith : σ → (on : Bool) → (pos : Nat) → Except Fault σ

namespace Machine

variable {σ τ : Type}

/-- Requests name a bitset by its number. New ones come last. -/
def step (m : Machine σ) (pool : List σ) : Request → Except Fault (Option Bool) × List σ
  | .create growing maxPos => (.ok none, pool ++ [m.create growing maxPos])
  | .clone i => (.ok none, pool ++ pool[i]?.toList)
  | .write i on pos =>
    match pool[i]? with
    | none => (.ok none, pool)
    | some s => ((m.write s on pos).1.map some, pool.set i (m.write s on pos).2)
  | .copyWith i on pos =>
    match pool[i]? with
    | none => (.ok none, pool)
    | some s =>
      match m.copyWith s on pos with
      | .error f => (.error f, pool)
      | .ok t => (.ok none, pool ++ [t])

def run (m : Machine σ) : (pool : List σ) → List Request →
    List (Except Fault (Option Bool)) × List σ
  | pool, [] => ([], pool)
  | pool, r :: requests =>
    let (answer, pool) := m.step pool r
    let (answers, pool) := m.run pool requests
    (answer :: answers, pool)

structure Refines (m : Machine σ) (n : Machine τ) (R : σ → τ → Prop) : Prop where
  create : ∀ growing maxPos, R (m.create growing maxPos) (n.create growing maxPos)
  write : ∀ {s t}, R s t → ∀ on pos,
    (m.write s on pos).1 = (n.write t on pos).1 ∧ R (m.write s on pos).2 (n.write t on pos).2
  copyWith : ∀ {s t}, R s t → ∀ on pos, Alike R (m.copyWith s on pos) (n.copyWith t on pos)

theorem set_forall₂ {R : σ → τ → Prop} {pool : List σ} {specs : List τ}
    (h : List.Forall₂ R pool specs) {s : σ} {t : τ} (hst : R s t) (i : Nat) :
    List.Forall₂ R (pool.set i s) (specs.set i t) := by
  induction h generalizing i with
  | nil => exact .nil
  | cons hxy h ih =>
    cases i with
    | zero => exact .cons hst h
    | succ i => exact .cons hxy (ih i)

theorem getElem?_forall₂ {R : σ → τ → Prop} {pool : List σ} {specs : List τ}
    (h : List.Forall₂ R pool specs) (i : Nat) :
    (pool[i]? = none ∧ specs[i]? = none) ∨
      ∃ s t, pool[i]? = some s ∧ specs[i]? = some t ∧ R s t := by
  induction h generalizing i with
  | nil => exact .inl ⟨rfl, rfl⟩
  | cons hxy h ih =>
    cases i with
    | zero => exact .inr ⟨_, _, rfl, rfl, hxy⟩
    | succ i => exact ih i

namespace Refines

variable {m : Machine σ} {n : Machine τ} {R : σ → τ → Prop} (hr : m.Refines n R)

include hr

theorem step {pool : List σ} {specs : List τ} (h : List.Forall₂ R pool specs) (r : Request) :
    (m.step pool r).1 = (n.step specs r).1 ∧
      List.Forall₂ R (m.step pool r).2 (n.step specs r).2 := by
  have hsnoc {s : σ} {t : τ} (hst : R s t) : List.Forall₂ R (pool ++ [s]) (specs ++ [t]) :=
    List.rel_append h (.cons hst .nil)
  cases r with
  | create growing maxPos => exact ⟨rfl, hsnoc (hr.create growing maxPos)⟩
  | clone i =>
    rcases getElem?_forall₂ h i with ⟨hs, ht⟩ | ⟨s, t, hs, ht, hst⟩
    · simpa only [Machine.step, hs, ht, Option.toList_none, List.append_nil, true_and] using h
    · simp only [Machine.step, hs, ht]
      exact ⟨trivial, hsnoc hst⟩
  | write i on pos =>
    rcases getElem?_forall₂ h i with ⟨hs, ht⟩ | ⟨s, t, hs, ht, hst⟩
    · simpa only [Machine.step, hs, ht, true_and] using h
    · simp only [Machine.step, hs, ht]
      obtain ⟨hanswer, hnext⟩ := hr.write hst on pos
      exact ⟨congrArg (Except.map some) hanswer, set_forall₂ h hnext i⟩
  | copyWith i on pos =>
    rcases getElem?_forall₂ h i with ⟨hs, ht⟩ | ⟨s, t, hs, ht, hst⟩
    · simpa only [Machine.step, hs, ht, true_and] using h
    · have hcopy := hr.copyWith hst on pos
      simp only [Machine.step, hs, ht]
      generalize m.copyWith s on pos = copied, n.copyWith t on pos = copied' at hcopy ⊢
      cases hcopy with
      | error f => exact ⟨rfl, h⟩
      | ok hnew => exact ⟨rfl, hsnoc hnew⟩

theorem run {pool : List σ} {specs : List τ} (h : List.Forall₂ R pool specs)
    (requests : List Request) :
    (m.run pool requests).1 = (n.run specs requests).1 ∧
      List.Forall₂ R (m.run pool requests).2 (n.run specs requests).2 := by
  induction requests generalizing pool specs with
  | nil => exact ⟨rfl, h⟩
  | cons r requests ih =>
    obtain ⟨hanswer, hnext⟩ := hr.step h r
    obtain ⟨hanswers, hlast⟩ := ih hnext
    exact ⟨congrArg₂ List.cons hanswer hanswers, hlast⟩

end Refines

end Machine

def bitsets : Machine Cell where
  create growing maxPos := if growing then .growing (.ofMaxPos maxPos) else .fixed (.ofMaxPos maxPos)
  write := Cell.write
  copyWith := Cell.copyWith

def sets : Machine Positions where
  create growing maxPos := ⟨growing, maxPos, ∅⟩
  write := Positions.write
  copyWith := Positions.copyWith

theorem bitsets_refines_sets : bitsets.Refines sets Cell.Shows where
  create growing maxPos := by
    cases growing
    · exact (Cell.shows_create maxPos).1
    · exact (Cell.shows_create maxPos).2
  write h on pos := h.write on pos
  copyWith h on pos := h.copyWith on pos

/-- However many bitsets are made, copied and written, their answers are those of the sets they
stand for, and they show these sets. Two of them are equal exactly if their members and their
capacities are, and then their hashes are equal. -/
theorem run_bitsets (requests : List Request) :
    let pool := (bitsets.run [] requests).2
    let specs := (sets.run [] requests).2
    (bitsets.run [] requests).1 = (sets.run [] requests).1 ∧ List.Forall₂ Cell.Shows pool specs ∧
      ∀ (i j : Nat) (c d : Cell) (s t : Positions), pool[i]? = some c → pool[j]? = some d →
        specs[i]? = some s → specs[j]? = some t →
        (c.same d = true ↔ s.members = t.members ∧ s.capacity = t.capacity) ∧
        (c.same d = true → c.hashCode = d.hashCode) := by
  intro pool specs
  obtain ⟨hanswers, hpool⟩ := bitsets_refines_sets.run .nil requests
  have hshows {i : Nat} {c : Cell} {s : Positions} (hc : pool[i]? = some c)
      (hs : specs[i]? = some s) : c.Shows s := by
    rcases Machine.getElem?_forall₂ hpool i with ⟨hnone, _⟩ | ⟨c', s', hc', hs', h⟩
    · cases hnone.symm.trans hc
    · cases hc'.symm.trans hc
      cases hs'.symm.trans hs
      exact h
  refine ⟨hanswers, hpool, fun i j c d s t hc hd hs ht => ⟨(hshows hc hs).same_iff (hshows hd ht), ?_⟩⟩
  intro hsame
  rw [Cell.hashCode_eq, Cell.hashCode_eq, (Cell.same_iff c d).mp hsame]

def grownAlike : List Request :=
  [.create false 70, .create true 5, .write 0 true 3, .write 1 true 70, .write 0 true 128,
    .write 1 false 70, .write 1 true 3]

theorem run_bitsets_grownAlike : ∃ c d,
    (bitsets.run [] grownAlike).2[0]? = some c ∧ (bitsets.run [] grownAlike).2[1]? = some d ∧
      c.same d = true ∧ c.hashCode = d.hashCode := by
  obtain ⟨_, hpool, hsame⟩ := run_bitsets grownAlike
  have hlength : (bitsets.run [] grownAlike).2.length = 2 := hpool.length_eq
  have hc := List.getElem?_eq_getElem (show 0 < (bitsets.run [] grownAlike).2.length by omega)
  have hd := List.getElem?_eq_getElem (show 1 < (bitsets.run [] grownAlike).2.length by omega)
  obtain ⟨hiff, hhash⟩ := hsame 0 1 _ _ ⟨false, 70, {3}⟩ ⟨true, 70, {3}⟩ hc hd rfl rfl
  have hequal := hiff.mpr ⟨rfl, rfl⟩
  exact ⟨_, _, hc, hd, hequal, hhash hequal⟩

end Linearizability.Bitset
