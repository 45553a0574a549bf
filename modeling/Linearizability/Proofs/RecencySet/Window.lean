import Linearizability.Proofs.Search.Memory
import Mathlib.Data.List.Induction

/-!
# The window of recent keys

Whatever is asked of a recency set, it holds the keys inserted last, each of
them once, and as many as stay below its capacity. The keys are read off the
ordered map, where the time of each key says how recent it is.
-/

namespace Linearizability

/-! ## Ordered maps -/

open Std.DTreeMap.Internal in
theorem minEntry?_eq_head? {α : Type} (t : Std.TreeMap Nat α) : t.minEntry? = t.toList.head? := by
  obtain ⟨⟨impl, hwf⟩⟩ := t
  show Impl.Const.minEntry? impl = (Impl.Const.toList impl).head?
  clear hwf
  rw [Impl.Const.toList_eq_toListModel_map]
  induction impl using Impl.Const.minEntry?.induct with
  | case1 => simp [Impl.Const.minEntry?]
  | case2 => simp [Impl.Const.minEntry?]
  | case3 _ _ _ _ _ _ _ _ _ ih =>
    rw [Impl.Const.minEntry?, ih]
    simp

open Std.DTreeMap.Internal in
theorem values_eq_map {α : Type} (t : Std.TreeMap Nat α) : t.values = t.toList.map (·.2) := by
  obtain ⟨⟨impl, _⟩⟩ := t
  show Impl.values impl = (Impl.Const.toList impl).map _
  rw [Impl.Const.toList_eq_toListModel_map, Impl.values_eq_map_snd, List.map_map]
  rfl

theorem toList_eq_of_sorted {α : Type} {t : Std.TreeMap Nat α} {l : List (Nat × α)}
    (hsorted : l.Pairwise fun x y => x.1 < y.1)
    (hmem : ∀ time key, t[time]? = some key ↔ (time, key) ∈ l) : t.toList = l := by
  have hsorted' : t.toList.Pairwise fun x y => x.1 < y.1 :=
    Std.TreeMap.ordered_keys_toList.imp Nat.compare_eq_lt.mp
  have hnodup {l : List (Nat × α)} (h : l.Pairwise fun x y => x.1 < y.1) : l.Nodup :=
    h.imp fun {x y} hlt (he : x = y) => Nat.lt_irrefl y.1 (he ▸ hlt)
  have hperm : t.toList.Perm l := by
    refine (List.perm_ext_iff_of_nodup (hnodup hsorted') (hnodup hsorted)).mpr ?_
    intro ⟨time, key⟩
    rw [Std.TreeMap.mem_toList_iff_getElem?_eq_some, hmem]
  exact hperm.eq_of_pairwise (fun a b _ _ hab hba => by omega) hsorted' hsorted

/-! ## Distinct keys -/

section

variable {α : Type}

/-- The elements that `p` holds of can be told from the first ones of `l` when it fails of one
element at most. -/
theorem take_filter_take {p : α → Bool} {l : List α} (hone : l.Pairwise fun x y => p x ∨ p y)
    (n : Nat) : ((l.take (n + 1)).filter p).take n = (l.filter p).take n := by
  induction l generalizing n with
  | nil => rfl
  | cons x l ih =>
    obtain ⟨hx, hl⟩ := List.pairwise_cons.mp hone
    rw [List.take_succ_cons, List.filter_cons, List.filter_cons]
    cases hp : p x with
    | true =>
      cases n with
      | zero => rfl
      | succ n => simpa using ih hl n
    | false =>
      have hrest : l.filter p = l :=
        List.filter_eq_self.mpr fun y hy => (hx y hy).resolve_left (by simp [hp])
      have hfront : (l.take n).filter p = l.take n :=
        List.filter_eq_self.mpr fun y hy =>
          (hx y (List.mem_of_mem_take hy)).resolve_left (by simp [hp])
      simp [hrest, hfront, List.take_take]

variable [BEq α]

def moveToFront (key : α) (l : List α) : List α := key :: l.filter fun x => !(x == key)

def Distinct (l : List α) : Prop := l.Pairwise fun x y => (x == y) = false

theorem eraseDups_filter {p : α → Bool} (hp : ∀ {a b}, (a == b) = true → p a = p b) :
    ∀ l : List α, (l.filter p).eraseDups = l.eraseDups.filter p
  | [] => rfl
  | a :: l => by
    have : (l.filter fun b => !(b == a)).length < l.length + 1 :=
      Nat.lt_succ_of_le (List.length_filter_le _ l)
    rw [List.eraseDups_cons, List.filter_cons, List.filter_cons, ← eraseDups_filter hp,
      List.filter_filter]
    cases ha : p a with
    | true =>
      simp only [if_true, List.eraseDups_cons, List.filter_filter, Bool.and_comm]
    | false =>
      have hsame : (l.filter fun b => p b && !(b == a)) = l.filter p := by
        apply List.filter_congr
        intro b _
        cases hb : b == a with
        | true => rw [hp hb, ha, Bool.false_and]
        | false => rw [Bool.not_false, Bool.and_true]
      simp only [Bool.false_eq_true, if_false, hsame]
termination_by l => l.length

variable [EquivBEq α]

theorem take_moveToFront {l : List α} (hl : Distinct l) (key : α) (n : Nat) :
    (moveToFront key (l.take n)).take n = (moveToFront key l).take n := by
  cases n with
  | zero => rfl
  | succ n =>
    have hone : l.Pairwise fun x y => (!(x == key)) = true ∨ (!(y == key)) = true := by
      refine hl.imp fun {x y} hxy => ?_
      cases hx : x == key with
      | false => exact .inl rfl
      | true =>
        cases hy : y == key with
        | false => exact .inr rfl
        | true => exact absurd (BEq.trans hx (BEq.symm hy)) (by simp [hxy])
    simp only [moveToFront, List.take_succ_cons, take_filter_take hone]

theorem eraseDups_cons_eq (key : α) (l : List α) :
    (key :: l).eraseDups = moveToFront key l.eraseDups := by
  rw [List.eraseDups_cons, eraseDups_filter, moveToFront]
  intro a b hab
  rw [BEq.congr_left hab]

theorem distinct_eraseDups (l : List α) : Distinct l.eraseDups := by
  induction l with
  | nil => exact .nil
  | cons a l ih =>
    rw [eraseDups_cons_eq, moveToFront]
    refine List.pairwise_cons.mpr ⟨fun b hb => ?_, ih.filter _⟩
    have hne := (List.mem_filter.mp hb).2
    rw [BEq.comm]
    simpa using hne

end

namespace RecencySet

/-! ## Requests -/

inductive Request (α : Type) where
  | insert (key : α)
  | contains (key : α)
  | clear

namespace Request

variable {α : Type}

def inserted? : Request α → Option α
  | insert key => some key
  | _ => none

def isClear : Request α → Bool
  | clear => true
  | _ => false

/-- The distinct keys that were inserted since the last clear, the one inserted last first. -/
def recent [BEq α] (requests : List (Request α)) : List α :=
  ((requests.reverse.takeWhile fun r => !r.isClear).filterMap inserted?).eraseDups

variable [BEq α] [EquivBEq α] (requests : List (Request α))

theorem recent_insert (key : α) :
    recent (requests ++ [insert key]) = moveToFront key (recent requests) := by
  simp only [recent, List.reverse_append, List.reverse_singleton, List.singleton_append,
    List.takeWhile_cons, isClear, Bool.not_false, if_true]
  exact eraseDups_cons_eq key _

omit [EquivBEq α] in
theorem recent_contains (key : α) : recent (requests ++ [contains key]) = recent requests := by
  simp only [recent, List.reverse_append, List.reverse_singleton, List.singleton_append,
    List.takeWhile_cons, isClear, Bool.not_false, if_true]
  rfl

omit [EquivBEq α] in
theorem recent_clear : recent (requests ++ [clear]) = [] := by
  simp [recent, isClear]

theorem distinct_recent : Distinct (recent requests) := distinct_eraseDups _

end Request

variable {α : Type} [BEq α] [Hashable α]

def step (c : RecencySet α) : Request α → Option Bool × RecencySet α
  | .insert key => let (fresh, c) := c.insert key; (some fresh, c)
  | .contains key => (some (c.contains key), c)
  | .clear => (none, c.clear)

def after (c : RecencySet α) (requests : List (Request α)) : RecencySet α :=
  requests.foldl (fun c r => (c.step r).2) c

def answers (c : RecencySet α) : List (Request α) → List (Option Bool)
  | [] => []
  | r :: requests => (c.step r).1 :: answers (c.step r).2 requests

/-! ## Inserting and evicting -/

theorem capacity_dropOldest (c : RecencySet α) : c.dropOldest.capacity = c.capacity := by
  unfold dropOldest
  split
  split <;> rfl

theorem capacity_evict (c : RecencySet α) : c.evict.capacity = c.capacity := by
  unfold evict
  split
  · exact capacity_dropOldest c
  · rfl

theorem capacity_put (c : RecencySet α) (key : α) : (c.put key).2.capacity = c.capacity := by
  unfold put
  split
  split <;> rfl

theorem capacity_insert (c : RecencySet α) (key : α) : (c.insert key).2.capacity = c.capacity :=
  (capacity_evict _).trans (capacity_put c key)

/-- `stamped` lists the keys with their times, the most recent one first. -/
structure Shows (c : RecencySet α) (stamped : List (Nat × α)) : Prop where
  sorted : stamped.Pairwise fun x y => y.1 < x.1
  distinct : stamped.Pairwise fun x y => (x.2 == y.2) = false
  lt_now : ∀ x ∈ stamped, x.1 < c.now
  times : ∀ key time, c.times[key]? = some time ↔ ∃ x ∈ stamped, x.1 = time ∧ (x.2 == key) = true
  keys : ∀ time key, c.keys[time]? = some key ↔ (time, key) ∈ stamped
  size : c.times.size = c.keys.size

namespace Shows

variable {c : RecencySet α} {stamped : List (Nat × α)} (hs : c.Shows stamped)

include hs

theorem toList_keys : c.keys.toList = stamped.reverse :=
  toList_eq_of_sorted (List.pairwise_reverse.mpr hs.sorted) fun time key => by
    rw [hs.keys, List.mem_reverse]

theorem size_eq : c.size = stamped.length := by
  rw [RecencySet.size, hs.size, ← Std.TreeMap.length_toList, hs.toList_keys, List.length_reverse]

theorem toList_eq : c.toList = stamped.map (·.2) := by
  rw [toList, values_eq_map, hs.toList_keys, List.map_reverse, List.reverse_reverse]

end Shows

variable [EquivBEq α] [LawfulHashable α]

theorem size_put (c : RecencySet α) (key : α) :
    (c.put key).2.size = if c.contains key then c.size else c.size + 1 := by
  rw [put_eq]
  show (c.times.insert key c.now).size = _
  rw [Std.HashMap.size_insert]
  rfl

/-- A key that is inserted again leaves the size alone, so nothing is evicted then. -/
theorem insert_eq {c : RecencySet α} (hsize : c.size < c.capacity) {key : α}
    (hkey : c.contains key = true) : c.insert key = c.put key := by
  have hroom : (c.put key).2.size ≠ (c.put key).2.capacity := by
    rw [size_put, if_pos hkey, capacity_put]
    exact Nat.ne_of_lt hsize
  refine Prod.ext rfl ?_
  show (c.put key).2.evict = (c.put key).2
  rw [evict, if_neg hroom]

namespace Shows

variable {c : RecencySet α} {stamped : List (Nat × α)} (hs : c.Shows stamped)

include hs

theorem contains_eq (key : α) : c.contains key = (stamped.map (·.2)).contains key := by
  rw [Bool.eq_iff_iff, contains, Std.HashMap.contains_eq_isSome_getElem?, Option.isSome_iff_exists,
    List.contains_iff_exists_mem_beq]
  constructor
  · rintro ⟨time, ht⟩
    obtain ⟨x, hx, _, hkey⟩ := (hs.times key time).mp ht
    exact ⟨x.2, List.mem_map_of_mem hx, BEq.symm hkey⟩
  · rintro ⟨_, hmem, hkey⟩
    obtain ⟨x, hx, rfl⟩ := List.mem_map.mp hmem
    exact ⟨x.1, (hs.times key x.1).mpr ⟨x, hx, rfl, BEq.symm hkey⟩⟩

omit [LawfulHashable α] in
theorem eq_of_mem {x y : Nat × α} (hx : x ∈ stamped) (hy : y ∈ stamped)
    (h : x.1 = y.1 ∨ (x.2 == y.2) = true) : x = y := by
  refine List.Pairwise.forall_of_forall_of_flip
    (R := fun x y => x.1 = y.1 ∨ (x.2 == y.2) = true → x = y) (fun _ _ _ => rfl) ?_ ?_ hx hy h
  · refine (hs.sorted.and hs.distinct).imp ?_
    rintro x y ⟨hlt, hne⟩ (h | h)
    · omega
    · rw [hne] at h
      cases h
  · refine (hs.sorted.and hs.distinct).imp ?_
    rintro x y ⟨hlt, hne⟩ (h | h)
    · omega
    · rw [BEq.comm, hne] at h
      cases h

omit [LawfulHashable α] in
theorem getElem?_others (key : α) (time : Nat) (x : α) :
    (c.times[key]?.elim c.keys c.keys.erase)[time]? = some x ↔
      (time, x) ∈ stamped.filter fun x => !(x.2 == key) := by
  rw [List.mem_filter, Bool.not_eq_true']
  cases ht : c.times[key]? with
  | none =>
    rw [Option.elim_none, hs.keys]
    refine ⟨fun hx => ⟨hx, ?_⟩, And.left⟩
    cases hkey : x == key with
    | false => rfl
    | true =>
      have := (hs.times key time).mpr ⟨_, hx, rfl, hkey⟩
      rw [ht] at this
      cases this
  | some old =>
    obtain ⟨y, hy, rfl, hkey⟩ := (hs.times key old).mp ht
    rw [Option.elim_some, Std.TreeMap.getElem?_erase]
    simp only [Nat.compare_eq_eq]
    split
    · rename_i he
      refine ⟨nofun, fun ⟨hx, hne⟩ => ?_⟩
      obtain rfl := hs.eq_of_mem hy hx (.inl he)
      rw [show (x == key) = true from hkey] at hne
      cases hne
    · rename_i hne
      rw [hs.keys]
      refine ⟨fun hx => ⟨hx, ?_⟩, And.left⟩
      cases hx' : x == key with
      | false => rfl
      | true =>
        exact absurd (congrArg Prod.fst (hs.eq_of_mem hy hx (.inr (BEq.trans hkey (BEq.symm hx'))))) hne

theorem size_others (key : α) : (c.times.insert key c.now).size =
    (c.times[key]?.elim c.keys c.keys.erase).size + 1 := by
  have hmem : key ∈ c.times ↔ c.times[key]?.isSome = true := Std.HashMap.mem_iff_isSome_getElem?
  rw [Std.HashMap.size_insert, hs.size]
  simp only [hmem]
  cases ht : c.times[key]? with
  | none => rfl
  | some time =>
    obtain ⟨x, hx, rfl, _⟩ := (hs.times key time).mp ht
    have hcontains : c.keys.contains x.1 = true := by
      rw [Std.TreeMap.contains_eq_isSome_getElem?, (hs.keys x.1 x.2).mpr hx]
      rfl
    have hpos : 0 < c.keys.size := by
      rw [← hs.size, show c.times.size = stamped.length from hs.size_eq]
      exact List.length_pos_of_mem hx
    rw [Option.elim_some, Std.TreeMap.size_erase, if_pos hcontains]
    simp only [Option.isSome_some, if_true]
    omega

theorem put (key : α) :
    (c.put key).2.Shows ((c.now, key) :: stamped.filter fun x => !(x.2 == key)) := by
  rw [put_eq]
  constructor
  case sorted =>
    exact List.pairwise_cons.mpr
      ⟨fun x hx => hs.lt_now x (List.mem_filter.mp hx).1, hs.sorted.filter _⟩
  case distinct =>
    exact List.pairwise_cons.mpr
      ⟨fun x hx => by rw [BEq.comm]; simpa using (List.mem_filter.mp hx).2, hs.distinct.filter _⟩
  case lt_now =>
    intro x hx
    rcases List.mem_cons.mp hx with rfl | hx
    · exact Nat.lt_succ_self _
    · exact Nat.lt_succ_of_lt (hs.lt_now x (List.mem_filter.mp hx).1)
  case times =>
    intro k time
    show (c.times.insert key c.now)[k]? = some time ↔ _
    rw [Std.HashMap.getElem?_insert]
    cases hk : key == k with
    | true =>
      rw [if_pos rfl, Option.some.injEq]
      refine ⟨fun h => ⟨_, List.mem_cons_self, h, hk⟩, fun ⟨x, hx, ht, hxk⟩ => ?_⟩
      rcases List.mem_cons.mp hx with rfl | hx
      · exact ht
      · have hne := (List.mem_filter.mp hx).2
        rw [BEq.trans hxk (BEq.symm hk)] at hne
        cases hne
    | false =>
      rw [if_neg Bool.false_ne_true, hs.times]
      constructor
      · rintro ⟨x, hx, ht, hxk⟩
        refine ⟨x, List.mem_cons_of_mem _ (List.mem_filter.mpr ⟨hx, ?_⟩), ht, hxk⟩
        rw [BEq.congr_left hxk, BEq.comm, hk]
        rfl
      · rintro ⟨x, hx, ht, hxk⟩
        rcases List.mem_cons.mp hx with rfl | hx
        · rw [hk] at hxk
          cases hxk
        · exact ⟨x, (List.mem_filter.mp hx).1, ht, hxk⟩
  case keys =>
    intro time k
    show ((c.times[key]?.elim c.keys c.keys.erase).insert c.now key)[time]? = some k ↔ _
    rw [Std.TreeMap.getElem?_insert, List.mem_cons, Prod.mk.injEq]
    simp only [Nat.compare_eq_eq]
    split
    · rename_i hnow
      subst hnow
      have hnew := mt (hs.lt_now (c.now, k)) (Nat.lt_irrefl _)
      constructor
      · intro h
        cases h
        exact .inl ⟨rfl, rfl⟩
      · rintro (⟨_, rfl⟩ | h)
        · rfl
        · exact absurd (List.mem_filter.mp h).1 hnew
    · rename_i hnow
      rw [hs.getElem?_others]
      simp [Ne.symm hnow]
  case size =>
    show (c.times.insert key c.now).size =
      ((c.times[key]?.elim c.keys c.keys.erase).insert c.now key).size
    have hnew : ¬ (c.times[key]?.elim c.keys c.keys.erase).contains c.now = true := by
      rw [Std.TreeMap.contains_eq_isSome_getElem?, Option.isSome_iff_exists]
      rintro ⟨x, hx⟩
      have hmem := (List.mem_filter.mp ((hs.getElem?_others key c.now x).mp hx)).1
      exact Nat.lt_irrefl _ (hs.lt_now _ hmem)
    rw [Std.TreeMap.size_insert, if_neg hnew, hs.size_others]

omit hs in
theorem eraseLast {init : List (Nat × α)} {x : Nat × α} (hs : c.Shows (init ++ [x])) :
    ({ c with times := c.times.erase x.2, keys := c.keys.erase x.1 } : RecencySet α).Shows init := by
  obtain ⟨hsorted, _, hsorted'⟩ := List.pairwise_append.mp hs.sorted
  obtain ⟨hdistinct, _, hdistinct'⟩ := List.pairwise_append.mp hs.distinct
  constructor
  case sorted => exact hsorted
  case distinct => exact hdistinct
  case lt_now => exact fun y hy => hs.lt_now y (List.mem_append_left _ hy)
  case times =>
    intro key time
    show (c.times.erase x.2)[key]? = some time ↔ _
    rw [Std.HashMap.getElem?_erase]
    cases hk : x.2 == key with
    | true =>
      refine ⟨nofun, fun ⟨y, hy, _, hyk⟩ => ?_⟩
      have hne := hdistinct' y hy x List.mem_cons_self
      rw [BEq.trans hyk (BEq.symm hk)] at hne
      cases hne
    | false =>
      rw [if_neg Bool.false_ne_true, hs.times]
      constructor
      · rintro ⟨y, hy, ht, hyk⟩
        rcases List.mem_append.mp hy with hy | hy
        · exact ⟨y, hy, ht, hyk⟩
        · rw [List.mem_singleton.mp hy, hk] at hyk
          cases hyk
      · exact fun ⟨y, hy, h⟩ => ⟨y, List.mem_append_left _ hy, h⟩
  case keys =>
    intro time key
    show (c.keys.erase x.1)[time]? = some key ↔ _
    rw [Std.TreeMap.getElem?_erase]
    simp only [Nat.compare_eq_eq]
    split
    · rename_i ht
      refine ⟨nofun, fun hy => ?_⟩
      exact absurd (hsorted' _ hy x List.mem_cons_self) (by simp [ht])
    · rename_i ht
      rw [hs.keys, List.mem_append, List.mem_singleton]
      exact or_iff_left fun h => ht (congrArg Prod.fst h).symm
  case size =>
    have hx : x ∈ init ++ [x] := List.mem_append_right _ List.mem_cons_self
    have hkey : x.2 ∈ c.times := by
      rw [Std.HashMap.mem_iff_isSome_getElem?, (hs.times x.2 x.1).mpr ⟨x, hx, rfl, BEq.rfl⟩]
      rfl
    have htime : c.keys.contains x.1 = true := by
      rw [Std.TreeMap.contains_eq_isSome_getElem?, (hs.keys x.1 x.2).mpr hx]
      rfl
    show (c.times.erase x.2).size = (c.keys.erase x.1).size
    rw [Std.HashMap.size_erase, if_pos hkey, Std.TreeMap.size_erase, if_pos htime, hs.size]

theorem dropOldest : c.dropOldest.Shows stamped.dropLast := by
  have holdest : c.keys.minEntry? = stamped.getLast? := by
    rw [minEntry?_eq_head?, hs.toList_keys, List.head?_reverse]
  obtain ⟨capacity, times, keys, now⟩ := c
  simp only [RecencySet.dropOldest]
  cases hlast : stamped.getLast? with
  | none =>
    obtain rfl := List.getLast?_eq_none_iff.mp hlast
    rw [show keys.minEntry? = none from holdest.trans hlast]
    exact hs
  | some x =>
    obtain ⟨init, rfl⟩ := List.getLast?_eq_some_iff.mp hlast
    rw [show keys.minEntry? = some x from holdest.trans hlast, List.dropLast_concat]
    exact hs.eraseLast

theorem evict (hsize : stamped.length ≤ c.capacity) :
    c.evict.Shows (stamped.take (c.capacity - 1)) := by
  rw [RecencySet.evict, hs.size_eq]
  split
  · rename_i hfull
    rw [← hfull, ← List.dropLast_eq_take]
    exact hs.dropOldest
  · rw [List.take_of_length_le (by omega)]
    exact hs

theorem insert (hsize : stamped.length < c.capacity) (key : α) :
    (c.insert key).2.Shows
      (((c.now, key) :: stamped.filter fun x => !(x.2 == key)).take (c.capacity - 1)) := by
  have hcap := capacity_put c key
  refine hcap ▸ (hs.put key).evict ?_
  rw [hcap]
  have := List.length_filter_le (fun x => !(x.2 == key)) stamped
  show _ + 1 ≤ c.capacity
  omega

end Shows

/-! ## All requests -/

omit [EquivBEq α] [LawfulHashable α] in
theorem shows_empty (capacity : Nat) : ({ capacity } : RecencySet α).Shows [] where
  sorted := .nil
  distinct := .nil
  lt_now := nofun
  times key time := by simp
  keys time key := by simp
  size := rfl

def window (capacity : Nat) (requests : List (Request α)) : List α :=
  (Request.recent requests).take (capacity - 1)

omit [Hashable α] [EquivBEq α] [LawfulHashable α] in
theorem map_moveToFront (now : Nat) (key : α) (stamped : List (Nat × α)) (n : Nat) :
    (((now, key) :: stamped.filter fun x => !(x.2 == key)).take n).map (·.2) =
      (moveToFront key (stamped.map (·.2))).take n := by
  rw [List.map_take, List.map_cons, moveToFront, List.filter_map]
  rfl

theorem exists_shows {capacity : Nat} (hpos : 0 < capacity) (requests : List (Request α)) :
    ∃ stamped, (({ capacity } : RecencySet α).after requests).Shows stamped ∧
      stamped.map (·.2) = window capacity requests ∧
      (({ capacity } : RecencySet α).after requests).capacity = capacity := by
  induction requests using List.reverseRecOn with
  | nil => exact ⟨[], shows_empty capacity, by simp [window, Request.recent], rfl⟩
  | append_singleton requests r ih =>
    obtain ⟨stamped, hs, hmap, hcap⟩ := ih
    have hafter : ({ capacity } : RecencySet α).after (requests ++ [r]) =
        ((({ capacity } : RecencySet α).after requests).step r).2 := by
      rw [after, List.foldl_append]
      rfl
    rw [hafter]
    generalize ({ capacity } : RecencySet α).after requests = c at hs hcap
    cases r with
    | insert key =>
      have hlen : stamped.length < c.capacity := by
        have := congrArg List.length hmap
        rw [List.length_map, window, List.length_take] at this
        omega
      refine ⟨_, hs.insert hlen key, ?_, (capacity_insert c key).trans hcap⟩
      rw [map_moveToFront, hmap, hcap, window, window, Request.recent_insert]
      exact take_moveToFront (Request.distinct_recent requests) key (capacity - 1)
    | contains key => exact ⟨stamped, hs, by rw [hmap, window, window, Request.recent_contains], hcap⟩
    | clear =>
      exact ⟨[], shows_empty c.capacity, by rw [window, Request.recent_clear, List.take_nil]; rfl, hcap⟩

/-- Whatever is asked of a set, it holds the keys inserted last since it was cleared, at most one
less than its capacity. An insertion tells whether its key was not among them, and asking for a key
changes nothing that is answered later. -/
theorem after_window {capacity : Nat} (hpos : 0 < capacity) (requests : List (Request α)) :
    ∃ start : RecencySet α, ofCapacity capacity = .ok start ∧
      let c := start.after requests
      let kept := window capacity requests
      c.toList = kept ∧ c.size = min (capacity - 1) (Request.recent requests).length ∧
      c.size < capacity ∧ (∀ key, c.contains key = kept.contains key) ∧
      (∀ key, (c.step (.insert key)).1 = some !kept.contains key) ∧
      ∀ key later, c.answers (.contains key :: later) =
        some (kept.contains key) :: c.answers later := by
  obtain ⟨stamped, hs, hmap, _⟩ := exists_shows hpos requests
  have hcontains (key : α) := hs.contains_eq key
  have hsize := hs.size_eq
  rw [← List.length_map (f := (·.2)), hmap, window, List.length_take] at hsize
  rw [hmap] at hcontains
  refine ⟨{ capacity }, if_neg (Nat.ne_of_gt hpos), hs.toList_eq.trans hmap, hsize, ?_, hcontains,
    fun key => ?_, fun key later => ?_⟩
  · rw [hsize]
    omega
  · exact congrArg some ((insert_fst _ key).trans (congrArg _ (hcontains key)))
  · exact congrArg (some · :: _) (hcontains key)

theorem after_window_insertedAgain :
    0 < 3 ∧ ∃ start : RecencySet Nat, ofCapacity 3 = .ok start ∧
      let c := start.after [.insert 1, .insert 2, .insert 1, .contains 2, .insert 3]
      c.toList = [3, 1] ∧ c.contains 1 = true ∧ c.contains 2 = false := by
  obtain ⟨start, hstart, hlist, _, _, hcontains, _⟩ := after_window (show 0 < 3 by decide)
    [.insert 1, .insert 2, .insert 1, .contains 2, .insert 3]
  exact ⟨by decide, start, hstart, hlist, hcontains 1, hcontains 2⟩

end RecencySet

end Linearizability
