import Linearizability.Config.Json
import Linearizability.Proofs.Json.Grammar
import Mathlib.Data.Option.Basic

/-!
# Reading a written configuration

What is written for a configuration is a text of its three fields, and the
reader gives the configuration back. A time limit is read by its seconds and
nanoseconds, in whatever document it stands: the result is the duration of
so many nanoseconds, and the document is refused when there is none.
-/

namespace Linearizability

namespace Json

/-! ## Names and numbers as they are written -/

/-- Characters are no halves of surrogate pairs. -/
theorem decodeUnits?_toNat (cs : List Char) : decodeUnits? (cs.map Char.toNat) = some cs := by
  induction cs with
  | nil => rfl
  | cons c cs ih =>
    have hvalid : c.toNat < 0xD800 ∨ 0xDFFF < c.toNat := c.valid.imp id And.left
    have hhigh : isHighSurrogate c.toNat = false := by
      simp [isHighSurrogate]
      omega
    have hlow : isLowSurrogate c.toNat = false := by
      simp [isLowSurrogate]
      omega
    rw [List.map_cons, decodeUnits?.eq_def]
    simp [hhigh, hlow, ih]

def isPlain (c : Char) : Bool := c != '"' && c != '\\' && 32 ≤ c.toNat

theorem text_name (cs : List Char) (hc : cs.all isPlain = true) :
    Text (.name (some cs)) ('"' :: (cs ++ ['"'])) := by
  have hunits : Units (cs.map Char.toNat) cs := by
    induction cs with
    | nil => exact .nil
    | cons c cs ih =>
      obtain ⟨hplain, hc⟩ := Bool.and_eq_true_iff.mp hc
      simp only [isPlain, Bool.and_eq_true, bne_iff_ne, ne_eq, decide_eq_true_eq] at hplain
      exact .char hplain.1.1 hplain.1.2 hplain.2 (ih hc)
  rw [← decodeUnits?_toNat cs]
  exact .name hunits

def Value.ofNat (n : Nat) : Value := .number (toString n).toList

theorem digits_toDigits (n : Nat) : Digits (Nat.toDigits 10 n) where
  ne_nil := Nat.toDigits_ne_nil
  isDigit _ hc := Nat.isDigit_of_mem_toDigits (by decide) (by decide) hc

theorem whole_toDigits (n : Nat) : Whole (Nat.toDigits 10 n) := by
  have hhead : ∀ n : Nat, n ≠ 0 → (Nat.toDigits 10 n).head? ≠ some '0' := by
    intro n
    induction n using Nat.strongRecOn with
    | ind n ih =>
      intro hn
      by_cases hlt : n < 10
      · simp [Nat.toDigits_of_lt_base hlt, hn]
      · have hdiv := ih (n / 10) (by omega) (by omega)
        rw [Nat.toDigits_of_base_le (by decide) (by omega),
          List.head?_append_of_ne_nil _ Nat.toDigits_ne_nil]
        exact hdiv
  by_cases hn : n = 0
  · subst hn
    exact .zero
  · have hd := digits_toDigits n
    have hh := hhead n hn
    cases hcs : Nat.toDigits 10 n with
    | nil => exact absurd hcs hd.ne_nil
    | cons c cs =>
      rw [hcs] at hd hh
      exact .digits hd (by simpa using hh)

theorem text_ofNat (n : Nat) : Text (.value (.ofNat n)) (toString n).toList := by
  have hnumeral : Numeral (Nat.toDigits 10 n) := by
    simpa using Numeral.plain (whole_toDigits n) .absent .absent
  exact .number (by rwa [← Nat.toList_repr] at hnumeral)

theorem Value.toNat?_ofNat (bound n : Nat) :
    (Value.ofNat n).toNat? bound = if n < bound then some n else none := by
  have hlist : (toString n).toList = Nat.toDigits 10 n := Nat.toList_repr
  have hall : (Nat.toDigits 10 n).all isDigit = true :=
    List.all_eq_true.mpr (digits_toDigits n).isDigit
  have hvalue : ofDigits (Nat.toDigits 10 n) = n := by
    have hten := Nat.ofDigitChars_ten_toDigits (n := n)
    rw [Nat.ofDigitChars_eq_foldl] at hten
    simp only [Nat.mul_comm 10] at hten
    exact hten
  simp only [ofNat, toNat?, hlist, hall, hvalue]
  simp

end Json

open Json (Value Text text_name text_ofNat)

/-! ## Durations -/

namespace Duration

theorem ofParts?_eq_some_iff {secs nanos : Nat} {d : Duration} :
    ofParts? secs nanos = some d ↔ d.toNanos = secs * 1000000000 + nanos := by
  obtain ⟨s, n⟩ := d
  have hs : s.toNat < UInt64.size := s.toNat_lt
  have hn := n.isLt
  unfold ofParts? toNanos
  simp only
  constructor
  · intro h
    split at h
    · cases h
      rename_i hlt
      rw [UInt64.toNat_ofNat_of_lt' hlt]
      simp only
      omega
    · cases h
  · intro h
    have hsecs : secs + nanos / 1000000000 = s.toNat := by omega
    have hnanos : nanos % 1000000000 = n := by omega
    rw [if_pos (hsecs ▸ hs)]
    simp [hsecs, hnanos]

theorem isSome_ofParts?_iff {secs nanos : Nat} :
    (ofParts? secs nanos).isSome = true ↔ secs + nanos / 1000000000 < UInt64.size := by
  unfold ofParts?
  simp only
  split <;> simp_all

/-- Values that give a time limit by its seconds and nanoseconds. -/
inductive Spells (secs nanos : Nat) : Value → Prop where
  | pair : Spells secs nanos (.array [.ofNat secs, .ofNat nanos])
  | secsFirst : Spells secs nanos (.object [(some "secs".toList, .ofNat secs),
      (some "nanos".toList, .ofNat nanos)])
  | nanosFirst : Spells secs nanos (.object [(some "nanos".toList, .ofNat nanos),
      (some "secs".toList, .ofNat secs)])

theorem Spells.ofJson?_eq {secs nanos : Nat} {v : Value} (h : Spells secs nanos v)
    (hs : secs < UInt64.size) (hn : nanos < UInt32.size) : ofJson? v = ofParts? secs nanos := by
  have hparts : ofParts (.ofNat secs) (.ofNat nanos) = ofParts? secs nanos := by
    simp only [ofParts, Value.toNat?_ofNat, if_pos hs, if_pos hn, bind, Option.bind_some]
  cases h with
  | pair => exact hparts
  | secsFirst => exact hparts
  | nanosFirst => exact hparts

def toValue (d : Duration) : Value :=
  .object [(some "secs".toList, .ofNat d.secs.toNat), (some "nanos".toList, .ofNat d.nanos)]

theorem spells_toValue (d : Duration) : Spells d.secs.toNat d.nanos d.toValue := .secsFirst

theorem ofJson?_toValue (d : Duration) : ofJson? d.toValue = some d := by
  have hn : d.nanos.val < UInt32.size := Nat.lt_trans d.nanos.isLt (by decide)
  rw [d.spells_toValue.ofJson?_eq d.secs.toNat_lt hn, ofParts?_eq_some_iff]
  rfl

theorem text_toJson (d : Duration) : Text (.value d.toValue) d.toJson.toList := by
  have hsecs : toString d.secs = toString d.secs.toNat := rfl
  have htext := Text.object <|
    .field (text_name "secs".toList (by decide)) (text_ofNat d.secs.toNat) <|
    .lastField (text_name "nanos".toList (by decide)) (text_ofNat d.nanos)
  simpa [toJson, toValue, hsecs] using htext

end Duration

/-! ## Configurations -/

theorem MemoPolicy.ofJson?_name (p : MemoPolicy) :
    ofJson? (.string (some p.name.toList)) = some p := by
  cases p <;> rfl

theorem MemoPolicy.text_name (p : MemoPolicy) :
    Text (.name (some p.name.toList)) p.toJson.toList := by
  have hplain : p.name.toList.all Json.isPlain = true := by cases p <;> decide
  simpa [toJson] using Json.text_name p.name.toList hplain

namespace Config

/-! ### Texts -/

def timeoutValue : Option Duration → Value
  | none => .null
  | some d => d.toValue

def toValue (c : Config) : Value :=
  .object [(some "cache".toList, .string (some c.memo.name.toList)),
    (some "lru_capacity".toList, .ofNat c.lruCapacity.toNat),
    (some "timeout".toList, timeoutValue c.timeout)]

theorem text_toJson (c : Config) : Text (.value c.toValue) c.toJson.toList := by
  have htimeout : Text (.value (timeoutValue c.timeout))
      (c.timeout.elim "null" Duration.toJson).toList := by
    cases c.timeout with
    | none => exact .null
    | some d => exact d.text_toJson
  have hlru : toString c.lruCapacity = toString c.lruCapacity.toNat := rfl
  have htext := Text.object <|
    .field (text_name "cache".toList (by decide)) (.string c.memo.text_name) <|
    .field (text_name "lru_capacity".toList (by decide)) (text_ofNat c.lruCapacity.toNat) <|
    .lastField (text_name "timeout".toList (by decide)) htimeout
  simpa [toJson, toValue, hlru] using htext

/-! ### Fields -/

section

variable {α : Type} {before after : List (Option (List Char) × Value)} {name other : String}

theorem field?_insert (hne : other ≠ name) (v : Value) (default : α) (read : Value → Option α) :
    field? (before ++ (some other.toList, v) :: after) name default read =
      field? (before ++ after) name default read := by
  have hother : (some other.toList == some name.toList) = false := by
    simpa [String.toList_inj] using hne
  have hfilter : (before ++ (some other.toList, v) :: after).filter
      (fun f => f.1 == some name.toList) =
        (before ++ after).filter (fun f => f.1 == some name.toList) := by
    simp only [List.filter_append, List.filter_cons, hother, Bool.false_eq_true, if_false]
  rw [field?, hfilter, field?]

theorem filter_missing {fields : List (Option (List Char) × Value)}
    (h : ∀ f ∈ fields, f.1 ≠ some name.toList) :
    fields.filter (fun f => f.1 == some name.toList) = [] :=
  List.filter_eq_nil_iff.mpr fun f hf => by simpa using h f hf

theorem field?_missing {fields : List (Option (List Char) × Value)}
    (h : ∀ f ∈ fields, f.1 ≠ some name.toList) (default : α) (read : Value → Option α) :
    field? fields name default read = some default := by
  rw [field?, filter_missing h]

theorem field?_only (h : ∀ f ∈ before ++ after, f.1 ≠ some name.toList) (v : Value) (default : α)
    (read : Value → Option α) :
    field? (before ++ (some name.toList, v) :: after) name default read = read v := by
  have hbefore := filter_missing fun f hf => h f (List.mem_append_left after hf)
  have hafter := filter_missing fun f hf => h f (List.mem_append_right before hf)
  rw [field?, List.filter_append, hbefore, List.filter_cons_of_pos (by simp), hafter]
  rfl

end

theorem ofJson?_object_eq_some_iff {fields : List (Option (List Char) × Value)} {c : Config} :
    ofJson? (.object fields) = some c ↔
      fields.all (fun f => f.1.isSome) = true ∧
      field? fields "cache" .always MemoPolicy.ofJson? = some c.memo ∧
      field? fields "lru_capacity" 4096 ofLruJson? = some c.lruCapacity ∧
      field? fields "timeout" none ofTimeoutJson? = some c.timeout := by
  constructor
  · intro h
    obtain ⟨u, hnames, h⟩ := Option.bind_eq_some_iff.mp h
    obtain ⟨memo, hmemo, h⟩ := Option.bind_eq_some_iff.mp h
    obtain ⟨lru, hlru, h⟩ := Option.bind_eq_some_iff.mp h
    obtain ⟨timeout, htimeout, h⟩ := Option.bind_eq_some_iff.mp h
    obtain rfl : Config.mk memo lru timeout = c := Option.some.inj h
    exact ⟨(Option.guard_eq_some' u).mp hnames, hmemo, hlru, htimeout⟩
  · rintro ⟨hnames, hmemo, hlru, htimeout⟩
    rw [ofJson?, (Option.guard_eq_some' ()).mpr hnames]
    simp only [hmemo, hlru, htimeout, bind, Option.bind_some]
    rfl

/-! ### Time limits -/

/-- Documents that give the configuration `c` apart from its time limit, and `v` as that. -/
inductive LimitedBy (c : Config) (v : Value) : Value → Prop where
  | field {before after : List (Option (List Char) × Value)} :
    (∀ f ∈ before ++ after, f.1 ≠ some "timeout".toList) →
    ofJson? (.object (before ++ after)) = some c →
      LimitedBy c v (.object (before ++ (some "timeout".toList, v) :: after))
  | third {memo lru : Value} : ofJson? (.array [memo, lru]) = some c →
      LimitedBy c v (.array [memo, lru, v])

theorem LimitedBy.ofJson?_eq_some_iff {c c' : Config} {v doc : Value} (h : c.LimitedBy v doc) :
    ofJson? doc = some c' ↔
      ∃ timeout, ofTimeoutJson? v = some timeout ∧ c' = { c with timeout } := by
  cases h with
  | @field before after hothers hc =>
    have hnames : (before ++ (some "timeout".toList, v) :: after).all (fun f => f.1.isSome) =
        (before ++ after).all (fun f => f.1.isSome) := by
      simp only [List.all_append, List.all_cons, Option.isSome_some, Bool.true_and]
    obtain ⟨hall, hmemo, hlru, -⟩ := ofJson?_object_eq_some_iff.mp hc
    rw [ofJson?_object_eq_some_iff, hnames, field?_insert (by decide : "timeout" ≠ "cache"), hmemo,
      field?_insert (by decide : "timeout" ≠ "lru_capacity"), hlru, field?_only hothers]
    constructor
    · rintro ⟨-, hmemo, hlru, htimeout⟩
      refine ⟨c'.timeout, htimeout, ?_⟩
      rw [Option.some.inj hmemo, Option.some.inj hlru]
    · rintro ⟨timeout, htimeout, rfl⟩
      exact ⟨hall, rfl, rfl, htimeout⟩
  | third hc =>
    obtain ⟨memo, hmemo, hc⟩ := Option.bind_eq_some_iff.mp hc
    obtain ⟨lru, hlru, hc⟩ := Option.bind_eq_some_iff.mp hc
    obtain rfl : { memo, lruCapacity := lru } = c := Option.some.inj hc
    simp only [ofJson?, hmemo, hlru, bind, Option.bind_some, Option.bind_eq_some_iff, pure,
      Option.some.injEq, eq_comm (a := c')]

theorem ofLruJson?_ofNat (n : UInt64) : ofLruJson? (.ofNat n.toNat) = some n := by
  rw [ofLruJson?, Value.toNat?_ofNat, if_pos n.toNat_lt, Option.map_some, UInt64.ofNat_toNat]

theorem ofTimeoutJson?_timeoutValue (timeout : Option Duration) :
    ofTimeoutJson? (timeoutValue timeout) = some timeout := by
  cases timeout with
  | none => rfl
  | some d => exact congrArg (Option.map some) d.ofJson?_toValue

theorem limitedBy_toValue (c : Config) :
    { c with timeout := none }.LimitedBy (timeoutValue c.timeout) c.toValue := by
  let fields : List (Option (List Char) × Value) :=
    [(some "cache".toList, .string (some c.memo.name.toList)),
      (some "lru_capacity".toList, .ofNat c.lruCapacity.toNat)]
  have hothers : ∀ f ∈ fields ++ [], f.1 ≠ some "timeout".toList := by simp [fields]
  have hread : ofJson? (.object (fields ++ [])) = some { c with timeout := none } :=
    ofJson?_object_eq_some_iff.mpr
      ⟨rfl, c.memo.ofJson?_name, ofLruJson?_ofNat c.lruCapacity, field?_missing hothers _ _⟩
  exact .field hothers hread

theorem ofJson?_toValue (c : Config) : ofJson? c.toValue = some c :=
  c.limitedBy_toValue.ofJson?_eq_some_iff.mpr
    ⟨c.timeout, ofTimeoutJson?_timeoutValue c.timeout, rfl⟩

theorem parse?_toJson (c : Config) : parse? c.toJson = some c := by
  rw [parse?, Json.parse?_of_text c.text_toJson, Option.bind_some, c.ofJson?_toValue]

theorem parse?_eq {secs nanos : Nat} {v doc : Value} {c : Config} {text : String}
    (hs : secs < UInt64.size) (hn : nanos < UInt32.size) (hv : Duration.Spells secs nanos v)
    (hdoc : c.LimitedBy v doc) (htext : Text (.value doc) text.toList) :
    parse? text =
      (Duration.ofParts? secs nanos).map fun d => { c with timeout := some d } := by
  have htimeout : ofTimeoutJson? v = (Duration.ofParts? secs nanos).map some := by
    rw [← hv.ofJson?_eq hs hn]
    cases hv <;> rfl
  refine Option.ext fun c' => ?_
  rw [parse?, Json.parse?_of_text htext, Option.bind_some, hdoc.ofJson?_eq_some_iff, htimeout]
  simp [eq_comm]

/-- What is written for a configuration is read as that configuration. A document with a time
limit of `secs` and `nanos` is read exactly if its seconds, with those among the nanoseconds, fit
in 64 bits, and then as the duration of so many nanoseconds. -/
theorem json_roundTrip :
    (∀ c : Config, parse? c.toJson = some c) ∧
      ∀ {secs nanos : Nat} {v doc : Value} {c : Config} {text : String},
        secs < UInt64.size → nanos < UInt32.size → Duration.Spells secs nanos v →
        c.LimitedBy v doc → Text (.value doc) text.toList →
          ((parse? text).isSome = true ↔ secs + nanos / 1000000000 < UInt64.size) ∧
          ∀ c', parse? text = some c' ↔ ∃ d : Duration,
            d.toNanos = secs * 1000000000 + nanos ∧ c' = { c with timeout := some d } := by
  refine ⟨parse?_toJson, fun hs hn hv hdoc htext => ?_⟩
  rw [parse?_eq hs hn hv hdoc htext]
  refine ⟨by rw [Option.isSome_map, Duration.isSome_ofParts?_iff], fun c' => ?_⟩
  simp only [Option.map_eq_some_iff, Duration.ofParts?_eq_some_iff, eq_comm (b := c')]

theorem json_roundTrip_carry :
    parse? "\x7b\"timeout\": [18446744073709551611, 4294967295]\x7d" =
        some { timeout := some ⟨18446744073709551615, 294967295⟩ } ∧
      (parse? "\x7b\"timeout\": [18446744073709551612, 4294967295]\x7d").isSome = false := by
  have htext (secs : Nat) := Text.object <|
    .lastField (text_name "timeout".toList (by decide)) <| .before (b := ' ') rfl <| .array <|
    .item (text_ofNat secs) <| .lastItem <| .before (b := ' ') rfl <| text_ofNat 4294967295
  have hdoc (v : Value) := @LimitedBy.field {} v [] [] (by simp) rfl
  constructor
  · have hread := @json_roundTrip.2 18446744073709551611 4294967295 _ _ _
      "\x7b\"timeout\": [18446744073709551611, 4294967295]\x7d"
      (by decide) (by decide) .pair (hdoc _) (htext _)
    exact (hread.2 _).mpr ⟨_, by decide, rfl⟩
  · have hread := @json_roundTrip.2 18446744073709551612 4294967295 _ _ _
      "\x7b\"timeout\": [18446744073709551612, 4294967295]\x7d"
      (by decide) (by decide) .pair (hdoc _) (htext _)
    simpa using hread.1

end Config

end Linearizability
