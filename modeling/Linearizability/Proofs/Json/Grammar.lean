import Linearizability.Json.Reader
import Mathlib.Data.List.DropRight

/-!
# The grammar of JSON

`Text part cs` says that the characters `cs` are a text of a part of a
document. Blanks may stand before and behind every part. The reader reads
every text: a value is read up to the blanks behind it, as long as what
follows does not go on with a number.
-/

namespace Linearizability.Json

/-! ## The texts -/

structure Digits (cs : List Char) : Prop where
  ne_nil : cs ≠ []
  isDigit : ∀ c ∈ cs, Value.isDigit c = true

/-- An integer does not start with a zero, unless it is zero. -/
inductive Whole : List Char → Prop where
  | zero : Whole ['0']
  | digits {c : Char} {cs : List Char} : Digits (c :: cs) → c ≠ '0' → Whole (c :: cs)

inductive Fraction : List Char → Prop where
  | absent : Fraction []
  | present {cs : List Char} : Digits cs → Fraction ('.' :: cs)

inductive Exponent : List Char → Prop where
  | absent : Exponent []
  | present {e : Char} {sign cs : List Char} : e = 'e' ∨ e = 'E' →
      sign = [] ∨ sign = ['+'] ∨ sign = ['-'] → Digits cs → Exponent (e :: (sign ++ cs))

inductive Numeral : List Char → Prop where
  | plain {w f e : List Char} : Whole w → Fraction f → Exponent e → Numeral (w ++ f ++ e)
  | minus {w f e : List Char} : Whole w → Fraction f → Exponent e → Numeral ('-' :: (w ++ f ++ e))

/-- The characters between the quotes of a string, which stand for these code units. -/
inductive Units : List Nat → List Char → Prop where
  | nil : Units [] []
  | char {c : Char} {us : List Nat} {cs : List Char} : c ≠ '"' → c ≠ '\\' → 32 ≤ c.toNat →
      Units us cs → Units (c.toNat :: us) (c :: cs)
  | escape {c e : Char} {us : List Nat} {cs : List Char} : escaped? c = some e → Units us cs →
      Units (e.toNat :: us) ('\\' :: c :: cs)
  | hex {a b c d : Char} {u : Nat} {us : List Nat} {cs : List Char} : hex4? a b c d = some u →
      Units us cs → Units (u :: us) ('\\' :: 'u' :: a :: b :: c :: d :: cs)

inductive Part where
  | name (text : Option (List Char))
  | value (v : Value)
  /-- The items of an array, of which there is one at least, and the bracket behind them. -/
  | items (vs : List Value)
  /-- The fields of an object, of which there is one at least, and the brace behind them. -/
  | fields (fs : List (Option (List Char) × Value))

inductive Text : Part → List Char → Prop where
  | before {p : Part} {b : Char} {cs : List Char} : isBlank b = true → Text p cs → Text p (b :: cs)
  | behind {p : Part} {b : Char} {cs : List Char} : isBlank b = true → Text p cs →
      Text p (cs ++ [b])
  | name {us : List Nat} {cs : List Char} : Units us cs →
      Text (.name (decodeUnits? us)) ('"' :: (cs ++ ['"']))
  | null : Text (.value .null) ['n', 'u', 'l', 'l']
  | yes : Text (.value (.bool true)) ['t', 'r', 'u', 'e']
  | no : Text (.value (.bool false)) ['f', 'a', 'l', 's', 'e']
  | number {cs : List Char} : Numeral cs → Text (.value (.number cs)) cs
  | string {text : Option (List Char)} {cs : List Char} : Text (.name text) cs →
      Text (.value (.string text)) cs
  | noItems {cs : List Char} : (∀ c ∈ cs, isBlank c = true) →
      Text (.value (.array [])) ('[' :: (cs ++ [']']))
  | array {vs : List Value} {cs : List Char} : Text (.items vs) cs →
      Text (.value (.array vs)) ('[' :: cs)
  | lastItem {v : Value} {cs : List Char} : Text (.value v) cs → Text (.items [v]) (cs ++ [']'])
  | item {v : Value} {vs : List Value} {cs ds : List Char} : Text (.value v) cs →
      Text (.items vs) ds → Text (.items (v :: vs)) (cs ++ ',' :: ds)
  | noFields {cs : List Char} : (∀ c ∈ cs, isBlank c = true) →
      Text (.value (.object [])) ('{' :: (cs ++ ['}']))
  | object {fs : List (Option (List Char) × Value)} {cs : List Char} : Text (.fields fs) cs →
      Text (.value (.object fs)) ('{' :: cs)
  | lastField {text : Option (List Char)} {v : Value} {cs ds : List Char} : Text (.name text) cs →
      Text (.value v) ds → Text (.fields [(text, v)]) (cs ++ ':' :: (ds ++ ['}']))
  | field {text : Option (List Char)} {v : Value} {fs : List (Option (List Char) × Value)}
    {cs ds es : List Char} : Text (.name text) cs → Text (.value v) ds → Text (.fields fs) es →
      Text (.fields ((text, v) :: fs)) (cs ++ ':' :: (ds ++ ',' :: es))

/-! ## Blanks -/

theorem skipBlanks_blank {b : Char} (hb : isBlank b = true) (cs : List Char) :
    skipBlanks (b :: cs) = skipBlanks cs :=
  List.dropWhile_cons_of_pos hb

theorem skipBlanks_other {c : Char} (hc : isBlank c = false) (cs : List Char) :
    skipBlanks (c :: cs) = c :: cs :=
  List.dropWhile_cons_of_neg (by simp [hc])

theorem skipBlanks_append {bs : List Char} (hb : ∀ b ∈ bs, isBlank b = true) (cs : List Char) :
    skipBlanks (bs ++ cs) = skipBlanks cs :=
  List.dropWhile_append_of_pos hb

theorem skipBlanks_idem (cs : List Char) : skipBlanks (skipBlanks cs) = skipBlanks cs :=
  List.dropWhile_idempotent _ cs

/-! ## Numbers -/

def NoDigit (rest : List Char) : Prop := ∀ c ∈ rest.head?, Value.isDigit c = false

/-- What follows does not go on with a number. -/
def Ends (rest : List Char) : Prop :=
  ∀ c ∈ rest.head?, Value.isDigit c = false ∧ c ≠ '.' ∧ c ≠ 'e' ∧ c ≠ 'E'

theorem Ends.noDigit {rest : List Char} (h : Ends rest) : NoDigit rest := fun c hc => (h c hc).1

theorem digits_append {ds rest : List Char} (hd : Digits ds) (hr : NoDigit rest) :
    digits (ds ++ rest) = some (ds, rest) := by
  have htake : (ds ++ rest).takeWhile Value.isDigit = ds := by
    rw [List.takeWhile_append_of_pos hd.isDigit]
    cases rest with
    | nil => simp
    | cons c rest => simp [hr c rfl]
  have hdrop : (ds ++ rest).dropWhile Value.isDigit = rest := by
    rw [List.dropWhile_append_of_pos hd.isDigit]
    cases rest with
    | nil => rfl
    | cons c rest => simp [hr c rfl]
  rw [digits, htake, hdrop]
  cases ds with
  | nil => exact absurd rfl hd.ne_nil
  | cons c ds => rfl

theorem integerPart_append {w rest : List Char} (hw : Whole w) (hr : NoDigit rest) :
    integerPart (w ++ rest) = some (w, rest) := by
  cases hw with
  | zero => rfl
  | digits hd hc =>
    rw [← digits_append hd hr]
    unfold integerPart
    split
    · rename_i heq
      exact absurd (List.cons.inj heq).1 hc
    · rfl

theorem fraction_append {f rest : List Char} (hf : Fraction f) (hr : NoDigit rest)
    (hdot : ∀ c ∈ rest.head?, c ≠ '.') : fraction (f ++ rest) = some (f, rest) := by
  cases hf with
  | absent =>
    rw [List.nil_append]
    unfold fraction
    split
    · exact absurd rfl (hdot '.' rfl)
    · rfl
  | present hd => simp only [List.cons_append, fraction, digits_append hd hr, Option.map_some]

theorem exponentDigits_append {sign ds rest : List Char}
    (hs : sign = [] ∨ sign = ['+'] ∨ sign = ['-']) (hd : Digits ds) (hr : NoDigit rest) :
    exponentDigits (sign ++ ds ++ rest) = some (sign ++ ds, rest) := by
  rcases hs with rfl | rfl | rfl
  · have hdigits := digits_append hd hr
    rw [List.nil_append, ← hdigits]
    unfold exponentDigits
    split
    · rename_i heq
      rw [heq] at hdigits
      cases hdigits
    · rename_i heq
      rw [heq] at hdigits
      cases hdigits
    · rfl
  · simp only [List.cons_append, List.nil_append, exponentDigits, digits_append hd hr,
      Option.map_some]
  · simp only [List.cons_append, List.nil_append, exponentDigits, digits_append hd hr,
      Option.map_some]

theorem exponent_append {e rest : List Char} (he : Exponent e) (hr : Ends rest) :
    exponent (e ++ rest) = some (e, rest) := by
  cases he with
  | absent =>
    rw [List.nil_append]
    unfold exponent
    split
    · exact absurd rfl (hr 'e' rfl).2.2.1
    · exact absurd rfl (hr 'E' rfl).2.2.2
    · rfl
  | present he hs hd =>
    have hdigits := exponentDigits_append hs hd hr.noDigit
    rcases he with rfl | rfl <;>
      simp only [List.cons_append, exponent, hdigits, Option.map_some]

theorem Exponent.noDigit {e rest : List Char} (he : Exponent e) (hr : Ends rest) :
    NoDigit (e ++ rest) ∧ ∀ c ∈ (e ++ rest).head?, c ≠ '.' := by
  cases he with
  | absent => exact ⟨hr.noDigit, fun c hc => (hr c hc).2.1⟩
  | present he => rcases he with rfl | rfl <;> simp [NoDigit, Value.isDigit]

theorem Fraction.noDigit {f rest : List Char} (hf : Fraction f) (hr : NoDigit rest) :
    NoDigit (f ++ rest) := by
  cases hf with
  | absent => exact hr
  | present => simp [NoDigit, Value.isDigit]

theorem unsigned_append {w f e rest : List Char} (hw : Whole w) (hf : Fraction f) (he : Exponent e)
    (hr : Ends rest) : unsigned (w ++ f ++ e ++ rest) = some (w ++ f ++ e, rest) := by
  obtain ⟨hed, hdot⟩ := he.noDigit hr
  rw [List.append_assoc, List.append_assoc]
  simp only [unsigned, integerPart_append hw (hf.noDigit hed), fraction_append hf hed hdot,
    exponent_append he hr, bind, Option.bind, pure]

theorem Numeral.exists_cons {cs : List Char} (hn : Numeral cs) :
    ∃ c ds, cs = c :: ds ∧ (c = '-' ∨ Value.isDigit c = true) := by
  have hwhole : ∀ {w : List Char}, Whole w → ∃ c ds, w = c :: ds ∧ Value.isDigit c = true := by
    rintro _ (_ | ⟨hd, _⟩)
    · exact ⟨'0', [], rfl, rfl⟩
    · exact ⟨_, _, rfl, hd.isDigit _ List.mem_cons_self⟩
  cases hn with
  | plain hw =>
    obtain ⟨c, ds, rfl, hc⟩ := hwhole hw
    exact ⟨c, _, rfl, .inr hc⟩
  | minus => exact ⟨'-', _, rfl, .inl rfl⟩

theorem number_append {cs rest : List Char} (hn : Numeral cs) (hr : Ends rest) :
    number (cs ++ rest) = some (cs, rest) := by
  cases hn with
  | plain hw hf he =>
    have hunsigned := unsigned_append hw hf he hr
    rw [← hunsigned]
    unfold number
    split
    · rename_i heq
      rw [heq] at hunsigned
      cases hunsigned
    · rfl
  | minus hw hf he =>
    simp only [List.cons_append, number, unsigned_append hw hf he hr, Option.map_some]

/-! ## Strings -/

theorem stringUnits_append {us : List Nat} {cs : List Char} (hu : Units us cs) (rest : List Char) :
    stringUnits (cs ++ '"' :: rest) = some (us, rest) := by
  induction hu with
  | nil => rfl
  | char hquote hslash hprint _ ih =>
    rw [List.cons_append, stringUnits, ih]
    · simp [Nat.not_lt.mpr hprint]
    · simpa using hquote
    · simp [hslash]
    · simp [hslash]
  | escape he _ ih =>
    rw [List.cons_append, List.cons_append, stringUnits, ih, he]
    · rintro _ _ _ _ _ rfl
      cases he
  | hex hu _ ih => simp only [List.cons_append, stringUnits, hu, ih]

theorem string_append {us : List Nat} {cs : List Char} (hu : Units us cs) (rest : List Char) :
    string (cs ++ '"' :: rest) = some (decodeUnits? us, rest) := by
  rw [string, stringUnits_append hu, Option.map_some]

/-! ## Values -/

theorem value_congr {cs ds : List Char} (h : skipBlanks cs = skipBlanks ds) (depth : Nat) :
    value depth cs = value depth ds := by
  cases depth with
  | zero => rfl
  | succ depth => rw [value, value, h]

theorem items_congr {cs ds : List Char} (h : skipBlanks cs = skipBlanks ds) (depth : Nat) :
    items depth cs = items depth ds := by
  cases depth with
  | zero => rfl
  | succ depth => rw [items, items, value_congr h]

theorem fields_congr {cs ds : List Char} (h : skipBlanks cs = skipBlanks ds) (depth : Nat) :
    fields depth cs = fields depth ds := by
  cases depth with
  | zero => rfl
  | succ depth => rw [fields, fields, h]

theorem value_bracket {cs ds : List Char} (h : skipBlanks cs = ']' :: ds) (depth : Nat) :
    value depth cs = none := by
  cases depth with
  | zero => rfl
  | succ depth =>
    rw [value, h]
    rfl

theorem value_number {cs rest : List Char} (hn : Numeral cs) (hr : Ends rest) (depth : Nat) :
    value (depth + 1) (cs ++ rest) = some (.number cs, rest) := by
  have hnumber := number_append hn hr
  obtain ⟨c, ds, rfl, hc⟩ := hn.exists_cons
  have hstart : ∀ x ∈ ['n', 't', 'f', '"', '[', '{', ' ', '\n', '\t', '\r'], c ≠ x := by
    rintro x hx rfl
    simp only [List.mem_cons, List.not_mem_nil, or_false] at hx
    rcases hx with rfl | rfl | rfl | rfl | rfl | rfl | rfl | rfl | rfl | rfl <;> revert hc <;> decide
  have hblank : isBlank c = false := by simp [isBlank, hstart]
  rw [value, List.cons_append, skipBlanks_other hblank]
  split
  iterate 6 exact absurd (List.cons.inj ‹_›).1 (hstart _ (by simp))
  rw [← List.cons_append, hnumber]
  rfl

theorem value_string {cs body r : List Char} {text : Option (List Char)}
    (hc : skipBlanks cs = '"' :: body) (ht : string body = some (text, r)) (depth : Nat) :
    value (depth + 1) cs = some (.string text, r) := by
  rw [value, hc]
  simp only [ht, Option.map_some]

theorem value_open (depth : Nat) (cs : List Char) :
    value (depth + 1) ('[' :: cs) =
      match skipBlanks cs with
      | ']' :: rest => some (.array [], rest)
      | rest => (items depth rest).map fun (vs, rest) => (.array vs, rest) := rfl

theorem value_array {depth : Nat} {cs r : List Char} {vs : List Value}
    (hi : items depth cs = some (vs, r)) : value (depth + 1) ('[' :: cs) = some (.array vs, r) := by
  rw [value_open]
  split
  · rename_i heq
    cases depth with
    | zero => cases hi
    | succ depth => rw [items, value_bracket heq] at hi; cases hi
  · rw [items_congr (skipBlanks_idem cs), hi]
    rfl

theorem value_openBrace (depth : Nat) (cs : List Char) :
    value (depth + 1) ('{' :: cs) =
      match skipBlanks cs with
      | '}' :: rest => some (.object [], rest)
      | rest => (fields depth rest).map fun (fs, rest) => (.object fs, rest) := rfl

theorem value_object {depth : Nat} {cs r : List Char} {fs : List (Option (List Char) × Value)}
    (hf : fields depth cs = some (fs, r)) :
    value (depth + 1) ('{' :: cs) = some (.object fs, r) := by
  rw [value_openBrace]
  split
  · rename_i heq
    cases depth with
    | zero => cases hf
    | succ depth => rw [fields, heq] at hf; cases hf
  · rw [fields_congr (skipBlanks_idem cs), hf]
    rfl

theorem items_last {depth : Nat} {cs r rest : List Char} {v : Value}
    (hv : value depth cs = some (v, r)) (hr : skipBlanks r = ']' :: rest) :
    items (depth + 1) cs = some ([v], rest) := by
  simp only [items, hv, hr]

theorem items_cons {depth : Nat} {cs r ds rest : List Char} {v : Value} {vs : List Value}
    (hv : value depth cs = some (v, r)) (hr : skipBlanks r = ',' :: ds)
    (hi : items depth ds = some (vs, rest)) : items (depth + 1) cs = some (v :: vs, rest) := by
  simp only [items, hv, hr, hi, Option.map_some]

theorem fields_last {depth : Nat} {cs body r ds r' rest : List Char} {text : Option (List Char)}
    {v : Value} (hc : skipBlanks cs = '"' :: body) (ht : string body = some (text, r))
    (hcolon : skipBlanks r = ':' :: ds) (hv : value depth ds = some (v, r'))
    (hr : skipBlanks r' = '}' :: rest) : fields (depth + 1) cs = some ([(text, v)], rest) := by
  simp only [fields, hc, ht, hcolon, hv, hr]

theorem fields_cons {depth : Nat} {cs body r ds r' es rest : List Char}
    {text : Option (List Char)} {v : Value} {fs : List (Option (List Char) × Value)}
    (hc : skipBlanks cs = '"' :: body) (ht : string body = some (text, r))
    (hcolon : skipBlanks r = ':' :: ds) (hv : value depth ds = some (v, r'))
    (hr : skipBlanks r' = ',' :: es) (hf : fields depth es = some (fs, rest)) :
    fields (depth + 1) cs = some ((text, v) :: fs, rest) := by
  simp only [fields, hc, ht, hcolon, hv, hr, hf, Option.map_some]

/-! ## Texts -/

/-- The reader of a part stops somewhere in the blanks before `rest`. -/
def Part.Reads (depth : Nat) (cs rest : List Char) : Part → Prop
  | .name text => ∃ body r, skipBlanks cs = '"' :: body ∧ Json.string body = some (text, r) ∧
      skipBlanks r = skipBlanks rest
  | .value v => ∃ r, Json.value depth cs = some (v, r) ∧ skipBlanks r = skipBlanks rest
  | .items vs => ∃ r, Json.items depth cs = some (vs, r) ∧ skipBlanks r = skipBlanks rest
  | .fields fs => ∃ r, Json.fields depth cs = some (fs, r) ∧ skipBlanks r = skipBlanks rest

theorem Part.Reads.congr {p : Part} {depth : Nat} {cs ds rest rest' : List Char}
    (h : p.Reads depth cs rest) (hc : skipBlanks ds = skipBlanks cs)
    (hr : skipBlanks rest = skipBlanks rest') : p.Reads depth ds rest' := by
  cases p with
  | name text =>
    obtain ⟨body, r, hskip, hstring, hrest⟩ := h
    exact ⟨body, r, hc.trans hskip, hstring, hrest.trans hr⟩
  | value v =>
    obtain ⟨r, hread, hrest⟩ := h
    exact ⟨r, (value_congr hc depth).trans hread, hrest.trans hr⟩
  | items vs =>
    obtain ⟨r, hread, hrest⟩ := h
    exact ⟨r, (items_congr hc depth).trans hread, hrest.trans hr⟩
  | fields fs =>
    obtain ⟨r, hread, hrest⟩ := h
    exact ⟨r, (fields_congr hc depth).trans hread, hrest.trans hr⟩

theorem ends_of_mem {c : Char} (hc : c ∈ [' ', '\n', '\t', '\r', ',', ':', ']', '}'])
    (rest : List Char) : Ends (c :: rest) := by
  rintro _ ⟨⟩
  simp only [List.mem_cons, List.not_mem_nil, or_false] at hc
  rcases hc with rfl | rfl | rfl | rfl | rfl | rfl | rfl | rfl <;> decide

theorem ends_blank {b : Char} (hb : isBlank b = true) (rest : List Char) : Ends (b :: rest) := by
  simp only [isBlank, Bool.or_eq_true, beq_iff_eq] at hb
  exact ends_of_mem (by simp; tauto) rest

/-- Each level and each item of a text takes a character or more. -/
theorem Text.reads {p : Part} {cs : List Char} (h : Text p cs) (rest : List Char) (hr : Ends rest)
    (depth : Nat) (hd : 2 * cs.length ≤ depth) : p.Reads (depth + 1) (cs ++ rest) rest := by
  induction h generalizing rest depth with
  | before hb _ ih =>
    rw [List.length_cons] at hd
    exact (ih rest hr depth (by omega)).congr (skipBlanks_blank hb _) rfl
  | behind hb _ ih =>
    rw [List.length_append] at hd
    rw [List.append_assoc]
    exact (ih _ (ends_blank hb rest) depth (by omega)).congr rfl (skipBlanks_blank hb rest)
  | name hu =>
    rw [List.cons_append, List.append_assoc]
    exact ⟨_, rest, rfl, string_append hu rest, rfl⟩
  | null => exact ⟨rest, rfl, rfl⟩
  | yes => exact ⟨rest, rfl, rfl⟩
  | no => exact ⟨rest, rfl, rfl⟩
  | number hn => exact ⟨rest, value_number hn hr depth, rfl⟩
  | string _ ih =>
    obtain ⟨body, r, hskip, hstring, hrest⟩ := ih rest hr depth hd
    exact ⟨r, value_string hskip hstring depth, hrest⟩
  | noItems hb =>
    rw [List.cons_append, List.append_assoc]
    refine ⟨rest, ?_, rfl⟩
    rw [value_open, skipBlanks_append hb]
    rfl
  | noFields hb =>
    rw [List.cons_append, List.append_assoc]
    refine ⟨rest, ?_, rfl⟩
    rw [value_openBrace, skipBlanks_append hb]
    rfl
  -- the parts of the others are read one level below
  | array _ ih =>
    rw [List.length_cons] at hd
    obtain ⟨below, rfl⟩ : ∃ below, depth = below + 1 := ⟨depth - 1, by omega⟩
    obtain ⟨r, hread, hrest⟩ := ih rest hr below (by omega)
    exact ⟨r, value_array hread, hrest⟩
  | object _ ih =>
    rw [List.length_cons] at hd
    obtain ⟨below, rfl⟩ : ∃ below, depth = below + 1 := ⟨depth - 1, by omega⟩
    obtain ⟨r, hread, hrest⟩ := ih rest hr below (by omega)
    exact ⟨r, value_object hread, hrest⟩
  | lastItem _ ih =>
    rw [List.length_append, List.length_singleton] at hd
    rw [List.append_assoc]
    obtain ⟨below, rfl⟩ : ∃ below, depth = below + 1 := ⟨depth - 1, by omega⟩
    obtain ⟨r, hread, hbracket⟩ := ih (']' :: rest) (ends_of_mem (by decide) rest) below (by omega)
    exact ⟨rest, items_last hread hbracket, rfl⟩
  | item _ _ ihv ihs =>
    rw [List.length_append, List.length_cons] at hd
    rw [List.append_assoc]
    obtain ⟨below, rfl⟩ : ∃ below, depth = below + 1 := ⟨depth - 1, by omega⟩
    obtain ⟨r, hread, hcomma⟩ := ihv (',' :: _) (ends_of_mem (by decide) _) below (by omega)
    obtain ⟨r', hreads, hrest⟩ := ihs rest hr below (by omega)
    exact ⟨r', items_cons hread hcomma hreads, hrest⟩
  | lastField _ _ ihn ihv =>
    simp only [List.length_append, List.length_cons] at hd
    simp only [List.append_assoc, List.cons_append]
    obtain ⟨below, rfl⟩ : ∃ below, depth = below + 1 := ⟨depth - 1, by omega⟩
    obtain ⟨_, r, hskip, hname, hcolon⟩ :=
      ihn (':' :: _) (ends_of_mem (by decide) _) below (by omega)
    obtain ⟨r', hread, hbrace⟩ := ihv ('}' :: rest) (ends_of_mem (by decide) _) below (by omega)
    exact ⟨rest, fields_last hskip hname hcolon hread hbrace, rfl⟩
  | field _ _ _ ihn ihv ihs =>
    simp only [List.length_append, List.length_cons] at hd
    simp only [List.append_assoc, List.cons_append]
    obtain ⟨below, rfl⟩ : ∃ below, depth = below + 1 := ⟨depth - 1, by omega⟩
    obtain ⟨_, r, hskip, hname, hcolon⟩ :=
      ihn (':' :: _) (ends_of_mem (by decide) _) below (by omega)
    obtain ⟨r', hread, hcomma⟩ := ihv (',' :: _) (ends_of_mem (by decide) _) below (by omega)
    obtain ⟨r'', hreads, hrest⟩ := ihs rest hr below (by omega)
    exact ⟨r'', fields_cons hskip hname hcolon hread hcomma hreads, hrest⟩

theorem parse?_of_text {v : Value} {cs : List Char} (h : Text (.value v) cs) :
    parse? cs = some v := by
  obtain ⟨r, hread, hrest⟩ := h.reads [] (by simp [Ends]) (2 * cs.length + 1) (by omega)
  rw [List.append_nil] at hread
  rw [parse?, hread]
  exact if_pos hrest

end Linearizability.Json
