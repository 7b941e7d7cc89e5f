import MahjongAI.JsonNumbers
import MahjongAI.JsonStrings

/-!
# What the JSON Reader Takes

`Denotes` is the grammar of the texts that the reader takes for values, and `Aborts` the texts
in front of which it aborts: it comes to a string or a number that it aborts at, with nothing
but values before it in the arrays and objects that are open. Neither mentions the reader.

## Main results

* `document_of_jsonText`: a text of the grammar, up to its NUL, is read as its value.
* `document_of_aborts`: the reader aborts where `Aborts` says so.
* `document_cases`: every other text is a parse error, and its document is null.
-/

namespace MahjongAI.Json

/-! ### The grammar -/

/-- White space. -/
def Blank (ws : List Char) : Prop :=
  ∀ c ∈ ws, c = ' ' ∨ c = '\n' ∨ c = '\r' ∨ c = '\t'

/-- Texts with a comma after each. -/
def each (ts : List (List Char)) : List Char :=
  ts.flatMap fun t => t ++ [',']

/-- The parts of a member: white space, the name between its quotes, white space up to the
colon, and the text of the value. -/
structure MemberText where
  before : List Char
  name : List Char
  after : List Char
  value : List Char

/-- The text of a member. -/
def MemberText.text (m : MemberText) : List Char :=
  m.before ++ '"' :: (m.name ++ '"' :: (m.after ++ ':' :: m.value))

/-- The member is named `x`. -/
structure MemberText.Named (m : MemberText) (x : List Char) : Prop where
  before : Blank m.before
  name : CharsText m.name x
  after : Blank m.after

/-- The text `t` denotes the value `v`. -/
inductive Denotes : List Char → Value → Prop
  | null : Denotes ['n', 'u', 'l', 'l'] .null
  | true : Denotes ['t', 'r', 'u', 'e'] (.bool true)
  | false : Denotes ['f', 'a', 'l', 's', 'e'] (.bool false)
  | string {t x : List Char} (h : CharsText t x) : Denotes ('"' :: (t ++ ['"'])) (.string x)
  | integer {p : NumberText} (hp : p.Valid) (hinteger : p.IsInteger) (hfits : p.Fits) :
      Denotes p.text (.number p.value)
  | double {p : NumberText} {d : Float} (hp : p.Valid) (h : p.convert = .ok (.double d)) :
      Denotes p.text (.double d)
  | emptyArray {ws : List Char} (h : Blank ws) : Denotes ('[' :: (ws ++ [']'])) (.array [])
  | array {items : List (List Char × Value)} {t : List Char} {v : Value}
      (hitems : ∀ i ∈ items, Denotes i.1 i.2) (ht : Denotes t v) :
      Denotes ('[' :: (each (items.map Prod.fst) ++ (t ++ [']'])))
        (.array (items.map Prod.snd ++ [v]))
  | emptyObject {ws : List Char} (h : Blank ws) : Denotes ('{' :: (ws ++ ['}'])) (.object [])
  | object {items : List (MemberText × List Char × Value)} {m : MemberText} {x : List Char}
      {v : Value} (hnames : ∀ i ∈ items, i.1.Named i.2.1)
      (hitems : ∀ i ∈ items, Denotes i.1.value i.2.2) (hname : m.Named x)
      (ht : Denotes m.value v) :
      Denotes ('{' :: (each (items.map fun i => i.1.text) ++ (m.text ++ ['}'])))
        (.object (items.map Prod.snd ++ [(x, v)]))
  | blank {ws ws' t : List Char} {v : Value} (h : Blank ws) (h' : Blank ws')
      (ht : Denotes t v) : Denotes (ws ++ (t ++ ws')) v

/-- The reader aborts when it takes a value from the start of the text. -/
inductive Aborts : Stream → Prop
  | string {s : Stream} (h : StringAborts s) : Aborts ('"' :: s)
  | number {p : NumberText} {r : Stream} (hp : p.Valid) (hr : p.Ends r)
      (h : p.convert = .error .abort) : Aborts (p.text ++ r)
  | element {items : List (List Char × Value)} {s : Stream}
      (hitems : ∀ i ∈ items, Denotes i.1 i.2) (hs : Aborts s) :
      Aborts ('[' :: (each (items.map Prod.fst) ++ s))
  | name {items : List (MemberText × List Char × Value)} {ws : List Char} {s : Stream}
      (hnames : ∀ i ∈ items, i.1.Named i.2.1) (hitems : ∀ i ∈ items, Denotes i.1.value i.2.2)
      (h : Blank ws) (hs : StringAborts s) :
      Aborts ('{' :: (each (items.map fun i => i.1.text) ++ (ws ++ '"' :: s)))
  | member {items : List (MemberText × List Char × Value)} {m : MemberText} {x : List Char}
      (hnames : ∀ i ∈ items, i.1.Named i.2.1) (hitems : ∀ i ∈ items, Denotes i.1.value i.2.2)
      (hname : m.Named x) (hs : Aborts m.value) :
      Aborts ('{' :: (each (items.map fun i => i.1.text) ++ m.text))
  | blank {ws : List Char} {s : Stream} (h : Blank ws) (hs : Aborts s) : Aborts (ws ++ s)

/-- A text that denotes a value up to its terminating NUL. -/
def JsonText (json : List Char) (v : Value) : Prop :=
  ∃ t rest, Denotes t v ∧ json ++ ['\x00'] = t ++ '\x00' :: rest

/-- A text at which the reader aborts. -/
def JsonAborts (json : List Char) : Prop :=
  Aborts (json ++ ['\x00'])

/-! ### White space -/

/-- Whitespace after whitespace. -/
theorem Blank.append {ws ws' : List Char} (h : Blank ws) (h' : Blank ws') :
    Blank (ws ++ ws') := by
  intro c hc
  rcases List.mem_append.mp hc with hc | hc
  · exact h c hc
  · exact h' c hc

theorem blank_nil : Blank [] := fun _ hc => absurd hc List.not_mem_nil

theorem Blank.nul_notMem {ws : List Char} (h : Blank ws) : '\x00' ∉ ws := by
  intro hmem
  rcases h _ hmem with heq | heq | heq | heq <;> exact absurd heq (by decide)

/-- **Whitespace** is skipped. -/
theorem skipWhitespace_append {ws : List Char} (h : Blank ws) (s : Stream) :
    skipWhitespace (ws ++ s) = skipWhitespace s := by
  induction ws with
  | nil => rfl
  | cons c ws ih =>
      rw [List.cons_append, skipWhitespace, if_pos (h c List.mem_cons_self)]
      exact ih fun d hd => h d (List.mem_cons_of_mem _ hd)

/-- Skipping white space is taking it from the start. -/
theorem exists_blank (s : Stream) : ∃ ws, Blank ws ∧ s = ws ++ skipWhitespace s := by
  induction s with
  | nil => exact ⟨[], blank_nil, rfl⟩
  | cons c s ih =>
      obtain ⟨ws, hws, hs⟩ := ih
      rw [skipWhitespace]
      split
      · rename_i hc
        refine ⟨c :: ws, fun d hd => ?_, congrArg (c :: ·) hs⟩
        rcases List.mem_cons.mp hd with rfl | hd
        · exact hc
        · exact hws d hd
      · exact ⟨[], blank_nil, rfl⟩

/-- After white space, the reader comes to the character that is not. -/
theorem skipWhitespace_append_cons {ws : List Char} (h : Blank ws) {c : Char}
    (hc : c ≠ ' ' ∧ c ≠ '\n' ∧ c ≠ '\r' ∧ c ≠ '\t') (s : Stream) :
    skipWhitespace (ws ++ c :: s) = c :: s := by
  rw [skipWhitespace_append h, skipWhitespace_cons hc]

theorem numberEnd_of_mem_blank {ws : List Char} (h : Blank ws) {c : Char} (hc : c ∈ ws) :
    NumberEnd c := by
  rcases h c hc with rfl | rfl | rfl | rfl <;> simp [NumberEnd]

/-- What cannot go on a number still cannot after white space. -/
theorem numberEnd_append {ws : List Char} (h : Blank ws) {r : Stream}
    (hr : ∀ c ∈ r.head?, NumberEnd c) : ∀ c ∈ (ws ++ r).head?, NumberEnd c := by
  cases ws with
  | nil => exact hr
  | cons b ws =>
      intro c hc
      obtain rfl : b = c := Option.some.inj hc
      exact numberEnd_of_mem_blank h List.mem_cons_self

/-- A number ends before what may follow a value. -/
theorem ends_of_numberEnd (p : NumberText) {r : Stream} (hr : ∀ c ∈ r.head?, NumberEnd c) :
    p.Ends r where
  digit _ c hc := (hr c hc).1
  exponent _ c hc := (hr c hc).2.2
  fraction _ _ c hc := (hr c hc).2.1

/-! ### How a value starts -/

/-- A number opens with a digit or a minus. -/
theorem NumberText.exists_text_eq_cons {p : NumberText} (hp : p.Valid) :
    ∃ c t, p.text = c :: t ∧ (c = '-' ∨ c.isDigit = true) := by
  obtain ⟨d, ds, hdigits⟩ : ∃ d ds, p.digits = d :: ds := by
    rcases hp.digits with hzero | ⟨d, ds, hdigits, -⟩
    · exact ⟨_, _, hzero⟩
    · exact ⟨d, ds, hdigits⟩
  rw [NumberText.text, NumberText.signText]
  split
  · exact ⟨'-', _, rfl, .inl rfl⟩
  · refine ⟨d, _, by rw [hdigits]; rfl, .inr (hp.isDigit d ?_)⟩
    rw [hdigits]
    exact List.mem_cons_self

/-- A text opens a value. -/
def OpensValue (s : Stream) : Prop :=
  ∃ c t, skipWhitespace s = c :: t ∧ Opens c

theorem opensValue_cons {c : Char} (h : Opens c) (s : Stream) : OpensValue (c :: s) :=
  ⟨c, s, h.skipWhitespace s, h⟩

theorem OpensValue.blank {ws : List Char} (h : Blank ws) {s : Stream} (hs : OpensValue s) :
    OpensValue (ws ++ s) := by
  rwa [OpensValue, skipWhitespace_append h]

theorem opensValue_number {p : NumberText} (hp : p.Valid) (r : Stream) :
    OpensValue (p.text ++ r) := by
  obtain ⟨c, t, htext, hc⟩ := NumberText.exists_text_eq_cons hp
  rw [htext]
  refine opensValue_cons ?_ _
  rcases hc with rfl | hc
  · exact .inl (by decide)
  · exact .inr hc

/-- A text of a value opens one. -/
theorem Denotes.opensValue {t : List Char} {v : Value} (h : Denotes t v) (r : Stream) :
    OpensValue (t ++ r) := by
  induction h generalizing r with
  | null => exact opensValue_cons (.inl (by decide)) _
  | true => exact opensValue_cons (.inl (by decide)) _
  | false => exact opensValue_cons (.inl (by decide)) _
  | string => exact opensValue_cons (.inl (by decide)) _
  | integer hp => exact opensValue_number hp r
  | double hp => exact opensValue_number hp r
  | emptyArray => exact opensValue_cons (.inl (by decide)) _
  | array => exact opensValue_cons (.inl (by decide)) _
  | emptyObject => exact opensValue_cons (.inl (by decide)) _
  | object => exact opensValue_cons (.inl (by decide)) _
  | blank hws _ _ ih =>
      rw [List.append_assoc, List.append_assoc]
      exact (ih _).blank hws

/-- So does a text that the reader aborts at. -/
theorem Aborts.opensValue {s : Stream} (h : Aborts s) : OpensValue s := by
  induction h with
  | string => exact opensValue_cons (.inl (by decide)) _
  | number hp => exact opensValue_number hp _
  | element => exact opensValue_cons (.inl (by decide)) _
  | name => exact opensValue_cons (.inl (by decide)) _
  | member => exact opensValue_cons (.inl (by decide)) _
  | blank hws _ ih => exact ih.blank hws

/-! ### The grammar is read -/

/-- The loop of `ParseArray` after an element. -/
def afterElement (fuel : ℕ) (a : Value × Stream) : Except Failure (List Value × Stream) :=
  match skipWhitespace a.2 with
  | [] => .error .abort
  | c :: s =>
      if c = ',' then (parseElements fuel (skipWhitespace s)).map fun b => (a.1 :: b.1, b.2)
      else if c = ']' then .ok ([a.1], s)
      else .error .error

/-- The loop of `ParseObject` after the value of a member. -/
def afterMember (fuel : ℕ) (x : List Char) (a : Value × Stream) :
    Except Failure (List (List Char × Value) × Stream) :=
  match skipWhitespace a.2 with
  | [] => .error .abort
  | c :: s =>
      if c = ',' then
        (parseMembers fuel (skipWhitespace s)).map fun b => ((x, a.1) :: b.1, b.2)
      else if c = '}' then .ok ([(x, a.1)], s)
      else .error .error

/-- The elements of an array: a value, then what follows it. -/
theorem parseElements_succ (fuel : ℕ) (s : Stream) :
    parseElements (fuel + 1) s = (parseValue fuel s).bind (afterElement fuel) := by
  rw [parseElements]
  cases parseValue fuel s with
  | error e => rfl
  | ok a =>
      simp only [bind, Except.bind, afterElement]
      cases skipWhitespace a.2 with
      | nil => rfl
      | cons c s =>
          simp only
          split
          · cases parseElements fuel (skipWhitespace s) <;> rfl
          · rfl

/-- A member is read up to its value. -/
theorem parseMembers_text {m : MemberText} {x : List Char} (hname : m.Named x) (r : Stream)
    (fuel : ℕ) :
    parseMembers (fuel + 1) (skipWhitespace (m.text ++ r)) =
      (parseValue fuel (skipWhitespace (m.value ++ r))).bind (afterMember fuel x) := by
  have htext : m.text ++ r =
      m.before ++ '"' :: (m.name ++ '"' :: (m.after ++ ':' :: (m.value ++ r))) := by
    simp [MemberText.text]
  rw [htext, skipWhitespace_append_cons hname.before (by decide), parseMembers, if_pos rfl,
    parseString_of_charsText hname.name]
  simp only [bind, Except.bind, skipWhitespace_append_cons hname.after (c := ':') (by decide),
    if_true]
  cases parseValue fuel (skipWhitespace (m.value ++ r)) with
  | error e => rfl
  | ok a =>
      simp only [afterMember]
      cases skipWhitespace a.2 with
      | nil => rfl
      | cons c s =>
          simp only
          split
          · cases parseMembers fuel (skipWhitespace s) <;> rfl
          · rfl

/-- The text `t` is read as `v`, in front of what cannot go on a number. -/
def Reads (t : List Char) (v : Value) : Prop :=
  ∀ fuel r, (∀ c ∈ r.head?, NumberEnd c) → 2 * (t ++ r).length + 1 ≤ fuel →
    ∃ r', parseValue fuel (skipWhitespace (t ++ r)) = .ok (v, r') ∧
      skipWhitespace r' = skipWhitespace r

/-- A result with values in front. -/
def withFront {α : Type} (xs : List α) (r : Except Failure (List α × Stream)) :
    Except Failure (List α × Stream) :=
  r.map fun a => (xs ++ a.1, a.2)

@[simp] theorem withFront_nil {α : Type} (r : Except Failure (List α × Stream)) :
    withFront [] r = r := by
  cases r <;> rfl

theorem withFront_cons {α : Type} (x : α) (xs : List α) (r : Except Failure (List α × Stream)) :
    (withFront xs r).map (fun b => (x :: b.1, b.2)) = withFront (x :: xs) r := by
  cases r <;> rfl

theorem each_cons (t : List Char) (ts : List (List Char)) (s : Stream) :
    each (t :: ts) ++ s = t ++ ',' :: (each ts ++ s) := by
  simp [each]

/-- The elements before the last are read one after the other. -/
theorem parseElements_each {items : List (List Char × Value)}
    (h : ∀ i ∈ items, Reads i.1 i.2) (s : Stream) :
    ∀ fuel, 2 * (each (items.map Prod.fst) ++ s).length + 2 ≤ fuel →
      ∃ fuel', 2 * s.length + 2 ≤ fuel' ∧
        parseElements fuel (skipWhitespace (each (items.map Prod.fst) ++ s)) =
          withFront (items.map Prod.snd) (parseElements fuel' (skipWhitespace s)) := by
  induction items with
  | nil => exact fun fuel hfuel => ⟨fuel, hfuel, (withFront_nil _).symm⟩
  | cons i items ih =>
      intro fuel hfuel
      obtain ⟨fuel, rfl⟩ : ∃ n, fuel = n + 1 := ⟨fuel - 1, by omega⟩
      rw [List.map_cons, each_cons] at hfuel ⊢
      simp only [List.length_append, List.length_cons] at hfuel
      obtain ⟨r', hread, hskip⟩ := h i List.mem_cons_self fuel
        (',' :: (each (items.map Prod.fst) ++ s))
        (fun c hc => by rw [← Option.some.inj hc]; exact numberEnd_comma)
        (by simp only [List.length_append, List.length_cons]; omega)
      obtain ⟨fuel', hfuel', hrest⟩ := ih (fun j hj => h j (List.mem_cons_of_mem _ hj)) fuel
        (by simp only [List.length_append]; omega)
      refine ⟨fuel', hfuel', ?_⟩
      rw [parseElements_succ, hread]
      simp only [Except.bind, afterElement, hskip,
        skipWhitespace_cons (c := ',') (by decide), if_true, hrest, withFront_cons, List.map_cons]

/-- The members before the last are read one after the other. -/
theorem parseMembers_each {items : List (MemberText × List Char × Value)}
    (hnames : ∀ i ∈ items, i.1.Named i.2.1) (h : ∀ i ∈ items, Reads i.1.value i.2.2)
    (s : Stream) :
    ∀ fuel, 2 * (each (items.map fun i => i.1.text) ++ s).length + 2 ≤ fuel →
      ∃ fuel', 2 * s.length + 2 ≤ fuel' ∧
        parseMembers fuel (skipWhitespace (each (items.map fun i => i.1.text) ++ s)) =
          withFront (items.map Prod.snd) (parseMembers fuel' (skipWhitespace s)) := by
  induction items with
  | nil => exact fun fuel hfuel => ⟨fuel, hfuel, (withFront_nil _).symm⟩
  | cons i items ih =>
      intro fuel hfuel
      obtain ⟨fuel, rfl⟩ : ∃ n, fuel = n + 1 := ⟨fuel - 1, by omega⟩
      rw [List.map_cons, each_cons] at hfuel ⊢
      have hlength : i.1.value.length ≤ i.1.text.length := by
        simp only [MemberText.text, List.length_append, List.length_cons]
        omega
      simp only [List.length_append, List.length_cons] at hfuel
      obtain ⟨r', hread, hskip⟩ := h i List.mem_cons_self fuel
        (',' :: (each (items.map fun i => i.1.text) ++ s))
        (fun c hc => by rw [← Option.some.inj hc]; exact numberEnd_comma)
        (by simp only [List.length_append, List.length_cons]; omega)
      obtain ⟨fuel', hfuel', hrest⟩ := ih (fun j hj => hnames j (List.mem_cons_of_mem _ hj))
        (fun j hj => h j (List.mem_cons_of_mem _ hj)) fuel
        (by simp only [List.length_append]; omega)
      refine ⟨fuel', hfuel', ?_⟩
      rw [parseMembers_text (hnames i List.mem_cons_self), hread]
      simp only [Except.bind, afterMember, hskip,
        skipWhitespace_cons (c := ',') (by decide), if_true, hrest, withFront_cons, List.map_cons]

/-- An array with elements is read by the loop. -/
theorem parseValue_bracket (fuel : ℕ) {s : Stream} (h : OpensValue s) :
    parseValue (fuel + 1) ('[' :: s) =
      (parseElements fuel (skipWhitespace s)).map fun b => (.array b.1, b.2) := by
  obtain ⟨c, t, hskip, hc⟩ := h
  have hne : c ≠ ']' := hc.ne (by decide) (by decide)
  rw [parseValue]
  simp only [hskip, if_neg hne]
  rfl

/-- An object with members is read by the loop. -/
theorem parseValue_brace (fuel : ℕ) {s t : Stream} (h : skipWhitespace s = '"' :: t) :
    parseValue (fuel + 1) ('{' :: s) =
      (parseMembers fuel (skipWhitespace s)).map fun b => (.object b.1, b.2) := by
  rw [parseValue]
  simp only [h]
  rfl

/-- A quote opens a string. -/
theorem parseValue_quote (fuel : ℕ) (s : Stream) :
    parseValue (fuel + 1) ('"' :: s) = (parseString s).map fun b => (.string b.1, b.2) := by
  rw [parseValue]
  rfl

/-- A number is read by `ParseNumber`. -/
theorem parseValue_number (fuel : ℕ) {p : NumberText} (hp : p.Valid) (r : Stream) :
    parseValue (fuel + 1) (skipWhitespace (p.text ++ r)) = parseNumber (p.text ++ r) := by
  obtain ⟨c, t, htext, hc⟩ := NumberText.exists_text_eq_cons hp
  have hopens : Opens c := hc.imp (fun h => by rw [h]; decide) id
  rw [htext, List.cons_append, hopens.skipWhitespace]
  exact parseValue_eq_parseNumber fuel hc _

/-- A number is read as what it converts to. -/
theorem reads_of_convert {p : NumberText} (hp : p.Valid) {v : Value} (h : p.convert = .ok v) :
    Reads p.text v := by
  intro fuel r hr hfuel
  obtain ⟨fuel, rfl⟩ : ∃ n, fuel = n + 1 := ⟨fuel - 1, by omega⟩
  refine ⟨r, ?_, rfl⟩
  rw [parseValue_number fuel hp, NumberText.parseNumber_text hp (ends_of_numberEnd p hr), h]
  rfl

/-- The first of the elements opens a value. -/
theorem opensValue_each {items : List (List Char × Value)}
    (h : ∀ i ∈ items, Denotes i.1 i.2) {s : Stream} (hs : OpensValue s) :
    OpensValue (each (items.map Prod.fst) ++ s) := by
  cases items with
  | nil => exact hs
  | cons i items =>
      rw [List.map_cons, each_cons]
      exact (h i List.mem_cons_self).opensValue _

/-- A member opens with the quote of its name. -/
theorem skipWhitespace_text {m : MemberText} {x : List Char} (hname : m.Named x) (r : Stream) :
    ∃ t, skipWhitespace (m.text ++ r) = '"' :: t := by
  have htext : m.text ++ r =
      m.before ++ '"' :: (m.name ++ '"' :: (m.after ++ ':' :: (m.value ++ r))) := by
    simp [MemberText.text]
  exact ⟨_, by rw [htext, skipWhitespace_append_cons hname.before (by decide)]⟩

/-- The first of the members opens a name. -/
theorem skipWhitespace_each {items : List (MemberText × List Char × Value)}
    (hnames : ∀ i ∈ items, i.1.Named i.2.1) {s t : Stream} (hs : skipWhitespace s = '"' :: t) :
    ∃ u, skipWhitespace (each (items.map fun i => i.1.text) ++ s) = '"' :: u := by
  cases items with
  | nil => exact ⟨t, hs⟩
  | cons i items =>
      rw [List.map_cons, each_cons]
      exact skipWhitespace_text (hnames i List.mem_cons_self) _

/-- A string is read as what its characters come to. -/
theorem reads_string {t x : List Char} (h : CharsText t x) :
    Reads ('"' :: (t ++ ['"'])) (.string x) := by
  intro fuel r _ hfuel
  obtain ⟨fuel, rfl⟩ : ∃ n, fuel = n + 1 := ⟨fuel - 1, by omega⟩
  refine ⟨r, ?_, rfl⟩
  simp only [List.cons_append, List.append_assoc, List.nil_append]
  rw [skipWhitespace_cons (by decide), parseValue_quote, parseString_of_charsText h]
  rfl

/-- An array is read element by element. -/
theorem reads_array {items : List (List Char × Value)} {t : List Char} {v : Value}
    (hitems : ∀ i ∈ items, Denotes i.1 i.2) (ht : Denotes t v)
    (hreads : ∀ i ∈ items, Reads i.1 i.2) (hlast : Reads t v) :
    Reads ('[' :: (each (items.map Prod.fst) ++ (t ++ [']'])))
      (.array (items.map Prod.snd ++ [v])) := by
  intro fuel r _ hfuel
  obtain ⟨fuel, rfl⟩ : ∃ n, fuel = n + 1 := ⟨fuel - 1, by omega⟩
  simp only [List.cons_append, List.append_assoc, List.nil_append, List.length_cons] at hfuel ⊢
  obtain ⟨fuel', hfuel', hfront⟩ := parseElements_each hreads (t ++ ']' :: r) fuel (by omega)
  obtain ⟨fuel', rfl⟩ : ∃ n, fuel' = n + 1 := ⟨fuel' - 1, by omega⟩
  obtain ⟨r', hread, hskip⟩ := hlast fuel' (']' :: r)
    (fun c hc => by rw [← Option.some.inj hc]; exact numberEnd_bracket) (by omega)
  have hend : parseElements (fuel' + 1) (skipWhitespace (t ++ ']' :: r)) = .ok ([v], r) := by
    rw [parseElements_succ, hread]
    simp only [Except.bind, afterElement, hskip, skipWhitespace_cons (c := ']') (by decide)]
    rfl
  refine ⟨r, ?_, rfl⟩
  rw [skipWhitespace_cons (by decide),
    parseValue_bracket fuel (opensValue_each hitems (ht.opensValue _)), hfront, hend]
  rfl

/-- An object is read member by member. -/
theorem reads_object {items : List (MemberText × List Char × Value)} {m : MemberText}
    {x : List Char} {v : Value} (hnames : ∀ i ∈ items, i.1.Named i.2.1) (hname : m.Named x)
    (hreads : ∀ i ∈ items, Reads i.1.value i.2.2) (hlast : Reads m.value v) :
    Reads ('{' :: (each (items.map fun i => i.1.text) ++ (m.text ++ ['}'])))
      (.object (items.map Prod.snd ++ [(x, v)])) := by
  intro fuel r _ hfuel
  obtain ⟨fuel, rfl⟩ : ∃ n, fuel = n + 1 := ⟨fuel - 1, by omega⟩
  simp only [List.cons_append, List.append_assoc, List.nil_append, List.length_cons] at hfuel ⊢
  obtain ⟨fuel', hfuel', hfront⟩ :=
    parseMembers_each hnames hreads (m.text ++ '}' :: r) fuel (by omega)
  obtain ⟨fuel', rfl⟩ : ∃ n, fuel' = n + 1 := ⟨fuel' - 1, by omega⟩
  have hlength : m.value.length ≤ m.text.length := by
    simp only [MemberText.text, List.length_append, List.length_cons]
    omega
  obtain ⟨r', hread, hskip⟩ := hlast fuel' ('}' :: r)
    (fun c hc => by rw [← Option.some.inj hc]; exact numberEnd_brace)
    (by simp only [List.length_append] at hfuel' ⊢; omega)
  have hend : parseMembers (fuel' + 1) (skipWhitespace (m.text ++ '}' :: r)) =
      .ok ([(x, v)], r) := by
    rw [parseMembers_text hname, hread]
    simp only [Except.bind, afterMember, hskip, skipWhitespace_cons (c := '}') (by decide)]
    rfl
  obtain ⟨u, hopens⟩ := skipWhitespace_text hname ('}' :: r)
  obtain ⟨u, hopens⟩ := skipWhitespace_each hnames hopens
  refine ⟨r, ?_, rfl⟩
  rw [skipWhitespace_cons (by decide), parseValue_brace fuel hopens, hfront, hend]
  rfl

/-- **The grammar is read.** -/
theorem reads_of_denotes {t : List Char} {v : Value} (h : Denotes t v) : Reads t v := by
  induction h with
  | null | true | false =>
      intro fuel r _ hfuel
      obtain ⟨fuel, rfl⟩ : ∃ n, fuel = n + 1 := ⟨fuel - 1, by omega⟩
      exact ⟨r, rfl, rfl⟩
  | string h => exact reads_string h
  | integer hp hinteger hfits =>
      exact reads_of_convert hp (NumberText.convert_of_integer hp hinteger hfits)
  | double hp hconvert => exact reads_of_convert hp hconvert
  | @emptyArray ws hws =>
      intro fuel r _ hfuel
      obtain ⟨fuel, rfl⟩ : ∃ n, fuel = n + 1 := ⟨fuel - 1, by omega⟩
      have hskip := skipWhitespace_append_cons hws (c := ']') (by decide) r
      refine ⟨r, ?_, rfl⟩
      simp only [List.cons_append, List.append_assoc, List.nil_append]
      rw [skipWhitespace_cons (by decide), parseValue]
      simp only [hskip]
      rfl
  | @emptyObject ws hws =>
      intro fuel r _ hfuel
      obtain ⟨fuel, rfl⟩ : ∃ n, fuel = n + 1 := ⟨fuel - 1, by omega⟩
      have hskip := skipWhitespace_append_cons hws (c := '}') (by decide) r
      refine ⟨r, ?_, rfl⟩
      simp only [List.cons_append, List.append_assoc, List.nil_append]
      rw [skipWhitespace_cons (by decide), parseValue]
      simp only [hskip]
      rfl
  | array hitems ht ihitems iht => exact reads_array hitems ht ihitems iht
  | object hnames hitems hname ht ihitems iht => exact reads_object hnames hname ihitems iht
  | @blank ws ws' t v hws hws' _ ih =>
      intro fuel r hr hfuel
      simp only [List.append_assoc, List.length_append] at hfuel
      obtain ⟨r', hread, hskip⟩ := ih fuel (ws' ++ r) (numberEnd_append hws' hr)
        (by simp only [List.length_append]; omega)
      refine ⟨r', ?_, by rw [hskip, skipWhitespace_append hws']⟩
      rw [List.append_assoc, List.append_assoc, skipWhitespace_append hws]
      exact hread

/-- **The reader aborts** where `Aborts` says so. -/
theorem parseValue_of_aborts {s : Stream} (h : Aborts s) :
    ∀ fuel, 2 * s.length + 1 ≤ fuel → parseValue fuel (skipWhitespace s) = .error .abort := by
  induction h with
  | @string s h =>
      intro fuel hfuel
      obtain ⟨fuel, rfl⟩ : ∃ n, fuel = n + 1 := ⟨fuel - 1, by omega⟩
      rw [skipWhitespace_cons (by decide), parseValue_quote, parseString_of_aborts h]
      rfl
  | @number p r hp hr h =>
      intro fuel hfuel
      obtain ⟨fuel, rfl⟩ : ∃ n, fuel = n + 1 := ⟨fuel - 1, by omega⟩
      rw [parseValue_number fuel hp, NumberText.parseNumber_text hp hr, h]
      rfl
  | @element items s hitems hs ih =>
      intro fuel hfuel
      obtain ⟨fuel, rfl⟩ : ∃ n, fuel = n + 1 := ⟨fuel - 1, by omega⟩
      rw [List.length_cons] at hfuel
      obtain ⟨fuel', hfuel', hfront⟩ := parseElements_each
        (fun i hi => reads_of_denotes (hitems i hi)) s fuel (by omega)
      obtain ⟨fuel', rfl⟩ : ∃ n, fuel' = n + 1 := ⟨fuel' - 1, by omega⟩
      rw [skipWhitespace_cons (by decide),
        parseValue_bracket fuel (opensValue_each hitems hs.opensValue), hfront,
        parseElements_succ, ih fuel' (by omega)]
      rfl
  | @name items ws s hnames hitems hws hs =>
      intro fuel hfuel
      obtain ⟨fuel, rfl⟩ : ∃ n, fuel = n + 1 := ⟨fuel - 1, by omega⟩
      rw [List.length_cons] at hfuel
      have hskip := skipWhitespace_append_cons hws (c := '"') (by decide) s
      obtain ⟨fuel', hfuel', hfront⟩ := parseMembers_each hnames
        (fun i hi => reads_of_denotes (hitems i hi)) (ws ++ '"' :: s) fuel (by omega)
      obtain ⟨fuel', rfl⟩ : ∃ n, fuel' = n + 1 := ⟨fuel' - 1, by omega⟩
      obtain ⟨u, hopens⟩ := skipWhitespace_each hnames hskip
      rw [skipWhitespace_cons (by decide), parseValue_brace fuel hopens, hfront, hskip,
        parseMembers, if_pos rfl, parseString_of_aborts hs]
      rfl
  | @member items m x hnames hitems hname hs ih =>
      intro fuel hfuel
      obtain ⟨fuel, rfl⟩ : ∃ n, fuel = n + 1 := ⟨fuel - 1, by omega⟩
      rw [List.length_cons] at hfuel
      obtain ⟨fuel', hfuel', hfront⟩ := parseMembers_each hnames
        (fun i hi => reads_of_denotes (hitems i hi)) m.text fuel (by omega)
      obtain ⟨fuel', rfl⟩ : ∃ n, fuel' = n + 1 := ⟨fuel' - 1, by omega⟩
      have hlength : m.value.length ≤ m.text.length := by
        simp only [MemberText.text, List.length_append, List.length_cons]
        omega
      have hlast := parseMembers_text hname [] fuel'
      rw [List.append_nil, List.append_nil, ih fuel' (by omega)] at hlast
      obtain ⟨u, hopens⟩ := skipWhitespace_text hname []
      rw [List.append_nil] at hopens
      obtain ⟨u, hopens⟩ := skipWhitespace_each hnames hopens
      rw [skipWhitespace_cons (by decide), parseValue_brace fuel hopens, hfront, hlast]
      rfl
  | @blank ws s hws _ ih =>
      intro fuel hfuel
      rw [List.length_append] at hfuel
      rw [skipWhitespace_append hws]
      exact ih fuel (by omega)

/-! ### Nothing else is -/

theorem nul_notMem_each {ts : List (List Char)} (h : ∀ t ∈ ts, '\x00' ∉ t) :
    '\x00' ∉ each ts := by
  intro hmem
  obtain ⟨t, ht, hmem⟩ := List.mem_flatMap.mp hmem
  rcases List.mem_append.mp hmem with hmem | hmem
  · exact h t ht hmem
  · exact absurd hmem (by decide)

theorem MemberText.Named.nul_notMem {m : MemberText} {x : List Char} (h : m.Named x)
    (hvalue : '\x00' ∉ m.value) : '\x00' ∉ m.text := by
  have hbefore := h.before.nul_notMem
  have hname := h.name.nul_notMem
  have hafter := h.after.nul_notMem
  simp [MemberText.text, hbefore, hname, hafter, hvalue]

/-- The text of a value has no NUL. -/
theorem Denotes.nul_notMem {t : List Char} {v : Value} (h : Denotes t v) : '\x00' ∉ t := by
  induction h with
  | null | true | false => decide
  | string h =>
      have hchars := h.nul_notMem
      simp [hchars]
  | integer hp | double hp => exact NumberText.nul_notMem_text hp
  | emptyArray h | emptyObject h =>
      have hblank := h.nul_notMem
      simp [hblank]
  | @array items t v _ _ ihitems iht =>
      have hitems : '\x00' ∉ each (items.map Prod.fst) := nul_notMem_each fun t ht => by
        obtain ⟨i, hi, rfl⟩ := List.mem_map.mp ht
        exact ihitems i hi
      simp [hitems, iht]
  | @object items m x v hnames _ hname _ ihitems iht =>
      have hitems : '\x00' ∉ each (items.map fun i => i.1.text) := nul_notMem_each fun t ht => by
        obtain ⟨i, hi, rfl⟩ := List.mem_map.mp ht
        exact (hnames i hi).nul_notMem (ihitems i hi)
      have hlast := hname.nul_notMem iht
      simp [hitems, hlast]
  | blank h h' _ ih =>
      have hbefore := h.nul_notMem
      have hafter := h'.nul_notMem
      simp [hbefore, hafter, ih]

/-- What the reader may make of a text from which it takes a value. -/
def ValueOutcome (s : Stream) : Except Failure (Value × Stream) → Prop
  | .ok a => ∃ t, Denotes t a.1 ∧ s = t ++ a.2
  | .error .abort => Aborts s
  | .error _ => True

/-- What the loop of `ParseArray` may make of a text. -/
def ElementsOutcome (s : Stream) : Except Failure (List Value × Stream) → Prop
  | .ok a => ∃ (items : List (List Char × Value)) (t : List Char) (v : Value),
      (∀ i ∈ items, Denotes i.1 i.2) ∧ Denotes t v ∧
      a.1 = items.map Prod.snd ++ [v] ∧ s = each (items.map Prod.fst) ++ (t ++ ']' :: a.2)
  | .error .abort => ∃ (items : List (List Char × Value)) (u : Stream),
      (∀ i ∈ items, Denotes i.1 i.2) ∧ Aborts u ∧ s = each (items.map Prod.fst) ++ u
  | .error _ => True

/-- The reader aborts in the name or in the value of the member that it comes to. -/
def MemberAborts (u : Stream) : Prop :=
  (∃ ws s, Blank ws ∧ StringAborts s ∧ u = ws ++ '"' :: s) ∨
    ∃ (m : MemberText) (x : List Char), m.Named x ∧ Aborts m.value ∧ u = m.text

/-- What the loop of `ParseObject` may make of a text. -/
def MembersOutcome (s : Stream) : Except Failure (List (List Char × Value) × Stream) → Prop
  | .ok a => ∃ (items : List (MemberText × List Char × Value)) (m : MemberText)
      (x : List Char) (v : Value),
      (∀ i ∈ items, i.1.Named i.2.1) ∧ (∀ i ∈ items, Denotes i.1.value i.2.2) ∧
      m.Named x ∧ Denotes m.value v ∧ a.1 = items.map Prod.snd ++ [(x, v)] ∧
      s = each (items.map fun i => i.1.text) ++ (m.text ++ '}' :: a.2)
  | .error .abort => ∃ (items : List (MemberText × List Char × Value)) (u : Stream),
      (∀ i ∈ items, i.1.Named i.2.1) ∧ (∀ i ∈ items, Denotes i.1.value i.2.2) ∧
      MemberAborts u ∧ s = each (items.map fun i => i.1.text) ++ u
  | .error _ => True

/-- Whitespace before a value. -/
theorem Denotes.before {ws t : List Char} {v : Value} (h : Denotes t v) (hws : Blank ws) :
    Denotes (ws ++ t) v := by
  have hblank := Denotes.blank hws blank_nil h
  rwa [List.append_nil] at hblank

/-- Whitespace after a value. -/
theorem Denotes.after {ws t : List Char} {v : Value} (h : Denotes t v) (hws : Blank ws) :
    Denotes (t ++ ws) v :=
  Denotes.blank blank_nil hws h

/-- Whitespace before the elements changes nothing. -/
theorem ElementsOutcome.blank {s : Stream} {res : Except Failure (List Value × Stream)}
    (h : ElementsOutcome s res) {ws : List Char} (hws : Blank ws) :
    ElementsOutcome (ws ++ s) res := by
  cases res with
  | ok a =>
      obtain ⟨items, t, v, hitems, ht, hvs, rfl⟩ := h
      cases items with
      | nil => exact ⟨[], ws ++ t, v, hitems, ht.before hws, hvs, by simp [each]⟩
      | cons i items =>
          refine ⟨(ws ++ i.1, i.2) :: items, t, v, ?_, ht, hvs, by simp [each]⟩
          exact List.forall_mem_cons.mpr
            ⟨(hitems i List.mem_cons_self).before hws, (List.forall_mem_cons.mp hitems).2⟩
  | error e =>
      cases e with
      | abort =>
          obtain ⟨items, u, hitems, hu, rfl⟩ := h
          cases items with
          | nil => exact ⟨[], ws ++ u, hitems, hu.blank hws, by simp [each]⟩
          | cons i items =>
              refine ⟨(ws ++ i.1, i.2) :: items, u, ?_, hu, by simp [each]⟩
              exact List.forall_mem_cons.mpr
                ⟨(hitems i List.mem_cons_self).before hws, (List.forall_mem_cons.mp hitems).2⟩
      | error => trivial
      | fuel => trivial

/-- An element and a comma in front. -/
theorem ElementsOutcome.cons {s : Stream} {res : Except Failure (List Value × Stream)}
    (h : ElementsOutcome s res) {t : List Char} {v : Value} (ht : Denotes t v) :
    ElementsOutcome (t ++ ',' :: s) (res.map fun b => (v :: b.1, b.2)) := by
  cases res with
  | ok b =>
      obtain ⟨items, t', v', hitems, ht', hvs, rfl⟩ := h
      refine ⟨(t, v) :: items, t', v', List.forall_mem_cons.mpr ⟨ht, hitems⟩, ht',
        by simp [hvs], ?_⟩
      rw [List.map_cons, each_cons]
  | error e =>
      cases e with
      | abort =>
          obtain ⟨items, u, hitems, hu, rfl⟩ := h
          refine ⟨(t, v) :: items, u, List.forall_mem_cons.mpr ⟨ht, hitems⟩, hu, ?_⟩
          rw [List.map_cons, each_cons]
      | error => trivial
      | fuel => trivial

/-- A member with more white space in front. -/
def MemberText.indent (ws : List Char) (m : MemberText) : MemberText :=
  { m with before := ws ++ m.before }

theorem MemberText.indent_text (ws : List Char) (m : MemberText) :
    (m.indent ws).text = ws ++ m.text := by
  simp [MemberText.indent, MemberText.text]

theorem MemberText.Named.indent {ws : List Char} (hws : Blank ws) {m : MemberText}
    {x : List Char} (h : m.Named x) : (m.indent ws).Named x where
  before := hws.append h.before
  name := h.name
  after := h.after

theorem MemberAborts.blank {ws : List Char} (hws : Blank ws) {u : Stream} (h : MemberAborts u) :
    MemberAborts (ws ++ u) := by
  rcases h with ⟨ws', s, hws', hs, rfl⟩ | ⟨m, x, hname, hvalue, rfl⟩
  · exact .inl ⟨ws ++ ws', s, hws.append hws', hs, by simp⟩
  · exact .inr ⟨m.indent ws, x, hname.indent hws, hvalue, (m.indent_text ws).symm⟩

/-- Whitespace before the members changes nothing. -/
theorem MembersOutcome.blank {s : Stream}
    {res : Except Failure (List (List Char × Value) × Stream)} (h : MembersOutcome s res)
    {ws : List Char} (hws : Blank ws) : MembersOutcome (ws ++ s) res := by
  cases res with
  | ok a =>
      obtain ⟨items, m, x, v, hnames, hitems, hname, ht, hvs, rfl⟩ := h
      cases items with
      | nil =>
          exact ⟨[], m.indent ws, x, v, hnames, hitems, hname.indent hws, ht, hvs,
            by simp [each, MemberText.indent_text]⟩
      | cons i items =>
          refine ⟨(i.1.indent ws, i.2) :: items, m, x, v, ?_, ?_, hname, ht, hvs,
            by simp [each, MemberText.indent_text]⟩
          · exact List.forall_mem_cons.mpr ⟨(hnames i List.mem_cons_self).indent hws,
              (List.forall_mem_cons.mp hnames).2⟩
          · exact List.forall_mem_cons.mpr (List.forall_mem_cons.mp hitems)
  | error e =>
      cases e with
      | abort =>
          obtain ⟨items, u, hnames, hitems, hu, rfl⟩ := h
          cases items with
          | nil => exact ⟨[], ws ++ u, hnames, hitems, hu.blank hws, by simp [each]⟩
          | cons i items =>
              refine ⟨(i.1.indent ws, i.2) :: items, u, ?_, ?_, hu,
                by simp [each, MemberText.indent_text]⟩
              · exact List.forall_mem_cons.mpr ⟨(hnames i List.mem_cons_self).indent hws,
                  (List.forall_mem_cons.mp hnames).2⟩
              · exact List.forall_mem_cons.mpr (List.forall_mem_cons.mp hitems)
      | error => trivial
      | fuel => trivial

/-- A member and a comma in front. -/
theorem MembersOutcome.cons {s : Stream}
    {res : Except Failure (List (List Char × Value) × Stream)} (h : MembersOutcome s res)
    {m : MemberText} {x : List Char} {v : Value} (hname : m.Named x) (ht : Denotes m.value v) :
    MembersOutcome (m.text ++ ',' :: s) (res.map fun b => ((x, v) :: b.1, b.2)) := by
  cases res with
  | ok b =>
      obtain ⟨items, m', x', v', hnames, hitems, hname', ht', hvs, rfl⟩ := h
      refine ⟨(m, x, v) :: items, m', x', v', List.forall_mem_cons.mpr ⟨hname, hnames⟩,
        List.forall_mem_cons.mpr ⟨ht, hitems⟩, hname', ht', by simp [hvs], ?_⟩
      rw [List.map_cons, each_cons]
  | error e =>
      cases e with
      | abort =>
          obtain ⟨items, u, hnames, hitems, hu, rfl⟩ := h
          refine ⟨(m, x, v) :: items, u, List.forall_mem_cons.mpr ⟨hname, hnames⟩,
            List.forall_mem_cons.mpr ⟨ht, hitems⟩, hu, ?_⟩
          rw [List.map_cons, each_cons]
      | error => trivial
      | fuel => trivial

theorem skipWhitespace_ne_nil {s : Stream} (h : '\x00' ∈ s) : ∃ c t, skipWhitespace s = c :: t := by
  obtain ⟨ws, hws, hs⟩ := exists_blank s
  cases hskip : skipWhitespace s with
  | nil =>
      rw [hs, hskip, List.append_nil] at h
      exact absurd h hws.nul_notMem
  | cons c t => exact ⟨c, t, rfl⟩

/-- The terminating NUL is behind a text that has none. -/
theorem nul_mem_of_append {t r : List Char} (h : '\x00' ∈ t ++ r) (ht : '\x00' ∉ t) :
    '\x00' ∈ r :=
  (List.mem_append.mp h).resolve_left ht

/-- One character further, the NUL is still ahead. -/
theorem nul_mem_of_cons {c : Char} {r : List Char} (h : '\x00' ∈ c :: r) (hc : c ≠ '\x00') :
    '\x00' ∈ r := by
  rcases List.mem_cons.mp h with heq | h
  · exact absurd heq.symm hc
  · exact h

/-- After the elements that it has read, the loop of `ParseArray` goes on as it starts. -/
theorem elementsOutcome_bind {fuel : ℕ} {s : Stream} (hnul : '\x00' ∈ s)
    {res : Except Failure (Value × Stream)} (h : ValueOutcome s res)
    (ih : ∀ u, '\x00' ∈ u → ElementsOutcome u (parseElements fuel u)) :
    ElementsOutcome s (res.bind (afterElement fuel)) := by
  cases res with
  | error e =>
      cases e with
      | abort => exact ⟨[], s, by simp, h, rfl⟩
      | error => trivial
      | fuel => trivial
  | ok a =>
      obtain ⟨t, ht, rfl⟩ := h
      have hrest := nul_mem_of_append hnul ht.nul_notMem
      obtain ⟨ws, hws, hs⟩ := exists_blank a.2
      obtain ⟨c, u, hskip⟩ := skipWhitespace_ne_nil hrest
      have hvalue := ht.after hws
      rw [hskip] at hs
      rw [hs, ← List.append_assoc] at hnul ⊢
      have hnul := nul_mem_of_append hnul hvalue.nul_notMem
      simp only [Except.bind, afterElement, hskip]
      split
      · rename_i hc
        subst hc
        have hu := nul_mem_of_cons hnul (by decide)
        obtain ⟨ws', hws', hs'⟩ := exists_blank u
        have hnext : '\x00' ∈ skipWhitespace u := by
          rw [hs'] at hu
          exact nul_mem_of_append hu hws'.nul_notMem
        have hrest := ((ih _ hnext).blank hws').cons hvalue
        rwa [← hs'] at hrest
      · split
        · rename_i hc
          subst hc
          exact ⟨[], _, a.1, by simp, hvalue, rfl, rfl⟩
        · trivial

/-- Whitespace before a value changes nothing. -/
theorem ValueOutcome.blank {s : Stream} {res : Except Failure (Value × Stream)}
    (h : ValueOutcome s res) {ws : List Char} (hws : Blank ws) : ValueOutcome (ws ++ s) res := by
  cases res with
  | ok a =>
      obtain ⟨t, ht, rfl⟩ := h
      exact ⟨ws ++ t, ht.before hws, (List.append_assoc _ _ _).symm⟩
  | error e =>
      cases e with
      | abort => exact Aborts.blank hws h
      | error => trivial
      | fuel => trivial

/-- After the value of a member, the loop of `ParseObject` goes on as it starts. -/
theorem membersOutcome_bind {fuel : ℕ} {m : MemberText} {x : List Char} {s : Stream}
    (hnul : '\x00' ∈ s) (hname : m.Named x) {res : Except Failure (Value × Stream)}
    (h : ValueOutcome s res) (hm : m.value = [])
    (ih : ∀ u, '\x00' ∈ u → MembersOutcome u (parseMembers fuel u)) :
    MembersOutcome (m.text ++ s) (res.bind (afterMember fuel x)) := by
  -- The member `m` has no value yet; `with value` fills in the text that is read.
  have htext : ∀ t u, m.text ++ (t ++ u) = ({ m with value := t } : MemberText).text ++ u :=
    fun t u => by simp [MemberText.text, hm]
  have hnamed : ∀ t, ({ m with value := t } : MemberText).Named x :=
    fun t => ⟨hname.before, hname.name, hname.after⟩
  cases res with
  | error e =>
      cases e with
      | abort =>
          refine ⟨[], m.text ++ s, by simp, by simp, .inr ⟨_, x, hnamed s, h, ?_⟩, rfl⟩
          simpa using htext s []
      | error => trivial
      | fuel => trivial
  | ok a =>
      obtain ⟨t, ht, rfl⟩ := h
      have hrest := nul_mem_of_append hnul ht.nul_notMem
      obtain ⟨ws, hws, hs⟩ := exists_blank a.2
      obtain ⟨c, u, hskip⟩ := skipWhitespace_ne_nil hrest
      have hvalue := ht.after hws
      rw [hskip] at hs
      rw [hs, ← List.append_assoc t] at hnul ⊢
      have hnul := nul_mem_of_append hnul hvalue.nul_notMem
      rw [htext]
      simp only [Except.bind, afterMember, hskip]
      split
      · rename_i hc
        subst hc
        have hu := nul_mem_of_cons hnul (by decide)
        obtain ⟨ws', hws', hs'⟩ := exists_blank u
        have hnext : '\x00' ∈ skipWhitespace u := by
          rw [hs'] at hu
          exact nul_mem_of_append hu hws'.nul_notMem
        have hrest := ((ih _ hnext).blank hws').cons (hnamed _) hvalue
        rwa [← hs'] at hrest
      · split
        · rename_i hc
          subst hc
          exact ⟨[], _, x, a.1, by simp, by simp, hnamed _, hvalue, rfl, rfl⟩
        · trivial

/-- A member is read as one of the grammar. -/
theorem membersOutcome_succ {fuel : ℕ} {s : Stream} (hnul : '\x00' ∈ s)
    (hvalues : ∀ u, '\x00' ∈ u → ValueOutcome u (parseValue fuel u))
    (ih : ∀ u, '\x00' ∈ u → MembersOutcome u (parseMembers fuel u)) :
    MembersOutcome s (parseMembers (fuel + 1) s) := by
  cases s with
  | nil => exact absurd hnul List.not_mem_nil
  | cons q s =>
      by_cases hq : q = '"'
      · subst hq
        have hs := nul_mem_of_cons hnul (by decide)
        rcases parseString_cases hs with ⟨t, x, r, ht, rfl, hread⟩ | haborts | herror
        · have hr := nul_mem_of_cons (nul_mem_of_append hs ht.nul_notMem) (by decide)
          obtain ⟨ws, hws, hr'⟩ := exists_blank r
          obtain ⟨c, u, hskip⟩ := skipWhitespace_ne_nil hr
          by_cases hc : c = ':'
          · subst hc
            rw [hskip] at hr'
            have hu : '\x00' ∈ u := by
              rw [hr'] at hr
              exact nul_mem_of_cons (nul_mem_of_append hr hws.nul_notMem) (by decide)
            obtain ⟨ws', hws', hu'⟩ := exists_blank u
            have hnext : '\x00' ∈ skipWhitespace u := by
              rw [hu'] at hu
              exact nul_mem_of_append hu hws'.nul_notMem
            have hname : (⟨[], t, ws, []⟩ : MemberText).Named x := ⟨blank_nil, ht, hws⟩
            have hread := parseMembers_text hname u fuel
            rw [List.nil_append] at hread
            have hvalue := (hvalues _ hnext).blank hws'
            rw [← hu'] at hvalue
            have hmembers := membersOutcome_bind hu hname hvalue rfl ih
            rw [← hread] at hmembers
            simpa [MemberText.text, hr', skipWhitespace_cons (c := '"') (by decide)]
              using hmembers
          · rw [parseMembers, if_pos rfl, hread]
            simp only [bind, Except.bind, hskip, if_neg hc]
            trivial
        · rw [parseMembers, if_pos rfl, parseString_of_aborts haborts]
          exact ⟨[], _, by simp, by simp, .inl ⟨[], s, blank_nil, haborts, rfl⟩, rfl⟩
        · rw [parseMembers, if_pos rfl, herror]
          trivial
      · rw [parseMembers, if_neg hq]
        trivial

/-- In front of the NUL, a literal is read or is an error. -/
theorem literal_cases (v : Value) (cs : List Char) (s : Stream) (hcs : '\x00' ∉ cs)
    (hnul : '\x00' ∈ s) :
    (∃ r, s = cs ++ r ∧ literal v cs s = .ok (v, r)) ∨ literal v cs s = .error .error := by
  induction cs generalizing s with
  | nil => exact .inl ⟨s, rfl, rfl⟩
  | cons d cs ih =>
      cases s with
      | nil => exact absurd hnul List.not_mem_nil
      | cons b s =>
          rw [literal]
          split
          · rename_i hb
            subst hb
            have hb : b ≠ '\x00' := fun hb => hcs (hb ▸ List.mem_cons_self)
            rcases ih s (fun hmem => hcs (List.mem_cons_of_mem _ hmem))
              (nul_mem_of_cons hnul hb) with ⟨r, rfl, hread⟩ | herror
            · exact .inl ⟨r, rfl, hread⟩
            · exact .inr herror
          · exact .inr rfl

/-- **A literal** is read, or is an error. -/
theorem valueOutcome_literal {v : Value} {c : Char} {cs : List Char} (h : Denotes (c :: cs) v)
    {s : Stream} (hnul : '\x00' ∈ s) : ValueOutcome (c :: s) (literal v cs s) := by
  have hcs : '\x00' ∉ cs := fun hmem => h.nul_notMem (List.mem_cons_of_mem _ hmem)
  rcases literal_cases v cs s hcs hnul with ⟨r, rfl, hread⟩ | herror
  · rw [hread]
    exact ⟨c :: cs, h, rfl⟩
  · rw [herror]
    trivial

/-- **A string** is read, is an error, or aborts. -/
theorem valueOutcome_string {s : Stream} (hnul : '\x00' ∈ s) :
    ValueOutcome ('"' :: s) ((parseString s).map fun b => (.string b.1, b.2)) := by
  rcases parseString_cases hnul with ⟨t, x, r, ht, rfl, hread⟩ | haborts | herror
  · rw [hread]
    exact ⟨_, .string ht, by simp⟩
  · rw [parseString_of_aborts haborts]
    exact .string haborts
  · rw [herror]
    trivial

/-- **A number** is read, is an error, or aborts. -/
theorem valueOutcome_number {s : Stream} (hnul : '\x00' ∈ s) :
    ValueOutcome s (parseNumber s) := by
  rcases exists_numberText hnul with ⟨p, r, hp, hr, rfl⟩ | herror
  · rw [NumberText.parseNumber_text hp hr]
    cases hconvert : p.convert with
    | error e =>
        cases e with
        | abort => exact .number hp hr hconvert
        | error => trivial
        | fuel => trivial
    | ok v =>
        refine ⟨p.text, ?_, rfl⟩
        rcases NumberText.convert_cases hp hconvert with ⟨hinteger, hfits, rfl⟩ | ⟨d, rfl⟩
        · exact .integer hp hinteger hfits
        · exact .double hp hconvert
  · rw [herror]
    trivial

/-- **An array** does what its elements do. -/
theorem valueOutcome_array {s : Stream} {res : Except Failure (List Value × Stream)}
    (h : ElementsOutcome s res) :
    ValueOutcome ('[' :: s) (res.map fun b => (.array b.1, b.2)) := by
  cases res with
  | ok a =>
      obtain ⟨items, t, v, hitems, ht, hvs, rfl⟩ := h
      refine ⟨'[' :: (each (items.map Prod.fst) ++ (t ++ [']'])), ?_, by simp⟩
      simp only [hvs]
      exact .array hitems ht
  | error e =>
      cases e with
      | abort =>
          obtain ⟨items, u, hitems, hu, rfl⟩ := h
          exact .element hitems hu
      | error => trivial
      | fuel => trivial

/-- **An object** does what its members do. -/
theorem valueOutcome_object {s : Stream}
    {res : Except Failure (List (List Char × Value) × Stream)} (h : MembersOutcome s res) :
    ValueOutcome ('{' :: s) (res.map fun b => (.object b.1, b.2)) := by
  cases res with
  | ok a =>
      obtain ⟨items, m, x, v, hnames, hitems, hname, ht, hvs, rfl⟩ := h
      refine ⟨'{' :: (each (items.map fun i => i.1.text) ++ (m.text ++ ['}'])), ?_, by simp⟩
      simp only [hvs]
      exact .object hnames hitems hname ht
  | error e =>
      cases e with
      | abort =>
          obtain ⟨items, u, hnames, hitems, hu, rfl⟩ := h
          rcases hu with ⟨ws, s, hws, hs, rfl⟩ | ⟨m, x, hname, hvalue, rfl⟩
          · exact .name hnames hitems hws hs
          · exact .member hnames hitems hname hvalue
      | error => trivial
      | fuel => trivial

theorem valueOutcome_succ {fuel : ℕ} {s : Stream} (hnul : '\x00' ∈ s)
    (helements : ∀ u, '\x00' ∈ u → ElementsOutcome u (parseElements fuel u))
    (hmembers : ∀ u, '\x00' ∈ u → MembersOutcome u (parseMembers fuel u)) :
    ValueOutcome s (parseValue (fuel + 1) s) := by
  cases s with
  | nil => exact absurd hnul List.not_mem_nil
  | cons c s =>
      rw [parseValue]
      split
      · rename_i hc
        subst hc
        exact valueOutcome_literal .null (nul_mem_of_cons hnul (by decide))
      split
      · rename_i hc
        subst hc
        exact valueOutcome_literal .true (nul_mem_of_cons hnul (by decide))
      split
      · rename_i hc
        subst hc
        exact valueOutcome_literal .false (nul_mem_of_cons hnul (by decide))
      split
      · rename_i hc
        subst hc
        exact valueOutcome_string (nul_mem_of_cons hnul (by decide))
      split
      · rename_i hc
        subst hc
        have hs := nul_mem_of_cons hnul (by decide)
        obtain ⟨ws, hws, hws'⟩ := exists_blank s
        obtain ⟨d, t, hskip⟩ := skipWhitespace_ne_nil hs
        have ht : '\x00' ∈ d :: t := by
          rw [hws', hskip] at hs
          exact nul_mem_of_append hs hws.nul_notMem
        simp only [hskip]
        split
        · rename_i hd
          subst hd
          exact ⟨_, .emptyObject hws, by rw [hws', hskip]; simp⟩
        · have houtcome := valueOutcome_object ((hmembers _ ht).blank hws)
          rwa [← hskip, ← hws', hskip] at houtcome
      split
      · rename_i hc
        subst hc
        have hs := nul_mem_of_cons hnul (by decide)
        obtain ⟨ws, hws, hws'⟩ := exists_blank s
        obtain ⟨d, t, hskip⟩ := skipWhitespace_ne_nil hs
        have ht : '\x00' ∈ d :: t := by
          rw [hws', hskip] at hs
          exact nul_mem_of_append hs hws.nul_notMem
        simp only [hskip]
        split
        · rename_i hd
          subst hd
          exact ⟨_, .emptyArray hws, by rw [hws', hskip]; simp⟩
        · have houtcome := valueOutcome_array ((helements _ ht).blank hws)
          rwa [← hskip, ← hws', hskip] at houtcome
      · exact valueOutcome_number hnul

/-- **The reader** takes nothing but the grammar, and aborts nowhere else. -/
theorem outcome_parse (fuel : ℕ) :
    (∀ s, '\x00' ∈ s → ValueOutcome s (parseValue fuel s)) ∧
      (∀ s, '\x00' ∈ s → ElementsOutcome s (parseElements fuel s)) ∧
      ∀ s, '\x00' ∈ s → MembersOutcome s (parseMembers fuel s) := by
  induction fuel with
  | zero => exact ⟨fun _ _ => trivial, fun _ _ => trivial, fun _ _ => trivial⟩
  | succ fuel ih =>
      obtain ⟨hvalue, helements, hmembers⟩ := ih
      refine ⟨fun s hs => valueOutcome_succ hs helements hmembers, fun s hs => ?_,
        fun s hs => membersOutcome_succ hs hvalue hmembers⟩
      rw [parseElements_succ]
      exact elementsOutcome_bind hs (hvalue s hs) helements

/-! ### Documents -/

theorem opens_number {p : NumberText} (hp : p.Valid) (r : Stream) :
    skipWhitespace (p.text ++ r) = p.text ++ r := by
  obtain ⟨c, t, htext, hc⟩ := NumberText.exists_text_eq_cons hp
  rw [htext]
  exact Opens.skipWhitespace (hc.imp (fun h => by rw [h]; decide) id) _

/-- A text that starts with what it is read from. -/
def Bare (t : List Char) : Prop :=
  ∀ r, skipWhitespace (t ++ r) = t ++ r

theorem bare_cons {c : Char} (hc : Opens c) (s : List Char) : Bare (c :: s) :=
  fun _ => hc.skipWhitespace _

/-- The white space in front of a value can be taken off. -/
theorem Denotes.exists_bare {t : List Char} {v : Value} (h : Denotes t v) :
    ∃ ws t', Blank ws ∧ t = ws ++ t' ∧ Denotes t' v ∧ Bare t' := by
  induction h with
  | null => exact ⟨[], _, blank_nil, rfl, .null, bare_cons (.inl (by decide)) _⟩
  | true => exact ⟨[], _, blank_nil, rfl, .true, bare_cons (.inl (by decide)) _⟩
  | false => exact ⟨[], _, blank_nil, rfl, .false, bare_cons (.inl (by decide)) _⟩
  | string h => exact ⟨[], _, blank_nil, rfl, .string h, bare_cons (.inl (by decide)) _⟩
  | integer hp hinteger hfits =>
      exact ⟨[], _, blank_nil, rfl, .integer hp hinteger hfits, opens_number hp⟩
  | double hp h => exact ⟨[], _, blank_nil, rfl, .double hp h, opens_number hp⟩
  | emptyArray h =>
      exact ⟨[], _, blank_nil, rfl, .emptyArray h, bare_cons (.inl (by decide)) _⟩
  | array hitems ht =>
      exact ⟨[], _, blank_nil, rfl, .array hitems ht, bare_cons (.inl (by decide)) _⟩
  | emptyObject h =>
      exact ⟨[], _, blank_nil, rfl, .emptyObject h, bare_cons (.inl (by decide)) _⟩
  | object hnames hitems hname ht =>
      exact ⟨[], _, blank_nil, rfl, .object hnames hitems hname ht,
        bare_cons (.inl (by decide)) _⟩
  | @blank ws ws' t v hws hws' _ ih =>
      obtain ⟨ws'', t', hblank, rfl, ht', hbare⟩ := ih
      refine ⟨ws ++ ws'', t' ++ ws', hws.append hblank, by simp, ht'.after hws', fun r => ?_⟩
      rw [List.append_assoc, hbare]

/-- A text that aborts does so without the whitespace before it. -/
theorem Aborts.exists_bare {s : Stream} (h : Aborts s) :
    ∃ ws s', Blank ws ∧ s = ws ++ s' ∧ Aborts s' ∧ skipWhitespace s' = s' := by
  have hopens : ∀ {c : Char} (s : Stream), Opens c → skipWhitespace (c :: s) = c :: s :=
    fun s hc => hc.skipWhitespace s
  induction h with
  | string h => exact ⟨[], _, blank_nil, rfl, .string h, hopens _ (.inl (by decide))⟩
  | number hp hr h => exact ⟨[], _, blank_nil, rfl, .number hp hr h, opens_number hp _⟩
  | element hitems hs =>
      exact ⟨[], _, blank_nil, rfl, .element hitems hs, hopens _ (.inl (by decide))⟩
  | name hnames hitems hws hs =>
      exact ⟨[], _, blank_nil, rfl, .name hnames hitems hws hs, hopens _ (.inl (by decide))⟩
  | member hnames hitems hname hs =>
      exact ⟨[], _, blank_nil, rfl, .member hnames hitems hname hs, hopens _ (.inl (by decide))⟩
  | @blank ws s hws _ ih =>
      obtain ⟨ws', s', hws', rfl, hs', hskip⟩ := ih
      exact ⟨ws ++ ws', s', hws.append hws', (List.append_assoc _ _ _).symm, hs', hskip⟩

/-- The text has to end after the value. -/
def atEnd (a : Value × Stream) : Except Failure Value :=
  match skipWhitespace a.2 with
  | [] => .error .abort
  | c :: _ => if c = '\x00' then .ok a.1 else .error .error

/-- After the value there is only the end of the text. -/
theorem atEnd_of_nul {v : Value} {r rest : Stream} (h : skipWhitespace r = '\x00' :: rest) :
    atEnd (v, r) = .ok v := by
  simp [atEnd, h]

theorem parse_of_cons {text : List Char} {c : Char} {t : Stream}
    (hskip : skipWhitespace (text ++ ['\x00']) = c :: t) (hne : c ≠ '\x00') :
    parse text = (parseValue (2 * (c :: t).length + 1) (c :: t)).bind atEnd := by
  rw [parse]
  simp only [hskip, if_neg hne]
  rfl

/-- **A text of the grammar** is read as its value. -/
theorem document_of_jsonText {json : List Char} {v : Value} (h : JsonText json v) :
    document json = some v := by
  obtain ⟨t, rest, ht, hjson⟩ := h
  obtain ⟨ws, t, hws, rfl, ht, hbare⟩ := ht.exists_bare
  have hskip : skipWhitespace (json ++ ['\x00']) = t ++ '\x00' :: rest := by
    rw [hjson, List.append_assoc, skipWhitespace_append hws, hbare]
  obtain ⟨c, u, hcons, hc⟩ := ht.opensValue ('\x00' :: rest)
  rw [hbare] at hcons
  obtain ⟨r, hread, hr⟩ := reads_of_denotes ht (2 * (t ++ '\x00' :: rest).length + 1)
    ('\x00' :: rest) (fun d hd => by rw [← Option.some.inj hd]; exact numberEnd_nul) (le_refl _)
  rw [hbare] at hread
  have hend : atEnd (v, r) = .ok v :=
    atEnd_of_nul (hr.trans (skipWhitespace_cons (by decide) rest))
  rw [document, parse_of_cons (hskip.trans hcons) (hc.ne (by decide) (by decide)), ← hcons,
    hread]
  simp only [Except.bind, hend]

/-- **The reader aborts** where the grammar says so. -/
theorem document_of_aborts {json : List Char} (h : JsonAborts json) : document json = none := by
  obtain ⟨ws, s, hws, hs, haborts, hbare⟩ := Aborts.exists_bare h
  obtain ⟨c, u, hcons, hc⟩ := haborts.opensValue
  have hskip : skipWhitespace (json ++ ['\x00']) = c :: u := by
    rw [hs, skipWhitespace_append hws, hcons]
  have hread := parseValue_of_aborts haborts (2 * s.length + 1) (le_refl _)
  rw [hbare] at hread hcons
  rw [document, parse_of_cons hskip (hc.ne (by decide) (by decide)), ← hcons, hread]
  rfl

/-- **Every text** is one of the grammar, or one that the reader aborts at, or its document is
null. -/
theorem document_cases (json : List Char) :
    (∃ v, JsonText json v) ∨ JsonAborts json ∨ document json = some .null := by
  have hnul : '\x00' ∈ json ++ ['\x00'] := by simp
  obtain ⟨ws, hws, hjson⟩ := exists_blank (json ++ ['\x00'])
  obtain ⟨c, u, hskip⟩ := skipWhitespace_ne_nil hnul
  rw [hskip] at hjson
  by_cases hc : c = '\x00'
  · refine .inr (.inr ?_)
    rw [document, parse]
    simp only [hskip, if_pos hc]
  have hu : '\x00' ∈ c :: u := by
    rw [hjson] at hnul
    exact nul_mem_of_append hnul hws.nul_notMem
  have hvalue := (outcome_parse (2 * (c :: u).length + 1)).1 (c :: u) hu
  have hfuel := parse_ne_fuel json
  rw [document]
  rw [parse_of_cons hskip hc] at hfuel ⊢
  cases hread : parseValue (2 * (c :: u).length + 1) (c :: u) with
  | error e =>
      rw [hread] at hvalue hfuel
      cases e with
      | abort =>
          refine .inr (.inl ?_)
          rw [JsonAborts, hjson]
          exact Aborts.blank hws hvalue
      | error => exact .inr (.inr rfl)
      | fuel => exact absurd rfl hfuel
  | ok a =>
      rw [hread] at hvalue
      obtain ⟨t, ht, heq⟩ := hvalue
      have ha : '\x00' ∈ a.2 := by
        rw [heq] at hu
        exact nul_mem_of_append hu ht.nul_notMem
      obtain ⟨ws', hws', ha'⟩ := exists_blank a.2
      obtain ⟨d, rest, hrest⟩ := skipWhitespace_ne_nil ha
      rw [hrest] at ha'
      by_cases hd : d = '\x00'
      · refine .inl ⟨a.1, ws ++ (t ++ ws'), rest, Denotes.blank hws hws' ht, ?_⟩
        rw [hjson, heq, ha', hd]
        simp
      · refine .inr (.inr ?_)
        simp only [Except.bind, atEnd, hrest, if_neg hd]

end MahjongAI.Json
