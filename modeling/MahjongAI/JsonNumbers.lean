import MahjongAI.JsonRoundTrip

/-!
# The Numbers of a JSON Text

A number is written as an optional minus, the digits of its integer part, an optional
fraction and an optional exponent. `NumberText` holds these parts, and `convert` is what the
arithmetic of `ParseNumber` makes of them: an integer of 64 bits where there are only digits
and they fit, else a double, an error where it is too large, and an abort where the scale of
a double falls outside the table of `Pow10`.

## Main results

* `parseNumber_text`: `ParseNumber` converts the parts, whatever comes after them.
* `exists_numberText`: what is no number text is an error.
* `convert_of_integer`, `convert_cases`: the texts that give an integer.
-/

namespace MahjongAI.Json

/-! ### The grammar -/

/-- The parts of a number: `fraction` is empty where there is no point, and an exponent is
its letter, its sign and its digits. -/
structure NumberText where
  minus : Bool
  digits : List Char
  fraction : List Char
  exponent : Option (Char × List Char × List Char)

namespace NumberText

variable (p : NumberText)

/-- A zero or digits that do not start with one, and digits wherever there is a fraction or an
exponent. -/
structure Valid : Prop where
  digits : p.digits = ['0'] ∨ ∃ d ds, p.digits = d :: ds ∧ d ≠ '0'
  isDigit : ∀ c ∈ p.digits, c.isDigit = true
  fraction : ∀ c ∈ p.fraction, c.isDigit = true
  exponent : ∀ e sign ds, p.exponent = some (e, sign, ds) → (e = 'e' ∨ e = 'E') ∧
    (sign = [] ∨ sign = ['+'] ∨ sign = ['-']) ∧ ds ≠ [] ∧ ∀ c ∈ ds, c.isDigit = true

/-- The minus, if there is one. -/
def signText : List Char :=
  if p.minus then ['-'] else []

/-- The fraction with its point, if there is one. -/
def fractionText : List Char :=
  if p.fraction = [] then [] else '.' :: p.fraction

/-- The exponent with its letter and its sign, if there is one. -/
def exponentText : List Char :=
  match p.exponent with
  | none => []
  | some (e, sign, ds) => e :: (sign ++ ds)

/-- The text of a number. -/
def text : List Char :=
  p.signText ++ (p.digits ++ (p.fractionText ++ p.exponentText))

/-- Only digits, after a minus or not. -/
def IsInteger : Prop :=
  p.fraction = [] ∧ p.exponent = none

/-- The value of the digits. -/
def magnitude : ℕ :=
  Nat.ofDigitChars 10 p.digits 0

/-- The value of an integer. -/
def value : ℤ :=
  if p.minus then -p.magnitude else p.magnitude

/-- The value is one of `int64_t` or of `uint64_t`. -/
def Fits : Prop :=
  p.magnitude ≤ if p.minus then 2 ^ 63 else 2 ^ 64 - 1

/-- The number of the parts, or how its arithmetic fails. -/
def convert : Except Failure Value := do
  let (x, _) ← parseInteger p.minus p.digits
  let (x, _) ← parseFraction x p.fractionText
  let (x, _) ← parseExponent x p.exponentText
  finishNumber p.minus x

/-- The number does not go on with `r`. -/
structure Ends (r : Stream) : Prop where
  digit : p.digits ≠ ['0'] ∨ p.fraction ≠ [] ∨ p.exponent ≠ none →
    ∀ c ∈ r.head?, c.isDigit = false
  exponent : p.exponent = none → ∀ c ∈ r.head?, c ≠ 'e' ∧ c ≠ 'E'
  fraction : p.exponent = none → p.fraction = [] → ∀ c ∈ r.head?, c ≠ '.'

end NumberText

/-! ### Digit loops -/

/-- A result with `r` left of the text. -/
def leaving {α : Type} (r : Stream) (e : Except Failure (α × Stream)) :
    Except Failure (α × Stream) :=
  e.map fun a => (a.1, r)

@[simp] theorem leaving_ok {α : Type} (r s : Stream) (a : α) :
    leaving r (.ok (a, s)) = .ok (a, r) := rfl

@[simp] theorem leaving_error {α : Type} (r : Stream) (e : Failure) :
    leaving r (.error e : Except Failure (α × Stream)) = .error e := rfl

theorem head?_append_digits {ds : List Char} (hds : ∀ c ∈ ds, c.isDigit = true) {r : Stream}
    (hr : ∀ c ∈ r.head?, c.isDigit = false) :
    (ds ++ r).head?.any Char.isDigit = ds.head?.any Char.isDigit := by
  cases ds with
  | nil =>
      cases r with
      | nil => rfl
      | cons c r => simpa using hr c rfl
  | cons c ds => rfl

section Loops

variable {ds : List Char} {r : Stream}

/-- The digits are read, whatever follows them. -/
theorem accumulate_append (hds : ∀ c ∈ ds, c.isDigit = true)
    (hr : ∀ c ∈ r.head?, c.isDigit = false) (limit n k : ℕ) :
    accumulate limit n k (ds ++ r) =
      ((accumulate limit n k ds).1, (accumulate limit n k ds).2.1,
        (accumulate limit n k ds).2.2 ++ r) := by
  induction ds generalizing n k with
  | nil =>
      cases r with
      | nil => rfl
      | cons c r => exact accumulate_end (hr c rfl) r
  | cons d ds ih =>
      have hd := hds d List.mem_cons_self
      rw [List.cons_append, accumulate, accumulate, if_pos hd, if_pos hd]
      split
      · rfl
      · exact ih (fun c hc => hds c (List.mem_cons_of_mem _ hc)) _ _

/-- What a digit loop leaves are digits. -/
theorem isDigit_of_mem_accumulate (hds : ∀ c ∈ ds, c.isDigit = true) (limit n k : ℕ) :
    ∀ c ∈ (accumulate limit n k ds).2.2, c.isDigit = true := by
  induction ds generalizing n k with
  | nil => exact fun c hc => absurd hc List.not_mem_nil
  | cons d ds ih =>
      rw [accumulate, if_pos (hds d List.mem_cons_self)]
      split
      · exact hds
      · exact ih (fun c hc => hds c (List.mem_cons_of_mem _ hc)) _ _

theorem accumulateDouble_append (hds : ∀ c ∈ ds, c.isDigit = true)
    (hr : ∀ c ∈ r.head?, c.isDigit = false) (d : Float) :
    accumulateDouble d (ds ++ r) = leaving r (accumulateDouble d ds) := by
  induction ds generalizing d with
  | nil =>
      cases r with
      | nil => rfl
      | cons c r => simp [accumulateDouble, hr c rfl]
  | cons c ds ih =>
      rw [List.cons_append, accumulateDouble, accumulateDouble,
        if_pos (hds c List.mem_cons_self), if_pos (hds c List.mem_cons_self)]
      split
      · rfl
      · exact ih (fun c hc => hds c (List.mem_cons_of_mem _ hc)) _

theorem accumulateFraction_append (hds : ∀ c ∈ ds, c.isDigit = true)
    (hr : ∀ c ∈ r.head?, c.isDigit = false) (d : Float) (k : ℕ) (expFrac : ℤ) :
    accumulateFraction d k expFrac (ds ++ r) =
      ((accumulateFraction d k expFrac ds).1, (accumulateFraction d k expFrac ds).2.1, r) := by
  induction ds generalizing d k expFrac with
  | nil =>
      cases r with
      | nil => rfl
      | cons c r => simp [accumulateFraction, hr c rfl]
  | cons c ds ih =>
      have ih := ih fun c hc => hds c (List.mem_cons_of_mem _ hc)
      rw [List.cons_append, accumulateFraction, accumulateFraction,
        if_pos (hds c List.mem_cons_self), if_pos (hds c List.mem_cons_self)]
      split
      · exact ih _ _ _
      · exact ih _ _ _

theorem accumulateExponent_append (hds : ∀ c ∈ ds, c.isDigit = true)
    (hr : ∀ c ∈ r.head?, c.isDigit = false) (expMinus : Bool) (exp : ℤ) :
    accumulateExponent expMinus exp (ds ++ r) =
      leaving r (accumulateExponent expMinus exp ds) := by
  induction ds generalizing exp with
  | nil =>
      cases r with
      | nil => rfl
      | cons c r => simp [accumulateExponent, hr c rfl]
  | cons c ds ih =>
      rw [List.cons_append, accumulateExponent, accumulateExponent,
        if_pos (hds c List.mem_cons_self), if_pos (hds c List.mem_cons_self)]
      simp only
      split
      · rfl
      · exact ih (fun c hc => hds c (List.mem_cons_of_mem _ hc)) _

end Loops

/-! ### The parts of `ParseNumber` -/

/-- **The integer digits**, in the two limits one after the other. -/
theorem integerDigits_append {ds : List Char} {r : Stream} (hds : ∀ c ∈ ds, c.isDigit = true)
    (hr : ∀ c ∈ r.head?, c.isDigit = false) (minus : Bool) (first : ℕ) :
    integerDigits minus first (ds ++ r) =
      ((integerDigits minus first ds).1, (integerDigits minus first ds).2.1,
        (integerDigits minus first ds).2.2 ++ r) := by
  simp only [integerDigits, accumulate_append hds hr]
  exact accumulate_append (isDigit_of_mem_accumulate hds _ _ _) hr _ _ _

theorem isDigit_of_mem_integerDigits {ds : List Char} (hds : ∀ c ∈ ds, c.isDigit = true)
    (minus : Bool) (first : ℕ) : ∀ c ∈ (integerDigits minus first ds).2.2, c.isDigit = true :=
  isDigit_of_mem_accumulate (isDigit_of_mem_accumulate hds _ _ _) _ _ _

/-- **The integer part** is read up to the first character that is no digit. -/
theorem parseInteger_append {d : Char} {ds : List Char} {r : Stream} (hd : d ≠ '0')
    (hds : ∀ c ∈ d :: ds, c.isDigit = true) (hr : ∀ c ∈ r.head?, c.isDigit = false)
    (minus : Bool) :
    parseInteger minus (d :: ds ++ r) = leaving r (parseInteger minus (d :: ds)) := by
  have hrest : ∀ c ∈ ds, c.isDigit = true := fun c hc => hds c (List.mem_cons_of_mem _ hc)
  have hleft := isDigit_of_mem_integerDigits hrest minus (digitValue d)
  rw [List.cons_append, parseInteger, parseInteger, if_neg hd, if_neg hd,
    if_pos (hds d List.mem_cons_self), if_pos (hds d List.mem_cons_self),
    integerDigits_append hrest hr]
  generalize integerDigits minus (digitValue d) ds = read at hleft ⊢
  obtain ⟨i64, k, left⟩ := read
  simp only at hleft ⊢
  rw [head?_append_digits hleft hr]
  split
  · rw [accumulateDouble_append hleft hr]
    cases accumulateDouble (Float.ofNat i64) left <;> rfl
  · have hnone : left = [] := by
      cases left with
      | nil => rfl
      | cons c left =>
          rename_i hhead
          exact absurd (hleft c List.mem_cons_self) (by simpa using hhead)
    rw [hnone]
    rfl

/-- **The fraction**, with its point. -/
theorem parseFraction_append {fs : List Char} {r : Stream} (hne : fs ≠ [])
    (hfs : ∀ c ∈ fs, c.isDigit = true) (hr : ∀ c ∈ r.head?, c.isDigit = false) (x : Number) :
    parseFraction x ('.' :: fs ++ r) = leaving r (parseFraction x ('.' :: fs)) := by
  have hhead : fs.head?.any Char.isDigit = true := by
    cases fs with
    | nil => exact absurd rfl hne
    | cons c fs => simpa using hfs c List.mem_cons_self
  rw [List.cons_append]
  simp only [parseFraction, head?_append_digits hfs hr, hhead, if_true,
    accumulateFraction_append hfs hr]
  rfl

/-- No point, no fraction. -/
theorem parseFraction_of_ne {r : Stream} (hr : ∀ c ∈ r.head?, c ≠ '.') (x : Number) :
    parseFraction x r = .ok (x, r) := by
  simp only [parseFraction]
  split
  · exact absurd rfl (hr _ rfl)
  · rfl

/-- **The sign** of an exponent. -/
theorem parseSign_append {sign ds : List Char}
    (hsign : sign = [] ∨ sign = ['+'] ∨ sign = ['-']) (hne : ds ≠ [])
    (hds : ∀ c ∈ ds, c.isDigit = true) (r : Stream) :
    parseSign (sign ++ ds ++ r) = (decide (sign = ['-']), ds ++ r) := by
  rcases hsign with rfl | rfl | rfl
  · cases ds with
    | nil => exact absurd rfl hne
    | cons d ds =>
        have hd := hds d List.mem_cons_self
        simp only [List.nil_append, List.cons_append, parseSign]
        split
        · rename_i heq
          rw [(List.cons.inj heq).1] at hd
          exact absurd hd (by decide)
        · rename_i heq
          rw [(List.cons.inj heq).1] at hd
          exact absurd hd (by decide)
        · rfl
  · rfl
  · rfl

/-- **The exponent**, with its letter and its sign. -/
theorem parseExponent_append {e : Char} {sign ds : List Char} {r : Stream}
    (he : e = 'e' ∨ e = 'E') (hsign : sign = [] ∨ sign = ['+'] ∨ sign = ['-']) (hne : ds ≠ [])
    (hds : ∀ c ∈ ds, c.isDigit = true) (hr : ∀ c ∈ r.head?, c.isDigit = false) (x : Number) :
    parseExponent x (e :: (sign ++ ds) ++ r) =
      leaving r (parseExponent x (e :: (sign ++ ds))) := by
  have hempty : sign ++ ds = sign ++ ds ++ [] := by simp
  rw [List.cons_append, parseExponent, parseExponent, if_pos he, if_pos he,
    parseSign_append hsign hne hds]
  rw [hempty, parseSign_append hsign hne hds, List.append_nil]
  cases ds with
  | nil => exact absurd rfl hne
  | cons d ds =>
      simp only [List.cons_append, hds d List.mem_cons_self, if_true]
      rw [accumulateExponent_append (fun c hc => hds c (List.mem_cons_of_mem _ hc)) hr]
      cases accumulateExponent (decide (sign = ['-'])) (digitValue d) ds <;> rfl

/-- No letter, no exponent. -/
theorem parseExponent_of_ne {r : Stream} (hr : ∀ c ∈ r.head?, c ≠ 'e' ∧ c ≠ 'E') (x : Number) :
    parseExponent x r = .ok (x, r) := by
  cases r with
  | nil => rfl
  | cons c r =>
      obtain ⟨he, hE⟩ := hr c rfl
      rw [parseExponent, if_neg (by simp [he, hE])]

/-- The minus of a number. -/
theorem parseMinus_append (minus : Bool) {d : Char} (hd : d.isDigit = true) (s : Stream) :
    parseMinus ((if minus then ['-'] else []) ++ d :: s) = (minus, d :: s) := by
  cases minus with
  | true => rfl
  | false =>
      simp only [Bool.false_eq_true, if_false, List.nil_append, parseMinus]
      split
      · rename_i heq
        rw [(List.cons.inj heq).1] at hd
        exact absurd hd (by decide)
      · rfl

/-! ### Reading a number text -/

namespace NumberText

variable {p : NumberText}

theorem parseInteger_digits (hp : p.Valid) {r : Stream}
    (hr : p.digits ≠ ['0'] → ∀ c ∈ r.head?, c.isDigit = false) :
    parseInteger p.minus (p.digits ++ r) = leaving r (parseInteger p.minus p.digits) := by
  rcases hp.digits with hzero | ⟨d, ds, hdigits, hd⟩
  · rw [hzero]
    rfl
  · have hne : p.digits ≠ ['0'] := by
      rw [hdigits]
      exact fun heq => hd (List.cons.inj heq).1
    have hds := hp.isDigit
    rw [hdigits] at hds ⊢
    exact parseInteger_append hd hds (hr hne) p.minus

theorem parseFraction_text (hp : p.Valid) {r : Stream}
    (hr : p.fraction ≠ [] → ∀ c ∈ r.head?, c.isDigit = false)
    (hdot : p.fraction = [] → ∀ c ∈ r.head?, c ≠ '.') (x : Number) :
    parseFraction x (p.fractionText ++ r) = leaving r (parseFraction x p.fractionText) := by
  rw [fractionText]
  by_cases hnone : p.fraction = []
  · rw [if_pos hnone, List.nil_append, parseFraction_of_ne (hdot hnone)]
    rfl
  · rw [if_neg hnone]
    exact parseFraction_append hnone hp.fraction (hr hnone) x

theorem parseExponent_text (hp : p.Valid) {r : Stream}
    (hr : p.exponent ≠ none → ∀ c ∈ r.head?, c.isDigit = false)
    (he : p.exponent = none → ∀ c ∈ r.head?, c ≠ 'e' ∧ c ≠ 'E') (x : Number) :
    parseExponent x (p.exponentText ++ r) = leaving r (parseExponent x p.exponentText) := by
  rw [exponentText]
  cases hexponent : p.exponent with
  | none =>
      rw [List.nil_append, parseExponent_of_ne (he hexponent)]
      rfl
  | some parts =>
      obtain ⟨e, sign, ds⟩ := parts
      obtain ⟨hletter, hsign, hne, hds⟩ := hp.exponent e sign ds hexponent
      exact parseExponent_append hletter hsign hne hds (hr (by simp [hexponent])) x

/-- An exponent starts with its letter. -/
theorem head?_exponentText (hp : p.Valid) {r : Stream} {c : Char}
    (hc : c ∈ (p.exponentText ++ r).head?) :
    (p.exponent = none ∧ c ∈ r.head?) ∨ c = 'e' ∨ c = 'E' := by
  rw [exponentText] at hc
  cases hexponent : p.exponent with
  | none =>
      rw [hexponent] at hc
      exact .inl ⟨rfl, hc⟩
  | some parts =>
      obtain ⟨e, sign, ds⟩ := parts
      rw [hexponent] at hc
      obtain rfl : e = c := Option.some.inj hc
      exact .inr (hp.exponent e sign ds hexponent).1

theorem isDigit_letter {c : Char} (h : c = 'e' ∨ c = 'E') : c.isDigit = false ∧ c ≠ '.' := by
  rcases h with rfl | rfl <;> decide

/-- **A number text** is converted, whatever comes after it. -/
theorem parseNumber_text (hp : p.Valid) {r : Stream} (hr : p.Ends r) :
    parseNumber (p.text ++ r) = p.convert.map fun v => (v, r) := by
  obtain ⟨d, ds, hdigits⟩ : ∃ d ds, p.digits = d :: ds := by
    rcases hp.digits with hzero | ⟨d, ds, hdigits, -⟩
    · exact ⟨_, _, hzero⟩
    · exact ⟨d, ds, hdigits⟩
  have hsign : parseMinus (p.text ++ r) =
      (p.minus, p.digits ++ (p.fractionText ++ (p.exponentText ++ r))) := by
    have hd : d.isDigit = true := hp.isDigit d (by rw [hdigits]; exact List.mem_cons_self)
    simpa [text, signText, hdigits] using parseMinus_append p.minus hd
      (ds ++ (p.fractionText ++ (p.exponentText ++ r)))
  have hafter : p.digits ≠ ['0'] → ∀ c ∈ (p.fractionText ++ (p.exponentText ++ r)).head?,
      c.isDigit = false := by
    intro hne c hc
    rw [fractionText] at hc
    split at hc
    · rcases head?_exponentText hp hc with ⟨-, hc⟩ | hletter
      · exact hr.digit (.inl hne) c hc
      · exact (isDigit_letter hletter).1
    · obtain rfl : '.' = c := Option.some.inj hc
      decide
  have hinteger := parseInteger_digits hp hafter
  have hfraction := parseFraction_text hp (r := p.exponentText ++ r)
    (fun hne c hc => by
      rcases head?_exponentText hp hc with ⟨-, hc⟩ | hletter
      · exact hr.digit (.inr (.inl hne)) c hc
      · exact (isDigit_letter hletter).1)
    (fun hnone c hc => by
      rcases head?_exponentText hp hc with ⟨hexponent, hc⟩ | hletter
      · exact hr.fraction hexponent hnone c hc
      · exact (isDigit_letter hletter).2)
  have hexponent := parseExponent_text hp (r := r)
    (fun hne => hr.digit (.inr (.inr hne))) hr.exponent
  rw [parseNumber, hsign]
  simp only [bind, hinteger, convert]
  cases parseInteger p.minus p.digits with
  | error e => rfl
  | ok a =>
      simp only [leaving, Except.map, Except.bind, hfraction]
      cases parseFraction a.1 p.fractionText with
      | error e => rfl
      | ok b =>
          simp only [leaving, Except.map, hexponent]
          cases parseExponent b.1 p.exponentText with
          | error e => rfl
          | ok c => cases finishNumber p.minus c.1 <;> rfl

end NumberText

/-- The digits at the start of a text. -/
theorem exists_digits (s : Stream) :
    ∃ ds r, s = ds ++ r ∧ (∀ c ∈ ds, c.isDigit = true) ∧ ∀ c ∈ r.head?, c.isDigit = false := by
  induction s with
  | nil => exact ⟨[], [], rfl, by simp, by simp⟩
  | cons c s ih =>
      by_cases hc : c.isDigit = true
      · obtain ⟨ds, r, rfl, hds, hr⟩ := ih
        exact ⟨c :: ds, r, rfl, by simpa [hc] using hds, hr⟩
      · exact ⟨[], c :: s, rfl, by simp, by simpa using hc⟩

/-- An integer part is read, or found too large. -/
theorem parseInteger_cases {p : NumberText} (hp : p.Valid) :
    (∃ x, parseInteger p.minus p.digits = .ok x) ∨
      parseInteger p.minus p.digits = .error .error := by
  have hdouble : ∀ (ds : List Char) (d : Float), (∃ x, accumulateDouble d ds = .ok x) ∨
      accumulateDouble d ds = .error .error := by
    intro ds
    induction ds with
    | nil => exact fun d => .inl ⟨_, rfl⟩
    | cons c ds ih =>
        intro d
        rw [accumulateDouble]
        split
        · split
          · exact .inr rfl
          · exact ih _
        · exact .inl ⟨_, rfl⟩
  rcases hp.digits with hzero | ⟨d, ds, hdigits, hd⟩
  · rw [hzero]
    exact .inl ⟨_, rfl⟩
  · have hdigit : d.isDigit = true := hp.isDigit d (by rw [hdigits]; exact List.mem_cons_self)
    rw [hdigits, parseInteger, if_neg hd, if_pos hdigit]
    simp only
    split
    · rcases hdouble (integerDigits p.minus (digitValue d) ds).2.2
        (Float.ofNat (integerDigits p.minus (digitValue d) ds).1) with ⟨x, hx⟩ | herror
      · rw [hx]
        exact .inl ⟨_, rfl⟩
      · rw [herror]
        exact .inr rfl
    · exact .inl ⟨_, rfl⟩

/-- The integer part at the start of a text, unless the reader finds an error. -/
theorem exists_integer {s : Stream} (hnul : '\x00' ∈ s) :
    (∃ digits r, s = digits ++ r ∧ (digits = ['0'] ∨ ∃ d ds, digits = d :: ds ∧ d ≠ '0') ∧
      (∀ c ∈ digits, c.isDigit = true) ∧
        (digits ≠ ['0'] → ∀ c ∈ r.head?, c.isDigit = false)) ∨
      ∀ minus, parseInteger minus s = .error .error := by
  cases s with
  | nil => exact absurd hnul List.not_mem_nil
  | cons d u =>
      by_cases hd : d.isDigit = true
      · by_cases hzero : d = '0'
        · exact .inl ⟨['0'], u, by rw [hzero]; rfl, .inl rfl, by simp, fun h => absurd rfl h⟩
        · obtain ⟨ds, r, rfl, hds, hr⟩ := exists_digits u
          exact .inl ⟨d :: ds, r, rfl, .inr ⟨d, ds, rfl, hzero⟩, by simpa [hd] using hds,
            fun _ => hr⟩
      · have hne : d ≠ '0' := by
          rintro rfl
          exact hd (by decide)
        exact .inr fun minus => by rw [parseInteger, if_neg hne, if_neg hd]

/-- The fraction at the start of a text, unless the reader finds an error. -/
theorem exists_fraction (r : Stream) :
    (∃ fs t, (∀ p : NumberText, p.fraction = fs → r = p.fractionText ++ t) ∧
      (∀ c ∈ fs, c.isDigit = true) ∧ (fs ≠ [] → ∀ c ∈ t.head?, c.isDigit = false) ∧
        (fs = [] → r = t ∧ ∀ c ∈ t.head?, c ≠ '.')) ∨
      ∀ x, parseFraction x r = .error .error := by
  by_cases hdot : ∃ t, r = '.' :: t
  swap
  · refine .inl ⟨[], r, fun p hp => ?_, by simp, fun h => absurd rfl h, fun _ => ⟨rfl, ?_⟩⟩
    · rw [NumberText.fractionText, hp, if_pos rfl]
      rfl
    · rintro c hc rfl
      cases r with
      | nil => exact absurd hc (by simp)
      | cons b t => exact hdot ⟨t, by rw [Option.some.inj hc]⟩
  obtain ⟨t, rfl⟩ := hdot
  obtain ⟨fs, t, rfl, hfs, ht⟩ := exists_digits t
  cases fs with
  | nil =>
      refine .inr fun x => ?_
      have hhead : t.head?.any Char.isDigit = false := by
        cases t with
        | nil => rfl
        | cons c t => simpa using ht c rfl
      simp only [parseFraction, List.nil_append, hhead, Bool.false_eq_true, if_false]
  | cons f fs =>
      refine .inl ⟨f :: fs, t, fun p hp => ?_, hfs, fun _ => ht, fun h => absurd h (by simp)⟩
      rw [NumberText.fractionText, hp, if_neg (by simp)]
      rfl

/-- A fraction is read. -/
theorem parseFraction_fractionText {p : NumberText} (hp : p.Valid) (x : Number) :
    ∃ y, parseFraction x p.fractionText = .ok y := by
  rw [NumberText.fractionText]
  split
  · exact ⟨_, rfl⟩
  · rename_i hne
    have hhead : p.fraction.head?.any Char.isDigit = true := by
      cases hfs : p.fraction with
      | nil => exact absurd hfs hne
      | cons c fs => simpa using hp.fraction c (by rw [hfs]; exact List.mem_cons_self)
    simp only [parseFraction, hhead, if_true]
    exact ⟨_, rfl⟩

theorem nul_notMem_fractionText {p : NumberText} (hp : p.Valid) : '\x00' ∉ p.fractionText := by
  intro hmem
  rw [NumberText.fractionText] at hmem
  split at hmem
  · exact absurd hmem List.not_mem_nil
  · rcases List.mem_cons.mp hmem with heq | hmem
    · exact absurd heq (by decide)
    · exact absurd (hp.fraction _ hmem) (by decide)

/-- The exponent at the start of a text, unless the reader finds an error. -/
theorem exists_exponent {r : Stream} (hnul : '\x00' ∈ r) :
    (∃ exponent t, (∀ p : NumberText, p.exponent = exponent → r = p.exponentText ++ t) ∧
        (∀ e sign ds, exponent = some (e, sign, ds) → (e = 'e' ∨ e = 'E') ∧
          (sign = [] ∨ sign = ['+'] ∨ sign = ['-']) ∧ ds ≠ [] ∧ ∀ c ∈ ds, c.isDigit = true) ∧
        (exponent ≠ none → ∀ c ∈ t.head?, c.isDigit = false) ∧
        (exponent = none → r = t ∧ ∀ c ∈ t.head?, c ≠ 'e' ∧ c ≠ 'E')) ∨
      ∀ x, parseExponent x r = .error .error := by
  cases r with
  | nil => exact absurd hnul List.not_mem_nil
  | cons e u =>
      by_cases he : e = 'e' ∨ e = 'E'
      swap
      · refine .inl ⟨none, e :: u, fun p hp => by rw [NumberText.exponentText, hp]; rfl,
          fun _ _ _ h => absurd h (by simp), fun h => absurd rfl h, fun _ => ⟨rfl, ?_⟩⟩
        intro c hc
        obtain rfl : e = c := Option.some.inj hc
        simpa using he
      obtain ⟨m, sign, v, rfl, hsign, hparse⟩ : ∃ m sign v, u = sign ++ v ∧
          (sign = [] ∨ sign = ['+'] ∨ sign = ['-']) ∧ parseSign u = (m, v) := by
        simp only [parseSign]
        split
        · exact ⟨false, ['+'], _, rfl, .inr (.inl rfl), rfl⟩
        · exact ⟨true, ['-'], _, rfl, .inr (.inr rfl), rfl⟩
        · exact ⟨false, [], _, rfl, .inl rfl, rfl⟩
      obtain ⟨ds, t, rfl, hds, ht⟩ := exists_digits v
      cases ds with
      | cons d ds =>
          refine .inl ⟨some (e, sign, d :: ds), t, fun p hp => ?_, ?_, fun _ => ht,
            fun h => absurd h (by simp)⟩
          · rw [NumberText.exponentText, hp]
            simp
          · intro e' sign' ds' heq
            obtain ⟨rfl, rfl, rfl⟩ : e = e' ∧ sign = sign' ∧ d :: ds = ds' := by
              simpa using heq
            exact ⟨he, hsign, List.cons_ne_nil d ds, hds⟩
      | nil =>
          refine .inr fun x => ?_
          rw [parseExponent, if_pos he]
          rw [List.nil_append] at hparse ⊢
          cases t with
          | nil =>
              have hmem : '\x00' ∈ e :: sign := by simpa using hnul
              rcases he with rfl | rfl <;> rcases hsign with rfl | rfl | rfl <;>
                exact absurd hmem (by decide)
          | cons c t => simp only [hparse, ht c rfl, Bool.false_eq_true, if_false]

/-- **What is no number text is an error.** -/
theorem exists_numberText {s : Stream} (hnul : '\x00' ∈ s) :
    (∃ p r, NumberText.Valid p ∧ p.Ends r ∧ s = p.text ++ r) ∨
      parseNumber s = .error .error := by
  obtain ⟨minus, s, rfl, hminus⟩ : ∃ minus u, s = (if minus = true then ['-'] else []) ++ u ∧
      parseMinus s = (minus, u) := by
    simp only [parseMinus]
    split
    · exact ⟨true, _, rfl, rfl⟩
    · exact ⟨false, _, rfl, rfl⟩
  have hnul : '\x00' ∈ s := by
    refine (List.mem_append.mp hnul).resolve_left ?_
    cases minus <;> decide
  rw [parseNumber, hminus]
  rcases exists_integer hnul with ⟨digits, r, rfl, hvalid, hdigits, hr⟩ | herror
  swap
  · refine .inr ?_
    simp only [herror, bind, Except.bind]
  have hp : NumberText.Valid ⟨minus, digits, [], none⟩ := ⟨hvalid, hdigits, by simp, by simp⟩
  have hinteger : parseInteger minus (digits ++ r) = _ :=
    NumberText.parseInteger_digits hp (r := r) hr
  rcases parseInteger_cases hp with ⟨x, hx⟩ | herror
  swap
  · refine .inr ?_
    simp only [hinteger, herror, bind, Except.bind, leaving_error]
  rw [hx] at hinteger
  rcases exists_fraction r with ⟨fs, t, htext, hfs, ht, hdot⟩ | herror
  swap
  · refine .inr ?_
    simp only [hinteger, bind, Except.bind, leaving, Except.map, herror]
  have hp : NumberText.Valid ⟨minus, digits, fs, none⟩ := ⟨hvalid, hdigits, hfs, by simp⟩
  have hnul : '\x00' ∈ t := by
    have hmem := (List.mem_append.mp hnul).resolve_left fun hmem =>
      absurd (hdigits _ hmem) (by decide)
    rw [htext ⟨minus, digits, fs, none⟩ rfl] at hmem
    exact (List.mem_append.mp hmem).resolve_left (nul_notMem_fractionText hp)
  rcases exists_exponent hnul with ⟨exponent, v, htext', hexponent, hv, hnone⟩ | herror
  · refine .inl ⟨⟨minus, digits, fs, exponent⟩, v, ⟨hvalid, hdigits, hfs, hexponent⟩,
      ⟨?_, fun h => (hnone h).2, fun h h' => ?_⟩, ?_⟩
    · intro hparts
      by_cases he : exponent = none
      · obtain ⟨rfl, -⟩ := hnone he
        by_cases hf : fs = []
        · obtain ⟨rfl, -⟩ := hdot hf
          exact hr fun hzero => hparts.elim (absurd hzero) fun h => h.elim (absurd hf) (absurd he)
        · exact ht hf
      · exact hv he
    · obtain ⟨rfl, -⟩ := hnone h
      exact (hdot h').2
    · rw [htext ⟨minus, digits, fs, exponent⟩ rfl, htext' ⟨minus, digits, fs, exponent⟩ rfl]
      simp [NumberText.text, NumberText.signText]
  · refine .inr ?_
    obtain ⟨y, hy⟩ := parseFraction_fractionText hp x.1
    have hfraction : parseFraction x.1 r = .ok (y.1, t) := by
      rw [htext ⟨minus, digits, fs, none⟩ rfl,
        NumberText.parseFraction_text hp (r := t) ht (fun h => (hdot h).2), hy]
      rfl
    simp only [hinteger, bind, Except.bind, leaving, Except.map, hfraction, herror]

/-! ### Integers -/

/-- A digit loop stops early where the value exceeds the limit. -/
theorem accumulate_ne_nil {limit : ℕ} {ds : List Char} (hds : ∀ c ∈ ds, c.isDigit = true) :
    ∀ {n : ℕ} (k : ℕ), n ≤ limit → limit < Nat.ofDigitChars 10 ds n →
      (accumulate limit n k ds).2.2 ≠ [] := by
  induction ds with
  | nil => exact fun k hn hlt => absurd hlt (by simpa using hn)
  | cons d ds ih =>
      intro n k hn hlt
      have hstep : Nat.ofDigitChars 10 (d :: ds) n =
          Nat.ofDigitChars 10 ds (n * 10 + digitValue d) := by
        rw [Nat.ofDigitChars_cons, Nat.mul_comm]
        rfl
      rw [accumulate, if_pos (hds d List.mem_cons_self)]
      split
      · exact List.cons_ne_nil d ds
      · have hd := digitValue_lt (hds d List.mem_cons_self)
        exact ih (fun c hc => hds c (List.mem_cons_of_mem _ hc)) _ (by omega) (hstep ▸ hlt)

/-- The two digit loops are one with the larger limit. -/
theorem integerDigits_eq (minus : Bool) (first : ℕ) (ds : Stream) :
    integerDigits minus first ds =
      accumulate (if minus then 2 ^ 63 else 2 ^ 64 - 1) first 0 ds := by
  have hle : (if minus then 2 ^ 31 else 2 ^ 32 - 1) ≤ if minus then 2 ^ 63 else 2 ^ 64 - 1 := by
    split <;> omega
  exact accumulate_accumulate hle ds first 0

namespace NumberText

variable {p : NumberText}

/-- The value of the digits, the first of them apart. -/
theorem magnitude_cons {d : Char} {ds : List Char} (hdigits : p.digits = d :: ds) :
    p.magnitude = Nat.ofDigitChars 10 ds (digitValue d) := by
  rw [magnitude, hdigits, Nat.ofDigitChars_cons, Nat.mul_zero, Nat.zero_add]
  rfl

/-- An integer part is an integer exactly if it fits. -/
theorem parseInteger_double (hp : p.Valid) {x : Number} {r : Stream}
    (hx : parseInteger p.minus p.digits = .ok (x, r)) :
    (p.Fits ∧ x.double = none ∧ x.value = p.magnitude) ∨ (¬p.Fits ∧ x.double ≠ none) := by
  rcases hp.digits with hzero | ⟨d, ds, hdigits, hd⟩
  · rw [hzero] at hx
    obtain ⟨rfl, -⟩ := Prod.mk.inj (Except.ok.inj hx)
    refine .inl ⟨?_, rfl, ?_⟩
    · rw [Fits, magnitude, hzero]
      exact Nat.zero_le _
    · rw [magnitude, hzero]
      rfl
  · have hall := hp.isDigit
    rw [hdigits] at hall
    have hds : ∀ c ∈ ds, c.isDigit = true := fun c hc => hall c (List.mem_cons_of_mem _ hc)
    have hfirst := digitValue_lt (hall d List.mem_cons_self)
    have hleft := isDigit_of_mem_integerDigits hds p.minus (digitValue d)
    rw [hdigits, parseInteger, if_neg hd, if_pos (hall d List.mem_cons_self),
      integerDigits_eq] at hx
    rw [integerDigits_eq] at hleft
    by_cases hfits : p.Fits
    · rw [Fits, magnitude_cons hdigits] at hfits
      have hread := accumulate_digits ds hds 0 [] hfits
      rw [List.append_nil] at hread
      rw [hread] at hx
      obtain ⟨rfl, -⟩ := Prod.mk.inj (Except.ok.inj hx)
      exact .inl ⟨by rwa [Fits, magnitude_cons hdigits], rfl, (magnitude_cons hdigits).symm⟩
    · refine .inr ⟨hfits, ?_⟩
      rw [Fits, magnitude_cons hdigits, not_le] at hfits
      have hne := accumulate_ne_nil hds 0 (by split <;> omega) hfits
      generalize accumulate (if p.minus = true then 2 ^ 63 else 2 ^ 64 - 1) (digitValue d) 0 ds =
        read at hx hleft hne
      obtain ⟨i64, k, left⟩ := read
      simp only at hx hleft hne
      have hhead : left.head?.any Char.isDigit = true := by
        cases left with
        | nil => exact absurd rfl hne
        | cons c left => simpa using hleft c List.mem_cons_self
      rw [if_pos hhead] at hx
      cases hdouble : accumulateDouble (Float.ofNat i64) left with
      | error e =>
          rw [hdouble] at hx
          exact absurd hx (by simp [bind, Except.bind])
      | ok a =>
          rw [hdouble] at hx
          obtain ⟨rfl, -⟩ := Prod.mk.inj (Except.ok.inj hx)
          simp

/-- A number that is a double stays one over its fraction. -/
theorem parseFraction_double {x y : Number} {r : Stream}
    (h : parseFraction x p.fractionText = .ok (y, r)) :
    (p.fraction = [] ∧ y = x) ∨ (p.fraction ≠ [] ∧ y.double ≠ none) := by
  rw [fractionText] at h
  split at h
  · rename_i hnone
    obtain ⟨rfl, -⟩ := Prod.mk.inj (Except.ok.inj h)
    exact .inl ⟨hnone, rfl⟩
  · rename_i hne
    simp only [parseFraction] at h
    split at h
    · obtain ⟨rfl, -⟩ := Prod.mk.inj (Except.ok.inj h)
      exact .inr ⟨hne, by simp⟩
    · exact absurd h (by simp)

/-- It stays one over its exponent. -/
theorem parseExponent_double (hp : p.Valid) {x y : Number} {r : Stream}
    (h : parseExponent x p.exponentText = .ok (y, r)) :
    (p.exponent = none ∧ y = x) ∨ (p.exponent ≠ none ∧ y.double ≠ none) := by
  rw [exponentText] at h
  cases hexponent : p.exponent with
  | none =>
      rw [hexponent] at h
      obtain ⟨rfl, -⟩ := Prod.mk.inj (Except.ok.inj h)
      exact .inl ⟨rfl, rfl⟩
  | some parts =>
      obtain ⟨e, sign, ds⟩ := parts
      obtain ⟨he, -⟩ := hp.exponent e sign ds hexponent
      rw [hexponent] at h
      simp only [parseExponent, if_pos he] at h
      refine .inr ⟨by simp, ?_⟩
      split at h
      · exact absurd h (by simp)
      · split at h
        · cases hdigits : accumulateExponent (parseSign (sign ++ ds)).1 (digitValue _) _ with
          | error e =>
              rw [hdigits] at h
              exact absurd h (by simp [bind, Except.bind])
          | ok a =>
              rw [hdigits] at h
              obtain ⟨rfl, -⟩ := Prod.mk.inj (Except.ok.inj h)
              simp
        · exact absurd h (by simp)

/-- What is a double comes out as one. -/
theorem finishNumber_of_double {minus : Bool} {x : Number} (h : x.double ≠ none) (v : Value)
    (hv : finishNumber minus x = .ok v) : ∃ d, v = .double d := by
  rw [finishNumber] at hv
  cases hdouble : x.double with
  | none => exact absurd hdouble h
  | some d =>
      simp only [hdouble] at hv
      cases hscale : strtodNormalPrecision d (wrap32 (x.exp + x.expFrac)) with
      | error e =>
          rw [hscale] at hv
          exact absurd hv (by simp [Except.map])
      | ok d' =>
          rw [hscale] at hv
          exact ⟨_, (Except.ok.inj hv).symm⟩

/-- **Integers that fit** are converted to their value. -/
theorem convert_of_integer (hp : p.Valid) (hinteger : p.IsInteger) (hfits : p.Fits) :
    p.convert = .ok (.number p.value) := by
  obtain ⟨hfraction, hexponent⟩ := hinteger
  have hread : ∃ x r, parseInteger p.minus p.digits = .ok (x, r) := by
    rcases parseInteger_cases hp with ⟨a, ha⟩ | herror
    · exact ⟨a.1, a.2, ha⟩
    · exfalso
      rcases hp.digits with hzero | ⟨d, ds, hdigits, hd⟩
      · rw [hzero] at herror
        exact absurd herror (by simp [parseInteger])
      · have hall := hp.isDigit
        rw [hdigits] at hall
        rw [Fits, magnitude_cons hdigits] at hfits
        have hdone := accumulate_digits ds (fun c hc => hall c (List.mem_cons_of_mem _ hc)) 0 []
          hfits
        rw [List.append_nil] at hdone
        rw [hdigits, parseInteger, if_neg hd, if_pos (hall d List.mem_cons_self),
          integerDigits_eq, hdone] at herror
        exact absurd herror (by simp [accumulate])
  obtain ⟨x, r, hx⟩ := hread
  rcases parseInteger_double hp hx with ⟨-, hdouble, hvalue⟩ | ⟨hnot, -⟩
  · rw [convert, hx, fractionText, if_pos hfraction, exponentText, hexponent]
    simp only [bind, Except.bind, parseFraction, parseExponent, finishNumber, hdouble, hvalue,
      value]
  · exact absurd hfits hnot

/-- **What is converted** is an integer that fits, or a double. -/
theorem convert_cases (hp : p.Valid) {v : Value} (h : p.convert = .ok v) :
    (p.IsInteger ∧ p.Fits ∧ v = .number p.value) ∨ ∃ d, v = .double d := by
  by_cases hfit : p.IsInteger ∧ p.Fits
  · rw [convert_of_integer hp hfit.1 hfit.2] at h
    exact .inl ⟨hfit.1, hfit.2, (Except.ok.inj h).symm⟩
  refine .inr ?_
  rw [convert] at h
  cases hx : parseInteger p.minus p.digits with
  | error e =>
      rw [hx] at h
      exact absurd h (by simp [bind, Except.bind])
  | ok a =>
      rw [hx] at h
      simp only [bind, Except.bind] at h
      cases hy : parseFraction a.1 p.fractionText with
      | error e =>
          rw [hy] at h
          exact absurd h (by simp)
      | ok b =>
          rw [hy] at h
          simp only at h
          cases hz : parseExponent b.1 p.exponentText with
          | error e =>
              rw [hz] at h
              exact absurd h (by simp)
          | ok c =>
              rw [hz] at h
              refine finishNumber_of_double ?_ v h
              rcases parseExponent_double hp hz with ⟨hexponent, heq⟩ | ⟨-, hdouble⟩
              · rw [heq]
                rcases parseFraction_double hy with ⟨hfraction, heq⟩ | ⟨-, hdouble⟩
                · rw [heq]
                  rcases parseInteger_double hp hx with ⟨hfits, -⟩ | ⟨-, hdouble⟩
                  · exact absurd ⟨⟨hfraction, hexponent⟩, hfits⟩ hfit
                  · exact hdouble
                · exact hdouble
              · exact hdouble

theorem nul_notMem_text (hp : p.Valid) : '\x00' ∉ p.text := by
  have hsign : '\x00' ∉ p.signText := by
    rw [signText]
    split <;> decide
  have hdigits : '\x00' ∉ p.digits := fun hmem => absurd (hp.isDigit _ hmem) (by decide)
  have hexponent : '\x00' ∉ p.exponentText := by
    rw [exponentText]
    cases hparts : p.exponent with
    | none => exact List.not_mem_nil
    | some parts =>
        obtain ⟨e, sign, ds⟩ := parts
        obtain ⟨he, hs, -, hds⟩ := hp.exponent e sign ds hparts
        have hds : '\x00' ∉ ds := fun hmem => absurd (hds _ hmem) (by decide)
        rcases he with rfl | rfl <;> rcases hs with rfl | rfl | rfl <;> simp [hds]
  simp [text, hsign, hdigits, nul_notMem_fractionText hp, hexponent]

end NumberText

end MahjongAI.Json
