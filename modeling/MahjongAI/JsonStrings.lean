import MahjongAI.JsonRoundTrip

/-!
# The Strings of a JSON Text

`CharsText` is the grammar of what stands between two quotes, with the string it stands for.
A text that is not of this kind is an error to the reader, with one exception: an escape with
a character that is no hexadecimal digit. The reader takes that character, records the error
and goes on, and it aborts unless the string then comes to a proper end. `StringAborts` says
where that is.

## Main results

* `parseString_of_charsText`, `parseString_of_aborts`: what the reader makes of these two.
* `parseString_cases`: every other string is an error.
-/

namespace MahjongAI.Json

/-! ### The grammar -/

/-- A number whose hexadecimal digits are added to it. -/
def hexAppend (n : ℕ) (ds : List ℕ) : ℕ :=
  ds.foldl (fun n d => n * 16 + d) n

/-- Four hexadecimal digits, and their value. -/
def Hex4 (h : List Char) (n : ℕ) : Prop :=
  ∃ ds, h.map hexValue = ds.map some ∧ ds.length = 4 ∧ n = hexAppend 0 ds

/-- The code points that need a second escape. -/
def IsHigh (n : ℕ) : Prop :=
  0xD800 ≤ n ∧ n ≤ 0xDBFF

/-- The code points of a second escape. -/
def IsLow (n : ℕ) : Prop :=
  0xDC00 ≤ n ∧ n ≤ 0xDFFF

/-- The text between two quotes, and the string it stands for. -/
inductive CharsText : List Char → List Char → Prop
  | nil : CharsText [] []
  | plain {c : Char} {t x : List Char} (hc : c ≠ '\\' ∧ c ≠ '"' ∧ 32 ≤ c.toNat)
      (h : CharsText t x) : CharsText (c :: t) (c :: x)
  | escape {e d : Char} {t x : List Char} (he : readerEscape e = some d) (h : CharsText t x) :
      CharsText ('\\' :: e :: t) (d :: x)
  | unicode {h t x : List Char} {n : ℕ} (hn : Hex4 h n) (hhigh : ¬IsHigh n)
      (ht : CharsText t x) : CharsText ('\\' :: 'u' :: (h ++ t)) (encode n ++ x)
  | pair {h h' t x : List Char} {n n' : ℕ} (hn : Hex4 h n) (hhigh : IsHigh n)
      (hn' : Hex4 h' n') (hlow : IsLow n') (ht : CharsText t x) :
      CharsText ('\\' :: 'u' :: (h ++ '\\' :: 'u' :: (h' ++ t)))
        (encode ((n - 0xD800) * 1024 + (n' - 0xDC00) + 0x10000) ++ x)

/-- A string that comes to its closing quote. -/
def Closes (s : Stream) : Prop :=
  ∃ t x rest, CharsText t x ∧ s = t ++ '"' :: rest

/-- Fewer than four hexadecimal digits and then a character that is none; `rest` comes
after it. -/
def BadHex (s rest : Stream) : Prop :=
  ∃ h c, s = h ++ c :: rest ∧ h.length < 4 ∧ (∀ d ∈ h, (hexValue d).isSome = true) ∧
    hexValue c = none

/-- The reader aborts in a string: at an escape with a bad digit after which the string does
not close, or at a bad digit in the second escape of a pair. -/
def StringAborts (s : Stream) : Prop :=
  ∃ t x u, CharsText t x ∧ s = t ++ '\\' :: 'u' :: u ∧
    ((∃ rest, BadHex u rest ∧ ¬Closes rest) ∨
      ∃ h n u' rest, Hex4 h n ∧ IsHigh n ∧ u = h ++ '\\' :: 'u' :: u' ∧ BadHex u' rest)

/-! ### Hexadecimal digits -/

/-- Digits that are hexadecimal are read to their value. -/
theorem parseHex4_of_map {h : List Char} {ds : List ℕ} (hds : h.map hexValue = ds.map some)
    (n : ℕ) (s : Stream) :
    parseHex4 ds.length n (h ++ s) = .ok (some (hexAppend n ds), s) := by
  induction ds generalizing h n with
  | nil =>
      obtain rfl : h = [] := by simpa using hds
      rfl
  | cons d ds ih =>
      cases h with
      | nil => simp at hds
      | cons c h =>
          rw [List.map_cons, List.map_cons, List.cons.injEq] at hds
          rw [List.cons_append, List.length_cons, parseHex4, hds.1]
          exact ih hds.2 _

/-- **Four hexadecimal digits**. -/
theorem parseHex4_of_hex4 {h : List Char} {n : ℕ} (hn : Hex4 h n) (s : Stream) :
    parseHex4 4 0 (h ++ s) = .ok (some n, s) := by
  obtain ⟨ds, hds, hlength, rfl⟩ := hn
  rw [← hlength]
  exact parseHex4_of_map hds 0 s

/-- A bad digit is taken, and recorded. -/
theorem parseHex4_of_badHex {s rest : Stream} (h : BadHex s rest) (n : ℕ) :
    parseHex4 4 n s = .ok (none, rest) := by
  obtain ⟨ds, c, rfl, hlength, hds, hc⟩ := h
  have hdigits : ∀ (k n : ℕ), ds.length < k →
      parseHex4 k n (ds ++ c :: rest) = .ok (none, rest) := by
    clear hlength
    induction ds with
    | nil =>
        intro k n hk
        obtain ⟨k, rfl⟩ := Nat.exists_eq_succ_of_ne_zero (Nat.ne_of_gt hk)
        simp [parseHex4, hc]
    | cons d ds ih =>
        intro k n hk
        obtain ⟨k, rfl⟩ := Nat.exists_eq_succ_of_ne_zero (Nat.ne_of_gt (Nat.zero_lt_of_lt hk))
        obtain ⟨m, hm⟩ := Option.isSome_iff_exists.mp (hds d List.mem_cons_self)
        rw [List.cons_append, parseHex4, hm]
        exact ih (fun x hx => hds x (List.mem_cons_of_mem _ hx)) k _
          (Nat.lt_of_succ_lt_succ hk)
  exact hdigits 4 n hlength

theorem hexValue_nul : hexValue '\x00' = none := by decide

/-- There are four digits or a bad one, or the text ends without its terminating NUL. -/
theorem hex4_or_badHex (s : Stream) :
    (∃ h n t, Hex4 h n ∧ s = h ++ t) ∨ (∃ rest, BadHex s rest) ∨
      '\x00' ∉ s ∧ ∀ n, parseHex4 4 n s = .error .abort := by
  have hdigits : ∀ (k : ℕ) (s : Stream),
      (∃ (h : List Char) (ds : List ℕ) (t : Stream), s = h ++ t ∧
        h.map hexValue = ds.map some ∧ ds.length = k) ∨
      (∃ (h : List Char) (c : Char) (rest : Stream), s = h ++ c :: rest ∧ h.length < k ∧
        (∀ d ∈ h, (hexValue d).isSome = true) ∧ hexValue c = none) ∨
      '\x00' ∉ s ∧ ∀ n, parseHex4 k n s = .error .abort := by
    intro k
    induction k with
    | zero => exact fun s => .inl ⟨[], [], s, rfl, rfl, rfl⟩
    | succ k ih =>
        intro s
        cases s with
        | nil => exact .inr (.inr ⟨List.not_mem_nil, fun _ => rfl⟩)
        | cons c s =>
            cases hc : hexValue c with
            | none => exact .inr (.inl ⟨[], c, s, rfl, Nat.succ_pos k, by simp, hc⟩)
            | some d =>
                rcases ih s with ⟨h, ds, t, rfl, hds, hlength⟩ |
                  ⟨h, b, rest, rfl, hlength, hds, hb⟩ | ⟨hnul, habort⟩
                · exact .inl ⟨c :: h, d :: ds, t, rfl, by simp [hc, hds], by simp [hlength]⟩
                · refine .inr (.inl ⟨c :: h, b, rest, rfl, Nat.succ_lt_succ hlength, ?_, hb⟩)
                  intro x hx
                  rcases List.mem_cons.mp hx with rfl | hx
                  · rw [hc]
                    rfl
                  · exact hds x hx
                · refine .inr (.inr ⟨fun hmem => ?_, fun n => by
                    rw [parseHex4, hc]
                    exact habort _⟩)
                  rcases List.mem_cons.mp hmem with heq | hmem
                  · rw [← heq, hexValue_nul] at hc
                    exact absurd hc (by simp)
                  · exact hnul hmem
  rcases hdigits 4 s with ⟨h, ds, t, hs, hds, hlength⟩ | ⟨h, c, rest, hs, hbad⟩ | habort
  · exact .inl ⟨h, _, t, ⟨ds, hds, hlength, rfl⟩, hs⟩
  · exact .inr (.inl ⟨rest, h, c, hs, hbad⟩)
  · exact .inr (.inr habort)

theorem nul_notMem_of_map {h : List Char} {ds : List ℕ} (hds : h.map hexValue = ds.map some) :
    '\x00' ∉ h := by
  intro hmem
  have hsome : hexValue '\x00' ∈ ds.map some := hds ▸ List.mem_map_of_mem hmem
  rw [hexValue_nul] at hsome
  simp at hsome

theorem Hex4.nul_notMem {h : List Char} {n : ℕ} (hn : Hex4 h n) : '\x00' ∉ h := by
  obtain ⟨ds, hds, -⟩ := hn
  exact nul_notMem_of_map hds

/-! ### Unicode escapes -/

/-- **An escape of one unit** that is no high surrogate. -/
theorem parseUnicode_of_hex4 {h : List Char} {n : ℕ} (hn : Hex4 h n) (hhigh : ¬IsHigh n)
    (bad : Bool) (s : Stream) : parseUnicode bad (h ++ s) = .ok ((n, bad), s) := by
  rw [parseUnicode, parseHex4_of_hex4 hn]
  exact if_neg hhigh

/-- The first escape of a pair. -/
theorem parseUnicode_of_isHigh {h : List Char} {n : ℕ} (hn : Hex4 h n) (hhigh : IsHigh n)
    (bad : Bool) (s : Stream) :
    parseUnicode bad (h ++ s) =
      (((literal () ['\\', 'u'] s).mapError fun e => if e = .error then failAfter bad else e).bind
        fun r => (parseHex4 4 0 r.2).bind fun q =>
          match q.1 with
          | none => .error .abort
          | some n' =>
              if n' < 0xDC00 ∨ 0xDFFF < n' then .error (failAfter bad)
              else .ok (((n - 0xD800) * 1024 + (n' - 0xDC00) + 0x10000, bad), q.2)) := by
  rw [parseUnicode, parseHex4_of_hex4 hn]
  exact if_pos hhigh

/-- **A pair of surrogates**. -/
theorem parseUnicode_of_pair {h h' : List Char} {n n' : ℕ} (hn : Hex4 h n) (hhigh : IsHigh n)
    (hn' : Hex4 h' n') (hlow : IsLow n') (bad : Bool) (s : Stream) :
    parseUnicode bad (h ++ '\\' :: 'u' :: (h' ++ s)) =
      .ok (((n - 0xD800) * 1024 + (n' - 0xDC00) + 0x10000, bad), s) := by
  have hrange : ¬(n' < 0xDC00 ∨ 0xDFFF < n') := by
    rw [IsLow] at hlow
    omega
  rw [parseUnicode_of_isHigh hn hhigh]
  simp only [literal, if_true, Except.mapError, Except.bind, parseHex4_of_hex4 hn',
    if_neg hrange]

/-- A bad digit is an error, and the second error an abort. -/
theorem parseUnicode_of_badHex {s rest : Stream} (h : BadHex s rest) (bad : Bool) :
    parseUnicode bad s = if bad then .error .abort else .ok ((0, true), rest) := by
  rw [parseUnicode, parseHex4_of_badHex h]
  rfl

/-- A high surrogate, and no four hexadecimal digits in its low one. -/
theorem parseUnicode_of_badPair {h : List Char} {n : ℕ} {s rest : Stream} (hn : Hex4 h n)
    (hhigh : IsHigh n) (hbad : BadHex s rest) (bad : Bool) :
    parseUnicode bad (h ++ '\\' :: 'u' :: s) = .error .abort := by
  rw [parseUnicode_of_isHigh hn hhigh]
  simp only [literal, if_true, Except.mapError, Except.bind, parseHex4_of_badHex hbad]

/-- The kinds of escapes. -/
theorem parseUnicode_cases (s : Stream) :
    (∃ h n t, Hex4 h n ∧ ¬IsHigh n ∧ s = h ++ t) ∨
      (∃ h h' n n' t, Hex4 h n ∧ IsHigh n ∧ Hex4 h' n' ∧ IsLow n' ∧
        s = h ++ '\\' :: 'u' :: (h' ++ t)) ∨
      (∃ rest, BadHex s rest) ∨
      (∃ h n u rest, Hex4 h n ∧ IsHigh n ∧ s = h ++ '\\' :: 'u' :: u ∧ BadHex u rest) ∨
      (∀ bad, parseUnicode bad s = .error (failAfter bad)) ∨
      '\x00' ∉ s ∧ ∀ bad, parseUnicode bad s = .error .abort := by
  rcases hex4_or_badHex s with ⟨h, n, t, hn, rfl⟩ | hbad | ⟨hnul, habort⟩
  rotate_left
  · exact .inr (.inr (.inl hbad))
  · exact .inr (.inr (.inr (.inr (.inr ⟨hnul, fun bad => by rw [parseUnicode, habort]; rfl⟩))))
  by_cases hhigh : IsHigh n
  swap
  · exact .inl ⟨h, n, t, hn, hhigh, rfl⟩
  refine .inr ?_
  by_cases hescape : ∃ u, t = '\\' :: 'u' :: u
  · obtain ⟨u, rfl⟩ := hescape
    rcases hex4_or_badHex u with ⟨h', n', t, hn', rfl⟩ | ⟨rest, hbad⟩ | ⟨hnul, habort⟩
    · by_cases hlow : IsLow n'
      · exact .inl ⟨h, h', n, n', t, hn, hhigh, hn', hlow, rfl⟩
      · refine .inr (.inr (.inr (.inl fun bad => ?_)))
        have hrange : n' < 0xDC00 ∨ 0xDFFF < n' := by
          rw [IsLow] at hlow
          omega
        rw [parseUnicode_of_isHigh hn hhigh]
        simp only [literal, if_true, Except.mapError, Except.bind, parseHex4_of_hex4 hn',
          if_pos hrange]
    · exact .inr (.inr (.inl ⟨h, n, u, rest, hn, hhigh, rfl, hbad⟩))
    · refine .inr (.inr (.inr (.inr ⟨?_, fun bad => ?_⟩)))
      · simp [hn.nul_notMem, hnul]
      · rw [parseUnicode_of_isHigh hn hhigh]
        simp only [literal, if_true, Except.mapError, Except.bind, habort]
  · refine .inr (.inr (.inr ?_))
    by_cases hend : t = [] ∨ t = ['\\']
    · refine .inr ⟨?_, fun bad => ?_⟩
      · rcases hend with rfl | rfl <;> simp [hn.nul_notMem]
      · rw [parseUnicode_of_isHigh hn hhigh]
        rcases hend with rfl | rfl <;> rfl
    · refine .inl fun bad => ?_
      have hliteral : literal () ['\\', 'u'] t = .error .error := by
        cases t with
        | nil => exact absurd (.inl rfl) hend
        | cons c t =>
            by_cases hc : c = '\\'
            · subst hc
              cases t with
              | nil => exact absurd (.inr rfl) hend
              | cons d t =>
                  have hd : d ≠ 'u' := fun hd => hescape ⟨t, by rw [hd]⟩
                  simp [literal, hd]
            · simp [literal, hc]
      rw [parseUnicode_of_isHigh hn hhigh, hliteral]
      simp [Except.mapError, Except.bind]

/-! ### Strings -/

/-- A result with characters in front of the string that is read. -/
def prepend (x : List Char) (r : Except Failure (List Char × Stream)) :
    Except Failure (List Char × Stream) :=
  r.map fun a => (x ++ a.1, a.2)

/-- Characters before characters. -/
theorem prepend_prepend (x y : List Char) (r : Except Failure (List Char × Stream)) :
    prepend x (prepend y r) = prepend (x ++ y) r := by
  cases r with
  | ok a => simp [prepend, Except.map]
  | error e => rfl

@[simp] theorem prepend_nil (r : Except Failure (List Char × Stream)) : prepend [] r = r := by
  cases r <;> rfl

@[simp] theorem prepend_ok (x y : List Char) (s : Stream) :
    prepend x (.ok (y, s)) = .ok (x ++ y, s) := rfl

@[simp] theorem prepend_error (x : List Char) (e : Failure) : prepend x (.error e) = .error e :=
  rfl

/-- A character that is not escaped. -/
theorem parseChars_plain (fuel : ℕ) (bad : Bool) {c : Char}
    (hc : c ≠ '\\' ∧ c ≠ '"' ∧ 32 ≤ c.toNat) (s : Stream) :
    parseChars (fuel + 1) bad (c :: s) = prepend [c] (parseChars fuel bad s) := by
  have hlow : ¬c.toNat < 32 := by omega
  rw [parseChars.eq_def]
  simp only [if_neg hc.1, if_neg hc.2.1, if_neg hlow]
  rfl

/-- An escape of one character. -/
theorem parseChars_escape (fuel : ℕ) (bad : Bool) {e d : Char} (he : readerEscape e = some d)
    (s : Stream) :
    parseChars (fuel + 1) bad ('\\' :: e :: s) = prepend [d] (parseChars fuel bad s) := by
  rw [parseChars.eq_def]
  simp only [if_true, he]
  rfl

/-- An escape of a unit. -/
theorem parseChars_unicode (fuel : ℕ) (bad : Bool) (s : Stream) :
    parseChars (fuel + 1) bad ('\\' :: 'u' :: s) = (parseUnicode bad s).bind fun r =>
      prepend (encode r.1.1) (parseChars fuel r.1.2 r.2) := by
  rw [parseChars.eq_def]
  rfl

/-- **The grammar is read**, whatever comes after it. -/
theorem parseChars_append {t x : List Char} (h : CharsText t x) (bad : Bool) (s : Stream) :
    ∀ fuel, (t ++ s).length < fuel → ∃ fuel', s.length < fuel' ∧
      parseChars fuel bad (t ++ s) = prepend x (parseChars fuel' bad s) := by
  induction h with
  | nil => exact fun fuel hfuel => ⟨fuel, hfuel, (prepend_nil _).symm⟩
  | @plain c t x hc _ ih =>
      intro fuel hfuel
      obtain ⟨fuel, rfl⟩ := Nat.exists_eq_succ_of_ne_zero (Nat.ne_of_gt (Nat.zero_lt_of_lt hfuel))
      obtain ⟨fuel', hfuel', hread⟩ := ih fuel (Nat.lt_of_succ_lt_succ hfuel)
      refine ⟨fuel', hfuel', ?_⟩
      rw [List.cons_append, parseChars_plain fuel bad hc, hread, prepend_prepend]
      rfl
  | @escape e d t x he _ ih =>
      intro fuel hfuel
      obtain ⟨fuel, rfl⟩ := Nat.exists_eq_succ_of_ne_zero (Nat.ne_of_gt (Nat.zero_lt_of_lt hfuel))
      simp only [List.cons_append, List.length_cons] at hfuel
      obtain ⟨fuel', hfuel', hread⟩ := ih fuel (by omega)
      refine ⟨fuel', hfuel', ?_⟩
      rw [List.cons_append, List.cons_append, parseChars_escape fuel bad he, hread,
        prepend_prepend]
      rfl
  | @unicode h t x n hn hhigh _ ih =>
      intro fuel hfuel
      obtain ⟨fuel, rfl⟩ := Nat.exists_eq_succ_of_ne_zero (Nat.ne_of_gt (Nat.zero_lt_of_lt hfuel))
      simp only [List.cons_append, List.append_assoc, List.length_cons, List.length_append]
        at hfuel
      obtain ⟨fuel', hfuel', hread⟩ := ih fuel (by simp only [List.length_append]; omega)
      refine ⟨fuel', hfuel', ?_⟩
      simp only [List.cons_append, List.append_assoc]
      rw [parseChars_unicode, parseUnicode_of_hex4 hn hhigh]
      simp only [Except.bind, hread, prepend_prepend]
  | @pair h h' t x n n' hn hhigh hn' hlow _ ih =>
      intro fuel hfuel
      obtain ⟨fuel, rfl⟩ := Nat.exists_eq_succ_of_ne_zero (Nat.ne_of_gt (Nat.zero_lt_of_lt hfuel))
      simp only [List.cons_append, List.append_assoc, List.length_cons, List.length_append]
        at hfuel
      obtain ⟨fuel', hfuel', hread⟩ := ih fuel (by simp only [List.length_append]; omega)
      refine ⟨fuel', hfuel', ?_⟩
      simp only [List.cons_append, List.append_assoc]
      rw [parseChars_unicode, parseUnicode_of_pair hn hhigh hn' hlow]
      simp only [Except.bind, hread, prepend_prepend]

/-- The quote at the end. -/
theorem parseChars_quote {fuel : ℕ} (hfuel : 0 < fuel) (bad : Bool) (s : Stream) :
    parseChars fuel bad ('"' :: s) = if bad then .error .error else .ok ([], s) := by
  obtain ⟨fuel, rfl⟩ := Nat.exists_eq_succ_of_ne_zero (Nat.ne_of_gt hfuel)
  rfl

/-- A string that closes is read, or found bad. -/
theorem parseChars_of_closes {t x : List Char} (h : CharsText t x) (bad : Bool) (rest : Stream)
    {fuel : ℕ} (hfuel : (t ++ '"' :: rest).length < fuel) :
    parseChars fuel bad (t ++ '"' :: rest) =
      if bad then .error .error else .ok (x, rest) := by
  obtain ⟨fuel', hfuel', hread⟩ := parseChars_append h bad ('"' :: rest) fuel hfuel
  rw [hread, parseChars_quote (Nat.zero_lt_of_lt hfuel')]
  cases bad <;> simp

theorem CharsText.nul_notMem {t x : List Char} (h : CharsText t x) : '\x00' ∉ t := by
  induction h with
  | nil => exact List.not_mem_nil
  | plain hc _ ih =>
      intro hmem
      rcases List.mem_cons.mp hmem with heq | hmem
      · rw [← heq] at hc
        exact absurd hc.2.2 (by decide)
      · exact ih hmem
  | escape he _ ih =>
      intro hmem
      rcases List.mem_cons.mp hmem with heq | hmem
      · exact absurd heq (by decide)
      rcases List.mem_cons.mp hmem with heq | hmem
      · have hnone : readerEscape '\x00' = none := by decide
        rw [← heq, hnone] at he
        exact absurd he (by simp)
      · exact ih hmem
  | unicode hn _ _ ih =>
      intro hmem
      simp only [List.mem_cons, List.mem_append] at hmem
      rcases hmem with heq | heq | hmem | hmem
      · exact absurd heq (by decide)
      · exact absurd heq (by decide)
      · exact hn.nul_notMem hmem
      · exact ih hmem
  | pair hn _ hn' _ _ ih =>
      intro hmem
      simp only [List.mem_cons, List.mem_append] at hmem
      rcases hmem with heq | heq | hmem | heq | heq | hmem | hmem
      · exact absurd heq (by decide)
      · exact absurd heq (by decide)
      · exact hn.nul_notMem hmem
      · exact absurd heq (by decide)
      · exact absurd heq (by decide)
      · exact hn'.nul_notMem hmem
      · exact ih hmem

/-- Where the text of a string can come to: its closing quote, an escape with a bad digit, an
error of another kind, or the end of a text without its NUL. -/
inductive Stuck (s : Stream) : Prop
  | quote {rest : Stream} (hs : s = '"' :: rest)
  | badHex {u rest : Stream} (hs : s = '\\' :: 'u' :: u) (hbad : BadHex u rest)
  | badPair {h : List Char} {n : ℕ} {u rest : Stream} (hs : s = '\\' :: 'u' ::
      (h ++ '\\' :: 'u' :: u)) (hn : Hex4 h n) (hhigh : IsHigh n) (hbad : BadHex u rest)
  | error (h : ∀ fuel bad, parseChars (fuel + 1) bad s = .error (failAfter bad))
  | ended (hnul : '\x00' ∉ s) (h : ∀ fuel bad, parseChars (fuel + 1) bad s = .error .abort)

/-- One character or escape of the grammar, or nothing goes on. -/
theorem charsText_or_stuck (s : Stream) :
    Stuck s ∨ ∃ t u, s = t ++ u ∧ t ≠ [] ∧ ∃ y, ∀ t' x, CharsText t' x →
      CharsText (t ++ t') (y ++ x) := by
  cases s with
  | nil => exact .inl (.ended List.not_mem_nil fun _ _ => rfl)
  | cons c s =>
      by_cases hslash : c = '\\'
      · subst hslash
        cases s with
        | nil => exact .inl (.ended (by decide) fun _ _ => rfl)
        | cons e s =>
            cases he : readerEscape e with
            | some d =>
                exact .inr ⟨['\\', e], s, rfl, by simp, [d], fun t' x h => h.escape he⟩
            | none =>
                by_cases hu : e = 'u'
                swap
                · refine .inl (.error fun fuel bad => ?_)
                  rw [parseChars.eq_def]
                  simp only [if_true, he, if_neg hu]
                subst hu
                rcases parseUnicode_cases s with ⟨h, n, t, hn, hhigh, rfl⟩ |
                  ⟨h, h', n, n', t, hn, hhigh, hn', hlow, rfl⟩ | ⟨rest, hbad⟩ |
                  ⟨h, n, u, rest, hn, hhigh, rfl, hbad⟩ | herror | ⟨hnul, habort⟩
                · exact .inr ⟨'\\' :: 'u' :: h, t, rfl, by simp, _,
                    fun t' x ht => ht.unicode hn hhigh⟩
                · have hgo (t' x : List Char) (ht : CharsText t' x) := ht.pair hn hhigh hn' hlow
                  exact .inr ⟨'\\' :: 'u' :: (h ++ '\\' :: 'u' :: h'), t, by simp, by simp, _,
                    fun t' x ht => by simpa using hgo t' x ht⟩
                · exact .inl (.badHex rfl hbad)
                · exact .inl (.badPair rfl hn hhigh hbad)
                · exact .inl (.error fun fuel bad => by
                    rw [parseChars_unicode, herror]
                    rfl)
                · refine .inl (.ended (by simp [hnul]) fun fuel bad => ?_)
                  rw [parseChars_unicode, habort]
                  rfl
      · by_cases hquote : c = '"'
        · exact .inl (.quote (by rw [hquote]))
        · by_cases hlow : c.toNat < 32
          · refine .inl (.error fun fuel bad => ?_)
            rw [parseChars.eq_def]
            simp only [if_neg hslash, if_neg hquote, if_pos hlow]
          · exact .inr ⟨[c], s, rfl, by simp, [c],
              fun t' x h => h.plain ⟨hslash, hquote, by omega⟩⟩

/-- **Every text** is one of the grammar up to where it is stuck. -/
theorem exists_charsText_stuck (s : Stream) :
    ∃ t x u, CharsText t x ∧ s = t ++ u ∧ Stuck u := by
  induction hlength : s.length using Nat.strong_induction_on generalizing s with
  | _ n ih =>
      subst hlength
      rcases charsText_or_stuck s with hstuck | ⟨t, u, rfl, ht, y, hgo⟩
      · exact ⟨[], [], s, .nil, rfl, hstuck⟩
      · have hpos := List.length_pos_iff.mpr ht
        obtain ⟨t', x, v, hchars, rfl, hstuck⟩ := ih u.length
          (by simp only [List.length_append]; omega) u rfl
        exact ⟨t ++ t', y ++ x, v, hgo t' x hchars, by simp, hstuck⟩

/-- After a bad digit, a string that does not close is an abort. -/
theorem parseChars_of_not_closes {s : Stream} (h : ¬Closes s) {fuel : ℕ}
    (hfuel : s.length < fuel) : parseChars fuel true s = .error .abort := by
  obtain ⟨t, x, u, hchars, rfl, hstuck⟩ := exists_charsText_stuck s
  obtain ⟨fuel, hpos, hread⟩ := parseChars_append hchars true u fuel hfuel
  obtain ⟨fuel, rfl⟩ := Nat.exists_eq_succ_of_ne_zero (Nat.ne_of_gt (Nat.zero_lt_of_lt hpos))
  rw [hread]
  cases hstuck with
  | @quote rest hs => exact absurd ⟨t, x, rest, hchars, by rw [hs]⟩ h
  | badHex hs hbad =>
      rw [hs, parseChars_unicode, parseUnicode_of_badHex hbad]
      rfl
  | badPair hs hn hhigh hbad =>
      rw [hs, parseChars_unicode, parseUnicode_of_badPair hn hhigh hbad]
      rfl
  | error herror =>
      rw [herror]
      rfl
  | ended _ habort =>
      rw [habort]
      rfl

/-- The reader aborts where `StringAborts` says so. -/
theorem parseString_of_aborts {s : Stream} (h : StringAborts s) :
    parseString s = .error .abort := by
  obtain ⟨t, x, u, hchars, rfl, hu⟩ := h
  obtain ⟨fuel, hpos, hread⟩ := parseChars_append hchars false ('\\' :: 'u' :: u) _
    (Nat.lt_succ_self _)
  obtain ⟨fuel, rfl⟩ := Nat.exists_eq_succ_of_ne_zero (Nat.ne_of_gt (Nat.zero_lt_of_lt hpos))
  rw [parseString, hread, parseChars_unicode]
  rcases hu with ⟨rest, hbad, hcloses⟩ | ⟨h, n, u', rest, hn, hhigh, rfl, hbad⟩
  · have hshort : rest.length < fuel := by
      obtain ⟨ds, c, rfl, -⟩ := hbad
      simp only [List.length_cons, List.length_append] at hpos
      omega
    rw [parseUnicode_of_badHex hbad]
    simp only [Bool.false_eq_true, if_false, Except.bind,
      parseChars_of_not_closes hcloses hshort, prepend_error]
  · rw [parseUnicode_of_badPair hn hhigh hbad]
    rfl

/-- **Strings.** In front of the terminating NUL, a string is one of the grammar and read as
that, or the reader aborts, or it is an error. -/
theorem parseString_cases {s : Stream} (hnul : '\x00' ∈ s) :
    (∃ t x rest, CharsText t x ∧ s = t ++ '"' :: rest ∧ parseString s = .ok (x, rest)) ∨
      StringAborts s ∨ parseString s = .error .error := by
  obtain ⟨t, x, u, hchars, rfl, hstuck⟩ := exists_charsText_stuck s
  obtain ⟨fuel, hpos, hread⟩ := parseChars_append hchars false u _ (Nat.lt_succ_self _)
  obtain ⟨fuel, rfl⟩ := Nat.exists_eq_succ_of_ne_zero (Nat.ne_of_gt (Nat.zero_lt_of_lt hpos))
  cases hstuck with
  | @quote rest hs =>
      subst hs
      exact .inl ⟨t, x, rest, hchars, rfl,
        parseChars_of_closes hchars false rest (Nat.lt_succ_self _)⟩
  | @badHex u' rest hs hbad =>
      subst hs
      by_cases hcloses : Closes rest
      · refine .inr (.inr ?_)
        obtain ⟨t', x', rest', hchars', hrest⟩ := hcloses
        have hshort : rest.length < fuel := by
          obtain ⟨ds, c, rfl, -⟩ := hbad
          simp only [List.length_cons, List.length_append] at hpos
          omega
        rw [hrest] at hshort
        have hclosed := parseChars_of_closes hchars' true rest' hshort
        rw [parseString, hread, parseChars_unicode, parseUnicode_of_badHex hbad]
        simp only [Bool.false_eq_true, if_false, Except.bind, hrest, hclosed, if_true,
          prepend_error]
      · exact .inr (.inl ⟨t, x, u', hchars, rfl, .inl ⟨rest, hbad, hcloses⟩⟩)
  | @badPair h n u' rest hs hn hhigh hbad =>
      subst hs
      exact .inr (.inl ⟨t, x, _, hchars, rfl, .inr ⟨h, n, u', rest, hn, hhigh, rfl, hbad⟩⟩)
  | error herror =>
      refine .inr (.inr ?_)
      rw [parseString, hread, herror]
      rfl
  | ended hnot _ =>
      rcases List.mem_append.mp hnul with hmem | hmem
      · exact absurd hmem hchars.nul_notMem
      · exact absurd hmem hnot

/-- The grammar is read. -/
theorem parseString_of_charsText {t x : List Char} (h : CharsText t x) (rest : Stream) :
    parseString (t ++ '"' :: rest) = .ok (x, rest) :=
  parseChars_of_closes h false rest (Nat.lt_succ_self _)

end MahjongAI.Json
