/-
# FlowFixpoint.Proofs.ScannedJson — scanning what has been written.

Every scanner, put before a written token and more text, takes the token and leaves the rest. Most
tokens end by themselves. A number ends where the text stops going on with digits, a point or the
letter of an exponent, and what may follow a value in JSON always stops it.

Values that are skipped are followed through the machine that skips them. `Leads` says that the
machine gets from one state to another on its own, with no more steps than it takes characters, so
that the fuel it is given, the length of the text, is never what stops it. One induction over the
written value then shows that it passes over all of the value, at any depth.
-/
import FlowFixpoint.Proofs.WrittenJson
import Mathlib.Data.List.DropRight
import Mathlib.Data.List.TakeDrop

namespace FlowFixpoint.Json

/-! ## Blanks -/

theorem isBlank_char (b : Blank) : isBlank b.char = true := by
  cases b <;> rfl

@[simp]
theorem skipBlank_gap (gap : Gap) (cs : List Char) : skipBlank (gap.text ++ cs) = skipBlank cs := by
  refine List.dropWhile_append_of_pos ?_
  intro c hc
  obtain ⟨b, -, rfl⟩ := List.mem_map.mp hc
  exact isBlank_char b

theorem skipBlank_cons {c : Char} (hc : isBlank c = false) (cs : List Char) :
    skipBlank (c :: cs) = c :: cs :=
  List.dropWhile_cons_of_neg (by simp [hc])

theorem length_skipBlank_le (cs : List Char) : (skipBlank cs).length ≤ cs.length :=
  (List.dropWhile_suffix isBlank).length_le

theorem length_lt_of_skipBlank {c : Char} {cs token rest : List Char}
    (h : skipBlank cs = c :: (token ++ rest)) : rest.length < cs.length := by
  have hlength := length_skipBlank_le cs
  rw [h, List.length_cons, List.length_append] at hlength
  omega

/-! ## Numbers -/

/-- The text does not go on with something that could belong to a number. -/
def Stops (cs : List Char) : Prop :=
  ∀ c ∈ cs.head?, c.isDigit = false ∧ c ≠ '.' ∧ c ≠ 'e' ∧ c ≠ 'E'

theorem stops_gap {cs : List Char} (h : Stops cs) (gap : Gap) : Stops (gap.text ++ cs) := by
  cases gap with
  | nil => exact h
  | cons b gap =>
    intro c hc
    obtain rfl : b.char = c := by simpa [Gap.text] using hc
    cases b <;> decide

theorem stops_cons {c : Char} (hc : c.isDigit = false ∧ c ≠ '.' ∧ c ≠ 'e' ∧ c ≠ 'E')
    (cs : List Char) : Stops (c :: cs) := by
  intro d hd
  obtain rfl : c = d := by simpa using hd
  exact hc

theorem stops_close (bracket : Bracket) (cs : List Char) : Stops (bracket.close :: cs) :=
  stops_cons (by cases bracket <;> decide) cs

theorem span_digits {ds cs : List Char} (hds : ∀ c ∈ ds, c.isDigit = true)
    (hcs : ∀ c ∈ cs.head?, c.isDigit = false) : (ds ++ cs).span Char.isDigit = (ds, cs) := by
  rw [List.span_eq_takeWhile_dropWhile, List.takeWhile_append_of_pos hds,
    List.dropWhile_append_of_pos hds]
  cases cs with
  | nil => simp
  | cons c cs => simp [hcs c rfl]

theorem someDigits_append {c : Char} {ds cs : List Char} (hds : ∀ d ∈ c :: ds, d.isDigit = true)
    (hcs : ∀ d ∈ cs.head?, d.isDigit = false) :
    someDigits (c :: ds ++ cs) = .ok (c :: ds, cs) := by
  rw [List.cons_append, someDigits, if_pos (hds c List.mem_cons_self), ← List.cons_append,
    span_digits hds hcs]

theorem Digits.isDigit_of_mem {ds : Digits} {c : Char} (hc : c ∈ ds.text) : c.isDigit = true := by
  obtain ⟨d, -, rfl⟩ := List.mem_map.mp hc
  rw [Nat.isDigit_digitChar, decide_eq_true_iff]
  exact d.isLt

theorem someDigits_text (ds : Digits) {cs : List Char} (hcs : ∀ c ∈ cs.head?, c.isDigit = false) :
    someDigits (ds.text ++ cs) = .ok (ds.text, cs) :=
  someDigits_append (fun _ => Digits.isDigit_of_mem) hcs

/-- The digits of a natural number other than zero do not start with a zero. -/
theorem exists_toDigits {n : Nat} (hn : n ≠ 0) :
    ∃ c ds, Nat.toDigits 10 n = c :: ds ∧ c ≠ '0' := by
  induction n using Nat.strongRecOn with
  | ind n ih =>
    by_cases hlt : n < 10
    · rw [Nat.toDigits_of_lt_base hlt]
      refine ⟨_, _, rfl, ?_⟩
      intro hzero
      have htoNat := congrArg Char.toNat hzero
      rw [Nat.toNat_digitChar_of_lt_ten hlt, show '0'.toNat = 48 from rfl] at htoNat
      omega
    · obtain ⟨c, ds, hds, hc⟩ := ih (n / 10) (by omega) (by omega)
      exact ⟨c, ds ++ [_], by rw [Nat.toDigits_of_base_le (by decide) (by omega), hds]; rfl, hc⟩

theorem isDigit_of_mem_decimal {n : Nat} {c : Char} (hc : c ∈ Nat.toDigits 10 n) :
    c.isDigit = true :=
  Nat.isDigit_of_mem_toDigits (by decide) (by decide) hc

theorem exists_first_digit (n : Nat) : ∃ c ds, Nat.toDigits 10 n = c :: ds ∧ c.isDigit = true := by
  obtain ⟨c, ds, hds⟩ := List.exists_cons_of_ne_nil (Nat.toDigits_ne_nil (n := n) (b := 10))
  exact ⟨c, ds, hds, isDigit_of_mem_decimal (hds ▸ List.mem_cons_self)⟩

theorem wholeDigits_toDigits (n : Nat) {cs : List Char} (hcs : ∀ c ∈ cs.head?, c.isDigit = false) :
    wholeDigits (Nat.toDigits 10 n ++ cs) = .ok (Nat.toDigits 10 n, cs) := by
  by_cases hn : n = 0
  · have hany : cs.head?.any Char.isDigit = false := by
      cases hhead : cs.head? with
      | none => rfl
      | some c => exact hcs c hhead
    subst hn
    change wholeDigits ('0' :: cs) = .ok (['0'], cs)
    simp [wholeDigits, hany]
  · obtain ⟨c, ds, hds, hc⟩ := exists_toDigits hn
    have hdigits : ∀ d ∈ c :: ds, d.isDigit = true := fun d hd => isDigit_of_mem_decimal (hds ▸ hd)
    rw [hds, ← someDigits_append hdigits hcs, List.cons_append]
    unfold wholeDigits
    split
    · next heq => exact absurd (List.cons.inj heq).1 hc
    · rfl

theorem fractionDigits_of_stops {cs : List Char} (hcs : ∀ c ∈ cs.head?, c ≠ '.') :
    fractionDigits cs = .ok ([], cs) := by
  unfold fractionDigits
  split
  · exact absurd rfl (hcs '.' rfl)
  · rfl

theorem exponentPart_of_stops {cs : List Char} (hcs : ∀ c ∈ cs.head?, c ≠ 'e' ∧ c ≠ 'E') :
    exponentPart cs = .ok (none, cs) := by
  unfold exponentPart
  split
  · exact absurd rfl (hcs 'e' rfl).1
  · exact absurd rfl (hcs 'E' rfl).2
  · rfl

theorem exponentDigits_text (e : Exponent) {cs : List Char}
    (hcs : ∀ c ∈ cs.head?, c.isDigit = false) :
    exponentDigits (e.sign.text ++ (e.digits.text ++ cs)) =
      .ok ((e.sign matches .minus, e.digits.text), cs) := by
  have hdigits := someDigits_text e.digits hcs
  cases hsign : e.sign with
  | plus => simp [ExponentSign.text, exponentDigits, hdigits, Except.map]
  | minus => simp [ExponentSign.text, exponentDigits, hdigits, Except.map]
  | absent =>
    -- without a sign the exponent starts with a digit
    have hfirst : (Nat.digitChar e.digits.first).isDigit = true :=
      Digits.isDigit_of_mem List.mem_cons_self
    change exponentDigits (Nat.digitChar e.digits.first :: _) = _
    unfold exponentDigits
    split
    · next heq =>
      rw [(List.cons.inj heq).1] at hfirst
      exact absurd hfirst (by decide)
    · next heq =>
      rw [(List.cons.inj heq).1] at hfirst
      exact absurd hfirst (by decide)
    · exact congrArg (Except.map _) hdigits

/-- What a scan makes of a written number. -/
def Number.numeral (n : Number) : Numeral where
  negative := n.negative
  whole := Nat.toDigits 10 n.whole
  fraction := match n.fraction with
    | some ds => ds.text
    | none => []
  exponent := n.exponent.map fun e => (e.sign matches .minus, e.digits.text)

theorem exponentPart_text (n : Number) {cs : List Char} (hcs : Stops cs) :
    exponentPart (n.exponentText ++ cs) = .ok (n.numeral.exponent, cs) := by
  unfold Number.exponentText Number.numeral
  cases n.exponent with
  | none => exact exponentPart_of_stops fun c hc => (hcs c hc).2.2
  | some e =>
    have hdigits := exponentDigits_text e fun c hc => (hcs c hc).1
    cases hcapital : e.capital <;>
      simp [Exponent.text, exponentPart, hcapital, hdigits, Except.map]

/-- What follows the whole part of a number does not go on with a digit. -/
theorem Number.head_exponentText (n : Number) {cs : List Char} (hcs : Stops cs) :
    ∀ c ∈ (n.exponentText ++ cs).head?, c.isDigit = false ∧ c ≠ '.' := by
  unfold exponentText
  cases n.exponent with
  | none => exact fun c hc => ⟨(hcs c hc).1, (hcs c hc).2.1⟩
  | some e =>
    intro c hc
    obtain rfl : (if e.capital then 'E' else 'e') = c := by simpa [Exponent.text] using hc
    cases e.capital <;> decide

theorem fractionDigits_text (n : Number) {cs : List Char}
    (hcs : ∀ c ∈ cs.head?, c.isDigit = false ∧ c ≠ '.') :
    fractionDigits (n.fractionText ++ cs) = .ok (n.numeral.fraction, cs) := by
  unfold Number.fractionText Number.numeral
  cases n.fraction with
  | none => exact fractionDigits_of_stops fun c hc => (hcs c hc).2
  | some ds => exact someDigits_text ds fun c hc => (hcs c hc).1

theorem Number.head_fractionText (n : Number) {cs : List Char}
    (hcs : ∀ c ∈ cs.head?, c.isDigit = false) :
    ∀ c ∈ (n.fractionText ++ cs).head?, c.isDigit = false := by
  unfold fractionText
  cases n.fraction with
  | none => exact hcs
  | some ds =>
    intro c hc
    obtain rfl : '.' = c := by simpa using hc
    rfl

/-- Reads a number after its sign. -/
def unsigned (negative : Bool) (cs : List Char) : Except Problem (Numeral × List Char) := do
  let (whole, cs) ← wholeDigits cs
  let (fraction, cs) ← fractionDigits cs
  let (exponent, cs) ← exponentPart cs
  return ({ negative, whole, fraction, exponent }, cs)

theorem numeral_of_ne {c : Char} (hc : c ≠ '-') (cs : List Char) :
    numeral (c :: cs) = unsigned false (c :: cs) := by
  simp [numeral, unsigned, hc]

theorem unsigned_text (n : Number) {cs : List Char} (hcs : Stops cs) :
    unsigned n.negative
      (Nat.toDigits 10 n.whole ++ (n.fractionText ++ (n.exponentText ++ cs))) =
        .ok (n.numeral, cs) := by
  have hexponent := n.head_exponentText hcs
  have hfraction := n.head_fractionText fun c hc => (hexponent c hc).1
  unfold unsigned
  rw [wholeDigits_toDigits n.whole hfraction]
  simp only [bind, Except.bind]
  rw [fractionDigits_text n hexponent]
  simp only
  rw [exponentPart_text n hcs]
  rfl

/-- A written number is read as it is written. -/
theorem numeral_text (n : Number) {cs : List Char} (hcs : Stops cs) :
    numeral (n.text ++ cs) = .ok (n.numeral, cs) := by
  rw [← unsigned_text n hcs]
  unfold Number.text Number.signText
  cases n.negative with
  | true => simp only [if_true, List.append_assoc]; rfl
  | false =>
    obtain ⟨c, ds, hds, hdigit⟩ := exists_first_digit n.whole
    have hne : c ≠ '-' := by
      rintro rfl
      exact absurd hdigit (by decide)
    simp only [List.append_assoc, hds]
    exact numeral_of_ne hne _

/-! ## Strings -/

theorem hexValue?_char (h : HexDigit) : hexValue? h.char = some h.value.val := by
  have hall : ∀ (v : Fin 16) (capital : Bool), hexValue? (HexDigit.char ⟨v, capital⟩) = some v.val := by
    decide
  exact hall h.value h.capital

theorem hexQuad?_char (a b c d : HexDigit) :
    hexQuad? a.char b.char c.char d.char = some (quad a b c d) := by
  simp [hexQuad?, hexValue?_char, quad]

theorem skipString_piece (p : Piece) (cs : List Char) :
    skipString (p.text ++ cs) = skipString cs := by
  cases p with
  | plain c h =>
    obtain ⟨hlow, hquote, hslash⟩ := h
    change skipString (c :: cs) = skipString cs
    rw [skipString.eq_def]
    simp [hquote, hslash, Nat.not_lt.mpr hlow]
  | short e => cases e <;> simp [Piece.text, ShortEscape.letter, skipString, shortEscape?]
  | unit a b c d => simp [Piece.text, skipString, hexQuad?_char]

/-- A string is passed over whatever it spells. -/
theorem skipString_unquoted (ps : List Piece) (cs : List Char) :
    skipString (unquoted ps ++ cs) = .ok cs := by
  induction ps with
  | nil =>
    change skipString ('"' :: cs) = .ok cs
    rw [skipString.eq_def]
    rfl
  | cons p ps ih =>
    rw [unquoted, List.flatMap_cons, List.append_assoc, List.append_assoc, skipString_piece,
      ← List.append_assoc]
    exact ih

/-! ### UTF-16 -/

theorem colon_gap (gap : Gap) (cs : List Char) : colon (gap.text ++ ':' :: cs) = .ok cs := by
  unfold colon
  rw [skipBlank_gap, skipBlank_cons rfl]
  rfl

theorem skipBlank_named (before : Gap) (name : List Piece) (after : Gap) (cs : List Char) :
    skipBlank ((Label.named before name after).text ++ cs) =
      '"' :: (unquoted name ++ (after.text ++ ':' :: cs)) := by
  simp only [Label.text, List.append_assoc, List.cons_append, skipBlank_gap]
  exact skipBlank_cons rfl _

/-- A label is passed over up to the blanks before the value. -/
theorem skipBefore_label {bracket : Bracket} (label : Label bracket) {cs rest : List Char}
    (hcs : skipBlank cs = skipBlank (label.text ++ rest)) :
    ∃ inner, bracket.skipBefore cs = .ok inner ∧ skipBlank inner = skipBlank rest ∧
      inner.length ≤ cs.length := by
  cases label with
  | unnamed => exact ⟨cs, rfl, hcs, Nat.le_refl _⟩
  | named before name after =>
    have hname := hcs.trans (skipBlank_named before name after rest)
    refine ⟨rest, ?_, rfl, ?_⟩
    · change skipName cs = .ok rest
      unfold skipName
      rw [hname]
      simp only [skipString_unquoted, bind, Except.bind, colon_gap]
    · have hlength := length_skipBlank_le cs
      rw [hname] at hlength
      simp only [List.length_cons, List.length_append] at hlength
      omega

/-! ## Skipping values -/

/-- The machine gets from one state to another in no more steps than it takes characters. -/
def Leads (s t : Skip) : Prop :=
  ∃ n, n + t.rest.length ≤ s.rest.length ∧ ∀ fuel, Skip.run (fuel + n) s = Skip.run fuel t

theorem Leads.trans {s t u : Skip} (hst : Leads s t) (htu : Leads t u) : Leads s u := by
  obtain ⟨n, hn, hrun⟩ := hst
  obtain ⟨m, hm, hrun'⟩ := htu
  refine ⟨m + n, by omega, ?_⟩
  intro fuel
  rw [← Nat.add_assoc, hrun, hrun']

theorem leads_of_value {stack : List Bracket} {cs : List Char} {t : Skip}
    (h : Skip.value stack cs = .ok t) (hlength : t.rest.length < cs.length) :
    Leads ⟨.value, stack, cs⟩ t := by
  refine ⟨1, by simp only; omega, ?_⟩
  intro fuel
  rw [Skip.run, h]

theorem leads_of_next {bracket : Bracket} {stack : List Bracket} {cs : List Char} {t : Skip}
    (h : Skip.next bracket stack cs = .ok t) (hlength : t.rest.length < cs.length) :
    Leads ⟨.next, bracket :: stack, cs⟩ t := by
  refine ⟨1, by simp only; omega, ?_⟩
  intro fuel
  rw [Skip.run, h]

/-- A number starts with its sign or a digit. -/
theorem Number.exists_head (n : Number) :
    ∃ c cs, n.text = c :: cs ∧ startsNumber c = true := by
  unfold text signText
  cases n.negative with
  | true => exact ⟨'-', _, rfl, rfl⟩
  | false =>
    obtain ⟨c, ds, hds, hdigit⟩ := exists_first_digit n.whole
    exact ⟨c, _, by rw [hds]; rfl, by simp [startsNumber, hdigit]⟩

/-- A character other than these starts no number. -/
theorem ne_of_startsNumber {c d : Char} (hc : startsNumber c = true) (hd : startsNumber d = false) :
    c ≠ d := by
  rintro rfl
  rw [hc] at hd
  cases hd

theorem isBlank_of_startsNumber {c : Char} (hc : startsNumber c = true) : isBlank c = false := by
  simp only [isBlank, Bool.or_eq_false_iff, decide_eq_false_iff_not]
  refine ⟨⟨⟨?_, ?_⟩, ?_⟩, ?_⟩ <;> exact ne_of_startsNumber hc rfl

/-- A value starts with something other than a blank or the end of a bracket. -/
theorem Written.exists_head (v : Written .value) :
    ∃ c cs, v.text = c :: cs ∧ isBlank c = false ∧ c ≠ ']' ∧ c ≠ '}' := by
  cases v with
  | null => exact ⟨_, _, rfl, rfl, by decide⟩
  | boolean b => cases b <;> exact ⟨_, _, rfl, rfl, by decide⟩
  | number n =>
    obtain ⟨c, cs, htext, hc⟩ := n.exists_head
    exact ⟨c, cs, htext, isBlank_of_startsNumber hc, ne_of_startsNumber hc rfl,
      ne_of_startsNumber hc rfl⟩
  | string ps => exact ⟨_, _, rfl, rfl, by decide⟩
  | empty bracket inside => cases bracket <;> exact ⟨_, _, rfl, rfl, by decide⟩
  | filled bracket items => cases bracket <;> exact ⟨_, _, rfl, rfl, by decide⟩

theorem skipBlank_text (v : Written .value) (cs : List Char) :
    skipBlank (v.text ++ cs) = v.text ++ cs := by
  obtain ⟨c, rest, htext, hc, -⟩ := v.exists_head
  rw [htext]
  exact skipBlank_cons hc _

/-- What is passed over: a value up to where it stops, and the items of a bracket with its end. -/
def Passes : Phrase → List Char → Prop
  | .value, text => ∀ stack cs rest, Stops rest → skipBlank cs = text ++ rest →
      Leads ⟨.value, stack, cs⟩ ⟨.next, stack, rest⟩
  | .items bracket, text => ∀ stack cs rest,
      skipBlank cs = skipBlank (text ++ bracket.close :: rest) →
      ∃ inner, bracket.skipBefore cs = .ok inner ∧ inner.length ≤ cs.length ∧
        Leads ⟨.value, bracket :: stack, inner⟩ ⟨.next, stack, rest⟩

theorem passes_scalar {c : Char} {text : List Char} (harray : c ≠ '[') (hobject : c ≠ '{')
    (hscan : ∀ rest, Stops rest → skipScalar (c :: text ++ rest) = .ok rest) :
    Passes .value (c :: text) := by
  intro stack cs rest hstops hcs
  refine leads_of_value (t := ⟨.next, stack, rest⟩) ?_ ?_
  · unfold Skip.value
    rw [hcs]
    split
    · next heq => exact absurd (List.cons.inj heq).1 harray
    · next heq => exact absurd (List.cons.inj heq).1 hobject
    · rw [hscan rest hstops]
      rfl
  · exact length_lt_of_skipBlank hcs

theorem passes_number (n : Number) : Passes .value n.text := by
  obtain ⟨c, text, htext, hc⟩ := n.exists_head
  rw [htext]
  refine passes_scalar (ne_of_startsNumber hc rfl) (ne_of_startsNumber hc rfl) ?_
  intro rest hstops
  have hnumber : skipNumber (c :: text ++ rest) = .ok rest := by
    rw [skipNumber, ← htext, numeral_text n hstops]
  unfold skipScalar
  split
  · next heq => cases heq
  · next heq => exact absurd (List.cons.inj heq).1 (ne_of_startsNumber hc rfl)
  · next heq => exact absurd (List.cons.inj heq).1 (ne_of_startsNumber hc rfl)
  · next heq => exact absurd (List.cons.inj heq).1 (ne_of_startsNumber hc rfl)
  · next heq => exact absurd (List.cons.inj heq).1 (ne_of_startsNumber hc rfl)
  · next heq =>
    obtain ⟨rfl, rfl⟩ := List.cons.inj heq
    rw [if_pos hc]
    exact hnumber

theorem value_of_opening {bracket : Bracket} {stack : List Bracket} {cs inside : List Char}
    (hcs : skipBlank cs = bracket.opening :: inside) :
    Skip.value stack cs = Skip.enter bracket stack inside := by
  unfold Skip.value
  rw [hcs]
  cases bracket <;> rfl

/-- Inside a bracket there is first a label, and then a value. -/
theorem exists_label {bracket : Bracket} (items : Written (.items bracket)) (rest : List Char) :
    ∃ (label : Label bracket) (before : Gap) (v : Written .value) (tail : List Char),
      items.text ++ rest = label.text ++ (before.text ++ (v.text ++ tail)) := by
  cases items with
  | last label before v after =>
    exact ⟨label, before, v, after.text ++ rest, by simp only [Written.text, List.append_assoc]⟩
  | more label before v after items =>
    exact ⟨label, before, v, after.text ++ ',' :: items.text ++ rest, by
      simp only [Written.text, List.append_assoc]⟩

/-- What comes first inside a bracket is not the end of the bracket. -/
theorem items_head {bracket : Bracket} (items : Written (.items bracket)) (rest : List Char) :
    ∃ c cs, skipBlank (items.text ++ rest) = c :: cs ∧ c ≠ bracket.close := by
  obtain ⟨label, before, v, tail, htext⟩ := exists_label items rest
  rw [htext]
  cases label with
  | unnamed =>
    obtain ⟨c, cs, hv, hblank, hclose, -⟩ := v.exists_head
    refine ⟨c, cs ++ tail, ?_, hclose⟩
    simp only [Label.text, List.nil_append, skipBlank_gap, hv, List.cons_append]
    exact skipBlank_cons hblank _
  | named gap name after => exact ⟨_, _, skipBlank_named gap name after _, by decide⟩

theorem passes_empty (bracket : Bracket) (inside : Gap) :
    Passes .value (bracket.opening :: (inside.text ++ [bracket.close])) := by
  intro stack cs rest _ hcs
  have hclose : isBlank bracket.close = false := by cases bracket <;> rfl
  refine leads_of_value (t := ⟨.next, stack, rest⟩) ?_ (length_lt_of_skipBlank hcs)
  rw [List.cons_append, List.append_assoc] at hcs
  rw [value_of_opening hcs, Skip.enter, skipBlank_gap]
  simp [skipBlank_cons hclose]

theorem passes_filled {bracket : Bracket} {items : Written (.items bracket)}
    (hitems : Passes (.items bracket) items.text) :
    Passes .value (bracket.opening :: (items.text ++ [bracket.close])) := by
  intro stack cs rest _ hcs
  rw [List.cons_append, List.append_assoc] at hcs
  obtain ⟨c, body, hbody, hc⟩ := items_head items (bracket.close :: rest)
  -- the blanks before the first item are taken away before its label is looked at
  have hagain : skipBlank (c :: body) = skipBlank (items.text ++ bracket.close :: rest) := by
    rw [← hbody]
    exact List.dropWhile_idempotent isBlank _
  obtain ⟨inner, hinner, hshort, hleads⟩ := hitems stack (c :: body) rest hagain
  refine (leads_of_value (t := ⟨.value, bracket :: stack, inner⟩) ?_ ?_).trans hleads
  · rw [value_of_opening hcs]
    unfold Skip.enter
    rw [List.singleton_append, hbody]
    simp [hc, hinner, Except.map]
  · have hlength := length_skipBlank_le cs
    have hlength' := length_skipBlank_le (items.text ++ bracket.close :: rest)
    rw [hcs] at hlength
    rw [hbody] at hlength'
    simp only [List.length_cons, List.length_append, List.nil_append, List.cons_append] at *
    omega

/-- The last item is passed over with the end of its bracket. -/
theorem passes_last {bracket : Bracket} (label : Label bracket) (before : Gap)
    {v : Written .value} (after : Gap) (hv : Passes .value v.text) :
    Passes (.items bracket) (label.text ++ (before.text ++ (v.text ++ after.text))) := by
  intro stack cs rest hcs
  simp only [List.append_assoc] at hcs
  obtain ⟨inner, hinner, hvalue, hshort⟩ := skipBefore_label label hcs
  rw [skipBlank_gap, skipBlank_text] at hvalue
  have hclose : isBlank bracket.close = false := by cases bracket <;> rfl
  have hcomma : bracket.close ≠ ',' := by cases bracket <;> decide
  refine ⟨inner, hinner, hshort, ?_⟩
  refine (hv _ inner _ (stops_gap (stops_close bracket rest) after) hvalue).trans ?_
  refine leads_of_next ?_ ?_
  · rw [Skip.next, skipBlank_gap, skipBlank_cons hclose]
    simp [hcomma]
  · simp only [List.length_append, List.length_cons]
    omega

/-- An item that is not the last is passed over with the comma and the label of the next. -/
theorem passes_more {bracket : Bracket} (label : Label bracket) (before : Gap)
    {v : Written .value} (after : Gap) {text : List Char} (hv : Passes .value v.text)
    (hrest : Passes (.items bracket) text) :
    Passes (.items bracket)
      (label.text ++ (before.text ++ (v.text ++ (after.text ++ ',' :: text)))) := by
  intro stack cs rest hcs
  simp only [List.append_assoc, List.cons_append] at hcs
  obtain ⟨inner, hinner, hvalue, hshort⟩ := skipBefore_label label hcs
  rw [skipBlank_gap, skipBlank_text] at hvalue
  obtain ⟨inner', hinner', hshort', hleads⟩ := hrest stack _ rest rfl
  have hstops : Stops (after.text ++ ',' :: (text ++ bracket.close :: rest)) :=
    stops_gap (stops_cons (by decide) _) after
  refine ⟨inner, hinner, hshort, ?_⟩
  refine ((hv _ inner _ hstops hvalue).trans ?_).trans hleads
  refine leads_of_next ?_ ?_
  · rw [Skip.next, skipBlank_gap, skipBlank_cons rfl]
    simp [hinner', Except.map]
  · simp only [List.length_append, List.length_cons] at *
    omega

/-- Every written phrase is passed over, whatever it contains. -/
theorem passes {p : Phrase} (w : Written p) : Passes p w.text := by
  induction w with
  | null => exact passes_scalar (by decide) (by decide) fun rest _ => rfl
  | boolean b => cases b <;> exact passes_scalar (by decide) (by decide) fun rest _ => rfl
  | number n => exact passes_number n
  | string ps =>
    exact passes_scalar (by decide) (by decide) fun rest _ => skipString_unquoted ps rest
  | empty bracket inside => exact passes_empty bracket inside
  | filled bracket items ih => exact passes_filled ih
  | last label before v after ih => exact passes_last label before after ih
  | more label before v after items ih ihrest => exact passes_more label before after ih ihrest

end FlowFixpoint.Json
