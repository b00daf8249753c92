import Componentry.Proofs.Snippet.Scanning

/-!
# Printed numbers are scanned to themselves

A `Numeral` is a number as it is written: whole digits, places and an exponent. Scanning reads a
numeral as a decimal (`numberAt_numeral`), and every layout writes a numeral whose value is that of
the decimal it lays out (`Layout.write_numeral`). So the printed form of a number is scanned to the
number, since reading depends on the value alone.
-/

namespace Componentry

open Snippet Text Number List

variable {ds : List Char} {n : Nat}

/-! ## Numerals -/

/-- A written number: its first digit, further digits before the point, places after it, and an
exponent with its sign. -/
structure Numeral where
  first : Char
  whole : List Char
  places : List Char
  exponent : Option (Bool × List Char)

namespace Numeral

/-- The point and the places, if there are any. -/
def pointed (places : List Char) : List Char :=
  if places.isEmpty then [] else '.' :: places

/-- The exponent, if there is one. -/
def scaled : Option (Bool × List Char) → List Char
  | none => []
  | some (negative, ds) => 'e' :: (if negative then '-' else '+') :: ds

/-- What follows the first digit. -/
def tail (x : Numeral) : List Char := x.whole ++ (pointed x.places ++ scaled x.exponent)

/-- The text of the numeral. -/
def text (x : Numeral) : List Char := x.first :: x.tail

/-- The power of ten that the exponent asks for. -/
def power : Option (Bool × List Char) → Int
  | none => 0
  | some (negative, ds) =>
    if negative then -(Nat.ofDigitChars 10 ds 0 : Int) else Nat.ofDigitChars 10 ds 0

/-- The decimal that the numeral is read as. -/
def decimal (x : Numeral) : Decimal :=
  ⟨Nat.ofDigitChars 10 (x.first :: x.whole ++ x.places) 0, power x.exponent - x.places.length⟩

/-- All that should be digits are. -/
structure Valid (x : Numeral) : Prop where
  first : x.first.isDigit = true
  whole : ∀ c ∈ x.whole, c.isDigit = true
  places : ∀ c ∈ x.places, c.isDigit = true
  exponent : ∀ p ∈ x.exponent, p.2 ≠ [] ∧ ∀ c ∈ p.2, c.isDigit = true

end Numeral

/-! ## Digits as bytes -/

theorem ascii_of_isDigit {c : Char} (h : c.isDigit = true) : c.toNat < 0x80 := by
  rw [Char.isDigit, Bool.and_eq_true, decide_eq_true_iff, decide_eq_true_iff] at h
  have : c.toNat ≤ 57 := h.2
  omega

theorem isDigit_byte {c : Char} (h : c.toNat < 0x80) : isDigit (byte c) = c.isDigit := by
  rw [isDigit, toNat_byte h, Char.isDigit, Bool.eq_iff_iff, Bool.and_eq_true,
    Bool.and_eq_true, decide_eq_true_iff, decide_eq_true_iff, decide_eq_true_iff,
    decide_eq_true_iff]
  rfl

theorem mem_encode_digits (h : ∀ c ∈ ds, c.isDigit = true) : ∀ b ∈ encode ds, isDigit b = true := by
  intro b hb
  rw [encode_map_byte fun c hc => ascii_of_isDigit (h c hc)] at hb
  obtain ⟨c, hc, rfl⟩ := mem_map.1 hb
  rw [isDigit_byte (ascii_of_isDigit (h c hc)), h c hc]

theorem isDigitPart_of_isDigit {b : UInt8} (h : isDigit b = true) : isDigitPart b = true := by
  rw [isDigitPart, h, Bool.true_or]

theorem filter_encode_digits (h : ∀ c ∈ ds, c.isDigit = true) :
    (encode ds).filter isDigit = encode ds :=
  filter_eq_self.2 (mem_encode_digits h)

theorem length_encode_digits (h : ∀ c ∈ ds, c.isDigit = true) : (encode ds).length = ds.length := by
  rw [encode_map_byte fun c hc => ascii_of_isDigit (h c hc), length_map]

/-- The value of written digits. -/
theorem digitsValue_encode (h : ∀ c ∈ ds, c.isDigit = true) :
    digitsValue (encode ds) = Nat.ofDigitChars 10 ds 0 := by
  have hfold : ∀ n, (encode ds).foldl (fun n b => 10 * n + (b.toNat - 48)) n =
      Nat.ofDigitChars 10 ds n := by
    induction ds with
    | nil => exact fun n => Nat.ofDigitChars_nil.symm
    | cons c cs ih =>
      intro n
      have hc := ascii_of_isDigit (h c (mem_cons_self ..))
      rw [encode_cons_ascii hc, foldl_cons, toNat_byte hc, Nat.ofDigitChars_cons]
      exact ih (fun d hd => h d (mem_cons_of_mem _ hd)) _
  rw [digitsValue, filter_encode_digits h]
  exact hfold 0

/-! ## Scanning a numeral -/

section Scan

variable {next : List Char}

theorem placesAt_of_not_point {bs : Bytes} (h : follows ['.'] bs = false) : placesAt bs = none := by
  cases bs with
  | nil => rfl
  | cons b bs =>
    rw [follows, follows, Bool.and_true] at h
    cases bs with
    | nil => rfl
    | cons d bs =>
      rw [placesAt, h, Bool.false_and]
      rfl

/-- What may follow a number. -/
theorem Soft.isDigitPart (h : Soft next) : ∀ b ∈ (encode next).head?, isDigitPart b = false := by
  intro b hb
  have hpart := h.isWordPart b hb
  have hclass := forall_byte (p := fun b => Snippet.isWordPart b || !Snippet.isDigitPart b)
    (by decide +kernel) b
  rw [hpart, Bool.false_or, Bool.not_eq_true'] at hclass
  exact hclass

theorem Soft.placesAt (h : Soft next) : placesAt (encode next) = none := by
  cases next with
  | nil => rfl
  | cons c cs =>
    by_cases hc : c = '.'
    · subst hc
      rw [encode_cons_ascii (by decide)]
      cases hcs : encode cs with
      | nil => rfl
      | cons b bs =>
        obtain ⟨d, hd, hb⟩ := head?_encode (show b ∈ (encode cs).head? by rw [hcs]; rfl)
        have hdigit : isDigit b = false := by
          obtain ⟨ds, rfl⟩ : ∃ ds, cs = d :: ds := by
            cases cs with
            | nil => cases hd
            | cons d' ds =>
              cases hd
              exact ⟨ds, rfl⟩
          rcases hb with ⟨hascii, rfl⟩ | ⟨-, hpast⟩
          · rw [isDigit_byte hascii]
            exact h.point d ds rfl
          · rw [isDigit, Bool.and_eq_false_iff, decide_eq_false_iff_not,
              decide_eq_false_iff_not]
            omega
        rw [placesAt, hdigit, Bool.and_false]
        rfl
    · refine placesAt_of_not_point (follows_encode (by decide) ?_)
      exact fun heq => hc (Option.some.inj heq)

theorem Soft.exponentAt (h : Soft next) : exponentAt (encode next) = none := by
  cases hnext : encode next with
  | nil => rfl
  | cons b bs =>
    have hpart := h.isWordPart b (by rw [hnext]; rfl)
    have hclass := forall_byte (p := fun b => Snippet.isWordPart b ||
      !(byteChar b == 'e' || byteChar b == 'E')) (by decide +kernel) b
    rw [hpart, Bool.false_or, Bool.not_eq_true'] at hclass
    rw [Snippet.exponentAt, hclass]
    rfl

/-- The bytes after `e` and a sign. -/
theorem exponentAt_sign (negative : Bool) (bs : Bytes) :
    exponentAt (101 :: (if negative then 45 else 43) :: bs) =
      if (bs.takeWhile isDigit).isEmpty
      then some (none, 1 + 1 + (bs.takeWhile isDigit).length)
      else some (some (if negative then -(digitsValue (bs.takeWhile isDigit) : Int)
        else digitsValue (bs.takeWhile isDigit)),
          1 + 1 + (bs.takeWhile isDigit).length) := by
  cases negative <;> rfl

/-- The exponent of a numeral is read. -/
theorem exponentAt_scaled (h : Soft next) {x : Option (Bool × List Char)}
    (hx : ∀ p ∈ x, p.2 ≠ [] ∧ ∀ c ∈ p.2, c.isDigit = true) :
    exponentAt (encode (Numeral.scaled x) ++ encode next) =
      x.map fun _ => (some (Numeral.power x), (encode (Numeral.scaled x)).length) := by
  cases x with
  | none => exact h.exponentAt
  | some p =>
    obtain ⟨negative, ds⟩ := p
    obtain ⟨hne, hds⟩ := hx (negative, ds) rfl
    have htake : (encode ds ++ encode next).takeWhile isDigit = encode ds := by
      refine takeWhile_append (mem_encode_digits hds) fun b hb => ?_
      have := h.isDigitPart b hb
      rw [isDigitPart, Bool.or_eq_false_iff] at this
      exact this.1
    have hempty : (encode ds).isEmpty = false := by
      cases ds with
      | nil => exact absurd rfl hne
      | cons c cs =>
        rw [encode_cons_ascii (ascii_of_isDigit (hds c (mem_cons_self ..)))]
        rfl
    have hbytes : encode (Numeral.scaled (some (negative, ds))) =
        101 :: (if negative then 45 else 43) :: encode ds := by
      show encode ('e' :: (if negative then '-' else '+') :: ds) = _
      rw [encode_cons_ascii (by decide), encode_cons_ascii (by cases negative <;> decide)]
      cases negative <;> rfl
    rw [hbytes, cons_append, cons_append, exponentAt_sign, htake, hempty,
      if_neg Bool.false_ne_true, digitsValue_encode hds, Option.map_some, Numeral.power,
      length_cons, length_cons]
    congr 2
    omega

/-- The places of a numeral are read. -/
theorem placesAt_pointed (h : Soft next) {places : List Char} {x : Option (Bool × List Char)}
    (hplaces : ∀ c ∈ places, c.isDigit = true) :
    placesAt (encode (Numeral.pointed places) ++ (encode (Numeral.scaled x) ++ encode next)) =
      if places.isEmpty then none else some (encode places) := by
  have hrest : ∀ b ∈ (encode (Numeral.scaled x) ++ encode next).head?, isDigitPart b = false := by
    cases x with
    | none => exact h.isDigitPart
    | some p =>
      intro b hb
      cases hb
      rfl
  cases places with
  | nil =>
    rw [Numeral.pointed, isEmpty_nil, if_pos rfl, if_pos rfl, encode_nil, nil_append]
    cases x with
    | none => exact h.placesAt
    | some p => exact placesAt_of_not_point rfl
  | cons c cs =>
    have hc := hplaces c (mem_cons_self ..)
    have hcs : ∀ d ∈ cs, d.isDigit = true := fun d hd => hplaces d (mem_cons_of_mem _ hd)
    have htake : (encode cs ++ (encode (Numeral.scaled x) ++ encode next)).takeWhile
        isDigitPart = encode cs :=
      takeWhile_append (fun b hb => isDigitPart_of_isDigit (mem_encode_digits hcs b hb)) hrest
    have hdigit : isDigit (byte c) = true := by rw [isDigit_byte (ascii_of_isDigit hc), hc]
    have hbytes : encode (Numeral.pointed (c :: cs)) = 46 :: byte c :: encode cs := by
      show encode ('.' :: c :: cs) = _
      rw [encode_cons_ascii (by decide), encode_cons_ascii (ascii_of_isDigit hc)]
      rfl
    rw [hbytes, cons_append, cons_append, placesAt, hdigit, htake,
      encode_cons_ascii (ascii_of_isDigit hc)]
    rfl

/-- A numeral is read as its decimal. -/
theorem numberAt_numeral (h : Soft next) {x : Numeral} (hx : x.Valid) {v : Binary64}
    (hv : x.decimal.toBinary64? false = some v) :
    numberAt (byte x.first) (encode x.tail ++ encode next) =
      (.token (.number v), (encode x.tail).length) := by
  obtain ⟨c, whole, places, exponent⟩ := x
  have hc := hx.first
  have hbytes : encode (Numeral.tail ⟨c, whole, places, exponent⟩) ++ encode next =
      encode whole ++ (encode (Numeral.pointed places) ++
        (encode (Numeral.scaled exponent) ++ encode next)) := by
    rw [Numeral.tail, encode_append, encode_append, append_assoc, append_assoc]
  have hrest : ∀ b ∈ (encode (Numeral.pointed places) ++
      (encode (Numeral.scaled exponent) ++ encode next)).head?, isDigitPart b = false := by
    cases places with
    | nil =>
      cases exponent with
      | none => exact h.isDigitPart
      | some p =>
        intro b hb
        cases hb
        rfl
    | cons d ds =>
      intro b hb
      cases hb
      rfl
  have hrun : (encode whole ++ (encode (Numeral.pointed places) ++
      (encode (Numeral.scaled exponent) ++ encode next))).takeWhile isDigitPart =
      encode whole :=
    takeWhile_append (fun b hb => isDigitPart_of_isDigit (mem_encode_digits hx.whole b hb)) hrest
  have hpoint : ((if places.isEmpty then none else some (encode places)).map
      (fun ps : Bytes => ps.length + 1)).getD 0 = (encode (Numeral.pointed places)).length := by
    cases places with
    | nil => rfl
    | cons d ds =>
      show (encode (d :: ds)).length + 1 = (encode ('.' :: d :: ds)).length
      rw [encode_cons_ascii (c := '.') (by decide), length_cons]
  have hplaces : (if places.isEmpty then none else some (encode places)).getD [] =
      encode places := by
    cases places <;> rfl
  have hfirst : isDigit (byte c) = true := by rw [isDigit_byte (ascii_of_isDigit hc), hc]
  have hall : ∀ d ∈ c :: whole ++ places, d.isDigit = true := by
    intro d hd
    rcases mem_append.1 hd with hd | hd
    · rcases mem_cons.1 hd with rfl | hd
      · exact hc
      · exact hx.whole d hd
    · exact hx.places d hd
  have hvalue : digitsValue (byte c :: encode whole ++ encode places) =
      Nat.ofDigitChars 10 (c :: whole ++ places) 0 := by
    rw [← digitsValue_encode hall, encode_append, encode_cons_ascii (ascii_of_isDigit hc)]
  have hcount : ((encode places).filter isDigit).length = places.length := by
    rw [filter_encode_digits hx.places, length_encode_digits hx.places]
  rw [hbytes]
  unfold numberAt
  dsimp only
  rw [hrun, drop_left, placesAt_pointed h hx.places, hpoint, hfirst, hplaces]
  have hdrop : (encode whole ++ (encode (Numeral.pointed places) ++
      (encode (Numeral.scaled exponent) ++ encode next))).drop
      ((encode whole).length + (encode (Numeral.pointed places)).length) =
      encode (Numeral.scaled exponent) ++ encode next := by
    rw [← append_assoc, ← length_append, drop_left]
  rw [hdrop, exponentAt_scaled h hx.exponent]
  have hlength : (encode (Numeral.tail ⟨c, whole, places, exponent⟩)).length =
      (encode whole).length + (encode (Numeral.pointed places)).length +
        (encode (Numeral.scaled exponent)).length := by
    rw [Numeral.tail, encode_append, encode_append, length_append, length_append, Nat.add_assoc]
  rw [Numeral.decimal] at hv
  rw [hlength]
  cases exponent with
  | none =>
    simp only [Option.map_none, Bool.not_true, Bool.false_eq_true, if_false, Bool.false_and,
      hvalue, hcount]
    rw [Numeral.power] at hv
    simp only [hv]
    rfl
  | some p =>
    simp only [Option.map_some, Bool.not_true, Bool.false_eq_true, if_false, Bool.false_and,
      hvalue, hcount, hv]

end Scan

/-! ## Layouts write numerals -/

theorem isDigit_toDigits : ∀ c ∈ Nat.toDigits 10 n, c.isDigit = true :=
  fun _ hc => Nat.isDigit_of_mem_toDigits (by decide) (by decide) hc

theorem isDigit_replicate : ∀ c ∈ replicate n '0', c.isDigit = true := by
  intro c hc
  rw [eq_of_mem_replicate hc]
  rfl

theorem isDigit_padded {width : Nat} :
    Number.padded width n ≠ [] ∧ ∀ c ∈ Number.padded width n, c.isDigit = true := by
  unfold Number.padded
  refine ⟨?_, fun c hc => ?_⟩
  · simp [Nat.toDigits_ne_nil]
  · rcases mem_append.1 hc with hc | hc
    · exact isDigit_replicate c hc
    · exact isDigit_toDigits c hc

theorem ofDigitChars_padded (width n : Nat) :
    Nat.ofDigitChars 10 (Number.padded width n) 0 = n := by
  unfold Number.padded
  rw [Nat.ofDigitChars_append, Nat.ofDigitChars_replicate_zero, Nat.mul_zero,
    Nat.ofDigitChars_ten_toDigits]

section

variable {d : Decimal} {c : Char} {more : List Char}

/-- One digit in front of the point, and an exponent. -/
theorem scientific_numeral (hdigits : ∀ a ∈ c :: more, a.isDigit = true)
    (hvalue : Nat.ofDigitChars 10 (c :: more) 0 = d.digits) (negative : Bool) (width k : Nat)
    (hk : (if negative then -(k : Int) else k) = d.exponent + (more.length : Int)) :
    ∃ y : Numeral, y.Valid ∧ y.decimal.value = d.value ∧ (match c :: more with
        | [] => []
        | [d] => [d]
        | d :: more => d :: '.' :: more) ++
        'e' :: (if negative then '-' else '+') :: Number.padded width k = y.text := by
  rw [forall_mem_cons] at hdigits
  refine ⟨⟨c, [], more, some (negative, Number.padded width k)⟩,
    ⟨hdigits.1, by simp, hdigits.2, ?_⟩, ?_, ?_⟩
  · rintro p ⟨⟩
    exact isDigit_padded
  · have hpower : Numeral.power (some (negative, Number.padded width k)) - (more.length : Int) =
        d.exponent := by
      rw [Numeral.power, ofDigitChars_padded, hk]
      ring
    simp only [Numeral.decimal, Decimal.value, cons_append, nil_append, hvalue, hpower]
  · cases more <;> rfl

/-- Digits and perhaps zeros in front of the point. -/
theorem whole_numeral (hdigits : ∀ a ∈ c :: more, a.isDigit = true)
    (hvalue : Nat.ofDigitChars 10 (c :: more) 0 = d.digits) {k : Nat}
    (hk : d.exponent + (more.length : Int) = k) :
    ∃ y : Numeral, y.Valid ∧ y.decimal.value = d.value ∧ (if ((c :: more).drop (k + 1)).isEmpty then
        (c :: more).take (k + 1) ++ replicate (k + 1 - (c :: more).length) '0'
      else
        (c :: more).take (k + 1) ++ replicate (k + 1 - (c :: more).length) '0' ++
          '.' :: (c :: more).drop (k + 1)) = y.text := by
  rw [forall_mem_cons] at hdigits
  refine ⟨⟨c, more.take k ++ replicate (k - more.length) '0', more.drop k, none⟩,
    ⟨hdigits.1, fun a ha => ?_, fun a ha => hdigits.2 a (mem_of_mem_drop ha), by simp⟩, ?_, ?_⟩
  · rcases mem_append.1 ha with ha | ha
    · exact hdigits.2 a (mem_of_mem_take ha)
    · exact isDigit_replicate a ha
  · by_cases hshort : more.length ≤ k
    · have hdecimal : Numeral.decimal ⟨c, more.take k ++ replicate (k - more.length) '0',
          more.drop k, none⟩ = ⟨10 ^ (k - more.length) * d.digits, 0⟩ := by
        rw [Numeral.decimal, take_of_length_le hshort, drop_of_length_le hshort,
          append_nil, ← cons_append, Nat.ofDigitChars_append, hvalue,
          Nat.ofDigitChars_replicate_zero]
        rfl
      have hexponent : d.exponent = ((k - more.length : ℕ) : ℤ) := by omega
      rw [hdecimal, Decimal.value, Decimal.value, hexponent, zpow_natCast, zpow_zero]
      push_cast
      ring
    · have hdecimal : Numeral.decimal ⟨c, more.take k ++ replicate (k - more.length) '0',
          more.drop k, none⟩ = d := by
        rw [Numeral.decimal, Nat.sub_eq_zero_of_le (Nat.le_of_not_le hshort),
          replicate_zero, append_nil, cons_append, take_append_drop,
          hvalue, length_drop, Numeral.power]
        have hexponent : (0 : ℤ) - ((more.length - k : ℕ) : ℤ) = d.exponent := by omega
        rw [hexponent]
      rw [hdecimal]
  · rw [drop_succ_cons, take_succ_cons, length_cons, Nat.add_sub_add_right]
    show _ = c :: ((more.take k ++ replicate (k - more.length) '0') ++
      (Numeral.pointed (more.drop k) ++ []))
    rw [append_nil, Numeral.pointed]
    split
    · rw [append_nil, cons_append]
    · rw [cons_append, cons_append]

/-- Zeros behind the point. -/
theorem fraction_numeral (hdigits : ∀ a ∈ c :: more, a.isDigit = true)
    (hvalue : Nat.ofDigitChars 10 (c :: more) 0 = d.digits) {k : Nat}
    (hk : d.exponent + (more.length : Int) = -((k + 1 : ℕ) : Int)) :
    ∃ y : Numeral, y.Valid ∧ y.decimal.value = d.value ∧
      '0' :: '.' :: replicate k '0' ++ c :: more = y.text := by
  refine ⟨⟨'0', [], replicate k '0' ++ c :: more, none⟩,
    ⟨rfl, by simp, fun a ha => ?_, by simp⟩, ?_, ?_⟩
  · rcases mem_append.1 ha with ha | ha
    · exact isDigit_replicate a ha
    · exact hdigits a ha
  · have hdecimal :
        Numeral.decimal ⟨'0', [], replicate k '0' ++ c :: more, none⟩ = d := by
      have hzero : Nat.ofDigitChars 10 ('0' :: replicate k '0') 0 = 0 := by
        rw [← replicate_succ, Nat.ofDigitChars_replicate_zero, Nat.mul_zero]
      rw [Numeral.decimal, cons_append, nil_append, ← cons_append,
        Nat.ofDigitChars_append, hzero, hvalue, Numeral.power, length_append,
        length_replicate, length_cons]
      have hexponent : (0 : ℤ) - ((k + (more.length + 1) : ℕ) : ℤ) = d.exponent := by omega
      rw [hexponent]
    rw [hdecimal]
  · show _ = '0' :: ([] ++ (Numeral.pointed (replicate k '0' ++ c :: more) ++ []))
    have hne : (replicate k '0' ++ c :: more).isEmpty = false := by simp
    rw [Numeral.pointed, hne, nil_append, append_nil]
    rfl

end

/-- A written decimal is a numeral of the same value. -/
theorem Number.Layout.write_numeral (l : Layout) (d : Decimal) :
    ∃ x : Numeral, x.Valid ∧ x.decimal.value = d.value ∧ l.write (Nat.toDigits 10 d.digits)
        (d.exponent + ((Nat.toDigits 10 d.digits).length : Int) - 1) = x.text := by
  have hdigits := isDigit_toDigits (n := d.digits)
  have hvalue := Nat.ofDigitChars_ten_toDigits (n := d.digits)
  obtain ⟨c, more, hds⟩ : ∃ c more, Nat.toDigits 10 d.digits = c :: more :=
    exists_cons_of_ne_nil Nat.toDigits_ne_nil
  rw [hds] at hdigits hvalue ⊢
  obtain ⟨x, hx⟩ : ∃ x, d.exponent + (more.length : Int) = x := ⟨_, rfl⟩
  have hlast : d.exponent + ((c :: more).length : Int) - 1 = x := by
    rw [← hx, length_cons]
    push_cast
    ring
  rw [hlast]
  unfold Layout.write
  split
  · cases x with
    | ofNat k => exact scientific_numeral hdigits hvalue false l.positiveWidth k hx.symm
    | negSucc k =>
      rw [Int.negSucc_eq] at hx
      exact scientific_numeral hdigits hvalue true l.negativeWidth (k + 1) hx.symm
  · cases x with
    | ofNat k => exact whole_numeral hdigits hvalue hx
    | negSucc k => exact fraction_numeral hdigits hvalue hx

/-! ## Numbers -/

/-- What has the value of the shortest decimal of a number is read as the number. -/
theorem toBinary64?_shortest {m : Nat} {q : Int} (h : Normal m q) {d : Decimal}
    (hd : d.value = (shortest m q).value) : d.toBinary64? false = some (.finite false m q) := by
  by_cases hm : m = 0
  · subst hm
    have hq : q = -1074 := h.full.resolve_left (by decide)
    subst hq
    have hzero : d.digits = 0 := by
      rw [shortest, if_pos rfl, Decimal.value, Decimal.value, Nat.cast_zero, zero_mul,
        mul_eq_zero, Nat.cast_eq_zero, or_iff_left (by positivity)] at hd
      exact hd
    rw [Decimal.toBinary64?, if_pos hzero]
    rfl
  · exact toBinary64?_eq h hm (hd ▸ shortest_holds h hm)

theorem Chunk.scans_number {v : Binary64} {next : List Char} (hv : v.Canonical)
    (hnext : Soft next) : (Chunk.number v).Scans next := by
  intro loc
  obtain ⟨m, q, rfl⟩ := hv.unsigned
  obtain ⟨num, den, hden, hround⟩ := hv
  obtain ⟨⟨m', q'⟩, hround, heq⟩ := Option.map_eq_some_iff.1 hround
  cases heq
  have hnormal := normal_of_round hden hround
  obtain ⟨x, hvalid, hvalue, htext⟩ := Layout.source.write_numeral (shortest m q)
  have hdecimal := toBinary64?_shortest hnormal hvalue
  have hascii := ascii_of_isDigit hvalid.first
  refine ⟨byte x.first, encode x.tail, ?_, ?_⟩
  · show encode (Layout.source.text (.finite false m q)).toList = _
    have hchars : (Layout.source.text (.finite false m q)).toList = x.text := by
      rw [← htext]
      exact String.toList_ofList
    rw [hchars, Numeral.text, encode_cons_ascii hascii]
  · have hdigit : isDigit (byte x.first) = true := by rw [isDigit_byte hascii, hvalid.first]
    have hclass := forall_byte (p := fun b => !isDigit b || decide (isBlank b = false ∧
      byteChar b ≠ '"' ∧ byteChar b ≠ '\'' ∧ byteChar b ≠ '/')) (by decide +kernel) (byte x.first)
    rw [hdigit, Bool.not_true, Bool.false_or, decide_eq_true_iff] at hclass
    obtain ⟨h1, h2, h3, h4⟩ := hclass
    have hpiece : pieceAt loc (byte x.first) (encode x.tail ++ encode next) =
        numberAt (byte x.first) (encode x.tail ++ encode next) := by
      unfold pieceAt
      simp only [h1, h2, h3, h4, hdigit, Bool.false_eq_true, if_false, decide_false, Bool.or_false,
        Bool.false_and, Bool.true_or, if_true]
    rw [hpiece, numberAt_numeral hnext hvalid hdecimal]
    rfl

end Componentry
