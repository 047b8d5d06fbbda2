import Collate.Proofs.Records

/-!
# Spelling strings and numbers

What may stand in a JSON text for a string and for a number. A character of a string stands for
itself or is escaped, by a letter or by the numbers of its code units, of which a character beyond
the first plane has two. An integer has one spelling, apart from a number with a fraction or an
exponent, which is read as a double. The readers take each spelling for what it stands for
(`Reader.stringBody_literal`, `Number.Text.read`), and every string and every integer has one
(`exists_literal`, `exists_whole`).
-/

namespace Collate.Json

/-! ## Strings -/

/-- The digits of a code unit, in letters of either case, with their values. -/
def hexDigits : List (Char × Nat) :=
  [('0', 0), ('1', 1), ('2', 2), ('3', 3), ('4', 4), ('5', 5), ('6', 6), ('7', 7), ('8', 8),
    ('9', 9), ('a', 10), ('b', 11), ('c', 12), ('d', 13), ('e', 14), ('f', 15), ('A', 10),
    ('B', 11), ('C', 12), ('D', 13), ('E', 14), ('F', 15)]

/-- Four digits spell a code unit. -/
def Quad (ds : List Char) (unit : Nat) : Prop :=
  ∃ a ∈ hexDigits, ∃ b ∈ hexDigits, ∃ c ∈ hexDigits, ∃ d ∈ hexDigits,
    ds = [a.1, b.1, c.1, d.1] ∧ unit = ((a.2 * 16 + b.2) * 16 + c.2) * 16 + d.2

/-- The letters of escapes, with what they stand for. -/
def shortEscapes : List (Char × Char) :=
  [('"', '"'), ('\\', '\\'), ('/', '/'), ('b', '\x08'), ('f', '\x0c'), ('n', '\n'), ('r', '\r'),
    ('t', '\t')]

/-- Characters, and how they are spelled between quotes. -/
inductive Literal : List Char → List Char → Prop
  | nil : Literal [] []
  | plain {c s cs} : c ≠ '"' → c ≠ '\\' → 0x20 ≤ c.toNat → Literal s cs →
      Literal (c :: s) (c :: cs)
  | short {e s cs} : e ∈ shortEscapes → Literal s cs → Literal (e.2 :: s) ('\\' :: e.1 :: cs)
  | unit {ds unit s cs} : Quad ds unit → unit < 0xD800 ∨ 0xDFFF < unit → Literal s cs →
      Literal (Char.ofNat unit :: s) ('\\' :: 'u' :: (ds ++ cs))
  /-- A character beyond the first plane has a high and a low code unit. -/
  | pair {ds ds' high low s cs} : Quad ds high → 0xD800 ≤ high → high ≤ 0xDBFF → Quad ds' low →
      0xDC00 ≤ low → low ≤ 0xDFFF → Literal s cs →
      Literal (Char.ofNat (0x10000 + (high - 0xD800) * 0x400 + (low - 0xDC00)) :: s)
        ('\\' :: 'u' :: (ds ++ '\\' :: 'u' :: (ds' ++ cs)))

/-- Characters that need no escape stand for themselves. -/
theorem literal_of_plain {s : List Char} (h : ∀ c ∈ s, c ≠ '"' ∧ c ≠ '\\' ∧ 0x20 ≤ c.toNat) :
    Literal s s := by
  induction s with
  | nil => exact .nil
  | cons c s ih =>
    obtain ⟨hquote, hslash, hcontrol⟩ := h c List.mem_cons_self
    exact .plain hquote hslash hcontrol (ih fun d hd => h d (List.mem_cons_of_mem _ hd))

namespace Reader

theorem hexValue?_of_mem {d : Char × Nat} (h : d ∈ hexDigits) :
    hexValue? d.1 = some d.2 ∧ d.1.utf8Size = 1 := by
  revert d
  decide

theorem simpleEscape?_of_mem {e : Char × Char} (h : e ∈ shortEscapes) :
    e.1 ≠ 'u' ∧ simpleEscape? e.1 = some e.2 := by
  revert e
  decide

/-- The digits of a code unit are taken one by one. -/
theorem stringBody_quad {ds : List Char} {unit : Nat} (h : Quad ds unit) (high : Option Nat)
    (done cs : List Char) :
    fourBytesLeft (ds ++ cs) = true ∧ stringBody (.hex 4 0 high) done (ds ++ cs)
      = match high with
        | some h =>
          if isLow unit then stringBody .plain (joinSurrogates h unit :: done) cs
          else .error .malformed
        | none =>
          if isLow unit then .error .malformed
          else if isHigh unit then stringBody (.slashAfter unit) done cs
          else stringBody .plain (Char.ofNat unit :: done) cs := by
  obtain ⟨a, ha, b, hb, c, hc, d, hd, rfl, rfl⟩ := h
  obtain ⟨ha, ha'⟩ := hexValue?_of_mem ha
  obtain ⟨hb, hb'⟩ := hexValue?_of_mem hb
  obtain ⟨hc, hc'⟩ := hexValue?_of_mem hc
  obtain ⟨hd, hd'⟩ := hexValue?_of_mem hd
  refine ⟨by simp [fourBytesLeft, ha', hb', hc', hd'], ?_⟩
  cases high <;> simp [stringBody, ha, hb, hc, hd]

/-- A spelling up to the closing quote is taken for what it spells. -/
theorem stringBody_literal {s cs : List Char} (h : Literal s cs) (done rest : List Char) :
    stringBody .plain done (cs ++ '"' :: rest) = .ok (String.ofList (done.reverse ++ s), rest) := by
  induction h generalizing done with
  | nil => simp [stringBody]
  | @plain c s cs hquote hslash hcontrol _ ih =>
    rw [List.cons_append, stringBody, if_neg hquote, if_neg hslash, if_neg (Nat.not_lt.2 hcontrol),
      ih]
    simp
  | @short e s cs he _ ih =>
    obtain ⟨hletter, hmeaning⟩ := simpleEscape?_of_mem he
    simp [stringBody, hletter, hmeaning, ih]
  | @unit ds unit s cs hds hplane _ ih =>
    obtain ⟨hfour, htaken⟩ := stringBody_quad hds none done (cs ++ '"' :: rest)
    have hlow : isLow unit = false := by
      simp only [isLow, Bool.and_eq_false_iff, decide_eq_false_iff_not]
      omega
    have hhigh : isHigh unit = false := by
      simp only [isHigh, Bool.and_eq_false_iff, decide_eq_false_iff_not]
      omega
    simp [stringBody, hfour, htaken, hlow, hhigh, ih]
  | @pair ds ds' high low s cs hds hhigh hhigh' hds' hlow hlow' _ ih =>
    obtain ⟨hfour, htaken⟩ :=
      stringBody_quad hds none done ('\\' :: 'u' :: (ds' ++ (cs ++ '"' :: rest)))
    obtain ⟨hfour', htaken'⟩ := stringBody_quad hds' (some high) done (cs ++ '"' :: rest)
    have hfirst : isLow high = false ∧ isHigh high = true := by
      simp only [isLow, isHigh, Bool.and_eq_false_iff, Bool.and_eq_true, decide_eq_false_iff_not,
        decide_eq_true_eq]
      omega
    have hsecond : isLow low = true := by
      simp only [isLow, Bool.and_eq_true, decide_eq_true_eq]
      omega
    have hjoin : joinSurrogates high low
        = Char.ofNat (0x10000 + (high - 0xD800) * 0x400 + (low - 0xDC00)) :=
      congrArg Char.ofNat (by omega)
    simp [stringBody, hfour, htaken, hfirst, hfour', htaken', hsecond, hjoin, ih]

theorem afterQuote_literal {s : String} {cs : List Char} (h : Literal s.toList cs)
    (rest : List Char) : afterQuote (cs ++ '"' :: rest) = .ok (s, rest) := by
  simp [afterQuote, stringBody_literal h]

end Reader

/-! ## Numbers -/

/-- The digits of a number before the point: no zero is in front of another digit. -/
structure Whole (ds : List Char) : Prop where
  ne_nil : ds ≠ []
  digits : ∀ c ∈ ds, c.isDigit = true
  lead : ds.head? = some '0' → ds = ['0']

inductive Fraction : List Char → Prop
  | none : Fraction []
  | some {ds} : ds ≠ [] → (∀ c ∈ ds, c.isDigit = true) → Fraction ('.' :: ds)

inductive Exponent : List Char → Prop
  | none : Exponent []
  | some {e sign ds} : e = 'e' ∨ e = 'E' → sign ∈ [[], ['+'], ['-']] → ds ≠ [] →
      (∀ c ∈ ds, c.isDigit = true) → Exponent (e :: (sign ++ ds))

/-- What is spelled as an integer and is none of the integers, which have no negative zero. -/
def OutOfRange (minus : Bool) (n : Nat) : Prop :=
  if minus then n = 0 ∨ Numeral.maxI64 + 1 < n else Numeral.maxU64 < n

/-- Numbers and how they are spelled. What is no integer is some double. -/
inductive Number.Text : Number → List Char → Prop
  | natural {ds} : Whole ds → Nat.ofDigitChars 10 ds 0 ≤ Numeral.maxU64 →
      Text (.natural (Nat.ofDigitChars 10 ds 0)) ds
  | negative {ds} : Whole ds → 0 < Nat.ofDigitChars 10 ds 0 →
      Nat.ofDigitChars 10 ds 0 ≤ Numeral.maxI64 + 1 →
      Text (.negative (Nat.ofDigitChars 10 ds 0)) ('-' :: ds)
  | double {d minus ds fraction exponent} : Whole ds → Fraction fraction → Exponent exponent →
      (fraction = [] → exponent = [] → OutOfRange minus (Nat.ofDigitChars 10 ds 0)) →
      Text (.double d) ((if minus then ['-'] else []) ++ (ds ++ (fraction ++ exponent)))

/-- A text that does not go on with a number before it. -/
def Stops (rest : List Char) : Prop :=
  ∀ c, rest.head? = some c → c.isDigit = false ∧ c ≠ '.' ∧ c ≠ 'e' ∧ c ≠ 'E'

theorem Stops.not_digit {rest : List Char} (h : Stops rest) :
    ∀ c, rest.head? = some c → c.isDigit = false := fun c hc => (h c hc).1

namespace Reader

theorem isDigit_eq (c : Char) : isDigit c = c.isDigit := by
  simp [isDigit, Char.isDigit, Char.le_def, ge_iff_le]

theorem takeWhile_digits {ds tail : List Char} (hds : ∀ c ∈ ds, c.isDigit = true)
    (htail : ∀ c, tail.head? = some c → c.isDigit = false) :
    (ds ++ tail).takeWhile isDigit = ds ∧ (ds ++ tail).dropWhile isDigit = tail := by
  induction ds with
  | nil =>
    rcases tail with _ | ⟨c, cs⟩
    · exact ⟨rfl, rfl⟩
    · have hc : isDigit c = false := by rw [isDigit_eq, htail c rfl]
      simp [hc]
  | cons c ds ih =>
    have hc : isDigit c = true := by rw [isDigit_eq, hds c List.mem_cons_self]
    obtain ⟨htake, hdrop⟩ := ih fun c' h => hds c' (List.mem_cons_of_mem _ h)
    simp [hc, htake, hdrop]

/-- Digits are appended as long as the number stays within bounds, and all of them if it does. -/
theorem appendDigits_of_le {ds : List Char} {n : Nat}
    (h : Nat.ofDigitChars 10 ds n ≤ Numeral.maxU64) :
    appendDigits n ds = (Nat.ofDigitChars 10 ds n, []) := by
  induction ds generalizing n with
  | nil => rfl
  | cons c ds ih =>
    have hcons : Nat.ofDigitChars 10 (c :: ds) n
        = Nat.ofDigitChars 10 ds (n * 10 + digitValue c) := by
      rw [Nat.ofDigitChars_cons, Nat.mul_comm 10, digitValue]
    rw [hcons] at h ⊢
    rw [appendDigits, if_pos ((Numeral.le_ofDigitChars ds _).trans h), ih h]

theorem appendDigits_of_lt {ds : List Char} {n : Nat}
    (h : Numeral.maxU64 < Nat.ofDigitChars 10 ds n) (hn : n ≤ Numeral.maxU64) :
    (appendDigits n ds).2 ≠ [] := by
  induction ds generalizing n with
  | nil => exact absurd hn (Nat.not_le.2 h)
  | cons c ds ih =>
    rw [Nat.ofDigitChars_cons, Nat.mul_comm 10] at h
    rw [appendDigits]
    split_ifs with hle
    · exact ih h hle
    · exact List.cons_ne_nil _ _

/-- What is no integer is read as some double, or is beyond all doubles. -/
def AsDouble (rest : List Char) (r : Except Fault (Number × List Char)) : Prop :=
  (∃ f, r = .error f) ∨ ∃ d, r = .ok (.double d, rest)

variable {rest : List Char}

theorem asDouble_real (positive : Bool) (significand : Nat) (exponent : Int) :
    AsDouble rest (real positive significand exponent rest) := by
  unfold real
  cases Double.ofDecimal significand exponent with
  | none => exact .inl ⟨_, rfl⟩
  | some d => exact .inr ⟨_, rfl⟩

theorem asDouble_exponentDigits {ds : List Char} (hne : ds ≠ [])
    (hds : ∀ c ∈ ds, c.isDigit = true) (hrest : Stops rest) (positive up : Bool)
    (significand : Nat) (exponent : Int) :
    AsDouble rest (exponentDigits positive significand exponent up (ds ++ rest)) := by
  obtain ⟨htake, hdrop⟩ := takeWhile_digits hds hrest.not_digit
  obtain ⟨c, cs, rfl⟩ := List.exists_cons_of_ne_nil hne
  have hc : isDigit c = true := by rw [isDigit_eq, hds c List.mem_cons_self]
  rw [List.cons_append] at htake hdrop ⊢
  rw [exponentDigits, if_pos hc, htake, hdrop]
  dsimp only
  split_ifs
  · exact asDouble_real _ _ _
  · exact asDouble_real _ _ _
  · exact .inl ⟨_, rfl⟩
  · exact .inr ⟨_, rfl⟩

theorem asDouble_exponentPart {sign ds : List Char} (hsign : sign ∈ [[], ['+'], ['-']])
    (hne : ds ≠ []) (hds : ∀ c ∈ ds, c.isDigit = true) (hrest : Stops rest) (positive : Bool)
    (significand : Nat) (exponent : Int) :
    AsDouble rest (exponentPart positive significand exponent (sign ++ (ds ++ rest))) := by
  have hdigits := asDouble_exponentDigits hne hds hrest positive
  simp only [List.mem_cons, List.not_mem_nil, or_false] at hsign
  obtain rfl | rfl | rfl := hsign
  · obtain ⟨c, cs, rfl⟩ := List.exists_cons_of_ne_nil hne
    have hc := hds c List.mem_cons_self
    have hpart : exponentPart positive significand exponent (c :: cs ++ rest)
        = exponentDigits positive significand exponent true (c :: cs ++ rest) := by
      rw [List.cons_append, exponentPart]
      · rintro cs' ⟨⟩
        exact absurd hc (by decide)
      · rintro cs' ⟨⟩
        exact absurd hc (by decide)
    rw [List.nil_append, hpart]
    exact hdigits true significand exponent
  · exact hdigits true significand exponent
  · exact hdigits false significand exponent

/-- What follows the digits of a number, if there is no point. -/
theorem asDouble_exponent {exponent : List Char} (h : Exponent exponent) (hrest : Stops rest)
    (positive : Bool) (n : Nat) (e : Int) :
    AsDouble rest (match exponent ++ rest with
      | 'e' :: rest | 'E' :: rest => exponentPart positive n e rest
      | rest => real positive n e rest) := by
  cases h with
  | none =>
    rw [List.nil_append]
    split
    · exact absurd rfl (hrest _ rfl).2.2.1
    · exact absurd rfl (hrest _ rfl).2.2.2
    · exact asDouble_real _ _ _
  | some he hsign hne hds =>
    rw [List.cons_append, List.append_assoc]
    obtain rfl | rfl := he <;> exact asDouble_exponentPart hsign hne hds hrest _ _ _

theorem head?_exponent {exponent : List Char} (h : Exponent exponent) (hrest : Stops rest) :
    ∀ c, (exponent ++ rest).head? = some c → c.isDigit = false ∧ c ≠ '.' := by
  intro c hc
  cases h with
  | none => exact ⟨(hrest c hc).1, (hrest c hc).2.1⟩
  | some he =>
    obtain rfl : _ = c := Option.some.inj hc
    obtain rfl | rfl := he <;> decide

theorem asDouble_fractionPart {ds exponent : List Char} (hne : ds ≠ [])
    (hds : ∀ c ∈ ds, c.isDigit = true) (h : Exponent exponent) (hrest : Stops rest)
    (positive : Bool) (n : Nat) (e : Int) :
    AsDouble rest (fractionPart positive n e (ds ++ (exponent ++ rest))) := by
  obtain ⟨htake, hdrop⟩ := takeWhile_digits hds fun c hc => (head?_exponent h hrest c hc).1
  have hsome : ds.isEmpty = false := List.isEmpty_eq_false_iff.2 hne
  rw [fractionPart, htake, hdrop]
  simp only [hsome, Bool.false_eq_true, if_false]
  exact asDouble_exponent h hrest _ _ _

/-- The rest of a number of which the digits before the point were taken, with those among them that
are beyond 64 bits left over. -/
def afterWhole (positive : Bool) (n : Nat) (left : List Char) : Reader Number
  | '.' :: rest => fractionPart positive n left.length rest
  | 'e' :: rest | 'E' :: rest => exponentPart positive n left.length rest
  | rest =>
    if left.isEmpty then .ok (integer positive n, rest) else real positive n left.length rest

/-- The digits before the point are taken. -/
theorem number_whole {ds tail : List Char} (hw : Whole ds)
    (htail : ∀ c, tail.head? = some c → c.isDigit = false) (positive : Bool) :
    number positive (ds ++ tail)
      = afterWhole positive (appendDigits 0 ds).1 (appendDigits 0 ds).2 tail := by
  obtain ⟨htake, hdrop⟩ := takeWhile_digits hw.digits htail
  obtain ⟨c, cs, rfl⟩ := List.exists_cons_of_ne_nil hw.ne_nil
  have hc : isDigit c = true := by rw [isDigit_eq, hw.digits c List.mem_cons_self]
  by_cases hzero : c = '0'
  · obtain ⟨rfl, rfl⟩ : c = '0' ∧ cs = [] := by
      have hlead := hw.lead (by rw [hzero]; rfl)
      exact ⟨hzero, (List.cons.inj hlead).2⟩
    have hnext : tail.head?.any isDigit = false := by
      rcases hhead : tail.head? with _ | c
      · rfl
      · simp [isDigit_eq, htail c hhead]
    simp only [List.cons_append, List.nil_append, number, hc, not_true_eq_false, if_false, hnext,
      if_true, Bool.false_eq_true, and_false]
    rfl
  · rw [List.cons_append] at htake hdrop ⊢
    simp only [number, hc, not_true_eq_false, if_false, hzero, false_and, htake, hdrop]
    rfl

/-- A number is read as what it says, unless it is none of the integers. -/
def Read (n : Number) (rest : List Char) (r : Except Fault (Number × List Char)) : Prop :=
  r = .ok (n, rest) ∨ (∃ d, n = .double d) ∧ AsDouble rest r

theorem read_whole {ds : List Char} (hw : Whole ds) (hrest : Stops rest) (positive : Bool)
    {n : Number} (hin : ∀ value, value = Nat.ofDigitChars 10 ds 0 → value ≤ Numeral.maxU64 →
      Read n rest (.ok (integer positive value, rest)))
    (hout : Numeral.maxU64 < Nat.ofDigitChars 10 ds 0 → ∃ d, n = .double d) :
    Read n rest (number positive (ds ++ rest)) := by
  rw [number_whole hw hrest.not_digit]
  unfold afterWhole
  split
  · exact absurd rfl (hrest _ rfl).2.1
  · exact absurd rfl (hrest _ rfl).2.2.1
  · exact absurd rfl (hrest _ rfl).2.2.2
  · by_cases hle : Nat.ofDigitChars 10 ds 0 ≤ Numeral.maxU64
    · rw [appendDigits_of_le hle]
      exact hin _ rfl hle
    · have hlt := Nat.lt_of_not_le hle
      have hleft := appendDigits_of_lt hlt (Nat.zero_le _)
      rw [if_neg (by simpa using hleft)]
      exact .inr ⟨hout hlt, asDouble_real _ _ _⟩

/-- A number with a fraction or an exponent is read as a double. -/
theorem asDouble_number {ds fraction exponent : List Char} (hw : Whole ds)
    (hf : Fraction fraction) (he : Exponent exponent) (hmore : fraction ≠ [] ∨ exponent ≠ [])
    (hrest : Stops rest) (positive : Bool) :
    AsDouble rest (number positive (ds ++ (fraction ++ (exponent ++ rest)))) := by
  cases hf with
  | some hne hds =>
    rw [number_whole hw (by rintro c ⟨⟩; decide)]
    exact asDouble_fractionPart hne hds he hrest _ _ _
  | none =>
    rw [List.nil_append, number_whole hw fun c hc => (head?_exponent he hrest c hc).1]
    cases he with
    | none => simp at hmore
    | some hletter hsign hne hds =>
      rw [List.cons_append, List.append_assoc]
      obtain rfl | rfl := hletter <;> exact asDouble_exponentPart hsign hne hds hrest _ _ _

end Reader

open Reader in
/-- A number is taken after its sign, and nothing behind it. -/
theorem Number.Text.read {n : Number} {cs rest : List Char} (h : n.Text cs) (hrest : Stops rest) :
    ∃ minus c ds, cs = (if minus then ['-'] else []) ++ c :: ds ∧ c.isDigit = true
      ∧ Read n rest (number (!minus) (c :: (ds ++ rest))) := by
  have hfirst : ∀ {ds}, Whole ds → ∀ more, ∃ c ds', ds ++ more = c :: ds' ∧ c.isDigit = true := by
    intro ds hw more
    obtain ⟨c, ds', rfl⟩ := List.exists_cons_of_ne_nil hw.ne_nil
    exact ⟨c, ds' ++ more, rfl, hw.digits c List.mem_cons_self⟩
  cases h with
  | natural hw hle =>
    obtain ⟨c, ds, hcs, hc⟩ := hfirst hw []
    rw [List.append_nil] at hcs
    refine ⟨false, c, ds, hcs, hc, ?_⟩
    rw [← List.cons_append, ← hcs]
    refine read_whole hw hrest true (fun value hvalue _ => ?_) fun hlt => ?_
    · exact .inl (by simp [integer, hvalue])
    · exact absurd hle (Nat.not_le.2 hlt)
  | negative hw hpos hle =>
    obtain ⟨c, ds, hcs, hc⟩ := hfirst hw []
    rw [List.append_nil] at hcs
    refine ⟨true, c, ds, by rw [hcs]; rfl, hc, ?_⟩
    rw [← List.cons_append, ← hcs]
    refine read_whole hw hrest false (fun value hvalue _ => ?_) fun hlt => ?_
    · exact .inl (by simp [integer, hvalue, hpos, hle])
    · exact absurd (hle.trans (by decide)) (Nat.not_le.2 hlt)
  | @double d minus ds fraction exponent hw hf he hout =>
    obtain ⟨c, ds', hcs, hc⟩ := hfirst hw (fraction ++ exponent)
    refine ⟨minus, c, ds', by rw [hcs], hc, ?_⟩
    rw [← List.cons_append, ← hcs]
    by_cases hmore : fraction = [] ∧ exponent = []
    · obtain ⟨rfl, rfl⟩ := hmore
      have hrange := hout rfl rfl
      rw [List.append_nil, List.append_nil]
      refine read_whole hw hrest (!minus) (fun value hvalue hle => ?_) fun _ => ⟨d, rfl⟩
      refine .inr ⟨⟨d, rfl⟩, .inr ?_⟩
      subst hvalue
      cases minus with
      | false => exact absurd hle (Nat.not_le.2 hrange)
      | true =>
        have hno : ¬(0 < Nat.ofDigitChars 10 ds 0
            ∧ Nat.ofDigitChars 10 ds 0 ≤ Numeral.maxI64 + 1) := by
          rintro ⟨hpos, hle'⟩
          obtain hzero | hlt := hrange
          · exact absurd hzero (Nat.ne_of_gt hpos)
          · exact absurd hle' (Nat.not_le.2 hlt)
        exact ⟨_, by rw [integer, Bool.not_true, if_neg Bool.false_ne_true, if_neg hno]⟩
    · rw [List.append_assoc, List.append_assoc]
      exact .inr ⟨⟨d, rfl⟩, asDouble_number hw hf he (by tauto) hrest _⟩

/-! ## Every string and every integer has a spelling -/

theorem exists_hexDigit {n : Nat} (h : n < 16) : ∃ d ∈ hexDigits, d.2 = n := by
  revert n
  decide

theorem exists_literal (s : List Char) : ∃ cs, Literal s cs := by
  induction s with
  | nil => exact ⟨_, .nil⟩
  | cons c s ih =>
    obtain ⟨cs, hcs⟩ := ih
    by_cases hquote : c = '"'
    · subst hquote
      exact ⟨_, .short (show ('"', '"') ∈ shortEscapes by decide) hcs⟩
    by_cases hslash : c = '\\'
    · subst hslash
      exact ⟨_, .short (show ('\\', '\\') ∈ shortEscapes by decide) hcs⟩
    by_cases hcontrol : 0x20 ≤ c.toNat
    · exact ⟨_, .plain hquote hslash hcontrol hcs⟩
    -- a control character has a number below 32
    obtain ⟨a, ha, hhigh⟩ := exists_hexDigit (show c.toNat / 16 < 16 by omega)
    obtain ⟨b, hb, hlow⟩ := exists_hexDigit (show c.toNat % 16 < 16 by omega)
    have hquad : Quad ['0', '0', a.1, b.1] c.toNat :=
      ⟨('0', 0), by decide, ('0', 0), by decide, a, ha, b, hb, rfl, by omega⟩
    have hunit := Literal.unit hquad (.inl (by omega)) hcs
    rw [Char.ofNat_toNat] at hunit
    exact ⟨_, hunit⟩

/-- Digits of a number, in front of which no zero stands. -/
theorem exists_whole (n : Nat) : ∃ ds, Whole ds ∧ Nat.ofDigitChars 10 ds 0 = n := by
  have hdigit : ∀ d < 10, (Nat.digitChar d).isDigit = true
      ∧ (Nat.digitChar d).toNat - '0'.toNat = d ∧ (Nat.digitChar d = '0' → d = 0) := by decide
  induction n using Nat.strongRecOn with
  | ind n ih =>
    obtain ⟨hone, hvalue, hzero⟩ := hdigit (n % 10) (Nat.mod_lt _ (by decide))
    by_cases hsmall : n < 10
    · refine ⟨[Nat.digitChar (n % 10)], ⟨by simp, by simpa using hone, ?_⟩, ?_⟩
      · intro h
        rw [Option.some.inj h]
      · rw [Nat.ofDigitChars_cons, Nat.ofDigitChars_nil, hvalue]
        omega
    · obtain ⟨ds, hw, hds⟩ := ih (n / 10) (by omega)
      refine ⟨ds ++ [Nat.digitChar (n % 10)], ⟨by simp, ?_, fun h => ?_⟩, ?_⟩
      · intro c hc
        obtain hc | hc := List.mem_append.1 hc
        · exact hw.digits c hc
        · rw [List.mem_singleton.1 hc]
          exact hone
      · obtain ⟨c, cs, rfl⟩ := List.exists_cons_of_ne_nil hw.ne_nil
        have hlead := hw.lead h
        rw [hlead] at hds
        exact absurd hds (by simp [Nat.ofDigitChars]; omega)
      · rw [Nat.ofDigitChars_append, hds, Nat.ofDigitChars_cons, Nat.ofDigitChars_nil, hvalue]
        omega

end Collate.Json
