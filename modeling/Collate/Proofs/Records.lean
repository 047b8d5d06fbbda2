import Collate.Proofs.Headers
import Collate.Record

/-!
# What a record describes

A field of a message can come from two places of a record, from the field of that name and from the
headers, and each place has a way of its own to leave it open: a correlation id that is null or
missing, a count of zero, a header that is empty or no numeral. The headers go through the setter in
order of their names, but a dictionary has each name once, so what they leave in a field is a lookup
(`Dictionary.findSome?_rows`), and so are the warnings (`Dictionary.filterMap_rows`). That settles
each field of the message by itself (`Record.describes_message`).
-/

namespace Collate

/-! ## Entries by name -/

theorem Rows.get?_of_lt {α : Type} {rows : List (String × α)} {name : String}
    (h : ∀ row ∈ rows, name < row.1) : get? rows name = none :=
  Option.eq_none_iff_forall_ne_some.2 fun _ hv => String.lt_irrefl _ (h _ (mem_of_get? hv))

namespace Dictionary

variable {α β : Type}

theorem findSome?_rows (d : Dictionary α) (name : String) (f : α → Option β) :
    d.rows.reverse.findSome? (fun e => if e.1 = name then f e.2 else none)
      = (d.get? name).bind f := by
  obtain ⟨rows, hordered⟩ := d
  show _ = (Rows.get? rows name).bind f
  induction rows with
  | nil => rfl
  | cons row rest ih =>
    obtain ⟨hfirst, hrest⟩ := List.pairwise_cons.1 hordered
    rw [List.reverse_cons, List.findSome?_append, ih hrest, Rows.get?]
    by_cases h : row.1 = name
    · simp [h, Rows.get?_of_lt (h ▸ hfirst)]
    · simp [h]

/-- What the entries of some names come to, in the order of the entries, is found name by name. -/
theorem filterMap_rows (d : Dictionary α) {f : String → α → Option β} {names : List String}
    (hnames : names.Pairwise (· < ·)) (hf : ∀ name ∉ names, ∀ value, f name value = none) :
    d.rows.filterMap (fun e => f e.1 e.2)
      = names.filterMap fun name => (d.get? name).bind (f name) := by
  obtain ⟨rows, hordered⟩ := d
  show _ = names.filterMap fun name => (Rows.get? rows name).bind (f name)
  induction rows with
  | nil => simp [Rows.get?]
  | cons row rest ih =>
    obtain ⟨name, value⟩ := row
    obtain ⟨hfirst, hrest⟩ := List.pairwise_cons.1 hordered
    have hother : ∀ other ≠ name, Rows.get? ((name, value) :: rest) other = Rows.get? rest other :=
      fun other hne => by simp [Rows.get?, hne.symm]
    rw [List.filterMap_cons, ih hrest]
    by_cases hname : name ∈ names
    · -- the names before this one have no entry, and the names after it have theirs in the rest
      obtain ⟨before, after, rfl⟩ := List.append_of_mem hname
      obtain ⟨-, hafter, hbefore⟩ := List.pairwise_append.1 hnames
      have hlt : ∀ other ∈ before, other < name := fun other ho =>
        hbefore other ho name List.mem_cons_self
      have hgt : ∀ other ∈ after, name < other := (List.pairwise_cons.1 hafter).1
      have hempty : before.filterMap (fun other => (Rows.get? rest other).bind (f other)) = [] :=
        List.filterMap_eq_nil_iff.2 fun other ho => by
          rw [Rows.get?_of_lt fun row hrow => String.lt_trans (hlt other ho) (hfirst row hrow),
            Option.bind_none]
      have hbefore' : before.filterMap
          (fun other => (Rows.get? ((name, value) :: rest) other).bind (f other)) = [] := by
        rw [← hempty]
        exact List.filterMap_congr fun other ho => by
          rw [hother other fun h => String.lt_irrefl _ (h ▸ hlt other ho)]
      have hafter' : after.filterMap
            (fun other => (Rows.get? ((name, value) :: rest) other).bind (f other))
          = after.filterMap fun other => (Rows.get? rest other).bind (f other) :=
        List.filterMap_congr fun other ho => by
          rw [hother other fun h => String.lt_irrefl _ (h ▸ hgt other ho)]
      have hself : Rows.get? ((name, value) :: rest) name = some value := by simp [Rows.get?]
      simp only [List.filterMap_append, List.filterMap_cons, hempty, hbefore', hafter', hself,
        Rows.get?_of_lt hfirst, Option.bind_none, Option.bind_some]
      cases f name value <;> rfl
    · rw [hf name hname]
      refine List.filterMap_congr fun other ho => ?_
      rw [hother other fun h => hname (h ▸ ho)]

end Dictionary

/-! ## Sequence values -/

namespace Numeral

theorem digit?_eq_some {c : Char} {n : Nat} :
    digit? c = some n ↔ c.isDigit = true ∧ c.toNat - '0'.toNat = n := by
  simp [digit?, Char.isDigit, Char.le_def]

theorem le_ofDigitChars (digits : List Char) (acc : Nat) :
    acc ≤ Nat.ofDigitChars 10 digits acc := by
  rw [Nat.ofDigitChars_eq_ofDigitChars_zero]
  exact le_trans (Nat.le_mul_of_pos_left acc (Nat.pow_pos (by decide))) (Nat.le_add_right _ _)

/-- A limit that the value keeps is kept on the way. -/
theorem value?_eq_some {limit n : Nat} {digits : List Char} {acc : Nat} (h : acc ≤ limit) :
    value? limit acc digits = some n ↔ (∀ c ∈ digits, c.isDigit = true)
      ∧ Nat.ofDigitChars 10 digits acc = n ∧ n ≤ limit := by
  induction digits generalizing acc with
  | nil =>
    simp only [value?, Nat.ofDigitChars_nil, Option.some.injEq]
    exact ⟨fun hn => ⟨by simp, hn, hn ▸ h⟩, fun hn => hn.2.1⟩
  | cons c rest ih =>
    rw [value?, Nat.ofDigitChars_cons, List.forall_mem_cons, Nat.mul_comm 10]
    rcases hdigit : digit? c with _ | d
    · have hc : c.isDigit ≠ true := fun hc =>
        Option.eq_none_iff_forall_ne_some.1 hdigit _ (digit?_eq_some.2 ⟨hc, rfl⟩)
      simp [hc]
    · obtain ⟨hc, rfl⟩ := digit?_eq_some.1 hdigit
      by_cases hle : acc * 10 + (c.toNat - '0'.toNat) ≤ limit
      · simp only [hle, if_true, ih hle, hc, true_and]
      · simp only [hle, if_false, reduceCtorEq, false_iff]
        rintro ⟨-, hn, hlimit⟩
        exact hle ((le_ofDigitChars rest _).trans (hn.trans_le hlimit))

/-- A numeral is digits after at most one plus sign. -/
theorem parse?_eq_some {limit n : Nat} {text : List Char} :
    parse? limit text = some n ↔ ∃ digits ≠ [], (text = digits ∨ text = '+' :: digits)
      ∧ (∀ c ∈ digits, c.isDigit = true) ∧ Nat.ofDigitChars 10 digits 0 = n ∧ n ≤ limit := by
  have hplus : ('+').isDigit ≠ true := by decide
  unfold parse?
  split
  · simp
  · simp only [reduceCtorEq, false_iff]
    rintro ⟨digits, hne, rfl | hd, hdigits, -⟩
    · exact hplus (hdigits _ List.mem_cons_self)
    · exact hne (List.cons.inj hd).2.symm
  · rename_i c rest
    rw [value?_eq_some (Nat.zero_le _)]
    refine ⟨fun h => ⟨c :: rest, by simp, .inr rfl, h⟩, ?_⟩
    rintro ⟨digits, -, rfl | hd, h⟩
    · exact absurd (h.1 _ List.mem_cons_self) hplus
    · cases hd
      exact h
  · rename_i c rest hne hc
    rw [value?_eq_some (Nat.zero_le _)]
    refine ⟨fun h => ⟨c :: rest, by simp, .inl rfl, h⟩, ?_⟩
    rintro ⟨digits, hd, rfl | heq, h⟩
    · exact h
    · obtain ⟨rfl, rfl⟩ := List.cons.inj heq
      obtain ⟨d, digits, rfl⟩ := List.exists_cons_of_ne_nil hd
      exact (hc d digits rfl rfl).elim

end Numeral

/-! ## Records -/

namespace Draft

section

variable (d : Draft) (headers : Dictionary String)

theorem correlationId_setHeaders : (d.setHeaders headers.rows).correlationId
    = ((headers.get? Header.correlationId).map fun value =>
        if value.isEmpty then none else some (Key.mk value)).getD d.correlationId := by
  rw [setHeaders, read_foldl Content.correlationId
      fun d e => congrArg Content.correlationId (setHeader_eq d e.1 e.2),
    Dictionary.findSome?_rows headers Header.correlationId fun value =>
      some (if value.isEmpty then none else some (Key.mk value))]
  cases headers.get? Header.correlationId <;> rfl

theorem sequenceNumber_setHeaders : (d.setHeaders headers.rows).sequenceNumber
    = ((headers.get? Header.sequenceNumber).bind sequenceValue?).getD d.sequenceNumber := by
  rw [setHeaders, read_foldl Content.sequenceNumber
      fun d e => congrArg Content.sequenceNumber (setHeader_eq d e.1 e.2),
    Dictionary.findSome?_rows headers Header.sequenceNumber sequenceValue?]

theorem sequenceSize_setHeaders : (d.setHeaders headers.rows).sequenceSize
    = ((headers.get? Header.sequenceSize).bind sequenceValue?).getD d.sequenceSize := by
  rw [setHeaders, read_foldl Content.sequenceSize
      fun d e => congrArg Content.sequenceSize (setHeader_eq d e.1 e.2),
    Dictionary.findSome?_rows headers Header.sequenceSize sequenceValue?]

theorem get?_custom_setHeaders (name : String) : (d.setHeaders headers.rows).custom.get? name
    = ((headers.get? name).bind fun value =>
        if name ∈ Header.wellKnown then none else some (some value)).getD (d.custom.get? name) := by
  have hwrite : ∀ (d : Draft) (e : String × String), (d.setHeader e.1 e.2).custom.get? name
      = (if e.1 = name then if name ∈ Header.wellKnown then none else some (some e.2)
          else none).getD (d.custom.get? name) := fun d e => by
    rw [setHeader_eq]
    by_cases he : e.1 = name
    · by_cases hname : name ∈ Header.wellKnown <;> simp [he, hname]
    · split_ifs <;> simp [he]
  rw [setHeaders, read_foldl (fun d : Draft => d.custom.get? name) hwrite,
    Dictionary.findSome?_rows headers name fun value =>
      if name ∈ Header.wellKnown then none else some (some value)]

theorem warnings_rows : warnings headers.rows
    = [Header.sequenceNumber, Header.sequenceSize].filterMap fun name =>
        (headers.get? name).bind fun value => if sequenceValue? value = none then
          some ⟨.warn, .draft, s!"Ignoring header {name}: '{value}' is not a sequence value"⟩
        else none := by
  have hplain : ∀ name ∉ [Header.sequenceNumber, Header.sequenceSize], ∀ value,
      warning? name value = none := fun name hname value =>
    if_neg fun h => hname (by simpa using h.1)
  rw [warnings, headers.filterMap_rows (by decide) hplain]
  refine List.filterMap_congr fun name hname => ?_
  cases headers.get? name with
  | none => rfl
  | some value => simp_all [warning?]

end

end Draft

namespace Record

variable (r : Record)

/-- The text of the correlation id: the one that is given outright, unless it is null, else the one
among the headers, unless it is empty. -/
def keyText? : Option String :=
  match r.correlationId with
  | none | some .null => (r.headers.get? Header.correlationId).filter (· ≠ "")
  | some (.string text) => some text
  | some value => some value.text

/-- A count that is given outright, unless it is zero, else the one among the headers, unless that
is no sequence value. -/
def count (outright : Nat) (name : String) : Nat :=
  if 0 < outright then outright else ((r.headers.get? name).bind Draft.sequenceValue?).getD 0

/-- What a record says a message has in it. -/
structure Describes (c : Content) : Prop where
  correlationId : c.correlationId = r.keyText?.map Key.mk
  sequenceNumber : c.sequenceNumber = r.count r.sequenceNumber Header.sequenceNumber
  sequenceSize : c.sequenceSize = r.count r.sequenceSize Header.sequenceSize
  custom : ∀ name, c.custom.get? name
    = if name ∈ Header.wellKnown then none else r.headers.get? name
  payload : c.payload = match r.payload with
    | .string text => .text text
    | .null => .null
    | value => .value value

theorem draft_eq : r.draft
    = { (Draft.ofPayload (.ofJson r.payload)).setHeaders r.headers.rows with
        correlationId := (r.correlationId.bind key?).or
          ((Draft.ofPayload (.ofJson r.payload)).setHeaders r.headers.rows).correlationId
        sequenceNumber := if 0 < r.sequenceNumber then r.sequenceNumber else
          ((Draft.ofPayload (.ofJson r.payload)).setHeaders r.headers.rows).sequenceNumber
        sequenceSize := if 0 < r.sequenceSize then r.sequenceSize else
          ((Draft.ofPayload (.ofJson r.payload)).setHeaders r.headers.rows).sequenceSize } := by
  unfold draft
  cases r.correlationId.bind key? <;> split_ifs <;> rfl

theorem describes_draft : r.Describes r.draft := by
  rw [draft_eq]
  refine ⟨?_, ?_, ?_, fun name => ?_, ?_⟩
  · have hheader : ((Draft.ofPayload (.ofJson r.payload)).setHeaders r.headers.rows).correlationId
        = ((r.headers.get? Header.correlationId).filter (· ≠ "")).map Key.mk := by
      rw [Draft.correlationId_setHeaders]
      cases r.headers.get? Header.correlationId with
      | none => rfl
      | some text => by_cases h : text = "" <;> simp [h, String.isEmpty_iff, Option.filter]
    simp only [hheader, keyText?]
    rcases r.correlationId with _ | value
    · rfl
    · cases value <;> rfl
  · simp only [Draft.sequenceNumber_setHeaders]
    rfl
  · simp only [Draft.sequenceSize_setHeaders]
    rfl
  · simp only [Draft.get?_custom_setHeaders]
    by_cases hname : name ∈ Header.wellKnown <;>
      cases r.headers.get? name <;> simp [hname, Draft.ofPayload]
  · simp only [Draft.payload_setHeaders]
    show Payload.ofJson r.payload = _
    cases r.payload <;> rfl

/-- A message has in it what its record describes, where a sequence value is a numeral of 32 bits
between blanks; there is one warning for each sequence field among the headers that is no sequence
value; and the message is correlated by its id unless that is empty. -/
theorem describes_message (id : MessageId) :
    r.Describes (r.draft.finish id).content
    ∧ (∀ text n, Draft.sequenceValue? text = some n ↔ ∃ digits ≠ [],
        (Text.trim text.toList = digits ∨ Text.trim text.toList = '+' :: digits)
        ∧ (∀ c ∈ digits, c.isDigit = true) ∧ Nat.ofDigitChars 10 digits 0 = n
        ∧ n ≤ Numeral.maxU32)
    ∧ r.warnings = [Header.sequenceNumber, Header.sequenceSize].filterMap (fun name =>
        (r.headers.get? name).bind fun value => if Draft.sequenceValue? value = none then
          some ⟨.warn, .draft, s!"Ignoring header {name}: '{value}' is not a sequence value"⟩
        else none)
    ∧ ∀ key, Correlation.byHeader Header.correlationId (r.draft.finish id) = some key
        ↔ r.keyText? = some key.text ∧ key.text ≠ "" := by
  have hdraft := r.describes_draft
  refine ⟨hdraft, fun text n => Numeral.parse?_eq_some, Draft.warnings_rows r.headers,
    fun key => ?_⟩
  have hread : (r.draft.finish id).header? Header.correlationId = r.keyText? := by
    show Content.header? r.draft Header.correlationId = _
    rw [Content.header?_correlationId, hdraft.correlationId, Option.map_map]
    cases r.keyText? <;> rfl
  rw [Correlation.byHeader_eq_some, hread, Bool.eq_false_iff, ne_eq, String.isEmpty_iff]

end Record

end Collate
