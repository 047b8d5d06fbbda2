import Collate.Proofs.Aggregates
import Collate.Proofs.Grammar

/-!
# Reading records

A record is written as an object of some of its five fields, in any order. Each field has a reader
of its own, which takes a written value that suits the field and refuses any other
(`Reader.optional_takes`, `Reader.natural_takes`, `Reader.texts_takes`). What has been read so far
is the record with nothing but the fields seen (`Record.only`), so reading an object field by field
comes to the record that it was written from, or to nothing if the object is none of a record
(`Record.namedWith_takes`). Both hold of whole texts (`Record.parse_object`).
-/

namespace Collate

namespace Json

/-- An object of strings. -/
def Value.ofTexts (texts : List (String × String)) : Value :=
  .object (texts.map fun t => (t.1, .string t.2))

theorem Value.object_cons_eq_ofTexts {name : String} {v : Value} {fields : List (String × Value)}
    {texts : List (String × String)} (h : Value.object ((name, v) :: fields) = .ofTexts texts) :
    (∃ s, v = .string s) ∧ ∃ texts', Value.object fields = .ofTexts texts' := by
  cases texts with
  | nil => cases h
  | cons t texts =>
    cases h
    exact ⟨⟨t.2, rfl⟩, texts, rfl⟩

theorem Value.ofTexts_inj {texts texts' : List (String × String)}
    (h : Value.ofTexts texts = .ofTexts texts') : texts = texts' := by
  refine List.map_injective_iff.2 ?_ (Value.object.inj h)
  rintro ⟨name, s⟩ ⟨name', s'⟩ heq
  cases heq
  rfl

namespace Reader

/-! ## Values of one kind -/

theorem refuse_fails {α : Type} (cs : List Char) :
    ∃ f, (refuse cs : Except Fault (α × List Char)) = .error f := by
  unfold refuse
  split
  · exact ⟨_, rfl⟩
  · exact ⟨_, rfl⟩
  · exact ⟨_, rfl⟩
  · split
    · exact ⟨_, rfl⟩
    · exact ⟨_, rfl⟩

theorem refuse_takes {α : Type} {must : Prop} {good : α → Prop} {rest : List Char} (h : ¬must)
    (cs : List Char) : Takes must good rest (refuse cs) := by
  obtain ⟨f, hf⟩ := refuse_fails (α := α) cs
  rw [hf]
  exact h

variable {must : Prop} {depth : Nat} {v : Value} {ws cs rest : List Char}

theorem optional_takes (hws : Blank ws) (h : Writes (.value v) cs) (hrest : Stops rest)
    (hplain : must → v.Plain depth) :
    Takes must (fun o => must → (v = .null → o = none) ∧ (v ≠ .null → o = some v.sorted)) rest
      (optional (value depth) (ws ++ (cs ++ rest))) := by
  have hnone : Blank [] := by simp [Blank]
  have hvalue := value_takes hnone h hrest hplain
  obtain ⟨c, cs', rfl, hc⟩ := h.begins
  rw [optional, List.cons_append, skip_blank_cons hws hc.solid]
  split
  · rename_i tail heq
    obtain ⟨rfl, rfl⟩ := List.cons.inj heq
    obtain rfl := hc.null.1 rfl
    cases h with
    | null => exact .of_eq rfl fun _ => ⟨fun _ => rfl, fun hne => absurd rfl hne⟩
  · rename_i hne
    refine hvalue.map fun v' hv' he => ⟨fun hnull => ?_, fun _ => congrArg some (hv' he)⟩
    obtain rfl := hc.null.2 hnull
    exact (hne _ rfl).elim

theorem string_takes (hws : Blank ws) (h : Writes (.value v) cs) :
    Takes (∃ s, v = .string s) (v = .string ·) rest (string (ws ++ (cs ++ rest))) := by
  obtain ⟨c, cs', rfl, hc⟩ := h.begins
  rw [string, List.cons_append, skip_blank_cons hws hc.solid]
  split
  · rename_i tail heq
    obtain ⟨rfl, rfl⟩ := List.cons.inj heq
    obtain ⟨s, rfl⟩ := hc.string.1 rfl
    cases h with
    | @string s cs hs =>
      rw [List.append_assoc]
      exact .of_eq (afterQuote_literal hs rest) rfl
  · rename_i hne
    refine refuse_takes (fun hs => ?_) _
    obtain rfl := hc.string.2 hs
    exact hne _ rfl

/-- A number that is asked for is taken after its sign, and has to be a natural one. -/
theorem natural_sign {limit : Nat} {c : Char} (hws : Blank ws) (hc : c.isDigit = true)
    (minus : Bool) (tail : List Char) :
    natural limit (ws ++ ((if minus then ['-'] else []) ++ c :: tail))
      = match number (!minus) (c :: tail) with
        | .error f => .error f
        | .ok (.natural n, left) => if n ≤ limit then .ok (n, left) else .error .mismatch
        | .ok _ => .error .mismatch := by
  cases minus with
  | true =>
    rw [natural, if_pos rfl, List.singleton_append, skip_blank_cons hws rfl]
    rfl
  | false =>
    rw [natural, if_neg Bool.false_ne_true, List.nil_append, skip_blank_cons hws (isSpace_digit hc)]
    dsimp only
    split
    · rename_i heq
      obtain ⟨rfl, -⟩ := List.cons.inj heq
      exact absurd hc (by decide)
    · rename_i heq
      obtain ⟨rfl, rfl⟩ := List.cons.inj heq
      rw [isDigit_eq, if_pos hc]
      rfl
    · rename_i heq
      cases heq

theorem natural_takes {limit : Nat} (hws : Blank ws) (h : Writes (.value v) cs)
    (hrest : Stops rest) :
    Takes (∃ n ≤ limit, v = .nat n) (fun n => n ≤ limit ∧ v = .nat n) rest
      (natural limit (ws ++ (cs ++ rest))) := by
  by_cases hnumber : ∃ n, v = .number n
  · obtain ⟨n, rfl⟩ := hnumber
    cases h with
    | number hn =>
      obtain ⟨minus, c, ds, rfl, hc, hread⟩ := hn.read hrest
      rw [List.append_assoc, List.cons_append, natural_sign hws hc]
      obtain heq | ⟨⟨d, rfl⟩, ⟨f, heq⟩ | ⟨d', heq⟩⟩ := hread <;> rw [heq]
      · cases n with
        | natural k =>
          dsimp only
          split_ifs with hle
          · exact ⟨rfl, hle, rfl⟩
          · rintro ⟨m, hm, hv⟩
            cases hv
            exact hle hm
        | negative k => exact fun ⟨_, _, hv⟩ => by cases hv
        | double d => exact fun ⟨_, _, hv⟩ => by cases hv
      · exact fun ⟨_, _, hv⟩ => by cases hv
      · exact fun ⟨_, _, hv⟩ => by cases hv
  · obtain ⟨c, cs', rfl, hc⟩ := h.begins
    have hno : ¬(c = '-' ∨ c.isDigit = true) := fun hd => hnumber (hc.number.1 hd)
    obtain ⟨hminus, hdigit⟩ := not_or.1 hno
    rw [natural, List.cons_append, skip_blank_cons hws hc.solid]
    dsimp only
    split
    · rename_i heq
      exact absurd (List.cons.inj heq).1 hminus
    · rename_i heq
      obtain ⟨rfl, rfl⟩ := List.cons.inj heq
      rw [isDigit_eq, if_neg hdigit]
      exact refuse_takes (fun ⟨n, _, hv⟩ => hnumber ⟨_, hv⟩) _
    · rename_i heq
      cases heq

/-! ## Objects -/

theorem textsWith_more {first : Bool} {fuel : Nat} {name : String} {lead ns tail : List Char}
    {done : Dictionary String} (hlead : Lead first lead) (hname : Literal name.toList ns)
    (hws : Blank ws) :
    textsWith (fuel + 1) first done (lead ++ '"' :: (ns ++ '"' :: (ws ++ ':' :: tail)))
      = string.andThen (fun s => textsWith fuel false (done.insert name s)) tail := by
  rw [textsWith, moreNames_lead hlead]
  dsimp only
  rw [Reader.andThen, name_literal hname]
  dsimp only
  rw [Reader.andThen, colon_blank hws, Reader.andThen]
  dsimp only
  rw [Reader.map, Reader.andThen]
  rcases string tail with f | ⟨s, left⟩ <;> rfl

theorem textsWith_takes {fields : List (String × Value)} {first : Bool} {fuel : Nat}
    (h : Writes (.fields first fields) cs) (hfuel : cs.length < fuel) (done : Dictionary String) :
    Takes (∃ ts, Value.object fields = .ofTexts ts)
      (fun d => ∃ ts, Value.object fields = .ofTexts ts
        ∧ d = ts.foldl (fun d t => d.insert t.1 t.2) done)
      rest (textsWith fuel first done (cs ++ '\x7d' :: rest)) := by
  induction fields generalizing first cs done fuel with
  | nil =>
    obtain ⟨fuel, rfl⟩ := Nat.exists_eq_succ_of_ne_zero (Nat.ne_zero_of_lt hfuel)
    cases h with
    | noFields hws =>
      rw [textsWith, moreNames_close hws]
      exact .of_eq rfl ⟨[], rfl, rfl⟩
  | cons f fields ih =>
    obtain ⟨fuel, rfl⟩ := Nat.exists_eq_succ_of_ne_zero (Nat.ne_zero_of_lt hfuel)
    cases h with
    | @field _ lead name ns ws ws' v cs _ more hlead hname hws hws' hv hmore =>
      simp only [List.append_assoc, List.cons_append]
      rw [textsWith_more hlead hname hws]
      have hstring : Takes (∃ ts, Value.object ((name, v) :: fields) = .ofTexts ts) (v = .string ·)
          (more ++ '\x7d' :: rest) (string (ws' ++ (cs ++ (more ++ '\x7d' :: rest)))) :=
        (string_takes hws' hv).weaken fun ⟨_, hts⟩ => (Value.object_cons_eq_ofTexts hts).1
      simp only [List.length_append, List.length_cons] at hfuel
      refine hstring.andThen fun s hs => ?_
      subst hs
      have hmust : (∃ ts, Value.object ((name, .string s) :: fields) = .ofTexts ts) →
          ∃ ts, Value.object fields = .ofTexts ts := fun ⟨_, hts⟩ =>
        (Value.object_cons_eq_ofTexts hts).2
      refine ((ih hmore (by omega) (done.insert name s)).weaken hmust).imp ?_
      rintro d ⟨ts, hts, rfl⟩
      refine ⟨(name, s) :: ts, ?_, rfl⟩
      rw [Value.object.inj hts]
      rfl

theorem texts_takes (hws : Blank ws) (h : Writes (.value v) cs) (hdepth : 0 < depth) :
    Takes (∃ ts, v = .ofTexts ts) (fun d => ∃ ts, v = .ofTexts ts ∧ d = .ofList ts) rest
      (texts depth (ws ++ (cs ++ rest))) := by
  obtain ⟨c, cs', rfl, hc⟩ := h.begins
  rw [texts, List.cons_append, skip_blank_cons hws hc.solid]
  split
  · rename_i tail heq
    obtain ⟨rfl, rfl⟩ := List.cons.inj heq
    obtain ⟨fields, rfl⟩ := hc.object.1 rfl
    cases h with
    | @object fields cs hfields =>
      rw [if_neg (Nat.ne_of_gt hdepth), List.append_assoc]
      exact textsWith_takes hfields (by simp only [enough, List.length_append]; omega) .empty
  · rename_i hne
    refine refuse_takes ?_ _
    rintro ⟨ts, hts⟩
    obtain rfl := hc.object.2 ⟨_, hts⟩
    exact hne _ rfl

end Reader

end Json

namespace Record

open Json

/-! ## Fields -/

inductive Field where
  | correlationId
  | sequenceNumber
  | sequenceSize
  | payload
  | headers
  deriving DecidableEq

namespace Field

def name : Field → String
  | correlationId => "correlation_id"
  | sequenceNumber => "sequence_number"
  | sequenceSize => "sequence_size"
  | payload => "payload"
  | headers => "headers"

/-- The values that a field may be given. -/
def Suits : Field → Value → Prop
  | correlationId, _ => True
  | sequenceNumber, v => ∃ n ≤ Numeral.maxU32, v = .nat n
  | sequenceSize, v => ∃ n ≤ Numeral.maxU32, v = .nat n
  | payload, _ => True
  | headers, v => ∃ texts, v = .ofTexts texts

theorem name_inj {a b : Field} (h : a.name = b.name) : a = b := by
  revert h
  cases a <;> cases b <;> decide

end Field

/-- How many containers may be open in a value of a field. -/
def fieldDepth : Nat := maxDepth - 1

/-- Fields of a record, none of them twice or seen before, with values that fit. -/
structure Entries (Fits : Field → Value → Prop) (seen : List String)
    (fields : List (String × Value)) : Prop where
  nodup : (fields.map Prod.fst).Nodup
  fresh : ∀ f ∈ fields, f.1 ∉ seen
  fits : ∀ f ∈ fields, ∃ field : Field, field.name = f.1 ∧ Fits field f.2

theorem entries_nil (Fits : Field → Value → Prop) (seen : List String) : Entries Fits seen [] :=
  ⟨List.nodup_nil, by simp, by simp⟩

theorem entries_cons {Fits : Field → Value → Prop} {seen : List String} {field : Field} {v : Value}
    {fields : List (String × Value)} : Entries Fits seen ((field.name, v) :: fields)
      ↔ field.name ∉ seen ∧ Fits field v ∧ Entries Fits (field.name :: seen) fields := by
  constructor
  · rintro ⟨hnodup, hfresh, hfits⟩
    obtain ⟨hnew, hrest⟩ := List.nodup_cons.1 hnodup
    obtain ⟨field', hname, hv⟩ := hfits _ List.mem_cons_self
    obtain rfl := Field.name_inj hname
    refine ⟨hfresh _ List.mem_cons_self, hv, hrest, fun f hf => ?_,
      fun f hf => hfits f (List.mem_cons_of_mem _ hf)⟩
    refine List.not_mem_cons_of_ne_of_not_mem ?_ (hfresh f (List.mem_cons_of_mem _ hf))
    exact fun heq => hnew (List.mem_map.2 ⟨f, hf, heq⟩)
  · rintro ⟨hseen, hv, hnodup, hfresh, hfits⟩
    refine ⟨List.nodup_cons.2 ⟨fun hmem => ?_, hnodup⟩, ?_, ?_⟩
    · obtain ⟨f, hf, heq⟩ := List.mem_map.1 hmem
      exact hfresh f hf (heq ▸ List.mem_cons_self)
    · rintro f (_ | ⟨_, hf⟩)
      · exact hseen
      · exact List.not_mem_of_not_mem_cons (hfresh f hf)
    · rintro f (_ | ⟨_, hf⟩)
      · exact ⟨field, rfl, hv⟩
      · exact hfits f hf

variable (r : Record)

/-- The values that stand for a field of a record. -/
def Spells : Field → Value → Prop
  | .correlationId, v => v.Plain fieldDepth ∧ (v = .null → r.correlationId = none)
      ∧ (v ≠ .null → r.correlationId = some v.sorted)
  | .sequenceNumber, v => v = .nat r.sequenceNumber ∧ r.sequenceNumber ≤ Numeral.maxU32
  | .sequenceSize, v => v = .nat r.sequenceSize ∧ r.sequenceSize ≤ Numeral.maxU32
  | .payload, v => v.Plain fieldDepth ∧ r.payload = v.sorted
  | .headers, v => ∃ texts, v = .ofTexts texts ∧ r.headers = .ofList texts

/-- A field of a record is as it is when nothing is said about it. -/
def Omits : Field → Prop
  | .correlationId => r.correlationId = none
  | .sequenceNumber => r.sequenceNumber = 0
  | .sequenceSize => r.sequenceSize = 0
  | .payload => r.payload = .null
  | .headers => r.headers = .empty

/-- A record with nothing but the fields of these names. -/
def only (names : List String) : Record where
  correlationId := if Field.correlationId.name ∈ names then r.correlationId else none
  sequenceNumber := if Field.sequenceNumber.name ∈ names then r.sequenceNumber else 0
  sequenceSize := if Field.sequenceSize.name ∈ names then r.sequenceSize else 0
  payload := if Field.payload.name ∈ names then r.payload else .null
  headers := if Field.headers.name ∈ names then r.headers else .empty

variable {r}

theorem only_nil : r.only [] = blank := by
  simp [only, blank]

theorem only_eq {names : List String} (h : ∀ field : Field, field.name ∉ names → r.Omits field) :
    r.only names = r := by
  have hcorrelationId := h .correlationId
  have hsequenceNumber := h .sequenceNumber
  have hsequenceSize := h .sequenceSize
  have hpayload := h .payload
  have hheaders := h .headers
  simp only [Omits] at hcorrelationId hsequenceNumber hsequenceSize hpayload hheaders
  obtain ⟨correlationId, sequenceNumber, sequenceSize, payload, headers⟩ := r
  simp only [only, mk.injEq, ite_eq_left_iff]
  exact ⟨fun hn => (hcorrelationId hn).symm, fun hn => (hsequenceNumber hn).symm,
    fun hn => (hsequenceSize hn).symm, fun hn => (hpayload hn).symm, fun hn => (hheaders hn).symm⟩

theorem only_congr {names names' : List String} (h : ∀ name, name ∈ names ↔ name ∈ names') :
    r.only names = r.only names' := by
  simp only [only, h]

theorem only_cons (field : Field) (names : List String) :
    r.only (field.name :: names) = match field with
      | .correlationId => { r.only names with correlationId := r.correlationId }
      | .sequenceNumber => { r.only names with sequenceNumber := r.sequenceNumber }
      | .sequenceSize => { r.only names with sequenceSize := r.sequenceSize }
      | .payload => { r.only names with payload := r.payload }
      | .headers => { r.only names with headers := r.headers } := by
  cases field <;>
    simp only [only, List.mem_cons, Field.name, true_or, if_true, String.reduceEq, false_or] <;>
    congr

/-! ## Reading them -/

open Reader

theorem exists_field {name : String} {slot : Slot Record}
    (h : slots.find? (fun slot => slot.name == name) = some slot) :
    ∃ field : Field, field.name = name := by
  have hname := List.find?_some h
  simp only [beq_iff_eq] at hname
  subst hname
  have hmem := List.mem_of_find?_eq_some h
  simp only [slots, List.mem_cons, List.not_mem_nil, or_false] at hmem
  obtain rfl | rfl | rfl | rfl | rfl := hmem
  exacts [⟨.correlationId, rfl⟩, ⟨.sequenceNumber, rfl⟩, ⟨.sequenceSize, rfl⟩, ⟨.payload, rfl⟩,
    ⟨.headers, rfl⟩]

theorem find?_slots_ne_none (field : Field) :
    slots.find? (fun slot => slot.name == field.name) ≠ none := by
  cases field <;> simp [slots, Field.name]

variable {v : Value} {ws cs rest : List Char} {must : Prop} {s : Record} {seen : List String}

/-- A field takes a value that suits it and no other, and puts in what the value stands for. -/
theorem slot_takes (field : Field) {slot : Slot Record}
    (hslot : slots.find? (fun slot => slot.name == field.name) = some slot) (hws : Blank ws)
    (h : Writes (.value v) cs) (hrest : Stops rest)
    (hmust : must → s = r.only seen ∧ r.Spells field v) :
    Takes must (fun s' => (must → s' = r.only (field.name :: seen)) ∧ field.Suits v) rest
      (slot.read fieldDepth s (ws ++ (cs ++ rest))) := by
  rw [only_cons]
  cases field with
  | correlationId =>
    cases hslot
    refine (optional_takes hws h hrest fun he => (hmust he).2.1).map fun o ho =>
      ⟨fun he => ?_, trivial⟩
    obtain ⟨rfl, -, hnull, hvalue⟩ := hmust he
    have hsaid : o = r.correlationId := by
      by_cases hv : v = .null
      · rw [(ho he).1 hv, hnull hv]
      · rw [(ho he).2 hv, hvalue hv]
    rw [hsaid]
  | sequenceNumber =>
    cases hslot
    have hnatural := (natural_takes hws h hrest).weaken fun he =>
      ⟨r.sequenceNumber, (hmust he).2.2, (hmust he).2.1⟩
    refine hnatural.map fun n hn => ⟨fun he => ?_, n, hn⟩
    obtain ⟨rfl, hv, -⟩ := hmust he
    cases hn.2.symm.trans hv
    rfl
  | sequenceSize =>
    cases hslot
    have hnatural := (natural_takes hws h hrest).weaken fun he =>
      ⟨r.sequenceSize, (hmust he).2.2, (hmust he).2.1⟩
    refine hnatural.map fun n hn => ⟨fun he => ?_, n, hn⟩
    obtain ⟨rfl, hv, -⟩ := hmust he
    cases hn.2.symm.trans hv
    rfl
  | payload =>
    cases hslot
    refine (value_takes hws h hrest fun he => (hmust he).2.1).map fun v' hv' =>
      ⟨fun he => ?_, trivial⟩
    obtain ⟨rfl, -, hpayload⟩ := hmust he
    rw [hv' he, hpayload]
  | headers =>
    cases hslot
    have hobject : must → ∃ texts, v = .ofTexts texts := fun he => by
      obtain ⟨-, texts, hv, -⟩ := hmust he
      exact ⟨texts, hv⟩
    have hdepth : 0 < fieldDepth := by decide
    refine ((texts_takes hws h hdepth).weaken hobject).map ?_
    rintro d ⟨texts, rfl, rfl⟩
    refine ⟨fun he => ?_, texts, rfl⟩
    obtain ⟨rfl, texts', hv, hheaders⟩ := hmust he
    rw [hheaders, Value.ofTexts_inj hv]

theorem namedWith_unknown {fuel : Nat} {first : Bool} {name : String} {lead ns tail : List Char}
    (hlead : Lead first lead) (hname : Literal name.toList ns)
    (hslot : slots.find? (fun slot => slot.name == name) = none) :
    namedWith slots fieldDepth (fuel + 1) first seen s (lead ++ '"' :: (ns ++ '"' :: tail))
      = .error .mismatch := by
  rw [namedWith, moreNames_lead hlead]
  dsimp only
  rw [name_literal hname]
  dsimp only
  rw [hslot]

theorem namedWith_more {fuel : Nat} {first : Bool} {name : String} {lead ns tail : List Char}
    {slot : Slot Record} (hlead : Lead first lead) (hname : Literal name.toList ns) (hws : Blank ws)
    (hslot : slots.find? (fun slot => slot.name == name) = some slot) :
    namedWith slots fieldDepth (fuel + 1) first seen s
        (lead ++ '"' :: (ns ++ '"' :: (ws ++ ':' :: tail)))
      = if name ∈ seen then .error .mismatch else
        (slot.read fieldDepth s).andThen
          (fun s => namedWith slots fieldDepth fuel false (name :: seen) s) tail := by
  rw [namedWith, moreNames_lead hlead]
  dsimp only
  rw [name_literal hname]
  dsimp only
  rw [hslot]
  dsimp only
  rw [Reader.andThen, colon_blank hws, Reader.andThen]

/-- The fields that are left go to a record one by one. They must be taken if they are fields of a
record of which the others have been seen, and then come to this record. -/
theorem namedWith_takes {fields : List (String × Value)} {first : Bool} {fuel : Nat}
    (h : Writes (.fields first fields) cs) (hfuel : cs.length < fuel)
    (hmust : must → s = r.only seen ∧ r.only (fields.map Prod.fst ++ seen) = r
      ∧ Entries r.Spells seen fields) :
    Takes must (fun s' => (must → s' = r) ∧ Entries Field.Suits seen fields) rest
      (namedWith slots fieldDepth fuel first seen s (cs ++ '\x7d' :: rest)) := by
  induction fields generalizing first cs seen s fuel with
  | nil =>
    obtain ⟨fuel, rfl⟩ := Nat.exists_eq_succ_of_ne_zero (Nat.ne_zero_of_lt hfuel)
    cases h with
    | noFields hws =>
      rw [namedWith, moreNames_close hws]
      refine .of_eq rfl ⟨fun he => ?_, entries_nil _ _⟩
      obtain ⟨rfl, hall, -⟩ := hmust he
      exact hall
  | cons f fields ih =>
    obtain ⟨fuel, rfl⟩ := Nat.exists_eq_succ_of_ne_zero (Nat.ne_zero_of_lt hfuel)
    cases h with
    | @field _ lead name ns ws ws' v cs _ more hlead hname hws hws' hv hmore =>
      simp only [List.append_assoc, List.cons_append]
      simp only [List.length_append, List.length_cons] at hfuel
      cases hslot : slots.find? (fun slot => slot.name == name) with
      | none =>
        rw [namedWith_unknown hlead hname hslot]
        intro he
        obtain ⟨-, -, hentries⟩ := hmust he
        obtain ⟨field, hfield, -⟩ := hentries.fits _ List.mem_cons_self
        exact find?_slots_ne_none field (hfield ▸ hslot)
      | some slot =>
        obtain ⟨field, rfl⟩ := exists_field hslot
        have hentries : must → field.name ∉ seen ∧ r.Spells field v
            ∧ Entries r.Spells (field.name :: seen) fields := fun he =>
          entries_cons.1 (hmust he).2.2
        rw [namedWith_more hlead hname hws hslot]
        split_ifs with hseen
        · exact fun he => (hentries he).1 hseen
        have hvalue := slot_takes field hslot hws' hv (hmore.stops_fields rest) fun he =>
          ⟨(hmust he).1, (hentries he).2.1⟩
        refine hvalue.andThen fun s' hs' => (ih hmore (by omega) fun he => ?_).imp fun s'' hs'' =>
          ⟨hs''.1, entries_cons.2 ⟨hseen, hs'.2, hs''.2⟩⟩
        refine ⟨hs'.1 he, ?_, (hentries he).2.2⟩
        -- the names are the same as before, only one of them has been seen since
        have hnames : ∀ name, name ∈ fields.map Prod.fst ++ field.name :: seen
            ↔ name ∈ ((field.name, v) :: fields).map Prod.fst ++ seen := fun name => by
          simp only [List.mem_append, List.mem_cons, List.map_cons]
          tauto
        exact (only_congr hnames).trans (hmust he).2.1

/-! ## Texts of records -/

variable (r) in
/-- The fields that a record is written with. What it leaves out is as when nothing is said. -/
structure Written (fields : List (String × Value)) : Prop where
  nodup : (fields.map Prod.fst).Nodup
  spells : ∀ f ∈ fields, ∃ field : Field, field.name = f.1 ∧ r.Spells field f.2
  omits : ∀ field : Field, field.name ∉ fields.map Prod.fst → r.Omits field

/-- Fields that are not those of a record. -/
inductive Faulty (fields : List (String × Value)) : Prop
  | unknown {name v} : (name, v) ∈ fields → (∀ field : Field, field.name ≠ name) → Faulty fields
  | repeated : ¬(fields.map Prod.fst).Nodup → Faulty fields
  | unsuited {field : Field} {v} : (field.name, v) ∈ fields → ¬field.Suits v → Faulty fields

variable (r) in
/-- A record whose counts have 32 bits and whose values are plain, with their fields in order. -/
structure Plain : Prop where
  correlationId : ∀ v, r.correlationId = some v → v ≠ .null ∧ v.Plain fieldDepth ∧ v.sorted = v
  sequenceNumber : r.sequenceNumber ≤ Numeral.maxU32
  sequenceSize : r.sequenceSize ≤ Numeral.maxU32
  payload : r.payload.Plain fieldDepth ∧ r.payload.sorted = r.payload

variable {fields : List (String × Value)} {text : String}

theorem Faulty.not_entries (h : Faulty fields) : ¬Entries Field.Suits [] fields := by
  rintro ⟨hnodup, -, hfits⟩
  cases h with
  | unknown hf hname =>
    obtain ⟨field, hfield, -⟩ := hfits _ hf
    exact hname field hfield
  | repeated hrepeated => exact hrepeated hnodup
  | unsuited hf hv =>
    obtain ⟨field, hfield, hsuits⟩ := hfits _ hf
    obtain rfl := Field.name_inj hfield
    exact hv hsuits

/-- An object that is read as a record has fields of a record only, and comes to the record that it
was written from, if it was. -/
theorem parse_cases (htext : (Value.object fields).IsText text)
    (hmust : must → r.Written fields) :
    match parse text with
    | .ok s => (must → s = r) ∧ Entries Field.Suits [] fields
    | .error _ => ¬must := by
  obtain ⟨ws, cs, ws', hws, hcs, hws', heq⟩ := htext
  cases hcs with
  | @object fields cs hfields =>
    have htakes : Takes must (fun s => (must → s = r) ∧ Entries Field.Suits [] fields) ws'
        (structured slots maxDepth blank text.toList) := by
      rw [heq, List.cons_append, structured, skip_blank_cons hws rfl, List.append_assoc]
      refine namedWith_takes hfields (by simp only [enough, List.length_append]; omega) fun he => ?_
      -- nothing has been seen yet, so the record is blank
      have hwritten := hmust he
      refine ⟨only_nil.symm, ?_, hwritten.nodup, by simp, hwritten.spells⟩
      rw [List.append_nil]
      exact only_eq hwritten.omits
    rw [parse, all]
    rcases hread : structured slots maxDepth blank text.toList with f | ⟨s, left⟩ <;>
      rw [hread] at htakes
    · exact htakes
    · obtain ⟨rfl, hs⟩ := htakes
      simpa [skip_of_blank hws'] using hs

theorem parse_of_written (hr : r.Written fields) (htext : (Value.object fields).IsText text) :
    parse text = .ok r := by
  have hcases := parse_cases htext fun _ : True => hr
  rcases hparse : parse text with f | s <;> rw [hparse] at hcases
  · exact absurd trivial hcases
  · rw [hcases.1 trivial]

theorem parse_of_faulty (hfields : Faulty fields) (htext : (Value.object fields).IsText text) :
    ∃ f, parse text = .error f := by
  have hcases := parse_cases (r := blank) htext False.elim
  rcases hparse : parse text with f | s <;> rw [hparse] at hcases
  · exact ⟨f, rfl⟩
  · exact absurd hcases.2 hfields.not_entries

theorem Plain.exists_spells (hr : r.Plain) (field : Field) :
    ∃ v, r.Spells field v ∧ ∃ cs, Writes (.value v) cs := by
  have hcount : ∀ {n}, n ≤ Numeral.maxU32 → ∃ cs, Writes (.value (.nat n)) cs := fun hn => by
    have hplain : (Value.nat _).Plain 0 := .natural (hn.trans (by decide))
    exact hplain.exists_writes
  cases field with
  | correlationId =>
    cases hkey : r.correlationId with
    | none => exact ⟨.null, ⟨.null, fun _ => hkey, fun hne => absurd rfl hne⟩, _, .null⟩
    | some v =>
      obtain ⟨hne, hplain, hsorted⟩ := hr.correlationId v hkey
      refine ⟨v, ⟨hplain, fun hnull => absurd hnull hne, fun _ => ?_⟩, hplain.exists_writes⟩
      rw [hkey, hsorted]
  | sequenceNumber => exact ⟨_, ⟨rfl, hr.sequenceNumber⟩, hcount hr.sequenceNumber⟩
  | sequenceSize => exact ⟨_, ⟨rfl, hr.sequenceSize⟩, hcount hr.sequenceSize⟩
  | payload =>
    obtain ⟨hplain, hsorted⟩ := hr.payload
    exact ⟨_, ⟨hplain, hsorted.symm⟩, hplain.exists_writes⟩
  | headers =>
    have hplain : (Value.ofTexts r.headers.rows).Plain 1 := .object fun f hf => by
      obtain ⟨t, -, rfl⟩ := List.mem_map.1 hf
      exact .string _
    exact ⟨_, ⟨_, rfl, (Dictionary.ofList_rows _).symm⟩, hplain.exists_writes⟩

/-- A record can be written in any order of its fields, without those that it may leave out. -/
theorem Plain.exists_written (hr : r.Plain) {order : List Field} (horder : order.Nodup)
    (homits : ∀ field ∉ order, r.Omits field) :
    ∃ fields text, fields.map Prod.fst = order.map Field.name ∧ r.Written fields
      ∧ (Value.object fields).IsText text := by
  choose value hspells hwrites using hr.exists_spells
  have hnames : (order.map fun field => (field.name, value field)).map Prod.fst
      = order.map Field.name := by simp
  have hvalues : ∀ f ∈ order.map fun field => (field.name, value field),
      ∃ cs, Writes (.value f.2) cs := fun f hf => by
    obtain ⟨field, -, rfl⟩ := List.mem_map.1 hf
    exact hwrites field
  obtain ⟨cs, hcs⟩ := Writes.exists_fields true hvalues
  have hnone : Blank [] := by simp [Blank]
  refine ⟨_, String.ofList ('\x7b' :: (cs ++ ['\x7d'])), hnames, ⟨?_, ?_, ?_⟩,
    [], _, [], hnone, .object hcs, hnone, by simp⟩
  · rw [hnames]
    exact horder.map fun _ _ => Field.name_inj
  · intro f hf
    obtain ⟨field, -, rfl⟩ := List.mem_map.1 hf
    exact ⟨field, rfl, hspells field⟩
  · intro field hfield
    rw [hnames] at hfield
    exact homits field fun hmem => hfield (List.mem_map_of_mem hmem)

/-- A record without numbers other than integers and without values that nest too deep can be
written as an object of its fields in any order, without any that are as when nothing is said. Any
text of such an object, with whatever blanks and spellings, is read as this very record, with the
fields of its values in the order of their names. An object that has another name, a name twice, a
count that is no integer of 32 bits, or headers that are no strings, is refused. -/
theorem parse_object :
    (∀ r : Record, r.Plain → ∀ order : List Field, order.Nodup →
      (∀ field ∉ order, r.Omits field) →
      ∃ fields text, fields.map Prod.fst = order.map Field.name ∧ r.Written fields
        ∧ (Value.object fields).IsText text)
    ∧ (∀ (r : Record) fields text, r.Written fields → (Value.object fields).IsText text →
      parse text = .ok r)
    ∧ ∀ fields text, Faulty fields → (Value.object fields).IsText text →
      ∃ f, parse text = .error f :=
  ⟨fun _ hr _ horder homits => hr.exists_written horder homits,
    fun _ _ _ hr htext => parse_of_written hr htext,
    fun _ _ hfields htext => parse_of_faulty hfields htext⟩

/-! ## A record with a face -/

/-- A record that has a face in its payload. -/
def smiling : Record :=
  ⟨none, 0, 2, .object [("a", .string "😀"), ("b", .number (.negative 1))], .empty⟩

/-- Its fields, the payload first, in which the names are not in order. -/
def smilingFields : List (String × Value) :=
  [("payload", .object [("b", .number (.negative 1)), ("a", .string "😀")]),
    ("sequence_size", .nat 2)]

/-- A text of these fields with blanks here and there, and with the face as two code units. -/
def smilingText : String :=
  " \x7b\"payload\" :\x7b\"b\":-1,\"a\":\"\\uD83D\\ude00\"\x7d ,\n\"sequence_size\":2\x7d"

theorem plain_smiling : smiling.Plain where
  correlationId := by rintro v ⟨⟩
  sequenceNumber := by decide
  sequenceSize := by decide
  payload := by
    refine ⟨.object ?_, rfl⟩
    rintro f (_ | ⟨_, _ | ⟨_, ⟨⟩⟩⟩)
    · exact .string _
    · exact .negative (by decide) (by decide)

theorem omits_smiling : ∀ field ∉ [Field.payload, .sequenceSize], smiling.Omits field := by
  intro field hfield
  cases field with
  | payload => exact absurd (by decide) hfield
  | sequenceSize => exact absurd (by decide) hfield
  | _ => rfl

theorem written_smiling : smiling.Written smilingFields where
  nodup := by decide
  spells := by
    rintro f (_ | ⟨_, _ | ⟨_, ⟨⟩⟩⟩)
    · refine ⟨.payload, rfl, .object ?_, rfl⟩
      rintro f (_ | ⟨_, _ | ⟨_, ⟨⟩⟩⟩)
      · exact .negative (by decide) (by decide)
      · exact .string _
    · exact ⟨.sequenceSize, rfl, rfl, by decide⟩
  omits := fun field hfield => omits_smiling field fun hmem =>
    hfield (List.mem_map_of_mem (f := Field.name) hmem)

theorem isText_smilingText : (Value.object smilingFields).IsText smilingText := by
  have hnone : Blank [] := by simp [Blank]
  have hspace : Blank [' '] := by simp [Blank]
  have hline : Blank ['\n'] := by simp [Blank]
  have hpayload : Literal "payload".toList "payload".toList := literal_of_plain (by simp)
  have hsize : Literal "sequence_size".toList "sequence_size".toList := literal_of_plain (by simp)
  have ha : Literal "a".toList "a".toList := literal_of_plain (by simp)
  have hb : Literal "b".toList "b".toList := literal_of_plain (by simp)
  have hone : Json.Whole ['1'] := ⟨by simp, by simp, by simp⟩
  have htwo : Json.Whole ['2'] := ⟨by simp, by simp, by simp⟩
  have hhigh : Quad ['D', '8', '3', 'D'] 0xD83D :=
    ⟨('D', 13), by decide, ('8', 8), by decide, ('3', 3), by decide, ('D', 13), by decide, rfl, rfl⟩
  have hlow : Quad ['d', 'e', '0', '0'] 0xDE00 :=
    ⟨('d', 13), by decide, ('e', 14), by decide, ('0', 0), by decide, ('0', 0), by decide, rfl, rfl⟩
  have hunits := Literal.pair hhigh (by decide) (by decide) hlow (by decide) (by decide) .nil
  have hface : Literal "😀".toList "\\uD83D\\ude00".toList := hunits
  have hinner := Writes.field (.first hnone) hb hnone hnone
    (.number (.negative hone (by decide) (by decide)))
    (.field (.next hnone hnone) ha hnone hnone (.string hface) (.noFields hnone))
  have houter := Writes.field (.first hnone) hpayload hspace hnone (.object hinner)
    (.field (.next hspace hline) hsize hnone hnone (.number (.natural htwo (by decide)))
      (.noFields hnone))
  exact ⟨[' '], _, [], hspace, .object houter, hnone, by decide⟩

/-- A face is read out of its two code units, and a payload is refused if there are two. -/
theorem parse_object_smiling :
    (∃ fields text, fields.map Prod.fst = ["payload", "sequence_size"] ∧ smiling.Written fields
      ∧ (Value.object fields).IsText text)
    ∧ parse smilingText = .ok smiling
    ∧ ∃ f, parse "\x7b\"payload\":null,\"payload\":true\x7d" = .error f := by
  obtain ⟨hexists, hwritten, hfaulty⟩ := parse_object
  have hnone : Blank [] := by simp [Blank]
  have hpayload : Literal "payload".toList "payload".toList := literal_of_plain (by simp)
  have htwice := Writes.field (.first hnone) hpayload hnone hnone .null
    (.field (.next hnone hnone) hpayload hnone hnone .yes (.noFields hnone))
  refine ⟨?_, ?_, ?_⟩
  · exact hexists smiling plain_smiling _ (by decide) omits_smiling
  · exact hwritten smiling smilingFields smilingText written_smiling isText_smilingText
  · exact hfaulty _ _ (.repeated (by decide))
      ⟨[], _, [], hnone, .object htwice, hnone, by decide⟩

end Record

end Collate
