import Collate.Proofs.Spelling

/-!
# Written values

A value can be written in many ways: with blanks around every sign, with its strings spelled one way
or another, and with the fields of its objects in any order. `Writes` has all of them. Reading takes
a written value and nothing behind it, or refuses it (`Writes.taken`). It refuses none that has no
numbers but integers and does not nest too deep, and gets the value with its fields in the order of
their names (`Value.sorted`).
-/

namespace Collate.Json

/-! ## Values and their texts -/

namespace Value

mutual

/-- A value with the fields of all its objects in the order of their names. -/
def sorted : Value → Value
  | .array items => .array (sortedItems items)
  | .object fields => .object (sortedFields [] fields)
  | .null => .null
  | .bool b => .bool b
  | .number n => .number n
  | .string s => .string s
termination_by structural v => v

def sortedItems : List Value → List Value
  | [] => []
  | v :: vs => sorted v :: sortedItems vs
termination_by structural vs => vs

/-- Fields put into others that are in order. -/
def sortedFields : List (String × Value) → List (String × Value) → List (String × Value)
  | done, [] => done
  | done, (name, v) :: fields => sortedFields (Rows.insert name (sorted v) done) fields
termination_by structural _ fields => fields

end

/-- A value with no numbers but integers of 64 bits, in which at most so many containers are one
within another. -/
inductive Plain : Nat → Value → Prop
  | null {depth} : Plain depth .null
  | bool {depth} (b) : Plain depth (.bool b)
  | natural {depth n} : n ≤ Numeral.maxU64 → Plain depth (.number (.natural n))
  | negative {depth n} : 0 < n → n ≤ Numeral.maxI64 + 1 → Plain depth (.number (.negative n))
  | string {depth} (s) : Plain depth (.string s)
  | array {depth items} : (∀ v ∈ items, Plain depth v) → Plain (depth + 1) (.array items)
  | object {depth fields} : (∀ f ∈ fields, Plain depth f.2) → Plain (depth + 1) (.object fields)

end Value

/-- Nothing but blanks. -/
def Blank (ws : List Char) : Prop := ∀ c ∈ ws, c ∈ [' ', '\n', '\t', '\r']

/-- What comes before an element: a comma, unless it is the first one. -/
inductive Lead : Bool → List Char → Prop
  | first {ws} : Blank ws → Lead true ws
  | next {ws ws'} : Blank ws → Blank ws' → Lead false (ws ++ ',' :: ws')

/-- A value, or the elements of an array or of an object up to its closing bracket, of which the
first one may have been written already. -/
inductive Part where
  | value (v : Value)
  | items (first : Bool) (items : List Value)
  | fields (first : Bool) (fields : List (String × Value))

/-- How values are written. -/
inductive Writes : Part → List Char → Prop
  | null : Writes (.value .null) ['n', 'u', 'l', 'l']
  | yes : Writes (.value (.bool true)) ['t', 'r', 'u', 'e']
  | no : Writes (.value (.bool false)) ['f', 'a', 'l', 's', 'e']
  | number {n cs} : n.Text cs → Writes (.value (.number n)) cs
  | string {s cs} : Literal s.toList cs → Writes (.value (.string s)) ('"' :: (cs ++ ['"']))
  | array {items cs} : Writes (.items true items) cs →
      Writes (.value (.array items)) ('[' :: (cs ++ [']']))
  | object {fields cs} : Writes (.fields true fields) cs →
      Writes (.value (.object fields)) ('\x7b' :: (cs ++ ['\x7d']))
  | noItems {first ws} : Blank ws → Writes (.items first []) ws
  | item {first lead v cs items more} : Lead first lead → Writes (.value v) cs →
      Writes (.items false items) more → Writes (.items first (v :: items)) (lead ++ (cs ++ more))
  | noFields {first ws} : Blank ws → Writes (.fields first []) ws
  | field {first lead name ns ws ws' v cs fields more} : Lead first lead →
      Literal name.toList ns → Blank ws → Blank ws' → Writes (.value v) cs →
      Writes (.fields false fields) more →
      Writes (.fields first ((name, v) :: fields))
        (lead ++ '"' :: (ns ++ '"' :: (ws ++ ':' :: (ws' ++ (cs ++ more)))))

/-! ## Blanks and signs -/

namespace Reader

theorem isSpace_digit {c : Char} (hc : c.isDigit = true) : isSpace c = false := by
  by_contra h
  simp only [isSpace, Bool.not_eq_false, Bool.or_eq_true, beq_iff_eq] at h
  obtain ((rfl | rfl) | rfl) | rfl := h <;> exact absurd hc (by decide)

theorem skip_cons {c : Char} (hc : isSpace c = false) (cs : List Char) :
    skip (c :: cs) = c :: cs := by
  simp [skip, hc]

theorem skip_blank {ws : List Char} (h : Blank ws) (cs : List Char) :
    skip (ws ++ cs) = skip cs := by
  induction ws with
  | nil => rfl
  | cons c ws ih =>
    have hc : isSpace c = true := by
      have hmem := h c List.mem_cons_self
      simp only [List.mem_cons, List.not_mem_nil, or_false] at hmem
      obtain rfl | rfl | rfl | rfl := hmem <;> rfl
    have hrest := ih fun c' hc' => h c' (List.mem_cons_of_mem _ hc')
    simpa [skip, hc] using hrest

theorem skip_of_blank {ws : List Char} (h : Blank ws) : skip ws = [] := by
  simpa [skip] using skip_blank h []

theorem skip_blank_cons {ws : List Char} (h : Blank ws) {c : Char} (hc : isSpace c = false)
    (cs : List Char) : skip (ws ++ c :: cs) = c :: cs := by
  rw [skip_blank h, skip_cons hc]

theorem moreElements_lead {first : Bool} {lead : List Char} (h : Lead first lead) {c : Char}
    (hc : isSpace c = false) (hclose : c ≠ ']') (cs : List Char) :
    moreElements first (lead ++ c :: cs) = .ok (true, c :: cs) := by
  cases h with
  | first hws =>
    rw [moreElements, skip_blank_cons hws hc]
    split <;> simp_all
  | next hws hws' =>
    rw [List.append_assoc, List.cons_append, moreElements, skip_blank_cons hws rfl]
    split
    · rename_i heq
      cases heq
    · rename_i heq
      exact absurd (List.cons.inj heq).1 (by decide)
    · rename_i heq
      obtain ⟨rfl, rfl⟩ := List.cons.inj heq
      rw [if_neg Bool.false_ne_true, if_pos rfl, skip_blank_cons hws' hc]
      split <;> simp_all

theorem moreElements_close {first : Bool} {ws : List Char} (h : Blank ws) (rest : List Char) :
    moreElements first (ws ++ ']' :: rest) = .ok (false, ']' :: rest) := by
  rw [moreElements, skip_blank_cons h rfl]
  rfl

theorem moreNames_lead {first : Bool} {lead : List Char} (h : Lead first lead) (cs : List Char) :
    moreNames first (lead ++ '"' :: cs) = .ok (true, '"' :: cs) := by
  cases h with
  | first hws =>
    rw [moreNames, skip_blank_cons hws rfl]
    rfl
  | next hws hws' =>
    rw [List.append_assoc, List.cons_append, moreNames, skip_blank_cons hws rfl]
    split
    · rename_i heq
      cases heq
    · rename_i heq
      exact absurd (List.cons.inj heq).1 (by decide)
    · rename_i heq
      obtain ⟨rfl, rfl⟩ := List.cons.inj heq
      rw [if_neg Bool.false_ne_true, if_pos rfl, skip_blank_cons hws' rfl]
      rfl

theorem moreNames_close {first : Bool} {ws : List Char} (h : Blank ws) (rest : List Char) :
    moreNames first (ws ++ '\x7d' :: rest) = .ok (false, '\x7d' :: rest) := by
  rw [moreNames, skip_blank_cons h rfl]
  rfl

theorem name_literal {s : String} {cs : List Char} (h : Literal s.toList cs) (rest : List Char) :
    name ('"' :: (cs ++ '"' :: rest)) = .ok (s, rest) := by
  rw [name, skip_cons rfl]
  exact afterQuote_literal h rest

theorem colon_blank {ws : List Char} (h : Blank ws) (rest : List Char) :
    colon (ws ++ ':' :: rest) = .ok ((), rest) := by
  rw [colon, skip_blank_cons h rfl]
  rfl

end Reader

theorem stops_blank {ws : List Char} (h : Blank ws) {c : Char} (hc : c = ',' ∨ c = ']' ∨ c = '\x7d')
    (cs : List Char) : Stops (ws ++ c :: cs) := by
  intro c' hc'
  rcases ws with _ | ⟨w, ws⟩
  · obtain rfl : c = c' := Option.some.inj hc'
    obtain rfl | rfl | rfl := hc <;> decide
  · obtain rfl : w = c' := Option.some.inj hc'
    have hmem := h w List.mem_cons_self
    simp only [List.mem_cons, List.not_mem_nil, or_false] at hmem
    obtain rfl | rfl | rfl | rfl := hmem <;> decide

/-- A character that a value of some kind begins with. -/
structure Value.Begins (v : Value) (c : Char) : Prop where
  solid : Reader.isSpace c = false
  ne_close : c ≠ ']'
  null : c = 'n' ↔ v = .null
  string : c = '"' ↔ ∃ s, v = .string s
  object : c = '\x7b' ↔ ∃ fields, v = .object fields
  number : c = '-' ∨ c.isDigit = true ↔ ∃ n, v = .number n

namespace Writes

/-- What comes behind a value in an array does not go on with it. -/
theorem stops_items {items : List Value} {more : List Char} (h : Writes (.items false items) more)
    (rest : List Char) : Stops (more ++ ']' :: rest) := by
  cases h with
  | noItems hws => exact stops_blank hws (by simp) rest
  | item hlead =>
    cases hlead with
    | next hws hws' =>
      simp only [List.append_assoc, List.cons_append]
      exact stops_blank hws (by simp) _

theorem stops_fields {fields : List (String × Value)} {more : List Char}
    (h : Writes (.fields false fields) more) (rest : List Char) :
    Stops (more ++ '\x7d' :: rest) := by
  cases h with
  | noFields hws => exact stops_blank hws (by simp) rest
  | field hlead =>
    cases hlead with
    | next hws hws' =>
      simp only [List.append_assoc, List.cons_append]
      exact stops_blank hws (by simp) _

open Reader in
/-- The first character of a value tells its kind. -/
theorem begins {v : Value} {cs : List Char} (h : Writes (.value v) cs) :
    ∃ c cs', cs = c :: cs' ∧ v.Begins c := by
  cases h with
  | number hn =>
    have hnone : Stops [] := by simp [Stops]
    obtain ⟨minus, c, ds, rfl, hc, -⟩ := hn.read hnone
    cases minus with
    | true => exact ⟨'-', _, rfl, by constructor <;> simp [isSpace]⟩
    | false =>
      have hne : ∀ d : Char, d.isDigit = false → c ≠ d := by
        rintro d hd rfl
        exact absurd hc (Bool.eq_false_iff.1 hd)
      refine ⟨c, ds, rfl, isSpace_digit hc, hne ']' rfl, ?_, ?_, ?_, ?_⟩
      · simp [hne 'n' rfl]
      · simp [hne '"' rfl]
      · simp [hne '\x7b' rfl]
      · simp [hc]
  | _ => exact ⟨_, _, rfl, by constructor <;> simp [isSpace, Char.isDigit]⟩

end Writes

/-! ## Reading what is written -/

/-- A reader that is given a text with `rest` behind it takes this text and nothing else, for
something that is good, or fails. It does not fail where it must not. -/
def Takes {α : Type} (must : Prop) (good : α → Prop) (rest : List Char) :
    Except Fault (α × List Char) → Prop
  | .ok (a, left) => left = rest ∧ good a
  | .error _ => ¬must

namespace Takes

variable {α β : Type} {must : Prop} {good : α → Prop} {good' : β → Prop} {mid rest cs : List Char}
  {r : Reader α}

theorem of_eq {a : α} {result : Except Fault (α × List Char)} (h : result = .ok (a, rest))
    (ha : good a) : Takes must good rest result := by
  subst h
  exact ⟨rfl, ha⟩

theorem andThen {next : α → Reader β} (h : Takes must good mid (r cs))
    (hnext : ∀ a, good a → Takes must good' rest (next a mid)) :
    Takes must good' rest (r.andThen next cs) := by
  unfold Reader.andThen
  rcases hr : r cs with f | ⟨a, left⟩ <;> rw [hr] at h
  · exact id (h : ¬must)
  · obtain ⟨rfl, ha⟩ : left = mid ∧ good a := h
    exact hnext a ha

theorem map {f : α → β} (h : Takes must good rest (r cs)) (hf : ∀ a, good a → good' (f a)) :
    Takes must good' rest (r.map f cs) :=
  h.andThen fun a ha => ⟨rfl, hf a ha⟩

theorem imp {good' : α → Prop} {result : Except Fault (α × List Char)}
    (h : Takes must good rest result) (hgood : ∀ a, good a → good' a) :
    Takes must good' rest result := by
  rcases result with f | ⟨a, left⟩
  · exact h
  · exact ⟨h.1, hgood a h.2⟩

theorem weaken {must' : Prop} {result : Except Fault (α × List Char)}
    (h : Takes must good rest result) (hmust : must' → must) : Takes must' good rest result := by
  rcases result with f | ⟨a, left⟩
  · exact fun hm => absurd (hmust hm) h
  · exact h

/-- What must be taken for one thing only is taken for that. -/
theorem eq_ok {a : α} {result : Except Fault (α × List Char)}
    (h : Takes True (True → · = a) rest result) : result = .ok (a, rest) := by
  rcases result with f | ⟨b, left⟩
  · exact absurd trivial h
  · obtain ⟨rfl, hb⟩ := h
    rw [hb trivial]

end Takes

open Reader

/-- What it is for reading to take a part of a value. There are enough calls for a text if they are
as many as its characters. -/
def Part.Taken (must : Prop) (cs : List Char) : Part → Prop
  | .value v => ∀ fuel depth rest, Stops rest → (must → v.Plain depth ∧ cs.length ≤ fuel) →
      Takes must (must → · = v.sorted) rest (valueWith fuel depth (cs ++ rest))
  | .items first vs => ∀ fuel depth rest done,
      (must → (∀ v ∈ vs, v.Plain depth) ∧ cs.length < fuel) →
      Takes must (must → · = done.reverse ++ Value.sortedItems vs) rest
        (itemsWith fuel depth first done (cs ++ ']' :: rest))
  | .fields first fs => ∀ fuel depth rest done,
      (must → (∀ f ∈ fs, f.2.Plain depth) ∧ cs.length < fuel) →
      Takes must (must → · = Value.sortedFields done fs) rest
        (fieldsWith fuel depth first done (cs ++ '\x7d' :: rest))

section

variable {fuel depth : Nat} {first : Bool} {lead cs more rest : List Char} {v : Value}
  {must : Prop}

theorem valueWith_blank {ws : List Char} (h : Blank ws) (fuel depth : Nat) (cs : List Char) :
    valueWith fuel depth (ws ++ cs) = valueWith fuel depth cs := by
  cases fuel with
  | zero => rfl
  | succ fuel => rw [valueWith, valueWith, skip_blank h]

theorem valueWith_digit {c : Char} (hc : c.isDigit = true) (fuel depth : Nat) (cs : List Char) :
    valueWith (fuel + 1) depth (c :: cs) = (number true).map Value.number (c :: cs) := by
  rw [valueWith, skip_cons (isSpace_digit hc)]
  split
  case h_9 => rename_i heq; cases heq; rw [isDigit_eq, if_pos hc]
  all_goals rename_i heq; cases heq
  all_goals exact absurd hc (by decide)

theorem itemsWith_more {done : List Value} (h : moreElements first cs = .ok (true, rest)) :
    itemsWith (fuel + 1) depth first done cs = (valueWith fuel depth).andThen
      (fun v => itemsWith fuel depth false (v :: done)) rest := by
  rw [itemsWith, h, Reader.andThen]
  dsimp only
  rcases valueWith fuel depth rest with f | ⟨v, left⟩ <;> rfl

theorem fieldsWith_more {name : String} {ns ws tail : List Char} {done : List (String × Value)}
    (hlead : Lead first lead) (hname : Literal name.toList ns) (hws : Blank ws) :
    fieldsWith (fuel + 1) depth first done (lead ++ '"' :: (ns ++ '"' :: (ws ++ ':' :: tail)))
      = (valueWith fuel depth).andThen
        (fun v => fieldsWith fuel depth false (Rows.insert name v done)) tail := by
  rw [fieldsWith, moreNames_lead hlead]
  dsimp only
  rw [name_literal hname]
  dsimp only
  rw [Reader.andThen, colon_blank hws, Reader.andThen]
  dsimp only
  rcases valueWith fuel depth tail with f | ⟨v, left⟩ <;> rfl

/-- A value has a character at least, so there is a call for it. -/
theorem taken_of_takes (hne : cs ≠ [])
    (h : ∀ fuel depth rest, Stops rest → (must → v.Plain depth ∧ cs.length ≤ fuel + 1) →
      Takes must (must → · = v.sorted) rest (valueWith (fuel + 1) depth (cs ++ rest))) :
    (Part.value v).Taken must cs := by
  intro fuel depth rest hrest hmust
  cases fuel with
  | zero => exact fun he => hne (List.length_eq_zero_iff.1 (Nat.le_zero.1 (hmust he).2))
  | succ fuel => exact h fuel depth rest hrest hmust

theorem taken_of_read (hne : cs ≠ [])
    (h : ∀ fuel depth rest, valueWith (fuel + 1) depth (cs ++ rest) = .ok (v.sorted, rest)) :
    (Part.value v).Taken must cs :=
  taken_of_takes hne fun fuel depth rest _ _ => .of_eq (h fuel depth rest) fun _ => rfl

theorem number_taken {n : Number} (h : n.Text cs) (must : Prop) :
    (Part.value (.number n)).Taken must cs := by
  have hnone : Stops [] := by simp [Stops]
  have hne : cs ≠ [] := by
    obtain ⟨minus, c, ds, rfl, -⟩ := h.read hnone
    simp
  refine taken_of_takes hne fun fuel depth rest hrest hmust => ?_
  obtain ⟨minus, c, ds, rfl, hc, hread⟩ := h.read hrest
  have hplain : must → ∀ d, n ≠ .double d := by
    rintro he d rfl
    cases (hmust he).1
  have htakes : Takes must (must → · = n) rest (number (!minus) (c :: (ds ++ rest))) := by
    obtain heq | ⟨⟨d, hd⟩, ⟨f, heq⟩ | ⟨d', heq⟩⟩ := hread
    · exact .of_eq heq fun _ => rfl
    · rw [heq]
      exact fun he => hplain he d hd
    · exact .of_eq heq fun he => absurd hd (hplain he d)
  have hvalue : Takes must (must → · = Value.number n) rest
      ((number (!minus)).map Value.number (c :: (ds ++ rest))) :=
    htakes.map fun n' hn' he => congrArg Value.number (hn' he)
  rw [Value.sorted]
  cases minus with
  | true => exact hvalue
  | false =>
    have hdigit := valueWith_digit hc fuel depth (ds ++ rest)
    rw [if_neg Bool.false_ne_true, List.nil_append, List.cons_append, hdigit]
    exact hvalue

theorem items_taken {items : List Value} (hlead : Lead first lead) (hv : Writes (.value v) cs)
    (hmore : Writes (.items false items) more) (ihv : (Part.value v).Taken must cs)
    (ihmore : (Part.items false items).Taken must more) :
    (Part.items first (v :: items)).Taken must (lead ++ (cs ++ more)) := by
  intro fuel depth rest done hmust
  rcases fuel with _ | fuel
  · exact fun he => absurd (hmust he).2 (Nat.not_lt_zero _)
  have hfits : must → (v.Plain depth ∧ cs.length ≤ fuel)
      ∧ (∀ v ∈ items, v.Plain depth) ∧ more.length < fuel := fun he => by
    obtain ⟨c, cs', rfl, -⟩ := hv.begins
    obtain ⟨hplain, hlen⟩ := hmust he
    simp only [List.length_append, List.length_cons] at hlen ⊢
    exact ⟨⟨hplain v List.mem_cons_self, by omega⟩,
      fun w hw => hplain w (List.mem_cons_of_mem _ hw), by omega⟩
  have hnext : moreElements first (lead ++ (cs ++ (more ++ ']' :: rest)))
      = .ok (true, cs ++ (more ++ ']' :: rest)) := by
    obtain ⟨c, cs', rfl, hc⟩ := hv.begins
    exact moreElements_lead hlead hc.solid hc.ne_close (cs' ++ (more ++ ']' :: rest))
  have hvalue := ihv fuel depth (more ++ ']' :: rest) (hmore.stops_items rest)
    fun he => (hfits he).1
  rw [List.append_assoc, List.append_assoc, itemsWith_more hnext]
  refine hvalue.andThen fun v' hv' =>
    (ihmore fuel depth rest (v' :: done) fun he => (hfits he).2).imp fun items' hitems' he => ?_
  rw [hitems' he, hv' he, Value.sortedItems, List.reverse_cons, List.append_assoc,
    List.singleton_append]

theorem fields_taken {name : String} {ns ws ws' : List Char} {fields : List (String × Value)}
    (hlead : Lead first lead) (hname : Literal name.toList ns) (hws : Blank ws) (hws' : Blank ws')
    (hmore : Writes (.fields false fields) more) (ihv : (Part.value v).Taken must cs)
    (ihmore : (Part.fields false fields).Taken must more) :
    (Part.fields first ((name, v) :: fields)).Taken must
      (lead ++ '"' :: (ns ++ '"' :: (ws ++ ':' :: (ws' ++ (cs ++ more))))) := by
  intro fuel depth rest done hmust
  rcases fuel with _ | fuel
  · exact fun he => absurd (hmust he).2 (Nat.not_lt_zero _)
  have hfits : must → (v.Plain depth ∧ cs.length ≤ fuel)
      ∧ (∀ f ∈ fields, f.2.Plain depth) ∧ more.length < fuel := fun he => by
    obtain ⟨hplain, hlen⟩ := hmust he
    simp only [List.length_append, List.length_cons] at hlen ⊢
    exact ⟨⟨hplain _ List.mem_cons_self, by omega⟩,
      fun f hf => hplain f (List.mem_cons_of_mem _ hf), by omega⟩
  have hvalue := ihv fuel depth (more ++ '\x7d' :: rest) (hmore.stops_fields rest)
    fun he => (hfits he).1
  rw [← valueWith_blank hws'] at hvalue
  simp only [List.append_assoc, List.cons_append]
  rw [fieldsWith_more hlead hname hws]
  refine hvalue.andThen fun v' hv' =>
    (ihmore fuel depth rest (Rows.insert name v' done) fun he => (hfits he).2).imp
      fun fields' hfields' he => ?_
  rw [hfields' he, hv' he, Value.sortedFields]

end

/-- Reading takes what is written and nothing behind it, or fails. It does not fail on plain values,
and gets them with their fields in order. -/
theorem Writes.taken {p : Part} {cs : List Char} (h : Writes p cs) (must : Prop) :
    p.Taken must cs := by
  induction h with
  | null => exact taken_of_read (by simp) fun _ _ _ => rfl
  | yes => exact taken_of_read (by simp) fun _ _ _ => rfl
  | no => exact taken_of_read (by simp) fun _ _ _ => rfl
  | number hn => exact number_taken hn must
  | @string s cs hs =>
    refine taken_of_read (by simp) fun fuel depth rest => ?_
    have hread := afterQuote_literal hs rest
    simp [valueWith, skip_cons, isSpace, Reader.map, Reader.andThen, hread, give, Value.sorted]
  | @array items cs hitems ih =>
    refine taken_of_takes (by simp) fun fuel depth rest _ hmust => ?_
    rcases depth with _ | depth
    · exact fun he => by cases (hmust he).1
    have hinner := ih fuel depth rest [] fun he => by
      obtain ⟨hplain, hlen⟩ := hmust he
      simp only [List.length_append, List.length_cons, List.length_nil] at hlen
      cases hplain with
      | array hitems => exact ⟨hitems, by omega⟩
    rw [List.cons_append, List.append_assoc, Value.sorted]
    exact hinner.map fun items' hitems' he => congrArg Value.array (hitems' he)
  | @object fields cs hfields ih =>
    refine taken_of_takes (by simp) fun fuel depth rest _ hmust => ?_
    rcases depth with _ | depth
    · exact fun he => by cases (hmust he).1
    have hinner := ih fuel depth rest [] fun he => by
      obtain ⟨hplain, hlen⟩ := hmust he
      simp only [List.length_append, List.length_cons, List.length_nil] at hlen
      cases hplain with
      | object hfields => exact ⟨hfields, by omega⟩
    rw [List.cons_append, List.append_assoc, Value.sorted]
    exact hinner.map fun fields' hfields' he => congrArg Value.object (hfields' he)
  | noItems hws =>
    intro fuel depth rest done hmust
    rcases fuel with _ | fuel
    · exact fun he => absurd (hmust he).2 (Nat.not_lt_zero _)
    rw [itemsWith, moreElements_close hws, Value.sortedItems, List.append_nil]
    exact .of_eq rfl fun _ => rfl
  | item hlead hv hmore ihv ihmore => exact items_taken hlead hv hmore ihv ihmore
  | noFields hws =>
    intro fuel depth rest done hmust
    rcases fuel with _ | fuel
    · exact fun he => absurd (hmust he).2 (Nat.not_lt_zero _)
    rw [fieldsWith, moreNames_close hws, Value.sortedFields]
    exact .of_eq rfl fun _ => rfl
  | field hlead hname hws hws' _ hmore ihv ihmore =>
    exact fields_taken hlead hname hws hws' hmore ihv ihmore

theorem value_takes {must : Prop} {depth : Nat} {v : Value} {ws cs rest : List Char}
    (hws : Blank ws) (h : Writes (.value v) cs) (hrest : Stops rest)
    (hplain : must → v.Plain depth) :
    Takes must (must → · = v.sorted) rest (value depth (ws ++ (cs ++ rest))) := by
  rw [value, valueWith_blank hws]
  refine h.taken must _ depth rest hrest fun he => ⟨hplain he, ?_⟩
  simp only [enough, List.length_append]
  omega

/-! ## Whole texts -/

/-- A text is a value, written between blanks. -/
def Value.IsText (v : Value) (text : String) : Prop :=
  ∃ ws cs ws', Blank ws ∧ Writes (.value v) cs ∧ Blank ws' ∧ text.toList = ws ++ (cs ++ ws')

theorem stops_of_blank {ws : List Char} (h : Blank ws) : Stops ws := by
  rcases ws with _ | ⟨w, ws⟩
  · simp [Stops]
  · have hmem := h w List.mem_cons_self
    rintro c ⟨⟩
    simp only [List.mem_cons, List.not_mem_nil, or_false] at hmem
    obtain rfl | rfl | rfl | rfl := hmem <;> decide

/-- A text of a plain value is read as this value. -/
theorem parse_of_isText {v : Value} {text : String} (h : v.IsText text) (hv : v.Plain maxDepth) :
    parse text = .ok v.sorted := by
  obtain ⟨ws, cs, ws', hws, hcs, hws', htext⟩ := h
  have hread := (value_takes hws hcs (stops_of_blank hws') fun _ : True => hv).eq_ok
  rw [parse, all, htext, hread]
  simp [skip_of_blank hws']

section

variable (first : Bool)

theorem exists_lead : ∃ lead, Lead first lead := by
  have hnone : Blank [] := by simp [Blank]
  cases first with
  | true => exact ⟨_, .first hnone⟩
  | false => exact ⟨_, .next hnone hnone⟩

theorem Writes.exists_items {items : List Value} (h : ∀ v ∈ items, ∃ cs, Writes (.value v) cs) :
    ∃ cs, Writes (.items first items) cs := by
  induction items generalizing first with
  | nil => exact ⟨[], .noItems (by simp [Blank])⟩
  | cons v items ih =>
    obtain ⟨lead, hlead⟩ := exists_lead first
    obtain ⟨cs, hcs⟩ := h v List.mem_cons_self
    obtain ⟨more, hmore⟩ := ih false fun w hw => h w (List.mem_cons_of_mem _ hw)
    exact ⟨_, .item hlead hcs hmore⟩

theorem Writes.exists_fields {fields : List (String × Value)}
    (h : ∀ f ∈ fields, ∃ cs, Writes (.value f.2) cs) :
    ∃ cs, Writes (.fields first fields) cs := by
  have hnone : Blank [] := by simp [Blank]
  induction fields generalizing first with
  | nil => exact ⟨[], .noFields hnone⟩
  | cons f fields ih =>
    obtain ⟨lead, hlead⟩ := exists_lead first
    obtain ⟨ns, hns⟩ := exists_literal f.1.toList
    obtain ⟨cs, hcs⟩ := h f List.mem_cons_self
    obtain ⟨more, hmore⟩ := ih false fun g hg => h g (List.mem_cons_of_mem _ hg)
    exact ⟨_, .field hlead hns hnone hnone hcs hmore⟩

end

/-- Every plain value can be written. -/
theorem Value.Plain.exists_writes {depth : Nat} {v : Value} (h : v.Plain depth) :
    ∃ cs, Writes (.value v) cs := by
  induction h with
  | null => exact ⟨_, .null⟩
  | bool b => cases b with
    | true => exact ⟨_, .yes⟩
    | false => exact ⟨_, .no⟩
  | @natural depth n hle =>
    obtain ⟨ds, hw, rfl⟩ := exists_whole n
    exact ⟨_, .number (.natural hw hle)⟩
  | @negative depth n hpos hle =>
    obtain ⟨ds, hw, rfl⟩ := exists_whole n
    exact ⟨_, .number (.negative hw hpos hle)⟩
  | string s =>
    obtain ⟨cs, hcs⟩ := exists_literal s.toList
    exact ⟨_, .string hcs⟩
  | @array depth items _ ih =>
    obtain ⟨cs, hcs⟩ := Writes.exists_items true ih
    exact ⟨_, .array hcs⟩
  | @object depth fields _ ih =>
    obtain ⟨cs, hcs⟩ := Writes.exists_fields true ih
    exact ⟨_, .object hcs⟩

end Collate.Json
