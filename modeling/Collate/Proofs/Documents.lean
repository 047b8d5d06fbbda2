import Collate.Toml.Shape
import Mathlib.Tactic.SplitIfs

/-!
# What a document says

No table of a document that can be read has a name twice (`Toml.distinct_of_parse?`), so there is
one value, or none, under each name. A structure that is read from such a table takes each of its
parts from the value under its name, and leaves a part as it was if there is no such value
(`Shape.structured?_part`).
-/

namespace Collate.Toml

/-! ## Each name once -/

/-- No table in a value has a name twice. -/
inductive Value.Distinct : Value → Prop
  | string (s : String) : Distinct (.string s)
  | integer (base : Nat) (written : String) : Distinct (.integer base written)
  | boolean (b : Bool) : Distinct (.boolean b)
  | float (written : String) : Distinct (.float written)
  | moment (written : String) : Distinct (.moment written)
  | array {items : List Value} : (∀ v ∈ items, Distinct v) → Distinct (.array items)
  | table {origin : Origin} {rows : List (String × Value)} : Rows.Ordered rows →
      (∀ row ∈ rows, Distinct row.2) → Distinct (.table origin rows)
  | tables {items : List Value} : (∀ v ∈ items, Distinct v) → Distinct (.tables items)

namespace Table

variable {t t' : Table} {name : String} {v : Value}

theorem distinct_of_nil (origin : Origin) : (⟨origin, []⟩ : Table).value.Distinct :=
  .table List.Pairwise.nil fun _ h => by cases h

theorem distinct_get? (ht : t.value.Distinct) (hv : t.get? name = some v) : v.Distinct := by
  cases ht with
  | table hordered hrows => exact hrows _ (Rows.mem_of_get? hv)

theorem distinct_set (ht : t.value.Distinct) (hv : v.Distinct) : (t.set name v).value.Distinct := by
  cases ht with
  | table hordered hrows =>
    refine .table (Rows.ordered_insert hordered name v) fun row hrow => ?_
    rcases Rows.mem_insert hrow with rfl | hrow
    · exact hv
    · exact hrows row hrow

theorem distinct_change {reach : Reach} {f : Table → Option Table}
    (hf : ∀ t t', t.value.Distinct → f t = some t' → t'.value.Distinct) {path : List String}
    (ht : t.value.Distinct) (h : change reach f path t = some t') : t'.value.Distinct := by
  induction path generalizing t t' with
  | nil => exact hf t t' ht h
  | cons name path ih =>
    unfold change at h
    split at h
    · obtain ⟨inner, hinner, rfl⟩ := Option.map_eq_some_iff.1 h
      exact distinct_set ht (ih (distinct_of_nil _) hinner)
    · rename_i origin rows hget
      split_ifs at h
      obtain ⟨inner, hinner, rfl⟩ := Option.map_eq_some_iff.1 h
      exact distinct_set ht (ih (distinct_get? ht hget) hinner)
    · rename_i items hget
      split at h
      · rename_i origin rows hlast
        obtain ⟨inner, hinner, rfl⟩ := Option.map_eq_some_iff.1 h
        cases distinct_get? ht hget with
        | tables hitems =>
          refine distinct_set ht (.tables fun v hv => ?_)
          rcases List.mem_append.1 hv with hv | hv
          · exact hitems v (List.dropLast_subset _ hv)
          · obtain rfl := List.mem_singleton.1 hv
            exact ih (t := ⟨origin, rows⟩) (hitems _ (List.mem_of_getLast? hlast)) hinner
      · cases h
    · cases h

theorem distinct_add (ht : t.value.Distinct) (hv : v.Distinct) (h : t.add name v = some t') :
    t'.value.Distinct := by
  unfold add at h
  split at h <;> cases h
  exact distinct_set ht hv

theorem distinct_put {keys : List String} (ht : t.value.Distinct) (hv : v.Distinct)
    (h : t.put keys v = some t') : t'.value.Distinct := by
  unfold put at h
  split at h
  · cases h
  · exact distinct_add ht hv h
  · refine distinct_change (fun t t' ht h => ?_) ht h
    split_ifs at h
    exact distinct_add ht hv h

theorem distinct_openTable (ht : t.value.Distinct) (h : t.openTable name = some t') :
    t'.value.Distinct := by
  unfold openTable at h
  split at h <;> cases h
  · exact distinct_set ht (distinct_of_nil _)
  · rename_i rows hget
    cases distinct_get? ht hget with
    | table hordered hrows => exact distinct_set ht (.table hordered hrows)

theorem distinct_openItem (ht : t.value.Distinct) (h : t.openItem name = some t') :
    t'.value.Distinct := by
  unfold openItem at h
  split at h <;> cases h
  · exact distinct_set ht (.tables fun v hv => by
      obtain rfl := List.mem_singleton.1 hv
      exact distinct_of_nil _)
  · rename_i items hget
    cases distinct_get? ht hget with
    | tables hitems =>
      refine distinct_set ht (.tables fun v hv => ?_)
      rcases List.mem_append.1 hv with hv | hv
      · exact hitems v hv
      · obtain rfl := List.mem_singleton.1 hv
        exact distinct_of_nil _

end Table

theorem Scalar.distinct_of_value? {cs : List Char} {v : Value} (h : Scalar.value? cs = some v) :
    v.Distinct := by
  have hinteger : ∀ {base cs}, integerValue? base cs = some v → v.Distinct := fun h => by
    unfold integerValue? at h
    split_ifs at h
    cases h
    exact .integer _ _
  have hbased : ∀ {base cs}, based? base cs = some v → v.Distinct := fun h => by
    unfold based? at h
    split_ifs at h
    exact hinteger h
  have hdecimal : ∀ {cs}, decimal? cs = some v → v.Distinct := fun {cs} h => by
    have hwhole : ∀ body, (if isWhole body then integerValue? 10 cs else none) = some v →
        v.Distinct := fun body h => by
      split_ifs at h
      exact hinteger h
    unfold decimal? at h
    dsimp only at h
    split at h
    · exact hwhole _ h
    · split_ifs at h
      · cases h
        exact .moment _
      · cases h
        exact .float _
      · exact hwhole (unsigned cs).2 (by simp [*])
  unfold value? at h
  split at h
  · cases h
    exact .boolean _
  · cases h
    exact .boolean _
  · exact hbased h
  · exact hbased h
  · exact hbased h
  · dsimp only at h
    split_ifs at h
    · cases h
      exact .float _
    · exact hdecimal h

namespace Reader

/-- What is read with so much fuel has each name once. -/
structure ReadsDistinct (fuel : Nat) : Prop where
  value : ∀ {depth cs v rest}, value? fuel depth cs = some (v, rest) → v.Distinct
  items : ∀ {depth done cs vs rest}, (∀ v ∈ done, v.Distinct) →
    items? fuel depth done cs = some (vs, rest) → ∀ v ∈ vs, v.Distinct
  braces : ∀ {depth t cs t' rest}, t.value.Distinct →
    braces? fuel depth t cs = some (t', rest) → t'.value.Distinct
  pair : ∀ {depth isBraced cs path v rest},
    pair? fuel depth isBraced cs = some (path, v, rest) → v.Distinct

namespace ReadsDistinct

variable {fuel depth : Nat} {cs rest : List Char} {v : Value}

theorem value_succ (ih : ReadsDistinct fuel) (h : value? (fuel + 1) depth cs = some (v, rest)) :
    v.Distinct := by
  unfold value? at h
  split at h
  · split_ifs at h
    obtain ⟨⟨vs, rest'⟩, hread, heq⟩ := Option.map_eq_some_iff.1 h
    obtain ⟨cs', -, hitems⟩ := Option.bind_eq_some_iff.1 hread
    cases heq
    exact .array (ih.items (fun _ h => by cases h) hitems)
  · split_ifs at h
    obtain ⟨⟨t, rest'⟩, hread, heq⟩ := Option.map_eq_some_iff.1 h
    obtain ⟨cs', -, hbraces⟩ := Option.bind_eq_some_iff.1 hread
    cases heq
    cases ih.braces (Table.distinct_of_nil _) hbraces with
    | table hordered hrows => exact .table hordered hrows
  · obtain ⟨⟨s, rest'⟩, -, heq⟩ := Option.map_eq_some_iff.1 h
    cases heq
    exact .string s
  · obtain ⟨⟨s, rest'⟩, -, heq⟩ := Option.map_eq_some_iff.1 h
    cases heq
    exact .string s
  · obtain ⟨v', hscalar, heq⟩ := Option.map_eq_some_iff.1 h
    cases heq
    exact Scalar.distinct_of_value? hscalar

theorem items_succ (ih : ReadsDistinct fuel) {done vs : List Value}
    (hdone : ∀ v ∈ done, v.Distinct) (h : items? (fuel + 1) depth done cs = some (vs, rest)) :
    ∀ v ∈ vs, v.Distinct := by
  have hmore : ∀ {v}, v.Distinct → ∀ w ∈ v :: done, w.Distinct := fun hv w hw => by
    rcases List.mem_cons.1 hw with rfl | hw
    · exact hv
    · exact hdone w hw
  unfold items? at h
  split at h
  · cases h
    exact fun v hv => hdone v (List.mem_reverse.1 hv)
  · split at h
    · cases h
    · rename_i v rest' hvalue
      split at h
      · obtain ⟨cs', -, hitems⟩ := Option.bind_eq_some_iff.1 h
        exact ih.items (hmore (ih.value hvalue)) hitems
      · cases h
        exact fun w hw => hmore (ih.value hvalue) w (List.mem_reverse.1 hw)
      · cases h

theorem braces_succ (ih : ReadsDistinct fuel) {t t' : Table} (ht : t.value.Distinct)
    (h : braces? (fuel + 1) depth t cs = some (t', rest)) : t'.value.Distinct := by
  unfold braces? at h
  split at h
  · cases h
    exact ht
  · split at h
    · cases h
    · rename_i path v rest' hpair
      split at h
      · rename_i t₁ rest₁ hput hskip
        obtain ⟨cs', -, hbraces⟩ := Option.bind_eq_some_iff.1 h
        exact ih.braces (Table.distinct_put ht (ih.pair hpair) hput) hbraces
      · rename_i t₁ rest₁ hput hskip
        cases h
        exact Table.distinct_put ht (ih.pair hpair) hput
      · cases h

theorem pair_succ (ih : ReadsDistinct fuel) {isBraced : Bool} {path : List String}
    (h : pair? (fuel + 1) depth isBraced cs = some (path, v, rest)) : v.Distinct := by
  unfold pair? at h
  split at h
  · cases h
  · split at h
    · obtain ⟨⟨v', rest'⟩, hread, heq⟩ := Option.map_eq_some_iff.1 h
      obtain ⟨cs', -, hvalue⟩ := Option.bind_eq_some_iff.1 hread
      cases heq
      exact ih.value hvalue
    · cases h

end ReadsDistinct

theorem readsDistinct (fuel : Nat) : ReadsDistinct fuel := by
  induction fuel with
  | zero =>
    exact ⟨fun h => by simp [value?] at h, fun _ h => by simp [items?] at h,
      fun _ h => by simp [braces?] at h, fun h => by simp [pair?] at h⟩
  | succ fuel ih => exact ⟨ih.value_succ, ih.items_succ, ih.braces_succ, ih.pair_succ⟩

theorem distinct_of_lines? {fuel : Nat} {path : List String} {t t' : Table} {cs : List Char}
    (ht : t.value.Distinct) (h : lines? fuel path t cs = some t') : t'.value.Distinct := by
  induction fuel generalizing path t cs with
  | zero => simp [lines?] at h
  | succ fuel ih =>
    unfold lines? at h
    split at h
    · cases h
    · cases h
      exact ht
    · dsimp only at h
      split at h
      · cases h
      · split at h
        · rename_i t₁ rest₁ hopen hend
          refine ih (Table.distinct_change (fun t t' ht h => ?_) ht hopen) h
          split_ifs at h
          · exact Table.distinct_openItem ht h
          · exact Table.distinct_openTable ht h
        · cases h
    · split at h
      · cases h
      · rename_i keys v rest' hpair
        split at h
        · rename_i t₁ rest₁ hput hend
          exact ih (Table.distinct_change
            (fun t t' ht h => Table.distinct_put ht ((readsDistinct _).pair hpair) h) ht hput) h
        · cases h

end Reader

/-- No table of a document has a name twice. -/
theorem distinct_of_parse? {text : String} {t : Table} (h : parse? text = some t) :
    t.value.Distinct :=
  Reader.distinct_of_lines? (Table.distinct_of_nil _) h

/-! ## What a structure takes from a document -/

namespace Shape

variable {α β σ : Type} {slots : List (Slot σ)} {name : String} {read? : Value → Option α}
  {field : σ → α}

/-- The value that is written for a part of a structure. -/
def part? (slots : List (Slot σ)) (name : String) : Value → Option Value
  | .table _ rows => Rows.get? rows name
  | .array vs => ((slots.map Slot.name).zip vs).lookup name
  | .tables vs => ((slots.map Slot.name).zip vs).lookup name
  | _ => none

/-- The parts of one name fill a field with what is read from them, and no other part changes it. -/
structure Fills (slots : List (Slot σ)) (name : String) (read? : Value → Option α)
    (field : σ → α) : Prop where
  reads : ∀ slot ∈ slots, slot.name = name →
    ∀ v s s', slot.read? v s = some s' → read? v = some (field s')
  keeps : ∀ slot ∈ slots, slot.name ≠ name →
    ∀ v s s', slot.read? v s = some s' → field s' = field s

/-- Rows of a table whose names are all different fill a field from the row of its name. -/
theorem named?_part (h : Fills slots name read? field) {rows : List (String × Value)}
    (hrows : Rows.Ordered rows) {start s : σ} (hs : named? slots rows start = some s) :
    (Rows.get? rows name).elim (field s = field start) fun v => read? v = some (field s) := by
  induction rows generalizing start with
  | nil =>
    cases hs
    rfl
  | cons row rows ih =>
    obtain ⟨key, v⟩ := row
    obtain ⟨hkey, hrows⟩ := List.pairwise_cons.1 hrows
    obtain ⟨s₁, hs₁, hrest⟩ := Option.bind_eq_some_iff.1 hs
    obtain ⟨x, hx, hread⟩ := Option.bind_eq_some_iff.1 hs₁
    have hmem := List.mem_of_find?_eq_some hx
    have hname : x.name = key := by simpa using List.find?_some hx
    have hlater := ih hrows hrest
    by_cases heq : key = name
    · have hnone : Rows.get? rows name = none := by
        rcases hget : Rows.get? rows name with _ | w
        · rfl
        · have hlt := hkey _ (Rows.mem_of_get? hget)
          subst heq
          exact absurd hlt (String.lt_irrefl _)
      rw [hnone, Option.elim_none] at hlater
      simp only [Rows.get?, heq, if_true, Option.elim_some]
      rw [hlater]
      exact h.reads x hmem (hname.trans heq) v start s₁ hread
    · simp only [Rows.get?, heq, if_false]
      rw [← h.keeps x hmem (by rw [hname]; exact heq) v start s₁ hread]
      exact hlater

/-- Parts in their order, each of another name, fill a field from the one at the place of its
name. -/
theorem inOrder?_part (h : Fills slots name read? field) (hnames : (slots.map Slot.name).Nodup)
    {vs : List Value} {start s : σ} (hs : inOrder? slots vs start = some s) :
    (((slots.map Slot.name).zip vs).lookup name).elim (field s = field start)
      fun v => read? v = some (field s) := by
  induction slots generalizing vs start with
  | nil =>
    cases hs
    rfl
  | cons x slots ih =>
    rcases vs with _ | ⟨v, vs⟩
    · cases hs
      rfl
    obtain ⟨hx, hnames⟩ := List.nodup_cons.1 hnames
    obtain ⟨s₁, hread, hrest⟩ := Option.bind_eq_some_iff.1 hs
    have hlater := ih ⟨fun y hy => h.reads y (List.mem_cons_of_mem _ hy),
      fun y hy => h.keeps y (List.mem_cons_of_mem _ hy)⟩ hnames hrest
    simp only [List.map_cons, List.zip_cons_cons, List.lookup_cons]
    by_cases heq : x.name = name
    · have hnone : ((slots.map Slot.name).zip vs).lookup name = none := by
        rw [List.lookup_eq_none_iff]
        intro pair hpair
        rw [bne_iff_ne]
        rintro rfl
        exact hx (heq ▸ (List.of_mem_zip hpair).1)
      rw [hnone, Option.elim_none] at hlater
      simp only [heq, beq_self_eq_true, Option.elim_some]
      rw [hlater]
      exact h.reads x List.mem_cons_self heq v start s₁ hread
    · have hbeq : (name == x.name) = false := by simpa using Ne.symm heq
      simp only [hbeq]
      rw [← h.keeps x List.mem_cons_self heq v start s₁ hread]
      exact hlater

/-- A field of a structure is filled from the part of its name, or is what it was at the start. -/
theorem structured?_part (h : Fills slots name read? field) (hnames : (slots.map Slot.name).Nodup)
    {v : Value} (hv : v.Distinct) {start s : σ} (hs : structured? slots start v = some s) :
    (part? slots name v).elim (field s = field start) fun w => read? w = some (field s) := by
  cases hv with
  | table hordered hrows => exact named?_part h hordered hs
  | array hitems => exact inOrder?_part h hnames hs
  | tables hitems => exact inOrder?_part h hnames hs
  | _ => cases hs

end Shape

end Collate.Toml
