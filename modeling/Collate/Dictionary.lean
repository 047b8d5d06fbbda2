/-!
# Dictionaries in key order

A dictionary lists its entries by increasing name, each name once. That order is part of the type,
so a dictionary is determined by its lookups (`Dictionary.ext_get?`): two ways of filling it that
answer every lookup alike give the same value, and a listing of the entries is the listing by name.
The operations on bare rows stand first, for data whose rows are nested in a larger type.
-/

namespace Collate

namespace Rows

variable {α : Type}

def get? : List (String × α) → String → Option α
  | [], _ => none
  | (k, a) :: rest, name => if k = name then some a else get? rest name

/-- Puts an entry at the place of its name; an entry already there is replaced. -/
def insert (name : String) (value : α) : List (String × α) → List (String × α)
  | [] => [(name, value)]
  | (k, a) :: rest =>
    if name < k then (name, value) :: (k, a) :: rest
    else if name = k then (name, value) :: rest
    else (k, a) :: insert name value rest

def erase (name : String) (rows : List (String × α)) : List (String × α) :=
  rows.filter fun row => row.1 ≠ name

def Ordered (rows : List (String × α)) : Prop :=
  rows.Pairwise fun a b => a.1 < b.1

theorem mem_insert {name : String} {value : α} {rows : List (String × α)} {row : String × α}
    (h : row ∈ insert name value rows) : row = (name, value) ∨ row ∈ rows := by
  induction rows with
  | nil => simpa [insert] using h
  | cons r rest ih =>
    obtain ⟨k, a⟩ := r
    unfold insert at h
    split at h
    · simpa using h
    · split at h
      · simp only [List.mem_cons] at h ⊢
        exact h.imp_right Or.inr
      · simp only [List.mem_cons] at h ⊢
        rcases h with h | h
        · exact Or.inr (Or.inl h)
        · exact (ih h).imp_right Or.inr

theorem ordered_insert {rows : List (String × α)} (h : Ordered rows) (name : String) (value : α) :
    Ordered (insert name value rows) := by
  induction rows with
  | nil => simp [insert, Ordered]
  | cons r rest ih =>
    obtain ⟨k, a⟩ := r
    obtain ⟨hk, hrest⟩ := List.pairwise_cons.1 h
    unfold insert
    split
    · rename_i hlt
      refine List.pairwise_cons.2 ⟨fun row hrow => ?_, h⟩
      rcases List.mem_cons.1 hrow with rfl | hrow
      · exact hlt
      · exact String.lt_trans hlt (hk row hrow)
    · split
      · rename_i heq
        subst heq
        exact List.pairwise_cons.2 ⟨hk, hrest⟩
      · rename_i hnlt hne
        refine List.pairwise_cons.2 ⟨fun row hrow => ?_, ih hrest⟩
        rcases mem_insert hrow with rfl | hrow
        · rcases Std.lt_trichotomy k name with h | h | h
          · exact h
          · exact absurd h.symm hne
          · exact absurd h hnlt
        · exact hk row hrow

theorem ordered_erase {rows : List (String × α)} (h : Ordered rows) (name : String) :
    Ordered (erase name rows) :=
  List.Pairwise.filter _ h

theorem get?_insert (name other : String) (value : α) (rows : List (String × α)) :
    get? (insert name value rows) other = if name = other then some value else get? rows other := by
  induction rows with
  | nil => simp [insert, get?]
  | cons r rest ih =>
    obtain ⟨k, a⟩ := r
    unfold insert
    split
    · simp [get?]
    · split
      · rename_i heq
        subst heq
        by_cases h : name = other <;> simp [get?, h]
      · rename_i hne
        by_cases hk : k = other
        · subst hk
          simp [get?, hne]
        · simp [get?, hk, ih]

theorem get?_erase (name other : String) (rows : List (String × α)) :
    get? (erase name rows) other = if name = other then none else get? rows other := by
  induction rows with
  | nil => simp [erase, get?]
  | cons r rest ih =>
    obtain ⟨k, a⟩ := r
    unfold erase at ih ⊢
    rw [List.filter_cons]
    by_cases hk : k = name
    · subst hk
      simp only [ne_eq, not_true, decide_false, Bool.false_eq_true, if_false, ih, get?]
      by_cases h : k = other <;> simp [h]
    · simp only [ne_eq, hk, not_false_eq_true, decide_true, if_true, get?, ih]
      by_cases h : k = other
      · subst h
        simp [Ne.symm hk]
      · simp [h]

theorem get?_map {β : Type} (f : α → β) (name : String) (rows : List (String × α)) :
    get? (rows.map fun row => (row.1, f row.2)) name = (get? rows name).map f := by
  induction rows with
  | nil => rfl
  | cons r rest ih =>
    obtain ⟨k, a⟩ := r
    by_cases h : k = name <;> simp [get?, h, ih]

theorem get?_of_mem {rows : List (String × α)} (h : Ordered rows) {name : String} {value : α}
    (hm : (name, value) ∈ rows) : get? rows name = some value := by
  induction rows with
  | nil => simp at hm
  | cons r rest ih =>
    obtain ⟨k, a⟩ := r
    obtain ⟨hk, hrest⟩ := List.pairwise_cons.1 h
    rcases List.mem_cons.1 hm with heq | hm
    · cases heq
      simp [get?]
    · have : k ≠ name := fun e => by
        have := hk _ hm
        subst e
        exact String.lt_irrefl _ this
      simp [get?, this, ih hrest hm]

theorem mem_of_get? {rows : List (String × α)} {name : String} {value : α}
    (h : get? rows name = some value) : (name, value) ∈ rows := by
  induction rows with
  | nil => simp [get?] at h
  | cons r rest ih =>
    obtain ⟨k, a⟩ := r
    unfold get? at h
    split at h
    · cases h
      subst_vars
      exact List.mem_cons_self
    · exact List.mem_cons_of_mem _ (ih h)

theorem mem_iff_get? {rows : List (String × α)} (h : Ordered rows) {name : String} {value : α} :
    (name, value) ∈ rows ↔ get? rows name = some value :=
  ⟨get?_of_mem h, mem_of_get?⟩

theorem eq_of_get? : ∀ {a b : List (String × α)}, Ordered a → Ordered b →
    (∀ name, get? a name = get? b name) → a = b
  | [], [], _, _, _ => rfl
  | [], (k, v) :: _, _, _, h => by simpa [get?] using h k
  | (k, v) :: _, [], _, _, h => by simpa [get?] using h k
  | (k, v) :: a, (k', v') :: b, ha, hb, h => by
    obtain ⟨hka, ha'⟩ := List.pairwise_cons.1 ha
    obtain ⟨hkb, hb'⟩ := List.pairwise_cons.1 hb
    have hmem : (k, v) ∈ (k', v') :: b :=
      mem_of_get? (by rw [← h k]; simp [get?])
    have hmem' : (k', v') ∈ (k, v) :: a :=
      mem_of_get? (by rw [h k']; simp [get?])
    have heq : (k, v) = (k', v') := by
      rcases List.mem_cons.1 hmem with e | m
      · exact e
      · rcases List.mem_cons.1 hmem' with e | m'
        · exact e.symm
        · exact absurd (String.lt_trans (hka _ m') (hkb _ m)) (String.lt_irrefl _)
    cases heq
    congr 1
    refine eq_of_get? ha' hb' fun name => ?_
    by_cases hn : k = name
    · subst hn
      have none_of {l : List (String × α)} (hl : ∀ row ∈ l, k < row.1) : get? l k = none := by
        cases hg : get? l k with
        | none => rfl
        | some w => exact absurd (hl _ (mem_of_get? hg)) (String.lt_irrefl _)
      rw [none_of hka, none_of hkb]
    · simpa [get?, hn] using h name

end Rows

/-- Entries by increasing name, each name once. -/
structure Dictionary (α : Type) where
  rows : List (String × α)
  ordered : Rows.Ordered rows

namespace Dictionary

variable {α : Type}

def empty : Dictionary α := ⟨[], List.Pairwise.nil⟩

instance : EmptyCollection (Dictionary α) := ⟨empty⟩

instance : Inhabited (Dictionary α) := ⟨empty⟩

instance [DecidableEq α] : DecidableEq (Dictionary α) := fun a b =>
  decidable_of_iff (a.rows = b.rows) ⟨fun h => by cases a; cases b; simp_all, fun h => by rw [h]⟩

def get? (d : Dictionary α) (name : String) : Option α :=
  Rows.get? d.rows name

def insert (d : Dictionary α) (name : String) (value : α) : Dictionary α :=
  ⟨Rows.insert name value d.rows, Rows.ordered_insert d.ordered name value⟩

def erase (d : Dictionary α) (name : String) : Dictionary α :=
  ⟨Rows.erase name d.rows, Rows.ordered_erase d.ordered name⟩

def filter (d : Dictionary α) (p : String → α → Bool) : Dictionary α :=
  ⟨d.rows.filter fun row => p row.1 row.2, List.Pairwise.filter _ d.ordered⟩

/-- Later entries win. -/
def ofList (entries : List (String × α)) : Dictionary α :=
  entries.foldl (fun d e => d.insert e.1 e.2) empty

def names (d : Dictionary α) : List String := d.rows.map Prod.fst

def values (d : Dictionary α) : List α := d.rows.map Prod.snd

def size (d : Dictionary α) : Nat := d.rows.length

/-- Applies a function to the value at every name. -/
def mapValues (d : Dictionary α) (f : α → α) : Dictionary α :=
  ⟨d.rows.map fun row => (row.1, f row.2), by
    have := d.ordered
    unfold Rows.Ordered at this ⊢
    rwa [List.pairwise_map]⟩

@[simp] theorem get?_empty (name : String) : (empty : Dictionary α).get? name = none := rfl

@[simp] theorem get?_insert (d : Dictionary α) (name other : String) (value : α) :
    (d.insert name value).get? other = if name = other then some value else d.get? other :=
  Rows.get?_insert name other value d.rows

@[simp] theorem get?_erase (d : Dictionary α) (name other : String) :
    (d.erase name).get? other = if name = other then none else d.get? other :=
  Rows.get?_erase name other d.rows

@[simp] theorem get?_mapValues (d : Dictionary α) (f : α → α) (name : String) :
    (d.mapValues f).get? name = (d.get? name).map f :=
  Rows.get?_map f name d.rows

theorem mem_rows_iff (d : Dictionary α) {name : String} {value : α} :
    (name, value) ∈ d.rows ↔ d.get? name = some value :=
  Rows.mem_iff_get? d.ordered

theorem mem_names_iff (d : Dictionary α) {name : String} :
    name ∈ d.names ↔ (d.get? name).isSome := by
  rw [Option.isSome_iff_exists]
  constructor
  · intro h
    obtain ⟨row, hrow, rfl⟩ := List.mem_map.1 h
    exact ⟨row.2, d.mem_rows_iff.1 hrow⟩
  · rintro ⟨value, h⟩
    exact List.mem_map.2 ⟨(name, value), d.mem_rows_iff.2 h, rfl⟩

theorem nodup_names (d : Dictionary α) : d.names.Nodup := by
  have hordered := d.ordered
  unfold Rows.Ordered at hordered
  refine List.pairwise_map.2 (hordered.imp fun {a b} hlt heq => ?_)
  rw [heq] at hlt
  exact String.lt_irrefl _ hlt

theorem mem_values_iff (d : Dictionary α) {value : α} :
    value ∈ d.values ↔ ∃ name, d.get? name = some value := by
  constructor
  · intro h
    obtain ⟨row, hrow, rfl⟩ := List.mem_map.1 h
    exact ⟨row.1, d.mem_rows_iff.1 hrow⟩
  · rintro ⟨name, h⟩
    exact List.mem_map.2 ⟨(name, value), d.mem_rows_iff.2 h, rfl⟩

/-- The names are determined by which lookups succeed. -/
theorem names_eq {β : Type} {a : Dictionary α} {b : Dictionary β}
    (h : ∀ name, (a.get? name).isSome = (b.get? name).isSome) : a.names = b.names := by
  have hnames : ∀ {γ : Type} (d : Dictionary γ),
      d.names = (d.rows.map fun row => (row.1, ())).map Prod.fst := by
    intro γ d
    simp [names]
  have hordered : ∀ {γ : Type} (d : Dictionary γ),
      Rows.Ordered (d.rows.map fun row => (row.1, ())) := by
    intro γ d
    have := d.ordered
    unfold Rows.Ordered at this ⊢
    rwa [List.pairwise_map]
  rw [hnames a, hnames b, Rows.eq_of_get? (hordered a) (hordered b)]
  intro name
  have hsome := h name
  simp only [get?] at hsome
  rw [Rows.get?_map fun _ => (), Rows.get?_map fun _ => ()]
  rcases ha : Rows.get? a.rows name with _ | x <;> rcases hb : Rows.get? b.rows name with _ | y <;>
    simp [ha, hb] at hsome ⊢

theorem ext_get? {a b : Dictionary α} (h : ∀ name, a.get? name = b.get? name) : a = b := by
  have := Rows.eq_of_get? a.ordered b.ordered h
  cases a
  cases b
  simp_all

end Dictionary

end Collate
