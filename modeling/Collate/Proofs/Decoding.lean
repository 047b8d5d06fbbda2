import Mathlib.Tactic.IntervalCases
import Collate.Text.Utf8

/-!
# What decoding makes of bytes

Any bytes fall apart into characters and broken parts, in one way only: a broken part is a byte that
begins no character, or the first bytes of one as far as they go (`Reading`, `Reading.unique`).
Decoding finds that reading (`reading_units`). So bytes are accepted as the text whose encoding they
are and else not at all (`decode?_eq_some_iff`), and since a broken part has at most the three bytes
of U+FFFD, the text that stands for any bytes is not shorter than they are
(`length_le_decodeLossy`).
-/

namespace Collate.Utf8

/-! ## The bytes of a character -/

section Bytes

/-- The code points of the characters that take `n` bytes. -/
def Span (n v : Nat) : Prop :=
  n = 1 ∧ v < 0x80
    ∨ n = 2 ∧ 0x80 ≤ v ∧ v < 0x800
    ∨ n = 3 ∧ (0x800 ≤ v ∧ v < 0xD800 ∨ 0xE000 ≤ v ∧ v < 0x10000)
    ∨ n = 4 ∧ 0x10000 ≤ v ∧ v < 0x110000

/-- What the first of `n` bytes has above the bits of the code point. -/
def mark : Nat → Nat
  | 2 => 0xC0
  | 3 => 0xE0
  | 4 => 0xF0
  | _ => 0

/-- The byte at place `i` of the `n` bytes of a code point. -/
def octet (n v i : Nat) : Nat :=
  if i = 0 then v / 64 ^ (n - 1) + mark n else v / 64 ^ (n - 1 - i) % 64 + 0x80

theorem span_utf8Size (c : Char) : Span c.utf8Size c.toNat := by
  have hvalid := c.valid
  simp only [UInt32.isValidChar, Nat.isValidChar] at hvalid
  have htoNat : c.toNat = c.val.toNat := rfl
  obtain h | h | h | h := c.utf8Size_eq
  all_goals
    rw [h]
    simp only [Char.utf8Size_eq_one_iff, Char.utf8Size_eq_two_iff, Char.utf8Size_eq_three_iff,
      Char.utf8Size_eq_four_iff, UInt32.le_iff_toNat_le, UInt32.lt_iff_toNat_lt,
      UInt32.reduceToNat] at h
    unfold Span
    omega

theorem exists_of_span {n v : Nat} (h : Span n v) : ∃ c : Char, c.utf8Size = n ∧ c.toNat = v := by
  have hvalid : v.isValidChar := by
    unfold Span at h
    unfold Nat.isValidChar
    omega
  have hspan : Span (Char.ofNatAux v hvalid).utf8Size v := span_utf8Size (Char.ofNatAux v hvalid)
  unfold Span at h hspan
  exact ⟨Char.ofNatAux v hvalid, by omega, rfl⟩

/-- The least code point with given bits above the last bytes takes as many bytes as any other. -/
theorem span_floor {n v k : Nat} (h : Span n v) (hk : k + 2 ≤ n) :
    Span n (v / 64 ^ k * 64 ^ k) := by
  unfold Span at h ⊢
  have hle : k ≤ 2 := by omega
  interval_cases k <;> omega

theorem span_refine {n w k x : Nat} (h : Span n (w * 64 ^ (k + 1))) (hk : k + 3 ≤ n)
    (hx : x < 64) : Span n ((w * 64 + x) * 64 ^ k) := by
  unfold Span at h ⊢
  have hle : k ≤ 1 := by omega
  interval_cases k <;> omega

/-- The first byte tells how many there are. -/
theorem octet_zero_mem {n v : Nat} (h : Span n v) :
    n = 1 ∧ octet n v 0 < 0x80
      ∨ n = 2 ∧ 0xC2 ≤ octet n v 0 ∧ octet n v 0 < 0xE0
      ∨ n = 3 ∧ 0xE0 ≤ octet n v 0 ∧ octet n v 0 < 0xF0
      ∨ n = 4 ∧ 0xF0 ≤ octet n v 0 ∧ octet n v 0 < 0xF5 := by
  rw [octet, if_pos rfl]
  obtain ⟨rfl, hv⟩ | ⟨rfl, hv⟩ | ⟨rfl, hv⟩ | ⟨rfl, hv⟩ := h <;> simp only [mark, true_and] <;> omega

theorem utf8EncodeChar_eq (c : Char) : String.utf8EncodeChar c
    = (List.range c.utf8Size).map fun i => UInt8.ofNat (octet c.utf8Size c.toNat i) := by
  have htoNat : c.toNat = c.val.toNat := rfl
  obtain ⟨hn, hv⟩ | ⟨hn, hv⟩ | ⟨hn, hv⟩ | ⟨hn, hv⟩ := span_utf8Size c
  all_goals
    simp only [hn, String.utf8EncodeChar, ← htoNat]
  · rw [if_pos (by omega)]
    simp [octet, mark]
  · rw [if_neg (by omega), if_pos (by omega), Nat.mod_eq_of_lt (by omega : c.toNat / 64 < 32)]
    simp [List.range_succ, octet, mark]
  · rw [if_neg (by omega), if_neg (by omega), if_pos (by omega),
      Nat.mod_eq_of_lt (by omega : c.toNat / 4096 < 16)]
    simp [List.range_succ, octet, mark]
  · rw [if_neg (by omega), if_neg (by omega), if_neg (by omega),
      Nat.mod_eq_of_lt (by omega : c.toNat / 262144 < 8)]
    simp [List.range_succ, octet, mark]

theorem getElem?_utf8EncodeChar {c : Char} {i : Nat} (hi : i < c.utf8Size) :
    (String.utf8EncodeChar c)[i]? = some (UInt8.ofNat (octet c.utf8Size c.toNat i)) := by
  simp [utf8EncodeChar_eq, hi]

end Bytes

/-! ## Parts of a character -/

section Parts

/-- The first bytes of some character. -/
def Begins (part : List UInt8) : Prop := ∃ c : Char, part <+: String.utf8EncodeChar c

theorem snoc_prefix_iff {α : Type} {l l' : List α} {a : α} :
    l ++ [a] <+: l' ↔ l <+: l' ∧ l'[l.length]? = some a := by
  constructor
  · rintro ⟨more, rfl⟩
    simp
  · rintro ⟨⟨more, rfl⟩, h⟩
    obtain ⟨more, rfl⟩ : ∃ more', more = a :: more' := by
      rcases more with _ | ⟨b, more⟩
      · simp at h
      · exact ⟨more, by simpa using h⟩
    exact ⟨more, by simp⟩

/-- `part` has all but `left` bytes of the characters it begins, and those are the characters that
have `value` above the bits of these bytes. -/
def Heads (part : List UInt8) (left value : Nat) : Prop :=
  ∀ c : Char, part <+: String.utf8EncodeChar c
    ↔ c.utf8Size = part.length + left ∧ c.toNat / 64 ^ left = value

variable {part : List UInt8} {left value : Nat} {b : UInt8}

theorem Heads.getElem? (h : Heads part (left + 1) value) (hpart : part ≠ []) {c : Char}
    (hc : part <+: String.utf8EncodeChar c) : (String.utf8EncodeChar c)[part.length]?
      = some (UInt8.ofNat (c.toNat / 64 ^ left % 64 + 0x80)) := by
  have hsize := ((h c).1 hc).1
  have hpos := List.length_pos_iff.2 hpart
  rw [getElem?_utf8EncodeChar (by omega), octet, if_neg (by omega),
    show c.utf8Size - 1 - part.length = left by omega]

/-- A byte that goes on adds its six bits. -/
theorem Heads.snoc (h : Heads part (left + 1) value) (hpart : part ≠ [])
    (hb : 0x80 ≤ b.toNat ∧ b.toNat ≤ 0xBF) :
    Heads (part ++ [b]) left (value * 0x40 + (b.toNat - 0x80)) := by
  intro c
  have hdiv : c.toNat / 64 ^ (left + 1) = c.toNat / 64 ^ left / 64 := by
    rw [Nat.pow_succ, Nat.div_div_eq_div_mul]
  have hbyte : ∀ x < 64, UInt8.ofNat (x + 0x80) = b ↔ x + 0x80 = b.toNat := fun x hx => by
    rw [← UInt8.toNat_inj, UInt8.toNat_ofNat_of_lt' (by simp only [UInt8.size]; omega)]
  have hlast := hbyte _ (Nat.mod_lt (c.toNat / 64 ^ left) (by decide))
  have hc := h c
  rw [hdiv] at hc
  simp only [snoc_prefix_iff, List.length_append, List.length_singleton]
  constructor
  · rintro ⟨hpart', hnext⟩
    rw [h.getElem? hpart hpart', Option.some_inj, hlast] at hnext
    obtain ⟨hsize, hvalue⟩ := hc.1 hpart'
    omega
  · rintro ⟨hsize, hvalue⟩
    have hpart' : part <+: String.utf8EncodeChar c := hc.2 (by omega)
    refine ⟨hpart', ?_⟩
    rw [h.getElem? hpart hpart', Option.some_inj, hlast]
    omega

/-- What goes on with a part is one of the bytes from 0x80 to 0xBF that leave a code point within
reach. -/
theorem Heads.begins_snoc (h : Heads part (left + 1) value) (hpart : part ≠ []) :
    Begins (part ++ [b]) ↔ (0x80 ≤ b.toNat ∧ b.toNat ≤ 0xBF)
      ∧ Span (part.length + left + 1) ((value * 0x40 + (b.toNat - 0x80)) * 64 ^ left) := by
  have hpos := List.length_pos_iff.2 hpart
  constructor
  · rintro ⟨c, hc⟩
    obtain ⟨hpart', hnext⟩ := snoc_prefix_iff.1 hc
    rw [h.getElem? hpart hpart', Option.some_inj] at hnext
    have hb : 0x80 ≤ b.toNat ∧ b.toNat ≤ 0xBF := by
      rw [← hnext, UInt8.toNat_ofNat_of_lt' (by simp only [UInt8.size]; omega)]
      omega
    obtain ⟨hsize, hvalue⟩ := (h.snoc hpart hb c).1 hc
    rw [List.length_append, List.length_singleton, Nat.add_right_comm] at hsize
    refine ⟨hb, ?_⟩
    rw [← hsize, ← hvalue]
    exact span_floor (span_utf8Size c) (by omega)
  · rintro ⟨hb, hspan⟩
    obtain ⟨c, hsize, hvalue⟩ := exists_of_span hspan
    refine ⟨c, (h.snoc hpart hb c).2 ⟨by simp; omega, ?_⟩⟩
    rw [hvalue, Nat.mul_div_cancel _ (Nat.pow_pos (by decide))]

/-- After two bytes, any byte from 0x80 to 0xBF goes on. -/
theorem Heads.begins_snoc_snoc (h : Heads part (left + 2) value) (hpart : part ≠ [])
    (hb : Begins (part ++ [b])) (b' : UInt8) :
    Begins (part ++ [b] ++ [b']) ↔ 0x80 ≤ b'.toNat ∧ b'.toNat ≤ 0xBF := by
  have hpos := List.length_pos_iff.2 hpart
  obtain ⟨hrange, hspan⟩ := (h.begins_snoc hpart).1 hb
  rw [(h.snoc hpart hrange).begins_snoc (by simp), List.length_append, List.length_singleton]
  refine ⟨fun hb' => hb'.1, fun hb' => ⟨hb', span_refine ?_ (by omega) (by omega)⟩⟩
  rwa [show part.length + 1 + left + 1 = part.length + (left + 1) + 1 by omega]

theorem Begins.shorten {l l' : List UInt8} (h : Begins l) (hl : l' <+: l) : Begins l' := by
  obtain ⟨c, hc⟩ := h
  exact ⟨c, hl.trans hc⟩

theorem begins_utf8EncodeChar (c : Char) : Begins (String.utf8EncodeChar c) :=
  ⟨c, List.prefix_rfl⟩

/-- A part with nothing to come is a character. -/
theorem Heads.eq_utf8EncodeChar (h : Heads part 0 value) (hpart : Begins part) :
    part = String.utf8EncodeChar (Char.ofNat value) := by
  obtain ⟨c, hc⟩ := hpart
  obtain ⟨hsize, hvalue⟩ := (h c).1 hc
  rw [Nat.pow_zero, Nat.div_one] at hvalue
  rw [← hvalue, Char.ofNat_toNat]
  exact hc.eq_of_length (by rw [String.length_utf8EncodeChar, hsize, Nat.add_zero])

/-- A part with something to come is none. -/
theorem Heads.ne_utf8EncodeChar (h : Heads part (left + 1) value) (c : Char) :
    part ≠ String.utf8EncodeChar c := by
  rintro rfl
  have hsize := ((h c).1 List.prefix_rfl).1
  rw [String.length_utf8EncodeChar] at hsize
  omega

end Parts

/-! ## What a state stands for -/

section States

/-- A part that is no character, before the bytes that follow it: a byte that begins none, or the
first bytes of one where the next byte does not go on. -/
inductive Broken : List UInt8 → List UInt8 → Prop
  | stray {b rest} : ¬ Begins [b] → Broken [b] rest
  | cut {part rest} : part ≠ [] → Begins part → (∀ c, part ≠ String.utf8EncodeChar c) →
      (∀ b ∈ rest.head?, ¬ Begins (part ++ [b])) → Broken part rest

/-- What was read since the last unit. -/
def Stands : State → List UInt8 → Prop
  | .between, part => part = []
  | .inside 0 _ _ _, _ => False
  | .inside (left + 1) value low high, part => part ≠ [] ∧ Begins part ∧ Heads part (left + 1) value
      ∧ ∀ b, low ≤ b ∧ b ≤ high ↔ Begins (part ++ [b])

variable {part rest : List UInt8} {left value : Nat} {low high b : UInt8}

theorem singleton_prefix_iff {c : Char} :
    [b] <+: String.utf8EncodeChar c ↔ octet c.utf8Size c.toNat 0 = b.toNat := by
  have hfirst := octet_zero_mem (span_utf8Size c)
  have hsnoc := @snoc_prefix_iff UInt8 [] (String.utf8EncodeChar c) b
  rw [List.nil_append] at hsnoc
  rw [hsnoc, List.length_nil, getElem?_utf8EncodeChar c.utf8Size_pos, Option.some_inj,
    ← UInt8.toNat_inj, UInt8.toNat_ofNat_of_lt' (by simp only [UInt8.size]; omega)]
  exact and_iff_right List.nil_prefix

theorem not_begins_singleton (hb : 0x80 ≤ b.toNat ∧ b.toNat < 0xC2 ∨ 0xF5 ≤ b.toNat) :
    ¬ Begins [b] := by
  rintro ⟨c, hc⟩
  have hfirst := octet_zero_mem (span_utf8Size c)
  rw [singleton_prefix_iff.1 hc] at hfirst
  omega

theorem heads_singleton
    (hvalue : left = 1 ∧ value < 0x20 ∨ left = 2 ∧ value < 0x10 ∨ left = 3 ∧ value < 0x08)
    (hb : value + mark (left + 1) = b.toNat) : Heads [b] left value := by
  intro c
  rw [singleton_prefix_iff, ← hb, List.length_singleton, Nat.add_comm 1 left]
  have hfirst := octet_zero_mem (span_utf8Size c)
  constructor
  · intro heq
    have hsize : c.utf8Size = left + 1 := by
      rw [heq] at hfirst
      obtain ⟨rfl, hvalue⟩ | ⟨rfl, hvalue⟩ | ⟨rfl, hvalue⟩ := hvalue <;>
        simp only [Nat.reduceAdd, mark] at hfirst <;> omega
    rw [octet, if_pos rfl, hsize, Nat.add_sub_cancel] at heq
    exact ⟨hsize, Nat.add_right_cancel heq⟩
  · rintro ⟨hsize, hbits⟩
    rw [octet, if_pos rfl, hsize, Nat.add_sub_cancel, hbits]

/-- A state inside a character after its first byte: the bounds of the second one leave the code
points of that many bytes. -/
theorem stands_singleton
    (hvalue : left = 0 ∧ value < 0x20 ∨ left = 1 ∧ value < 0x10 ∨ left = 2 ∧ value < 0x08)
    (hb : value + mark (left + 2) = b.toNat) (hlow : low ≤ high)
    (hbounds : ∀ b' : UInt8, low ≤ b' ∧ b' ≤ high ↔ (0x80 ≤ b'.toNat ∧ b'.toNat ≤ 0xBF)
      ∧ Span (left + 2) ((value * 0x40 + (b'.toNat - 0x80)) * 64 ^ left)) :
    Stands (.inside (left + 1) value low high) [b] := by
  have hheads : Heads [b] (left + 1) value := heads_singleton (by omega) hb
  have hgoes : ∀ b', low ≤ b' ∧ b' ≤ high ↔ Begins ([b] ++ [b']) := fun b' => by
    rw [hbounds, hheads.begins_snoc (by simp), List.length_singleton,
      show 1 + left + 1 = left + 2 by omega]
  have hbegins : Begins [b] :=
    ((hgoes low).1 ⟨UInt8.le_refl _, hlow⟩).shorten (List.prefix_append _ _)
  exact ⟨by simp, hbegins, hheads, hgoes⟩

/-- A byte between characters is one itself, or begins none, or begins one. -/
theorem lead_cases (b : UInt8) :
    (∃ c, lead b = ([some c], .between) ∧ [b] = String.utf8EncodeChar c)
      ∨ lead b = ([none], .between) ∧ ¬ Begins [b]
      ∨ ∃ state, lead b = ([], state) ∧ Stands state [b] := by
  generalize hlead : lead b = read
  unfold lead at hlead
  simp only [UInt8.lt_iff_toNat_lt, ← UInt8.toNat_inj, UInt8.reduceToNat] at hlead
  repeat' split at hlead
  all_goals subst hlead
  · rename_i hone
    obtain ⟨c, hsize, hvalue⟩ := exists_of_span (n := 1) (.inl ⟨rfl, hone⟩)
    refine .inl ⟨c, by rw [← hvalue, Char.ofNat_toNat], ?_⟩
    refine (singleton_prefix_iff.2 ?_).eq_of_length ?_
    · simp [hsize, hvalue, octet, mark]
    · rw [String.length_utf8EncodeChar, hsize, List.length_singleton]
  · exact .inr (.inl ⟨rfl, not_begins_singleton (by omega)⟩)
  on_goal 8 => exact .inr (.inl ⟨rfl, not_begins_singleton (by omega)⟩)
  -- in each row that is left, the bounds of the next byte are those of the code points in the span
  all_goals
    refine .inr (.inr ⟨_, rfl, stands_singleton (by omega) ?_ (by decide) fun b' => ?_⟩)
    · simp only [mark]
      omega
    · simp only [UInt8.le_iff_toNat_le, UInt8.reduceToNat]
      unfold Span
      omega

/-- A byte inside a character completes it, or goes on with it, or breaks it off. -/
theorem inside_cases (h : Stands (.inside left value low high) part) (b : UInt8) :
    (∃ c, feed (.inside left value low high) b = ([some c], .between)
        ∧ part ++ [b] = String.utf8EncodeChar c)
      ∨ (∃ state, feed (.inside left value low high) b = ([], state) ∧ Stands state (part ++ [b]))
      ∨ feed (.inside left value low high) b = (none :: (lead b).1, (lead b).2)
        ∧ ∀ rest, Broken part (b :: rest) := by
  rcases left with _ | left
  · exact h.elim
  obtain ⟨hpart, hbegins, hheads, hgoes⟩ := h
  by_cases hb : low ≤ b ∧ b ≤ high
  · have hnext : Begins (part ++ [b]) := (hgoes b).1 hb
    have hsnoc := hheads.snoc hpart ((hheads.begins_snoc hpart).1 hnext).1
    rcases left with _ | left
    · exact .inl ⟨_, by simp only [feed, if_pos hb]; rfl, hsnoc.eq_utf8EncodeChar hnext⟩
    · refine .inr (.inl ⟨.inside (left + 1) (value * 0x40 + (b.toNat - 0x80)) 0x80 0xBF, ?_,
        by simp, hnext, hsnoc, fun b' => ?_⟩)
      · simp only [feed, if_pos hb]
        rfl
      rw [hheads.begins_snoc_snoc hpart hnext]
      rfl
  · refine .inr (.inr ⟨by simp only [feed, if_neg hb], fun rest => ?_⟩)
    refine .cut hpart hbegins hheads.ne_utf8EncodeChar fun b' hb' => ?_
    obtain rfl : b = b' := by simpa using hb'
    exact (hgoes b).not.1 hb

end States

/-! ## Readings -/

section Readings

/-- Bytes taken apart into characters and broken parts. -/
inductive Reading : List UInt8 → List (Option Char) → Prop
  | nothing : Reading [] []
  | char {rest us} (c : Char) : Reading rest us →
      Reading (String.utf8EncodeChar c ++ rest) (some c :: us)
  | broken {part rest us} : Broken part rest → Reading rest us → Reading (part ++ rest) (none :: us)

variable {part rest bs : List UInt8} {us us' : List (Option Char)}

/-- A byte read between characters, once the bytes after it are read in whatever state. -/
theorem reading_lead {b : UInt8}
    (ih : ∀ state part, Stands state part → Reading (part ++ bs) (unitsFrom state bs)) :
    Reading (b :: bs) ((lead b).1 ++ unitsFrom (lead b).2 bs) := by
  obtain ⟨c, hlead, hc⟩ | ⟨hlead, hstray⟩ | ⟨state, hlead, hstate⟩ := lead_cases b
  · have hchar := Reading.char c (ih .between [] rfl)
    rw [← hc] at hchar
    rw [hlead]
    exact hchar
  · rw [hlead]
    exact .broken (.stray hstray) (ih .between [] rfl)
  · rw [hlead]
    exact ih state [b] hstate

/-- From any state, what it stands for is read together with the bytes that are left. -/
theorem reading_unitsFrom (bs : List UInt8) : ∀ (state : State) (part : List UInt8),
    Stands state part → Reading (part ++ bs) (unitsFrom state bs) := by
  induction bs with
  | nil =>
    rintro (_ | ⟨_ | left, value, low, high⟩) part hstands
    · rw [hstands]
      exact .nothing
    · exact hstands.elim
    · obtain ⟨hpart, hbegins, hheads, -⟩ := hstands
      exact .broken (.cut hpart hbegins hheads.ne_utf8EncodeChar (by simp)) .nothing
  | cons b bs ih =>
    rintro (_ | ⟨left, value, low, high⟩) part hstands
    · rw [hstands]
      exact reading_lead ih
    · rw [unitsFrom]
      obtain ⟨c, hfeed, hc⟩ | ⟨state, hfeed, hstate⟩ | ⟨hfeed, hbroken⟩ := inside_cases hstands b
      · have hchar := Reading.char c (ih .between [] rfl)
        rw [← hc, List.append_assoc] at hchar
        rw [hfeed]
        exact hchar
      · have hinside := ih state _ hstate
        rw [List.append_assoc] at hinside
        rw [hfeed]
        exact hinside
      · rw [hfeed]
        exact .broken (hbroken bs) (reading_lead ih)

/-- Decoding reads as many bytes as it can for each broken part. -/
theorem reading_units (bs : List UInt8) : Reading bs (units bs) :=
  reading_unitsFrom bs .between [] rfl

example : units [0x61, 0xF0, 0x9F, 0x98, 0xFF, 0xC3, 0xA9] = [some 'a', none, none, some 'é'] := by
  decide

/-- No character goes on where another ends. -/
theorem prefix_free {c d : Char} (h : String.utf8EncodeChar c <+: String.utf8EncodeChar d) :
    c = d := by
  obtain ⟨more, hmore⟩ := h
  have hc := ByteArray.utf8DecodeChar?_utf8EncodeChar_append (c := c) (b := more.toByteArray)
  have hd := ByteArray.utf8DecodeChar?_utf8EncodeChar_append (c := d) (b := .empty)
  rw [← List.toByteArray_append, hmore] at hc
  rw [ByteArray.append_empty, hc] at hd
  exact Option.some_inj.1 hd

theorem Broken.ne_nil (h : Broken part rest) : part ≠ [] := by
  cases h with
  | stray => simp
  | cut hpart => exact hpart

theorem Broken.ne_utf8EncodeChar (h : Broken part rest) (c : Char) :
    part ≠ String.utf8EncodeChar c := by
  cases h with
  | stray hstray => exact fun hc => hstray (hc ▸ begins_utf8EncodeChar c)
  | cut _ _ hne => exact hne c

/-- Nothing longer begins a character there. -/
theorem Broken.prefix_of_begins (h : Broken part rest) {p : List UInt8} (hp : p <+: part ++ rest)
    (hbegins : Begins p) : p <+: part := by
  rcases List.prefix_or_prefix_of_prefix hp (List.prefix_append part rest) with hle | ⟨more, rfl⟩
  · exact hle
  rcases more with _ | ⟨b, more⟩
  · simp
  exfalso
  cases h with
  | stray hstray => exact hstray (hbegins.shorten (List.prefix_append _ _))
  | cut _ _ _ hnext =>
    -- `p` has the next byte, with which the part would begin a character
    obtain ⟨after, rfl⟩ : ∃ after, rest = b :: more ++ after := by
      obtain ⟨after, hafter⟩ := (List.prefix_append_right_inj part).1 hp
      exact ⟨after, hafter.symm⟩
    refine hnext b rfl (hbegins.shorten ?_)
    exact (List.prefix_append_right_inj part).2 ⟨more, rfl⟩

theorem Broken.append_ne (h : Broken part rest) (c : Char) (more : List UInt8) :
    part ++ rest ≠ String.utf8EncodeChar c ++ more := by
  intro heq
  have hle := h.prefix_of_begins (heq ▸ List.prefix_append _ _) (begins_utf8EncodeChar c)
  refine h.ne_utf8EncodeChar c (hle.eq_of_length_le ?_).symm
  cases h with
  | stray =>
    rw [String.length_utf8EncodeChar]
    exact c.utf8Size_pos
  | cut _ hbegins =>
    obtain ⟨d, hd⟩ := hbegins
    obtain rfl := prefix_free (hle.trans hd)
    exact hd.length_le

theorem Broken.unique {part' rest' : List UInt8} (h : Broken part rest) (h' : Broken part' rest')
    (heq : part ++ rest = part' ++ rest') : part = part' := by
  have hle : Begins part' → part' <+: part :=
    h.prefix_of_begins (heq ▸ List.prefix_append _ _)
  have hle' : Begins part → part <+: part' :=
    h'.prefix_of_begins (heq.symm ▸ List.prefix_append _ _)
  have hpos := List.length_pos_iff.2 h.ne_nil
  have hpos' := List.length_pos_iff.2 h'.ne_nil
  cases h with
  | stray =>
    cases h' with
    | stray => exact congrArg ([·]) (List.cons.inj heq).1
    | cut _ hbegins' => exact ((hle hbegins').eq_of_length_le hpos').symm
  | cut _ hbegins =>
    cases h' with
    | stray => exact (hle' hbegins).eq_of_length_le hpos
    | cut _ hbegins' =>
      exact (hle' hbegins).eq_of_length_le (hle hbegins').length_le

/-- There is one reading. -/
theorem Reading.unique {bs' : List UInt8} (h : Reading bs us) (h' : Reading bs' us')
    (heq : bs = bs') : us = us' := by
  induction h generalizing bs' us' with
  | nothing =>
    cases h' with
    | nothing => rfl
    | char c => simp [String.utf8EncodeChar_ne_nil] at heq
    | broken hbroken => simp [hbroken.ne_nil] at heq
  | char c _ ih =>
    cases h' with
    | nothing => simp [String.utf8EncodeChar_ne_nil] at heq
    | char d hrest =>
      obtain rfl : c = d := by
        rcases List.prefix_or_prefix_of_prefix (List.prefix_append _ _)
          (heq ▸ List.prefix_append _ _) with hdc | hcd
        · exact (prefix_free hdc).symm
        · exact prefix_free hcd
      rw [ih hrest (List.append_cancel_left heq)]
    | broken hbroken => exact absurd heq.symm (hbroken.append_ne _ _)
  | broken hbroken _ ih =>
    cases h' with
    | nothing => simp [hbroken.ne_nil] at heq
    | char c => exact absurd heq (hbroken.append_ne _ _)
    | broken hbroken' hrest =>
      obtain rfl := hbroken.unique hbroken' heq
      rw [ih hrest (List.append_cancel_left heq)]

end Readings

/-! ## Encodings and lengths -/

section Lengths

theorem length_encode (cs : List Char) : (encode cs).length = (cs.map Char.utf8Size).sum := by
  simp [encode, List.length_flatMap]

theorem reading_encode (cs : List Char) : Reading (encode cs) (cs.map some) := by
  induction cs with
  | nil => exact .nothing
  | cons c cs ih => exact .char c ih

theorem units_encode (cs : List Char) : units (encode cs) = cs.map some :=
  (reading_units _).unique (reading_encode cs) rfl

theorem decodeLossy_encode (cs : List Char) : decodeLossy (encode cs) = cs := by
  simp [decodeLossy, units_encode]

/-- What is read as characters alone is their encoding. -/
theorem Reading.eq_encode {bs : List UInt8} {cs : List Char} (h : Reading bs (cs.map some)) :
    bs = encode cs := by
  induction cs generalizing bs with
  | nil =>
    cases h
    rfl
  | cons c cs ih =>
    rw [List.map_cons] at h
    cases h with
    | char _ hrest =>
      rw [ih hrest]
      rfl

theorem mapM_id_eq_some_iff {α : Type} {us : List (Option α)} {as : List α} :
    us.mapM id = some as ↔ us = as.map some := by
  induction us generalizing as with
  | nil => cases as <;> simp
  | cons u us ih =>
    rcases u with _ | a
    · cases as <;> simp
    · rcases as with _ | ⟨a', as⟩ <;> simp [Option.bind_eq_some_iff, ih, and_comm]

/-- Bytes are accepted as the text whose encoding they are, and as no other. -/
theorem decode?_eq_some_iff {bs : List UInt8} {cs : List Char} :
    decode? bs = some cs ↔ bs = encode cs := by
  rw [decode?, mapM_id_eq_some_iff]
  constructor
  · intro h
    exact (h ▸ reading_units bs).eq_encode
  · rintro rfl
    exact units_encode cs

theorem Broken.length_le {part rest : List UInt8} (h : Broken part rest) : part.length ≤ 3 := by
  cases h with
  | stray => simp
  | cut _ hbegins hne =>
    obtain ⟨c, hc⟩ := hbegins
    have hle := hc.length_le
    have hlt : part.length ≠ (String.utf8EncodeChar c).length := fun h => hne c (hc.eq_of_length h)
    rw [String.length_utf8EncodeChar] at hle hlt
    have hfour := c.utf8Size_le_four
    omega

theorem Reading.length_le {bs : List UInt8} {us : List (Option Char)} (h : Reading bs us) :
    bs.length ≤ ((us.map (·.getD replacement)).map Char.utf8Size).sum := by
  induction h with
  | nothing => exact Nat.le_refl 0
  | char c _ ih =>
    rw [List.length_append, String.length_utf8EncodeChar, List.map_cons, List.map_cons,
      List.sum_cons]
    exact Nat.add_le_add_left ih _
  | broken hbroken _ ih =>
    have hsize : replacement.utf8Size = 3 := by decide
    rw [List.length_append, List.map_cons, List.map_cons, List.sum_cons]
    exact Nat.add_le_add (hbroken.length_le.trans hsize.ge) ih

/-- The text put for bytes is not shorter than they are. -/
theorem length_le_decodeLossy (bs : List UInt8) :
    bs.length ≤ ((decodeLossy bs).map Char.utf8Size).sum :=
  (reading_units bs).length_le

end Lengths

end Collate.Utf8
