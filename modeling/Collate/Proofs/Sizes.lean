import Mathlib.Algebra.BigOperators.Group.List.Basic
import Mathlib.Algebra.Order.BigOperators.Group.List
import Collate.Proofs.Decoding
import Collate.Proofs.Written

/-!
# The size of a payload and the length of its text

Both the bytes that a payload carries and the bytes of its text are sums over its nodes
(`Payload.sum_nodes`), so they compare node by node. The text is never the shorter one, whatever the
bytes are; and if all of them are texts, it exceeds the size by the word of each null and by the
brackets and separators of each list (`Payload.display_exceeds`).
-/

namespace Collate

/-! ## The sizes of texts -/

theorem utf8ByteSize_ofList (cs : List Char) :
    (String.ofList cs).utf8ByteSize = (cs.map Char.utf8Size).sum := by
  induction cs with
  | nil => rfl
  | cons c cs ih =>
    rw [String.ofList_cons, String.utf8ByteSize_append, String.utf8ByteSize_singleton, ih,
      List.map_cons, List.sum_cons]

theorem utf8ByteSize_join (texts : List String) :
    (String.join texts).utf8ByteSize = (texts.map String.utf8ByteSize).sum := by
  induction texts with
  | nil => rfl
  | cons text texts ih =>
    rw [String.join_cons, String.utf8ByteSize_append, ih, List.map_cons, List.sum_cons]

theorem utf8ByteSize_intercalate (sep : String) (texts : List String) :
    (sep.intercalate texts).utf8ByteSize
      = (texts.map String.utf8ByteSize).sum + sep.utf8ByteSize * (texts.length - 1) := by
  induction texts with
  | nil => simp
  | cons text texts ih =>
    rcases texts with _ | ⟨next, texts⟩
    · simp
    · rw [String.intercalate_cons_cons, String.utf8ByteSize_append, String.utf8ByteSize_append, ih]
      simp only [List.map_cons, List.sum_cons, List.length_cons, Nat.add_sub_cancel, Nat.mul_add]
      omega

namespace Payload

/-! ## The nodes of a payload -/

mutual

/-- A payload and all that is within it. -/
def nodes : Payload → List Payload
  | .list items => .list items :: nodesOf items
  | p => [p]
termination_by structural p => p

def nodesOf : List Payload → List Payload
  | [] => []
  | p :: rest => nodes p ++ nodesOf rest
termination_by structural ps => ps

end

theorem nodes_list (items : List Payload) :
    (Payload.list items).nodes = .list items :: items.flatMap nodes := by
  have hnodesOf : nodesOf items = items.flatMap nodes := by
    induction items with
    | nil => rfl
    | cons p items ih => rw [nodesOf, ih, List.flatMap_cons]
  rw [← hnodesOf]
  rfl

/-- A statement about a list may build on the same statement about its items. -/
theorem holds_of_items {motive : Payload → Prop}
    (leaf : ∀ p, (∀ items, p ≠ .list items) → motive p)
    (list : ∀ items, (∀ p ∈ items, motive p) → motive (.list items)) : ∀ p, motive p
  | .list items => list items (among items)
  | .null | .text _ | .chars _ | .bytes _ | .value _ => leaf _ (by simp)
where
  among : ∀ items : List Payload, ∀ p ∈ items, motive p
    | [] => by simp
    | p :: items => List.forall_mem_cons.2 ⟨holds_of_items leaf list p, among items⟩

theorem nodes_leaf {p : Payload} (h : ∀ items, p ≠ .list items) : p.nodes = [p] := by
  cases p with
  | list items => exact absurd rfl (h items)
  | _ => rfl

/-- A size that adds up over lists is the sum of what each node has of its own. -/
theorem sum_nodes {size own : Payload → Nat}
    (hleaf : ∀ p, (∀ items, p ≠ .list items) → size p = own p)
    (hlist : ∀ items, size (.list items) = own (.list items) + (items.map size).sum) (p : Payload) :
    size p = (p.nodes.map own).sum := by
  induction p using holds_of_items with
  | leaf p hp => rw [nodes_leaf hp, hleaf p hp, List.map_singleton, List.sum_singleton]
  | list items ih =>
    have hitems : items.map size = items.map fun p => (p.nodes.map own).sum :=
      List.map_congr_left ih
    rw [hlist, hitems, nodes_list, List.map_cons, List.sum_cons, List.map_flatMap,
      List.flatMap, List.sum_flatten, List.map_map]
    rfl

/-! ## What a node has of its own -/

/-- The bytes that a node carries itself, not counting its items. -/
def carried : Payload → Nat
  | .list _ => 0
  | p => p.byteLength

/-- The bytes of the text that a node adds to that of its items. -/
def shown : Payload → Nat
  | .list items => 2 + 2 * (items.length - 1)
  | p => p.display.utf8ByteSize

/-- What the text of a node has beyond what it carries: the word of a null, and of a list the
brackets and, between items, the comma and the blank. -/
def surplus : Payload → Nat
  | .null => 4
  | .list items => 2 + 2 * (items.length - 1)
  | _ => 0

theorem byteLengths_eq (items : List Payload) : byteLengths items = (items.map byteLength).sum := by
  induction items with
  | nil => rfl
  | cons p items ih => rw [byteLengths, ih, List.map_cons, List.sum_cons]

theorem byteLength_eq_sum (p : Payload) : p.byteLength = (p.nodes.map carried).sum := by
  refine sum_nodes (fun p hp => ?_) (fun items => ?_) p
  · cases p with
    | list items => exact absurd rfl (hp items)
    | _ => rfl
  · rw [carried, Nat.zero_add, ← byteLengths_eq]
    rfl

theorem utf8ByteSize_display_eq_sum (p : Payload) :
    p.display.utf8ByteSize = (p.nodes.map shown).sum := by
  refine @sum_nodes (fun p => p.display.utf8ByteSize) shown (fun p hp => ?_) (fun items => ?_) p
  · cases p with
    | list items => exact absurd rfl (hp items)
    | _ => rfl
  · have hsigns : "[".utf8ByteSize = 1 ∧ "]".utf8ByteSize = 1 ∧ ", ".utf8ByteSize = 2 := by decide
    rw [display_list, String.utf8ByteSize_append, String.utf8ByteSize_append,
      utf8ByteSize_intercalate, List.map_map, List.length_map, shown]
    simp only [hsigns, Function.comp_def]
    omega

theorem shown_bytes (bs : List UInt8) :
    (Payload.bytes bs).shown = ((Utf8.decodeLossy bs).map Char.utf8Size).sum := by
  have hdisplay : (Payload.bytes bs).display = String.ofList (Utf8.decodeLossy bs) := by
    simp [display, pieces]
  rw [← utf8ByteSize_ofList, ← hdisplay]
  rfl

theorem utf8ByteSize_display_chars (cs : List Char) :
    (Payload.chars cs).display.utf8ByteSize = (Payload.chars cs).byteLength := by
  have hsizes : (cs.map Char.toString).map String.utf8ByteSize = cs.map Char.utf8Size := by
    rw [List.map_map]
    exact List.map_congr_left fun c _ => String.utf8ByteSize_singleton
  have hpieces : (Payload.chars cs).pieces = cs.map Char.toString := rfl
  rw [display, hpieces, utf8ByteSize_join, hsizes]
  rfl

theorem carried_le_shown (p : Payload) : p.carried ≤ p.shown := by
  cases p with
  | null => exact Nat.zero_le _
  | text s => simp [carried, shown, byteLength, display, pieces]
  | chars cs => exact (utf8ByteSize_display_chars cs).ge
  | bytes bs =>
    rw [shown_bytes]
    exact Utf8.length_le_decodeLossy bs
  | value v => exact Nat.le_refl _
  | list items => exact Nat.zero_le _

theorem shown_eq {p : Payload} (h : ∀ bs, p = .bytes bs → ∃ s, bs = Utf8.bytes s) :
    p.shown = p.carried + p.surplus := by
  cases p with
  | null => rfl
  | text s => simp [carried, shown, byteLength, display, pieces, surplus]
  | chars cs => exact utf8ByteSize_display_chars cs
  | bytes bs =>
    obtain ⟨s, rfl⟩ := h bs rfl
    rw [shown_bytes, Utf8.bytes, Utf8.decodeLossy_encode]
    exact (Utf8.length_encode s.toList).symm
  | value v => rfl
  | list items => exact (Nat.zero_add _).symm

/-! ## Whole payloads -/

/-- The text of a payload has at least as many bytes as the payload carries. If all bytes within it
are texts, it has more by just the words of the nulls and the signs of the lists. -/
theorem display_exceeds (p : Payload) :
    p.byteLength ≤ p.display.utf8ByteSize
      ∧ ((∀ bs, .bytes bs ∈ p.nodes → ∃ s, bs = Utf8.bytes s) →
        p.display.utf8ByteSize = p.byteLength + (p.nodes.map surplus).sum) := by
  rw [byteLength_eq_sum, utf8ByteSize_display_eq_sum]
  constructor
  · exact List.sum_le_sum fun q _ => carried_le_shown q
  · intro h
    rw [← List.sum_map_add]
    refine congrArg List.sum (List.map_congr_left fun q hq => shown_eq fun bs hbs => ?_)
    exact h bs (hbs ▸ hq)

/-- A list with a null, a list of two texts and an empty list. -/
def nested : Payload :=
  .list [.null, .list [.bytes (Utf8.bytes "é"), .text "x"], .list []]

theorem nested_exceeds :
    (∀ bs, .bytes bs ∈ nested.nodes → ∃ s, bs = Utf8.bytes s)
      ∧ nested.byteLength = 3 ∧ nested.display.utf8ByteSize = 3 + (6 + 4 + 4 + 2) := by
  have hbytes : ∀ bs, .bytes bs ∈ nested.nodes → ∃ s, bs = Utf8.bytes s := by
    intro bs hbs
    simp only [nested, nodes, nodesOf, List.cons_append, List.nil_append, List.mem_cons,
      List.not_mem_nil, reduceCtorEq, bytes.injEq, or_false, false_or] at hbs
    exact ⟨"é", hbs⟩
  exact ⟨hbytes, by decide, (display_exceeds nested).2 hbytes⟩

end Payload

end Collate
