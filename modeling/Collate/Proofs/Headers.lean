import Collate.Proofs.Correlated
import Mathlib.Data.List.Induction

/-!
# What the headers of a draft read

Two ways of writing lead to the same headers: setters for the three fields, and headers set by name,
of which some values are passed over and an empty correlation id clears. A read goes by name all the
same. What a call leaves under a name does not depend on the draft (`Call.leaves?`), so the last
call that leaves anything there decides how the name reads, whatever was called in between, and
calls that are about different names may change places (`Draft.last_call_decides`).
-/

namespace Collate

/-! ## Writing in order -/

/-- If what a write leaves to be read does not depend on what was there, a read finds what the last
write left that left anything. -/
theorem read_foldl {α β γ : Type} {write : β → α → β} (read : β → γ) {leaves? : α → Option γ}
    (h : ∀ b a, read (write b a) = (leaves? a).getD (read b)) (l : List α) (b : β) :
    read (l.foldl write b) = (l.reverse.findSome? leaves?).getD (read b) := by
  induction l using List.reverseRecOn with
  | nil => rfl
  | append_singleton l a ih =>
    rw [List.foldl_append, List.foldl_cons, List.foldl_nil, h, ih, List.reverse_append,
      List.reverse_singleton, List.singleton_append, List.findSome?_cons]
    cases leaves? a <;> rfl

/-! ## Headers set by name -/

namespace Header

@[simp] theorem correlationId_ne_sequenceNumber : correlationId ≠ sequenceNumber := by decide

@[simp] theorem correlationId_ne_sequenceSize : correlationId ≠ sequenceSize := by decide

@[simp] theorem sequenceNumber_ne_sequenceSize : sequenceNumber ≠ sequenceSize := by decide

theorem known_or_plain (name : String) : name = correlationId ∨ name = sequenceNumber
    ∨ name = sequenceSize
    ∨ name ∉ wellKnown ∧ name ≠ correlationId ∧ name ≠ sequenceNumber ∧ name ≠ sequenceSize := by
  simp only [wellKnown, List.mem_cons, List.not_mem_nil, or_false]
  tauto

end Header

namespace Draft

/-- A header set by name reaches the field of that name, or the custom headers. -/
theorem setHeader_eq (d : Draft) (name value : String) : d.setHeader name value
    = { payload := d.payload
        correlationId := (if name = Header.correlationId then
            some (if value.isEmpty then none else some ⟨value⟩) else none).getD d.correlationId
        sequenceNumber := (if name = Header.sequenceNumber then sequenceValue? value
            else none).getD d.sequenceNumber
        sequenceSize := (if name = Header.sequenceSize then sequenceValue? value
            else none).getD d.sequenceSize
        custom := if name ∈ Header.wellKnown then d.custom else d.custom.insert name value } := by
  rcases Header.known_or_plain name with rfl | rfl | rfl | ⟨hplain, hid, hnumber, hsize⟩
  · simp [setHeader, Header.wellKnown]
  · cases hv : sequenceValue? value <;>
      simp [setHeader, hv, number, Header.wellKnown, Header.correlationId_ne_sequenceNumber.symm]
  · cases hv : sequenceValue? value <;>
      simp [setHeader, hv, size, Header.wellKnown, Header.correlationId_ne_sequenceSize.symm,
        Header.sequenceNumber_ne_sequenceSize.symm]
  · simp [setHeader, hplain, hid, hnumber, hsize]

end Draft

/-! ## Reading by name -/

namespace Content

@[simp] theorem header?_correlationId (c : Content) :
    c.header? Header.correlationId = c.correlationId.map Key.text := if_pos rfl

@[simp] theorem header?_sequenceNumber (c : Content) :
    c.header? Header.sequenceNumber = positive c.sequenceNumber := by
  simp [header?, Header.correlationId_ne_sequenceNumber.symm]

@[simp] theorem header?_sequenceSize (c : Content) :
    c.header? Header.sequenceSize = positive c.sequenceSize := by
  simp [header?, Header.correlationId_ne_sequenceSize.symm,
    Header.sequenceNumber_ne_sequenceSize.symm]

theorem positive_inj {n m : Nat} (h : positive n = positive m) : n = m := by
  unfold positive at h
  split_ifs at h with hn hm
  · have hdigits := congrArg String.toList (Option.some.inj h)
    rw [Nat.toString_eq_ofList_toDigits, Nat.toString_eq_ofList_toDigits, String.toList_ofList,
      String.toList_ofList] at hdigits
    rw [← Nat.ofDigitChars_ten_toDigits (n := n), hdigits, Nat.ofDigitChars_ten_toDigits]
  · omega

/-- Contents without well-known names among the custom headers are told apart by their payloads and
headers. -/
theorem ext_header? {a b : Content} (ha : ∀ name ∈ Header.wellKnown, a.custom.get? name = none)
    (hb : ∀ name ∈ Header.wellKnown, b.custom.get? name = none) (hp : a.payload = b.payload)
    (h : ∀ name, a.header? name = b.header? name) : a = b := by
  have hkey : a.correlationId = b.correlationId := by
    have htext := h Header.correlationId
    simp only [header?_correlationId] at htext
    exact Option.map_injective (fun k k' hk => by cases k; cases k'; exact congrArg Key.mk hk) htext
  have hnumber : a.sequenceNumber = b.sequenceNumber :=
    positive_inj (by simpa using h Header.sequenceNumber)
  have hsize : a.sequenceSize = b.sequenceSize :=
    positive_inj (by simpa using h Header.sequenceSize)
  have hcustom : a.custom = b.custom := Dictionary.ext_get? fun name => by
    by_cases hname : name ∈ Header.wellKnown
    · rw [ha name hname, hb name hname]
    · rw [← header?_of_plain hname, ← header?_of_plain hname, h]
  cases a
  cases b
  simp_all

end Content

/-- How a name reads that was set to a value; a value that is no sequence value is passed over. -/
def Header.reading? (name value : String) : Option (Option String) :=
  if name = correlationId then some (if value.isEmpty then none else some value)
  else if name = sequenceNumber ∨ name = sequenceSize then
    (Draft.sequenceValue? value).map Content.positive
  else some (some value)

/-- What an entry leaves under a name. -/
def Header.left? (name : String) (entry : String × String) : Option (Option String) :=
  if entry.1 = name then reading? name entry.2 else none

namespace Draft

theorem header?_setHeader (d : Draft) (entry : String × String) (name : String) :
    Content.header? (d.setHeader entry.1 entry.2) name
      = (Header.left? name entry).getD (Content.header? d name) := by
  obtain ⟨other, value⟩ := entry
  rw [setHeader_eq]
  rcases Header.known_or_plain name with rfl | rfl | rfl | ⟨hplain, hid, hnumber, hsize⟩
  · by_cases ho : other = Header.correlationId
    · by_cases hv : value.isEmpty <;> simp [Header.left?, Header.reading?, ho, hv]
    · simp [Header.left?, ho]
  · by_cases ho : other = Header.sequenceNumber
    · cases hv : sequenceValue? value <;>
        simp [Header.left?, Header.reading?, ho, hv, Header.correlationId_ne_sequenceNumber.symm]
    · simp [Header.left?, ho]
  · by_cases ho : other = Header.sequenceSize
    · cases hv : sequenceValue? value <;>
        simp [Header.left?, Header.reading?, ho, hv, Header.correlationId_ne_sequenceSize.symm,
          Header.sequenceNumber_ne_sequenceSize.symm]
    · simp [Header.left?, ho]
  · rw [Content.header?_of_plain hplain, Content.header?_of_plain hplain]
    by_cases ho : other = name
    · simp [Header.left?, Header.reading?, ho, hplain, hid, hnumber, hsize]
    · split_ifs <;> simp [Header.left?, ho]

theorem header?_setHeaders (d : Draft) (entries : List (String × String)) (name : String) :
    Content.header? (d.setHeaders entries) name
      = (entries.reverse.findSome? (Header.left? name)).getD (Content.header? d name) :=
  read_foldl (fun d => Content.header? d name) (fun d e => header?_setHeader d e name) entries d

end Draft

/-! ## Calls -/

namespace Draft

/-- A call of a setter, or a new start from a message that was a draft. -/
inductive Call where
  | payload (p : Payload)
  | correlate (key : Key)
  | uncorrelate
  | number (n : Nat)
  | size (n : Nat)
  | header (name value : String)
  | headers (entries : List (String × String))
  | restart (m : Message) (made : m.Made)

namespace Call

def apply (d : Draft) : Call → Draft
  | payload p => d.withPayload p
  | correlate key => d.correlate key
  | uncorrelate => d.uncorrelate
  | number n => d.number n
  | size n => d.size n
  | header name value => d.setHeader name value
  | headers entries => d.setHeaders entries
  | restart m _ => .ofMessage m

/-- How a name reads after a call, if the call has an effect on it. A sequence field of zero and a
correlation id that was taken back or set to nothing by name read as absent. -/
def leaves? (name : String) : Call → Option (Option String)
  | payload _ => none
  | correlate key => if name = Header.correlationId then some (some key.text) else none
  | uncorrelate => if name = Header.correlationId then some none else none
  | number n => if name = Header.sequenceNumber then some (Content.positive n) else none
  | size n => if name = Header.sequenceSize then some (Content.positive n) else none
  | header other value => Header.left? name (other, value)
  | headers entries => entries.reverse.findSome? (Header.left? name)
  | restart m _ => some (m.header? name)

/-- The payload after a call, if the call has an effect on it. -/
def payload? : Call → Option Payload
  | payload p => some p
  | restart m _ => some m.payload
  | _ => none

/-- No name, and not the payload, is affected by both calls. -/
structure Apart (a b : Call) : Prop where
  names : ∀ name, a.leaves? name = none ∨ b.leaves? name = none
  payload : a.payload? = none ∨ b.payload? = none

theorem made_apply {d : Draft} (h : d.Made) (c : Call) : (apply d c).Made := by
  cases c with
  | payload p => exact h.withPayload p
  | correlate key => exact h.correlate key
  | uncorrelate => exact h.uncorrelate
  | number n => exact h.number n
  | size n => exact h.size n
  | header name value => exact h.setHeader name value
  | headers entries => exact h.setHeaders entries
  | restart m made => exact .ofMessage made

theorem header?_apply (d : Draft) (c : Call) (name : String) :
    Content.header? (apply d c) name = (c.leaves? name).getD (Content.header? d name) := by
  cases c with
  | payload p => rfl
  | header other value => exact header?_setHeader d (other, value) name
  | headers entries => exact header?_setHeaders d entries name
  | restart m made => rfl
  | _ =>
    rcases Header.known_or_plain name with rfl | rfl | rfl | ⟨hplain, hid, hnumber, hsize⟩ <;>
      simp_all [apply, leaves?, Draft.correlate, Draft.uncorrelate, Draft.number, Draft.size,
        Content.header?_of_plain, Header.correlationId_ne_sequenceNumber.symm,
        Header.correlationId_ne_sequenceSize.symm, Header.sequenceNumber_ne_sequenceSize.symm]

theorem payload_apply (d : Draft) (c : Call) :
    (apply d c).payload = c.payload?.getD d.payload := by
  cases c with
  | header other value => exact payload_setHeader d other value
  | headers entries => exact payload_setHeaders d entries
  | _ => rfl

/-- Calls that are apart may change places. -/
theorem Apart.apply_comm {d : Draft} (h : d.Made) {a b : Call} (hab : a.Apart b) :
    apply (apply d a) b = apply (apply d b) a := by
  refine Content.ext_header?
    (fun name hname => (made_apply (made_apply h a) b).custom_wellKnown hname)
    (fun name hname => (made_apply (made_apply h b) a).custom_wellKnown hname) ?_ fun name => ?_
  · simp only [payload_apply]
    rcases hab.payload with hn | hn <;> simp [hn]
  · simp only [header?_apply]
    rcases hab.names name with hn | hn <;> simp [hn]

end Call

/-- The draft that some calls come to, from a payload on. -/
def written (p : Payload) (calls : List Call) : Draft := calls.foldl Call.apply (.ofPayload p)

theorem made_written (p : Payload) (calls : List Call) : (written p calls).Made := by
  unfold written
  induction calls using List.reverseRecOn with
  | nil => exact .ofPayload p
  | append_singleton calls c ih =>
    rw [List.foldl_append]
    exact Call.made_apply ih c

theorem header?_written (p : Payload) (calls : List Call) (name : String) :
    Content.header? (written p calls) name
      = (calls.reverse.findSome? (Call.leaves? name)).join := by
  have hblank : Content.header? (ofPayload p) name = none := by
    rcases Header.known_or_plain name with rfl | rfl | rfl | ⟨hplain, -⟩
    · simp [ofPayload]
    · simp [ofPayload, Content.positive]
    · simp [ofPayload, Content.positive]
    · simp [Content.header?_of_plain hplain, ofPayload]
  rw [written, read_foldl (fun d => Content.header? d name)
    (fun d c => Call.header?_apply d c name), hblank]
  cases calls.reverse.findSome? (Call.leaves? name) <;> rfl

theorem payload_written (p : Payload) (calls : List Call) :
    (written p calls).payload = (calls.reverse.findSome? Call.payload?).getD p :=
  read_foldl Content.payload Call.payload_apply calls (ofPayload p)

/-- A name reads in a finished message as the last call left it that left anything there, none of
the well-known names is a custom header, and calls that are apart may change places. -/
theorem last_call_decides (p : Payload) (calls : List Call) (id : MessageId) :
    (∀ name, ((written p calls).finish id).header? name
      = (calls.reverse.findSome? (Call.leaves? name)).join)
    ∧ ((written p calls).finish id).payload = (calls.reverse.findSome? Call.payload?).getD p
    ∧ (∀ name ∈ Header.wellKnown,
        ((written p calls).finish id).content.custom.get? name = none)
    ∧ ∀ before a b after, calls = before ++ a :: b :: after → a.Apart b →
        written p calls = written p (before ++ b :: a :: after) := by
  refine ⟨header?_written p calls, payload_written p calls,
    fun name hname => (made_written p calls).custom_wellKnown hname, ?_⟩
  rintro before a b after rfl hab
  have hcomm := hab.apply_comm (made_written p before)
  simp only [written] at hcomm
  simp only [written, List.foldl_append, List.foldl_cons, hcomm]

/-- An empty correlation id set by name clears the one set before; a size that is no number leaves
the one set before; and the order of the two setters counts for nothing. -/
theorem last_call_decides_bulk :
    let calls : List Call := [.correlate ⟨"k"⟩, .size 4,
      .headers [("correlationId", ""), ("sequenceSize", "four"), ("tenant", "acme")]]
    (∀ id, ((written .null calls).finish id).header? "correlationId" = none
      ∧ ((written .null calls).finish id).header? "sequenceSize" = some "4"
      ∧ ((written .null calls).finish id).header? "tenant" = some "acme")
    ∧ written .null calls = written .null [.size 4, .correlate ⟨"k"⟩,
      .headers [("correlationId", ""), ("sequenceSize", "four"), ("tenant", "acme")]] := by
  intro calls
  have hapart : (Call.correlate ⟨"k"⟩).Apart (.size 4) := by
    refine ⟨fun name => ?_, .inl rfl⟩
    by_cases hname : name = Header.correlationId
    · exact .inr (if_neg (by subst hname; decide))
    · exact .inl (if_neg hname)
  refine ⟨fun id => ?_, (last_call_decides .null calls ⟨""⟩).2.2.2 [] _ _ _ rfl hapart⟩
  obtain ⟨hread, -⟩ := last_call_decides .null calls id
  rw [hread, hread, hread]
  decide

end Draft

end Collate
