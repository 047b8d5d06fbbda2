import Collate.Proofs.Gathering

/-!
# Aggregates

A draft never has a well-known header among its custom ones, however it was written
(`Draft.Made.custom_wellKnown`). So the headers that all members of a group share go over into its
aggregate as they are and reach none of the fields, and the aggregate is what `Draft.Aggregates`
says: the payloads by sequence number, the key of the group, and the shared headers. One such
message is sent for a group with members, and none for a group without
(`Processor.aggregate_sends`).
-/

namespace Collate

variable {σ : Type}

/-! ## What can be written -/

/-- The drafts that come of the setters. -/
inductive Draft.Made : Draft → Prop
  | ofPayload (p : Payload) : Made (.ofPayload p)
  | ofMessage {m : Message} (h : Made m.content) : Made (.ofMessage m)
  | withPayload {d : Draft} (h : Made d) (p : Payload) : Made (d.withPayload p)
  | correlate {d : Draft} (h : Made d) (key : Key) : Made (d.correlate key)
  | uncorrelate {d : Draft} (h : Made d) : Made d.uncorrelate
  | number {d : Draft} (h : Made d) (n : Nat) : Made (d.number n)
  | size {d : Draft} (h : Made d) (n : Nat) : Made (d.size n)
  | setHeader {d : Draft} (h : Made d) (name value : String) : Made (d.setHeader name value)
  | setHeaders {d : Draft} (h : Made d) (entries : List (String × String)) :
      Made (d.setHeaders entries)

/-- A message that was a draft. -/
def Message.Made (m : Message) : Prop := Draft.Made m.content

namespace Draft

variable {d : Draft}

theorem Made.finish (h : Made d) (id : MessageId) : (d.finish id).Made := h

/-- A custom header is one whose name is not well known. -/
theorem setHeader_of_plain {name : String} (h : name ∉ Header.wellKnown) (value : String) :
    d.setHeader name value = { d with custom := d.custom.insert name value } := by
  simp only [Header.wellKnown, List.mem_cons, List.not_mem_nil, or_false, not_or] at h
  simp only [setHeader, if_neg h.1, if_neg h.2.1, if_neg h.2.2]

theorem custom_setHeader_wellKnown {name : String} (h : name ∈ Header.wellKnown)
    (value : String) : (d.setHeader name value).custom = d.custom := by
  unfold setHeader
  split
  · rfl
  · split
    · split <;> rfl
    · split
      · split <;> rfl
      · rename_i hid hnumber hsize
        simp [Header.wellKnown, hid, hnumber, hsize] at h

theorem setHeaders_of_plain {entries : List (String × String)}
    (h : ∀ e ∈ entries, e.1 ∉ Header.wellKnown) :
    d.setHeaders entries
      = { d with custom := entries.foldl (fun c e => c.insert e.1 e.2) d.custom } := by
  induction entries generalizing d with
  | nil => rfl
  | cons e entries ih =>
    obtain ⟨he, hrest⟩ := List.forall_mem_cons.1 h
    exact (congrArg (·.setHeaders entries) (setHeader_of_plain he e.2)).trans (ih hrest)

/-- A well-known name stays out of the custom headers. -/
theorem custom_setHeader {name : String} (hname : name ∈ Header.wellKnown)
    (hd : d.custom.get? name = none) (other value : String) :
    (d.setHeader other value).custom.get? name = none := by
  by_cases hother : other ∈ Header.wellKnown
  · rw [custom_setHeader_wellKnown hother, hd]
  · have hne : other ≠ name := fun h => hother (h ▸ hname)
    simp only [setHeader_of_plain hother, Dictionary.get?_insert, if_neg hne, hd]

theorem custom_setHeaders {name : String} (hname : name ∈ Header.wellKnown)
    (hd : d.custom.get? name = none) (entries : List (String × String)) :
    (d.setHeaders entries).custom.get? name = none := by
  induction entries generalizing d with
  | nil => exact hd
  | cons e entries ih => exact ih (custom_setHeader hname hd e.1 e.2)

theorem Made.custom_wellKnown (h : Made d) {name : String} (hname : name ∈ Header.wellKnown) :
    d.custom.get? name = none := by
  induction h with
  | ofPayload p => rfl
  | ofMessage h ih => exact ih
  | withPayload h p ih => exact ih
  | correlate h key ih => exact ih
  | uncorrelate h ih => exact ih
  | number h n ih => exact ih
  | size h n ih => exact ih
  | setHeader h other value ih => exact custom_setHeader hname ih other value
  | setHeaders h entries ih =>
    exact custom_setHeaders hname ih entries

end Draft

/-! ## Shared headers -/

/-- Entries in order go into a dictionary on top of what it has. -/
theorem Dictionary.get?_foldl_insert {α : Type} (entries : List (String × α))
    (h : Rows.Ordered entries) (c : Dictionary α) (name : String) :
    (entries.foldl (fun c e => c.insert e.1 e.2) c).get? name
      = (Rows.get? entries name).or (c.get? name) := by
  induction entries generalizing c with
  | nil => rfl
  | cons e entries ih =>
    obtain ⟨hlt, hrest⟩ := List.pairwise_cons.1 h
    rw [List.foldl_cons, ih hrest, Dictionary.get?_insert]
    by_cases hname : e.1 = name
    · have hnone : Rows.get? entries name = none := by
        refine Option.eq_none_iff_forall_ne_some.2 fun value hvalue => ?_
        exact String.lt_irrefl _ (hname ▸ hlt _ (Rows.mem_of_get? hvalue))
      simp [hname, hnone, Rows.get?]
    · simp [hname, Rows.get?]

namespace Dictionary

variable {α : Type}

/-- A dictionary filled with the entries of another is that one. -/
theorem ofList_rows (d : Dictionary α) : ofList d.rows = d :=
  ext_get? fun name => by
    rw [ofList, get?_foldl_insert _ d.ordered, get?_empty, Option.or_none, get?]

theorem get?_filter_eq_some (d : Dictionary α) (p : String → α → Bool) {name : String}
    {value : α} :
    (d.filter p).get? name = some value ↔ d.get? name = some value ∧ p name value = true := by
  rw [← mem_rows_iff, ← mem_rows_iff]
  exact List.mem_filter

end Dictionary

namespace Processor

/-- A header is shared if every message has it with that value. -/
theorem get?_sharedHeaders {messages : List Message} (hne : messages ≠ []) {name value : String} :
    (sharedHeaders messages).get? name = some value
      ↔ ∀ m ∈ messages, m.content.custom.get? name = some value := by
  cases messages with
  | nil => exact absurd rfl hne
  | cons first others =>
    rw [sharedHeaders, Dictionary.get?_filter_eq_some, List.forall_mem_cons]
    simp

end Processor

/-! ## The aggregate -/

/-- The aggregate of a group, read off the group. -/
structure Draft.Aggregates (d : Draft) (g : Group) : Prop where
  /-- The members by sequence number, those of one number in order of arrival. -/
  payload : ∃ ordered : List Message, ordered.Perm g.messages
    ∧ ordered.Pairwise (fun a b => a.content.sequenceNumber ≤ b.content.sequenceNumber)
    ∧ (∀ n, ordered.filter (fun m => m.content.sequenceNumber = n)
        = g.messages.filter fun m => m.content.sequenceNumber = n)
    ∧ d.payload = .list (ordered.map Message.payload)
  key : d.correlationId = some g.key
  number : d.sequenceNumber = 0
  size : d.sequenceSize = 0
  custom : ∀ name value, d.custom.get? name = some value
    ↔ ∀ m ∈ g.messages, m.content.custom.get? name = some value

namespace Processor

variable {g : Group}

theorem inSequence_perm (messages : List Message) : (inSequence messages).Perm messages :=
  arranged_perm Message.content messages

theorem inSequence_ne_nil (hne : g.messages ≠ []) : inSequence g.messages ≠ [] := fun h =>
  hne (List.perm_nil.1 (h ▸ (inSequence_perm g.messages).symm))

/-- The shared headers of members that were drafts are added as they are. -/
theorem aggregateOf_of_made (hmade : ∀ m ∈ g.messages, m.Made) (hne : g.messages ≠ []) :
    aggregateOf g = ⟨.list ((inSequence g.messages).map Message.payload), some g.key, 0, 0,
      sharedHeaders (inSequence g.messages)⟩ := by
  have hplain : ∀ e ∈ (sharedHeaders (inSequence g.messages)).rows, e.1 ∉ Header.wellKnown := by
    intro e he hname
    obtain ⟨m, hm⟩ := List.exists_mem_of_ne_nil _ hne
    have hshared := (get?_sharedHeaders (inSequence_ne_nil hne)).1
      ((Dictionary.mem_rows_iff _).1 he) m ((inSequence_perm _).mem_iff.2 hm)
    rw [(hmade m hm).custom_wellKnown hname] at hshared
    cases hshared
  rw [aggregateOf, Draft.setHeaders_of_plain hplain]
  exact congrArg (Content.mk _ _ _ _) (Dictionary.ofList_rows _)

theorem aggregates_aggregateOf (hmade : ∀ m ∈ g.messages, m.Made) (hne : g.messages ≠ []) :
    (aggregateOf g).Aggregates g := by
  rw [aggregateOf_of_made hmade hne]
  refine ⟨⟨inSequence g.messages, inSequence_perm _, pairwise_arranged _,
    fun n => filter_arranged n _, rfl⟩, rfl, rfl, rfl, fun name value => ?_⟩
  rw [get?_sharedHeaders (inSequence_ne_nil hne)]
  exact forall_congr' fun m => imp_congr_left (inSequence_perm _).mem_iff

end Processor

/-! ## Sending it -/

theorem Attempt.map_eq_returned {α β : Type} {f : α → β} {r : Attempt α} {b : β} :
    r.map f = .returned b ↔ ∃ a, r = .returned a ∧ f a = b := by
  cases r <;> simp [Attempt.map]

/-- What is made of the result of a script does not show before its end. -/
theorem Machine.perform_map {α β : Type} (f : α → β) (script : Script σ α) (s : Machine σ) :
    s.perform (script.map f) = ((s.perform script).1, (s.perform script).2.map f) := by
  unfold Script.map
  induction script generalizing s with
  | done a => rfl
  | panic => rfl
  | act change next ih => exact ih _ _
  | log r next ih => exact ih _
  | fresh next ih => exact ih _ _
  | handle h m next ih =>
    simp only [Script.bind, Machine.perform]
    split
    · exact ih _ _
    · rfl
  | expire d timeout next ih =>
    simp only [Script.bind, Machine.perform]
    split
    · exact ih _ _
    · rfl
  | add d key m next ih =>
    simp only [Script.bind, Machine.perform]
    split <;> exact ih _ _
  | remove d key next ih =>
    simp only [Script.bind, Machine.perform]
    split <;> exact ih _ _

namespace Processor

variable {g : Group} {output : Channel σ}

theorem aggregate_of_nil (h : g.messages = []) :
    aggregate g output = .done (.error (.aggregation s!"group '{g.key}' has no messages")) := by
  simp [aggregate, Group.isEmpty, h]

theorem aggregate_of_ne_nil (h : g.messages ≠ []) : aggregate g output
    = .fresh fun id => (output.send ((aggregateOf g).finish id)).map sendAs := by
  simp [aggregate, Group.isEmpty, h]

theorem sendAs_eq_ok {r : Except ChannelError Unit} : sendAs r = .ok () ↔ r = .ok () := by
  rcases r with e | u <;> simp [sendAs, Except.mapError]

/-- A group of messages that were drafts goes out as one message, its aggregate, if it has members
at all: to send that message is all that is done, and the aggregation succeeds if the channel takes
it. Without members nothing is sent and the aggregation fails. -/
theorem aggregate_sends (hmade : ∀ m ∈ g.messages, m.Made) :
    (g.messages = [] → ∀ output : Channel σ, aggregate g output
        = .done (.error (.aggregation s!"group '{g.key}' has no messages")))
      ∧ (g.messages ≠ [] → ∃ d : Draft, d.Aggregates g ∧ ∀ output : Channel σ,
        (aggregate g output = .fresh fun id => (output.send (d.finish id)).map sendAs)
          ∧ ∀ s : Machine σ,
            let sent := ({ s with hub := s.hub.draw.1 } : Machine σ).perform
              (output.send (d.finish s.hub.draw.2))
            s.perform (aggregate g output) = (sent.1, sent.2.map sendAs)
              ∧ ((s.perform (aggregate g output)).2 = .returned (.ok ())
                ↔ sent.2 = .returned (.ok ()))) := by
  refine ⟨fun h _ => aggregate_of_nil h, fun h => ⟨aggregateOf g, aggregates_aggregateOf hmade h,
    fun output => ⟨aggregate_of_ne_nil h, fun s => ?_⟩⟩⟩
  have hperform := Machine.perform_map sendAs
    (output.send ((aggregateOf g).finish s.hub.draw.2)) { s with hub := s.hub.draw.1 }
  rw [aggregate_of_ne_nil h]
  refine ⟨hperform, ?_⟩
  rw [Machine.perform, hperform, Attempt.map_eq_returned]
  simp only [sendAs_eq_ok, exists_eq_right]

/-- Three messages, two of them with one number, that agree on one header. -/
def mixedGroup : Group :=
  ⟨⟨"k"⟩, [((Draft.ofPayload (.text "c")).number 2).setHeader "region" "eu" |>.finish ⟨"1"⟩,
    ((Draft.ofPayload (.text "a")).number 1).setHeaders
      [("region", "eu"), ("correlationId", "other")] |>.finish ⟨"2"⟩,
    ((Draft.ofPayload (.text "b")).number 1).setHeaders
      [("region", "eu"), ("tag", "x")] |>.finish ⟨"3"⟩], 0⟩

/-- A channel that is full. -/
def fullChannel : Channel Unit := ⟨fun _ => .done (.error (.full "out" 0))⟩

theorem aggregate_sends_mixedGroup : (∀ m ∈ mixedGroup.messages, m.Made)
    ∧ mixedGroup.messages ≠ [] ∧ ∃ d : Draft, d.Aggregates mixedGroup
      ∧ d.custom.get? "region" = some "eu" ∧ d.custom.get? "tag" = none
      ∧ ∀ s : Machine Unit, (s.perform (aggregate mixedGroup fullChannel)).2
        = .returned (.error (.channel (.full "out" 0))) := by
  have hmade : ∀ m ∈ mixedGroup.messages, m.Made := by
    intro m hm
    simp only [mixedGroup, List.mem_cons, List.not_mem_nil, or_false] at hm
    rcases hm with rfl | rfl | rfl
    · exact (((Draft.Made.ofPayload _).number _).setHeader _ _).finish _
    · exact (((Draft.Made.ofPayload _).number _).setHeaders _).finish _
    · exact (((Draft.Made.ofPayload _).number _).setHeaders _).finish _
  have hne : mixedGroup.messages ≠ [] := by simp [mixedGroup]
  obtain ⟨d, hd, hsends⟩ := (aggregate_sends hmade).2 hne
  refine ⟨hmade, hne, d, hd, ?_, ?_, fun s => ?_⟩
  · refine (hd.custom _ _).2 fun m hm => ?_
    simp only [mixedGroup, List.mem_cons, List.not_mem_nil, or_false] at hm
    rcases hm with rfl | rfl | rfl <;> rfl
  · refine Option.eq_none_iff_forall_ne_some.2 fun value hvalue => ?_
    have hfirst := (hd.custom _ _).1 hvalue _ List.mem_cons_self
    cases hfirst
  · rw [((hsends fullChannel).2 s).1]
    rfl

end Processor

end Collate
