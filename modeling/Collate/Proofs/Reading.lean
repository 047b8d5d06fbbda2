import Collate.Intake
import Collate.Message.Identity
import Collate.Proofs.Written
import Collate.Session
import Mathlib.Data.List.Forall2

/-!
# What an input comes to

The lines of an input that are well-formed records with a key arrive under that key, in their order
(`Intake.arrivals`). A run over the input takes its lines one after another
(`Intake.finish_takes`); the arrivals are handed to a handler and all other lines are passed over,
so what the handler keeps in the end is what is gathered of the arrivals
(`Intake.takeAll_gathers`). With a consumer behind the handler in front of a sink that never fails,
that is all there is to say of a run: `Intake.process_writes`.
-/

namespace Collate

variable {σ : Type}

namespace Intake

/-! ## The arrivals of an input -/

/-- The lines that are texts, up to the first that is none. -/
def texts : List (List UInt8) → List (List Char)
  | [] => []
  | line :: rest =>
    match Utf8.decode? line with
    | none => []
    | some cs => cs :: texts rest

/-- Where a run over lines ends. -/
def lastPhase (lines : List (List UInt8)) : Phase :=
  if (texts lines).length = lines.length then .over else .broken Utf8.refusal

/-- The key of a line and what its message contains, if it is a well-formed record with a key. -/
def arrival? (line : List Char) : Option (Key × Content) :=
  if (Text.trim line).isEmpty then none
  else
    match Record.parse (String.ofList line) with
    | .error _ => none
    | .ok r => (r.draft.finish ⟨""⟩).key?.map fun key => (key, r.draft)

/-- The arrivals of some lines, each with the number of its line, where the first one is line
`n`. -/
def arrivals (n : Nat) (lines : List (List Char)) : List (Key × Nat × Content) :=
  (lines.zipIdx n).filterMap fun l => (arrival? l.1).map fun a => (a.1, l.2, a.2)

theorem arrivals_cons (n : Nat) (line : List Char) (lines : List (List Char)) :
    arrivals n (line :: lines) = arrivals n [line] ++ arrivals (n + 1) lines := by
  simp only [arrivals, List.zipIdx_cons, List.zipIdx_nil, ← List.filterMap_append]
  rfl

/-- Later arrivals have later lines. -/
theorem pairwise_arrivals (n : Nat) (lines : List (List Char)) :
    (arrivals n lines).Pairwise fun a b => a.2.1 < b.2.1 := by
  have hnumbers : ((lines.zipIdx n).map Prod.snd).Pairwise (· < ·) := by
    rw [List.zipIdx_map_snd]
    exact List.pairwise_lt_range'
  refine (List.pairwise_map.1 hnumbers).filterMap _ fun a b hab x hx y hy => ?_
  obtain ⟨_, -, rfl⟩ := Option.map_eq_some_iff.1 hx
  obtain ⟨_, -, rfl⟩ := Option.map_eq_some_iff.1 hy
  exact hab

/-! ## A run -/

/-- Takes lines one after another. -/
def takeAll (h : HandlerId) (lines : List (List Char)) (at_ : Machine σ × Summary) :
    Machine σ × Summary :=
  lines.foldl (fun x line => take x.1 h x.2 line) at_

section Finish

variable {c : Shutdown.Coordinator} {s : Machine σ} {r : Run}

/-- A run that looks at the flag and finds nothing goes on with the next line. -/
theorem finish_checking (fuel : Nat) (hphase : r.phase = .checking) (hc : c.requested = false) :
    finish (fuel + 2) c s r = finish fuel c (nextLine s { r with phase := .waiting }).1
      (nextLine s { r with phase := .waiting }).2 := by
  simp [finish, step, hphase, hc, Phase.isFinal]

theorem finish_final (hfinal : r.phase.isFinal = true) :
    ∀ fuel, finish fuel c s r = (c, s, r)
  | 0 => rfl
  | fuel + 1 => by simp [finish, hfinal]

/-- A run over lines takes those that are texts, up to the first that is none, and is over then. -/
theorem finish_takes (hc : c.requested = false) (lines : List (List UInt8)) (fuel : Nat)
    (hfuel : 2 * lines.length + 2 ≤ fuel) (hlines : r.lines = lines)
    (hphase : r.phase = .checking) :
    ∃ left, finish fuel c s r
      = (c, (takeAll r.handler (texts lines) (s, r.summary)).1, { r with
          lines := left
          summary := (takeAll r.handler (texts lines) (s, r.summary)).2
          phase := lastPhase lines }) := by
  induction lines generalizing s r fuel with
  | nil =>
    obtain ⟨fuel, rfl⟩ := Nat.exists_eq_add_of_le' hfuel
    refine ⟨r.lines, ?_⟩
    change finish (fuel + 2) c s r = _
    rw [finish_checking fuel hphase hc]
    have hnext : nextLine s { r with phase := .waiting } = (s, { r with phase := .over }) := by
      simp [nextLine, hlines]
    rw [hnext, finish_final rfl]
    rfl
  | cons line rest ih =>
    obtain ⟨fuel, rfl⟩ := Nat.exists_eq_add_of_le' (Nat.le_of_add_left_le hfuel)
    rw [finish_checking fuel hphase hc]
    rcases hdecode : Utf8.decode? line with _ | cs
    · have hnext : nextLine s { r with phase := .waiting }
          = (s, { r with phase := .broken Utf8.refusal, lines := rest }) := by
        simp [nextLine, hlines, hdecode]
      have hnone : texts (line :: rest) = [] := by simp [texts, hdecode]
      rw [hnext, finish_final rfl, hnone]
      exact ⟨rest, by simp [lastPhase, hnone, takeAll]⟩
    · have htexts : texts (line :: rest) = cs :: texts rest := by simp [texts, hdecode]
      have hlast : lastPhase (line :: rest) = lastPhase rest := by simp [lastPhase, htexts]
      have hnext : nextLine s { r with phase := .waiting }
          = ((take s r.handler r.summary cs).1, { r with
              lines := rest
              summary := (take s r.handler r.summary cs).2
              phase := .checking }) := by
        simp [nextLine, hlines, hdecode]
      rw [hnext, htexts, hlast]
      exact ih fuel (by simp only [List.length_cons] at hfuel; omega) rfl rfl

end Finish

section Run

variable {sent : σ → List Content → Prop} {k : Nat} {output : Channel σ} {d : DepotId}
  {discard : Option (Channel σ)} {settings : HandlerSettings} {s : Machine σ} {h : HandlerId}
  {g : Gathered (Nat × Content)}

theorem feed_gathers
    (hg : s.Gathering Prod.snd sent h (.aggregating d output discard settings) g)
    (ht : output.Takes sent k) (hk : k + 9 ≤ Machine.patience) (n : Nat) (line : List Char)
    {summary : Summary} (hcount : summary.released = g.released.length) :
    (feed s h line).1.Gathering Prod.snd sent h (.aggregating d output discard settings)
        (g.takeAll Prod.snd (arrivals n [line]))
      ∧ (count summary (feed s h line).2).released
        = (g.takeAll Prod.snd (arrivals n [line])).released.length := by
  have hnone : arrival? line = none → g.takeAll Prod.snd (arrivals n [line]) = g := fun hnone => by
    simp [arrivals, hnone, Gathered.takeAll]
  unfold feed
  split_ifs with hblank
  · rw [hnone (by simp [arrival?, hblank])]
    exact ⟨hg, hcount⟩
  rcases hparse : Record.parse (String.ofList line) with f | r
  · rw [hnone (by simp [arrival?, hblank, hparse])]
    exact ⟨hg, hcount⟩
  · -- the message is made first, which the handler does not see
    have hmade : ({ note s r.warnings with hub := (note s r.warnings).hub.draw.1 } :
        Machine σ).Gathering Prod.snd sent h (.aggregating d output discard settings) g :=
      hg.hub_congr fun _ _ _ hs => (hs.note r.warnings).draw
    simp only [submit]
    generalize (note s r.warnings).hub.draw.2 = id
    have hkey : (r.draft.finish id).key? = (r.draft.finish ⟨""⟩).key? := rfl
    rcases hfound : (r.draft.finish ⟨""⟩).key? with _ | key
    · rw [hnone (by simp [arrival?, hblank, hparse, hfound])]
      obtain ⟨hkept, hresult⟩ := hmade.refuse (hkey.trans hfound)
      exact ⟨hkept, by simp only [hresult, count, hcount]⟩
    · have harrival : arrival? line = some (key, r.draft) := by
        simp [arrival?, hblank, hparse, hfound]
      have harrivals : g.takeAll Prod.snd (arrivals n [line])
          = g.take Prod.snd key (n, r.draft) := by
        simp [arrivals, harrival, Gathered.takeAll]
      rw [harrivals]
      obtain ⟨hkept, hresult⟩ := hmade.handle ht hk (hkey.trans hfound) (x := (n, r.draft)) rfl
      refine ⟨hkept, ?_⟩
      by_cases hc : Complete Prod.snd (g.waiting key ++ [(n, r.draft)])
      · simp only [hresult, Handled.of, hc, if_true, count, hcount, Gathered.take_of_complete hc,
          List.length_append, List.length_singleton]
      · simp only [hresult, Handled.of, hc, if_false, count, hcount,
          Gathered.take_of_not_complete hc]

theorem take_gathers
    (hg : s.Gathering Prod.snd sent h (.aggregating d output discard settings) g)
    (ht : output.Takes sent k) (hk : k + 9 ≤ Machine.patience) (line : List Char)
    {summary : Summary} (hcount : summary.released = g.released.length) :
    let g' := g.takeAll Prod.snd (arrivals (summary.lines + 1) [line])
    (take s h summary line).1.Gathering Prod.snd sent h
        (.aggregating d output discard settings) g'
      ∧ (take s h summary line).2.released = g'.released.length
      ∧ (take s h summary line).2.lines = summary.lines + 1 := by
  obtain ⟨hkept, hreleased⟩ := feed_gathers hg ht hk (summary.lines + 1) line hcount
  refine ⟨hkept.hub_congr fun _ _ _ hs => hs.note (records (summary.lines + 1) _), hreleased, ?_⟩
  simp only [take, count]
  split <;> rfl

theorem takeAll_arrivals_cons (n : Nat) (line : List Char) (lines : List (List Char)) :
    g.takeAll Prod.snd (arrivals n (line :: lines))
      = (g.takeAll Prod.snd (arrivals n [line])).takeAll Prod.snd (arrivals (n + 1) lines) := by
  rw [arrivals_cons]
  exact List.foldl_append

/-- When all lines are taken, the handler keeps what is gathered of the arrivals. -/
theorem takeAll_gathers (ht : output.Takes sent k) (hk : k + 9 ≤ Machine.patience)
    (lines : List (List Char)) {summary : Summary}
    (hg : s.Gathering Prod.snd sent h (.aggregating d output discard settings) g)
    (hcount : summary.released = g.released.length) :
    let g' := g.takeAll Prod.snd (arrivals (summary.lines + 1) lines)
    (takeAll h lines (s, summary)).1.Gathering Prod.snd sent h
        (.aggregating d output discard settings) g'
      ∧ (takeAll h lines (s, summary)).2.released = g'.released.length := by
  induction lines generalizing s g summary with
  | nil => exact ⟨hg, hcount⟩
  | cons line lines ih =>
    obtain ⟨hkept, hreleased, hcounted⟩ := take_gathers hg ht hk line hcount
    have hrest := ih hkept hreleased
    rw [hcounted] at hrest
    rw [takeAll_arrivals_cons]
    exact hrest

end Run

/-! ## What a run writes -/

/-- The members of a segment by sequence number, and by line where the numbers are equal. -/
def Sorted (seg ordered : List (Nat × Content)) : Prop :=
  ordered.Perm seg ∧ ordered.Pairwise fun a b =>
    a.2.sequenceNumber < b.2.sequenceNumber
      ∨ a.2.sequenceNumber = b.2.sequenceNumber ∧ a.1 < b.1

/-- The text of a segment: what its members display, sorted, between brackets, and a newline if
there is to be one. -/
def Renders (newline : Bool) (seg : List (Nat × Content)) (text : String) : Prop :=
  ∃ ordered, Sorted seg ordered
    ∧ text = "[" ++ ", ".intercalate (ordered.map fun x => x.2.payload.display) ++ "]"
      ++ if newline then "\n" else ""

theorem sorted_arranged {seg : List (Nat × Content)} (hseg : seg.Pairwise fun a b => a.1 < b.1) :
    Sorted seg (arranged Prod.snd seg) := by
  refine ⟨arranged_perm _ seg, List.pairwise_iff_forall_sublist.2 fun {a b} hab => ?_⟩
  rcases Nat.lt_or_eq_of_le (List.pairwise_iff_forall_sublist.1 (pairwise_arranged seg) hab) with
    hlt | heq
  · exact .inl hlt
  · refine .inr ⟨heq, List.pairwise_iff_forall_sublist.1 hseg ?_⟩
    -- the members of this number stand in the order of arrival
    have hsame := hab.filter fun x => decide (x.2.sequenceNumber = b.2.sequenceNumber)
    rw [filter_arranged] at hsame
    simp only [heq, List.filter_cons, decide_true, if_true, List.filter_nil] at hsame
    exact hsame.trans List.filter_sublist

theorem renders_aggregateUnder (newline : Bool) {r : Key × List (Nat × Content)}
    (hseg : r.2.Pairwise fun a b => a.1 < b.1) :
    Renders newline r.2 (Consumer.line newline (aggregateUnder Prod.snd r).payload) := by
  refine ⟨arranged Prod.snd r.2, sorted_arranged hseg, ?_⟩
  rw [payload_aggregateUnder, Consumer.line, Payload.display_list, List.map_map]
  rfl

/-- What arrivals come to: the segments released, in order, each under its key, what is written of
them, and what is left under each key. -/
structure Outcome (newline : Bool) (arrived : List (Key × Nat × Content))
    (released : List (Key × List (Nat × Content))) (written : List String)
    (rest : Key → List (Nat × Content)) : Prop where
  /-- Under each key, segments that are as short as they can be, and what makes up no segment. -/
  cut : ∀ key, Cut Prod.snd (under key arrived) (under key released) (rest key)
  /-- The last lines of the segments follow each other. -/
  inOrder : released.Pairwise fun a b => ∀ x ∈ a.2.getLast?, ∀ y ∈ b.2.getLast?, x.1 < y.1
  rendered : List.Forall₂ (fun r text => Renders newline r.2 text) released written

/-- A run over an input, with a fresh handler that aggregates to a consumer in front of a sink that
never fails. The arrivals under each key are cut greedily into segments; the sink receives what is
written of them, in the order of their last lines; the summary counts them; and the store has for
each key what is left under it. The run ends with the input, or at a line that is no text. -/
theorem process_writes {ω : Type} {sink : Sink ω} {received : ω → List UInt8}
    (hsink : sink.Faithful received) {part : Part σ (Consumer ω)}
    (hpart : ∀ c o, part.read (part.write c o) = c) (discard : Option (Channel σ))
    (settings : HandlerSettings) {outside : σ} (hready : (part.read outside).Ready)
    (idOf : Nat → MessageId) {c : Shutdown.Coordinator} (hc : c.requested = false)
    (input : List UInt8) :
    let handler := Handler.aggregating 0 (Consumer.channel sink part) discard settings
    ∃ c' s r released written rest, process c (.ready outside idOf handler) 0 input = (c', s, r)
      ∧ Outcome (part.read outside).appendsNewline (arrivals 1 (texts (splitLines [] input)))
        released written rest
      ∧ received (part.read s.hub.outside).buffer.target
        = received (part.read outside).buffer.target ++ Utf8.bytes (String.join written)
      ∧ r.summary.released = released.length
      ∧ (∀ key, ((s.hub.depot 0).store.find? key).map (fun g => g.messages.map Message.content)
        = if rest key = [] then none else some ((rest key).map Prod.snd))
      ∧ r.phase = lastPhase (splitLines [] input) := by
  intro handler
  let sent : σ → List Content → Prop := fun o cs => (part.read o).Ready
    ∧ (part.read o).appendsNewline = (part.read outside).appendsNewline
    ∧ received (part.read o).buffer.target = received (part.read outside).buffer.target
      ++ Utf8.bytes (String.join (cs.map fun c =>
        Consumer.line (part.read outside).appendsNewline c.payload))
  have ht : (Consumer.channel sink part).Takes sent 1 := Consumer.takes_channel hsink hpart _ _
  have hstart : (Machine.ready outside idOf handler).Gathering Prod.snd sent 0 handler
      (Gathered.empty : Gathered (Nat × Content)) :=
    Machine.gathering_ready _ idOf rfl ⟨hready, rfl, by simp [Utf8.bytes, Utf8.encode]⟩
  obtain ⟨left, hfinish⟩ := finish_takes (c := (begin c 0 input).1)
    (s := .ready outside idOf handler) (r := (begin c 0 input).2) hc (splitLines [] input) _
    (Nat.le_succ _) rfl rfl
  have hnone :
      Summary.zero.released = (Gathered.empty : Gathered (Nat × Content)).released.length := rfl
  obtain ⟨hkept, hcount⟩ :=
    takeAll_gathers ht (by decide) (texts (splitLines [] input)) hstart hnone
  -- what is released is cut from the arrivals, whose lines increase
  have hgathers := Gathered.gathers_takeAll Prod.snd
    (arrivals 1 (texts (splitLines [] input)))
  have hlines := pairwise_arrivals 1 (texts (splitLines [] input))
  have hlast : ((arrivals 1 (texts (splitLines [] input))).map fun a => (a.1, some a.2)).Pairwise
      fun a b => ∀ x ∈ a.2, ∀ y ∈ b.2, x.1 < y.1 :=
    List.pairwise_map.2 (hlines.imp fun hab => by simpa using hab)
  refine ⟨_, _, _, _, _, _, hfinish, ⟨hgathers.cut, ?_, ?_⟩, hkept.taken.2.2, hcount, hkept.find?,
    rfl⟩
  · exact List.pairwise_map.1 (hlast.sublist hgathers.inOrder)
  · rw [List.map_map, List.forall₂_map_right_iff]
    refine List.forall₂_same.2 fun released hreleased => renders_aggregateUnder _ ?_
    exact (pairwise_under hlines released.1).sublist
      ((hgathers.cut released.1).sublist _ (mem_under.2 hreleased))

section Example

open Shutdown (Coordinator)

/-- A console that writes a line for each released group. -/
def plainConsole : Console := .make false none ⟨default, false, "", none⟩ true 8

/-- Two orders, of which one is complete. -/
def twoOrders : List UInt8 := Utf8.bytes
  ("\x7b\"correlation_id\": \"a\", \"sequence_number\": 2, \"payload\": \"ink\"\x7d\n"
    ++ "\x7b\"correlation_id\": \"b\", \"sequence_size\": 2, \"payload\": \"pen\"\x7d\n"
    ++ "\x7b\"correlation_id\": \"a\", \"sequence_number\": 1, \"sequence_size\": 2\x7d\n")

theorem process_writes_twoOrders :
    Sink.text.Faithful id ∧ (Console.outputPart.read plainConsole).Ready
      ∧ Coordinator.initial.requested = false
      ∧ ∃ c s r released written rest, process .initial
          (.ready plainConsole MessageId.ofBits (Session.handlerOf .standard 0)) 0 twoOrders
            = (c, s, r)
        ∧ Outcome true (arrivals 1 (texts (splitLines [] twoOrders))) released written rest
        ∧ s.hub.outside.outText = [] ++ Utf8.bytes (String.join written)
        ∧ r.summary.released = released.length
        ∧ (∀ key, ((s.hub.depot 0).store.find? key).map (fun g => g.messages.map Message.content)
          = if rest key = [] then none else some ((rest key).map Prod.snd))
        ∧ r.phase = lastPhase (splitLines [] twoOrders) := by
  have hpart : ∀ c o, Console.outputPart.read (Console.outputPart.write c o) = c := fun _ _ => rfl
  have hready : (Console.outputPart.read plainConsole).Ready := ⟨rfl, rfl⟩
  have hc : Coordinator.initial.requested = false := rfl
  exact ⟨Sink.faithful_text, hready, hc, process_writes Sink.faithful_text hpart
    (some Console.discardChannel) .standard hready MessageId.ofBits hc twoOrders⟩

end Example

end Intake

end Collate
