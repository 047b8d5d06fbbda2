import Collate.Proofs.Aggregates
import Collate.Proofs.Agreement
import Collate.Proofs.Faithful
import Collate.Proofs.Once
import Collate.Proofs.Owners

/-!
# Aggregates stay correlated

The handlers of a depot may all take the value of one header for the key. Whatever is stored in the
depot then has its key in that header (`Machine.stored_correlated`), so the members of a group agree
on it, and the aggregate of the group has it too: as its correlation id or among the shared headers
(`Draft.Aggregates.correlated`). A group that is handed over, complete or expired, thus goes out as
a message that would be given the key of the group again (`Machine.aggregates_stay_correlated`).
-/

namespace Collate

variable {σ : Type}

/-! ## By one header -/

namespace Correlation

variable {name : String}

theorem byHeader_eq_some {m : Message} {key : Key} :
    byHeader name m = some key ↔ m.header? name = some key.text ∧ key.text.isEmpty = false := by
  obtain ⟨text⟩ := key
  simp only [byHeader, Option.map_eq_some_iff, Option.filter_eq_some_iff, Key.mk.injEq]
  constructor
  · rintro ⟨value, ⟨hvalue, hfull⟩, rfl⟩
    exact ⟨hvalue, by simpa using hfull⟩
  · rintro ⟨hvalue, hfull⟩
    exact ⟨text, ⟨hvalue, by simpa using hfull⟩, rfl⟩

end Correlation

theorem Content.header?_of_plain {name : String} (h : name ∉ Header.wellKnown) (c : Content) :
    c.header? name = c.custom.get? name := by
  simp only [Header.wellKnown, List.mem_cons, List.not_mem_nil, or_false, not_or] at h
  simp only [header?, if_neg h.1, if_neg h.2.1, if_neg h.2.2]

/-- The aggregate of members that have their key in a header has it there as well, unless the header
is a place in a sequence, which aggregates do not have. -/
theorem Draft.Aggregates.correlated {d : Draft} {g : Group} (hd : d.Aggregates g)
    (hne : g.messages ≠ []) {name : String} (hnumber : name ≠ Header.sequenceNumber)
    (hsize : name ≠ Header.sequenceSize)
    (hall : ∀ m ∈ g.messages, Correlation.byHeader name m = some g.key) (id : MessageId) :
    Correlation.byHeader name (d.finish id) = some g.key := by
  have hmember := fun m hm => Correlation.byHeader_eq_some.1 (hall m hm)
  obtain ⟨m, hm⟩ := List.exists_mem_of_ne_nil _ hne
  refine Correlation.byHeader_eq_some.2 ⟨?_, (hmember m hm).2⟩
  show Content.header? d name = some g.key.text
  by_cases hname : name = Header.correlationId
  · rw [Content.header?, if_pos hname, hd.key]
    rfl
  · have hplain : name ∉ Header.wellKnown := by
      simp [Header.wellKnown, hname, hnumber, hsize]
    rw [Content.header?_of_plain hplain]
    refine (hd.custom name _).2 fun m hm => ?_
    rw [← Content.header?_of_plain hplain]
    exact (hmember m hm).1

/-! ## The code of a depot -/

/-- All handlers of a depot are of a kind. -/
def Hub.Houses (hub : Hub σ) (d : DepotId) (kind : Handler σ → Prop) : Prop :=
  ∀ h handler, hub.handler? h = some handler → handler.depot = d → kind handler

/-- Whatever a move brings into a depot is of a kind. -/
def Move.Brings (d : DepotId) (kind : Handler σ → Prop) (mv : Move σ) : Prop :=
  ∀ handler, mv.code? = some handler → handler.depot = d → kind handler

def Handler.CorrelatesBy (name : String) (handler : Handler σ) : Prop :=
  ∀ m, handler.correlation m = .returned (Correlation.byHeader name m)

namespace Machine

variable {outside : σ} {idOf : Nat → MessageId} {s : Machine σ} {moves : List (Move σ)}
  {d : DepotId}

theorem houses_after {kind : Handler σ → Prop} (ho : s.Orderly) (hs : s.hub.Houses d kind)
    (hl : s.Lawful moves) (hcode : ∀ mv ∈ moves, mv.Brings d kind) :
    (s.after moves).hub.Houses d kind := by
  induction moves generalizing s with
  | nil => exact hs
  | cons mv moves ih =>
    obtain ⟨hmv, hrest⟩ := List.forall_mem_cons.1 hcode
    refine ih (orderly_move ho hl.1) (fun h handler hh hd => ?_) hl.2 hrest
    obtain hold | hnew := handler?_move ho mv hh
    · exact hs h handler hold hd
    · exact hmv handler hnew hd

theorem houses_initial (outside : σ) (idOf : Nat → MessageId) (d : DepotId)
    (kind : Handler σ → Prop) : (initial outside idOf).hub.Houses d kind :=
  fun h handler hh => by simp [initial, Hub.initial, Hub.handler?, Hub.member?] at hh

/-! ## What is stored -/

theorem home?_of_added (hl : (initial outside idOf).Lawful moves) {p : Place} {h : HandlerId}
    {key : Key} {m : Message} {t : Instant}
    (hn : .did p (.added h d key m t) ∈ (initial outside idOf).history moves) :
    ((initial outside idOf).after moves).hub.home? h = some d := by
  obtain ⟨before, mv, rest, rfl, hmem⟩ := exists_of_mem_history hn
  obtain ⟨hbefore, hmv⟩ := lawful_append.1 hl
  have ho := orderly_after (orderly_initial outside idOf) before hbefore
  obtain ⟨f, f', -, -, hstep, hx, -⟩ := step_of_did hmem
  rw [after_append]
  exact (grows_after ho _ hmv).home? (Frame.adding_of_doing ho.hub hstep hx).2.1

/-- A stored message was given its key by the code of a handler of the depot. -/
theorem named_of_stored (hl : (initial outside idOf).Lawful moves) {key : Key} {g : Group}
    (hg : (((initial outside idOf).after moves).hub.depot d).store.find? key = some g) {m : Message}
    (hm : m ∈ g.messages) :
    ∃ p h before rest handler, .did p (.named h m key) ∈ (initial outside idOf).history moves
      ∧ moves = before ++ rest ∧ ((initial outside idOf).after before).hub.handler? h = some handler
      ∧ handler.depot = d ∧ handler.correlation m = .returned (some key) := by
  have hkept := kept_after (orderly_initial outside idOf) (bare_initial outside idOf d) moves hl
  have harrivals := Ledger.group?_eq key (ledger d ((initial outside idOf).history moves))
  rw [← hkept.stored key, show (((initial outside idOf).after moves).hub.depot d).shelf.group? key
    = some g from hg, Option.elim_some] at harrivals
  rw [harrivals] at hm
  obtain ⟨a, ha, rfl⟩ := List.mem_map.1 hm
  obtain ⟨_, _, hadded⟩ := exists_of_mem_ledger (Ledger.mem_of_arrivals ha)
  obtain ⟨p, h, t, ⟨c, hc, hlead⟩, before, rest, handler, rfl, hh, hkey⟩ := given_of_added hl hadded
  have hnamed := mem_notes_of_calls hc (hlead.subset List.mem_cons_self)
  have hhome := home?_of_added hl
    (mem_notes_of_calls hc (hlead.subset (List.mem_cons_of_mem _ List.mem_cons_self)))
  obtain ⟨hbefore, hrest⟩ := lawful_append.1 hl
  have ho := orderly_after (orderly_initial outside idOf) before hbefore
  rw [after_append, (grows_after ho _ hrest).home? (Hub.home?_of_handler? hh)] at hhome
  exact ⟨p, h, before, rest, handler, hnamed, rfl, hh, Option.some.inj hhome, hkey⟩

/-- Where all handlers take the value of one header for the key, stored messages have it there. -/
theorem stored_correlated (hl : (initial outside idOf).Lawful moves) {name : String}
    (hcode : ∀ mv ∈ moves, mv.Brings d (Handler.CorrelatesBy name)) {key : Key} {g : Group}
    (hg : (((initial outside idOf).after moves).hub.depot d).store.find? key = some g) {m : Message}
    (hm : m ∈ g.messages) : Correlation.byHeader name m = some key := by
  obtain ⟨-, h, before, rest, handler, -, rfl, hh, hd, hkey⟩ := named_of_stored hl hg hm
  have hkind := houses_after (orderly_initial outside idOf) (houses_initial outside idOf d _)
    (lawful_append.1 hl).1 (fun mv hmv => hcode mv (List.mem_append_left _ hmv)) h handler hh hd
  rw [hkind m] at hkey
  exact Attempt.returned.inj hkey

end Machine

/-! ## What is handed over -/

/-- Who completes a group works on it with the processor of the handler. -/
theorem Frame.worksOn_of_doing {hub hub' : Hub σ} {f f' : Frame σ} {under : Option (Frame σ)}
    (ho : hub.Orderly) (hf : f.Orderly hub) (hs : f.step hub = .goes hub' f') {h : HandlerId}
    {g : Group} {called : Bool} (hx : f.doing hub under f' = some (.completed h g called))
    {handler : Handler σ} (hh : hub.handler? h = some handler) :
    f'.WorksOn g (handler.process g) := by
  obtain ⟨now, hnow, -, hworks⟩ := happens_of_doing ho hf hs hx
  obtain rfl := Option.some.inj (hh.symm.trans hnow)
  rw [Handler.process]
  cases hout : handler.output <;> rw [hout] at hworks <;> exact hworks

namespace Machine

variable {outside : σ} {idOf : Nat → MessageId} {d : DepotId}

/-- In every lawful run in which all handlers of a depot take the value of one header for the key, a
place in a sequence apart, and whatever their release strategies do: a group of the depot that is
handed over to aggregation, because it is complete or because it expired, goes to the output as a
message that has the key of the group in that header. -/
theorem aggregates_stay_correlated {name : String} (hnumber : name ≠ Header.sequenceNumber)
    (hsize : name ≠ Header.sequenceSize) {before : List (Move σ)} {mv : Move σ}
    (hl : (initial outside idOf).Lawful (before ++ [mv]))
    (hcode : ∀ mv ∈ before, mv.Brings d (Handler.CorrelatesBy name))
    (hmade : ∀ p h m key, .did p (.named h m key) ∈ (initial outside idOf).history before → m.Made)
    {p : Place} {h : HandlerId} {g : Group} {called : Bool}
    (hn : .did p (.completed h g called) ∈ ((initial outside idOf).after before).notes mv)
    {handler : Handler σ} {output : Channel σ}
    (hh : ((initial outside idOf).after before).hub.handler? h = some handler)
    (hd : handler.depot = d) (hprocessor : handler.processor = Processor.aggregate)
    (houtput : handler.output = some output) :
    ∃ a : Draft, a.Aggregates g ∧ (∀ id, Correlation.byHeader name (a.finish id) = some g.key)
      ∧ ∃ f, (((initial outside idOf).after before).move mv).frameAt p = some f
        ∧ f.WorksOn g
          (.fresh fun id => (output.send (a.finish id)).map Processor.sendAs) := by
  obtain ⟨hbefore, hmv⟩ := lawful_append.1 hl
  have ho := orderly_after (orderly_initial outside idOf) before hbefore
  have hsound := fun d => sound_after (orderly_initial outside idOf) d
    (sound_initial outside idOf d) before hbefore
  obtain ⟨f, f', hf, -, hstep, hx, hmove⟩ := step_of_did hn
  obtain ⟨d', hhome, hstored, -⟩ := Frame.completes_of_doing ho.hub (ho.frames p f hf)
    (Sound.right hsound hf) hstep hx
  rw [Hub.home?_of_handler? hh, hd] at hhome
  cases hhome
  have hne : g.messages ≠ [] := ((hsound d).tidy g.key g hstored).2
  have hcorrelated := fun m hm => stored_correlated hbefore hcode hstored (m := m) hm
  have hgmade : ∀ m ∈ g.messages, m.Made := fun m hm => by
    obtain ⟨q, h', _, _, _, hnamed, -⟩ := named_of_stored hbefore hstored hm
    exact hmade q h' m g.key hnamed
  have haggregates := Processor.aggregates_aggregateOf hgmade hne
  have hprocess : handler.process g = .fresh fun id =>
      (output.send ((Processor.aggregateOf g).finish id)).map Processor.sendAs := by
    simp only [Handler.process, houtput, hprocessor, Processor.aggregate_of_ne_nil hne]
  have hworks := Frame.worksOn_of_doing ho.hub (ho.frames p f hf) hstep hx hh
  exact ⟨_, haggregates, haggregates.correlated hne hnumber hsize hcorrelated, f',
    by rw [hmove, Function.update_self], hprocess ▸ hworks⟩

end Machine

/-! ## By region -/

/-- Two messages of a region make a group, which goes to an output that takes everything. -/
def regional : Handler Unit :=
  { pairing with
    correlation := fun m => .returned (Correlation.byHeader "region" m)
    processor := Processor.aggregate
    output := some ⟨fun _ => .done (.ok ())⟩ }

theorem discreet_regional : regional.Discreet where
  process g := by
    simp only [Handler.process, regional, Processor.aggregate]
    split_ifs
    · exact .done _
    · exact .fresh fun _ => .done _
  discard c hc := by cases hc

def european (name : String) : Message :=
  ((Draft.ofPayload (.text name)).setHeader "region" "eu").finish ⟨name⟩

/-- Two messages of one region, one after another; the second completes its group next. -/
def regionalTurns : List (Event Unit) :=
  .start (.handle 0 (european "first")) :: List.replicate 6 (Event.step 0)
    ++ .start (.handle 0 (european "second")) :: List.replicate 3 (Event.step 1)

def regionalRun : List (Move Unit) :=
  .openDepot none :: .event (.build regional) :: regionalTurns.map .event

theorem build_notMem_regionalTurns : ∀ e ∈ regionalTurns ++ [.step 1], ∀ handler,
    e ≠ .build handler := by
  rintro e he handler rfl
  simp [regionalTurns] at he

theorem lawful_regionalRun :
    (Machine.initial () fun _ => ⟨""⟩).Lawful (regionalRun ++ [.event (.step 1)]) := by
  have hturns := fun s => Machine.lawful_events _ s build_notMem_regionalTurns
  rw [List.map_append] at hturns
  exact ⟨trivial, ⟨discreet_regional, Nat.zero_lt_one⟩, hturns _⟩

theorem regionalRun_brings : ∀ mv ∈ regionalRun, mv.Brings 0 (Handler.CorrelatesBy "region") := by
  intro mv hmv handler hcode _ m
  obtain rfl | hmv := List.mem_cons.1 hmv
  · cases hcode
  obtain rfl | hmv := List.mem_cons.1 hmv
  · cases hcode
    rfl
  obtain ⟨e, he, rfl⟩ := List.mem_map.1 hmv
  cases e with
  | build code => exact absurd rfl (build_notMem_regionalTurns _ (List.mem_append_left _ he) code)
  | _ => cases hcode

theorem history_regionalRun : (Machine.initial () fun _ => ⟨""⟩).history regionalRun
    = [.came ⟨0, 0⟩, .did ⟨0, 0⟩ (.named 0 (european "first") ⟨"eu"⟩),
      .did ⟨0, 0⟩ (.added 0 0 ⟨"eu"⟩ (european "first") 0), .came ⟨1, 0⟩,
      .did ⟨1, 0⟩ (.named 0 (european "second") ⟨"eu"⟩),
      .did ⟨1, 0⟩ (.added 0 0 ⟨"eu"⟩ (european "second") 0)] := rfl

theorem made_european (name : String) : (european name).Made :=
  ((Draft.Made.ofPayload _).setHeader _ _).finish _

/-- The two messages of a region go out as one message of that region. -/
theorem regional_stays_correlated : ∃ a : Draft,
    a.Aggregates ⟨⟨"eu"⟩, [european "first", european "second"], 0⟩
      ∧ ∀ id, Correlation.byHeader "region" (a.finish id) = some ⟨"eu"⟩ := by
  have hmade : ∀ p h m key,
      .did p (.named h m key) ∈ (Machine.initial () fun _ => ⟨""⟩).history regionalRun →
        m.Made := by
    intro p h m key hn
    rw [history_regionalRun] at hn
    simp only [List.mem_cons, reduceCtorEq, Note.did.injEq, Doing.named.injEq, List.not_mem_nil,
      or_false, false_or, and_false] at hn
    obtain ⟨-, -, rfl, -⟩ | ⟨-, -, rfl, -⟩ := hn <;> exact made_european _
  have hn : .did ⟨1, 0⟩ (.completed 0 ⟨⟨"eu"⟩, [european "first", european "second"], 0⟩ true)
      ∈ ((Machine.initial () fun _ => ⟨""⟩).after regionalRun).notes (.event (.step 1)) :=
    List.mem_singleton_self _
  have hh : ((Machine.initial () fun _ => ⟨""⟩).after regionalRun).hub.handler? 0
      = some regional := rfl
  obtain ⟨a, ha, hcorrelated, -⟩ := Machine.aggregates_stay_correlated (by decide) (by decide)
    lawful_regionalRun regionalRun_brings hmade hn hh rfl rfl rfl
  exact ⟨a, ha, hcorrelated⟩

end Collate
