import Collate.Proofs.Handled
import Collate.Proofs.Segments

/-!
# Gathering

A handler that aggregates by sequence size, on an unbounded depot and with an output that takes
every aggregate, keeps what `Gathered` says: the store has for each key what waits there, and the
output took the aggregates of the segments released, in order (`Machine.Gathering`). A message under
a key ends the segment that waits there or joins it, and the reply says which
(`Machine.Gathering.handle`); one without a key changes nothing (`Machine.Gathering.refuse`).
-/

namespace Collate

variable {σ : Type}

/-! ## Groups as lists of contents -/

section Contents

variable {α : Type} {content : α → Content} {g : Group} {seg : List α}

theorem Release.bySequenceSize_iff (h : g.messages.map Message.content = seg.map content) :
    Release.bySequenceSize g = true ↔ Complete content seg := by
  have hlen : g.size = seg.length := by simpa [Group.size] using congrArg List.length h
  have hany : (∃ m ∈ g.messages, 0 < m.content.sequenceSize ∧ m.content.sequenceSize ≤ seg.length)
      ↔ ∃ c ∈ g.messages.map Message.content, 0 < c.sequenceSize ∧ c.sequenceSize ≤ seg.length := by
    simp
  rw [h] at hany
  simpa [Release.bySequenceSize, Complete, hlen] using hany

theorem Draft.payload_setHeader (d : Draft) (name value : String) :
    (d.setHeader name value).payload = d.payload := by
  unfold setHeader
  repeat' split
  all_goals rfl

theorem Draft.payload_setHeaders (d : Draft) (entries : List (String × String)) :
    (d.setHeaders entries).payload = d.payload := by
  unfold setHeaders
  induction entries generalizing d with
  | nil => rfl
  | cons e entries ih => rw [List.foldl_cons, ih, payload_setHeader]

variable (content) in
/-- Whether the first of two members may go out before the second. -/
def mayPrecede (a b : α) : Bool := (content a).sequenceNumber ≤ (content b).sequenceNumber

theorem mayPrecede_trans (a b c : α) (hab : mayPrecede content a b = true)
    (hbc : mayPrecede content b c = true) : mayPrecede content a c = true :=
  decide_eq_true (Nat.le_trans (of_decide_eq_true hab) (of_decide_eq_true hbc))

theorem mayPrecede_total (a b : α) :
    (mayPrecede content a b || mayPrecede content b a) = true := by
  simpa [mayPrecede] using Nat.le_total _ _

variable (content) in
/-- By sequence number; the order of arrival decides between equal numbers. -/
def arranged (seg : List α) : List α := seg.mergeSort (mayPrecede content)

theorem pairwise_arranged (seg : List α) : (arranged content seg).Pairwise
    fun a b => (content a).sequenceNumber ≤ (content b).sequenceNumber :=
  (List.pairwise_mergeSort mayPrecede_trans mayPrecede_total seg).imp of_decide_eq_true

variable (content) in
theorem arranged_perm (seg : List α) : (arranged content seg).Perm seg :=
  List.mergeSort_perm ..

/-- Members with the same number stay in the order of arrival. -/
theorem filter_arranged (n : Nat) (seg : List α) :
    (arranged content seg).filter (fun x => (content x).sequenceNumber = n)
      = seg.filter fun x => (content x).sequenceNumber = n := by
  have hsub : (seg.filter fun x => (content x).sequenceNumber = n).Sublist
      (arranged content seg) := by
    refine List.sublist_mergeSort mayPrecede_trans mayPrecede_total ?_ List.filter_sublist
    refine List.pairwise_of_forall_mem_list fun a ha b hb => decide_eq_true (Nat.le_of_eq ?_)
    simp only [List.mem_filter, decide_eq_true_eq] at ha hb
    rw [ha.2, hb.2]
  have hsub' := hsub.filter fun x => decide ((content x).sequenceNumber = n)
  rw [List.filter_filter] at hsub'
  simp only [Bool.and_self] at hsub'
  exact (hsub'.eq_of_length ((arranged_perm content seg).filter _).length_eq.symm).symm

theorem map_arranged (seg : List α) :
    (arranged content seg).map content = arranged id (seg.map content) :=
  List.map_mergeSort fun _ _ _ _ => rfl

namespace Processor

theorem sharedHeaders_congr {a b : List Message}
    (h : a.map Message.content = b.map Message.content) : sharedHeaders a = sharedHeaders b := by
  rcases a with _ | ⟨x, a⟩ <;> rcases b with _ | ⟨y, b⟩
  · rfl
  · simp at h
  · simp at h
  · obtain ⟨hxy, hab⟩ : x.content = y.content ∧ a.map Message.content = b.map Message.content := by
      simpa using h
    have hall : ∀ name value, (a.all fun m => m.content.custom.get? name == some value)
        = b.all fun m => m.content.custom.get? name == some value := fun name value => by
      simpa [Function.comp_def] using
        congrArg (List.all · fun c => c.custom.get? name == some value) hab
    simp only [sharedHeaders, hxy, hall]

/-- Which messages make up an aggregate matters by their contents only, and the time not at all. -/
theorem aggregateOf_congr {g g' : Group} (hk : g.key = g'.key)
    (h : g.messages.map Message.content = g'.messages.map Message.content) :
    aggregateOf g = aggregateOf g' := by
  have hsort : (inSequence g.messages).map Message.content
      = (inSequence g'.messages).map Message.content := by
    have hmap : ∀ ms, (inSequence ms).map Message.content = arranged id (ms.map Message.content) :=
      map_arranged
    rw [hmap, hmap, h]
  have hpayloads : (inSequence g.messages).map Message.payload
      = (inSequence g'.messages).map Message.payload := by
    have hmap := congrArg (List.map Content.payload) hsort
    rw [List.map_map, List.map_map] at hmap
    exact hmap
  simp only [aggregateOf, hk, hpayloads, sharedHeaders_congr hsort]

/-- An aggregate carries a list: no header changes its payload. -/
theorem payload_aggregateOf (g : Group) :
    (aggregateOf g).payload = .list ((inSequence g.messages).map Message.payload) :=
  Draft.payload_setHeaders _ _

end Processor

variable (content) in
/-- The aggregate of a segment under a key. -/
def aggregateUnder (r : Key × List α) : Content :=
  Processor.aggregateOf ⟨r.1, r.2.map fun x => ⟨⟨""⟩, content x⟩, 0⟩

theorem aggregateOf_eq {key : Key} (hk : g.key = key)
    (h : g.messages.map Message.content = seg.map content) :
    Processor.aggregateOf g = aggregateUnder content (key, seg) :=
  Processor.aggregateOf_congr hk (by simpa [Function.comp_def] using h)

theorem payload_aggregateUnder (r : Key × List α) : (aggregateUnder content r).payload
    = .list ((arranged content r.2).map fun x => (content x).payload) := by
  have hsort : (Processor.inSequence (r.2.map fun x => ⟨⟨""⟩, content x⟩)).map Message.content
      = (arranged content r.2).map content := by
    rw [map_arranged]
    exact (map_arranged _).trans (by rw [List.map_map]; rfl)
  have hmap := congrArg (List.map Content.payload) hsort
  rw [List.map_map, List.map_map] at hmap
  exact (Processor.payload_aggregateOf _).trans (congrArg Payload.list hmap)

end Contents

/-! ## What the handler keeps -/

/-- The key of a message, by the usual header. -/
def Message.key? (m : Message) : Option Key := Correlation.byHeader Correlation.defaultHeader m

/-- A channel that takes every list: `sent` tells of the outside which contents were taken so far,
and the answer is there after at most so many actions. -/
def Channel.Takes (output : Channel σ) (sent : σ → List Content → Prop) (k : Nat) : Prop :=
  ∀ o cs m items, sent o cs → m.payload = .list items →
    (output.send m).Within (fun o' r => r = .ok () ∧ sent o' (cs ++ [m.content])) k o

/-- The handler of a session: it aggregates groups that are complete by sequence size. -/
def Handler.aggregating (depot : DepotId) (output : Channel σ) (discard : Option (Channel σ))
    (settings : HandlerSettings) : Handler σ :=
  { Handler.standard depot Processor.aggregate with
    output := some output, discard := discard, settings := settings }

variable {α : Type} {content : α → Content}

variable (content) in
/-- A shelf at rest with what waits under each key and nothing else. -/
structure Shelf.Holds (shelf : Shelf) (waiting : Key → List α) : Prop where
  bare : ∀ key, waiting key = [] → shelf.group? key = none ∧ shelf.lock? key = none
  stored : ∀ key, waiting key ≠ [] → ∃ g, shelf.group? key = some g ∧ g.key = key
    ∧ g.messages.map Message.content = (waiting key).map content
  free : ∀ key e, shelf.lock? key = some e → e.held = false

namespace Shelf.Holds

variable {shelf : Shelf} {waiting : Key → List α}

theorem get (hs : shelf.Holds content waiting) (key : Key) (now : Instant) :
    (shelf.get key now).key = key
      ∧ (shelf.get key now).messages.map Message.content = (waiting key).map content := by
  by_cases h : waiting key = []
  · rw [Shelf.get_of_none (hs.bare key h).1, h]
    exact ⟨rfl, rfl⟩
  · obtain ⟨g, hg, hkey, hmessages⟩ := hs.stored key h
    rw [Shelf.get_of_group? hg]
    exact ⟨hkey, hmessages⟩

/-- One message more under a key that is not held. -/
theorem add (hs : shelf.Holds content waiting) (key : Key) {m : Message} {x : α}
    (hx : content x = m.content) (now : Instant) (owner : Option Owner) :
    ((shelf.setGroup key (some ((shelf.get key now).add m now))).setLock key
      (some ⟨false, owner⟩)).Holds content
        (Function.update waiting key (waiting key ++ [x])) where
  bare other h := by
    have hne : other ≠ key := by
      rintro rfl
      simp at h
    rw [Function.update_of_ne hne] at h
    simpa [hne] using hs.bare other h
  stored other h := by
    by_cases heq : other = key
    · subst heq
      obtain ⟨hkey, hmessages⟩ := hs.get other now
      exact ⟨(shelf.get other now).add m now, by simp, hkey, by simp [Group.add, hmessages, hx]⟩
    · rw [Function.update_of_ne heq] at h ⊢
      simpa [heq] using hs.stored other h
  free other e h := by
    by_cases heq : other = key
    · subst heq
      simp at h
      rw [← h]
    · exact hs.free other e (by simpa [heq] using h)

theorem clear (hs : shelf.Holds content waiting) (key : Key) :
    (shelf.clear key).Holds content (Function.update waiting key []) where
  bare other h := by
    by_cases heq : other = key
    · simp [clear_group?, clear_lock?, heq]
    · rw [Function.update_of_ne heq] at h
      simpa [clear_group?, clear_lock?, heq] using hs.bare other h
  stored other h := by
    have hne : other ≠ key := by
      rintro rfl
      simp at h
    rw [Function.update_of_ne hne] at h ⊢
    simpa [clear_group?, hne] using hs.stored other h
  free other e h := by
    rw [clear_lock?] at h
    split_ifs at h
    exact hs.free other e h

end Shelf.Holds

/-- A machine in which a handler keeps what is gathered so far, and its output took the aggregates
of what was released. -/
def Machine.Gathering (content : α → Content) (sent : σ → List Content → Prop) (s : Machine σ)
    (h : HandlerId) (handler : Handler σ) (g : Gathered α) : Prop :=
  ∃ n shelf o, 0 < n ∧ s.hub.Serves h handler n shelf o ∧ shelf.Holds content g.waiting
    ∧ sent o (g.released.map (aggregateUnder content))

/-- The result of a message that brings the group of a key to a size. -/
def Handled.of (complete : Prop) [Decidable complete] (key : Key) (size : Nat) : Handled :=
  if complete then .released key size else .pending key size

section Step

variable {sent : σ → List Content → Prop} {k : Nat} {output : Channel σ} {d : DepotId}
  {discard : Option (Channel σ)} {settings : HandlerSettings}

/-- The aggregate of a group that has members goes to the output. -/
theorem Channel.Takes.process (ht : output.Takes sent k) {g : Group} {key : Key}
    {seg : List α} (hkey : g.key = key)
    (hmessages : g.messages.map Message.content = seg.map content) (hne : seg ≠ []) {o : σ}
    {cs : List Content} (hsent : sent o cs) :
    ((Handler.aggregating d output discard settings).process g).Within
      (fun o' said => said = .ok () ∧ sent o' (cs ++ [aggregateUnder content (key, seg)]))
      (k + 1) o := by
  have hfull : g.isEmpty = false := by
    have hlen := congrArg List.length hmessages
    simp only [List.length_map] at hlen
    simp only [Group.isEmpty, List.isEmpty_eq_false_iff]
    intro hnil
    rw [hnil] at hlen
    exact hne (List.length_eq_zero_iff.1 hlen.symm)
  have hprocess : (Handler.aggregating d output discard settings).process g
      = .fresh fun id => (output.send ((Processor.aggregateOf g).finish id)).map
        Processor.sendAs := by
    simp [Handler.process, Handler.aggregating, Handler.standard, Processor.aggregate, hfull]
  rw [hprocess]
  refine .fresh fun id => Script.Within.bind (j := 0) (ht _ _ _ _ hsent
    (Processor.payload_aggregateOf g)) ?_
  rintro o' _ ⟨rfl, hsent'⟩ i
  rw [← aggregateOf_eq hkey hmessages]
  exact .done ⟨rfl, hsent'⟩

variable {s : Machine σ} {h : HandlerId} {g : Gathered α} {m : Message}

theorem Machine.Gathering.refuse
    (hg : s.Gathering content sent h (.aggregating d output discard settings) g)
    (hkey : m.key? = none) :
    (s.handle h m).1.Gathering content sent h (.aggregating d output discard settings) g
      ∧ (s.handle h m).2 = .returned (.error (.correlation m.id)) := by
  obtain ⟨n, shelf, o, hn, hs, hshelf, hsent⟩ := hg
  obtain ⟨hub', hhandle, hs'⟩ := Machine.handle_keyless hs hn (congrArg Attempt.returned hkey)
  rw [hhandle]
  exact ⟨⟨n, shelf, o, hn, hs', hshelf, hsent⟩, rfl⟩

/-- A message under a key ends the segment of its key, which goes to the output, or waits with
it. -/
theorem Machine.Gathering.handle
    (hg : s.Gathering content sent h (.aggregating d output discard settings) g)
    (ht : output.Takes sent k) (hk : k + 9 ≤ patience) {key : Key}
    (hkey : m.key? = some key) {x : α}
    (hx : content x = m.content) :
    (s.handle h m).1.Gathering content sent h (.aggregating d output discard settings)
        (g.take content key x)
      ∧ (s.handle h m).2 = .returned (.ok (.of (Complete content (g.waiting key ++ [x])) key
        (g.waiting key ++ [x]).length)) := by
  obtain ⟨n, shelf, o, hn, hs, hshelf, hsent⟩ := hg
  have hcorrelation := congrArg Attempt.returned hkey
  have hname : ∀ now, ((shelf.get key now).add m now).key = key := fun now =>
    (hshelf.get key now).1
  have hmessages : ∀ now, ((shelf.get key now).add m now).messages.map Message.content
      = (g.waiting key ++ [x]).map content := fun now => by
    simp [Group.add, (hshelf.get key now).2, hx]
  have hsize : ∀ now, ((shelf.get key now).add m now).size = (g.waiting key ++ [x]).length :=
    fun now => by simpa [Group.size] using congrArg List.length (hmessages now)
  by_cases hc : Complete content (g.waiting key ++ [x])
  · obtain ⟨hub', now, o', said, hhandle, ⟨rfl, hsent'⟩, hs'⟩ := Machine.handle_released hs hn
      hcorrelation (hshelf.free key)
      (fun now => congrArg Attempt.returned ((Release.bySequenceSize_iff (hmessages now)).2 hc)) hk
      fun now => ht.process (hname now) (hmessages now) (by simp) hsent
    rw [hhandle, Gathered.take_of_complete hc]
    refine ⟨⟨n, _, o', hn, hs', hshelf.clear key, ?_⟩, ?_⟩
    · simpa using hsent'
    · simp [Handling.completed, Handled.of, hc, hsize now]
  · obtain ⟨hub', now, owner, hhandle, hs'⟩ := Machine.handle_pending hs hn hcorrelation
      (hshelf.free key) fun now => congrArg Attempt.returned
        (Bool.eq_false_iff.2 fun hr => hc ((Release.bySequenceSize_iff (hmessages now)).1 hr))
    rw [hhandle, Gathered.take_of_not_complete hc]
    refine ⟨⟨n, _, o, hn, hs', hshelf.add key hx now owner, hsent⟩, ?_⟩
    simp [Handled.of, hc, hsize now]

end Step

namespace Machine

/-- A machine with one handler, freshly built, on an unbounded depot. -/
def ready (outside : σ) (idOf : Nat → MessageId) (handler : Handler σ) : Machine σ :=
  (initial outside idOf).after [.openDepot none, .event (.build handler)]

variable {sent : σ → List Content → Prop} {s : Machine σ} {h : HandlerId} {handler : Handler σ}
  {g : Gathered α}

theorem hub_ready (outside : σ) (idOf : Nat → MessageId) (hd : handler.depot = 0) :
    (ready outside idOf handler).hub = { Hub.initial outside idOf with
      depots := [{ Depot.empty none with participants := [.handler 0] }]
      members := [⟨handler, 1⟩] } := by
  simp [ready, after, move, apply, initial, Hub.initial, onHub, Hub.build, Hub.openDepot,
    Hub.register, Hub.depot, Depot.register, Depot.empty, hd, Except.map, Hub.setDepot]

theorem gathering_ready (content : α → Content) {outside : σ} (idOf : Nat → MessageId)
    (hd : handler.depot = 0) (hsent : sent outside []) :
    (ready outside idOf handler).Gathering content sent 0 handler Gathered.empty := by
  refine ⟨1, ⟨fun _ => none, fun _ => none⟩, outside, Nat.one_pos, ?_,
    ⟨fun _ _ => ⟨rfl, rfl⟩, fun _ h => absurd rfl h, fun _ _ h => by cases h⟩, hsent⟩
  constructor
  case opened => simp [hub_ready outside idOf hd, hd]
  all_goals rw [hub_ready outside idOf hd]
  all_goals try rw [hd]
  all_goals rfl

/-- What is stored under a key is what waits there. -/
theorem Gathering.find? (hg : s.Gathering content sent h handler g) (key : Key) :
    ((s.hub.depot handler.depot).store.find? key).map (fun g => g.messages.map Message.content)
      = if g.waiting key = [] then none else some ((g.waiting key).map content) := by
  obtain ⟨n, shelf, o, -, hs, hshelf, -⟩ := hg
  have hfind : (s.hub.depot handler.depot).store.find? key = shelf.group? key :=
    congrFun (congrArg Shelf.group? hs.shelf) key
  rw [hfind]
  split_ifs with h
  · rw [(hshelf.bare key h).1]
    rfl
  · obtain ⟨g, hgroup, -, hmessages⟩ := hshelf.stored key h
    rw [hgroup, Option.map_some, hmessages]

/-- Where nothing waits, the depot is as empty as it was at the start. -/
theorem Gathering.bare (hg : s.Gathering content sent h handler g)
    (hnone : ∀ key, g.waiting key = []) :
    (s.hub.depot handler.depot).store.groups = .empty
      ∧ (s.hub.depot handler.depot).locks = .empty := by
  obtain ⟨n, shelf, o, -, hs, hshelf, -⟩ := hg
  have hgroups : (s.hub.depot handler.depot).store.groups = .empty :=
    Dictionary.ext_get? fun name => (congrFun (congrArg Shelf.group? hs.shelf) ⟨name⟩).trans
      (hshelf.bare ⟨name⟩ (hnone ⟨name⟩)).1
  have hentries : (s.hub.depot handler.depot).locks.entries = .empty :=
    Dictionary.ext_get? fun name => (congrFun (congrArg Shelf.lock? hs.shelf) ⟨name⟩).trans
      (hshelf.bare ⟨name⟩ (hnone ⟨name⟩)).2
  exact ⟨hgroups, congrArg KeyLocks.mk hentries⟩

/-- The outside may be told in other words. -/
theorem Gathering.resend {sent' : σ → List Content → Prop}
    (hg : s.Gathering content sent h handler g)
    (hsent : sent' s.hub.outside (g.released.map (aggregateUnder content))) :
    s.Gathering content sent' h handler g := by
  obtain ⟨n, shelf, o, hn, hs, hshelf, -⟩ := hg
  exact ⟨n, shelf, o, hn, hs, hshelf, hs.outside ▸ hsent⟩

theorem Gathering.taken (hg : s.Gathering content sent h handler g) :
    sent s.hub.outside (g.released.map (aggregateUnder content)) := by
  obtain ⟨n, shelf, o, -, hs, -, hsent⟩ := hg
  exact hs.outside ▸ hsent

/-- Time, the journal and the supply of ids are not for the handler to keep. -/
theorem Gathering.hub_congr (hg : s.Gathering content sent h handler g) {hub' : Hub σ}
    (hserves : ∀ n shelf o, s.hub.Serves h handler n shelf o → hub'.Serves h handler n shelf o) :
    ({ s with hub := hub' } : Machine σ).Gathering content sent h handler g := by
  obtain ⟨n, shelf, o, hn, hs, hshelf, hsent⟩ := hg
  exact ⟨n, shelf, o, hn, hserves n shelf o hs, hshelf, hsent⟩

end Machine

end Collate
