import Collate.Proofs.Conservation

/-!
# The lock table and the store agree

Groups and lock entries come and go at different steps of different calls, on many ways out: a
message waits for more, a group is released or fails, the store is full, a group turns out empty or
changed, it expires or is swept up, a wait is too long, or code of the outside panics. After every
lawful run each stored group has an entry, and each entry that nobody holds has a group; so when no
call is under way both have the same keys. A stored group moreover has nothing but messages that
were given its key by the handler that added them.
-/

namespace Collate

variable {σ : Type}

/-! ## Where the messages of a group come from -/

theorem Course.named_of_added {c : List Doing} (hc : Course c) {h : HandlerId} {d : DepotId}
    {key : Key} {m : Message} {t : Instant} (hm : .added h d key m t ∈ c) :
    [.named h m key, .added h d key m t] <+: c := by
  -- no doing before a removal is an addition, apart from the lead
  have hdealing : ∀ {h' g l}, Dealing h' g l → .added h d key m t ∉ l := by
    intro h' g l hl
    cases hl <;> simp
  induction hc with
  | bare => cases hm
  | named => simp at hm
  | added h' d' key' m' t' =>
    simp only [List.mem_cons, reduceCtorEq, Doing.added.injEq, List.not_mem_nil, or_false,
      false_or] at hm
    obtain ⟨rfl, rfl, rfl, rfl, rfl⟩ := hm
    exact List.prefix_rfl
  | released hl =>
    simp only [List.mem_append, List.mem_cons, reduceCtorEq, Doing.added.injEq, List.not_mem_nil,
      or_false, false_or, hdealing hl] at hm
    obtain ⟨rfl, rfl, rfl, rfl, rfl⟩ := hm
    rw [List.append_assoc]
    exact List.prefix_append _ _
  | expired hl => simp [hdealing hl] at hm
  | passed hsweeps =>
    rcases List.mem_cons.1 hm with hm | hm
    · cases hm
    · obtain ⟨g, t', hx⟩ := hsweeps _ hm
      cases hx
  | @broken c rest hc hrest ih =>
    have hmem : Doing.added h d key m t ∈ c := by simpa using hm
    have hlead := ih (List.mem_append_left _ hmem)
    refine List.IsPrefix.trans ?_ (List.prefix_append _ _)
    rcases c with _ | ⟨x, _ | ⟨y, c⟩⟩
    · cases hmem
    · rw [← List.mem_singleton.1 hmem] at hlead
      simp [List.cons_prefix_cons] at hlead
    · simpa [List.cons_prefix_cons] using hlead

theorem Underway.named_of_added {s : Machine σ} {p : Place} {c : List Doing}
    (hc : Underway s p c) {h : HandlerId} {d : DepotId} {key : Key} {m : Message} {t : Instant}
    (hm : .added h d key m t ∈ c) : [.named h m key, .added h d key m t] <+: c := by
  obtain ⟨f, h', g, d', lead, part, rest, -, hlead, rfl, -, hdealing, -⟩ := hc
  have hpart : Doing.added h d key m t ∉ part := by
    intro hmem
    have hmem' := List.mem_append_left rest hmem
    cases hl : part ++ rest <;> rw [hl] at hdealing hmem' <;> cases hdealing <;> simp at hmem'
  rcases hlead with rfl | ⟨m', t', rfl⟩
  · exact absurd hm hpart
  · simp only [List.mem_append, List.mem_cons, reduceCtorEq, Doing.added.injEq, List.not_mem_nil,
      or_false, false_or, hpart] at hm
    obtain ⟨rfl, rfl, rfl, rfl, rfl⟩ := hm
    exact List.prefix_append _ _

/-- The books note a name when the strategy of the handler gives it. -/
theorem Frame.correlation_of_doing {hub hub' : Hub σ} {f f' : Frame σ} {under : Option (Frame σ)}
    (hs : f.step hub = .goes hub' f') {h : HandlerId} {m : Message} {key : Key}
    (hd : f.doing hub under f' = some (.named h m key)) :
    ∃ handler, hub.handler? h = some handler ∧ handler.correlation m = .returned (some key) := by
  cases f with
  | handling h' p =>
    obtain ⟨handler, hh⟩ := Handling.handler_of_step hs
    obtain ⟨p', rfl, hg⟩ := Handling.goes_of_step hh hs
    simp only [doing, hh, Option.bind_some] at hd
    cases hg
    case keyed hkey =>
      cases hd
      exact ⟨handler, hh, hkey⟩
    case removed hr => simp [Handling.doing, Depot.removal, hr] at hd
    case unremoved hr => simp [Handling.doing, Depot.removal, hr] at hd
    all_goals cases hd
  | offer h' stale p =>
    obtain ⟨handler, hh⟩ := Offer.handler_of_step hs
    obtain ⟨p', rfl, hg⟩ := Offer.goes_of_step hh hs
    simp only [doing, hh, Option.bind_some] at hd
    cases hg
    case removed hr => simp [Offer.doing, Depot.removal, hr] at hd
    case unremoved hr => simp [Offer.doing, Depot.removal, hr] at hd
    all_goals cases hd
  | pass d timeout p =>
    obtain ⟨p', rfl, hg⟩ := Pass.goes_of_step hs
    simp only [doing] at hd
    cases hg <;> cases hd
  | drop h' p =>
    obtain ⟨rfl, rfl⟩ := Drop.goes_of_step hs
    cases hd

namespace Machine

theorem exists_of_mem_history {x : Note} :
    ∀ {moves : List (Move σ)} {s : Machine σ}, x ∈ s.history moves →
      ∃ before mv rest, moves = before ++ mv :: rest ∧ x ∈ (s.after before).notes mv
  | [], _, h => by cases h
  | mv :: moves, s, h => by
    rcases List.mem_append.1 h with h | h
    · exact ⟨[], mv, moves, rfl, h⟩
    · obtain ⟨before, mv', rest, rfl, hx⟩ := exists_of_mem_history h
      exact ⟨mv :: before, mv', rest, rfl, hx⟩

theorem correlation_of_notes {s : Machine σ} {mv : Move σ} {p : Place} {h : HandlerId}
    {m : Message} {key : Key} (hn : .did p (.named h m key) ∈ s.notes mv) :
    ∃ handler, s.hub.handler? h = some handler ∧ handler.correlation m = .returned (some key) := by
  have hstep : ∃ i, mv = .event (.step i) := by
    rcases mv with (a | i | n | handler) | capacity | ⟨d, hook⟩ | arrange | ⟨h', code⟩ | change
    case event.step => exact ⟨i, rfl⟩
    all_goals simp [notes] at hn
  obtain ⟨i, rfl⟩ := hstep
  rcases ht : s.threads[i]? with _ | ⟨stack, reply⟩ <;> simp only [notes, ht, Option.elim] at hn
  · cases hn
  rcases stack with _ | ⟨f, below⟩
  · cases hn
  simp only [stackNotes] at hn
  rcases hs : f.step s.hub with ⟨hub, f'⟩ | ⟨hub, f', inner⟩ | ⟨hub, r⟩ | deadline <;>
    simp only [hs, List.mem_singleton, reduceCtorEq, List.not_mem_nil, Option.mem_toList,
      Option.map_eq_some_iff, Note.did.injEq] at hn
  obtain ⟨x, hx, -, rfl⟩ := hn
  exact Frame.correlation_of_doing hs hx

end Machine

/-- A message that a call of a handler added under the key that the handler's strategy gave it. -/
def Given (s : Machine σ) (moves : List (Move σ)) (d : DepotId) (key : Key) (m : Message) : Prop :=
  ∃ p h t, (∃ c ∈ calls p (s.history moves), [.named h m key, .added h d key m t] <+: c)
    ∧ ∃ before rest handler, moves = before ++ rest
      ∧ (s.after before).hub.handler? h = some handler
      ∧ handler.correlation m = .returned (some key)

theorem exists_of_mem_ledger {d : DepotId} {key : Key} {m : Message} {t : Instant}
    {notes : List Note} (h : .put key m t ∈ ledger d notes) :
    ∃ p h, .did p (.added h d key m t) ∈ notes := by
  obtain ⟨note, hnote, he⟩ := List.mem_filterMap.1 h
  cases note with
  | came p => cases he
  | did p x =>
    cases x with
    | added h' d' key' m' t' =>
      simp only [Note.posting?, Doing.posting?] at he
      split_ifs at he with hd
      cases he
      exact ⟨p, h', hd ▸ hnote⟩
    | removed d' key' g t' by_ =>
      simp only [Note.posting?, Doing.posting?] at he
      split_ifs at he
      cases he
    | _ => cases he

theorem mem_notes_of_calls {p : Place} {x : Doing} {notes : List Note} {c : List Doing}
    (hc : c ∈ calls p notes) (hx : x ∈ c) : .did p x ∈ notes := by
  induction notes using List.reverseRecOn generalizing c with
  | nil => cases hc
  | append_singleton notes note ih =>
    rw [calls_snoc] at hc
    cases note with
    | came q =>
      simp only [Note.hear] at hc
      split_ifs at hc
      · rcases List.mem_cons.1 hc with rfl | hc
        · cases hx
        · exact List.mem_append_left _ (ih hc hx)
      · exact List.mem_append_left _ (ih hc hx)
    | did q y =>
      simp only [Note.hear] at hc
      split_ifs at hc with hq
      · subst hq
        rcases hcalls : calls q notes with _ | ⟨newest, older⟩ <;> simp only [hcalls] at hc
        · rw [List.mem_singleton.1 hc] at hx
          rw [List.mem_singleton.1 hx]
          simp
        · rcases List.mem_cons.1 hc with rfl | hc
          · rcases List.mem_append.1 hx with hx | hx
            · exact List.mem_append_left _ (ih (hcalls ▸ List.mem_cons_self) hx)
            · rw [List.mem_singleton.1 hx]
              simp
          · exact List.mem_append_left _ (ih (hcalls ▸ List.mem_cons_of_mem _ hc) hx)
      · exact List.mem_append_left _ (ih hc hx)

theorem given_of_added {outside : σ} {idOf : Nat → MessageId} {moves : List (Move σ)}
    (hl : (Machine.initial outside idOf).Lawful moves) {p : Place} {h : HandlerId} {d : DepotId}
    {key : Key} {m : Message} {t : Instant}
    (hn : .did p (.added h d key m t) ∈ (Machine.initial outside idOf).history moves) :
    Given (Machine.initial outside idOf) moves d key m := by
  obtain ⟨c, hc, hx⟩ := mem_calls hn
  have hlead : [.named h m key, .added h d key m t] <+: c :=
    (Machine.settled_after hl hc).elim (fun hcourse => hcourse.named_of_added hx)
      fun hunder => hunder.named_of_added hx
  have hname := mem_notes_of_calls hc (hlead.subset List.mem_cons_self)
  obtain ⟨before, mv, rest, hmoves, hmem⟩ := Machine.exists_of_mem_history hname
  obtain ⟨handler, hh, hcorrelation⟩ := Machine.correlation_of_notes hmem
  exact ⟨p, h, t, ⟨c, hc, hlead⟩, before, mv :: rest, handler, hmoves, hh, hcorrelation⟩

/-! ## At rest -/

theorem Machine.frameAt_of_over {s : Machine σ} (h : ∀ t ∈ s.threads, t.isOver = true)
    (p : Place) : s.frameAt p = none := by
  simp only [frameAt, Option.bind_eq_none_iff]
  intro t ht
  simp [List.isEmpty_iff.1 (h t (List.mem_of_getElem? ht))]

/-- A shelf that nobody holds a key of has groups and entries under the same keys. -/
theorem Sound.same_keys {ι : Type} {s : Shelf} {grips : ι → Option (Key × Sight)}
    (hs : Sound s grips) (hrest : ∀ p, grips p = none) (key : Key) :
    (s.lock? key).isSome = (s.group? key).isSome := by
  rw [Bool.eq_iff_iff]
  refine ⟨fun he => ?_, hs.guarded key⟩
  obtain ⟨e, he⟩ := Option.isSome_iff_exists.1 he
  rcases hheld : e.held with _ | _
  · exact hs.resting key e he hheld
  · obtain ⟨p, x, hp⟩ := hs.owned key e he hheld
    rw [hrest p] at hp
    cases hp

theorem Depot.names_eq {d : Depot}
    (h : ∀ key, (d.shelf.lock? key).isSome = (d.shelf.group? key).isSome) :
    d.locks.entries.names = d.store.groups.names :=
  Dictionary.names_eq fun name => h ⟨name⟩

namespace Machine

/-- After every lawful run, each stored group has messages of its own key only, which their handlers
gave them, and an entry in the lock table; an entry that is not held has a group; and when no call
is under way the lock table and the store have the same keys, so they are of one size. -/
theorem locks_agree_with_store (outside : σ) (idOf : Nat → MessageId) (moves : List (Move σ))
    (hl : (initial outside idOf).Lawful moves) :
    let s := (initial outside idOf).after moves
    ∀ d, (∀ key g, (s.hub.depot d).store.find? key = some g →
        g.messages ≠ [] ∧ g.key = key
          ∧ (∀ m ∈ g.messages, Given (initial outside idOf) moves d key m)
          ∧ ((s.hub.depot d).locks.find? key).isSome = true)
      ∧ (∀ key e, (s.hub.depot d).locks.find? key = some e → e.held = false →
        ((s.hub.depot d).store.find? key).isSome = true)
      ∧ ((∀ t ∈ s.threads, t.isOver = true) →
        (s.hub.depot d).locks.size = (s.hub.depot d).store.groupCount
          ∧ (s.hub.depot d).locks.entries.names = (s.hub.depot d).store.groups.names) := by
  intro s d
  have ho : (initial outside idOf).Orderly := orderly_initial outside idOf
  have hsound := sound_after ho d (sound_initial outside idOf d) moves hl
  have hkept := kept_after ho (bare_initial outside idOf d) moves hl
  refine ⟨fun key g hg => ?_, hsound.resting, fun hover => ?_⟩
  · obtain ⟨hkey, hmessages⟩ := hsound.tidy key g hg
    have hsome := hsound.guarded key (Option.isSome_iff_exists.2 ⟨g, hg⟩)
    refine ⟨hmessages, hkey, fun m hm => ?_, hsome⟩
    -- a member of the group arrived since the last removal
    have harrivals := Ledger.group?_eq key (ledger d ((initial outside idOf).history moves))
    rw [← hkept.stored key, show (s.hub.depot d).shelf.group? key = some g from hg] at harrivals
    rw [Option.elim_some] at harrivals
    rw [harrivals] at hm
    obtain ⟨a, ha, rfl⟩ := List.mem_map.1 hm
    obtain ⟨p, h, hnote⟩ := exists_of_mem_ledger (Ledger.mem_of_arrivals ha)
    exact given_of_added hl hnote
  · have hrest : ∀ p, grips s.hub s.frameAt d p = none := fun p => by
      simp [grips, frameAt_of_over hover p]
    have hnames := Depot.names_eq (hsound.same_keys hrest)
    refine ⟨?_, hnames⟩
    have hlength := congrArg List.length hnames
    simpa [Dictionary.names, KeyLocks.size, Store.groupCount, Dictionary.size] using hlength

end Machine

/-! ## A wait that is too long -/

/-- A handler whose release strategy panics on every group. -/
def panicking : Handler Unit :=
  { pairing with release := fun _ => .panicked, settings := ⟨some 1, .discard⟩ }

/-- One thread holds the key of the pair and the other waits in vain; then the first one panics. -/
def strandedTurns : List (Event Unit) :=
  [.start (.handle 0 (plain "first")), .start (.handle 0 (plain "second"))]
    ++ [0, 1, 0, 0].map Event.step ++ [.elapse 1000000] ++ [1, 1, 0, 0, 0].map Event.step

def strandedRun : List (Move Unit) :=
  .openDepot (some 1) :: .event (.build panicking) :: strandedTurns.map .event

theorem lawful_strandedRun : (Machine.initial () fun _ => ⟨""⟩).Lawful strandedRun := by
  refine ⟨trivial, ⟨⟨fun g => .done _, fun c hc => by cases hc⟩, Nat.zero_lt_one⟩,
    Machine.lawful_events _ _ ?_⟩
  intro e he handler
  simp only [strandedTurns, List.cons_append, List.nil_append, List.map_cons, List.map_nil,
    List.mem_cons, List.not_mem_nil, or_false] at he
  rcases he with rfl | rfl | rfl | rfl | rfl | rfl | rfl | rfl | rfl | rfl | rfl | rfl <;> simp

/-- The message that a panic left behind keeps its group and the entry of its key. -/
theorem stranded_locks_agree :
    (Machine.initial () fun _ => ⟨""⟩).Lawful strandedRun
      ∧ (((Machine.initial () fun _ => ⟨""⟩).after strandedRun).hub.depot 0).locks.entries.names
        = ["pair"] := by
  refine ⟨lawful_strandedRun, ?_⟩
  have hagree := (Machine.locks_agree_with_store () (fun _ => ⟨""⟩) strandedRun
    lawful_strandedRun 0).2.2
  rw [(hagree (by decide)).2]
  rfl

end Collate
