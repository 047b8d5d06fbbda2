import Collate.Proofs.Turns

/-!
# One call at a time

Calls that are handled one at a time, each to its end before the next begins (`OneByOne`). Such a
call finds its key free, so it is never late (`Alone.punctual`), and it always comes to an end: the
ways on from its phases lead downwards (`Handler.Follows.acc_leads`). So calls can be handled one at
a time, whatever they are (`Rest.exists_oneByOne`), and the desk then serves them in their order
(`Rest.oneByOne`).
-/

namespace Collate

variable {σ : Type}

/-- Events that handle calls one at a time. -/
inductive OneByOne : Machine σ → List (HandlerId × Message) → List (Event σ) → Prop
  | nil {s} : OneByOne s [] []
  | cons {s h m calls} {turn rest : List (Event σ)} :
      (∀ e ∈ turn, e = .step s.threads.length ∨ ∃ n, e = .elapse n) →
      (∀ t ∈ ((s.apply (.start (.handle h m))).run turn).threads, t.isOver = true) →
      OneByOne ((s.apply (.start (.handle h m))).run turn) calls rest →
      OneByOne s ((h, m) :: calls) (.start (.handle h m) :: (turn ++ rest))

/-! ## The end of a call -/

/-- A way on of a handling, in any circumstances. -/
def Handling.Leads (handler : Handler σ) (h : HandlerId) (p' p : Handling σ) : Prop :=
  ∃ hub hub', Goes hub handler h p hub' p'

theorem Handling.acc_processing {handler : Handler σ} {h : HandlerId} {key : Key} {g : Group}
    {work : Script σ (Except ProcessingError Unit)}
    (hnext : ∀ {hub hub' : Hub σ} {work' : Script σ (Except ProcessingError Unit)},
      work.step hub = .goes hub' work' → Acc (Leads handler h) (.processing key g work'))
    (hremoving : ∀ result, Acc (Leads handler h) (.removing key g result))
    (hreleasing : ∀ retire result, Acc (Leads handler h) (.releasing key retire result)) :
    Acc (Leads handler h) (.processing key g work) := by
  refine ⟨_, ?_⟩
  rintro p' ⟨hub, hub', hg⟩
  cases hg with
  | processing hs => exact hnext hs
  | processed => exact hremoving _
  | broken => exact hreleasing _ _

theorem Script.Yields.acc_leads {handler : Handler σ} {h : HandlerId} {key : Key} {g : Group}
    {r : Except ProcessingError Unit} {work : Script σ (Except ProcessingError Unit)}
    (hw : work.Yields r)
    (hremoving : ∀ result, Acc (Handling.Leads handler h) (.removing key g result))
    (hreleasing : ∀ retire result, Acc (Handling.Leads handler h) (.releasing key retire result)) :
    Acc (Handling.Leads handler h) (.processing key g work) := by
  induction hw with
  | done => exact Handling.acc_processing (fun hs => by cases hs) hremoving hreleasing
  | act _ ih =>
    exact Handling.acc_processing (fun hs => by cases hs; exact ih _) hremoving hreleasing
  | log _ ih =>
    exact Handling.acc_processing (fun hs => by cases hs; exact ih) hremoving hreleasing
  | fresh _ ih =>
    exact Handling.acc_processing (fun hs => by cases hs; exact ih _) hremoving hreleasing

/-- A handling cannot go on for ever. -/
theorem Handler.Follows.acc_leads {handler : Handler σ} {c : Conduct} (hf : handler.Follows c)
    (h : HandlerId) (m : Message) : Acc (Handling.Leads handler h) (.arriving m) := by
  have hdisowning : ∀ r, Acc (Handling.Leads handler h) (.disowning r) := by
    refine fun r => ⟨_, ?_⟩
    rintro p' ⟨hub, hub', hg⟩
    cases hg
  have hleaving : ∀ r, Acc (Handling.Leads handler h) (.leaving r) := by
    refine fun r => ⟨_, ?_⟩
    rintro p' ⟨hub, hub', hg⟩
    cases hg
    exact hdisowning r
  have hreleasing : ∀ key retire r, Acc (Handling.Leads handler h) (.releasing key retire r) := by
    refine fun key retire r => ⟨_, ?_⟩
    rintro p' ⟨hub, hub', hg⟩
    cases hg
    exact hleaving r
  have hremoving : ∀ key g result, Acc (Handling.Leads handler h) (.removing key g result) := by
    refine fun key g result => ⟨_, ?_⟩
    rintro p' ⟨hub, hub', hg⟩
    cases hg <;> exact hreleasing _ _ _
  have hreviewing : ∀ key e, Acc (Handling.Leads handler h) (.reviewing key e) := by
    refine fun key e => ⟨_, ?_⟩
    rintro p' ⟨hub, hub', hg⟩
    cases hg
    exact hreleasing _ _ _
  have hdeciding : ∀ key g, Acc (Handling.Leads handler h) (.deciding key g) := by
    refine fun key g => ⟨_, ?_⟩
    rintro p' ⟨hub, hub', hg⟩
    cases hg with
    | undecided => exact hreleasing _ _ _
    | pending => exact hreleasing _ _ _
    | complete => exact (hf.result g).acc_leads (hremoving key g) (hreleasing key)
  have hadding : ∀ key m, Acc (Handling.Leads handler h) (.adding key m) := by
    refine fun key m => ⟨_, ?_⟩
    rintro p' ⟨hub, hub', hg⟩
    cases hg with
    | added => exact hdeciding _ _
    | unadded => exact hreviewing _ _
  have hlocking : ∀ key m deadline, Acc (Handling.Leads handler h) (.locking key m deadline) := by
    refine fun key m deadline => ⟨_, ?_⟩
    rintro p' ⟨hub, hub', hg⟩
    cases hg with
    | taken => exact hadding _ _
    | late => exact hleaving _
  refine ⟨_, ?_⟩
  rintro p' ⟨hub, hub', hg⟩
  cases hg with
  | struck => exact hleaving _
  | keyless => exact hleaving _
  | keyed => exact hlocking _ _ _

/-! ## A call alone -/

theorem requests_step (s : Machine σ) (d : DepotId) (i : Nat) :
    requests d (s.notes (.event (.step i))) = []
      ∨ ∃ r, requests d (s.notes (.event (.step i))) = [(i, r)] := by
  simp only [Machine.notes]
  rcases s.threads[i]? with _ | ⟨_ | ⟨f, below⟩, reply⟩
  · exact .inl rfl
  · exact .inl rfl
  simp only [Option.elim_some, Machine.stackNotes]
  rcases f.step s.hub with ⟨hub', f'⟩ | ⟨hub', f', inner⟩ | ⟨hub', r⟩ | deadline
  · simp only
    rcases f.doing s.hub below.head? f' with _ | x
    · exact .inl rfl
    · have hnote : requests d [.did ⟨i, below.length⟩ x]
          = ((Note.did ⟨i, below.length⟩ x).request? d).toList := by
        rw [requests, List.filterMap_cons]
        rcases (Note.did ⟨i, below.length⟩ x).request? d <;> rfl
      simp only [Option.map_some, Option.toList_some, hnote]
      cases x
      case added h d' key m time =>
        by_cases hd : d' = d
        · exact .inr ⟨⟨h, key, m⟩, by simp [Note.request?, hd]⟩
        · exact .inl (by simp [Note.request?, hd])
      all_goals exact .inl rfl
  · exact .inl rfl
  · exact .inl rfl
  · exact .inl rfl

/-- Calls served one at a time, so far: all are over, and the desk served them in their order. -/
structure Rest (c : HandlerId → Conduct) (d : DepotId) (start : Desk)
    (calls : List (HandlerId × Message)) (s : Machine σ) (notes : List Note) : Prop
    extends Serving c False d start calls s notes where
  ended : ∀ t ∈ s.threads, t.isOver = true
  inOrder : (adders d notes).Sublist (List.range calls.length)

/-- The last of the calls, in thread `i`, works while all others are over. -/
structure Alone (c : HandlerId → Conduct) (d : DepotId) (start : Desk)
    (calls : List (HandlerId × Message)) (s : Machine σ) (notes : List Note) (i : Nat) : Prop
    extends Serving c False d start calls s notes where
  last : calls.length = i + 1
  others : ∀ j (t : Thread σ), s.threads[j]? = some t → j ≠ i → t.isOver = true
  inOrder : (adders d notes).Sublist (List.range calls.length)

namespace Alone

variable {c : HandlerId → Conduct} {d : DepotId} {start : Desk}
  {calls : List (HandlerId × Message)} {s : Machine σ} {notes : List Note} {i : Nat}

/-- Who works alone finds its key free. -/
theorem punctual (ha : Alone c d start calls s notes i) : Serving.Punctual s d i := by
  intro h key m deadline ht hnone
  have hheld : ∃ e, (s.hub.depot d).shelf.lock? key = some e ∧ e.held = true := by
    by_contra hno
    have hfree : ∀ e, (s.hub.depot d).locks.find? key = some e → e.held = false := by
      intro e he
      rcases hh : e.held
      · rfl
      · exact absurd ⟨e, he, hh⟩ hno
    obtain ⟨locks, hlocks⟩ := KeyLocks.acquire?_of_free (some h) hfree
    rw [hnone] at hlocks
    cases hlocks
  obtain ⟨e, he, hh⟩ := hheld
  -- the holder would be a call under way, but there is only the one that asks
  obtain ⟨q, x, hq⟩ := ha.sound.owned key e he hh
  obtain ⟨f, hf, hgrip⟩ := Option.bind_eq_some_iff.1 hq
  obtain ⟨t, htq, hstack⟩ := Option.bind_eq_some_iff.1 hf
  by_cases hi : q.thread = i
  · rw [hi, ht] at htq
    cases htq
    rcases hn : q.depth with _ | n
    · simp only [hn, List.reverse_singleton, List.getElem?_cons_zero, Option.some.injEq] at hstack
      subst hstack
      simp [Frame.grip_handling, Handling.grip, Handling.holds] at hgrip
    · simp [hn] at hstack
  · have hover := List.isEmpty_iff.1 (ha.others q.thread t htq hi)
    simp [hover] at hstack

theorem elapses (ha : Alone c d start calls s notes i) (n : Nat) :
    Alone c d start calls (s.apply (.elapse n)) notes i :=
  ⟨ha.toServing.elapses n, ha.last, ha.others, ha.inOrder⟩

theorem step (ha : Alone c d start calls s notes i) (hstart : start.answers = []) :
    Alone c d start calls (s.apply (.step i)) (notes ++ s.notes (.event (.step i))) i := by
  have hv := ha.toServing.step hstart i (.inr ha.punctual)
  refine ⟨hv, ha.last, fun j t hj hne => ?_, ?_⟩
  · refine ha.others j t ?_ hne
    simp only [Machine.apply] at hj
    split at hj
    · rwa [List.getElem?_set_ne (Ne.symm hne)] at hj
    · exact hj
  · obtain hnone | ⟨r, hr⟩ := requests_step s d i
    · rw [adders_append_of_nil hnone]
      exact ha.inOrder
    · -- what was added before was added by earlier threads
      have hrange : List.range calls.length = List.range i ++ [i] := by
        rw [ha.last, List.range_succ]
      have hadders : adders d (notes ++ s.notes (.event (.step i))) = adders d notes ++ [i] := by
        rw [adders, requests_append, hr, List.map_append, List.map_singleton, adders]
      have honce := hv.once
      have hbefore := ha.inOrder
      rw [hadders] at honce ⊢
      rw [hrange] at hbefore ⊢
      refine (List.Sublist.of_sublist_append_left (fun j hj hmem => ?_) hbefore).append
        (List.Sublist.refl _)
      exact (List.nodup_append.1 honce).2.2 j hj i (List.mem_singleton.2 rfl)
        (List.mem_singleton.1 hmem)

theorem progress (ha : Alone c d start calls s notes i) {h : HandlerId} {handler : Handler σ}
    {p : Handling σ} (ht : s.threads[i]? = some ⟨[.handling h p], none⟩)
    (hh : s.hub.handler? h = some handler) (hd : handler.depot = d) :
    (∀ t ∈ (s.apply (.step i)).threads, t.isOver = true)
      ∨ ∃ p', Handling.Leads handler h p' p
        ∧ (s.apply (.step i)).threads[i]? = some ⟨[.handling h p'], none⟩ := by
  have hi : i < s.threads.length := (List.getElem?_eq_some_iff.1 ht).1
  rcases hs : (Frame.handling h p).step s.hub with
    ⟨hub', f'⟩ | ⟨hub', f', inner⟩ | ⟨hub', r⟩ | deadline
  · obtain ⟨p', rfl, hg⟩ := Handling.goes_of_step hh hs
    refine .inr ⟨p', ⟨s.hub, hub', hg⟩, ?_⟩
    rw [(Machine.apply_goes ht hs).1]
    exact List.getElem?_set_self hi
  · obtain ⟨-, -, key, g, work, rfl, hw⟩ := Handling.calls_of_step hs
    obtain ⟨h', m, handler', -, -, ⟨p', heq, hp⟩ | ⟨result, heq, -⟩⟩ := ha.stands i _ ht
    · cases heq
      exact absurd hw hp.2.not_calls
    · cases heq
  · refine .inl fun t hmem => ?_
    rw [(Machine.apply_ends ht hs).1] at hmem
    obtain ⟨j, hj⟩ := List.getElem?_of_mem hmem
    rw [List.getElem?_set] at hj
    split_ifs at hj with hji
    · cases hj
      rfl
    · exact ha.others j t hj (Ne.symm hji)
  · obtain ⟨key, m, deadline', rfl, hlocks⟩ := Handling.waits_of_step hh hs
    rw [hd] at hlocks
    exact absurd hlocks (ha.punctual h key m deadline' ht)

/-- A call that works alone comes to an end. -/
theorem exists_turn (hstart : start.answers = []) {h : HandlerId} {handler : Handler σ}
    {p : Handling σ} (hp : Acc (Handling.Leads handler h) p) (hd : handler.depot = d) :
    ∀ {s : Machine σ} {notes : List Note}, Alone c d start calls s notes i →
      s.threads[i]? = some ⟨[.handling h p], none⟩ → s.hub.handler? h = some handler →
      ∃ turn : List (Event σ), (∀ e ∈ turn, e = .step i)
        ∧ ∀ t ∈ (s.run turn).threads, t.isOver = true := by
  induction hp with
  | intro p _ ih =>
    intro s notes ha ht hh
    rcases ha.progress ht hh hd with hover | ⟨p', hleads, hnext⟩
    · exact ⟨[.step i], by simp, hover⟩
    · have hkeeps := Machine.keeps_step ha.orderly i
      obtain ⟨turn, hturn, hover⟩ :=
        ih p' hleads (ha.step hstart) hnext (by rw [hkeeps.handlers, hh])
      exact ⟨.step i :: turn, by simpa using hturn, hover⟩

theorem run (hstart : start.answers = []) :
    ∀ (turn : List (Event σ)) {s : Machine σ} {notes : List Note},
      Alone c d start calls s notes i → (∀ e ∈ turn, e = .step i ∨ ∃ n, e = .elapse n) →
      Alone c d start calls (s.run turn) (notes ++ s.history (turn.map .event)) i
        ∧ ∀ h, (s.run turn).hub.handler? h = s.hub.handler? h
  | [], s, notes, ha, _ => by
    simpa [Machine.run, Machine.history] using ha
  | e :: turn, s, notes, ha, he => by
    have hothers : ∀ e ∈ turn, e = .step i ∨ ∃ n, e = .elapse n := fun e' hmem =>
      he e' (List.mem_cons_of_mem e hmem)
    obtain rfl | ⟨n, rfl⟩ := he e List.mem_cons_self
    · obtain ⟨hlast, hhandlers⟩ := run hstart turn (ha.step hstart) hothers
      rw [List.map_cons, Machine.history, ← List.append_assoc]
      exact ⟨hlast, fun h => (hhandlers h).trans ((Machine.keeps_step ha.orderly i).handlers h)⟩
    · exact run hstart turn (ha.elapses n) hothers

end Alone

namespace Rest

variable {c : HandlerId → Conduct} {d : DepotId} {start : Desk}
  {calls : List (HandlerId × Message)} {s : Machine σ} {notes : List Note}

theorem comes (hr : Rest c d start calls s notes) {h : HandlerId} {handler : Handler σ}
    (m : Message) (hh : s.hub.handler? h = some handler) (hd : handler.depot = d)
    (hf : handler.Follows (c h)) :
    Alone c d start (calls ++ [(h, m)]) (s.apply (.start (.handle h m)))
      (notes ++ s.notes (.event (.start (.handle h m)))) s.threads.length := by
  refine ⟨hr.toServing.comes hh hd hf, by simp [hr.length], fun j t hj hne => ?_, ?_⟩
  · simp only [Machine.apply, getElem?_snoc, if_neg hne] at hj
    exact hr.ended t (List.mem_of_getElem? hj)
  · have hnone : requests d (s.notes (.event (.start (.handle h m)))) = [] := rfl
    rw [adders_append_of_nil hnone, List.length_append, List.length_singleton, List.range_succ]
    exact hr.inOrder.trans (List.sublist_append_left _ _)

/-- Calls can be handled one at a time, whatever they are. -/
theorem exists_oneByOne (hstart : start.answers = []) :
    ∀ (more : List (HandlerId × Message)) {calls : List (HandlerId × Message)} {s : Machine σ}
      {notes : List Note}, Rest c d start calls s notes →
      Staffed s.hub c d more →
      ∃ events, OneByOne s more events
  | [], _, _, _, _, _ => ⟨[], .nil⟩
  | (h, m) :: more, calls, s, notes, hr, hmore => by
    obtain ⟨handler, hh, hd, hf⟩ := hmore h m List.mem_cons_self
    have ha := hr.comes m hh hd hf
    have hbegun : (s.apply (.start (.handle h m))).threads[s.threads.length]?
        = some ⟨[.handling h (.arriving m)], none⟩ := by
      simp [Machine.apply, Thread.start, Activity.frame]
    obtain ⟨turn, hturn, hover⟩ := ha.exists_turn hstart (hf.acc_leads h m) hd hbegun hh
    obtain ⟨hend, hhandlers⟩ := ha.run hstart turn fun e he => .inl (hturn e he)
    have hothers := hmore.later.congr hhandlers
    obtain ⟨events, hevents⟩ :=
      exists_oneByOne hstart more ⟨hend.toServing, hover, hend.inOrder⟩ hothers
    exact ⟨_, .cons (fun e he => .inl (hturn e he)) hover hevents⟩

/-- Calls that are handled one at a time are served in their order. -/
theorem oneByOne (hstart : start.answers = []) {more : List (HandlerId × Message)}
    {events : List (Event σ)} (ho : OneByOne s more events) :
    ∀ {calls : List (HandlerId × Message)} {notes : List Note}, Rest c d start calls s notes →
      Staffed s.hub c d more →
      Rest c d start (calls ++ more) (s.run events)
        (notes ++ s.history (events.map .event)) := by
  induction ho with
  | nil =>
    intro calls notes hr _
    simpa [Machine.run, Machine.history] using hr
  | @cons s h m more turn rest hturn hover _ ih =>
    intro calls notes hr hmore
    obtain ⟨handler, hh, hd, hf⟩ := hmore h m List.mem_cons_self
    obtain ⟨hend, hhandlers⟩ := (hr.comes m hh hd hf).run hstart turn hturn
    have hothers := hmore.later.congr hhandlers
    have hlast := ih ⟨hend.toServing, hover, hend.inOrder⟩ hothers
    have hrun : s.run (.start (.handle h m) :: (turn ++ rest))
        = ((s.apply (.start (.handle h m))).run turn).run rest := by
      simp only [Machine.run, List.foldl_cons, List.foldl_append]
    have hhistory : s.history ((.start (.handle h m) :: (turn ++ rest)).map .event)
        = s.notes (.event (.start (.handle h m)))
          ++ ((s.apply (.start (.handle h m))).history (turn.map .event)
            ++ ((s.apply (.start (.handle h m))).run turn).history (rest.map .event)) := by
      rw [List.map_cons, List.map_append, Machine.history, Machine.history_append,
        Machine.after_events]
      rfl
    rw [hrun, hhistory]
    simpa only [List.append_assoc, List.singleton_append] using hlast

end Rest

end Collate
