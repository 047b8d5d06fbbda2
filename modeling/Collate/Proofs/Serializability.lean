import Collate.Proofs.Serial
import Mathlib.Data.List.Basic

/-!
# Interleaved calls and calls one at a time

Calls that handle messages in one unbounded store, in any interleaving, come to the same as the
calls that did not time out, handled one at a time in the order of their additions: the same
results, the same groups for the processors, the same groups left in the store and the same keys
left in the lock table (`Machine.serializable`). Both are compared with the desk: the additions of
either run are the requests of the calls in that order (`Serving.requests_eq`), so both end up even
with one desk.
-/

namespace Collate

variable {σ : Type}

/-- A call that waited for its key in vain. -/
def Machine.TimedOut (s : Machine σ) (i : Nat) : Prop :=
  ∃ key ms, s.reply? i = some (.handled (.returned (.error (.lockTimeout key ms))))

/-- An order of the calls that did not time out, in which those that added a message come in the
order of their additions. -/
structure Machine.InOrder (s : Machine σ) (d : DepotId) (events : List (Event σ))
    (order : List Nat) : Prop where
  nodup : order.Nodup
  mem : ∀ i, i ∈ order ↔ i < (callsOf events).length ∧ ¬(s.run events).TimedOut i
  added : (adders d (s.history (events.map .event))).Sublist order

/-- The calls of an order. -/
def callsIn (events : List (Event σ)) (order : List Nat) : List (HandlerId × Message) :=
  order.filterMap fun i => (callsOf events)[i]?

/-- Two runs that come to the same, where call `order[j]` of one is call `j` of the other. -/
structure Machine.Agrees (s : Machine σ) (d : DepotId) (order : List Nat)
    (events serial : List (Event σ)) : Prop where
  results : ∀ j i, order[j]? = some i → ∃ result,
    (s.run events).reply? i = some (.handled (.returned result))
      ∧ (s.run serial).reply? j = some (.handled (.returned result))
  processed : ∀ key, completions key (s.history (events.map .event))
    = completions key (s.history (serial.map .event))
  stored : ∀ key, (((s.run events).hub.depot d).store.find? key).map Group.messages
    = (((s.run serial).hub.depot d).store.find? key).map Group.messages
  locks : ((s.run events).hub.depot d).locks.entries.names
    = ((s.run serial).hub.depot d).locks.entries.names

/-! ## Requests in order -/

theorem eq_filterMap_of_sublist {α : Type} {g : Nat → Option α} :
    ∀ {order : List Nat} {l : List (Nat × α)}, order.Nodup → (l.map Prod.fst).Sublist order →
      (∀ i a, (i, a) ∈ l → g i = some a) → (∀ i ∈ order, (g i).isSome → i ∈ l.map Prod.fst) →
      l = order.filterMap fun i => (g i).map (i, ·)
  | [], l, _, hsub, _, _ => by
    rw [List.sublist_nil, List.map_eq_nil_iff] at hsub
    rw [hsub, List.filterMap_nil]
  | i :: order, l, hnodup, hsub, hg, hall => by
    obtain ⟨hi, hnodup'⟩ := List.nodup_cons.1 hnodup
    rw [List.filterMap_cons]
    rcases List.sublist_cons_iff.1 hsub with hskip | ⟨rest, hfirst, hrest⟩
    · have hnone : g i = none := by
        rw [← Option.not_isSome_iff_eq_none]
        exact fun hsome => hi (hskip.subset (hall i List.mem_cons_self hsome))
      rw [hnone, Option.map_none]
      exact eq_filterMap_of_sublist hnodup' hskip hg fun k hk hsome =>
        hall k (List.mem_cons_of_mem _ hk) hsome
    · -- the first in the order is the first that is listed
      obtain ⟨⟨j, a⟩, l', rfl, rfl, rfl⟩ := List.map_eq_cons_iff.1 hfirst
      rw [hg j a List.mem_cons_self, Option.map_some]
      refine congrArg _ (eq_filterMap_of_sublist hnodup' hrest
        (fun k b hk => hg k b (List.mem_cons_of_mem _ hk)) fun k hk hsome => ?_)
      rcases List.mem_cons.1 (hall k (List.mem_cons_of_mem _ hk) hsome) with rfl | hlater
      · exact absurd hk hi
      · exact hlater

/-- What a call asks of the desk, if its message has a key. -/
def request? (c : HandlerId → Conduct) (calls : List (HandlerId × Message)) (i : Nat) :
    Option Request :=
  (calls[i]?).bind fun call => ((c call.1).key call.2).map fun key => ⟨call.1, key, call.2⟩

/-- The desk never answers that a wait was in vain. -/
theorem Desk.answer_ne {c : HandlerId → Conduct} {start : Desk} (hstart : start.answers = [])
    (rs : List Request) {result : Except HandlerError Handled}
    (h : result ∈ (start.serveAll c rs).answers) (key : Key) (ms : Nat) :
    result ≠ .error (.lockTimeout key ms) := by
  induction rs using List.reverseRecOn with
  | nil =>
    rw [show start.serveAll c [] = start from rfl, hstart] at h
    cases h
  | append_singleton rs r ih =>
    rw [serveAll_snoc, serve, List.mem_append, List.mem_singleton] at h
    rcases h with h | rfl
    · exact ih h
    · unfold Conduct.answer
      split_ifs
      · rcases (c r.handler).result r.key _ with e | u <;> simp [Handling.completed]
      · simp

namespace Serving

variable {c : HandlerId → Conduct} {late : Prop} {d : DepotId} {start : Desk}
  {calls : List (HandlerId × Message)} {s : Machine σ} {notes : List Note} {i : Nat}

theorem request?_of_served (hv : Serving c late d start calls s notes) (h : Served d notes i) :
    (request? c calls i).isSome := by
  obtain ⟨⟨j, r⟩, hr, rfl⟩ := List.mem_map.1 h
  obtain ⟨hcall, hkey⟩ := hv.asked j r hr
  simp [request?, hcall, hkey]

/-- The additions are the requests of the calls, in any order that has the additions in theirs. -/
theorem requests_eq (hv : Serving c late d start calls s notes) {order : List Nat}
    (hnodup : order.Nodup) (hsub : (adders d notes).Sublist order)
    (hserved : ∀ i ∈ order, (request? c calls i).isSome → Served d notes i) :
    requests d notes = order.filterMap fun i => (request? c calls i).map (i, ·) := by
  refine eq_filterMap_of_sublist hnodup hsub (fun i r hr => ?_) hserved
  obtain ⟨hcall, hkey⟩ := hv.asked i r hr
  simp [request?, hcall, hkey]

theorem served_of_answered {result : Except HandlerError Handled}
    (h : Answered c d start notes i result) : Served d notes i :=
  (List.of_mem_zip h).1

theorem answered_unique (hv : Serving c late d start calls s notes)
    {a b : Except HandlerError Handled} (ha : Answered c d start notes i a)
    (hb : Answered c d start notes i b) : a = b := by
  obtain ⟨j, hj⟩ := List.getElem?_of_mem ha
  obtain ⟨k, hk⟩ := List.getElem?_of_mem hb
  obtain ⟨hij, haj⟩ := List.getElem?_zip_eq_some.1 hj
  obtain ⟨hik, hbk⟩ := List.getElem?_zip_eq_some.1 hk
  have hlt : j < (adders d notes).length := (List.getElem?_eq_some_iff.1 hij).1
  obtain rfl : j = k := (List.getElem?_inj hlt hv.once).1 (hij.trans hik.symm)
  exact Option.some.inj (haj.symm.trans hbk)

/-- When all calls are over, store and books are even with the desk. -/
theorem even (hv : Serving c late d start calls s notes)
    (hover : ∀ t ∈ s.threads, t.isOver = true) (key : Key) :
    s.hub.stored d key = (deskAfter c d start notes).cell key
      ∧ completions key notes = (deskAfter c d start notes).done key := by
  refine hv.balanced.settled key fun p x hp => ?_
  rw [dues, Machine.frameAt_of_over hover] at hp
  cases hp

/-- When all calls are over, one that did not time out has the answer of the desk or no key. -/
theorem outcome (hv : Serving c late d start calls s notes)
    (hover : ∀ t ∈ s.threads, t.isOver = true) (hi : i < calls.length)
    (htime : late → ¬s.TimedOut i) :
    ∃ h m result, calls[i]? = some (h, m) ∧ s.reply? i = some (.handled (.returned result))
      ∧ (Answered c d start notes i result
        ∨ (c h).key m = none ∧ result = .error (.correlation m.id)) := by
  obtain ⟨t, ht⟩ : ∃ t, s.threads[i]? = some t :=
    ⟨_, List.getElem?_eq_getElem (hv.length.symm ▸ hi)⟩
  obtain ⟨h, m, handler, hcall, -, ⟨p, rfl, -⟩ | ⟨result, rfl, hconcluded⟩⟩ := hv.stands i t ht
  · have hnot := hover _ (List.mem_of_getElem? ht)
    cases hnot
  · have hreply : s.reply? i = some (.handled (.returned result)) := by
      simp [Machine.reply?, ht]
    refine ⟨h, m, result, hcall, hreply, ?_⟩
    rcases hconcluded with hanswer | ⟨-, hkeyless | ⟨hlate, key, -, rfl⟩⟩
    · exact .inl hanswer
    · exact .inr hkeyless
    · exact absurd ⟨_, _, hreply⟩ (htime hlate)

/-- When all calls are over, one that has a key and did not time out was served. -/
theorem served_of_request? (hv : Serving c late d start calls s notes)
    (hover : ∀ t ∈ s.threads, t.isOver = true) (hi : i < calls.length)
    (htime : late → ¬s.TimedOut i) (hr : (request? c calls i).isSome) : Served d notes i := by
  obtain ⟨h, m, result, hcall, -, hanswer | ⟨hkey, -⟩⟩ := hv.outcome hover hi htime
  · exact served_of_answered hanswer
  · simp [request?, hcall, hkey] at hr

theorem not_timedOut_of_served (hv : Serving c late d start calls s notes)
    (hstart : start.answers = []) (hover : ∀ t ∈ s.threads, t.isOver = true)
    (h : Served d notes i) : i < calls.length ∧ ¬s.TimedOut i := by
  obtain ⟨⟨j, r⟩, hr, rfl⟩ := List.mem_map.1 h
  have hlt := (List.getElem?_eq_some_iff.1 (hv.asked j r hr).1).1
  refine ⟨hlt, ?_⟩
  rintro ⟨key, ms, hreply⟩
  obtain ⟨t, ht⟩ : ∃ t, s.threads[j]? = some t :=
    ⟨_, List.getElem?_eq_getElem (hv.length.symm ▸ hlt)⟩
  obtain ⟨h', m, handler, -, -, ⟨p, rfl, -⟩ | ⟨result, rfl, hanswer | ⟨hnot, -⟩⟩⟩ :=
    hv.stands j t ht
  · have hnot := hover _ (List.mem_of_getElem? ht)
    cases hnot
  · have hsame : result = .error (.lockTimeout key ms) := by
      simpa [Machine.reply?, ht] using hreply
    exact Desk.answer_ne hstart _ (List.of_mem_zip hanswer).2 key ms hsame
  · exact hnot h

end Serving

/-! ## Two runs and one desk -/

theorem getElem?_callsIn {events : List (Event σ)} {order : List Nat}
    (h : ∀ i ∈ order, i < (callsOf events).length) (j : Nat) :
    (callsIn events order)[j]? = (order[j]?).bind fun i => (callsOf events)[i]? := by
  induction order generalizing j with
  | nil => rfl
  | cons i order ih =>
    have hi := List.getElem?_eq_getElem (h i List.mem_cons_self)
    rw [callsIn, List.filterMap_cons, hi]
    rcases j with _ | j
    · simp [hi]
    · exact ih (fun k hk => h k (List.mem_cons_of_mem i hk)) j

theorem length_callsIn {events : List (Event σ)} {order : List Nat}
    (h : ∀ i ∈ order, i < (callsOf events).length) :
    (callsIn events order).length = order.length := by
  induction order with
  | nil => rfl
  | cons i order ih =>
    have hi := List.getElem?_eq_getElem (h i List.mem_cons_self)
    rw [callsIn, List.filterMap_cons, hi, List.length_cons, List.length_cons]
    exact congrArg Nat.succ (ih fun k hk => h k (List.mem_cons_of_mem i hk))

section Compare

variable {c : HandlerId → Conduct} {d : DepotId} {start : Desk} {s s' : Machine σ}
  {events : List (Event σ)} {notes notes' : List Note} {order : List Nat}

/-- The serial run has the additions of the other one, by the threads of its own. -/
theorem requests_serial (hv : Serving c True d start (callsOf events) s notes)
    (hover : ∀ t ∈ s.threads, t.isOver = true)
    (hr : Rest c d start (callsIn events order) s' notes')
    (hnodup : order.Nodup) (hmem : ∀ i ∈ order, i < (callsOf events).length ∧ ¬s.TimedOut i)
    (hsub : (adders d notes).Sublist order) :
    requests d notes = (requests d notes').map (Prod.map (order.getD · 0) id) := by
  have hbound : ∀ i ∈ order, i < (callsOf events).length := fun i hi => (hmem i hi).1
  have hlength := length_callsIn hbound
  have hserved : ∀ i ∈ order, (request? c (callsOf events) i).isSome → Served d notes i :=
    fun i hi hsome => hv.served_of_request? hover (hbound i hi) (fun _ => (hmem i hi).2) hsome
  have hserved' : ∀ j ∈ List.range (callsIn events order).length,
      (request? c (callsIn events order) j).isSome → Served d notes' j :=
    fun j hj hsome => hr.served_of_request? hr.ended (List.mem_range.1 hj) False.elim hsome
  have horder : order = (List.range order.length).map (order.getD · 0) := by
    refine List.ext_getElem (by simp) fun j hj _ => ?_
    simp [List.getD_eq_getElem?_getD, List.getElem?_eq_getElem hj]
  have hsame : ∀ j ∈ List.range order.length,
      request? c (callsOf events) (order.getD j 0) = request? c (callsIn events order) j := by
    intro j hj
    have hlt := List.mem_range.1 hj
    rw [request?, request?, getElem?_callsIn hbound, List.getElem?_eq_getElem hlt, Option.bind_some,
      List.getD_eq_getElem?_getD, List.getElem?_eq_getElem hlt, Option.getD_some]
  rw [hv.requests_eq hnodup hsub hserved,
    hr.requests_eq List.nodup_range hr.inOrder hserved', hlength, List.map_filterMap]
  conv_lhs => rw [horder, List.filterMap_map]
  refine List.filterMap_congr fun j hj => ?_
  rw [Function.comp_apply, hsame j hj]
  rcases request? c (callsIn events order) j with _ | r <;> rfl

theorem results_serial (hv : Serving c True d start (callsOf events) s notes)
    (hover : ∀ t ∈ s.threads, t.isOver = true)
    (hr : Rest c d start (callsIn events order) s' notes')
    (hmem : ∀ i ∈ order, i < (callsOf events).length ∧ ¬s.TimedOut i)
    (hsame : requests d notes = (requests d notes').map (Prod.map (order.getD · 0) id))
    {i j : Nat} (hj : order[j]? = some i) :
    ∃ result, s.reply? i = some (.handled (.returned result))
      ∧ s'.reply? j = some (.handled (.returned result)) := by
  have hbound : ∀ i ∈ order, i < (callsOf events).length := fun i hi => (hmem i hi).1
  have hi := hmem i (List.mem_of_getElem? hj)
  have hlt : j < (callsIn events order).length :=
    length_callsIn hbound ▸ (List.getElem?_eq_some_iff.1 hj).1
  have hanswered : ∀ result, Answered c d start notes' j result →
      Answered c d start notes i result := by
    intro result h
    have hdesk : deskAfter c d start notes = deskAfter c d start notes' := by
      rw [deskAfter, deskAfter, hsame, List.map_map]
      rfl
    have hadders : adders d notes = (adders d notes').map (order.getD · 0) := by
      rw [adders, adders, hsame, List.map_map, List.map_map]
      rfl
    have hname : order.getD j 0 = i := by
      rw [List.getD_eq_getElem?_getD, hj, Option.getD_some]
    rw [Answered, Desk.answersTo, hdesk, hadders, List.zip_map_left, List.mem_map]
    exact ⟨(j, result), h, by rw [Prod.map_apply, hname, id]⟩
  obtain ⟨h, m, result, hcall, hreply, hresult⟩ := hv.outcome hover hi.1 fun _ => hi.2
  obtain ⟨h', m', result', hcall', hreply', hresult'⟩ := hr.outcome hr.ended hlt False.elim
  have hcalls : (callsIn events order)[j]? = (callsOf events)[i]? := by
    rw [getElem?_callsIn hbound, hj, Option.bind_some]
  rw [hcalls, hcall, Option.some.injEq, Prod.mk.injEq] at hcall'
  obtain ⟨rfl, rfl⟩ := hcall'
  have hkey : ∀ x, Answered c d start notes i x → (c h).key m ≠ none := by
    intro x hx hnone
    have hsome := hv.request?_of_served (Serving.served_of_answered hx)
    simp [request?, hcall, hnone] at hsome
  have hagree : result = result' := by
    rcases hresult with hx | ⟨hnone, rfl⟩ <;> rcases hresult' with hy | ⟨hnone', rfl⟩
    · exact hv.answered_unique hx (hanswered _ hy)
    · exact absurd hnone' (hkey _ hx)
    · exact absurd hnone (hkey _ (hanswered _ hy))
    · rfl
  exact ⟨result, hreply, hagree ▸ hreply'⟩

end Compare

/-- Tidy shelves that store the same members store the same groups, up to their times. -/
theorem Shelf.Tidy.map_messages_eq {s s' : Shelf} (h : s.Tidy) (h' : s'.Tidy) {key : Key}
    (heq : (s.group? key).elim [] Group.messages = (s'.group? key).elim [] Group.messages) :
    (s.group? key).map Group.messages = (s'.group? key).map Group.messages := by
  rcases hg : s.group? key with _ | g <;> rcases hg' : s'.group? key with _ | g' <;>
    simp only [hg, hg', Option.elim_none, Option.elim_some] at heq
  · rfl
  · exact absurd heq.symm (h' key g' hg').2
  · exact absurd heq (h key g hg).2
  · rw [Option.map_some, Option.map_some, heq]

/-- A machine that forgets the calls that are over. -/
def Machine.cleared (s : Machine σ) : Machine σ := { s with threads := [] }

theorem Serving.begin {s : Machine σ} (ho : s.Orderly) {d : DepotId}
    (hsound : Sound (s.hub.depot d).shelf (grips s.hub s.frameAt d))
    (hover : ∀ t ∈ s.threads, t.isOver = true)
    (hunbounded : (s.hub.depot d).store.capacity = none) (c : HandlerId → Conduct) (late : Prop) :
    Serving c late d ⟨s.hub.stored d, fun _ => [], []⟩ [] s.cleared [] := by
  have hat : s.cleared.frameAt = s.frameAt := by
    funext p
    rw [Machine.frameAt_of_over hover]
    simp [Machine.cleared, Machine.frameAt]
  refine ⟨⟨⟨ho.hub, hat ▸ ho.frames⟩, hat ▸ hsound, hunbounded, fun h m hmem => ?_⟩, rfl,
    fun i r hr => ?_, List.nodup_nil, fun i t ht => ?_, ⟨fun p q key x y hp => ?_, fun key _ => ?_,
      fun p key left todo hp => ?_⟩⟩
  · cases hmem
  · cases hr
  · simp [Machine.cleared] at ht
  · simp [dues, Machine.cleared, Machine.frameAt] at hp
  · exact ⟨rfl, rfl⟩
  · simp [dues, Machine.cleared, Machine.frameAt] at hp

namespace Machine

/-- Calls that are handled in any interleaving, in a store without a bound and by handlers that
answer by their tables, come to the same as the calls that did not time out, handled one at a time
in the order of their additions. -/
theorem serializable (outside : σ) (idOf : Nat → MessageId) (moves : List (Move σ))
    (hl : (initial outside idOf).Lawful moves)
    (hrest : ∀ t ∈ ((initial outside idOf).after moves).threads, t.isOver = true)
    (d : DepotId)
    (hunbounded : (((initial outside idOf).after moves).hub.depot d).store.capacity = none)
    (c : HandlerId → Conduct) (events : List (Event σ))
    (hevents : ∀ e ∈ events, e.Handles ((initial outside idOf).after moves).hub c d)
    (hover : ∀ t ∈ (((initial outside idOf).after moves).cleared.run events).threads,
      t.isOver = true) :
    let s := ((initial outside idOf).after moves).cleared
    (∃ order, s.InOrder d events order)
      ∧ ∀ order, s.InOrder d events order →
        (∃ serial, OneByOne s (callsIn events order) serial)
          ∧ ∀ serial, OneByOne s (callsIn events order) serial →
            s.Agrees d order events serial := by
  intro s
  have ho : (initial outside idOf).Orderly := orderly_initial outside idOf
  have hsound := sound_after ho d (sound_initial outside idOf d) moves hl
  have hbegin := Serving.begin (orderly_after ho moves hl) hsound hrest hunbounded c
  generalize ((initial outside idOf).after moves).hub.stored d = stored at hbegin
  have hv : Serving c True d ⟨stored, fun _ => [], []⟩ (callsOf events) (s.run events)
      (s.history (events.map .event)) := by
    simpa using (Serving.run rfl trivial events (hbegin True) hevents)
  have hnotTimedOut : ∀ i ∈ adders d (s.history (events.map .event)),
      i < (callsOf events).length ∧ ¬(s.run events).TimedOut i :=
    fun i hi => hv.not_timedOut_of_served rfl hover hi
  refine ⟨?_, fun order horder => ?_⟩
  · -- those that added nothing may come last
    classical
    refine ⟨adders d (s.history (events.map .event)) ++ (List.range (callsOf events).length).filter
      fun i => i ∉ adders d (s.history (events.map .event)) ∧ ¬(s.run events).TimedOut i,
      ?_, ?_, ?_⟩
    · refine List.nodup_append.2 ⟨hv.once, List.nodup_range.filter _, fun i hi j hj heq => ?_⟩
      simp only [List.mem_filter, decide_eq_true_eq] at hj
      exact hj.2.1 (heq ▸ hi)
    · intro i
      simp only [List.mem_append, List.mem_filter, List.mem_range, decide_eq_true_eq]
      constructor
      · rintro (hi | ⟨hlt, -, htime⟩)
        · exact hnotTimedOut i hi
        · exact ⟨hlt, htime⟩
      · rintro ⟨hlt, htime⟩
        by_cases hi : i ∈ adders d (s.history (events.map .event))
        · exact .inl hi
        · exact .inr ⟨hlt, hi, htime⟩
    · exact List.sublist_append_left _ _
  have hmem := fun i hi => (horder.mem i).1 hi
  have hstaffed : Staffed s.hub c d (callsIn events order) := by
    intro h m hcall
    obtain ⟨i, -, hi⟩ := List.mem_filterMap.1 hcall
    exact staffed_callsOf hevents h m (List.mem_of_getElem? hi)
  have hbefore : Rest c d ⟨stored, fun _ => [], []⟩ [] s [] := by
    refine ⟨hbegin False, fun t ht => ?_, List.Sublist.refl _⟩
    simp [s, cleared] at ht
  refine ⟨hbefore.exists_oneByOne rfl _ hstaffed, fun serial hserial => ?_⟩
  have hr : Rest c d ⟨stored, fun _ => [], []⟩ (callsIn events order) (s.run serial)
      (s.history (serial.map .event)) := by
    simpa using hbefore.oneByOne rfl hserial hstaffed
  have hsame := requests_serial hv hover hr horder.nodup hmem horder.added
  have hdesk : deskAfter c d ⟨stored, fun _ => [], []⟩ (s.history (events.map .event))
      = deskAfter c d ⟨stored, fun _ => [], []⟩ (s.history (serial.map .event)) := by
    rw [deskAfter, deskAfter, hsame, List.map_map]
    rfl
  have heven := hv.even hover
  have heven' := hr.even hr.ended
  have hgroups : ∀ key,
      (((s.run events).hub.depot d).shelf.group? key).map Group.messages
        = (((s.run serial).hub.depot d).shelf.group? key).map Group.messages :=
    fun key => hv.sound.tidy.map_messages_eq hr.sound.tidy
      ((heven key).1.trans (by rw [hdesk, ← (heven' key).1]; rfl))
  refine ⟨fun j i hj => results_serial hv hover hr hmem hsame hj, fun key => ?_, hgroups, ?_⟩
  · rw [(heven key).2, (heven' key).2, hdesk]
  · have hfree : ∀ p, grips (s.run events).hub (s.run events).frameAt d p = none := fun p => by
      rw [grips, frameAt_of_over hover, Option.bind_none]
    have hfree' : ∀ p, grips (s.run serial).hub (s.run serial).frameAt d p = none := fun p => by
      rw [grips, frameAt_of_over hr.ended, Option.bind_none]
    refine Dictionary.names_eq fun name => ?_
    have hsome := congrArg Option.isSome (hgroups ⟨name⟩)
    rw [Option.isSome_map, Option.isSome_map] at hsome
    exact (hv.sound.same_keys hfree ⟨name⟩).trans
      (hsome.trans (hr.sound.same_keys hfree' ⟨name⟩).symm)

end Machine

/-! ## A pair and a wait in vain -/

/-- A pairing handler with an output, whose calls wait for a key for a millisecond. -/
def impatient : Handler Unit :=
  { pairing with output := some ⟨fun _ => .done (.ok ())⟩, settings := ⟨some 1, .discard⟩ }

def pairConduct : Conduct where
  key _ := some ⟨"pair"⟩
  complete _ members := 2 ≤ members.length
  hasOutput := true
  result _ _ := .ok ()

theorem follows_impatient : impatient.Follows pairConduct :=
  ⟨fun _ => rfl, fun _ => rfl, rfl, fun _ => .done⟩

def impatientSetting : List (Move Unit) := [.openDepot none, .event (.build impatient)]

/-- The second message waits in vain while the first one is added, and the third makes a pair. -/
def impatientTurns : List (Event Unit) :=
  [.start (.handle 0 (plain "first")), .start (.handle 0 (plain "second"))]
    ++ [0, 0, 1].map Event.step ++ [.elapse 1000000] ++ [1, 1, 0, 0, 0, 0].map Event.step
    ++ [.start (.handle 0 (plain "third"))] ++ (List.replicate 9 2).map Event.step

theorem lawful_impatientSetting :
    (Machine.initial () fun _ => ⟨""⟩).Lawful impatientSetting := by
  refine ⟨trivial, ⟨⟨fun g => .done _, fun c hc => ?_⟩, Nat.zero_lt_one⟩, trivial⟩
  cases hc

def impatientMachine : Machine Unit :=
  ((Machine.initial () fun _ => ⟨""⟩).after impatientSetting).cleared

theorem inOrder_impatientTurns : impatientMachine.InOrder 0 impatientTurns [0, 2] where
  nodup := by decide
  mem i := by
    have htime : ∀ key ms, (impatientMachine.run impatientTurns).reply? 0
        ≠ some (.handled (.returned (.error (.lockTimeout key ms)))) := by
      intro key ms h
      rw [show (impatientMachine.run impatientTurns).reply? 0
        = some (.handled (.returned (.ok (.pending ⟨"pair"⟩ 1)))) from rfl] at h
      cases h
    have htime' : ∀ key ms, (impatientMachine.run impatientTurns).reply? 2
        ≠ some (.handled (.returned (.error (.lockTimeout key ms)))) := by
      intro key ms h
      rw [show (impatientMachine.run impatientTurns).reply? 2
        = some (.handled (.returned (.ok (.released ⟨"pair"⟩ 2)))) from rfl] at h
      cases h
    have hlate : (impatientMachine.run impatientTurns).TimedOut 1 := ⟨⟨"pair"⟩, 1, rfl⟩
    have hlength : (callsOf impatientTurns).length = 3 := rfl
    simp only [hlength, List.mem_cons, List.not_mem_nil, or_false]
    constructor
    · rintro (rfl | rfl)
      · exact ⟨by omega, fun ⟨key, ms, h⟩ => htime key ms h⟩
      · exact ⟨by omega, fun ⟨key, ms, h⟩ => htime' key ms h⟩
    · rintro ⟨hlt, hnot⟩
      have hne : i ≠ 1 := fun h => hnot (h ▸ hlate)
      omega
  added := by decide

/-- The first and the third message make the pair when they are handled one after the other, too. -/
theorem impatient_serializable :
    impatientMachine.InOrder 0 impatientTurns [0, 2]
      ∧ ∀ serial, OneByOne impatientMachine [(0, plain "first"), (0, plain "third")] serial →
        completions ⟨"pair"⟩ (impatientMachine.history (serial.map .event))
          = [(0, [plain "first", plain "third"])] := by
  refine ⟨inOrder_impatientTurns, fun serial hserial => ?_⟩
  have hevents : ∀ e ∈ impatientTurns, e.Handles
      ((Machine.initial () fun _ => ⟨""⟩).after impatientSetting).hub (fun _ => pairConduct) 0 := by
    intro e he
    simp only [impatientTurns, List.mem_append, List.mem_cons, List.not_mem_nil, or_false,
      List.mem_map] at he
    rcases he with (((((rfl | rfl) | ⟨i, -, rfl⟩) | rfl) | ⟨i, -, rfl⟩) | rfl) | ⟨i, -, rfl⟩
    · exact ⟨impatient, rfl, rfl, follows_impatient⟩
    · exact ⟨impatient, rfl, rfl, follows_impatient⟩
    · trivial
    · trivial
    · trivial
    · exact ⟨impatient, rfl, rfl, follows_impatient⟩
    · trivial
  have hagrees := (Machine.serializable () (fun _ => ⟨""⟩) impatientSetting
    lawful_impatientSetting (by decide) 0 rfl (fun _ => pairConduct) impatientTurns hevents
    (by decide)).2 [0, 2] inOrder_impatientTurns
  exact ((hagrees.2 serial hserial).processed ⟨"pair"⟩).symm

end Collate
