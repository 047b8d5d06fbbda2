import Collate.Proofs.Serving
import Collate.Proofs.Steady

/-!
# Calls and the desk, event by event

Every way on from a phase of a handling keeps the calls served: the addition is where the desk
serves the message, and from there on the store and the books catch up with the desk
(`Serving.goes`). So the calls are served after any events that only handle messages
(`Serving.run`).
-/

namespace Collate

variable {σ : Type}

section Yields

variable {α : Type} {r r' : α} {hub hub' : Hub σ} {work work' : Script σ α}

theorem Script.Yields.goes (h : work.Yields r) (hs : work.step hub = .goes hub' work') :
    work'.Yields r := by
  cases h with
  | done => cases hs
  | act hn =>
    cases hs
    exact hn _
  | log hn =>
    cases hs
    exact hn
  | fresh hn =>
    cases hs
    exact hn _

theorem Script.Yields.gives (h : work.Yields r) (hs : work.step hub = .gives r') : r' = r := by
  cases h <;> cases hs
  rfl

theorem Script.Yields.not_calls (h : work.Yields r) {inner : Frame σ} :
    work.step hub ≠ .calls inner := by
  intro hs
  cases h <;> cases hs

theorem Script.Yields.not_panics (h : work.Yields r) : work.step hub ≠ .panics := by
  intro hs
  cases h <;> cases hs

end Yields

theorem Machine.apply_goes {s : Machine σ} {i : Nat} {f f' : Frame σ} {hub' : Hub σ}
    {reply : Option Reply} (ht : s.threads[i]? = some ⟨[f], reply⟩)
    (hs : f.step s.hub = .goes hub' f') :
    s.apply (.step i) = ⟨hub', s.threads.set i ⟨[f'], reply⟩⟩
      ∧ s.notes (.event (.step i)) = ((f.doing s.hub none f').map (Note.did ⟨i, 0⟩)).toList := by
  simp only [apply, progress, notes, ht, Thread.step, hs, Option.elim_some, stackNotes,
    List.head?_nil, List.length_nil, and_self]

theorem Machine.apply_ends {s : Machine σ} {i : Nat} {f : Frame σ} {hub' : Hub σ}
    {reply : Option Reply} {r : Reply} (ht : s.threads[i]? = some ⟨[f], reply⟩)
    (hs : f.step s.hub = .ends hub' r) :
    s.apply (.step i) = ⟨hub', s.threads.set i ⟨[], some r⟩⟩
      ∧ s.notes (.event (.step i)) = [] := by
  simp only [apply, progress, notes, ht, Thread.step, hs, Option.elim_some, stackNotes, and_self]

/-- The step of a thread whose only call waits, or of one that is over or not there. -/
theorem Machine.apply_idle {s : Machine σ} {i : Nat}
    (h : ∀ t, s.threads[i]? = some t → t.stack = []
      ∨ ∃ f deadline, t.stack = [f] ∧ f.step s.hub = .waits deadline) :
    s.apply (.step i) = s ∧ s.notes (.event (.step i)) = [] := by
  rcases ht : s.threads[i]? with _ | ⟨stack, reply⟩
  · simp only [apply, progress, notes, ht, Option.elim_none, and_self]
  · obtain rfl | ⟨f, deadline, rfl, hs⟩ := h _ ht
    · simp only [apply, progress, notes, ht, Thread.step, Option.elim_some, stackNotes, and_self]
    · simp only [apply, progress, notes, ht, Thread.step, hs, Option.elim_some, stackNotes,
        and_self]

theorem dues_goes {s : Machine σ} {i : Nat} {f f' : Frame σ} {reply reply' : Option Reply}
    (c : HandlerId → Conduct) (hub' : Hub σ) (ht : s.threads[i]? = some ⟨[f], reply⟩) :
    dues c (⟨hub', s.threads.set i ⟨[f'], reply'⟩⟩ : Machine σ).frameAt
      = Function.update (dues c s.frameAt) ⟨i, 0⟩ (f'.due c) := by
  funext q
  rw [dues, Machine.frameAt_set_top hub' ht rfl rfl, List.length_nil, Function.update_apply,
    Function.update_apply]
  split_ifs
  · rfl
  · rfl

theorem dues_ends {s : Machine σ} {i : Nat} {f : Frame σ} {reply reply' : Option Reply}
    (c : HandlerId → Conduct) (hub' : Hub σ) (ht : s.threads[i]? = some ⟨[f], reply⟩) :
    dues c (⟨hub', s.threads.set i ⟨[], reply'⟩⟩ : Machine σ).frameAt
      = Function.update (dues c s.frameAt) ⟨i, 0⟩ none := by
  funext q
  rw [dues, Machine.frameAt_set_pop hub' ht rfl rfl, List.length_nil, Function.update_apply,
    Function.update_apply]
  split_ifs
  · rfl
  · rfl

theorem dues_top {s : Machine σ} {i : Nat} {f : Frame σ} {reply : Option Reply}
    (c : HandlerId → Conduct) (ht : s.threads[i]? = some ⟨[f], reply⟩) :
    dues c s.frameAt ⟨i, 0⟩ = f.due c := by
  have hat : s.frameAt ⟨i, 0⟩ = some f := Machine.frameAt_top ht rfl
  rw [dues, hat, Option.bind_some]

theorem Running.step {c : HandlerId → Conduct} {d : DepotId} {calls : List (HandlerId × Message)}
    {s : Machine σ} (hr : Running c d calls s) (i : Nat)
    (hcapacity : ((s.apply (.step i)).hub.depot d).store.capacity = none) :
    Running c d calls (s.apply (.step i)) := by
  have hlawful : (Move.event (.step i) : Move σ).Lawful s.hub := trivial
  refine ⟨Machine.orderly_move hr.orderly hlawful,
    (s.advance_step i).sound hr.orderly.hub hr.orderly.frames d hr.sound, hcapacity, ?_⟩
  intro h m hmem
  obtain ⟨handler, hh, hrest⟩ := hr.staffed h m hmem
  exact ⟨handler, by rw [(Machine.keeps_step hr.orderly i).handlers, hh], hrest⟩

namespace Serving

variable {c : HandlerId → Conduct} {late : Prop} {d : DepotId} {start : Desk}
  {calls : List (HandlerId × Message)} {s : Machine σ} {notes : List Note} {hub' : Hub σ}
  {i : Nat} {h : HandlerId} {m : Message} {handler : Handler σ} {p p' : Handling σ}

/-- A call that owes something under a key holds the key. -/
theorem grip_of_due (hv : Serving c late d start calls s notes) {q : Place} {key : Key}
    {x : List Message × List (HandlerId × List Message)}
    (hq : dues c s.frameAt q = some (key, x)) :
    ∃ y, grips s.hub s.frameAt d q = some (key, y) := by
  obtain ⟨f, hf, hdue⟩ := Option.bind_eq_some_iff.1 hq
  obtain ⟨t, ht, hstack⟩ := Option.bind_eq_some_iff.1 hf
  obtain ⟨h, m, handler, hcall, -, hstand⟩ := hv.stands q.thread t ht
  obtain ⟨handler, hh, hd, -⟩ := hv.staffed h m (List.mem_of_getElem? hcall)
  rcases hstand with ⟨p, rfl, -⟩ | ⟨result, rfl, -⟩
  · rcases hn : q.depth with _ | n
    · simp only [hn, List.reverse_singleton, List.getElem?_cons_zero, Option.some.injEq] at hstack
      subst hstack
      simp only [grips, hf, Option.bind_some, Frame.grip_handling, Hub.home?_of_handler? hh, hd,
        if_true]
      cases p <;> simp_all [Frame.due, Handling.due, Handling.grip, Handling.holds]
    · simp [hn] at hstack
  · simp at hstack

theorem quiet (hv : Serving c late d start calls s notes)
    (hrun : Running c d calls ⟨hub', s.threads.set i ⟨[.handling h p'], none⟩⟩)
    (ht : s.threads[i]? = some ⟨[.handling h p], none⟩)
    (hcall : calls[i]? = some (h, m)) (hh : s.hub.handler? h = some handler)
    (hhandlers : ∀ h, hub'.handler? h = s.hub.handler? h) {x : Option Doing}
    (hrequest : ∀ y, x = some y → (Note.did ⟨i, 0⟩ y).request? d = none)
    (hcompletion : ∀ y key, x = some y → (Note.did ⟨i, 0⟩ y).completion? key = none)
    (hgroup : (hub'.depot d).shelf.group? = (s.hub.depot d).shelf.group?)
    (hdue : p'.due (c h) h = p.due (c h) h)
    (hstands : p'.Stands (c h) late handler m (Answered c d start notes i) (Served d notes i)) :
    Serving c late d start calls ⟨hub', s.threads.set i ⟨[.handling h p'], none⟩⟩
      (notes ++ (x.map (Note.did ⟨i, 0⟩)).toList) := by
  have hstored : hub'.stored d = s.hub.stored d := by
    funext key
    rw [Hub.stored, Hub.stored, hgroup]
  have hdone : (completions · (notes ++ (x.map (Note.did ⟨i, 0⟩)).toList))
      = (completions · notes) := by
    funext key
    rw [completions_append]
    rcases x with _ | y
    · exact List.append_nil _
    · simp [completions, hcompletion y key rfl]
  refine hv.still hrun ?_ hhandlers ⟨h, m, handler, hcall, hh, .inl ⟨p', rfl, hstands⟩⟩ ?_
  · rcases x with _ | y
    · rfl
    · simp [requests, hrequest y rfl]
  · have hsame : (Frame.handling h p').due c = dues c s.frameAt ⟨i, 0⟩ := by
      rw [dues_top c ht]
      exact hdue
    rw [dues_goes c hub' ht, hstored, hdone, hsame, Function.update_eq_self]
    exact hv.balanced

theorem silent (hv : Serving c late d start calls s notes)
    (hrun : Running c d calls ⟨hub', s.threads.set i ⟨[.handling h p'], none⟩⟩)
    (ht : s.threads[i]? = some ⟨[.handling h p], none⟩)
    (hcall : calls[i]? = some (h, m)) (hh : s.hub.handler? h = some handler)
    (hhandlers : ∀ h, hub'.handler? h = s.hub.handler? h)
    (hgroup : (hub'.depot d).shelf.group? = (s.hub.depot d).shelf.group?)
    (hdue : p'.due (c h) h = p.due (c h) h)
    (hstands : p'.Stands (c h) late handler m (Answered c d start notes i) (Served d notes i)) :
    Serving c late d start calls ⟨hub', s.threads.set i ⟨[.handling h p'], none⟩⟩ (notes ++ []) :=
  hv.quiet hrun ht hcall hh hhandlers (x := none) (by simp) (by simp) hgroup hdue hstands

/-- What a call that is past its addition knows of the group of its key. -/
theorem seen (hv : Serving c late d start calls s notes)
    (ht : s.threads[i]? = some ⟨[.handling h p], none⟩) (hcall : calls[i]? = some (h, m))
    (key : Key) (g : Group) (hgrip : p.grip = some (key, .seen g)) :
    (s.hub.depot d).shelf.group? key = some g ∧ g.key = key := by
  obtain ⟨handler, hh, hd, -⟩ := hv.staffed h m (List.mem_of_getElem? hcall)
  have hat : s.frameAt ⟨i, 0⟩ = some (.handling h p) := Machine.frameAt_top ht rfl
  have hhold : grips s.hub s.frameAt d ⟨i, 0⟩ = some (key, .seen g) := by
    simp [grips, hat, Frame.grip_handling, Hub.home?_of_handler? hh, hd, hgrip]
  have hstored := hv.sound.fits _ key _ hhold
  exact ⟨hstored, (hv.sound.tidy key g hstored).1⟩

/-- Nobody owes anything under a key that a call has just taken. -/
theorem free_of_grip (hv : Serving c late d start calls s notes)
    (ht : s.threads[i]? = some ⟨[.handling h p], none⟩) (hcall : calls[i]? = some (h, m))
    {key : Key} (hgrip : p.grip = some (key, .blank)) (hdue : p.due (c h) h = none) (q : Place)
    (x : List Message × List (HandlerId × List Message)) : dues c s.frameAt q ≠ some (key, x) := by
  intro hq
  obtain ⟨handler, hh, hd, -⟩ := hv.staffed h m (List.mem_of_getElem? hcall)
  have hat : s.frameAt ⟨i, 0⟩ = some (.handling h p) := Machine.frameAt_top ht rfl
  have hhold : grips s.hub s.frameAt d ⟨i, 0⟩ = some (key, .blank) := by
    simp [grips, hat, Frame.grip_handling, Hub.home?_of_handler? hh, hd, hgrip]
  obtain ⟨y, hy⟩ := hv.grip_of_due hq
  rw [hv.sound.apart q ⟨i, 0⟩ key y .blank hy hhold, dues_top c ht, Frame.due, hdue] at hq
  cases hq

theorem added (hv : Serving c late d start calls s notes) (hstart : start.answers = [])
    {key : Key} {depot : Depot} {g : Group}
    (hrun : Running c d calls
      ⟨s.hub.setDepot d depot, s.threads.set i ⟨[.handling h (.deciding key g)], none⟩⟩)
    (ht : s.threads[i]? = some ⟨[.handling h (.adding key m)], none⟩)
    (hcall : calls[i]? = some (h, m)) (hh : s.hub.handler? h = some handler)
    (hd : handler.depot = d) (hkey : (c h).key m = some key) (hnot : ¬Served d notes i)
    (ha : (s.hub.depot d).add key m s.hub.clock = .ok (depot, g)) :
    Serving c late d start calls
      ⟨s.hub.setDepot d depot, s.threads.set i ⟨[.handling h (.deciding key g)], none⟩⟩
      (notes ++ [Note.did ⟨i, 0⟩ (.added h d key m s.hub.clock)]) := by
  have hlt : d < s.hub.depots.length := hd ▸ (hv.orderly.hub.handlers h handler hh).2
  obtain ⟨hg, hshelf⟩ := Depot.shelf_add (hv.orderly.hub.service d) ha
  have hfree := hv.free_of_grip ht hcall rfl rfl
  have hmessages : g.messages = s.hub.stored d key ++ [m] := by
    rw [hg, Group.messages_add, Hub.stored, Shelf.get]
    rcases (s.hub.depot d).shelf.group? key with _ | old <;> rfl
  have hcell : s.hub.stored d key = (deskAfter c d start notes).cell key :=
    (hv.balanced.settled key hfree).1
  have hstored : ∀ k, k ≠ key → (s.hub.setDepot d depot).stored d k = s.hub.stored d k := by
    intro k hne
    rw [Hub.stored, Hub.depot_setDepot_self _ _ hlt, hshelf, Shelf.setGroup_group?, if_neg hne,
      Hub.stored]
  have hdone : (completions · (notes ++ [Note.did ⟨i, 0⟩ (.added h d key m s.hub.clock)]))
      = (completions · notes) := by
    funext k
    rw [completions_append]
    exact List.append_nil _
  have hnone : dues c s.frameAt ⟨i, 0⟩ = none := dues_top c ht
  refine hv.adds (r := ⟨h, key, m⟩) hrun hstart (by simp [requests, Note.request?])
    (fun _ => rfl) hnot hcall hkey ⟨handler, hh, fun answered hanswer => .inl ⟨_, rfl, ?_⟩⟩ ?_
  · simpa only [Handling.Stands, hmessages, hcell] using hanswer
  · rw [dues_goes c _ ht, hdone]
    have hbalanced := hv.balanced.add c ⟨h, key, m⟩ hnone hfree hstored
    simpa only [Frame.due, Handling.due, hmessages] using hbalanced

theorem pending (hv : Serving c late d start calls s notes) {key : Key} {g : Group}
    (hrun : Running c d calls ⟨s.hub, s.threads.set i ⟨[.handling h
      (.releasing key false (.returned (.ok (.pending key g.size))))], none⟩⟩)
    (ht : s.threads[i]? = some ⟨[.handling h (.deciding key g)], none⟩)
    (hcall : calls[i]? = some (h, m)) (hh : s.hub.handler? h = some handler)
    (hincomplete : (c h).complete key g.messages = false)
    (hanswer : Answered c d start notes i ((c h).answer key g.messages)) :
    Serving c late d start calls ⟨s.hub, s.threads.set i ⟨[.handling h
      (.releasing key false (.returned (.ok (.pending key g.size))))], none⟩⟩ (notes ++ []) := by
  obtain ⟨hgroup, -⟩ := hv.seen ht hcall key g rfl
  have hmembers : s.hub.stored d key = g.messages := by
    rw [Hub.stored, hgroup]
    rfl
  have hdue : dues c s.frameAt ⟨i, 0⟩ = some (key, g.messages, []) := by
    rw [dues_top c ht]
    simp [Frame.due, Handling.due, Conduct.left, Conduct.processed, hincomplete]
  have hresult : (c h).answer key g.messages = .ok (.pending key g.size) := by
    simp [Conduct.answer, hincomplete, Group.size]
  refine hv.still hrun rfl (fun _ => rfl)
    ⟨h, m, handler, hcall, hh, .inl ⟨_, rfl, _, rfl, hresult ▸ hanswer⟩⟩ ?_
  rw [dues_goes c _ ht, List.append_nil]
  exact hv.balanced.settle hdue (fun _ _ => rfl) hmembers

theorem complete (hv : Serving c late d start calls s notes) {key : Key} {g : Group}
    (hrun : Running c d calls
      ⟨s.hub, s.threads.set i ⟨[.handling h (.processing key g (handler.process g))], none⟩⟩)
    (ht : s.threads[i]? = some ⟨[.handling h (.deciding key g)], none⟩)
    (hcall : calls[i]? = some (h, m)) (hh : s.hub.handler? h = some handler)
    (hf : handler.Follows (c h)) (hcomplete : (c h).complete key g.messages = true)
    (hanswer : Answered c d start notes i ((c h).answer key g.messages)) :
    Serving c late d start calls
      ⟨s.hub, s.threads.set i ⟨[.handling h (.processing key g (handler.process g))], none⟩⟩
      (notes ++ [Note.did ⟨i, 0⟩ (.completed h g handler.output.isSome)]) := by
  obtain ⟨-, hkey⟩ := hv.seen ht hcall key g rfl
  have hdue : dues c s.frameAt ⟨i, 0⟩
      = some (key, [], if (c h).hasOutput then [(h, g.messages)] else []) := by
    rw [dues_top c ht]
    rcases hout : (c h).hasOutput <;>
      simp [Frame.due, Handling.due, Conduct.left, Conduct.processed, hcomplete, hout]
  have hresult : (c h).answer key g.messages
      = Handling.completed key g.size ((c h).result key g.messages) := by
    simp [Conduct.answer, hcomplete, Group.size]
  have hwork : (handler.process g).Yields ((c h).result key g.messages) := hkey ▸ hf.result g
  refine hv.still hrun rfl (fun _ => rfl)
    ⟨h, m, handler, hcall, hh, .inl ⟨_, rfl, hresult ▸ hanswer, hwork⟩⟩ ?_
  rw [dues_goes c _ ht]
  -- the processor is called if there is an output channel
  have hdone : ∀ k, completions k
        (notes ++ [Note.did ⟨i, 0⟩ (.completed h g handler.output.isSome)])
      = completions k notes ++ if (c h).hasOutput ∧ k = key then [(h, g.messages)] else [] := by
    intro k
    rw [completions_append, hf.output]
    rcases hout : (c h).hasOutput
    · simp [completions, Note.completion?]
    · by_cases hk : k = key
      · simp [completions, Note.completion?, hkey, hk]
      · simp [completions, Note.completion?, hkey, hk, Ne.symm hk]
  rcases hout : (c h).hasOutput with _ | _
  · have hsame : (completions · (notes ++ [Note.did ⟨i, 0⟩ (.completed h g handler.output.isSome)]))
        = (completions · notes) := by
      funext k
      rw [hdone, hout]
      simp
    have hstill : Frame.due c (.handling h (.processing key g (handler.process g)))
        = dues c s.frameAt ⟨i, 0⟩ := by
      rw [hdue, hout]
      rfl
    rw [hsame, hstill, Function.update_eq_self]
    exact hv.balanced
  · rw [hout, if_pos rfl] at hdue
    refine hv.balanced.note hdue (fun k hne => ?_) ?_
    · simp [hdone, hne]
    · simp [hdone, hout]

theorem removed (hv : Serving c late d start calls s notes) {key : Key} {g : Group}
    {result : Except ProcessingError Unit} {depot : Depot} {gone : Option Group}
    (hrun : Running c d calls ⟨s.hub.setDepot d depot, s.threads.set i ⟨[.handling h
      (.releasing key true (.returned (Handling.completed key g.size result)))], none⟩⟩)
    (ht : s.threads[i]? = some ⟨[.handling h (.removing key g result)], none⟩)
    (hcall : calls[i]? = some (h, m)) (hh : s.hub.handler? h = some handler)
    (hd : handler.depot = d) (hr : (s.hub.depot d).remove key = .ok (depot, gone))
    (hanswer : Answered c d start notes i (Handling.completed key g.size result)) :
    Serving c late d start calls ⟨s.hub.setDepot d depot, s.threads.set i ⟨[.handling h
      (.releasing key true (.returned (Handling.completed key g.size result)))], none⟩⟩
      (notes ++ [Note.did ⟨i, 0⟩ (.removed d key gone s.hub.clock .handling)]) := by
  have hlt : d < s.hub.depots.length := hd ▸ (hv.orderly.hub.handlers h handler hh).2
  rw [(hv.orderly.hub.service d).remove] at hr
  cases hr
  have hstored : ∀ k, (s.hub.setDepot d { s.hub.depot d with
        store := ((s.hub.depot d).store.remove key).1 }).stored d k
      = if k = key then [] else s.hub.stored d k := by
    intro k
    rw [Hub.stored, Hub.depot_setDepot_self _ _ hlt, Depot.shelf_remove, Shelf.setGroup_group?]
    split_ifs <;> rfl
  have hdone : (completions · (notes ++
        [.did ⟨i, 0⟩ (.removed d key ((s.hub.depot d).store.find? key) s.hub.clock .handling)]))
      = (completions · notes) := by
    funext k
    rw [completions_append]
    exact List.append_nil _
  have hdue : dues c s.frameAt ⟨i, 0⟩ = some (key, [], []) := dues_top c ht
  refine hv.still hrun rfl (fun _ => rfl)
    ⟨h, m, handler, hcall, hh, .inl ⟨_, rfl, _, rfl, hanswer⟩⟩ ?_
  rw [dues_goes c _ ht, hdone]
  refine hv.balanced.settle hdue (fun k hne => ?_) ?_
  · rw [hstored, if_neg hne]
  · rw [hstored, if_pos rfl]

/-- Whatever way a handling goes on, the calls go on being served. -/
theorem goes (hv : Serving c late d start calls s notes) (hstart : start.answers = [])
    (hrun : Running c d calls ⟨hub', s.threads.set i ⟨[.handling h p'], none⟩⟩)
    (ht : s.threads[i]? = some ⟨[.handling h p], none⟩) (hcall : calls[i]? = some (h, m))
    (hh : s.hub.handler? h = some handler) (hd : handler.depot = d) (hf : handler.Follows (c h))
    (hp : p.Stands (c h) late handler m (Answered c d start notes i) (Served d notes i))
    (hg : Handling.Goes s.hub handler h p hub' p')
    (hlate : ∀ key m deadline, p = .locking key m deadline →
      (s.hub.depot d).locks.acquire? key (some h) = none → late) :
    Serving c late d start calls ⟨hub', s.threads.set i ⟨[.handling h p'], none⟩⟩
      (notes ++ ((p.doing s.hub handler h p').map (Note.did ⟨i, 0⟩)).toList) := by
  have horderly := hv.orderly.frames ⟨i, 0⟩ _ (Machine.frameAt_top ht rfl)
  have hhandlers := (hg.orderly hv.orderly.hub hh horderly).1.handlers
  have hdeal := hg.deal hv.orderly.hub hh horderly
  subst hd
  cases hg with
  | struck hpanic =>
    rw [hf.key] at hpanic
    cases hpanic
  | keyless hnokey =>
    obtain ⟨rfl, hnot⟩ := hp
    rw [hf.key, Attempt.returned.injEq] at hnokey
    exact hv.silent hrun ht hcall hh hhandlers rfl rfl
      ⟨_, rfl, .inr ⟨hnot, .inl ⟨hnokey, rfl⟩⟩⟩
  | @keyed m' key hkey =>
    obtain ⟨rfl, hnot⟩ := hp
    rw [hf.key, Attempt.returned.injEq] at hkey
    exact hv.quiet hrun ht hcall hh hhandlers (x := some (.named h m' key))
      (by rintro y ⟨⟩; rfl) (by rintro y k ⟨⟩; rfl) rfl rfl ⟨rfl, hkey, hnot⟩
  | taken =>
    exact hv.silent hrun ht hcall hh hhandlers hdeal.group?_eq rfl hp
  | @late key m' deadline hlocks =>
    obtain ⟨rfl, hkey, hnot⟩ := hp
    exact hv.silent hrun ht hcall hh hhandlers rfl rfl
      ⟨_, rfl, .inr ⟨hnot, .inr ⟨hlate key m' deadline rfl hlocks, key, hkey, rfl⟩⟩⟩
  | added ha =>
    obtain ⟨rfl, hkey, hnot⟩ := hp
    exact hv.added hstart hrun ht hcall hh rfl hkey hnot ha
  | @unadded key m' e ha =>
    obtain ⟨store, hadd⟩ := Store.add_unbounded hv.unbounded key m' s.hub.clock
    have hout : (s.hub.depot handler.depot).outages.add = none := by
      rw [hv.orderly.hub.service handler.depot]
    simp [Depot.add, hout, hadd, Except.map] at ha
  | reviewed => exact hp.elim
  | undecided hpanic =>
    rw [hf.complete] at hpanic
    cases hpanic
  | @pending key g hrelease =>
    obtain ⟨-, hkey⟩ := hv.seen ht hcall key g rfl
    rw [hf.complete, hkey, Attempt.returned.injEq] at hrelease
    exact hv.pending hrun ht hcall hh hrelease hp
  | @complete key g hrelease =>
    obtain ⟨-, hkey⟩ := hv.seen ht hcall key g rfl
    rw [hf.complete, hkey, Attempt.returned.injEq] at hrelease
    exact hv.complete hrun ht hcall hh hf hrelease hp
  | processing hw =>
    obtain ⟨hanswer, hyields⟩ := hp
    exact hv.silent hrun ht hcall hh hhandlers hdeal.group?_eq rfl
      ⟨hanswer, hyields.goes hw⟩
  | processed hw =>
    obtain ⟨hanswer, hyields⟩ := hp
    obtain rfl := hyields.gives hw
    exact hv.silent hrun ht hcall hh hhandlers rfl rfl hanswer
  | broken hw => exact absurd hw hp.2.not_panics
  | removed hr =>
    simp only [Handling.doing, Depot.removal, hr]
    exact hv.removed hrun ht hcall hh rfl hr hp
  | unremoved hr =>
    rw [(hv.orderly.hub.service handler.depot).remove] at hr
    cases hr
  | released =>
    obtain ⟨result, rfl, hanswer⟩ := hp
    exact hv.silent hrun ht hcall hh hhandlers hdeal.group?_eq rfl
      ⟨result, rfl, .inl hanswer⟩
  | last =>
    exact hv.silent hrun ht hcall hh hhandlers rfl rfl hp

theorem ends (hv : Serving c late d start calls s notes) {r : Reply}
    (hrun : Running c d calls ⟨hub', s.threads.set i ⟨[], some r⟩⟩)
    (ht : s.threads[i]? = some ⟨[.handling h p], none⟩) (hcall : calls[i]? = some (h, m))
    (hh : s.hub.handler? h = some handler)
    (hp : p.Stands (c h) late handler m (Answered c d start notes i) (Served d notes i))
    (hs : (Frame.handling h p).step s.hub = .ends hub' r) :
    Serving c late d start calls ⟨hub', s.threads.set i ⟨[], some r⟩⟩ (notes ++ []) := by
  have hhandlers := (Frame.keeps_ends hs).handlers
  have hgroup := (Frame.deal_ends hv.orderly.hub hs d).2.group?_eq
  have hstored : hub'.stored d = s.hub.stored d := by
    funext key
    rw [Hub.stored, Hub.stored, hgroup]
  -- a handling that ends knows its result, and owes nothing
  obtain ⟨result, rfl, hconcluded, hdue⟩ : ∃ result, r = .handled (.returned result)
      ∧ Concluded (c h) late handler m (Answered c d start notes i) (Served d notes i) result
      ∧ dues c s.frameAt ⟨i, 0⟩ = none := by
    rw [dues_top c ht]
    obtain ⟨hnone, -⟩ | ⟨x, rfl, -, rfl⟩ | ⟨x, rfl, -, rfl⟩ := Handling.ends_of_step hs
    · rw [hh] at hnone
      cases hnone
    · obtain ⟨result, rfl, hconcluded⟩ := hp
      exact ⟨result, rfl, hconcluded, rfl⟩
    · obtain ⟨result, rfl, hconcluded⟩ := hp
      exact ⟨result, rfl, hconcluded, rfl⟩
  refine hv.still hrun rfl hhandlers ⟨h, m, handler, hcall, hh, .inr ⟨result, rfl, hconcluded⟩⟩ ?_
  rw [dues_ends c hub' ht, hstored, List.append_nil, ← hdue, Function.update_eq_self]
  exact hv.balanced

/-- A key is free for the thread that asks for it. -/
def Punctual (s : Machine σ) (d : DepotId) (i : Nat) : Prop :=
  ∀ h key m deadline, s.threads[i]? = some ⟨[.handling h (.locking key m deadline)], none⟩ →
    (s.hub.depot d).locks.acquire? key (some h) ≠ none

theorem step (hv : Serving c late d start calls s notes) (hstart : start.answers = []) (i : Nat)
    (hlate : late ∨ Punctual s d i) :
    Serving c late d start calls (s.apply (.step i)) (notes ++ s.notes (.event (.step i))) := by
  have hidle : (∀ t, s.threads[i]? = some t → t.stack = []
      ∨ ∃ f deadline, t.stack = [f] ∧ f.step s.hub = .waits deadline) →
      Serving c late d start calls (s.apply (.step i)) (notes ++ s.notes (.event (.step i))) := by
    intro h
    obtain ⟨hmachine, hnotes⟩ := Machine.apply_idle h
    rw [hmachine, hnotes, List.append_nil]
    exact hv
  rcases ht : s.threads[i]? with _ | t
  · exact hidle fun t h => by simp [ht] at h
  obtain ⟨h, m, handler, hcall, hh, hstand⟩ := hv.stands i t ht
  obtain ⟨handler', hh', hd, hf⟩ := hv.staffed h m (List.mem_of_getElem? hcall)
  obtain rfl : handler = handler' := Option.some.inj (hh.symm.trans hh')
  rcases hstand with ⟨p, rfl, hp⟩ | ⟨result, rfl, -⟩
  · rcases hs : (Frame.handling h p).step s.hub with
      ⟨hub', f'⟩ | ⟨hub', f', inner⟩ | ⟨hub', r⟩ | deadline
    · obtain ⟨p', rfl, hg⟩ := Handling.goes_of_step hh hs
      obtain ⟨hmachine, hnotes⟩ := Machine.apply_goes ht hs
      have hcapacity := (Frame.steady_goes hs).capacity d
      have hrun := hv.toRunning.step i (by rw [hmachine, hcapacity, hv.unbounded])
      rw [hmachine] at hrun ⊢
      rw [hnotes]
      simp only [Frame.doing, hh, Option.bind_some]
      refine hv.goes hstart hrun ht hcall hh hd hf hp hg fun key m' deadline hlock hlocks => ?_
      rcases hlate with hlate | hpunctual
      · exact hlate
      · exact absurd hlocks (hpunctual h key m' deadline (hlock ▸ ht))
    · obtain ⟨-, -, key, g, work, rfl, hw⟩ := Handling.calls_of_step hs
      exact absurd hw hp.2.not_calls
    · obtain ⟨hmachine, hnotes⟩ := Machine.apply_ends ht hs
      have hcapacity := (Frame.steady_ends hs).capacity d
      have hrun := hv.toRunning.step i (by rw [hmachine, hcapacity, hv.unbounded])
      rw [hmachine] at hrun ⊢
      rw [hnotes]
      exact hv.ends hrun ht hcall hh hp hs
    · refine hidle fun t' ht' => ?_
      rw [ht] at ht'
      cases ht'
      exact .inr ⟨_, deadline, rfl, hs⟩
  · refine hidle fun t' ht' => ?_
    rw [ht] at ht'
    cases ht'
    exact .inl rfl

theorem comes (hv : Serving c late d start calls s notes) (hh : s.hub.handler? h = some handler)
    (hd : handler.depot = d) (hf : handler.Follows (c h)) :
    Serving c late d start (calls ++ [(h, m)]) (s.apply (.start (.handle h m)))
      (notes ++ s.notes (.event (.start (.handle h m)))) := by
  have hlawful : (Move.event (.start (.handle h m)) : Move σ).Lawful s.hub := trivial
  have hnew : requests d (s.notes (.event (.start (.handle h m)))) = [] := rfl
  have hold : ∀ (j : Nat) (x : HandlerId × Message), calls[j]? = some x →
      (calls ++ [(h, m)])[j]? = some x := by
    intro j x hj
    rw [List.getElem?_append_left (List.getElem?_eq_some_iff.1 hj).1, hj]
  refine ⟨⟨Machine.orderly_move hv.orderly hlawful,
    (s.advance_start (.handle h m)).sound hv.orderly.hub hv.orderly.frames d hv.sound,
    hv.unbounded, fun h' m' hmem => ?_⟩, ?_, fun j r hj => ?_, ?_, fun j t hj => ?_, ?_⟩
  · rcases List.mem_append.1 hmem with hmem | hmem
    · exact hv.staffed h' m' hmem
    · cases List.mem_singleton.1 hmem
      exact ⟨handler, hh, hd, hf⟩
  · simp [Machine.apply, hv.length]
  · rw [requests_append_of_nil hnew] at hj
    exact ⟨hold j _ (hv.asked j r hj).1, (hv.asked j r hj).2⟩
  · rw [adders_append_of_nil hnew]
    exact hv.once
  · rw [answered_append_of_nil hnew, served_append_of_nil hnew]
    simp only [Machine.apply, getElem?_snoc] at hj
    split_ifs at hj with heq
    · cases hj
      refine ⟨h, m, handler, ?_, hh, .inl ⟨.arriving m, rfl, rfl, fun hs => ?_⟩⟩
      · rw [getElem?_snoc, if_pos (heq.trans hv.length)]
      · obtain ⟨⟨j', r⟩, hr, rfl⟩ := List.mem_map.1 hs
        have hlt := (List.getElem?_eq_some_iff.1 (hv.asked j' r hr).1).1
        exact absurd (heq.trans hv.length) (Nat.ne_of_lt hlt)
    · obtain ⟨h', m', handler', hcall, hrest⟩ := hv.stands j t hj
      exact ⟨h', m', handler', hold j _ hcall, hrest⟩
  · have hdues : dues c (s.apply (.start (.handle h m))).frameAt = dues c s.frameAt := by
      funext q
      rw [dues, Machine.frameAt_begin, Function.update_apply]
      split_ifs with heq
      · subst heq
        simp [Activity.frame, Frame.due, Handling.due, dues, Machine.frameAt]
      · rfl
    have hdone : (completions · (notes ++ s.notes (.event (.start (.handle h m)))))
        = (completions · notes) := by
      funext key
      rw [completions_append]
      exact List.append_nil _
    rw [deskAfter_append_of_nil hnew, hdues, hdone]
    exact hv.balanced

theorem elapses (hv : Serving c late d start calls s notes) (n : Nat) :
    Serving c late d start calls (s.apply (.elapse n)) notes := by
  have hlawful : (Move.event (.elapse n) : Move σ).Lawful s.hub := trivial
  exact ⟨⟨Machine.orderly_move hv.orderly hlawful, hv.sound, hv.unbounded, hv.staffed⟩,
    hv.length, hv.asked, hv.once, hv.stands, hv.balanced⟩

end Serving

/-- An event in which messages are handled and nothing else is done: one comes in for a handler of
the depot that answers by its tables, or a thread does a step, or time goes by. -/
def Event.Handles (hub : Hub σ) (c : HandlerId → Conduct) (d : DepotId) : Event σ → Prop
  | .start (.handle h _) =>
    ∃ handler, hub.handler? h = some handler ∧ handler.depot = d ∧ handler.Follows (c h)
  | .step _ => True
  | .elapse _ => True
  | _ => False

theorem Event.Handles.congr {hub hub' : Hub σ} {c : HandlerId → Conduct} {d : DepotId} {e : Event σ}
    (he : e.Handles hub c d) (hh : ∀ h, hub'.handler? h = hub.handler? h) :
    e.Handles hub' c d := by
  rcases e with a | i | n | handler
  · rcases a with ⟨h, m⟩ | ⟨d', timeout⟩ | h
    · obtain ⟨handler, hhandler, hrest⟩ := he
      exact ⟨handler, by rw [hh, hhandler], hrest⟩
    · exact he
    · exact he
  · trivial
  · trivial
  · exact he

def Event.call? : Event σ → Option (HandlerId × Message)
  | .start (.handle h m) => some (h, m)
  | _ => none

/-- The calls that events begin, in the order of their threads. -/
def callsOf (events : List (Event σ)) : List (HandlerId × Message) := events.filterMap Event.call?

theorem staffed_callsOf {hub : Hub σ} {c : HandlerId → Conduct} {d : DepotId}
    {events : List (Event σ)} (h : ∀ e ∈ events, e.Handles hub c d) :
    Staffed hub c d (callsOf events) := by
  intro id m hmem
  obtain ⟨e, he, hcall⟩ := List.mem_filterMap.1 hmem
  have hhandles := h e he
  rcases e with a | i | n | handler
  · rcases a with ⟨id', m'⟩ | ⟨d', timeout⟩ | h'
    · simp only [Event.call?, Option.some.injEq, Prod.mk.injEq] at hcall
      exact hcall.1 ▸ hhandles
    · exact hhandles.elim
    · exact hhandles.elim
  · simp [Event.call?] at hcall
  · simp [Event.call?] at hcall
  · exact hhandles.elim

namespace Serving

variable {c : HandlerId → Conduct} {late : Prop} {d : DepotId} {start : Desk}
  {calls : List (HandlerId × Message)} {s : Machine σ} {notes : List Note}

theorem event (hv : Serving c late d start calls s notes) (hstart : start.answers = [])
    (hlate : late) {e : Event σ} (he : e.Handles s.hub c d) :
    Serving c late d start (calls ++ e.call?.toList) (s.apply e) (notes ++ s.notes (.event e))
      ∧ ∀ h, (s.apply e).hub.handler? h = s.hub.handler? h := by
  rcases e with a | i | n | handler
  · rcases a with ⟨h, m⟩ | ⟨d', timeout⟩ | h
    · obtain ⟨handler, hh, hd, hf⟩ := he
      exact ⟨hv.comes hh hd hf, fun _ => rfl⟩
    · exact he.elim
    · exact he.elim
  · refine ⟨?_, (Machine.keeps_step hv.orderly i).handlers⟩
    simpa [Event.call?] using hv.step hstart i (.inl hlate)
  · refine ⟨?_, fun _ => rfl⟩
    simpa [Event.call?, Machine.notes] using hv.elapses n
  · exact he.elim

theorem run (hstart : start.answers = []) (hlate : late) (events : List (Event σ)) :
    ∀ {calls : List (HandlerId × Message)} {s : Machine σ} {notes : List Note},
      Serving c late d start calls s notes → (∀ e ∈ events, e.Handles s.hub c d) →
      Serving c late d start (calls ++ callsOf events) (s.run events)
        (notes ++ s.history (events.map .event)) := by
  induction events with
  | nil =>
    intro calls s notes hv _
    simpa [callsOf, Machine.run, Machine.history] using hv
  | cons e events ih =>
    intro calls s notes hv he
    obtain ⟨hnext, hhandlers⟩ := hv.event hstart hlate (he e List.mem_cons_self)
    have hothers : ∀ e' ∈ events, e'.Handles (s.apply e).hub c d :=
      fun e' hmem => (he e' (List.mem_cons_of_mem e hmem)).congr hhandlers
    have hlast := ih hnext hothers
    have hcalls : callsOf (e :: events) = e.call?.toList ++ callsOf events := by
      unfold callsOf
      rw [List.filterMap_cons]
      rcases e.call? <;> rfl
    have hrun : s.run (e :: events) = (s.apply e).run events := rfl
    rw [hcalls, hrun, List.map_cons, Machine.history, ← List.append_assoc, ← List.append_assoc]
    exact hlast

end Serving

end Collate
