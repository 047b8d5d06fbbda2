import Collate.Proofs.Agreement
import Collate.Proofs.Desk

/-!
# Calls under way and the desk

Handlings of messages in one unbounded store, by handlers that answer by their tables, in any
interleaving. Their additions, in order, are the requests of a desk. As long as calls are under way
the store and the books lag behind that desk by what the calls owe, and each call already has its
answer from the desk once its message is added (`Serving`). A step that adds nothing leaves the desk
alone (`Serving.still`), and one that adds a message has the desk serve it (`Serving.adds`).
-/

namespace Collate

variable {σ : Type}

def Note.request? (d : DepotId) : Note → Option (Nat × Request)
  | .did p (.added h d' key m _) => if d' = d then some (p.thread, ⟨h, key, m⟩) else none
  | _ => none

/-- The additions to a depot, each with the thread that made it. -/
def requests (d : DepotId) (notes : List Note) : List (Nat × Request) :=
  notes.filterMap (Note.request? d)

/-- The threads that added to a depot. -/
def adders (d : DepotId) (notes : List Note) : List Nat := (requests d notes).map Prod.fst

def Note.completion? (key : Key) : Note → Option (HandlerId × List Message)
  | .did _ (.completed h g true) => if g.key = key then some (h, g.messages) else none
  | _ => none

/-- The groups of a key that a processor was called with, each with the handler it belongs to. -/
def completions (key : Key) (notes : List Note) : List (HandlerId × List Message) :=
  notes.filterMap (Note.completion? key)

theorem requests_append (d : DepotId) (a b : List Note) :
    requests d (a ++ b) = requests d a ++ requests d b :=
  List.filterMap_append

theorem completions_append (key : Key) (a b : List Note) :
    completions key (a ++ b) = completions key a ++ completions key b :=
  List.filterMap_append

def Hub.stored (hub : Hub σ) (d : DepotId) (key : Key) : List Message :=
  ((hub.depot d).shelf.group? key).elim [] Group.messages

/-- What a handling owes after it has added its message. -/
def Handling.due (c : Conduct) (h : HandlerId) : Handling σ → Option Due
  | .deciding key g => some (key, c.left key g.messages, (c.processed key g.messages).map (h, ·))
  | .processing key _ _ => some (key, [], [])
  | .removing key _ _ => some (key, [], [])
  | _ => none

def Frame.due (c : HandlerId → Conduct) : Frame σ → Option Due
  | .handling h p => p.due (c h) h
  | _ => none

def dues (c : HandlerId → Conduct) (at_ : Place → Option (Frame σ)) (p : Place) : Option Due :=
  (at_ p).bind (Frame.due c)

/-- A result that has nothing to do with any group: there was no key, or it was not to be had. -/
def Refused (c : Conduct) (late : Prop) (handler : Handler σ) (m : Message)
    (result : Except HandlerError Handled) : Prop :=
  (c.key m = none ∧ result = .error (.correlation m.id))
    ∨ late ∧ ∃ key, c.key m = some key ∧ result = .error (Handling.timedOut handler key)

/-- The result of a call: what the desk answered, or a refusal if its message was not added. -/
def Concluded (c : Conduct) (late : Prop) (handler : Handler σ) (m : Message)
    (answered : Except HandlerError Handled → Prop) (served : Prop)
    (result : Except HandlerError Handled) : Prop :=
  answered result ∨ ¬served ∧ Refused c late handler m result

/-- A handling against the desk: before it adds its message it is not served, and from then on the
answer of the desk is what it works towards. -/
def Handling.Stands (c : Conduct) (late : Prop) (handler : Handler σ) (m : Message)
    (answered : Except HandlerError Handled → Prop) (served : Prop) : Handling σ → Prop
  | .arriving m' => m' = m ∧ ¬served
  | .locking key m' _ => m' = m ∧ c.key m = some key ∧ ¬served
  | .adding key m' => m' = m ∧ c.key m = some key ∧ ¬served
  | .reviewing _ _ => False
  | .deciding key g => answered (c.answer key g.messages)
  | .processing key g work => answered (completed key g.size (c.result key g.messages))
      ∧ work.Yields (c.result key g.messages)
  | .removing key g result => answered (completed key g.size result)
  | .releasing _ _ r => ∃ result, r = .returned result ∧ answered result
  | .leaving r => ∃ result, r = .returned result ∧ Concluded c late handler m answered served result
  | .disowning r => ∃ result, r = .returned result
      ∧ Concluded c late handler m answered served result

def Thread.Stands (c : Conduct) (late : Prop) (h : HandlerId) (handler : Handler σ) (m : Message)
    (answered : Except HandlerError Handled → Prop) (served : Prop) (t : Thread σ) : Prop :=
  (∃ p, t = ⟨[.handling h p], none⟩ ∧ p.Stands c late handler m answered served)
    ∨ ∃ result, t = ⟨[], some (.handled (.returned result))⟩
      ∧ Concluded c late handler m answered served result

/-- The answers of a desk, each with the thread that it is for. -/
def Desk.answersTo (desk : Desk) (threads : List Nat) : List (Nat × Except HandlerError Handled) :=
  threads.zip desk.answers

/-- The handlers of the calls gather in the depot and answer by their tables. -/
def Staffed (hub : Hub σ) (c : HandlerId → Conduct) (d : DepotId)
    (calls : List (HandlerId × Message)) : Prop :=
  ∀ h m, (h, m) ∈ calls →
    ∃ handler, hub.handler? h = some handler ∧ handler.depot = d ∧ handler.Follows (c h)

/-- What every step of the calls keeps without looking at the desk. -/
structure Running (c : HandlerId → Conduct) (d : DepotId) (calls : List (HandlerId × Message))
    (s : Machine σ) : Prop where
  orderly : s.Orderly
  sound : Sound (s.hub.depot d).shelf (grips s.hub s.frameAt d)
  unbounded : (s.hub.depot d).store.capacity = none
  staffed : Staffed s.hub c d calls

/-- The desk that has served the requests so far. -/
def deskAfter (c : HandlerId → Conduct) (d : DepotId) (start : Desk) (notes : List Note) : Desk :=
  start.serveAll c ((requests d notes).map Prod.snd)

/-- Whether the message of a thread was added. -/
def Served (d : DepotId) (notes : List Note) (i : Nat) : Prop :=
  i ∈ adders d notes

/-- Whether the desk gave a thread an answer. -/
def Answered (c : HandlerId → Conduct) (d : DepotId) (start : Desk) (notes : List Note) (i : Nat)
    (result : Except HandlerError Handled) : Prop :=
  (i, result) ∈ (deskAfter c d start notes).answersTo (adders d notes)

/-- Calls that are served by a desk, each by a thread of its own. A key is not to be had only if
calls can be `late`. -/
structure Serving (c : HandlerId → Conduct) (late : Prop) (d : DepotId) (start : Desk)
    (calls : List (HandlerId × Message)) (s : Machine σ) (notes : List Note) : Prop
    extends Running c d calls s where
  length : s.threads.length = calls.length
  asked : ∀ i r, (i, r) ∈ requests d notes →
    calls[i]? = some (r.handler, r.message) ∧ (c r.handler).key r.message = some r.key
  once : (adders d notes).Nodup
  stands : ∀ i (t : Thread σ), s.threads[i]? = some t → ∃ h m handler, calls[i]? = some (h, m)
    ∧ s.hub.handler? h = some handler
    ∧ t.Stands (c h) late h handler m (Answered c d start notes i) (Served d notes i)
  balanced : Balanced (s.hub.stored d) (completions · notes) (dues c s.frameAt)
    (deskAfter c d start notes)

theorem Staffed.congr {hub hub' : Hub σ} {c : HandlerId → Conduct} {d : DepotId}
    {calls : List (HandlerId × Message)} (h : Staffed hub c d calls)
    (hh : ∀ h, hub'.handler? h = hub.handler? h) : Staffed hub' c d calls := by
  unfold Staffed
  simp only [hh]
  exact h

theorem Staffed.later {hub : Hub σ} {c : HandlerId → Conduct} {d : DepotId}
    {calls : List (HandlerId × Message)} {x : HandlerId × Message}
    (h : Staffed hub c d (x :: calls)) : Staffed hub c d calls :=
  fun id m hmem => h id m (List.mem_cons_of_mem x hmem)

theorem Thread.Stands.mono {c : Conduct} {late : Prop} {h : HandlerId} {handler : Handler σ}
    {m : Message} {answered answered' : Except HandlerError Handled → Prop}
    {served served' : Prop} {t : Thread σ}
    (ha : ∀ result, answered result → answered' result) (hs : ¬served → ¬served')
    (ht : t.Stands c late h handler m answered served) :
    t.Stands c late h handler m answered' served' := by
  have hconcluded : ∀ result, Concluded c late handler m answered served result →
      Concluded c late handler m answered' served' result := by
    rintro result (hanswer | ⟨hnot, hrefused⟩)
    · exact .inl (ha result hanswer)
    · exact .inr ⟨hs hnot, hrefused⟩
  rcases ht with ⟨p, rfl, hp⟩ | ⟨result, rfl, hresult⟩
  · refine .inl ⟨p, rfl, ?_⟩
    cases p
    case arriving => exact ⟨hp.1, hs hp.2⟩
    case locking => exact ⟨hp.1, hp.2.1, hs hp.2.2⟩
    case adding => exact ⟨hp.1, hp.2.1, hs hp.2.2⟩
    case reviewing => exact hp
    case deciding => exact ha _ hp
    case processing => exact ⟨ha _ hp.1, hp.2⟩
    case removing => exact ha _ hp
    case releasing =>
      obtain ⟨result, rfl, hresult⟩ := hp
      exact ⟨result, rfl, ha _ hresult⟩
    case leaving =>
      obtain ⟨result, rfl, hresult⟩ := hp
      exact ⟨result, rfl, hconcluded _ hresult⟩
    case disowning =>
      obtain ⟨result, rfl, hresult⟩ := hp
      exact ⟨result, rfl, hconcluded _ hresult⟩
  · exact .inr ⟨result, rfl, hconcluded _ hresult⟩

section Quiet

variable {d : DepotId} {new : List Note} (h : requests d new = []) (notes : List Note)

include h

theorem requests_append_of_nil : requests d (notes ++ new) = requests d notes := by
  rw [requests_append, h, List.append_nil]

theorem adders_append_of_nil : adders d (notes ++ new) = adders d notes := by
  rw [adders, requests_append_of_nil h, adders]

theorem deskAfter_append_of_nil (c : HandlerId → Conduct) (start : Desk) :
    deskAfter c d start (notes ++ new) = deskAfter c d start notes := by
  rw [deskAfter, requests_append_of_nil h, deskAfter]

theorem answered_append_of_nil (c : HandlerId → Conduct) (start : Desk) :
    Answered c d start (notes ++ new) = Answered c d start notes := by
  funext i result
  rw [Answered, deskAfter_append_of_nil h, adders_append_of_nil h, Answered]

theorem served_append_of_nil : Served d (notes ++ new) = Served d notes := by
  funext i
  rw [Served, adders_append_of_nil h, Served]

end Quiet

namespace Serving

variable {c : HandlerId → Conduct} {late : Prop} {d : DepotId} {start : Desk}
  {calls : List (HandlerId × Message)} {s : Machine σ} {notes new : List Note} {hub' : Hub σ}
  {i : Nat} {t t' : Thread σ}

/-- A step of a thread that adds nothing. -/
theorem still (hv : Serving c late d start calls s notes)
    (hrun : Running c d calls ⟨hub', s.threads.set i t'⟩) (hnew : requests d new = [])
    (hhandlers : ∀ h, hub'.handler? h = s.hub.handler? h)
    (hstands : ∃ h m handler, calls[i]? = some (h, m) ∧ s.hub.handler? h = some handler
      ∧ t'.Stands (c h) late h handler m (Answered c d start notes i) (Served d notes i))
    (hbalanced : Balanced (hub'.stored d) (completions · (notes ++ new))
      (dues c (⟨hub', s.threads.set i t'⟩ : Machine σ).frameAt) (deskAfter c d start notes)) :
    Serving c late d start calls ⟨hub', s.threads.set i t'⟩ (notes ++ new) := by
  refine ⟨hrun, by simpa using hv.length, ?_, ?_, fun j u hj => ?_, ?_⟩
  · rw [requests_append_of_nil hnew]
    exact hv.asked
  · rw [adders_append_of_nil hnew]
    exact hv.once
  · rw [answered_append_of_nil hnew, served_append_of_nil hnew]
    simp only [hhandlers]
    rw [List.getElem?_set] at hj
    split_ifs at hj with heq hlt
    · cases hj
      exact heq ▸ hstands
    · exact hv.stands j u hj
  · rw [deskAfter_append_of_nil hnew]
    exact hbalanced

/-- The step of a thread that adds its message. -/
theorem adds (hv : Serving c late d start calls s notes)
    (hrun : Running c d calls ⟨hub', s.threads.set i t'⟩) {r : Request}
    (hstart : start.answers = []) (hnew : requests d new = [(i, r)])
    (hhandlers : ∀ h, hub'.handler? h = s.hub.handler? h)
    (hnot : ¬Served d notes i) (hcall : calls[i]? = some (r.handler, r.message))
    (hkey : (c r.handler).key r.message = some r.key)
    (hstands : ∃ handler, s.hub.handler? r.handler = some handler
      ∧ ∀ answered : Except HandlerError Handled → Prop,
        answered ((c r.handler).answer r.key
          ((deskAfter c d start notes).cell r.key ++ [r.message])) →
        t'.Stands (c r.handler) late r.handler handler r.message answered True)
    (hbalanced : Balanced (hub'.stored d) (completions · (notes ++ new))
      (dues c (⟨hub', s.threads.set i t'⟩ : Machine σ).frameAt)
      ((deskAfter c d start notes).serve c r)) :
    Serving c late d start calls ⟨hub', s.threads.set i t'⟩ (notes ++ new) := by
  have hrequests : requests d (notes ++ new) = requests d notes ++ [(i, r)] := by
    rw [requests_append, hnew]
  have hdesk : deskAfter c d start (notes ++ new) = (deskAfter c d start notes).serve c r := by
    rw [deskAfter, hrequests, List.map_append, List.map_singleton, Desk.serveAll_snoc, deskAfter]
  have hadders : adders d (notes ++ new) = adders d notes ++ [i] := by
    rw [adders, hrequests, List.map_append, List.map_singleton, adders]
  have hlength : (adders d notes).length = (deskAfter c d start notes).answers.length := by
    simp [adders, deskAfter, Desk.length_answers, hstart]
  -- the answers so far stand, and the last one is for the thread that asked last
  have hanswered : ∀ j result, Answered c d start (notes ++ new) j result
      ↔ Answered c d start notes j result ∨ (j = i ∧ result = (c r.handler).answer r.key
        ((deskAfter c d start notes).cell r.key ++ [r.message])) := by
    intro j result
    simp only [Answered, Desk.answersTo, hdesk, hadders, Desk.serve, List.zip_append hlength,
      List.mem_append, List.zip_cons_cons, List.zip_nil_left, List.mem_singleton, Prod.mk.injEq]
  have hserved : ∀ j, Served d (notes ++ new) j ↔ Served d notes j ∨ j = i := by
    intro j
    simp only [Served, hadders, List.mem_append, List.mem_singleton]
  refine ⟨hrun, by simpa using hv.length, fun j r' hj => ?_, ?_, fun j u hj => ?_, ?_⟩
  · rw [hrequests] at hj
    rcases List.mem_append.1 hj with hj | hj
    · exact hv.asked j r' hj
    · cases List.mem_singleton.1 hj
      exact ⟨hcall, hkey⟩
  · rw [hadders]
    refine List.nodup_append.2 ⟨hv.once, by simp, fun a ha b hb => ?_⟩
    rw [List.mem_singleton.1 hb]
    rintro rfl
    exact hnot ha
  · simp only [hhandlers]
    rw [List.getElem?_set] at hj
    split_ifs at hj with heq hlt
    · cases hj
      subst heq
      obtain ⟨handler, hh, hall⟩ := hstands
      refine ⟨r.handler, r.message, handler, hcall, hh, ?_⟩
      exact (hall (Answered c d start (notes ++ new) i) ((hanswered i _).2 (.inr ⟨rfl, rfl⟩))).mono
        (fun _ h => h) fun h => absurd trivial h
    · obtain ⟨h, m, handler, hcalls, hh, hstand⟩ := hv.stands j u hj
      refine ⟨h, m, handler, hcalls, hh, hstand.mono (fun result hr => ?_) fun hns hs => ?_⟩
      · exact (hanswered j result).2 (.inl hr)
      · rcases (hserved j).1 hs with hs | rfl
        · exact hns hs
        · exact heq rfl
  · rw [hdesk]
    exact hbalanced

end Serving

end Collate
