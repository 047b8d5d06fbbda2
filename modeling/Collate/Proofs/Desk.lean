import Collate.Proofs.Ledger

/-!
# A desk that serves one message at a time

What handlers make of messages when nothing interferes: a message joins the members gathered under
its key, and if they are complete they are processed and gone. A handler whose code answers by fixed
tables (`Conduct`) can be followed on such a desk. While calls are under way the desk is ahead of
the store: a call that has added its message still owes the store a removal, or the books a
completion. `Balanced` says how the two differ, and its lemmas how each step of a call brings them
closer.
-/

namespace Collate

variable {σ : Type}

/-- A script that changes no depot, calls nobody, and ends with one result in any case. -/
inductive Script.Yields {α : Type} (r : α) : Script σ α → Prop
  | done : Yields r (.done r)
  | act {change : σ → σ} {next : σ → Script σ α} :
      (∀ s, Yields r (next s)) → Yields r (.act change next)
  | log {record : Log.Record} {next : Script σ α} : Yields r next → Yields r (.log record next)
  | fresh {next : MessageId → Script σ α} : (∀ id, Yields r (next id)) → Yields r (.fresh next)

/-- What the code behind a handler answers, and whether its processor is called at all. -/
structure Conduct where
  key : Message → Option Key
  complete : Key → List Message → Bool
  hasOutput : Bool
  result : Key → List Message → Except ProcessingError Unit

/-- A handler whose strategies and processor answer by their tables and never panic. -/
structure Handler.Follows (handler : Handler σ) (c : Conduct) : Prop where
  key : ∀ m, handler.correlation m = .returned (c.key m)
  complete : ∀ g, handler.release g = .returned (c.complete g.key g.messages)
  output : handler.output.isSome = c.hasOutput
  result : ∀ g, (handler.process g).Yields (c.result g.key g.messages)

namespace Conduct

variable (c : Conduct) (key : Key) (members : List Message)

/-- The answer to the message that came in last. -/
def answer : Except HandlerError Handled :=
  if c.complete key members then
    Handling.completed key members.length (c.result key members)
  else .ok (.pending key members.length)

def left : List Message := if c.complete key members then [] else members

/-- The groups that the processor is called with. -/
def processed : List (List Message) :=
  if c.complete key members && c.hasOutput then [members] else []

end Conduct

/-- A message that is added under a key. -/
structure Request where
  handler : HandlerId
  key : Key
  message : Message

/-- The members gathered under each key, the groups of each key that went to a processor, each with
the handler it is the processor of, and the answers given so far. -/
structure Desk where
  cell : Key → List Message
  done : Key → List (HandlerId × List Message)
  answers : List (Except HandlerError Handled)

namespace Desk

variable (c : HandlerId → Conduct)

def serve (desk : Desk) (r : Request) : Desk where
  cell := Function.update desk.cell r.key
    ((c r.handler).left r.key (desk.cell r.key ++ [r.message]))
  done := Function.update desk.done r.key (desk.done r.key
    ++ ((c r.handler).processed r.key (desk.cell r.key ++ [r.message])).map (r.handler, ·))
  answers := desk.answers ++ [(c r.handler).answer r.key (desk.cell r.key ++ [r.message])]

/-- Serves one message after another. -/
def serveAll (desk : Desk) (rs : List Request) : Desk := rs.foldl (serve c) desk

theorem serveAll_snoc (desk : Desk) (rs : List Request) (r : Request) :
    desk.serveAll c (rs ++ [r]) = (desk.serveAll c rs).serve c r := by
  simp only [serveAll, List.foldl_append, List.foldl_cons, List.foldl_nil]

theorem length_answers (desk : Desk) (rs : List Request) :
    (desk.serveAll c rs).answers.length = desk.answers.length + rs.length := by
  induction rs using List.reverseRecOn with
  | nil => rfl
  | append_singleton rs r ih =>
    rw [serveAll_snoc, serve, List.length_append, ih, List.length_append]
    rfl

end Desk

/-- What a call still owes: the members that will stay under a key, and the groups that are still to
be processed. -/
abbrev Due := Key × List Message × List (HandlerId × List Message)

/-- A desk that is ahead of the store and the books by what the calls owe. -/
structure Balanced {ι : Type} (stored : Key → List Message)
    (done : Key → List (HandlerId × List Message)) (due : ι → Option Due) (desk : Desk) : Prop where
  apart : ∀ p q key x y, due p = some (key, x) → due q = some (key, y) → p = q
  settled : ∀ key, (∀ p x, due p ≠ some (key, x)) →
    stored key = desk.cell key ∧ done key = desk.done key
  owed : ∀ p key left todo, due p = some (key, left, todo) →
    left = desk.cell key ∧ done key ++ todo = desk.done key

namespace Balanced

variable {ι : Type} [DecidableEq ι] {stored stored' : Key → List Message}
  {done done' : Key → List (HandlerId × List Message)} {due : ι → Option Due} {desk desk' : Desk}
  {p : ι} {key : Key} {members : List Message} {todo : List (HandlerId × List Message)}

/-- A change under one key, by the only call that owes anything there. -/
theorem change (h : Balanced stored done due desk) {x : Option Due}
    (hp : ∀ k y, due p = some (k, y) → k = key) (hx : ∀ k y, x = some (k, y) → k = key)
    (halone : ∀ q y, due q = some (key, y) → q = p)
    (hothers : ∀ k, k ≠ key → stored' k = stored k ∧ done' k = done k ∧ desk'.cell k = desk.cell k
      ∧ desk'.done k = desk.done k)
    (hsettled : x = none → stored' key = desk'.cell key ∧ done' key = desk'.done key)
    (howed : ∀ left todo, x = some (key, left, todo) →
      left = desk'.cell key ∧ done' key ++ todo = desk'.done key) :
    Balanced stored' done' (Function.update due p x) desk' := by
  have hold : ∀ q k y, Function.update due p x q = some (k, y) →
      (q = p ∧ k = key ∧ x = some (k, y)) ∨ (q ≠ p ∧ k ≠ key ∧ due q = some (k, y)) := by
    intro q k y hq
    rw [Function.update_apply] at hq
    split_ifs at hq with heq
    · exact .inl ⟨heq, hx k y hq, hq⟩
    · exact .inr ⟨heq, fun hk => heq (halone q y (hk ▸ hq)), hq⟩
  refine ⟨fun q q' k y z hq hq' => ?_, fun k hk => ?_, fun q k left todo hq => ?_⟩
  · rcases hold q k y hq with ⟨rfl, rfl, -⟩ | ⟨-, hne, hq⟩ <;>
      rcases hold q' k z hq' with ⟨rfl, hk, -⟩ | ⟨-, hne', hq'⟩
    · rfl
    · exact absurd rfl hne'
    · exact absurd hk hne
    · exact h.apart q q' k y z hq hq'
  · by_cases heq : k = key
    · subst heq
      refine hsettled ?_
      rcases hnone : x with _ | ⟨k', y⟩
      · rfl
      · have hk' := hx k' y hnone
        subst hk'
        exact absurd (by rw [Function.update_self, hnone]) (hk p y)
    · obtain ⟨hs, hd, hc, hdd⟩ := hothers k heq
      rw [hs, hd, hc, hdd]
      refine h.settled k fun q y hq => ?_
      by_cases hqp : q = p
      · exact heq (hp k y (hqp ▸ hq))
      · exact hk q y (by rw [Function.update_of_ne hqp, hq])
  · rcases hold q k _ hq with ⟨-, rfl, hxe⟩ | ⟨-, hne, hq⟩
    · exact howed left todo hxe
    · obtain ⟨-, hd, hc, hdd⟩ := hothers k hne
      rw [hd, hc, hdd]
      exact h.owed q k left todo hq

/-- A call that added its message owes what the desk is ahead by then. -/
theorem add (h : Balanced stored done due desk) (c : HandlerId → Conduct) (r : Request)
    (hp : due p = none) (hfree : ∀ q x, due q ≠ some (r.key, x))
    (hstored : ∀ k, k ≠ r.key → stored' k = stored k) :
    Balanced stored' done (Function.update due p (some (r.key,
        (c r.handler).left r.key (stored r.key ++ [r.message]),
        ((c r.handler).processed r.key (stored r.key ++ [r.message])).map (r.handler, ·))))
      (desk.serve c r) := by
  obtain ⟨hcell, hdone⟩ := h.settled r.key hfree
  refine h.change ?_ ?_ (fun q y hq => absurd hq (hfree q y)) ?_ ?_ ?_
  · intro k y hy
    rw [hp] at hy
    cases hy
  · intro k y hy
    cases hy
    rfl
  · intro k hne
    simp [Desk.serve, hne, hstored k hne]
  · intro hnone
    cases hnone
  · intro left todo hy
    cases hy
    simp [Desk.serve, hcell, hdone]

/-- A call pays off what it still owes when the store has just the members that stay. -/
theorem settle (h : Balanced stored done due desk) (hp : due p = some (key, members, []))
    (hstored : ∀ k, k ≠ key → stored' k = stored k) (hmembers : stored' key = members) :
    Balanced stored' done (Function.update due p none) desk := by
  obtain ⟨hleft, hdone⟩ := h.owed p key members [] hp
  refine h.change ?_ ?_ (fun q y hq => h.apart q p key y _ hq hp) ?_ ?_ ?_
  · intro k y hy
    rw [hp] at hy
    cases hy
    rfl
  · intro k y hy
    cases hy
  · intro k hne
    exact ⟨hstored k hne, rfl, rfl, rfl⟩
  · intro _
    exact ⟨hmembers.trans hleft, by rw [← hdone, List.append_nil]⟩
  · intro left todo hy
    cases hy

theorem note (h : Balanced stored done due desk) {x : HandlerId × List Message}
    (hp : due p = some (key, members, x :: todo)) (hdone : ∀ k, k ≠ key → done' k = done k)
    (hnote : done' key = done key ++ [x]) :
    Balanced stored done' (Function.update due p (some (key, members, todo))) desk := by
  obtain ⟨hleft, hrest⟩ := h.owed p key members (x :: todo) hp
  refine h.change ?_ ?_ (fun q y hq => h.apart q p key y _ hq hp) ?_ ?_ ?_
  · intro k y hy
    rw [hp] at hy
    cases hy
    rfl
  · intro k y hy
    cases hy
    rfl
  · intro k hne
    exact ⟨rfl, hdone k hne, rfl, rfl⟩
  · intro hnone
    cases hnone
  · intro left todo' hy
    cases hy
    exact ⟨hleft, by rw [hnote, ← hrest, List.append_assoc, List.singleton_append]⟩

end Balanced

end Collate
