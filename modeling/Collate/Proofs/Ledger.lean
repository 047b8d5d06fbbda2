import Collate.Proofs.Grips
import Mathlib.Data.List.Induction

/-!
# The ledger of a depot

The additions to a shelf and the removals from it, in their order. The ledger alone tells which
group is stored under a key (`Ledger.group?`), so nothing that was added is lost or counted twice:
what came in under a key is what went out, group by group, and what is still there
(`Ledger.conservation`). The books of a lawful run keep such a ledger for every depot
(`Machine.kept_after`).
-/

namespace Collate

variable {σ : Type}

abbrev Ledger := List Entry

namespace Ledger

def shelve (key : Key) (stored : Option Group) : Entry → Option Group
  | .put k m now => if k = key then some ((stored.getD (.empty key now)).add m now) else stored
  | .took k _ => if k = key then none else stored

/-- The group that the entries leave under a key. -/
def group? (key : Key) (l : Ledger) : Option Group := l.foldl (shelve key) none

def receive (key : Key) (waiting : List (Message × Instant)) : Entry → List (Message × Instant)
  | .put k m now => if k = key then waiting ++ [(m, now)] else waiting
  | .took k _ => if k = key then [] else waiting

/-- The messages that arrived under a key since its last removal, each with its time. -/
def arrivals (key : Key) (l : Ledger) : List (Message × Instant) := l.foldl (receive key) []

def added (key : Key) (l : Ledger) : List Message :=
  l.flatMap fun
    | .put k m _ => if k = key then [m] else []
    | .took _ _ => []

/-- The messages of the groups that went out under a key, group by group. -/
def taken (key : Key) (l : Ledger) : List (List Message) :=
  l.flatMap fun
    | .put _ _ _ => []
    | .took k g => if k = key then g.toList.map Group.messages else []

/-- Every removal took the group that was there. -/
def Fair (l : Ledger) : Prop := ∀ a key g b, l = a ++ .took key g :: b → g = group? key a

/-- Additions in the order of time, up to now. -/
def Timed (now : Instant) (l : Ledger) : Prop :=
  l.Pairwise (fun a b => ∀ k m t k' m' t', a = .put k m t → b = .put k' m' t' → t ≤ t')
    ∧ ∀ k m t, .put k m t ∈ l → t ≤ now

variable {l : Ledger} {key : Key} {now : Instant}

@[simp] theorem group?_nil (key : Key) : group? key [] = none := rfl

@[simp] theorem group?_snoc (key : Key) (l : Ledger) (e : Entry) :
    group? key (l ++ [e]) = shelve key (group? key l) e := by
  simp only [group?, List.foldl_append, List.foldl_cons, List.foldl_nil]

@[simp] theorem arrivals_nil (key : Key) : arrivals key [] = [] := rfl

@[simp] theorem arrivals_snoc (key : Key) (l : Ledger) (e : Entry) :
    arrivals key (l ++ [e]) = receive key (arrivals key l) e := by
  simp only [arrivals, List.foldl_append, List.foldl_cons, List.foldl_nil]

theorem added_append (key : Key) (a b : Ledger) : added key (a ++ b) = added key a ++ added key b :=
  List.flatMap_append

theorem taken_append (key : Key) (a b : Ledger) : taken key (a ++ b) = taken key a ++ taken key b :=
  List.flatMap_append

theorem Fair.left {a b : Ledger} (h : Fair (a ++ b)) : Fair a := by
  intro a' key g b' ha
  exact h a' key g (b' ++ b) (by rw [ha, List.append_assoc, List.cons_append])

theorem fair_nil : Fair [] := fun a key g b h => by simp at h

theorem fair_snoc (h : Fair l) {e : Entry} (he : ∀ k g, e = .took k g → g = group? k l) :
    Fair (l ++ [e]) := by
  intro a k g b hl
  rcases snoc_eq_append_cons hl with ⟨rfl, hlast⟩ | ⟨b', hb⟩
  · exact he k g hlast.symm
  · exact h a k g b' hb

/-- What came in under a key went out with its groups, in order, or is still there. -/
theorem conservation (h : Fair l) (key : Key) :
    added key l = (taken key l).flatten ++ (group? key l).elim [] Group.messages := by
  induction l using List.reverseRecOn with
  | nil => rfl
  | append_singleton l e ih =>
    have hih := ih h.left
    rw [added_append, taken_append, group?_snoc, hih]
    cases e with
    | put k m now =>
      by_cases hk : k = key
      · rcases hg : group? key l with _ | g <;> simp [added, taken, shelve, hk, Group.empty]
      · simp [added, taken, shelve, hk]
    | took k g =>
      have hg : g = group? k l := h l k g [] rfl
      by_cases hk : k = key
      · subst hk
        rcases hs : group? k l with _ | stored <;> simp [added, taken, shelve, hg, hs]
      · simp [added, taken, shelve, hk]

/-- The stored group consists of the arrivals since the last removal. -/
theorem group?_eq (key : Key) (l : Ledger) :
    (group? key l).elim [] Group.messages = (arrivals key l).map Prod.fst := by
  induction l using List.reverseRecOn with
  | nil => rfl
  | append_singleton l e ih =>
    rw [group?_snoc, arrivals_snoc]
    cases e with
    | put k m now =>
      by_cases hk : k = key
      · rcases hg : group? key l with _ | g <;> simp_all [shelve, receive, Group.empty]
      · simpa [shelve, receive, hk] using ih
    | took k g =>
      by_cases hk : k = key
      · simp [shelve, receive, hk]
      · simpa [shelve, receive, hk] using ih

theorem Timed.left {a b : Ledger} (h : Timed now (a ++ b)) : Timed now a :=
  ⟨(List.pairwise_append.1 h.1).1, fun k m t hmem => h.2 k m t (List.mem_append_left _ hmem)⟩

theorem Timed.later {now' : Instant} (h : Timed now l) (hle : now ≤ now') : Timed now' l :=
  ⟨h.1, fun k m t hmem => Nat.le_trans (h.2 k m t hmem) hle⟩

theorem timed_snoc (h : Timed now l) {e : Entry} (he : ∀ k m t, e = .put k m t → t = now) :
    Timed now (l ++ [e]) := by
  refine ⟨List.pairwise_append.2 ⟨h.1, List.pairwise_singleton _ _, ?_⟩, ?_⟩
  · intro a ha b hb k m t k' m' t' hat hbt
    rw [List.mem_singleton.1 hb] at hbt
    rw [he k' m' t' hbt]
    exact h.2 k m t (hat ▸ ha)
  · intro k m t hmem
    rcases List.mem_append.1 hmem with hmem | hmem
    · exact h.2 k m t hmem
    · exact Nat.le_of_eq (he k m t (List.mem_singleton.1 hmem).symm)

theorem mem_of_arrivals {a : Message × Instant} (h : a ∈ arrivals key l) :
    .put key a.1 a.2 ∈ l := by
  induction l using List.reverseRecOn with
  | nil => cases h
  | append_singleton l e ih =>
    rw [arrivals_snoc] at h
    cases e with
    | put k m now =>
      simp only [receive] at h
      split_ifs at h with hk
      · rcases List.mem_append.1 h with h | h
        · exact List.mem_append_left _ (ih h)
        · rw [List.mem_singleton.1 h, hk]
          simp
      · exact List.mem_append_left _ (ih h)
    | took k g =>
      simp only [receive] at h
      split_ifs at h with hk
      · cases h
      · exact List.mem_append_left _ (ih h)

/-- No message of a stored group arrived after the time that the group bears. -/
theorem le_lastModified (ht : Timed now l) {g : Group} (hg : group? key l = some g)
    {a : Message × Instant} (ha : a ∈ arrivals key l) : a.2 ≤ g.lastModified := by
  induction l using List.reverseRecOn generalizing g with
  | nil => cases ha
  | append_singleton l e ih =>
    rw [group?_snoc] at hg
    rw [arrivals_snoc] at ha
    cases e with
    | put k m t =>
      simp only [receive, shelve] at ha hg
      split_ifs at ha hg with hk
      · cases hg
        rcases List.mem_append.1 ha with ha | ha
        · have hbefore := (List.pairwise_append.1 ht.1).2.2
          exact hbefore _ (mem_of_arrivals ha) _ List.mem_cons_self _ _ _ _ _ _ rfl rfl
        · rw [List.mem_singleton.1 ha]
          exact Nat.le_refl _
      · exact ih ht.left hg ha
    | took k g' =>
      simp only [receive, shelve] at ha hg
      split_ifs at ha hg with hk
      exact ih ht.left hg ha

/-- No stored group bears a time that is still to come. -/
theorem lastModified_le (ht : Timed now l) {g : Group} (hg : group? key l = some g) :
    g.lastModified ≤ now := by
  induction l using List.reverseRecOn generalizing g with
  | nil => cases hg
  | append_singleton l e ih =>
    rw [group?_snoc] at hg
    cases e with
    | put k m t =>
      simp only [shelve] at hg
      split_ifs at hg
      · cases hg
        exact ht.2 k m t (by simp)
      · exact ih ht.left hg
    | took k g' =>
      simp only [shelve] at hg
      split_ifs at hg
      exact ih ht.left hg

/-- If anything came in of late under a key with a group, some of it is in the group. -/
theorem exists_late_arrival {late : Ledger} {m : Message} {t : Instant}
    (hm : .put key m t ∈ late) (hne : arrivals key (l ++ late) ≠ []) :
    ∃ a ∈ arrivals key (l ++ late), .put key a.1 a.2 ∈ late := by
  induction late using List.reverseRecOn generalizing m t with
  | nil => cases hm
  | append_singleton late e ih =>
    rw [← List.append_assoc, arrivals_snoc] at hne ⊢
    have hrest : .put key m t ∈ late → arrivals key (l ++ late) ≠ [] →
        ∃ a ∈ arrivals key (l ++ late), .put key a.1 a.2 ∈ late ++ [e] := by
      intro hmem harr
      obtain ⟨a, ha, hput⟩ := ih hmem harr
      exact ⟨a, ha, List.mem_append_left _ hput⟩
    cases e with
    | put k m' t' =>
      simp only [receive] at hne ⊢
      split_ifs with hk
      · subst hk
        exact ⟨(m', t'), by simp, by simp⟩
      · rw [if_neg hk] at hne
        refine hrest ?_ hne
        rcases List.mem_append.1 hm with hm | hm
        · exact hm
        · cases List.mem_singleton.1 hm
          exact absurd rfl hk
    | took k g =>
      simp only [receive] at hne ⊢
      split_ifs with hk
      · simp [hk] at hne
      · rw [if_neg hk] at hne
        refine hrest ?_ hne
        rcases List.mem_append.1 hm with hm | hm
        · exact hm
        · cases List.mem_singleton.1 hm

end Ledger

/-- The ledger that the books of a run keep for a depot. -/
def ledger (d : DepotId) (notes : List Note) : Ledger := notes.filterMap (Note.posting? d)

theorem ledger_append (d : DepotId) (a b : List Note) :
    ledger d (a ++ b) = ledger d a ++ ledger d b :=
  List.filterMap_append

/-- A ledger that tells what is on a shelf. -/
structure Kept (now : Instant) (s : Shelf) (l : Ledger) : Prop where
  fair : l.Fair
  timed : l.Timed now
  stored : ∀ key, s.group? key = l.group? key

namespace Kept

variable {now now' : Instant} {s s' : Shelf} {l : Ledger}

theorem start (now : Instant) (hg : ∀ key, s.group? key = none) : Kept now s [] :=
  ⟨Ledger.fair_nil, ⟨.nil, fun _ _ _ h => by cases h⟩, hg⟩

theorem later (h : Kept now s l) (hle : now ≤ now') : Kept now' s l :=
  ⟨h.fair, h.timed.later hle, h.stored⟩

theorem deal (h : Kept now s l) {x x' : Option (Key × Sight)} {e : Option Entry}
    (hd : Deal now s x e s' x') : Kept now s' (l ++ e.toList) := by
  cases hd
  case adds key m g hg =>
    refine ⟨Ledger.fair_snoc h.fair ?_, Ledger.timed_snoc h.timed ?_, fun k => ?_⟩
    · intro k g' heq
      cases heq
    · intro k m' t heq
      cases heq
      rfl
    · rw [Option.toList_some, Ledger.group?_snoc, ← h.stored, Shelf.setGroup_group?, Ledger.shelve]
      by_cases hk : key = k
      · rw [if_pos hk.symm, if_pos hk, hg, Shelf.get, hk]
      · rw [if_neg (Ne.symm hk), if_neg hk]
  case removes key y =>
    rw [h.stored key]
    refine ⟨Ledger.fair_snoc h.fair ?_, Ledger.timed_snoc h.timed ?_, fun k => ?_⟩
    · intro k g' heq
      cases heq
      rfl
    · intro k m' t heq
      cases heq
    · rw [Option.toList_some, Ledger.group?_snoc, ← h.stored k, Shelf.setGroup_group?,
        Ledger.shelve]
      simp only [eq_comm]
  all_goals
    rw [Option.toList_none, List.append_nil]
    exact ⟨h.fair, h.timed, h.stored⟩

end Kept

theorem Advance.clock_le {hub hub' : Hub σ} {at_ at' : Place → Option (Frame σ)}
    {notes : List Note} (ha : Advance hub at_ hub' at' notes) (ho : hub.Orderly)
    (hf : ∀ p f, at_ p = some f → f.Orderly hub) : hub.clock ≤ hub'.clock := by
  cases ha with
  | aside h => exact h.clock
  | starts a hp => exact Nat.le_refl _
  | goes hp hs => exact Nat.le_of_eq (Frame.orderly_goes ho (hf _ _ hp) hs).1.clock.symm
  | calls hp hs hab => exact Nat.le_of_eq (by rw [(Frame.orderly_calls (hf _ _ hp) hs).1])
  | ends hp hs => exact Nat.le_of_eq (Frame.keeps_ends hs).clock.symm
  | returns hp hs hg => exact Nat.le_of_eq (Frame.keeps_ends hs).clock.symm

theorem Advance.kept {hub hub' : Hub σ} {at_ at' : Place → Option (Frame σ)}
    {notes new : List Note} (ha : Advance hub at_ hub' at' new) (ho : hub.Orderly)
    (hf : ∀ p f, at_ p = some f → f.Orderly hub) {d : DepotId}
    (hk : Kept hub.clock (hub.depot d).shelf (ledger d notes)) :
    Kept hub'.clock (hub'.depot d).shelf (ledger d (notes ++ new)) := by
  obtain ⟨p, e, x, hdeal, -, hnew⟩ := ha.deal ho hf d
  rw [ledger_append, ledger, ledger, hnew]
  exact (hk.deal hdeal).later (ha.clock_le ho hf)

namespace Machine

/-- A machine that has nothing stored yet in a depot. -/
def Bare (s : Machine σ) (d : DepotId) : Prop := ∀ key, (s.hub.depot d).shelf.group? key = none

theorem bare_initial (outside : σ) (idOf : Nat → MessageId) (d : DepotId) :
    (initial outside idOf).Bare d := fun _ => rfl

theorem kept_after {s : Machine σ} (ho : s.Orderly) {d : DepotId} (hb : s.Bare d)
    (moves : List (Move σ)) (hl : s.Lawful moves) :
    Kept (s.after moves).hub.clock ((s.after moves).hub.depot d).shelf
      (ledger d (s.history moves)) := by
  refine along_run (P := fun hub _ notes => Kept hub.clock (hub.depot d).shelf (ledger d notes))
    (fun ho hf ha hk => ha.kept ho hf hk) ho (Kept.start _ hb) moves hl

end Machine

end Collate
