import Collate.Proofs.References
import Collate.Proofs.Solo

/-!
# A call in one sitting

A call that is started on a machine and worked on by its own thread only, with time going by between
its steps as it likes. All other calls stay where they are (`Sitting.threads`), and a handler that
was there is there as long as the sitting lasts, since no call drops a reference that it did not
take itself (`Sitting.counted`). To carry an activity out at once is such a sitting
(`Machine.exists_sitting_call`).
-/

namespace Collate

variable {σ : Type}

/-- A step of thread `i`, or time that goes by. -/
def Move.isAlone (i : Nat) : Move σ → Bool
  | .event (.step j) => j = i
  | .event (.elapse _) => true
  | _ => false

/-- Whoever works alone may do so. -/
theorem Machine.lawful_alone {i : Nat} : ∀ (moves : List (Move σ)) (s : Machine σ),
    (∀ mv ∈ moves, mv.isAlone i = true) → s.Lawful moves
  | [], _, _ => trivial
  | mv :: moves, s, hm => by
    refine ⟨?_, lawful_alone moves _ fun mv' hmv' => hm mv' (List.mem_cons_of_mem _ hmv')⟩
    have hmv := hm mv List.mem_cons_self
    cases mv with
    | event e => cases e <;> trivial
    | openDepot | enlist | rearrange | reform | disturb => cases hmv

/-- Whether a call is the drop of a reference. -/
def Frame.drops : Frame σ → Bool
  | .drop _ _ => true
  | _ => false

namespace Frame

variable {hub hub' : Hub σ} {f f' inner : Frame σ}

theorem letsGo_of_drops (h : f.drops = false) (id : HandlerId) : f.letsGo id = false := by
  cases f <;> first | rfl | cases h

theorem drops_goes (hs : f.step hub = .goes hub' f') (h : f.drops = false) : f'.drops = false := by
  cases f with
  | handling h' p =>
    obtain ⟨handler, hh⟩ := Handling.handler_of_step hs
    obtain ⟨p', rfl, -⟩ := Handling.goes_of_step hh hs
    rfl
  | offer h' stale p =>
    obtain ⟨handler, hh⟩ := Offer.handler_of_step hs
    obtain ⟨p', rfl, -⟩ := Offer.goes_of_step hh hs
    rfl
  | pass d timeout p =>
    obtain ⟨p', rfl, -⟩ := Pass.goes_of_step hs
    rfl
  | drop h' p => cases h

theorem drops_calls (hs : f.step hub = .calls hub' f' inner) :
    f'.drops = false ∧ inner.drops = false := by
  have hscript : ∀ {α : Type} {s : Script σ α}, s.step hub = .calls inner →
      inner.drops = false := by
    intro α s hcall
    rcases Script.calls_of_step hcall with ⟨id, m, rfl⟩ | ⟨d, timeout, rfl⟩ <;> rfl
  cases f with
  | handling h' p =>
    obtain ⟨-, rfl, key, g, work, -, hw⟩ := Handling.calls_of_step hs
    exact ⟨rfl, hscript hw⟩
  | offer h' stale p =>
    obtain ⟨-, rfl, ⟨g, m, left, work, -, hw⟩ | ⟨g, work, -, hw⟩⟩ := Offer.calls_of_step hs <;>
      exact ⟨rfl, hscript hw⟩
  | pass d timeout p =>
    obtain ⟨-, ⟨t, g, h', left, said, -, rfl, rfl⟩
      | ⟨t, g, who, left, said, work, -, rfl, hw⟩⟩ := Pass.calls_of_step hs
    · exact ⟨rfl, rfl⟩
    · exact ⟨rfl, hscript hw⟩
  | drop h' p => exact (Drop.calls_of_step hs).elim

theorem drops_resume (f : Frame σ) (r : Reply) : (f.resume r).drops = f.drops := by
  cases f <;> rfl

end Frame

/-- The calls of a thread drop no reference that they did not take. -/
theorem Thread.counted_step {hub hub' : Hub σ} {t t' : Thread σ}
    (hf : ∀ f below, t.stack = f :: below → f.Orderly hub)
    (hstays : ∀ f ∈ t.stack, f.drops = false) (others : HandlerId → Nat)
    (hcounted : ∀ h, others h + t.stack.countP (Frame.refers h) ≤ hub.references h)
    (hr : t.step hub = .ran hub' t') :
    (∀ h, others h + t'.stack.countP (Frame.refers h) ≤ hub'.references h)
      ∧ ∀ f ∈ t'.stack, f.drops = false := by
  obtain ⟨stack, reply⟩ := t
  rcases stack with _ | ⟨f, below⟩
  · simp [Thread.step] at hr
  have hdrops := hstays f List.mem_cons_self
  have hbelow : ∀ g ∈ below, g.drops = false := fun g hg => hstays g (List.mem_cons_of_mem _ hg)
  have hcount : ∀ (g : Frame σ) (l : List (Frame σ)) h,
      (g :: l).countP (Frame.refers h) = l.countP (Frame.refers h) + (g.refers h).toNat := by
    intro g l h
    rw [List.countP_cons]
    cases g.refers h <;> rfl
  have hall : ∀ h, others h + below.countP (Frame.refers h) + (f.refers h).toNat
      ≤ hub.references h := fun h => by
    rw [Nat.add_assoc, ← hcount]
    exact hcounted h
  have hlet : ∀ h c, f.letsGo h = true → c < hub.references h := fun h c hl => by
    rw [Frame.letsGo_of_drops hdrops] at hl
    cases hl
  have hused : ∀ h, f.refers h = true → 0 < hub.references h := fun h hrf => by
    have := hall h
    simp only [hrf, Bool.toNat_true] at this
    omega
  rcases hstep : f.step hub with ⟨hub₁, f'⟩ | ⟨hub₁, f', inner⟩ | ⟨hub₁, r⟩ | deadline <;>
    simp only [Thread.step, hstep, reduceCtorEq] at hr
  · cases hr
    refine ⟨fun h => ?_, fun g hg => ?_⟩
    · rw [hcount, ← Nat.add_assoc]
      exact Frame.counted_goes (hf f below rfl) hstep hused (hlet h _) (hall h)
    · rcases List.mem_cons.1 hg with rfl | hg
      · exact Frame.drops_goes hstep hdrops
      · exact hbelow g hg
  · cases hr
    refine ⟨fun h => ?_, fun g hg => ?_⟩
    · obtain ⟨rfl, hcaller, hinner, -⟩ := Frame.calls_refers hstep h
      rw [hcount, hcount, hcaller, hinner]
      have := hall h
      simp only [Bool.toNat_false]
      omega
    · obtain ⟨hcaller, hinner⟩ := Frame.drops_calls hstep
      rcases List.mem_cons.1 hg with rfl | hg
      · exact hinner
      · rcases List.mem_cons.1 hg with rfl | hg
        · exact hcaller
        · exact hbelow g hg
  · have hends := fun h => Frame.counted_ends (hf f below rfl) hstep (hlet h _) (hall h)
    rcases below with _ | ⟨g, rest⟩ <;> cases hr
    · exact ⟨hends, fun g hg => by cases hg⟩
    · refine ⟨fun h => ?_, fun g' hg' => ?_⟩
      · rw [hcount, Frame.refers_resume, ← hcount]
        exact hends h
      · rcases List.mem_cons.1 hg' with rfl | hg'
        · rw [Frame.drops_resume]
          exact hbelow g List.mem_cons_self
        · exact hbelow g' (List.mem_cons_of_mem _ hg')

/-- How a machine stands while a call that was started last works alone, in the state `t` of its
thread: what there was at the start is there. -/
structure Sitting (start s : Machine σ) (t : Thread σ) : Prop where
  orderly : s.Orderly
  handlers : ∀ h, s.hub.handler? h = start.hub.handler? h
  length : s.hub.depots.length = start.hub.depots.length
  threads : s.threads = start.threads ++ [t]
  counted : ∀ h, start.hub.references h + t.stack.countP (Frame.refers h) ≤ s.hub.references h
  stays : ∀ f ∈ t.stack, f.drops = false

namespace Sitting

variable {start s : Machine σ} {t t' : Thread σ} {hub' : Hub σ}

theorem begins (ho : start.Orderly) {a : Activity} (ha : (a.frame : Frame σ).drops = false) :
    Sitting start (start.apply (.start a)) (.start a) where
  orderly := Machine.orderly_move ho (show (Move.event (.start a)).Lawful start.hub from trivial)
  handlers _ := rfl
  length := rfl
  threads := rfl
  counted h := by
    simp only [Thread.start, List.countP_cons, List.countP_nil, (Frame.frame_refers a h).1]
    exact Nat.le_refl _
  stays f hf := List.mem_singleton.1 hf ▸ ha

theorem thread (hs : Sitting start s t) : s.threads[start.threads.length]? = some t := by
  simp [hs.threads]

theorem isLive (hs : Sitting start s t) {h : HandlerId} (hl : start.hub.isLive h = true) :
    s.hub.isLive h = true := by
  rw [Hub.isLive_iff] at hl ⊢
  have := hs.counted h
  omega

theorem elapse (hs : Sitting start s t) (n : Nat) : Sitting start (s.apply (.elapse n)) t where
  orderly :=
    Machine.orderly_move hs.orderly (show (Move.event (.elapse n)).Lawful s.hub from trivial)
  handlers := hs.handlers
  length := hs.length
  threads := hs.threads
  counted := hs.counted
  stays := hs.stays

/-- The step of a call whose thread goes on. -/
theorem step (hs : Sitting start s t) (hr : t.step s.hub = .ran hub' t') :
    s.apply (.step start.threads.length) = ⟨hub', start.threads ++ [t']⟩
      ∧ Sitting start (s.apply (.step start.threads.length)) t' := by
  have happly : s.apply (.step start.threads.length) = ⟨hub', start.threads ++ [t']⟩ := by
    simp [Machine.apply, Machine.progress, hr, hs.threads]
  have horderly : (s.apply (.step start.threads.length)).Orderly :=
    Machine.orderly_move hs.orderly
      (show (Move.event (.step start.threads.length)).Lawful s.hub from trivial)
  have hkeeps := Machine.keeps_step hs.orderly start.threads.length
  have htop : ∀ f below, t.stack = f :: below → f.Orderly s.hub := fun f below hf =>
    hs.orderly.frames _ f (Machine.frameAt_top hs.thread hf)
  obtain ⟨hcounted, hstays⟩ := Thread.counted_step htop hs.stays _ hs.counted hr
  exact ⟨happly, horderly, fun h => (hkeeps.handlers h).trans (hs.handlers h),
    hkeeps.length.trans hs.length, by rw [happly], by rw [happly]; exact hcounted, hstays⟩

/-- What a move does in a sitting: time goes by, the call does a step, or nothing happens. -/
theorem move (hs : Sitting start s t) {mv : Move σ}
    (hm : mv.isAlone start.threads.length = true) :
    (∃ n, s.move mv = s.apply (.elapse n) ∧ Sitting start (s.move mv) t)
      ∨ s.move mv = s
      ∨ ∃ hub' t', t.step s.hub = .ran hub' t' ∧ s.move mv = ⟨hub', start.threads ++ [t']⟩
        ∧ Sitting start (s.move mv) t' := by
  cases mv with
  | event e =>
    cases e with
    | start | build => cases hm
    | elapse n => exact .inl ⟨n, rfl, hs.elapse n⟩
    | step j =>
      obtain rfl : j = start.threads.length := by simpa [Move.isAlone] using hm
      rcases hr : t.step s.hub with ⟨hub', t'⟩ | deadline | _
      · obtain ⟨happly, hnext⟩ := hs.step hr
        exact .inr (.inr ⟨hub', t', rfl, happly, hnext⟩)
      all_goals
        refine .inr (.inl ?_)
        simp [Machine.move, Machine.apply, Machine.progress, hs.thread, hr]
  | openDepot | enlist | rearrange | reform | disturb => cases hm

/-- A sitting goes on as one. -/
theorem after (hs : Sitting start s t) (moves : List (Move σ))
    (hm : ∀ mv ∈ moves, mv.isAlone start.threads.length = true) :
    ∃ t', Sitting start (s.after moves) t' := by
  induction moves generalizing s t with
  | nil => exact ⟨t, hs⟩
  | cons mv moves ih =>
    have hrest := fun mv' hmv' => hm mv' (List.mem_cons_of_mem _ hmv')
    rcases hs.move (hm mv List.mem_cons_self) with ⟨n, -, hnext⟩ | hsame | ⟨hub', t', -, -, hnext⟩
    · exact ih hnext hrest
    · exact ih (hsame ▸ hs) hrest
    · exact ih hnext hrest

/-- When the call of a sitting is taken away, things are in good order still. -/
theorem orderly_without (hs : Sitting start s t) :
    (⟨s.hub, start.threads⟩ : Machine σ).Orderly := by
  refine ⟨hs.orderly.hub, fun p f hf => hs.orderly.frames p f ?_⟩
  have hsplit := Machine.frameAt_start ⟨s.hub, start.threads⟩ t p
  have hsame : (⟨s.hub, start.threads ++ [t]⟩ : Machine σ) = s := by rw [← hs.threads]
  rw [hsame] at hsplit
  rw [hsplit, if_neg, hf]
  intro hlast
  obtain ⟨t', ht', -⟩ := Option.bind_eq_some_iff.1 hf
  rw [hlast, List.getElem?_eq_none (Nat.le_refl _)] at ht'
  cases ht'

end Sitting

namespace Machine

theorem exists_moves_work (fuel : Nat) (s : Machine σ) (i : Nat) :
    ∃ moves, (∀ mv ∈ moves, mv.isAlone i = true) ∧ s.work fuel i = s.after moves := by
  induction fuel generalizing s with
  | zero => exact ⟨[], by simp, rfl⟩
  | succ fuel ih =>
    unfold work
    split
    · obtain ⟨moves, hm, hafter⟩ := ih (s.advance i)
      refine ⟨.event (.elapse 1) :: .event (.step i) :: moves, ?_, hafter⟩
      simpa [Move.isAlone] using hm
    · exact ⟨[], by simp, rfl⟩

/-- A call that is carried out at once is worked on in one sitting. -/
theorem exists_moves_finish (waits fuel : Nat) (s : Machine σ) (i : Nat) :
    ∃ moves, (∀ mv ∈ moves, mv.isAlone i = true) ∧ s.finish waits fuel i = s.after moves := by
  induction waits generalizing s with
  | zero => exact ⟨[], by simp, rfl⟩
  | succ waits ih =>
    obtain ⟨moves, hm, hwork⟩ := exists_moves_work fuel s i
    unfold finish
    dsimp only
    split
    · rename_i deadline hp
      obtain ⟨moves', hm', hafter⟩ :=
        ih ((s.work fuel i).apply (.elapse (deadline - (s.work fuel i).hub.clock)))
      refine ⟨moves ++ .event (.elapse (deadline - (s.work fuel i).hub.clock)) :: moves', ?_, ?_⟩
      · intro mv hmv
        rcases List.mem_append.1 hmv with hmv | hmv
        · exact hm mv hmv
        · rcases List.mem_cons.1 hmv with rfl | hmv
          · rfl
          · exact hm' mv hmv
      · rw [hafter, after_append, ← hwork]
        rfl
    · exact ⟨moves, hm, hwork⟩

/-- What carrying an activity out at once leaves is the hub of its sitting. -/
theorem exists_sitting_call {s : Machine σ} (ho : s.Orderly) {a : Activity}
    (ha : (a.frame : Frame σ).drops = false) :
    ∃ u t, Sitting s u t ∧ s.call a = (⟨u.hub, s.threads⟩, t.reply) := by
  obtain ⟨moves, hm, hafter⟩ :=
    exists_moves_finish patience patience (s.apply (.start a)) s.threads.length
  obtain ⟨t, hs⟩ := (Sitting.begins ho ha).after moves hm
  rw [← hafter] at hs
  refine ⟨_, t, hs, ?_⟩
  simp only [call, reply?, hs.thread, Option.bind_some]
  rw [hs.threads, List.take_left]

end Machine

end Collate
