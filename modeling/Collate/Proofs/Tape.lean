import Collate.Proofs.Written
import Mathlib.Data.List.Forall2

/-!
# What a failing stream took

A sink may take a part of what it is offered, nothing at all, or fail, and so may a flush. What it
took and what the buffer holds still make up one text, and a write adds to that text a first part
of what it was given (`Buffer.Adds`): all of it if it is done. Over any use of a consumer the text
is then made of such parts, one for each message and in their order (`bytes_kept_in_order`); a part
that was left in the buffer goes out before those of later messages.
-/

namespace Collate

variable {ω : Type}

/-- A sink that never panics. `received` shows the bytes it took, the first ones of each offer, and
`flushes` counts the flushes that did not fail. -/
structure Sink.Honest (sink : Sink ω) (received : ω → List UInt8) (flushes : ω → Nat) : Prop where
  write : ∀ w b bs,
    (∃ n w', sink.write w (b :: bs) = (w', .accepted n) ∧ n ≤ (b :: bs).length
      ∧ received w' = received w ++ (b :: bs).take n ∧ flushes w' = flushes w)
    ∨ ∃ reason w', sink.write w (b :: bs) = (w', .failed reason)
      ∧ received w' = received w ∧ flushes w' = flushes w
  flush : ∀ w, ∃ reason? w', sink.flush w = (w', reason?) ∧ received w' = received w
    ∧ flushes w' = flushes w + if reason? = none then 1 else 0

/-- A sink beside a tape of the bytes it took and a count of its flushes. -/
def Sink.taped (sink : Sink ω) : Sink (ω × List UInt8 × Nat) where
  write s bs :=
    match sink.write s.1 bs with
    | (w, .accepted n) => ((w, s.2.1 ++ bs.take n, s.2.2), .accepted n)
    | (w, taken) => ((w, s.2), taken)
  flush s :=
    match sink.flush s.1 with
    | (w, none) => ((w, s.2.1, s.2.2 + 1), none)
    | (w, some reason) => ((w, s.2), some reason)

/-- Every sink that does not panic, and takes no more than it is offered, is honest about its
tape. -/
theorem Sink.honest_taped {sink : Sink ω}
    (hsink : ∀ w b bs, (∃ n ≤ (b :: bs).length, (sink.write w (b :: bs)).2 = .accepted n)
      ∨ ∃ reason, (sink.write w (b :: bs)).2 = .failed reason) :
    sink.taped.Honest (·.2.1) (·.2.2) where
  write s b bs := by
    rcases hwrite : sink.write s.1 (b :: bs) with ⟨w, taken⟩
    have htaken := hsink s.1 b bs
    rw [hwrite] at htaken
    obtain ⟨n, hn, rfl⟩ | ⟨reason, rfl⟩ := htaken
    · exact .inl ⟨n, (w, s.2.1 ++ (b :: bs).take n, s.2.2), by simp only [taped, hwrite], hn, rfl,
        rfl⟩
    · exact .inr ⟨reason, (w, s.2), by simp only [taped, hwrite], rfl, rfl⟩
  flush s := by
    rcases hflush : sink.flush s.1 with ⟨w, _ | reason⟩
    · exact ⟨none, (w, s.2.1, s.2.2 + 1), by simp only [taped, hflush], rfl, rfl⟩
    · exact ⟨some reason, (w, s.2), by simp only [taped, hflush], rfl, rfl⟩

/-! ## Buffers -/

namespace Buffer

variable {sink : Sink ω} {received : ω → List UInt8} {flushes : ω → Nat}

/-- What becomes of bytes offered to a sink until it took them all: it takes the first ones, and
what it does not take is left, nothing if that is done. -/
structure Passes (received : ω → List UInt8) (flushes : ω → Nat) (w : ω) (bs : List UInt8)
    (r : ω × List UInt8 × Flow) : Prop where
  part : ∃ part, bs = part ++ r.2.1 ∧ received r.1 = received w ++ part
  flushes : flushes r.1 = flushes w
  returns : r.2.2 ≠ .panicked
  whole : r.2.2 = .done → r.2.1 = []

theorem passes_push (hs : sink.Honest received flushes) (idle : String) :
    ∀ (fuel : Nat) (w : ω) (bs : List UInt8), bs.length ≤ fuel →
      Passes received flushes w bs (push sink idle fuel w bs)
  | fuel, w, [], _ => by
    have hpush : push sink idle fuel w [] = (w, [], .done) := by cases fuel <;> rfl
    rw [hpush]
    exact ⟨⟨[], rfl, by simp⟩, rfl, Flow.noConfusion, fun _ => rfl⟩
  | fuel + 1, w, b :: bs, hfuel => by
    obtain ⟨n, w', hwrite, hn, hreceived, hflushes⟩ | ⟨reason, w', hwrite, hreceived, hflushes⟩ :=
      hs.write w b bs
    · rcases n with _ | n
      · simp only [push, hwrite]
        exact ⟨⟨[], rfl, by simpa using hreceived⟩, hflushes, Flow.noConfusion, Flow.noConfusion⟩
      · simp only [push, hwrite]
        have hrest := passes_push hs idle fuel w' (bs.drop n)
          (by simp only [List.length_cons, List.length_drop] at hfuel ⊢; omega)
        obtain ⟨part, hpart, htook⟩ := hrest.part
        refine ⟨⟨b :: bs.take n ++ part, ?_, ?_⟩, hrest.flushes.trans hflushes, hrest.returns,
          hrest.whole⟩
        · rw [List.cons_append, List.cons_append, List.append_assoc, ← hpart,
            List.take_append_drop]
        · rw [htook, hreceived, List.append_assoc, List.take_succ_cons]
    · simp only [push, hwrite]
      exact ⟨⟨[], rfl, by simpa using hreceived⟩, hflushes, Flow.noConfusion, Flow.noConfusion⟩

/-- What an operation does that is given bytes: it adds a first part of them to the text, all of
them if it is done. -/
structure Adds (received : ω → List UInt8) (flushes : ω → Nat) (b : Buffer ω) (bs : List UInt8)
    (r : Buffer ω × Flow) : Prop where
  part : ∃ part, part <+: bs ∧ r.1.text received = b.text received ++ part
    ∧ (r.2 = .done → part = bs)
  flushes : flushes r.1.target = flushes b.target
  returns : r.2 ≠ .panicked

namespace Adds

variable {b b' : Buffer ω} {bs cs : List UInt8} {flow : Flow} {r : Buffer ω × Flow}

theorem followed (h : Adds received flushes b bs (b', .done))
    (hr : Adds received flushes b' cs r) : Adds received flushes b (bs ++ cs) r := by
  obtain ⟨_, -, htext, hdone⟩ := h.part
  obtain ⟨part, hpart, htext', hdone'⟩ := hr.part
  obtain rfl := hdone rfl
  refine ⟨⟨_ ++ part, (List.prefix_append_right_inj _).2 hpart, ?_, fun hflow => ?_⟩,
    hr.flushes.trans h.flushes, hr.returns⟩
  · rw [htext', htext, List.append_assoc]
  · rw [hdone' hflow]

theorem stopped (h : Adds received flushes b bs (b', flow)) (hflow : flow ≠ .done)
    (cs : List UInt8) : Adds received flushes b (bs ++ cs) (b', flow) := by
  obtain ⟨part, hpart, htext, -⟩ := h.part
  exact ⟨⟨part, hpart.trans (List.prefix_append bs cs), htext, fun h => absurd h hflow⟩, h.flushes,
    h.returns⟩

theorem keep (b : Buffer ω) (piece : List UInt8) :
    Adds received flushes b piece (b.keep piece, .done) :=
  ⟨⟨piece, List.prefix_rfl, by simp [text, Buffer.keep], fun _ => rfl⟩, rfl, Flow.noConfusion⟩

end Adds

theorem drain_adds (hs : sink.Honest received flushes) (b : Buffer ω) :
    Adds received flushes b [] (b.drain sink)
      ∧ ((b.drain sink).2 = .done → (b.drain sink).1.held = []) := by
  have hpass := passes_push hs "failed to write the buffered data" b.held.length b.target b.held
    (Nat.le_refl _)
  obtain ⟨part, hheld, htook⟩ := hpass.part
  refine ⟨⟨⟨[], List.prefix_rfl, ?_, fun _ => rfl⟩, hpass.flushes, hpass.returns⟩, hpass.whole⟩
  -- what the sink left unread is held again, behind what it took
  have htext := congrArg (· ++ (b.drain sink).1.held) htook
  refine htext.trans ?_
  rw [List.append_nil, List.append_assoc]
  exact congrArg (received b.target ++ ·) hheld.symm

/-- A piece that goes out directly does so past an empty buffer, or is empty itself. -/
theorem place_adds (hs : sink.Honest received flushes) (b : Buffer ω) (piece : List UInt8)
    (hdirect : b.capacity ≤ piece.length → b.held = [] ∨ piece = []) :
    Adds received flushes b piece (b.place sink piece) := by
  unfold place
  split_ifs with hcap
  · have hpass := passes_push hs "failed to write whole buffer" piece.length b.target piece
      (Nat.le_refl _)
    obtain ⟨part, hpiece, htook⟩ := hpass.part
    refine ⟨⟨part, ⟨_, hpiece.symm⟩, ?_, fun hflow => ?_⟩, hpass.flushes, hpass.returns⟩
    · have htext : (b.direct sink piece).1.text received
          = received b.target ++ part ++ b.held := congrArg (· ++ b.held) htook
      obtain hnil | rfl := hdirect hcap
      · rw [htext, text, hnil, List.append_nil, List.append_nil]
      · obtain rfl : part = [] := (List.append_eq_nil_iff.1 hpiece.symm).1
        rw [htext, text, List.append_nil, List.append_nil]
    · rw [hpass.whole hflow, List.append_nil] at hpiece
      exact hpiece.symm
  · exact .keep b piece

theorem write_adds (hs : sink.Honest received flushes) (b : Buffer ω) (piece : List UInt8) :
    Adds received flushes b piece (b.write sink piece) := by
  unfold write
  split_ifs with hfits hover
  · exact .keep b piece
  · obtain ⟨hdrain, hnil⟩ := drain_adds hs b
    rcases hflow : b.drain sink with ⟨b', flow⟩
    rw [hflow] at hdrain hnil
    cases flow with
    | done => exact hdrain.followed (place_adds hs b' piece fun _ => .inl (hnil rfl))
    | failed reason => exact hdrain.stopped (by simp) piece
    | panicked => exact absurd rfl hdrain.returns
  · refine place_adds hs b piece fun hcap => ?_
    -- the free space is the whole buffer, or there is none at all
    have hroom : piece.length = b.capacity - b.held.length := by
      unfold room at hfits hover
      omega
    by_cases hheld : b.held = []
    · exact .inl hheld
    · have hpos := List.length_pos_of_ne_nil hheld
      exact .inr (List.length_eq_zero_iff.1 (by omega))

theorem writeAll_adds (hs : sink.Honest received flushes) (pieces : List (List UInt8))
    (b : Buffer ω) : Adds received flushes b pieces.flatten (b.writeAll sink pieces) := by
  induction pieces generalizing b with
  | nil => exact ⟨⟨[], List.prefix_rfl, by simp [writeAll], fun _ => rfl⟩, rfl, Flow.noConfusion⟩
  | cons piece pieces ih =>
    have hwrite := write_adds hs b piece
    rw [List.flatten_cons, writeAll]
    rcases hflow : b.write sink piece with ⟨b', flow⟩
    rw [hflow] at hwrite
    cases flow with
    | done => exact hwrite.followed (ih b')
    | failed reason => exact hwrite.stopped (by simp) _
    | panicked => exact absurd rfl hwrite.returns

/-- A flush adds nothing to the text. One that is done leaves nothing in the buffer and counts. -/
theorem flush_keeps (hs : sink.Honest received flushes) (b : Buffer ω) :
    (b.flush sink).1.text received = b.text received ∧ (b.flush sink).2 ≠ .panicked
      ∧ ((b.flush sink).2 = .done → (b.flush sink).1.held = []
        ∧ flushes (b.flush sink).1.target = flushes b.target + 1) := by
  obtain ⟨hdrain, hnil⟩ := drain_adds hs b
  obtain ⟨part, hpart, htext, -⟩ := hdrain.part
  obtain rfl := List.prefix_nil.1 hpart
  rw [List.append_nil] at htext
  have hflushes := hdrain.flushes
  unfold flush
  rcases hdone : b.drain sink with ⟨b', flow⟩
  rw [hdone] at hdrain hnil htext hflushes
  cases flow with
  | done =>
    obtain ⟨reason?, w, hflush, hreceived, hcount⟩ := hs.flush b'.target
    simp only [hflush]
    refine ⟨?_, ?_, fun hflow => ⟨hnil rfl, ?_⟩⟩
    · rw [← htext, text, text, hreceived]
    · cases reason? <;> exact Flow.noConfusion
    · obtain rfl : reason? = none := by
        cases reason? with
        | none => rfl
        | some reason => cases hflow
      rw [hcount, if_pos rfl, hflushes]
  | failed reason => exact ⟨htext, Flow.noConfusion, Flow.noConfusion⟩
  | panicked => exact absurd rfl hdrain.returns

end Buffer

/-! ## Consumers -/

namespace Consumer

variable {sink : Sink ω} {received : ω → List UInt8} {flushes : ω → Nat}

/-- What is done with a consumer: it is given a message, or its newlines are switched. -/
inductive Use where
  | message (m : Message)
  | newline (on : Bool)

def use (sink : Sink ω) (c : Consumer ω) : Use → Consumer ω
  | .message m => (c.onMessage sink m).1
  | .newline on => c.setNewline on

def after (sink : Sink ω) (c : Consumer ω) (uses : List Use) : Consumer ω :=
  uses.foldl (use sink) c

/-- What a consumer has to write for a message. -/
def due (c : Consumer ω) (m : Message) : List UInt8 :=
  if m.payload.isNull then [] else Utf8.bytes (line c.appendsNewline m.payload)

/-- A message given to a consumer: what it had to write, and what it answered. -/
structure Delivery where
  due : List UInt8
  reply : Attempt (Except StreamError Unit)

def Delivery.isOk (d : Delivery) : Prop := d.reply = .returned (.ok ())

/-- What a delivery added to the text: a first part of what was due, all of it if that went
well. -/
def Delivery.Adds (d : Delivery) (part : List UInt8) : Prop :=
  part <+: d.due ∧ (d.isOk → part = d.due)

def deliver (sink : Sink ω) (c : Consumer ω) (m : Message) : Delivery :=
  ⟨c.due m, (c.onMessage sink m).2.1⟩

def deliveries (sink : Sink ω) : Consumer ω → List Use → List Delivery
  | _, [] => []
  | c, .message m :: uses => c.deliver sink m :: deliveries sink (c.onMessage sink m).1 uses
  | c, .newline on :: uses => deliveries sink (c.setNewline on) uses

/-- What one message does to a consumer that is not poisoned: the text grows by a part of what was
due, and the consumer answers and stays as it is otherwise. -/
structure Serves (received : ω → List UInt8) (flushes : ω → Nat) (c : Consumer ω) (m : Message)
    (r : Consumer ω × Attempt (Except StreamError Unit) × Log.Journal) : Prop where
  adds : ∃ part, Delivery.Adds ⟨c.due m, r.2.1⟩ part
    ∧ r.1.buffer.text received = c.buffer.text received ++ part
  sound : r.1.isPoisoned = false
  answers : ∃ answer, r.2.1 = .returned answer
  flushed : m.payload.isNull = false → r.2.1 = .returned (.ok ()) →
    r.1.buffer.held = [] ∧ flushes r.1.buffer.target = flushes c.buffer.target + 1

/-- What is written with a flush at its end: a first part of it is added, and if that is done, all
of it is, nothing is held, and the flush counts. -/
theorem emit_adds (hs : sink.Honest received flushes) (b : Buffer ω)
    (pieces : List (List UInt8)) :
    (∃ part, part <+: pieces.flatten
      ∧ (emit sink b pieces).1.text received = b.text received ++ part
      ∧ ((emit sink b pieces).2 = .done → part = pieces.flatten))
    ∧ (emit sink b pieces).2 ≠ .panicked
    ∧ ((emit sink b pieces).2 = .done → (emit sink b pieces).1.held = []
      ∧ flushes (emit sink b pieces).1.target = flushes b.target + 1) := by
  have hwrite := Buffer.writeAll_adds hs pieces b
  unfold emit
  rcases hdone : b.writeAll sink pieces with ⟨b', flow⟩
  rw [hdone] at hwrite
  cases flow with
  | done =>
    obtain ⟨part, hpart, htext, hwhole⟩ := hwrite.part
    obtain ⟨htext', hreturns, hflushed⟩ := Buffer.flush_keeps hs b'
    refine ⟨⟨part, hpart, htext'.trans htext, fun _ => hwhole rfl⟩, hreturns, fun hflow => ?_⟩
    obtain ⟨hnil, hcount⟩ := hflushed hflow
    exact ⟨hnil, hcount.trans (congrArg (· + 1) hwrite.flushes)⟩
  | failed reason => exact ⟨hwrite.part, Flow.noConfusion, Flow.noConfusion⟩
  | panicked => exact absurd rfl hwrite.returns

theorem serves_onMessage (hs : sink.Honest received flushes) {c : Consumer ω}
    (hc : c.isPoisoned = false) (m : Message) :
    Serves received flushes c m (c.onMessage sink m) := by
  by_cases hnull : m.payload.isNull = true
  · have hdue : c.due m = [] := if_pos hnull
    simp only [onMessage, hnull, if_true]
    exact ⟨⟨[], ⟨List.nil_prefix, fun _ => hdue.symm⟩, (List.append_nil _).symm⟩, hc, ⟨_, rfl⟩,
      fun h => absurd (hnull.symm.trans h) Bool.noConfusion⟩
  · have hdue : c.due m = (c.pieces m.payload).flatten := by
      rw [flatten_pieces, due, if_neg hnull]
    obtain ⟨⟨part, hpart, htext, hwhole⟩, hreturns, hflushed⟩ :=
      emit_adds hs c.buffer (c.pieces m.payload)
    rw [← hdue] at hpart hwhole
    simp only [onMessage, hnull, hc, Bool.false_eq_true, if_false]
    rcases hflow : emit sink c.buffer (c.pieces m.payload) with ⟨b, flow⟩
    rw [hflow] at htext hwhole hreturns hflushed
    cases flow with
    | done =>
      exact ⟨⟨part, ⟨hpart, fun _ => hwhole rfl⟩, htext⟩, rfl, ⟨_, rfl⟩, fun _ _ => hflushed rfl⟩
    | failed reason =>
      exact ⟨⟨part, ⟨hpart, fun hok => (by cases hok)⟩, htext⟩, rfl, ⟨_, rfl⟩,
        fun _ hok => (by cases hok)⟩
    | panicked => exact absurd rfl hreturns

theorem sound_after (hs : sink.Honest received flushes) {c : Consumer ω}
    (hc : c.isPoisoned = false) (uses : List Use) : (c.after sink uses).isPoisoned = false := by
  induction uses generalizing c with
  | nil => exact hc
  | cons u uses ih =>
    refine ih ?_
    cases u with
    | message m => exact (serves_onMessage hs hc m).sound
    | newline on => exact hc

/-- Over any use of a consumer each delivery adds its part, and these parts are what every earlier
point of the use has seen the first of. -/
theorem text_after (hs : sink.Honest received flushes) (uses : List Use) {c : Consumer ω}
    (hc : c.isPoisoned = false) :
    ∃ parts, List.Forall₂ Delivery.Adds (deliveries sink c uses) parts
      ∧ ∀ before, before <+: uses →
        (c.after sink before).buffer.text received
          = c.buffer.text received ++ (parts.take (deliveries sink c before).length).flatten := by
  induction uses generalizing c with
  | nil =>
    refine ⟨[], .nil, fun before hbefore => ?_⟩
    obtain rfl := List.prefix_nil.1 hbefore
    exact (List.append_nil _).symm
  | cons u uses ih =>
    cases u with
    | message m =>
      have hm := serves_onMessage hs hc m
      obtain ⟨part, hpart, htext⟩ := hm.adds
      obtain ⟨parts, hparts, hbefore⟩ := ih hm.sound
      refine ⟨part :: parts, .cons hpart hparts, fun before hprefix => ?_⟩
      obtain rfl | ⟨rest, rfl, hrest⟩ := List.prefix_cons_iff.1 hprefix
      · exact (List.append_nil _).symm
      · exact (hbefore rest hrest).trans (by rw [htext, List.append_assoc]; rfl)
    | newline on =>
      obtain ⟨parts, hparts, hbefore⟩ := ih (c := c.setNewline on) hc
      refine ⟨parts, hparts, fun before hprefix => ?_⟩
      obtain rfl | ⟨rest, rfl, hrest⟩ := List.prefix_cons_iff.1 hprefix
      · exact (List.append_nil _).symm
      · exact hbefore rest hrest

/-- No byte is written twice, out of order, or lost for a message that was reported as written:
after each message what the sink took and what is held make up one part of every message so far,
in their order, a first part of what that message had to write and all of it if its delivery went
well. After a delivery that went well nothing is held, and the sink was flushed. -/
theorem bytes_kept_in_order (hs : sink.Honest received flushes) (name : String) (target : ω)
    (size : Nat) (uses : List Use) :
    let start := named name target size
    ∃ parts, List.Forall₂ Delivery.Adds (deliveries sink start uses) parts
      ∧ ∀ before m, before ++ [Use.message m] <+: uses →
        let c := start.after sink before
        let c' := start.after sink (before ++ [Use.message m])
        let count := (deliveries sink start (before ++ [Use.message m])).length
        received c'.buffer.target ++ c'.buffer.held = received target ++ (parts.take count).flatten
          ∧ (∃ answer, (c.deliver sink m).reply = .returned answer)
          ∧ (m.payload.isNull = false → (c.deliver sink m).isOk →
              c'.buffer.held = []
                ∧ flushes c'.buffer.target = flushes c.buffer.target + 1) := by
  intro start
  have hsound : start.isPoisoned = false := rfl
  obtain ⟨parts, hparts, htext⟩ := text_after hs uses hsound
  refine ⟨parts, hparts, fun before m hbefore => ?_⟩
  have hm := serves_onMessage hs (sound_after hs hsound before) m
  have hlast : start.after sink (before ++ [Use.message m])
      = ((start.after sink before).onMessage sink m).1 := List.foldl_append
  refine ⟨?_, hm.answers, ?_⟩
  · rw [← Buffer.text, htext _ hbefore, Buffer.text]
    simp [start, named]
  · rw [hlast]
    exact hm.flushed

end Consumer

/-- A sink that answers by a list: each entry is for one write or flush, a bound on what is taken or
a failure. It takes everything once the list is over. -/
def Sink.moody (reason : String) : Sink (List (Option Nat)) where
  write
    | [], bs => ([], .accepted bs.length)
    | none :: rest, _ => (rest, .failed reason)
    | some n :: rest, bs => (rest, .accepted (min n bs.length))
  flush
    | [] => ([], none)
    | none :: rest => (rest, some reason)
    | some _ :: rest => (rest, none)

theorem Sink.honest_moody (reason : String) : (moody reason).taped.Honest (·.2.1) (·.2.2) := by
  refine honest_taped fun w b bs => ?_
  rcases w with _ | ⟨_ | n, rest⟩
  · exact .inl ⟨_, Nat.le_refl _, rfl⟩
  · exact .inr ⟨reason, rfl⟩
  · exact .inl ⟨_, Nat.min_le_right _ _, rfl⟩

namespace Consumer

def greeting (text : String) : Message := ⟨⟨text⟩, ⟨.text text, none, 0, 0, .empty⟩⟩

/-- Two bytes of the first text get through before the sink fails; what is left of it waits in the
buffer until the second message takes it along. -/
theorem moody_kept_in_order :
    (Sink.moody "full").taped.Honest (·.2.1) (·.2.2)
      ∧ ∃ parts, List.Forall₂ Delivery.Adds
          (deliveries (Sink.moody "full").taped (named "out" ([some 2, none], [], 0) 8)
            [.message (greeting "hello"), .newline true, .message (greeting "you")]) parts
        ∧ parts.flatten = Utf8.bytes "helloyou\n" := by
  refine ⟨Sink.honest_moody "full", ?_⟩
  obtain ⟨parts, hparts, htext⟩ := bytes_kept_in_order (Sink.honest_moody "full") "out"
    ([some 2, none], [], 0) 8
    [.message (greeting "hello"), .newline true, .message (greeting "you")]
  refine ⟨parts, hparts, ?_⟩
  have hlast := (htext [.message (greeting "hello"), .newline true] (greeting "you")
    List.prefix_rfl).1
  have hall : parts.take 2 = parts := List.take_of_length_le hparts.length_eq.ge
  rw [← hall]
  exact hlast.symm

end Consumer

end Collate
