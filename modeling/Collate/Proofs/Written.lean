import Collate.Console
import Collate.Proofs.Gathering

/-!
# What a stream receives

What a sink received and what the buffer before it holds make up one text, and each operation of a
buffer before a sink that never fails adds to that text just what it was given
(`Buffer.adds_writeAll`). So a consumer that is not poisoned adds the text of each payload, and its
newline, and holds nothing back (`Consumer.onMessage_of_faithful`): as a channel it takes every
aggregate (`Consumer.takes_channel`).
-/

namespace Collate

variable {ω σ : Type}

/-- A sink that never fails: of the bytes it is offered it takes the first ones, at least one, and
`received` shows all that it took. -/
structure Sink.Faithful (sink : Sink ω) (received : ω → List UInt8) : Prop where
  write : ∀ w b bs, ∃ n w', sink.write w (b :: bs) = (w', .accepted (n + 1)) ∧ n ≤ bs.length
    ∧ received w' = received w ++ b :: bs.take n
  flush : ∀ w, ∃ w', sink.flush w = (w', none) ∧ received w' = received w

theorem Sink.faithful_text : Sink.text.Faithful id where
  write w b bs := ⟨bs.length, w ++ b :: bs, rfl, Nat.le_refl _, by simp⟩
  flush w := ⟨w, rfl, rfl⟩

/-! ## Buffers -/

namespace Buffer

variable {sink : Sink ω} {received : ω → List UInt8}

/-- What the sink received and what is held. -/
def text (received : ω → List UInt8) (b : Buffer ω) : List UInt8 := received b.target ++ b.held

theorem push_of_faithful (hs : sink.Faithful received) (idle : String) :
    ∀ (fuel : Nat) (w : ω) (bs : List UInt8), bs.length ≤ fuel →
      ∃ w', push sink idle fuel w bs = (w', [], .done) ∧ received w' = received w ++ bs
  | fuel, w, [], _ => ⟨w, by cases fuel <;> rfl, by simp⟩
  | fuel + 1, w, b :: bs, hfuel => by
    obtain ⟨n, w', hwrite, -, hreceived⟩ := hs.write w b bs
    obtain ⟨w'', hpush, hreceived'⟩ := push_of_faithful hs idle fuel w' (bs.drop n)
      (by simp only [List.length_cons, List.length_drop] at hfuel ⊢; omega)
    refine ⟨w'', by simp only [push, hwrite, hpush], ?_⟩
    rw [hreceived', hreceived, List.append_assoc, List.cons_append, List.take_append_drop]

theorem drain_of_faithful (hs : sink.Faithful received) (b : Buffer ω) :
    ∃ b', b.drain sink = (b', .done) ∧ b'.held = [] ∧ b'.text received = b.text received := by
  obtain ⟨w, hpush, hreceived⟩ := push_of_faithful hs "failed to write the buffered data"
    b.held.length b.target b.held (Nat.le_refl _)
  exact ⟨{ b with target := w, held := [] }, by simp only [drain, hpush], rfl,
    by simp [text, hreceived]⟩

/-- A piece that goes out directly does so past an empty buffer, or is empty itself. -/
theorem adds_place (hs : sink.Faithful received) (b : Buffer ω) (piece : List UInt8)
    (hdirect : b.capacity ≤ piece.length → b.held = [] ∨ piece = []) :
    ∃ b', b.place sink piece = (b', .done) ∧ b'.text received = b.text received ++ piece := by
  unfold place
  split_ifs with hcap
  · obtain ⟨w, hpush, hreceived⟩ := push_of_faithful hs "failed to write whole buffer"
      piece.length b.target piece (Nat.le_refl _)
    refine ⟨{ b with target := w }, by simp only [direct, hpush], ?_⟩
    rcases hdirect hcap with hnil | hnil <;> simp [text, hreceived, hnil]
  · exact ⟨_, rfl, by simp [text, keep]⟩

theorem adds_write (hs : sink.Faithful received) (b : Buffer ω) (piece : List UInt8) :
    ∃ b', b.write sink piece = (b', .done) ∧ b'.text received = b.text received ++ piece := by
  unfold write
  split_ifs with hfits hover
  · exact ⟨_, rfl, by simp [text, keep]⟩
  · obtain ⟨b', hdrain, hnil, htext⟩ := drain_of_faithful hs b
    simp only [hdrain]
    rw [← htext]
    exact adds_place hs b' piece fun _ => .inl hnil
  · refine adds_place hs b piece fun hcap => ?_
    -- the free space is the whole buffer, or there is none at all
    have hroom : piece.length = b.capacity - b.held.length := by
      unfold room at hfits hover
      omega
    by_cases hheld : b.held = []
    · exact .inl hheld
    · have hpos := List.length_pos_of_ne_nil hheld
      exact .inr (List.length_eq_zero_iff.1 (by omega))

theorem adds_writeAll (hs : sink.Faithful received) (pieces : List (List UInt8)) (b : Buffer ω) :
    ∃ b', b.writeAll sink pieces = (b', .done)
      ∧ b'.text received = b.text received ++ pieces.flatten := by
  induction pieces generalizing b with
  | nil => exact ⟨b, rfl, by simp⟩
  | cons piece pieces ih =>
    obtain ⟨b', hwrite, htext⟩ := adds_write hs b piece
    obtain ⟨b'', hrest, htext'⟩ := ih b'
    exact ⟨b'', by simp only [writeAll, hwrite, hrest], by simp [htext', htext]⟩

theorem flush_of_faithful (hs : sink.Faithful received) (b : Buffer ω) :
    ∃ b', b.flush sink = (b', .done) ∧ b'.held = [] ∧ received b'.target = b.text received := by
  obtain ⟨b', hdrain, hnil, htext⟩ := drain_of_faithful hs b
  obtain ⟨w, hflush, hreceived⟩ := hs.flush b'.target
  refine ⟨{ b' with target := w }, by simp only [flush, hdrain, hflush], hnil, ?_⟩
  rw [← htext, text, hnil, List.append_nil, hreceived]

end Buffer

/-! ## Texts -/

theorem Utf8.bytes_append (a b : String) : bytes (a ++ b) = bytes a ++ bytes b := by
  simp [bytes, encode]

theorem Utf8.bytes_join (texts : List String) :
    bytes (String.join texts) = (texts.map bytes).flatten := by
  induction texts with
  | nil => rfl
  | cons text texts ih => rw [String.join_cons, bytes_append, ih, List.map_cons, List.flatten_cons]

namespace Payload

/-- All items but the first stand behind a comma. -/
theorem join_itemPieces (first : Bool) (items : List Payload) :
    String.join (itemPieces first items)
      = (if first ∨ items = [] then "" else ", ") ++ ", ".intercalate (items.map display) := by
  induction items generalizing first with
  | nil => cases first <;> rfl
  | cons p items ih =>
    have hjoin : String.join (itemPieces first (p :: items))
        = (if first then "" else ", ") ++ p.display ++ String.join (itemPieces false items) := by
      cases first <;> simp [itemPieces, display, String.append_assoc]
    rw [hjoin, ih]
    rcases items with _ | ⟨q, items⟩
    · cases first <;> simp
    · have hcons : ", ".intercalate ((p :: q :: items).map display)
          = p.display ++ ", " ++ ", ".intercalate ((q :: items).map display) :=
        String.intercalate_cons_of_ne_nil (by simp)
      rw [hcons]
      cases first <;> simp [String.append_assoc]

theorem display_list (items : List Payload) :
    (Payload.list items).display = "[" ++ ", ".intercalate (items.map display) ++ "]" := by
  have hpieces : (Payload.list items).pieces = "[" :: (itemPieces true items ++ ["]"]) := rfl
  rw [display, hpieces, String.join_cons, String.join_append, join_itemPieces]
  simp [String.append_assoc]

end Payload

/-! ## Consumers -/

namespace Consumer

variable {sink : Sink ω} {received : ω → List UInt8}

/-- What a payload is written as, with its newline if there is to be one. -/
def line (newline : Bool) (p : Payload) : String := p.display ++ if newline then "\n" else ""

theorem flatten_pieces (c : Consumer ω) (p : Payload) :
    (c.pieces p).flatten = Utf8.bytes (line c.appendsNewline p) := by
  unfold pieces line Payload.display
  rw [Utf8.bytes_append, Utf8.bytes_join, List.flatten_append]
  cases c.appendsNewline <;> rfl

/-- A consumer that works and holds nothing back. -/
structure Ready (c : Consumer ω) : Prop where
  held : c.buffer.held = []
  sound : c.isPoisoned = false

theorem onMessage_of_faithful (hs : sink.Faithful received) {c : Consumer ω} (hc : c.Ready)
    {m : Message} (hm : m.payload.isNull = false) :
    ∃ c', c.onMessage sink m = (c', .returned (.ok ()), []) ∧ c'.Ready
      ∧ c'.appendsNewline = c.appendsNewline
      ∧ received c'.buffer.target
        = received c.buffer.target ++ Utf8.bytes (line c.appendsNewline m.payload) := by
  obtain ⟨b, hwrite, htext⟩ := Buffer.adds_writeAll hs (c.pieces m.payload) c.buffer
  obtain ⟨b', hflush, hnil, hreceived⟩ := Buffer.flush_of_faithful hs b
  refine ⟨{ c with buffer := b', isPoisoned := false }, ?_, ⟨hnil, rfl⟩, rfl, ?_⟩
  · simp [onMessage, hm, hc.sound, emit, hwrite, hflush, outcome]
  · rw [hreceived, htext, Buffer.text, hc.held, List.append_nil, flatten_pieces]

/-- What is sent to a consumer in front of a sink that never fails is what the sink receives, line
by line. -/
theorem takes_channel (hs : sink.Faithful received) {part : Part σ (Consumer ω)}
    (hpart : ∀ c o, part.read (part.write c o) = c) (newline : Bool) (start : List UInt8) :
    (channel sink part).Takes (fun o cs => (part.read o).Ready
      ∧ (part.read o).appendsNewline = newline
      ∧ received (part.read o).buffer.target
        = start ++ Utf8.bytes (String.join (cs.map fun c => line newline c.payload))) 1 := by
  rintro o cs m items ⟨hready, hnewline, hstart⟩ hpayload
  obtain ⟨c', hsend, hready', hnewline', hreceived⟩ :=
    onMessage_of_faithful hs hready (m := m) (by rw [hpayload]; rfl)
  unfold channel Part.use
  refine .act ?_
  simp only [hsend]
  refine .done ⟨rfl, ?_⟩
  rw [hpart, hreceived, hstart, hnewline', hnewline]
  refine ⟨hready', rfl, ?_⟩
  rw [List.map_append, String.join_append, Utf8.bytes_append, List.append_assoc]
  simp [Message.payload]

end Consumer

end Collate
