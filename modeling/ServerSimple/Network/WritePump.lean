import ServerSimple.Network.ResponsePlaces

/-! # The write pump of a connection

A write is started by a posted handler that finds no write under way, and by the completion of the
write before it. The pump is then at rest only when the next response is not there yet.
-/

namespace ServerSimple.Network
namespace HttpConnection

open Library

/-- The states of the pump: at rest with nothing to write, writing one response, or finished after
`close()`, with the flag left set so that nothing more is ever written. -/
inductive Pump (conn : HttpConnection) : Prop where
  | rest : conn.writing = false → conn.writes = [] →
      conn.written.length = conn.nextResponseSequenceId →
      conn.responses.lookup conn.nextResponseSequenceId = none → Pump conn
  | busy (r : HttpResponse) : conn.writing = true → conn.writes = [r] →
      conn.written.length = conn.nextResponseSequenceId + 1 →
      conn.responses.lookup conn.nextResponseSequenceId = some r → Pump conn
  | finished : conn.writing = true → conn.writes = [] → conn.closed = true → Pump conn

variable {conn : HttpConnection} {pending : ℕ → ℕ}

theorem pump_initial : Pump initial := .rest rfl rfl rfl rfl

theorem Pump.writes_length_le (h : Pump conn) : conn.writes.length ≤ 1 := by
  cases h with
  | rest _ hw => simp [hw]
  | busy r _ hw => simp [hw]
  | finished _ hw => simp [hw]

/-- The pump looks at five fields, and at whether the socket was closed. -/
theorem Pump.congr {conn' : HttpConnection} (h : Pump conn) (hw : conn'.writing = conn.writing)
    (hwrites : conn'.writes = conn.writes) (hwritten : conn'.written = conn.written)
    (hnext : conn'.nextResponseSequenceId = conn.nextResponseSequenceId)
    (hmap : conn'.responses = conn.responses) (hclosed : conn.closed = true → conn'.closed = true) :
    Pump conn' := by
  cases h with
  | rest h₁ h₂ h₃ h₄ =>
    apply Pump.rest (hw.trans h₁) (hwrites.trans h₂)
    · rw [hwritten, hnext, h₃]
    · rw [hmap, hnext, h₄]
  | busy r h₁ h₂ h₃ h₄ =>
    apply Pump.busy r (hw.trans h₁) (hwrites.trans h₂)
    · rw [hwritten, hnext, h₃]
    · rw [hmap, hnext, h₄]
  | finished h₁ h₂ h₃ => exact .finished (hw.trans h₁) (hwrites.trans h₂) (hclosed h₃)

theorem write_cases (conn : HttpConnection) :
    (conn.responses.lookup conn.nextResponseSequenceId = none ∧
      conn.write = { conn with writing := false }) ∨
    ∃ r, conn.responses.lookup conn.nextResponseSequenceId = some r ∧
      conn.write = { conn with
        writing := true
        writes := conn.writes ++ [r]
        written := conn.written ++ [r] } := by
  cases hlook : conn.responses.lookup conn.nextResponseSequenceId with
  | none => exact .inl ⟨rfl, by simp [write, hlook]⟩
  | some r => exact .inr ⟨r, rfl, by simp [write, hlook]⟩

/-- A write started when everything before it is written hands over the right response. -/
theorem Ordered.write (h : Ordered conn pending)
    (hlen : conn.written.length = conn.nextResponseSequenceId) : Ordered conn.write pending := by
  rcases write_cases conn with ⟨_, hw⟩ | ⟨r, hr, hw⟩
  · rw [hw]
    exact h.congr rfl rfl rfl rfl rfl rfl
  · rw [hw]
    refine ⟨h.counted, h.notAhead, h.places, h.unanswered, h.postedAnswer, h.mapAnswer, ?_⟩
    intro i r' hi
    rw [List.getElem?_append] at hi
    split_ifs at hi with hlt
    · exact h.writtenAnswer i r' hi
    · have hi' : i = conn.written.length := by
        have := (List.getElem?_eq_some_iff.mp hi).1
        simp at this
        omega
      rw [hi', Nat.sub_self, List.getElem?_cons_zero, Option.some.injEq] at hi
      rw [hi', hlen, ← hi]
      exact h.mapAnswer _ r hr

/-- A write started at rest leaves the pump at rest or busy. -/
theorem pump_write (hwrites : conn.writes = [])
    (hlen : conn.written.length = conn.nextResponseSequenceId) : Pump conn.write := by
  rcases write_cases conn with ⟨hnone, hw⟩ | ⟨r, hr, hw⟩
  · rw [hw]
    exact .rest rfl hwrites hlen hnone
  · rw [hw]
    apply Pump.busy r rfl
    · simp [hwrites]
    · simp [hlen]
    · exact hr

theorem Ordered.close (h : Ordered conn pending) : Ordered conn.close pending :=
  h.congr rfl rfl rfl rfl rfl rfl

/-! ## The handlers -/

theorem deliver_of_writing (h : conn.writing = true) (i : ℕ) (p : Posted) :
    (conn.takePosted i).deliver p = { conn with
      posted := conn.posted.eraseIdx i
      responses := emplace conn.responses p.sequenceId p.response } :=
  if_pos h

theorem deliver_of_not_writing (h : conn.writing = false) (i : ℕ) (p : Posted) :
    (conn.takePosted i).deliver p = write { conn with
      posted := conn.posted.eraseIdx i
      responses := emplace conn.responses p.sequenceId p.response } :=
  if_neg (by simp [takePosted, h])

/-- A write only touches the flag and the records of the writes. -/
theorem write_frame (conn : HttpConnection) : ∃ writing writes written,
    conn.write = { conn with writing := writing, writes := writes, written := written } := by
  rcases write_cases conn with ⟨_, hw⟩ | ⟨r, _, hw⟩
  · exact ⟨_, _, _, hw⟩
  · exact ⟨_, _, _, hw⟩

/-- Apart from what a write touches, a posted handler only adds to the map. -/
theorem deliver_frame (conn : HttpConnection) (p : Posted) : ∃ writing writes written,
    conn.deliver p = { conn with
      responses := emplace conn.responses p.sequenceId p.response
      writing := writing
      writes := writes
      written := written } := by
  unfold HttpConnection.deliver
  dsimp only
  split_ifs
  · exact ⟨_, _, _, rfl⟩
  · apply write_frame

/-- The completion of a write can also close the socket and go on to the next response. -/
theorem writeHandler_frame (conn : HttpConnection) (r : HttpResponse) (ok : Bool) :
    ∃ writing writes written closed responses nextResponseSequenceId,
      (responses = conn.responses ∨
        responses = conn.responses.erase conn.nextResponseSequenceId) ∧
      conn.writeHandler r ok = { conn with
        responses := responses
        writing := writing
        nextResponseSequenceId := nextResponseSequenceId
        closed := closed
        writes := writes
        written := written } := by
  unfold HttpConnection.writeHandler
  dsimp only
  split_ifs
  · obtain ⟨writing, writes, written, hw⟩ := write_frame { conn with
      responses := conn.responses.erase conn.nextResponseSequenceId
      nextResponseSequenceId := conn.nextResponseSequenceId + 1 }
    exact ⟨writing, writes, written, conn.closed, _, _, .inr rfl, hw⟩
  · exact ⟨_, _, _, _, _, _, .inr rfl, rfl⟩
  · exact ⟨_, _, _, _, _, _, .inl rfl, rfl⟩

theorem write_closed (conn : HttpConnection) : conn.write.closed = conn.closed := by
  obtain ⟨_, _, _, hwrite⟩ := write_frame conn
  rw [hwrite]

theorem deliver_closed (conn : HttpConnection) (p : Posted) :
    (conn.deliver p).closed = conn.closed := by
  obtain ⟨_, _, _, hdeliver⟩ := deliver_frame conn p
  rw [hdeliver]

theorem deliver_arrivals (conn : HttpConnection) (p : Posted) :
    (conn.deliver p).arrivals = conn.arrivals := by
  obtain ⟨_, _, _, hdeliver⟩ := deliver_frame conn p
  rw [hdeliver]

theorem writeHandler_arrivals (conn : HttpConnection) (r : HttpResponse) (ok : Bool) :
    (conn.writeHandler r ok).arrivals = conn.arrivals := by
  obtain ⟨_, _, _, _, _, _, _, hhandler⟩ := writeHandler_frame conn r ok
  rw [hhandler]

/-- Running a posted handler keeps the pump going: it starts a write exactly at rest. -/
theorem Ordered.deliver (h : Ordered conn pending) (hpump : Pump conn) {i : ℕ} {p : Posted}
    (hi : conn.posted[i]? = some p) :
    Ordered ((conn.takePosted i).deliver p) pending ∧ Pump ((conn.takePosted i).deliver p) := by
  have hord := h.emplace hi
  cases hpump with
  | rest hw hwrites hlen _ =>
    rw [deliver_of_not_writing hw]
    exact ⟨Ordered.write hord hlen, pump_write hwrites hlen⟩
  | busy r hw hwrites hlen hr =>
    rw [deliver_of_writing hw]
    exact ⟨hord, .busy r hw hwrites hlen (lookup_emplace_of_eq_some _ _ hr)⟩
  | finished hw hwrites hclosed =>
    rw [deliver_of_writing hw]
    exact ⟨hord, .finished hw hwrites hclosed⟩

/-- The completion of a write starts the next one, or finishes the pump with `close()`. -/
theorem Ordered.writeHandler (h : Ordered conn pending) (hpump : Pump conn) {i : ℕ}
    {r : HttpResponse} (hi : conn.writes[i]? = some r) (ok : Bool) :
    Ordered ((conn.takeWrite i).writeHandler r ok) pending ∧
      Pump ((conn.takeWrite i).writeHandler r ok) := by
  cases hpump with
  | rest _ hwrites => simp [hwrites] at hi
  | finished _ hwrites => simp [hwrites] at hi
  | busy r' hw hwrites hlen hr =>
    have hwrites' : conn.writes.eraseIdx i = [] := by
      have hlt := (List.getElem?_eq_some_iff.mp hi).1
      apply List.eq_nil_of_length_eq_zero
      rw [List.length_eraseIdx_of_lt hlt, hwrites, List.length_singleton]
    have hord := h.erase hr
    unfold HttpConnection.writeHandler takeWrite
    rw [hwrites']
    cases ok with
    | false => exact ⟨h.congr rfl rfl rfl rfl rfl rfl, .finished hw rfl rfl⟩
    | true =>
      simp only [if_true]
      cases r.keepAlive with
      | true =>
        simp only [if_true]
        exact ⟨Ordered.write hord hlen, pump_write rfl hlen⟩
      | false =>
        simp only [Bool.false_eq_true, if_false]
        exact ⟨Ordered.close hord, .finished hw rfl rfl⟩

/-- With nothing in flight, nothing posted and nothing being written, nothing is left to write. -/
theorem Ordered.drained (h : Ordered conn pending) (hpump : Pump conn) (hpending : ∀ k, pending k = 0)
    (hposted : conn.posted = []) (hwrites : conn.writes = []) (hclosed : conn.closed = false) :
    conn.responses = ∅ ∧ conn.nextResponseSequenceId = conn.nextSequenceId ∧
      conn.written.map some = conn.arrivals.map Arrival.answer := by
  have hplaces : ∀ k, (if (conn.responses.lookup k).isSome then 1 else 0) =
      if conn.nextResponseSequenceId ≤ k ∧ k < conn.nextSequenceId then 1 else 0 := by
    intro k
    rw [← h.places k, hpending k, buffered, hposted, List.countP_nil]
    omega
  cases hpump with
  | busy r _ hw => simp [hw] at hwrites
  | finished _ _ hc => simp [hc] at hclosed
  | rest _ _ hlen hnone =>
    have hnext : conn.nextResponseSequenceId = conn.nextSequenceId := by
      have hk := hplaces conn.nextResponseSequenceId
      have hle := h.notAhead
      rw [hnone, Option.isSome_none, if_neg Bool.false_ne_true] at hk
      by_contra hne
      rw [if_pos ⟨le_rfl, by omega⟩] at hk
      omega
    refine ⟨?_, hnext, ?_⟩
    · apply eq_empty_of_lookup
      intro k
      have hrange : ¬ (conn.nextResponseSequenceId ≤ k ∧ k < conn.nextSequenceId) := by omega
      have hk := hplaces k
      rw [if_neg hrange] at hk
      simpa using hk
    · rw [h.written_eq, hlen, hnext, h.counted, List.take_length]

end HttpConnection
end ServerSimple.Network
