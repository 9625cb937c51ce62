import ServerSimple.Library.Lists
import ServerSimple.Network.HttpConnection

/-! # Where each response is

Every sequence id between the next response and the next request is in exactly one place: a task in
flight, a posted handler, or the response map. The tasks belong to the server, so they enter as a
count per sequence id. Each move of an id from one place to the next keeps this, together with the
record of which response belongs to which request.
-/

namespace ServerSimple.Network
namespace HttpConnection

open Library

/-- How often a sequence id occurs among the posted handlers and in the response map. -/
def buffered (conn : HttpConnection) (k : ℕ) : ℕ :=
  conn.posted.countP (fun h => h.sequenceId = k) + if (conn.responses.lookup k).isSome then 1 else 0

/-- The bookkeeping of the responses, whether or not a write is under way. -/
structure Ordered (conn : HttpConnection) (pending : ℕ → ℕ) : Prop where
  counted : conn.nextSequenceId = conn.arrivals.length
  notAhead : conn.nextResponseSequenceId ≤ conn.nextSequenceId
  /-- Each id that was issued and not yet answered on the wire is in exactly one place. -/
  places : ∀ k, pending k + conn.buffered k =
    if conn.nextResponseSequenceId ≤ k ∧ k < conn.nextSequenceId then 1 else 0
  unanswered : ∀ k, 0 < pending k → conn.answer k = none
  postedAnswer : ∀ h ∈ conn.posted, conn.answer h.sequenceId = some h.response
  mapAnswer : ∀ k r, conn.responses.lookup k = some r → conn.answer k = some r
  writtenAnswer : ∀ i r, conn.written[i]? = some r → conn.answer i = some r

variable {conn : HttpConnection} {pending : ℕ → ℕ}

theorem ordered_initial : Ordered initial fun _ => 0 where
  counted := rfl
  notAhead := le_rfl
  places k := by simp [initial, buffered]
  unanswered k h := by simp at h
  postedAnswer h hh := by simp [initial] at hh
  mapAnswer k r h := by simp [initial] at h
  writtenAnswer i r h := by simp [initial] at h

theorem Ordered.congr {conn' : HttpConnection} (h : Ordered conn pending)
    (hnext : conn'.nextSequenceId = conn.nextSequenceId)
    (hnextResponse : conn'.nextResponseSequenceId = conn.nextResponseSequenceId)
    (hmap : conn'.responses = conn.responses) (hposted : conn'.posted = conn.posted)
    (harrivals : conn'.arrivals = conn.arrivals) (hwritten : conn'.written = conn.written) :
    Ordered conn' pending := by
  have hbuffered : conn'.buffered = conn.buffered := by
    funext k
    simp only [buffered, hmap, hposted]
  have hanswer : conn'.answer = conn.answer := by
    funext k
    simp only [answer, harrivals]
  constructor
  · rw [hnext, harrivals, h.counted]
  · rw [hnext, hnextResponse]
    exact h.notAhead
  · rw [hnext, hnextResponse, hbuffered]
    exact h.places
  · rw [hanswer]
    exact h.unanswered
  · rw [hposted, hanswer]
    exact h.postedAnswer
  · rw [hmap, hanswer]
    exact h.mapAnswer
  · rw [hwritten, hanswer]
    exact h.writtenAnswer

/-- A place that exists is an issued id that is still to be written. -/
theorem Ordered.issued (h : Ordered conn pending) {k : ℕ} (hk : 0 < pending k + conn.buffered k) :
    conn.nextResponseSequenceId ≤ k ∧ k < conn.nextSequenceId := by
  by_contra hc
  rw [h.places k, if_neg hc] at hk
  omega

/-- Posting a handler adds its id to the places. -/
theorem buffered_post (conn : HttpConnection) (p : Posted) (k : ℕ) :
    { conn with posted := conn.posted ++ [p] }.buffered k =
      conn.buffered k + if p.sequenceId = k then 1 else 0 := by
  unfold buffered
  rw [List.countP_append, List.countP_singleton]
  simp only [decide_eq_true_eq]
  omega

@[simp] theorem buffered_sendResponse (conn : HttpConnection) (r : HttpResponse) (j k : ℕ) :
    (conn.sendResponse r j).buffered k = conn.buffered k + if j = k then 1 else 0 :=
  buffered_post conn (.sendResponse r j) k

@[simp] theorem buffered_rejectOverloaded (conn : HttpConnection) (j v k : ℕ) :
    (conn.rejectOverloaded j v).buffered k = conn.buffered k + if j = k then 1 else 0 :=
  buffered_post conn (.rejectOverloaded j v) k

@[simp] theorem buffered_arrive (conn : HttpConnection) (request : HttpRequest)
    (a : Option HttpResponse) (k : ℕ) : (conn.arrive request a).buffered k = conn.buffered k := rfl

@[simp] theorem buffered_answered (conn : HttpConnection) (j : ℕ) (r : HttpResponse) (k : ℕ) :
    (conn.answered j r).buffered k = conn.buffered k := rfl

theorem answer_lt {k : ℕ} {r : HttpResponse} (h : conn.answer k = some r) :
    k < conn.arrivals.length := by
  unfold answer at h
  by_contra hc
  rw [List.getElem?_eq_none (by omega)] at h
  cases h

theorem answer_arrive_of_lt (request : HttpRequest) (a : Option HttpResponse) {k : ℕ}
    (hk : k < conn.arrivals.length) : (conn.arrive request a).answer k = conn.answer k := by
  simp [answer, arrive, List.getElem?_append_left hk]

theorem answer_arrive_self (request : HttpRequest) (a : Option HttpResponse) :
    (conn.arrive request a).answer conn.arrivals.length = a := by
  simp [answer, arrive]

theorem answer_arrive {request : HttpRequest} {a : Option HttpResponse} {k : ℕ}
    {r : HttpResponse} (h : conn.answer k = some r) : (conn.arrive request a).answer k = some r := by
  rw [answer_arrive_of_lt _ _ (answer_lt h), h]

theorem answer_answered_of_ne {j k : ℕ} (r : HttpResponse) (h : k ≠ j) :
    (conn.answered j r).answer k = conn.answer k := by
  simp [answer, answered, Ne.symm h]

theorem answer_answered_self {k : ℕ} (r : HttpResponse) (hk : k < conn.arrivals.length) :
    (conn.answered k r).answer k = some r := by
  simp [answer, answered, hk]

/-! ## Reads -/

/-- A request that the queue took is now a task in flight. -/
theorem Ordered.arrive_accepted (h : Ordered conn pending) (request : HttpRequest)
    {pending' : ℕ → ℕ}
    (hp : ∀ k, pending' k = pending k + if k = conn.nextSequenceId then 1 else 0) :
    Ordered (conn.arrive request none) pending' where
  counted := by simp [arrive, h.counted]
  notAhead := Nat.le_succ_of_le h.notAhead
  places k := by
    have hk := h.places k
    have hle := h.notAhead
    change pending' k + conn.buffered k = if conn.nextResponseSequenceId ≤ k ∧
      k < conn.nextSequenceId + 1 then 1 else 0
    rw [hp]
    split_ifs at hk ⊢ <;> omega
  unanswered k hk := by
    rw [hp] at hk
    by_cases hnew : k = conn.nextSequenceId
    · rw [hnew, h.counted]
      apply answer_arrive_self
    · rw [if_neg hnew, Nat.add_zero] at hk
      have hlt := (h.issued (Nat.add_pos_left hk _)).2
      rw [answer_arrive_of_lt _ _ (h.counted ▸ hlt)]
      exact h.unanswered k hk
  postedAnswer p hmem := answer_arrive (h.postedAnswer p hmem)
  mapAnswer k r hk := answer_arrive (h.mapAnswer k r hk)
  writtenAnswer i r hi := answer_arrive (h.writtenAnswer i r hi)

/-- A request that the queue refused is answered at once, by a posted handler. -/
theorem Ordered.arrive_refused (h : Ordered conn pending) (request : HttpRequest) :
    Ordered ((conn.arrive request (some (overloadedResponse request.version))).rejectOverloaded
      conn.nextSequenceId request.version) pending where
  counted := by simp [rejectOverloaded, arrive, h.counted]
  notAhead := Nat.le_succ_of_le h.notAhead
  places k := by
    have hk := h.places k
    have hle := h.notAhead
    rw [buffered_rejectOverloaded, buffered_arrive]
    change pending k + (conn.buffered k + if conn.nextSequenceId = k then 1 else 0) =
      if conn.nextResponseSequenceId ≤ k ∧ k < conn.nextSequenceId + 1 then 1 else 0
    split_ifs at hk ⊢ <;> omega
  unanswered k hk := by
    have hlt := (h.issued (Nat.add_pos_left hk _)).2
    change (conn.arrive _ _).answer k = none
    rw [answer_arrive_of_lt _ _ (h.counted ▸ hlt)]
    exact h.unanswered k hk
  postedAnswer p hmem := by
    rcases List.mem_append.mp hmem with hold | hnew
    · exact answer_arrive (h.postedAnswer p hold)
    · rw [List.mem_singleton.mp hnew, Posted.sequenceId, h.counted]
      apply answer_arrive_self
  mapAnswer k r hk := answer_arrive (h.mapAnswer k r hk)
  writtenAnswer i r hi := answer_arrive (h.writtenAnswer i r hi)

/-! ## Posted responses -/

/-- Answering a task leaves the answers that exist alone. -/
theorem Ordered.answer_finish (h : Ordered conn pending) {j k : ℕ} (hk : 0 < pending k)
    (response : HttpResponse) {r : HttpResponse} (hr : conn.answer j = some r) :
    (conn.answered k response).answer j = some r := by
  have hne : j ≠ k := by
    rintro rfl
    rw [h.unanswered j hk] at hr
    cases hr
  rw [answer_answered_of_ne response hne, hr]

/-- A worker that answers its task moves the id from the tasks to the posted handlers. -/
theorem Ordered.finish (h : Ordered conn pending) {k : ℕ} (hk : 0 < pending k)
    (response : HttpResponse) {pending' : ℕ → ℕ}
    (hp : ∀ j, pending' j + (if j = k then 1 else 0) = pending j) :
    Ordered ((conn.answered k response).sendResponse response k) pending' where
  counted := by simp [sendResponse, answered, h.counted]
  notAhead := h.notAhead
  places j := by
    have hj := h.places j
    have hpj := hp j
    rw [buffered_sendResponse, buffered_answered]
    change pending' j + (conn.buffered j + if k = j then 1 else 0) =
      if conn.nextResponseSequenceId ≤ j ∧ j < conn.nextSequenceId then 1 else 0
    rw [← hj, ← hpj]
    simp only [eq_comm (a := k)]
    omega
  unanswered j hj := by
    have hpj := hp j
    have hne : j ≠ k := by
      rintro rfl
      have hone := h.places j
      rw [if_pos rfl] at hpj
      split_ifs at hone <;> omega
    change (conn.answered k response).answer j = none
    rw [answer_answered_of_ne response hne]
    exact h.unanswered j (by omega)
  postedAnswer p hmem := by
    rcases List.mem_append.mp hmem with hold | hnew
    · exact h.answer_finish hk response (h.postedAnswer p hold)
    · rw [List.mem_singleton.mp hnew]
      exact answer_answered_self response (h.counted ▸ (h.issued (Nat.add_pos_left hk _)).2)
  mapAnswer j r hj := h.answer_finish hk response (h.mapAnswer j r hj)
  writtenAnswer i r hi := h.answer_finish hk response (h.writtenAnswer i r hi)

/-- The strand runs a posted handler: its id moves to the response map. -/
theorem Ordered.emplace (h : Ordered conn pending) {i : ℕ} {p : Posted}
    (hi : conn.posted[i]? = some p) :
    Ordered { conn with
      posted := conn.posted.eraseIdx i
      responses := emplace conn.responses p.sequenceId p.response } pending := by
  have hmem : p ∈ conn.posted := List.mem_of_getElem? hi
  -- the id is among the posted handlers already, so the map cannot have it too
  have hfree : conn.responses.lookup p.sequenceId = none := by
    have hplace := h.places p.sequenceId
    have hpos : 0 < conn.posted.countP (fun q => q.sequenceId = p.sequenceId) :=
      List.countP_pos_iff.mpr ⟨p, hmem, by simp⟩
    unfold buffered at hplace
    cases hlook : conn.responses.lookup p.sequenceId with
    | none => rfl
    | some r =>
      rw [hlook, Option.isSome_some, if_pos rfl] at hplace
      split_ifs at hplace
      omega
  refine ⟨h.counted, h.notAhead, ?_, h.unanswered, ?_, ?_, h.writtenAnswer⟩
  · intro k
    rw [← h.places k]
    have hcount := countP_eraseIdx (fun q : Posted => decide (q.sequenceId = k)) hi
    unfold buffered
    by_cases hk : p.sequenceId = k
    · subst hk
      rw [lookup_emplace_self _ hfree, hfree]
      simp at hcount ⊢
      omega
    · rw [lookup_emplace_of_ne _ (Ne.symm hk)]
      simp [hk] at hcount
      rw [hcount]
  · intro q hq
    exact h.postedAnswer q (List.mem_of_mem_eraseIdx hq)
  · intro k r hk
    by_cases hp : k = p.sequenceId
    · subst hp
      rw [lookup_emplace_self _ hfree] at hk
      cases hk
      exact h.postedAnswer p hmem
    · rw [lookup_emplace_of_ne _ hp] at hk
      exact h.mapAnswer k r hk

/-! ## Written responses -/

/-- A written response leaves the map, and the next id is due. -/
theorem Ordered.erase (h : Ordered conn pending) {r : HttpResponse}
    (hr : conn.responses.lookup conn.nextResponseSequenceId = some r) :
    Ordered { conn with
      writes := []
      responses := conn.responses.erase conn.nextResponseSequenceId
      nextResponseSequenceId := conn.nextResponseSequenceId + 1 } pending := by
  have hone : 1 ≤ conn.buffered conn.nextResponseSequenceId := by
    simp [buffered, hr]
  refine ⟨h.counted, ?_, ?_, h.unanswered, h.postedAnswer, ?_, h.writtenAnswer⟩
  · exact (h.issued (Nat.add_pos_right _ hone)).2
  · intro k
    have hk := h.places k
    unfold buffered at hk
    change pending k + (conn.posted.countP (fun p => p.sequenceId = k) +
      if ((conn.responses.erase conn.nextResponseSequenceId).lookup k).isSome then 1 else 0) =
        if conn.nextResponseSequenceId + 1 ≤ k ∧ k < conn.nextSequenceId then 1 else 0
    by_cases hkey : k = conn.nextResponseSequenceId
    · subst hkey
      rw [hr, Option.isSome_some, if_pos rfl] at hk
      rw [AList.lookup_erase, Option.isSome_none, if_neg Bool.false_ne_true, if_neg (by omega)]
      split_ifs at hk
      omega
    · rw [AList.lookup_erase_ne hkey, hk]
      split_ifs <;> omega
  · intro k r' hk
    by_cases hkey : k = conn.nextResponseSequenceId
    · rw [hkey, AList.lookup_erase] at hk
      cases hk
    · rw [AList.lookup_erase_ne hkey] at hk
      exact h.mapAnswer k r' hk

theorem Ordered.written_eq (h : Ordered conn pending) :
    conn.written.map some = (conn.arrivals.take conn.written.length).map Arrival.answer := by
  apply List.ext_getElem?
  intro i
  rw [List.getElem?_map, List.getElem?_map]
  cases hi : conn.written[i]? with
  | none =>
    have hlen := List.getElem?_eq_none_iff.mp hi
    rw [List.getElem?_eq_none (by rw [List.length_take]; omega)]
    rfl
  | some r =>
    have hlt := (List.getElem?_eq_some_iff.mp hi).1
    have hr := h.writtenAnswer i r hi
    rw [List.getElem?_take_of_lt hlt]
    unfold answer at hr
    cases ha : conn.arrivals[i]? with
    | none => simp [ha] at hr
    | some a =>
      rw [ha, Option.bind_some] at hr
      rw [Option.map_some, Option.map_some, hr]

end HttpConnection
end ServerSimple.Network
