import ServerSimple.ThreadSafe.QueueAdmission

/-! # Replacing the contents

`replace` has a loop of its own: it pushes first and then tests the size. The bytes are counted but
never tested, so with a byte limit it can install items that `try_push_back` would refuse.
-/

namespace ServerSimple.ThreadSafe
namespace ThreadSafeQueue

variable {T : Type*} [QueueSizeTraits T] {lim : Limits} {q : ThreadSafeQueue T}

/-- `try_push_back` of the items in order, up to the first one that is refused. -/
def tryPushBackAll (lim : Limits) (q : ThreadSafeQueue T) : List T → ThreadSafeQueue T
  | [] => q
  | item :: items =>
    match tryPushBack lim q item with
    | (false, q) => q
    | (true, q) => tryPushBackAll lim q items

/-! ## Pushing one by one -/

/-- What one checked push keeps, all of them keep. -/
theorem tryPushBackAll_invariant {P : ThreadSafeQueue T → Prop}
    (hpush : ∀ q item, P q → P (tryPushBack lim q item).2) (h : P q) (items : List T) :
    P (tryPushBackAll lim q items) := by
  induction items generalizing q with
  | nil => exact h
  | cons item items ih =>
    have hnext := hpush q item h
    rw [tryPushBackAll]
    split
    · rename_i heq
      rwa [heq] at hnext
    · rename_i heq
      rw [heq] at hnext
      exact ih hnext

theorem tryPushBackAll_accounted (hlim : CountsBytes lim) (h : q.Accounted) (items : List T) :
    (tryPushBackAll lim q items).Accounted := by
  apply tryPushBackAll_invariant _ h
  intro q item hq
  exact (tryPush_inStep hlim item totalBytes_atBack).accounted hq

theorem tryPushBackAll_within (hacc : CountsBytes lim → q.Accounted) (h : Within lim q)
    (items : List T) : Within lim (tryPushBackAll lim q items) := by
  have hboth : (CountsBytes lim → (tryPushBackAll lim q items).Accounted) ∧
      Within lim (tryPushBackAll lim q items) := by
    apply tryPushBackAll_invariant (P := fun q => (CountsBytes lim → q.Accounted) ∧ Within lim q) _
      ⟨hacc, h⟩
    rintro q item ⟨hacc, h⟩
    constructor
    · intro hlim
      exact (tryPush_inStep hlim item totalBytes_atBack).accounted (hacc hlim)
    · exact tryPush_within hacc h item (fun x items => by simp [atBack]) totalBytes_atBack
  exact hboth.2

theorem tryPushBack_of_full (hmax : maxSize lim ≠ 0) (hfull : (maxSize lim).toNat ≤ q.dequeue.length)
    (item : T) : tryPushBack lim q item = (false, q) := by
  rcases tryPush_cases lim q atBack item with hrefused | ⟨-, haccepted⟩
  · exact hrefused
  · have hcheck : (preAdditionCheckProtocol lim q item).1 = true := by
      rw [← tryPush_fst atBack, haccepted]
    have htest := sizeTest_iff.mpr hmax
    rw [maxSize_eq hmax] at hfull
    exact absurd ⟨htest.1, UInt64.pos_iff_ne_zero.mp htest.2, hfull⟩
      ((preAdditionCheckProtocol_fst item).mp hcheck).2.1

theorem tryPushBack_of_room (hstop : q.stopped = false) (hacc : CountsBytes lim → q.Accounted)
    (hroom : maxSize lim ≠ 0 → q.dequeue.length < (maxSize lim).toNat) {item : T}
    (hbytes : CountsBytes lim →
      totalBytes q.dequeue + (QueueSizeTraits.get item).toNat ≤ lim.maximumBytes.toNat) :
    tryPushBack lim q item =
      (true, ⟨q.dequeue ++ [item], q.stopped, q.currentBytes + countedBytes lim item⟩) := by
  have hcheck : (preAdditionCheckProtocol lim q item).1 = true := by
    rw [preAdditionCheckProtocol_fst]
    refine ⟨hstop, ?_, ?_⟩
    · rintro ⟨hsize, hne, hfull⟩
      have hmax := sizeTest_iff.mp ⟨hsize, UInt64.pos_iff_ne_zero.mpr hne⟩
      have hlt := hroom hmax
      rw [maxSize_eq hmax] at hlt
      omega
    · rintro ⟨hcounts, htest⟩
      have hfits := hbytes hcounts
      have htotal : totalBytes q.dequeue < 2 ^ 64 := by
        have hlt := lim.maximumBytes.toNat_lt
        omega
      exact (byteTest_iff ((hacc hcounts).eq_of_lt htotal) item).mpr hfits htest
  rcases tryPush_cases lim q atBack item with hrefused | ⟨-, haccepted⟩
  · rw [← tryPush_fst atBack, hrefused] at hcheck
    cases hcheck
  · exact haccepted

/-- As long as the bytes are within their limit, only the size limit ends the pushes. -/
theorem tryPushBackAll_dequeue (hstop : q.stopped = false) (hacc : CountsBytes lim → q.Accounted)
    {items : List T}
    (hbytes : CountsBytes lim → totalBytes q.dequeue +
      totalBytes (fitting lim q.dequeue.length items) ≤ lim.maximumBytes.toNat) :
    (tryPushBackAll lim q items).dequeue = q.dequeue ++ fitting lim q.dequeue.length items := by
  induction items generalizing q with
  | nil => rw [tryPushBackAll, fitting_nil, List.append_nil]
  | cons item items ih =>
    rw [tryPushBackAll]
    by_cases hfull : maxSize lim ≠ 0 ∧ (maxSize lim).toNat ≤ q.dequeue.length
    · rw [tryPushBack_of_full hfull.1 hfull.2, fitting_of_full hfull.1 hfull.2, List.append_nil]
    · have hroom : maxSize lim ≠ 0 → q.dequeue.length < (maxSize lim).toNat := by
        intro hmax
        exact Nat.not_le.mp fun hle => hfull ⟨hmax, hle⟩
      rw [fitting_cons hroom] at hbytes ⊢
      have hitem (hcounts : CountsBytes lim) :
          totalBytes q.dequeue + (QueueSizeTraits.get item).toNat ≤ lim.maximumBytes.toNat := by
        have hall := hbytes hcounts
        rw [totalBytes_cons] at hall
        omega
      let next : ThreadSafeQueue T :=
        ⟨q.dequeue ++ [item], q.stopped, q.currentBytes + countedBytes lim item⟩
      have hnext : tryPushBack lim q item = (true, next) :=
        tryPushBack_of_room hstop hacc hroom hitem
      rw [hnext]
      refine (ih (q := next) hstop ?_ ?_).trans ?_
      · intro hcounts
        exact (inStep_add hcounts item (totalBytes_atBack item q.dequeue)).accounted (hacc hcounts)
      · intro hcounts
        have hall := hbytes hcounts
        simp only [next, totalBytes_cons, totalBytes_append, totalBytes_nil, List.length_append,
          List.length_singleton] at hall ⊢
        omega
      · simp [next]

/-! ## Comparing the two -/

/-- `replace` leaves what clearing the queue and pushing one by one leaves, and keeps the limits. -/
structure ReplacesLikePushes (lim : Limits) (q : ThreadSafeQueue T) (items : List T) : Prop where
  elements : (replace lim q items).dequeue = (tryPushBackAll lim q.clear items).dequeue
  bytes : CountsBytes lim →
    (replace lim q items).currentBytes = (tryPushBackAll lim q.clear items).currentBytes
  within : Within lim (replace lim q items)

/-- In every state of a queue that was not stopped, `replace` agrees with the pushes exactly if bytes
are not limited or the items that the size limit leaves room for are within the byte limit. -/
theorem replacesLikePushes_iff (lim : Limits) (ops : List (Op T)) (items : List T)
    (hstop : (execAll lim empty ops).stopped = false) :
    ReplacesLikePushes lim (execAll lim empty ops) items ↔
      (CountsBytes lim → totalBytes (fitting lim 0 items) ≤ lim.maximumBytes.toNat) := by
  let q := execAll lim (empty : ThreadSafeQueue T) ops
  constructor
  · intro h hcounts
    have hbytes := h.within.bytes (countsBytes_iff.mp hcounts)
    rwa [maxBytes_eq hcounts, replace_dequeue] at hbytes
  · intro hfits
    have hacc (_ : CountsBytes lim) : q.clear.Accounted := rfl
    have hpushed : (tryPushBackAll lim q.clear items).dequeue = fitting lim 0 items := by
      refine tryPushBackAll_dequeue (q := q.clear) hstop hacc ?_
      intro hcounts
      exact (Nat.zero_add _).le.trans (hfits hcounts)
    have helements : (replace lim q items).dequeue = (tryPushBackAll lim q.clear items).dequeue := by
      rw [replace_dequeue, hpushed]
    refine ⟨helements, ?_, ?_⟩
    · -- both counters are the total size of the same elements modulo `2 ^ 64`
      intro hcounts
      have hreplaced : (replace lim q items).Accounted :=
        replaceLoop_accounted hcounts items 0 accounted_empty
      have hpushes := tryPushBackAll_accounted hcounts (hacc hcounts) items
      unfold Accounted at hreplaced hpushes
      apply UInt64.toNat_inj.mp
      rw [hreplaced, hpushes, helements]
    · have hwithin : Within lim (tryPushBackAll lim q.clear items) :=
        tryPushBackAll_within hacc ⟨fun _ => Nat.zero_le _, fun _ => Nat.zero_le _⟩ items
      exact hwithin.sublist (helements ▸ List.Sublist.refl _)

/-- A size limit of two and a byte limit for two, with three items. -/
theorem replacesLikePushes_iff_two :
    @ReplacesLikePushes Int sizeofInt ⟨true, true, 2, 8⟩
      (@execAll Int sizeofInt ⟨true, true, 2, 8⟩ empty [.pushBack 7]) [1, 2, 3] :=
  (@replacesLikePushes_iff Int sizeofInt ⟨true, true, 2, 8⟩ [.pushBack 7] [1, 2, 3] rfl).mpr
    fun _ => by decide

/-- Only a byte limit for two: all three are installed. -/
theorem replace_exceeds_bytes :
    (@replace Int sizeofInt ⟨true, true, 0, 8⟩ empty [1, 2, 3]).dequeue = [1, 2, 3] ∧
    (@tryPushBackAll Int sizeofInt ⟨true, true, 0, 8⟩ (clear empty) [1, 2, 3]).dequeue = [1, 2] ∧
    ¬ @ReplacesLikePushes Int sizeofInt ⟨true, true, 0, 8⟩ empty [1, 2, 3] :=
  ⟨by decide, by decide, fun h => absurd (@h.elements) (by decide)⟩

end ThreadSafeQueue
end ServerSimple.ThreadSafe
