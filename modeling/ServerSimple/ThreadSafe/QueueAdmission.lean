import ServerSimple.ThreadSafe.QueueAccounting
import Mathlib.Tactic.Tauto

/-! # Admission of checked pushes

The byte test is a guarded subtraction on the counter. Since the counter is the total size modulo
`2 ^ 64`, the test decides the inequality in unbounded integers whenever the total itself fits in
64 bits, also in states that unchecked pushes and `replace` have brought past the limit.
-/

namespace ServerSimple.ThreadSafe
namespace ThreadSafeQueue

open Library

variable {T : Type*} [QueueSizeTraits T] {lim : Limits} {q : ThreadSafeQueue T}

/-- The condition under which a checked push is meant to be accepted, in unbounded integers. -/
def Admits (lim : Limits) (q : ThreadSafeQueue T) (item : T) : Prop :=
  q.stopped = false ∧
  (lim.enableMaxSize = false ∨ lim.maximumSize = 0 ∨
    q.dequeue.length < lim.maximumSize.toNat) ∧
  (lim.enableMaxBytes = false ∨ lim.maximumBytes = 0 ∨
    totalBytes q.dequeue + (QueueSizeTraits.get item).toNat ≤ lim.maximumBytes.toNat)

/-- The guarded subtraction decides the sum, also when the counter is already past the limit. -/
theorem byteTest_iff (hbytes : q.currentBytes.toNat = totalBytes q.dequeue) (item : T) :
    ¬ (q.currentBytes > lim.maximumBytes ∨
        QueueSizeTraits.get item > lim.maximumBytes - q.currentBytes) ↔
      totalBytes q.dequeue + (QueueSizeTraits.get item).toNat ≤ lim.maximumBytes.toNat := by
  rw [← hbytes, not_or, gt_iff_lt, gt_iff_lt, UInt64.not_lt, UInt64.not_lt]
  constructor
  · rintro ⟨hc, hi⟩
    rw [UInt64.le_iff_toNat_le, UInt64.toNat_sub_of_le _ _ hc] at hi
    rw [UInt64.le_iff_toNat_le] at hc
    omega
  · intro h
    have hc : q.currentBytes ≤ lim.maximumBytes := UInt64.le_iff_toNat_le.mpr (by omega)
    refine ⟨hc, ?_⟩
    rw [UInt64.le_iff_toNat_le, UInt64.toNat_sub_of_le _ _ hc]
    omega

/-- The check accepts when none of its three tests fires. -/
theorem preAdditionCheckProtocol_fst (item : T) :
    (preAdditionCheckProtocol lim q item).1 = true ↔
      q.stopped = false ∧
      ¬ (lim.enableMaxSize = true ∧ lim.maximumSize ≠ 0 ∧
        lim.maximumSize.toNat ≤ q.dequeue.length) ∧
      ¬ ((lim.enableMaxBytes = true ∧ lim.maximumBytes ≠ 0) ∧
        (q.currentBytes > lim.maximumBytes ∨
          QueueSizeTraits.get item > lim.maximumBytes - q.currentBytes)) := by
  unfold preAdditionCheckProtocol
  cases q.stopped with
  | true => simp
  | false =>
    rw [if_neg Bool.false_ne_true]
    by_cases hsize : lim.enableMaxSize = true ∧ lim.maximumSize ≠ 0 ∧
        lim.maximumSize.toNat ≤ q.dequeue.length
    · rw [if_pos hsize]
      simp [hsize]
    · rw [if_neg hsize]
      by_cases hcounts : lim.enableMaxBytes = true ∧ lim.maximumBytes ≠ 0
      · rw [if_pos hcounts]
        dsimp only
        split_ifs with htest
        · simp [hcounts, htest]
        · simp [hsize, htest]
      · rw [if_neg hcounts]
        simp [hsize, hcounts]

theorem preAdditionCheckProtocol_iff (h : CountsBytes lim → q.Accounted)
    (hlt : totalBytes q.dequeue < 2 ^ 64) (item : T) :
    (preAdditionCheckProtocol lim q item).1 = true ↔ Admits lim q item := by
  rw [preAdditionCheckProtocol_fst, Admits]
  apply and_congr_right
  intro _
  apply and_congr
  · rw [← Bool.not_eq_true, ← Nat.not_le]
    tauto
  · rw [not_and]
    constructor
    · intro htest
      by_cases hcounts : CountsBytes lim
      · exact .inr (.inr ((byteTest_iff ((h hcounts).eq_of_lt hlt) item).mp (htest hcounts)))
      · rw [CountsBytes, not_and_or, Bool.not_eq_true, not_not] at hcounts
        exact hcounts.imp_right .inl
    · intro hfits hcounts
      apply (byteTest_iff ((h hcounts).eq_of_lt hlt) item).mpr
      obtain hoff | hzero | hsum := hfits
      · rw [hoff] at hcounts
        exact absurd hcounts.1 Bool.false_ne_true
      · exact absurd hzero hcounts.2
      · exact hsum

theorem tryPush_fst (place : T → List T → List T) (item : T) :
    (tryPush lim place q item).1 = (preAdditionCheckProtocol lim q item).1 := by
  unfold tryPush
  split <;> simp_all

theorem tryPush_refused {place : T → List T → List T} {item : T}
    (h : (tryPush lim place q item).1 = false) : (tryPush lim place q item).2 = q := by
  obtain hp | ⟨-, hp⟩ := tryPush_cases lim q place item
  · rw [hp]
  · rw [hp] at h
    cases h

/-- Calls that insert, if at all, through a checked push. -/
def CheckedInsertion : Op T → Prop
  | .pushBack _ | .pushFront _ | .replace _ => False
  | _ => True

/-- The limits in force are respected. -/
structure Within (lim : Limits) (q : ThreadSafeQueue T) : Prop where
  size : maxSize lim ≠ 0 → q.dequeue.length ≤ (maxSize lim).toNat
  bytes : maxBytes lim ≠ 0 → totalBytes q.dequeue ≤ (maxBytes lim).toNat

theorem within_empty : Within lim (empty : ThreadSafeQueue T) :=
  ⟨fun _ => Nat.zero_le _, fun _ => Nat.zero_le _⟩

theorem Within.sublist {r : ThreadSafeQueue T} (h : Within lim q)
    (hsub : r.dequeue.Sublist q.dequeue) : Within lim r where
  size hmax := hsub.length_le.trans (h.size hmax)
  bytes hmax := (hsub.map _).sum_le_sum (fun _ _ => Nat.zero_le _) |>.trans (h.bytes hmax)

theorem countsBytes_iff : CountsBytes lim ↔ maxBytes lim ≠ 0 := by
  unfold CountsBytes maxBytes
  cases lim.enableMaxBytes <;> simp

theorem maxBytes_eq (hlim : CountsBytes lim) : maxBytes lim = lim.maximumBytes := if_pos hlim.1

theorem Within.totalBytes_lt (h : Within lim q) (hlim : CountsBytes lim) :
    totalBytes q.dequeue < 2 ^ 64 :=
  (h.bytes (countsBytes_iff.mp hlim)).trans_lt (UInt64.toNat_lt _)

/-- An accepted push leaves room for the item it adds. -/
theorem tryPush_within (hacc : CountsBytes lim → q.Accounted) (h : Within lim q) (item : T)
    {place : T → List T → List T}
    (hlength : ∀ x items, (place x items).length = items.length + 1)
    (hplace : ∀ x items,
      totalBytes (place x items) = totalBytes items + (QueueSizeTraits.get x).toNat) :
    Within lim (tryPush lim place q item).2 := by
  obtain hp | ⟨-, hp⟩ := tryPush_cases lim q place item
  · rw [hp]
    exact h
  have haccept : (preAdditionCheckProtocol lim q item).1 = true := by
    rw [← tryPush_fst place, hp]
  rw [hp]
  constructor
  · intro hmax
    have hroom := (preAdditionCheckProtocol_fst item).mp haccept |>.2.1
    unfold maxSize at hmax ⊢
    cases hsize : lim.enableMaxSize with
    | false => simp [hsize] at hmax
    | true =>
      simp only [hsize, if_true] at hmax ⊢
      have hlt := Nat.not_le.mp fun hle => hroom ⟨hsize, hmax, hle⟩
      change (place item q.dequeue).length ≤ _
      rw [hlength]
      omega
  · intro hmax
    have hlim := countsBytes_iff.mpr hmax
    have hfits := ((preAdditionCheckProtocol_iff hacc (h.totalBytes_lt hlim) item).mp haccept).2.2
    rw [maxBytes_eq hlim]
    change totalBytes (place item q.dequeue) ≤ _
    rw [hplace]
    obtain hoff | hzero | hsum := hfits
    · exact absurd hlim.1 (by simp [hoff])
    · exact absurd hzero hlim.2
    · exact hsum

theorem popOutcome_within (h : Within lim q) {r : Except String (T × ThreadSafeQueue T)}
    (hr : ∀ p, r = .ok p → p.2.dequeue.Sublist q.dequeue) :
    Within lim (popOutcome q r).queue := by
  cases r with
  | error what => exact h
  | ok p => exact h.sublist (hr p rfl)

theorem popFront_sublist {p : T × ThreadSafeQueue T} (h : popFront lim q = .ok p) :
    p.2.dequeue.Sublist q.dequeue := by
  cases hd : q.dequeue with
  | nil => simp [popFront, hd] at h
  | cons item rest =>
    rw [popFront_cons lim q hd, Except.ok.injEq] at h
    rw [← h]
    exact List.sublist_cons_self item rest

theorem popBack_sublist {p : T × ThreadSafeQueue T} (h : popBack lim q = .ok p) :
    p.2.dequeue.Sublist q.dequeue := by
  rcases List.eq_nil_or_concat' q.dequeue with hd | ⟨rest, item, hd⟩
  · simp [popBack, hd] at h
  · rw [popBack_append lim q hd, Except.ok.injEq] at h
    rw [← h, hd]
    exact List.sublist_append_left rest [item]

theorem waitAndPop_sublist : (waitAndPop lim q).queue.dequeue.Sublist q.dequeue := by
  obtain ⟨-, -, hw⟩ | ⟨-, -, hw⟩ | ⟨item, rest, hd, hw⟩ := waitAndPop_cases lim q <;> rw [hw]
  rw [hd]
  exact List.sublist_cons_self item rest

theorem exec_within (hacc : CountsBytes lim → q.Accounted) (h : Within lim q) {op : Op T}
    (hop : CheckedInsertion op) : Within lim (exec lim q op).queue := by
  cases op with
  | tryPushBack item =>
    exact tryPush_within hacc h item (fun x items => by simp [atBack]) totalBytes_atBack
  | tryPushFront item =>
    exact tryPush_within hacc h item (fun x items => by simp [atFront]) totalBytes_atFront
  | pushBack item | pushFront item | replace items => exact hop.elim
  | popFront => exact popOutcome_within h fun p hp => popFront_sublist hp
  | popBack => exact popOutcome_within h fun p hp => popBack_sublist hp
  | waitAndPop => exact h.sublist waitAndPop_sublist
  | clear => exact within_empty.sublist (List.nil_sublist _)
  | stop =>
    simp only [exec, stop_eq]
    exact h.sublist (List.Sublist.refl _)
  | front | back =>
    simp only [exec, popOutcome_read]
    exact h
  | empty | size | maxSize | maxBytes | toVector => exact h

theorem execAll_within (hacc : CountsBytes lim → q.Accounted) (h : Within lim q)
    {ops : List (Op T)} (hops : ∀ op ∈ ops, CheckedInsertion op) :
    Within lim (execAll lim q ops) := by
  induction ops generalizing q with
  | nil => exact h
  | cons op ops ih =>
    apply ih
    · exact fun hlim => exec_accounted hlim (hacc hlim) op
    · exact exec_within hacc h (hops op List.mem_cons_self)
    · exact fun op' hop' => hops op' (List.mem_cons_of_mem op hop')

/-- Admission is exact in every state that any calls can produce, and refusals change nothing;
so with checked insertions only, the limits hold in every interleaving. -/
theorem tryPush_exact (lim : Limits) :
    (∀ (ops : List (Op T)) (item : T) (q : ThreadSafeQueue T), q = execAll lim empty ops →
      totalBytes q.dequeue < 2 ^ 64 →
      ((tryPushBack lim q item).1 = true ↔ Admits lim q item) ∧
      ((tryPushFront lim q item).1 = true ↔ Admits lim q item) ∧
      ((tryPushBack lim q item).1 = false → (tryPushBack lim q item).2 = q) ∧
      ((tryPushFront lim q item).1 = false → (tryPushFront lim q item).2 = q)) ∧
    ∀ (θ : Type) [Fintype θ] [DecidableEq θ] (actions : List (Action θ T)) (s : Threads θ T),
      (∀ c ∈ Threads.criticals actions, CheckedInsertion c.2) →
      run (Threads.step lim) .initial actions = some s →
      (maxSize lim ≠ 0 → s.queue.dequeue.length ≤ (maxSize lim).toNat) ∧
      (maxBytes lim ≠ 0 → totalBytes s.queue.dequeue ≤ (maxBytes lim).toNat) := by
  constructor
  · rintro ops item q rfl hlt
    have hacc (hlim : CountsBytes lim) : (execAll lim (empty : ThreadSafeQueue T) ops).Accounted :=
      execAll_accounted hlim accounted_empty ops
    have hiff := preAdditionCheckProtocol_iff hacc hlt item
    refine ⟨?_, ?_, tryPush_refused, tryPush_refused⟩
    · rw [tryPushBack, tryPush_fst, hiff]
    · rw [tryPushFront, tryPush_fst, hiff]
  · intro θ _ _ actions s hchecked hrun
    rw [Threads.run_queue lim hrun]
    have hops : ∀ op ∈ (Threads.criticals actions).map Prod.snd, CheckedInsertion op := by
      intro op hop
      obtain ⟨c, hc, rfl⟩ := List.mem_map.mp hop
      exact hchecked c hc
    have h := execAll_within (fun _ => accounted_empty) (within_empty : Within lim _) hops
    exact ⟨h.size, h.bytes⟩

theorem tryPush_exact_int :
    ¬ @Admits Int sizeofInt ⟨true, true, 2, 8⟩ (@execAll Int sizeofInt ⟨true, true, 2, 8⟩ empty
      [.tryPushBack 1, .tryPushFront 2]) 3 := by
  rw [← ((@tryPush_exact Int sizeofInt ⟨true, true, 2, 8⟩).1 _ 3 _ rfl (by decide)).1]
  decide

end ThreadSafeQueue
end ServerSimple.ThreadSafe
