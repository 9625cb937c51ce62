import ServerSimple.Library.OrderedInsert

/-! # Ordered multisets of pointers

A `std::multiset` of raw pointers whose comparator looks through the pointers. An element of the set
is a node with its own address, which is what an iterator designates, and the pointer stored there.
Looking through a pointer that dangles, or using an iterator that designates no element, is
undefined. A list of cells, the nodes each with the object behind its pointer, gives the meaning.
-/

namespace ServerSimple.Library

structure Node where
  iterator : ℕ
  pointer : ℕ
  deriving DecidableEq

variable {E : Type*} (heap : ℕ → Option E) (less : E → E → Bool)

/-- Insert before the first node that is ordered after the new one. -/
def insertNode (node : Node) : List Node → Option (List Node)
  | [] => some [node]
  | n :: nodes =>
    match heap node.pointer, heap n.pointer with
    | some new, some old =>
      if less new old then some (node :: n :: nodes)
      else (insertNode node nodes).map (n :: ·)
    | _, _ => none

/-- `std::distance` from the beginning. -/
def getIndex (it : ℕ) (nodes : List Node) : Option ℕ :=
  nodes.findIdx? fun n => n.iterator = it

def eraseNode (it : ℕ) (nodes : List Node) : Option (List Node) :=
  if nodes.any fun n => n.iterator = it then some (nodes.filter fun n => n.iterator ≠ it) else none

/-- Look through every pointer, in order. -/
def readNodes (nodes : List Node) : Option (List E) :=
  nodes.mapM fun n => heap n.pointer

/-- Each cell holds the object that its pointer leads to. -/
def Backed (cells : List (Node × E)) : Prop := ∀ c ∈ cells, heap c.1.pointer = some c.2

variable {heap less} {cells : List (Node × E)}

theorem readNodes_eq (h : Backed heap cells) :
    readNodes heap (cells.map Prod.fst) = some (cells.map Prod.snd) := by
  unfold readNodes
  induction cells with
  | nil => rfl
  | cons c cells ih =>
    have hc := h c List.mem_cons_self
    rw [List.map_cons, List.mapM_cons, hc, ih fun d hd => h d (List.mem_cons_of_mem c hd)]
    rfl

/-- The inserted object may still change where the comparator does not look. -/
theorem insertNode_eq (node : Node) {new : E} (new' : E) (hnew : heap node.pointer = some new)
    (hsame : ∀ old, less new' old = less new old) (h : Backed heap cells) :
    insertNode heap less node (cells.map Prod.fst) =
      some ((cells.orderedInsert (fun a b => less a.2 b.2) (node, new')).map Prod.fst) := by
  induction cells with
  | nil => rfl
  | cons c cells ih =>
    have hc := h c List.mem_cons_self
    have hrest := ih fun d hd => h d (List.mem_cons_of_mem c hd)
    rw [List.orderedInsert_cons, List.map_cons, insertNode, hnew, hc]
    cases hless : less new c.2 with
    | true => simp [hsame, hless]
    | false => simp [hsame, hless, hrest]

theorem getIndex_eq (it : ℕ) (cells : List (Node × E)) :
    getIndex it (cells.map Prod.fst) = cells.findIdx? fun c => c.1.iterator = it := by
  simp [getIndex, List.findIdx?_map, Function.comp_def]

theorem eraseNode_eq {c : Node × E} (hc : c ∈ cells) :
    eraseNode c.1.iterator (cells.map Prod.fst) =
      some ((cells.filter fun d => d.1.iterator ≠ c.1.iterator).map Prod.fst) := by
  have hany : (cells.map Prod.fst).any (fun n => n.iterator = c.1.iterator) = true := by
    rw [List.any_eq_true]
    exact ⟨c.1, List.mem_map_of_mem hc, by simp⟩
  rw [eraseNode, if_pos hany, List.filter_map]
  rfl

end ServerSimple.Library
