import Wgs.Foundation.MachineInt
import Wgs.Foundation.SinglyLinked

/-!
`linkqueue/queue.h`: the linked queue with a head node, function by function.

The nodes live in a memory of cells; the queue itself, `LinkQueue`, is the value its functions read
and update.  The allocator answers with an address: the `NULL` of a failing `malloc`, on which the
program exits, is left out.

* `initQueue`, `isEmpty`, `insertQueue`, `deleteQueue`, `traversal`, `destoryQueue`;
* `Linked`: the chain of the head node and the nodes of a sequence, with `rear` at its last node;
* `queue_fifo`: what every run of calls makes of the sequence, first in and first out.
-/

namespace Wgs.Queue

open Foundation

/-! ### The program -/

/-- `Node`: `data`, an `int`, and `next`. -/
abbrev Node := SingleNode ℤ

/-- `LinkQueue`. -/
structure LinkQueue where
  front : Ptr
  rear : Ptr
  deriving DecidableEq

/-- `initQueue`; the allocator hands out the address `a`, whose cell still holds `junk`. -/
def initQueue (a : ℕ) (junk : Node) (m : Mem Node) : Option (LinkQueue × Mem Node) := do
  let m ← m.malloc a junk
  let queue : LinkQueue := ⟨some a, some a⟩
  let m ← m.modify queue.front (SingleNode.setNext none)
  return (queue, m)

/-- `isEmpty`. -/
def isEmpty (queue : LinkQueue) : Bool := queue.rear = queue.front

/-- `insertQueue`. -/
def insertQueue (queue : LinkQueue) (temp : ℤ) (a : ℕ) (junk : Node) (m : Mem Node) :
    Option (LinkQueue × Mem Node) := do
  let m ← m.malloc a junk
  let q : Ptr := some a
  let m ← m.modify q (SingleNode.setData temp)
  let m ← m.modify q (SingleNode.setNext none)
  let m ← m.modify queue.rear (SingleNode.setNext q)
  return ({ queue with rear := q }, m)

/-- `deleteQueue`. -/
def deleteQueue (queue : LinkQueue) (m : Mem Node) : Option (LinkQueue × Mem Node) :=
  if !isEmpty queue then do
    let q ← m.read queue.front SingleNode.next
    let next ← m.read q SingleNode.next
    let m ← m.modify queue.front (SingleNode.setNext next)
    let queue := if queue.rear = q then { queue with rear := queue.front } else queue
    let m ← m.free q
    return (queue, m)
  else some (queue, m)

/-- The lines of a traversal: each with the number `i`, an `int`, and the `data` it prints. -/
def numbered (i : ℤ) : List ℤ → List (ℤ × ℤ)
  | [] => []
  | data :: rest => (i, data) :: numbered (toInt32 (i + 1)) rest

/-- `traversal`. -/
def traversal (fuel : ℕ) (queue : LinkQueue) (m : Mem Node) : Option (List (ℤ × ℤ)) := do
  let q ← m.read queue.front SingleNode.next
  let visited ← visit m fuel q
  return numbered 1 visited

/-- `destoryQueue`; with the queue and the memory that it leaves, the addresses it releases. -/
def destoryQueue : ℕ → LinkQueue → Mem Node → Option (List ℕ × LinkQueue × Mem Node)
  | 0, _, _ => none
  | fuel + 1, queue, m =>
      match queue.front with
      | none => some ([], queue, m)
      | some a => do
          let next ← m.read queue.front SingleNode.next
          let queue := { queue with rear := next }
          let m ← m.free queue.front
          let queue := { queue with front := queue.rear }
          let (freed, queue, m) ← destoryQueue fuel queue m
          return (a :: freed, queue, m)

/-! ### Runs of calls -/

/-- A queue and the memory its nodes live in. -/
structure State where
  queue : LinkQueue
  mem : Mem Node

/-- A call a client makes; an insertion carries what the allocator answers, an address and what
the cell there happens to hold. -/
inductive Call where
  | insertQueue (temp : ℤ) (a : ℕ) (junk : Node)
  | deleteQueue

/-- What a call computes. -/
def Call.exec (s : State) : Call → Option (LinkQueue × Mem Node)
  | insertQueue temp a junk => Queue.insertQueue s.queue temp a junk s.mem
  | deleteQueue => Queue.deleteQueue s.queue s.mem

/-- One call, which leaves the state `s'`. -/
def Step (s : State) (c : Call) (s' : State) : Prop := c.exec s = some (s'.queue, s'.mem)

/-- The address of a new node is not in use. -/
def Call.Fresh (m : Mem Node) : Call → Prop
  | insertQueue _ a _ => m a = none
  | deleteQueue => True

/-! ### The abstract queue -/

/-- The sequence after a call: its elements, the oldest first, each with the address of its
node. -/
def Call.apply (q : List (ℕ × ℤ)) : Call → List (ℕ × ℤ)
  | insertQueue temp a _ => q ++ [(a, temp)]
  | deleteQueue => q.tail

/-- The sequence after the calls of a run. -/
def elements (cs : List Call) : List (ℕ × ℤ) := cs.foldl Call.apply []

@[simp] lemma elements_snoc {cs : List Call} {c : Call} :
    elements (cs ++ [c]) = c.apply (elements cs) := by
  simp [elements]

/-- The chain of the head node `d`, which holds anything, and the nodes of the sequence `q`; the
last one links to `NULL`, and `rear` is its address. -/
structure Linked (d : ℕ) (s : State) (q : List (ℕ × ℤ)) : Prop where
  front : s.queue.front = some d
  nodes : ∃ x, s.mem.Holds (links ((d, x) :: q) none)
  rear : s.queue.rear = lastOf (some d) q
  nodup : (d :: q.map Prod.fst).Nodup

variable {d : ℕ} {s s' : State} {c : Call} {cs : List Call} {q : List (ℕ × ℤ)}

/-! ### One call -/

/-- `initQueue` makes the chain of the head node alone. -/
lemma initQueue_linked {junk : Node} {m : Mem Node}
    (h : initQueue d junk m = some (s.queue, s.mem)) : Linked d s [] := by
  simp only [initQueue, Option.bind_eq_bind, Option.bind_eq_some_iff] at h
  obtain ⟨m₁, hmalloc, m₂, hmodify, heq⟩ := h
  have hm₁ : m₁ d = some junk := by
    cases hd : m d with
    | none =>
        rw [Mem.malloc_eq hd] at hmalloc
        cases hmalloc
        exact Function.update_self _ _ _
    | some n => simp [Mem.malloc, hd] at hmalloc
  rw [Mem.modify_eq hm₁] at hmodify
  cases hmodify
  obtain ⟨hqueue, hmem⟩ := Prod.mk.inj (Option.some_inj.mp heq)
  refine ⟨by rw [← hqueue], ⟨junk.data, ?_⟩, by rw [← hqueue]; rfl, by simp⟩
  simp [← hmem, SingleNode.setNext]

lemma Linked.holds_head (h : Linked d s q) : ∃ x, s.mem d = some ⟨x, firstOf none q⟩ := by
  obtain ⟨x, hx⟩ := h.nodes
  exact ⟨x, (Mem.holds_cons.mp hx).1⟩

lemma Linked.holds_nodes (h : Linked d s q) : s.mem.Holds (links q none) := by
  obtain ⟨x, hx⟩ := h.nodes
  exact (Mem.holds_cons.mp hx).2

/-- Only in the empty queue is the head node the last one. -/
lemma Linked.isEmpty_iff (h : Linked d s q) : isEmpty s.queue = true ↔ q = [] := by
  rw [isEmpty, decide_eq_true_eq, h.rear, h.front]
  refine ⟨fun heq => ?_, fun hq => by rw [hq, lastOf_nil]⟩
  by_contra hne
  rw [lastOf_eq_getLast?, List.getLast?_eq_some_iff] at heq
  obtain ⟨as, has⟩ := heq
  cases as with
  | nil => simp_all
  | cons b as =>
      have hmem : d ∈ q.map Prod.fst := by
        rw [(List.cons.inj has).2]
        simp
      exact (List.nodup_cons.mp h.nodup).1 hmem

/-- `rear` links to `NULL`. -/
lemma Linked.rear_next (h : Linked d s q) :
    s.mem.read s.queue.rear SingleNode.next = some none := by
  obtain ⟨x, hx⟩ := h.nodes
  obtain ⟨L, ⟨a, y⟩, hL⟩ : ∃ L c, (d, x) :: q = L ++ [c] :=
    ⟨_, _, (List.dropLast_append_getLast (by simp)).symm⟩
  have hrear : s.queue.rear = some a := by
    rw [h.rear, ← lastOf_cons (p := none) (x := x), hL, lastOf_append]
    rfl
  rw [hL, links_append, Mem.holds_append, links_cons, Mem.holds_cons] at hx
  rw [hrear, Mem.read_eq hx.2.1]
  rfl

/-- `insertQueue` puts a new node behind the last one. -/
lemma insertQueue_spec (h : Linked d s q) {a : ℕ} (ha : s.mem a = none) (temp : ℤ) (junk : Node) :
    ∃ s', Step s (.insertQueue temp a junk) s' ∧ Linked d s' (q ++ [(a, temp)]) := by
  obtain ⟨x, hx⟩ := h.nodes
  have hnew : a ∉ ((d, x) :: q).map Prod.fst := by
    have hnot := hx.not_mem ha
    rwa [map_fst_links] at hnot
  have hheld : Mem.Holds (Function.update s.mem a (some ⟨temp, none⟩)) (links ((d, x) :: q) none) :=
    hx.update (by rwa [map_fst_links])
  obtain ⟨m', hlink, hlinks, hrest⟩ := hheld.linkLast (p := none) h.nodup (by simp) (some a)
  rw [lastOf_cons, ← h.rear] at hlink
  refine ⟨⟨{ s.queue with rear := some a }, m'⟩, ?_, h.front, ⟨x, ?_⟩, ?_, ?_⟩
  · have hnode : ((junk.setData temp).setNext none : Node) = ⟨temp, none⟩ := rfl
    simp [Step, Call.exec, insertQueue, Mem.malloc_eq ha, Mem.modify_update, hnode, hlink]
  · rw [← List.cons_append, links_append, Mem.holds_append]
    refine ⟨hlinks, Mem.holds_cons.mpr ⟨?_, Mem.holds_nil _⟩⟩
    exact (hrest a hnew).trans (Function.update_self _ _ _)
  · rw [lastOf_append]
    rfl
  · have hnodup : (((d, x) :: q ++ (a, temp) :: []).map Prod.fst).Nodup :=
      nodup_insert _ (by simpa using h.nodup) (by simpa using hnew)
    simpa using hnodup

/-- `deleteQueue` does nothing to an empty queue. -/
lemma deleteQueue_nil (h : Linked d s []) : Step s .deleteQueue s := by
  have hempty := h.isEmpty_iff.mpr rfl
  simp [Step, Call.exec, deleteQueue, hempty]

/-- `deleteQueue` takes the first node out and releases it. -/
lemma deleteQueue_cons {a : ℕ} {y : ℤ} (h : Linked d s ((a, y) :: q)) :
    ∃ s', Step s .deleteQueue s' ∧ Linked d s' q ∧ s'.mem a = none
      ∧ ∀ b, b ≠ a → b ≠ d → s'.mem b = s.mem b := by
  obtain ⟨x, hd⟩ := h.holds_head
  obtain ⟨ha, hq⟩ := Mem.holds_cons.mp h.holds_nodes
  have hnodup := h.nodup
  rw [List.map_cons, List.nodup_cons, List.nodup_cons] at hnodup
  obtain ⟨hdnot, hanot, hqnodup⟩ := hnodup
  have hda : a ≠ d := by
    rintro rfl
    exact hdnot (by simp)
  obtain ⟨m₁, hmodify, hd₁, hrest₁⟩ := Mem.modify_spec hd (SingleNode.setNext (firstOf none q))
  have ha₁ := (hrest₁ a hda).trans ha
  have hempty : isEmpty s.queue = false := by
    rw [← Bool.not_eq_true, h.isEmpty_iff]
    simp
  refine ⟨⟨if s.queue.rear = some a then { s.queue with rear := s.queue.front } else s.queue,
    Function.update m₁ a none⟩, ?_, ⟨?_, ⟨x, ?_⟩, ?_, ?_⟩, Function.update_self _ _ _,
    fun b hba hbd => ?_⟩
  · simp [Step, Call.exec, deleteQueue, hempty, h.front, Mem.read_eq hd, Mem.read_eq ha, hmodify,
      Mem.free_eq ha₁]
  · split_ifs <;> exact h.front
  · refine Mem.holds_cons.mpr ⟨(Function.update_of_ne hda.symm _ _).trans hd₁,
      (hq.frame fun b hb => hrest₁ b ?_).update (by rwa [map_fst_links])⟩
    rw [map_fst_links] at hb
    rintro rfl
    exact hdnot (by simp [hb])
  · -- the node taken out was the last one, or the last one is behind it
    have hrear := h.rear
    rw [lastOf_cons] at hrear
    cases q with
    | nil =>
        simp only [if_pos (show s.queue.rear = some a from hrear)]
        exact h.front
    | cons c q =>
        obtain ⟨b, z⟩ := c
        have hne : s.queue.rear ≠ some a := by
          rw [hrear, lastOf_cons, lastOf_eq_getLast?]
          exact fun heq => hanot (List.mem_of_getLast? heq)
        simp only [if_neg hne]
        exact hrear
  · exact List.nodup_cons.mpr ⟨fun hmem => hdnot (by simp [hmem]), hqnodup⟩
  · exact (Function.update_of_ne hba _ _).trans (hrest₁ b hbd)

lemma map_snd_numbered (i : ℤ) (L : List ℤ) : (numbered i L).map Prod.snd = L := by
  induction L generalizing i with
  | nil => rfl
  | cons x L ih => rw [numbered, List.map_cons, ih]

/-- `traversal` prints the elements, the oldest first. -/
lemma traversal_spec (h : Linked d s q) :
    Returns (fun fuel => traversal fuel s.queue s.mem) (numbered 1 (q.map Prod.snd)) := by
  obtain ⟨x, hd⟩ := h.holds_head
  refine (visit_links h.holds_nodes).map fun fuel hvisit => ?_
  simp [traversal, h.front, Mem.read_eq hd, hvisit]

/-- The loop of `destoryQueue` releases the chain at `front`, with `rear` one node ahead. -/
lemma destoryQueue_eq (fuel : ℕ) (queue : LinkQueue) (m : Mem Node) :
    destoryQueue fuel queue m = (freeChain fuel queue.front m).map fun r =>
      (r.1, ⟨none, if queue.front = none then queue.rear else none⟩, r.2) := by
  induction fuel generalizing queue m with
  | zero => rfl
  | succ fuel ih =>
      obtain ⟨front, rear⟩ := queue
      cases front with
      | none => rfl
      | some a =>
          simp only [destoryQueue, freeChain, ih, Option.bind_eq_bind, Option.map_bind,
            Option.bind_map]
          congr! with next
          have hnone : (if next = none then next else none) = none := by
            split_ifs with h
            · exact h
            · rfl
          simp [hnone]

/-- `destoryQueue` releases the head node and the nodes of the elements, each once, and nothing
else. -/
lemma destoryQueue_spec (h : Linked d s q) :
    ∃ m', Returns (fun fuel => destoryQueue fuel s.queue s.mem)
        (d :: q.map Prod.fst, ⟨none, none⟩, m')
      ∧ (∀ b ∈ d :: q.map Prod.fst, m' b = none)
      ∧ ∀ b ∉ d :: q.map Prod.fst, m' b = s.mem b := by
  obtain ⟨x, hx⟩ := h.nodes
  obtain ⟨m', hfree, hfreed, hkept⟩ := freeChain_links hx h.nodup
  refine ⟨m', hfree.map fun fuel hloop => ?_, hfreed, hkept⟩
  rw [firstOf_cons, List.map_cons] at hloop
  simp [destoryQueue_eq, h.front, hloop]

/-- A call returns and leaves the chain of what it makes of the sequence. -/
lemma Call.simulates (h : Linked d s q) (hfresh : c.Fresh s.mem) :
    ∃ s', Step s c s' ∧ Linked d s' (c.apply q) := by
  cases c with
  | insertQueue temp a junk => exact insertQueue_spec h hfresh temp junk
  | deleteQueue =>
      cases q with
      | nil => exact ⟨s, deleteQueue_nil h, h⟩
      | cons e q =>
          obtain ⟨s', hstep, hs', -⟩ := deleteQueue_cons h
          exact ⟨s', hstep, hs'⟩

/-- `malloc` hands out a new address. -/
lemma Step.fresh (h : Step s c s') : c.Fresh s.mem := by
  cases c with
  | deleteQueue => trivial
  | insertQueue temp a junk =>
      cases ha : s.mem a with
      | none => exact ha
      | some n => simp [Step, Call.exec, insertQueue, Mem.malloc, ha] at h

lemma Linked.step (h : Linked d s q) (hstep : Step s c s') : Linked d s' (c.apply q) := by
  obtain ⟨⟨queue, mem⟩, hstep', hs'⟩ := Call.simulates h hstep.fresh
  obtain ⟨rfl, rfl⟩ := Prod.mk.inj (Option.some_inj.mp (hstep'.symm.trans hstep))
  exact hs'

/-- **A run** leads to the chain of the sequence its calls leave. -/
lemma run_linked {s₀ : State} (h₀ : Linked d s₀ []) (h : Reaches Step s₀ cs s) :
    Linked d s (elements cs) := by
  refine h.induct (P := fun cs s => Linked d s (elements cs)) h₀ fun cs s c s' _ hs hstep => ?_
  rw [elements_snoc]
  exact hs.step hstep

/-- What `deleteQueue` leaves of the queue `q`: nothing new of an empty one, and of another one
the rest, with the oldest element gone and its node released. -/
def Deleted (d : ℕ) (s s' : State) : List (ℕ × ℤ) → Prop
  | [] => s' = s
  | (a, _) :: q => Linked d s' q ∧ s'.mem a = none ∧ ∀ b, b ≠ a → b ≠ d → s'.mem b = s.mem b

/-- **The linked queue is first in, first out.**  After every run of calls on a queue made by
`initQueue`, `rear` is the last node of the chain at `front` and links to `NULL`, and the queue is
empty when its sequence is.  An insertion with a fresh address puts an element behind the sequence,
a deletion takes the oldest one out and releases its node; a traversal prints the elements in their
order; and `destoryQueue` releases the head node and all the others, each once. -/
theorem queue_fifo {junk : Node} {m : Mem Node} {s₀ : State}
    (hinit : initQueue d junk m = some (s₀.queue, s₀.mem)) (h : Reaches Step s₀ cs s) :
    Linked d s (elements cs)
      ∧ s.mem.read s.queue.rear SingleNode.next = some none
      ∧ (isEmpty s.queue = true ↔ elements cs = [])
      ∧ (∀ temp a junk, s.mem a = none →
        ∃ s', Step s (.insertQueue temp a junk) s' ∧ Linked d s' (elements cs ++ [(a, temp)]))
      ∧ (∃ s', Step s .deleteQueue s' ∧ Deleted d s s' (elements cs))
      ∧ (∃ lines, Returns (fun fuel => traversal fuel s.queue s.mem) lines
        ∧ lines.map Prod.snd = (elements cs).map Prod.snd)
      ∧ ∃ m', Returns (fun fuel => destoryQueue fuel s.queue s.mem)
          (d :: (elements cs).map Prod.fst, ⟨none, none⟩, m')
        ∧ (d :: (elements cs).map Prod.fst).Nodup
        ∧ (∀ b ∈ d :: (elements cs).map Prod.fst, m' b = none)
        ∧ ∀ b ∉ d :: (elements cs).map Prod.fst, m' b = s.mem b := by
  have hs := run_linked (initQueue_linked hinit) h
  refine ⟨hs, hs.rear_next, hs.isEmpty_iff, fun temp a junk ha => insertQueue_spec hs ha temp junk,
    ?_, ⟨_, traversal_spec hs, map_snd_numbered _ _⟩, ?_⟩
  · cases hq : elements cs with
    | nil =>
        rw [hq] at hs
        exact ⟨s, deleteQueue_nil hs, rfl⟩
    | cons e q =>
        rw [hq] at hs
        exact deleteQueue_cons hs
  · obtain ⟨m', hdestroy, hfreed, hkept⟩ := destoryQueue_spec hs
    exact ⟨m', hdestroy, hs.nodup, hfreed, hkept⟩

/-- What the allocator leaves in a cell, in the run that follows. -/
def queueJunk : Node := ⟨7, some 7⟩

/-- `initQueue` with nothing allocated. -/
def queueStart : State :=
  ⟨⟨some 0, some 0⟩, Function.update (fun _ => none) 0 (some ⟨7, none⟩)⟩

lemma initQueue_queueStart :
    initQueue 0 queueJunk (fun _ => none) = some (queueStart.queue, queueStart.mem) := by
  simp [initQueue, Mem.malloc, Mem.modify, SingleNode.setNext, queueStart, queueJunk]

/-- An element goes in; a deletion would take it out, and `destoryQueue` releases both nodes. -/
theorem queue_fifo_one :
    ∃ s, Reaches Step queueStart [.insertQueue 5 1 queueJunk] s
      ∧ (∃ s', Step s .deleteQueue s' ∧ Linked 0 s' [] ∧ s'.mem 1 = none)
      ∧ ∃ m', Returns (fun fuel => destoryQueue fuel s.queue s.mem) ([0, 1], ⟨none, none⟩, m') := by
  obtain ⟨-, -, -, hinsert, -⟩ := queue_fifo initQueue_queueStart .start
  obtain ⟨s, hstep, -⟩ := hinsert 5 1 queueJunk rfl
  have hrun := Reaches.step .start hstep
  obtain ⟨-, -, -, -, ⟨s', hdelete, hdeleted⟩, -, m', hdestroy, -⟩ :=
    queue_fifo initQueue_queueStart hrun
  exact ⟨s, hrun, ⟨s', hdelete, hdeleted.1, hdeleted.2.1⟩, m', hdestroy⟩

end Wgs.Queue
