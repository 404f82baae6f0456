import Wgs.Foundation.SinglyLinked
import Wgs.Foundation.Transcript
import Wgs.Ucos.Config

/-!
`uCOS-III/Source/os_msg.c`: the message queues, which share one pool of messages.

A free message is linked into the pool.  A queue is a chain from `OutPtr` to `InPtr`; the link of
its last message is never read, and after a first `OS_MsgQPut` it still leads into the pool.  So
what is kept of a queue is a chain with any end, of `NbrEntries` messages.

For clients the queues are lists of messages, of which there are never more than the pool has: every
list of calls has the transcript of these lists (`osMsg_transcript_eq`).
-/

namespace Wgs.Ucos

open Foundation

/-- An `OS_MSG`, without its link. -/
structure Msg where
  msgPtr : Ptr
  msgSize : ℕ
  msgTS : ℕ
  deriving DecidableEq

/-- The `OS_MSG`s of a memory. -/
abbrev Msgs := Mem (SingleNode Msg)

/-- `OS_MSG_POOL` -/
structure OsMsgPool where
  nextPtr : Ptr
  nbrFree : ℕ
  nbrUsed : ℕ
  nbrUsedMax : ℕ
  deriving DecidableEq

/-- `OS_MSG_Q` -/
structure OsMsgQ where
  inPtr : Ptr
  outPtr : Ptr
  nbrEntriesSize : ℕ
  nbrEntries : ℕ
  nbrEntriesMax : ℕ
  deriving DecidableEq

def osOptPostFifo : BitVec 16 := 0x0000

def osOptPostLifo : BitVec 16 := 0x0010

/-- The message that `OS_MsgPoolCreate` makes of every one. -/
def clearedMsg : Msg := ⟨none, 0, 0⟩

/-- The loop of `OS_MsgPoolCreate` over `loops - i`, with the assignments behind it. -/
def poolCreateLoop : ℕ → ℕ → ℕ → Msgs → Option Msgs
  | 0, pMsg1, _, m => m.modify (some pMsg1) fun _ => ⟨clearedMsg, none⟩
  | n + 1, pMsg1, pMsg2, m => do
      let m ← m.modify (some pMsg1) fun _ => ⟨clearedMsg, some pMsg2⟩
      poolCreateLoop n (pMsg1 + 1) (pMsg2 + 1) m

/-- `OS_MsgPoolCreate` -/
def osMsgPoolCreate (pMsg size : ℕ) (m : Msgs) : Option Msgs :=
  poolCreateLoop (size - 1) pMsg (pMsg + 1) m

/-- `OS_MsgPoolInit`: the error, the pool and the memory. -/
def osMsgPoolInit (basePtr : Ptr) (size : ℕ) (pool : OsMsgPool) (m : Msgs) :
    Option (OsErr × OsMsgPool × Msgs) :=
  match basePtr with
  | none => some (.msgPoolNullPtr, pool, m)
  | some base =>
      if size = 0 then some (.msgPoolEmpty, pool, m)
      else (osMsgPoolCreate base size m).map fun m => (.none, ⟨some base, size, 0, 0⟩, m)

/-- `OS_MsgQInit` -/
def osMsgQInit (size : ℕ) : OsMsgQ := ⟨none, none, size, 0, 0⟩

/-- `OS_MsgQFreeAll`: the number of messages, the queue, the pool and the memory. -/
def osMsgQFreeAll (pMsgQ : OsMsgQ) (pool : OsMsgPool) (m : Msgs) :
    Option (ℕ × OsMsgQ × OsMsgPool × Msgs) :=
  let qty := pMsgQ.nbrEntries
  if 0 < pMsgQ.nbrEntries then do
    let m ← m.modify pMsgQ.inPtr (SingleNode.setNext pool.nextPtr)
    let pool := { pool with
      nextPtr := pMsgQ.outPtr
      nbrUsed := qtySub pool.nbrUsed pMsgQ.nbrEntries
      nbrFree := qtyAdd pool.nbrFree pMsgQ.nbrEntries }
    return (qty, ⟨none, none, pMsgQ.nbrEntriesSize, 0, 0⟩, pool, m)
  else some (qty, pMsgQ, pool, m)

/-- `OS_MsgQGet`: `p_msg_q->OutPtr = p_msg->NextPtr;` and the lines behind it. -/
def unlinkMsg (pMsgQ : OsMsgQ) (next : Ptr) : OsMsgQ :=
  if next = none then { pMsgQ with outPtr := next, inPtr := none, nbrEntries := 0 }
  else { pMsgQ with outPtr := next, nbrEntries := qtySub pMsgQ.nbrEntries 1 }

/-- `OS_MsgQGet`: the message, its size and its time stamp, the error, the queue, the pool and the
memory. -/
def osMsgQGet (pMsgQ : OsMsgQ) (pool : OsMsgPool) (m : Msgs) :
    Option (Msg × OsErr × OsMsgQ × OsMsgPool × Msgs) :=
  if pMsgQ.nbrEntries = 0 then some (⟨none, 0, 0⟩, .qEmpty, pMsgQ, pool, m)
  else do
    let pMsg := pMsgQ.outPtr
    let msg ← m.read pMsg SingleNode.data
    let next ← m.read pMsg SingleNode.next
    let m ← m.modify pMsg (SingleNode.setNext pool.nextPtr)
    let pool := { pool with
      nextPtr := pMsg
      nbrFree := qtyAdd pool.nbrFree 1
      nbrUsed := qtySub pool.nbrUsed 1 }
    return (msg, .none, unlinkMsg pMsgQ next, pool, m)

/-- `OS_MsgQPut`, from `if (p_msg_q->NbrEntries == 0)` on: the message is linked into the queue. -/
def linkMsg (pMsgQ : OsMsgQ) (pMsg : Ptr) (opt : BitVec 16) (m : Msgs) : Option (OsMsgQ × Msgs) :=
  if pMsgQ.nbrEntries = 0 then
    some ({ pMsgQ with inPtr := pMsg, outPtr := pMsg, nbrEntries := 1 }, m)
  else if opt &&& osOptPostLifo = osOptPostFifo then do
    let m ← m.modify pMsgQ.inPtr (SingleNode.setNext pMsg)
    let m ← m.modify pMsg (SingleNode.setNext none)
    return ({ pMsgQ with inPtr := pMsg, nbrEntries := qtyAdd pMsgQ.nbrEntries 1 }, m)
  else do
    let m ← m.modify pMsg (SingleNode.setNext pMsgQ.outPtr)
    return ({ pMsgQ with outPtr := pMsg, nbrEntries := qtyAdd pMsgQ.nbrEntries 1 }, m)

/-- `OS_MsgQPut`, behind the linking: the peak of the entries. -/
def countPeak (pMsgQ : OsMsgQ) : OsMsgQ :=
  if pMsgQ.nbrEntriesMax < pMsgQ.nbrEntries then { pMsgQ with nbrEntriesMax := pMsgQ.nbrEntries }
  else pMsgQ

/-- `OS_MsgQPut`: the error, the queue, the pool and the memory. -/
def osMsgQPut (pMsgQ : OsMsgQ) (msg : Msg) (opt : BitVec 16) (pool : OsMsgPool) (m : Msgs) :
    Option (OsErr × OsMsgQ × OsMsgPool × Msgs) :=
  if pMsgQ.nbrEntriesSize ≤ pMsgQ.nbrEntries then some (.qMax, pMsgQ, pool, m)
  else if pool.nbrFree = 0 then some (.msgPoolEmpty, pMsgQ, pool, m)
  else do
    let pMsg := pool.nextPtr
    let next ← m.read pMsg SingleNode.next
    let nbrUsed := qtyAdd pool.nbrUsed 1
    let pool : OsMsgPool :=
      { nextPtr := next
        nbrFree := qtySub pool.nbrFree 1
        nbrUsed := nbrUsed
        nbrUsedMax := if pool.nbrUsedMax < nbrUsed then nbrUsed else pool.nbrUsedMax }
    let (pMsgQ, m) ← linkMsg pMsgQ pMsg opt m
    let m ← m.modify pMsg (SingleNode.setData msg)
    return (.none, countPeak pMsgQ, pool, m)

/-! ### Clients of the queues -/

/-- The message queues of a system, their pool and the messages. -/
structure MsgQs (k : ℕ) where
  pool : OsMsgPool
  queue : Fin k → OsMsgQ
  msgs : Msgs

/-- What is asked of the queue `i`. -/
inductive MsgCall (k : ℕ) where
  | put (i : Fin k) (msg : Msg) (opt : BitVec 16)
  | get (i : Fin k)
  | freeAll (i : Fin k)

/-- What a caller sees: an error, with a message after `get` and a number after `freeAll`. -/
inductive MsgReply where
  | put (err : OsErr)
  | get (msg : Msg) (err : OsErr)
  | freeAll (qty : ℕ)
  deriving DecidableEq

/-- Lists of messages, with the peaks that the kernel counts. -/
structure Queued (k : ℕ) where
  size : Fin k → ℕ
  items : Fin k → List Msg
  peak : Fin k → ℕ
  usedMax : ℕ

/-- The messages of all the queues. -/
def Queued.used {k : ℕ} (t : Queued k) : ℕ := ∑ i, (t.items i).length

/-- A message goes behind the others or, with `OS_OPT_POST_LIFO`, in front of them. -/
def place {α : Type} (opt : BitVec 16) (L : List α) (x : α) : List α :=
  if opt &&& osOptPostLifo = osOptPostFifo then L ++ [x] else x :: L

namespace MsgCall

variable {k : ℕ}

/-- The kernel serves a call. -/
def serve : MsgCall k → MsgQs k → Option (MsgReply × MsgQs k)
  | put i msg opt, s => do
      let (err, pMsgQ, pool, msgs) ← osMsgQPut (s.queue i) msg opt s.pool s.msgs
      return (.put err, ⟨pool, Function.update s.queue i pMsgQ, msgs⟩)
  | get i, s => do
      let (msg, err, pMsgQ, pool, msgs) ← osMsgQGet (s.queue i) s.pool s.msgs
      return (.get msg err, ⟨pool, Function.update s.queue i pMsgQ, msgs⟩)
  | freeAll i, s => do
      let (qty, pMsgQ, pool, msgs) ← osMsgQFreeAll (s.queue i) s.pool s.msgs
      return (.freeAll qty, ⟨pool, Function.update s.queue i pMsgQ, msgs⟩)

/-- What the call means for lists of messages, of which there are never more than `cap`. -/
def apply (cap : ℕ) : MsgCall k → Queued k → MsgReply × Queued k
  | put i msg opt, t =>
      if t.size i ≤ (t.items i).length then (.put .qMax, t)
      else if cap ≤ t.used then (.put .msgPoolEmpty, t)
      else
        (.put .none, { t with
          items := Function.update t.items i (place opt (t.items i) msg)
          peak := Function.update t.peak i (max (t.peak i) ((t.items i).length + 1))
          usedMax := max t.usedMax (t.used + 1) })
  | get i, t =>
      match t.items i with
      | [] => (.get ⟨none, 0, 0⟩ .qEmpty, t)
      | msg :: items => (.get msg .none, { t with items := Function.update t.items i items })
  | freeAll i, t =>
      (.freeAll (t.items i).length, { t with
        items := Function.update t.items i []
        peak := if t.items i = [] then t.peak else Function.update t.peak i 0 })

end MsgCall

section Place

variable {α β : Type} {opt : BitVec 16} {L : List α} {x : α}

lemma exists_place (opt : BitVec 16) (L : List α) :
    ∃ xs ys, xs ++ ys = L ∧ ∀ x, place opt L x = xs ++ x :: ys := by
  by_cases hopt : opt &&& osOptPostLifo = osOptPostFifo
  · exact ⟨L, [], List.append_nil L, fun x => if_pos hopt⟩
  · exact ⟨[], L, rfl, fun x => if_neg hopt⟩

lemma map_place (f : α → β) : (place opt L x).map f = place opt (L.map f) (f x) := by
  unfold place
  split_ifs <;> simp

lemma perm_place : (place opt L x).Perm (x :: L) := by
  obtain ⟨xs, ys, rfl, hplace⟩ := exists_place opt L
  rw [hplace]
  exact List.perm_middle

lemma length_place : (place opt L x).length = L.length + 1 := perm_place.length_eq

end Place

/-! ### The chains of the queues -/

/-- The messages `L` are those of the queue. -/
structure IsMsgQ (m : Msgs) (pMsgQ : OsMsgQ) (L : List (ℕ × Msg)) : Prop where
  nodes : ∃ r, m.Holds (links L r)
  outPtr : L ≠ [] → pMsgQ.outPtr = firstOf none L
  inPtr : L ≠ [] → pMsgQ.inPtr = lastOf none L
  nbrEntries : pMsgQ.nbrEntries = L.length

namespace IsMsgQ

variable {m m' : Msgs} {pMsgQ : OsMsgQ} {L rest : List (ℕ × Msg)} {a : ℕ} {x msg : Msg} {r : Ptr}

lemma frame (h : IsMsgQ m pMsgQ L) (hagree : ∀ b ∈ L.map Prod.fst, m' b = m b) :
    IsMsgQ m' pMsgQ L := by
  obtain ⟨r, hr⟩ := h.nodes
  exact ⟨⟨r, hr.frame fun b hb => hagree b (by rwa [map_fst_links] at hb)⟩, h.outPtr, h.inPtr,
    h.nbrEntries⟩

lemma nbrEntries_eq_zero (h : IsMsgQ m pMsgQ L) : pMsgQ.nbrEntries = 0 ↔ L = [] := by
  rw [h.nbrEntries, List.length_eq_zero_iff]

/-- **A message is linked into a queue**, behind the others or in front of them. -/
lemma link (h : IsMsgQ m pMsgQ L) (hnodup : (L.map Prod.fst).Nodup) (ha : m a = some ⟨x, r⟩)
    (hnew : a ∉ L.map Prod.fst) (hlen : L.length + 1 < 65536) (opt : BitVec 16) :
    ∃ pMsgQ' m', linkMsg pMsgQ (some a) opt m = some (pMsgQ', m')
      ∧ IsMsgQ m' pMsgQ' (place opt L (a, x))
      ∧ (∀ b, b ≠ a → b ∉ L.map Prod.fst → m' b = m b)
      ∧ pMsgQ'.nbrEntriesSize = pMsgQ.nbrEntriesSize
      ∧ pMsgQ'.nbrEntriesMax = pMsgQ.nbrEntriesMax := by
  have hqty : qtyAdd pMsgQ.nbrEntries 1 = L.length + 1 := by
    rw [qtyAdd, h.nbrEntries, Nat.mod_eq_of_lt hlen]
  by_cases hnil : L = []
  · subst hnil
    refine ⟨{ pMsgQ with inPtr := some a, outPtr := some a, nbrEntries := 1 }, m,
      by rw [linkMsg, if_pos (h.nbrEntries_eq_zero.mpr rfl)], ?_, fun _ _ _ => rfl, rfl, rfl⟩
    rw [place, List.nil_append, ite_self]
    exact ⟨⟨r, by simpa using ha⟩, fun _ => rfl, fun _ => rfl, rfl⟩
  · obtain ⟨r₀, hr₀⟩ := h.nodes
    have hzero : pMsgQ.nbrEntries ≠ 0 := mt h.nbrEntries_eq_zero.mp hnil
    by_cases hopt : opt &&& osOptPostLifo = osOptPostFifo
    · obtain ⟨m₁, hm₁, hL₁, hrest₁⟩ := hr₀.linkLast (p := none) hnodup hnil (some a)
      obtain ⟨m₂, hm₂, ha₂, hrest₂⟩ :=
        Mem.modify_spec ((hrest₁ a hnew).trans ha) (SingleNode.setNext none)
      rw [← h.inPtr hnil] at hm₁
      refine ⟨{ pMsgQ with inPtr := some a, nbrEntries := qtyAdd pMsgQ.nbrEntries 1 }, m₂,
        by simp [linkMsg, hzero, hopt, hm₁, hm₂], ?_, fun b hb hbL => ?_, rfl, rfl⟩
      · rw [place, if_pos hopt]
        refine ⟨⟨none, ?_⟩, fun _ => ?_, fun _ => by simp, by simp [hqty]⟩
        · rw [links_append, Mem.holds_append, links_cons, Mem.holds_cons]
          refine ⟨hL₁.frame fun b hb => hrest₂ b ?_, ha₂, Mem.holds_nil _⟩
          exact ne_of_mem_of_not_mem (by rwa [map_fst_links] at hb) hnew
        · obtain ⟨c, L, rfl⟩ := List.exists_cons_of_ne_nil hnil
          exact h.outPtr hnil
      · exact (hrest₂ b hb).trans (hrest₁ b hbL)
    · obtain ⟨m₁, hm₁, ha₁, hrest₁⟩ := Mem.modify_spec ha (SingleNode.setNext pMsgQ.outPtr)
      refine ⟨{ pMsgQ with outPtr := some a, nbrEntries := qtyAdd pMsgQ.nbrEntries 1 }, m₁,
        by simp [linkMsg, hzero, hopt, hm₁], ?_, fun b hb _ => hrest₁ b hb, rfl, rfl⟩
      rw [place, if_neg hopt]
      obtain ⟨c, L, rfl⟩ := List.exists_cons_of_ne_nil hnil
      refine ⟨⟨r₀, ?_⟩, fun _ => rfl, fun _ => h.inPtr hnil, by simp [hqty]⟩
      rw [links_cons, Mem.holds_cons]
      refine ⟨?_, hr₀.frame fun b hb => hrest₁ b ?_⟩
      · rw [ha₁, SingleNode.setNext, h.outPtr hnil]
        rfl
      · exact ne_of_mem_of_not_mem (by rwa [map_fst_links] at hb) hnew

/-- **The first message is taken from a queue.**  If it was the only one its link may be any. -/
lemma unlink (h : IsMsgQ m pMsgQ ((a, x) :: L)) (hlen : L.length + 1 < 65536) :
    ∃ next, m a = some ⟨x, next⟩ ∧ IsMsgQ m (unlinkMsg pMsgQ next) L := by
  obtain ⟨r, hr⟩ := h.nodes
  have hinp := h.inPtr (List.cons_ne_nil _ _)
  have hentries : qtySub pMsgQ.nbrEntries 1 = L.length := by
    rw [qtySub, h.nbrEntries, List.length_cons]
    omega
  refine ⟨firstOf r L, hr.head, ⟨r, (Mem.holds_cons.mp hr).2⟩, fun hne => ?_, fun hne => ?_, ?_⟩
  · obtain ⟨c, L, rfl⟩ := List.exists_cons_of_ne_nil hne
    rw [unlinkMsg]
    split_ifs <;> rfl
  · obtain ⟨c, L, rfl⟩ := List.exists_cons_of_ne_nil hne
    exact hinp
  · unfold unlinkMsg
    split_ifs with hnull
    · cases L with
      | nil => rfl
      | cons c L => cases hnull
    · exact hentries

lemma nbrEntriesSize_unlinkMsg {next : Ptr} :
    (unlinkMsg pMsgQ next).nbrEntriesSize = pMsgQ.nbrEntriesSize := by
  unfold unlinkMsg
  split_ifs <;> rfl

lemma nbrEntriesMax_unlinkMsg {next : Ptr} :
    (unlinkMsg pMsgQ next).nbrEntriesMax = pMsgQ.nbrEntriesMax := by
  unfold unlinkMsg
  split_ifs <;> rfl

lemma countPeak (h : IsMsgQ m pMsgQ L) : IsMsgQ m (countPeak pMsgQ) L := by
  unfold Ucos.countPeak
  split_ifs
  · exact ⟨h.nodes, h.outPtr, h.inPtr, h.nbrEntries⟩
  · exact h

/-- The contents of a message of the queue are set. -/
lemma setData {xs ys : List (ℕ × Msg)} (h : IsMsgQ m pMsgQ (xs ++ (a, x) :: ys))
    (hnodup : ((xs ++ (a, x) :: ys).map Prod.fst).Nodup) (msg : Msg) :
    ∃ m', m.modify (some a) (SingleNode.setData msg) = some m'
      ∧ IsMsgQ m' pMsgQ (xs ++ (a, msg) :: ys) ∧ ∀ b, b ≠ a → m' b = m b := by
  obtain ⟨r, hr⟩ := h.nodes
  obtain ⟨m', hm', ha, hrest⟩ := Mem.modify_spec hr.node (SingleNode.setData msg)
  rw [List.map_append, List.map_cons, List.nodup_middle, List.nodup_cons, List.mem_append,
    not_or] at hnodup
  have hout := h.outPtr (by simp)
  have hinp := h.inPtr (by simp)
  refine ⟨m', hm', ⟨⟨r, ?_⟩, fun _ => ?_, fun _ => ?_, ?_⟩, hrest⟩
  · rw [links_append, Mem.holds_append, links_cons, Mem.holds_cons] at hr ⊢
    refine ⟨hr.1.frame fun b hb => hrest b ?_, ha, hr.2.2.frame fun b hb => hrest b ?_⟩
    · rw [map_fst_links] at hb
      exact ne_of_mem_of_not_mem hb hnodup.1.1
    · rw [map_fst_links] at hb
      exact ne_of_mem_of_not_mem hb hnodup.1.2
  · rw [hout, firstOf_append, firstOf_append]
    rfl
  · rw [hinp, lastOf_append, lastOf_append]
    rfl
  · rw [h.nbrEntries, List.length_append, List.length_append]
    rfl

/-- **A message enters a queue**: it is linked, and then its data is written. -/
lemma enter (h : IsMsgQ m pMsgQ L) (hnodup : (L.map Prod.fst).Nodup) (ha : m a = some ⟨x, r⟩)
    (hnew : a ∉ L.map Prod.fst) (hlen : L.length + 1 < 65536) (opt : BitVec 16) (msg : Msg) :
    ∃ pMsgQ' m₁ m₂, linkMsg pMsgQ (some a) opt m = some (pMsgQ', m₁)
      ∧ m₁.modify (some a) (SingleNode.setData msg) = some m₂
      ∧ IsMsgQ m₂ pMsgQ' (place opt L (a, msg))
      ∧ (∀ b, b ≠ a → b ∉ L.map Prod.fst → m₂ b = m b)
      ∧ pMsgQ'.nbrEntriesSize = pMsgQ.nbrEntriesSize
      ∧ pMsgQ'.nbrEntriesMax = pMsgQ.nbrEntriesMax := by
  obtain ⟨pMsgQ', m₁, hlink, hqueue₁, hrest₁, hsize, hmax⟩ := h.link hnodup ha hnew hlen opt
  obtain ⟨xs, ys, -, hplace⟩ := exists_place opt L
  have hperm : ((place opt L (a, x)).map Prod.fst).Perm (a :: L.map Prod.fst) :=
    perm_place.map Prod.fst
  have hnodup₁ : ((place opt L (a, x)).map Prod.fst).Nodup :=
    hperm.nodup_iff.mpr (List.nodup_cons.mpr ⟨hnew, hnodup⟩)
  rw [hplace] at hqueue₁ hnodup₁
  obtain ⟨m₂, hm₂, hqueue₂, hrest₂⟩ := hqueue₁.setData hnodup₁ msg
  rw [← hplace] at hqueue₂
  exact ⟨pMsgQ', m₁, m₂, hlink, hm₂, hqueue₂,
    fun b hb hbL => (hrest₂ b hb).trans (hrest₁ b hb hbL), hsize, hmax⟩

end IsMsgQ

/-! ### The pool and the queues -/

section Stores

variable {k cap : ℕ} {s : MsgQs k} {t : Queued k} {free : List (ℕ × Msg)}
  {ent : Fin k → List (ℕ × Msg)}

/-- The messages are those of `t`: `ent i` in the queue `i`, and the others, which are free, in the
pool. -/
structure Stores (cap : ℕ) (s : MsgQs k) (t : Queued k) (free : List (ℕ × Msg))
    (ent : Fin k → List (ℕ × Msg)) : Prop where
  chain : s.msgs.Chain s.pool.nextPtr free
  queue : ∀ i, IsMsgQ s.msgs (s.queue i) (ent i)
  nodup : ∀ i, ((free ++ ent i).map Prod.fst).Nodup
  apart : ∀ i j, i ≠ j → List.Disjoint ((ent i).map Prod.fst) ((ent j).map Prod.fst)
  items : t.items = fun i => (ent i).map Prod.snd
  size : ∀ i, (s.queue i).nbrEntriesSize = t.size i
  peak : ∀ i, (s.queue i).nbrEntriesMax = t.peak i
  usedMax : s.pool.nbrUsedMax = t.usedMax
  nbrFree : s.pool.nbrFree = free.length
  nbrUsed : s.pool.nbrUsed = t.used
  total : free.length + t.used = cap

lemma nbrEntriesMax_countPeak {pMsgQ : OsMsgQ} :
    (countPeak pMsgQ).nbrEntriesMax = max pMsgQ.nbrEntriesMax pMsgQ.nbrEntries := by
  unfold countPeak
  split_ifs with hlt
  · exact (max_eq_right hlt.le).symm
  · exact (max_eq_left (not_lt.mp hlt)).symm

lemma nbrEntriesSize_countPeak {pMsgQ : OsMsgQ} :
    (countPeak pMsgQ).nbrEntriesSize = pMsgQ.nbrEntriesSize := by
  unfold countPeak
  split_ifs <;> rfl

lemma Queued.used_update (f : Fin k → List Msg) (i : Fin k) (v : List Msg) :
    ∑ j, (Function.update f i v j).length + (f i).length = ∑ j, (f j).length + v.length := by
  rw [← Finset.add_sum_erase _ _ (Finset.mem_univ i),
    ← Finset.add_sum_erase _ _ (Finset.mem_univ i), Function.update_self]
  have hrest : ∑ j ∈ Finset.univ.erase i, (Function.update f i v j).length
      = ∑ j ∈ Finset.univ.erase i, (f j).length :=
    Finset.sum_congr rfl fun j hj => by rw [Function.update_of_ne (Finset.ne_of_mem_erase hj)]
  omega

namespace Stores

lemma length_eq (h : Stores cap s t free ent) (i : Fin k) :
    (t.items i).length = (ent i).length := by
  rw [h.items, List.length_map]

lemma nbrEntries_eq (h : Stores cap s t free ent) (i : Fin k) :
    (s.queue i).nbrEntries = (t.items i).length := by
  rw [(h.queue i).nbrEntries, h.length_eq]

lemma length_le_used (h : Stores cap s t free ent) (i : Fin k) :
    (ent i).length ≤ t.used := by
  rw [← h.length_eq]
  exact Finset.single_le_sum (fun j _ => Nat.zero_le (t.items j).length) (Finset.mem_univ i)

/-- **One queue and the pool change**: they have the same messages as before, in other places, and
the other queues are left alone. -/
lemma change (h : Stores cap s t free ent) {i : Fin k} {pool : OsMsgPool} {pMsgQ : OsMsgQ}
    {m' : Msgs} {free' L : List (ℕ × Msg)} (hchain : m'.Chain pool.nextPtr free')
    (hqueue : IsMsgQ m' pMsgQ L)
    (hperm : ((free' ++ L).map Prod.fst).Perm ((free ++ ent i).map Prod.fst))
    (hrest : ∀ b ∉ (free ++ ent i).map Prod.fst, m' b = s.msgs b)
    (hsize : pMsgQ.nbrEntriesSize = t.size i) (hfree : pool.nbrFree = free'.length)
    (hused : pool.nbrUsed + free'.length = cap) :
    Stores cap ⟨pool, Function.update s.queue i pMsgQ, m'⟩
      ⟨t.size, Function.update t.items i (L.map Prod.snd),
        Function.update t.peak i pMsgQ.nbrEntriesMax, pool.nbrUsedMax⟩
      free' (Function.update ent i L) := by
  -- the messages of another queue are not among those that move
  have hother : ∀ j, j ≠ i → ∀ b ∈ (ent j).map Prod.fst, b ∉ (free ++ ent i).map Prod.fst := by
    intro j hj b hb hmem
    rw [List.map_append, List.mem_append] at hmem
    rcases hmem with hmem | hmem
    · have hnodup := h.nodup j
      rw [List.map_append, List.nodup_append'] at hnodup
      exact hnodup.2.2 hmem hb
    · exact h.apart j i hj hb hmem
  have hmoved : ∀ b, b ∈ free'.map Prod.fst ∨ b ∈ L.map Prod.fst →
      b ∈ (free ++ ent i).map Prod.fst := by
    intro b hb
    rwa [← hperm.mem_iff, List.map_append, List.mem_append]
  have hnodup' := hperm.nodup_iff.mpr (h.nodup i)
  have hlen : free'.length + L.length = free.length + (ent i).length := by
    simpa using hperm.length_eq
  have htotal : free'.length + ∑ j, (Function.update t.items i (L.map Prod.snd) j).length
      = cap := by
    have hsum := Queued.used_update t.items i (L.map Prod.snd)
    have hcap := h.total
    rw [Queued.used] at hcap
    rw [List.length_map, h.length_eq i] at hsum
    omega
  refine ⟨hchain, fun j => ?_, fun j => ?_, fun j j' hne => ?_, ?_, fun j => ?_, fun j => ?_, rfl,
    hfree, ?_, htotal⟩
  · by_cases hj : j = i
    · subst hj
      simpa using hqueue
    · simp only [Function.update_of_ne hj]
      exact (h.queue j).frame fun b hb => hrest b (hother j hj b hb)
  · by_cases hj : j = i
    · subst hj
      simpa using hnodup'
    · have hdisjoint : List.Disjoint (free'.map Prod.fst) ((ent j).map Prod.fst) :=
        fun b hb hb' => hother j hj b hb' (hmoved b (Or.inl hb))
      have hnodup := h.nodup j
      rw [List.map_append, List.nodup_append'] at hnodup hnodup' ⊢
      rw [Function.update_of_ne hj]
      exact ⟨hnodup'.1, hnodup.2.1, hdisjoint⟩
  · have hmove : ∀ j, j ≠ i → List.Disjoint (L.map Prod.fst) ((ent j).map Prod.fst) :=
      fun j hj b hb hb' => hother j hj b hb' (hmoved b (Or.inr hb))
    rcases eq_or_ne j i with rfl | hj
    · rw [Function.update_self, Function.update_of_ne hne.symm]
      exact hmove j' hne.symm
    · rcases eq_or_ne j' i with rfl | hj'
      · rw [Function.update_self, Function.update_of_ne hj]
        exact (hmove j hj).symm
      · rw [Function.update_of_ne hj, Function.update_of_ne hj']
        exact h.apart j j' hne
  · funext j
    rcases eq_or_ne j i with rfl | hj
    · simp
    · simp [Function.update_of_ne hj, h.items]
  · rcases eq_or_ne j i with rfl | hj
    · simpa using hsize
    · simpa only [Function.update_of_ne hj] using h.size j
  · rcases eq_or_ne j i with rfl | hj
    · simp
    · simpa only [Function.update_of_ne hj] using h.peak j
  · change pool.nbrUsed = ∑ j, (Function.update t.items i (L.map Prod.snd) j).length
    omega

/-- A message is put into a queue. -/
lemma put (h : Stores cap s t free ent) (hcap : cap < 65536) (i : Fin k) (msg : Msg)
    (opt : BitVec 16) :
    ∃ s', (MsgCall.put i msg opt).serve s = some (((MsgCall.put i msg opt).apply cap t).1, s')
      ∧ ∃ free' ent', Stores cap s' ((MsgCall.put i msg opt).apply cap t).2 free' ent' := by
  by_cases hsize : t.size i ≤ (t.items i).length
  · have hmax : (s.queue i).nbrEntriesSize ≤ (s.queue i).nbrEntries := by
      rwa [h.size, h.nbrEntries_eq]
    refine ⟨s, by simp [MsgCall.serve, MsgCall.apply, osMsgQPut, hsize, hmax], free, ent, ?_⟩
    simpa [MsgCall.apply, hsize] using h
  have hmax : ¬ (s.queue i).nbrEntriesSize ≤ (s.queue i).nbrEntries := by
    rwa [h.size, h.nbrEntries_eq]
  have htotal := h.total
  cases hfree : free with
  | nil =>
      have hfull : cap ≤ t.used := by simp [hfree] at htotal; omega
      have hzero : s.pool.nbrFree = 0 := by rw [h.nbrFree, hfree, List.length_nil]
      refine ⟨s, by simp [MsgCall.serve, MsgCall.apply, osMsgQPut, hsize, hmax, hzero, hfull], [],
        ent, ?_⟩
      simpa [MsgCall.apply, hsize, hfull, hfree] using h
  | cons c rest =>
      obtain ⟨a, x⟩ := c
      subst hfree
      rw [List.length_cons] at htotal
      have hroom : ¬ cap ≤ t.used := by omega
      have hpos : ¬ s.pool.nbrFree = 0 := by rw [h.nbrFree, List.length_cons]; omega
      have hle := h.length_le_used i
      have hnodup := h.nodup i
      have hnew : a ∉ (ent i).map Prod.fst := by
        rw [List.cons_append, List.map_cons, List.nodup_cons, List.map_append, List.mem_append,
          not_or] at hnodup
        exact hnodup.1.2
      have hrestnew : a ∉ rest.map Prod.fst := by
        rw [List.cons_append, List.map_cons, List.nodup_cons, List.map_append, List.mem_append,
          not_or] at hnodup
        exact hnodup.1.1
      have hent : ((ent i).map Prod.fst).Nodup := by
        rw [List.map_append, List.nodup_append'] at hnodup
        exact hnodup.2.1
      have hfirst : s.pool.nextPtr = some a := h.chain.first
      obtain ⟨pMsgQ', m₁, m₂, hlink, hm₂, hqueue, hrest', hsize', hmax'⟩ :=
        (h.queue i).enter hent h.chain.head hnew (by omega) opt msg
      have hqty : qtyAdd s.pool.nbrUsed 1 = t.used + 1 := by
        rw [qtyAdd, h.nbrUsed, Nat.mod_eq_of_lt (by omega)]
      have hqty' : qtySub s.pool.nbrFree 1 = rest.length := by
        rw [qtySub, h.nbrFree, List.length_cons]
        omega
      have hmove : ((rest ++ place opt (ent i) (a, msg)).map Prod.fst).Perm
          (((a, x) :: rest ++ ent i).map Prod.fst) := by
        refine (((perm_place (x := (a, msg))).append_left rest).map Prod.fst).trans ?_
        simp only [List.map_append, List.map_cons, List.cons_append]
        exact List.perm_middle
      have hkept : ∀ b ∉ ((a, x) :: rest ++ ent i).map Prod.fst, m₂ b = s.msgs b := by
        intro b hb
        simp only [List.cons_append, List.map_cons, List.map_append, List.mem_cons,
          List.mem_append, not_or] at hb
        exact hrest' b hb.1 hb.2.2
      have hchain : m₂.Chain (firstOf none rest) rest := by
        refine h.chain.tail.frame fun b hb => ?_
        have hdisjoint : b ∉ (ent i).map Prod.fst := by
          rw [List.cons_append, List.map_cons, List.nodup_cons, List.map_append,
            List.nodup_append'] at hnodup
          exact fun hmem => hnodup.2.2.2 hb hmem
        exact hrest' b (ne_of_mem_of_not_mem hb hrestnew) hdisjoint
      have hentries : pMsgQ'.nbrEntries = (t.items i).length + 1 := by
        rw [hqueue.nbrEntries, length_place, h.length_eq]
      let pool : OsMsgPool :=
        { nextPtr := firstOf none rest
          nbrFree := qtySub s.pool.nbrFree 1
          nbrUsed := qtyAdd s.pool.nbrUsed 1
          nbrUsedMax := if s.pool.nbrUsedMax < qtyAdd s.pool.nbrUsed 1 then
              qtyAdd s.pool.nbrUsed 1 else s.pool.nbrUsedMax }
      have hpeak : pool.nbrUsedMax = max t.usedMax (t.used + 1) := by
        simp only [pool, hqty, h.usedMax]
        split_ifs <;> omega
      have happly : ((MsgCall.put i msg opt).apply cap t).2 = ⟨t.size,
          Function.update t.items i ((place opt (ent i) (a, msg)).map Prod.snd),
          Function.update t.peak i (countPeak pMsgQ').nbrEntriesMax, pool.nbrUsedMax⟩ := by
        rw [MsgCall.apply, if_neg hsize, if_neg hroom, map_place, nbrEntriesMax_countPeak, hmax',
          hentries, hpeak, h.peak, h.items]
      refine ⟨⟨pool, Function.update s.queue i (countPeak pMsgQ'), m₂⟩, ?_, rest,
        Function.update ent i (place opt (ent i) (a, msg)), ?_⟩
      · simp [MsgCall.serve, MsgCall.apply, osMsgQPut, hsize, hmax, hpos, hroom, hfirst,
          Mem.read_eq h.chain.head, hlink, hm₂, pool]
      · rw [happly]
        refine h.change hchain hqueue.countPeak hmove hkept ?_ hqty' ?_
        · rw [nbrEntriesSize_countPeak, hsize', h.size]
        · change qtyAdd s.pool.nbrUsed 1 + rest.length = cap
          omega

/-- The first message of a queue is got. -/
lemma get (h : Stores cap s t free ent) (hcap : cap < 65536) (i : Fin k) :
    ∃ s', (MsgCall.get i).serve s = some (((MsgCall.get i).apply cap t).1, s')
      ∧ ∃ free' ent', Stores cap s' ((MsgCall.get i).apply cap t).2 free' ent' := by
  have hitems : t.items i = (ent i).map Prod.snd := by rw [h.items]
  cases hent : ent i with
  | nil =>
      have hzero := (h.queue i).nbrEntries_eq_zero.mpr hent
      rw [hent, List.map_nil] at hitems
      refine ⟨s, by simp [MsgCall.serve, MsgCall.apply, osMsgQGet, hzero, hitems], free, ent, ?_⟩
      simpa [MsgCall.apply, hitems] using h
  | cons c L =>
      obtain ⟨a, x⟩ := c
      have hzero : (s.queue i).nbrEntries ≠ 0 := by
        rw [Ne, (h.queue i).nbrEntries_eq_zero, hent]
        exact List.cons_ne_nil _ _
      rw [hent, List.map_cons] at hitems
      have hle := h.length_le_used i
      have htotal := h.total
      have hnodup := h.nodup i
      have hqueue := h.queue i
      rw [hent] at hqueue hnodup hle
      rw [List.length_cons] at hle
      obtain ⟨next, ha, hleft⟩ := hqueue.unlink (by omega)
      have hout : (s.queue i).outPtr = some a := hqueue.outPtr (List.cons_ne_nil _ _)
      rw [List.map_append, List.map_cons, List.nodup_middle, List.nodup_cons, List.mem_append,
        not_or] at hnodup
      obtain ⟨m', hm', hchain, hrest⟩ := h.chain.push ha hnodup.1.1
      have hleft' : IsMsgQ m' (unlinkMsg (s.queue i) next) L :=
        hleft.frame fun b hb => hrest b (ne_of_mem_of_not_mem hb hnodup.1.2)
      have hmove : (((a, x) :: free ++ L).map Prod.fst).Perm ((free ++ ent i).map Prod.fst) := by
        rw [hent]
        exact (List.perm_middle.symm.map Prod.fst)
      have hkept : ∀ b ∉ (free ++ ent i).map Prod.fst, m' b = s.msgs b := by
        intro b hb
        rw [hent, List.map_append, List.map_cons, List.mem_append, List.mem_cons, not_or,
          not_or] at hb
        exact hrest b hb.2.1
      let pool : OsMsgPool := { s.pool with
        nextPtr := some a
        nbrFree := qtyAdd s.pool.nbrFree 1
        nbrUsed := qtySub s.pool.nbrUsed 1 }
      have hqty : qtyAdd s.pool.nbrFree 1 = free.length + 1 := by
        rw [qtyAdd, h.nbrFree]
        omega
      have hqty' : qtySub s.pool.nbrUsed 1 + 1 = t.used := by
        rw [qtySub, h.nbrUsed]
        omega
      have happly : ((MsgCall.get i).apply cap t).2 = ⟨t.size,
          Function.update t.items i (L.map Prod.snd),
          Function.update t.peak i (unlinkMsg (s.queue i) next).nbrEntriesMax,
          pool.nbrUsedMax⟩ := by
        rw [IsMsgQ.nbrEntriesMax_unlinkMsg, h.peak, Function.update_eq_self]
        simp [MsgCall.apply, hitems, pool, h.usedMax]
      refine ⟨⟨pool, Function.update s.queue i (unlinkMsg (s.queue i) next), m'⟩, ?_,
        (a, x) :: free, Function.update ent i L, ?_⟩
      · simp [MsgCall.serve, MsgCall.apply, osMsgQGet, hzero, hitems, hout, Mem.read_eq ha, hm',
          pool]
      · rw [happly]
        refine h.change hchain hleft' hmove hkept ?_ hqty ?_
        · rw [IsMsgQ.nbrEntriesSize_unlinkMsg, h.size]
        · change qtySub s.pool.nbrUsed 1 + (free.length + 1) = cap
          omega

/-- The messages of a queue are all given back. -/
lemma freeAll (h : Stores cap s t free ent) (hcap : cap < 65536) (i : Fin k) :
    ∃ s', (MsgCall.freeAll i).serve s = some (((MsgCall.freeAll i).apply cap t).1, s')
      ∧ ∃ free' ent', Stores cap s' ((MsgCall.freeAll i).apply cap t).2 free' ent' := by
  have hitems : t.items i = (ent i).map Prod.snd := by rw [h.items]
  have hqueue := h.queue i
  by_cases hnil : ent i = []
  · have hzero := hqueue.nbrEntries_eq_zero.mpr hnil
    rw [hnil, List.map_nil] at hitems
    refine ⟨s, by simp [MsgCall.serve, MsgCall.apply, osMsgQFreeAll, hzero, hitems], free, ent, ?_⟩
    have hsame : Function.update t.items i [] = t.items := by
      rw [← hitems, Function.update_eq_self]
    simpa [MsgCall.apply, hitems, hsame] using h
  · have hzero : 0 < (s.queue i).nbrEntries :=
      Nat.pos_of_ne_zero (mt hqueue.nbrEntries_eq_zero.mp hnil)
    have hle := h.length_le_used i
    have htotal := h.total
    have hnodup := h.nodup i
    rw [List.map_append, List.nodup_append'] at hnodup
    obtain ⟨r, hr⟩ := hqueue.nodes
    have hout := hqueue.outPtr hnil
    obtain ⟨m', hm', hchain, hrest⟩ := hr.attach (p := none) h.chain hnil (by
      rw [List.map_append, List.nodup_append']
      exact ⟨hnodup.2.1, hnodup.1, hnodup.2.2.symm⟩)
    rw [← hqueue.inPtr hnil] at hm'
    have hfirst : (s.queue i).outPtr = firstOf none (ent i ++ free) := by
      rw [hout, firstOf_append]
      obtain ⟨c, L, hc⟩ := List.exists_cons_of_ne_nil hnil
      rw [hc]
      rfl
    let pool : OsMsgPool := { s.pool with
      nextPtr := (s.queue i).outPtr
      nbrUsed := qtySub s.pool.nbrUsed (s.queue i).nbrEntries
      nbrFree := qtyAdd s.pool.nbrFree (s.queue i).nbrEntries }
    let pMsgQ : OsMsgQ := ⟨none, none, (s.queue i).nbrEntriesSize, 0, 0⟩
    have hentries := hqueue.nbrEntries
    have hqty : qtyAdd s.pool.nbrFree (s.queue i).nbrEntries = (ent i ++ free).length := by
      rw [qtyAdd, h.nbrFree, hentries, List.length_append]
      omega
    have hqty' : qtySub s.pool.nbrUsed (s.queue i).nbrEntries + (ent i).length = t.used := by
      rw [qtySub, h.nbrUsed, hentries]
      omega
    have happly : ((MsgCall.freeAll i).apply cap t).2 = ⟨t.size,
        Function.update t.items i (([] : List (ℕ × Msg)).map Prod.snd),
        Function.update t.peak i pMsgQ.nbrEntriesMax, pool.nbrUsedMax⟩ := by
      simp [MsgCall.apply, hitems, hnil, pool, pMsgQ, h.usedMax]
    refine ⟨⟨pool, Function.update s.queue i pMsgQ, m'⟩, ?_, ent i ++ free,
      Function.update ent i [], ?_⟩
    · simp [MsgCall.serve, MsgCall.apply, osMsgQFreeAll, hzero, hm', pool, pMsgQ,
        ← h.nbrEntries_eq]
    · rw [happly]
      refine h.change ⟨hfirst, hchain⟩ ⟨⟨none, Mem.holds_nil _⟩, absurd rfl, absurd rfl, rfl⟩ ?_
        (fun b hb => hrest b ?_) (h.size i) hqty ?_
      · rw [List.append_nil]
        exact List.perm_append_comm.map Prod.fst
      · rw [List.map_append, List.mem_append, not_or] at hb
        exact hb.2
      · change qtySub s.pool.nbrUsed (s.queue i).nbrEntries + (ent i ++ free).length = cap
        rw [List.length_append]
        omega

/-- **Every call is served** as the lists of messages say. -/
lemma serve (h : Stores cap s t free ent) (hcap : cap < 65536) (c : MsgCall k) :
    ∃ s', c.serve s = some ((c.apply cap t).1, s')
      ∧ ∃ free' ent', Stores cap s' (c.apply cap t).2 free' ent' := by
  cases c with
  | put i msg opt => exact h.put hcap i msg opt
  | get i => exact h.get hcap i
  | freeAll i => exact h.freeAll hcap i

end Stores

/-- The loop of `OS_MsgPoolCreate` makes a chain of the messages. -/
lemma poolCreateLoop_chain {n base : ℕ} {m m' : Msgs}
    (h : poolCreateLoop n base (base + 1) m = some m') :
    ∃ L, L.length = n + 1 ∧ m'.Chain (some base) L ∧ ∀ a < base, m' a = m a := by
  induction n generalizing base m with
  | zero =>
      obtain ⟨x, -, rfl⟩ := Option.map_eq_some_iff.mp h
      refine ⟨[(base, clearedMsg)], rfl, ⟨rfl, by simp⟩, fun a ha => ?_⟩
      exact Function.update_of_ne ha.ne _ _
  | succ n ih =>
      obtain ⟨m₁, hm₁, hloop⟩ := Option.bind_eq_some_iff.mp h
      obtain ⟨x, -, rfl⟩ := Option.map_eq_some_iff.mp hm₁
      obtain ⟨L, hlen, hchain, hframe⟩ := ih hloop
      refine ⟨(base, clearedMsg) :: L, by rw [List.length_cons, hlen], hchain.cons ?_,
        fun a ha => ?_⟩
      · rw [hframe base (Nat.lt_succ_self base), Function.update_self]
      · rw [hframe a (by omega), Function.update_of_ne ha.ne]

/-- The queues and the pool as they are initialised. -/
lemma stores_of_init {pool₀ pool : OsMsgPool} {base size : ℕ} {m₀ m : Msgs}
    (h : osMsgPoolInit (some base) size pool₀ m₀ = some (.none, pool, m)) (sizes : Fin k → ℕ) :
    ∃ free ent, Stores size ⟨pool, fun i => osMsgQInit (sizes i), m⟩
      ⟨sizes, fun _ => [], fun _ => 0, 0⟩ free ent := by
  rw [osMsgPoolInit] at h
  split_ifs at h with hsize
  · simp at h
  obtain ⟨m', hcreate, heq⟩ := Option.map_eq_some_iff.mp h
  obtain ⟨rfl, rfl⟩ : (⟨some base, size, 0, 0⟩ : OsMsgPool) = pool ∧ m' = m := by simpa using heq
  obtain ⟨L, hlen, hchain, -⟩ := poolCreateLoop_chain hcreate
  have hcount : L.length = size := by omega
  refine ⟨L, fun _ => [], hchain, fun i => ⟨⟨none, Mem.holds_nil _⟩, absurd rfl, absurd rfl, rfl⟩,
    fun i => ?_, fun _ _ _ => List.disjoint_nil_left _, rfl, fun _ => rfl, fun _ => rfl, rfl,
    hcount.symm, by simp [Queued.used], by simp [Queued.used, hcount]⟩
  rw [List.append_nil]
  exact hchain.nodup

end Stores

/-- **The message queues are lists of messages.**  From queues and a pool of `size` messages as they
are initialised, every list of calls, of any of the queues, has the transcript of lists of which no
message gets lost or is handed out twice.  Nothing faults, the pool and the queues have all the
messages between them, and the peaks are those of the lists. -/
theorem osMsg_transcript_eq {k : ℕ} {pool₀ pool : OsMsgPool} {base size : ℕ} {m₀ m : Msgs}
    (hinit : osMsgPoolInit (some base) size pool₀ m₀ = some (.none, pool, m)) (hsize : size < 65536)
    (sizes : Fin k → ℕ) (calls : List (MsgCall k)) :
    transcript (faulting MsgCall.serve) ⟨pool, fun i => osMsgQInit (sizes i), m⟩ calls
        = transcript (answering (MsgCall.apply size)) ⟨sizes, fun _ => [], fun _ => 0, 0⟩ calls
      ∧ ∃ s t, stateAfter (faulting MsgCall.serve) ⟨pool, fun i => osMsgQInit (sizes i), m⟩ calls
            = some s
          ∧ stateAfter (answering (MsgCall.apply size)) ⟨sizes, fun _ => [], fun _ => 0, 0⟩ calls
            = some t
          ∧ s.pool.nbrUsed = ∑ i, (s.queue i).nbrEntries
          ∧ s.pool.nbrFree + s.pool.nbrUsed = size
          ∧ (∀ i, (s.queue i).nbrEntries = (t.items i).length
              ∧ (s.queue i).nbrEntriesMax = t.peak i)
          ∧ s.pool.nbrUsedMax = t.usedMax := by
  have hserve : ∀ (s : MsgQs k) (t : Queued k) (c : MsgCall k),
      (∃ free ent, Stores size s t free ent) → ∃ s', c.serve s = some ((c.apply size t).1, s')
        ∧ ∃ free ent, Stores size s' (c.apply size t).2 free ent :=
    fun s t c ⟨free, ent, h⟩ => h.serve hsize c
  obtain ⟨htranscript, s, t, hs, ht, free, ent, h⟩ :=
    transcript_faulting_eq MsgCall.serve (MsgCall.apply size) hserve (stores_of_init hinit sizes)
      calls
  refine ⟨htranscript, s, t, hs, ht, ?_, ?_, fun i => ⟨h.nbrEntries_eq i, h.peak i⟩, h.usedMax⟩
  · rw [h.nbrUsed, Queued.used]
    exact Finset.sum_congr rfl fun i _ => (h.nbrEntries_eq i).symm
  · rw [h.nbrFree, h.nbrUsed, h.total]

/-- Two queues share a pool of two messages. -/
theorem osMsg_transcript_eq_two : ∃ pool m, osMsgPoolInit (some 8) 2 ⟨none, 0, 0, 0⟩
      (fun _ => some ⟨clearedMsg, none⟩) = some (.none, pool, m)
    ∧ transcript (faulting MsgCall.serve) ⟨pool, fun _ : Fin 2 => osMsgQInit 2, m⟩
        [.put 0 ⟨none, 1, 0⟩ osOptPostFifo, .put 1 ⟨none, 2, 0⟩ osOptPostFifo,
          .put 0 ⟨none, 3, 0⟩ osOptPostLifo, .get 1]
      = [.ok (.put .none), .ok (.put .none), .ok (.put .msgPoolEmpty),
          .ok (.get ⟨none, 2, 0⟩ .none)] := by
  have hinit : osMsgPoolInit (some 8) 2 ⟨none, 0, 0, 0⟩ (fun _ => some ⟨clearedMsg, none⟩)
    = some (.none, ⟨some 8, 2, 0, 0⟩, _) := rfl
  refine ⟨_, _, hinit, ?_⟩
  rw [(osMsg_transcript_eq hinit (by decide) (fun _ => 2) _).1]
  decide

end Wgs.Ucos
