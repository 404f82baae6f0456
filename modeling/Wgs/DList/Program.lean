import Wgs.Foundation.DoublyLinked
import Wgs.Foundation.MachineInt
import Wgs.Foundation.Runs

/-!
`C/Double-linklist/DList.c`: the doubly linked list with a head node, function by function.

The nodes live in a memory of cells; the list itself, `DList`, is the value its functions read and
update.  The allocator answers with an address, the memory it has handed out being never
exhausted: the `NULL` of a failing `malloc` is left out.  `size` and the counter of `LocatePos` are
`int`s.

* `makeNode`, `initList`;
* `insFirst`, `insBefore`, `insAfter`, `remove`, `delFirst`, `locatePos`;
* `clearList`, `destroyList`;
* `DListStep`: one call of a client, the transition its runs are made of.
-/

namespace Wgs

open Foundation

/-- `Node`: `data`, an `Item`, which is an `int`, `previous` and `next`. -/
abbrev Node := LinkNode ℤ

/-- `DList`. -/
structure DList where
  head : Ptr
  tail : Ptr
  size : ℤ
  deriving DecidableEq

namespace DList

/-- `plist->tail = p;` -/
def setTail (p : Ptr) (plist : DList) : DList := { plist with tail := p }

/-- `plist->size++;` and `plist->size--;` -/
def addSize (d : ℤ) (plist : DList) : DList := { plist with size := toInt32 (plist.size + d) }

end DList

/-- `MakeNode`; the allocator hands out the address `a`, whose cell still holds `junk`. -/
def makeNode (i : ℤ) (a : ℕ) (junk : Node) (m : Mem Node) : Option (Ptr × Mem Node) := do
  let m ← m.malloc a junk
  let m ← m.modify (some a) fun p => { p with data := i }
  let m ← m.modify (some a) (LinkNode.setPrevious none)
  let m ← m.modify (some a) (LinkNode.setNext none)
  return (some a, m)

/-- `InitList`. -/
def initList (a : ℕ) (junk : Node) (m : Mem Node) : Option (DList × Mem Node) := do
  let (head, m) ← makeNode 0 a junk m
  return (⟨head, head, 0⟩, m)

/-- `IsEmpty`. -/
def isEmpty (plist : DList) : Bool := plist.size = 0 ∧ plist.tail = plist.head

/-- `InsFirst`. -/
def insFirst (plist : DList) (pnode : Ptr) (m : Mem Node) : Option (Ptr × DList × Mem Node) := do
  let head := plist.head
  let plist := if isEmpty plist then plist.setTail pnode else plist
  let plist := plist.addSize 1
  let next ← m.read head LinkNode.next
  let m ← m.modify pnode (LinkNode.setNext next)
  let m ← m.modify pnode (LinkNode.setPrevious head)
  let next ← m.read head LinkNode.next
  let m ← Mem.backLink next pnode m
  let m ← m.modify head (LinkNode.setNext pnode)
  return (pnode, plist, m)

/-- `InsBefore`. -/
def insBefore (plist : DList) (p s : Ptr) (m : Mem Node) : Option (Ptr × DList × Mem Node) := do
  let previous ← m.read p LinkNode.previous
  let m ← m.modify s (LinkNode.setPrevious previous)
  let m ← m.modify s (LinkNode.setNext p)
  let previous ← m.read p LinkNode.previous
  let m ← m.modify previous (LinkNode.setNext s)
  let m ← m.modify p (LinkNode.setPrevious s)
  return (s, plist.addSize 1, m)

/-- `Remove`. -/
def remove (plist : DList) (m : Mem Node) : Option (Ptr × DList × Mem Node) :=
  if isEmpty plist then some (none, plist, m)
  else do
    let p := plist.tail
    let previous ← m.read p LinkNode.previous
    let next ← m.read p LinkNode.next
    let m ← m.modify previous (LinkNode.setNext next)
    let previous ← m.read p LinkNode.previous
    return (p, (plist.setTail previous).addSize (-1), m)

/-- `DelFirst`. -/
def delFirst (plist : DList) (m : Mem Node) : Option (Ptr × DList × Mem Node) := do
  let head := plist.head
  let p ← m.read head LinkNode.next
  if p = none then return (p, plist, m)
  else
    let plist ←
      if p = plist.tail then (m.read p LinkNode.previous).map fun previous => plist.setTail previous
      else some plist
    let next ← m.read p LinkNode.next
    let m ← m.modify head (LinkNode.setNext next)
    let next ← m.read head LinkNode.next
    let m ← m.modify next (LinkNode.setPrevious head)
    return (p, plist.addSize (-1), m)

/-- `InsAfter`.  The test `if(p = GetTail(plist))` assigns. -/
def insAfter (plist : DList) (p s : Ptr) (m : Mem Node) : Option (Ptr × DList × Mem Node) := do
  let next ← m.read p LinkNode.next
  let m ← m.modify s (LinkNode.setNext next)
  let m ← m.modify s (LinkNode.setPrevious p)
  let next ← m.read p LinkNode.next
  let m ← Mem.backLink next s m
  let m ← m.modify p (LinkNode.setNext s)
  let p := plist.tail
  let plist := if p ≠ none then plist.setTail s else plist
  return (s, plist.addSize 1, m)

/-- `while(!IsEmpty(plist))` of `ClearList`; with the list and the memory that it leaves, the
addresses it releases. -/
def clearLoop : ℕ → Ptr → DList → Mem Node → Option (List ℕ × DList × Mem Node)
  | 0, _, _, _ => none
  | fuel + 1, p, plist, m =>
      if isEmpty plist then some ([], plist, m)
      else do
        let temp ← m.read p LinkNode.previous
        let m ← m.free p
        let (freed, plist, m) ← clearLoop fuel temp ((plist.setTail temp).addSize (-1)) m
        return (p.toList ++ freed, plist, m)

/-- `ClearList`. -/
def clearList (fuel : ℕ) (plist : DList) (m : Mem Node) : Option (List ℕ × DList × Mem Node) :=
  clearLoop fuel plist.tail plist m

/-- `DestroyList`: the addresses of the nodes it releases, and the memory it leaves. -/
def destroyList (fuel : ℕ) (plist : DList) (m : Mem Node) : Option (List ℕ × Mem Node) := do
  let (freed, plist, m) ← clearList fuel plist m
  let m ← m.free plist.head
  return (freed ++ plist.head.toList, m)

/-- `while (++cnt <= i) p = p->next;` -/
def locateLoop (i : ℤ) (m : Mem Node) : ℕ → ℤ → Ptr → Option Ptr
  | 0, _, _ => none
  | fuel + 1, cnt, p =>
      let cnt := toInt32 (cnt + 1)
      if cnt ≤ i then do
        let p ← m.read p LinkNode.next
        locateLoop i m fuel cnt p
      else some p

/-- `LocatePos`. -/
def locatePos (fuel : ℕ) (plist : DList) (i : ℤ) (m : Mem Node) : Option Ptr :=
  if i > plist.size ∨ i < 1 then some none else locateLoop i m fuel 0 plist.head

/-! ### Runs of calls -/

/-- A list and the memory its nodes live in. -/
structure DListState where
  list : DList
  mem : Mem Node

/-- A call a client makes.  What is inserted is a new node for the item `i`, and the call carries
what the allocator answers: an address and what the cell there happens to hold. -/
inductive DListCall where
  | insFirst (i : ℤ) (a : ℕ) (junk : Node)
  | insBefore (p : ℕ) (i : ℤ) (a : ℕ) (junk : Node)
  | remove
  | locatePos (i : ℤ)

/-- What a call computes within a bound on the iterations of its loop: the pointer it returns, the
list and the memory. -/
def DListCall.exec (fuel : ℕ) (s : DListState) : DListCall → Option (Ptr × DList × Mem Node)
  | insFirst i a junk => do
      let (pnode, m) ← makeNode i a junk s.mem
      Wgs.insFirst s.list pnode m
  | insBefore p i a junk => do
      let (pnode, m) ← makeNode i a junk s.mem
      Wgs.insBefore s.list (some p) pnode m
  | remove => Wgs.remove s.list s.mem
  | locatePos i => do
      let p ← Wgs.locatePos fuel s.list i s.mem
      return (p, s.list, s.mem)

/-- A call returns the pointer `p` and leaves the state `s'`. -/
def DListCall.Yields (c : DListCall) (s : DListState) (p : Ptr) (s' : DListState) : Prop :=
  Returns (fun fuel => c.exec fuel s) (p, s'.list, s'.mem)

/-- One call: it returns, and leaves the state `s'`. -/
def DListStep (s : DListState) (c : DListCall) (s' : DListState) : Prop := ∃ p, c.Yields s p s'

end Wgs
