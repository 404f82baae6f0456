import Wgs.Foundation.MachineInt
import Wgs.Foundation.SinglyLinked

/-!
`stack/static_stack.c`, `stack/dyn_static.c` and `stack/link_stack.c`: the three implementations of
`stack/stack.h`, function by function.

A function that fails an assertion, or reaches outside of an array or through `NULL`, traps.  The
allocator is never exhausted: the messages for its `NULL` are left out.  `top_element` stays below
the size of an array and never wraps.

* `Static`: an index into a fixed array;
* `Dynamic`: an index into an allocated array, whose size is an `int`;
* `Linked`: a chain of nodes;
* `Call`: the calls of a client that the three share, and what each answers to them.
-/

namespace Wgs.Stack

open Foundation

/-! ### What the implementations share -/

/-- What ends a program: a failed assertion, or an access that C leaves undefined. -/
inductive Trap where
  | assertion
  | fault
  deriving DecidableEq

/-- `assert(p)` -/
def assert (p : Bool) : Except Trap Unit := if p then .ok () else .error .assertion

/-- An access through memory that may fault. -/
def orFault {α : Type} (o : Option α) : Except Trap α := o.elim (.error .fault) .ok

/-- An array of `STACK_TYPE`, which is `int`. -/
structure Block where
  size : ℤ
  cells : ℤ → ℤ

namespace Block

/-- `stack[i]` -/
def get (b : Block) (i : ℤ) : Except Trap ℤ :=
  if 0 ≤ i ∧ i < b.size then .ok (b.cells i) else .error .fault

/-- `stack[i] = value;` -/
def set (b : Block) (i value : ℤ) : Except Trap Block :=
  if 0 ≤ i ∧ i < b.size then .ok { b with cells := Function.update b.cells i value }
  else .error .fault

end Block

/-- What is printed: a text, or a value with `"%d "`. -/
inductive Output where
  | text (s : String)
  | value (v : ℤ)
  deriving DecidableEq

/-- The values among what is printed. -/
def contents (out : List Output) : List ℤ :=
  out.filterMap fun o => match o with
    | .text _ => none
    | .value v => some v

/-- `while(i != -1) printf("%d ", stack[i--]);` -/
def printLoop (get : ℤ → Except Trap ℤ) : ℕ → ℤ → Except Trap (List Output)
  | 0, _ => .error .fault
  | fuel + 1, i =>
      if i ≠ -1 then do
        let v ← get i
        let rest ← printLoop get fuel (i - 1)
        return .value v :: rest
      else return []

/-- The `print` of the two arrays. -/
def printArray (header : String) (get : ℤ → Except Trap ℤ) (fuel : ℕ) (topElement : ℤ) :
    Except Trap (List Output) := do
  let values ← printLoop get fuel topElement
  return [Output.text header] ++ (if topElement = -1 then [Output.text "这是个空堆栈\n"] else [])
    ++ values ++ [Output.text "\n"]

/-! ### A fixed array -/

namespace Static

/-- `#define STACK_SIZE 100` -/
def stackSize : ℤ := 100

/-- `stack` and `top_element`. -/
structure State where
  stack : Block
  topElement : ℤ

/-- The state before the first call. -/
def start : State := ⟨⟨stackSize, fun _ => 0⟩, -1⟩

/-- `is_empty`. -/
def isEmpty (s : State) : Bool := s.topElement = -1

/-- `is_full`. -/
def isFull (s : State) : Bool := s.topElement = stackSize - 1

/-- `push`. -/
def push (value : ℤ) (s : State) : Except Trap State := do
  assert (!isFull s)
  let s := { s with topElement := s.topElement + 1 }
  let stack ← s.stack.set s.topElement value
  return { s with stack := stack }

/-- `pop`. -/
def pop (s : State) : Except Trap State := do
  assert (!isEmpty s)
  return { s with topElement := s.topElement - 1 }

/-- `top`. -/
def top (s : State) : Except Trap ℤ := do
  assert (!isEmpty s)
  s.stack.get s.topElement

/-- `print`. -/
def print (fuel : ℕ) (s : State) : Except Trap (List Output) :=
  printArray "打印出静态数组堆栈里面的值: " s.stack.get fuel s.topElement

end Static

/-! ### An allocated array -/

namespace Dynamic

/-- `stack`, `stack_size` and `top_element`. -/
structure State where
  stack : Option Block
  stackSize : ℤ
  topElement : ℤ

/-- The state before the first call. -/
def start : State := ⟨none, 0, -1⟩

/-- `malloc(stack_size * sizeof(STACK_TYPE))`; the cells hold `junk`.  A negative `int` is converted
to a `size_t` beyond every object, and there is no memory for it. -/
def malloc (stackSize : ℤ) (junk : ℤ → ℤ) : Option Block :=
  if stackSize < 0 then none else some ⟨stackSize, junk⟩

/-- `create_stack`. -/
def createStack (size : ℤ) (junk : ℤ → ℤ) (s : State) : Except Trap State := do
  assert (s.stackSize = 0)
  let s := { s with stackSize := toInt32 size }
  return { s with stack := malloc s.stackSize junk }

/-- `destroy_stack`. -/
def destroyStack (s : State) : Except Trap State := do
  assert (s.stackSize > 0)
  let s := { s with stackSize := 0 }
  return { s with stack := none }

/-- `stack[i]` -/
def get (s : State) (i : ℤ) : Except Trap ℤ := do
  let stack ← orFault s.stack
  stack.get i

/-- `is_empty`. -/
def isEmpty (s : State) : Except Trap Bool := do
  assert (s.stackSize > 0)
  return s.topElement = -1

/-- `is_full`. -/
def isFull (s : State) : Except Trap Bool := do
  assert (s.stackSize > 0)
  return s.topElement = s.stackSize - 1

/-- `push`. -/
def push (value : ℤ) (s : State) : Except Trap State := do
  let full ← isFull s
  assert (!full)
  let s := { s with topElement := s.topElement + 1 }
  let stack ← orFault s.stack
  let stack ← stack.set s.topElement value
  return { s with stack := some stack }

/-- `pop`. -/
def pop (s : State) : Except Trap State := do
  let empty ← isEmpty s
  assert (!empty)
  return { s with topElement := s.topElement - 1 }

/-- `top`. -/
def top (s : State) : Except Trap ℤ := do
  let empty ← isEmpty s
  assert (!empty)
  get s s.topElement

/-- `print`. -/
def print (fuel : ℕ) (s : State) : Except Trap (List Output) :=
  printArray "打印出动态数组堆栈里面的值: " (get s) fuel s.topElement

end Dynamic

/-! ### A chain of nodes -/

/-- `StackNode`: `value`, which is the `data` of the node, and `next`. -/
abbrev StackNode := SingleNode ℤ

namespace Linked

/-- `stack`, and the memory the nodes live in. -/
structure State where
  stack : Ptr
  mem : Mem StackNode

/-- `is_empty`. -/
def isEmpty (s : State) : Bool := s.stack = none

/-- `push`; the allocator hands out the address `a`, whose cell still holds `junk`. -/
def push (value : ℤ) (a : ℕ) (junk : StackNode) (s : State) : Except Trap State := do
  let m ← orFault (s.mem.malloc a junk)
  let m ← orFault (m.modify (some a) (SingleNode.setData value))
  let m ← orFault (m.modify (some a) (SingleNode.setNext s.stack))
  return ⟨some a, m⟩

/-- `pop`. -/
def pop (s : State) : Except Trap State := do
  assert (!isEmpty s)
  let next ← orFault (s.mem.read s.stack SingleNode.next)
  let m ← orFault (s.mem.free s.stack)
  return ⟨next, m⟩

/-- `top`. -/
def top (s : State) : Except Trap ℤ := do
  assert (!isEmpty s)
  orFault (s.mem.read s.stack SingleNode.data)

/-- `print`. -/
def print (fuel : ℕ) (s : State) : Except Trap (List Output) := do
  let values ← orFault (visit s.mem fuel s.stack)
  return [Output.text "打印出链式堆栈里面的值: "]
    ++ (if s.stack = none then [Output.text "堆栈为空\n"] else [])
    ++ values.map Output.value ++ [Output.text "\n"]

end Linked

/-! ### The calls of a client -/

/-- A call of `stack.h`; a `push` carries what the allocator answers, should it be asked: an address
and what the cell there happens to hold. -/
inductive Call where
  | push (value : ℤ) (a : ℕ) (junk : StackNode)
  | pop
  | top
  | isEmpty

/-- An `int` that is a truth value. -/
def ofBool (b : Bool) : ℤ := if b then 1 else 0

/-- What the fixed array answers. -/
def Static.exec (c : Call) (s : Static.State) : Except Trap (Option ℤ × Static.State) :=
  match c with
  | .push value _ _ => (Static.push value s).map fun s => (none, s)
  | .pop => (Static.pop s).map fun s => (none, s)
  | .top => (Static.top s).map fun v => (some v, s)
  | .isEmpty => .ok (some (ofBool (Static.isEmpty s)), s)

/-- What the allocated array answers. -/
def Dynamic.exec (c : Call) (s : Dynamic.State) : Except Trap (Option ℤ × Dynamic.State) :=
  match c with
  | .push value _ _ => (Dynamic.push value s).map fun s => (none, s)
  | .pop => (Dynamic.pop s).map fun s => (none, s)
  | .top => (Dynamic.top s).map fun v => (some v, s)
  | .isEmpty => (Dynamic.isEmpty s).map fun b => (some (ofBool b), s)

/-- What the chain answers. -/
def Linked.exec (c : Call) (s : Linked.State) : Except Trap (Option ℤ × Linked.State) :=
  match c with
  | .push value a junk => (Linked.push value a junk s).map fun s => (none, s)
  | .pop => (Linked.pop s).map fun s => (none, s)
  | .top => (Linked.top s).map fun v => (some v, s)
  | .isEmpty => .ok (some (ofBool (Linked.isEmpty s)), s)

/-! ### The abstract stack -/

/-- What a list answers, last in and first out. -/
def lifo (c : Call) (L : List ℤ) : Except Trap (Option ℤ × List ℤ) :=
  match c, L with
  | .push value _ _, L => .ok (none, value :: L)
  | .pop, [] => .error .assertion
  | .pop, _ :: L => .ok (none, L)
  | .top, [] => .error .assertion
  | .top, v :: L => .ok (some v, v :: L)
  | .isEmpty, L => .ok (some (ofBool L.isEmpty), L)

end Wgs.Stack
