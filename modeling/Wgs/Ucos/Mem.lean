import Wgs.Foundation.Heap
import Wgs.Foundation.Runs
import Wgs.Ucos.Config

/-!
`uCOS-III/Source/os_mem.c`: partitions of memory into blocks of one size.

The blocks that are free are linked through their first words, from `FreeListPtr` on.  The memory is
that of its words, each read as a pointer; a word that a program does not have is a fault to access.

A run is one of clients that get blocks, write into the blocks they hold and put these back, in any
order.  In every state of it the blocks are those that are free and those that are held, each block
in one place: no block is handed out twice, the list from `FreeListPtr` on is the stack of the free
ones, and `NbrFree` counts them (`osMem_of_run`).
-/

namespace Wgs.Ucos

open Foundation

/-- The words of a memory. -/
abbrev Words := Mem Ptr

/-- `OS_MEM`, without what is not read: the type, the name and the links of the debug list. -/
structure OsMem where
  addrPtr : Ptr
  freeListPtr : Ptr
  blkSize : ℕ
  nbrMax : ℕ
  nbrFree : ℕ
  deriving DecidableEq

/-- The loop of `OSMemCreate` over `loops - i`, with the word behind it: `*p_link = NULL;` -/
def linkLoop (blkSize : ℕ) : ℕ → ℕ → ℕ → Words → Option Words
  | 0, _, pLink, m => m.modify (some pLink) fun _ => none
  | n + 1, pBlk, pLink, m => do
      let pBlk := pBlk + blkSize
      let m ← m.modify (some pLink) fun _ => some pBlk
      linkLoop blkSize n pBlk pBlk m

/-- `OSMemCreate`: the error, the control block and the memory. -/
def osMemCreate (cfg : Config) (osIntNestingCtr : ℕ) (pMem : OsMem) (pAddr : Ptr)
    (nBlks blkSize : ℕ) (m : Words) : Option (OsErr × OsMem × Words) :=
  if 0 < osIntNestingCtr then some (.memCreateIsr, pMem, m)
  else match pAddr with
    | none => some (.memInvalidPAddr, pMem, m)
    | some addr =>
        if nBlks < 2 then some (.memInvalidBlks, pMem, m)
        else if blkSize < cfg.ptrSize then some (.memInvalidSize, pMem, m)
        else
          let alignMsk := cfg.ptrSize - 1
          if 0 < alignMsk ∧ addr &&& alignMsk ≠ 0 then some (.memInvalidPAddr, pMem, m)
          else if 0 < alignMsk ∧ blkSize &&& alignMsk ≠ 0 then some (.memInvalidSize, pMem, m)
          else (linkLoop blkSize (nBlks - 1) addr addr m).map fun m =>
            (.none, ⟨some addr, some addr, blkSize, nBlks, nBlks⟩, m)

/-- `OSMemGet`: the block, the error and the control block. -/
def osMemGet (pMem : OsMem) (m : Words) : Option (Ptr × OsErr × OsMem) :=
  if pMem.nbrFree = 0 then some (none, .memNoFreeBlks, pMem)
  else do
    let pBlk := pMem.freeListPtr
    let next ← m.load pBlk
    return (pBlk, .none, { pMem with freeListPtr := next, nbrFree := pMem.nbrFree - 1 })

/-- `OSMemPut`: the error, the control block and the memory. -/
def osMemPut (pMem : OsMem) (pBlk : Ptr) (m : Words) : Option (OsErr × OsMem × Words) :=
  if pBlk = none then some (.memInvalidPBlk, pMem, m)
  else if pMem.nbrMax ≤ pMem.nbrFree then some (.memFull, pMem, m)
  else (m.modify pBlk fun _ => pMem.freeListPtr).map fun m =>
    (.none, { pMem with freeListPtr := pBlk, nbrFree := pMem.nbrFree + 1 }, m)

/-! ### Clients of a partition -/

/-- A partition that is in use: its control block and the memory, with the blocks that the clients
hold and the words that they have written in them. -/
structure Pool where
  pMem : OsMem
  words : Words
  held : List ℕ
  written : ℕ → Option Ptr

/-- The word `a` lies in the block at `b`. -/
def InBlock (blkSize b a : ℕ) : Prop := b ≤ a ∧ a < b + blkSize

instance (blkSize b a : ℕ) : Decidable (InBlock blkSize b a) := inferInstanceAs (Decidable (_ ∧ _))

/-- What a client does: it gets a block, puts a block back, or writes a word of a block. -/
inductive MemCall where
  | get
  | put (b : ℕ)
  | write (a : ℕ) (v : Ptr)
  deriving DecidableEq

namespace MemCall

/-- A client puts back and writes only what it holds. -/
def Allowed (s : Pool) : MemCall → Prop
  | get => True
  | put b => b ∈ s.held
  | write a _ => s.words a ≠ none ∧ ∃ b ∈ s.held, InBlock s.pMem.blkSize b a

/-- A call: the error the kernel answers with, and the state it leaves. -/
def serve (s : Pool) : MemCall → Option (OsErr × Pool)
  | get => do
      let (pBlk, err, pMem) ← osMemGet s.pMem s.words
      return (err, { s with pMem := pMem, held := pBlk.toList ++ s.held })
  | put b => do
      let (err, pMem, words) ← osMemPut s.pMem (some b) s.words
      return (err, ⟨pMem, words, s.held.erase b,
        fun a => if InBlock s.pMem.blkSize b a then none else s.written a⟩)
  | write a v => do
      let words ← s.words.modify (some a) fun _ => v
      return (.none, { s with words := words, written := Function.update s.written a (some v) })

/-- A step of the clients. -/
def Next (s : Pool) (c : MemCall) (s' : Pool) : Prop :=
  c.Allowed s ∧ ∃ err, c.serve s = some (err, s')

/-- The free blocks as a stack: `OSMemGet` takes the first one, and `OSMemPut` puts one in front. -/
def restack (free : List ℕ) : MemCall → List ℕ
  | get => free.tail
  | put b => b :: free
  | write _ _ => free

end MemCall

/-- The blocks of a partition. -/
def blocks (addr nBlks blkSize : ℕ) : List ℕ := (List.range nBlks).map fun k => addr + k * blkSize

/-- The free blocks of a partition after the calls, the one that was returned last first and those
that were never handed out in their order. -/
def freeBlocks (addr nBlks blkSize : ℕ) (calls : List MemCall) : List ℕ :=
  calls.foldl MemCall.restack (blocks addr nBlks blkSize)

/-! ### The list of the free blocks -/

/-- The blocks of the list are linked through their first words, from `p` on. -/
def Threads (m : Words) : Ptr → List ℕ → Prop
  | p, [] => p = none
  | p, a :: L => p = some a ∧ ∃ q, m a = some q ∧ Threads m q L

lemma Threads.frame {m m' : Words} {p : Ptr} {L : List ℕ} (h : Threads m p L)
    (hagree : ∀ a ∈ L, m' a = m a) : Threads m' p L := by
  induction L generalizing p with
  | nil => exact h
  | cons a L ih =>
      obtain ⟨rfl, q, hq, hrest⟩ := h
      exact ⟨rfl, q, (hagree a List.mem_cons_self).trans hq,
        ih hrest fun b hb => hagree b (List.mem_cons_of_mem a hb)⟩

lemma Threads.alloc {m : Words} {p : Ptr} {L : List ℕ} (h : Threads m p L) :
    ∀ a ∈ L, m a ≠ none := by
  induction L generalizing p with
  | nil => simp
  | cons a L ih =>
      obtain ⟨-, q, hq, hrest⟩ := h
      intro b hb
      rcases List.mem_cons.mp hb with rfl | hb
      · exact hq ▸ Option.some_ne_none q
      · exact ih hrest b hb

section Blocks

variable {addr n sz a b c : ℕ}

lemma blocks_succ : blocks addr (n + 1) sz = addr :: blocks (addr + sz) n sz := by
  rw [blocks, List.range_succ_eq_map, List.map_cons, List.map_map, Nat.zero_mul, Nat.add_zero]
  congr 1
  refine List.map_congr_left fun k _ => ?_
  simp only [Function.comp_apply, Nat.succ_mul]
  omega

lemma length_blocks : (blocks addr n sz).length = n := by simp [blocks]

/-- A word lies in one block. -/
lemma eq_of_inBlock (hb : b ∈ blocks addr n sz) (hc : c ∈ blocks addr n sz)
    (hba : InBlock sz b a) (hca : InBlock sz c a) : b = c := by
  simp only [blocks, List.mem_map] at hb hc
  obtain ⟨i, -, rfl⟩ := hb
  obtain ⟨j, -, rfl⟩ := hc
  have hij : i = j := by
    have hi : i * sz < (j + 1) * sz := by rw [Nat.succ_mul]; unfold InBlock at hba hca; omega
    have hj : j * sz < (i + 1) * sz := by rw [Nat.succ_mul]; unfold InBlock at hba hca; omega
    have hi' := Nat.lt_of_mul_lt_mul_right hi
    have hj' := Nat.lt_of_mul_lt_mul_right hj
    omega
  rw [hij]

lemma nodup_blocks (hsz : 0 < sz) : (blocks addr n sz).Nodup := by
  refine List.nodup_range.map_on fun i _ j _ heq => ?_
  have hmul : i * sz = j * sz := by omega
  exact Nat.eq_of_mul_eq_mul_right hsz hmul

/-- The loop of `OSMemCreate` links the blocks in their order. -/
lemma linkLoop_threads (hsz : 0 < sz) {m m' : Words} (h : linkLoop sz n addr addr m = some m') :
    Threads m' (some addr) (blocks addr (n + 1) sz) ∧ ∀ a < addr, m' a = m a := by
  induction n generalizing addr m with
  | zero =>
      obtain ⟨q, -, rfl⟩ := Option.map_eq_some_iff.mp h
      refine ⟨⟨by simp, none, by simp, rfl⟩, fun a ha => ?_⟩
      exact Function.update_of_ne ha.ne _ _
  | succ n ih =>
      obtain ⟨m₁, hm₁, hrest⟩ := Option.bind_eq_some_iff.mp h
      obtain ⟨q, -, rfl⟩ := Option.map_eq_some_iff.mp hm₁
      obtain ⟨hthreads, hframe⟩ := ih hrest
      rw [blocks_succ]
      refine ⟨⟨rfl, some (addr + sz), ?_, hthreads⟩, fun a ha => ?_⟩
      · rw [hframe addr (by omega), Function.update_self]
      · rw [hframe a (by omega), Function.update_of_ne (by omega)]

end Blocks

/-! ### The invariant -/

/-- The free blocks are linked, they and the blocks that are held are all blocks, and what the
clients have written in theirs is still there. -/
structure IsPool (addr n sz : ℕ) (s : Pool) (free : List ℕ) : Prop where
  threads : Threads s.words s.pMem.freeListPtr free
  perm : (free ++ s.held).Perm (blocks addr n sz)
  nbrFree : s.pMem.nbrFree = free.length
  nbrMax : s.pMem.nbrMax = n
  blkSize : s.pMem.blkSize = sz
  alloc : ∀ b ∈ blocks addr n sz, s.words b ≠ none
  written : ∀ a v, s.written a = some v →
    s.words a = some v ∧ ∃ b ∈ s.held, InBlock sz b a

namespace IsPool

variable {addr n sz : ℕ} {s : Pool} {free : List ℕ}

lemma nodup (h : IsPool addr n sz s free) (hsz : 0 < sz) : (free ++ s.held).Nodup :=
  h.perm.nodup_iff.mpr (nodup_blocks hsz)

lemma mem_blocks_of_held (h : IsPool addr n sz s free) {b : ℕ} (hb : b ∈ s.held) :
    b ∈ blocks addr n sz := h.perm.mem_iff.mp (List.mem_append_right free hb)

lemma mem_blocks_of_free (h : IsPool addr n sz s free) {b : ℕ} (hb : b ∈ free) :
    b ∈ blocks addr n sz := h.perm.mem_iff.mp (List.mem_append_left s.held hb)

lemma length_eq (h : IsPool addr n sz s free) : free.length + s.held.length = n := by
  rw [← List.length_append, h.perm.length_eq, length_blocks]

/-- The first word of a free block is not in a block that is held. -/
lemma not_inBlock (h : IsPool addr n sz s free) (hsz : 0 < sz) {a b : ℕ} (ha : a ∈ free)
    (hb : b ∈ s.held) : ¬ InBlock sz b a := by
  intro hin
  have heq := eq_of_inBlock (h.mem_blocks_of_held hb) (h.mem_blocks_of_free ha) hin
    ⟨le_rfl, by omega⟩
  exact (List.nodup_append'.mp (h.nodup hsz)).2.2 ha (heq ▸ hb)

/-- **A block is got**: one that nobody holds, and without a free one none. -/
lemma get (h : IsPool addr n sz s free) :
    (free = [] ∧ osMemGet s.pMem s.words = some (none, .memNoFreeBlks, s.pMem)
        ∧ MemCall.get.serve s = some (.memNoFreeBlks, s))
      ∨ ∃ b rest pMem, free = b :: rest ∧ osMemGet s.pMem s.words = some (some b, .none, pMem)
        ∧ MemCall.get.serve s = some (.none, { s with pMem := pMem, held := b :: s.held })
        ∧ IsPool addr n sz { s with pMem := pMem, held := b :: s.held } rest := by
  cases hfree : free with
  | nil =>
      have hzero : s.pMem.nbrFree = 0 := by rw [h.nbrFree, hfree, List.length_nil]
      have hget : osMemGet s.pMem s.words = some (none, .memNoFreeBlks, s.pMem) := by
        rw [osMemGet, if_pos hzero]
      exact Or.inl ⟨rfl, hget, by simp [MemCall.serve, hget]⟩
  | cons b rest =>
      subst hfree
      obtain ⟨hfirst, q, hq, hrest⟩ := h.threads
      have hpos : ¬ s.pMem.nbrFree = 0 := by rw [h.nbrFree, List.length_cons]; omega
      have hget : osMemGet s.pMem s.words = some (some b, .none,
          { s.pMem with freeListPtr := q, nbrFree := s.pMem.nbrFree - 1 }) := by
        simp [osMemGet, hpos, hfirst, hq]
      refine Or.inr ⟨b, rest, _, rfl, hget, by simp [MemCall.serve, hget], hrest, ?_, ?_, h.nbrMax,
        h.blkSize, h.alloc, fun a v hv => ?_⟩
      · exact (List.perm_middle.trans (List.Perm.refl _)).trans h.perm
      · simp [h.nbrFree]
      · obtain ⟨hword, c, hc, hin⟩ := h.written a v hv
        exact ⟨hword, c, List.mem_cons_of_mem b hc, hin⟩

/-- **A block is put back**: the kernel takes every block that is held. -/
lemma put (h : IsPool addr n sz s free) (hsz : 0 < sz) {b : ℕ} (hb : b ∈ s.held) :
    ∃ s', (MemCall.put b).serve s = some (.none, s') ∧ s'.held = s.held.erase b
      ∧ IsPool addr n sz s' (b :: free) := by
  obtain ⟨q, hq⟩ := Option.ne_none_iff_exists'.mp (h.alloc b (h.mem_blocks_of_held hb))
  have hlen := h.length_eq
  have hheld := List.length_pos_of_mem hb
  have hnotfull : ¬ s.pMem.nbrMax ≤ s.pMem.nbrFree := by rw [h.nbrMax, h.nbrFree]; omega
  have hput : osMemPut s.pMem (some b) s.words = some (.none,
      { s.pMem with freeListPtr := some b, nbrFree := s.pMem.nbrFree + 1 },
      Function.update s.words b (some s.pMem.freeListPtr)) := by
    rw [osMemPut, if_neg (Option.some_ne_none b), if_neg hnotfull, Mem.modify_eq hq]
    rfl
  have hnotfree : b ∉ free := fun hmem => (List.nodup_append'.mp (h.nodup hsz)).2.2 hmem hb
  refine ⟨⟨{ s.pMem with freeListPtr := some b, nbrFree := s.pMem.nbrFree + 1 },
      Function.update s.words b (some s.pMem.freeListPtr), s.held.erase b,
      fun a => if InBlock s.pMem.blkSize b a then none else s.written a⟩,
    by simp [MemCall.serve, hput], rfl, ?_, ?_, ?_, h.nbrMax, h.blkSize, fun c hc => ?_, ?_⟩
  · refine ⟨rfl, _, Function.update_self _ _ _, h.threads.frame fun a ha => ?_⟩
    exact Function.update_of_ne (ne_of_mem_of_not_mem ha hnotfree) _ _
  · have hmove : (b :: free ++ s.held.erase b).Perm (free ++ b :: s.held.erase b) :=
      List.perm_middle.symm
    exact (hmove.trans ((List.perm_cons_erase hb).symm.append_left free)).trans h.perm
  · simp [h.nbrFree]
  · exact Mem.modify_ne_none (Mem.modify_eq hq fun _ => s.pMem.freeListPtr) (h.alloc c hc)
  · intro a v hv
    simp only [ite_eq_iff, h.blkSize] at hv
    rcases hv with ⟨-, hv⟩ | ⟨hnot, hv⟩
    · cases hv
    · obtain ⟨hkept, c, hc, hin⟩ := h.written a v hv
      have hcb : c ≠ b := fun heq => hnot (heq ▸ hin)
      have hab : a ≠ b := fun heq => hnot (heq ▸ ⟨le_rfl, by omega⟩)
      exact ⟨(Function.update_of_ne hab _ _).trans hkept, c, (List.mem_erase_of_ne hcb).mpr hc, hin⟩

/-- **A word of a block that is held is written.** -/
lemma write (h : IsPool addr n sz s free) (hsz : 0 < sz) {a : ℕ} (v : Ptr)
    (hallowed : (MemCall.write a v).Allowed s) :
    ∃ s', (MemCall.write a v).serve s = some (.none, s') ∧ s'.held = s.held
      ∧ IsPool addr n sz s' free := by
  obtain ⟨hword, b, hb, hin⟩ := hallowed
  rw [h.blkSize] at hin
  obtain ⟨q, hq⟩ := Option.ne_none_iff_exists'.mp hword
  refine ⟨{ s with words := Function.update s.words a (some v),
                   written := Function.update s.written a (some v) },
    by simp [MemCall.serve, Mem.modify_eq hq], rfl, ?_, h.perm, h.nbrFree, h.nbrMax, h.blkSize,
    fun c hc => Mem.modify_ne_none (Mem.modify_eq hq fun _ => v) (h.alloc c hc), ?_⟩
  · refine h.threads.frame fun f hf => Function.update_of_ne ?_ _ _
    rintro rfl
    exact h.not_inBlock hsz hf hb hin
  · intro a' v' hv'
    change Function.update s.written a (some v) a' = some v' at hv'
    by_cases haa : a' = a
    · subst haa
      rw [Function.update_self] at hv'
      exact ⟨(Function.update_self _ _ _).trans hv', b, hb, hin⟩
    · rw [Function.update_of_ne haa] at hv'
      obtain ⟨hkept, hblock⟩ := h.written a' v' hv'
      exact ⟨(Function.update_of_ne haa _ _).trans hkept, hblock⟩

end IsPool

/-- A partition that was created. -/
lemma isPool_of_create {cfg : Config} {pMem₀ pMem : OsMem} {addr n sz : ℕ} {m₀ m : Words}
    (h : osMemCreate cfg 0 pMem₀ (some addr) n sz m₀ = some (.none, pMem, m)) :
    0 < sz ∧ IsPool addr n sz ⟨pMem, m, [], fun _ => none⟩ (blocks addr n sz) := by
  rw [osMemCreate, if_neg (lt_irrefl 0)] at h
  have hptr : 0 < cfg.ptrSize := by
    obtain ⟨e, he⟩ := cfg.ptrSize_eq
    exact he ▸ Nat.two_pow_pos e
  simp only at h
  split_ifs at h with hn hsz
  all_goals try (simp at h; done)
  obtain ⟨m', hlink, heq⟩ := Option.map_eq_some_iff.mp h
  obtain ⟨rfl, rfl⟩ : _ = pMem ∧ m' = m := by simpa using heq
  have hpos : 0 < sz := by omega
  obtain ⟨k, rfl⟩ : ∃ k, n = k + 1 := ⟨n - 1, by omega⟩
  obtain ⟨hthreads, -⟩ := linkLoop_threads hpos hlink
  refine ⟨hpos, hthreads, by simp, by simp [length_blocks], rfl, rfl, fun b hb => ?_, by simp⟩
  exact hthreads.alloc b hb

/-- Every step of the clients keeps the invariant, with the free blocks as a stack. -/
lemma IsPool.next {addr n sz : ℕ} (hsz : 0 < sz) {s s' : Pool} {c : MemCall} {free : List ℕ}
    (h : IsPool addr n sz s free) (hnext : c.Next s s') :
    IsPool addr n sz s' (c.restack free) := by
  obtain ⟨hallowed, err, hserve⟩ := hnext
  cases c with
  | get =>
      rcases h.get with ⟨rfl, -, hs⟩ | ⟨b, rest, pMem, rfl, -, hs, hpool⟩
      all_goals
        rw [hs] at hserve
        obtain ⟨-, rfl⟩ := Prod.mk.inj (Option.some_inj.mp hserve)
      · exact h
      · exact hpool
  | put b =>
      obtain ⟨t, hs, -, hpool⟩ := h.put hsz hallowed
      rw [hs] at hserve
      obtain ⟨-, rfl⟩ := Prod.mk.inj (Option.some_inj.mp hserve)
      exact hpool
  | write a v =>
      obtain ⟨t, hs, -, hpool⟩ := h.write hsz v hallowed
      rw [hs] at hserve
      obtain ⟨-, rfl⟩ := Prod.mk.inj (Option.some_inj.mp hserve)
      exact hpool

/-- **A partition over every run.**  Once `OSMemCreate` has made a partition of `n` blocks, in every
state that clients reach who put back and write only what they hold:

* the blocks held are different blocks of the partition, and `NbrFree` counts the others;
* the list from `FreeListPtr` on has exactly the other blocks, the one returned last first;
* `OSMemGet` gives the first of them, a block that nobody holds, or reports that there is none, and
  only then;
* `OSMemPut` takes every block that is held;
* the words written in the blocks that are held are unchanged. -/
theorem osMem_of_run (cfg : Config) {pMem₀ pMem : OsMem} {addr n sz : ℕ} {m₀ m : Words}
    (hcreate : osMemCreate cfg 0 pMem₀ (some addr) n sz m₀ = some (.none, pMem, m))
    {calls : List MemCall} {s : Pool}
    (hrun : Reaches (fun s c s' => MemCall.Next s c s') ⟨pMem, m, [], fun _ => none⟩ calls s) :
    (s.held.Nodup ∧ (∀ b ∈ s.held, b ∈ blocks addr n sz) ∧ s.pMem.nbrFree + s.held.length = n)
      ∧ (Threads s.words s.pMem.freeListPtr (freeBlocks addr n sz calls)
          ∧ (freeBlocks addr n sz calls ++ s.held).Perm (blocks addr n sz)
          ∧ (freeBlocks addr n sz calls).Nodup
          ∧ (∀ b ∈ blocks addr n sz, b ∈ freeBlocks addr n sz calls ↔ b ∉ s.held))
      ∧ (∃ pBlk err pMem', osMemGet s.pMem s.words = some (pBlk, err, pMem')
          ∧ pBlk = (freeBlocks addr n sz calls).head?
          ∧ (s.held.length = n ↔ err = .memNoFreeBlks)
          ∧ (s.held.length = n → pBlk = none ∧ pMem' = s.pMem)
          ∧ (s.held.length < n → err = .none ∧ ∃ b ∈ blocks addr n sz, b ∉ s.held ∧ pBlk = some b))
      ∧ (∀ b ∈ s.held, ∃ pMem' m', osMemPut s.pMem (some b) s.words = some (.none, pMem', m'))
      ∧ ∀ a v, s.written a = some v → s.words a = some v := by
  obtain ⟨hsz, hstart⟩ := isPool_of_create hcreate
  have h : IsPool addr n sz s (freeBlocks addr n sz calls) := by
    refine hrun.induct (P := fun calls s => IsPool addr n sz s (freeBlocks addr n sz calls)) hstart
      fun calls s c s' _ ih hnext => ?_
    rw [freeBlocks, List.foldl_append]
    exact ih.next hsz hnext
  generalize freeBlocks addr n sz calls = free at h ⊢
  have hlen := h.length_eq
  have hnodup := List.nodup_append'.mp (h.nodup hsz)
  refine ⟨⟨hnodup.2.1, fun b hb => h.mem_blocks_of_held hb, by rw [h.nbrFree, hlen]⟩,
    ⟨h.threads, h.perm, hnodup.1, fun b hb => ?_⟩, ?_, fun b hb => ?_,
    fun a v hv => (h.written a v hv).1⟩
  · have hplaced : b ∈ free ∨ b ∈ s.held := List.mem_append.mp (h.perm.mem_iff.mpr hb)
    exact ⟨fun hfree hheld => hnodup.2.2 hfree hheld, hplaced.resolve_right⟩
  · rcases h.get with ⟨hnil, hget, -⟩ | ⟨b, rest, pMem', hcons, hget, -, -⟩
    · have hfull : s.held.length = n := by simpa [hnil] using hlen
      exact ⟨_, _, _, hget, by simp [hnil], by simp [hfull], fun _ => ⟨rfl, rfl⟩,
        fun hlt => absurd hfull hlt.ne⟩
    · have hfree : b ∈ free := hcons ▸ List.mem_cons_self
      have hroom : s.held.length < n := by
        have hpos := List.length_pos_of_mem hfree
        omega
      exact ⟨_, _, _, hget, by simp [hcons], by simp [hroom.ne], fun hfull => absurd hfull hroom.ne,
        fun _ => ⟨rfl, b, h.mem_blocks_of_free hfree, fun hb => hnodup.2.2 hfree hb, rfl⟩⟩
  · obtain ⟨s', hserve, -, -⟩ := h.put hsz hb
    obtain ⟨⟨err, pMem', m'⟩, hput, heq⟩ := Option.bind_eq_some_iff.mp hserve
    obtain ⟨rfl, -⟩ : err = .none ∧ _ := by simpa using heq
    exact ⟨pMem', m', hput⟩

/-- Of three blocks two are got, and the first of them is put back: it is the first of the list
again. -/
theorem osMem_of_run_three : ∃ pMem m s, osMemCreate .template 0 ⟨none, none, 0, 0, 0⟩ (some 8) 3 4
      (fun _ => some none) = some (.none, pMem, m)
    ∧ Reaches (fun s c s' => MemCall.Next s c s') ⟨pMem, m, [], fun _ => none⟩
        [.get, .get, .put 8] s
    ∧ s.held = [12] ∧ s.pMem.nbrFree + s.held.length = 3
    ∧ Threads s.words s.pMem.freeListPtr [8, 16] := by
  obtain ⟨m, hcreate, h₈, h₁₂⟩ : ∃ m : Words, osMemCreate .template 0 ⟨none, none, 0, 0, 0⟩ (some 8)
      3 4 (fun _ => some none) = some (.none, ⟨some 8, some 8, 4, 3, 3⟩, m)
      ∧ m 8 = some (some 12) ∧ m 12 = some (some 16) := ⟨_, rfl, rfl, rfl⟩
  have hgot : Reaches (fun s c s' => MemCall.Next s c s')
      ⟨⟨some 8, some 8, 4, 3, 3⟩, m, [], fun _ => none⟩ ([] ++ [.get] ++ [.get])
      ⟨⟨some 8, some 16, 4, 3, 1⟩, m, [12, 8], fun _ => none⟩ :=
    .step (s := ⟨⟨some 8, some 12, 4, 3, 2⟩, m, [8], fun _ => none⟩)
      (.step .start ⟨trivial, .none, by simp [MemCall.serve, osMemGet, h₈]⟩)
      ⟨trivial, .none, by simp [MemCall.serve, osMemGet, h₁₂]⟩
  have hput : MemCall.Next ⟨⟨some 8, some 16, 4, 3, 1⟩, m, [12, 8], fun _ => none⟩ (.put 8) _ :=
    ⟨List.mem_cons_of_mem 12 List.mem_cons_self, .none, by
      simp only [MemCall.serve, osMemPut, Mem.modify_eq h₈]
      rfl⟩
  have hrun := hgot.step hput
  have hall := osMem_of_run .template hcreate hrun
  exact ⟨_, _, _, hcreate, hrun, rfl, hall.1.2.2, hall.2.1.1⟩

end Wgs.Ucos
