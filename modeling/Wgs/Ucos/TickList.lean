import Wgs.Foundation.Cells
import Wgs.Foundation.LinkFamily
import Wgs.Ucos.Config

/-!
`uCOS-III/Source/os_tick.c`: the wheel of the tasks that are delayed.

A task that is to be woken at the tick `TickCtrMatch` is in the list of the spoke
`TickCtrMatch % OSCfg_TickWheelSize`, by the ticks that remain; of tasks with the same number of
them the last one to come is the first.  The links `TickNextPtr` and `TickPrevPtr` of all the
tasks are a memory of their own, and so are the fields `TickRemain`, which only the search for a
place reads, after it has set them.
-/

namespace Wgs.Ucos

open Foundation

/-- `OS_TICK` -/
abbrev Tick := BitVec 32

/-- `OS_TICK_SPOKE` -/
structure OsTickSpoke where
  firstPtr : Ptr
  nbrEntries : ℕ
  nbrEntriesMax : ℕ
  deriving DecidableEq

/-- `OSCfg_TickWheel`, the links of the tasks and their fields `TickRemain`. -/
structure TickLists where
  wheel : Cells OsTickSpoke
  links : Links
  tickRemain : Mem Tick

/-- `OS_TickListInit`, over any earlier contents. -/
def osTickListInit (cfg : Config) : Cells OsTickSpoke :=
  List.replicate cfg.tickWheelSize ⟨none, 0, 0⟩

/-- The loop of `OS_TickListInsert`, which ends within `NbrEntries` steps.  `matchOf` is
`TickCtrMatch`. -/
def tickInsertLoop (matchOf : ℕ → Option Tick) (osTickCtr : Tick) (pTcb spoke : ℕ) :
    ℕ → Ptr → TickLists → Option TickLists
  | _, none, s => some s
  | 0, some _, _ => none
  | n + 1, some pTcb1, s => do
      let tickCtrMatch ← matchOf pTcb1
      let tickRemain ← s.tickRemain.modify (some pTcb1) fun _ => tickCtrMatch - osTickCtr
      let s := { s with tickRemain := tickRemain }
      let remain ← s.tickRemain.load (some pTcb)
      let remain1 ← s.tickRemain.load (some pTcb1)
      if remain1 < remain then
        let next ← s.links.read (some pTcb1) LinkNode.next
        if next ≠ none then tickInsertLoop matchOf osTickCtr pTcb spoke n next s
        else
          let links ← s.links.modify (some pTcb) fun n => (n.setNext none).setPrevious (some pTcb1)
          let links ← links.modify (some pTcb1) (LinkNode.setNext (some pTcb))
          return { s with links := links }
      else
        let pTcb0 ← s.links.read (some pTcb1) LinkNode.previous
        if pTcb0 = none then
          let links ← s.links.modify (some pTcb) fun n => (n.setPrevious none).setNext (some pTcb1)
          let links ← links.modify (some pTcb1) (LinkNode.setPrevious (some pTcb))
          let pSpoke ← s.wheel.load spoke
          let wheel ← s.wheel.store spoke { pSpoke with firstPtr := some pTcb }
          return { s with wheel := wheel, links := links }
        else
          let links ← s.links.modify (some pTcb) fun n => (n.setPrevious pTcb0).setNext (some pTcb1)
          let links ← links.modify pTcb0 (LinkNode.setNext (some pTcb))
          let links ← links.modify (some pTcb1) (LinkNode.setPrevious (some pTcb))
          return { s with links := links }

/-- `OS_TickListInsert`, from `if (p_spoke->NbrEntries == 0u)` on: the task is linked into the list
of the spoke. -/
def tickListLink (matchOf : ℕ → Option Tick) (osTickCtr : Tick) (pTcb spoke : ℕ) (s : TickLists) :
    Option TickLists := do
  let pSpoke ← s.wheel.load spoke
  let s ←
    if pSpoke.nbrEntries = 0 then
      (s.links.modify (some pTcb) fun n => (n.setNext none).setPrevious none).bind fun links =>
        (s.wheel.store spoke { pSpoke with firstPtr := some pTcb, nbrEntries := 1 }).map
          fun wheel => { s with wheel := wheel, links := links }
    else
      (tickInsertLoop matchOf osTickCtr pTcb spoke pSpoke.nbrEntries pSpoke.firstPtr s).bind
        fun s => (s.wheel.load spoke).bind fun pSpoke =>
          (s.wheel.store spoke { pSpoke with nbrEntries := qtyAdd pSpoke.nbrEntries 1 }).map
            fun wheel => { s with wheel := wheel }
  let pSpoke ← s.wheel.load spoke
  let wheel ← s.wheel.store spoke
    (if pSpoke.nbrEntriesMax < pSpoke.nbrEntries then
      { pSpoke with nbrEntriesMax := pSpoke.nbrEntries } else pSpoke)
  return { s with wheel := wheel }

/-- `OS_TickListRemove`, the two cases: `FirstPtr` and the links. -/
def spokeUnlink (pTcb : ℕ) (firstPtr pTcb1 pTcb2 : Ptr) (links : Links) : Option (Ptr × Links) :=
  if firstPtr = some pTcb then (Mem.backLink pTcb2 none links).map fun links => (pTcb2, links)
  else
    (links.modify pTcb1 (LinkNode.setNext pTcb2)).bind fun links =>
      (Mem.backLink pTcb2 pTcb1 links).map fun links => (firstPtr, links)

/-- `OS_TickListRemove`, the list of the spoke: the task is linked out of it. -/
def tickListUnlink (pTcb spoke : ℕ) (s : TickLists) : Option TickLists := do
  let pSpoke ← s.wheel.load spoke
  let pTcb1 ← s.links.read (some pTcb) LinkNode.previous
  let pTcb2 ← s.links.read (some pTcb) LinkNode.next
  let (firstPtr, links) ← spokeUnlink pTcb pSpoke.firstPtr pTcb1 pTcb2 s.links
  let links ← links.modify (some pTcb) fun n => (n.setNext none).setPrevious none
  let wheel ← s.wheel.store spoke
    { pSpoke with firstPtr := firstPtr, nbrEntries := qtySub pSpoke.nbrEntries 1 }
  return { s with wheel := wheel, links := links }

/-! ### The tasks of the wheel -/

variable {cfg : Config}

/-- The spokes have the tasks `L`, in this order.  The tasks with links are those of `dom`. -/
structure IsTick (cfg : Config) (dom : Set ℕ) (s : TickLists) (L : ℕ → List ℕ) : Prop where
  family : LinkFamily s.links L
  alloc : ∀ t ∈ dom, s.links t ≠ none
  remain : ∀ t ∈ dom, s.tickRemain t ≠ none
  length : s.wheel.length = cfg.tickWheelSize
  spoke : ∀ i < cfg.tickWheelSize, ∃ peak, s.wheel[i]? = some ⟨(L i).head?, (L i).length, peak⟩
  outside : ∀ i, cfg.tickWheelSize ≤ i → L i = []

namespace IsTick

variable {dom : Set ℕ} {s : TickLists} {L : ℕ → List ℕ} {i t : ℕ}

lemma load (h : IsTick cfg dom s L) (hi : i < cfg.tickWheelSize) :
    ∃ peak, s.wheel.load i = some ⟨(L i).head?, (L i).length, peak⟩ := by
  obtain ⟨peak, hpeak⟩ := h.spoke i hi
  exact ⟨peak, by rw [Cells.load_natCast, hpeak]⟩

lemma store (h : IsTick cfg dom s L) (hi : i < cfg.tickWheelSize) (v : OsTickSpoke) :
    s.wheel.store i v = some (s.wheel.set i v) := Cells.store_natCast (h.length ▸ hi) v

/-- One list changes, in the links and in the wheel. -/
lemma change (h : IsTick cfg dom s L) (hi : i < cfg.tickWheelSize) {links : Links}
    {tickRemain : Mem Tick} {K : List ℕ} {peak : ℕ}
    (hfamily : LinkFamily links (Function.update L i K))
    (halloc : ∀ a, s.links a ≠ none → links a ≠ none)
    (hremain : ∀ a, s.tickRemain a ≠ none → tickRemain a ≠ none) :
    IsTick cfg dom ⟨s.wheel.set i ⟨K.head?, K.length, peak⟩, links, tickRemain⟩
      (Function.update L i K) where
  family := hfamily
  alloc a ha := halloc a (h.alloc a ha)
  remain a ha := hremain a (h.remain a ha)
  length := by rw [List.length_set, h.length]
  spoke j hj := by
    rcases eq_or_ne j i with rfl | hne
    · exact ⟨peak, by rw [Function.update_self, List.getElem?_set_self (h.length ▸ hj)]⟩
    · rw [Function.update_of_ne hne, List.getElem?_set_ne hne.symm]
      exact h.spoke j hj
  outside j hj := by
    rw [Function.update_of_ne (by omega), h.outside j hj]

/-- The fields `TickRemain` change. -/
lemma setRemain (h : IsTick cfg dom s L) {tickRemain : Mem Tick}
    (hremain : ∀ a, s.tickRemain a ≠ none → tickRemain a ≠ none) :
    IsTick cfg dom { s with tickRemain := tickRemain } L :=
  ⟨h.family, h.alloc, fun a ha => hremain a (h.remain a ha), h.length, h.spoke, h.outside⟩

/-- `TickRemain` of a task of a list is set; that of the task to be put in stays. -/
lemma modifyRemain (h : IsTick cfg dom s L) (hnew : ∀ j, t ∉ L j) {b : ℕ} (hb : b ∈ L i)
    (hdom : ∀ a ∈ L i, a ∈ dom) (v : Tick) {r : Tick} (hr : s.tickRemain t = some r) :
    ∃ tickRemain, s.tickRemain.modify (some b) (fun _ => v) = some tickRemain
      ∧ tickRemain b = some v ∧ tickRemain t = some r
      ∧ ∀ a, s.tickRemain a ≠ none → tickRemain a ≠ none := by
  obtain ⟨v', hv'⟩ := Option.ne_none_iff_exists'.mp (h.remain b (hdom b hb))
  obtain ⟨tickRemain, hm, hmb, hrest⟩ := Mem.modify_spec hv' fun _ => v
  refine ⟨tickRemain, hm, hmb, (hrest t ?_).trans hr, fun a ha => Mem.modify_ne_none hm ha⟩
  rintro rfl
  exact hnew i hb

/-- The wheel has what it already had. -/
lemma wheel_eq {v : OsTickSpoke} (h : s.wheel[i]? = some v) : s.wheel = s.wheel.set i v := by
  obtain ⟨hi, rfl⟩ := List.getElem?_eq_some_iff.mp h
  exact (List.set_getElem_self hi).symm

/-- The task is linked in between the tasks `xs` and `b :: ys`. -/
lemma linkBefore (h : IsTick cfg dom s L) (hi : i < cfg.tickWheelSize) (ht : t ∈ dom)
    (hnew : ∀ j, t ∉ L j) {matchOf : ℕ → Option Tick} {osTickCtr r v : Tick} {n b peak : ℕ}
    {xs ys : List ℕ} {tickRemain : Mem Tick} (hL : L i = xs ++ b :: ys) (hb : matchOf b = some v)
    (hm : s.tickRemain.modify (some b) (fun _ => v - osTickCtr) = some tickRemain)
    (hremain : tickRemain b = some (v - osTickCtr)) (hr : tickRemain t = some r)
    (hle : ¬ v - osTickCtr < r) (hwheel : s.wheel[i]? = some ⟨(L i).head?, (L i).length, peak⟩) :
    ∃ links, tickInsertLoop matchOf osTickCtr t i (n + 1) (some b) s
        = some ⟨s.wheel.set i ⟨(xs ++ t :: b :: ys).head?, (L i).length, peak⟩, links, tickRemain⟩
      ∧ LinkFamily links (Function.update L i (xs ++ t :: b :: ys))
      ∧ ∀ a, s.links a ≠ none → links a ≠ none := by
  obtain ⟨k, hk⟩ := Option.ne_none_iff_exists'.mp (h.alloc t ht)
  have hbnode := h.family.node xs hL
  have hnot := hnew i
  rw [hL, List.mem_append, List.mem_cons, not_or, not_or] at hnot
  obtain ⟨hx, htb, -⟩ := hnot
  obtain ⟨peak', hload⟩ := h.load hi
  have hload' : s.wheel.load i = some ⟨(L i).head?, (L i).length, peak⟩ := by
    rw [Cells.load_natCast, hwheel]
  rcases xs.eq_nil_or_concat with rfl | ⟨xs, a, rfl⟩
  · obtain ⟨m₁, hm₁, ht₁, hrest₁⟩ :=
      Mem.modify_spec hk fun n => (n.setPrevious none).setNext (some b)
    obtain ⟨m₂, hm₂, hb₂, hrest₂⟩ :=
      Mem.modify_spec ((hrest₁ b (Ne.symm htb)).trans hbnode) (LinkNode.setPrevious (some t))
    refine ⟨m₂, ?_, h.family.insert [] (b :: ys) hL hnew ?_ (by simp) (fun c hc => ?_)
      (fun c hct _ hcb => ?_), fun c hc => Mem.modify_ne_none hm₂ (Mem.modify_ne_none hm₁ hc)⟩
    · simp [tickInsertLoop, hb, hm, hr, hremain, hle, Mem.read_eq hbnode, hm₁, hm₂, hload',
        h.store hi]
    · rw [hrest₂ t htb, ht₁]
      rfl
    · obtain rfl : b = c := by simpa using hc
      rw [hb₂, hbnode]
      rfl
    · rw [hrest₂ c fun heq => hcb (by simp [heq]), hrest₁ c hct]
  · rw [List.concat_eq_append] at *
    have hLa : L i = xs ++ a :: b :: ys := by rw [hL, List.append_assoc]; rfl
    have ha := h.family.node xs hLa
    have hta : t ≠ a := fun heq => hx (by simp [heq])
    have hba : b ≠ a := by
      have hnodup := h.family.nodup i
      rw [hL, List.nodup_append'] at hnodup
      exact fun heq => hnodup.2.2 (by simp : a ∈ xs ++ [a]) (by simp [heq])
    have hhead : (L i).head? = (xs ++ [a] ++ t :: b :: ys).head? := by
      rw [hL]
      cases xs <;> rfl
    obtain ⟨m₁, hm₁, ht₁, hrest₁⟩ :=
      Mem.modify_spec hk fun n => (n.setPrevious (some a)).setNext (some b)
    obtain ⟨m₂, hm₂, ha₂, hrest₂⟩ :=
      Mem.modify_spec ((hrest₁ a hta.symm).trans ha) (LinkNode.setNext (some t))
    obtain ⟨m₃, hm₃, hb₃, hrest₃⟩ := Mem.modify_spec
      (((hrest₂ b hba).trans (hrest₁ b (Ne.symm htb))).trans hbnode) (LinkNode.setPrevious (some t))
    refine ⟨m₃, ?_, h.family.insert (xs ++ [a]) (b :: ys) hL hnew ?_ (fun c hc => ?_)
      (fun c hc => ?_) (fun c hct hca hcb => ?_), fun c hc => Mem.modify_ne_none hm₃
        (Mem.modify_ne_none hm₂ (Mem.modify_ne_none hm₁ hc))⟩
    · rw [List.getLast?_concat] at hbnode
      rw [← hhead, ← wheel_eq hwheel]
      simp [tickInsertLoop, hb, hm, hr, hremain, hle, Mem.read_eq hbnode, hm₁, hm₂, hm₃]
    · rw [hrest₃ t htb, hrest₂ t hta, ht₁, List.getLast?_concat]
      rfl
    · obtain rfl : a = c := by simpa using hc
      rw [hrest₃ a hba.symm, ha₂, ha]
      rfl
    · obtain rfl : b = c := by simpa using hc
      rw [hb₃, hbnode]
      rfl
    · rw [hrest₃ c fun heq => hcb (by simp [heq]), hrest₂ c fun heq => hca (by simp [heq]),
        hrest₁ c hct]

/-- **The search puts the task in front of the first one of which no fewer ticks remain.**  It has
come to the tasks `b :: ys`, past the tasks `xs`. -/
lemma insertLoop (h : IsTick cfg dom s L) (osTickCtr : Tick) (xs : List ℕ)
    (hi : i < cfg.tickWheelSize) (ht : t ∈ dom) (hnew : ∀ j, t ∉ L j)
    {matchOf : ℕ → Option Tick} {f : ℕ → Tick} {r : Tick}
    (hdom : ∀ a ∈ L i, a ∈ dom ∧ matchOf a = some (f a)) {n b peak : ℕ} {ys : List ℕ}
    (hL : L i = xs ++ b :: ys) (hr : s.tickRemain t = some r) (hn : (b :: ys).length ≤ n)
    (hwheel : s.wheel[i]? = some ⟨(L i).head?, (L i).length, peak⟩) :
    ∃ s' K, tickInsertLoop matchOf osTickCtr t i n (some b) s = some s'
      ∧ K = xs ++ placeBehind (fun a => f a - osTickCtr < r) t (b :: ys)
      ∧ LinkFamily s'.links (Function.update L i K)
      ∧ (∀ a, s.links a ≠ none → s'.links a ≠ none)
      ∧ (∀ a, s.tickRemain a ≠ none → s'.tickRemain a ≠ none)
      ∧ s'.wheel = s.wheel.set i ⟨K.head?, (L i).length, peak⟩ := by
  induction ys generalizing xs b n s with
  | nil =>
      obtain ⟨n, rfl⟩ : ∃ k, n = k + 1 := ⟨n - 1, by simp at hn; omega⟩
      have hbL : b ∈ L i := by rw [hL]; simp
      obtain ⟨tickRemain, hm, hmb, hmt, halloc⟩ := h.modifyRemain hnew hbL
        (fun a ha => (hdom a ha).1) (f b - osTickCtr) hr
      have hb := (hdom b hbL).2
      by_cases hlt : f b - osTickCtr < r
      · -- the task goes behind the last one
        obtain ⟨k, hk⟩ := Option.ne_none_iff_exists'.mp (h.alloc t ht)
        have hbnode := h.family.node xs hL
        have htb : t ≠ b := fun heq => hnew i (hL ▸ by simp [heq])
        obtain ⟨m₁, hm₁, ht₁, hrest₁⟩ :=
          Mem.modify_spec hk fun n => (n.setNext none).setPrevious (some b)
        obtain ⟨m₂, hm₂, hb₂, hrest₂⟩ :=
          Mem.modify_spec ((hrest₁ b htb.symm).trans hbnode) (LinkNode.setNext (some t))
        have hplace : xs ++ placeBehind (fun a => f a - osTickCtr < r) t [b] = L i ++ [t] := by
          simp [placeBehind, hlt, hL]
        have hhead : (L i ++ [t]).head? = (L i).head? := by
          rw [hL]
          cases xs <;> rfl
        have hlast : (L i).getLast? = some b := by rw [hL, List.getLast?_concat]
        have hfamily : LinkFamily m₂ (Function.update L i (L i ++ [t])) := by
          refine h.family.insert (L i) [] (by simp) hnew ?_ (fun c hc => ?_) (by simp)
            fun c hct hcb _ => ?_
          · rw [hrest₂ t htb, ht₁, hlast]
            rfl
          · obtain rfl : b = c := by simpa [hlast] using hc
            rw [hb₂, hbnode]
            rfl
          · rw [hrest₂ c fun heq => hcb (heq ▸ hlast), hrest₁ c hct]
        refine ⟨⟨s.wheel, m₂, tickRemain⟩, _, ?_, rfl, hplace ▸ hfamily,
          fun c hc => Mem.modify_ne_none hm₂ (Mem.modify_ne_none hm₁ hc), halloc, ?_⟩
        · simp [tickInsertLoop, hb, hm, hmb, hmt, hlt, Mem.read_eq hbnode, hm₁, hm₂]
        · rw [hplace, hhead]
          exact wheel_eq hwheel
      · obtain ⟨links, hloop, hfamily, hlinks⟩ :=
          h.linkBefore hi ht hnew hL hb hm hmb hmt hlt hwheel
        exact ⟨_, _, hloop, rfl, by simpa [placeBehind, hlt] using hfamily, hlinks, halloc,
          by simp [placeBehind, hlt]⟩
  | cons c ys ih =>
      obtain ⟨n, rfl⟩ : ∃ k, n = k + 1 := ⟨n - 1, by simp at hn; omega⟩
      have hbL : b ∈ L i := by rw [hL]; simp
      obtain ⟨tickRemain, hm, hmb, hmt, halloc⟩ := h.modifyRemain hnew hbL
        (fun a ha => (hdom a ha).1) (f b - osTickCtr) hr
      have hb := (hdom b hbL).2
      by_cases hlt : f b - osTickCtr < r
      · have hbnode := h.family.node xs hL
        have hLc : L i = xs ++ [b] ++ c :: ys := by rw [hL, List.append_assoc]; rfl
        obtain ⟨s', K, hloop, hK, hfamily, hlinks, hremain, hw⟩ :=
          ih (h.setRemain halloc) (xs ++ [b]) hLc hmt (by simpa using hn) hwheel
        refine ⟨s', K, ?_, ?_, hfamily, hlinks, fun a ha => hremain a (halloc a ha), hw⟩
        · simpa [tickInsertLoop, hb, hm, hmb, hmt, hlt, Mem.read_eq hbnode] using hloop
        · rw [hK]
          simp [placeBehind, hlt]
      · obtain ⟨links, hloop, hfamily, hlinks⟩ :=
          h.linkBefore hi ht hnew hL hb hm hmb hmt hlt hwheel
        exact ⟨_, _, hloop, rfl, by simpa [placeBehind, hlt] using hfamily, hlinks, halloc,
          by simp [placeBehind, hlt]⟩

/-- **A task comes into the list of a spoke.** -/
lemma link (h : IsTick cfg dom s L) (osTickCtr : Tick) (hi : i < cfg.tickWheelSize) (ht : t ∈ dom)
    (hnew : ∀ j, t ∉ L j) {matchOf : ℕ → Option Tick} {f : ℕ → Tick} {r : Tick}
    (hdom : ∀ a ∈ L i, a ∈ dom ∧ matchOf a = some (f a)) (hr : s.tickRemain t = some r)
    (hlen : (L i).length + 1 < 65536) :
    ∃ s', tickListLink matchOf osTickCtr t i s = some s' ∧ IsTick cfg dom s'
      (Function.update L i (placeBehind (fun a => f a - osTickCtr < r) t (L i))) := by
  obtain ⟨peak, hwheel⟩ := h.spoke i hi
  have hload : s.wheel.load i = some ⟨(L i).head?, (L i).length, peak⟩ := by
    rw [Cells.load_natCast, hwheel]
  have hset : ∀ v, Cells.load (s.wheel.set i v) i = some v := fun v => by
    rw [Cells.load_natCast, List.getElem?_set_self (h.length ▸ hi)]
  have hstore : ∀ v w, Cells.store (s.wheel.set i v) i w = some (s.wheel.set i w) := fun v w => by
    rw [Cells.store_natCast (by rw [List.length_set, h.length]; exact hi), List.set_set]
  cases hL : L i with
  | nil =>
      obtain ⟨k, hk⟩ := Option.ne_none_iff_exists'.mp (h.alloc t ht)
      obtain ⟨m, hm, htm, hrest⟩ :=
        Mem.modify_spec hk fun n => (n.setNext none).setPrevious none
      have hfamily : LinkFamily m (Function.update L i [t]) :=
        h.family.insert [] [] hL hnew htm (by simp) (by simp) fun b hb _ _ => hrest b hb
      refine ⟨⟨s.wheel.set i ⟨some t, 1, if peak < 1 then 1 else peak⟩, m, s.tickRemain⟩, ?_,
        h.change hi hfamily (fun a ha => Mem.modify_ne_none hm ha) fun a ha => ha⟩
      simp only [tickListLink, hload, hL, List.head?_nil, List.length_nil, if_pos, hm, h.store hi,
        hset, hstore, Option.bind_eq_bind, Option.bind_some, Option.map_some]
      split_ifs <;> rfl
  | cons b ys =>
      have hqty : qtyAdd (L i).length 1 = (L i).length + 1 := Nat.mod_eq_of_lt hlen
      obtain ⟨s', K, hloop, hK, hfamily, hlinks, hremain, hw⟩ :=
        h.insertLoop osTickCtr [] hi ht hnew hdom hL hr (congrArg List.length hL).ge hwheel
      have hlenK : K.length = (L i).length + 1 := by
        rw [hK, List.nil_append, length_placeBehind, hL]
      have hzero : (L i).length ≠ 0 := by simp [hL]
      rw [← hL] at hK
      refine ⟨⟨s.wheel.set i ⟨K.head?, K.length, if peak < K.length then K.length else peak⟩,
        s'.links, s'.tickRemain⟩, ?_, ?_⟩
      · have hfirst : (L i).head? = some b := by rw [hL]; rfl
        simp only [tickListLink, hload, if_neg hzero, hfirst, hloop, hw, hset, hstore, hqty,
          ← hlenK, Option.bind_eq_bind, Option.bind_some, Option.map_some]
        split_ifs <;> rfl
      · rw [List.nil_append] at hK
        rw [← hL, ← hK]
        exact h.change hi hfamily hlinks hremain

/-- **A task leaves the list of its spoke.** -/
lemma unlink (h : IsTick cfg dom s L) (hi : i < cfg.tickWheelSize) {xs ys : List ℕ}
    (hL : L i = xs ++ t :: ys) (hlen : (L i).length < 65536) :
    ∃ s', tickListUnlink t i s = some s' ∧ IsTick cfg dom s' (Function.update L i (xs ++ ys)) := by
  have hnodup := h.family.nodup i
  rw [hL, List.nodup_middle, List.nodup_cons, List.mem_append, not_or] at hnodup
  obtain ⟨⟨htx, hty⟩, -⟩ := hnodup
  have ht := h.family.node xs hL
  obtain ⟨peak, hload⟩ := h.load hi
  have hqty : qtySub (L i).length 1 = (xs ++ ys).length := by
    rw [hL] at hlen ⊢
    simp only [qtySub, List.length_append, List.length_cons] at hlen ⊢
    omega
  obtain ⟨m₁, m₂, hnil, hfront, hback, hjoin⟩ := h.family.join hL
  obtain ⟨links, hlinks, hfamily, halloc⟩ := h.family.takeOut hL hjoin fun n =>
    (n.setNext none).setPrevious none
  -- the task is the first one of its spoke if and only if there is none in front of it
  have hunlink : spokeUnlink t (L i).head? xs.getLast? ys.head? s.links
      = some ((xs ++ ys).head?, m₂) := by
    rcases xs.eq_nil_or_concat with rfl | ⟨xs, a, rfl⟩
    · obtain rfl := hnil rfl
      have hhead : (L i).head? = some t := by rw [hL]; rfl
      rw [List.getLast?_nil] at hback
      rw [spokeUnlink, if_pos hhead, hback]
      rfl
    · rw [List.concat_eq_append] at *
      have hhead : (L i).head? = (xs ++ [a] ++ ys).head? := by
        rw [hL]
        cases xs <;> rfl
      have hne : (L i).head? ≠ some t := by
        intro heq
        rw [hhead] at heq
        have hmem := List.mem_of_head? heq
        rw [List.mem_append] at hmem
        exact hmem.elim htx hty
      rw [spokeUnlink, if_neg hne, hhead, List.getLast?_concat, hfront a List.getLast?_concat,
        Option.bind_some, ← List.getLast?_concat (l := xs), hback]
      rfl
  refine ⟨⟨s.wheel.set i ⟨(xs ++ ys).head?, (xs ++ ys).length, peak⟩, links, s.tickRemain⟩, ?_,
    h.change hi hfamily halloc fun _ ha => ha⟩
  simp [tickListUnlink, hload, Mem.read_eq ht, hunlink, hlinks, h.store hi, hqty]

end IsTick

end Wgs.Ucos
