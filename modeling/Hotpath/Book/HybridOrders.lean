import Hotpath.Book.HybridLevels

/-!
# Orders in their queues

One lemma for each thing an operation can do to the queues: `enqueue` appends a
fresh slot, `unlink` takes one out and ends a level with its last order, a
partial reduction changes one quantity. `Pushed`, `Pulled` and `Cut` say what
happens to everything else in the book.
-/

namespace Hotpath.Book.HybridBook
open Hotpath.Support

variable {b b' : HybridBook} {Q : Queues} {s : Side} {p : Price} {ref : OrderId} {qty : Qty}
  {m : ℕ}

/-- What an order slot says, its place in the lists apart. -/
def Order.data (o : Order) : OrderId × UInt32 × Qty × Side := (o.id, o.seq, o.qty, o.side)

theorem Order.qty_of_data {o o' : Order} (h : o'.data = o.data) : o'.qty = o.qty := by
  simp only [Order.data, Prod.mk.injEq] at h
  exact h.2.2.1

theorem total_data {q : List ℕ} (h : ∀ o ∈ q, (b'.ord o).data = (b.ord o).data) :
    b'.total q = b.total q := by
  unfold total
  congr 1
  exact List.map_congr_left fun o ho => by rw [Order.qty_of_data (h o ho)]

theorem total_append (l r : List ℕ) : b.total (l ++ r) = b.total l + b.total r := by
  simp only [total, List.map_append, List.sum_append]

theorem total_cons (o : ℕ) (q : List ℕ) : b.total (o :: q) = (b.ord o).qty.toNat + b.total q := rfl

theorem ofNat_add_qty (n : ℕ) (x : Qty) : UInt32.ofNat n + x = UInt32.ofNat (n + x.toNat) := by
  rw [UInt32.ofNat_add, UInt32.ofNat_toNat]

theorem ofNat_sub_qty (n : ℕ) (x : Qty) : UInt32.ofNat (n + x.toNat) - x = UInt32.ofNat n := by
  rw [UInt32.ofNat_add, UInt32.ofNat_toNat, UInt32.add_sub_cancel]

/-! ### Appending -/

structure Pushed (b b' : HybridBook) (m : ℕ) (ref : OrderId) (s : Side) (p : Price) (qty : Qty) :
    Prop where
  lo : b'.lo = b.lo
  ticks : b'.ticks = b.ticks
  orders : b'.orders.length = b.orders.length
  levels : b'.levels.length = b.levels.length
  data : (b'.ord m).data = (ref, b.nextSeq, qty, s)
  others : ∀ o, o ≠ m → (b'.ord o).data = (b.ord o).data
  nextSeq : b'.nextSeq = b.nextSeq + 1
  table : (b.ids.insert OpenHashMap.hash ref (m : ℤ) = some (b'.ids, true) ∧
      b'.rejected = b.rejected) ∨
    (b.ids.insert OpenHashMap.hash ref (m : ℤ) = some (b'.ids, false) ∧
      b'.rejected = b.rejected + 1)
  hint : ∀ s', (b'.grid s').hint = if s' = s ∧ b.inGrid p = true ∧ b.levelIx s p < 0
    then raiseHint s (b.grid s).hint (b.tickOf p) else (b.grid s').hint

theorem insert_total (h : b.ids.WF OpenHashMap.hash) (href : ref ≠ OpenHashMap.kEmpty) (v : ℤ) :
    ∃ ids ok, b.ids.insert OpenHashMap.hash ref v = some (ids, ok) := by
  rcases h.insert_spec href v with ⟨-, -, h⟩ | ⟨ids, h, -⟩
  · exact ⟨_, _, h⟩
  · exact ⟨_, _, h⟩

/-- The id table turns the new slot away, or it names it. -/
theorem Pushed.table_cases {m : ℕ} (hp : Pushed b b' m ref s p qty)
    (ht : b.ids.WF OpenHashMap.hash) (href : ref ≠ OpenHashMap.kEmpty) :
    (b'.rejected = b.rejected + 1 ∧ b'.ids = b.ids ∧ OpenHashMap.lookup b.ids ref = none) ∨
    (b'.rejected = b.rejected ∧ b'.ids.WF OpenHashMap.hash ∧
      (∀ i ≠ OpenHashMap.kEmpty, OpenHashMap.lookup b'.ids i =
        if i = ref then some (m : ℤ) else OpenHashMap.lookup b.ids i) ∧
      ((OpenHashMap.lookup b.ids ref ≠ none ∧ b'.ids.size = b.ids.size) ∨
        (OpenHashMap.lookup b.ids ref = none ∧ b'.ids.size = b.ids.size + 1))) := by
  rcases ht.insert_spec href (m : ℤ) with ⟨hnone, -, hi⟩ | ⟨ids, hi, hw, -, hlk, hsize⟩
  · rcases hp.table with ⟨h, -⟩ | ⟨h, hrej⟩
    · rw [hi] at h
      exact absurd h (by simp)
    · rw [hi] at h
      exact Or.inl ⟨hrej, (Prod.mk.inj (Option.some.inj h)).1.symm, hnone⟩
  · rcases hp.table with ⟨h, hrej⟩ | ⟨h, -⟩
    · rw [hi] at h
      obtain rfl := (Prod.mk.inj (Option.some.inj h)).1
      exact Or.inr ⟨hrej, hw, hlk, hsize.imp id fun hs => ⟨hs.1, hs.2.2⟩⟩
    · rw [hi] at h
      exact absurd h (by simp)

theorem Core.enqueue (hc : Core b Q) (ht : b.ids.WF OpenHashMap.hash)
    (href : ref ≠ OpenHashMap.kEmpty) {n : ℕ} (hx : b.levelIx s p = n) (hm : m < b.orders.length)
    (hsmall : m < 2 ^ 31) (hfresh : ∀ s' p', m ∉ Q s' p') (hqty : qty ≠ 0) :
    ∃ b', b.enqueue m n ref s qty = some b' ∧ Core b' (set2 Q s p (Q s p ++ [m])) ∧
      SameIndex b b' ∧ b'.freeOrders = b.freeOrders ∧ b'.orders.length = b.orders.length ∧
      b'.levels.length = b.levels.length ∧ (b'.ord m).data = (ref, b.nextSeq, qty, s) ∧
      (∀ o, o ≠ m → (b'.ord o).data = (b.ord o).data) ∧ b'.nextSeq = b.nextSeq + 1 ∧
      ((b.ids.insert OpenHashMap.hash ref (m : ℤ) = some (b'.ids, true) ∧
          b'.rejected = b.rejected) ∨
        (b.ids.insert OpenHashMap.hash ref (m : ℤ) = some (b'.ids, false) ∧
          b'.rejected = b.rejected + 1)) := by
  obtain ⟨n', hn', hn, -, hl⟩ := hc.level s p (by omega)
  obtain rfl : n' = n := by
    rw [hx] at hn'
    exact_mod_cast hn'.symm
  have hsub : subscript b.levels (n' : ℤ) = some (b.lev n') := subscript_cast hn _
  obtain ⟨o1, ho1, hlen1, hget1⟩ := modifyAt_get hm (fun _ =>
    ({ id := ref, qty := qty, level := n', side := s, seq := b.nextSeq,
       prev := (b.lev n').tail, next := -1 } : Order)) ({} : Order)
  have htail : (b.lev n').tail = -1 ∨ ∃ t < o1.length, (b.lev n').tail = (t : ℤ) := by
    rcases hl.chain.tail_cases with ⟨-, h⟩ | ⟨-, x, hxq, h⟩
    · exact Or.inl h
    · exact Or.inr ⟨x, by rw [hlen1]; exact (hc.order s p x hxq).inPool, h⟩
  obtain ⟨o2, ho2, hlen2, hget2⟩ :=
    modifyLink_get htail (fun o => { o with next := (m : ℤ) }) ({} : Order)
  obtain ⟨levels, hl1, hllen, hlget⟩ := modifyAt_get hn (fun l : Level =>
    { l with head := if 0 ≤ (b.lev n').tail then l.head else (m : ℤ), tail := m,
             qty := l.qty + qty, orders := l.orders + 1 }) ({} : Level)
  obtain ⟨ids, ok, hins⟩ := insert_total ht href (m : ℤ)
  have hmtail : (m : ℤ) ≠ (b.lev n').tail := by
    rcases hl.chain.tail_cases with ⟨-, h⟩ | ⟨-, x, hxq, h⟩
    · omega
    · rw [h]
      intro he
      have hmx : m = x := by exact_mod_cast he
      exact hfresh s p (hmx ▸ hxq)
  obtain ⟨b', hb'⟩ : ∃ b' : HybridBook, b' = { b with
      orders := o2
      levels := levels
      nextSeq := b.nextSeq + 1
      ids := ids
      rejected := if ok then b.rejected else b.rejected + 1 } := ⟨_, rfl⟩
  have hrun : b.enqueue m n' ref s qty = some b' := by
    rw [hb']
    simp only [HybridBook.enqueue, hsub, ho1, ho2, hl1, hins, Option.bind_eq_bind,
      Option.bind_some]
    rfl
  have hordm : b'.ord m = ⟨ref, b.nextSeq, qty, (b.lev n').tail, -1, n', s⟩ := by
    rw [ord, hb', hget2, if_neg hmtail, hget1, if_pos rfl]
  have hord : ∀ o, o ≠ m → b'.ord o =
      if (o : ℤ) = (b.lev n').tail then { b.ord o with next := (m : ℤ) } else b.ord o := by
    intro o ho
    rw [ord, hb', hget2, hget1, if_neg ho]
    rfl
  have hdata : ∀ o, o ≠ m → (b'.ord o).data = (b.ord o).data := by
    intro o ho
    rw [hord o ho]
    split <;> rfl
  have hlevn : b'.lev n' = { b.lev n' with
      head := if 0 ≤ (b.lev n').tail then (b.lev n').head else (m : ℤ)
      tail := m
      qty := (b.lev n').qty + qty
      orders := (b.lev n').orders + 1 } := by
    rw [lev, hb', hlget, if_pos rfl]
    rfl
  have hne : ∀ o ∈ Q s p, o ≠ m := fun o ho he => hfresh s p (he ▸ ho)
  have hlevel : LevelOk b' n' p (Q s p ++ [m]) := by
    refine ⟨by rw [hlevn, hl.price], ?_, ?_, ?_⟩
    · rw [hlevn, total_append, total_data fun o ho => hdata o (hne o ho), total_cons, hordm]
      show (b.lev n').qty + qty = UInt32.ofNat (b.total (Q s p) + (qty.toNat + 0))
      rw [hl.qty, ofNat_add_qty, Nat.add_zero]
    · rw [hlevn, List.length_append, UInt32.ofNat_add]
      show (b.lev n').orders + 1 = _
      rw [hl.orders]
      rfl
    · have hhead : (if 0 ≤ (b.lev n').tail then (b.lev n').head else (m : ℤ)) =
          if (b.lev n').tail < 0 then (m : ℤ) else (b.lev n').head := by
        split_ifs <;> first | rfl | omega
      rw [hlevn]
      show Chain _ _ (if 0 ≤ (b.lev n').tail then (b.lev n').head else (m : ℤ)) m _
      rw [hhead]
      refine hl.chain.push (hfresh s p) (by simp only [hordm]) (by simp only [hordm])
        (fun o ho => ?_) fun o ho => ?_
      · simp only [hord o (hne o ho)]
        split <;> rfl
      · simp only [hord o (hne o ho)]
        split <;> rfl
  have hi : SameIndex b b' := by rw [hb']; exact ⟨rfl, rfl, rfl, rfl⟩
  have horders : b'.orders.length = b.orders.length := by rw [hb']; exact hlen2.trans hlen1
  have hlevels : b'.levels.length = b.levels.length := by rw [hb']; exact hllen
  refine ⟨b', hrun, ?_, hi, by rw [hb'], horders, hlevels, by rw [hordm]; rfl, hdata,
    by rw [hb'], ?_⟩
  · refine hc.relink hi (by rw [hb']) horders hlevels hx (fun k hk => ?_) hlevel
      (fun o ho1 ho2 => ?_) (fun o ho => ?_) fun o ho => ?_
    · rw [lev, hb', hlget, if_neg hk, lev]
    · have hom : o ≠ m := fun he => ho2 (by simp [he])
      rw [hord o hom, if_neg]
      rcases hl.chain.tail_cases with ⟨-, h⟩ | ⟨-, x, hxq, h⟩
      · omega
      · rw [h]
        intro he
        have hox : o = x := by exact_mod_cast he
        exact ho1 (hox ▸ hxq)
    · rcases List.mem_append.mp ho with ho | ho
      · exact Or.inl ho
      · rw [List.mem_singleton] at ho
        exact Or.inr (ho ▸ hfresh)
    · rcases List.mem_append.mp ho with ho | ho
      · obtain ⟨h1, h2, h3, h4, h5⟩ := hc.order s p o ho
        refine ⟨by rwa [horders], h2, ?_, ?_, ?_⟩
        · rw [hi.levelIx_eq, ← h3, hord o (hne o ho)]
          split <;> rfl
        · rw [← h4, hord o (hne o ho)]
          split <;> rfl
        · rwa [Order.qty_of_data (hdata o (hne o ho))]
      · rw [List.mem_singleton] at ho
        rw [ho]
        refine ⟨by rwa [horders], hsmall, ?_, by rw [hordm], by rw [hordm]; exact hqty⟩
        rw [hordm, hi.levelIx_eq, hx]
  · rw [hb']
    cases ok with
    | true => exact Or.inl ⟨hins, rfl⟩
    | false => exact Or.inr ⟨hins, rfl⟩

/-! ### Taking out -/

structure Pulled (b b' : HybridBook) (ref : OrderId) (s : Side) (p : Price) (last : Prop)
    [Decidable last] : Prop where
  lo : b'.lo = b.lo
  ticks : b'.ticks = b.ticks
  orders : b'.orders.length = b.orders.length
  levels : b'.levels.length = b.levels.length
  data : ∀ o, (b'.ord o).data = (b.ord o).data
  nextSeq : b'.nextSeq = b.nextSeq
  rejected : b'.rejected = b.rejected
  size : b'.ids.size + 1 = b.ids.size
  slots : b'.ids.slots.length = b.ids.slots.length
  ids : ∀ k ≠ OpenHashMap.kEmpty, OpenHashMap.lookup b'.ids k =
    if k = ref then none else OpenHashMap.lookup b.ids k
  hint : ∀ s', (b'.grid s').hint =
    if s' = s ∧ last ∧ b.inGrid p = true ∧ (b.grid s).hint = b.tickOf p then -1
    else (b.grid s').hint

theorem Core.unlink (hc : Core b Q) {l r : List ℕ} (hq : Q s p = l ++ m :: r)
    (hlive : ∀ s' p', 0 ≤ b.levelIx s' p' → Q s' p' ≠ []) :
    ∃ b', b.unlink m = some b' ∧ Core b' (set2 Q s p (l ++ r)) ∧
      (∀ s' p', 0 ≤ b'.levelIx s' p' → set2 Q s p (l ++ r) s' p' ≠ []) ∧
      b'.lo = b.lo ∧ b'.ticks = b.ticks ∧ b'.freeOrders = b.freeOrders ∧
      b'.orders.length = b.orders.length ∧ b'.levels.length = b.levels.length ∧
      (∀ o, (b'.ord o).data = (b.ord o).data) ∧ b'.nextSeq = b.nextSeq ∧
      b'.rejected = b.rejected ∧ b'.ids = b.ids ∧
      ∀ s', (b'.grid s').hint =
        if s' = s ∧ l ++ r = [] ∧ b.inGrid p = true ∧ (b.grid s).hint = b.tickOf p then -1
        else (b.grid s').hint := by
  have hmem : m ∈ Q s p := by simp [hq]
  obtain ⟨hpool, hsmall, hlv, hsd, hqt⟩ := hc.order s p m hmem
  obtain ⟨n, hx, hn, hnsmall, hl⟩ := hc.level s p (hc.absent_of hmem)
  have hsubo : subscript b.orders (m : ℤ) = some (b.ord m) := subscript_cast hpool _
  have hsubl : subscript b.levels (n : ℤ) = some (b.lev n) := subscript_cast hn _
  have hchain := hl.chain
  rw [hq] at hchain
  have hinQ : ∀ o ∈ l ++ r, o ∈ Q s p := by
    intro o ho
    rw [hq]
    rcases List.mem_append.mp ho with h | h
    · exact List.mem_append_left _ h
    · exact List.mem_append_right _ (List.mem_cons_of_mem _ h)
  have hprev : (b.ord m).prev = -1 ∨ ∃ y ∈ l ++ r, (b.ord m).prev = (y : ℤ) := by
    rcases hchain.prev_cases with h | ⟨y, hy, h⟩
    · exact Or.inl h
    · exact Or.inr ⟨y, List.mem_append_left _ hy, h⟩
  have hnext : (b.ord m).next = -1 ∨ ∃ y ∈ l ++ r, (b.ord m).next = (y : ℤ) := by
    rcases hchain.next_cases with h | ⟨y, hy, h⟩
    · exact Or.inl h
    · exact Or.inr ⟨y, List.mem_append_right _ hy, h⟩
  have hmem' : m ∉ l ++ r := fun h => ne_of_nodup hchain.nodup h rfl
  obtain ⟨o1, ho1, hlen1, hget1⟩ := modifyLink_get (v := b.orders) (i := (b.ord m).prev)
    (hprev.imp_right fun ⟨y, hy, h⟩ => ⟨y, (hc.order s p y (hinQ y hy)).inPool, h⟩)
    (fun o => { o with next := (b.ord m).next }) ({} : Order)
  obtain ⟨o2, ho2, hlen2, hget2⟩ := modifyLink_get (v := o1) (i := (b.ord m).next)
    (hnext.imp_right fun ⟨y, hy, h⟩ =>
      ⟨y, by rw [hlen1]; exact (hc.order s p y (hinQ y hy)).inPool, h⟩)
    (fun o => { o with prev := (b.ord m).prev }) ({} : Order)
  have hpool2 : m < o2.length := by rw [hlen2, hlen1]; exact hpool
  obtain ⟨o3, ho3, hlen3, hget3⟩ := modifyAt_get hpool2
    (fun o : Order => { o with prev := -1, next := -1, level := -1 }) ({} : Order)
  obtain ⟨level, hlevel⟩ : ∃ level : Level, level = { b.lev n with
      head := if 0 ≤ (b.ord m).prev then (b.lev n).head else (b.ord m).next
      tail := if 0 ≤ (b.ord m).next then (b.lev n).tail else (b.ord m).prev
      qty := (b.lev n).qty - (b.ord m).qty
      orders := (b.lev n).orders - 1 } := ⟨_, rfl⟩
  obtain ⟨levels, hl1, hllen, hlget⟩ := modifyAt_get hn (fun _ => level) ({} : Level)
  obtain ⟨b1, hb1⟩ : ∃ b1 : HybridBook, b1 = { b with orders := o3, levels := levels } := ⟨_, rfl⟩
  have hrun : b.unlink m = if level.orders = 0 then b1.dropLevel s n else some b1 := by
    rw [hb1, hlevel]
    simp only [HybridBook.unlink, hsubo, hlv, hx, hsubl, Option.bind_eq_bind, Option.bind_some,
      ho1, ho2, ho3, hsd, ← hlevel, hl1]
    rfl
  have hi : SameIndex b b1 := by rw [hb1]; exact ⟨rfl, rfl, rfl, rfl⟩
  have horders : b1.orders.length = b.orders.length := by
    rw [hb1]
    exact hlen3.trans (hlen2.trans hlen1)
  have hlevels : b1.levels.length = b.levels.length := by rw [hb1]; exact hllen
  have hord : ∀ o, o ≠ m → b1.ord o =
      { b.ord o with
        next := if (o : ℤ) = (b.ord m).prev then (b.ord m).next else (b.ord o).next
        prev := if (o : ℤ) = (b.ord m).next then (b.ord m).prev else (b.ord o).prev } := by
    intro o ho
    have hg : b1.ord o = o3.getD o {} := by rw [hb1]; rfl
    rw [hg, hget3, if_neg ho, hget2, hget1]
    show _ = { b.ord o with
        next := if (o : ℤ) = (b.ord m).prev then (b.ord m).next else (b.ord o).next
        prev := if (o : ℤ) = (b.ord m).next then (b.ord m).prev else (b.ord o).prev }
    unfold ord
    split_ifs <;> rfl
  have hdata : ∀ o, (b1.ord o).data = (b.ord o).data := by
    intro o
    by_cases ho : o = m
    · have hg : b1.ord o = o3.getD o {} := by rw [hb1]; rfl
      rw [ho] at hg ⊢
      rw [hg, hget3, if_pos rfl, hget2, hget1]
      unfold ord
      split_ifs <;> rfl
    · rw [hord o ho]
      rfl
  have hlevn : b1.lev n = level := by rw [lev, hb1, hlget, if_pos rfl]
  have hlength : (Q s p).length = (l ++ r).length + 1 := by
    rw [hq]
    simp only [List.length_append, List.length_cons]
    omega
  have hcount := ofNat_pred (hc.length_lt s p).le (by omega)
  have horders0 : level.orders = 0 ↔ l ++ r = [] := by
    rw [hlevel]
    show (b.lev n).orders - 1 = 0 ↔ _
    rw [hl.orders, hcount.2, ← List.length_eq_zero_iff]
    omega
  have hok : LevelOk b1 n p (l ++ r) := by
    refine ⟨by rw [hlevn, hlevel]; exact hl.price, ?_, ?_, ?_⟩
    · rw [hlevn, hlevel, total_data fun o _ => hdata o]
      show (b.lev n).qty - (b.ord m).qty = _
      have hsum : b.total (l ++ m :: r) = b.total (l ++ r) + (b.ord m).qty.toNat := by
        rw [total_append, total_cons, total_append]
        omega
      rw [hl.qty, hq, hsum, ofNat_sub_qty]
    · rw [hlevn, hlevel]
      show (b.lev n).orders - 1 = _
      rw [hl.orders, hcount.1, hlength, Nat.add_sub_cancel]
    · have hrem : Chain (fun o => (b1.ord o).next) (fun o => (b1.ord o).prev)
          (if (b.ord m).prev < 0 then (b.ord m).next else (b.lev n).head)
          (if (b.ord m).next < 0 then (b.ord m).prev else (b.lev n).tail) (l ++ r) :=
        hchain.remove (fun o ho => by simp only [hord o fun he => hmem' (he ▸ ho)])
          (fun o ho => by simp only [hord o fun he => hmem' (he ▸ ho)])
      rw [hlevn, hlevel]
      convert hrem using 1
      · show (if 0 ≤ (b.ord m).prev then (b.lev n).head else (b.ord m).next) = _
        split_ifs <;> first | rfl | omega
      · show (if 0 ≤ (b.ord m).next then (b.lev n).tail else (b.ord m).prev) = _
        split_ifs <;> first | rfl | omega
  have hc1 : Core b1 (set2 Q s p (l ++ r)) := by
    refine hc.relink hi (by rw [hb1]) horders hlevels hx (fun k hk => ?_) hok (fun o ho1 _ => ?_)
      (fun o ho => Or.inl (hinQ o ho)) fun o ho => ?_
    · rw [lev, hb1, hlget, if_neg hk, lev]
    · have hom : o ≠ m := fun he => ho1 (he ▸ hmem)
      have hp0 : (o : ℤ) ≠ (b.ord m).prev := by
        rcases hprev with h | ⟨y, hy, h⟩
        · omega
        · rw [h]
          intro he
          have hoy : o = y := by exact_mod_cast he
          exact ho1 (hoy ▸ hinQ y hy)
      have hn0 : (o : ℤ) ≠ (b.ord m).next := by
        rcases hnext with h | ⟨y, hy, h⟩
        · omega
        · rw [h]
          intro he
          have hoy : o = y := by exact_mod_cast he
          exact ho1 (hoy ▸ hinQ y hy)
      rw [hord o hom, if_neg hp0, if_neg hn0]
    · obtain ⟨h1, h2, h3, h4, h5⟩ := hc.order s p o (hinQ o ho)
      have hom : o ≠ m := fun he => hmem' (he ▸ ho)
      refine ⟨by rwa [horders], h2, ?_, ?_, ?_⟩
      · rw [hi.levelIx_eq, ← h3, hord o hom]
      · rw [← h4, hord o hom]
      · rwa [Order.qty_of_data (hdata o)]
  have hlive' : ∀ s' p', ¬(s' = s ∧ p' = p) → 0 ≤ b.levelIx s' p' →
      set2 Q s p (l ++ r) s' p' ≠ [] := by
    intro s' p' hsp h
    rw [set2_other hsp]
    exact hlive s' p' h
  by_cases hempty : l ++ r = []
  · have hset : set2 Q s p (l ++ r) s p = [] := by rw [set2_same, hempty]
    obtain ⟨b', hd, hc', hso, hix, hhint⟩ :=
      hc1.drop (s := s) (p := p) (n := n) (by rw [hi.levelIx_eq, hx]) hset
    rw [if_pos (horders0.mpr hempty), hd] at hrun
    have hord' : b'.ord = b1.ord := by funext o; rw [ord, hso.orders, ord]
    refine ⟨b', hrun, hc', fun s' p' h => ?_, hso.lo.trans hi.lo, hso.ticks.trans hi.ticks,
      by rw [hso.freeOrders, hb1], by rw [hso.orders, horders], hso.levels.trans hlevels,
      fun o => by rw [hord', hdata], by rw [hso.nextSeq, hb1], by rw [hso.rejected, hb1],
      by rw [hso.ids, hb1], fun s' => ?_⟩
    · rw [hix] at h
      by_cases hsp : s' = s ∧ p' = p
      · obtain ⟨rfl, rfl⟩ := hsp
        rw [set2_same] at h
        omega
      · rw [set2_other hsp, hi.levelIx_eq] at h
        exact hlive' s' p' hsp h
    · rw [hhint s', hi.inGrid_eq, hi.grid]
      have htick : b1.tickOf p = b.tickOf p := by simp only [tickOf, hi.lo]
      rw [htick]
      simp only [hempty, true_and]
  · rw [if_neg fun h => hempty (horders0.mp h)] at hrun
    refine ⟨b1, hrun, hc1, fun s' p' h => ?_, hi.lo, hi.ticks, by rw [hb1], horders, hlevels, hdata,
      by rw [hb1], by rw [hb1], by rw [hb1], fun s' => ?_⟩
    · by_cases hsp : s' = s ∧ p' = p
      · rw [hsp.1, hsp.2, set2_same]
        exact hempty
      · rw [hi.levelIx_eq] at h
        exact hlive' s' p' hsp h
    · rw [hi.grid, if_neg fun h => hempty h.2.1]

end Hotpath.Book.HybridBook
