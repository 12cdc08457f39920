import Hotpath.Support.Fallible
import Hotpath.Book.IntrusiveBook
import Hotpath.Book.HybridRefine

/-!
# The intrusive book follows the hybrid book

The two designs do the same to their pools, free lists and id table; they differ
in how a side finds the level of a price. `Twin h i` says that `i` is `h` without
the stamps, and that each vector of `i` lists the levels `h` has, best first. An
operation that runs on `h` runs on `i`, and keeps the two twins.
-/

namespace Hotpath.Book.IntrusiveBook
open Hotpath.Support
open HybridBook (Queues Rep Core GridOk SameIndex SameOrders set2 set2_same set2_other better)

variable {h h' : HybridBook} {i : IntrusiveBook} {Q : Queues} {s : Side} {p : Price}
  {ref : OrderId} {qty : Qty} {li oi : ℤ}

/-- An order without its stamp. -/
def strip (o : HybridBook.Order) : Order := ⟨o.id, o.qty, o.prev, o.next, o.level, o.side⟩

@[simp] theorem strip_side (o : HybridBook.Order) : (strip o).side = o.side := rfl

/-- The pools, free lists and table of `h` with the vectors of `i`. -/
def shadow (i : IntrusiveBook) (h : HybridBook) : IntrusiveBook :=
  { i with
    orders := h.orders.map strip
    levels := h.levels
    freeOrders := h.freeOrders
    freeLevels := h.freeLevels
    ids := h.ids
    rejected := h.rejected }

/-- The levels of a side, best first. -/
structure Listed (h : HybridBook) (s : Side) (ps : List Price) (v : List ℤ) : Prop where
  sorted : ps.Pairwise fun p q => better s p q = true
  mem : ∀ p, p ∈ ps ↔ 0 ≤ h.levelIx s p
  eq : v = ps.map (h.levelIx s)

/-- Each level in use has the price it is found by. -/
def Priced (h : HybridBook) : Prop := ∀ s p, 0 ≤ h.levelIx s p →
  ∃ level, subscript h.levels (h.levelIx s p) = some level ∧ level.price = p

structure Twin (h : HybridBook) (i : IntrusiveBook) : Prop where
  same : i = shadow i h
  listed : ∀ s, ∃ ps, Listed h s ps (i.idx s)
  count : h.levels.length = h.freeLevels.length + ((i.idx .buy).length + (i.idx .sell).length)

theorem Twin.orders_eq (ht : Twin h i) : i.orders = h.orders.map strip := by
  rw [ht.same]
  rfl

theorem Twin.levels_eq (ht : Twin h i) : i.levels = h.levels := by
  rw [ht.same]
  rfl

theorem Twin.freeOrders_eq (ht : Twin h i) : i.freeOrders = h.freeOrders := by
  rw [ht.same]
  rfl

theorem Twin.ids_eq (ht : Twin h i) : i.ids = h.ids := by
  rw [ht.same]
  rfl

theorem Twin.rejected_eq (ht : Twin h i) : i.rejected = h.rejected := by
  rw [ht.same]
  rfl

theorem Core.priced (hc : Core h Q) : Priced h := by
  intro s p hx
  obtain ⟨n, hn, hlt, -, hl⟩ := hc.level s p hx
  refine ⟨h.lev n, ?_, hl.price⟩
  rw [hn]
  exact subscript_cast hlt _

theorem Listed.congr {ps : List Price} {v : List ℤ} (hl : Listed h s ps v)
    (hix : h'.levelIx = h.levelIx) : Listed h' s ps v :=
  ⟨hl.sorted, by rw [hix]; exact hl.mem, by rw [hix]; exact hl.eq⟩

/-! ### The search -/

theorem before_eq (s : Side) (mp px : Price) : before s mp px = better s mp px := by
  cases s <;> rfl

theorem better_split (s : Side) (px : Price) {ps : List Price}
    (hs : ps.Pairwise fun p q => better s p q = true) :
    ∃ l r, ps = l ++ r ∧ (∀ x ∈ l, better s x px = true) ∧ ∀ x ∈ r, ¬better s x px = true :=
  split_at (R := fun p q => better s p q = true) (fun _ _ _ => HybridBook.better_trans) px ps hs

theorem Listed.lowerBoundPos {l r : List Price} (hp : Priced h)
    (hl : Listed h s (l ++ r) (i.idx s)) (hbefore : ∀ x ∈ l, better s x p = true)
    (hafter : ∀ x ∈ r, ¬better s x p = true) :
    (shadow i h).lowerBoundPos s p = some l.length := by
  have hlen : ((shadow i h).idx s).length = (l ++ r).length := by
    show (i.idx s).length = _
    rw [hl.eq, List.length_map]
  rw [IntrusiveBook.lowerBoundPos, hlen]
  apply lowerBound_split (R := fun x y => better s x y = true) hbefore hafter _ le_rfl
  intro j x hx
  have hidx : ((shadow i h).idx s)[j]? = some (h.levelIx s x) := by
    show (i.idx s)[j]? = _
    rw [hl.eq, List.getElem?_map, hx]
    rfl
  obtain ⟨level, hsub, hprice⟩ := hp s x ((hl.mem x).mp (List.mem_of_getElem? hx))
  have hsub' : subscript (shadow i h).levels (h.levelIx s x) = some level := hsub
  simp only [hidx, hsub', Option.bind_eq_bind, Option.bind_some, hprice, before_eq]
  cases better s x p <;> rfl

theorem insertIdx_split {α : Type} (l r : List α) (x : α) :
    (l ++ r).insertIdx l.length x = l ++ x :: r := by
  induction l with
  | nil => rfl
  | cons y l ih =>
    show y :: ((l ++ r).insertIdx l.length x) = _
    rw [ih]
    rfl

/-! ### Levels -/

theorem levelIx_set2 {v : ℤ} {ps : List Price} (hp : p ∉ ps) (f : Side → Price → ℤ) (s s' : Side) :
    ps.map (set2 f s p v s') = ps.map (f s') := by
  apply List.map_congr_left
  intro q hq
  rw [set2_other]
  intro he
  exact hp (he.2 ▸ hq)

/-- The level of a price enters its vector where the search stopped. -/
theorem Listed.insert {l r : List Price} {n : ℕ} {v : List ℤ} (hl : Listed h s (l ++ r) v)
    (hix : h'.levelIx = set2 h.levelIx s p n) (hnew : p ∉ l ++ r)
    (hsorted : (l ++ p :: r).Pairwise fun p q => better s p q = true) :
    Listed h' s (l ++ p :: r) (v.insertIdx l.length n) := by
  refine ⟨hsorted, fun q => ?_, ?_⟩
  · rw [hix]
    by_cases hq : q = p
    · rw [hq, set2_same]
      exact iff_of_true (by simp) (Int.natCast_nonneg n)
    · rw [set2_other fun he => hq he.2, ← hl.mem q]
      simp [hq]
  · have hlen : l.length = (l.map (h.levelIx s)).length := (List.length_map _).symm
    have hl' : p ∉ l := fun hp => hnew (List.mem_append_left _ hp)
    have hr' : p ∉ r := fun hp => hnew (List.mem_append_right _ hp)
    rw [hl.eq, List.map_append, hlen, insertIdx_split, hix, List.map_append, List.map_cons,
      set2_same, levelIx_set2 hl', levelIx_set2 hr']

theorem Listed.erase {l r : List Price} {v : List ℤ} (hl : Listed h s (l ++ p :: r) v)
    (hix : h'.levelIx = set2 h.levelIx s p (-1)) : Listed h' s (l ++ r) (v.eraseIdx l.length) := by
  obtain ⟨hpl, hpr, hlr⟩ := List.pairwise_append.mp hl.sorted
  have hl' : p ∉ l := by
    intro hp
    exact HybridBook.better_irrefl p (hlr p hp p (List.mem_cons_self ..))
  have hr' : p ∉ r := by
    intro hp
    exact HybridBook.better_irrefl p ((List.pairwise_cons.mp hpr).1 p hp)
  refine ⟨?_, fun q => ?_, ?_⟩
  · exact List.Pairwise.sublist (List.Sublist.append_left (List.sublist_cons_self p r) l) hl.sorted
  · rw [hix]
    by_cases hq : q = p
    · rw [hq, set2_same]
      apply iff_of_false
      · intro hm
        cases List.mem_append.mp hm with
        | inl hm => exact hl' hm
        | inr hm => exact hr' hm
      · decide
    · rw [set2_other fun he => hq he.2, ← hl.mem q]
      simp [hq]
  · have hlen : l.length = (l.map (h.levelIx s)).length := (List.length_map _).symm
    rw [hl.eq, List.map_append, hlen, List.eraseIdx_append_of_length_le le_rfl, Nat.sub_self,
      List.map_cons, List.eraseIdx_cons_zero, hix, List.map_append, levelIx_set2 hl',
      levelIx_set2 hr']

theorem Listed.other {ps : List Price} {v : List ℤ} {s' : Side} {x : ℤ} (hl : Listed h s' ps v)
    (hs : s' ≠ s) (hix : h'.levelIx = set2 h.levelIx s p x) : Listed h' s' ps v := by
  have heq : h'.levelIx s' = h.levelIx s' := by
    funext q
    rw [hix, set2_other fun he => hs he.1]
  exact ⟨hl.sorted, by rw [heq]; exact hl.mem, by rw [heq]; exact hl.eq⟩

theorem other_side (s : Side) : ∃ s', s' ≠ s ∧ ∀ f : Side → ℕ, f .buy + f .sell = f s + f s' := by
  cases s with
  | buy => exact ⟨.sell, by decide, fun f => rfl⟩
  | sell => exact ⟨.buy, by decide, fun f => Nat.add_comm ..⟩

/-- One vector changes together with the entry of one price. -/
theorem Twin.relist {i' : IntrusiveBook} {v : List ℤ} {x : ℤ} (ht : Twin h i)
    (hsame : i' = shadow i' h') (hidx : i'.idx = Function.update i.idx s v)
    (hl : ∃ ps, Listed h' s ps v) (hix : h'.levelIx = set2 h.levelIx s p x)
    (hlen : h'.levels.length = h.levels.length)
    (hfree : h'.freeLevels.length + v.length = h.freeLevels.length + (i.idx s).length) :
    Twin h' i' := by
  have hself : i'.idx s = v := by rw [hidx, Function.update_self]
  have hother : ∀ s', s' ≠ s → i'.idx s' = i.idx s' := fun s' hs => by
    rw [hidx, Function.update_of_ne hs]
  refine ⟨hsame, fun s' => ?_, ?_⟩
  · by_cases hs : s' = s
    · rw [hs, hself]
      exact hl
    · obtain ⟨ps, hl'⟩ := ht.listed s'
      rw [hother s' hs]
      exact ⟨ps, hl'.other hs hix⟩
  · obtain ⟨s', hs', hsum⟩ := other_side s
    have hcount := ht.count
    rw [hsum fun s => (i.idx s).length] at hcount
    rw [hsum fun s => (i'.idx s).length]
    rw [hself, hother s' hs']
    omega

theorem Twin.findOrCreate (ht : Twin h i) (hc : Core h Q) (s : Side) (p : Price) :
    Option.Rel (fun x y => Twin x.1 y.1 ∧ x.2 = y.2) (h.findOrCreateLevel s p)
      (i.findOrCreateLevel s p) := by
  have hp := Core.priced hc
  obtain ⟨ps, hl⟩ := ht.listed s
  obtain ⟨l, r, rfl, hbefore, hafter⟩ := better_split s p hl.sorted
  have hpos := hl.lowerBoundPos hp hbefore hafter
  have hget : ((shadow i h).idx s)[l.length]? = r.head?.map (h.levelIx s) := by
    show (i.idx s)[l.length]? = _
    rw [hl.eq, List.getElem?_map, List.getElem?_append_right le_rfl, Nat.sub_self,
      List.head?_eq_getElem?]
  rw [ht.same]
  by_cases hhead : r.head? = some p
  · -- the search lands on the level of `p`
    have hx : 0 ≤ h.levelIx s p :=
      (hl.mem p).mp (List.mem_append_right _ (List.mem_of_head? hhead))
    obtain ⟨level, hsub, hprice⟩ := hp s p hx
    have hfound : (shadow i h).existingAt s l.length p = some (some (h.levelIx s p)) := by
      have hsub' : subscript (shadow i h).levels (h.levelIx s p) = some level := hsub
      rw [existingAt, hget, hhead]
      simp only [Option.map_some, hsub', if_pos hprice]
    rw [hc.grid.find_existing hx]
    simp only [findOrCreateLevel, hpos, hfound, Option.bind_eq_bind, Option.bind_some]
    exact Option.Rel.some ⟨ht.same ▸ ht, rfl⟩
  · obtain ⟨hnew, hsorted⟩ := absent_of_split (R := fun p q => better s p q = true)
      HybridBook.better_total HybridBook.better_irrefl (fun _ _ _ => HybridBook.better_trans)
      hl.sorted hbefore hafter hhead
    have hx : h.levelIx s p < 0 := by
      rw [← not_le, ← hl.mem p]
      exact hnew
    have hnone : (shadow i h).existingAt s l.length p = some none := by
      rw [existingAt, hget]
      cases hr : r.head? with
      | none => rfl
      | some q =>
        have hq : q ∈ l ++ r := List.mem_append_right _ (List.mem_of_head? hr)
        obtain ⟨level, hsub, hprice⟩ := hp s q ((hl.mem q).mp hq)
        have hsub' : subscript (shadow i h).levels (h.levelIx s q) = some level := hsub
        have hne : ¬level.price = p := by
          rw [hprice]
          intro he
          exact hnew (he ▸ hq)
        simp only [Option.map_some, hsub', if_neg hne]
    have hfl : (shadow i h).freeLevels = h.freeLevels := rfl
    have hlv : (shadow i h).levels = h.levels := rfl
    cases hf : h.freeLevels with
    | nil =>
      rw [hc.grid.find_full hx hf]
      simp only [findOrCreateLevel, hpos, hnone, hfl, hf, Option.bind_eq_bind, Option.bind_some]
      exact Option.Rel.some ⟨ht.same ▸ ht, rfl⟩
    | cons li free =>
      cases hm : modifyAt h.levels li (fun _ => ({ price := p } : Level)) with
      | none =>
        rw [hc.grid.find_fails hx hf hm]
        simp only [findOrCreateLevel, hpos, hnone, hfl, hf, hlv, hm, Option.bind_eq_bind,
          Option.bind_some, Option.bind_none]
        exact Option.Rel.none
      | some levels =>
        obtain ⟨n, rfl⟩ := Int.eq_ofNat_of_zero_le (modifyAt_some hm).1
        obtain ⟨h', hrun, hg', hlv', hfr', hso, hix, -⟩ :=
          hc.grid.find_new hx hf hm (modifyAt_length hm)
        rw [hrun]
        simp only [findOrCreateLevel, hpos, hnone, hfl, hf, hlv, hm, Option.bind_eq_bind,
          Option.bind_some]
        have hlen : l.length ≤ (i.idx s).length := by
          rw [hl.eq, List.length_map, List.length_append]
          omega
        refine Option.Rel.some ⟨ht.relist (s := s) ?_ rfl ⟨_, hl.insert hix hnew hsorted⟩ hix
          hso.levels ?_, rfl⟩
        · simp only [shadow, hlv', hfr', hso.orders, hso.freeOrders, hso.ids, hso.rejected]
        · show h'.freeLevels.length + ((i.idx s).insertIdx l.length (n : ℤ)).length = _
          rw [List.length_insertIdx_of_le_length hlen, hfr', hf, List.length_cons]
          omega

/-- The search lands on the level, so it goes. -/
theorem Twin.drop (ht : Twin h i) (hg : GridOk h) (hp : Priced h) (hx : h.levelIx s p = li)
    (hpos : 0 ≤ li) : Option.Rel Twin (h.dropLevel s li) (i.dropLevel s li) := by
  obtain ⟨ps, hl⟩ := ht.listed s
  obtain ⟨l, r, rfl, hbefore, hafter⟩ := better_split s p hl.sorted
  have hat := hl.lowerBoundPos hp hbefore hafter
  have hmem : p ∈ l ++ r := (hl.mem p).mpr (by omega)
  have hhead : r.head? = some p := by
    by_contra hne
    exact (absent_of_split (R := fun p q => better s p q = true) HybridBook.better_total
      HybridBook.better_irrefl (fun _ _ _ => HybridBook.better_trans) hl.sorted hbefore hafter
      hne).1 hmem
  cases r with
  | nil => cases hhead
  | cons q r =>
    obtain rfl := Option.some.inj hhead
    obtain ⟨level, hsub, hprice⟩ := hp s q (by omega)
    rw [hx] at hsub
    obtain ⟨h', hrun, hg', hlv', hfr', hso, hix, -⟩ := hg.drop (s := s) hsub
    rw [hprice] at hix
    have hsub' : subscript (shadow i h).levels li = some level := hsub
    have hget : ((shadow i h).idx s)[l.length]? = some li := by
      show (i.idx s)[l.length]? = _
      rw [hl.eq, List.getElem?_map, List.getElem?_append_right le_rfl, Nat.sub_self]
      show some (h.levelIx s q) = _
      rw [hx]
    have hlen : l.length < (i.idx s).length := by
      rw [hl.eq, List.length_map, List.length_append, List.length_cons]
      omega
    rw [ht.same, hrun]
    simp only [dropLevel, hsub', hprice, hat, hget, if_true, Option.bind_eq_bind, Option.bind_some]
    refine Option.Rel.some (ht.relist (s := s) ?_ rfl ⟨_, hl.erase hix⟩ hix hso.levels ?_)
    · simp only [shadow, hlv', hfr', hso.orders, hso.freeOrders, hso.ids, hso.rejected]
    · show h'.freeLevels.length + ((i.idx s).eraseIdx l.length).length = _
      rw [List.length_eraseIdx_of_lt hlen, hfr', List.length_cons]
      omega

/-! ### Orders -/

/-- What leaves the level index alone keeps the two twins. -/
theorem Twin.keep (ht : Twin h i) (hi : SameIndex h h')
    (hlen : h'.levels.length = h.levels.length) (hfree : h'.freeLevels = h.freeLevels) :
    Twin h' (shadow i h') := by
  refine ⟨rfl, fun s => ?_, ?_⟩
  · obtain ⟨ps, hl⟩ := ht.listed s
    exact ⟨ps, hl.congr hi.levelIx_eq⟩
  · rw [hlen, hfree]
    exact ht.count

theorem enqueue_shadow (i : IntrusiveBook) (h : HybridBook) (oi li : ℤ) (ref : OrderId) (s : Side)
    (qty : Qty) : (shadow i h).enqueue oi li ref s qty =
      (h.enqueue oi li ref s qty).map (shadow i) := by
  have ho : (shadow i h).orders = h.orders.map strip := rfl
  have hl : (shadow i h).levels = h.levels := rfl
  have ht : (shadow i h).ids = h.ids := rfl
  simp only [IntrusiveBook.enqueue, HybridBook.enqueue, ho, hl, ht, Option.bind_eq_bind,
    Option.map_bind, Function.comp_def]
  apply bind_ext
  intro level
  rw [modifyAt_map (f := strip) (g := fun _ =>
    { id := ref, qty := qty, level := li, side := s, seq := h.nextSeq, prev := level.tail,
      next := -1 }) fun _ => rfl, Option.bind_map]
  apply bind_ext
  intro o1
  dsimp only [Function.comp_def]
  rw [modifyLink_map (f := strip) (g := fun o => { o with next := oi }) fun _ => rfl,
    Option.bind_map]
  apply bind_ext
  intro o2
  apply bind_ext
  intro levels
  apply bind_ext
  intro x
  rfl

/-- The links of an order are undone; the order and its level say what follows. -/
def detach (h : HybridBook) (oi : ℤ) : Option (HybridBook × HybridBook.Order × Level) := do
  let o ← subscript h.orders oi
  let level ← subscript h.levels o.level
  let orders ← modifyLink h.orders o.prev fun p => { p with next := o.next }
  let orders ← modifyLink orders o.next fun n => { n with prev := o.prev }
  let orders ← modifyAt orders oi fun o => { o with prev := -1, next := -1, level := -1 }
  let level := { level with
    head := if 0 ≤ o.prev then level.head else o.next
    tail := if 0 ≤ o.next then level.tail else o.prev
    qty := level.qty - o.qty
    orders := level.orders - 1 }
  let levels ← modifyAt h.levels o.level fun _ => level
  return ({ h with orders := orders, levels := levels }, o, level)

theorem unlink_detach (h : HybridBook) (oi : ℤ) : h.unlink oi = (detach h oi).bind fun x =>
    if x.2.2.orders = 0 then x.1.dropLevel x.2.1.side x.2.1.level else some x.1 := by
  simp only [HybridBook.unlink, detach, Option.bind_eq_bind, Option.bind_assoc, Option.pure_def,
    Option.bind_some]

theorem unlink_shadow (i : IntrusiveBook) (h : HybridBook) (oi : ℤ) :
    (shadow i h).unlink oi = (detach h oi).bind fun x =>
      if x.2.2.orders = 0 then (shadow i x.1).dropLevel x.2.1.side x.2.1.level
      else some (shadow i x.1) := by
  have ho : (shadow i h).orders = h.orders.map strip := rfl
  have hl : (shadow i h).levels = h.levels := rfl
  simp only [IntrusiveBook.unlink, detach, ho, hl, subscript_map, Option.bind_eq_bind,
    Option.bind_map, Option.bind_assoc, Function.comp_def]
  apply bind_ext
  intro o
  apply bind_ext
  intro level
  rw [modifyLink_map (f := strip) (g := fun p => { p with next := o.next }) fun _ => rfl,
    Option.bind_map]
  apply bind_ext
  intro o1
  dsimp only [Function.comp_def]
  rw [modifyLink_map (f := strip) (g := fun n => { n with prev := o.prev }) fun _ => rfl,
    Option.bind_map]
  apply bind_ext
  intro o2
  dsimp only [Function.comp_def]
  rw [modifyAt_map (f := strip) (g := fun o => { o with prev := -1, next := -1, level := -1 })
    fun _ => rfl, Option.bind_map]
  apply bind_ext
  intro o3
  apply bind_ext
  intro levels
  rfl

theorem detach_fields {oi : ℤ} {o : HybridBook.Order} {level : Level}
    (hd : detach h oi = some (h', o, level)) :
    subscript h.orders oi = some o ∧ SameIndex h h' ∧ h'.freeLevels = h.freeLevels ∧
      h'.levels.length = h.levels.length ∧ ∀ k lv, subscript h.levels k = some lv →
        ∃ lv', subscript h'.levels k = some lv' ∧ lv'.price = lv.price := by
  simp only [detach, Option.bind_eq_bind, Option.bind_eq_some_iff] at hd
  obtain ⟨o', ho, lv0, hlv0, o1, -, o2, -, o3, -, levels, hm, hd⟩ := hd
  obtain ⟨rfl, rfl, rfl⟩ : _ ∧ _ ∧ _ := by simpa using hd
  refine ⟨ho, ⟨rfl, rfl, rfl, rfl⟩, rfl, modifyAt_length hm, fun k lv hk => ?_⟩
  show ∃ lv', subscript levels k = some lv' ∧ lv'.price = lv.price
  rw [subscript_modifyAt hm]
  by_cases hko : k = o'.level
  · rw [hko, hlv0] at hk
    obtain rfl := Option.some.inj hk
    rw [if_pos hko, hlv0]
    exact ⟨_, rfl, rfl⟩
  · rw [if_neg hko]
    exact ⟨lv, hk, rfl⟩

theorem Twin.unlink (ht : Twin h i) (hr : Rep h Q) {m : ℕ} (hm : m ∈ Q s p) :
    Option.Rel Twin (h.unlink m) (i.unlink m) := by
  obtain ⟨hpool, -, hlevel, hside, -⟩ := hr.order s p m hm
  have hp := Core.priced hr.toCore
  rw [ht.same, unlink_detach, unlink_shadow]
  cases hd : detach h m with
  | none => exact Option.Rel.none
  | some x =>
    obtain ⟨h1, o, level⟩ := x
    obtain ⟨ho, hi, hfree, hlen, hprices⟩ := detach_fields hd
    have hom : o = h.ord m := Option.some.inj (ho.symm.trans (subscript_cast hpool _))
    have ht1 := ht.keep hi hlen hfree
    dsimp only [Option.bind_some]
    split
    · rw [hom, hside, hlevel, ← hi.levelIx_eq]
      have hp1 : Priced h1 := by
        intro s' p' hx
        rw [hi.levelIx_eq] at hx ⊢
        obtain ⟨lv, hlv, hprice⟩ := hp s' p' hx
        obtain ⟨lv', hlv', hprice'⟩ := hprices _ _ hlv
        exact ⟨lv', hlv', hprice'.trans hprice⟩
      have hx : 0 ≤ h1.levelIx s p := by
        rw [hi.levelIx_eq]
        exact hr.absent_of hm
      exact ht1.drop (hi.gridOk hr.grid) hp1 rfl hx
    · exact Option.Rel.some ht1

/-- The same change of the fields that neither index has. -/
theorem Twin.shadow_eq {i' : IntrusiveBook} (ht : Twin h i) (hi : SameIndex h h')
    (hlen : h'.levels.length = h.levels.length) (hfree : h'.freeLevels = h.freeLevels)
    (hs : i' = shadow (shadow i h) h') : Twin h' i' := by
  rw [hs, ← ht.same]
  exact ht.keep hi hlen hfree

theorem Twin.retire (ht : Twin h i) (hr : Rep h Q) {m : ℕ} (hm : m ∈ Q s p) (ref : OrderId) :
    Option.Rel Twin (h.retire ref m) (i.retire ref m) := by
  apply rel_bind (ht.unlink hr hm)
  intro h1 i1 ht1
  rw [ht1.same]
  show Option.Rel Twin ((h1.ids.erase OpenHashMap.hash ref).bind _)
    ((h1.ids.erase OpenHashMap.hash ref).bind _)
  cases h1.ids.erase OpenHashMap.hash ref with
  | none => exact Option.Rel.none
  | some x => exact Option.Rel.some (ht1.shadow_eq ⟨rfl, rfl, rfl, rfl⟩ rfl rfl rfl)

theorem enqueue_keeps (he : h.enqueue oi li ref s qty = some h') :
    SameIndex h h' ∧ h'.levels.length = h.levels.length ∧ h'.freeLevels = h.freeLevels := by
  simp only [HybridBook.enqueue, Option.bind_eq_bind, Option.bind_eq_some_iff] at he
  obtain ⟨level, -, o1, -, o2, -, levels, hl, ⟨ids, ok⟩, -, he⟩ := he
  obtain rfl := Option.some.inj he
  exact ⟨⟨rfl, rfl, rfl, rfl⟩, modifyAt_length hl, rfl⟩

theorem Twin.add (ht : Twin h i) (hc : Core h Q) (ref : OrderId) (s : Side) (p : Price)
    (qty : Qty) : Option.Rel Twin (h.add ref s p qty) (i.add ref s p qty) := by
  by_cases hq : qty = 0
  · rw [HybridBook.add, IntrusiveBook.add, if_pos hq, if_pos hq]
    exact Option.Rel.some ht
  · rw [HybridBook.add, IntrusiveBook.add, if_neg hq, if_neg hq, ht.freeOrders_eq]
    cases h.freeOrders with
    | nil =>
      rw [ht.same]
      exact Option.Rel.some (ht.shadow_eq ⟨rfl, rfl, rfl, rfl⟩ rfl rfl rfl)
    | cons oi free =>
      apply rel_bind (ht.findOrCreate hc s p)
      intro x y hxy
      obtain ⟨h1, li⟩ := x
      obtain ⟨i1, li'⟩ := y
      obtain ⟨ht1, heq⟩ := hxy
      dsimp only at ht1 heq ⊢
      subst heq
      split
      · rw [ht1.same]
        exact Option.Rel.some (ht1.shadow_eq ⟨rfl, rfl, rfl, rfl⟩ rfl rfl rfl)
      · have hi1 : { i1 with freeOrders := free } = shadow i1 { h1 with freeOrders := free } := by
          conv_lhs => rw [ht1.same]
          rfl
        rw [hi1, enqueue_shadow]
        cases he : HybridBook.enqueue { h1 with freeOrders := free } oi li ref s qty with
        | none => exact Option.Rel.none
        | some h2 =>
          obtain ⟨hi, hlen, hfl⟩ := enqueue_keeps he
          exact Option.Rel.some (ht1.keep ⟨hi.lo, hi.ticks, hi.grid, hi.over_⟩ hlen hfl)

end Hotpath.Book.IntrusiveBook
