import Hotpath.Support.Linked
import Hotpath.Core.OpenHashSpec
import Hotpath.Book.TickScan
import Hotpath.Book.HybridWindow

/-!
# What a hybrid book holds

`Queues` gives for each side and price the order slots resting there, oldest
first. `Rep b Q` says that `b` is a well-formed book holding exactly `Q`: the
grid, its bitmap and the overflow map index the levels, each level is the
intrusive list of its queue with the queue's totals, and the free lists hold
what no queue uses. `Core` leaves room for a level between its creation and its
first order, and for one between its last order and its end.

A slot stays queued when its reference is used again or the id table turns it
away, so the ids name some of the queued slots, not all of them.
-/

namespace Hotpath.Book.HybridBook
open Hotpath.Support

abbrev Queues := Side → Price → List ℕ

def set2 {α : Type} (f : Side → Price → α) (s : Side) (p : Price) (v : α) : Side → Price → α :=
  fun s' p' => if s' = s ∧ p' = p then v else f s' p'

section Update
variable {α : Type} {f : Side → Price → α} {s s' : Side} {p p' : Price} {v w : α}

theorem set2_same : set2 f s p v s p = v := if_pos ⟨rfl, rfl⟩

theorem set2_other (h : ¬(s' = s ∧ p' = p)) : set2 f s p v s' p' = f s' p' := if_neg h

theorem set2_set2 : set2 (set2 f s p v) s p w = set2 f s p w := by
  funext s' p'
  unfold set2
  split <;> rfl

theorem set2_self : set2 f s p (f s p) = f := by
  funext s' p'
  unfold set2
  split
  · rename_i h
    rw [h.1, h.2]
  · rfl

end Update

def ord (b : HybridBook) (n : ℕ) : Order := b.orders.getD n {}
def lev (b : HybridBook) (n : ℕ) : Level := b.levels.getD n {}

/-- `lookup_level` as a function; it agrees with the model's on a book whose
grid has a slot for each tick. -/
def levelIx (b : HybridBook) (s : Side) (p : Price) : ℤ :=
  if b.inGrid p then (b.grid s).slot.getD (b.tickOf p) (-1) else (b.over_ s)[p]?.getD (-1)

def total (b : HybridBook) (q : List ℕ) : ℕ := (q.map fun o => (b.ord o).qty.toNat).sum

structure GridOk (b : HybridBook) : Prop where
  window : Window b
  slots : ∀ s, (b.grid s).slot.length = b.ticks
  words : ∀ s, (b.grid s).bits.length = (b.ticks + 63) / 64
  bits : ∀ s t, bitAt (b.grid s).bits t = true ↔ 0 ≤ (b.grid s).slot.getD t (-1)
  hint : ∀ s, (b.grid s).hint = -1 ∨
    ∃ t : ℕ, (b.grid s).hint = t ∧ t < b.ticks ∧ 0 ≤ (b.grid s).slot.getD t (-1)
  outside : ∀ s p li, (b.over_ s)[p]? = some li → b.inGrid p = false ∧ 0 ≤ li

structure LevelOk (b : HybridBook) (n : ℕ) (p : Price) (q : List ℕ) : Prop where
  price : (b.lev n).price = p
  qty : (b.lev n).qty = UInt32.ofNat (b.total q)
  orders : (b.lev n).orders = UInt32.ofNat q.length
  chain : Chain (fun o => (b.ord o).next) (fun o => (b.ord o).prev) (b.lev n).head (b.lev n).tail q

structure OrderOk (b : HybridBook) (s : Side) (p : Price) (o : ℕ) : Prop where
  inPool : o < b.orders.length
  small : o < 2 ^ 31
  level : (b.ord o).level = b.levelIx s p
  side : (b.ord o).side = s
  qty : (b.ord o).qty ≠ 0

/-- A free list: the unused indices, then for a pool past `2^31` the casts that
went negative, which no subscript accepts. -/
def FreeOk (l : List ℤ) (len : ℕ) (P : ℕ → Prop) : Prop :=
  ∃ (good : List ℕ) (bad : List ℤ), l = good.map Nat.cast ++ bad ∧ good.Nodup ∧
    (∀ n, n ∈ good ↔ n < len ∧ n < 2 ^ 31 ∧ P n) ∧ (∀ x, bad.head? = some x → x < 0) ∧
    (len ≤ 2 ^ 31 → bad = [])

structure Core (b : HybridBook) (Q : Queues) : Prop where
  grid : GridOk b
  level : ∀ s p, 0 ≤ b.levelIx s p →
    ∃ n : ℕ, b.levelIx s p = n ∧ n < b.levels.length ∧ n < 2 ^ 31 ∧ LevelOk b n p (Q s p)
  absent : ∀ s p, b.levelIx s p < 0 → Q s p = []
  inj : ∀ s p s' p', 0 ≤ b.levelIx s p → b.levelIx s p = b.levelIx s' p' → s' = s ∧ p' = p
  order : ∀ s p, ∀ o ∈ Q s p, OrderOk b s p o
  freeLevels : FreeOk b.freeLevels b.levels.length fun n => ∀ s p, b.levelIx s p ≠ n

structure Rep (b : HybridBook) (Q : Queues) : Prop extends Core b Q where
  live : ∀ s p, 0 ≤ b.levelIx s p → Q s p ≠ []
  freeOrders : FreeOk b.freeOrders b.orders.length fun n => ∀ s p, n ∉ Q s p
  table : b.ids.WF OpenHashMap.hash
  named : ∀ ref ≠ OpenHashMap.kEmpty, ∀ i, OpenHashMap.lookup b.ids ref = some i →
    ∃ (n : ℕ) (s : Side) (p : Price), i = n ∧ n ∈ Q s p ∧ (b.ord n).id = ref

variable {b b' : HybridBook} {Q : Queues}

/-! ### Reading the invariant -/

theorem GridOk.lookupLevel_eq (hg : GridOk b) (s : Side) (p : Price) :
    b.lookupLevel s p = some (b.levelIx s p) := by
  unfold lookupLevel levelIx
  split
  · rename_i hin
    exact subscript_cast (by rw [hg.slots]; exact tickOf_lt hin) _
  · rfl

theorem GridOk.levelIx_priceOf (hg : GridOk b) {t : ℕ} (ht : t < b.ticks) (s : Side) :
    b.levelIx s (b.priceOf t) = (b.grid s).slot.getD t (-1) := by
  rw [levelIx, if_pos (hg.window.inGrid_priceOf ht), hg.window.tickOf_priceOf ht]

theorem GridOk.tick_lt (hg : GridOk b) {s : Side} {t : ℕ}
    (h : 0 ≤ (b.grid s).slot.getD t (-1)) : t < b.ticks := by
  by_contra hc
  rw [List.getD_eq_default _ _ (by rw [hg.slots]; omega)] at h
  omega

theorem GridOk.levelIx_over (hg : GridOk b) {s : Side} {p : Price} (h : b.inGrid p = false) :
    0 ≤ b.levelIx s p ↔ ∃ li, (b.over_ s)[p]? = some li := by
  rw [levelIx, h]
  cases ho : (b.over_ s)[p]? with
  | none => simp
  | some li =>
    have := (hg.outside s p li ho).2
    simpa using this

theorem Core.absent_of (hc : Core b Q) {s : Side} {p : Price} {o : ℕ} (ho : o ∈ Q s p) :
    0 ≤ b.levelIx s p := by
  by_contra hn
  rw [hc.absent s p (by omega)] at ho
  cases ho

/-- A slot rests in one queue only. -/
theorem Core.queue_unique (hc : Core b Q) {s s' : Side} {p p' : Price} {o : ℕ} (ho : o ∈ Q s p)
    (ho' : o ∈ Q s' p') : s' = s ∧ p' = p := by
  refine hc.inj s p s' p' (hc.absent_of ho) ?_
  rw [← (hc.order s p o ho).level, (hc.order s' p' o ho').level]

theorem Core.nodup (hc : Core b Q) (s : Side) (p : Price) : (Q s p).Nodup := by
  by_cases hx : 0 ≤ b.levelIx s p
  · obtain ⟨n, -, -, -, hl⟩ := hc.level s p hx
    exact hl.chain.nodup
  · rw [hc.absent s p (by omega)]
    exact List.nodup_nil

/-- Slots are below `2^31`, so a level's order count does not wrap. -/
theorem Core.length_lt (hc : Core b Q) (s : Side) (p : Price) : (Q s p).length < 2 ^ 32 := by
  have hsub : (Q s p).toFinset ⊆ Finset.range (2 ^ 31) := by
    intro o ho
    rw [List.mem_toFinset] at ho
    exact Finset.mem_range.mpr (hc.order s p o ho).small
  have hcard := Finset.card_le_card hsub
  rw [List.toFinset_card_of_nodup (hc.nodup s p), Finset.card_range] at hcard
  omega

/-! ### Changing one level -/

theorem ofNat_pred {n : ℕ} (h : n ≤ 2 ^ 32) (hpos : 0 < n) :
    UInt32.ofNat n - 1 = UInt32.ofNat (n - 1) ∧ (UInt32.ofNat n - 1 = 0 ↔ n = 1) := by
  have he : UInt32.ofNat n - 1 = UInt32.ofNat (n - 1) := by
    obtain ⟨k, rfl⟩ : ∃ k, n = k + 1 := ⟨n - 1, by omega⟩
    rw [UInt32.ofNat_add]
    exact UInt32.add_sub_cancel ..
  refine ⟨he, ?_⟩
  have hlt : n - 1 < UInt32.size := by
    show n - 1 < 2 ^ 32
    omega
  rw [he, ← UInt32.toNat_inj, UInt32.toNat_ofNat_of_lt' hlt]
  show n - 1 = 0 ↔ n = 1
  omega

theorem total_congr {q : List ℕ} (h : ∀ o ∈ q, b'.ord o = b.ord o) : b'.total q = b.total q := by
  unfold total
  congr 1
  exact List.map_congr_left fun o ho => by rw [h o ho]

theorem LevelOk.congr {n : ℕ} {p : Price} {q : List ℕ} (hl : LevelOk b n p q)
    (hord : ∀ o ∈ q, b'.ord o = b.ord o) (hlev : b'.lev n = b.lev n) : LevelOk b' n p q where
  price := by rw [hlev, hl.price]
  qty := by rw [hlev, hl.qty, total_congr hord]
  orders := by rw [hlev, hl.orders]
  chain := by
    rw [hlev]
    exact hl.chain.congr fun o ho => by simp only [hord o ho, and_self]

/-- The parts of a book that say where its levels are. -/
structure SameIndex (b b' : HybridBook) : Prop where
  lo : b'.lo = b.lo
  ticks : b'.ticks = b.ticks
  grid : b'.grid = b.grid
  over_ : b'.over_ = b.over_

theorem SameIndex.inGrid_eq (h : SameIndex b b') (p : Price) : b'.inGrid p = b.inGrid p := by
  simp only [inGrid, h.lo, h.ticks]

theorem SameIndex.levelIx_eq (h : SameIndex b b') : b'.levelIx = b.levelIx := by
  funext s p
  simp only [levelIx, h.inGrid_eq, tickOf, h.lo, h.grid, h.over_]

theorem SameIndex.gridOk (h : SameIndex b b') (hg : GridOk b) : GridOk b' where
  window := by
    obtain ⟨ha, hp, ht⟩ := hg.window
    exact ⟨by rwa [h.lo], by rwa [h.ticks], by rwa [h.lo, h.ticks]⟩
  slots := by simpa only [h.grid, h.ticks] using hg.slots
  words := by simpa only [h.grid, h.ticks] using hg.words
  bits := by simpa only [h.grid] using hg.bits
  hint := by simpa only [h.grid, h.ticks] using hg.hint
  outside := by simpa only [h.over_, h.inGrid_eq] using hg.outside

/-- One queue changes together with its level; the others keep theirs. -/
theorem Core.relink (hc : Core b Q) {s : Side} {p : Price} {n : ℕ} {q : List ℕ}
    (hi : SameIndex b b') (hfree : b'.freeLevels = b.freeLevels)
    (horders : b'.orders.length = b.orders.length) (hlevels : b'.levels.length = b.levels.length)
    (hn : b.levelIx s p = n) (hlev : ∀ m, m ≠ n → b'.lev m = b.lev m) (hl : LevelOk b' n p q)
    (hord : ∀ o, o ∉ Q s p → o ∉ q → b'.ord o = b.ord o)
    (hfresh : ∀ o ∈ q, o ∈ Q s p ∨ ∀ s' p', o ∉ Q s' p')
    (hq : ∀ o ∈ q, OrderOk b' s p o) : Core b' (set2 Q s p q) := by
  have hix := hi.levelIx_eq
  have hkeep : ∀ s' p', ¬(s' = s ∧ p' = p) → ∀ o ∈ Q s' p', b'.ord o = b.ord o := by
    intro s' p' hne o ho
    refine hord o (fun hm => hne (hc.queue_unique hm ho)) fun hm => ?_
    rcases hfresh o hm with h | h
    · exact hne (hc.queue_unique h ho)
    · exact h s' p' ho
  refine ⟨hi.gridOk hc.grid, fun s' p' hx => ?_, fun s' p' hx => ?_, ?_, fun s' p' o ho => ?_, ?_⟩
  · rw [hix] at hx ⊢
    obtain ⟨m, hxm, hm, hsmall, hlm⟩ := hc.level s' p' hx
    refine ⟨m, hxm, by rwa [hlevels], hsmall, ?_⟩
    by_cases hsp : s' = s ∧ p' = p
    · obtain ⟨rfl, rfl⟩ := hsp
      have hmn : m = n := by
        rw [hn] at hxm
        exact_mod_cast hxm.symm
      rwa [set2_same, hmn]
    · rw [set2_other hsp]
      refine hlm.congr (hkeep s' p' hsp) (hlev m fun hmn => hsp ?_)
      refine hc.inj s p s' p' (by omega) ?_
      rw [hn, hxm, hmn]
  · rw [hix] at hx
    by_cases hsp : s' = s ∧ p' = p
    · obtain ⟨rfl, rfl⟩ := hsp
      omega
    · rw [set2_other hsp, hc.absent s' p' hx]
  · rw [hix]
    exact hc.inj
  · by_cases hsp : s' = s ∧ p' = p
    · obtain ⟨rfl, rfl⟩ := hsp
      exact hq o (by rwa [set2_same] at ho)
    · rw [set2_other hsp] at ho
      have ho' := hkeep s' p' hsp o ho
      obtain ⟨h1, h2, h3, h4, h5⟩ := hc.order s' p' o ho
      exact ⟨by rwa [horders], h2, by rw [ho', hix, h3], by rw [ho', h4], by rwa [ho']⟩
  · rw [hfree, hlevels, hix]
    exact hc.freeLevels

/-- An empty queue gains or loses its level: `v` is the new index, or `-1`. -/
theorem Core.reindex (hc : Core b Q) {s : Side} {p : Price} {v : ℤ} (hQ : Q s p = [])
    (hg : GridOk b') (horders : b'.orders = b.orders) (hlevels : b'.levels.length = b.levels.length)
    (hix : b'.levelIx = set2 b.levelIx s p v)
    (hv : v = -1 ∨ ∃ n : ℕ, v = n ∧ n < b.levels.length ∧ n < 2 ^ 31 ∧ LevelOk b' n p [] ∧
      ∀ s' p', b.levelIx s' p' ≠ n)
    (hlev : ∀ m : ℕ, (m : ℤ) ≠ v → b'.lev m = b.lev m)
    (hfree : FreeOk b'.freeLevels b.levels.length fun n => ∀ s' p', b'.levelIx s' p' ≠ n) :
    Core b' Q := by
  have hord : b'.ord = b.ord := by
    funext o
    rw [ord, horders, ord]
  have hfresh : ∀ s' p', 0 ≤ b.levelIx s' p' → b.levelIx s' p' ≠ v := by
    intro s' p' hx
    rcases hv with rfl | ⟨n, rfl, -, -, -, hn⟩
    · omega
    · exact hn s' p'
  refine ⟨hg, fun s' p' hx => ?_, fun s' p' hx => ?_, fun s1 p1 s2 p2 hx he => ?_,
    fun s' p' o ho => ?_, by rwa [hlevels]⟩
  · rw [hix] at hx ⊢
    by_cases hsp : s' = s ∧ p' = p
    · obtain ⟨rfl, rfl⟩ := hsp
      rw [set2_same] at hx ⊢
      rcases hv with rfl | ⟨n, rfl, h1, h2, hl, -⟩
      · omega
      · exact ⟨n, rfl, by rwa [hlevels], h2, by rwa [hQ]⟩
    · rw [set2_other hsp] at hx ⊢
      obtain ⟨m, hm, h1, h2, hl⟩ := hc.level s' p' hx
      refine ⟨m, hm, by rwa [hlevels], h2, hl.congr (fun o _ => by rw [hord]) (hlev m ?_)⟩
      rw [← hm]
      exact hfresh s' p' hx
  · by_cases hsp : s' = s ∧ p' = p
    · rw [hsp.1, hsp.2, hQ]
    · rw [hix, set2_other hsp] at hx
      exact hc.absent s' p' hx
  · rw [hix] at hx he
    by_cases h1 : s1 = s ∧ p1 = p <;> by_cases h2 : s2 = s ∧ p2 = p
    · exact ⟨h2.1.trans h1.1.symm, h2.2.trans h1.2.symm⟩
    · obtain ⟨rfl, rfl⟩ := h1
      rw [set2_same] at hx he
      rw [set2_other h2] at he
      exact absurd he.symm (hfresh s2 p2 (by omega))
    · obtain ⟨rfl, rfl⟩ := h2
      rw [set2_other h1] at hx he
      rw [set2_same] at he
      exact absurd he (hfresh s1 p1 hx)
    · rw [set2_other h1] at hx he
      rw [set2_other h2] at he
      exact hc.inj s1 p1 s2 p2 hx he
  · have hne : ¬(s' = s ∧ p' = p) := by
      rintro ⟨rfl, rfl⟩
      rw [hQ] at ho
      cases ho
    obtain ⟨h1, h2, h3, h4, h5⟩ := hc.order s' p' o ho
    refine ⟨by rwa [horders], h2, ?_, by rwa [hord], by rwa [hord]⟩
    rw [hord, hix, set2_other hne, h3]

/-! ### Free lists -/

section Free
variable {l : List ℤ} {len : ℕ} {P P' : ℕ → Prop}

theorem FreeOk.congr (h : FreeOk l len P) (hp : ∀ n, P n ↔ P' n) : FreeOk l len P' := by
  obtain ⟨good, bad, hl, hd, hg, hb, hbad⟩ := h
  exact ⟨good, bad, hl, hd, fun n => by rw [hg, hp], hb, hbad⟩

/-- Some unused index is on the list. -/
theorem FreeOk.ne_nil (h : FreeOk l len P) {n : ℕ} (h1 : n < len) (h2 : n < 2 ^ 31) (h3 : P n) :
    l ≠ [] := by
  obtain ⟨good, bad, hl, -, hg, -⟩ := h
  intro hnil
  rw [hnil] at hl
  have hgood : good = [] := by
    cases good with
    | nil => rfl
    | cons x xs => cases hl
  have hn := (hg n).mpr ⟨h1, h2, h3⟩
  rw [hgood] at hn
  cases hn

/-- The top is usable, and the rest stays usable once it is taken; or it is one
of the negative casts. -/
theorem FreeOk.pop {x : ℤ} (h : FreeOk (x :: l) len P) :
    (∃ n : ℕ, x = n ∧ n < len ∧ n < 2 ^ 31 ∧ P n ∧ FreeOk l len fun m => P m ∧ m ≠ n) ∨
      (x < 0 ∧ 2 ^ 31 < len) := by
  obtain ⟨good, bad, hl, hd, hg, hb, hbad⟩ := h
  cases good with
  | nil =>
    simp only [List.map_nil, List.nil_append] at hl
    refine Or.inr ⟨hb x (by rw [← hl]; rfl), ?_⟩
    by_contra hc
    rw [hbad (by omega)] at hl
    cases hl
  | cons n good =>
    simp only [List.map_cons, List.cons_append, List.cons.injEq] at hl
    obtain ⟨hx, hl⟩ := hl
    obtain ⟨h1, h2, h3⟩ := (hg n).mp (List.mem_cons_self ..)
    have hd' := List.nodup_cons.mp hd
    refine Or.inl ⟨n, hx, h1, h2, h3, good, bad, hl, hd'.2, fun m => ⟨fun hm => ?_, ?_⟩, hb, hbad⟩
    · obtain ⟨g1, g2, g3⟩ := (hg m).mp (List.mem_cons_of_mem _ hm)
      exact ⟨g1, g2, g3, fun he => hd'.1 (he ▸ hm)⟩
    · intro ⟨g1, g2, g3, hne⟩
      exact (List.mem_cons.mp ((hg m).mpr ⟨g1, g2, g3⟩)).resolve_left hne

theorem FreeOk.push {n : ℕ} (h : FreeOk l len fun m => P m ∧ m ≠ n) (h1 : n < len)
    (h2 : n < 2 ^ 31) (h3 : P n) : FreeOk ((n : ℤ) :: l) len P := by
  obtain ⟨good, bad, hl, hd, hg, hb, hbad⟩ := h
  refine ⟨n :: good, bad, by rw [hl]; rfl, List.nodup_cons.mpr ⟨fun hm => ?_, hd⟩,
    fun m => ⟨fun hm => ?_, fun hm => ?_⟩, hb, hbad⟩
  · exact ((hg n).mp hm).2.2.2 rfl
  · rcases List.mem_cons.mp hm with rfl | hm
    · exact ⟨h1, h2, h3⟩
    · obtain ⟨g1, g2, g3, -⟩ := (hg m).mp hm
      exact ⟨g1, g2, g3⟩
  · by_cases he : m = n
    · exact List.mem_cons.mpr (Or.inl he)
    · exact List.mem_cons_of_mem _ ((hg m).mpr ⟨hm.1, hm.2.1, hm.2.2, he⟩)

theorem FreeOk.fresh (hp : ∀ n < len, P n) : FreeOk ((List.range len).map int32) len P := by
  refine ⟨List.range (min len (2 ^ 31)), ((List.range len).drop (2 ^ 31)).map int32, ?_,
    List.nodup_range, fun n => ⟨fun hn => ?_, fun hn => ?_⟩, fun x hx => ?_, fun hlen => ?_⟩
  · have hgood : (List.range (min len (2 ^ 31))).map Nat.cast =
        ((List.range len).take (2 ^ 31)).map int32 := by
      rw [List.take_range, min_comm]
      refine List.map_congr_left fun n hn => ?_
      rw [List.mem_range] at hn
      exact (int32_of_lt (by omega)).symm
    rw [hgood, ← List.map_append, List.take_append_drop]
  · rw [List.mem_range] at hn
    exact ⟨by omega, by omega, hp n (by omega)⟩
  · rw [List.mem_range]
    omega
  · rw [List.head?_map, List.head?_drop] at hx
    obtain ⟨n, hn, rfl⟩ := Option.map_eq_some_iff.mp hx
    obtain ⟨hlt, hget⟩ := List.getElem?_eq_some_iff.mp hn
    rw [List.getElem_range] at hget
    exact int32_neg (by omega) (by omega)
  · rw [List.drop_eq_nil_of_le (by rw [List.length_range]; exact hlen), List.map_nil]

end Free

end Hotpath.Book.HybridBook
