import Hotpath.Book.Room

/-!
# Level churn in the intrusive book (book/intrusive_book.hpp)

The counters of the book beside its vectors: every level that was opened is dropped or
live, every level is live or free, and what an insertion or a removal shifts is less than
what is live.
-/

namespace Hotpath.Book.IntrusiveBook
open Hotpath.Support

def levelCount (b : IntrusiveBook) : ℕ := (b.idx .buy).length + (b.idx .sell).length

/-- What was opened and dropped between two states of a book: `c` and `d` levels. -/
structure Churned (b b' : IntrusiveBook) (c d : ℕ) : Prop where
  creates : b'.levelCreates = b.levelCreates + c
  destroys : b'.levelDestroys = b.levelDestroys + d
  live : b'.levelCount + d = b.levelCount + c
  pool : b'.freeLevels.length + b'.levelCount = b.freeLevels.length + b.levelCount
  shifted : b'.shifted ≤ b.shifted + (c + d) * b.levelCount

/-- The parts of a book that levels are opened and dropped in. -/
structure Quiet (b b' : IntrusiveBook) : Prop where
  idx : b'.idx = b.idx
  freeLevels : b'.freeLevels = b.freeLevels
  creates : b'.levelCreates = b.levelCreates
  destroys : b'.levelDestroys = b.levelDestroys
  shifted : b'.shifted = b.shifted

variable {b b₁ b₂ b' : IntrusiveBook} {s : Side} {p : Price} {li oi : ℤ} {ref : OrderId} {qty : Qty}
  {c d c' d' : ℕ}

/-- A book that was just made. -/
theorem make_levels {maxOrders maxLevels : ℕ} (h : make maxOrders maxLevels = some b) :
    b.levelCount = 0 ∧ b.freeLevels.length = maxLevels ∧ b.levelCreates = 0 ∧
      b.levelDestroys = 0 ∧ b.shifted = 0 := by
  obtain ⟨ids, -, h⟩ := Option.bind_eq_some_iff.mp h
  obtain rfl := Option.some.inj h
  refine ⟨rfl, ?_, rfl, rfl, rfl⟩
  rw [List.length_map, List.length_range]

theorem Quiet.levelCount (h : Quiet b b') : b'.levelCount = b.levelCount := by
  rw [IntrusiveBook.levelCount, h.idx]
  rfl

theorem Quiet.churned (h : Quiet b b') : Churned b b' 0 0 where
  creates := h.creates
  destroys := h.destroys
  live := h.levelCount
  pool := by rw [h.levelCount, h.freeLevels]
  shifted := h.shifted.le.trans (Nat.le_add_right ..)

/-- One after the other, where the first leaves no more levels than it finds. -/
theorem Churned.trans (h : Churned b b₁ c d) (h' : Churned b₁ b₂ c' d')
    (hle : b₁.levelCount ≤ b.levelCount) : Churned b b₂ (c + c') (d + d') := by
  have hlive := h.live
  have hlive' := h'.live
  constructor
  case creates => rw [h'.creates, h.creates, Nat.add_assoc]
  case destroys => rw [h'.destroys, h.destroys, Nat.add_assoc]
  case live => omega
  case pool => exact h'.pool.trans h.pool
  case shifted =>
    calc b₂.shifted
      _ ≤ b₁.shifted + (c' + d') * b₁.levelCount := h'.shifted
      _ ≤ b.shifted + (c + d) * b.levelCount + (c' + d') * b.levelCount :=
        Nat.add_le_add h.shifted (Nat.mul_le_mul_left _ hle)
      _ = b.shifted + (c + c' + (d + d')) * b.levelCount := by ring

theorem Churned.quiet (h : Churned b b₁ c d) (hq : Quiet b₁ b₂) : Churned b b₂ c d where
  creates := hq.creates.trans h.creates
  destroys := hq.destroys.trans h.destroys
  live := by rw [hq.levelCount, h.live]
  pool := by rw [hq.levelCount, hq.freeLevels, h.pool]
  shifted := hq.shifted.le.trans h.shifted

theorem Quiet.then (hq : Quiet b b₁) (h : Churned b₁ b₂ c d) : Churned b b₂ c d := by
  have htrans := hq.churned.trans h hq.levelCount.le
  rwa [Nat.zero_add, Nat.zero_add] at htrans

/-! ### The two places where levels change -/

/-- The vector of one side is exchanged for another. -/
theorem count_update (f : Side → List ℤ) (s : Side) (v : List ℤ) :
    (Function.update f s v .buy).length + (Function.update f s v .sell).length + (f s).length =
      (f .buy).length + (f .sell).length + v.length := by
  cases s with
  | buy =>
    rw [Function.update_self, Function.update_of_ne (by decide)]
    omega
  | sell =>
    rw [Function.update_self, Function.update_of_ne (by decide)]
    omega

theorem side_le (b : IntrusiveBook) (s : Side) : (b.idx s).length ≤ b.levelCount := by
  cases s with
  | buy => exact Nat.le_add_right ..
  | sell => exact Nat.le_add_left ..

theorem findOrCreateLevel_churned (h : b.findOrCreateLevel s p = some (b', li)) :
    ∃ c, Churned b b' c 0 := by
  obtain ⟨pos, hpos, h⟩ := Option.bind_eq_some_iff.mp h
  obtain ⟨found, -, h⟩ := Option.bind_eq_some_iff.mp h
  have hle := (lowerBound_mem (Nat.zero_le _) hpos).2
  have hkeep : Churned b b 0 0 := Quiet.churned ⟨rfl, rfl, rfl, rfl, rfl⟩
  cases found with
  | some li' =>
    obtain ⟨rfl, -⟩ := Prod.mk.inj (Option.some.inj h)
    exact ⟨0, hkeep⟩
  | none =>
    cases hfree : b.freeLevels with
    | nil =>
      simp only [hfree] at h
      obtain ⟨rfl, -⟩ := Prod.mk.inj (Option.some.inj h)
      exact ⟨0, hkeep⟩
    | cons x free =>
      simp only [hfree] at h
      obtain ⟨levels, -, h⟩ := Option.bind_eq_some_iff.mp h
      obtain ⟨rfl, -⟩ := Prod.mk.inj (Option.some.inj h)
      have hcount := count_update b.idx s ((b.idx s).insertIdx pos x)
      have hlen : ((b.idx s).insertIdx pos x).length = (b.idx s).length + 1 :=
        List.length_insertIdx_of_le_length hle x
      have hside := side_le b s
      refine ⟨1, rfl, rfl, ?_, ?_, ?_⟩
      · show (Function.update b.idx s _ .buy).length + (Function.update b.idx s _ .sell).length = _
        rw [levelCount]
        omega
      · show free.length + ((Function.update b.idx s _ .buy).length +
          (Function.update b.idx s _ .sell).length) = _
        rw [hfree, List.length_cons, levelCount]
        omega
      · show b.shifted + ((b.idx s).length - pos) ≤ _
        omega

theorem dropLevel_churned (h : b.dropLevel s li = some b') : ∃ d, Churned b b' 0 d := by
  obtain ⟨level, -, h⟩ := Option.bind_eq_some_iff.mp h
  obtain ⟨pos, -, h⟩ := Option.bind_eq_some_iff.mp h
  split at h
  · rename_i hat
    obtain rfl := Option.some.inj h
    obtain ⟨hlt, -⟩ := List.getElem?_eq_some_iff.mp hat
    have hcount := count_update b.idx s ((b.idx s).eraseIdx pos)
    have hlen : ((b.idx s).eraseIdx pos).length = (b.idx s).length - 1 :=
      List.length_eraseIdx_of_lt hlt
    have hside := side_le b s
    refine ⟨1, rfl, rfl, ?_, ?_, ?_⟩
    · show (Function.update b.idx s _ .buy).length + (Function.update b.idx s _ .sell).length + 1 = _
      rw [levelCount]
      omega
    · show (li :: b.freeLevels).length + ((Function.update b.idx s _ .buy).length +
        (Function.update b.idx s _ .sell).length) = _
      rw [List.length_cons, levelCount]
      omega
    · show b.shifted + ((b.idx s).length - pos - 1) ≤ _
      omega
  · obtain rfl := Option.some.inj h
    exact ⟨0, Quiet.churned ⟨rfl, rfl, rfl, rfl, rfl⟩⟩

/-! ### Every operation -/

theorem enqueue_quiet (h : b.enqueue oi li ref s qty = some b') : Quiet b b' := by
  obtain ⟨level, -, h⟩ := Option.bind_eq_some_iff.mp h
  obtain ⟨orders, -, h⟩ := Option.bind_eq_some_iff.mp h
  obtain ⟨orders, -, h⟩ := Option.bind_eq_some_iff.mp h
  obtain ⟨levels, -, h⟩ := Option.bind_eq_some_iff.mp h
  obtain ⟨ids, -, h⟩ := Option.bind_eq_some_iff.mp h
  obtain rfl := Option.some.inj h
  exact ⟨rfl, rfl, rfl, rfl, rfl⟩

theorem add_churned (h : b.add ref s p qty = some b') : ∃ c, Churned b b' c 0 := by
  rw [add] at h
  split at h
  · obtain rfl := Option.some.inj h
    exact ⟨0, Quiet.churned ⟨rfl, rfl, rfl, rfl, rfl⟩⟩
  · cases hfree : b.freeOrders with
    | nil =>
      simp only [hfree] at h
      obtain rfl := Option.some.inj h
      exact ⟨0, Quiet.churned ⟨rfl, rfl, rfl, rfl, rfl⟩⟩
    | cons oi free =>
      simp only [hfree] at h
      obtain ⟨⟨b₁, li⟩, hfind, h⟩ := Option.bind_eq_some_iff.mp h
      obtain ⟨c, hc⟩ := findOrCreateLevel_churned hfind
      dsimp only at h
      split at h
      · obtain rfl := Option.some.inj h
        exact ⟨c, hc.quiet ⟨rfl, rfl, rfl, rfl, rfl⟩⟩
      · have hfreed : Quiet b₁ { b₁ with freeOrders := free } := ⟨rfl, rfl, rfl, rfl, rfl⟩
        exact ⟨c, (hc.quiet hfreed).quiet (enqueue_quiet h)⟩

theorem unlink_churned (h : b.unlink oi = some b') : ∃ d, Churned b b' 0 d := by
  obtain ⟨o, -, h⟩ := Option.bind_eq_some_iff.mp h
  obtain ⟨level, -, h⟩ := Option.bind_eq_some_iff.mp h
  obtain ⟨orders, -, h⟩ := Option.bind_eq_some_iff.mp h
  obtain ⟨orders, -, h⟩ := Option.bind_eq_some_iff.mp h
  obtain ⟨orders, -, h⟩ := Option.bind_eq_some_iff.mp h
  obtain ⟨levels, -, h⟩ := Option.bind_eq_some_iff.mp h
  have hrelinked : Quiet b { b with orders := orders, levels := levels } :=
    ⟨rfl, rfl, rfl, rfl, rfl⟩
  dsimp only at h
  split at h
  · obtain ⟨d, hd⟩ := dropLevel_churned h
    exact ⟨d, hrelinked.then hd⟩
  · obtain rfl := Option.some.inj h
    exact ⟨0, hrelinked.churned⟩

theorem retire_churned (h : b.retire ref oi = some b') : ∃ d, Churned b b' 0 d := by
  obtain ⟨b₁, hunlink, h⟩ := Option.bind_eq_some_iff.mp h
  obtain ⟨ids, -, h⟩ := Option.bind_eq_some_iff.mp h
  obtain rfl := Option.some.inj h
  obtain ⟨d, hd⟩ := unlink_churned hunlink
  exact ⟨d, hd.quiet ⟨rfl, rfl, rfl, rfl, rfl⟩⟩

theorem reduce_churned (h : b.reduce ref qty = some b') : ∃ d, Churned b b' 0 d := by
  obtain ⟨oi?, -, h⟩ := Option.bind_eq_some_iff.mp h
  cases oi? with
  | none =>
    obtain rfl := Option.some.inj h
    exact ⟨0, Quiet.churned ⟨rfl, rfl, rfl, rfl, rfl⟩⟩
  | some oi =>
    obtain ⟨o, -, h⟩ := Option.bind_eq_some_iff.mp h
    generalize (if qty < o.qty then qty else o.qty) = take at h
    dsimp only at h
    split at h
    · exact retire_churned h
    · obtain ⟨orders, -, h⟩ := Option.bind_eq_some_iff.mp h
      obtain ⟨levels, -, h⟩ := Option.bind_eq_some_iff.mp h
      obtain rfl := Option.some.inj h
      exact ⟨0, Quiet.churned ⟨rfl, rfl, rfl, rfl, rfl⟩⟩

theorem remove_churned (h : b.remove ref = some b') : ∃ d, Churned b b' 0 d := by
  obtain ⟨oi?, -, h⟩ := Option.bind_eq_some_iff.mp h
  cases oi? with
  | none =>
    obtain rfl := Option.some.inj h
    exact ⟨0, Quiet.churned ⟨rfl, rfl, rfl, rfl, rfl⟩⟩
  | some oi => exact retire_churned h

theorem replace_churned {new : OrderId} (h : b.replace ref new p qty = some b') :
    ∃ c d, Churned b b' c d := by
  obtain ⟨oi?, -, h⟩ := Option.bind_eq_some_iff.mp h
  cases oi? with
  | none =>
    obtain rfl := Option.some.inj h
    exact ⟨0, 0, Quiet.churned ⟨rfl, rfl, rfl, rfl, rfl⟩⟩
  | some oi =>
    obtain ⟨o, -, h⟩ := Option.bind_eq_some_iff.mp h
    obtain ⟨b₁, hretire, h⟩ := Option.bind_eq_some_iff.mp h
    obtain ⟨d, hd⟩ := retire_churned hretire
    obtain ⟨c, hc⟩ := add_churned h
    have hlive := hd.live
    exact ⟨0 + c, d + 0, hd.trans hc (by omega)⟩

/-- All that one event of a tape can do. -/
theorem apply_churned {e : BookEvent} (h : apply b e = some b') : ∃ c d, Churned b b' c d := by
  rw [apply, BookEvent.op] at h
  cases htype : e.type with
  | add =>
    rw [htype] at h
    obtain ⟨c, hc⟩ := add_churned h
    exact ⟨c, 0, hc⟩
  | execute =>
    rw [htype] at h
    obtain ⟨d, hd⟩ := reduce_churned h
    exact ⟨0, d, hd⟩
  | cancel =>
    rw [htype] at h
    obtain ⟨d, hd⟩ := reduce_churned h
    exact ⟨0, d, hd⟩
  | delete =>
    rw [htype] at h
    obtain ⟨d, hd⟩ := remove_churned h
    exact ⟨0, d, hd⟩
  | replace =>
    rw [htype] at h
    exact replace_churned h

end Hotpath.Book.IntrusiveBook
