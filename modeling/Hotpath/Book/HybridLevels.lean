import Hotpath.Support.OrderedMap
import Hotpath.Book.HybridRep

/-!
# Creating and ending levels

`find_or_create_level` and `drop_level` move one entry of the level index and
keep the grid, its bitmap and the overflow map in step. What they do to the
cached best tick is stated here, and used by the best-price results.
-/

namespace Hotpath.Book.HybridBook
open Hotpath.Support

variable {b b' : HybridBook} {Q : Queues} {s : Side} {p : Price}

/-- The parts of a book that creating and ending levels leave alone. -/
structure SameOrders (b b' : HybridBook) : Prop where
  lo : b'.lo = b.lo
  ticks : b'.ticks = b.ticks
  orders : b'.orders = b.orders
  freeOrders : b'.freeOrders = b.freeOrders
  ids : b'.ids = b.ids
  rejected : b'.rejected = b.rejected
  nextSeq : b'.nextSeq = b.nextSeq
  levels : b'.levels.length = b.levels.length

theorem SameOrders.rfl' : SameOrders b b := ⟨rfl, rfl, rfl, rfl, rfl, rfl, rfl, rfl⟩

/-! ### One entry of the index -/

section Entry
variable {v h' : ℤ}

/-- A dense price: slot, bit and hint of its tick. -/
theorem GridOk.mark (hg : GridOk b) (b' : HybridBook) (hin : b.inGrid p = true) (hlo : b'.lo = b.lo)
    (hticks : b'.ticks = b.ticks) (hover : b'.over_ = b.over_) {slot : List ℤ} {bits : List Word}
    (hgrid : b'.grid = Function.update b.grid s ⟨slot, bits, h'⟩)
    (hlen : slot.length = (b.grid s).slot.length) (hwords : bits.length = (b.grid s).bits.length)
    (hslot : ∀ u, slot.getD u (-1) = if u = b.tickOf p then v else (b.grid s).slot.getD u (-1))
    (hbits : ∀ u, bitAt bits u = if u = b.tickOf p then decide (0 ≤ v) else bitAt (b.grid s).bits u)
    (hh : h' = -1 ∨ ∃ t : ℕ, h' = t ∧ t < b.ticks ∧ 0 ≤ slot.getD t (-1)) :
    GridOk b' ∧ b'.levelIx = set2 b.levelIx s p v := by
  have hin' : ∀ q, b'.inGrid q = b.inGrid q := fun q => by simp only [inGrid, hlo, hticks]
  have htick : ∀ q, b'.tickOf q = b.tickOf q := fun q => by simp only [tickOf, hlo]
  have hsame : b'.grid s = ⟨slot, bits, h'⟩ := by rw [hgrid, Function.update_self]
  have hother : ∀ s', s' ≠ s → b'.grid s' = b.grid s' := fun s' hs => by
    rw [hgrid, Function.update_of_ne hs]
  refine ⟨⟨?_, fun s' => ?_, fun s' => ?_, fun s' t => ?_, fun s' => ?_, ?_⟩, ?_⟩
  · obtain ⟨ha, hp, ht⟩ := hg.window
    exact ⟨by rwa [hlo], by rwa [hticks], by rwa [hlo, hticks]⟩
  · by_cases hs : s' = s
    · rw [hs, hsame, hticks, ← hg.slots s]
      exact hlen
    · rw [hother s' hs, hticks, hg.slots]
  · by_cases hs : s' = s
    · rw [hs, hsame, hticks, ← hg.words s]
      exact hwords
    · rw [hother s' hs, hticks, hg.words]
  · by_cases hs : s' = s
    · rw [hs, hsame]
      show bitAt bits t = true ↔ 0 ≤ slot.getD t (-1)
      rw [hbits, hslot]
      split
      · exact decide_eq_true_iff
      · exact hg.bits s t
    · rw [hother s' hs]
      exact hg.bits s' t
  · by_cases hs : s' = s
    · rw [hs, hsame, hticks]
      exact hh
    · rw [hother s' hs, hticks]
      exact hg.hint s'
  · intro s' q li hq
    rw [hover] at hq
    rw [hin']
    exact hg.outside s' q li hq
  · funext s' q
    unfold levelIx
    rw [hin', htick, hover]
    by_cases hs : s' = s
    · subst hs
      rw [hsame]
      by_cases hq : b.inGrid q = true
      · rw [if_pos hq, hslot]
        by_cases hqp : q = p
        · rw [hqp, if_pos rfl, set2_same]
        · rw [if_neg fun ht => hqp (hg.window.tickOf_inj hq hin ht), set2_other fun h => hqp h.2,
            if_pos hq]
      · have hne : ¬(s' = s' ∧ q = p) := by
          rintro ⟨-, rfl⟩
          exact hq hin
        rw [if_neg hq, set2_other hne, if_neg hq]
    · rw [hother s' hs, set2_other fun h => hs h.1]

/-- A price outside the window: its entry of the overflow map. -/
theorem GridOk.markOver (hg : GridOk b) (b' : HybridBook) (hin : b.inGrid p = false)
    (hlo : b'.lo = b.lo) (hticks : b'.ticks = b.ticks) (hgrid : b'.grid = b.grid) {m : Std.TreeMap Price ℤ}
    (hover : b'.over_ = Function.update b.over_ s m)
    (hm : ∀ q, m[q]? = if q = p then (if 0 ≤ v then some v else none) else (b.over_ s)[q]?)
    (hv : v = -1 ∨ 0 ≤ v) : GridOk b' ∧ b'.levelIx = set2 b.levelIx s p v := by
  have hin' : ∀ q, b'.inGrid q = b.inGrid q := fun q => by simp only [inGrid, hlo, hticks]
  have hsame : b'.over_ s = m := by rw [hover, Function.update_self]
  have hother : ∀ s', s' ≠ s → b'.over_ s' = b.over_ s' := fun s' hs => by
    rw [hover, Function.update_of_ne hs]
  refine ⟨⟨?_, ?_, ?_, ?_, ?_, fun s' q li hq => ?_⟩, ?_⟩
  · obtain ⟨ha, hp, ht⟩ := hg.window
    exact ⟨by rwa [hlo], by rwa [hticks], by rwa [hlo, hticks]⟩
  · simpa only [hgrid, hticks] using hg.slots
  · simpa only [hgrid, hticks] using hg.words
  · simpa only [hgrid] using hg.bits
  · simpa only [hgrid, hticks] using hg.hint
  · rw [hin']
    by_cases hs : s' = s
    · rw [hs, hsame, hm] at hq
      split_ifs at hq with hqp hv0
      · obtain rfl := Option.some.inj hq
        exact ⟨by rw [hqp, hin], hv0⟩
      · exact hg.outside s q li hq
    · rw [hother s' hs] at hq
      exact hg.outside s' q li hq
  · funext s' q
    simp only [levelIx, hin', tickOf, hlo, hgrid]
    by_cases hs : s' = s
    · subst hs
      rw [hsame, hm]
      by_cases hqp : q = p
      · rw [hqp, set2_same, hin, if_pos rfl]
        rcases hv with rfl | hv
        · rfl
        · rw [if_pos hv]
          rfl
      · rw [if_neg hqp, set2_other fun h => hqp h.2]
        rfl
    · rw [hother s' hs, set2_other fun h => hs h.1]
      rfl

end Entry

/-! ### Creating a level -/

theorem GridOk.find_existing (hg : GridOk b) (hx : 0 ≤ b.levelIx s p) :
    b.findOrCreateLevel s p = some (b, b.levelIx s p) := by
  simp only [findOrCreateLevel, hg.lookupLevel_eq, Option.bind_eq_bind, Option.bind_some,
    if_pos hx]
  rfl

theorem GridOk.find_full (hg : GridOk b) (hx : b.levelIx s p < 0) (hf : b.freeLevels = []) :
    b.findOrCreateLevel s p = some (b, -1) := by
  simp only [findOrCreateLevel, hg.lookupLevel_eq, Option.bind_eq_bind, Option.bind_some,
    if_neg (not_le.mpr hx), hf]
  rfl

theorem GridOk.find_fails (hg : GridOk b) (hx : b.levelIx s p < 0) {li : ℤ} {free : List ℤ}
    (hf : b.freeLevels = li :: free) (hl : modifyAt b.levels li (fun _ => { price := p }) = none) :
    b.findOrCreateLevel s p = none := by
  simp only [findOrCreateLevel, hg.lookupLevel_eq, Option.bind_eq_bind, Option.bind_some,
    if_neg (not_le.mpr hx), hf, hl, Option.bind_none]

theorem tick_word (hg : GridOk b) (hin : b.inGrid p = true) :
    b.tickOf p / 64 < (b.grid s).bits.length := by
  have := tickOf_lt hin
  rw [hg.words]
  omega

theorem raiseHint_cases {h : ℤ} {t : ℕ} : raiseHint s h t = t ∨ (raiseHint s h t = h ∧ 0 ≤ h) := by
  unfold raiseHint
  cases s <;> dsimp only <;> split_ifs <;> omega

/-- A new level: its own entry of the index changes, and its slot of the pool. -/
theorem GridOk.find_new (hg : GridOk b) (hx : b.levelIx s p < 0) {n : ℕ} {free : List ℤ}
    (hf : b.freeLevels = (n : ℤ) :: free) {levels : List Level}
    (hl : modifyAt b.levels n (fun _ => { price := p }) = some levels)
    (hlen : levels.length = b.levels.length) :
    ∃ b' : HybridBook, b.findOrCreateLevel s p = some (b', (n : ℤ)) ∧ GridOk b' ∧
      b'.levels = levels ∧ b'.freeLevels = free ∧ SameOrders b b' ∧
      b'.levelIx = set2 b.levelIx s p n ∧
      ∀ s', (b'.grid s').hint = if s' = s ∧ b.inGrid p = true
        then raiseHint s (b.grid s).hint (b.tickOf p) else (b.grid s').hint := by
  by_cases hin : b.inGrid p = true
  · have ht : b.tickOf p < (b.grid s).slot.length := by
      rw [hg.slots]
      exact tickOf_lt hin
    obtain ⟨slot, hs, hslen, hsget⟩ := modifyAt_get ht (fun _ => (n : ℤ)) (-1)
    obtain ⟨bits, hb, hblen, hbget⟩ := setBit_spec (tick_word (s := s) hg hin)
    have hrun : b.findOrCreateLevel s p = some ({ b with
        freeLevels := free
        levels := levels
        grid := Function.update b.grid s
          ⟨slot, bits, raiseHint s (b.grid s).hint (b.tickOf p)⟩ }, (n : ℤ)) := by
      have hin' : inGrid { b with freeLevels := free, levels := levels } p = true := hin
      simp only [findOrCreateLevel, hg.lookupLevel_eq, Option.bind_eq_bind, Option.bind_some,
        if_neg (not_le.mpr hx), hf, hl, if_pos hin']
      show (modifyAt (b.grid s).slot (b.tickOf p : ℤ) fun _ => (n : ℤ)).bind _ = _
      rw [hs]
      show (setBit (b.grid s).bits (b.tickOf p)).bind _ = _
      rw [hb]
      rfl
    have hmark := hg.mark { b with
        freeLevels := free
        levels := levels
        grid := Function.update b.grid s
          ⟨slot, bits, raiseHint s (b.grid s).hint (b.tickOf p)⟩ }
      hin rfl rfl rfl rfl hslen hblen hsget
      (fun u => by rw [hbget u, decide_eq_true (Int.natCast_nonneg n)]) ?_
    · refine ⟨_, hrun, hmark.1, rfl, rfl, ⟨rfl, rfl, rfl, rfl, rfl, rfl, rfl, hlen⟩, hmark.2,
        fun s' => ?_⟩
      show (Function.update b.grid s _ s').hint = _
      by_cases hs' : s' = s
      · rw [hs', Function.update_self, if_pos ⟨rfl, hin⟩]
      · rw [Function.update_of_ne hs', if_neg fun h => hs' h.1]
    · right
      rcases raiseHint_cases (s := s) (h := (b.grid s).hint) (t := b.tickOf p) with he | ⟨he, h0⟩
      · refine ⟨_, he, tickOf_lt hin, ?_⟩
        rw [hsget, if_pos rfl]
        exact Int.natCast_nonneg n
      · rcases hg.hint s with hneg | ⟨t, ht, hlt, hocc⟩
        · omega
        · refine ⟨t, he.trans ht, hlt, ?_⟩
          rw [hsget]
          split
          · exact Int.natCast_nonneg n
          · exact hocc
  · have hin0 : b.inGrid p = false := by simpa using hin
    have hrun : b.findOrCreateLevel s p = some ({ b with
        freeLevels := free
        levels := levels
        overflowOps := b.overflowOps + 1
        over_ := Function.update b.over_ s ((b.over_ s).insert p n) }, (n : ℤ)) := by
      have hin' : ¬inGrid { b with freeLevels := free, levels := levels } p = true := hin
      simp only [findOrCreateLevel, hg.lookupLevel_eq, Option.bind_eq_bind, Option.bind_some,
        if_neg (not_le.mpr hx), hf, hl, if_neg hin']
      rfl
    have hmark := hg.markOver (v := n) { b with
        freeLevels := free
        levels := levels
        overflowOps := b.overflowOps + 1
        over_ := Function.update b.over_ s ((b.over_ s).insert p n) }
      hin0 rfl rfl rfl rfl (fun q => by
        rw [getElem?_insert_if, if_pos (Int.natCast_nonneg n)]) (Or.inr (Int.natCast_nonneg n))
    refine ⟨_, hrun, hmark.1, rfl, rfl, ⟨rfl, rfl, rfl, rfl, rfl, rfl, rfl, hlen⟩, hmark.2,
      fun s' => ?_⟩
    rw [if_neg fun h => hin h.2]

/-- A new level is empty. -/
theorem Core.create (hc : Core b Q) (hx : b.levelIx s p < 0) {li : ℤ} {free : List ℤ}
    (hf : b.freeLevels = li :: free) :
    (li < 0 ∧ 2 ^ 31 < b.levels.length ∧ b.findOrCreateLevel s p = none) ∨
    ∃ (n : ℕ) (b' : HybridBook), b.findOrCreateLevel s p = some (b', (n : ℤ)) ∧ Core b' Q ∧
      SameOrders b b' ∧ b'.levelIx = set2 b.levelIx s p n ∧
      ∀ s', (b'.grid s').hint = if s' = s ∧ b.inGrid p = true
        then raiseHint s (b.grid s).hint (b.tickOf p) else (b.grid s').hint := by
  have hfree := hc.freeLevels
  rw [hf] at hfree
  rcases hfree.pop with ⟨n, rfl, hn, hsmall, hunused, hrest⟩ | ⟨hneg, hbig⟩
  · right
    obtain ⟨levels, hl, hllen, hlget⟩ :=
      modifyAt_get hn (fun _ => ({ price := p } : Level)) ({} : Level)
    obtain ⟨b', hrun, hg, hlv, hfr, hso, hix, hhint⟩ := hc.grid.find_new hx hf hl hllen
    have hnew : LevelOk b' n p [] := by
      have hlev : b'.lev n = { price := p } := by
        rw [lev, hlv, hlget, if_pos rfl]
      exact ⟨by rw [hlev], by rw [hlev]; rfl, by rw [hlev]; rfl, by rw [hlev]; exact Chain.empty⟩
    refine ⟨n, b', hrun, ?_, hso, hix, hhint⟩
    refine hc.reindex (hc.absent s p hx) hg hso.orders hso.levels hix
      (Or.inr ⟨n, rfl, hn, hsmall, hnew, hunused⟩) (fun m hm => ?_) ?_
    · rw [lev, hlv, hlget, if_neg (by exact_mod_cast hm), lev]
    · rw [hfr, hix]
      refine hrest.congr fun m => ⟨fun hm s' p' => ?_, fun hm => ⟨fun s' p' => ?_, fun he => ?_⟩⟩
      · unfold set2
        split
        · exact fun he => hm.2 (by exact_mod_cast he.symm)
        · exact hm.1 s' p'
      · by_cases hsp : s' = s ∧ p' = p
        · rw [hsp.1, hsp.2]
          omega
        · have := hm s' p'
          rwa [set2_other hsp] at this
      · have := hm s p
        rw [set2_same, he] at this
        exact this rfl
  · exact Or.inl ⟨hneg, hbig, hc.grid.find_fails hx hf (modifyAt_neg hneg _)⟩

/-! ### Ending a level -/

/-- The entry of the level's price is forgotten and its slot freed. -/
theorem GridOk.drop (hg : GridOk b) {li : ℤ} {level : Level}
    (hl : subscript b.levels li = some level) :
    ∃ b' : HybridBook, b.dropLevel s li = some b' ∧ GridOk b' ∧ b'.levels = b.levels ∧
      b'.freeLevels = li :: b.freeLevels ∧ SameOrders b b' ∧
      b'.levelIx = set2 b.levelIx s level.price (-1) ∧
      ∀ s', (b'.grid s').hint = if s' = s ∧ b.inGrid level.price = true ∧
        (b.grid s).hint = b.tickOf level.price then -1 else (b.grid s').hint := by
  by_cases hin : b.inGrid level.price = true
  · have ht : b.tickOf level.price < (b.grid s).slot.length := by
      rw [hg.slots]
      exact tickOf_lt hin
    obtain ⟨slot, hs, hslen, hsget⟩ := modifyAt_get ht (fun _ => (-1 : ℤ)) (-1)
    obtain ⟨bits, hb, hblen, hbget⟩ := clearBit_spec (tick_word (s := s) hg hin)
    have hrun : b.dropLevel s li = some { b with
        freeLevels := li :: b.freeLevels
        grid := Function.update b.grid s ⟨slot, bits,
          if (b.grid s).hint = b.tickOf level.price then -1 else (b.grid s).hint⟩ } := by
      simp only [dropLevel, hl, Option.bind_eq_bind, Option.bind_some, if_pos hin, hs, hb]
      rfl
    have hmark := hg.mark (v := -1) { b with
        freeLevels := li :: b.freeLevels
        grid := Function.update b.grid s ⟨slot, bits,
          if (b.grid s).hint = b.tickOf level.price then -1 else (b.grid s).hint⟩ }
      hin rfl rfl rfl rfl hslen hblen hsget (fun u => by rw [hbget u]; rfl) ?_
    · refine ⟨_, hrun, hmark.1, rfl, rfl, ⟨rfl, rfl, rfl, rfl, rfl, rfl, rfl, rfl⟩, hmark.2,
        fun s' => ?_⟩
      show (Function.update b.grid s _ s').hint = _
      by_cases hs' : s' = s
      · rw [hs', Function.update_self]
        simp only [hin, true_and]
      · rw [Function.update_of_ne hs', if_neg fun h => hs' h.1]
    · by_cases hh : (b.grid s).hint = b.tickOf level.price
      · rw [if_pos hh]
        exact Or.inl rfl
      · rw [if_neg hh]
        rcases hg.hint s with hneg | ⟨t, ht, hlt, hocc⟩
        · exact Or.inl hneg
        · refine Or.inr ⟨t, ht, hlt, ?_⟩
          rw [hsget, if_neg fun he => hh (by rw [ht, he])]
          exact hocc
  · have hin0 : b.inGrid level.price = false := by simpa using hin
    have hrun : b.dropLevel s li = some { b with
        freeLevels := li :: b.freeLevels
        over_ := Function.update b.over_ s ((b.over_ s).erase level.price) } := by
      simp only [dropLevel, hl, Option.bind_eq_bind, Option.bind_some, if_neg hin]
      rfl
    have hmark := hg.markOver (v := -1) { b with
        freeLevels := li :: b.freeLevels
        over_ := Function.update b.over_ s ((b.over_ s).erase level.price) }
      hin0 rfl rfl rfl rfl (fun q => by rw [getElem?_erase_if]; rfl) (Or.inl rfl)
    refine ⟨_, hrun, hmark.1, rfl, rfl, ⟨rfl, rfl, rfl, rfl, rfl, rfl, rfl, rfl⟩, hmark.2,
      fun s' => ?_⟩
    rw [if_neg fun h => hin h.2.1]

theorem Core.drop (hc : Core b Q) {n : ℕ} (hx : b.levelIx s p = n) (hQ : Q s p = []) :
    ∃ b', b.dropLevel s n = some b' ∧ Core b' Q ∧ SameOrders b b' ∧
      b'.levelIx = set2 b.levelIx s p (-1) ∧
      ∀ s', (b'.grid s').hint = if s' = s ∧ b.inGrid p = true ∧ (b.grid s).hint = b.tickOf p
        then -1 else (b.grid s').hint := by
  obtain ⟨m, hm, hn, hsmall, hl⟩ := hc.level s p (by omega)
  obtain rfl : m = n := by
    rw [hx] at hm
    exact_mod_cast hm.symm
  have hsub : subscript b.levels (m : ℤ) = some (b.lev m) := subscript_cast hn _
  obtain ⟨b', hrun, hg, hlv, hfr, hso, hix, hhint⟩ := hc.grid.drop (s := s) hsub
  rw [hl.price] at hix hhint
  refine ⟨b', hrun, ?_, hso, hix, hhint⟩
  refine hc.reindex hQ hg hso.orders hso.levels hix (Or.inl rfl)
    (fun k _ => by rw [lev, hlv, lev]) ?_
  have hrest : FreeOk b.freeLevels b.levels.length fun k =>
      (∀ s' p', b'.levelIx s' p' ≠ k) ∧ k ≠ m := by
    rw [hix]
    refine hc.freeLevels.congr fun k => ⟨fun hk => ⟨fun s' p' => ?_, fun he => ?_⟩,
      fun hk s' p' => ?_⟩
    · unfold set2
      split
      · omega
      · exact hk s' p'
    · exact hk s p (by rw [hx, he])
    · by_cases hsp : s' = s ∧ p' = p
      · rw [hsp.1, hsp.2, hx]
        exact fun he => hk.2 (by exact_mod_cast he.symm)
      · have := hk.1 s' p'
        rwa [set2_other hsp] at this
  rw [hfr]
  refine hrest.push hn hsmall fun s' p' => ?_
  rw [hix]
  by_cases hsp : s' = s ∧ p' = p
  · rw [hsp.1, hsp.2, set2_same]
    omega
  · rw [set2_other hsp]
    intro he
    exact hsp (hc.inj s p s' p' (by omega) (by rw [hx, he]))

end Hotpath.Book.HybridBook
