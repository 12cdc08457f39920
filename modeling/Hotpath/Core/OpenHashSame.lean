import Hotpath.Support.Fallible
import Hotpath.Core.OpenHashSpec

/-!
# Tables with the same entries

What a table answers depends on its entries, its size and its capacity, not on
which slot an entry is in nor on the value an empty slot still holds.
-/

namespace Hotpath.OpenHashMap
open Hotpath.Support

variable {V : Type} {h : OrderId → OrderId} {m m' : OpenHashMap V} {key : OrderId}

structure SameEntries (h : OrderId → OrderId) (m m' : OpenHashMap V) : Prop where
  left : WF h m
  right : WF h m'
  length : m'.slots.length = m.slots.length
  size : m'.size = m.size
  lookup : ∀ k ≠ kEmpty, lookup m' k = lookup m k

theorem SameEntries.limit (hs : SameEntries h m m') : m'.limit = m.limit := by
  rw [OpenHashMap.limit, OpenHashMap.limit, hs.length]

theorem SameEntries.find (hs : SameEntries h m m') (hk : key ≠ kEmpty) :
    m'.find h key = m.find h key := by
  rw [hs.right.find_spec hk, hs.left.find_spec hk, hs.lookup key hk]

theorem SameEntries.insert (hs : SameEntries h m m') (hk : key ≠ kEmpty) (v : V) :
    Option.Rel (fun x y => SameEntries h x.1 y.1 ∧ y.2 = x.2) (m.insert h key v)
      (m'.insert h key v) := by
  have hlimit := hs.limit
  have hsize := hs.size
  have hlook := hs.lookup key hk
  rcases hs.left.insert_spec hk v with ⟨hnone, hfull, hrun⟩ | ⟨t, hrun, hw, hlen, hl, hsz⟩
  · rcases hs.right.insert_spec hk v with ⟨-, -, hrun'⟩ | ⟨t', -, -, -, -, hsz'⟩
    · rw [hrun, hrun']
      exact Option.Rel.some ⟨hs, rfl⟩
    · rcases hsz' with ⟨hsome, -⟩ | ⟨-, hroom, -⟩
      · exact absurd (hlook.trans hnone) hsome
      · omega
  · rcases hs.right.insert_spec hk v with ⟨hnone', hfull', -⟩ | ⟨t', hrun', hw', hlen', hl', hsz'⟩
    · rcases hsz with ⟨hsome, -⟩ | ⟨-, hroom, -⟩
      · exact absurd (hlook.symm.trans hnone') hsome
      · omega
    · rw [hrun, hrun']
      apply Option.Rel.some
      refine ⟨⟨hw, hw', by rw [hlen, hlen', hs.length], ?_, fun k hk' => ?_⟩, rfl⟩
      · show t'.size = t.size
        rcases hsz with ⟨hsome, hsz⟩ | ⟨hnone, -, hsz⟩
        · rcases hsz' with ⟨-, hsz'⟩ | ⟨hnone', -⟩
          · omega
          · exact absurd (hlook.symm.trans hnone') hsome
        · rcases hsz' with ⟨hsome', -⟩ | ⟨-, -, hsz'⟩
          · exact absurd (hlook.trans hnone) hsome'
          · omega
      · rw [hl k hk', hl' k hk', hs.lookup k hk']

theorem SameEntries.erase (hs : SameEntries h m m') (hk : key ≠ kEmpty) :
    Option.Rel (fun x y => SameEntries h x.1 y.1 ∧ y.2 = x.2) (m.erase h key)
      (m'.erase h key) := by
  have hsize := hs.size
  have hlook := hs.lookup key hk
  rcases hs.left.erase_spec hk with ⟨hnone, hrun⟩ | ⟨hsome, t, hrun, hw, hlen, hsz, hl⟩
  · rcases hs.right.erase_spec hk with ⟨-, hrun'⟩ | ⟨hsome', -⟩
    · rw [hrun, hrun']
      exact Option.Rel.some ⟨hs, rfl⟩
    · exact absurd (hlook.trans hnone) hsome'
  · rcases hs.right.erase_spec hk with ⟨hnone', -⟩ | ⟨-, t', hrun', hw', hlen', hsz', hl'⟩
    · exact absurd (hlook.symm.trans hnone') hsome
    · rw [hrun, hrun']
      apply Option.Rel.some
      have hsame : t'.size = t.size := by omega
      refine ⟨⟨hw, hw', by rw [hlen, hlen', hs.length], hsame, fun k hk' => ?_⟩, rfl⟩
      rw [hl k hk', hl' k hk', hs.lookup k hk']

theorem SameEntries.write (hs : SameEntries h m m') (hk : key ≠ kEmpty)
    (hfound : OpenHashMap.lookup m key ≠ none) (v : V) :
    Option.Rel (SameEntries h) (m.write h key v) (m'.write h key v) := by
  have hfound' : OpenHashMap.lookup m' key ≠ none := by
    rw [hs.lookup key hk]
    exact hfound
  obtain ⟨t, hrun, hw, hlen, hsz, hl⟩ := hs.left.write_spec hk hfound v
  obtain ⟨t', hrun', hw', hlen', hsz', hl'⟩ := hs.right.write_spec hk hfound' v
  rw [hrun, hrun']
  apply Option.Rel.some
  refine ⟨hw, hw', by rw [hlen, hlen', hs.length], by rw [hsz, hsz', hs.size], fun k hk' => ?_⟩
  rw [hl k hk', hl' k hk', hs.lookup k hk']

/-- An emptied table is as good as a new one of its capacity. -/
theorem SameEntries.fresh [Inhabited V] {c : ℕ} (hmake : make c = some m) (hw : WF h m')
    (hlen : m'.slots.length = c) : SameEntries h m m'.clear := by
  obtain ⟨hw0, hlen0, hsize0, hnone0⟩ := WF.make (h := h) hmake
  obtain ⟨hw', hlen', hsize', hnone'⟩ := hw.clear
  refine ⟨hw0, hw', by rw [hlen', hlen, hlen0], by rw [hsize', hsize0], fun k hk => ?_⟩
  rw [hnone' k hk, hnone0 k hk]

theorem SameEntries.clear (hs : SameEntries h m m') : SameEntries h m.clear m'.clear := by
  obtain ⟨hw, hlen, hsize, hnone⟩ := hs.left.clear
  obtain ⟨hw', hlen', hsize', hnone'⟩ := hs.right.clear
  refine ⟨hw, hw', by rw [hlen', hlen, hs.length], by rw [hsize', hsize], fun k hk => ?_⟩
  rw [hnone' k hk, hnone k hk]

end Hotpath.OpenHashMap
