import Hotpath.Book.Line
import Hotpath.Book.HybridFifo

/-!
# The hybrid book keeps the line

`Lined b G k` says that `b` holds the line `G`, each entry with its slot and its
stamp, after at most `k` insertions: the queue of a side and price is its part of
the line, the table names the slots, and the stamps grow along the whole line.
-/

namespace Hotpath.Book.HybridBook
open Hotpath.Support

/-- A live order with the slot it rests in and the stamp it got. -/
structure Held extends Entry where
  slot : ℕ
  seq : UInt32

def Held.take (ref : OrderId) (qty : Qty) (x : Held) : Held :=
  if x.ref = ref then { x with qty := x.qty - qty } else x

def slotsOf (G : List Held) : Queues :=
  fun s p => (G.filter fun x => x.side = s ∧ x.px = p).map Held.slot

structure Lined (b : HybridBook) (G : List Held) (k : ℕ) : Prop where
  rep : Rep b (slotsOf G)
  real : ∀ x ∈ G, x.ref ≠ OpenHashMap.kEmpty
  data : ∀ x ∈ G, (b.ord x.slot).data = (x.ref, x.seq, x.qty, x.side)
  named : ∀ x ∈ G, OpenHashMap.lookup b.ids x.ref = some (x.slot : ℤ)
  known : ∀ ref ≠ OpenHashMap.kEmpty, OpenHashMap.lookup b.ids ref ≠ none → ∃ x ∈ G, x.ref = ref
  distinct : (G.map fun x => x.ref).Nodup
  stamps : G.Pairwise fun x y => x.seq.toNat < y.seq.toNat
  below : ∀ x ∈ G, x.seq.toNat ≤ k
  next : b.nextSeq = UInt32.ofNat (k + 1)

/-- The line without slots and stamps. -/
def line (G : List Held) : Line := G.map Held.toEntry

variable {b b' : HybridBook} {G : List Held} {k : ℕ} {s : Side} {p : Price} {ref : OrderId}
  {qty : Qty} {x : Held}

/-! ### The slots of a line -/

theorem mem_slotsOf {n : ℕ} : n ∈ slotsOf G s p ↔ ∃ x ∈ G, x.side = s ∧ x.px = p ∧ x.slot = n := by
  simp only [slotsOf, List.mem_map, List.mem_filter, decide_eq_true_eq]
  constructor
  · intro h
    obtain ⟨x, ⟨hx, hs, hp⟩, hn⟩ := h
    exact ⟨x, hx, hs, hp, hn⟩
  · intro h
    obtain ⟨x, hx, hs, hp, hn⟩ := h
    exact ⟨x, ⟨hx, hs, hp⟩, hn⟩

theorem slotsOf_push (G : List Held) (x : Held) :
    slotsOf (G ++ [x]) = set2 (slotsOf G) x.side x.px (slotsOf G x.side x.px ++ [x.slot]) := by
  funext s p
  by_cases hsp : s = x.side ∧ p = x.px
  · obtain ⟨rfl, rfl⟩ := hsp
    rw [set2_same]
    simp [slotsOf]
  · have hne : ¬(x.side = s ∧ x.px = p) := fun h => hsp ⟨h.1.symm, h.2.symm⟩
    rw [set2_other hsp]
    simp only [slotsOf, List.filter_append, List.filter_cons, decide_eq_true_eq, if_neg hne,
      List.filter_nil, List.append_nil]

@[simp] theorem Held.take_slot (ref : OrderId) (qty : Qty) (x : Held) :
    (x.take ref qty).slot = x.slot := by
  unfold Held.take
  split <;> rfl

@[simp] theorem Held.take_ref (ref : OrderId) (qty : Qty) (x : Held) :
    (x.take ref qty).ref = x.ref := by
  unfold Held.take
  split <;> rfl

@[simp] theorem Held.take_seq (ref : OrderId) (qty : Qty) (x : Held) :
    (x.take ref qty).seq = x.seq := by
  unfold Held.take
  split <;> rfl

@[simp] theorem Held.take_side (ref : OrderId) (qty : Qty) (x : Held) :
    (x.take ref qty).side = x.side := by
  unfold Held.take
  split <;> rfl

@[simp] theorem Held.take_px (ref : OrderId) (qty : Qty) (x : Held) :
    (x.take ref qty).px = x.px := by
  unfold Held.take
  split <;> rfl

theorem slotsOf_take (G : List Held) (ref : OrderId) (qty : Qty) :
    slotsOf (G.map (Held.take ref qty)) = slotsOf G := by
  funext s p
  rw [slotsOf, slotsOf, List.filter_map, List.map_map]
  simp only [Function.comp_def, Held.take_side, Held.take_px, Held.take_slot]

/-- Where a slot leaves, it leaves its one queue. -/
theorem set2_filter {Q : Queues} {n : ℕ} {l r : List ℕ} (hq : Q s p = l ++ n :: r)
    (hnd : (Q s p).Nodup) (hone : ∀ s' p', n ∈ Q s' p' → s' = s ∧ p' = p) :
    set2 Q s p (l ++ r) = fun s' p' => (Q s' p').filter (· ≠ n) := by
  funext s' p'
  by_cases hsp : s' = s ∧ p' = p
  · obtain ⟨rfl, rfl⟩ := hsp
    rw [hq] at hnd
    have hl : ∀ y ∈ l, y ≠ n := fun y hy => ne_of_nodup hnd (List.mem_append_left _ hy)
    have hr' : ∀ y ∈ r, y ≠ n := fun y hy => ne_of_nodup hnd (List.mem_append_right _ hy)
    rw [set2_same, hq, List.filter_append, List.filter_cons]
    rw [List.filter_eq_self.mpr fun y hy => decide_eq_true (hl y hy),
      List.filter_eq_self.mpr fun y hy => decide_eq_true (hr' y hy)]
    simp
  · rw [set2_other hsp]
    symm
    apply List.filter_eq_self.mpr
    intro y hy
    apply decide_eq_true
    intro he
    exact hsp (hone s' p' (he ▸ hy))

/-! ### Reading the line -/

theorem Lined.slot_inj (hl : Lined b G k) {y : Held} (hx : x ∈ G) (hy : y ∈ G) :
    x.slot = y.slot ↔ x.ref = y.ref := by
  constructor
  · intro he
    have hdx := hl.data x hx
    rw [he, hl.data y hy] at hdx
    exact (congrArg Prod.fst hdx).symm
  · intro he
    have hnx := hl.named x hx
    rw [he, hl.named y hy] at hnx
    exact_mod_cast (Option.some.inj hnx).symm

/-- A queued slot is that of the entry it carries the ref of. -/
theorem Lined.entry_of (hl : Lined b G k) {n : ℕ} (hid : (b.ord n).id = ref)
    (hn : n ∈ slotsOf G s p) :
    ∃ x ∈ G, x.ref = ref ∧ x.slot = n ∧ x.side = s ∧ x.px = p ∧ (b.ord n).qty = x.qty := by
  obtain ⟨x, hx, hs, hp, hslot⟩ := mem_slotsOf.mp hn
  have hd := hl.data x hx
  rw [hslot] at hd
  simp only [Order.data, Prod.mk.injEq] at hd
  exact ⟨x, hx, hd.1.symm.trans hid, hslot, hs, hp, hd.2.2.1⟩

theorem Lined.find_some (hl : Lined b G k) (hx : x ∈ G) :
    (line G).find x.ref = some x.toEntry := by
  have hnd := hl.distinct
  clear hl
  rw [line, Line.find]
  induction G with
  | nil => cases hx
  | cons y G ih =>
    rw [List.map_cons, List.nodup_cons] at hnd
    rw [List.map_cons, List.find?_cons]
    cases List.mem_cons.mp hx with
    | inl he =>
      rw [he]
      simp
    | inr hx' =>
      have hne : ¬y.ref = x.ref := by
        intro he
        exact hnd.1 (he ▸ List.mem_map_of_mem hx')
      simp only [hne, decide_false]
      exact ih hx' hnd.2

theorem Lined.find_none (hl : Lined b G k) (hlk : OpenHashMap.lookup b.ids ref = none) : (line G).find ref = none ∧ ref ∉ (line G).refs := by
  have hno : ∀ x ∈ G, x.ref ≠ ref := by
    intro x hx he
    have hn := hl.named x hx
    rw [he, hlk] at hn
    cases hn
  constructor
  · rw [line, Line.find, List.find?_eq_none]
    intro e he
    obtain ⟨x, hx, rfl⟩ := List.mem_map.mp he
    simpa using hno x hx
  · rw [line, Line.refs, List.map_map]
    intro hm
    obtain ⟨x, hx, he⟩ := List.mem_map.mp hm
    exact hno x hx he

theorem line_drop (G : List Held) (ref : OrderId) :
    line (G.filter fun x => x.ref ≠ ref) = (line G).drop ref := by
  rw [line, line, Line.drop, List.filter_map]
  rfl

theorem line_take (G : List Held) (ref : OrderId) (qty : Qty) :
    line (G.map (Held.take ref qty)) = (line G).map (Entry.take ref qty) := by
  rw [line, line, List.map_map, List.map_map]
  apply List.map_congr_left
  intro x _
  simp only [Function.comp_apply, Held.take, Entry.take]
  split <;> rfl

theorem mem_refs_line : ref ∈ (line G).refs ↔ ∃ x ∈ G, x.ref = ref := by
  rw [line, Line.refs, List.map_map, List.mem_map]
  rfl

/-! ### Steps -/

/-- A new order goes to the back of the line with the next stamp. -/
theorem Lined.push (hl : Lined b G k) (href : ref ≠ OpenHashMap.kEmpty)
    (hnew : ∀ x ∈ G, x.ref ≠ ref) (hk : k + 1 < 2 ^ 32) {m : ℕ}
    (hfresh : ∀ s' p', m ∉ slotsOf G s' p') (hp : Pushed b b' m ref s p qty)
    (hrej : b'.rejected = b.rejected)
    (hr' : Rep b' (set2 (slotsOf G) s p (slotsOf G s p ++ [m]))) :
    Lined b' (G ++ [⟨⟨ref, s, p, qty⟩, m, b.nextSeq⟩]) (k + 1) := by
  have hslot : ∀ x ∈ G, x.slot ≠ m := by
    intro x hx he
    exact hfresh x.side x.px (mem_slotsOf.mpr ⟨x, hx, rfl, rfl, he⟩)
  have hstamp : b.nextSeq.toNat = k + 1 := by
    rw [hl.next, UInt32.toNat_ofNat_of_lt' hk]
  rcases hp.table_cases hl.rep.table href with ⟨h, -⟩ | ⟨-, -, hlk, -⟩
  · omega
  · constructor
    case rep =>
      rw [slotsOf_push]
      exact hr'
    case real =>
      intro x hx
      cases List.mem_append.mp hx with
      | inl hx => exact hl.real x hx
      | inr hx =>
        rw [List.mem_singleton.mp hx]
        exact href
    case data =>
      intro x hx
      cases List.mem_append.mp hx with
      | inl hx =>
        rw [hp.others x.slot (hslot x hx)]
        exact hl.data x hx
      | inr hx =>
        rw [List.mem_singleton.mp hx]
        exact hp.data
    case named =>
      intro x hx
      cases List.mem_append.mp hx with
      | inl hx =>
        rw [hlk _ (hl.real x hx), if_neg (hnew x hx)]
        exact hl.named x hx
      | inr hx =>
        rw [List.mem_singleton.mp hx, hlk ref href, if_pos rfl]
    case known =>
      intro i hi h
      by_cases hir : i = ref
      · exact ⟨_, List.mem_append_right _ (List.mem_singleton_self _), hir.symm⟩
      · rw [hlk i hi, if_neg hir] at h
        obtain ⟨x, hx, he⟩ := hl.known i hi h
        exact ⟨x, List.mem_append_left _ hx, he⟩
    case distinct =>
      rw [List.map_append, List.nodup_append]
      refine ⟨hl.distinct, List.nodup_singleton _, ?_⟩
      intro i hi j hj
      obtain ⟨x, hx, rfl⟩ := List.mem_map.mp hi
      rw [List.mem_singleton.mp hj]
      exact hnew x hx
    case stamps =>
      apply List.pairwise_append.mpr
      refine ⟨hl.stamps, List.pairwise_singleton _ _, ?_⟩
      intro x hx y hy
      have hle := hl.below x hx
      rw [List.mem_singleton.mp hy, hstamp]
      omega
    case below =>
      intro x hx
      cases List.mem_append.mp hx with
      | inl hx => exact (hl.below x hx).trans (Nat.le_succ k)
      | inr hx =>
        rw [List.mem_singleton.mp hx]
        exact hstamp.le
    case next =>
      rw [hp.nextSeq, hl.next, UInt32.ofNat_add (k + 1) 1]
      rfl

/-- A departing order leaves the line; the others keep their places. -/
theorem Lined.pull (hl : Lined b G k) (hx : x ∈ G) {l r : List ℕ}
    (hq : slotsOf G x.side x.px = l ++ x.slot :: r)
    (hp : Pulled b b' x.ref x.side x.px (l ++ r = []))
    (hr' : Rep b' (set2 (slotsOf G) x.side x.px (l ++ r))) :
    Lined b' (G.filter fun y => y.ref ≠ x.ref) k := by
  have hmem : x.slot ∈ slotsOf G x.side x.px := mem_slotsOf.mpr ⟨x, hx, rfl, rfl, rfl⟩
  have hslots : set2 (slotsOf G) x.side x.px (l ++ r) =
      slotsOf (G.filter fun y => y.ref ≠ x.ref) := by
    rw [set2_filter hq (hl.rep.nodup ..) fun s' p' h => hl.rep.queue_unique hmem h]
    funext s' p'
    rw [slotsOf, slotsOf, List.filter_filter, List.filter_map, List.filter_filter]
    congr 1
    apply List.filter_congr
    intro y hy
    rw [Function.comp_apply, decide_eq_decide.mpr (hl.slot_inj hy hx).not, Bool.and_comm]
  have hsub : ∀ y, y ∈ G.filter (fun y => y.ref ≠ x.ref) → y ∈ G ∧ y.ref ≠ x.ref := by
    intro y hy
    simpa using hy
  have hsublist := List.filter_sublist (p := fun y : Held => decide (y.ref ≠ x.ref)) (l := G)
  constructor
  case rep =>
    rw [← hslots]
    exact hr'
  case real => exact fun y hy => hl.real y (hsub y hy).1
  case data =>
    intro y hy
    rw [hp.data]
    exact hl.data y (hsub y hy).1
  case named =>
    intro y hy
    obtain ⟨hyG, hne⟩ := hsub y hy
    rw [hp.ids _ (hl.real y hyG), if_neg hne]
    exact hl.named y hyG
  case known =>
    intro i hi h
    rw [hp.ids i hi] at h
    split at h
    · exact absurd rfl h
    · rename_i hne
      obtain ⟨y, hy, he⟩ := hl.known i hi h
      exact ⟨y, by simp [hy, he, hne], he⟩
  case distinct => exact hl.distinct.sublist (hsublist.map _)
  case stamps => exact hl.stamps.sublist hsublist
  case below => exact fun y hy => hl.below y (hsub y hy).1
  case next =>
    rw [hp.nextSeq]
    exact hl.next

/-- An order that loses some of its shares keeps its place. -/
theorem Lined.cut (hl : Lined b G k) (hx : x ∈ G) (hc : Cut b b' x.slot qty)
    (hr' : Rep b' (slotsOf G)) : Lined b' (G.map (Held.take x.ref qty)) k := by
  have hof : ∀ y ∈ G.map (Held.take x.ref qty), ∃ z ∈ G, z.take x.ref qty = y := by
    intro y hy
    exact List.mem_map.mp hy
  constructor
  case rep =>
    rw [slotsOf_take]
    exact hr'
  case real =>
    intro y hy
    obtain ⟨z, hz, rfl⟩ := hof y hy
    rw [Held.take_ref]
    exact hl.real z hz
  case data =>
    intro y hy
    obtain ⟨z, hz, rfl⟩ := hof y hy
    have hd := hl.data z hz
    rw [Held.take_ref, Held.take_slot, Held.take_seq, Held.take_side]
    by_cases he : z.ref = x.ref
    · have hs := (hl.slot_inj hz hx).mpr he
      simp only [Order.data, Prod.mk.injEq] at hd
      obtain ⟨h1, h2, h3, h4⟩ := hd
      rw [hs] at h1 h2 h3 h4
      rw [hs, hc.ord, Held.take, if_pos he]
      simp only [Order.data, h1, h2, h3, h4]
    · rw [hc.others _ fun hs => he ((hl.slot_inj hz hx).mp hs), Held.take, if_neg he]
      exact hd
  case named =>
    intro y hy
    obtain ⟨z, hz, rfl⟩ := hof y hy
    rw [Held.take_ref, Held.take_slot, hc.ids]
    exact hl.named z hz
  case known =>
    intro i hi h
    rw [hc.ids] at h
    obtain ⟨z, hz, he⟩ := hl.known i hi h
    exact ⟨_, List.mem_map_of_mem hz, by rw [Held.take_ref, he]⟩
  case distinct =>
    rw [List.map_map]
    simpa only [Function.comp_def, Held.take_ref] using hl.distinct
  case stamps =>
    rw [List.pairwise_map]
    simpa only [Held.take_seq] using hl.stamps
  case below =>
    intro y hy
    obtain ⟨z, hz, rfl⟩ := hof y hy
    rw [Held.take_seq]
    exact hl.below z hz
  case next =>
    rw [hc.nextSeq]
    exact hl.next

theorem Lined.add (hl : Lined b G k) (href : ref ≠ OpenHashMap.kEmpty)
    (hnew : ref ∉ (line G).refs) (hk : k + 1 < 2 ^ 32) (h : b.add ref s p qty = some b')
    (hrej : b'.rejected = b.rejected) :
    ∃ G' k', Lined b' G' k' ∧ k' ≤ k + 1 ∧ line G' = (line G).add ref s p qty := by
  by_cases hqty : qty = 0
  · rw [hqty, add_zero] at h
    obtain rfl := Option.some.inj h
    exact ⟨G, k, hl, Nat.le_succ k, by rw [Line.add, if_pos hqty]⟩
  · rcases hl.rep.add_cases href s p hqty with ⟨-, h'⟩ | ⟨-, h'⟩ | ⟨m, b1, h', hr', hm, hp⟩
    · rw [h'] at h
      cases h
    · rw [h'] at h
      obtain rfl := Option.some.inj h
      exact absurd hrej (Nat.succ_ne_self _)
    · rw [h'] at h
      obtain rfl := Option.some.inj h
      have hnew' : ∀ x ∈ G, x.ref ≠ ref := fun x hx he => hnew (mem_refs_line.mpr ⟨x, hx, he⟩)
      refine ⟨_, k + 1, hl.push href hnew' hk hm hp hrej hr', le_rfl, ?_⟩
      rw [Line.add, if_neg hqty, line, List.map_append]
      rfl

theorem Lined.retire (hl : Lined b G k) {m : ℕ} {l r : List ℕ} (hq : slotsOf G s p = l ++ m :: r)
    (hid : (b.ord m).id = ref) (hp : Pulled b b' ref s p (l ++ r = []))
    (hr' : Rep b' (set2 (slotsOf G) s p (l ++ r))) :
    ∃ e G', (line G).find ref = some e ∧ e.side = s ∧ Lined b' G' k ∧ line G' = (line G).drop ref := by
  obtain ⟨x, hx, rfl, rfl, rfl, rfl, -⟩ := hl.entry_of hid (by simp [hq] : m ∈ slotsOf G s p)
  exact ⟨_, _, hl.find_some hx, rfl, hl.pull hx hq hp hr', line_drop G _⟩

theorem Lined.reduce (hl : Lined b G k) (href : ref ≠ OpenHashMap.kEmpty)
    (h : b.reduce ref qty = some b') :
    ∃ G', Lined b' G' k ∧ line G' = (line G).reduce ref qty := by
  rcases hl.rep.reduce_cases href qty with ⟨hlk, h'⟩ | ⟨m, s, p, l, r, hlk, hq, hid, -, hcase⟩
  · rw [h'] at h
    obtain rfl := Option.some.inj h
    exact ⟨G, hl, by rw [Line.reduce, (hl.find_none hlk).1]⟩
  · obtain ⟨x, hx, rfl, rfl, rfl, rfl, hxq⟩ := hl.entry_of hid (by simp [hq] : m ∈ slotsOf G s p)
    have hfind := hl.find_some hx
    rcases hcase with ⟨hle, b1, h', hr', hp⟩ | ⟨hlt, b1, h', hr', hc⟩
    · rw [h'] at h
      obtain rfl := Option.some.inj h
      refine ⟨_, hl.pull hx hq hp hr', ?_⟩
      rw [line_drop, Line.reduce, hfind]
      rw [hxq] at hle
      exact (if_neg hle).symm
    · rw [h'] at h
      obtain rfl := Option.some.inj h
      refine ⟨_, hl.cut hx hc hr', ?_⟩
      rw [line_take, Line.reduce, hfind]
      rw [hxq] at hlt
      exact (if_pos hlt).symm

theorem drop_absent {L : Line} (h : ref ∉ L.refs) : L.drop ref = L := by
  apply List.filter_eq_self.mpr
  intro e he
  apply decide_eq_true
  intro hr
  exact h (hr ▸ List.mem_map_of_mem he)

theorem Lined.empty (hr : Rep b noQueues)
    (hnone : ∀ ref ≠ OpenHashMap.kEmpty, OpenHashMap.lookup b.ids ref = none)
    (hnext : b.nextSeq = UInt32.ofNat (k + 1)) : Lined b [] k := by
  have hno : ∀ x ∈ ([] : List Held), False := fun x hx => List.not_mem_nil hx
  exact ⟨hr, fun x hx => (hno x hx).elim, fun x hx => (hno x hx).elim,
    fun x hx => (hno x hx).elim, fun ref href hlk => absurd (hnone ref href) hlk, List.nodup_nil,
    List.Pairwise.nil, fun x hx => (hno x hx).elim, hnext⟩

theorem Lined.step (hl : Lined b G k) (op : Op)
    (hrefs : ∀ ref ∈ op.refs, ref ≠ OpenHashMap.kEmpty) (hfresh : (line G).fresh op)
    (hk : k + (if op.inserts then 1 else 0) < 2 ^ 32) (h : b.step op = some b')
    (hrej : b'.rejected = b.rejected) :
    ∃ G' k', Lined b' G' k' ∧ k' ≤ k + (if op.inserts then 1 else 0) ∧
      line G' = (line G).step op := by
  cases op with
  | add ref s p qty => exact hl.add (hrefs ref (by simp [Op.refs])) hfresh hk h hrej
  | execute ref qty =>
    obtain ⟨G', hl', hG'⟩ := hl.reduce (hrefs ref (by simp [Op.refs])) h
    exact ⟨G', k, hl', Nat.le_add_right .., hG'⟩
  | cancel ref qty =>
    obtain ⟨G', hl', hG'⟩ := hl.reduce (hrefs ref (by simp [Op.refs])) h
    exact ⟨G', k, hl', Nat.le_add_right .., hG'⟩
  | remove ref =>
    rcases hl.rep.remove_cases (hrefs ref (by simp [Op.refs])) with
      ⟨hlk, h'⟩ | ⟨m, s, p, l, r, b1, -, hq, hid, -, h', hr', hp⟩
    · rw [HybridBook.step, h'] at h
      obtain rfl := Option.some.inj h
      exact ⟨G, k, hl, Nat.le_add_right .., (drop_absent (hl.find_none hlk).2).symm⟩
    · rw [HybridBook.step, h'] at h
      obtain rfl := Option.some.inj h
      obtain ⟨-, G', -, -, hl', hG'⟩ := hl.retire hq hid hp hr'
      exact ⟨G', k, hl', Nat.le_add_right .., hG'⟩
  | replace ref new p' qty =>
    have hnew := hrefs new (by simp [Op.refs])
    rcases hl.rep.replace_cases (hrefs ref (by simp [Op.refs])) new p' qty with
      ⟨hlk, h'⟩ | ⟨m, s, p, l, r, b1, -, hq, hid, -, -, hr1, hp, h'⟩
    · rw [HybridBook.step, h'] at h
      obtain rfl := Option.some.inj h
      refine ⟨G, k, hl, Nat.le_add_right .., ?_⟩
      rw [Line.step, Line.replace, (hl.find_none hlk).1]
    · rw [HybridBook.step, h'] at h
      obtain ⟨e, G1, hfind, hside, hl1, hG1⟩ := hl.retire hq hid hp hr1
      have hfresh1 : new ∉ (line G1).refs := by
        rw [hG1]
        exact hfresh
      obtain ⟨G', k', hl', hk', hG'⟩ :=
        hl1.add hnew hfresh1 hk h (hrej.trans hp.rejected.symm)
      refine ⟨G', k', hl', hk', ?_⟩
      rw [hG', hG1, Line.step, Line.replace, hfind, ← hside]
  | clear =>
    obtain rfl := Option.some.inj h
    obtain ⟨hr', -, hnone⟩ := hl.rep.clear
    exact ⟨[], k, Lined.empty hr' hnone hl.next, Nat.le_add_right .., rfl⟩

theorem Lined.run (hl : Lined b G k) (ops : List Op)
    (hrefs : ∀ op ∈ ops, ∀ ref ∈ op.refs, ref ≠ OpenHashMap.kEmpty) (hfresh : (line G).freshRun ops)
    (hk : k + (ops.filter Op.inserts).length < 2 ^ 32) (h : Design.run b ops = some b')
    (hrej : b'.rejected = b.rejected) :
    ∃ G' k', Lined b' G' k' ∧ line G' = (line G).replay ops := by
  induction ops generalizing b G k with
  | nil =>
    obtain rfl := Option.some.inj h
    exact ⟨G, k, hl, rfl⟩
  | cons op ops ih =>
    obtain ⟨b1, h1, h'⟩ := Option.bind_eq_some_iff.mp h
    have hop := hrefs op (List.mem_cons_self ..)
    have hops : ∀ op ∈ ops, ∀ ref ∈ op.refs, ref ≠ OpenHashMap.kEmpty :=
      fun op hm => hrefs op (List.mem_cons_of_mem _ hm)
    obtain ⟨hle, Q1, hr1, -⟩ := hl.rep.step_sim op hop h1
    have hle' := (hr1.run_rep ops hops h').1
    have hlen : (List.filter Op.inserts (op :: ops)).length =
        (if op.inserts then 1 else 0) + (ops.filter Op.inserts).length := by
      rw [List.filter_cons]
      split
      · rw [List.length_cons, Nat.add_comm]
      · rw [Nat.zero_add]
    obtain ⟨G1, k1, hl1, hk1, hG1⟩ := hl.step op hop hfresh.1 (by omega) h1 (by omega)
    obtain ⟨G', k', hl', hG'⟩ := ih hl1 hops (hG1 ▸ hfresh.2) (by omega) h' (by omega)
    exact ⟨G', k', hl', by rw [hG', hG1]; rfl⟩

theorem Lined.make {lo hi : Price} {maxOrders maxLevels : ℕ}
    (h : HybridBook.make lo hi maxOrders maxLevels = some b) : Lined b [] 0 := by
  obtain ⟨hr, -, -, hseq, -, -, hnone⟩ := Rep.make h
  exact Lined.empty hr hnone hseq

end Hotpath.Book.HybridBook
