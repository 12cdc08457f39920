import Hotpath.Support.Stamped
import Hotpath.Book.HybridRefine
import Hotpath.Book.HybridBest

/-!
# Queue order in the hybrid book

Walking a level from its head gives its orders in the order of their insertion
stamps. An addition goes to the back with the next stamp, a departure takes its
order out, a partial reduction keeps its place.
-/

namespace Hotpath.Book.HybridBook
open Hotpath.Support

/-- What a resting order is, its links and its level apart. -/
structure Resting where
  id : OrderId
  seq : UInt32
  qty : Qty
  deriving DecidableEq, Repr

def Order.resting (o : Order) : Resting := ⟨o.id, o.seq, o.qty⟩

def Resting.stamp (o : Resting) : ℕ := o.seq.toNat
def Resting.shares (o : Resting) : ℕ := o.qty.toNat

/-- The orders from slot `i` on by `next`; there are no more than the pool holds. -/
def walk (b : HybridBook) : ℕ → ℤ → List Resting
  | 0, _ => []
  | n + 1, i => if i < 0 then [] else
    (b.ord i.toNat).resting :: walk b n (b.ord i.toNat).next

/-- The queue of a side at a price, front first. -/
def fifo (b : HybridBook) (s : Side) (p : Price) : List Resting :=
  match b.levelFor s p with
  | some (some level) => b.walk b.orders.length level.head
  | _ => []

/-- The ref names an order of the book. -/
def isLive (b : HybridBook) (ref : OrderId) : Bool :=
  match b.ids.find OpenHashMap.hash ref with
  | some (some _) => true
  | _ => false

def queueOf (b : HybridBook) (Q : Queues) (s : Side) (p : Price) : List Resting :=
  (Q s p).map fun n => (b.ord n).resting

variable {b b' : HybridBook} {Q : Queues} {s : Side} {p : Price} {ref : OrderId} {qty : Qty}
  {n : ℕ} {l r : List ℕ}

/-! ### The walk -/

theorem walk_eq {pv : ℕ → ℤ} {a : ℤ} {xs : List ℕ} {k : ℕ}
    (h : Seg (fun o => (b.ord o).next) pv a xs (-1)) (hk : xs.length ≤ k) :
    b.walk k (first xs (-1)) = xs.map fun n => (b.ord n).resting := by
  induction xs generalizing a k with
  | nil => cases k <;> rfl
  | cons x xs ih =>
    cases k with
    | zero => simp at hk
    | succ k =>
      obtain ⟨-, hnext, hrest⟩ := h
      have hneg : ¬(x : ℤ) < 0 := by omega
      have hnext' : (b.ord x).next = first xs (-1) := hnext
      show b.walk (k + 1) (x : ℤ) = _
      rw [walk, if_neg hneg, Int.toNat_natCast, hnext', ih hrest (by simpa using hk)]
      rfl

theorem Rep.queue_length (hr : Rep b Q) (s : Side) (p : Price) :
    (Q s p).length ≤ b.orders.length := by
  have hsub : (Q s p).toFinset ⊆ Finset.range b.orders.length := by
    intro o ho
    rw [List.mem_toFinset] at ho
    exact Finset.mem_range.mpr (hr.order s p o ho).inPool
  have hcard := Finset.card_le_card hsub
  rwa [List.toFinset_card_of_nodup (hr.nodup s p), Finset.card_range] at hcard

theorem Rep.fifo_eq (hr : Rep b Q) (s : Side) (p : Price) : b.fifo s p = queueOf b Q s p := by
  rcases hr.levelFor_cases s p with ⟨hq, hlv⟩ | ⟨n, -, hlv, hl⟩
  · simp only [fifo, hlv, queueOf, hq, List.map_nil]
  · simp only [fifo, hlv, queueOf]
    rw [hl.chain.head]
    exact walk_eq hl.chain.seg (hr.queue_length s p)

/-! ### What a change does to the queues -/

theorem resting_of_data {o o' : Order} (h : o'.data = o.data) : o'.resting = o.resting := by
  simp only [Order.data, Prod.mk.injEq] at h
  obtain ⟨h1, h2, h3, -⟩ := h
  rw [Order.resting, Order.resting, h1, h2, h3]

theorem Pushed.queues (hp : Pushed b b' n ref s p qty) (hfresh : ∀ s' p', n ∉ Q s' p') :
    queueOf b' (set2 Q s p (Q s p ++ [n])) =
      set2 (queueOf b Q) s p (queueOf b Q s p ++ [⟨ref, b.nextSeq, qty⟩]) := by
  have hold : ∀ s' p', (Q s' p').map (fun o => (b'.ord o).resting) = queueOf b Q s' p' :=
    fun s' p' => List.map_congr_left fun o ho =>
      resting_of_data (hp.others o fun he => hfresh s' p' (he ▸ ho))
  have hnew : (b'.ord n).resting = ⟨ref, b.nextSeq, qty⟩ := by
    have hd := hp.data
    simp only [Order.data, Prod.mk.injEq] at hd
    rw [Order.resting, hd.1, hd.2.1, hd.2.2.1]
  funext s' p'
  by_cases hsp : s' = s ∧ p' = p
  · obtain ⟨rfl, rfl⟩ := hsp
    rw [queueOf, set2_same, set2_same, List.map_append, hold]
    simp only [List.map_cons, List.map_nil, hnew]
  · rw [queueOf, set2_other hsp, set2_other hsp, hold]

theorem Pulled.queues (hp : Pulled b b' ref s p (l ++ r = [])) :
    queueOf b' (set2 Q s p (l ++ r)) = set2 (queueOf b Q) s p
      (l.map (fun o => (b.ord o).resting) ++ r.map fun o => (b.ord o).resting) := by
  have hold : (fun o => (b'.ord o).resting) = fun o => (b.ord o).resting :=
    funext fun o => resting_of_data (hp.data o)
  funext s' p'
  by_cases hsp : s' = s ∧ p' = p
  · obtain ⟨rfl, rfl⟩ := hsp
    rw [queueOf, set2_same, set2_same, hold, List.map_append]
  · rw [queueOf, set2_other hsp, set2_other hsp, hold, queueOf]

theorem Cut.queues {take : Qty} (hc : Cut b b' n take) (hr : Rep b Q) (hq : Q s p = l ++ n :: r) :
    queueOf b' Q = set2 (queueOf b Q) s p (l.map (fun o => (b.ord o).resting) ++
      ⟨(b.ord n).id, (b.ord n).seq, (b.ord n).qty - take⟩ ::
        r.map fun o => (b.ord o).resting) := by
  have hnd := hr.nodup s p
  rw [hq] at hnd
  have hmem : n ∈ Q s p := by simp [hq]
  have hl : l.map (fun o => (b'.ord o).resting) = l.map fun o => (b.ord o).resting :=
    List.map_congr_left fun o ho => by
      rw [hc.others o (ne_of_nodup hnd (List.mem_append_left _ ho))]
  have hr' : r.map (fun o => (b'.ord o).resting) = r.map fun o => (b.ord o).resting :=
    List.map_congr_left fun o ho => by
      rw [hc.others o (ne_of_nodup hnd (List.mem_append_right _ ho))]
  funext s' p'
  by_cases hsp : s' = s ∧ p' = p
  · obtain ⟨rfl, rfl⟩ := hsp
    rw [queueOf, set2_same, hq, List.map_append, List.map_cons, hl, hr', hc.ord]
    rfl
  · rw [set2_other hsp]
    exact List.map_congr_left fun o ho => by
      rw [hc.others o fun he => hsp (hr.queue_unique hmem (he ▸ ho))]

/-! ### The ledger of a run -/

/-- What holds of the queues after at most `n` insertions under the refs `used`. -/
structure Ledger (b : HybridBook) (Q : Queues) (used : List OrderId) (n : ℕ) : Prop where
  rep : Rep b Q
  stamps : ∀ s p, Increasing Resting.stamp (queueOf b Q s p)
  below : ∀ s p, ∀ o ∈ queueOf b Q s p, o.stamp < b.nextSeq.toNat
  next : b.nextSeq.toNat ≤ n + 1
  real : ∀ k ∈ used, k ≠ OpenHashMap.kEmpty
  known : ∀ k ≠ OpenHashMap.kEmpty, OpenHashMap.lookup b.ids k ≠ none → k ∈ used
  named : b.rejected = 0 → ∀ s p, ∀ m ∈ Q s p, (b.ord m).id ≠ OpenHashMap.kEmpty ∧
    OpenHashMap.lookup b.ids (b.ord m).id = some (m : ℤ)

variable {used : List OrderId} {k : ℕ}

theorem Ledger.isLive_eq (hl : Ledger b Q used k) (href : ref ≠ OpenHashMap.kEmpty) :
    b.isLive ref = (OpenHashMap.lookup b.ids ref).isSome := by
  rw [isLive, hl.rep.table.find_spec href]
  cases OpenHashMap.lookup b.ids ref <;> rfl

theorem mem_queueOf {o : Resting} (h : o ∈ queueOf b Q s p) :
    ∃ m ∈ Q s p, (b.ord m).resting = o := List.mem_map.mp h

/-- A live ref names the one slot that carries it. -/
theorem Ledger.slot_unique (hl : Ledger b Q used k) (h0 : b.rejected = 0)
    (hlk : OpenHashMap.lookup b.ids ref = some (n : ℤ)) {m : ℕ} (hm : m ∈ Q s p)
    (hid : (b.ord m).id = ref) : m = n := by
  have h := (hl.named h0 s p m hm).2
  rw [hid, hlk] at h
  exact_mod_cast (Option.some.inj h).symm

theorem Ledger.names_distinct (hl : Ledger b Q used k) (h0 : b.rejected = 0) (s : Side)
    (p : Price) : (queueOf b Q s p).Pairwise fun x y => x.id ≠ y.id := by
  rw [queueOf, List.pairwise_map]
  refine List.Pairwise.imp_of_mem ?_ (hl.rep.nodup s p)
  intro x y hx hy hne heq
  exact hne (hl.slot_unique h0 (hl.named h0 s p y hy).2 hx heq)

theorem Ledger.push (hl : Ledger b Q used k) (href : ref ≠ OpenHashMap.kEmpty) (hnew : ref ∉ used)
    (hk : k + 2 < 2 ^ 32) (hfresh : ∀ s' p', n ∉ Q s' p') (hp : Pushed b b' n ref s p qty)
    (hr' : Rep b' (set2 Q s p (Q s p ++ [n]))) :
    Ledger b' (set2 Q s p (Q s p ++ [n])) (ref :: used) (k + 1) ∧
      b'.nextSeq.toNat = b.nextSeq.toNat + 1 ∧
      (b'.rejected = 0 → b.rejected = 0 ∧
        ∀ i ≠ OpenHashMap.kEmpty, OpenHashMap.lookup b'.ids i =
          if i = ref then some (n : ℤ) else OpenHashMap.lookup b.ids i) := by
  have hseq : b'.nextSeq.toNat = b.nextSeq.toNat + 1 := by
    have := hl.next
    rw [hp.nextSeq, UInt32.toNat_add]
    exact Nat.mod_eq_of_lt (show b.nextSeq.toNat + 1 < 2 ^ 32 by omega)
  have htable : ∀ i ≠ OpenHashMap.kEmpty, OpenHashMap.lookup b'.ids i ≠ none →
      i = ref ∨ OpenHashMap.lookup b.ids i ≠ none := by
    intro i hi h
    by_cases hir : i = ref
    · exact Or.inl hir
    · right
      rcases hp.table_cases hl.rep.table href with ⟨-, ht, -⟩ | ⟨-, -, hlk, -⟩
      · rwa [ht] at h
      · rwa [hlk i hi, if_neg hir] at h
  have hlive : b'.rejected = 0 → b.rejected = 0 ∧
      ∀ i ≠ OpenHashMap.kEmpty, OpenHashMap.lookup b'.ids i =
        if i = ref then some (n : ℤ) else OpenHashMap.lookup b.ids i := by
    intro h0
    rcases hp.table_cases hl.rep.table href with ⟨hrej, -⟩ | ⟨hrej, -, hlk, -⟩
    · omega
    · exact ⟨by omega, hlk⟩
  have hq := hp.queues hfresh
  refine ⟨⟨hr', fun s' p' => ?_, fun s' p' o ho => ?_, ?_, ?_, fun i hi h => ?_,
    fun h0 s' p' m hm => ?_⟩, hseq, hlive⟩
  · rw [hq]
    by_cases hsp : s' = s ∧ p' = p
    · rw [hsp.1, hsp.2, set2_same]
      exact (hl.stamps s p).push fun y hy => hl.below s p y hy
    · rw [set2_other hsp]
      exact hl.stamps s' p'
  · rw [hseq]
    rw [hq] at ho
    by_cases hsp : s' = s ∧ p' = p
    · rw [hsp.1, hsp.2, set2_same] at ho
      rcases List.mem_append.mp ho with ho | ho
      · exact Nat.lt_succ_of_lt (hl.below s p o ho)
      · rw [List.mem_singleton.mp ho]
        exact Nat.lt_succ_self _
    · rw [set2_other hsp] at ho
      exact Nat.lt_succ_of_lt (hl.below s' p' o ho)
  · have := hl.next
    omega
  · intro i hi
    cases hi with
    | head => exact href
    | tail _ hi => exact hl.real i hi
  · rcases htable i hi h with rfl | h
    · exact List.mem_cons_self ..
    · exact List.mem_cons_of_mem _ (hl.known i hi h)
  · obtain ⟨hb0, hlk⟩ := hlive h0
    have hmem : (m = n ∧ s' = s ∧ p' = p) ∨ m ∈ Q s' p' := by
      by_cases hsp : s' = s ∧ p' = p
      · rw [hsp.1, hsp.2, set2_same] at hm
        rcases List.mem_append.mp hm with h | h
        · exact Or.inr (by rwa [hsp.1, hsp.2])
        · exact Or.inl ⟨List.mem_singleton.mp h, hsp.1, hsp.2⟩
      · rw [set2_other hsp] at hm
        exact Or.inr hm
    rcases hmem with ⟨rfl, -, -⟩ | hmem
    · have hid : (b'.ord m).id = ref := congrArg Prod.fst hp.data
      rw [hid, hlk ref href, if_pos rfl]
      exact ⟨href, rfl⟩
    · have hid : (b'.ord m).id = (b.ord m).id :=
        congrArg Prod.fst (hp.others m fun he => hfresh s' p' (he ▸ hmem))
      obtain ⟨h1, h2⟩ := hl.named hb0 s' p' m hmem
      have hne : (b.ord m).id ≠ ref := by
        intro he
        refine hnew (hl.known ref href ?_)
        rw [← he, h2]
        simp
      rw [hid, hlk _ h1, if_neg hne]
      exact ⟨h1, h2⟩

theorem Ledger.pull (hl : Ledger b Q used k) (hq : Q s p = l ++ n :: r)
    (hlk : OpenHashMap.lookup b.ids ref = some (n : ℤ)) (hp : Pulled b b' ref s p (l ++ r = []))
    (hr' : Rep b' (set2 Q s p (l ++ r))) : Ledger b' (set2 Q s p (l ++ r)) used k := by
  have hqs := hp.queues (Q := Q)
  have hold : queueOf b Q s p = l.map (fun o => (b.ord o).resting) ++ (b.ord n).resting ::
      r.map fun o => (b.ord o).resting := by
    rw [queueOf, hq, List.map_append, List.map_cons]
  have hsub : ∀ s' p', (queueOf b' (set2 Q s p (l ++ r)) s' p').Sublist (queueOf b Q s' p') := by
    intro s' p'
    rw [hqs]
    by_cases hsp : s' = s ∧ p' = p
    · rw [hsp.1, hsp.2, set2_same, hold]
      exact List.Sublist.append_left (List.sublist_cons_self _ _) _
    · rw [set2_other hsp]
  refine ⟨hr', fun s' p' => List.Pairwise.sublist (hsub s' p') (hl.stamps s' p'),
    fun s' p' o ho => ?_, by rw [hp.nextSeq]; exact hl.next, hl.real, fun i hi h => ?_,
    fun h0 s' p' m hm => ?_⟩
  · rw [hp.nextSeq]
    exact hl.below s' p' o ((hsub s' p').subset ho)
  · rw [hp.ids i hi] at h
    refine hl.known i hi fun hnone => h ?_
    rw [hnone, ite_self]
  · have hb0 : b.rejected = 0 := by rw [← hp.rejected]; exact h0
    have hmem : m ∈ Q s' p' ∧ m ≠ n := by
      by_cases hsp : s' = s ∧ p' = p
      · have hnd := hl.rep.nodup s p
        rw [hq] at hnd
        obtain ⟨rfl, rfl⟩ := hsp
        rw [set2_same] at hm
        have hne := ne_of_nodup hnd hm
        rw [hq]
        rcases List.mem_append.mp hm with h | h
        · exact ⟨List.mem_append_left _ h, hne⟩
        · exact ⟨List.mem_append_right _ (List.mem_cons_of_mem _ h), hne⟩
      · rw [set2_other hsp] at hm
        refine ⟨hm, fun he => hsp (hl.rep.queue_unique ?_ (he ▸ hm))⟩
        rw [hq]
        simp
    have hid : (b'.ord m).id = (b.ord m).id := congrArg Prod.fst (hp.data m)
    obtain ⟨h1, h2⟩ := hl.named hb0 s' p' m hmem.1
    rw [hid, hp.ids _ h1, if_neg fun he => hmem.2 (hl.slot_unique hb0 hlk hmem.1 he)]
    exact ⟨h1, h2⟩

theorem Ledger.cut {take : Qty} (hl : Ledger b Q used k) (hc : Cut b b' n take)
    (hr' : Rep b' Q) : Ledger b' Q used k := by
  have hids : ∀ m, (b'.ord m).id = (b.ord m).id ∧ (b'.ord m).seq = (b.ord m).seq := by
    intro m
    by_cases hm : m = n
    · rw [hm, hc.ord]
      exact ⟨rfl, rfl⟩
    · rw [hc.others m hm]
      exact ⟨rfl, rfl⟩
  refine ⟨hr', fun s' p' => ?_, fun s' p' o ho => ?_, by rw [hc.nextSeq]; exact hl.next, hl.real,
    by rw [hc.ids]; exact hl.known, fun h0 s' p' m hm => ?_⟩
  · have h := hl.stamps s' p'
    rw [Increasing, queueOf, List.pairwise_map] at h ⊢
    refine h.imp fun {x y} hxy => ?_
    simpa only [Resting.stamp, Order.resting, (hids _).2] using hxy
  · obtain ⟨m, hm, rfl⟩ := mem_queueOf ho
    rw [hc.nextSeq]
    have hlt := hl.below s' p' _ (List.mem_map_of_mem hm)
    simpa only [Resting.stamp, Order.resting, (hids _).2] using hlt
  · rw [(hids m).1, hc.ids]
    exact hl.named (by rw [← hc.rejected]; exact h0) s' p' m hm

theorem Ledger.mono (hl : Ledger b Q used k) {used' : List OrderId} {k' : ℕ} (hk : k ≤ k')
    (hu : ∀ i ∈ used, i ∈ used') (hr : ∀ i ∈ used', i ≠ OpenHashMap.kEmpty) :
    Ledger b Q used' k' :=
  ⟨hl.rep, hl.stamps, hl.below, hl.next.trans (by omega), hr,
    fun i hi h => hu i (hl.known i hi h), hl.named⟩

theorem Ledger.reject (hl : Ledger b Q used k) (m : ℕ) :
    Ledger { b with rejected := m + 1 } Q used k :=
  ⟨hl.rep.reject _, hl.stamps, hl.below, hl.next, hl.real, hl.known, fun h => by cases h⟩

theorem Ledger.setHint (hl : Ledger b Q used k) (s : Side) {h : ℤ} (hf : HintFor b s h) :
    Ledger (b.setHint s h) Q used k :=
  ⟨hl.rep.setHint s hf, hl.stamps, hl.below, hl.next, hl.real, hl.known, hl.named⟩

end Hotpath.Book.HybridBook
