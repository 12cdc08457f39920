import Hotpath.Ipc.SpscInvariant

/-!
# The steps of the two sides

Every access of `try_push` and `try_pop` keeps the invariant.
-/

namespace Hotpath.Ipc.SpscRing

open Hotpath.Support

variable {T : Type} {fresh : Prop} {c : Caching} {r r' : SpscRing T} {k tail head i : ℕ} {v : T}
variable {view : View Cell} {p : Side (PushAt T)} {q : Side (PopAt T)} {m : Memory (Cell.Value T)}

/-- The producer knows of its own store into a slot. -/
theorem Kept.view_slot {cap popped taken : ℕ} {written : List T} {w : View Cell}
    (h : Kept cap m written written.length popped taken)
    (hw : PushView cap w written.length written.length head) :
    PushView cap (w.saw (.slot (written.length % cap))
      ((m.stores (.slot (written.length % cap))).length + 1)) (written.length + 1)
      written.length head := by
  have hview := hw.mono (View.le_saw w (.slot (written.length % cap))
    ((m.stores (.slot (written.length % cap))).length + 1))
  refine ⟨hview.published, hview.released, ?_, hview.reads⟩
  intro j
  rw [laps_succ]
  by_cases hj : written.length % cap = j
  · have hlast := lt_raise w.stores (.slot j) (m.stores (.slot j)).length
    obtain rfl := hj
    rw [if_pos rfl, ← h.slots]
    exact hlast
  · rw [if_neg hj]
    exact hview.slots j

namespace Sound

/-! ### Comparisons of indices -/

theorem full_iff (h : Sound fresh c r) (hle : head ≤ r.popped.length)
    (hroom : r.pushed.length < head + (r.mask + 1)) :
    (r.pushed.length % (r.mask + 1) + 1) &&& r.mask = head % (r.mask + 1) ↔
      r.pushed.length + 1 = head + (r.mask + 1) := by
  have hpopped := h.popped_le
  have hnext : head ≤ r.pushed.length + 1 := hle.trans (hpopped.trans (Nat.le_succ _))
  have hlap := slot_eq_iff hnext hroom
  rw [h.and_mask, Nat.mod_add_mod, hlap]
  omega

theorem empty_iff (hle : head ≤ tail) (hlap : tail < head + (r.mask + 1)) :
    head % (r.mask + 1) = tail % (r.mask + 1) ↔ head = tail := by
  have hiff := slot_eq_iff hle hlap.le
  rw [eq_comm, hiff]
  omega

/-- What follows when the producer compares with an index that it has just loaded. -/
theorem compareFull (h : Sound fresh c r)
    (hview : PushView (r.mask + 1) p.view r.pushed.length r.pushed.length head)
    (hle : head ≤ r.popped.length) (hroom : r.pushed.length < head + (r.mask + 1))
    (hcached : c = .cached → p.cached = head % (r.mask + 1))
    (hunread : fresh → r.pushed.length = head + p.unread) :
    Pushes fresh c (r.mask + 1)
      { p with at_ := r.compareFull v (r.pushed.length % (r.mask + 1)) (head % (r.mask + 1)) }
      r.pushed.length r.popped.length head := by
  have hiff := h.full_iff hle hroom
  unfold SpscRing.compareFull
  by_cases hfull : r.pushed.length + 1 = head + (r.mask + 1)
  · rw [if_pos (hiff.mpr hfull)]
    constructor
    case view => exact hview
    case le => exact hle
    case room => exact hroom
    case cached => exact fun hc => ⟨head, le_rfl, hcached hc, hroom⟩
    case place =>
      intro hfresh _
      have hunread := hunread hfresh
      show p.unread + 1 = r.mask + 1
      omega
  · have hroom' : r.pushed.length + 1 < head + (r.mask + 1) := by omega
    rw [if_neg (mt hiff.mp hfull)]
    constructor
    case view => exact hview
    case le => exact hle
    case room => exact hroom'
    case cached => exact fun hc => ⟨head, le_rfl, hcached hc, hroom'⟩
    case place => rfl

theorem compareEmpty (h : Sound fresh c r)
    (hview : PopView (r.mask + 1) q.view r.popped.length r.popped.length tail)
    (hle : tail ≤ r.pushed.length) (hsome : r.popped.length ≤ tail)
    (hcached : c = .cached → q.cached = tail % (r.mask + 1))
    (hunread : fresh → tail = r.popped.length + q.unread) :
    Pops fresh c (r.mask + 1)
      { q with at_ := SpscRing.compareEmpty (r.popped.length % (r.mask + 1)) (tail % (r.mask + 1)) }
      r.pushed r.popped.length tail := by
  have hlap := h.unread_lt
  have hiff := empty_iff (r := r) hsome (hle.trans_lt hlap)
  unfold SpscRing.compareEmpty
  by_cases hempty : r.popped.length = tail
  · rw [if_pos (hiff.mpr hempty)]
    constructor
    case view => exact hview
    case le => exact hle
    case some => exact hsome
    case cached => exact fun hc => ⟨tail, le_rfl, hcached hc, hsome⟩
    case place =>
      intro hfresh _
      have hunread := hunread hfresh
      show q.unread = 0
      omega
  · have hsome' : r.popped.length + 1 ≤ tail := by omega
    rw [if_neg (mt hiff.mp hempty)]
    constructor
    case view => exact hview
    case le => exact hle
    case some => exact hsome'
    case cached => exact fun hc => ⟨tail, le_rfl, hcached hc, hsome'⟩
    case place => rfl

/-! ### Steps that leave the memory alone -/

theorem producer (h : Sound fresh c r) (hold : r.producer.at_.inHand = [])
    (hnew : p.at_.inHand = [])
    (hp : Pushes fresh c (r.mask + 1) p r.pushed.length r.popped.length head) :
    Sound fresh c { r with producer := p } := by
  have hkept := h.kept
  rw [hold, ← hnew] at hkept
  exact { h with kept := hkept, pushes := ⟨head, hp⟩ }

theorem consumer (h : Sound fresh c r) (hold : r.consumer.at_.loaded = 0)
    (hnew : q.at_.loaded = 0)
    (hq : Pops fresh c (r.mask + 1) q r.pushed r.popped.length tail) :
    Sound fresh c { r with consumer := q } := by
  have hkept := h.kept
  rw [hold, ← hnew] at hkept
  exact { h with kept := hkept, pops := ⟨tail, hq⟩ }

theorem compareFull_inHand : (r.compareFull v tail head).inHand = [] := by
  unfold SpscRing.compareFull
  split <;> rfl

theorem compareEmpty_loaded : (SpscRing.compareEmpty head tail : PopAt T).loaded = 0 := by
  unfold SpscRing.compareEmpty
  split <;> rfl

/-! ### The producer -/

/-- What follows when the producer compares with the index it has kept. -/
theorem compareCached (h : Sound fresh .cached r)
    (hp : Pushes fresh .cached (r.mask + 1) p r.pushed.length r.popped.length head)
    (hat : p.at_ = .readCached v tail) :
    Pushes fresh .cached (r.mask + 1)
      { p with at_ := if (tail + 1) &&& r.mask = p.cached then .loadHead v tail
        else .storeSlot v tail }
      r.pushed.length r.popped.length head := by
  obtain ⟨at_, view, cached, unread⟩ := p
  obtain rfl : at_ = .readCached v tail := hat
  obtain ⟨-, htail⟩ := hp.place
  obtain ⟨hd, hle, hcached, hroom⟩ := hp.cached rfl
  obtain rfl : tail = r.pushed.length % (r.mask + 1) := htail
  obtain rfl : cached = hd % (r.mask + 1) := hcached
  have hiff := h.full_iff (hle.trans hp.le) hroom
  show Pushes fresh .cached (r.mask + 1)
    ⟨if _ &&& r.mask = hd % (r.mask + 1) then _ else _, _, _, _⟩ _ _ _
  by_cases hfull : r.pushed.length + 1 = hd + (r.mask + 1)
  · rw [if_pos (hiff.mpr hfull)]
    exact { hp with place := rfl }
  · have hfree : r.pushed.length + 1 < hd + (r.mask + 1) := by
      have hroom : r.pushed.length < hd + (r.mask + 1) := hroom
      omega
    rw [if_neg (mt hiff.mp hfull)]
    constructor
    case view => exact hp.view
    case le => exact hp.le
    case room => exact hfree.trans_le (Nat.add_le_add_right hle _)
    case cached => exact fun _ => ⟨hd, hle, rfl, hfree⟩
    case place => rfl

theorem storeSlot (h : Sound fresh c r) (hat : r.producer.at_ = .storeSlot v tail)
    (hs : r.pushStep .acqRel c k = some r') : Sound fresh c r' := by
  obtain ⟨mask, mem, ⟨at_, view, cached, unread⟩, q, pushed, popped⟩ := r
  obtain rfl : at_ = .storeSlot v tail := hat
  obtain rfl := Option.some.inj hs
  obtain ⟨head, hp⟩ := h.pushes
  obtain rfl : tail = pushed.length % (mask + 1) := hp.place
  have hkept : Kept (mask + 1) mem pushed pushed.length popped.length _ :=
    List.append_nil pushed ▸ h.kept
  have hpushes : Pushes fresh c (mask + 1)
      ⟨.storeTail v (pushed.length % (mask + 1)),
        (mem.storeRelaxed view (.slot (pushed.length % (mask + 1))) v).1, cached, unread⟩
      pushed.length popped.length head :=
    ⟨hkept.view_slot hp.view, hp.le, hp.room, hp.cached, rfl⟩
  exact { h with kept := hkept.store_slot _, pushes := ⟨head, hpushes⟩ }

theorem storeTail (h : Sound fresh c r) (hat : r.producer.at_ = .storeTail v tail)
    (hs : r.pushStep .acqRel c k = some r') : Sound fresh c r' := by
  obtain ⟨mask, mem, ⟨at_, view, cached, unread⟩, q, pushed, popped⟩ := r
  obtain rfl : at_ = .storeTail v tail := hat
  obtain rfl := Option.some.inj hs
  obtain ⟨head, hp⟩ := h.pushes
  obtain ⟨t, hq⟩ := h.pops
  obtain rfl : tail = pushed.length % (mask + 1) := hp.place
  have hview := hp.view.mono (View.le_saw view .tail ((mem.stores .tail).length + 1))
  have hlen : (pushed ++ [v]).length = pushed.length + 1 := List.length_append
  have hnext : (pushed.length % (mask + 1) + 1) &&& mask = (pushed.length + 1) % (mask + 1) :=
    (h.and_mask _).trans (Nat.mod_add_mod ..)
  constructor
  case pow => exact h.pow
  case kept =>
    show Kept (mask + 1) (mem.put .tail ⟨(pushed.length % (mask + 1) + 1) &&& mask, _⟩)
      (pushed ++ [v] ++ []) (pushed ++ [v]).length popped.length _
    rw [hnext, hlen, List.append_nil]
    exact h.kept.store_tail hview.slots
  case pushes =>
    refine ⟨head, ?_⟩
    show Pushes fresh c (mask + 1)
      ⟨.returning true, view.saw .tail ((mem.stores .tail).length + 1), cached, unread⟩
      (pushed ++ [v]).length popped.length head
    rw [hlen]
    constructor
    case view =>
      refine ⟨?_, hview.released, hview.slots, hview.reads⟩
      have hlast := lt_raise view.stores .tail (mem.stores .tail).length
      rw [h.kept.tails] at hlast ⊢
      exact hlast
    case le => exact hp.le
    case room => exact hp.room
    case cached => exact hp.cached
    case place => exact fun _ hok => nomatch hok
  case pops => exact ⟨t, hq.publish (List.prefix_append ..)⟩
  case fifo => exact h.fifo.trans (List.prefix_append ..)

theorem pushStep (h : Sound fresh c r)
    (hfresh : fresh → r.latest k r.producer.at_.loads = true)
    (hs : r.pushStep .acqRel c k = some r') : Sound fresh c r' := by
  obtain ⟨mask, mem, ⟨at_, view, cached, unread⟩, q, pushed, popped⟩ := r
  obtain ⟨head, hp⟩ := h.pushes
  cases at_ with
  | idle => cases hs
  | loadTail v =>
    obtain ⟨⟨tail, w⟩, hl, hs⟩ := Option.bind_eq_some_iff.mp hs
    obtain rfl := Option.some.inj hs
    obtain ⟨rfl, hle⟩ := h.kept.own_tail hp.view.published hl
    cases c with
    | cached =>
      exact h.producer rfl rfl
        { hp with view := hp.view.mono hle, place := ⟨rfl, rfl⟩ }
    | uncached =>
      exact h.producer rfl rfl { hp with view := hp.view.mono hle, place := rfl }
  | readCached v tail =>
    obtain rfl := Option.some.inj hs
    obtain ⟨rfl, -⟩ := hp.place
    refine h.producer rfl ?_ (h.compareCached hp rfl)
    dsimp only
    split <;> rfl
  | loadHead v tail =>
    obtain ⟨⟨i, w⟩, hl, hs⟩ := Option.bind_eq_some_iff.mp hs
    obtain rfl := Option.some.inj hs
    obtain rfl : tail = pushed.length % (mask + 1) := hp.place
    obtain ⟨rfl, hle, hk, hview⟩ := h.kept.other_head hp.view hl
    have hroom : pushed.length < k + (mask + 1) :=
      Nat.lt_of_lt_of_le hp.room (Nat.add_le_add_right hle _)
    have hpopped := h.popped_le
    have hunread : fresh → pushed.length = k + (pushed.length - popped.length) := by
      intro hf
      have hlast : k + 1 = popped.length + 1 :=
        (of_decide_eq_true (hfresh hf)).trans h.kept.heads
      have hpopped : popped.length ≤ pushed.length := hpopped
      omega
    cases c with
    | cached =>
      apply @producer T fresh .cached _ k _ h rfl rfl
      constructor
      case view => exact hview
      case le => exact hk
      case room => exact hroom
      case cached =>
        intro hc
        obtain ⟨hd, hhd, hcached, hfree⟩ := hp.cached hc
        exact ⟨hd, hhd.trans hle, hcached, hfree⟩
      case place => exact ⟨rfl, rfl, hunread⟩
    | uncached =>
      exact h.producer rfl compareFull_inHand
        (h.compareFull (p := ⟨.idle, w, cached, _⟩) hview hk hroom (fun hc => nomatch hc) hunread)
  | writeCached v tail i =>
    obtain rfl := Option.some.inj hs
    obtain ⟨htail, hi, hunread⟩ := hp.place
    apply @producer T fresh c _ head _ h rfl rfl
    constructor
    case view => exact hp.view
    case le => exact hp.le
    case room => exact hp.room
    case cached => exact fun _ => ⟨head, le_rfl, hi, hp.room⟩
    case place => exact ⟨htail, hi, hunread⟩
  | readAgain v tail =>
    obtain rfl := Option.some.inj hs
    obtain ⟨htail, hcached, hunread⟩ := hp.place
    obtain rfl : tail = pushed.length % (mask + 1) := htail
    obtain rfl : cached = head % (mask + 1) := hcached
    exact h.producer rfl compareFull_inHand
      (h.compareFull hp.view hp.le hp.room (fun _ => rfl) hunread)
  | storeSlot v tail => exact h.storeSlot rfl hs
  | storeTail v tail => exact h.storeTail rfl hs
  | returning ok =>
    obtain rfl := Option.some.inj hs
    exact h.producer rfl rfl { hp with place := trivial }

/-! ### The consumer -/

theorem compareCachedTail (h : Sound fresh .cached r)
    (hq : Pops fresh .cached (r.mask + 1) q r.pushed r.popped.length tail)
    (hat : q.at_ = .readCached head) :
    Pops fresh .cached (r.mask + 1)
      { q with at_ := if head = q.cached then .loadTail head else .loadSlot head }
      r.pushed r.popped.length tail := by
  obtain ⟨at_, view, cached, unread⟩ := q
  obtain rfl : at_ = .readCached head := hat
  obtain ⟨-, hhead⟩ := hq.place
  obtain ⟨t, hle, hcached, hsome⟩ := hq.cached rfl
  obtain rfl : head = r.popped.length % (r.mask + 1) := hhead
  obtain rfl : cached = t % (r.mask + 1) := hcached
  have hlap := h.unread_lt
  have hsome : r.popped.length ≤ t := hsome
  have hiff := empty_iff (r := r) hsome ((hle.trans hq.le).trans_lt hlap)
  show Pops fresh .cached (r.mask + 1) ⟨if _ = t % (r.mask + 1) then _ else _, _, _, _⟩ _ _ _
  by_cases hempty : r.popped.length = t
  · rw [if_pos (hiff.mpr hempty)]
    exact { hq with place := rfl }
  · have hsome : r.popped.length + 1 ≤ t := by omega
    rw [if_neg (mt hiff.mp hempty)]
    constructor
    case view => exact hq.view
    case le => exact hq.le
    case some => exact hsome.trans hle
    case cached => exact fun _ => ⟨t, hle, rfl, hsome⟩
    case place => rfl

/-- All that is in the buffer is within a lap of what is released. -/
theorem written_lt (h : Sound fresh c r) :
    (r.pushed ++ r.producer.at_.inHand).length < r.popped.length + (r.mask + 1) := by
  obtain ⟨head, hp⟩ := h.pushes
  have hle := hp.le
  have hroom := hp.room
  rw [List.length_append]
  cases hat : r.producer.at_ <;> simp only [hat, PushAt.inHand, PushAt.storing,
    List.length_nil, List.length_singleton] at hroom ⊢ <;> omega

/-- Only what is published has been read. -/
theorem taken_le (h : Sound fresh c r) :
    r.popped.length + r.consumer.at_.loaded ≤ r.pushed.length := by
  obtain ⟨t, hq⟩ := h.pops
  have hle := hq.le
  have hsome := hq.some
  cases hat : r.consumer.at_ <;> simp only [hat, PopAt.loaded, PopAt.loading] at hsome ⊢ <;> omega

theorem loadSlot (h : Sound fresh c r) (hat : r.consumer.at_ = .loadSlot head)
    (hs : r.popStep .acqRel c k = some r') : Sound fresh c r' := by
  have hlap := h.written_lt
  obtain ⟨mask, mem, p, ⟨at_, view, cached, unread⟩, pushed, popped⟩ := r
  obtain rfl : at_ = .loadSlot head := hat
  obtain ⟨a, hl, hs⟩ := Option.bind_eq_some_iff.mp hs
  obtain rfl := Option.some.inj hs
  obtain ⟨t, hq⟩ := h.pops
  obtain rfl : head = popped.length % (mask + 1) := hq.place
  have hsome : popped.length < t := hq.some
  have hlt : popped.length < pushed.length := hsome.trans_le hq.le
  have hx := List.getElem?_eq_getElem hlt
  have hlen : t ≤ (pushed ++ p.at_.inHand).length := by
    rw [List.length_append]
    exact hq.le.trans (Nat.le_add_right ..)
  have hset := h.kept.slot_settled hq.view hsome hlen hlap.le
  obtain ⟨hvalue, hkept, hview⟩ := h.kept.load_slot hq.view hset
    ((List.getElem?_append_left hlt).trans hx) hlap.le hl
  have hpops : Pops fresh c (mask + 1)
      ⟨.storeHead a.value (popped.length % (mask + 1)), a.view, cached, unread⟩
      pushed popped.length t :=
    ⟨hview, hq.le, hq.some, hq.cached, rfl, hvalue ▸ hx⟩
  exact { h with kept := hkept, pops := ⟨t, hpops⟩ }

theorem storeHead (h : Sound fresh c r) (hat : r.consumer.at_ = .storeHead v head)
    (hs : r.popStep .acqRel c k = some r') : Sound fresh c r' := by
  obtain ⟨mask, mem, p, ⟨at_, view, cached, unread⟩, pushed, popped⟩ := r
  obtain rfl : at_ = .storeHead v head := hat
  obtain rfl := Option.some.inj hs
  obtain ⟨hd, hp⟩ := h.pushes
  obtain ⟨t, hq⟩ := h.pops
  obtain ⟨hhead, hx⟩ := hq.place
  obtain rfl : head = popped.length % (mask + 1) := hhead
  have hview := hq.view.mono (View.le_saw view .head ((mem.stores .head).length + 1))
  have hlen : (popped ++ [v]).length = popped.length + 1 := List.length_append
  have hnext : (popped.length % (mask + 1) + 1) &&& mask = (popped.length + 1) % (mask + 1) :=
    (h.and_mask _).trans (Nat.mod_add_mod ..)
  constructor
  case pow => exact h.pow
  case kept =>
    show Kept (mask + 1) (mem.put .head ⟨(popped.length % (mask + 1) + 1) &&& mask, _⟩)
      _ pushed.length (popped ++ [v]).length ((popped ++ [v]).length + 0)
    rw [hnext, hlen]
    exact h.kept.store_head hview.reads
  case pushes =>
    exact ⟨hd, hp.release (List.prefix_append ..).length_le⟩
  case pops =>
    refine ⟨t, ?_⟩
    show Pops fresh c (mask + 1)
      ⟨.returning (some v), view.saw .head ((mem.stores .head).length + 1), cached, unread⟩
      pushed (popped ++ [v]).length t
    rw [hlen]
    constructor
    case view =>
      refine ⟨?_, hview.published, hview.reads, hview.slots⟩
      have hlast := lt_raise view.stores .head (mem.stores .head).length
      rw [h.kept.heads] at hlast ⊢
      exact hlast
    case le => exact hq.le
    case some => exact hq.some
    case cached => exact hq.cached
    case place => exact fun _ hout => nomatch hout
  case fifo =>
    have hfifo : popped <+: pushed := h.fifo
    have hx : pushed[popped.length]? = some v := hx
    obtain ⟨hlt, rfl⟩ := List.getElem?_eq_some_iff.mp hx
    have htake := List.take_append_getElem hlt
    rw [← List.prefix_iff_eq_take.mp hfifo] at htake
    exact htake ▸ List.take_prefix ..

theorem popStep (h : Sound fresh c r)
    (hfresh : fresh → r.latest k r.consumer.at_.loads = true)
    (hs : r.popStep .acqRel c k = some r') : Sound fresh c r' := by
  obtain ⟨mask, mem, p, ⟨at_, view, cached, unread⟩, pushed, popped⟩ := r
  obtain ⟨tail, hq⟩ := h.pops
  cases at_ with
  | idle => cases hs
  | loadHead =>
    obtain ⟨⟨i, w⟩, hl, hs⟩ := Option.bind_eq_some_iff.mp hs
    obtain rfl := Option.some.inj hs
    obtain ⟨rfl, hle⟩ := h.kept.own_head hq.view.released hl
    cases c with
    | cached =>
      exact h.consumer rfl rfl
        { hq with view := hq.view.mono hle, place := ⟨rfl, rfl⟩ }
    | uncached =>
      exact h.consumer rfl rfl { hq with view := hq.view.mono hle, place := rfl }
  | readCached head =>
    obtain rfl := Option.some.inj hs
    obtain ⟨rfl, -⟩ := hq.place
    refine h.consumer rfl ?_ (h.compareCachedTail hq rfl)
    dsimp only
    split <;> rfl
  | loadTail head =>
    obtain ⟨⟨i, w⟩, hl, hs⟩ := Option.bind_eq_some_iff.mp hs
    obtain rfl := Option.some.inj hs
    obtain rfl : head = popped.length % (mask + 1) := hq.place
    obtain ⟨rfl, hle, hk, hview⟩ := h.kept.other_tail hq.view hl
    have hsome : popped.length ≤ k := Nat.le_trans hq.some hle
    have hunread : fresh → k = popped.length + (pushed.length - popped.length) := by
      intro hf
      have hlast : k + 1 = pushed.length + 1 :=
        (of_decide_eq_true (hfresh hf)).trans h.kept.tails
      omega
    cases c with
    | cached =>
      apply @consumer T fresh .cached _ k _ h rfl rfl
      constructor
      case view => exact hview
      case le => exact hk
      case some => exact hsome
      case cached =>
        intro hc
        obtain ⟨t, ht, hcached, hsome⟩ := hq.cached hc
        exact ⟨t, ht.trans hle, hcached, hsome⟩
      case place => exact ⟨rfl, rfl, hunread⟩
    | uncached =>
      exact h.consumer rfl compareEmpty_loaded
        (h.compareEmpty (q := ⟨.idle, w, cached, _⟩) hview hk hsome (fun hc => nomatch hc)
          hunread)
  | writeCached head i =>
    obtain rfl := Option.some.inj hs
    obtain ⟨hhead, hi, hunread⟩ := hq.place
    apply @consumer T fresh c _ tail _ h rfl rfl
    constructor
    case view => exact hq.view
    case le => exact hq.le
    case some => exact hq.some
    case cached => exact fun _ => ⟨tail, le_rfl, hi, hq.some⟩
    case place => exact ⟨hhead, hi, hunread⟩
  | readAgain head =>
    obtain rfl := Option.some.inj hs
    obtain ⟨hhead, hcached, hunread⟩ := hq.place
    obtain rfl : head = popped.length % (mask + 1) := hhead
    obtain rfl : cached = tail % (mask + 1) := hcached
    exact h.consumer rfl compareEmpty_loaded
      (h.compareEmpty hq.view hq.le hq.some (fun _ => rfl) hunread)
  | loadSlot head => exact h.loadSlot rfl hs
  | storeHead out head => exact h.storeHead rfl hs
  | returning out =>
    obtain rfl := Option.some.inj hs
    exact h.consumer rfl rfl { hq with place := trivial }

/-! ### Runs -/

theorem step (h : Sound fresh c r) {a : Action T}
    (hfresh : fresh → r.latestStep .acqRel c a = some r')
    (hs : r.step .acqRel c a = some r') : Sound fresh c r' := by
  cases a with
  | push v =>
    obtain ⟨mask, mem, ⟨at_, view, cached, unread⟩, q, pushed, popped⟩ := r
    cases at_ with
    | idle =>
      obtain ⟨head, hp⟩ := h.pushes
      obtain rfl := Option.some.inj hs
      exact h.producer rfl rfl { hp with place := trivial }
    | _ => cases hs
  | producer k =>
    exact h.pushStep (fun hf => (Option.ite_none_right_eq_some.mp (hfresh hf)).1) hs
  | pop =>
    obtain ⟨mask, mem, p, ⟨at_, view, cached, unread⟩, pushed, popped⟩ := r
    cases at_ with
    | idle =>
      obtain ⟨tail, hq⟩ := h.pops
      obtain rfl := Option.some.inj hs
      exact h.consumer rfl rfl { hq with place := trivial }
    | _ => cases hs
  | consumer k =>
    exact h.popStep (fun hf => (Option.ite_none_right_eq_some.mp (hfresh hf)).1) hs

end Sound

end Hotpath.Ipc.SpscRing
