import Hotpath.Book.Tape
import Hotpath.Itch.Builder
import Hotpath.Tools.GateAgreement
import Hotpath.Tools.TapeReplay

/-!
# The files of the extractor (extract_tape.cpp)

The end of the extractor's `main`: its gate on the index, and a tape for each symbol that
the stream listed. The pass over the file ends whatever the index had room for, and what
is then written opens as the tapes of the symbols.
-/

namespace Hotpath.Tools
open Hotpath.Itch Hotpath.Book Hotpath.OpenHashMap

/-! ### Writing -/

/-- `outdir + "/" + want[i] + ".tape"` -/
def tapePath (outdir name : List UInt8) : List UInt8 :=
  outdir ++ [ch '/'] ++ name ++ ['.', 't', 'a', 'p', 'e'].map ch

structure Written where
  path : List UInt8
  bytes : List UInt8
  deriving DecidableEq, Repr

/-- The files in the order they are written, and the exit code; `writable` says which can
be opened. A symbol that was not listed is skipped, and the first file that cannot be
opened ends the loop. -/
def writeTapes (writable : List UInt8 → Bool) (outdir : List UInt8) (rc : ℕ) :
    List (List UInt8 × Target) → List Written × ℕ
  | [] => ([], rc)
  | (name, tg) :: rest =>
    if tg.locate = 0 then writeTapes writable outdir 1 rest
    else if writable (tapePath outdir name) then
      let (files, rc) := writeTapes writable outdir rc rest
      (⟨tapePath outdir name, tapeFile tg.symbol.raw tg.locate tg.events⟩ :: files, rc)
    else ([], 1)

/-- What leaves `main`: the `runtime_error` of the mapping, or the `invalid_argument` of the index
(the `length_error` of its vector). -/
inductive Thrown where
  | mapping (what : String)
  | table
  deriving DecidableEq, Repr

/-- `main` for the symbols named in `want`. An order that the index had no room for ends it before
anything is written. -/
def extractMain (writable : List UInt8 → Bool) (outdir : List UInt8) (tablePow2 : ℕ)
    (want : List (List UInt8)) (path : String) (file : Option (List UInt8)) :
    Option (Except Thrown (List Written × ℕ)) :=
  if path = "" ∨ want = [] then some (.ok ([], 2))
  else
    match mappedFile path file with
    | .error what => some (.error (.mapping what))
    | .ok data =>
      match (make tablePow2 : Option (OpenHashMap Route)) with
      | none => some (.error .table)
      | some _ => do
        let e ← extractTape data tablePow2 (want.map Symbol.fromText)
        if e.insertFailed ≠ 0 then return .ok ([], 1)
        else return .ok (writeTapes writable outdir 0 (want.zip e.targets))

section Writing
variable {writable : List UInt8 → Bool} {outdir : List UInt8} {rc : ℕ}
variable {l : List (List UInt8 × Target)}

theorem writeTapes_files {f : Written} (hf : f ∈ (writeTapes writable outdir rc l).1) :
    ∃ name tg, (name, tg) ∈ l ∧ tg.locate ≠ 0 ∧ f.path = tapePath outdir name ∧
      f.bytes = tapeFile tg.symbol.raw tg.locate tg.events := by
  induction l generalizing rc with
  | nil => exact absurd hf List.not_mem_nil
  | cons x rest ih =>
    obtain ⟨name, tg⟩ := x
    have hrest : ∀ rc, f ∈ (writeTapes writable outdir rc rest).1 →
        ∃ name' tg', (name', tg') ∈ (name, tg) :: rest ∧ tg'.locate ≠ 0 ∧
          f.path = tapePath outdir name' ∧
          f.bytes = tapeFile tg'.symbol.raw tg'.locate tg'.events := by
      intro rc hf
      obtain ⟨name', tg', hmem, h⟩ := ih hf
      exact ⟨name', tg', List.mem_cons_of_mem _ hmem, h⟩
    rw [writeTapes] at hf
    split_ifs at hf with hz hw
    · exact hrest 1 hf
    · cases List.mem_cons.mp hf with
      | inl hf =>
        rw [hf]
        exact ⟨name, tg, List.mem_cons_self, hz, rfl, rfl⟩
      | inr hf => exact hrest rc hf
    · exact absurd hf List.not_mem_nil

/-- The listed symbols are written in the order they were requested. -/
theorem writeTapes_paths : (writeTapes writable outdir rc l).1.map Written.path <+:
    ((l.filter fun x => x.2.locate ≠ 0).map fun x => tapePath outdir x.1) := by
  induction l generalizing rc with
  | nil => exact List.nil_prefix
  | cons x rest ih =>
    obtain ⟨name, tg⟩ := x
    rw [writeTapes]
    split_ifs with hz hw
    · rw [List.filter_cons_of_neg (by simpa using hz)]
      exact ih
    · rw [List.filter_cons_of_pos (by simpa using hz)]
      exact List.cons_prefix_cons.mpr ⟨rfl, ih⟩
    · exact List.nil_prefix

theorem writeTapes_rc : (writeTapes writable outdir rc l).2 = 0 ↔
    rc = 0 ∧ ∀ x ∈ l, x.2.locate ≠ 0 ∧ writable (tapePath outdir x.1) = true := by
  induction l generalizing rc with
  | nil => exact ⟨fun h => ⟨h, fun _ hx => absurd hx List.not_mem_nil⟩, And.left⟩
  | cons x rest ih =>
    obtain ⟨name, tg⟩ := x
    rw [writeTapes, List.forall_mem_cons]
    split_ifs with hz hw
    · rw [ih]
      exact ⟨fun h => absurd h.1 Nat.one_ne_zero, fun h => absurd hz h.2.1.1⟩
    · exact ih.trans ⟨fun h => ⟨h.1, ⟨hz, hw⟩, h.2⟩, fun h => ⟨h.1, h.2.2⟩⟩
    · exact ⟨False.elim, fun h => absurd h.2.1.2 hw⟩

theorem writeTapes_all (h : ∀ x ∈ l, x.2.locate ≠ 0 ∧ writable (tapePath outdir x.1) = true) :
    (writeTapes writable outdir rc l).1.map Written.path = l.map fun x => tapePath outdir x.1 := by
  induction l generalizing rc with
  | nil => rfl
  | cons x rest ih =>
    obtain ⟨name, tg⟩ := x
    obtain ⟨⟨hz, hw⟩, hrest⟩ := List.forall_mem_cons.mp h
    rw [writeTapes, if_neg hz, if_pos hw]
    exact congrArg (tapePath outdir name :: ·) (ih hrest)

end Writing

/-! ### The pass always ends -/

theorem settle_some {V : Type} {m : OpenHashMap V} {ref : OrderId} (hw : WF OpenHashMap.hash m)
    (href : ref ≠ kEmpty) (hl : lookup m ref ≠ none) (done : V → Bool) (v : V) :
    ∃ m', settle done m ref v = some m' ∧ WF OpenHashMap.hash m' := by
  obtain ⟨m1, hwrite, hw1, -, -, hlk⟩ := hw.write_spec href hl v
  have hhad : lookup m1 ref ≠ none := by
    rw [hlk ref href, if_pos rfl]
    exact Option.some_ne_none _
  obtain ⟨-, m2, herase, hw2, -⟩ := (hw1.erase_spec href).resolve_left fun hnone => hhad hnone.1
  simp only [settle, hwrite, Option.bind_eq_bind, Option.bind_some]
  split
  · rw [herase]
    exact ⟨m2, rfl, hw2⟩
  · exact ⟨m1, rfl, hw1⟩

namespace ExtractTape

variable {e e' : ExtractTape} {t : Stream} {x : Message} {ref : OrderId} {slot : UInt16}
variable {shares : Qty} {want : List Symbol} {n : ℕ}

/-- Whatever the index had room for. -/
structure Usable (e : ExtractTape) : Prop where
  table : WF OpenHashMap.hash e.route
  valid : e.Valid

theorem Usable.store (h : Usable e) (href : ref ≠ 0) (hslot : slot.toNat ≤ e.targets.length) :
    ∃ e', e.store ref ⟨shares, slot⟩ = some e' ∧ Usable e' ∧ e'.targets = e.targets := by
  rcases h.table.insert_spec href ⟨shares, slot⟩ with ⟨-, -, hins⟩ | ⟨m, hins, hwf, -⟩
  · refine ⟨{ e with insertFailed := e.insertFailed + 1 }, ?_, ⟨h.table, ?_⟩, rfl⟩
    · rw [ExtractTape.store, hins]
      rfl
    · exact h.valid.of_length rfl h.valid.slots
  · refine ⟨{ e with route := m }, ?_, ⟨hwf, ?_⟩, rfl⟩
    · rw [ExtractTape.store, hins]
      rfl
    · exact h.valid.of_length rfl (h.valid.slots.insert hslot hins)

theorem Usable.emit (h : Usable e) (hslot : slot.toNat ≤ e.targets.length) (event : BookEvent) :
    ∃ e', e.emit slot event = some e' ∧ Usable e' ∧ e'.targets.length = e.targets.length ∧
      e'.route = e.route := by
  obtain ⟨targets, n, hemit, hlen⟩ := emit_some hslot event
  exact ⟨_, hemit, ⟨h.table, h.valid.of_length hlen h.valid.slots⟩, hlen, rfl⟩

theorem Usable.unroutable (h : Usable e) : Usable { e with unroutable := e.unroutable + 1 } :=
  ⟨h.table, h.valid.of_length rfl h.valid.slots⟩

/-- An order that the index holds is erased from it. -/
theorem Usable.erase {r : Route} (h : Usable e) (href : ref ≠ 0)
    (hr : lookup e.route ref = some r) :
    ∃ m, e.route.erase OpenHashMap.hash ref = some (m, true) ∧ Usable { e with route := m } := by
  have hhad : lookup e.route ref ≠ none := hr ▸ Option.some_ne_none _
  obtain ⟨-, m, herase, hwf, -⟩ := (h.table.erase_spec href).resolve_left fun hnone => hhad hnone.1
  exact ⟨m, herase, hwf, h.valid.of_length rfl (h.valid.slots.erase herase)⟩

theorem Usable.reduce (h : Usable e) (href : ref ≠ 0) (type : EventType) (ts : Ts)
    (shares : Qty) : ∃ e', e.reduce type ts ref shares = some e' ∧ Usable e' := by
  have hfind := h.table.find_spec href
  cases hr : lookup e.route ref with
  | none =>
    rw [hr] at hfind
    refine ⟨_, ?_, h.unroutable⟩
    rw [ExtractTape.reduce, hfind]
    rfl
  | some r =>
    rw [hr] at hfind
    have hslot := h.valid.slots.find hfind
    obtain ⟨targets, n, hlen, hred⟩ := Lock.reduce_settle type ts shares hfind hslot
    obtain ⟨m, hm, hwf⟩ := settle_some h.table href (hr ▸ Option.some_ne_none _)
      (fun r : Route => r.shares = 0)
      { r with shares := r.shares - if shares < r.shares then shares else r.shares }
    refine ⟨{ e with route := m, targets := targets, routed := n }, ?_, hwf, ?_⟩
    · rw [hred, hm]
      rfl
    · exact h.valid.of_length hlen (settle_all (P := fun r => r.slot.toNat ≤ e.targets.length)
        h.valid.slots hslot hm)

theorem Usable.directory (h : Usable e) (locate : StockLocate) (stock : Symbol) :
    ∃ e', e.step (.directory locate stock) = some e' ∧ Usable e' := by
  cases hs : e.symbolToTarget[stock.raw]? with
  | none => exact ⟨e, by simp only [step, hs], h⟩
  | some i =>
    have hi := h.valid.symbols _ _ hs
    refine ⟨{ e with
      targets := e.targets.set i { e.targets[i] with locate := locate }
      locateToTarget := e.locateToTarget.insert locate i }, ?_, h.table, ?_⟩
    · simp only [step, hs, List.getElem?_eq_getElem hi, Option.bind_eq_bind, Option.bind_some]
      rfl
    have hlen : (e.targets.set i { e.targets[i] with locate := locate }).length =
        e.targets.length := List.length_set
    constructor
    case slots => exact hlen.symm ▸ h.valid.slots
    case symbols =>
      intro s j hj
      exact hlen.symm ▸ h.valid.symbols s j hj
    case locates =>
      intro l j hj
      refine hlen.symm ▸ ?_
      rw [Support.getElem?_insert_if] at hj
      split at hj
      · cases hj
        exact hi
      · exact h.valid.locates l j hj

/-- No message stops the pass. -/
theorem Usable.step (h : Usable e) (ha : t.Admits want x) :
    ∃ e', e.step x = some e' ∧ Usable e' := by
  cases x with
  | directory locate stock => exact h.directory locate stock
  | add ts locate ref side shares price =>
    have hslot := h.valid.slotFor locate
    obtain ⟨e1, h1, hu1, htargets⟩ := @Usable.store e ref _ shares h ha.1 hslot
    obtain ⟨e2, h2, hu2, -⟩ := hu1.emit (htargets ▸ hslot) ⟨ts, ref, 0, price, shares, .add, side⟩
    refine ⟨e2, ?_, hu2⟩
    simp only [ExtractTape.step, h1, Option.bind_eq_bind, Option.bind_some]
    exact h2
  | execute ts ref shares => exact h.reduce ha .execute ts shares
  | cancel ts ref shares => exact h.reduce ha .cancel ts shares
  | delete ts ref =>
    have href : ref ≠ 0 := ha
    have hfind := h.table.find_spec href
    cases hr : lookup e.route ref with
    | none =>
      rw [hr] at hfind
      refine ⟨_, ?_, h.unroutable⟩
      simp only [ExtractTape.step, hfind, Option.bind_eq_bind, Option.bind_some]
      rfl
    | some r =>
      rw [hr] at hfind
      obtain ⟨e1, h1, hu1, -, hroute⟩ := h.emit (h.valid.slots.find hfind)
        ⟨ts, ref, 0, 0, 0, .delete, .buy⟩
      obtain ⟨m, herase, hu2⟩ := hu1.erase href (hroute ▸ hr)
      refine ⟨_, ?_, hu2⟩
      simp only [ExtractTape.step, hfind, h1, herase, Option.bind_eq_bind, Option.bind_some]
      rfl
  | replace ts original new shares price =>
    obtain ⟨href, hnew, -⟩ := ha
    have hfind := h.table.find_spec href
    cases hr : lookup e.route original with
    | none =>
      rw [hr] at hfind
      refine ⟨_, ?_, h.unroutable⟩
      simp only [ExtractTape.step, hfind, Option.bind_eq_bind, Option.bind_some]
      rfl
    | some r =>
      rw [hr] at hfind
      have hslot := h.valid.slots.find hfind
      obtain ⟨e1, h1, hu1, hlen, hroute⟩ := h.emit hslot
        ⟨ts, original, new, price, shares, .replace, .buy⟩
      obtain ⟨m, herase, hu2⟩ := hu1.erase href (hroute ▸ hr)
      obtain ⟨e3, h3, hu3, -⟩ := @Usable.store _ new r.slot shares hu2 hnew (hlen.symm ▸ hslot)
      refine ⟨e3, ?_, hu3⟩
      simp only [ExtractTape.step, hfind, h1, herase, Option.bind_eq_bind, Option.bind_some]
      exact h3
  | other => exact ⟨e, rfl, h⟩

/-! ### What a message does to the targets -/

/-- At most one event longer, under the same locates. -/
structure Grown (e e' : ExtractTape) : Prop where
  symbols : e'.symbolToTarget = e.symbolToTarget
  length : e'.targets.length = e.targets.length
  stored : e.insertFailed ≤ e'.insertFailed
  targets : ∀ (i : ℕ) tg', e'.targets[i]? = some tg' → ∃ tg, e.targets[i]? = some tg ∧
    tg'.locate = tg.locate ∧ tg'.events.length ≤ tg.events.length + 1

/-- The index and its counters aside. -/
theorem Grown.of_targets (ht : e'.targets = e.targets)
    (hs : e'.symbolToTarget = e.symbolToTarget) (hf : e.insertFailed ≤ e'.insertFailed) :
    Grown e e' :=
  ⟨hs, congrArg _ ht, hf, fun _ tg htg => ⟨tg, ht ▸ htg, rfl, Nat.le_succ _⟩⟩

theorem Grown.then {e₁ : ExtractTape} (h : Grown e e₁) (ht : e'.targets = e₁.targets)
    (hs : e'.symbolToTarget = e₁.symbolToTarget) (hf : e₁.insertFailed ≤ e'.insertFailed) :
    Grown e e' :=
  ⟨hs.trans h.symbols, ht ▸ h.length, h.stored.trans hf,
    fun i tg htg => h.targets i tg (ht ▸ htg)⟩

theorem emit_grown {event : BookEvent} (h : e.emit slot event = some e') : Grown e e' := by
  unfold emit at h
  split at h
  · cases h
    exact Grown.of_targets rfl rfl le_rfl
  · obtain ⟨tg, htg, h⟩ := Option.bind_eq_some_iff.mp h
    cases h
    refine ⟨rfl, List.length_set, le_rfl, fun i tg' htg' => ?_⟩
    rw [List.getElem?_set] at htg'
    split at htg'
    · rename_i heq
      split at htg'
      · cases htg'
        refine ⟨tg, heq ▸ htg, rfl, ?_⟩
        rw [List.length_append, List.length_singleton]
      · cases htg'
    · exact ⟨tg', htg', rfl, Nat.le_succ _⟩

theorem store_same {r : Route} (h : e.store ref r = some e') : e'.targets = e.targets ∧
    e'.symbolToTarget = e.symbolToTarget ∧ e.insertFailed ≤ e'.insertFailed := by
  obtain ⟨⟨m, ok⟩, -, h⟩ := Option.bind_eq_some_iff.mp h
  cases h
  exact ⟨rfl, rfl, Nat.le_add_right _ _⟩

theorem reduce_grown {type : EventType} {ts : Ts} (h : e.reduce type ts ref shares = some e') :
    Grown e e' := by
  obtain ⟨r, -, h⟩ := Option.bind_eq_some_iff.mp h
  cases r with
  | none =>
    cases h
    exact Grown.of_targets rfl rfl le_rfl
  | some r =>
    obtain ⟨e₁, h₁, h⟩ := Option.bind_eq_some_iff.mp h
    dsimp only at h
    generalize (if shares < r.shares then shares else r.shares) = take at h
    obtain ⟨m, -, h⟩ := Option.bind_eq_some_iff.mp h
    have hg := emit_grown h₁
    split at h
    · obtain ⟨m₂, -, h⟩ := Option.bind_eq_some_iff.mp h
      cases h
      exact hg.then rfl rfl le_rfl
    · cases h
      exact hg.then rfl rfl le_rfl

/-- A message about an order. -/
theorem step_grown (h : e.step x = some e') (hx : ∀ locate stock, x ≠ .directory locate stock) :
    Grown e e' := by
  cases x with
  | directory locate stock => exact absurd rfl (hx locate stock)
  | add ts locate ref side shares price =>
    obtain ⟨e₁, h₁, h⟩ := Option.bind_eq_some_iff.mp h
    obtain ⟨ht, hs, hf⟩ := store_same h₁
    have hg := emit_grown h
    exact ⟨hg.symbols.trans hs, ht ▸ hg.length, hf.trans hg.stored,
      fun i tg htg => ht ▸ hg.targets i tg htg⟩
  | execute ts ref shares => exact reduce_grown h
  | cancel ts ref shares => exact reduce_grown h
  | delete ts ref =>
    obtain ⟨r, -, h⟩ := Option.bind_eq_some_iff.mp h
    cases r with
    | none =>
      cases h
      exact Grown.of_targets rfl rfl le_rfl
    | some r =>
      obtain ⟨e₁, h₁, h⟩ := Option.bind_eq_some_iff.mp h
      obtain ⟨m, -, h⟩ := Option.bind_eq_some_iff.mp h
      cases h
      exact (emit_grown h₁).then rfl rfl le_rfl
  | replace ts original new shares price =>
    obtain ⟨r, -, h⟩ := Option.bind_eq_some_iff.mp h
    cases r with
    | none =>
      cases h
      exact Grown.of_targets rfl rfl le_rfl
    | some r =>
      obtain ⟨e₁, h₁, h⟩ := Option.bind_eq_some_iff.mp h
      obtain ⟨m, -, h⟩ := Option.bind_eq_some_iff.mp h
      obtain ⟨ht, hs, hf⟩ := store_same h
      exact (emit_grown h₁).then ht hs hf
  | other =>
    cases h
    exact Grown.of_targets rfl rfl le_rfl

/-- It lists no symbol. -/
theorem step_locates (t : Stream) (hx : ∀ locate stock, x ≠ .directory locate stock) :
    (t.step x).locates = t.locates := by
  have hreduce : ∀ ref shares, (t.reduce ref shares).locates = t.locates := by
    intro ref shares
    unfold Stream.reduce
    split <;> rfl
  cases x with
  | directory locate stock => exact absurd rfl (hx locate stock)
  | execute ts ref shares => exact hreduce ref shares
  | cancel ts ref shares => exact hreduce ref shares
  | replace ts original new shares price =>
    simp only [Stream.step]
    split <;> rfl
  | _ => rfl

/-- A target has the last locate its symbol was listed under, and at most `n` events. -/
structure Noted (want : List Symbol) (n : ℕ) (e : ExtractTape) (t : Stream) : Prop where
  usable : Usable e
  symbols : ∀ (s : Symbol) (i : ℕ), e.symbolToTarget[s.raw]? = some i ↔ want[i]? = some s
  locates : ∀ (i : ℕ) s tg, want[i]? = some s → e.targets[i]? = some tg →
    tg.locate = (t.locates s).getD 0
  events : ∀ (i : ℕ) tg, e.targets[i]? = some tg → tg.events.length ≤ n

theorem Noted.order (h : Noted want n e t) (hs : e.step x = some e') (hu : Usable e')
    (hx : ∀ locate stock, x ≠ .directory locate stock) : Noted want (n + 1) e' (t.step x) := by
  have hg := step_grown hs hx
  constructor
  case usable => exact hu
  case symbols => exact hg.symbols.symm ▸ h.symbols
  case locates =>
    intro i s tg' hi htg'
    obtain ⟨tg, htg, hl, -⟩ := hg.targets i tg' htg'
    rw [step_locates t hx, hl]
    exact h.locates i s tg hi htg
  case events =>
    intro i tg' htg'
    obtain ⟨tg, htg, -, hlen⟩ := hg.targets i tg' htg'
    exact hlen.trans (Nat.succ_le_succ (h.events i tg htg))

theorem Noted.directory (h : Noted want n e t) (hnodup : want.Nodup) {locate : StockLocate}
    {stock : Symbol} (hs : e.step (.directory locate stock) = some e') (hu : Usable e') :
    Noted want (n + 1) e' (t.step (.directory locate stock)) := by
  cases hsym : e.symbolToTarget[stock.raw]? with
  | none =>
    simp only [step, hsym] at hs
    cases hs
    refine ⟨h.usable, h.symbols, ?_, fun i tg htg => Nat.le_succ_of_le (h.events i tg htg)⟩
    intro i s tg hi htg
    have hne : s ≠ stock := by
      rintro rfl
      cases hsym.symm.trans ((h.symbols s i).mpr hi)
    show tg.locate = (Function.update t.locates stock (some locate) s).getD 0
    rw [Function.update_of_ne hne]
    exact h.locates i s tg hi htg
  | some j =>
    simp only [step, hsym] at hs
    obtain ⟨tg₀, htg₀, hs⟩ := Option.bind_eq_some_iff.mp hs
    cases hs
    have hj := (h.symbols stock j).mp hsym
    refine ⟨hu, h.symbols, ?_, ?_⟩
    · intro i s tg hi htg
      show tg.locate = (Function.update t.locates stock (some locate) s).getD 0
      rw [List.getElem?_set] at htg
      split at htg
      · rename_i heq
        split at htg
        · cases htg
          obtain rfl := Option.some.inj (hj.symm.trans (heq ▸ hi))
          rw [Function.update_self]
          rfl
        · cases htg
      · rename_i hne
        have hsne : s ≠ stock := by
          rintro rfl
          obtain ⟨hlt, -⟩ := List.getElem?_eq_some_iff.mp hj
          exact hne ((List.getElem?_inj hlt hnodup).mp (hj.trans hi.symm))
        rw [Function.update_of_ne hsne]
        exact h.locates i s tg hi htg
    · intro i tg htg
      rw [List.getElem?_set] at htg
      split at htg
      · split at htg
        · cases htg
          exact Nat.le_succ_of_le (h.events j tg₀ htg₀)
        · cases htg
      · exact Nat.le_succ_of_le (h.events i tg htg)

theorem Noted.step (h : Noted want n e t) (hnodup : want.Nodup) (ha : t.Admits want x) :
    ∃ e', e.step x = some e' ∧ Noted want (n + 1) e' (t.step x) := by
  obtain ⟨e', hs, hu⟩ := h.usable.step ha
  refine ⟨e', hs, ?_⟩
  by_cases hx : ∃ locate stock, x = .directory locate stock
  · obtain ⟨locate, stock, rfl⟩ := hx
    exact h.directory hnodup hs hu
  · exact h.order hs hu fun l s heq => hx ⟨l, s, heq⟩

/-! ### The whole pass -/

theorem Noted.start (hnodup : want.Nodup) {tablePow2 : ℕ} {route : OpenHashMap Route}
    (hmake : make tablePow2 = some route) : Noted want 0 (.start want route) {} := by
  have htarget : ∀ (i : ℕ) tg, (ExtractTape.start want route).targets[i]? = some tg →
      tg.locate = 0 ∧ tg.events = [] := by
    intro i tg htg
    obtain ⟨s, -, rfl⟩ := List.mem_map.mp (List.mem_of_getElem? htg)
    exact ⟨rfl, rfl⟩
  constructor
  case usable => exact ⟨(WF.make hmake).1, .start want hmake⟩
  case symbols => exact (Tracks.start hnodup hmake).symbols
  case locates => exact fun i s tg _ htg => (htarget i tg htg).1
  case events => exact fun i tg htg => (congrArg List.length (htarget i tg htg).2).le

theorem usable_run {tablePow2 : ℕ} {route : OpenHashMap Route} (hmake : make tablePow2 = some route)
    {xs : List Message} (hadm : Stream.Admissible want xs) (pre : List Message)
    (hpre : pre <+: xs) : ∃ e, (start want route).run pre = some e ∧ Usable e := by
  induction pre using List.reverseRecOn with
  | nil => exact ⟨_, rfl, (WF.make hmake).1, .start want hmake⟩
  | append_singleton pre x ih =>
    obtain ⟨e, hrun, h⟩ := ih ((List.prefix_append ..).trans hpre)
    obtain ⟨post, rfl⟩ := hpre
    obtain ⟨e', hs, h'⟩ := h.step (hadm pre x post (List.append_assoc ..))
    exact ⟨e', by rw [run_snoc, hrun]; exact hs, h'⟩

theorem noted_run (hnodup : want.Nodup) {tablePow2 : ℕ} {route : OpenHashMap Route}
    (hmake : make tablePow2 = some route) {xs : List Message}
    (hadm : Stream.Admissible want xs) (pre : List Message) (hpre : pre <+: xs) :
    ∃ e, (start want route).run pre = some e ∧ Noted want pre.length e (Stream.run pre) := by
  induction pre using List.reverseRecOn with
  | nil => exact ⟨_, rfl, Noted.start hnodup hmake⟩
  | append_singleton pre x ih =>
    obtain ⟨e, hrun, h⟩ := ih ((List.prefix_append ..).trans hpre)
    obtain ⟨post, rfl⟩ := hpre
    obtain ⟨e', hs, h'⟩ := h.step hnodup (hadm pre x post (List.append_assoc ..))
    refine ⟨e', by rw [run_snoc, hrun]; exact hs, ?_⟩
    rw [Stream.run, List.foldl_append, List.length_append]
    exact h'

/-- An order that the index had no room for stays counted. -/
theorem step_stored (h : e.step x = some e') : e.insertFailed ≤ e'.insertFailed := by
  by_cases hx : ∃ locate stock, x = .directory locate stock
  · obtain ⟨locate, stock, rfl⟩ := hx
    simp only [step] at h
    split at h
    · cases h
      exact le_rfl
    · obtain ⟨tg, -, h⟩ := Option.bind_eq_some_iff.mp h
      cases h
      exact le_rfl
  · exact (step_grown h fun l s heq => hx ⟨l, s, heq⟩).stored

theorem run_stored {xs : List Message} (hrun : e.run xs = some e') :
    e.insertFailed ≤ e'.insertFailed := by
  induction xs generalizing e with
  | nil =>
    cases hrun
    exact le_rfl
  | cons x xs ih =>
    obtain ⟨e₁, hs, hrun⟩ := Option.bind_eq_some_iff.mp hrun
    exact (step_stored hs).trans (ih hrun)

/-! ### Symbols requested twice -/

/-- The map of the symbols has the last place of each. -/
theorem symbols_last {route : OpenHashMap Route} {s : Symbol} {i : ℕ}
    (h : (start want route).symbolToTarget[s.raw]? = some i) :
    want[i]? = some s ∧ ∀ j, i < j → want[j]? ≠ some s := by
  induction want using List.reverseRecOn with
  | nil => exact absurd h (by simp [start])
  | append_singleton want w ih =>
    have hmap : (start (want ++ [w]) route).symbolToTarget =
        (start want route).symbolToTarget.insert w.raw want.length := by
      simp only [start, List.zipIdx_append, List.foldl_append, List.zipIdx_singleton,
        List.foldl_cons, List.foldl_nil, Nat.zero_add]
    rw [hmap, Support.getElem?_insert_if] at h
    split at h
    · rename_i hraw
      obtain rfl := Tracks.raw_injective hraw
      obtain rfl := Option.some.inj h
      refine ⟨List.getElem?_concat_length, fun j hj => ?_⟩
      rw [List.getElem?_eq_none (by rw [List.length_append, List.length_singleton]; omega)]
      exact (Option.some_ne_none s).symm
    · rename_i hraw
      obtain ⟨hat, hlater⟩ := ih h
      obtain ⟨hlt, -⟩ := List.getElem?_eq_some_iff.mp hat
      refine ⟨by rw [List.getElem?_append_left hlt, hat], fun j hj => ?_⟩
      rcases Nat.lt_or_ge j want.length with hjlt | hjge
      · rw [List.getElem?_append_left hjlt]
        exact hlater j hj
      · rw [List.getElem?_append_right hjge]
        intro hw
        have hmem := List.mem_singleton.mp (List.mem_of_getElem? hw)
        exact hraw (congrArg Symbol.raw hmem)

/-- A target that has a locate is the one its symbol maps to. -/
def Mapped (e : ExtractTape) : Prop :=
  ∀ (i : ℕ) tg, e.targets[i]? = some tg → tg.locate ≠ 0 →
    ∃ s : Symbol, e.symbolToTarget[s.raw]? = some i

theorem Mapped.start (want : List Symbol) (route : OpenHashMap Route) :
    Mapped (start want route) := by
  intro i tg htg hl
  obtain ⟨s, -, rfl⟩ := List.mem_map.mp (List.mem_of_getElem? htg)
  exact absurd rfl hl

theorem step_mapped (h : e.step x = some e') (hm : Mapped e) :
    e'.symbolToTarget = e.symbolToTarget ∧ e'.targets.length = e.targets.length ∧ Mapped e' := by
  by_cases hx : ∃ locate stock, x = .directory locate stock
  case neg =>
    have hg := step_grown h fun l s heq => hx ⟨l, s, heq⟩
    refine ⟨hg.symbols, hg.length, fun i tg' htg' hl => ?_⟩
    obtain ⟨tg, htg, hlocate, -⟩ := hg.targets i tg' htg'
    rw [hg.symbols]
    exact hm i tg htg (hlocate ▸ hl)
  obtain ⟨locate, stock, rfl⟩ := hx
  cases hsym : e.symbolToTarget[stock.raw]? with
  | none =>
    simp only [step, hsym] at h
    cases h
    exact ⟨rfl, rfl, hm⟩
  | some j =>
    simp only [step, hsym] at h
    obtain ⟨tg₀, htg₀, h⟩ := Option.bind_eq_some_iff.mp h
    cases h
    refine ⟨rfl, List.length_set, fun i tg htg hl => ?_⟩
    rw [List.getElem?_set] at htg
    split at htg
    · rename_i heq
      exact ⟨stock, heq ▸ hsym⟩
    · exact hm i tg htg hl

theorem run_mapped {xs : List Message} (hrun : e.run xs = some e') (hm : Mapped e) :
    e'.symbolToTarget = e.symbolToTarget ∧ e'.targets.length = e.targets.length ∧ Mapped e' := by
  induction xs generalizing e with
  | nil =>
    cases hrun
    exact ⟨rfl, rfl, hm⟩
  | cons x xs ih =>
    obtain ⟨e₁, hs, hrun⟩ := Option.bind_eq_some_iff.mp hrun
    obtain ⟨hsym, hlen, hm₁⟩ := step_mapped hs hm
    obtain ⟨hsym', hlen', hm'⟩ := ih hrun hm₁
    exact ⟨hsym'.trans hsym, hlen'.trans hlen, hm'⟩

end ExtractTape

/-! ### The files -/

/-- A message takes bytes. -/
theorem decoded_length (data : List UInt8) : (decoded data).length ≤ data.length := by
  have hspan : ∀ bodies : List (List UInt8), bodies.length ≤ Reader.spanOf bodies := by
    intro bodies
    induction bodies with
    | nil => exact Nat.zero_le _
    | cons body bodies ih =>
      rw [Reader.spanOf_cons, List.length_cons]
      omega
  calc
    (decoded data).length = ((frames data).filter kept).length := List.length_map _
    _ ≤ (frames data).length := List.length_filter_le ..
    _ ≤ Reader.spanOf (frames data) := hspan _
    _ ≤ data.length := Reader.spanOf_le data

/-- The symbol has a locate, which is not zero. -/
def Stream.listed (t : Stream) (name : List UInt8) : Bool :=
  (t.locates (Symbol.fromText name)).getD 0 ≠ 0

/-- The bytes open as a tape whose header names the symbol and its locate, and whose events
leave the orders of the symbol in a book. -/
def TapeOf (t : Stream) (s : Symbol) (bytes : List UInt8) : Prop :=
  ∃ locate, ∃ events : List BookEvent, ∃ b, t.locates s = some locate ∧
    (∀ path, Tape.open_ path (some bytes) =
      .ok ⟨headerFor s.raw locate events.length, events.map some⟩) ∧
    events.foldlM Book.apply MapBook.empty = some b ∧ Holds s t.orders b

section Files
open ExtractTape
variable {want : List (List UInt8)} {data : List UInt8} {tablePow2 : ℕ} {e : ExtractTape}
variable {t : Stream} {n : ℕ} {name : List UInt8} {tg : Target}

/-- A file written for a symbol. -/
theorem tapeOf_target (h : Tracks (want.map Symbol.fromText) e t)
    (hn : Noted (want.map Symbol.fromText) n e t) (hsmall : n < 2 ^ 64)
    (hmem : (name, tg) ∈ want.zip e.targets) (hl : tg.locate ≠ 0) :
    TapeOf t (Symbol.fromText name) (tapeFile tg.symbol.raw tg.locate tg.events) := by
  obtain ⟨i, hi⟩ := List.mem_iff_getElem?.mp hmem
  obtain ⟨hname, htg⟩ := List.getElem?_zip_eq_some.mp hi
  have hs : (want.map Symbol.fromText)[i]? = some (Symbol.fromText name) := by
    rw [List.getElem?_map, hname]
    rfl
  have hlocate := hn.locates i _ tg hs htg
  obtain ⟨tg', b, htg', hsym, hb, hholds⟩ := h.agrees.tapes i _ hs
  obtain rfl := Option.some.inj (htg.symm.trans htg')
  refine ⟨tg.locate, tg.events, b, ?_, ?_, hb, hholds⟩
  · cases ho : t.locates (Symbol.fromText name) with
    | none =>
      rw [ho] at hlocate
      exact absurd hlocate hl
    | some l =>
      rw [ho] at hlocate
      exact congrArg some hlocate.symm
  · intro path
    have hopen := @Tape.open_written path tg.symbol.raw tg.locate tg.events
      ((hn.events i tg htg).trans_lt hsmall)
    rw [hopen, hsym]

/-- The targets of a run know which symbols are listed. -/
theorem locate_listed (hn : Noted (want.map Symbol.fromText) n e t)
    (hmem : (name, tg) ∈ want.zip e.targets) : tg.locate ≠ 0 ↔ t.listed name = true := by
  obtain ⟨i, hi⟩ := List.mem_iff_getElem?.mp hmem
  obtain ⟨hname, htg⟩ := List.getElem?_zip_eq_some.mp hi
  have hs : (want.map Symbol.fromText)[i]? = some (Symbol.fromText name) := by
    rw [List.getElem?_map, hname]
    rfl
  rw [Stream.listed, hn.locates i _ tg hs htg, decide_eq_true_eq]

theorem zip_listed (hn : Noted (want.map Symbol.fromText) n e t)
    (hlen : e.targets.length = want.length) :
    ((want.zip e.targets).filter fun x => x.2.locate ≠ 0).map Prod.fst =
      want.filter t.listed := by
  have hlisted : ∀ x ∈ want.zip e.targets, decide (x.2.locate ≠ 0) = t.listed x.1 :=
    fun x hx => Bool.eq_iff_iff.mpr (decide_eq_true_iff.trans (locate_listed hn hx))
  rw [List.filter_congr hlisted]
  calc
    ((want.zip e.targets).filter (t.listed ∘ Prod.fst)).map Prod.fst =
        ((want.zip e.targets).map Prod.fst).filter t.listed := (List.filter_map ..).symm
    _ = want.filter t.listed := by rw [List.map_fst_zip hlen.ge]

end Files

/-- What the pass over a mapped file leaves: the exit code is zero exactly when the index had room
for every order, no symbol was requested twice, every symbol was listed and every file could be
opened. For symbols requested once each file is the tape of its symbol. -/
structure Pass (t : Stream) (want : List (List UInt8)) (writable : List UInt8 → Bool)
    (outdir : List UInt8) (insertFailed : ℕ) (files : List Written) (rc : ℕ) : Prop where
  exit : rc = 0 ↔ insertFailed = 0 ∧ (want.map Symbol.fromText).Nodup ∧
    ∀ name ∈ want, t.listed name = true ∧ writable (tapePath outdir name) = true
  tapes : (want.map Symbol.fromText).Nodup → ∀ f ∈ files, ∃ name ∈ want,
    f.path = tapePath outdir name ∧ TapeOf t (Symbol.fromText name) f.bytes
  paths : (want.map Symbol.fromText).Nodup →
    files.map Written.path <+: (want.filter t.listed).map (tapePath outdir)
  all : rc = 0 → files.map Written.path = want.map (tapePath outdir)

section Pass
open ExtractTape
variable (writable : List UInt8 → Bool) (outdir : List UInt8) {want : List (List UInt8)}
variable {data : List UInt8} {tablePow2 : ℕ} {route : OpenHashMap Route} {e : ExtractTape}

theorem extractTape_run (hmake : make tablePow2 = some route) (syms : List Symbol) :
    extractTape data tablePow2 syms = (ExtractTape.start syms route).run (decoded data) := by
  obtain ⟨⟨xs, r⟩, hxs, heq⟩ := Option.map_eq_some_iff.mp (messages_eq data)
  rw [extractTape, hmake, hxs, ← heq]
  rfl

/-- A symbol requested twice has a target that is never listed. -/
theorem writeTapes_twice (hmapped : Mapped e)
    (hsym : e.symbolToTarget =
      (ExtractTape.start (want.map Symbol.fromText) route).symbolToTarget)
    (hlen : e.targets.length = want.length)
    (hrc : (writeTapes writable outdir 0 (want.zip e.targets)).2 = 0) :
    (want.map Symbol.fromText).Nodup := by
  have hall := (writeTapes_rc.mp hrc).2
  rw [List.nodup_iff_getElem?_ne_getElem?]
  intro i j hij hj
  have hwant : (want.map Symbol.fromText).length = want.length := List.length_map _
  have hi : i < want.length := by omega
  have hti : i < e.targets.length := by omega
  have hmem : (want[i], e.targets[i]) ∈ want.zip e.targets :=
    List.mem_of_getElem? (List.getElem?_zip_eq_some.mpr
      ⟨List.getElem?_eq_getElem hi, List.getElem?_eq_getElem hti⟩)
  obtain ⟨s, hs⟩ := hmapped i _ (List.getElem?_eq_getElem hti) (hall _ hmem).1
  rw [hsym] at hs
  obtain ⟨hat, hlater⟩ := symbols_last hs
  rw [hat]
  exact fun heq => hlater j hij heq.symm

/-- A pass whose index had room for every order has had it all along. -/
theorem run_stored_before {xs pre : List Message} {e₀ e' : ExtractTape} (hrun : e₀.run xs = some e)
    (hfailed : e.insertFailed = 0) (hpre : pre <+: xs) (hrun' : e₀.run pre = some e') :
    e'.insertFailed = 0 := by
  obtain ⟨post, rfl⟩ := hpre
  rw [ExtractTape.run, List.foldlM_append] at hrun
  obtain ⟨e₁, hfirst, hrest⟩ := Option.bind_eq_some_iff.mp hrun
  obtain rfl := Option.some.inj (hrun'.symm.trans hfirst)
  exact Nat.eq_zero_of_le_zero ((ExtractTape.run_stored hrest).trans_eq hfailed)

/-- All targets are listed and their files can be opened, said of the names. -/
theorem zip_writable {n : ℕ} {t : Stream} (hn : Noted (want.map Symbol.fromText) n e t)
    (hlen : e.targets.length = want.length) :
    (∀ x ∈ want.zip e.targets, x.2.locate ≠ 0 ∧ writable (tapePath outdir x.1) = true) ↔
      ∀ name ∈ want, t.listed name = true ∧ writable (tapePath outdir name) = true := by
  have hlisted : ∀ x ∈ want.zip e.targets, _ ↔ t.listed x.1 = true :=
    fun _ hx => locate_listed hn hx
  rw [forall₂_congr fun x hx => and_congr_left' (hlisted x hx)]
  conv_rhs => rw [← List.map_fst_zip hlen.ge]
  exact (List.forall_mem_map (P := fun name =>
    t.listed name = true ∧ writable (tapePath outdir name) = true)).symm

theorem pass_ends (hfew : want.length < 65535) (hmake : make tablePow2 = some route)
    (hsmall : data.length < 2 ^ 64)
    (hadm : Stream.Admissible (want.map Symbol.fromText) (decoded data)) :
    ∃ e, extractTape data tablePow2 (want.map Symbol.fromText) = some e ∧
      (e.insertFailed ≠ 0 → Pass (Stream.run (decoded data)) want writable outdir e.insertFailed
        [] 1) ∧
      (e.insertFailed = 0 → Pass (Stream.run (decoded data)) want writable outdir e.insertFailed
        (writeTapes writable outdir 0 (want.zip e.targets)).1
        (writeTapes writable outdir 0 (want.zip e.targets)).2) := by
  have hfew' : (want.map Symbol.fromText).length < 65535 := (List.length_map _).trans_lt hfew
  obtain ⟨e, hrun, husable⟩ := usable_run hmake hadm (decoded data) List.prefix_rfl
  refine ⟨e, (extractTape_run hmake _).trans hrun, fun hfailed => ?_, fun hfailed => ?_⟩
  · exact ⟨⟨fun h => absurd h Nat.one_ne_zero, fun h => absurd h.1 hfailed⟩,
      fun _ f hf => absurd hf List.not_mem_nil, fun _ => List.nil_prefix,
      fun h => absurd h Nat.one_ne_zero⟩
  obtain ⟨hsym, htargets, hmapped⟩ := run_mapped hrun (Mapped.start _ route)
  have hlen : e.targets.length = want.length := by
    rw [htargets, ExtractTape.start, List.length_map, List.length_map]
  by_cases hnodup : (want.map Symbol.fromText).Nodup
  case neg =>
    have hrc := fun hrc => hnodup (writeTapes_twice writable outdir hmapped hsym hlen hrc)
    exact ⟨⟨fun h => absurd h hrc, fun h => absurd h.2.1 hnodup⟩, fun h => absurd h hnodup,
      fun h => absurd h hnodup, fun h => absurd h hrc⟩
  obtain ⟨e₁, hrun₁, hn⟩ := noted_run hnodup hmake hadm (decoded data) List.prefix_rfl
  obtain rfl := Option.some.inj (hrun.symm.trans hrun₁)
  obtain ⟨e', hrun', ht⟩ := tracks_run hnodup hfew' hmake hadm
    (fun _ _ => run_stored_before hrun hfailed) (decoded data) List.prefix_rfl
  obtain rfl := Option.some.inj (hrun.symm.trans hrun')
  have hall := zip_writable writable outdir hn hlen
  constructor
  case exit =>
    rw [writeTapes_rc, hall]
    exact ⟨fun h => ⟨hfailed, hnodup, h.2⟩, fun h => ⟨rfl, h.2.2⟩⟩
  case tapes =>
    intro _ f hf
    obtain ⟨name, tg, hmem, hl, hpath, hbytes⟩ := writeTapes_files hf
    refine ⟨name, (List.of_mem_zip hmem).1, hpath, hbytes ▸ ?_⟩
    exact tapeOf_target ht hn ((decoded_length data).trans_lt hsmall) hmem hl
  case paths =>
    intro _
    have hpaths := @writeTapes_paths writable outdir 0 (want.zip e.targets)
    rw [← zip_listed hn hlen, List.map_map]
    exact hpaths
  case all =>
    intro hzero
    have h := hall.mp (writeTapes_rc.mp hzero).2
    rw [writeTapes_all (hall.mpr h)]
    conv_rhs => rw [← List.map_fst_zip hlen.ge, List.map_map]
    rfl

end Pass

/-- How `main` ends: with its usage, with what the mapping or the index throws, or after a pass. -/
inductive Ends (writable : List UInt8 → Bool) (outdir : List UInt8) (tablePow2 : ℕ)
    (want : List (List UInt8)) (path : String) (file : Option (List UInt8)) :
    Except Thrown (List Written × ℕ) → Prop
  | usage : path = "" ∨ want = [] → Ends _ _ _ _ _ _ (.ok ([], 2))
  | mapping (what : String) : ¬(path = "" ∨ want = []) → mappedFile path file = .error what →
      Ends _ _ _ _ _ _ (.error (.mapping what))
  | table (data : List UInt8) : ¬(path = "" ∨ want = []) → mappedFile path file = .ok data →
      ¬(tablePow2 ≤ maxSize ∧ ∃ k, tablePow2 = 2 ^ k) → Ends _ _ _ _ _ _ (.error .table)
  | pass (data : List UInt8) (e : ExtractTape) (files : List Written) (rc : ℕ) :
      ¬(path = "" ∨ want = []) → mappedFile path file = .ok data →
      extractTape data tablePow2 (want.map Symbol.fromText) = some e →
      Pass (Stream.run (decoded data)) want writable outdir e.insertFailed files rc →
      Ends _ _ _ _ _ _ (.ok (files, rc))

/-- On every stream the extractor ends, with an exit code that is zero exactly when the index had
room for every order, no symbol was requested twice, every symbol was listed and every file could
be opened. Each file it wrote is the tape of its symbol, and with exit code zero there is one for
every symbol. -/
theorem written_tapes (want : List (List UInt8)) (hfew : want.length < 65535) (tablePow2 : ℕ)
    (path : String) (file : Option (List UInt8))
    (hsmall : ∀ data, file = some data → data.length < 2 ^ 64)
    (hadm : ∀ data, file = some data →
      Stream.Admissible (want.map Symbol.fromText) (decoded data))
    (writable : List UInt8 → Bool) (outdir : List UInt8) :
    ∃ r, extractMain writable outdir tablePow2 want path file = some r ∧
      Ends writable outdir tablePow2 want path file r := by
  by_cases husage : path = "" ∨ want = []
  · exact ⟨_, if_pos husage, .usage husage⟩
  cases hmap : mappedFile path file with
  | error what =>
    refine ⟨.error (.mapping what), ?_, .mapping what husage hmap⟩
    simp only [extractMain, if_neg husage, hmap]
  | ok data =>
    have hfile := mappedFile_ok hmap
    cases hmake : (make tablePow2 : Option (OpenHashMap Route)) with
    | none =>
      refine ⟨.error .table, ?_, .table data husage hmap ?_⟩
      · simp only [extractMain, if_neg husage, hmap, hmake]
      · intro hpow
        rw [make_eq_some.mpr ⟨hpow.1, hpow.2, rfl⟩] at hmake
        cases hmake
    | some route =>
      obtain ⟨e, hextract, hno, hyes⟩ := pass_ends writable outdir hfew hmake
        (hsmall data hfile) (hadm data hfile)
      by_cases hfailed : e.insertFailed = 0
      · refine ⟨_, ?_, .pass data e _ _ husage hmap hextract (hyes hfailed)⟩
        simp only [extractMain, if_neg husage, hmap, hmake, hextract, Option.bind_eq_bind,
          Option.bind_some, if_neg (not_not_intro hfailed)]
        rfl
      · refine ⟨_, ?_, .pass data e _ _ husage hmap hextract (hno hfailed)⟩
        simp only [extractMain, if_neg husage, hmap, hmake, hextract, Option.bind_eq_bind,
          Option.bind_some, if_pos hfailed]
        rfl

/-- A directory message and an order of its symbol. -/
def oneListed : List UInt8 :=
  [0, 39, 82, 0, 7, 0, 0, 0, 0, 0, 0, 0, 0, 65, 32, 32, 32, 32, 32, 32, 32,
   78, 78, 0, 0, 0, 100, 78, 67, 90, 32, 80, 78, 32, 49, 78, 0, 0, 0, 0, 78,
   0, 36, 65, 0, 7, 0, 0, 0, 0, 0, 0, 0, 5, 0, 0, 0, 0, 0, 0, 0, 3, 66, 0, 0, 0, 10,
   65, 32, 32, 32, 32, 32, 32, 32, 0, 0, 0, 100]

/-- The order goes to the one tape that is written, and the exit code is zero. -/
theorem written_tapes_one : ∃ f, extractMain (fun _ => true) [46] 16 [[65]] "day" (some oneListed) =
    some (.ok ([f], 0)) ∧ f.path = tapePath [46] [65] ∧
      TapeOf (Stream.run (decoded oneListed)) (Symbol.fromText [65]) f.bytes := by
  have hxs : (messages oneListed).map Prod.fst =
      some [.directory 7 (Symbol.fromText [65]), .add 5 7 3 .buy 10 100] := by
    decide +kernel
  have hdec := Option.some.inj ((messages_eq oneListed).symm.trans hxs)
  have hadm : Stream.Admissible ([[65]].map Symbol.fromText) (decoded oneListed) := by
    rw [hdec]
    intro pre x post h
    match pre, h with
    | [], h =>
      obtain ⟨rfl, -⟩ := List.cons.inj h
      exact fun _ s _ l hs => nomatch hs
    | [a], h =>
      obtain ⟨ha, h⟩ := List.cons.inj h
      obtain ⟨rfl, -⟩ := List.cons.inj h
      subst ha
      exact ⟨by decide, by decide, rfl⟩
    | _ :: _ :: pre, h => exact absurd (congrArg List.length h) (by simp)
  have hsmall : oneListed.length < 2 ^ 64 := by decide
  obtain ⟨r, hmain, hends⟩ := written_tapes [[65]] (by decide) 16 "day" (some oneListed)
    (fun data h => Option.some.inj h ▸ hsmall) (fun data h => Option.some.inj h ▸ hadm)
    (fun _ => true) [46]
  have hstored : (extractTape oneListed 16 [Symbol.fromText [65]]).map
      ExtractTape.insertFailed = some 0 := by decide +kernel
  cases hends with
  | usage husage => exact absurd husage (by decide)
  | mapping what _ hmap => cases hmap
  | table data _ _ hpow => exact absurd ⟨by decide, 4, rfl⟩ hpow
  | pass data e files rc _ hmap hextract h =>
    obtain rfl : oneListed = data := Except.ok.inj hmap
    have hroom : e.insertFailed = 0 := by
      rw [List.map_singleton] at hextract
      rw [hextract] at hstored
      exact Option.some.inj hstored
    have hzero : rc = 0 := by
      refine h.exit.mpr ⟨hroom, List.nodup_singleton _, fun name hname => ⟨?_, rfl⟩⟩
      rw [List.mem_singleton.mp hname, hdec]
      decide +kernel
    obtain ⟨f, rfl⟩ : ∃ f, files = [f] := by
      have hlen := congrArg List.length (h.all hzero)
      rw [List.length_map, List.length_map] at hlen
      exact List.length_eq_one_iff.mp hlen
    obtain ⟨name, hname, hpath, htape⟩ := h.tapes (List.nodup_singleton _) f (List.mem_singleton_self f)
    rw [List.mem_singleton.mp hname] at hpath htape
    exact ⟨f, hzero ▸ hmain, hpath, htape⟩

end Hotpath.Tools
