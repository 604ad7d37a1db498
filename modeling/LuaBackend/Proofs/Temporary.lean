import Mathlib.Data.List.Range
import LuaBackend.Temporary

/-!
# Runs of a supply

A supply is drawn from, reset, copied and put back to a copy in any order.
`Ledger` is what can be seen of that from outside: it enters the numbers
that are handed out and knows nothing of the counter. Along every run the
counter `Covers` the numbers that the ledger has outstanding: they are the
first ones of the range, and each copy covers those that were outstanding
when it was taken. What a run promises (`Orderly`) is read off that.
-/

namespace LuaBackend.TempSupply

open List UInt32

/-- What is done with a supply. -/
inductive Step where
  | fresh (type : Ty)
  | reset
  /-- Takes a copy of the supply. -/
  | save
  /-- Puts the supply back to a copy, counted from zero. Without such a
  copy it stays as it is. -/
  | restore (copy : Nat)

/-- A supply and the copies taken of it. -/
structure Bench where
  supply : TempSupply
  copies : List TempSupply := []

def Bench.act (b : Bench) : Step → Option UInt32 × Bench
  | .fresh type =>
    match b.supply.fresh type with
    | .ok (v, rest) => (some v.id, { b with supply := rest })
    | .error _ => (none, b)
  | .reset => (none, { b with supply := b.supply.reset })
  | .save => (none, { b with copies := b.copies ++ [b.supply] })
  | .restore copy => (none, { b with supply := b.copies.getD copy b.supply })

/-- The numbers seen from outside. -/
structure Ledger where
  /-- Those outstanding when the supply was last reset or put back. -/
  held : List UInt32 := []
  /-- Those handed out since then. -/
  since : List UInt32 := []
  /-- Those outstanding when each copy was taken. -/
  saved : List (List UInt32) := []
  /-- All that were ever handed out. -/
  ever : List UInt32 := []

def Ledger.outstanding (l : Ledger) : List UInt32 := l.held ++ l.since

def Ledger.enter (l : Ledger) (given : Option UInt32) : Step → Ledger
  | .fresh _ => { l with since := l.since ++ given.toList, ever := l.ever ++ given.toList }
  | .reset => { l with held := [], since := [] }
  | .save => { l with saved := l.saved ++ [l.outstanding] }
  | .restore copy => { l with held := l.saved.getD copy l.outstanding, since := [] }

/-- A supply in use, and what was seen of it. -/
structure Run where
  bench : Bench
  ledger : Ledger := {}

def Run.step (r : Run) (step : Step) : Run :=
  ⟨(r.bench.act step).2, r.ledger.enter (r.bench.act step).1 step⟩

def Run.steps (r : Run) (steps : List Step) : Run := steps.foldl Run.step r

variable {start : UInt32} {s : TempSupply} {ids : List UInt32} {r : Run} {type : Ty}

/-- The supply has handed out the numbers, which are the first ones from
`start` on. -/
structure Covers (start : UInt32) (s : TempSupply) (ids : List UInt32) : Prop where
  first_eq : s.first = start.toNat
  next_eq : s.next = start.toNat + ids.length
  next_le : s.next ≤ size
  ids_eq : ids.map toNat = range' start.toNat ids.length

/-- A new supply has handed out nothing. -/
theorem covers_nil (h : s.first = start.toNat) (hnext : s.next = start.toNat) : Covers start s [] :=
  ⟨h, hnext, hnext ▸ start.toNat_lt.le, rfl⟩

/-- The count is the count of the numbers handed out. -/
theorem Covers.count_eq (h : Covers start s ids) : s.count = ids.length := by
  rw [count, h.first_eq, h.next_eq, Nat.add_sub_cancel_left]

theorem Covers.count_le (h : Covers start s ids) : s.count ≤ size - start.toNat := by
  have hle := h.next_eq ▸ h.next_le
  rw [h.count_eq]
  omega

/-- The counter has left the range exactly when every number is taken. -/
theorem Covers.size_le_iff (h : Covers start s ids) :
    size ≤ s.next ↔ s.count = size - start.toNat := by
  have hle := h.next_eq ▸ h.next_le
  rw [h.count_eq, h.next_eq]
  omega

/-- A supply out of the range hands out nothing. -/
theorem fresh_of_size_le (h : size ≤ s.next) (type : Ty) : s.fresh type = .error .exhausted :=
  if_pos h

/-- A supply within the range hands out its counter. -/
theorem fresh_of_lt (h : s.next < size) (type : Ty) :
    ∃ v, v.id = ofNat s.next ∧ s.fresh type = .ok (v, ⟨s.first, s.next + 1⟩) :=
  ⟨_, rfl, if_neg (Nat.not_le.2 h)⟩

theorem Covers.fresh (h : Covers start s ids) (hlt : s.next < size) :
    Covers start ⟨s.first, s.next + 1⟩ (ids ++ [ofNat s.next]) := by
  refine ⟨h.first_eq, ?_, hlt, ?_⟩
  · rw [h.next_eq, length_append, length_singleton, Nat.add_assoc]
  · -- The counter is below the bound, so narrowing it loses nothing.
    have hnarrow : (ofNat s.next).toNat = start.toNat + ids.length := by
      rw [toNat_ofNat_of_lt' hlt, h.next_eq]
    rw [map_append, h.ids_eq, length_append, length_singleton, range'_concat,
      map_singleton, hnarrow, Nat.one_mul]

/-- The counter covers what is outstanding, and each copy what was
outstanding when it was taken. -/
structure Balanced (start : UInt32) (r : Run) : Prop where
  covers : Covers start r.bench.supply r.ledger.outstanding
  copies : List.Forall₂ (Covers start) r.bench.copies r.ledger.saved
  ever_ge : ∀ id ∈ r.ledger.ever, start.toNat ≤ id.toNat

theorem Covers.le_of_mem (h : Covers start s ids) {id : UInt32} (hid : id ∈ ids) :
    start.toNat ≤ id.toNat := by
  have hmem : id.toNat ∈ range' start.toNat ids.length := h.ids_eq ▸ mem_map_of_mem hid
  exact (mem_range'_1.1 hmem).1

theorem step_fresh_of_size_le (h : size ≤ r.bench.supply.next) (type : Ty) :
    r.step (.fresh type) = r := by
  simp [Run.step, Bench.act, Ledger.enter, fresh_of_size_le h]

theorem step_fresh_of_lt (h : r.bench.supply.next < size) (type : Ty) : r.step (.fresh type) =
    ⟨{ r.bench with supply := ⟨r.bench.supply.first, r.bench.supply.next + 1⟩ }, { r.ledger with
          since := r.ledger.since ++ [ofNat r.bench.supply.next]
          ever := r.ledger.ever ++ [ofNat r.bench.supply.next] }⟩ := by
  obtain ⟨v, hid, hv⟩ := fresh_of_lt h type
  simp [Run.step, Bench.act, Ledger.enter, hv, hid]

/-- Drawing keeps the balance, whether a number is left or not. -/
theorem balanced_fresh (h : Balanced start r) (type : Ty) : Balanced start (r.step (.fresh type)) := by
  by_cases hle : size ≤ r.bench.supply.next
  · rwa [step_fresh_of_size_le hle]
  · have hlt := Nat.not_le.1 hle
    have hcovers := h.covers.fresh hlt
    rw [step_fresh_of_lt hlt]
    refine ⟨?_, h.copies, fun id hid => ?_⟩
    · rwa [Ledger.outstanding, ← append_assoc]
    · obtain hid | hid := mem_append.1 hid
      · exact h.ever_ge id hid
      · exact hcovers.le_of_mem (mem_append_right _ hid)

/-- The copy that is put back covers what was outstanding then. -/
theorem covers_getD {copies : List TempSupply} {saved : List (List UInt32)}
    (h : List.Forall₂ (Covers start) copies saved) (hs : Covers start s ids) (copy : Nat) :
    Covers start (copies.getD copy s) (saved.getD copy ids) := by
  induction h generalizing copy with
  | nil => exact hs
  | cons hcopy _ ih =>
    cases copy with
    | zero => exact hcopy
    | succ copy => exact ih copy

theorem balanced_step (h : Balanced start r) (step : Step) : Balanced start (r.step step) := by
  cases step with
  | fresh type => exact balanced_fresh h type
  | reset => exact ⟨covers_nil h.covers.first_eq h.covers.first_eq, h.copies, h.ever_ge⟩
  | save => exact ⟨h.covers, rel_append h.copies (.cons h.covers .nil), h.ever_ge⟩
  | restore copy =>
    refine ⟨?_, h.copies, h.ever_ge⟩
    rw [Ledger.outstanding]
    exact (append_nil _).symm ▸ covers_getD h.copies h.covers copy

theorem balanced_steps (h : Balanced start r) (steps : List Step) : Balanced start (r.steps steps) :=
  foldlRecOn steps _ h fun _ h step _ => balanced_step h step

/-- What can be relied on after any steps with a supply from `start` on. -/
structure Orderly (start : UInt32) (r : Run) : Prop where
  inRange : ∀ id ∈ r.ledger.ever, start.toNat ≤ id.toNat ∧ id.toNat ≤ size - 1
  increasing : r.ledger.since.Pairwise (· < ·)
  /-- The numbers follow each other and those that were held. -/
  gapless : r.ledger.since.map toNat =
    range' (start.toNat + r.ledger.held.length) r.ledger.since.length
  apart : ∀ id ∈ r.ledger.since, id ∉ r.ledger.held
  count_eq : r.bench.supply.count = r.ledger.outstanding.length
  count_le : r.bench.supply.count ≤ size - start.toNat
  count_reset : (r.step .reset).bench.supply.count = 0
  count_restore : ∀ copy ids, r.ledger.saved[copy]? = some ids →
    (r.step (.restore copy)).bench.supply.count = ids.length
  fails_iff : ∀ type, (∃ fault, r.bench.supply.fresh type = .error fault) ↔
    r.bench.supply.count = size - start.toNat
  /-- Once the supply fails, asking again and again changes nothing. -/
  stuck : ∀ type fault, r.bench.supply.fresh type = .error fault →
    ∀ types : List Ty, r.steps (types.map .fresh) = r

section

variable (h : Balanced start r)
include h

/-- The numbers outstanding are the first ones of the range. -/
theorem Balanced.ids_eq :
    r.ledger.held.map toNat ++ r.ledger.since.map toNat = range' start.toNat r.ledger.held.length ++
        range' (start.toNat + r.ledger.held.length) r.ledger.since.length := by
  rw [← map_append, range'_append_1, ← length_append]
  exact h.covers.ids_eq

theorem Balanced.held_eq : r.ledger.held.map toNat = range' start.toNat r.ledger.held.length :=
  (append_inj h.ids_eq (by simp)).1

theorem Balanced.since_eq : r.ledger.since.map toNat =
    range' (start.toNat + r.ledger.held.length) r.ledger.since.length :=
  (append_inj h.ids_eq (by simp)).2

/-- Numbers are handed out in increasing order. -/
theorem Balanced.increasing : r.ledger.since.Pairwise (· < ·) := by
  have hpairs : (r.ledger.since.map toNat).Pairwise (· < ·) :=
    h.since_eq ▸ pairwise_lt_range'
  exact (pairwise_map.1 hpairs).imp lt_iff_toNat_lt.2

/-- What was held lies below what was handed out since. -/
theorem Balanced.apart : ∀ id ∈ r.ledger.since, id ∉ r.ledger.held := by
  intro id hsince hheld
  have hlow : id.toNat ∈ range' start.toNat r.ledger.held.length :=
    h.held_eq ▸ mem_map_of_mem hheld
  have hhigh : id.toNat ∈ range' (start.toNat + r.ledger.held.length) r.ledger.since.length :=
    h.since_eq ▸ mem_map_of_mem hsince
  have := mem_range'_1.1 hlow
  have := mem_range'_1.1 hhigh
  omega

end

/-- A supply fails exactly when it has left the range. -/
theorem exists_fault_iff : (∃ fault, s.fresh type = .error fault) ↔ size ≤ s.next := by
  refine ⟨?_, fun h => ⟨_, fresh_of_size_le h type⟩⟩
  rintro ⟨fault, hfault⟩
  by_contra hlt
  obtain ⟨v, -, hv⟩ := fresh_of_lt (Nat.not_le.1 hlt) type
  cases hv.symm.trans hfault

/-- A supply that has run out stays as it is. -/
theorem steps_fresh_of_size_le (h : size ≤ r.bench.supply.next) (types : List Ty) :
    r.steps (types.map .fresh) = r := by
  induction types with
  | nil => rfl
  | cons type rest ih =>
    rw [map_cons, Run.steps, foldl_cons, step_fresh_of_size_le h]
    exact ih

/-- What is relied on follows from the balance. -/
theorem Balanced.orderly (h : Balanced start r) : Orderly start r where
  inRange id hid := ⟨h.ever_ge id hid, Nat.le_sub_one_of_lt id.toNat_lt⟩
  increasing := h.increasing
  gapless := h.since_eq
  apart := h.apart
  count_eq := h.covers.count_eq
  count_le := h.covers.count_le
  count_reset := (balanced_step h .reset).covers.count_eq
  count_restore copy ids hids := by
    rw [(balanced_step h (.restore copy)).covers.count_eq]
    simp [Run.step, Ledger.enter, Ledger.outstanding, hids]
  fails_iff _ := exists_fault_iff.trans h.covers.size_le_iff
  stuck _ fault hfault := steps_fresh_of_size_le (exists_fault_iff.1 ⟨fault, hfault⟩)

/-- A supply from a reserved number on stays orderly whatever is done with
it. -/
theorem runs_are_orderly (start : UInt32) (h : tempBase ≤ start) (steps : List Step) :
    ∃ s, startingAt start = .ok s ∧ Orderly start (Run.steps ⟨⟨s, []⟩, {}⟩ steps) := by
  refine ⟨_, if_neg (UInt32.not_lt.2 h), (balanced_steps ?_ steps).orderly⟩
  exact ⟨covers_nil rfl rfl, .nil, fun id hid => absurd hid not_mem_nil⟩

/-- The last two numbers of the range are handed out, one of them twice:
the supply is put back to a copy taken before it ran out. -/
theorem runs_are_orderly_exhausted : tempBase ≤ (0xfffffffe : UInt32) ∧
    ∃ s, startingAt 0xfffffffe = .ok s ∧ Orderly 0xfffffffe (Run.steps ⟨⟨s, []⟩, {}⟩
      [.fresh .dynamic, .save, .fresh .untyped, .fresh .dynamic, .save, .restore 0, .fresh .dynamic,
        .restore 1, .fresh .dynamic]) :=
  ⟨by decide, runs_are_orderly _ (by decide) _⟩

end LuaBackend.TempSupply
