import Mathlib.Data.Finset.Card
import LuaBackend.Proofs.Source.Path
import LuaBackend.Source.FileTable

/-!
# Numbers of files

A table that has registered some paths holds each of them once, in its one
spelling, in the order of their first registration. Registering more only
adds to the end, so what a call returns is the position that its path has
for good: `number` reads it off any later table.
-/

namespace LuaBackend.Source.FileTable

open List UInt32

variable {table : FileTable} {calls later : List String} {path s : String}

def number (table : FileTable) (s : String) : UInt32 := .ofNat (table.paths.idxOf s + 1)

def after (table : FileTable) (calls : List String) : FileTable :=
  calls.foldl (fun table path => (table.add path).2) table

def log (table : FileTable) : List String → List (String × UInt32)
  | [] => []
  | path :: rest => (path, (table.add path).1) :: log (table.add path).2 rest

def distinct (calls : List String) : Nat := (calls.map normal).toFinset.card

/-! ## One registration -/

/-- A path that is stored is found again. -/
theorem add_of_mem (h : normal path ∈ table.paths) :
    table.add path = (table.number (normal path), table) := by
  obtain ⟨i, hi⟩ := Option.isSome_iff_exists.1 (isSome_idxOf?.2 h)
  have hidx : table.paths.idxOf (normal path) = i := by
    rw [idxOf_eq_getD_idxOf?, hi, Option.getD_some]
  rw [add, hi, number, hidx]

/-- A new path is stored at the end and gets the next number. -/
theorem add_of_notMem (h : normal path ∉ table.paths) (hroom : table.paths.length + 1 < size) :
    table.add path = (.ofNat (table.paths.length + 1), ⟨table.paths ++ [normal path]⟩) := by
  rw [add, idxOf?_eq_none_iff.2 h]
  exact if_pos hroom

/-- When the numbers are used up, a new path is not stored. -/
theorem add_of_full (h : normal path ∉ table.paths) (hfull : ¬ table.paths.length + 1 < size) :
    table.add path = (0, table) := by
  rw [add, idxOf?_eq_none_iff.2 h]
  exact if_neg hfull

/-- Registering a path at most adds to the table. -/
theorem prefix_add (table : FileTable) (path : String) : table.paths <+: (table.add path).2.paths := by
  by_cases h : normal path ∈ table.paths
  · rw [add_of_mem h]
  · by_cases hroom : table.paths.length + 1 < size
    · rw [add_of_notMem h hroom]
      exact prefix_append _ _
    · rw [add_of_full h hroom]

theorem number_add (h : s ∈ table.paths) (path : String) :
    (table.add path).2.number s = table.number s := by
  obtain ⟨more, hmore⟩ := prefix_add table path
  rw [number, ← hmore, idxOf_append_of_mem h, number]

/-- A call that stores its path returns the number that the path has from
then on. -/
theorem add_fst (hmem : normal path ∈ (table.add path).2.paths) :
    (table.add path).1 = (table.add path).2.number (normal path) := by
  by_cases h : normal path ∈ table.paths
  · rw [add_of_mem h]
  · by_cases hroom : table.paths.length + 1 < size
    · rw [add_of_notMem h hroom, number, idxOf_append_of_notMem h, idxOf_cons_self, Nat.add_zero]
    · rw [add_of_full h hroom] at hmem
      exact absurd hmem h

/-- The table holds what was registered, once. -/
structure Holds (table : FileTable) (calls : List String) : Prop where
  nodup : table.paths.Nodup
  mem_iff : ∀ s, s ∈ table.paths ↔ s ∈ calls.map normal

/-- As many paths are stored as were registered. -/
theorem Holds.length_eq (h : table.Holds calls) : table.paths.length = distinct calls := by
  rw [distinct, ← toFinset.ext h.mem_iff, toFinset_card_of_nodup h.nodup]

/-- One more registration, while numbers last. -/
theorem Holds.add (h : table.Holds calls) (hfits : distinct (calls ++ [path]) < size) :
    (table.add path).2.Holds (calls ++ [path]) := by
  by_cases hmem : normal path ∈ table.paths
  · rw [add_of_mem hmem]
    refine ⟨h.nodup, fun s => ?_⟩
    have hseen := (h.mem_iff (normal path)).1 hmem
    rw [h.mem_iff, map_append, mem_append]
    exact ⟨.inl, fun hs => hs.elim id fun hs => mem_singleton.1 hs ▸ hseen⟩
  · have hmore : Holds ⟨table.paths ++ [normal path]⟩ (calls ++ [path]) := by
      refine ⟨concat_eq_append ▸ (nodup_concat _ _).2 ⟨hmem, h.nodup⟩, fun s => ?_⟩
      rw [mem_append, h.mem_iff, map_append, mem_append]
      rfl
    have hroom : table.paths.length + 1 < size := by
      rwa [← hmore.length_eq, length_append] at hfits
    rwa [add_of_notMem hmem hroom]

theorem distinct_le_append (calls later : List String) :
    distinct calls ≤ distinct (calls ++ later) := by
  refine Finset.card_le_card fun s hs => mem_toFinset.2 ?_
  rw [map_append]
  exact mem_append_left _ (mem_toFinset.1 hs)

theorem distinct_snoc_lt {path : String} (hfits : distinct (calls ++ path :: later) < size) :
    distinct (calls ++ [path]) < size := by
  rw [append_cons] at hfits
  exact Nat.lt_of_le_of_lt (distinct_le_append _ _) hfits

/-- Any registrations, while numbers last. -/
theorem Holds.after (h : table.Holds calls) (hfits : distinct (calls ++ later) < size) :
    (table.after later).Holds (calls ++ later) := by
  induction later generalizing table calls with
  | nil => rwa [append_nil]
  | cons path rest ih =>
    have hadd := h.add (distinct_snoc_lt hfits)
    rw [append_cons] at hfits ⊢
    exact ih hadd hfits

theorem holds_empty : Holds {} [] := ⟨nodup_nil, fun _ => Iff.rfl⟩

theorem holds_after (hfits : distinct calls < size) : (after {} calls).Holds calls :=
  holds_empty.after hfits

/-- What is stored keeps its number through all registrations. -/
theorem number_after (h : s ∈ table.paths) (calls : List String) :
    (table.after calls).number s = table.number s := by
  induction calls generalizing table with
  | nil => rfl
  | cons path rest ih =>
    rw [← number_add h path]
    exact ih ((prefix_add table path).subset h)

/-- The number returned by a call is the one that its path has in the end. -/
theorem Holds.snd_of_mem_log (hholds : table.Holds calls)
    (hfits : distinct (calls ++ later) < size) {entry : String × UInt32}
    (h : entry ∈ log table later) : entry.2 = (table.after later).number (normal entry.1) := by
  induction later generalizing table calls with
  | nil => exact absurd h not_mem_nil
  | cons path rest ih =>
    have hadd := hholds.add (distinct_snoc_lt hfits)
    obtain rfl | h := mem_cons.1 h
    · have hmem : normal path ∈ (table.add path).2.paths :=
        (hadd.mem_iff _).2 (mem_map_of_mem (mem_append_right _ mem_cons_self))
      exact (add_fst hmem).trans (number_after hmem rest).symm
    · rw [append_cons] at hfits
      exact ih hadd hfits h

/-- What was returned for a path is its number ever after. -/
theorem snd_of_mem_log (hfits : distinct calls < size) {entry : String × UInt32}
    (h : entry ∈ log {} calls) : entry.2 = (after {} calls).number (normal entry.1) :=
  holds_empty.snd_of_mem_log hfits h

theorem map_fst_log (table : FileTable) (calls : List String) :
    (log table calls).map Prod.fst = calls := by
  induction calls generalizing table with
  | nil => rfl
  | cons path rest ih => rw [log, map_cons, ih]

/-! ## Numbers and paths -/

section

variable (hfits : table.paths.length < size) (h : s ∈ table.paths)
include hfits h

theorem toNat_number : (table.number s).toNat = table.paths.idxOf s + 1 := by
  have hlt := idxOf_lt_length_iff.2 h
  exact toNat_ofNat_of_lt' (by omega)

/-- The path with the number of a stored path is this path. -/
theorem path_number : table.path (table.number s) = s := by
  have hnat := toNat_number hfits h
  have hne : table.number s ≠ 0 := fun hzero => by
    rw [hzero] at hnat
    exact absurd hnat.symm (Nat.succ_ne_zero _)
  rw [path, if_neg hne, hnat, Nat.add_sub_cancel, getD_eq_getElem?_getD,
    getElem?_eq_getElem (idxOf_lt_length_iff.2 h), Option.getD_some]
  exact getElem_idxOf _

/-- Different paths have different numbers. -/
theorem number_injective
    {t : String} (ht : t ∈ table.paths) (heq : table.number s = table.number t) : s = t := by
  rw [← path_number hfits h, heq, path_number hfits ht]

end

/-- Every number up to the last one is the number of a path. -/
theorem Holds.exists_number (h : table.Holds calls) {file : UInt32} (hpos : 1 ≤ file.toNat)
    (hle : file.toNat ≤ table.paths.length) : ∃ s ∈ table.paths, table.number s = file := by
  have hlt : file.toNat - 1 < table.paths.length := by omega
  refine ⟨table.paths[file.toNat - 1], getElem_mem hlt, ?_⟩
  rw [number, h.nodup.idxOf_getElem, Nat.sub_add_cancel hpos, UInt32.ofNat_toNat]

/-- What the numbers that calls return are good for, then and after later
calls. -/
structure Lasting (calls later : List String) : Prop where
  /-- The numbers that were returned are those from one up to the number
  of different paths. -/
  dense : ∀ file : UInt32, (∃ path, (path, file) ∈ log {} calls) ↔
    1 ≤ file.toNat ∧ file.toNat ≤ distinct calls
  same_iff : ∀ a ∈ log {} calls, ∀ b ∈ log {} calls, a.2 = b.2 ↔ normal a.1 = normal b.1
  path_eq : ∀ a ∈ log {} calls, (after {} (calls ++ later)).path a.2 = normal a.1
  path_zero : (after {} calls).path 0 = ""
  path_unissued : ∀ file, (∀ a ∈ log {} calls, a.2 ≠ file) → (after {} calls).path file = ""
  /-- A path that a number stands for can be registered again. -/
  again : ∀ a ∈ log {} calls,
    (after {} calls).add ((after {} calls).path a.2) = (a.2, after {} calls)

/-- Numbers beyond the last one have no path. -/
theorem path_of_lt {file : UInt32} (h : table.paths.length < file.toNat) : table.path file = "" := by
  rw [path]
  split
  · rfl
  · rw [getD_eq_getElem?_getD, getElem?_eq_none (by omega), Option.getD_none]

section

variable (hfits : distinct calls < size)
include hfits

/-- The table never outgrows the numbers. -/
theorem length_after_lt : (after {} calls).paths.length < size := by
  rwa [(holds_after hfits).length_eq]

theorem mem_paths_of_mem_log {entry : String × UInt32} (h : entry ∈ log {} calls) :
    normal entry.1 ∈ (after {} calls).paths := by
  refine ((holds_after hfits).mem_iff _).2 (mem_map_of_mem ?_)
  exact map_fst_log {} calls ▸ mem_map_of_mem h

theorem exists_log_of_mem_paths (h : s ∈ (after {} calls).paths) :
    ∃ entry ∈ log {} calls, normal entry.1 = s := by
  obtain ⟨path, hpath, rfl⟩ := mem_map.1 (((holds_after hfits).mem_iff s).1 h)
  rw [← map_fst_log {} calls] at hpath
  obtain ⟨entry, hentry, rfl⟩ := mem_map.1 hpath
  exact ⟨entry, hentry, rfl⟩

/-- The numbers handed out are those of the paths in the table. -/
theorem exists_log_iff {file : UInt32} : (∃ path, (path, file) ∈ log {} calls) ↔
    1 ≤ file.toNat ∧ file.toNat ≤ distinct calls := by
  have hholds := holds_after hfits
  have hlength := length_after_lt hfits
  rw [← hholds.length_eq]
  constructor
  · rintro ⟨path, hentry⟩
    have hmem := mem_paths_of_mem_log hfits hentry
    have hnat : file.toNat = _ := snd_of_mem_log hfits hentry ▸ toNat_number hlength hmem
    have hlt := idxOf_lt_length_iff.2 hmem
    omega
  · rintro ⟨hpos, hle⟩
    obtain ⟨s, hs, rfl⟩ := hholds.exists_number hpos hle
    obtain ⟨entry, hentry, rfl⟩ := exists_log_of_mem_paths hfits hs
    exact ⟨entry.1, snd_of_mem_log hfits hentry ▸ hentry⟩

/-- The number that was returned for a path leads back to it. -/
theorem path_of_mem_log {entry : String × UInt32} (h : entry ∈ log {} calls) :
    (after {} calls).path entry.2 = normal entry.1 := by
  rw [snd_of_mem_log hfits h,
    path_number (length_after_lt hfits) (mem_paths_of_mem_log hfits h)]

end

theorem log_append (table : FileTable) (calls later : List String) :
    log table (calls ++ later) = log table calls ++ log (table.after calls) later := by
  induction calls generalizing table with
  | nil => rfl
  | cons path rest ih => exact congrArg (_ :: ·) (ih _)

/-- What a call returns names its path in its one spelling, for good. -/
theorem numbers_last (calls later : List String) (hfits : distinct (calls ++ later) < size) :
    Lasting calls later := by
  have hnow : distinct calls < size := Nat.lt_of_le_of_lt (distinct_le_append calls later) hfits
  refine ⟨fun file => exists_log_iff hnow, fun a ha b hb => ?_, fun a ha => ?_, rfl, fun file h => ?_,
    fun a ha => ?_⟩
  · rw [snd_of_mem_log hnow ha, snd_of_mem_log hnow hb]
    exact ⟨number_injective (length_after_lt hnow) (mem_paths_of_mem_log hnow ha)
      (mem_paths_of_mem_log hnow hb), congrArg (number _)⟩
  · refine path_of_mem_log hfits ?_
    rw [log_append]
    exact mem_append_left _ ha
  · by_cases hzero : file = 0
    · rw [hzero]
      rfl
    · refine path_of_lt (Nat.not_le.1 fun hle => ?_)
      rw [(holds_after hnow).length_eq] at hle
      have hpos : 1 ≤ file.toNat := Nat.pos_of_ne_zero fun h => hzero (UInt32.toNat_inj.1 h)
      obtain ⟨path, hentry⟩ := (exists_log_iff hnow).2 ⟨hpos, hle⟩
      exact h _ hentry rfl
  · have hmem := mem_paths_of_mem_log hnow ha
    rw [path_of_mem_log hnow ha, add_of_mem, normal_normal, snd_of_mem_log hnow ha]
    rwa [normal_normal]

/-- Two spellings of one path, one of another, and a path that comes later. -/
theorem numbers_last_twoSpellings : Lasting ["src/./a", "b/", "src//x/../a"] ["../c"] :=
  numbers_last _ _ (by decide)

end LuaBackend.Source.FileTable
