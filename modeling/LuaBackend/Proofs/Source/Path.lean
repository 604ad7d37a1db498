import LuaBackend.Proofs.Text.Segments
import LuaBackend.Source.Path

/-!
# The one spelling of a path

`normal` has nothing left to do on a path that it has spelled. The names
that `cancel` keeps are `Reduced`: there is no `.` among them, and `..`
stands only at the start of a relative path. Reduced names pass through
`cancel` as they are, and the spelling of a path is cut into just these
names.
-/

namespace LuaBackend.Source

open Text List

variable {rooted slash : Bool} {kept segs below : List String} {seg s last : String}

def keep (rooted : Bool) (kept : List String) (seg : String) : List String :=
  if seg = "." then kept
  else if seg = ".." then
    match kept with
    | [] => if rooted then [] else [".."]
    | top :: below => if top = ".." then ".." :: kept else below
  else seg :: kept

/-- Cancelling reads the segments one after the other. -/
theorem cancel_eq_foldl (rooted : Bool) (kept segs : List String) :
    cancel rooted kept segs = segs.foldl (keep rooted) kept := by
  induction segs generalizing kept with
  | nil => cases kept <;> rfl
  | cons seg rest ih =>
    rw [foldl_cons, ← ih]
    cases kept <;> grind [cancel, keep]

def Reduced (rooted : Bool) : List String → Prop
  | [] => True
  | seg :: below =>
    seg ≠ "." ∧ (seg = ".." → rooted = false ∧ ∀ s ∈ below, s = "..") ∧ Reduced rooted below

/-- One more segment leaves nothing to cancel. -/
theorem Reduced.keep (h : Reduced rooted kept) (seg : String) :
    Reduced rooted (keep rooted kept seg) := by
  unfold Source.keep
  grind [Reduced]

/-- A reduced name is put before the names below it. -/
theorem keep_of_reduced (h : Reduced rooted (seg :: kept)) : keep rooted kept seg = seg :: kept := by
  obtain ⟨hdot, hup, -⟩ := h
  cases kept with
  | nil => grind [keep]
  | cons top =>
    have htop (hseg : seg = "..") : top = ".." := (hup hseg).2 top (.head _)
    grind [keep]

theorem mem_of_mem_keep (h : s ∈ keep rooted kept seg) : s ∈ kept ∨ s = seg := by
  unfold keep at h
  grind

/-- Cancelling leaves nothing to cancel. -/
theorem reduced_cancel (rooted : Bool) (segs : List String) : Reduced rooted (cancel rooted [] segs) := by
  rw [cancel_eq_foldl]
  exact foldlRecOn segs _ trivial fun _ h seg _ => h.keep seg

/-- Only names that were there are kept. -/
theorem mem_of_mem_cancel (h : s ∈ cancel rooted [] segs) : s ∈ segs := by
  rw [cancel_eq_foldl] at h
  refine foldlRecOn segs _ (motive := fun kept => ∀ s ∈ kept, s ∈ segs)
    (fun _ h => absurd h not_mem_nil) ?_ s h
  intro kept ih seg hseg s hs
  obtain hs | rfl := mem_of_mem_keep hs
  · exact ih s hs
  · exact hseg

theorem cancel_reverse (h : Reduced rooted kept) : cancel rooted [] kept.reverse = kept := by
  rw [cancel_eq_foldl]
  induction kept with
  | nil => rfl
  | cons seg below ih =>
    rw [reverse_cons, foldl_append, ih h.2.2]
    exact keep_of_reduced h

/-! ## Spelling -/

def outline (rooted slash : Bool) (kept : List String) : List String :=
  (if rooted then [""] else []) ++ (kept.reverse ++ if slash then [""] else [])

def isRooted (segs : List String) : Bool := segs.head? == some ""

def names (segs : List String) : List String :=
  cancel (isRooted segs) [] (segs.filter fun seg => seg ≠ "")

def spelling (segs : List String) : String :=
  match names segs with
  | [] => if isRooted segs then "/" else "."
  | last :: _ =>
    (if isRooted segs then "/" else "") ++ "/".intercalate (names segs).reverse ++
      if endsInDirectory segs && last ≠ ".." then "/" else ""

/-- A path is spelled from its segments. -/
theorem normal_eq_spelling {path : String} (h : path ≠ "") :
    normal path = spelling (segments '/' path) := by
  unfold normal
  rw [if_neg (mt String.isEmpty_iff.1 h)]
  rfl

theorem intercalate_outline (hkept : kept ≠ []) : "/".intercalate (outline rooted slash kept) =
    (if rooted then "/" else "") ++ "/".intercalate kept.reverse ++ if slash then "/" else "" := by
  have hnames : kept.reverse ≠ [] := mt reverse_eq_nil_iff.1 hkept
  cases rooted <;> cases slash <;>
    simp [outline, String.intercalate_cons_of_ne_nil, String.intercalate_append_of_ne_nil, hnames,
      String.append_assoc]

/-- Where names are left, the spelling is joined from them. -/
theorem spelling_of_names (h : names segs = last :: below) : spelling segs = "/".intercalate
    (outline (isRooted segs) (endsInDirectory segs && last ≠ "..") (last :: below)) := by
  rw [spelling, h]
  exact (intercalate_outline (cons_ne_nil last below)).symm

/-- The spelling begins at the root exactly if it is to. -/
theorem isRooted_outline (hkept : kept ≠ []) (hnames : ∀ s ∈ kept, s ≠ "") :
    isRooted (outline rooted slash kept) = rooted := by
  cases rooted with
  | true => rfl
  | false =>
    obtain ⟨first, rest, hfirst⟩ := exists_cons_of_ne_nil (mt reverse_eq_nil_iff.1 hkept)
    have hne : first ≠ "" := hnames first (mem_reverse.1 (hfirst ▸ .head rest))
    simpa [isRooted, outline, hfirst] using hne

/-- The names are read back from the spelling. -/
theorem filter_outline (hnames : ∀ s ∈ kept, s ≠ "") :
    (outline rooted slash kept).filter (fun seg => seg ≠ "") = kept.reverse := by
  cases rooted <;> cases slash <;> simpa [outline] using hnames

/-- The spelling ends in a separator exactly if it is to name a directory. -/
theorem endsInDirectory_outline (hlast : last ≠ "") (hdot : last ≠ ".")
    (hslash : slash = true → last ≠ "..") :
    (endsInDirectory (outline rooted slash (last :: below)) && last ≠ "..") = slash := by
  cases slash with
  | true => simp [endsInDirectory, outline, hslash]
  | false => simp [endsInDirectory, outline, hlast, hdot]

/-- A spelling in which names are left is spelled as it is. -/
theorem spelling_outline (hreduced : Reduced rooted (last :: below))
    (hnames : ∀ s ∈ last :: below, s ≠ "") (hslash : slash = true → last ≠ "..") :
    spelling (outline rooted slash (last :: below)) =
      "/".intercalate (outline rooted slash (last :: below)) := by
  have hrooted : isRooted (outline rooted slash (last :: below)) = rooted :=
    isRooted_outline (cons_ne_nil last below) hnames
  have hkept : names (outline rooted slash (last :: below)) = last :: below := by
    rw [names, hrooted, filter_outline hnames, cancel_reverse hreduced]
  rw [spelling_of_names hkept, hrooted,
    endsInDirectory_outline (hnames last (.head _)) hreduced.1 hslash]

/-- A spelling in which names are left is cut into its segments. -/
theorem segments_outline (hkept : kept ≠ []) (hfree : ∀ s ∈ kept, '/' ∉ s.toList) :
    segments '/' ("/".intercalate (outline rooted slash kept)) = outline rooted slash kept := by
  refine segments_intercalate (by simp [outline, hkept]) fun s hs => ?_
  have hs : s ∈ kept ∨ s = "" := by
    cases rooted <;> cases slash <;> simp [outline] at hs <;> grind
  obtain hs | rfl := hs
  · exact hfree s hs
  · decide

/-- A path that is spelled from reduced names is spelled as it is. -/
theorem normal_intercalate_outline (hreduced : Reduced rooted (last :: below))
    (hnames : ∀ s ∈ last :: below, s ≠ "" ∧ '/' ∉ s.toList) (hslash : slash = true → last ≠ "..") :
    normal ("/".intercalate (outline rooted slash (last :: below))) =
      "/".intercalate (outline rooted slash (last :: below)) := by
  have hne : last :: below ≠ [] := cons_ne_nil last below
  have hsegs : segments '/' ("/".intercalate (outline rooted slash (last :: below))) =
      outline rooted slash (last :: below) := segments_outline hne fun s hs => (hnames s hs).2
  have hpath : "/".intercalate (outline rooted slash (last :: below)) ≠ "" := fun hempty => by
    have hlast : last ∈ segments '/' "" := by
      rw [← hempty, hsegs]
      simp [outline]
    exact (hnames last (.head _)).1 (mem_singleton.1 hlast)
  rw [normal_eq_spelling hpath, hsegs]
  exact spelling_outline hreduced (fun s hs => (hnames s hs).1) hslash

/-- A path in its one spelling is spelled as it is. -/
theorem normal_normal (path : String) : normal (normal path) = normal path := by
  by_cases hpath : path = ""
  · rw [hpath]
    rfl
  rw [normal_eq_spelling hpath]
  cases hkept : names (segments '/' path) with
  | nil =>
    rw [spelling, hkept]
    dsimp only
    split <;> decide
  | cons last below =>
    have hreduced : Reduced (isRooted (segments '/' path)) (last :: below) := by
      rw [← hkept]
      exact reduced_cancel _ _
    rw [spelling_of_names hkept]
    refine normal_intercalate_outline hreduced (fun s hs => ?_) fun hslash => ?_
    · rw [← hkept] at hs
      obtain ⟨hseg, hne⟩ := mem_filter.1 (mem_of_mem_cancel hs)
      exact ⟨of_decide_eq_true hne, notMem_of_mem_segments hseg⟩
    · exact of_decide_eq_true (Bool.and_eq_true_iff.1 hslash).2

end LuaBackend.Source
