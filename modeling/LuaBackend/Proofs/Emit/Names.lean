import LuaBackend.Proofs.Emit.Form

/-!
# Names of the program and names of generated code

A local of the program keeps its name unless it is reserved; then it gets
an underscore at its end. Generated names are all reserved, and none but
the discarded local ends in an underscore, so no local of the program is
given one. A renamed local may meet one that keeps its name: `end` is
renamed to `end_`.
-/

namespace LuaBackend.Lua

open List

variable {a b name : String} {u v : Var}

def reservedWords : List String := keywords ++ discard :: runtimeGlobals

theorem isReservedLocal_iff : isReservedLocal name = true ↔
    name ∈ reservedWords ∨ reservedStart.toList <+: name.toList := by
  simp only [isReservedLocal, isKeyword, reservedWords, Bool.or_eq_true, contains_iff_mem,
    decide_eq_true_eq, isPrefixOf_iff_prefix, mem_append, mem_cons]
  tauto

/-- No local is renamed to the discarded one. -/
theorem localIdentifier_ne_discard (name : String) : localIdentifier name ≠ discard := by
  unfold localIdentifier
  split
  · rename_i hres
    intro h
    have hname : name = "" := (String.append_left_inj "_").1 h
    rw [hname] at hres
    exact absurd hres (by decide)
  · rintro rfl
    exact absurd (show isReservedLocal discard = true by decide) ‹_›

theorem localName_of_lt (h : v.id < tempBase) : localName v = localIdentifier v.name := by
  rw [localName, if_neg]
  exact fun ht => absurd (of_decide_eq_true ht) (UInt32.not_le.2 h)

/-- A generated name with an underscore is the discarded local. -/
theorem localIdentifier_ne_generatedName (given : String) :
    ∀ name ∈ Emit.generatedNames, localIdentifier given ≠ name := by
  have hnames : ∀ name ∈ Emit.generatedNames, name = discard ∨
      isReservedLocal name = true ∧ name.toList.getLast? ≠ some '_' := by decide
  intro name hname
  obtain rfl | ⟨hres, hlast⟩ := hnames name hname
  · exact localIdentifier_ne_discard given
  · exact localIdentifier_ne_of_getLast? hres hlast given

/-- **Names of generated code are never given to the program.** The name of
a local of the program is none of a temporary, of what generated code
brings along, of a label, of Lua's own words and of the globals that are
called; and temporaries are told apart by their names. -/
theorem generated_names_are_apart : (∀ u : Var, u.id < tempBase →
      (∀ t, tempBase ≤ t → localName u ≠ tempName t) ∧
      (∀ name ∈ Emit.generatedNames, localName u ≠ name) ∧
      (∀ name : String, reservedStart.toList <+: name.toList →
        name.toList.getLast? ≠ some '_' → localName u ≠ name) ∧
      (∀ label, localName u ≠ labelName label) ∧
      (∀ word ∈ reserved, localName u ≠ word) ∧ localName u ≠ "self" ∧
      ∀ name ∈ runtimeGlobals, localName u ≠ name) ∧
    ∀ t t', tempBase ≤ t → tempBase ≤ t' → t ≠ t' → tempName t ≠ tempName t' := by
  refine ⟨fun u hu => ?_, fun t t' _ _ hne h => hne (tempName_injective h)⟩
  have hwords : ∀ word ∈ "self" :: (reserved ++ runtimeGlobals),
      isReservedLocal word = true ∧ word.toList.getLast? ≠ some '_' := by decide
  have hword (word : String) (h : word ∈ "self" :: (reserved ++ runtimeGlobals)) :
      localIdentifier u.name ≠ word :=
    localIdentifier_ne_of_getLast? (hwords word h).1 (hwords word h).2 u.name
  rw [localName_of_lt hu]
  refine ⟨fun t _ => localIdentifier_ne_tempName u.name t, localIdentifier_ne_generatedName u.name,
    fun name hstart hlast => ?_, fun label => ?_, fun word h => ?_, hword _ (.head _), fun name h => ?_⟩
  · exact localIdentifier_ne_of_getLast? (isReservedLocal_of_start hstart) hlast u.name
  · refine localIdentifier_ne (isReservedLocal_of_start ?_) (append_toString_ne _ label) u.name
    rw [String.toList_append]
    exact prefix_append_of_prefix (by decide)
  · exact hword word (.tail _ (mem_append_left _ h))
  · exact hword name (.tail _ (mem_append_right _ h))

/-- A local named like a temporary and one named like a keyword. -/
theorem generated_names_are_apart_shadowed :
    localName ⟨2, "_hx_t0", .int⟩ ≠ tempName tempBase ∧ localName ⟨3, "end", .int⟩ ≠ "end" ∧
      tempName tempBase ≠ tempName (tempBase + 1) :=
  ⟨(generated_names_are_apart.1 _ (by decide)).1 _ (by decide),
    (generated_names_are_apart.1 _ (by decide)).2.2.2.2.1 _ (by decide),
    generated_names_are_apart.2 _ _ (by decide) (by decide) (by decide)⟩

/-- A reserved word with its underscore is not reserved. -/
theorem isReservedLocal_append : ∀ word ∈ reservedWords, isReservedLocal (word ++ "_") = false := by
  decide

/-- A name that begins as generated names do is reserved with its underscore
as well. -/
theorem mem_reservedWords (ha : isReservedLocal a = true)
    (hrenamed : isReservedLocal (a ++ "_") = false) : a ∈ reservedWords := by
  refine (isReservedLocal_iff.1 ha).resolve_right fun hstart => ?_
  have hres : isReservedLocal (a ++ "_") = true := by
    refine isReservedLocal_of_start ?_
    rw [String.toList_append]
    exact prefix_append_of_prefix hstart
  exact absurd (hres.symm.trans hrenamed) (by decide)

/-- A reserved word is renamed to what that name keeps. -/
theorem localIdentifier_append (h : a ∈ reservedWords) :
    localIdentifier (a ++ "_") = localIdentifier a := by
  rw [localIdentifier, localIdentifier, isReservedLocal_append a h,
    if_pos (isReservedLocal_iff.2 (.inl h))]
  rfl

/-- Two names become one only if one of them is renamed to the other. -/
theorem localIdentifier_eq_iff : localIdentifier a = localIdentifier b ↔
    a = b ∨ (a ∈ reservedWords ∧ b = a ++ "_") ∨ (b ∈ reservedWords ∧ a = b ++ "_") := by
  constructor
  · intro h
    unfold localIdentifier at h
    split at h
    · rename_i ha
      split at h
      · exact .inl ((String.append_left_inj _).1 h)
      · rename_i hb
        subst h
        exact .inr (.inl ⟨mem_reservedWords ha (Bool.eq_false_iff.2 hb), rfl⟩)
    · rename_i ha
      split at h
      · rename_i hb
        subst h
        exact .inr (.inr ⟨mem_reservedWords hb (Bool.eq_false_iff.2 ha), rfl⟩)
      · exact .inl h
  · rintro (rfl | ⟨h, rfl⟩ | ⟨h, rfl⟩)
    · rfl
    · exact (localIdentifier_append h).symm
    · exact localIdentifier_append h

/-- **Two locals of the program are merged exactly if** they have one name,
or one is named by a reserved word and the other by that word with an
underscore. -/
theorem localName_eq_iff (hu : u.id < tempBase) (hv : v.id < tempBase) :
    localName u = localName v ↔ u.name = v.name ∨
      (u.name ∈ reservedWords ∧ v.name = u.name ++ "_") ∨
      (v.name ∈ reservedWords ∧ u.name = v.name ++ "_") := by
  rw [localName_of_lt hu, localName_of_lt hv]
  exact localIdentifier_eq_iff

/-- A local that begins as generated names do stays apart from the one it is
renamed to. -/
theorem localName_eq_iff_prefixed : localName ⟨1, "_hx_t0", .int⟩ ≠ localName ⟨2, "_hx_t0_", .int⟩ :=
  fun h => absurd ((localName_eq_iff (by decide) (by decide)).1 h) (by decide)

/-- **Renaming merges two locals:** `end` and `end_`, both identifiers. -/
theorem renaming_merges_locals : ¬ ∀ u v : Var, u.id < tempBase → v.id < tempBase →
    isName u.name = true → isName v.name = true → u.name ≠ v.name → localName u ≠ localName v :=
  fun h => h ⟨1, "end", .int⟩ ⟨2, "end_", .int⟩ (by decide) (by decide) (by decide) (by decide)
    (by decide) (by decide)

end LuaBackend.Lua
