import LuaBackend.Proofs.Emit.Written.Statements

/-!
# Continues reach their loops

Whatever the tree, its continues find the label of the loop that they are
meant for, as long as the counter of labels does not run over.
-/

namespace LuaBackend

/-- The tree has the node, at any depth. -/
inductive Expr.HasNode (e : Expr) : Expr → Prop
  | self : HasNode e e
  | child {c n : Expr} (h : HasNode e n) (hc : c ∈ n.children) : HasNode e c

namespace Emit

/-- The body is routed, and nests as the Lua function that some node of the
tree makes. -/
def RoutedIn (e : Expr) (body : Lua.Block) : Prop :=
  ∃ n, e.HasNode n ∧ ∃ ns ∈ n.functionNest?, Lua.Routed ns body

/-- Nothing is known of the tree. No continue is found in a loop without a
label, and the functions of the code are those of the nodes. -/
def routing (e : Expr) : Regime where
  value := e.HasNode
  stmt := e.HasNode
  fault f := f ≠ .unlabelledContinue
  function _ := RoutedIn e
  counted := True
  spelled := False
  name _ := True
  place _ := True
  stmt_of_value := id
  value_part h hc := h.child (Expr.mem_children_iff.2 (.inl hc))
  stmt_part h hc := h.child (Expr.mem_children_iff.2 (.inr (.inl hc)))
  value_wrapped h hc := h.child (Expr.mem_children_iff.2 (.inr (.inr hc)))
  stmt_wrapped h hc := h.child (Expr.mem_children_iff.2 (.inr (.inr hc)))
  value_called h hc := h.child hc
  misuse _ := nofun
  statement _ _ := nofun
  coalesce _ := nofun
  operator _ _ := nofun
  overflow _ _ _ := nofun
  unlabelled h := absurd trivial h
  apart h hns hbody := ⟨_, h, _, hns, hbody trivial⟩
  called h hbody := ⟨_, h, _, rfl, hbody trivial⟩
  brought _ _ _ := trivial
  word := False.elim
  stored := False.elim

/-- A counter has run over just if it ends below where it began. -/
theorem add_ofNat_ge_iff {n : UInt32} {j : Nat} (hj : j < UInt32.size) :
    n ≤ n + .ofNat j ↔ n.toNat + j < UInt32.size := by
  rw [UInt32.le_iff_toNat_le, UInt32.toNat_add, UInt32.toNat_ofNat_of_lt' hj]
  have hn := n.toNat_lt
  unfold UInt32.size at hj ⊢
  omega

/-- **Continues reach their loops.** Write a tree outside of all loops,
with a counter of labels that starts at a positive number and does not run
over: since the tree takes fewer labels than there are, the counter does
not end below its start. Then no continue is found in a loop without a
label. If there is code, its labels are distinct in each of its Lua
functions, and each jump goes to the label at the end of the innermost
loop around it, which is in the same function. Loops and jumps nest in the
code as they do in the tree, and in each function of the code as they do in
a node of the tree that makes one. -/
theorem continues_reach_their_loops (e : Expr) (context : Context)
    (hcontrol : context.scope.control = []) (hfirst : context.nextLabel ≠ 0)
    (hdemand : demand e < UInt32.size) :
    (∀ fault context', statements e context = .error fault context' →
      context.nextLabel ≤ context'.nextLabel → fault ≠ .unlabelledContinue) ∧
    ∀ text context', statements e context = .ok text context' →
      context.nextLabel ≤ context'.nextLabel →
      ∃ code, blockOf e context.scope context.nextLabel = .ok code context'.nextLabel ∧
        text = Lua.Stmt.texts context.layout code ∧
        Lua.Routed (e.nest false) code ∧ Lua.Stmt.AllFunctions (fun _ => RoutedIn e) code := by
  have hpos : 0 < context.nextLabel.toNat := by
    refine Nat.pos_of_ne_zero fun hzero => hfirst ?_
    exact UInt32.toNat_inj.1 hzero
  obtain ⟨j, hj, hrun⟩ := draws_blockOf (routing e) Expr.HasNode.self hcontrol context.nextLabel
  have hcount := add_ofNat_ge_iff (n := context.nextLabel) (Nat.lt_of_le_of_lt hj hdemand)
  cases hblock : blockOf e context.scope context.nextLabel with
  | ok code =>
    rw [hblock] at hrun
    obtain ⟨rfl, hlands⟩ := hrun
    rw [statements_of_blockOf hblock]
    refine ⟨nofun, fun text context' htext hle => ?_⟩
    cases htext
    have hcode := hlands trivial ⟨fun _ => ⟨hpos, hcount.1 hle⟩, False.elim⟩ _ _
      fun _ => ⟨Nat.le_refl _, Nat.le_refl _⟩
    exact ⟨code, rfl, rfl, (hcode.laid trivial).routed, hcode.functions⟩
  | error =>
    rw [hblock] at hrun
    obtain ⟨rfl, hfault⟩ := hrun
    rw [statements_of_refusal hblock]
    refine ⟨fun fault' context' hfail hle => ?_, nofun⟩
    cases hfail
    exact hfault trivial ⟨fun _ => ⟨hpos, hcount.1 hle⟩, False.elim⟩

/-- `while (true) { while (true) continue; try continue; catch (error) {}
function () while (true) continue; }`. -/
def nestedLoops : Expr :=
  let forever (body : Expr) : Expr :=
    .loop {} .before (.const {} .bool (.bool true)) (some body)
  forever <| .statements {} [forever (.cont {}),
    .tryCatch {} .void (some (.cont {})) [⟨⟨1, "error", .dynamic⟩, none⟩],
    .function {} .dynamic [] .void (some (forever (.cont {})))]

theorem continues_reach_their_loops_nestedLoops :
    demand nestedLoops < UInt32.size ∧ ∃ code, blockOf nestedLoops {} 1 = .ok code 4 ∧
      Lua.Routed [.loop [.loop [.jump], .jump]] code ∧
      Lua.Stmt.AllFunctions (fun _ => RoutedIn nestedLoops) code := by
  have hdemand : demand nestedLoops < UInt32.size := by decide
  have hblock : blockOf nestedLoops {} 1 = .ok _ 4 := rfl
  obtain ⟨code, hcode, -, hrouted, hfunctions⟩ :=
    (continues_reach_their_loops nestedLoops {} rfl (by decide) hdemand).2 _ _
      (statements_of_blockOf hblock) (by decide)
  exact ⟨hdemand, code, hcode, hrouted, hfunctions⟩

end Emit

end LuaBackend
