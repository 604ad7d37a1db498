import LuaBackend.Proofs.Lua.Lexemes

/-!
# The grammar of blocks

The part of Lua's grammar that generated code needs, as a relation between
what is derived and its lexemes. A block is a sequence of statements with
at most one return, which ends it. What stands left of an assignment is
anything that could be accessed or called.
-/

namespace LuaBackend.Lua

open List

def commas : List (List Lexeme) → List Lexeme
  | [] => []
  | [part] => part
  | part :: next :: rest => part ++ [.sign ","] ++ commas (next :: rest)

def Operator.lexeme : Operator → Lexeme
  | .and => .word "and"
  | .or => .word "or"
  | op => .sign op.spelling

mutual

/-- An expression. -/
inductive IsExp : List Lexeme → Prop
  | literal {word : String} (h : word ∈ ["nil", "true", "false"]) : IsExp [.word word]
  | number : IsExp [.number]
  | string : IsExp [.string]
  | head {ts : List Lexeme} (h : IsHead ts) : IsExp ts
  | binary {ts us : List Lexeme} (op : Operator) (hl : IsExp ts) (hr : IsExp us) :
      IsExp (ts ++ [op.lexeme] ++ us)
  | not {ts : List Lexeme} (h : IsExp ts) : IsExp ([.word "not"] ++ ts)
  | neg {ts : List Lexeme} (h : IsExp ts) : IsExp ([.sign "-"] ++ ts)
  | function {params : List String} {body : List Lexeme} (hp : ∀ p ∈ params, IsFreeName p)
      (hb : IsBlock body) :
      IsExp ([.word "function", .sign "("] ++ commas (params.map fun p => [.word p]) ++ [.sign ")"]
        ++ body ++ [.word "end"])
  | table {fields : List (List Lexeme)} (h : ∀ f ∈ fields, IsField f) :
      IsExp ([.sign "\x7b"] ++ commas fields ++ [.sign "\x7d"])

/-- A field of a table constructor. -/
inductive IsField : List Lexeme → Prop
  | element {ts : List Lexeme} (h : IsExp ts) : IsField ts
  | named {name : String} {ts : List Lexeme} (hn : IsFreeName name) (h : IsExp ts) :
      IsField ([.word name] ++ [.sign "="] ++ ts)
  | keyed {ts us : List Lexeme} (hk : IsExp ts) (h : IsExp us) :
      IsField ([.sign "["] ++ ts ++ [.sign "]"] ++ [.sign "="] ++ us)

/-- Something to access or call. -/
inductive IsHead : List Lexeme → Prop
  | name {name : String} (h : IsFreeName name) : IsHead [.word name]
  | paren {ts : List Lexeme} (h : IsExp ts) : IsHead ([.sign "("] ++ ts ++ [.sign ")"])
  | member {ts : List Lexeme} {name : String} (h : IsHead ts) (hn : IsFreeName name) :
      IsHead (ts ++ [.sign "."] ++ [.word name])
  | index {ts us : List Lexeme} (h : IsHead ts) (hp : IsExp us) :
      IsHead (ts ++ [.sign "["] ++ us ++ [.sign "]"])
  | call {ts : List Lexeme} (h : IsCall ts) : IsHead ts

/-- A call of a function or a method. -/
inductive IsCall : List Lexeme → Prop
  | value {ts : List Lexeme} {args : List (List Lexeme)} (h : IsHead ts)
      (ha : ∀ a ∈ args, IsExp a) : IsCall (ts ++ [.sign "("] ++ commas args ++ [.sign ")"])
  | method {ts : List Lexeme} {name : String} {args : List (List Lexeme)} (h : IsHead ts)
      (hn : IsFreeName name) (ha : ∀ a ∈ args, IsExp a) :
      IsCall (ts ++ [.sign ":"] ++ [.word name] ++ [.sign "("] ++ commas args ++ [.sign ")"])

/-- A statement other than a return. -/
inductive IsStat : List Lexeme → Prop
  | empty : IsStat [.sign ";"]
  | assign {ts us : List Lexeme} (hp : IsHead ts) (hv : IsExp us) :
      IsStat (ts ++ [.sign "="] ++ us)
  | call {ts : List Lexeme} (h : IsCall ts) : IsStat ts
  | brk : IsStat [.word "break"]
  | goto {name : String} (h : IsFreeName name) : IsStat ([.word "goto"] ++ [.word name])
  | label {name : String} (h : IsFreeName name) :
      IsStat ([.sign "::"] ++ [.word name] ++ [.sign "::"])
  | locals {names : List String} (hne : names ≠ []) (h : ∀ n ∈ names, IsFreeName n) :
      IsStat ([.word "local"] ++ commas (names.map fun n => [.word n]))
  | initial {names : List String} {ts : List Lexeme} (hne : names ≠ [])
      (h : ∀ n ∈ names, IsFreeName n) (hv : IsExp ts) :
      IsStat ([.word "local"] ++ commas (names.map fun n => [.word n]) ++ [.sign "="] ++ ts)
  | scope {ts : List Lexeme} (h : IsBlock ts) : IsStat ([.word "do"] ++ ts ++ [.word "end"])
  | loopWhile {ts us : List Lexeme} (hc : IsExp ts) (hb : IsBlock us) :
      IsStat ([.word "while"] ++ ts ++ [.word "do"] ++ us ++ [.word "end"])
  | loopUntil {ts us : List Lexeme} (hb : IsBlock ts) (hc : IsExp us) :
      IsStat ([.word "repeat"] ++ ts ++ [.word "until"] ++ us)
  | branches {ts : List Lexeme} (h : IsArms ts) : IsStat ([.word "if"] ++ ts ++ [.word "end"])

/-- The arms of a branch, from the first condition on. -/
inductive IsArms : List Lexeme → Prop
  | last {ts us : List Lexeme} (hc : IsExp ts) (hb : IsBlock us) :
      IsArms (ts ++ [.word "then"] ++ us)
  | otherwise {ts us vs : List Lexeme} (hc : IsExp ts) (hb : IsBlock us) (ho : IsBlock vs) :
      IsArms (ts ++ [.word "then"] ++ us ++ ([.word "else"] ++ vs))
  | next {ts us vs : List Lexeme} (hc : IsExp ts) (hb : IsBlock us) (hr : IsArms vs) :
      IsArms (ts ++ [.word "then"] ++ us ++ ([.word "elseif"] ++ vs))

/-- Statements, and at the end there may be a return. -/
inductive IsBlock : List Lexeme → Prop
  | nil : IsBlock []
  | cons {ts us : List Lexeme} (h : IsStat ts) (hr : IsBlock us) : IsBlock (ts ++ us)
  | ret : IsBlock [.word "return"]
  | retValue {ts : List Lexeme} (h : IsExp ts) : IsBlock ([.word "return"] ++ ts)

end

def IsProgram (text : String) : Prop :=
  ∃ lexemes, lex .blank text.toList = some lexemes ∧ IsBlock lexemes

/-! ## Blocks are closed -/

def Lexeme.opensBlock : Lexeme → Bool
  | .word text => text ∈ ["do", "if", "function", "repeat"]
  | _ => false

def Lexeme.closesBlock : Lexeme → Bool
  | .word text => text ∈ ["end", "until"]
  | _ => false

def Balanced (ts : List Lexeme) : Prop :=
  ts.countP Lexeme.opensBlock = ts.countP Lexeme.closesBlock

instance (ts : List Lexeme) : Decidable (Balanced ts) :=
  inferInstanceAs (Decidable (ts.countP Lexeme.opensBlock = ts.countP Lexeme.closesBlock))

section Balanced

variable {ts us : List Lexeme}

theorem Balanced.append (h : Balanced ts) (h' : Balanced us) : Balanced (ts ++ us) := by
  rw [Balanced, countP_append, countP_append, h, h']

/-- What opens a block and what closes it are balanced. -/
theorem Balanced.within {opening closing : List Lexeme} (h : Balanced ts)
    (hopen : opening.countP Lexeme.opensBlock + closing.countP Lexeme.opensBlock =
      opening.countP Lexeme.closesBlock + closing.countP Lexeme.closesBlock) :
    Balanced (opening ++ ts ++ closing) := by
  rw [Balanced] at h
  rw [Balanced, countP_append, countP_append, countP_append, countP_append]
  omega

theorem balanced_sign (text : String) : Balanced [.sign text] := rfl

theorem balanced_commas {parts : List (List Lexeme)} (h : ∀ part ∈ parts, Balanced part) :
    Balanced (commas parts) := by
  induction parts with
  | nil => rfl
  | cons part rest ih =>
    obtain ⟨hpart, hrest⟩ := forall_mem_cons.1 h
    cases rest with
    | nil => exact hpart
    | cons => exact (hpart.append (balanced_sign _)).append (ih hrest)

theorem balanced_word {name : String} (h : IsFreeName name) : Balanced [.word name] := by
  have hreserved : ∀ word ∈ ["do", "if", "function", "repeat", "end", "until"],
      reserved.contains word = true := by decide
  have hfree {words : List String} (hwords : ∀ w ∈ words, reserved.contains w = true) :
      name ∉ words := fun hmem =>
    absurd (h.2.symm.trans (hwords name hmem)) Bool.false_ne_true
  have hopens : name ∉ ["do", "if", "function", "repeat"] := hfree fun w hw =>
    hreserved w (mem_append_left ["end", "until"] hw)
  have hcloses : name ∉ ["end", "until"] := hfree fun w hw =>
    hreserved w (mem_append_right ["do", "if", "function", "repeat"] hw)
  simp [Balanced, Lexeme.opensBlock, Lexeme.closesBlock, hopens, hcloses]

theorem balanced_names {names : List String} (h : ∀ n ∈ names, IsFreeName n) :
    Balanced (commas (names.map fun n => [Lexeme.word n])) :=
  balanced_commas (forall_mem_map.2 fun n hn => balanced_word (h n hn))

end Balanced

mutual

/-- The grammar is mutual, and so is the induction. -/
theorem IsExp.balanced : ∀ {ts : List Lexeme}, IsExp ts → Balanced ts
  | _, .literal h => by
    simp only [mem_cons, not_mem_nil, or_false] at h
    rcases h with rfl | rfl | rfl <;> rfl
  | _, .number => rfl
  | _, .string => rfl
  | _, .head h => h.balanced
  | _, .binary op hl hr => (hl.balanced.append (by cases op <;> rfl)).append hr.balanced
  | _, .not h => .append rfl h.balanced
  | _, .neg h => .append rfl h.balanced
  | _, .function hp hb => by
    have hparts := ((balanced_names hp).append (balanced_sign ")")).append hb.balanced
    have hwhole : Balanced ([.word "function", .sign "("] ++ _ ++ [.word "end"]) :=
      hparts.within rfl
    simpa only [append_assoc] using hwhole
  | _, .table h => (balanced_commas fun f hf => (h f hf).balanced).within rfl

theorem IsField.balanced : ∀ {ts : List Lexeme}, IsField ts → Balanced ts
  | _, .element h => h.balanced
  | _, .named hn h => ((balanced_word hn).append (balanced_sign _)).append h.balanced
  | _, .keyed hk h =>
    ((((balanced_sign _).append hk.balanced).append (balanced_sign _)).append
      (balanced_sign _)).append h.balanced

theorem IsHead.balanced : ∀ {ts : List Lexeme}, IsHead ts → Balanced ts
  | _, .name h => balanced_word h
  | _, .paren h => h.balanced.within rfl
  | _, .member h hn => (h.balanced.append (balanced_sign _)).append (balanced_word hn)
  | _, .index h hp =>
    ((h.balanced.append (balanced_sign _)).append hp.balanced).append (balanced_sign _)
  | _, .call h => h.balanced

theorem IsCall.balanced : ∀ {ts : List Lexeme}, IsCall ts → Balanced ts
  | _, .value h ha =>
    ((h.balanced.append (balanced_sign _)).append
      (balanced_commas fun a hmem => (ha a hmem).balanced)).append (balanced_sign _)
  | _, .method h hn ha =>
    ((((h.balanced.append (balanced_sign _)).append (balanced_word hn)).append
      (balanced_sign _)).append (balanced_commas fun a hmem => (ha a hmem).balanced)).append
      (balanced_sign _)

theorem IsStat.balanced : ∀ {ts : List Lexeme}, IsStat ts → Balanced ts
  | _, .empty => rfl
  | _, .assign hp hv => (hp.balanced.append (balanced_sign _)).append hv.balanced
  | _, .call h => h.balanced
  | _, .brk => rfl
  | _, .goto h => .append rfl (balanced_word h)
  | _, .label h => (balanced_word h).within rfl
  | _, .locals _ h => .append rfl (balanced_names h)
  | _, .initial _ h hv =>
    ((Balanced.append (rfl : Balanced [.word "local"]) (balanced_names h)).append
      (balanced_sign _)).append hv.balanced
  | _, .scope h => h.balanced.within rfl
  | _, .loopWhile hc hb => by
    have hbody : Balanced ([.word "do"] ++ _ ++ [.word "end"]) := hb.balanced.within rfl
    have hcond : Balanced ([.word "while"] ++ _) := .append rfl hc.balanced
    have hwhole := hcond.append hbody
    simpa only [append_assoc] using hwhole
  | _, .loopUntil hb hc => by
    have hbody : Balanced ([.word "repeat"] ++ _ ++ [.word "until"]) := hb.balanced.within rfl
    exact hbody.append hc.balanced
  | _, .branches h => h.balanced.within rfl

theorem IsArms.balanced : ∀ {ts : List Lexeme}, IsArms ts → Balanced ts
  | _, .last hc hb => (hc.balanced.append (rfl : Balanced [.word "then"])).append hb.balanced
  | _, .otherwise hc hb ho =>
    ((hc.balanced.append (rfl : Balanced [.word "then"])).append hb.balanced).append
      (.append rfl ho.balanced)
  | _, .next hc hb hr =>
    ((hc.balanced.append (rfl : Balanced [.word "then"])).append hb.balanced).append
      (.append rfl hr.balanced)

/-- **A block closes as many blocks as it opens.** -/
theorem IsBlock.balanced : ∀ {ts : List Lexeme}, IsBlock ts → Balanced ts
  | _, .nil => rfl
  | _, .cons h hr => h.balanced.append hr.balanced
  | _, .ret => rfl
  | _, .retValue h => .append rfl h.balanced

end

end LuaBackend.Lua
