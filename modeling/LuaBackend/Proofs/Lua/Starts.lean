import LuaBackend.Proofs.Lua.Form
import LuaBackend.Proofs.Lua.Numerals
import LuaBackend.Proofs.Lua.Reading

/-!
# How expressions begin

An expression begins as its leftmost part does: with a parenthesis if and
only if it `opens`, and never so that it goes on with a sign before it
other than a minus.
-/

namespace LuaBackend.Lua

open List LuaBackend.Lua.Expr

variable {c : Char} {text : String}

def Layout.Blank (layout : Layout) : Prop := ∀ c ∈ layout.unit.toList, isBlank c = true

instance (layout : Layout) : Decidable layout.Blank :=
  decidableBAll (fun c => isBlank c = true) layout.unit.toList

theorem Layout.Blank.indent {layout : Layout} (h : layout.Blank) :
    ∀ c ∈ layout.indent.toList, isBlank c = true := by
  intro c hc
  rw [Layout.indent, String.toList_join, mem_flatMap] at hc
  obtain ⟨unit, hunit, hc⟩ := hc
  rw [eq_of_mem_replicate hunit] at hc
  exact h c hc

theorem Layout.Blank.deeper {layout : Layout} (h : layout.Blank) : layout.deeper.Blank := h

/-! ## First characters -/

def Starts (text : String) (c : Char) : Prop := text.toList.head? = some c

theorem Starts.append (h : Starts text c) (more : String) : Starts (text ++ more) c := by
  rw [Starts, String.toList_append, head?_append, h]
  rfl

theorem starts_literal (text : String) (h : text.toList.head? = some c) (more : String) :
    Starts (text ++ more) c := Starts.append h more

theorem Starts.startsWith (h : Starts text c) (d : Char) : startsWith d text = (c == d) := by
  rw [Lua.startsWith, h]
  rfl

def isStart (c : Char) : Bool :=
  isNameStart c || c.isDigit || c = '(' || c = '-' || c = '"'

theorem starts_of_isName {name : String} (h : isName name = true) :
    ∃ c, Starts name c ∧ isNameStart c = true := by
  unfold isName at h
  split at h
  · cases h
  · rename_i c cs hname
    exact ⟨c, congrArg head? hname, (Bool.and_eq_true_iff.1 h).1⟩

/-- A dotted name begins as its first name does. -/
theorem Dotted.starts {N : String → Prop} (hN : ∀ name, N name → isName name = true)
    (h : Dotted N text) : ∃ c, Starts text c ∧ isNameStart c = true := by
  obtain ⟨name, names, hnames, rfl⟩ := h
  obtain ⟨c, hc, hstart⟩ := starts_of_isName (hN name (hnames name (.head _)))
  refine ⟨c, ?_, hstart⟩
  cases names with
  | nil => exact hc
  | cons =>
    rw [String.intercalate_cons_cons]
    exact (hc.append _).append _

theorem starts_of_isNumeral (h : IsNumeral text.toList) :
    ∃ c, Starts text c ∧ c.isDigit = true := by
  obtain ⟨whole, fraction, exponent, htext, hne, hwhole, -⟩ := h
  cases whole with
  | nil => exact absurd rfl hne
  | cons c => exact ⟨c, congrArg head? htext, hwhole c (.head _)⟩

/-- How an expression that does not open begins. -/
structure Plain (c : Char) : Prop where
  isStart : isStart c = true
  ne_paren : c ≠ '('

theorem plain_of_isNameStart (h : isNameStart c = true) : Plain c := by
  refine ⟨by rw [isStart, h]; rfl, ?_⟩
  rintro rfl
  exact absurd h (by decide)

theorem plain_of_isDigit (h : c.isDigit = true) : Plain c := by
  refine ⟨by rw [isStart, h, Bool.or_true]; rfl, ?_⟩
  rintro rfl
  exact absurd h (by decide)

/-- An integer begins with a digit or a minus. -/
theorem starts_int (value : Int) : ∃ c, Starts (toString value) c ∧ Plain c := by
  cases value with
  | ofNat n =>
    have hnumeral : IsNumeral (toString n).toList := by
      rw [toList_toString_nat]
      exact (digits_toDigits n).isNumeral Nat.toDigits_ne_nil
    obtain ⟨c, hc, hdigit⟩ := starts_of_isNumeral hnumeral
    exact ⟨c, hc, plain_of_isDigit hdigit⟩
  | negSucc => exact ⟨'-', starts_literal "-" rfl _, by decide, by decide⟩

theorem starts_quote (text : String) : Starts (quote text) '"' := by
  rw [Starts, quote, String.toList_ofList]
  rfl

/-- A float may begin with a parenthesis, if it is no number. -/
theorem starts_float (value : Number.Binary64) : ∃ c, Starts (floatText value) c ∧
    isStart c = true ∧ (c = '(' ↔ value.isNaN = true) := by
  obtain ⟨hnan, htext⟩ | ⟨hnan, htext⟩ := floatText_cases value
  · exact ⟨'(', htext ▸ rfl, rfl, by simp [hnan]⟩
  · have hplain : ∃ c, Starts (floatText value) c ∧ Plain c := by
      unfold Number.Binary64.signText at htext
      obtain htext | ⟨text, htext, hnumeral⟩ := htext
      · rw [htext]
        split
        · exact ⟨'-', starts_literal "-" rfl _, by decide, by decide⟩
        · exact ⟨'m', rfl, by decide, by decide⟩
      · rw [htext]
        split
        · exact ⟨'-', starts_literal "-" rfl _, by decide, by decide⟩
        · obtain ⟨c, hc, hdigit⟩ := starts_of_isNumeral hnumeral
          exact ⟨c, by rwa [String.empty_append], plain_of_isDigit hdigit⟩
    obtain ⟨c, hc, hplain⟩ := hplain
    refine ⟨c, hc, hplain.isStart, ?_⟩
    rw [hnan]
    exact iff_of_false hplain.ne_paren Bool.false_ne_true

/-- An expression that begins with no parenthesis. -/
theorem Expr.starts_plain {e : Expr} {layout : Layout} (h : Starts (e.text layout) c) (hc : Plain c)
    (hopens : e.opens = false) : ∃ c, Starts (e.text layout) c ∧
      isStart c = true ∧ (c = '(' ↔ e.opens = true) := by
  refine ⟨c, h, hc.isStart, iff_of_false hc.ne_paren ?_⟩
  rw [hopens]
  exact Bool.false_ne_true

section

variable {N : String → Prop} {S : Expr → Prop} (hN : ∀ name, N name → isName name = true)
  (layout : Layout)

include hN

/-- **An expression begins with a parenthesis if and only if it opens**,
and otherwise with a letter, a digit, a minus or a quote. -/
theorem Expr.starts : ∀ e : Expr, e.Formed N S → ∃ c, Starts (e.text layout) c ∧
    isStart c = true ∧ (c = '(' ↔ e.opens = true)
  | .nil, _ => starts_plain (rfl : "nil".toList.head? = some 'n') ⟨rfl, by decide⟩ rfl
  | .bool true, _ => starts_plain (rfl : "true".toList.head? = some 't') ⟨rfl, by decide⟩ rfl
  | .bool false, _ => starts_plain (rfl : "false".toList.head? = some 'f') ⟨rfl, by decide⟩ rfl
  | .int value, _ => by
    obtain ⟨c, hc, hplain⟩ := starts_int value
    exact starts_plain hc hplain rfl
  | .float value, _ => starts_float value
  | .string value, _ => starts_plain (starts_quote value) ⟨rfl, by decide⟩ rfl
  | .name text, h => by
    obtain ⟨c, hc, hstart⟩ := Dotted.starts hN h
    exact starts_plain hc (plain_of_isNameStart hstart) rfl
  | .paren _, _ => ⟨'(', (starts_literal "(" rfl _).append _, rfl, iff_of_true rfl rfl⟩
  | .member first _, h => by
    obtain ⟨c, hc, hstart⟩ := starts first h.2
    exact ⟨c, hc.append _, hstart⟩
  | .key first _, h => by
    obtain ⟨c, hc, hstart⟩ := starts first h.2
    exact ⟨c, ((hc.append _).append _).append _, hstart⟩
  | .index first _, h => by
    obtain ⟨c, hc, hstart⟩ := starts first h.1.2
    exact ⟨c, ((hc.append _).append _).append _, hstart⟩
  | .call first _, h => by
    obtain ⟨c, hc, hstart⟩ := starts first h.1.2
    exact ⟨c, ((hc.append _).append _).append _, hstart⟩
  | .method first _ _, h => by
    obtain ⟨c, hc, hstart⟩ := starts first h.1.2
    exact ⟨c, ((((hc.append _).append _).append _).append _).append _, hstart⟩
  | .callWithSelf first _, h => by
    obtain ⟨c, hc, hstart⟩ := starts first h.1.2
    exact ⟨c, ((hc.append _).append _).append _, hstart⟩
  | .binary _ first _, h => by
    obtain ⟨c, hc, hstart⟩ := starts first h.1
    exact ⟨c, (((hc.append _).append _).append _).append _, hstart⟩
  | .not _, _ => starts_plain (c := 'n') (starts_literal "not " rfl _) ⟨rfl, by decide⟩ rfl
  | .neg inner, _ => by
    refine starts_plain (c := '-') ?_ ⟨rfl, by decide⟩ rfl
    change Starts (if startsWith '-' (inner.text layout) then "-(" ++ inner.text layout ++ ")"
      else "-" ++ inner.text layout) '-'
    split
    · exact (starts_literal "-(" rfl _).append _
    · exact starts_literal "-" rfl _
  | .function params [], _ =>
    have hstart := starts_literal (c := 'f') "function(" rfl (nameList params)
    starts_plain (hstart.append _) ⟨rfl, by decide⟩ rfl
  | .function params (_ :: _), _ =>
    have hstart := starts_literal (c := 'f') "function(" rfl (nameList params)
    starts_plain ((((hstart.append _).append _).append _).append _) ⟨rfl, by decide⟩ rfl
  | .block _, _ =>
    ⟨'(', ((starts_literal "(function()\n" rfl _).append _).append _, rfl, iff_of_true rfl rfl⟩
  | .object _, _ =>
    starts_plain (c := '_') ((((starts_literal "_hx_o(\x7b__fields__=\x7b" rfl _).append _).append
      _).append _) ⟨rfl, by decide⟩ rfl
  | .array _, _ =>
    starts_plain (c := '_') (((((starts_literal "_hx_tab_array(\x7b" rfl _).append _).append
      _).append _).append _) ⟨rfl, by decide⟩ rfl

end

end LuaBackend.Lua
