import LuaBackend.Lua.Text
import LuaBackend.Proofs.Lua.Grammar

/-!
# Texts that are read back

`Spells text level t` says that a text is read as the term `t` among
operators that bind no tighter than the level: it is split into tokens
whatever follows, as long as that does not go on with a token, and the
tokens are read as the term under every limit that lets the operators of
the level pass. Each form of expression is spelled from the spellings of
its parts.
-/

namespace LuaBackend.Lua

open List Option

variable {name : String} {chars : List Char} {token : Token} {left right : Nat}

def Scan.run (s : Scan) : List Char → Option (List Token × Scan)
  | [] => some ([], s)
  | c :: cs => do
    let (tokens, s') ← s.step c
    let (more, s'') ← run s' cs
    return (tokens ++ more, s'')

def isBreak (c : Char) : Bool := c ∈ [' ', '(', ')', ',', '\n']

def Breaks (rest : List Char) : Prop := ∀ c ∈ rest.head?, isBreak c = true

def Lexes (cs : List Char) (tokens : List Token) : Prop :=
  ∀ rest, Breaks rest → scan .start (cs ++ rest) = (scan .start rest).map (tokens ++ ·)

section Scan

variable {s s' : Scan} {c : Char} {cs ds rest : List Char} {tokens more : List Token}

theorem map_append_map (o : Option (List Token)) :
    (o.map (more ++ ·)).map (tokens ++ ·) = o.map (tokens ++ more ++ ·) := by
  cases o <;> simp

theorem scan_run (h : s.run cs = some (tokens, s')) :
    scan s (cs ++ rest) = (scan s' rest).map (tokens ++ ·) := by
  induction cs generalizing s tokens with
  | nil =>
    cases h
    exact map_id'.symm
  | cons c cs ih =>
    obtain ⟨⟨first, s₁⟩, hstep, h⟩ := bind_eq_some_iff.1 h
    obtain ⟨⟨others, s₂⟩, hrun, h⟩ := bind_eq_some_iff.1 h
    cases h
    have hrest := ih hrun
    have hcons : scan s (c :: (cs ++ rest)) = (scan s₁ (cs ++ rest)).map (first ++ ·) := by
      rw [scan, hstep]
      cases h : scan s₁ (cs ++ rest) <;> simp [h]
    rw [cons_append, hcons, hrest, map_append_map]

/-- A token ends where the next character does not go on with it. -/
theorem scan_of_next (hfinish : s.finish = some tokens)
    (hnext : ∀ c ∈ rest.head?, s.step c = s.next c) :
    scan s rest = (scan .start rest).map (tokens ++ ·) := by
  cases rest with
  | nil =>
    rw [scan, scan, hfinish]
    exact congrArg some (append_nil tokens).symm
  | cons c rest =>
    have hstep : s.step c = s.next c := hnext c rfl
    have hstart : Scan.start.step c = Scan.begin? c := rfl
    rw [scan, scan, hstep, hstart, Scan.next, hfinish]
    cases Scan.begin? c with
    | none => rfl
    | some begun => cases h : scan begun.2 rest <;> simp [h]

theorem scan_blanks (h : ∀ c ∈ cs, isBlank c = true) :
    scan .start (cs ++ rest) = scan .start rest := by
  have hrun : Scan.start.run cs = some ([], .start) := by
    induction cs with
    | nil => rfl
    | cons c cs ih =>
      have hstep : Scan.start.step c = some ([], .start) := by
        have hc : c = ' ' ∨ c = '\t' ∨ c = '\n' ∨ c = '\r' := by
          simpa [isBlank] using h c mem_cons_self
        rcases hc with rfl | rfl | rfl | rfl <;> rfl
      rw [Scan.run, hstep]
      simp [ih fun c hc => h c (.tail _ hc)]
  rw [scan_run hrun]
  exact map_id'

/-- A minus sign is an operator unless a second one makes it a comment. -/
theorem scan_minus (h : rest.head? ≠ some '-') :
    scan .start ('-' :: rest) = (scan .start rest).map ([.op .sub] ++ ·) := by
  have hrun : Scan.start.run ['-'] = some ([], .sign '-') := rfl
  have hnext : ∀ c ∈ rest.head?, (Scan.sign '-').step c = (Scan.sign '-').next c := by
    intro c hc
    have hne : c ≠ '-' := fun heq => h (heq ▸ hc)
    simp [Scan.step, hne, signs?]
  calc scan .start ('-' :: rest)
    _ = (scan (.sign '-') rest).map ([] ++ ·) := scan_run hrun
    _ = scan (.sign '-') rest := map_id'
    _ = (scan .start rest).map ([.op .sub] ++ ·) := scan_of_next rfl hnext

/-! ### Words and numerals -/

theorem run_word_parts (h : ∀ c ∈ cs, isNamePart c = true) :
    (Scan.word chars).run cs = some ([], .word (chars ++ cs)) := by
  induction cs generalizing chars with
  | nil => rw [append_nil, Scan.run]
  | cons c cs ih =>
    have hstep : (Scan.word chars).step c = some ([], .word (chars ++ [c])) :=
      if_pos (h c mem_cons_self)
    rw [Scan.run, hstep]
    simp [ih fun c hc => h c (.tail _ hc)]

theorem run_name (h : isName name = true) :
    Scan.start.run name.toList = some ([], .word name.toList) := by
  unfold isName at h
  split at h
  · exact nomatch h
  · rename_i c cs hname
    have hparts : isNameStart c = true ∧ ∀ c ∈ cs, isNamePart c = true := by simpa using h
    have hstep : Scan.start.step c = some ([], .word [c]) := if_pos hparts.1
    rw [hname, Scan.run, hstep]
    simp [run_word_parts hparts.2]

theorem isNameStart_of_isDigit (h : c.isDigit = true) : isNameStart c = false := by
  have hle : c.toNat ≤ 57 := by
    simp only [Char.isDigit, Bool.and_eq_true, decide_eq_true_eq] at h
    exact UInt32.le_iff_toNat_le.1 h.2
  have hunder : c ≠ '_' := by
    rintro rfl
    exact absurd hle (by decide)
  have hupper : c.isUpper = false := by
    refine Bool.eq_false_iff.2 fun hc => ?_
    have hge : 65 ≤ c.toNat := UInt32.le_iff_toNat_le.1 (of_decide_eq_true hc).1
    omega
  have hlower : c.isLower = false := by
    refine Bool.eq_false_iff.2 fun hc => ?_
    have hge : 97 ≤ c.toNat :=
      UInt32.le_iff_toNat_le.1 (of_decide_eq_true (Bool.and_eq_true_iff.1 hc).1)
    omega
  change (c.isUpper || c.isLower || decide (c = '_')) = false
  rw [hupper, hlower, decide_eq_false hunder]
  rfl

theorem run_digits (h : ∀ c ∈ cs, c.isDigit = true) :
    (Scan.digits chars).run cs = some ([], .digits (chars ++ cs)) := by
  induction cs generalizing chars with
  | nil => rw [append_nil, Scan.run]
  | cons c cs ih =>
    have hstep : (Scan.digits chars).step c = some ([], .digits (chars ++ [c])) :=
      if_pos (h c mem_cons_self)
    rw [Scan.run, hstep]
    simp [ih fun c hc => h c (.tail _ hc)]

theorem run_numeral (n : Nat) :
    Scan.start.run (Nat.toDigits 10 n) = some ([], .digits (Nat.toDigits 10 n)) := by
  have hdigits : ∀ c ∈ Nat.toDigits 10 n, c.isDigit = true := fun c hc =>
    Nat.isDigit_of_mem_toDigits (by decide) (by decide) hc
  cases hn : Nat.toDigits 10 n with
  | nil => exact absurd hn Nat.toDigits_ne_nil
  | cons c =>
    rw [hn] at hdigits
    have hc : c.isDigit = true := hdigits c mem_cons_self
    have hstep : Scan.start.step c = some ([], .digits [c]) := by
      simp [Scan.step, Scan.begin?, isNameStart_of_isDigit hc, hc]
    rw [Scan.run, hstep]
    simp [run_digits fun c hc => hdigits c (.tail _ hc)]

end Scan

section Lexes

variable {s : Scan} {cs ds rest : List Char} {tokens more : List Token}

theorem breaks_cons {c : Char} (h : isBreak c = true) : Breaks (c :: rest) := by
  rintro _ ⟨⟩
  exact h

theorem Breaks.append (h : Breaks cs) (hrest : Breaks rest) : Breaks (cs ++ rest) := by
  cases cs with
  | nil => exact hrest
  | cons c => exact breaks_cons (h c rfl)

theorem Breaks.cases {c : Char} (h : Breaks rest) (hc : c ∈ rest.head?) :
    c = ' ' ∨ c = '(' ∨ c = ')' ∨ c = ',' ∨ c = '\n' := by
  simpa [isBreak] using h c hc

/-- A word is split off, also after the members it is one of. -/
theorem lexes_word {word : List Char} (hrun : Scan.start.run cs = some (tokens, .word word))
    (htoken : wordToken? word = some token) :
    Lexes cs (tokens ++ [token]) := by
  intro rest hrest
  have hfinish : (Scan.word word).finish = some [token] := congrArg (Option.map ([·])) htoken
  rw [scan_run hrun, scan_of_next hfinish, map_append_map]
  intro c hc
  rcases hrest.cases hc with rfl | rfl | rfl | rfl | rfl <;> rfl

theorem lexes_numeral (n : Nat) : Lexes (Nat.toDigits 10 n) [.number n] := by
  intro rest hrest
  have hvalue : Nat.ofDigitChars 10 (Nat.toDigits 10 n) 0 = n := Nat.ofDigitChars_ten_toDigits
  have hfinish : (Scan.digits (Nat.toDigits 10 n)).finish = some [.number n] :=
    congrArg (fun value => some [Token.number value]) hvalue
  rw [scan_run (run_numeral n), scan_of_next hfinish, map_append_map, nil_append]
  intro c hc
  rcases hrest.cases hc with rfl | rfl | rfl | rfl | rfl <;> rfl

theorem lexes_nil : Lexes [] [] := fun _ _ => map_id'.symm

theorem Lexes.after (h : Lexes cs tokens) (ds : List Char)
    (hrun : Scan.start.run ds = some (more, .start)) : Lexes (ds ++ cs) (more ++ tokens) := by
  intro rest hrest
  rw [append_assoc, scan_run hrun, h rest hrest, map_append_map]

/-- Two texts, the second of which does not go on with the first. -/
theorem Lexes.append (h : Lexes cs tokens) (hmore : Lexes ds more) (hbreaks : Breaks ds) :
    Lexes (cs ++ ds) (tokens ++ more) := by
  intro rest hrest
  rw [append_assoc, h _ (hbreaks.append hrest), hmore rest hrest, map_append_map]

theorem Lexes.minus (h : Lexes cs tokens) (hcs : cs.head? ≠ some '-') :
    Lexes ('-' :: cs) (.op .sub :: tokens) := by
  intro rest hrest
  have hhead : (cs ++ rest).head? ≠ some '-' := by
    cases cs with
    | nil =>
      -- What follows then begins with a break, and a minus sign is none.
      intro hminus
      exact absurd (hrest '-' hminus) (by decide)
    | cons => exact hcs
  rw [cons_append, scan_minus hhead, h rest hrest, map_append_map]
  rfl

end Lexes

def Admits (limit level : Nat) : Prop :=
  ∀ op : Operator, level ≤ op.precedence → limit < leftPriority op

/-- What follows takes neither an operand from the expression, nor its end
as a callee or an object. -/
def Follows (level : Nat) : List Token → Prop
  | .op next :: _ => ∀ op : Operator, level ≤ op.precedence → leftPriority next ≤ rightPriority op
  | .dot :: _ | .opening :: _ => False
  | _ => True

def ReadsAt (level : Nat) (tokens : List Token) (t : Term) : Prop :=
  ∀ limit rest out, Admits limit level → Follows level rest →
    Converges (binops · limit t rest) out → Converges (subexpr · limit (tokens ++ rest)) out

def ReadsHead (tokens : List Token) (t : Term) : Prop :=
  ∀ rest out, Converges (suffixes · t rest) out → Converges (simple · (tokens ++ rest)) out

def ReadsArgs (tokens : List Token) (args : List Term) : Prop :=
  ∀ rest, Converges (arguments · (tokens ++ .closing :: rest)) (args, rest)

/-! ### Priorities and precedences -/

/-- It needs no parentheses beside the operator: it binds more tightly, or
as tightly where that suffices. -/
def Fits (precedence : Nat) (sameSuffices : Bool) (level : Nat) : Prop :=
  precedence < level ∨ precedence = level ∧ sameSuffices = true

namespace Fits

variable {op inner : Operator} {sameSuffices : Bool} {precedence level higher : Nat}

theorem le (h : Fits precedence sameSuffices level) : precedence ≤ level :=
  h.elim Nat.le_of_lt fun h => Nat.le_of_eq h.1

theorem mono (h : Fits precedence sameSuffices level) (hle : level ≤ higher) :
    Fits precedence sameSuffices higher := by
  obtain hlt | ⟨heq, hsame⟩ := h
  · exact .inl (Nat.lt_of_lt_of_le hlt hle)
  · exact (Nat.lt_or_eq_of_le (heq ▸ hle)).imp_right fun heq => ⟨heq, hsame⟩

/-- Nothing is taken from an operator in the left operand. -/
theorem leftPriority_le (h : Fits op.precedence (!op.isRightAssoc) inner.precedence) :
    leftPriority op ≤ rightPriority inner := by
  unfold Fits at h
  cases op <;> cases inner <;>
    simp_all [Operator.precedence, Operator.isRightAssoc, leftPriority, rightPriority]

/-- An operator in the right operand is let pass. -/
theorem rightPriority_lt (h : Fits op.precedence op.isRightAssoc inner.precedence) :
    rightPriority op < leftPriority inner := by
  unfold Fits at h
  cases op <;> cases inner <;>
    simp_all [Operator.precedence, Operator.isRightAssoc, leftPriority, rightPriority]

end Fits

section ReadsAt

variable {level lower limit : Nat} {op : Operator} {t u : Term} {ts : List Term}
variable {tokens more rest : List Token} {out : Term × List Token}

theorem Admits.mono (h : Admits limit lower) (hle : lower ≤ level) : Admits limit level :=
  fun op hop => h op (Nat.le_trans hle hop)

theorem Follows.mono (h : Follows lower rest) (hle : lower ≤ level) : Follows level rest := by
  unfold Follows at h ⊢
  split at h
  · exact fun op hop => h op (Nat.le_trans hle hop)
  · exact h
  · exact h
  · trivial

theorem ReadsAt.mono (h : ReadsAt level tokens t) (hle : lower ≤ level) : ReadsAt lower tokens t :=
  fun limit rest out hadmits hfollows => h limit rest out (hadmits.mono hle) (hfollows.mono hle)

/-- An operand goes no further than what follows lets it. -/
theorem binops_stop (h : ∀ next ∈ rest.head?, ∀ op, next = .op op → leftPriority op ≤ limit) :
    Converges (binops · limit t rest) (t, rest) := by
  refine converges_of_succ fun n => ?_
  cases rest with
  | nil => rw [binops]; simp
  | cons token =>
    cases token with
    | op op => rw [binops, if_neg (Nat.not_lt.2 (h _ rfl op rfl))]
    | _ => rw [binops]; simp

/-- A head ends where nothing is accessed or called. -/
theorem suffixes_stop (h : Follows level rest) : Converges (suffixes · t rest) (t, rest) := by
  refine converges_of_succ fun n => ?_
  cases rest with
  | nil => rw [suffixes] <;> simp
  | cons token =>
    cases token with
    | dot => exact h.elim
    | opening => exact h.elim
    | _ => rw [suffixes] <;> simp

/-- An operand without operators around it, and what follows it. -/
theorem subexpr_of_simple (hsimple : Converges (simple · tokens) (t, rest))
    (hmore : Converges (binops · limit t rest) out) : Converges (subexpr · limit tokens) out := by
  obtain ⟨k, hk⟩ := hsimple
  -- The first token is no unary operator, as nothing simple begins with one.
  have hsome : simple (k + 1) tokens = some (t, rest) := hk (k + 1) (by omega)
  refine Converges.bind_succ (g := fun n read => binops n limit read.1 read.2) ⟨k, hk⟩ hmore
    fun n => ?_
  cases tokens with
  | nil => rw [subexpr] <;> simp
  | cons token =>
    cases token with
    | not => exact nomatch hsome
    | op => exact nomatch hsome
    | _ => rw [subexpr] <;> simp

theorem ReadsHead.readsAt (h : ReadsHead tokens t) : ReadsAt level tokens t := by
  intro limit rest out _ hfollows hmore
  exact subexpr_of_simple (h rest _ (suffixes_stop hfollows)) hmore

/-- An expression before something that is no operator. -/
theorem ReadsAt.alone (h : ReadsAt level tokens t) (hfollows : Follows level rest)
    (hrest : ∀ next ∈ rest.head?, ∀ op, next ≠ .op op) :
    Converges (subexpr · 0 (tokens ++ rest)) (t, rest) :=
  h 0 rest _ (fun op _ => by cases op <;> decide) hfollows (binops_stop fun next hnext op hop =>
    absurd hop (hrest next hnext op))

theorem readsHead_name (name : String) : ReadsHead [.name name] (.name name) :=
  fun _ _ hmore => hmore.succ fun _ => by rw [singleton_append, simple]

/-- Parentheses group, and leave nothing else behind. -/
theorem ReadsAt.paren (h : ReadsAt level tokens t) :
    ReadsHead (.opening :: (tokens ++ [.closing])) t := by
  intro rest out hmore
  have hinner : Converges (subexpr · 0 (tokens ++ .closing :: rest)) (t, .closing :: rest) :=
    h.alone trivial (by simp)
  rw [cons_append, append_assoc, singleton_append]
  exact Converges.bind_succ hinner hmore fun n => rfl

theorem ReadsHead.member (h : ReadsHead tokens t) (name : String) :
    ReadsHead (tokens ++ [.dot, .name name]) (.member t name) := by
  intro rest out hmore
  rw [append_assoc]
  exact h _ out (hmore.succ fun n => by rw [cons_append, singleton_append, suffixes])

theorem ReadsAt.arg (h : ReadsAt level tokens t) : ReadsArgs tokens [t] := by
  intro rest
  have harg : Converges (subexpr · 0 (tokens ++ .closing :: rest)) (t, .closing :: rest) :=
    h.alone trivial (by simp)
  exact harg.bind_succ ⟨0, fun _ _ => rfl⟩ fun n => rfl

theorem ReadsAt.args (h : ReadsAt level tokens t) (hmore : ReadsArgs more ts) :
    ReadsArgs (tokens ++ .comma :: more) (t :: ts) := by
  intro rest
  rw [append_assoc, cons_append]
  have harg : Converges (subexpr · 0 (tokens ++ .comma :: (more ++ .closing :: rest)))
      (t, .comma :: (more ++ .closing :: rest)) := h.alone trivial (by simp)
  refine harg.bind_succ ?_ fun n => rfl
  obtain ⟨k, hk⟩ := hmore rest
  exact ⟨k, fun n hn => by simp [hk n hn]⟩

theorem arguments_closing (n : Nat) : arguments n (.closing :: tokens) = none := by
  match n with
  | 0 => rfl
  | 1 => rfl
  | 2 => rfl
  | _ + 3 => rfl

/-- A call is again something to access or call. -/
theorem ReadsHead.call (h : ReadsHead tokens t) (hargs : ReadsArgs more ts) :
    ReadsHead (tokens ++ .opening :: (more ++ [.closing])) (.call t ts) := by
  intro rest out hmore
  rw [append_assoc, cons_append, append_assoc, singleton_append]
  refine h _ out ?_
  refine (hargs rest).bind_succ (g := fun n read => suffixes n (.call t read.1) read.2) hmore
    fun n => ?_
  -- A parenthesis that closes at once holds no arguments.
  have hopen : ∀ others, more ++ .closing :: rest ≠ .closing :: others := by
    intro others heq
    obtain ⟨k, hk⟩ := hargs rest
    have hsome : arguments k (more ++ .closing :: rest) = some (ts, rest) := hk k (Nat.le_refl k)
    rw [heq, arguments_closing] at hsome
    exact nomatch hsome
  rw [suffixes]
  exact hopen

section

variable (h : ReadsAt unaryPrecedence tokens t)
include h

/-- A unary operator takes an operand that binds as tightly. -/
theorem ReadsAt.unary (hfollows : Follows unaryPrecedence rest) :
    Converges (subexpr · unaryPriority (tokens ++ rest)) (t, rest) := by
  have hadmits : Admits unaryPriority unaryPrecedence := by
    intro op hop
    cases op <;> exact absurd hop (by decide)
  have hpriority : ∀ op, leftPriority op ≤ unaryPriority := by
    intro op
    cases op <;> decide
  exact h _ rest _ hadmits hfollows (binops_stop fun _ _ op _ => hpriority op)

theorem ReadsAt.not : ReadsAt unaryPrecedence (.not :: tokens) (.not t) :=
  fun _ _ _ _ hfollows hmore => (h.unary hfollows).bind_succ hmore fun _ => rfl

theorem ReadsAt.neg : ReadsAt unaryPrecedence (.op .sub :: tokens) (.neg t) :=
  fun _ _ _ _ hfollows hmore => (h.unary hfollows).bind_succ hmore fun _ => rfl

end

/-- **The precedences of the writer are those of the reader.** A binary
operator takes operands that bind more tightly, and on the side from which
its chains group also operands that bind as tightly. -/
theorem ReadsAt.binary (hlhs : ReadsAt left tokens t) (hrhs : ReadsAt right more u)
    (hleft : Fits op.precedence (!op.isRightAssoc) left)
    (hright : Fits op.precedence op.isRightAssoc right) :
    ReadsAt op.precedence (tokens ++ .op op :: more) (.binary op t u) := by
  intro limit rest out hadmits hfollows hmore
  rw [append_assoc, cons_append]
  have hbelow : Follows left (.op op :: (more ++ rest)) := fun _ hinner =>
    (hleft.mono hinner).leftPriority_le
  refine hlhs limit _ out (hadmits.mono hleft.le) hbelow ?_
  -- The operator is let pass, and what it keeps out ends its right operand.
  have hpass : limit < leftPriority op := hadmits op (Nat.le_refl _)
  have hstop : Converges (binops · (rightPriority op) u rest) (u, rest) := by
    refine binops_stop fun next hnext inner hop => ?_
    cases rest with
    | nil => exact nomatch hnext
    | cons =>
      cases hnext
      subst hop
      exact hfollows op (Nat.le_refl _)
  have hoperand : Converges (subexpr · (rightPriority op) (more ++ rest)) (u, rest) :=
    hrhs _ rest _ (fun _ hinner => (hright.mono hinner).rightPriority_lt) (hfollows.mono hright.le)
      hstop
  refine hoperand.bind_succ (g := fun n read => binops n limit (.binary op t read.1) read.2) hmore
    fun n => ?_
  rw [binops, if_pos hpass]

end ReadsAt

/-! ## Spellings -/

def Spells (text : String) (level : Nat) (t : Term) : Prop :=
  ∃ tokens, Lexes text.toList tokens ∧ ReadsAt level tokens t

def SpellsHead (text : String) (t : Term) : Prop :=
  ∃ tokens, Lexes text.toList tokens ∧ ReadsHead tokens t

def SpellsArgs (text : String) (args : List Term) : Prop :=
  ∃ tokens, Lexes text.toList tokens ∧ ReadsArgs tokens args

def IsFreeName (text : String) : Prop := isName text = true ∧ reserved.contains text = false

instance (text : String) : Decidable (IsFreeName text) := inferInstanceAs (Decidable (_ ∧ _))

section Spells

variable {text more : String} {level : Nat} {op : Operator} {t u : Term} {ts : List Term}

theorem IsFreeName.lexes (h : IsFreeName text) : Lexes text.toList [.name text] := by
  have htoken : wordToken? text.toList = some (.name text) := by
    unfold wordToken?
    rw [String.ofList_toList]
    exact if_neg (Bool.eq_false_iff.1 h.2)
  exact lexes_word (run_name h.1) htoken

theorem IsFreeName.spellsHead (h : IsFreeName text) : SpellsHead text (.name text) :=
  ⟨_, h.lexes, readsHead_name text⟩

theorem spellsHead_member {object : String}
    (hrun : Scan.start.run text.toList = some ([.name object, .dot], .word name.toList))
    (htoken : wordToken? name.toList = some (.name name)) :
    SpellsHead text (.member (.name object) name) :=
  ⟨_, lexes_word hrun htoken, (readsHead_name object).member name⟩

theorem SpellsHead.spells (h : SpellsHead text t) : Spells text level t := by
  obtain ⟨tokens, hlexes, hreads⟩ := h
  exact ⟨tokens, hlexes, hreads.readsAt⟩

theorem Spells.mono {lower : Nat} (h : Spells text level t) (hle : lower ≤ level) :
    Spells text lower t := by
  obtain ⟨tokens, hlexes, hreads⟩ := h
  exact ⟨tokens, hlexes, hreads.mono hle⟩

theorem readsAt_single (h : ∀ n rest, simple (n + 1) (token :: rest) = some (t, rest)) :
    ReadsAt level [token] t :=
  fun _ rest _ _ _ hmore => subexpr_of_simple (converges_of_succ fun n => h n rest) hmore

theorem spells_number (n : Nat) : Spells (toString n) level (.number n) := by
  refine ⟨[.number n], ?_, readsAt_single fun _ _ => rfl⟩
  rw [Nat.toString_eq_ofList_toDigits, String.toList_ofList]
  exact lexes_numeral n

theorem spells_nil : Spells "nil" level .nil :=
  ⟨[.nil], lexes_word (run_name rfl) rfl, readsAt_single fun _ _ => rfl⟩

theorem spells_bool (value : Bool) :
    Spells (if value then "true" else "false") level (.bool value) := by
  refine ⟨[.bool value], ?_, readsAt_single fun _ _ => rfl⟩
  cases value with
  | true => exact lexes_word (run_name rfl) rfl
  | false => exact lexes_word (run_name rfl) rfl

theorem lexes_parens {cs : List Char} {tokens : List Token} (h : Lexes cs tokens) :
    Lexes ('(' :: (cs ++ [')'])) (.opening :: (tokens ++ [.closing])) := by
  have hclosed : Lexes (cs ++ [')']) (tokens ++ [.closing]) :=
    h.append (lexes_nil.after [')'] rfl) (breaks_cons rfl)
  exact hclosed.after ['('] rfl

theorem Spells.paren (h : Spells text level t) : SpellsHead ("(" ++ text ++ ")") t := by
  obtain ⟨tokens, hlexes, hreads⟩ := h
  refine ⟨_, ?_, hreads.paren⟩
  rw [String.toList_append, String.toList_append]
  exact lexes_parens hlexes

theorem Spells.arg (h : Spells text level t) : SpellsArgs text [t] := by
  obtain ⟨tokens, hlexes, hreads⟩ := h
  exact ⟨tokens, hlexes, hreads.arg⟩

theorem Spells.args (h : Spells text level t) (hmore : SpellsArgs more ts) :
    SpellsArgs (text ++ ", " ++ more) (t :: ts) := by
  obtain ⟨tokens, hlexes, hreads⟩ := h
  obtain ⟨others, hothers, hargs⟩ := hmore
  refine ⟨_, ?_, hreads.args hargs⟩
  rw [String.toList_append, String.toList_append, append_assoc]
  exact hlexes.append (hothers.after [',', ' '] rfl) (breaks_cons rfl)

theorem SpellsHead.call (h : SpellsHead text t) (hargs : SpellsArgs more ts) :
    SpellsHead (text ++ "(" ++ more ++ ")") (.call t ts) := by
  obtain ⟨tokens, hlexes, hreads⟩ := h
  obtain ⟨others, hothers, hargs⟩ := hargs
  refine ⟨_, ?_, hreads.call hargs⟩
  rw [String.toList_append, String.toList_append, String.toList_append, append_assoc, append_assoc]
  exact hlexes.append (lexes_parens hothers) (breaks_cons rfl)

theorem Spells.not (h : Spells text unaryPrecedence t) :
    Spells ("not " ++ text) unaryPrecedence (.not t) := by
  obtain ⟨tokens, hlexes, hreads⟩ := h
  refine ⟨_, ?_, hreads.not⟩
  rw [String.toList_append]
  exact hlexes.after "not ".toList rfl

theorem Spells.neg (h : Spells text unaryPrecedence t) (hstart : startsWith '-' text = false) :
    Spells ("-" ++ text) unaryPrecedence (.neg t) := by
  obtain ⟨tokens, hlexes, hreads⟩ := h
  refine ⟨_, ?_, hreads.neg⟩
  rw [String.toList_append]
  exact hlexes.minus fun hminus => by simp [startsWith, hminus] at hstart

/-- A binary operator between operands that fit. -/
theorem Spells.binary (hlhs : Spells text left t) (hrhs : Spells more right u)
    (hleft : Fits op.precedence (!op.isRightAssoc) left)
    (hright : Fits op.precedence op.isRightAssoc right) :
    Spells (text ++ " " ++ op.spelling ++ " " ++ more) op.precedence (.binary op t u) := by
  obtain ⟨tokens, hlexes, hreads⟩ := hlhs
  obtain ⟨others, hothers, hoperand⟩ := hrhs
  refine ⟨_, ?_, hreads.binary hoperand hleft hright⟩
  have hop : Scan.start.run (' ' :: (op.spelling.toList ++ [' '])) = some ([.op op], .start) := by
    cases op <;> rfl
  have htail := hlexes.append (hothers.after _ hop) (breaks_cons rfl)
  simpa [String.toList_append] using htail

theorem Lexes.scan_eq {cs : List Char} {tokens : List Token} (h : Lexes cs tokens) :
    scan .start cs = some tokens := by
  have hscan := h [] nofun
  rw [append_nil] at hscan
  exact hscan.trans (congrArg some (append_nil tokens))

theorem Spells.reads (h : Spells text level t) : Reads text t := by
  obtain ⟨tokens, hlexes, hreads⟩ := h
  have hconverges : Converges (subexpr · 0 (tokens ++ [])) (t, []) := hreads.alone trivial (by simp)
  obtain ⟨k, hk⟩ := hconverges
  refine ⟨k, fun n hn => ?_⟩
  have hread : subexpr n 0 tokens = some (t, []) := append_nil tokens ▸ hk n hn
  simp [expression?, hlexes.scan_eq, hread]

/-- An assignment to a variable on a line of its own. -/
theorem Spells.readsAssignment {indent : String} (h : Spells text level t) (hname : IsFreeName name)
    (hindent : ∀ c ∈ indent.toList, isBlank c = true) :
    ReadsAssignment (indent ++ (name ++ " = " ++ text) ++ "\n") (.name name) t := by
  obtain ⟨tokens, hlexes, hreads⟩ := h
  have hline : scan .start (indent ++ (name ++ " = " ++ text) ++ "\n").toList =
      some (.name name :: .assign :: tokens) := by
    have hvalue : Lexes (' ' :: '=' :: ' ' :: (text.toList ++ ['\n'])) (.assign :: tokens) := by
      have hend : Lexes ['\n'] [] := lexes_nil.after ['\n'] rfl
      have hended := hlexes.append hend (breaks_cons rfl)
      rw [append_nil] at hended
      exact hended.after [' ', '=', ' '] rfl
    have hall := (hname.lexes.append hvalue (breaks_cons rfl)).scan_eq
    simp only [String.toList_append, append_assoc]
    rw [scan_blanks hindent]
    exact hall
  have hconverges : Converges (subexpr · 0 (tokens ++ [])) (t, []) := hreads.alone trivial (by simp)
  obtain ⟨k, hk⟩ := hconverges
  refine ⟨k + 1, fun n hn => ?_⟩
  have hread : subexpr n 0 tokens = some (t, []) :=
    append_nil tokens ▸ hk n (Nat.le_of_succ_le hn)
  have htarget : target? n (.name name :: .assign :: tokens) =
      some (.name name, .assign :: tokens) := by
    obtain ⟨m, rfl⟩ : ∃ m, n = m + 1 := ⟨n - 1, by omega⟩
    rfl
  unfold assignment?
  rw [hline]
  simp [htarget, hread]

end Spells

end LuaBackend.Lua
