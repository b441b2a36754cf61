/-
  Blame — what a reader that fails complains about.

  A reader may fail in many spots, but it has only three things to point at: a lexeme of the tag, the
  fault that cut the lexemes short, and the place where the tag or the source ends.  `Explains` lists
  them, and says which complaints the grammar makes of its own: an unexpected lexeme, too deep a
  nesting, an index out of range.  Literals are never refused, since the lexer has already decoded
  them; the lexemes have to be orderly for that.

  `Blames whole p P` is about every feed that is left over from `whole`: if `p` fails the complaint is
  explained by `whole`, and if `p` succeeds it leaves such a feed again and gives something that
  satisfies `P`.  The condition `P` is there for the lexemes that are handed on to be blamed later.
-/
import Stencil.Proofs.Reader.Orderly
import Stencil.Proofs.Reader.Path
import Stencil.Reader.Stmt

namespace Stencil

/-- Whether the grammar itself finds the fault, and not the lexer. -/
def Fault.isGrammar : Fault → Bool
  | unexpected .. | tooDeep _ | indexTooLarge => true
  | _ => false

namespace Feed

/-- What a complaint about a tag may be about. -/
inductive Explains (whole : Feed) : Diagnostic → Prop
  | lexeme {l : Lexeme} {fault : Fault} (hl : l ∈ whole.lexemes) (hf : fault.isGrammar = true) :
      Explains whole ⟨fault, l.span⟩
  | atEnd {pos : Nat} {fault : Fault} (h : whole.stop = .atEnd pos)
      (hf : fault.isGrammar = true) : Explains whole ⟨fault, Span.point pos⟩
  | fault {diagnostic : Diagnostic} (h : whole.stop = .fault diagnostic) :
      Explains whole diagnostic

/-- The feed is what is left of `whole` after some lexemes have been taken. -/
structure LeftOf (whole feed : Feed) : Prop where
  lexemes : feed.lexemes <:+ whole.lexemes
  stop : feed.stop = whole.stop

theorem LeftOf.refl (feed : Feed) : feed.LeftOf feed := ⟨List.suffix_refl _, rfl⟩

theorem LeftOf.mem {whole feed : Feed} (h : whole.LeftOf feed) {l : Lexeme}
    (hl : l ∈ feed.lexemes) : l ∈ whole.lexemes := h.lexemes.subset hl

/-- Taking a lexeme leaves less of the same tag. -/
theorem LeftOf.tail {whole feed : Feed} (h : whole.LeftOf feed) {l : Lexeme} {ls : List Lexeme}
    (hls : feed.lexemes = l :: ls) (last : Span) : whole.LeftOf ⟨ls, feed.stop, last⟩ where
  lexemes := (List.suffix_cons l ls).trans (hls ▸ h.lexemes)
  stop := h.stop

end Feed

namespace Reader

variable {α β : Type} {whole : Feed} {P : α → Prop} {Q : β → Prop}

/-- On what is left of `whole`, the reader fails for a reason that `whole` explains, or gives
    something that satisfies `P` and leaves the rest. -/
def Blames (whole : Feed) (p : Reader α) (P : α → Prop := fun _ => True) : Prop :=
  ∀ feed, whole.LeftOf feed →
    (∀ diagnostic, p feed = .error diagnostic → whole.Explains diagnostic) ∧
    ∀ a rest, p feed = .ok (a, rest) → whole.LeftOf rest ∧ P a

/-- A lexeme that has been found, if there is one, is among the lexemes of the tag. -/
def IsFrom (whole : Feed) (found : Option Lexeme) : Prop := ∀ l ∈ found, l ∈ whole.lexemes

theorem isFrom_some {l : Lexeme} (h : IsFrom whole (some l)) : l ∈ whole.lexemes := h l rfl

/-! ## Sequencing, choice and repetition -/

/-- A result that is no failure. -/
theorem blames_ok {a : α} {rest : Feed} (hrest : whole.LeftOf rest) (ha : P a) :
    (∀ diagnostic, (.ok (a, rest) : Except Diagnostic (α × Feed)) = .error diagnostic →
      whole.Explains diagnostic) ∧
    ∀ a' rest', (.ok (a, rest) : Except Diagnostic (α × Feed)) = .ok (a', rest') →
      whole.LeftOf rest' ∧ P a' := by
  refine ⟨nofun, fun a' rest' h => ?_⟩
  cases h
  exact ⟨hrest, ha⟩

/-- A failure that has a reason. -/
theorem blames_error {diagnostic : Diagnostic} (h : whole.Explains diagnostic) :
    (∀ diagnostic', (.error diagnostic : Except Diagnostic (α × Feed)) = .error diagnostic' →
      whole.Explains diagnostic') ∧
    ∀ a rest, (.error diagnostic : Except Diagnostic (α × Feed)) = .ok (a, rest) →
      whole.LeftOf rest ∧ P a := by
  refine ⟨fun diagnostic' herror => ?_, nofun⟩
  cases herror
  exact h

theorem Blames.pure {a : α} (h : P a) : Blames whole (Pure.pure a) P :=
  fun _ hfeed => blames_ok hfeed h

theorem Blames.bind {p : Reader α} {k : α → Reader β} (hp : Blames whole p P)
    (hk : ∀ a, P a → Blames whole (k a) Q) : Blames whole (p >>= k) Q := by
  intro feed hfeed
  obtain ⟨herror, hok⟩ := hp feed hfeed
  rw [bind_apply]
  cases hresult : p feed with
  | error diagnostic => exact blames_error (herror diagnostic hresult)
  | ok r =>
    obtain ⟨hrest, ha⟩ := hok r.1 r.2 hresult
    exact hk r.1 ha r.2 hrest

theorem Blames.map {p : Reader α} (hp : Blames whole p) (f : α → β) : Blames whole (f <$> p) :=
  hp.bind fun _ _ => .pure trivial

theorem Blames.ite {c : Prop} [Decidable c] {p q : Reader α} (hp : Blames whole p P)
    (hq : Blames whole q P) : Blames whole (if c then p else q) P := by
  split
  · exact hp
  · exact hq

/-- A reader that fails at once must have a reason to. -/
theorem fail_blames {diagnostic : Diagnostic} (h : whole.Explains diagnostic) :
    Blames whole (fail diagnostic) P :=
  fun _ _ => blames_error h

theorem manyFrom_blames {item : Reader (Option α)} (hitem : Blames whole item) (fuel : Nat) :
    Blames whole (manyFrom item fuel) := by
  induction fuel with
  | zero => exact .pure trivial
  | succ fuel ih =>
    refine hitem.bind fun found _ => ?_
    cases found with
    | none => exact .pure trivial
    | some x => exact ih.bind fun xs _ => .pure trivial

theorem many_blames {item : Reader (Option α)} (hitem : Blames whole item) :
    Blames whole (many item) :=
  fun feed => manyFrom_blames hitem (feed.lexemes.length + 1) feed

/-! ## Single lexemes -/

theorem atStop_blames {feed : Feed} (hfeed : whole.LeftOf feed) :
    (∀ diagnostic, feed.atStop = .error diagnostic → whole.Explains diagnostic) ∧
      ∀ found rest, feed.atStop = .ok (found, rest) → whole.LeftOf rest ∧ IsFrom whole found := by
  constructor
  · intro diagnostic h
    unfold Feed.atStop at h
    split at h
    · next hstop => cases h; exact .fault (by rw [← hfeed.stop, hstop])
    · cases h
  · intro found rest h
    obtain ⟨rfl, rfl⟩ := atStop_eq_ok h
    exact ⟨hfeed, fun l hl => by cases hl⟩

theorem peek_blames : Blames whole peek (IsFrom whole) := by
  intro feed hfeed
  rw [peek_feed, Feed.peek]
  split
  · next l ls hls =>
    refine blames_ok hfeed fun l' hl' => ?_
    cases hl'
    exact hfeed.mem (by rw [hls]; exact List.mem_cons_self)
  · exact atStop_blames hfeed

theorem peekSecond_blames : Blames whole peekSecond (IsFrom whole) := by
  intro feed hfeed
  rw [peekSecond_feed, Feed.peekSecond]
  split
  · next l l' ls hls =>
    refine blames_ok hfeed fun l'' hl'' => ?_
    cases hl''
    exact hfeed.mem (by rw [hls]; exact List.mem_cons_of_mem _ List.mem_cons_self)
  · exact atStop_blames hfeed

theorem next_blames : Blames whole next (IsFrom whole) := by
  intro feed hfeed
  rw [next_feed, Feed.next]
  split
  · next l ls hls =>
    refine blames_ok (hfeed.tail hls _) fun l' hl' => ?_
    cases hl'
    exact hfeed.mem (by rw [hls]; exact List.mem_cons_self)
  · exact atStop_blames hfeed

theorem last_blames : Blames whole last := fun _ hfeed => blames_ok hfeed trivial

theorem eof_blames :
    Blames whole eof fun s => ∃ pos, s = Span.point pos ∧ whole.stop = .atEnd pos := by
  intro feed hfeed
  rw [eof_feed, Feed.eof]
  split
  · next pos hstop => exact blames_ok hfeed ⟨pos, rfl, by rw [← hfeed.stop, hstop]⟩
  · next diagnostic hstop => exact blames_error (.fault (by rw [← hfeed.stop, hstop]))

theorem unexpected_blames {found : Option Lexeme} (h : IsFrom whole found)
    (expected : List Expected) : Blames whole (unexpected expected found) P := by
  cases found with
  | some l => exact fail_blames (.lexeme (isFrom_some h) rfl)
  | none =>
    refine eof_blames.bind fun s hs => ?_
    obtain ⟨pos, rfl, hstop⟩ := hs
    exact fail_blames (.atEnd hstop rfl)

theorem tooDeep_blames (limit : Nat) : Blames whole (tooDeep limit) P := by
  refine peek_blames.bind fun found hfound => ?_
  cases found with
  | some l => exact fail_blames (.lexeme (isFrom_some hfound) rfl)
  | none =>
    refine eof_blames.bind fun s hs => ?_
    obtain ⟨pos, rfl, hstop⟩ := hs
    exact fail_blames (.atEnd hstop rfl)

theorem nextIs_blames (token : Token) : Blames whole (nextIs token) :=
  peek_blames.bind fun _ _ => .pure trivial

theorem secondIs_blames (token : Token) : Blames whole (secondIs token) :=
  peekSecond_blames.bind fun _ _ => .pure trivial

theorem eat_blames (token : Token) : Blames whole (eat token) (IsFrom whole) :=
  (nextIs_blames token).bind fun _ _ => .ite next_blames (.pure fun l hl => by cases hl)

theorem eats_blames (token : Token) : Blames whole (eats token) :=
  (eat_blames token).bind fun _ _ => .pure trivial

theorem expect_blames (token : Token) : Blames whole (expect token) (· ∈ whole.lexemes) := by
  refine next_blames.bind fun found hfound => ?_
  cases found with
  | none => exact unexpected_blames hfound _
  | some l => exact .ite (.pure (isFrom_some hfound)) (unexpected_blames hfound _)

theorem seqFrom_blames {item : Reader α} (hitem : Blames whole item) (close : Token) (fuel : Nat)
    (trailing : Bool) : Blames whole (seqFrom close item fuel trailing) := by
  induction fuel generalizing trailing with
  | zero =>
    rw [seqFrom]
    refine (eat_blames close).bind fun found _ => ?_
    cases found with
    | some l => exact .pure trivial
    | none =>
      refine hitem.bind fun x _ => next_blames.bind fun found hfound => ?_
      cases found with
      | none => exact unexpected_blames hfound _
      | some l =>
        exact .ite (unexpected_blames hfound _)
          (.ite (.pure trivial) (unexpected_blames hfound _))
  | succ fuel ih =>
    rw [seqFrom]
    refine (eat_blames close).bind fun found _ => ?_
    cases found with
    | some l => exact .pure trivial
    | none =>
      refine hitem.bind fun x _ => next_blames.bind fun found hfound => ?_
      cases found with
      | none => exact unexpected_blames hfound _
      | some l =>
        refine .ite ?_ (.ite (.pure trivial) (unexpected_blames hfound _))
        exact (ih true).bind fun s _ => .pure trivial

theorem seq_blames {item : Reader α} (hitem : Blames whole item) (close : Token) :
    Blames whole (seq close item) :=
  fun feed => seqFrom_blames hitem close feed.lexemes.length false feed

/-! ## Names and literals -/

theorem ident_blames : Blames whole ident := by
  refine next_blames.bind fun found hfound => ?_
  cases found with
  | none => exact unexpected_blames hfound _
  | some l => exact .ite (.pure trivial) (unexpected_blames hfound _)

theorem ident?_blames : Blames whole ident? :=
  peek_blames.bind fun _ _ => .ite (ident_blames.map some) (.pure trivial)

section

variable [Letters] (hord : Orderly whole.lexemes) {l : Lexeme} (hl : l ∈ whole.lexemes)

include hord hl

/-- The lexer lets no text literal pass that cannot be decoded. -/
theorem textOf_eq_pure (ht : l.token = .str) : ∃ value, (textOf l : Reader String) = pure value := by
  have hspells := hord.spells hl (by rw [ht]; rfl)
  rw [ht] at hspells
  obtain ⟨value, body, htext, -, hvalue⟩ := hspells
  have hbody : quotedBody l = body := by
    rw [quotedBody, htext]
    exact List.dropLast_concat
  refine ⟨String.ofList value, ?_⟩
  rw [textOf_feed, Feed.textOf, hbody, hvalue]

theorem textOf_blames (ht : l.token = .str) : Blames whole (textOf l) := by
  obtain ⟨value, hvalue⟩ := textOf_eq_pure hord hl ht
  rw [hvalue]
  exact .pure trivial

/-- Nor a character literal that is not exactly one character. -/
theorem charOf_eq_pure (ht : l.token = .char) :
    ∃ c, Escape.unescape true (quotedBody l) = .ok [c] ∧ Feed.charOf l = pure c := by
  have hspells := hord.spells hl (by rw [ht]; rfl)
  rw [ht] at hspells
  obtain ⟨c, body, htext, -, hvalue⟩ := hspells
  have hbody : quotedBody l = body := by
    rw [quotedBody, htext]
    exact List.dropLast_concat
  rw [Feed.charOf, hbody, hvalue]
  exact ⟨c, rfl, rfl⟩

theorem charOf_blames (ht : l.token = .char) : Blames whole (Feed.charOf l) := by
  obtain ⟨c, -, hc⟩ := charOf_eq_pure hord hl ht
  rw [hc]
  exact .pure trivial

omit [Letters] hord hl in
/-- A number has the parts of a number. -/
theorem number?_of_isNumeral {text : List Char} (h : isNumeral text = true) (negative : Bool) :
    ∃ n, Numeral.number? text negative = some n := by
  cases text with
  | nil => cases h
  | cons c cs =>
    simp only [isNumeral, Bool.and_eq_true] at h
    obtain ⟨parts, hparts⟩ := Option.isSome_iff_exists.1 h.2
    unfold Numeral.number?
    rw [hparts]
    exact ⟨_, rfl⟩

theorem exists_number (ht : l.token = .number) (negative : Bool) :
    ∃ n, Numeral.number? l.text negative = some n := by
  have hspells := hord.spells hl (by rw [ht]; rfl)
  rw [ht] at hspells
  exact number?_of_isNumeral hspells negative

theorem literalOf_blames (negative : Bool) : Blames whole (literalOf l negative) := by
  rw [literalOf_feed, Feed.literalOf]
  split
  · next ht => exact (textOf_blames hord hl ht).map _
  · next ht => exact (charOf_blames hord hl ht).map _
  · next ht =>
    obtain ⟨n, hn⟩ := exists_number hord hl ht negative
    rw [hn]
    exact .pure trivial
  · exact .pure trivial
  · exact .pure trivial
  · refine unexpected_blames (fun l' hl' => ?_) _
    cases hl'
    exact hl

omit hl in
theorem textLit_blames : Blames whole textLit := by
  refine next_blames.bind fun found hfound => ?_
  cases found with
  | none => exact unexpected_blames hfound _
  | some l =>
    -- Both branches are known only after the test for a text literal.
    by_cases ht : l.token = .str
    · simp only [ht, if_true]
      exact (textOf_blames hord (isFrom_some hfound) ht).bind fun _ _ => .pure trivial
    · simp only [ht, if_false]
      exact unexpected_blames hfound _

end

/-! ## What is made of full expressions -/

section

variable {value : Reader Expr} (hvalue : Blames whole value)

theorem startsNamed_blames : Blames whole startsNamed :=
  peek_blames.bind fun _ _ => .ite (secondIs_blames _) (.pure trivial)

include hvalue

theorem arg_blames : Blames whole (arg value) := by
  refine startsNamed_blames.bind fun named _ => .ite ?_ ?_
  · refine ident_blames.bind fun name _ => (expect_blames _).bind fun _ _ => ?_
    exact hvalue.bind fun _ _ => .pure trivial
  · exact hvalue.bind fun _ _ => .pure trivial

theorem args_blames : Blames whole (args value) :=
  (expect_blames _).bind fun _ _ => (seq_blames (arg_blames hvalue) _).bind fun _ _ =>
    .pure trivial

theorem filter_blames : Blames whole (filter value) := by
  refine ident_blames.bind fun name _ => (nextIs_blames _).bind fun _ _ => .ite ?_ (.pure trivial)
  exact (args_blames hvalue).bind fun _ _ => .pure trivial

theorem filter?_blames : Blames whole (filter? value) :=
  (eats_blames _).bind fun _ _ => .ite ((filter_blames hvalue).map some) (.pure trivial)

theorem macroCall_blames (global : Bool) (segments : List Ident) (start : Span) (name : Lexeme) :
    Blames whole (macroCall value global segments start name) :=
  (args_blames hvalue).bind fun _ _ => .pure trivial

theorem macroSegment_blames (global : Bool) (segments : List Ident) (start : Span) :
    Blames whole (macroSegment value global segments start) := by
  refine next_blames.bind fun found hfound => ?_
  cases found with
  | none => exact unexpected_blames hfound _
  | some l =>
    exact .ite (macroCall_blames hvalue global segments start l) (unexpected_blames hfound _)

omit hvalue in
theorem segment?_blames : Blames whole segment? := by
  refine (nextIs_blames _).bind fun _ _ => .ite ?_ (.pure trivial)
  refine (secondIs_blames _).bind fun _ _ => .ite (.pure trivial) ?_
  exact next_blames.bind fun _ _ => ident_blames.map some

theorem pathExpr_blames (global : Bool) (first : Ident) (start : Span) :
    Blames whole (pathExpr value global first start) := by
  rw [pathExpr_feed]
  refine (many_blames segment?_blames).bind fun more _ => (eats_blames _).bind fun _ _ => ?_
  exact .ite (macroSegment_blames hvalue global (first :: more) start) (.pure trivial)

theorem parenthesized_blames (opening : Lexeme) : Blames whole (parenthesized value opening) := by
  refine (seq_blames hvalue _).bind fun s _ => ?_
  dsimp only
  split <;> exact .pure trivial

theorem primary_blames [Letters] (hord : Orderly whole.lexemes) : Blames whole (primary value) := by
  refine next_blames.bind fun found hfound => ?_
  cases found with
  | none => exact unexpected_blames hfound _
  | some l =>
    dsimp only
    split
    · refine next_blames.bind fun found hfound => ?_
      cases found with
      | none => exact unexpected_blames hfound _
      | some number =>
        exact (literalOf_blames hord (isFrom_some hfound) true).bind fun _ _ => .pure trivial
    · refine (nextIs_blames _).bind fun _ _ => .ite (macroSegment_blames hvalue true [] l.span) ?_
      exact ident_blames.bind fun first _ => pathExpr_blames hvalue true first l.span
    · exact macroCall_blames hvalue false [] l.span l
    · exact parenthesized_blames hvalue l
    · exact (seq_blames hvalue _).bind fun _ _ => .pure trivial
    · refine .ite ?_ (.ite ?_ (unexpected_blames hfound _))
      · exact (literalOf_blames hord (isFrom_some hfound) false).bind fun _ _ => .pure trivial
      · refine (nextIs_blames _).bind fun _ _ => .ite ?_ (.pure trivial)
        exact pathExpr_blames hvalue false (identOf l) l.span

omit hvalue in
theorem key_blames : Blames whole key := by
  refine next_blames.bind fun found hfound => ?_
  cases found with
  | none => exact unexpected_blames hfound _
  | some l =>
    dsimp only
    split
    · exact .pure trivial
    · exact .pure trivial
    · rw [indexOf_bind_feed]
      exact .ite (.pure trivial) (fail_blames (.lexeme (isFrom_some hfound) rfl))
    · exact unexpected_blames hfound _

theorem suffix_blames (x : Expr) (l : Lexeme) : Blames whole (suffix value x l) := by
  unfold suffix
  split
  · exact (args_blames hvalue).bind fun _ _ => .pure trivial
  · exact next_blames.bind fun _ _ => key_blames.bind fun _ _ => .pure trivial
  · refine next_blames.bind fun _ _ => hvalue.bind fun i _ => ?_
    exact (expect_blames _).bind fun _ _ => .pure trivial
  · exact next_blames.bind fun _ _ => .pure trivial

end

/-! ## Operators and full expressions -/

section

variable [Letters] (hord : Orderly whole.lexemes) {limit : Nat} {e : Nat → Reader Expr}
  (he : ∀ k, Blames whole (e k))

include hord he

omit [Letters] hord in
theorem suffixes_blames (budget : Nat) (x : Expr) : Blames whole (suffixes limit e budget x) := by
  induction budget generalizing x with
  | zero =>
    unfold suffixes
    refine peek_blames.bind fun found _ => ?_
    cases found with
    | none => exact .pure trivial
    | some l => exact .ite (tooDeep_blames limit) (.pure trivial)
  | succ budget ih =>
    unfold suffixes
    refine peek_blames.bind fun found _ => ?_
    cases found with
    | none => exact .pure trivial
    | some l =>
      refine .ite ?_ (.pure trivial)
      exact (suffix_blames (he budget) x l).bind fun y _ => ih y

theorem tested_blames (budget : Nat) : Blames whole (tested limit e budget) := by
  refine (primary_blames (he budget) hord).bind fun x _ => ?_
  refine (suffixes_blames he budget x).bind fun y _ => (eats_blames _).bind fun _ _ => ?_
  refine .ite ?_ (.pure trivial)
  exact (eats_blames _).bind fun _ _ => (expect_blames _).bind fun _ _ => .pure trivial

omit [Letters] hord he in
theorem unary?_blames : Blames whole unary? := by
  refine peek_blames.bind fun found _ => ?_
  cases found with
  | none => exact .pure trivial
  | some l =>
    dsimp only
    split
    · exact .pure trivial
    · exact .pure trivial
    · exact .pure trivial
    · exact (secondIs_blames _).bind fun _ _ => .ite (.pure trivial) (.pure trivial)
    · exact .pure trivial

theorem unary_blames (budget : Nat) : Blames whole (unary limit e budget) := by
  induction budget with
  | zero =>
    rw [unary]
    refine unary?_blames.bind fun found _ => ?_
    cases found with
    | none => exact tested_blames hord he 0
    | some u => exact next_blames.bind fun _ _ => tooDeep_blames limit
  | succ budget ih =>
    rw [unary]
    refine unary?_blames.bind fun found _ => ?_
    cases found with
    | none => exact tested_blames hord he (budget + 1)
    | some u => exact next_blames.bind fun _ _ => ih.bind fun _ _ => .pure trivial

omit [Letters] hord he in
theorem operatorFrom?_blames (min : Nat) : Blames whole (operatorFrom? min) :=
  peek_blames.bind fun _ _ => .pure trivial

theorem operators_blames (budget min : Nat) (left : Expr) :
    Blames whole (operators limit e budget min left) := by
  induction budget generalizing min left with
  | zero =>
    unfold operators
    refine (operatorFrom?_blames min).bind fun found _ => ?_
    cases found with
    | none => exact .pure trivial
    | some op => exact tooDeep_blames limit
  | succ budget ih =>
    unfold operators
    refine (operatorFrom?_blames min).bind fun found _ => ?_
    rcases found with _ | op | _
    · exact .pure trivial
    · refine next_blames.bind fun _ _ => (unary_blames hord he budget).bind fun operand _ => ?_
      exact (ih (op.level + 1) operand).bind fun right _ => ih min _
    · refine next_blames.bind fun _ _ => (filter_blames (he budget)).bind fun first _ => ?_
      exact (many_blames (filter?_blames (he budget))).bind fun rest _ => ih min _

theorem operation_blames (budget : Nat) : Blames whole (operation limit e budget) :=
  (unary_blames hord he budget).bind fun first _ => operators_blames hord he budget 0 first

end

theorem range?_blames : Blames whole range? := by
  refine peek_blames.bind fun found _ => ?_
  cases found with
  | none => exact .pure trivial
  | some l =>
    dsimp only
    split <;> exact .pure trivial

theorem operandFollows_blames : Blames whole operandFollows :=
  peek_blames.bind fun _ _ => .pure trivial

theorem rangeFrom_blames {operand : Reader Expr} (hoperand : Blames whole operand)
    (start : Option Expr) (inclusive : Bool) :
    Blames whole (rangeFrom operand start inclusive) := by
  have hbound : ∀ (op : Span) (first : Nat) (bounded : Bool), Blames whole (if bounded then do
      let stop ← operand
      return Expr.range start (some stop) inclusive ⟨first, stop.span.stop⟩
    else return .range start none inclusive ⟨first, op.stop⟩) :=
    fun op first bounded => .ite (hoperand.bind fun _ _ => .pure trivial) (.pure trivial)
  refine next_blames.bind fun _ _ => last_blames.bind fun op _ => ?_
  refine .ite ?_ ?_
  · exact Blames.bind (P := fun _ => True) (.pure trivial) fun bounded _ => hbound op _ bounded
  · exact operandFollows_blames.bind fun bounded _ => hbound op _ bounded

theorem ranged_blames {operand : Reader Expr} (hoperand : Blames whole operand) :
    Blames whole (ranged operand) := by
  refine range?_blames.bind fun found _ => ?_
  cases found with
  | some inclusive => exact rangeFrom_blames hoperand none inclusive
  | none =>
    refine hoperand.bind fun x _ => range?_blames.bind fun found _ => ?_
    cases found with
    | some inclusive => exact rangeFrom_blames hoperand (some x) inclusive
    | none => exact .pure trivial

theorem exprWithin_blames [Letters] (hord : Orderly whole.lexemes) (limit budget : Nat) :
    Blames whole (exprWithin limit budget) := by
  induction budget using Nat.strongRecOn with
  | ind budget ih =>
    cases budget with
    | zero =>
      rw [exprWithin_zero]
      exact tooDeep_blames limit
    | succ budget =>
      rw [exprWithin_succ]
      refine ranged_blames (operation_blames hord (fun k => ?_) budget)
      by_cases hk : k ≤ budget
      · rw [if_pos hk]
        exact ih k (Nat.lt_succ_of_le hk)
      · rw [if_neg hk]
        exact tooDeep_blames limit

/-! ## Patterns -/

section

variable {inner : Reader Pattern} (hinner : Blames whole inner)

theorem pathSegment?_blames : Blames whole pathSegment? :=
  (eats_blames _).bind fun _ _ => .ite (ident_blames.map some) (.pure trivial)

include hinner

theorem fieldPattern_blames : Blames whole (fieldPattern inner) := by
  refine (eat_blames _).bind fun found _ => ?_
  cases found with
  | some l => exact .pure trivial
  | none =>
    refine ident_blames.bind fun name _ => (eats_blames _).bind fun _ _ => ?_
    exact .ite (hinner.bind fun _ _ => .pure trivial) (.pure trivial)

theorem structPattern_blames (global : Bool) (first : Ident) (start : Span) :
    Blames whole (structPattern inner global first start) := by
  refine (many_blames pathSegment?_blames).bind fun more _ => (eats_blames _).bind fun _ _ => .ite ?_ ?_
  · exact (seq_blames hinner _).bind fun _ _ => .pure trivial
  · refine (eats_blames _).bind fun _ _ => .ite ?_ (.pure trivial)
    exact (seq_blames (fieldPattern_blames hinner) _).bind fun _ _ => .pure trivial

omit hinner in
theorem negativePattern_blames [Letters] (hord : Orderly whole.lexemes) (minus : Lexeme) :
    Blames whole (negativePattern minus) := by
  refine next_blames.bind fun found hfound => ?_
  cases found with
  | none => exact unexpected_blames hfound _
  | some l =>
    refine .ite ?_ (unexpected_blames hfound _)
    exact (literalOf_blames hord (isFrom_some hfound) true).bind fun _ _ => .pure trivial

theorem tuplePattern_blames (opening : Lexeme) : Blames whole (tuplePattern inner opening) := by
  refine (seq_blames hinner _).bind fun s _ => ?_
  split <;> exact .pure trivial

theorem patternAtom_blames [Letters] (hord : Orderly whole.lexemes) : Blames whole (patternAtom inner) := by
  refine next_blames.bind fun found hfound => ?_
  cases found with
  | none => exact unexpected_blames hfound _
  | some l =>
    dsimp only
    split
    · exact .pure trivial
    · exact negativePattern_blames hord l
    · exact ident_blames.bind fun first _ => structPattern_blames hinner true first l.span
    · exact tuplePattern_blames hinner l
    · exact (seq_blames hinner _).bind fun _ _ => .pure trivial
    · rw [isUnderscore_bind_feed]
      refine .ite (.pure trivial) (.ite ?_ (.ite ?_ (unexpected_blames hfound _)))
      · exact (literalOf_blames hord (isFrom_some hfound) false).bind fun _ _ => .pure trivial
      · exact structPattern_blames hinner false (identOf l) l.span

theorem alternatives_blames : Blames whole (alternatives inner) := by
  have halternative : Blames whole (alternative? inner) := by
    refine (eats_blames _).bind fun _ _ => .ite (hinner.map some) ?_
    exact (eats_blames _).bind fun _ _ => .ite (hinner.map some) (.pure trivial)
  refine hinner.bind fun first _ => (many_blames halternative).bind fun rest _ => ?_
  split <;> exact .pure trivial

end

theorem patternWithin_blames [Letters] (hord : Orderly whole.lexemes) (limit budget : Nat) :
    Blames whole (patternWithin limit budget) := by
  induction budget with
  | zero => exact tooDeep_blames limit
  | succ budget ih => exact alternatives_blames (patternAtom_blames ih hord)

/-! ## Statements -/

section

variable [Letters] (hord : Orderly whole.lexemes) (limit : Nat)

include hord

theorem expr_blames : Blames whole (expr limit) := exprWithin_blames hord limit limit

theorem pattern_blames : Blames whole (pattern limit) := patternWithin_blames hord limit limit

theorem armPattern_blames : Blames whole (armPattern limit) := by
  refine (pattern_blames hord limit).bind fun base _ => (eats_blames _).bind fun _ _ => ?_
  refine .ite (next_blames.bind fun found hfound => ?_) (.pure trivial)
  cases found with
  | none => exact unexpected_blames hfound _
  | some opening =>
    dsimp only
    split
    · exact unexpected_blames hfound _
    · exact (seq_blames (pattern_blames hord limit) _).bind fun _ _ => .pure trivial

omit [Letters] hord in
theorem after?_blames {item : Reader α} (hitem : Blames whole item) (token : Token) :
    Blames whole (after? token item) :=
  (eats_blames _).bind fun _ _ => .ite (hitem.map some) (.pure trivial)

theorem cond_blames : Blames whole (cond limit) := by
  refine (eats_blames _).bind fun _ _ => .ite ?_ ?_
  · refine (pattern_blames hord limit).bind fun p _ => (expect_blames _).bind fun _ _ => ?_
    exact (expr_blames hord limit).bind fun _ _ => .pure trivial
  · exact (expr_blames hord limit).bind fun _ _ => .pure trivial

theorem param_blames : Blames whole (param limit) :=
  ident_blames.bind fun _ _ => (after?_blames (expr_blames hord limit) _).bind fun _ _ =>
    .pure trivial

theorem assign_blames (word : LetWord) : Blames whole (assign limit word) := by
  refine (eats_blames _).bind fun _ _ => (pattern_blames hord limit).bind fun p _ => ?_
  exact (after?_blames (expr_blames hord limit) _).bind fun _ _ => .pure trivial

theorem forLoop_blames : Blames whole (forLoop limit) := by
  refine (pattern_blames hord limit).bind fun p _ => (expect_blames _).bind fun _ _ => ?_
  refine (expr_blames hord limit).bind fun iterable _ => ?_
  exact (after?_blames (expr_blames hord limit) _).bind fun _ _ => .pure trivial

theorem importAs_blames : Blames whole importAs :=
  (textLit_blames hord).bind fun _ _ => (expect_blames _).bind fun _ _ =>
    ident_blames.bind fun _ _ => .pure trivial

theorem macroDef_blames : Blames whole (macroDef limit) :=
  ident_blames.bind fun _ _ => (expect_blames _).bind fun _ _ =>
    (seq_blames (param_blames hord limit) _).bind fun _ _ => .pure trivial

theorem callBlock_blames : Blames whole (callBlock limit) := by
  refine (after?_blames (seq_blames ident_blames _) _).bind fun bindings _ => ?_
  refine (expr_blames hord limit).bind fun call _ => .ite (.pure trivial) ?_
  exact peek_blames.bind fun found hfound => unexpected_blames hfound _

theorem filterBlock_blames : Blames whole (filterBlock limit) := by
  refine (filter_blames (expr_blames hord limit)).bind fun first _ => ?_
  exact (many_blames (filter?_blames (expr_blames hord limit))).bind fun _ _ => .pure trivial

theorem stmtKind?_blames {k : Keyword} {body : Reader StmtKind}
    (h : stmtKind? limit k = some body) : Blames whole body := by
  cases k with
  | blockKw => cases h; exact ident_blames.map _
  | endBlock | endMacro => cases h; exact ident?_blames.map _
  | extendsKw | includeKw => cases h; exact (textLit_blames hord).map _
  | importKw => cases h; exact importAs_blames hord
  | letKw | setKw => cases h; exact assign_blames hord limit _
  | forKw => cases h; exact forLoop_blames hord limit
  | ifKw | elif => cases h; exact (cond_blames hord limit).map _
  | elseKw =>
    cases h
    refine (after?_blames (cond_blames hord limit) _).bind fun found _ => ?_
    cases found <;> exact .pure trivial
  | matchKw => cases h; exact (expr_blames hord limit).map _
  | whenKw => cases h; exact (armPattern_blames hord limit).map _
  | macroKw => cases h; exact macroDef_blames hord limit
  | callKw => cases h; exact callBlock_blames hord limit
  | filterKw => cases h; exact filterBlock_blames hord limit
  | endFor | breakKw | continueKw | endIf | endMatch | endWhen | endCall | endFilter | rawKw
  | endRaw => cases h; exact .pure trivial
  | _ => cases h

theorem stmt_blames : Blames whole (stmt limit) := by
  refine next_blames.bind fun found hfound => ?_
  cases found with
  | none => exact unexpected_blames hfound _
  | some l =>
    dsimp only
    split
    · split
      · exact unexpected_blames hfound _
      · next body hbody =>
        refine (stmtKind?_blames hord limit hbody).bind fun kind _ => ?_
        exact last_blames.bind fun _ _ => .pure trivial
    · exact unexpected_blames hfound _

end

end Reader

end Stencil
