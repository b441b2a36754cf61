/-
  Expr — a machine reads expressions as they are read from a feed.

  Layer by layer, as `Stencil.Reader.Expr` builds them: each parser of expressions follows itself as soon as the
  parser of full expressions it is built over does.  A constant is decoded where its lexeme stands.  The member
  behind a dot is the one place where the lexemes must be known: the dot is still in front of the feed when the
  suffix is read, so a number behind it is a row of digits (`suffix_agrees`).

  The levels are counted twice.  The machine counts those it has entered, and a reader is told how many are left;
  the two add up to the limit.  The recursion of the machine is bounded by a budget of its own, which is only
  required to be no smaller than the levels left (`FollowsWithin`).
-/
import Stencil.Proofs.Checked.Follow
import Stencil.Proofs.Expr.Soundness
import Stencil.Reader.Expr

namespace Stencil

theorem Reader.Unary.isClosing_token (u : Unary) : u.token.isClosing = false := by
  rcases u with _ | _ | _ | _ <;> rfl

namespace Checked

open Reader (peek next isLiteral isSuffix)

variable [Letters] {d : Delims} {source : List Char} {t : Frame} {k limit : Nat} {m : Machine d source}
  {feed : Feed} {given : List Part} {value : Program d source Expr} {v : Reader Expr}

/-! ## Looking ahead -/

namespace Looks

/-- The second lexeme is looked at behind a name only. -/
theorem startsNamed : Looks t k (Reader.startsNamed : Program d source _) Reader.startsNamed := by
  refine fun m feed hlive => (peek_agrees hlive).bind fun found mid rest _ hseen => ?_
  obtain ⟨hmid, hcalls, rfl, rfl, -⟩ := hseen
  by_cases hname : rest.lexemes.head?.any fun l => l.token.isName
  · rw [if_pos hname, if_pos hname]
    refine (secondIs_agrees hmid .eq fun l hl => ?_).mono fun _ _ _ _ h => ⟨h.1, h.2.1.trans hcalls, h.2.2⟩
    refine eq_false_of_ne_true fun hclosing => ?_
    rw [hl, Option.any_some, Token.isName_of_isClosing hclosing] at hname
    cases hname
  · rw [if_neg hname, if_neg hname]
    exact .pure ⟨hmid, hcalls, rfl⟩

/-- A look at the next lexeme, from which the answer is found. -/
theorem of_peek {α : Type} {F : Option Lexeme → Program d source α} {G : Option Lexeme → Reader α}
    (h : ∀ found, ∃ a, F found = pure a ∧ G found = pure a) : Looks t k (peek >>= F) (peek >>= G) := by
  refine fun m feed hlive => (peek_agrees hlive).bind fun found mid rest _ hseen => ?_
  obtain ⟨a, hF, hG⟩ := h found
  rw [hF, hG]
  exact .pure ⟨hseen.live, hseen.calls, hseen.rest_eq⟩

theorem range? : Looks t k (Reader.range? : Program d source _) Reader.range? :=
  .of_peek fun found => by
    cases found with
    | none => exact ⟨_, rfl, rfl⟩
    | some l => dsimp only; cases l.token <;> exact ⟨_, rfl, rfl⟩

theorem operandFollows : Looks t k (Reader.operandFollows : Program d source _) Reader.operandFollows :=
  .of_peek fun _ => ⟨_, rfl, rfl⟩

theorem operatorFrom? (min : Nat) :
    Looks t k (Reader.operatorFrom? min : Program d source _) (Reader.operatorFrom? min) :=
  .of_peek fun _ => ⟨_, rfl, rfl⟩

/-- The second lexeme is looked at behind a minus sign only. -/
theorem unary? : Looks t k (Reader.unary? : Program d source _) Reader.unary? := by
  refine fun m feed hlive => (peek_agrees hlive).bind fun found mid rest _ hseen => ?_
  obtain ⟨hmid, hcalls, rfl, rfl, -⟩ := hseen
  cases hhead : rest.lexemes.head? with
  | none => exact .pure ⟨hmid, hcalls, rfl⟩
  | some l =>
    dsimp only
    cases ht : l.token with
    | minus =>
      have hinside : ∀ l ∈ rest.lexemes.head?, l.token.isClosing = false := fun l' hl' => by
        rw [hhead] at hl'
        cases hl'
        rw [ht]
        rfl
      refine (secondIs_agrees hmid .number hinside).bind fun b after left _ hsecond => ?_
      obtain ⟨hafter, hcalls', hleft⟩ := hsecond
      cases b <;> exact .pure ⟨hafter, hcalls'.trans hcalls, hleft⟩
    | _ => exact .pure ⟨hmid, hcalls, rfl⟩

end Looks

namespace Follows

/-! ## Arguments and filters -/

section

variable (hv : Follows t k [] value v fun x => [.expr x])

include hv

theorem arg : Follows t k given (Reader.arg value) (Reader.arg v) Arg.parts := by
  refine (of_looks .startsNamed).bind fun b => .ite (fun _ => ?_) fun _ => ?_
  · refine ident.bind fun name => (expect rfl).bind fun _ => hv.of_nil.bind fun x => give ?_
    simp [Arg.parts]
  · exact hv.of_nil.bind fun x => give (by simp [Arg.parts])

theorem args : Follows t k given (Reader.args value) (Reader.args v) fun xs => [.args xs] := by
  refine (expect rfl).bind fun opening => ((arg hv).seq rfl).bind fun s => node rfl rfl ?_
  exact fun p hp => .inl (List.mem_append_left _ hp)

theorem filter : Follows t k given (Reader.filter value) (Reader.filter v) fun x => [.filter x] := by
  refine ident.bind fun name => (nextIs _).bind fun b => .ite (fun _ => ?_) fun _ => ?_
  · exact (args hv).bind fun given => node rfl rfl (by simp [Part.children])
  · exact node rfl rfl (by simp [Part.children])

theorem filter? : FollowsItem t k given (Reader.filter? value) (Reader.filter? v) fun x => [.filter x] :=
  .guarded rfl (filter hv) .none

/-! ## Paths and macro calls -/

theorem macroCall (global : Bool) (segments : List Ident) (start : Span) {name : Lexeme} (hl : name.Sits d source)
    (ht : name.token = .macroName) :
    Follows t k given (Reader.macroCall value global segments start name)
      (Reader.macroCall v global segments start name) fun x => [.expr x] :=
  stem_bind hl ht fun _ => (args hv).bind fun _ => node rfl rfl (by simp [Part.children, Expr.parts, Part.isBare])

theorem macroSegment (global : Bool) (segments : List Ident) (start : Span) :
    Follows t k given (Reader.macroSegment value global segments start)
      (Reader.macroSegment v global segments start) fun x => [.expr x] := by
  refine next_bind ⟨rfl, rfl⟩ (fun l _ hclosing => ?_) fun l hl _ => ?_
  · have hne : l.token ≠ .macroName := fun h => by rw [h] at hclosing; cases hclosing
    dsimp only
    rw [if_neg hne, if_neg hne]
    exact .unexpected _ l
  · exact .ite (fun ht => macroCall hv global segments start hl ht) fun _ => .unexpected _ l

omit hv in
/-- Each further segment takes a double colon. -/
theorem segmentsFrom {fuel fuel' : Nat} (hlive : Live t k m feed) (hfuel : feed.lexemes.length < fuel)
    (hfuel' : feed.lexemes.length < fuel') :
    Agrees t m feed (Reader.segmentsFrom fuel : Program d source _) (Reader.segmentsFrom fuel')
      fun _ => After t k m feed [] := by
  induction fuel generalizing m feed fuel' with
  | zero => omega
  | succ fuel ih =>
    obtain ⟨fuel', rfl⟩ := Nat.exists_eq_succ_of_ne_zero (Nat.ne_zero_of_lt hfuel')
    refine (eats_agrees hlive rfl).bind fun b mid rest _ htook => ?_
    obtain ⟨hmid, hcalls, ⟨rfl, rfl⟩ | ⟨rfl, hlt⟩⟩ := htook
    · exact .pure ⟨hmid, fun _ hcall => hcalls ▸ hcall, .nil, Nat.le_refl _⟩
    · rw [if_pos rfl, if_pos rfl]
      refine (Looks.nextIs .macroName mid rest hmid).bind fun b after left _ hseen => ?_
      obtain ⟨hafter, hcalls', rfl⟩ := hseen
      cases b with
      | true =>
        rw [if_pos rfl, if_pos rfl]
        exact .pure ⟨hafter, fun _ hcall => hcalls' ▸ hcalls ▸ hcall, .nil, Nat.le_of_lt hlt⟩
      | false =>
        rw [if_neg Bool.false_ne_true, if_neg Bool.false_ne_true]
        refine (ident after left hafter .nil).bind fun name m₁ feed₁ _ hname => ?_
        have hshorter := hname.shorter
        refine (ih hname.live (by omega) (by omega)).bind fun names m₂ feed₂ _ hrest => .pure ?_
        have hsofar : m.calls ⊆ m₁.calls := fun _ hcall => hname.calls (hcalls' ▸ hcalls ▸ hcall)
        exact ⟨hrest.live, List.Subset.trans hsofar hrest.calls, .nil, by have := hrest.shorter; omega⟩

omit hv in
theorem segments :
    Follows t k given (Reader.segments : Program d source _) Reader.segments fun _ => [] :=
  fun _ _ hlive _ =>
    (segmentsFrom hlive (Nat.lt_succ_of_lt hlive.bounded) (Nat.lt_succ_self _)).congr rfl rfl

theorem pathExpr (global : Bool) (first : Ident) (start : Span) :
    Follows t k given (Reader.pathExpr value global first start) (Reader.pathExpr v global first start)
      fun x => [.expr x] := by
  refine segments.bind fun more => .ite (fun _ => ?_) fun _ => ?_
  · exact macroSegment hv global (first :: more.1) start
  · exact node rfl rfl (by simp [Part.children, Expr.parts, Part.isBare])

/-! ## Primaries -/

omit hv in
theorem negative (minus : Lexeme) :
    Follows t k given (Reader.negative minus : Program d source _) (Reader.negative minus)
      fun x => [.expr x] := by
  refine next_bind ⟨rfl, rfl⟩ (fun l hl hclosing => ?_) fun l hl _ => ?_
  · exact fun m feed hlost => (Fails.literalOf hl hclosing true m feed hlost).bind fun _ _ _ _ => False.elim
  · refine (literalOf hl true (.inr ⟨rfl, minus.span, rfl⟩)).bind fun c => give ?_
    exact fun p hp => .inl (List.mem_append_left _ (by rw [List.mem_singleton.1 hp]; exact List.mem_cons_self))

theorem parenthesized (opening : Lexeme) :
    Follows t k given (Reader.parenthesized value opening) (Reader.parenthesized v opening)
      fun x => [.expr x] := by
  refine (hv.of_nil.seq rfl).bind fun s => ?_
  obtain ⟨items, trailing, close⟩ := s
  rcases items with _ | ⟨x, _ | ⟨y, more⟩⟩
  · exact node rfl rfl (List.forall_mem_nil _)
  · cases trailing with
    | true => exact node rfl rfl fun _ hp => .inl (mem_items hp)
    | false => exact item_bind rfl (node rfl rfl fun _ hp => .inl (mem_items hp))
  · exact node rfl rfl fun _ hp => .inl (mem_items hp)

theorem bracketed (opening : Lexeme) :
    Follows t k given (Reader.bracketed value opening) (Reader.bracketed v opening) fun x => [.expr x] :=
  (hv.of_nil.seq rfl).bind fun _ => node rfl rfl fun _ hp => .inl (mem_items hp)

theorem globalPath (opening : Lexeme) :
    Follows t k given (Reader.globalPath value opening) (Reader.globalPath v opening) fun x => [.expr x] := by
  refine (nextIs _).bind fun b => .ite (fun _ => ?_) fun _ => ?_
  · exact macroSegment hv true [] opening.span
  · exact ident.bind fun first => pathExpr hv true first opening.span

theorem named {l : Lexeme} (hl : l.Sits d source) :
    Follows t k given (Reader.named value l) (Reader.named v l) fun x => [.expr x] := by
  refine (nameOf hl).bind fun first => (nextIs _).bind fun b => .ite (fun _ => ?_) fun _ => ?_
  · exact pathExpr hv false first l.span
  · exact node rfl rfl (List.forall_mem_nil _)

theorem primary : Follows t k given (Reader.primary value) (Reader.primary v) fun x => [.expr x] := by
  refine next_bind ⟨rfl, rfl⟩ (fun l _ hclosing => ?_) fun l hl _ => ?_
  · dsimp only
    rcases Token.eq_of_isClosing hclosing with ht | ht <;> rw [ht] <;> exact .unexpected _ l
  · dsimp only
    cases ht : l.token with
    | minus => exact negative l
    | pathSep => exact globalPath hv l
    | macroName => exact macroCall hv false [] l.span hl ht
    | lparen => exact parenthesized hv l
    | lbracket => exact bracketed hv l
    | _ =>
      refine .ite (fun _ => ?_) fun _ => .ite (fun _ => named hv hl) fun _ => .unexpected _ l
      refine (literalOf hl false (.inl rfl)).bind fun c => give ?_
      exact fun p hp => .inl (List.mem_append_left _ (by rw [List.mem_singleton.1 hp]; exact List.mem_cons_self))

/-! ## Suffixes -/

omit hv in
/-- Behind a dot a number is an index. -/
theorem key_agrees (hlive : Live t k m feed)
    (hdigits : ∀ l ∈ feed.lexemes.head?, l.token = .number → l.text.all (·.isDigit) = true) :
    Agrees t m feed (Reader.key : Program d source _) Reader.key fun x => After t k m feed [.key x] := by
  refine (next_agrees hlive).bind fun found mid rest _ htook => ?_
  cases htook with
  | none live calls stop => exact .unexpected live.lost fun _ => stop
  | @word l _ _ lexemes inside live calls =>
    have hl : l.Sits d source := hlive.sits l (by rw [lexemes]; exact List.mem_cons_self)
    have hshorter : rest.lexemes.length ≤ feed.lexemes.length := by rw [lexemes]; exact Nat.le_succ _
    refine Agrees.behind (fun _ hcall => calls ▸ hcall) hshorter ?_
    dsimp only
    cases ht : l.token with
    | ident | keyword =>
      refine Follows.bind (nameOf hl) (fun _ => ?_) mid rest live .nil
      exact node rfl rfl (by simp [Part.children])
    | number =>
      have htext := hdigits l (by rw [lexemes]; rfl) ht
      refine Follows.bind (indexOf hl ht htext) (fun _ => ?_) mid rest live .nil
      exact give_left rfl
    | _ => exact .unexpected live.lost nofun
  | @closing l _ _ lexemes closing closed lost calls =>
    dsimp only
    rcases Token.eq_of_isClosing closing with ht | ht <;> rw [ht] <;> exact .unexpected lost nofun

/-- The suffix that the next lexeme begins. -/
theorem suffix_agrees (x : Expr) {l : Lexeme} (hlive : Live t k m feed) (hgiven : AllDecoded m.calls [.expr x])
    (hhead : feed.lexemes.head? = some l) (hsuffix : isSuffix l.token = true) :
    Agrees t m feed (Reader.suffix value x l) (Reader.suffix v x l) fun y => After t k m feed [.expr y] := by
  have hinside : l.token.isClosing = false := eq_false_of_ne_true fun hclosing => by
    rcases Token.eq_of_isClosing hclosing with ht | ht <;> rw [ht] at hsuffix <;> cases hsuffix
  unfold Reader.suffix
  cases ht : l.token with
  | lparen =>
    refine Follows.bind (args hv) (fun _ => ?_) m feed hlive hgiven
    exact node rfl rfl (by simp [Part.children, Expr.parts])
  | dot =>
    refine (next_agrees_of_head hlive hhead hinside).bind fun found mid rest _ htaken => ?_
    obtain ⟨-, hmid, hcalls, hls⟩ := htaken
    have hchain := hlive.indexes
    rw [hls] at hchain
    have hdigits : ∀ l' ∈ rest.lexemes.head?, l'.token = .number → l'.text.all (·.isDigit) = true :=
      fun l' hl' => (List.isChain_cons.1 hchain).1 l' hl' ht
    refine (key_agrees hmid hdigits).bind fun name after left _ hkey => ?_
    have hsofar : m.calls ⊆ after.calls := fun _ hcall => hkey.calls (hcalls ▸ hcall)
    have hshorter : left.lexemes.length ≤ feed.lexemes.length := by
      rw [hls]
      exact Nat.le_succ_of_le hkey.shorter
    have hparts : AllDecoded after.calls [.expr x, .key name] :=
      AllDecoded.append_iff.2 ⟨hgiven.mono hsofar, hkey.decoded⟩
    have hfield : Decoded after.calls (.expr (.field x name (x.span.join name.span))) := AllDecoded.wrap hparts rfl
    exact .pure ⟨hkey.live, hsofar, AllDecoded.cons_iff.2 ⟨hfield, .nil⟩, hshorter⟩
  | lbracket =>
    refine next_of_head ?_ hlive hgiven hhead hinside
    exact hv.of_nil.bind fun i => (expect rfl).bind fun close => node rfl rfl (by simp [Part.children, Expr.parts])
  | _ =>
    refine next_of_head ?_ hlive hgiven hhead hinside
    exact node rfl rfl (by simp [Part.children, Expr.parts])

/-! ## Ranges -/

/-- A range from its operator on, which is the next lexeme. -/
theorem rangeFrom_agrees (start : Option Expr) (inclusive : Bool) {l : Lexeme} (hlive : Live t k m feed)
    (hgiven : AllDecoded m.calls (start.toList.map .expr)) (hhead : feed.lexemes.head? = some l)
    (hinside : l.token.isClosing = false) :
    Agrees t m feed (Reader.rangeFrom value start inclusive) (Reader.rangeFrom v start inclusive)
      fun x => After t k m feed [.expr x] := by
  refine next_of_head ?_ hlive hgiven hhead hinside
  refine last.bind fun op => .ite
    (fun _ => Follows.bind (f := fun _ => []) (give (List.forall_mem_nil _)) fun bounded => ?_)
    fun _ => (of_looks .operandFollows).bind fun bounded => ?_
  all_goals
    dsimp only
    refine .ite (fun _ => hv.of_nil.bind fun stop => ?_) fun _ => ?_
    · exact node rfl rfl fun p hp => .inl (List.mem_append.2 (List.mem_append.1 hp).symm)
    · exact node rfl rfl fun p hp => .inl ((List.mem_append.1 hp).elim id nofun)

theorem ranged : Follows t k given (Reader.ranged value) (Reader.ranged v) fun x => [.expr x] := by
  refine looks_bind .range? fun found m feed hrange hlive hgiven => ?_
  cases found with
  | some inclusive =>
    obtain ⟨l, hhead, htoken⟩ := (Reader.range?_eq_ok hrange).2 inclusive rfl
    refine rangeFrom_agrees hv none inclusive hlive .nil hhead ?_
    cases inclusive <;> rw [htoken] <;> rfl
  | none =>
    refine (hv.of_nil.bind fun x => looks_bind .range? fun found m feed hrange hlive hgiven => ?_) m feed hlive hgiven
    cases found with
    | some inclusive =>
      obtain ⟨l, hhead, htoken⟩ := (Reader.range?_eq_ok hrange).2 inclusive rfl
      refine rangeFrom_agrees hv (some x) inclusive hlive ?_ hhead ?_
      · exact hgiven.sublist (by simp)
      · cases inclusive <;> rw [htoken] <;> rfl
    | none => exact .pure ⟨hlive, fun _ hcall => hcall, hgiven.sublist (by simp), Nat.le_refl _⟩

end

end Follows

/-! ## Levels -/

/-- From the depth `base` on, the machine reads a full expression with any budget up to `most` that is not less than
    the levels left up to the limit as a reader does that is told how many are left. -/
def FollowsWithin (t : Frame) (limit base most : Nat) (e : Nat → Program d source Expr) (e' : Nat → Reader Expr) :
    Prop :=
  ∀ k budget, base ≤ k → budget ≤ most → limit - k ≤ budget →
    Follows t k [] (e budget) (e' (limit - k)) fun x => [.expr x]

namespace Follows

variable {base most budget : Nat} {e : Nat → Program d source Expr} {e' : Nat → Reader Expr}
  (he : FollowsWithin t limit base most e e')

include he

theorem suffixes (hbase : base ≤ k) (hmost : budget ≤ most) (hbudget : limit - k ≤ budget) (x : Expr) :
    Follows t k [.expr x] (Reader.suffixes limit e budget x) (Reader.suffixes limit e' (limit - k) x)
      fun y => [.expr y] := by
  induction budget generalizing k x with
  | zero =>
    rw [Nat.le_zero.1 hbudget]
    unfold Reader.suffixes
    refine peek_bind fun m feed hlive hgiven _ => ?_
    cases hhead : feed.lexemes.head? with
    | none => exact give (fun _ hp => .inl hp) m feed hlive hgiven
    | some l =>
      exact Follows.ite (fun _ => .beyond (by omega)) (fun _ => give (fun _ hp => .inl hp)) m feed hlive hgiven
  | succ budget ih =>
    unfold Reader.suffixes
    refine peek_bind fun m feed hlive hgiven _ => ?_
    cases hhead : feed.lexemes.head? with
    | none => exact give (fun _ hp => .inl hp) m feed hlive hgiven
    | some l =>
      dsimp only
      by_cases hsuffix : isSuffix l.token = true
      · rw [if_pos hsuffix, if_pos hsuffix]
        by_cases hk : k < limit
        · rw [show limit - k = limit - (k + 1) + 1 by omega]
          have hvalue := he (k + 1) budget (by omega) (by omega) (by omega)
          refine within_agrees hk hlive ?_
          refine (suffix_agrees hvalue x (hlive.sunk (k + 1)) hgiven hhead hsuffix).bind fun y mid rest _ hy => ?_
          exact (ih (by omega) (by omega) (by omega) y mid rest hy.live hy.decoded).behind hy.calls hy.shorter
        · rw [show limit - k = 0 by omega]
          exact within_beyond (Nat.not_lt.1 hk) m feed hlive hgiven
      · rw [if_neg hsuffix, if_neg hsuffix]
        exact give (fun _ hp => .inl hp) m feed hlive hgiven

theorem tested (hbase : base ≤ k) (hmost : budget ≤ most) (hbudget : limit - k ≤ budget) :
    Follows t k given (Reader.tested limit e budget) (Reader.tested limit e' (limit - k)) fun x => [.expr x] := by
  refine (primary (he k budget hbase hmost hbudget)).bind fun x => ?_
  refine ((suffixes he hbase hmost hbudget x).weaken (by simp)).bind fun y => (eats rfl).bind fun b =>
    .ite (fun _ => ?_) fun _ => give (by simp)
  exact (eats rfl).bind fun negated => (expect rfl).bind fun _ => node rfl rfl (by simp [Part.children, Expr.parts])

/-! ## Operators -/

omit he in
/-- A unary operator that has been seen is taken. -/
theorem unary?_bind {α : Type} {F : Option (Reader.Unary × Span) → Program d source α}
    {G : Option (Reader.Unary × Span) → Reader α} {H : Reader.Unary × Span → Option Lexeme → Program d source α}
    {K : Reader.Unary × Span → Option Lexeme → Reader α} {f : α → List Part}
    (hnone : Follows t k given (F none) (G none) f)
    (hsome : ∀ u, F (some u) = next >>= H u ∧ G (some u) = next >>= K u)
    (hnext : ∀ u l, Follows t k given (H u (some l)) (K u (some l)) f) :
    Follows t k given (Reader.unary? >>= F) (Reader.unary? >>= G) f := by
  refine looks_bind .unary? fun found m feed hunary hlive hgiven => ?_
  cases found with
  | none => exact hnone m feed hlive hgiven
  | some u =>
    obtain ⟨l, hhead, htoken, -, -⟩ := (Reader.unary?_eq_some hunary).2
    rw [(hsome u).1, (hsome u).2]
    exact next_of_head (hnext u l) hlive hgiven hhead (by rw [htoken]; exact u.1.isClosing_token)

theorem unary (hbase : base ≤ k) (hmost : budget ≤ most) (hbudget : limit - k ≤ budget) :
    Follows t k given (Reader.unary limit e budget) (Reader.unary limit e' (limit - k)) fun x => [.expr x] := by
  induction budget generalizing k given with
  | zero =>
    have htested : Follows t k given _ _ _ := tested he hbase hmost hbudget
    rw [Nat.le_zero.1 hbudget] at htested ⊢
    unfold Reader.unary
    exact unary?_bind htested (fun _ => ⟨rfl, rfl⟩) fun _ _ => .beyond (by omega)
  | succ budget ih =>
    have htested : Follows t k given _ _ _ := tested he hbase hmost hbudget
    by_cases hk : k < limit
    · rw [show limit - k = limit - (k + 1) + 1 by omega] at htested ⊢
      unfold Reader.unary
      refine unary?_bind htested (fun _ => ⟨rfl, rfl⟩) fun u _ => ?_
      refine (within hk (ih (by omega) (by omega) (by omega))).bind fun operand => ?_
      rcases u with ⟨_ | op, span⟩ <;> exact node rfl rfl fun p hp => .inl (List.mem_append_left _ hp)
    · rw [show limit - k = 0 by omega] at htested ⊢
      unfold Reader.unary
      exact unary?_bind htested (fun _ => ⟨rfl, rfl⟩) fun _ _ => .within_bind_beyond (by omega)

omit he in
/-- The value before the operators stands for itself when there is none. -/
theorem operatorFrom?_bind {F : Option Reader.Operator → Program d source Expr} {G : Option Reader.Operator → Reader Expr}
    {min : Nat} {left : Expr} (hnone : F none = Pure.pure left ∧ G none = Pure.pure left)
    (hsome : ∀ op l m feed, Live t k m feed → AllDecoded m.calls [.expr left] → feed.lexemes.head? = some l →
      l.token.isClosing = false → Agrees t m feed (F (some op)) (G (some op)) fun x => After t k m feed [.expr x]) :
    Follows t k [.expr left] (Reader.operatorFrom? min >>= F) (Reader.operatorFrom? min >>= G) fun x => [.expr x] := by
  refine looks_bind (.operatorFrom? min) fun found m feed hfound hlive hgiven => ?_
  cases found with
  | none =>
    rw [hnone.1, hnone.2]
    exact give (fun _ hp => .inl hp) m feed hlive hgiven
  | some op =>
    obtain ⟨l, hhead, hoperator, -⟩ := (Reader.operatorFrom?_eq_some hfound).2
    refine hsome op l m feed hlive hgiven hhead (eq_false_of_ne_true fun hclosing => ?_)
    rcases Token.eq_of_isClosing hclosing with ht | ht <;> rw [ht] at hoperator <;> cases hoperator

/-- The levels of the operators are left together, behind the last of them. -/
theorem operators (hbase : base ≤ k) (hmost : budget ≤ most) (hbudget : limit - k ≤ budget) (min : Nat)
    (left : Expr) :
    Follows t k [.expr left] (Reader.operators limit e budget min left)
      (Reader.operators limit e' (limit - k) min left) fun x => [.expr x] := by
  induction budget generalizing k min left with
  | zero =>
    rw [Nat.le_zero.1 hbudget]
    unfold Reader.operators
    exact operatorFrom?_bind ⟨rfl, rfl⟩ fun _ _ m feed hlive hgiven _ _ => beyond (by omega) m feed hlive hgiven
  | succ budget ih =>
    by_cases hk : k < limit
    · rw [show limit - k = limit - (k + 1) + 1 by omega]
      unfold Reader.operators
      refine operatorFrom?_bind ⟨rfl, rfl⟩ fun op l m feed hlive hgiven hhead hinside => within_agrees hk hlive ?_
      have hvalue := he (k + 1) budget (by omega) (by omega) (by omega)
      refine next_of_head ?_ (hlive.sunk (k + 1)) hgiven hhead hinside
      cases op with
      | filter =>
        refine (filter hvalue).bind fun first => (filter? hvalue).many.bind fun rest => ?_
        refine (ih (by omega) (by omega) (by omega) min _).with_node rfl fun p hp => .inl ?_
        rcases List.mem_cons.1 hp with rfl | hp
        · exact List.mem_append_right _ (List.mem_append_right _ (List.mem_singleton_self _))
        · rcases List.mem_cons.1 hp with rfl | hp
          · exact List.mem_append_right _ List.mem_cons_self
          · exact mem_items hp
      | binary op =>
        refine (unary he (by omega) (by omega) (by omega)).bind fun operand => ?_
        refine ((ih (by omega) (by omega) (by omega) (op.level + 1) operand).weaken (by simp)).bind fun right => ?_
        exact (ih (by omega) (by omega) (by omega) min _).with_node rfl (by simp [Part.children, Expr.parts])
    · rw [show limit - k = 0 by omega]
      unfold Reader.operators
      exact operatorFrom?_bind ⟨rfl, rfl⟩ fun _ _ m feed hlive hgiven _ _ =>
        within_beyond (by omega) m feed hlive hgiven

theorem operation (hbase : base ≤ k) (hmost : budget ≤ most) (hbudget : limit - k ≤ budget) :
    Follows t k given (Reader.operation limit e budget) (Reader.operation limit e' (limit - k))
      fun x => [.expr x] :=
  (unary he hbase hmost hbudget).bind fun first =>
    (operators he hbase hmost hbudget 0 first).weaken (List.subset_append_left _ _)

/-! ## Full expressions -/

omit he in
/-- From every depth, and with any budget that is not less than the levels left. -/
theorem exprWithin (hbudget : limit - k ≤ budget) :
    Follows t k given (Reader.exprWithin limit budget : Program d source Expr)
      (Reader.exprWithin limit (limit - k)) fun x => [.expr x] := by
  induction budget using Nat.strongRecOn generalizing k given with
  | ind budget ih =>
    cases budget with
    | zero =>
      rw [Nat.le_zero.1 hbudget, Reader.exprWithin_zero, Reader.exprWithin_zero]
      exact .beyond (by omega)
    | succ budget =>
      rw [Reader.exprWithin_succ]
      by_cases hk : k < limit
      · have hvalue : FollowsWithin t limit (k + 1) budget
            (fun n => if n ≤ budget then (Reader.exprWithin limit n : Program d source Expr)
              else Reader.beyond limit)
            fun n => if n ≤ limit - (k + 1) then Reader.exprWithin limit n else Reader.beyond limit := by
          intro n left hn hleft hlevels
          dsimp only
          rw [if_pos hleft, if_pos (by omega)]
          exact ih left (by omega) hlevels
        rw [show limit - k = limit - (k + 1) + 1 by omega, Reader.exprWithin_succ]
        exact within hk (ranged (operation hvalue (Nat.le_refl _) (Nat.le_refl _) (by omega)))
      · rw [show limit - k = 0 by omega, Reader.exprWithin_zero]
        exact .within_beyond (by omega)

omit he in
theorem expr : Follows t 0 given (Reader.expr limit : Program d source Expr) (Reader.expr limit) fun x => [.expr x] :=
  exprWithin (Nat.le_refl _)

end Follows

end Checked

end Stencil
