/-
  Front — what an expression begins with.

  The readers decide by the next one or two lexemes: whether a minus sign belongs to a number,
  whether an argument has a name, whether an end of a range follows.  The first lexemes of an
  expression belong to the operand on its far left.  So what can stand there is proved by induction
  along left operands (`Normal.left_induction`): either the construct begins with a lexeme of its own,
  or with its left operand and a lexeme that joins the rest to it.
-/
import Stencil.Proofs.Reader.Bare

namespace Stencil

namespace Expr

/-! ## Ranks -/

theorem rank_binary_le (op : BinOp) : op.level + 1 ≤ 10 := by
  have hlevel := op.level_lt_filterLevel
  unfold filterLevel at hlevel
  omega

theorem rank_le (e : Expr) : e.rank ≤ 14 := by
  cases e with
  | binary op a b s => exact Nat.le_trans (rank_binary_le op) (by decide)
  | range a b i s => exact Nat.zero_le 14
  | filter a fs s => exact (show 11 ≤ 14 by decide)
  | unary op a s => exact (show 12 ≤ 14 by decide)
  | ref a s => exact (show 12 ≤ 14 by decide)
  | isDefined a n s => exact (show 13 ≤ 14 by decide)
  | _ => exact Nat.le_refl 14

/-- Only tests bind tighter than unary operators and looser than suffixes. -/
theorem exists_isDefined {e : Expr} (h : e.rank = 13) : ∃ a n s, e = .isDefined a n s := by
  cases e with
  | isDefined a n s => exact ⟨a, n, s, rfl⟩
  | binary op a b s =>
    have hle := rank_binary_le op
    have heq : op.level + 1 = 13 := h
    omega
  | _ => cases h

/-- Only unary operators and references bind looser than tests and tighter than filters. -/
theorem exists_unary {e : Expr} (h : e.rank = 12) :
    (∃ op a s, e = .unary op a s) ∨ ∃ a s, e = .ref a s := by
  cases e with
  | unary op a s => exact .inl ⟨op, a, s, rfl⟩
  | ref a s => exact .inr ⟨a, s, rfl⟩
  | binary op a b s =>
    have hle := rank_binary_le op
    have heq : op.level + 1 = 12 := h
    omega
  | _ => cases h

/-- Only filters bind looser than unary operators and tighter than binary ones. -/
theorem exists_filter {e : Expr} (h : e.rank = 11) : ∃ a fs s, e = .filter a fs s := by
  cases e with
  | filter a fs s => exact ⟨a, fs, s, rfl⟩
  | binary op a b s =>
    have hle := rank_binary_le op
    have heq : op.level + 1 = 11 := h
    omega
  | _ => cases h

/-- Only binary operators bind looser than filters and tighter than ranges. -/
theorem exists_binary {e : Expr} (hpos : 0 < e.rank) (hle : e.rank ≤ 10) :
    ∃ op a b s, e = .binary op a b s := by
  cases e with
  | binary op a b s => exact ⟨op, a, b, s, rfl⟩
  | range a b i s => exact absurd hpos (Nat.lt_irrefl 0)
  | filter a fs s => exact absurd hle (show ¬ 11 ≤ 10 by decide)
  | unary op a s => exact absurd hle (show ¬ 12 ≤ 10 by decide)
  | ref a s => exact absurd hle (show ¬ 12 ≤ 10 by decide)
  | isDefined a n s => exact absurd hle (show ¬ 13 ≤ 10 by decide)
  | _ => exact absurd hle (show ¬ 14 ≤ 10 by decide)

theorem exists_range {e : Expr} (h : e.rank = 0) :
    ∃ start finish inclusive s, e = .range start finish inclusive s := by
  cases e with
  | range a b i s => exact ⟨a, b, i, s, rfl⟩
  | _ => cases h

/-- A left operand binds at least as tightly as the construct, and what a test or a suffix stands
    after is a primary or has a suffix itself. -/
theorem rank_left [Letters] {e x : Expr} (hn : e.Normal) (h : e.left? = some x) :
    e.rank ≤ x.rank ∧ (13 ≤ e.rank → x.rank = 14) := by
  have hsuffix : ∀ {n : Nat}, n ≤ 14 → x.rank = 14 → n ≤ x.rank ∧ (13 ≤ n → x.rank = 14) :=
    fun hn hx => ⟨by rw [hx]; exact hn, fun _ => hx⟩
  have hnode := hn.node
  cases e with
  | range a b i s => exact ⟨Nat.zero_le _, fun hrank => absurd hrank (show ¬ 13 ≤ 0 by decide)⟩
  | binary op a b s =>
    cases h
    have hlevel := rank_binary_le op
    refine ⟨hnode.1, fun hrank => ?_⟩
    have hlarge : 13 ≤ op.level + 1 := hrank
    omega
  | attempt a s => cases h; exact hsuffix (Nat.le_refl 14) hnode
  | call f xs s => cases h; exact hsuffix (Nat.le_refl 14) hnode.1
  | field a k s => cases h; exact hsuffix (Nat.le_refl 14) hnode.1
  | index a i s => cases h; exact hsuffix (Nat.le_refl 14) hnode
  | filter a fs s =>
    cases h
    exact ⟨Nat.le_of_succ_le hnode.1, fun hrank => absurd hrank (show ¬ 13 ≤ 11 by decide)⟩
  | isDefined a n s => cases h; exact hsuffix (show 13 ≤ 14 by decide) hnode
  | _ => cases h

end Expr

/-! ## First tokens -/

theorem startsOperand_of_isName {t : Token} (h : t.isName = true) :
    Reader.startsOperand t = true ∨ t = .keyword .ifKw := by
  cases t with
  | ident => exact .inl rfl
  | keyword k =>
    revert h
    cases k <;> decide
  | _ => cases h

/-- An operand begins with a token that operands begin with, the word `if` included. -/
theorem Expr.Normal.startsOperand [Letters] {e : Expr} (hn : e.Normal) (h : 0 < e.rank) :
    Reader.startsOperand e.firstToken = true ∨ e.firstToken = .keyword .ifKw := by
  induction hn using Expr.Normal.left_induction with
  | own e hn hown =>
    have hnode := hn.node
    cases e with
    | lit v s =>
      left
      cases v with
      | num n =>
        show Reader.startsOperand (if n.negative then .minus else .number) = true
        split <;> rfl
      | bool b => cases b <;> rfl
      | _ => rfl
    | var n s => exact startsOperand_of_isName (isName_wordToken hnode)
    | path p s =>
      obtain ⟨global, segments, span⟩ := p
      obtain ⟨hnames, hlength⟩ := hnode
      cases global with
      | true => exact .inl rfl
      | false =>
        match segments with
        | [] => exact absurd hlength (show ¬ 2 ≤ 0 by decide)
        | [i] => exact absurd hlength (show ¬ 2 ≤ 1 by decide)
        | i :: j :: more => exact startsOperand_of_isName (isName_wordToken (hnames i (by simp)))
    | unary op a s => cases op <;> exact .inl rfl
    | range a b i s => exact absurd h (Nat.lt_irrefl 0)
    | macroCall p xs s =>
      obtain ⟨global, segments, span⟩ := p
      obtain ⟨⟨before, last, hsegments, hnames, -⟩, -⟩ := hnode
      obtain rfl : segments = before ++ [last] := hsegments
      cases global with
      | true => exact .inl rfl
      | false =>
        cases before with
        | nil => exact .inl rfl
        | cons i before =>
          refine startsOperand_of_isName ?_
          have htoken : (Path.mk false (i :: before ++ [last]) span).firstToken .macroName
              = wordToken i.name := by
            cases before <;> rfl
          show Token.isName (Path.firstToken _ _) = true
          rw [htoken]
          exact isName_wordToken (hnames i List.mem_cons_self)
    | ref a s => exact .inl rfl
    | array es s => exact .inl rfl
    | tuple es s => exact .inl rfl
    | unit s => exact .inl rfl
    | group a s => exact .inl rfl
    | _ => cases hown
  | left e x hn hleft ih =>
    rw [Expr.firstToken_left hleft]
    exact ih (Nat.lt_of_lt_of_le h (Expr.rank_left hn hleft).1)

/-- A full expression begins with a range operator or as an operand does. -/
theorem Expr.Normal.starts [Letters] {e : Expr} (hn : e.Normal) :
    Reader.startsOperand e.firstToken = true ∨ e.firstToken = .keyword .ifKw ∨
      ∃ inclusive, e.firstToken = rangeToken inclusive := by
  have hoperand : 0 < e.rank → Reader.startsOperand e.firstToken = true ∨
      e.firstToken = .keyword .ifKw ∨ ∃ inclusive, e.firstToken = rangeToken inclusive :=
    fun h => (hn.startsOperand h).imp_right .inl
  cases e with
  | range a b i s =>
    cases a with
    | none => exact .inr (.inr ⟨i, rfl⟩)
    | some a =>
      have hchild : a.Normal := hn.child List.mem_cons_self
      exact (hchild.startsOperand (hn.node.1 a rfl)).imp_right .inl
  | binary op a b s => exact hoperand (Nat.succ_pos _)
  | filter a fs s => exact hoperand (Nat.succ_pos _)
  | _ => exact hoperand (Nat.succ_pos _)

/-! ## First lexemes -/

namespace Expr

/-- What an expression without a left operand begins with: a word, alone or before a separator; the minus
    sign of a number; or a token that is no name, and no unary operator either where the expression binds
    as tightly as a test. -/
inductive Front (e : Expr) : List Lexeme → Prop
  | word {l : Lexeme} {w : String} (hl : l.IsWord w) : Front e [l]
  | path {l s : Lexeme} {w : String} {rest : List Lexeme} (hl : l.IsWord w) (hs : s.Is .pathSep) :
      Front e (l :: s :: rest)
  | number {m l : Lexeme} (hm : m.Is .minus) (hl : l.token = .number) : Front e [m, l]
  | sign {l : Lexeme} {rest : List Lexeme} (hl : l.token.isName = false)
      (hunary : 13 ≤ e.rank →
        l.token ≠ .bang ∧ l.token ≠ .star ∧ l.token ≠ .amp ∧ l.token ≠ .minus) :
      Front e (l :: rest)

variable {q : Quoting} {P : Span → List Lexeme → Prop} {e : Expr} {l : Lexeme} {ls : List Lexeme}

theorem Front.of_token {t : Token} (h : l.token = t) (hname : t.isName = false)
    (hunary : t ≠ .bang ∧ t ≠ .star ∧ t ≠ .amp ∧ t ≠ .minus) : Front e (l :: ls) := by
  subst h
  exact .sign hname fun _ => hunary

theorem Front.of_loose (hrank : ¬ 13 ≤ e.rank) (hl : l.token.isName = false) : Front e (l :: ls) :=
  .sign hl fun h => absurd h hrank

/-- A constant is one lexeme that is no name, or a negative number behind its sign. -/
theorem front_of_literal {v : Literal} (h : v.Spelled q ls) : Front e ls := by
  cases h with
  | str ht hv => exact .of_token ht rfl (by decide)
  | char ht hv => exact .of_token ht rfl (by decide)
  | num hneg ht hr => exact .of_token ht rfl (by decide)
  | negative hneg hm ht hr => exact .number hm ht
  | @bool b l hb => exact .of_token hb.1 (by cases b <;> rfl) (by cases b <;> decide)

/-- Without a left operand, what an expression begins with is a lexeme of its own. -/
theorem Spelled.front [Letters] (h : e.Spelled q P ls) (hn : e.Normal) (hown : e.left? = none) : Front e ls := by
  cases h with
  | lit hv hs => exact front_of_literal hv
  | var hl hs => exact .word hl
  | @path p s ls hp hs =>
    obtain ⟨global, segments, span⟩ := p
    obtain ⟨-, hlength⟩ := hn.node
    cases hp with
    | absolute hp =>
      cases hp with
      | nil => exact absurd hlength (show ¬ 1 ≤ 0 by decide)
      | cons hsep hi hp => exact .of_token hsep.1 rfl (by decide)
    | relative hi hp =>
      cases hp with
      | nil => exact absurd hlength (show ¬ 2 ≤ 1 by decide)
      | cons hsep hi' hp => exact .path hi.1 hsep
  | @unary op x s a o ho hx hs =>
    exact .of_loose (show ¬ 13 ≤ 12 by decide) (by rw [ho.1]; cases op <;> rfl)
  | ref ho hx hs => exact .of_loose (show ¬ 13 ≤ 12 by decide) (by rw [ho.1]; rfl)
  | @rangeFull inclusive s o ho hs =>
    exact .of_loose (show ¬ 13 ≤ 0 by decide) (by rw [ho.1]; cases inclusive <;> rfl)
  | @rangeTo y inclusive s b o ho hy hs =>
    exact .of_loose (show ¬ 13 ≤ 0 by decide) (by rw [ho.1]; cases inclusive <;> rfl)
  | array ho h hc hs => exact .of_token ho.1 rfl (by decide)
  | tuple ho h hc hone hs => exact .of_token ho.1 rfl (by decide)
  | unit ho hc hs => exact .of_token ho.1 rfl (by decide)
  | group ho hx hc hs => exact .of_token ho.1 rfl (by decide)
  | @macroCall p xs s a b hp hxs hs =>
    obtain ⟨global, segments, span⟩ := p
    dsimp only at hp
    cases hp with
    | alone hm => exact .of_token hm.1 rfl (by decide)
    | qualified hp hsep hm =>
      cases hp with
      | absolute hp =>
        cases hp with
        | nil => exact .of_token hsep.1 rfl (by decide)
        | cons hsep' hi hp => exact .of_token hsep'.1 rfl (by decide)
      | relative hi hp =>
        cases hp with
        | nil => exact .path hi.1 hsep
        | cons hsep' hi' hp => exact .path hi.1 hsep'
  | _ => cases hown

end Expr

namespace Reader

variable {q : Quoting} {P : Span → List Lexeme → Prop} {stop : Lexer.Stop} {e : Expr}
  {ls : List Lexeme}

/-! ## Looking ahead -/

theorem startsNamed_of_not {l m : Lexeme} {rest : List Lexeme}
    (h : l.token.isName = true → m.token ≠ .eq) :
    startsNamed (bareFeed stop (l :: m :: rest)) = .ok (false, bareFeed stop (l :: m :: rest)) := by
  unfold startsNamed
  rw [bind_of_ok peek_bare]
  cases hname : l.token.isName with
  | false =>
    rw [if_neg (by rw [Option.any_some, token_bare, hname]; exact Bool.false_ne_true)]
    rfl
  | true =>
    rw [if_pos (by rw [Option.any_some, token_bare, hname]), secondIs_bare,
      beq_eq_false_iff_ne.2 (h hname)]

/-- An expression is not mistaken for the name of an argument. -/
theorem startsNamed_bare [Letters] (hn : e.Normal) (h : e.Spelled q P ls) {c : Lexeme} {more : List Lexeme}
    (hc : c.token ≠ .eq) :
    startsNamed (bareFeed stop (ls ++ c :: more)) =
      .ok (false, bareFeed stop (ls ++ c :: more)) := by
  suffices hsuff : ∃ l m rest, ls ++ c :: more = l :: m :: rest ∧
      (l.token.isName = true → m.token ≠ .eq) by
    obtain ⟨l, m, rest, heq, hnot⟩ := hsuff
    rw [heq]
    exact startsNamed_of_not hnot
  induction hn using Expr.Normal.left_induction generalizing ls c more with
  | own e hn hown =>
    cases h.front hn hown with
    | word hl => exact ⟨_, _, _, rfl, fun _ => hc⟩
    | path hl hs => exact ⟨_, _, _, rfl, fun _ => by rw [hs.1]; decide⟩
    | number hm hl => exact ⟨_, _, _, rfl, fun hname => by rw [hm.1] at hname; cases hname⟩
    | @sign l rest hl hunary =>
      -- Where the first lexeme is no name, it does not matter what the second one is.
      have hnot : ∀ m : Lexeme, l.token.isName = true → m.token ≠ .eq :=
        fun m hname => by rw [hl] at hname; cases hname
      cases rest with
      | nil => exact ⟨l, c, more, rfl, hnot c⟩
      | cons m rest => exact ⟨l, m, _, rfl, hnot m⟩
  | left e x hn hleft ih =>
    obtain ⟨a, o, b, rfl, hx, ho⟩ := h.left hn hleft
    obtain ⟨l, m, rest, heq, hnot⟩ : ∃ l m rest, a ++ o :: (b ++ c :: more) = l :: m :: rest ∧
        (l.token.isName = true → m.token ≠ .eq) := ih hx ho
    exact ⟨l, m, rest, by rw [← heq]; simp, hnot⟩

theorem unary?_of_ne {l : Lexeme} {rest : List Lexeme} (hbang : l.token ≠ .bang)
    (hstar : l.token ≠ .star) (hamp : l.token ≠ .amp) (hminus : l.token ≠ .minus) :
    unary? (bareFeed stop (l :: rest)) = .ok (none, bareFeed stop (l :: rest)) := by
  unfold unary?
  rw [bind_of_ok peek_bare]
  dsimp only
  rw [token_bare]
  cases ht : l.token with
  | bang => exact absurd ht hbang
  | star => exact absurd ht hstar
  | amp => exact absurd ht hamp
  | minus => exact absurd ht hminus
  | _ => rfl

theorem unary?_word {l : Lexeme} {w : String} {rest : List Lexeme} (hl : l.IsWord w) :
    unary? (bareFeed stop (l :: rest)) = .ok (none, bareFeed stop (l :: rest)) := by
  have hother : ∀ t : Token, (t = .bang ∨ t = .star ∨ t = .amp ∨ t = .minus) → l.token ≠ t := by
    rw [hl.1]
    unfold wordToken
    rintro t (rfl | rfl | rfl | rfl) <;> split <;> exact Token.noConfusion
  exact unary?_of_ne (hother _ (by simp)) (hother _ (by simp)) (hother _ (by simp)) (hother _ (by simp))

/-- Where a primary begins there is no unary operator; a minus sign there belongs to a number. -/
theorem unary?_bare [Letters] (hn : e.Normal) (hrank : 13 ≤ e.rank) (h : e.Spelled q P ls)
    (rest : List Lexeme) :
    unary? (bareFeed stop (ls ++ rest)) = .ok (none, bareFeed stop (ls ++ rest)) := by
  induction hn using Expr.Normal.left_induction generalizing ls rest with
  | own e hn hown =>
    cases h.front hn hown with
    | word hl => exact unary?_word hl
    | path hl hs => exact unary?_word hl
    | @number m l hm hl =>
      have hsecond : secondIs .number (bareFeed stop (m :: l :: rest)) =
          .ok (true, bareFeed stop (m :: l :: rest)) := by
        rw [secondIs_bare, hl, beq_self_eq_true]
      show unary? (bareFeed stop (m :: l :: rest)) = _
      unfold unary?
      rw [bind_of_ok peek_bare]
      dsimp only
      rw [token_bare, hm.1]
      dsimp only
      rw [bind_of_ok hsecond]
      rfl
    | sign hl hunary =>
      obtain ⟨hbang, hstar, hamp, hminus⟩ := hunary hrank
      exact unary?_of_ne hbang hstar hamp hminus
  | left e x hn hleft ih =>
    obtain ⟨a, o, b, rfl, hx, -⟩ := h.left hn hleft
    have hrank' : 13 ≤ x.rank := by rw [(Expr.rank_left hn hleft).2 hrank]; decide
    have := ih hrank' hx (o :: b ++ rest)
    rwa [← List.append_assoc] at this

end Reader

end Stencil
