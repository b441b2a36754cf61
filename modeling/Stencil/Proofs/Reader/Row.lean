/-
  Row — the lexemes that patterns are read from, as far as parentheses go.

  A reader of patterns takes lexemes with the patterns inside in a row on them (`Pattern.Row`), and beside
  these it takes no parentheses, or one pair.  What the readers take is told apart only as much as is
  needed for the places of patterns: whether a place is over all the lexemes taken (`Pattern.Atom`), or
  runs from the place of one pattern inside to that of another (`Pattern.Full`, `Pattern.Arm`).  What is
  known of the patterns inside is left open (`R`).

  Parentheses are counted in `Lexeme.nesting`: how many are open, as long as none is closed too much.
-/
import Stencil.Proofs.Cut.Reader
import Stencil.Proofs.Expr.Soundness
import Stencil.Proofs.Reader.Stmt

namespace Stencil

/-! ## Nesting -/

/-- How deep parentheses are nested after the lexeme, if `n` of them were open before. -/
def Lexeme.nest (n : Nat) (l : Lexeme) : Option Nat :=
  if l.token = .lparen then some (n + 1)
  else if l.token = .rparen then
    match n with
    | 0 => none
    | n + 1 => some n
  else some n

/-- How deep they are nested after all the lexemes, if none is closed that is not open. -/
def Lexeme.nesting (n : Nat) (ls : List Lexeme) : Option Nat := ls.foldlM Lexeme.nest n

/-- Every parenthesis among the lexemes has its counterpart there. -/
def Lexeme.Paired (ls : List Lexeme) : Prop := Lexeme.nesting 0 ls = some 0

instance (ls : List Lexeme) : Decidable (Lexeme.Paired ls) := inferInstanceAs (Decidable (_ = _))

/-- A lexeme that is no parenthesis and no dot. -/
structure Lexeme.Plain (l : Lexeme) : Prop where
  ne_open : l.token ≠ .lparen
  ne_close : l.token ≠ .rparen
  ne_dot : l.token ≠ .dot

namespace Lexeme

variable {n m k : Nat} {l : Lexeme} {a b ls : List Lexeme}

@[simp] theorem nesting_nil : nesting n [] = some n := rfl

theorem nesting_cons : nesting n (l :: ls) = (nest n l).bind (nesting · ls) := List.foldlM_cons

theorem nesting_append : nesting n (a ++ b) = (nesting n a).bind (nesting · b) := List.foldlM_append

theorem nesting_append_of_eq (h : nesting n a = some m) : nesting n (a ++ b) = nesting m b := by
  rw [nesting_append, h]
  rfl

theorem nest_open (h : l.token = .lparen) : nest n l = some (n + 1) := if_pos h

theorem nest_close (h : l.token = .rparen) : nest (n + 1) l = some n := by
  unfold nest
  rw [if_neg (by rw [h]; decide), if_pos h]

theorem nest_close_zero (h : l.token = .rparen) : nest 0 l = none := by
  unfold nest
  rw [if_neg (by rw [h]; decide), if_pos h]

theorem nest_of_ne (hopen : l.token ≠ .lparen) (hclose : l.token ≠ .rparen) : nest n l = some n := by
  unfold nest
  rw [if_neg hopen, if_neg hclose]

theorem Plain.nest (h : l.Plain) : Lexeme.nest n l = some n := nest_of_ne h.ne_open h.ne_close

theorem Plain.of_token {t : Token} (h : l.token = t) (ht : t ≠ .lparen ∧ t ≠ .rparen ∧ t ≠ .dot) :
    l.Plain := by
  subst h
  exact ⟨ht.1, ht.2.1, ht.2.2⟩

theorem plain_of_isName (h : l.token.isName = true) : l.Plain := by
  cases htoken : l.token with
  | lparen | rparen | dot => rw [htoken] at h; cases h
  | _ => constructor <;> (rw [htoken]; exact nofun)

theorem plain_of_isLiteral (h : Reader.isLiteral l.token = true) : l.Plain := by
  cases htoken : l.token with
  | lparen | rparen | dot => rw [htoken] at h; cases h
  | _ => constructor <;> (rw [htoken]; exact nofun)

/-- What can be closed can be closed as well with more open. -/
theorem nest_add (h : nest n l = some m) (k : Nat) : nest (n + k) l = some (m + k) := by
  by_cases hopen : l.token = .lparen
  · rw [nest_open hopen] at h ⊢
    rw [← Option.some.inj h, Nat.add_right_comm]
  by_cases hclose : l.token = .rparen
  · cases n with
    | zero => rw [nest_close_zero hclose] at h; cases h
    | succ n =>
      rw [nest_close hclose] at h
      rw [Nat.add_right_comm, nest_close hclose, Option.some.inj h]
  · rw [nest_of_ne hopen hclose] at h ⊢
    rw [Option.some.inj h]

theorem nesting_add (h : nesting n ls = some m) (k : Nat) : nesting (n + k) ls = some (m + k) := by
  induction ls generalizing n with
  | nil => rw [Option.some.inj h]; rfl
  | cons l ls ih =>
    rw [nesting_cons] at h ⊢
    obtain ⟨mid, hnest, hrest⟩ := Option.bind_eq_some_iff.1 h
    rw [nest_add hnest k]
    exact ih hrest

/-- Paired lexemes may stand anywhere. -/
theorem Paired.nesting (h : Paired ls) (n : Nat) : Lexeme.nesting n ls = some n := by
  have hadd := nesting_add h n
  rwa [Nat.zero_add] at hadd

theorem Paired.append (ha : Paired a) (hb : Paired b) : Paired (a ++ b) :=
  (nesting_append_of_eq ha).trans hb

/-- Paired lexemes in parentheses are paired. -/
theorem Paired.enclosed {o c : Lexeme} (h : Paired ls) (ho : o.token = .lparen)
    (hc : c.token = .rparen) : Paired (o :: (ls ++ [c])) := by
  show Lexeme.nesting 0 (o :: (ls ++ [c])) = some 0
  rw [nesting_cons, nest_open ho]
  show Lexeme.nesting (0 + 1) (ls ++ [c]) = some 0
  rw [nesting_append_of_eq (h.nesting _), nesting_cons, nest_close hc]
  rfl

theorem nesting_opens (h : ∀ l ∈ ls, l.token = .lparen) : nesting n ls = some (n + ls.length) := by
  induction ls generalizing n with
  | nil => rfl
  | cons l ls ih =>
    obtain ⟨hl, hls⟩ := List.forall_mem_cons.1 h
    rw [nesting_cons, nest_open hl]
    show nesting (n + 1) ls = some (n + (ls.length + 1))
    rw [ih hls]
    congr 1
    omega

theorem nesting_closes (h : ∀ l ∈ ls, l.token = .rparen) (hn : nesting n ls = some m) :
    n = m + ls.length := by
  induction ls generalizing n with
  | nil => exact Option.some.inj hn
  | cons l ls ih =>
    obtain ⟨hl, hls⟩ := List.forall_mem_cons.1 h
    rw [nesting_cons] at hn
    cases n with
    | zero => rw [nest_close_zero hl] at hn; cases hn
    | succ n =>
      rw [nest_close hl] at hn
      rw [ih hls hn, List.length_cons, Nat.add_assoc]

/-- If opening parentheses are taken away from paired lexemes, the ones that answer them are too many for
    what is left, whatever comes then. -/
theorem Paired.opens_eq_nil (h : Paired (a ++ b)) (ha : ∀ l ∈ a, l.token = .lparen)
    (hb : Paired (b ++ ls)) : a = [] := by
  have hthrough : Lexeme.nesting 0 (b ++ ls) = some 0 := hb
  rw [nesting_append] at hthrough
  obtain ⟨m, hm, -⟩ := Option.bind_eq_some_iff.1 hthrough
  have hrest : Lexeme.nesting (0 + a.length) b = some 0 := by
    rw [← nesting_append_of_eq (nesting_opens ha)]
    exact h
  rw [nesting_add hm] at hrest
  have hlength : m + a.length = 0 := Option.some.inj hrest
  apply List.eq_nil_of_length_eq_zero
  omega

/-- If closing parentheses are taken away from paired lexemes, what is left is not paired. -/
theorem Paired.closes_eq_nil (h : Paired (a ++ b)) (hb : ∀ l ∈ b, l.token = .rparen)
    (ha : Paired a) : b = [] := by
  have hrest : Lexeme.nesting 0 b = some 0 := by
    rw [← nesting_append_of_eq ha]
    exact h
  have hlength := nesting_closes hb hrest
  apply List.eq_nil_of_length_eq_zero
  omega

end Lexeme

/-! ## The lexemes of a pattern -/

/-- The patterns stand on the lexemes in this order, each on some that `R` relates it to; what is beside
    them is plain. -/
inductive Pattern.Row (R : Pattern → List Lexeme → Prop) : List Pattern → List Lexeme → Prop
  | nil : Row R [] []
  | plain {ps : List Pattern} {l : Lexeme} {ls : List Lexeme} (hl : l.Plain) (h : Row R ps ls) :
      Row R ps (l :: ls)
  | pattern {p : Pattern} {ps : List Pattern} {a b : List Lexeme} (hp : R p a) (h : Row R ps b) :
      Row R (p :: ps) (a ++ b)

/-- The lexemes of a pattern without alternatives, as far as parentheses go: there are none beside those
    of the patterns inside; or there is one pair around these; or there is one pair more than belongs to
    the pattern. -/
inductive Pattern.Atom (R : Pattern → List Lexeme → Prop) : Pattern → List Lexeme → Prop
  | plain {p : Pattern} {ls : List Lexeme} (h : Pattern.Row R p.children ls) (hs : p.span.Over ls) :
      Atom R p ls
  | enclosed {p : Pattern} {front inside : List Lexeme} {o c : Lexeme} (hfront : ∀ l ∈ front, l.Plain)
      (ho : o.token = .lparen) (h : Pattern.Row R p.children inside) (hc : c.token = .rparen)
      (hs : p.span.Over (front ++ o :: (inside ++ [c]))) : Atom R p (front ++ o :: (inside ++ [c]))
  | parenthesised {p : Pattern} {ls : List Lexeme} {o c : Lexeme} (ho : o.token = .lparen) (h : R p ls)
      (hc : c.token = .rparen) : Atom R p (o :: (ls ++ [c]))

/-- The lexemes of a pattern: alternatives stand from the first of them to the last. -/
inductive Pattern.Full (R : Pattern → List Lexeme → Prop) : Pattern → List Lexeme → Prop
  | single {p : Pattern} {ls : List Lexeme} (h : R p ls) : Full R p ls
  | alternatives {p q : Pattern} {ps : List Pattern} {a mid b : List Lexeme} (hp : R p a)
      (h : Pattern.Row R ps mid) (hq : R q b) :
      Full R (.alternatives (p :: (ps ++ [q])) (p.span.join q.span)) (a ++ (mid ++ b))

/-- The lexemes of the pattern of a match arm: one that is taken apart stands from its base to the bracket
    that closes the list. -/
inductive Pattern.Arm (R : Pattern → List Lexeme → Prop) : Pattern → List Lexeme → Prop
  | bare {p : Pattern} {ls : List Lexeme} (h : R p ls) : Arm R p ls
  | destructured {p : Pattern} {ps : List Pattern} {a inside : List Lexeme} {w o c : Lexeme} (hp : R p a)
      (hw : w.Plain) (hbrackets : o.token = .lparen ∧ c.token = .rparen ∨ o.Plain ∧ c.Plain)
      (h : Pattern.Row R ps inside) :
      Arm R (.destructured p ps ((p.span.join o.span).join c.span)) (a ++ w :: o :: (inside ++ [c]))

namespace Pattern.Row

variable {R : Pattern → List Lexeme → Prop} {ps qs : List Pattern} {a b ls : List Lexeme}

theorem append (ha : Row R ps a) (hb : Row R qs b) : Row R (ps ++ qs) (a ++ b) := by
  induction ha with
  | nil => exact hb
  | plain hl _ ih => exact .plain hl ih
  | pattern hp _ ih =>
    rw [List.append_assoc, List.cons_append]
    exact .pattern hp ih

theorem concat {l : Lexeme} (h : Row R ps ls) (hl : l.Plain) : Row R ps (ls ++ [l]) := by
  rw [← List.append_nil ps]
  exact h.append (.plain hl .nil)

theorem of_plain (h : ∀ l ∈ ls, l.Plain) : Row R [] ls := by
  induction ls with
  | nil => exact .nil
  | cons l ls ih =>
    obtain ⟨hl, hls⟩ := List.forall_mem_cons.1 h
    exact .plain hl (ih hls)

theorem singleton {p : Pattern} (h : R p ls) : Row R [p] ls := by
  rw [← List.append_nil ls]
  exact .pattern h .nil

theorem of_commas {α : Type} {S : α → List Lexeme → Prop} {g : α → List Pattern}
    (hitem : ∀ x ls, S x ls → Row R (g x) ls) {xs : List α} {trailing : Bool}
    (h : Commas S xs trailing ls) : Row R (xs.flatMap g) ls := by
  have hcomma : ∀ {c : Lexeme}, c.Is .comma → c.Plain := fun hc => by
    exact .of_token hc.1 (by decide)
  induction h with
  | none => exact .nil
  | last hx =>
    rw [List.flatMap_singleton]
    exact hitem _ _ hx
  | trailing hx hc =>
    rw [List.flatMap_singleton]
    exact (hitem _ _ hx).concat (hcomma hc)
  | more hx hc _ ih =>
    rw [List.flatMap_cons]
    exact (hitem _ _ hx).append (.plain (hcomma hc) ih)

theorem of_patterns {trailing : Bool} (h : Commas R ps trailing ls) : Row R ps ls := by
  have hrow : Row R (ps.flatMap fun p => [p]) ls := .of_commas (fun p ls hp => .singleton hp) h
  rwa [List.flatMap_singleton'] at hrow

end Pattern.Row

/-- A span and a bracketed list behind it. -/
theorem Span.Over.brackets [Letters] {s : Span} {a inside more : List Lexeme} {o c : Lexeme} (hs : s.Over a)
    (hord : Orderly (a ++ o :: (inside ++ c :: more))) : (s.join c.span).Over (a ++ o :: (inside ++ [c])) := by
  have hwhole : a ++ o :: (inside ++ c :: more) = (a ++ o :: (inside ++ [c])) ++ more := by simp
  rw [hwhole] at hord
  refine hs.join (Span.over_singleton c) hord.left (List.prefix_append _ _) ?_
  exact ⟨a ++ o :: inside, by simp⟩

namespace Reader

variable {R : Pattern → List Lexeme → Prop} {inner : Reader Pattern} {feed rest : Feed}

theorem plain_of_segments {more : List Ident} {ls : List Lexeme}
    (h : SegmentsSpelled Span.Over more ls) : ∀ l ∈ ls, l.Plain := by
  induction h with
  | nil => exact nofun
  | cons hc hi _ ih =>
    refine List.forall_mem_cons.2 ⟨?_, List.forall_mem_cons.2 ⟨?_, ih⟩⟩
    · exact .of_token hc.1 (by decide)
    · constructor <;> (rw [hi.1.1]; exact wordToken_ne nofun nofun)

theorem pathSegments_take [Letters] {more : List Ident} (hord : Orderly feed.lexemes)
    (h : many pathSegment? feed = .ok (more, rest)) :
    ∃ used, feed.lexemes = used ++ rest.lexemes ∧ SegmentsSpelled Span.Over more used := by
  suffices hmany : ∃ used, feed.lexemes = used ++ rest.lexemes ∧
      SegmentsSpelled Span.Over more used ∧ True by
    obtain ⟨used, hls, hmore, -⟩ := hmany
    exact ⟨used, hls, hmore⟩
  refine many_takes (Q := fun _ => True) .nil ?_ ?_ hord h
  · intro feed rest hnone
    obtain ⟨b, mid, heats, hite⟩ := bind_eq_ok_iff.1 hnone
    rcases eats_eq_ok heats with ⟨rfl, rfl, -⟩ | ⟨rfl, -⟩
    · cases hite
      exact ⟨rfl, trivial⟩
    · obtain ⟨i, after, -, hpure⟩ := bind_eq_ok_iff.1 hite
      cases hpure
  · intro feed i rest hord hsome
    obtain ⟨b, mid, heats, hite⟩ := bind_eq_ok_iff.1 hsome
    rcases eats_eq_ok heats with ⟨rfl, -, -⟩ | ⟨rfl, c, hc, hls⟩
    · cases hite
    · obtain ⟨i', after, hident, hpure⟩ := bind_eq_ok_iff.1 hite
      cases hpure
      rw [hls] at hord ⊢
      obtain ⟨_, hls', l, rfl, hi, -⟩ := ident_takes _ _ _ hord.tail hident
      refine ⟨[c, l], List.cons_ne_nil _ _, by rw [hls']; rfl, fun more used hmore => ?_⟩
      exact .cons (hord.is List.mem_cons_self hc rfl) hi hmore

/-- A constant is made of its lexeme alone. -/
theorem literalOf_rest {l : Lexeme} {negative : Bool} {v : Literal}
    (h : literalOf l negative feed = .ok (v, rest)) : rest = feed := by
  rw [literalOf_feed] at h
  generalize hp : Feed.literalOf l negative = p at h
  unfold Feed.literalOf at hp
  split at hp <;> subst hp
  · obtain ⟨t, mid, htext, hpure⟩ := bind_eq_ok_iff.1 h
    cases hpure
    unfold Feed.textOf at htext
    cases hvalue : Escape.unescape false (quotedBody l) <;> rw [hvalue] at htext <;> cases htext
    rfl
  · obtain ⟨t, mid, hchar, hpure⟩ := bind_eq_ok_iff.1 h
    cases hpure
    unfold Feed.charOf at hchar
    cases hvalue : Escape.unescape true (quotedBody l) with
    | error range => rw [hvalue] at hchar; cases hchar
    | ok cs => cases cs <;> rw [hvalue] at hchar <;> cases hchar; rfl
  · cases hn : Numeral.number? l.text negative <;> rw [hn] at h <;> cases h
    rfl
  · cases h
    rfl
  · cases h
    rfl
  · exact (unexpected_ne_ok h).elim

/-- A minus sign and a number. -/
theorem negativePattern_takes [Letters] {m : Lexeme} (hm : m.token = .minus) {p : Pattern}
    (hord : Orderly (m :: feed.lexemes)) (h : negativePattern m feed = .ok (p, rest)) :
    ∃ used, feed.lexemes = used ++ rest.lexemes ∧ Pattern.Atom R p (m :: used) := by
  rcases next_bind_eq_ok h with ⟨-, hnone⟩ | ⟨l, mid, hls, -, hite⟩
  · exact (unexpected_ne_ok hnone).elim
  dsimp only at hite
  split at hite
  · next htoken =>
    obtain ⟨v, after, hv, hpure⟩ := bind_eq_ok_iff.1 hite
    cases hpure
    obtain rfl := literalOf_rest hv
    rw [hls] at hord
    refine ⟨[l], hls, .plain (.of_plain ?_) ?_⟩
    · refine List.forall_mem_cons.2 ⟨?_, List.forall_mem_singleton.2 ?_⟩
      · exact .of_token hm (by decide)
      · exact .of_token htoken (by decide)
    · exact (Span.over_singleton m).join (Span.over_singleton l) hord.left
        (List.prefix_append [m] [l]) (List.suffix_append [m] [l])
  · exact (unexpected_ne_ok hite).elim

section

variable [Letters] (hinner : Takes inner R)

include hinner

theorem fieldPattern_takes :
    Takes (fieldPattern inner) fun f ls => Pattern.Row R f.pattern?.toList ls := by
  intro feed f rest hord h
  obtain ⟨found, mid, heat, hfound⟩ := bind_eq_ok_iff.1 h
  rcases eat_eq_ok heat with ⟨rfl, rfl, -⟩ | ⟨l, rfl, hl, hls⟩
  · obtain ⟨i, mid', hident, hcolon⟩ := bind_eq_ok_iff.1 hfound
    obtain ⟨l, hname, rfl, hls⟩ := ident_eq_ok hident
    obtain ⟨b, after, heats, hite⟩ := bind_eq_ok_iff.1 hcolon
    have hplain : l.Plain := Lexeme.plain_of_isName hname
    rw [hls] at hord ⊢
    rcases eats_eq_ok heats with ⟨rfl, rfl, -⟩ | ⟨rfl, c, hc, hls'⟩
    · cases hite
      exact ⟨[l], rfl, .plain hplain .nil⟩
    · obtain ⟨p, rest', hp, hpure⟩ := bind_eq_ok_iff.1 hite
      cases hpure
      rw [hls'] at hord ⊢
      obtain ⟨used, hls'', hr⟩ := hinner _ _ _ hord.tail.tail hp
      refine ⟨l :: c :: used, by rw [hls'']; rfl, .plain hplain (.plain ?_ (.singleton hr))⟩
      exact .of_token hc (by decide)
  · cases hfound
    refine ⟨[l], hls, .plain ?_ .nil⟩
    exact .of_token hl (by decide)

/-- The pattern of a path goes on from its first name. -/
theorem structPattern_takes {global : Bool} {first : Ident} {o : Lexeme} (pre : List Lexeme) {p : Pattern}
    (hord : Orderly (pre ++ feed.lexemes)) (hhead : pre.head? = some o) (hplain : ∀ l ∈ pre, l.Plain)
    (hfirst : PathSpelled Span.Over global [first] pre)
    (h : structPattern inner global first o.span feed = .ok (p, rest)) :
    ∃ used, feed.lexemes = used ++ rest.lexemes ∧ Pattern.Atom R p (pre ++ used) := by
  obtain ⟨more, mid, hmany, hrest⟩ := bind_eq_ok_iff.1 h
  obtain ⟨used, hls, hmore⟩ := pathSegments_take hord.right hmany
  have hplain' : ∀ l ∈ pre ++ used, l.Plain :=
    List.forall_mem_append.2 ⟨hplain, plain_of_segments hmore⟩
  have hpath : PathSpelled Span.Over global (first :: more) (pre ++ used) := hfirst.append hmore
  rw [hls, ← List.append_assoc] at hord
  obtain ⟨before, l, hwhole, hl⟩ := hpath.last
  have hfront : [o] <+: pre ++ used := by
    obtain ⟨tail, rfl⟩ := List.head?_eq_some_iff.1 hhead
    exact ⟨tail ++ used, rfl⟩
  have hplace : (o.span.join ((first :: more).getLastD first).span).Over (pre ++ used) :=
    (Span.over_singleton o).join hl.2 hord.left hfront ⟨before, hwhole.symm⟩
  dsimp only at hrest
  obtain ⟨paren, mid', heats, hparen⟩ := bind_eq_ok_iff.1 hrest
  rcases eats_eq_ok heats with ⟨rfl, rfl, -⟩ | ⟨rfl, b, hb, hls'⟩
  · obtain ⟨brace, mid'', heats', hbrace⟩ := bind_eq_ok_iff.1 hparen
    rcases eats_eq_ok heats' with ⟨rfl, rfl, -⟩ | ⟨rfl, b, hb, hls'⟩
    · -- Nothing is taken apart.
      cases hbrace
      refine ⟨used, hls, .plain ?_ ?_⟩
      · rw [show (pathPattern _).children = [] by unfold pathPattern; split <;> rfl]
        exact .of_plain hplain'
      · rw [show (pathPattern _).span = _ by unfold pathPattern; split <;> rfl]
        exact hplace
    · obtain ⟨s, rest', hseq, hpure⟩ := bind_eq_ok_iff.1 hbrace
      cases hpure
      rw [hls'] at hord
      obtain ⟨inside, c, hls'', hc, hclose, hcommas⟩ :=
        seq_takes (fieldPattern_takes hinner) hord.right.tail hseq
      rw [hls''] at hord
      have hwhole : used ++ mid'.lexemes = (used ++ b :: (inside ++ [c])) ++ rest.lexemes := by
        rw [hls', hls'']
        simp
      refine ⟨used ++ b :: (inside ++ [c]), hls.trans hwhole, ?_⟩
      rw [← List.append_assoc]
      refine .plain ((Pattern.Row.of_plain hplain').append (.plain ?_ ?_)) ?_
      · exact .of_token hb (by decide)
      · refine (Pattern.Row.of_commas (fun _ _ hx => hx) hcommas).concat ?_
        exact .of_token hc (by decide)
      · rw [hclose]
        exact hplace.brackets hord
  · obtain ⟨s, rest', hseq, hpure⟩ := bind_eq_ok_iff.1 hparen
    cases hpure
    rw [hls'] at hord
    obtain ⟨inside, c, hls'', hc, hclose, hcommas⟩ := seq_takes hinner hord.right.tail hseq
    rw [hls''] at hord
    have hwhole : used ++ mid.lexemes = (used ++ b :: (inside ++ [c])) ++ rest.lexemes := by
      rw [hls', hls'']
      simp
    refine ⟨used ++ b :: (inside ++ [c]), hls.trans hwhole, ?_⟩
    rw [← List.append_assoc]
    refine .enclosed hplain' hb (.of_patterns hcommas) hc ?_
    rw [hclose]
    exact hplace.brackets hord

theorem tuplePattern_takes {o : Lexeme} (ho : o.token = .lparen) {p : Pattern}
    (hord : Orderly (o :: feed.lexemes)) (h : tuplePattern inner o feed = .ok (p, rest)) :
    ∃ used, feed.lexemes = used ++ rest.lexemes ∧ Pattern.Atom R p (o :: used) := by
  obtain ⟨s, mid, hseq, hitems⟩ := bind_eq_ok_iff.1 h
  obtain ⟨inside, c, hls, hc, hplace, hcommas⟩ := brackets_take hinner hord rfl hseq
  obtain ⟨items, trailing, close⟩ := s
  dsimp only at hitems hplace hcommas
  split at hitems
  · -- A single pattern stands for itself.
    cases hitems
    cases hcommas with
    | last hp => exact ⟨_, hls, .parenthesised ho hp hc.1⟩
  · cases hitems
    exact ⟨_, hls, @Pattern.Atom.enclosed R _ [] _ o _ nofun ho (.of_patterns hcommas) hc.1 hplace⟩

theorem slicePattern_takes {o : Lexeme} (ho : o.token = .lbracket) {p : Pattern}
    (hord : Orderly (o :: feed.lexemes)) (h : slicePattern inner o feed = .ok (p, rest)) :
    ∃ used, feed.lexemes = used ++ rest.lexemes ∧ Pattern.Atom R p (o :: used) := by
  obtain ⟨s, mid, hseq, hpure⟩ := bind_eq_ok_iff.1 h
  obtain ⟨inside, c, hls, hc, hplace, hcommas⟩ := brackets_take hinner hord rfl hseq
  cases hpure
  refine ⟨_, hls, .plain (.plain ?_ ((Pattern.Row.of_patterns hcommas).concat ?_)) hplace⟩
  · exact .of_token ho (by decide)
  · exact .of_token hc.1 (by decide)

omit [Letters] hinner in
/-- One lexeme that is a pattern by itself. -/
theorem single_atom {p : Pattern} {l : Lexeme} (hchildren : p.children = []) (hspan : p.span = l.span)
    (hplain : l.Plain) : Pattern.Atom R p [l] := by
  refine .plain ?_ ?_
  · rw [hchildren]
    exact .plain hplain .nil
  · rw [hspan]
    exact Span.over_singleton l

/-- What no sign tells begins with a word or is a constant. -/
theorem wordAtom_takes {l : Lexeme} {p : Pattern} (hord : Orderly (l :: feed.lexemes))
    (h : (do
      if ← isUnderscore l then return .placeholder l.span
      else if isLiteral l.token then return .lit (← literalOf l false) l.span
      else if l.token.isName then structPattern inner false (← nameOf l) l.span
      else unexpected [.pattern] (some l) : Reader Pattern) feed = .ok (p, rest)) :
    ∃ used, feed.lexemes = used ++ rest.lexemes ∧ Pattern.Atom R p (l :: used) := by
  rw [isUnderscore_bind_feed, nameOf_bind_feed] at h
  split at h
  · next hbar =>
    cases h
    rw [decide_eq_true_eq] at hbar
    refine ⟨[], rfl, single_atom rfl rfl ?_⟩
    exact .of_token hbar.1 (by decide)
  split at h
  · next hliteral =>
    obtain ⟨v, after, hv, hpure⟩ := bind_eq_ok_iff.1 h
    cases hpure
    obtain rfl := literalOf_rest hv
    exact ⟨[], rfl, single_atom rfl rfl (Lexeme.plain_of_isLiteral hliteral)⟩
  split at h
  · next hname =>
    obtain ⟨hword, -⟩ := hord.name List.mem_cons_self hname
    have hfirst : (identOf l).Spelled Span.Over l := ⟨hword, Span.over_singleton l⟩
    exact structPattern_takes hinner [l] hord rfl
      (List.forall_mem_singleton.2 (Lexeme.plain_of_isName hname)) (.relative hfirst .nil) h
  · exact (unexpected_ne_ok h).elim

theorem patternAtom_takes : Takes (patternAtom inner) (Pattern.Atom R) := by
  intro feed p rest hord h
  rcases next_bind_eq_ok h with ⟨-, hnone⟩ | ⟨l, mid, hls, -, hmatch⟩
  · exact (unexpected_ne_ok hnone).elim
  rw [hls] at hord ⊢
  suffices hmore : ∃ used, mid.lexemes = used ++ rest.lexemes ∧ Pattern.Atom R p (l :: used) by
    obtain ⟨used, hused, hatom⟩ := hmore
    exact ⟨l :: used, by rw [hused]; rfl, hatom⟩
  dsimp only at hmatch
  cases htoken : l.token with
  | dotDot =>
    rw [htoken] at hmatch
    cases hmatch
    refine ⟨[], rfl, single_atom rfl rfl ?_⟩
    exact .of_token htoken (by decide)
  | minus =>
    rw [htoken] at hmatch
    exact negativePattern_takes htoken hord hmatch
  | pathSep =>
    rw [htoken] at hmatch
    obtain ⟨first, after, hident, hstruct⟩ := bind_eq_ok_iff.1 hmatch
    obtain ⟨_, hls', m, rfl, hi, -⟩ := ident_takes _ _ _ hord.tail hident
    rw [hls'] at hord ⊢
    have hsep : l.Is .pathSep := hord.is List.mem_cons_self htoken rfl
    have hsegments : SegmentsSpelled Span.Over [first] [l, m] := .cons hsep hi .nil
    obtain ⟨used, hused, hatom⟩ := structPattern_takes hinner [l, m] hord rfl
      (plain_of_segments hsegments) (.absolute hsegments) hstruct
    exact ⟨m :: used, by rw [hused]; rfl, hatom⟩
  | lparen =>
    rw [htoken] at hmatch
    exact tuplePattern_takes hinner htoken hord hmatch
  | lbracket =>
    rw [htoken] at hmatch
    exact slicePattern_takes hinner htoken hord hmatch
  | _ =>
    rw [htoken] at hmatch
    refine wordAtom_takes hinner hord ?_
    rw [htoken]
    exact hmatch

/-- The alternatives after the first one, each with a bar before it. -/
def Barred (R : Pattern → List Lexeme → Prop) (ps : List Pattern) (ls : List Lexeme) : Prop :=
  ps = [] ∧ ls = [] ∨ ∃ front q mid b, ps = front ++ [q] ∧ ls = mid ++ b ∧ Pattern.Row R front mid ∧ R q b

omit [Letters] hinner in
theorem Barred.cons {p : Pattern} {ps : List Pattern} {bar : Lexeme} {a ls : List Lexeme}
    (h : Barred R ps ls) (hbar : bar.Plain) (hp : R p a) : Barred R (p :: ps) (bar :: a ++ ls) := by
  rcases h with ⟨rfl, rfl⟩ | ⟨front, q, mid, b, rfl, rfl, hrow, hq⟩
  · exact .inr ⟨[], p, [bar], a, rfl, by simp, .plain hbar .nil, hp⟩
  · exact .inr ⟨p :: front, q, bar :: (a ++ mid), b, rfl, by simp, .plain hbar (.pattern hp hrow), hq⟩

theorem alternatives_takes : Takes (alternatives inner) (Pattern.Full R) := by
  intro feed p rest hord h
  obtain ⟨first, mid, hfirst, hmany⟩ := bind_eq_ok_iff.1 h
  obtain ⟨more, mid', hrow, hmatch⟩ := bind_eq_ok_iff.1 hmany
  obtain ⟨used, hls, hr⟩ := hinner _ _ _ hord hfirst
  rw [hls] at hord ⊢
  have halternatives : ∃ used', mid.lexemes = used' ++ mid'.lexemes ∧ Barred R more used' ∧ True := by
    refine many_takes (Q := fun _ => True) (.inl ⟨rfl, rfl⟩) ?_ ?_ hord.right hrow
    · intro feed rest hnone
      obtain ⟨pipe, after, heats, hite⟩ := bind_eq_ok_iff.1 hnone
      rcases eats_eq_ok heats with ⟨rfl, rfl, -⟩ | ⟨rfl, -⟩
      · obtain ⟨word, after', heats', hite'⟩ := bind_eq_ok_iff.1 hite
        rcases eats_eq_ok heats' with ⟨rfl, rfl, -⟩ | ⟨rfl, -⟩
        · cases hite'
          exact ⟨rfl, trivial⟩
        · obtain ⟨q, after, -, hpure⟩ := bind_eq_ok_iff.1 hite'
          cases hpure
      · obtain ⟨q, after, -, hpure⟩ := bind_eq_ok_iff.1 hite
        cases hpure
    · intro feed q rest hord hsome
      have taken : ∀ {bar : Lexeme} {after : Feed}, bar.Plain → feed.lexemes = bar :: after.lexemes →
          (some <$> inner) after = .ok (some q, rest) →
          ∃ used, used ≠ [] ∧ feed.lexemes = used ++ rest.lexemes ∧
            ∀ qs more, Barred R qs more → Barred R (q :: qs) (used ++ more) := by
        intro bar after hbar hls hmap
        obtain ⟨q', after', hq, hpure⟩ := bind_eq_ok_iff.1 hmap
        cases hpure
        rw [hls] at hord ⊢
        obtain ⟨used, hused, hr⟩ := hinner _ _ _ hord.tail hq
        refine ⟨bar :: used, List.cons_ne_nil _ _, by rw [hused]; rfl, fun qs more h => ?_⟩
        exact h.cons hbar hr
      obtain ⟨pipe, after, heats, hite⟩ := bind_eq_ok_iff.1 hsome
      rcases eats_eq_ok heats with ⟨rfl, rfl, -⟩ | ⟨rfl, bar, hbar, hls⟩
      · obtain ⟨word, after', heats', hite'⟩ := bind_eq_ok_iff.1 hite
        rcases eats_eq_ok heats' with ⟨rfl, rfl, -⟩ | ⟨rfl, bar, hbar, hls⟩
        · cases hite'
        · refine taken ?_ hls hite'
          exact .of_token hbar (by decide)
      · refine taken ?_ hls hite
        exact .of_token hbar (by decide)
  obtain ⟨used', hls', hbarred, -⟩ := halternatives
  rcases hbarred with ⟨rfl, rfl⟩ | ⟨front, q, between, b, rfl, rfl, hfront, hq⟩
  · cases hmatch
    exact ⟨used, by rw [hls']; rfl, .single hr⟩
  · rw [List.getLast?_concat] at hmatch
    cases hmatch
    exact ⟨used ++ (between ++ b), by rw [hls']; simp, .alternatives hr hfront hq⟩

end

/-- What the reader of match arms takes, if `R` is what the reader of patterns takes. -/
theorem armPattern_takes [Letters] {limit : Nat} (hpattern : Takes (pattern limit) R) :
    Takes (armPattern limit) (Pattern.Arm R) := by
  intro feed p rest hord h
  obtain ⟨base, mid, hbase, hwith⟩ := bind_eq_ok_iff.1 h
  obtain ⟨used, hls, hr⟩ := hpattern _ _ _ hord hbase
  obtain ⟨found, mid', heats, hite⟩ := bind_eq_ok_iff.1 hwith
  rw [hls] at hord ⊢
  rcases eats_eq_ok heats with ⟨rfl, rfl, -⟩ | ⟨rfl, w, hw, hls'⟩
  · cases hite
    exact ⟨used, rfl, .bare hr⟩
  · rcases next_bind_eq_ok hite with ⟨-, hnone⟩ | ⟨o, mid'', hls'', -, hmatch⟩
    · exact (unexpected_ne_ok hnone).elim
    rw [hls', hls''] at hord ⊢
    dsimp only at hmatch
    cases hclose : closerOf? o.token with
    | none =>
      rw [hclose] at hmatch
      exact (unexpected_ne_ok hmatch).elim
    | some close =>
      rw [hclose] at hmatch
      obtain ⟨s, after, hseq, hpure⟩ := bind_eq_ok_iff.1 hmatch
      cases hpure
      obtain ⟨inside, c, hinside, hc, hspan, hcommas⟩ := seq_takes hpattern hord.right.tail.tail hseq
      have hbrackets : o.token = .lparen ∧ c.token = .rparen ∨ o.Plain ∧ c.Plain := by
        unfold closerOf? at hclose
        split at hclose
        · next ho =>
          cases hclose
          exact .inl ⟨ho, hc⟩
        · next ho =>
          cases hclose
          right
          constructor
          · exact .of_token ho (by decide)
          · exact .of_token hc (by decide)
        · cases hclose
      refine ⟨used ++ w :: o :: (inside ++ [c]), by rw [hinside]; simp, ?_⟩
      rw [hspan]
      refine .destructured hr ?_ hbrackets (.of_patterns hcommas)
      exact .of_token hw (by decide)

end Reader

end Stencil
