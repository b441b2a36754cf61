/-
  Expr — every expression of a tag can be read alone.

  A loop goes on from an expression that has been read.  To see that this expression can be read alone,
  the run is looked at from where the expression begins: what was done from there on leads to the loop
  (`Leads`), and the loop stops at the end of the tag.  So each loop is given a reader `whole` that leads
  to it, which is `operation` wherever an operand begins, and every round of the loop leads on.

  The operators behind a right operand are read by a loop of their own, which leaves those that bind
  loosely.  Alone, the right operand is read by a loop that takes all of them.  Both do the same as long as
  the operators are tight enough for the first one, so it is the second loop that `whole` leads to.

  Where a part is read alone, the nesting may go as deep as the limit allows.  Inside of the tag there was
  less of it left, and a reader that has enough does the same when it has more (`exprWithin_relaxes`).
-/
import Stencil.Proofs.Cut.Primary
import Stencil.Proofs.Expr.Soundness
import Stencil.Proofs.Limit.Relax

namespace Stencil

namespace Reader

variable {α β : Type} {feed mid rest : Feed} {used used' : List Lexeme}

/-! ## From one reader to another -/

/-- What `p` does on `feed` is, after `used`, what `q` does on `mid`; and so it is if the tag is closed
    behind `used`, with any of the lexemes in between that came there. -/
structure Leads (p : Reader α) (feed : Feed) (used : List Lexeme) (q : Reader α) (mid : Feed) :
    Prop where
  split : feed.lexemes = used ++ mid.lexemes
  last : mid.last = feed.last.after used
  settled : Settled used
  again : ∀ (ls : List Lexeme) (c : Lexeme) (stop : Lexer.Stop) (last : Span),
    ls <+: mid.lexemes → c.token.isClosing = true →
    p ⟨used ++ (ls ++ [c]), stop, last⟩ = q ⟨ls ++ [c], stop, last.after used⟩

/-- In a tag that holds nothing else, the reader reads `x` from the lexemes. -/
def Closes (p : Reader α) (part : List Lexeme) (x : α) : Prop :=
  ∀ (c : Lexeme) (stop : Lexer.Stop) (last : Span), c.token.isClosing = true →
    p ⟨part ++ [c], stop, last⟩ = .ok (x, ⟨[c], stop, last.after part⟩)

/-- What a reader takes that needs nothing behind it can be read alone. -/
theorem Cut.closes {p : Reader α} {x : α} {used : List Lexeme} (h : Cut 0 p feed rest x used) :
    Closes p used x :=
  fun _ stop last hc => h.closed hc stop last

/-- At the end of the tag the reader gives `x` and takes nothing. -/
def Rests (p : Reader α) (x : α) : Prop := Closes p [] x

theorem bind_assoc {γ : Type} (p : Reader α) (k : α → Reader β) (j : β → Reader γ) :
    p >>= k >>= j = p >>= fun a => k a >>= j := by
  funext feed
  rw [bind_apply, bind_apply, bind_apply]
  cases p feed <;> rfl

namespace Leads

variable {p q r : Reader α}

theorem trans (h : Leads p feed used q mid) (h' : Leads q mid used' r rest) :
    Leads p feed (used ++ used') r rest where
  split := by rw [h.split, h'.split, List.append_assoc]
  last := by rw [h'.last, h.last, Span.after_append]
  settled := h.settled.append h'.settled
  again := by
    intro ls c stop last hls hc
    have hprefix : used' ++ ls <+: mid.lexemes := by
      rw [h'.split]
      exact (List.prefix_append_right_inj used').2 hls
    have hfirst := h.again (used' ++ ls) c stop last hprefix hc
    rw [List.append_assoc used' ls] at hfirst
    rw [List.append_assoc, hfirst, Span.after_append]
    exact h'.again ls c stop _ hls hc

theorem bind (h : Leads p feed used q mid) (k : α → Reader β) :
    Leads (p >>= k) feed used (q >>= k) mid where
  split := h.split
  last := h.last
  settled := h.settled
  again := by
    intro ls c stop last hls hc
    rw [bind_apply, bind_apply, h.again ls c stop last hls hc]

/-- Looking at what comes next changes nothing, as far as it stays. -/
theorem look {ahead : Nat} {p : Reader β} {k : β → Reader α} {b : β}
    (hp : Cut ahead p feed feed b []) (h : Leads (k b) feed used q mid) (hahead : ahead ≤ used.length) :
    Leads (p >>= k) feed used q mid where
  split := h.split
  last := h.last
  settled := h.settled
  again := by
    intro ls c stop last hls hc
    have hprefix : used ++ ls <+: feed.lexemes := by
      rw [h.split]
      exact (List.prefix_append_right_inj used).2 hls
    have hlength : ahead ≤ (used ++ ls).length := by
      rw [List.length_append]
      omega
    have hlook := hp.again (used ++ ls) c stop last hprefix hlength hc
    rw [List.nil_append, List.append_assoc] at hlook
    rw [bind_apply, hlook]
    exact h.again ls c stop last hls hc

theorem cut {x : α} (h : Leads p feed used q mid) (h' : Cut 0 q mid rest x used') :
    Cut 0 p feed rest x (used ++ used') where
  split := by rw [h.split, h'.split, List.append_assoc]
  last := by rw [h'.last, h.last, Span.after_append]
  settled := h.settled.append h'.settled
  again := by
    intro ls c stop last hls hahead hc
    have hprefix : used' ++ ls <+: mid.lexemes := by
      rw [h'.split]
      exact (List.prefix_append_right_inj used').2 hls
    have hfirst := h.again (used' ++ ls) c stop last hprefix hc
    rw [List.append_assoc used' ls] at hfirst
    rw [List.append_assoc, hfirst, Span.after_append]
    exact h'.again ls c stop _ hls hahead hc

/-- A reader that leads to one that rests can be read alone as far as that. -/
theorem closes {x : α} (h : Leads p feed used q mid) (hq : Rests q x) : Closes p used x := by
  intro c stop last hc
  have hled := h.again [] c stop last List.nil_prefix hc
  rw [List.nil_append] at hled
  rw [hled]
  exact hq c stop _ hc

/-- Taking a lexeme that is no dot. -/
theorem take {k : Option Lexeme → Reader α} {l : Lexeme} (hls : feed.lexemes = l :: mid.lexemes)
    (hlast : mid.last = l.span) (hdot : l.token ≠ .dot) :
    Leads (next >>= k) feed [l] (k (some l)) mid :=
  ⟨hls, hlast, .singleton hdot, fun _ _ _ _ _ _ => rfl⟩

end Leads

/-- A cut leads to what comes after the reader. -/
theorem Cut.leads {p : Reader α} {x : α} (h : Cut 0 p feed mid x used) (k : α → Reader β) :
    Leads (p >>= k) feed used (k x) mid where
  split := h.split
  last := h.last
  settled := h.settled
  again := by
    intro ls c stop last hls hc
    rw [bind_apply, h.again ls c stop last hls (Nat.zero_le _) hc]

/-! ## Where loops stop -/

theorem Rests.bind {p : Reader α} {k : α → Reader β} {x : α} {y : β} (hp : Rests p x)
    (hk : Rests (k x) y) : Rests (p >>= k) y := by
  intro c stop last hc
  rw [bind_apply, hp c stop last hc]
  exact hk c stop last hc

theorem Rests.pure (x : α) : Rests (Pure.pure x) x := fun _ _ _ _ => rfl

theorem Rests.peek {k : Option Lexeme → Reader α} {x : α}
    (h : ∀ c : Lexeme, c.token.isClosing = true → k (some c) = Pure.pure x) :
    Rests (peek >>= k) x := by
  intro c stop last hc
  show k (some c) _ = _
  rw [h c hc]
  rfl

theorem eats_rests {t : Token} (ht : t.isClosing = false) : Rests (eats t) false :=
  fun _ stop last hc => eats_closing ht hc stop last

theorem suffixes_rests (limit : Nat) (e : Nat → Reader Expr) (budget : Nat) (x : Expr) :
    Rests (suffixes limit e budget x) x := by
  unfold suffixes
  refine .peek fun c hc => ?_
  cases htoken : c.token with
  | endExpr | endBlock =>
    dsimp only
    rw [htoken]
    rfl
  | _ => rw [htoken] at hc; cases hc

/-- The operator that a lexeme stands for, if it binds tightly enough. -/
def operatorAt (min : Nat) (found : Option Lexeme) : Option Operator :=
  found.bind fun l => (operator? l.token).filter fun op => min ≤ op.level

theorem operatorFrom?_eq (min : Nat) : operatorFrom? min = looks (operatorAt min) := rfl

theorem operatorAt_closing {min : Nat} {c : Lexeme} (hc : c.token.isClosing = true) :
    operatorAt min (some c) = none := by
  unfold operatorAt
  cases htoken : c.token with
  | endExpr | endBlock => rw [Option.bind_some, htoken]; rfl
  | _ => rw [htoken] at hc; cases hc

theorem operators_rests (limit : Nat) (e : Nat → Reader Expr) (budget min : Nat) (left : Expr) :
    Rests (operators limit e budget min left) left := by
  unfold operators
  rw [operatorFrom?_eq, looks_bind]
  refine .peek fun c hc => ?_
  rw [operatorAt_closing hc]

theorem operatorAt_of_le {min : Nat} {op : Operator} {l : Lexeme} (hop : operator? l.token = some op)
    (hlevel : min ≤ op.level) : operatorAt min (some l) = some op := by
  unfold operatorAt
  rw [Option.bind_some, hop, Option.filter_some, if_pos (decide_eq_true hlevel)]

/-- Behind `left` no operator is tight enough. -/
theorem operators_stop {limit budget min : Nat} {e : Nat → Reader Expr} {left : Expr}
    (h : ∀ l ∈ feed.lexemes.head?, ∀ op ∈ operator? l.token, op.level < min) :
    Cut 0 (operators limit e budget min left) feed feed left [] := by
  refine ⟨rfl, rfl, .nil, fun ls c stop last hls _ hc => ?_⟩
  cases ls with
  | nil => exact operators_rests limit e budget min left c stop last hc
  | cons l ls =>
    obtain ⟨tail, htail⟩ := hls
    have hl : operatorAt min (some l) = none := by
      unfold operatorAt
      rw [Option.bind_some, Option.filter_eq_none_iff]
      intro op hop
      have hlt := h l (by rw [← htail]; rfl) op hop
      rw [decide_eq_true_eq]
      exact Nat.not_le.2 hlt
    unfold operators
    rw [operatorFrom?_eq, looks_bind, bind_apply]
    dsimp only [peek_feed, Feed.peek, List.nil_append, List.cons_append]
    rw [hl]
    rfl

/-- Reads the test for being defined behind `x`, if there is one. -/
def definedTest (x : Expr) : Reader Expr := do
  if ← eats (.keyword .isKw) then
    let negated ← eats (.keyword .notKw)
    let close ← expect (.keyword .definedKw)
    return .isDefined x negated (x.span.join close.span)
  else return x

theorem tested_eq (limit : Nat) (e : Nat → Reader Expr) (budget : Nat) :
    tested limit e budget = primary (e budget) >>= fun x => suffixes limit e budget x >>= definedTest :=
  rfl

theorem definedTest_rests (x : Expr) : Rests (definedTest x) x := (eats_rests rfl).bind (.pure x)

/-! ## Looking for a unary operator -/

/-- The unary operator that the lexeme is; it depends on whether a number comes behind a minus sign. -/
def unaryAt (l : Lexeme) (number : Bool) : Option (Unary × Span) :=
  match l.token with
  | .bang => some (.op .not, l.span)
  | .star => some (.op .deref, l.span)
  | .amp => some (.ref, l.span)
  | .minus => if number then none else some (.op .neg, l.span)
  | _ => none

theorem unaryAt_of_ne {l : Lexeme} (h : l.token ≠ .minus) (b b' : Bool) : unaryAt l b = unaryAt l b' := by
  unfold unaryAt
  split <;> first | rfl | exact absurd ‹_› h

theorem unaryAt_of_some {l : Lexeme} {b : Bool} {u : Unary × Span} (h : unaryAt l b = some u) :
    unaryAt l false = some u := by
  cases b with
  | false => exact h
  | true =>
    by_cases hl : l.token = .minus
    · unfold unaryAt at h
      rw [hl] at h
      cases h
    · rw [unaryAt_of_ne hl false true]
      exact h

/-- Only behind a minus sign a second lexeme is looked at. -/
theorem unary?_eq : (unary? : Reader (Option (Unary × Span))) = (peek >>= fun found =>
    match found with
    | none => pure none
    | some l =>
      if l.token = .minus then do return unaryAt l (← secondIs .number)
      else return unaryAt l false) := by
  unfold unary?
  congr 1
  funext found
  cases found with
  | none => rfl
  | some l =>
    dsimp only
    unfold unaryAt
    cases htoken : l.token with
    | minus =>
      rw [if_pos rfl]
      show (secondIs .number >>= fun b => if b = true then pure none
          else pure (some (Unary.op .neg, l.span))) =
        (secondIs .number >>= fun b => pure (if b = true then none
          else some (Unary.op .neg, l.span)))
      congr 1
      funext b
      cases b <;> rfl
    | _ => rfl

theorem unary?_two (l m : Lexeme) (ls : List Lexeme) (stop : Lexer.Stop) (last : Span) :
    unary? (⟨l :: m :: ls, stop, last⟩ : Feed) =
      .ok (unaryAt l (m.token == .number), ⟨l :: m :: ls, stop, last⟩) := by
  rw [unary?_eq]
  by_cases hl : l.token = .minus
  · show (if l.token = .minus then _ else _ : Reader _) _ = _
    rw [if_pos hl]
    rfl
  · show (if l.token = .minus then _ else _ : Reader _) _ = _
    rw [if_neg hl, unaryAt_of_ne hl false (m.token == .number)]
    rfl

theorem unary?_eq_ok {found : Option (Unary × Span)} (h : unary? feed = .ok (found, rest)) :
    rest = feed ∧ found = feed.lexemes.head?.bind fun l =>
      unaryAt l (feed.lexemes.tail.head?.any fun m => m.token == .number) := by
  rw [unary?_eq] at h
  obtain ⟨first, mid, hpeek, h⟩ := bind_eq_ok_iff.1 h
  obtain ⟨rfl, rfl⟩ := peek_eq_ok hpeek
  cases hhead : mid.lexemes.head? with
  | none =>
    rw [hhead] at h
    cases h
    exact ⟨rfl, rfl⟩
  | some l =>
    rw [hhead] at h
    dsimp only at h
    rw [Option.bind_some]
    split at h
    · obtain ⟨b, mid', hb, h⟩ := bind_eq_ok_iff.1 h
      obtain ⟨rfl, rfl⟩ := secondIs_eq_ok hb
      cases h
      exact ⟨rfl, rfl⟩
    · next hl =>
      cases h
      exact ⟨rfl, unaryAt_of_ne hl _ _⟩

theorem unary?_rests : Rests unary? none := by
  rw [unary?_eq]
  refine .peek fun c hc => ?_
  dsimp only
  unfold unaryAt
  cases htoken : c.token with
  | endExpr | endBlock => rfl
  | _ => rw [htoken] at hc; cases hc

/-- Where there is no unary operator there is none at the end of the tag either; but the number behind
    a minus sign has to stay. -/
theorem unary?_none (h : unary? feed = .ok (none, rest)) :
    rest = feed ∧ Cut (if feed.lexemes.head?.any fun l => l.token == .minus then 2 else 0)
      unary? feed feed none [] := by
  obtain ⟨rfl, hnone⟩ := unary?_eq_ok h
  refine ⟨rfl, rfl, rfl, .nil, fun ls c stop last hls hahead hc => ?_⟩
  obtain ⟨tail, htail⟩ := hls
  rw [← htail] at hnone hahead
  match ls with
  | [] => exact unary?_rests c stop last hc
  | l :: m :: ls =>
    have hl : none = unaryAt l (m.token == .number) := hnone
    rw [hl]
    exact unary?_two l m (ls ++ [c]) stop last
  | [l] =>
    have hminus : l.token ≠ .minus := by
      intro hl
      have hahead' : (if (l.token == .minus) = true then 2 else 0) ≤ 1 := hahead
      rw [if_pos (beq_iff_eq.2 hl)] at hahead'
      exact Nat.lt_irrefl 1 hahead'
    have hl : none = unaryAt l (c.token == .number) := hnone.trans (unaryAt_of_ne hminus _ _)
    rw [hl]
    exact unary?_two l c [] stop last

/-- Where there is one it is the next lexeme. -/
theorem unary?_some {u : Unary × Span} (h : unary? feed = .ok (some u, rest)) :
    rest = feed ∧ Cut 1 unary? feed feed (some u) [] ∧
      ∃ l ls, feed.lexemes = l :: ls ∧ l.token ≠ .dot := by
  obtain ⟨rfl, hsome⟩ := unary?_eq_ok h
  refine ⟨rfl, ⟨rfl, rfl, .nil, fun ls c stop last hls hahead hc => ?_⟩, ?_⟩
  · obtain ⟨tail, htail⟩ := hls
    rw [← htail] at hsome
    match ls with
    | [] => exact absurd hahead (by decide)
    | l :: m :: ls =>
      have hl : some u = unaryAt l (m.token == .number) := hsome
      rw [hl]
      exact unary?_two l m (ls ++ [c]) stop last
    | [l] =>
      have hl : unaryAt l false = some u := unaryAt_of_some hsome.symm
      have hnumber : (c.token == .number) = false := any_closing rfl hc
      rw [← hl, ← hnumber]
      exact unary?_two l c [] stop last
  · cases hls : rest.lexemes with
    | nil => rw [hls] at hsome; cases hsome
    | cons l ls =>
      refine ⟨l, ls, rfl, fun hl => ?_⟩
      rw [hls] at hsome
      have hl' : some u = unaryAt l _ := hsome
      unfold unaryAt at hl'
      rw [hl] at hl'
      cases hl'

/-! ## Suffixes -/

variable {A : List Lexeme → Expr → Prop} {limit n : Nat} {e : Nat → Reader Expr}

/-- Everything that occurs in `x` stands on one of the stretches of `ls`. -/
def AllStand (A : List Lexeme → Expr → Prop) (x : Expr) (ls : List Lexeme) : Prop :=
  ∀ y, x.HasPart y → Stands A ls y

/-- The expression itself can be read alone, and what it encloses stands on stretches. -/
theorem AllStand.of_whole {x : Expr} {ls : List Lexeme} (hx : A ls x)
    (h : ∀ y, x.Encloses y → Stands A ls y) : AllStand A x ls := by
  intro y hy
  rcases Expr.hasPart_iff.1 hy with rfl | hy
  · exact .whole hx
  · exact h y hy

/-- Behind `x` the next lexeme begins no suffix. -/
theorem suffixes_stop {budget : Nat} {x : Expr}
    (h : ∀ l ∈ feed.lexemes.head?, isSuffix l.token = false) :
    Cut 0 (suffixes limit e budget x) feed feed x [] := by
  refine ⟨rfl, rfl, .nil, fun ls c stop last hls _ hc => ?_⟩
  cases ls with
  | nil => exact suffixes_rests limit e budget x c stop last hc
  | cons l ls =>
    obtain ⟨tail, htail⟩ := hls
    have hl : isSuffix l.token = false := h l (by rw [← htail]; rfl)
    unfold suffixes
    rw [bind_apply]
    dsimp only [peek_feed, Feed.peek, List.nil_append, List.cons_append]
    rw [hl]
    rfl

section

variable [Letters] (hv : ∀ k ≤ n, Cuts A (fun _ => False) (e k) Expr.HasPart)

include hv

theorem suffixes_cut {whole : Reader Expr} {j : Expr → Reader Expr} {start : Feed}
    (hwhole : ∀ part x, Closes whole part x → A part x) (hj : ∀ x, Rests (j x) x) {budget : Nat}
    (hbudget : budget ≤ n) {pre : List Lexeme} {x y : Expr}
    (hled : Leads whole start pre (suffixes limit e budget x >>= j) feed) (hx : AllStand A x pre)
    (hord : Orderly feed.lexemes) (h : suffixes limit e budget x feed = .ok (y, rest)) :
    ∃ used, Cut 0 (suffixes limit e budget x) feed rest y used ∧ AllStand A y (pre ++ used) := by
  -- Each round is one more suffix behind what has led to `x`, and `whole` is read up to there again.
  induction budget using Nat.strongRecOn generalizing pre x feed with
  | ind budget ih =>
    rcases suffixes_cases limit h with ⟨rfl, rfl, hstop⟩ | ⟨left, l, z, mid, rfl, hl, hsuffix, hz, hmore⟩
    · exact ⟨[], suffixes_stop hstop, by rw [List.append_nil]; exact hx⟩
    · obtain ⟨ls, hls⟩ := List.head?_eq_some_iff.1 hl
      obtain ⟨hcuts, hshorter⟩ := suffix_cut (hv left (Nat.le_of_succ_le hbudget)) (x := x) hord hls
      obtain ⟨first, hfirst, hparts⟩ := hcuts z mid hz
      have hpos : 1 ≤ first.length := by
        have hlt := hshorter z mid hz
        rw [hfirst.length_eq] at hlt
        omega
      have hround : Leads (suffixes limit e (left + 1) x) feed first (suffixes limit e left z) mid := by
        rw [suffixes.eq_def limit e (left + 1)]
        refine Leads.look (Cut.peek feed) ?_ hpos
        rw [hl]
        dsimp only
        rw [if_pos hsuffix]
        exact hfirst.leads _
      have hled' := hled.trans (hround.bind j)
      rw [hfirst.split] at hord
      have hz' : AllStand A z (pre ++ first) := by
        have hclosed := hled'.closes ((suffixes_rests limit e left z).bind (hj z))
        refine .of_whole (hwhole _ _ hclosed) fun w hw => ?_
        rcases hparts w hw with hgiven | hstands
        · exact (hx w hgiven).left
        · exact hstands.right hled.settled
      obtain ⟨more, hcut, hall⟩ := ih left (Nat.lt_succ_self left) (Nat.le_of_succ_le hbudget) hled' hz'
        hord.right hmore
      exact ⟨first ++ more, hround.cut hcut, by rw [← List.append_assoc]; exact hall⟩

omit hv in
theorem definedTest_cuts (x : Expr) : Cuts A x.HasPart (definedTest x) Expr.Encloses := by
  refine (eats_cuts rfl (by decide)).after fun found => .ite ?_ (.pure fun y hy => ?_)
  · refine (eats_cuts rfl (by decide)).after fun negated => (expect_cuts (by decide)).after fun close => ?_
    refine .pure fun y hy => ?_
    obtain ⟨c, hc, hy⟩ := hy
    rw [List.mem_singleton.1 hc] at hy
    exact hy
  · exact Expr.hasPart_iff.2 (.inr hy)

/-- A primary with its suffixes, and a test after it, where no unary operator stands. -/
theorem tested_cut {budget : Nat} (hbudget : budget ≤ n)
    (hwhole : ∀ part x, Closes (operation limit e budget) part x → A part x) {x : Expr}
    (hord : Orderly feed.lexemes) (hnone : unary? feed = .ok (none, feed))
    (h : tested limit e budget feed = .ok (x, rest)) :
    ∃ used, used ≠ [] ∧ Cut 0 (unary limit e budget) feed rest x used ∧ AllStand A x used := by
  rw [tested_eq] at h
  obtain ⟨x₀, mid, hprimary, h⟩ := bind_eq_ok_iff.1 h
  obtain ⟨x₁, mid', hsuffixes, htest⟩ := bind_eq_ok_iff.1 h
  have hcuts : Cuts A (fun _ => False) _ _ := primary_cuts (hv budget hbudget)
  obtain ⟨first, hfirst, hparts⟩ := hcuts feed hord x₀ mid hprimary
  have hne : first ≠ [] := hfirst.ne_nil_of_needs (primary_needs _)
  -- Where an operand begins, `unary` leads to the loop over suffixes.
  have hunary : Leads (unary limit e budget) feed first
      (suffixes limit e budget x₀ >>= definedTest) mid := by
    rw [unary.eq_def]
    refine Leads.look (unary?_none hnone).2 (hfirst.leads _) ?_
    split
    · next hminus =>
      obtain ⟨l, hl, htoken⟩ := (Option.any_eq_true _ _).1 hminus
      exact primary_minus hord hprimary hfirst.split hl (eq_of_beq htoken)
    · exact Nat.zero_le _
  have hled := (hunary.bind (operators limit e budget 0))
  rw [bind_assoc] at hled
  have hrests : ∀ z, Rests (definedTest z >>= operators limit e budget 0) z :=
    fun z => (definedTest_rests z).bind (operators_rests _ _ _ _ _)
  have hx₀ : AllStand A x₀ first := by
    refine .of_whole (hwhole _ _ ?_) fun y hy => (hparts y hy).resolve_left id
    exact hled.closes ((suffixes_rests _ _ _ _).bind (hrests x₀))
  rw [hfirst.split] at hord
  obtain ⟨more, hmore, hx₁⟩ :=
    suffixes_cut hv hwhole hrests hbudget hled hx₀ hord.right hsuffixes
  have hled' := hled.trans (hmore.leads _)
  rw [hmore.split] at hord
  obtain ⟨final, hfinal, hparts'⟩ := definedTest_cuts x₁ mid' hord.right.right x rest htest
  refine ⟨first ++ (more ++ final), ?_, ?_, ?_⟩
  · exact fun hnil => hne (List.append_eq_nil_iff.1 hnil).1
  · exact hunary.cut (hmore.bind hfinal (Nat.zero_le _))
  · rw [← List.append_assoc]
    refine .of_whole (hwhole _ _ ?_) fun y hy => ?_
    · exact (hled'.trans (hfinal.leads _)).closes (operators_rests _ _ _ _ _)
    · rcases hparts' y hy with hgiven | hstands
      · exact (hx₁ y hgiven).left
      · exact hstands.right hled'.settled

/-! ## Operators -/

omit [Letters] hv in
theorem Unary.encloses_apply {u : Unary} {x y : Expr} {s : Span} (h : (u.apply x s).Encloses y) :
    x.HasPart y := by
  obtain ⟨c, hc, hy⟩ := h
  have hc' : c ∈ [x] := by cases u <;> exact hc
  rw [List.mem_singleton.1 hc'] at hy
  exact hy

section

variable (hwhole : ∀ b ≤ n, ∀ part x, Closes (operation limit e b) part x → A part x)

include hwhole

theorem unary_cut {budget : Nat} (hbudget : budget ≤ n) {x : Expr} (hord : Orderly feed.lexemes)
    (h : unary limit e budget feed = .ok (x, rest)) :
    ∃ used, used ≠ [] ∧ Cut 0 (unary limit e budget) feed rest x used ∧ AllStand A x used := by
  -- An operator is taken off with one level; without one, the rest is the loop over suffixes and tests.
  induction budget generalizing feed x with
  | zero =>
    unfold unary at h
    obtain ⟨found, mid, hfound, hmatch⟩ := bind_eq_ok_iff.1 h
    cases found with
    | none =>
      obtain ⟨rfl, -⟩ := unary?_none hfound
      exact tested_cut hv hbudget (hwhole 0 hbudget) hord hfound hmatch
    | some u =>
      obtain ⟨found, mid', -, hdeep⟩ := bind_eq_ok_iff.1 hmatch
      exact (tooDeep_ne_ok hdeep).elim
  | succ budget ih =>
    have hrun := h
    unfold unary at h
    obtain ⟨found, mid, hfound, hmatch⟩ := bind_eq_ok_iff.1 h
    cases found with
    | none =>
      obtain ⟨rfl, -⟩ := unary?_none hfound
      exact tested_cut hv hbudget (hwhole _ hbudget) hord hfound hmatch
    | some us =>
      obtain ⟨u, s⟩ := us
      obtain ⟨rfl, hlook, l, ls, hls, hdot⟩ := unary?_some hfound
      dsimp only at hmatch
      rw [bind_apply, next_cons hls] at hmatch
      obtain ⟨y, rest', hy, hpure⟩ := bind_eq_ok_iff.1 hmatch
      cases hpure
      rw [hls] at hord
      obtain ⟨used, -, hcut, hall⟩ := ih (Nat.le_of_succ_le hbudget) hord.tail hy
      have hcut' : Cut 0 (unary limit e (budget + 1)) mid rest (u.apply y (s.join y.span))
          (l :: (used ++ [])) := by
        rw [unary.eq_def]
        refine hlook.bind (.next hls ?_ ?_) (Nat.le_add_left _ _)
        · exact hcut.bind (.pure _ _) (Nat.zero_le _)
        · rw [List.append_nil]
          exact hcut.settled.cons hdot
      rw [List.append_nil] at hcut'
      refine ⟨l :: used, List.cons_ne_nil _ _, hcut', .of_whole (hwhole _ hbudget _ _ ?_) ?_⟩
      · exact (hcut'.leads _).closes (operators_rests _ _ _ _ _)
      · intro z hz
        exact (hall z (Unary.encloses_apply hz)).right (a := [l]) (.singleton hdot)

/-- What the loop over operators gives, its operands included.  The loop may leave loose operators; but
    it is the loop that takes all of them which the whole has led to. -/
theorem operators_cut {budget min : Nat} (hbudget : budget ≤ n) {whole : Reader Expr} {start : Feed}
    {pre : List Lexeme} {x y : Expr} (hclosed : ∀ part x, Closes whole part x → A part x)
    (hled : Leads whole start pre (operators limit e budget 0 x) feed) (hx : AllStand A x pre)
    (hord : Orderly feed.lexemes) (h : operators limit e budget min x feed = .ok (y, rest)) :
    ∃ used, Cut 0 (operators limit e budget min x) feed rest y used ∧ AllStand A y (pre ++ used) := by
  induction budget using Nat.strongRecOn generalizing min whole start pre x y feed rest with
  | ind budget ih =>
    rcases operators_cases limit h with
      ⟨rfl, rfl, hloose⟩ | ⟨left, o, op, mid, rfl, hls, hlast, hop, hlevel, hround⟩
    · exact ⟨[], operators_stop hloose, by rw [List.append_nil]; exact hx⟩
    have hless : left < left + 1 := Nat.lt_succ_self left
    have hleft : left ≤ n := Nat.le_of_succ_le hbudget
    rw [hls] at hord
    have hdot : o.token ≠ .dot := by
      intro htoken
      rw [htoken] at hop
      cases hop
    have hlook : ∀ low ≤ op.level, Cut 1 (operatorFrom? low) feed feed (some op) [] := by
      intro low hlow
      rw [operatorFrom?_eq, ← operatorAt_of_le hop hlow]
      exact looks_cut (looks_run hls)
    -- A round leads on whatever operators the loop leaves, as long as it takes this one.
    suffices hsuff : ∃ used z after, (∀ low ≤ op.level, Leads (operators limit e (left + 1) low x)
        feed used (operators limit e left low z) after) ∧
        (∀ w, z.Encloses w → x.HasPart w ∨ Stands A used w) ∧ Orderly after.lexemes ∧
        operators limit e left min z after = .ok (y, rest) by
      obtain ⟨used, z, after, hleads, hparts, hord', hloop⟩ := hsuff
      have hled' := hled.trans (hleads 0 (Nat.zero_le _))
      have hz : AllStand A z (pre ++ used) := by
        refine .of_whole (hclosed _ _ (hled'.closes (operators_rests _ _ _ _ _))) fun w hw => ?_
        rcases hparts w hw with hgiven | hstands
        · exact (hx w hgiven).left
        · exact hstands.right hled.settled
      obtain ⟨used', hcut, hall⟩ := ih left hless hleft hclosed hled' hz hord' hloop
      exact ⟨used ++ used', (hleads min hlevel).cut hcut, by rw [← List.append_assoc]; exact hall⟩
    rcases hround with ⟨rfl, first, more, mid₁, mid₂, hfirst, hmore, hloop⟩ |
      ⟨op, operand, right, mid₁, mid₂, rfl, hoperand, hright, hloop⟩
    · obtain ⟨a, hcut, hparts⟩ :=
        (filter_cuts (hv left hleft) : Cuts A (fun _ => False) _ _) mid hord.tail _ _ hfirst
      have hord₁ := hord.tail
      rw [hcut.split] at hord₁
      obtain ⟨b, hcut', hparts'⟩ :=
        (filters_cuts (hv left hleft) : Cuts A (fun _ => False) _ _) mid₁ hord₁.right _ _ hmore
      have hord₂ := hord₁.right
      rw [hcut'.split] at hord₂
      refine ⟨[o] ++ (a ++ b), filtered x first more, mid₂, fun low hlow => ?_, fun w hw => ?_,
        hord₂.right, hloop⟩
      · rw [operators.eq_def limit e (left + 1)]
        refine Leads.look (hlook low hlow) ?_ (Nat.le_add_left _ _)
        exact (Leads.take hls hlast hdot).trans ((hcut.leads _).trans (hcut'.leads _))
      · obtain ⟨c, hc, hw⟩ := hw
        rcases List.mem_cons.1 hc with rfl | hc
        · exact .inl hw
        · refine .inr (Stands.right ?_ (.singleton hdot))
          rw [List.flatMap_cons, List.mem_append] at hc
          rcases hc with hc | hc
          · exact ((hparts w ⟨c, hc, hw⟩).resolve_left id).left
          · exact ((hparts' w ⟨c, hc, hw⟩).resolve_left id).right hcut.settled
    · obtain ⟨a, -, hcut, hall⟩ := unary_cut hv hwhole hleft hord.tail hoperand
      have hord₁ := hord.tail
      rw [hcut.split] at hord₁
      obtain ⟨b, hcut', hall'⟩ :=
        ih left hless hleft (hwhole left hleft) (hcut.leads _) hall hord₁.right hright
      have hord₂ := hord₁.right
      rw [hcut'.split] at hord₂
      refine ⟨[o] ++ (a ++ b), .binary op x right (x.span.join right.span), mid₂,
        fun low hlow => ?_, fun w hw => ?_, hord₂.right, hloop⟩
      · rw [operators.eq_def limit e (left + 1)]
        refine Leads.look (hlook low hlow) ?_ (Nat.le_add_left _ _)
        exact (Leads.take hls hlast hdot).trans ((hcut.leads _).trans (hcut'.leads _))
      · obtain ⟨c, hc, hw⟩ := hw
        rcases List.mem_cons.1 hc with rfl | hc
        · exact .inl hw
        · rw [List.mem_singleton.1 hc] at hw
          exact .inr ((hall' w hw).right (.singleton hdot))

theorem operation_cuts {budget : Nat} (hbudget : budget ≤ n) :
    Cuts A (fun _ => False) (operation limit e budget) Expr.HasPart := by
  intro feed hord x rest h
  obtain ⟨first, mid, hfirst, hloop⟩ := bind_eq_ok_iff.1 h
  obtain ⟨a, -, hcut, hall⟩ := unary_cut hv hwhole hbudget hord hfirst
  rw [hcut.split] at hord
  obtain ⟨b, hcut', hall'⟩ :=
    operators_cut hv hwhole hbudget (hwhole budget hbudget) (hcut.leads _) hall hord.right hloop
  exact ⟨a ++ b, hcut.bind hcut' (Nat.zero_le _), fun y hy => .inr (hall' y hy)⟩

end

end

/-! ## Ranges -/

/-- The range operator that comes next, if there is one. -/
def rangeAt (found : Option Lexeme) : Option Bool :=
  found.bind fun l =>
    match l.token with
    | .dotDot => some false
    | .dotDotEq => some true
    | _ => none

theorem range?_eq : range? = looks rangeAt := by
  unfold range? looks
  congr 1
  funext found
  cases found with
  | none => rfl
  | some l =>
    unfold rangeAt
    rw [Option.bind_some]
    dsimp only
    cases l.token <;> rfl

/-- Whether an operand can begin with what comes next. -/
def operandAt (found : Option Lexeme) : Bool := found.any fun l => startsOperand l.token

theorem operandFollows_eq : operandFollows = looks operandAt := rfl

theorem operandAt_closing {c : Lexeme} (hc : c.token.isClosing = true) :
    operandAt (some c) = false := by
  unfold operandAt
  cases htoken : c.token with
  | endExpr | endBlock => rw [Option.any_some, htoken]; rfl
  | _ => rw [htoken] at hc; cases hc

theorem rangeAt_eq_some {found : Option Lexeme} {inclusive : Bool}
    (h : rangeAt found = some inclusive) : ∃ l, found = some l ∧ l.token = rangeToken inclusive := by
  cases found with
  | none => cases h
  | some l =>
    unfold rangeAt at h
    rw [Option.bind_some] at h
    split at h
    · next htoken => cases h; exact ⟨l, rfl, htoken⟩
    · next htoken => cases h; exact ⟨l, rfl, htoken⟩
    · cases h

theorem rangeAt_closing {c : Lexeme} (hc : c.token.isClosing = true) : rangeAt (some c) = none := by
  unfold rangeAt
  cases htoken : c.token with
  | endExpr | endBlock => rw [Option.bind_some, htoken]
  | _ => rw [htoken] at hc; cases hc

/-- No operand begins with a range operator. -/
theorem rangeAt_of_unary {budget : Nat} {r : Expr × Feed} (h : unary limit e budget feed = .ok r) :
    rangeAt feed.lexemes.head? = none := by
  cases hrange : rangeAt feed.lexemes.head? with
  | none => rfl
  | some inclusive =>
    obtain ⟨l, hhead, htoken⟩ := rangeAt_eq_some hrange
    rw [unary.eq_def] at h
    obtain ⟨found, mid, hfound, h⟩ := bind_eq_ok_iff.1 h
    obtain ⟨rfl, rfl⟩ := unary?_eq_ok hfound
    rw [hhead, Option.bind_some] at h
    have hnone : ∀ b, unaryAt l b = none := by
      intro b
      unfold unaryAt
      rw [htoken]
      cases inclusive <;> rfl
    rw [hnone] at h
    obtain ⟨x, mid', hprimary, -⟩ := bind_eq_ok_iff.1 h
    rcases next_bind_eq_ok hprimary with ⟨hnil, -⟩ | ⟨l', mid', hls, -, hprimary⟩
    · rw [hnil] at hhead
      cases hhead
    · rw [hls] at hhead
      cases hhead
      dsimp only at hprimary
      rw [htoken] at hprimary
      cases inclusive with
      | false =>
        rw [rangeToken, if_neg (by decide)] at hprimary
        dsimp only at hprimary
        rw [if_neg (by decide), if_neg (by decide)] at hprimary
        exact (unexpected_ne_ok hprimary).elim
      | true =>
        rw [rangeToken, if_pos rfl] at hprimary
        dsimp only at hprimary
        rw [if_neg (by decide), if_neg (by decide)] at hprimary
        exact (unexpected_ne_ok hprimary).elim

theorem operation_needs (limit : Nat) (e : Nat → Reader Expr) (budget : Nat) :
    Needs (operation limit e budget) := by
  have hunary : Needs (unary limit e budget) := by
    intro c stop last r hc h
    rw [unary.eq_def, bind_apply] at h
    have hnone := unary?_rests c stop last hc
    rw [List.nil_append] at hnone
    rw [hnone] at h
    exact (primary_needs _).bind _ c stop last r hc h
  exact hunary.bind _

section

variable [Letters] {operand : Reader Expr} (hoperand : Cuts A (fun _ => False) operand Expr.HasPart)
  (hneeds : Needs operand)

include hoperand hneeds

/-- A range from its operator on; what stood before it is given. -/
theorem rangeFrom_cut (start : Option Expr) (inclusive : Bool) {l : Lexeme} {ls : List Lexeme}
    (hord : Orderly feed.lexemes) (hls : feed.lexemes = l :: ls) (hdot : l.token ≠ .dot) :
    CutAt A (fun y => ∃ x ∈ start, x.HasPart y) (rangeFrom operand start inclusive) Expr.Encloses feed ∧
      ∀ x rest, rangeFrom operand start inclusive feed = .ok (x, rest) →
        rest.lexemes.length < feed.lexemes.length := by
  have hend : ∀ (first : Nat) (op : Span) (bounded : Bool),
      Cuts A (fun y => ∃ x ∈ start, x.HasPart y) (do
        if bounded then
          let stop ← operand
          return .range start (some stop) inclusive ⟨first, stop.span.stop⟩
        else return .range start none inclusive ⟨first, op.stop⟩ : Reader Expr) Expr.Encloses := by
    refine fun first op bounded => .ite (hoperand.bind fun stop => .pure fun y hy => ?_)
      (.pure fun y hy => ?_)
    · obtain ⟨c, hc, hy⟩ := hy
      rcases List.mem_append.1 hc with hc | hc
      · exact .inr ⟨c, Option.mem_toList.1 hc, hy⟩
      · rw [List.mem_singleton.1 hc] at hy
        exact .inl hy
    · obtain ⟨c, hc, hy⟩ := hy
      rw [Expr.children, Option.toList_none, List.append_nil] at hc
      exact ⟨c, Option.mem_toList.1 hc, hy⟩
  have htail : Orderly ls := by
    rw [hls] at hord
    exact hord.tail
  obtain ⟨k, hk, hcuts⟩ : ∃ k : Span → Reader Expr,
      rangeFrom operand start inclusive = (next >>= fun _ => last >>= k) ∧
        ∀ op, Cuts A (fun y => ∃ x ∈ start, x.HasPart y) (k op) Expr.Encloses := by
    refine ⟨_, rfl, fun op => Cuts.ite ?_ ?_⟩
    · exact Cuts.after (.give true) fun bounded => hend _ op bounded
    · rw [operandFollows_eq, looks_bind]
      refine .peek (fun found => hend _ op _) fun found => ?_
      cases hfound : operandAt found with
      | true => exact .inl (hneeds.bind _)
      | false => exact .inr fun c hc => by rw [operandAt_closing hc]
  rw [hk]
  refine ⟨.next_last hls hdot (hcuts l.span _ htail), fun x rest h => ?_⟩
  rw [next_last_run hls] at h
  obtain ⟨used, hcut, -⟩ := hcuts l.span _ htail x rest h
  rw [hls]
  exact Nat.lt_succ_of_le hcut.length_le

/-- What comes after an operand that may stand in front of a range operator. -/
def rangedFrom (operand : Reader Expr) (x : Expr) : Reader Expr := do
  match ← range? with
  | some inclusive => rangeFrom operand (some x) inclusive
  | none => return x

/-- A range operator is seen, and the range is read from there on. -/
theorem rangeSeen_cut (start : Option Expr) {inclusive : Bool} {k : Option Lexeme → Reader Expr}
    (hord : Orderly feed.lexemes) (hrange : rangeAt feed.lexemes.head? = some inclusive)
    (hk : k feed.lexemes.head? = rangeFrom operand start inclusive) :
    CutAt A (fun y => ∃ x ∈ start, x.HasPart y) (peek >>= k) Expr.Encloses feed := by
  obtain ⟨l, hhead, htoken⟩ := rangeAt_eq_some hrange
  obtain ⟨ls, hls⟩ := List.head?_eq_some_iff.1 hhead
  have hdot : l.token ≠ .dot := by
    rw [htoken]
    cases inclusive <;> decide
  obtain ⟨hcut, hshorter⟩ := rangeFrom_cut hoperand hneeds start inclusive hord hls hdot
  rw [← hk] at hcut hshorter
  refine .peek hcut (.inl fun y rest h heq => ?_)
  have hlt := hshorter y rest h
  rw [heq] at hlt
  exact Nat.lt_irrefl _ hlt

/-- What stands behind an operand: a range operator, or the end of the expression. -/
theorem rangedFrom_cuts (x : Expr) : Cuts A x.HasPart (rangedFrom operand x) Expr.Encloses := by
  intro feed hord
  unfold rangedFrom
  rw [range?_eq, looks_bind]
  cases hrange : rangeAt feed.lexemes.head? with
  | none =>
    refine .peek ?_ (.inr fun c hc => ?_)
    · rw [hrange]
      exact .pure fun y hy => Expr.hasPart_iff.2 (.inr hy)
    · rw [hrange, rangeAt_closing hc]
  | some inclusive =>
    refine (rangeSeen_cut hoperand hneeds (some x) hord hrange (by rw [hrange])).mono
      (fun _ _ h => h) fun y hy => ?_
    obtain ⟨z, hz, hy⟩ := hy
    cases hz
    exact hy

/-- An operand and a range operator behind it, if there is one. -/
theorem ranged_cuts (hclosed : ∀ part x, Closes (ranged operand) part x → A part x) :
    Cuts A (fun _ => False) (ranged operand) Expr.HasPart := by
  have hcuts : Cuts A (fun _ => False) (ranged operand) Expr.Encloses := by
    intro feed hord
    unfold ranged
    rw [range?_eq, looks_bind, ← range?_eq]
    cases hrange : rangeAt feed.lexemes.head? with
    | none =>
      have hboth : CutAt A (fun _ => False) _ _ feed := hoperand.bind
        (fun x => (rangedFrom_cuts hoperand hneeds x).mono (fun _ _ h => h) fun _ h => .inl h) feed hord
      refine .peek ?_ (.inl fun y rest h heq => ?_)
      · rw [hrange]
        exact hboth
      · rw [hrange] at h
        obtain ⟨used, hcut, -⟩ := hboth y rest h
        exact hcut.ne_nil_of_needs (hneeds.bind _) (List.self_eq_append_left.1 (heq ▸ hcut.split))
    | some inclusive =>
      refine (rangeSeen_cut hoperand hneeds none hord hrange (by rw [hrange])).mono
        (fun _ _ h => h) fun y hy => ?_
      obtain ⟨z, hz, -⟩ := hy
      cases hz
  -- The parts of a range are the range itself and those of its ends.
  intro feed hord x rest h
  obtain ⟨used, hcut, hparts⟩ := hcuts feed hord x rest h
  refine ⟨used, hcut, fun y hy => ?_⟩
  rcases Expr.hasPart_iff.1 hy with rfl | hy
  · exact .inr (.whole (hclosed used y fun c stop last hc => hcut.closed hc stop last))
  · exact hparts y hy

end

/-! ## Full expressions -/

section

variable {e' : Nat → Reader Expr}

theorem suffixes_congr {budget : Nat} (h : ∀ k ≤ budget, e k = e' k) (x : Expr) :
    suffixes limit e budget x = suffixes limit e' budget x := by
  induction budget generalizing x with
  | zero => rw [suffixes.eq_def, suffixes.eq_def limit e']
  | succ budget ih =>
    have hless := ih fun k hk => h k (Nat.le_succ_of_le hk)
    rw [suffixes.eq_def, suffixes.eq_def limit e']
    simp only [h budget (Nat.le_succ budget), hless]

theorem unary_congr {budget : Nat} (h : ∀ k ≤ budget, e k = e' k) :
    unary limit e budget = unary limit e' budget := by
  have htested : ∀ b, (∀ k ≤ b, e k = e' k) → tested limit e b = tested limit e' b := by
    intro b hb
    rw [tested_eq, tested_eq, hb b (Nat.le_refl b), funext (suffixes_congr hb)]
  induction budget with
  | zero => rw [unary.eq_def, unary.eq_def limit e', htested 0 h]
  | succ budget ih =>
    have hless := ih fun k hk => h k (Nat.le_succ_of_le hk)
    rw [unary.eq_def, unary.eq_def limit e', htested _ h]
    simp only [hless]

theorem operators_congr {budget : Nat} (h : ∀ k ≤ budget, e k = e' k) (min : Nat) (x : Expr) :
    operators limit e budget min x = operators limit e' budget min x := by
  induction budget generalizing min x with
  | zero => rw [operators.eq_def, operators.eq_def limit e']
  | succ budget ih =>
    have hlower : ∀ k ≤ budget, e k = e' k := fun k hk => h k (Nat.le_succ_of_le hk)
    rw [operators.eq_def, operators.eq_def limit e']
    simp only [h budget (Nat.le_succ budget), unary_congr hlower, ih hlower]

end

/-- An expression is read one level down; the layers ask for no larger budgets than their own. -/
theorem exprWithin_eq (limit budget : Nat) :
    (exprWithin limit (budget + 1) : Reader Expr) =
      ranged (operation limit (exprWithin limit) budget) := by
  have hsame : ∀ k ≤ budget, (if k ≤ budget then exprWithin limit k else beyond limit : Reader Expr) =
      exprWithin limit k :=
    fun k hk => if_pos hk
  rw [exprWithin_succ, within_feed]
  unfold operation
  rw [unary_congr hsame, funext fun x => operators_congr hsame 0 x]

/-- In a tag that holds nothing else, the expression is read from the lexemes. -/
def StandsAlone (limit : Nat) (part : List Lexeme) (x : Expr) : Prop := Closes (expr limit) part x

theorem Closes.relax {α : Type} {p q : Reader α} {part : List Lexeme} {x : α} (h : Closes p part x)
    (hpq : Relaxes limit p q) : Closes q part x := by
  intro c stop last hc
  have hp := h c stop last hc
  rcases hpq ⟨part ++ [c], stop, last⟩ with ⟨place, hdeep⟩ | hsame
  · rw [hdeep] at hp
    cases hp
  · rw [← hsame]
    exact hp

/-- Operands with operators between them are a full expression. -/
theorem Closes.ranged {budget : Nat} {part : List Lexeme} {x : Expr}
    (h : Closes (operation limit e budget) part x) :
    Closes (ranged (operation limit e budget)) part x := by
  intro c stop last hc
  have hrun := h c stop last hc
  obtain ⟨first, mid, hfirst, -⟩ := bind_eq_ok_iff.1 hrun
  have hbefore : range? (⟨part ++ [c], stop, last⟩ : Feed) = .ok (none, ⟨part ++ [c], stop, last⟩) := by
    have hne : part ++ [c] ≠ [] := List.append_ne_nil_of_right_ne_nil part (List.cons_ne_nil c [])
    obtain ⟨l, ls, hls⟩ := List.exists_cons_of_ne_nil hne
    have hnone := rangeAt_of_unary hfirst
    dsimp only at hnone
    rw [hls, List.head?_cons] at hnone
    rw [range?_eq, looks_run hls, hnone]
  have hbehind : range? (⟨[c], stop, last.after part⟩ : Feed) = .ok (none, ⟨[c], stop, last.after part⟩) := by
    rw [range?_eq, looks_run rfl, rangeAt_closing hc]
  unfold Reader.ranged
  rw [bind_apply, hbefore]
  dsimp only
  rw [bind_apply, hrun]
  dsimp only
  rw [bind_apply, hbehind]
  rfl

theorem exprWithin_cuts [Letters] {budget : Nat} (hbudget : budget ≤ limit) :
    Cuts (StandsAlone limit) (fun _ => False) (exprWithin limit budget) Expr.HasPart := by
  induction budget using Nat.strongRecOn with
  | ind budget ih =>
    cases budget with
    | zero =>
      rw [exprWithin_zero]
      exact .tooDeep limit
    | succ budget =>
      have hv : ∀ k ≤ budget,
          Cuts (StandsAlone limit) (fun _ => False) (exprWithin limit k) Expr.HasPart :=
        fun k hk => ih k (Nat.lt_succ_of_le hk) (by omega)
      have hrelax : ∀ k ≤ limit, Relaxes limit (exprWithin limit k) (expr limit) := by
        intro k hk
        obtain ⟨more, rfl⟩ := Nat.exists_eq_add_of_le' hk
        exact exprWithin_relaxes _ _ more k
      rw [exprWithin_eq]
      refine ranged_cuts (operation_cuts hv (fun b hb part x h => ?_) (Nat.le_refl budget))
        (operation_needs _ _ _) fun part x h => ?_
      · have hclosed := h.ranged
        rw [← exprWithin_eq] at hclosed
        exact hclosed.relax (hrelax (b + 1) (by omega))
      · rw [← exprWithin_eq] at h
        exact h.relax (hrelax (budget + 1) hbudget)

/-- The tag may be closed behind a full expression, and everything that occurs in it stands alone. -/
theorem expr_cuts [Letters] (limit : Nat) :
    Cuts (StandsAlone limit) (fun _ => False) (expr limit) Expr.HasPart :=
  exprWithin_cuts (Nat.le_refl limit)

end Reader

end Stencil
