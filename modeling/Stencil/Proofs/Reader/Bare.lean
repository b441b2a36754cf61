/-
  Bare — what readers do on lexemes that are known.

  Where the lexemes stand plays no part in what they are read as, so it is enough to follow a reader on
  a feed without places (`bareFeed`); all spans are then empty, and so are their joins.

  For each small reader there is an equation that says what it gives when the next lexemes are known.
  `bind_of_ok` puts them together: a reader is followed by rewriting with what its parts give.  Of
  the loops, `seq` reads back a bracketed list if its item reader reads back the items; what an item
  reader needs to know of its surroundings is that a comma or the closing bracket follows.  In the same
  way `many` reads back a row of items.
-/
import Stencil.Proofs.Expr.Listing
import Stencil.Proofs.Uniform.Reader

namespace Stencil

/-- The lexemes as a feed, all places forgotten. -/
def bareFeed (stop : Lexer.Stop) (ls : List Lexeme) : Feed := ⟨bare ls, stop, ⟨0, 0⟩⟩

/-! ## What a bare value is -/

@[simp] theorem token_bare (l : Lexeme) : (bare l).token = l.token := rfl

@[simp] theorem text_bare (l : Lexeme) : (bare l).text = l.text := rfl

@[simp] theorem span_bare (l : Lexeme) : (bare l).span = ⟨0, 0⟩ := rfl

@[simp] theorem Expr.span_bare (e : Expr) : (bare e).span = ⟨0, 0⟩ := Expr.span_move _ e

@[simp] theorem Args.span_bare (xs : Args) : (bare xs).span = ⟨0, 0⟩ := Args.span_move _ xs

@[simp] theorem Filter.span_bare (f : Filter) : (bare f).span = ⟨0, 0⟩ := Filter.span_move _ f

@[simp] theorem Key.span_bare (k : Key) : (bare k).span = ⟨0, 0⟩ := Key.span_move _ k

theorem Args.bare_mk (xs : List Arg) (s : Span) :
    bare (Args.mk xs s) = .mk (bare xs) ⟨0, 0⟩ := Args.move_mk _ xs s

theorem Filter.bare_mk (i : Ident) (xs : Option Args) (s : Span) :
    bare (Filter.mk i xs s) = .mk (bare i) (bare xs) ⟨0, 0⟩ := Filter.move_mk _ i xs s

theorem Expr.bare_range (a b : Option Expr) (i : Bool) (s : Span) :
    bare (Expr.range a b i s) = .range (bare a) (bare b) i ⟨0, 0⟩ := Expr.move_range _ a b i s

theorem Expr.bare_array (es : List Expr) (s : Span) :
    bare (Expr.array es s) = .array (bare es) ⟨0, 0⟩ := Expr.move_array _ es s

theorem Expr.bare_tuple (es : List Expr) (s : Span) :
    bare (Expr.tuple es s) = .tuple (bare es) ⟨0, 0⟩ := Expr.move_tuple _ es s

theorem Expr.bare_filter (a : Expr) (fs : List Filter) (s : Span) :
    bare (Expr.filter a fs s) = .filter (bare a) (bare fs) ⟨0, 0⟩ := Expr.move_filter _ a fs s

@[simp] theorem Span.join_zero : Span.join ⟨0, 0⟩ ⟨0, 0⟩ = ⟨0, 0⟩ := rfl

/-- A name is what its lexeme spells. -/
theorem Ident.Spelled.identOf {P : Span → List Lexeme → Prop} {i : Ident} {l : Lexeme}
    (h : i.Spelled P l) : Reader.identOf (bare l) = bare i := by
  show Ident.mk (String.ofList l.text) ⟨0, 0⟩ = ⟨i.name, ⟨0, 0⟩⟩
  rw [h.1.2, String.ofList_toList]

theorem Ident.Spelled.token_ne_macroName {P : Span → List Lexeme → Prop} {i : Ident} {l : Lexeme}
    (h : i.Spelled P l) : l.token ≠ .macroName := by
  rw [h.1.1]
  unfold wordToken
  split <;> exact Token.noConfusion

/-- The token of a name can be used as a name. -/
theorem isName_wordToken [Letters] {s : String} (h : isName s = true) : (wordToken s).isName = true := by
  rw [isName, Bool.and_eq_true] at h
  unfold wordToken
  cases hk : Keyword.ofString? s with
  | none => rfl
  | some k =>
    rw [hk] at h
    exact h.2

namespace Reader

variable {α β : Type} {stop : Lexer.Stop} {l m : Lexeme} {ls rest : List Lexeme}

/-! ## Small readers -/

theorem map_of_ok {p : Reader α} {f : α → β} {feed mid : Feed} {a : α}
    (h : p feed = .ok (a, mid)) : (f <$> p) feed = .ok (f a, mid) :=
  bind_of_ok h

theorem peek_bare :
    peek (bareFeed stop (l :: ls)) = .ok (some (bare l), bareFeed stop (l :: ls)) := rfl

theorem next_bare : next (bareFeed stop (l :: ls)) = .ok (some (bare l), bareFeed stop ls) := rfl

theorem last_bare : last (bareFeed stop ls) = .ok (⟨0, 0⟩, bareFeed stop ls) := rfl

theorem nextIs_bare (t : Token) :
    nextIs t (bareFeed stop (l :: ls)) = .ok (l.token == t, bareFeed stop (l :: ls)) := rfl

theorem secondIs_bare (t : Token) :
    secondIs t (bareFeed stop (l :: m :: ls)) =
      .ok (m.token == t, bareFeed stop (l :: m :: ls)) := rfl

theorem nextIs_of_eq {t : Token} (h : l.token = t) :
    nextIs t (bareFeed stop (l :: ls)) = .ok (true, bareFeed stop (l :: ls)) := by
  rw [nextIs_bare, h, beq_self_eq_true]

theorem nextIs_of_ne {t : Token} (h : l.token ≠ t) :
    nextIs t (bareFeed stop (l :: ls)) = .ok (false, bareFeed stop (l :: ls)) := by
  rw [nextIs_bare, beq_eq_false_iff_ne.2 h]

theorem eat_of_eq {t : Token} (h : l.token = t) :
    eat t (bareFeed stop (l :: ls)) = .ok (some (bare l), bareFeed stop ls) := by
  unfold eat
  rw [bind_of_ok (nextIs_of_eq h)]
  rfl

theorem eat_of_ne {t : Token} (h : l.token ≠ t) :
    eat t (bareFeed stop (l :: ls)) = .ok (none, bareFeed stop (l :: ls)) := by
  unfold eat
  rw [bind_of_ok (nextIs_of_ne h)]
  rfl

theorem eats_of_eq {t : Token} (h : l.token = t) :
    eats t (bareFeed stop (l :: ls)) = .ok (true, bareFeed stop ls) := by
  unfold eats
  rw [bind_of_ok (eat_of_eq h)]
  rfl

theorem eats_of_ne {t : Token} (h : l.token ≠ t) :
    eats t (bareFeed stop (l :: ls)) = .ok (false, bareFeed stop (l :: ls)) := by
  unfold eats
  rw [bind_of_ok (eat_of_ne h)]
  rfl

theorem expect_of_eq {t : Token} (h : l.token = t) :
    expect t (bareFeed stop (l :: ls)) = .ok (bare l, bareFeed stop ls) := by
  unfold expect
  rw [bind_of_ok next_bare]
  dsimp only
  rw [token_bare, if_pos h]
  rfl

theorem ident_of_spelled [Letters] {P : Span → List Lexeme → Prop} {i : Ident} (h : i.Spelled P l)
    (hname : isName i.name = true) :
    ident (bareFeed stop (l :: ls)) = .ok (bare i, bareFeed stop ls) := by
  have htoken : l.token.isName = true := by rw [h.1.1]; exact isName_wordToken hname
  unfold ident
  rw [bind_of_ok next_bare]
  dsimp only
  rw [token_bare, if_pos htoken, nameOf_feed, h.identOf]
  rfl

/-! ## Bracketed lists -/

end Reader

/-- The items of a list are among its items, and their listings are no longer than that of the
    list. -/
theorem Commas.bounded {α : Type} {R : α → List Lexeme → Prop} {xs : List α} {trailing : Bool}
    {ls : List Lexeme} (h : Commas R xs trailing ls) :
    Commas (fun x a => R x a ∧ x ∈ xs ∧ a.length ≤ ls.length) xs trailing ls := by
  induction h with
  | none => exact .none
  | last hx => exact .last ⟨hx, List.mem_cons_self, Nat.le_refl _⟩
  | trailing hx hc => exact .trailing ⟨hx, List.mem_cons_self, by simp⟩ hc
  | more hx hc _ ih =>
    refine .more ⟨hx, List.mem_cons_self, by simp⟩ hc (ih.imp ?_)
    rintro y b ⟨hy, hmem, hle⟩
    refine ⟨hy, List.mem_cons_of_mem _ hmem, ?_⟩
    simp only [List.length_append, List.length_cons]
    omega

namespace Reader

variable {α : Type} [Placed α] {stop : Lexer.Stop}

/-- A bracketed list is read back from its listing, if its items are. -/
theorem seqFrom_bare {R : α → List Lexeme → Prop} {item : Reader α} {close : Token}
    (hitem : ∀ x a c more, R x a → (c.token = .comma ∨ c.token = close) →
      item (bareFeed stop (a ++ c :: more)) = .ok (bare x, bareFeed stop (c :: more)))
    (hhead : ∀ x a, R x a → ∃ l b, a = l :: b ∧ l.token ≠ close) (hclose : close ≠ .comma)
    {xs : List α} {trailing : Bool} {ls : List Lexeme} (h : Commas R xs trailing ls)
    {c : Lexeme} {more : List Lexeme} (hc : c.token = close) {fuel : Nat}
    (hfuel : ls.length ≤ fuel) (before : Bool) :
    seqFrom close item fuel before (bareFeed stop (ls ++ c :: more)) =
      .ok (⟨bare xs, if xs.isEmpty then before else trailing, ⟨0, 0⟩⟩, bareFeed stop more) := by
  -- An item is read where no bracket closes the list.
  have hround : ∀ x a c more, R x a → (c.token = .comma ∨ c.token = close) →
      eat close (bareFeed stop (a ++ c :: more)) = .ok (none, bareFeed stop (a ++ c :: more)) ∧
      item (bareFeed stop (a ++ c :: more)) = .ok (bare x, bareFeed stop (c :: more)) := by
    intro x a c more hx hc
    obtain ⟨l, b, rfl, hl⟩ := hhead x a hx
    exact ⟨eat_of_ne hl, hitem x _ c more hx hc⟩
  induction h generalizing fuel before with
  | none =>
    unfold seqFrom
    rw [List.nil_append, bind_of_ok (eat_of_eq hc)]
    rfl
  | @last x a hx =>
    obtain ⟨heat, hread⟩ := hround x a c more hx (.inr hc)
    have hcomma : ¬ c.token = .comma := by rw [hc]; exact hclose
    unfold seqFrom
    rw [bind_of_ok heat]
    dsimp only
    rw [bind_of_ok hread, bind_of_ok next_bare]
    dsimp only
    rw [token_bare, if_neg hcomma, if_pos hc]
    rfl
  | @trailing x a comma hx hcomma =>
    obtain ⟨heat, hread⟩ := hround x a comma (c :: more) hx (.inl hcomma.1)
    cases fuel with
    | zero => simp at hfuel
    | succ fuel =>
      have hend : seqFrom close item fuel true (bareFeed stop (c :: more)) =
          .ok (⟨[], true, ⟨0, 0⟩⟩, bareFeed stop more) := by
        unfold seqFrom
        rw [bind_of_ok (eat_of_eq hc)]
        rfl
      unfold seqFrom
      rw [List.append_assoc, List.singleton_append, bind_of_ok heat]
      dsimp only
      rw [bind_of_ok hread, bind_of_ok next_bare]
      dsimp only
      rw [token_bare, if_pos hcomma.1, bind_of_ok hend]
      rfl
  | @more x y ys trailing a b comma hx hcomma hrest ih =>
    obtain ⟨heat, hread⟩ := hround x a comma (b ++ c :: more) hx (.inl hcomma.1)
    simp only [List.length_append, List.length_cons] at hfuel
    cases fuel with
    | zero => omega
    | succ fuel =>
      unfold seqFrom
      rw [List.append_assoc, List.cons_append, bind_of_ok heat]
      dsimp only
      rw [bind_of_ok hread, bind_of_ok next_bare]
      dsimp only
      rw [token_bare, if_pos hcomma.1, bind_of_ok (ih (by omega) true)]
      rfl

theorem seq_bare {R : α → List Lexeme → Prop} {item : Reader α} {close : Token}
    (hitem : ∀ x a c more, R x a → (c.token = .comma ∨ c.token = close) →
      item (bareFeed stop (a ++ c :: more)) = .ok (bare x, bareFeed stop (c :: more)))
    (hhead : ∀ x a, R x a → ∃ l b, a = l :: b ∧ l.token ≠ close) (hclose : close ≠ .comma)
    {xs : List α} {trailing : Bool} {ls : List Lexeme} (h : Commas R xs trailing ls)
    {c : Lexeme} {more : List Lexeme} (hc : c.token = close) :
    seq close item (bareFeed stop (ls ++ c :: more)) =
      .ok (⟨bare xs, trailing, ⟨0, 0⟩⟩, bareFeed stop more) := by
  have hfuel : ls.length ≤ left (bareFeed stop (ls ++ c :: more)) := by
    show ls.length ≤ (List.map _ (ls ++ c :: more)).length
    rw [List.length_map, List.length_append]
    omega
  unfold seq
  rw [seqFrom_bare hitem hhead hclose h hc hfuel false]
  cases h <;> rfl

end Reader

/-! ## Rows -/

/-- Items in a row, each listed by lexemes of its own. -/
inductive Row {α : Type} (R : α → List Lexeme → Prop) : List α → List Lexeme → Prop
  | nil : Row R [] []
  | cons {x : α} {xs : List α} {a b : List Lexeme} (hx : R x a) (hne : a ≠ []) (h : Row R xs b) :
      Row R (x :: xs) (a ++ b)

namespace Row

variable {α : Type} {R : α → List Lexeme → Prop} {xs ys : List α} {a b : List Lexeme}

theorem append (h : Row R xs a) (h' : Row R ys b) : Row R (xs ++ ys) (a ++ b) := by
  induction h with
  | nil => exact h'
  | cons hx hne _ ih =>
    rw [List.append_assoc]
    exact .cons hx hne ih

/-- The items of a row are among its items, and their listings are no longer than that of the row. -/
theorem bounded (h : Row R xs a) : Row (fun x b => R x b ∧ x ∈ xs ∧ b.length ≤ a.length) xs a := by
  have imp : ∀ {S : α → List Lexeme → Prop} {ys : List α} {b : List Lexeme}, Row R ys b →
      (∀ x c, R x c → x ∈ ys → c.length ≤ b.length → S x c) → Row S ys b := by
    intro S ys b hrow
    induction hrow with
    | nil => exact fun _ => .nil
    | cons hx hne _ ih =>
      intro hS
      refine .cons (hS _ _ hx List.mem_cons_self (by simp)) hne (ih fun y c hy hmem hle => ?_)
      refine hS y c hy (List.mem_cons_of_mem _ hmem) ?_
      rw [List.length_append]
      omega
  exact imp h fun x c hx hmem hle => ⟨hx, hmem, hle⟩

end Row

namespace Reader

variable {α : Type} [Placed α] {stop : Lexer.Stop}

/-- A row of items is read back up to where there is no further one.  `G` is what an item reader has to
    know of what follows: the next item has it, and so has what ends the row. -/
theorem many_bare {R : α → List Lexeme → Prop} {G : List Lexeme → Prop} {item : Reader (Option α)}
    (hitem : ∀ x a more, R x a → G more →
      item (bareFeed stop (a ++ more)) = .ok (some (bare x), bareFeed stop more))
    (hnext : ∀ x a more, R x a → G (a ++ more)) {rest : List Lexeme} (hrest : G rest)
    (hend : item (bareFeed stop rest) = .ok (none, bareFeed stop rest)) {xs : List α}
    {ls : List Lexeme} (h : Row R xs ls) :
    many item (bareFeed stop (ls ++ rest)) = .ok (bare xs, bareFeed stop rest) := by
  have hfrom : ∀ fuel, ls.length < fuel →
      manyFrom item fuel (bareFeed stop (ls ++ rest)) = .ok (bare xs, bareFeed stop rest) := by
    -- Behind an item stands the next one or the rest, and both are good to stop at.
    induction h with
    | nil =>
      intro fuel hfuel
      cases fuel with
      | zero => omega
      | succ fuel =>
        unfold manyFrom
        rw [List.nil_append, bind_of_ok hend]
        rfl
    | @cons x xs a b hx hne htail ih =>
      intro fuel hfuel
      have hpos := List.length_pos_iff.2 hne
      rw [List.length_append] at hfuel
      have hgood : G (b ++ rest) := by
        cases htail with
        | nil => exact hrest
        | cons hy _ _ => rw [List.append_assoc]; exact hnext _ _ _ hy
      cases fuel with
      | zero => omega
      | succ fuel =>
        unfold manyFrom
        rw [List.append_assoc, bind_of_ok (hitem x a _ hx hgood)]
        dsimp only
        rw [bind_of_ok (ih fuel (by omega))]
        rfl
  refine hfrom _ ?_
  show ls.length < (List.map _ (ls ++ rest)).length + 1
  rw [List.length_map, List.length_append]
  omega

end Reader

end Stencil
