/-
  Shown — the expression that the printed text of an expression spells out.

  The printer puts parentheses around every operator application and leaves those of the source where
  they are.  What its text shows is therefore not the expression itself but the one with groups added,
  `Expr.shown`.  Groups only matter for reading: taking all of them away (`Expr.ungroup`) gives the
  same tree before and after.

  There is one exception.  The item of a plain number, as in `1 .0`, is printed without the blank, and
  what the text shows then is another number.  An expression without such a part is legible, and these
  are exactly the expressions that are shown as they are, up to groups (`ungroup_shown_iff`).

  With all operators in groups every operand has the rank of a primary, so what is shown of a normal
  expression is normal (`Normal.shown`).
-/
import Stencil.Proofs.Expr.Front
import Stencil.Proofs.Expr.Rebuild

namespace Stencil

/-! ## Numbers that go on after a dot -/

/-- Whether the constant is a number that a fraction after it would join. -/
def Literal.isPlainNumber : Literal → Bool
  | num n => n.raw.toList.all Numeral.isDigitOrBar
  | _ => false

/-- The number with a fraction after it. -/
def Number.withFraction (n : Number) (v : Nat) : Number :=
  ⟨n.raw ++ "." ++ v.repr, .float, none, n.negative⟩

namespace Numeral

variable {c : Char} {row digits : List Char}

/-- A row of digits, a dot and another row of digits are the extent of one number. -/
theorem extent_fraction (hrow : row.all isDigitOrBar = true)
    (hdigits : digits.all (·.isDigit) = true) (hstart : startsDigit digits = true) :
    extent true true (row ++ '.' :: digits) = (row ++ '.' :: digits).length := by
  induction row with
  | nil =>
    rw [List.nil_append, extent_cons, if_neg (by decide), if_pos (by rw [hstart]; rfl),
      extent_digits true false hdigits, List.length_cons]
  | cons c row ih =>
    rw [List.all_cons, Bool.and_eq_true] at hrow
    rw [List.cons_append, extent_cons, if_pos hrow.1, ih hrow.2, List.length_cons]

/-- What follows the first digit begins with another one, a bar or the dot; no radix mark does. -/
theorem head?_row_ne {m : Char} (hrow : row.all isDigitOrBar = true) (hm : isDigitOrBar m = false)
    (hdot : m ≠ '.') : (row ++ '.' :: digits).head? ≠ some m := by
  intro heq
  cases row with
  | nil =>
    cases heq
    exact hdot rfl
  | cons d row =>
    cases heq
    rw [List.all_cons, hm] at hrow
    cases hrow

theorem more_fraction (c : Char) (hrow : row.all isDigitOrBar = true)
    (hdigits : digits.all (·.isDigit) = true) (hstart : startsDigit digits = true) :
    more c (row ++ '.' :: digits) = (row ++ '.' :: digits).length := by
  unfold more
  rw [beq_false_of_ne (head?_row_ne hrow (by decide) (by decide) : _ ≠ some 'x'),
    beq_false_of_ne (head?_row_ne hrow (by decide) (by decide) : _ ≠ some 'o'),
    beq_false_of_ne (head?_row_ne hrow (by decide) (by decide) : _ ≠ some 'b'), Bool.or_self,
    Bool.or_self, Bool.and_false]
  exact extent_fraction hrow hdigits hstart

theorem split?_fraction (hc : c.isDigit = true) (hrow : row.all isDigitOrBar = true)
    (hdigits : digits.all (·.isDigit) = true) (hstart : startsDigit digits = true) :
    split? (c :: (row ++ '.' :: digits)) = some (.float, []) := by
  have hdrop : (c :: (row ++ '.' :: digits)).dropWhile isDigitOrBar = '.' :: digits := by
    rw [List.dropWhile_cons_of_pos (isDigitOrBar_of_isDigit hc),
      List.dropWhile_append_of_pos (List.all_eq_true.1 hrow)]
    exact List.dropWhile_cons_of_neg (by decide)
  have hend : digits.dropWhile isDigitOrBar = [] := by
    rw [List.dropWhile_eq_nil_iff]
    exact fun x hx => isDigitOrBar_of_isDigit (List.all_eq_true.1 hdigits x hx)
  have hdecimal : splitDecimal? (c :: (row ++ '.' :: digits)) = some (.float, []) := by
    rw [splitDecimal?, hdrop, fraction?, if_pos hstart, hend]
    rfl
  have hmark : ∀ {m : Char} {more : List Char}, isDigitOrBar m = false → m ≠ '.' →
      row ++ '.' :: digits ≠ m :: more := by
    intro m more hm hdot heq
    exact head?_row_ne hrow hm hdot (by rw [heq]; rfl)
  unfold split?
  split
  · next heq => exact absurd (List.cons.inj heq).2 (hmark (by decide) (by decide))
  · next heq => exact absurd (List.cons.inj heq).2 (hmark (by decide) (by decide))
  · next heq => exact absurd (List.cons.inj heq).2 (hmark (by decide) (by decide))
  · next heq => rw [← (List.cons.inj heq).1, ← (List.cons.inj heq).2, if_pos hc, hdecimal]
  · next heq => cases heq

end Numeral

theorem all_isDigit_toDigits (v : Nat) : (Nat.toDigits 10 v).all (·.isDigit) = true :=
  List.all_eq_true.2 fun _ hc => Nat.isDigit_of_mem_toDigits (by decide) (by decide) hc

/-- A plain number can be written with a fraction. -/
theorem Number.IsWritten.withFraction {n : Number} (hn : n.IsWritten)
    (hplain : n.raw.toList.all Numeral.isDigitOrBar = true) (v : Nat) : (n.withFraction v).IsWritten := by
  have hdigits := all_isDigit_toDigits v
  have hstart : Numeral.startsDigit (Nat.toDigits 10 v) = true := by
    obtain ⟨d, ds, hcons⟩ := List.exists_cons_of_ne_nil (Nat.toDigits_ne_nil (b := 10) (n := v))
    rw [hcons, List.all_cons, Bool.and_eq_true] at hdigits
    rw [hcons]
    exact hdigits.1
  have htext : (n.withFraction v).raw.toList = n.raw.toList ++ '.' :: Nat.toDigits 10 v := by
    simp [Number.withFraction, Nat.repr]
  have hraw := hn.1
  cases hcs : n.raw.toList with
  | nil => rw [hcs] at hraw; cases hraw
  | cons c row =>
    rw [hcs] at hraw hplain htext
    simp only [isNumeral, Bool.and_eq_true] at hraw
    rw [List.all_cons, Bool.and_eq_true] at hplain
    have hsplit := Numeral.split?_fraction hraw.1.1 hplain.2 hdigits hstart
    rw [Number.IsWritten, htext, List.cons_append]
    constructor
    · rw [isNumeral, hraw.1.1, Numeral.more_fraction c hplain.2 hdigits hstart, hsplit, beq_self_eq_true]
      rfl
    · have hof : String.ofList (c :: (row ++ '.' :: Nat.toDigits 10 v)) = (n.withFraction v).raw := by
        rw [← List.cons_append, ← htext, String.ofList_toList]
      rw [Numeral.number?, hsplit]
      show some (Number.mk (String.ofList _) .float none n.negative) = _
      rw [hof]
      rfl

/-! ## Legible expressions -/

namespace Expr

/-- Whether the expression is a number that a fraction after it would join. -/
def isPlainNumber : Expr → Bool
  | lit v _ => v.isPlainNumber
  | _ => false

/-- Whether the expression takes an item of a plain number by its index. -/
def isIndexedNumber : Expr → Bool
  | field a (.index _ _) _ => a.isPlainNumber
  | _ => false

/-- Whether no part of the expression is an item of a plain number. -/
def Legible (e : Expr) : Prop := ∀ x, e.HasPart x → x.isIndexedNumber = false

theorem legible_iff {e : Expr} :
    e.Legible ↔ e.isIndexedNumber = false ∧ ∀ x ∈ e.children, x.Legible := by
  constructor
  · exact fun h => ⟨h e (.self e), fun x hx y hy => h y (.child hx hy)⟩
  · rintro ⟨hself, hchildren⟩ x hx
    cases hx with
    | self => exact hself
    | child hc hx => exact hchildren _ hc x hx

/-- Looks for an item of a plain number, at most `fuel` levels deep. -/
def isLegibleTo : Nat → Expr → Bool
  | 0, _ => false
  | fuel + 1, e => !e.isIndexedNumber && e.children.all (isLegibleTo fuel)

theorem isLegibleTo_iff {fuel : Nat} {e : Expr} (h : e.height ≤ fuel) :
    isLegibleTo fuel e = true ↔ e.Legible := by
  induction fuel generalizing e with
  | zero => exact absurd e.height_pos (Nat.not_lt.2 h)
  | succ fuel ih =>
    have hchildren := height_le_succ_iff.1 h
    rw [isLegibleTo, legible_iff, Bool.and_eq_true, Bool.not_eq_true', List.all_eq_true]
    exact and_congr_right fun _ => forall₂_congr fun x hx => ih (hchildren x hx)

instance (e : Expr) : Decidable e.Legible :=
  decidable_of_iff (isLegibleTo e.height e = true) (isLegibleTo_iff (Nat.le_refl _))

theorem isIndexedNumber_eq_true {e : Expr} (h : e.isIndexedNumber = true) :
    ∃ n s v t u, e = field (lit (.num n) s) (.index v t) u ∧
      n.raw.toList.all Numeral.isDigitOrBar = true := by
  cases e with
  | field a k u =>
    cases k with
    | name i => cases h
    | index v t =>
      cases a with
      | lit w s =>
        cases w with
        | num n => exact ⟨n, s, v, t, u, rfl, h⟩
        | _ => cases h
      | _ => cases h
  | _ => cases h

/-! ## Groups taken away and put in -/

/-- What a group holds; any other expression. -/
def unwrapped : Expr → Expr
  | group a _ => a
  | e => e

/-- The expression without the parentheses that only group. -/
def ungroup : Expr → Expr := rebuild unwrapped

/-- The number that an item of a plain number is printed as; any other expression. -/
def fused (e : Expr) : Expr :=
  match e with
  | field (lit (.num n) _) (.index v _) s =>
    if n.raw.toList.all Numeral.isDigitOrBar then .lit (.num (n.withFraction v)) s else e
  | _ => e

/-- An operator application in a group; any other expression as it is printed. -/
def wrapped (e : Expr) : Expr := if e.rank < 14 then .group e e.span else e.fused

/-- The expression that the printed text shows: every operator application is in a group, and an item
    of a plain number has become a number. -/
def shown : Expr → Expr := rebuild wrapped

theorem ungroup_eq (e : Expr) : e.ungroup = (e.mapChildren ungroup).unwrapped := rebuild_eq _ e

theorem shown_eq (e : Expr) : e.shown = (e.mapChildren shown).wrapped := rebuild_eq _ e

theorem fused_of_eq_false {e : Expr} (h : e.isIndexedNumber = false) : e.fused = e := by
  unfold fused
  split
  · next n s v t u =>
    have hplain : ¬ n.raw.toList.all Numeral.isDigitOrBar = true := by
      rw [show n.raw.toList.all Numeral.isDigitOrBar = false from h]
      exact Bool.false_ne_true
    exact if_neg hplain
  · rfl

theorem rank_mapChildren (g : Expr → Expr) (e : Expr) : (e.mapChildren g).rank = e.rank := by
  cases e <;> rfl

theorem lt_or_eq_rank (e : Expr) : e.rank < 14 ∨ e.rank = 14 := Nat.lt_or_eq_of_le e.rank_le

/-- An operator application is shown in a group. -/
theorem shown_of_lt {e : Expr} (h : e.rank < 14) : e.shown = .group (e.mapChildren shown) e.span := by
  have hspan : (e.mapChildren shown).span = e.span := by cases e <;> rfl
  rw [shown_eq, wrapped, rank_mapChildren, if_pos h, hspan]

theorem shown_of_eq {e : Expr} (h : e.rank = 14) : e.shown = (e.mapChildren shown).fused := by
  rw [shown_eq, wrapped, rank_mapChildren, if_neg (by omega)]

/-- An item of a plain number is shown as a number. -/
theorem shown_of_plain {n : Number} {s t u : Span} {v : Nat}
    (h : n.raw.toList.all Numeral.isDigitOrBar = true) :
    (field (lit (.num n) s) (.index v t) u).shown = .lit (.num (n.withFraction v)) u := by
  rw [shown_of_eq rfl]
  exact if_pos h

/-- Nothing that is shown becomes a plain number. -/
theorem isPlainNumber_shown (e : Expr) : e.shown.isPlainNumber = e.isPlainNumber := by
  rcases e.lt_or_eq_rank with h | h
  · rw [shown_of_lt h]
    cases e with
    | lit v s => exact absurd h (Nat.lt_irrefl 14)
    | _ => rfl
  · rw [shown_of_eq h]
    cases hindexed : (e.mapChildren shown).isIndexedNumber with
    | false =>
      rw [fused_of_eq_false hindexed]
      cases e <;> rfl
    | true =>
      obtain ⟨n, s, v, t, u, heq, hplain⟩ := isIndexedNumber_eq_true hindexed
      rw [heq]
      have hdot : (n.withFraction v).raw.toList.all Numeral.isDigitOrBar = false := by
        have htext : (n.withFraction v).raw.toList = n.raw.toList ++ '.' :: v.repr.toList := by
          simp [Number.withFraction]
        rw [htext, List.all_append, List.all_cons]
        simp [Numeral.isDigitOrBar]
      have hfused : (field (lit (.num n) s) (.index v t) u).fused = .lit (.num (n.withFraction v)) u :=
        if_pos hplain
      rw [hfused]
      cases e with
      | field a k u => exact hdot
      | _ => cases heq

theorem isIndexedNumber_mapChildren (e : Expr) :
    (e.mapChildren shown).isIndexedNumber = e.isIndexedNumber := by
  cases e with
  | field a k s =>
    cases k with
    | name i => rfl
    | index v t => exact a.isPlainNumber_shown
  | _ => rfl

/-- A construct that stands for itself is shown with its operands shown. -/
theorem shown_of_eq_false {e : Expr} (h : e.rank = 14) (hindexed : e.isIndexedNumber = false) :
    e.shown = e.mapChildren shown := by
  rw [shown_of_eq h, fused_of_eq_false (by rwa [isIndexedNumber_mapChildren])]

/-! ## What is shown, up to groups -/

theorem unwrapped_mapChildren_inj {e : Expr} {g h : Expr → Expr} :
    (e.mapChildren g).unwrapped = (e.mapChildren h).unwrapped ↔ ∀ c ∈ e.children, g c = h c := by
  constructor
  · intro heq
    cases e with
    | group a s => exact List.forall_mem_singleton.2 heq
    | _ =>
      have hchildren := congrArg children heq
      exact List.map_inj_left.1 (by
        rw [← children_mapChildren, ← children_mapChildren]
        exact hchildren)
  · exact fun hall => by rw [mapChildren_congr hall]

theorem ungroup_wrapped {e : Expr} (h : e.isIndexedNumber = false) : e.wrapped.ungroup = e.ungroup := by
  unfold wrapped
  split
  · rfl
  · rw [fused_of_eq_false h]

/-- The groups are the only difference between a legible expression and what is shown, and any other
    expression differs by more than that. -/
theorem ungroup_shown_iff (e : Expr) : e.shown.ungroup = e.ungroup ↔ e.Legible := by
  induction e using children_induction with
  | h e ih =>
    cases hindexed : e.isIndexedNumber with
    | true =>
      obtain ⟨n, s, v, t, u, rfl, hplain⟩ := isIndexedNumber_eq_true hindexed
      rw [shown_of_plain hplain, legible_iff, hindexed]
      constructor
      · exact Expr.noConfusion
      · exact fun h => Bool.noConfusion h.1
    | false =>
      have hshown : e.shown.ungroup = (e.mapChildren fun x => x.shown.ungroup).unwrapped := by
        rw [shown_eq, ungroup_wrapped (by rwa [isIndexedNumber_mapChildren]), ungroup_eq,
          mapChildren_mapChildren]
      rw [hshown, ungroup_eq, unwrapped_mapChildren_inj, legible_iff, hindexed]
      simp only [true_and]
      exact forall₂_congr ih

/-! ## What is shown is normal -/

theorem rank_shown (e : Expr) : e.shown.rank = 14 := by
  rcases e.lt_or_eq_rank with h | h
  · rw [shown_of_lt h]
    rfl
  · cases hindexed : e.isIndexedNumber with
    | false => rw [shown_of_eq_false h hindexed, rank_mapChildren, h]
    | true =>
      obtain ⟨n, s, v, t, u, rfl, hplain⟩ := isIndexedNumber_eq_true hindexed
      rw [shown_of_plain hplain]
      rfl

/-- What is shown of a primary with its suffixes begins as the expression does. -/
theorem Normal.firstToken_shown_of_rank [Letters] {e : Expr} (hn : e.Normal) (hrank : e.rank = 14) :
    e.shown.firstToken = e.firstToken := by
  induction hn using Normal.left_induction with
  | own e hn hown =>
    cases e with
    | range a b i s => cases hrank
    | field a k s => cases hown
    | _ =>
      rw [shown_of_eq_false hrank rfl]
      first | rfl | cases hown
  | left e x hn hleft ih =>
    cases hindexed : e.isIndexedNumber with
    | true =>
      obtain ⟨n, s, v, t, u, rfl, hplain⟩ := isIndexedNumber_eq_true hindexed
      rw [shown_of_plain hplain]
      rfl
    | false =>
      -- Only suffixes have a left operand and the rank of a primary.
      have hfirst : (e.mapChildren shown).firstToken = x.shown.firstToken := by
        cases e with
        | attempt a s => cases hleft; rfl
        | call a xs s => cases hleft; rfl
        | field a k s => cases hleft; rfl
        | index a i s => cases hleft; rfl
        | binary op a b s => cases op <;> cases hrank
        | filter a fs s => cases hrank
        | isDefined a n s => cases hrank
        | range a b i s => cases hrank
        | _ => cases hleft
      have hleftRank : x.rank = 14 := (rank_left hn hleft).2 (by rw [hrank]; decide)
      rw [shown_of_eq_false hrank hindexed, hfirst, ih hleftRank, firstToken_left hleft]

/-- What is shown begins as the expression does, or with the parenthesis of a group. -/
theorem Normal.firstToken_shown [Letters] {e : Expr} (hn : e.Normal) :
    e.shown.firstToken = e.firstToken ∨ e.shown.firstToken = .lparen := by
  rcases e.lt_or_eq_rank with h | h
  · rw [shown_of_lt h]
    exact .inr rfl
  · exact .inl (hn.firstToken_shown_of_rank h)

theorem Normal.firstToken_shown_ne [Letters] {e : Expr} (hn : e.Normal) {t : Token} (ht : t ≠ .lparen)
    (h : e.firstToken ≠ t) : e.shown.firstToken ≠ t := by
  rcases hn.firstToken_shown with hsame | hparen
  · rwa [hsame]
  · rw [hparen]
    exact ht.symm

end Expr

theorem Args.NamesOk.map [Letters] {xs : Args} (h : xs.NamesOk) (g : Expr → Expr) : (xs.map g).NamesOk := by
  intro a ha n hn
  rw [Args.items_map, List.mem_map] at ha
  obtain ⟨a, ha, rfl⟩ := ha
  rw [Arg.name?_map] at hn
  exact h a ha n hn

theorem Filter.NamesOk.map [Letters] {f : Filter} (h : f.NamesOk) (g : Expr → Expr) : (f.map g).NamesOk := by
  refine ⟨by rw [Filter.name_map]; exact h.1, fun xs hxs => ?_⟩
  rw [Filter.args?_map] at hxs
  obtain ⟨ys, hys, rfl⟩ := Option.map_eq_some_iff.1 hxs
  exact (h.2 ys hys).map g

namespace Expr

/-- A node whose operands are shown is normal: they have the highest rank, and none of them begins with
    a token that the operand it was made from does not begin with, parentheses apart. -/
theorem NodeNormal.mapChildren_shown [Letters] {e : Expr} (h : e.NodeNormal) (hc : ∀ c ∈ e.children, c.Normal) :
    (e.mapChildren shown).NodeNormal := by
  have hlevel : ∀ op : BinOp, op.level + 1 < 14 := by
    intro op
    have := op.level_lt_filterLevel
    unfold filterLevel at this
    omega
  cases e with
  | binary op a b s =>
    refine ⟨?_, ?_⟩
    · rw [rank_shown]; exact Nat.le_of_lt (hlevel op)
    · rw [rank_shown]; exact hlevel op
  | unary op a s =>
    refine ⟨by rw [rank_shown]; decide, fun hop => ?_⟩
    exact (hc a List.mem_cons_self).firstToken_shown_ne (by decide) (h.2 hop)
  | ref a s => show 12 ≤ a.shown.rank; rw [rank_shown]; decide
  | attempt a s => exact a.rank_shown
  | call f xs s => exact ⟨f.rank_shown, h.2.map _⟩
  | field a k s => exact ⟨a.rank_shown, h.2⟩
  | index a i s => exact a.rank_shown
  | range a b inclusive s =>
    obtain ⟨-, -, hstop, hif⟩ := h
    have hpos : ∀ {o : Option Expr}, ∀ x ∈ o.map shown, 0 < x.rank := by
      intro o x hx
      obtain ⟨y, -, rfl⟩ := Option.map_eq_some_iff.1 hx
      rw [rank_shown]
      decide
    refine ⟨hpos, hpos, ?_, fun hinc x hx => ?_⟩
    · rwa [Option.isSome_map]
    · obtain ⟨y, hy, rfl⟩ := Option.map_eq_some_iff.1 hx
      refine (hc y ?_).firstToken_shown_ne (by decide) (hif hinc y hy)
      simp [children, hy]
  | tuple es s => simpa [mapChildren, NodeNormal] using h
  | filter a fs s =>
    obtain ⟨-, hne, hnames⟩ := h
    refine ⟨by rw [rank_shown]; decide, by simpa using hne, fun f hf => ?_⟩
    obtain ⟨f', hf', rfl⟩ := List.mem_map.1 hf
    exact (hnames f' hf').map _
  | isDefined a n s => exact a.rank_shown
  | macroCall p xs s => exact ⟨h.1, h.2.map _⟩
  | _ => exact h

/-- What is shown of a normal expression is normal. -/
theorem Normal.shown [Letters] {e : Expr} (hn : e.Normal) : e.shown.Normal := by
  induction hn with
  | @mk e node children ih =>
    have hinner : (e.mapChildren Expr.shown).Normal := by
      refine .mk (node.mapChildren_shown children) fun c hc => ?_
      rw [children_mapChildren, List.mem_map] at hc
      obtain ⟨x, hx, rfl⟩ := hc
      exact ih x hx
    rcases e.lt_or_eq_rank with h | h
    · rw [shown_of_lt h]
      exact .mk trivial (List.forall_mem_singleton.2 hinner)
    · cases hindexed : e.isIndexedNumber with
      | false => rwa [shown_of_eq_false h hindexed]
      | true =>
        obtain ⟨n, s, v, t, u, rfl, hplain⟩ := isIndexedNumber_eq_true hindexed
        rw [shown_of_plain hplain]
        have hnumber : n.IsWritten := (children _ List.mem_cons_self).node
        exact .mk (hnumber.withFraction hplain v) nofun

end Expr

/-! ## Places -/

section

variable {g : Nat → Nat}

theorem Expr.isIndexedNumber_move (e : Expr) :
    (move g e).isIndexedNumber = e.isIndexedNumber := by
  cases e with
  | field a k s => cases k <;> cases a <;> rfl
  | _ => rfl

theorem Expr.legible_move {e : Expr} : (move g e).Legible ↔ e.Legible := by
  induction e using Expr.children_induction with
  | h e ih =>
    rw [legible_iff, legible_iff, isIndexedNumber_move, children_move, List.forall_mem_map]
    exact and_congr_right fun _ => forall₂_congr ih

theorem Expr.move_shown (e : Expr) : move g e.shown = (move g e).shown := by
  have hrank : ∀ x : Expr, (move g x).rank = x.rank := by
    intro x
    cases x <;> rfl
  have hfused : ∀ x : Expr, move g x.fused = (move g x).fused := by
    intro x
    cases hindexed : x.isIndexedNumber with
    | true =>
      obtain ⟨n, s, v, t, u, rfl, hplain⟩ := isIndexedNumber_eq_true hindexed
      show move g (if _ then _ else _) = if _ then _ else _
      rw [if_pos hplain, if_pos hplain]
      rfl
    | false => rw [fused_of_eq_false hindexed, fused_of_eq_false (by rwa [isIndexedNumber_move])]
  refine move_rebuild (fun x => ?_) e
  unfold wrapped
  rw [hrank, Expr.span_move, ← hfused]
  split <;> rfl

end

end Stencil
