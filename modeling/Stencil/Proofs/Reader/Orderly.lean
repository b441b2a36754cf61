/-
  Orderly — what the lexemes of a tag are like, and what repetition takes from them.

  The lexemes of a feed stand in a row and are spelled as their tokens ask; so does every stretch of
  them (`Orderly`).  A span is `Over` a stretch if it runs from the first lexeme to the last.  Joining
  the spans of two stretches gives the span of the stretch from the first to the second, because the
  lexemes between them lie between them (`Over.join`).

  `seq` and `many` are loops over a reader.  Their lemmas ask what one round takes and say what the
  loop takes.  The bounds in the loops are never reached: each round takes a lexeme.
-/
import Stencil.Proofs.Expr.Listing
import Stencil.Proofs.Lexer.Tag
import Stencil.Proofs.Reader.Take

namespace Stencil

/-! ## Rows -/

namespace Lexeme.InRow

variable {p q : Nat} {ls : List Lexeme}

theorem append_left {a b : List Lexeme} (h : InRow p (a ++ b) q) : ∃ r, InRow p a r := by
  induction a generalizing p with
  | nil => exact ⟨p, Nat.le_refl p⟩
  | cons l a ih =>
    obtain ⟨hstart, hlt, hrow⟩ := h
    obtain ⟨r, hr⟩ := ih hrow
    exact ⟨r, hstart, hlt, hr⟩

theorem append_right {a b : List Lexeme} (h : InRow p (a ++ b) q) : ∃ r, InRow r b q := by
  induction a generalizing p with
  | nil => exact ⟨p, h⟩
  | cons l a ih => exact ih h.2.2

theorem head_le {first l : Lexeme} (h : InRow p ls q) (hfirst : ls.head? = some first)
    (hl : l ∈ ls) : first.span.start ≤ l.span.start := by
  cases ls with
  | nil => cases hl
  | cons l' ls =>
    obtain rfl : l' = first := Option.some.inj hfirst
    obtain ⟨-, hlt, hrow⟩ := h
    rcases List.mem_cons.1 hl with rfl | hmem
    · exact Nat.le_refl _
    · have := hrow.start_le hmem
      omega

theorem start_lt_stop {l : Lexeme} (h : InRow p ls q) (hl : l ∈ ls) :
    l.span.start < l.span.stop := by
  induction ls generalizing p with
  | nil => cases hl
  | cons l' ls ih =>
    rcases List.mem_cons.1 hl with rfl | hmem
    · exact h.2.1
    · exact ih h.2.2 hmem

/-- Two lexemes of a row do not overlap: what is before ends before what is after starts. -/
theorem apart {a b : List Lexeme} {l m : Lexeme} (h : InRow p (a ++ b) q) (hl : l ∈ a)
    (hm : m ∈ b) :
    l.span.start < l.span.stop ∧ l.span.stop ≤ m.span.start ∧ m.span.start < m.span.stop := by
  induction a generalizing p with
  | nil => cases hl
  | cons l' a ih =>
    obtain ⟨-, hlt, hrow⟩ := h
    rcases List.mem_cons.1 hl with rfl | hmem
    · refine ⟨hlt, hrow.start_le (List.mem_append_right a hm), ?_⟩
      obtain ⟨r, hb⟩ := hrow.append_right
      exact hb.start_lt_stop hm
    · exact ih hrow hmem

theorem le_last {last l : Lexeme} (h : InRow p ls q) (hlast : ls.getLast? = some last)
    (hl : l ∈ ls) : l.span.stop ≤ last.span.stop := by
  obtain ⟨front, rfl⟩ := List.getLast?_eq_some_iff.1 hlast
  rcases List.mem_append.1 hl with hmem | hmem
  · have := h.apart hmem List.mem_cons_self
    omega
  · rw [List.mem_singleton.1 hmem]

end Lexeme.InRow

/-- The lexemes stand in a row, and each of them closes a tag or is spelled as its token asks. -/
structure Orderly [Letters] (ls : List Lexeme) : Prop where
  row : ∃ p q, Lexeme.InRow p ls q
  spelled : ∀ l ∈ ls, l.token.isClosing = true ∨ l.token.Spells l.text

namespace Orderly

variable {ls a b : List Lexeme}

theorem left [Letters] (h : Orderly (a ++ b)) : Orderly a where
  row := by
    obtain ⟨p, q, hrow⟩ := h.row
    obtain ⟨r, hr⟩ := hrow.append_left
    exact ⟨p, r, hr⟩
  spelled := fun l hl => h.spelled l (List.mem_append_left b hl)

theorem right [Letters] (h : Orderly (a ++ b)) : Orderly b where
  row := by
    obtain ⟨p, q, hrow⟩ := h.row
    obtain ⟨r, hr⟩ := hrow.append_right
    exact ⟨r, q, hr⟩
  spelled := fun l hl => h.spelled l (List.mem_append_right a hl)

theorem tail [Letters] {l : Lexeme} (h : Orderly (l :: ls)) : Orderly ls := right (a := [l]) h

theorem spells [Letters] {l : Lexeme} (h : Orderly ls) (hl : l ∈ ls) (ht : l.token.isClosing = false) :
    l.token.Spells l.text := by
  rcases h.spelled l hl with hclose | hspells
  · rw [ht] at hclose
    cases hclose
  · exact hspells

/-- A sign or keyword is written in its one way. -/
theorem is [Letters] {l : Lexeme} {t : Token} (h : Orderly ls) (hl : l ∈ ls) (ht : l.token = t)
    (hsign : t.sign?.isSome = true) : l.Is t := by
  subst ht
  refine ⟨rfl, ?_⟩
  have hclose : l.token.isClosing = false := by
    cases htoken : l.token with
    | endExpr => rw [htoken] at hsign; cases hsign
    | endBlock => rw [htoken] at hsign; cases hsign
    | _ => rfl
  have hspells := h.spells hl hclose
  cases htoken : l.token with
  | ident => rw [htoken] at hsign; cases hsign
  | macroName => rw [htoken] at hsign; cases hsign
  | number => rw [htoken] at hsign; cases hsign
  | str => rw [htoken] at hsign; cases hsign
  | char => rw [htoken] at hsign; cases hsign
  | blank => rw [htoken] at hsign; cases hsign
  | _ => rw [htoken] at hspells; exact hspells

/-- A word is written as a word, and its token is the one of that word. -/
theorem word [Letters] {l : Lexeme} (h : Orderly ls) (hl : l ∈ ls)
    (ht : l.token = .ident ∨ ∃ k, l.token = .keyword k) :
    l.IsWord (String.ofList l.text) ∧ isWord l.text = true := by
  unfold Lexeme.IsWord wordToken
  rw [String.toList_ofList]
  rcases ht with ht | ⟨k, ht⟩
  · have hspells := h.spells hl (by rw [ht]; rfl)
    rw [ht] at hspells
    have hplain : isPlainWord (String.ofList l.text) = true := hspells
    simp only [isPlainWord, String.toList_ofList, Bool.and_eq_true, Option.isNone_iff_eq_none]
      at hplain
    rw [hplain.2]
    exact ⟨⟨ht, rfl⟩, hplain.1⟩
  · have hspells := h.spells hl (by rw [ht]; rfl)
    rw [ht] at hspells
    have htext : k.text.toList = l.text := Option.some.inj hspells
    rw [← htext, String.ofList_toList, Keyword.ofString?_text]
    exact ⟨⟨ht, rfl⟩, k.isWord_text⟩

/-- A name is written as a word that is not reserved. -/
theorem name [Letters] {l : Lexeme} (h : Orderly ls) (hl : l ∈ ls) (ht : l.token.isName = true) :
    l.IsWord (String.ofList l.text) ∧ isName (String.ofList l.text) = true := by
  have hkind : l.token = .ident ∨ ∃ k, l.token = .keyword k := by
    cases htoken : l.token with
    | ident => exact .inl rfl
    | keyword k => exact .inr ⟨k, rfl⟩
    | _ => rw [htoken] at ht; cases ht
  obtain ⟨hword, hisWord⟩ := h.word hl hkind
  refine ⟨hword, ?_⟩
  rw [isName, String.toList_ofList, hisWord, Bool.true_and]
  -- The token of the word tells whether it is reserved.
  have htoken : l.token = wordToken (String.ofList l.text) := hword.1
  unfold wordToken at htoken
  cases hk : Keyword.ofString? (String.ofList l.text) with
  | none => rfl
  | some k =>
    rw [hk] at htoken
    rw [htoken] at ht
    exact ht

/-- A macro name is written as a word that is no keyword, and its mark. -/
theorem mark [Letters] {l : Lexeme} (h : Orderly ls) (hl : l ∈ ls) (ht : l.token = .macroName) :
    l.IsMark (String.ofList l.text.dropLast) ∧
      isPlainWord (String.ofList l.text.dropLast) = true := by
  have hspells := h.spells hl (by rw [ht]; rfl)
  rw [ht] at hspells
  obtain ⟨name, htext, hplain⟩ := hspells
  rw [htext, List.dropLast_concat]
  exact ⟨⟨ht, by rw [htext, String.toList_ofList]⟩, hplain⟩

end Orderly

/-! ## Spans over lexemes -/

/-- The span runs from the first lexeme to the last one. -/
def Span.Over (s : Span) (ls : List Lexeme) : Prop :=
  ∃ first last, ls.head? = some first ∧ ls.getLast? = some last ∧
    s = ⟨first.span.start, last.span.stop⟩

theorem Span.over_singleton (l : Lexeme) : l.span.Over [l] := ⟨l, l, rfl, rfl, rfl⟩

/-- A span from the start of the front of a row to the end of its back is over the row. -/
theorem Span.Over.ends {s t : Span} {a b ls : List Lexeme} (hs : s.Over a) (ht : t.Over b)
    (ha : a <+: ls) (hb : b <:+ ls) : (Span.mk s.start t.stop).Over ls := by
  obtain ⟨first, last, hfirst, -, rfl⟩ := hs
  obtain ⟨first', last', -, hlast', rfl⟩ := ht
  refine ⟨first, last', ?_, ?_, rfl⟩
  · obtain ⟨c, rfl⟩ := ha
    rw [List.head?_append, hfirst]
    rfl
  · obtain ⟨c, rfl⟩ := hb
    rw [List.getLast?_append, hlast']
    rfl

/-- The join of the spans over the front and over the back of a row is the span over the row. -/
theorem Span.Over.join [Letters] {s t : Span} {a b ls : List Lexeme} (hs : s.Over a) (ht : t.Over b)
    (h : Orderly ls) (ha : a <+: ls) (hb : b <:+ ls) : (s.join t).Over ls := by
  have hends := hs.ends ht ha hb
  obtain ⟨p, q, hrow⟩ := h.row
  obtain ⟨first, last, hhead, hlast, hspan⟩ := id hends
  obtain ⟨hstart, hstop⟩ := Span.mk.inj hspan
  obtain ⟨_, lastA, -, hlastA, hs'⟩ := hs
  obtain ⟨firstB, _, hfirstB, -, ht'⟩ := ht
  have hle := hrow.head_le hhead (hb.subset (List.mem_of_mem_head? hfirstB))
  have hge := hrow.le_last hlast (ha.subset (List.mem_of_mem_getLast? hlastA))
  have hjoin : s.join t = ⟨s.start, t.stop⟩ := by
    have hsstop : s.stop = lastA.span.stop := by rw [hs']
    have htstart : t.start = firstB.span.start := by rw [ht']
    simp only [Span.join, Span.mk.injEq]
    omega
  rw [hjoin]
  exact hends

/-! ## Repetition -/

namespace Reader

variable {α : Type} {feed rest : Feed}

/-- Whatever the reader gives, it has taken lexemes from the front that are related to it by `R`. -/
def Takes [Letters] (p : Reader α) (R : α → List Lexeme → Prop) : Prop :=
  ∀ feed x rest, Orderly feed.lexemes → p feed = .ok (x, rest) →
    ∃ used, feed.lexemes = used ++ rest.lexemes ∧ R x used

theorem seqFrom_takes [Letters] {R : α → List Lexeme → Prop} {item : Reader α} (hitem : Takes item R)
    {close : Token} {fuel : Nat} {trailing : Bool} {s : Seq α} (hord : Orderly feed.lexemes)
    (h : seqFrom close item fuel trailing feed = .ok (s, rest)) :
    ∃ used c, feed.lexemes = used ++ c :: rest.lexemes ∧ c.token = close ∧ s.close = c.span ∧
      (s.items = [] ∧ s.trailing = trailing ∧ used = [] ∨
        s.items ≠ [] ∧ Commas R s.items s.trailing used) := by
  induction fuel using Nat.strongRecOn generalizing trailing feed s with
  | ind fuel ih =>
    rcases seqFrom_cases h with ⟨c, hls, hc, rfl⟩ | ⟨x, mid, c, hx, hafter⟩
    · exact ⟨[], c, hls, hc, rfl, .inl ⟨rfl, rfl, rfl⟩⟩
    obtain ⟨used, hused, hr⟩ := hitem _ _ _ hord hx
    rcases hafter with ⟨hls, hc, rfl⟩ | ⟨left, after, s', rfl, hls, hc, hs', rfl⟩
    · exact ⟨used, c, by rw [hused, hls], hc, rfl, .inr ⟨List.cons_ne_nil _ _, .last hr⟩⟩
    -- A comma: either the list is closed after it, or another item follows.
    rw [hused, hls] at hord
    have hcomma : c.Is .comma := hord.right.is List.mem_cons_self hc rfl
    obtain ⟨used', c', hls', hc', hclose, hitems⟩ :=
      ih left (Nat.lt_succ_self left) hord.right.tail hs'
    refine ⟨used ++ c :: used', c', by rw [hused, hls, hls']; simp, hc', hclose, .inr ?_⟩
    refine ⟨List.cons_ne_nil _ _, ?_⟩
    dsimp only
    rcases hitems with ⟨hnil, htrailing, rfl⟩ | ⟨hne, hcommas⟩
    · rw [hnil, htrailing]
      exact .trailing hr hcomma
    · cases hitems : s'.items with
      | nil => exact absurd hitems hne
      | cons y ys =>
        rw [hitems] at hcommas
        exact .more hr hcomma hcommas

/-- A bracketed list takes its items, the commas and the closing bracket. -/
theorem seq_takes [Letters] {R : α → List Lexeme → Prop} {item : Reader α} (hitem : Takes item R)
    {close : Token} {s : Seq α} (hord : Orderly feed.lexemes)
    (h : seq close item feed = .ok (s, rest)) :
    ∃ used c, feed.lexemes = used ++ c :: rest.lexemes ∧ c.token = close ∧ s.close = c.span ∧
      Commas R s.items s.trailing used := by
  obtain ⟨used, c, hls, hc, hclose, hitems⟩ := seqFrom_takes hitem hord h
  refine ⟨used, c, hls, hc, hclose, ?_⟩
  rcases hitems with ⟨hnil, htrailing, rfl⟩ | ⟨-, hcommas⟩
  · rw [hnil, htrailing]
    exact .none
  · exact hcommas

theorem manyFrom_takes [Letters] {S : List α → List Lexeme → Prop} {Q : List Lexeme → Prop}
    {item : Reader (Option α)} (hnil : S [] [])
    (hnone : ∀ feed rest, item feed = .ok (none, rest) →
      rest.lexemes = feed.lexemes ∧ Q feed.lexemes)
    (hsome : ∀ feed x rest, Orderly feed.lexemes → item feed = .ok (some x, rest) →
      ∃ used, used ≠ [] ∧ feed.lexemes = used ++ rest.lexemes ∧
        ∀ xs more, S xs more → S (x :: xs) (used ++ more))
    {fuel : Nat} {xs : List α} (hfuel : feed.lexemes.length < fuel) (hord : Orderly feed.lexemes)
    (h : manyFrom item fuel feed = .ok (xs, rest)) :
    ∃ used, feed.lexemes = used ++ rest.lexemes ∧ S xs used ∧ Q rest.lexemes := by
  -- An item takes at least one lexeme, so the loop stops before the fuel does.
  induction fuel generalizing feed xs with
  | zero => exact absurd hfuel (Nat.not_lt_zero _)
  | succ fuel ih =>
    obtain ⟨found, mid, hitem, h⟩ := bind_eq_ok_iff.1 h
    cases found with
    | none =>
      cases h
      obtain ⟨hls, hq⟩ := hnone _ _ hitem
      exact ⟨[], hls.symm, hnil, by rw [hls]; exact hq⟩
    | some x =>
      obtain ⟨xs', rest', hrest, hpure⟩ := bind_eq_ok_iff.1 h
      cases hpure
      obtain ⟨used, hne, hls, hcons⟩ := hsome _ _ _ hord hitem
      have hshort : mid.lexemes.length < fuel := by
        have := List.length_pos_iff.2 hne
        rw [hls, List.length_append] at hfuel
        omega
      rw [hls] at hord
      obtain ⟨used', hls', hs, hq⟩ := ih hshort hord.right hrest
      exact ⟨used ++ used', by rw [hls, hls', List.append_assoc], hcons _ _ hs, hq⟩

/-- A repetition takes items until the item reader gives none. -/
theorem many_takes [Letters] {S : List α → List Lexeme → Prop} {Q : List Lexeme → Prop}
    {item : Reader (Option α)} (hnil : S [] [])
    (hnone : ∀ feed rest, item feed = .ok (none, rest) →
      rest.lexemes = feed.lexemes ∧ Q feed.lexemes)
    (hsome : ∀ feed x rest, Orderly feed.lexemes → item feed = .ok (some x, rest) →
      ∃ used, used ≠ [] ∧ feed.lexemes = used ++ rest.lexemes ∧
        ∀ xs more, S xs more → S (x :: xs) (used ++ more))
    {xs : List α} (hord : Orderly feed.lexemes) (h : many item feed = .ok (xs, rest)) :
    ∃ used, feed.lexemes = used ++ rest.lexemes ∧ S xs used ∧ Q rest.lexemes :=
  manyFrom_takes hnil hnone hsome (Nat.lt_succ_self _) hord h

end Reader

end Stencil
