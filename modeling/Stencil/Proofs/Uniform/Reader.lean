/-
  Reader — readers do not care where the lexemes stand.

  A reader looks at tokens and texts; places it only copies and joins.  So if all places of a feed
  are moved, a reader does the same as before and its result is moved.  `Moves g p q` says this of
  two readers `p` and `q`: whatever `p` does on a feed, `q` does on the feed moved by `g`.  Besides,
  a reader takes lexemes only from the front of the feed, so what it leaves is a suffix.

  There are two spots where a reader computes with offsets instead of copying them: it takes the
  mark off a macro name, and it points into a text literal that cannot be decoded.  `Regular` asks
  of the lexemes that the first commutes with the move and that the second does not happen; the
  lexemes of a source are such.

  The relation passes through sequencing (`Moves.bind`), choice and repetition, so it is proved for
  the readers of the grammar by following their definitions.
-/
import Stencil.Proofs.Place
import Stencil.Reader.Terminal

namespace Stencil

open Reader

/-! ## Feeds -/

/-- The move `g` commutes with taking off the mark of the macro name `l`, and the text literal `l`
    can be decoded. -/
structure Lexeme.Regular (g : Nat → Nat) (l : Lexeme) : Prop where
  mark : l.token = .macroName → g (l.span.stop - 1) = g l.span.stop - 1
  text : l.token = .str → ∃ v, Escape.unescape false (quotedBody l) = .ok v

/-- All lexemes are regular for the move `g`. -/
def Feed.Regular (g : Nat → Nat) (feed : Feed) : Prop := ∀ l ∈ feed.lexemes, l.Regular g

theorem Feed.Regular.suffix {g : Nat → Nat} {feed rest : Feed} (h : feed.Regular g)
    (hs : rest.lexemes <:+ feed.lexemes) : rest.Regular g :=
  fun l hl => h l (hs.subset hl)

instance : Placed Lexer.Stop where
  move g
    | .atEnd pos => .atEnd (g pos)
    | .fault diagnostic => .fault (move g diagnostic)

instance : Placed Feed :=
  ⟨fun g feed => ⟨move g feed.lexemes, move g feed.stop, move g feed.last⟩⟩

instance {α : Type} [Placed α] : Placed (Seq α) :=
  ⟨fun g s => ⟨move g s.items, s.trailing, move g s.close⟩⟩

theorem Lexeme.token_move (g : Nat → Nat) (l : Lexeme) : (move g l).token = l.token := rfl

namespace Reader

variable {α β : Type} [Placed α] [Placed β] {g : Nat → Nat}

/-- The second result is the first one moved; and the first leaves a suffix of `feed`. -/
def Follows (g : Nat → Nat) (feed : Feed) :
    Except Diagnostic (α × Feed) → Except Diagnostic (α × Feed) → Prop
  | .ok (a, rest), r =>
    r = .ok (move g a, move g rest) ∧ rest.lexemes <:+ feed.lexemes ∧ rest.stop = feed.stop
  | .error diagnostic, r => r = .error (move g diagnostic)

/-- Whatever `p` does on a feed, `q` does on the feed moved by `g`; and `p` takes lexemes from the
    front only. -/
def Moves (g : Nat → Nat) (p q : Reader α) : Prop :=
  ∀ feed, feed.Regular g → Follows g feed (p feed) (q (move g feed))

theorem Moves.of_ok {p q : Reader α} (h : Moves g p q) {feed rest : Feed} {a : α}
    (hf : feed.Regular g) (hp : p feed = .ok (a, rest)) :
    q (move g feed) = .ok (move g a, move g rest) ∧ rest.lexemes <:+ feed.lexemes
      ∧ rest.stop = feed.stop := by
  have hfollows := h feed hf
  rw [hp] at hfollows
  exact hfollows

theorem Moves.of_error {p q : Reader α} (h : Moves g p q) {feed : Feed} {diagnostic : Diagnostic}
    (hf : feed.Regular g) (hp : p feed = .error diagnostic) :
    q (move g feed) = .error (move g diagnostic) := by
  have hfollows := h feed hf
  rw [hp] at hfollows
  exact hfollows

/-- If `q` can read a moved feed, `p` can read the feed. -/
theorem Moves.of_ok_move {p q : Reader α} (h : Moves g p q) {feed rest : Feed} {a : α}
    (hf : feed.Regular g) (hq : q (move g feed) = .ok (a, rest)) :
    ∃ a' rest', p feed = .ok (a', rest') ∧ move g a' = a := by
  cases hp : p feed with
  | error diagnostic =>
    have hmoved := h.of_error hf hp
    rw [hq] at hmoved
    cases hmoved
  | ok r =>
    obtain ⟨a', rest'⟩ := r
    have hmoved := (h.of_ok hf hp).1
    rw [hq] at hmoved
    exact ⟨a', rest', rfl, (congrArg (·.1) (Except.ok.inj hmoved)).symm⟩

/-- What follows the rest of a feed follows the feed. -/
theorem Follows.of_suffix {feed rest : Feed} {r r' : Except Diagnostic (α × Feed)}
    (h : Follows g rest r r') (hs : rest.lexemes <:+ feed.lexemes) (ht : rest.stop = feed.stop) :
    Follows g feed r r' := by
  cases r with
  | error diagnostic => exact h
  | ok r => exact ⟨h.1, h.2.1.trans hs, h.2.2.trans ht⟩

/-! ## Sequencing and choice -/

theorem Moves.bind {p q : Reader α} {k k' : α → Reader β} (hp : Moves g p q)
    (hk : ∀ a, Moves g (k a) (k' (move g a))) : Moves g (p >>= k) (q >>= k') := by
  intro feed hf
  rw [bind_apply, bind_apply]
  cases h : p feed with
  | error diagnostic =>
    rw [hp.of_error hf h]
    exact rfl
  | ok r =>
    obtain ⟨a, rest⟩ := r
    obtain ⟨hq, hsuffix, hstop⟩ := hp.of_ok hf h
    rw [hq]
    exact (hk a rest (hf.suffix hsuffix)).of_suffix hsuffix hstop

/-- As `Moves.bind`, for a first reader that may give nothing. -/
theorem Moves.bind_option {p q : Reader (Option α)} {k k' : Option α → Reader β} (hp : Moves g p q)
    (hnone : Moves g (k none) (k' none))
    (hsome : ∀ a, Moves g (k (some a)) (k' (some (move g a)))) :
    Moves g (p >>= k) (q >>= k') :=
  hp.bind fun
    | none => hnone
    | some a => hsome a

theorem Moves.pure {a b : α} (h : move g a = b) :
    Moves g (Pure.pure a : Reader α) (Pure.pure b) := by
  intro feed hf
  subst h
  exact ⟨rfl, List.suffix_refl _, rfl⟩

theorem Moves.fail {d d' : Diagnostic} (h : move g d = d') :
    Moves g (Reader.fail d : Reader α) (Reader.fail d') := by
  intro feed hf
  subst h
  rfl

theorem Moves.map {p q : Reader α} {f f' : α → β} (hp : Moves g p q)
    (hf : ∀ a, move g (f a) = f' (move g a)) : Moves g (f <$> p) (f' <$> q) :=
  hp.bind fun a => Moves.pure (hf a)

theorem Moves.ite {c : Prop} [Decidable c] {p p' q q' : Reader α} (h : Moves g p q)
    (h' : Moves g p' q') : Moves g (if c then p else p') (if c then q else q') := by
  split
  · exact h
  · exact h'

/-! ## Single lexemes -/

theorem atStop_moves (g : Nat → Nat) : Moves g Feed.atStop Feed.atStop := by
  intro feed hf
  obtain ⟨lexemes, stop, last⟩ := feed
  cases stop with
  | atEnd pos => exact ⟨rfl, List.suffix_refl _, rfl⟩
  | fault diagnostic => rfl

theorem peek_moves (g : Nat → Nat) : Moves g peek peek := by
  intro feed hf
  obtain ⟨lexemes, stop, last⟩ := feed
  cases lexemes with
  | nil => exact atStop_moves g _ hf
  | cons l ls => exact ⟨rfl, List.suffix_refl _, rfl⟩

theorem peekSecond_moves (g : Nat → Nat) : Moves g peekSecond peekSecond := by
  intro feed hf
  obtain ⟨lexemes, stop, last⟩ := feed
  rcases lexemes with _ | ⟨l, _ | ⟨l', ls⟩⟩
  · exact atStop_moves g _ hf
  · exact atStop_moves g _ hf
  · exact ⟨rfl, List.suffix_refl _, rfl⟩

theorem next_moves (g : Nat → Nat) : Moves g next next := by
  intro feed hf
  obtain ⟨lexemes, stop, last⟩ := feed
  cases lexemes with
  | nil => exact atStop_moves g _ hf
  | cons l ls => exact ⟨rfl, List.suffix_cons l ls, rfl⟩

/-- As `next_moves`, where the lexeme taken is known to be regular. -/
theorem next_bind_moves {k k' : Option Lexeme → Reader β} (hnone : Moves g (k none) (k' none))
    (hsome : ∀ l, l.Regular g → Moves g (k (some l)) (k' (some (move g l)))) :
    Moves g (next >>= k) (next >>= k') := by
  intro feed hf
  obtain ⟨lexemes, stop, last⟩ := feed
  cases lexemes with
  | nil =>
    cases stop with
    | atEnd pos => exact hnone _ hf
    | fault diagnostic => exact rfl
  | cons l ls =>
    have hl : l.Regular g := hf l List.mem_cons_self
    have hrest : Feed.Regular g ⟨ls, stop, l.span⟩ := hf.suffix (List.suffix_cons l ls)
    exact (hsome l hl _ hrest).of_suffix (List.suffix_cons l ls) rfl

theorem last_moves (g : Nat → Nat) : Moves g last last :=
  fun _ _ => ⟨rfl, List.suffix_refl _, rfl⟩

theorem eof_moves (g : Nat → Nat) : Moves g eof eof := by
  intro feed hf
  obtain ⟨lexemes, stop, last⟩ := feed
  cases stop with
  | atEnd pos => exact ⟨rfl, List.suffix_refl _, rfl⟩
  | fault diagnostic => rfl

theorem unexpected_moves (g : Nat → Nat) (expected : List Expected) (found : Option Lexeme) :
    Moves g (unexpected expected found : Reader α) (unexpected expected (move g found)) := by
  cases found with
  | none => exact (eof_moves g).bind fun s => Moves.fail rfl
  | some l => exact Moves.fail rfl

theorem tooDeep_moves (g : Nat → Nat) (limit : Nat) :
    Moves g (tooDeep limit : Reader α) (tooDeep limit) := by
  refine (peek_moves g).bind fun found => ?_
  cases found with
  | none => exact (eof_moves g).bind fun s => Moves.fail rfl
  | some l => exact Moves.fail rfl

theorem nextIs_moves (g : Nat → Nat) (t : Token) : Moves g (nextIs t) (nextIs t) := by
  refine (peek_moves g).bind fun found => Moves.pure ?_
  cases found <;> rfl

theorem secondIs_moves (g : Nat → Nat) (t : Token) : Moves g (secondIs t) (secondIs t) := by
  refine (peekSecond_moves g).bind fun found => Moves.pure ?_
  cases found <;> rfl

theorem eat_moves (g : Nat → Nat) (t : Token) : Moves g (eat t) (eat t) :=
  (nextIs_moves g t).bind fun _ => Moves.ite (next_moves g) (Moves.pure rfl)

theorem eats_moves (g : Nat → Nat) (t : Token) : Moves g (eats t) (eats t) := by
  refine (eat_moves g t).bind fun found => Moves.pure ?_
  cases found <;> rfl

theorem expect_moves (g : Nat → Nat) (t : Token) : Moves g (expect t) (expect t) := by
  refine (next_moves g).bind fun found => ?_
  cases found with
  | none => exact unexpected_moves g _ none
  | some l => exact Moves.ite (Moves.pure rfl) (unexpected_moves g _ (some l))

/-! ## Repetition -/

theorem manyFrom_moves {item : Reader (Option α)} (hitem : Moves g item item) (fuel : Nat) :
    Moves g (manyFrom item fuel) (manyFrom item fuel) := by
  induction fuel with
  | zero => exact Moves.pure rfl
  | succ fuel ih =>
    refine hitem.bind fun found => ?_
    cases found with
    | none => exact Moves.pure rfl
    | some x => exact ih.bind fun xs => Moves.pure rfl

theorem many_moves {item : Reader (Option α)} (hitem : Moves g item item) :
    Moves g (many item) (many item) := by
  intro feed hf
  have hlength : left (move g feed) = left feed := List.length_map ..
  unfold many
  rw [hlength]
  exact manyFrom_moves hitem _ feed hf

theorem seqFrom_moves {item : Reader α} (hitem : Moves g item item) (close : Token) (fuel : Nat)
    (trailing : Bool) :
    Moves g (seqFrom close item fuel trailing) (seqFrom close item fuel trailing) := by
  induction fuel generalizing trailing with
  | zero =>
    rw [seqFrom]
    refine (eat_moves g close).bind fun found => ?_
    cases found with
    | some l => exact Moves.pure rfl
    | none =>
      refine hitem.bind fun x => (next_moves g).bind fun found => ?_
      cases found with
      | none => exact unexpected_moves g _ none
      | some l =>
        exact Moves.ite (unexpected_moves g _ (some l))
          (Moves.ite (Moves.pure rfl) (unexpected_moves g _ (some l)))
  | succ fuel ih =>
    rw [seqFrom]
    refine (eat_moves g close).bind fun found => ?_
    cases found with
    | some l => exact Moves.pure rfl
    | none =>
      refine hitem.bind fun x => (next_moves g).bind fun found => ?_
      cases found with
      | none => exact unexpected_moves g _ none
      | some l =>
        refine Moves.ite ?_ (Moves.ite (Moves.pure rfl) (unexpected_moves g _ (some l)))
        exact (ih true).bind fun s => Moves.pure rfl

theorem seq_moves {item : Reader α} (hitem : Moves g item item) (close : Token) :
    Moves g (seq close item) (seq close item) := by
  intro feed hf
  have hlength : left (move g feed) = left feed := List.length_map ..
  unfold seq
  rw [hlength]
  exact seqFrom_moves hitem close _ false feed hf

/-! ## Names, texts and constants -/

theorem ident_moves (g : Nat → Nat) : Moves g ident ident := by
  refine (next_moves g).bind fun found => ?_
  cases found with
  | none => exact unexpected_moves g _ none
  | some l => exact Moves.ite (Moves.pure rfl) (unexpected_moves g _ (some l))

theorem ident?_moves (g : Nat → Nat) : Moves g ident? ident? := by
  refine (peek_moves g).bind fun found => ?_
  cases found with
  | none => exact Moves.ite ((ident_moves g).map fun _ => rfl) (Moves.pure rfl)
  | some l => exact Moves.ite ((ident_moves g).map fun _ => rfl) (Moves.pure rfl)

theorem textOf_moves {l : Lexeme} (hl : l.Regular g) (ht : l.token = .str) :
    Moves g (textOf l) (textOf (move g l)) := by
  obtain ⟨v, hv⟩ := hl.text ht
  have hv' : Escape.unescape false (quotedBody (move g l)) = .ok v := hv
  rw [textOf_feed, textOf_feed, Feed.textOf, Feed.textOf, hv, hv']
  exact Moves.pure rfl

theorem charOf_moves (g : Nat → Nat) (l : Lexeme) :
    Moves g (Feed.charOf l) (Feed.charOf (move g l)) := by
  have hbody : quotedBody (move g l) = quotedBody l := rfl
  unfold Feed.charOf
  rw [hbody]
  split
  · exact Moves.pure rfl
  · exact Moves.fail rfl

theorem literalOf_moves {l : Lexeme} (hl : l.Regular g) (negative : Bool) :
    Moves g (literalOf l negative) (literalOf (move g l) negative) := by
  rw [literalOf_feed, literalOf_feed, Feed.literalOf, Feed.literalOf, Lexeme.token_move]
  split
  · next ht => exact (textOf_moves hl ht).map fun _ => rfl
  · exact (charOf_moves g l).map fun _ => rfl
  · have htext : (move g l).text = l.text := rfl
    rw [htext]
    split
    · exact Moves.pure rfl
    · exact Moves.fail rfl
  · exact Moves.pure rfl
  · exact Moves.pure rfl
  · exact unexpected_moves g _ (some l)

theorem textLit_moves (g : Nat → Nat) : Moves g textLit textLit := by
  refine next_bind_moves (unexpected_moves g _ none) fun l hl => ?_
  show Moves g (if l.token = .str then _ else _) (if l.token = .str then _ else _)
  split
  · next ht => exact (textOf_moves hl ht).bind fun _ => Moves.pure rfl
  · exact unexpected_moves g _ (some l)

end Reader

end Stencil
