/-
  Follow — a machine that does as a reader does.

  A parser of the grammar runs while a tag goes on.  `Follows t k given p q f` says that it then does on a machine
  at depth `k` as it does on the feed of the tag: the tag still goes on when it succeeds, at the same depth, with
  no more lexemes left than before, and the literals in what it gives, the parts `f`, were decoded by calls, if
  those in the parts `given` were.

  The relation passes through sequencing, choice, repetition and nesting, so for a parser of the grammar it is
  proved by following the definition.  Where a lexeme is taken that may close the tag, the rule asks that the
  parser gives up there and then (`Follows.next`): no lexeme behind the closing delimiter is looked at.

  Repetition is bounded by what is left in the source on the one side and by the lexemes of the feed on the
  other; neither bound is reached, as every further round has taken a lexeme.
-/
import Stencil.Proofs.Checked.Agree
import Stencil.Proofs.Part.Basic

namespace Stencil

/-- A part that holds no literal, whatever else it is. -/
def Part.isBare : Part → Bool
  | ident _ | path _ | rest _ => true
  | _ => false

/-- The tokens that close a tag. -/
theorem Token.eq_of_isClosing {t : Token} (h : t.isClosing = true) : t = .endExpr ∨ t = .endBlock := by
  cases t with
  | endExpr => exact .inl rfl
  | endBlock => exact .inr rfl
  | _ => cases h

namespace Checked

open Reader (peek next eat eats tooDeep spelled)

variable {d : Delims} {source : List Char} {t : Frame} {k n limit : Nat} {m m' mid : Machine d source}
  {feed rest : Feed} {α β : Type} {given : List Part} {c : Prop} [Decidable c]

theorem Decoded.of_isBare {calls : List Decoding} {p : Part} (h : p.isBare = true) : Decoded calls p := by
  cases p with
  | ident i => exact decoded_ident i
  | path x => exact decoded_path x
  | rest s => exact decoded_rest s
  | _ => cases h

/-- What is put together from parts at hand. -/
theorem AllDecoded.build {calls : List Decoding} {part : Part} (hgiven : AllDecoded calls given)
    (hliteral : part.isLiteral = false) (h : ∀ p ∈ part.children, p ∈ given ∨ p.isBare = true) :
    Decoded calls part := wrap (fun p hp => (h p hp).elim (hgiven p) .of_isBare) hliteral

/-! ## What a parser leaves -/

variable [Letters]

/-- The tag still goes on at the depth `k`, and the literals in the parts were decoded. -/
structure After (t : Frame) (k : Nat) (m : Machine d source) (feed : Feed) (parts : List Part)
    (m' : Machine d source) (rest : Feed) : Prop where
  live : Live t k m' rest
  calls : m.calls ⊆ m'.calls
  decoded : AllDecoded m'.calls parts
  shorter : rest.lexemes.length ≤ feed.lexemes.length

/-- On a machine at depth `k` the program does as the reader does, and the literals in the parts `f` are decoded if
    those in the parts `given` are. -/
def Follows (t : Frame) (k : Nat) (given : List Part) (p : Program d source α) (q : Reader α)
    (f : α → List Part) : Prop :=
  ∀ m feed, Live t k m feed → AllDecoded m.calls given → Agrees t m feed p q fun a => After t k m feed (f a)

/-- The program and the reader both fail, with the same diagnostic. -/
def Fails (t : Frame) (p : Program d source α) (q : Reader α) : Prop :=
  ∀ m feed, Lost t m → Agrees t m feed p q fun _ _ _ => False

/-- Program and reader only look ahead, and see the same. -/
def Looks (t : Frame) (k : Nat) (p : Program d source α) (q : Reader α) : Prop :=
  ∀ m feed, Live t k m feed → Agrees t m feed p q fun _ m' rest =>
    Live t k m' rest ∧ m'.calls = m.calls ∧ rest = feed

theorem Looks.nextIs (token : Token) : Looks t k (Reader.nextIs token : Program d source _) (Reader.nextIs token) :=
  fun _ _ hlive => (nextIs_agrees hlive token).mono fun _ _ _ _ h => ⟨h.1, h.2.1, h.2.2.1⟩

/-- What holds behind a first step holds behind both. -/
theorem Agrees.behind {p : Program d source α} {q : Reader α} {f : α → List Part} (hcalls : m.calls ⊆ mid.calls)
    (hshorter : rest.lexemes.length ≤ feed.lexemes.length)
    (h : Agrees t mid rest p q fun a => After t k mid rest (f a)) :
    Agrees t mid rest p q fun a => After t k m feed (f a) :=
  h.mono fun _ _ _ _ hafter =>
    ⟨hafter.live, List.Subset.trans hcalls hafter.calls, hafter.decoded, Nat.le_trans hafter.shorter hshorter⟩

theorem Fails.fail (diagnostic : Diagnostic) :
    Fails t (Reader.fail diagnostic : Program d source α) (Reader.fail diagnostic) := fun _ _ hlost => .fail hlost

theorem Fails.unexpected (expected : List Expected) (l : Lexeme) :
    Fails t (Reader.unexpected expected (some l) : Program d source α) (Reader.unexpected expected (some l)) :=
  fun _ _ hlost => .unexpected hlost nofun

/-- A step that takes nothing and cannot fail, before one that does. -/
theorem Fails.computed {p : Program d source α} {q : Reader α} {F : α → Program d source β} {G : α → Reader β} {a : α}
    (hp : ∀ m, p m = .ok (a, m)) (hq : ∀ feed, q feed = .ok (a, feed)) (hF : Fails t (F a) (G a)) :
    Fails t (p >>= F) (q >>= G) := fun m feed hlost =>
  (hF m feed hlost).congr (Reader.bind_of_ok (hp m)) (Reader.bind_of_ok (hq feed))

namespace Follows

variable {p p' : Program d source α} {q q' : Reader α} {f : α → List Part} {g : β → List Part}

theorem of_fails (h : Fails t p q) : Follows t k given p q f := fun m feed hlive _ =>
  (h m feed hlive.lost).mono fun _ _ _ _ hfalse => hfalse.elim

theorem unexpected (expected : List Expected) (l : Lexeme) :
    Follows t k given (Reader.unexpected expected (some l) : Program d source α) (Reader.unexpected expected (some l)) f :=
  .of_fails (.unexpected expected l)

/-! ## Sequencing and choice -/

/-- Giving what has been put together. -/
theorem pure {a : α} (h : ∀ calls, AllDecoded calls given → AllDecoded calls (f a)) :
    Follows t k given (Pure.pure a : Program d source α) (Pure.pure a) f := fun _ _ hlive hgiven =>
  .pure ⟨hlive, fun _ hcall => hcall, h _ hgiven, Nat.le_refl _⟩

/-- Giving parts that are at hand. -/
theorem give {a : α} (h : ∀ p ∈ f a, p ∈ given ∨ p.isBare = true) :
    Follows t k given (Pure.pure a : Program d source α) (Pure.pure a) f :=
  pure fun _ hgiven p hp => (h p hp).elim (hgiven p) .of_isBare

/-- Giving the parts that have been read last. -/
theorem give_left {a : α} {parts : List Part} (h : f a = parts) :
    Follows t k (parts ++ given) (Pure.pure a : Program d source α) (Pure.pure a) f :=
  give fun _ hp => .inl (List.mem_append_left _ (h ▸ hp))

/-- Giving a part that is put together from others. -/
theorem node {a : α} {part : Part} (hpart : f a = [part]) (hliteral : part.isLiteral = false)
    (h : ∀ p ∈ part.children, p ∈ given ∨ p.isBare = true) :
    Follows t k given (Pure.pure a : Program d source α) (Pure.pure a) f :=
  pure fun _ hgiven => by
    rw [hpart]
    exact List.forall_mem_singleton.2 (hgiven.build hliteral h)

/-- Going on with a part that is put together from others. -/
theorem with_node {part : Part} (hp : Follows t k [part] p q f) (hliteral : part.isLiteral = false)
    (h : ∀ p ∈ part.children, p ∈ given ∨ p.isBare = true) : Follows t k given p q f :=
  fun m feed hlive hgiven => hp m feed hlive (List.forall_mem_singleton.2 (hgiven.build hliteral h))

theorem bind {F : α → Program d source β} {G : α → Reader β} (hp : Follows t k given p q f)
    (hF : ∀ a, Follows t k (f a ++ given) (F a) (G a) g) : Follows t k given (p >>= F) (q >>= G) g :=
  fun m feed hlive hgiven => (hp m feed hlive hgiven).bind fun a mid rest _ hafter =>
    (hF a mid rest hafter.live (AllDecoded.append_iff.2 ⟨hafter.decoded, hgiven.mono hafter.calls⟩)).behind
      hafter.calls hafter.shorter

theorem map {F : α → β} (hp : Follows t k given p q f)
    (hF : ∀ a, Follows t k (f a ++ given) (Pure.pure (F a) : Program d source β) (Pure.pure (F a)) g) :
    Follows t k given (F <$> p) (F <$> q) g := hp.bind hF

theorem ite (h : c → Follows t k given p q f) (h' : ¬ c → Follows t k given p' q' f) :
    Follows t k given (if c then p else p') (if c then q else q') f := by
  by_cases hc : c
  · rw [if_pos hc, if_pos hc]
    exact h hc
  · rw [if_neg hc, if_neg hc]
    exact h' hc

/-- Only what is given has to be decoded. -/
theorem weaken {parts : List Part} (h : Follows t k parts p q f) (hsub : parts ⊆ given) :
    Follows t k given p q f := fun m feed hlive hgiven => h m feed hlive (hgiven.sublist hsub)

theorem of_nil (h : Follows t k [] p q f) : Follows t k given p q f := h.weaken (List.nil_subset _)

/-- A step that takes nothing and cannot fail. -/
theorem computed {F : α → Program d source β} {G : α → Reader β} {a : α} (hp : ∀ m, p m = .ok (a, m))
    (hq : ∀ feed, q feed = .ok (a, feed)) (hF : Follows t k given (F a) (G a) g) :
    Follows t k given (p >>= F) (q >>= G) g := by
  intro m feed hlive hgiven
  exact (hF m feed hlive hgiven).congr (Reader.bind_of_ok (hp m)) (Reader.bind_of_ok (hq feed))

/-! ## Lexemes -/

/-- A step that has only looked ahead. -/
theorem of_looks (h : Looks t k p q) : Follows t k given p q fun _ => [] := fun m feed hlive _ =>
  (h m feed hlive).mono fun _ _ _ _ ⟨hlive, hcalls, hrest⟩ =>
    ⟨hlive, fun _ hcall => hcalls ▸ hcall, .nil, Nat.le_of_eq (by rw [hrest])⟩

/-- What has been seen tells about the lexemes that are left. -/
theorem looks_bind {F : α → Program d source β} {G : α → Reader β} (hp : Looks t k p q)
    (hF : ∀ a m feed, q feed = .ok (a, feed) → Live t k m feed → AllDecoded m.calls given →
      Agrees t m feed (F a) (G a) fun b => After t k m feed (g b)) :
    Follows t k given (p >>= F) (q >>= G) g :=
  fun m feed hlive hgiven => (hp m feed hlive).bind fun a mid rest hq hseen => by
    obtain ⟨hmid, hcalls, rfl⟩ := hseen
    exact (hF a mid rest hq hmid (hcalls ▸ hgiven)).behind (fun _ hcall => hcalls ▸ hcall) (Nat.le_refl _)

theorem nextIs (token : Token) :
    Follows t k given (Reader.nextIs token : Program d source _) (Reader.nextIs token) fun _ => [] :=
  .of_looks (.nextIs token)

/-- An item that stands where it is looked for. -/
theorem item_bind {items : List α} {i : Nat} {x : α} {F : α → Program d source β} {G : α → Reader β}
    (h : items[i]? = some x) (hF : Follows t k given (F x) (G x) g) :
    Follows t k given ((Reader.item items i x : Program d source α) >>= F) (Reader.item items i x >>= G) g :=
  computed (fun m => show Machine.cut items[i]? m = _ by rw [h]; rfl) (fun _ => rfl) hF

theorem item {items : List α} {i : Nat} {x : α} (h : items[i]? = some x) (hx : ∀ p ∈ f x, p ∈ given ∨ p.isBare = true) :
    Follows t k given (Reader.item items i x : Program d source α) (Reader.item items i x) f :=
  fun m feed hlive hgiven => (give hx m feed hlive hgiven).congr (show Machine.cut items[i]? m = _ by rw [h]; rfl) rfl

theorem difference_bind {a b : Nat} {F : Nat → Program d source β} {G : Nat → Reader β} (h : b ≤ a)
    (hF : Follows t k given (F (a - b)) (G (a - b)) g) :
    Follows t k given ((Reader.difference a b : Program d source Nat) >>= F) (Reader.difference a b >>= G) g :=
  computed (fun m => show Machine.cut (sub? a b) m = _ by rw [sub?_of_le h]; rfl) (fun _ => rfl) hF

/-- Whatever is seen next, the machine goes on in step with the feed. -/
theorem peek_bind {F : Option Lexeme → Program d source β} {G : Option Lexeme → Reader β}
    (hF : ∀ m feed, Live t k m feed → AllDecoded m.calls given →
      (feed.lexemes.head? = none → feed.stop = .atEnd (byteLen source)) →
      Agrees t m feed (F feed.lexemes.head?) (G feed.lexemes.head?) fun b => After t k m feed (g b)) :
    Follows t k given ((peek : Program d source _) >>= F) (peek >>= G) g := by
  intro m feed hlive hgiven
  refine (peek_agrees hlive).bind fun found mid rest _ hseen => ?_
  obtain ⟨hmid, hcalls, rfl, rfl, hstop⟩ := hseen
  exact (hF mid rest hmid (hcalls ▸ hgiven) hstop).behind (fun _ hcall => hcalls ▸ hcall) (Nat.le_refl _)

/-- A lexeme is taken.  Where there is none, and where it closes the tag, the parser fails. -/
theorem next_bind {F : Option Lexeme → Program d source β} {G : Option Lexeme → Reader β} {expected : List Expected}
    (hnone : F none = Reader.unexpected expected none ∧ G none = Reader.unexpected expected none)
    (hclosing : ∀ l : Lexeme, l.Sits d source → l.token.isClosing = true → Fails t (F (some l)) (G (some l)))
    (hword : ∀ l : Lexeme, l.Sits d source → l.token.isClosing = false →
      Follows t k given (F (some l)) (G (some l)) g) :
    Follows t k given ((next : Program d source _) >>= F) (next >>= G) g := by
  intro m feed hlive hgiven
  refine (next_agrees hlive).bind fun found mid rest _ htook => ?_
  cases htook with
  | none live calls stop =>
    rw [hnone.1, hnone.2]
    exact .unexpected live.lost fun _ => stop
  | @word l _ _ lexemes inside live calls =>
    have hsits : l.Sits d source := hlive.sits l (by rw [lexemes]; exact List.mem_cons_self)
    refine (hword l hsits inside mid rest live (calls ▸ hgiven)).behind (fun _ hcall => calls ▸ hcall) ?_
    rw [lexemes]
    exact Nat.le_succ _
  | @closing l _ _ lexemes closing closed lost calls =>
    have hsits : l.Sits d source := hlive.sits l (by rw [lexemes]; exact List.mem_cons_self)
    exact (hclosing l hsits closing mid rest lost).mono fun _ _ _ _ hfalse => hfalse.elim

end Follows

/-- A lexeme is taken that has been seen before and does not close the tag. -/
theorem next_agrees_of_head {l : Lexeme} (h : Live t k m feed) (hhead : feed.lexemes.head? = some l)
    (hinside : l.token.isClosing = false) :
    Agrees t m feed (next : Program d source _) next fun found m' rest =>
      found = some l ∧ Live t k m' rest ∧ m'.calls = m.calls ∧ feed.lexemes = l :: rest.lexemes := by
  refine (next_agrees h).mono fun found mid rest hnext htook => ?_
  obtain ⟨ls, hls⟩ := List.head?_eq_some_iff.1 hhead
  rw [Reader.next_cons hls] at hnext
  cases hnext
  cases htook with
  | word lexemes inside live calls => exact ⟨rfl, live, calls, lexemes⟩
  | closing lexemes closing => rw [closing] at hinside; cases hinside

theorem Follows.next_of_head {F : Option Lexeme → Program d source β} {G : Option Lexeme → Reader β}
    {g : β → List Part} {l : Lexeme} (hF : Follows t k given (F (some l)) (G (some l)) g) (h : Live t k m feed)
    (hgiven : AllDecoded m.calls given) (hhead : feed.lexemes.head? = some l) (hinside : l.token.isClosing = false) :
    Agrees t m feed (next >>= F) (next >>= G) fun b => After t k m feed (g b) := by
  refine (next_agrees_of_head h hhead hinside).bind fun found mid rest _ htaken => ?_
  obtain ⟨rfl, hmid, hcalls, hls⟩ := htaken
  refine (hF mid rest hmid (hcalls ▸ hgiven)).behind (fun _ hcall => hcalls ▸ hcall) ?_
  rw [hls]
  exact Nat.le_succ _

/-- A token is taken if it is next. -/
theorem eat_agrees (h : Live t k m feed) {token : Token} (ht : token.isClosing = false) :
    Agrees t m feed (eat token : Program d source _) (eat token) fun found m' rest =>
      Live t k m' rest ∧ m'.calls = m.calls ∧ (found = none ∧ rest = feed ∨
        ∃ l, found = some l ∧ feed.lexemes = l :: rest.lexemes) := by
  refine (nextIs_agrees h token).bind fun b mid rest _ hseen => ?_
  obtain ⟨hmid, hcalls, rfl, hb⟩ := hseen
  by_cases htrue : b = true
  · obtain ⟨l, hhead, htoken⟩ := (Option.any_eq_true _ _).1 (hb ▸ htrue)
    have hinside : l.token.isClosing = false := by rw [beq_iff_eq.1 htoken]; exact ht
    rw [if_pos htrue, if_pos htrue]
    refine (next_agrees_of_head hmid hhead hinside).mono fun found m' after _ htaken => ?_
    obtain ⟨hfound, hlive, hcalls', hls⟩ := htaken
    exact ⟨hlive, hcalls'.trans hcalls, .inr ⟨l, hfound, hls⟩⟩
  · rw [if_neg htrue, if_neg htrue]
    exact .pure ⟨hmid, hcalls, .inl ⟨rfl, rfl⟩⟩

theorem eats_agrees (h : Live t k m feed) {token : Token} (ht : token.isClosing = false) :
    Agrees t m feed (eats token : Program d source _) (eats token) fun b m' rest =>
      Live t k m' rest ∧ m'.calls = m.calls ∧ (b = false ∧ rest = feed ∨
        b = true ∧ rest.lexemes.length < feed.lexemes.length) := by
  refine (eat_agrees h ht).bind fun found mid rest _ htook => .pure ?_
  obtain ⟨hlive, hcalls, ⟨rfl, hrest⟩ | ⟨l, rfl, hls⟩⟩ := htook
  · exact ⟨hlive, hcalls, .inl ⟨rfl, hrest⟩⟩
  · exact ⟨hlive, hcalls, .inr ⟨rfl, by rw [hls]; exact Nat.lt_succ_self _⟩⟩

namespace Follows

variable {f : α → List Part} {g : β → List Part} {token : Token}

theorem eat (ht : token.isClosing = false) :
    Follows t k given (Reader.eat token : Program d source _) (Reader.eat token) fun _ => [] := fun _ _ hlive _ =>
  (eat_agrees hlive ht).mono fun _ _ _ _ ⟨hlive, hcalls, htook⟩ =>
    ⟨hlive, fun _ hcall => hcalls ▸ hcall, .nil, by
      obtain ⟨-, rfl⟩ | ⟨l, -, hls⟩ := htook
      · exact Nat.le_refl _
      · rw [hls]
        exact Nat.le_succ _⟩

theorem eats (ht : token.isClosing = false) :
    Follows t k given (Reader.eats token : Program d source _) (Reader.eats token) fun _ => [] :=
  (eat ht).bind fun _ => give (List.forall_mem_nil _)

theorem expect (ht : token.isClosing = false) :
    Follows t k given (Reader.expect token : Program d source _) (Reader.expect token) fun _ => [] := by
  refine next_bind ⟨rfl, rfl⟩ (fun l _ hclosing => ?_) fun l _ _ => ?_
  · have hne : l.token ≠ token := fun h => by rw [h, ht] at hclosing; cases hclosing
    dsimp only
    rw [if_neg hne, if_neg hne]
    exact .unexpected _ l
  · exact .ite (fun _ => give (List.forall_mem_nil _)) fun _ => .unexpected _ l

theorem last : Follows t k given (Reader.last : Program d source _) Reader.last fun _ => [] := by
  intro m feed hlive _
  have hprogram : (Reader.last : Program d source _) m = .ok (feed.last, m) := by
    rw [← hlive.last]
    rfl
  exact .ok rfl hprogram ⟨hlive, fun _ hcall => hcall, .nil, Nat.le_refl _⟩

/-! ## Texts and constants -/

theorem spelled_bind {l : Lexeme} {F : List Char → Program d source β} {G : List Char → Reader β}
    (hl : l.Sits d source) (hF : Follows t k given (F l.text) (G l.text) g) :
    Follows t k given ((spelled l : Program d source _) >>= F) (spelled l >>= G) g :=
  computed (fun m => show Machine.cut (slice? l.span source) m = _ by rw [hl.text]; rfl) (fun _ => rfl) hF

theorem nameOf {l : Lexeme} (hl : l.Sits d source) :
    Follows t k given (Reader.nameOf l : Program d source _) (Reader.nameOf l) fun i => [.ident i] :=
  spelled_bind hl (give fun _ hp => .inr (by rw [List.mem_singleton.1 hp]; rfl))

theorem ident : Follows t k given (Reader.ident : Program d source _) Reader.ident fun i => [.ident i] := by
  refine next_bind ⟨rfl, rfl⟩ (fun l _ hclosing => ?_) fun l hl _ => ?_
  · dsimp only
    rw [Token.isName_of_isClosing hclosing]
    exact .unexpected _ l
  · exact .ite (fun _ => nameOf hl) fun _ => .unexpected _ l

theorem ident? : Follows t k given (Reader.ident? : Program d source _) Reader.ident? fun i => i.toList.map .ident := by
  refine peek_bind fun m feed hlive hgiven _ => ?_
  refine ite (fun _ => ?_) (fun _ => ?_) m feed hlive hgiven
  · exact ident.map fun _ => give_left rfl
  · exact give (List.forall_mem_nil _)

end Follows

/-- A call that decodes a literal soundly, and gives what the reader gives. -/
theorem decode_agrees {x : Option (Except Diagnostic α)} {call : Except Diagnostic α → Decoding} {q : Reader α}
    {result : Except Diagnostic α} {P : α → Machine d source → Feed → Prop} (hx : x = some result)
    (hq : q feed = result.map fun a => (a, feed)) (hlost : Lost t (m.noting (call result)))
    (hP : ∀ a, result = .ok a → P a (m.noting (call result)) feed) :
    Agrees t m feed (Machine.decode x call) q P := by
  subst hx
  cases result with
  | ok a => exact .ok hq rfl (hP a rfl)
  | error diagnostic => exact .failed hq rfl hlost

/-- As a step of a parser, where what it gives is part of what the call gave. -/
theorem decode_follows {x : Option (Except Diagnostic α)} {call : Except Diagnostic α → Decoding} {q : Reader α}
    {result : Except Diagnostic α} {f : α → List Part} (hx : x = some result)
    (hq : ∀ feed, q feed = result.map fun a => (a, feed)) (hsound : (call result).Sound source)
    (hf : ∀ a, result = .ok a → ∀ p ∈ f a, (call result).Gives p ∧ p.children = []) :
    Follows t k given (Machine.decode x call : Program d source α) q f := by
  intro m feed hlive _
  refine decode_agrees hx (hq feed) (hlive.noting hsound).lost fun a ha => ?_
  refine ⟨hlive.noting hsound, List.subset_append_left _ _, fun p hp => ?_, Nat.le_refl _⟩
  obtain ⟨hgives, hchildren⟩ := hf a ha p hp
  exact .of_call (List.mem_append_right _ (List.mem_singleton_self _)) hgives hchildren

/-- Decoding the closing delimiter in place of a literal fails. -/
theorem Fails.literalOf {l : Lexeme} (hl : l.Sits d source) (hclosing : l.token.isClosing = true) (negative : Bool) :
    Fails t (Reader.literalOf l negative : Program d source _) (Reader.literalOf l negative) := by
  intro m feed hlost
  obtain ⟨result, hresult, hreader, hsound⟩ := literalOf?_eq hl negative
  refine decode_agrees hresult (hreader feed) (hlost.noting hsound) fun v hv => ?_
  rw [hv] at hresult
  unfold literalOf? at hresult
  split at hresult <;> rename_i ht
  · rw [ht] at hclosing; cases hclosing
  · rw [ht] at hclosing; cases hclosing
  · rw [ht] at hclosing; cases hclosing
  · rw [ht] at hclosing; cases hclosing
  · rw [ht] at hclosing; cases hclosing
  · cases hresult

namespace Follows

variable {l : Lexeme}

/-- A constant; its place may begin at a minus sign. -/
theorem literalOf (hl : l.Sits d source) (negative : Bool) {s : Span}
    (hs : s = l.span ∨ negative = true ∧ ∃ minus : Span, s = minus.join l.span) :
    Follows t k given (Reader.literalOf l negative : Program d source _) (Reader.literalOf l negative)
      fun v => [.expr (.lit v s), .pattern (.lit v s)] := by
  obtain ⟨result, hresult, hreader, hsound⟩ := literalOf?_eq hl negative
  refine decode_follows hresult hreader hsound fun v hv p hp => ?_
  subst hv
  rcases List.mem_pair.1 hp with rfl | rfl
  · exact ⟨.expr hs, rfl⟩
  · exact ⟨.pattern hs, rfl⟩

theorem textOf (hl : l.Sits d source) (ht : l.token = .str) :
    Follows t k given (Reader.textOf l : Program d source _) (Reader.textOf l)
      fun value => [.text ⟨value, l.span⟩] := by
  obtain ⟨value, hvalue, htext⟩ := textOf?_eq hl ht
  refine decode_follows htext (fun feed => ?_) ⟨hl.text, ht, value, hvalue, rfl⟩ fun v hv p hp => ?_
  · show Feed.textOf l feed = _
    unfold Feed.textOf
    rw [hvalue]
    rfl
  · rw [List.mem_singleton.1 hp, hv]
    exact ⟨.text, rfl⟩

theorem indexOf (hl : l.Sits d source) (ht : l.token = .number) (hdigits : l.text.all (·.isDigit) = true) :
    Follows t k given (Reader.indexOf l : Program d source _) (Reader.indexOf l)
      fun n => [.key (.index n l.span)] := by
  obtain ⟨result, hresult, hreader, hsound⟩ := indexOf?_eq hl ht hdigits
  refine decode_follows hresult hreader hsound fun n hn p hp => ?_
  rw [List.mem_singleton.1 hp, hn]
  exact ⟨.key, rfl⟩

theorem textLit : Follows t k given (Reader.textLit : Program d source _) Reader.textLit fun x => [.text x] := by
  refine next_bind ⟨rfl, rfl⟩ (fun l _ hclosing => ?_) fun l hl _ => ?_
  · have hne : l.token ≠ .str := fun h => by rw [h] at hclosing; cases hclosing
    dsimp only
    rw [if_neg hne, if_neg hne]
    exact .unexpected _ l
  · refine .ite (fun ht => (textOf hl ht).bind fun value => ?_) fun _ => .unexpected _ l
    exact give_left rfl

/-- The place and the text of a macro name without its mark, which is one byte long. -/
theorem stem_bind {F : Span × List Char → Program d source β} {G : Span × List Char → Reader β} {g : β → List Part}
    (hl : l.Sits d source) (ht : l.token = .macroName)
    (hF : ∀ x, Follows t k given (F x) (G x) g) :
    Follows t k given ((Reader.stem l : Program d source _) >>= F) (Reader.stem l >>= G) g := by
  obtain ⟨hsub, hname⟩ := cut_macroName hl ht
  refine computed (a := (⟨l.span.start, l.span.stop - 1⟩, l.text.dropLast)) (fun m => ?_) (fun _ => rfl) (hF _)
  show Machine.stem l m = _
  unfold Machine.stem
  rw [hsub]
  have hcut : ∀ m, (Machine.cut (slice? ⟨l.span.start, l.span.stop - 1⟩ source) : Program d source _) m =
      .ok (l.text.dropLast, m) := fun m => by rw [hname]; rfl
  exact Reader.bind_of_ok (hcut m)

end Follows

/-! ## Levels of nesting -/

/-- Going too deep fails alike, whatever is read there. -/
theorem tooDeep_agrees (h : Live t k m feed) (limit : Nat) :
    ∃ (diagnostic : Diagnostic) (m' : Machine d source), (tooDeep limit : Reader β) feed = .error diagnostic ∧
      (tooDeep limit : Program d source α) m = .error (.failed diagnostic m') ∧ Lost t m' := by
  cases peek_agrees h with
  | failed reader program lost => exact ⟨_, _, Reader.bind_of_error reader, Reader.bind_of_error program, lost⟩
  | @ok found mid rest reader program seen =>
    obtain ⟨hmid, -, rfl, rfl, hstop⟩ := seen
    cases hl : rest.lexemes.head? with
    | some l =>
      rw [hl] at reader program
      exact ⟨_, _, Reader.bind_of_ok reader, Reader.bind_of_ok program, hmid.lost⟩
    | none =>
      have heof : Reader.eof rest = .ok (Span.point (byteLen source), rest) := by
        rw [Reader.eof_feed, Feed.eof, hstop hl]
      rw [hl] at reader program
      exact ⟨_, _, (Reader.bind_of_ok reader).trans (Reader.bind_of_ok heof), Reader.bind_of_ok program, hmid.lost⟩

namespace Follows

variable {p : Program d source α} {q : Reader α} {f : α → List Part}

/-- Going a level down, and coming back up from it. -/
theorem within_agrees (hk : k < limit) (hlive : Live t k m feed)
    (h : Agrees t (m.sunk (k + 1)) feed p q fun a => After t (k + 1) (m.sunk (k + 1)) feed (f a)) :
    Agrees t m feed (Reader.within limit p) q fun a => After t k m feed (f a) := by
  have henter : Machine.enter limit m = .ok ((), m.sunk (k + 1)) := by
    unfold Machine.enter
    rw [hlive.depth, if_neg (Nat.not_lt.2 hk)]
  have hwithin : (Reader.within limit p : Program d source α) m =
      (p >>= fun x => Machine.leave >>= fun _ => Pure.pure x) (m.sunk (k + 1)) := Reader.bind_of_ok henter
  cases h with
  | @ok x after rest reader program post =>
    have hleave : Machine.leave after = .ok ((), after.sunk k) := by
      unfold Machine.leave
      rw [post.live.depth, sub?_add]
    have hrun := (Reader.bind_of_ok (k := fun x => Machine.leave >>= fun _ => Pure.pure x) program).trans
      (Reader.bind_of_ok hleave)
    exact .ok reader (hwithin.trans hrun) ⟨post.live.sunk k, post.calls, post.decoded, post.shorter⟩
  | failed reader program lost => exact .failed reader (hwithin.trans (Reader.bind_of_error program)) lost

theorem within (hk : k < limit) (h : Follows t (k + 1) given p q f) :
    Follows t k given (Reader.within limit p) q f := fun m feed hlive hgiven =>
  within_agrees hk hlive (h (m.sunk (k + 1)) feed (hlive.sunk (k + 1)) hgiven)

/-- At the limit the next lexeme is where the nesting goes too deep. -/
theorem enter_fails (hk : limit ≤ k) (hlive : Live t k m feed) :
    ∃ (diagnostic : Diagnostic) (m' : Machine d source), (Reader.beyond limit : Reader α) feed = .error diagnostic ∧
      Machine.enter limit m = .error (.failed diagnostic m') ∧ Lost t m' := by
  have henter : Machine.enter limit m = tooDeep limit (m.sunk (k + 1)) := by
    unfold Machine.enter
    rw [hlive.depth, if_pos (Nat.lt_succ_of_le hk)]
  obtain ⟨diagnostic, m', hreader, hprogram, hlost⟩ := tooDeep_agrees (hlive.sunk (k + 1)) limit
  exact ⟨diagnostic, m', hreader, henter.trans hprogram, hlost⟩

theorem beyond (hk : limit ≤ k) :
    Follows t k given (Reader.beyond limit : Program d source α) (Reader.beyond limit) f := by
  intro m feed hlive _
  obtain ⟨diagnostic, m', hreader, henter, hlost⟩ := enter_fails (α := α) hk hlive
  exact .failed hreader (Reader.bind_of_error henter) hlost

/-- A reader that is told of no level left fails where the machine enters one too many. -/
theorem within_beyond (hk : limit ≤ k) :
    Follows t k given (Reader.within limit p) (Reader.beyond limit) f := by
  intro m feed hlive _
  obtain ⟨diagnostic, m', hreader, henter, hlost⟩ := enter_fails (α := α) hk hlive
  exact .failed hreader (Reader.bind_of_error henter) hlost

theorem within_bind_beyond {F : α → Program d source β} {g : β → List Part} (hk : limit ≤ k) :
    Follows t k given (Reader.within limit p >>= F) (Reader.beyond limit) g := by
  intro m feed hlive _
  obtain ⟨diagnostic, m', hreader, henter, hlost⟩ := enter_fails (α := β) hk hlive
  exact .failed hreader (Reader.bind_of_error (Reader.bind_of_error henter)) hlost

end Follows

/-! ## Repetition -/

/-- As `Follows` for an item of a repetition: if there is one, a lexeme has been taken. -/
def FollowsItem (t : Frame) (k : Nat) (given : List Part) (p : Program d source (Option α)) (q : Reader (Option α))
    (f : α → List Part) : Prop :=
  ∀ m feed, Live t k m feed → AllDecoded m.calls given → Agrees t m feed p q fun found m' rest =>
    After t k m feed (found.toList.flatMap f) m' rest ∧
      (found.isSome = true → rest.lexemes.length < feed.lexemes.length)

namespace FollowsItem

variable {p : Program d source α} {q : Reader α} {item item' : Program d source (Option α)}
  {other other' : Reader (Option α)} {f : α → List Part} {token : Token}

theorem none : FollowsItem t k given (pure none : Program d source (Option α)) (pure none) f :=
  fun _ _ hlive _ => .pure ⟨⟨hlive, fun _ hcall => hcall, .nil, Nat.le_refl _⟩, nofun⟩

/-- An item that begins with a token of its own. -/
theorem guarded (ht : token.isClosing = false) (hp : Follows t k given p q f)
    (hother : FollowsItem t k given item other f) :
    FollowsItem t k given (do if ← eats token then some <$> p else item)
      (do if ← eats token then some <$> q else other) f := by
  intro m feed hlive hgiven
  refine (eats_agrees hlive ht).bind fun b mid rest _ htook => ?_
  obtain ⟨hmid, hcalls, ⟨rfl, rfl⟩ | ⟨rfl, hlt⟩⟩ := htook
  · refine (hother mid rest hmid (hcalls ▸ hgiven)).mono fun found m' after _ hafter => ?_
    obtain ⟨⟨live, calls, decoded, shorter⟩, hsome⟩ := hafter
    exact ⟨⟨live, fun _ hcall => calls (hcalls ▸ hcall), decoded, shorter⟩, hsome⟩
  · refine (hp mid rest hmid (hcalls ▸ hgiven)).bind fun x m' after _ hafter => .pure ?_
    obtain ⟨live, calls, decoded, shorter⟩ := hafter
    refine ⟨⟨live, fun _ hcall => calls (hcalls ▸ hcall), ?_, by omega⟩, fun _ => by omega⟩
    show AllDecoded m'.calls ([x].flatMap f)
    rw [List.flatMap_singleton]
    exact decoded

/-- Neither of the two bounds is reached. -/
theorem manyFrom (h : FollowsItem t k given item other f) {fuel fuel' : Nat} (hlive : Live t k m feed)
    (hgiven : AllDecoded m.calls given) (hfuel : feed.lexemes.length < fuel)
    (hfuel' : feed.lexemes.length < fuel') :
    Agrees t m feed (Reader.manyFrom item fuel) (Reader.manyFrom other fuel')
      fun xs => After t k m feed (xs.flatMap f) := by
  induction fuel generalizing m feed fuel' with
  | zero => omega
  | succ fuel ih =>
    obtain ⟨fuel', rfl⟩ := Nat.exists_eq_succ_of_ne_zero (Nat.ne_zero_of_lt hfuel')
    refine (h m feed hlive hgiven).bind fun found mid rest _ hitem => ?_
    -- An item takes a lexeme, so both bounds stay above what is left.
    obtain ⟨⟨live, calls, decoded, shorter⟩, hsome⟩ := hitem
    cases found with
    | none => exact .pure ⟨live, calls, .nil, shorter⟩
    | some x =>
      have hlt := hsome rfl
      refine (ih live (hgiven.mono calls) (by omega) (by omega)).bind fun xs m' after _ hafter => .pure ?_
      have hfirst : AllDecoded mid.calls (f x) := by
        rw [← List.flatMap_singleton f x]
        exact decoded
      refine ⟨hafter.live, List.Subset.trans calls hafter.calls, ?_, by have := hafter.shorter; omega⟩
      rw [List.flatMap_cons, AllDecoded.append_iff]
      exact ⟨hfirst.mono hafter.calls, hafter.decoded⟩

theorem many (h : FollowsItem t k given item other f) :
    Follows t k given (Reader.many item) (Reader.many other) fun xs => xs.flatMap f :=
  fun _ _ hlive hgiven =>
    (h.manyFrom hlive hgiven (Nat.lt_succ_of_lt hlive.bounded) (Nat.lt_succ_self _)).congr rfl rfl

end FollowsItem

namespace Follows

variable {p : Program d source α} {q : Reader α} {f : α → List Part} {close : Token}

/-- A bracketed list; every round but the last takes a comma. -/
theorem seqFrom (h : Follows t k given p q f) (hclose : close.isClosing = false) {fuel fuel' : Nat} {trailing : Bool}
    (hlive : Live t k m feed) (hgiven : AllDecoded m.calls given) (hfuel : feed.lexemes.length ≤ fuel)
    (hfuel' : feed.lexemes.length ≤ fuel') :
    Agrees t m feed (Reader.seqFrom close p fuel trailing) (Reader.seqFrom close q fuel' trailing)
      fun s => After t k m feed (s.items.flatMap f) := by
  induction fuel using Nat.strongRecOn generalizing m feed fuel' trailing with
  | ind fuel ih =>
    unfold Reader.seqFrom
    refine (eat_agrees hlive hclose).bind fun found mid rest _ htook => ?_
    obtain ⟨hmid, hcalls, ⟨rfl, rfl⟩ | ⟨l, rfl, hls⟩⟩ := htook
    · refine (h mid rest hmid (hcalls ▸ hgiven)).bind fun x m₁ feed₁ _ hitem => ?_
      have hsofar : m.calls ⊆ m₁.calls := fun _ hcall => hitem.calls (hcalls ▸ hcall)
      have hleft := hitem.shorter
      refine (next_agrees hitem.live).bind fun found m₂ feed₂ _ htook => ?_
      cases htook with
      | none live calls stop => exact .unexpected live.lost fun _ => stop
      | @word l _ _ lexemes inside live calls =>
        rw [← calls] at hsofar
        have hx : AllDecoded m₂.calls (f x) := calls ▸ hitem.decoded
        rw [lexemes, List.length_cons] at hleft
        dsimp only
        -- Behind an item: a comma and the other items, the end of the list, or what does not fit.
        by_cases hcomma : l.token = .comma
        · rw [if_pos hcomma, if_pos hcomma]
          obtain ⟨fuel, rfl⟩ := Nat.exists_eq_succ_of_ne_zero (show fuel ≠ 0 by omega)
          obtain ⟨fuel', rfl⟩ := Nat.exists_eq_succ_of_ne_zero (show fuel' ≠ 0 by omega)
          refine (ih fuel (Nat.lt_succ_self fuel) live (hgiven.mono hsofar) (by omega) (by omega)).bind
            fun s m₃ feed₃ _ hafter => .pure ?_
          refine ⟨hafter.live, List.Subset.trans hsofar hafter.calls, ?_, by have := hafter.shorter; omega⟩
          rw [List.flatMap_cons, AllDecoded.append_iff]
          exact ⟨hx.mono hafter.calls, hafter.decoded⟩
        · rw [if_neg hcomma, if_neg hcomma]
          by_cases hend : l.token = close
          · rw [if_pos hend, if_pos hend]
            refine .pure ⟨live, hsofar, ?_, by omega⟩
            show AllDecoded m₂.calls ([x].flatMap f)
            rw [List.flatMap_singleton]
            exact hx
          · rw [if_neg hend, if_neg hend]
            exact .unexpected live.lost fun h => by cases h
      | @closing l _ _ lexemes closing closed lost calls =>
        have hcomma : l.token ≠ .comma := fun ht => by rw [ht] at closing; cases closing
        have hend : l.token ≠ close := fun ht => by rw [ht, hclose] at closing; cases closing
        dsimp only
        rw [if_neg hcomma, if_neg hend, if_neg hcomma, if_neg hend]
        exact .unexpected lost fun h => by cases h
    · refine .pure ⟨hmid, fun _ hcall => hcalls ▸ hcall, .nil, ?_⟩
      rw [hls]
      exact Nat.le_succ _

theorem seq (h : Follows t k given p q f) (hclose : close.isClosing = false) :
    Follows t k given (Reader.seq close p) (Reader.seq close q) fun s => s.items.flatMap f :=
  fun _ _ hlive hgiven =>
    (h.seqFrom hclose hlive hgiven (Nat.le_of_lt hlive.bounded) (Nat.le_refl _)).congr rfl rfl

end Follows

omit [Letters] in
/-- The items of a list are at hand when they have been read one by one. -/
theorem mem_items {items : List α} {F : α → Part} {part : Part} (h : part ∈ items.map F) :
    part ∈ items.flatMap (fun x => [F x]) ++ given := by
  obtain ⟨x, hx, rfl⟩ := List.mem_map.1 h
  exact List.mem_append_left _ (List.mem_flatMap.2 ⟨x, hx, List.mem_singleton_self _⟩)

end Checked

end Stencil
