/-
  Turn — what reading one region does.

  `regions` reads a source region by region.  `Turn s lx r next` says that at the place `lx` the
  region `r` is read and reading goes on at `next`; a run is made of turns (`regions_induction`).
  Between turns the lexer is never inside a tag, however the last tag was left: by its closing
  delimiter, by a fault and a search for its end, or by an opening delimiter that should not be there.

  `Turn.covers` is the one fact about a turn that everything else rests on: the node of the region
  spans exactly the text between the two places.  For a tag that has been read this needs to know
  that its closing delimiter is the last lexeme of the feed, and that readers take lexemes from the
  feed only.
-/
import Stencil.Proofs.Lexer.Tag
import Stencil.Proofs.Reader.Take
import Stencil.Proofs.Uniform.Stmt

namespace Stencil

/-- Whether the node is the body of a raw block. -/
def Node.isRaw : Node → Bool
  | raw .. => true
  | _ => false

/-- Whether the node is a tag that could not be read. -/
def Node.isError : Node → Bool
  | error .. => true
  | _ => false

/-! ## The lexemes of a tag -/

theorem quotedBody_of_eq {l : Lexeme} {quote : Char} {body : List Char}
    (h : l.text = quote :: body ++ [quote]) : Reader.quotedBody l = body := by
  rw [Reader.quotedBody, h]
  exact List.dropLast_concat

/-- The lexemes of a tag are regular for every move that commutes with stepping back by one. -/
theorem Lexer.regular_feed [Letters] {d : Delims} {lx : Lexer} {kind : TagKind} {afterDot : Bool}
    {g : Nat → Nat} (hg : ∀ n, 0 < n → g (n - 1) = g n - 1) (hm : lx.mode = .tag kind afterDot)
    (stop : Stop) (last : Span) : Feed.Regular g ⟨(lx.feed d).1, stop, last⟩ := by
  intro l hl
  have hraw : lx.mode ≠ .raw := by rw [hm]; exact Mode.noConfusion
  have hspells := spells_of_mem_feed hm hl
  constructor
  · intro _
    have := (inRow_feed hraw).stop_pos hl
    exact hg _ (by omega)
  · intro htoken
    rw [htoken] at hspells
    rcases hspells with hclose | ⟨value, body, htext, -, hvalue⟩
    · cases kind <;> cases hclose
    · exact ⟨value, by rw [quotedBody_of_eq htext]; exact hvalue⟩

namespace Region

/-- The feed that a tag is read from. -/
def feedOf [Letters] (s : Settings) (opening : Lexeme) (lx : Lexer) : Feed :=
  ⟨(lx.feed s.delims).1, (lx.feed s.delims).2.1, opening.span⟩

/-- A tag whose inside can be read becomes a node, and reading goes on after the tag. -/
theorem readTag_of_ok [Letters] {s : Settings} {kind : TagKind} {opening closing : Lexeme} {lx : Lexer}
    {b : Body} {rest : Feed}
    (h : body s.limit kind (feedOf s opening lx) = .ok ((b, closing), rest)) :
    readTag s kind opening lx =
      (⟨some (b.toNode ⟨opening.trim, closing.trim⟩ (opening.span.join closing.span)), none⟩,
        if b.isRaw then { (lx.feed s.delims).2.2 with mode := .raw }
        else (lx.feed s.delims).2.2) := by
  unfold feedOf at h
  unfold readTag
  dsimp only
  rw [h]

/-- A tag whose inside cannot be read becomes an error, and the rest of it is skipped. -/
theorem readTag_of_error [Letters] {s : Settings} {kind : TagKind} {opening : Lexeme} {lx : Lexer}
    {diagnostic : Diagnostic}
    (h : body s.limit kind (feedOf s opening lx) = .error diagnostic) :
    readTag s kind opening lx =
      (⟨some (.error ⟨opening.span.start, ((lx.feed s.delims).2.2.skipTag s.delims).pos⟩),
        some diagnostic⟩, (lx.feed s.delims).2.2.skipTag s.delims) := by
  unfold feedOf at h
  unfold readTag
  dsimp only
  rw [h]

/-- The closing delimiter that ends the inside of a tag is one of the lexemes of the feed. -/
theorem closing_mem_of_body {limit : Nat} {kind : TagKind} {feed rest : Feed} {b : Body}
    {closing : Lexeme} (hf : feed.Regular id)
    (h : body limit kind feed = .ok ((b, closing), rest)) :
    closing ∈ feed.lexemes ∧ closing.token = Token.closes kind := by
  have closing_mem : ∀ {p : Reader Body}, Reader.Moves id p p →
      (do return (← p, ← Reader.expect (Token.closes kind)) : Reader _) feed
        = .ok ((b, closing), rest) →
      closing ∈ feed.lexemes ∧ closing.token = Token.closes kind := by
    intro p hp hpe
    obtain ⟨b', mid, hb, hmid⟩ := Reader.bind_eq_ok_iff.1 hpe
    obtain ⟨l, after, hexpect, hpure⟩ := Reader.bind_eq_ok_iff.1 hmid
    cases hpure
    obtain ⟨htoken, hlexemes⟩ := Reader.expect_eq_ok hexpect
    have hsuffix := (hp.of_ok hf hb).2.1
    exact ⟨hsuffix.subset (by rw [hlexemes]; exact List.mem_cons_self), htoken⟩
  cases kind with
  | expr => exact closing_mem ((Reader.expr_moves monotone_id limit).map fun _ => rfl) h
  | block => exact closing_mem ((Reader.stmt_moves monotone_id limit).map fun _ => rfl) h

/-! ## Turns -/

/-- At the place `lx` the region is read, and reading goes on at the other place. -/
inductive Turn [Letters] (s : Settings) (lx : Lexer) : Region → Lexer → Prop
  | fault {diagnostic : Diagnostic} {next : Lexer} (h : lx.step s.delims = .fault diagnostic next) :
      Turn s lx (ofFault s.delims lx next diagnostic) next
  | tag {l : Lexeme} {kind : TagKind} {next : Lexer} (h : lx.step s.delims = .token l next)
      (hl : l.token.opens? = some kind) :
      Turn s lx (readTag s kind l next).1 (readTag s kind l next).2
  | lexeme {l : Lexeme} {next : Lexer} (h : lx.step s.delims = .token l next)
      (hl : l.token.opens? = none) : Turn s lx (ofLexeme s.delims l) next

/-- What the region read between two places has to do with the text `used` between them. -/
structure Covers (lx : Lexer) (r : Region) (used : List Char) (next : Lexer) : Prop where
  reaches : lx.Reaches used next
  outside : next.inTag = false
  /-- The node spans the text; only the body of a raw block can be empty. -/
  node : ∀ n, r.node = some n →
    n.span = ⟨lx.pos, next.pos⟩ ∧ (n.isRaw = false → lx.mode = .template ∧ used ≠ [])
  /-- Without a node there is no text. -/
  noNode : r.node = none → used = []

variable {s : Settings} {lx next : Lexer} {l : Lexeme} {r : Region}

theorem ofLexeme_covers [Letters] (hout : lx.inTag = false) (h : lx.Emits s.delims l next)
    (hl : l.token.opens? = none) : Covers lx (ofLexeme s.delims l) l.text next := by
  obtain ⟨hreaches, hspan⟩ := h.reaches
  have hne := h.text_ne_nil
  cases h.outside hout hl with
  | content hm =>
    refine ⟨hreaches, rfl, ?_, fun hnone => by cases hnone⟩
    rintro n ⟨rfl⟩
    exact ⟨hspan, fun _ => ⟨hm, hne (by rw [hm]; exact Mode.noConfusion)⟩⟩
  | comment hm =>
    refine ⟨hreaches, rfl, ?_, fun hnone => by cases hnone⟩
    rintro n ⟨rfl⟩
    exact ⟨hspan, fun _ => ⟨hm, hne (by rw [hm]; exact Mode.noConfusion)⟩⟩
  | raw hm =>
    refine ⟨hreaches, rfl, ?_, fun hnone => by cases hnone⟩
    rintro n ⟨rfl⟩
    exact ⟨hspan, fun hraw => by cases hraw⟩

theorem ofFault_covers [Letters] {diagnostic : Diagnostic} (hout : lx.inTag = false)
    (h : lx.Refuses s.delims diagnostic next) :
    Covers lx (ofFault s.delims lx next diagnostic) lx.rest next := by
  have hreach : ∀ mode, lx.Reaches lx.rest (lx.advance lx.rest.length mode) := by
    intro mode
    have := Lexer.reaches_advance lx lx.rest.length mode
    rwa [List.take_length] at this
  have hempty : ∀ {a b : Nat}, (Span.mk a b).isEmpty = true → a = b := by
    intro a b h
    exact eq_of_beq h
  cases h.outside hout with
  | comment hm hr =>
    have hpos := byteLen_pos hr
    have hnext := (hreach .template).pos
    have hspan : ¬ (Span.mk lx.pos (lx.advance lx.rest.length .template).pos).isEmpty = true := by
      intro hsame
      have := hempty hsame
      omega
    refine ⟨hreach .template, rfl, ?_, fun hnone => ?_⟩
    · intro n hn
      simp only [ofFault, if_neg hspan] at hn
      cases hn
      exact ⟨rfl, fun _ => ⟨hm, hr⟩⟩
    · simp only [ofFault, if_neg hspan] at hnone
      cases hnone
  | raw hm =>
    refine ⟨hreach .template, rfl, ?_, fun hnone => ?_⟩
    · intro n hn
      simp only [ofFault] at hn
      split at hn
      · cases hn
      · cases hn
        exact ⟨rfl, fun hraw => by cases hraw⟩
    · simp only [ofFault] at hnone
      split at hnone
      · next hspan =>
        -- An empty span has no text under it.
        by_contra hne
        have hpos := byteLen_pos hne
        have hnext := (hreach .template).pos
        have := hempty hspan
        omega
      · cases hnone

/-- An opening delimiter stands in content and leads into a tag of its kind. -/
theorem mode_of_opening [Letters] {kind : TagKind} (hout : lx.inTag = false) (h : lx.Emits s.delims l next)
    (hl : l.token.opens? = some kind) : lx.mode = .template ∧ next.mode = .tag kind false := by
  obtain ⟨hm, o, -, -, -, rfl⟩ := h.opening_of_opens hl hout
  exact ⟨hm, rfl⟩

theorem span_toNode (b : Body) (trims : Trims) (span : Span) : (b.toNode trims span).span = span := by
  cases b <;> rfl

theorem readTag_covers [Letters] {kind : TagKind} (hout : lx.inTag = false) (h : lx.Emits s.delims l next)
    (hl : l.token.opens? = some kind) :
    ∃ used, Covers lx (readTag s kind l next).1 used (readTag s kind l next).2 := by
  obtain ⟨hm, hnext⟩ := mode_of_opening hout h hl
  have hraw : next.mode ≠ .raw := by rw [hnext]; exact Mode.noConfusion
  have hne : l.text ≠ [] := h.text_ne_nil (by rw [hm]; exact Mode.noConfusion)
  obtain ⟨hreach, hspan⟩ := h.reaches
  obtain ⟨inside, hinside⟩ := Lexer.reaches_feed s.delims next
  cases hbody : body s.limit kind (feedOf s l next) with
  | ok r =>
    obtain ⟨⟨b, closing⟩, rest⟩ := r
    obtain ⟨hmem, htoken⟩ := closing_mem_of_body (Lexer.regular_feed (fun _ _ => rfl) hnext _ _) hbody
    have hclosing : closing.token.isClosing = true := by rw [htoken]; exact Token.isClosing_closes kind
    obtain ⟨hstop, hafter⟩ := Lexer.closing_of_mem_feed hnext hmem hclosing
    have hrow := Lexeme.InRow.start_le (Lexer.inRow_feed hraw) hmem
    have hjoin : l.span.join closing.span = ⟨lx.pos, (next.feed s.delims).2.2.pos⟩ := by
      have := hreach.pos_le
      have := hinside.pos_le
      rw [hspan, Span.join, hstop]
      simp only [Span.mk.injEq]
      omega
    have hcover : ∀ after : Lexer, next.Reaches inside after → after.inTag = false →
        after.pos = (next.feed s.delims).2.2.pos →
        Covers lx ⟨some (b.toNode ⟨l.trim, closing.trim⟩ (l.span.join closing.span)), none⟩
          (l.text ++ inside) after := by
      intro after hafter hin hpos
      refine ⟨hreach.trans hafter, hin, ?_, fun hnone => by cases hnone⟩
      rintro n ⟨rfl⟩
      refine ⟨by rw [span_toNode, hjoin, hpos], fun _ => ⟨hm, ?_⟩⟩
      simp [hne]
    refine ⟨l.text ++ inside, ?_⟩
    rw [readTag_of_ok hbody]
    dsimp only
    split
    · exact hcover _ (hinside.with_mode .raw) rfl rfl
    · refine hcover _ hinside ?_ rfl
      unfold Lexer.inTag
      rw [hafter]
  | error diagnostic =>
    obtain ⟨skipped, hskipped⟩ := Lexer.reaches_skipTag s.delims (next.feed s.delims).2.2
    refine ⟨l.text ++ (inside ++ skipped), ?_⟩
    rw [readTag_of_error hbody]
    refine ⟨hreach.trans (hinside.trans hskipped), ?_, ?_, fun hnone => by cases hnone⟩
    · unfold Lexer.inTag
      rw [Lexer.mode_skipTag (Lexer.mode_feed_ne_raw hraw)]
    · rintro n ⟨rfl⟩
      refine ⟨?_, fun _ => ⟨hm, by simp [hne]⟩⟩
      show Span.mk _ _ = _
      rw [hspan]

/-- A turn outside a tag covers the text up to the place where it ends, which is outside a tag. -/
theorem Turn.covers [Letters] (h : Turn s lx r next) (hout : lx.inTag = false) :
    ∃ used, Covers lx r used next := by
  cases h with
  | fault h => exact ⟨_, ofFault_covers hout (Lexer.refuses_of_step h)⟩
  | tag h hl => exact readTag_covers hout (Lexer.emits_of_step h) hl
  | lexeme h hl => exact ⟨_, ofLexeme_covers hout (Lexer.emits_of_step h) hl⟩

end Region

/-! ## Runs -/

/-- A turn is the first of the run from its place on. -/
theorem Region.Turn.regions_eq [Letters] {s : Settings} {lx next : Lexer} {r : Region}
    (h : Region.Turn s lx r next) : regions s lx = r :: regions s next := by
  rw [regions.eq_def]
  cases h with
  | fault h =>
    split
    · next h' => rw [h] at h'; cases h'
    · next h' => rw [h] at h'; cases h'; rfl
    · next h' => rw [h] at h'; cases h'
  | tag h hl =>
    split
    · next h' => rw [h] at h'; cases h'
    · next h' => rw [h] at h'; cases h'
    · next h' =>
      rw [h] at h'
      cases h'
      split
      · next hl' => rw [hl] at hl'; cases hl'; rfl
      · next hl' => rw [hl] at hl'; cases hl'
  | lexeme h hl =>
    split
    · next h' => rw [h] at h'; cases h'
    · next h' => rw [h] at h'; cases h'
    · next h' =>
      rw [h] at h'
      cases h'
      split
      · next hl' => rw [hl] at hl'; cases hl'
      · rfl

/-- A turn leaves less to do. -/
theorem Region.Turn.weight_lt [Letters] {s : Settings} {lx next : Lexer} {r : Region}
    (h : Region.Turn s lx r next) : next.weight < lx.weight := by
  cases h with
  | fault h => exact Lexer.step_fault_weight h
  | tag h hl => exact Region.weight_readTag_lt h hl
  | lexeme h hl => exact Lexer.step_token_weight h

/-- At every place the run is over or there is a turn. -/
theorem done_or_turn [Letters] (s : Settings) (lx : Lexer) :
    lx.step s.delims = .done ∨ ∃ r next, Region.Turn s lx r next := by
  cases h : lx.step s.delims with
  | done => exact .inl rfl
  | fault diagnostic next => exact .inr ⟨_, _, .fault h⟩
  | token l next =>
    cases hl : l.token.opens? with
    | some kind => exact .inr ⟨_, _, .tag h hl⟩
    | none => exact .inr ⟨_, _, .lexeme h hl⟩

theorem regions_of_done [Letters] {s : Settings} {lx : Lexer} (h : lx.step s.delims = .done) :
    regions s lx = [] := by
  rw [regions.eq_def]
  split
  · rfl
  · next h' => rw [h] at h'; cases h'
  · next h' => rw [h] at h'; cases h'

/-- Where no text is left in content, the run is over. -/
theorem regions_nil [Letters] (s : Settings) (p : Nat) : regions s ⟨p, [], .template⟩ = [] :=
  regions_of_done rfl

/-- What holds when a run is over and passes from the rest of a run to the run with one turn more
    holds of every run that starts outside a tag. -/
theorem regions_induction [Letters] {s : Settings} {P : Lexer → List Region → Prop}
    (done : ∀ lx : Lexer, lx.step s.delims = .done → P lx [])
    (turn : ∀ (lx next : Lexer) (r : Region) (used : List Char), lx.inTag = false →
      Region.Turn s lx r next → Region.Covers lx r used next → P next (regions s next) →
      P lx (r :: regions s next))
    (lx : Lexer) (hout : lx.inTag = false) : P lx (regions s lx) := by
  induction hw : lx.weight using Nat.strongRecOn generalizing lx with
  | ind w ih =>
    rcases done_or_turn s lx with hdone | ⟨r, next, hturn⟩
    · rw [regions_of_done hdone]
      exact done lx hdone
    · obtain ⟨used, hcovers⟩ := hturn.covers hout
      have hlt := hturn.weight_lt
      rw [hturn.regions_eq]
      exact turn lx next r used hout hturn hcovers
        (ih next.weight (by omega) next hcovers.outside rfl)

end Stencil
