/-
  Lexer — reading a source step by step, by byte offsets.

  A step is given an offset and what is read there.  It takes the text of its lexeme out of the source, and
  builds the place after it from the offset it has come to, so both ends of every lexeme and every place have
  to fall between characters.

  The loops over steps are bounded by `fuel`.  They give `none` when it is used up, and it never is: each
  step lowers the weight of the place.
-/
import Stencil.Proofs.Checked.Scan
import Stencil.Proofs.Template.Extent

namespace Stencil.Checked

/-! ## Steps -/

/-- The place at byte `pos`. -/
def place? (source : List Char) (pos : Nat) (mode : Mode) : Option Lexer :=
  (from? pos source).map fun rest => ⟨pos, rest, mode⟩

/-- The step that yields the text between two offsets and goes on after it. -/
def yield? (source : List Char) (token : Token) (start stop : Nat) (trim : Option Trim)
    (mode : Mode) : Option Step := do
  let text ← slice? ⟨start, stop⟩ source
  return .token ⟨token, ⟨start, stop⟩, text, trim⟩ (← place? source stop mode)

/-- The step that reports a fault and goes on at an offset. -/
def report? (source : List Char) (diagnostic : Diagnostic) (pos : Nat) (mode : Mode) :
    Option Step := do
  return .fault diagnostic (← place? source pos mode)

/-- A step in content. -/
def templateStep? (d : Delims) (source : List Char) (i : Nat) : Option Step := do
  match ← beginAt? d source i with
  | none =>
    let found ← nextBegin? d source i
    yield? source .content i (found.elim (byteLen source) (·.start)) none .template
  | some m =>
    match m.kind with
    | .tag kind => yield? source (Token.opens kind) i m.stop m.trim (.tag kind false)
    | .comment =>
      match ← commentEnd? d source m.stop with
      | some found => yield? source .comment i found.1 none .template
      | none => report? source ⟨.unclosedComment, ⟨i, m.stop⟩⟩ (byteLen source) .template

/-- A step in the body of a raw block. -/
def rawStep? (d : Delims) (source : List Char) (i : Nat) : Option Step := do
  match ← rawFrom? d source (byteLen source + 1) i with
  | some j => yield? source .rawText i j none .template
  | none => report? source ⟨.unclosedRaw, ⟨i, byteLen source⟩⟩ (byteLen source) .template

/-- A step inside a tag. -/
def tagStep? [Letters] (d : Delims) (source : List Char) (kind : TagKind) (afterDot : Bool) (i : Nat) :
    Option Step := do
  match ← endAt? d (.tag kind) source i with
  | some m => yield? source (Token.closes kind) i m.stop m.trim .template
  | none =>
    match ← beginAt? d source i with
    | some m =>
      report? source ⟨.unexpected [.token (Token.closes kind)] (some (Lexer.foundOpening m.kind)),
        ⟨i, m.stop⟩⟩ i .template
    | none =>
      match ← scan? d kind source afterDot i with
      | .token token stop =>
        yield? source token i stop none
          (.tag kind (token == .dot || (afterDot && token == .blank)))
      | .fault fault range stop => report? source ⟨.lex fault, range⟩ stop (.tag kind afterDot)

/-- One step of reading. -/
def step? [Letters] (d : Delims) (source : List Char) (pos : Nat) (mode : Mode) : Option Step :=
  match mode with
  | .raw => rawStep? d source pos
  | .template => if byteLen source ≤ pos then some .done else templateStep? d source pos
  | .tag kind afterDot =>
    if byteLen source ≤ pos then some .done else tagStep? d source kind afterDot pos

variable {d : Delims} {source : List Char} {lx next : Lexer} {kind : TagKind} {afterDot : Bool}
  {c : Char} {cs : List Char} {n fuel : Nat} {token : Token} {trim : Option Trim} {mode : Mode}

theorem yield?_eq (h : At source lx.pos lx.rest) (n : Nat) :
    yield? source token lx.pos (lx.pos + byteLen (lx.rest.take n)) trim mode =
      some (.token (lx.lexeme token n trim) (lx.advance n mode)) := by
  unfold yield? place?
  rw [h.slice_take n, (h.drop n).from?]
  rfl

theorem report?_eq (h : At source lx.pos lx.rest) (n : Nat) (diagnostic : Diagnostic) :
    report? source diagnostic (lx.pos + byteLen (lx.rest.take n)) mode =
      some (.fault diagnostic (lx.advance n mode)) := by
  unfold report? place?
  rw [(h.drop n).from?]
  rfl

/-- The end of the source is where all that is left has been read. -/
theorem At.byteLen_take (h : At source lx.pos lx.rest) :
    Stencil.byteLen source = lx.pos + Stencil.byteLen (lx.rest.take lx.rest.length) := by
  rw [List.take_length]
  exact h.byteLen

/-- Content goes on to the next opening delimiter, which is not the one looked for at its start. -/
theorem stop_content (h : At source lx.pos lx.rest) (hr : lx.rest = c :: cs)
    (ho : d.openingAt lx.rest = none) : ∃ found, nextBegin? d source lx.pos = some found ∧
      found.elim (byteLen source) (·.start) =
        lx.pos + byteLen (lx.rest.take (d.contentLength cs + 1)) := by
  refine ⟨_, nextBegin?_eq h, ?_⟩
  have hlen := h.byteLen_take
  rw [hr] at ho hlen ⊢
  rw [findOpening_cons, ho, Delims.contentLength]
  cases d.findOpening cs with
  | none => exact hlen
  | some found => rfl

theorem templateStep?_eq (h : At source lx.pos lx.rest) (hr : lx.rest = c :: cs) :
    templateStep? d source lx.pos = some (lx.templateStep d cs) := by
  unfold templateStep? Lexer.templateStep
  rw [beginAt?_eq h]
  cases ho : d.openingAt lx.rest with
  | none =>
    obtain ⟨found, hfound, hstop⟩ := stop_content h hr ho
    simp only [Option.map_none, Option.bind_eq_bind, Option.bind_some, hfound, hstop, yield?_eq h]
  | some o =>
    have hstop := stop_openingMark ho lx.pos
    simp only [Option.map_some, Option.bind_eq_bind, Option.bind_some,
      show (openingMark lx.pos o).kind = o.kind from rfl,
      show (openingMark lx.pos o).trim = o.trim from rfl]
    cases o.kind with
    | tag kind => simp only [hstop, yield?_eq h]
    | comment =>
      obtain ⟨found, hcomment, hmore⟩ :=
        Option.map_eq_some_iff.1 (commentEnd?_eq (d := d) (h.opening ho))
      rw [hstop] at hcomment hmore
      cases hcount : d.commentMore (lx.rest.drop o.size) with
      | none =>
        rw [hcount] at hmore
        obtain rfl := Option.map_eq_none_iff.1 hmore
        simp only [hstop, hcomment, Option.bind_some, h.byteLen_take, report?_eq h, Lexer.spanOf]
      | some n =>
        rw [hcount] at hmore
        obtain ⟨found, rfl, hfound⟩ := Option.map_eq_some_iff.1 hmore
        have hsplit : found.1 = lx.pos + byteLen (lx.rest.take (o.size + n)) := by
          rw [hfound, List.take_add, byteLen_append]
          exact Nat.add_assoc _ _ _
        simp only [hstop, hcomment, Option.bind_some, hsplit, yield?_eq h]

theorem rawStep?_eq (h : At source lx.pos lx.rest) :
    rawStep? d source lx.pos = some (lx.rawStep d) := by
  have hle := h.length_le
  unfold rawStep? Lexer.rawStep
  rw [rawFrom?_eq h (by omega)]
  cases d.rawLength lx.rest with
  | none =>
    simp only [Option.map_none, Option.bind_eq_bind, Option.bind_some, h.byteLen_take,
      report?_eq h, Lexer.spanOf]
  | some n => simp only [Option.map_some, Option.bind_eq_bind, Option.bind_some, yield?_eq h]

theorem tagStep?_eq [Letters] (h : At source lx.pos lx.rest) (hr : lx.rest = c :: cs)
    (hm : lx.mode = .tag kind afterDot) :
    tagStep? d source kind afterDot lx.pos = some (lx.tagStep d kind afterDot c cs) := by
  unfold tagStep? Lexer.tagStep
  rw [endAt?_eq h, beginAt?_eq h]
  rw [show ((d.pair (.tag kind)).bind fun p => p.closingAt lx.rest) = d.closingAt kind lx.rest
    from rfl]
  cases hc : d.closingAt kind lx.rest with
  | some close =>
    obtain ⟨p, -, hclose⟩ := Option.bind_eq_some_iff.1 hc
    have hstop := stop_closingMark hclose (.tag kind) lx.pos
    simp only [Option.map_some, Option.bind_eq_bind, Option.bind_some, hstop, yield?_eq h,
      show (closingMark (.tag kind) lx.pos close).trim = close.trim from rfl]
  | none =>
    cases ho : d.openingAt lx.rest with
    | some o =>
      have hstop := stop_openingMark ho lx.pos
      have hreport : ∀ diagnostic, report? source diagnostic lx.pos .template =
          some (.fault diagnostic (lx.advance 0 .template)) := report?_eq h 0
      simp only [Option.map_some, Option.map_none, Option.bind_eq_bind, Option.bind_some, hstop,
        hreport, show (openingMark lx.pos o).kind = o.kind from rfl, Lexer.spanOf]
    | none =>
      have hat := h
      rw [hr] at hat
      simp only [Option.map_none, Option.bind_eq_bind, Option.bind_some, scan?_eq hat]
      cases Scan.read d kind afterDot c cs with
      | token token more => simp only [foundAt, ← hr, yield?_eq h]
      | fault fault range more => simp only [foundAt, ← hr, report?_eq h, hm]

theorem step?_eq [Letters] (h : At source lx.pos lx.rest) :
    step? d source lx.pos lx.mode = some (lx.step d) := by
  have hlen := h.byteLen
  have hend : ∀ {step : Option Step}, (lx.rest = [] → some Step.done = some (lx.step d)) →
      (∀ c cs, lx.rest = c :: cs → step = some (lx.step d)) →
      (if byteLen source ≤ lx.pos then some Step.done else step) = some (lx.step d) := by
    intro step hdone hstep
    cases hr : lx.rest with
    | nil =>
      rw [hr, byteLen_nil] at hlen
      rw [if_pos (by omega)]
      exact hdone hr
    | cons c cs =>
      have hpos := byteLen_pos (List.cons_ne_nil c cs)
      rw [hr] at hlen
      rw [if_neg (by omega)]
      exact hstep c cs hr
  unfold step?
  cases hm : lx.mode with
  | raw =>
    rw [Lexer.step, hm]
    exact rawStep?_eq h
  | template =>
    refine hend (fun hr => ?_) fun c cs hr => ?_
    · rw [Lexer.step, hm, hr]
    · rw [Lexer.step, hm, hr, templateStep?_eq h hr]
  | tag kind afterDot =>
    refine hend (fun hr => ?_) fun c cs hr => ?_
    · rw [Lexer.step, hm, hr]
    · rw [Lexer.step, hm, hr, tagStep?_eq h hr hm]

/-! ## The inside of a tag -/

theorem At.reaches {used : List Char} (h : At source lx.pos lx.rest) (hr : lx.Reaches used next) :
    At source next.pos next.rest := by
  rw [hr.text] at h
  rw [hr.pos]
  exact h.append

/-- The place where the tag that goes on at byte `pos` is left. -/
def skipTag? [Letters] (d : Delims) (source : List Char) : Nat → Nat → Mode → Option Lexer
  | 0, _, _ => none
  | fuel + 1, pos, mode =>
    match mode with
    | .tag .. => do
      match ← step? d source pos mode with
      | .token _ next => skipTag? d source fuel next.pos next.mode
      | .fault _ next => skipTag? d source fuel next.pos next.mode
      | .done => place? source pos .template
    | _ => place? source pos mode

theorem place?_eq (h : At source lx.pos lx.rest) (mode : Mode) :
    place? source lx.pos mode = some { lx with mode := mode } := by
  rw [place?, h.from?]
  rfl

theorem skipTag?_eq [Letters] (h : At source lx.pos lx.rest) (hfuel : lx.weight < fuel) :
    skipTag? d source fuel lx.pos lx.mode = some (lx.skipTag d) := by
  induction fuel generalizing lx with
  | zero => omega
  | succ fuel ih =>
    cases hm : lx.mode with
    | tag kind afterDot =>
      have hin : lx.inTag = true := by rw [Lexer.inTag, hm]
      rw [skipTag?, ← hm, step?_eq h]
      cases hstep : lx.step d with
      | done =>
        rw [Lexer.skipTag_of_done hin hstep]
        exact place?_eq h .template
      | fault diagnostic next =>
        have hlt := Lexer.step_fault_weight hstep
        obtain ⟨used, hreach⟩ := (Lexer.refuses_of_step hstep).reaches
        rw [Lexer.skipTag_of_fault hin hstep]
        exact ih (h.reaches hreach) (by omega)
      | token l next =>
        have hlt := Lexer.step_token_weight hstep
        have hnext := h.reaches (Lexer.emits_of_step hstep).reaches.1
        rw [Lexer.skipTag_of_token hin hstep]
        exact ih hnext (by omega)
    | template =>
      rw [Lexer.skipTag_of_outside (by rw [Lexer.inTag, hm])]
      exact (place?_eq h .template).trans (by rw [← hm])
    | raw =>
      rw [Lexer.skipTag_of_outside (by rw [Lexer.inTag, hm])]
      exact (place?_eq h .raw).trans (by rw [← hm])

end Stencil.Checked
