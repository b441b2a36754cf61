/-
  Agree — a machine that takes the lexemes of a feed.

  `Agrees t m feed p q Q` compares one run of the program `p` from the machine `m` with the run of the reader `q`
  from the feed: both give the same value, and then `Q` holds of what they leave, or both fail with the same
  diagnostic and the machine is left where it can be recovered (`Lost`).  The machine is never stuck.

  While a tag goes on, machine and feed are in step (`Live`).  Looking at the next lexeme fills the queue and
  leaves them so (`peek_agrees`).  Looking at the one behind it is safe if the next one does not close the tag
  (`secondIs_agrees`).  Taking a lexeme leaves them in step, unless it is the closing delimiter (`next_agrees`).
-/
import Stencil.Proofs.Checked.Ahead

namespace Stencil.Checked

open Machine (lookAhead peekNth)
open Reader (peek peekSecond next eat eats expect nextIs secondIs unexpected tooDeep within beyond eof)

variable [Letters]

/-- What does not change while a tag is read: the place behind its opening delimiter, and the diagnostics and
    calls from before. -/
structure Frame where
  inside : Lexer
  errors : List Diagnostic
  calls : List Decoding

variable {d : Delims} {source : List Char} {t : Frame} {k n limit : Nat} {m m' : Machine d source}
  {feed rest : Feed} {α β : Type}

/-- No diagnostic has been added, and the calls that have been are sound. -/
structure Frame.Keeps (t : Frame) (m : Machine d source) : Prop where
  errors : m.errors = t.errors
  calls : t.calls ⊆ m.calls
  sound : ∀ call ∈ m.calls, call ∈ t.calls ∨ call.Sound source

/-- The tag goes on, at depth `k`: machine and feed are in step. -/
structure Live (t : Frame) (k : Nat) (m : Machine d source) (feed : Feed) : Prop where
  keeps : t.Keeps m
  depth : m.depth = k
  last : m.last = feed.last
  closed : m.closed = none
  sits : feed.Sits d source
  indexes : feed.lexemes.IsChain Lexeme.Indexes
  bounded : feed.lexemes.length < enough source
  ahead : Ahead t.inside m feed

/-- The machine is left where it can be recovered. -/
structure Lost (t : Frame) (m : Machine d source) : Prop where
  keeps : t.Keeps m
  left : Left t.inside m

theorem Live.lost (h : Live t k m feed) : Lost t m := ⟨h.keeps, h.ahead.left h.closed⟩

/-! ## Depth and calls -/

omit [Letters] in
theorem Frame.Keeps.congr (h : t.Keeps m) (herrors : m'.errors = m.errors) (hcalls : m'.calls = m.calls) :
    t.Keeps m' where
  errors := herrors.trans h.errors
  calls := by
    rw [hcalls]
    exact h.calls
  sound := by
    rw [hcalls]
    exact h.sound

theorem Live.sunk (h : Live t k m feed) (n : Nat) : Live t n (m.sunk n) feed where
  keeps := h.keeps.congr rfl rfl
  depth := rfl
  last := h.last
  closed := h.closed
  sits := h.sits
  indexes := h.indexes
  bounded := h.bounded
  ahead := h.ahead.congr rfl rfl rfl

omit [Letters] in
theorem Frame.Keeps.noting {call : Decoding} (h : t.Keeps m) (hsound : call.Sound source) : t.Keeps (m.noting call) where
  errors := h.errors
  calls := fun _ hcall => List.mem_append_left _ (h.calls hcall)
  sound := List.forall_mem_append.2 ⟨h.sound, List.forall_mem_singleton.2 (.inr hsound)⟩

theorem Live.noting {call : Decoding} (h : Live t k m feed) (hsound : call.Sound source) :
    Live t k (m.noting call) feed where
  keeps := h.keeps.noting hsound
  depth := h.depth
  last := h.last
  closed := h.closed
  sits := h.sits
  indexes := h.indexes
  bounded := h.bounded
  ahead := h.ahead.congr rfl rfl rfl

theorem Lost.noting {call : Decoding} (h : Lost t m) (hsound : call.Sound source) : Lost t (m.noting call) :=
  ⟨h.keeps.noting hsound, h.left.congr rfl rfl rfl rfl⟩

/-- The program and the reader both give the same value, which `Q` holds of, or both fail with the same
    diagnostic. -/
inductive Agrees (t : Frame) (m : Machine d source) (feed : Feed) (p : Program d source α) (q : Reader α)
    (Q : α → Machine d source → Feed → Prop) : Prop
  | ok {x : α} {m' : Machine d source} {rest : Feed} (reader : q feed = .ok (x, rest))
      (program : p m = .ok (x, m')) (post : Q x m' rest)
  | failed {diagnostic : Diagnostic} {m' : Machine d source} (reader : q feed = .error diagnostic)
      (program : p m = .error (.failed diagnostic m')) (lost : Lost t m')

namespace Agrees

variable {p : Program d source α} {q : Reader α} {P : α → Machine d source → Feed → Prop}
  {Q : β → Machine d source → Feed → Prop}

theorem pure {a : α} (h : P a m feed) : Agrees t m feed (Pure.pure a) (Pure.pure a) P := .ok rfl rfl h

theorem bind {f : α → Program d source β} {g : α → Reader β} (hp : Agrees t m feed p q P)
    (hf : ∀ a m' rest, q feed = .ok (a, rest) → P a m' rest → Agrees t m' rest (f a) (g a) Q) :
    Agrees t m feed (p >>= f) (q >>= g) Q := by
  cases hp with
  | ok reader program post =>
    have hthen := hf _ _ _ reader post
    cases hthen with
    | ok reader' program' post' =>
      exact .ok ((Reader.bind_of_ok reader).trans reader') ((Reader.bind_of_ok program).trans program') post'
    | failed reader' program' lost =>
      exact .failed ((Reader.bind_of_ok reader).trans reader') ((Reader.bind_of_ok program).trans program') lost
  | failed reader program lost => exact .failed (Reader.bind_of_error reader) (Reader.bind_of_error program) lost

/-- Only the two runs are compared. -/
theorem congr {p' : Program d source α} {q' : Reader α} {start : Machine d source} {first : Feed}
    (hp : Agrees t m feed p q P) (hprogram : p' start = p m) (hreader : q' first = q feed) :
    Agrees t start first p' q' P := by
  cases hp with
  | ok reader program post => exact .ok (hreader.trans reader) (hprogram.trans program) post
  | failed reader program lost => exact .failed (hreader.trans reader) (hprogram.trans program) lost

theorem mono {P' : α → Machine d source → Feed → Prop} (hp : Agrees t m feed p q P)
    (h : ∀ a m' rest, q feed = .ok (a, rest) → P a m' rest → P' a m' rest) : Agrees t m feed p q P' := by
  cases hp with
  | ok reader program post => exact .ok reader program (h _ _ _ reader post)
  | failed reader program lost => exact .failed reader program lost

theorem fail {diagnostic : Diagnostic} (h : Lost t m) :
    Agrees t m feed (Reader.fail diagnostic : Program d source α) (Reader.fail diagnostic) P :=
  .failed rfl rfl h

/-- Giving up over a lexeme that has been seen, or over the end of the source. -/
theorem unexpected {expected : List Expected} {found : Option Lexeme} (h : Lost t m)
    (hnone : found = none → feed.stop = .atEnd (byteLen source)) :
    Agrees t m feed (Reader.unexpected expected found : Program d source α)
      (Reader.unexpected expected found) P := by
  cases found with
  | some l => exact fail h
  | none =>
    have heof : eof feed = .ok (Span.point (byteLen source), feed) := by
      rw [Reader.eof_feed, Feed.eof, hnone rfl]
    have hreader : (Reader.unexpected expected none : Reader α) feed =
        .error ⟨.unexpected expected none, Span.point (byteLen source)⟩ := Reader.bind_of_ok heof
    exact .failed hreader rfl h

end Agrees

/-! ## Looking ahead -/

/-- The lexer at another place and another queue do not change what has been read. -/
theorem Live.queued (h : Live t k m feed) {place : Lexer} {queue : List Lexeme}
    (ahead : Ahead t.inside ((m.moved place).queueing queue) feed) :
    Live t k ((m.moved place).queueing queue) feed :=
  ⟨h.keeps.congr rfl rfl, h.depth, h.last, h.closed, h.sits, h.indexes, h.bounded,
    ahead⟩

/-- What comes of asking for lexemes: those that the feed has, unless there is a fault among them. -/
inductive Looked (t : Frame) (k n : Nat) (m : Machine d source) (feed : Feed) :
    Except (Halt d source) (Unit × Machine d source) → Prop
  | seen {m' : Machine d source} (live : Live t k m' feed) (calls : m'.calls = m.calls)
      (found : m'.peeked[n]? = feed.lexemes[n]?)
      (stop : feed.lexemes[n]? = none → feed.stop = .atEnd (byteLen source)) : Looked t k n m feed (.ok ((), m'))
  | fault {diagnostic : Diagnostic} {m' : Machine d source} (lost : Lost t m') (none : feed.lexemes[n]? = none)
      (stop : feed.stop = .fault diagnostic) : Looked t k n m feed (.error (.failed diagnostic m'))

theorem Looked.congr {result : Except (Halt d source) (Unit × Machine d source)} (h : Looked t k n m' feed result)
    (hcalls : m'.calls = m.calls) : Looked t k n m feed result := by
  cases h with
  | seen live calls found stop => exact .seen live (calls.trans hcalls) found stop
  | fault lost none stop => exact .fault lost none stop

/-- The queue holds the first lexemes of the feed. -/
theorem Ahead.found {inside : Lexer} (h : Ahead inside m feed) (hn : n < m.peeked.length) :
    m.peeked[n]? = feed.lexemes[n]? := by
  cases h with
  | going _ _ _ _ lexemes => rw [lexemes, List.getElem?_append_left hn]
  | shut _ _ _ _ lexemes => rw [lexemes]

/-- The queue is filled up to a lexeme before which none closes the tag. -/
theorem lookAhead_looked {more : Nat} (h : Live t k m feed) (hfront : Open (feed.lexemes.take n))
    (hmore : n + 1 ≤ m.peeked.length + more) (hlast : more ≠ 0 → m.peeked.length + more = n + 1) :
    Looked t k n m feed (lookAhead more m) := by
  induction more generalizing m with
  | zero =>
    have hfound := h.ahead.found (n := n) (by omega)
    refine .seen h rfl hfound fun hnone => ?_
    rw [← hfound, List.getElem?_eq_none_iff] at hnone
    omega
  | succ more ih =>
    have hlength := hlast (Nat.succ_ne_zero more)
    cases h.ahead with
    | shut stands passes out queue lexemes =>
      -- The closing delimiter would be one of the first lexemes.
      obtain ⟨front, closing, hqueue, -, hclosing, -⟩ := queue.exists_last
      have hmem : closing ∈ feed.lexemes.take n := by
        rw [lexemes, List.take_of_length_le (by omega), hqueue]
        exact List.mem_append_right front List.mem_cons_self
      rw [hfront closing hmem] at hclosing
      cases hclosing
    | @going lx kind dot stands passes mode queue lexemes stop =>
      obtain ⟨result, place, hpulls, hhere, hpasses, hpull⟩ := pull_eq stands mode
      have hstands : (m.moved place).Stands place := .moved m hhere
      have hnone : (lx.feed d).1 = [] → feed.lexemes[n]? = none := fun hnil => by
        rw [lexemes, hnil, List.append_nil, List.getElem?_eq_none_iff]
        omega
      have hstep : ∀ l, Ahead t.inside ((m.moved place).queueing (m.peeked ++ [l])) feed →
          Looked t k n m feed (lookAhead more ((m.moved place).queueing (m.peeked ++ [l]))) := by
        intro l ahead
        have hlength' : ((m.moved place).queueing (m.peeked ++ [l])).peeked.length = m.peeked.length + 1 := by
          rw [Machine.peeked_queueing, List.length_append, List.length_singleton]
        exact (ih (h.queued ahead) (by omega) fun _ => by omega).congr rfl
      unfold lookAhead
      rw [Reader.bind_apply, hpull]
      cases hpulls with
      | fault hnil hfault =>
        exact .fault ⟨h.keeps.congr rfl rfl,
          .unseen hstands (passes.trans hpasses) h.closed queue⟩ (hnone hnil) (stop.trans hfault)
      | done mode' rest' lexemes' stop' step' =>
        have hfeed := Lexer.feed_of_done step'
        have hnil : (lx.feed d).1 = [] := by rw [lexemes', hfeed]
        have hahead : Ahead t.inside ((m.moved place).queueing m.peeked) feed :=
          .going ⟨hhere, rfl, rfl⟩ (passes.trans hpasses) mode' queue (lexemes.trans (by rw [lexemes']; rfl))
            (by rw [stop, stop'])
        refine .seen (h.queued hahead) rfl ?_ fun _ => ?_
        · rw [hnone hnil, List.getElem?_eq_none_iff]
          show m.peeked.length ≤ n
          omega
        · rw [stop, stop', hfeed, hhere.pos_eq rest']
      | @closing l _ hclosing lexemes' pos out =>
        refine hstep l (.shut ⟨hhere, rfl, rfl⟩ (passes.trans hpasses) out
          ⟨m.peeked, l, rfl, queue, hclosing, pos⟩ (lexemes.trans ?_))
        rw [lexemes']
        rfl
      | @word l _ _ _ hinside mode' lexemes' stop' =>
        -- The word waits behind the others, and the feed has what the lexer finds behind it.
        refine hstep l (.going ⟨hhere, rfl, rfl⟩ (passes.trans hpasses) mode' ?_ (lexemes.trans ?_)
          (stop.trans stop'))
        · exact List.forall_mem_append.2 ⟨queue, List.forall_mem_singleton.2 hinside⟩
        · rw [lexemes', Machine.peeked_queueing, List.append_assoc]
          rfl

/-- Looking at a lexeme, when none before it closes the tag. -/
theorem peekNth_agrees (h : Live t k m feed) (hfront : Open (feed.lexemes.take n)) {q : Reader (Option Lexeme)}
    (hq : q feed = match feed.lexemes[n]? with | some l => .ok (some l, feed) | none => Feed.atStop feed) :
    Agrees t m feed (peekNth n) q fun found m' rest =>
      Live t k m' rest ∧ m'.calls = m.calls ∧ rest = feed ∧ found = feed.lexemes[n]? ∧
        (found = none → feed.stop = .atEnd (byteLen source)) := by
  have hlooked : Looked t k n m feed (lookAhead (n + 1 - m.peeked.length) m) :=
    lookAhead_looked h hfront (by omega) (by omega)
  have hpeek : peekNth n m = (lookAhead (n + 1 - m.peeked.length) m).bind fun s => .ok (s.2.peeked[n]?, s.2) := by
    unfold peekNth
    cases lookAhead (n + 1 - m.peeked.length) m <;> rfl
  generalize lookAhead (n + 1 - m.peeked.length) m = result at hlooked hpeek
  cases hlooked with
  | seen live calls found stop =>
    cases hn : feed.lexemes[n]? with
    | some l =>
      rw [hn] at hq
      exact .ok hq (hpeek.trans (by rw [Except.bind, found, hn])) ⟨live, calls, rfl, rfl, fun h => by cases h⟩
    | none =>
      have hstop := stop hn
      rw [hn] at hq
      have hreader : q feed = .ok (none, feed) := by rw [hq, Feed.atStop, hstop]
      exact .ok hreader (hpeek.trans (by rw [Except.bind, found, hn])) ⟨live, calls, rfl, rfl, fun _ => hstop⟩
  | fault lost none stop =>
    rw [none] at hq
    exact .failed (by rw [hq, Feed.atStop, stop]) hpeek lost

/-- What is seen of a feed that the machine keeps in step with. -/
structure Seen (t : Frame) (k : Nat) (m : Machine d source) (feed : Feed) (l : Option Lexeme)
    (m' : Machine d source) (rest : Feed) : Prop where
  live : Live t k m' rest
  calls : m'.calls = m.calls
  rest_eq : rest = feed
  found : l = feed.lexemes.head?
  stop : l = none → feed.stop = .atEnd (byteLen source)

theorem peek_agrees (h : Live t k m feed) :
    Agrees t m feed (peek : Program d source _) peek (Seen t k m feed) := by
  refine (peekNth_agrees (n := 0) h (List.forall_mem_nil _) ?_).mono ?_
  · rw [Reader.peek_feed, Feed.peek]
    cases feed.lexemes <;> rfl
  · rintro found m' rest - ⟨live, calls, rest_eq, hfound, stop⟩
    exact ⟨live, calls, rest_eq, by rw [hfound, List.head?_eq_getElem?], stop⟩

theorem nextIs_agrees (h : Live t k m feed) (token : Token) :
    Agrees t m feed (nextIs token : Program d source _) (nextIs token) fun b m' rest =>
      Live t k m' rest ∧ m'.calls = m.calls ∧ rest = feed ∧
        b = feed.lexemes.head?.any fun l => l.token == token :=
  (peek_agrees h).bind fun found m' rest _ hseen =>
    .pure ⟨hseen.live, hseen.calls, hseen.rest_eq, by rw [hseen.found]⟩

/-- The second lexeme may be looked at when the first one does not close the tag. -/
theorem secondIs_agrees (h : Live t k m feed) (token : Token)
    (hhead : ∀ l ∈ feed.lexemes.head?, l.token.isClosing = false) :
    Agrees t m feed (secondIs token : Program d source _) (secondIs token) fun _ m' rest =>
      Live t k m' rest ∧ m'.calls = m.calls ∧ rest = feed := by
  have hfront : Open (feed.lexemes.take 1) := by
    cases hls : feed.lexemes with
    | nil => exact List.forall_mem_nil _
    | cons l ls => exact List.forall_mem_singleton.2 (hhead l (by rw [hls]; rfl))
  have hsecond : peekSecond feed = match feed.lexemes[1]? with
      | some l => .ok (some l, feed)
      | none => Feed.atStop feed := by
    rw [Reader.peekSecond_feed, Feed.peekSecond]
    rcases feed.lexemes with _ | ⟨l, _ | ⟨l', ls⟩⟩ <;> rfl
  exact (peekNth_agrees (n := 1) h hfront hsecond).bind fun _ _ _ _ hseen =>
    .pure ⟨hseen.1, hseen.2.1, hseen.2.2.1⟩

/-! ## Taking lexemes -/

/-- What is taken of a feed: nothing at the end of the source, a lexeme behind which the tag goes on, or the
    closing delimiter. -/
inductive Took (t : Frame) (k : Nat) (m : Machine d source) (feed : Feed) :
    Option Lexeme → Machine d source → Feed → Prop
  | none {m' : Machine d source} (live : Live t k m' feed) (calls : m'.calls = m.calls)
      (stop : feed.stop = .atEnd (byteLen source)) : Took t k m feed none m' feed
  | word {l : Lexeme} {m' : Machine d source} {rest : Feed} (lexemes : feed.lexemes = l :: rest.lexemes)
      (inside : l.token.isClosing = false) (live : Live t k m' rest) (calls : m'.calls = m.calls) :
      Took t k m feed (some l) m' rest
  | closing {l : Lexeme} {m' : Machine d source} {rest : Feed} (lexemes : feed.lexemes = [l])
      (closing : l.token.isClosing = true) (closed : m'.closed = some l.span) (lost : Lost t m')
      (calls : m'.calls = m.calls) : Took t k m feed (some l) m' rest

/-- The machine has taken a lexeme that does not close the tag, and stands before what is left. -/
theorem Live.took (h : Live t k m feed) {l : Lexeme} {ls : List Lexeme} (hls : feed.lexemes = l :: ls)
    (hinside : l.token.isClosing = false) {place : Lexer} {queue : List Lexeme}
    (ahead : Ahead t.inside ((m.moved place).queueing queue) ⟨ls, feed.stop, l.span⟩) :
    Live t k (((m.moved place).queueing queue).taking l) ⟨ls, feed.stop, l.span⟩ where
  keeps := h.keeps.congr rfl rfl
  depth := h.depth
  last := rfl
  closed := by
    rw [Machine.taking, if_neg (by rw [hinside]; exact Bool.false_ne_true)]
    exact h.closed
  sits := by
    have hsits := h.sits
    unfold Feed.Sits at hsits
    rw [hls] at hsits
    exact (List.forall_mem_cons.1 hsits).2
  indexes := by
    have hchain := h.indexes
    rw [hls] at hchain
    exact hchain.of_cons
  bounded := by
    have hbound := h.bounded
    rw [hls, List.length_cons] at hbound
    exact Nat.lt_of_succ_lt hbound
  ahead := by
    cases ahead with
    | going stands passes mode queue lexemes stop =>
      exact .going ⟨stands.here, stands.cursor, stands.mode⟩ passes mode queue lexemes stop
    | shut stands passes out queue lexemes =>
      exact .shut ⟨stands.here, stands.cursor, stands.mode⟩ passes out queue lexemes

/-- The machine has taken the closing delimiter, and its lexer stands behind it. -/
theorem Live.tookClosing (h : Live t k m feed) {l : Lexeme} (hclosing : l.token.isClosing = true) {place : Lexer}
    (hhere : At source place.pos place.rest) (hpasses : t.inside.Passes d place) (hout : place.inTag = false)
    (hpos : l.span.stop = place.pos) : Lost t (((m.moved place).queueing []).taking l) where
  keeps := h.keeps.congr rfl rfl
  left := by
    have hclosed : (((m.moved place).queueing []).taking l).closed = some l.span := if_pos hclosing
    exact .taken ⟨hhere, rfl, rfl⟩ hpasses hout hclosed hpos rfl

theorem next_of_waiting {l : Lexeme} {queue : List Lexeme} (hqueue : m.peeked = l :: queue) :
    (next : Program d source _) m = .ok (some l, (m.queueing queue).taking l) := by
  show Machine.next m = _
  unfold Machine.next
  rw [hqueue]

theorem next_of_pull_ok {found : Option Lexeme} (hqueue : m.peeked = []) (hpull : Machine.pull m = .ok (found, m')) :
    (next : Program d source _) m = .ok (found, found.elim m' m'.taking) := by
  show Machine.next m = _
  unfold Machine.next
  rw [hqueue]
  dsimp only
  rw [hpull]

theorem next_of_pull_error {halt : Halt d source} (hqueue : m.peeked = []) (hpull : Machine.pull m = .error halt) :
    (next : Program d source _) m = .error halt := by
  show Machine.next m = _
  unfold Machine.next
  rw [hqueue]
  dsimp only
  rw [hpull]

/-- When no lexeme waits the lexer is asked for one, and what it finds is taken. -/
theorem next_pulled (h : Live t k m feed) (hqueue : m.peeked = []) {lx : Lexer} {kind : TagKind} {dot : Bool}
    (stands : m.Stands lx) (passes : t.inside.Passes d lx) (mode : lx.mode = .tag kind dot)
    (lexemes : feed.lexemes = (lx.feed d).1) (stop : feed.stop = (lx.feed d).2.1) :
    Agrees t m feed (next : Program d source _) next (Took t k m feed) := by
  obtain ⟨result, place, hpulls, hhere, hpasses, hpull⟩ := pull_eq stands mode
  have hmoved : (m.moved place).queueing [] = m.moved place := by
    unfold Machine.queueing Machine.moved
    rw [← hqueue]
  cases hpulls with
  | @fault diagnostic _ hnil hfault =>
    have hreader : next feed = .error diagnostic := by
      rw [Reader.next_feed, Feed.next, lexemes, hnil]
      exact by rw [Feed.atStop, stop, hfault]
    have hempty : ∀ l ∈ m.peeked, l.token.isClosing = false := by
      rw [hqueue]
      exact List.forall_mem_nil _
    exact .failed hreader (next_of_pull_error hqueue hpull)
      ⟨h.keeps.congr rfl rfl, .unseen (.moved m hhere) (passes.trans hpasses) h.closed hempty⟩
  | done mode' rest' lexemes' stop' step' =>
    have hfeed := Lexer.feed_of_done step'
    have hstop : feed.stop = .atEnd (byteLen source) := by rw [stop, stop', hfeed, hhere.pos_eq rest']
    have hreader : next feed = .ok (none, feed) := by
      rw [Reader.next_feed, Feed.next, lexemes, lexemes', hfeed]
      exact by rw [Feed.atStop, hstop]
    have hlive : Live t k ((m.moved place).queueing []) feed :=
      h.queued (.going ⟨hhere, rfl, rfl⟩ (passes.trans hpasses) mode' (List.forall_mem_nil _)
        (by rw [lexemes, lexemes']; rfl) (by rw [stop, stop']))
    rw [hmoved] at hlive
    exact .ok hreader (next_of_pull_ok hqueue hpull) (.none hlive rfl hstop)
  | @closing l _ hclosing lexemes' pos out =>
    have hls : feed.lexemes = [l] := lexemes.trans lexemes'
    have hlost := h.tookClosing hclosing hhere (passes.trans hpasses) out pos
    rw [hmoved] at hlost
    exact .ok (Reader.next_cons hls) (next_of_pull_ok hqueue hpull) (.closing hls hclosing
      (by show Machine.closed (Machine.taking _ l) = _; rw [Machine.taking, if_pos hclosing]) hlost rfl)
  | @word l _ _ _ hinside mode' lexemes' stop' =>
    have hls := lexemes.trans lexemes'
    have hlive := h.took hls hinside (.going (m := (m.moved place).queueing [])
      ⟨hhere, rfl, rfl⟩ (passes.trans hpasses) mode' (List.forall_mem_nil _) rfl (stop.trans stop'))
    rw [hmoved] at hlive
    exact .ok (Reader.next_cons hls) (next_of_pull_ok hqueue hpull) (.word hls hinside hlive rfl)

/-- The next lexeme is taken, and the machine is in step with what is left of the tag. -/
theorem next_agrees (h : Live t k m feed) :
    Agrees t m feed (next : Program d source _) next (Took t k m feed) := by
  cases h.ahead with
  | shut stands passes out queue lexemes =>
    obtain ⟨front, closing, hqueue, hopen, hclosing, hpos⟩ := queue.exists_last
    have hmoved := stands.moved_eq
    -- The closing delimiter is the last that waits; it is taken if it is the only one.
    cases front with
    | nil =>
      have hls : feed.lexemes = [closing] := by rw [lexemes, hqueue]; rfl
      have hlost := h.tookClosing hclosing stands.here passes out hpos
      rw [hmoved] at hlost
      exact .ok (Reader.next_cons hls) (next_of_waiting hqueue) (.closing hls hclosing
        (by rw [Machine.taking, if_pos hclosing]) hlost rfl)
    | cons l front =>
      obtain ⟨hl, hfront⟩ := List.forall_mem_cons.1 hopen
      have hls : feed.lexemes = l :: (front ++ [closing]) := by rw [lexemes, hqueue]; rfl
      have hlive := h.took hls hl (.shut (m := (m.moved _).queueing (front ++ [closing]))
        ⟨stands.here, rfl, rfl⟩ passes out ⟨front, closing, rfl, hfront, hclosing, hpos⟩ rfl)
      rw [hmoved] at hlive
      exact .ok (Reader.next_cons hls) (next_of_waiting hqueue) (.word hls hl hlive rfl)
  | @going lx kind dot stands passes mode queue lexemes stop =>
    cases hqueue : m.peeked with
    | cons l rest =>
      have hmoved := stands.moved_eq
      rw [hqueue] at queue lexemes
      obtain ⟨hl, hrest⟩ := List.forall_mem_cons.1 queue
      have hlive := h.took lexemes hl (.going (m := (m.moved lx).queueing rest)
        ⟨stands.here, rfl, rfl⟩ passes mode hrest rfl stop)
      rw [hmoved] at hlive
      exact .ok (Reader.next_cons lexemes) (next_of_waiting hqueue) (.word lexemes hl hlive rfl)
    | nil =>
      rw [hqueue, List.nil_append] at lexemes
      exact next_pulled h hqueue stands passes mode lexemes stop

end Stencil.Checked
