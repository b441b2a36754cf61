/-
  Part — what a tag consists of, and what it means for a part to sit in its source.

  Everything in a tag that remembers a place is a `Part`: the statement, the expressions, patterns,
  paths, names, keys, argument lists, filters, text operands and the marks for left-out fields.
  `Part.children` lists what stands directly inside a part, in the order of the source; what has no
  place of its own (an argument, a parameter, a condition, a field of a pattern) is replaced by what
  it consists of.

  `Part.Sits d source p` is the invariant of a tree that was read from `source`: the text under the span
  of `p` is not empty and is the one that `p` records, the children stand inside `p` one after the
  other, and all of this holds of the children too.  The text has no blank at its ends, unless the
  delimiters `d` have, which the places of parts are joined from.  While a tag is read, the parts read
  so far form a `Row` between two offsets; `Row.wrap` turns such a row into a row of one part around it.
-/
import Stencil.Proofs.Lexer.Tight
import Stencil.Template
import Mathlib.Data.List.Basic
import Mathlib.Data.Nat.Digits.Defs

namespace Stencil

/-! ## Parts -/

/-- A part of a tag, with a place of its own. -/
inductive Part where
  | stmt (stmt : Stmt)
  | expr (expr : Expr)
  | pattern (pattern : Pattern)
  | path (path : Path)
  | ident (name : Ident)
  | key (key : Key)
  | args (args : Args)
  | filter (filter : Filter)
  | text (text : TextLit)
  /-- The mark for the fields that the pattern of a structure leaves out. -/
  | rest (span : Span)

/-- The parts of an argument. -/
def Arg.parts : Arg → List Part
  | positional value => [.expr value]
  | named name value => [.ident name, .expr value]

/-- The parts of a field in the pattern of a structure. -/
def FieldPattern.parts : FieldPattern → List Part
  | field name pattern => .ident name :: pattern.toList.map .pattern
  | rest span => [.rest span]

/-- The parts of a condition. -/
def Cond.parts : Cond → List Part
  | expr cond => [.expr cond]
  | bind pattern value => [.pattern pattern, .expr value]

/-- The parts of a parameter. -/
def Param.parts (p : Param) : List Part := .ident p.name :: p.default.toList.map .expr

/-- The parts of an expression. -/
def Expr.parts : Expr → List Part
  | lit _ _ | var _ _ | unit _ => []
  | path p _ => [.path p]
  | binary _ left right _ => [.expr left, .expr right]
  | unary _ operand _ | ref operand _ | attempt operand _ => [.expr operand]
  | call callee args _ => [.expr callee, .args args]
  | field object key _ => [.expr object, .key key]
  | index object i _ => [.expr object, .expr i]
  | range start stop _ _ => start.toList.map .expr ++ stop.toList.map .expr
  | array elems _ | tuple elems _ => elems.map .expr
  | group inner _ => [.expr inner]
  | filter value filters _ => .expr value :: filters.map .filter
  | isDefined subject _ _ => [.expr subject]
  | macroCall p args _ => [.path p, .args args]

/-- The parts of a pattern. -/
def Pattern.parts : Pattern → List Part
  | lit _ _ | ident _ _ | placeholder _ | rest _ => []
  | path p _ => [.path p]
  | tupleStruct p elems _ => .path p :: elems.map .pattern
  | struct p fields _ => .path p :: fields.flatMap FieldPattern.parts
  | tuple elems _ | slice elems _ | alternatives elems _ => elems.map .pattern
  | destructured base elems _ => .pattern base :: elems.map .pattern

/-- The parts of a statement. -/
def StmtKind.parts : StmtKind → List Part
  | block name => [.ident name]
  | endBlock name | endMacro name => name.toList.map .ident
  | extendFrom path | includeFrom path => [.text path]
  | importAs path name => [.text path, .ident name]
  | assign _ _ pattern value => .pattern pattern :: value.toList.map .expr
  | forLoop pattern iterable cond => .pattern pattern :: .expr iterable :: cond.toList.map .expr
  | ifCond cond | elseIf cond => cond.parts
  | matchOn subject => [.expr subject]
  | whenArm pattern => [.pattern pattern]
  | macroDef name params => .ident name :: params.flatMap Param.parts
  | callBlock bindings call => bindings.map .ident ++ [.expr call]
  | filterBlock filters => filters.map .filter
  | endFor | breakLoop | continueLoop | elseCond | endIf | endMatch | endWhen | endCall | endFilter
  | raw | endRaw => []

namespace Part

/-- The place of the part. -/
def span : Part → Span
  | stmt s => s.span
  | expr e => e.span
  | pattern p => p.span
  | path p => p.span
  | ident i => i.span
  | key k => k.span
  | args xs => xs.span
  | filter f => f.span
  | text t => t.span
  | rest s => s

/-- What stands directly inside the part, in the order of the source. -/
def children : Part → List Part
  | stmt s => s.kind.parts
  | expr e => e.parts
  | pattern p => p.parts
  | path p => p.segments.map .ident
  | ident _ | text _ | rest _ | key (.index _ _) => []
  | key (.name i) => [.ident i]
  | args (.mk items _) => items.flatMap Arg.parts
  | filter (.mk name given _) => .ident name :: given.toList.map .args

/-- The second part is the first one or stands somewhere inside it. -/
inductive HasPart : Part → Part → Prop
  | refl (p : Part) : HasPart p p
  | inside {p c q : Part} (hc : c ∈ p.children) (h : HasPart c q) : HasPart p q

end Part

/-! ## Recorded texts -/

/-- The number that a row of decimal digits denotes. -/
def decimalOf (cs : List Char) : Nat :=
  Nat.ofDigits 10 (cs.reverse.map fun c => c.toNat - '0'.toNat)

/-- The text of a number: its digits, after a minus sign and blanks if it is negative.  The suffix is
    the end of the digits. -/
structure Number.WrittenAs (n : Number) (cs : List Char) : Prop where
  text : ∃ sign, cs = sign ++ n.raw.toList ∧
    if n.negative then ∃ blanks, sign = '-' :: blanks ∧ ∀ c ∈ blanks, isBlank c = true
    else sign = []
  suffix : ∀ s ∈ n.suffix, s.toList <:+ n.raw.toList

/-- What the part records of the text under its span: names and numbers have to be that text. -/
def Part.Records : Part → List Char → Prop
  | ident i, cs => cs = i.name.toList
  | expr (.var name _), cs => cs = name.toList
  | pattern (.ident name _), cs => cs = name.toList
  | expr (.lit (.num n) _), cs => n.WrittenAs cs
  | pattern (.lit (.num n) _), cs => n.WrittenAs cs
  | key (.index value _), cs => cs.all (·.isDigit) = true ∧ decimalOf cs = value
  | _, _ => True

/-! ## Texts under spans -/

theorem slice?_eq_some {s : Span} {cs mid : List Char} (h : slice? s cs = some mid) :
    ∃ front back, cs = front ++ (mid ++ back) ∧ s.start = byteLen front ∧
      s.stop = byteLen front + byteLen mid := by
  unfold slice? at h
  split at h
  · next hle =>
    obtain ⟨⟨front, rest⟩, hfront, h⟩ := Option.bind_eq_some_iff.1 h
    obtain ⟨⟨mid', back⟩, hmid, h⟩ := Option.bind_eq_some_iff.1 h
    cases h
    obtain ⟨hcs, hstart⟩ := splitAtByte?_eq_some hfront
    obtain ⟨hrest, hstop⟩ := splitAtByte?_eq_some hmid
    refine ⟨front, back, by rw [← hcs, ← hrest], hstart.symm, ?_⟩
    omega
  · cases h

theorem slice?_of_append {s : Span} {cs mid : List Char} (front back : List Char)
    (hcs : cs = front ++ (mid ++ back)) (hstart : s.start = byteLen front)
    (hstop : s.stop = byteLen front + byteLen mid) : slice? s cs = some mid := by
  obtain ⟨start, stop⟩ := s
  dsimp only at hstart hstop
  rw [hcs, hstart, hstop]
  exact slice?_append front mid back

/-- Of two ways to cut a text in two, the one with the shorter front cuts the other front. -/
theorem append_eq_append_of_byteLen {a b c e : List Char} (h : a ++ b = c ++ e)
    (hlen : byteLen a ≤ byteLen c) : ∃ m, c = a ++ m ∧ b = m ++ e := by
  rcases List.append_eq_append_iff.1 h with ⟨m, hc, hb⟩ | ⟨m, ha, he⟩
  · exact ⟨m, hc, hb⟩
  · have hm : m = [] := by
      by_contra hne
      have := byteLen_pos hne
      rw [ha, byteLen_append] at hlen
      omega
    subst hm
    exact ⟨[], by rw [ha, List.append_nil, List.append_nil], by rw [he, List.nil_append, List.nil_append]⟩

/-- Texts that meet are one text. -/
theorem slice?_concat {s t : Span} {cs a b : List Char} (ha : slice? s cs = some a)
    (hb : slice? t cs = some b) (hmeet : s.stop = t.start) :
    slice? ⟨s.start, t.stop⟩ cs = some (a ++ b) := by
  obtain ⟨front, back, hcs, hstart, hstop⟩ := slice?_eq_some ha
  obtain ⟨front', back', hcs', hstart', hstop'⟩ := slice?_eq_some hb
  have hfront : byteLen (front ++ a) = byteLen front' := by
    rw [byteLen_append]
    omega
  have hsame : (front ++ a) ++ back = front' ++ (b ++ back') := by
    rw [← hcs', hcs, List.append_assoc]
  obtain ⟨m, hm, hback⟩ := append_eq_append_of_byteLen hsame (Nat.le_of_eq hfront)
  have hnil : m = [] := by
    by_contra hne
    have := byteLen_pos hne
    have hlen := congrArg byteLen hm
    rw [byteLen_append] at hlen
    omega
  subst hnil
  refine slice?_of_append front back' ?_ hstart ?_
  · rw [hcs, hback, List.nil_append, List.append_assoc]
  · show t.stop = _
    rw [hstop', ← hfront, byteLen_append, byteLen_append]
    omega

/-- From the start of one text to the end of a later one there is a text, which begins as the first and
    ends as the second. -/
theorem exists_slice?_between {s t : Span} {cs a b : List Char} (ha : slice? s cs = some a)
    (hb : slice? t cs = some b) (hlt : s.start < t.stop) (hane : a ≠ []) (hbne : b ≠ []) :
    ∃ mid, slice? ⟨s.start, t.stop⟩ cs = some mid ∧ mid ≠ [] ∧ mid.head? = a.head? ∧
      mid.getLast? = b.getLast? := by
  obtain ⟨front, back, hcs, hstart, -⟩ := slice?_eq_some ha
  obtain ⟨front', back', hcs', -, hstop'⟩ := slice?_eq_some hb
  have hsame : front ++ (a ++ back) = (front' ++ b) ++ back' := by
    rw [← hcs, hcs', List.append_assoc]
  have hlen : byteLen front ≤ byteLen (front' ++ b) := by
    rw [byteLen_append]
    omega
  obtain ⟨m, hm, hback⟩ := append_eq_append_of_byteLen hsame hlen
  have hstop : t.stop = byteLen front + byteLen m := by
    rw [hstop', ← byteLen_append, ← byteLen_append, hm]
  have hne : m ≠ [] := by
    rintro rfl
    rw [byteLen_nil] at hstop
    omega
  refine ⟨m, slice?_of_append front back' ?_ hstart hstop, hne, ?_, ?_⟩
  · rw [hcs, hback]
  · have hhead := congrArg List.head? hback
    rw [List.head?_append_of_ne_nil a hane, List.head?_append_of_ne_nil m hne] at hhead
    exact hhead.symm
  · have hlast := congrArg List.getLast? hm
    rw [List.getLast?_append_of_ne_nil _ hbne, List.getLast?_append_of_ne_nil _ hne] at hlast
    exact hlast.symm

/-- There is text under the span: it is not empty, and both ends fall between characters.  If the
    delimiters have no blanks at their ends, the text has none. -/
def Span.Marks (d : Delims) (source : List Char) (s : Span) : Prop :=
  ∃ cs, slice? s source = some cs ∧ cs ≠ [] ∧ (d.Tight → Tight cs)

namespace Span.Marks

variable {d : Delims} {source : List Char} {s t : Span}

theorem lt (h : s.Marks d source) : s.start < s.stop := by
  obtain ⟨cs, hcs, hne, -⟩ := h
  obtain ⟨front, back, -, hstart, hstop⟩ := slice?_eq_some hcs
  have := byteLen_pos hne
  omega

theorem between (hs : s.Marks d source) (ht : t.Marks d source) (hlt : s.start < t.stop) :
    (Span.mk s.start t.stop).Marks d source := by
  obtain ⟨a, ha, hane, hatight⟩ := hs
  obtain ⟨b, hb, hbne, hbtight⟩ := ht
  obtain ⟨mid, hmid, hne, hhead, hlast⟩ := exists_slice?_between ha hb hlt hane hbne
  refine ⟨mid, hmid, hne, fun htight => ⟨?_, ?_⟩⟩
  · rw [hhead]
    exact (hatight htight).head
  · rw [hlast]
    exact (hbtight htight).last

end Span.Marks

/-- A span joined with one that neither starts nor ends before it runs from start to end. -/
theorem Span.join_eq {s t : Span} (hstart : s.start ≤ t.start) (hstop : s.stop ≤ t.stop) :
    s.join t = ⟨s.start, t.stop⟩ := by
  rw [Span.join, Nat.min_eq_left hstart, Nat.max_eq_right hstop]

/-! ## Parts in their source -/

namespace Part

variable {d : Delims} {source : List Char}

/-- The parts stand between the two offsets, one after the other and none of them empty. -/
def InOrder : Nat → List Part → Nat → Prop
  | a, [], b => a ≤ b
  | a, p :: ps, b => a ≤ p.span.start ∧ p.span.start < p.span.stop ∧ InOrder p.span.stop ps b

/-- The part and everything inside it stands in the source where and as it should. -/
inductive Sits (d : Delims) (source : List Char) : Part → Prop
  | mk {p : Part} {cs : List Char} (text : slice? p.span source = some cs) (some : cs ≠ [])
      (records : p.Records cs) (inOrder : InOrder p.span.start p.children p.span.stop)
      (below : ∀ c ∈ p.children, Sits d source c) (tight : d.Tight → Tight cs) : Sits d source p

theorem Sits.marks {p : Part} (h : p.Sits d source) : p.span.Marks d source := by
  cases h with
  | mk text some records inOrder below tight => exact ⟨_, text, some, tight⟩

/-- What holds of a part holds of everything inside it. -/
theorem Sits.of_hasPart {p q : Part} (h : p.Sits d source) (hq : p.HasPart q) : q.Sits d source := by
  induction hq with
  | refl p => exact h
  | inside hc _ ih =>
    cases h with
    | mk text some records inOrder below => exact ih (below _ hc)

namespace InOrder

variable {a b : Nat} {ps qs : List Part}

theorem le (h : InOrder a ps b) : a ≤ b := by
  induction ps generalizing a with
  | nil => exact h
  | cons p ps ih =>
    obtain ⟨hstart, hlt, hps⟩ := h
    have := ih hps
    omega

theorem weaken {a' b' : Nat} (h : InOrder a ps b) (ha : a' ≤ a) (hb : b ≤ b') : InOrder a' ps b' := by
  induction ps generalizing a a' with
  | nil => exact Nat.le_trans ha (Nat.le_trans h hb)
  | cons p ps ih =>
    obtain ⟨hstart, hlt, hps⟩ := h
    exact ⟨Nat.le_trans ha hstart, hlt, ih hps (Nat.le_refl _)⟩

theorem append {m : Nat} (h : InOrder a ps m) (h' : InOrder m qs b) : InOrder a (ps ++ qs) b := by
  induction ps generalizing a with
  | nil => exact h'.weaken h (Nat.le_refl b)
  | cons p ps ih => exact ⟨h.1, h.2.1, ih h.2.2⟩

/-- Every part of the row lies between the two offsets. -/
theorem within (h : InOrder a ps b) {p : Part} (hp : p ∈ ps) :
    a ≤ p.span.start ∧ p.span.stop ≤ b := by
  induction ps generalizing a with
  | nil => cases hp
  | cons p' ps ih =>
    obtain ⟨hstart, hlt, hps⟩ := h
    rcases List.mem_cons.1 hp with rfl | hmem
    · exact ⟨hstart, hps.le⟩
    · have := ih hps hmem
      exact ⟨by omega, this.2⟩

/-- No two parts of the row overlap, and what is listed first stands first. -/
theorem pairwise (h : InOrder a ps b) : ps.Pairwise fun p q => p.span.stop ≤ q.span.start := by
  induction ps generalizing a with
  | nil => exact .nil
  | cons p ps ih => exact .cons (fun q hq => (h.2.2.within hq).1) (ih h.2.2)

end InOrder

/-! ## Rows -/

/-- The parts sit in the source, one after the other between the two offsets. -/
structure Row (d : Delims) (source : List Char) (a : Nat) (ps : List Part) (b : Nat) : Prop where
  inOrder : InOrder a ps b
  sits : ∀ p ∈ ps, p.Sits d source

namespace Row

variable {a b m : Nat} {p : Part} {ps qs : List Part} {s t : Span}

theorem nil (h : a ≤ b) : Row d source a [] b := ⟨h, nofun⟩

theorem le (h : Row d source a ps b) : a ≤ b := h.inOrder.le

theorem weaken {i j : Nat} (h : Row d source a ps b) (ha : i ≤ a) (hb : b ≤ j) :
    Row d source i ps j := ⟨h.inOrder.weaken ha hb, h.sits⟩

theorem append (h : Row d source a ps m) (h' : Row d source m qs b) : Row d source a (ps ++ qs) b where
  inOrder := h.inOrder.append h'.inOrder
  sits := fun p hp => (List.mem_append.1 hp).elim (h.sits p) (h'.sits p)

theorem cons (h : Row d source a [p] m) (h' : Row d source m ps b) : Row d source a (p :: ps) b :=
  h.append h'

theorem head (h : Row d source a (p :: ps) b) : Row d source a [p] p.span.stop where
  inOrder := ⟨h.inOrder.1, h.inOrder.2.1, Nat.le_refl _⟩
  sits := fun q hq => h.sits q (List.mem_cons.2 (.inl (List.mem_singleton.1 hq)))

theorem tail (h : Row d source a (p :: ps) b) : Row d source p.span.stop ps b where
  inOrder := h.inOrder.2.2
  sits := fun q hq => h.sits q (List.mem_cons_of_mem p hq)

theorem marks (h : Row d source a ps b) (hp : p ∈ ps) : p.span.Marks d source := (h.sits p hp).marks

theorem ends (h : Row d source a [p] b) (hspan : p.span = s) :
    a ≤ s.start ∧ s.start < s.stop ∧ s.stop ≤ b := by
  subst hspan
  exact ⟨h.inOrder.1, h.inOrder.2.1, h.inOrder.2.2⟩

/-- The row begins no later than where its first part does. -/
theorem from_head (h : Row d source a (p :: ps) b) : Row d source p.span.start (p :: ps) b where
  inOrder := ⟨Nat.le_refl _, h.inOrder.2⟩
  sits := h.sits

/-- The row ends no earlier than where its last part does. -/
theorem to_last (h : Row d source a ps b) (hlast : ps.getLast? = some p) :
    Row d source a ps p.span.stop ∧ p.span.stop ≤ b := by
  obtain ⟨front, rfl⟩ := List.getLast?_eq_some_iff.1 hlast
  clear hlast
  induction front generalizing a with
  | nil => exact ⟨h.head, h.tail.le⟩
  | cons q front ih =>
    obtain ⟨hrow, hle⟩ := ih h.tail
    exact ⟨h.head.cons hrow, hle⟩

/-- A part sits where its children form a row between the ends of its span. -/
theorem wrap (h : Row d source s.start p.children t.stop) (hs : s.Marks d source) (ht : t.Marks d source)
    (hstart : s.start ≤ t.start) (hstop : s.stop ≤ t.stop) (hspan : p.span = s.join t)
    (hrecords : ∀ cs, slice? p.span source = some cs → p.Records cs) :
    Row d source s.start [p] t.stop := by
  have hs' := hs.lt
  have ht' := ht.lt
  rw [Span.join_eq hstart hstop] at hspan
  obtain ⟨cs, hcs, hne, htight⟩ := hs.between ht (by omega)
  have hstart' : p.span.start = s.start := by rw [hspan]
  have hstop' : p.span.stop = t.stop := by rw [hspan]
  rw [← hspan] at hcs
  constructor
  · exact ⟨Nat.le_of_eq hstart'.symm, by omega, Nat.le_of_eq hstop'⟩
  · intro q hq
    obtain rfl := List.mem_singleton.1 hq
    refine .mk hcs hne (hrecords cs hcs) ?_ h.sits htight
    rw [hstart', hstop']
    exact h.inOrder

/-- As `wrap`, where the span ends with the last child. -/
theorem wrapFrom {y : Part} (h : Row d source s.start p.children b) (hs : s.Marks d source)
    (hy : p.children.getLast? = some y) (hstop : s.stop ≤ y.span.stop)
    (hspan : p.span = s.join y.span)
    (hrecords : ∀ cs, slice? p.span source = some cs → p.Records cs) :
    Row d source s.start [p] b := by
  obtain ⟨hrow, hle⟩ := h.to_last hy
  have hmem : y ∈ p.children := List.mem_of_mem_getLast? hy
  have hstart := (h.inOrder.within hmem).1
  exact (hrow.wrap hs (h.marks hmem) hstart hstop hspan hrecords).weaken (Nat.le_refl _) hle

/-- As `wrap`, where the span starts with the first child. -/
theorem wrapTo {x : Part} (h : Row d source a p.children t.stop) (hx : p.children.head? = some x)
    (ht : t.Marks d source) (hstart : x.span.start ≤ t.start) (hspan : p.span = x.span.join t)
    (hrecords : ∀ cs, slice? p.span source = some cs → p.Records cs) :
    Row d source a [p] t.stop := by
  obtain ⟨ps, hps⟩ := List.head?_eq_some_iff.1 hx
  have hmem : x ∈ p.children := List.mem_of_mem_head? hx
  obtain ⟨hle, hstop⟩ := h.inOrder.within hmem
  have hmarks := h.marks hmem
  rw [hps] at h
  have hfrom := h.from_head
  rw [← hps] at hfrom
  exact (hfrom.wrap hmarks ht hstart hstop hspan hrecords).weaken hle (Nat.le_refl _)

/-- As `wrap`, where the span goes from the first child to the last. -/
theorem enclose {x y : Part} (h : Row d source a p.children b) (hx : p.children.head? = some x)
    (hy : p.children.getLast? = some y) (hspan : p.span = x.span.join y.span)
    (hrecords : ∀ cs, slice? p.span source = some cs → p.Records cs) : Row d source a [p] b := by
  obtain ⟨hrow, hle⟩ := h.to_last hy
  have hmem : y ∈ p.children := List.mem_of_mem_getLast? hy
  have hxmem : x ∈ p.children := List.mem_of_mem_head? hx
  -- The first child does not start after the last one: the row can be cut down to begin with it.
  obtain ⟨ps, hps⟩ := List.head?_eq_some_iff.1 hx
  have hstart : x.span.start ≤ y.span.start := by
    have hfrom := hrow
    rw [hps] at hfrom hmem
    exact (hfrom.from_head.inOrder.within hmem).1
  exact (hrow.wrapTo hx (h.marks hmem) hstart hspan hrecords).weaken (Nat.le_refl _) hle

/-- As `wrap`, for a part without children. -/
theorem leaf (hs : s.Marks d source) (hspan : p.span = s) (hchildren : p.children = [])
    (hrecords : ∀ cs, slice? p.span source = some cs → p.Records cs) : Row d source s.start [p] s.stop := by
  refine wrap (hchildren ▸ nil (Nat.le_of_lt hs.lt)) hs hs (Nat.le_refl _) (Nat.le_refl _) ?_ hrecords
  rw [hspan, Span.join_self]

end Row

end Part

end Stencil
