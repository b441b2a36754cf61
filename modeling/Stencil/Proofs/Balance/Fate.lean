/-
  Fate — what becomes of every tag of a row, from no open tags to the end.

  The walk never looks at the places of tags; it hands them on (`check_respan`).  So the tags of a row
  may be given their numbers for places, and the open tags and the complaints of a row are those of the
  numbered row with the places put back.  In the numbered row it can be said which tag is open and
  which one is complained of, also if two tags stood at the same place.

  `tags_accounted` puts together what one tag does (`Stencil.Proofs.Balance.Walk`) for a whole row:
  arms lie on matches; a refused tag changes nothing; a tag that is named wrongly closes; no tag is
  complained of twice; and a tag that opens is refused, or closed by one later tag, or unclosed
  (`Fate`).  The last is about the first number at which the tag is not open any more: an open tag is
  never opened again, since its number is behind.
-/
import Stencil.Proofs.Balance.Walk
import Stencil.Proofs.Respan

namespace Stencil

instance : Spanned OpenTag := ⟨fun f o => { o with span := f o.span }⟩
instance : Spanned Diagnostic := ⟨fun f d => { d with span := f d.span }⟩

namespace Balance

/-! ## Places are handed on -/

section

variable (f : Span → Span) (stack : Stack) (span : Span)

theorem top?_respan : top? (respan f stack) = top? stack := by
  cases stack <;> rfl

theorem endArm_respan : endArm (respan f stack) = respan f (endArm stack) := by
  cases stack with
  | nil => rfl
  | cons o rest =>
    show (if o.kind = .whenArm then respan f rest else respan f (o :: rest)) =
      respan f (if o.kind = .whenArm then rest else o :: rest)
    split <;> rfl

theorem misnamed?_respan (kind : Opener) (expected found : Option String) :
    misnamed? kind expected found (f span) = respan f (misnamed? kind expected found span) := by
  unfold misnamed?
  split
  · split <;> rfl
  · rfl

theorem closing_respan (kind : Opener) (name : Option String) :
    closing (respan f stack) kind (f span) name =
      (respan f (closing stack kind span name).1, respan f (closing stack kind span name).2) := by
  cases stack with
  | nil => rfl
  | cons o rest =>
    show (if o.kind = kind then (respan f rest, misnamed? kind o.name name (f span))
      else misplaced (respan f (o :: rest)) kind.endText (f span)) = _
    rw [misnamed?_respan]
    dsimp only [closing]
    split <;> rfl

theorem elseIf_respan : elseIf (respan f stack) (f span) =
    (respan f (elseIf stack span).1, respan f (elseIf stack span).2) := by
  cases stack with
  | nil => rfl
  | cons o rest =>
    show (if o.kind = .ifCond ∧ o.hasElse = false then (respan f (o :: rest), none)
      else misplaced (respan f (o :: rest)) "else if" (f span)) = _
    dsimp only [elseIf]
    split <;> rfl

theorem elsePart_respan : elsePart (respan f stack) (f span) =
    (respan f (elsePart stack span).1, respan f (elsePart stack span).2) := by
  cases stack with
  | nil => rfl
  | cons o rest =>
    show (if (o.kind = .ifCond ∨ o.kind = .forLoop) ∧ o.hasElse = false then
        (respan f ({ o with hasElse := true } :: rest), none)
      else misplaced (respan f (o :: rest)) "else" (f span)) = _
    dsimp only [elsePart]
    split <;> rfl

theorem arm_respan : arm (respan f stack) (f span) =
    (respan f (arm stack span).1, respan f (arm stack span).2) := by
  unfold arm
  rw [endArm_respan]
  dsimp only
  rw [top?_respan]
  split <;> rfl

theorem inLoop_respan (word : String) : inLoop (respan f stack) word (f span) =
    (respan f (inLoop stack word span).1, respan f (inLoop stack word span).2) := by
  have hany : (respan f stack).any (fun o => o.kind = .forLoop) =
      stack.any fun o => o.kind = .forLoop := List.any_map
  unfold inLoop
  rw [hany]
  split <;> rfl

theorem visit_respan (k : StmtKind) :
    visit (respan f stack) k (f span) =
      (respan f (visit stack k span).1, respan f (visit stack k span).2) := by
  cases k with
  | endBlock | endFor | endIf | endMacro | endCall | endFilter | endWhen | endRaw =>
    exact closing_respan f stack span _ _
  | endMatch =>
    show closing (endArm (respan f stack)) .matchOn (f span) none = _
    rw [endArm_respan]
    exact closing_respan f (endArm stack) span _ _
  | elseIf c => exact elseIf_respan f stack span
  | elseCond => exact elsePart_respan f stack span
  | whenArm p => exact arm_respan f stack span
  | breakLoop => exact inLoop_respan f stack span "break"
  | continueLoop => exact inLoop_respan f stack span "continue"
  | block | forLoop | ifCond | matchOn | macroDef | callBlock | filterBlock | raw => rfl
  | extendFrom | includeFrom | importAs | assign => rfl

variable (row : List (StmtKind × Span))

theorem after_respan :
    after (respan f stack) (row.map fun t => (t.1, f t.2)) = respan f (after stack row) := by
  induction row generalizing stack with
  | nil => rfl
  | cons t row ih =>
    show after (visit (respan f stack) t.1 (f t.2)).1 (row.map fun t => (t.1, f t.2)) = _
    rw [visit_respan, ih]
    rfl

theorem finish_respan : finish (respan f stack) = respan f (finish stack) := by
  show ((stack.map (respan f)).reverse.map fun o : OpenTag =>
      (⟨.unbalanced (.unclosed o.kind), o.span⟩ : Diagnostic)) =
    (stack.reverse.map fun o => (⟨.unbalanced (.unclosed o.kind), o.span⟩ : Diagnostic)).map
      (respan f)
  rw [← List.map_reverse, List.map_map, List.map_map]
  rfl

/-- The places of the tags only show in the places of the complaints. -/
theorem check_respan :
    check (respan f stack) (row.map fun t => (t.1, f t.2)) = respan f (check stack row) := by
  induction row generalizing stack with
  | nil => exact finish_respan f stack
  | cons t row ih =>
    show (visit (respan f stack) t.1 (f t.2)).2.toList ++
      check (visit (respan f stack) t.1 (f t.2)).1 (row.map fun t => (t.1, f t.2)) = _
    rw [visit_respan, ih]
    show (respan f (visit stack t.1 t.2).2).toList ++ (check _ row).map (respan f) =
      ((visit stack t.1 t.2).2.toList ++ check _ row).map (respan f)
    rw [List.map_append]
    congr 1
    cases (visit stack t.1 t.2).2 <;> rfl

end

/-! ## Numbers for places -/

/-- The statements in a row, each with its number for its place. -/
def numbered (kinds : List StmtKind) : List (StmtKind × Span) :=
  kinds.mapIdx fun i k => (k, .point i)

/-- The place that the tag with this number has in the row. -/
def placeIn (row : List (StmtKind × Span)) (number : Span) : Span :=
  (row[number.start]?.map Prod.snd).getD number

theorem getElem?_numbered (kinds : List StmtKind) (n : Nat) :
    (numbered kinds)[n]? = kinds[n]?.map fun k => (k, .point n) :=
  List.getElem?_mapIdx

theorem map_placeIn_numbered (row : List (StmtKind × Span)) :
    (numbered (row.map Prod.fst)).map (fun t => (t.1, placeIn row t.2)) = row := by
  refine List.ext_getElem? fun n => ?_
  rw [List.getElem?_map, getElem?_numbered, List.getElem?_map]
  cases h : row[n]? with
  | none => rfl
  | some t => simp [placeIn, Span.point, h]

/-- The complaints about a row are those about its tags by number, with the places put back. -/
theorem check_eq_respan_numbered (row : List (StmtKind × Span)) :
    check [] row = respan (placeIn row) (check [] (numbered (row.map Prod.fst))) := by
  conv_lhs => rw [← map_placeIn_numbered row]
  exact check_respan (placeIn row) [] _

/-- So are the tags open after some of the row. -/
theorem after_eq_respan_numbered (row : List (StmtKind × Span)) (n : Nat) :
    after [] (row.take n) =
      respan (placeIn row) (after [] ((numbered (row.map Prod.fst)).take n)) := by
  conv_lhs => rw [← map_placeIn_numbered row, ← List.map_take]
  exact after_respan (placeIn row) [] _

/-- The numbers in a numbered row are counted up. -/
theorem map_snd_numbered (kinds : List StmtKind) :
    (numbered kinds).map Prod.snd = (List.range kinds.length).map .point := by
  refine List.ext_getElem? fun n => ?_
  rw [List.getElem?_map, getElem?_numbered, List.getElem?_map]
  by_cases hn : n < kinds.length
  · rw [List.getElem?_eq_getElem hn, List.getElem?_range hn]
    rfl
  · rw [List.getElem?_eq_none (by omega), List.getElem?_eq_none (by rw [List.length_range]; omega)]
    rfl

theorem numbers_increase (kinds : List StmtKind) :
    ((numbered kinds).map Prod.snd).Pairwise fun a b => a.start < b.start := by
  rw [map_snd_numbered, List.pairwise_map]
  exact List.pairwise_lt_range

/-! ## When a tag is open -/

section

variable {kinds : List StmtKind} {n i : Nat} {kind : Opener} {k : StmtKind}

/-- After the first `n` tags, tag number `i` is open, as one of the kind. -/
def IsOpen (kinds : List StmtKind) (n i : Nat) (kind : Opener) : Prop :=
  (kind, .point i) ∈ (after [] ((numbered kinds).take n)).map key

/-- The visit of tag number `n` ends some open tags, keeps the others and opens at most one. -/
theorem turnover_at (hk : kinds[n]? = some k) :
    ∃ ended kept added, Turnover (after [] ((numbered kinds).take n)) k (.point n)
      (visit (after [] ((numbered kinds).take n)) k (.point n)) ended kept added ∧
      (∀ i kind, IsOpen kinds n i kind ↔ (kind, .point i) ∈ ended ++ kept) ∧
      ∀ i kind, IsOpen kinds (n + 1) i kind ↔ (kind, .point i) ∈ added ++ kept := by
  have hat : (numbered kinds)[n]? = some (k, .point n) := by rw [getElem?_numbered, hk]; rfl
  obtain ⟨ended, kept, added, hturn⟩ :=
    (effect_of_visit (armsOnMatches_after armsOnMatches_nil) k (.point n)).turnover
  refine ⟨ended, kept, added, hturn, fun i kind => ?_, fun i kind => ?_⟩
  · rw [IsOpen, hturn.before]
  · rw [IsOpen, after_take_succ hat, hturn.after]

theorem isOpen_succ_of_length_le (hn : kinds.length ≤ n) :
    IsOpen kinds (n + 1) i kind ↔ IsOpen kinds n i kind := by
  have hlength : (numbered kinds).length ≤ n := by rwa [numbered, List.length_mapIdx]
  unfold IsOpen
  rw [List.take_of_length_le hlength, List.take_of_length_le (Nat.le_succ_of_le hlength)]

/-- Only a tag that has been visited is open. -/
theorem IsOpen.lt (h : IsOpen kinds n i kind) : i < n ∧ i < kinds.length := by
  have hmem : Span.point i ∈ ((after [] ((numbered kinds).take n)).map (·.span)).reverse := by
    rw [List.mem_reverse, ← map_snd_key]
    exact List.mem_map_of_mem h
  have hplace := (after_sublist armsOnMatches_nil).subset hmem
  rw [List.map_take, map_snd_numbered, ← List.map_take, List.take_range] at hplace
  obtain ⟨j, hj, heq⟩ := List.mem_map.1 hplace
  obtain rfl : j = i := congrArg Span.start heq
  have hlt := List.mem_range.1 hj
  omega

/-- A tag that is open was opened by its own visit. -/
theorem IsOpen.of_succ (h : IsOpen kinds (n + 1) i kind) (hne : i ≠ n) : IsOpen kinds n i kind := by
  cases hk : kinds[n]? with
  | none => exact (isOpen_succ_of_length_le (List.getElem?_eq_none_iff.1 hk)).1 h
  | some k =>
    obtain ⟨ended, kept, added, hturn, hbefore, hafter⟩ := turnover_at hk
    rcases List.mem_append.1 ((hafter i kind).1 h) with hadded | hkept
    · obtain ⟨rfl, -⟩ | ⟨-, kind', -, rfl⟩ := hturn.opens
      · cases hadded
      · have heq := (Prod.mk.inj (List.mem_singleton.1 hadded)).2
        exact absurd (congrArg Span.start heq) hne
    · exact (hbefore i kind).2 (List.mem_append_right ended hkept)

/-- An open tag is ended by a statement that ends tags of its kind. -/
theorem IsOpen.terminated (h : IsOpen kinds n i kind) (h' : ¬IsOpen kinds (n + 1) i kind) :
    ∃ k, kinds[n]? = some k ∧ Terminates k kind := by
  cases hk : kinds[n]? with
  | none => exact absurd ((isOpen_succ_of_length_le (List.getElem?_eq_none_iff.1 hk)).2 h) h'
  | some k =>
    obtain ⟨ended, kept, added, hturn, hbefore, hafter⟩ := turnover_at hk
    rcases List.mem_append.1 ((hbefore i kind).1 h) with hended | hkept
    · exact ⟨k, rfl, hturn.ends _ hended⟩
    · exact absurd ((hafter i kind).2 (List.mem_append_right added hkept)) h'

/-- What was open later was open before, back to its own visit. -/
theorem IsOpen.earlier {m : Nat} (h : IsOpen kinds n i kind) (hi : i < m) (hm : m ≤ n) :
    IsOpen kinds m i kind := by
  induction n, hm using Nat.le_induction with
  | base => exact h
  | succ n hmn ih => exact ih (h.of_succ (by omega))

/-- A statement that opens a tag does so, unless it is an arm outside of a match. -/
theorem isOpen_or_refused (hk : kinds[i]? = some k) (hopens : k.opens? = some kind) :
    IsOpen kinds (i + 1) i kind ∨ ¬IsOpen kinds (i + 1) i kind ∧ kind = .whenArm ∧
      ⟨.unbalanced (.misplaced "when"), .point i⟩ ∈ reports [] (numbered kinds) := by
  obtain ⟨ended, kept, added, hturn, hbefore, hafter⟩ := turnover_at hk
  obtain ⟨rfl, hopens' | hproblem⟩ | ⟨-, kind', hopens', rfl⟩ := hturn.opens
  · rw [hopens] at hopens'
    cases hopens'
  · obtain ⟨e, he⟩ := Option.ne_none_iff_exists'.1 hproblem
    obtain ⟨rfl, rfl⟩ := refused_of_opens? hopens he
    refine .inr ⟨fun hopen => ?_, rfl, mem_reports_iff.2 ⟨i, (k, .point i), ?_, he⟩⟩
    · -- Nothing was added, and number `i` was not open before.
      have hkept := (hafter i _).1 hopen
      have hopen' := (hbefore i _).2 (List.mem_append_right ended hkept)
      exact Nat.lt_irrefl i hopen'.lt.1
    · rw [getElem?_numbered, hk]
      rfl
  · rw [hopens] at hopens'
    cases hopens'
    exact .inl ((hafter i _).2 List.mem_cons_self)

/-! ## The fate of a tag that opens -/

/-- What becomes of tag number `i`, which opens one of the kind. -/
inductive Fate (kinds : List StmtKind) (i : Nat) (kind : Opener) : Prop
  /-- It is an arm outside of a match: it is complained of and never open. -/
  | refused (hkind : kind = .whenArm)
      (hreport : ⟨.unbalanced (.misplaced "when"), .point i⟩ ∈ check [] (numbered kinds))
      (hopen : ∀ n, ¬IsOpen kinds n i kind)
  /-- It is open until the end tag number `j`. -/
  | closed (j : Nat) (k : StmtKind) (hlt : i < j) (hk : kinds[j]? = some k)
      (hcloses : k.closes? = some kind) (hopen : ∀ n, IsOpen kinds n i kind ↔ i < n ∧ n ≤ j)
  /-- It is an arm and open until tag number `j`, the next arm or the end of the match. -/
  | closedImplicitly (j : Nat) (k : StmtKind) (hkind : kind = .whenArm) (hlt : i < j)
      (hk : kinds[j]? = some k) (hends : k.opens? = some .whenArm ∨ k.closes? = some .matchOn)
      (hopen : ∀ n, IsOpen kinds n i kind ↔ i < n ∧ n ≤ j)
  /-- It stays open and is complained of at the end. -/
  | unclosed (hreport : ⟨.unbalanced (.unclosed kind), .point i⟩ ∈ check [] (numbered kinds))
      (hopen : ∀ n, IsOpen kinds n i kind ↔ i < n)

/-- Exactly the tags open at the end are called unclosed. -/
theorem unclosed_mem_check_iff :
    ⟨.unbalanced (.unclosed kind), .point i⟩ ∈ check [] (numbered kinds) ↔
      IsOpen kinds kinds.length i kind := by
  have htake : (numbered kinds).take kinds.length = numbered kinds :=
    List.take_of_length_le (by rw [numbered, List.length_mapIdx])
  unfold IsOpen
  rw [check_eq, List.mem_append, mem_finish_iff, htake, List.mem_map]
  constructor
  · rintro (hreport | ⟨o, ho, heq⟩)
    · obtain ⟨n, t, -, he⟩ := mem_reports_iff.1 hreport
      exact absurd rfl (((visit_visits _ _ _).problem _ he).2 kind)
    · obtain ⟨hfault, hspan⟩ := Diagnostic.mk.inj heq
      cases hfault
      exact ⟨o, ho, by rw [key, hspan]⟩
  · rintro ⟨o, ho, heq⟩
    obtain ⟨rfl, hspan⟩ := Prod.mk.inj heq
    exact .inr ⟨o, ho, by rw [hspan]⟩

theorem fate_of_opens? (hk : kinds[i]? = some k) (hopens : k.opens? = some kind) :
    Fate kinds i kind := by
  rcases isOpen_or_refused hk hopens with hopened | ⟨hnever, hkind, hreport⟩
  · by_cases hclosed : ∃ n, i < n ∧ ¬IsOpen kinds n i kind
    · -- The least such number comes right after the tag that ends it.
      classical
      obtain ⟨hlt, hnot⟩ := Nat.find_spec hclosed
      obtain ⟨j, hj⟩ : ∃ j, Nat.find hclosed = j + 1 := Nat.exists_eq_add_one.2 (by omega)
      have hbefore : ∀ n, i < n → n ≤ j → IsOpen kinds n i kind := by
        intro n hin hnj
        by_contra hn
        exact Nat.find_min hclosed (by omega : n < Nat.find hclosed) ⟨hin, hn⟩
      rw [hj] at hlt hnot
      have hij : i < j := by
        rcases Nat.lt_succ_iff_lt_or_eq.1 hlt with hlt | rfl
        · exact hlt
        · exact absurd hopened hnot
      have hopen : ∀ n, IsOpen kinds n i kind ↔ i < n ∧ n ≤ j := by
        intro n
        refine ⟨fun h => ⟨h.lt.1, ?_⟩, fun ⟨hin, hnj⟩ => hbefore n hin hnj⟩
        by_contra hjn
        exact hnot (h.earlier hlt (by omega))
      obtain ⟨k', hk', hterm⟩ := (hbefore j hij (Nat.le_refl j)).terminated hnot
      rcases hterm with hcloses | ⟨hkind, hends⟩
      · exact .closed j k' hij hk' hcloses hopen
      · exact .closedImplicitly j k' hkind hij hk' hends hopen
    · have hopen : ∀ n, IsOpen kinds n i kind ↔ i < n := by
        intro n
        refine ⟨fun h => h.lt.1, fun hin => ?_⟩
        by_contra hn
        exact hclosed ⟨n, hin, hn⟩
      exact .unclosed (unclosed_mem_check_iff.2 ((hopen _).2 hopened.lt.2)) hopen
  · refine .refused hkind ?_ fun n hn => hnever (hn.earlier (Nat.lt_succ_self i) hn.lt.1)
    rw [check_eq]
    exact List.mem_append_left _ hreport

end

/-! ## The whole row -/

/-- Complaints in the order of the tags they are about. -/
def InTagOrder (problems : List Diagnostic) : Prop :=
  problems.Pairwise fun a b => a.span.start < b.span.start

/-- Everything that the walk over a row keeps to. -/
structure Accounted (row : List (StmtKind × Span)) : Prop where
  arms : ∀ n, ArmsOnMatches (after [] (row.take n))
  /-- A complaint while a tag is visited is about that tag; the tag is refused and changes nothing,
      or it names another tag than the one that it closes. -/
  complaints : ∀ (n : Nat) (k : StmtKind) (span : Span) (e : Diagnostic),
    row[n]? = some (k, span) → (visit (after [] (row.take n)) k span).2 = some e →
      Complaint k span (after [] (row.take n)) e (after [] (row.take (n + 1)))
  /-- An end tag of the kind of the innermost open tag closes it, whatever the names are.  There is a complaint
      exactly when both tags have a name and these differ. -/
  closings : ∀ (n : Nat) (k : StmtKind) (span : Span) (o : OpenTag) (rest : Stack),
    row[n]? = some (k, span) → k.closes? = some o.kind →
      closable o.kind (after [] (row.take n)) = o :: rest →
      after [] (row.take (n + 1)) = rest ∧
        ∀ e, (visit (after [] (row.take n)) k span).2 = some e ↔
          ∃ expected found, o.name = some expected ∧ k.endName? = some found ∧ expected ≠ found ∧
            e = ⟨.unbalanced (.misnamed o.kind expected found), span⟩
  /-- Tags may be told apart by their numbers: places are only handed on. -/
  places : check [] row = respan (placeIn row) (check [] (numbered (row.map Prod.fst))) ∧
    ∀ n, after [] (row.take n) =
      respan (placeIn row) (after [] ((numbered (row.map Prod.fst)).take n))
  /-- No two complaints are about the same tag. -/
  once : ((check [] (numbered (row.map Prod.fst))).map (·.span)).Nodup
  /-- The unclosed tags come last, in their order. -/
  order : ∃ first last, check [] (numbered (row.map Prod.fst)) = first ++ last ∧
    (∀ e ∈ first, ∀ kind, e.fault ≠ .unbalanced (.unclosed kind)) ∧
    (∀ e ∈ last, ∃ kind, e.fault = .unbalanced (.unclosed kind)) ∧
    InTagOrder first ∧ InTagOrder last
  fates : ∀ (i : Nat) (k : StmtKind) (kind : Opener), (row.map Prod.fst)[i]? = some k →
    k.opens? = some kind → Fate (row.map Prod.fst) i kind

theorem complaint_at {row : List (StmtKind × Span)} {n : Nat} {k : StmtKind} {span : Span}
    {e : Diagnostic} (hat : row[n]? = some (k, span))
    (he : (visit (after [] (row.take n)) k span).2 = some e) :
    Complaint k span (after [] (row.take n)) e (after [] (row.take (n + 1))) := by
  rw [after_take_succ hat]
  exact (effect_of_visit (armsOnMatches_after armsOnMatches_nil) k span).complaint he

theorem closing_at {row : List (StmtKind × Span)} {n : Nat} {k : StmtKind} {span : Span} {o : OpenTag} {rest : Stack}
    (hat : row[n]? = some (k, span)) (hk : k.closes? = some o.kind)
    (hstack : closable o.kind (after [] (row.take n)) = o :: rest) :
    after [] (row.take (n + 1)) = rest ∧
      ∀ e, (visit (after [] (row.take n)) k span).2 = some e ↔
        ∃ expected found, o.name = some expected ∧ k.endName? = some found ∧ expected ≠ found ∧
          e = ⟨.unbalanced (.misnamed o.kind expected found), span⟩ := by
  have hvisit : visit (after [] (row.take n)) k span = _ := visit_of_closes? hk hstack
  rw [after_take_succ hat, hvisit]
  exact ⟨rfl, fun e => misnamed?_eq_some_iff⟩

theorem numbers_nodup (kinds : List StmtKind) :
    ((check [] (numbered kinds)).map (·.span)).Nodup := by
  obtain ⟨l, hperm, hsub⟩ : ((check [] (numbered kinds)).map (·.span)).Subperm
      ((numbered kinds).map Prod.snd) := places_subperm armsOnMatches_nil
  refine hperm.nodup_iff.1 (((numbers_increase kinds).imp fun hlt heq => ?_).sublist hsub)
  rw [heq] at hlt
  exact Nat.lt_irrefl _ hlt

theorem inTagOrder_of_sublist {kinds : List StmtKind} {problems : List Diagnostic}
    (h : (problems.map (·.span)).Sublist ((numbered kinds).map Prod.snd)) : InTagOrder problems := by
  have hspans := (numbers_increase kinds).sublist h
  rwa [List.pairwise_map] at hspans

theorem finish_inTagOrder (kinds : List StmtKind) :
    InTagOrder (finish (after [] (numbered kinds))) := by
  have hplaces : ((finish (after [] (numbered kinds))).map (·.span)).Sublist
      ((numbered kinds).map Prod.snd) := by
    rw [map_span_finish]
    exact after_sublist armsOnMatches_nil
  exact inTagOrder_of_sublist hplaces

theorem check_numbered_order (kinds : List StmtKind) :
    ∃ first last, check [] (numbered kinds) = first ++ last ∧
      (∀ e ∈ first, ∀ kind, e.fault ≠ .unbalanced (.unclosed kind)) ∧
      (∀ e ∈ last, ∃ kind, e.fault = .unbalanced (.unclosed kind)) ∧
      InTagOrder first ∧ InTagOrder last := by
  refine ⟨_, _, check_eq [] (numbered kinds), fun e he => ?_, fun e he => ?_,
    inTagOrder_of_sublist reports_sublist, finish_inTagOrder kinds⟩
  · obtain ⟨n, t, -, hproblem⟩ := mem_reports_iff.1 he
    exact ((visit_visits _ _ _).problem e hproblem).2
  · obtain ⟨o, -, rfl⟩ := mem_finish_iff.1 he
    exact ⟨o.kind, rfl⟩

/-- For every row of statements: open arms lie on matches, a refused tag leaves everything as it was
    and a misnamed one closes all the same, no tag is complained of twice, unclosed tags come last,
    and every tag that opens meets one fate. -/
theorem tags_accounted (row : List (StmtKind × Span)) : Accounted row where
  arms _ := armsOnMatches_after armsOnMatches_nil
  complaints _ _ _ _ := complaint_at
  closings _ _ _ _ _ := closing_at
  places := ⟨check_eq_respan_numbered row, after_eq_respan_numbered row⟩
  once := numbers_nodup _
  order := check_numbered_order _
  fates _ _ _ := fate_of_opens?

/-- An arm and the end of the match inside of a branch are refused, and the arm around the branch is
    still there when the branch has ended. -/
example (subject : Expr) (p : Pattern) (c : Cond) :
    check [] (numbered [.matchOn subject, .whenArm p, .ifCond c, .whenArm p, .endMatch, .endIf,
      .endWhen, .endMatch]) =
    [⟨.unbalanced (.misplaced "when"), .point 3⟩,
      ⟨.unbalanced (.misplaced "endmatch"), .point 4⟩] := rfl

end Balance

end Stencil
